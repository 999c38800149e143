import DropRoom.App.Rules
import DropRoom.Effect.Deadlock
import DropRoom.Store.References

/-!
# The foreign keys of the database

The references between the tables of `app/models`, and the server on a database that enforces them.
A statement may then wait for more than the lock of a row that it writes, so two transactions can wait
for each other, and PostgreSQL aborts one of them: its statement raises, and its transaction is rolled
back. No program of the server issues a statement after that but `ROLLBACK`.

`keyed_done` says what a command does to the world: what it does without foreign keys, but that an
`INSERT` may be refused and that a `DELETE` of sessions also writes the rows that refer to them.
-/

namespace DropRoom

open Store Effect

/-- The foreign keys of `app/models`. A session that is deleted leaves the files and messages that refer
to it, with NULL; a room is never deleted. -/
def references : References Table Row where
  targets {t} := match t with
    | .rooms => fun _ => []
    | .sessions => fun r => [(.rooms, r.room_id)]
    | .files => fun r => (.rooms, r.room_id) :: r.uploaded_by.toList.map fun i => (.sessions, i)
    | .messages => fun r =>
      (.rooms, r.room_id) :: r.sender_session_id.toList.map fun i => (.sessions, i)
    | .auditEvents => fun r => r.room_id.toList.map fun i => (.rooms, i)
  referring
    | .sessions => [.files, .messages]
    | _ => []
  release {t} := match t with
    | .files => fun hit r =>
      { r with uploaded_by := r.uploaded_by.filter fun i => !hit .sessions i }
    | .messages => fun hit r =>
      { r with sender_session_id := r.sender_session_id.filter fun i => !hit .sessions i }
    | .rooms | .sessions | .auditEvents => fun _ r => r
  referring_nodup t := by cases t <;> decide

/-- The world, with the locks of the foreign keys. -/
structure KeyedWorld where
  world : World
  shares : List (Share Table)

/-- A world in which no transaction is open. -/
def World.keyed (w : World) : KeyedWorld := ⟨w, []⟩

/-- A statement that is refused raises. -/
def orRaise {α : Type} : Option α → Except Err α
  | some a => .ok a
  | none => .error .exception

/-- Execute a command, where the database has its foreign keys. -/
def execKeyed (p : ℕ) : (c : Cmd) → KeyedWorld → Option (Except Err (Resp c) × KeyedWorld)
  | .sql q, w =>
    (Keyed.exec dialect references p q ⟨w.world.db, w.shares⟩).map fun (a, s) =>
      (orRaise a, ⟨{ w.world with db := s.tables }, s.shares⟩)
  | c, w => (exec p c w.world).map fun (x, world) => (x, { w with world })

/-- The server on a database with foreign keys, while nothing fails. -/
def keyed : Machine Cmd Resp Err KeyedWorld where
  exec := execKeyed
  fault _ _ := False
  env w w' := w.world.Tick w'.world ∧ w'.shares = w.shares

/-- The deadlocks of PostgreSQL. -/
def deadlocks : Victims Cmd Err KeyedWorld where
  blocks p c w q := ∃ s : Sql Table Row Upd Del, c = .sql s ∧
    Keyed.Blocks dialect references p s ⟨w.world.db, w.shares⟩ q
  abort p w := ⟨{ w.world with db := w.world.db.rollback p },
    Keyed.unshared p ⟨w.world.db, w.shares⟩⟩
  error := .exception

/-- What a command of process `p` is answered, and what it does to the world. -/
inductive Done (p : ℕ) (w : World) : (c : Cmd) → Except Err (Resp c) → World → Prop
  /-- It does what it does without foreign keys. -/
  | plain {c x w'} (h : reliable.Answer p c w x w') : Done p w c x w'
  /-- An `INSERT` is refused, since a row that it refers to is not there. -/
  | refused {t r x} (hx : x ∈ references.targets r) (h : w.db.get p x.1 x.2 = none) :
      Done p w (.sql (.insert t r)) (.error .exception) w
  /-- A `DELETE` also sets the references to its rows to NULL. -/
  | released {t d n w₁ db hit} (h : reliable.Answer p (.sql (.deleteWhere t d)) w (.ok n) w₁)
      (hs : references.nullify p hit (references.referring t) w₁.db = some db) :
      Done p w (.sql (.deleteWhere t d)) (.ok n) { w₁ with db }

variable {p : ℕ} {c : Cmd} {w w' : KeyedWorld}

/-- A statement without foreign keys is one of the server while nothing fails. -/
theorem reliable_of_exec {q : Sql Table Row Upd Del} {w : World} {a : q.Answer} {db : Db}
    (h : Sql.exec dialect p q w.db = some (a, db)) :
    reliable.Answer p (.sql q) w (.ok a) { w with db } :=
  .exec (Option.map_eq_some_iff.2 ⟨(a, db), h, rfl⟩)

/-- A command that is not a statement is executed as before. -/
theorem execKeyed_of_ne (h : ∀ q, c ≠ .sql q) :
    execKeyed p c w = (exec p c w.world).map fun y => (y.1, { w with world := y.2 }) := by
  cases c with
  | sql q => exact absurd rfl (h q)
  | _ => rfl

/-- What a command does to the world, where the database has its foreign keys. -/
theorem keyed_done {x : Except Err (Resp c)} (h : keyed.Answer p c w x w') :
    Done p w.world c x w'.world := by
  cases h with
  | fault h => exact h.elim
  | exec h =>
    by_cases hsql : ∃ q, c = .sql q
    · obtain ⟨q, rfl⟩ := hsql
      obtain ⟨⟨a, s⟩, hq, h⟩ := Option.map_eq_some_iff.1 h
      cases h
      have hdoes := Keyed.exec_does hq
      dsimp only at hdoes ⊢
      generalize s.tables = db at hdoes ⊢
      cases hdoes with
      | plain hx => exact .plain (reliable_of_exec hx)
      | refused hx hnone => exact .refused hx hnone
      | released hd hs =>
        have hdone := Done.released (reliable_of_exec hd) hs
        exact hdone
    · rw [show keyed.exec = execKeyed from rfl, execKeyed_of_ne fun q hq => hsql ⟨q, hq⟩] at h
      obtain ⟨⟨y, world⟩, hx, h⟩ := Option.map_eq_some_iff.1 h
      cases h
      exact .plain (.exec hx)

/-- A row after the references to deleted rows were set to NULL: it stays in its room. -/
theorem nullify_cases {t : Table} {hit : Table → ℕ → Bool} {db db' : Db}
    (h : references.nullify p hit (references.referring t) db = some db') (t' : Table) (i : ℕ) :
    db'.cell t' i = db.cell t' i ∨ t' ∈ references.referring t ∧
      ∃ r r', db.get p t' i = some r ∧ roomOf t' r' = roomOf t' r ∧
        (db.cell t' i).heldByOther p = false ∧ db'.cell t' i = (db.cell t' i).write p (some r') := by
  by_cases ht : t' ∈ references.referring t
  · rcases References.nullify_cell (references.referring_nodup t) h t' i with
      hsame | ⟨r, hr, hl, hwrite⟩
    · exact .inl hsame
    · refine .inr ⟨ht, r, _, hr, ?_, hl, hwrite⟩
      cases t' <;> rfl
  · exact .inl (References.nullify_cell_of_notMem h ht i)

/-- A command that waits is a statement, or one that waits for a job. -/
theorem keyed_waits (h : keyed.exec p c w = none) : c = .dequeue ∨
    ∃ q, c = .sql q ∧ Keyed.exec dialect references p q ⟨w.world.db, w.shares⟩ = none := by
  by_cases hsql : ∃ q, c = .sql q
  · obtain ⟨q, rfl⟩ := hsql
    exact .inr ⟨q, rfl, Option.map_eq_none_iff.1 h⟩
  · rw [show keyed.exec = execKeyed from rfl, execKeyed_of_ne fun q hq => hsql ⟨q, hq⟩] at h
    cases c with
    | sql q => exact absurd ⟨q, rfl⟩ hsql
    | dequeue => exact .inl rfl
    | put key data => cases data <;> cases h
    | _ => cases h

end DropRoom
