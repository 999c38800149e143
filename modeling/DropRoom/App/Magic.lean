import DropRoom.App.Models
import Mathlib.Data.List.Infix

/-!
# Content types

`app/file/magic.py`: the content type of a file from its first bytes. A known signature decides;
text keeps the type that the client gave; anything else is `application/octet-stream`.
-/

namespace DropRoom.magic

/-- The bytes of an ASCII literal. -/
def ascii (s : String) : Bytes := s.toList.map fun c => UInt8.ofNat c.toNat

/-- `_MAGIC`: signatures with their type and extension, in the order in which they are tried. -/
def signatures : List (Bytes × String × String) := [
  (0x89 :: ascii "PNG\r\n" ++ [0x1A] ++ ascii "\n", "image/png", "png"),
  ([0xFF, 0xD8, 0xFF], "image/jpeg", "jpg"),
  (ascii "GIF87a", "image/gif", "gif"),
  (ascii "GIF89a", "image/gif", "gif"),
  (ascii "%PDF-", "application/pdf", "pdf"),
  ([0x1F, 0x8B], "application/gzip", "gz"),
  (ascii "PK" ++ [0x03, 0x04], "application/zip", "zip"),
  (ascii "PK" ++ [0x05, 0x06], "application/zip", "zip"),
  (ascii "PK" ++ [0x07, 0x08], "application/zip", "zip"),
  (ascii "Rar!" ++ [0x1A, 0x07], "application/vnd.rar", "rar"),
  ([0x42, 0x5A, 0x68], "application/x-bzip2", "bz2"),
  (ascii "7z" ++ [0xBC, 0xAF, 0x27, 0x1C], "application/x-7z-compressed", "7z"),
  ([0x00, 0x00, 0x00, 0x18] ++ ascii "ftyp", "video/mp4", "mp4"),
  ([0x00, 0x00, 0x00] ++ ascii " ftyp", "video/mp4", "mp4"),
  ([0x1A, 0x45, 0xDF, 0xA3], "video/webm", "webm"),
  (ascii "ID3", "audio/mpeg", "mp3"),
  ([0xFF, 0xFB], "audio/mpeg", "mp3"),
  ([0xFF, 0xF3], "audio/mpeg", "mp3"),
  (ascii "\x7b\\rtf", "application/rtf", "rtf"),
  ([0x25, 0x21], "application/postscript", "ps"),
  ([0xD0, 0xCF, 0x11, 0xE0, 0xA1, 0xB1, 0x1A, 0xE1], "application/x-msi", "msi")]

/-- `sniff`: the type and extension of a known signature. -/
def sniff (pre : Bytes) : Option (String × String) :=
  if (ascii "PK" ++ [0x03, 0x04]).isPrefixOf pre then
    -- An office document is told from a plain archive by the names inside.
    if ["[Content_Types].xml", "word/", "xl/", "ppt/"].any
        fun s => decide (ascii s <:+: pre.take 4096) then
      some ("application/vnd.openxmlformats-officedocument.spreadsheetml.sheet", "xlsx")
    else some ("application/zip", "zip")
  else (signatures.find? fun sig => sig.1.isPrefixOf pre).map Prod.snd

/-- A continuation byte of UTF-8. -/
def isCont (b : UInt8) : Bool := 0x80 ≤ b && b ≤ 0xBF

/-- The bytes are UTF-8, as `bytes.decode("utf-8")` accepts it. -/
def isUtf8 : Bytes → Bool
  | [] => true
  | a :: l =>
    if a ≤ 0x7F then isUtf8 l
    else if 0xC2 ≤ a && a ≤ 0xDF then
      match l with
      | b :: l => isCont b && isUtf8 l
      | _ => false
    else if 0xE0 ≤ a && a ≤ 0xEF then
      match l with
      | b :: c :: l =>
        isCont b && isCont c && (a != 0xE0 || 0xA0 ≤ b) && (a != 0xED || b ≤ 0x9F) && isUtf8 l
      | _ => false
    else if 0xF0 ≤ a && a ≤ 0xF4 then
      match l with
      | b :: c :: d :: l =>
        isCont b && isCont c && isCont d && (a != 0xF0 || 0x90 ≤ b) && (a != 0xF4 || b ≤ 0x8F) &&
          isUtf8 l
      | _ => false
    else false

/-- `is_plain_text`. -/
def isPlainText (pre : Bytes) : Bool := !pre.isEmpty && isUtf8 pre && !pre.contains 0

/-- `normalize_content_type`, without the extension, which no caller uses. -/
def normalizeContentType (pre : Bytes) (client_mime : Option String) : String :=
  match sniff pre with
  | some (mime, _) => mime
  | none =>
    if isPlainText pre then
      match client_mime with
      | some mime => if mime = "" then "text/plain" else mime
      | none => "text/plain"
    else "application/octet-stream"

end DropRoom.magic
