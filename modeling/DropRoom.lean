import DropRoom.Text.Header
import DropRoom.Effect.Program
import DropRoom.Effect.Machine
import DropRoom.Effect.Deadlock
import DropRoom.Effect.Tally
import DropRoom.Effect.Rely
import DropRoom.Store.Versioned
import DropRoom.Store.Sql
import DropRoom.Store.References
import DropRoom.Store.Snapshot
import DropRoom.Store.Register
import DropRoom.App.Models
import DropRoom.App.Events
import DropRoom.App.World
import DropRoom.App.Magic
import DropRoom.App.Repositories
import DropRoom.App.Services
import DropRoom.App.Api
import DropRoom.App.Jobs
import DropRoom.App.Websocket
import DropRoom.App.Footprint
import DropRoom.App.Rules
import DropRoom.App.References
import DropRoom.App.Versions
import DropRoom.App.Lifting
import DropRoom.App.Serial
import DropRoom.App.Tasks
import DropRoom.App.Entitled
import DropRoom.App.Policy
import DropRoom.Rooms.Race
import DropRoom.Rooms.Teardown
import DropRoom.Rooms.Wipe
import DropRoom.Rooms.Capacity
import DropRoom.Files.Deletion
import DropRoom.Files.Completion
import DropRoom.Files.Owing
import DropRoom.Files.Latecomer
import DropRoom.Files.Chunks
import DropRoom.Files.Leftovers
import DropRoom.Files.Orphans
import DropRoom.Files.Overlap
import DropRoom.Files.Entries
import DropRoom.Files.Vault
import DropRoom.App.Checks
import DropRoom.App.Frames
import DropRoom.App.Transactions
import DropRoom.Files.Writes
import DropRoom.Limits.Throttle
import DropRoom.Limits.Limiter
import DropRoom.Limits.Uploads
import DropRoom.Rooms.Codes
import DropRoom.Rooms.Forgery
import DropRoom.Rooms.Isolation
import DropRoom.Rooms.Guests
import DropRoom.Rooms.Cleanup
import DropRoom.Rooms.Passes
import DropRoom.Rooms.Reconnect
import DropRoom.Rooms.Rejoin
import DropRoom.Rooms.Visits
import DropRoom.Rooms.Malformed
import DropRoom.Rooms.Audience
import DropRoom.Rooms.Registry
import DropRoom.Rooms.Delivery
import DropRoom.Rooms.Links
import DropRoom.Jobs.Retries
import DropRoom.Jobs.Queue
import DropRoom.Jobs.Workers
import DropRoom.Jobs.Shutdown
import DropRoom.Jobs.Joining
import DropRoom.Files.Custody
import DropRoom.Files.Acts
import DropRoom.Files.Requests
import DropRoom.Files.Keeping
import DropRoom.Files.Ledger
import DropRoom.Files.Slices
import DropRoom.Files.Staging
import DropRoom.Files.Streaming
import DropRoom.Files.Texts
import DropRoom.Files.Disposition
import DropRoom.Files.Sweeps
import DropRoom.Client.Page
import DropRoom.Client.Permissions
import DropRoom.Disk.Files
import DropRoom.Disk.Backends
import DropRoom.Disk.Puts
import DropRoom.Disk.Listing
