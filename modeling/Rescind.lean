import Rescind.Safety.Reversal
import Rescind.Safety.Admission
import Rescind.Safety.Skips
import Rescind.Safety.Reservations
import Rescind.Safety.Transience
import Rescind.Safety.Exclusion
import Rescind.Safety.Tampering
import Rescind.Safety.Recovery
import Rescind.Safety.Unrolled
import Rescind.Safety.Commands
import Rescind.Safety.Commits
import Rescind.Safety.Artifacts
import Rescind.Safety.Waits
import Rescind.Safety.Handings
import Rescind.Safety.Encodings
import Rescind.Safety.Numbering
import Rescind.Safety.Mirrors
import Rescind.Safety.Transports
import Rescind.Safety.Requesters
import Rescind.Safety.Custody
import Rescind.Safety.Bindings
import Rescind.Safety.Contracts
import Rescind.Safety.Hooks
import Rescind.Safety.Replies
import Rescind.Safety.Lossless
import Rescind.Safety.Spared
import Rescind.Safety.Openings
import Rescind.Safety.Leaks
import Rescind.Safety.Routing
import Rescind.Safety.Framing
import Rescind.Safety.Arguments
import Rescind.Safety.Footprints
import Rescind.Safety.Staged
import Rescind.Safety.Regions
import Rescind.Safety.Manifests
import Rescind.Lib.Literals
import Rescind.Safety.Quoted
import Rescind.Bindings.Cron
import Rescind.Safety.Crontabs
import Rescind.Safety.Lapses
import Rescind.Engine.Words
import Rescind.Safety.Deadlines
import Rescind.Safety.Renewals
import Rescind.Safety.Expiries
import Rescind.Lib.Json
import Rescind.Lib.Said
import Rescind.Lib.Search
import Rescind.Safety.Orders
import Rescind.Safety.Narrowing
import Rescind.Surface.Sites
import Rescind.Core.Canonical
import Rescind.Core.Verdict
import Rescind.Core.Siblings
import Rescind.Safety.Contents
import Rescind.Safety.Siblings
import Rescind.Safety.Shapes
import Rescind.Engine.Keys
import Rescind.Safety.Collisions
import Rescind.Safety.Drills
import Rescind.Safety.Fences
import Rescind.Lib.Finishes
import Rescind.Lib.Killed
import Rescind.Lib.Stores
import Rescind.Render.Firing
import Rescind.Safety.Lifecycles
import Rescind.Safety.Choices
import Rescind.Safety.Sweeps
import Rescind.Safety.Firings
import Rescind.Safety.Restarts
import Rescind.Safety.Targets
import Rescind.Safety.Deadman
import Rescind.Safety.Believed
import Rescind.Bindings.Local
import Rescind.Safety.Twins
import Rescind.Safety.Bodies
import Rescind.Safety.Undoings
import Rescind.Safety.EitherWay
import Rescind.Lib.Atomic
import Rescind.Lib.Files
import Rescind.Engine.Disk
import Rescind.Safety.Persistence
import Rescind.Safety.Migrations
