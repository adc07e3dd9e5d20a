import LogShipping.Activity
import LogShipping.Binary
import LogShipping.Binary.Exact
import LogShipping.Bytes
import LogShipping.Checksum
import LogShipping.Cli
import LogShipping.Cluster
import LogShipping.Cluster.Control
import LogShipping.Cluster.Timeline
import LogShipping.Counters
import LogShipping.Entry
import LogShipping.Entry.Batch
import LogShipping.Error
import LogShipping.Host
import LogShipping.HostTable
import LogShipping.Http
import LogShipping.Http.Client
import LogShipping.Http.Delivery
import LogShipping.Http.Page
import LogShipping.Http.Service
import LogShipping.Http.Status
import LogShipping.Key
import LogShipping.Lifecycle
import LogShipping.Lifecycle.Startup
import LogShipping.Lifecycle.Tailing
import LogShipping.Lifecycle.Work
import LogShipping.Log
import LogShipping.Main
import LogShipping.Message
import LogShipping.Node
import LogShipping.Node.Service
import LogShipping.Proofs.Activity.Beside
import LogShipping.Proofs.Activity.CatchUp
import LogShipping.Proofs.Activity.Completion
import LogShipping.Proofs.Activity.Escalation
import LogShipping.Proofs.Activity.Marks
import LogShipping.Proofs.Activity.Phases
import LogShipping.Proofs.Activity.Pulling
import LogShipping.Proofs.Activity.Racing
import LogShipping.Proofs.Activity.Runs
import LogShipping.Proofs.Activity.Startup
import LogShipping.Proofs.Activity.StartupSteps
import LogShipping.Proofs.Activity.Steps
import LogShipping.Proofs.Entry.Burst
import LogShipping.Proofs.Entry.Corruption
import LogShipping.Proofs.Entry.History
import LogShipping.Proofs.Entry.Stored
import LogShipping.Proofs.Host.Laws
import LogShipping.Proofs.Host.Table
import LogShipping.Proofs.Host.Winner
import LogShipping.Proofs.Http.Admission
import LogShipping.Proofs.Http.Exchange
import LogShipping.Proofs.Http.Secrets
import LogShipping.Proofs.Key.Layout
import LogShipping.Proofs.Key.Order
import LogShipping.Proofs.Log.Aiming
import LogShipping.Proofs.Log.AppendOnly
import LogShipping.Proofs.Log.Applying
import LogShipping.Proofs.Log.Holding
import LogShipping.Proofs.Log.Intact
import LogShipping.Proofs.Log.Observers
import LogShipping.Proofs.Log.Pages
import LogShipping.Proofs.Log.Paging
import LogShipping.Proofs.Log.Protection
import LogShipping.Proofs.Log.Reading
import LogShipping.Proofs.Log.RecordIds
import LogShipping.Proofs.Log.Reopening
import LogShipping.Proofs.Log.Replay
import LogShipping.Proofs.Log.Run
import LogShipping.Proofs.Log.Scanning
import LogShipping.Proofs.Log.Seclusion
import LogShipping.Proofs.Log.TimeIndex
import LogShipping.Proofs.Message.Body
import LogShipping.Proofs.Node.Answering
import LogShipping.Proofs.Node.Committing
import LogShipping.Proofs.Push.Buffer
import LogShipping.Proofs.Push.History
import LogShipping.Proofs.Push.Sender
import LogShipping.Proofs.Store.Ensures
import LogShipping.Proofs.Store.Fences
import LogShipping.Proofs.Store.Interchange
import LogShipping.Proofs.Store.Recovery
import LogShipping.Proofs.Store.Search
import LogShipping.Proofs.Text.Base64
import LogShipping.Proofs.World.Backing
import LogShipping.Proofs.World.Calm
import LogShipping.Proofs.World.Divergence
import LogShipping.Proofs.World.Election
import LogShipping.Proofs.World.Failover
import LogShipping.Proofs.World.Following
import LogShipping.Proofs.World.Guarding
import LogShipping.Proofs.World.HostTables
import LogShipping.Proofs.World.Informing
import LogShipping.Proofs.World.Joining
import LogShipping.Proofs.World.Lifecycle
import LogShipping.Proofs.World.Midway
import LogShipping.Proofs.World.Probing
import LogShipping.Proofs.World.Reachable
import LogShipping.Proofs.World.Replication
import LogShipping.Proofs.World.Serving
import LogShipping.Proofs.World.Sound
import LogShipping.Proofs.World.Sources
import LogShipping.Proofs.World.Strides
import LogShipping.Proofs.World.Succession
import LogShipping.Proofs.World.Tailing
import LogShipping.Proofs.World.Tasks
import LogShipping.Proofs.World.Working
import LogShipping.PushBuffer
import LogShipping.Standing
import LogShipping.Store
import LogShipping.Store.Engine
import LogShipping.Store.Recovery
import LogShipping.Store.Rows
import LogShipping.Text.Base64
import LogShipping.Text.Blank
import LogShipping.Text.Digits
import LogShipping.Text.Invisible
import LogShipping.Text.Quoted
import LogShipping.Text.Utf8
import LogShipping.World
