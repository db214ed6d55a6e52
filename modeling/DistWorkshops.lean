import DistWorkshops.Echo.Streaming
import DistWorkshops.Tasks.Segments
import DistWorkshops.Tasks.Equivalence
import DistWorkshops.Webhook.Timing
import DistWorkshops.Webhook.MessageIds
import DistWorkshops.Sharding.CityLiteral
import DistWorkshops.Location.AllOrNothing
import DistWorkshops.VectorClock.Completion
import DistWorkshops.VectorClock.Lattice
import DistWorkshops.Mutex.TokenRing
import DistWorkshops.Mutex.Fifo
import DistWorkshops.Mutex.BoundedWaiting
import DistWorkshops.VectorClock.StrongClock
import DistWorkshops.Peers.Contraction
import DistWorkshops.Peers.Synchronised
import DistWorkshops.Chord.Lookup
import DistWorkshops.Location.Lookup
import DistWorkshops.Webhook.Schemas
import DistWorkshops.Lib.Server
import DistWorkshops.Webhook.Ingestion
import DistWorkshops.Webhook.Sequencing
import DistWorkshops.Lib.Run
import DistWorkshops.Mutex.Release
import DistWorkshops.VectorClock.Counting
import DistWorkshops.VectorClock.Delivery
import DistWorkshops.Lib.Utf8
import DistWorkshops.Webhook.Agreement
import DistWorkshops.Webhook.Hashing
import DistWorkshops.Lib.Decimal
import DistWorkshops.PubSub.Filtering
import DistWorkshops.Lib.PyFloat
import DistWorkshops.Peers.Wire
import DistWorkshops.Peers.PeerList
import DistWorkshops.Accounts.Scripts
import DistWorkshops.Registry.Registration
import DistWorkshops.Chord.Hops
import DistWorkshops.Chord.Successor
import DistWorkshops.Chord.Fingers
import DistWorkshops.Peers.Reply
import DistWorkshops.Webhook.Trace
import DistWorkshops.Forwarding.Resolve
import DistWorkshops.Forwarding.Shortcuts
import DistWorkshops.Forwarding.Termination
import DistWorkshops.Location.Stale
import DistWorkshops.Location.Tracking
import DistWorkshops.Location.TreePath
import DistWorkshops.Location.Climbing
import DistWorkshops.Lib.KeyedTable
import DistWorkshops.Sharding.Client
import DistWorkshops.Sharding.Horizontal
import DistWorkshops.Sharding.Vertical
import DistWorkshops.Lib.Replication
import DistWorkshops.Replica.ReadAfterWrite
import DistWorkshops.Lib.Relay
import DistWorkshops.Pipeline.Broker
import DistWorkshops.Peers.Drift
import DistWorkshops.Peers.Epochs
import DistWorkshops.Webhook.Payloads
import DistWorkshops.Webhook.Client
import DistWorkshops.Webhook.Dispatch
import DistWorkshops.Lib.Transactions
import DistWorkshops.Accounts.Deadlock
import DistWorkshops.Lib.Calendar
import DistWorkshops.Lib.TimeFormat
import DistWorkshops.Utc.TimeServer
import DistWorkshops.Utc.Session
import DistWorkshops.Webhook.Benchmark
import DistWorkshops.Location.History
import DistWorkshops.Echo.Session
import DistWorkshops.Chord.Keys
import DistWorkshops.Peers.Options
import DistWorkshops.Peers.Launcher
import DistWorkshops.Registry.Discovery
import DistWorkshops.Peers.Completion
import DistWorkshops.Lib.Double
import DistWorkshops.Matrices.Manager
import DistWorkshops.Matrices.Client
