import Ubft.Support.OrdMap
import Ubft.Support.Runs
import Ubft.Support.Bytes
import Ubft.Support.Ring
import Ubft.Support.Layout
import Ubft.Store.Tail
import Ubft.Certifier.Definitions
import Ubft.Certifier.Received
import Ubft.Certifier.Check
import Ubft.Certifier.Tail
import Ubft.Certifier.Shares
import Ubft.Certifier.Certificates
import Ubft.Broadcast.Receiver
import Ubft.Broadcast.Order
import Ubft.Broadcast.Effects
import Ubft.Broadcast.Signing
import Ubft.Broadcast.Counting
import Ubft.Broadcast.System
import Ubft.Broadcast.Accusations
import Ubft.Broadcast.Echoes
import Ubft.Broadcast.Agreement
import Ubft.Rpc.Client
import Ubft.Consensus.Messages
import Ubft.Consensus.Definitions
import Ubft.Consensus.Handlers
import Ubft.Consensus.Machine
import Ubft.Consensus.Deployment
import Ubft.Consensus.NewViews
import Ubft.Consensus.Nesting
import Ubft.Consensus.Effects
import Ubft.Consensus.Views
import Ubft.Consensus.FastVotes
import Ubft.Consensus.Frame
import Ubft.Consensus.Checkpoints
import Ubft.Consensus.Prepares
import Ubft.Consensus.Slack
import Ubft.Consensus.Instances
import Ubft.Server.Batch
import Ubft.Server.Execution
import Ubft.Server.Checkpoints
import Ubft.Swmr.Register
import Ubft.Swmr.Hosts
import Ubft.Swmr.Regular
import Ubft.Swmr.Replicated
import Ubft.Swmr.Quorums
import Ubft.TailP2p.Link
import Ubft.TailP2p.Memory
import Ubft.TailP2p.Scan
import Ubft.TailP2p.Poll
import Ubft.Consensus.Streams
import Ubft.Consensus.CbCheckpoints
import Ubft.Consensus.SerializedState
import Ubft.Consensus.Layouts
import Ubft.Consensus.NewViewLayout
import Ubft.Store.VectorTailMap
import Ubft.Store.MapRuns
import Ubft.Consensus.ValidValues
import Ubft.Consensus.Ledger
import Ubft.Consensus.Acknowledgments
import Ubft.Consensus.Verifications
import Ubft.Consensus.Reordering
import Ubft.Consensus.Backing
import Ubft.Consensus.CommitWindows
import Ubft.Certifier.Parsing
import Ubft.Consensus.NewViewParsing
import Ubft.Requests.Client
import Ubft.Requests.Log
import Ubft.Requests.Window
import Ubft.Requests.Validity
import Ubft.Requests.Encoding
import Ubft.Requests.Decisions
import Ubft.Consensus.Proposals
import Ubft.Consensus.ViewChanges
import Ubft.Consensus.Reproposals
import Ubft.Certifier.Promises
import Ubft.Certifier.Outputs
import Ubft.Consensus.SlowVotes
import Ubft.Support.Mem
import Ubft.TailP2p.AsyncSender
import Ubft.TailP2p.Slots
import Ubft.TailP2p.Spill
import Ubft.TailP2p.Queue
import Ubft.TailP2p.Twins
import Ubft.TailP2p.Copies
import Ubft.Broadcast.Delivery
import Ubft.Broadcast.Pooling
import Ubft.Broadcast.Interleavings
import Ubft.Support.Assoc
import Ubft.Swmr.Reader
import Ubft.Swmr.Buffers
import Ubft.Broadcast.Handles
import Ubft.Broadcast.Bookkeeping
import Ubft.Certifier.OwnShares
import Ubft.Certifier.Sending
import Ubft.Store.Reinserting
import Ubft.Requests.Duplicates
import Ubft.ThreadPool.TaskQueues
import Ubft.Rpc.Pending
import Ubft.Rpc.Request
import Ubft.Rpc.Ingress
import Ubft.Rpc.Cursors
import Ubft.Rpc.Forwarding
import Ubft.Rpc.Parking
import Ubft.Rpc.Toggles
import Ubft.Rpc.Handshake
import Ubft.Rpc.Connections
import Ubft.Store.TailQueues
import Ubft.Buffers.Buffer
import Ubft.Buffers.Equality
import Ubft.Buffers.Ownership
import Ubft.Memory.PoolAllocator
import Ubft.Memory.Chunks
import Ubft.Memory.Arena
import Ubft.Conn.ReaderWriterQueue
import Ubft.Conn.ContextedPoller
import Ubft.Conn.Demultiplexing
import Ubft.Support.Heap
import Ubft.ThreadPool.PriorityQueue
import Ubft.ThreadPool.Workers
import Ubft.ThreadPool.Handles
import Ubft.Broadcast.Broadcaster
import Ubft.Broadcast.Computations
