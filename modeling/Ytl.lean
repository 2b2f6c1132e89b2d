import Ytl.Base.Fault
import Ytl.Base.Machine
import Ytl.Base.Trail
import Ytl.Base.Outbox
import Ytl.Base.Rearrange
import Ytl.Base.HeapOrder
import Ytl.Network.Udp
import Ytl.Network.UdpRun
import Ytl.Network.Https
import Ytl.Algorithm.Heap
import Ytl.Algorithm.Sort
import Ytl.Proofs.Udp.Close
import Ytl.Proofs.Udp.Open
import Ytl.Proofs.Udp.Frame
import Ytl.Proofs.Udp.Slots
import Ytl.Proofs.Udp.Ledger
import Ytl.Proofs.Udp.Destroy
import Ytl.Proofs.Udp.Buffers
import Ytl.Proofs.Udp.Flush
import Ytl.Proofs.Udp.Queue
import Ytl.Proofs.Udp.Routing
import Ytl.Proofs.Udp.Storage
import Ytl.Proofs.Udp.Ring
import Ytl.Proofs.Https.Requests
import Ytl.Proofs.Https.Responses
import Ytl.Proofs.Https.Handles
import Ytl.Proofs.Algorithm.Sift
import Ytl.Proofs.Algorithm.Heap
import Ytl.Proofs.Algorithm.Sort
import Ytl.Proofs.Algorithm.PartialSort
import Ytl.Proofs.Algorithm.NthElement
import Ytl.Base.CellMove
import Ytl.Memory.MemOp
import Ytl.Proofs.Memory.Move
import Ytl.Concurrency.Task
import Ytl.Proofs.Concurrency.Nesting
import Ytl.Memory.Allocator
import Ytl.Proofs.Memory.Header
import Ytl.Proofs.Https.FirstRound
import Ytl.Proofs.Https.Completion
import Ytl.Proofs.Https.Sharing
import Ytl.Algorithm.Search
import Ytl.Base.Eytzinger
import Ytl.Proofs.Algorithm.Search
import Ytl.Proofs.Memory.Fill
import Ytl.Base.FirstDiff
import Ytl.Proofs.Memory.Compare
import Ytl.Base.Loop
import Ytl.Base.ZeroByte
import Ytl.String.CString
import Ytl.Proofs.String.Scan
import Ytl.Proofs.String.Length
import Ytl.Proofs.String.Compare
import Ytl.Proofs.String.Reach
import Ytl.Proofs.String.Copy
import Ytl.Algorithm.Sequence
import Ytl.Proofs.Algorithm.Copy
import Ytl.String.Bounded
import Ytl.Proofs.String.Bounded
import Ytl.Proofs.String.Append
import Ytl.Proofs.String.Fold
import Ytl.String.Search
import Ytl.Proofs.String.Char
import Ytl.Proofs.String.Find
import Ytl.Base.Rotation
import Ytl.Proofs.Algorithm.Rotate
import Ytl.Algorithm.Compare
import Ytl.Base.LexOrder
import Ytl.Proofs.Algorithm.Compare
import Ytl.Proofs.Udp.Acyclic
import Ytl.Proofs.Udp.Clean
import Ytl.Base.Positions
import Ytl.Proofs.Udp.Poll
import Ytl.Proofs.Udp.Span
import Ytl.Proofs.Udp.Delivery
import Ytl.Proofs.Udp.Overtaking
import Ytl.Proofs.Udp.Window
import Ytl.Proofs.Udp.Entries
import Ytl.Proofs.Udp.Enqueue
import Ytl.Memory.Pool
import Ytl.Proofs.Memory.SizeClass
import Ytl.Proofs.Memory.Heap
import Ytl.Proofs.Https.Counting
import Ytl.Proofs.Https.Agreement
import Ytl.Proofs.Https.Urls
import Ytl.Network.Moves
import Ytl.Proofs.Moves
import Ytl.Proofs.Algorithm.Descent
import Ytl.Base.WordSet
import Ytl.Memory.Granting
import Ytl.Proofs.Memory.Bitmap
import Ytl.Proofs.Memory.Granting
import Ytl.Proofs.Memory.Blocks
import Ytl.Base.RoundUp
import Ytl.Memory.Large
import Ytl.Proofs.Memory.Large
import Ytl.Concurrency.Threads
import Ytl.Proofs.Concurrency.Threads
import Ytl.Proofs.Concurrency.Modes
import Ytl.Base.Simulation
import Ytl.Network.RequestTable
import Ytl.Proofs.Https.Refinement
import Ytl.Proofs.Udp.Postbox
import Ytl.Proofs.Udp.Calls
import Ytl.Proofs.Udp.Mail
import Ytl.Proofs.Udp.Inert
import Ytl.Base.Owning
import Ytl.Proofs.Udp.Blocks
import Ytl.Proofs.Memory.Pages
import Ytl.Memory.Cleanup
import Ytl.Proofs.Memory.Cleanup
import Ytl.Proofs.Algorithm.Calls
import Ytl.Algorithm.Numeric
import Ytl.Proofs.Algorithm.Numeric
import Ytl.Proofs.String.Buffer
import Ytl.Proofs.String.Order
import Ytl.Proofs.String.Place
import Ytl.Proofs.Memory.Arrays
