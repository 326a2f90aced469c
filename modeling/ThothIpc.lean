import ThothIpc.Lib.Bits
import ThothIpc.Lib.Run
import ThothIpc.Lib.Linked
import ThothIpc.Msg
import ThothIpc.Liveness
import ThothIpc.Route.Model
import ThothIpc.Route.Base
import ThothIpc.Route.Guard
import ThothIpc.Route.Reader
import ThothIpc.Route.Trace
import ThothIpc.Route.Fifo
import ThothIpc.Route.Evict
import ThothIpc.Route.Wrap
import ThothIpc.Route.Owner
import ThothIpc.Route.Connect
import ThothIpc.Route.Try
import ThothIpc.Channel.Word
import ThothIpc.Channel.Model
import ThothIpc.Channel.Claims
import ThothIpc.Channel.Work
import ThothIpc.Channel.Exclusive
import ThothIpc.Channel.Since
import ThothIpc.Channel.View
import ThothIpc.Channel.Join
import ThothIpc.Channel.JoinWork
import ThothIpc.Channel.JoinRead
import ThothIpc.Channel.Fifo
import ThothIpc.Channel.Connect
import ThothIpc.Channel.Release
import ThothIpc.Process
import ThothIpc.Sole.Claim
import ThothIpc.Sole.Sender
import ThothIpc.Table.Model
import ThothIpc.Table.Reap
import ThothIpc.Table.Record
import ThothIpc.Message.Receive
import ThothIpc.Message.Safe
import ThothIpc.Message.Fragment
import ThothIpc.Message.Stream
import ThothIpc.Message.History
import ThothIpc.Message.Remain
import ThothIpc.Endpoint.Model
import ThothIpc.Endpoint.Inert
import ThothIpc.Marks
import ThothIpc.Header.Model
import ThothIpc.Header.Once
import ThothIpc.Ulock.Clock
import ThothIpc.Ulock.Model
import ThothIpc.Ulock.Exclusive
import ThothIpc.Ulock.Waiters
import ThothIpc.Ulock.Recover
import ThothIpc.Ulock.Deadline
import ThothIpc.SyncAbi.Model
import ThothIpc.SyncAbi.Agree
import ThothIpc.Shm.Model
import ThothIpc.Shm.Grow
import ThothIpc.Shm.Clear
import ThothIpc.Shm.Split
import ThothIpc.Semaphore
import ThothIpc.Futex.Mutex
import ThothIpc.Futex.Waiter
import ThothIpc.Cpp.Wait
import ThothIpc.Cpp.Send
import ThothIpc.Cpp.Pool
import ThothIpc.Cpp.Unicast
import ThothIpc.Mem.Stack
import ThothIpc.Lib.Region
import ThothIpc.Mem.Monotonic
import ThothIpc.Mem.BumpArena
import ThothIpc.AsyncRecv
import ThothIpc.CoroRecv
import ThothIpc.Notify
import ThothIpc.Lib.Bytes
import ThothIpc.Proto.Envelope
import ThothIpc.Proto.Secure
import ThothIpc.Proto.EnvelopePorts
import ThothIpc.Proto.Aead
import ThothIpc.Proto.Ring.Model
import ThothIpc.Proto.Ring.Reads
import ThothIpc.Proto.Ring.Fifo
import ThothIpc.Proto.Ring.Once
import ThothIpc.Proto.Ring.Queue
import ThothIpc.Lib.Keyed
import ThothIpc.Proto.Registry.Model
import ThothIpc.Proto.Registry.Map
import ThothIpc.Proto.Registry.Found
import ThothIpc.Proto.Group
import ThothIpc.Names
import ThothIpc.ShmName
import ThothIpc.ChunkPool
import ThothIpc.ChunkStore
import ThothIpc.ChunkLayout
import ThothIpc.Lib.Tally
import ThothIpc.WinCondition
import ThothIpc.WaitIf
import ThothIpc.RwLock
import ThothIpc.ShmCache
import ThothIpc.Reactor
import ThothIpc.Codecvt.Model
import ThothIpc.Codecvt.RoundTrip
import ThothIpc.Codecvt.TwoPass
import ThothIpc.Fmt
import ThothIpc.Lib.Prog
import ThothIpc.Lib.Circular
import ThothIpc.Futex.Calls
import ThothIpc.Futex.Robust
import ThothIpc.Futex.Leave
import ThothIpc.Futex.Deadline
import ThothIpc.Proto.Group.History
import ThothIpc.Proto.Group.Primary
import ThothIpc.Proto.Group.Books
import ThothIpc.Delivery
