import FilcAsync.Lib.Machine
import FilcAsync.Framework.Basic
import FilcAsync.Framework.Locks
import FilcAsync.Framework.Marks
import FilcAsync.Framework.PendingFlag
import FilcAsync.Framework.State
import FilcAsync.Framework.Machine
import FilcAsync.Framework.Steps
import FilcAsync.Framework.Frames
import FilcAsync.Framework.LockOrder
import FilcAsync.Framework.Nesting
import FilcAsync.Framework.Groups
import FilcAsync.Compiler.Stub
import FilcAsync.Flat.Machine
import FilcAsync.Flat.Steps
import FilcAsync.Flat.Production
import FilcAsync.Lib.WaitGraph
import FilcAsync.Flat.Deadlock
import FilcAsync.Uring.Ring
import FilcAsync.Uring.Steps
import FilcAsync.Uring.Syscalls
import FilcAsync.Uring.Requests
import FilcAsync.Uring.Submission
import FilcAsync.Uring.Occupancy
import FilcAsync.Uring.PendingFds
import FilcAsync.Uring.Tokens
import FilcAsync.Uring.Provenance
import FilcAsync.Framework.Acts
import FilcAsync.Lib.DoublyLinked
import FilcAsync.Framework.Lifecycle
import FilcAsync.Framework.Handles
import FilcAsync.Compiler.Options
import FilcAsync.Compiler.Strings
import FilcAsync.Lib.Scheduler
import FilcAsync.Uring.Conflicts
import FilcAsync.Uring.Dag
import FilcAsync.Rpc.Request
import FilcAsync.Flat.Calls
import FilcAsync.Rpc.Stream
import FilcAsync.Flat.Host
import FilcAsync.Uring.Runtime
import FilcAsync.Uring.DagRun
import FilcAsync.Uring.Entries
import FilcAsync.Framework.Arena
import FilcAsync.Rpc.Payload
import FilcAsync.Uring.Errno
import FilcAsync.Compiler.OptionSpec
import FilcAsync.Compiler.Staging
import FilcAsync.Uring.CallList
import FilcAsync.Uring.Queue
import FilcAsync.Uring.Quiet
import FilcAsync.Uring.Batching
import FilcAsync.Uring.Lazy
import FilcAsync.Framework.StatsWalk
import FilcAsync.Framework.Lookups
import FilcAsync.Uring.Ids
import FilcAsync.Lib.Chains
import FilcAsync.Framework.LockTable
import FilcAsync.Framework.HandleTable
import FilcAsync.Framework.MarkTable
import FilcAsync.Framework.GroupPolls
import FilcAsync.Uring.CallSteps
import FilcAsync.Uring.Collects
import FilcAsync.Uring.Records
import FilcAsync.Uring.Once
import FilcAsync.Lib.Deferred
import FilcAsync.Flat.Holds
import FilcAsync.Flat.Program
import FilcAsync.Flat.Refinement
import FilcAsync.Flat.Producers
import FilcAsync.Uring.Exclusion
import FilcAsync.Compiler.Erasure
import FilcAsync.Compiler.Linking
