import Nea.Queue.Counter
import Nea.Queue.Wake
import Nea.Executor.Memory
import Nea.Executor.Wakeups
import Nea.Executor.Descriptors
import Nea.Executor.Survival
import Nea.Executor.Stale
import Nea.Allocator.System
import Nea.Reactor.Readiness
import Nea.Reactor.Duplex
import Nea.Queue.Drain
import Nea.Queue.Pool
import Nea.Executor.Rest
import Nea.Executor.Delivery
import Nea.Executor.Routing
import Nea.Queue.Sleep
import Nea.Queue.Handover
import Nea.Queue.Decide
import Nea.Config
import Nea.Allocator.Predictable
import Nea.Allocator.Rounds
import Nea.Reactor.Read
import Nea.Executor.Restore
import Nea.Executor.Confined
import Nea.Executor.Sources
import Nea.Benchmarks.Request
import Nea.Benchmarks.Server
import Nea.Benchmarks.Serve
import Nea.Benchmarks.Roc
import Nea.Shared.Jump
import Nea.Allocator.Process
import Nea.Executor.Recovery
import Nea.Lib.Progress
import Nea.Queue.Rank
