import Nea.Allocator.Arena
import Nea.Queue.System
import Mathlib.Tactic.Simps.Basic

/-!
# One bucket of the executor (`run_bucket`, `cleanup_bucket`, `set`, `try_claim`)

The executor keeps its state in arrays (`refcounts`, `futures`, `tcp_streams`, `connections`, and
the buckets of the allocator).  A `Bucket` is the row of these arrays that belongs to one bucket;
entry `i` of its connections is entry `http_connections(bucket).start + i` of the array.

* `TaskPc`            where a worker is inside `run_bucket`, between two calls of `dequeue`;
* `taskStep`          its next step on the bucket.  One step is one atomic operation or one critical
                      section; what the polled future does is the choice of the action;
* `AcceptPc`, `acceptStep`   the same for the accept thread in `try_claim`, `set` and `execute`;
* `Effect`            what a step does outside of the bucket.

Arithmetic is that of a build with overflow checks, as everywhere in this development.  A panic of
the executor's own code that nothing catches (an `unwrap` that fails, an assertion) ends the thread:
memory for its message is taken to be there.
-/

set_option linter.unusedSectionVars false

namespace Nea

abbrev RawFd := ℕ

/-- `Slot`; which connection future occupies a slot does not matter here -/
inductive Slot where
  | empty
  | reserved
  | occupied
deriving DecidableEq

/-- the main future of a request, with the slots its unfinished handshakes have reserved -/
structure MainFut where
  handshakes : List ℕ
deriving DecidableEq

/-- the history of the descriptor of a bucket (for statements only; no code reads it) -/
inductive FdEvent where
  /-- `try_claim` hands the bucket out -/
  | claim
  /-- `set` stores the descriptor -/
  | store (fd : RawFd)
  /-- `OwnedFd::from_raw_fd` -/
  | reclaim (fd : RawFd)
deriving DecidableEq

structure Bucket where
  refcount : Mutex ℕ
  future : Mutex (Option MainFut)
  tcpStream : RawFd
  connections : ℕ → Mutex Slot
  /-- `remaining` of the bucket in the allocator -/
  remaining : ℕ
  /-- latest event first -/
  trace : List FdEvent

namespace Bucket

def init (cfg : Cfg) : Bucket where
  refcount := { val := 0 }
  future := { val := none }
  tcpStream := 0
  connections _ := { val := .empty }
  remaining := cfg.bucketSize
  trace := []

@[simps] def setRefcount (v : Bucket) (m : Mutex ℕ) : Bucket := { v with refcount := m }
@[simps] def setFuture (v : Bucket) (m : Mutex (Option MainFut)) : Bucket := { v with future := m }
@[simps] def setConn (v : Bucket) (i : ℕ) (m : Mutex Slot) : Bucket :=
  { v with connections := Function.update v.connections i m }
@[simps] def setRemaining (v : Bucket) (n : ℕ) : Bucket := { v with remaining := n }
@[simps] def setTcpStream (v : Bucket) (fd : RawFd) : Bucket := { v with tcpStream := fd }
@[simps] def log (v : Bucket) (e : FdEvent) : Bucket := { v with trace := e :: v.trace }

/-- the slots that the unfinished handshakes of the main future have reserved -/
def handshakes (v : Bucket) : List ℕ := (v.future.val.map (·.handshakes)).getD []

/-- the main future changes its handshakes; its lock is held -/
def setHandshakes (v : Bucket) (l : List ℕ) : Bucket := v.setFuture (v.future.set (some ⟨l⟩))

end Bucket

/-! ## a worker inside `run_bucket` -/

/-- where a main future that is being polled is -/
inductive HandshakePc where
  /-- in the code of the application (or of the library it awaits) -/
  | polling
  /-- in `handshake`: the refcount is next -/
  | count
  /-- in `handshake`: looking at slot `i` is next (`counted`: the refcount was incremented) -/
  | search (i : ℕ) (counted : Bool)
  /-- in `handshake`: slot `i` is populated and `initial_enqueue` is next -/
  | enqueue (i : ℕ)
deriving DecidableEq

/-- the refcount has been incremented and no slot has been reserved for it yet -/
def HandshakePc.counted : HandshakePc → Bool
  | .search _ counted => counted
  | _ => false

inductive CleanupReason where
  | outOfMemory
  | panic
deriving DecidableEq

/-- a mutex of the bucket that an arm of `run_bucket` locks for the poll -/
inductive Guard where
  | future
  | conn (i : ℕ)
deriving DecidableEq

/-- how a task failed, as far as `run_bucket` and its thread know when they clean up -/
structure Failure where
  reason : CleanupReason
  /-- `task_mut`, by the mutex that it is of -/
  guard : Guard
  /-- a panic of the thread is in progress: the jump out of its unwinding has ended no panic -/
  panicking : Bool
  /-- a destructor ran out of memory in an earlier `cleanup_bucket` of the same failure, under the
  guard of this mutex, which is still around -/
  left : Option Guard
deriving DecidableEq

namespace Failure

/-- `catch_unwind` has caught a panic -/
def caught : Failure := ⟨.panic, .future, false, none⟩

/-- out of memory in an arm -/
def thrown (guard : Guard) (panicking : Bool) : Failure := ⟨.outOfMemory, guard, panicking, none⟩

/-- out of memory in a destructor that `cleanup_bucket` runs under the guard of `left`
(`panicked`: while a panic of this destructor unwinds) -/
def again (f : Failure) (left : Guard) (panicked : Bool) : Failure :=
  ⟨.outOfMemory, f.guard, f.panicking || panicked, some left⟩

end Failure

/-- where `cleanup_bucket` is -/
inductive CleanupPc where
  | load
  /-- writing the response to the reclaimed descriptor is next -/
  | respond (fd : RawFd)
  | close (fd : RawFd)
  /-- dropping connection `i` is next -/
  | slots (i : ℕ)
  | future
  | wipe
  | release
deriving DecidableEq

inductive TaskPc where
  /-- not between two calls of `dequeue` -/
  | idle
  /-- `dequeue` answered this offset -/
  | job (b off : ℕ)
  /-- `try_lock` on the main future is next -/
  | takeMain (b : ℕ)
  /-- polling the main future, whose lock is held from here to `mainDropping` -/
  | main (b : ℕ) (h : HandshakePc)
  /-- the main future was taken out; reclaiming the descriptor is next -/
  | mainTaken (b : ℕ)
  | mainClosing (b : ℕ) (fd : RawFd)
  /-- the destructor of the main future is running -/
  | mainDropping (b : ℕ)
  /-- a panic unwinds up to `catch_unwind`, with the lock of the main future held; `owed`: the
  refcount still counts a task that has ended or a slot that was never reserved -/
  | unwinding (b : ℕ) (owed : Bool)
  /-- the panic was caught; `clear_poison` is next -/
  | poisoned (b : ℕ) (owed : Bool)
  /-- `lock` on connection `i` is next -/
  | takeConn (b i : ℕ)
  /-- polling connection `i`, whose lock is held -/
  | conn (b i : ℕ)
  /-- the slot is empty and the destructor of the connection is running -/
  | connDropping (b i : ℕ)
  /-- a poll returned ready; the refcount is next -/
  | ready (b : ℕ)
  | cleanup (b : ℕ) (f : Failure) (k : CleanupPc)
deriving DecidableEq

def TaskPc.bucket : TaskPc → Option ℕ
  | .idle => none
  | .job b _ => some b
  | .takeMain b => some b
  | .main b _ => some b
  | .mainTaken b => some b
  | .mainClosing b _ => some b
  | .mainDropping b => some b
  | .unwinding b _ => some b
  | .poisoned b _ => some b
  | .takeConn b _ => some b
  | .conn b _ => some b
  | .connDropping b _ => some b
  | .ready b => some b
  | .cleanup b _ _ => some b

/-- code of the application is running (a poll or a destructor), which may wake any task -/
def TaskPc.userCode : TaskPc → Bool
  | .main _ .polling => true
  | .mainDropping _ => true
  | .unwinding _ _ => true
  | .conn _ _ => true
  | .connDropping _ _ => true
  | .cleanup _ _ (.slots _) => true
  | .cleanup _ _ .future => true
  | _ => false

inductive TaskAct where
  /-- the executor's own code goes on (where a destructor is running: it has returned) -/
  | step
  /-- the polled future allocates -/
  | alloc (l : Layout)
  /-- the main future starts a handshake -/
  | connect
  /-- an unfinished handshake of the main future succeeds, or is dropped -/
  | populate (i : ℕ)
  | forget (i : ℕ)
  | pending
  | ready
  | panic
  /-- `roc_panic` -/
  | oom
  /-- a panic, and `roc_panic` while it unwinds; in the main arm these are two steps -/
  | panicOom

/-- what a step does outside of the bucket -/
inductive Effect where
  | none
  /-- a panic is raised that `catch_unwind` will catch -/
  | panic
  /-- a panic that nothing catches ends the thread -/
  | die
  /-- the bucket was wiped and `run_bucket` answers `Forever` -/
  | forever
  | enqueue (q : QueueIndex)
  | reclaim (fd : RawFd)
  | respond (fd : RawFd)
  | close (fd : RawFd)
  /-- `clear_bucket` in `cleanup_bucket` -/
  | wipe
deriving DecidableEq

/-- the classification of a dequeued offset: the arm of `run_bucket` it selects, `none` for
`todo!()`, `unreachable!()` and the panics of the conversions -/
def dispatch (cfg : Cfg) (b off : ℕ) : Option TaskPc := do
  let base ← mulChecked (.ofNat b) (.ofNat cfg.io.perBucket)
  let index ← addChecked base (.ofNat off)
  match ← IoIndex.fromIndex cfg.io ⟨0, index⟩ with
  | .inputStream bucketIndex => some (.takeMain bucketIndex.index.toNat)
  | .httpConnection c => some (.takeConn b (c.index.toNat - cfg.io.httpStart b))

namespace Bucket
variable (cfg : Cfg) (v : Bucket)

/-- an allocation in the bucket: the new `remaining` -/
def allocate (l : Layout) : Option ℕ :=
  if l.align > maxSupportedAlign then none else carve l v.remaining

/-- a panic in the main arm -/
def raise (b : ℕ) (owed : Bool) : Option (Bucket × TaskPc × Effect) :=
  some (v, .unwinding b owed, .panic)

/-- `drop(task_mut)`: the mutex is unlocked, whoever holds it by now, and poisoned if the thread is
panicking (it was not when it took the guard) -/
def dropGuard : Guard → Bool → Bucket
  | .future, panicking => v.setFuture (v.future.leave panicking)
  | .conn i, panicking => v.setConn i ((v.connections i).leave panicking)

/-- out of memory in an arm: back to `setjmp`, the guard is dropped -/
def longjmp (b : ℕ) (guard : Guard) (panicking : Bool) : Option (Bucket × TaskPc × Effect) :=
  some (v.dropGuard guard panicking, .cleanup b (.thrown guard panicking) .load, .none)

/-- out of memory in a destructor that `cleanup_bucket` runs under the guard of `left`: back to the
same `setjmp`, and once more through what follows there -/
def longjmpAgain (b : ℕ) (f : Failure) (left : Guard) (panicked : Bool) :
    Option (Bucket × TaskPc × Effect) :=
  some (v.dropGuard f.guard (f.panicking || panicked), .cleanup b (f.again left panicked) .load,
    .none)

/-- what a main future can do while it is polled -/
def pollMain (b : ℕ) : TaskAct → Option (Bucket × TaskPc × Effect)
  | .step => none
  | .alloc l =>
    match v.allocate l with
    | some n => some (v.setRemaining n, .main b .polling, .none)
    | none => v.longjmp b .future false
  | .connect => some (v, .main b .count, .none)
  | .populate i =>
    if i ∈ v.handshakes then
      if (v.connections i).free then
        if (v.connections i).val = .reserved then
          some ((v.setConn i ((v.connections i).set .occupied)).setHandshakes
            (v.handshakes.erase i), .main b (.enqueue i), .none)
        else (v.setConn i (v.connections i).unwind).raise b false
      else v.raise b false
    else none
  | .forget i =>
    if i ∈ v.handshakes then
      some (v.setHandshakes (v.handshakes.erase i), .main b .polling, .none)
    else none
  | .pending => some (v.setFuture v.future.unlock, .idle, .none)
  | .ready => some (v.setFuture (v.future.set none), .mainTaken b, .none)
  | .panic => v.raise b false
  | .oom => v.longjmp b .future false
  | .panicOom => none

/-- the steps of `handshake` itself -/
def handshakeStep (b : ℕ) : HandshakePc → Option (Bucket × TaskPc × Effect)
  | .polling => none
  | .count =>
    if v.refcount.poisoned then v.raise b false
    else if v.refcount.val = 0 then some (v, .main b (.search 0 false), .none)
    else if v.refcount.val + 1 < 2^8 then
      some (v.setRefcount (v.refcount.set (v.refcount.val + 1)), .main b (.search 0 true), .none)
    else (v.setRefcount v.refcount.unwind).raise b false
  | .search i counted =>
    if i < cfg.io.httpConnections then
      if (v.connections i).free ∧ (v.connections i).val = .empty then
        some ((v.setConn i ((v.connections i).set .reserved)).setHandshakes (i :: v.handshakes),
          .main b .polling, .none)
      else some (v, .main b (.search (i + 1) counted), .none)
    else v.raise b counted
  | .enqueue i =>
    match QueueIndex.fromConnectionIndex cfg.io ⟨0, .ofNat (cfg.io.httpStart b + i)⟩ with
    | none => v.raise b false
    | some q =>
      match initialEnqueue cfg q with
      | none => v.raise b false
      | some _ => some (v, .main b .polling, .enqueue q)

/-- what a connection can do while it is polled -/
def pollConn (b i : ℕ) : TaskAct → Option (Bucket × TaskPc × Effect)
  | .alloc l =>
    match v.allocate l with
    | some n => some (v.setRemaining n, .conn b i, .none)
    | none => v.longjmp b (.conn i) false
  | .pending => some (v.setConn i (v.connections i).unlock, .idle, .none)
  | .ready => some (v.setConn i ((v.connections i).set .empty), .connDropping b i, .none)
  -- no `catch_unwind` in this arm
  | .panic => some (v.setConn i (v.connections i).unwind, .conn b i, .die)
  | .oom => v.longjmp b (.conn i) false
  | .panicOom => v.longjmp b (.conn i) true
  | _ => none

/-- the steps of `cleanup_bucket`; destructors run under the guards of `.slots` and `.future`, which
poison nothing when the thread was panicking before -/
def cleanupStep (b : ℕ) (f : Failure) : CleanupPc → TaskAct → Option (Bucket × TaskPc × Effect)
  | .load, .step =>
    some (v.log (.reclaim v.tcpStream), .cleanup b f (.respond v.tcpStream), .reclaim v.tcpStream)
  | .respond fd, .step => some (v, .cleanup b f (.close fd), .respond fd)
  | .close fd, .step => some (v, .cleanup b f (.slots 0), .close fd)
  | .slots i, .step =>
    if i < cfg.io.httpConnections then
      if (v.connections i).free then
        some (v.setConn i ((v.connections i).set .empty), .cleanup b f (.slots (i + 1)), .none)
      else some (v, .cleanup b f (.slots i), .die)
    else some (v, .cleanup b f .future, .none)
  -- a destructor panics; the slot is overwritten all the same
  | .slots i, .panic =>
    if i < cfg.io.httpConnections ∧ (v.connections i).free ∧ (v.connections i).val = .occupied then
      some (v.setConn i (((v.connections i).set .empty).leave (!f.panicking)),
        .cleanup b f (.slots i), .die)
    else none
  -- a destructor runs out of memory; the slot is not overwritten, and its guard stays
  | .slots i, .oom =>
    if i < cfg.io.httpConnections ∧ (v.connections i).free ∧ (v.connections i).val = .occupied then
      (v.setConn i (v.connections i).lock).longjmpAgain b f (.conn i) false
    else none
  | .slots i, .panicOom =>
    if i < cfg.io.httpConnections ∧ (v.connections i).free ∧ (v.connections i).val = .occupied then
      (v.setConn i (v.connections i).lock).longjmpAgain b f (.conn i) true
    else none
  | .future, .step =>
    if v.future.poisoned then some (v, .cleanup b f .future, .die)
    else if v.future.locked then none
    else some (v.setFuture (v.future.set none), .cleanup b f .wipe, .none)
  | .future, .panic =>
    if v.future.free ∧ v.future.val.isSome then
      some (v.setFuture ((v.future.set none).leave (!f.panicking)), .cleanup b f .future, .die)
    else none
  -- the future was taken out before its destructor ran
  | .future, .oom =>
    if v.future.free ∧ v.future.val.isSome then
      (v.setFuture (v.future.set none).lock).longjmpAgain b f .future false
    else none
  | .future, .panicOom =>
    if v.future.free ∧ v.future.val.isSome then
      (v.setFuture (v.future.set none).lock).longjmpAgain b f .future true
    else none
  | .wipe, .step => some (v.setRemaining cfg.bucketSize, .cleanup b f .release, .wipe)
  | .release, .step =>
    if v.refcount.poisoned then some (v, .cleanup b f .release, .die)
    else some (v.setRefcount (v.refcount.set 0), .idle, .none)
  | _, _ => none

/-- the next step of a worker inside `run_bucket` -/
def taskStep : TaskPc → TaskAct → Option (Bucket × TaskPc × Effect)
  | .job b off, .step =>
    match dispatch cfg b off with
    | some t => some (v, t, .none)
    | none => some (v, .job b off, .die)
  | .takeMain b, .step =>
    if v.future.free then
      match v.future.val with
      | none => (v.setFuture v.future.lock).raise b false
      | some _ => some (v.setFuture v.future.lock, .main b .polling, .none)
    else some (v, .takeMain b, .die)
  | .main b .polling, a => v.pollMain b a
  | .main b h, .step => v.handshakeStep cfg b h
  -- a failure between two steps of `handshake`
  | .main b h, .panic => v.raise b h.counted
  | .main b _, .oom => v.longjmp b .future false
  | .mainTaken b, .step =>
    some (v.log (.reclaim v.tcpStream), .mainClosing b v.tcpStream, .reclaim v.tcpStream)
  | .mainClosing b fd, .step => some (v, .mainDropping b, .close fd)
  | .mainDropping b, .step => some (v.setFuture v.future.unlock, .ready b, .none)
  | .mainDropping b, .panic => v.raise b true
  | .mainDropping b, .oom => v.longjmp b .future false
  | .unwinding b owed, .step => some (v.setFuture v.future.unwind, .poisoned b owed, .none)
  -- `catch_unwind` is jumped over, and the panic stays in progress
  | .unwinding b _, .oom => v.longjmp b .future true
  | .poisoned b _, .step =>
    some (v.setFuture v.future.clearPoison, .cleanup b .caught .load, .none)
  | .takeConn b i, .step =>
    if (v.connections i).poisoned then some (v, .takeConn b i, .die)
    else if (v.connections i).locked then none
    else
      match (v.connections i).val with
      -- `HyperWake::AfterDeath`
      | .empty => some (v, .idle, .none)
      | .reserved => some (v.setConn i (v.connections i).unwind, .takeConn b i, .die)
      | .occupied => some (v.setConn i (v.connections i).lock, .conn b i, .none)
  | .conn b i, a => v.pollConn b i a
  | .connDropping b i, .step => some (v.setConn i (v.connections i).unlock, .ready b, .none)
  | .connDropping b i, .panic => some (v.setConn i (v.connections i).unwind, .connDropping b i, .die)
  | .connDropping b i, .oom => v.longjmp b (.conn i) false
  | .connDropping b i, .panicOom => v.longjmp b (.conn i) true
  | .ready b, .step =>
    if v.refcount.poisoned then some (v, .ready b, .die)
    else if v.refcount.val = 0 then some (v.setRefcount v.refcount.unwind, .ready b, .die)
    else if v.refcount.val = 1 then
      some ((v.setRemaining cfg.bucketSize).setRefcount (v.refcount.set 0), .idle, .forever)
    else some (v.setRefcount (v.refcount.set (v.refcount.val - 1)), .idle, .none)
  | .cleanup b f k, a => v.cleanupStep cfg b f k a
  | _, _ => none

end Bucket

/-! ## the accept thread -/

/-- where the accept thread is -/
inductive AcceptPc where
  | idle
  /-- `try_claim` looks at bucket `i` next; `fd` is the new client -/
  | claiming (fd : RawFd) (i : ℕ)
  /-- `set`: `try_lock` on the future of bucket `b` is next -/
  | setting (fd : RawFd) (b : ℕ)
  /-- `set`: the lock is held, `replace` is next -/
  | replacing (fd : RawFd) (b : ℕ)
  /-- `set`: storing the descriptor is next (`old`: a future was replaced) -/
  | storing (fd : RawFd) (b : ℕ) (old : Bool)
  /-- `set`: the assertion is next -/
  | checking (b : ℕ) (old : Bool)
  /-- `execute`: `initial_enqueue` is next -/
  | enqueueing (b : ℕ)
  /-- the thread panicked (`claimed`: holding a bucket it had claimed and not set) -/
  | dead (claimed : Option ℕ)
deriving DecidableEq

/-- the bucket the next step is about -/
def AcceptPc.bucket : AcceptPc → Option ℕ
  | .idle => none
  | .claiming _ i => some i
  | .setting _ b => some b
  | .replacing _ b => some b
  | .storing _ b _ => some b
  | .checking b _ => some b
  | .enqueueing b => some b
  | .dead _ => none

/-- the next step of `try_claim`, `set` or `execute`; `busy`: another thread is in a critical
section of the refcount at that moment -/
def Bucket.acceptStep (cfg : Cfg) (v : Bucket) (busy : Bool) :
    AcceptPc → Option (Bucket × AcceptPc × Effect)
  | .claiming fd i =>
    if i < cfg.bucketCount then
      if busy = false ∧ v.refcount.free ∧ v.refcount.val = 0 then
        some ((v.setRefcount (v.refcount.set 1)).log .claim, .setting fd i, .none)
      else some (v, .claiming fd (i + 1), .none)
    else some (v, .idle, .close fd)
  | .setting fd b =>
    -- `futures` has `bucket_count * per_bucket()` entries
    if b < cfg.bucketCount * cfg.io.perBucket ∧ v.future.free then
      some (v.setFuture v.future.lock, .replacing fd b, .none)
    else some (v, .dead (some b), .close fd)
  | .replacing fd b =>
    some (v.setFuture (v.future.set (some ⟨[]⟩)).unlock, .storing fd b v.future.val.isSome, .none)
  | .storing fd b old => some ((v.setTcpStream fd).log (.store fd), .checking b old, .none)
  | .checking b old => some (v, if old then .dead none else .enqueueing b, .none)
  | .enqueueing b =>
    match QueueIndex.fromBucketIndex cfg.io ⟨0, .ofNat b⟩ with
    | none => some (v, .dead none, .none)
    | some q =>
      match initialEnqueue cfg q with
      | none => some (v, .dead none, .none)
      | some _ => some (v, .idle, .enqueue q)
  | _ => none

end Nea
