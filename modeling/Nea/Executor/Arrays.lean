import Nea.Executor.Routing

/-!
# The arrays of the executor

`Nea.Executor.Bucket` looks at the row of one bucket.  Here is the same code on the arrays that the
executor really has, with the locals of `run_bucket`: which bucket, connection or queue index is
computed from which, and which array is accessed with it.

* `access`            an array access; an index past the end is an error of its own, not a panic;
* `Inner`             the arrays;
* `RunPc`, `CallPc`   where a worker is inside `run_bucket` and `handshake`, with their locals;
* `Inner.runStep`     its next step.
-/

set_option linter.unusedSectionVars false

namespace Nea

/-- an array has been accessed past its end -/
structure OutOfBounds where
  length : ℕ
  index : ℕ
deriving DecidableEq

/-- `l[i]` -/
def access {α : Type} (l : List α) (i : ℕ) : Except OutOfBounds α :=
  match l[i]? with
  | some a => .ok a
  | none => .error ⟨l.length, i⟩

/-- an access of an array of which only the length matters here -/
def accessLength (length i : ℕ) : Except OutOfBounds Unit :=
  if i < length then .ok () else .error ⟨length, i⟩

/-- `Inner` and the buckets of the allocator; the handshakes of a future are here the indices of
their connections -/
structure Inner where
  refcounts : List (Mutex ℕ)
  futures : List (Mutex (Option MainFut))
  tcpStreams : List RawFd
  connections : List (Mutex Slot)
  remaining : List ℕ

/-- `get_or_init` and `initialize_buckets` -/
def Inner.init (cfg : Cfg) : Inner where
  refcounts := List.replicate cfg.bucketCount { val := 0 }
  futures := List.replicate (cfg.bucketCount * cfg.io.perBucket) { val := none }
  tcpStreams := List.replicate cfg.bucketCount 0
  connections := List.replicate (cfg.bucketCount * cfg.io.httpConnections) { val := .empty }
  remaining := List.replicate cfg.bucketCount cfg.bucketSize

namespace Inner

def setRefcount (g : Inner) (i : ℕ) (m : Mutex ℕ) : Inner :=
  { g with refcounts := g.refcounts.set i m }
def setFuture (g : Inner) (i : ℕ) (m : Mutex (Option MainFut)) : Inner :=
  { g with futures := g.futures.set i m }
def setConn (g : Inner) (i : ℕ) (m : Mutex Slot) : Inner :=
  { g with connections := g.connections.set i m }
def setRemaining (g : Inner) (i : ℕ) (n : ℕ) : Inner :=
  { g with remaining := g.remaining.set i n }

end Inner

/-! ## where a worker is -/

/-- inside the poll of a main future -/
inductive CallPc where
  | polling
  /-- in `handshake` with the argument `bi` -/
  | count (bi : BucketIndex)
  | search (bi : BucketIndex) (i : ℕ) (counted : Bool)
  /-- `c`: the index of its connection -/
  | enqueue (c : ℕ)
deriving DecidableEq

def CallPc.counted : CallPc → Bool
  | .search _ _ counted => counted
  | _ => false

/-- inside `run_bucket`; a `BucketIndex` is the local that the arm binds, or the argument of
`cleanup_bucket` -/
inductive RunPc where
  | idle
  | job (off : ℕ)
  | takeMain (bi : BucketIndex) (q : QueueIndex)
  | main (bi : BucketIndex) (q : QueueIndex) (k : CallPc)
  | mainTaken (bi : BucketIndex) (q : QueueIndex)
  | mainClosing (bi : BucketIndex) (fd : RawFd)
  | mainDropping (bi : BucketIndex)
  | unwinding (bi : BucketIndex) (owed : Bool)
  | poisoned (bi : BucketIndex) (owed : Bool)
  | takeConn (c : ConnectionIndex)
  | conn (c : ConnectionIndex)
  | connDropping (c : ConnectionIndex)
  | ready
  /-- in `f` and `k`, slots are counted in the array of connections -/
  | cleanup (bi : BucketIndex) (f : Failure) (k : CleanupPc)
deriving DecidableEq

inductive RunAct where
  /-- `dequeue` answers -/
  | dequeue (off : ℕ)
  | step
  | alloc (l : Layout)
  /-- the main future calls `handshake` -/
  | connect (bi : BucketIndex)
  | populate (c : ℕ)
  | forget (c : ℕ)
  | pending
  | ready
  | panic
  | oom
  | panicOom

/-- `none`: not enabled -/
abbrev RunResult := Except OutOfBounds (Option (Inner × RunPc × Effect))

/-- `start` of `http_connections(bucket_index)` -/
def BucketIndex.start (r : IoResources) (bi : BucketIndex) : ℕ := bi.index.toNat * r.httpConnections

/-- `end` of `http_connections(bucket_index)` -/
def BucketIndex.stop (r : IoResources) (bi : BucketIndex) : ℕ := bi.start r + r.httpConnections

/-! ## the steps -/

namespace Inner
variable (cfg : Cfg) (g : Inner)

def raise (bi : BucketIndex) (owed : Bool) : RunResult :=
  .ok (some (g, .unwinding bi owed, .panic))

/-- `drop(task_mut)`, where a future is that of the bucket which is cleaned up -/
def dropGuard (bi : BucketIndex) : Guard → Bool → Except OutOfBounds Inner
  | .future, panicking => do
    let m ← access g.futures bi.index.toNat
    .ok (g.setFuture bi.index.toNat (m.leave panicking))
  | .conn c, panicking => do
    let m ← access g.connections c
    .ok (g.setConn c (m.leave panicking))

/-- the main arm cleans up the bucket that it has found, the connection arm that which `run_bucket`
was called for -/
def longjmp (bi : BucketIndex) (guard : Guard) (panicking : Bool) : RunResult := do
  let g' ← g.dropGuard bi guard panicking
  .ok (some (g', .cleanup bi (.thrown guard panicking) .load, .none))

def longjmpAgain (bi : BucketIndex) (f : Failure) (left : Guard) (panicked : Bool) : RunResult := do
  let g' ← g.dropGuard bi f.guard (f.panicking || panicked)
  .ok (some (g', .cleanup bi (f.again left panicked) .load, .none))

/-- the allocator, with `CURRENT_ARENA` set to the argument of `run_bucket` -/
def allocate (outer : BucketIndex) (l : Layout) : Option ℕ :=
  g.remaining[outer.index.toNat]?.bind
    (fun r => if l.align > maxSupportedAlign then none else carve l r)

def handshakes (m : Mutex (Option MainFut)) : List ℕ := (m.val.map (·.handshakes)).getD []

def pollMain (outer bi : BucketIndex) (q : QueueIndex) : RunAct → RunResult
  | .alloc l =>
    match g.allocate outer l with
    | some n => .ok (some (g.setRemaining outer.index.toNat n, .main bi q .polling, .none))
    | none => g.longjmp bi .future false
  | .connect hb => .ok (some (g, .main bi q (.count hb), .none))
  | .populate c => do
    let m ← access g.futures bi.index.toNat
    if c ∈ handshakes m then
      let conn ← access g.connections c
      if conn.free then
        if conn.val = .reserved then
          .ok (some ((g.setConn c (conn.set .occupied)).setFuture bi.index.toNat
            (m.set (some ⟨(handshakes m).erase c⟩)), .main bi q (.enqueue c), .none))
        else (g.setConn c conn.unwind).raise bi false
      else g.raise bi false
    else .ok none
  | .forget c => do
    let m ← access g.futures bi.index.toNat
    if c ∈ handshakes m then
      .ok (some (g.setFuture bi.index.toNat (m.set (some ⟨(handshakes m).erase c⟩)),
        .main bi q .polling, .none))
    else .ok none
  | .pending => do
    let m ← access g.futures bi.index.toNat
    .ok (some (g.setFuture bi.index.toNat m.unlock, .idle, .none))
  | .ready => do
    let m ← access g.futures bi.index.toNat
    .ok (some (g.setFuture bi.index.toNat (m.set none), .mainTaken bi q, .none))
  | .panic => g.raise bi false
  | .oom => g.longjmp bi .future false
  | _ => .ok none

def handshakeStep (bi : BucketIndex) (q : QueueIndex) : CallPc → RunResult
  | .polling => .ok none
  | .count hb => do
    let rc ← access g.refcounts hb.index.toNat
    if rc.poisoned then g.raise bi false
    else if rc.val = 0 then .ok (some (g, .main bi q (.search hb 0 false), .none))
    else if rc.val + 1 < 2^8 then
      .ok (some (g.setRefcount hb.index.toNat (rc.set (rc.val + 1)),
        .main bi q (.search hb 0 true), .none))
    else (g.setRefcount hb.index.toNat rc.unwind).raise bi false
  | .search hb i counted => do
    -- the slice `connections[indices]`
    accessLength (g.connections.length + 1) (hb.stop cfg.io)
    if i < cfg.io.httpConnections then
      let conn ← access g.connections (hb.start cfg.io + i)
      if conn.free ∧ conn.val = .empty then
        let g' := g.setConn (hb.start cfg.io + i) (conn.set .reserved)
        match QueueIndex.fromConnectionIndex cfg.io ⟨0, .ofNat (hb.start cfg.io + i)⟩ with
        | none => g'.raise bi false
        | some index => do
          -- `register` stores the source of the connection
          accessLength (cfg.bucketCount * cfg.io.perBucket) index.index.toNat
          let m ← access g'.futures bi.index.toNat
          .ok (some (g'.setFuture bi.index.toNat
            (m.set (some ⟨(hb.start cfg.io + i) % 2^32 :: handshakes m⟩)), .main bi q .polling,
            .none))
      else .ok (some (g, .main bi q (.search hb (i + 1) counted), .none))
    else g.raise bi counted
  | .enqueue c =>
    match QueueIndex.fromConnectionIndex cfg.io ⟨0, .ofNat c⟩ with
    | none => g.raise bi false
    | some index =>
      match index.toBucketIndex cfg.io with
      | none => g.raise bi false
      | some slot => do
        -- the slots of the queue
        accessLength cfg.bucketCount slot.index.toNat
        match initialEnqueue cfg index with
        | none => g.raise bi false
        | some _ => .ok (some (g, .main bi q .polling, .enqueue index))

def pollConn (outer : BucketIndex) (c : ConnectionIndex) : RunAct → RunResult
  | .alloc l =>
    match g.allocate outer l with
    | some n => .ok (some (g.setRemaining outer.index.toNat n, .conn c, .none))
    | none => g.longjmp outer (.conn c.index.toNat) false
  | .pending => do
    let m ← access g.connections c.index.toNat
    .ok (some (g.setConn c.index.toNat m.unlock, .idle, .none))
  | .ready => do
    let m ← access g.connections c.index.toNat
    .ok (some (g.setConn c.index.toNat (m.set .empty), .connDropping c, .none))
  | .panic => do
    let m ← access g.connections c.index.toNat
    .ok (some (g.setConn c.index.toNat m.unwind, .conn c, .die))
  | .oom => g.longjmp outer (.conn c.index.toNat) false
  | .panicOom => g.longjmp outer (.conn c.index.toNat) true
  | _ => .ok none

/-- the destructor of slot `c` fails: `cleanup_bucket` starts again -/
def slotAgain (bi : BucketIndex) (f : Failure) (c : ℕ) (panicked : Bool) : RunResult :=
  if c < bi.stop cfg.io then do
    let m ← access g.connections c
    if m.free ∧ m.val = .occupied then
      (g.setConn c m.lock).longjmpAgain bi f (.conn c) panicked
    else .ok none
  else .ok none

/-- so does that of the main future -/
def futureAgain (bi : BucketIndex) (f : Failure) (panicked : Bool) : RunResult := do
  let m ← access g.futures bi.index.toNat
  if m.free ∧ m.val.isSome then
    (g.setFuture bi.index.toNat (m.set none).lock).longjmpAgain bi f .future panicked
  else .ok none

/-- `cleanup_bucket(bucket_index, reason)` -/
def cleanupStep (bi : BucketIndex) (f : Failure) : CleanupPc → RunAct → RunResult
  | .load, .step => do
    let fd ← access g.tcpStreams bi.index.toNat
    .ok (some (g, .cleanup bi f (.respond fd), .reclaim fd))
  | .respond fd, .step => .ok (some (g, .cleanup bi f (.close fd), .respond fd))
  | .close fd, .step => .ok (some (g, .cleanup bi f (.slots (bi.start cfg.io)), .close fd))
  | .slots c, .step =>
    if c < bi.stop cfg.io then do
      let m ← access g.connections c
      if m.free then
        .ok (some (g.setConn c (m.set .empty), .cleanup bi f (.slots (c + 1)), .none))
      else .ok (some (g, .cleanup bi f (.slots c), .die))
    else .ok (some (g, .cleanup bi f .future, .none))
  | .slots c, .panic =>
    if c < bi.stop cfg.io then do
      let m ← access g.connections c
      if m.free ∧ m.val = .occupied then
        .ok (some (g.setConn c ((m.set .empty).leave (!f.panicking)), .cleanup bi f (.slots c),
          .die))
      else .ok none
    else .ok none
  | .slots c, .oom => g.slotAgain cfg bi f c false
  | .slots c, .panicOom => g.slotAgain cfg bi f c true
  | .future, .step => do
    let m ← access g.futures bi.index.toNat
    if m.poisoned then .ok (some (g, .cleanup bi f .future, .die))
    else if m.locked then .ok none
    else .ok (some (g.setFuture bi.index.toNat (m.set none), .cleanup bi f .wipe, .none))
  | .future, .panic => do
    let m ← access g.futures bi.index.toNat
    if m.free ∧ m.val.isSome then
      .ok (some (g.setFuture bi.index.toNat ((m.set none).leave (!f.panicking)),
        .cleanup bi f .future, .die))
    else .ok none
  | .future, .oom => g.futureAgain bi f false
  | .future, .panicOom => g.futureAgain bi f true
  | .wipe, .step => do
    let _ ← access g.remaining bi.index.toNat
    .ok (some (g.setRemaining bi.index.toNat cfg.bucketSize, .cleanup bi f .release, .wipe))
  | .release, .step => do
    let rc ← access g.refcounts bi.index.toNat
    if rc.poisoned then .ok (some (g, .cleanup bi f .release, .die))
    else .ok (some (g.setRefcount bi.index.toNat (rc.set 0), .idle, .none))
  | _, _ => .ok none

/-- a task has returned `Ready`: the count of the bucket that `run_bucket` was called for -/
def readyStep (outer : BucketIndex) : RunResult := do
  let rc ← access g.refcounts outer.index.toNat
  if rc.poisoned then .ok (some (g, .ready, .die))
  else if rc.val = 0 then
    .ok (some (g.setRefcount outer.index.toNat rc.unwind, .ready, .die))
  else if rc.val = 1 then do
    let _ ← access g.remaining outer.index.toNat
    .ok (some ((g.setRemaining outer.index.toNat cfg.bucketSize).setRefcount outer.index.toNat
      (rc.set 0), .idle, .forever))
  else .ok (some (g.setRefcount outer.index.toNat (rc.set (rc.val - 1)), .idle, .none))

/-- the next step of `run_bucket(outer)` -/
def runStep (outer : BucketIndex) : RunPc → RunAct → RunResult
  | .idle, .dequeue off => .ok (some (g, .job off, .none))
  | .job off, .step =>
    match rebuildIndex cfg.io outer.index.toNat off with
    | none => .ok (some (g, .job off, .die))
    | some q =>
      match IoIndex.fromIndex cfg.io q with
      | none => .ok (some (g, .job off, .die))
      | some (.inputStream bi) => .ok (some (g, .takeMain bi q, .none))
      | some (.httpConnection c) => .ok (some (g, .takeConn c, .none))
  | .takeMain bi q, .step => do
    let m ← access g.futures bi.index.toNat
    if m.free then
      match m.val with
      | none => (g.setFuture bi.index.toNat m.lock).raise bi false
      | some _ => .ok (some (g.setFuture bi.index.toNat m.lock, .main bi q .polling, .none))
    else .ok (some (g, .takeMain bi q, .die))
  | .main bi q .polling, a => g.pollMain outer bi q a
  | .main bi q k, .step => g.handshakeStep cfg bi q k
  | .main bi _ k, .panic => g.raise bi k.counted
  | .main bi _ _, .oom => g.longjmp bi .future false
  | .mainTaken bi q, .step =>
    -- `poll_input_stream` computes the bucket once more
    match q.toBucketIndex cfg.io with
    | none => g.raise bi true
    | some b => do
      let fd ← access g.tcpStreams b.index.toNat
      .ok (some (g, .mainClosing bi fd, .reclaim fd))
  | .mainClosing bi fd, .step => .ok (some (g, .mainDropping bi, .close fd))
  | .mainDropping bi, .step => do
    let m ← access g.futures bi.index.toNat
    .ok (some (g.setFuture bi.index.toNat m.unlock, .ready, .none))
  | .mainDropping bi, .panic => g.raise bi true
  | .mainDropping bi, .oom => g.longjmp bi .future false
  | .unwinding bi owed, .step => do
    let m ← access g.futures bi.index.toNat
    .ok (some (g.setFuture bi.index.toNat m.unwind, .poisoned bi owed, .none))
  | .unwinding bi _, .oom => g.longjmp bi .future true
  | .poisoned bi _, .step => do
    let m ← access g.futures bi.index.toNat
    .ok (some (g.setFuture bi.index.toNat m.clearPoison, .cleanup bi .caught .load, .none))
  | .takeConn c, .step => do
    let m ← access g.connections c.index.toNat
    if m.poisoned then .ok (some (g, .takeConn c, .die))
    else if m.locked then .ok none
    else
      match m.val with
      | .empty => .ok (some (g, .idle, .none))
      | .reserved => .ok (some (g.setConn c.index.toNat m.unwind, .takeConn c, .die))
      | .occupied => .ok (some (g.setConn c.index.toNat m.lock, .conn c, .none))
  | .conn c, a => g.pollConn outer c a
  | .connDropping c, .step => do
    let m ← access g.connections c.index.toNat
    .ok (some (g.setConn c.index.toNat m.unlock, .ready, .none))
  | .connDropping c, .panic => do
    let m ← access g.connections c.index.toNat
    .ok (some (g.setConn c.index.toNat m.unwind, .connDropping c, .die))
  | .connDropping c, .oom => g.longjmp outer (.conn c.index.toNat) false
  | .connDropping c, .panicOom => g.longjmp outer (.conn c.index.toNat) true
  | .ready, .step => g.readyStep cfg outer
  | .cleanup bi f k, a => g.cleanupStep cfg bi f k a
  | _, _ => .ok none

end Inner
end Nea
