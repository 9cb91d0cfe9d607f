import Nea.Index
import Nea.Lib.Machine
import Nea.Lib.Mutex
import Nea.Queue.Slot
import Mathlib.Data.Fintype.Basic
import Mathlib.Logic.Function.Basic

/-!
# The queue under concurrency (`ComplexQueue` of `nea/src/queue.rs`)

All threads that use the queue, at the granularity of its atomic operations: each load,
compare-exchange, `fetch_or`, `fetch_and` and each critical section of the counter's mutex is one
step.  `W` are the workers, `T` the other threads that may wake tasks (the reactor and whatever
threads the application has); both are arbitrary types.

* `Enqueue`           a call of `initial_enqueue` in progress, with its program counter;
* `WorkerPc`          where a worker is in `blocking_dequeue` (with `wait_active` and
                      `try_dequeue`), in `dequeue` and in `done_with_bucket`;
* `Queue.step`        the transitions; what `run_bucket` does between two `dequeue`s is left open
                      here (`load`: it goes back to `dequeue`; `finish`: it answers that the bucket
                      is done forever; `die`: it unwinds the thread);
* `QStep`             the same transitions as a relation (`QStep.of_step`);
* `SlotMove`          what a transition does to one slot (`slotMove_of_step`).
-/

set_option linter.unusedSectionVars false

namespace Nea

/-- configuration of a server -/
structure Cfg where
  io : IoResources
  bucketCount : ℕ
  /-- bytes of memory of a bucket -/
  bucketSize : ℕ
  /-- the tables of `queue_capacity` entries fit in memory, so that casts of `per_bucket()` to
  `u32` keep its value -/
  perBucket_lt : io.perBucket < 2^32
  bucketCount_lt : bucketCount < 2^32

/-- a server with two buckets and one connection in each -/
def cfgOne : Cfg := ⟨⟨1, 1⟩, 2, 4096, by decide, by decide⟩

/-- the threads: the accept thread, the workers, all others -/
inductive Thread (W T : Type) where
  | accept
  | worker (w : W)
  | other (t : T)
deriving DecidableEq

/-- where a call of `initial_enqueue` is, after the index computations -/
inductive EnqueuePc where
  /-- `fetch_or` of the job bit is next -/
  | setJob
  /-- the bit was clear and is set now; `increment_jobs_available` is next -/
  | increment
  /-- `mark_enqueued` is next -/
  | mark
  /-- the slot was idle and is marked now; `wake_one` is next -/
  | wakeOne
  /-- the slot was marked or in progress already; `decrement_jobs_available` is next -/
  | revert
  /-- the call panicked on the counter (`counted`: after it had incremented it) -/
  | panicked (counted : Bool)
deriving DecidableEq

structure Enqueue where
  bucket : ℕ
  offset : ℕ
  pc : EnqueuePc
deriving DecidableEq

/-- where a worker is; from `picked` to `done` it owns the slot of its bucket -/
inductive WorkerPc where
  /-- `wait_active`: looking at the counter is next -/
  | waitJobs
  /-- in the wait set of the condition variable -/
  | blocked
  /-- `try_dequeue`: trying slot `i` is next -/
  | scan (i : ℕ)
  /-- `try_process` succeeded; `decrement_jobs_available` is next -/
  | picked (b : ℕ)
  /-- inside `run_bucket`, outside of `dequeue` -/
  | running (b : ℕ)
  /-- `dequeue` has read the job word and chosen offset `i`; its `fetch_and` is next -/
  | dequeued (b i : ℕ)
  /-- `done_with_bucket` in iteration `k`; its first or its second compare-exchange is next -/
  | done (b k : ℕ) (second : Bool)
deriving DecidableEq

/-- the bucket whose slot the worker owns -/
def WorkerPc.bucket : WorkerPc → Option ℕ
  | .waitJobs => none
  | .blocked => none
  | .scan _ => none
  | .picked b => some b
  | .running b => some b
  | .dequeued b _ => some b
  | .done b _ _ => some b

/-- the index computations of `initial_enqueue`: `none` is one of its panics (`assert!(index < 1000)`,
division by zero, a bucket out of bounds, a shift by 64 or more) -/
def initialEnqueue (cfg : Cfg) (q : QueueIndex) : Option Enqueue := do
  let bucketIndex ← q.toBucketIndex cfg.io
  if bucketIndex.index.toNat < cfg.bucketCount ∧ q.index.toNat % cfg.io.perBucket < 64 then
    some ⟨bucketIndex.index.toNat, q.index.toNat % cfg.io.perBucket, .setJob⟩
  else none

/-- `increment_active`: the mutex after it, `error` if it panicked -/
def incrementActive (m : Mutex ℕ) : Except (Mutex ℕ) (Mutex ℕ) :=
  if m.poisoned then .error m
  else if m.val + 1 < 2^32 then .ok (m.set (m.val + 1))
  else .error m.unwind

/-- `decrement_active`: the mutex after it, `error` if it panicked -/
def decrementActive (m : Mutex ℕ) : Except (Mutex ℕ) (Mutex ℕ) :=
  if m.poisoned then .error m
  else if m.val = 0 then .error m.unwind
  else .ok (m.set (m.val - 1))

/-- the slots, the counter, and where every thread is -/
structure Queue (W T : Type) where
  slots : ℕ → QueueSlot
  jobsInQueue : Mutex ℕ
  calls : Thread W T → Option Enqueue
  pc : W → WorkerPc
  alive : W → Bool

inductive QAct (W T : Type) where
  /-- thread `t` calls `initial_enqueue` (or `wake`) -/
  | start (t : Thread W T) (q : QueueIndex)
  /-- the next step of the call that thread `t` is in; a `wake_one` notifies `waiter` -/
  | call (t : Thread W T) (waiter : Option W)
  /-- a spurious wake-up from the condition variable -/
  | spurious (w : W)
  /-- the next step of a worker inside the queue's own functions -/
  | work (w : W)
  /-- `run_bucket` calls `dequeue`, which loads the job word -/
  | load (w : W)
  /-- `run_bucket` answers `Forever` and `done_with_bucket` is called -/
  | finish (w : W)
  /-- a panic unwinds the worker -/
  | die (w : W)

namespace Queue
variable {W T : Type}

def init : Queue W T where
  slots _ := .empty
  jobsInQueue := { val := 0 }
  calls _ := none
  pc _ := .waitJobs
  alive _ := true

variable [DecidableEq W] [DecidableEq T]

def setSlot (s : Queue W T) (b : ℕ) (q : QueueSlot) : Queue W T :=
  { s with slots := Function.update s.slots b q }
def setCall (s : Queue W T) (t : Thread W T) (c : Option Enqueue) : Queue W T :=
  { s with calls := Function.update s.calls t c }
def setPc (s : Queue W T) (w : W) (p : WorkerPc) : Queue W T :=
  { s with pc := Function.update s.pc w p }
def kill (s : Queue W T) (w : W) : Queue W T :=
  { s with alive := Function.update s.alive w false }

@[simp] theorem slots_setSlot (s : Queue W T) (b : ℕ) (q : QueueSlot) :
    (s.setSlot b q).slots = Function.update s.slots b q := rfl
@[simp] theorem slots_setCall (s : Queue W T) (t : Thread W T) (c : Option Enqueue) :
    (s.setCall t c).slots = s.slots := rfl
@[simp] theorem slots_setPc (s : Queue W T) (w : W) (p : WorkerPc) :
    (s.setPc w p).slots = s.slots := rfl
@[simp] theorem slots_kill (s : Queue W T) (w : W) : (s.kill w).slots = s.slots := rfl
@[simp] theorem calls_setSlot (s : Queue W T) (b : ℕ) (q : QueueSlot) :
    (s.setSlot b q).calls = s.calls := rfl
@[simp] theorem calls_setCall (s : Queue W T) (t : Thread W T) (c : Option Enqueue) :
    (s.setCall t c).calls = Function.update s.calls t c := rfl
@[simp] theorem calls_setPc (s : Queue W T) (w : W) (p : WorkerPc) :
    (s.setPc w p).calls = s.calls := rfl
@[simp] theorem calls_kill (s : Queue W T) (w : W) : (s.kill w).calls = s.calls := rfl
@[simp] theorem pc_setSlot (s : Queue W T) (b : ℕ) (q : QueueSlot) :
    (s.setSlot b q).pc = s.pc := rfl
@[simp] theorem pc_setCall (s : Queue W T) (t : Thread W T) (c : Option Enqueue) :
    (s.setCall t c).pc = s.pc := rfl
@[simp] theorem pc_setPc (s : Queue W T) (w : W) (p : WorkerPc) :
    (s.setPc w p).pc = Function.update s.pc w p := rfl
@[simp] theorem pc_kill (s : Queue W T) (w : W) : (s.kill w).pc = s.pc := rfl
@[simp] theorem jobs_setSlot (s : Queue W T) (b : ℕ) (q : QueueSlot) :
    (s.setSlot b q).jobsInQueue = s.jobsInQueue := rfl
@[simp] theorem jobs_setCall (s : Queue W T) (t : Thread W T) (c : Option Enqueue) :
    (s.setCall t c).jobsInQueue = s.jobsInQueue := rfl
@[simp] theorem jobs_setPc (s : Queue W T) (w : W) (p : WorkerPc) :
    (s.setPc w p).jobsInQueue = s.jobsInQueue := rfl
@[simp] theorem jobs_kill (s : Queue W T) (w : W) : (s.kill w).jobsInQueue = s.jobsInQueue := rfl

/-- the next step of a call of `helper` -/
def callStep [Fintype W] (s : Queue W T) (t : Thread W T) (waiter : Option W) (c : Enqueue) :
    Option (Queue W T) :=
  match c.pc with
  | .setJob =>
    let old := (s.slots c.bucket).setJob c.offset
    some ((s.setSlot c.bucket old.2).setCall t
      (if old.1 then none else some { c with pc := .increment }))
  | .increment =>
    match incrementActive s.jobsInQueue with
    | .ok m => some ({ s with jobsInQueue := m }.setCall t (some { c with pc := .mark }))
    | .error m => some ({ s with jobsInQueue := m }.setCall t (some { c with pc := .panicked false }))
  | .mark =>
    let old := (s.slots c.bucket).markEnqueued
    some ((s.setSlot c.bucket old.2).setCall t (some { c with pc :=
      if !old.1.isEnqueued && !old.1.isInProgress then .wakeOne else .revert }))
  | .wakeOne =>
    match waiter with
    | some w => if s.pc w = .blocked then some ((s.setCall t none).setPc w .waitJobs) else none
    | none => if ∀ w, s.pc w ≠ .blocked then some (s.setCall t none) else none
  | .revert =>
    match decrementActive s.jobsInQueue with
    | .ok m => some ({ s with jobsInQueue := m }.setCall t none)
    | .error m => some ({ s with jobsInQueue := m }.setCall t (some { c with pc := .panicked true }))
  | .panicked _ => none

/-- the next step of worker `w` in `blocking_dequeue`, `dequeue` or `done_with_bucket` -/
def workStep (cfg : Cfg) (s : Queue W T) (w : W) : Option (Queue W T) :=
  match s.pc w with
  | .waitJobs =>
    if s.jobsInQueue.poisoned then some (s.kill w)
    else if s.jobsInQueue.val = 0 then some (s.setPc w .blocked)
    else some (s.setPc w (.scan 0))
  | .blocked => none
  | .scan i =>
    if i < cfg.bucketCount then
      match (s.slots i).tryProcess with
      | some q => some ((s.setSlot i q).setPc w (.picked i))
      | none => some (s.setPc w (.scan (i + 1)))
    else some (s.setPc w .waitJobs)
  | .picked b =>
    match decrementActive s.jobsInQueue with
    | .ok m => some ({ s with jobsInQueue := m }.setPc w (.running b))
    | .error m => some ({ s with jobsInQueue := m }.kill w)
  | .running _ => none
  | .dequeued b i => some ((s.setSlot b ((s.slots b).clearJob i)).setPc w (.running b))
  | .done b k false =>
    match (s.slots b).goAgain with
    | some q => some ((s.setSlot b q).setPc w (.running b))
    | none =>
      if (s.slots b).flags = inProgressBit then some (s.setPc w (.done b k true))
      else some (s.kill w)
  | .done b k true =>
    match (s.slots b).release with
    | some q => some ((s.setSlot b q).setPc w .waitJobs)
    | none =>
      -- the loop is left after its second iteration, into `unreachable!()`
      if k + 1 < 2 then some (s.setPc w (.done b (k + 1) false)) else some (s.kill w)

/-- `dequeue` of worker `w` loads the job word; without a job `run_bucket` answers `ForNow` and
`done_with_bucket` is called -/
def loadStep (s : Queue W T) (w : W) : Option (Queue W T) :=
  match s.pc w with
  | .running b =>
    if (s.slots b).jobs = 0 then some (s.setPc w (.done b 0 false))
    else some (s.setPc w (.dequeued b (trailingZeros (s.slots b).jobs)))
  | _ => none

def step [Fintype W] (cfg : Cfg) (s : Queue W T) : QAct W T → Option (Queue W T)
  | .start t q =>
    if s.calls t = none then (initialEnqueue cfg q).map (fun c => s.setCall t (some c)) else none
  | .call t waiter => (s.calls t).bind (fun c => s.callStep t waiter c)
  | .spurious w => if s.pc w = .blocked then some (s.setPc w .waitJobs) else none
  | .work w => if s.alive w then workStep cfg s w else none
  | .load w => if s.alive w then loadStep s w else none
  | .finish w =>
    match s.pc w with
    | .running b => some (s.setPc w (.done b 0 false))
    | _ => none
  | .die w => some (s.kill w)

/-- the queue as a machine -/
def machine [Fintype W] (cfg : Cfg) : Machine (Queue W T) (QAct W T) := ⟨init, step cfg⟩

end Queue

/-! ## the transitions as a relation -/

section
variable {W T : Type} [DecidableEq W] [DecidableEq T]

/-- what one step can do, guards included -/
inductive QStep (cfg : Cfg) (s : Queue W T) : Queue W T → Prop where
  | start (t : Thread W T) (q : QueueIndex) (c : Enqueue) (h0 : s.calls t = none)
      (h : initialEnqueue cfg q = some c) : QStep cfg s (s.setCall t (some c))
  | setOld (t : Thread W T) (c : Enqueue) (hc : s.calls t = some c) (h : c.pc = .setJob)
      (hj : (s.slots c.bucket).hasJob c.offset = true) :
      QStep cfg s ((s.setSlot c.bucket ((s.slots c.bucket).setJob c.offset).2).setCall t none)
  | setNew (t : Thread W T) (c : Enqueue) (hc : s.calls t = some c) (h : c.pc = .setJob)
      (hj : (s.slots c.bucket).hasJob c.offset = false) :
      QStep cfg s ((s.setSlot c.bucket ((s.slots c.bucket).setJob c.offset).2).setCall t
        (some { c with pc := .increment }))
  | increment (t : Thread W T) (c : Enqueue) (hc : s.calls t = some c) (h : c.pc = .increment) :
      QStep cfg s ({ s with jobsInQueue := s.jobsInQueue.set (s.jobsInQueue.val + 1) }.setCall t
        (some { c with pc := .mark }))
  | incrementPanics (t : Thread W T) (c : Enqueue) (m : Mutex ℕ) (hc : s.calls t = some c)
      (h : c.pc = .increment) (hm : m.val = s.jobsInQueue.val) (hp : m.poisoned = true) :
      QStep cfg s ({ s with jobsInQueue := m }.setCall t (some { c with pc := .panicked false }))
  | markIdle (t : Thread W T) (c : Enqueue) (hc : s.calls t = some c) (h : c.pc = .mark)
      (he : (s.slots c.bucket).isEnqueued = false) (hp : (s.slots c.bucket).isInProgress = false) :
      QStep cfg s ((s.setSlot c.bucket (s.slots c.bucket).markEnqueued.2).setCall t
        (some { c with pc := .wakeOne }))
  | markBusy (t : Thread W T) (c : Enqueue) (hc : s.calls t = some c) (h : c.pc = .mark)
      (hb : (s.slots c.bucket).isEnqueued = true ∨ (s.slots c.bucket).isInProgress = true) :
      QStep cfg s ((s.setSlot c.bucket (s.slots c.bucket).markEnqueued.2).setCall t
        (some { c with pc := .revert }))
  | wakeOne (t : Thread W T) (c : Enqueue) (w : W) (hc : s.calls t = some c) (h : c.pc = .wakeOne)
      (hw : s.pc w = .blocked) : QStep cfg s ((s.setCall t none).setPc w .waitJobs)
  | wakeNone (t : Thread W T) (c : Enqueue) (hc : s.calls t = some c) (h : c.pc = .wakeOne)
      (hw : ∀ w, s.pc w ≠ .blocked) : QStep cfg s (s.setCall t none)
  | revert (t : Thread W T) (c : Enqueue) (hc : s.calls t = some c) (h : c.pc = .revert)
      (hv : s.jobsInQueue.val ≠ 0) :
      QStep cfg s ({ s with jobsInQueue := s.jobsInQueue.set (s.jobsInQueue.val - 1) }.setCall t
        none)
  | revertPanics (t : Thread W T) (c : Enqueue) (m : Mutex ℕ) (hc : s.calls t = some c)
      (h : c.pc = .revert) (hm : m.val = s.jobsInQueue.val) (hp : m.poisoned = true)
      (hwhy : s.jobsInQueue.poisoned = true ∨ s.jobsInQueue.val = 0) :
      QStep cfg s ({ s with jobsInQueue := m }.setCall t (some { c with pc := .panicked true }))
  | spurious (w : W) (hw : s.pc w = .blocked) : QStep cfg s (s.setPc w .waitJobs)
  | waitPoisoned (w : W) (hw : s.pc w = .waitJobs) (hp : s.jobsInQueue.poisoned = true) :
      QStep cfg s (s.kill w)
  | block (w : W) (hw : s.pc w = .waitJobs) (hv : s.jobsInQueue.val = 0) :
      QStep cfg s (s.setPc w .blocked)
  | wait (w : W) (hw : s.pc w = .waitJobs) (hv : s.jobsInQueue.val ≠ 0) :
      QStep cfg s (s.setPc w (.scan 0))
  | pick (w : W) (i : ℕ) (hw : s.pc w = .scan i) (hi : i < cfg.bucketCount)
      (hf : (s.slots i).flags = enqueuedBit) :
      QStep cfg s ((s.setSlot i ((s.slots i).setFlags inProgressBit)).setPc w (.picked i))
  | skip (w : W) (i : ℕ) (hw : s.pc w = .scan i) (hi : i < cfg.bucketCount)
      (hf : (s.slots i).flags ≠ enqueuedBit) : QStep cfg s (s.setPc w (.scan (i + 1)))
  | scanned (w : W) (i : ℕ) (hw : s.pc w = .scan i) (hi : ¬ i < cfg.bucketCount) :
      QStep cfg s (s.setPc w .waitJobs)
  | run (w : W) (b : ℕ) (hw : s.pc w = .picked b) (hv : s.jobsInQueue.val ≠ 0) :
      QStep cfg s ({ s with jobsInQueue := s.jobsInQueue.set (s.jobsInQueue.val - 1) }.setPc w
        (.running b))
  | runPanics (w : W) (b : ℕ) (m : Mutex ℕ) (hw : s.pc w = .picked b)
      (hm : m.val = s.jobsInQueue.val) (hp : m.poisoned = true)
      (hwhy : s.jobsInQueue.poisoned = true ∨ s.jobsInQueue.val = 0) :
      QStep cfg s ({ s with jobsInQueue := m }.kill w)
  | load (w : W) (b : ℕ) (hw : s.pc w = .running b) (hj : (s.slots b).jobs ≠ 0) :
      QStep cfg s (s.setPc w (.dequeued b (trailingZeros (s.slots b).jobs)))
  | loadNone (w : W) (b : ℕ) (hw : s.pc w = .running b) (hj : (s.slots b).jobs = 0) :
      QStep cfg s (s.setPc w (.done b 0 false))
  | clear (w : W) (b i : ℕ) (hw : s.pc w = .dequeued b i) :
      QStep cfg s ((s.setSlot b ((s.slots b).clearJob i)).setPc w (.running b))
  | finish (w : W) (b : ℕ) (hw : s.pc w = .running b) : QStep cfg s (s.setPc w (.done b 0 false))
  | goAgain (w : W) (b k : ℕ) (hw : s.pc w = .done b k false)
      (hf : (s.slots b).flags = enqueuedBit ||| inProgressBit) :
      QStep cfg s ((s.setSlot b ((s.slots b).setFlags inProgressBit)).setPc w (.running b))
  | tryRelease (w : W) (b k : ℕ) (hw : s.pc w = .done b k false)
      (hf : (s.slots b).flags = inProgressBit) : QStep cfg s (s.setPc w (.done b k true))
  | notInProgress (w : W) (b k : ℕ) (hw : s.pc w = .done b k false)
      (hf : (s.slots b).flags ≠ inProgressBit)
      (hf' : (s.slots b).flags ≠ enqueuedBit ||| inProgressBit) : QStep cfg s (s.kill w)
  | release (w : W) (b k : ℕ) (hw : s.pc w = .done b k true)
      (hf : (s.slots b).flags = inProgressBit) :
      QStep cfg s ((s.setSlot b ((s.slots b).setFlags 0)).setPc w .waitJobs)
  | retry (w : W) (b k : ℕ) (hw : s.pc w = .done b k true)
      (hf : (s.slots b).flags ≠ inProgressBit) (hk : k + 1 < 2) :
      QStep cfg s (s.setPc w (.done b (k + 1) false))
  | unreachable (w : W) (b k : ℕ) (hw : s.pc w = .done b k true)
      (hf : (s.slots b).flags ≠ inProgressBit) (hk : ¬ k + 1 < 2) : QStep cfg s (s.kill w)
  | die (w : W) : QStep cfg s (s.kill w)

theorem incrementActive_ok {m m' : Mutex ℕ} (h : incrementActive m = .ok m') :
    m' = m.set (m.val + 1) := by
  unfold incrementActive at h
  split at h
  · cases h
  · split at h <;> cases h
    rfl

theorem incrementActive_error {m m' : Mutex ℕ} (h : incrementActive m = .error m') :
    m'.val = m.val ∧ m'.poisoned = true := by
  unfold incrementActive at h
  split at h
  · next hp => cases h; exact ⟨rfl, hp⟩
  · split at h <;> cases h
    exact ⟨rfl, rfl⟩

theorem decrementActive_ok {m m' : Mutex ℕ} (h : decrementActive m = .ok m') :
    m.val ≠ 0 ∧ m' = m.set (m.val - 1) := by
  unfold decrementActive at h
  split at h
  · cases h
  · split at h
    · cases h
    · next hv => cases h; exact ⟨hv, rfl⟩

theorem decrementActive_error {m m' : Mutex ℕ} (h : decrementActive m = .error m') :
    m'.val = m.val ∧ m'.poisoned = true ∧ (m.poisoned = true ∨ m.val = 0) := by
  unfold decrementActive at h
  split at h
  · next hp => cases h; exact ⟨rfl, hp, .inl hp⟩
  · split at h
    · next hv => cases h; exact ⟨rfl, rfl, .inr hv⟩
    · cases h

variable {cfg : Cfg} {s s' : Queue W T}

theorem QStep.of_callStep [Fintype W] {t : Thread W T} {waiter : Option W} {c : Enqueue}
    (hc : s.calls t = some c) (h : s.callStep t waiter c = some s') : QStep cfg s s' := by
  unfold Queue.callStep at h
  split at h
  · next hpc =>
    cases h
    cases hj : (s.slots c.bucket).hasJob c.offset with
    | true => simp only [QueueSlot.setJob, hj]; exact .setOld t c hc hpc hj
    | false => simp only [QueueSlot.setJob, hj]; exact .setNew t c hc hpc hj
  · next hpc =>
    split at h
    · next m hm => cases h; rw [incrementActive_ok hm]; exact .increment t c hc hpc
    · next m hm =>
      cases h
      exact .incrementPanics t c m hc hpc (incrementActive_error hm).1 (incrementActive_error hm).2
  · next hpc =>
    cases h
    by_cases hi : (s.slots c.bucket).markEnqueued.1 = ⟨false, false⟩
    · rw [hi]
      exact .markIdle t c hc hpc (congrArg (·.isEnqueued) hi) (congrArg (·.isInProgress) hi)
    · have hb : (s.slots c.bucket).isEnqueued = true ∨ (s.slots c.bucket).isInProgress = true := by
        by_contra hn
        simp only [not_or, Bool.not_eq_true] at hn
        exact hi (by simp only [QueueSlot.markEnqueued, hn.1, hn.2])
      rw [if_neg (by rcases hb with hb | hb <;> simp [QueueSlot.markEnqueued, hb])]
      exact .markBusy t c hc hpc hb
  · next hpc =>
    split at h
    · split at h
      · next w hw => cases h; exact .wakeOne t c w hc hpc hw
      · cases h
    · split at h
      · next hw => cases h; exact .wakeNone t c hc hpc hw
      · cases h
  · next hpc =>
    split at h
    · next m hm =>
      cases h
      obtain ⟨hv, rfl⟩ := decrementActive_ok hm
      exact .revert t c hc hpc hv
    · next m hm =>
      cases h
      obtain ⟨h1, h2, h3⟩ := decrementActive_error hm
      exact .revertPanics t c m hc hpc h1 h2 h3
  · cases h

theorem QStep.of_workStep {w : W} (h : Queue.workStep cfg s w = some s') : QStep cfg s s' := by
  unfold Queue.workStep at h
  split at h
  · next hw =>
    split at h
    · next hp => cases h; exact .waitPoisoned w hw hp
    · split at h
      · next hv => cases h; exact .block w hw hv
      · next hv => cases h; exact .wait w hw hv
  · cases h
  · next i hw =>
    split at h
    · next hi =>
      split at h
      · next q hq =>
        cases h
        obtain ⟨hf, rfl⟩ := QueueSlot.tryProcess_eq_some.mp hq
        exact .pick w i hw hi hf
      · next hq =>
        cases h
        exact .skip w i hw hi (fun hf => by simp [QueueSlot.tryProcess, hf] at hq)
    · next hi => cases h; exact .scanned w i hw hi
  · next b hw =>
    split at h
    · next m hm =>
      cases h
      obtain ⟨hv, rfl⟩ := decrementActive_ok hm
      exact .run w b hw hv
    · next m hm =>
      cases h
      obtain ⟨h1, h2, h3⟩ := decrementActive_error hm
      exact .runPanics w b m hw h1 h2 h3
  · cases h
  · next b i hw => cases h; exact .clear w b i hw
  · next b k hw =>
    split at h
    · next q hq =>
      cases h
      obtain ⟨hf, rfl⟩ := QueueSlot.goAgain_eq_some.mp hq
      exact .goAgain w b k hw hf
    · next hq =>
      split at h
      · next hf => cases h; exact .tryRelease w b k hw hf
      · next hf =>
        cases h
        exact .notInProgress w b k hw hf (fun hf' => by simp [QueueSlot.goAgain, hf'] at hq)
  · next b k hw =>
    split at h
    · next q hq =>
      cases h
      obtain ⟨hf, rfl⟩ := QueueSlot.release_eq_some.mp hq
      exact .release w b k hw hf
    · next hq =>
      have hf : (s.slots b).flags ≠ inProgressBit :=
        fun hf => by simp [QueueSlot.release, hf] at hq
      split at h
      · next hk => cases h; exact .retry w b k hw hf hk
      · next hk => cases h; exact .unreachable w b k hw hf hk

theorem QStep.of_step [Fintype W] {a : QAct W T} (h : Queue.step cfg s a = some s') :
    QStep cfg s s' := by
  cases a with
  | start t q =>
    simp only [Queue.step] at h
    split at h
    · next h0 =>
      obtain ⟨c, hc, rfl⟩ := Option.map_eq_some_iff.mp h
      exact .start t q c h0 hc
    · cases h
  | call t waiter =>
    obtain ⟨c, hc, h1⟩ := Option.bind_eq_some_iff.mp h
    exact .of_callStep hc h1
  | spurious w =>
    simp only [Queue.step] at h
    split at h
    · next hw => cases h; exact .spurious w hw
    · cases h
  | work w =>
    simp only [Queue.step] at h
    split at h
    · exact .of_workStep h
    · cases h
  | load w =>
    simp only [Queue.step, Queue.loadStep] at h
    split at h
    · split at h
      · next b hw =>
        split at h
        · next hj => cases h; exact .loadNone w b hw hj
        · next hj => cases h; exact .load w b hw hj
      · cases h
    · cases h
  | finish w =>
    simp only [Queue.step] at h
    split at h
    · next b hw => cases h; exact .finish w b hw
    · cases h
  | die w => cases h; exact .die w

/-! ## what a step does to one slot -/

namespace Queue

/-- how a step changes slot `b`, and who does it -/
inductive SlotMove (cfg : Cfg) (s s' : Queue W T) (b : ℕ) : Prop where
  | same (h : s'.slots b = s.slots b)
  | setOld (t : Thread W T) (c : Enqueue) (hc : s.calls t = some c) (hb : c.bucket = b)
      (hj : (s.slots b).hasJob c.offset = true) (h : s'.slots b = ((s.slots b).setJob c.offset).2)
  | setNew (t : Thread W T) (c : Enqueue) (hc : s.calls t = some c) (hb : c.bucket = b)
      (hc' : s'.calls t = some { c with pc := .increment })
      (h : s'.slots b = ((s.slots b).setJob c.offset).2)
  | mark (t : Thread W T) (c : Enqueue) (hc : s.calls t = some c) (hb : c.bucket = b)
      (h : s'.slots b = (s.slots b).markEnqueued.2)
  | pick (w : W) (hb : b < cfg.bucketCount) (hf : (s.slots b).flags = enqueuedBit)
      (hw' : s'.pc w = .picked b) (h : s'.slots b = (s.slots b).setFlags inProgressBit)
  | clear (w : W) (i : ℕ) (hw : s.pc w = .dequeued b i) (h : s'.slots b = (s.slots b).clearJob i)
  | goAgain (w : W) (k : ℕ) (hw : s.pc w = .done b k false)
      (hf : (s.slots b).flags = enqueuedBit ||| inProgressBit) (hw' : s'.pc w = .running b)
      (h : s'.slots b = (s.slots b).setFlags inProgressBit)
  | release (w : W) (k : ℕ) (hw : s.pc w = .done b k true)
      (hf : (s.slots b).flags = inProgressBit) (h : s'.slots b = (s.slots b).setFlags 0)

/-- **Only seven of the steps touch a slot, and they touch one.** -/
theorem slotMove_of_step (hs : QStep cfg s s') (b : ℕ) : SlotMove cfg s s' b := by
  have hslot : ∀ b1 (q : QueueSlot), s'.slots = Function.update s.slots b1 q →
      (b = b1 → s'.slots b = q → SlotMove cfg s s' b) → SlotMove cfg s s' b := by
    intro b1 q hs1 hq
    by_cases e : b = b1
    · refine hq e ?_
      rw [hs1, e, Function.update_self]
    · exact .same (by rw [hs1, Function.update_of_ne e])
  cases hs with
  | setOld t c hc hpc hj =>
    refine hslot c.bucket _ rfl ?_
    rintro rfl h
    exact .setOld t c hc rfl hj h
  | setNew t c hc hpc hj =>
    refine hslot c.bucket _ rfl ?_
    rintro rfl h
    exact .setNew t c hc rfl (Function.update_self ..) h
  | markIdle t c hc hpc he hp =>
    refine hslot c.bucket _ rfl ?_
    rintro rfl h
    exact .mark t c hc rfl h
  | markBusy t c hc hpc hb =>
    refine hslot c.bucket _ rfl ?_
    rintro rfl h
    exact .mark t c hc rfl h
  | pick w i hw hi hf =>
    refine hslot i _ rfl ?_
    rintro rfl h
    exact .pick w hi hf (Function.update_self ..) h
  | clear w b1 i hw =>
    refine hslot b1 _ rfl ?_
    rintro rfl h
    exact .clear w i hw h
  | goAgain w b1 k hw hf =>
    refine hslot b1 _ rfl ?_
    rintro rfl h
    exact .goAgain w k hw hf (Function.update_self ..) h
  | release w b1 k hw hf =>
    refine hslot b1 _ rfl ?_
    rintro rfl h
    exact .release w k hw hf h
  | _ => exact .same rfl

end Queue

end
end Nea
