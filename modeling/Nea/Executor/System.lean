import Nea.Executor.Steps
import Nea.Queue.Jobs
import Nea.Queue.Ownership

/-!
# The executor

All threads of the server together: the accept thread, the workers `W`, and the threads `T` that
only wake tasks (the reactor, threads of the application).  The queue is the one of
`Nea.Queue.System`; its open ends (`load`, `finish`, `die`) are now driven by `run_bucket`.

* `State`, `Act`, `State.step`   the state and its transitions;
* `Executor.machine`  the executor as a machine;
* `queue_reachable`   the queue inside a reachable executor is a reachable queue, so ownership and
                      the origin of jobs carry over;
* `Attached`          a worker inside `run_bucket` owns the slot of the bucket it works on.
-/

set_option linter.unusedSectionVars false

namespace Nea

structure State (W T : Type) where
  q : Queue W T
  bucket : ℕ → Bucket
  /-- the open descriptors of clients -/
  fds : RawFd → Bool
  accept : AcceptPc
  task : W → TaskPc

inductive Act (W T : Type) where
  /-- the accept thread gets a connection; the kernel picks a number that is not in use -/
  | incoming (fd : RawFd)
  | accept (busy : Bool)
  /-- a waker is called -/
  | wake (t : Thread W T) (q : QueueIndex)
  | call (t : Thread W T) (waiter : Option W)
  | spurious (w : W)
  /-- worker `w` goes on in the functions of the queue -/
  | work (w : W)
  | load (w : W)
  /-- worker `w` goes on in `run_bucket` -/
  | task (w : W) (a : TaskAct)

namespace State
variable {W T : Type} [DecidableEq W] [DecidableEq T]

def init (cfg : Cfg) : State W T where
  q := Queue.init
  bucket _ := Bucket.init cfg
  fds _ := false
  accept := .idle
  task _ := .idle

@[simps] def setQ (s : State W T) (q : Queue W T) : State W T := { s with q := q }
@[simps] def setBucket (s : State W T) (b : ℕ) (v : Bucket) : State W T :=
  { s with bucket := Function.update s.bucket b v }
@[simps] def setFd (s : State W T) (fd : RawFd) (o : Bool) : State W T :=
  { s with fds := Function.update s.fds fd o }
@[simps] def setAccept (s : State W T) (p : AcceptPc) : State W T := { s with accept := p }
@[simps] def setTask (s : State W T) (w : W) (t : TaskPc) : State W T :=
  { s with task := Function.update s.task w t }

/-- wakers are called by threads outside of the executor, and by workers while code of the
application is running on them -/
def mayWake (s : State W T) : Thread W T → Bool
  | .accept => false
  | .worker w => s.q.alive w && (s.task w).userCode
  | .other _ => true

/-- the task of a worker after its step in the queue: `dequeue` answers with the offset -/
def afterWork (s : State W T) (w : W) : TaskPc :=
  match s.q.pc w with
  | .dequeued b i => .job b i
  | _ => s.task w

variable [Fintype W]

/-- what a step of thread `t` does outside of the bucket -/
def emit (cfg : Cfg) (s : State W T) (t : Thread W T) : Effect → Option (State W T)
  | .enqueue q => (s.q.step cfg (.start t q)).map s.setQ
  | .close fd => some (s.setFd fd false)
  | .die =>
    match t with
    | .worker w => (s.q.step cfg (.die w)).map s.setQ
    | _ => some s
  | .forever =>
    match t with
    | .worker w => (s.q.step cfg (.finish w)).map s.setQ
    | _ => none
  | _ => some s

/-- the next step of the accept thread in `try_claim`, `set` and `execute` -/
def acceptStep (cfg : Cfg) (s : State W T) (busy : Bool) : Option (State W T) := do
  let b ← s.accept.bucket
  let (v, p, e) ← (s.bucket b).acceptStep cfg busy s.accept
  ((s.setBucket b v).setAccept p).emit cfg .accept e

/-- the next step of worker `w` in `run_bucket` -/
def taskStep (cfg : Cfg) (s : State W T) (w : W) (a : TaskAct) : Option (State W T) := do
  let b ← (s.task w).bucket
  let (v, t, e) ← (s.bucket b).taskStep cfg (s.task w) a
  ((s.setBucket b v).setTask w t).emit cfg (.worker w) e

/-- a thread inside `initial_enqueue` does nothing else -/
def step (cfg : Cfg) (s : State W T) : Act W T → Option (State W T)
  | .incoming fd =>
    if s.accept = .idle ∧ s.q.calls .accept = none ∧ s.fds fd = false then
      some ((s.setAccept (.claiming fd 0)).setFd fd true)
    else none
  | .accept busy => if s.q.calls .accept = none then s.acceptStep cfg busy else none
  | .wake t q => if s.mayWake t then (s.q.step cfg (.start t q)).map s.setQ else none
  | .call t waiter => (s.q.step cfg (.call t waiter)).map s.setQ
  | .spurious w => (s.q.step cfg (.spurious w)).map s.setQ
  | .work w =>
    (s.q.step cfg (.work w)).map (fun q => (s.setQ q).setTask w (s.afterWork w))
  | .load w => if s.task w = .idle then (s.q.step cfg (.load w)).map s.setQ else none
  | .task w a =>
    if s.q.alive w ∧ s.q.calls (.worker w) = none then s.taskStep cfg w a else none

end State

namespace Executor
variable {W T : Type} [DecidableEq W] [DecidableEq T] [Fintype W]

def machine (cfg : Cfg) : Machine (State W T) (Act W T) := ⟨State.init cfg, State.step cfg⟩

end Executor

/-! ## steps -/

section
variable {W T : Type} [DecidableEq W] [DecidableEq T] [Fintype W]
variable {cfg : Cfg} {s s' : State W T}

/-- an effect changes the queue by a step of the queue or not at all, and nothing else but the
descriptors -/
theorem State.emit_eq {t : Thread W T} {e : Effect} (h : s.emit cfg t e = some s') :
    s'.bucket = s.bucket ∧ s'.accept = s.accept ∧ s'.task = s.task ∧
      (s'.q = s.q ∨ ∃ a, s.q.step cfg a = some s'.q) := by
  have hmap : ∀ a, (s.q.step cfg a).map s.setQ = some s' → s'.bucket = s.bucket ∧
      s'.accept = s.accept ∧ s'.task = s.task ∧
      (s'.q = s.q ∨ ∃ a, s.q.step cfg a = some s'.q) := by
    intro a ha
    obtain ⟨q, hq, rfl⟩ := Option.map_eq_some_iff.mp ha
    exact ⟨rfl, rfl, rfl, .inr ⟨a, hq⟩⟩
  unfold State.emit at h
  split at h
  · exact hmap _ h
  · cases h; exact ⟨rfl, rfl, rfl, .inl rfl⟩
  · split at h
    · exact hmap _ h
    · cases h; exact ⟨rfl, rfl, rfl, .inl rfl⟩
  · split at h
    · exact hmap _ h
    · cases h
  · cases h; exact ⟨rfl, rfl, rfl, .inl rfl⟩

theorem State.acceptStep_eq {busy : Bool} (h : s.acceptStep cfg busy = some s') :
    ∃ b v p e, s.accept.bucket = some b ∧ AStep cfg (s.bucket b) s.accept v p e ∧
      ((s.setBucket b v).setAccept p).emit cfg .accept e = some s' := by
  unfold State.acceptStep at h
  simp only [Option.bind_eq_bind, Option.bind_eq_some_iff] at h
  obtain ⟨b, hb, ⟨v, p, e⟩, hs, he⟩ := h
  exact ⟨b, v, p, e, hb, .of_acceptStep hs, he⟩

theorem State.taskStep_eq {w : W} {a : TaskAct} (h : s.taskStep cfg w a = some s') :
    ∃ b v t e, (s.task w).bucket = some b ∧ TStep cfg (s.bucket b) (s.task w) a v t e ∧
      ((s.setBucket b v).setTask w t).emit cfg (.worker w) e = some s' := by
  unfold State.taskStep at h
  simp only [Option.bind_eq_bind, Option.bind_eq_some_iff] at h
  obtain ⟨b, hb, ⟨v, t, e⟩, hs, he⟩ := h
  exact ⟨b, v, t, e, hb, .of_taskStep hs, he⟩

/-- A step of a worker is a step on its bucket, with its effect. -/
theorem State.step_task {w : W} {b : ℕ} {a : TaskAct} {v : Bucket} {t : TaskPc} {e : Effect}
    (hb : (s.task w).bucket = some b) (hal : s.q.alive w = true)
    (hc : s.q.calls (.worker w) = none)
    (h : (s.bucket b).taskStep cfg (s.task w) a = some (v, t, e)) :
    s.step cfg (.task w a) = ((s.setBucket b v).setTask w t).emit cfg (.worker w) e := by
  simp only [State.step, if_pos (And.intro hal hc), State.taskStep, hb, h, Option.bind_eq_bind,
    Option.bind_some]

/-- **Every step of the executor is a step of its queue, or leaves the queue alone.** -/
theorem State.step_queue {a : Act W T} (h : s.step cfg a = some s') :
    s'.q = s.q ∨ ∃ a, s.q.step cfg a = some s'.q := by
  have hmap : ∀ a, (s.q.step cfg a).map s.setQ = some s' →
      s'.q = s.q ∨ ∃ a, s.q.step cfg a = some s'.q := by
    intro a ha
    obtain ⟨q, hq, rfl⟩ := Option.map_eq_some_iff.mp ha
    exact .inr ⟨a, hq⟩
  cases a with
  | incoming fd =>
    simp only [State.step] at h
    split at h
    · cases h; exact .inl rfl
    · cases h
  | accept busy =>
    simp only [State.step] at h
    split at h
    · obtain ⟨b, v, p, e, _, _, he⟩ := State.acceptStep_eq h
      exact (State.emit_eq he).2.2.2
    · cases h
  | wake t q =>
    simp only [State.step] at h
    split at h
    · exact hmap _ h
    · cases h
  | call t waiter => exact hmap _ h
  | spurious w => exact hmap _ h
  | work w =>
    obtain ⟨q, hq, rfl⟩ := Option.map_eq_some_iff.mp h
    exact .inr ⟨_, hq⟩
  | load w =>
    simp only [State.step] at h
    split at h
    · exact hmap _ h
    · cases h
  | task w a =>
    simp only [State.step] at h
    split at h
    · obtain ⟨b, v, t, e, _, _, he⟩ := State.taskStep_eq h
      exact (State.emit_eq he).2.2.2
    · cases h

/-- **The queue of a reachable executor is a reachable queue.** -/
theorem queue_reachable {ok : State W T → Act W T → Prop}
    (h : (Executor.machine cfg).Reach ok s) : (Queue.machine cfg).Reachable s.q :=
  h.simulate State.q rfl (fun _ _ _ _ he => State.step_queue he)

end
end Nea
