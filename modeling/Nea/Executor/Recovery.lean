import Nea.Allocator.Process
import Nea.Executor.Local
import Nea.Executor.Survival
import Nea.Executor.Restore
import Nea.Queue.Wake

/-!
# Where a task that runs out of memory comes back to

A worker keeps two things in thread-local variables: `CURRENT_ARENA`, set by `run_worker` after
`blocking_dequeue`, and `JMP_BUFFER`, set by `run_bucket` after `setjmp` in each of its two arms.
The application allocates in the one and, out of memory, is sent to the other.  Here both are
followed as a history of the executor.

* `Arm`, `Locals`     an arm of `run_bucket`, and what a worker has in its variables;
* `observe`           what a step stores there;
* `Prepared`          the variables agree with what the worker is doing;
* `recovers_in_arm`   every task allocates in its own bucket and comes back to the arm that is
                      polling it.
-/

set_option linter.unusedSectionVars false

namespace Nea
open Allocator (route noRoom arenaIndexBeforeMain)

/-- an arm of `run_bucket`, with its own call of `setjmp` -/
inductive Arm where
  | inputStream (b : ℕ)
  | httpConnection (b i : ℕ)
deriving DecidableEq

def Arm.bucket : Arm → ℕ
  | .inputStream b => b
  | .httpConnection b _ => b

/-- the mutex that the arm locks, and `task_mut` is a guard of -/
def Arm.guard : Arm → Guard
  | .inputStream _ => .future
  | .httpConnection _ i => .conn i

/-- the variables of a worker -/
structure Locals where
  /-- `CURRENT_ARENA` -/
  arena : UInt32
  /-- how often `run_bucket` has been called -/
  calls : ℕ
  /-- `JMP_BUFFER`: the call of `run_bucket` and its arm where `setjmp` was called -/
  jump : Option (ℕ × Arm)

namespace Locals

def init : Locals := ⟨arenaIndexBeforeMain, 0, none⟩

/-- `run_worker` after `blocking_dequeue` -/
def setArena (x : Locals) (b : ℕ) : Locals := { x with arena := .ofNat b }

/-- `run_bucket` is called -/
def call (x : Locals) : Locals := { x with calls := x.calls + 1 }

/-- `setjmp`, and its buffer is copied to `JMP_BUFFER` -/
def setJump (x : Locals) (a : Arm) : Locals := { x with jump := some (x.calls, a) }

end Locals

/-- the arm that the step of a worker enters: the lock is there, `setjmp` follows -/
def Bucket.entered (v : Bucket) : TaskPc → TaskAct → Option Arm
  | .takeMain b, .step => if v.future.free then some (.inputStream b) else none
  | .takeConn b i, .step =>
    if (v.connections i).poisoned then none else some (.httpConnection b i)
  | _, _ => none

/-- `run_bucket` answers `OutOfMemory` or `Panic` and is called again -/
def TaskPc.returned (t t' : TaskPc) : Bool :=
  match t, t' with
  | .cleanup _ _ .release, .idle => true
  | _, _ => false

section
variable {W T : Type} [DecidableEq W] [DecidableEq T]

/-- what the next step of a worker in the queue stores -/
def Locals.work (x : Locals) (p p' : WorkerPc) : Locals :=
  match p, p' with
  | .picked _, .running b => (x.setArena b).call
  | .done .., .running _ => x.call
  | _, _ => x

/-- what the next step of a worker in `run_bucket` stores -/
def Locals.task (x : Locals) (v : Bucket) (t : TaskPc) (a : TaskAct) (t' : TaskPc) : Locals :=
  match v.entered t a with
  | some arm => x.setJump arm
  | none => if t.returned t' then x.call else x

/-- what a step stores in the variables of the workers -/
def observe (s : State W T) (a : Act W T) (s' : State W T) (x : W → Locals) : W → Locals :=
  match a with
  | .work w => Function.update x w ((x w).work (s.q.pc w) (s'.q.pc w))
  | .task w a =>
    Function.update x w ((x w).task (s.bucket ((s.task w).bucket.getD 0)) (s.task w) a (s'.task w))
  | _ => x

/-- the executor with the variables of its workers -/
def withLocals [Fintype W] (cfg : Cfg) : Machine (State W T × (W → Locals)) (Act W T) :=
  (Executor.machine cfg).watch (fun _ => .init) observe

end

/-! ## what a worker finds in its variables -/

/-- the worker is in an arm, or cleans up after it -/
def TaskPc.Within (a : Arm) : TaskPc → Prop
  | .main b _ => a = .inputStream b
  | .mainTaken b => a = .inputStream b
  | .mainClosing b _ => a = .inputStream b
  | .mainDropping b => a = .inputStream b
  | .unwinding b _ => a = .inputStream b
  | .poisoned b _ => a = .inputStream b
  | .conn b i => a = .httpConnection b i
  | .connDropping b i => a = .httpConnection b i
  | .cleanup b f _ => a.bucket = b ∧ a.guard = f.guard
  | _ => False

/-- from `setjmp` on, until `run_bucket` returns or looks for the next job -/
def TaskPc.inArm : TaskPc → Bool
  | .idle => false
  | .job .. => false
  | .takeMain _ => false
  | .takeConn .. => false
  | .ready _ => false
  | _ => true

section
variable {cfg : Cfg} {v v' : Bucket} {t t' : TaskPc} {a : TaskAct} {e : Effect}

/-- **A step stays in the arm, enters one or leaves it.** -/
theorem TStep.within (ht : TaskOk cfg t) (hs : TStep cfg v t a v' t' e) (he : e ≠ .die)
    (h' : t'.inArm = true) :
    (∃ arm, v.entered t a = some arm ∧ t'.Within arm) ∨
    (v.entered t a = none ∧ t.returned t' = false ∧ t.inArm = true ∧
      ∀ arm, t.Within arm → t'.Within arm) := by
  cases hs with
  | dispatch b off _ hd => rcases dispatch_eq ht hd with ⟨rfl, _⟩ | ⟨i, _, rfl, _⟩ <;> cases h'
  | stale b hf hn => exact .inl ⟨.inputStream b, if_pos hf, rfl⟩
  | take b f hf hs => exact .inl ⟨.inputStream b, if_pos hf, rfl⟩
  | takeConn b i hf ho =>
    have hp : (v.connections i).poisoned = false := (Mutex.free_eq_true.mp hf).2
    exact .inl ⟨.httpConnection b i, by simp only [Bucket.entered, hp]; rfl, rfl⟩
  | die => exact absurd rfl he
  | alloc _ l n ht' hn =>
    refine .inr ⟨?_, ?_, h', fun arm h => h⟩ <;> rcases ht' with ⟨b, rfl⟩ | ⟨b, i, rfl⟩ <;> rfl
  | longjmp _ _ b ht' =>
    rcases ht' with ⟨k, rfl⟩ | rfl <;> refine .inr ⟨rfl, rfl, rfl, ?_⟩ <;> rintro arm rfl <;>
      exact ⟨rfl, rfl⟩
  | longjmpUnwinding b owed =>
    refine .inr ⟨rfl, rfl, rfl, ?_⟩
    rintro arm rfl
    exact ⟨rfl, rfl⟩
  | longjmpConn _ _ b i p ht' =>
    rcases ht' with rfl | rfl <;> refine .inr ⟨rfl, rfl, rfl, ?_⟩ <;> rintro arm rfl <;>
      exact ⟨rfl, rfl⟩
  | clearPoison b owed =>
    refine .inr ⟨rfl, rfl, rfl, ?_⟩
    rintro arm rfl
    exact ⟨rfl, rfl⟩
  | raise _ _ b owed hr =>
    cases hr with
    | main k => exact .inr ⟨rfl, rfl, rfl, fun arm h => h⟩
    | dropping => exact .inr ⟨rfl, rfl, rfl, fun arm h => h⟩
  | connPanics => exact absurd rfl he
  | slotPanics => exact absurd rfl he
  | futurePanics => exact absurd rfl he
  | connReserved => exact absurd rfl he
  | readyZero => exact absurd rfl he
  | dropped b => cases h'
  | connDropped b i => cases h'
  | pending b => cases h'
  | connPending b i => cases h'
  | afterDeath b i => cases h'
  | readyLast b => cases h'
  | readyMore b => cases h'
  | release b r => cases h'
  | _ => exact .inr ⟨rfl, rfl, rfl, fun arm h => h⟩

end

section
variable {W T : Type} [DecidableEq W] [DecidableEq T] [Fintype W]
variable {cfg : Cfg} {s s' : State W T} {x : W → Locals}

/-- the bucket of a worker from `blocking_dequeue` on -/
def WorkerPc.working : WorkerPc → Option ℕ
  | .running b => some b
  | .dequeued b _ => some b
  | .done b _ _ => some b
  | _ => none

theorem WorkerPc.bucket_of_working {p : WorkerPc} {b : ℕ} (h : p.working = some b) :
    p.bucket = some b := by
  cases p <;> first | exact h | cases h

structure Prepared (s : State W T) (x : W → Locals) : Prop where
  arena : ∀ w b, (s.q.pc w).working = some b → (x w).arena = .ofNat b
  low : ∀ w b, (s.task w).bucket = some b → b < 1000
  jump : ∀ w, s.q.alive w = true → (s.task w).inArm = true →
    ∃ arm, (x w).jump = some ((x w).calls, arm) ∧ (s.task w).Within arm

/-! ## which steps move a worker -/

/-- A worker enters its bucket when `blocking_dequeue` returns, and stays there. -/
theorem Queue.working_of_step {q q' : Queue W T} (hs : QStep cfg q q') {w : W} {b : ℕ}
    (hw : (q'.pc w).working = some b) :
    (q.pc w).working = some b ∨ (q.pc w = .picked b ∧ q'.pc w = .running b) := by
  cases Queue.pcMove_of_step hs w with
  | same h => exact .inl (h ▸ hw)
  | leave h =>
    rw [WorkerPc.bucket_of_working hw] at h
    cases h
  | pick b1 h => rw [h] at hw; cases hw
  | run b1 h0 h =>
    rw [h] at hw
    cases hw
    exact .inr ⟨h0, h⟩
  | clear b1 i h0 h => rw [h] at hw; cases hw; exact .inl (by rw [h0]; rfl)
  | goAgain b1 k h0 h => rw [h] at hw; cases hw; exact .inl (by rw [h0]; rfl)
  | retry b1 k k' r r' h0 h => rw [h] at hw; cases hw; exact .inl (by rw [h0]; rfl)
  | stop b1 h0 h =>
    -- an owner that is not in `done_with_bucket` keeps its slot
    rcases Queue.owns_or_done hs (show q.Owns w b1 by unfold Queue.Owns; rw [h0]; rfl) with h1 | h1
    · have h2 : some b = some b1 := (WorkerPc.bucket_of_working hw).symm.trans h1
      cases h2
      exact .inl (by rw [h0]; rfl)
    · obtain ⟨k, h1⟩ := h1
      rw [h0] at h1
      cases h1

/-- A worker leaves `try_dequeue` by its own step. -/
theorem State.work_of_picked {a : Act W T} (hs : s.step cfg a = some s') {w : W} {b : ℕ}
    (h0 : s.q.pc w = .picked b) (h1 : s'.q.pc w ≠ .picked b) : a = .work w := by
  by_contra hne
  refine h1 ?_
  -- no other step of the executor is a step of this worker in the queue
  have key : ∀ (qa : QAct W T) (q : Queue W T), s.q.step cfg qa = some q → qa ≠ .work w →
      q.pc w = .picked b := by
    intro qa q hq hw
    rw [← h0]
    refine Queue.pc_frame hq (by rw [h0]; simp) hw ?_ ?_
    · rintro rfl
      simp only [Queue.step, Queue.loadStep, h0] at hq
      split at hq <;> cases hq
    · rintro rfl
      simp only [Queue.step, h0] at hq
      cases hq
  have hmap : ∀ qa, qa ≠ .work w → (s.q.step cfg qa).map s.setQ = some s' →
      s'.q.pc w = .picked b := by
    intro qa hqa hq
    obtain ⟨q, h2, rfl⟩ := Option.map_eq_some_iff.mp hq
    exact key qa q h2 hqa
  have hemit : ∀ {s0 : State W T} {t : Thread W T} {e : Effect}, s0.emit cfg t e = some s' →
      s0.q = s.q → s'.q.pc w = .picked b := by
    intro s0 t e he h0'
    have hmap0 : ∀ qa, qa ≠ .work w → (s0.q.step cfg qa).map s0.setQ = some s' →
        s'.q.pc w = .picked b := by
      intro qa hqa hq
      obtain ⟨q, h2, rfl⟩ := Option.map_eq_some_iff.mp hq
      exact key qa q (h0' ▸ h2) hqa
    unfold State.emit at he
    split at he
    · exact hmap0 _ (fun e => by cases e) he
    · cases he; rw [State.setFd_q, h0', h0]
    · split at he
      · exact hmap0 _ (fun e => by cases e) he
      · cases he; rw [h0', h0]
    · split at he
      · exact hmap0 _ (fun e => by cases e) he
      · cases he
    · cases he; rw [h0', h0]
  cases a with
  | incoming fd =>
    simp only [State.step] at hs
    split at hs <;> cases hs
    exact h0
  | accept busy =>
    simp only [State.step] at hs
    split at hs
    · obtain ⟨b0, v, p, e, _, _, he⟩ := State.acceptStep_eq hs
      exact hemit he rfl
    · cases hs
  | wake t q =>
    simp only [State.step] at hs
    split at hs
    · exact hmap _ (fun e => by cases e) hs
    · cases hs
  | call t waiter => exact hmap _ (fun e => by cases e) hs
  | spurious w1 => exact hmap _ (fun e => by cases e) hs
  | work w1 =>
    obtain ⟨q, hq, rfl⟩ := Option.map_eq_some_iff.mp hs
    exact key _ q hq (fun e => hne (by cases e; rfl))
  | load w1 =>
    simp only [State.step] at hs
    split at hs
    · exact hmap _ (fun e => by cases e) hs
    · cases hs
  | task w1 a =>
    simp only [State.step] at hs
    split at hs
    · obtain ⟨b0, v, t, e, _, _, he⟩ := State.taskStep_eq hs
      exact hemit he rfl
    · cases hs

/-- The task of a worker changes by its own steps only. -/
theorem State.task_frame {a : Act W T} (hs : s.step cfg a = some s') {w : W}
    (hw : a ≠ .work w) (ht : ∀ a', a ≠ .task w a') : s'.task w = s.task w := by
  have hmap : ∀ qa, (s.q.step cfg qa).map s.setQ = some s' → s'.task w = s.task w := by
    intro qa hq
    obtain ⟨q, -, rfl⟩ := Option.map_eq_some_iff.mp hq
    rfl
  cases a with
  | incoming fd =>
    simp only [State.step] at hs
    split at hs <;> cases hs
    rfl
  | accept busy =>
    simp only [State.step] at hs
    split at hs
    · obtain ⟨b0, v, p, e, _, _, he⟩ := State.acceptStep_eq hs
      exact congrFun (State.emit_eq he).2.2.1 w
    · cases hs
  | wake t q =>
    simp only [State.step] at hs
    split at hs
    · exact hmap _ hs
    · cases hs
  | call t waiter => exact hmap _ hs
  | spurious w1 => exact hmap _ hs
  | work w1 =>
    obtain ⟨q, hq, rfl⟩ := Option.map_eq_some_iff.mp hs
    exact Function.update_of_ne (fun e => hw (by rw [e])) _ _
  | load w1 =>
    simp only [State.step] at hs
    split at hs
    · exact hmap _ hs
    · cases hs
  | task w1 a =>
    have e : w ≠ w1 := fun h => ht a (by rw [h])
    simp only [State.step] at hs
    split at hs
    · obtain ⟨b0, v, t, e1, _, _, he⟩ := State.taskStep_eq hs
      exact (congrFun (State.emit_eq he).2.2.1 w).trans (Function.update_of_ne e _ _)
    · cases hs

theorem State.step_task_bucket {w : W} {a : TaskAct} (hs : s.step cfg (.task w a) = some s') :
    ∃ b, (s.task w).bucket = some b := by
  simp only [State.step] at hs
  split at hs
  · obtain ⟨b, _, _, _, hb, _⟩ := State.taskStep_eq hs
    exact ⟨b, hb⟩
  · cases hs

/-- A step after which the worker lives is no fatal one. -/
theorem State.step_task_alive {w : W} {a : TaskAct} (hs : s.step cfg (.task w a) = some s') {b : ℕ}
    (hb : (s.task w).bucket = some b) (hal : s'.q.alive w = true) :
    ∃ e, TStep cfg (s.bucket b) (s.task w) a (s'.bucket b) (s'.task w) e ∧ e ≠ .die := by
  simp only [State.step] at hs
  split at hs
  · obtain ⟨b0, v, t, e, hb0, hts, he⟩ := State.taskStep_eq hs
    obtain rfl : b0 = b := Option.some_inj.mp (hb0.symm.trans hb)
    obtain ⟨e1, -, e3, -⟩ := State.emit_eq he
    have h1 : s'.bucket b0 = v := (congrFun e1 b0).trans (Function.update_self ..)
    have h2 : s'.task w = t := (congrFun e3 w).trans (Function.update_self ..)
    refine ⟨e, by rw [h1, h2]; exact hts, ?_⟩
    rintro rfl
    have hkill : s'.q = s.q.kill w := by
      cases he
      rfl
    have hdead : (s.q.kill w).alive w = false := Function.update_self ..
    rw [hkill, hdead] at hal
    cases hal
  · cases hs

/-! ## every step keeps the variables in order -/

theorem prepared_init (cfg : Cfg) : Prepared (State.init cfg : State W T) (fun _ => .init) where
  arena w b h := by cases h
  low w b h := by cases h
  jump w _ h := by cases h

/-- `CURRENT_ARENA` is stored when `blocking_dequeue` has returned, and else left alone. -/
theorem observe_arena (s : State W T) (a : Act W T) (s' : State W T) (x : W → Locals) (w : W)
    (h : ∀ b, ¬ (a = .work w ∧ s.q.pc w = .picked b)) :
    (observe s a s' x w).arena = (x w).arena := by
  cases a with
  | work w1 =>
    show (Function.update x w1 _ w).arena = _
    by_cases e : w = w1
    · subst e
      rw [Function.update_self]
      unfold Locals.work
      split
      · next b0 b hp _ => exact absurd ⟨rfl, hp⟩ (h b0)
      · rfl
      · rfl
    · rw [Function.update_of_ne e]
  | task w1 a =>
    show (Function.update x w1 _ w).arena = _
    by_cases e : w = w1
    · subst e
      rw [Function.update_self]
      unfold Locals.task
      split
      · rfl
      · split <;> rfl
    · rw [Function.update_of_ne e]
  | _ => rfl

/-- The variables of a worker change by its own steps only. -/
theorem observe_frame (s : State W T) {a : Act W T} (s' : State W T) (x : W → Locals) {w : W}
    (hw : a ≠ .work w) (ht : ∀ a', a ≠ .task w a') : observe s a s' x w = x w := by
  cases a with
  | work w1 => exact Function.update_of_ne (fun e => hw (by rw [e])) ..
  | task w1 a => exact Function.update_of_ne (fun e => ht a (by rw [e])) ..
  | _ => rfl

theorem TaskPc.exists_bucket {t : TaskPc} (h : t.inArm = true) : ∃ b, t.bucket = some b := by
  cases t <;> first | exact ⟨_, rfl⟩ | cases h

/-- **Every step keeps the variables of the workers in order.** -/
theorem Prepared.step (h : Prepared s x) (hr : (Executor.machine cfg).Reachable s) {a : Act W T}
    (hs : s.step cfg a = some s') : Prepared s' (observe s a s' x) := by
  have ha := attached_of_reach hr
  have hn := Queue.named_of_reachable (queue_reachable hr)
  have hwork : ∀ w b, a = .work w → (s.task w).bucket ≠ some b := by
    rintro w b rfl hb
    obtain ⟨q, hq, -⟩ := Option.map_eq_some_iff.mp hs
    simp only [Queue.step, Queue.workStep, ha.running w b hb] at hq
    split at hq <;> cases hq
  refine ⟨fun w b hw => ?_, fun w b hb => ?_, fun w hal hin => ?_⟩
  · rcases State.step_queue hs with hq | ⟨qa, hq⟩
    · rw [hq] at hw
      rw [observe_arena s a s' x w, h.arena w b hw]
      rintro b' ⟨-, hp⟩
      rw [hp] at hw
      cases hw
    · rcases Queue.working_of_step (.of_step hq) hw with h1 | ⟨h1, h2⟩
      · rw [observe_arena s a s' x w, h.arena w b h1]
        rintro b' ⟨-, hp⟩
        rw [hp] at h1
        cases h1
      · obtain rfl := State.work_of_picked hs h1 (by rw [h2]; simp)
        show (Function.update x w _ w).arena = _
        rw [Function.update_self, h1, h2]
        rfl
  · by_cases h1 : ∃ a', a = .task w a'
    · obtain ⟨a', rfl⟩ := h1
      obtain ⟨b0, hb0⟩ := State.step_task_bucket hs
      obtain ⟨-, e, hts, -⟩ := State.step_task_eq hs hb0
      rcases (TStep.of_taskStep hts).bucket_eq (ha.taskOk w) with h2 | h2
      · exact h.low w b (h2.symm.trans hb)
      · rw [h2] at hb
        cases hb
    · by_cases h2 : a = .work w
      · subst h2
        obtain ⟨q, -, rfl⟩ := Option.map_eq_some_iff.mp hs
        rw [State.setTask_task, Function.update_self] at hb
        unfold State.afterWork at hb
        split at hb
        · next b' i hp =>
          cases hb
          exact (hn.chosen w b i hp).bucket_lt_1000.2
        · exact h.low w b hb
      · rw [State.task_frame hs h2 (fun a' e => h1 ⟨a', e⟩)] at hb
        exact h.low w b hb
  · by_cases h1 : ∃ a', a = .task w a'
    · obtain ⟨a', rfl⟩ := h1
      obtain ⟨b, hb⟩ := State.step_task_bucket hs
      obtain ⟨e, hts, he⟩ := State.step_task_alive hs hb hal
      have hx : observe s (.task w a') s' x w =
          (x w).task (s.bucket b) (s.task w) a' (s'.task w) := by
        show Function.update x w _ w = _
        rw [Function.update_self, hb]
        rfl
      rw [hx]
      rcases hts.within (ha.taskOk w) he hin with ⟨arm, h2, h3⟩ | ⟨h2, h3, h4, h5⟩
      · refine ⟨arm, ?_, h3⟩
        unfold Locals.task
        rw [h2]
        rfl
      · have halive : s.q.alive w = true := (State.step_task_eq hs hb).1
        obtain ⟨arm, h6, h7⟩ := h.jump w halive h4
        refine ⟨arm, ?_, h5 arm h7⟩
        unfold Locals.task
        rw [h2, h3]
        exact h6
    · have h2 : a ≠ .work w := by
        rintro rfl
        obtain ⟨q, -, rfl⟩ := Option.map_eq_some_iff.mp hs
        rw [State.setTask_task, Function.update_self] at hin
        unfold State.afterWork at hin
        split at hin
        · cases hin
        · obtain ⟨b, hb⟩ := TaskPc.exists_bucket hin
          exact hwork w b rfl hb
      have h3 : ∀ a', a ≠ .task w a' := fun a' e => h1 ⟨a', e⟩
      rw [observe_frame s s' x h2 h3]
      have htask := State.task_frame hs h2 h3
      rw [htask] at hin ⊢
      obtain ⟨b, hb⟩ := TaskPc.exists_bucket hin
      rw [(ha.frame hb hs h3).2] at hal
      exact h.jump w hal hin

theorem prepared_of_reachable {y : State W T × (W → Locals)} (h : (withLocals cfg).Reachable y) :
    Prepared y.1 y.2 :=
  h.invariant (I := fun y => Prepared y.1 y.2) (prepared_init cfg) (fun s a s' hr hi _ hs => by
    obtain ⟨h1, h2⟩ := Machine.watch_step.mp hs
    rw [h2]
    exact hi.step (Machine.reachable_of_watch hr) h1)

/-! ## out of memory -/

theorem ofNat_ne_of_low {b : ℕ} (hb : b < 1000) {i : UInt32} (hi : 1000 ≤ i.toNat) :
    UInt32.ofNat b ≠ i := by
  rintro rfl
  rw [UInt32.toNat_ofNat', Nat.mod_eq_of_lt (by omega)] at hi
  omega

/-- The index of a bucket is none of the reserved ones. -/
theorem route_ofNat {b : ℕ} (hb : b < 1000) :
    route (.ofNat b) = some (.bucket b) ∧ noRoom (.ofNat b) = .rocPanic := by
  have h1 := ofNat_ne_of_low hb (i := arenaIndexBeforeMain) (by decide)
  have h2 := ofNat_ne_of_low hb (i := Allocator.arenaIndexExecutor) (by decide)
  have h3 := ofNat_ne_of_low hb (i := Allocator.arenaIndexReactor) (by decide)
  have h4 := ofNat_ne_of_low hb (i := Allocator.arenaIndexUninitialized) (by decide)
  have h5 : (UInt32.ofNat b).toNat = b := by
    rw [UInt32.toNat_ofNat', Nat.mod_eq_of_lt (by omega)]
  unfold route noRoom
  simp [h1, h2, h3, h4, h5]

/-- the bucket as the jump finds it: a guard that `cleanup_bucket` holds stays, and the main future
has been taken out -/
def Bucket.interrupted (v : Bucket) : TaskPc → Bucket
  | .cleanup _ _ (.slots i) => v.setConn i (v.connections i).lock
  | .cleanup _ _ .future => v.setFuture (v.future.set none).lock
  | _ => v

/-- a panic is in progress when memory runs out -/
def TaskPc.panics (t : TaskPc) (a : TaskAct) : Bool :=
  match t with
  | .unwinding _ _ => true
  | .cleanup _ f _ => f.panicking || a.unwinds
  | _ => a.unwinds

/-- **A jump back**: from an arm, dropping a guard there. -/
theorem TStep.thrown {cfg : Cfg} {v v' : Bucket} {t : TaskPc} {a : TaskAct} {e : Effect} {b : ℕ}
    {f : Failure} (ht : TaskOk cfg t) (hs : TStep cfg v t a v' (.cleanup b f .load) e)
    (ho : f.reason = .outOfMemory) :
    (t.inArm = true ∧ e ≠ .die) ∧ f.panicking = t.panics a ∧
      v' = (v.interrupted t).dropGuard f.guard f.panicking := by
  cases hs with
  | die _ _ hd => cases hd
  | dispatch off _ _ hd => rcases dispatch_eq ht hd with ⟨h1, _⟩ | ⟨_, _, h1, _⟩ <;> cases h1
  | alloc _ _ _ ht => rcases ht with ⟨_, h1⟩ | ⟨_, _, h1⟩ <;> cases h1
  | connPanics _ _ _ ht => rcases ht with h1 | h1 <;> cases h1
  | clearPoison => cases ho
  | longjmp _ _ _ ht' ha =>
    rcases ht' with ⟨k, rfl⟩ | rfl <;> exact ⟨⟨rfl, fun h => by cases h⟩, ha.symm, rfl⟩
  | longjmpUnwinding => exact ⟨⟨rfl, fun h => by cases h⟩, rfl, rfl⟩
  | longjmpConn _ _ _ i p ht' hp =>
    rcases ht' with rfl | rfl <;> exact ⟨⟨rfl, fun h => by cases h⟩, hp.symm, rfl⟩
  | slotAgain _ f i a p hi hf ho ha =>
    refine ⟨⟨rfl, fun h => by cases h⟩, ?_, rfl⟩
    show (f.panicking || p) = (f.panicking || a.unwinds)
    rw [TaskAct.unwinds_of_exhausts ha]
  | futureAgain _ f a p hf hs ha =>
    refine ⟨⟨rfl, fun h => by cases h⟩, ?_, rfl⟩
    show (f.panicking || p) = (f.panicking || a.unwinds)
    rw [TaskAct.unwinds_of_exhausts ha]

/-- A step that enters an arm comes from outside of the arms. -/
theorem not_inArm_of_entered {v : Bucket} {t : TaskPc} {a : TaskAct} {arm : Arm}
    (h : v.entered t a = some arm) : t.inArm = false := by
  cases t with
  | takeMain => rfl
  | takeConn => rfl
  | _ => cases h

/-- **A task allocates in its own bucket, and out of memory it comes back to its own arm.**  In every
reachable state, for a worker that lives: whatever bucket it works on, `CURRENT_ARENA` sends its
allocations there and `roc_panic` is what follows when there is no room.  When memory runs out, in a
poll, while a panic unwinds, in a destructor of the task or in one that `cleanup_bucket` runs,
`JMP_BUFFER` holds the context of the arm that took the task up, saved by the call of `run_bucket`
that is still running; and the guard that is dropped there is of the mutex of this arm, which is
unlocked, and poisoned exactly if a panic is in progress. -/
theorem recovers_in_arm (cfg : Cfg) (y : State W T × (W → Locals))
    (h : (withLocals cfg).Reachable y) (w : W) (hal : y.1.q.alive w = true) :
    (∀ b, (y.1.task w).bucket = some b →
      route (y.2 w).arena = some (.bucket b) ∧ noRoom (y.2 w).arena = .rocPanic) ∧
    (∀ a s' b f, y.1.step cfg (.task w a) = some s' → s'.task w = .cleanup b f .load →
      f.reason = .outOfMemory →
      ∃ arm, (y.2 w).jump = some ((y.2 w).calls, arm) ∧ arm.bucket = b ∧
        f.panicking = (y.1.task w).panics a ∧
        s'.bucket b = ((y.1.bucket b).interrupted (y.1.task w)).dropGuard arm.guard
          f.panicking) := by
  have hr := Machine.reachable_of_watch h
  have ha := attached_of_reach hr
  have hp := prepared_of_reachable h
  refine ⟨fun b hb => ?_, fun a s' b f hs hb' ho => ?_⟩
  · rw [hp.arena w b (by rw [ha.running w b hb]; rfl)]
    exact route_ofNat (hp.low w b hb)
  · obtain ⟨b0, hb⟩ := State.step_task_bucket hs
    obtain ⟨-, e, hts, hlive⟩ := State.step_task_eq hs hb
    have hts := TStep.of_taskStep hts
    rw [hb'] at hts
    -- in both arms the worker stays with its bucket
    obtain rfl : b0 = b := by
      rcases hts.bucket_eq (ha.taskOk w) with h1 | h1
      · exact Option.some.inj (hb.symm.trans h1.symm)
      · cases h1
    obtain ⟨⟨hin, he⟩, hf, hv⟩ := hts.thrown (ha.taskOk w) ho
    obtain ⟨arm, hjump, hwith⟩ := hp.jump w hal hin
    rcases hts.within (ha.taskOk w) he rfl with ⟨arm', h1, _⟩ | ⟨_, _, _, hstay⟩
    · rw [not_inArm_of_entered h1] at hin
      cases hin
    · obtain ⟨hbucket, hguard⟩ := hstay arm hwith
      exact ⟨arm, hjump, hbucket, hf, by rw [hguard]; exact hv⟩

/-- after the run `l` memory runs out in the action `a` of worker 0, and it comes back to `arm` -/
def ComesBack (l : List (Act (Fin 1) (Fin 1))) (a : TaskAct) (arm : Arm) (panicking : Bool) : Prop :=
  let y := (withLocals cfgOne).final l
  route (y.2 0).arena = some (.bucket 0) ∧
  ∃ s', y.1.step cfgOne (.task 0 a) = some s' ∧ (y.2 0).jump = some ((y.2 0).calls, arm) ∧
    s'.bucket 0 = ((y.1.bucket 0).interrupted (y.1.task 0)).dropGuard arm.guard panicking

/-- Memory runs out in the poll of a main future, while its panic unwinds, in its destructor in
`cleanup_bucket`, and in the poll of a connection, which panics first or does not. -/
theorem recovers_in_arm_taken :
    ComesBack (arriving ++ taking) .oom (.inputStream 0) false ∧
    ComesBack (arriving ++ taking ++ [.task 0 .panic]) .oom (.inputStream 0) true ∧
    ComesBack (arriving ++ taking ++ panicking ++ List.replicate 4 (.task 0 .step)) .oom
      (.inputStream 0) false ∧
    ComesBack (arriving ++ taking ++ connecting ++ completing) .oom (.httpConnection 0 0) false ∧
    ComesBack (arriving ++ taking ++ connecting ++ completing) .panicOom (.httpConnection 0 0)
      true := by
  have run : ∀ l a arm f, ((withLocals cfgOne).final l).1.q.alive 0 = true →
      (((withLocals cfgOne).final l).1.task 0).bucket = some 0 →
      (((withLocals cfgOne).final l).1.step cfgOne (.task 0 a)).map (fun s => s.task 0)
        = some (.cleanup 0 f .load) → f.reason = .outOfMemory →
      (((withLocals cfgOne).final l).2 0).jump.map Prod.snd = some arm →
      ComesBack l a arm f.panicking := by
    intro l a arm f hal hb hs ho hj
    obtain ⟨s', hs, ht⟩ := Option.map_eq_some_iff.mp hs
    obtain ⟨harena, hjump⟩ := recovers_in_arm cfgOne ((withLocals cfgOne).final l)
      (Machine.reachable_final _ _) 0 hal
    obtain ⟨arm', h1, _, _, h2⟩ := hjump a s' 0 f hs ht ho
    rw [h1] at hj
    cases hj
    exact ⟨(harena 0 hb).1, s', hs, h1, h2⟩
  exact ⟨run _ _ _ (.thrown .future false) (by decide) (by decide) (by decide) rfl
      (by decide),
    run _ _ _ (.thrown .future true) (by decide) (by decide) (by decide) rfl
      (by decide),
    run _ _ _ (Failure.caught.again .future false) (by decide) (by decide) (by decide) rfl
      (by decide),
    run _ _ _ (.thrown (.conn 0) false) (by decide) (by decide) (by decide) rfl
      (by decide),
    run _ _ _ (.thrown (.conn 0) true) (by decide) (by decide) (by decide) rfl
      (by decide)⟩

end
end Nea
