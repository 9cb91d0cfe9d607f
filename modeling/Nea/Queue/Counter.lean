import Nea.Lib.Tally
import Nea.Queue.Jobs
import Nea.Queue.Ownership
import Mathlib.Data.Fintype.Option
import Mathlib.Data.Fintype.Sum

/-!
# The counter of available jobs

`jobs_in_queue` is incremented before a slot is marked and decremented after a slot is picked, so
it is never the number of marked slots alone.  `Queue.due` is what it has to be: the slots that are
enqueued and nothing else, the enqueue calls between their increment and the mark of an idle slot
(or their revert), and the workers between `try_process` and their decrement.  `due_step` says that
every step keeps the counter equal to it.
-/

set_option linter.unusedSectionVars false

namespace Nea

/-- 1 for a slot whose flags are exactly the enqueued bit -/
def QueueSlot.idleMark (q : QueueSlot) : ℕ := if q.flags = enqueuedBit then 1 else 0

/-- 1 for a call that has incremented the counter and has neither marked an idle slot nor
reverted -/
def EnqueuePc.due : EnqueuePc → ℕ
  | .mark => 1
  | .revert => 1
  | .panicked true => 1
  | _ => 0

def callDue (o : Option Enqueue) : ℕ := o.elim 0 (fun c => c.pc.due)

/-- 1 for a worker that has picked a slot and has not decremented the counter -/
def WorkerPc.due : WorkerPc → ℕ
  | .picked _ => 1
  | _ => 0

namespace Queue
variable {W T : Type} [DecidableEq W] [DecidableEq T] [Fintype W] [Fintype T]

instance : Fintype (Thread W T) :=
  Fintype.ofEquiv (Option (W ⊕ T))
    { toFun := fun o => match o with
        | none => .accept
        | some (.inl w) => .worker w
        | some (.inr t) => .other t
      invFun := fun t => match t with
        | .accept => none
        | .worker w => some (.inl w)
        | .other t => some (.inr t)
      left_inv := by rintro (_ | _ | _) <;> rfl
      right_inv := by rintro (_ | _ | _) <;> rfl }

/-- the slots of the queue that are enqueued and not in progress -/
def enqueuedOnly (cfg : Cfg) (s : Queue W T) : ℕ :=
  tally QueueSlot.idleMark (Finset.range cfg.bucketCount) s.slots

/-- the enqueue calls that have incremented the counter and still owe a mark or a revert -/
def callsDue (s : Queue W T) : ℕ := tally callDue Finset.univ s.calls

/-- the workers that have picked a slot and still owe a decrement -/
def workersDue (s : Queue W T) : ℕ := tally WorkerPc.due Finset.univ s.pc

/-- what the counter has to be -/
def due (cfg : Cfg) (s : Queue W T) : ℕ := s.enqueuedOnly cfg + s.callsDue + s.workersDue

section
variable (cfg : Cfg) (s : Queue W T)

theorem due_setCall {t : Thread W T} {o : Option Enqueue} (ho : s.calls t = o)
    (o' : Option Enqueue) : due cfg (s.setCall t o') + callDue o = due cfg s + callDue o' := by
  have h := tally_update callDue s.calls (Finset.mem_univ t) o'
  rw [ho] at h
  show s.enqueuedOnly cfg + tally callDue Finset.univ (Function.update s.calls t o') + s.workersDue
    + _ = s.enqueuedOnly cfg + tally callDue Finset.univ s.calls + s.workersDue + _
  omega

theorem due_setPc {w : W} {p : WorkerPc} (hp : s.pc w = p) (p' : WorkerPc) :
    due cfg (s.setPc w p') + p.due = due cfg s + p'.due := by
  have h := tally_update WorkerPc.due s.pc (Finset.mem_univ w) p'
  rw [hp] at h
  show s.enqueuedOnly cfg + s.callsDue + tally WorkerPc.due Finset.univ (Function.update s.pc w p')
    + _ = s.enqueuedOnly cfg + s.callsDue + tally WorkerPc.due Finset.univ s.pc + _
  omega

theorem due_setSlot {b : ℕ} (hb : b < cfg.bucketCount) (q : QueueSlot) :
    due cfg (s.setSlot b q) + (s.slots b).idleMark = due cfg s + q.idleMark := by
  have h := tally_update QueueSlot.idleMark s.slots (Finset.mem_range.mpr hb) q
  show tally QueueSlot.idleMark _ (Function.update s.slots b q) + s.callsDue + s.workersDue + _
    = tally QueueSlot.idleMark _ s.slots + s.callsDue + s.workersDue + _
  omega

/-- A slot that stays idle, or stays not idle, leaves the count alone, inside or outside the
queue. -/
theorem due_setSlot_same {b : ℕ} {q : QueueSlot} (hq : q.idleMark = (s.slots b).idleMark) :
    due cfg (s.setSlot b q) = due cfg s := by
  by_cases hb : b < cfg.bucketCount
  · have h := due_setSlot cfg s hb q
    omega
  · have h := tally_update_of_notMem QueueSlot.idleMark s.slots
      (s := Finset.range cfg.bucketCount) (fun h => hb (Finset.mem_range.mp h)) q
    show tally QueueSlot.idleMark _ (Function.update s.slots b q) + s.callsDue + s.workersDue
      = tally QueueSlot.idleMark _ s.slots + s.callsDue + s.workersDue
    rw [h]

end

theorem due_init (cfg : Cfg) : due cfg (init : Queue W T) = 0 := by
  have h1 : tally QueueSlot.idleMark (Finset.range cfg.bucketCount)
      (init : Queue W T).slots = 0 := tally_eq_zero.mpr (fun _ _ => rfl)
  have h2 : tally callDue Finset.univ (init : Queue W T).calls = 0 :=
    tally_eq_zero.mpr (fun _ _ => rfl)
  have h3 : tally WorkerPc.due Finset.univ (init : Queue W T).pc = 0 :=
    tally_eq_zero.mpr (fun _ _ => rfl)
  show tally _ _ _ + tally _ _ _ + tally _ _ _ = 0
  rw [h1, h2, h3]

/-! ## one step -/

section
variable {q : QueueSlot}

theorem idleMark_of_ne (h : q.flags ≠ enqueuedBit) : q.idleMark = 0 := if_neg h
theorem idleMark_of_eq (h : q.flags = enqueuedBit) : q.idleMark = 1 := if_pos h

theorem idleMark_markIdle (h : Flags q.flags) (he : q.isEnqueued = false)
    (hp : q.isInProgress = false) : q.idleMark = 0 ∧ q.markEnqueued.2.idleMark = 1 := by
  have h0 : q.flags = 0 := by
    rcases id h with h0 | h0 | h0 | h0
    · exact h0
    · exact absurd ((QueueSlot.isEnqueued_iff h).mpr (.inl h0)) (by simp [he])
    · exact absurd ((QueueSlot.isInProgress_iff h).mpr (.inl h0)) (by simp [hp])
    · exact absurd ((QueueSlot.isEnqueued_iff h).mpr (.inr h0)) (by simp [he])
  refine ⟨idleMark_of_ne (by rw [h0]; decide), idleMark_of_eq ?_⟩
  show q.flags ||| enqueuedBit = enqueuedBit
  rw [h0]
  decide

theorem idleMark_markBusy (h : Flags q.flags)
    (hb : q.isEnqueued = true ∨ q.isInProgress = true) :
    q.markEnqueued.2.idleMark = q.idleMark := by
  rw [QueueSlot.isEnqueued_iff h, QueueSlot.isInProgress_iff h] at hb
  have hE : enqueuedBit ||| enqueuedBit = enqueuedBit := by decide
  have hP : inProgressBit ||| enqueuedBit ≠ enqueuedBit := by decide
  have hP' : inProgressBit ≠ enqueuedBit := by decide
  have hB : enqueuedBit ||| inProgressBit ||| enqueuedBit = enqueuedBit ||| inProgressBit := by
    decide
  unfold QueueSlot.idleMark QueueSlot.markEnqueued
  rcases hb with (hb | hb) | (hb | hb) <;> 
    simp only [QueueSlot.flags_setFlags, hb, hE, hP, hP', hB, if_false, if_true]

end

/-- A worker moves on without touching the counter or what it owes. -/
theorem due_move {cfg : Cfg} {s : Queue W T} {w : W} {p p' : WorkerPc} (hw : s.pc w = p)
    (hp : p'.due = p.due) (h : s.jobsInQueue.val = due cfg s) :
    (s.setPc w p').jobsInQueue.val = due cfg (s.setPc w p') := by
  have h1 := due_setPc cfg s hw p'
  rw [jobs_setPc]
  omega

/-- **One step keeps the counter exact.** -/
theorem due_step {cfg : Cfg} {s s' : Queue W T} (ho : Owned s) (hn : Named cfg s)
    (h : s.jobsInQueue.val = due cfg s) (hs : QStep cfg s s') :
    s'.jobsInQueue.val = due cfg s' := by
  cases hs with
  | start t q c h0 hc =>
    have h1 := due_setCall cfg s h0 (some c)
    simp only [callDue, Option.elim, (initialEnqueue_eq_some.mp hc).2.1, EnqueuePc.due] at h1
    rw [jobs_setCall]
    omega
  | setOld t c hc hpc hj =>
    have h1 := due_setSlot_same cfg s (b := c.bucket)
      (q := ((s.slots c.bucket).setJob c.offset).2) rfl
    have h2 := due_setCall cfg (s.setSlot c.bucket ((s.slots c.bucket).setJob c.offset).2) hc none
    simp only [callDue, Option.elim, hpc, EnqueuePc.due] at h2
    rw [jobs_setCall, jobs_setSlot]
    omega
  | setNew t c hc hpc hj =>
    have h1 := due_setSlot_same cfg s (b := c.bucket)
      (q := ((s.slots c.bucket).setJob c.offset).2) rfl
    have h2 := due_setCall cfg (s.setSlot c.bucket ((s.slots c.bucket).setJob c.offset).2) hc
      (some { c with pc := .increment })
    simp only [callDue, Option.elim, hpc, EnqueuePc.due] at h2
    rw [jobs_setCall, jobs_setSlot]
    omega
  | increment t c hc hpc =>
    have h1 := due_setCall cfg s hc (some { c with pc := .mark })
    simp only [callDue, Option.elim, hpc, EnqueuePc.due] at h1
    show s.jobsInQueue.val + 1 = due cfg (s.setCall t _)
    omega
  | incrementPanics t c m hc hpc hm hp =>
    have h1 := due_setCall cfg s hc (some { c with pc := .panicked false })
    simp only [callDue, Option.elim, hpc, EnqueuePc.due] at h1
    show m.val = due cfg (s.setCall t _)
    omega
  | markIdle t c hc hpc he hp =>
    obtain ⟨i1, i2⟩ := idleMark_markIdle (ho.flags c.bucket) he hp
    have h1 := due_setSlot cfg s (hn.calls t c hc).bucket_lt (s.slots c.bucket).markEnqueued.2
    have h2 := due_setCall cfg (s.setSlot c.bucket (s.slots c.bucket).markEnqueued.2) hc
      (some { c with pc := .wakeOne })
    simp only [callDue, Option.elim, hpc, EnqueuePc.due] at h2
    rw [jobs_setCall, jobs_setSlot]
    omega
  | markBusy t c hc hpc hb =>
    have h1 := due_setSlot_same cfg s (idleMark_markBusy (ho.flags c.bucket) hb)
    have h2 := due_setCall cfg (s.setSlot c.bucket (s.slots c.bucket).markEnqueued.2) hc
      (some { c with pc := .revert })
    simp only [callDue, Option.elim, hpc, EnqueuePc.due] at h2
    rw [jobs_setCall, jobs_setSlot]
    omega
  | wakeOne t c w hc hpc hw =>
    have h1 := due_setCall cfg s hc none
    have h2 := due_setPc cfg (s.setCall t none) hw .waitJobs
    simp only [callDue, Option.elim, hpc, EnqueuePc.due, WorkerPc.due] at h1 h2
    rw [jobs_setPc, jobs_setCall]
    omega
  | wakeNone t c hc hpc hw =>
    have h1 := due_setCall cfg s hc none
    simp only [callDue, Option.elim, hpc, EnqueuePc.due] at h1
    rw [jobs_setCall]
    omega
  | revert t c hc hpc hv =>
    have h1 := due_setCall cfg s hc none
    simp only [callDue, Option.elim, hpc, EnqueuePc.due] at h1
    show s.jobsInQueue.val - 1 = due cfg (s.setCall t _)
    omega
  | revertPanics t c m hc hpc hm hp hwhy =>
    have h1 := due_setCall cfg s hc (some { c with pc := .panicked true })
    simp only [callDue, Option.elim, hpc, EnqueuePc.due] at h1
    show m.val = due cfg (s.setCall t _)
    omega
  | pick w i hw hi hf =>
    have h1 := due_setSlot cfg s hi ((s.slots i).setFlags inProgressBit)
    rw [idleMark_of_eq hf, idleMark_of_ne (by rw [QueueSlot.flags_setFlags]; decide)] at h1
    have h2 := due_setPc cfg (s.setSlot i ((s.slots i).setFlags inProgressBit)) hw (.picked i)
    simp only [WorkerPc.due] at h2
    rw [jobs_setPc, jobs_setSlot]
    omega
  | run w b hw hv =>
    have h1 := due_setPc cfg s hw (.running b)
    simp only [WorkerPc.due] at h1
    show s.jobsInQueue.val - 1 = due cfg (s.setPc w _)
    omega
  | runPanics w b m hw hm hp hwhy => exact hm.trans h
  | clear w b i hw =>
    have h1 := due_setSlot_same cfg s (b := b) (q := (s.slots b).clearJob i) rfl
    have h2 := due_setPc cfg (s.setSlot b ((s.slots b).clearJob i)) hw (.running b)
    simp only [WorkerPc.due] at h2
    rw [jobs_setPc, jobs_setSlot]
    omega
  | goAgain w b k hw hf =>
    have h1 := due_setSlot_same cfg s (b := b) (q := ((s.slots b).setFlags inProgressBit))
      (by
        rw [idleMark_of_ne (by rw [QueueSlot.flags_setFlags]; decide),
          idleMark_of_ne (by rw [hf]; decide)])
    have h2 := due_setPc cfg (s.setSlot b ((s.slots b).setFlags inProgressBit)) hw (.running b)
    simp only [WorkerPc.due] at h2
    rw [jobs_setPc, jobs_setSlot]
    omega
  | release w b k hw hf =>
    have h1 := due_setSlot_same cfg s (b := b) (q := ((s.slots b).setFlags 0))
      (by
        rw [idleMark_of_ne (by rw [QueueSlot.flags_setFlags]; decide),
          idleMark_of_ne (by rw [hf]; decide)])
    have h2 := due_setPc cfg (s.setSlot b ((s.slots b).setFlags 0)) hw .waitJobs
    simp only [WorkerPc.due] at h2
    rw [jobs_setPc, jobs_setSlot]
    omega
  | spurious w hw => exact due_move hw rfl h
  | block w hw hv => exact due_move hw rfl h
  | wait w hw hv => exact due_move hw rfl h
  | skip w i hw hi hf => exact due_move hw rfl h
  | scanned w i hw hi => exact due_move hw rfl h
  | load w b hw hj => exact due_move hw rfl h
  | loadNone w b hw hj => exact due_move hw rfl h
  | finish w b hw => exact due_move hw rfl h
  | tryRelease w b k hw hf => exact due_move hw rfl h
  | retry w b k hw hf hk => exact due_move hw rfl h
  | waitPoisoned w hw hp => exact h
  | notInProgress w b k hw hf hf' => exact h
  | unreachable w b k hw hf hk => exact h
  | die w => exact h

/-! ## the counter of a reachable state -/

theorem due_of_reachable {cfg : Cfg} {s : Queue W T} (h : (machine cfg).Reachable s) :
    s.jobsInQueue.val = due cfg s := by
  refine h.invariant (I := fun s => s.jobsInQueue.val = due cfg s) (due_init cfg).symm ?_
  intro s a s' hr hi _ he
  exact due_step (owned_of_reachable hr) (named_of_reachable hr) hi (.of_step he)

/-- A call that is about to revert keeps the counter above zero. -/
theorem due_pos_of_revert (cfg : Cfg) {s : Queue W T} {t : Thread W T} {c : Enqueue}
    (hc : s.calls t = some c) (hpc : c.pc = .revert) : 0 < due cfg s := by
  have h : callDue (s.calls t) ≤ s.callsDue := le_tally callDue s.calls (Finset.mem_univ t)
  simp only [hc, callDue, Option.elim, hpc, EnqueuePc.due] at h
  unfold due callsDue at *
  omega

/-- So does a worker that has picked a slot. -/
theorem due_pos_of_picked (cfg : Cfg) {s : Queue W T} {w : W} {b : ℕ}
    (hw : s.pc w = .picked b) : 0 < due cfg s := by
  have h : (s.pc w).due ≤ s.workersDue := le_tally WorkerPc.due s.pc (Finset.mem_univ w)
  simp only [hw, WorkerPc.due] at h
  unfold due workersDue at *
  omega

/-- Nothing is due when no slot is enqueued only, no call is in progress and no worker is between
`try_process` and its decrement. -/
theorem due_eq_zero {cfg : Cfg} {s : Queue W T}
    (hf : ∀ b < cfg.bucketCount, (s.slots b).flags ≠ enqueuedBit) (hc : ∀ t, s.calls t = none)
    (hp : ∀ w b, s.pc w ≠ .picked b) : due cfg s = 0 := by
  have h1 : s.enqueuedOnly cfg = 0 :=
    tally_eq_zero.mpr (fun b hb => idleMark_of_ne (hf b (Finset.mem_range.mp hb)))
  have h2 : s.callsDue = 0 := tally_eq_zero.mpr (fun t _ => by rw [hc t]; rfl)
  have h3 : s.workersDue = 0 := tally_eq_zero.mpr (fun w _ => by
    cases hw : s.pc w with
    | picked b => exact absurd hw (hp w b)
    | _ => rfl)
  unfold due
  omega

/-- **The counter is exact** in every reachable state, so `decrement_active` is never called on
zero, and the counter is zero when nothing is pending. -/
theorem counter_exact (cfg : Cfg) (s : Queue W T) (h : (machine cfg).Reachable s) :
    s.jobsInQueue.val = s.enqueuedOnly cfg + s.callsDue + s.workersDue ∧
    (∀ t c, s.calls t = some c → c.pc = .revert → s.jobsInQueue.val ≠ 0) ∧
    (∀ w b, s.pc w = .picked b → s.jobsInQueue.val ≠ 0) ∧
    ((∀ b < cfg.bucketCount, (s.slots b).flags ≠ enqueuedBit) → (∀ t, s.calls t = none) →
      (∀ w b, s.pc w ≠ .picked b) → s.jobsInQueue.val = 0) := by
  have hd := due_of_reachable h
  refine ⟨hd, fun t c hc hpc => ?_, fun w b hw => ?_, fun hf hc hp => ?_⟩
  · have := due_pos_of_revert cfg hc hpc
    omega
  · have := due_pos_of_picked cfg hw
    omega
  · rw [hd, due_eq_zero hf hc hp]

/-- The first bucket is enqueued, a second call has incremented and not marked: the counter is 2. -/
theorem counter_exact_two : ((machine (W := Fin 1) (T := Fin 1) cfgOne).final
    [.start .accept ⟨0, 0⟩, .call .accept none, .call .accept none, .call .accept none,
      .start (.other 0) ⟨0, 2⟩, .call (.other 0) none, .call (.other 0) none]).jobsInQueue.val = 2 := by
  rw [(counter_exact cfgOne _ (Machine.reachable_final _ _)).1]
  decide

end Queue
end Nea
