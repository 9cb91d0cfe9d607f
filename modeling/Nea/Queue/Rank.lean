import Nea.Lib.Progress
import Nea.Queue.Decide
import Nea.Queue.Handover
import Nea.Queue.Sleep
import Mathlib.Algebra.BigOperators.Ring.Finset

/-!
# How much work is left in the queue

A call of `initial_enqueue` adds a bit and a mark, a mark makes a worker take the slot, a bit makes
it dequeue once more.  `Queue.rank` weighs what is there so that every step pays for what it adds:

* `QAct.onward`       the steps of threads that are in the queue already: no call starts, nobody
                      wakes up by himself, nobody dies;
* `turns`             the step is not one of a worker that looks for a slot and finds none;
* `rank`              what the calls, the slots and the workers have before them;
* `pays_of_onward`    in these steps nothing panics, every turn lowers the rank and no other step
                      raises it;
* `turns_le`          so the turns of a run are bounded by what was there when it began.
-/

set_option linter.unusedSectionVars false

namespace Nea

/-! ## the weights -/

namespace QueueSlot

/-- the number of jobs set -/
def pending (q : QueueSlot) : ℕ := tally Bool.toNat (Finset.range 64) q.hasJob

def rank (q : QueueSlot) : ℕ := 2 * q.pending + 7 * q.isEnqueued.toNat

variable {q : QueueSlot} {i : ℕ}

theorem pending_le (q : QueueSlot) : q.pending ≤ 64 := by
  have h := tally_le (w := Bool.toNat) (s := Finset.range 64) (f := q.hasJob) (n := 1)
    (fun i _ => Bool.toNat_le _)
  rw [Finset.card_range] at h
  exact h

theorem rank_le (q : QueueSlot) : q.rank ≤ 135 := by
  have h1 := q.pending_le
  have h2 := q.isEnqueued.toNat_le
  unfold rank
  omega

theorem pending_setJob (hi : i < 64) (hj : q.hasJob i = false) :
    (q.setJob i).2.pending = q.pending + 1 := by
  have hf : (q.setJob i).2.hasJob = Function.update q.hasJob i true := by
    funext j
    rw [hasJob_setJob q hi, Function.update_apply]
    by_cases e : j = i <;> simp [e]
  have h := tally_update Bool.toNat q.hasJob (Finset.mem_range.mpr hi) true
  rw [hj, Bool.toNat_false, Bool.toNat_true] at h
  unfold pending
  rw [hf]
  omega

theorem pending_setJob_old (hi : i < 64) (hj : q.hasJob i = true) :
    (q.setJob i).2.pending = q.pending := by
  refine tally_congr (fun j _ => ?_)
  rw [hasJob_setJob q hi]
  by_cases e : j = i <;> simp [e, hj]

theorem pending_clearJob (hi : i < 64) (hj : q.hasJob i = true) :
    (q.clearJob i).pending + 1 = q.pending := by
  have hf : (q.clearJob i).hasJob = Function.update q.hasJob i false := by
    funext j
    rw [hasJob_clearJob, Function.update_apply]
    by_cases e : j = i <;> simp [e]
  have h := tally_update Bool.toNat q.hasJob (Finset.mem_range.mpr hi) false
  rw [hj, Bool.toNat_false, Bool.toNat_true] at h
  unfold pending
  rw [hf]
  omega

theorem rank_setJob (hi : i < 64) (hj : q.hasJob i = false) :
    (q.setJob i).2.rank = q.rank + 2 := by
  show 2 * (q.setJob i).2.pending + 7 * q.isEnqueued.toNat = _
  rw [pending_setJob hi hj]
  unfold rank
  omega

theorem rank_setJob_old (hi : i < 64) (hj : q.hasJob i = true) : (q.setJob i).2.rank = q.rank := by
  show 2 * (q.setJob i).2.pending + 7 * q.isEnqueued.toNat = _
  rw [pending_setJob_old hi hj]
  rfl

theorem rank_clearJob (hi : i < 64) (hj : q.hasJob i = true) :
    (q.clearJob i).rank + 2 = q.rank := by
  show 2 * (q.clearJob i).pending + 7 * q.isEnqueued.toNat + 2 = 2 * q.pending + _
  rw [← pending_clearJob hi hj]
  omega

/-- A mark costs seven, if it is new. -/
theorem rank_markEnqueued_le (q : QueueSlot) : q.markEnqueued.2.rank ≤ q.rank + 7 := by
  have h1 : q.markEnqueued.2.isEnqueued.toNat ≤ 1 := Bool.toNat_le _
  show 2 * q.pending + 7 * q.markEnqueued.2.isEnqueued.toNat ≤ _
  unfold rank
  omega

/-- A worker that consumes the mark gets it back. -/
theorem rank_consume (he : q.isEnqueued = true) :
    (q.setFlags inProgressBit).rank + 7 = q.rank := by
  have h1 : (q.setFlags inProgressBit).isEnqueued = false := by
    show (inProgressBit &&& enqueuedBit != 0) = false
    decide
  show 2 * q.pending + 7 * (q.setFlags inProgressBit).isEnqueued.toNat + 7 = _
  unfold rank
  rw [h1, he, Bool.toNat_false, Bool.toNat_true]

end QueueSlot

def EnqueuePc.rank : EnqueuePc → ℕ
  | .setJob => 14
  | .increment => 11
  | .mark => 10
  | .wakeOne => 2
  | .revert => 1
  | .panicked _ => 0

theorem EnqueuePc.rank_le (p : EnqueuePc) : p.rank ≤ 14 := by
  unfold rank
  split <;> omega

def callRank (o : Option Enqueue) : ℕ := o.elim 0 (fun c => c.pc.rank)

/-- a worker that looks for a slot has 1 before it, wherever it looks -/
def WorkerPc.rank : WorkerPc → ℕ
  | .blocked => 0
  | .waitJobs => 1
  | .scan _ => 1
  | .picked _ => 7
  | .running _ => 6
  | .dequeued _ _ => 5
  | .done _ 0 false => 5
  | .done _ 0 true => 4
  | .done _ _ false => 3
  | .done _ _ true => 2

theorem WorkerPc.rank_le (p : WorkerPc) : p.rank ≤ 7 := by
  unfold rank
  split <;> omega

/-! ## the rank -/

/-- a step of a thread that is in the queue already: no call starts, nobody wakes up by himself and
nobody dies -/
def QAct.onward {W T : Type} : QAct W T → Bool
  | .call _ _ => true
  | .work _ => true
  | .load _ => true
  | .finish _ => true
  | _ => false

namespace Queue
variable {W T : Type} [DecidableEq W] [DecidableEq T] [Fintype W] [Fintype T]

/-- the step is not one of a worker that looks for a slot and finds none -/
def turns (cfg : Cfg) (s : Queue W T) : QAct W T → Bool
  | .work w =>
    match s.pc w with
    | .waitJobs => s.jobsInQueue.val == 0
    | .scan i => decide (i < cfg.bucketCount ∧ (s.slots i).flags = enqueuedBit)
    | _ => true
  | _ => true

def rank (cfg : Cfg) (s : Queue W T) : ℕ :=
  tally callRank Finset.univ s.calls
    + tally QueueSlot.rank (Finset.range cfg.bucketCount) s.slots
    + tally WorkerPc.rank Finset.univ s.pc

/-- the number of calls in progress -/
def callCount (s : Queue W T) : ℕ := tally (fun o => o.isSome.toNat) Finset.univ s.calls

section
variable (cfg : Cfg) (s : Queue W T)

theorem rank_setCall {t : Thread W T} {o : Option Enqueue} (ho : s.calls t = o)
    (o' : Option Enqueue) :
    rank cfg (s.setCall t o') + callRank o = rank cfg s + callRank o' := by
  have h := tally_update callRank s.calls (Finset.mem_univ t) o'
  rw [ho] at h
  show tally callRank Finset.univ (Function.update s.calls t o') + tally QueueSlot.rank _ s.slots
    + tally WorkerPc.rank _ s.pc + _ = tally callRank Finset.univ s.calls
    + tally QueueSlot.rank _ s.slots + tally WorkerPc.rank _ s.pc + _
  omega

theorem rank_setPc {w : W} {p : WorkerPc} (hp : s.pc w = p) (p' : WorkerPc) :
    rank cfg (s.setPc w p') + p.rank = rank cfg s + p'.rank := by
  have h := tally_update WorkerPc.rank s.pc (Finset.mem_univ w) p'
  rw [hp] at h
  show tally callRank _ s.calls + tally QueueSlot.rank _ s.slots
    + tally WorkerPc.rank Finset.univ (Function.update s.pc w p') + _ = tally callRank _ s.calls
    + tally QueueSlot.rank _ s.slots + tally WorkerPc.rank Finset.univ s.pc + _
  omega

theorem rank_setSlot {b : ℕ} (hb : b < cfg.bucketCount) (q : QueueSlot) :
    rank cfg (s.setSlot b q) + (s.slots b).rank = rank cfg s + q.rank := by
  have h := tally_update QueueSlot.rank s.slots (Finset.mem_range.mpr hb) q
  show tally callRank _ s.calls + tally QueueSlot.rank _ (Function.update s.slots b q)
    + tally WorkerPc.rank _ s.pc + _ = tally callRank _ s.calls
    + tally QueueSlot.rank _ s.slots + tally WorkerPc.rank _ s.pc + _
  omega

/-- A call in progress has at most 14 before it, a bucket at most 64 bits and a mark, a worker at
most 7. -/
theorem rank_le : rank cfg s ≤ 14 * s.callCount + 135 * cfg.bucketCount + 7 * Fintype.card W := by
  have h1 : tally callRank Finset.univ s.calls ≤ 14 * s.callCount := by
    unfold callCount tally
    rw [Finset.mul_sum]
    refine Finset.sum_le_sum (fun t _ => ?_)
    cases s.calls t with
    | none => exact Nat.zero_le _
    | some c => exact c.pc.rank_le
  have h2 := tally_le (w := QueueSlot.rank) (s := Finset.range cfg.bucketCount) (f := s.slots)
    (fun b _ => (s.slots b).rank_le)
  have h3 := tally_le (w := WorkerPc.rank) (s := Finset.univ) (f := s.pc)
    (fun w _ => (s.pc w).rank_le)
  rw [Finset.card_range] at h2
  rw [Finset.card_univ] at h3
  unfold rank
  omega

end

/-! ## nothing panics -/

/-- the counter has room for all slots, calls and workers -/
def Room (cfg : Cfg) (W T : Type) [Fintype W] [Fintype T] : Prop :=
  cfg.bucketCount + Fintype.card (Thread W T) + Fintype.card W + 1 < 2^32

instance (cfg : Cfg) : Decidable (Room cfg W T) := Nat.decLt _ _

section
variable {cfg : Cfg} {s s' : Queue W T}

/-- A call panics on the counter, and poisons it or has found it poisoned. -/
theorem poisoned_of_panicked (h : (machine cfg).Reachable s) {t : Thread W T} {c : Enqueue}
    {k : Bool} (hc : s.calls t = some c) (hpc : c.pc = .panicked k) :
    s.jobsInQueue.poisoned = true := by
  refine h.invariant (I := fun s => ∀ t c k, s.calls t = some c → c.pc = .panicked k →
    s.jobsInQueue.poisoned = true) (fun _ _ _ h => by cases h) ?_ t c k hc hpc
  intro s a s' _ hi _ he
  have hset : ∀ (t1 : Thread W T) (o : Option Enqueue),
      s'.calls = Function.update s.calls t1 o →
      (s.jobsInQueue.poisoned = true → s'.jobsInQueue.poisoned = true) →
      (∀ c k, o = some c → c.pc = .panicked k → s'.jobsInQueue.poisoned = true) →
      ∀ t c k, s'.calls t = some c → c.pc = .panicked k → s'.jobsInQueue.poisoned = true := by
    intro t1 o hs hkeep ho t c k hc hpc
    rw [hs] at hc
    by_cases e : t = t1
    · rw [e, Function.update_self] at hc
      exact ho c k hc hpc
    · rw [Function.update_of_ne e] at hc
      exact hkeep (hi t c k hc hpc)
  have hgone : ∀ c k, (none : Option Enqueue) = some c → c.pc = .panicked k →
      s'.jobsInQueue.poisoned = true := fun c k h => by cases h
  have hgoes : ∀ (c1 : Enqueue) (p : EnqueuePc), (∀ k, p ≠ .panicked k) → ∀ c k,
      some { c1 with pc := p } = some c → c.pc = .panicked k →
      s'.jobsInQueue.poisoned = true := by
    intro c1 p hp c k h hpc
    cases h
    exact absurd hpc (hp k)
  cases QStep.of_step he with
  | start t1 q c1 h0 hc1 =>
    refine hset t1 _ rfl id (fun c k h hpc => ?_)
    cases h
    rw [(initialEnqueue_eq_some.mp hc1).2.1] at hpc
    cases hpc
  | setOld t1 c1 hc1 => exact hset t1 none rfl id hgone
  | setNew t1 c1 hc1 => exact hset t1 _ rfl id (hgoes c1 .increment (fun _ e => by cases e))
  | increment t1 c1 hc1 => exact hset t1 _ rfl id (hgoes c1 .mark (fun _ e => by cases e))
  | incrementPanics t1 c1 m hc1 h1 hm hp => exact hset t1 _ rfl (fun _ => hp) (fun _ _ _ _ => hp)
  | markIdle t1 c1 hc1 => exact hset t1 _ rfl id (hgoes c1 .wakeOne (fun _ e => by cases e))
  | markBusy t1 c1 hc1 => exact hset t1 _ rfl id (hgoes c1 .revert (fun _ e => by cases e))
  | wakeOne t1 c1 w hc1 => exact hset t1 none rfl id hgone
  | wakeNone t1 c1 hc1 => exact hset t1 none rfl id hgone
  | revert t1 c1 hc1 => exact hset t1 none rfl id hgone
  | revertPanics t1 c1 m hc1 h1 hm hp => exact hset t1 _ rfl (fun _ => hp) (fun _ _ _ _ => hp)
  | runPanics w b m hw hm hp => exact fun _ _ _ _ _ => hp
  | run w b hw => exact fun t c k hc hpc => hi t c k hc hpc
  | _ => exact hi

/-- The counter stays within its due. -/
theorem val_le (h : (machine cfg).Reachable s) :
    s.jobsInQueue.val ≤ cfg.bucketCount + Fintype.card (Thread W T) + Fintype.card W := by
  have h1 := tally_le (w := QueueSlot.idleMark) (s := Finset.range cfg.bucketCount) (f := s.slots)
    (n := 1) (fun b _ => by unfold QueueSlot.idleMark; split <;> omega)
  have h2 := tally_le (w := callDue) (s := Finset.univ) (f := s.calls) (n := 1) (fun t _ => by
    cases s.calls t with
    | none => exact Nat.zero_le _
    | some c =>
      show c.pc.due ≤ 1
      unfold EnqueuePc.due
      split <;> omega)
  have h3 := tally_le (w := WorkerPc.due) (s := Finset.univ) (f := s.pc) (n := 1) (fun w _ => by
    unfold WorkerPc.due
    split <;> omega)
  rw [Finset.card_range] at h1
  rw [Finset.card_univ] at h2 h3
  rw [due_of_reachable h]
  unfold due enqueuedOnly callsDue workersDue
  omega

omit [Fintype T] in
/-- What `dequeue` has chosen is set. -/
theorem chosen_of_reachable (h : (machine cfg).Reachable s) {w : W} {b i : ℕ}
    (hw : s.pc w = .dequeued b i) : (s.slots b).hasJob i = true := by
  obtain ⟨x, hx⟩ := h.watch ⟨fun _ _ => 0, fun _ _ => 0⟩ hand
  have hi : Exact s x := by
    refine hx.invariant (I := fun y => Exact y.1 y.2) exact_init ?_
    intro y a y' hry hiy _ he
    obtain ⟨h1, h2⟩ := Machine.watch_step.mp he
    have hy := Machine.reachable_of_watch hry
    rw [h2]
    exact hiy.step (named_of_reachable hy) (owned_of_reachable hy) h1
  exact hi.chosen w b i hw

/-! ## every step pays -/

/-- nobody panics in the step, and it costs `n` -/
structure Pays (cfg : Cfg) (s s' : Queue W T) (n : ℕ) : Prop where
  poisoned : s'.jobsInQueue.poisoned = s.jobsInQueue.poisoned
  alive : s'.alive = s.alive
  rank : rank cfg s' + n ≤ rank cfg s

theorem incrementActive_of_lt {m : Mutex ℕ} (hp : m.poisoned = false) (hv : m.val + 1 < 2^32) :
    incrementActive m = .ok (m.set (m.val + 1)) := by
  rw [incrementActive, if_neg (by rw [hp]; decide), if_pos hv]

theorem decrementActive_of_pos {m : Mutex ℕ} (hp : m.poisoned = false) (hv : 0 < m.val) :
    decrementActive m = .ok (m.set (m.val - 1)) := by
  rw [decrementActive, if_neg (by rw [hp]; decide), if_neg (by omega)]

/-- The next step of a call. -/
theorem pays_call (hroom : Room cfg W T) (h : (machine cfg).Reachable s)
    (hp : s.jobsInQueue.poisoned = false) {t : Thread W T} {waiter : Option W} {c : Enqueue}
    (hc : s.calls t = some c) (he : s.callStep t waiter c = some s') : Pays cfg s s' 1 := by
  obtain ⟨hb, hi⟩ : c.bucket < cfg.bucketCount ∧ c.offset < 64 :=
    ⟨((named_of_reachable h).calls t c hc).bucket_lt,
      ((named_of_reachable h).calls t c hc).offset_lt⟩
  cases hpc : c.pc with
  | setJob =>
    simp only [callStep, hpc] at he
    cases he
    refine ⟨rfl, rfl, ?_⟩
    have h1 := rank_setSlot cfg s hb ((s.slots c.bucket).setJob c.offset).2
    cases hj : (s.slots c.bucket).hasJob c.offset with
    | true =>
      have h2 := rank_setCall cfg (s.setSlot c.bucket ((s.slots c.bucket).setJob c.offset).2) hc
        none
      rw [QueueSlot.rank_setJob_old hi hj] at h1
      simp only [callRank, Option.elim, hpc, EnqueuePc.rank] at h2
      simp only [QueueSlot.setJob, hj, if_true] at h1 h2 ⊢
      omega
    | false =>
      have h2 := rank_setCall cfg (s.setSlot c.bucket ((s.slots c.bucket).setJob c.offset).2) hc
        (some { c with pc := .increment })
      rw [QueueSlot.rank_setJob hi hj] at h1
      simp only [callRank, Option.elim, hpc, EnqueuePc.rank] at h2
      simp only [QueueSlot.setJob, hj] at h1 h2 ⊢
      simp only [Bool.false_eq_true, if_false]
      omega
  | increment =>
    have hv := val_le h
    unfold Room at hroom
    simp only [callStep, hpc, incrementActive_of_lt hp (by omega)] at he
    cases he
    have h1 := rank_setCall cfg s hc (some { c with pc := .mark })
    simp only [callRank, Option.elim, hpc, EnqueuePc.rank] at h1
    refine ⟨rfl, rfl, ?_⟩
    show rank cfg (s.setCall t _) + 1 ≤ _
    omega
  | mark =>
    simp only [callStep, hpc] at he
    cases he
    refine ⟨rfl, rfl, ?_⟩
    have h1 := rank_setSlot cfg s hb (s.slots c.bucket).markEnqueued.2
    have h2 := (s.slots c.bucket).rank_markEnqueued_le
    have h3 := fun p => rank_setCall cfg (s.setSlot c.bucket (s.slots c.bucket).markEnqueued.2) hc
      (some { c with pc := p })
    simp only [callRank, Option.elim, hpc, EnqueuePc.rank] at h3
    split
    · have := h3 .wakeOne
      simp only at this
      omega
    · have := h3 .revert
      simp only at this
      omega
  | wakeOne =>
    have h1 := rank_setCall cfg s hc none
    simp only [callRank, Option.elim, hpc, EnqueuePc.rank] at h1
    simp only [callStep, hpc] at he
    cases waiter with
    | some w =>
      simp only at he
      split at he <;> cases he
      next hw =>
        have h2 := rank_setPc cfg (s.setCall t none) hw .waitJobs
        simp only [WorkerPc.rank] at h2
        refine ⟨rfl, rfl, ?_⟩
        omega
    | none =>
      simp only at he
      split at he <;> cases he
      refine ⟨rfl, rfl, ?_⟩
      omega
  | revert =>
    have hpos := due_pos_of_revert cfg hc hpc
    rw [← due_of_reachable h] at hpos
    simp only [callStep, hpc, decrementActive_of_pos hp hpos] at he
    cases he
    have h1 := rank_setCall cfg s hc none
    simp only [callRank, Option.elim, hpc, EnqueuePc.rank] at h1
    refine ⟨rfl, rfl, ?_⟩
    show rank cfg (s.setCall t none) + 1 ≤ _
    omega
  | panicked k =>
    simp only [callStep, hpc] at he
    cases he

/-- A worker moves on and leaves the rest alone. -/
theorem pays_setPc {w : W} {p p' : WorkerPc} (hw : s.pc w = p) {n : ℕ} (hn : p'.rank + n ≤ p.rank) :
    Pays cfg s (s.setPc w p') n := by
  have h1 := rank_setPc cfg s hw p'
  refine ⟨rfl, rfl, ?_⟩
  omega

theorem WorkerPc.three_le_rank (b k : ℕ) : 3 ≤ (WorkerPc.done b k false).rank := by
  unfold WorkerPc.rank
  split <;> simp_all

/-- The owner consumes a mark. -/
theorem pays_goAgain (h : (machine cfg).Reachable s) {w : W} {b k : ℕ}
    (hw : s.pc w = .done b k false) (hf : (s.slots b).flags = enqueuedBit ||| inProgressBit) :
    Pays cfg s ((s.setSlot b ((s.slots b).setFlags inProgressBit)).setPc w (.running b)) 1 := by
  have hb : b < cfg.bucketCount := lt_of_flags h (by rw [hf]; decide)
  have hen : (s.slots b).isEnqueued = true :=
    (QueueSlot.isEnqueued_iff ((owned_of_reachable h).flags b)).mpr (.inr hf)
  have h1 := rank_setSlot cfg s hb ((s.slots b).setFlags inProgressBit)
  have h2 := QueueSlot.rank_consume hen
  have h3 := rank_setPc cfg (s.setSlot b ((s.slots b).setFlags inProgressBit)) hw (.running b)
  have h4 : (WorkerPc.running b).rank = 6 := rfl
  have h5 := WorkerPc.three_le_rank b k
  refine ⟨rfl, rfl, ?_⟩
  omega

/-- The owner clears the flags. -/
theorem pays_release (h : (machine cfg).Reachable s) {w : W} {b : ℕ}
    (hw : s.pc w = .done b 0 true) (hf : (s.slots b).flags = inProgressBit) :
    Pays cfg s ((s.setSlot b ((s.slots b).setFlags 0)).setPc w .waitJobs) 1 := by
  have hb : b < cfg.bucketCount := lt_of_flags h (by rw [hf]; decide)
  have hslot : ((s.slots b).setFlags 0).rank = (s.slots b).rank := by
    show 2 * (s.slots b).pending + 7 * (0 &&& enqueuedBit != 0).toNat =
      2 * (s.slots b).pending + 7 * ((s.slots b).flags &&& enqueuedBit != 0).toNat
    rw [hf]
    rfl
  have h1 := rank_setSlot cfg s hb ((s.slots b).setFlags 0)
  have h3 := rank_setPc cfg (s.setSlot b ((s.slots b).setFlags 0)) hw .waitJobs
  simp only [WorkerPc.rank] at h3
  refine ⟨rfl, rfl, ?_⟩
  omega

/-- The next step of a worker in the queue's own functions. -/
theorem pays_work (h : (machine cfg).Reachable s) (hp : s.jobsInQueue.poisoned = false) {w : W}
    (he : workStep cfg s w = some s') : Pays cfg s s' (turns cfg s (.work w)).toNat := by
  have ho := owned_of_reachable h
  cases hw : s.pc w with
  | waitJobs =>
    simp only [workStep, hw, hp, Bool.false_eq_true, if_false] at he
    split at he
    · next hv =>
      cases he
      exact pays_setPc hw (by simp [turns, hw, hv, WorkerPc.rank])
    · next hv =>
      cases he
      exact pays_setPc hw (by simp [turns, hw, hv, WorkerPc.rank])
  | blocked =>
    simp only [workStep, hw] at he
    cases he
  | scan i =>
    simp only [workStep, hw] at he
    split at he
    · next hi =>
      split at he
      · -- the slot is taken
        next q hq =>
        cases he
        obtain ⟨hf, rfl⟩ := QueueSlot.tryProcess_eq_some.mp hq
        have hen : (s.slots i).isEnqueued = true :=
          (QueueSlot.isEnqueued_iff (ho.flags i)).mpr (.inl hf)
        have h1 := rank_setSlot cfg s hi ((s.slots i).setFlags inProgressBit)
        have h2 := QueueSlot.rank_consume hen
        have h3 := rank_setPc cfg (s.setSlot i ((s.slots i).setFlags inProgressBit)) hw (.picked i)
        have h4 : (turns cfg s (.work w)).toNat ≤ 1 := Bool.toNat_le _
        simp only [WorkerPc.rank] at h3
        refine ⟨rfl, rfl, ?_⟩
        omega
      · next hq =>
        cases he
        have hf : (s.slots i).flags ≠ enqueuedBit :=
          fun hf => by simp [QueueSlot.tryProcess, hf] at hq
        exact pays_setPc hw (by simp [turns, hw, hf, WorkerPc.rank])
    · next hi =>
      cases he
      exact pays_setPc hw (by simp [turns, hw, hi, WorkerPc.rank])
  | picked b =>
    have hpos := due_pos_of_picked cfg hw
    rw [← due_of_reachable h] at hpos
    simp only [workStep, hw, decrementActive_of_pos hp hpos] at he
    cases he
    have h1 := rank_setPc cfg s hw (.running b)
    have h4 : (turns cfg s (.work w)).toNat ≤ 1 := Bool.toNat_le _
    simp only [WorkerPc.rank] at h1
    refine ⟨rfl, rfl, ?_⟩
    show rank cfg (s.setPc w (.running b)) + _ ≤ _
    omega
  | running b =>
    simp only [workStep, hw] at he
    cases he
  | dequeued b i =>
    simp only [workStep, hw] at he
    cases he
    have hjob := (named_of_reachable h).chosen w b i hw
    have h1 := rank_setSlot cfg s hjob.bucket_lt ((s.slots b).clearJob i)
    have h2 := QueueSlot.rank_clearJob hjob.offset_lt (chosen_of_reachable h hw)
    have h3 := rank_setPc cfg (s.setSlot b ((s.slots b).clearJob i)) hw (.running b)
    have h4 : (turns cfg s (.work w)).toNat ≤ 1 := Bool.toNat_le _
    simp only [WorkerPc.rank] at h3
    refine ⟨rfl, rfl, ?_⟩
    omega
  | done b k second =>
    have hn : (turns cfg s (.work w)).toNat = 1 := by simp [turns, hw]
    have hflags := ho.done_flags (w := w) (b := b) (by rw [Owns, hw]; rfl)
    rw [hn]
    cases second with
    | false =>
      simp only [workStep, hw] at he
      split at he
      · next q hq =>
        cases he
        obtain ⟨hf, rfl⟩ := QueueSlot.goAgain_eq_some.mp hq
        exact pays_goAgain h hw hf
      · next hq =>
        have hf : (s.slots b).flags = inProgressBit :=
          hflags.resolve_right (fun hf => by simp [QueueSlot.goAgain, hf] at hq)
        rw [if_pos hf] at he
        cases he
        obtain rfl : k = 0 := by
          rcases patient_of_reachable h w b k false hw with h0 | ⟨-, -, h1⟩
          · exact h0
          · rw [hf] at h1
            exact absurd h1 (by decide)
        exact pays_setPc hw (by simp [WorkerPc.rank])
    | true =>
      obtain rfl : k = 0 :=
        (patient_of_reachable h w b k true hw).resolve_right (fun h => by cases h.2.1)
      simp only [workStep, hw] at he
      split at he
      · next q hq =>
        cases he
        obtain ⟨hf, rfl⟩ := QueueSlot.release_eq_some.mp hq
        exact pays_release h hw hf
      · rw [if_pos (by decide)] at he
        cases he
        exact pays_setPc hw (by simp [WorkerPc.rank])

/-- **Every step onward pays**: nothing panics, a turn lowers the rank and no other step raises
it. -/
theorem pays_of_onward (hroom : Room cfg W T) (h : (machine cfg).Reachable s)
    (hp : s.jobsInQueue.poisoned = false) {a : QAct W T} (ha : a.onward = true)
    (he : step cfg s a = some s') : Pays cfg s s' (turns cfg s a).toNat := by
  cases a with
  | start t q => cases ha
  | call t waiter =>
    obtain ⟨c, hc, he⟩ := Option.bind_eq_some_iff.mp he
    exact pays_call hroom h hp hc he
  | spurious w => cases ha
  | work w =>
    simp only [step] at he
    split at he
    · exact pays_work h hp he
    · cases he
  | load w =>
    simp only [step] at he
    split at he
    · unfold loadStep at he
      split at he
      · next b hw =>
        split at he
        · cases he
          exact pays_setPc hw (by simp [turns, WorkerPc.rank])
        · cases he
          exact pays_setPc hw (by simp [turns, WorkerPc.rank])
      · cases he
    · cases he
  | finish w =>
    simp only [step] at he
    split at he
    · next b hw =>
      cases he
      exact pays_setPc hw (by simp [turns, WorkerPc.rank])
    · cases he
  | die w => cases ha

/-- **A bounded number of turns**: once no call starts, nobody wakes up by himself and nobody dies,
a run takes at most 14 steps for each call in progress, 135 for each bucket and 7 for each worker,
other than those of workers that look for a slot and find none.  Nothing panics on the way: the
counter is not poisoned, no call has panicked and no worker is killed. -/
theorem turns_le (cfg : Cfg) (s s' : Queue W T) (h : (machine cfg).Reachable s)
    (hp : s.jobsInQueue.poisoned = false) (hroom : Room cfg W T) (l : List (QAct W T))
    (hl : ∀ a ∈ l, a.onward = true) (hr : (machine cfg).run s l = some s') :
    (machine cfg).spent (turns cfg) s l
      ≤ 14 * s.callCount + 135 * cfg.bucketCount + 7 * Fintype.card W ∧
    s'.jobsInQueue.poisoned = false ∧
    (∀ t c k, s'.calls t = some c → c.pc ≠ .panicked k) ∧ s'.alive = s.alive := by
  have hkeep : ∀ (s1 : Queue W T) (a : QAct W T) (s2 : Queue W T),
      ((machine cfg).Reachable s1 ∧ s1.jobsInQueue.poisoned = false ∧ s1.alive = s.alive) →
      a.onward = true → (machine cfg).step s1 a = some s2 →
      (machine cfg).Reachable s2 ∧ s2.jobsInQueue.poisoned = false ∧ s2.alive = s.alive := by
    intro s1 a s2 ⟨h1, hp1, hlive1⟩ ha he
    have hpays := pays_of_onward hroom h1 hp1 ha he
    exact ⟨h1.step trivial he, hpays.poisoned.trans hp1, hpays.alive.trans hlive1⟩
  have hrank : ∀ (s1 : Queue W T) (a : QAct W T) (s2 : Queue W T),
      ((machine cfg).Reachable s1 ∧ s1.jobsInQueue.poisoned = false ∧ s1.alive = s.alive) →
      a.onward = true → (machine cfg).step s1 a = some s2 →
      rank cfg s2 + (turns cfg s1 a).toNat ≤ rank cfg s1 := by
    intro s1 a s2 ⟨h1, hp1, _⟩ ha he
    exact (pays_of_onward hroom h1 hp1 ha he).rank
  have hspent := Machine.spent_le hkeep hrank ⟨h, hp, rfl⟩ hl hr
  obtain ⟨h', hp', hlive⟩ := Machine.run_keeps hkeep ⟨h, hp, rfl⟩ hl hr
  refine ⟨?_, hp', fun t c k hc hpc => ?_, hlive⟩
  · have hle := rank_le cfg s
    omega
  · rw [poisoned_of_panicked h' hc hpc] at hp'
    cases hp'

/-- the notified worker takes the bucket, does its job and goes back to sleep -/
def working : List (QAct (Fin 1) (Fin 1)) :=
  [.work 0, .work 0, .work 0, .load 0, .work 0, .load 0, .work 0, .work 0, .work 0]

theorem turns_le_working : (machine cfgOne).spent (turns cfgOne)
      ((machine cfgOne).final waking) working ≤ 277 ∧
    ((machine cfgOne).final (waking ++ working)).alive = ((machine cfgOne).final waking).alive := by
  have hbound : 14 * ((machine cfgOne).final waking).callCount + 135 * cfgOne.bucketCount +
      7 * Fintype.card (Fin 1) = 277 := by decide
  obtain ⟨h1, -, -, h2⟩ := turns_le cfgOne ((machine cfgOne).final waking) _
    (Machine.reachable_final _ waking) (by decide) (by decide) working (by decide)
    (Machine.run_final (by decide))
  exact ⟨h1.trans_eq hbound, h2⟩

end
end Queue
end Nea
