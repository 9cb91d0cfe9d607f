import Nea.Lib.Refine
import Nea.Queue.Rank

/-!
# What the queue is for

Workers share a pool of jobs in buckets.  A job is submitted by anybody; a worker takes a bucket
that nobody holds, is handed jobs of it, and leaves it.  That is all a user of the queue has to
know: slots, flags, counter, condition variable and the two iterations of `done_with_bucket` do not
show.

* `Pool`, `PoolAct`, `Pool.step`   the pool, over any buckets, jobs and workers;
* `Pool.exclusive`    a bucket is held by one worker at most;
* `Pool.handed_le`    a job is handed over as often as it was submitted, or less;
* `Queue.pool`, `Queue.label`   the queue as a pool, and what is seen of a step;
* `queue_refines`     every run of the queue is a run of the pool.
-/

set_option linter.unusedSectionVars false

namespace Nea

/-! ## the pool -/

/-- the jobs of each bucket, and the bucket each worker holds -/
structure Pool (B J W : Type) where
  pending : B → J → Bool
  holds : W → Option B

inductive PoolAct (B J W : Type) where
  | submit (b : B) (j : J)
  | take (w : W) (b : B)
  /-- job `j` of the bucket is handed to its holder -/
  | hand (w : W) (b : B) (j : J)
  | leave (w : W)
deriving DecidableEq

namespace Pool
variable {B J W : Type} [DecidableEq B] [DecidableEq J] [DecidableEq W] [Fintype W]

def init : Pool B J W := ⟨fun _ _ => false, fun _ => none⟩

def setPending (p : Pool B J W) (b : B) (j : J) (v : Bool) : Pool B J W :=
  { p with pending := Function.update p.pending b (Function.update (p.pending b) j v) }
def setHolds (p : Pool B J W) (w : W) (o : Option B) : Pool B J W :=
  { p with holds := Function.update p.holds w o }

def step (p : Pool B J W) : PoolAct B J W → Option (Pool B J W)
  | .submit b j => some (p.setPending b j true)
  | .take w b =>
    if p.holds w = none ∧ ∀ w', p.holds w' ≠ some b then some (p.setHolds w (some b)) else none
  | .hand w b j =>
    if p.holds w = some b ∧ p.pending b j = true then some (p.setPending b j false) else none
  | .leave w => if p.holds w = none then none else some (p.setHolds w none)

def machine (B J W : Type) [DecidableEq B] [DecidableEq J] [DecidableEq W] [Fintype W] :
    Machine (Pool B J W) (PoolAct B J W) := ⟨init, step⟩

variable {p p' : Pool B J W}

/-- **A bucket is held by one worker at most.** -/
theorem exclusive (h : (machine B J W).Reachable p) {w w' : W} {b : B} (hw : p.holds w = some b)
    (hw' : p.holds w' = some b) : w = w' := by
  revert w w' b
  refine h.invariant (I := fun p => ∀ {w w' : W} {b : B}, p.holds w = some b →
    p.holds w' = some b → w = w') (fun h => by cases h) ?_
  intro p a p' _ hi _ he w w' b hw hw'
  cases a with
  | submit b1 j =>
    cases he
    exact hi hw hw'
  | take w1 b1 =>
    change (if _ then _ else _) = _ at he
    split at he
    · next hfree =>
      cases he
      change Function.update p.holds w1 (some b1) w = _ at hw
      change Function.update p.holds w1 (some b1) w' = _ at hw'
      by_cases e : w = w1 <;> by_cases e' : w' = w1
      · rw [e, e']
      · rw [e, Function.update_self] at hw
        rw [Function.update_of_ne e'] at hw'
        cases hw
        exact absurd hw' (hfree.2 w')
      · rw [Function.update_of_ne e] at hw
        rw [e', Function.update_self] at hw'
        cases hw'
        exact absurd hw (hfree.2 w)
      · rw [Function.update_of_ne e] at hw
        rw [Function.update_of_ne e'] at hw'
        exact hi hw hw'
    · cases he
  | hand w1 b1 j =>
    change (if _ then _ else _) = _ at he
    split at he
    · cases he
      exact hi hw hw'
    · cases he
  | leave w1 =>
    change (if _ then _ else _) = _ at he
    split at he
    · cases he
    · cases he
      change Function.update p.holds w1 none w = _ at hw
      change Function.update p.holds w1 none w' = _ at hw'
      by_cases e : w = w1
      · rw [e, Function.update_self] at hw
        cases hw
      · by_cases e' : w' = w1
        · rw [e', Function.update_self] at hw'
          cases hw'
        · rw [Function.update_of_ne e] at hw
          rw [Function.update_of_ne e'] at hw'
          exact hi hw hw'

/-- the action hands job `j` of bucket `b` over -/
def isHand (b : B) (j : J) : PoolAct B J W → Bool
  | .hand _ b' j' => decide (b' = b ∧ j' = j)
  | _ => false

/-- the action submits job `j` of bucket `b` -/
def isSubmit (b : B) (j : J) : PoolAct B J W → Bool
  | .submit b' j' => decide (b' = b ∧ j' = j)
  | _ => false

theorem pending_setPending (p : Pool B J W) (b b' : B) (j j' : J) (v : Bool) :
    (p.setPending b j v).pending b' j' = if b = b' ∧ j = j' then v else p.pending b' j' := by
  show Function.update p.pending b _ b' j' = _
  by_cases e : b' = b
  · subst e
    rw [Function.update_self, Function.update_apply]
    by_cases e' : j' = j
    · simp [e']
    · simp [e', Ne.symm e']
  · rw [Function.update_of_ne e, if_neg (fun h => e h.1.symm)]

/-- **A job is handed over as often as it was submitted, or less.** -/
theorem handed_le {l : List (PoolAct B J W)} (h : (machine B J W).run p l = some p') (b : B)
    (j : J) : l.countP (isHand b j) + (p'.pending b j).toNat ≤
      l.countP (isSubmit b j) + (p.pending b j).toNat := by
  induction l generalizing p with
  | nil => cases h; rfl
  | cons a l ih =>
    rw [Machine.run_cons] at h
    obtain ⟨p1, h1, h2⟩ := Option.bind_eq_some_iff.mp h
    have hrest := ih h2
    rw [List.countP_cons, List.countP_cons]
    cases a with
    | submit b1 j1 =>
      cases h1
      rw [pending_setPending] at hrest
      by_cases e : b1 = b ∧ j1 = j
      · simp only [isHand, isSubmit, e, and_self, decide_true, if_true, Bool.false_eq_true,
          if_false, Bool.toNat_true] at hrest ⊢
        omega
      · simp only [isHand, isSubmit, e, decide_false, Bool.false_eq_true, if_false] at hrest ⊢
        omega
    | take w1 b1 =>
      change (if _ then _ else _) = _ at h1
      split at h1
      · cases h1
        exact hrest
      · cases h1
    | hand w1 b1 j1 =>
      change (if _ then _ else _) = _ at h1
      split at h1
      · next hp =>
        cases h1
        rw [pending_setPending] at hrest
        by_cases e : b1 = b ∧ j1 = j
        · obtain ⟨rfl, rfl⟩ := e
          simp only [isHand, isSubmit, and_self, decide_true, if_true, Bool.false_eq_true,
            if_false, Bool.toNat_false, hp.2, Bool.toNat_true] at hrest ⊢
          omega
        · simp only [isHand, isSubmit, e, decide_false, Bool.false_eq_true, if_false] at hrest ⊢
          omega
      · cases h1
    | leave w1 =>
      change (if _ then _ else _) = _ at h1
      split at h1
      · cases h1
      · cases h1
        exact hrest

end Pool

/-! ## the queue as a pool -/

namespace Queue
variable {W T : Type} [DecidableEq W] [DecidableEq T]

/-- the job bits, and who owns the slots -/
def pool (s : Queue W T) : Pool ℕ ℕ W where
  pending b i := (s.slots b).hasJob i
  holds w := (s.pc w).bucket

/-- what is seen of a step: the `fetch_or` of a call, a successful `try_process`, the `fetch_and` of
`dequeue` and a successful release -/
def label (cfg : Cfg) (s : Queue W T) : QAct W T → Option (PoolAct ℕ ℕ W)
  | .call t _ =>
    match s.calls t with
    | some c => if c.pc = .setJob then some (.submit c.bucket c.offset) else none
    | none => none
  | .work w =>
    match s.pc w with
    | .scan i =>
      if i < cfg.bucketCount ∧ (s.slots i).flags = enqueuedBit then some (.take w i) else none
    | .dequeued b i => some (.hand w b i)
    | .done b _ true => if (s.slots b).flags = inProgressBit then some (.leave w) else none
    | _ => none
  | _ => none

variable [Fintype W] {cfg : Cfg} {s s' : Queue W T}

theorem pool_eq {p : Pool ℕ ℕ W} (hj : ∀ b i, (s.slots b).hasJob i = p.pending b i)
    (hp : ∀ w, (s.pc w).bucket = p.holds w) : s.pool = p := by
  obtain ⟨pending, holds⟩ := p
  show Pool.mk _ _ = _
  rw [funext hp, funext (fun b => funext (hj b))]

/-- A call submits its job by its `fetch_or`. -/
theorem refines_call (hn : Named cfg s) {t : Thread W T} {waiter : Option W} {c : Enqueue}
    (hc : s.calls t = some c) (h : s.callStep t waiter c = some s') :
    (Pool.machine ℕ ℕ W).run s.pool (label cfg s (.call t waiter)).toList = some s'.pool := by
  have hbits := hasJob_callStep (hn.calls t c hc).offset_lt h
  have hpc : ∀ w, (s'.pc w).bucket = (s.pc w).bucket := by
    intro w
    by_cases hw : s.pc w = .blocked
    · have hq : QStep cfg s s' := .of_callStep hc h
      rcases owners_of_step hq with h1 | ⟨w1, i, j, hp, -, h1⟩ | ⟨w1, b, k, hp, h1⟩
      · exact h1 w
      all_goals
        rw [h1, Function.update_of_ne]
        rintro rfl
        rw [hw] at hp
        cases hp
    · rw [callStep_pc h hw]
  by_cases hset : c.pc = .setJob
  · have hl : label cfg s (.call t waiter) = some (.submit c.bucket c.offset) := by
      simp only [label, hc, if_pos hset]
    rw [hl]
    refine (Machine.run_single ..).trans (congrArg some ?_)
    refine (pool_eq (fun b i => ?_) hpc).symm
    rw [hbits, Pool.pending_setPending]
    by_cases e : c.bucket = b ∧ c.offset = i
    · simp [hset, e]
    · simp [e, pool]
  · have hl : label cfg s (.call t waiter) = none := by
      simp only [label, hc, if_neg hset]
    rw [hl]
    refine congrArg some (pool_eq (fun b i => ?_) hpc).symm
    rw [hbits]
    simp [hset, pool]

/-- A step of a worker that is seen as nothing. -/
theorem refines_unseen {w : W} {p' : WorkerPc} {a : QAct W T} (hl : label cfg s a = none)
    (hj : ∀ b i, (s'.slots b).hasJob i = (s.slots b).hasJob i)
    (hs : s'.pc = Function.update s.pc w p') (hp : p'.bucket = (s.pc w).bucket) :
    (Pool.machine ℕ ℕ W).run s.pool (label cfg s a).toList = some s'.pool := by
  rw [hl]
  refine congrArg some (pool_eq (fun b i => (hj b i)) (fun w' => ?_)).symm
  rw [hs]
  exact bucket_update rfl hp w'

/-- `try_process` takes the bucket. -/
theorem refines_pick (ho : s.Owned) {w : W} {i : ℕ} (hw : s.pc w = .scan i)
    (hi : i < cfg.bucketCount) (hf : (s.slots i).flags = enqueuedBit) :
    (Pool.machine ℕ ℕ W).run s.pool (label cfg s (.work w : QAct W T)).toList =
      some ((s.setSlot i ((s.slots i).setFlags inProgressBit)).setPc w (.picked i)).pool := by
  have hl : label cfg s (.work w : QAct W T) = some (.take w i) := by
    simp only [label, hw]
    rw [if_pos ⟨hi, hf⟩]
  have hfree : s.pool.holds w = none ∧ ∀ w', s.pool.holds w' ≠ some i := by
    refine ⟨by show (s.pc w).bucket = none; rw [hw]; rfl, fun w' hw' => ?_⟩
    have hin := (QueueSlot.isInProgress_iff (ho.flags i)).mp ((ho.inProgress i).mpr ⟨w', hw'⟩)
    rw [hf] at hin
    rcases hin with hin | hin <;> exact absurd hin (by decide)
  rw [hl]
  refine (Machine.run_single ..).trans ((if_pos hfree).trans (congrArg some ?_))
  refine (pool_eq (fun b j => ?_) (fun w' => ?_)).symm
  · rw [slots_setPc, hasJob_setFlags]
    rfl
  · show (Function.update s.pc w (.picked i) w').bucket =
      Function.update s.pool.holds w (some i) w'
    by_cases e : w' = w
    · rw [e, Function.update_self, Function.update_self]
      rfl
    · rw [Function.update_of_ne e, Function.update_of_ne e]
      rfl

/-- The second compare-exchange of `done_with_bucket` leaves it. -/
theorem refines_release {w : W} {b k : ℕ} (hw : s.pc w = .done b k true)
    (hf : (s.slots b).flags = inProgressBit) :
    (Pool.machine ℕ ℕ W).run s.pool (label cfg s (.work w : QAct W T)).toList =
      some ((s.setSlot b ((s.slots b).setFlags 0)).setPc w .waitJobs).pool := by
  have hl : label cfg s (.work w : QAct W T) = some (.leave w) := by
    simp only [label, hw]
    rw [if_pos hf]
  have hheld : s.pool.holds w ≠ none := by
    show (s.pc w).bucket ≠ none
    rw [hw]
    exact fun e => by cases e
  rw [hl]
  refine (Machine.run_single ..).trans ((if_neg hheld).trans (congrArg some ?_))
  refine (pool_eq (fun b j => ?_) (fun w' => ?_)).symm
  · rw [slots_setPc, hasJob_setFlags]
    rfl
  · show (Function.update s.pc w .waitJobs w').bucket = Function.update s.pool.holds w none w'
    by_cases e : w' = w
    · rw [e, Function.update_self, Function.update_self]
      rfl
    · rw [Function.update_of_ne e, Function.update_of_ne e]
      rfl

/-- `dequeue` hands over the job it has chosen. -/
theorem refines_clear {w : W} {b i : ℕ} (hw : s.pc w = .dequeued b i)
    (hj : (s.slots b).hasJob i = true) :
    (Pool.machine ℕ ℕ W).run s.pool (label cfg s (.work w : QAct W T)).toList =
      some ((s.setSlot b ((s.slots b).clearJob i)).setPc w (.running b)).pool := by
  have hl : label cfg s (.work w : QAct W T) = some (.hand w b i) := by simp only [label, hw]
  have hguard : s.pool.holds w = some b ∧ s.pool.pending b i = true := by
    refine ⟨?_, hj⟩
    show (s.pc w).bucket = some b
    rw [hw]
    rfl
  rw [hl]
  refine (Machine.run_single ..).trans ((if_pos hguard).trans (congrArg some ?_))
  refine (pool_eq (fun b1 j => ?_) (fun w' => ?_)).symm
  · rw [Pool.pending_setPending, slots_setPc, slots_setSlot]
    by_cases e : b1 = b
    · subst e
      rw [Function.update_self, QueueSlot.hasJob_clearJob]
      by_cases e' : i = j
      · simp [e']
      · simp [e', Ne.symm e', pool]
    · rw [Function.update_of_ne e, if_neg (fun h => e h.1.symm)]
      rfl
  · show (Function.update s.pc w (.running b) w').bucket = (s.pc w').bucket
    have hp : (WorkerPc.running b).bucket = (WorkerPc.dequeued b i).bucket := rfl
    exact bucket_update hw hp w'

theorem refines_work (h : (machine cfg).Reachable s) {w : W}
    (he : workStep cfg s w = some s') :
    (Pool.machine ℕ ℕ W).run s.pool (label cfg s (.work w : QAct W T)).toList = some s'.pool := by
  have hbits := hasJob_workStep he
  have hsame : (∀ b i, s.pc w ≠ .dequeued b i) →
      ∀ b i, (s'.slots b).hasJob i = (s.slots b).hasJob i := by
    intro hne b i
    rw [hbits, decide_eq_false (hne b i)]
    simp
  cases hw : s.pc w with
  | waitJobs =>
    have hl : label cfg s (.work w : QAct W T) = none := by simp only [label, hw]
    have hj := hsame (by rw [hw]; simp)
    simp only [workStep, hw] at he
    repeat' split at he
    · cases he
      exact refines_unseen hl hj (Function.update_eq_self w s.pc).symm rfl
    · cases he
      exact refines_unseen hl hj rfl (by rw [hw]; rfl)
    · cases he
      exact refines_unseen hl hj rfl (by rw [hw]; rfl)
  | blocked =>
    simp only [workStep, hw] at he
    cases he
  | scan i =>
    have hj := hsame (by rw [hw]; simp)
    simp only [workStep, hw] at he
    split at he
    · next hi =>
      split at he
      · next q hq =>
        cases he
        obtain ⟨hf, rfl⟩ := QueueSlot.tryProcess_eq_some.mp hq
        exact refines_pick (owned_of_reachable h) hw hi hf
      · next hq =>
        have hf : (s.slots i).flags ≠ enqueuedBit :=
          fun hf => by simp [QueueSlot.tryProcess, hf] at hq
        cases he
        refine refines_unseen ?_ hj rfl (by rw [hw]; rfl)
        simp only [label, hw]
        rw [if_neg (fun hn => hf hn.2)]
    · next hi =>
      cases he
      refine refines_unseen ?_ hj rfl (by rw [hw]; rfl)
      simp only [label, hw]
      rw [if_neg (fun hn => hi hn.1)]
  | picked b =>
    have hl : label cfg s (.work w : QAct W T) = none := by simp only [label, hw]
    have hj := hsame (by rw [hw]; simp)
    simp only [workStep, hw] at he
    split at he
    · cases he
      exact refines_unseen hl hj rfl (by rw [hw]; rfl)
    · cases he
      exact refines_unseen hl hj (Function.update_eq_self w s.pc).symm rfl
  | running b =>
    simp only [workStep, hw] at he
    cases he
  | dequeued b i =>
    simp only [workStep, hw] at he
    cases he
    exact refines_clear hw (chosen_of_reachable h hw)
  | done b k second =>
    have hj := hsame (by rw [hw]; simp)
    cases second with
    | false =>
      have hl : label cfg s (.work w : QAct W T) = none := by simp only [label, hw]
      simp only [workStep, hw] at he
      repeat' split at he
      · cases he
        exact refines_unseen hl hj rfl (by rw [hw]; rfl)
      · cases he
        exact refines_unseen hl hj rfl (by rw [hw]; rfl)
      · cases he
        exact refines_unseen hl hj (Function.update_eq_self w s.pc).symm rfl
    | true =>
      simp only [workStep, hw] at he
      split at he
      · next q hq =>
        cases he
        obtain ⟨hf, rfl⟩ := QueueSlot.release_eq_some.mp hq
        exact refines_release hw hf
      · next hq =>
        have hl : label cfg s (.work w : QAct W T) = none := by
          simp only [label, hw]
          rw [if_neg (fun hf => by simp [QueueSlot.release, hf] at hq)]
        split at he
        · cases he
          exact refines_unseen hl hj rfl (by rw [hw]; rfl)
        · cases he
          exact refines_unseen hl hj (Function.update_eq_self w s.pc).symm rfl

/-- **Every step of the queue is a step of the pool, or is not seen.** -/
theorem refines_pool (cfg : Cfg) :
    (machine (W := W) (T := T) cfg).Refines (Pool.machine ℕ ℕ W) pool (label cfg) where
  init := by
    refine pool_eq (fun b i => ?_) (fun _ => rfl)
    show (0 : BitVec 64).getLsbD i = false
    simp
  step s a s' h he := by
    cases a with
    | call t waiter =>
      obtain ⟨c, hc, he⟩ := Option.bind_eq_some_iff.mp he
      exact refines_call (named_of_reachable h) hc he
    | work w =>
      change (if _ then _ else _) = _ at he
      split at he
      · exact refines_work h he
      · cases he
    | start t q =>
      change (if _ then _ else _) = _ at he
      split at he
      · obtain ⟨c, -, rfl⟩ := Option.map_eq_some_iff.mp he
        rfl
      · cases he
    | spurious w =>
      change (if _ then _ else _) = _ at he
      split at he
      · next hw =>
        cases he
        exact refines_unseen rfl (fun _ _ => rfl) rfl (by rw [hw]; rfl)
      · cases he
    | load w =>
      change (if _ then _ else _) = _ at he
      unfold loadStep at he
      repeat' split at he
      · next hw _ =>
        cases he
        exact refines_unseen rfl (fun _ _ => rfl) rfl (by rw [hw]; rfl)
      · next hw _ =>
        cases he
        exact refines_unseen rfl (fun _ _ => rfl) rfl (by rw [hw]; rfl)
      all_goals cases he
    | finish w =>
      simp only [machine, step] at he
      split at he
      · next hw =>
        cases he
        exact refines_unseen rfl (fun _ _ => rfl) rfl (by rw [hw]; rfl)
      · cases he
    | die w =>
      cases he
      rfl

/-- **The queue refines the pool**: what is seen of a run (the `fetch_or`s, the successful
`try_process`es, the `fetch_and`s of `dequeue` and the successful releases) is a run of the pool,
which leads to the job bits and the owners that the queue has.  So a bucket has one owner at most,
and a job is handed over at most as often as it was submitted. -/
theorem queue_refines (cfg : Cfg) (l : List (QAct W T)) (s : Queue W T)
    (h : (machine cfg).run init l = some s) :
    (Pool.machine ℕ ℕ W).run Pool.init ((machine cfg).seen (label cfg) init l) = some s.pool ∧
    (∀ w w' b, s.pool.holds w = some b → s.pool.holds w' = some b → w = w') ∧
    ∀ b i, ((machine cfg).seen (label cfg) init l).countP (Pool.isHand b i) +
      ((s.slots b).hasJob i).toNat ≤
        ((machine cfg).seen (label cfg) init l).countP (Pool.isSubmit b i) := by
  have hr := refines_pool (W := W) (T := T) cfg
  have hrun : (Pool.machine ℕ ℕ W).run Pool.init _ = some s.pool := hr.init ▸ hr.run .init h
  have hreach : (Pool.machine ℕ ℕ W).Reachable s.pool :=
    Machine.Reach.init.run hrun (Machine.all_of_forall (fun _ _ _ => trivial) _ _)
  exact ⟨hrun, fun w w' b hw hw' => Pool.exclusive hreach hw hw',
    fun b i => Pool.handed_le hrun b i⟩

/-- The first bucket is submitted, taken, its job handed over and the bucket left. -/
theorem queue_refines_working : (Pool.machine ℕ ℕ (Fin 1)).run Pool.init
    [.submit 0 0, .take 0 0, .hand 0 0 0, .leave 0] =
      some ((machine cfgOne).final (waking ++ working)).pool :=
  (queue_refines cfgOne (waking ++ working) _ (Machine.run_final (l := []) (by decide))).1

end Queue
end Nea
