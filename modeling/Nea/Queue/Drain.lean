import Nea.Queue.Rank
import Nea.Queue.Wake

/-!
# The queue can always be emptied

Whatever the threads have done so far: if the counter is not poisoned and the workers live, letting
the calls and the workers go on brings the queue to rest.  No call waits for a worker, a worker
inside a bucket waits for nobody, and a worker that looks for a slot finds one when there is one.

* `QAct.steady`       the steps of calls and workers, where `run_bucket` does all jobs of a bucket;
* `flags_of_asleep`   when all workers sleep, no slot is marked, none is in progress;
* `Heeded`            a bucket whose jobs somebody is about to take up;
* `lower_of_call`, `lower_of_owner`, `lower_of_scan`   who can go on, and lowers the rank;
* `drains`            the queue comes to rest with no job left in a heeded bucket.
-/

set_option linter.unusedSectionVars false

namespace Nea

/-- a step of a call or of a worker in the queue, or of `run_bucket` going back to `dequeue` -/
def QAct.steady {W T : Type} : QAct W T → Bool
  | .call _ _ => true
  | .work _ => true
  | .load _ => true
  | _ => false

theorem QAct.onward_of_steady {W T : Type} {a : QAct W T} (h : a.steady = true) :
    a.onward = true := by
  cases a with
  | call t waiter => rfl
  | work w => rfl
  | load w => rfl
  | _ => cases h

namespace Queue
variable {W T : Type} [DecidableEq W] [DecidableEq T] [Fintype W]
variable {cfg : Cfg} {s s' : Queue W T}

/-! ## all workers sleep -/

/-- Nobody owns a slot while all workers sleep. -/
theorem not_owns_of_asleep (hall : s.AllAsleep) (w : W) (b : ℕ) : ¬ s.Owns w b := by
  unfold Owns
  rw [hall w]
  exact nofun

/-- **No slot is marked**: its mark would have a call that is about to execute `wake_one`. -/
theorem flags_of_asleep [Fintype T] [Nonempty W] (h : (machine cfg).Reachable s)
    (hcalls : ∀ t, s.calls t = none) (hall : s.AllAsleep) (b : ℕ) : (s.slots b).flags = 0 := by
  have ho := owned_of_reachable h
  have hfree : (s.slots b).isInProgress = false := by
    rw [Bool.eq_false_iff]
    intro hp
    obtain ⟨w, hw⟩ := (ho.inProgress b).mp hp
    exact not_owns_of_asleep hall w b hw
  obtain ⟨m, hm⟩ := h.watch (fun _ => none) marker
  have hinv : AllAsleep s → ∀ b, (s.slots b).flags = enqueuedBit → Attended s m b := by
    refine hm.invariant (I := fun x => AllAsleep x.1 → ∀ b, (x.1.slots b).flags = enqueuedBit →
      Attended x.1 x.2 b) (fun hall => ?_) ?_
    · obtain ⟨w0⟩ := ‹Nonempty W›
      exact absurd (hall w0) nofun
    · intro x a x' hr hi _ he
      obtain ⟨h1, h2⟩ := Machine.watch_step.mp he
      rw [h2]
      exact attended_step (Machine.reachable_of_watch hr) hi h1
  rcases ho.flags b with hf | hf | hf | hf
  · exact hf
  · obtain ⟨t, c, -, hc, -⟩ := hinv hall b hf
    rw [hcalls t] at hc
    cases hc
  · rw [(QueueSlot.isInProgress_iff (ho.flags b)).mpr (.inl hf)] at hfree
    cases hfree
  · rw [(QueueSlot.isInProgress_iff (ho.flags b)).mpr (.inr hf)] at hfree
    cases hfree

/-- **The counter is zero.** -/
theorem jobs_of_asleep [Fintype T] [Nonempty W] (h : (machine cfg).Reachable s)
    (hcalls : ∀ t, s.calls t = none) (hall : s.AllAsleep) : s.jobsInQueue.val = 0 := by
  rw [due_of_reachable h]
  refine due_eq_zero (fun b _ => ?_) hcalls (fun w b => ?_)
  · rw [flags_of_asleep h hcalls hall b]
    decide
  · rw [hall w]
    exact nofun

/-! ## the buckets that somebody is about to take up -/

/-- the slot is marked or about to be marked, or its owner goes back to `dequeue` -/
def Heeded (s : Queue W T) (b : ℕ) : Prop :=
  s.Covered b ∨ ∃ w, s.pc w = .picked b ∨ s.pc w = .running b ∨ ∃ i, s.pc w = .dequeued b i

/-- Without a new job the bits stay as they are or become fewer. -/
theorem jobs_of_step (hn : Named cfg s) {b : ℕ} (hs : QStep cfg s s') (h0 : (s.slots b).jobs = 0) :
    (s'.slots b).jobs = 0 ∨ s'.Covered b := by
  by_contra hno
  rw [not_or] at hno
  obtain ⟨i, hi⟩ := exists_hasJob hno.1
  rcases hasJob_of_step hn hs hi with h1 | h1
  · exact jobs_ne_zero h1 h0
  · exact hno.2 h1

/-- The owner of a bucket goes back to `dequeue`, or has found no job. -/
theorem owner_of_step {a : QAct W T} (ha : a.steady = true) (he : step cfg s a = some s') {w : W}
    {b : ℕ} (hw : s.pc w = .picked b ∨ s.pc w = .running b ∨ ∃ i, s.pc w = .dequeued b i) :
    (s'.pc w = .picked b ∨ s'.pc w = .running b ∨ ∃ i, s'.pc w = .dequeued b i) ∨
      (s'.slots b).jobs = 0 := by
  have hne : s.pc w ≠ .blocked := by
    intro hb
    rw [hb] at hw
    rcases hw with h | h | ⟨i, h⟩ <;> cases h
  have hsame : a ≠ .work w → a ≠ .load w → s'.pc w = s.pc w := by
    intro h1 h2
    refine pc_frame he hne h1 h2 ?_
    rintro rfl
    cases ha
  by_cases h1 : a = .work w
  · subst h1
    simp only [step] at he
    split at he
    · rcases hw with hw | hw | ⟨i, hw⟩
      · simp only [workStep, hw] at he
        split at he
        · cases he
          exact .inl (.inr (.inl (Function.update_self ..)))
        · cases he
          exact .inl (.inl hw)
      · simp only [workStep, hw] at he
        cases he
      · simp only [workStep, hw] at he
        cases he
        exact .inl (.inr (.inl (Function.update_self ..)))
    · cases he
  · by_cases h2 : a = .load w
    · subst h2
      simp only [step] at he
      split at he
      · rcases hw with hw | hw | ⟨i, hw⟩
        · simp only [loadStep, hw] at he
          cases he
        · simp only [loadStep, hw] at he
          split at he
          · next hj => cases he; exact .inr hj
          · cases he; exact .inl (.inr (.inr ⟨_, Function.update_self ..⟩))
        · simp only [loadStep, hw] at he
          cases he
      · cases he
    · rw [hsame h1 h2]
      exact .inl hw

/-- **A heeded bucket stays heeded until it has no jobs.** -/
theorem heeded_of_step (h : (machine cfg).Reachable s) {a : QAct W T} (ha : a.steady = true)
    (he : step cfg s a = some s') {b : ℕ} (hb : s.Heeded b ∨ (s.slots b).jobs = 0) :
    s'.Heeded b ∨ (s'.slots b).jobs = 0 := by
  rcases hb with (hc | ⟨w, hw⟩) | h0
  · rcases covered_of_step (owned_of_reachable h) hc (.of_step he) with h1 | ⟨w, h1 | ⟨k, -, h1⟩⟩
    · exact .inl (.inl h1)
    · exact .inl (.inr ⟨w, .inl h1⟩)
    · exact .inl (.inr ⟨w, .inr (.inl h1)⟩)
  · exact (owner_of_step ha he hw).imp_left (fun h1 => .inr ⟨w, h1⟩)
  · exact (jobs_of_step (named_of_reachable h) (.of_step he) h0).symm.imp_left .inl

/-! ## who can go on -/

section
variable [Fintype T]

/-- a run of steady steps lowers the rank -/
def Lowers (cfg : Cfg) (s : Queue W T) : Prop :=
  ∃ s', (machine cfg).Leads (fun a => a.steady = true) s s' ∧ rank cfg s' < rank cfg s

theorem lowers_of_turn (hroom : Room cfg W T) (h : (machine cfg).Reachable s)
    (hp : s.jobsInQueue.poisoned = false) {a : QAct W T} (ha : a.steady = true)
    (ht : turns cfg s a = true) (he : step cfg s a = some s') : Lowers cfg s := by
  have h1 := (pays_of_onward hroom h hp (QAct.onward_of_steady ha) he).rank
  rw [ht, Bool.toNat_true] at h1
  exact ⟨s', .single ha he, h1⟩

/-- A call waits for nobody. -/
theorem lower_of_call (hroom : Room cfg W T) (h : (machine cfg).Reachable s)
    (hp : s.jobsInQueue.poisoned = false) {t : Thread W T} {c : Enqueue}
    (hc : s.calls t = some c) : Lowers cfg s := by
  obtain ⟨waiter, s', he⟩ : ∃ waiter s', s.callStep t waiter c = some s' := by
    cases hpc : c.pc with
    | setJob =>
      simp only [callStep, hpc]
      exact ⟨none, _, rfl⟩
    | increment =>
      have hv := val_le h
      unfold Room at hroom
      simp only [callStep, hpc, incrementActive_of_lt hp (by omega)]
      exact ⟨none, _, rfl⟩
    | mark =>
      simp only [callStep, hpc]
      exact ⟨none, _, rfl⟩
    | wakeOne =>
      by_cases hw : ∃ w, s.pc w = .blocked
      · obtain ⟨w, hw⟩ := hw
        refine ⟨some w, (s.setCall t none).setPc w .waitJobs, ?_⟩
        simp only [callStep, hpc]
        rw [if_pos hw]
      · refine ⟨none, s.setCall t none, ?_⟩
        simp only [callStep, hpc]
        rw [if_pos (fun w hb => hw ⟨w, hb⟩)]
    | revert =>
      have hpos := due_pos_of_revert cfg hc hpc
      rw [← due_of_reachable h] at hpos
      simp only [callStep, hpc, decrementActive_of_pos hp hpos]
      exact ⟨none, _, rfl⟩
    | panicked k =>
      rw [poisoned_of_panicked h hc hpc] at hp
      cases hp
  have he' : step cfg s (.call t waiter) = some s' := by
    show (s.calls t).bind _ = _
    rw [hc]
    exact he
  exact lowers_of_turn hroom h hp rfl rfl he'

theorem step_work {w : W} (hal : s.alive w = true) :
    step cfg s (.work w) = workStep cfg s w := if_pos hal

/-- Nor does a worker inside a bucket. -/
theorem lower_of_owner (hroom : Room cfg W T) (h : (machine cfg).Reachable s)
    (hp : s.jobsInQueue.poisoned = false) {w : W} (hal : s.alive w = true) {b : ℕ}
    (hw : s.Owns w b) : Lowers cfg s := by
  unfold Owns at hw
  have hwork : (∃ s', workStep cfg s w = some s') → turns cfg s (.work w) = true →
      Lowers cfg s := by
    intro ⟨s', he⟩ ht
    exact lowers_of_turn (a := .work w) hroom h hp rfl ht ((step_work hal).trans he)
  cases hpc : s.pc w with
  | waitJobs => rw [hpc] at hw; cases hw
  | blocked => rw [hpc] at hw; cases hw
  | scan i => rw [hpc] at hw; cases hw
  | picked b1 =>
    have hpos := due_pos_of_picked cfg hpc
    rw [← due_of_reachable h] at hpos
    refine hwork ?_ (by simp [turns, hpc])
    simp only [workStep, hpc, decrementActive_of_pos hp hpos]
    exact ⟨_, rfl⟩
  | running b1 =>
    obtain ⟨s', he⟩ : ∃ s', loadStep s w = some s' := by
      simp only [loadStep, hpc]
      split
      · exact ⟨_, rfl⟩
      · exact ⟨_, rfl⟩
    exact lowers_of_turn (a := .load w) hroom h hp rfl rfl ((if_pos hal).trans he)
  | dequeued b1 i =>
    refine hwork ?_ (by simp [turns, hpc])
    simp only [workStep, hpc]
    exact ⟨_, rfl⟩
  | done b1 k second =>
    obtain ⟨s', he, -⟩ : ∃ s', workStep cfg s w = some s' ∧ s'.alive = s.alive ∧
        Decision s s' w b1 k second :=
      decision_of_workStep (owned_of_reachable h) (patient_of_reachable h) hpc
    exact hwork ⟨s', he⟩ (by simp [turns, hpc])

theorem setPc_setPc (s : Queue W T) (w : W) (p p' : WorkerPc) :
    (s.setPc w p).setPc w p' = s.setPc w p' := by
  show { s with pc := Function.update (Function.update s.pc w p) w p' } = _
  rw [Function.update_idem]
  rfl

/-- A worker that looks from slot `i` on takes one, or has found that none is marked. -/
theorem scan_leads (hroom : Room cfg W T) (h : (machine cfg).Reachable s)
    (hp : s.jobsInQueue.poisoned = false) {w : W} (hal : s.alive w = true) {i : ℕ}
    (hw : s.pc w = .scan i) : Lowers cfg s ∨
      (machine cfg).Leads (fun a => a.steady = true) s (s.setPc w .waitJobs) ∧
        ∀ b, i ≤ b → b < cfg.bucketCount → (s.slots b).flags ≠ enqueuedBit := by
  induction hd : cfg.bucketCount - i generalizing s i with
  | zero =>
    refine .inr ⟨.single (a := .work w) rfl ((step_work hal).trans ?_), fun b hb hlt => ?_⟩
    · simp only [workStep, hw]
      rw [if_neg (by omega)]
    · omega
  | succ d ih =>
    have hi : i < cfg.bucketCount := by omega
    by_cases hf : (s.slots i).flags = enqueuedBit
    · left
      have he : step cfg s (.work w) =
          some ((s.setSlot i ((s.slots i).setFlags inProgressBit)).setPc w (.picked i)) := by
        refine (step_work hal).trans ?_
        simp only [workStep, hw, if_pos hi, QueueSlot.tryProcess_eq_some.mpr ⟨hf, rfl⟩]
      exact lowers_of_turn hroom h hp rfl (by simp [turns, hw, hi, hf]) he
    · -- on to the next slot
      have he : step cfg s (.work w) = some (s.setPc w (.scan (i + 1))) := by
        refine (step_work hal).trans ?_
        simp only [workStep, hw, if_pos hi, QueueSlot.tryProcess, if_neg hf]
      have hrank : rank cfg (s.setPc w (.scan (i + 1))) = rank cfg s :=
        Nat.add_right_cancel (rank_setPc cfg s hw (.scan (i + 1)))
      have hr1 : (machine cfg).Reachable (s.setPc w (.scan (i + 1))) :=
        h.step (a := .work w) trivial he
      have hw1 : (s.setPc w (.scan (i + 1))).pc w = .scan (i + 1) := Function.update_self ..
      rcases ih hr1 hp hal hw1 (by omega) with ⟨s', h1, h2⟩ | ⟨h1, h2⟩
      · exact .inl ⟨s', .head (a := .work w) rfl he h1, hrank ▸ h2⟩
      · rw [setPc_setPc] at h1
        refine .inr ⟨.head (a := .work w) rfl he h1, fun b hb hlt => ?_⟩
        rcases Nat.eq_or_lt_of_le hb with rfl | hb
        · exact hf
        · exact h2 b hb hlt

/-- A worker that is up goes to sleep, or takes a slot: while no call is in progress and nobody owns
a slot, the counter counts the marked slots. -/
theorem lower_of_scan (hroom : Room cfg W T) (h : (machine cfg).Reachable s)
    (hp : s.jobsInQueue.poisoned = false) {w : W} (hal : s.alive w = true)
    (hcalls : ∀ t, s.calls t = none) (hown : ∀ w b, ¬ s.Owns w b) (hw : s.pc w ≠ .blocked) :
    Lowers cfg s := by
  -- at `wait_active`
  have hwait : ∀ s1 : Queue W T, (machine cfg).Reachable s1 → s1.jobsInQueue.poisoned = false →
      s1.alive w = true → (∀ t, s1.calls t = none) → (∀ w b, s1.pc w ≠ .picked b) →
      s1.pc w = .waitJobs → Lowers cfg s1 := by
    intro s1 h hp hal hcalls hown hw
    by_cases hv : s1.jobsInQueue.val = 0
    · have he : step cfg s1 (.work w) = some (s1.setPc w .blocked) := by
        refine (step_work hal).trans ?_
        simp only [workStep, hw, hp, hv, Bool.false_eq_true, if_false, if_true]
      exact lowers_of_turn hroom h hp rfl (by simp [turns, hw, hv]) he
    · obtain ⟨b, hb, hf⟩ : ∃ b < cfg.bucketCount, (s1.slots b).flags = enqueuedBit := by
        by_contra hno
        refine hv ((due_of_reachable h).trans (due_eq_zero (fun b hb hf => ?_) hcalls hown))
        exact hno ⟨b, hb, hf⟩
      have he : step cfg s1 (.work w) = some (s1.setPc w (.scan 0)) := by
        refine (step_work hal).trans ?_
        simp only [workStep, hw, hp, hv, Bool.false_eq_true, if_false]
      have hrank : rank cfg (s1.setPc w (.scan 0)) = rank cfg s1 :=
        Nat.add_right_cancel (rank_setPc cfg s1 hw (.scan 0))
      have hr1 : (machine cfg).Reachable (s1.setPc w (.scan 0)) :=
        h.step (a := .work w) trivial he
      have hw1 : (s1.setPc w (.scan 0)).pc w = .scan 0 := Function.update_self ..
      rcases scan_leads hroom hr1 hp hal hw1 with ⟨s', h1, h2⟩ | ⟨-, h2⟩
      · exact ⟨s', .head (a := .work w) rfl he h1, hrank ▸ h2⟩
      · exact absurd hf (h2 b (Nat.zero_le b) hb)
  have hpicked : ∀ w b, s.pc w ≠ .picked b := by
    intro w b hpc
    refine hown w b ?_
    unfold Owns
    rw [hpc]
    rfl
  cases hpc : s.pc w with
  | waitJobs => exact hwait s h hp hal hcalls hpicked hpc
  | blocked => exact absurd hpc hw
  | scan i =>
    rcases scan_leads hroom h hp hal hpc with h1 | ⟨h1, -⟩
    · exact h1
    · -- nothing was found from there on
      have hrank : rank cfg (s.setPc w .waitJobs) = rank cfg s :=
        Nat.add_right_cancel (rank_setPc cfg s hpc .waitJobs)
      have hr1 : (machine cfg).Reachable (s.setPc w .waitJobs) :=
        h1.keeps (fun s a s' hI _ he => hI.step trivial he) h
      have hpicked1 : ∀ w1 b, (s.setPc w .waitJobs).pc w1 ≠ .picked b := by
        intro w1 b hpc1
        change Function.update s.pc w .waitJobs w1 = _ at hpc1
        by_cases e : w1 = w
        · rw [e, Function.update_self] at hpc1
          cases hpc1
        · rw [Function.update_of_ne e] at hpc1
          exact hpicked w1 b hpc1
      obtain ⟨s', h2, h3⟩ := hwait (s.setPc w .waitJobs) hr1 hp hal hcalls hpicked1
        (Function.update_self ..)
      exact ⟨s', h1.trans h2, hrank ▸ h3⟩
  | picked b => exact absurd hpc (hpicked w b)
  | running b =>
    refine absurd ?_ (hown w b)
    unfold Owns
    rw [hpc]
    rfl
  | dequeued b i =>
    refine absurd ?_ (hown w b)
    unfold Owns
    rw [hpc]
    rfl
  | done b k second =>
    refine absurd ?_ (hown w b)
    unfold Owns
    rw [hpc]
    rfl

/-- **The queue can always be emptied.**  In whatever state the threads are, with an unpoisoned
counter and all workers alive: if only the calls and the workers go on, and `run_bucket` goes back
to `dequeue` after each job, they can come to a state in which no call is in progress, all workers
sleep, the counter is zero, no slot is marked or in progress, and no bucket that was marked, about
to be marked or being worked on has a job left. -/
theorem drains [Nonempty W] (cfg : Cfg) (s : Queue W T) (h : (machine cfg).Reachable s)
    (hp : s.jobsInQueue.poisoned = false) (hlive : ∀ w, s.alive w = true)
    (hroom : Room cfg W T) :
    ∃ s', (machine cfg).Leads (fun a => a.steady = true) s s' ∧
      (∀ t, s'.calls t = none) ∧ s'.AllAsleep ∧ s'.jobsInQueue.val = 0 ∧
      (∀ b, (s'.slots b).flags = 0) ∧ ∀ b, s.Heeded b → (s'.slots b).jobs = 0 := by
  have hkeep : ∀ (s1 : Queue W T) (a : QAct W T) (s2 : Queue W T),
      ((machine cfg).Reachable s1 ∧ s1.jobsInQueue.poisoned = false ∧
        (∀ w, s1.alive w = true) ∧ ∀ b, s.Heeded b → s1.Heeded b ∨ (s1.slots b).jobs = 0) →
      a.steady = true → (machine cfg).step s1 a = some s2 →
      (machine cfg).Reachable s2 ∧ s2.jobsInQueue.poisoned = false ∧
        (∀ w, s2.alive w = true) ∧ ∀ b, s.Heeded b → s2.Heeded b ∨ (s2.slots b).jobs = 0 := by
    intro s1 a s2 ⟨h1, h2, h3, h4⟩ ha he
    have hpays := pays_of_onward hroom h1 h2 (QAct.onward_of_steady ha) he
    exact ⟨h1.step trivial he, hpays.poisoned.trans h2, fun w => by rw [hpays.alive]; exact h3 w,
      fun b hb => heeded_of_step h1 ha he (h4 b hb)⟩
  have hlow : ∀ s1 : Queue W T,
      ((machine cfg).Reachable s1 ∧ s1.jobsInQueue.poisoned = false ∧
        (∀ w, s1.alive w = true) ∧ ∀ b, s.Heeded b → s1.Heeded b ∨ (s1.slots b).jobs = 0) →
      ¬ ((∀ t, s1.calls t = none) ∧ s1.AllAsleep) → Lowers cfg s1 := by
    intro s1 ⟨h1, h2, h3, _⟩ hno
    by_cases hcalls : ∀ t, s1.calls t = none
    · by_cases hown : ∀ w b, ¬ s1.Owns w b
      · obtain ⟨w, hw⟩ : ∃ w, s1.pc w ≠ .blocked := by
          by_contra hall
          refine hno ⟨hcalls, fun w => ?_⟩
          by_contra hw
          exact hall ⟨w, hw⟩
        exact lower_of_scan hroom h1 h2 (h3 w) hcalls hown hw
      · push Not at hown
        obtain ⟨w, b, hw⟩ := hown
        exact lower_of_owner hroom h1 h2 (h3 w) hw
    · push Not at hcalls
      obtain ⟨t, ht⟩ := hcalls
      obtain ⟨c, hc⟩ := Option.ne_none_iff_exists'.mp ht
      exact lower_of_call hroom h1 h2 hc
  obtain ⟨s', hl, ⟨hr, -, -, hheed⟩, hcalls, hall⟩ :=
    Machine.exists_leads hkeep hlow ⟨h, hp, hlive, fun b hb => .inl hb⟩
  have hflags := flags_of_asleep hr hcalls hall
  refine ⟨s', hl, hcalls, hall, jobs_of_asleep hr hcalls hall, hflags, fun b hb => ?_⟩
  rcases hheed b hb with (hcov | ⟨w, hw⟩) | h0
  · rcases hcov with he | ⟨t, c, hc, -⟩
    · unfold QueueSlot.isEnqueued at he
      rw [hflags b] at he
      cases he
    · rw [hcalls t] at hc
      cases hc
  · rw [hall w] at hw
    rcases hw with hw | hw | ⟨i, hw⟩ <;> cases hw
  · exact h0

/-- The call that is about to notify the worker goes on, and the job is done. -/
theorem drains_waking : ∃ s' : Queue (Fin 1) (Fin 1), s'.AllAsleep ∧ (s'.slots 0).jobs = 0 := by
  obtain ⟨s', -, -, h1, -, -, h2⟩ := drains cfgOne ((machine cfgOne).final (waking.take 5))
    (Machine.reachable_final _ _) (by decide) (by decide) (by decide)
  exact ⟨s', h1, h2 0 (.inl (.inl (by decide)))⟩

end

end Queue
end Nea
