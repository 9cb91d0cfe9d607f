import Nea.Queue.Ownership

/-!
# `done_with_bucket` decides within two iterations

While a worker owns a slot the only thing other threads can do to its flags is to add a mark, once.
So a release that fails has seen a mark, which stays until the next iteration consumes it.

* `attempt`           how many compare-exchanges of the call have failed;
* `Patient`           a second iteration finds the mark;
* `Decision`          what the next compare-exchange does;
* `done_with_bucket_decides`   no panic, two iterations, and what each answer means.
-/

set_option linter.unusedSectionVars false

namespace Nea
namespace Queue
variable {W T : Type} [DecidableEq W] [DecidableEq T]

/-- how many compare-exchanges of a `done_with_bucket` have failed before iteration `k`, or its
second half -/
def attempt (k : ℕ) (second : Bool) : ℕ := 2 * k + second.toNat

/-- the action is a step of worker `w` in the queue's own functions -/
def isWork (w : W) : QAct W T → Bool
  | .work w' => decide (w' = w)
  | _ => false

/-- a call of `done_with_bucket` is in its first iteration, or there is a mark to consume -/
def Patient (s : Queue W T) : Prop :=
  ∀ w b k second, s.pc w = .done b k second →
    k = 0 ∨ (k = 1 ∧ second = false ∧ (s.slots b).flags = enqueuedBit ||| inProgressBit)

section
variable {cfg : Cfg} {s s' : Queue W T}

/-- A marked slot in progress stays so, unless its owner consumes the mark. -/
theorem marked_of_step (ho : s.Owned) (hs : QStep cfg s s') {w : W} {b k : ℕ} {second : Bool}
    (hw : s.pc w = .done b k second) (hw' : s'.pc w = .done b k second)
    (hf : (s.slots b).flags = enqueuedBit ||| inProgressBit) :
    (s'.slots b).flags = enqueuedBit ||| inProgressBit := by
  cases slotMove_of_step hs b with
  | same h1 => rw [h1]; exact hf
  | setOld t c hc hcb hj h1 => rw [h1]; exact hf
  | setNew t c hc hcb hc' h1 => rw [h1]; exact hf
  | mark t c hc hcb h1 =>
    rw [h1, QueueSlot.markEnqueued, QueueSlot.flags_setFlags, hf]
    decide
  | pick w1 hlt hf1 hw1 h1 =>
    rw [hf] at hf1
    exact absurd hf1 (by decide)
  | clear w1 i hw1 h1 => rw [h1]; exact hf
  | goAgain w1 k1 hw1 hf1 hw1' h1 =>
    -- another owner of the slot is `w` itself
    have e : w1 = w := ho.unique b w1 w (by rw [Owns, hw1]; rfl) (by rw [Owns, hw]; rfl)
    subst e
    rw [hw'] at hw1'
    cases hw1'
  | release w1 k1 hw1 hf1 h1 =>
    rw [hf] at hf1
    exact absurd hf1 (by decide)

theorem patient_init : Patient (init : Queue W T) := fun w b k second h => by cases h

/-- **One step keeps it**: a release fails only on a mark. -/
theorem Patient.step (ho : s.Owned) (h : Patient s) (hs : QStep cfg s s') : Patient s' := by
  intro w b k second hw
  -- the call was there before the step
  have hold : s.pc w = .done b k second →
      k = 0 ∨ (k = 1 ∧ second = false ∧ (s'.slots b).flags = enqueuedBit ||| inProgressBit) := by
    intro h1
    rcases h w b k second h1 with h0 | ⟨hk, hr, hf⟩
    · exact .inl h0
    · exact .inr ⟨hk, hr, marked_of_step ho hs h1 hw hf⟩
  have hmove : ∀ (w1 : W) (p : WorkerPc), s'.pc = Function.update s.pc w1 p →
      (w = w1 → p = .done b k second →
        k = 0 ∨ (k = 1 ∧ second = false ∧ (s'.slots b).flags = enqueuedBit ||| inProgressBit)) →
      k = 0 ∨ (k = 1 ∧ second = false ∧ (s'.slots b).flags = enqueuedBit ||| inProgressBit) := by
    intro w1 p hp hne
    by_cases e : w = w1
    · refine hne e ?_
      rw [hp, e, Function.update_self] at hw
      exact hw
    · rw [hp, Function.update_of_ne e] at hw
      exact hold hw
  cases hs with
  | wakeOne t c w1 hc hpc hw1 => exact hmove w1 _ rfl (fun _ e => by cases e)
  | spurious w1 hw1 => exact hmove w1 _ rfl (fun _ e => by cases e)
  | block w1 hw1 hv => exact hmove w1 _ rfl (fun _ e => by cases e)
  | wait w1 hw1 hv => exact hmove w1 _ rfl (fun _ e => by cases e)
  | pick w1 j hw1 hj hf => exact hmove w1 _ rfl (fun _ e => by cases e)
  | skip w1 j hw1 hj hf => exact hmove w1 _ rfl (fun _ e => by cases e)
  | scanned w1 j hw1 hj => exact hmove w1 _ rfl (fun _ e => by cases e)
  | run w1 b1 hw1 hv => exact hmove w1 _ rfl (fun _ e => by cases e)
  | load w1 b1 hw1 hj => exact hmove w1 _ rfl (fun _ e => by cases e)
  | clear w1 b1 i1 hw1 => exact hmove w1 _ rfl (fun _ e => by cases e)
  | goAgain w1 b1 k1 hw1 hf => exact hmove w1 _ rfl (fun _ e => by cases e)
  | release w1 b1 k1 hw1 hf => exact hmove w1 _ rfl (fun _ e => by cases e)
  | loadNone w1 b1 hw1 hj => exact hmove w1 _ rfl (fun _ e => by cases e; exact .inl rfl)
  | finish w1 b1 hw1 => exact hmove w1 _ rfl (fun _ e => by cases e; exact .inl rfl)
  | tryRelease w1 b1 k1 hw1 hf =>
    -- the second half follows the first only without a mark
    refine hmove w1 _ rfl (fun e he => ?_)
    cases he
    rcases h w1 b k false hw1 with h0 | ⟨_, _, hf'⟩
    · exact .inl h0
    · rw [hf] at hf'
      exact absurd hf' (by decide)
  | retry w1 b1 k1 hw1 hf hk =>
    -- the release has failed, so there is a mark
    refine hmove w1 _ rfl (fun e he => ?_)
    cases he
    refine .inr ⟨by omega, rfl, ?_⟩
    exact (ho.done_flags (by rw [Owns, hw1]; rfl)).resolve_left hf
  | _ => exact hold hw

theorem patient_of_reachable [Fintype W] (h : (machine cfg).Reachable s) : Patient s :=
  h.invariant (I := Patient) patient_init
    (fun _ _ _ hr hi _ he => hi.step (owned_of_reachable hr) (.of_step he))

/-! ## the decisions -/

/-- what the next compare-exchange of `done_with_bucket` does -/
inductive Decision (s s' : Queue W T) (w : W) (b k : ℕ) : Bool → Prop where
  /-- `GoAgain`: a mark is consumed and the slot is kept -/
  | goAgain (hf : (s.slots b).flags = enqueuedBit ||| inProgressBit)
      (hf' : (s'.slots b).flags = inProgressBit) (hw : s'.pc w = .running b) :
      Decision s s' w b k false
  | noMark (hf : (s.slots b).flags = inProgressBit) (hs : s'.slots = s.slots) (h0 : k = 0)
      (hw : s'.pc w = .done b k true) : Decision s s' w b k false
  /-- `Done`: the flags are cleared -/
  | done (hf : (s.slots b).flags = inProgressBit) (hf' : (s'.slots b).flags = 0)
      (hw : s'.pc w = .waitJobs) : Decision s s' w b k true
  | marked (hf : (s.slots b).flags = enqueuedBit ||| inProgressBit) (hs : s'.slots = s.slots)
      (h0 : k = 0) (hw : s'.pc w = .done b 1 false) : Decision s s' w b k true

/-- A compare-exchange of `done_with_bucket` decides; it never ends the thread. -/
theorem decision_of_workStep (ho : s.Owned) (hp : Patient s) {w : W} {b k : ℕ} {second : Bool}
    (hw : s.pc w = .done b k second) :
    ∃ s', workStep cfg s w = some s' ∧ s'.alive = s.alive ∧ Decision s s' w b k second := by
  have hflags := ho.done_flags (w := w) (b := b) (by rw [Owns, hw]; rfl)
  have hEP : enqueuedBit ||| inProgressBit ≠ inProgressBit := by decide
  cases second with
  | false =>
    rcases hflags with hf | hf
    · -- no mark: on to the release
      have h0 : k = 0 := by
        rcases hp w b k false hw with h0 | ⟨_, _, h1⟩
        · exact h0
        · rw [hf] at h1
          exact absurd h1 (by decide)
      have hno : (s.slots b).goAgain = none := if_neg (by rw [hf]; decide)
      refine ⟨s.setPc w (.done b k true), ?_, rfl, .noMark hf rfl h0 (Function.update_self ..)⟩
      simp only [workStep, hw, hno, hf, if_true]
    · have hyes : (s.slots b).goAgain = some ((s.slots b).setFlags inProgressBit) := if_pos hf
      refine ⟨(s.setSlot b ((s.slots b).setFlags inProgressBit)).setPc w (.running b), ?_, rfl,
        .goAgain hf ?_ (Function.update_self ..)⟩
      · simp only [workStep, hw, hyes]
      · rw [slots_setPc, slots_setSlot, Function.update_self]
        rfl
  | true =>
    rcases hflags with hf | hf
    · have hyes : (s.slots b).release = some ((s.slots b).setFlags 0) := if_pos hf
      refine ⟨(s.setSlot b ((s.slots b).setFlags 0)).setPc w .waitJobs, ?_, rfl,
        .done hf ?_ (Function.update_self ..)⟩
      · simp only [workStep, hw, hyes]
      · rw [slots_setPc, slots_setSlot, Function.update_self]
        rfl
    · -- a mark came in between: once more
      have h0 : k = 0 := (hp w b k true hw).resolve_right (fun h => by cases h.2.1)
      subst h0
      have hno : (s.slots b).release = none := if_neg (by rw [hf]; decide)
      refine ⟨s.setPc w (.done b 1 false), ?_, rfl, .marked hf rfl rfl (Function.update_self ..)⟩
      simp only [workStep, hw, hno]
      rfl

/-! ## the whole call -/

/-- Other threads do not move the call. -/
theorem done_of_step [Fintype W] {a : QAct W T} (h : step cfg s a = some s') {w : W} {b k : ℕ}
    {second : Bool} (hw : s.pc w = .done b k second) (ha : a ≠ .work w) :
    s'.pc w = .done b k second := by
  -- the steps of `run_bucket` start elsewhere
  have hload : a ≠ .load w := by
    rintro rfl
    simp only [step, loadStep, hw] at h
    split at h <;> cases h
  have hfinish : a ≠ .finish w := by
    rintro rfl
    simp only [step, hw] at h
    cases h
  rw [pc_frame h (by rw [hw]; simp) ha hload hfinish]
  exact hw

/-- **The run lemma**: a call that is still going on after `n` compare-exchanges has `n ≤ 2`. -/
theorem attempts_le [Fintype W] {w : W} {b k : ℕ} {second : Bool} {l : List (QAct W T)}
    {s1 : Queue W T} (h : (machine cfg).Reachable s) (hw : s.pc w = .done b k second)
    (hrun : (machine cfg).run s l = some s1)
    (hstay : (machine cfg).All (fun _ _ s' => ∃ k second, s'.pc w = .done b k second) s l) :
    l.countP (isWork w) + attempt k second ≤ 2 := by
  induction l generalizing s k second with
  | nil =>
    have hp := patient_of_reachable h w b k second hw
    unfold attempt
    rcases hp with rfl | ⟨rfl, rfl, _⟩
    · cases second <;> simp
    · simp
  | cons a l ih =>
    rw [Machine.run_cons] at hrun
    obtain ⟨s2, h2, hrun⟩ := Option.bind_eq_some_iff.mp hrun
    obtain ⟨⟨k', second', hw'⟩, hstay⟩ := hstay s2 h2
    have hrest := ih (.step h trivial h2) hw' hrun hstay
    rw [List.countP_cons]
    by_cases ha : a = .work w
    · subst ha
      have hcount : attempt k' second' = attempt k second + 1 := by
        obtain ⟨s3, h3, _, hd⟩ : ∃ s', workStep cfg s w = some s' ∧ s'.alive = s.alive ∧
            Decision s s' w b k second :=
          decision_of_workStep (owned_of_reachable h) (patient_of_reachable h) hw
        have hs : s3 = s2 := by
          change (if s.alive w then workStep cfg s w else none) = some s2 at h2
          split at h2
          · rw [h3] at h2
            exact Option.some_inj.mp h2
          · cases h2
        subst hs
        cases hd with
        | goAgain hf hf' hw1 => rw [hw'] at hw1; cases hw1
        | noMark hf hs h0 hw1 => rw [hw'] at hw1; cases hw1; rfl
        | done hf hf' hw1 => rw [hw'] at hw1; cases hw1
        | marked hf hs h0 hw1 => rw [hw'] at hw1; cases hw1; subst h0; rfl
      rw [show isWork w (.work w : QAct W T) = true from decide_eq_true rfl, if_pos rfl]
      omega
    · have he : k' = k ∧ second' = second := by
        rw [done_of_step h2 hw ha] at hw'
        cases hw'
        exact ⟨rfl, rfl⟩
      have hnot : isWork w a = false := by
        cases a with
        | work w1 => exact decide_eq_false (fun e => ha (by rw [e]))
        | _ => rfl
      rw [he.1, he.2] at hrest
      rw [hnot]
      simpa using hrest

/-- **`done_with_bucket` decides within its two iterations**: its next compare-exchange never panics
and is one of the four decisions, nobody else moves the call or takes the slot, and a run in which
it has not returned contains at most two of its compare-exchanges. -/
theorem done_with_bucket_decides [Fintype W] (cfg : Cfg) (s : Queue W T)
    (h : (machine cfg).Reachable s) (w : W) (b k : ℕ) (second : Bool)
    (hw : s.pc w = .done b k second) :
    (∃ s', workStep cfg s w = some s' ∧ s'.alive = s.alive ∧ Decision s s' w b k second) ∧
    (∀ a s', step cfg s a = some s' → a ≠ .work w →
      s'.pc w = .done b k second ∧ s'.Owned ∧ s'.Owns w b) ∧
    (∀ l s1, (machine cfg).run s l = some s1 →
      (machine cfg).All (fun _ _ s' => ∃ k second, s'.pc w = .done b k second) s l →
      l.countP (isWork w) ≤ 2) := by
  refine ⟨decision_of_workStep (owned_of_reachable h) (patient_of_reachable h) hw, ?_, ?_⟩
  · intro a s' he ha
    have hw' := done_of_step he hw ha
    exact ⟨hw', (owned_of_reachable h).step (.of_step he), by rw [Owns, hw']; rfl⟩
  · intro l s1 hrun hstay
    have := attempts_le h hw hrun hstay
    omega

/-- A mark arrives between the two compare-exchanges. -/
def deciding : List (QAct (Fin 1) (Fin 1)) :=
  [.start .accept ⟨0, 0⟩, .call .accept none, .call .accept none, .call .accept none,
    .call .accept none, .work 0, .work 0, .work 0, .load 0, .work 0, .load 0, .work 0,
    .start (.other 0) ⟨0, 0⟩, .call (.other 0) none, .call (.other 0) none, .call (.other 0) none]

theorem done_with_bucket_decides_marked :
    ∃ s', workStep cfgOne ((machine cfgOne).final deciding) 0 = some s' ∧
      Decision ((machine cfgOne).final deciding) s' 0 0 0 true := by
  obtain ⟨s', h1, _, h2⟩ := (done_with_bucket_decides cfgOne ((machine cfgOne).final deciding)
    (Machine.reachable_final _ _) 0 0 0 true (by decide)).1
  exact ⟨s', h1, h2⟩

end
end Queue
end Nea
