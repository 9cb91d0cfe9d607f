import Nea.Queue.Jobs
import Nea.Queue.Ownership
import Nea.Queue.Wake

/-!
# Jobs are handed over exactly once

`dequeue` reads the job word and clears a bit of it in a second step, while other threads set bits.
A bit is cleared by the owner of its slot only, and one bit at a time, so what is set and not yet
cleared is what is there.

* `sets`, `clears`    the steps that set a bit and the steps that clear it;
* `hasJob_step`       the bits after a step;
* `Handed`            the history: how often a bit was set and how often it was handed out;
* `handed_once`       the difference is the bit.
-/

set_option linter.unusedSectionVars false

namespace Nea
namespace Queue
variable {W T : Type} [DecidableEq W] [DecidableEq T]

/-- the step is the `fetch_or` of an enqueue call, on bit `i` of slot `b` -/
def sets (s : Queue W T) (a : QAct W T) (b i : ℕ) : Bool :=
  match a with
  | .call t _ =>
    (s.calls t).elim false (fun c => decide (c.pc = .setJob ∧ c.bucket = b ∧ c.offset = i))
  | _ => false

/-- the step is the `fetch_and` of a dequeue call, on bit `i` of slot `b` -/
def clears (s : Queue W T) (a : QAct W T) (b i : ℕ) : Bool :=
  match a with
  | .work w => decide (s.pc w = .dequeued b i)
  | _ => false

/-- how many enqueue calls found a bit clear, how many dequeue calls have cleared it -/
structure Handed where
  sets : ℕ → ℕ → ℕ
  clears : ℕ → ℕ → ℕ

/-- the history goes on with a step -/
def hand (s : Queue W T) (a : QAct W T) (_ : Queue W T) (h : Handed) : Handed where
  sets b i := h.sets b i + (s.sets a b i && !(s.slots b).hasJob i).toNat
  clears b i := h.clears b i + (s.clears a b i).toNat

/-- the queue with the history of its job bits -/
def counting [Fintype W] (cfg : Cfg) : Machine (Queue W T × Handed) (QAct W T) :=
  (machine cfg).watch ⟨fun _ _ => 0, fun _ _ => 0⟩ hand

section
variable {cfg : Cfg} {s s' : Queue W T}

/-! ## the bits after a step -/

theorem hasJob_callStep [Fintype W] {t : Thread W T} {waiter : Option W} {c : Enqueue}
    (ho : c.offset < 64) (h : s.callStep t waiter c = some s') (b i : ℕ) :
    (s'.slots b).hasJob i =
      ((s.slots b).hasJob i || decide (c.pc = .setJob ∧ c.bucket = b ∧ c.offset = i)) := by
  cases hpc : c.pc with
  | setJob =>
    simp only [callStep, hpc] at h
    cases h
    rw [slots_setCall, slots_setSlot]
    by_cases e : b = c.bucket
    · subst e
      rw [Function.update_self, QueueSlot.hasJob_setJob _ ho]
      simp [eq_comm]
    · rw [Function.update_of_ne e]
      simp [Ne.symm e]
  | mark =>
    simp only [callStep, hpc] at h
    cases h
    rw [slots_setCall, slots_setSlot]
    by_cases e : b = c.bucket
    · subst e
      rw [Function.update_self]
      simp [QueueSlot.markEnqueued, QueueSlot.hasJob]
    · rw [Function.update_of_ne e]
      simp
  | wakeOne =>
    have hs : s'.slots = s.slots := by
      simp only [callStep, hpc] at h
      repeat' split at h
      all_goals cases h <;> rfl
    rw [hs]
    simp
  | increment =>
    have hs : s'.slots = s.slots := by
      simp only [callStep, hpc] at h
      split at h <;> cases h <;> rfl
    rw [hs]
    simp
  | revert =>
    have hs : s'.slots = s.slots := by
      simp only [callStep, hpc] at h
      split at h <;> cases h <;> rfl
    rw [hs]
    simp
  | panicked counted =>
    simp only [callStep, hpc] at h
    cases h

/-- A step on the flags leaves the bits alone. -/
theorem hasJob_setFlags {b1 : ℕ} {f : BitVec 8} (b i : ℕ) :
    ((s.setSlot b1 ((s.slots b1).setFlags f)).slots b).hasJob i = (s.slots b).hasJob i := by
  rw [slots_setSlot]
  by_cases e : b = b1
  · subst e
    rw [Function.update_self]
    rfl
  · rw [Function.update_of_ne e]

theorem hasJob_workStep {w : W} (h : workStep cfg s w = some s') (b i : ℕ) :
    (s'.slots b).hasJob i = ((s.slots b).hasJob i && !decide (s.pc w = .dequeued b i)) := by
  cases hpc : s.pc w with
  | dequeued b1 i1 =>
    simp only [workStep, hpc] at h
    cases h
    rw [slots_setPc, slots_setSlot]
    by_cases e : b = b1
    · subst e
      rw [Function.update_self, QueueSlot.hasJob_clearJob]
      simp [eq_comm]
    · rw [Function.update_of_ne e]
      simp [Ne.symm e]
  | waitJobs =>
    simp only [workStep, hpc] at h
    repeat' split at h
    all_goals
      cases h
      simp
  | blocked =>
    simp only [workStep, hpc] at h
    cases h
  | running b1 =>
    simp only [workStep, hpc] at h
    cases h
  | scan j =>
    simp only [workStep, hpc] at h
    repeat' split at h
    · next q hq =>
      cases h
      rw [(QueueSlot.tryProcess_eq_some.mp hq).2, slots_setPc, hasJob_setFlags]
      simp
    all_goals
      cases h
      simp
  | picked b1 =>
    simp only [workStep, hpc] at h
    split at h
    all_goals
      cases h
      simp
  | done b1 k second =>
    cases second with
    | false =>
      simp only [workStep, hpc] at h
      repeat' split at h
      · next q hq =>
        cases h
        rw [(QueueSlot.goAgain_eq_some.mp hq).2, slots_setPc, hasJob_setFlags]
        simp
      all_goals
        cases h
        simp
    | true =>
      simp only [workStep, hpc] at h
      repeat' split at h
      · next q hq =>
        cases h
        rw [(QueueSlot.release_eq_some.mp hq).2, slots_setPc, hasJob_setFlags]
        simp
      all_goals
        cases h
        simp

/-- **The bits after a step**: those that were set and are not cleared, and the one that is set. -/
theorem hasJob_step [Fintype W] {a : QAct W T} (hn : Named cfg s) (h : step cfg s a = some s')
    (b i : ℕ) : (s'.slots b).hasJob i =
      (((s.slots b).hasJob i || s.sets a b i) && !s.clears a b i) := by
  cases a with
  | call t waiter =>
    obtain ⟨c, hc, h⟩ := Option.bind_eq_some_iff.mp h
    rw [hasJob_callStep (hn.calls t c hc).offset_lt h]
    simp [sets, clears, hc]
  | work w =>
    simp only [step] at h
    split at h
    · rw [hasJob_workStep h]
      simp [sets, clears]
    · cases h
  | start t q =>
    simp only [step] at h
    split at h
    · obtain ⟨c, _, rfl⟩ := Option.map_eq_some_iff.mp h
      simp [sets, clears]
    · cases h
  | load w =>
    simp only [step, loadStep] at h
    repeat' split at h
    all_goals cases h <;> simp [sets, clears]
  | spurious w =>
    simp only [step] at h
    split at h <;> cases h
    simp [sets, clears]
  | finish w =>
    simp only [step] at h
    split at h <;> cases h
    simp [sets, clears]
  | die w =>
    cases h
    simp [sets, clears]

/-! ## what is counted -/

/-- A worker that has chosen a bit has found it set. -/
theorem chosen_of_step (hs : QStep cfg s s') {w : W} {b i : ℕ} (hw : s'.pc w = .dequeued b i) :
    s.pc w = .dequeued b i ∨ (s'.slots b).hasJob i = true := by
  have hmove : ∀ (w1 : W) (p : WorkerPc), s'.pc = Function.update s.pc w1 p →
      p ≠ .dequeued b i → s.pc w = .dequeued b i := by
    intro w1 p hp hne
    rw [hp] at hw
    by_cases e : w = w1
    · subst e
      rw [Function.update_self] at hw
      exact absurd hw hne
    · rw [Function.update_of_ne e] at hw
      exact hw
  cases hs with
  | wakeOne t c w1 hc hpc hw1 => exact .inl (hmove w1 _ rfl (by simp))
  | spurious w1 hw1 => exact .inl (hmove w1 _ rfl (by simp))
  | block w1 hw1 hv => exact .inl (hmove w1 _ rfl (by simp))
  | wait w1 hw1 hv => exact .inl (hmove w1 _ rfl (by simp))
  | pick w1 j hw1 hj hf => exact .inl (hmove w1 _ rfl (by simp))
  | skip w1 j hw1 hj hf => exact .inl (hmove w1 _ rfl (by simp))
  | scanned w1 j hw1 hj => exact .inl (hmove w1 _ rfl (by simp))
  | run w1 b1 hw1 hv => exact .inl (hmove w1 _ rfl (by simp))
  | loadNone w1 b1 hw1 hj => exact .inl (hmove w1 _ rfl (by simp))
  | clear w1 b1 i1 hw1 => exact .inl (hmove w1 _ rfl (by simp))
  | finish w1 b1 hw1 => exact .inl (hmove w1 _ rfl (by simp))
  | goAgain w1 b1 k hw1 hf => exact .inl (hmove w1 _ rfl (by simp))
  | tryRelease w1 b1 k hw1 hf => exact .inl (hmove w1 _ rfl (by simp))
  | release w1 b1 k hw1 hf => exact .inl (hmove w1 _ rfl (by simp))
  | retry w1 b1 k hw1 hf hk => exact .inl (hmove w1 _ rfl (by simp))
  | load w1 b1 hw1 hj =>
    rw [pc_setPc] at hw
    by_cases e : w = w1
    · subst e
      rw [Function.update_self] at hw
      cases hw
      exact .inr (trailingZeros_spec hj).1
    · rw [Function.update_of_ne e] at hw
      exact .inl hw
  | _ => exact .inl hw

/-- what is chosen is set, and the counts differ by what is set -/
structure Exact (s : Queue W T) (h : Handed) : Prop where
  chosen : ∀ w b i, s.pc w = .dequeued b i → (s.slots b).hasJob i = true
  count : ∀ b i, h.sets b i = h.clears b i + ((s.slots b).hasJob i).toNat

theorem exact_init : Exact (init : Queue W T) ⟨fun _ _ => 0, fun _ _ => 0⟩ where
  chosen w b i hw := by cases hw
  count b i := by simp [init, QueueSlot.empty, QueueSlot.hasJob]

/-- **One step keeps the counts exact.** -/
theorem Exact.step [Fintype W] {a : QAct W T} {h : Handed} (hn : Named cfg s) (ho : s.Owned)
    (hi : Exact s h) (he : Queue.step cfg s a = some s') : Exact s' (hand s a s' h) := by
  have hbits := hasJob_step hn he
  -- a step clears only the bit that its worker has chosen
  have hclears : ∀ b i, s.clears a b i = true → ∃ w, a = .work w ∧ s.pc w = .dequeued b i := by
    intro b i hc
    unfold clears at hc
    split at hc
    · next w => exact ⟨w, rfl, of_decide_eq_true hc⟩
    · cases hc
  have hboth : ∀ b i, s.clears a b i = true → s.sets a b i = false := by
    intro b i hc
    obtain ⟨w, rfl, _⟩ := hclears b i hc
    rfl
  constructor
  · intro w b i hw
    rcases chosen_of_step (.of_step he) hw with h1 | h1
    · rw [hbits, hi.chosen w b i h1]
      cases hc : s.clears a b i with
      | false => rfl
      | true =>
        -- the owner is at its `fetch_and`, and it is `w`
        exfalso
        obtain ⟨w', rfl, h2⟩ := hclears b i hc
        have e : w' = w := by
          refine ho.unique b w' w ?_ ?_
          · unfold Owns
            rw [h2]
            rfl
          · unfold Owns
            rw [h1]
            rfl
        subst e
        simp only [Queue.step] at he
        split at he
        · simp only [workStep, h2] at he
          cases he
          rw [pc_setPc, Function.update_self] at hw
          cases hw
        · cases he
    · exact h1
  · intro b i
    have hcount := hi.count b i
    show h.sets b i + _ = h.clears b i + _ + _
    rw [hbits]
    cases hc : s.clears a b i with
    | false =>
      cases hj : (s.slots b).hasJob i <;> rw [hj] at hcount <;> cases s.sets a b i <;>
        simp at hcount ⊢ <;> omega
    | true =>
      obtain ⟨w, rfl, h2⟩ := hclears b i hc
      have hj := hi.chosen w b i h2
      rw [hj] at hcount
      rw [hj, hboth b i hc]
      simp at hcount ⊢
      omega

/-- **Jobs are handed over exactly once**: the enqueue calls that found a bit clear minus the dequeue
calls that cleared it are the bit; a dequeue clears the bit it has chosen, which is set, and no
other. -/
theorem handed_once [Fintype W] (cfg : Cfg) (s : Queue W T) (h : Handed)
    (hr : (counting cfg).Reachable (s, h)) :
    (∀ b i, (h.sets b i : ℤ) - h.clears b i = if (s.slots b).hasJob i then 1 else 0) ∧
    (∀ w b i, s.pc w = .dequeued b i → (s.slots b).hasJob i = true ∧
      ∀ s', workStep cfg s w = some s' → (s'.slots b).hasJob i = false) ∧
    (∀ a s', step cfg s a = some s' → ∀ b i, (s.slots b).hasJob i = true →
      (s'.slots b).hasJob i = true ∨ ∃ w, a = .work w ∧ s.pc w = .dequeued b i) := by
  have hr1 : (machine cfg).Reachable s := Machine.reachable_of_watch hr
  have hi : Exact s h := by
    refine hr.invariant (I := fun x => Exact x.1 x.2) exact_init ?_
    intro x a x' hrx hix _ he
    obtain ⟨h1, h2⟩ := Machine.watch_step.mp he
    have hx := Machine.reachable_of_watch hrx
    rw [h2]
    exact hix.step (named_of_reachable hx) (owned_of_reachable hx) h1
  refine ⟨fun b i => ?_, fun w b i hw => ⟨hi.chosen w b i hw, fun s' he => ?_⟩, ?_⟩
  · rw [hi.count b i]
    cases (s.slots b).hasJob i <;> simp
  · rw [hasJob_workStep he, hw]
    simp
  · intro a s' he b i hj
    rw [hasJob_step (named_of_reachable hr1) he, hj]
    cases hc : s.clears a b i with
    | false => exact .inl rfl
    | true =>
      unfold clears at hc
      split at hc
      · next w => exact .inr ⟨w, rfl, of_decide_eq_true hc⟩
      · cases hc

/-- The first job of the first bucket is set, dequeued, and set again before the `fetch_and` of the
second job. -/
def handing : List (QAct (Fin 1) (Fin 1)) :=
  [.start .accept ⟨0, 0⟩, .call .accept none, .call .accept none, .call .accept none,
    .call .accept none, .work 0, .work 0, .work 0, .load 0, .work 0, .start .accept ⟨0, 1⟩,
    .call .accept none, .load 0, .start (.other 0) ⟨0, 0⟩, .call (.other 0) none]

theorem handed_once_handing :
    (((counting cfgOne).final handing).2.sets 0 0 : ℤ) - 1 = 1 := by
  have h := (handed_once cfgOne ((counting cfgOne).final handing).1
    ((counting cfgOne).final handing).2 (Machine.reachable_final _ _)).1 0 0
  rw [show ((counting cfgOne).final handing).2.clears 0 0 = 1 by decide,
    if_pos (by decide)] at h
  exact h

end
end Queue
end Nea
