import Nea.Allocator.System
import Nea.Lib.Progress
import Nea.Lib.Tally
import Mathlib.Data.Fintype.Card

/-!
# The rounds of the allocator (`try_alloc_help` of `shared/src/allocator.rs`)

`fetch_update` goes round again when `remaining` is not what the closure was run on.  A call that
goes round again does so because another one was answered, or because a bucket was cleared, in
between; so the rounds are paid for, by the calls and by the clears.

* `credit`, `credits`   the rounds that are paid for: what an action adds and what a round takes;
* `credits_step`        every round takes one;
* `rounds_le`           so the rounds of all calls are bounded by the calls and the clears.
-/

set_option linter.unusedSectionVars false

namespace Nea
namespace Allocator

section
variable {T : Type}

/-- an access to `remaining`, other than a swap that fails without a reason -/
def goesRound (s : State T) : Act T → Bool
  | .fetchUpdate t spurious => !(spurious && (s.calls t).any (fun c => decide (c.pc ≠ .load)))
  | _ => false

def begins : Act T → Bool
  | .tryAllocateInInitialBucket _ _ | .tryAllocateInBucket _ _ _ => true
  | _ => false

def clears : Act T → Bool
  | .clearBucket _ => true
  | _ => false

/-- the rounds that a call has paid for: one more when its swap is bound to fail -/
def credit (n : ℕ) (remaining : Arena → ℕ) : Option Call → ℕ
  | none => 0
  | some c =>
    match c.pc with
    | .load => n + 2
    | .swap prev _ => if remaining c.arena = prev then n + 1 else n + 2

theorem credit_le (n : ℕ) (r : Arena → ℕ) (o : Option Call) : credit n r o ≤ n + 2 := by
  unfold credit
  split
  · exact Nat.zero_le _
  · split
    · exact Nat.le_refl _
    · split
      · exact Nat.le_succ _
      · exact Nat.le_refl _

/-- whatever happens to the arenas, a call pays for one more round at most -/
theorem credit_moved (n : ℕ) (r r' : Arena → ℕ) (o : Option Call) :
    credit n r' o ≤ credit n r o + 1 := by
  cases o with
  | none => exact Nat.zero_le _
  | some c =>
    unfold credit
    dsimp only
    cases c.pc with
    | load => exact Nat.le_succ _
    | swap prev next =>
      dsimp only
      split <;> split <;> omega

/-- What was just computed is computed from what is there. -/
theorem credit_attempt (n : ℕ) (r : Arena → ℕ) (c : Call) :
    credit n r (c.attempt (r c.arena)) ≤ n + 1 := by
  cases hc : c.attempt (r c.arena) with
  | none => exact Nat.zero_le _
  | some c' =>
    obtain ⟨next, -, rfl⟩ := Option.map_eq_some_iff.mp hc
    exact Nat.le_of_eq (if_pos rfl)

variable [DecidableEq T] [Fintype T] {m : Space} {s s' : State T} {t : T} {c : Call}

/-- the rounds that all calls have paid for -/
def credits (s : State T) : ℕ :=
  tally (credit (Fintype.card T) s.remaining) Finset.univ s.calls

/-- what an action pays for: a call its own rounds, a clear one round for each thread -/
def pays : Act T → ℕ
  | .tryAllocateInInitialBucket _ _ | .tryAllocateInBucket _ _ _ => Fintype.card T + 2
  | .fetchUpdate _ _ => 0
  | .clearBucket _ => Fintype.card T

theorem tally_moved (n : ℕ) (r r' : Arena → ℕ) (f : T → Option Call) :
    tally (credit n r') Finset.univ f ≤ tally (credit n r) Finset.univ f + Fintype.card T := by
  calc tally (credit n r') Finset.univ f
      ≤ ∑ t : T, (credit n r (f t) + 1) := Finset.sum_le_sum (fun t _ => credit_moved n r r' (f t))
    _ = tally (credit n r) Finset.univ f + Fintype.card T := by
      rw [Finset.sum_add_distrib, ← Finset.card_eq_sum_ones]
      rfl

theorem credits_setCall (s : State T) (t : T) (o : Option Call) :
    credits (s.setCall t o) + credit (Fintype.card T) s.remaining (s.calls t) =
      credits s + credit (Fintype.card T) s.remaining o :=
  tally_update _ s.calls (Finset.mem_univ t) o

theorem credits_enter (ht : s.calls t = none) (a : Arena) (l : Layout) :
    credits (s.enter t a l) ≤ credits s + (Fintype.card T + 2) := by
  unfold State.enter
  split
  · exact Nat.le_add_right _ _
  · have hset := credits_setCall s t (some ⟨a, l, 0, .load⟩)
    have hle := credit_le (Fintype.card T) s.remaining (some ⟨a, l, 0, .load⟩)
    rw [ht] at hset
    have h0 : credit (Fintype.card T) s.remaining none = 0 := rfl
    omega

/-- going round again costs one round, unless the swap failed without a reason -/
theorem credits_again (hc : s.calls t = some c)
    (hpay : credit (Fintype.card T) s.remaining (some c) = Fintype.card T + 2) :
    credits (s.setCall t (c.attempt (s.remaining c.arena))) + 1 ≤ credits s := by
  have hset := credits_setCall s t (c.attempt (s.remaining c.arena))
  have hle := credit_attempt (Fintype.card T) s.remaining c
  rw [hc, hpay] at hset
  omega

/-- The winner leaves more rounds than it makes the others go. -/
theorem credits_win (hc : s.calls t = some c) {next : ℕ}
    (hpay : credit (Fintype.card T) s.remaining (some c) = Fintype.card T + 1) :
    credits (s.win m t c next) + 1 ≤ credits s := by
  have hset := credits_setCall s t none
  have hmoved := tally_moved (Fintype.card T) s.remaining
    (Function.update s.remaining c.arena next) (Function.update s.calls t none)
  rw [hc, hpay] at hset
  have h0 : credit (Fintype.card T) s.remaining none = 0 := rfl
  have hwin : credits (s.win m t c next) ≤ credits (s.setCall t none) + Fintype.card T := hmoved
  omega

theorem credits_callStep (hc : s.calls t = some c) (spurious : Bool) :
    credits (s.callStep m t spurious c) + (goesRound s (.fetchUpdate t spurious)).toNat ≤
      credits s := by
  have hone : (goesRound s (.fetchUpdate t spurious)).toNat ≤ 1 := Bool.toNat_le _
  unfold State.callStep
  cases hpc : c.pc with
  | load =>
    have hpay : credit (Fintype.card T) s.remaining (some c) = Fintype.card T + 2 := by
      unfold credit
      dsimp only
      rw [hpc]
    have hagain := credits_again hc hpay
    exact Nat.le_trans (Nat.add_le_add_left hone _) hagain
  | swap prev next =>
    have hif : credit (Fintype.card T) s.remaining (some c) =
        if s.remaining c.arena = prev then Fintype.card T + 1 else Fintype.card T + 2 := by
      unfold credit
      dsimp only
      rw [hpc]
    dsimp only
    split
    · next hw =>
      have hwin : credits (s.win m t c next) + 1 ≤ credits s :=
        credits_win hc (hif.trans (if_pos hw.2))
      exact Nat.le_trans (Nat.add_le_add_left hone _) hwin
    · next hw =>
      by_cases hp : s.remaining c.arena = prev
      · -- the swap has failed without a reason
        have hs : spurious = true := by
          cases spurious with
          | true => rfl
          | false => exact absurd ⟨rfl, hp⟩ hw
        subst hs
        have hset := credits_setCall s t (c.attempt (s.remaining c.arena))
        have hle := credit_attempt (Fintype.card T) s.remaining c
        rw [hc, hif, if_pos hp] at hset
        have hnot : goesRound s (.fetchUpdate t true) = false := by
          show (!(true && (s.calls t).any (fun c => decide (c.pc ≠ .load)))) = false
          rw [hc]
          show (!(true && decide (c.pc ≠ .load))) = false
          rw [hpc]
          rfl
        rw [hnot]
        show credits _ + 0 ≤ _
        omega
      · have hagain := credits_again hc (hif.trans (if_neg hp))
        exact Nat.le_trans (Nat.add_le_add_left hone _) hagain

theorem credits_step {a : Act T} (hs : s.step m a = some s') :
    credits s' + (goesRound s a).toNat ≤ credits s + pays a := by
  cases a with
  | tryAllocateInInitialBucket t l =>
    simp only [State.step] at hs
    split at hs
    · next ht => cases hs; exact credits_enter ht _ _
    · cases hs
  | tryAllocateInBucket t l b =>
    simp only [State.step] at hs
    split at hs
    · next ht =>
      split at hs
      · cases hs; exact credits_enter ht _ _
      · cases hs; exact Nat.le_add_right _ _
    · cases hs
  | fetchUpdate t spurious =>
    obtain ⟨c, hc, rfl⟩ := Option.map_eq_some_iff.mp hs
    exact credits_callStep hc spurious
  | clearBucket b =>
    simp only [State.step] at hs
    split at hs
    · cases hs
      exact tally_moved _ _ _ _
    · cases hs

theorem sum_pays (l : List (Act T)) : (l.map pays).sum =
    (Fintype.card T + 2) * l.countP begins + Fintype.card T * l.countP clears := by
  induction l with
  | nil => rfl
  | cons a l ih =>
    rw [List.map_cons, List.sum_cons, ih, List.countP_cons, List.countP_cons]
    cases a with
    | tryAllocateInInitialBucket t r =>
      show Fintype.card T + 2 + _ = (Fintype.card T + 2) * (_ + 1) + Fintype.card T * (_ + 0)
      simp only [Nat.mul_succ, Nat.add_zero]
      omega
    | tryAllocateInBucket t r b =>
      show Fintype.card T + 2 + _ = (Fintype.card T + 2) * (_ + 1) + Fintype.card T * (_ + 0)
      simp only [Nat.mul_succ, Nat.add_zero]
      omega
    | fetchUpdate t spurious => exact Nat.zero_add _
    | clearBucket b =>
      show Fintype.card T + _ = (Fintype.card T + 2) * (_ + 0) + Fintype.card T * (_ + 1)
      simp only [Nat.mul_succ, Nat.add_zero]
      omega

/-- **No run goes round without an answer** (lock-freedom): with `n` threads, the rounds of all
calls are `n + 2` for each call and `n` for each clear at most. -/
theorem rounds_le {l : List (Act T)} (hr : (machine m).run (machine m).init l = some s) :
    (machine m).spent goesRound (machine m).init l ≤
      (Fintype.card T + 2) * l.countP begins + Fintype.card T * l.countP clears := by
  have hkeep (s : State T) (a : Act T) (s' : State T) (_ : True) (_ : True)
      (_ : (machine m).step s a = some s') : True := trivial
  have hrank (s : State T) (a : Act T) (s' : State T) (_ : True) (_ : True)
      (hs : (machine m).step s a = some s') :
      credits s' + (goesRound s a).toNat ≤ credits s + pays a := credits_step hs
  have hle := Machine.spent_le_sum hkeep hrank trivial (fun _ _ => trivial) hr
  have h0 : credits (machine (T := T) m).init = 0 := tally_eq_zero.mpr (fun _ _ => rfl)
  rw [sum_pays, h0] at hle
  omega

end

/-- Two threads race for bucket 0; the loser goes round again. -/
def raceOfTwo (l l' : Layout) : List (Act Bool) :=
  [.tryAllocateInBucket false l 0, .tryAllocateInBucket true l' 0, .fetchUpdate false false,
    .fetchUpdate true false, .fetchUpdate false false, .fetchUpdate true false,
    .fetchUpdate true false]

theorem rounds_le_race : (machine spaceTwo).spent goesRound (machine spaceTwo).init
      (raceOfTwo ⟨100, 8, 3, rfl⟩ ⟨24, 16, 4, rfl⟩) ≤
    (Fintype.card Bool + 2) * (raceOfTwo ⟨100, 8, 3, rfl⟩ ⟨24, 16, 4, rfl⟩).countP begins +
      Fintype.card Bool * (raceOfTwo ⟨100, 8, 3, rfl⟩ ⟨24, 16, 4, rfl⟩).countP clears := by
  have hr : ((machine spaceTwo).run (machine spaceTwo).init
      (raceOfTwo ⟨100, 8, 3, rfl⟩ ⟨24, 16, 4, rfl⟩)).isSome = true := by decide
  obtain ⟨s, hs⟩ := Option.isSome_iff_exists.mp hr
  exact rounds_le hs

end Allocator
end Nea
