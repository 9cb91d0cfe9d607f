import Mathlib.Algebra.Order.BigOperators.Group.Finset

/-!
# Tallies: weighted counts of a family

`tally w s f = ∑ i ∈ s, w (f i)` counts how many members of the family `f` are in a state of
interest, each with its weight.  One member changes at a time, so the only rules needed are
`tally_update` (the member is counted) and `tally_update_of_notMem` (it is not).
-/

section
variable {ι α : Type*}

/-- weighted count of the members of `f` over `s` -/
def tally (w : α → ℕ) (s : Finset ι) (f : ι → α) : ℕ := ∑ i ∈ s, w (f i)

theorem tally_congr {w : α → ℕ} {s : Finset ι} {f g : ι → α} (h : ∀ i ∈ s, w (f i) = w (g i)) :
    tally w s f = tally w s g := Finset.sum_congr rfl h

theorem tally_eq_zero {w : α → ℕ} {s : Finset ι} {f : ι → α} :
    tally w s f = 0 ↔ ∀ i ∈ s, w (f i) = 0 := Finset.sum_eq_zero_iff

theorem le_tally (w : α → ℕ) {s : Finset ι} (f : ι → α) {i : ι} (hi : i ∈ s) :
    w (f i) ≤ tally w s f :=
  Finset.single_le_sum (f := fun j => w (f j)) (fun _ _ => Nat.zero_le _) hi

/-- A bound for each member bounds the tally. -/
theorem tally_le {w : α → ℕ} {s : Finset ι} {f : ι → α} {n : ℕ} (h : ∀ i ∈ s, w (f i) ≤ n) :
    tally w s f ≤ s.card * n := Finset.sum_le_card_nsmul s _ n h

variable [DecidableEq ι]

/-- **One member changes**: its old weight goes out, its new weight comes in. -/
theorem tally_update (w : α → ℕ) {s : Finset ι} (f : ι → α) {i : ι} (hi : i ∈ s) (a : α) :
    tally w s (Function.update f i a) + w (f i) = tally w s f + w a := by
  unfold tally
  rw [← Finset.sum_erase_add s _ hi, ← Finset.sum_erase_add s (fun j => w (f j)) hi,
    Function.update_self]
  have h : ∑ j ∈ s.erase i, w (Function.update f i a j) = ∑ j ∈ s.erase i, w (f j) :=
    Finset.sum_congr rfl (fun j hj => by rw [Function.update_of_ne (Finset.ne_of_mem_erase hj)])
  rw [h]
  omega

theorem tally_update_of_notMem (w : α → ℕ) {s : Finset ι} (f : ι → α) {i : ι} (hi : i ∉ s)
    (a : α) : tally w s (Function.update f i a) = tally w s f :=
  tally_congr (fun j hj => by
    have hne : j ≠ i := fun e => hi (e ▸ hj)
    rw [Function.update_of_ne hne])

end
