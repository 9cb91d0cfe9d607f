import Mathlib.Order.CompletePartialOrder
import Mathlib.Order.Interval.Set.Disjoint

/-!
# Regions of memory, stacked

A `Region` is an interval of addresses.  An arena that is used from the top down is a stack of
regions: each new one ends where the free part ended before it.

* `Stacked hi lo l`   the regions of `l` (the last one first) lie on top of each other between `lo`
                      and `hi`;
* `Stacked.push`      one more region below;
* `Stacked.within`, `Stacked.pairwise`   every region is inside, and no two share an address.
-/

structure Region where
  start : ℕ
  size : ℕ
deriving DecidableEq

namespace Region

/-- the addresses of a region -/
def bytes (g : Region) : Set ℕ := Set.Ico g.start (g.start + g.size)

theorem disjoint_of_le {g g' : Region} (h : g.start + g.size ≤ g'.start) :
    Disjoint g.bytes g'.bytes :=
  Set.Ico_disjoint_Ico.mpr (le_trans (min_le_left _ _) (le_trans h (le_max_right _ _)))

end Region

inductive Stacked (hi : ℕ) : ℕ → List Region → Prop where
  | nil {lo : ℕ} (h : lo ≤ hi) : Stacked hi lo []
  | cons {lo mid : ℕ} {g : Region} {l : List Region} (hl : Stacked hi mid l)
      (hlo : lo ≤ g.start) (hmid : g.start + g.size ≤ mid) : Stacked hi lo (g :: l)

namespace Stacked
variable {hi lo : ℕ} {l : List Region}

theorem le (h : Stacked hi lo l) : lo ≤ hi := by
  induction h with
  | nil h => exact h
  | cons hl hlo hmid ih => omega

/-- A region that ends where the stack begins. -/
theorem push (h : Stacked hi lo l) {g : Region} (hg : g.start + g.size ≤ lo) :
    Stacked hi g.start (g :: l) := .cons h le_rfl hg

theorem within (h : Stacked hi lo l) {g : Region} (hg : g ∈ l) :
    lo ≤ g.start ∧ g.start + g.size ≤ hi := by
  induction h with
  | nil h => cases hg
  | cons hl hlo hmid ih =>
    rcases List.mem_cons.mp hg with rfl | hg
    · exact ⟨hlo, le_trans hmid hl.le⟩
    · obtain ⟨h1, h2⟩ := ih hg
      exact ⟨by omega, h2⟩

/-- **No two regions of a stack share an address.** -/
theorem pairwise (h : Stacked hi lo l) :
    l.Pairwise (fun g g' => Disjoint g.bytes g'.bytes) := by
  induction h with
  | nil h => exact List.Pairwise.nil
  | cons hl hlo hmid ih =>
    refine List.pairwise_cons.mpr ⟨fun g' hg' => ?_, ih⟩
    exact Region.disjoint_of_le (le_trans hmid (hl.within hg').1)

end Stacked
