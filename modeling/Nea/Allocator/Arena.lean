import Mathlib.Data.Nat.Bitwise
import Mathlib.Tactic.Common

/-!
# Carving an arena (`try_alloc_help` of `shared/src/allocator.rs`)

An arena is used from the top down: `remaining` counts the bytes below the last allocation.  An
allocation subtracts its size and rounds the result down with a mask.

* `carve`             the closure of `try_alloc_help`: the new `remaining`, which is also the offset
                      of the allocation;
* `and_usizeNot`      masking with `!(2^k - 1)` rounds down to a multiple of `2^k`;
* `carve_eq_some`     what an allocation gets: an aligned offset with room for its size below the
                      old `remaining`.
-/

namespace Nea

/-- `std::alloc::Layout`; a power of two as alignment is part of its contract -/
structure Layout where
  size : ℕ
  align : ℕ
  align_pow : ∃ k, align = 2 ^ k

/-- `MAX_SUPPORTED_ALIGN` -/
def maxSupportedAlign : ℕ := 4096

/-- `!x` of a `usize` -/
def usizeNot (x : ℕ) : ℕ := 2^64 - 1 - x

/-- the closure of `try_alloc_help` -/
def carve (l : Layout) (remaining : ℕ) : Option ℕ :=
  if l.size > remaining then none
  else some ((remaining - l.size) &&& usizeNot (l.align - 1))

theorem and_usizeNot {r k : ℕ} (hr : r < 2^64) (hk : k < 64) :
    r &&& usizeNot (2^k - 1) = r / 2^k * 2^k := by
  have hpow : 2^k < 2^64 := Nat.pow_lt_pow_right (by decide) hk
  have hpos : 0 < 2^k := Nat.two_pow_pos k
  have hnot : usizeNot (2^k - 1) = 2^64 - (2^k - 1 + 1) := by unfold usizeNot; omega
  rw [hnot]
  apply Nat.eq_of_testBit_eq
  intro i
  rw [Nat.testBit_and, Nat.testBit_two_pow_sub_succ (by omega), Nat.testBit_two_pow_sub_one,
    Nat.testBit_mul_two_pow, Nat.testBit_div_two_pow]
  by_cases hi : i < 64
  · by_cases hik : i < k
    · simp [hik]
    · have e : i - k + k = i := by omega
      simp [hik, hi, e]
      omega
  · have h0 : r.testBit i = false :=
      Nat.testBit_lt_two_pow (lt_of_lt_of_le hr (Nat.pow_le_pow_right (by decide) (by omega)))
    have e : i - k + k = i := by omega
    simp [h0, e]

theorem Layout.align_pos (l : Layout) : 0 < l.align := by
  obtain ⟨k, hk⟩ := l.align_pow
  rw [hk]
  exact Nat.two_pow_pos k

/-- The mask of `carve` rounds what is left down to the alignment. -/
theorem carve_round {l : Layout} {r a : ℕ} (hr : r < 2^64) (hl : l.align ≤ maxSupportedAlign)
    (h : carve l r = some a) : l.size ≤ r ∧ a = (r - l.size) / l.align * l.align := by
  obtain ⟨k, hk⟩ := l.align_pow
  -- an alignment that is supported is below the width of a word
  have hk64 : k < 64 := by
    by_contra hge
    have h1 : 2^64 ≤ 2^k := Nat.pow_le_pow_right (by decide) (by omega)
    rw [hk] at hl
    unfold maxSupportedAlign at hl
    omega
  unfold carve at h
  split at h
  · cases h
  · next hs =>
    refine ⟨by omega, ?_⟩
    cases h
    rw [hk]
    exact and_usizeNot (by omega) hk64

/-- **An allocation gets an aligned offset with its size below the old `remaining`.** -/
theorem carve_eq_some {l : Layout} {r a : ℕ} (hr : r < 2^64) (hl : l.align ≤ maxSupportedAlign)
    (h : carve l r = some a) : l.align ∣ a ∧ a + l.size ≤ r := by
  obtain ⟨hs, ha⟩ := carve_round hr hl h
  refine ⟨⟨(r - l.size) / l.align, by rw [ha, Nat.mul_comm]⟩, ?_⟩
  have := Nat.div_mul_le_self (r - l.size) l.align
  omega

/-- `remaining` never grows by an allocation. -/
theorem carve_le {l : Layout} {r a : ℕ} (h : carve l r = some a) : a ≤ r := by
  unfold carve at h
  split at h
  · cases h
  · cases h
    exact le_trans Nat.and_le_left (Nat.sub_le ..)

end Nea
