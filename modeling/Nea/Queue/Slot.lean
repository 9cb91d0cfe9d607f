import Mathlib.Data.List.Range
import Mathlib.Tactic.Common

/-!
# One slot of the queue (`QueueSlot` of `nea/src/queue.rs`)

The slot of a bucket is two atomics: a byte of flags and a word of job bits.  Each function below
is one atomic operation of the code.

* `tryProcess`, `markEnqueued`, `goAgain`, `release`   the operations on the flags; the last two
                      are the two compare-exchanges of `done_with_bucket`;
* `setJob`, `clearJob`, `trailingZeros`   the operations on the job bits;
* `Flags`             the four values the flags can have.
-/

namespace Nea

/-- `ENQUEUED_BIT` -/
def enqueuedBit : BitVec 8 := 0b0001
/-- `IN_PROGRESS_BIT` -/
def inProgressBit : BitVec 8 := 0b0010

/-- the values the flags can have: any combination of the two bits -/
def Flags (f : BitVec 8) : Prop :=
  f = 0 ∨ f = enqueuedBit ∨ f = inProgressBit ∨ f = enqueuedBit ||| inProgressBit

structure QueueSlotState where
  isEnqueued : Bool
  isInProgress : Bool
deriving DecidableEq

structure QueueSlot where
  flags : BitVec 8
  jobs : BitVec 64
deriving DecidableEq

namespace QueueSlot

def empty : QueueSlot := ⟨0, 0⟩

def setFlags (s : QueueSlot) (f : BitVec 8) : QueueSlot := ⟨f, s.jobs⟩
@[simp] theorem flags_setFlags (s : QueueSlot) (f : BitVec 8) : (s.setFlags f).flags = f := rfl
@[simp] theorem jobs_setFlags (s : QueueSlot) (f : BitVec 8) : (s.setFlags f).jobs = s.jobs := rfl

def isEnqueued (s : QueueSlot) : Bool := s.flags &&& enqueuedBit != 0
def isInProgress (s : QueueSlot) : Bool := s.flags &&& inProgressBit != 0

/-- the job bit of an offset -/
def hasJob (s : QueueSlot) (i : ℕ) : Bool := s.jobs.getLsbD i

/-- `try_process`: the compare-exchange from enqueued to in progress -/
def tryProcess (s : QueueSlot) : Option QueueSlot :=
  if s.flags = enqueuedBit then some (s.setFlags inProgressBit) else none

/-- `mark_enqueued`: the old state and the slot after the `fetch_or` -/
def markEnqueued (s : QueueSlot) : QueueSlotState × QueueSlot :=
  (⟨s.isEnqueued, s.isInProgress⟩, s.setFlags (s.flags ||| enqueuedBit))

/-- first compare-exchange of `done_with_bucket`: consume a mark and stay in progress -/
def goAgain (s : QueueSlot) : Option QueueSlot :=
  if s.flags = enqueuedBit ||| inProgressBit then some (s.setFlags inProgressBit) else none

/-- second compare-exchange of `done_with_bucket`: give the slot up -/
def release (s : QueueSlot) : Option QueueSlot :=
  if s.flags = inProgressBit then some (s.setFlags 0) else none

/-- `jobs.fetch_or(1 << i)`: whether the bit was set, and the slot after it -/
def setJob (s : QueueSlot) (i : ℕ) : Bool × QueueSlot :=
  (s.hasJob i, { s with jobs := s.jobs ||| 1#64 <<< i })

/-- `jobs.fetch_and(!(1 << i))` -/
def clearJob (s : QueueSlot) (i : ℕ) : QueueSlot := { s with jobs := s.jobs &&& ~~~(1#64 <<< i) }

end QueueSlot

/-- `trailing_zeros()` -/
def trailingZeros (v : BitVec 64) : ℕ := ((List.range 64).find? v.getLsbD).getD 64

/-! ## the job bits -/

theorem trailingZeros_spec {v : BitVec 64} (hv : v ≠ 0) :
    v.getLsbD (trailingZeros v) = true ∧ ∀ j < trailingZeros v, v.getLsbD j = false := by
  have hex : ∃ i < 64, v.getLsbD i = true := by
    by_contra hno
    apply hv
    apply BitVec.eq_of_getLsbD_eq
    intro i hi
    have := fun h => hno ⟨i, hi, h⟩
    simpa using this
  cases h : (List.range 64).find? v.getLsbD with
  | none =>
    obtain ⟨i, hi, hb⟩ := hex
    exact absurd hb (by simpa using List.find?_eq_none.mp h i (List.mem_range.mpr hi))
  | some k =>
    have hk : trailingZeros v = k := by unfold trailingZeros; rw [h]; rfl
    rw [hk]
    obtain ⟨h1, h2⟩ := List.find?_range_eq_some.mp h
    exact ⟨h1, fun j hj => by simpa using h2.2 j hj⟩

namespace QueueSlot

theorem hasJob_setJob (s : QueueSlot) {i : ℕ} (hi : i < 64) (j : ℕ) :
    (s.setJob i).2.hasJob j = (s.hasJob j || decide (j = i)) := by
  unfold hasJob setJob
  show (s.jobs ||| 1#64 <<< i).getLsbD j = _
  rw [BitVec.getLsbD_or, BitVec.getLsbD_shiftLeft, BitVec.getLsbD_one]
  congr 1
  by_cases h : j = i
  · subst h; simp [hi]
  · have : ¬ (¬ j < i ∧ j - i = 0) := by omega
    by_cases h1 : j < i
    · simp [h, h1]
    · simp [h, h1]; omega

theorem hasJob_clearJob (s : QueueSlot) (i j : ℕ) :
    (s.clearJob i).hasJob j = (s.hasJob j && decide (j ≠ i)) := by
  unfold hasJob clearJob
  show (s.jobs &&& ~~~(1#64 <<< i)).getLsbD j = _
  rw [BitVec.getLsbD_and, BitVec.getLsbD_not, BitVec.getLsbD_shiftLeft, BitVec.getLsbD_one]
  by_cases hj : j < 64
  · congr 1
    by_cases h : j = i
    · subst h; simp [hj]
    · by_cases h1 : j < i
      · simp [h, h1, hj]
      · simp [h, h1, hj]; omega
  · have h0 : s.jobs.getLsbD j = false := BitVec.getLsbD_of_ge _ _ (by omega)
    simp [h0]

/-! ## the flags -/

theorem flags_zero : Flags 0 := .inl rfl
theorem flags_inProgressBit : Flags inProgressBit := .inr (.inr (.inl rfl))

theorem isInProgress_iff {s : QueueSlot} (h : Flags s.flags) : s.isInProgress = true ↔
    s.flags = inProgressBit ∨ s.flags = enqueuedBit ||| inProgressBit := by
  unfold isInProgress
  rcases h with h | h | h | h <;> rw [h] <;> decide

theorem isEnqueued_iff {s : QueueSlot} (h : Flags s.flags) : s.isEnqueued = true ↔
    s.flags = enqueuedBit ∨ s.flags = enqueuedBit ||| inProgressBit := by
  unfold isEnqueued
  rcases h with h | h | h | h <;> rw [h] <;> decide

section
variable {s s' : QueueSlot}

theorem tryProcess_eq_some : s.tryProcess = some s' ↔
    s.flags = enqueuedBit ∧ s' = s.setFlags inProgressBit := by
  unfold tryProcess
  split <;> simp_all [eq_comm]

theorem goAgain_eq_some : s.goAgain = some s' ↔
    s.flags = enqueuedBit ||| inProgressBit ∧ s' = s.setFlags inProgressBit := by
  unfold goAgain
  split <;> simp_all [eq_comm]

theorem release_eq_some : s.release = some s' ↔
    s.flags = inProgressBit ∧ s' = s.setFlags 0 := by
  unfold release
  split <;> simp_all [eq_comm]

/-- A mark adds the enqueued bit and leaves the other one alone. -/
theorem markEnqueued_flags (h : Flags s.flags) :
    Flags s.markEnqueued.2.flags ∧ s.markEnqueued.2.isEnqueued = true ∧
      s.markEnqueued.2.isInProgress = s.isInProgress := by
  have key : ∀ f, Flags f → Flags (f ||| enqueuedBit) ∧
      (f ||| enqueuedBit) &&& enqueuedBit ≠ 0 ∧
      (f ||| enqueuedBit) &&& inProgressBit = f &&& inProgressBit := by
    unfold Flags
    rintro f (rfl | rfl | rfl | rfl) <;> decide
  obtain ⟨h1, h2, h3⟩ := key s.flags h
  refine ⟨h1, by simpa [isEnqueued, markEnqueued] using h2, ?_⟩
  show ((s.flags ||| enqueuedBit) &&& inProgressBit != 0) = (s.flags &&& inProgressBit != 0)
  rw [h3]

end
end QueueSlot
end Nea
