import Mathlib.Logic.Function.Basic

/-!
# Resources with one holder

Numbered resources (descriptors, handles, pages) are handed from one holder to the next and are
closed in the end.  `Held holds isOpen` says that no two holders have the same resource and that
what somebody has is open; so whoever closes a resource closes his own.

The rules are the ways in which a resource moves: `Held.acquire`, `Held.move`, `Held.forget`,
`Held.release`.
-/

set_option linter.unusedSectionVars false

/-- what is held is open, and has one holder -/
structure Held {η α : Type*} (holds : η → Option α) (isOpen : α → Bool) : Prop where
  isOpen : ∀ h a, holds h = some a → isOpen a = true
  unique : ∀ h h' a, holds h = some a → holds h' = some a → h = h'

namespace Held
variable {η α : Type*} [DecidableEq η] [DecidableEq α] {holds : η → Option α} {isOpen : α → Bool}

theorem empty : Held (fun _ : η => (none : Option α)) isOpen where
  isOpen _ _ h := by cases h
  unique _ _ _ h := by cases h

/-- An open resource that nobody has is given to a holder. -/
theorem give (hh : Held holds isOpen) {a : α} (ho : isOpen a = true)
    (hnot : ∀ h', holds h' ≠ some a) (h : η) :
    Held (Function.update holds h (some a)) isOpen := by
  constructor
  · intro h1 a1 e
    by_cases eh : h1 = h
    · rw [eh, Function.update_self] at e
      exact Option.some_inj.mp e ▸ ho
    · rw [Function.update_of_ne eh] at e
      exact hh.isOpen h1 a1 e
  · intro h1 h2 a1 e1 e2
    by_cases eh1 : h1 = h
    · by_cases eh2 : h2 = h
      · rw [eh1, eh2]
      · rw [eh1, Function.update_self] at e1
        rw [Function.update_of_ne eh2, ← e1] at e2
        exact absurd e2 (hnot h2)
    · rw [Function.update_of_ne eh1] at e1
      by_cases eh2 : h2 = h
      · rw [eh2, Function.update_self] at e2
        rw [← e2] at e1
        exact absurd e1 (hnot h1)
      · rw [Function.update_of_ne eh2] at e2
        exact hh.unique h1 h2 a1 e1 e2

/-- A resource that is not open is opened. -/
theorem acquire (hh : Held holds isOpen) {a : α} (ha : isOpen a = false) (h : η) :
    Held (Function.update holds h (some a)) (Function.update isOpen a true) := by
  have hopen : Held holds (Function.update isOpen a true) := by
    refine ⟨fun h1 a1 e => ?_, hh.unique⟩
    by_cases ea : a1 = a
    · rw [ea, Function.update_self]
    · rw [Function.update_of_ne ea]
      exact hh.isOpen h1 a1 e
  refine hopen.give (Function.update_self a true isOpen) ?_ h
  intro h1 e
  rw [hh.isOpen h1 a e] at ha
  cases ha

theorem holds_of_forget {h h1 : η} {a : α} (e : Function.update holds h none h1 = some a) :
    h1 ≠ h ∧ holds h1 = some a := by
  by_cases eh : h1 = h
  · rw [eh, Function.update_self] at e
    cases e
  · rw [Function.update_of_ne eh] at e
    exact ⟨eh, e⟩

/-- A holder has nothing any more. -/
theorem forget (hh : Held holds isOpen) (h : η) : Held (Function.update holds h none) isOpen :=
  ⟨fun h1 a e => hh.isOpen h1 a (holds_of_forget e).2,
    fun h1 h2 a e1 e2 => hh.unique h1 h2 a (holds_of_forget e1).2 (holds_of_forget e2).2⟩

/-- A holder hands its resource on. -/
theorem move (hh : Held holds isOpen) {h : η} {a : α} (ha : holds h = some a) (h' : η) :
    Held (Function.update (Function.update holds h none) h' (some a)) isOpen := by
  refine (hh.forget h).give (hh.isOpen h a ha) ?_ h'
  intro h1 e
  obtain ⟨hne, h2⟩ := holds_of_forget e
  exact hne (hh.unique h1 h a h2 ha)

/-- A holder closes its resource. -/
theorem release (hh : Held holds isOpen) {h : η} {a : α} (ha : holds h = some a) :
    Held (Function.update holds h none) (Function.update isOpen a false) := by
  refine ⟨fun h1 a1 e => ?_, (hh.forget h).unique⟩
  obtain ⟨hne, h2⟩ := holds_of_forget e
  have ea : a1 ≠ a := by
    rintro rfl
    exact hne (hh.unique h1 h a1 h2 ha)
  rw [Function.update_of_ne ea]
  exact hh.isOpen h1 a1 h2

end Held
