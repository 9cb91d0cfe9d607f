import Mathlib.Logic.Basic

/-!
# A mutex that can be poisoned

The value, whether somebody holds the guard, and whether a holder panicked.  `lock` and `try_lock`
fail on a poisoned mutex; `try_lock` also fails on a held one.
-/

structure Mutex (α : Type*) where
  val : α
  locked : Bool := false
  poisoned : Bool := false
deriving DecidableEq

namespace Mutex
variable {α : Type*}

/-- `try_lock` hands out the guard -/
def free (m : Mutex α) : Bool := !m.locked && !m.poisoned

def lock (m : Mutex α) : Mutex α := { m with locked := true }

/-- the guard is dropped -/
def unlock (m : Mutex α) : Mutex α := { m with locked := false }

/-- the guard is dropped by a panic -/
def unwind (m : Mutex α) : Mutex α := { m with locked := false, poisoned := true }

/-- the guard is dropped, while a panic is in progress or not -/
def leave (m : Mutex α) : Bool → Mutex α
  | true => m.unwind
  | false => m.unlock

def clearPoison (m : Mutex α) : Mutex α := { m with poisoned := false }

/-- the holder of the guard writes -/
def set (m : Mutex α) (a : α) : Mutex α := { m with val := a }

/-- the value seen through `f` -/
def map {β : Type*} (f : α → β) (m : Mutex α) : Mutex β where
  val := f m.val
  locked := m.locked
  poisoned := m.poisoned

@[simp] theorem val_unwind (m : Mutex α) : m.unwind.val = m.val := rfl
@[simp] theorem val_leave (m : Mutex α) (p : Bool) : (m.leave p).val = m.val := by cases p <;> rfl
@[simp] theorem locked_leave (m : Mutex α) (p : Bool) : (m.leave p).locked = false := by
  cases p <;> rfl
theorem poisoned_leave (m : Mutex α) (p : Bool) : (m.leave p).poisoned = (p || m.poisoned) := by
  cases p <;> rfl
@[simp] theorem val_map {β : Type*} (f : α → β) (m : Mutex α) : (m.map f).val = f m.val := rfl
theorem leave_map {β : Type*} (f : α → β) (m : Mutex α) (p : Bool) :
    (m.map f).leave p = (m.leave p).map f := by
  cases p <;> rfl
theorem free_map {β : Type*} (f : α → β) (m : Mutex α) : (m.map f).free = m.free := rfl
theorem locked_map {β : Type*} (f : α → β) (m : Mutex α) : (m.map f).locked = m.locked := rfl
theorem poisoned_map {β : Type*} (f : α → β) (m : Mutex α) : (m.map f).poisoned = m.poisoned := rfl
@[simp] theorem val_set (m : Mutex α) (a : α) : (m.set a).val = a := rfl

theorem free_eq_true {m : Mutex α} : m.free = true ↔ m.locked = false ∧ m.poisoned = false := by
  simp [free]

end Mutex
