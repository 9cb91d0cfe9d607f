import Mathlib.Algebra.GroupWithZero.Nat
import Mathlib.Logic.Basic
import Mathlib.Data.List.Basic

/-!
# Machines: states, actions, runs

A `Machine σ α` has an initial state and a partial step function; an action that is not enabled
has no successor.  Everything about interleavings is stated with it:

* `Machine.run`       the state after a list of actions (none if one of them is not enabled);
* `Machine.Reach ok`  the states reached by runs all of whose steps meet `ok`;
* `Machine.All Q`     every step of a run meets `Q`;
* `Reach.invariant`   the induction rule of `Reach`;
* `Reach.simulate`    a state map that sends every step to a step or to no step at all sends
                      reachable states to reachable states;
* `Machine.all_iff`   the rule for claims about every step of a run;
* `Machine.watch`     the machine with a history variable, which has the same runs.
-/

/-- The literal `0 : Fin 1` names the thread in a run of a machine with one thread. -/
instance Machine.neZero_one : NeZero (1 : ℕ) := ⟨Nat.one_ne_zero⟩

/-- an initial state and a partial step function -/
structure Machine (σ α : Type*) where
  init : σ
  step : σ → α → Option σ

namespace Machine
variable {σ α τ β : Type*}

/-- the state after the actions of a list -/
def run (m : Machine σ α) : σ → List α → Option σ
  | s, [] => some s
  | s, a :: l => (m.step s a).bind (fun s' => m.run s' l)

/-- the state after the actions of a list, the initial state if they cannot all be taken -/
def final (m : Machine σ α) (l : List α) : σ := (m.run m.init l).getD m.init

/-- the states reached by runs all of whose steps meet `ok` -/
inductive Reach (m : Machine σ α) (ok : σ → α → Prop) : σ → Prop where
  | init : Reach m ok m.init
  | step {s s' : σ} {a : α} : Reach m ok s → ok s a → m.step s a = some s' → Reach m ok s'

/-- the states reached by any run -/
abbrev Reachable (m : Machine σ α) : σ → Prop := m.Reach (fun _ _ => True)

/-- every step of the run `l` from `s` meets `Q` -/
def All (m : Machine σ α) (Q : σ → α → σ → Prop) : σ → List α → Prop
  | _, [] => True
  | s, a :: l => ∀ s', m.step s a = some s' → Q s a s' ∧ m.All Q s' l

theorem all_of_forall {m : Machine σ α} {Q : σ → α → σ → Prop} (h : ∀ s a s', Q s a s') (s : σ)
    (l : List α) : m.All Q s l := by
  induction l generalizing s with
  | nil => trivial
  | cons a l ih => exact fun s' _ => ⟨h s a s', ih s'⟩

instance All.decidable (m : Machine σ α) {Q : σ → α → σ → Prop} [∀ s a s', Decidable (Q s a s')] :
    ∀ s l, Decidable (m.All Q s l)
  | _, [] => isTrue trivial
  | s, a :: l =>
    match h : m.step s a with
    | none => isTrue (fun s' he => by rw [h] at he; cases he)
    | some s1 =>
      have := All.decidable m (Q := Q) s1 l
      decidable_of_iff (Q s a s1 ∧ m.All Q s1 l)
        ⟨fun hq s' he => by rw [h] at he; cases he; exact hq, fun hq => hq s1 h⟩

theorem all_cons {m : Machine σ α} {Q : σ → α → σ → Prop} {s s' : σ} {a : α}
    (h : m.step s a = some s') (l : List α) : m.All Q s (a :: l) ↔ Q s a s' ∧ m.All Q s' l := by
  refine ⟨fun hq => hq s' h, fun hq s1 h1 => ?_⟩
  rw [h] at h1
  cases h1
  exact hq

theorem run_cons (m : Machine σ α) (s : σ) (a : α) (l : List α) :
    m.run s (a :: l) = (m.step s a).bind (fun s' => m.run s' l) := rfl

theorem run_append (m : Machine σ α) (s : σ) (l l' : List α) :
    m.run s (l ++ l') = (m.run s l).bind (fun s' => m.run s' l') := by
  induction l generalizing s with
  | nil => rfl
  | cons a l ih =>
    rw [List.cons_append, run_cons, run_cons, Option.bind_assoc]
    exact congrArg _ (funext ih)

/-- The second half of a run starts where the first ends. -/
theorem run_final {m : Machine σ α} {l l' : List α} (h : (m.run m.init (l ++ l')).isSome = true) :
    m.run (m.final l) l' = some (m.final (l ++ l')) := by
  unfold final
  rw [run_append] at h ⊢
  cases hl : m.run m.init l with
  | none => rw [hl] at h; cases h
  | some s =>
    rw [hl] at h
    exact (Option.some_get h).symm.trans (congrArg some (Option.get_eq_getD _))

section Rules
variable {m : Machine σ α} {ok ok' : σ → α → Prop}

/-- **The induction rule**: an invariant of the initial state and of every admitted step. -/
theorem Reach.invariant {I : σ → Prop} (h0 : I m.init)
    (hs : ∀ s a s', m.Reach ok s → I s → ok s a → m.step s a = some s' → I s')
    {s : σ} (h : m.Reach ok s) : I s := by
  induction h with
  | init => exact h0
  | step hr hok he ih => exact hs _ _ _ hr ih hok he

theorem Reach.mono (himp : ∀ s a, m.Reach ok s → ok s a → ok' s a) {s : σ} (h : m.Reach ok s) :
    m.Reach ok' s := by
  induction h with
  | init => exact .init
  | step hr hok he ih => exact .step ih (himp _ _ hr hok) he

theorem Reach.reachable {s : σ} (h : m.Reach ok s) : m.Reachable s :=
  h.mono (fun _ _ _ _ => trivial)

/-- **The simulation rule**: `f` sends a step to a step or leaves the image where it is. -/
theorem Reach.simulate {m' : Machine τ β} (f : σ → τ) (h0 : f m.init = m'.init)
    (hs : ∀ s a s', m.Reach ok s → m.step s a = some s' →
      f s' = f s ∨ ∃ b, m'.step (f s) b = some (f s'))
    {s : σ} (h : m.Reach ok s) : m'.Reachable (f s) := by
  induction h with
  | init => rw [h0]; exact .init
  | step hr hok he ih =>
    rcases hs _ _ _ hr he with h1 | ⟨b, h1⟩
    · rw [h1]; exact ih
    · exact .step ih trivial h1

theorem Reach.run {s s' : σ} {l : List α} (h : m.Reach ok s) (hr : m.run s l = some s')
    (hok : m.All (fun s a _ => ok s a) s l) : m.Reach ok s' := by
  induction l generalizing s with
  | nil => cases hr; exact h
  | cons a l ih =>
    rw [run_cons] at hr
    obtain ⟨s1, h1, h2⟩ := Option.bind_eq_some_iff.mp hr
    obtain ⟨ho, hl⟩ := hok s1 h1
    exact ih (.step h ho h1) h2 hl

theorem Reach.final {l : List α} (hok : m.All (fun s a _ => ok s a) m.init l) :
    m.Reach ok (m.final l) := by
  unfold Machine.final
  cases h : m.run m.init l with
  | none => exact .init
  | some s => exact Reach.init.run h hok

theorem reachable_final (m : Machine σ α) (l : List α) : m.Reachable (m.final l) := by
  unfold Machine.final
  cases h : m.run m.init l with
  | none => exact .init
  | some s => exact Reach.init.run h (all_of_forall (fun _ _ _ => trivial) _ _)

/-- **The rule for claims about every step.**  If, in the states that runs through `ok` reach, a
step meets `Q` exactly when it is admitted by `ok`, then all steps of a run meet `Q` exactly when
all of them are admitted. -/
theorem all_iff {Q : σ → α → σ → Prop}
    (hs : ∀ s a s', m.Reach ok s → m.step s a = some s' → (Q s a s' ↔ ok s a))
    {s : σ} (h : m.Reach ok s) (l : List α) :
    m.All Q s l ↔ m.All (fun s a _ => ok s a) s l := by
  induction l generalizing s with
  | nil => exact Iff.rfl
  | cons a l ih =>
    constructor
    · intro hq s' he
      have h1 := (hs s a s' h he).mp (hq s' he).1
      exact ⟨h1, (ih (.step h h1 he)).mp (hq s' he).2⟩
    · intro hq s' he
      have h1 := (hq s' he).1
      exact ⟨(hs s a s' h he).mpr h1, (ih (.step h h1 he)).mpr (hq s' he).2⟩

end Rules

/-! ## history variables -/

section Watch
variable {η : Type*} {m : Machine σ α} {h0 : η} {f : σ → α → σ → η → η} {ok : σ → α → Prop}

/-- the machine with a history variable that sees every step and hinders none -/
def watch (m : Machine σ α) (h0 : η) (f : σ → α → σ → η → η) : Machine (σ × η) α where
  init := (m.init, h0)
  step s a := (m.step s.1 a).map (fun s' => (s', f s.1 a s' s.2))

theorem watch_step {s s' : σ × η} {a : α} :
    (m.watch h0 f).step s a = some s' ↔ m.step s.1 a = some s'.1 ∧ s'.2 = f s.1 a s'.1 s.2 := by
  show (m.step s.1 a).map _ = _ ↔ _
  rw [Option.map_eq_some_iff]
  constructor
  · intro ⟨s1, h1, h2⟩
    rw [← h2]
    exact ⟨h1, rfl⟩
  · intro ⟨h1, h2⟩
    exact ⟨s'.1, h1, by rw [← h2]⟩

/-- The history hinders no run. -/
theorem Reach.watch (h0 : η) (f : σ → α → σ → η → η) {s : σ} (h : m.Reach ok s) :
    ∃ x, (m.watch h0 f).Reach (fun s a => ok s.1 a) (s, x) := by
  induction h with
  | init => exact ⟨h0, .init⟩
  | @step s s' a hr hok he ih =>
    obtain ⟨x, hx⟩ := ih
    have hs : (m.watch h0 f).step (s, x) a = some (s', f s a s' x) := watch_step.mpr ⟨he, rfl⟩
    exact ⟨_, .step hx hok hs⟩

/-- A run with its history is a run. -/
theorem Reach.of_watch {ok' : σ × η → α → Prop} (himp : ∀ s a, ok' s a → ok s.1 a) {s : σ × η}
    (h : (m.watch h0 f).Reach ok' s) : m.Reach ok s.1 := by
  induction h with
  | init => exact .init
  | step hr hok he ih => exact .step ih (himp _ _ hok) (watch_step.mp he).1

theorem reachable_of_watch {s : σ × η} (h : (m.watch h0 f).Reachable s) : m.Reachable s.1 :=
  h.of_watch (fun _ _ _ => trivial)

end Watch
end Machine
