import Nea.Lib.Machine

/-!
# Refinement between machines

A machine refines another one along a map of the states when each of its steps is seen as at most
one step of the other.

* `Machine.seen`      what is seen of a run;
* `Machine.Refines`   every step of a reachable state is the step it is seen as;
* `Refines.run`       so every run is the run it is seen as;
* `Refines.reachable`, `Refines.invariant`   what holds of the other machine holds of the images.
-/

namespace Machine
variable {σ α τ β : Type*}

/-- what is seen of the run `l` from `s` -/
def seen (m : Machine σ α) (label : σ → α → Option β) : σ → List α → List β
  | _, [] => []
  | s, a :: l => (label s a).toList ++ (m.step s a).elim [] (fun s' => m.seen label s' l)

/-- `m` refines `m'`: a step that is seen as nothing leaves the image alone, any other is the step
it is seen as -/
structure Refines (m : Machine σ α) (m' : Machine τ β) (f : σ → τ)
    (label : σ → α → Option β) : Prop where
  init : f m.init = m'.init
  step : ∀ s a s', m.Reachable s → m.step s a = some s' →
    m'.run (f s) (label s a).toList = some (f s')

section
variable {m : Machine σ α} {m' : Machine τ β} {f : σ → τ} {label : σ → α → Option β}

theorem run_single (m : Machine σ α) (s : σ) (a : α) : m.run s [a] = m.step s a := by
  show (m.step s a).bind some = _
  cases m.step s a <;> rfl

theorem seen_cons {s s' : σ} {a : α} (h : m.step s a = some s') (l : List α) :
    m.seen label s (a :: l) = (label s a).toList ++ m.seen label s' l := by
  show _ ++ (m.step s a).elim [] _ = _
  rw [h]
  rfl

/-- **The run lemma.** -/
theorem Refines.run (h : m.Refines m' f label) {s s' : σ} {l : List α} (hr : m.Reachable s)
    (he : m.run s l = some s') : m'.run (f s) (m.seen label s l) = some (f s') := by
  induction l generalizing s with
  | nil => cases he; rfl
  | cons a l ih =>
    rw [run_cons] at he
    obtain ⟨s1, h1, h2⟩ := Option.bind_eq_some_iff.mp he
    rw [seen_cons h1, run_append, h.step s a s1 hr h1]
    exact ih (.step hr trivial h1) h2

theorem Refines.reachable (h : m.Refines m' f label) {s : σ} (hr : m.Reachable s) :
    m'.Reachable (f s) := by
  induction hr with
  | init => rw [h.init]; exact .init
  | step hr _ he ih => exact ih.run (h.step _ _ _ hr he) (all_of_forall (fun _ _ _ => trivial) _ _)

/-- What holds in every state of the other machine holds of the images. -/
theorem Refines.invariant (h : m.Refines m' f label) {P : τ → Prop}
    (hP : ∀ t, m'.Reachable t → P t) {s : σ} (hr : m.Reachable s) : P (f s) :=
  hP _ (h.reachable hr)

end
end Machine
