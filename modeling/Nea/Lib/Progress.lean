import Nea.Lib.Machine

/-!
# Runs that spend a rank

A rank that no step raises bounds the steps that lower it, in every run; and a goal is within reach
if some run lowers the rank whenever the goal is not met.

* `Machine.spent`     how many steps of a run are of a kind;
* `Machine.spent_le`  a rank that each step of the kind lowers, and no step raises, bounds them;
* `Machine.length_le` so a rank that every step lowers bounds the run;
* `Machine.spent_le_sum`  a rank that some actions raise bounds the spending by what those add;
* `Machine.Leads`     a run of admitted actions from one state to another;
* `Machine.exists_leads`   the rule for goals within reach.
-/

namespace Machine
variable {σ α : Type*}

/-- how many steps of the run `l` from `s` are of kind `p` -/
def spent (m : Machine σ α) (p : σ → α → Bool) : σ → List α → ℕ
  | _, [] => 0
  | s, a :: l => (p s a).toNat + (m.step s a).elim 0 (fun s' => m.spent p s' l)

/-- some run whose actions are all admitted leads from `s` to `s'` -/
def Leads (m : Machine σ α) (ok : α → Prop) (s s' : σ) : Prop :=
  ∃ l, (∀ a ∈ l, ok a) ∧ m.run s l = some s'

section
variable {m : Machine σ α} {ok : α → Prop} {I : σ → Prop}

theorem spent_cons {p : σ → α → Bool} {s s' : σ} {a : α} (h : m.step s a = some s') (l : List α) :
    m.spent p s (a :: l) = (p s a).toNat + m.spent p s' l := by
  show _ + (m.step s a).elim 0 _ = _
  rw [h]
  rfl

/-- An invariant of the admitted steps holds at the end of a run of them. -/
theorem run_keeps (hkeep : ∀ s a s', I s → ok a → m.step s a = some s' → I s') {s s' : σ}
    {l : List α} (h : I s) (hl : ∀ a ∈ l, ok a) (hr : m.run s l = some s') : I s' := by
  induction l generalizing s with
  | nil => cases hr; exact h
  | cons a l ih =>
    rw [run_cons] at hr
    obtain ⟨s1, h1, h2⟩ := Option.bind_eq_some_iff.mp hr
    have hI := hkeep s a s1 h (hl a List.mem_cons_self) h1
    exact ih hI (fun a' ha' => hl a' (List.mem_cons_of_mem a ha')) h2

/-- **The rule for bounded work**: what a run spends comes out of the rank. -/
theorem spent_le {p : σ → α → Bool} {rank : σ → ℕ}
    (hkeep : ∀ s a s', I s → ok a → m.step s a = some s' → I s')
    (hrank : ∀ s a s', I s → ok a → m.step s a = some s' → rank s' + (p s a).toNat ≤ rank s)
    {s s' : σ} {l : List α} (h : I s) (hl : ∀ a ∈ l, ok a) (hr : m.run s l = some s') :
    rank s' + m.spent p s l ≤ rank s := by
  induction l generalizing s with
  | nil => cases hr; exact Nat.le_refl _
  | cons a l ih =>
    rw [run_cons] at hr
    obtain ⟨s1, h1, h2⟩ := Option.bind_eq_some_iff.mp hr
    have ha := hl a List.mem_cons_self
    have hstep := hrank s a s1 h ha h1
    have hrest := ih (hkeep s a s1 h ha h1) (fun a' ha' => hl a' (List.mem_cons_of_mem a ha')) h2
    rw [spent_cons h1]
    omega

theorem spent_true {s s' : σ} {l : List α} (hr : m.run s l = some s') :
    m.spent (fun _ _ => true) s l = l.length := by
  induction l generalizing s with
  | nil => rfl
  | cons a l ih =>
    rw [run_cons] at hr
    obtain ⟨s1, h1, h2⟩ := Option.bind_eq_some_iff.mp hr
    rw [spent_cons h1, ih h2, List.length_cons, Nat.add_comm]
    rfl

/-- **The rule for short runs**: no run is longer than the rank it starts from. -/
theorem length_le {rank : σ → ℕ} (hkeep : ∀ s a s', I s → ok a → m.step s a = some s' → I s')
    (hrank : ∀ s a s', I s → ok a → m.step s a = some s' → rank s' < rank s) {s s' : σ}
    {l : List α} (h : I s) (hl : ∀ a ∈ l, ok a) (hr : m.run s l = some s') :
    l.length ≤ rank s := by
  have hle := spent_le (p := fun _ _ => true) hkeep hrank h hl hr
  rw [spent_true hr] at hle
  exact Nat.le_trans (Nat.le_add_left _ _) hle

/-- **The rule for paid work**: what a run spends was in the rank or was added on the way. -/
theorem spent_le_sum {p : σ → α → Bool} {gain : α → ℕ} {rank : σ → ℕ}
    (hkeep : ∀ s a s', I s → ok a → m.step s a = some s' → I s')
    (hrank : ∀ s a s', I s → ok a → m.step s a = some s' →
      rank s' + (p s a).toNat ≤ rank s + gain a) {s s' : σ} {l : List α} (h : I s)
    (hl : ∀ a ∈ l, ok a) (hr : m.run s l = some s') :
    rank s' + m.spent p s l ≤ rank s + (l.map gain).sum := by
  induction l generalizing s with
  | nil => cases hr; exact Nat.le_refl _
  | cons a l ih =>
    rw [run_cons] at hr
    obtain ⟨s1, h1, h2⟩ := Option.bind_eq_some_iff.mp hr
    have ha := hl a List.mem_cons_self
    have hstep := hrank s a s1 h ha h1
    have hrest := ih (hkeep s a s1 h ha h1) (fun a' ha' => hl a' (List.mem_cons_of_mem a ha')) h2
    rw [spent_cons h1, List.map_cons, List.sum_cons]
    omega

theorem Leads.refl (s : σ) : m.Leads ok s s := ⟨[], fun _ h => absurd h List.not_mem_nil, rfl⟩

theorem Leads.head {s s1 s2 : σ} {a : α} (ha : ok a) (h : m.step s a = some s1)
    (hl : m.Leads ok s1 s2) : m.Leads ok s s2 := by
  obtain ⟨l, h1, h2⟩ := hl
  refine ⟨a :: l, fun a' ha' => ?_, ?_⟩
  · rcases List.mem_cons.mp ha' with rfl | ha'
    · exact ha
    · exact h1 a' ha'
  · rw [run_cons, h]
    exact h2

theorem Leads.single {s s' : σ} {a : α} (ha : ok a) (h : m.step s a = some s') : m.Leads ok s s' :=
  .head ha h (.refl s')

theorem Leads.trans {s s1 s2 : σ} (h : m.Leads ok s s1) (h' : m.Leads ok s1 s2) :
    m.Leads ok s s2 := by
  obtain ⟨l, h1, h2⟩ := h
  obtain ⟨l', h1', h2'⟩ := h'
  refine ⟨l ++ l', fun a ha => ?_, ?_⟩
  · rcases List.mem_append.mp ha with ha | ha
    · exact h1 a ha
    · exact h1' a ha
  · rw [run_append, h2]
    exact h2'

theorem Leads.keeps (hkeep : ∀ s a s', I s → ok a → m.step s a = some s' → I s') {s s' : σ}
    (h : m.Leads ok s s') (hI : I s) : I s' := by
  obtain ⟨l, h1, h2⟩ := h
  exact run_keeps hkeep hI h1 h2

/-- **The rule for goals within reach**: as long as the goal is not met, some run lowers the
rank. -/
theorem exists_leads {goal : σ → Prop} {rank : σ → ℕ}
    (hkeep : ∀ s a s', I s → ok a → m.step s a = some s' → I s')
    (hlow : ∀ s, I s → ¬ goal s → ∃ s', m.Leads ok s s' ∧ rank s' < rank s) {s : σ} (h : I s) :
    ∃ s', m.Leads ok s s' ∧ I s' ∧ goal s' := by
  by_cases hg : goal s
  · exact ⟨s, .refl s, h, hg⟩
  · obtain ⟨s1, h1, hlt⟩ := hlow s h hg
    obtain ⟨s2, h2, h3⟩ := exists_leads hkeep hlow (h1.keeps hkeep h)
    exact ⟨s2, h1.trans h2, h3⟩
termination_by rank s

end
end Machine
