import Nea.Allocator.System
import Mathlib.Algebra.BigOperators.Group.List.Basic

/-!
# The memory of a bucket is predictable

What a bucket answers is a function of what it was asked for since it was cleared, and of nothing
else: not of other arenas, not of the number of attempts that `fetch_update` makes.

* `tryAllocHelp`, `serve`   a call that nobody disturbs, and a sequence of them;
* `serve_ne_none`     how much a bucket serves for sure: each request loses less than its alignment;
* `answer`            the answer that a step of the machine gives;
* `Ledger`            the history of a bucket since it was cleared: requests and answers;
* `bucket_predictable`   the answers are those of `serve`, whatever else happens.
-/

set_option linter.unusedSectionVars false

namespace Nea
namespace Allocator

/-! ## calls one after the other -/

/-- a whole call of `try_alloc_help`: the offset, and what remains -/
def tryAllocHelp (l : Layout) (remaining : ℕ) : Option ℕ × ℕ :=
  if l.align > maxSupportedAlign then (none, remaining)
  else
    match carve l remaining with
    | some next => (some next, next)
    | none => (none, remaining)

/-- the answers to a sequence of requests -/
def serve : ℕ → List Layout → List (Option ℕ)
  | _, [] => []
  | remaining, l :: ls =>
    (tryAllocHelp l remaining).1 :: serve (tryAllocHelp l remaining).2 ls

/-- what remains after them -/
def left : ℕ → List Layout → ℕ
  | remaining, [] => remaining
  | remaining, l :: ls => left (tryAllocHelp l remaining).2 ls

theorem serve_append (r : ℕ) (ls : List Layout) (l : Layout) :
    serve r (ls ++ [l]) = serve r ls ++ [(tryAllocHelp l (left r ls)).1] := by
  induction ls generalizing r with
  | nil => rfl
  | cons l' ls ih => exact congrArg _ (ih _)

theorem left_append (r : ℕ) (ls : List Layout) (l : Layout) :
    left r (ls ++ [l]) = (tryAllocHelp l (left r ls)).2 := by
  induction ls generalizing r with
  | nil => rfl
  | cons l' ls ih => exact ih _

theorem carve_eq_none {l : Layout} {r : ℕ} : carve l r = none ↔ r < l.size := by
  unfold carve
  split
  · next h => exact ⟨fun _ => h, fun _ => rfl⟩
  · next h => exact ⟨nofun, fun h' => absurd h' h⟩

/-- **A call fails exactly when the alignment or the size is too large, and then it changes
nothing.** -/
theorem tryAllocHelp_eq_none {l : Layout} {r : ℕ} :
    ((tryAllocHelp l r).1 = none ↔ maxSupportedAlign < l.align ∨ r < l.size) ∧
      ((tryAllocHelp l r).1 = none → (tryAllocHelp l r).2 = r) := by
  unfold tryAllocHelp
  split
  · next h => exact ⟨⟨fun _ => .inl h, fun _ => rfl⟩, fun _ => rfl⟩
  · next h =>
    cases hc : carve l r with
    | none => exact ⟨⟨fun _ => .inr (carve_eq_none.mp hc), fun _ => rfl⟩, fun _ => rfl⟩
    | some next =>
      refine ⟨⟨nofun, fun h' => ?_⟩, nofun⟩
      rcases h' with h' | h'
      · exact absurd h' h
      · rw [carve_eq_none.mpr h'] at hc
        cases hc

/-- An allocation takes its size and less than its alignment more. -/
theorem le_carve {l : Layout} {r a : ℕ} (hr : r < 2^64) (hl : l.align ≤ maxSupportedAlign)
    (h : carve l r = some a) : r ≤ a + (l.size + l.align - 1) := by
  obtain ⟨hs, ha⟩ := carve_round hr hl h
  have hmod := Nat.mod_lt (r - l.size) l.align_pos
  have hdiv := Nat.div_add_mod (r - l.size) l.align
  rw [Nat.mul_comm, ← ha] at hdiv
  omega

/-- **What a bucket serves for sure.** -/
theorem serve_ne_none {r : ℕ} (hr : r < 2^64) {ls : List Layout}
    (hl : ∀ l ∈ ls, l.align ≤ maxSupportedAlign)
    (hsum : (ls.map (fun l => l.size + l.align - 1)).sum ≤ r) : none ∉ serve r ls := by
  induction ls generalizing r with
  | nil => exact List.not_mem_nil
  | cons l ls ih =>
    rw [List.map_cons, List.sum_cons] at hsum
    have hpos := l.align_pos
    have hla := hl l List.mem_cons_self
    have hne : (tryAllocHelp l r).1 ≠ none := by
      intro h
      have := tryAllocHelp_eq_none.1.mp h
      omega
    have hnext : ∃ next, carve l r = some next ∧ tryAllocHelp l r = (some next, next) := by
      cases hc : carve l r with
      | none =>
        refine absurd ?_ hne
        unfold tryAllocHelp
        rw [if_neg (by omega), hc]
      | some next =>
        refine ⟨next, rfl, ?_⟩
        unfold tryAllocHelp
        rw [if_neg (by omega), hc]
    obtain ⟨next, hc, he⟩ := hnext
    have hle := carve_le hc
    have hge := le_carve hr hla hc
    have hrest := ih (r := next) (by omega) (fun l' h' => hl l' (List.mem_cons_of_mem _ h'))
      (by omega)
    show none ∉ (tryAllocHelp l r).1 :: serve (tryAllocHelp l r).2 ls
    rw [he]
    intro h
    rcases List.mem_cons.mp h with h | h
    · cases h
    · exact hrest h

/-! ## answers of the machine -/

section
variable {T : Type} [DecidableEq T]

/-- a call of `try_alloc_help` starts -/
def request : Act T → Option (Arena × Layout)
  | .tryAllocateInInitialBucket _ l => some (.initial, l)
  | .tryAllocateInBucket _ l b => some (.bucket b, l)
  | _ => none

/-- the answer that a step gives: at once when the alignment is too large, else when the closure
fails or the swap wins -/
def answer (s : State T) : Act T → Option (Arena × Layout × Option ℕ)
  | .tryAllocateInInitialBucket _ l =>
    if l.align > maxSupportedAlign then some (.initial, l, none) else none
  | .tryAllocateInBucket _ l b =>
    if l.align > maxSupportedAlign then some (.bucket b, l, none) else none
  | .fetchUpdate t spurious =>
    (s.calls t).bind (fun c =>
      match c.pc with
      | .swap prev _ =>
        if spurious = false ∧ s.remaining c.arena = prev then
          some (c.arena, c.layout, some c.allocated)
        else if c.attempt (s.remaining c.arena) = none then some (c.arena, c.layout, none)
        else none
      | .load =>
        if c.attempt (s.remaining c.arena) = none then some (c.arena, c.layout, none) else none)
  | .clearBucket _ => none

theorem attempt_eq_none {c : Call} {r : ℕ} : c.attempt r = none ↔ carve c.layout r = none :=
  Option.map_eq_none_iff

/-- the answer of a call whose closure fails -/
theorem tryAllocHelp_of_attempt {c : Call} {r : ℕ} (hl : c.layout.align ≤ maxSupportedAlign)
    (h : c.attempt r = none) : tryAllocHelp c.layout r = (none, r) := by
  unfold tryAllocHelp
  rw [if_neg (by omega), attempt_eq_none.mp h]

variable {m : Space} {s s' : State T}

/-- A call that starts changes no `remaining`. -/
theorem enter_remaining (s : State T) (t : T) (x : Arena) (l : Layout) :
    (s.enter t x l).remaining = s.remaining := by
  unfold State.enter
  split <;> rfl

/-- too large an alignment: nothing happens -/
theorem tryAllocHelp_of_large {l : Layout} (h : l.align > maxSupportedAlign) (r : ℕ) :
    tryAllocHelp l r = (none, r) := by
  unfold tryAllocHelp
  rw [if_pos h]

/-- **An answer is that of an undisturbed call**, and leaves the other arenas alone. -/
theorem answer_of_step (hi : Sound m s) {a : Act T} (hs : s.step m a = some s') {x : Arena}
    {l : Layout} {o : Option ℕ} (ha : answer s a = some (x, l, o)) :
    tryAllocHelp l (s.remaining x) = (o, s'.remaining x) ∧
      ∀ y, y ≠ x → s'.remaining y = s.remaining y := by
  cases a with
  | tryAllocateInInitialBucket t l1 =>
    simp only [answer] at ha
    split at ha
    · next hl =>
      cases ha
      simp only [State.step] at hs
      split at hs
      · cases hs
        rw [enter_remaining]
        exact ⟨tryAllocHelp_of_large hl _, fun _ _ => rfl⟩
      · cases hs
    · cases ha
  | tryAllocateInBucket t l1 b =>
    simp only [answer] at ha
    split at ha
    · next hl =>
      cases ha
      simp only [State.step] at hs
      split at hs
      · split at hs
        · cases hs
          rw [enter_remaining]
          exact ⟨tryAllocHelp_of_large hl _, fun _ _ => rfl⟩
        · cases hs
          exact ⟨tryAllocHelp_of_large hl _, fun _ _ => rfl⟩
      · cases hs
    · cases ha
  | fetchUpdate t spurious =>
    obtain ⟨c, hc, rfl⟩ := Option.map_eq_some_iff.mp hs
    obtain ⟨c', hc', ha⟩ := Option.bind_eq_some_iff.mp ha
    rw [hc] at hc'
    cases hc'
    have hok := hi.calls t c hc
    cases hpc : c.pc with
    | load =>
      simp only [hpc] at ha
      split at ha
      · next hat =>
        cases ha
        simp only [State.callStep, hpc]
        exact ⟨tryAllocHelp_of_attempt hok.align hat, fun _ _ => rfl⟩
      · cases ha
    | swap prev next =>
      obtain ⟨hall, _, hcarve⟩ := hok.swap prev next hpc
      simp only [hpc] at ha
      split at ha
      · next hwin =>
        cases ha
        simp only [State.callStep, hpc]
        rw [if_pos hwin]
        constructor
        · show _ = (_, Function.update s.remaining c.arena next c.arena)
          unfold tryAllocHelp
          rw [Function.update_self, if_neg (Nat.not_lt.mpr hok.align), hwin.2, hcarve, hall]
        · intro y hy
          exact Function.update_of_ne hy ..
      · next hlose =>
        split at ha
        · next hat =>
          cases ha
          simp only [State.callStep, hpc]
          rw [if_neg hlose]
          exact ⟨tryAllocHelp_of_attempt hok.align hat, fun _ _ => rfl⟩
        · cases ha
  | clearBucket b => cases ha

/-- A step without an answer, other than a clear, changes no `remaining`. -/
theorem remaining_of_step {a : Act T} (hs : s.step m a = some s') (ha : answer s a = none)
    (hc : ∀ b, a ≠ .clearBucket b) : s'.remaining = s.remaining := by
  cases a with
  | tryAllocateInInitialBucket t l =>
    simp only [State.step] at hs
    split at hs
    · cases hs
      exact enter_remaining ..
    · cases hs
  | tryAllocateInBucket t l b =>
    simp only [State.step] at hs
    split at hs
    · split at hs
      · cases hs
        exact enter_remaining ..
      · cases hs
        rfl
    · cases hs
  | fetchUpdate t spurious =>
    obtain ⟨c, hcall, rfl⟩ := Option.map_eq_some_iff.mp hs
    simp only [answer, hcall, Option.bind_some] at ha
    unfold State.callStep
    split
    · rfl
    · next prev next hpc =>
      simp only [hpc] at ha
      split
      · next hwin =>
        rw [if_pos hwin] at ha
        cases ha
      · rfl
  | clearBucket b => exact absurd rfl (hc b)

/-- A call answers and is over, or goes on as the call it was. -/
theorem calls_callStep (m : Space) {t : T} (spurious : Bool) {c : Call}
    (hc : s.calls t = some c) :
    (∃ o, answer s (.fetchUpdate t spurious) = some (c.arena, c.layout, o) ∧
      (s.callStep m t spurious c).calls = Function.update s.calls t none) ∨
    (answer s (.fetchUpdate t spurious) = none ∧ ∃ c', c'.arena = c.arena ∧ c'.layout = c.layout ∧
      (s.callStep m t spurious c).calls = Function.update s.calls t (some c')) := by
  -- the closure runs once more
  have hretry : (∃ o, (if c.attempt (s.remaining c.arena) = none
        then some (c.arena, c.layout, (none : Option ℕ)) else none) = some (c.arena, c.layout, o) ∧
        (s.setCall t (c.attempt (s.remaining c.arena))).calls = Function.update s.calls t none) ∨
      ((if c.attempt (s.remaining c.arena) = none
        then some (c.arena, c.layout, (none : Option ℕ)) else none) = none ∧
        ∃ c', c'.arena = c.arena ∧ c'.layout = c.layout ∧
        (s.setCall t (c.attempt (s.remaining c.arena))).calls
          = Function.update s.calls t (some c')) := by
    cases hat : c.attempt (s.remaining c.arena) with
    | none => exact .inl ⟨none, if_pos rfl, rfl⟩
    | some c' =>
      obtain ⟨next, _, rfl⟩ := Option.map_eq_some_iff.mp hat
      exact .inr ⟨if_neg nofun,
        { c with allocated := next, pc := .swap (s.remaining c.arena) next }, rfl, rfl, rfl⟩
  simp only [answer, hc, Option.bind_some]
  unfold State.callStep
  cases hpc : c.pc with
  | load => exact hretry
  | swap prev next =>
    simp only
    by_cases hwin : spurious = false ∧ s.remaining c.arena = prev
    · rw [if_pos hwin, if_pos hwin]
      exact .inl ⟨_, rfl, rfl⟩
    · rw [if_neg hwin, if_neg hwin]
      exact hretry

end

/-! ## the ledger of a bucket -/

/-- what a bucket was asked for since it was cleared, and what the calls that are over answered -/
structure Ledger where
  asked : List Layout
  answers : List (Layout × Option ℕ)

/-- the layouts that were answered -/
def Ledger.answered (e : Ledger) : List Layout := e.answers.map (·.1)
/-- the answers, in the order in which they were given -/
def Ledger.results (e : Ledger) : List (Option ℕ) := e.answers.map (·.2)

section
variable {T : Type} [DecidableEq T]

def isClear (a : Act T) (b : ℕ) : Bool :=
  match a with
  | .clearBucket b' => decide (b' = b)
  | _ => false

/-- the ledgers go on with a step -/
def record (s : State T) (a : Act T) (_ : State T) (h : ℕ → Ledger) (b : ℕ) : Ledger :=
  if isClear a b then ⟨[], []⟩
  else
    { asked := (h b).asked ++
        ((request a).bind (fun x => if x.1 = .bucket b then some x.2 else none)).toList
      answers := (h b).answers ++
        ((answer s a).bind (fun x => if x.1 = .bucket b then some x.2 else none)).toList }

/-- the allocator with the ledgers of its buckets -/
def ledgered (m : Space) : Machine (State T × (ℕ → Ledger)) (Act T) :=
  (machine m).watch (fun _ => ⟨[], []⟩) record

/-- the ledger of a bucket agrees with `serve`, and so does what remains -/
structure Served (m : Space) (s : State T) (e : Ledger) (b : ℕ) : Prop where
  results : e.results = serve m.bucketSize e.answered
  remaining : s.remaining (.bucket b) = left m.bucketSize e.answered

variable {m : Space} {s s' : State T} {h : ℕ → Ledger} {b : ℕ}

/-- **One step keeps the ledger of a bucket.** -/
theorem Served.step (hi : Sound m s) (he : Served m s (h b) b) {a : Act T}
    (hs : s.step m a = some s') : Served m s' (record s a s' h b) b := by
  unfold record
  cases hcl : isClear a b with
  | true =>
    rw [if_pos rfl]
    unfold isClear at hcl
    split at hcl
    · next b' =>
      have e : b' = b := of_decide_eq_true hcl
      subst e
      refine ⟨rfl, ?_⟩
      simp only [State.step] at hs
      split at hs
      · cases hs
        exact Function.update_self ..
      · cases hs
    · cases hcl
  | false =>
    rw [if_neg (by simp)]
    cases ha : answer s a with
    | none =>
      have hrem : s'.remaining (.bucket b) = s.remaining (.bucket b) := by
        by_cases hc : ∃ b', a = .clearBucket b'
        · obtain ⟨b', rfl⟩ := hc
          have hne : (Arena.bucket b) ≠ .bucket b' := by
            intro e
            cases e
            simp [isClear] at hcl
          simp only [State.step] at hs
          split at hs
          · cases hs
            exact Function.update_of_ne hne ..
          · cases hs
        · rw [remaining_of_step hs ha (fun b' e => hc ⟨b', e⟩)]
      refine ⟨?_, ?_⟩
      · simpa [Ledger.results, Ledger.answered] using he.results
      · rw [hrem]
        simpa [Ledger.answered] using he.remaining
    | some x =>
      obtain ⟨x, l, o⟩ := x
      obtain ⟨h1, h2⟩ := answer_of_step hi hs ha
      by_cases hx : x = .bucket b
      · -- one more answer of this bucket
        subst hx
        rw [he.remaining] at h1
        constructor
        · have hr := he.results
          simp only [Ledger.results, Ledger.answered] at hr h1 ⊢
          simp only [Option.bind_some, if_true, Option.toList_some, List.map_append, List.map_cons,
            List.map_nil]
          rw [serve_append, ← hr, h1]
        · simp only [Ledger.answered] at h1 ⊢
          simp only [Option.bind_some, if_true, Option.toList_some, List.map_append, List.map_cons,
            List.map_nil]
          rw [left_append, h1]
      · refine ⟨?_, ?_⟩
        · simpa [Ledger.results, Ledger.answered, hx] using he.results
        · rw [h2 _ (Ne.symm hx)]
          simpa [Ledger.answered, hx] using he.remaining

theorem served_of_reachable {x : State T × (ℕ → Ledger)} (hr : (ledgered m).Reachable x) (b : ℕ) :
    Served m x.1 (x.2 b) b := by
  refine hr.invariant (I := fun x => Served m x.1 (x.2 b) b) ⟨rfl, rfl⟩ ?_
  intro x a x' hrx hi _ he
  obtain ⟨h1, h2⟩ := Machine.watch_step.mp he
  rw [h2]
  exact hi.step (sound_of_reachable (Machine.reachable_of_watch hrx)) h1

/-! ## one call at a time -/

/-- no call on the bucket is in progress -/
def Quiet (s : State T) (b : ℕ) : Prop := ∀ t c, s.calls t = some c → c.arena ≠ .bucket b

/-- the calls on bucket `b`, and its clears, come one after the other -/
def Alone (b : ℕ) : State T × (ℕ → Ledger) → Act T → Prop
  | s, .tryAllocateInBucket _ _ b' => b' = b → Quiet s.1 b
  | s, .clearBucket b' => b' = b → Quiet s.1 b
  | _, _ => True

/-- what was asked for was answered, up to the call in progress -/
def Matched (s : State T) (e : Ledger) (b : ℕ) : Prop :=
  (Quiet s b ∧ e.asked = e.answered) ∨
  ∃ t c, s.calls t = some c ∧ c.arena = .bucket b ∧
    (∀ t' c', s.calls t' = some c' → c'.arena = .bucket b → t' = t) ∧
    e.asked = e.answered ++ [c.layout]

/-- Calls on other arenas come and go. -/
theorem Matched.other {e : Ledger} (hm : Matched s e b) {t : T} {o : Option Call}
    (hold : ∀ c, s.calls t = some c → c.arena ≠ .bucket b)
    (hnew : ∀ c, o = some c → c.arena ≠ .bucket b)
    (hs : s'.calls = Function.update s.calls t o) : Matched s' e b := by
  have hback : ∀ t' c', s'.calls t' = some c' → c'.arena = .bucket b → s.calls t' = some c' := by
    intro t' c' hc' hb
    rw [hs] at hc'
    by_cases et : t' = t
    · subst et
      rw [Function.update_self] at hc'
      exact absurd hb (hnew c' hc')
    · rw [Function.update_of_ne et] at hc'
      exact hc'
  rcases hm with ⟨hq, hasked⟩ | ⟨t1, c1, hc1, hb1, huniq, hasked⟩
  · exact .inl ⟨fun t' c' hc' hb => hq t' c' (hback t' c' hc' hb) hb, hasked⟩
  · refine .inr ⟨t1, c1, ?_, hb1, fun t' c' hc' hb => huniq t' c' (hback t' c' hc' hb) hb, hasked⟩
    have hne : t1 ≠ t := by
      rintro rfl
      exact hold c1 hc1 hb1
    rw [hs, Function.update_of_ne hne]
    exact hc1

theorem Matched.congr {e : Ledger} (hm : Matched s e b) (hs : s'.calls = s.calls) :
    Matched s' e b := by
  unfold Matched Quiet at hm ⊢
  rw [hs]
  exact hm

/-- A call starts on another arena. -/
theorem Matched.enter {e : Ledger} (hm : Matched s e b) {t : T} (h0 : s.calls t = none) {x : Arena}
    (hx : x ≠ .bucket b) (l : Layout) : Matched (s.enter t x l) e b := by
  unfold State.enter
  split
  · exact hm
  · refine hm.other (t := t) (fun c hc => ?_) (fun c hc => ?_) rfl
    · rw [h0] at hc
      cases hc
    · cases hc
      exact hx

/-- A bucket without a call in progress has answered everything. -/
theorem Matched.answered_of_quiet {e : Ledger} (hm : Matched s e b) (hq : Quiet s b) :
    e.asked = e.answered := by
  rcases hm with ⟨_, hasked⟩ | ⟨t1, c1, hc1, hb1, _⟩
  · exact hasked
  · exact absurd hb1 (hq t1 c1 hc1)

/-- A request to a bucket that is quiet is answered at once or is the call in progress. -/
theorem Matched.ask (hm : Matched s (h b) b) (hq : Quiet s b) (t : T) (l : Layout) :
    Matched (s.enter t (.bucket b) l) (record s (.tryAllocateInBucket t l b) s' h b) b := by
  have hasked := hm.answered_of_quiet hq
  unfold State.enter record
  simp only [isClear, request, answer, Bool.false_eq_true, if_false]
  split
  · -- answered at once
    exact .inl ⟨hq, by simpa [Ledger.answered] using hasked⟩
  · refine .inr ⟨t, ⟨.bucket b, l, 0, .load⟩, Function.update_self .., rfl, ?_, ?_⟩
    · intro t' c' hc' hb'
      by_contra hne
      change Function.update s.calls t _ t' = some c' at hc'
      rw [Function.update_of_ne hne] at hc'
      exact hq t' c' hc' hb'
    · simpa [Ledger.answered] using hasked

/-- The call in progress answers and is over, or goes on. -/
theorem Matched.attempt (hm : Matched s (h b) b) {t : T} (spurious : Bool) {c : Call}
    (hc : s.calls t = some c) (hcb : c.arena = .bucket b) :
    Matched (s.callStep m t spurious c) (record s (.fetchUpdate t spurious) s' h b) b := by
  obtain ⟨t1, c1, hc1, hb1, huniq, hasked⟩ := hm.resolve_left (fun hq => hq.1 t c hc hcb)
  have e : t = t1 := huniq t c hc hcb
  subst e
  rw [hc] at hc1
  cases hc1
  have hother : ∀ o : Option Call, (s.callStep m t spurious c).calls = Function.update s.calls t o →
      ∀ t' c', (s.callStep m t spurious c).calls t' = some c' → c'.arena = .bucket b → t' ≠ t →
      False := by
    intro o hcalls t' c' hc' hb' et
    rw [hcalls, Function.update_of_ne et] at hc'
    exact et (huniq t' c' hc' hb')
  rcases calls_callStep m spurious hc with ⟨o, ha, hcalls⟩ | ⟨ha, c', hca, hcl, hcalls⟩
  · refine .inl ⟨fun t' c' hc' hb' => hother _ hcalls t' c' hc' hb' ?_, ?_⟩
    · rintro rfl
      rw [hcalls, Function.update_self] at hc'
      cases hc'
    · unfold record
      simp only [isClear, request, ha, Bool.false_eq_true, if_false]
      simpa [Ledger.answered, hcb] using hasked
  · refine .inr ⟨t, c', by rw [hcalls, Function.update_self], hca.trans hcb, ?_, ?_⟩
    · intro t' c'' hc' hb'
      by_contra et
      exact hother _ hcalls t' c'' hc' hb' et
    · unfold record
      simp only [isClear, request, ha, Bool.false_eq_true, if_false]
      simpa [Ledger.answered, hcl] using hasked

/-- **One step matches requests and answers**, if the calls on the bucket come one by one. -/
theorem Matched.step (hb : m.has (.bucket b) = true) {a : Act T} (hm : Matched s (h b) b)
    (hok : Alone b (s, h) a) (hs : s.step m a = some s') : Matched s' (record s a s' h b) b := by
  cases a with
  | tryAllocateInInitialBucket t l =>
    have hrec : record s (.tryAllocateInInitialBucket t l) s' h b = h b := by
      unfold record
      simp only [isClear, request, answer, Bool.false_eq_true, if_false]
      split <;> simp
    rw [hrec]
    simp only [State.step] at hs
    split at hs
    · next h0 =>
      cases hs
      exact hm.enter h0 (by simp) l
    · cases hs
  | tryAllocateInBucket t l b1 =>
    simp only [State.step] at hs
    split at hs
    · next h0 =>
      by_cases hb1 : b1 = b
      · -- a request to this bucket, which is quiet
        subst hb1
        rw [if_pos hb] at hs
        cases hs
        exact hm.ask (hok rfl) t l
      · have hrec : record s (.tryAllocateInBucket t l b1) s' h b = h b := by
          unfold record
          simp only [isClear, request, answer, Bool.false_eq_true, if_false]
          split <;> simp [hb1]
        rw [hrec]
        split at hs
        · cases hs
          exact hm.enter h0 (by simpa using hb1) l
        · cases hs
          exact hm
    · cases hs
  | fetchUpdate t spurious =>
    obtain ⟨c, hc, rfl⟩ := Option.map_eq_some_iff.mp hs
    by_cases hcb : c.arena = .bucket b
    · exact hm.attempt spurious hc hcb
    · have hrec : record s (.fetchUpdate t spurious) (s.callStep m t spurious c) h b = h b := by
        unfold record
        rcases calls_callStep m spurious hc with ⟨o, ha, _⟩ | ⟨ha, _⟩
        all_goals
          simp only [isClear, request, ha, Bool.false_eq_true, if_false]
          simp [hcb]
      rw [hrec]
      have hold : ∀ c1, s.calls t = some c1 → c1.arena ≠ .bucket b := by
        intro c1 hc1
        rw [hc] at hc1
        cases hc1
        exact hcb
      rcases calls_callStep m spurious hc with
        ⟨o, _, hcalls⟩ | ⟨_, c', hca, _, hcalls⟩
      · exact hm.other hold (fun c1 hc1 => by cases hc1) hcalls
      · exact hm.other hold (fun c1 hc1 => by cases hc1; rw [hca]; exact hcb) hcalls
  | clearBucket b1 =>
    simp only [State.step] at hs
    split at hs
    · cases hs
      by_cases hb1 : b1 = b
      · subst hb1
        have hq : Quiet s b1 := hok rfl
        unfold record
        simp only [isClear, decide_true, if_true]
        exact .inl ⟨hq, rfl⟩
      · unfold record
        simp only [isClear, request, answer, hb1, decide_false, Bool.false_eq_true, if_false,
          Option.bind_none, Option.toList_none, List.append_nil]
        exact hm.congr rfl
    · cases hs

theorem matched_of_reach {x : State T × (ℕ → Ledger)} (hb : m.has (.bucket b) = true)
    (hr : (ledgered m).Reach (Alone b) x) : Matched x.1 (x.2 b) b := by
  refine hr.invariant (I := fun x => Matched x.1 (x.2 b) b) (.inl ⟨fun t c hc => ?_, rfl⟩) ?_
  · cases hc
  · intro x a x' _ hi ho he
    obtain ⟨h1, h2⟩ := Machine.watch_step.mp he
    rw [h2]
    exact hi.step hb ho h1

/-- **Bucket memory is predictable.**  In every run the answers of a bucket since it was cleared are
those of `serve` to the layouts answered, whatever other arenas do, and when the calls on the bucket
come one by one these are the layouts it was asked for; requests that fit with their alignments
are all served; a call fails exactly when its alignment or its size is too large at that moment,
and then leaves `remaining` alone. -/
theorem bucket_predictable (m : Space) (b : ℕ) (hb : m.has (.bucket b) = true) :
    (∀ x : State T × (ℕ → Ledger), (ledgered m).Reachable x →
      (x.2 b).results = serve m.bucketSize (x.2 b).answered) ∧
    (∀ x : State T × (ℕ → Ledger), (ledgered m).Reach (Alone b) x → Quiet x.1 b →
      (x.2 b).results = serve m.bucketSize (x.2 b).asked) ∧
    (∀ ls : List Layout, (∀ l ∈ ls, l.align ≤ maxSupportedAlign) →
      (ls.map (fun l => l.size + l.align - 1)).sum ≤ m.bucketSize →
      none ∉ serve m.bucketSize ls) ∧
    (∀ s : State T, (machine m).Reachable s → ∀ a s', s.step m a = some s' → ∀ l o,
      answer s a = some (.bucket b, l, o) →
      (o = none ↔ maxSupportedAlign < l.align ∨ s.remaining (.bucket b) < l.size) ∧
      (o = none → s'.remaining (.bucket b) = s.remaining (.bucket b))) := by
  refine ⟨fun x hr => (served_of_reachable hr b).results, fun x hr hq => ?_, ?_, ?_⟩
  · have hrun : (ledgered m).Reachable x := hr.reachable
    have hasked : (x.2 b).asked = (x.2 b).answered := by
      rcases matched_of_reach hb hr with ⟨_, hasked⟩ | ⟨t, c, hc, hcb, _⟩
      · exact hasked
      · exact absurd hcb (hq t c hc)
    rw [hasked]
    exact (served_of_reachable hrun b).results
  · intro ls hl hsum
    exact serve_ne_none (Space.size_lt hb) hl hsum
  · intro s hr a s' hs l o ha
    obtain ⟨h1, _⟩ := answer_of_step (sound_of_reachable hr) hs ha
    have h2 := tryAllocHelp_eq_none (l := l) (r := s.remaining (.bucket b))
    rw [h1] at h2
    exact h2

/-- Two requests to bucket 0 with a clear of bucket 1 and a call on the initial arena in between. -/
theorem bucket_predictable_two :
    none ∉ (((ledgered (T := Fin 2) spaceTwo).final
      [.tryAllocateInBucket 0 ⟨100, 8, 3, rfl⟩ 0, .fetchUpdate 0 false,
        .tryAllocateInInitialBucket 1 ⟨1, 1, 0, rfl⟩, .fetchUpdate 0 false, .clearBucket 1,
        .tryAllocateInBucket 0 ⟨24, 16, 4, rfl⟩ 0, .fetchUpdate 1 false, .fetchUpdate 0 false,
        .fetchUpdate 0 false]).2 0).results := by
  have hp := bucket_predictable (T := Fin 2) spaceTwo 0 (by decide)
  rw [hp.1 _ (Machine.reachable_final _ _)]
  refine hp.2.2.1 _ (fun l hl => ?_) (by decide)
  have hlayouts : ∀ l ∈ [(⟨100, 8, 3, rfl⟩ : Layout), ⟨24, 16, 4, rfl⟩],
      l.align ≤ maxSupportedAlign := by
    intro l hl
    rcases List.mem_cons.mp hl with rfl | hl
    · decide
    · rcases List.mem_singleton.mp hl with rfl
      decide
  exact hlayouts l hl

end
end Allocator
end Nea
