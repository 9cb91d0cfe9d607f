import Nea.Reactor.Guards

/-!
# Where the wakers of the reactor come from

A waker gets from a call of `poll_io` to its source, from there to the list of the reactor, and is
called from the list.  So whatever holds of the wakers that tasks poll with holds of every waker the
reactor calls.

* `WakersBy`          every waker that the reactor could still call has a property;
* `State.Emptied`     the list is empty while the reactor waits for events;
* `woken_of_step`     nothing but the reactor calls a waker.
-/

set_option linter.unusedSectionVars false

namespace Nea
namespace Reactor
variable {T K : Type} [DecidableEq T] [DecidableEq K]

/-- every waker, wherever it is, satisfies `P` -/
structure WakersBy (P : K → Prop) (s : State T K) : Prop where
  calls : ∀ t c, s.calls t = some c → P c.waker
  stored : ∀ i σ d w, s.sources i = some σ → σ.interest d = some w → P w
  taken : ∀ w ∈ s.wakers, P w
  last : ∀ p w b, s.last p = some (w, b) → P w

section
variable {P : K → Prop} {s s' : State T K} {t : T} {c : PollIo K}

theorem wakersBy_init (P : K → Prop) : WakersBy P (State.init : State T K) where
  calls t c h := by cases h
  stored i σ d w h := by cases h
  taken w h := absurd h List.not_mem_nil
  last p w b h := by cases h

/-- what a step may do to the four places -/
theorem WakersBy.mono (h : WakersBy P s) (hc : ∀ t c, s'.calls t = some c → P c.waker)
    (hs : ∀ i σ d w, s'.sources i = some σ → σ.interest d = some w → P w)
    (hw : ∀ w ∈ s'.wakers, P w) (hl : s'.last = s.last) : WakersBy P s' :=
  ⟨hc, hs, hw, by rw [hl]; exact h.last⟩

/-- A source that is written holds wakers that are known. -/
theorem WakersBy.setSource (h : WakersBy P s) {i : UInt32} {σ : Source K}
    (hσ : ∀ d w, σ.interest d = some w → P w) : WakersBy P (s.setSource i σ) := by
  refine h.mono h.calls (fun j σ' d w hj hw => ?_) h.taken rfl
  by_cases e : j = i
  · subst e
    rw [setSource_self] at hj
    cases hj
    exact hσ d w hw
  · rw [setSource_ne σ e] at hj
    exact h.stored j σ' d w hj hw

theorem WakersBy.setCall (h : WakersBy P s) {o : Option (PollIo K)}
    (ho : ∀ c, o = some c → P c.waker) : WakersBy P (s.setCall t o) := by
  refine h.mono (fun t' c' hc' => ?_) h.stored h.taken rfl
  by_cases e : t' = t
  · subst e
    rw [setCall_self] at hc'
    exact ho c' hc'
  · rw [setCall_ne o e] at hc'
    exact h.calls t' c' hc'

theorem WakersBy.setLock (h : WakersBy P s) (i : UInt32) (x : Option (Holder T)) :
    WakersBy P (s.setLock i x) := ⟨h.calls, h.stored, h.taken, h.last⟩

/-- A call goes on. -/
theorem WakersBy.goto (h : WakersBy P s) (hc : s.calls t = some c) (pc : PollPc) :
    WakersBy P (s.goto t c pc) := by
  refine h.setCall (fun c' hc' => ?_)
  cases hc'
  exact h.calls t c hc

/-- A call returns. -/
theorem WakersBy.ret (h : WakersBy P s) {a : Option (K × Bool)}
    (ha : ∀ w b, a = some (w, b) → P w) :
    WakersBy P (s.ret t c a) := by
  have h1 : WakersBy P (s.setCall t none) := h.setCall (fun c' hc' => by cases hc')
  refine ⟨h1.calls, h1.stored, h1.taken, fun p w b hp => ?_⟩
  change Function.update s.last (c.token, c.direction) a p = _ at hp
  by_cases e : p = (c.token, c.direction)
  · rw [e, Function.update_self] at hp
    exact ha w b hp
  · rw [Function.update_of_ne e] at hp
    exact h.last p w b hp

theorem WakersBy.moved (h : WakersBy P s) (hc : s.calls t = some c) (hs : Moved s t c s') :
    WakersBy P s' := by
  cases hs with
  | acquire => exact (h.setLock _ _).goto hc _
  | look => exact h.goto hc _
  | @arm σ hpc hσ =>
    have h1 : WakersBy P (s.setSource (slot c.token) (σ.updateWaker c.direction c.waker)) := by
      refine h.setSource (fun d w hw => ?_)
      rcases Source.of_interest_updateWaker hw with rfl | hw
      · exact h.calls t c hc
      · exact h.stored _ _ d w hσ hw
    exact h1.goto hc _
  | @clear σ hpc hσ =>
    have h1 : WakersBy P (s.setSource (slot c.token) (σ.setTriggered c.direction false)) :=
      h.setSource (fun d w hw => h.stored _ σ d w hσ hw)
    exact h1.goto hc _
  | again => exact (h.setLock _ _).goto hc _
  | pending =>
    refine (h.setLock _ _).ret (fun w b hw => ?_)
    cases hw
    exact h.calls t c hc
  | ready => exact (h.setLock _ _).ret (fun _ _ e => by cases e)

theorem WakersBy.handled (h : WakersBy P s) (hs : Handled s s') : WakersBy P s' := by
  cases hs with
  | all => exact ⟨h.calls, h.stored, h.taken, h.last⟩
  | skip => exact ⟨h.calls, h.stored, h.taken, h.last⟩
  | acquire => exact ⟨h.calls, h.stored, h.taken, h.last⟩
  | release => exact ⟨h.calls, h.stored, h.taken, h.last⟩
  | @take token d ds es σ hr hσ =>
    have h1 : WakersBy P (s.setSource (slot token) (σ.take d)) := by
      refine h.setSource (fun d' w hw => ?_)
      change Function.update σ.interest d none d' = some w at hw
      by_cases e : d' = d
      · rw [e, Function.update_self] at hw
        cases hw
      · rw [Function.update_of_ne e] at hw
        exact h.stored _ σ d' w hσ hw
    refine ⟨h1.calls, h1.stored, fun w hw => ?_, h1.last⟩
    rcases List.mem_append.mp hw with hw | hw
    · exact h.taken w hw
    · exact h.stored _ σ d w hσ (Option.mem_toList.mp hw)
  | @trigger token d ds es σ hr hσ =>
    have h1 : WakersBy P (s.setSource (slot token) (σ.setTriggered d true)) :=
      h.setSource (fun d' w hw => h.stored _ σ d' w hσ hw)
    exact ⟨h1.calls, h1.stored, h1.taken, h1.last⟩
  | @wake w ws hr hw =>
    refine ⟨h.calls, h.stored, fun w' hw' => h.taken w' (by rw [hw]; exact .tail _ hw'),
      fun p w' b hp => ?_⟩
    obtain ⟨k, hk, he⟩ := Option.map_eq_some_iff.mp hp
    have h1 : k.1 = w' := congrArg Prod.fst he
    exact h1 ▸ h.last p k.1 k.2 hk
  | drained => exact ⟨h.calls, h.stored, h.taken, h.last⟩

/-- **One step brings in no waker but those of new calls.** -/
theorem WakersBy.step [Fintype T] (h : WakersBy P s) {a : Act T K}
    (hnew : ∀ t token d w, a = .pollIo t token d w → P w) (hs : s.step a = some s') :
    WakersBy P s' := by
  cases a with
  | kernel token d ready =>
    cases hs
    exact ⟨h.calls, h.stored, h.taken, h.last⟩
  | place q =>
    simp only [State.step] at hs
    split at hs
    · cases hs
      have h1 := h.setSource (i := q.index) (σ := .new) (fun _ _ e => by cases e)
      exact ⟨h1.calls, h1.stored, h1.taken, h1.last⟩
    · cases hs
  | register q =>
    simp only [State.step] at hs
    split at hs
    · cases hs
      exact ⟨h.calls, h.stored, h.taken, h.last⟩
    · cases hs
  | pollIo t token d w =>
    simp only [State.step] at hs
    split at hs
    · cases hs
      refine h.setCall (fun c hc => ?_)
      cases hc
      exact hnew t token d w rfl
    · cases hs
  | poll t b =>
    obtain ⟨c, hc, hs⟩ := Option.bind_eq_some_iff.mp hs
    exact h.moved hc (pollStep_moved hs)
  | deregister token =>
    simp only [State.step] at hs
    split at hs
    · cases hs
      refine ⟨h.calls, h.stored, h.taken, fun p w b hp => ?_⟩
      change (if p.1 = token then none else s.last p) = _ at hp
      split at hp
      · cases hp
      · exact h.last p w b hp
    · cases hs
  | remove token =>
    simp only [State.step] at hs
    split at hs
    · cases hs
      refine h.mono h.calls (fun i σ d w hi hw => ?_) h.taken rfl
      change Function.update s.sources (slot token) none i = _ at hi
      by_cases e : i = slot token
      · rw [e, Function.update_self] at hi
        cases hi
      · rw [Function.update_of_ne e] at hi
        exact h.stored i σ d w hi hw
    · cases hs
  | fetch events =>
    simp only [State.step] at hs
    split at hs
    · cases hs
      exact ⟨h.calls, h.stored, h.taken, h.last⟩
    · cases hs
  | reactor => exact h.handled (reactorStep_handled hs)

/-! ## the list -/

instance ReactorPc.decidablePolling : ∀ r : ReactorPc, Decidable (r = .polling)
  | .polling => isTrue rfl
  | .handling _ => isFalse nofun
  | .event _ _ _ _ => isFalse nofun
  | .waking => isFalse nofun

/-- the list of wakers is empty while the reactor waits for events -/
def State.Emptied (s : State T K) : Prop := s.reactor = .polling → s.wakers = []

theorem State.Emptied.step [Fintype T] (h : s.Emptied) {a : Act T K} (hs : s.step a = some s') :
    s'.Emptied := by
  have keep : s'.reactor = s.reactor → s'.wakers = s.wakers → s'.Emptied := by
    intro h1 h2 hp
    rw [h2]
    exact h (h1.symm.trans hp)
  cases a with
  | reactor =>
    have hs : s.reactorStep = some s' := hs
    unfold State.reactorStep at hs
    intro hp
    split at hs
    · cases hs
    · cases hs; cases hp
    · dsimp only at hs
      split at hs
      · split at hs <;> cases hs <;> cases hp
      · cases hs
    · cases hs; cases hp
    · obtain ⟨σ, -, rfl⟩ := Option.map_eq_some_iff.mp hs
      cases hp
    · obtain ⟨σ, -, rfl⟩ := Option.map_eq_some_iff.mp hs
      cases hp
    · next hr =>
      split at hs
      · cases hs
        change s.reactor = _ at hp
        rw [hr] at hp
        cases hp
      · next hw =>
        cases hs
        exact hw
  | fetch events =>
    simp only [State.step] at hs
    split at hs
    · cases hs
      intro hp
      cases hp
    · cases hs
  | poll t b =>
    obtain ⟨c, hc, hs⟩ := Option.bind_eq_some_iff.mp hs
    cases pollStep_moved hs <;> exact keep rfl rfl
  | kernel token d ready =>
    cases hs
    exact keep rfl rfl
  | _ =>
    simp only [State.step] at hs
    split at hs
    · cases hs
      exact keep rfl rfl
    · cases hs

/-! ## who calls a waker -/

/-- **Nothing but the reactor calls a waker.** -/
theorem woken_of_step [Fintype T] {a : Act T K} (hs : s.step a = some s') {p : Token × Direction}
    {w : K} (hp : s'.last p = some (w, true)) :
    s.last p = some (w, true) ∨
      (a = .reactor ∧ s.reactor = .waking ∧ s.last p = some (w, false) ∧
        ∃ ws, s.wakers = w :: ws) := by
  have hret : ∀ (t : T) (c : PollIo K) (x : Option (K × Bool)), (∀ w, x ≠ some (w, true)) →
      Function.update s.last (c.token, c.direction) x p = some (w, true) →
      s.last p = some (w, true) := by
    intro t c x hx h1
    by_cases e : p = (c.token, c.direction)
    · rw [e, Function.update_self] at h1
      exact absurd h1 (hx w)
    · rw [Function.update_of_ne e] at h1
      exact h1
  cases a with
  | poll t b =>
    obtain ⟨c, hc, hs⟩ := Option.bind_eq_some_iff.mp hs
    cases pollStep_moved hs with
    | pending => exact .inl (hret t c _ (fun w e => by cases e) hp)
    | ready => exact .inl (hret t c _ (fun w e => by cases e) hp)
    | _ => exact .inl hp
  | reactor =>
    cases reactorStep_handled hs with
    | @wake w' ws hr hw =>
      obtain ⟨k, hk, he⟩ := Option.map_eq_some_iff.mp hp
      have h1 : k.1 = w := congrArg Prod.fst he
      have h2 : (k.2 || decide (k.1 = w')) = true := congrArg Prod.snd he
      subst h1
      cases hb : k.2 with
      | true => exact .inl (hk.trans (by rw [← hb]))
      | false =>
        rw [hb, Bool.false_or, decide_eq_true_iff] at h2
        exact .inr ⟨rfl, hr, hk.trans (by rw [← hb]), ws, by rw [hw, h2]⟩
    | _ => exact .inl hp
  | deregister token =>
    simp only [State.step] at hs
    split at hs
    · cases hs
      change (if p.1 = token then none else s.last p) = _ at hp
      split at hp
      · cases hp
      · exact .inl hp
    · cases hs
  | kernel token d ready =>
    cases hs
    exact .inl hp
  | _ =>
    simp only [State.step] at hs
    split at hs
    · cases hs
      exact .inl hp
    · cases hs

end
end Reactor
end Nea
