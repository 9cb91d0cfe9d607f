import Nea.Reactor.Guards

/-!
# No readiness is lost

Between the kernel and a waker, readiness passes through an event, the flag `triggered` and the list
of wakers, and each hand-over happens under the mutex of the source.

* `State.Undelivered`   the kernel or the reactor still has an event for a direction;
* `Flow`                where readiness is: a ready direction whose flag is down has an event under
                        way, and the waker of the latest `Pending` is stored while the flag is down;
* `no_lost_readiness`   a task whose `poll_io` returned `Pending` does not miss that its stream is
                        ready.
-/

set_option linter.unusedSectionVars false

namespace Nea
namespace Reactor
variable {T K : Type} [DecidableEq T] [DecidableEq K]

/-- the reactor has fetched an event for this direction, and has not set its flag yet -/
def ReactorPc.carries : ReactorPc → Token → Direction → Prop
  | .handling es, token, d => ∃ e ∈ es, e.says token d = true
  | .event token' ds _ es, token, d => (token' = token ∧ d ∈ ds) ∨ ∃ e ∈ es, e.says token d = true
  | _, _, _ => False

/-- an event for this direction has not been delivered -/
def State.Undelivered (s : State T K) (token : Token) (d : Direction) : Prop :=
  s.edge (token, d) = true ∨ s.reactor.carries token d

/-- the call has seen the flag down -/
def PollPc.waiting : PollPc → Bool
  | .arm => true
  | .recheck => true
  | .leave .pending => true
  | _ => false

/-- the call has stored its waker -/
def PollPc.armed : PollPc → Bool
  | .recheck => true
  | .leave .pending => true
  | _ => false

/-- what a call knows about its source -/
structure CallOk (s : State T K) (c : PollIo K) : Prop where
  /-- readiness since the operation failed -/
  clearing : c.pc = .clear → s.ready (c.token, c.direction) = true →
    s.Undelivered c.token c.direction
  unset : c.pc.waiting = true → ∀ σ, s.sources (slot c.token) = some σ →
    σ.triggered c.direction = false
  armed : c.pc.armed = true → ∀ σ, s.sources (slot c.token) = some σ →
    σ.interest c.direction = some c.waker

/-- a call has stored its waker for this direction -/
def State.Armed (s : State T K) (token : Token) (d : Direction) : Prop :=
  ∃ t c, s.calls t = some c ∧ c.token = token ∧ c.direction = d ∧ c.pc.armed = true

structure Flow (s : State T K) : Prop where
  fresh : ∀ token d σ, s.phase (slot token) = .live token → s.sources (slot token) = some σ →
    σ.triggered d = false → s.ready (token, d) = true → s.Undelivered token d
  call : ∀ t c, s.calls t = some c → CallOk s c
  /-- between `take` and the store to `triggered` -/
  taken : ∀ token d ds es σ, s.reactor = .event token (d :: ds) true es →
    s.sources (slot token) = some σ → σ.interest d = none
  waiting : ∀ token d w σ, s.last (token, d) = some (w, false) →
    s.sources (slot token) = some σ → w ∈ s.wakers ∨
      (σ.triggered d = false ∧ (σ.interest d = some w ∨ s.Armed token d))

theorem PollPc.armed_waiting {pc : PollPc} (h : pc.armed = true) : pc.waiting = true := by
  cases pc with
  | recheck => rfl
  | leave e => cases e <;> first | rfl | cases h
  | lock => cases h
  | check => cases h
  | arm => cases h
  | operate => cases h
  | clear => cases h

theorem PollPc.waiting_ne {pc : PollPc} (h : pc.waiting = true) : pc ≠ .lock := by
  intro h0
  rw [h0] at h
  cases h

section
variable {s s' : State T K} {t t' : T} {c c' : PollIo K}

theorem flow_init : Flow (State.init : State T K) where
  fresh token d σ h := by cases h
  call t c h := by cases h
  taken token d ds es σ h := by cases h
  waiting token d w σ h := by cases h

/-! ## steps that leave the sources alone -/

/-- What the kernel and the reactor do without a source: no event gets lost, and a new readiness
comes with an event. -/
theorem Flow.mono (h : Flow s) (hg : Guarded s) (hp : s'.phase = s.phase)
    (hs : s'.sources = s.sources) (hc : s'.calls = s.calls)
    (hu : ∀ token d, s.phase (slot token) = .live token → s'.ready (token, d) = true →
      (s.ready (token, d) = true → s.Undelivered token d) → s'.Undelivered token d)
    (ht : ∀ token d ds es, s'.reactor = .event token (d :: ds) true es → s'.reactor = s.reactor)
    (hw : ∀ token d w, s'.last (token, d) = some (w, false) →
      s.last (token, d) = some (w, false) ∧ (w ∈ s.wakers → w ∈ s'.wakers)) : Flow s' where
  fresh token d σ hl hσ hd hr := by
    rw [hp] at hl
    rw [hs] at hσ
    exact hu token d hl hr (h.fresh token d σ hl hσ hd)
  call t c hcall := by
    rw [hc] at hcall
    have ho := h.call t c hcall
    constructor
    · exact fun hpc hr => hu _ _ (hg.call t c hcall) hr (ho.clearing hpc)
    · rw [hs]; exact ho.unset
    · rw [hs]; exact ho.armed
  taken token d ds es σ hr hσ := by
    rw [hs] at hσ
    rw [ht token d ds es hr] at hr
    exact h.taken token d ds es σ hr hσ
  waiting token d w σ hl hσ := by
    obtain ⟨hl', hin⟩ := hw token d w hl
    rw [hs] at hσ
    unfold State.Armed
    rw [hc]
    exact (h.waiting token d w σ hl' hσ).imp_left hin

theorem Flow.setLock (h : Flow s) {i : UInt32} {x : Option (Holder T)} : Flow (s.setLock i x) where
  fresh := h.fresh
  call t c hc := ⟨(h.call t c hc).clearing, (h.call t c hc).unset, (h.call t c hc).armed⟩
  taken := h.taken
  waiting := h.waiting

theorem Flow.setCall (h : Flow s) {o : Option (PollIo K)} (ho : ∀ c, o = some c → CallOk s c)
    (ha : ∀ c, s.calls t = some c → c.pc.armed = true → (s.setCall t o).Armed c.token c.direction) :
    Flow (s.setCall t o) where
  fresh := h.fresh
  call t' c' hc' := by
    by_cases e : t' = t
    · rw [e, setCall_self] at hc'
      exact ⟨(ho c' hc').clearing, (ho c' hc').unset, (ho c' hc').armed⟩
    · rw [setCall_ne o e] at hc'
      have := h.call t' c' hc'
      exact ⟨this.clearing, this.unset, this.armed⟩
  taken := h.taken
  waiting token d w σ hl hσ := by
    rcases h.waiting token d w σ hl hσ with hw | ⟨hd, hi | ⟨t', c', hc', h1, h2, h3⟩⟩
    · exact .inl hw
    · exact .inr ⟨hd, .inl hi⟩
    · refine .inr ⟨hd, .inr ?_⟩
      by_cases e : t' = t
      · subst e
        rw [← h1, ← h2]
        exact ha c' hc' h3
      · exact ⟨t', c', by rw [setCall_ne o e]; exact hc', h1, h2, h3⟩

/-- A call goes on. -/
theorem Flow.goto (h : Flow s) (hc : s.calls t = some c) {pc : PollPc}
    (ho : CallOk s { c with pc := pc }) (ha : c.pc.armed = true → pc.armed = true) :
    Flow (s.goto t c pc) := by
  refine h.setCall (fun c' hc' => ?_) (fun c' hc' harm => ?_)
  · cases hc'
    exact ho
  · rw [hc] at hc'
    cases hc'
    exact ⟨t, _, setCall_self _, rfl, rfl, ha harm⟩

/-! ## steps of a call -/

theorem Flow.look (h : Flow s) (hc : s.calls t = some c) {pc : PollPc} (hk : Look s c pc) :
    Flow (s.goto t c pc) := by
  have ho := h.call t c hc
  cases hk with
  | hit hpc hσ ht =>
    refine h.goto hc ⟨nofun, nofun, nofun⟩ (fun ha => ?_)
    -- a flag that was seen down under the lock is not seen up
    have := ho.unset (PollPc.armed_waiting ha) _ hσ
    rw [ht] at this
    cases this
  | miss hpc hσ ht =>
    refine h.goto hc ⟨nofun, fun _ σ' hσ' => ?_, nofun⟩ (by rw [hpc]; exact nofun)
    rw [hσ] at hσ'
    cases hσ'
    exact ht
  | still hpc hσ ht =>
    refine h.goto hc ⟨nofun, fun _ σ' hσ' => ?_, fun _ => ?_⟩ (fun _ => rfl)
    · rw [hσ] at hσ'
      cases hσ'
      exact ht
    · exact ho.armed (by rw [hpc]; rfl)
  | wouldBlock hpc hr =>
    refine h.goto hc ⟨fun _ hr' => ?_, nofun, nofun⟩ (by rw [hpc]; exact nofun)
    rw [hr] at hr'
    cases hr'
  | done hpc => exact h.goto hc ⟨nofun, nofun, nofun⟩ (by rw [hpc]; exact nofun)

/-- In a place lives one stream. -/
theorem live_unique {token token' : Token} (hl' : s.phase (slot token') = .live token')
    (hl : s.phase (slot token) = .live token) (e : slot token' = slot token) : token' = token := by
  rw [e, hl] at hl'
  cases hl'
  rfl

/-- **A call writes the source that it holds.** -/
theorem Flow.write (h : Flow s) (hg : Guarded s) (hc : s.calls t = some c) (hpc : c.pc ≠ .lock)
    (hna : c.pc.armed = false) {σ σ' : Source K} {pc : PollPc}
    (hσ : s.sources (slot c.token) = some σ)
    (hf : ∀ d, σ'.triggered d = false → s.ready (c.token, d) = true → s.Undelivered c.token d)
    (ho : CallOk (s.setSource (slot c.token) σ') { c with pc := pc })
    (hw : ∀ d w, σ.triggered d = false → σ.interest d = some w →
      σ'.triggered d = false ∧ (σ'.interest d = some w ∨ (d = c.direction ∧ pc.armed = true))) :
    Flow ((s.setSource (slot c.token) σ').goto t c pc) := by
  have hl := hg.call t c hc
  constructor
  · intro token d σ₁ hlive hσ₁ hd hr
    change (s.setSource _ σ').sources _ = _ at hσ₁
    by_cases e : slot token = slot c.token
    · rw [e, setSource_self] at hσ₁
      cases hσ₁
      obtain rfl := live_unique hlive hl e
      exact hf d hd hr
    · rw [setSource_ne σ' e] at hσ₁
      exact h.fresh token d σ₁ hlive hσ₁ hd hr
  · intro t' c' hc'
    by_cases e : t' = t
    · rw [e, State.goto, setCall_self] at hc'
      cases hc'
      exact ⟨ho.clearing, ho.unset, ho.armed⟩
    · rw [State.goto, setCall_ne _ e] at hc'
      have ho' := h.call t' c' hc'
      have hne : c'.pc ≠ .lock → slot c'.token ≠ slot c.token :=
        fun h0 h1 => e (hg.unique hc hpc hc' h0 h1)
      refine ⟨ho'.clearing, fun hwt σ₁ hσ₁ => ?_, fun harm σ₁ hσ₁ => ?_⟩
      · change (s.setSource _ σ').sources _ = _ at hσ₁
        rw [setSource_ne σ' (hne (PollPc.waiting_ne hwt))] at hσ₁
        exact ho'.unset hwt σ₁ hσ₁
      · change (s.setSource _ σ').sources _ = _ at hσ₁
        rw [setSource_ne σ' (hne (PollPc.waiting_ne (PollPc.armed_waiting harm)))] at hσ₁
        exact ho'.armed harm σ₁ hσ₁
  · intro token d ds es σ₁ hr hσ₁
    change (s.setSource _ σ').sources _ = _ at hσ₁
    rw [setSource_ne σ' (hg.apart hc hpc hr)] at hσ₁
    exact h.taken token d ds es σ₁ hr hσ₁
  · intro token d w σ₁ hlast hσ₁
    change (s.setSource _ σ').sources _ = _ at hσ₁
    by_cases e : slot token = slot c.token
    · rw [e, setSource_self] at hσ₁
      cases hσ₁
      obtain rfl := live_unique (hg.last token d _ hlast) hl e
      rcases h.waiting _ d w σ hlast hσ with hin | ⟨hd, hi | ⟨t', c', hc', h1, h2, h3⟩⟩
      · exact .inl hin
      · obtain ⟨hd', hi' | ⟨hdir, harm⟩⟩ := hw d w hd hi
        · exact .inr ⟨hd', .inl hi'⟩
        · exact .inr ⟨hd', .inr ⟨t, _, setCall_self _, rfl, hdir.symm, harm⟩⟩
      · -- the call that is armed on this source would be this one
        have ht := hg.unique hc hpc hc' (PollPc.waiting_ne (PollPc.armed_waiting h3)) (by rw [h1])
        rw [ht, hc] at hc'
        cases hc'
        rw [hna] at h3
        cases h3
    · rw [setSource_ne σ' e] at hσ₁
      rcases h.waiting token d w σ₁ hlast hσ₁ with hin | ⟨hd, hi | ⟨t', c', hc', h1, h2, h3⟩⟩
      · exact .inl hin
      · exact .inr ⟨hd, .inl hi⟩
      · have hne : t' ≠ t := by
          rintro rfl
          rw [hc] at hc'
          cases hc'
          exact e (by rw [h1])
        exact .inr ⟨hd, .inr ⟨t', c', by rw [State.goto, setCall_ne _ hne]; exact hc', h1, h2, h3⟩⟩

theorem Flow.arm (h : Flow s) (hg : Guarded s) (hc : s.calls t = some c) (hpc : c.pc = .arm)
    {σ : Source K} (hσ : s.sources (slot c.token) = some σ) :
    Flow ((s.setSource (slot c.token) (σ.updateWaker c.direction c.waker)).goto t c .recheck) := by
  have ho := h.call t c hc
  have hd : σ.triggered c.direction = false := ho.unset (by rw [hpc]; rfl) σ hσ
  refine h.write hg hc (by rw [hpc]; exact nofun) (by rw [hpc]; rfl) hσ ?_ ⟨nofun, ?_, ?_⟩ ?_
  · intro d htr hr
    rw [Source.triggered_updateWaker] at htr
    exact h.fresh _ d σ (hg.call t c hc) hσ htr hr
  · intro _ σ' hσ'
    rw [setSource_self] at hσ'
    cases hσ'
    rw [Source.triggered_updateWaker]
    exact hd
  · intro _ σ' hσ'
    rw [setSource_self] at hσ'
    cases hσ'
    exact Source.interest_updateWaker_self ..
  · intro d w htr hi
    rw [Source.triggered_updateWaker]
    refine ⟨htr, ?_⟩
    by_cases e : d = c.direction
    · exact .inr ⟨e, rfl⟩
    · rw [Source.interest_updateWaker_of_ne _ _ e]
      exact .inl hi

/-- The flag goes down: readiness since the operation failed has an event. -/
theorem Flow.clear (h : Flow s) (hg : Guarded s) (hc : s.calls t = some c) (hpc : c.pc = .clear)
    {σ : Source K} (hσ : s.sources (slot c.token) = some σ) :
    Flow ((s.setSource (slot c.token) (σ.setTriggered c.direction false)).goto t c
      (.leave .again)) := by
  have ho := h.call t c hc
  refine h.write hg hc (by rw [hpc]; exact nofun) (by rw [hpc]; rfl) hσ ?_ ⟨nofun, nofun, nofun⟩ ?_
  · intro d htr hr
    by_cases e : d = c.direction
    · rw [e] at hr ⊢
      exact ho.clearing hpc hr
    · change Function.update σ.triggered _ _ d = _ at htr
      rw [Function.update_of_ne e] at htr
      exact h.fresh _ d σ (hg.call t c hc) hσ htr hr
  · intro d w htr hi
    refine ⟨?_, .inl hi⟩
    change Function.update σ.triggered _ _ d = _
    by_cases e : d = c.direction
    · rw [e, Function.update_self]
    · rw [Function.update_of_ne e]
      exact htr

/-- A call returns; `Pending` leaves its waker stored and the flag down. -/
theorem Flow.ret (h : Flow s) (hc : s.calls t = some c)
    {a : Option (K × Bool)}
    (ha : ∀ w, a = some (w, false) → c.pc = .leave .pending ∧ w = c.waker) :
    Flow (s.ret t c a) where
  fresh := h.fresh
  call t' c' hc' := by
    change (s.setCall t none).calls t' = _ at hc'
    by_cases e : t' = t
    · rw [e, setCall_self] at hc'
      cases hc'
    · rw [setCall_ne _ e] at hc'
      have := h.call t' c' hc'
      exact ⟨this.clearing, this.unset, this.armed⟩
  taken := h.taken
  waiting token d w σ hl hσ := by
    change Function.update s.last (c.token, c.direction) a (token, d) = _ at hl
    by_cases e : (token, d) = (c.token, c.direction)
    · cases e
      rw [Function.update_self] at hl
      obtain ⟨hpc, rfl⟩ := ha w hl
      have ho := h.call t c hc
      exact .inr ⟨ho.unset (by rw [hpc]; rfl) σ hσ, .inl (ho.armed (by rw [hpc]; rfl) σ hσ)⟩
    · rw [Function.update_of_ne e] at hl
      rcases h.waiting token d w σ hl hσ with hin | ⟨hd, hi | ⟨t', c', hc', h1, h2, h3⟩⟩
      · exact .inl hin
      · exact .inr ⟨hd, .inl hi⟩
      · have hne : t' ≠ t := by
          rintro rfl
          rw [hc] at hc'
          cases hc'
          exact e (by rw [h1, h2])
        exact .inr ⟨hd, .inr ⟨t', c', (setCall_ne none hne).trans hc', h1, h2, h3⟩⟩

theorem Flow.moved (h : Flow s) (hg : Guarded s) (hc : s.calls t = some c)
    (hs : Moved s t c s') : Flow s' := by
  cases hs with
  | acquire hpc hf hk =>
    refine h.setLock.goto hc ?_ (by rw [hpc]; exact nofun)
    rcases hk with rfl | hσ
    · exact ⟨nofun, nofun, nofun⟩
    · obtain ⟨σ, hσ'⟩ := hg.live_source (hg.call t c hc)
      rw [hσ] at hσ'
      cases hσ'
  | look hk => exact h.look hc hk
  | arm hpc hσ => exact h.arm hg hc hpc hσ
  | clear hpc hσ => exact h.clear hg hc hpc hσ
  | again hpc =>
    exact h.setLock.goto hc ⟨nofun, nofun, nofun⟩ (by rw [hpc]; exact nofun)
  | pending hpc =>
    exact h.setLock.ret hc (fun w hw => by cases hw; exact ⟨hpc, rfl⟩)
  | ready hpc => exact h.setLock.ret hc nofun

/-! ## steps of the reactor -/

theorem Event.says_iff {e : Event} {token : Token} {d : Direction} :
    e.says token d = true ↔ e.token = token ∧ d ∈ e.directions := decide_eq_true_iff

/-- **The reactor writes the source that it holds.**  An event may be dropped when its flag is up,
a waker when it is in the list. -/
theorem Flow.deliver (h : Flow s) (hg : Guarded s) {token : Token} {ds : List Direction} {b : Bool}
    {es : List Event} (hr : s.reactor = .event token ds b es) {σ σ' : Source K} {ws : List K}
    {r : ReactorPc} (hσ : s.sources (slot token) = some σ)
    (hc : ∀ token' d, σ'.triggered d = false ∨ slot token' ≠ slot token →
      s.reactor.carries token' d → r.carries token' d)
    (hd : ∀ d, σ'.triggered d = false → σ.triggered d = false)
    (ht : ∀ token' d ds es, r = .event token' (d :: ds) true es →
      token' = token ∧ σ'.interest d = none)
    (hw : ∀ w ∈ s.wakers, w ∈ ws)
    (hi : ∀ d w, σ.triggered d = false → σ.interest d = some w →
      w ∈ ws ∨ (σ'.triggered d = false ∧ σ'.interest d = some w)) :
    Flow { s.setSource (slot token) σ' with wakers := ws, reactor := r } := by
  constructor
  · intro token' d σ₁ hl hσ₁ htr hrd
    change (s.setSource _ σ').sources _ = _ at hσ₁
    by_cases e : slot token' = slot token
    · rw [e, setSource_self] at hσ₁
      cases hσ₁
      exact (h.fresh token' d σ hl (e ▸ hσ) (hd d htr) hrd).imp_right (hc token' d (.inl htr))
    · rw [setSource_ne σ' e] at hσ₁
      exact (h.fresh token' d σ₁ hl hσ₁ htr hrd).imp_right (hc token' d (.inr e))
  · intro t c hcall
    have ho := h.call t c hcall
    have hne : c.pc ≠ .lock → slot c.token ≠ slot token :=
      fun hpc => Ne.symm (hg.apart hcall hpc hr)
    refine ⟨fun hpc hrd => ?_, fun hwt σ₁ hσ₁ => ?_, fun harm σ₁ hσ₁ => ?_⟩
    · exact (ho.clearing hpc hrd).imp_right
        (hc _ _ (.inr (hne (by rw [hpc]; exact nofun))))
    · change (s.setSource _ σ').sources _ = _ at hσ₁
      rw [setSource_ne σ' (hne (PollPc.waiting_ne hwt))] at hσ₁
      exact ho.unset hwt σ₁ hσ₁
    · change (s.setSource _ σ').sources _ = _ at hσ₁
      rw [setSource_ne σ' (hne (PollPc.waiting_ne (PollPc.armed_waiting harm)))] at hσ₁
      exact ho.armed harm σ₁ hσ₁
  · intro token' d ds' es' σ₁ he hσ₁
    obtain ⟨rfl, hnone⟩ := ht token' d ds' es' he
    change (s.setSource _ σ').sources _ = _ at hσ₁
    rw [setSource_self] at hσ₁
    cases hσ₁
    exact hnone
  · intro token' d w σ₁ hlast hσ₁
    change (s.setSource _ σ').sources _ = _ at hσ₁
    by_cases e : slot token' = slot token
    · rw [e, setSource_self] at hσ₁
      cases hσ₁
      rcases h.waiting token' d w σ hlast (e ▸ hσ) with hin | ⟨hdn, hint | ⟨t, c, hcall, h1, _, h3⟩⟩
      · exact .inl (hw w hin)
      · exact (hi d w hdn hint).imp_right (fun hx => ⟨hx.1, .inl hx.2⟩)
      · -- no call is armed on a source that the reactor holds
        have hpc := PollPc.waiting_ne (PollPc.armed_waiting h3)
        exact absurd (by rw [h1, e]) (hg.apart hcall hpc hr)
    · rw [setSource_ne σ' e] at hσ₁
      exact (h.waiting token' d w σ₁ hlast hσ₁).imp_left (hw w)

/-- The waker moves into the list. -/
theorem Flow.take (h : Flow s) (hg : Guarded s) {token : Token} {d : Direction}
    {ds : List Direction} {es : List Event} {σ : Source K}
    (hr : s.reactor = .event token (d :: ds) false es) (hσ : s.sources (slot token) = some σ) :
    Flow { s.setSource (slot token) (σ.take d) with
      wakers := s.wakers ++ (σ.interest d).toList
      reactor := .event token (d :: ds) true es } := by
  refine h.deliver hg hr hσ ?_ (fun _ hd => hd) ?_ ?_ ?_
  · rw [hr]
    exact fun _ _ _ hc => hc
  · intro token' d' ds' es' he
    cases he
    exact ⟨rfl, Function.update_self ..⟩
  · exact fun w hw => List.mem_append_left _ hw
  · intro d' w hd hi
    by_cases e : d' = d
    · rw [← e, hi]
      exact .inl (List.mem_append_right _ (List.mem_singleton_self w))
    · exact .inr ⟨hd, (Function.update_of_ne e ..).trans hi⟩

/-- The flag goes up: the event is delivered. -/
theorem Flow.trigger (h : Flow s) (hg : Guarded s) {token : Token} {d : Direction}
    {ds : List Direction} {es : List Event} {σ : Source K}
    (hr : s.reactor = .event token (d :: ds) true es) (hσ : s.sources (slot token) = some σ) :
    Flow { s.setSource (slot token) (σ.setTriggered d true) with
      reactor := .event token ds false es } := by
  have hup : ∀ d', (σ.setTriggered d true).triggered d' = false →
      d' ≠ d ∧ σ.triggered d' = false := by
    intro d' hd
    change Function.update σ.triggered d true d' = false at hd
    by_cases e : d' = d
    · rw [e, Function.update_self] at hd
      cases hd
    · rw [Function.update_of_ne e] at hd
      exact ⟨e, hd⟩
  refine h.deliver hg hr hσ ?_ (fun d' hd => (hup d' hd).2) nofun (fun _ hw => hw) ?_
  · intro token' d' hk hc
    rw [hr] at hc
    refine hc.imp_left (fun hx => ⟨hx.1, ?_⟩)
    rcases List.mem_cons.mp hx.2 with rfl | hmem
    · rcases hk with hd | hne
      · exact absurd rfl (hup d' hd).1
      · exact absurd (by rw [hx.1]) hne
    · exact hmem
  · intro d' w hd hi
    by_cases e : d' = d
    · -- its waker has been taken
      rw [e, h.taken token d ds es σ hr hσ] at hi
      cases hi
    · exact .inr ⟨(Function.update_of_ne e ..).trans hd, hi⟩

theorem Flow.handled (h : Flow s) (hg : Guarded s) (hs : Handled s s') : Flow s' := by
  cases hs with
  | all hr =>
    refine h.mono hg rfl rfl rfl (fun token d _ hrd hu => ?_) nofun (fun _ _ _ hl => ⟨hl, id⟩)
    refine (hu hrd).imp_right (fun hc => ?_)
    rw [hr] at hc
    obtain ⟨e, he, _⟩ := hc
    cases he
  | @skip e es hr hσ =>
    refine h.mono hg rfl rfl rfl (fun token d hl hrd hu => ?_) nofun (fun _ _ _ hl => ⟨hl, id⟩)
    refine (hu hrd).imp_right (fun hc => ?_)
    rw [hr] at hc
    obtain ⟨e', he', hsay⟩ := hc
    rcases List.mem_cons.mp he' with rfl | hmem
    · -- a live stream has its source in place
      obtain ⟨σ, hσ'⟩ := hg.live_source hl
      rw [(Event.says_iff.mp hsay).1, hσ'] at hσ
      cases hσ
    · exact ⟨e', hmem, hsay⟩
  | @acquire e es hr hf =>
    refine h.setLock.mono (hg.setLock hf (some .reactor)) rfl rfl rfl (fun token d _ hrd hu => ?_)
      (fun _ _ _ _ he => by injection he with _ _ hb; cases hb) (fun _ _ _ hl => ⟨hl, id⟩)
    refine (hu hrd).imp_right (fun hc => ?_)
    change s.reactor.carries token d at hc
    rw [hr] at hc
    obtain ⟨e', he', hsay⟩ := hc
    rcases List.mem_cons.mp he' with rfl | hmem
    · exact .inl (Event.says_iff.mp hsay)
    · exact .inr ⟨e', hmem, hsay⟩
  | @release token b es hr =>
    have hm : Flow { s with reactor := .handling es } := by
      refine h.mono hg rfl rfl rfl (fun token' d _ hrd hu => ?_) nofun (fun _ _ _ hl => ⟨hl, id⟩)
      refine (hu hrd).imp_right (fun hc => ?_)
      rw [hr] at hc
      rcases hc with ⟨_, hmem⟩ | hc
      · cases hmem
      · exact hc
    exact hm.setLock
  | take hr hσ => exact h.take hg hr hσ
  | trigger hr hσ => exact h.trigger hg hr hσ
  | @wake w ws hr hw =>
    refine h.mono hg rfl rfl rfl (fun _ _ _ hrd hu => hu hrd) (fun _ _ _ _ _ => rfl) ?_
    intro token d w' hl
    obtain ⟨⟨k, b⟩, hk, he⟩ := Option.map_eq_some_iff.mp hl
    obtain ⟨rfl, hb⟩ := Prod.mk.inj he
    obtain ⟨rfl, hne⟩ := Bool.or_eq_false_iff.mp hb
    refine ⟨hk, fun hmem => ?_⟩
    rw [hw] at hmem
    exact (List.mem_cons.mp hmem).resolve_left (of_decide_eq_false hne)
  | drained hr =>
    refine h.mono hg rfl rfl rfl (fun token d _ hrd hu => ?_) nofun (fun _ _ _ hl => ⟨hl, id⟩)
    refine (hu hrd).imp_right (fun hc => ?_)
    rw [hr] at hc
    exact hc.elim

/-! ## the life of a stream -/

/-- What changes in a place without calls, where no stream is alive afterwards. -/
theorem Flow.retire (h : Flow s) {i : UInt32}
    (hl : ∀ token, s'.phase (slot token) = .live token →
      slot token ≠ i ∧ s.phase (slot token) = .live token)
    (hs : ∀ j, j ≠ i → s'.sources j = s.sources j) (hc : s'.calls = s.calls)
    (hn : ∀ t c, s.calls t = some c → slot c.token ≠ i) (hr : s'.ready = s.ready)
    (ht : s'.reactor = s.reactor) (hf : s'.sources = s.sources ∨ s.lock i = none)
    (hg : Guarded s) (hu : ∀ token d, slot token ≠ i → s.Undelivered token d →
      s'.Undelivered token d)
    (hw : s'.wakers = s.wakers) (hlast : ∀ token d k, s'.last (token, d) = some k →
      slot token ≠ i ∧ s.last (token, d) = some k) : Flow s' where
  fresh token d σ hlive hσ hd hrd := by
    obtain ⟨hne, hlive'⟩ := hl token hlive
    rw [hs _ hne] at hσ
    rw [hr] at hrd
    exact hu token d hne (h.fresh token d σ hlive' hσ hd hrd)
  call t c hcall := by
    rw [hc] at hcall
    have ho := h.call t c hcall
    have hne := hn t c hcall
    constructor
    · rw [hr]
      exact fun hpc hrd => hu _ _ hne (ho.clearing hpc hrd)
    · rw [hs _ hne]
      exact ho.unset
    · rw [hs _ hne]
      exact ho.armed
  taken token d ds es σ he hσ := by
    rw [ht] at he
    rcases hf with hf | hf
    · rw [hf] at hσ
      exact h.taken token d ds es σ he hσ
    · have hlock := hg.reactor token _ _ _ he
      rw [hs] at hσ
      · exact h.taken token d ds es σ he hσ
      · intro e
        rw [e, hf] at hlock
        cases hlock
  waiting token d w σ hk hσ := by
    obtain ⟨hne, hk'⟩ := hlast token d _ hk
    rw [hs _ hne] at hσ
    unfold State.Armed
    rw [hw, hc]
    exact h.waiting token d w σ hk' hσ

theorem live_of_update {i : UInt32} {f : Phase} {token : Token} (hf : ∀ token', f ≠ .live token')
    (hl : Function.update s.phase i f (slot token) = .live token) :
    slot token ≠ i ∧ s.phase (slot token) = .live token := by
  by_cases e : slot token = i
  · rw [e, Function.update_self] at hl
    exact absurd hl (hf token)
  · rw [Function.update_of_ne e] at hl
    exact ⟨e, hl⟩

/-- Readiness at registration has an event. -/
theorem Flow.register (h : Flow s) {q : QueueIndex} :
    Flow { s with
      phase := Function.update s.phase q.index (.live q.toUsize)
      edge := fun p => if p.1 = q.toUsize then s.ready p else s.edge p } := by
  have hu : ∀ token d, s.ready (token, d) = true →
      (token ≠ q.toUsize → s.Undelivered token d) →
      (if token = q.toUsize then s.ready (token, d) else s.edge (token, d)) = true ∨
        s.reactor.carries token d := by
    intro token d hr hx
    split
    · exact .inl hr
    · next hne => exact hx hne
  constructor
  · intro token d σ hl hσ hd hr
    refine hu token d hr (fun hne => h.fresh token d σ ?_ hσ hd hr)
    change Function.update s.phase q.index _ (slot token) = _ at hl
    by_cases e : slot token = q.index
    · rw [e, Function.update_self] at hl
      cases hl
      exact absurd rfl hne
    · rw [Function.update_of_ne e] at hl
      exact hl
  · intro t c hc
    have ho := h.call t c hc
    exact ⟨fun hpc hr => hu _ _ hr (fun _ => ho.clearing hpc hr), ho.unset, ho.armed⟩
  · exact h.taken
  · exact h.waiting

variable [Fintype T]

/-- **Every step keeps track of readiness.** -/
theorem Flow.step (h : Flow s) (hg : Guarded s) {a : Act T K} (hs : s.step a = some s') :
    Flow s' := by
  cases a with
  | kernel token d r =>
    cases hs
    have hedge : ∀ p, s.edge p = true → (if r = true ∧ s.ready (token, d) = false ∧
        s.phase (slot token) = .live token then Function.update s.edge (token, d) true
        else s.edge) p = true := by
      intro p hp
      split
      · rw [Function.update_apply]
        split
        · rfl
        · exact hp
      · exact hp
    refine h.mono hg rfl rfl rfl ?_ (fun _ _ _ _ _ => rfl) (fun _ _ _ hl => ⟨hl, id⟩)
    intro token' d' hl hrd hu
    change Function.update s.ready (token, d) r (token', d') = true at hrd
    by_cases e : (token', d') = (token, d)
    · cases e
      rw [Function.update_self] at hrd
      rcases Bool.eq_false_or_eq_true (s.ready (token, d)) with hold | hold
      · exact (hu hold).imp_left (hedge _)
      · left
        change (if r = true ∧ s.ready (token, d) = false ∧ s.phase (slot token) = .live token then
          Function.update s.edge (token, d) true else s.edge) (token, d) = true
        rw [if_pos ⟨hrd, hold, hl⟩, Function.update_self]
    · rw [Function.update_of_ne e] at hrd
      exact (hu hrd).imp_left (hedge _)
  | place q =>
    simp only [State.step] at hs
    split at hs
    · next hq =>
      cases hs
      have hnone : s.sources q.index = none := Option.isNone_iff_eq_none.mp hq.2
      have hdead : ∀ token, s.phase (slot token) = .live token → slot token ≠ q.index := by
        intro token hl e
        obtain ⟨σ, hσ⟩ := hg.live_source hl
        rw [e, hnone] at hσ
        cases hσ
      exact h.retire (fun token hl => live_of_update (fun _ h0 => by cases h0) hl)
        (fun j hj => setSource_ne _ hj) rfl
        (fun t c hc => hdead _ (hg.call t c hc)) rfl rfl (.inr hq.1) hg (fun _ _ _ hu => hu) rfl
        (fun token d k hk => ⟨hdead token (hg.last token d k hk), hk⟩)
    · cases hs
  | register q =>
    simp only [State.step] at hs
    split at hs
    · cases hs; exact h.register
    · cases hs
  | pollIo t token d w =>
    simp only [State.step] at hs
    split at hs
    · next hq =>
      cases hs
      refine h.setCall (fun c hc => ?_) (fun c hc => ?_)
      · cases hc
        exact ⟨(fun h => by cases h), (fun h => by cases h), (fun h => by cases h)⟩
      · rw [Option.isNone_iff_eq_none.mp hq.1] at hc
        cases hc
    · cases hs
  | poll t b =>
    obtain ⟨c, hc, hs⟩ := Option.bind_eq_some_iff.mp hs
    exact h.moved hg hc (pollStep_moved hs)
  | deregister token =>
    simp only [State.step] at hs
    split at hs
    · next hq =>
      cases hs
      have hne : ∀ token', token' ≠ token → s.phase (slot token') = .live token' →
          slot token' ≠ slot token := fun token' hne hl e => hne (live_unique hl hq.1 e)
      refine h.retire (fun token' hl => live_of_update (fun _ h0 => by cases h0) hl)
        (fun _ _ => rfl) rfl
        (fun t c hc => hne _ (hq.2 t c hc) (hg.call t c hc)) rfl rfl (.inl rfl) hg
        (fun token' d he hu => hu.imp_left (fun hx => ?_)) rfl (fun token' d k hk => ?_)
      · change (if token' = token then false else s.edge (token', d)) = true
        rw [if_neg (fun e => he (by rw [e]))]
        exact hx
      · change (if token' = token then none else s.last (token', d)) = some k at hk
        split at hk
        · cases hk
        · next e => exact ⟨hne token' e (hg.last token' d k hk), hk⟩
    · cases hs
  | remove token =>
    simp only [State.step] at hs
    split at hs
    · next hq =>
      cases hs
      have hdead : ∀ token', s.phase (slot token') = .live token' → slot token' ≠ slot token := by
        intro token' hl e
        rw [e, hq.2] at hl
        cases hl
      exact h.retire (fun token' hl => live_of_update (fun _ h0 => by cases h0) hl)
        (fun j hj => Function.update_of_ne hj ..) rfl (fun t c hc => hdead _ (hg.call t c hc))
        rfl rfl (.inr hq.1) hg (fun _ _ _ hu => hu) rfl
        (fun token' d k hk => ⟨hdead token' (hg.last token' d k hk), hk⟩)
    · cases hs
  | fetch es =>
    simp only [State.step] at hs
    split at hs
    · next hr =>
      cases hs
      refine h.mono hg rfl rfl rfl (fun token d _ hrd hu => ?_) (fun _ _ _ _ h => by cases h)
        (fun _ _ _ hl => ⟨hl, id⟩)
      rcases hu hrd with he | hc
      · cases hany : es.any (fun e => e.says token d) with
        | true => exact .inr (List.any_eq_true.mp hany)
        | false =>
          left
          change (s.edge (token, d) && !es.any (fun e => e.says token d)) = true
          rw [he, hany]
          rfl
      · rw [hr] at hc
        exact hc.elim
    · cases hs
  | reactor => exact h.handled hg (reactorStep_handled hs)

theorem flow_of_reachable (h : machine.Reachable s) : Flow s :=
  h.invariant flow_init (fun _ _ _ hr hi _ hs => hi.step (guarded_of_reachable hr) hs)

/-- **No readiness is lost.**  In every reachable state: if the latest `poll_io` on a live stream in
a direction returned `Pending` for a waker, and the direction is ready, then an event for it is
still undelivered, or the waker is in the list of the reactor, or it has been woken since. -/
theorem no_lost_readiness (s : State T K) (h : machine.Reachable s) (i : UInt32) (token : Token)
    (d : Direction) (w : K) (woken : Bool) (hl : s.phase i = .live token)
    (hp : s.last (token, d) = some (w, woken)) (hr : s.ready (token, d) = true) :
    s.Undelivered token d ∨ w ∈ s.wakers ∨ woken = true := by
  have hg := guarded_of_reachable h
  have hf := flow_of_reachable h
  obtain rfl := hg.routed i token (by rw [hl]; rfl)
  obtain ⟨σ, hσ⟩ := hg.live_source hl
  cases woken with
  | true => exact .inr (.inr rfl)
  | false =>
    rcases hf.waiting token d w σ hp hσ with hin | ⟨hd, _⟩
    · exact .inr (.inl hin)
    · exact .inl (hf.fresh token d σ hl hσ hd hr)

/-- a stream that becomes ready for its reader between the failing operation and `clear_trigger` -/
def raceRun : List (Act (Fin 2) ℕ) :=
  let q : QueueIndex := ⟨3, 1⟩
  let token := q.toUsize
  [.kernel token .read true, .place q, .register q, .fetch [⟨token, true, false⟩], .reactor,
    .reactor, .reactor, .reactor, .reactor, .reactor, .pollIo 0 token .read 7, .poll 0 false,
    .poll 0 false, .kernel token .read false, .poll 0 true, .kernel token .read true, .poll 0 false,
    .poll 0 false, .poll 0 false, .poll 0 false, .poll 0 false, .poll 0 false, .poll 0 false]

/-- The call answers `Pending`, and the event of the second change is under way. -/
theorem no_lost_readiness_race :
    (machine.final raceRun).Undelivered (QueueIndex.toUsize ⟨3, 1⟩) .read ∨
      7 ∈ (machine.final raceRun).wakers ∨ false = true :=
  no_lost_readiness _ (Machine.reachable_final _ _) 1 _ .read 7 false (by decide) (by decide)
    (by decide)

end
end Reactor
end Nea
