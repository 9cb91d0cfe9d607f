import Nea.Reactor.System

/-!
# Who may touch a source

What a call of `poll_io` and the reactor do in one step, as relations (`Moved`, `Handled`), and the
discipline of the mutex around a source: a call between taking and dropping its guard, and the
reactor with an event in hand, hold it (`Guarded`).  The source of a stream is in its place for as
long as the stream lives.
-/

set_option linter.unusedSectionVars false

namespace Nea
namespace Reactor
variable {T K : Type} [DecidableEq T] [DecidableEq K]

/-! ## what a step does -/

/-- the steps of `poll_io` that only look -/
inductive Look (s : State T K) (c : PollIo K) : PollPc → Prop where
  | hit {σ : Source K} (hpc : c.pc = .check ∨ c.pc = .recheck)
      (hσ : s.sources (slot c.token) = some σ) (ht : σ.triggered c.direction = true) :
      Look s c .operate
  | miss {σ : Source K} (hpc : c.pc = .check) (hσ : s.sources (slot c.token) = some σ)
      (ht : σ.triggered c.direction = false) : Look s c .arm
  | still {σ : Source K} (hpc : c.pc = .recheck) (hσ : s.sources (slot c.token) = some σ)
      (ht : σ.triggered c.direction = false) : Look s c (.leave .pending)
  | wouldBlock (hpc : c.pc = .operate) (hr : s.ready (c.token, c.direction) = false) :
      Look s c .clear
  | done (hpc : c.pc = .operate) : Look s c (.leave .ready)

theorem Look.pc_ne {s : State T K} {c : PollIo K} {pc : PollPc} (h : Look s c pc) :
    c.pc ≠ .lock := by
  intro h0
  cases h with
  | hit hpc => rcases hpc with h | h <;> rw [h] at h0 <;> cases h0
  | miss hpc => rw [hpc] at h0; cases h0
  | still hpc => rw [hpc] at h0; cases h0
  | wouldBlock hpc => rw [hpc] at h0; cases h0
  | done hpc => rw [hpc] at h0; cases h0

/-- one step of a call -/
inductive Moved (s : State T K) (t : T) (c : PollIo K) : State T K → Prop where
  | acquire {pc : PollPc} (hpc : c.pc = .lock) (hf : s.lock (slot c.token) = none)
      (hk : pc = .check ∨ s.sources (slot c.token) = none) :
      Moved s t c ((s.setLock (slot c.token) (some (.thread t))).goto t c pc)
  | look {pc : PollPc} (hk : Look s c pc) : Moved s t c (s.goto t c pc)
  | arm {σ : Source K} (hpc : c.pc = .arm) (hσ : s.sources (slot c.token) = some σ) :
      Moved s t c ((s.setSource (slot c.token) (σ.updateWaker c.direction c.waker)).goto t c
        .recheck)
  | clear {σ : Source K} (hpc : c.pc = .clear) (hσ : s.sources (slot c.token) = some σ) :
      Moved s t c ((s.setSource (slot c.token) (σ.setTriggered c.direction false)).goto t c
        (.leave .again))
  | again (hpc : c.pc = .leave .again) :
      Moved s t c ((s.setLock (slot c.token) none).goto t c .lock)
  | pending (hpc : c.pc = .leave .pending) :
      Moved s t c ((s.setLock (slot c.token) none).ret t c (some (c.waker, false)))
  | ready (hpc : c.pc = .leave .ready) :
      Moved s t c ((s.setLock (slot c.token) none).ret t c none)

theorem pollStep_moved {s s' : State T K} {t : T} {c : PollIo K} {b : Bool}
    (hs : s.pollStep t c b = some s') : Moved s t c s' := by
  unfold State.pollStep at hs
  dsimp only at hs
  split at hs
  · next hpc =>
    split at hs
    · next hf =>
      split at hs
      · next hσ => cases hs; exact .acquire hpc hf (.inr hσ)
      · cases hs; exact .acquire hpc hf (.inl rfl)
    · cases hs
  · next hpc =>
    obtain ⟨σ, hσ, rfl⟩ := Option.map_eq_some_iff.mp hs
    split
    · next ht => exact .look (.hit (.inl hpc) hσ ht)
    · next ht => exact .look (.miss hpc hσ (Bool.eq_false_iff.mpr ht))
  · next hpc =>
    obtain ⟨σ, hσ, rfl⟩ := Option.map_eq_some_iff.mp hs
    exact .arm hpc hσ
  · next hpc =>
    obtain ⟨σ, hσ, rfl⟩ := Option.map_eq_some_iff.mp hs
    split
    · next ht => exact .look (.hit (.inr hpc) hσ ht)
    · next ht => exact .look (.still hpc hσ (Bool.eq_false_iff.mpr ht))
  · next hpc =>
    split at hs
    · split at hs
      · cases hs
      · next hr => cases hs; exact .look (.wouldBlock hpc (Bool.eq_false_iff.mpr hr))
    · cases hs; exact .look (.done hpc)
  · next hpc =>
    obtain ⟨σ, hσ, rfl⟩ := Option.map_eq_some_iff.mp hs
    exact .clear hpc hσ
  · next hpc => cases hs; exact .again hpc
  · next hpc => cases hs; exact .pending hpc
  · next hpc => cases hs; exact .ready hpc

/-- one step of the reactor -/
inductive Handled (s : State T K) : State T K → Prop where
  | all (hr : s.reactor = .handling []) : Handled s { s with reactor := .waking }
  | skip {e : Event} {es : List Event} (hr : s.reactor = .handling (e :: es))
      (hσ : s.sources (slot e.token) = none) : Handled s { s with reactor := .handling es }
  | acquire {e : Event} {es : List Event} (hr : s.reactor = .handling (e :: es))
      (hf : s.lock (slot e.token) = none) :
      Handled s { s.setLock (slot e.token) (some .reactor) with
        reactor := .event e.token e.directions false es }
  | release {token : Token} {b : Bool} {es : List Event} (hr : s.reactor = .event token [] b es) :
      Handled s { s.setLock (slot token) none with reactor := .handling es }
  | take {token : Token} {d : Direction} {ds : List Direction} {es : List Event} {σ : Source K}
      (hr : s.reactor = .event token (d :: ds) false es) (hσ : s.sources (slot token) = some σ) :
      Handled s { s.setSource (slot token) (σ.take d) with
        wakers := s.wakers ++ (σ.interest d).toList
        reactor := .event token (d :: ds) true es }
  | trigger {token : Token} {d : Direction} {ds : List Direction} {es : List Event}
      {σ : Source K} (hr : s.reactor = .event token (d :: ds) true es)
      (hσ : s.sources (slot token) = some σ) :
      Handled s { s.setSource (slot token) (σ.setTriggered d true) with
        reactor := .event token ds false es }
  | wake {w : K} {ws : List K} (hr : s.reactor = .waking) (hw : s.wakers = w :: ws) :
      Handled s { s.wake w with wakers := ws }
  | drained (hr : s.reactor = .waking) : Handled s { s with reactor := .polling }

theorem reactorStep_handled {s s' : State T K} (hs : s.reactorStep = some s') :
    Handled s s' := by
  unfold State.reactorStep at hs
  split at hs
  · cases hs
  · next hr => cases hs; exact .all hr
  · next e es hr =>
    dsimp only at hs
    split at hs
    · next hf =>
      split at hs
      · next hσ => cases hs; exact .skip hr hσ
      · cases hs; exact .acquire hr hf
    · cases hs
  · next hr => cases hs; exact .release hr
  · next hr =>
    obtain ⟨σ, hσ, rfl⟩ := Option.map_eq_some_iff.mp hs
    exact .take hr hσ
  · next hr =>
    obtain ⟨σ, hσ, rfl⟩ := Option.map_eq_some_iff.mp hs
    exact .trigger hr hσ
  · next hr =>
    split at hs
    · next hw => cases hs; exact .wake hr hw
    · cases hs; exact .drained hr

/-! ## the discipline of the locks -/

structure Guarded (s : State T K) : Prop where
  /-- the token of a stream leads to the place of its source -/
  routed : ∀ i token, (s.phase i).token = some token → slot token = i
  source : ∀ i, s.phase i ≠ .absent → s.sources i ≠ none
  call : ∀ t c, s.calls t = some c → s.phase (slot c.token) = .live c.token
  thread : ∀ t c, s.calls t = some c → c.pc ≠ .lock →
    s.lock (slot c.token) = some (.thread t)
  reactor : ∀ token ds b es, s.reactor = .event token ds b es →
    s.lock (slot token) = some .reactor
  last : ∀ token d k, s.last (token, d) = some k → s.phase (slot token) = .live token

section
variable {s s' : State T K} {t t' : T} {c c' : PollIo K}

theorem setSource_self (i : UInt32) (σ : Source K) : (s.setSource i σ).sources i = some σ :=
  Function.update_self ..

theorem setSource_ne {i j : UInt32} (σ : Source K) (hne : j ≠ i) :
    (s.setSource i σ).sources j = s.sources j := Function.update_of_ne hne ..

theorem setLock_ne {i j : UInt32} (h : Option (Holder T)) (hne : j ≠ i) :
    (s.setLock i h).lock j = s.lock j := Function.update_of_ne hne ..

theorem setCall_self (o : Option (PollIo K)) : (s.setCall t o).calls t = o :=
  Function.update_self ..

theorem setCall_ne (o : Option (PollIo K)) (hne : t' ≠ t) :
    (s.setCall t o).calls t' = s.calls t' := Function.update_of_ne hne ..

theorem guarded_init : Guarded (State.init : State T K) where
  routed i token h := by cases h
  source i h := absurd rfl h
  call t c h := by cases h
  thread t c h := by cases h
  reactor token ds b es h := by cases h
  last token d k h := by cases h

/-- A stream has its source in place. -/
theorem Guarded.live_source (h : Guarded s) {token : Token}
    (hl : s.phase (slot token) = .live token) : ∃ σ, s.sources (slot token) = some σ := by
  apply Option.ne_none_iff_exists'.mp
  apply h.source
  rw [hl]
  exact nofun

/-- **Two calls do not hold one source.** -/
theorem Guarded.unique (h : Guarded s) (hc : s.calls t = some c) (hpc : c.pc ≠ .lock)
    (hc' : s.calls t' = some c') (hpc' : c'.pc ≠ .lock) (hi : slot c'.token = slot c.token) :
    t' = t := by
  have h1 := h.thread t c hc hpc
  have h2 := h.thread t' c' hc' hpc'
  rw [hi, h1] at h2
  cases h2
  rfl

/-- The reactor and a call do not hold one source. -/
theorem Guarded.apart (h : Guarded s) (hc : s.calls t = some c) (hpc : c.pc ≠ .lock)
    {token : Token} {ds : List Direction} {b : Bool} {es : List Event}
    (hr : s.reactor = .event token ds b es) : slot token ≠ slot c.token := by
  intro hi
  have h1 := h.thread t c hc hpc
  have h2 := h.reactor token ds b es hr
  rw [hi, h1] at h2
  cases h2

/-- The source is written by who holds it, and stays in its place. -/
theorem Guarded.setSource (h : Guarded s) {i : UInt32} {σ : Source K} :
    Guarded (s.setSource i σ) where
  routed := h.routed
  source j hj := by
    by_cases e : j = i
    · rw [e, setSource_self]
      exact nofun
    · rw [setSource_ne σ e]
      exact h.source j hj
  call := h.call
  thread := h.thread
  reactor := h.reactor
  last := h.last

theorem Guarded.setLock (h : Guarded s) {i : UInt32} (hf : s.lock i = none)
    (x : Option (Holder T)) : Guarded (s.setLock i x) where
  routed := h.routed
  source := h.source
  call := h.call
  thread t c hc hpc := by
    have h1 := h.thread t c hc hpc
    rw [setLock_ne]
    · exact h1
    · intro e
      rw [e, hf] at h1
      cases h1
  reactor token ds b es hr := by
    have h1 := h.reactor token ds b es hr
    rw [setLock_ne]
    · exact h1
    · intro e
      rw [e, hf] at h1
      cases h1
  last := h.last

theorem Guarded.setCall (h : Guarded s) {o : Option (PollIo K)}
    (ho : ∀ c, o = some c → s.phase (slot c.token) = .live c.token ∧
      (c.pc ≠ .lock → s.lock (slot c.token) = some (.thread t))) : Guarded (s.setCall t o) where
  routed := h.routed
  source := h.source
  call t' c' hc' := by
    by_cases e : t' = t
    · rw [e, setCall_self] at hc'
      exact (ho c' hc').1
    · rw [setCall_ne o e] at hc'
      exact h.call t' c' hc'
  thread t' c' hc' := by
    by_cases e : t' = t
    · rw [e, setCall_self] at hc'
      rw [e]
      exact (ho c' hc').2
    · rw [setCall_ne o e] at hc'
      exact h.thread t' c' hc'
  reactor := h.reactor
  last := h.last

/-- A call goes on under its lock. -/
theorem Guarded.goto (h : Guarded s) (hl : s.phase (slot c.token) = .live c.token) {pc : PollPc}
    (hk : pc ≠ .lock → s.lock (slot c.token) = some (.thread t)) : Guarded (s.goto t c pc) := by
  refine h.setCall (fun c' hc' => ?_)
  cases hc'
  exact ⟨hl, hk⟩

/-- A call drops its guard. -/
theorem Guarded.unlock (h : Guarded s) (hc : s.calls t = some c) (hpc : c.pc ≠ .lock) :
    Guarded ((s.setLock (slot c.token) none).goto t c .lock) := by
  have hl := h.thread t c hc hpc
  have hg : Guarded (s.goto t c .lock) := h.goto (h.call t c hc) (fun h0 => absurd rfl h0)
  refine ⟨hg.routed, hg.source, hg.call, ?_, ?_, hg.last⟩
  · intro t' c' hc' hpc'
    have h1 := hg.thread t' c' hc' hpc'
    change (s.setLock (slot c.token) none).lock (slot c'.token) = _
    rw [setLock_ne]
    · exact h1
    · intro e
      change s.lock _ = _ at h1
      rw [e, hl] at h1
      cases h1
      rw [State.goto, setCall_self] at hc'
      cases hc'
      exact hpc' rfl
  · intro token ds b es hr
    change (s.setLock (slot c.token) none).lock (slot token) = _
    rw [setLock_ne _ (h.apart hc hpc hr)]
    exact h.reactor token ds b es hr

/-- A call without a guard is answered. -/
theorem Guarded.ret (h : Guarded s) (hl : s.phase (slot c.token) = .live c.token)
    (a : Option (K × Bool)) : Guarded (s.ret t c a) := by
  have hg : Guarded (s.setCall t none) := h.setCall (fun c' hc' => by cases hc')
  refine ⟨hg.routed, hg.source, hg.call, hg.thread, hg.reactor, ?_⟩
  intro token d k hk
  change Function.update s.last (c.token, c.direction) a (token, d) = _ at hk
  by_cases e : (token, d) = (c.token, c.direction)
  · cases e
    exact hl
  · rw [Function.update_of_ne e] at hk
    exact h.last token d k hk

theorem goto_ret (pc : PollPc) (a : Option (K × Bool)) :
    (s.goto t c pc).ret t c a = s.ret t c a := by
  unfold State.goto State.ret State.setCall
  simp only [Function.update_idem]

theorem Guarded.setReactor (h : Guarded s) {r : ReactorPc}
    (hr : ∀ token ds b es, r = .event token ds b es → s.lock (slot token) = some .reactor) :
    Guarded { s with reactor := r } :=
  ⟨h.routed, h.source, h.call, h.thread, hr, h.last⟩

/-! ## every step keeps the discipline -/

theorem Guarded.moved (h : Guarded s) (hc : s.calls t = some c) (hs : Moved s t c s') :
    Guarded s' := by
  have hl := h.call t c hc
  cases hs with
  | acquire hpc hf hk => exact (h.setLock hf _).goto hl (fun _ => Function.update_self ..)
  | look hk => exact h.goto hl (fun _ => h.thread t c hc hk.pc_ne)
  | arm hpc hσ => exact h.setSource.goto hl (fun _ => h.thread t c hc (by rw [hpc]; exact nofun))
  | clear hpc hσ => exact h.setSource.goto hl (fun _ => h.thread t c hc (by rw [hpc]; exact nofun))
  | again hpc => exact h.unlock hc (by rw [hpc]; exact nofun)
  | pending hpc =>
    rw [← goto_ret .lock]
    exact (h.unlock hc (by rw [hpc]; exact nofun)).ret hl _
  | ready hpc =>
    rw [← goto_ret .lock]
    exact (h.unlock hc (by rw [hpc]; exact nofun)).ret hl _

theorem Guarded.handled (h : Guarded s) (hs : Handled s s') : Guarded s' := by
  cases hs with
  | all hr => exact h.setReactor nofun
  | skip hr hσ => exact h.setReactor nofun
  | acquire hr hf =>
    refine (h.setLock hf _).setReactor (fun token ds b es he => ?_)
    cases he
    exact Function.update_self ..
  | @release token b es hr =>
    refine ⟨h.routed, h.source, h.call, ?_, nofun, h.last⟩
    intro t c hc hpc
    change (s.setLock (slot token) none).lock (slot c.token) = _
    rw [setLock_ne _ (Ne.symm (h.apart hc hpc hr))]
    exact h.thread t c hc hpc
  | @take token d ds es σ hr hσ =>
    have hg : Guarded { s.setSource (slot token) (σ.take d) with
        reactor := .event token (d :: ds) true es } := by
      refine h.setSource.setReactor (fun token' ds' b' es' he => ?_)
      cases he
      exact h.reactor _ _ _ _ hr
    exact ⟨hg.routed, hg.source, hg.call, hg.thread, hg.reactor, hg.last⟩
  | trigger hr hσ =>
    refine h.setSource.setReactor (fun token' ds' b' es' he => ?_)
    cases he
    exact h.reactor _ _ _ _ hr
  | wake hr hw =>
    refine ⟨h.routed, h.source, h.call, h.thread, h.reactor, ?_⟩
    intro token d k hk
    obtain ⟨k', hk', _⟩ := Option.map_eq_some_iff.mp hk
    exact h.last token d k' hk'
  | drained hr => exact h.setReactor nofun

/-- A stream comes to life in a place where there is none, or ends in its place. -/
theorem Guarded.setPhase (h : Guarded s) {i : UInt32} {f : Phase}
    (hi : ∀ token, f.token = some token → slot token = i)
    (hf : f ≠ .absent → s.sources i ≠ none) (hc : ∀ t c, s.calls t = some c → slot c.token ≠ i)
    (hl : ∀ token d k, s.last (token, d) = some k → slot token ≠ i) :
    Guarded { s with phase := Function.update s.phase i f } where
  routed j token hj := by
    change (Function.update s.phase i f j).token = _ at hj
    by_cases e : j = i
    · rw [e, Function.update_self] at hj
      rw [e]
      exact hi token hj
    · rw [Function.update_of_ne e] at hj
      exact h.routed j token hj
  source j hj := by
    change Function.update s.phase i f j ≠ _ at hj
    by_cases e : j = i
    · rw [e, Function.update_self] at hj
      rw [e]
      exact hf hj
    · rw [Function.update_of_ne e] at hj
      exact h.source j hj
  call t c hc' := by
    change Function.update s.phase i f (slot c.token) = _
    rw [Function.update_of_ne (hc t c hc')]
    exact h.call t c hc'
  thread := h.thread
  reactor := h.reactor
  last token d k hk := by
    change Function.update s.phase i f (slot token) = _
    rw [Function.update_of_ne (hl token d k hk)]
    exact h.last token d k hk

/-- In a place without a living stream there is no call and no answer. -/
theorem Guarded.setPhase_of_dead (h : Guarded s) {i : UInt32} {f : Phase}
    (hi : ∀ token, f.token = some token → slot token = i)
    (hf : f ≠ .absent → s.sources i ≠ none) (hd : ∀ token, s.phase i ≠ .live token) :
    Guarded { s with phase := Function.update s.phase i f } := by
  apply h.setPhase hi hf
  · intro t c hc e
    exact hd c.token (e ▸ h.call t c hc)
  · intro token d k hk e
    exact hd token (e ▸ h.last token d k hk)

variable [Fintype T]

/-- **Every step keeps the discipline of the locks.** -/
theorem Guarded.step (h : Guarded s) {a : Act T K} (hs : s.step a = some s') : Guarded s' := by
  cases a with
  | kernel token d r => cases hs; exact ⟨h.routed, h.source, h.call, h.thread, h.reactor, h.last⟩
  | place q =>
    simp only [State.step] at hs
    split at hs
    · next hq =>
      cases hs
      have hnone : s.sources q.index = none := Option.isNone_iff_eq_none.mp hq.2
      refine (h.setSource (i := q.index) (σ := .new)).setPhase_of_dead ?_ ?_ ?_
      · intro token ht
        cases ht
        exact slot_toUsize q
      · rw [setSource_self]
        exact fun _ => nofun
      · intro token hl
        exact h.source q.index (by rw [show s.phase q.index = _ from hl]; exact nofun) hnone
    · cases hs
  | register q =>
    simp only [State.step] at hs
    split at hs
    · next hq =>
      cases hs
      have hg := h.setPhase_of_dead (i := q.index) (f := .live q.toUsize)
        (fun token ht => by cases ht; exact slot_toUsize q)
        (fun _ => h.source q.index (by rw [hq]; exact nofun)) (by rw [hq]; exact nofun)
      exact ⟨hg.routed, hg.source, hg.call, hg.thread, hg.reactor, hg.last⟩
    · cases hs
  | pollIo t token d w =>
    simp only [State.step] at hs
    split at hs
    · next hq =>
      cases hs
      refine h.setCall (fun c hc => ?_)
      cases hc
      exact ⟨hq.2, fun h0 => absurd rfl h0⟩
    · cases hs
  | poll t b =>
    obtain ⟨c, hc, hs⟩ := Option.bind_eq_some_iff.mp hs
    exact h.moved hc (pollStep_moved hs)
  | deregister token =>
    simp only [State.step] at hs
    split at hs
    · next hq =>
      cases hs
      have hne : ∀ t' : Token, t' ≠ token → s.phase (slot t') = .live t' →
          slot t' ≠ slot token := by
        intro t' hne hl e
        rw [e, hq.1] at hl
        cases hl
        exact hne rfl
      have hg : Guarded { s with
          last := fun p => if p.1 = token then none else s.last p } := by
        refine ⟨h.routed, h.source, h.call, h.thread, h.reactor, ?_⟩
        intro t' d k hk
        change (if t' = token then none else s.last (t', d)) = some k at hk
        split at hk
        · cases hk
        · exact h.last t' d k hk
      have hg' := hg.setPhase (i := slot token) (f := .dropping token)
        (fun t' ht => by cases ht; rfl) (fun _ => h.source (slot token) (by rw [hq.1]; exact nofun))
        (fun t c hc => hne c.token (hq.2 t c hc) (h.call t c hc))
        (fun t' d k hk => by
          change (if t' = token then none else s.last (t', d)) = some k at hk
          split at hk
          · cases hk
          · next e => exact hne t' e (h.last t' d k hk))
      exact ⟨hg'.routed, hg'.source, hg'.call, hg'.thread, hg'.reactor, hg'.last⟩
    · cases hs
  | remove token =>
    simp only [State.step] at hs
    split at hs
    · next hq =>
      cases hs
      have hg := h.setPhase_of_dead (i := slot token) (f := .absent) nofun (fun h0 => absurd rfl h0)
        (by rw [hq.2]; exact nofun)
      refine ⟨hg.routed, fun i hi => ?_, hg.call, hg.thread, hg.reactor, hg.last⟩
      change Function.update s.phase (slot token) _ i ≠ _ at hi
      change Function.update s.sources (slot token) none i ≠ none
      by_cases e : i = slot token
      · rw [e, Function.update_self] at hi
        exact absurd rfl hi
      · rw [Function.update_of_ne e] at hi ⊢
        exact h.source i hi
    · cases hs
  | fetch es =>
    simp only [State.step] at hs
    split at hs
    · cases hs
      have hg := h.setReactor (r := .handling es) nofun
      exact ⟨hg.routed, hg.source, hg.call, hg.thread, hg.reactor, hg.last⟩
    · cases hs
  | reactor => exact h.handled (reactorStep_handled hs)

theorem guarded_of_reachable (h : machine.Reachable s) : Guarded s :=
  h.invariant guarded_init (fun _ _ _ _ hi _ hs => hi.step hs)

end

end Reactor
end Nea
