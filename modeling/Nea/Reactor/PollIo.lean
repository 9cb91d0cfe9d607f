import Nea.Reactor.System

/-!
# The retry loop of a stream

Every call of a stream goes through `poll_io`, with a closure that asks the socket.  Which thread
steps when is the matter of `Nea.Reactor.System`, and of it only the flags and the wakers of a source
are needed; here is what a single call does to them and to the bytes, whatever the socket answers and
whichever events the reactor handles in between.

* `Environment`           the socket and the reactor thread: any behaviour, as functions of a hidden
                          state;
* `Io`                    a stream, with what its socket has given and taken;
* `pollReady`, `pollIo`   the retry loop, for any closure;
* `Carries`               what a call may do to a stream, whichever way it ends;
* `pollIo_rule`           the rule of the loop;
* `inTurn`                calls one after the other.
-/

set_option linter.unusedSectionVars false

namespace Nea
namespace Reactor

/-- errors of `std::io` -/
inductive IoError where
  | wouldBlock
  | other (kind : ℕ)
deriving DecidableEq

inductive Poll (α : Type) where
  | pending
  | ready (a : α)
deriving DecidableEq

/-- what a thread finds around it.  `tick`: the directions in which the reactor handles events at
that moment, one after the other; `read`: the socket fills a slice -/
structure Environment (ε : Type) where
  tick : ε → ε × List Direction
  read : ε → List UInt8 → ε × List UInt8 × Except IoError ℕ
  write : ε → List UInt8 → ε × Except IoError ℕ
  flush : ε → ε × Except IoError Unit
  shutdown : ε → ε × Except IoError Unit

/-- a slice keeps its length, and a read reports no more than that -/
structure Environment.Reads {ε : Type} (E : Environment ε) : Prop where
  length : ∀ e buf, (E.read e buf).2.1.length = buf.length
  le : ∀ e buf n, (E.read e buf).2.2 = .ok n → n ≤ buf.length

/-- a write reports no more than it was offered -/
def Environment.Writes {ε : Type} (E : Environment ε) : Prop :=
  ∀ e buf n, (E.write e buf).2 = .ok n → n ≤ buf.length

/-- the surroundings of a stream; of the last three fields no code reads any, they are for statements
only -/
structure Io (ε K : Type) where
  env : ε
  source : Option (Source K)
  /-- the bytes that the reads of the socket have returned -/
  taken : List UInt8
  /-- the bytes that the writes of the socket have accepted -/
  sent : List UInt8
  /-- how many events of a direction have been handled -/
  events : Direction → ℕ

section
variable {ε K : Type} [DecidableEq K] (E : Environment ε)

/-- the reactor handles an event -/
def Io.handle (s : Io ε K) (d : Direction) : Io ε K :=
  { s with
    source := s.source.map (fun σ => (σ.take d).setTriggered d true)
    events := Function.update s.events d (s.events d + 1) }

/-- the reactor may handle events -/
def Io.moment (s : Io ε K) : Io ε K :=
  (E.tick s.env).2.foldl Io.handle { s with env := (E.tick s.env).1 }

/-- `clear_trigger` -/
def Io.clearTrigger (s : Io ε K) (d : Direction) : Io ε K :=
  { s with source := s.source.map (fun σ => σ.setTriggered d false) }

/-- the flag of a direction -/
def Io.triggered (s : Io ε K) (d : Direction) : Bool :=
  s.source.elim false (fun σ => σ.triggered d)

/-- the waker is updated if required -/
def Io.arm (s : Io ε K) (d : Direction) (w : K) : Io ε K :=
  { s with source := s.source.map (fun σ => σ.updateWaker d w) }

/-- `poll_ready`, with the waker `w` of the context; it never fails -/
def pollReady (s : Io ε K) (d : Direction) (w : K) : Io ε K × Poll Unit :=
  if s.triggered d then (s, .ready ())
  else
    -- the mutex of the source excludes an event here; the law does not need it
    let s := (s.arm d w).moment E
    if s.triggered d then (s, .ready ()) else (s, .pending)

/-- `poll_io`, up to `rounds` rounds of its loop; `f` is the closure with what it has captured.  The
outer `none` is a panic of the closure, the inner one a loop that still goes on -/
def pollIo {β α : Type} (d : Direction) (w : K)
    (f : Io ε K → β → Option (Io ε K × β × Except IoError α)) :
    ℕ → Io ε K → β → Option (Io ε K × β × Option (Poll (Except IoError α)))
  | 0, s, x => some (s, x, none)
  | rounds + 1, s, x =>
    let s := s.moment E
    match s.source with
    | none => some (s, x, some .pending)
    | some _ =>
      match pollReady E s d w with
      | (s, .pending) => some (s, x, some .pending)
      | (s, .ready ()) => do
        let (s, x, val) ← f s x
        match val with
        | .error .wouldBlock => pollIo d w f rounds (s.clearTrigger d) x
        | val => some (s, x, some (.ready val))

end

section
variable {ε K : Type} [DecidableEq K] {E : Environment ε} {s s' s'' : Io ε K} {d : Direction} {w : K}

/-! ## what a call may do -/

/-- waker and flag of a direction -/
def Io.side (s : Io ε K) (d : Direction) : Option (Option K × Bool) :=
  s.source.map (fun σ => (σ.interest d, σ.triggered d))

/-- the waker of the caller is stored, and there is no event it would not be woken for -/
def Io.Armed (s : Io ε K) (d : Direction) (w : K) : Prop := s.side d = some (some w, false)

/-- in a direction `received` is taken from the socket and `written` given to it, and nobody but the
reactor has touched the other direction -/
structure Carries (d : Direction) (s s' : Io ε K) (received written : List UInt8) : Prop where
  taken : s'.taken = s.taken ++ received
  sent : s'.sent = s.sent ++ written
  present : s'.source.isSome = s.source.isSome
  events : ∀ e, s.events e ≤ s'.events e
  other : ∀ e, e ≠ d → s'.events e = s.events e → s'.side e = s.side e

/-- only the environment moves on -/
theorem Carries.env (e : ε) : Carries d s { s with env := e } [] [] :=
  ⟨(List.append_nil _).symm, (List.append_nil _).symm, rfl, fun _ => le_rfl, fun _ _ _ => rfl⟩

theorem Carries.refl (s : Io ε K) : Carries d s s [] [] := Carries.env s.env

/-- a call of the socket that returns bytes -/
theorem Carries.take (e : ε) (received : List UInt8) :
    Carries d s { s with env := e, taken := s.taken ++ received } received [] :=
  ⟨rfl, (List.append_nil _).symm, rfl, fun _ => le_rfl, fun _ _ _ => rfl⟩

/-- a call of the socket that accepts bytes -/
theorem Carries.give (e : ε) (written : List UInt8) :
    Carries d s { s with env := e, sent := s.sent ++ written } [] written :=
  ⟨(List.append_nil _).symm, rfl, rfl, fun _ => le_rfl, fun _ _ _ => rfl⟩

theorem Carries.trans {r r' v v' : List UInt8} (h : Carries d s s' r v)
    (h' : Carries d s' s'' r' v') : Carries d s s'' (r ++ r') (v ++ v') where
  taken := by rw [h'.taken, h.taken, List.append_assoc]
  sent := by rw [h'.sent, h.sent, List.append_assoc]
  present := h'.present.trans h.present
  events e := (h.events e).trans (h'.events e)
  other e he heq := by
    have h1 := h.events e
    have h2 := h'.events e
    rw [h'.other e he (by omega), h.other e he (by omega)]

/-- a step on the source of a stream alone, which leaves the other direction as it is -/
theorem Carries.source {g : Source K → Source K}
    (hg : ∀ σ e, e ≠ d → (g σ).interest e = σ.interest e ∧ (g σ).triggered e = σ.triggered e) :
    Carries d s { s with source := s.source.map g } [] [] where
  taken := (List.append_nil _).symm
  sent := (List.append_nil _).symm
  present := Option.isSome_map
  events _ := le_rfl
  other e he _ := by
    show (s.source.map g).map _ = s.source.map _
    rw [Option.map_map]
    refine Option.map_congr fun σ _ => ?_
    show ((g σ).interest e, (g σ).triggered e) = (σ.interest e, σ.triggered e)
    rw [(hg σ e he).1, (hg σ e he).2]

theorem Carries.clearTrigger : Carries d s (s.clearTrigger d) [] [] :=
  Carries.source fun σ _ he => ⟨rfl, σ.triggered_setTriggered_of_ne false he⟩

theorem Carries.arm : Carries d s (s.arm d w) [] [] :=
  Carries.source fun σ _ he => ⟨σ.interest_updateWaker_of_ne w he, by rw [σ.triggered_updateWaker]⟩

/-- an event of another direction -/
theorem side_handle_of_ne {e : Direction} (he : e ≠ d) : (s.handle d).side e = s.side e := by
  show (s.source.map _).map _ = s.source.map _
  rw [Option.map_map]
  refine Option.map_congr fun σ _ => ?_
  show (Function.update σ.interest d none e, Function.update σ.triggered d true e) = _
  rw [Function.update_of_ne he, Function.update_of_ne he]

theorem Carries.handle (e : Direction) : Carries d s (s.handle e) [] [] where
  taken := (List.append_nil _).symm
  sent := (List.append_nil _).symm
  present := Option.isSome_map
  events e' := by
    show s.events e' ≤ Function.update s.events e (s.events e + 1) e'
    by_cases h : e' = e
    · subst h
      rw [Function.update_self]
      exact Nat.le_succ _
    · rw [Function.update_of_ne h]
  other e' _ heq := by
    have heq : Function.update s.events e (s.events e + 1) e' = s.events e' := heq
    refine side_handle_of_ne fun h => ?_
    -- the event would have been counted
    rw [h, Function.update_self] at heq
    omega

theorem Carries.moment : Carries d s (s.moment E) [] [] := by
  have handled : ∀ (ds : List Direction) (s : Io ε K), Carries d s (ds.foldl Io.handle s) [] [] := by
    intro ds
    induction ds with
    | nil => exact Carries.refl
    | cons e ds ih => exact fun s => (Carries.handle e).trans (ih (s.handle e))
  exact (Carries.env _).trans (handled _ _)

theorem Carries.pollReady : Carries d s (pollReady E s d w).1 [] [] := by
  unfold Reactor.pollReady
  split
  · exact Carries.refl s
  · dsimp only
    split
    · exact Carries.arm.trans Carries.moment
    · exact Carries.arm.trans Carries.moment

/-! ## `Pending` stores the waker -/

theorem triggered_eq_side (s : Io ε K) : s.triggered d = (s.side d).elim false Prod.snd := by
  unfold Io.triggered Io.side
  cases s.source <;> rfl

/-- an event sets the flag, so an unset flag tells that there was none -/
theorem side_handle {e : Direction} (h : (s.handle e).triggered d = false) :
    (s.handle e).side d = s.side d := by
  by_cases he : d = e
  · subst he
    cases hs : s.source with
    | none => simp only [Io.side, Io.handle, hs, Option.map_none]
    | some σ =>
      simp only [Io.triggered, Io.handle, hs, Option.map_some, Option.elim_some,
        Source.setTriggered, Function.update_self] at h
      cases h
  · exact side_handle_of_ne he

theorem side_moment (h : (s.moment E).triggered d = false) : (s.moment E).side d = s.side d := by
  have handled : ∀ (ds : List Direction) (s : Io ε K),
      (ds.foldl Io.handle s).triggered d = false → (ds.foldl Io.handle s).side d = s.side d := by
    intro ds
    induction ds with
    | nil => exact fun _ _ => rfl
    | cons e ds ih =>
      intro s h
      have h1 := ih (s.handle e) h
      refine h1.trans (side_handle ?_)
      rw [triggered_eq_side, ← h1, ← triggered_eq_side]
      exact h
  exact handled _ _ h

theorem armed_pollReady (hs : s.source.isSome) (h : (pollReady E s d w).2 = .pending) :
    (pollReady E s d w).1.Armed d w := by
  unfold pollReady at h ⊢
  split at h
  · cases h
  · next hunset =>
    rw [if_neg hunset]
    dsimp only at h ⊢
    split at h
    · cases h
    · next h1 =>
      rw [if_neg h1]
      obtain ⟨σ, hσ⟩ := Option.isSome_iff_exists.mp hs
      have hflag : σ.triggered d = false := by
        have hunset := Bool.eq_false_iff.mpr hunset
        unfold Io.triggered at hunset
        rw [hσ] at hunset
        exact hunset
      -- nothing has come since the waker was stored
      show ((s.arm d w).moment E).side d = some (some w, false)
      rw [side_moment (Bool.eq_false_iff.mpr h1)]
      show (s.source.map _).map _ = _
      rw [hσ]
      show some ((σ.updateWaker d w).interest d, (σ.updateWaker d w).triggered d) = _
      rw [σ.interest_updateWaker_self, σ.triggered_updateWaker, hflag]

/-! ## the rule of the loop -/

/-- **The rule of the loop.**  `I` holds of what the closure has captured; a failed attempt keeps it
and carries nothing, a successful one leads to `R`. -/
theorem pollIo_rule {β α : Type} {I : β → Prop} {R : β → α → List UInt8 → List UInt8 → Prop}
    {f : Io ε K → β → Option (Io ε K × β × Except IoError α)}
    (hf : ∀ s x, I x → ∃ s' x' val, f s x = some (s', x', val) ∧
      (∀ a, val = .ok a → ∃ r v, Carries d s s' r v ∧ R x' a r v) ∧
      (∀ e, val = .error e → Carries d s s' [] [] ∧ I x'))
    (rounds : ℕ) {x : β} (h : I x) :
    ∃ s' x' p, pollIo E d w f rounds s x = some (s', x', p) ∧
      (∀ a, p = some (.ready (.ok a)) → ∃ r v, Carries d s s' r v ∧ R x' a r v) ∧
      ((∀ a, p ≠ some (.ready (.ok a))) → Carries d s s' [] [] ∧ I x') ∧
      (p = some .pending → s.source.isSome → s'.Armed d w) := by
  induction rounds generalizing s x with
  | zero =>
    exact ⟨s, x, none, rfl, (fun a e => by cases e), fun _ => ⟨Carries.refl s, h⟩,
      fun e => by cases e⟩
  | succ rounds ih =>
    unfold pollIo
    dsimp only
    have hm : Carries d s (s.moment E) [] [] := Carries.moment
    cases hsrc : (s.moment E).source with
    | none =>
      refine ⟨s.moment E, x, some .pending, rfl, (fun a e => by cases e), fun _ => ⟨hm, h⟩, ?_⟩
      intro _ hs
      rw [← hm.present, hsrc] at hs
      cases hs
    | some σ =>
      have hp : Carries d s (pollReady E (s.moment E) d w).1 [] [] := hm.trans Carries.pollReady
      have harmed := armed_pollReady (E := E) (s := s.moment E) (d := d) (w := w) (by rw [hsrc]; rfl)
      rcases hready : pollReady E (s.moment E) d w with ⟨s1, _ | _⟩
      · rw [hready] at hp harmed
        exact ⟨s1, x, some .pending, rfl, (fun a e => by cases e), fun _ => ⟨hp, h⟩,
          fun _ _ => harmed rfl⟩
      · rw [hready] at hp
        obtain ⟨s2, x2, val, hval, hok, herr⟩ := hf s1 x h
        simp only [hval, Option.bind_eq_bind, Option.bind_some]
        cases val with
        | ok a =>
          refine ⟨s2, x2, some (.ready (.ok a)), rfl, fun a' e => ?_, fun hne => absurd rfl (hne a),
            fun e => by cases e⟩
          cases e
          obtain ⟨r, v, hc, hr⟩ := hok a rfl
          exact ⟨r, v, hp.trans hc, hr⟩
        | error e =>
          have h2 := herr e rfl
          cases e with
          | wouldBlock =>
            -- once more
            obtain ⟨s3, x3, p3, h3, hok3, helse3, harm3⟩ := ih (s := s2.clearTrigger d) h2.2
            have h1 := (hp.trans h2.1).trans Carries.clearTrigger
            refine ⟨s3, x3, p3, h3, fun a e => ?_, fun hne => ?_, fun e hs => harm3 e ?_⟩
            · obtain ⟨r, v, hc, hr⟩ := hok3 a e
              exact ⟨r, v, h1.trans hc, hr⟩
            · exact ⟨h1.trans (helse3 hne).1, (helse3 hne).2⟩
            · rw [h1.present]
              exact hs
          | other kind =>
            exact ⟨s2, x2, some (.ready (.error (.other kind))), rfl, (fun a' e => by cases e),
              fun _ => ⟨hp.trans h2.1, h2.2⟩, fun e => by cases e⟩

end

/-! ## calls one after the other -/

section
variable {σ ρ α : Type}

/-- calls one after the other; a call that has not returned is the last one -/
def inTurn (call : σ → ρ → Option (σ × α)) (returned : α → Bool) (s : σ) :
    List ρ → Option (σ × List α)
  | [] => some (s, [])
  | r :: rs => do
    let (s, a) ← call s r
    if returned a then
      let (s, as) ← inTurn call returned s rs
      some (s, a :: as)
    else some (s, [a])

/-- what each call keeps and extends, all of them do -/
theorem inTurn_rule {call : σ → ρ → Option (σ × α)} {returned : α → Bool} {I : σ → Prop}
    {R : σ → List α → σ → Prop} (hnil : ∀ s, R s [] s)
    (hcall : ∀ s r, I s → ∃ s' a, call s r = some (s', a) ∧ I s' ∧
      ∀ as s'', R s' as s'' → R s (a :: as) s'')
    (rs : List ρ) {s : σ} (h : I s) : ∃ s' as, inTurn call returned s rs = some (s', as) ∧
      R s as s' := by
  induction rs generalizing s with
  | nil => exact ⟨s, [], rfl, hnil s⟩
  | cons r rs ih =>
    obtain ⟨s1, a, h1, hI, hR⟩ := hcall s r h
    obtain ⟨s2, as, h2, hR2⟩ := ih hI
    unfold inTurn
    simp only [h1, h2, Option.bind_eq_bind, Option.bind_some]
    cases returned a with
    | true => exact ⟨s2, a :: as, rfl, hR as s2 hR2⟩
    | false => exact ⟨s1, [a], rfl, hR [] s1 (hnil s1)⟩

end

end Reactor
end Nea
