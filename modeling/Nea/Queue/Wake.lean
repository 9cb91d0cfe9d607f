import Nea.Queue.Jobs
import Nea.Queue.Ownership

/-!
# Where set job bits are noticed

A call of `initial_enqueue` sets a job bit first and marks the slot later; when the bit was set
already it does not mark at all.  A worker leaves bits behind when `run_bucket` answers `Forever`.
So a set bit does not mean that the slot is marked; what holds is said relative to the owner.

* `Covered`           the slot is marked, or a call is about to mark it;
* `Wakeful`           where the owner of a slot is, and what follows for its bits.  `dead` stands for
                      "no job but the first can be of a live task", `busy` for the workers that
                      have dequeued since they took the slot or consumed its mark;
* `Wakeful.step`, `Wakeful.load`, `Wakeful.finish`   every step of the queue keeps it.
-/

set_option linter.unusedSectionVars false

namespace Nea

/-- the call has set a job bit and has not marked the slot -/
def Enqueue.unmarked (c : Enqueue) : Bool :=
  match c.pc with
  | .increment => true
  | .mark => true
  | .panicked counted => !counted
  | _ => false

namespace Queue
variable {W T : Type} [DecidableEq W] [DecidableEq T]

def InFlight (s : Queue W T) (b : ℕ) : Prop :=
  ∃ t c, s.calls t = some c ∧ c.bucket = b ∧ c.unmarked = true

def Covered (s : Queue W T) (b : ℕ) : Prop := (s.slots b).isEnqueued = true ∨ s.InFlight b

/-- if the first job is set, somebody will notice -/
def FirstSafe (s : Queue W T) (b : ℕ) : Prop := (s.slots b).hasJob 0 = true → s.Covered b

/-- if a job of a live task may be set, somebody will notice -/
def Safe (s : Queue W T) (dead : Prop) (b : ℕ) : Prop :=
  ((s.slots b).jobs ≠ 0 → s.Covered b) ∨ (dead ∧ s.FirstSafe b)

structure Wakeful (s : Queue W T) (dead : Prop) (busy : W → Prop) (b : ℕ) : Prop where
  free : (∀ w, ¬ s.Owns w b) → s.Safe dead b
  done : ∀ w k r, s.pc w = .done b k r → s.Safe dead b
  chosen : ∀ w i, s.pc w = .dequeued b i → i ≠ 0 → s.FirstSafe b
  running : ∀ w, s.pc w = .running b → busy w → s.FirstSafe b

theorem wakeful_init (dead : Prop) (busy : W → Prop) (b : ℕ) :
    (init : Queue W T).Wakeful dead busy b where
  free _ := .inl (fun h => absurd rfl h)
  done w k r h := by cases h
  chosen w i h := by cases h
  running w h := by cases h

theorem jobs_ne_zero {q : QueueSlot} {i : ℕ} (h : q.hasJob i = true) : q.jobs ≠ 0 := by
  intro h0
  unfold QueueSlot.hasJob at h
  rw [h0] at h
  simp at h

theorem exists_hasJob {q : QueueSlot} (h : q.jobs ≠ 0) : ∃ i, q.hasJob i = true :=
  ⟨_, (trailingZeros_spec h).1⟩

section
variable {cfg : Cfg} {s s' : Queue W T}

/-! ## calls and marks -/

/-- A call that is past its mark, or before its bit, is nobody's cover. -/
theorem InFlight.setCall {b : ℕ} (h : s.InFlight b) {t : Thread W T} {o : Option Enqueue}
    (ho : ∀ c, s.calls t = some c → c.unmarked = true →
      ∃ c', o = some c' ∧ c'.bucket = c.bucket ∧ c'.unmarked = true) :
    (s.setCall t o).InFlight b := by
  obtain ⟨t1, c, hc, hb, hu⟩ := h
  by_cases e : t1 = t
  · subst e
    obtain ⟨c', h1, h2, h3⟩ := ho c hc hu
    exact ⟨t1, c', by rw [calls_setCall, Function.update_self, h1], h2.trans hb, h3⟩
  · exact ⟨t1, c, by rw [calls_setCall, Function.update_of_ne e]; exact hc, hb, hu⟩

theorem InFlight.drop {b : ℕ} (h : s.InFlight b) {t : Thread W T} {c : Enqueue}
    {o : Option Enqueue} (hc : s.calls t = some c) (hu : c.unmarked = false) :
    (s.setCall t o).InFlight b := by
  refine h.setCall (fun c' hc' hu' => ?_)
  rw [hc] at hc'
  cases hc'
  rw [hu] at hu'
  cases hu'

/-- a worker consumes the mark of slot `b` -/
def Consumed (s s' : Queue W T) (b : ℕ) : Prop :=
  ∃ w, s'.pc w = .picked b ∨ ∃ k, s.pc w = .done b k false ∧ s'.pc w = .running b

/-- A mark stays until a worker consumes it. -/
theorem isEnqueued_of_step (ho : s.Owned) {b : ℕ} (h : (s.slots b).isEnqueued = true)
    (hs : QStep cfg s s') : (s'.slots b).isEnqueued = true ∨ Consumed s s' b := by
  cases slotMove_of_step hs b with
  | same h1 => exact .inl (by rw [h1]; exact h)
  | setOld t c hc hcb hj h1 => exact .inl (by rw [h1]; exact h)
  | setNew t c hc hcb hc' h1 => exact .inl (by rw [h1]; exact h)
  | mark t c hc hcb h1 =>
    rw [h1]
    exact .inl (QueueSlot.markEnqueued_flags (ho.flags b)).2.1
  | pick w hlt hf hw' h1 => exact .inr ⟨w, .inl hw'⟩
  | clear w i hw h1 => exact .inl (by rw [h1]; exact h)
  | goAgain w k hw hf hw' h1 => exact .inr ⟨w, .inr ⟨k, hw, hw'⟩⟩
  | release w k hw hf h1 =>
    unfold QueueSlot.isEnqueued at h
    rw [hf] at h
    exact absurd h (by decide)

/-- A call that has not marked its slot keeps that before it, or marks it now. -/
theorem inFlight_of_step (ho : s.Owned) {b : ℕ} (h : s.InFlight b) (hs : QStep cfg s s') :
    s'.InFlight b ∨ (s'.slots b).isEnqueued = true := by
  have hmark : ∀ (t : Thread W T) (c : Enqueue) (p : EnqueuePc), s.calls t = some c →
      ((s.setSlot c.bucket (s.slots c.bucket).markEnqueued.2).setCall t
        (some { c with pc := p })).InFlight b ∨
      (((s.setSlot c.bucket (s.slots c.bucket).markEnqueued.2).setCall t
        (some { c with pc := p })).slots b).isEnqueued = true := by
    intro t c p hc
    obtain ⟨t1, c1, h1, hb, hu⟩ := h
    by_cases e : t1 = t
    · subst e
      rw [hc] at h1
      cases h1
      subst hb
      rw [slots_setCall, slots_setSlot, Function.update_self]
      exact .inr (QueueSlot.markEnqueued_flags (ho.flags c.bucket)).2.1
    · exact .inl ⟨t1, c1, by rw [calls_setCall, Function.update_of_ne e]; exact h1, hb, hu⟩
  cases hs with
  | start t q c h0 hc => exact .inl (h.setCall (fun c' hc' => by rw [h0] at hc'; cases hc'))
  | setOld t c hc hpc hj =>
    exact .inl (InFlight.drop (s := s.setSlot c.bucket _) h hc (by rw [Enqueue.unmarked, hpc]))
  | setNew t c hc hpc hj =>
    exact .inl (InFlight.drop (s := s.setSlot c.bucket _) h hc (by rw [Enqueue.unmarked, hpc]))
  | increment t c hc hpc =>
    refine .inl (InFlight.setCall (s := { s with jobsInQueue := _ }) h ?_)
    rintro c' hc' _
    rw [show s.calls t = some c' from hc'] at hc
    cases hc
    exact ⟨_, rfl, rfl, rfl⟩
  | incrementPanics t c m hc hpc hm hp =>
    refine .inl (InFlight.setCall (s := { s with jobsInQueue := _ }) h ?_)
    rintro c' hc' _
    rw [show s.calls t = some c' from hc'] at hc
    cases hc
    exact ⟨_, rfl, rfl, rfl⟩
  | markIdle t c hc hpc he hp => exact hmark t c .wakeOne hc
  | markBusy t c hc hpc hb => exact hmark t c .revert hc
  | wakeOne t c w hc hpc hw => exact .inl (h.drop hc (by rw [Enqueue.unmarked, hpc]))
  | wakeNone t c hc hpc hw => exact .inl (h.drop hc (by rw [Enqueue.unmarked, hpc]))
  | revert t c hc hpc hv =>
    exact .inl (InFlight.drop (s := { s with jobsInQueue := _ }) h hc
      (by rw [Enqueue.unmarked, hpc]))
  | revertPanics t c m hc hpc hm hp hwhy =>
    exact .inl (InFlight.drop (s := { s with jobsInQueue := _ }) h hc
      (by rw [Enqueue.unmarked, hpc]))
  | _ => exact .inl h

/-- **A cover stays until a worker consumes the mark.** -/
theorem covered_of_step (ho : s.Owned) {b : ℕ} (h : s.Covered b) (hs : QStep cfg s s') :
    s'.Covered b ∨ Consumed s s' b := by
  rcases h with h | h
  · exact (isEnqueued_of_step ho h hs).imp_left .inl
  · exact .inl ((inFlight_of_step ho h hs).symm)

/-- **A bit that is new has a cover.** -/
theorem hasJob_of_step (hn : Named cfg s) {b i : ℕ} (hs : QStep cfg s s')
    (hj : (s'.slots b).hasJob i = true) : (s.slots b).hasJob i = true ∨ s'.Covered b := by
  cases slotMove_of_step hs b with
  | same h1 => exact .inl (by rw [h1] at hj; exact hj)
  | setOld t c hc hcb hold h1 =>
    have hc64 := (hn.calls t c hc).offset_lt
    rw [h1, QueueSlot.hasJob_setJob _ hc64] at hj
    by_cases e : i = c.offset
    · exact .inl (by rw [e]; exact hold)
    · exact .inl (by simpa [e] using hj)
  | setNew t c hc hcb hc' h1 => exact .inr (.inr ⟨t, _, hc', hcb, rfl⟩)
  | mark t c hc hcb h1 => exact .inl (by rw [h1] at hj; exact hj)
  | pick w hlt hf hw' h1 => exact .inl (by rw [h1] at hj; exact hj)
  | clear w i1 hw h1 =>
    rw [h1, QueueSlot.hasJob_clearJob, Bool.and_eq_true] at hj
    exact .inl hj.1
  | goAgain w k hw hf hw' h1 => exact .inl (by rw [h1] at hj; exact hj)
  | release w k hw hf h1 => exact .inl (by rw [h1] at hj; exact hj)

/-! ## where the owner goes -/

/-- how the program counter of a worker can move in one step -/
inductive PcMove (s s' : Queue W T) (w : W) : Prop where
  | same (h : s'.pc w = s.pc w)
  | leave (h : (s'.pc w).bucket = none)
  | pick (b : ℕ) (h : s'.pc w = .picked b)
  | run (b : ℕ) (h0 : s.pc w = .picked b) (h : s'.pc w = .running b)
  | clear (b i : ℕ) (h0 : s.pc w = .dequeued b i) (h : s'.pc w = .running b)
      (hs : s'.slots b = (s.slots b).clearJob i)
  | goAgain (b k : ℕ) (h0 : s.pc w = .done b k false) (h : s'.pc w = .running b)
  | retry (b k k' : ℕ) (r r' : Bool) (h0 : s.pc w = .done b k r) (h : s'.pc w = .done b k' r')
  | stop (b : ℕ) (h0 : s.pc w = .running b) (h : s'.pc w ≠ .running b)

theorem pcMove_of_step (hs : QStep cfg s s') (w : W) : PcMove s s' w := by
  have hmove : ∀ (w1 : W) (p : WorkerPc), s'.pc = Function.update s.pc w1 p →
      (w = w1 → s'.pc w = p → PcMove s s' w) → PcMove s s' w := by
    intro w1 p hp hw
    by_cases e : w = w1
    · exact hw e (by rw [hp, e, Function.update_self])
    · exact .same (by rw [hp, Function.update_of_ne e])
  cases hs with
  | wakeOne t c w1 hc hpc hw => exact hmove w1 _ rfl (fun _ h => .leave (by rw [h]; rfl))
  | spurious w1 hw => exact hmove w1 _ rfl (fun _ h => .leave (by rw [h]; rfl))
  | block w1 hw hv => exact hmove w1 _ rfl (fun _ h => .leave (by rw [h]; rfl))
  | wait w1 hw hv => exact hmove w1 _ rfl (fun _ h => .leave (by rw [h]; rfl))
  | skip w1 i hw => exact hmove w1 _ rfl (fun _ h => .leave (by rw [h]; rfl))
  | scanned w1 i hw => exact hmove w1 _ rfl (fun _ h => .leave (by rw [h]; rfl))
  | release w1 b k hw hf => exact hmove w1 _ rfl (fun _ h => .leave (by rw [h]; rfl))
  | pick w1 i hw hi hf => exact hmove w1 _ rfl (fun _ h => .pick i h)
  | run w1 b hw hv => exact hmove w1 _ rfl (by rintro rfl h; exact .run b hw h)
  | clear w1 b i hw =>
    refine hmove w1 _ rfl ?_
    rintro rfl h
    exact .clear b i hw h (by rw [slots_setPc, slots_setSlot, Function.update_self])
  | goAgain w1 b k hw hf => exact hmove w1 _ rfl (by rintro rfl h; exact .goAgain b k hw h)
  | tryRelease w1 b k hw hf => exact hmove w1 _ rfl (by rintro rfl h; exact .retry b k k _ _ hw h)
  | retry w1 b k hw hf hk => exact hmove w1 _ rfl (by rintro rfl h; exact .retry b k _ _ _ hw h)
  | load w1 b hw hj =>
    exact hmove w1 _ rfl (by rintro rfl h; exact .stop b hw (by rw [h]; simp))
  | loadNone w1 b hw hj =>
    exact hmove w1 _ rfl (by rintro rfl h; exact .stop b hw (by rw [h]; simp))
  | finish w1 b hw => exact hmove w1 _ rfl (by rintro rfl h; exact .stop b hw (by rw [h]; simp))
  | _ => exact .same rfl

/-! ## every step keeps it -/

section
variable {dead : Prop} {busy busy' : W → Prop} {b : ℕ}

theorem FirstSafe.step (hn : Named cfg s) (ho : s.Owned) (h : s.FirstSafe b)
    (hs : QStep cfg s s') (hc : ¬ Consumed s s' b) : s'.FirstSafe b := by
  intro hj
  rcases hasJob_of_step hn hs hj with h1 | h1
  · exact (covered_of_step ho (h h1) hs).resolve_right hc
  · exact h1

theorem Safe.step (hn : Named cfg s) (ho : s.Owned) (h : s.Safe dead b) (hs : QStep cfg s s')
    (hc : ¬ Consumed s s' b) : s'.Safe dead b := by
  rcases h with h | ⟨hd, h⟩
  · refine .inl (fun hj => ?_)
    obtain ⟨i, hi⟩ := exists_hasJob hj
    rcases hasJob_of_step hn hs hi with h1 | h1
    · exact (covered_of_step ho (h (jobs_ne_zero h1)) hs).resolve_right hc
    · exact h1
  · exact .inr ⟨hd, h.step hn ho hs hc⟩

/-- **A step other than `load` and `finish`.**  A worker may become busy by the `fetch_and` of
`dequeue` only. -/
theorem Wakeful.step (hn : Named cfg s) (ho : s.Owned) (h : s.Wakeful dead busy b)
    (hs : QStep cfg s s') (hrun : ∀ w, s.pc w = .running b → s'.pc w = .running b)
    (hb : ∀ w, busy' w → busy w ∨ ∃ b' i, s.pc w = .dequeued b' i)
    (hidle : ∀ w, busy w → ∃ b', s.pc w = .running b') : s'.Wakeful dead busy' b := by
  have ho' := ho.step hs
  -- a consumed mark makes its consumer the owner, back at the start of `run_bucket`
  have hcons : ∀ w, s'.Owns w b → s'.pc w ≠ .picked b →
      (∀ k, s.pc w = .done b k false → s'.pc w ≠ .running b) → ¬ Consumed s s' b := by
    rintro w hw hp hd ⟨w1, h1⟩
    have hw1 : s'.Owns w1 b := by
      unfold Owns
      rcases h1 with h1 | ⟨k, _, h1⟩ <;> rw [h1] <;> rfl
    have e : w1 = w := ho'.unique b w1 w hw1 hw
    subst e
    rcases h1 with h1 | ⟨k, h0, h1⟩
    · exact hp h1
    · exact hd k h0 h1
  constructor
  · intro hno
    have hnc : ¬ Consumed s s' b := by
      rintro ⟨w1, h1⟩
      refine hno w1 ?_
      unfold Owns
      rcases h1 with h1 | ⟨k, _, h1⟩ <;> rw [h1] <;> rfl
    by_cases hex : ∃ w, s.Owns w b
    · obtain ⟨w, hw⟩ := hex
      rcases owns_or_done hs hw with h1 | ⟨k, h1⟩
      · exact absurd h1 (hno w)
      · exact (h.done w k true h1).step hn ho hs hnc
    · exact (h.free (fun w hw => hex ⟨w, hw⟩)).step hn ho hs hnc
  · intro w k r hw
    have hown : s'.Owns w b := by unfold Owns; rw [hw]; rfl
    have hnc := hcons w hown (by rw [hw]; simp) (fun _ _ => by rw [hw]; simp)
    cases pcMove_of_step hs w with
    | same h1 => exact (h.done w k r (h1.symm.trans hw)).step hn ho hs hnc
    | leave h1 => rw [hw] at h1; cases h1
    | pick b1 h1 => rw [hw] at h1; cases h1
    | run b1 h0 h1 => rw [hw] at h1; cases h1
    | clear b1 i h0 h1 => rw [hw] at h1; cases h1
    | goAgain b1 k1 h0 h1 => rw [hw] at h1; cases h1
    | retry b1 k1 k2 r1 r2 h0 h1 =>
      rw [hw] at h1
      cases h1
      exact (h.done w k1 r1 h0).step hn ho hs hnc
    | stop b1 h0 h1 =>
      have h2 : s.Owns w b := by
        rcases owns_of_owns hs ho hown with h2 | ⟨h2, _⟩
        · exact h2
        · rw [h0] at h2; cases h2
      rw [Owns, h0] at h2
      cases h2
      exact absurd (hrun w h0) h1
  · intro w i hw hi
    have hown : s'.Owns w b := by unfold Owns; rw [hw]; rfl
    have hnc := hcons w hown (by rw [hw]; simp) (fun _ _ => by rw [hw]; simp)
    cases pcMove_of_step hs w with
    | same h1 => exact (h.chosen w i (h1.symm.trans hw) hi).step hn ho hs hnc
    | leave h1 => rw [hw] at h1; cases h1
    | pick b1 h1 => rw [hw] at h1; cases h1
    | run b1 h0 h1 => rw [hw] at h1; cases h1
    | clear b1 i h0 h1 => rw [hw] at h1; cases h1
    | goAgain b1 k1 h0 h1 => rw [hw] at h1; cases h1
    | retry b1 k1 k2 r1 r2 h0 h1 => rw [hw] at h1; cases h1
    | stop b1 h0 h1 =>
      have h2 : s.Owns w b := by
        rcases owns_of_owns hs ho hown with h2 | ⟨h2, _⟩
        · exact h2
        · rw [h0] at h2; cases h2
      rw [Owns, h0] at h2
      cases h2
      exact absurd (hrun w h0) h1
  · intro w hw hbw
    have hown : s'.Owns w b := by unfold Owns; rw [hw]; rfl
    -- the worker was in `run_bucket` already, or comes from the `fetch_and`
    have hfrom : (s.pc w = .running b ∧ busy w) ∨ ∃ i, s.pc w = .dequeued b i := by
      rcases hb w hbw with h1 | h1
      · obtain ⟨b', h2⟩ := hidle w h1
        have h3 : s.Owns w b := by
          rcases owns_of_owns hs ho hown with h3 | ⟨h3, _⟩
          · exact h3
          · rw [h2] at h3; cases h3
        rw [Owns, h2] at h3
        cases h3
        exact .inl ⟨h2, h1⟩
      · obtain ⟨b', i, h2⟩ := h1
        have h3 : s.Owns w b := by
          rcases owns_of_owns hs ho hown with h3 | ⟨h3, _⟩
          · exact h3
          · rw [h2] at h3; cases h3
        rw [Owns, h2] at h3
        cases h3
        exact .inr ⟨i, h2⟩
    have hnc := hcons w hown (by rw [hw]; simp) (fun k hk => by
      rcases hfrom with ⟨h1, _⟩ | ⟨i, h1⟩ <;> rw [h1] at hk <;> cases hk)
    rcases hfrom with ⟨h1, h2⟩ | ⟨i, h1⟩
    · exact (h.running w h1 h2).step hn ho hs hnc
    · by_cases hi : i = 0
      · subst hi
        intro hj
        exfalso
        cases pcMove_of_step hs w with
        | clear b1 i1 h0 _ h2 =>
          rw [h1] at h0
          cases h0
          rw [h2, QueueSlot.hasJob_clearJob] at hj
          simp at hj
        | same h2 => rw [h1, hw] at h2; cases h2
        | leave h2 => rw [hw] at h2; cases h2
        | pick b1 h2 => rw [hw] at h2; cases h2
        | run b1 h0 _ => rw [h1] at h0; cases h0
        | goAgain b1 k1 h0 _ => rw [h1] at h0; cases h0
        | retry b1 k1 k2 r1 r2 h0 _ => rw [h1] at h0; cases h0
        | stop b1 h0 _ => rw [h1] at h0; cases h0
      · exact (h.chosen w i h1 hi).step hn ho hs hnc

theorem Wakeful.mono (h : s.Wakeful dead busy b) (hb : ∀ w, busy' w → busy w) :
    s.Wakeful dead busy' b :=
  ⟨h.free, h.done, h.chosen, fun w hw hbw => h.running w hw (hb w hbw)⟩

/-- The owner of the slot is in `run_bucket`: what is busy, and what is dead, may change. -/
theorem Wakeful.owner {dead' : Prop} (ho : s.Owned) (h : s.Wakeful dead busy b) {w : W}
    (hw : s.pc w = .running b) (hb : ∀ w', busy' w' → busy w') : s.Wakeful dead' busy' b where
  free hno := absurd (show s.Owns w b by unfold Owns; rw [hw]; rfl) (hno w)
  done w' k r hw' := by
    have e : w' = w := ho.unique b w' w (by unfold Owns; rw [hw']; rfl) (by unfold Owns; rw [hw]; rfl)
    rw [e, hw] at hw'
    cases hw'
  chosen w' i hw' hi := h.chosen w' i hw' hi
  running w' hw' hbw := h.running w' hw' (hb w' hbw)

/-- `load`: without a job the worker goes on to `done_with_bucket`, else it chooses the first. -/
theorem Wakeful.load (h : s.Wakeful dead busy b) {w : W}
    (hs : loadStep s w = some s') (hb : ¬ busy w) : s'.Wakeful dead busy b := by
  unfold loadStep at hs
  split at hs
  · next b1 hw =>
    -- the state differs in the program counter of `w` only
    have key : ∀ p : WorkerPc, p.bucket = some b1 → (∀ b2, p ≠ .running b2) →
        (∀ k r, p = .done b k r → s.Safe dead b) →
        (∀ i, p = .dequeued b i → i ≠ 0 → s.FirstSafe b) →
        (s.setPc w p).Wakeful dead busy b := by
      intro p hpb hpr hd hc
      constructor
      · intro hno
        refine h.free (fun w' hw' => hno w' ?_)
        unfold Owns
        rw [pc_setPc, bucket_update hw hpb]
        exact hw'
      · intro w' k r hw'
        by_cases e : w' = w
        · subst e; exact hd k r (by simpa using hw')
        · exact h.done w' k r (by simpa [Function.update_of_ne e] using hw')
      · intro w' i hw' hi
        by_cases e : w' = w
        · subst e; exact hc i (by simpa using hw') hi
        · exact h.chosen w' i (by simpa [Function.update_of_ne e] using hw') hi
      · intro w' hw' hbw
        by_cases e : w' = w
        · subst e; exact absurd hbw hb
        · exact h.running w' (by simpa [Function.update_of_ne e] using hw') hbw
    split at hs
    · next hj =>
      cases hs
      exact key _ rfl (fun _ => nofun) (fun k r e => by cases e; exact .inl (fun h => absurd hj h))
        (fun i e => nomatch e)
    · next hj =>
      cases hs
      refine key _ rfl (fun _ => nofun) (fun k r e => nomatch e) (fun i e hi hj0 => ?_)
      cases e
      have h0 := (trailingZeros_spec hj).2 0 (Nat.pos_of_ne_zero hi)
      unfold QueueSlot.hasJob at hj0
      rw [h0] at hj0
      cases hj0
  · cases hs

/-- `finish`: the tasks of the bucket are dead and the worker was busy. -/
theorem Wakeful.finish (h : s.Wakeful dead busy b) {w : W} {b1 : ℕ} (hw : s.pc w = .running b1)
    (hd : b = b1 → dead ∧ s.FirstSafe b) (hb : ∀ w', busy' w' → busy w' ∧ w' ≠ w) :
    (s.setPc w (.done b1 0 false)).Wakeful dead busy' b where
  free hno := by
    refine h.free (fun w' hw' => hno w' ?_)
    unfold Owns
    rw [pc_setPc, bucket_update (s := s) hw (rfl : (WorkerPc.done b1 0 false).bucket = _)]
    exact hw'
  done w' k r hw' := by
    by_cases e : w' = w
    · subst e
      rw [pc_setPc, Function.update_self] at hw'
      cases hw'
      exact .inr (hd rfl)
    · exact h.done w' k r (by simpa [Function.update_of_ne e] using hw')
  chosen w' i hw' hi := by
    by_cases e : w' = w
    · subst e; simp at hw'
    · exact h.chosen w' i (by simpa [Function.update_of_ne e] using hw') hi
  running w' hw' hbw := by
    obtain ⟨h1, e⟩ := hb w' hbw
    exact h.running w' (by simpa [Function.update_of_ne e] using hw') h1

end
end
end Queue
end Nea
