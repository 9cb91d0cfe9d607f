import Nea.Queue.Counter

/-!
# No bucket waits while all workers sleep

A worker goes to sleep when it reads a counter of zero, and the counter is zero only when no slot is
marked and idle (`due`).  A slot that is marked later has its caller on the way to `wake_one`.

* `marker`            the history that says which call marked a slot and has not executed
                      `wake_one` yet;
* `Attended`          while all workers sleep, every marked idle slot has such a call;
* `never_all_asleep`  once the call has executed `wake_one`, somebody is up.
-/

set_option linter.unusedSectionVars false

namespace Nea
namespace Queue
variable {W T : Type} [DecidableEq W] [DecidableEq T] [Fintype W] [Fintype T]

/-- the threads whose calls have marked a slot that was idle and not executed `wake_one` -/
abbrev Markers (W T : Type) : Type := ℕ → Option (Thread W T)

/-- how a step changes the history: a mark of an idle slot enters its thread, the `wake_one` of that
thread takes it out -/
def marker (s : Queue W T) (a : QAct W T) (_ : Queue W T) (m : Markers W T) : Markers W T :=
  match a with
  | .call t _ =>
    match s.calls t with
    | some c =>
      if c.pc = .mark ∧ (s.slots c.bucket).flags = 0 then Function.update m c.bucket (some t)
      else if c.pc = .wakeOne ∧ m c.bucket = some t then Function.update m c.bucket none
      else m
    | none => m
  | _ => m

/-- the queue with the history of its marks -/
def watched (cfg : Cfg) : Machine (Queue W T × Markers W T) (QAct W T) :=
  (machine cfg).watch (fun _ => none) marker

/-- all workers are in the wait set of the condition variable -/
def AllAsleep (s : Queue W T) : Prop := ∀ w, s.pc w = .blocked

/-- the call that marked slot `b` is about to execute `wake_one` -/
def Attended (s : Queue W T) (m : Markers W T) (b : ℕ) : Prop :=
  ∃ t c, m b = some t ∧ s.calls t = some c ∧ c.bucket = b ∧ c.pc = .wakeOne

section
variable {cfg : Cfg} {s s' : Queue W T} {m : Markers W T} {b : ℕ}

/-! ## who goes to sleep -/

/-- Slots outside of the queue are never marked. -/
theorem lt_of_flags (h : (machine cfg).Reachable s) (hb : (s.slots b).flags ≠ 0) :
    b < cfg.bucketCount := by
  revert b
  refine h.invariant (I := fun s => ∀ {b}, (s.slots b).flags ≠ 0 → b < cfg.bucketCount)
    (fun hb => absurd rfl hb) ?_
  intro s a s' hr hi _ he b hb
  have hcall : ∀ t c, s.calls t = some c → c.bucket = b → b < cfg.bucketCount := by
    rintro t c hc rfl
    exact ((named_of_reachable hr).calls t c hc).bucket_lt
  cases slotMove_of_step (.of_step he) b with
  | same h1 => rw [h1] at hb; exact hi hb
  | setOld t c hc hcb hj h1 => exact hcall t c hc hcb
  | setNew t c hc hcb hc' h1 => exact hcall t c hc hcb
  | mark t c hc hcb h1 => exact hcall t c hc hcb
  | pick w hlt hf hw' h1 => exact hlt
  | clear w i hw h1 => rw [h1] at hb; exact hi hb
  | goAgain w k hw hf hw' h1 =>
    refine hi ?_
    rw [hf]
    decide
  | release w k hw hf h1 => rw [h1] at hb; exact absurd rfl hb

/-- A counter of zero means that no slot is marked and idle. -/
theorem flags_ne_of_zero (h : (machine cfg).Reachable s) (hv : s.jobsInQueue.val = 0) :
    (s.slots b).flags ≠ enqueuedBit := by
  intro hb
  have hlt := lt_of_flags h (b := b) (by rw [hb]; decide)
  have h1 : (s.slots b).idleMark ≤ s.enqueuedOnly cfg :=
    le_tally QueueSlot.idleMark s.slots (Finset.mem_range.mpr hlt)
  rw [idleMark_of_eq hb] at h1
  have hd := due_of_reachable h
  unfold due at hd
  omega

/-- A worker that sleeps after its step has just read a counter of zero. -/
theorem workStep_blocked {w : W} (h : workStep cfg s w = some s') (hw : s'.pc w = .blocked) :
    s.jobsInQueue.val = 0 ∧ s'.slots = s.slots := by
  unfold workStep at h
  repeat' split at h
  all_goals first
    | cases h; exact ⟨‹_›, rfl⟩
    | cases h; rw [pc_setPc, Function.update_self] at hw; cases hw
    | cases h; rw [pc_kill] at hw; simp_all
    | cases h

theorem loadStep_not_blocked {w : W} (h : loadStep s w = some s') : s'.pc w ≠ .blocked := by
  unfold loadStep at h
  repeat' split at h
  all_goals first
    | cases h; rw [pc_setPc, Function.update_self]; simp
    | cases h

/-! ## while all sleep, the marks are attended -/

theorem Attended.congr (h : Attended s m b) (hc : ∀ t c, s.calls t = some c → s'.calls t = some c) :
    Attended s' m b := by
  obtain ⟨t, c, hm, ht, hb, hp⟩ := h
  exact ⟨t, c, hm, hc t c ht, hb, hp⟩

/-- Another call moves on. -/
theorem Attended.call (h : Attended s m b) {t : Thread W T} {c : Enqueue} {o : Option Enqueue}
    (ht : s.calls t = some c) (hp : c.pc ≠ .wakeOne)
    (hs : s'.calls = Function.update s.calls t o) : Attended s' m b := by
  obtain ⟨t1, c1, hm, ht1, hb, hp1⟩ := h
  have hne : t1 ≠ t := by
    rintro rfl
    rw [ht] at ht1
    cases ht1
    exact hp hp1
  exact ⟨t1, c1, hm, by rw [hs, Function.update_of_ne hne]; exact ht1, hb, hp1⟩

theorem marker_call {t : Thread W T} {waiter : Option W} {c : Enqueue} (hc : s.calls t = some c) :
    marker s (.call t waiter) s' m =
      if c.pc = .mark ∧ (s.slots c.bucket).flags = 0 then Function.update m c.bucket (some t)
      else if c.pc = .wakeOne ∧ m c.bucket = some t then Function.update m c.bucket none
      else m := by
  simp only [marker, hc]

/-- The mark of an idle slot is attended by its caller. -/
theorem attended_mark {t : Thread W T} {waiter : Option W} {c : Enqueue} (ho : s.Owned)
    (hc : s.calls t = some c) (hpc : c.pc = .mark) (he : s.callStep t waiter c = some s')
    (h : (s.slots b).flags = enqueuedBit → Attended s m b)
    (hb : (s'.slots b).flags = enqueuedBit) : Attended s' (marker s (.call t waiter) s' m) b := by
  have hkeep : (s.slots b).flags = enqueuedBit → Attended s' m b := by
    intro hf
    simp only [callStep, hpc] at he
    cases he
    exact (h hf).call hc (by rw [hpc]; simp) rfl
  rw [marker_call hc]
  by_cases h0 : (s.slots c.bucket).flags = 0
  · rw [if_pos ⟨hpc, h0⟩]
    by_cases e : b = c.bucket
    · -- the new mark
      subst e
      have hidle : ((!(s.slots c.bucket).markEnqueued.1.isEnqueued) &&
          !(s.slots c.bucket).markEnqueued.1.isInProgress) = true := by
        show ((!((s.slots c.bucket).flags &&& enqueuedBit != 0)) &&
          !((s.slots c.bucket).flags &&& inProgressBit != 0)) = true
        rw [h0]
        decide
      simp only [callStep, hpc, hidle, if_true] at he
      cases he
      exact ⟨t, { c with pc := .wakeOne }, Function.update_self .., Function.update_self .., rfl,
        rfl⟩
    · have hs' : s'.slots b = s.slots b := by
        simp only [callStep, hpc] at he
        cases he
        rw [slots_setCall, slots_setSlot, Function.update_of_ne e]
      obtain ⟨t1, c1, hm, h1⟩ := hkeep (by rw [← hs']; exact hb)
      exact ⟨t1, c1, by rw [Function.update_of_ne e]; exact hm, h1⟩
  · rw [if_neg (fun hn => h0 hn.2), if_neg (fun hn => by rw [hpc] at hn; cases hn.1)]
    refine hkeep ?_
    simp only [callStep, hpc] at he
    cases he
    rw [slots_setCall, slots_setSlot] at hb
    by_cases e : b = c.bucket
    · subst e
      rw [Function.update_self] at hb
      have key : ∀ f, Flags f → f ≠ 0 → f ||| enqueuedBit = enqueuedBit → f = enqueuedBit := by
        unfold Flags
        rintro f (rfl | rfl | rfl | rfl) <;> decide
      exact key _ (ho.flags c.bucket) h0 hb
    · rw [Function.update_of_ne e] at hb
      exact hb

/-- **One step leaves every mark attended, as long as all workers sleep.** -/
theorem attended_step [Nonempty W] (hr : (machine cfg).Reachable s)
    (h : AllAsleep s → ∀ b, (s.slots b).flags = enqueuedBit → Attended s m b) {a : QAct W T}
    (he : step cfg s a = some s') (hall : AllAsleep s') (b : ℕ)
    (hb : (s'.slots b).flags = enqueuedBit) : Attended s' (marker s a s' m) b := by
  cases a with
  | start t q =>
    simp only [step] at he
    split at he
    · next h0 =>
      obtain ⟨c, _, rfl⟩ := Option.map_eq_some_iff.mp he
      refine (h hall b hb).congr (fun t1 c1 h1 => ?_)
      have hne : t1 ≠ t := by
        rintro rfl
        rw [h0] at h1
        cases h1
      rw [calls_setCall, Function.update_of_ne hne]
      exact h1
    · cases he
  | call t waiter =>
    obtain ⟨c, hc, he⟩ := Option.bind_eq_some_iff.mp he
    -- a step of a call that neither marks nor wakes
    have hother : c.pc ≠ .mark → c.pc ≠ .wakeOne → ∀ o : Option Enqueue,
        s'.calls = Function.update s.calls t o → s'.pc = s.pc →
        (s'.slots b).flags = (s.slots b).flags → Attended s' (marker s (.call t waiter) s' m) b := by
      intro hm hw o hcalls hp hf
      rw [marker_call hc, if_neg (fun hn => hm hn.1), if_neg (fun hn => hw hn.1)]
      have hall' : AllAsleep s := fun w => by
        rw [← hp]
        exact hall w
      exact (h hall' b (hf.symm.trans hb)).call hc hw hcalls
    cases hpc : c.pc with
    | setJob =>
      simp only [callStep, hpc] at he
      cases he
      refine hother (by rw [hpc]; simp) (by rw [hpc]; simp) _ rfl rfl ?_
      rw [slots_setCall, slots_setSlot]
      by_cases e : b = c.bucket
      · subst e
        rw [Function.update_self]
        rfl
      · rw [Function.update_of_ne e]
    | increment =>
      simp only [callStep, hpc] at he
      split at he
      all_goals
        cases he
        exact hother (by rw [hpc]; simp) (by rw [hpc]; simp) _ rfl rfl rfl
    | revert =>
      simp only [callStep, hpc] at he
      split at he
      all_goals
        cases he
        exact hother (by rw [hpc]; simp) (by rw [hpc]; simp) _ rfl rfl rfl
    | mark =>
      refine attended_mark (owned_of_reachable hr) hc hpc he (fun hf => h (fun w => ?_) b hf) hb
      simp only [callStep, hpc] at he
      cases he
      exact hall w
    | wakeOne =>
      -- somebody is notified, or nobody was asleep
      simp only [callStep, hpc] at he
      obtain ⟨w0⟩ := ‹Nonempty W›
      cases waiter with
      | some w =>
        simp only at he
        split at he <;> cases he
        have hw := hall w
        rw [pc_setPc, Function.update_self] at hw
        cases hw
      | none =>
        simp only at he
        split at he <;> cases he
        exact absurd (hall w0) (‹∀ w, s.pc w ≠ .blocked› w0)
    | panicked counted =>
      simp only [callStep, hpc] at he
      cases he
  | spurious w =>
    simp only [step] at he
    split at he <;> cases he
    have hw := hall w
    rw [pc_setPc, Function.update_self] at hw
    cases hw
  | work w =>
    simp only [step] at he
    split at he
    · obtain ⟨hv, hs⟩ := workStep_blocked he (hall w)
      rw [hs] at hb
      exact absurd hb (flags_ne_of_zero hr hv)
    · cases he
  | load w =>
    simp only [step] at he
    split at he
    · exact absurd (hall w) (loadStep_not_blocked he)
    · cases he
  | finish w =>
    simp only [step] at he
    split at he <;> cases he
    have hw := hall w
    rw [pc_setPc, Function.update_self] at hw
    cases hw
  | die w =>
    cases he
    exact (h hall b hb).congr (fun t1 c1 h1 => h1)

/-- **No bucket waits while all workers sleep**: when a slot is marked and idle and the call that
marked it has executed `wake_one`, a live worker is not in the wait set. -/
theorem never_all_asleep [Nonempty W] (cfg : Cfg) (s : Queue W T) (m : Markers W T)
    (h : (watched cfg).Reachable (s, m)) (hlive : ∀ w, s.alive w = true) (b : ℕ)
    (hb : (s.slots b).flags = enqueuedBit) (hm : m b = none) :
    ∃ w, s.alive w = true ∧ s.pc w ≠ .blocked := by
  have hinv : AllAsleep s → ∀ b, (s.slots b).flags = enqueuedBit → Attended s m b := by
    refine h.invariant (I := fun x => AllAsleep x.1 → ∀ b, (x.1.slots b).flags = enqueuedBit →
      Attended x.1 x.2 b) (fun hall => ?_) ?_
    · obtain ⟨w0⟩ := ‹Nonempty W›
      exact absurd (hall w0) (by simp [watched, Machine.watch, machine, init])
    · intro x a x' hr hi _ he
      obtain ⟨h1, h2⟩ := Machine.watch_step.mp he
      rw [h2]
      exact attended_step (Machine.reachable_of_watch hr) hi h1
  by_contra hno
  have hall : AllAsleep s := by
    intro w
    by_contra hw
    exact hno ⟨w, hlive w, hw⟩
  obtain ⟨t, c, h1, _⟩ := hinv hall b hb
  rw [hm] at h1
  cases h1

/-- The last worker goes to sleep, the accept thread marks the first bucket and wakes it. -/
def waking : List (QAct (Fin 1) (Fin 1)) :=
  [.work 0, .start .accept ⟨0, 0⟩, .call .accept none, .call .accept none, .call .accept none,
    .call .accept (some 0)]

theorem never_all_asleep_waking : ∃ w, ((watched cfgOne).final waking).1.pc w ≠ .blocked := by
  obtain ⟨w, _, hw⟩ := never_all_asleep cfgOne ((watched cfgOne).final waking).1
    ((watched cfgOne).final waking).2 (Machine.reachable_final _ _) (by decide) 0 (by decide)
    (by decide)
  exact ⟨w, hw⟩

end
end Queue
end Nea
