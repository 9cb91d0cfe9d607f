import Nea.Queue.System

/-!
# One owner for each slot

A worker owns a slot from the moment `try_process` succeeds until the compare-exchange of
`done_with_bucket` that clears the flags.  `Owned` says that the in-progress flag of a slot is set
exactly while it has an owner and that the owner is unique; it holds in every reachable state of
the queue (`owned_of_reachable`), so `done_with_bucket` never fails its assertion
(`Owned.done_flags`).
-/

set_option linter.unusedSectionVars false

namespace Nea
namespace Queue
variable {W T : Type} [DecidableEq W] [DecidableEq T]

/-- worker `w` owns the slot of bucket `b` -/
def Owns (s : Queue W T) (w : W) (b : ℕ) : Prop := (s.pc w).bucket = some b

/-- the in-progress flag is the ownership of the slot -/
structure Owned (s : Queue W T) : Prop where
  flags : ∀ b, Flags (s.slots b).flags
  inProgress : ∀ b, (s.slots b).isInProgress = true ↔ ∃ w, s.Owns w b
  unique : ∀ b w w', s.Owns w b → s.Owns w' b → w = w'

theorem owned_init : Owned (init : Queue W T) where
  flags _ := QueueSlot.flags_zero
  inProgress b := by
    constructor
    · intro h; exact absurd h (by simp [init, QueueSlot.empty, QueueSlot.isInProgress])
    · rintro ⟨w, h⟩; cases h
  unique b w w' h := by cases h

/-- A step that moves no in-progress flag and no owner keeps the invariant. -/
theorem Owned.of_same {s s' : Queue W T} (h : Owned s)
    (hf : ∀ b, Flags (s'.slots b).flags ∧ (s'.slots b).isInProgress = (s.slots b).isInProgress)
    (hp : ∀ w, (s'.pc w).bucket = (s.pc w).bucket) : Owned s' where
  flags b := (hf b).1
  inProgress b := by
    rw [(hf b).2, h.inProgress b]
    simp only [Owns, hp]
  unique b w w' hw hw' := by
    unfold Owns at hw hw'
    rw [hp] at hw hw'
    exact h.unique b w w' hw hw'

/-- Only the program counter of `w` moves, and `w` owns what it owned. -/
theorem Owned.setPc {s : Queue W T} (h : Owned s) {w : W} {p p' : WorkerPc} (hw : s.pc w = p)
    (hp : p'.bucket = p.bucket) : Owned (s.setPc w p') := by
  refine h.of_same (fun b => ⟨h.flags b, rfl⟩) (fun w' => ?_)
  by_cases e : w' = w
  · subst e; simp [hp, hw]
  · simp [Function.update_of_ne e]

/-- One slot is rewritten, and its in-progress flag stays as it is. -/
theorem Owned.setSlot {s : Queue W T} (h : Owned s) {b : ℕ} {q : QueueSlot} (hq : Flags q.flags)
    (hi : q.isInProgress = (s.slots b).isInProgress) : Owned (s.setSlot b q) := by
  refine h.of_same (fun b' => ?_) (fun _ => rfl)
  by_cases e : b' = b
  · subst e; simpa using ⟨hq, hi⟩
  · simpa [Function.update_of_ne e] using h.flags b'

theorem Owned.congr {s s' : Queue W T} (h : Owned s) (hs : s'.slots = s.slots)
    (hp : s'.pc = s.pc) : Owned s' :=
  h.of_same (fun b => by rw [hs]; exact ⟨h.flags b, rfl⟩) (fun w => by rw [hp])

/-- **Taking a slot**: `try_process` succeeds only on a slot without an owner. -/
theorem Owned.pick {s : Queue W T} (h : Owned s) {w : W} {i j : ℕ} (hw : s.pc w = .scan j)
    (hf : (s.slots i).flags = enqueuedBit) :
    Owned ((s.setSlot i ((s.slots i).setFlags inProgressBit)).setPc w (.picked i)) := by
  have hfree : ∀ w', ¬ s.Owns w' i := by
    intro w' h'
    have hp := (QueueSlot.isInProgress_iff (h.flags i)).mp ((h.inProgress i).mpr ⟨w', h'⟩)
    rw [hf] at hp
    exact absurd hp (by decide)
  have hold : ∀ b w', ((s.setSlot i ((s.slots i).setFlags inProgressBit)).setPc w
      (.picked i)).Owns w' b ↔ (w' = w ∧ b = i) ∨ (w' ≠ w ∧ s.Owns w' b) := by
    intro b w'
    by_cases e : w' = w
    · subst e; simp [Owns, WorkerPc.bucket, eq_comm]
    · simp [Owns, e]
  constructor
  · intro b
    by_cases e : b = i
    · subst e; simpa using QueueSlot.flags_inProgressBit
    · simpa [Function.update_of_ne e] using h.flags b
  · intro b
    by_cases e : b = i
    · subst e
      exact ⟨fun _ => ⟨w, (hold b w).mpr (.inl ⟨rfl, rfl⟩)⟩,
        fun _ => by
          rw [slots_setPc, slots_setSlot, Function.update_self]
          exact (QueueSlot.isInProgress_iff QueueSlot.flags_inProgressBit).mpr (.inl rfl)⟩
    · rw [slots_setPc, slots_setSlot, Function.update_of_ne e, h.inProgress b]
      constructor
      · rintro ⟨w', h'⟩
        refine ⟨w', (hold b w').mpr (.inr ⟨?_, h'⟩)⟩
        rintro rfl
        rw [Owns, hw] at h'
        cases h'
      · rintro ⟨w', h'⟩
        rcases (hold b w').mp h' with ⟨_, e'⟩ | ⟨_, h'⟩
        · exact absurd e' e
        · exact ⟨w', h'⟩
  · intro b w1 w2 h1 h2
    rcases (hold b w1).mp h1 with ⟨rfl, rfl⟩ | ⟨_, h1⟩ <;>
      rcases (hold b w2).mp h2 with ⟨e2, e3⟩ | ⟨_, h2⟩
    · exact e2.symm
    · exact absurd h2 (hfree w2)
    · subst e3; exact absurd ‹s.Owns w1 b› (hfree w1)
    · exact h.unique b w1 w2 h1 h2

/-- **Giving a slot up**: the owner clears the flag and leaves. -/
theorem Owned.release {s : Queue W T} (h : Owned s) {w : W} {b k : ℕ} {r : Bool}
    (hw : s.pc w = .done b k r) :
    Owned ((s.setSlot b ((s.slots b).setFlags 0)).setPc w .waitJobs) := by
  have hown : s.Owns w b := by rw [Owns, hw]; rfl
  have hold : ∀ b' w', ((s.setSlot b ((s.slots b).setFlags 0)).setPc w .waitJobs).Owns w' b' ↔
      w' ≠ w ∧ s.Owns w' b' := by
    intro b' w'
    by_cases e : w' = w
    · subst e; simp [Owns, WorkerPc.bucket]
    · simp [Owns, e]
  constructor
  · intro b'
    by_cases e : b' = b
    · subst e; simpa using QueueSlot.flags_zero
    · simpa [Function.update_of_ne e] using h.flags b'
  · intro b'
    by_cases e : b' = b
    · subst e
      rw [slots_setPc, slots_setSlot, Function.update_self]
      constructor
      · intro h'; exact absurd h' (by simp [QueueSlot.isInProgress])
      · rintro ⟨w', h'⟩
        obtain ⟨hne, h'⟩ := (hold b' w').mp h'
        exact absurd (h.unique b' w' w h' hown) hne
    · rw [slots_setPc, slots_setSlot, Function.update_of_ne e, h.inProgress b']
      constructor
      · rintro ⟨w', h'⟩
        refine ⟨w', (hold b' w').mpr ⟨?_, h'⟩⟩
        rintro rfl
        exact e (Option.some_inj.mp (h'.symm.trans hown))
      · rintro ⟨w', h'⟩; exact ⟨w', ((hold b' w').mp h').2⟩
  · intro b' w1 w2 h1 h2
    exact h.unique b' w1 w2 ((hold b' w1).mp h1).2 ((hold b' w2).mp h2).2

/-- **One step keeps the ownership discipline.** -/
theorem Owned.step {cfg : Cfg} {s s' : Queue W T} (h : Owned s) (hs : QStep cfg s s') :
    Owned s' := by
  have hmark : ∀ b, Flags (s.slots b).markEnqueued.2.flags ∧
      (s.slots b).markEnqueued.2.isInProgress = (s.slots b).isInProgress :=
    fun b => ⟨(QueueSlot.markEnqueued_flags (h.flags b)).1,
      (QueueSlot.markEnqueued_flags (h.flags b)).2.2⟩
  cases hs with
  | start t q c h0 hc => exact h.congr rfl rfl
  | setOld t c hc hpc hj =>
    have h1 : Owned (s.setSlot c.bucket ((s.slots c.bucket).setJob c.offset).2) :=
      h.setSlot (h.flags c.bucket) rfl
    exact h1.congr rfl rfl
  | setNew t c hc hpc hj =>
    have h1 : Owned (s.setSlot c.bucket ((s.slots c.bucket).setJob c.offset).2) :=
      h.setSlot (h.flags c.bucket) rfl
    exact h1.congr rfl rfl
  | increment t c hc hpc => exact h.congr rfl rfl
  | incrementPanics t c m hc hpc hm hp => exact h.congr rfl rfl
  | markIdle t c hc hpc he hp =>
    exact (h.setSlot (hmark c.bucket).1 (hmark c.bucket).2).congr rfl rfl
  | markBusy t c hc hpc hb =>
    exact (h.setSlot (hmark c.bucket).1 (hmark c.bucket).2).congr rfl rfl
  | wakeOne t c w hc hpc hw =>
    have h1 : Owned (s.setCall t none) := h.congr rfl rfl
    exact h1.setPc hw rfl
  | wakeNone t c hc hpc hw => exact h.congr rfl rfl
  | revert t c hc hpc hv => exact h.congr rfl rfl
  | revertPanics t c m hc hpc hm hp hwhy => exact h.congr rfl rfl
  | spurious w hw => exact h.setPc hw rfl
  | waitPoisoned w hw hp => exact h.congr rfl rfl
  | block w hw hv => exact h.setPc hw rfl
  | wait w hw hv => exact h.setPc hw rfl
  | pick w i hw hi hf => exact h.pick hw hf
  | skip w i hw hi hf => exact h.setPc hw rfl
  | scanned w i hw hi => exact h.setPc hw rfl
  | run w b hw hv =>
    have h1 : Owned { s with jobsInQueue := s.jobsInQueue.set (s.jobsInQueue.val - 1) } :=
      h.congr rfl rfl
    exact h1.setPc hw rfl
  | runPanics w b m hw hm hp hwhy => exact h.congr rfl rfl
  | load w b hw hj => exact h.setPc hw rfl
  | loadNone w b hw hj => exact h.setPc hw rfl
  | clear w b i hw =>
    have h1 : Owned (s.setSlot b ((s.slots b).clearJob i)) := h.setSlot (h.flags b) rfl
    exact h1.setPc hw rfl
  | finish w b hw => exact h.setPc hw rfl
  | goAgain w b k hw hf =>
    have h1 : Owned (s.setSlot b ((s.slots b).setFlags inProgressBit)) :=
      h.setSlot QueueSlot.flags_inProgressBit (by
        simp only [QueueSlot.isInProgress, hf, QueueSlot.flags_setFlags]
        decide)
    exact h1.setPc hw rfl
  | tryRelease w b k hw hf => exact h.setPc hw rfl
  | notInProgress w b k hw hf hf' => exact h.congr rfl rfl
  | release w b k hw hf => exact h.release hw
  | retry w b k hw hf hk => exact h.setPc hw rfl
  | unreachable w b k hw hf hk => exact h.congr rfl rfl
  | die w => exact h.congr rfl rfl

/-- **The ownership discipline holds in every reachable state.** -/
theorem owned_of_reachable [Fintype W] {cfg : Cfg} {s : Queue W T}
    (h : (machine cfg).Reachable s) : Owned s :=
  h.invariant owned_init (fun _ _ _ _ hi _ he => hi.step (.of_step he))

/-! ## how a step moves the owners -/

section
variable {cfg : Cfg} {s s' : Queue W T}

theorem bucket_update {w : W} {p p' : WorkerPc} (hw : s.pc w = p) (hp : p'.bucket = p.bucket)
    (w' : W) : (Function.update s.pc w p' w').bucket = (s.pc w').bucket := by
  by_cases e : w' = w
  · subst e; rw [Function.update_self, hp, hw]
  · rw [Function.update_of_ne e]

/-- A step leaves the owners alone, takes a marked slot or gives a slot up. -/
theorem owners_of_step (h : QStep cfg s s') : (∀ w, (s'.pc w).bucket = (s.pc w).bucket) ∨
    (∃ w i j, s.pc w = .scan j ∧ (s.slots i).flags = enqueuedBit ∧
      s'.pc = Function.update s.pc w (.picked i)) ∨
    (∃ w b k, s.pc w = .done b k true ∧ s'.pc = Function.update s.pc w .waitJobs) := by
  cases h with
  | pick w i hw hi hf => exact .inr (.inl ⟨w, i, i, hw, hf, rfl⟩)
  | release w b k hw hf => exact .inr (.inr ⟨w, b, k, hw, rfl⟩)
  | wakeOne t c w hc hpc hw => exact .inl (bucket_update (s := s.setCall t none) hw rfl)
  | spurious w hw => exact .inl (bucket_update hw rfl)
  | block w hw => exact .inl (bucket_update hw rfl)
  | wait w hw => exact .inl (bucket_update hw rfl)
  | skip w i hw => exact .inl (bucket_update hw rfl)
  | scanned w i hw => exact .inl (bucket_update hw rfl)
  | run w b hw => exact .inl (bucket_update hw rfl)
  | load w b hw => exact .inl (bucket_update hw rfl)
  | loadNone w b hw => exact .inl (bucket_update hw rfl)
  | clear w b i hw => exact .inl (bucket_update hw rfl)
  | finish w b hw => exact .inl (bucket_update hw rfl)
  | goAgain w b k hw => exact .inl (bucket_update hw rfl)
  | tryRelease w b k hw => exact .inl (bucket_update hw rfl)
  | retry w b k hw => exact .inl (bucket_update hw rfl)
  | _ => exact .inl (fun _ => rfl)

/-- An owner that was no owner before the step was looking for a slot, and this one had none. -/
theorem owns_of_owns (h : QStep cfg s s') (ho : Owned s) {w : W} {b : ℕ}
    (hw : s'.Owns w b) : s.Owns w b ∨ ((s.pc w).bucket = none ∧ ∀ w', ¬ s.Owns w' b) := by
  rcases owners_of_step h with hs | ⟨w1, i, j, hp, hf, hpc⟩ | ⟨w1, b1, k, hp, hpc⟩
  · exact .inl ((hs w).symm.trans hw)
  · unfold Owns at hw
    rw [hpc] at hw
    by_cases e : w = w1
    · subst e
      rw [Function.update_self] at hw
      cases hw
      refine .inr ⟨by rw [hp]; rfl, fun w' hw' => ?_⟩
      have h1 := (QueueSlot.isInProgress_iff (ho.flags b)).mp ((ho.inProgress b).mpr ⟨w', hw'⟩)
      rw [hf] at h1
      exact absurd h1 (by decide)
    · rw [Function.update_of_ne e] at hw
      exact .inl hw
  · unfold Owns at hw
    rw [hpc] at hw
    by_cases e : w = w1
    · subst e
      rw [Function.update_self] at hw
      cases hw
    · rw [Function.update_of_ne e] at hw
      exact .inl hw

/-- Only `done_with_bucket` gives a slot up. -/
theorem owns_or_done (h : QStep cfg s s') {w : W} {b : ℕ} (hw : s.Owns w b) :
    s'.Owns w b ∨ ∃ k, s.pc w = .done b k true := by
  rcases owners_of_step h with hs | ⟨w1, i, j, hp, hf, hpc⟩ | ⟨w1, b1, k, hp, hpc⟩
  · exact .inl ((hs w).trans hw)
  · refine .inl ?_
    have e : w ≠ w1 := by
      rintro rfl
      rw [Owns, hp] at hw
      cases hw
    unfold Owns
    rw [hpc, Function.update_of_ne e]
    exact hw
  · by_cases e : w = w1
    · subst e
      rw [Owns, hp] at hw
      cases hw
      exact .inr ⟨k, hp⟩
    · refine .inl ?_
      unfold Owns
      rw [hpc, Function.update_of_ne e]
      exact hw

theorem callStep_pc [Fintype W] {t : Thread W T} {waiter : Option W} {c : Enqueue}
    (h : s.callStep t waiter c = some s') {w : W} (hw : s.pc w ≠ .blocked) :
    s'.pc w = s.pc w := by
  unfold callStep at h
  split at h
  · cases h; rfl
  · split at h <;> cases h <;> rfl
  · cases h; rfl
  · split at h
    · next w1 =>
      split at h
      · next h1 =>
        cases h
        have e : w ≠ w1 := by rintro rfl; exact hw h1
        simp only [pc_setPc, pc_setCall, Function.update_of_ne e]
      · cases h
    · split at h <;> cases h
      rfl
  · split at h <;> cases h <;> rfl
  · cases h

theorem workStep_pc {w1 : W} (h : workStep cfg s w1 = some s') {w : W} (hw : w ≠ w1) :
    s'.pc w = s.pc w := by
  unfold workStep at h
  repeat' split at h
  all_goals first
    | cases h; rfl
    | cases h; simp only [pc_setPc, pc_setSlot, Function.update_of_ne hw]
    | cases h

/-- **A worker that is not asleep moves by its own steps only.** -/
theorem pc_frame [Fintype W] {a : QAct W T} (h : step cfg s a = some s') {w : W}
    (hb : s.pc w ≠ .blocked) (hw : a ≠ .work w) (hl : a ≠ .load w) (hf : a ≠ .finish w) :
    s'.pc w = s.pc w := by
  cases a with
  | start t q =>
    simp only [step] at h
    split at h
    · obtain ⟨c, _, rfl⟩ := Option.map_eq_some_iff.mp h
      rfl
    · cases h
  | call t waiter =>
    obtain ⟨c, _, h1⟩ := Option.bind_eq_some_iff.mp h
    exact callStep_pc h1 hb
  | spurious w1 =>
    simp only [step] at h
    split at h
    · next h1 =>
      cases h
      have e : w ≠ w1 := by rintro rfl; exact hb h1
      rw [pc_setPc, Function.update_of_ne e]
    · cases h
  | work w1 =>
    have e : w ≠ w1 := by rintro rfl; exact hw rfl
    simp only [step] at h
    split at h
    · exact workStep_pc h e
    · cases h
  | load w1 =>
    have e : w ≠ w1 := by rintro rfl; exact hl rfl
    simp only [step, loadStep] at h
    repeat' split at h
    all_goals first
      | cases h; rw [pc_setPc, Function.update_of_ne e]
      | cases h
  | finish w1 =>
    have e : w ≠ w1 := by rintro rfl; exact hf rfl
    simp only [step] at h
    split at h
    · cases h; rw [pc_setPc, Function.update_of_ne e]
    · cases h
  | die w1 => cases h; rfl

/-- A worker inside `run_bucket` leaves it only by `load` or `finish`. -/
theorem running_of_step [Fintype W] {a : QAct W T} (h : step cfg s a = some s') {w : W} {b : ℕ}
    (hw : s.pc w = .running b) (hl : a ≠ .load w) (hf : a ≠ .finish w) :
    s'.pc w = .running b := by
  have hwork : a ≠ .work w := by
    rintro rfl
    simp only [step, workStep, hw] at h
    split at h <;> cases h
  rw [pc_frame h (by rw [hw]; simp) hwork hl hf]
  exact hw

end

/-- While a worker owns a slot its flags hold the in-progress bit, with or without a mark. -/
theorem Owned.done_flags {s : Queue W T} (h : Owned s) {w : W} {b : ℕ} (hw : s.Owns w b) :
    (s.slots b).flags = inProgressBit ∨ (s.slots b).flags = enqueuedBit ||| inProgressBit :=
  (QueueSlot.isInProgress_iff (h.flags b)).mp ((h.inProgress b).mpr ⟨w, hw⟩)

end Queue
end Nea
