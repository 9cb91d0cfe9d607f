import Nea.Queue.System

/-!
# Where job bits come from

Every set job bit, every offset that a `dequeue` has chosen and every call in progress names a slot
and an offset that `initial_enqueue` computed from some queue index (`Named`).  So the slot exists,
the offset is below 64, and `run_bucket` rebuilds the very index that was enqueued
(`IsJob.rebuild`).  `NamedBy` is the same for any property of slots and offsets that the calls of a
run have.
-/

set_option linter.unusedSectionVars false

namespace Nea

/-- some queue index is enqueued as offset `i` of slot `b` -/
def IsJob (cfg : Cfg) (b i : ℕ) : Prop :=
  ∃ q : QueueIndex, initialEnqueue cfg q = some ⟨b, i, .setJob⟩

theorem initialEnqueue_eq_some {cfg : Cfg} {q : QueueIndex} {c : Enqueue} :
    initialEnqueue cfg q = some c ↔ cfg.io.perBucket ≠ 0 ∧ c.pc = .setJob ∧
      c.bucket = q.index.toNat / cfg.io.perBucket ∧ c.offset = q.index.toNat % cfg.io.perBucket ∧
      c.bucket < 1000 ∧ c.bucket < cfg.bucketCount ∧ c.offset < 64 := by
  unfold initialEnqueue
  simp only [Option.bind_eq_bind, Option.bind_eq_some_iff,
    QueueIndex.toBucketIndex_eq_some cfg.perBucket_lt]
  constructor
  · rintro ⟨bi, ⟨h0, _, hb, h1⟩, h⟩
    split at h
    · next hlt => cases h; exact ⟨h0, rfl, hb, rfl, h1, hlt.1, hlt.2⟩
    · cases h
  · rintro ⟨h0, h1, h2, h3, h4, h5, h6⟩
    have hlt : c.bucket < 2^32 := by omega
    refine ⟨⟨q.identifier, .ofNat c.bucket⟩, ⟨h0, rfl, ?_, ?_⟩, ?_⟩
    · rw [UInt32.toNat_ofNat', Nat.mod_eq_of_lt hlt, h2]
    · rw [UInt32.toNat_ofNat', Nat.mod_eq_of_lt hlt]; exact h4
    · rw [UInt32.toNat_ofNat', Nat.mod_eq_of_lt hlt, ← h3, if_pos ⟨h5, h6⟩]
      cases c
      simp_all

theorem initialEnqueue_isJob {cfg : Cfg} {q : QueueIndex} {c : Enqueue}
    (h : initialEnqueue cfg q = some c) : IsJob cfg c.bucket c.offset := by
  have hpc := (initialEnqueue_eq_some.mp h).2.1
  exact ⟨q, by rw [h]; cases c; cases hpc; rfl⟩

section
variable {cfg : Cfg} {b i : ℕ}

theorem IsJob.bucket_lt (h : IsJob cfg b i) : b < cfg.bucketCount := by
  obtain ⟨q, hq⟩ := h
  exact (initialEnqueue_eq_some.mp hq).2.2.2.2.2.1

theorem IsJob.offset_lt (h : IsJob cfg b i) : i < 64 := by
  obtain ⟨q, hq⟩ := h
  exact (initialEnqueue_eq_some.mp hq).2.2.2.2.2.2

theorem IsJob.bucket_lt_1000 (h : IsJob cfg b i) : cfg.io.perBucket ≠ 0 ∧ b < 1000 := by
  obtain ⟨q, hq⟩ := h
  exact ⟨(initialEnqueue_eq_some.mp hq).1, (initialEnqueue_eq_some.mp hq).2.2.2.2.1⟩

/-- The index `b * per_bucket + i` lies in bucket `b` at offset `i` and fits in `u32`. -/
theorem IsJob.rebuild (h : IsJob cfg b i) :
    (b * cfg.io.perBucket + i) / cfg.io.perBucket = b ∧
      (b * cfg.io.perBucket + i) % cfg.io.perBucket = i ∧ b * cfg.io.perBucket + i < 2^32 := by
  obtain ⟨q, hq⟩ := h
  obtain ⟨h0, _, h1, h2, _⟩ := initialEnqueue_eq_some.mp hq
  have he : b * cfg.io.perBucket + i = q.index.toNat := by
    change b = _ at h1
    change i = _ at h2
    rw [h1, h2, Nat.mul_comm]
    exact Nat.div_add_mod ..
  rw [he]
  exact ⟨h1.symm, h2.symm, q.index.toNat_lt⟩

end

namespace Queue
variable {W T : Type} [DecidableEq W] [DecidableEq T]

structure Named (cfg : Cfg) (s : Queue W T) : Prop where
  calls : ∀ t c, s.calls t = some c → IsJob cfg c.bucket c.offset
  jobs : ∀ b i, (s.slots b).hasJob i = true → IsJob cfg b i
  chosen : ∀ w b i, s.pc w = .dequeued b i → IsJob cfg b i

/-- every call, every set bit and every chosen offset satisfies `P` -/
structure NamedBy (P : ℕ → ℕ → Prop) (s : Queue W T) : Prop where
  calls : ∀ t c, s.calls t = some c → P c.bucket c.offset
  jobs : ∀ b i, (s.slots b).hasJob i = true → P b i
  chosen : ∀ w b i, s.pc w = .dequeued b i → P b i

theorem namedBy_init (P : ℕ → ℕ → Prop) : NamedBy P (init : Queue W T) where
  calls t c h := by cases h
  jobs b i h := by simp [init, QueueSlot.empty, QueueSlot.hasJob] at h
  chosen w b i h := by cases h

section
variable {cfg : Cfg} {P : ℕ → ℕ → Prop} {s : Queue W T}

theorem named_iff : Named cfg s ↔ NamedBy (IsJob cfg) s :=
  ⟨fun h => ⟨h.calls, h.jobs, h.chosen⟩, fun h => ⟨h.calls, h.jobs, h.chosen⟩⟩

theorem NamedBy.setCall (h : NamedBy P s) {t : Thread W T} {o : Option Enqueue}
    (ho : ∀ c, o = some c → P c.bucket c.offset) : NamedBy P (s.setCall t o) where
  calls t' c hc := by
    by_cases e : t' = t
    · subst e; exact ho c (by simpa using hc)
    · exact h.calls t' c (by simpa [Function.update_of_ne e] using hc)
  jobs := h.jobs
  chosen := h.chosen

theorem NamedBy.setPc (h : NamedBy P s) {w : W} {p : WorkerPc}
    (hp : ∀ b i, p = .dequeued b i → P b i) : NamedBy P (s.setPc w p) where
  calls := h.calls
  jobs := h.jobs
  chosen w' b i hw := by
    by_cases e : w' = w
    · subst e; exact hp b i (by simpa using hw)
    · exact h.chosen w' b i (by simpa [Function.update_of_ne e] using hw)

theorem NamedBy.setSlot (h : NamedBy P s) {b : ℕ} {q : QueueSlot}
    (hq : ∀ i, q.hasJob i = true → P b i) : NamedBy P (s.setSlot b q) where
  calls := h.calls
  jobs b' i hi := by
    by_cases e : b' = b
    · subst e; exact hq i (by simpa using hi)
    · exact h.jobs b' i (by simpa [Function.update_of_ne e] using hi)
  chosen := h.chosen

theorem NamedBy.jobsInQueue (h : NamedBy P s) (m : Mutex ℕ) :
    NamedBy P { s with jobsInQueue := m } := ⟨h.calls, h.jobs, h.chosen⟩

theorem NamedBy.kill (h : NamedBy P s) (w : W) : NamedBy P (s.kill w) :=
  ⟨h.calls, h.jobs, h.chosen⟩

/-- **One step brings in no job but those of new calls.** -/
theorem NamedBy.step {s' : Queue W T} (hP : ∀ b i, P b i → i < 64) (h : NamedBy P s)
    (hs : QStep cfg s s')
    (hnew : ∀ t c, s.calls t = none → s'.calls t = some c → P c.bucket c.offset) :
    NamedBy P s' := by
  -- the slot of a call after its `fetch_or`
  have hset : ∀ t c, s.calls t = some c →
      NamedBy P (s.setSlot c.bucket ((s.slots c.bucket).setJob c.offset).2) := by
    intro t c hc
    refine h.setSlot (fun i hi => ?_)
    have hjob := h.calls t c hc
    rw [QueueSlot.hasJob_setJob _ (hP _ _ hjob)] at hi
    by_cases e : i = c.offset
    · rw [e]; exact hjob
    · exact h.jobs c.bucket i (by simpa [e] using hi)
  have hflags : ∀ b f, NamedBy P (s.setSlot b ((s.slots b).setFlags f)) :=
    fun b f => h.setSlot (h.jobs b)
  have hcall : ∀ t c p, s.calls t = some c →
      ∀ c', some { c with pc := p } = some c' → P c'.bucket c'.offset := by
    rintro t c p hc c' ⟨⟩
    exact h.calls t c hc
  cases hs with
  | start t q c h0 hc =>
    refine h.setCall (fun c' hc' => hnew t c' h0 ?_)
    rw [calls_setCall, Function.update_self]
    exact hc'
  | setOld t c hc hpc hj => exact (hset t c hc).setCall (by rintro _ ⟨⟩)
  | setNew t c hc hpc hj => exact (hset t c hc).setCall (hcall t c _ hc)
  | increment t c hc hpc => exact (h.jobsInQueue _).setCall (hcall t c _ hc)
  | incrementPanics t c m hc hpc hm hp => exact (h.jobsInQueue _).setCall (hcall t c _ hc)
  | markIdle t c hc hpc he hp => exact (hflags c.bucket _).setCall (hcall t c _ hc)
  | markBusy t c hc hpc hb => exact (hflags c.bucket _).setCall (hcall t c _ hc)
  | wakeOne t c w hc hpc hw =>
    exact (h.setCall (by rintro _ ⟨⟩)).setPc (by rintro _ _ ⟨⟩)
  | wakeNone t c hc hpc hw => exact h.setCall (by rintro _ ⟨⟩)
  | revert t c hc hpc hv => exact (h.jobsInQueue _).setCall (by rintro _ ⟨⟩)
  | revertPanics t c m hc hpc hm hp hwhy => exact (h.jobsInQueue _).setCall (hcall t c _ hc)
  | spurious w hw => exact h.setPc (by rintro _ _ ⟨⟩)
  | waitPoisoned w hw hp => exact h.kill w
  | block w hw hv => exact h.setPc (by rintro _ _ ⟨⟩)
  | wait w hw hv => exact h.setPc (by rintro _ _ ⟨⟩)
  | pick w i hw hi hf => exact (hflags i _).setPc (by rintro _ _ ⟨⟩)
  | skip w i hw hi hf => exact h.setPc (by rintro _ _ ⟨⟩)
  | scanned w i hw hi => exact h.setPc (by rintro _ _ ⟨⟩)
  | run w b hw hv => exact (h.jobsInQueue _).setPc (by rintro _ _ ⟨⟩)
  | runPanics w b m hw hm hp hwhy => exact (h.jobsInQueue m).kill w
  | load w b hw hj =>
    refine h.setPc ?_
    rintro _ _ ⟨⟩
    exact h.jobs b _ (trailingZeros_spec hj).1
  | loadNone w b hw hj => exact h.setPc (by rintro _ _ ⟨⟩)
  | clear w b i hw =>
    refine NamedBy.setPc (h.setSlot (fun j hj => ?_)) (by rintro _ _ ⟨⟩)
    rw [QueueSlot.hasJob_clearJob, Bool.and_eq_true] at hj
    exact h.jobs b j hj.1
  | finish w b hw => exact h.setPc (by rintro _ _ ⟨⟩)
  | goAgain w b k hw hf => exact (hflags b _).setPc (by rintro _ _ ⟨⟩)
  | tryRelease w b k hw hf => exact h.setPc (by rintro _ _ ⟨⟩)
  | notInProgress w b k hw hf hf' => exact h.kill w
  | release w b k hw hf => exact (hflags b _).setPc (by rintro _ _ ⟨⟩)
  | retry w b k hw hf hk => exact h.setPc (by rintro _ _ ⟨⟩)
  | unreachable w b k hw hf hk => exact h.kill w
  | die w => exact h.kill w

theorem callStep_calls [Fintype W] {s' : Queue W T} {t t' : Thread W T} {waiter : Option W}
    {c : Enqueue} (h : s.callStep t waiter c = some s') (hne : t' ≠ t) :
    s'.calls t' = s.calls t' := by
  unfold callStep at h
  repeat' split at h
  all_goals first
    | cases h; simp only [calls_setPc, calls_setCall, calls_setSlot, Function.update_of_ne hne]
    | cases h

theorem workStep_calls {s' : Queue W T} {w : W} (h : workStep cfg s w = some s') :
    s'.calls = s.calls := by
  unfold workStep at h
  repeat' split at h
  all_goals cases h <;> rfl

/-- A call that was not there before the step has just been made. -/
theorem started_of_step [Fintype W] {s' : Queue W T} {a : QAct W T} (h : step cfg s a = some s')
    {t : Thread W T} {c : Enqueue} (h0 : s.calls t = none) (hc : s'.calls t = some c) :
    ∃ q, a = .start t q ∧ initialEnqueue cfg q = some c := by
  have hsame : s'.calls t ≠ s.calls t := by
    rw [hc, h0]
    exact nofun
  cases a with
  | start t1 q =>
    simp only [step] at h
    split at h
    · obtain ⟨c1, hc1, rfl⟩ := Option.map_eq_some_iff.mp h
      by_cases e : t = t1
      · subst e
        rw [calls_setCall, Function.update_self] at hc
        cases hc
        exact ⟨q, rfl, hc1⟩
      · rw [calls_setCall, Function.update_of_ne e] at hsame
        exact absurd rfl hsame
    · cases h
  | call t1 waiter =>
    obtain ⟨c1, hc1, h1⟩ := Option.bind_eq_some_iff.mp h
    refine absurd (callStep_calls h1 ?_) hsame
    rintro rfl
    rw [h0] at hc1
    cases hc1
  | work w =>
    simp only [step] at h
    split at h
    · rw [workStep_calls h] at hsame
      exact absurd rfl hsame
    · cases h
  | load w =>
    simp only [step, loadStep] at h
    repeat' split at h
    all_goals cases h <;> exact absurd rfl hsame
  | spurious w =>
    simp only [step] at h
    split at h <;> cases h
    exact absurd rfl hsame
  | finish w =>
    simp only [step] at h
    split at h <;> cases h
    exact absurd rfl hsame
  | die w =>
    cases h
    exact absurd rfl hsame

/-- **The jobs of a run are those of its calls.** -/
theorem namedBy_of_reach [Fintype W] {ok : Queue W T → QAct W T → Prop}
    (hP : ∀ b i, P b i → i < 64)
    (hok : ∀ s t q c, ok s (.start t q) → initialEnqueue cfg q = some c → P c.bucket c.offset)
    (h : (machine cfg).Reach ok s) : NamedBy P s := by
  refine h.invariant (namedBy_init P) (fun s a s' _ hi ho he => ?_)
  refine hi.step hP (.of_step he) (fun t c h0 hc => ?_)
  obtain ⟨q, rfl, hq⟩ := started_of_step he h0 hc
  exact hok s t q c ho hq

theorem named_of_reachable [Fintype W] (h : (machine cfg).Reachable s) : Named cfg s :=
  named_iff.mpr (namedBy_of_reach (fun _ _ => IsJob.offset_lt)
    (fun _ _ _ _ _ hq => initialEnqueue_isJob hq) h)

end
end Queue
end Nea
