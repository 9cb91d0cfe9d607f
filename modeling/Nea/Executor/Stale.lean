import Nea.Executor.Local

/-!
# Late wake-ups of a main task

The job of a main future that is gone can still be dequeued: a waker was called late, or the code
that `cleanup_bucket` drops woke it.  `poll_input_stream` panics on it, and the panic is answered by
`cleanup_bucket`, whatever the bucket is used for by then.

* `State.Late`        a worker is about to look at a main future that is not there;
* `State.Harmless`    what a late wake-up should leave as it is;
* `late_step`         it panics every time;
* `late_closes`       if the panic is caught, five steps later the worker has closed the descriptor
                      whose number is in `tcp_streams`;
* `late_never_harmless`   the two together, and what follows for whole runs.
-/

set_option linter.unusedSectionVars false

namespace Nea

/-- the next step looks at a main future that is not there -/
def Bucket.late (v : Bucket) : TaskPc → Bool
  | .takeMain _ => v.future.val.isNone
  | _ => false

/-- the condition: no main job is taken up without a main future -/
def notLate (v : Bucket) (t : TaskPc) (_ : Gate) (_ : TaskAct) : Prop := v.late t = false

section
variable {W T : Type} [DecidableEq W] [DecidableEq T]
variable {cfg : Cfg} {s s' : State W T}

/-- worker `w` is about to look at the main future of bucket `b`, which is not there -/
def State.Late (s : State W T) (w : W) (b : ℕ) : Prop :=
  s.task w = .takeMain b ∧ (s.bucket b).future.val = none

/-- nothing of bucket `b` and no descriptor changes, and worker `w` does not panic -/
structure State.Harmless (s s' : State W T) (w : W) (b : ℕ) : Prop where
  refcount : (s'.bucket b).refcount.val = (s.bucket b).refcount.val
  connections : (s'.bucket b).connections = (s.bucket b).connections
  remaining : (s'.bucket b).remaining = (s.bucket b).remaining
  fds : s'.fds = s.fds
  alive : s'.q.alive w = s.q.alive w
  calm : ∀ owed, s'.task w ≠ .unwinding b owed

variable [Fintype W]

/-- **Every late wake-up panics**: below `catch_unwind`, or on the lock that `set` holds. -/
theorem late_step {w : W} {b : ℕ} {a : TaskAct} (hl : s.Late w b)
    (hs : s.step cfg (.task w a) = some s') :
    s.q.alive w = true ∧ (s'.task w = .unwinding b false ∨ s'.q.alive w = false) := by
  obtain ⟨ht, hn⟩ := hl
  simp only [State.step] at hs
  split at hs
  · next hal =>
    refine ⟨hal.1, ?_⟩
    obtain ⟨b', v, t, e, hb, hts, he⟩ := State.taskStep_eq hs
    rw [ht] at hb hts
    cases hb
    have htask : s'.task w = t := by
      rw [(State.emit_eq he).2.2.1, State.setTask_task, Function.update_self]
    cases hts with
    | die _ _ _ =>
      cases he
      exact .inr (Function.update_self ..)
    | stale => exact .inl htask
    | take f _ _ hsome => rw [hn] at hsome; cases hsome
    | alloc _ _ _ h => rcases h with ⟨_, h⟩ | ⟨_, _, h⟩ <;> cases h
    | longjmp _ _ _ h => rcases h with ⟨_, h⟩ | h <;> cases h
    | longjmpConn _ _ _ _ _ h => rcases h with h | h <;> cases h
    | raise _ _ _ _ h => cases h
    | connPanics _ _ _ h => rcases h with h | h <;> cases h
  · cases hs

/-- what a step does to the descriptors -/
def Effect.closed (e : Effect) (fds : RawFd → Bool) : RawFd → Bool :=
  match e with
  | .close fd => Function.update fds fd false
  | _ => fds

/-- the step does not reach the queue -/
def Effect.silent : Effect → Bool
  | .enqueue _ => false
  | .die => false
  | .forever => false
  | _ => true

/-- A step of a worker that does not reach the queue. -/
theorem State.step_silent {w : W} {b : ℕ} {a : TaskAct} {v : Bucket} {t : TaskPc} {e : Effect}
    (hb : (s.task w).bucket = some b) (hal : s.q.alive w = true)
    (hc : s.q.calls (.worker w) = none)
    (h : (s.bucket b).taskStep cfg (s.task w) a = some (v, t, e)) (he : e.silent = true) :
    ∃ s', s.step cfg (.task w a) = some s' ∧ s'.q = s.q ∧ s'.bucket b = v ∧ s'.task w = t ∧
      s'.fds = e.closed s.fds := by
  rw [State.step_task hb hal hc h]
  have hv : Function.update s.bucket b v b = v := Function.update_self ..
  have ht : Function.update s.task w t w = t := Function.update_self ..
  cases e with
  | enqueue => cases he
  | die => cases he
  | forever => cases he
  | _ => exact ⟨_, rfl, rfl, hv, ht, rfl⟩

/-- `n` steps of a worker on its bucket that do not reach the queue, and the descriptors after -/
def Bucket.alone (cfg : Cfg) (b : ℕ) :
    ℕ → Bucket → TaskPc → (RawFd → Bool) → Option (Bucket × TaskPc × (RawFd → Bool))
  | 0, v, t, fds => some (v, t, fds)
  | n + 1, v, t, fds =>
    match v.taskStep cfg t .step with
    | some (v', t', e) =>
      if t.bucket = some b ∧ e.silent = true then Bucket.alone cfg b n v' t' (e.closed fds) else none
    | none => none

theorem Bucket.alone_succ {b n : ℕ} {v v' : Bucket} {t t' : TaskPc} {e : Effect}
    {fds : RawFd → Bool} {r : Bucket × TaskPc × (RawFd → Bool)} (hb : t.bucket = some b)
    (hs : v.taskStep cfg t .step = some (v', t', e)) (he : e.silent = true)
    (hr : Bucket.alone cfg b n v' t' (e.closed fds) = some r) :
    Bucket.alone cfg b (n + 1) v t fds = some r := by
  unfold Bucket.alone
  rw [hs]
  exact (if_pos ⟨hb, he⟩).trans hr

/-- Nothing else moves: the worker goes on alone. -/
theorem State.run_alone {w : W} {b n : ℕ} {v : Bucket} {t : TaskPc} {fds : RawFd → Bool}
    (hal : s.q.alive w = true) (hc : s.q.calls (.worker w) = none)
    (h : Bucket.alone cfg b n (s.bucket b) (s.task w) s.fds = some (v, t, fds)) :
    ∃ s', (Executor.machine cfg).run s (List.replicate n (.task w .step)) = some s' ∧
      s'.bucket b = v ∧ s'.task w = t ∧ s'.fds = fds := by
  induction n generalizing s with
  | zero => cases h; exact ⟨s, rfl, rfl, rfl, rfl⟩
  | succ n ih =>
    unfold Bucket.alone at h
    split at h
    · next v1 t1 e1 hstep =>
      split at h
      · next hb =>
        obtain ⟨s1, h1, hq, hv, ht, hf⟩ := State.step_silent hb.1 hal hc hstep hb.2
        rw [← hv, ← ht, ← hf] at h
        obtain ⟨s', h2, h3⟩ := ih (by rw [hq]; exact hal) (by rw [hq]; exact hc) h
        refine ⟨s', ?_, h3⟩
        rw [List.replicate_succ, Machine.run_cons]
        show (s.step cfg (.task w .step)).bind _ = some s'
        rw [h1]
        exact h2
      · cases h
    · cases h

/-- **The worker closes the descriptor whose number is stored**, whoever it belongs to by then. -/
theorem late_closes {w : W} {b : ℕ} (hl : s.Late w b) (hf : (s.bucket b).future.free = true)
    (hal : s.q.alive w = true) (hc : s.q.calls (.worker w) = none) :
    ∃ s', (Executor.machine cfg).run s (List.replicate 6 (.task w .step)) = some s' ∧
      s'.task w = .cleanup b .caught (.slots 0) ∧ s'.fds (s.bucket b).tcpStream = false ∧
      (s'.bucket b).trace = .reclaim (s.bucket b).tcpStream :: (s.bucket b).trace := by
  obtain ⟨ht, hn⟩ := hl
  have h0 : (s.bucket b).taskStep cfg (.takeMain b) .step
      = some ((s.bucket b).setFuture (s.bucket b).future.lock, .unwinding b false, .panic) := by
    simp only [Bucket.taskStep, hf, hn, Bucket.raise, if_true]
  -- the panic is caught, and nothing up to the first slot has a condition
  have h1 : ∃ v, Bucket.alone cfg b 6 (s.bucket b) (.takeMain b) s.fds
      = some (v, .cleanup b .caught (.slots 0),
        Function.update s.fds (s.bucket b).tcpStream false) ∧
      v.trace = .reclaim (s.bucket b).tcpStream :: (s.bucket b).trace :=
    ⟨_, Bucket.alone_succ rfl h0 rfl (Bucket.alone_succ rfl rfl rfl (Bucket.alone_succ rfl rfl rfl
      (Bucket.alone_succ rfl rfl rfl (Bucket.alone_succ rfl rfl rfl
        (Bucket.alone_succ rfl rfl rfl rfl))))), rfl⟩
  obtain ⟨v, h2, htr⟩ := h1
  rw [← ht] at h2
  obtain ⟨s', hrun, hv, ht', hfd⟩ := State.run_alone hal hc h2
  refine ⟨s', hrun, ht', ?_, by rw [hv]; exact htr⟩
  rw [hfd]
  exact Function.update_self ..

theorem late_not_harmless {w : W} {b : ℕ} {a : TaskAct} (hl : s.Late w b)
    (hs : s.step cfg (.task w a) = some s') : ¬ s.Harmless s' w b := by
  intro h
  obtain ⟨hal, h1 | h1⟩ := late_step hl hs
  · exact h.calm false h1
  · rw [h.alive, hal] at h1
    cases h1

/-- **No late wake-up is harmless.**  Whenever a worker looks at a main future that is not there, it
panics; if it could take the lock, it goes on to close the descriptor whose number is stored.  So
the late wake-ups of a run are all harmless exactly if there are none. -/
theorem late_never_harmless (cfg : Cfg) :
    (∀ (s s' : State W T) w b a, s.Late w b →
      s.step cfg (.task w a) = some s' →
      ¬ s.Harmless s' w b ∧ (s'.task w = .unwinding b false ∨ s'.q.alive w = false)) ∧
    (∀ (s : State W T) w b, s.Late w b →
      (s.bucket b).future.free = true → s.q.alive w = true → s.q.calls (.worker w) = none →
      ∃ s', (Executor.machine cfg).run s (List.replicate 6 (.task w .step)) = some s' ∧
        s'.task w = .cleanup b .caught (.slots 0) ∧ s'.fds (s.bucket b).tcpStream = false ∧
        (s'.bucket b).trace = .reclaim (s.bucket b).tcpStream :: (s.bucket b).trace) ∧
    (∀ l, (Executor.machine cfg).All
        (fun s a s' => ∀ w b a', a = .task w a' → s.Late w b → s.Harmless s' w b)
        (State.init cfg : State W T) l ↔
      (Executor.machine cfg).All (fun s a _ => s.Admits notLate a) (State.init cfg) l) := by
  refine ⟨fun s s' w b a hl hs => ⟨late_not_harmless hl hs, (late_step hl hs).2⟩,
    fun s w b hl hf hal hc => late_closes hl hf hal hc,
    fun l => Machine.all_iff ?_ .init l⟩
  intro s a s' _ hs
  cases a with
  | task w a =>
    constructor
    · intro hq
      simp only [State.Admits]
      split
      · next b hb =>
        unfold notLate
        by_contra hlate
        have hl : s.Late w b := by
          cases ht : s.task w with
          | takeMain b' =>
            rw [ht] at hb hlate
            cases hb
            exact ⟨ht, Option.isNone_iff_eq_none.mp (Bool.not_eq_false _ ▸ hlate)⟩
          | _ => rw [ht] at hlate; exact absurd rfl hlate
        exact late_not_harmless hl hs (hq w b a rfl hl)
      · trivial
    · rintro hok w' b a' ha ⟨ht, hn⟩
      cases ha
      have hb : (s.task w).bucket = some b := by rw [ht]; rfl
      have hlate : (s.bucket b).late (s.task w) = false := (State.admits_task hb).mp hok
      rw [ht] at hlate
      change (s.bucket b).future.val.isNone = false at hlate
      rw [hn] at hlate
      cases hlate
  | _ => exact ⟨fun _ => trivial, fun _ _ _ _ ha => by cases ha⟩

/-- the main future of bucket 0 wakes itself and completes, and the worker takes its job up again -/
def waking : List (Act (Fin 1) (Fin 1)) :=
  [.wake (.worker 0) ⟨0, 0⟩, .call (.worker 0) none, .call (.worker 0) none,
    .call (.worker 0) none, .call (.worker 0) none, .task 0 .ready, .task 0 .step, .task 0 .step,
    .task 0 .step, .task 0 .step, .work 0, .load 0, .work 0, .task 0 .step]

theorem late_never_harmless_waking : ∃ s', (Executor.machine cfgOne).run
    ((Executor.machine cfgOne).final (arriving ++ taking ++ waking))
    (List.replicate 6 (.task 0 .step)) = some s' ∧ s'.task 0 = .cleanup 0 .caught (.slots 0) ∧
    s'.fds 5 = false ∧ (s'.bucket 0).trace = [.reclaim 5, .reclaim 5, .store 5, .claim] :=
  (late_never_harmless cfgOne).2.1 _ 0 0
    ⟨by decide, by decide⟩ (by decide) (by decide) (by decide)

/-- A late wake-up between claim and `set` of the next request: the bucket is free again while the
accept thread is setting it, and the descriptor of the new client is closed under it. -/
theorem late_destroys : ∃ s s' : State (Fin 1) (Fin 1), (Executor.machine cfgOne).Reachable s ∧
    s.Late 0 0 ∧ s.accept = .setting 5 0 ∧ (s.bucket 0).refcount.val = 1 ∧ s.fds 5 = true ∧
    (Executor.machine cfgOne).run s (List.replicate 11 (.task 0 .step)) = some s' ∧
    s'.task 0 = .idle ∧ s'.accept = .setting 5 0 ∧ (s'.bucket 0).refcount.val = 0 ∧
    s'.fds 5 = false ∧
    ¬ ∀ s1, s.step cfgOne (.task 0 .step) = some s1 → s.Harmless s1 0 0 := by
  have hl : State.Late ((Executor.machine cfgOne).final
      (arriving ++ taking ++ waking ++ [.incoming 5, .accept false])) 0 0 :=
    ⟨by decide, by decide⟩
  refine ⟨_, _, Machine.reachable_final _ _, hl, by decide, by decide, by decide,
    Machine.run_final (by decide), by decide, by decide, by decide, by decide, fun h => ?_⟩
  have h1 : (((Executor.machine cfgOne).final (arriving ++ taking ++ waking ++
      [.incoming 5, .accept false])).step cfgOne (.task 0 .step)).isSome = true := by decide
  obtain ⟨s1, hs⟩ := Option.isSome_iff_exists.mp h1
  exact late_not_harmless hl hs (h s1 hs)

end
end Nea
