import Nea.Executor.Rest
import Nea.Queue.Handover
import Nea.Reactor.Readiness
import Nea.Reactor.Wakers

/-!
# From the kernel to the task

The reactor and the executor together.  The reactor thread is one of the threads that wake tasks:
where `Shared::poll` calls a waker, the waker calls `initial_enqueue`.  The tasks that a worker runs
call `poll_io` with the waker that `run_bucket` has made for them.

* `Runtime`, `Runtime.step`   both machines, with the waker in common;
* `Progress`          how far the latest call of a waker by the reactor has come;
* `Runtime.io_reachable`, `Runtime.exec_reach`   each half runs as it does alone;
* `Heard`             the link between them: a waker that was called is an enqueued job until the
                      job is dequeued;
* `readiness_reaches_task`   readiness on its way to the task that waits for it;
* `at_rest_heard`     when everything is at rest it has arrived.
-/

set_option linter.unusedSectionVars false

namespace Nea
open Reactor (Token Direction)

/-- the server: streams with their reactor, tasks with their executor -/
structure Runtime (W T : Type) where
  io : Reactor.State (Thread W T) QueueIndex
  exec : State W T

inductive RuntimeAct (W T : Type) where
  /-- a step of the kernel, of a stream or of the reactor -/
  | io (a : Reactor.Act (Thread W T) QueueIndex)
  | exec (a : Act W T)
  /-- the reactor calls the next waker in its list -/
  | wake

/-- how far the latest call of the waker of a job by the reactor has come -/
inductive Progress where
  | never
  | called
  /-- the job has been dequeued since -/
  | dequeued
deriving DecidableEq

section
variable {W T : Type} [DecidableEq W] [DecidableEq T] [Fintype W] [Fintype T]

namespace Runtime

def init (cfg : Cfg) : Runtime W T := ⟨.init, .init cfg⟩

variable (cfg : Cfg) (reactor : T)

/-- which steps of the streams can be taken.  Code of the application calls `poll_io`, with a waker
of `run_bucket`; a thread that is inside `initial_enqueue` does nothing else; wakers are called in
`Runtime.step` -/
def mayIo (s : Runtime W T) : Reactor.Act (Thread W T) QueueIndex → Bool
  | .pollIo t _ _ q =>
    s.exec.mayWake t && decide (t ≠ .other reactor) && (s.exec.q.calls t).isNone &&
      (initialEnqueue cfg q).isSome
  | .fetch _ => (s.exec.q.calls (.other reactor)).isNone
  | .reactor =>
    (s.exec.q.calls (.other reactor)).isNone &&
      match s.io.reactor, s.io.wakers with
      | .waking, _ :: _ => false
      | _, _ => true
  | _ => true

/-- which steps of the executor can be taken: a thread that is inside `poll_io` does nothing else,
and what the reactor wakes is in `Runtime.step` -/
def mayExec (s : Runtime W T) : Act W T → Bool
  | .wake t _ => decide (t ≠ .other reactor) && (s.io.calls t).isNone
  | .task w _ => (s.io.calls (.worker w)).isNone
  | _ => true

def step (s : Runtime W T) : RuntimeAct W T → Option (Runtime W T)
  | .io a =>
    if s.mayIo cfg reactor a then (s.io.step a).map (fun io => { s with io := io }) else none
  | .exec a =>
    if s.mayExec reactor a then (s.exec.step cfg a).map (fun e => { s with exec := e }) else none
  | .wake =>
    match s.io.reactor, s.io.wakers with
    | .waking, q :: _ => do
      let e ← s.exec.step cfg (.wake (.other reactor) q)
      let io ← s.io.step .reactor
      some ⟨io, e⟩
    | _, _ => none

def machine : Machine (Runtime W T) (RuntimeAct W T) := ⟨init cfg, step cfg reactor⟩

/-- no task takes up a main future that is missing -/
def Admits (s : Runtime W T) : RuntimeAct W T → Prop
  | .exec a => s.exec.Admits fresh a
  | _ => True

instance (s : Runtime W T) : ∀ a, Decidable (s.Admits a)
  | .exec a => inferInstanceAs (Decidable (s.exec.Admits fresh a))
  | .io _ => isTrue trivial
  | .wake => isTrue trivial

/-- the job of the waker that the reactor calls next -/
def nextJob (s : Runtime W T) : Option Enqueue := s.io.wakers.head?.bind (initialEnqueue cfg)

/-- how a step changes the progress of a job -/
def follow (s : Runtime W T) (a : RuntimeAct W T) (_ : Runtime W T) (p : ℕ → ℕ → Progress) :
    ℕ → ℕ → Progress :=
  fun b i =>
    match a with
    | .wake => if s.nextJob cfg = some ⟨b, i, .setJob⟩ then .called else p b i
    | .exec (.work w) =>
      if s.exec.q.pc w = .dequeued b i ∧ p b i = .called then .dequeued else p b i
    | _ => p b i

/-- the server with the progress of its wakers -/
def followed : Machine (Runtime W T × (ℕ → ℕ → Progress)) (RuntimeAct W T) :=
  (machine cfg reactor).watch (fun _ _ => .never) (follow cfg)

end Runtime

/-! ## the halves -/

section
variable {cfg : Cfg} {reactor : T} {s s' : Runtime W T}

theorem Runtime.step_io {a : Reactor.Act (Thread W T) QueueIndex}
    (h : s.step cfg reactor (.io a) = some s') :
    s.mayIo cfg reactor a = true ∧ s.io.step a = some s'.io ∧ s'.exec = s.exec := by
  simp only [Runtime.step] at h
  split at h
  · next hm =>
    obtain ⟨io, hio, rfl⟩ := Option.map_eq_some_iff.mp h
    exact ⟨hm, hio, rfl⟩
  · cases h

theorem Runtime.step_exec {a : Act W T} (h : s.step cfg reactor (.exec a) = some s') :
    s.mayExec reactor a = true ∧ s.exec.step cfg a = some s'.exec ∧ s'.io = s.io := by
  simp only [Runtime.step] at h
  split at h
  · next hm =>
    obtain ⟨e, he, rfl⟩ := Option.map_eq_some_iff.mp h
    exact ⟨hm, he, rfl⟩
  · cases h

theorem Runtime.step_wake (h : s.step cfg reactor .wake = some s') :
    ∃ q qs, s.io.reactor = .waking ∧ s.io.wakers = q :: qs ∧
      s.exec.step cfg (.wake (.other reactor) q) = some s'.exec ∧
      s.io.step .reactor = some s'.io := by
  simp only [Runtime.step] at h
  split at h
  · next q qs hr hw =>
    simp only [Option.bind_eq_bind, Option.bind_eq_some_iff] at h
    obtain ⟨e, he, io, hio, h⟩ := h
    cases h
    exact ⟨q, qs, hr, hw, he, hio⟩
  · cases h

/-- **The streams run as they do alone.** -/
theorem Runtime.io_reachable {ok : Runtime W T → RuntimeAct W T → Prop}
    (h : (Runtime.machine cfg reactor).Reach ok s) : Reactor.machine.Reachable s.io := by
  refine h.simulate Runtime.io rfl (fun s a s' _ he => ?_)
  cases a with
  | io a => exact .inr ⟨a, (Runtime.step_io he).2.1⟩
  | exec a => exact .inl (Runtime.step_exec he).2.2
  | wake =>
    obtain ⟨q, qs, -, -, -, hio⟩ := Runtime.step_wake he
    exact .inr ⟨.reactor, hio⟩

/-- **The tasks run as they do alone.** -/
theorem Runtime.exec_reach (h : (Runtime.machine cfg reactor).Reach Runtime.Admits s) :
    (Executor.machine cfg).Reach (State.Admits fresh) s.exec := by
  induction h with
  | init => exact .init
  | @step s s' a hr hok he ih =>
    cases a with
    | io a =>
      rw [(Runtime.step_io he).2.2]
      exact ih
    | exec a => exact .step ih hok (Runtime.step_exec he).2.1
    | wake =>
      obtain ⟨q, qs, -, -, hex, -⟩ := Runtime.step_wake he
      have hadm : s.exec.Admits fresh (.wake (.other reactor) q) := trivial
      exact .step ih hadm hex

/-- **The reactor calls wakers of jobs only.** -/
theorem Runtime.wakersBy_of_reach {ok : Runtime W T → RuntimeAct W T → Prop}
    (h : (Runtime.machine cfg reactor).Reach ok s) :
    Reactor.WakersBy (fun q => (initialEnqueue cfg q).isSome = true) s.io := by
  refine h.invariant (I := fun s : Runtime W T =>
    Reactor.WakersBy (fun q => (initialEnqueue cfg q).isSome = true) s.io)
    (Reactor.wakersBy_init _) ?_
  intro s a s' _ hi _ he
  cases a with
  | io a =>
    obtain ⟨hm, hio, -⟩ := Runtime.step_io he
    refine hi.step (fun t token d q ha => ?_) hio
    rw [ha] at hm
    simp only [Runtime.mayIo, Bool.and_eq_true] at hm
    exact hm.2
  | exec a =>
    rw [(Runtime.step_exec he).2.2]
    exact hi
  | wake =>
    obtain ⟨q, qs, -, -, -, hio⟩ := Runtime.step_wake he
    exact hi.step (fun _ _ _ _ e => by cases e) hio

end

/-! ## the link -/

namespace Queue
variable {cfg : Cfg} {s s' : Queue W T}

/-- **A call that has started sets its bit.** -/
theorem setJob_of_step (hn : Named cfg s) {t : Thread W T} {c : Enqueue} (hc : s.calls t = some c)
    (hpc : c.pc = .setJob) (hs : QStep cfg s s') :
    s'.calls t = some c ∨ (s'.slots c.bucket).hasJob c.offset = true := by
  have hc64 := (hn.calls t c hc).offset_lt
  -- a call that is somewhere else is another call
  have hne : ∀ (t1 : Thread W T) (c1 : Enqueue) (o : Option Enqueue), s.calls t1 = some c1 →
      c1.pc ≠ .setJob → s'.calls = Function.update s.calls t1 o → s'.calls t = some c := by
    intro t1 c1 o hc1 hpc1 hcalls
    rw [hcalls, Function.update_of_ne]
    · exact hc
    · rintro rfl
      rw [hc] at hc1
      cases hc1
      exact hpc1 hpc
  have hset : ∀ (t1 : Thread W T) (c1 : Enqueue) (o : Option Enqueue), s.calls t1 = some c1 →
      s'.calls = Function.update s.calls t1 o →
      s'.slots = Function.update s.slots c1.bucket ((s.slots c1.bucket).setJob c1.offset).2 →
      s'.calls t = some c ∨ (s'.slots c.bucket).hasJob c.offset = true := by
    intro t1 c1 o hc1 hcalls hslots
    by_cases e : t = t1
    · subst e
      rw [hc] at hc1
      cases hc1
      refine .inr ?_
      rw [hslots, Function.update_self, QueueSlot.hasJob_setJob _ hc64]
      simp
    · rw [hcalls, Function.update_of_ne e]
      exact .inl hc
  cases hs with
  | start t1 q c1 h0 h =>
    refine .inl ?_
    rw [calls_setCall, Function.update_of_ne]
    · exact hc
    · rintro rfl
      rw [hc] at h0
      cases h0
  | setOld t1 c1 hc1 h hj => exact hset t1 c1 _ hc1 rfl rfl
  | setNew t1 c1 hc1 h hj => exact hset t1 c1 _ hc1 rfl rfl
  | increment t1 c1 hc1 h => exact .inl (hne t1 c1 _ hc1 (by rw [h]; simp) rfl)
  | incrementPanics t1 c1 m hc1 h => exact .inl (hne t1 c1 _ hc1 (by rw [h]; simp) rfl)
  | markIdle t1 c1 hc1 h => exact .inl (hne t1 c1 _ hc1 (by rw [h]; simp) rfl)
  | markBusy t1 c1 hc1 h => exact .inl (hne t1 c1 _ hc1 (by rw [h]; simp) rfl)
  | wakeOne t1 c1 w hc1 h => exact .inl (hne t1 c1 _ hc1 (by rw [h]; simp) rfl)
  | wakeNone t1 c1 hc1 h => exact .inl (hne t1 c1 _ hc1 (by rw [h]; simp) rfl)
  | revert t1 c1 hc1 h => exact .inl (hne t1 c1 _ hc1 (by rw [h]; simp) rfl)
  | revertPanics t1 c1 m hc1 h => exact .inl (hne t1 c1 _ hc1 (by rw [h]; simp) rfl)
  | _ => exact .inl hc

theorem hasJob_keep {a : QAct W T} (hn : Named cfg s) (h : step cfg s a = some s') {b i : ℕ}
    (hj : (s.slots b).hasJob i = true) (hc : s.clears a b i = false) :
    (s'.slots b).hasJob i = true := by
  rw [hasJob_step hn h, hj, hc]
  rfl

end Queue

section
variable {cfg : Cfg} {reactor : T}

theorem State.emit_queue {s s' : State W T} {t : Thread W T} {e : Effect}
    (h : s.emit cfg t e = some s') :
    s'.q = s.q ∨ ∃ a, s.q.step cfg a = some s'.q ∧ ∀ w, a ≠ .work w := by
  unfold State.emit at h
  split at h
  · obtain ⟨q, hq, rfl⟩ := Option.map_eq_some_iff.mp h
    exact .inr ⟨_, hq, fun w e => by cases e⟩
  · cases h; exact .inl rfl
  · split at h
    · obtain ⟨q, hq, rfl⟩ := Option.map_eq_some_iff.mp h
      exact .inr ⟨_, hq, fun w e => by cases e⟩
    · cases h; exact .inl rfl
  · split at h
    · obtain ⟨q, hq, rfl⟩ := Option.map_eq_some_iff.mp h
      exact .inr ⟨_, hq, fun w e => by cases e⟩
    · cases h
  · cases h; exact .inl rfl

/-- Only a worker's own step in the functions of the queue is one there. -/
theorem State.step_queue_work {s s' : State W T} {a : Act W T} (h : s.step cfg a = some s') :
    s'.q = s.q ∨ ∃ a', s.q.step cfg a' = some s'.q ∧ ∀ w, a' = .work w → a = .work w := by
  have hemit : ∀ {s1 : State W T} {t e}, s1.q = s.q → s1.emit cfg t e = some s' →
      s'.q = s.q ∨ ∃ a', s.q.step cfg a' = some s'.q ∧ ∀ w, a' = .work w → a = .work w := by
    intro s1 t e hq he
    rcases State.emit_queue he with h1 | ⟨a', h1, h2⟩
    · exact .inl (h1.trans hq)
    · rw [hq] at h1
      exact .inr ⟨a', h1, fun w hw => absurd hw (h2 w)⟩
  cases a with
  | incoming fd =>
    simp only [State.step] at h
    split at h
    · cases h; exact .inl rfl
    · cases h
  | accept busy =>
    simp only [State.step] at h
    split at h
    · obtain ⟨b, v, p, e, -, -, he⟩ := State.acceptStep_eq h
      exact hemit (by rfl) he
    · cases h
  | wake t q =>
    simp only [State.step] at h
    split at h
    · obtain ⟨q', hq, rfl⟩ := Option.map_eq_some_iff.mp h
      exact .inr ⟨_, hq, fun w e => by cases e⟩
    · cases h
  | call t waiter =>
    obtain ⟨q', hq, rfl⟩ := Option.map_eq_some_iff.mp h
    exact .inr ⟨_, hq, fun w e => by cases e⟩
  | spurious w =>
    obtain ⟨q', hq, rfl⟩ := Option.map_eq_some_iff.mp h
    exact .inr ⟨_, hq, fun w e => by cases e⟩
  | work w =>
    obtain ⟨q', hq, rfl⟩ := Option.map_eq_some_iff.mp h
    exact .inr ⟨_, hq, fun w' e => by cases e; rfl⟩
  | load w =>
    simp only [State.step] at h
    split at h
    · obtain ⟨q', hq, rfl⟩ := Option.map_eq_some_iff.mp h
      exact .inr ⟨_, hq, fun w e => by cases e⟩
    · cases h
  | task w a =>
    simp only [State.step] at h
    split at h
    · obtain ⟨b, v, t, e, -, -, he⟩ := State.taskStep_eq h
      exact hemit (by rfl) he
    · cases h

/-- what the halves know of each other -/
structure Heard (cfg : Cfg) (reactor : T) (s : Runtime W T) (p : ℕ → ℕ → Progress) : Prop where
  called : ∀ b i, p b i = .called →
    s.exec.q.calls (.other reactor) = some ⟨b, i, .setJob⟩ ∨ (s.exec.q.slots b).hasJob i = true
  woken : ∀ x q c, s.io.last x = some (q, true) → initialEnqueue cfg q = some c →
    p c.bucket c.offset ≠ .never

theorem heard_init (cfg : Cfg) (reactor : T) :
    Heard cfg reactor (Runtime.init cfg : Runtime W T) (fun _ _ => .never) where
  called b i h := by cases h
  woken x q c h := by cases h

variable {s s' : Runtime W T} {p : ℕ → ℕ → Progress}

theorem Heard.exec (h : Heard cfg reactor s p) (hn : Queue.Named cfg s.exec.q) {a : Act W T}
    (hs : s.step cfg reactor (.exec a) = some s') :
    Heard cfg reactor s' (s.follow cfg (.exec a) s' p) := by
  obtain ⟨-, hex, hio⟩ := Runtime.step_exec hs
  -- a job that counts as called was not dequeued by this step
  have hcalled : ∀ b i, s.follow cfg (.exec a) s' p b i = .called →
      p b i = .called ∧ ∀ w, a = .work w → s.exec.q.pc w ≠ .dequeued b i := by
    intro b i hb
    cases a with
    | work w =>
      simp only [Runtime.follow] at hb
      split at hb
      · cases hb
      · next hno =>
        refine ⟨hb, fun w' e hw' => hno ⟨?_, hb⟩⟩
        cases e
        exact hw'
    | _ => exact ⟨hb, fun w e => by cases e⟩
  have hnever : ∀ b i, p b i ≠ .never → s.follow cfg (.exec a) s' p b i ≠ .never := by
    intro b i hb
    cases a with
    | work w =>
      simp only [Runtime.follow]
      split
      · exact fun e => by cases e
      · exact hb
    | _ => exact hb
  refine ⟨fun b i hb => ?_, fun x q c hx hc => ?_⟩
  · obtain ⟨hp, hnot⟩ := hcalled b i hb
    rcases State.step_queue_work hex with hq | ⟨a', hq, hwork⟩
    · rw [hq]
      exact h.called b i hp
    · rcases h.called b i hp with h1 | h1
      · exact Queue.setJob_of_step hn h1 rfl (.of_step hq)
      · refine .inr (Queue.hasJob_keep hn hq h1 ?_)
        unfold Queue.clears
        split
        · next w => exact decide_eq_false (hnot w (hwork w rfl))
        · rfl
  · rw [hio] at hx
    exact hnever _ _ (h.woken x q c hx hc)

theorem Heard.io (h : Heard cfg reactor s p) {a : Reactor.Act (Thread W T) QueueIndex}
    (hs : s.step cfg reactor (.io a) = some s') :
    Heard cfg reactor s' (s.follow cfg (.io a) s' p) := by
  obtain ⟨hm, hio, hex⟩ := Runtime.step_io hs
  refine ⟨fun b i hb => ?_, fun x q c hx hc => ?_⟩
  · rw [hex]
    exact h.called b i hb
  · rcases Reactor.woken_of_step hio hx with h1 | ⟨rfl, hr, -, ws, hw⟩
    · exact h.woken x q c h1 hc
    · simp only [Runtime.mayIo, hr, hw, Bool.and_false, Bool.false_eq_true] at hm

theorem Heard.wake (h : Heard cfg reactor s p) (hs : s.step cfg reactor .wake = some s') :
    Heard cfg reactor s' (s.follow cfg .wake s' p) := by
  obtain ⟨q, qs, hr, hw, hex, hio⟩ := Runtime.step_wake hs
  have hnext : s.nextJob cfg = initialEnqueue cfg q := by
    unfold Runtime.nextJob
    rw [hw]
    rfl
  -- the call of `initial_enqueue` starts
  obtain ⟨c, hc, hnone, hcalls, hslots⟩ : ∃ c, initialEnqueue cfg q = some c ∧
      s.exec.q.calls (.other reactor) = none ∧ s'.exec.q.calls (.other reactor) = some c ∧
      s'.exec.q.slots = s.exec.q.slots := by
    simp only [State.step] at hex
    split at hex
    · obtain ⟨q', hq, he⟩ := Option.map_eq_some_iff.mp hex
      simp only [Queue.step] at hq
      split at hq
      · next hnone =>
        obtain ⟨c, hc, rfl⟩ := Option.map_eq_some_iff.mp hq
        rw [← he]
        exact ⟨c, hc, hnone, Function.update_self .., rfl⟩
      · cases hq
    · cases hex
  have hpc : c = ⟨c.bucket, c.offset, .setJob⟩ := by
    obtain ⟨b, i, pc⟩ := c
    have := (initialEnqueue_eq_some.mp hc).2.1
    cases this
    rfl
  have hfollow : ∀ b i, s.follow cfg .wake s' p b i =
      if c = ⟨b, i, .setJob⟩ then .called else p b i := by
    intro b i
    simp only [Runtime.follow, hnext, hc, Option.some.injEq]
  refine ⟨fun b i hb => ?_, fun x q1 c1 hx hc1 => ?_⟩
  · rw [hfollow] at hb
    split at hb
    · next e => exact .inl (hcalls.trans (congrArg some e))
    · rcases h.called b i hb with h1 | h1
      · rw [hnone] at h1
        cases h1
      · rw [hslots]
        exact .inr h1
  · rw [hfollow]
    split
    · exact fun e => by cases e
    · next hne =>
      rcases Reactor.woken_of_step hio hx with h1 | ⟨-, -, -, ws, hw1⟩
      · exact h.woken x q1 c1 h1 hc1
      · -- it is the waker that was called
        rw [hw] at hw1
        cases hw1
        rw [hc] at hc1
        cases hc1
        exact absurd hpc hne

/-- a run of the server with the progress of its wakers, in which no task takes up a main future
that is missing -/
abbrev Runtime.Runs (cfg : Cfg) (reactor : T) (x : Runtime W T × (ℕ → ℕ → Progress)) : Prop :=
  (Runtime.followed cfg reactor).Reach (fun x a => x.1.Admits a) x

theorem Runtime.Runs.reach {x : Runtime W T × (ℕ → ℕ → Progress)} (h : Runtime.Runs cfg reactor x) :
    (Runtime.machine cfg reactor).Reach Runtime.Admits x.1 := by
  have himp : ∀ (y : Runtime W T × (ℕ → ℕ → Progress)) a, y.1.Admits a → Runtime.Admits y.1 a :=
    fun _ _ ho => ho
  exact Machine.Reach.of_watch himp h

theorem Runtime.Runs.heard {x : Runtime W T × (ℕ → ℕ → Progress)} (h : Runtime.Runs cfg reactor x) :
    Heard cfg reactor x.1 x.2 := by
  refine h.invariant (I := fun x => Heard cfg reactor x.1 x.2) (heard_init cfg reactor) ?_
  intro x a x' hr hi _ he
  obtain ⟨h1, h2⟩ := Machine.watch_step.mp he
  rw [h2]
  cases a with
  | io a => exact hi.io h1
  | exec a =>
    have hexec := Runtime.exec_reach (Runtime.Runs.reach hr)
    exact hi.exec (Queue.named_of_reachable (queue_reachable hexec)) h1
  | wake => exact hi.wake h1

/-- The waker of the latest `Pending` is the waker of a job. -/
theorem Runtime.Runs.job {x : Runtime W T × (ℕ → ℕ → Progress)} (h : Runtime.Runs cfg reactor x)
    {k : Token × Direction} {q : QueueIndex} {woken : Bool}
    (hl : x.1.io.last k = some (q, woken)) :
    ∃ b off, initialEnqueue cfg q = some ⟨b, off, .setJob⟩ := by
  have hsome := (Runtime.wakersBy_of_reach h.reach).last k q woken hl
  obtain ⟨⟨b, off, pc⟩, hc⟩ := Option.isSome_iff_exists.mp hsome
  have hpc := (initialEnqueue_eq_some.mp hc).2.1
  cases hpc
  exact ⟨b, off, hc⟩

/-- **Readiness is on its way to the task that waits for it.**  In every run of the server without a
missing future and without a lost worker: if the latest `poll_io` on a live stream in a direction
returned `Pending` to a task, and the direction is ready, then an event for it is undelivered, or
the waker of the task is in the list of the reactor, or the reactor is in `initial_enqueue` and
about to set the bit of its job, or the bit is set, and for a live task the slot is marked, owned by
a living worker or about to be marked; or the job has been dequeued since the waker was called. -/
theorem readiness_reaches_task (cfg : Cfg) (reactor : T) (x : Runtime W T × (ℕ → ℕ → Progress))
    (h : Runtime.Runs cfg reactor x) (halive : ∀ w, x.1.exec.q.alive w = true) (token : Token)
    (d : Direction) (q : QueueIndex) (woken : Bool)
    (hlive : x.1.io.phase (Reactor.slot token) = .live token)
    (hlast : x.1.io.last (token, d) = some (q, woken)) (hready : x.1.io.ready (token, d) = true) :
    ∃ b off, initialEnqueue cfg q = some ⟨b, off, .setJob⟩ ∧
      (x.1.io.Undelivered token d ∨ q ∈ x.1.io.wakers ∨
        x.1.exec.q.calls (.other reactor) = some ⟨b, off, .setJob⟩ ∨
        ((x.1.exec.q.slots b).hasJob off = true ∧ (x.1.exec.LiveJob cfg b off →
          (x.1.exec.q.slots b).isEnqueued = true ∨
          (∃ w, x.1.exec.q.Owns w b ∧ x.1.exec.q.alive w = true) ∨ x.1.exec.q.InFlight b)) ∨
        x.2 b off = .dequeued) := by
  obtain ⟨b, off, hc⟩ := h.job hlast
  refine ⟨b, off, hc, ?_⟩
  have hg := Reactor.guarded_of_reachable (Runtime.io_reachable h.reach)
  have hf := Reactor.flow_of_reachable (Runtime.io_reachable h.reach)
  have hexec := Runtime.exec_reach h.reach
  cases woken with
  | false =>
    -- the waker has not been called yet
    obtain ⟨σ, hσ⟩ := hg.live_source hlive
    rcases hf.waiting token d q σ hlast hσ with hin | ⟨hd, -⟩
    · exact .inr (.inl hin)
    · exact .inl (hf.fresh token d σ hlive hσ hd hready)
  | true =>
    have hne := h.heard.woken (token, d) q _ hlast hc
    cases hp : x.2 b off with
    | never => exact absurd hp hne
    | dequeued => exact .inr (.inr (.inr (.inr rfl)))
    | called =>
      rcases h.heard.called b off hp with h1 | h1
      · exact .inr (.inr (.inl h1))
      · refine .inr (.inr (.inr (.inl ⟨h1, fun hl => ?_⟩)))
        by_cases hown : ∃ w, x.1.exec.q.Owns w b
        · obtain ⟨w, hw⟩ := hown
          exact .inr (.inl ⟨w, hw, halive w⟩)
        · have hcov : x.1.exec.q.Covered b := by
            rcases (wakeful_of_reach hexec b).free (fun w hw => hown ⟨w, hw⟩) with h2 | ⟨hd, h2⟩
            · exact h2 (Queue.jobs_ne_zero h1)
            · rcases hl with ⟨rfl, -⟩ | ⟨i, hi, -, hv⟩
              · exact h2 h1
              · exact absurd hv (hd i hi)
          exact hcov.imp id .inr

/-- The main future of bucket 0 waits for its stream, and all threads go to rest. -/
def waitingRun : List (RuntimeAct (Fin 1) (Fin 1)) :=
  let q : QueueIndex := ⟨0, 0⟩
  (arriving ++ taking).map .exec ++
    [.io (.place q), .io (.register q), .io (.pollIo (.worker 0) q.toUsize .read q)] ++
    List.replicate 5 (.io (.poll (.worker 0) false)) ++ resting.map .exec

/-- The stream becomes ready, and the reactor calls the waker of the future. -/
def readyRun : List (RuntimeAct (Fin 1) (Fin 1)) :=
  let token := QueueIndex.toUsize ⟨0, 0⟩
  [.io (.kernel token .read true), .io (.fetch [⟨token, true, false⟩])] ++
    List.replicate 5 (.io .reactor) ++ [.wake, .exec (.call (.other 0) none)]

theorem readiness_reaches_task_set :
    let x := (Runtime.followed cfgOne (0 : Fin 1)).final (waitingRun ++ readyRun)
    ∃ b off, initialEnqueue cfgOne ⟨0, 0⟩ = some ⟨b, off, .setJob⟩ ∧
      (x.1.io.Undelivered (QueueIndex.toUsize ⟨0, 0⟩) .read ∨ ⟨0, 0⟩ ∈ x.1.io.wakers ∨
        x.1.exec.q.calls (.other 0) = some ⟨b, off, .setJob⟩ ∨
        ((x.1.exec.q.slots b).hasJob off = true ∧ (x.1.exec.LiveJob cfgOne b off →
          (x.1.exec.q.slots b).isEnqueued = true ∨
          (∃ w, x.1.exec.q.Owns w b ∧ x.1.exec.q.alive w = true) ∨ x.1.exec.q.InFlight b)) ∨
        x.2 b off = .dequeued) :=
  readiness_reaches_task cfgOne 0 _ (Machine.Reach.final (by decide +kernel)) (by decide +kernel) _
    .read ⟨0, 0⟩ true (by decide +kernel) (by decide +kernel) (by decide +kernel)

/-- **At rest no live task waits for a stream that is ready.**  When the executor is at rest, the
reactor waits for events, and the kernel has none for the stream: the waker was called, and the job
has been dequeued since. -/
theorem at_rest_heard [Nonempty W] (cfg : Cfg) (reactor : T)
    (x : Runtime W T × (ℕ → ℕ → Progress)) (h : Runtime.Runs cfg reactor x)
    (hexec : x.1.exec.AtRest) (hpoll : x.1.io.reactor = .polling) (token : Token) (d : Direction)
    (hedge : x.1.io.edge (token, d) = false) (q : QueueIndex) (woken : Bool)
    (hlive : x.1.io.phase (Reactor.slot token) = .live token)
    (hlast : x.1.io.last (token, d) = some (q, woken)) (hready : x.1.io.ready (token, d) = true) :
    ∃ b off, initialEnqueue cfg q = some ⟨b, off, .setJob⟩ ∧
      (x.1.exec.LiveJob cfg b off → woken = true ∧ x.2 b off = .dequeued) := by
  obtain ⟨b, off, hc⟩ := h.job hlast
  refine ⟨b, off, hc, fun hl => ?_⟩
  have hreach := Runtime.io_reachable h.reach
  have hg := Reactor.guarded_of_reachable hreach
  have hf := Reactor.flow_of_reachable hreach
  have hempty : x.1.io.wakers = [] :=
    hreach.invariant (I := Reactor.State.Emptied) (fun _ => rfl) (fun _ _ _ _ hi _ hs => hi.step hs)
      hpoll
  cases woken with
  | false =>
    exfalso
    obtain ⟨σ, hσ⟩ := hg.live_source hlive
    rcases hf.waiting token d q σ hlast hσ with hin | ⟨hd, -⟩
    · rw [hempty] at hin
      cases hin
    · rcases hf.fresh token d σ hlive hσ hd hready with he | hcar
      · rw [hedge] at he
        cases he
      · rw [hpoll] at hcar
        exact hcar
  | true =>
    refine ⟨rfl, ?_⟩
    have hne := h.heard.woken (token, d) q _ hlast hc
    cases hp : x.2 b off with
    | never => exact absurd hp hne
    | dequeued => rfl
    | called =>
      exfalso
      rcases h.heard.called b off hp with h1 | h1
      · rw [hexec.calls] at h1
        cases h1
      · rw [hexec.hasJob (Runtime.exec_reach h.reach) hl] at h1
        cases h1

/-- The future is polled again, and all threads go to rest again. -/
def servingRun : List (RuntimeAct (Fin 1) (Fin 1)) :=
  [.exec (.call (.other 0) none), .exec (.call (.other 0) none),
    .exec (.call (.other 0) (some 0)), .io .reactor] ++ (taking ++ resting).map .exec

theorem at_rest_heard_served : ((Runtime.followed cfgOne (0 : Fin 1)).final
    (waitingRun ++ readyRun ++ servingRun)).2 0 0 = .dequeued := by
  obtain ⟨b, off, hc, h⟩ := at_rest_heard cfgOne (0 : Fin 1)
    ((Runtime.followed cfgOne (0 : Fin 1)).final (waitingRun ++ readyRun ++ servingRun))
    (Machine.Reach.final (by decide +kernel))
    ⟨by decide +kernel, fun w => by decide +kernel +revert, by decide +kernel⟩ (by decide +kernel)
    (QueueIndex.toUsize ⟨0, 0⟩) .read (by decide +kernel) ⟨0, 0⟩ true (by decide +kernel)
    (by decide +kernel) (by decide +kernel)
  have hjob : initialEnqueue cfgOne ⟨0, 0⟩ = some ⟨0, 0, .setJob⟩ := by decide
  rw [hjob] at hc
  cases hc
  exact (h (.inl ⟨rfl, by decide +kernel⟩)).2

end
end
end Nea
