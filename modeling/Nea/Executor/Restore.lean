import Nea.Executor.Memory
import Nea.Executor.Stale
import Nea.Executor.Stranded

/-!
# What `cleanup_bucket` leaves

A poll fails: the main future panics or runs out of memory, or a connection runs out of memory.
From there to the last step of `cleanup_bucket` the worker is alone with the bucket.

* `State.Lost`        the worker of a bucket has died; nothing happens to the bucket any more;
* `LiveInv`           the rule for invariants of the other buckets, whatever happened elsewhere;
* `Sound`             the locks of such a bucket, with the one exception that `handshake` may have
                      poisoned the count;
* `State.Cleaning`    the states between the failure and the last step;
* `cleanup_restores`  every own step goes through, nobody claims the bucket, and the count is reset
                      on a bucket that is empty and has its memory.
-/

set_option linter.unusedSectionVars false

namespace Nea

/-! ## buckets whose worker has died -/

namespace Queue
variable {W T : Type} [DecidableEq W] [DecidableEq T] [Fintype W]
variable {cfg : Cfg} {s s' : Queue W T} {w : W} {b : ℕ}

/-- Nobody comes back to life. -/
theorem alive_of_qstep (h : QStep cfg s s') (hw : s'.alive w = true) : s.alive w = true := by
  have hkill : ∀ (q : Queue W T) w1, (q.kill w1).alive w = true → q.alive w = true := by
    intro q w1 h1
    by_cases e : w = w1
    · subst e
      change Function.update q.alive w false w = true at h1
      rw [Function.update_self] at h1
      cases h1
    · change Function.update q.alive w1 false w = true at h1
      rwa [Function.update_of_ne e] at h1
  cases h with
  | waitPoisoned w1 => exact hkill _ _ hw
  | runPanics w1 => exact hkill _ _ hw
  | notInProgress w1 => exact hkill _ _ hw
  | unreachable w1 => exact hkill _ _ hw
  | die w1 => exact hkill _ _ hw
  | _ => exact hw

/-- A worker that died in a bucket stays there. -/
theorem owns_of_dead {a : QAct W T} (h : step cfg s a = some s') (hd : s.alive w = false)
    (hw : s.Owns w b) : s'.Owns w b := by
  rcases owns_or_done (.of_step h) hw with h1 | ⟨k, hp⟩
  · exact h1
  · have hwork : a ≠ .work w := by
      rintro rfl
      simp only [step, hd] at h
      cases h
    have hload : a ≠ .load w := by
      rintro rfl
      simp only [step, hd] at h
      cases h
    have hfinish : a ≠ .finish w := by
      rintro rfl
      simp only [step, hp] at h
      cases h
    unfold Owns
    rw [pc_frame h (by rw [hp]; simp) hwork hload hfinish]
    exact hw

/-- A step takes the life of the worker that takes it. -/
theorem alive_frame {a : QAct W T} (h : step cfg s a = some s') (h1 : a ≠ .work w)
    (h2 : a ≠ .die w) : s'.alive w = s.alive w := by
  cases a with
  | start t q =>
    simp only [step] at h
    split at h
    · obtain ⟨c, _, rfl⟩ := Option.map_eq_some_iff.mp h
      rfl
    · cases h
  | call t waiter =>
    obtain ⟨c, _, hc⟩ := Option.bind_eq_some_iff.mp h
    exact congrFun (alive_of_callStep hc).1 w
  | spurious w1 =>
    simp only [step] at h
    split at h <;> cases h
    rfl
  | work w1 =>
    simp only [step] at h
    split at h
    · exact ((alive_of_workStep h).1 w (fun e => h1 (e ▸ rfl))).2
    · cases h
  | load w1 =>
    simp only [step, loadStep] at h
    split at h
    · split at h
      · split at h <;> cases h <;> rfl
      · cases h
    · cases h
  | finish w1 =>
    simp only [step] at h
    split at h <;> cases h
    rfl
  | die w1 =>
    cases h
    exact Function.update_of_ne (fun e => h2 (by rw [e])) _ _

end Queue

section
variable {W T : Type} [DecidableEq W] [DecidableEq T] [Fintype W]
variable {cfg : Cfg} {s s' : State W T}

/-- the worker of bucket `b` has died -/
def State.Lost (s : State W T) (b : ℕ) : Prop := ∃ w, s.q.Owns w b ∧ s.q.alive w = false

theorem State.Lost.step {a : Act W T} {b : ℕ} (h : s.Lost b) (hs : s.step cfg a = some s') :
    s'.Lost b := by
  obtain ⟨w, hw, hd⟩ := h
  rcases State.step_queue hs with hq | ⟨a', hq⟩
  · exact ⟨w, by rw [hq]; exact hw, by rw [hq]; exact hd⟩
  · refine ⟨w, Queue.owns_of_dead hq hd hw, ?_⟩
    by_contra hal
    rw [Queue.alive_of_qstep (.of_step hq) (Bool.not_eq_false _ ▸ hal)] at hd
    cases hd

/-- A worker inside `run_bucket` keeps its bucket. -/
theorem Attached.owns_step (ha : Attached cfg s) {w : W} {b : ℕ} {a : Act W T}
    (hb : (s.task w).bucket = some b) (hs : s.step cfg a = some s') : s'.q.Owns w b := by
  have hw := ha.owns hb
  rcases State.step_queue hs with hq | ⟨a', hq⟩
  · rw [hq]
    exact hw
  · rcases Queue.owns_or_done (.of_step hq) hw with h1 | ⟨k, h1⟩
    · exact h1
    · rw [ha.running w b hb] at h1
      cases h1

/-- an invariant of the buckets that are not lost: no step in them has ended their worker -/
structure LiveInv (cfg : Cfg) (ok : Bucket → TaskPc → Gate → TaskAct → Prop)
    (K L : Bucket → TaskPc → Gate → Prop) : Prop where
  init : L (Bucket.init cfg) .idle .away
  job : ∀ v g b off, IsJob cfg b off → L v .idle g → L v (.job b off) g
  task : ∀ v t g a v' t' e, TaskOk cfg t → K v t g → L v t g → ok v t g a →
    v.taskStep cfg t a = some (v', t', e) → e ≠ .die → L v' t' g
  accept : ∀ v t g v' g', TaskOk cfg t → K v t g → L v t g → GStep v g v' g' → L v' t g'

/-- **The rule for buckets that are not lost.** -/
theorem LiveInv.of_reach {ok : Bucket → TaskPc → Gate → TaskAct → Prop}
    {K L : Bucket → TaskPc → Gate → Prop} (hL : LiveInv cfg ok K L)
    (hk : ∀ s : State W T, (Executor.machine cfg).Reach (State.Admits ok) s → s.Everywhere K)
    (h : (Executor.machine cfg).Reach (State.Admits ok) s) {b : ℕ} (hb : ¬ s.Lost b) {t : TaskPc}
    (hat : s.At b t) : L (s.bucket b) t (s.accept.gate b) := by
  induction h generalizing t with
  | init =>
    rcases hat with ⟨w, hw, _⟩ | ⟨_, rfl⟩
    · cases hw
    · exact hL.init
  | @step s s' a hr hok hs ih =>
    have hq := queue_reachable hr
    have ha := attached_of_reach hr
    have ih : ∀ {t}, s.At b t → L (s.bucket b) t (s.accept.gate b) :=
      fun hat => ih (fun hl => hb (hl.step hs)) hat
    cases State.seen_of_step (Queue.owned_of_reachable hq) ha (Queue.named_of_reachable hq) hs hat
      with
    | same hat hv hg =>
      rw [hv, hg]
      exact ih hat
    | accept hat hg => exact hL.accept _ _ _ _ _ (hat.taskOk ha) (hk s hr b t hat) (ih hat) hg
    | job off hj ht hat hv hg =>
      rw [hv, hg, ht]
      exact hL.job _ _ b off hj (ih hat)
    | task w a' e ha' hw hts hg hd =>
      subst ha'
      rw [hg]
      refine hL.task _ _ _ a' _ _ e (ha.taskOk w) ((hk s hr).at_task ha hw)
        (ih (.inl ⟨w, ha.owns hw, rfl⟩)) ((State.admits_task hw).mp hok) hts (fun he => hb ?_)
      -- the step has ended the worker, which keeps the bucket
      exact ⟨w, ha.owns_step hw (show s.step cfg (.task w a') = some s' from hs), hd he⟩

/-! ## the locks of a bucket that is not lost -/

/-- from a caught panic or the jump back to the end of `cleanup_bucket` -/
def TaskPc.ending : TaskPc → Bool
  | .unwinding _ _ => true
  | .poisoned _ _ => true
  | .cleanup _ _ _ => true
  | _ => false

/-- the locks are held by whom the places say, or `handshake` has poisoned the count, on the way to
the end of the job, or there is no such way -/
def Sound (cfg : Cfg) (v : Bucket) (t : TaskPc) (g : Gate) : Prop :=
  Locks v t g ∨ v.refcount.poisoned = true ∧ t.ending = true ∨ Stranded cfg v t

section
variable {v v' : Bucket} {t t' : TaskPc} {g g' : Gate} {a : TaskAct} {e : Effect}

/-- The way to the end of `cleanup_bucket` has no exit but the last step. -/
theorem TStep.ending (hd : e ≠ .die) (ht : t.ending = true) (hs : TStep cfg v t a v' t' e) :
    t'.ending = true ∨ ∃ b r, t = .cleanup b r .release ∧ t' = .idle := by
  cases hs with
  | die => exact absurd rfl hd
  | alloc _ _ _ h => rcases h with ⟨_, rfl⟩ | ⟨_, _, rfl⟩ <;> cases ht
  | longjmp => exact .inl rfl
  | longjmpUnwinding => exact .inl rfl
  | longjmpConn => exact .inl rfl
  | raise => exact .inl rfl
  | unwind => exact .inl rfl
  | clearPoison => exact .inl rfl
  | connPanics => exact absurd rfl hd
  | load => exact .inl rfl
  | respond => exact .inl rfl
  | closeError => exact .inl rfl
  | slot => exact .inl rfl
  | slotPanics => exact absurd rfl hd
  | slotsDone => exact .inl rfl
  | future => exact .inl rfl
  | slotAgain => exact .inl rfl
  | futurePanics => exact absurd rfl hd
  | futureAgain => exact .inl rfl
  | wipe => exact .inl rfl
  | release b r => exact .inr ⟨b, r, rfl, rfl⟩
  | _ => cases ht

/-- A bucket that is being cleaned up is in use, and the accept thread is not setting it. -/
theorem inUse_of_ending (hc : Counted cfg v t g) (hk : Cleansable v t g) (h : t.ending = true) :
    1 ≤ v.refcount.val ∧ g.claimed = false := by
  cases t with
  | cleanup b f k =>
    have hp := hc.place
    cases k with
    | load => exact hk.failing rfl
    | respond fd => exact ⟨hp.1, hp.2.1⟩
    | close fd => exact ⟨hp.1, hp.2.1⟩
    | slots i => exact ⟨hp.1, hp.2.1⟩
    | future => exact ⟨hp.1, hp.2.1⟩
    | wipe => exact ⟨hp.1, hp.2.1⟩
    | release => exact ⟨hp.1, hp.2.1⟩
  | unwinding => exact hk.failing rfl
  | poisoned => exact hk.failing rfl
  | _ => cases h

theorem Stranded.ending (h : Stranded cfg v t) : t.ending = true := by
  obtain ⟨b, f, k, guard, rfl, _⟩ := h
  rfl

theorem Sound.task (ht : TaskOk cfg t) (hk : Pledged v t g) (h : Sound cfg v t g)
    (hs : v.taskStep cfg t a = some (v', t', e)) (hd : e ≠ .die) : Sound cfg v' t' g := by
  have hts : TStep cfg v t a v' t' e := .of_taskStep hs
  rcases h with h | ⟨hp, hend⟩ | h
  · cases hp : v'.refcount.poisoned with
    | false => exact (h.strand ht hk hd hp hts).imp_right .inr
    | true =>
      rcases hts.poisoned with h1 | ⟨⟨b, _, _, _, rfl⟩ | h1, _⟩
      · rw [h1, h.refcount] at hp
        cases hp
      · exact .inr (.inl ⟨hp, rfl⟩)
      · exact absurd h1 hd
  · have hp' : v'.refcount.poisoned = true := by
      rcases hts.poisoned with h1 | ⟨_, h1⟩
      · exact h1.trans hp
      · exact h1
    rcases hts.ending hd hend with h1 | ⟨b, r, rfl, rfl⟩
    · exact .inr (.inl ⟨hp', h1⟩)
    · -- the last step of `cleanup_bucket` locks the count
      cases a with
      | step =>
        simp only [Bucket.taskStep, Bucket.cleanupStep, hp, if_true] at hs
        cases hs
      | _ => cases hs
  · exact .inr (.inr (h.step hd hts))

theorem Sound.accept (hc : Counted cfg v t g) (hk : Cleansable v t g) (h : Sound cfg v t g)
    (hs : GStep v g v' g') : Sound cfg v' t g' := by
  rcases h with h | ⟨hp, h⟩ | h
  · exact .inl (h.accept hs)
  · exact .inr (.inl ⟨by cases hs <;> exact hp, h⟩)
  · exact .inr (.inr (h.accept (inUse_of_ending hc hk h.ending).2 hs))

end

theorem sound_of_reach (h : (Executor.machine cfg).Reach (State.Admits fresh) s) {b : ℕ}
    (hb : ¬ s.Lost b) {t : TaskPc} (hat : s.At b t) : Sound cfg (s.bucket b) t (s.accept.gate b) := by
  refine LiveInv.of_reach
    (K := fun v t g => (Counted cfg v t g ∧ Cleansable v t g) ∧ Pledged v t g)
    (L := Sound cfg) ⟨?_, fun _ _ _ _ _ h => ?_,
    fun _ _ _ _ _ _ _ ht hk h _ hs hd => h.task ht hk.2 hs hd,
    fun _ _ _ _ _ _ hk h hs => h.accept hk.1.1 hk.1.2 hs⟩
    (fun _ hr b t hat => ⟨counted_of_reach hr b t hat, pledged_of_reach hr b t hat⟩) h hb hat
  · exact .inl ⟨rfl, rfl, fun h => (by cases h), rfl, fun _ => rfl, fun _ => rfl, rfl⟩
  · rcases h with h | ⟨_, h⟩ | h
    · exact .inl (h.keep rfl rfl rfl (fun _ => ⟨rfl, rfl⟩) rfl rfl rfl rfl)
    · cases h
    · cases h.ending

/-! ## from the failure to the last step -/

theorem State.emit_alive {t : Thread W T} {e : Effect} {w : W} (h : s.emit cfg t e = some s')
    (hw : t = .worker w → e ≠ .die) : s'.q.alive w = s.q.alive w := by
  have hmap : ∀ a, a ≠ .work w → a ≠ .die w → (s.q.step cfg a).map s.setQ = some s' →
      s'.q.alive w = s.q.alive w := by
    intro a h1 h2 ha
    obtain ⟨q, hq, rfl⟩ := Option.map_eq_some_iff.mp ha
    exact Queue.alive_frame hq h1 h2
  unfold State.emit at h
  split at h
  · exact hmap _ (fun e => by cases e) (fun e => by cases e) h
  · cases h; rfl
  · split at h
    · next w1 => exact hmap _ (fun e => by cases e) (fun e => by cases e; exact hw rfl rfl) h
    · cases h; rfl
  · split at h
    · exact hmap _ (fun e => by cases e) (fun e => by cases e) h
    · cases h
  · cases h; rfl

/-- **What the others do leaves a worker inside `run_bucket` where it is.** -/
theorem Attached.frame (ha : Attached cfg s) {w : W} {b : ℕ} {a : Act W T}
    (hb : (s.task w).bucket = some b) (hs : s.step cfg a = some s') (hne : ∀ a', a ≠ .task w a') :
    s'.task w = s.task w ∧ s'.q.alive w = s.q.alive w := by
  have hrun := ha.running w b hb
  have hmap : ∀ a, a ≠ .work w → a ≠ .die w → (s.q.step cfg a).map s.setQ = some s' →
      s'.task w = s.task w ∧ s'.q.alive w = s.q.alive w := by
    intro a h1 h2 ha
    obtain ⟨q, hq, rfl⟩ := Option.map_eq_some_iff.mp ha
    exact ⟨rfl, Queue.alive_frame hq h1 h2⟩
  cases a with
  | incoming fd =>
    simp only [State.step] at hs
    split at hs <;> cases hs
    exact ⟨rfl, rfl⟩
  | accept busy =>
    simp only [State.step] at hs
    split at hs
    · obtain ⟨b0, v, p, e, _, _, he⟩ := State.acceptStep_eq hs
      exact ⟨congrFun (State.emit_eq he).2.2.1 w,
        State.emit_alive (s := (s.setBucket b0 v).setAccept p) (w := w) he (fun h => by cases h)⟩
    · cases hs
  | wake t q =>
    simp only [State.step] at hs
    split at hs
    · exact hmap _ (fun e => by cases e) (fun e => by cases e) hs
    · cases hs
  | call t waiter => exact hmap _ (fun e => by cases e) (fun e => by cases e) hs
  | spurious w1 => exact hmap _ (fun e => by cases e) (fun e => by cases e) hs
  | load w1 =>
    simp only [State.step] at hs
    split at hs
    · exact hmap _ (fun e => by cases e) (fun e => by cases e) hs
    · cases hs
  | work w1 =>
    obtain ⟨q, hq, rfl⟩ := Option.map_eq_some_iff.mp hs
    have e : w ≠ w1 := by
      rintro rfl
      simp only [Queue.step, Queue.workStep, hrun] at hq
      split at hq <;> cases hq
    exact ⟨Function.update_of_ne e _ _,
      Queue.alive_frame hq (fun h => by cases h; exact e rfl) (fun h => by cases h)⟩
  | task w1 a =>
    have e : w ≠ w1 := fun h => hne a (by rw [h])
    simp only [State.step] at hs
    split at hs
    · obtain ⟨b0, v, t, e1, _, _, he⟩ := State.taskStep_eq hs
      exact ⟨(congrFun (State.emit_eq he).2.2.1 w).trans (Function.update_of_ne e _ _),
        State.emit_alive (s := (s.setBucket b0 v).setTask w1 t) (w := w) he
          (fun h => absurd (Thread.worker.inj h).symm e)⟩
    · cases hs

/-- a task is being polled, or what was polled is being dropped -/
def TaskPc.polling (b : ℕ) : TaskPc → Prop
  | .main b' _ => b' = b
  | .mainDropping b' => b' = b
  | .conn b' _ => b' = b
  | .connDropping b' _ => b' = b
  | _ => False

/-- the poll fails: the panic is on its way to `catch_unwind`, or the worker has jumped back -/
structure State.Fails (cfg : Cfg) (s : State W T) (w : W) (b : ℕ) (a : TaskAct)
    (s' : State W T) : Prop where
  polling : (s.task w).polling b
  /-- not while `handshake` holds the lock of the count -/
  outside : s.task w = .main b .count → a ≠ .step
  step : s.step cfg (.task w a) = some s'
  failing : (s'.task w).failing = true

/-- no destructor panics in `cleanup_bucket`, and memory does not run out where that strands the
worker -/
def State.Straight (s : State W T) (w : W) (a : TaskAct) : Prop :=
  a.panics = false ∧ (s.task w).strands a = false

/-- the states from the failure of a poll to the last step of `cleanup_bucket`, whatever the other
threads do, as long as the worker is not stranded -/
inductive State.Cleaning (cfg : Cfg) (w : W) (b : ℕ) : State W T → Prop where
  | fails {s s' : State W T} {a : TaskAct} (h : (Executor.machine cfg).Reach (State.Admits fresh) s)
      (hst : (s.task w).strands a = false) (hf : s.Fails cfg w b a s') : Cleaning cfg w b s'
  | own {s s' : State W T} {a : TaskAct} (h : Cleaning cfg w b s)
      (hne : ∀ r, s.task w ≠ .cleanup b r .release) (ha : s.Straight w a)
      (hs : s.step cfg (.task w a) = some s') : Cleaning cfg w b s'
  | other {s s' : State W T} {a : Act W T} (h : Cleaning cfg w b s) (hne : ∀ a', a ≠ .task w a')
      (hok : s.Admits fresh a) (hs : s.step cfg a = some s') : Cleaning cfg w b s'

/-- what holds of these states -/
structure State.Ending (cfg : Cfg) (s : State W T) (w : W) (b : ℕ) : Prop where
  reach : (Executor.machine cfg).Reach (State.Admits fresh) s
  alive : s.q.alive w = true
  bucket : (s.task w).bucket = some b
  ending : (s.task w).ending = true
  locks : Locks (s.bucket b) (s.task w) (s.accept.gate b)

theorem fresh_of_ne {v : Bucket} {t : TaskPc} {g : Gate} {a : TaskAct}
    (h : ∀ b, t ≠ .takeMain b) : fresh v t g a := by
  unfold fresh Bucket.stale
  split
  · next b => exact absurd rfl (h b)
  · rfl

/-- The locks of a bucket whose worker is alive and has not failed. -/
theorem State.locks_of_alive (h : (Executor.machine cfg).Reach (State.Admits fresh) s) {w : W}
    {b : ℕ} (hb : (s.task w).bucket = some b) (hal : s.q.alive w = true)
    (hp : (s.task w).ending = false) : Locks (s.bucket b) (s.task w) (s.accept.gate b) := by
  have ha := attached_of_reach h
  have ho := Queue.owned_of_reachable (queue_reachable h)
  have hown := ha.owns hb
  have hl : ¬ s.Lost b := by
    rintro ⟨w', hw', hd⟩
    rw [ho.unique b w' w hw' hown, hal] at hd
    cases hd
  rcases sound_of_reach h hl (.inl ⟨w, hown, rfl⟩) with h1 | ⟨_, h2⟩ | h1
  · exact h1
  · rw [hp] at h2
    cases h2
  · have hend := h1.ending
    rw [hp] at hend
    cases hend

theorem TaskPc.polling.facts {t : TaskPc} {b : ℕ} (h : t.polling b) :
    t.bucket = some b ∧ t.ending = false ∧ ∀ b', t ≠ .takeMain b' := by
  cases t with
  | main => cases h; exact ⟨rfl, rfl, nofun⟩
  | mainDropping => cases h; exact ⟨rfl, rfl, nofun⟩
  | conn => cases h; exact ⟨rfl, rfl, nofun⟩
  | connDropping => cases h; exact ⟨rfl, rfl, nofun⟩
  | _ => cases h

theorem TaskPc.ending_of_failing {t : TaskPc} (h : t.failing = true) : t.ending = true := by
  cases t with
  | unwinding => rfl
  | poisoned => rfl
  | cleanup => rfl
  | _ => cases h

/-- The step of a worker on its bucket, unless it ends the worker. -/
theorem State.step_task_eq {w : W} {a : TaskAct} (hs : s.step cfg (.task w a) = some s') {b : ℕ}
    (hb : (s.task w).bucket = some b) : s.q.alive w = true ∧ ∃ e,
      (s.bucket b).taskStep cfg (s.task w) a = some (s'.bucket b, s'.task w, e) ∧
      (e ≠ .die → s'.q.alive w = true) := by
  simp only [State.step] at hs
  split at hs
  · next hal =>
    unfold State.taskStep at hs
    simp only [Option.bind_eq_bind, Option.bind_eq_some_iff] at hs
    obtain ⟨b0, hb0, ⟨v, t, e⟩, hts, he⟩ := hs
    obtain rfl : b0 = b := Option.some_inj.mp (hb0.symm.trans hb)
    obtain ⟨e1, _, e3, _⟩ := State.emit_eq he
    have h1 : s'.bucket b0 = v := (congrFun e1 b0).trans (Function.update_self ..)
    have h2 : s'.task w = t := (congrFun e3 w).trans (Function.update_self ..)
    refine ⟨hal.1, e, by rw [h1, h2]; exact hts, fun hd => ?_⟩
    rw [State.emit_alive (s := (s.setBucket b0 v).setTask w t) he (fun _ => hd)]
    exact hal.1
  · cases hs

theorem State.accept_of_task {w : W} {a : TaskAct} (hs : s.step cfg (.task w a) = some s') :
    s'.accept = s.accept := by
  simp only [State.step] at hs
  split at hs
  · obtain ⟨_, _, _, _, _, _, he⟩ := State.taskStep_eq hs
    exact (State.emit_eq he).2.1
  · cases hs

theorem State.Fails.ending {w : W} {b : ℕ} {a : TaskAct}
    (h : (Executor.machine cfg).Reach (State.Admits fresh) s) (hst : (s.task w).strands a = false)
    (hf : s.Fails cfg w b a s') : s'.Ending cfg w b := by
  obtain ⟨hb, hend, htake⟩ := hf.polling.facts
  obtain ⟨hal, e, hts, hlive⟩ := State.step_task_eq hf.step hb
  have hs : TStep cfg (s.bucket b) (s.task w) a (s'.bucket b) (s'.task w) e := .of_taskStep hts
  have hl := State.locks_of_alive h hb hal hend
  -- the worker goes on, since it is somewhere else now
  have hd : e ≠ .die := by
    rintro rfl
    have hsame : s'.task w = s.task w := by
      generalize s.task w = t, s'.task w = t', s.bucket b = v, s'.bucket b = v' at hs
      cases hs <;> rfl
    have h1 := TaskPc.ending_of_failing hf.failing
    rw [hsame, hend] at h1
    cases h1
  have hp : (s'.bucket b).refcount.poisoned = false := by
    rcases hs.poisoned with h1 | ⟨⟨b', h1, h2, _⟩ | h1, _⟩
    · exact h1.trans hl.refcount
    · rw [h1] at hb
      cases hb
      exact absurd h2 (hf.outside h1)
    · exact absurd h1 hd
  have ha := attached_of_reach h
  have hk := (pledged_of_reach h).at_task ha hb
  refine ⟨h.step ((State.admits_task hb).mpr (fresh_of_ne htake)) hf.step, hlive hd, ?_,
    TaskPc.ending_of_failing hf.failing, ?_⟩
  · rcases hs.bucket_eq (ha.taskOk w) with h1 | h1
    · exact h1.trans hb
    · have h2 := hf.failing
      rw [h1] at h2
      cases h2
  · rw [State.accept_of_task hf.step]
    exact hl.step (ha.taskOk w) hk hd hst hp hs

/-- the last step of `cleanup_bucket` is next -/
def TaskPc.releasing (b : ℕ) (t : TaskPc) : Prop := ∃ r, t = .cleanup b r .release

/-- The bucket is in use, and the accept thread is not setting it. -/
theorem State.Ending.inUse {w : W} {b : ℕ} (h : s.Ending cfg w b) :
    1 ≤ (s.bucket b).refcount.val ∧ (s.accept.gate b).claimed = false := by
  obtain ⟨hc, hk⟩ := (counted_of_reach h.reach).at_task (attached_of_reach h.reach) h.bucket
  exact inUse_of_ending hc hk h.ending

/-- Memory that runs out in `cleanup_bucket` does not end the worker there. -/
theorem cleanupStep_dies {v v' : Bucket} {b : ℕ} {f : Failure} {k : CleanupPc} {a : TaskAct}
    {t' : TaskPc} (h : v.cleanupStep cfg b f k a = some (v', t', .die)) :
    a = .step ∨ a = .panic ∧ ((∃ i, k = .slots i) ∨ k = .future) := by
  unfold Bucket.cleanupStep at h
  split at h
  all_goals first
    | exact .inl rfl
    | exact .inr ⟨rfl, .inl ⟨_, rfl⟩⟩
    | exact .inr ⟨rfl, .inr rfl⟩
    | cases h
    | split at h <;> cases h

/-- **Only a panic of what `cleanup_bucket` drops can end the worker**: no lock fails. -/
theorem State.Ending.not_die {w : W} {b : ℕ} {a : TaskAct} {v : Bucket} {t : TaskPc}
    (h : s.Ending cfg w b) (hs : (s.bucket b).taskStep cfg (s.task w) a = some (v, t, .die)) :
    a.panics = true ∧ ∃ r, (∃ i, s.task w = .cleanup b r (.slots i)) ∨
      s.task w = .cleanup b r .future := by
  have hend := h.ending
  have hb := h.bucket
  have hno : survivable (s.bucket b) (s.task w) (s.accept.gate b) a → False := by
    intro hok
    obtain ⟨_, _, b', off, h1, _⟩ := h.locks.not_dead hok (.of_taskStep hs)
    rw [h1] at hend
    cases hend
  cases ht : s.task w with
  | unwinding =>
    rw [ht] at hno hs
    cases a with
    | step => exact absurd ⟨rfl, trivial⟩ hno
    | _ => cases hs
  | poisoned =>
    rw [ht] at hno
    exact absurd ⟨rfl, trivial⟩ hno
  | cleanup b' r k =>
    rw [ht] at hb hno hs
    cases hb
    rcases cleanupStep_dies hs with rfl | ⟨rfl, hk⟩
    · exact absurd ⟨by cases k <;> rfl, rfl⟩ hno
    · refine ⟨rfl, r, ?_⟩
      rcases hk with ⟨i, rfl⟩ | rfl
      · exact .inl ⟨i, rfl⟩
      · exact .inr rfl
  | _ => rw [ht] at hend; cases hend

/-- What others do. -/
theorem State.Ending.other {w : W} {b : ℕ} {a : Act W T} (h : s.Ending cfg w b)
    (hne : ∀ a', a ≠ .task w a') (hok : s.Admits fresh a) (hs : s.step cfg a = some s') :
    s'.Ending cfg w b ∧ s'.task w = s.task w := by
  have ha := attached_of_reach h.reach
  have hq := queue_reachable h.reach
  have ho := Queue.owned_of_reachable hq
  obtain ⟨h1, h2⟩ := ha.frame h.bucket hs hne
  refine ⟨⟨h.reach.step hok hs, h2.trans h.alive, by rw [h1]; exact h.bucket,
    by rw [h1]; exact h.ending, ?_⟩, h1⟩
  have hat : s'.At b (s'.task w) := .inl ⟨w, ha.owns_step h.bucket hs, rfl⟩
  have hown : ∀ {t}, s.At b t → t = s.task w := by
    rintro t (⟨w', hw', rfl⟩ | ⟨hno, _⟩)
    · rw [ho.unique b w' w hw' (ha.owns h.bucket)]
    · exact absurd (ha.owns h.bucket) (hno w)
  cases State.seen_of_step ho ha (Queue.named_of_reachable hq) hs hat with
  | same _ hb hg =>
    rw [hb, hg, h1]
    exact h.locks
  | accept _ hg =>
    rw [h1]
    exact h.locks.accept hg
  | job off _ _ hidle =>
    have hend := h.ending
    rw [← hown hidle] at hend
    cases hend
  | task w1 a' e ha' hb =>
    exact absurd ha' (by rw [ho.unique b w1 w (ha.owns hb) (ha.owns h.bucket)]; exact hne a')

/-- The executor's own code allocates nothing. -/
theorem TaskPc.strands_step (t : TaskPc) : t.strands .step = false := by
  cases t with
  | cleanup b f k => cases k <;> rfl
  | _ => rfl

theorem TaskPc.rank_pos (cfg : Cfg) {t : TaskPc} (h : t.ending = true) : 0 < t.rank cfg := by
  cases t with
  | cleanup b f k => exact Nat.add_pos_left (by cases k <;> exact Nat.succ_pos _) _
  | unwinding => exact Nat.succ_pos _
  | poisoned => exact Nat.succ_pos _
  | _ => cases h

/-- An own step leads on, or it was the last one. -/
theorem State.Ending.own {w : W} {b : ℕ} {a : TaskAct} (h : s.Ending cfg w b)
    (ha : s.Straight w a) (hs : s.step cfg (.task w a) = some s') :
    s'.q.alive w = true ∧ ((s.task w).releasing b ∧ s'.task w = .idle ∨
      ¬ (s.task w).releasing b ∧ s'.Ending cfg w b ∧
        (s'.task w).rank cfg < (s.task w).rank cfg) := by
  obtain ⟨_, e, hts, hlive⟩ := State.step_task_eq hs h.bucket
  have hd : e ≠ .die := by
    rintro rfl
    have hp := (h.not_die hts).1
    rw [ha.1] at hp
    cases hp
  refine ⟨hlive hd, ?_⟩
  have hst : TStep cfg (s.bucket b) (s.task w) a (s'.bucket b) (s'.task w) e := .of_taskStep hts
  have hrank := TaskPc.rank_pos cfg h.ending
  rcases hst.ending hd h.ending with h1 | ⟨b', r, h1, h2⟩
  · right
    have hne : s'.task w ≠ .idle := fun h2 => by rw [h2] at h1; cases h1
    have hnot : ¬ (s.task w).releasing b := by
      rintro ⟨r, h2⟩
      rw [h2] at hts
      cases a with
      | step =>
        simp only [Bucket.taskStep, Bucket.cleanupStep, h.locks.refcount, Bool.false_eq_true,
          if_false, Option.some.injEq, Prod.mk.injEq] at hts
        exact hne hts.2.1.symm
      | _ => cases hts
    have hp : (s'.bucket b).refcount.poisoned = false := by
      rcases hst.poisoned with h2 | ⟨⟨b', h2, _⟩ | h2, _⟩
      · exact h2.trans h.locks.refcount
      · have hend := h.ending
        rw [h2] at hend
        cases hend
      · exact absurd h2 hd
    have hat := attached_of_reach h.reach
    have hk := (pledged_of_reach h.reach).at_task hat h.bucket
    refine ⟨hnot, ⟨h.reach.step ((State.admits_task h.bucket).mpr (fresh_of_ne fun b' h2 => ?_)) hs,
      hlive hd, ?_, h1, ?_⟩, ((hst.rank_lt hd ha.2 hrank).resolve_left hne).2⟩
    · have hend := h.ending
      rw [h2] at hend
      cases hend
    · rcases hst.bucket_eq (hat.taskOk w) with h2 | h2
      · exact h2.trans h.bucket
      · exact absurd h2 hne
    · rw [State.accept_of_task hs]
      exact h.locks.step (hat.taskOk w) hk hd ha.2 hp hst
  · have hb := h.bucket
    rw [h1] at hb
    cases hb
    exact .inl ⟨⟨r, h1⟩, h2⟩

/-- The next step of `cleanup_bucket` waits for nobody and does not reach the queue. -/
theorem Locks.enabled_ending (cfg : Cfg) {v : Bucket} {t : TaskPc} {g : Gate} (h : Locks v t g)
    (hg : g.claimed = false) (ht : t.ending = true) :
    ∃ v' t' e, v.taskStep cfg t .step = some (v', t', e) ∧ e.silent = true := by
  cases t with
  | unwinding b owed => exact ⟨_, _, _, rfl, rfl⟩
  | poisoned b owed => exact ⟨_, _, _, rfl, rfl⟩
  | cleanup b r k =>
    cases k with
    | slots i =>
      have hf := h.free_conn (i := i) rfl
      simp only [Bucket.taskStep, Bucket.cleanupStep, hf, if_true]
      split_ifs <;> exact ⟨_, _, _, rfl, rfl⟩
    | future =>
      have hl : v.future.locked = false := by
        rw [h.main]
        cases g with
        | replacing => cases hg
        | _ => rfl
      have hp : v.future.poisoned = false := h.poison
      simp only [Bucket.taskStep, Bucket.cleanupStep, hl, hp]
      exact ⟨_, _, _, rfl, rfl⟩
    | release =>
      simp only [Bucket.taskStep, Bucket.cleanupStep, h.refcount]
      exact ⟨_, _, _, rfl, rfl⟩
    | _ => exact ⟨_, _, _, rfl, rfl⟩
  | _ => cases ht

/-- bucket `b` is as it was at the start -/
structure State.Restored (cfg : Cfg) (s : State W T) (b : ℕ) : Prop where
  refcount : (s.bucket b).refcount.val = 0
  future : (s.bucket b).future.val = none
  connections : ∀ i < cfg.io.httpConnections, ((s.bucket b).connections i).val = .empty
  remaining : (s.bucket b).remaining = cfg.bucketSize

/-- Before the last step of `cleanup_bucket` the bucket is empty and has its memory. -/
theorem State.Ending.vacant {w : W} {b : ℕ} (h : s.Ending cfg w b)
    (hr : (s.task w).releasing b) :
    s.Vacant cfg b ∧ (s.bucket b).remaining = cfg.bucketSize := by
  obtain ⟨r, ht⟩ := hr
  have hc := ((counted_of_reach h.reach).at_task (attached_of_reach h.reach) h.bucket).1
  have hw := (whole_of_reach h.reach).at_task (attached_of_reach h.reach) h.bucket
  rw [ht] at hc hw
  obtain ⟨_, h2, h3, h4⟩ := hc.place
  exact ⟨⟨h4, h2, (liveConns_eq_zero cfg _).mp h3⟩, hw.wiped b r rfl⟩

/-- **The last step of `cleanup_bucket`**: it sets the count of an empty bucket to 0. -/
theorem State.Ending.released {w : W} {b : ℕ} (h : s.Ending cfg w b)
    (hr : (s.task w).releasing b) (hs : s.step cfg (.task w .step) = some s') :
    s'.Restored cfg b := by
  obtain ⟨hvac, hmem⟩ := h.vacant hr
  obtain ⟨r, ht⟩ := hr
  obtain ⟨_, e, hts, _⟩ := State.step_task_eq hs h.bucket
  rw [ht] at hts
  simp only [Bucket.taskStep, Bucket.cleanupStep, h.locks.refcount, Bool.false_eq_true,
    if_false] at hts
  have hv : s'.bucket b = (s.bucket b).setRefcount ((s.bucket b).refcount.set 0) :=
    (Option.some_inj.mp (congrArg (Option.map Prod.fst) hts)).symm
  exact ⟨by rw [hv]; rfl, by rw [hv]; exact hvac.1,
    by rw [hv]; exact hvac.2.2, by rw [hv]; exact hmem⟩

/-- **The worker can finish `cleanup_bucket` alone.** -/
theorem State.Ending.finish {w : W} {b n : ℕ} (h : s.Ending cfg w b)
    (hc : s.q.calls (.worker w) = none) (hn : (s.task w).rank cfg ≤ n) :
    ∃ m s', (Executor.machine cfg).run s (List.replicate m (.task w .step)) = some s' ∧
      s'.task w = .idle ∧ s'.q.alive w = true ∧ s'.Restored cfg b := by
  induction n generalizing s with
  | zero =>
    have := TaskPc.rank_pos cfg h.ending
    omega
  | succ n ih =>
    obtain ⟨v, t, e, hts, hsil⟩ := h.locks.enabled_ending cfg h.inUse.2 h.ending
    obtain ⟨s1, hs, hq, _⟩ := State.step_silent h.bucket h.alive hc hts hsil
    obtain ⟨hal, ⟨hr, hi⟩ | ⟨_, h1, hlt⟩⟩ := h.own ⟨rfl, TaskPc.strands_step _⟩ hs
    · refine ⟨1, s1, ?_, hi, hal, h.released hr hs⟩
      show (s.step cfg (.task w .step)).bind _ = _
      rw [hs]
      rfl
    · obtain ⟨m, s', hrun, hrest⟩ := ih h1 (by rw [hq]; exact hc) (by omega)
      refine ⟨m + 1, s', ?_, hrest⟩
      rw [List.replicate_succ, Machine.run_cons]
      show (s.step cfg (.task w .step)).bind _ = _
      rw [hs]
      exact hrun

theorem State.Cleaning.ending {w : W} {b : ℕ} (h : s.Cleaning cfg w b) : s.Ending cfg w b := by
  induction h with
  | fails h hst hf => exact hf.ending h hst
  | own h hne ha hs ih =>
    obtain ⟨_, ⟨⟨r, hr⟩, _⟩ | ⟨_, h1, _⟩⟩ := ih.own ha hs
    · exact absurd hr (hne r)
    · exact h1
  | other h hne hok hs ih => exact (ih.other hne hok hs).1

end
end Nea
