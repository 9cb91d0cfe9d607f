import Nea.Executor.System

/-!
# From a bucket to the executor

A bucket is touched by the worker that owns its slot and by the accept thread.  So an invariant
that relates a bucket, the task of its owner and the stage of the accept thread is proved on the
relations `TStep` and `GStep` alone, and `LocalInv.of_reach` carries it to every reachable state of
the executor.

* `dispatch_eq`       a dequeued offset is classified as a task of the bucket it was dequeued from;
* `Gate`, `GStep`     the accept thread as one bucket sees it;
* `State.At`          the task of the owner of a bucket (idle without an owner);
* `State.Seen`        one step of the executor as one bucket sees it (`State.seen_of_step`);
* `LocalInv`          the premises of the rule, `LocalInv.of_reach` the rule.
-/

set_option linter.unusedSectionVars false

namespace Nea

/-! ## the classification of offsets -/

/-- An offset of bucket `b` selects the main future of `b` or a connection of `b`. -/
theorem dispatch_eq {cfg : Cfg} {b off : ℕ} {t : TaskPc} (h : IsJob cfg b off)
    (hd : dispatch cfg b off = some t) : (t = .takeMain b ∧ off = 0) ∨
      ∃ i < cfg.io.httpConnections, t = .takeConn b i ∧ off = cfg.io.tcpStreams + i := by
  obtain ⟨h1, h2, h3⟩ := h.rebuild
  have hb : b < 2^32 := lt_trans h.bucket_lt cfg.bucketCount_lt
  have ho : off < 2^32 := lt_trans h.offset_lt (by decide)
  unfold dispatch at hd
  simp only [Option.bind_eq_bind, Option.bind_eq_some_iff, mulChecked_eq_some,
    addChecked_eq_some] at hd
  obtain ⟨base, hbase, idx, hidx, io, hio, ht⟩ := hd
  have hi : idx.toNat = b * cfg.io.perBucket + off := by
    rw [hidx, hbase, UInt32.toNat_ofNat', UInt32.toNat_ofNat', UInt32.toNat_ofNat',
      Nat.mod_eq_of_lt hb, Nat.mod_eq_of_lt cfg.perBucket_lt, Nat.mod_eq_of_lt ho]
  cases io with
  | inputStream bi =>
    obtain ⟨e1, e2⟩ := fromIndex_inputStream cfg.perBucket_lt hio
    cases ht
    rw [hi, h1] at e1
    rw [hi, h2] at e2
    exact .inl ⟨by rw [e1], e2⟩
  | httpConnection c =>
    obtain ⟨i, hlt, e1, e2⟩ := fromIndex_httpConnection cfg.perBucket_lt hio
    cases ht
    rw [hi, h2] at e1
    rw [hi, h1] at e2
    exact .inr ⟨i, hlt, by rw [e2, Nat.add_sub_cancel_left], e1⟩

/-- a dequeued offset was enqueued, and connection indices lie in the range of the bucket -/
def TaskOk (cfg : Cfg) : TaskPc → Prop
  | .job b off => IsJob cfg b off
  | .takeConn _ i => i < cfg.io.httpConnections
  | .conn _ i => i < cfg.io.httpConnections
  | .connDropping _ i => i < cfg.io.httpConnections
  | _ => True

theorem TStep.taskOk {cfg : Cfg} {v v' : Bucket} {t t' : TaskPc} {a : TaskAct} {e : Effect}
    (ht : TaskOk cfg t) (h : TStep cfg v t a v' t' e) : TaskOk cfg t' := by
  cases h with
  | dispatch b off _ hd =>
    rcases dispatch_eq ht hd with ⟨rfl, _⟩ | ⟨i, hi, rfl, _⟩
    · trivial
    · exact hi
  | die => exact ht
  | alloc => exact ht
  | connPanics => exact ht
  | connReserved => exact ht
  | takeConn => exact ht
  | connReady => exact ht
  | _ => trivial

/-- **A worker inside `run_bucket` stays with the bucket it dequeued from until it is idle.** -/
theorem TStep.bucket_eq {cfg : Cfg} {v v' : Bucket} {t t' : TaskPc} {a : TaskAct} {e : Effect}
    (ht : TaskOk cfg t) (h : TStep cfg v t a v' t' e) : t'.bucket = t.bucket ∨ t' = .idle := by
  refine h.bucket (fun b off t1 he hd => ?_)
  subst he
  rcases dispatch_eq ht hd with ⟨rfl, _⟩ | ⟨i, _, rfl, _⟩ <;> rfl

theorem TStep.idle_of_forever {cfg : Cfg} {v v' : Bucket} {t t' : TaskPc} {a : TaskAct}
    (h : TStep cfg v t a v' t' .forever) : t' = .idle := by
  cases h with
  | readyLast => rfl

theorem TaskPc.eq_idle {t : TaskPc} (h : t.bucket = none) : t = .idle := by
  cases t <;> first | rfl | cases h

/-! ## the accept thread as one bucket sees it -/

inductive Gate where
  | away
  | setting
  | replacing
  | storing (old : Bool)
  | checking (old : Bool)
  /-- the accept thread panicked between the claim and `replace` -/
  | failed
deriving DecidableEq

def AcceptPc.gate (p : AcceptPc) (b : ℕ) : Gate :=
  match p with
  | .setting _ b' => if b' = b then .setting else .away
  | .replacing _ b' => if b' = b then .replacing else .away
  | .storing _ b' old => if b' = b then .storing old else .away
  | .checking b' old => if b' = b then .checking old else .away
  | .dead (some b') => if b' = b then .failed else .away
  | _ => .away

/-- what a step of the accept thread is for the bucket it is about -/
inductive GStep (v : Bucket) : Gate → Bucket → Gate → Prop where
  | claim (hv : v.refcount.val = 0) :
      GStep v .away ((v.setRefcount (v.refcount.set 1)).log .claim) .setting
  | lock (hf : v.future.free = true) : GStep v .setting (v.setFuture v.future.lock) .replacing
  | fail : GStep v .setting v .failed
  | replace : GStep v .replacing (v.setFuture (v.future.set (some ⟨[]⟩)).unlock)
      (.storing v.future.val.isSome)
  | store (fd : RawFd) (old : Bool) :
      GStep v (.storing old) ((v.setTcpStream fd).log (.store fd)) (.checking old)
  | checked (old : Bool) : GStep v (.checking old) v .away

section
variable {cfg : Cfg} {v v' : Bucket} {p p' : AcceptPc} {e : Effect} {b b' : ℕ}

theorem AStep.gate_ne (h : AStep cfg v p v' p' e) (hp : p.bucket = some b) (hne : b' ≠ b) :
    p'.gate b' = p.gate b' := by
  cases h <;> cases hp <;> simp [AcceptPc.gate, hne.symm]

theorem AStep.gate_self (h : AStep cfg v p v' p' e) (hp : p.bucket = some b) :
    (v' = v ∧ p'.gate b = p.gate b) ∨ GStep v (p.gate b) v' (p'.gate b) := by
  cases h with
  | claim fd i hi hv =>
    cases hp
    simpa [AcceptPc.gate] using GStep.claim hv
  | next fd i hi => exact .inl ⟨rfl, rfl⟩
  | noSpace fd i hi => exact .inl ⟨rfl, rfl⟩
  | lock fd b hf =>
    cases hp
    simpa [AcceptPc.gate] using GStep.lock hf
  | lockPanics fd b =>
    cases hp
    simpa [AcceptPc.gate] using GStep.fail
  | replace fd b =>
    cases hp
    simpa [AcceptPc.gate] using GStep.replace (v := v)
  | store fd b old =>
    cases hp
    simpa [AcceptPc.gate] using GStep.store (v := v) fd old
  | check b =>
    cases hp
    simpa [AcceptPc.gate] using GStep.checked false
  | assertFails b =>
    cases hp
    simpa [AcceptPc.gate] using GStep.checked true
  | indexPanics b => exact .inl ⟨rfl, rfl⟩
  | enqueue b q c hq hc => exact .inl ⟨rfl, rfl⟩

end

/-! ## workers and the buckets they own -/

section
variable {W T : Type} [DecidableEq W] [DecidableEq T] [Fintype W]
variable {cfg : Cfg} {s s' : State W T}

/-- a worker inside `run_bucket` owns the slot of the bucket it works on -/
structure Attached (cfg : Cfg) (s : State W T) : Prop where
  running : ∀ w b, (s.task w).bucket = some b → s.q.pc w = .running b
  taskOk : ∀ w, TaskOk cfg (s.task w)

theorem attached_init (cfg : Cfg) : Attached cfg (State.init cfg : State W T) where
  running w b h := by cases h
  taskOk w := trivial

theorem Attached.idle (h : Attached cfg s) {w : W} (hw : ∀ b, s.q.pc w ≠ .running b) :
    s.task w = .idle := by
  cases hb : (s.task w).bucket with
  | none => exact TaskPc.eq_idle hb
  | some b => exact absurd (h.running w b hb) (hw b)

theorem Attached.owns (h : Attached cfg s) {w : W} {b : ℕ} (hb : (s.task w).bucket = some b) :
    s.q.Owns w b := by
  unfold Queue.Owns
  rw [h.running w b hb]
  rfl

/-- The queue moves; `load` and `finish` are called by idle workers only. -/
theorem Attached.setQ (h : Attached cfg s) {a : QAct W T} {q : Queue W T}
    (hq : s.q.step cfg a = some q)
    (hl : ∀ w, a = .load w ∨ a = .finish w → s.task w = .idle) : Attached cfg (s.setQ q) where
  running w b hb := by
    have hne : s.task w ≠ .idle := by
      intro he
      rw [State.setQ_task, he] at hb
      cases hb
    exact Queue.running_of_step hq (h.running w b hb) (fun e => hne (hl w (.inl e)))
      (fun e => hne (hl w (.inr e)))
  taskOk := h.taskOk

/-- Worker `w` takes a step on its bucket. -/
theorem Attached.setTask (h : Attached cfg s) {w : W} {b : ℕ} {v : Bucket} {t : TaskPc}
    {a : TaskAct} {e : Effect} (hb : (s.task w).bucket = some b)
    (hs : TStep cfg (s.bucket b) (s.task w) a v t e) :
    Attached cfg ((s.setBucket b v).setTask w t) where
  running w' b' hb' := by
    by_cases e : w' = w
    · subst e
      rw [State.setTask_task, Function.update_self] at hb'
      rcases hs.bucket_eq (h.taskOk w') with h1 | h1
      · exact h.running w' b' (h1.symm.trans hb')
      · rw [h1] at hb'
        cases hb'
    · rw [State.setTask_task, Function.update_of_ne e] at hb'
      exact h.running w' b' hb'
  taskOk w' := by
    by_cases e : w' = w
    · subst e
      rw [State.setTask_task, Function.update_self]
      exact hs.taskOk (h.taskOk w')
    · rw [State.setTask_task, Function.update_of_ne e]
      exact h.taskOk w'

theorem Attached.congr (h : Attached cfg s) (hq : s'.q = s.q) (ht : s'.task = s.task) :
    Attached cfg s' := ⟨by rw [hq, ht]; exact h.running, by rw [ht]; exact h.taskOk⟩

theorem Attached.emit (h : Attached cfg s) {t : Thread W T} {e : Effect}
    (hi : ∀ w, t = .worker w → e = .forever → s.task w = .idle)
    (he : s.emit cfg t e = some s') : Attached cfg s' := by
  unfold State.emit at he
  split at he
  · obtain ⟨q, hq, rfl⟩ := Option.map_eq_some_iff.mp he
    exact h.setQ hq (by rintro w (h1 | h1) <;> cases h1)
  · cases he; exact h.congr rfl rfl
  · split at he
    · obtain ⟨q, hq, rfl⟩ := Option.map_eq_some_iff.mp he
      exact h.setQ hq (by rintro w (h1 | h1) <;> cases h1)
    · cases he; exact h
  · split at he
    · next w1 =>
      obtain ⟨q, hq, rfl⟩ := Option.map_eq_some_iff.mp he
      refine h.setQ hq ?_
      rintro w (h1 | h1) <;> cases h1
      exact hi w1 rfl rfl
    · cases he
  · cases he; exact h

/-- **A worker inside `run_bucket` owns its bucket**, at every step. -/
theorem Attached.step (h : Attached cfg s) (hn : Queue.Named cfg s.q) {a : Act W T}
    (hs : s.step cfg a = some s') : Attached cfg s' := by
  cases a with
  | incoming fd =>
    simp only [State.step] at hs
    split at hs
    · cases hs; exact h.congr rfl rfl
    · cases hs
  | accept busy =>
    simp only [State.step] at hs
    split at hs
    · obtain ⟨b, v, p, e, _, _, he⟩ := State.acceptStep_eq hs
      have h1 : Attached cfg ((s.setBucket b v).setAccept p) := h.congr rfl rfl
      exact h1.emit (by rintro w h2; cases h2) he
    · cases hs
  | wake t q =>
    simp only [State.step] at hs
    split at hs
    · obtain ⟨q, hq, rfl⟩ := Option.map_eq_some_iff.mp hs
      exact h.setQ hq (by rintro w (h1 | h1) <;> cases h1)
    · cases hs
  | call t waiter =>
    obtain ⟨q, hq, rfl⟩ := Option.map_eq_some_iff.mp hs
    exact h.setQ hq (by rintro w (h1 | h1) <;> cases h1)
  | spurious w =>
    obtain ⟨q, hq, rfl⟩ := Option.map_eq_some_iff.mp hs
    exact h.setQ hq (by rintro w (h1 | h1) <;> cases h1)
  | load w =>
    simp only [State.step] at hs
    split at hs
    · next hi =>
      obtain ⟨q, hq, rfl⟩ := Option.map_eq_some_iff.mp hs
      refine h.setQ hq ?_
      rintro w (h1 | h1) <;> cases h1
      exact hi
    · cases hs
  | work w =>
    obtain ⟨q, hq, rfl⟩ := Option.map_eq_some_iff.mp hs
    have h1 : Attached cfg (s.setQ q) := h.setQ hq (by rintro w (h1 | h1) <;> cases h1)
    cases hp : s.q.pc w with
    | dequeued b i =>
      have hj : s.afterWork w = .job b i := by unfold State.afterWork; rw [hp]
      have hq' : q.pc w = .running b := by
        simp only [Queue.step, Queue.workStep, hp] at hq
        split at hq
        · cases hq; simp only [Queue.pc_setPc, Function.update_self]
        · cases hq
      rw [hj]
      constructor
      · intro w' b' hb'
        by_cases e : w' = w
        · subst e
          rw [State.setTask_task, Function.update_self] at hb'
          cases hb'
          exact hq'
        · rw [State.setTask_task, Function.update_of_ne e] at hb'
          exact h1.running w' b' hb'
      · intro w'
        by_cases e : w' = w
        · subst e
          rw [State.setTask_task, Function.update_self]
          exact hn.chosen w' b i hp
        · rw [State.setTask_task, Function.update_of_ne e]
          exact h1.taskOk w'
    | _ =>
      have hj : s.afterWork w = s.task w := by unfold State.afterWork; rw [hp]
      rw [hj]
      exact h1.congr rfl (Function.update_eq_self w s.task)
  | task w a =>
    simp only [State.step] at hs
    split at hs
    · obtain ⟨b, v, t, e, hb, hts, he⟩ := State.taskStep_eq hs
      refine (h.setTask hb hts).emit ?_ he
      rintro w' hw rfl
      cases hw
      rw [State.setTask_task, Function.update_self]
      exact hts.idle_of_forever
    · cases hs

theorem attached_of_reach {ok : State W T → Act W T → Prop}
    (h : (Executor.machine cfg).Reach ok s) : Attached cfg s := by
  refine h.invariant (I := Attached cfg) (attached_init cfg) ?_
  intro s a s' hr hi _ he
  exact hi.step (Queue.named_of_reachable (queue_reachable hr)) he

/-! ## one worker a bucket -/

/-- a run: bucket 0 is claimed, its main future is set and enqueued -/
def arriving : List (Act (Fin 1) (Fin 1)) :=
  [.incoming 5, .accept false, .accept false, .accept false, .accept false, .accept false,
    .accept false, .call .accept none, .call .accept none, .call .accept none, .call .accept none]

/-- worker 0 picks bucket 0 up and starts to poll its main future -/
def taking : List (Act (Fin 1) (Fin 1)) :=
  [.work 0, .work 0, .work 0, .load 0, .work 0, .task 0 .step, .task 0 .step]

/-- its main future panics and `cleanup_bucket` has reclaimed the descriptor -/
def panicking : List (Act (Fin 1) (Fin 1)) :=
  [.task 0 .panic, .task 0 .step, .task 0 .step, .task 0 .step]

/-- its main future opens a connection -/
def connecting : List (Act (Fin 1) (Fin 1)) :=
  [.task 0 .connect, .task 0 .step, .task 0 .step, .task 0 (.populate 0), .task 0 .step,
    .call (.worker 0) none, .call (.worker 0) none, .call (.worker 0) none, .call (.worker 0) none]

/-- the main future completes; the worker goes on with the connection -/
def completing : List (Act (Fin 1) (Fin 1)) :=
  [.task 0 .ready, .task 0 .step, .task 0 .step, .task 0 .step, .task 0 .step, .load 0, .work 0,
    .task 0 .step, .task 0 .step]

/-- **At most one worker processes a bucket.**  In every reachable state the in-progress flag of a
slot is set exactly if one worker owns the slot, no two workers own the same slot, and no two
workers are inside `run_bucket` or one of its polls for the same bucket. -/
theorem one_owner (cfg : Cfg) (s : State W T) (h : (Executor.machine cfg).Reachable s) :
    (∀ b, (s.q.slots b).isInProgress = true ↔ ∃! w, s.q.Owns w b) ∧
    (∀ w w' b, s.q.Owns w b → s.q.Owns w' b → w = w') ∧
    (∀ w w' b, (s.task w).bucket = some b → (s.task w').bucket = some b → w = w') := by
  have ho := Queue.owned_of_reachable (queue_reachable h)
  have ha := attached_of_reach h
  refine ⟨fun b => ⟨fun hp => ?_, fun ⟨w, hw, _⟩ => (ho.inProgress b).mpr ⟨w, hw⟩⟩,
    fun w w' b => ho.unique b w w', fun w w' b h1 h2 => ho.unique b w w' (ha.owns h1) (ha.owns h2)⟩
  obtain ⟨w, hw⟩ := (ho.inProgress b).mp hp
  exact ⟨w, hw, fun w' hw' => ho.unique b w' w hw' hw⟩

theorem one_owner_taken :
    ∃! w, ((Executor.machine cfgOne).final (arriving ++ taking)).q.Owns w 0 :=
  ((one_owner cfgOne _ (Machine.reachable_final _ _)).1 0).mp (by decide)

/-! ## the rule -/

/-- the task of the owner of bucket `b` -/
def State.At (s : State W T) (b : ℕ) (t : TaskPc) : Prop :=
  (∃ w, s.q.Owns w b ∧ s.task w = t) ∨ ((∀ w, ¬ s.q.Owns w b) ∧ t = .idle)

/-- the steps of workers that a condition on their bucket admits -/
def State.Admits (ok : Bucket → TaskPc → Gate → TaskAct → Prop) (s : State W T) : Act W T → Prop
  | .task w a =>
    match (s.task w).bucket with
    | some b => ok (s.bucket b) (s.task w) (s.accept.gate b) a
    | none => True
  | _ => True

instance (ok : Bucket → TaskPc → Gate → TaskAct → Prop) [h : ∀ v t g a, Decidable (ok v t g a)]
    (s : State W T) : ∀ a, Decidable (s.Admits ok a)
  | .task w a =>
    match hb : (s.task w).bucket with
    | some b =>
      decidable_of_iff (ok (s.bucket b) (s.task w) (s.accept.gate b) a)
        (by simp only [State.Admits, hb])
    | none => isTrue (by simp only [State.Admits, hb])
  | .incoming _ | .accept _ | .wake _ _ | .call _ _ | .spurious _ | .work _ | .load _ =>
    isTrue trivial

theorem State.admits_task {ok : Bucket → TaskPc → Gate → TaskAct → Prop} {w : W} {b : ℕ}
    {a : TaskAct} (hb : (s.task w).bucket = some b) :
    s.Admits ok (.task w a) ↔ ok (s.bucket b) (s.task w) (s.accept.gate b) a := by
  simp only [State.Admits, hb]

/-- The queue moves and no worker changes its task: nothing new is met at any bucket. -/
theorem State.At.of_queue {q : Queue W T} (ho : s.q.Owned) (ha : Attached cfg s)
    (hq : QStep cfg s.q q) {b : ℕ} {t : TaskPc} (h : (s.setQ q).At b t) : s.At b t := by
  rcases h with ⟨w, hw, ht⟩ | ⟨hno, ht⟩
  · rcases Queue.owns_of_owns hq ho hw with h1 | ⟨h1, h2⟩
    · exact .inl ⟨w, h1, ht⟩
    · refine .inr ⟨h2, ht.symm.trans (ha.idle (fun b' hb' => ?_))⟩
      rw [hb'] at h1
      cases h1
  · by_cases hex : ∃ w, s.q.Owns w b
    · obtain ⟨w, hw⟩ := hex
      rcases Queue.owns_or_done hq hw with h1 | ⟨k, h1⟩
      · exact absurd h1 (hno w)
      · refine .inl ⟨w, hw, ?_⟩
        rw [ht]
        exact ha.idle (fun b' hb' => by rw [h1] at hb'; cases hb')
    · exact .inr ⟨fun w hw => hex ⟨w, hw⟩, ht⟩

/-- what a step of the executor is for bucket `b`, whose owner is then at `t'` -/
inductive State.Seen (cfg : Cfg) (s : State W T) (a : Act W T) (s' : State W T) (b : ℕ)
    (t' : TaskPc) : Prop where
  | same (hat : s.At b t') (hb : s'.bucket b = s.bucket b)
      (hg : s'.accept.gate b = s.accept.gate b)
  | accept (hat : s.At b t')
      (hs : GStep (s.bucket b) (s.accept.gate b) (s'.bucket b) (s'.accept.gate b))
  | job (off : ℕ) (hj : IsJob cfg b off) (ht : t' = .job b off) (hat : s.At b .idle)
      (hb : s'.bucket b = s.bucket b) (hg : s'.accept.gate b = s.accept.gate b)
  | task (w : W) (a' : TaskAct) (e : Effect) (ha : a = .task w a')
      (hb : (s.task w).bucket = some b)
      (hs : (s.bucket b).taskStep cfg (s.task w) a' = some (s'.bucket b, t', e))
      (hg : s'.accept.gate b = s.accept.gate b) (hd : e = .die → s'.q.alive w = false)

/-- After an effect nothing new is met at any bucket. -/
theorem State.At.of_emit (ho : s.q.Owned) (ha : Attached cfg s) {t : Thread W T} {e : Effect}
    (he : s.emit cfg t e = some s') {b : ℕ} {t' : TaskPc} (hat : s'.At b t') : s.At b t' := by
  obtain ⟨_, _, ht, hq⟩ := State.emit_eq he
  rcases hq with hq | ⟨a, hq⟩
  · unfold State.At at hat
    rw [hq, ht] at hat
    exact hat
  · refine State.At.of_queue ho ha (.of_step hq) ?_
    unfold State.At at hat ⊢
    rw [ht] at hat
    exact hat

/-- The accept thread: its own bucket moves by `GStep` or stays. -/
theorem State.seen_accept (ho : s.q.Owned) (ha : Attached cfg s) {busy : Bool}
    (hs : s.acceptStep cfg busy = some s') {b : ℕ} {t' : TaskPc} (hat : s'.At b t') :
    s.Seen cfg (.accept busy) s' b t' := by
  obtain ⟨b0, v, p, e, hb0, has, he⟩ := State.acceptStep_eq hs
  have h1 : Attached cfg ((s.setBucket b0 v).setAccept p) := ha.congr rfl rfl
  have hat' : s.At b t' := State.At.of_emit (s := (s.setBucket b0 v).setAccept p) ho h1 he hat
  obtain ⟨e1, e2, _, _⟩ := State.emit_eq he
  have hb : s'.bucket b = Function.update s.bucket b0 v b := congrFun e1 b
  have hg : s'.accept.gate b = p.gate b := by rw [e2, State.setAccept_accept]
  by_cases e : b = b0
  · subst e
    rw [Function.update_self] at hb
    rcases has.gate_self hb0 with ⟨h2, h3⟩ | h2
    · exact .same hat' (hb.trans h2) (hg.trans h3)
    · rw [← hb, ← hg] at h2
      exact .accept hat' h2
  · rw [Function.update_of_ne e] at hb
    exact .same hat' hb (hg.trans (has.gate_ne hb0 e))

/-- A worker leaves `dequeue` with an offset, or goes on in the queue. -/
theorem State.seen_work (ho : s.q.Owned) (ha : Attached cfg s) (hn : Queue.Named cfg s.q) {w : W}
    {q : Queue W T} (hq : s.q.step cfg (.work w) = some q) {b : ℕ} {t' : TaskPc}
    (hat : ((s.setQ q).setTask w (s.afterWork w)).At b t') :
    s.Seen cfg (.work w) ((s.setQ q).setTask w (s.afterWork w)) b t' := by
  by_cases hd : ∃ b0 off, s.q.pc w = .dequeued b0 off
  · obtain ⟨b0, off, hp⟩ := hd
    have hj : s.afterWork w = .job b0 off := by unfold State.afterWork; rw [hp]
    have hown : s.q.Owns w b0 := by unfold Queue.Owns; rw [hp]; rfl
    have hidle : s.task w = .idle := ha.idle (fun b' hb' => by rw [hp] at hb'; cases hb')
    rw [hj] at hat ⊢
    rcases hat with ⟨w', hw', ht'⟩ | ⟨hno, ht'⟩
    · by_cases e : w' = w
      · subst e
        rw [State.setTask_task, Function.update_self] at ht'
        have hb : b = b0 := by
          have h1 : s.q.Owns w' b := by
            rcases Queue.owns_of_owns (.of_step hq) ho hw' with h1 | ⟨h1, _⟩
            · exact h1
            · rw [hp] at h1; cases h1
          exact Option.some_inj.mp (h1.symm.trans hown)
        subst hb
        exact .job off (hn.chosen w' b off hp) ht'.symm (.inl ⟨w', hown, hidle⟩) rfl rfl
      · rw [State.setTask_task, Function.update_of_ne e] at ht'
        exact .same (State.At.of_queue ho ha (.of_step hq) (.inl ⟨w', hw', ht'⟩)) rfl rfl
    · exact .same (State.At.of_queue ho ha (.of_step hq) (.inr ⟨hno, ht'⟩)) rfl rfl
  · have hj : s.afterWork w = s.task w := by
      unfold State.afterWork
      split
      · next b0 off hp => exact absurd ⟨b0, off, hp⟩ hd
      · rfl
    have ht : ((s.setQ q).setTask w (s.task w)).task = s.task := Function.update_eq_self w s.task
    rw [hj] at hat ⊢
    refine .same (State.At.of_queue (q := q) ho ha (.of_step hq) ?_) rfl rfl
    unfold State.At at hat ⊢
    rw [ht] at hat
    exact hat

/-- The task step of a worker: its own bucket moves by `taskStep`, the others stay. -/
theorem State.seen_task (ho : s.q.Owned) (ha : Attached cfg s) {w : W} {a : TaskAct}
    (hs : s.taskStep cfg w a = some s') {b : ℕ} {t' : TaskPc} (hat : s'.At b t') :
    s.Seen cfg (.task w a) s' b t' := by
  unfold State.taskStep at hs
  simp only [Option.bind_eq_bind, Option.bind_eq_some_iff] at hs
  obtain ⟨b0, hb0, ⟨v, t, e⟩, hts, he⟩ := hs
  have h1 : Attached cfg ((s.setBucket b0 v).setTask w t) := ha.setTask hb0 (.of_taskStep hts)
  have hown := ha.owns hb0
  have hat' : ((s.setBucket b0 v).setTask w t).At b t' :=
    State.At.of_emit (s := (s.setBucket b0 v).setTask w t) ho h1 he hat
  obtain ⟨e1, e2, _, _⟩ := State.emit_eq he
  have hb : s'.bucket b = Function.update s.bucket b0 v b := congrFun e1 b
  have hg : s'.accept.gate b = s.accept.gate b := by rw [e2]; rfl
  have hd : e = .die → s'.q.alive w = false := by
    rintro rfl
    cases he
    exact Function.update_self ..
  by_cases e0 : b = b0
  · subst e0
    rw [Function.update_self] at hb
    rcases hat' with ⟨w', hw', ht'⟩ | ⟨hno, _⟩
    · have ew : w' = w := ho.unique b w' w hw' hown
      subst ew
      rw [State.setTask_task, Function.update_self] at ht'
      subst ht'
      rw [← hb] at hts
      exact .task w' a e rfl hb0 hts hg hd
    · exact absurd hown (hno w)
  · rw [Function.update_of_ne e0] at hb
    refine .same ?_ hb hg
    rcases hat' with ⟨w', hw', ht'⟩ | ⟨hno, ht'⟩
    · have ew : w' ≠ w := by
        rintro rfl
        exact e0 (Option.some_inj.mp (hw'.symm.trans hown))
      rw [State.setTask_task, Function.update_of_ne ew] at ht'
      exact .inl ⟨w', hw', ht'⟩
    · exact .inr ⟨hno, ht'⟩

/-- **A step of the executor as one bucket sees it.** -/
theorem State.seen_of_step (ho : s.q.Owned) (ha : Attached cfg s) (hn : Queue.Named cfg s.q)
    {a : Act W T} (hs : s.step cfg a = some s') {b : ℕ} {t' : TaskPc} (hat : s'.At b t') :
    s.Seen cfg a s' b t' := by
  have hmap : ∀ a', (s.q.step cfg a').map s.setQ = some s' → s.Seen cfg a s' b t' := by
    intro a' h
    obtain ⟨q, hq, rfl⟩ := Option.map_eq_some_iff.mp h
    exact .same (hat.of_queue ho ha (.of_step hq)) rfl rfl
  cases a with
  | incoming fd =>
    simp only [State.step] at hs
    split at hs
    · next hi =>
      cases hs
      refine .same hat rfl ?_
      rw [hi.1]
      rfl
    · cases hs
  | accept busy =>
    simp only [State.step] at hs
    split at hs
    · exact State.seen_accept ho ha hs hat
    · cases hs
  | wake t q =>
    simp only [State.step] at hs
    split at hs
    · exact hmap _ hs
    · cases hs
  | call t waiter => exact hmap _ hs
  | spurious w => exact hmap _ hs
  | load w =>
    simp only [State.step] at hs
    split at hs
    · exact hmap _ hs
    · cases hs
  | work w =>
    obtain ⟨q, hq, rfl⟩ := Option.map_eq_some_iff.mp hs
    exact State.seen_work ho ha hn hq hat
  | task w a =>
    simp only [State.step] at hs
    split at hs
    · exact State.seen_task ho ha hs hat
    · cases hs

theorem State.At.taskOk (ha : Attached cfg s) {b : ℕ} {t : TaskPc} (hat : s.At b t) :
    TaskOk cfg t := by
  rcases hat with ⟨w, _, rfl⟩ | ⟨_, rfl⟩
  · exact ha.taskOk w
  · trivial

/-- an invariant of a bucket, the task of its owner and the stage of the accept thread, for runs
whose task steps meet `ok`; `K` is an invariant known before -/
structure LocalInv (cfg : Cfg) (ok : Bucket → TaskPc → Gate → TaskAct → Prop)
    (K L : Bucket → TaskPc → Gate → Prop) : Prop where
  init : L (Bucket.init cfg) .idle .away
  job : ∀ v g b off, IsJob cfg b off → L v .idle g → L v (.job b off) g
  task : ∀ v t g a v' t' e, TaskOk cfg t → K v t g → L v t g → ok v t g a →
    TStep cfg v t a v' t' e → L v' t' g
  accept : ∀ v t g v' g', TaskOk cfg t → K v t g → L v t g → GStep v g v' g' → L v' t g'

/-- `L` holds of every bucket and the task of its owner -/
def State.Everywhere (L : Bucket → TaskPc → Gate → Prop) (s : State W T) : Prop :=
  ∀ b t, s.At b t → L (s.bucket b) t (s.accept.gate b)

theorem State.Everywhere.at_task {L : Bucket → TaskPc → Gate → Prop} (h : s.Everywhere L)
    (ha : Attached cfg s) {w : W} {b : ℕ} (hb : (s.task w).bucket = some b) :
    L (s.bucket b) (s.task w) (s.accept.gate b) :=
  h b _ (.inl ⟨w, ha.owns hb, rfl⟩)

section Rule
variable {ok : Bucket → TaskPc → Gate → TaskAct → Prop} {K L : Bucket → TaskPc → Gate → Prop}

theorem LocalInv.step (hL : LocalInv cfg ok K L) (hk : s.Everywhere K) (h : s.Everywhere L)
    (ho : s.q.Owned) (ha : Attached cfg s) (hn : Queue.Named cfg s.q) {a : Act W T}
    (hok : s.Admits ok a) (hs : s.step cfg a = some s') : s'.Everywhere L := by
  intro b t' hat
  cases State.seen_of_step ho ha hn hs hat with
  | same hat hb hg =>
    rw [hb, hg]
    exact h b t' hat
  | accept hat hs => exact hL.accept _ _ _ _ _ (hat.taskOk ha) (hk b t' hat) (h b t' hat) hs
  | job off hj ht hat hb hg =>
    rw [hb, hg, ht]
    exact hL.job _ _ b off hj (h b .idle hat)
  | task w a' e ha' hb hts hg _ =>
    subst ha'
    rw [hg]
    exact hL.task _ _ _ a' _ _ e (ha.taskOk w) (hk.at_task ha hb) (h.at_task ha hb)
      ((State.admits_task hb).mp hok) (.of_taskStep hts)

/-- **The rule**: a local invariant holds of every bucket in every reachable state. -/
theorem LocalInv.of_reach (hL : LocalInv cfg ok K L)
    (hk : ∀ s : State W T, (Executor.machine cfg).Reach (State.Admits ok) s → s.Everywhere K)
    (h : (Executor.machine cfg).Reach (State.Admits ok) s) : s.Everywhere L := by
  refine h.invariant (I := State.Everywhere L) ?_ ?_
  · rintro b t (⟨w, hw, ht⟩ | ⟨hno, ht⟩)
    · cases hw
    · subst ht
      exact hL.init
  · intro s a s' hr hi hok he
    have hq := queue_reachable hr
    exact hL.step (hk s hr) hi (Queue.owned_of_reachable hq) (attached_of_reach hr)
      (Queue.named_of_reachable hq) hok he

end Rule
end
end Nea
