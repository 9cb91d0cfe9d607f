import Nea.Executor.Cleanup
import Nea.Executor.Refcount

/-!
# What a worker survives

A panic inside `run_bucket` ends the worker unless it is raised below `catch_unwind`, and a guard
that it drops poisons its mutex.  `survivable` lists the steps at which this happens; in runs
without them

* `Locks`             the locks of a bucket are held by whom the places say, and none is poisoned
                      but that of a main future whose panic has just been caught;
* `Living`            a worker inside a bucket is alive;
* `TaskPc.rank`       after the outcome of a poll is known, the job ends after boundedly many steps;
* `worker_survives`   the worker goes on with the next job, and a bucket whose task panicked or ran
                      out of memory has been cleaned up.
-/

set_option linter.unusedSectionVars false

namespace Nea

def TaskAct.panics : TaskAct → Bool
  | .panic => true
  | _ => false

/-- memory runs out where the way back through the arm leads to a mutex that is poisoned, or to a
guard that nobody drops: while a panic unwinds, or in a destructor that `cleanup_bucket` runs.  The
second `cleanup_bucket` gets through when the main future failed and the destructor is its own: the
guard that the arm drops is then of the same mutex. -/
def TaskPc.strands (t : TaskPc) (a : TaskAct) : Bool :=
  match t, a.exhausts with
  | .unwinding _ _, some _ => true
  | .conn _ _, some panicked => panicked
  | .connDropping _ _, some panicked => panicked
  | .cleanup _ f .future, some panicked => panicked || f.guard != .future || f.left.isSome
  | .cleanup _ _ _, some _ => true
  | _, _ => false

/-- no panic that nothing catches, and none that drops the guard of a refcount: `try_lock` on a main
future that `set` holds, a connection that is reserved only, a count that overflows or underflows,
a panic in the poll of a connection or in what `cleanup_bucket` drops -/
def survivable (v : Bucket) (t : TaskPc) (g : Gate) (a : TaskAct) : Prop :=
  t.strands a = false ∧
  match t with
  | .takeMain _ => g ≠ .replacing
  | .takeConn _ i => (v.connections i).val ≠ .reserved
  | .main _ .count => v.refcount.val + 1 < 2^8
  | .ready _ => v.refcount.val ≠ 0
  | .conn _ _ => a.panics = false
  | .connDropping _ _ => a.panics = false
  | .cleanup _ _ _ => a.panics = false
  | _ => True

instance (v : Bucket) (t : TaskPc) (g : Gate) (a : TaskAct) : Decidable (survivable v t g a) := by
  unfold survivable
  refine @instDecidableAnd _ _ _ ?_
  split <;> infer_instance

/-! ## locks -/

/-- the worker holds the lock of the main future -/
def TaskPc.inMain : TaskPc → Bool
  | .main _ _ => true
  | .mainTaken _ => true
  | .mainClosing _ _ => true
  | .mainDropping _ => true
  | .unwinding _ _ => true
  | _ => false

/-- the worker holds the lock of connection `i` -/
def TaskPc.inConn (t : TaskPc) (i : ℕ) : Bool :=
  match t with
  | .conn _ j => j == i
  | .connDropping _ j => j == i
  | _ => false

/-- a panic of the main future was caught and `clear_poison` is next -/
def TaskPc.clearing : TaskPc → Bool
  | .poisoned _ _ => true
  | _ => false

/-- a panic is in progress that nothing will catch -/
def TaskPc.panicking : TaskPc → Bool
  | .cleanup _ f _ => f.panicking
  | _ => false

/-- `set` holds the lock of the main future -/
def Gate.inSet : Gate → Bool
  | .replacing => true
  | _ => false

structure Locks (v : Bucket) (t : TaskPc) (g : Gate) : Prop where
  refcount : v.refcount.poisoned = false
  main : v.future.locked = (t.inMain || g.inSet)
  apart : t.inMain = true → g.inSet = false
  poison : v.future.poisoned = t.clearing
  conn : ∀ i, (v.connections i).locked = t.inConn i
  connPoison : ∀ i, (v.connections i).poisoned = false
  calm : t.panicking = false

section
variable {cfg : Cfg} {v v' : Bucket} {t t' : TaskPc} {g g' : Gate} {a : TaskAct} {e : Effect}

theorem setConn_self (i : ℕ) (m : Mutex Slot) : (v.setConn i m).connections i = m :=
  Function.update_self ..

theorem setConn_ne {i j : ℕ} (m : Mutex Slot) (hne : j ≠ i) :
    (v.setConn i m).connections j = v.connections j := Function.update_of_ne hne ..

/-- The same locks. -/
theorem Locks.keep (h : Locks v t g) (hr : v'.refcount.poisoned = v.refcount.poisoned)
    (hf : v'.future.locked = v.future.locked) (hp : v'.future.poisoned = v.future.poisoned)
    (hc : ∀ i, (v'.connections i).locked = (v.connections i).locked ∧
      (v'.connections i).poisoned = (v.connections i).poisoned)
    (h1 : t'.inMain = t.inMain) (h2 : t'.inConn = t.inConn) (h3 : t'.clearing = t.clearing)
    (h4 : t'.panicking = t.panicking) : Locks v' t' g where
  calm := h4.trans h.calm
  refcount := hr.trans h.refcount
  main := by rw [hf, h1]; exact h.main
  apart ht := h.apart (h1.symm.trans ht)
  poison := by rw [hp, h3]; exact h.poison
  conn i := by rw [(hc i).1, h2]; exact h.conn i
  connPoison i := (hc i).2.trans (h.connPoison i)

/-- The guard of the main future is dropped. -/
theorem Locks.unlock (h : Locks v t g) (h0 : t.inMain = true) (h1 : t'.inMain = false)
    (h2 : t'.inConn = t.inConn) (h3 : t'.clearing = t.clearing)
    (h4 : t'.panicking = t.panicking) : Locks (v.setFuture v.future.unlock) t' g where
  calm := h4.trans h.calm
  refcount := h.refcount
  main := by rw [h1, h.apart h0]; rfl
  apart ht := by rw [h1] at ht; cases ht
  poison := h3 ▸ h.poison
  conn i := h2 ▸ h.conn i
  connPoison := h.connPoison

/-- The guard of the main future is taken. -/
theorem Locks.lock (h : Locks v t g) (hf : v.future.free = true) (h0 : t.inMain = false)
    (h1 : t'.inMain = true) (h2 : t'.inConn = t.inConn) (h3 : t'.clearing = t.clearing)
    (h4 : t'.panicking = t.panicking) : Locks (v.setFuture v.future.lock) t' g where
  calm := h4.trans h.calm
  refcount := h.refcount
  main := by rw [h1]; rfl
  apart _ := by
    have hm := h.main
    rw [(Mutex.free_eq_true.mp hf).1, h0] at hm
    exact hm.symm
  poison := h3 ▸ h.poison
  conn i := h2 ▸ h.conn i
  connPoison := h.connPoison

/-- A connection is locked, unlocked or written by its worker. -/
theorem Locks.setConn (h : Locks v t g) {i : ℕ} {m : Mutex Slot} (hl : m.locked = t'.inConn i)
    (hp : m.poisoned = false) (h1 : t'.inMain = t.inMain)
    (h2 : ∀ j, j ≠ i → t'.inConn j = t.inConn j) (h3 : t'.clearing = t.clearing)
    (h4 : t'.panicking = t.panicking) : Locks (v.setConn i m) t' g where
  calm := h4.trans h.calm
  refcount := h.refcount
  main := by rw [h1]; exact h.main
  apart ht := h.apart (h1.symm.trans ht)
  poison := h3 ▸ h.poison
  conn j := by
    by_cases e : j = i
    · rw [e, setConn_self, hl]
    · rw [setConn_ne _ e, h2 j e]
      exact h.conn j
  connPoison j := by
    by_cases e : j = i
    · rw [e, setConn_self, hp]
    · rw [setConn_ne _ e]
      exact h.connPoison j

theorem Locks.free (h : Locks v t g) (h1 : t.inMain = false) (h2 : t.clearing = false)
    (hg : g.inSet = false) : v.future.free = true := by
  rw [Mutex.free_eq_true, h.main, h.poison, h1, h2, hg]
  exact ⟨rfl, rfl⟩

theorem Locks.free_conn (h : Locks v t g) {i : ℕ} (h1 : t.inConn i = false) :
    (v.connections i).free = true := by
  rw [Mutex.free_eq_true, h.conn, h.connPoison]
  exact ⟨h1, rfl⟩

/-- **A survivable step raises no panic that ends the worker**, unless the offset is unknown. -/
theorem Locks.not_dead (h : Locks v t g) (hok : survivable v t g a)
    (hs : TStep cfg v t a v' t' .die) :
    v' = v ∧ t' = t ∧ ∃ b off, t = .job b off ∧ Nea.dispatch cfg b off = none := by
  cases hs with
  | die _ _ hd =>
    cases hd with
    | unknown b off hn => exact ⟨rfl, rfl, b, off, rfl, hn⟩
    | takeMain b hf =>
      have hg : g.inSet = false := by
        cases g with
        | replacing => exact absurd rfl hok.2
        | _ => rfl
      rw [h.free rfl rfl hg] at hf
      cases hf
    | takeConn b i hp => rw [h.connPoison i] at hp; cases hp
    | ready b hp => rw [h.refcount] at hp; cases hp
    | slots b r i hf => rw [h.free_conn rfl] at hf; cases hf
    | future b r hp => rw [h.poison] at hp; cases hp
    | release b r hp => rw [h.refcount] at hp; cases hp
  | connReserved b i hr => exact absurd hr hok.2
  | connPanics _ b i ht => rcases ht with rfl | rfl <;> cases hok.2
  | readyZero b hv => exact absurd hv hok.2
  | slotPanics => cases hok.2
  | futurePanics => cases hok.2

/-- The mutex of the count is poisoned by an overflow, which `catch_unwind` catches, or by an
underflow, which nothing does. -/
theorem TStep.poisoned (hs : TStep cfg v t a v' t' e) :
    v'.refcount.poisoned = v.refcount.poisoned ∨
      ((∃ b, t = .main b .count ∧ a = .step ∧ ¬ v.refcount.val + 1 < 2^8 ∧
        t' = .unwinding b false) ∨ e = .die) ∧ v'.refcount.poisoned = true := by
  cases hs with
  | countOverflow b hge => exact .inr ⟨.inl ⟨b, rfl, rfl, hge, rfl⟩, rfl⟩
  | readyZero => exact .inr ⟨.inr rfl, rfl⟩
  | slotAgain => exact .inl (congrArg Mutex.poisoned (refcount_dropGuard ..))
  | futureAgain => exact .inl (congrArg Mutex.poisoned (refcount_dropGuard ..))
  | _ => exact .inl rfl

/-- A failure that leads back out of an arm without a panic in progress. -/
theorem unwound_of_strands {b i : ℕ} {p : Bool} (ht : t = .conn b i ∨ t = .connDropping b i)
    (hp : a.unwinds = p) (hst : t.strands a = false) : p = false := by
  cases a with
  | panicOom => rcases ht with rfl | rfl <;> cases hst
  | _ => exact hp.symm

/-- `cleanup_bucket` is run again after the destructor of the main future, under its own guard. -/
theorem own_of_strands {b : ℕ} {f : Failure} {p : Bool} (ha : a.exhausts = some p)
    (hst : (TaskPc.cleanup b f .future).strands a = false) :
    p = false ∧ f.guard = .future ∧ f.left = none := by
  simp only [TaskPc.strands, ha, Bool.or_eq_false_iff, bne_eq_false_iff_eq] at hst
  exact ⟨hst.1.1, hst.1.2, Option.isNone_iff_eq_none.mp (Option.isSome_eq_false_iff.mp hst.2)⟩

/-- The guard that the destructor of the main future has left around is unlocked by the one that the
arm drops. -/
theorem Locks.futureAgain {b : ℕ} {f : Failure} (h : Locks v (.cleanup b f .future) g)
    (hf : v.future.free = true) (hg : f.guard = .future) :
    Locks ((v.setFuture (v.future.set none).lock).dropGuard f.guard (f.panicking || false))
      (.cleanup b (f.again .future false) .load) g := by
  have hcalm : (f.panicking || false) = false := by
    rw [Bool.or_false]
    exact h.calm
  have hset : g.inSet = false := by
    have hm := h.main
    rw [(Mutex.free_eq_true.mp hf).1] at hm
    exact hm.symm
  rw [hg, hcalm]
  exact ⟨h.refcount, hset.symm, fun h => (by cases h), h.poison, h.conn, h.connPoison, hcalm⟩

/-- **A step that neither ends the worker nor poisons the count keeps the locks**, unless the worker
is stranded. -/
theorem Locks.step (ht : TaskOk cfg t) (hk : Pledged v t g) (h : Locks v t g) (he : e ≠ .die)
    (hst : t.strands a = false) (hp : v'.refcount.poisoned = false) (hs : TStep cfg v t a v' t' e) :
    Locks v' t' g := by
  have hsame : ∀ i, (v.connections i).locked = (v.connections i).locked ∧
      (v.connections i).poisoned = (v.connections i).poisoned := fun _ => ⟨rfl, rfl⟩
  -- another place with the same locks, the slot written
  have hset : ∀ i b k s, t = .main b k → ∀ k', Locks (v.setConn i ((v.connections i).set s))
      (.main b k') g := by
    rintro i b k s rfl k'
    exact h.setConn (h.conn i) (h.connPoison i) rfl (fun _ _ => rfl) rfl rfl
  cases hs with
  | dispatch b off _ hd =>
    rcases dispatch_eq ht hd with ⟨rfl, _⟩ | ⟨i, _, rfl, _⟩ <;>
      exact h.keep rfl rfl rfl hsame rfl rfl rfl rfl
  | die => exact h
  | stale b hf hn => exact h.lock hf rfl rfl rfl rfl rfl
  | take b f hf hs => exact h.lock hf rfl rfl rfl rfl rfl
  | alloc => exact h.keep rfl rfl rfl hsame rfl rfl rfl rfl
  | longjmp _ _ b ht' => rcases ht' with ⟨k, rfl⟩ | rfl <;> exact h.unlock rfl rfl rfl rfl rfl
  | longjmpUnwinding => cases hst
  | longjmpConn _ _ b i p ht' hp' =>
    have hne : ∀ j, j ≠ i → false = (i == j) := fun j e => (beq_false_of_ne (Ne.symm e)).symm
    have hpf := unwound_of_strands ht' hp' hst
    subst hpf
    rcases ht' with rfl | rfl <;> exact h.setConn rfl (h.connPoison i) rfl hne rfl rfl
  | raise _ _ b owed hr => cases hr <;> exact h.keep rfl rfl rfl hsame rfl rfl rfl rfl
  | populate b i hi hf hr =>
    exact (hset i b .polling _ rfl (.enqueue i)).keep rfl rfl rfl (fun _ => ⟨rfl, rfl⟩) rfl rfl rfl
      rfl
  | populateTaken b i hi hf hr => exact absurd (hk.reserved rfl i hi) hr
  | pending b => exact h.unlock rfl rfl rfl rfl rfl
  | countOverflow b hge => cases hp
  | reserve b i counted hi hf =>
    exact (hset i b _ _ rfl .polling).keep rfl rfl rfl (fun _ => ⟨rfl, rfl⟩) rfl rfl rfl rfl
  | dropped b => exact h.unlock rfl rfl rfl rfl rfl
  | unwind b owed =>
    exact ⟨h.refcount, (h.apart rfl).symm, nofun, rfl, h.conn, h.connPoison, rfl⟩
  | clearPoison b owed => exact ⟨h.refcount, h.main, nofun, rfl, h.conn, h.connPoison, rfl⟩
  | connReserved => exact absurd rfl he
  | takeConn b i hf ho =>
    refine h.setConn ?_ (h.connPoison i) rfl (fun j e => beq_false_of_ne (Ne.symm e)) rfl rfl
    show true = (i == i)
    rw [beq_self_eq_true]
  | connPending b i =>
    exact h.setConn rfl (h.connPoison i) rfl (fun j e => (beq_false_of_ne (Ne.symm e)).symm) rfl rfl
  | connReady b i => exact h.setConn (h.conn i) (h.connPoison i) rfl (fun _ _ => rfl) rfl rfl
  | connPanics => exact absurd rfl he
  | connDropped b i =>
    exact h.setConn rfl (h.connPoison i) rfl (fun j e => (beq_false_of_ne (Ne.symm e)).symm) rfl rfl
  | readyZero => exact absurd rfl he
  | slot b r i hi hf => exact h.setConn (h.conn i) (h.connPoison i) rfl (fun _ _ => rfl) rfl rfl
  | slotPanics => exact absurd rfl he
  | slotAgain b r i a p hi hf ho ha =>
    simp only [TaskPc.strands, ha, reduceCtorEq] at hst
  | futurePanics => exact absurd rfl he
  | futureAgain b r a p hf hs ha =>
    obtain ⟨rfl, hg, _⟩ := own_of_strands ha hst
    exact h.futureAgain hf hg
  | release => exact h.keep rfl rfl rfl hsame rfl rfl rfl h.calm.symm
  | _ => exact h.keep rfl rfl rfl hsame rfl rfl rfl rfl

/-- **One survivable step of a worker keeps the locks.** -/
theorem Locks.task (ht : TaskOk cfg t) (hk : Pledged v t g) (h : Locks v t g)
    (hok : survivable v t g a) (hs : TStep cfg v t a v' t' e) : Locks v' t' g := by
  by_cases hd : e = .die
  · subst hd
    obtain ⟨rfl, rfl, _⟩ := h.not_dead hok hs
    exact h
  · refine h.step ht hk hd hok.1 ?_ hs
    rcases hs.poisoned with h1 | ⟨⟨b, rfl, _, hge, _⟩ | h1, _⟩
    · exact h1.trans h.refcount
    · exact absurd hok.2 hge
    · exact absurd h1 hd

theorem Locks.accept (h : Locks v t g) (hs : GStep v g v' g') : Locks v' t g' := by
  cases hs with
  | lock hf =>
    have hm : t.inMain = false := by
      have hm := h.main
      rw [(Mutex.free_eq_true.mp hf).1] at hm
      exact (Bool.or_eq_false_iff.mp hm.symm).1
    refine ⟨h.refcount, ?_, fun ht => ?_, h.poison, h.conn, h.connPoison, h.calm⟩
    · show true = (t.inMain || true)
      rw [Bool.or_true]
    · rw [hm] at ht
      cases ht
  | replace =>
    have hm : t.inMain = false := by
      cases ht : t.inMain with
      | false => rfl
      | true => cases h.apart ht
    refine ⟨h.refcount, ?_, fun _ => rfl, h.poison, h.conn, h.connPoison, h.calm⟩
    show false = (t.inMain || false)
    rw [hm]
    rfl
  | _ => exact ⟨h.refcount, h.main, h.apart, h.poison, h.conn, h.connPoison, h.calm⟩

/-! ## the job at hand ends -/

/-- a bound for the steps of `cleanup_bucket` from `k` on -/
def CleanupPc.rank (cfg : Cfg) : CleanupPc → ℕ
  | .load => cfg.io.httpConnections + 7
  | .respond _ => cfg.io.httpConnections + 6
  | .close _ => cfg.io.httpConnections + 5
  | .slots i => cfg.io.httpConnections - i + 4
  | .future => 3
  | .wipe => 2
  | .release => 1

/-- a bound for the steps from the outcome of a poll to the end of the job, with `cleanup_bucket`
run twice; 0 before the outcome -/
def TaskPc.rank (cfg : Cfg) : TaskPc → ℕ
  | .mainTaken _ => 2 * cfg.io.httpConnections + 20
  | .mainClosing _ _ => 2 * cfg.io.httpConnections + 19
  | .mainDropping _ => 2 * cfg.io.httpConnections + 18
  | .unwinding _ _ => 2 * cfg.io.httpConnections + 17
  | .poisoned _ _ => 2 * cfg.io.httpConnections + 16
  | .connDropping _ _ => 2 * cfg.io.httpConnections + 16
  | .cleanup _ f k =>
    k.rank cfg + match f.left with
      | none => cfg.io.httpConnections + 8
      | some _ => 0
  | .ready _ => 1
  | _ => 0

/-- After the outcome of a poll every step leads on, and at last to the next call of `dequeue`. -/
theorem TStep.rank_lt (hd : e ≠ .die) (hst : t.strands a = false) (hr : 0 < t.rank cfg)
    (hs : TStep cfg v t a v' t' e) :
    t' = .idle ∨ 0 < t'.rank cfg ∧ t'.rank cfg < t.rank cfg := by
  cases hs with
  | die => exact absurd rfl hd
  | connReserved => exact absurd rfl hd
  | connPanics => exact absurd rfl hd
  | readyZero => exact absurd rfl hd
  | slotPanics => exact absurd rfl hd
  | futurePanics => exact absurd rfl hd
  | alloc _ l n ht _ => rcases ht with ⟨b, rfl⟩ | ⟨b, i, rfl⟩ <;> exact absurd hr (lt_irrefl 0)
  | longjmp _ _ b ht =>
    rcases ht with ⟨k, rfl⟩ | rfl
    · exact absurd hr (lt_irrefl 0)
    · simp only [TaskPc.rank, CleanupPc.rank, Failure.thrown]
      omega
  | longjmpUnwinding => cases hst
  | longjmpConn _ _ b i _ ht =>
    rcases ht with rfl | rfl
    · exact absurd hr (lt_irrefl 0)
    · simp only [TaskPc.rank, CleanupPc.rank, Failure.thrown]
      omega
  | raise _ _ b owed h =>
    cases h with
    | main => exact absurd hr (lt_irrefl 0)
    | dropping => simp only [TaskPc.rank]; omega
  | readyLast => exact .inl rfl
  | readyMore => exact .inl rfl
  | release => exact .inl rfl
  | slotAgain b r i a p hi hf ho ha =>
    simp only [TaskPc.strands, ha, reduceCtorEq] at hst
  | futureAgain b r a p hf hs ha =>
    -- the first `cleanup_bucket` pays for the second
    obtain ⟨_, _, hl⟩ := own_of_strands ha hst
    simp only [TaskPc.rank, CleanupPc.rank, Failure.again, hl]
    omega
  | clearPoison => simp only [TaskPc.rank, CleanupPc.rank, Failure.caught]; omega
  | _ => simp only [TaskPc.rank, CleanupPc.rank] at hr ⊢; omega

end

/-! ## workers inside a bucket are alive -/

/-- the bucket whose jobs a worker is taking -/
def WorkerPc.inside : WorkerPc → Option ℕ
  | .running b => some b
  | .dequeued b _ => some b
  | _ => none

section
variable {W T : Type} [DecidableEq W] [DecidableEq T] [Fintype W]
variable {cfg : Cfg} {s s' : State W T}

/-- A call of `initial_enqueue` kills nobody and moves no worker but to the start of its loop. -/
theorem Queue.alive_of_callStep {q q' : Queue W T} {t : Thread W T} {waiter : Option W}
    {c : Enqueue} (h : q.callStep t waiter c = some q') :
    q'.alive = q.alive ∧ ∀ w, (q'.pc w).inside ≠ none → q'.pc w = q.pc w := by
  unfold Queue.callStep at h
  split at h
  · cases h; exact ⟨rfl, fun _ _ => rfl⟩
  · split at h <;> cases h <;> exact ⟨rfl, fun _ _ => rfl⟩
  · cases h; exact ⟨rfl, fun _ _ => rfl⟩
  · split at h
    · next w0 =>
      split at h
      · cases h
        refine ⟨rfl, fun w hw => ?_⟩
        by_cases e : w = w0
        · rw [e, Queue.pc_setPc, Function.update_self] at hw
          exact absurd rfl hw
        · rw [Queue.pc_setPc, Function.update_of_ne e]
          rfl
      · cases h
    · split at h
      · cases h; exact ⟨rfl, fun _ _ => rfl⟩
      · cases h
  · split at h <;> cases h <;> exact ⟨rfl, fun _ _ => rfl⟩
  · cases h

/-- A worker dies in the queue only outside of all buckets. -/
theorem Queue.alive_of_workStep {q q' : Queue W T} {w : W} (h : q.workStep cfg w = some q') :
    (∀ w', w' ≠ w → q'.pc w' = q.pc w' ∧ q'.alive w' = q.alive w') ∧
      ((q'.pc w).inside ≠ none → q'.alive w = q.alive w) := by
  have hset : ∀ (q1 : Queue W T) (p : WorkerPc), q1.pc = q.pc → q1.alive = q.alive →
      (∀ w', w' ≠ w → (q1.setPc w p).pc w' = q.pc w' ∧ (q1.setPc w p).alive w' = q.alive w') ∧
        (((q1.setPc w p).pc w).inside ≠ none → (q1.setPc w p).alive w = q.alive w) := by
    intro q1 p hp ha
    refine ⟨fun w' e => ⟨?_, congrFun ha w'⟩, fun _ => congrFun ha w⟩
    rw [Queue.pc_setPc, Function.update_of_ne e, hp]
  have hkill : ∀ q1 : Queue W T, q1.pc = q.pc → q1.alive = q.alive → (q.pc w).inside = none →
      (∀ w', w' ≠ w → (q1.kill w).pc w' = q.pc w' ∧ (q1.kill w).alive w' = q.alive w') ∧
        (((q1.kill w).pc w).inside ≠ none → (q1.kill w).alive w = q.alive w) := by
    intro q1 hp ha hn
    refine ⟨fun w' e => ⟨congrFun hp w', ?_⟩, fun h1 => ?_⟩
    · show Function.update q1.alive w false w' = _
      rw [Function.update_of_ne e, ha]
    · rw [Queue.pc_kill, hp] at h1
      exact absurd hn h1
  unfold Queue.workStep at h
  split at h
  · next hp =>
    split at h
    · cases h; exact hkill _ rfl rfl (by rw [hp]; rfl)
    · split at h <;> cases h <;> exact hset _ _ rfl rfl
  · cases h
  · split at h
    · split at h <;> cases h <;> exact hset _ _ rfl rfl
    · cases h; exact hset _ _ rfl rfl
  · next hp =>
    split at h
    · cases h; exact hset _ _ rfl rfl
    · cases h; exact hkill _ rfl rfl (by rw [hp]; rfl)
  · cases h
  · cases h; exact hset _ _ rfl rfl
  · next hp =>
    split at h
    · cases h; exact hset _ _ rfl rfl
    · split at h
      · cases h; exact hset _ _ rfl rfl
      · cases h; exact hkill _ rfl rfl (by rw [hp]; rfl)
  · next hp =>
    split at h
    · cases h; exact hset _ _ rfl rfl
    · split at h
      · cases h; exact hset _ _ rfl rfl
      · cases h; exact hkill _ rfl rfl (by rw [hp]; rfl)

/-- A worker that the queue lets into a bucket, or leaves there, is alive. -/
theorem Queue.alive_of_step {q q' : Queue W T} {a : QAct W T} (h : q.step cfg a = some q')
    (ha : ∀ w, a ≠ .die w) {w : W} (hw : (q'.pc w).inside ≠ none) :
    q'.alive w = true ∨ (q.pc w).inside ≠ none ∧ q'.alive w = q.alive w := by
  have hset : ∀ w0 p, q.alive w0 = true ∨ WorkerPc.inside p = none →
      ((q.setPc w0 p).pc w).inside ≠ none →
      q.alive w = true ∨ (q.pc w).inside ≠ none ∧ q.alive w = q.alive w := by
    intro w0 p hp hw
    by_cases e : w = w0
    · rw [e, Queue.pc_setPc, Function.update_self] at hw
      rcases hp with hp | hp
      · rw [e]
        exact .inl hp
      · exact absurd hp hw
    · rw [Queue.pc_setPc, Function.update_of_ne e] at hw
      exact .inr ⟨hw, rfl⟩
  cases a with
  | start t i =>
    simp only [Queue.step] at h
    split at h
    · obtain ⟨c, _, rfl⟩ := Option.map_eq_some_iff.mp h
      exact .inr ⟨hw, rfl⟩
    · cases h
  | call t waiter =>
    obtain ⟨c, _, hc⟩ := Option.bind_eq_some_iff.mp h
    obtain ⟨h1, h2⟩ := Queue.alive_of_callStep hc
    exact .inr ⟨by rw [← h2 w hw]; exact hw, congrFun h1 w⟩
  | spurious w0 =>
    simp only [Queue.step] at h
    split at h
    · cases h; exact hset w0 _ (.inr rfl) hw
    · cases h
  | work w0 =>
    simp only [Queue.step] at h
    split at h
    · next hal =>
      obtain ⟨h1, h2⟩ := Queue.alive_of_workStep h
      by_cases e : w = w0
      · subst e
        exact .inl ((h2 hw).trans hal)
      · rw [(h1 w e).1] at hw
        exact .inr ⟨hw, (h1 w e).2⟩
    · cases h
  | load w0 =>
    simp only [Queue.step] at h
    split at h
    · next hal =>
      unfold Queue.loadStep at h
      split at h
      · split at h <;> cases h <;> exact hset w0 _ (.inl hal) hw
      · cases h
    · cases h
  | finish w0 =>
    simp only [Queue.step] at h
    split at h
    · cases h; exact hset w0 _ (.inr rfl) hw
    · cases h
  | die w0 => exact absurd rfl (ha w0)

/-- an offset that `run_bucket` does not know -/
def State.Unknown (cfg : Cfg) (s : State W T) (w : W) : Prop :=
  ∃ b off, s.task w = .job b off ∧ dispatch cfg b off = none

/-- workers inside a bucket are alive -/
def State.Living (cfg : Cfg) (s : State W T) : Prop :=
  ∀ w, (s.q.pc w).inside ≠ none → s.q.alive w = true ∨ s.Unknown cfg w

/-- The queue moves, and tasks change at most for workers that are alive. -/
theorem State.Living.of_queue (h : s.Living cfg) {a : QAct W T}
    (hq : s.q.step cfg a = some s'.q) (ha : ∀ w, a ≠ .die w)
    (ht : ∀ w, s'.task w = s.task w ∨ s.q.alive w = true) : s'.Living cfg := by
  intro w hw
  rcases Queue.alive_of_step hq ha hw with h1 | ⟨h1, h2⟩
  · exact .inl h1
  · rcases h w h1 with h3 | h3
    · exact .inl (h2.trans h3)
    · rcases ht w with h4 | h4
      · obtain ⟨b, off, h5, h6⟩ := h3
        exact .inr ⟨b, off, h4.trans h5, h6⟩
      · exact .inl (h2.trans h4)

theorem State.Living.congr (h : s.Living cfg) (hq : s'.q = s.q)
    (ht : ∀ w, s'.task w = s.task w ∨ s.q.alive w = true) : s'.Living cfg := by
  intro w hw
  rw [hq] at hw ⊢
  rcases h w hw with h3 | ⟨b, off, h5, h6⟩
  · exact .inl h3
  · rcases ht w with h4 | h4
    · exact .inr ⟨b, off, h4.trans h5, h6⟩
    · exact .inl h4

theorem State.Living.emit (h : s.Living cfg) {t : Thread W T} {e : Effect}
    (hd : ∀ w, t = .worker w → e = .die → s.Unknown cfg w)
    (he : s.emit cfg t e = some s') : s'.Living cfg := by
  unfold State.emit at he
  split at he
  · obtain ⟨q, hq, rfl⟩ := Option.map_eq_some_iff.mp he
    exact h.of_queue hq nofun (fun _ => .inl rfl)
  · cases he; exact h.congr rfl (fun _ => .inl rfl)
  · split at he
    · next w0 =>
      obtain ⟨q, hq, rfl⟩ := Option.map_eq_some_iff.mp he
      cases hq
      intro w hw
      by_cases e : w = w0
      · rw [e]
        exact .inr (hd w0 rfl rfl)
      · show Function.update s.q.alive w0 false w = true ∨ _
        rw [Function.update_of_ne e]
        exact h w hw
    · cases he; exact h
  · split at he
    · obtain ⟨q, hq, rfl⟩ := Option.map_eq_some_iff.mp he
      exact h.of_queue hq nofun (fun _ => .inl rfl)
    · cases he
  · cases he; exact h

/-- **One survivable step leaves the workers inside buckets alive.** -/
theorem State.Living.step (h : s.Living cfg) (ha : Attached cfg s) (hl : s.Everywhere Locks)
    {a : Act W T} (hok : s.Admits survivable a) (hs : s.step cfg a = some s') : s'.Living cfg := by
  have hmap : ∀ a, (∀ w, a ≠ .die w) → (s.q.step cfg a).map s.setQ = some s' →
      s'.Living cfg := by
    intro a hd ha'
    obtain ⟨q, hq, rfl⟩ := Option.map_eq_some_iff.mp ha'
    exact h.of_queue hq hd (fun _ => .inl rfl)
  cases a with
  | incoming fd =>
    simp only [State.step] at hs
    split at hs
    · cases hs; exact h.congr rfl (fun _ => .inl rfl)
    · cases hs
  | accept busy =>
    simp only [State.step] at hs
    split at hs
    · obtain ⟨b, v, p, e, _, _, he⟩ := State.acceptStep_eq hs
      have h1 : ((s.setBucket b v).setAccept p).Living cfg := h.congr rfl (fun _ => .inl rfl)
      exact h1.emit (fun w hw => by cases hw) he
    · cases hs
  | wake t q =>
    simp only [State.step] at hs
    split at hs
    · exact hmap _ (fun w h => by cases h) hs
    · cases hs
  | call t waiter => exact hmap _ (fun w h => by cases h) hs
  | spurious w => exact hmap _ (fun w h => by cases h) hs
  | load w =>
    simp only [State.step] at hs
    split at hs
    · exact hmap _ (fun w h => by cases h) hs
    · cases hs
  | work w =>
    obtain ⟨q, hq, rfl⟩ := Option.map_eq_some_iff.mp hs
    refine h.of_queue hq (fun w h => by cases h) (fun w' => ?_)
    by_cases e : w' = w
    · subst e
      simp only [Queue.step] at hq
      split at hq
      · next hal => exact .inr hal
      · cases hq
    · exact .inl (Function.update_of_ne e _ _)
  | task w a =>
    simp only [State.step] at hs
    split at hs
    · next hal =>
      obtain ⟨b, v, t, e, hb, hts, he⟩ := State.taskStep_eq hs
      have h1 : ((s.setBucket b v).setTask w t).Living cfg := by
        refine h.congr rfl (fun w' => ?_)
        by_cases e : w' = w
        · subst e; exact .inr hal.1
        · exact .inl (Function.update_of_ne e _ _)
      refine h1.emit ?_ he
      rintro w' hw rfl
      cases hw
      have hok' : survivable (s.bucket b) (s.task w) (s.accept.gate b) a :=
        (State.admits_task hb).mp hok
      obtain ⟨_, h2, b', off, h3, h4⟩ := (hl.at_task ha hb).not_dead hok' hts
      refine ⟨b', off, ?_, h4⟩
      rw [State.setTask_task, Function.update_self]
      exact h2.trans h3
    · cases hs

/-! ## runs -/

end
end Nea
