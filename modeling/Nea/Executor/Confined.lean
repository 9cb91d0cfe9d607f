import Nea.Executor.Arrays
import Nea.Executor.System

/-!
# A request stays in its bucket

The three ways to index the arrays (by bucket, by queue index, by connection) agree: a worker inside
`run_bucket(b)` accesses entries of bucket `b` and of no other, in every arm.

* `Confined`          nothing but the entries of one bucket has changed;
* `Row`               a bucket is the row of the arrays;
* `At`                the locals of `run_bucket` belong to one bucket;
* `runStep_refines`   a step on the arrays is in bounds, confined, and the step of the row;
* `bucket_confined`   the same for whole executions, with any interference.
-/

set_option linter.unusedSectionVars false

namespace Nea

/-! ## entries of one bucket -/

/-- the arrays differ in the entries of bucket `b` at most -/
structure Confined (cfg : Cfg) (b : ℕ) (g g' : Inner) : Prop where
  refcounts : ∀ i, i ≠ b → g'.refcounts[i]? = g.refcounts[i]?
  futures : ∀ i, i ≠ b → g'.futures[i]? = g.futures[i]?
  tcpStreams : ∀ i, i ≠ b → g'.tcpStreams[i]? = g.tcpStreams[i]?
  connections : ∀ c, c ∉ Finset.Ico (cfg.io.httpStart b)
    (cfg.io.httpStart b + cfg.io.httpConnections) → g'.connections[c]? = g.connections[c]?
  remaining : ∀ i, i ≠ b → g'.remaining[i]? = g.remaining[i]?

/-- the future as the arrays have it: its handshakes are the indices of their connections -/
def MainFut.shift (start : ℕ) (f : MainFut) : MainFut := ⟨f.handshakes.map (start + ·)⟩

/-- bucket `b` of the arrays is `v` -/
structure Row (cfg : Cfg) (b : ℕ) (g : Inner) (v : Bucket) : Prop where
  refcount : g.refcounts[b]? = some v.refcount
  future : g.futures[b]? = some (v.future.map (Option.map (MainFut.shift (cfg.io.httpStart b))))
  tcpStream : g.tcpStreams[b]? = some v.tcpStream
  connections : ∀ i < cfg.io.httpConnections,
    g.connections[cfg.io.httpStart b + i]? = some (v.connections i)
  remaining : g.remaining[b]? = some v.remaining
  range : cfg.io.httpStart b + cfg.io.httpConnections ≤ g.connections.length
  handshakes : ∀ i ∈ v.handshakes, i < cfg.io.httpConnections

/-- the guard as the arrays have it -/
def Guard.shift (start : ℕ) : Guard → Guard
  | .future => .future
  | .conn i => .conn (start + i)

def Failure.shift (start : ℕ) (f : Failure) : Failure :=
  { f with guard := f.guard.shift start, left := f.left.map (·.shift start) }

theorem access_bind {α β : Type} {l : List α} {i : ℕ} {a : α} (h : l[i]? = some a)
    (f : α → Except OutOfBounds β) : (access l i >>= f) = f a := by
  unfold access
  rw [h]
  rfl

theorem accessLength_bind {β : Type} {length i : ℕ} (h : i < length)
    (f : Unit → Except OutOfBounds β) : (accessLength length i >>= f) = f () := by
  unfold accessLength
  rw [if_pos h]
  rfl

section
variable {cfg : Cfg} {b : ℕ} {g g' g'' : Inner} {v : Bucket}

theorem Confined.refl (cfg : Cfg) (b : ℕ) (g : Inner) : Confined cfg b g g :=
  ⟨fun _ _ => rfl, fun _ _ => rfl, fun _ _ => rfl, fun _ _ => rfl, fun _ _ => rfl⟩

theorem Confined.trans (h : Confined cfg b g g') (h' : Confined cfg b g' g'') :
    Confined cfg b g g'' where
  refcounts i hi := (h'.refcounts i hi).trans (h.refcounts i hi)
  futures i hi := (h'.futures i hi).trans (h.futures i hi)
  tcpStreams i hi := (h'.tcpStreams i hi).trans (h.tcpStreams i hi)
  connections c hc := (h'.connections c hc).trans (h.connections c hc)
  remaining i hi := (h'.remaining i hi).trans (h.remaining i hi)

theorem Confined.setRefcount (g : Inner) (m : Mutex ℕ) : Confined cfg b g (g.setRefcount b m) :=
  { Confined.refl cfg b g with
    refcounts := fun _ hi => List.getElem?_set_ne (Ne.symm hi) }

theorem Confined.setFuture (g : Inner) (m : Mutex (Option MainFut)) :
    Confined cfg b g (g.setFuture b m) :=
  { Confined.refl cfg b g with
    futures := fun _ hi => List.getElem?_set_ne (Ne.symm hi) }

theorem Confined.setRemaining (g : Inner) (n : ℕ) : Confined cfg b g (g.setRemaining b n) :=
  { Confined.refl cfg b g with
    remaining := fun _ hi => List.getElem?_set_ne (Ne.symm hi) }

theorem Confined.setConn (g : Inner) {i : ℕ} (hi : i < cfg.io.httpConnections) (m : Mutex Slot) :
    Confined cfg b g (g.setConn (cfg.io.httpStart b + i) m) :=
  { Confined.refl cfg b g with
    connections := fun c hc => List.getElem?_set_ne (by
      rintro rfl
      exact hc (Finset.mem_Ico.mpr ⟨by omega, by omega⟩)) }

theorem getElem?_set_of_some {α : Type} {l : List α} {i : ℕ} {a a' : α} (h : l[i]? = some a) :
    (l.set i a')[i]? = some a' := by
  rw [List.getElem?_set_self]
  exact (List.getElem?_eq_some_iff.mp h).1

/-! ## the row of a bucket follows the arrays -/

theorem Row.setRefcount (h : Row cfg b g v) (m : Mutex ℕ) :
    Row cfg b (g.setRefcount b m) (v.setRefcount m) :=
  { h with refcount := getElem?_set_of_some h.refcount }

theorem Row.setRemaining (h : Row cfg b g v) (n : ℕ) :
    Row cfg b (g.setRemaining b n) (v.setRemaining n) :=
  { h with remaining := getElem?_set_of_some h.remaining }

theorem Row.log (h : Row cfg b g v) (e : FdEvent) : Row cfg b g (v.log e) := { h with }

/-- The future changes, and its handshakes stay in the range of the bucket. -/
theorem Row.setFuture (h : Row cfg b g v) {m : Mutex (Option MainFut)}
    (hm : ∀ f, m.val = some f → ∀ i ∈ f.handshakes, i < cfg.io.httpConnections) :
    Row cfg b (g.setFuture b (m.map (Option.map (MainFut.shift (cfg.io.httpStart b)))))
      (v.setFuture m) :=
  { h with
    future := getElem?_set_of_some h.future
    handshakes := fun i hi => by
      unfold Bucket.handshakes at hi
      rw [Bucket.setFuture_future] at hi
      cases hv : m.val with
      | none => rw [hv] at hi; cases hi
      | some f => rw [hv] at hi; exact hm f hv i hi }

/-- The guard of the future is taken or dropped. -/
theorem Row.setFuture_same (h : Row cfg b g v) {m : Mutex (Option MainFut)}
    (hm : m.val = v.future.val) :
    Row cfg b (g.setFuture b (m.map (Option.map (MainFut.shift (cfg.io.httpStart b)))))
      (v.setFuture m) :=
  h.setFuture (fun f hf i hi => h.handshakes i (by
    unfold Bucket.handshakes
    rw [← hm, hf]
    exact hi))

theorem Row.setConn (h : Row cfg b g v) {i : ℕ} (hi : i < cfg.io.httpConnections)
    (m : Mutex Slot) : Row cfg b (g.setConn (cfg.io.httpStart b + i) m) (v.setConn i m) :=
  { h with
    connections := fun j hj => by
      show (g.connections.set (cfg.io.httpStart b + i) m)[cfg.io.httpStart b + j]?
        = some (Function.update v.connections i m j)
      by_cases e : j = i
      · subst e
        rw [Function.update_self]
        exact getElem?_set_of_some (h.connections j hj)
      · rw [Function.update_of_ne e, List.getElem?_set_ne (by omega)]
        exact h.connections j hj
    range := by
      show _ ≤ (g.connections.set _ m).length
      rw [List.length_set]
      exact h.range }

/-- A guard of the bucket is dropped. -/
theorem Row.dropGuard (h : Row cfg b g v) {bi : BucketIndex} (hb : bi.index.toNat = b)
    {guard : Guard} (hg : ∀ i, guard = .conn i → i < cfg.io.httpConnections) (p : Bool) :
    ∃ g', g.dropGuard bi (guard.shift (cfg.io.httpStart b)) p = .ok g' ∧ Confined cfg b g g' ∧
      Row cfg b g' (v.dropGuard guard p) := by
  cases guard with
  | future =>
    simp only [Guard.shift, Inner.dropGuard, hb, access_bind h.future, Mutex.leave_map]
    exact ⟨_, rfl, .setFuture g _, h.setFuture_same (Mutex.val_leave ..)⟩
  | conn i =>
    simp only [Guard.shift, Inner.dropGuard, access_bind (h.connections i (hg i rfl))]
    exact ⟨_, rfl, .setConn g (hg i rfl) _, h.setConn (hg i rfl) _⟩

theorem handshakes_shift (v : Bucket) :
    Inner.handshakes (v.future.map (Option.map (MainFut.shift (cfg.io.httpStart b))))
      = v.handshakes.map (cfg.io.httpStart b + ·) := by
  unfold Inner.handshakes Bucket.handshakes
  rw [Mutex.val_map]
  cases v.future.val <;> rfl

/-- The polled future changes its handshakes. -/
theorem Row.setHandshakes (h : Row cfg b g v) {l : List ℕ}
    (hl : ∀ i ∈ l, i < cfg.io.httpConnections) :
    Row cfg b (g.setFuture b ((v.future.map (Option.map (MainFut.shift (cfg.io.httpStart b)))).set
      (some ⟨l.map (cfg.io.httpStart b + ·)⟩))) (v.setHandshakes l) := by
  refine h.setFuture (m := v.future.set (some ⟨l⟩)) (fun f hf => ?_)
  cases hf
  exact hl

theorem map_erase_shift (s : ℕ) (l : List ℕ) (i : ℕ) :
    (l.map (s + ·)).erase (s + i) = (l.erase i).map (s + ·) :=
  (List.map_erase (fun _ _ h => Nat.add_left_cancel h) l).symm

end

/-! ## the locals belong to one bucket -/

/-- the locals of `handshake`, next to its place in the row -/
inductive CallAt (cfg : Cfg) (b : ℕ) : CallPc → HandshakePc → Prop where
  | polling : CallAt cfg b .polling .polling
  | count (bi : BucketIndex) (hb : bi.index.toNat = b) : CallAt cfg b (.count bi) .count
  | search (bi : BucketIndex) (i : ℕ) (counted : Bool) (hb : bi.index.toNat = b) :
      CallAt cfg b (.search bi i counted) (.search i counted)
  | enqueue (i : ℕ) (hi : i < cfg.io.httpConnections) :
      CallAt cfg b (.enqueue (cfg.io.httpStart b + i)) (.enqueue i)

def CleanupPc.shift (start : ℕ) : CleanupPc → CleanupPc
  | .slots i => .slots (start + i)
  | k => k

/-- the locals of `run_bucket`, next to the place of the worker in the row -/
inductive At (cfg : Cfg) (b : ℕ) : RunPc → TaskPc → Prop where
  | idle : At cfg b .idle .idle
  | job (off : ℕ) (h : IsTask cfg b off) : At cfg b (.job off) (.job b off)
  | takeMain (bi : BucketIndex) (q : QueueIndex) (hb : bi.index.toNat = b)
      (hq : q.toBucketIndex cfg.io = some bi) : At cfg b (.takeMain bi q) (.takeMain b)
  | main (bi : BucketIndex) (q : QueueIndex) (k : CallPc) (k' : HandshakePc)
      (hb : bi.index.toNat = b) (hq : q.toBucketIndex cfg.io = some bi) (hk : CallAt cfg b k k') :
      At cfg b (.main bi q k) (.main b k')
  | mainTaken (bi : BucketIndex) (q : QueueIndex) (hb : bi.index.toNat = b)
      (hq : q.toBucketIndex cfg.io = some bi) : At cfg b (.mainTaken bi q) (.mainTaken b)
  | mainClosing (bi : BucketIndex) (fd : RawFd) (hb : bi.index.toNat = b) :
      At cfg b (.mainClosing bi fd) (.mainClosing b fd)
  | mainDropping (bi : BucketIndex) (hb : bi.index.toNat = b) :
      At cfg b (.mainDropping bi) (.mainDropping b)
  | unwinding (bi : BucketIndex) (owed : Bool) (hb : bi.index.toNat = b) :
      At cfg b (.unwinding bi owed) (.unwinding b owed)
  | poisoned (bi : BucketIndex) (owed : Bool) (hb : bi.index.toNat = b) :
      At cfg b (.poisoned bi owed) (.poisoned b owed)
  | takeConn (c : ConnectionIndex) (i : ℕ) (hi : i < cfg.io.httpConnections)
      (hc : c.index.toNat = cfg.io.httpStart b + i) : At cfg b (.takeConn c) (.takeConn b i)
  | conn (c : ConnectionIndex) (i : ℕ) (hi : i < cfg.io.httpConnections)
      (hc : c.index.toNat = cfg.io.httpStart b + i) : At cfg b (.conn c) (.conn b i)
  | connDropping (c : ConnectionIndex) (i : ℕ) (hi : i < cfg.io.httpConnections)
      (hc : c.index.toNat = cfg.io.httpStart b + i) : At cfg b (.connDropping c) (.connDropping b i)
  | ready : At cfg b .ready (.ready b)
  | cleanup (bi : BucketIndex) (f : Failure) (k : CleanupPc) (hb : bi.index.toNat = b)
      (hf : ∀ i, f.guard = .conn i → i < cfg.io.httpConnections) :
      At cfg b (.cleanup bi (f.shift (cfg.io.httpStart b)) (k.shift (cfg.io.httpStart b)))
        (.cleanup b f k)

/-- what is known of the jobs that are dequeued and of the arguments of `handshake` -/
def RunAct.Own (cfg : Cfg) (b : ℕ) : RunAct → Prop
  | .dequeue off => IsTask cfg b off
  | .connect bi => bi.index.toNat = b
  | _ => True

/-- the same action on the row -/
def RunAct.task (start : ℕ) : RunAct → TaskAct
  | .dequeue _ => .step
  | .step => .step
  | .alloc l => .alloc l
  | .connect _ => .connect
  | .populate c => .populate (c - start)
  | .forget c => .forget (c - start)
  | .pending => .pending
  | .ready => .ready
  | .panic => .panic
  | .oom => .oom
  | .panicOom => .panicOom

/-- no access is out of bounds, and a step that is made stays in bucket `b`, whose row makes it as
well -/
def Refines (cfg : Cfg) (b : ℕ) (g : Inner) (v : Bucket) (t : TaskPc) (a : TaskAct)
    (o : RunResult) : Prop :=
  ∃ r, o = .ok r ∧ ∀ g' l' e, r = some (g', l', e) → Confined cfg b g g' ∧
    ∃ v' t', At cfg b l' t' ∧ Row cfg b g' v' ∧ v.taskStep cfg t a = some (v', t', e)

section
variable {cfg : Cfg} {b : ℕ} {g g' : Inner} {v v' : Bucket} {t t' : TaskPc} {l' : RunPc}
variable {a : TaskAct} {e : Effect} {bi outer : BucketIndex} {q : QueueIndex}

theorem Refines.blocked : Refines cfg b g v t a (.ok none) :=
  ⟨none, rfl, fun _ _ _ h => by cases h⟩

theorem Refines.stepped (hc : Confined cfg b g g') (hrow : Row cfg b g' v') (hat : At cfg b l' t')
    (hs : v.taskStep cfg t a = some (v', t', e)) :
    Refines cfg b g v t a (.ok (some (g', l', e))) := by
  refine ⟨_, rfl, fun g1 l1 e1 h => ?_⟩
  cases h
  exact ⟨hc, v', t', hat, hrow, hs⟩

/-- Memory runs out in an arm whose guard is of the bucket. -/
theorem longjmp_refines (hrow : Row cfg b g v) (hb : bi.index.toNat = b) (guard : Guard)
    (hg : ∀ i, guard = .conn i → i < cfg.io.httpConnections) {p : Bool}
    (hs : v.taskStep cfg t a = v.longjmp b guard p) :
    Refines cfg b g v t a (g.longjmp bi (guard.shift (cfg.io.httpStart b)) p) := by
  obtain ⟨g', hd, hc, hrow'⟩ := hrow.dropGuard hb hg p
  unfold Inner.longjmp
  rw [hd]
  exact .stepped hc hrow' (.cleanup bi (.thrown guard p) .load hb hg) hs

theorem longjmp_future_refines (hrow : Row cfg b g v) (hb : bi.index.toNat = b) {p : Bool}
    (hs : v.taskStep cfg t a = v.longjmp b .future p) :
    Refines cfg b g v t a (g.longjmp bi .future p) :=
  longjmp_refines hrow hb .future (fun _ h => by cases h) hs

theorem longjmp_conn_refines {c : ConnectionIndex} {i : ℕ} (hrow : Row cfg b g v)
    (ho : outer.index.toNat = b) (hi : i < cfg.io.httpConnections)
    (hc : c.index.toNat = cfg.io.httpStart b + i) {p : Bool}
    (hs : v.taskStep cfg t a = v.longjmp b (.conn i) p) :
    Refines cfg b g v t a (g.longjmp outer (.conn c.index.toNat) p) := by
  rw [hc]
  exact longjmp_refines hrow ho (.conn i) (fun _ h => by cases h; exact hi) hs

theorem allocate_eq (hrow : Row cfg b g v) (ho : outer.index.toNat = b) (l : Layout) :
    g.allocate outer l = v.allocate l := by
  unfold Inner.allocate Bucket.allocate
  rw [ho, hrow.remaining, Option.bind_some]

theorem mem_handshakes (c : ℕ) :
    c ∈ Inner.handshakes (v.future.map (Option.map (MainFut.shift (cfg.io.httpStart b)))) ↔
      ∃ i ∈ v.handshakes, cfg.io.httpStart b + i = c := by
  rw [handshakes_shift, List.mem_map]

/-- The poll of a main future. -/
theorem pollMain_refines (hrow : Row cfg b g v) (ho : outer.index.toNat = b)
    (hb : bi.index.toNat = b) (hq : q.toBucketIndex cfg.io = some bi) {a : RunAct}
    (ha : a.Own cfg b) : Refines cfg b g v (.main b .polling) (a.task (cfg.io.httpStart b))
      (g.pollMain outer bi q a) := by
  have hat : At cfg b (.main bi q .polling) (.main b .polling) := .main bi q _ _ hb hq .polling
  cases a with
  | dequeue off => exact .blocked
  | step => exact .blocked
  | alloc l =>
    simp only [Inner.pollMain, allocate_eq hrow ho l, ho]
    cases hn : v.allocate l with
    | none =>
      refine longjmp_future_refines hrow hb ?_
      simp only [RunAct.task, Bucket.taskStep, Bucket.pollMain, hn]
    | some n =>
      refine .stepped (.setRemaining g n) (hrow.setRemaining n) hat ?_
      simp only [RunAct.task, Bucket.taskStep, Bucket.pollMain, hn]
  | connect hb' => exact .stepped (.refl cfg b g) hrow (.main bi q _ _ hb hq (.count hb' ha)) rfl
  | populate c =>
    simp only [Inner.pollMain, hb, access_bind hrow.future]
    by_cases hc : c ∈ Inner.handshakes
        (v.future.map (Option.map (MainFut.shift (cfg.io.httpStart b))))
    · obtain ⟨i, hi, rfl⟩ := (mem_handshakes c).mp hc
      have hlt := hrow.handshakes i hi
      rw [if_pos hc, access_bind (hrow.connections i hlt), handshakes_shift, map_erase_shift]
      have hstep : v.taskStep cfg (.main b .polling)
          (RunAct.task (cfg.io.httpStart b) (.populate (cfg.io.httpStart b + i)))
          = v.pollMain b (.populate i) := by
        show v.pollMain b (.populate (cfg.io.httpStart b + i - cfg.io.httpStart b)) = _
        rw [Nat.add_sub_cancel_left]
      simp only [Bucket.pollMain, if_pos hi] at hstep
      by_cases hf : (v.connections i).free = true
      · rw [if_pos hf] at hstep ⊢
        by_cases hr : (v.connections i).val = .reserved
        · rw [if_pos hr] at hstep ⊢
          have hrow' := (hrow.setConn hlt ((v.connections i).set .occupied)).setHandshakes
            (l := v.handshakes.erase i) (fun j hj => hrow.handshakes j (List.mem_of_mem_erase hj))
          exact .stepped ((Confined.setConn g hlt _).trans (.setFuture _ _)) hrow'
            (.main bi q _ _ hb hq (.enqueue i hlt)) hstep
        · rw [if_neg hr] at hstep ⊢
          exact .stepped (.setConn g hlt _) (hrow.setConn hlt _) (.unwinding bi false hb) hstep
      · rw [if_neg hf] at hstep ⊢
        exact .stepped (.refl cfg b g) hrow (.unwinding bi false hb) hstep
    · rw [if_neg hc]
      exact .blocked
  | forget c =>
    simp only [Inner.pollMain, hb, access_bind hrow.future]
    by_cases hc : c ∈ Inner.handshakes
        (v.future.map (Option.map (MainFut.shift (cfg.io.httpStart b))))
    · obtain ⟨i, hi, rfl⟩ := (mem_handshakes c).mp hc
      rw [if_pos hc, handshakes_shift, map_erase_shift]
      refine .stepped (.setFuture g _) (hrow.setHandshakes (l := v.handshakes.erase i)
        (fun j hj => hrow.handshakes j (List.mem_of_mem_erase hj))) hat ?_
      show v.pollMain b (.forget (cfg.io.httpStart b + i - cfg.io.httpStart b)) = _
      rw [Nat.add_sub_cancel_left]
      simp only [Bucket.pollMain, if_pos hi]
    · rw [if_neg hc]
      exact .blocked
  | pending =>
    simp only [Inner.pollMain, hb, access_bind hrow.future]
    exact .stepped (.setFuture g _) (hrow.setFuture_same (m := v.future.unlock) rfl) .idle rfl
  | ready =>
    simp only [Inner.pollMain, hb, access_bind hrow.future]
    exact .stepped (.setFuture g _) (hrow.setFuture (m := v.future.set none) (fun _ h => by cases h))
      (.mainTaken bi q hb hq) rfl
  | panic => exact .stepped (.refl cfg b g) hrow (.unwinding bi false hb) rfl
  | oom => exact longjmp_future_refines hrow hb rfl
  | panicOom => exact .blocked

/-- The poll of a connection. -/
theorem pollConn_refines {c : ConnectionIndex} {i : ℕ} (hrow : Row cfg b g v)
    (ho : outer.index.toNat = b) (hi : i < cfg.io.httpConnections)
    (hc : c.index.toNat = cfg.io.httpStart b + i) (a : RunAct) :
    Refines cfg b g v (.conn b i) (a.task (cfg.io.httpStart b)) (g.pollConn outer c a) := by
  have hconn := hrow.connections i hi
  cases a with
  | alloc l =>
    simp only [Inner.pollConn, allocate_eq hrow ho l, ho]
    cases hn : v.allocate l with
    | none =>
      refine longjmp_conn_refines hrow ho hi hc ?_
      simp only [RunAct.task, Bucket.taskStep, Bucket.pollConn, hn]
    | some n =>
      refine .stepped (.setRemaining g n) (hrow.setRemaining n) (.conn c i hi hc) ?_
      simp only [RunAct.task, Bucket.taskStep, Bucket.pollConn, hn]
  | pending =>
    simp only [Inner.pollConn, hc, access_bind hconn]
    exact .stepped (.setConn g hi _) (hrow.setConn hi _) .idle rfl
  | ready =>
    simp only [Inner.pollConn, hc, access_bind hconn]
    exact .stepped (.setConn g hi _) (hrow.setConn hi _) (.connDropping c i hi hc) rfl
  | panic =>
    simp only [Inner.pollConn, hc, access_bind hconn]
    exact .stepped (.setConn g hi _) (hrow.setConn hi _) (.conn c i hi hc) rfl
  | oom => exact longjmp_conn_refines hrow ho hi hc rfl
  | panicOom => exact longjmp_conn_refines hrow ho hi hc rfl
  | _ => exact .blocked

/-- The last step of a task. -/
theorem readyStep_refines (hrow : Row cfg b g v) (ho : outer.index.toNat = b) :
    Refines cfg b g v (.ready b) .step (g.readyStep cfg outer) := by
  unfold Inner.readyStep
  rw [ho, access_bind hrow.refcount]
  have hstep : ∀ {o : Option (Bucket × TaskPc × Effect)}, v.taskStep cfg (.ready b) .step = o →
      (if v.refcount.poisoned then some (v, TaskPc.ready b, Effect.die)
        else if v.refcount.val = 0 then
          some (v.setRefcount v.refcount.unwind, TaskPc.ready b, Effect.die)
        else if v.refcount.val = 1 then
          some ((v.setRemaining cfg.bucketSize).setRefcount (v.refcount.set 0), TaskPc.idle,
            Effect.forever)
        else some (v.setRefcount (v.refcount.set (v.refcount.val - 1)), TaskPc.idle, Effect.none))
      = o := fun h => h
  have hstep := hstep rfl
  by_cases hp : v.refcount.poisoned = true
  · rw [if_pos hp] at hstep ⊢
    exact .stepped (.refl cfg b g) hrow .ready hstep.symm
  · rw [if_neg hp] at hstep ⊢
    by_cases h0 : v.refcount.val = 0
    · rw [if_pos h0] at hstep ⊢
      exact .stepped (.setRefcount g _) (hrow.setRefcount _) .ready hstep.symm
    · rw [if_neg h0] at hstep ⊢
      by_cases h1 : v.refcount.val = 1
      · rw [if_pos h1] at hstep ⊢
        rw [access_bind hrow.remaining]
        exact .stepped ((Confined.setRemaining g _).trans (.setRefcount _ _))
          ((hrow.setRemaining _).setRefcount _) .idle hstep.symm
      · rw [if_neg h1] at hstep ⊢
        exact .stepped (.setRefcount g _) (hrow.setRefcount _) .idle hstep.symm

theorem start_eq (hb : bi.index.toNat = b) : bi.start cfg.io = cfg.io.httpStart b := by
  unfold BucketIndex.start IoResources.httpStart
  rw [hb]

theorem stop_eq (hb : bi.index.toNat = b) :
    bi.stop cfg.io = cfg.io.httpStart b + cfg.io.httpConnections := by
  unfold BucketIndex.stop
  rw [start_eq hb]

section
variable (hrow : Row cfg b g v) (hb : bi.index.toNat = b) {f : Failure}
variable (hf : ∀ i, f.guard = .conn i → i < cfg.io.httpConnections)
include hb hf

/-- A destructor in `cleanup_bucket` runs out of memory, and leaves the bucket as `v'`. -/
theorem longjmpAgain_refines (hc : Confined cfg b g g') (hrow' : Row cfg b g' v') (left : Guard)
    {p : Bool} (hs : v.taskStep cfg t a = v'.longjmpAgain b f left p) :
    Refines cfg b g v t a (g'.longjmpAgain bi (f.shift (cfg.io.httpStart b))
      (left.shift (cfg.io.httpStart b)) p) := by
  obtain ⟨g'', hd, hc', hrow''⟩ := hrow'.dropGuard hb hf (f.panicking || p)
  unfold Inner.longjmpAgain
  simp only [Failure.shift, hd]
  exact .stepped (hc.trans hc') hrow'' (.cleanup bi (f.again left p) .load hb hf) hs

include hrow

theorem slotAgain_refines (i : ℕ) (p : Bool)
    (hs : v.taskStep cfg (.cleanup b f (.slots i)) a =
      if i < cfg.io.httpConnections ∧ (v.connections i).free ∧ (v.connections i).val = .occupied then
        (v.setConn i (v.connections i).lock).longjmpAgain b f (.conn i) p
      else none) :
    Refines cfg b g v (.cleanup b f (.slots i)) a (g.slotAgain cfg bi
      (f.shift (cfg.io.httpStart b)) (cfg.io.httpStart b + i) p) := by
  simp only [Inner.slotAgain, stop_eq hb, Nat.add_lt_add_iff_left]
  by_cases hi : i < cfg.io.httpConnections
  · rw [if_pos hi, access_bind (hrow.connections i hi)]
    by_cases ho : (v.connections i).free = true ∧ (v.connections i).val = .occupied
    · rw [if_pos ho]
      rw [if_pos ⟨hi, ho⟩] at hs
      exact longjmpAgain_refines hb hf (.setConn g hi _) (hrow.setConn hi _) (.conn i) hs
    · rw [if_neg ho]
      exact .blocked
  · rw [if_neg hi]
    exact .blocked

theorem futureAgain_refines (p : Bool)
    (hs : v.taskStep cfg (.cleanup b f .future) a =
      if v.future.free ∧ v.future.val.isSome then
        (v.setFuture (v.future.set none).lock).longjmpAgain b f .future p
      else none) :
    Refines cfg b g v (.cleanup b f .future) a (g.futureAgain bi
      (f.shift (cfg.io.httpStart b)) p) := by
  simp only [Inner.futureAgain, hb, access_bind hrow.future, Mutex.free_map, Mutex.val_map,
    Option.isSome_map]
  by_cases ho : v.future.free = true ∧ v.future.val.isSome = true
  · rw [if_pos ho]
    rw [if_pos ho] at hs
    have hrow' := hrow.setFuture (m := (v.future.set none).lock) (fun _ h => by cases h)
    exact longjmpAgain_refines hb hf (.setFuture g _) hrow' .future hs
  · rw [if_neg ho]
    exact .blocked

/-- The loop of `cleanup_bucket` over the slots. -/
theorem cleanupSlots_refines (i : ℕ) (a : RunAct) :
    Refines cfg b g v (.cleanup b f (.slots i)) (a.task (cfg.io.httpStart b))
      (g.cleanupStep cfg bi (f.shift (cfg.io.httpStart b))
        (CleanupPc.shift (cfg.io.httpStart b) (.slots i)) a) := by
  have hrefl := Confined.refl cfg b g
  have hat : ∀ k, At cfg b (.cleanup bi (f.shift (cfg.io.httpStart b))
      (k.shift (cfg.io.httpStart b))) (.cleanup b f k) := fun k => .cleanup bi f k hb hf
  cases a with
  | step =>
    simp only [CleanupPc.shift, Inner.cleanupStep, stop_eq hb, Nat.add_lt_add_iff_left]
    by_cases hi : i < cfg.io.httpConnections
    · rw [if_pos hi, access_bind (hrow.connections i hi)]
      by_cases hfree : (v.connections i).free = true
      · rw [if_pos hfree]
        refine .stepped (.setConn g hi _) (hrow.setConn hi _) (hat (.slots (i + 1))) ?_
        simp only [RunAct.task, Bucket.taskStep, Bucket.cleanupStep, if_pos hi, if_pos hfree]
      · rw [if_neg hfree]
        refine .stepped hrefl hrow (hat (.slots i)) ?_
        simp only [RunAct.task, Bucket.taskStep, Bucket.cleanupStep, if_pos hi, if_neg hfree]
    · rw [if_neg hi]
      refine .stepped hrefl hrow (hat .future) ?_
      simp only [RunAct.task, Bucket.taskStep, Bucket.cleanupStep, if_neg hi]
  | panic =>
    simp only [CleanupPc.shift, Inner.cleanupStep, stop_eq hb, Nat.add_lt_add_iff_left]
    by_cases hi : i < cfg.io.httpConnections
    · rw [if_pos hi, access_bind (hrow.connections i hi)]
      by_cases ho : (v.connections i).free = true ∧ (v.connections i).val = .occupied
      · rw [if_pos ho]
        refine .stepped (.setConn g hi _) (hrow.setConn hi _) (hat (.slots i)) ?_
        simp only [RunAct.task, Bucket.taskStep, Bucket.cleanupStep, if_pos (And.intro hi ho),
          Failure.shift]
      · rw [if_neg ho]
        exact .blocked
    · rw [if_neg hi]
      exact .blocked
  | oom => exact slotAgain_refines hrow hb hf i false rfl
  | panicOom => exact slotAgain_refines hrow hb hf i true rfl
  | _ => exact .blocked

/-- The part of `cleanup_bucket` that empties the place of the main future. -/
theorem cleanupFuture_refines (a : RunAct) :
    Refines cfg b g v (.cleanup b f .future) (a.task (cfg.io.httpStart b))
      (g.cleanupStep cfg bi (f.shift (cfg.io.httpStart b))
        (CleanupPc.shift (cfg.io.httpStart b) .future) a) := by
  have hrefl := Confined.refl cfg b g
  have hat : ∀ k, At cfg b (.cleanup bi (f.shift (cfg.io.httpStart b))
      (k.shift (cfg.io.httpStart b))) (.cleanup b f k) := fun k => .cleanup bi f k hb hf
  cases a with
  | step =>
    simp only [CleanupPc.shift, Inner.cleanupStep, hb, access_bind hrow.future]
    by_cases hp : v.future.poisoned = true
    · rw [if_pos ((Mutex.poisoned_map ..).trans hp)]
      refine .stepped hrefl hrow (hat .future) ?_
      simp only [RunAct.task, Bucket.taskStep, Bucket.cleanupStep, if_pos hp]
    · rw [if_neg (by rw [Mutex.poisoned_map]; exact hp)]
      by_cases hl : v.future.locked = true
      · rw [if_pos ((Mutex.locked_map ..).trans hl)]
        exact .blocked
      · rw [if_neg (by rw [Mutex.locked_map]; exact hl)]
        have hrow' := hrow.setFuture (m := v.future.set none) (fun _ h => by cases h)
        refine .stepped (.setFuture g _) hrow' (hat .wipe) ?_
        simp only [RunAct.task, Bucket.taskStep, Bucket.cleanupStep, if_neg hp, if_neg hl]
  | panic =>
    simp only [CleanupPc.shift, Inner.cleanupStep, hb, access_bind hrow.future, Mutex.free_map,
      Mutex.val_map, Option.isSome_map]
    by_cases ho : v.future.free = true ∧ v.future.val.isSome = true
    · rw [if_pos ho]
      have hrow' := hrow.setFuture (m := (v.future.set none).leave (!f.panicking)) (fun _ h => by
        rw [Mutex.val_leave] at h
        cases h)
      have hleave : ((v.future.map (Option.map (MainFut.shift (cfg.io.httpStart b)))).set
          none).leave (!f.panicking) = ((v.future.set none).leave (!f.panicking)).map
            (Option.map (MainFut.shift (cfg.io.httpStart b))) :=
        Mutex.leave_map (Option.map (MainFut.shift (cfg.io.httpStart b))) (v.future.set none) _
      rw [← hleave] at hrow'
      refine .stepped (.setFuture g _) hrow' (hat .future) ?_
      simp only [RunAct.task, Bucket.taskStep, Bucket.cleanupStep, if_pos ho]
    · rw [if_neg ho]
      exact .blocked
  | oom => exact futureAgain_refines hrow hb hf false rfl
  | panicOom => exact futureAgain_refines hrow hb hf true rfl
  | _ => exact .blocked

/-- `cleanup_bucket`: its range is that of the connections of the bucket. -/
theorem cleanupStep_refines (k : CleanupPc) (a : RunAct) :
    Refines cfg b g v (.cleanup b f k) (a.task (cfg.io.httpStart b))
      (g.cleanupStep cfg bi (f.shift (cfg.io.httpStart b)) (k.shift (cfg.io.httpStart b)) a) := by
  have hrefl := Confined.refl cfg b g
  have hat : ∀ k, At cfg b (.cleanup bi (f.shift (cfg.io.httpStart b))
      (k.shift (cfg.io.httpStart b))) (.cleanup b f k) := fun k => .cleanup bi f k hb hf
  cases k with
  | load =>
    cases a with
    | step =>
      simp only [CleanupPc.shift, Inner.cleanupStep, hb, access_bind hrow.tcpStream]
      exact .stepped hrefl (hrow.log _) (hat (.respond v.tcpStream)) rfl
    | _ => exact .blocked
  | respond fd =>
    cases a with
    | step => exact .stepped hrefl hrow (hat (.close fd)) rfl
    | _ => exact .blocked
  | close fd =>
    cases a with
    | step =>
      simp only [CleanupPc.shift, Inner.cleanupStep, start_eq hb]
      exact .stepped hrefl hrow (hat (.slots 0)) rfl
    | _ => exact .blocked
  | slots i => exact cleanupSlots_refines hrow hb hf i a
  | future => exact cleanupFuture_refines hrow hb hf a
  | wipe =>
    cases a with
    | step =>
      simp only [CleanupPc.shift, Inner.cleanupStep, hb, access_bind hrow.remaining]
      exact .stepped (.setRemaining g _) (hrow.setRemaining _) (hat .release) rfl
    | _ => exact .blocked
  | release =>
    cases a with
    | step =>
      simp only [CleanupPc.shift, Inner.cleanupStep, hb, access_bind hrow.refcount]
      by_cases hp : v.refcount.poisoned = true
      · rw [if_pos hp]
        refine .stepped hrefl hrow (hat .release) ?_
        simp only [RunAct.task, Bucket.taskStep, Bucket.cleanupStep, if_pos hp]
      · rw [if_neg hp]
        refine .stepped (.setRefcount g _) (hrow.setRefcount _) .idle ?_
        simp only [RunAct.task, Bucket.taskStep, Bucket.cleanupStep, if_neg hp]
    | _ => exact .blocked

end

section
variable (ht : 1 ≤ cfg.io.tcpStreams) (hp : cfg.io.perBucket ≤ 64) (hs : cfg.Serves b)
include ht hp hs

/-- What `handshake` computes from a slot of its bucket. -/
theorem conn_index {i : ℕ} (hi : i < cfg.io.httpConnections) :
    cfg.io.httpStart b + i < 2^32 ∧ ∃ index slot c,
      QueueIndex.fromConnectionIndex cfg.io ⟨0, .ofNat (cfg.io.httpStart b + i)⟩ = some index ∧
      index.index.toNat < cfg.bucketCount * cfg.io.perBucket ∧
      index.toBucketIndex cfg.io = some slot ∧ slot.index.toNat = b ∧
      initialEnqueue cfg index = some c := by
  have hsum : cfg.io.perBucket = cfg.io.tcpStreams + cfg.io.httpConnections := rfl
  have hoff : cfg.io.tcpStreams + i < cfg.io.perBucket := by omega
  have hlt := index_lt hp hs.1 hoff
  obtain ⟨hdiv, hmod⟩ := div_mod_index (b := b) hoff
  have hmul : b * cfg.io.httpConnections ≤ b * cfg.io.perBucket := Nat.mul_le_mul_left b (by omega)
  have hcount : b * cfg.io.perBucket + cfg.io.perBucket ≤ cfg.bucketCount * cfg.io.perBucket := by
    rw [← Nat.succ_mul]
    exact Nat.mul_le_mul_right _ hs.2
  have hb := hs.1
  refine ⟨by show b * cfg.io.httpConnections + i < _; omega, _, ⟨0, .ofNat b⟩,
    ⟨b, cfg.io.tcpStreams + i, .setJob⟩,
    QueueIndex.fromConnectionIndex_httpStart cfg.perBucket_lt 0 hi hlt, ?_, ?_, ?_, ?_⟩
  · rw [toNat_ofNat hlt]
    omega
  · rw [QueueIndex.toBucketIndex_eq_some cfg.perBucket_lt, toNat_ofNat hlt, hdiv,
      toNat_ofNat (by omega)]
    exact ⟨by omega, rfl, rfl, hb⟩
  · exact toNat_ofNat (by omega)
  · rw [initialEnqueue_eq_some, toNat_ofNat hlt, hdiv, hmod]
    exact ⟨by omega, rfl, rfl, rfl, hb, hs.2, by show cfg.io.tcpStreams + i < 64; omega⟩

/-- The steps of `handshake`: the slots it looks at are those of its bucket. -/
theorem handshakeStep_refines (hrow : Row cfg b g v) (hb : bi.index.toNat = b)
    (hq : q.toBucketIndex cfg.io = some bi) {k : CallPc} {k' : HandshakePc}
    (hk : CallAt cfg b k k') (hne : k' ≠ .polling) :
    Refines cfg b g v (.main b k') .step (g.handshakeStep cfg bi q k) := by
  have hrefl := Confined.refl cfg b g
  have hat : ∀ k k', CallAt cfg b k k' → At cfg b (.main bi q k) (.main b k') :=
    fun k k' h => .main bi q k k' hb hq h
  have hunw : ∀ owed, At cfg b (.unwinding bi owed) (.unwinding b owed) :=
    fun owed => .unwinding bi owed hb
  cases hk with
  | polling => exact absurd rfl hne
  | count hb' hbi =>
    simp only [Inner.handshakeStep, hbi, access_bind hrow.refcount]
    have hstep : v.taskStep cfg (.main b .count) .step = v.handshakeStep cfg b .count := rfl
    simp only [Bucket.handshakeStep] at hstep
    by_cases hpo : v.refcount.poisoned = true
    · rw [if_pos hpo] at hstep ⊢
      exact .stepped hrefl hrow (hunw false) hstep
    · rw [if_neg hpo] at hstep ⊢
      by_cases h0 : v.refcount.val = 0
      · rw [if_pos h0] at hstep ⊢
        exact .stepped hrefl hrow (hat _ _ (.search hb' 0 false hbi)) hstep
      · rw [if_neg h0] at hstep ⊢
        by_cases hlt : v.refcount.val + 1 < 2^8
        · rw [if_pos hlt] at hstep ⊢
          exact .stepped (.setRefcount g _) (hrow.setRefcount _)
            (hat _ _ (.search hb' 0 true hbi)) hstep
        · rw [if_neg hlt] at hstep ⊢
          exact .stepped (.setRefcount g _) (hrow.setRefcount _) (hunw false) hstep
  | search hb' i counted hbi =>
    have hrange : cfg.io.httpStart b + cfg.io.httpConnections < g.connections.length + 1 :=
      Nat.lt_succ_of_le hrow.range
    simp only [Inner.handshakeStep, start_eq hbi, stop_eq hbi, accessLength_bind hrange]
    have hstep : v.taskStep cfg (.main b (.search i counted)) .step
        = v.handshakeStep cfg b (.search i counted) := rfl
    simp only [Bucket.handshakeStep] at hstep
    by_cases hi : i < cfg.io.httpConnections
    · rw [if_pos hi] at hstep ⊢
      rw [access_bind (hrow.connections i hi)]
      by_cases hf : (v.connections i).free = true ∧ (v.connections i).val = .empty
      · rw [if_pos hf] at hstep ⊢
        obtain ⟨hlt, index, _, _, hindex, hcap, _⟩ := conn_index ht hp hs hi
        have hrow' := hrow.setConn hi ((v.connections i).set .reserved)
        simp only [hindex, accessLength_bind hcap, hb, access_bind hrow'.future,
          Nat.mod_eq_of_lt hlt, Bucket.setConn_future, handshakes_shift, ← List.map_cons]
        refine .stepped ((Confined.setConn g hi _).trans (.setFuture _ _))
          (hrow'.setHandshakes (l := i :: v.handshakes) (fun j hj => ?_)) (hat _ _ .polling) hstep
        rcases List.mem_cons.mp hj with rfl | hj
        · exact hi
        · exact hrow.handshakes j hj
      · rw [if_neg hf] at hstep ⊢
        exact .stepped hrefl hrow (hat _ _ (.search hb' (i + 1) counted hbi)) hstep
    · rw [if_neg hi] at hstep ⊢
      exact .stepped hrefl hrow (hunw counted) hstep
  | enqueue i hi =>
    obtain ⟨_, index, slot, c, hindex, _, hslot, hsb, hc⟩ := conn_index ht hp hs hi
    have hlt : slot.index.toNat < cfg.bucketCount := by
      rw [hsb]
      exact hs.2
    simp only [Inner.handshakeStep, hindex, hslot, accessLength_bind hlt, hc]
    refine .stepped hrefl hrow (hat _ _ .polling) ?_
    show v.handshakeStep cfg b (.enqueue i) = _
    simp only [Bucket.handshakeStep, hindex, hc]

end

/-- An index classified as an input stream belongs to the bucket that `to_bucket_index` finds. -/
theorem toBucketIndex_of_fromIndex (h : IoIndex.fromIndex cfg.io q = some (.inputStream bi)) :
    q.toBucketIndex cfg.io = some bi := by
  unfold IoIndex.fromIndex at h
  split at h
  · cases h
  · split at h
    · obtain ⟨b', hb, he⟩ := Option.map_eq_some_iff.mp h
      cases he
      exact hb
    · split at h
      · cases h
      · split at h
        · obtain ⟨c, _, he⟩ := Option.map_eq_some_iff.mp h
          cases he
        · cases h

/-- The job at hand: its queue index is rebuilt and classified as a task of the bucket. -/
theorem job_refines (ht : 1 ≤ cfg.io.tcpStreams) (hp : cfg.io.perBucket ≤ 64)
    (hrow : Row cfg b g v) (ho : outer.index.toNat = b) {off : ℕ} (hj : IsTask cfg b off) :
    Refines cfg b g v (.job b off) .step (g.runStep cfg outer (.job off) .step) := by
  obtain ⟨task, hsv, hof, rfl⟩ := hj
  obtain ⟨q, io, hq, hio, hm⟩ := Task.classify ht hp hsv hof
  have hd : dispatch cfg b (task.offset cfg.io) = _ := dispatch_eq_classify
  rw [hq, Option.bind_some, hio, Option.map_some] at hd
  have hstep : ∀ {t}, dispatch cfg b (task.offset cfg.io) = some t →
      v.taskStep cfg (.job b (task.offset cfg.io)) .step = some (v, t, .none) := by
    intro t h
    simp only [Bucket.taskStep, h]
  have hstep := hstep hd
  simp only [Inner.runStep, ho, hq, hio]
  cases io with
  | inputStream bi =>
    cases task with
    | connection c => cases hm
    | main b' =>
      have hbi : bi.index.toNat = b := (show bi.index.toNat = b' from hm).trans hof
      simp only [hbi] at hstep
      exact .stepped (.refl cfg b g) hrow
        (.takeMain bi q hbi (toBucketIndex_of_fromIndex hio)) hstep
  | httpConnection c =>
    cases task with
    | main b' => cases hm
    | connection c' =>
      obtain ⟨i, hi, hc, _⟩ := Task.ofBucket_connection hof
      have hci : c.index.toNat = cfg.io.httpStart b + i :=
        (show c.index.toNat = c' from hm).trans hc
      have hsub : c.index.toNat - cfg.io.httpStart b = i := by omega
      simp only [hsub] at hstep
      exact .stepped (.refl cfg b g) hrow (.takeConn c i hi hci) hstep

/-- `poll_input_stream` takes the lock of the main future. -/
theorem takeMain_refines (hrow : Row cfg b g v) (hb : bi.index.toNat = b)
    (hq : q.toBucketIndex cfg.io = some bi) :
    Refines cfg b g v (.takeMain b) (RunAct.step.task (cfg.io.httpStart b))
      (g.runStep cfg outer (.takeMain bi q) .step) := by
  have hrow' : Row cfg b
      (g.setFuture b (v.future.lock.map (Option.map (MainFut.shift (cfg.io.httpStart b)))))
      (v.setFuture v.future.lock) := hrow.setFuture_same rfl
  simp only [Inner.runStep, hb, access_bind hrow.future]
  by_cases hf : v.future.free = true
  · rw [if_pos ((Mutex.free_map ..).trans hf)]
    cases hv : v.future.val with
    | none =>
      simp only [Mutex.val_map, hv, Option.map_none]
      refine .stepped (.setFuture g _) hrow' (.unwinding bi false hb) ?_
      simp only [RunAct.task, Bucket.taskStep, if_pos hf, hv, Bucket.raise]
    | some f =>
      simp only [Mutex.val_map, hv, Option.map_some]
      refine .stepped (.setFuture g _) hrow' (.main bi q _ _ hb hq .polling) ?_
      simp only [RunAct.task, Bucket.taskStep, if_pos hf, hv]
  · rw [if_neg (by rw [Mutex.free_map]; exact hf)]
    refine .stepped (Confined.refl cfg b g) hrow (.takeMain bi q hb hq) ?_
    simp only [RunAct.task, Bucket.taskStep, if_neg hf]

/-- `poll_http_connection` takes the lock of its slot. -/
theorem takeConn_refines {c : ConnectionIndex} {i : ℕ} (hrow : Row cfg b g v)
    (hi : i < cfg.io.httpConnections) (hc : c.index.toNat = cfg.io.httpStart b + i) :
    Refines cfg b g v (.takeConn b i) (RunAct.step.task (cfg.io.httpStart b))
      (g.runStep cfg outer (.takeConn c) .step) := by
  have hrefl := Confined.refl cfg b g
  have hconn := access_bind (β := Option (Inner × RunPc × Effect)) (hrow.connections i hi)
  simp only [Inner.runStep, hc, hconn]
  by_cases hpo : (v.connections i).poisoned = true
  · rw [if_pos hpo]
    refine .stepped hrefl hrow (.takeConn c i hi hc) ?_
    simp only [RunAct.task, Bucket.taskStep, if_pos hpo]
  · rw [if_neg hpo]
    by_cases hl : (v.connections i).locked = true
    · rw [if_pos hl]
      exact .blocked
    · rw [if_neg hl]
      cases hv : (v.connections i).val with
      | empty =>
        refine .stepped hrefl hrow .idle ?_
        simp only [RunAct.task, Bucket.taskStep, if_neg hpo, if_neg hl, hv]
      | reserved =>
        refine .stepped (.setConn g hi _) (hrow.setConn hi _) (.takeConn c i hi hc) ?_
        simp only [RunAct.task, Bucket.taskStep, if_neg hpo, if_neg hl, hv]
      | occupied =>
        refine .stepped (.setConn g hi _) (hrow.setConn hi _) (.conn c i hi hc) ?_
        simp only [RunAct.task, Bucket.taskStep, if_neg hpo, if_neg hl, hv]

/-- **One step of `run_bucket` on the arrays** is in bounds, stays in its bucket, and is the step of
the row. -/
theorem runStep_refines (ht : 1 ≤ cfg.io.tcpStreams) (hp : cfg.io.perBucket ≤ 64)
    (hs : cfg.Serves b) (hrow : Row cfg b g v) (ho : outer.index.toNat = b) {l : RunPc}
    (hat : At cfg b l t) {a : RunAct} (ha : a.Own cfg b) (hd : ∀ off, a ≠ .dequeue off) :
    Refines cfg b g v t (a.task (cfg.io.httpStart b)) (g.runStep cfg outer l a) := by
  have hrefl := Confined.refl cfg b g
  have hkeep : ∀ {m : Mutex (Option MainFut)}, m.val = v.future.val →
      Row cfg b (g.setFuture b (m.map (Option.map (MainFut.shift (cfg.io.httpStart b)))))
        (v.setFuture m) := fun hm => hrow.setFuture_same hm
  cases hat with
  | idle => cases a <;> first | exact .blocked | exact absurd rfl (hd _)
  | job off hj =>
    cases a with
    | step => exact job_refines ht hp hrow ho hj
    | _ => exact .blocked
  | takeMain bi q hb hq =>
    cases a with
    | step => exact takeMain_refines hrow hb hq
    | _ => exact .blocked
  | main bi q k k' hb hq hk =>
    have hcall := handshakeStep_refines ht hp hs hrow hb hq hk
    cases hk with
    | polling => exact pollMain_refines hrow ho hb hq ha
    | _ =>
      cases a with
      | step => exact hcall (fun h => by cases h)
      | panic => exact .stepped hrefl hrow (.unwinding bi _ hb) rfl
      | oom => exact longjmp_future_refines hrow hb rfl
      | _ => exact .blocked
  | mainTaken bi q hb hq =>
    cases a with
    | step =>
      simp only [Inner.runStep, hq, hb, access_bind hrow.tcpStream]
      exact .stepped hrefl (hrow.log _) (.mainClosing bi _ hb) rfl
    | _ => exact .blocked
  | mainClosing bi fd hb =>
    cases a with
    | step => exact .stepped hrefl hrow (.mainDropping bi hb) rfl
    | _ => exact .blocked
  | mainDropping bi hb =>
    cases a with
    | step =>
      simp only [Inner.runStep, hb, access_bind hrow.future]
      exact .stepped (.setFuture g _) (hkeep (m := v.future.unlock) rfl) .ready rfl
    | panic => exact .stepped hrefl hrow (.unwinding bi true hb) rfl
    | oom => exact longjmp_future_refines hrow hb rfl
    | _ => exact .blocked
  | unwinding bi owed hb =>
    cases a with
    | step =>
      simp only [Inner.runStep, hb, access_bind hrow.future]
      exact .stepped (.setFuture g _) (hkeep (m := v.future.unwind) rfl) (.poisoned bi owed hb) rfl
    | oom => exact longjmp_future_refines hrow hb rfl
    | _ => exact .blocked
  | poisoned bi owed hb =>
    cases a with
    | step =>
      simp only [Inner.runStep, hb, access_bind hrow.future]
      exact .stepped (.setFuture g _) (hkeep (m := v.future.clearPoison) rfl)
        (.cleanup bi .caught .load hb (fun _ h => by cases h)) rfl
    | _ => exact .blocked
  | takeConn c i hi hc =>
    cases a with
    | step => exact takeConn_refines hrow hi hc
    | _ => exact .blocked
  | conn c i hi hc => exact pollConn_refines hrow ho hi hc a
  | connDropping c i hi hc =>
    have hconn := access_bind (β := Option (Inner × RunPc × Effect)) (hrow.connections i hi)
    cases a with
    | step =>
      simp only [Inner.runStep, hc, hconn]
      exact .stepped (.setConn g hi _) (hrow.setConn hi _) .ready rfl
    | panic =>
      simp only [Inner.runStep, hc, hconn]
      exact .stepped (.setConn g hi _) (hrow.setConn hi _) (.connDropping c i hi hc) rfl
    | oom => exact longjmp_conn_refines hrow ho hi hc rfl
    | panicOom => exact longjmp_conn_refines hrow ho hi hc rfl
    | _ => exact .blocked
  | ready =>
    cases a with
    | step => exact readyStep_refines hrow ho
    | _ => exact .blocked
  | cleanup bi f k hb hf => exact cleanupStep_refines hrow hb hf k a

/-! ## the arrays as they are allocated -/

/-- the lengths of the arrays, and the futures hold connections of their own bucket only -/
structure Inner.Ok (cfg : Cfg) (g : Inner) : Prop where
  refcounts : g.refcounts.length = cfg.bucketCount
  futures : g.futures.length = cfg.bucketCount * cfg.io.perBucket
  tcpStreams : g.tcpStreams.length = cfg.bucketCount
  connections : g.connections.length = cfg.bucketCount * cfg.io.httpConnections
  remaining : g.remaining.length = cfg.bucketCount
  handshakes : ∀ i m, g.futures[i]? = some m → ∀ c ∈ Inner.handshakes m,
    c ∈ Finset.Ico (cfg.io.httpStart i) (cfg.io.httpStart i + cfg.io.httpConnections)

theorem Inner.init_ok (cfg : Cfg) : (Inner.init cfg).Ok cfg where
  refcounts := List.length_replicate
  futures := List.length_replicate
  tcpStreams := List.length_replicate
  connections := List.length_replicate
  remaining := List.length_replicate
  handshakes i m hm c hc := by
    rw [List.eq_of_mem_replicate (List.mem_of_getElem? hm)] at hc
    cases hc

/-- The slots of a bucket are all in the array. -/
theorem httpStart_add_le {cfg : Cfg} (hb : b < cfg.bucketCount) :
    cfg.io.httpStart b + cfg.io.httpConnections ≤ cfg.bucketCount * cfg.io.httpConnections := by
  show b * _ + _ ≤ _
  rw [← Nat.succ_mul]
  exact Nat.mul_le_mul_right _ hb

def MainFut.unshift (start : ℕ) (f : MainFut) : MainFut := ⟨f.handshakes.map (· - start)⟩

theorem MainFut.shift_unshift {start : ℕ} {f : MainFut} (h : ∀ c ∈ f.handshakes, start ≤ c) :
    (f.unshift start).shift start = f := by
  have he : (f.handshakes.map (· - start)).map (start + ·) = f.handshakes := by
    rw [List.map_map]
    exact (List.map_congr_left (fun c hc => Nat.add_sub_cancel' (h c hc))).trans (List.map_id _)
  exact congrArg MainFut.mk he

/-- the row of bucket `b` -/
def Inner.bucket (cfg : Cfg) (g : Inner) (b : ℕ) : Bucket where
  refcount := g.refcounts.getD b { val := 0 }
  future := (g.futures.getD b { val := none }).map
    (Option.map (MainFut.unshift (cfg.io.httpStart b)))
  tcpStream := g.tcpStreams.getD b 0
  connections i := g.connections.getD (cfg.io.httpStart b + i) { val := .empty }
  remaining := g.remaining.getD b 0
  trace := []

theorem getElem?_eq_getD {α : Type} {l : List α} {i n : ℕ} (hl : l.length = n) (hi : i < n)
    (a : α) : l[i]? = some (l.getD i a) := by
  subst hl
  rw [List.getD_eq_getElem _ _ hi, List.getElem?_eq_getElem hi]

/-- **Every bucket is a row of the arrays.** -/
theorem Inner.Ok.row (hg : g.Ok cfg) (ht : 1 ≤ cfg.io.tcpStreams) (hb : b < cfg.bucketCount) :
    Row cfg b g (g.bucket cfg b) := by
  have hsum : cfg.io.perBucket = cfg.io.tcpStreams + cfg.io.httpConnections := rfl
  have hle : cfg.bucketCount ≤ cfg.bucketCount * cfg.io.perBucket :=
    Nat.le_mul_of_pos_right _ (by omega)
  have hconn := httpStart_add_le hb
  have hfut := getElem?_eq_getD hg.futures (show b < _ by omega) { val := none }
  have hrange := hg.handshakes b _ hfut
  generalize hm : g.futures.getD b { val := none } = m at hfut hrange
  obtain ⟨o, l, po⟩ := m
  exact {
    refcount := getElem?_eq_getD hg.refcounts hb _
    future := by
      rw [hfut]
      show _ = some (Mutex.map _ (Mutex.map _ (g.futures.getD b { val := none })))
      rw [hm]
      cases o with
      | none => rfl
      | some f =>
        have hf := MainFut.shift_unshift (f := f)
          (fun c hc => (Finset.mem_Ico.mp (hrange c hc)).1)
        exact congrArg (fun f => some (Mutex.mk (some f) l po)) hf.symm
    tcpStream := getElem?_eq_getD hg.tcpStreams hb _
    connections := fun i hi => getElem?_eq_getD hg.connections (by omega) _
    remaining := getElem?_eq_getD hg.remaining hb _
    range := by rw [hg.connections]; exact hconn
    handshakes := fun i hi => by
      replace hi : i ∈ ((Mutex.map (Option.map (MainFut.unshift (cfg.io.httpStart b)))
        (g.futures.getD b { val := none })).val.map (·.handshakes)).getD [] := hi
      rw [hm] at hi
      cases o with
      | none => cases hi
      | some f =>
        obtain ⟨c, hc, rfl⟩ := List.mem_map.mp hi
        have := Finset.mem_Ico.mp (hrange c hc)
        omega }

/-- Lists that agree outside of `S`, and that both have entries in `S`, are as long. -/
theorem length_eq_of_agree {α : Type} {l l' : List α} {S : ℕ → Prop}
    (hout : ∀ i, ¬ S i → l'[i]? = l[i]?)
    (hin : ∀ i, S i → ∃ a a', l[i]? = some a ∧ l'[i]? = some a') : l'.length = l.length := by
  refine eq_of_forall_lt_iff (fun i => ?_)
  by_cases hi : S i
  · obtain ⟨a, a', h, h'⟩ := hin i hi
    exact iff_of_true (List.getElem?_eq_some_iff.mp h').1 (List.getElem?_eq_some_iff.mp h).1
  · rw [← not_iff_not, not_lt, not_lt, ← List.getElem?_eq_none_iff, hout i hi,
      List.getElem?_eq_none_iff]

/-- Only entries of one bucket change, and that bucket is still a row: the arrays are still
well formed. -/
theorem Inner.Ok.of_confined (hg : g.Ok cfg) (hc : Confined cfg b g g') (hrow : Row cfg b g v)
    (hrow' : Row cfg b g' v') : g'.Ok cfg where
  refcounts := (length_eq_of_agree (S := (· = b)) hc.refcounts
    (by rintro _ rfl; exact ⟨_, _, hrow.refcount, hrow'.refcount⟩)).trans hg.refcounts
  futures := (length_eq_of_agree (S := (· = b)) hc.futures
    (by rintro _ rfl; exact ⟨_, _, hrow.future, hrow'.future⟩)).trans hg.futures
  tcpStreams := (length_eq_of_agree (S := (· = b)) hc.tcpStreams
    (by rintro _ rfl; exact ⟨_, _, hrow.tcpStream, hrow'.tcpStream⟩)).trans hg.tcpStreams
  connections := (length_eq_of_agree hc.connections (fun c hmem => by
    obtain ⟨h1, h2⟩ := Finset.mem_Ico.mp hmem
    obtain ⟨i, rfl⟩ := Nat.exists_eq_add_of_le h1
    exact ⟨_, _, hrow.connections i (by omega), hrow'.connections i (by omega)⟩)).trans
      hg.connections
  remaining := (length_eq_of_agree (S := (· = b)) hc.remaining
    (by rintro _ rfl; exact ⟨_, _, hrow.remaining, hrow'.remaining⟩)).trans hg.remaining
  handshakes i m hm c hmem := by
    by_cases hi : i = b
    · subst hi
      rw [hrow'.future] at hm
      cases hm
      obtain ⟨j, hj, rfl⟩ := (mem_handshakes c).mp hmem
      have := hrow'.handshakes j hj
      exact Finset.mem_Ico.mpr ⟨by omega, by omega⟩
    · rw [hc.futures i hi] at hm
      exact hg.handshakes i m hm c hmem

/-! ## one execution of `run_bucket` -/

inductive RunEvent where
  | own (a : RunAct)
  /-- other threads have left the arrays as `g'` -/
  | other (g' : Inner)

/-- `run_bucket(outer)`, called on the arrays `g` -/
def runBucket (cfg : Cfg) (outer : BucketIndex) (g : Inner) : Machine (Inner × RunPc) RunEvent where
  init := (g, .idle)
  step s
    | .own a =>
      match s.1.runStep cfg outer s.2 a with
      | .ok (some (g', l', _)) => some (g', l')
      | _ => none
    | .other g' => some (g', s.2)

/-- the worker dequeues tasks of its bucket, and other threads keep the arrays well formed -/
def RunEvent.Admitted (cfg : Cfg) (b : ℕ) : RunEvent → Prop
  | .own a => a.Own cfg b
  | .other g' => g'.Ok cfg

/-- no other thread runs -/
def RunEvent.Alone (cfg : Cfg) (b : ℕ) : RunEvent → Prop
  | .own a => a.Own cfg b
  | .other _ => False

/-- A step of `run_bucket` in well-formed arrays. -/
theorem runStep_spec (ht : 1 ≤ cfg.io.tcpStreams) (hp : cfg.io.perBucket ≤ 64) (hs : cfg.Serves b)
    (hg : g.Ok cfg) (ho : outer.index.toNat = b) {l : RunPc} (hat : At cfg b l t) {a : RunAct}
    (ha : a.Own cfg b) :
    ∃ r, g.runStep cfg outer l a = .ok r ∧ ∀ g' l' e, r = some (g', l', e) →
      Confined cfg b g g' ∧ g'.Ok cfg ∧ ∃ t', At cfg b l' t' := by
  have hrow := hg.row ht hs.2
  by_cases hd : ∃ off, a = .dequeue off
  · obtain ⟨off, rfl⟩ := hd
    have hblocked : ∃ r : Option (Inner × RunPc × Effect),
        (Except.ok none : RunResult) = .ok r ∧ ∀ g' l' e, r = some (g', l', e) →
        Confined cfg b g g' ∧ g'.Ok cfg ∧ ∃ t', At cfg b l' t' := ⟨none, rfl, nofun⟩
    cases hat with
    | idle =>
      refine ⟨_, rfl, fun g' l' e h => ?_⟩
      cases h
      exact ⟨.refl cfg b g, hg, _, .job off ha⟩
    | main bi q k k' hb hq hk => cases hk <;> exact hblocked
    | cleanup bi f k hb hf => cases k <;> exact hblocked
    | _ => exact hblocked
  · obtain ⟨r, hr, hspec⟩ := runStep_refines ht hp hs hrow ho hat ha (fun off e => hd ⟨off, e⟩)
    refine ⟨r, hr, fun g' l' e h => ?_⟩
    obtain ⟨hc, v', t', hat', hrow', _⟩ := hspec g' l' e h
    exact ⟨hc, hg.of_confined hc hrow hrow', t', hat'⟩

/-- What holds along an execution of `run_bucket`: the arrays are well formed, the locals belong to
the bucket. -/
theorem runBucket_inv (ht : 1 ≤ cfg.io.tcpStreams) (hp : cfg.io.perBucket ≤ 64)
    (hs : cfg.Serves outer.index.toNat) (hg : g.Ok cfg) {s : Inner × RunPc}
    (h : (runBucket cfg outer g).Reach (fun _ e => e.Admitted cfg outer.index.toNat) s) :
    s.1.Ok cfg ∧ ∃ t, At cfg outer.index.toNat s.2 t := by
  refine h.invariant (I := fun s => s.1.Ok cfg ∧ ∃ t, At cfg outer.index.toNat s.2 t)
    ⟨hg, _, .idle⟩ ?_
  intro s e s' _ ⟨hok, t, hat⟩ hadm hstep
  cases e with
  | own a =>
    obtain ⟨r, hr, hspec⟩ := runStep_spec ht hp hs hok rfl hat hadm
    simp only [runBucket, hr] at hstep
    cases r with
    | none => cases hstep
    | some x =>
      obtain ⟨g', l', e'⟩ := x
      cases hstep
      exact (hspec g' l' e' rfl).2
  | other g' =>
    cases hstep
    exact ⟨hadm, t, hat⟩

variable {W T : Type} [DecidableEq W] [DecidableEq T] [Fintype W]

/-- **A request stays in its bucket.**  In `run_bucket(outer)`, whatever other threads do in between,
every array access is in bounds and every step leaves the entries of all other buckets alone; so does
an execution that is not interrupted.  The wakers it calls find a slot of the queue, and the call
changes nothing but the queue. -/
theorem bucket_confined (ht : 1 ≤ cfg.io.tcpStreams) (hp : cfg.io.perBucket ≤ 64)
    (hn : cfg.bucketCount ≤ 1000) (hb : outer.index.toNat < cfg.bucketCount) (hg : g.Ok cfg) :
    (∀ s, (runBucket cfg outer g).Reach (fun _ e => e.Admitted cfg outer.index.toNat) s →
      ∀ a : RunAct, a.Own cfg outer.index.toNat → ∃ r, s.1.runStep cfg outer s.2 a = .ok r ∧
        ∀ g' l' e, r = some (g', l', e) → Confined cfg outer.index.toNat s.1 g') ∧
    (∀ s, (runBucket cfg outer g).Reach (fun _ e => e.Alone cfg outer.index.toNat) s →
      Confined cfg outer.index.toNat g s.1) ∧
    (∀ b (t : Task) identifier, b < cfg.bucketCount → t.OfBucket cfg.io b →
      ∃ q c, t.queueIndex cfg.io identifier = some q ∧ wake cfg q.toPtr = some c ∧
        c.bucket < cfg.bucketCount ∧ c.offset < 64) ∧
    ∀ (s s' : State W T) (th : Thread W T), (∀ q, s.step cfg (.wake th q) = some s' →
      s' = s.setQ s'.q) ∧ ∀ waiter, s.step cfg (.call th waiter) = some s' → s' = s.setQ s'.q := by
  have hserves : ∀ {b}, b < cfg.bucketCount → cfg.Serves b := fun h => ⟨by omega, h⟩
  refine ⟨fun s h a ha => ?_, fun s h => ?_, fun b t identifier hb' hof => ?_, fun s s' th => ?_⟩
  · obtain ⟨hok, t, hat⟩ := runBucket_inv ht hp (hserves hb) hg h
    obtain ⟨r, hr, hspec⟩ := runStep_spec ht hp (hserves hb) hok rfl hat ha
    exact ⟨r, hr, fun g' l' e he => (hspec g' l' e he).1⟩
  · refine h.invariant (I := fun s => Confined cfg outer.index.toNat g s.1) (.refl cfg _ g) ?_
    intro s e s' hr hc hadm hstep
    cases e with
    | other g' => exact absurd hadm not_false
    | own a =>
      have hr' : (runBucket cfg outer g).Reach
          (fun _ e => e.Admitted cfg outer.index.toNat) s := hr.mono (fun _ e _ he => by
        cases e with
        | own a => exact he
        | other g' => exact he.elim)
      obtain ⟨hok, t, hat⟩ := runBucket_inv ht hp (hserves hb) hg hr'
      obtain ⟨r, hres, hspec⟩ := runStep_spec ht hp (hserves hb) hok rfl hat hadm
      simp only [runBucket, hres] at hstep
      cases r with
      | none => cases hstep
      | some x =>
        obtain ⟨g', l', e'⟩ := x
        cases hstep
        exact hc.trans (hspec g' l' e' rfl).1
  · obtain ⟨q, hq, hw⟩ := Task.enqueue ht hp (hserves hb') hof identifier
    exact ⟨q, _, hq, hw, hb', lt_of_lt_of_le (hof.offset_lt ht) hp⟩
  · have hmap : ∀ a, (s.q.step cfg a).map s.setQ = some s' → s' = s.setQ s'.q := by
      intro a ha
      obtain ⟨q, _, rfl⟩ := Option.map_eq_some_iff.mp ha
      rfl
    refine ⟨fun q h => ?_, fun waiter h => hmap _ h⟩
    simp only [State.step] at h
    split at h
    · exact hmap _ h
    · cases h

theorem bucket_confined_first : Confined cfgOne 1 (Inner.init cfgOne)
    ((runBucket cfgOne ⟨0, 1⟩ (Inner.init cfgOne)).final
      [.own (.dequeue 0), .own .step, .own .step, .own .step]).1 :=
  (bucket_confined (W := Fin 1) (T := Fin 1) (show 1 ≤ cfgOne.io.tcpStreams by decide) (by decide)
    (by decide) (show (⟨0, 1⟩ : BucketIndex).index.toNat < cfgOne.bucketCount by decide)
    (Inner.init_ok cfgOne)).2.1 _
    (Machine.Reach.final (fun _ _ => ⟨⟨.main 1, ⟨by decide, by decide⟩, rfl, rfl⟩,
      fun _ _ => ⟨trivial, fun _ _ => ⟨trivial, fun _ _ => ⟨trivial, trivial⟩⟩⟩⟩))

end
end Nea
