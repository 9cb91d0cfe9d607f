import Nea.Executor.Bucket

/-!
# The steps of a worker and of the accept thread, as relations

`taskStep` and `acceptStep` once more, guards included, with the panics and the exits that look
alike put together: every invariant of a bucket is proved by cases on `TStep` and `AStep`.

* `Dies`, `Raises`    panics that leave the bucket as it is, uncaught and caught;
* `TStep.of_taskStep`, `AStep.of_acceptStep`   every step is one of these.
-/

set_option linter.unusedSectionVars false

namespace Nea

/-- a panic that ends the worker and leaves the bucket as it is -/
inductive Dies (cfg : Cfg) (v : Bucket) : TaskPc → Prop where
  | unknown (b off : ℕ) (h : dispatch cfg b off = none) : Dies cfg v (.job b off)
  | takeMain (b : ℕ) (h : v.future.free = false) : Dies cfg v (.takeMain b)
  | takeConn (b i : ℕ) (h : (v.connections i).poisoned = true) : Dies cfg v (.takeConn b i)
  | ready (b : ℕ) (h : v.refcount.poisoned = true) : Dies cfg v (.ready b)
  | slots (b : ℕ) (r : Failure) (i : ℕ) (h : (v.connections i).free = false)
      (hi : i < cfg.io.httpConnections) : Dies cfg v (.cleanup b r (.slots i))
  | future (b : ℕ) (r : Failure) (h : v.future.poisoned = true) :
      Dies cfg v (.cleanup b r .future)
  | release (b : ℕ) (r : Failure) (h : v.refcount.poisoned = true) :
      Dies cfg v (.cleanup b r .release)

/-- a panic in the main arm that leaves the bucket as it is, with what it leaves owed -/
inductive Raises (cfg : Cfg) (b : ℕ) : TaskPc → Bool → Prop where
  | main (k : HandshakePc) : Raises cfg b (.main b k) k.counted
  | dropping : Raises cfg b (.mainDropping b) true

/-- memory runs out (`true`: while a panic unwinds) -/
def TaskAct.exhausts : TaskAct → Option Bool
  | .oom => some false
  | .panicOom => some true
  | _ => none

/-- memory runs out while a panic unwinds that the same action has raised -/
def TaskAct.unwinds : TaskAct → Bool
  | .panicOom => true
  | _ => false

theorem TaskAct.unwinds_of_exhausts {a : TaskAct} {p : Bool} (h : a.exhausts = some p) :
    a.unwinds = p := by
  cases a with
  | oom => exact Option.some_inj.mp h
  | panicOom => exact Option.some_inj.mp h
  | _ => cases h

/-- what a worker inside `run_bucket` can do in one step -/
inductive TStep (cfg : Cfg) (v : Bucket) :
    TaskPc → TaskAct → Bucket → TaskPc → Effect → Prop where
  | dispatch (b off : ℕ) (t : TaskPc) (h : dispatch cfg b off = some t) :
      TStep cfg v (.job b off) .step v t .none
  | die (t : TaskPc) (a : TaskAct) (h : Dies cfg v t) : TStep cfg v t a v t .die
  | stale (b : ℕ) (hf : v.future.free = true) (hn : v.future.val = none) :
      TStep cfg v (.takeMain b) .step (v.setFuture v.future.lock) (.unwinding b false) .panic
  | take (b : ℕ) (f : MainFut) (hf : v.future.free = true) (hs : v.future.val = some f) :
      TStep cfg v (.takeMain b) .step (v.setFuture v.future.lock) (.main b .polling) .none
  | alloc (t : TaskPc) (l : Layout) (n : ℕ)
      (ht : (∃ b, t = .main b .polling) ∨ ∃ b i, t = .conn b i) (hn : v.allocate l = some n) :
      TStep cfg v t (.alloc l) (v.setRemaining n) t .none
  | longjmp (t : TaskPc) (a : TaskAct) (b : ℕ) (ht : (∃ k, t = .main b k) ∨ t = .mainDropping b)
      (ha : a.unwinds = false) :
      TStep cfg v t a (v.setFuture v.future.unlock) (.cleanup b (.thrown .future false) .load) .none
  | longjmpUnwinding (b : ℕ) (owed : Bool) :
      TStep cfg v (.unwinding b owed) .oom (v.setFuture v.future.unwind)
        (.cleanup b (.thrown .future true) .load) .none
  | longjmpConn (t : TaskPc) (a : TaskAct) (b i : ℕ) (p : Bool)
      (ht : t = .conn b i ∨ t = .connDropping b i) (hp : a.unwinds = p) :
      TStep cfg v t a (v.setConn i ((v.connections i).leave p))
        (.cleanup b (.thrown (.conn i) p) .load) .none
  | raise (t : TaskPc) (a : TaskAct) (b : ℕ) (owed : Bool) (h : Raises cfg b t owed) :
      TStep cfg v t a v (.unwinding b owed) .panic
  | connect (b : ℕ) : TStep cfg v (.main b .polling) .connect v (.main b .count) .none
  | populate (b i : ℕ) (hi : i ∈ v.handshakes) (hf : (v.connections i).free = true)
      (hr : (v.connections i).val = .reserved) :
      TStep cfg v (.main b .polling) (.populate i)
        ((v.setConn i ((v.connections i).set .occupied)).setHandshakes (v.handshakes.erase i))
        (.main b (.enqueue i)) .none
  | populateTaken (b i : ℕ) (hi : i ∈ v.handshakes) (hf : (v.connections i).free = true)
      (hr : (v.connections i).val ≠ .reserved) :
      TStep cfg v (.main b .polling) (.populate i) (v.setConn i (v.connections i).unwind)
        (.unwinding b false) .panic
  | forget (b i : ℕ) (hi : i ∈ v.handshakes) :
      TStep cfg v (.main b .polling) (.forget i) (v.setHandshakes (v.handshakes.erase i))
        (.main b .polling) .none
  | pending (b : ℕ) :
      TStep cfg v (.main b .polling) .pending (v.setFuture v.future.unlock) .idle .none
  | ready (b : ℕ) :
      TStep cfg v (.main b .polling) .ready (v.setFuture (v.future.set none)) (.mainTaken b) .none
  | countZero (b : ℕ) (hv : v.refcount.val = 0) :
      TStep cfg v (.main b .count) .step v (.main b (.search 0 false)) .none
  | count (b : ℕ) (hv : v.refcount.val ≠ 0) (hlt : v.refcount.val + 1 < 2^8) :
      TStep cfg v (.main b .count) .step (v.setRefcount (v.refcount.set (v.refcount.val + 1)))
        (.main b (.search 0 true)) .none
  | countOverflow (b : ℕ) (hge : ¬ v.refcount.val + 1 < 2^8) :
      TStep cfg v (.main b .count) .step (v.setRefcount v.refcount.unwind) (.unwinding b false)
        .panic
  | reserve (b i : ℕ) (counted : Bool) (hi : i < cfg.io.httpConnections)
      (hf : (v.connections i).free = true) (he : (v.connections i).val = .empty) :
      TStep cfg v (.main b (.search i counted)) .step
        ((v.setConn i ((v.connections i).set .reserved)).setHandshakes (i :: v.handshakes))
        (.main b .polling) .none
  | search (b i : ℕ) (counted : Bool) (hi : i < cfg.io.httpConnections) :
      TStep cfg v (.main b (.search i counted)) .step v (.main b (.search (i + 1) counted)) .none
  | enqueue (b i : ℕ) (q : QueueIndex) (c : Enqueue)
      (hq : QueueIndex.fromConnectionIndex cfg.io ⟨0, .ofNat (cfg.io.httpStart b + i)⟩ = some q)
      (hc : initialEnqueue cfg q = some c) :
      TStep cfg v (.main b (.enqueue i)) .step v (.main b .polling) (.enqueue q)
  | reclaim (b : ℕ) :
      TStep cfg v (.mainTaken b) .step (v.log (.reclaim v.tcpStream)) (.mainClosing b v.tcpStream)
        (.reclaim v.tcpStream)
  | close (b : ℕ) (fd : RawFd) :
      TStep cfg v (.mainClosing b fd) .step v (.mainDropping b) (.close fd)
  | dropped (b : ℕ) :
      TStep cfg v (.mainDropping b) .step (v.setFuture v.future.unlock) (.ready b) .none
  | unwind (b : ℕ) (owed : Bool) :
      TStep cfg v (.unwinding b owed) .step (v.setFuture v.future.unwind) (.poisoned b owed) .none
  | clearPoison (b : ℕ) (owed : Bool) :
      TStep cfg v (.poisoned b owed) .step (v.setFuture v.future.clearPoison)
        (.cleanup b .caught .load) .none
  | afterDeath (b i : ℕ) (he : (v.connections i).val = .empty) :
      TStep cfg v (.takeConn b i) .step v .idle .none
  | connReserved (b i : ℕ) (hr : (v.connections i).val = .reserved) :
      TStep cfg v (.takeConn b i) .step (v.setConn i (v.connections i).unwind) (.takeConn b i) .die
  | takeConn (b i : ℕ) (hf : (v.connections i).free = true)
      (ho : (v.connections i).val = .occupied) :
      TStep cfg v (.takeConn b i) .step (v.setConn i (v.connections i).lock) (.conn b i) .none
  | connPending (b i : ℕ) :
      TStep cfg v (.conn b i) .pending (v.setConn i (v.connections i).unlock) .idle .none
  | connReady (b i : ℕ) :
      TStep cfg v (.conn b i) .ready (v.setConn i ((v.connections i).set .empty))
        (.connDropping b i) .none
  | connPanics (t : TaskPc) (b i : ℕ) (ht : t = .conn b i ∨ t = .connDropping b i) :
      TStep cfg v t .panic (v.setConn i (v.connections i).unwind) t .die
  | connDropped (b i : ℕ) :
      TStep cfg v (.connDropping b i) .step (v.setConn i (v.connections i).unlock) (.ready b) .none
  | readyZero (b : ℕ) (hv : v.refcount.val = 0) :
      TStep cfg v (.ready b) .step (v.setRefcount v.refcount.unwind) (.ready b) .die
  | readyLast (b : ℕ) (hv : v.refcount.val = 1) :
      TStep cfg v (.ready b) .step
        ((v.setRemaining cfg.bucketSize).setRefcount (v.refcount.set 0)) .idle .forever
  | readyMore (b : ℕ) (hv : 1 < v.refcount.val) :
      TStep cfg v (.ready b) .step (v.setRefcount (v.refcount.set (v.refcount.val - 1))) .idle .none
  | load (b : ℕ) (r : Failure) :
      TStep cfg v (.cleanup b r .load) .step (v.log (.reclaim v.tcpStream))
        (.cleanup b r (.respond v.tcpStream)) (.reclaim v.tcpStream)
  | respond (b : ℕ) (r : Failure) (fd : RawFd) :
      TStep cfg v (.cleanup b r (.respond fd)) .step v (.cleanup b r (.close fd)) (.respond fd)
  | closeError (b : ℕ) (r : Failure) (fd : RawFd) :
      TStep cfg v (.cleanup b r (.close fd)) .step v (.cleanup b r (.slots 0)) (.close fd)
  | slot (b : ℕ) (r : Failure) (i : ℕ) (hi : i < cfg.io.httpConnections)
      (hf : (v.connections i).free = true) :
      TStep cfg v (.cleanup b r (.slots i)) .step (v.setConn i ((v.connections i).set .empty))
        (.cleanup b r (.slots (i + 1))) .none
  | slotPanics (b : ℕ) (r : Failure) (i : ℕ) (hi : i < cfg.io.httpConnections)
      (hf : (v.connections i).free = true) :
      TStep cfg v (.cleanup b r (.slots i)) .panic
        (v.setConn i (((v.connections i).set .empty).leave (!r.panicking)))
        (.cleanup b r (.slots i)) .die
  | slotAgain (b : ℕ) (r : Failure) (i : ℕ) (a : TaskAct) (p : Bool)
      (hi : i < cfg.io.httpConnections) (hf : (v.connections i).free = true)
      (ho : (v.connections i).val = .occupied) (ha : a.exhausts = some p) :
      TStep cfg v (.cleanup b r (.slots i)) a
        ((v.setConn i (v.connections i).lock).dropGuard r.guard (r.panicking || p))
        (.cleanup b (r.again (.conn i) p) .load) .none
  | slotsDone (b : ℕ) (r : Failure) (i : ℕ) (hi : ¬ i < cfg.io.httpConnections) :
      TStep cfg v (.cleanup b r (.slots i)) .step v (.cleanup b r .future) .none
  | future (b : ℕ) (r : Failure) (hf : v.future.free = true) :
      TStep cfg v (.cleanup b r .future) .step (v.setFuture (v.future.set none))
        (.cleanup b r .wipe) .none
  | futurePanics (b : ℕ) (r : Failure) (hf : v.future.free = true) :
      TStep cfg v (.cleanup b r .future) .panic
        (v.setFuture ((v.future.set none).leave (!r.panicking))) (.cleanup b r .future) .die
  | futureAgain (b : ℕ) (r : Failure) (a : TaskAct) (p : Bool) (hf : v.future.free = true)
      (hs : v.future.val.isSome = true) (ha : a.exhausts = some p) :
      TStep cfg v (.cleanup b r .future) a
        ((v.setFuture (v.future.set none).lock).dropGuard r.guard (r.panicking || p))
        (.cleanup b (r.again .future p) .load) .none
  | wipe (b : ℕ) (r : Failure) :
      TStep cfg v (.cleanup b r .wipe) .step (v.setRemaining cfg.bucketSize)
        (.cleanup b r .release) .wipe
  | release (b : ℕ) (r : Failure) :
      TStep cfg v (.cleanup b r .release) .step (v.setRefcount (v.refcount.set 0)) .idle .none

/-- what the accept thread can do in one step on its bucket -/
inductive AStep (cfg : Cfg) (v : Bucket) : AcceptPc → Bucket → AcceptPc → Effect → Prop where
  | claim (fd : RawFd) (i : ℕ) (hi : i < cfg.bucketCount) (hv : v.refcount.val = 0) :
      AStep cfg v (.claiming fd i) ((v.setRefcount (v.refcount.set 1)).log .claim) (.setting fd i)
        .none
  | next (fd : RawFd) (i : ℕ) (hi : i < cfg.bucketCount) :
      AStep cfg v (.claiming fd i) v (.claiming fd (i + 1)) .none
  | noSpace (fd : RawFd) (i : ℕ) (hi : ¬ i < cfg.bucketCount) :
      AStep cfg v (.claiming fd i) v .idle (.close fd)
  | lock (fd : RawFd) (b : ℕ) (hf : v.future.free = true) :
      AStep cfg v (.setting fd b) (v.setFuture v.future.lock) (.replacing fd b) .none
  | lockPanics (fd : RawFd) (b : ℕ) :
      AStep cfg v (.setting fd b) v (.dead (some b)) (.close fd)
  | replace (fd : RawFd) (b : ℕ) :
      AStep cfg v (.replacing fd b) (v.setFuture (v.future.set (some ⟨[]⟩)).unlock)
        (.storing fd b v.future.val.isSome) .none
  | store (fd : RawFd) (b : ℕ) (old : Bool) :
      AStep cfg v (.storing fd b old) ((v.setTcpStream fd).log (.store fd)) (.checking b old) .none
  | check (b : ℕ) : AStep cfg v (.checking b false) v (.enqueueing b) .none
  | assertFails (b : ℕ) : AStep cfg v (.checking b true) v (.dead none) .none
  | indexPanics (b : ℕ) : AStep cfg v (.enqueueing b) v (.dead none) .none
  | enqueue (b : ℕ) (q : QueueIndex) (c : Enqueue)
      (hq : QueueIndex.fromBucketIndex cfg.io ⟨0, .ofNat b⟩ = some q)
      (hc : initialEnqueue cfg q = some c) :
      AStep cfg v (.enqueueing b) v .idle (.enqueue q)

/-! ## what a guard leaves as it is -/

section
variable {v : Bucket}

theorem val_setConn_same {i : ℕ} {m : Mutex Slot} (hm : m.val = (v.connections i).val) (j : ℕ) :
    ((v.setConn i m).connections j).val = (v.connections j).val := by
  show (Function.update v.connections i m j).val = _
  by_cases e : j = i
  · subst e
    rw [Function.update_self, hm]
  · rw [Function.update_of_ne e]

/-- A guard that is dropped leaves the values. -/
@[simp] theorem future_val_dropGuard (v : Bucket) (gd : Guard) (p : Bool) :
    (v.dropGuard gd p).future.val = v.future.val := by
  cases gd with
  | future => exact Mutex.val_leave ..
  | conn i => rfl

@[simp] theorem conn_val_dropGuard (v : Bucket) (gd : Guard) (p : Bool) (j : ℕ) :
    ((v.dropGuard gd p).connections j).val = (v.connections j).val := by
  cases gd with
  | future => rfl
  | conn i => exact val_setConn_same (Mutex.val_leave ..) j

theorem val_setConn_self (i : ℕ) (m : Mutex Slot) :
    ((v.setConn i m).connections i).val = m.val := by
  show (Function.update v.connections i m i).val = _
  rw [Function.update_self]

theorem val_setConn_ne {i j : ℕ} (m : Mutex Slot) (hne : j ≠ i) :
    ((v.setConn i m).connections j).val = (v.connections j).val := by
  show (Function.update v.connections i m j).val = _
  rw [Function.update_of_ne hne]

@[simp] theorem refcount_dropGuard (v : Bucket) (gd : Guard) (p : Bool) :
    (v.dropGuard gd p).refcount = v.refcount := by
  cases gd <;> rfl

@[simp] theorem remaining_dropGuard (v : Bucket) (gd : Guard) (p : Bool) :
    (v.dropGuard gd p).remaining = v.remaining := by
  cases gd <;> rfl

@[simp] theorem trace_dropGuard (v : Bucket) (gd : Guard) (p : Bool) :
    (v.dropGuard gd p).trace = v.trace := by
  cases gd <;> rfl

@[simp] theorem tcpStream_dropGuard (v : Bucket) (gd : Guard) (p : Bool) :
    (v.dropGuard gd p).tcpStream = v.tcpStream := by
  cases gd <;> rfl

end

/-! ## every step is one of these -/

section
variable {cfg : Cfg} {v v' : Bucket} {t t' : TaskPc} {a : TaskAct} {e : Effect} {b i : ℕ}

theorem TStep.of_pollMain (h : v.pollMain b a = some (v', t', e)) :
    TStep cfg v (.main b .polling) a v' t' e := by
  cases a with
  | step => cases h
  | alloc l =>
    simp only [Bucket.pollMain] at h
    split at h
    · next n hn => cases h; exact .alloc _ l n (.inl ⟨b, rfl⟩) hn
    · cases h; exact .longjmp _ _ b (.inl ⟨_, rfl⟩) rfl
  | connect => cases h; exact .connect b
  | populate i =>
    simp only [Bucket.pollMain] at h
    split at h
    · next hi =>
      split at h
      · next hf =>
        split at h
        · next hr => cases h; exact .populate b i hi hf hr
        · next hr => cases h; exact .populateTaken b i hi hf hr
      · cases h; exact .raise _ _ b false (.main _)
    · cases h
  | forget i =>
    simp only [Bucket.pollMain] at h
    split at h
    · next hi => cases h; exact .forget b i hi
    · cases h
  | pending => cases h; exact .pending b
  | ready => cases h; exact .ready b
  | panic => cases h; exact .raise _ _ b false (.main _)
  | oom => cases h; exact .longjmp _ _ b (.inl ⟨_, rfl⟩) rfl
  | panicOom => cases h

theorem TStep.of_handshakeStep {k : HandshakePc} (h : v.handshakeStep cfg b k = some (v', t', e)) :
    TStep cfg v (.main b k) .step v' t' e := by
  cases k with
  | polling => cases h
  | count =>
    simp only [Bucket.handshakeStep] at h
    split at h
    · cases h; exact .raise _ _ b false (.main _)
    · split at h
      · next hv => cases h; exact .countZero b hv
      · next hv =>
        split at h
        · next hlt => cases h; exact .count b hv hlt
        · next hge => cases h; exact .countOverflow b hge
  | search i counted =>
    simp only [Bucket.handshakeStep] at h
    split at h
    · next hi =>
      split at h
      · next hf => cases h; exact .reserve b i counted hi hf.1 hf.2
      · cases h; exact .search b i counted hi
    · cases h; exact .raise _ _ b counted (.main _)
  | enqueue i =>
    simp only [Bucket.handshakeStep] at h
    split at h
    · cases h; exact .raise _ _ b false (.main _)
    · next q hq =>
      split at h
      · cases h; exact .raise _ _ b false (.main _)
      · next c hc => cases h; exact .enqueue b i q c hq hc

theorem TStep.of_pollConn (h : v.pollConn b i a = some (v', t', e)) :
    TStep cfg v (.conn b i) a v' t' e := by
  cases a with
  | alloc l =>
    simp only [Bucket.pollConn] at h
    split at h
    · next n hn => cases h; exact .alloc _ l n (.inr ⟨b, i, rfl⟩) hn
    · cases h; exact .longjmpConn _ _ b i false (.inl rfl) rfl
  | pending => cases h; exact .connPending b i
  | ready => cases h; exact .connReady b i
  | panic => cases h; exact .connPanics _ b i (.inl rfl)
  | oom => cases h; exact .longjmpConn _ _ b i false (.inl rfl) rfl
  | panicOom => cases h; exact .longjmpConn _ _ b i true (.inl rfl) rfl
  | _ => cases h

theorem TStep.of_cleanupStep {r : Failure} {k : CleanupPc}
    (h : v.cleanupStep cfg b r k a = some (v', t', e)) : TStep cfg v (.cleanup b r k) a v' t' e := by
  unfold Bucket.cleanupStep at h
  split at h
  · cases h; exact .load b r
  · next fd => cases h; exact .respond b r fd
  · next fd => cases h; exact .closeError b r fd
  · next i =>
    split at h
    · next hi =>
      split at h
      · next hf => cases h; exact .slot b r i hi hf
      · next hf => cases h; exact .die _ _ (.slots b r i (Bool.eq_false_iff.mpr hf) hi)
    · next hi => cases h; exact .slotsDone b r i hi
  · next i =>
    split at h
    · next hi => cases h; exact .slotPanics b r i hi.1 hi.2.1
    · cases h
  · next i =>
    split at h
    · next hi => cases h; exact .slotAgain b r i _ false hi.1 hi.2.1 hi.2.2 rfl
    · cases h
  · next i =>
    split at h
    · next hi => cases h; exact .slotAgain b r i _ true hi.1 hi.2.1 hi.2.2 rfl
    · cases h
  · split at h
    · next hp => cases h; exact .die _ _ (.future b r hp)
    · next hp =>
      split at h
      · cases h
      · next hl =>
        cases h
        exact .future b r (Mutex.free_eq_true.mpr
          ⟨Bool.eq_false_iff.mpr hl, Bool.eq_false_iff.mpr hp⟩)
  · split at h
    · next hf => cases h; exact .futurePanics b r hf.1
    · cases h
  · split at h
    · next hf => cases h; exact .futureAgain b r _ false hf.1 hf.2 rfl
    · cases h
  · split at h
    · next hf => cases h; exact .futureAgain b r _ true hf.1 hf.2 rfl
    · cases h
  · cases h; exact .wipe b r
  · split at h
    · next hp => cases h; exact .die _ _ (.release b r hp)
    · cases h; exact .release b r
  · cases h

theorem TStep.of_taskStep (h : v.taskStep cfg t a = some (v', t', e)) : TStep cfg v t a v' t' e := by
  unfold Bucket.taskStep at h
  split at h
  · next b off =>
    split at h
    · next t1 hd => cases h; exact .dispatch b off _ hd
    · next hd => cases h; exact .die _ _ (.unknown b off hd)
  · next b =>
    split at h
    · next hf =>
      split at h
      · next hn => cases h; exact .stale b hf hn
      · next f hs => cases h; exact .take b f hf hs
    · next hf => cases h; exact .die _ _ (.takeMain b (Bool.eq_false_iff.mpr hf))
  · exact .of_pollMain h
  · exact .of_handshakeStep h
  · next b k _ => cases h; exact .raise _ _ b _ (.main k)
  · next b k _ => cases h; exact .longjmp _ _ b (.inl ⟨k, rfl⟩) rfl
  · next b => cases h; exact .reclaim b
  · next b fd => cases h; exact .close b fd
  · next b => cases h; exact .dropped b
  · next b => cases h; exact .raise _ _ b true .dropping
  · next b => cases h; exact .longjmp _ _ b (.inr rfl) rfl
  · next b owed => cases h; exact .unwind b owed
  · next b owed => cases h; exact .longjmpUnwinding b owed
  · next b owed => cases h; exact .clearPoison b owed
  · next b i =>
    split at h
    · next hp => cases h; exact .die _ _ (.takeConn b i hp)
    · next hp =>
      split at h
      · cases h
      · next hl =>
        split at h
        · next he => cases h; exact .afterDeath b i he
        · next hr => cases h; exact .connReserved b i hr
        · next ho =>
          cases h
          exact .takeConn b i (Mutex.free_eq_true.mpr
            ⟨Bool.eq_false_iff.mpr hl, Bool.eq_false_iff.mpr hp⟩) ho
  · exact .of_pollConn h
  · next b i => cases h; exact .connDropped b i
  · next b i => cases h; exact .connPanics _ b i (.inr rfl)
  · next b i => cases h; exact .longjmpConn _ _ b i false (.inr rfl) rfl
  · next b i => cases h; exact .longjmpConn _ _ b i true (.inr rfl) rfl
  · next b =>
    split at h
    · next hp => cases h; exact .die _ _ (.ready b hp)
    · split at h
      · next hv => cases h; exact .readyZero b hv
      · next hv0 =>
        split at h
        · next hv => cases h; exact .readyLast b hv
        · next hv => cases h; exact .readyMore b (by omega)
  · exact .of_cleanupStep h
  · cases h

theorem AStep.of_acceptStep {busy : Bool} {p p' : AcceptPc}
    (h : v.acceptStep cfg busy p = some (v', p', e)) : AStep cfg v p v' p' e := by
  unfold Bucket.acceptStep at h
  split at h
  · next fd i =>
    split at h
    · next hi =>
      split at h
      · next hc => cases h; exact .claim fd i hi hc.2.2
      · cases h; exact .next fd i hi
    · next hi => cases h; exact .noSpace fd i hi
  · next fd b =>
    split at h
    · next hf => cases h; exact .lock fd b hf.2
    · cases h; exact .lockPanics fd b
  · next fd b => cases h; exact .replace fd b
  · next fd b old => cases h; exact .store fd b old
  · next b old =>
    cases old with
    | false => cases h; exact .check b
    | true => cases h; exact .assertFails b
  · next b =>
    split at h
    · cases h; exact .indexPanics b
    · next q hq =>
      split at h
      · cases h; exact .indexPanics b
      · next c hc => cases h; exact .enqueue b q c hq hc
  · cases h

/-- A worker stays with its bucket until it is idle again. -/
theorem TStep.bucket
    (hd : ∀ b off t', t = .job b off → Nea.dispatch cfg b off = some t' → t'.bucket = some b)
    (h : TStep cfg v t a v' t' e) : t'.bucket = t.bucket ∨ t' = .idle := by
  cases h with
  | dispatch b off t1 h1 => exact .inl (hd b off t' rfl h1)
  | longjmp _ _ b ht => rcases ht with ⟨k, rfl⟩ | rfl <;> exact .inl rfl
  | longjmpConn _ _ b i p ht => rcases ht with rfl | rfl <;> exact .inl rfl
  | raise _ _ b owed h1 => cases h1 <;> exact .inl rfl
  | pending => exact .inr rfl
  | afterDeath => exact .inr rfl
  | connPending => exact .inr rfl
  | readyLast => exact .inr rfl
  | readyMore => exact .inr rfl
  | release => exact .inr rfl
  | _ => exact .inl rfl

end
end Nea
