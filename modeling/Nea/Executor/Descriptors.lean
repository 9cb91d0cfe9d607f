import Nea.Executor.Cleanup
import Nea.Executor.Refcount
import Nea.Lib.Holding

/-!
# The descriptors of clients

`set` turns the descriptor of a client into a number in `tcp_streams`, and `poll_input_stream` and
`cleanup_bucket` turn the number into a descriptor again.  Nothing resets it, so that only the
course of events says whether the number is still that of the current request:

* `pendingFd`         the descriptor stored for the request at hand and not reclaimed since;
* `honest`            every reclaim of a history takes the pending descriptor;
* `reclaimOk`         the condition: what `cleanup_bucket` cleans up has its main future (the first
                      to reclaim is `poll_input_stream`, which takes it out), it is not run again
                      for the same failure, and `set` is not between its two writes;
* `Deposited`         the invariant of a bucket under this condition;
* `reclaim_once`      histories are honest in exactly the runs that keep to the condition, and then
                      nothing closes or writes to a descriptor of somebody else.
-/

set_option linter.unusedSectionVars false

namespace Nea

/-! ## histories -/

/-- the descriptor that was stored for the request at hand and not reclaimed since -/
def pendingFd : List FdEvent → Option RawFd
  | .store fd :: _ => some fd
  | _ => none

/-- every reclaim takes the pending descriptor -/
def honest : List FdEvent → Bool
  | [] => true
  | .reclaim fd :: l => pendingFd l == some fd && honest l
  | .claim :: l => honest l
  | .store _ :: l => honest l

theorem honest_reclaim {fd : RawFd} {l : List FdEvent} :
    honest (.reclaim fd :: l) = true ↔ pendingFd l = some fd ∧ honest l = true := by
  simp [honest]

/-- In an honest history a descriptor is reclaimed as often as it was stored, less the one that is
pending. -/
theorem count_reclaim_le (fd : RawFd) {l : List FdEvent} (h : honest l = true) :
    l.count (.reclaim fd) + (if pendingFd l = some fd then 1 else 0) ≤ l.count (.store fd) := by
  induction l with
  | nil => simp [pendingFd]
  | cons e l ih =>
    cases e with
    | claim =>
      have := ih h
      simp only [pendingFd, List.count_cons]
      simp
      omega
    | store fd' =>
      have := ih h
      by_cases hf : fd' = fd
      · subst hf
        simp only [pendingFd, List.count_cons]
        simp
        omega
      · simp only [pendingFd, List.count_cons]
        simp [hf]
        omega
    | reclaim fd' =>
      obtain ⟨hp, hl⟩ := honest_reclaim.mp h
      have h1 := ih hl
      rw [hp] at h1
      by_cases hf : fd' = fd
      · subst hf
        simp only [pendingFd, List.count_cons]
        simp at h1 ⊢
        omega
      · simp only [pendingFd, List.count_cons]
        simp [hf] at h1 ⊢
        omega

/-! ## the steps that move a descriptor -/

/-- the next step takes the number out of `tcp_streams` -/
def TaskPc.reclaims : TaskPc → Bool
  | .mainTaken _ => true
  | .cleanup _ _ .load => true
  | _ => false

/-- the descriptor that a worker has reclaimed and not closed -/
def TaskPc.fd : TaskPc → Option RawFd
  | .mainClosing _ fd => some fd
  | .cleanup _ _ (.respond fd) => some fd
  | .cleanup _ _ (.close fd) => some fd
  | _ => none

theorem TaskPc.fd_of_reclaims {t : TaskPc} (h : t.reclaims = true) : t.fd = none := by
  cases t with
  | mainTaken => rfl
  | cleanup b r k => cases k <;> first | rfl | cases h
  | _ => cases h

/-- the main future is taken out, its descriptor is not reclaimed yet -/
def TaskPc.taken : TaskPc → Bool
  | .mainTaken _ => true
  | _ => false

/-- in `cleanup_bucket`, after the descriptor was reclaimed, by this call or by an earlier one for
the same failure -/
def TaskPc.cleaned : TaskPc → Bool
  | .cleanup _ f .load => f.left.isSome
  | .cleanup _ _ _ => true
  | _ => false

/-- the client the accept thread has accepted and not stored -/
def AcceptPc.fd : AcceptPc → Option RawFd
  | .claiming fd _ => some fd
  | .setting fd _ => some fd
  | .replacing fd _ => some fd
  | .storing fd _ _ => some fd
  | _ => none

section
variable {cfg : Cfg} {v v' : Bucket} {t t' : TaskPc} {g g' : Gate} {a : TaskAct} {e : Effect}

/-- **A worker reclaims the number that is stored, closes what it has reclaimed, or moves no
descriptor.** -/
theorem TStep.descriptor (ht : TaskOk cfg t) (hs : TStep cfg v t a v' t' e) :
    (t.reclaims = true ∧ v'.trace = .reclaim v.tcpStream :: v.trace ∧ t'.fd = some v.tcpStream ∧
      ∀ fd, e ≠ .close fd) ∨
    (∃ fd, t.fd = some fd ∧ t'.fd = none ∧ v'.trace = v.trace ∧ e = .close fd) ∨
    (t.reclaims = false ∧ v'.trace = v.trace ∧ t'.fd = t.fd ∧ ∀ fd, e ≠ .close fd) := by
  cases hs with
  | dispatch b off _ hd =>
    rcases dispatch_eq ht hd with ⟨rfl, _⟩ | ⟨i, _, rfl, _⟩ <;>
      exact .inr (.inr ⟨rfl, rfl, rfl, nofun⟩)
  | die _ _ hd => cases hd <;> exact .inr (.inr ⟨rfl, rfl, rfl, nofun⟩)
  | alloc _ l n ht' hn =>
    rcases ht' with ⟨b, rfl⟩ | ⟨b, i, rfl⟩ <;> exact .inr (.inr ⟨rfl, rfl, rfl, nofun⟩)
  | longjmp _ _ b ht' =>
    rcases ht' with ⟨k, rfl⟩ | rfl <;> exact .inr (.inr ⟨rfl, rfl, rfl, nofun⟩)
  | longjmpConn _ _ b i p ht' =>
    rcases ht' with rfl | rfl <;> exact .inr (.inr ⟨rfl, rfl, rfl, nofun⟩)
  | raise _ _ b owed hr => cases hr <;> exact .inr (.inr ⟨rfl, rfl, rfl, nofun⟩)
  | connPanics _ b i ht' =>
    rcases ht' with rfl | rfl <;> exact .inr (.inr ⟨rfl, rfl, rfl, nofun⟩)
  | reclaim b => exact .inl ⟨rfl, rfl, rfl, nofun⟩
  | load b r => exact .inl ⟨rfl, rfl, rfl, nofun⟩
  | close b fd => exact .inr (.inl ⟨fd, rfl, rfl, rfl, rfl⟩)
  | closeError b r fd => exact .inr (.inl ⟨fd, rfl, rfl, rfl, rfl⟩)
  | slotAgain => exact .inr (.inr ⟨rfl, trace_dropGuard .., rfl, nofun⟩)
  | futureAgain => exact .inr (.inr ⟨rfl, trace_dropGuard .., rfl, nofun⟩)
  | _ => exact .inr (.inr ⟨rfl, rfl, rfl, nofun⟩)

/-- The accept thread closes its client, stores it, or keeps it. -/
theorem AStep.descriptor {p p' : AcceptPc} (hs : AStep cfg v p v' p' e) :
    (∃ fd, p.fd = some fd ∧ p'.fd = none ∧ v'.trace = v.trace ∧ e = .close fd) ∨
    (∃ fd, p.fd = some fd ∧ p'.fd = none ∧ v'.trace = .store fd :: v.trace ∧ e = .none) ∨
    (p'.fd = p.fd ∧ (v'.trace = v.trace ∨ v'.trace = .claim :: v.trace) ∧ ∀ fd, e ≠ .close fd) := by
  cases hs with
  | claim fd i => exact .inr (.inr ⟨rfl, .inr rfl, nofun⟩)
  | noSpace fd i hi => exact .inl ⟨fd, rfl, rfl, rfl, rfl⟩
  | lockPanics fd b => exact .inl ⟨fd, rfl, rfl, rfl, rfl⟩
  | store fd b old => exact .inr (.inl ⟨fd, rfl, rfl, rfl, rfl⟩)
  | _ => exact .inr (.inr ⟨rfl, .inl rfl, nofun⟩)

/-! ## the invariant of a bucket -/

/-- the number in `tcp_streams` is that of an open request -/
def Bucket.deposit (v : Bucket) (t : TaskPc) (g : Gate) : Bool :=
  (v.future.val.isSome || t.taken) && !g.isStoring && !t.cleaned

structure Deposited (v : Bucket) (t : TaskPc) (g : Gate) : Prop where
  honest : honest v.trace = true
  pending : pendingFd v.trace = if v.deposit t g = true then some v.tcpStream else none
  storing : g.isStoring = true → (v.future.val.isSome || t.taken) = true ∧ t.cleaned = false
  taken : t.taken = true → v.future.val = none

/-- the condition: a reclaim never falls between the two writes of `set`, `cleanup_bucket` finds the
main future of the request it cleans up, and it has not been left through a destructor before -/
def reclaimOk (v : Bucket) (t : TaskPc) (g : Gate) (_ : TaskAct) : Prop :=
  t.reclaims = true → g.isStoring = false ∧ t.cleaned = false ∧
    (t.taken = false → v.future.val.isSome = true)

instance (v : Bucket) (t : TaskPc) (g : Gate) (a : TaskAct) : Decidable (reclaimOk v t g a) := by
  unfold reclaimOk; infer_instance

theorem cleansLive_of_reclaimOk (h : Counted cfg v t g) (hok : reclaimOk v t g a) :
    cleansLive v t g a := by
  rintro b r rfl
  have hs : v.future.val.isSome = true := (hok rfl).2.2 rfl
  have hp : v.mainLive g + v.liveConns cfg ≤ v.refcount.val := h.place.1
  rw [mainLive_some g hs] at hp
  refine ⟨by omega, ?_⟩
  cases hg : g.claimed with
  | false => rfl
  | true =>
    rw [(h.parked hg).1] at hs
    cases hs

/-- The same number, the same history. -/
theorem Deposited.keep (h : Deposited v t g) (htr : v'.trace = v.trace)
    (hfd : v'.tcpStream = v.tcpStream)
    (hf : (v'.future.val.isSome || t'.taken) = (v.future.val.isSome || t.taken))
    (hc : t'.cleaned = t.cleaned) (ht : t'.taken = true → v'.future.val = none) :
    Deposited v' t' g where
  honest := htr ▸ h.honest
  pending := by
    unfold Bucket.deposit
    rw [htr, hfd, hf, hc]
    exact h.pending
  storing := by
    rw [hf, hc]
    exact h.storing
  taken := ht

/-- A reclaim that the condition admits. -/
theorem Deposited.reclaim (h : Deposited v t g) (hok : reclaimOk v t g a) (hr : t.reclaims = true) :
    pendingFd v.trace = some v.tcpStream := by
  obtain ⟨h1, hc, h2⟩ := hok hr
  have hd : v.deposit t g = true := by
    unfold Bucket.deposit
    rw [h1, hc]
    cases ht : t.taken with
    | true => simp
    | false => simp [h2 ht]
  rw [h.pending, if_pos hd]

/-- A reclaim that the condition does not admit. -/
theorem Deposited.not_reclaim (h : Deposited v t g) (hok : ¬ reclaimOk v t g a) :
    t.reclaims = true ∧ pendingFd v.trace = none := by
  unfold reclaimOk at hok
  simp only [Classical.not_imp, not_and_or, Bool.not_eq_false, Bool.not_eq_true] at hok
  obtain ⟨hr, hok⟩ := hok
  refine ⟨hr, ?_⟩
  have hd : v.deposit t g = false := by
    unfold Bucket.deposit
    rcases hok with h1 | h1 | ⟨h1, h2⟩
    · simp [h1]
    · simp [h1]
    · simp [h1, h2]
  rw [h.pending, hd]
  rfl

/-- Inside `cleanup_bucket` nothing is pending, whatever happens to the future. -/
theorem Deposited.after_cleanup (h : Deposited v t g) (hc : t.cleaned = true)
    (htr : v'.trace = v.trace) (hd : v'.deposit t' g = false) (ht : t'.taken = false) :
    Deposited v' t' g where
  honest := htr ▸ h.honest
  pending := by
    have hd0 : v.deposit t g = false := by simp [Bucket.deposit, hc]
    have hp := h.pending
    rw [hd0] at hp
    rw [htr, hd]
    exact hp
  storing hst := by
    have := (h.storing hst).2
    rw [hc] at this
    cases this
  taken h1 := by rw [ht] at h1; cases h1

theorem Deposited.task (ht : TaskOk cfg t) (hc : Counted cfg v t g) (h : Deposited v t g)
    (hok : reclaimOk v t g a) (hs : TStep cfg v t a v' t' e) : Deposited v' t' g := by
  cases hs with
  | dispatch b off _ hd =>
    rcases dispatch_eq ht hd with ⟨rfl, _⟩ | ⟨i, _, rfl, _⟩ <;> exact h.keep rfl rfl rfl rfl nofun
  | die => exact h
  | alloc _ l n ht' hn => exact h.keep rfl rfl rfl rfl h.taken
  | longjmp _ _ b ht' => rcases ht' with ⟨k, rfl⟩ | rfl <;> exact h.keep rfl rfl rfl rfl nofun
  | longjmpUnwinding b owed => exact h.keep rfl rfl rfl rfl nofun
  | longjmpConn _ _ b i p ht' => rcases ht' with rfl | rfl <;> exact h.keep rfl rfl rfl rfl nofun
  | raise _ _ b owed hr => cases hr <;> exact h.keep rfl rfl rfl rfl nofun
  | connPanics _ b i ht' => rcases ht' with rfl | rfl <;> exact h.keep rfl rfl rfl rfl nofun
  | populate b i hi hf hr =>
    refine h.keep rfl rfl ?_ rfl nofun
    rw [(hc.main rfl).1]
    rfl
  | forget b i hi =>
    refine h.keep rfl rfl ?_ rfl nofun
    rw [(hc.main rfl).1]
    rfl
  | reserve b i counted hi hf he =>
    refine h.keep rfl rfl ?_ rfl nofun
    rw [(hc.main rfl).1]
    rfl
  | ready b =>
    refine h.keep rfl rfl ?_ rfl (fun _ => rfl)
    rw [(hc.main rfl).1]
    rfl
  | reclaim b =>
    have hn := h.taken rfl
    have hg := (hok rfl).1
    refine ⟨honest_reclaim.mpr ⟨h.reclaim hok rfl, h.honest⟩, ?_, ?_, nofun⟩
    · show none = if v.deposit (.mainClosing b v.tcpStream) g = true then _ else _
      unfold Bucket.deposit
      rw [hn]
      rfl
    · intro hst
      rw [hg] at hst
      cases hst
  | load b r =>
    have hg := (hok rfl).1
    refine ⟨honest_reclaim.mpr ⟨h.reclaim hok rfl, h.honest⟩, ?_, ?_, nofun⟩
    · show none = if v.deposit (.cleanup b r (.respond v.tcpStream)) g = true then _ else _
      unfold Bucket.deposit
      simp [TaskPc.cleaned]
    · intro hst
      rw [hg] at hst
      cases hst
  | future b r hf => exact h.after_cleanup rfl rfl (by simp [Bucket.deposit, TaskPc.cleaned]) rfl
  | futurePanics b r hf =>
    exact h.after_cleanup rfl rfl (by simp [Bucket.deposit, TaskPc.cleaned]) rfl
  | slotAgain b r i _ p =>
    exact h.after_cleanup rfl (trace_dropGuard ..)
      (by simp [Bucket.deposit, TaskPc.cleaned, Failure.again]) rfl
  | futureAgain b r _ p =>
    exact h.after_cleanup rfl (trace_dropGuard ..)
      (by simp [Bucket.deposit, TaskPc.cleaned, Failure.again]) rfl
  | release b r =>
    have hn : v.future.val = none := hc.place.2.2.2
    exact h.after_cleanup rfl rfl (by simp [Bucket.deposit, TaskPc.taken, hn]) rfl
  | _ => exact h.keep rfl rfl rfl rfl nofun

theorem TaskPc.not_taken_of_quiet (h : t.quiet = true) : t.taken = false ∧ t.cleaned = false := by
  cases t with
  | mainTaken => cases h
  | cleanup b r k =>
    cases k with
    | load =>
      refine ⟨rfl, ?_⟩
      have hn : r.left.isNone = true := h
      show r.left.isSome = false
      rw [Option.isNone_iff_eq_none.mp hn]
      rfl
    | _ => cases h
  | _ => exact ⟨rfl, rfl⟩

theorem Deposited.accept (ht : TaskOk cfg t) (hc : Counted cfg v t g) (h : Deposited v t g)
    (hs : GStep v g v' g') : Deposited v' t g' := by
  cases hs with
  | claim hv =>
    obtain ⟨hf, _, _, hq⟩ := hc.of_zero ht hv
    refine ⟨h.honest, ?_, nofun, h.taken⟩
    show none = if ((v.setRefcount _).log .claim).deposit t .setting = true then _ else none
    simp [Bucket.deposit, hf, (TaskPc.not_taken_of_quiet hq).1]
  | lock => exact ⟨h.honest, h.pending, nofun, h.taken⟩
  | fail => exact ⟨h.honest, h.pending, nofun, h.taken⟩
  | replace =>
    obtain ⟨hf, _, hq⟩ := hc.parked rfl
    obtain ⟨h1, h2⟩ := TaskPc.not_taken_of_quiet hq
    have hp := h.pending
    have hd : v.deposit t .replacing = false := by simp [Bucket.deposit, hf, h1]
    rw [hd] at hp
    refine ⟨h.honest, ?_, fun _ => ⟨rfl, h2⟩, fun h3 => by rw [h1] at h3; cases h3⟩
    have hd' : (v.setFuture (v.future.set (some ⟨[]⟩)).unlock).deposit t
        (.storing v.future.val.isSome) = false := by simp [Bucket.deposit, Gate.isStoring]
    rw [hd']
    exact hp
  | store fd old =>
    obtain ⟨h1, h2⟩ := h.storing rfl
    refine ⟨h.honest, ?_, nofun, h.taken⟩
    have hd : ((v.setTcpStream fd).log (.store fd)).deposit t (.checking old) = true := by
      unfold Bucket.deposit
      rw [h2]
      show (v.future.val.isSome || t.taken) && true && true = true
      rw [h1]
      rfl
    rw [hd]
    rfl
  | checked => exact ⟨h.honest, h.pending, nofun, h.taken⟩

end

/-! ## who has a descriptor -/

section
variable {W T : Type} [DecidableEq W] [DecidableEq T]
variable {cfg : Cfg} {s s' : State W T}

/-- the places a descriptor of a client can be at -/
inductive Holder (W : Type) where
  | accept
  /-- `tcp_streams` -/
  | bucket (b : ℕ)
  | worker (w : W)
deriving DecidableEq

def State.holds (s : State W T) : Holder W → Option RawFd
  | .accept => s.accept.fd
  | .bucket b => pendingFd (s.bucket b).trace
  | .worker w => (s.task w).fd

theorem State.holds_setBucket (b : ℕ) (v : Bucket) :
    (s.setBucket b v).holds = Function.update s.holds (.bucket b) (pendingFd v.trace) := by
  funext h
  cases h with
  | bucket b' =>
    show pendingFd (Function.update s.bucket b v b').trace = _
    by_cases e : b' = b
    · rw [e, Function.update_self, Function.update_self]
    · rw [Function.update_of_ne e, Function.update_of_ne (by simpa using e)]
      rfl
  | accept => exact (Function.update_of_ne (by simp) _ _).symm
  | worker w => exact (Function.update_of_ne (by simp) _ _).symm

theorem State.holds_setTask (w : W) (t : TaskPc) :
    (s.setTask w t).holds = Function.update s.holds (.worker w) t.fd := by
  funext h
  cases h with
  | worker w' =>
    show (Function.update s.task w t w').fd = _
    by_cases e : w' = w
    · rw [e, Function.update_self, Function.update_self]
    · rw [Function.update_of_ne e, Function.update_of_ne (by simpa using e)]
      rfl
  | accept => exact (Function.update_of_ne (by simp) _ _).symm
  | bucket b => exact (Function.update_of_ne (by simp) _ _).symm

theorem State.holds_setAccept (p : AcceptPc) :
    (s.setAccept p).holds = Function.update s.holds .accept p.fd := by
  funext h
  cases h with
  | accept => rw [Function.update_self]; rfl
  | bucket b => exact (Function.update_of_ne (by simp) _ _).symm
  | worker w => exact (Function.update_of_ne (by simp) _ _).symm

/-- no descriptor has two holders, and every held one is open -/
abbrev State.Exclusive (s : State W T) : Prop := Held s.holds s.fds

variable [Fintype W]

theorem State.emit_fds {t : Thread W T} {e : Effect} (h : s.emit cfg t e = some s') :
    s'.holds = s.holds ∧ ((∃ fd, e = .close fd ∧ s'.fds = Function.update s.fds fd false) ∨
      ((∀ fd, e ≠ .close fd) ∧ s'.fds = s.fds)) := by
  obtain ⟨hb, hp, ht, _⟩ := State.emit_eq h
  refine ⟨?_, ?_⟩
  · funext x
    cases x <;> simp only [State.holds, hb, hp, ht]
  · have hmap : ∀ a, (s.q.step cfg a).map s.setQ = some s' → s'.fds = s.fds := by
      intro a ha
      obtain ⟨q, _, rfl⟩ := Option.map_eq_some_iff.mp ha
      rfl
    unfold State.emit at h
    split at h
    · exact .inr ⟨nofun, hmap _ h⟩
    · next fd => cases h; exact .inl ⟨fd, rfl, rfl⟩
    · split at h
      · exact .inr ⟨nofun, hmap _ h⟩
      · cases h; exact .inr ⟨nofun, rfl⟩
    · split at h
      · exact .inr ⟨nofun, hmap _ h⟩
      · cases h
    · next h1 _ _ => cases h; exact .inr ⟨fun fd => h1 fd, rfl⟩

/-- A worker takes a step on its bucket, and reclaims only what is pending there. -/
theorem State.Exclusive.setTask (hx : s.Exclusive) {w : W} {b : ℕ} {v : Bucket} {t : TaskPc}
    {a : TaskAct} {e : Effect} (ht : TaskOk cfg (s.task w))
    (hr : (s.task w).reclaims = true →
      pendingFd (s.bucket b).trace = some (s.bucket b).tcpStream)
    (hs : TStep cfg (s.bucket b) (s.task w) a v t e)
    (he : ((s.setBucket b v).setTask w t).emit cfg (.worker w) e = some s') : s'.Exclusive := by
  obtain ⟨hh, hfd⟩ := State.emit_fds he
  unfold State.Exclusive
  rw [hh, State.holds_setTask, State.holds_setBucket]
  rcases hs.descriptor ht with ⟨h1, h2, h3, h4⟩ | ⟨fd, h1, h2, h3, rfl⟩ | ⟨_, h2, h3, h4⟩
  · rcases hfd with ⟨fd, h5, _⟩ | ⟨_, h5⟩
    · exact absurd h5 (h4 fd)
    rw [h5, h2, h3]
    exact hx.move (h := .bucket b) (hr h1) _
  · rcases hfd with ⟨fd', h5, h6⟩ | ⟨h5, _⟩
    · cases h5
      have hsame : Function.update s.holds (.bucket b) (pendingFd v.trace) = s.holds := by
        rw [h3]
        exact Function.update_eq_self _ _
      rw [h6, h2, hsame]
      exact hx.release h1
    · exact absurd rfl (h5 fd)
  · rcases hfd with ⟨fd, h5, _⟩ | ⟨_, h5⟩
    · exact absurd h5 (h4 fd)
    have hsame : Function.update s.holds (.bucket b) (pendingFd v.trace) = s.holds := by
      rw [h2]
      exact Function.update_eq_self _ _
    rw [h5, hsame, h3]
    exact (Function.update_eq_self (Holder.worker w) s.holds).symm ▸ hx

/-- The accept thread takes a step on its bucket. -/
theorem State.Exclusive.setAccept (hx : s.Exclusive) {b : ℕ} {v : Bucket} {p : AcceptPc}
    {e : Effect} (hs : AStep cfg (s.bucket b) s.accept v p e)
    (he : ((s.setBucket b v).setAccept p).emit cfg .accept e = some s') : s'.Exclusive := by
  obtain ⟨hh, hfd⟩ := State.emit_fds he
  unfold State.Exclusive
  rw [hh, State.holds_setAccept, State.holds_setBucket]
  rcases hs.descriptor with ⟨fd, h1, h2, h3, rfl⟩ | ⟨fd, h1, h2, h3, rfl⟩ | ⟨h1, h2, h4⟩
  · rcases hfd with ⟨fd', h5, h6⟩ | ⟨h5, _⟩
    · cases h5
      have hsame : Function.update s.holds (.bucket b) (pendingFd v.trace) = s.holds := by
        rw [h3]
        exact Function.update_eq_self _ _
      rw [h6, h2, hsame]
      exact hx.release h1
    · exact absurd rfl (h5 fd)
  · rcases hfd with ⟨fd', h5, _⟩ | ⟨_, h5⟩
    · cases h5
    rw [h5, h2, h3, Function.update_comm (by simp)]
    exact hx.move (h := .accept) h1 _
  · rcases hfd with ⟨fd, h5, _⟩ | ⟨_, h5⟩
    · exact absurd h5 (h4 fd)
    rw [h5, h1]
    have hacc : ∀ f : Holder W → Option RawFd, f .accept = s.accept.fd →
        Function.update f .accept s.accept.fd = f := by
      intro f hf
      rw [← hf]
      exact Function.update_eq_self _ _
    rw [hacc _ (Function.update_of_ne (by simp) _ _)]
    rcases h2 with h2 | h2
    · rw [h2]
      exact (Function.update_eq_self (Holder.bucket b) s.holds).symm ▸ hx
    · rw [h2]
      exact hx.forget _

/-- **One step keeps holders apart** if it reclaims what is pending. -/
theorem State.Exclusive.step (hx : s.Exclusive) (ha : Attached cfg s) {a : Act W T}
    (hr : ∀ w b, (∃ a', a = .task w a') → (s.task w).bucket = some b →
      (s.task w).reclaims = true → pendingFd (s.bucket b).trace = some (s.bucket b).tcpStream)
    (hs : s.step cfg a = some s') : s'.Exclusive := by
  have hmap : ∀ a, (s.q.step cfg a).map s.setQ = some s' → s'.Exclusive := by
    intro a ha'
    obtain ⟨q, _, rfl⟩ := Option.map_eq_some_iff.mp ha'
    exact hx
  cases a with
  | incoming fd =>
    simp only [State.step] at hs
    split at hs
    · next hi =>
      cases hs
      have h1 : ((s.setAccept (.claiming fd 0)).setFd fd true).holds
          = Function.update s.holds .accept (some fd) := State.holds_setAccept (s := s) _
      unfold State.Exclusive
      rw [h1]
      exact hx.acquire hi.2.2 _
    · cases hs
  | accept busy =>
    simp only [State.step] at hs
    split at hs
    · obtain ⟨b, v, p, e, _, has, he⟩ := State.acceptStep_eq hs
      exact State.Exclusive.setAccept hx has he
    · cases hs
  | wake t q =>
    simp only [State.step] at hs
    split at hs
    · exact hmap _ hs
    · cases hs
  | call t waiter => exact hmap _ hs
  | spurious w => exact hmap _ hs
  | load w =>
    simp only [State.step] at hs
    split at hs
    · exact hmap _ hs
    · cases hs
  | work w =>
    obtain ⟨q, hq, rfl⟩ := Option.map_eq_some_iff.mp hs
    have h1 : ((s.setQ q).setTask w (s.afterWork w)).holds = s.holds := by
      rw [State.holds_setTask]
      have h2 : (s.afterWork w).fd = s.holds (.worker w) := by
        unfold State.afterWork
        split
        · next b i hp =>
          have hi : s.task w = .idle := ha.idle (fun b' hb' => by rw [hp] at hb'; cases hb')
          show none = (s.task w).fd
          rw [hi]
          rfl
        · rfl
      rw [h2]
      exact Function.update_eq_self _ s.holds
    unfold State.Exclusive
    rw [h1]
    exact hx
  | task w a =>
    simp only [State.step] at hs
    split at hs
    · obtain ⟨b, v, t, e, hb, hts, he⟩ := State.taskStep_eq hs
      exact State.Exclusive.setTask hx (ha.taskOk w) (hr w b ⟨a, rfl⟩ hb) hts he
    · cases hs

/-! ## runs -/

theorem deposited_localInv (cfg : Cfg) :
    LocalInv cfg reclaimOk (fun _ _ _ => True)
      (fun v t g => Counted cfg v t g ∧ Deposited v t g) where
  init := ⟨counted_init cfg, rfl, rfl, nofun, nofun⟩
  job _ _ _ _ _ h :=
    ⟨h.1.move rfl rfl rfl rfl rfl (fun _ => rfl) trivial, h.2.keep rfl rfl rfl rfl nofun⟩
  task _ _ _ _ _ _ _ ht _ h hok hs :=
    ⟨h.1.task ht (cleansLive_of_reclaimOk h.1 hok) hs, h.2.task ht h.1 hok hs⟩
  accept _ _ _ _ _ ht _ h hs := ⟨h.1.accept ht hs, h.2.accept ht h.1 hs⟩

theorem deposited_of_reach (h : (Executor.machine cfg).Reach (State.Admits reclaimOk) s) :
    s.Everywhere (fun v t g => Counted cfg v t g ∧ Deposited v t g) :=
  (deposited_localInv cfg).of_reach (fun _ _ _ _ _ => trivial) h

theorem exclusive_of_reach (h : (Executor.machine cfg).Reach (State.Admits reclaimOk) s) :
    s.Exclusive := by
  refine h.invariant (I := State.Exclusive) ?_ ?_
  · have h0 : (State.init cfg : State W T).holds = fun _ => none := by
      funext x
      cases x <;> rfl
    show Held (State.init cfg : State W T).holds _
    rw [h0]
    exact Held.empty
  · intro s a s' hr hx hok hs
    have ha := attached_of_reach hr
    refine State.Exclusive.step hx ha ?_ hs
    rintro w b ⟨a', rfl⟩ hb hrec
    exact ((deposited_of_reach hr).at_task ha hb).2.reclaim ((State.admits_task hb).mp hok) hrec

/-- what is promised of the descriptors of clients -/
structure State.Sound (s : State W T) : Prop where
  /-- `from_raw_fd` was only ever called with the descriptor stored for the request at hand, and
  once for each `store` -/
  honest : ∀ b, honest (s.bucket b).trace = true
  /-- what a thread holds, or the bucket has to reclaim, is open and of nobody else -/
  exclusive : s.Exclusive

/-- A step outside of the condition reclaims a number that is not pending. -/
theorem not_honest_of_step (h : s.Everywhere (fun v t g => Counted cfg v t g ∧ Deposited v t g))
    (ha : Attached cfg s) {a : Act W T} (hok : ¬ s.Admits reclaimOk a)
    (hs : s.step cfg a = some s') : ∃ b, Nea.honest (s'.bucket b).trace = false := by
  cases a with
  | task w a =>
    simp only [State.step] at hs
    split at hs
    · obtain ⟨b, v, t, e, hb, hts, he⟩ := State.taskStep_eq hs
      obtain ⟨hr, hn⟩ := (h.at_task ha hb).2.not_reclaim (fun hok' =>
        hok ((State.admits_task hb).mpr hok'))
      refine ⟨b, ?_⟩
      rw [(State.emit_eq he).1, State.setTask_bucket, State.setBucket_bucket, Function.update_self]
      rcases hts.descriptor (ha.taskOk w) with ⟨_, h2, _⟩ | ⟨fd, h1, _⟩ | ⟨h1, _⟩
      · rw [h2]
        simp [Nea.honest, hn]
      · rw [TaskPc.fd_of_reclaims hr] at h1
        cases h1
      · rw [hr] at h1
        cases h1
    · cases hs
  | _ => exact absurd trivial hok

/-- **A descriptor is reclaimed once, and for its own request**, throughout a run exactly if every
reclaim of the run keeps to the condition.  Then no descriptor is reclaimed more often than it was
stored, and the response of `cleanup_bucket` goes to an open descriptor. -/
theorem reclaim_once (cfg : Cfg) :
    (∀ l, (Executor.machine cfg).All (fun _ _ s' => s'.Sound) (State.init cfg : State W T) l ↔
      (Executor.machine cfg).All (fun s a _ => s.Admits reclaimOk a) (State.init cfg) l) ∧
    ∀ s : State W T, (Executor.machine cfg).Reach (State.Admits reclaimOk) s →
      s.Sound ∧
      (∀ b fd, (s.bucket b).trace.count (.reclaim fd) ≤ (s.bucket b).trace.count (.store fd)) ∧
      (∀ w b r fd, s.task w = .cleanup b r (.respond fd) → s.fds fd = true) := by
  have hsound : ∀ s : State W T, (Executor.machine cfg).Reach (State.Admits reclaimOk) s →
      s.Sound := by
    intro s h
    refine ⟨fun b => ?_, exclusive_of_reach h⟩
    obtain ⟨t, hat⟩ := s.exists_at b
    exact (deposited_of_reach h b t hat).2.honest
  refine ⟨fun l => Machine.all_iff ?_ .init l, fun s h => ⟨hsound s h, fun b fd => ?_, ?_⟩⟩
  · intro s a s' hr hs
    constructor
    · intro h1
      by_contra hok
      obtain ⟨b, hb⟩ := not_honest_of_step (deposited_of_reach hr) (attached_of_reach hr) hok hs
      rw [h1.honest b] at hb
      cases hb
    · intro hok
      exact hsound s' (.step hr hok hs)
  · have := count_reclaim_le fd ((hsound s h).honest b)
    omega
  · intro w b r fd ht
    refine (hsound s h).exclusive.isOpen (.worker w) fd ?_
    show (s.task w).fd = some fd
    rw [ht]
    rfl

theorem reclaim_once_panicking :
    ((Executor.machine cfgOne).final (arriving ++ taking ++ panicking)).fds 5 = true :=
  ((reclaim_once cfgOne).2 _ (Machine.Reach.final (by decide))).2.2 0 0 .caught 5 (by decide)

/-- The connection runs out of memory after the main future has completed: the descriptor is
reclaimed again, and the response is for a descriptor that is closed. -/
theorem reclaimed_twice : ∃ s : State (Fin 1) (Fin 1), (Executor.machine cfgOne).Reachable s ∧
    (s.bucket 0).trace = [.reclaim 5, .reclaim 5, .store 5, .claim] ∧
    s.task 0 = .cleanup 0 (.thrown (.conn 0) false) (.respond 5) ∧ s.fds 5 = false ∧ ¬ s.Sound := by
  refine ⟨(Executor.machine cfgOne).final
    (arriving ++ taking ++ connecting ++ completing ++ [.task 0 .oom, .task 0 .step]),
    Machine.reachable_final _ _, by decide, by decide, by decide, fun h => ?_⟩
  exact absurd (h.honest 0) (by decide)

end

end Nea
