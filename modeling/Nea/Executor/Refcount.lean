import Nea.Executor.Local
import Nea.Queue.Counter

/-!
# Reference counts

What `refcounts[b]` has to be: the main future from its claim to the moment it is taken out, the
connection slots that are not empty, and what the job at hand owes (a handshake that has
incremented and not reserved a slot; a task that has ended and not decremented).

* `Counted`           the invariant, local to a bucket.  It needs no more than that `cleanup_bucket`
                      starts on a bucket that is in use (`cleansLive`);
* `Cleansable`        a panic or an out-of-memory exit leaves such a bucket, as long as no worker
                      takes up a main future that is missing (`fresh`);
* `refcount_exact`    the count of every reachable state, and what follows for the `u8`, for
                      `try_claim` and for the answer `Forever`.
-/

set_option linter.unusedSectionVars false

namespace Nea

/-! ## what is counted -/

/-- 1 for a slot that is reserved or occupied -/
def liveConn (m : Mutex Slot) : ℕ := if m.val = .empty then 0 else 1

/-- the connection slots of a bucket that are reserved or occupied -/
def Bucket.liveConns (cfg : Cfg) (v : Bucket) : ℕ :=
  tally liveConn (Finset.range cfg.io.httpConnections) v.connections

/-- the accept thread holds the main future of the bucket it has claimed -/
def Gate.claimed : Gate → Bool
  | .setting => true
  | .replacing => true
  | .failed => true
  | _ => false

/-- 1 if the bucket has been claimed and its main future has not been taken out -/
def Bucket.mainLive (v : Bucket) (g : Gate) : ℕ :=
  if v.future.val.isSome = true ∨ g.claimed = true then 1 else 0

/-- what the job at hand owes to the count -/
def TaskPc.owes : TaskPc → ℕ
  | .main _ (.search _ counted) => counted.toNat
  | .mainTaken _ => 1
  | .mainClosing _ _ => 1
  | .mainDropping _ => 1
  | .unwinding _ owed => owed.toNat
  | .poisoned _ owed => owed.toNat
  | .connDropping _ _ => 1
  | .ready _ => 1
  | _ => 0

def TaskPc.inCleanup : TaskPc → Bool
  | .cleanup _ _ _ => true
  | _ => false

/-- the task holds nothing of the bucket -/
def TaskPc.quiet : TaskPc → Bool
  | .idle => true
  | .job _ _ => true
  | .takeMain _ => true
  | .takeConn _ _ => true
  | .unwinding _ owed => !owed
  | .poisoned _ owed => !owed
  | .cleanup _ f .load => f.left.isNone
  | _ => false

section
variable (cfg : Cfg) (v : Bucket) (g : Gate)

theorem liveConns_setConn {i : ℕ} (hi : i < cfg.io.httpConnections) (m : Mutex Slot) :
    (v.setConn i m).liveConns cfg + liveConn (v.connections i) = v.liveConns cfg + liveConn m :=
  tally_update liveConn v.connections (Finset.mem_range.mpr hi) m

/-- A slot that stays empty, or stays in use, is counted as before. -/
theorem liveConns_setConn_same {i : ℕ} {m : Mutex Slot}
    (hm : liveConn m = liveConn (v.connections i)) :
    (v.setConn i m).liveConns cfg = v.liveConns cfg := by
  refine tally_congr (fun j _ => ?_)
  show liveConn (Function.update v.connections i m j) = _
  by_cases e : j = i
  · subst e; rw [Function.update_self, hm]
  · rw [Function.update_of_ne e]

/-- Emptying a slot. -/
theorem liveConns_setConn_le (i : ℕ) {m : Mutex Slot} (hm : m.val = .empty) :
    (v.setConn i m).liveConns cfg ≤ v.liveConns cfg := by
  unfold Bucket.liveConns tally
  refine Finset.sum_le_sum (fun j _ => ?_)
  show liveConn (Function.update v.connections i m j) ≤ _
  by_cases e : j = i
  · rw [e, Function.update_self]
    unfold liveConn
    rw [if_pos hm]
    exact Nat.zero_le _
  · rw [Function.update_of_ne e]

/-- A guard that is dropped changes no value. -/
theorem liveConns_dropGuard (gd : Guard) (p : Bool) :
    (v.dropGuard gd p).liveConns cfg = v.liveConns cfg := by
  cases gd with
  | future => rfl
  | conn i => exact liveConns_setConn_same cfg v (by unfold liveConn; rw [Mutex.val_leave])

theorem liveConns_le : v.liveConns cfg ≤ cfg.io.httpConnections := by
  unfold Bucket.liveConns tally
  calc ∑ i ∈ Finset.range cfg.io.httpConnections, liveConn (v.connections i)
      ≤ ∑ i ∈ Finset.range cfg.io.httpConnections, 1 :=
        Finset.sum_le_sum (fun i _ => by unfold liveConn; split <;> omega)
    _ = cfg.io.httpConnections := by simp

theorem liveConns_eq_zero : v.liveConns cfg = 0 ↔
    ∀ i < cfg.io.httpConnections, (v.connections i).val = .empty := by
  unfold Bucket.liveConns
  rw [tally_eq_zero]
  constructor
  · intro h i hi
    have h1 := h i (Finset.mem_range.mpr hi)
    unfold liveConn at h1
    split at h1
    · assumption
    · cases h1
  · intro h i hi
    unfold liveConn
    rw [if_pos (h i (Finset.mem_range.mp hi))]

theorem liveConns_pos {i : ℕ} (hi : i < cfg.io.httpConnections)
    (hv : (v.connections i).val ≠ .empty) : 1 ≤ v.liveConns cfg := by
  have h := le_tally liveConn v.connections (Finset.mem_range.mpr hi)
  unfold Bucket.liveConns
  unfold liveConn at h ⊢
  rw [if_neg hv] at h
  exact h

theorem mainLive_le : v.mainLive g ≤ 1 := by
  unfold Bucket.mainLive; split <;> omega

theorem mainLive_some {v : Bucket} (h : v.future.val.isSome = true) : v.mainLive g = 1 :=
  if_pos (.inl h)

theorem mainLive_claimed {v : Bucket} {g : Gate} (h : g.claimed = true) : v.mainLive g = 1 :=
  if_pos (.inr h)

theorem mainLive_none {v : Bucket} {g : Gate} (h : v.future.val = none)
    (hg : g.claimed = false) : v.mainLive g = 0 := by
  unfold Bucket.mainLive
  rw [if_neg]
  rintro (h1 | h1)
  · rw [h] at h1; cases h1
  · rw [hg] at h1; cases h1

theorem mainLive_eq_zero {v : Bucket} {g : Gate} (h : v.mainLive g = 0) :
    v.future.val = none ∧ g.claimed = false := by
  unfold Bucket.mainLive at h
  split at h
  · cases h
  · next hn =>
    simp only [not_or, Bool.not_eq_true, Option.isSome_eq_false_iff,
      Option.isNone_iff_eq_none] at hn
    exact hn

/-- Only whether there is a future matters. -/
theorem mainLive_congr {v v' : Bucket} (h : v'.future.val.isSome = v.future.val.isSome) :
    v'.mainLive g = v.mainLive g := by
  unfold Bucket.mainLive
  rw [h]

end

/-! ## the invariant of a bucket -/

/-- what the place of a worker says about its bucket -/
def PlaceOk (cfg : Cfg) (v : Bucket) (g : Gate) : TaskPc → Prop
  | .main _ (.search _ counted) => v.future.val.isSome = true ∧ counted = true
  | .main _ _ => v.future.val.isSome = true
  | .conn _ i => (v.connections i).val = .occupied
  | .cleanup _ f .load => v.mainLive g + v.liveConns cfg ≤ v.refcount.val ∧
      (f.left.isSome = true → 1 ≤ v.refcount.val ∧ g.claimed = false)
  | .cleanup _ _ (.slots i) =>
    1 ≤ v.refcount.val ∧ g.claimed = false ∧
      v.mainLive g + v.liveConns cfg ≤ v.refcount.val ∧ ∀ j < i, (v.connections j).val = .empty
  | .cleanup _ _ .future => 1 ≤ v.refcount.val ∧ g.claimed = false ∧ v.liveConns cfg = 0
  | .cleanup _ _ .wipe => 1 ≤ v.refcount.val ∧ g.claimed = false ∧ v.liveConns cfg = 0 ∧
      v.future.val = none
  | .cleanup _ _ .release => 1 ≤ v.refcount.val ∧ g.claimed = false ∧ v.liveConns cfg = 0 ∧
      v.future.val = none
  | .cleanup _ _ _ => 1 ≤ v.refcount.val ∧ g.claimed = false ∧
      v.mainLive g + v.liveConns cfg ≤ v.refcount.val
  | _ => True

structure Counted (cfg : Cfg) (v : Bucket) (t : TaskPc) (g : Gate) : Prop where
  exact : t.inCleanup = false → v.refcount.val = v.mainLive g + v.liveConns cfg + t.owes
  bound : v.refcount.val ≤ cfg.io.httpConnections + 2
  /-- before `set` has put the main future in, the bucket holds nothing -/
  parked : g.claimed = true → v.future.val = none ∧ v.liveConns cfg = 0 ∧ t.quiet = true
  place : PlaceOk cfg v g t

/-- `cleanup_bucket` takes the descriptor of a bucket that is in use and has its main future -/
def cleansLive (v : Bucket) (t : TaskPc) (g : Gate) (_ : TaskAct) : Prop :=
  ∀ b r, t = .cleanup b r .load → 1 ≤ v.refcount.val ∧ g.claimed = false

theorem counted_init (cfg : Cfg) : Counted cfg (Bucket.init cfg) .idle .away where
  exact _ := ((liveConns_eq_zero cfg (Bucket.init cfg)).mpr (fun _ _ => rfl)).symm ▸ rfl
  bound := Nat.zero_le _
  parked h := by cases h
  place := trivial

section
variable {cfg : Cfg} {v v' : Bucket} {t t' : TaskPc} {g : Gate}

theorem TaskPc.owes_le (t : TaskPc) : t.owes ≤ 1 := by
  have hb : ∀ c : Bool, c.toNat ≤ 1 := by decide
  unfold TaskPc.owes
  split <;> first | exact hb _ | omega

theorem TaskPc.owes_of_quiet {t : TaskPc} (hq : t.quiet = true) : t.owes = 0 := by
  have hb : ∀ c : Bool, (!c) = true → c.toNat = 0 := by decide
  cases t <;> first | rfl | exact hb _ hq | cases hq

theorem Counted.bound_of_exact
    (h : v.refcount.val = v.mainLive g + v.liveConns cfg + t.owes) :
    v.refcount.val ≤ cfg.io.httpConnections + 2 := by
  have h1 := mainLive_le v g
  have h2 := liveConns_le cfg v
  have h3 := t.owes_le
  omega

/-- A task that holds something runs on a bucket that is not being set. -/
theorem Counted.unclaimed (h : Counted cfg v t g) (hq : t.quiet = false) : g.claimed = false := by
  cases hg : g.claimed with
  | false => rfl
  | true => rw [(h.parked hg).2.2] at hq; cases hq

/-- The same counts, another place. -/
theorem Counted.move (h : Counted cfg v t g) (hr : v'.refcount.val = v.refcount.val)
    (hf : v'.future.val.isSome = v.future.val.isSome) (hc : v'.liveConns cfg = v.liveConns cfg)
    (ho : t'.owes = t.owes) (hi : t.inCleanup = false) (hq : t.quiet = true → t'.quiet = true)
    (hp : PlaceOk cfg v' g t') : Counted cfg v' t' g where
  exact _ := by rw [hr, mainLive_congr g hf, hc, ho]; exact h.exact hi
  bound := hr ▸ h.bound
  parked hg := by
    obtain ⟨h1, h2, h3⟩ := h.parked hg
    refine ⟨?_, hc.trans h2, hq h3⟩
    rw [h1] at hf
    simpa using hf
  place := hp

/-- Counts that change: the bucket is not being set. -/
theorem Counted.of_exact (hg : g.claimed = false)
    (he : v'.refcount.val = v'.mainLive g + v'.liveConns cfg + t'.owes)
    (hp : PlaceOk cfg v' g t') : Counted cfg v' t' g where
  exact _ := he
  bound := Counted.bound_of_exact he
  parked h := by rw [hg] at h; cases h
  place := hp

/-- Inside `cleanup_bucket` only the bound matters. -/
theorem Counted.of_cleanup (h : Counted cfg v t g) (hr : v'.refcount.val = v.refcount.val)
    (hi : t'.inCleanup = true) (hg : g.claimed = false) (hp : PlaceOk cfg v' g t') :
    Counted cfg v' t' g where
  exact h := by rw [hi] at h; cases h
  bound := hr ▸ h.bound
  parked h := by rw [hg] at h; cases h
  place := hp

/-- The place of a polled main future. -/
theorem Counted.main (h : Counted cfg v t g) {b : ℕ} {k : HandshakePc} (ht : t = .main b k) :
    v.future.val.isSome = true ∧ 1 ≤ v.refcount.val := by
  subst ht
  have hs : v.future.val.isSome = true := by
    have := h.place
    cases k <;> first | exact this | exact this.1
  have := h.exact rfl
  rw [mainLive_some g hs] at this
  exact ⟨hs, by omega⟩

theorem Raises.spec {b : ℕ} {owed : Bool} (h : Raises cfg b t owed) :
    t.inCleanup = false ∧ t.quiet = false ∧ t.owes = owed.toNat := by
  cases h with
  | main k => exact ⟨rfl, rfl, by cases k <;> rfl⟩
  | dropping => exact ⟨rfl, rfl, rfl⟩

/-- **One step of a worker keeps the count.** -/
theorem Counted.task {a : TaskAct} {e : Effect} (ht : TaskOk cfg t) (h : Counted cfg v t g)
    (hok : cleansLive v t g a) (hs : TStep cfg v t a v' t' e) : Counted cfg v' t' g := by
  -- in `cleanup_bucket`, after the descriptor was taken
  have hlive : ∀ b r k, t = .cleanup b r k → k ≠ .load →
      1 ≤ v.refcount.val ∧ g.claimed = false := by
    rintro b r k rfl hk
    have := h.place
    cases k <;> first | exact absurd rfl hk | exact ⟨this.1, this.2.1⟩
  -- a slot is emptied
  have hdown : ∀ i m, m.val = Slot.empty → v.mainLive g + v.liveConns cfg ≤ v.refcount.val →
      v.mainLive g + (v.setConn i m).liveConns cfg ≤ v.refcount.val := by
    intro i m hm hle
    have := liveConns_setConn_le cfg v i hm
    omega
  cases hs with
  | dispatch b off _ hd =>
    rcases dispatch_eq ht hd with ⟨rfl, _⟩ | ⟨i, _, rfl, _⟩ <;>
      exact h.move rfl rfl rfl rfl rfl (fun _ => rfl) trivial
  | die => exact h
  | stale b hf hn => exact h.move rfl rfl rfl rfl rfl (fun _ => rfl) trivial
  | take b f hf hs =>
    have hsome : v.future.val.isSome = true := by rw [hs]; rfl
    have hg : g.claimed = false := by
      cases hg : g.claimed with
      | false => rfl
      | true => rw [(h.parked hg).1] at hs; cases hs
    exact .of_exact hg (h.exact rfl) hsome
  | alloc _ l n ht' hn =>
    rcases ht' with ⟨b, rfl⟩ | ⟨b, i, rfl⟩ <;>
      exact h.move rfl rfl rfl rfl rfl id h.place
  | longjmp _ _ b ht' =>
    have hq : t.quiet = false := by rcases ht' with ⟨k, rfl⟩ | rfl <;> rfl
    have he := h.exact (by rcases ht' with ⟨k, rfl⟩ | rfl <;> rfl)
    refine h.of_cleanup rfl rfl (h.unclaimed hq) ⟨?_, nofun⟩
    show v.mainLive g + v.liveConns cfg ≤ v.refcount.val
    omega
  | longjmpUnwinding b owed =>
    have he := h.exact rfl
    refine ⟨nofun, h.bound, fun hg => ⟨(h.parked hg).1, (h.parked hg).2.1, rfl⟩, ?_, nofun⟩
    show v.mainLive g + v.liveConns cfg ≤ v.refcount.val
    omega
  | longjmpConn _ _ b i p ht' =>
    have hq : t.quiet = false := by rcases ht' with rfl | rfl <;> rfl
    have he := h.exact (by rcases ht' with rfl | rfl <;> rfl)
    have hc : (v.setConn i ((v.connections i).leave p)).liveConns cfg = v.liveConns cfg :=
      liveConns_dropGuard cfg v (.conn i) p
    refine h.of_cleanup rfl rfl (h.unclaimed hq) ⟨?_, nofun⟩
    show v.mainLive g + _ ≤ v.refcount.val
    omega
  | raise _ _ b owed hr =>
    obtain ⟨h1, h2, h3⟩ := hr.spec
    exact h.move rfl rfl rfl h3.symm h1 (fun hq => by rw [h2] at hq; cases hq) trivial
  | connect b => exact h.move rfl rfl rfl rfl rfl (fun hq => nomatch hq) h.place
  | populate b i hi hf hr =>
    have hc : (v.setConn i ((v.connections i).set .occupied)).liveConns cfg = v.liveConns cfg :=
      liveConns_setConn_same cfg v (by unfold liveConn; rw [hr]; rfl)
    exact h.move rfl (h.main rfl).1.symm hc rfl rfl (fun hq => nomatch hq) rfl
  | populateTaken b i hi hf hr =>
    have hc : (v.setConn i (v.connections i).unwind).liveConns cfg = v.liveConns cfg :=
      liveConns_setConn_same cfg v rfl
    exact h.move rfl rfl hc rfl rfl (fun hq => nomatch hq) trivial
  | forget b i hi => exact h.move rfl (h.main rfl).1.symm rfl rfl rfl (fun hq => nomatch hq) rfl
  | pending b => exact h.move rfl rfl rfl rfl rfl (fun hq => nomatch hq) trivial
  | ready b =>
    have hg := h.unclaimed rfl
    have he := h.exact rfl
    rw [mainLive_some g (h.main rfl).1] at he
    refine .of_exact hg ?_ trivial
    rw [mainLive_none (v := v.setFuture (v.future.set none)) rfl hg]
    show v.refcount.val = 0 + v.liveConns cfg + 1
    have h2 : (TaskPc.main b .polling).owes = 0 := rfl
    omega
  | countZero b hv => exact absurd (h.main rfl).2 (by omega)
  | count b hv hlt =>
    have he := h.exact rfl
    exact .of_exact (h.unclaimed rfl) (congrArg (· + 1) he) ⟨(h.main rfl).1, rfl⟩
  | countOverflow b hge => exact h.move rfl rfl rfl rfl rfl (fun hq => nomatch hq) trivial
  | reserve b i counted hi hf he =>
    have hcount := h.exact rfl
    have hsome := (h.main rfl).1
    have hc := liveConns_setConn cfg v hi ((v.connections i).set .reserved)
    have h0 : liveConn (v.connections i) = 0 := by unfold liveConn; rw [he]; rfl
    have h1 : liveConn ((v.connections i).set .reserved) = 1 := rfl
    rw [show counted = true from h.place.2] at hcount
    rw [mainLive_some g hsome] at hcount
    refine .of_exact (h.unclaimed rfl) ?_ rfl
    show v.refcount.val = 1 + (v.setConn i _).liveConns cfg + 0
    have h2 : (TaskPc.main b (.search i true)).owes = 1 := rfl
    omega
  | search b i counted hi => exact h.move rfl rfl rfl rfl rfl (fun hq => nomatch hq) h.place
  | enqueue b i q c hq hc => exact h.move rfl rfl rfl rfl rfl (fun hq => nomatch hq) h.place
  | reclaim b => exact h.move rfl rfl rfl rfl rfl (fun hq => nomatch hq) trivial
  | close b fd => exact h.move rfl rfl rfl rfl rfl (fun hq => nomatch hq) trivial
  | dropped b => exact h.move rfl rfl rfl rfl rfl (fun hq => nomatch hq) trivial
  | unwind b owed => exact h.move rfl rfl rfl rfl rfl id trivial
  | clearPoison b owed =>
    have he := h.exact rfl
    constructor
    · intro hi; cases hi
    · exact h.bound
    · intro hg; exact ⟨(h.parked hg).1, (h.parked hg).2.1, rfl⟩
    · refine ⟨?_, nofun⟩
      show v.mainLive g + v.liveConns cfg ≤ v.refcount.val
      omega
  | afterDeath b i he => exact h.move rfl rfl rfl rfl rfl (fun _ => rfl) trivial
  | connReserved b i hr =>
    exact h.move rfl rfl (liveConns_setConn_same cfg v rfl) rfl rfl id trivial
  | takeConn b i hf ho =>
    have hc : (v.setConn i (v.connections i).lock).liveConns cfg = v.liveConns cfg :=
      liveConns_setConn_same cfg v rfl
    have hpos := liveConns_pos cfg v ht (by rw [ho]; decide)
    have hg : g.claimed = false := by
      cases hg : g.claimed with
      | false => rfl
      | true => have := (h.parked hg).2.1; omega
    refine .of_exact hg (by rw [hc]; exact h.exact rfl) ?_
    show (Function.update v.connections i _ i).val = _
    rw [Function.update_self]
    exact ho
  | connPending b i =>
    exact h.move rfl rfl (liveConns_setConn_same cfg v rfl) rfl rfl (fun hq => nomatch hq) trivial
  | connReady b i =>
    have he := h.exact rfl
    have hc := liveConns_setConn cfg v ht ((v.connections i).set .empty)
    have h1 : liveConn (v.connections i) = 1 := by
      unfold liveConn; rw [show (v.connections i).val = .occupied from h.place]; rfl
    have h0 : liveConn ((v.connections i).set .empty) = 0 := rfl
    refine .of_exact (h.unclaimed rfl) ?_ trivial
    show v.refcount.val = v.mainLive g + (v.setConn i _).liveConns cfg + 1
    have h2 : (TaskPc.conn b i).owes = 0 := rfl
    omega
  | connPanics _ b i ht' =>
    have hc : (v.setConn i (v.connections i).unwind).liveConns cfg = v.liveConns cfg :=
      liveConns_setConn_same cfg v rfl
    rcases ht' with rfl | rfl
    · refine h.move rfl rfl hc rfl rfl id ?_
      show (Function.update v.connections i _ i).val = _
      rw [Function.update_self]
      exact h.place
    · exact h.move rfl rfl hc rfl rfl id trivial
  | connDropped b i =>
    exact h.move rfl rfl (liveConns_setConn_same cfg v rfl) rfl rfl (fun hq => nomatch hq) trivial
  | readyZero b hv => exact h.move rfl rfl rfl rfl rfl id trivial
  | readyLast b hv =>
    have he := h.exact rfl
    have h2 : (TaskPc.ready b).owes = 1 := rfl
    refine .of_exact (h.unclaimed rfl) ?_ trivial
    show 0 = v.mainLive g + v.liveConns cfg + 0
    omega
  | readyMore b hv =>
    have he := h.exact rfl
    have h2 : (TaskPc.ready b).owes = 1 := rfl
    refine .of_exact (h.unclaimed rfl) ?_ trivial
    show v.refcount.val - 1 = v.mainLive g + v.liveConns cfg + 0
    omega
  | load b r =>
    obtain ⟨h1, h2⟩ := hok b r rfl
    exact h.of_cleanup rfl rfl h2 ⟨h1, h2, h.place.1⟩
  | respond b r fd => exact h.of_cleanup rfl rfl h.place.2.1 h.place
  | closeError b r fd =>
    obtain ⟨h1, h2, h3⟩ := h.place
    exact h.of_cleanup rfl rfl h2 ⟨h1, h2, h3, fun j hj => absurd hj (Nat.not_lt_zero j)⟩
  | slot b r i hi hf =>
    obtain ⟨h1, h2, h3, h4⟩ := h.place
    refine h.of_cleanup rfl rfl h2 ⟨h1, h2, hdown i _ rfl h3, fun j hj => ?_⟩
    show (Function.update v.connections i _ j).val = _
    by_cases e : j = i
    · subst e; rw [Function.update_self]; rfl
    · rw [Function.update_of_ne e]; exact h4 j (by omega)
  | slotPanics b r i hi hf =>
    obtain ⟨h1, h2, h3, h4⟩ := h.place
    refine h.of_cleanup rfl rfl h2 ⟨h1, h2, hdown i _ (Mutex.val_leave ..) h3, fun j hj => ?_⟩
    show (Function.update v.connections i _ j).val = _
    rw [Function.update_of_ne (by omega)]
    exact h4 j hj
  | slotAgain b r i _ p hi hf ho =>
    obtain ⟨h1, h2, h3, -⟩ := h.place
    have hlock : (v.setConn i (v.connections i).lock).liveConns cfg = v.liveConns cfg :=
      liveConns_setConn_same cfg v rfl
    have hcount : ((v.setConn i (v.connections i).lock).dropGuard r.guard
        (r.panicking || p)).refcount.val = v.refcount.val := by
      rw [refcount_dropGuard]
      rfl
    refine h.of_cleanup hcount rfl h2 ⟨?_, fun _ => ⟨hcount ▸ h1, h2⟩⟩
    rw [hcount, liveConns_dropGuard, hlock, mainLive_congr g (v := v)]
    · exact h3
    · rw [future_val_dropGuard]
      rfl
  | slotsDone b r i hi =>
    obtain ⟨h1, h2, -, h3⟩ := h.place
    exact h.of_cleanup rfl rfl h2
      ⟨h1, h2, (liveConns_eq_zero cfg v).mpr (fun j hj => h3 j (by omega))⟩
  | future b r hf =>
    obtain ⟨h1, h2, h3⟩ := h.place
    exact h.of_cleanup rfl rfl h2 ⟨h1, h2, h3, rfl⟩
  | futurePanics b r hf =>
    obtain ⟨h1, h2, h3⟩ := h.place
    exact h.of_cleanup rfl rfl h2 ⟨h1, h2, h3⟩
  | futureAgain b r _ p hf hs =>
    obtain ⟨h1, h2, h3⟩ := h.place
    have hcount : ((v.setFuture (v.future.set none).lock).dropGuard r.guard
        (r.panicking || p)).refcount.val = v.refcount.val := by
      rw [refcount_dropGuard]
      rfl
    have hnone : ((v.setFuture (v.future.set none).lock).dropGuard r.guard
        (r.panicking || p)).future.val = none := future_val_dropGuard ..
    have hconns : (v.setFuture (v.future.set none).lock).liveConns cfg = 0 := h3
    refine h.of_cleanup hcount rfl h2 ⟨?_, fun _ => ⟨hcount ▸ h1, h2⟩⟩
    rw [liveConns_dropGuard, hconns, mainLive_none hnone h2]
    exact Nat.zero_le _
  | wipe b r => exact h.of_cleanup rfl rfl (hlive b r _ rfl (by simp)).2 h.place
  | release b r =>
    obtain ⟨h1, h2, h3, h4⟩ := h.place
    refine .of_exact h2 ?_ trivial
    show 0 = v.mainLive g + v.liveConns cfg + 0
    rw [mainLive_none h4 h2, h3]

theorem PlaceOk.congr {g' : Gate} (h : PlaceOk cfg v g t) (hg : g'.claimed = g.claimed)
    (hf : v'.future.val = v.future.val) (hr : v'.refcount.val = v.refcount.val)
    (hc : v'.connections = v.connections) : PlaceOk cfg v' g' t := by
  have hl : v'.liveConns cfg = v.liveConns cfg := by unfold Bucket.liveConns; rw [hc]
  have hm : v'.mainLive g' = v.mainLive g := by unfold Bucket.mainLive; rw [hf, hg]
  unfold PlaceOk at h ⊢
  split at h <;> simp only [hf, hr, hc, hl, hm, hg] <;> exact h

/-- A count of zero: nothing of the bucket is in use. -/
theorem Counted.of_zero (ht : TaskOk cfg t) (h : Counted cfg v t g) (hv : v.refcount.val = 0) :
    v.future.val = none ∧ g.claimed = false ∧ v.liveConns cfg = 0 ∧ t.quiet = true := by
  have hle : v.mainLive g = 0 ∧ v.liveConns cfg = 0 ∧ (t.inCleanup = false → t.owes = 0) := by
    cases hi : t.inCleanup with
    | false =>
      have := h.exact hi
      exact ⟨by omega, by omega, fun _ => by omega⟩
    | true =>
      have hp := h.place
      cases t with
      | cleanup b r k =>
        cases k with
        | load =>
          have hle := hp.1
          exact ⟨by omega, by omega, nofun⟩
        | _ => exact absurd hp.1 (by omega)
      | _ => cases hi
  obtain ⟨hm, hl, ho⟩ := hle
  obtain ⟨hf, hg⟩ := mainLive_eq_zero hm
  refine ⟨hf, hg, hl, ?_⟩
  have hb : ∀ c : Bool, c.toNat = 0 → (!c) = true := by decide
  cases t with
  | main b k =>
    have := (h.main rfl).1
    rw [hf] at this
    cases this
  | conn b i =>
    have := liveConns_pos cfg v ht
      (by rw [show (v.connections i).val = .occupied from h.place]; simp)
    omega
  | unwinding b owed => exact hb owed (ho rfl)
  | poisoned b owed => exact hb owed (ho rfl)
  | cleanup b r k =>
    have hp := h.place
    cases k with
    | load =>
      -- a second clean-up starts on a bucket in use
      cases hl : r.left with
      | none => show r.left.isNone = true; rw [hl]; rfl
      | some _ => exact absurd (hp.2 (by rw [hl]; rfl)).1 (by omega)
    | _ => exact absurd hp.1 (by omega)
  | idle => rfl
  | job => rfl
  | takeMain => rfl
  | takeConn => rfl
  | _ => exact absurd (ho rfl) (by simp [TaskPc.owes])

theorem PlaceOk.of_quiet (hq : t.quiet = true)
    (hl : v.mainLive g + v.liveConns cfg ≤ v.refcount.val) : PlaceOk cfg v g t := by
  cases t with
  | cleanup b r k =>
    cases k with
    | load =>
      refine ⟨hl, fun hs => ?_⟩
      have hn : r.left.isNone = true := hq
      rw [Option.isNone_iff_eq_none.mp hn] at hs
      cases hs
    | _ => cases hq
  | main => cases hq
  | conn => cases hq
  | _ => trivial

/-- **One step of the accept thread keeps the count.** -/
theorem Counted.accept {g' : Gate} (ht : TaskOk cfg t) (h : Counted cfg v t g)
    (hs : GStep v g v' g') : Counted cfg v' t g' := by
  cases hs with
  | claim hv =>
    obtain ⟨hf, hg, hl, hq⟩ := h.of_zero ht hv
    have hm : (((v.setRefcount (v.refcount.set 1)).log .claim).mainLive .setting) = 1 :=
      mainLive_claimed rfl
    constructor
    · intro _
      rw [hm, TaskPc.owes_of_quiet hq]
      show 1 = 1 + v.liveConns cfg + 0
      rw [hl]
    · show 1 ≤ _
      omega
    · exact fun _ => ⟨hf, hl, hq⟩
    · refine .of_quiet hq ?_
      rw [hm]
      show 1 + v.liveConns cfg ≤ 1
      omega
  | lock hf =>
    have hm : (v.setFuture v.future.lock).mainLive .replacing = v.mainLive .setting := by
      rw [mainLive_claimed rfl, mainLive_claimed rfl]
    exact ⟨fun hi => by rw [hm]; exact h.exact hi, h.bound, fun _ => h.parked rfl,
      h.place.congr rfl rfl rfl rfl⟩
  | fail =>
    have hm : v.mainLive .failed = v.mainLive .setting := by
      rw [mainLive_claimed rfl, mainLive_claimed rfl]
    exact ⟨fun hi => by rw [hm]; exact h.exact hi, h.bound, fun _ => h.parked rfl,
      h.place.congr rfl rfl rfl rfl⟩
  | replace =>
    obtain ⟨hf, hl, hq⟩ := h.parked rfl
    have hm : (v.setFuture (v.future.set (some ⟨[]⟩)).unlock).mainLive
        (.storing v.future.val.isSome) = v.mainLive .replacing := by
      rw [mainLive_claimed (g := .replacing) rfl]
      exact mainLive_some _ rfl
    refine ⟨fun hi => by rw [hm]; exact h.exact hi, h.bound, nofun,
      .of_quiet hq ?_⟩
    rw [hm]
    show v.mainLive .replacing + v.liveConns cfg ≤ v.refcount.val
    cases hi : t.inCleanup with
    | false =>
      have := h.exact hi
      omega
    | true =>
      cases t with
      | cleanup b r k =>
        cases k with
        | load => exact h.place.1
        | _ => cases hq
      | _ => cases hi
  | store fd old =>
    exact ⟨h.exact, h.bound, nofun, h.place.congr rfl rfl rfl rfl⟩
  | checked old => exact ⟨h.exact, h.bound, nofun, h.place.congr rfl rfl rfl rfl⟩

/-! ## the end of the last task -/

/-- the step executes `clear_bucket` -/
def Effect.wipes : Effect → Bool
  | .forever => true
  | .wipe => true
  | _ => false

theorem Counted.vacant {b : ℕ} (h : Counted cfg v (.ready b) g) :
    v.refcount.val = 1 ↔ v.future.val = none ∧ g.claimed = false ∧
      ∀ i < cfg.io.httpConnections, (v.connections i).val = .empty := by
  have he := h.exact rfl
  have h2 : (TaskPc.ready b).owes = 1 := rfl
  rw [← liveConns_eq_zero cfg v]
  constructor
  · intro hv
    obtain ⟨h3, h4⟩ := mainLive_eq_zero (v := v) (g := g) (by omega)
    exact ⟨h3, h4, by omega⟩
  · rintro ⟨h3, h4, h5⟩
    rw [mainLive_none h3 h4] at he
    omega

/-- **A bucket is wiped only when nothing of it is in use.** -/
theorem Counted.vacant_of_wipes {a : TaskAct} {e : Effect} (hc : Counted cfg v t g)
    (hs : TStep cfg v t a v' t' e) (he : e.wipes = true) : v.future.val = none ∧ g.claimed = false ∧
      ∀ i < cfg.io.httpConnections, (v.connections i).val = .empty := by
  cases hs with
  | readyLast b hv => exact hc.vacant.mp hv
  | wipe b r =>
    obtain ⟨_, h2, h3, h4⟩ := hc.place
    exact ⟨h4, h2, (liveConns_eq_zero cfg v).mp h3⟩
  | _ => cases he

theorem TStep.connections_of_forever {a : TaskAct} (hs : TStep cfg v t a v' t' .forever) :
    v'.connections = v.connections := by
  cases hs with
  | readyLast => rfl

/-! ## runs in which no missing future is taken up -/

/-- the take-up of a main future that is not there -/
def Bucket.stale (v : Bucket) : TaskPc → TaskAct → Bool
  | .takeMain _, .step => v.future.free && v.future.val.isNone
  | _, _ => false

/-- the condition: `poll_input_stream` finds its future -/
def fresh (v : Bucket) (t : TaskPc) (_ : Gate) (a : TaskAct) : Prop := v.stale t a = false

instance (v : Bucket) (t : TaskPc) (g : Gate) (a : TaskAct) : Decidable (fresh v t g a) :=
  inferInstanceAs (Decidable (v.stale t a = false))

/-- on the way to `cleanup_bucket`, or about to take the descriptor there -/
def TaskPc.failing : TaskPc → Bool
  | .unwinding _ _ => true
  | .poisoned _ _ => true
  | .cleanup _ _ .load => true
  | _ => false

structure Cleansable (v : Bucket) (t : TaskPc) (g : Gate) : Prop where
  failing : t.failing = true → 1 ≤ v.refcount.val ∧ g.claimed = false
  /-- `set` replaced nothing -/
  vacant : g ≠ .storing true ∧ g ≠ .checking true

theorem Cleansable.cleansLive (h : Cleansable v t g) (a : TaskAct) : cleansLive v t g a := by
  rintro b r rfl
  exact h.failing rfl

theorem Raises.rc_pos {b : ℕ} {owed : Bool} (h : Counted cfg v t g) (hr : Raises cfg b t owed) :
    1 ≤ v.refcount.val := by
  cases hr with
  | dropping =>
    have := h.exact rfl
    have h2 : (TaskPc.mainDropping b).owes = 1 := rfl
    omega
  | _ => exact (h.main rfl).2

theorem Cleansable.task {a : TaskAct} {e : Effect} (ht : TaskOk cfg t) (hc : Counted cfg v t g)
    (h : Cleansable v t g) (hok : fresh v t g a) (hs : TStep cfg v t a v' t' e) :
    Cleansable v' t' g := by
  cases hs with
  | dispatch b off _ hd =>
    rcases dispatch_eq ht hd with ⟨rfl, _⟩ | ⟨i, _, rfl, _⟩ <;> exact ⟨nofun, h.vacant⟩
  | die => exact h
  | stale b hf hn =>
    unfold fresh Bucket.stale at hok
    rw [hf, hn] at hok
    cases hok
  | alloc => exact ⟨h.failing, h.vacant⟩
  | longjmp _ _ b ht' =>
    refine ⟨fun _ => ⟨?_, hc.unclaimed (by rcases ht' with ⟨k, rfl⟩ | rfl <;> rfl)⟩, h.vacant⟩
    show 1 ≤ v.refcount.val
    rcases ht' with ⟨k, rfl⟩ | rfl
    · exact (hc.main rfl).2
    · exact Raises.dropping.rc_pos hc
  | longjmpUnwinding b owed => exact ⟨fun _ => h.failing rfl, h.vacant⟩
  | longjmpConn _ _ b i p ht' =>
    refine ⟨fun _ => ⟨?_, hc.unclaimed (by rcases ht' with rfl | rfl <;> rfl)⟩, h.vacant⟩
    have he := hc.exact (by rcases ht' with rfl | rfl <;> rfl)
    show 1 ≤ v.refcount.val
    rcases ht' with rfl | rfl
    · have := liveConns_pos cfg v ht
        (by rw [show (v.connections i).val = .occupied from hc.place]; simp)
      omega
    · have h2 : (TaskPc.connDropping b i).owes = 1 := rfl
      omega
  | raise _ _ b owed hr => exact ⟨fun _ => ⟨hr.rc_pos hc, hc.unclaimed hr.spec.2.1⟩, h.vacant⟩
  | populateTaken b i hi hf hr =>
    exact ⟨fun _ => ⟨(hc.main rfl).2, hc.unclaimed rfl⟩, h.vacant⟩
  | countOverflow b hge => exact ⟨fun _ => ⟨(hc.main rfl).2, hc.unclaimed rfl⟩, h.vacant⟩
  | unwind b owed => exact ⟨fun _ => h.failing rfl, h.vacant⟩
  | clearPoison b owed => exact ⟨fun _ => h.failing rfl, h.vacant⟩
  | connPanics _ b i ht' => exact ⟨h.failing, h.vacant⟩
  | slotAgain b r i =>
    refine ⟨fun _ => ?_, h.vacant⟩
    rw [refcount_dropGuard]
    exact ⟨hc.place.1, hc.place.2.1⟩
  | futureAgain b r =>
    refine ⟨fun _ => ?_, h.vacant⟩
    rw [refcount_dropGuard]
    exact ⟨hc.place.1, hc.place.2.1⟩
  | _ => exact ⟨nofun, h.vacant⟩

theorem Cleansable.accept {g' : Gate} (hc : Counted cfg v t g) (h : Cleansable v t g)
    (hs : GStep v g v' g') : Cleansable v' t g' := by
  have hv := h.vacant
  cases hs with
  | claim hv =>
    exact ⟨fun hf => absurd (h.failing hf).1 (by omega), nofun, nofun⟩
  | lock => exact ⟨fun hf => absurd (h.failing hf).2 (by decide), nofun, nofun⟩
  | fail => exact ⟨fun hf => absurd (h.failing hf).2 (by decide), nofun, nofun⟩
  | replace =>
    rw [(hc.parked rfl).1]
    exact ⟨fun hf => absurd (h.failing hf).2 (by decide), nofun, nofun⟩
  | store fd old =>
    cases old with
    | true => exact absurd rfl hv.1
    | false => exact ⟨h.failing, nofun, nofun⟩
  | checked => exact ⟨h.failing, nofun, nofun⟩

end

section
variable {W T : Type} [DecidableEq W] [DecidableEq T] [Fintype W]
variable {cfg : Cfg} {s : State W T}

theorem counted_localInv (cfg : Cfg) :
    LocalInv cfg fresh (fun _ _ _ => True) (fun v t g => Counted cfg v t g ∧ Cleansable v t g) where
  init := ⟨counted_init cfg, nofun, nofun, nofun⟩
  job _ _ _ _ _ h :=
    ⟨h.1.move rfl rfl rfl rfl rfl (fun _ => rfl) trivial, nofun, h.2.vacant⟩
  task _ _ _ a _ _ _ ht _ h hok hs :=
    ⟨h.1.task ht (h.2.cleansLive a) hs, h.2.task ht h.1 hok hs⟩
  accept _ _ _ _ _ ht _ h hs := ⟨h.1.accept ht hs, h.2.accept h.1 hs⟩

theorem counted_of_reach (h : (Executor.machine cfg).Reach (State.Admits fresh) s) :
    s.Everywhere (fun v t g => Counted cfg v t g ∧ Cleansable v t g) :=
  (counted_localInv cfg).of_reach (fun _ _ _ _ _ => trivial) h

/-- The lock of a refcount is never poisoned as long as its `u8` is large enough. -/
theorem unpoisoned_of_reach (h64 : cfg.io.perBucket ≤ 64)
    (h : (Executor.machine cfg).Reach (State.Admits fresh) s) :
    s.Everywhere (fun v _ _ => v.refcount.poisoned = false) := by
  refine LocalInv.of_reach (K := fun v t g => Counted cfg v t g ∧ Cleansable v t g)
    ⟨rfl, fun _ _ _ _ _ h => h, fun v t g a v' t' e _ hk h _ hs => ?_,
      fun v t g v' g' _ _ h hs => ?_⟩ (fun _ hr => counted_of_reach hr) h
  · cases hs with
    | countOverflow b hge =>
      have := hk.1.bound
      unfold IoResources.perBucket at h64
      omega
    | readyZero b hv =>
      have he := hk.1.exact rfl
      have h2 : (TaskPc.ready b).owes = 1 := rfl
      omega
    | slotAgain =>
      rw [refcount_dropGuard]
      exact h
    | futureAgain =>
      rw [refcount_dropGuard]
      exact h
    | _ => exact h
  · cases hs <;> exact h

/-! ## the count of a reachable state -/

/-- what the workers inside `run_bucket` owe to the count of bucket `b` -/
def State.owed (s : State W T) (b : ℕ) : ℕ :=
  tally (fun t : TaskPc => if t.bucket = some b then t.owes else 0) Finset.univ s.task

/-- bucket `b` has no live task -/
def State.Vacant (cfg : Cfg) (s : State W T) (b : ℕ) : Prop :=
  (s.bucket b).future.val = none ∧ (s.accept.gate b).claimed = false ∧
    ∀ i < cfg.io.httpConnections, ((s.bucket b).connections i).val = .empty

theorem State.At.owed {b : ℕ} {t : TaskPc} (h : s.At b t) (ho : s.q.Owned)
    (ha : Attached cfg s) : s.owed b = if t.bucket = some b then t.owes else 0 := by
  have hnot : ∀ w, ¬ s.q.Owns w b → (s.task w).bucket ≠ some b := fun w hw hb => hw (ha.owns hb)
  rcases h with ⟨w, hw, rfl⟩ | ⟨hno, rfl⟩
  · refine Finset.sum_eq_single w (fun w' _ hne => ?_) (fun h => absurd (Finset.mem_univ w) h)
    exact if_neg (hnot w' (fun hw' => hne (ho.unique b w' w hw' hw)))
  · exact tally_eq_zero.mpr (fun w _ => if_neg (hnot w (hno w)))

theorem State.exists_at (s : State W T) (b : ℕ) : ∃ t, s.At b t := by
  by_cases h : ∃ w, s.q.Owns w b
  · obtain ⟨w, hw⟩ := h
    exact ⟨_, .inl ⟨w, hw, rfl⟩⟩
  · exact ⟨_, .inr ⟨fun w hw => h ⟨w, hw⟩, rfl⟩⟩

/-- The task of an owner is a task of its bucket, or idle. -/
theorem State.At.bucket {b : ℕ} {t : TaskPc} (h : s.At b t) (ha : Attached cfg s) :
    t.bucket = some b ∨ t = .idle := by
  rcases h with ⟨w, hw, rfl⟩ | ⟨_, rfl⟩
  · cases hb : (s.task w).bucket with
    | none => exact .inr (TaskPc.eq_idle hb)
    | some b' =>
      have h1 := ha.owns hb
      exact .inl (h1.symm.trans hw)
  · exact .inr rfl

/-- The answer of `run_bucket` after a task has ended. -/
theorem forever_iff {w : W} {b : ℕ} {s' : State W T} (ha : Attached cfg s)
    (hc : Counted cfg (s.bucket b) (.ready b) (s.accept.gate b))
    (hp : (s.bucket b).refcount.poisoned = false) (ht : s.task w = .ready b)
    (hs : s.step cfg (.task w .step) = some s') :
    s'.q.pc w = .done b 0 false ↔ s.Vacant cfg b := by
  have hpc : s.q.pc w = .running b := ha.running w b (by rw [ht]; rfl)
  have hv := hc.vacant
  simp only [State.step] at hs
  split at hs
  · obtain ⟨b', v, t, e, hb, hts, he⟩ := State.taskStep_eq hs
    rw [ht] at hb hts
    cases hb
    cases hts with
    | die _ _ hd =>
      cases hd with
      | ready _ h => rw [hp] at h; cases h
    | raise _ _ _ _ hr => cases hr
    | readyZero _ h0 =>
      have h1 := hc.exact rfl
      have h2 : (TaskPc.ready b).owes = 1 := rfl
      omega
    | readyLast _ h1 =>
      refine iff_of_true ?_ (hv.mp h1)
      obtain ⟨q, hq, rfl⟩ := Option.map_eq_some_iff.mp he
      simp only [Queue.step, State.setTask_q, State.setBucket_q, hpc] at hq
      cases hq
      simp only [State.setQ_q, Queue.pc_setPc, Function.update_self]
    | readyMore _ h1 =>
      refine iff_of_false ?_ (fun h => absurd (hv.mpr h) (by omega))
      cases he
      show s.q.pc w ≠ _
      rw [hpc]
      simp
    | longjmp _ _ _ h => rcases h with ⟨_, h⟩ | h <;> cases h
    | longjmpConn _ _ _ _ _ h => rcases h with h | h <;> cases h
  · cases hs

/-- A bucket that nobody counts is vacant, and owes nothing. -/
theorem vacant_of_zero (ha : Attached cfg s) (ho : s.q.Owned)
    (hall : s.Everywhere (fun v t g => Counted cfg v t g ∧ Cleansable v t g)) {b : ℕ}
    (hv : (s.bucket b).refcount.val = 0) : s.Vacant cfg b ∧ s.owed b = 0 := by
  obtain ⟨t, hat⟩ := s.exists_at b
  have hok : TaskOk cfg t := by
    rcases hat with ⟨w, _, rfl⟩ | ⟨_, rfl⟩
    · exact ha.taskOk w
    · trivial
  obtain ⟨h1, h2, h3, h4⟩ := (hall b t hat).1.of_zero hok hv
  refine ⟨⟨h1, h2, (liveConns_eq_zero cfg _).mp h3⟩, ?_⟩
  have hq : t.owes = 0 := TaskPc.owes_of_quiet h4
  rw [hat.owed ho ha, hq]
  split <;> rfl

/-- `try_claim` succeeds on a bucket that nobody counts only. -/
theorem zero_of_claim {fd : RawFd} {b : ℕ} {busy : Bool} (hp : s.accept = .claiming fd b)
    (hs : s.step cfg (.accept busy) = some s') (hp' : s'.accept = .setting fd b) :
    (s.bucket b).refcount.val = 0 := by
  simp only [State.step] at hs
  split at hs
  · obtain ⟨b', v, p, e, hb, has, he⟩ := State.acceptStep_eq hs
    rw [hp] at hb has
    cases hb
    have hpp : p = .setting fd b := (State.emit_eq he).2.1.symm.trans hp'
    cases has with
    | claim _ _ _ hv => exact hv
    | _ => cases hpp
  · cases hs

/-- **Reference counts are exact.**  In every state reached without taking up a missing future:
the count of a bucket that is not being cleaned up; it fits in a `u8`, and neither the increment of
`handshake` nor the decrement of `run_bucket` leaves its range; `try_claim` hands out a bucket only
when it has no live task, so that the assertion of `set` holds; `run_bucket` answers `Forever`
exactly when no live task is left.  (A worker that died inside `cleanup_bucket`, or waits there for a
lock that nobody gives back, is still inside it.) -/
theorem refcount_exact (cfg : Cfg) (h64 : cfg.io.perBucket ≤ 64) (s : State W T)
    (h : (Executor.machine cfg).Reach (State.Admits fresh) s) :
    (∀ b, (∀ w, (s.task w).bucket = some b → (s.task w).inCleanup = false) →
      (s.bucket b).refcount.val = (s.bucket b).mainLive (s.accept.gate b)
        + (s.bucket b).liveConns cfg + s.owed b) ∧
    (∀ b, (s.bucket b).refcount.val < 2^8) ∧
    (∀ w b, s.task w = .main b .count → (s.bucket b).refcount.val + 1 < 2^8) ∧
    (∀ w b, s.task w = .ready b → (s.bucket b).refcount.val ≠ 0) ∧
    (∀ fd b busy s', s.accept = .claiming fd b → s.step cfg (.accept busy) = some s' →
      s'.accept = .setting fd b → s.Vacant cfg b ∧ s.owed b = 0) ∧
    (∀ b, s.accept ≠ .checking b true) ∧
    (∀ w b s', s.task w = .ready b → s.step cfg (.task w .step) = some s' →
      (s'.q.pc w = .done b 0 false ↔ s.Vacant cfg b)) := by
  have hall := counted_of_reach h
  have ho := Queue.owned_of_reachable (queue_reachable h)
  have ha := attached_of_reach h
  have hlt : ∀ b, (s.bucket b).refcount.val + 1 < 2^8 := by
    intro b
    obtain ⟨t, hat⟩ := s.exists_at b
    have := (hall b t hat).1.bound
    unfold IoResources.perBucket at h64
    omega
  refine ⟨fun b hb => ?_, fun b => by have := hlt b; omega, fun w b _ => hlt b, fun w b ht => ?_,
    fun fd b busy s' hp hs hp' => ?_, fun b hp => ?_, fun w b s' ht hs => ?_⟩
  · obtain ⟨t, hat⟩ := s.exists_at b
    rw [hat.owed ho ha]
    rcases hat with ⟨w, hw, rfl⟩ | ⟨hno, rfl⟩
    · have hc := (hall b _ (.inl ⟨w, hw, rfl⟩)).1
      rcases State.At.bucket (.inl ⟨w, hw, rfl⟩) ha with h1 | h1
      · rw [if_pos h1]
        exact hc.exact (hb w h1)
      · rw [h1] at hc ⊢
        exact hc.exact rfl
    · exact (hall b .idle (.inr ⟨hno, rfl⟩)).1.exact rfl
  · have hc := (hall.at_task ha (w := w) (b := b) (by rw [ht]; rfl)).1
    rw [ht] at hc
    have he := hc.exact rfl
    have h2 : (TaskPc.ready b).owes = 1 := rfl
    omega
  · exact vacant_of_zero ha ho hall (zero_of_claim hp hs hp')
  · obtain ⟨t, hat⟩ := s.exists_at b
    have hv := (hall b t hat).2.vacant.2
    rw [hp] at hv
    simp [AcceptPc.gate] at hv
  · have hc := hall.at_task ha (w := w) (b := b) (by rw [ht]; rfl)
    rw [ht] at hc
    have hp := (unpoisoned_of_reach h64 h).at_task ha (w := w) (b := b) (by rw [ht]; rfl)
    exact forever_iff ha hc.1 hp ht hs

/-- a handshake has incremented the count -/
theorem refcount_exact_two :
    (((Executor.machine cfgOne).final
      (arriving ++ taking ++ [.task 0 .connect, .task 0 .step])).bucket 0).refcount.val = 2 := by
  rw [(refcount_exact cfgOne (by decide) _ (Machine.Reach.final (by decide))).1 0 (by decide)]
  decide

end
end Nea
