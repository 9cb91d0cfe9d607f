import Nea.Executor.Survival

/-!
# A worker that is stranded

`roc_panic` jumps back to the arm of `run_bucket` from wherever it is called: also while a panic
unwinds, and also from a destructor that `cleanup_bucket` runs.  The guards of the frames it jumps
over are not dropped, the one that the arm drops is dropped a second time, and a panic that is in
progress stays in progress.  `cleanup_bucket` then starts (again) and may never get to its end.

* `Stranded`          a mutex that it has still to lock is poisoned, or locked for good;
* `Stranded.step`     and so it stays, until the worker dies;
* `Locks.strand`      where that can begin: the one step that spoils the locks of a bucket is of the
                      kind that `TaskPc.strands` names.
-/

set_option linter.unusedSectionVars false

namespace Nea

section
variable (v : Bucket)

def Bucket.lockedAt : Guard → Bool
  | .future => v.future.locked
  | .conn i => (v.connections i).locked

def Bucket.poisonedAt : Guard → Bool
  | .future => v.future.poisoned
  | .conn i => (v.connections i).poisoned

end

/-- `cleanup_bucket` has still to lock slot `j`, if there is one -/
def CleanupPc.slotAhead (j : ℕ) : CleanupPc → Prop
  | .slots i => i ≤ j
  | .future => False
  | .wipe => False
  | .release => False
  | _ => True

def CleanupPc.futureAhead : CleanupPc → Prop
  | .wipe => False
  | .release => False
  | _ => True

/-- `cleanup_bucket` has still to lock the mutex -/
def CleanupPc.meets (cfg : Cfg) (k : CleanupPc) : Guard → Prop
  | .future => k.futureAhead
  | .conn j => j < cfg.io.httpConnections ∧ k.slotAhead j

/-- the locks are those of a worker that never gets to the end of `cleanup_bucket`: a mutex on its
way is poisoned, or locked by a guard that is not the one the arm drops -/
def Stranded (cfg : Cfg) (v : Bucket) (t : TaskPc) : Prop :=
  ∃ b f k guard, t = .cleanup b f k ∧ k.meets cfg guard ∧
    (v.poisonedAt guard = true ∨ v.lockedAt guard = true ∧ guard ≠ f.guard)

section
variable {cfg : Cfg} {v v' : Bucket} {t t' : TaskPc} {g g' : Gate} {a : TaskAct} {e : Effect}

theorem poisonedAt_dropGuard {guard : Guard} (h : v.poisonedAt guard = true) (guard' : Guard)
    (p : Bool) : (v.dropGuard guard' p).poisonedAt guard = true := by
  have hleave : ∀ {α : Type} (m : Mutex α), m.poisoned = true → (m.leave p).poisoned = true :=
    fun m hm => by rw [Mutex.poisoned_leave, hm, Bool.or_true]
  cases guard with
  | future =>
    cases guard' with
    | future => exact hleave _ h
    | conn j => exact h
  | conn i =>
    cases guard' with
    | future => exact h
    | conn j =>
      show (Function.update v.connections j _ i).poisoned = true
      by_cases e : i = j
      · subst e
        rw [Function.update_self]
        exact hleave _ h
      · rw [Function.update_of_ne e]
        exact h

theorem poisonedAt_dropGuard_self (v : Bucket) (guard : Guard) :
    (v.dropGuard guard true).poisonedAt guard = true := by
  cases guard with
  | future => rfl
  | conn i => exact congrArg Mutex.poisoned (setConn_self i _)

theorem lockedAt_dropGuard {guard guard' : Guard} (hne : guard ≠ guard') (p : Bool) :
    (v.dropGuard guard' p).lockedAt guard = v.lockedAt guard := by
  cases guard with
  | future =>
    cases guard' with
    | future => exact absurd rfl hne
    | conn j => rfl
  | conn i =>
    cases guard' with
    | future => rfl
    | conn j => exact congrArg Mutex.locked (setConn_ne _ (fun e => hne (by rw [e])))

/-- A mutex that can be locked is neither poisoned nor locked. -/
theorem not_blocked_future {guard : Guard} {P : Prop} (hf : v.future.free = true)
    (h : v.poisonedAt guard = true ∨ v.lockedAt guard = true ∧ P) : guard ≠ .future := by
  rintro rfl
  obtain ⟨h1, h2⟩ := Mutex.free_eq_true.mp hf
  rcases h with h | ⟨h, _⟩
  · exact absurd (h.symm.trans h2) (by decide)
  · exact absurd (h.symm.trans h1) (by decide)

theorem not_blocked_conn {guard : Guard} {P : Prop} {i : ℕ} (hf : (v.connections i).free = true)
    (h : v.poisonedAt guard = true ∨ v.lockedAt guard = true ∧ P) : guard ≠ .conn i := by
  rintro rfl
  obtain ⟨h1, h2⟩ := Mutex.free_eq_true.mp hf
  rcases h with h | ⟨h, _⟩
  · exact absurd (h.symm.trans h2) (by decide)
  · exact absurd (h.symm.trans h1) (by decide)

/-- A slot that is written leaves the other mutexes. -/
theorem blocked_setConn {guard : Guard} {P : Prop} {i : ℕ} {m : Mutex Slot} (hne : guard ≠ .conn i)
    (h : v.poisonedAt guard = true ∨ v.lockedAt guard = true ∧ P) :
    (v.setConn i m).poisonedAt guard = true ∨ (v.setConn i m).lockedAt guard = true ∧ P := by
  cases guard with
  | future => exact h
  | conn j =>
    have e : (v.setConn i m).connections j = v.connections j :=
      setConn_ne m (fun e => hne (by rw [e]))
    show ((v.setConn i m).connections j).poisoned = true ∨
      ((v.setConn i m).connections j).locked = true ∧ P
    rw [e]
    exact h

/-- The slot of the connection that failed: the guard that the destructor has left around is dropped
by the arm. -/
theorem conn_relocked {i : ℕ} (hl : (v.connections i).locked = false) (j : ℕ) :
    ((v.setConn i (v.connections i).lock).dropGuard (.conn i) false).connections j
      = v.connections j := by
  have hlock : (v.connections i).lock.leave false = v.connections i := by
    generalize v.connections i = m at hl
    obtain ⟨val, locked, poisoned⟩ := m
    cases hl
    rfl
  show Function.update (v.setConn i _).connections i _ j = _
  by_cases e : j = i
  · subst e
    rw [Function.update_self, setConn_self, hlock]
  · rw [Function.update_of_ne e, setConn_ne _ e]

/-- No place of `cleanup_bucket` has more to lock than its start. -/
theorem CleanupPc.meets.restart {k k' : CleanupPc} {guard : Guard} (h : k.meets cfg guard)
    (hs : ∀ j, k'.slotAhead j) (hf : k'.futureAhead) : k'.meets cfg guard := by
  cases guard with
  | future => exact hf
  | conn j => exact ⟨h.1, hs j⟩

/-- A worker that is stranded stays so until it dies. -/
theorem Stranded.step (h : Stranded cfg v t) (hd : e ≠ .die) (hs : TStep cfg v t a v' t' e) :
    Stranded cfg v' t' := by
  obtain ⟨b, f, k, guard, rfl, hm, hb⟩ := h
  cases hs with
  | die => exact absurd rfl hd
  | alloc _ _ _ ht => rcases ht with ⟨_, ht⟩ | ⟨_, _, ht⟩ <;> cases ht
  | longjmp _ _ _ ht => rcases ht with ⟨_, ht⟩ | ht <;> cases ht
  | longjmpConn _ _ _ _ _ ht => rcases ht with ht | ht <;> cases ht
  | raise _ _ _ _ hr => cases hr
  | connPanics => exact absurd rfl hd
  | load => exact ⟨b, f, _, guard, rfl, hm.restart (fun _ => trivial) trivial, hb⟩
  | respond => exact ⟨b, f, _, guard, rfl, hm.restart (fun _ => trivial) trivial, hb⟩
  | closeError => exact ⟨b, f, _, guard, rfl, hm.restart Nat.zero_le trivial, hb⟩
  | slot _ _ i hi hf =>
    have hne := not_blocked_conn hf hb
    refine ⟨b, f, _, guard, rfl, ?_, blocked_setConn hne hb⟩
    cases guard with
    | future => exact trivial
    | conn j => exact ⟨hm.1, Nat.lt_of_le_of_ne hm.2 (fun e => hne (by rw [e]))⟩
  | slotPanics => exact absurd rfl hd
  | slotAgain _ _ i a p hi hf ho ha =>
    have hne := not_blocked_conn hf hb
    refine ⟨b, _, _, guard, rfl, hm.restart (fun _ => trivial) trivial, ?_⟩
    rcases blocked_setConn (m := (v.connections i).lock) hne hb with h1 | ⟨h1, h2⟩
    · exact .inl (poisonedAt_dropGuard h1 _ _)
    · exact .inr ⟨(lockedAt_dropGuard h2 _).trans h1, h2⟩
  | slotsDone _ _ i hi =>
    refine ⟨b, f, _, guard, rfl, ?_, hb⟩
    cases guard with
    | future => exact trivial
    | conn j => exact absurd (lt_of_le_of_lt hm.2 hm.1) hi
  | future _ _ hf =>
    cases guard with
    | future => exact absurd rfl (not_blocked_future hf hb)
    | conn j => exact hm.2.elim
  | futurePanics => exact absurd rfl hd
  | futureAgain _ _ a p hf =>
    cases guard with
    | future => exact absurd rfl (not_blocked_future hf hb)
    | conn j => exact hm.2.elim
  | wipe =>
    cases guard with
    | future => exact hm.elim
    | conn j => exact hm.2.elim
  | release =>
    cases guard with
    | future => exact hm.elim
    | conn j => exact hm.2.elim

/-- The accept thread does not touch the locks of a bucket in use. -/
theorem Stranded.accept (h : Stranded cfg v t) (hg : g.claimed = false) (hs : GStep v g v' g') :
    Stranded cfg v' t := by
  obtain ⟨b, f, k, guard, ht, hm, hb⟩ := h
  refine ⟨b, f, k, guard, ht, hm, ?_⟩
  cases hs with
  | lock => cases hg
  | replace => cases hg
  | _ => cases guard <;> exact hb

/-- **Where memory runs out while a panic unwinds, or in a destructor that `cleanup_bucket` runs**,
the locks are as before, or the worker is stranded. -/
theorem Locks.strand (ht : TaskOk cfg t) (hk : Pledged v t g) (h : Locks v t g) (hd : e ≠ .die)
    (hp : v'.refcount.poisoned = false) (hs : TStep cfg v t a v' t' e) :
    Locks v' t' g ∨ Stranded cfg v' t' := by
  by_cases hst : t.strands a = false
  · exact .inl (h.step ht hk hd hst hp hs)
  · cases hs with
    | longjmpUnwinding b owed => exact .inr ⟨b, _, _, .future, rfl, trivial, .inl rfl⟩
    | longjmpConn _ _ b i p ht' hp' =>
      cases p with
      | false =>
        refine .inl ?_
        have hne : ∀ j, j ≠ i → false = (i == j) := fun j e => (beq_false_of_ne (Ne.symm e)).symm
        rcases ht' with rfl | rfl <;> exact h.setConn rfl (h.connPoison i) rfl hne rfl rfl
      | true =>
        have hi : i < cfg.io.httpConnections := by rcases ht' with rfl | rfl <;> exact ht
        exact .inr ⟨b, _, _, .conn i, rfl, ⟨hi, trivial⟩,
          .inl (poisonedAt_dropGuard_self v (.conn i))⟩
    | slotAgain b f i a p hi hf ho ha =>
      by_cases hg : f.guard = .conn i
      · have hcalm : f.panicking = false := h.calm
        rw [hg]
        cases p with
        | true =>
          rw [Bool.or_true]
          exact .inr ⟨b, _, _, .conn i, rfl, ⟨hi, trivial⟩,
            .inl (poisonedAt_dropGuard_self _ (.conn i))⟩
        | false =>
          have hsame := conn_relocked (Mutex.free_eq_true.mp hf).1
          refine .inl (h.keep rfl rfl rfl (fun j => ?_) rfl rfl rfl ?_)
          · rw [hcalm, Bool.or_false, hsame j]
            exact ⟨rfl, rfl⟩
          · show (f.panicking || false) = f.panicking
            rw [Bool.or_false]
      · refine .inr ⟨b, _, _, .conn i, rfl, ⟨hi, trivial⟩, .inr ⟨?_, Ne.symm hg⟩⟩
        rw [lockedAt_dropGuard (Ne.symm hg)]
        exact congrArg Mutex.locked (setConn_self i _)
    | futureAgain b f a p hf hs ha =>
      by_cases hg : f.guard = .future
      · cases p with
        | true =>
          rw [hg, Bool.or_true]
          exact .inr ⟨b, _, _, .future, rfl, trivial, .inl rfl⟩
        | false => exact .inl (h.futureAgain hf hg)
      · refine .inr ⟨b, _, _, .future, rfl, trivial, .inr ⟨?_, Ne.symm hg⟩⟩
        rw [lockedAt_dropGuard (Ne.symm hg)]
        rfl
    | die => exact absurd rfl hd
    | connPanics => exact absurd rfl hd
    | connReserved => exact absurd rfl hd
    | slotPanics => exact absurd rfl hd
    | futurePanics => exact absurd rfl hd
    | readyZero => exact absurd rfl hd
    | alloc _ _ _ ht' => rcases ht' with ⟨_, rfl⟩ | ⟨_, _, rfl⟩ <;> exact absurd rfl hst
    | longjmp _ _ _ ht' => rcases ht' with ⟨_, rfl⟩ | rfl <;> cases a <;> exact absurd rfl hst
    | raise _ _ _ _ hr => cases hr <;> cases a <;> exact absurd rfl hst
    | _ => exact absurd rfl hst

end
end Nea
