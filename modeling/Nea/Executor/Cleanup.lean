import Nea.Executor.Local

/-!
# Connection slots and the clean-up of a bucket

Two invariants of a bucket that hold in every run, whatever panics:

* `Pledged`   the slots of unfinished handshakes are reserved and distinct, so that a handshake that
              succeeds finds its slot reserved, and a polled connection occupies its slot.  Only
              between the emptying of the slots and the drop of the main future this is not so;
* `Emptied`   what `cleanup_bucket` has achieved at each of its steps: the slots that are empty, the
              memory that is handed back, the main future that is gone.
-/

set_option linter.unusedSectionVars false

namespace Nea

/-- `cleanup_bucket` is emptying slots, or an earlier one for the same failure has, and has not
dropped the main future yet -/
def TaskPc.emptying : TaskPc → Bool
  | .cleanup _ _ (.slots _) => true
  | .cleanup _ _ .future => true
  | .cleanup _ _ .wipe => false
  | .cleanup _ _ .release => false
  | .cleanup _ f _ => f.left.isSome
  | _ => false

/-- the number of slots that `cleanup_bucket` has emptied -/
def TaskPc.emptied (cfg : Cfg) : TaskPc → ℕ
  | .cleanup _ _ (.slots i) => i
  | .cleanup _ _ .future => cfg.io.httpConnections
  | .cleanup _ _ .wipe => cfg.io.httpConnections
  | .cleanup _ _ .release => cfg.io.httpConnections
  | _ => 0

/-- `cleanup_bucket` has dropped the main future -/
def TaskPc.dropped : TaskPc → Bool
  | .cleanup _ _ .wipe => true
  | .cleanup _ _ .release => true
  | _ => false

/-- `set` has written the future and not the descriptor -/
def Gate.isStoring : Gate → Bool
  | .storing _ => true
  | _ => false

section
variable {cfg : Cfg} {v v' : Bucket} {t t' : TaskPc} {g g' : Gate} {a : TaskAct} {e : Effect}

/-! ## handshakes -/

theorem handshakes_congr (h : v'.future.val = v.future.val) : v'.handshakes = v.handshakes := by
  unfold Bucket.handshakes
  rw [h]

structure Pledged (v : Bucket) (t : TaskPc) (_ : Gate) : Prop where
  reserved : t.emptying = false → ∀ i ∈ v.handshakes, (v.connections i).val = .reserved
  nodup : v.handshakes.Nodup
  occupied : ∀ b i, t = .conn b i → (v.connections i).val = .occupied

/-- The same handshakes, the same slots. -/
theorem Pledged.keep (h : Pledged v t g) (hf : v'.handshakes = v.handshakes)
    (hc : ∀ i, (v'.connections i).val = (v.connections i).val)
    (he : t'.emptying = false → t.emptying = false)
    (ho : ∀ b i, t' = .conn b i → t = .conn b i) : Pledged v' t' g' where
  reserved he' i hi := by
    rw [hc]
    rw [hf] at hi
    exact h.reserved (he he') i hi
  nodup := hf ▸ h.nodup
  occupied b i ht := by
    rw [hc]
    exact h.occupied b i (ho b i ht)

/-- Without a main future there are no handshakes. -/
theorem Pledged.of_none (hf : v.future.val = none) (ho : ∀ b i, t ≠ .conn b i) :
    Pledged v t g := by
  have hn : v.handshakes = [] := by unfold Bucket.handshakes; rw [hf]; rfl
  refine ⟨fun _ i hi => ?_, ?_, fun b i ht => absurd ht (ho b i)⟩
  · rw [hn] at hi
    cases hi
  · rw [hn]
    exact List.nodup_nil

theorem Pledged.task (ht : TaskOk cfg t) (h : Pledged v t g) (hs : TStep cfg v t a v' t' e) :
    Pledged v' t' g := by
  cases hs with
  | dispatch b off _ hd =>
    rcases dispatch_eq ht hd with ⟨rfl, _⟩ | ⟨i, _, rfl, _⟩ <;>
      exact h.keep rfl (fun _ => rfl) (fun _ => rfl) nofun
  | die => exact h
  | alloc => exact h.keep rfl (fun _ => rfl) id (fun _ _ => id)
  | longjmp _ _ b ht' =>
    rcases ht' with ⟨k, rfl⟩ | rfl <;> exact h.keep rfl (fun _ => rfl) (fun _ => rfl) nofun
  | longjmpUnwinding b owed => exact h.keep rfl (fun _ => rfl) (fun _ => rfl) nofun
  | longjmpConn _ _ b i p ht' =>
    rcases ht' with rfl | rfl <;>
      exact h.keep rfl (val_setConn_same (Mutex.val_leave ..)) (fun _ => rfl) nofun
  | raise _ _ b owed hr => cases hr <;> exact h.keep rfl (fun _ => rfl) (fun _ => rfl) nofun
  | populate b i hi hf hr =>
    refine ⟨fun _ j hj => ?_, h.nodup.erase i, nofun⟩
    change j ∈ v.handshakes.erase i at hj
    have hne : j ≠ i := by
      rintro rfl
      exact h.nodup.not_mem_erase hj
    exact (val_setConn_ne _ hne).trans (h.reserved rfl j (List.mem_of_mem_erase hj))
  | populateTaken b i hi hf hr => exact absurd (h.reserved rfl i hi) hr
  | forget b i hi =>
    exact ⟨fun _ j hj => h.reserved rfl j (List.mem_of_mem_erase hj), h.nodup.erase i, nofun⟩
  | ready b => exact .of_none rfl nofun
  | reserve b i counted hi hf he =>
    have hnot : i ∉ v.handshakes := by
      intro hmem
      rw [h.reserved rfl i hmem] at he
      cases he
    refine ⟨fun _ j hj => ?_, List.nodup_cons.mpr ⟨hnot, h.nodup⟩, nofun⟩
    by_cases e : j = i
    · rw [e]
      exact val_setConn_self i _
    · have hj' : j ∈ v.handshakes := (List.mem_cons.mp hj).resolve_left e
      exact (val_setConn_ne _ e).trans (h.reserved rfl j hj')
  | connReserved b i hr => exact h.keep rfl (val_setConn_same rfl) id (fun _ _ => id)
  | takeConn b i hf ho =>
    have hk : ∀ j, _ = (v.connections j).val := val_setConn_same (m := (v.connections i).lock) rfl
    refine ⟨fun _ j hj => ?_, h.nodup, ?_⟩
    · rw [hk]
      exact h.reserved rfl j hj
    · rintro b' j hj
      cases hj
      rw [hk]
      exact ho
  | connPending b i => exact h.keep rfl (val_setConn_same rfl) (fun _ => rfl) nofun
  | connReady b i =>
    refine ⟨fun _ j hj => ?_, h.nodup, nofun⟩
    have hne : j ≠ i := by
      rintro rfl
      have h1 := h.reserved rfl j hj
      rw [h.occupied b j rfl] at h1
      cases h1
    exact (val_setConn_ne _ hne).trans (h.reserved rfl j hj)
  | connPanics _ b i ht' => exact h.keep rfl (val_setConn_same rfl) id (fun _ _ => id)
  | connDropped b i => exact h.keep rfl (val_setConn_same rfl) (fun _ => rfl) nofun
  | slot b r i hi hf => exact ⟨nofun, h.nodup, nofun⟩
  | slotPanics b r i hi hf => exact ⟨nofun, h.nodup, nofun⟩
  | slotAgain b r i _ p hi hf ho =>
    refine ⟨nofun, ?_, nofun⟩
    rw [handshakes_congr (future_val_dropGuard ..)]
    exact h.nodup
  | future b r hf => exact .of_none rfl nofun
  | futurePanics b r hf => exact .of_none (Mutex.val_leave ..) nofun
  | futureAgain b r _ p hf hs => exact .of_none (future_val_dropGuard ..) nofun
  | load b r => exact h.keep rfl (fun _ => rfl) id nofun
  | respond b r fd => exact h.keep rfl (fun _ => rfl) id nofun
  | closeError b r fd => exact ⟨nofun, h.nodup, nofun⟩
  | slotsDone b r i hi => exact ⟨nofun, h.nodup, nofun⟩
  | _ => exact h.keep rfl (fun _ => rfl) (fun _ => rfl) nofun

theorem Pledged.accept (h : Pledged v t g) (hs : GStep v g v' g') : Pledged v' t g' := by
  cases hs with
  | replace => exact ⟨fun _ i hi => absurd hi (List.not_mem_nil), List.nodup_nil, h.occupied⟩
  | _ => exact h.keep rfl (fun _ => rfl) id (fun _ _ => id)

/-! ## `cleanup_bucket` -/

structure Emptied (cfg : Cfg) (v : Bucket) (t : TaskPc) (g : Gate) : Prop where
  empty : ∀ i < t.emptied cfg, (v.connections i).val = .empty
  whole : ∀ b r, t = .cleanup b r .release → v.remaining = cfg.bucketSize
  /-- the main future is gone, unless the accept thread has claimed or set the bucket since the
  descriptor was reclaimed -/
  gone : t.dropped = true →
    v.future.val = none ∨ g.isStoring = true ∨ ∀ fd l, v.trace ≠ .reclaim fd :: l

theorem Emptied.elsewhere (he : t.emptied cfg = 0) (hd : t.dropped = false) :
    Emptied cfg v t g where
  empty i hi := by rw [he] at hi; cases hi
  whole b r ht := by rw [ht] at hd; cases hd
  gone h := by rw [hd] at h; cases h

theorem Emptied.task (ht : TaskOk cfg t) (h : Emptied cfg v t g)
    (hs : TStep cfg v t a v' t' e) : Emptied cfg v' t' g := by
  cases hs with
  | dispatch b off _ hd =>
    rcases dispatch_eq ht hd with ⟨rfl, _⟩ | ⟨i, _, rfl, _⟩ <;> exact .elsewhere rfl rfl
  | die => exact h
  | alloc _ l n ht' hn =>
    rcases ht' with ⟨b, rfl⟩ | ⟨b, i, rfl⟩ <;> exact .elsewhere rfl rfl
  | connPanics _ b i ht' => rcases ht' with rfl | rfl <;> exact .elsewhere rfl rfl
  | slot b r i hi hf =>
    refine ⟨fun j hj => ?_, nofun, nofun⟩
    by_cases e : j = i
    · rw [e]
      exact val_setConn_self i _
    · exact (val_setConn_ne _ e).trans (h.empty j (by
        change j < i + 1 at hj
        change j < i
        omega))
  | slotPanics b r i hi hf =>
    refine ⟨fun j hj => ?_, nofun, nofun⟩
    exact (val_setConn_ne _ (Nat.ne_of_lt hj)).trans (h.empty j hj)
  | slotsDone b r i hi =>
    refine ⟨fun j hj => h.empty j ?_, nofun, nofun⟩
    change j < cfg.io.httpConnections at hj
    change j < i
    omega
  | future b r hf => exact ⟨h.empty, nofun, fun _ => .inl rfl⟩
  | futurePanics b r hf => exact ⟨h.empty, nofun, nofun⟩
  | wipe b r => exact ⟨h.empty, fun _ _ _ => rfl, fun _ => h.gone rfl⟩
  | _ => exact .elsewhere rfl rfl

theorem Emptied.accept (h : Emptied cfg v t g) (hs : GStep v g v' g') : Emptied cfg v' t g' := by
  cases hs with
  | claim => exact ⟨h.empty, h.whole, fun _ => .inr (.inr nofun)⟩
  | replace => exact ⟨h.empty, h.whole, fun _ => .inr (.inl rfl)⟩
  | store => exact ⟨h.empty, h.whole, fun _ => .inr (.inr nofun)⟩
  | _ =>
    refine ⟨h.empty, h.whole, fun hd => ?_⟩
    rcases h.gone hd with h1 | h1 | h1
    · exact .inl h1
    · cases h1
    · exact .inr (.inr h1)

end

section
variable {W T : Type} [DecidableEq W] [DecidableEq T] [Fintype W]
variable {cfg : Cfg} {s : State W T} {ok : Bucket → TaskPc → Gate → TaskAct → Prop}

theorem pledged_of_reach (h : (Executor.machine cfg).Reach (State.Admits ok) s) :
    s.Everywhere Pledged := by
  refine LocalInv.of_reach (K := fun _ _ _ => True) ⟨?_, fun _ _ _ _ _ h => ?_,
    fun _ _ _ _ _ _ _ ht _ h _ hs => h.task ht hs, fun _ _ _ _ _ _ _ h hs => h.accept hs⟩
    (fun _ _ _ _ _ => trivial) h
  · exact .of_none rfl nofun
  · exact h.keep rfl (fun _ => rfl) (fun _ => rfl) nofun

end
end Nea
