import Nea.Executor.Refcount

/-!
# The memory of a bucket

A bucket is wiped in two places: by the worker that ends its last task, before the count is reset,
and by `cleanup_bucket`, between taking the tasks out and resetting the count.  `Whole` says that a
bucket without a count has all of its memory; `memory_exact` that memory is handed back only when
the bucket has no live task, so that it only shrinks while a request is being handled.
-/

set_option linter.unusedSectionVars false

namespace Nea

/-- all of the memory of a free bucket is there -/
structure Whole (cfg : Cfg) (v : Bucket) (t : TaskPc) (_ : Gate) : Prop where
  free : v.refcount.val = 0 → v.remaining = cfg.bucketSize
  wiped : ∀ b r, t = .cleanup b r .release → v.remaining = cfg.bucketSize

section
variable {cfg : Cfg} {v v' : Bucket} {t t' : TaskPc} {g g' : Gate} {a : TaskAct} {e : Effect}

theorem Bucket.allocate_le {l : Layout} {n : ℕ} (h : v.allocate l = some n) : n ≤ v.remaining := by
  unfold Bucket.allocate at h
  split at h
  · cases h
  · exact carve_le h

/-- **Memory is handed back by `clear_bucket` only.** -/
theorem TStep.remaining_le (hs : TStep cfg v t a v' t' e) :
    v'.remaining ≤ v.remaining ∨ e.wipes = true := by
  cases hs with
  | alloc _ l n _ hn => exact .inl (Bucket.allocate_le hn)
  | readyLast => exact .inr rfl
  | wipe => exact .inr rfl
  | slotAgain =>
    rw [remaining_dropGuard]
    exact .inl le_rfl
  | futureAgain =>
    rw [remaining_dropGuard]
    exact .inl le_rfl
  | _ => exact .inl le_rfl

/-- Neither the count nor the memory changes, and the bucket is not about to be released. -/
theorem Whole.again (h : Whole cfg v t g) (hr : v'.refcount = v.refcount)
    (hm : v'.remaining = v.remaining) (ht : ∀ b r, t' ≠ .cleanup b r .release) :
    Whole cfg v' t' g where
  free h0 := by
    rw [hr] at h0
    rw [hm]
    exact h.free h0
  wiped b r e := absurd e (ht b r)

theorem Whole.task (ht : TaskOk cfg t) (hc : Counted cfg v t g)
    (h : Whole cfg v t g) (hs : TStep cfg v t a v' t' e) : Whole cfg v' t' g := by
  cases hs with
  | dispatch b off _ hd =>
    rcases dispatch_eq ht hd with ⟨rfl, _⟩ | ⟨i, _, rfl, _⟩ <;> exact ⟨h.free, nofun⟩
  | die => exact h
  | alloc _ l n ht' hn =>
    -- a task that allocates is counted
    have hpos : 1 ≤ v.refcount.val := by
      rcases ht' with ⟨b, rfl⟩ | ⟨b, i, rfl⟩
      · exact (hc.main rfl).2
      · have he := hc.exact rfl
        have := liveConns_pos cfg v ht
          (by rw [show (v.connections i).val = .occupied from hc.place]; simp)
        omega
    refine ⟨fun h0 => absurd h0 (by rw [Bucket.setRemaining_refcount]; omega), ?_⟩
    rintro b r rfl
    rcases ht' with ⟨_, h1⟩ | ⟨_, _, h1⟩ <;> cases h1
  | count b hv hlt => exact ⟨nofun, nofun⟩
  | connPanics _ b i ht' =>
    refine ⟨h.free, ?_⟩
    rintro b r rfl
    rcases ht' with h1 | h1 <;> cases h1
  | readyLast b hv => exact ⟨fun _ => rfl, nofun⟩
  | readyMore b hv =>
    refine ⟨fun h0 => ?_, nofun⟩
    change v.refcount.val - 1 = 0 at h0
    omega
  | wipe b r => exact ⟨fun _ => rfl, fun _ _ _ => rfl⟩
  | release b r => exact ⟨fun _ => h.wiped b r rfl, nofun⟩
  | slotAgain =>
    exact h.again (refcount_dropGuard ..) (remaining_dropGuard ..) (fun _ _ h => by cases h)
  | futureAgain =>
    exact h.again (refcount_dropGuard ..) (remaining_dropGuard ..) (fun _ _ h => by cases h)
  | _ => exact ⟨h.free, nofun⟩

theorem Whole.accept (h : Whole cfg v t g) (hs : GStep v g v' g') : Whole cfg v' t g' := by
  cases hs with
  | claim hv => exact ⟨nofun, h.wiped⟩
  | _ => exact ⟨h.free, h.wiped⟩

end

section
variable {W T : Type} [DecidableEq W] [DecidableEq T] [Fintype W]
variable {cfg : Cfg} {s : State W T}

theorem whole_of_reach (h : (Executor.machine cfg).Reach (State.Admits fresh) s) :
    s.Everywhere (Whole cfg) := by
  have hL : LocalInv cfg fresh (fun v t g => Counted cfg v t g ∧ Cleansable v t g) (Whole cfg) :=
    { init := ⟨fun _ => rfl, nofun⟩
      job := fun _ _ _ _ _ h => ⟨h.free, nofun⟩
      task := fun _ _ _ _ _ _ _ ht hk h _ hs => h.task ht hk.1 hs
      accept := fun _ _ _ _ _ _ _ h hs => h.accept hs }
  exact hL.of_reach (fun _ hr => counted_of_reach hr) h

end
end Nea
