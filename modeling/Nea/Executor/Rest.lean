import Nea.Executor.Memory
import Nea.Executor.Restore
import Nea.Executor.Wakeups
import Nea.Queue.Drain

/-!
# The server at rest

The server is at rest when nobody is inside `initial_enqueue`, the accept thread waits for a client
and all workers sleep in `blocking_dequeue`.  Each mechanism that got it there may have left
something behind: a mark that nobody picks up, a count that is never taken back, the bit of a task
that nobody will poll, a guard, memory of a bucket that is free.

* `State.AtRest`      the state;
* `State.AtRest.hasJob`   no wake-up is left behind;
* `at_rest`           what is there, and that nothing else is.
-/

set_option linter.unusedSectionVars false

namespace Nea

section
variable {W T : Type} [DecidableEq W] [DecidableEq T] [Fintype W]
variable {cfg : Cfg} {s : State W T}

structure State.AtRest (s : State W T) : Prop where
  calls : ∀ t, s.q.calls t = none
  asleep : s.q.AllAsleep
  accept : s.accept = .idle

/-- all locks of the bucket can be taken -/
structure Bucket.Unlocked (v : Bucket) : Prop where
  refcount : v.refcount.poisoned = false
  future : v.future.free = true
  connections : ∀ i, (v.connections i).free = true

theorem State.AtRest.at_idle (hr : s.AtRest) (b : ℕ) : s.At b .idle :=
  .inr ⟨fun w => Queue.not_owns_of_asleep hr.asleep w b, rfl⟩

theorem State.AtRest.gate (hr : s.AtRest) (b : ℕ) : s.accept.gate b = .away := by
  rw [hr.accept]
  rfl

/-- **No guard is left behind.** -/
theorem State.AtRest.unlocked (h : (Executor.machine cfg).Reach (State.Admits fresh) s)
    (hr : s.AtRest) (b : ℕ) : (s.bucket b).Unlocked := by
  have hlost : ¬ s.Lost b := by
    rintro ⟨w, hw, -⟩
    exact Queue.not_owns_of_asleep hr.asleep w b hw
  have hsound := sound_of_reach h hlost (hr.at_idle b)
  rw [hr.gate] at hsound
  rcases hsound with hl | ⟨-, hend⟩ | hst
  · exact ⟨hl.refcount, Mutex.free_eq_true.mpr ⟨hl.main, hl.poison⟩,
      fun i => Mutex.free_eq_true.mpr ⟨hl.conn i, hl.connPoison i⟩⟩
  · cases hend
  · cases hst.ending

/-- the live tasks of the bucket -/
def Bucket.liveTasks (cfg : Cfg) (v : Bucket) : ℕ := v.future.val.isSome.toNat + v.liveConns cfg

theorem Bucket.mainLive_away (v : Bucket) : v.mainLive .away = v.future.val.isSome.toNat := by
  unfold Bucket.mainLive
  cases v.future.val <;> rfl

/-- **No count is left behind.** -/
theorem State.AtRest.refcount (h : (Executor.machine cfg).Reach (State.Admits fresh) s)
    (hr : s.AtRest) (b : ℕ) : (s.bucket b).refcount.val = (s.bucket b).liveTasks cfg := by
  have hc := (counted_of_reach h b _ (hr.at_idle b)).1.exact rfl
  rw [hr.gate, Bucket.mainLive_away] at hc
  exact hc

/-- **A bucket that is free is restored.** -/
theorem State.AtRest.restored (h : (Executor.machine cfg).Reach (State.Admits fresh) s)
    (hr : s.AtRest) (b : ℕ) (h0 : (s.bucket b).refcount.val = 0) : s.Restored cfg b := by
  have hlive := (hr.refcount h b).symm.trans h0
  unfold Bucket.liveTasks at hlive
  refine ⟨h0, ?_, (liveConns_eq_zero cfg _).mp (by omega), ?_⟩
  · cases hf : (s.bucket b).future.val with
    | none => rfl
    | some f =>
      rw [hf] at hlive
      have : (some f : Option MainFut).isSome.toNat = 1 := rfl
      omega
  · exact (whole_of_reach h b _ (hr.at_idle b)).free h0

/-- **No wake-up is left behind.** -/
theorem State.AtRest.hasJob [Fintype T] [Nonempty W]
    (h : (Executor.machine cfg).Reach (State.Admits fresh) s)
    (hr : s.AtRest) {b off : ℕ} (hlive : s.LiveJob cfg b off) :
    (s.q.slots b).hasJob off = false := by
  rw [Bool.eq_false_iff]
  intro hj
  have hcov : ¬ s.q.Covered b := by
    rintro (he | ⟨t, c, hc, -⟩)
    · unfold QueueSlot.isEnqueued at he
      rw [Queue.flags_of_asleep (queue_reachable h) hr.calls hr.asleep b] at he
      cases he
    · rw [hr.calls t] at hc
      cases hc
  rcases (wakeful_of_reach h b).free (fun w => Queue.not_owns_of_asleep hr.asleep w b) with
    h1 | ⟨hd, h1⟩
  · exact hcov (h1 (Queue.jobs_ne_zero hj))
  · rcases hlive with ⟨rfl, -⟩ | ⟨i, hi, -, hv⟩
    · exact hcov (h1 hj)
    · exact absurd hv (hd i hi)

/-- **A server at rest has nothing left to do and nothing left over.**  In every state reached
without taking up a missing future, with nobody in `initial_enqueue`, the accept thread idle and all
workers asleep: the counter is zero and no slot is marked or in progress; no live task has its job
bit set; no lock is held or poisoned; the count of every bucket is the number of its live tasks, and
a bucket without a count is empty, with all of its memory. -/
theorem at_rest [Fintype T] [Nonempty W] (cfg : Cfg) (s : State W T)
    (h : (Executor.machine cfg).Reach (State.Admits fresh) s) (hr : s.AtRest) :
    s.q.jobsInQueue.val = 0 ∧ (∀ b, (s.q.slots b).flags = 0) ∧
    (∀ b off, s.LiveJob cfg b off → (s.q.slots b).hasJob off = false) ∧
    (∀ b, (s.bucket b).Unlocked) ∧
    (∀ b, (s.bucket b).refcount.val = (s.bucket b).liveTasks cfg) ∧
    (∀ b, (s.bucket b).refcount.val = 0 → s.Restored cfg b) :=
  ⟨Queue.jobs_of_asleep (queue_reachable h) hr.calls hr.asleep,
    Queue.flags_of_asleep (queue_reachable h) hr.calls hr.asleep,
    fun _ _ hlive => hr.hasJob h hlive, hr.unlocked h, hr.refcount h, hr.restored h⟩

/-- the main future of bucket 0 returns `Pending` and worker 0 goes back to sleep -/
def resting : List (Act (Fin 1) (Fin 1)) :=
  [.task 0 .pending, .load 0, .work 0, .work 0, .work 0]

theorem at_rest_resting :
    (((Executor.machine cfgOne).final (arriving ++ taking ++ resting)).bucket 0).refcount.val
      = 1 := by
  have h := at_rest cfgOne ((Executor.machine cfgOne).final (arriving ++ taking ++ resting))
    (Machine.Reach.final (by decide)) ⟨by decide, fun w => by decide +revert, by decide⟩
  rw [h.2.2.2.2.1 0]
  decide

end
end Nea
