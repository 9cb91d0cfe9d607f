import Nea.Executor.Refcount
import Nea.Queue.Wake

/-!
# No wake-up of a live task is lost

`run_bucket` leaves the job bits of a bucket behind when its last task ends, and a later
`initial_enqueue` that finds such a bit set does not mark the slot.  This does no harm, since a
connection can only come to life while a worker owns the bucket, and the bit of the main future is
the first one that `dequeue` takes.

* `wakeful_of_reach`  the invariant of the queue (`Queue.Wakeful`), where no bucket has a live
                      connection after `Forever`;
* `no_lost_wakeup`    a set bit of a live task is marked, owned, or about to be marked.
-/

set_option linter.unusedSectionVars false

namespace Nea

/-- no connection of the bucket is occupied -/
def Bucket.NoConn (cfg : Cfg) (v : Bucket) : Prop :=
  ∀ i < cfg.io.httpConnections, (v.connections i).val ≠ .occupied

theorem AStep.connections_eq {cfg : Cfg} {v v' : Bucket} {p p' : AcceptPc} {e : Effect}
    (hs : AStep cfg v p v' p' e) : v'.connections = v.connections := by
  cases hs <;> rfl

theorem AStep.ne_forever {cfg : Cfg} {v v' : Bucket} {p p' : AcceptPc} {e : Effect}
    (hs : AStep cfg v p v' p' e) : e ≠ .forever := by
  cases hs <;> nofun

section
variable {W T : Type} [DecidableEq W] [DecidableEq T] [Fintype W]
variable {cfg : Cfg} {s s' : State W T}

/-- the worker is inside `run_bucket`, between two calls of `dequeue` -/
def State.Busy (s : State W T) (w : W) : Prop := s.task w ≠ .idle

/-- the invariant of `Nea.Queue.Wake` for every bucket -/
def State.Wakeful (cfg : Cfg) (s : State W T) : Prop :=
  ∀ b, s.q.Wakeful ((s.bucket b).NoConn cfg) s.Busy b

theorem Attached.running_of_busy (ha : Attached cfg s) {w : W} (hw : s.Busy w) :
    ∃ b, s.q.pc w = .running b := by
  cases hb : (s.task w).bucket with
  | none => exact absurd (TaskPc.eq_idle hb) hw
  | some b => exact ⟨b, ha.running w b hb⟩

/-- The queue moves, by a step other than `load` and `finish`. -/
theorem State.Wakeful.setQ (h : s.Wakeful cfg) (ha : Attached cfg s) (hn : Queue.Named cfg s.q)
    (ho : s.q.Owned) {a : QAct W T} {q : Queue W T} (hq : s.q.step cfg a = some q)
    (hl : ∀ w, a ≠ .load w ∧ a ≠ .finish w) : (s.setQ q).Wakeful cfg :=
  fun b => (h b).step hn ho (.of_step hq)
    (fun w hw => Queue.running_of_step hq hw (hl w).1 (hl w).2) (fun _ hw => .inl hw)
    (fun _ hw => ha.running_of_busy hw)

/-- Worker `w` takes a step on its bucket. -/
theorem State.Wakeful.setTask (h : s.Wakeful cfg) (ha : Attached cfg s) (ho : s.q.Owned) {w : W}
    {b : ℕ} (hb : (s.task w).bucket = some b) (v : Bucket) (t : TaskPc) :
    ((s.setBucket b v).setTask w t).Wakeful cfg := by
  intro b'
  have hbusy : ∀ w', ((s.setBucket b v).setTask w t).Busy w' → s.Busy w' := by
    intro w' hw'
    by_cases e : w' = w
    · subst e
      intro hi
      rw [hi] at hb
      cases hb
    · unfold State.Busy at hw'
      rw [State.setTask_task, Function.update_of_ne e] at hw'
      exact hw'
  show s.q.Wakeful (Bucket.NoConn cfg (Function.update s.bucket b v b')) _ b'
  by_cases e : b' = b
  · subst e
    exact (h b').owner ho (ha.running w b' hb) hbusy
  · rw [Function.update_of_ne e]
    exact (h b').mono hbusy

/-- The last task of the bucket has ended: `finish`. -/
theorem State.Wakeful.finish (h : s.Wakeful cfg) {w : W} {b : ℕ} {v : Bucket} {q : Queue W T}
    (ha : Attached cfg s) (ho : s.q.Owned) (hb : (s.task w).bucket = some b)
    (hv : v.NoConn cfg) (hq : s.q.step cfg (.finish w) = some q) :
    (((s.setBucket b v).setTask w .idle).setQ q).Wakeful cfg := by
  have hw : s.q.pc w = .running b := ha.running w b hb
  have hne : s.Busy w := by
    intro hi
    rw [hi] at hb
    cases hb
  simp only [Queue.step, hw] at hq
  cases hq
  intro b'
  have h1 : s.q.Wakeful (Bucket.NoConn cfg (Function.update s.bucket b v b')) s.Busy b' := by
    by_cases e : b' = b
    · subst e
      exact (h b').owner ho hw (fun _ hw' => hw')
    · rw [Function.update_of_ne e]
      exact h b'
  refine h1.finish hw ?_ (fun w' hw' => ?_)
  · rintro rfl
    rw [Function.update_self]
    exact ⟨hv, (h b').running w hw hne⟩
  · have e : w' ≠ w := by
      rintro rfl
      exact hw' (Function.update_self ..)
    refine ⟨?_, e⟩
    unfold State.Busy at hw'
    rw [State.setQ_task, State.setTask_task, Function.update_of_ne e] at hw'
    exact hw'

theorem State.Wakeful.emit (h : s.Wakeful cfg) (ha : Attached cfg s) (hn : Queue.Named cfg s.q)
    (ho : s.q.Owned) {t : Thread W T} {e : Effect} (hne : e ≠ .forever)
    (he : s.emit cfg t e = some s') : s'.Wakeful cfg := by
  unfold State.emit at he
  split at he
  · obtain ⟨q, hq, rfl⟩ := Option.map_eq_some_iff.mp he
    exact h.setQ ha hn ho hq (fun w => ⟨nofun, nofun⟩)
  · cases he; exact h
  · split at he
    · obtain ⟨q, hq, rfl⟩ := Option.map_eq_some_iff.mp he
      exact h.setQ ha hn ho hq (fun w => ⟨nofun, nofun⟩)
    · cases he; exact h
  · exact absurd rfl hne
  · cases he; exact h

theorem State.Wakeful.step (h : s.Wakeful cfg) (ha : Attached cfg s) (hn : Queue.Named cfg s.q)
    (ho : s.q.Owned) (hc : ∀ w b, (s.task w).bucket = some b →
      Counted cfg (s.bucket b) (s.task w) (s.accept.gate b)) {a : Act W T}
    (hs : s.step cfg a = some s') : s'.Wakeful cfg := by
  cases a with
  | incoming fd =>
    simp only [State.step] at hs
    split at hs
    · cases hs; exact h
    · cases hs
  | accept busy =>
    simp only [State.step] at hs
    split at hs
    · obtain ⟨b, v, p, e, hb, has, he⟩ := State.acceptStep_eq hs
      have h1 : ((s.setBucket b v).setAccept p).Wakeful cfg := by
        intro b'
        show s.q.Wakeful (Bucket.NoConn cfg (Function.update s.bucket b v b')) _ b'
        have hconn : (Function.update s.bucket b v b').connections = (s.bucket b').connections := by
          by_cases e' : b' = b
          · subst e'; rw [Function.update_self]; exact has.connections_eq
          · rw [Function.update_of_ne e']
        unfold Bucket.NoConn
        rw [hconn]
        exact h b'
      exact h1.emit (ha.congr rfl rfl) hn ho has.ne_forever he
    · cases hs
  | wake t q =>
    simp only [State.step] at hs
    split at hs
    · obtain ⟨q, hq, rfl⟩ := Option.map_eq_some_iff.mp hs
      exact h.setQ ha hn ho hq (fun w => ⟨(fun e => by cases e), (fun e => by cases e)⟩)
    · cases hs
  | call t waiter =>
    obtain ⟨q, hq, rfl⟩ := Option.map_eq_some_iff.mp hs
    exact h.setQ ha hn ho hq (fun w => ⟨(fun e => by cases e), (fun e => by cases e)⟩)
  | spurious w =>
    obtain ⟨q, hq, rfl⟩ := Option.map_eq_some_iff.mp hs
    exact h.setQ ha hn ho hq (fun w => ⟨(fun e => by cases e), (fun e => by cases e)⟩)
  | work w =>
    obtain ⟨q, hq, rfl⟩ := Option.map_eq_some_iff.mp hs
    intro b
    refine (h b).step hn ho (.of_step hq)
      (fun w' hw' => Queue.running_of_step hq hw' (fun e => by cases e) (fun e => by cases e)) (fun w' hw' => ?_)
      (fun _ hw' => ha.running_of_busy hw')
    by_cases e : w' = w
    · subst e
      unfold State.Busy at hw'
      rw [State.setTask_task, Function.update_self] at hw'
      unfold State.afterWork at hw'
      split at hw'
      · next b1 i hp => exact .inr ⟨b1, i, hp⟩
      · exact .inl hw'
    · unfold State.Busy at hw'
      rw [State.setTask_task, Function.update_of_ne e] at hw'
      exact .inl hw'
  | load w =>
    simp only [State.step] at hs
    split at hs
    · next hi =>
      obtain ⟨q, hq, rfl⟩ := Option.map_eq_some_iff.mp hs
      simp only [Queue.step] at hq
      split at hq
      · exact fun b => (h b).load hq (fun hw => hw hi)
      · cases hq
    · cases hs
  | task w a =>
    simp only [State.step] at hs
    split at hs
    · obtain ⟨b, v, t, e, hb, hts, he⟩ := State.taskStep_eq hs
      by_cases hf : e = .forever
      · subst hf
        have hv : v.NoConn cfg := by
          intro i hi
          rw [hts.connections_of_forever, ((hc w b hb).vacant_of_wipes hts rfl).2.2 i hi]
          decide
        obtain ⟨q, hq, rfl⟩ := Option.map_eq_some_iff.mp he
        rw [hts.idle_of_forever]
        exact h.finish ha ho hb hv hq
      · exact (h.setTask ha ho hb v t).emit (ha.setTask hb hts) hn ho hf he
    · cases hs

theorem wakeful_of_reach (h : (Executor.machine cfg).Reach (State.Admits fresh) s) :
    s.Wakeful cfg := by
  refine h.invariant (I := State.Wakeful cfg) (fun b => Queue.wakeful_init _ _ b) ?_
  intro s a s' hr hi _ he
  have hq := queue_reachable hr
  have ha := attached_of_reach hr
  exact hi.step ha (Queue.named_of_reachable hq) (Queue.owned_of_reachable hq)
    (fun w b hb => ((counted_of_reach hr).at_task ha hb).1) he

/-- offset `off` of bucket `b` is the job of a live task (see `dispatch_eq`) -/
def State.LiveJob (cfg : Cfg) (s : State W T) (b off : ℕ) : Prop :=
  (off = 0 ∧ (s.bucket b).future.val.isSome = true) ∨
    ∃ i < cfg.io.httpConnections, off = cfg.io.tcpStreams + i ∧
      ((s.bucket b).connections i).val = .occupied

/-- **No wake-up of a live task is lost.**  In every state reached without taking up a missing
future and without losing a worker: if the job bit of a live task is set in a slot, the slot is
marked, or a worker owns it, or a call of `initial_enqueue` on it has set a bit and has not marked
the slot yet. -/
theorem no_lost_wakeup (cfg : Cfg) (s : State W T)
    (h : (Executor.machine cfg).Reach (State.Admits fresh) s)
    (halive : ∀ w, s.q.alive w = true) (b off : ℕ) (hlive : s.LiveJob cfg b off)
    (hj : (s.q.slots b).hasJob off = true) :
    (s.q.slots b).isEnqueued = true ∨
    ((s.q.slots b).isInProgress = true ∧ ∃ w, s.q.Owns w b ∧ s.q.alive w = true) ∨
    s.q.InFlight b := by
  have ho := Queue.owned_of_reachable (queue_reachable h)
  by_cases hex : ∃ w, s.q.Owns w b
  · obtain ⟨w, hw⟩ := hex
    exact .inr (.inl ⟨(ho.inProgress b).mpr ⟨w, hw⟩, w, hw, halive w⟩)
  · have hcov : s.q.Covered b := by
      rcases (wakeful_of_reach h b).free (fun w hw => hex ⟨w, hw⟩) with h1 | ⟨hd, h1⟩
      · exact h1 (Queue.jobs_ne_zero hj)
      · rcases hlive with ⟨rfl, _⟩ | ⟨i, hi, _, hv⟩
        · exact h1 hj
        · exact absurd hv (hd i hi)
    exact hcov.imp id .inr

/-- the job bit of a new main future is set and the slot is not marked yet -/
theorem no_lost_wakeup_unmarked :
    ((Executor.machine cfgOne).final (arriving.take 8)).q.InFlight 0 := by
  rcases no_lost_wakeup cfgOne ((Executor.machine cfgOne).final (arriving.take 8))
    (Machine.Reach.final (by decide)) (by decide) 0 0
    (.inl ⟨rfl, by decide⟩) (by decide) with h | h | h
  · exact absurd h (by decide)
  · exact absurd h.1 (by decide)
  · exact h

end
end Nea
