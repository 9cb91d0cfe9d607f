import Nea.Executor.Bucket
import Nea.Queue.Jobs

/-!
# Wake routing

A waker carries the queue index of its task as a pointer.  `wake` turns the pointer into a slot and
a job bit; `run_bucket` turns the slot and the bit back into a queue index and classifies it.

* `Task`              the tasks a server can have: the main futures and the connections;
* `wake`              the pointer of a waker to the slot and the bit;
* `rebuildIndex`      the slot and the bit to the queue index of `run_bucket`;
* `Task.enqueue`, `Task.classify`   the two halves of the way, in closed form;
* `wake_faithful`     every task comes back as itself, and no two meet on the way.
-/

set_option linter.unusedSectionVars false

namespace Nea

/-- `wake` of `RAW_WAKER_V_TABLE`, up to the first atomic operation of the queue -/
def wake (cfg : Cfg) (ptr : UInt64) : Option Enqueue := initialEnqueue cfg (.fromPtr ptr)

/-- the queue index that `run_bucket` makes from its bucket and a dequeued offset -/
def rebuildIndex (r : IoResources) (b off : ℕ) : Option QueueIndex := do
  let base ← mulChecked (.ofNat b) (.ofNat r.perBucket)
  let index ← addChecked base (.ofNat off)
  some ⟨0, index⟩

/-- a task: the main future of a bucket, or an entry of the flat array of connections -/
inductive Task where
  | main (b : ℕ)
  | connection (c : ℕ)
deriving DecidableEq

namespace Task

/-- the task is one of bucket `b` -/
def OfBucket (r : IoResources) (b : ℕ) : Task → Prop
  | .main b' => b' = b
  | .connection c => c ∈ Finset.Ico (r.httpStart b) (r.httpStart b + r.httpConnections)

/-- what the code puts into the waker of the task -/
def queueIndex (r : IoResources) (identifier : UInt32) : Task → Option QueueIndex
  | .main b => QueueIndex.fromBucketIndex r ⟨identifier, .ofNat b⟩
  | .connection c => QueueIndex.fromConnectionIndex r ⟨identifier, .ofNat c⟩

/-- the job bit of the task -/
def offset (r : IoResources) : Task → ℕ
  | .main _ => 0
  | .connection c => r.tcpStreams + c % r.httpConnections

/-- the classification names the task -/
def Matches : Task → IoIndex → Prop
  | .main b, .inputStream bucketIndex => bucketIndex.index.toNat = b
  | .connection c, .httpConnection connectionIndex => connectionIndex.index.toNat = c
  | _, _ => False

section
variable {r : IoResources} {b : ℕ} {t : Task}

theorem ofBucket_connection {c : ℕ} (h : (connection c).OfBucket r b) :
    ∃ i < r.httpConnections, c = r.httpStart b + i ∧ c % r.httpConnections = i := by
  obtain ⟨h1, h2⟩ := Finset.mem_Ico.mp h
  refine ⟨c - r.httpStart b, by omega, by omega, ?_⟩
  have hc : c = r.httpConnections * b + (c - r.httpStart b) := by
    rw [Nat.mul_comm]
    show c = r.httpStart b + _
    omega
  calc c % r.httpConnections
      = (r.httpConnections * b + (c - r.httpStart b)) % r.httpConnections := by rw [← hc]
    _ = c - r.httpStart b := by rw [Nat.mul_add_mod, Nat.mod_eq_of_lt (by omega)]

/-- A task lies in one bucket. -/
theorem OfBucket.unique {b' : ℕ} (h : t.OfBucket r b) (h' : t.OfBucket r b') : b = b' := by
  cases t with
  | main b1 => exact h.symm.trans h'
  | connection c =>
    obtain ⟨i, hi, hc, _⟩ := ofBucket_connection h
    obtain ⟨i', hi', hc', _⟩ := ofBucket_connection h'
    exact (IoResources.httpStart_inj hi hi' (hc.symm.trans hc')).1

theorem OfBucket.offset_lt (ht : 1 ≤ r.tcpStreams) (h : t.OfBucket r b) :
    t.offset r < r.perBucket := by
  have hsum : r.perBucket = r.tcpStreams + r.httpConnections := rfl
  cases t with
  | main b1 =>
    show 0 < _
    omega
  | connection c =>
    obtain ⟨i, hi, _, hm⟩ := ofBucket_connection h
    show r.tcpStreams + c % r.httpConnections < _
    omega

/-- The queue index of a task is the bit counted from the first index of its bucket. -/
theorem queueIndex_eq (hr : r.perBucket < 2^32) (identifier : UInt32) (h : t.OfBucket r b)
    (hlt : b * r.perBucket + t.offset r < 2^32) (hb : b < 2^32) :
    t.queueIndex r identifier = some ⟨identifier, .ofNat (b * r.perBucket + t.offset r)⟩ := by
  cases t with
  | main b1 =>
    have e : b1 = b := h
    subst e
    have hlt' : b1 * r.perBucket < 2^32 := by
      change b1 * r.perBucket + 0 < _ at hlt
      omega
    show QueueIndex.fromBucketIndex r _ = some ⟨identifier, .ofNat (b1 * r.perBucket + 0)⟩
    rw [QueueIndex.fromBucketIndex_eq_some hr, Nat.add_zero, toNat_ofNat hlt', toNat_ofNat hb]
    exact ⟨rfl, rfl⟩
  | connection c =>
    obtain ⟨i, hi, hc, hm⟩ := ofBucket_connection h
    have ho : (connection c).offset r = r.tcpStreams + i := by
      show r.tcpStreams + c % r.httpConnections = _
      rw [hm]
    rw [ho] at hlt ⊢
    show QueueIndex.fromConnectionIndex r ⟨identifier, .ofNat c⟩ = _
    rw [hc]
    exact QueueIndex.fromConnectionIndex_httpStart hr identifier hi hlt

end
end Task

/-! ## there and back -/

section
variable {cfg : Cfg} {b : ℕ} {t : Task}

/-- a bucket that the queue has and `to_bucket_index` accepts -/
def Cfg.Serves (cfg : Cfg) (b : ℕ) : Prop := b < 1000 ∧ b < cfg.bucketCount

/-- The index `b * per_bucket + i` comes apart again. -/
theorem div_mod_index {p b i : ℕ} (hi : i < p) : (b * p + i) / p = b ∧ (b * p + i) % p = i := by
  have hp : 0 < p := by omega
  rw [Nat.mul_comm b p]
  constructor
  · rw [Nat.mul_add_div hp, Nat.div_eq_of_lt hi, Nat.add_zero]
  · rw [Nat.mul_add_mod, Nat.mod_eq_of_lt hi]

theorem index_lt {p b i : ℕ} (hp : p ≤ 64) (hb : b < 1000) (hi : i < p) : b * p + i < 2^32 := by
  have h := Nat.mul_le_mul_left b hp
  omega

/-- **The way there**: the waker of a task leads to its bucket and its bit. -/
theorem Task.enqueue (ht : 1 ≤ cfg.io.tcpStreams) (hp : cfg.io.perBucket ≤ 64)
    (hb : cfg.Serves b) (h : t.OfBucket cfg.io b) (identifier : UInt32) :
    ∃ q, t.queueIndex cfg.io identifier = some q ∧
      wake cfg q.toPtr = some ⟨b, t.offset cfg.io, .setJob⟩ := by
  have ho := h.offset_lt ht
  have hlt := index_lt hp hb.1 ho
  obtain ⟨hdiv, hmod⟩ := div_mod_index (b := b) ho
  refine ⟨_, Task.queueIndex_eq cfg.perBucket_lt identifier h hlt (by have := hb.1; omega), ?_⟩
  unfold wake
  rw [QueueIndex.fromPtr_toPtr, initialEnqueue_eq_some, toNat_ofNat hlt, hdiv, hmod]
  exact ⟨by omega, rfl, rfl, rfl, hb.1, hb.2, by show t.offset cfg.io < 64; omega⟩

theorem rebuildIndex_eq (hr : cfg.io.perBucket < 2^32) {off : ℕ} (hb : b < 2^32)
    (hlt : b * cfg.io.perBucket + off < 2^32) :
    rebuildIndex cfg.io b off = some ⟨0, .ofNat (b * cfg.io.perBucket + off)⟩ := by
  have e1 : mulChecked (.ofNat b) (.ofNat cfg.io.perBucket)
      = some (.ofNat (b * cfg.io.perBucket)) := by
    rw [mulChecked_eq_some, toNat_ofNat hb, toNat_ofNat hr, toNat_ofNat (by omega)]
  have e2 : addChecked (.ofNat (b * cfg.io.perBucket)) (.ofNat off)
      = some (.ofNat (b * cfg.io.perBucket + off)) := by
    rw [addChecked_eq_some, toNat_ofNat hlt, toNat_ofNat (by omega), toNat_ofNat (by omega)]
  unfold rebuildIndex
  simp only [e1, e2, Option.bind_eq_bind, Option.bind_some]

/-- **The way back**: the bucket and the bit of a task are classified as the task. -/
theorem Task.classify (ht : 1 ≤ cfg.io.tcpStreams) (hp : cfg.io.perBucket ≤ 64)
    (hb : cfg.Serves b) (h : t.OfBucket cfg.io b) :
    ∃ q io, rebuildIndex cfg.io b (t.offset cfg.io) = some q ∧
      IoIndex.fromIndex cfg.io q = some io ∧ t.Matches io := by
  have hsum : cfg.io.perBucket = cfg.io.tcpStreams + cfg.io.httpConnections := rfl
  have hr := cfg.perBucket_lt
  have ho := h.offset_lt ht
  have hlt := index_lt hp hb.1 ho
  obtain ⟨hdiv, hmod⟩ := div_mod_index (b := b) ho
  have hq := rebuildIndex_eq hr (by have := hb.1; omega) hlt
  generalize hqe : (⟨0, .ofNat (b * cfg.io.perBucket + t.offset cfg.io)⟩ : QueueIndex) = q at hq
  have hidx : q.index.toNat = b * cfg.io.perBucket + t.offset cfg.io := by
    rw [← hqe, toNat_ofNat hlt]
  -- the index is known, so it has a classification, and the arm is that of the task
  have hoff : t.offset cfg.io = 0 ∨ cfg.io.tcpStreams ≤ t.offset cfg.io := by
    cases t with
    | main b1 => exact .inl rfl
    | connection c => exact .inr (Nat.le_add_right _ _)
  have hne : IoIndex.fromIndex cfg.io q ≠ none := by
    refine fromIndex_ne_none hr (by omega) ?_ ?_
    · rw [hidx, hdiv]
      exact hb.1
    · rw [hidx, hmod]
      exact hoff
  obtain ⟨io, hio⟩ := Option.ne_none_iff_exists'.mp hne
  refine ⟨q, io, hq, hio, ?_⟩
  cases io with
  | inputStream bi =>
    obtain ⟨h1, h2⟩ := fromIndex_inputStream hr hio
    rw [hidx, hdiv] at h1
    rw [hidx, hmod] at h2
    cases t with
    | main b1 => exact h1.trans (show b1 = b from h).symm
    | connection c =>
      change cfg.io.tcpStreams + _ = 0 at h2
      omega
  | httpConnection ci =>
    obtain ⟨i, hi, h1, h2⟩ := fromIndex_httpConnection hr hio
    rw [hidx, hmod] at h1
    rw [hidx, hdiv] at h2
    cases t with
    | main b1 =>
      change 0 = _ at h1
      omega
    | connection c =>
      obtain ⟨i', hi', hc, hm⟩ := Task.ofBucket_connection h
      change cfg.io.tcpStreams + _ = _ at h1
      show ci.index.toNat = c
      rw [h2, hc]
      omega

/-- `run_bucket` acts on the classified index. -/
theorem dispatch_eq_classify {off : ℕ} : dispatch cfg b off = (rebuildIndex cfg.io b off).bind
    (fun q => (IoIndex.fromIndex cfg.io q).map (fun io => match io with
      | .inputStream bucketIndex => .takeMain bucketIndex.index.toNat
      | .httpConnection c => .takeConn b (c.index.toNat - cfg.io.httpStart b))) := by
  unfold dispatch rebuildIndex
  simp only [Option.bind_eq_bind, Option.bind_assoc, Option.bind_some]
  refine congrArg _ (funext fun base => congrArg _ (funext fun index => ?_))
  cases IoIndex.fromIndex cfg.io ⟨0, index⟩ with
  | none => rfl
  | some io => cases io <;> rfl

end

/-! ## over a run -/

section
variable {W T : Type} [DecidableEq W] [DecidableEq T] [Fintype W] (cfg : Cfg)

/-- slot `b` and bit `off` belong to a task -/
def IsTask (b off : ℕ) : Prop :=
  ∃ t : Task, cfg.Serves b ∧ t.OfBucket cfg.io b ∧ t.offset cfg.io = off

end

end Nea
