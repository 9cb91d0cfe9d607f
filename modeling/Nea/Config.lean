import Nea.Executor.Routing
import Mathlib.Data.Finset.Card

/-!
# Which configurations can be scheduled (`nea/src/config.rs`)

`Config::load` checks nothing, while a bucket has one word of 64 job bits, `to_bucket_index` asserts
a bound of its own, and the casts to `u32` cut off what does not fit.  The products of `usize` that
`get_or_init` computes do not overflow in a server that has started, so `usize` is `ℕ` here.

* `Config.load`       what the server runs with;
* `Config.enqueueBit` `initial_enqueue` and `helper` for any configuration, with all their panics;
* `Config.Schedulable`  every task can be enqueued, and the tasks of a bucket have bits of their own;
* `Config.Fits`       the configurations of which this is true (`schedulable_iff_fits`).
-/

set_option linter.unusedSectionVars false

namespace Nea

/-- `IoResources::default` -/
def IoResources.default : IoResources := ⟨1, 0⟩

/-- the part of the configuration that the queue depends on -/
structure Config where
  bucketCount : ℕ
  ioResources : IoResources
deriving DecidableEq

namespace Config

/-- `Config::default` -/
def default : Config := ⟨64, .default⟩

/-- `Config::load`: the file that `load_config` finds, or the default -/
def load (file : Option Config) : Config := file.getD default

/-- the computations of `helper`: the mask is shifted by the offset, and the queue index is
computed once more for the log -/
def helper (r : IoResources) (bucketIndex : BucketIndex) (bucketOffset : ℕ) : Option ℕ :=
  if bucketOffset < 64 then do
    let base ← mulChecked bucketIndex.index (.ofNat r.perBucket)
    let _ ← addChecked base (.ofNat bucketOffset)
    some bucketOffset
  else none

/-- `initial_enqueue`: the slot and the job bit, `none` if it panics -/
def enqueueBit (c : Config) (q : QueueIndex) : Option (ℕ × ℕ) := do
  let bucketIndex ← q.toBucketIndex c.ioResources
  if bucketIndex.index.toNat < c.bucketCount then
    let bucketIndex ← q.toBucketIndex c.ioResources
    if c.ioResources.perBucket = 0 then none
    else
      let offset ← helper c.ioResources bucketIndex (q.index.toNat % c.ioResources.perBucket)
      some (bucketIndex.index.toNat, offset)
  else none

/-- a waker of the task is made and enqueued -/
def enqueueTask (c : Config) (identifier : UInt32) (t : Task) : Option (ℕ × ℕ) :=
  (t.queueIndex c.ioResources identifier).bind c.enqueueBit

/-- every task of every bucket is enqueued without a panic, on a bit that no other task of the
bucket has and that `dequeue` gives back -/
def Schedulable (c : Config) : Prop :=
  ∀ b < c.bucketCount, ∀ t : Task, t.OfBucket c.ioResources b → ∀ identifier,
    ∃ x, c.enqueueTask identifier t = some x ∧
      (∀ t' : Task, t'.OfBucket c.ioResources b → ∀ identifier',
        c.enqueueTask identifier' t' = some x → t' = t) ∧
      ∀ slot : QueueSlot, slot.jobs = 0 → trailingZeros (slot.setJob x.2).2.jobs = x.2

/-- the configurations that can be scheduled.  With fewer than `2^32` queue slots in a bucket: up to
1000 buckets, and either no connections at all or at most 64 slots, the first of them a stream.
Beyond that the slots that are left by the casts have to fit in 64 bits for all buckets together -/
def Fits (c : Config) : Prop :=
  c.bucketCount = 0 ∨ c.bucketCount ≤ 1000 ∧ c.ioResources.perBucket % 2^32 ≠ 0 ∧
    if c.ioResources.perBucket < 2^32 then
      c.ioResources.httpConnections = 0 ∧ (c.bucketCount - 1) * c.ioResources.perBucket < 2^32 ∨
      0 < c.ioResources.httpConnections ∧ 1 ≤ c.ioResources.tcpStreams ∧
        c.ioResources.perBucket ≤ 64
    else
      c.ioResources.httpConnections = 0 ∧
        (c.bucketCount - 1) * (c.ioResources.perBucket % 2^32) < 64 ∨
      0 < c.ioResources.httpConnections ∧ 1 ≤ c.ioResources.tcpStreams % 2^32 ∧
        c.ioResources.tcpStreams % 2^32 + c.ioResources.httpConnections
          = c.ioResources.perBucket % 2^32 ∧
        c.bucketCount * (c.ioResources.perBucket % 2^32) ≤ 64

instance (c : Config) : Decidable c.Fits := by
  unfold Fits
  infer_instance

/-- what the conversions compute for the queue index of a task, with the casts to `u32` -/
def packed (r : IoResources) : Task → ℕ
  | .main b => b % 2^32 * (r.perBucket % 2^32)
  | .connection k => k % 2^32 / (r.httpConnections % 2^32) * (r.perBucket % 2^32)
      + (r.tcpStreams % 2^32 + k % 2^32 % (r.httpConnections % 2^32))

section
variable {c : Config} {q : QueueIndex}

/-! ## one enqueue -/

/-- **One enqueue**: what it takes, and where the bit is. -/
theorem enqueueBit_eq_some {b off : ℕ} : c.enqueueBit q = some (b, off) ↔
    c.ioResources.perBucket % 2^32 ≠ 0 ∧ b = q.index.toNat / (c.ioResources.perBucket % 2^32) ∧
      b < 1000 ∧ b < c.bucketCount ∧ off = q.index.toNat % c.ioResources.perBucket ∧ off < 64 := by
  have hq := q.index.toNat_lt
  -- the index that `helper` computes fits in `u32` when the offset is below 64
  have hfit : q.index.toNat % c.ioResources.perBucket < 64 →
      q.index.toNat / (c.ioResources.perBucket % 2^32) * (c.ioResources.perBucket % 2^32)
        + q.index.toNat % c.ioResources.perBucket < 2^32 := by
    intro hoff
    have hle := Nat.div_mul_le_self q.index.toNat (c.ioResources.perBucket % 2^32)
    by_cases hp : c.ioResources.perBucket < 2^32
    · rw [Nat.mod_eq_of_lt hp] at hle ⊢
      have := Nat.div_add_mod q.index.toNat c.ioResources.perBucket
      rw [Nat.mul_comm]
      omega
    · rw [Nat.mod_eq_of_lt (show q.index.toNat < c.ioResources.perBucket by omega)] at hoff ⊢
      omega
  unfold enqueueBit
  simp only [Option.bind_eq_bind, Option.bind_eq_some_iff, QueueIndex.toBucketIndex_eq_some_mod]
  constructor
  · intro ⟨bi, ⟨h0, h1, h2, h3⟩, h⟩
    split at h
    · next hlt =>
      simp only [Option.bind_eq_some_iff, QueueIndex.toBucketIndex_eq_some_mod] at h
      obtain ⟨bi', ⟨_, _, h2', h3'⟩, h⟩ := h
      split at h
      · cases h
      · obtain ⟨o, ho, h⟩ := Option.bind_eq_some_iff.mp h
        cases h
        unfold helper at ho
        split at ho
        · next hoff =>
          simp only [Option.bind_eq_bind, Option.bind_eq_some_iff] at ho
          obtain ⟨_, _, _, _, ho⟩ := ho
          cases ho
          exact ⟨h0, h2', h3', by rw [h2', ← h2]; exact hlt, rfl, hoff⟩
        · cases ho
    · cases h
  · intro ⟨h0, h1, h2, h3, h4, h5⟩
    have hb : (UInt32.ofNat b).toNat = b := toNat_ofNat (by omega)
    have hbi : ∃ bi : BucketIndex, bi = ⟨q.identifier, .ofNat b⟩ := ⟨_, rfl⟩
    obtain ⟨bi, hbi⟩ := hbi
    have hidx : bi.index.toNat = b := by rw [hbi, hb]
    have hfit' := hfit (h4 ▸ h5)
    rw [← h1, ← h4] at hfit'
    have hspec : c.ioResources.perBucket % 2^32 ≠ 0 ∧ bi.identifier = q.identifier ∧
        bi.index.toNat = q.index.toNat / (c.ioResources.perBucket % 2^32) ∧
        bi.index.toNat < 1000 := ⟨h0, by rw [hbi], hidx.trans h1, by rw [hidx]; exact h2⟩
    refine ⟨bi, hspec, ?_⟩
    rw [if_pos (by rw [hidx]; exact h3)]
    simp only [Option.bind_eq_some_iff, QueueIndex.toBucketIndex_eq_some_mod]
    refine ⟨bi, hspec, ?_⟩
    have hp0 : c.ioResources.perBucket ≠ 0 := by
      intro e
      rw [e] at h0
      exact h0 rfl
    rw [if_neg hp0, ← h4, hidx]
    unfold helper
    have e1 : mulChecked bi.index (.ofNat c.ioResources.perBucket)
        = some (.ofNat (b * (c.ioResources.perBucket % 2^32))) := by
      rw [mulChecked_eq_some, hidx, UInt32.toNat_ofNat', UInt32.toNat_ofNat']
      exact Nat.mod_eq_of_lt (by omega)
    have e2 : addChecked (.ofNat (b * (c.ioResources.perBucket % 2^32))) (.ofNat off)
        = some (.ofNat (b * (c.ioResources.perBucket % 2^32) + off)) := by
      rw [addChecked_eq_some, toNat_ofNat hfit', toNat_ofNat (by omega), toNat_ofNat (by omega)]
    rw [if_pos h5]
    simp only [e1, e2, Option.bind_eq_bind, Option.bind_some]

/-- A server with resources below `2^32` enqueues as the queue does. -/
theorem enqueueBit_eq_initialEnqueue (cfg : Cfg) (q : QueueIndex) :
    enqueueBit ⟨cfg.bucketCount, cfg.io⟩ q
      = (initialEnqueue cfg q).map (fun e => (e.bucket, e.offset)) := by
  apply Option.ext
  intro ⟨b, off⟩
  rw [enqueueBit_eq_some, Option.map_eq_some_iff, Nat.mod_eq_of_lt cfg.perBucket_lt]
  constructor
  · intro ⟨h0, h1, h2, h3, h4, h5⟩
    exact ⟨⟨b, off, .setJob⟩, initialEnqueue_eq_some.mpr ⟨h0, rfl, h1, h4, h2, h3, h5⟩, rfl⟩
  · intro ⟨e, he, h⟩
    obtain ⟨h0, h1, h2, h3, h4, h5, h6⟩ := initialEnqueue_eq_some.mp he
    cases h
    exact ⟨h0, h2, h4, h5, h3, h6⟩

theorem queueIndex_eq_some {r : IoResources} {identifier : UInt32} {t : Task} :
    t.queueIndex r identifier = some q ↔
      (∀ k, t = .connection k → r.httpConnections % 2^32 ≠ 0) ∧ q.identifier = identifier ∧
        q.index.toNat = packed r t := by
  cases t with
  | main b =>
    show QueueIndex.fromBucketIndex r _ = some q ↔ _
    rw [QueueIndex.fromBucketIndex_eq_some_mod, UInt32.toNat_ofNat']
    exact ⟨fun ⟨h1, h2⟩ => ⟨(fun k e => by cases e), h1, h2⟩, fun ⟨_, h1, h2⟩ => ⟨h1, h2⟩⟩
  | connection k =>
    show QueueIndex.fromConnectionIndex r _ = some q ↔ _
    rw [QueueIndex.fromConnectionIndex_eq_some_mod, UInt32.toNat_ofNat']
    exact ⟨fun ⟨h0, h1, h2⟩ => ⟨fun _ _ => h0, h1, h2⟩, fun ⟨h0, h1, h2⟩ => ⟨h0 k rfl, h1, h2⟩⟩

/-- **The enqueue of a task.** -/
theorem enqueueTask_eq_some {identifier : UInt32} {t : Task} {b off : ℕ} :
    c.enqueueTask identifier t = some (b, off) ↔
      (∀ k, t = .connection k → c.ioResources.httpConnections % 2^32 ≠ 0) ∧
      packed c.ioResources t < 2^32 ∧ c.ioResources.perBucket % 2^32 ≠ 0 ∧
      b = packed c.ioResources t / (c.ioResources.perBucket % 2^32) ∧
      b < 1000 ∧ b < c.bucketCount ∧
      off = packed c.ioResources t % c.ioResources.perBucket ∧ off < 64 := by
  unfold enqueueTask
  rw [Option.bind_eq_some_iff]
  constructor
  · intro ⟨q, hq, h⟩
    obtain ⟨h0, _, h1⟩ := queueIndex_eq_some.mp hq
    have h2 := enqueueBit_eq_some.mp h
    rw [h1] at h2
    exact ⟨h0, h1 ▸ q.index.toNat_lt, h2⟩
  · intro ⟨h0, h1, h2⟩
    have hidx : (UInt32.ofNat (packed c.ioResources t)).toNat = packed c.ioResources t :=
      toNat_ofNat h1
    refine ⟨⟨identifier, .ofNat (packed c.ioResources t)⟩, ?_, ?_⟩
    · rw [queueIndex_eq_some]
      exact ⟨h0, rfl, hidx⟩
    · rw [enqueueBit_eq_some, hidx]
      exact h2

/-- `dequeue` on a slot with one job gives it back. -/
theorem trailingZeros_setJob {slot : QueueSlot} (h0 : slot.jobs = 0) {off : ℕ} (ho : off < 64) :
    trailingZeros (slot.setJob off).2.jobs = off := by
  have hbit : ∀ j, (slot.setJob off).2.jobs.getLsbD j = decide (j = off) := by
    intro j
    have h1 := QueueSlot.hasJob_setJob slot ho j
    unfold QueueSlot.hasJob at h1
    rw [h1, h0]
    simp
  have hne : (slot.setJob off).2.jobs ≠ 0 := by
    intro e
    have h1 := hbit off
    rw [e] at h1
    simp at h1
  have h1 := (trailingZeros_spec hne).1
  rw [hbit] at h1
  exact of_decide_eq_true h1

/-! ## what scheduling takes -/

theorem ofBucket_first {r : IoResources} {i : ℕ} (hi : i < r.httpConnections) :
    (Task.connection i).OfBucket r 0 := by
  have h0 : r.httpStart 0 = 0 := Nat.zero_mul _
  show i ∈ Finset.Ico _ _
  rw [h0, Nat.zero_add]
  exact Finset.mem_Ico.mpr ⟨Nat.zero_le i, hi⟩

/-- What the enqueue of a task needs. -/
theorem Schedulable.task (h : c.Schedulable) {b : ℕ} (hb : b < c.bucketCount) {t : Task}
    (ht : t.OfBucket c.ioResources b) :
    packed c.ioResources t < 2^32 ∧ c.ioResources.perBucket % 2^32 ≠ 0 ∧
      packed c.ioResources t / (c.ioResources.perBucket % 2^32) < 1000 ∧
      packed c.ioResources t % c.ioResources.perBucket < 64 ∧
      (∀ k, t = .connection k → c.ioResources.httpConnections % 2^32 ≠ 0) ∧
      ∀ t' : Task, t'.OfBucket c.ioResources b →
        packed c.ioResources t' = packed c.ioResources t →
        (∀ k, t' = .connection k → c.ioResources.httpConnections % 2^32 ≠ 0) → t' = t := by
  obtain ⟨⟨b1, off⟩, he, hsep, _⟩ := h b hb t ht 0
  obtain ⟨h0, h1, h2, h3, h4, h5, h6, h7⟩ := enqueueTask_eq_some.mp he
  refine ⟨h1, h2, h3 ▸ h4, h6 ▸ h7, h0, fun t' ht' hp hk => ?_⟩
  refine hsep t' ht' 0 (enqueueTask_eq_some.mpr ⟨hk, ?_⟩)
  rw [hp]
  exact ⟨h1, h2, h3, h4, h5, h6, h7⟩

theorem packed_main {r : IoResources} {b : ℕ} (hb : b < 2^32) :
    packed r (.main b) = b * (r.perBucket % 2^32) := by
  show b % 2^32 * _ = _
  rw [Nat.mod_eq_of_lt hb]

/-- A connection of a bucket with few connections, in a server with few buckets. -/
theorem packed_connection {r : IoResources} {b i : ℕ} (hi : i < r.httpConnections)
    (hh : r.httpConnections < 2^32) (hlt : b * r.httpConnections + i < 2^32) :
    packed r (.connection (b * r.httpConnections + i))
      = b * (r.perBucket % 2^32) + (r.tcpStreams % 2^32 + i) := by
  obtain ⟨hdiv, hmod⟩ := div_mod_index (b := b) hi
  show (b * r.httpConnections + i) % 2^32 / _ * _ + (_ + (b * r.httpConnections + i) % 2^32 % _) = _
  rw [Nat.mod_eq_of_lt hlt, Nat.mod_eq_of_lt hh, hdiv, hmod]

/-- **No more than 64 connections**: those of the first bucket need a bit each. -/
theorem Schedulable.httpConnections_le (h : c.Schedulable) (hn : 0 < c.bucketCount)
    (hp : ¬ c.ioResources.perBucket < 2^32) : c.ioResources.httpConnections ≤ 64 := by
  by_contra hlt
  -- the bit of a connection is its index, and there are 65 of them
  have hbit : ∀ i, i < c.ioResources.httpConnections →
      packed c.ioResources (.connection i) < 64 := by
    intro i hi
    obtain ⟨h1, _, _, h2, _⟩ := h.task hn (ofBucket_first hi)
    rw [Nat.mod_eq_of_lt (by omega)] at h2
    exact h2
  have hmaps : ∀ i ∈ Finset.range 65, packed c.ioResources (.connection i) ∈ Finset.range 64 :=
    fun i hi => Finset.mem_range.mpr (hbit i (by have := Finset.mem_range.mp hi; omega))
  obtain ⟨i, hi, j, hj, hne, he⟩ :=
    Finset.exists_ne_map_eq_of_card_lt_of_maps_to (by decide) hmaps
  rw [Finset.mem_range] at hi hj
  obtain ⟨_, _, _, _, hk, hsep⟩ := h.task hn (ofBucket_first (i := j) (by omega))
  have e := hsep (.connection i) (ofBucket_first (by omega)) he (fun _ _ => hk j rfl)
  cases e
  exact hne rfl

/-- The main future of a bucket has the first packed index of the bucket. -/
theorem Schedulable.main (h : c.Schedulable) {b : ℕ} (hb : b < c.bucketCount) (hb32 : b < 2^32) :
    b * (c.ioResources.perBucket % 2^32) < 2^32 ∧ b < 1000 ∧
      b * (c.ioResources.perBucket % 2^32) % c.ioResources.perBucket < 64 := by
  obtain ⟨h1, hp0, h2, h3, _⟩ := h.task (t := .main b) hb rfl
  rw [packed_main hb32] at h1 h2 h3
  rw [Nat.mul_div_cancel _ (Nat.pos_of_ne_zero hp0)] at h2
  exact ⟨h1, h2, h3⟩

theorem Schedulable.bucketCount_le (h : c.Schedulable) : c.bucketCount ≤ 1000 := by
  by_contra hgt
  have := (h.main (b := 1000) (by omega) (by omega)).2.1
  omega

/-- The connections of the first bucket stand behind its streams. -/
theorem packed_first {r : IoResources} {i : ℕ} (hi : i < r.httpConnections)
    (hh : r.httpConnections < 2^32) :
    packed r (.connection i) = r.tcpStreams % 2^32 + i := by
  have := packed_connection (b := 0) hi hh (by omega)
  rw [Nat.zero_mul, Nat.zero_add, Nat.zero_mul, Nat.zero_add] at this
  exact this

/-- The first bit of a bucket is taken by the main future. -/
theorem Schedulable.tcpStreams_pos (h : c.Schedulable) (hn : 0 < c.bucketCount)
    (hh : 0 < c.ioResources.httpConnections) (hh32 : c.ioResources.httpConnections < 2^32) :
    1 ≤ c.ioResources.tcpStreams % 2^32 := by
  by_contra h0
  obtain ⟨_, _, _, _, _, hsep⟩ := h.task (t := .main 0) hn rfl
  have he : packed c.ioResources (.connection 0) = packed c.ioResources (.main 0) := by
    rw [packed_first hh hh32, packed_main (by omega)]
    omega
  have e := hsep (.connection 0) (ofBucket_first hh) he (fun _ _ => by omega)
  cases e

/-- The slots of a bucket fit in 32 bits: they have to fit in 64 flags. -/
theorem Schedulable.fits_uncut (h : c.Schedulable) (hn : 0 < c.bucketCount)
    (hp : c.ioResources.perBucket < 2^32) :
    c.ioResources.httpConnections = 0 ∧ (c.bucketCount - 1) * c.ioResources.perBucket < 2^32 ∨
      0 < c.ioResources.httpConnections ∧ 1 ≤ c.ioResources.tcpStreams ∧
        c.ioResources.perBucket ≤ 64 := by
  have hsum : c.ioResources.perBucket = c.ioResources.tcpStreams + c.ioResources.httpConnections :=
    rfl
  have hle := h.bucketCount_le
  by_cases hh : c.ioResources.httpConnections = 0
  · refine .inl ⟨hh, ?_⟩
    have hlast := (h.main (b := c.bucketCount - 1) (by omega) (by omega)).1
    rw [Nat.mod_eq_of_lt hp] at hlast
    exact hlast
  · have h1 := h.tcpStreams_pos hn (by omega) (by omega)
    -- the last connection of the first bucket
    have h2 := (h.task hn (ofBucket_first
      (i := c.ioResources.httpConnections - 1) (by omega))).2.2.2.1
    rw [packed_first (by omega) (by omega), Nat.mod_eq_of_lt (by omega),
      Nat.mod_eq_of_lt (by omega)] at h2
    refine .inr ⟨by omega, ?_, by omega⟩
    rw [Nat.mod_eq_of_lt (by omega)] at h1
    exact h1

/-- The casts cut something off: what they leave has to fit in 64 flags for all buckets together. -/
theorem Schedulable.fits_cut (h : c.Schedulable) (hn : 0 < c.bucketCount)
    (hp : ¬ c.ioResources.perBucket < 2^32) :
    c.ioResources.httpConnections = 0 ∧
        (c.bucketCount - 1) * (c.ioResources.perBucket % 2^32) < 64 ∨
      0 < c.ioResources.httpConnections ∧ 1 ≤ c.ioResources.tcpStreams % 2^32 ∧
        c.ioResources.tcpStreams % 2^32 + c.ioResources.httpConnections
          = c.ioResources.perBucket % 2^32 ∧
        c.bucketCount * (c.ioResources.perBucket % 2^32) ≤ 64 := by
  have hsum : c.ioResources.perBucket = c.ioResources.tcpStreams + c.ioResources.httpConnections :=
    rfl
  have hn1000 := h.bucketCount_le
  by_cases hh : c.ioResources.httpConnections = 0
  · refine .inl ⟨hh, ?_⟩
    obtain ⟨hlast, _, h3⟩ := h.main (b := c.bucketCount - 1) (by omega) (by omega)
    rw [Nat.mod_eq_of_lt (by omega)] at h3
    exact h3
  · have hle := h.httpConnections_le hn hp
    have h1 := h.tcpStreams_pos hn (by omega) (by omega)
    have hmod : c.ioResources.perBucket % 2^32 =
        (c.ioResources.tcpStreams % 2^32 + c.ioResources.httpConnections) % 2^32 := by
      rw [hsum]
      omega
    -- the first connection of the first bucket, and the last one of the last bucket
    have hz := (h.task hn (ofBucket_first (i := 0) (by omega))).2.2.2.1
    rw [packed_first (by omega) (by omega), Nat.mod_eq_of_lt (by omega)] at hz
    have hcarry : c.ioResources.tcpStreams % 2^32 + c.ioResources.httpConnections
        = c.ioResources.perBucket % 2^32 := by omega
    have hmul : (c.bucketCount - 1) * c.ioResources.httpConnections ≤ 999 * 64 :=
      Nat.mul_le_mul (by omega) hle
    have ht : (Task.connection ((c.bucketCount - 1) * c.ioResources.httpConnections
        + (c.ioResources.httpConnections - 1))).OfBucket c.ioResources (c.bucketCount - 1) := by
      show _ ∈ Finset.Ico _ _
      rw [Finset.mem_Ico, IoResources.httpStart]
      omega
    obtain ⟨h4, _, _, h5, _⟩ := h.task (show c.bucketCount - 1 < c.bucketCount by omega) ht
    rw [packed_connection (by omega) (by omega) (by omega)] at h4 h5
    rw [Nat.mod_eq_of_lt (by omega)] at h5
    refine .inr ⟨by omega, h1, hcarry, ?_⟩
    have hsplit : c.bucketCount * (c.ioResources.perBucket % 2^32)
        = (c.bucketCount - 1) * (c.ioResources.perBucket % 2^32)
          + c.ioResources.perBucket % 2^32 := by
      have := Nat.sub_one_add_one (Nat.pos_iff_ne_zero.mp hn)
      conv_lhs => rw [← this, Nat.add_mul, Nat.one_mul]
    omega

theorem fits_of_schedulable (h : c.Schedulable) : c.Fits := by
  by_cases hn : c.bucketCount = 0
  · exact .inl hn
  have hn0 : 0 < c.bucketCount := by omega
  have hp0 : c.ioResources.perBucket % 2^32 ≠ 0 := (h.task (t := .main 0) hn0 rfl).2.1
  refine .inr ⟨h.bucketCount_le, hp0, ?_⟩
  split
  · next hp => exact h.fits_uncut hn0 hp
  · next hp => exact h.fits_cut hn0 hp

/-! ## what is enough -/

/-- the place of a task in its bucket, with the casts to `u32` -/
def place (r : IoResources) : Task → ℕ
  | .main _ => 0
  | .connection k => r.tcpStreams % 2^32 + k % r.httpConnections

/-- The bit of a task, from the bounds on its place. -/
theorem packed_mod {r : IoResources} {b : ℕ} {t : Task}
    (hpk : packed r t = b * (r.perBucket % 2^32) + place r t) (hpl : place r t < r.perBucket % 2^32)
    (hbit : if r.perBucket < 2^32 then place r t < 64 else packed r t < 64) :
    packed r t % r.perBucket < 64 ∧
      packed r t % r.perBucket = if r.perBucket < 2^32 then place r t else packed r t := by
  by_cases hp : r.perBucket < 2^32
  · rw [if_pos hp] at hbit ⊢
    rw [Nat.mod_eq_of_lt hp] at hpk hpl
    rw [hpk, (div_mod_index hpl).2]
    exact ⟨hbit, rfl⟩
  · rw [if_neg hp] at hbit ⊢
    rw [Nat.mod_eq_of_lt (show packed r t < r.perBucket by omega)]
    exact ⟨hbit, rfl⟩

/-- The packed index of a main future is that of its bucket. -/
theorem Fits.main (h : c.Fits) {b : ℕ} (hb : b < c.bucketCount) :
    b * (c.ioResources.perBucket % 2^32) < 2^32 ∧
      (¬ c.ioResources.perBucket < 2^32 → b * (c.ioResources.perBucket % 2^32) < 64) := by
  have hsum : c.ioResources.perBucket = c.ioResources.tcpStreams + c.ioResources.httpConnections :=
    rfl
  obtain ⟨hn, _, h⟩ := h.resolve_left (by omega)
  have hb1 : b * (c.ioResources.perBucket % 2^32)
      ≤ (c.bucketCount - 1) * (c.ioResources.perBucket % 2^32) :=
    Nat.mul_le_mul_right _ (by omega)
  have hb2 : (b + 1) * (c.ioResources.perBucket % 2^32)
      ≤ c.bucketCount * (c.ioResources.perBucket % 2^32) := Nat.mul_le_mul_right _ hb
  rw [Nat.add_mul, Nat.one_mul] at hb2
  have hb3 : b * (c.ioResources.perBucket % 2^32) ≤ 999 * (c.ioResources.perBucket % 2^32) :=
    Nat.mul_le_mul_right _ (by omega)
  split at h
  · next hp =>
    rw [Nat.mod_eq_of_lt hp] at hb1 hb3 ⊢
    refine ⟨?_, fun hn => absurd hp hn⟩
    rcases h with ⟨_, h⟩ | ⟨_, _, h⟩ <;> omega
  · rcases h with ⟨_, h⟩ | ⟨_, _, _, h⟩ <;> omega

/-- Where there are connections there are few of them, and the cast of the streams loses nothing
that matters. -/
theorem Fits.few (h : c.Fits) {b : ℕ} (hb : b < c.bucketCount)
    (hh : 0 < c.ioResources.httpConnections) :
    c.ioResources.httpConnections ≤ 64 ∧
      c.ioResources.tcpStreams % 2^32 + c.ioResources.httpConnections
        = c.ioResources.perBucket % 2^32 ∧
      b * (c.ioResources.perBucket % 2^32) + c.ioResources.perBucket % 2^32 ≤ 64000 ∧
      (c.ioResources.perBucket < 2^32 → c.ioResources.perBucket ≤ 64) ∧
      (¬ c.ioResources.perBucket < 2^32 →
        b * (c.ioResources.perBucket % 2^32) + c.ioResources.perBucket % 2^32 ≤ 64) := by
  have hsum : c.ioResources.perBucket = c.ioResources.tcpStreams + c.ioResources.httpConnections :=
    rfl
  obtain ⟨hn, _, h⟩ := h.resolve_left (by omega)
  have hb2 : (b + 1) * (c.ioResources.perBucket % 2^32)
      ≤ c.bucketCount * (c.ioResources.perBucket % 2^32) := Nat.mul_le_mul_right _ hb
  rw [Nat.add_mul, Nat.one_mul] at hb2
  have hb3 : b * (c.ioResources.perBucket % 2^32) ≤ 999 * (c.ioResources.perBucket % 2^32) :=
    Nat.mul_le_mul_right _ (by omega)
  split at h
  · next hp =>
    rcases h with ⟨h, _⟩ | ⟨_, _, h⟩
    · omega
    · rw [Nat.mod_eq_of_lt hp] at hb3 ⊢
      rw [Nat.mod_eq_of_lt (show c.ioResources.tcpStreams < 2^32 by omega)]
      exact ⟨by omega, by omega, by omega, fun _ => h, fun hn => absurd hp hn⟩
  · next hp =>
    rcases h with ⟨h, _⟩ | ⟨_, _, h1, h2⟩
    · omega
    · exact ⟨by omega, h1, by omega, fun hn => absurd hn hp, fun _ => by omega⟩

/-- **In a configuration that fits**, the packed index of a task is that of its bucket and its place,
and its bit is the place, or the packed index itself when the casts cut something off. -/
theorem Fits.bits (h : c.Fits) {b : ℕ} (hb : b < c.bucketCount) {t : Task}
    (ht : t.OfBucket c.ioResources b) :
    c.ioResources.perBucket % 2^32 ≠ 0 ∧ b < 1000 ∧
      (∀ k, t = .connection k → c.ioResources.httpConnections % 2^32 ≠ 0) ∧
      place c.ioResources t < c.ioResources.perBucket % 2^32 ∧
      packed c.ioResources t
        = b * (c.ioResources.perBucket % 2^32) + place c.ioResources t ∧
      packed c.ioResources t < 2^32 ∧ packed c.ioResources t % c.ioResources.perBucket < 64 ∧
      packed c.ioResources t % c.ioResources.perBucket
        = if c.ioResources.perBucket < 2^32 then place c.ioResources t
          else packed c.ioResources t := by
  obtain ⟨hn, hp0, _⟩ := h.resolve_left (by omega)
  cases t with
  | main b1 =>
    have e : b1 = b := ht
    subst e
    have hpk : packed c.ioResources (.main b1)
        = b1 * (c.ioResources.perBucket % 2^32) + place c.ioResources (.main b1) :=
      packed_main (by omega)
    have hpl : place c.ioResources (.main b1) = 0 := rfl
    obtain ⟨hlt, hcut⟩ := h.main hb
    refine ⟨hp0, by omega, (fun k e => by cases e), by omega, hpk, by omega,
      packed_mod hpk (by omega) ?_⟩
    split
    · omega
    · next hp =>
      have := hcut hp
      omega
  | connection k =>
    obtain ⟨i, hi, hk, hm⟩ := Task.ofBucket_connection ht
    have hpl : place c.ioResources (.connection k) = c.ioResources.tcpStreams % 2^32 + i := by
      show _ + k % _ = _
      rw [hm]
    obtain ⟨hh, hcarry, hle, hsmall, hcut⟩ := h.few hb (by omega)
    have hmul : b * c.ioResources.httpConnections ≤ 999 * 64 := Nat.mul_le_mul (by omega) hh
    have hpk : packed c.ioResources (.connection k)
        = b * (c.ioResources.perBucket % 2^32) + place c.ioResources (.connection k) := by
      rw [hpl, hk]
      exact packed_connection hi (by omega) (by omega)
    refine ⟨hp0, by omega, fun _ _ => by omega, by omega, hpk, by omega,
      packed_mod hpk (by omega) ?_⟩
    split
    · next hp =>
      have := hsmall hp
      have hmodp : c.ioResources.perBucket % 2^32 = c.ioResources.perBucket := Nat.mod_eq_of_lt hp
      omega
    · next hp =>
      have := hcut hp
      omega

/-- Two tasks of a bucket have different places when there is a stream before the connections. -/
theorem place_inj {r : IoResources} {b : ℕ} (ht1 : 0 < r.httpConnections → 1 ≤ r.tcpStreams % 2^32)
    {t t' : Task} (h : t.OfBucket r b) (h' : t'.OfBucket r b) (he : place r t = place r t') :
    t = t' := by
  cases t with
  | main b1 =>
    cases t' with
    | main b2 => rw [show b1 = b from h, show b2 = b from h']
    | connection k =>
      obtain ⟨i, hi, _, _⟩ := Task.ofBucket_connection h'
      have := ht1 (by omega)
      change 0 = _ % _ + _ at he
      omega
  | connection k =>
    obtain ⟨i, hi, hk, hm⟩ := Task.ofBucket_connection h
    cases t' with
    | main b2 =>
      have := ht1 (by omega)
      change _ % _ + _ = 0 at he
      omega
    | connection k' =>
      obtain ⟨i', hi', hk', hm'⟩ := Task.ofBucket_connection h'
      change _ % _ + _ = _ % _ + _ at he
      rw [hm, hm'] at he
      rw [hk, hk']
      congr 1
      omega

theorem schedulable_of_fits (h : c.Fits) : c.Schedulable := by
  intro b hb t ht identifier
  obtain ⟨hp0, hb1000, hk, hpl, hpk, hlt, hoff, hbit⟩ := h.bits hb ht
  have hdiv : packed c.ioResources t / (c.ioResources.perBucket % 2^32) = b := by
    rw [hpk]
    exact (div_mod_index hpl).1
  refine ⟨(b, packed c.ioResources t % c.ioResources.perBucket),
    enqueueTask_eq_some.mpr ⟨hk, hlt, hp0, hdiv.symm, hb1000, hb, rfl, hoff⟩, ?_, ?_⟩
  · intro t' ht' identifier' he
    obtain ⟨_, _, _, _, _, _, h6, _⟩ := enqueueTask_eq_some.mp he
    obtain ⟨_, _, _, _, hpk', _, _, hbit'⟩ := h.bits hb ht'
    -- equal bits are equal places
    have hplace : place c.ioResources t' = place c.ioResources t := by
      rw [hbit, hbit'] at h6
      split at h6 <;> omega
    refine place_inj (fun hh => ?_) ht' ht hplace
    obtain ⟨_, _, h⟩ := h.resolve_left (by omega)
    have hsum : c.ioResources.perBucket
      = c.ioResources.tcpStreams + c.ioResources.httpConnections := rfl
    split at h
    · rcases h with ⟨h, _⟩ | ⟨_, h, _⟩
      · omega
      · rw [Nat.mod_eq_of_lt (by omega)]
        exact h
    · rcases h with ⟨h, _⟩ | ⟨_, h, _⟩
      · omega
      · exact h
  · intro slot h0
    exact trailingZeros_setJob h0 hoff

/-- The default configuration can be scheduled. -/
theorem default_schedulable : default.Schedulable := schedulable_of_fits (by decide)

/-- **Which configurations can be scheduled**: of those the server accepts, exactly the ones that
fit. -/
theorem schedulable_iff_fits (file : Option Config) : (load file).Schedulable ↔ (load file).Fits :=
  ⟨fits_of_schedulable, schedulable_of_fits⟩

/-- One bucket too many, one slot too many in each bucket, no stream before the connections. -/
theorem not_schedulable : ¬ (load (some ⟨1001, 1, 0⟩)).Schedulable ∧
    ¬ (load (some ⟨8, 2, 63⟩)).Schedulable ∧ ¬ (load (some ⟨8, 0, 1⟩)).Schedulable :=
  ⟨fun h => absurd (fits_of_schedulable h) (by decide),
    fun h => absurd (fits_of_schedulable h) (by decide),
    fun h => absurd (fits_of_schedulable h) (by decide)⟩

end
end Config
end Nea
