import Mathlib.Data.Nat.Basic
import Mathlib.Order.Interval.Finset.Nat

/-!
# Indices of tasks (`nea/src/index.rs`)

A task is known under three numbers: the bucket it belongs to, its position in the flat array of
connections, and its position in the queue (`QueueIndex`, what a waker carries).

* `addChecked`, ...   `u32` arithmetic as the code has it: `none` is the panic on overflow or on
                      division by zero;
* `IoResources`, `QueueIndex`, `BucketIndex`, `ConnectionIndex`, `IoIndex` and the conversions;
* `fromIndex_inputStream`, `fromIndex_httpConnection`   what the classification of a queue index
                      says about its bucket.
-/

namespace Nea

/-! ## `u32` arithmetic -/

/-- `a + b` on `u32`; the overflow check panics -/
def addChecked (a b : UInt32) : Option UInt32 :=
  if a.toNat + b.toNat < 2^32 then some (a + b) else none

/-- `a - b` on `u32`; the overflow check panics -/
def subChecked (a b : UInt32) : Option UInt32 :=
  if b.toNat ≤ a.toNat then some (a - b) else none

/-- `a * b` on `u32`; the overflow check panics -/
def mulChecked (a b : UInt32) : Option UInt32 :=
  if a.toNat * b.toNat < 2^32 then some (a * b) else none

/-- `a / b` on `u32`; division by zero panics -/
def divChecked (a b : UInt32) : Option UInt32 :=
  if b = 0 then none else some (a / b)

/-- `a % b` on `u32`; division by zero panics -/
def remChecked (a b : UInt32) : Option UInt32 :=
  if b = 0 then none else some (a % b)

private theorem toNat_ne_zero {b : UInt32} : b ≠ 0 ↔ b.toNat ≠ 0 := by
  rw [ne_eq, ← UInt32.toNat_inj]; rfl

theorem addChecked_eq_some {a b c : UInt32} :
    addChecked a b = some c ↔ c.toNat = a.toNat + b.toNat := by
  unfold addChecked
  have hc := c.toNat_lt
  split
  · next h =>
    rw [Option.some_inj, ← UInt32.toNat_inj, UInt32.toNat_add, Nat.mod_eq_of_lt h]
    exact eq_comm
  · next h => constructor <;> intro h' <;> [cases h'; omega]

theorem subChecked_eq_some {a b c : UInt32} :
    subChecked a b = some c ↔ c.toNat + b.toNat = a.toNat := by
  unfold subChecked
  split
  · next h =>
    rw [Option.some_inj, ← UInt32.toNat_inj,
      UInt32.toNat_sub_of_le a b (UInt32.le_iff_toNat_le.mpr h)]
    omega
  · next h => constructor <;> intro h' <;> [cases h'; omega]

theorem mulChecked_eq_some {a b c : UInt32} :
    mulChecked a b = some c ↔ c.toNat = a.toNat * b.toNat := by
  unfold mulChecked
  have hc := c.toNat_lt
  split
  · next h =>
    rw [Option.some_inj, ← UInt32.toNat_inj, UInt32.toNat_mul, Nat.mod_eq_of_lt h]
    exact eq_comm
  · next h => constructor <;> intro h' <;> [cases h'; omega]

theorem divChecked_eq_some {a b c : UInt32} :
    divChecked a b = some c ↔ b.toNat ≠ 0 ∧ c.toNat = a.toNat / b.toNat := by
  unfold divChecked
  split
  · next h => subst h; simp
  · next h =>
    rw [Option.some_inj, ← UInt32.toNat_inj, UInt32.toNat_div, and_iff_right (toNat_ne_zero.mp h)]
    exact eq_comm

theorem remChecked_eq_some {a b c : UInt32} :
    remChecked a b = some c ↔ b.toNat ≠ 0 ∧ c.toNat = a.toNat % b.toNat := by
  unfold remChecked
  split
  · next h => subst h; simp
  · next h =>
    rw [Option.some_inj, ← UInt32.toNat_inj, UInt32.toNat_mod, and_iff_right (toNat_ne_zero.mp h)]
    exact eq_comm

theorem toNat_ofNat {n : ℕ} (h : n < 2^32) : (UInt32.ofNat n).toNat = n := by
  rw [UInt32.toNat_ofNat', Nat.mod_eq_of_lt h]

/-! ## resources and indices -/

/-- how many queue slots of each kind a bucket has -/
structure IoResources where
  tcpStreams : ℕ
  httpConnections : ℕ
deriving DecidableEq

/-- `per_bucket()` -/
def IoResources.perBucket (r : IoResources) : ℕ := r.tcpStreams + r.httpConnections

/-- start of `http_connections(bucket_index)` in the flat array of connections -/
def IoResources.httpStart (r : IoResources) (b : ℕ) : ℕ := b * r.httpConnections

structure BucketIndex where
  identifier : UInt32
  index : UInt32
deriving DecidableEq

structure ConnectionIndex where
  identifier : UInt32
  index : UInt32
deriving DecidableEq

structure QueueIndex where
  identifier : UInt32
  index : UInt32
deriving DecidableEq

inductive IoIndex where
  /-- a bucket index -/
  | inputStream (b : BucketIndex)
  /-- an index into the global vector of http connection futures -/
  | httpConnection (c : ConnectionIndex)
deriving DecidableEq

namespace QueueIndex

/-- `to_bucket_index`, with its `assert!(index < 1000)` -/
def toBucketIndex (q : QueueIndex) (r : IoResources) : Option BucketIndex := do
  let index ← divChecked q.index (.ofNat r.perBucket)
  if index < 1000 then some ⟨q.identifier, index⟩ else none

/-- `to_connection_index` -/
def toConnectionIndex (q : QueueIndex) (r : IoResources) : Option ConnectionIndex := do
  let bucketIndex ← divChecked q.index (.ofNat r.perBucket)
  let offset ← remChecked q.index (.ofNat r.perBucket)
  let connection ← subChecked offset (.ofNat r.tcpStreams)
  let base ← mulChecked bucketIndex (.ofNat r.httpConnections)
  let index ← addChecked base connection
  some ⟨q.identifier, index⟩

/-- `from_bucket_index` -/
def fromBucketIndex (r : IoResources) (b : BucketIndex) : Option QueueIndex := do
  let index ← mulChecked b.index (.ofNat r.perBucket)
  some ⟨b.identifier, index⟩

/-- `from_connection_index` -/
def fromConnectionIndex (r : IoResources) (c : ConnectionIndex) : Option QueueIndex := do
  let bucketIndex ← divChecked c.index (.ofNat r.httpConnections)
  let connection ← remChecked c.index (.ofNat r.httpConnections)
  let base ← mulChecked bucketIndex (.ofNat r.perBucket)
  let start ← addChecked base (.ofNat r.tcpStreams)
  let index ← addChecked start connection
  some ⟨c.identifier, index⟩

/-- `to_usize`: the bytes of `index`, then those of `identifier` (little-endian) -/
def toUsize (q : QueueIndex) : UInt64 :=
  .ofNat (q.identifier.toNat * 2^32 + q.index.toNat)

/-- `from_usize` -/
def fromUsize (word : UInt64) : QueueIndex :=
  ⟨.ofNat (word.toNat / 2^32), .ofNat (word.toNat % 2^32)⟩

/-- `to_ptr`: the data pointer of a waker -/
def toPtr (q : QueueIndex) : UInt64 := q.toUsize

/-- `from_ptr` -/
def fromPtr (ptr : UInt64) : QueueIndex := fromUsize ptr

theorem fromUsize_toUsize (q : QueueIndex) : fromUsize q.toUsize = q := by
  have h1 := q.identifier.toNat_lt
  have h2 := q.index.toNat_lt
  have hw : q.toUsize.toNat = q.identifier.toNat * 2^32 + q.index.toNat := by
    unfold toUsize
    rw [UInt64.toNat_ofNat', Nat.mod_eq_of_lt (by omega)]
  unfold fromUsize
  have hdiv : q.toUsize.toNat / 2^32 = q.identifier.toNat := by omega
  have hmod : q.toUsize.toNat % 2^32 = q.index.toNat := by omega
  rw [hdiv, hmod, UInt32.ofNat_toNat, UInt32.ofNat_toNat]

theorem fromPtr_toPtr (q : QueueIndex) : fromPtr q.toPtr = q := fromUsize_toUsize q

end QueueIndex

/-- `from_index`: `none` stands for `todo!()` (a tcp stream other than the first), for
`unreachable!()` and for the panics of the conversions -/
def IoIndex.fromIndex (r : IoResources) (q : QueueIndex) : Option IoIndex :=
  if r.perBucket = 0 then none
  else
    match q.index.toNat % r.perBucket with
    | 0 => (q.toBucketIndex r).map .inputStream
    | n =>
      if 1 ≤ n ∧ n < r.tcpStreams then none
      else if r.tcpStreams ≤ n ∧ n < r.tcpStreams + r.httpConnections then
        (q.toConnectionIndex r).map .httpConnection
      else none

/-! ## the conversions in `ℕ` -/

section
variable {r : IoResources} {q : QueueIndex}

/-- Without a bound on the resources: `per_bucket() as u32` is the remainder. -/
theorem QueueIndex.toBucketIndex_eq_some_mod {b : BucketIndex} :
    q.toBucketIndex r = some b ↔ r.perBucket % 2^32 ≠ 0 ∧ b.identifier = q.identifier ∧
      b.index.toNat = q.index.toNat / (r.perBucket % 2^32) ∧ b.index.toNat < 1000 := by
  have hlt : ∀ i : UInt32, i < 1000 ↔ i.toNat < 1000 := fun i => UInt32.lt_iff_toNat_lt
  unfold toBucketIndex
  simp only [Option.bind_eq_bind, Option.bind_eq_some_iff, divChecked_eq_some, UInt32.toNat_ofNat']
  constructor
  · rintro ⟨i, ⟨h0, hi⟩, h⟩
    split at h
    · next hl => cases h; exact ⟨h0, rfl, hi, (hlt _).mp hl⟩
    · cases h
  · rintro ⟨h0, h1, h2, h3⟩
    exact ⟨b.index, ⟨h0, h2⟩, by rw [if_pos ((hlt _).mpr h3), ← h1]⟩

theorem QueueIndex.toBucketIndex_eq_some (hr : r.perBucket < 2^32) {b : BucketIndex} :
    q.toBucketIndex r = some b ↔ r.perBucket ≠ 0 ∧ b.identifier = q.identifier ∧
      b.index.toNat = q.index.toNat / r.perBucket ∧ b.index.toNat < 1000 := by
  rw [toBucketIndex_eq_some_mod, Nat.mod_eq_of_lt hr]

theorem QueueIndex.toConnectionIndex_eq_some (hr : r.perBucket < 2^32) {c : ConnectionIndex}
    (h : q.toConnectionIndex r = some c) :
    r.tcpStreams ≤ q.index.toNat % r.perBucket ∧ c.index.toNat =
      r.httpStart (q.index.toNat / r.perBucket)
        + (q.index.toNat % r.perBucket - r.tcpStreams) := by
  have hle : r.tcpStreams < 2^32 ∧ r.httpConnections < 2^32 := by
    unfold IoResources.perBucket at hr; omega
  unfold toConnectionIndex at h
  simp only [Option.bind_eq_bind, Option.bind_eq_some_iff, divChecked_eq_some, remChecked_eq_some,
    subChecked_eq_some, mulChecked_eq_some, addChecked_eq_some, UInt32.toNat_ofNat',
    Nat.mod_eq_of_lt hr, Nat.mod_eq_of_lt hle.1, Nat.mod_eq_of_lt hle.2] at h
  obtain ⟨i, ⟨_, hi⟩, o, ⟨_, ho⟩, k, hk, base, hb, idx, hidx, hc⟩ := h
  cases hc
  refine ⟨by omega, ?_⟩
  show idx.toNat = q.index.toNat / r.perBucket * r.httpConnections + _
  rw [hidx, hb, hi]
  omega

theorem QueueIndex.fromBucketIndex_eq_some_mod {b : BucketIndex} :
    fromBucketIndex r b = some q ↔
      q.identifier = b.identifier ∧ q.index.toNat = b.index.toNat * (r.perBucket % 2^32) := by
  unfold fromBucketIndex
  simp only [Option.bind_eq_bind, Option.bind_eq_some_iff, mulChecked_eq_some, UInt32.toNat_ofNat']
  constructor
  · rintro ⟨i, hi, h⟩
    cases h
    exact ⟨rfl, hi⟩
  · rintro ⟨h1, h2⟩
    exact ⟨q.index, h2, by rw [← h1]⟩

theorem QueueIndex.fromBucketIndex_eq_some (hr : r.perBucket < 2^32) {b : BucketIndex} :
    fromBucketIndex r b = some q ↔
      q.identifier = b.identifier ∧ q.index.toNat = b.index.toNat * r.perBucket := by
  rw [fromBucketIndex_eq_some_mod, Nat.mod_eq_of_lt hr]

theorem QueueIndex.fromConnectionIndex_eq_some_mod {c : ConnectionIndex} :
    fromConnectionIndex r c = some q ↔ r.httpConnections % 2^32 ≠ 0 ∧
      q.identifier = c.identifier ∧ q.index.toNat =
        c.index.toNat / (r.httpConnections % 2^32) * (r.perBucket % 2^32)
          + (r.tcpStreams % 2^32 + c.index.toNat % (r.httpConnections % 2^32)) := by
  unfold fromConnectionIndex
  simp only [Option.bind_eq_bind, Option.bind_eq_some_iff, divChecked_eq_some, remChecked_eq_some,
    mulChecked_eq_some, addChecked_eq_some, UInt32.toNat_ofNat']
  constructor
  · rintro ⟨i, ⟨h0, hi⟩, o, ⟨_, ho⟩, base, hb, st, hst, idx, hidx, hc⟩
    cases hc
    refine ⟨h0, rfl, ?_⟩
    show idx.toNat = _
    rw [hidx, hst, hb, hi, ho]
    omega
  · rintro ⟨h0, h1, h2⟩
    -- the sum fits in `u32`, so its parts do
    have hq := q.index.toNat_lt
    have hdiv : c.index.toNat / (r.httpConnections % 2^32) < 2^32 :=
      lt_of_le_of_lt (Nat.div_le_self ..) c.index.toNat_lt
    have hmod : c.index.toNat % (r.httpConnections % 2^32) < 2^32 :=
      lt_of_le_of_lt (Nat.mod_le ..) c.index.toNat_lt
    refine ⟨.ofNat _, ⟨h0, toNat_ofNat hdiv⟩, .ofNat _, ⟨h0, toNat_ofNat hmod⟩, .ofNat
      (c.index.toNat / (r.httpConnections % 2^32) * (r.perBucket % 2^32)), ?_, .ofNat
      (c.index.toNat / (r.httpConnections % 2^32) * (r.perBucket % 2^32) + r.tcpStreams % 2^32), ?_,
      q.index, ?_, by rw [← h1]⟩
    · rw [toNat_ofNat hdiv, toNat_ofNat (by omega)]
    · rw [toNat_ofNat (by omega), toNat_ofNat (by omega)]
    · rw [toNat_ofNat (by omega), toNat_ofNat hmod]
      omega

theorem QueueIndex.fromConnectionIndex_eq_some (hr : r.perBucket < 2^32) {c : ConnectionIndex}
    (h : fromConnectionIndex r c = some q) :
    r.httpConnections ≠ 0 ∧ q.index.toNat = c.index.toNat / r.httpConnections * r.perBucket
      + (r.tcpStreams + c.index.toNat % r.httpConnections) := by
  have hle : r.tcpStreams < 2^32 ∧ r.httpConnections < 2^32 := by
    unfold IoResources.perBucket at hr; omega
  rw [fromConnectionIndex_eq_some_mod, Nat.mod_eq_of_lt hr, Nat.mod_eq_of_lt hle.1,
    Nat.mod_eq_of_lt hle.2] at h
  exact ⟨h.1, h.2.2⟩

/-- The queue index of connection `i` of bucket `b`. -/
theorem QueueIndex.fromConnectionIndex_httpStart (hr : r.perBucket < 2^32) {b i : ℕ}
    (identifier : UInt32) (hi : i < r.httpConnections)
    (hlt : b * r.perBucket + (r.tcpStreams + i) < 2^32) :
    fromConnectionIndex r ⟨identifier, .ofNat (r.httpStart b + i)⟩
      = some ⟨identifier, .ofNat (b * r.perBucket + (r.tcpStreams + i))⟩ := by
  have hsum : r.perBucket = r.tcpStreams + r.httpConnections := rfl
  have hp : 0 < r.httpConnections := by omega
  have hmul : b * r.httpConnections ≤ b * r.perBucket := Nat.mul_le_mul_left b (by omega)
  have hc : r.httpStart b + i < 2^32 := by
    show b * r.httpConnections + i < _
    omega
  have hdiv : (r.httpStart b + i) / r.httpConnections = b := by
    show (b * r.httpConnections + i) / _ = b
    rw [Nat.mul_comm, Nat.mul_add_div hp, Nat.div_eq_of_lt hi, Nat.add_zero]
  have hmod : (r.httpStart b + i) % r.httpConnections = i := by
    show (b * r.httpConnections + i) % _ = i
    rw [Nat.mul_comm, Nat.mul_add_mod, Nat.mod_eq_of_lt hi]
  rw [fromConnectionIndex_eq_some_mod, Nat.mod_eq_of_lt hr,
    Nat.mod_eq_of_lt (show r.tcpStreams < 2^32 by omega),
    Nat.mod_eq_of_lt (show r.httpConnections < 2^32 by omega), toNat_ofNat hc, toNat_ofNat hlt,
    hdiv, hmod]
  exact ⟨by omega, rfl, rfl⟩

/-- An index classified as an input stream is the first of its bucket. -/
theorem fromIndex_inputStream (hr : r.perBucket < 2^32) {b : BucketIndex}
    (h : IoIndex.fromIndex r q = some (.inputStream b)) :
    b.index.toNat = q.index.toNat / r.perBucket ∧ q.index.toNat % r.perBucket = 0 := by
  unfold IoIndex.fromIndex at h
  split at h
  · cases h
  · split at h
    · next hn =>
      obtain ⟨b', hb, he⟩ := Option.map_eq_some_iff.mp h
      cases he
      exact ⟨((QueueIndex.toBucketIndex_eq_some hr).mp hb).2.2.1, hn⟩
    · split at h
      · cases h
      · split at h
        · obtain ⟨c, _, he⟩ := Option.map_eq_some_iff.mp h
          cases he
        · cases h

/-- An index classified as a connection lies in the connection range of its bucket. -/
theorem fromIndex_httpConnection (hr : r.perBucket < 2^32) {c : ConnectionIndex}
    (h : IoIndex.fromIndex r q = some (.httpConnection c)) :
    ∃ i < r.httpConnections, q.index.toNat % r.perBucket = r.tcpStreams + i ∧
      c.index.toNat = r.httpStart (q.index.toNat / r.perBucket) + i := by
  unfold IoIndex.fromIndex at h
  split at h
  · cases h
  · split at h
    · obtain ⟨b, _, he⟩ := Option.map_eq_some_iff.mp h
      cases he
    · split at h
      · cases h
      · split at h
        · next hn =>
          obtain ⟨c', hc, he⟩ := Option.map_eq_some_iff.mp h
          cases he
          obtain ⟨h1, h2⟩ := QueueIndex.toConnectionIndex_eq_some hr hc
          exact ⟨_, by omega, by omega, h2⟩
        · cases h

/-- The connection ranges of different buckets do not meet. -/
theorem IoResources.httpStart_inj {b b' i i' : ℕ} (hi : i < r.httpConnections)
    (hi' : i' < r.httpConnections) (h : r.httpStart b + i = r.httpStart b' + i') :
    b = b' ∧ i = i' := by
  unfold httpStart at h
  have hd := congrArg (· / r.httpConnections) h
  have hm := congrArg (· % r.httpConnections) h
  have hp : 0 < r.httpConnections := by omega
  simp only [Nat.mul_comm _ r.httpConnections, Nat.mul_add_div hp, Nat.mul_add_mod,
    Nat.div_eq_of_lt hi, Nat.div_eq_of_lt hi', Nat.mod_eq_of_lt hi, Nat.mod_eq_of_lt hi'] at hd hm
  exact ⟨by omega, hm⟩

/-- A connection has an index. -/
theorem QueueIndex.toConnectionIndex_ne_none (hr : r.perBucket < 2^32) (h0 : r.perBucket ≠ 0)
    (ho : r.tcpStreams ≤ q.index.toNat % r.perBucket) : q.toConnectionIndex r ≠ none := by
  have hsum : r.perBucket = r.tcpStreams + r.httpConnections := rfl
  have hq := q.index.toNat_lt
  have hdiv := Nat.div_add_mod q.index.toNat r.perBucket
  have hmod := Nat.mod_lt q.index.toNat (Nat.pos_of_ne_zero h0)
  have hmul : q.index.toNat / r.perBucket * r.httpConnections
      ≤ r.perBucket * (q.index.toNat / r.perBucket) := by
    rw [Nat.mul_comm r.perBucket]
    exact Nat.mul_le_mul_left _ (by omega)
  have e1 : divChecked q.index (.ofNat r.perBucket)
      = some (.ofNat (q.index.toNat / r.perBucket)) := by
    have hle := Nat.div_le_self q.index.toNat r.perBucket
    rw [divChecked_eq_some, toNat_ofNat hr, toNat_ofNat (by omega)]
    exact ⟨h0, rfl⟩
  have e2 : remChecked q.index (.ofNat r.perBucket)
      = some (.ofNat (q.index.toNat % r.perBucket)) := by
    rw [remChecked_eq_some, toNat_ofNat hr, toNat_ofNat (by omega)]
    exact ⟨h0, rfl⟩
  have e3 : subChecked (.ofNat (q.index.toNat % r.perBucket)) (.ofNat r.tcpStreams)
      = some (.ofNat (q.index.toNat % r.perBucket - r.tcpStreams)) := by
    rw [subChecked_eq_some, toNat_ofNat (by omega), toNat_ofNat (by omega), toNat_ofNat (by omega)]
    omega
  have e4 : mulChecked (.ofNat (q.index.toNat / r.perBucket)) (.ofNat r.httpConnections)
      = some (.ofNat (q.index.toNat / r.perBucket * r.httpConnections)) := by
    have hle := Nat.div_le_self q.index.toNat r.perBucket
    rw [mulChecked_eq_some, toNat_ofNat (by omega), toNat_ofNat (by omega), toNat_ofNat (by omega)]
  have e5 : addChecked (.ofNat (q.index.toNat / r.perBucket * r.httpConnections))
      (.ofNat (q.index.toNat % r.perBucket - r.tcpStreams))
      = some (.ofNat (q.index.toNat / r.perBucket * r.httpConnections
        + (q.index.toNat % r.perBucket - r.tcpStreams))) := by
    rw [addChecked_eq_some, toNat_ofNat (by omega), toNat_ofNat (by omega), toNat_ofNat (by omega)]
  unfold toConnectionIndex
  simp only [e1, e2, e3, e4, e5, Option.bind_eq_bind, Option.bind_some]
  exact nofun

/-- The first index of a bucket and its connections are known. -/
theorem fromIndex_ne_none (hr : r.perBucket < 2^32) (h0 : r.perBucket ≠ 0)
    (hb : q.index.toNat / r.perBucket < 1000)
    (ho : q.index.toNat % r.perBucket = 0 ∨ r.tcpStreams ≤ q.index.toNat % r.perBucket) :
    IoIndex.fromIndex r q ≠ none := by
  unfold IoIndex.fromIndex
  rw [if_neg h0]
  split
  · have hlt : q.index.toNat / r.perBucket < 2^32 := by omega
    have hbi : q.toBucketIndex r = some ⟨q.identifier, .ofNat (q.index.toNat / r.perBucket)⟩ := by
      rw [QueueIndex.toBucketIndex_eq_some hr, toNat_ofNat hlt]
      exact ⟨h0, rfl, rfl, hb⟩
    rw [hbi]
    exact nofun
  · next hne =>
    have hge : r.tcpStreams ≤ q.index.toNat % r.perBucket := ho.resolve_left hne
    have hmod := Nat.mod_lt q.index.toNat (Nat.pos_of_ne_zero h0)
    rw [if_neg (by omega), if_pos ⟨hge, hmod⟩]
    have hci := QueueIndex.toConnectionIndex_ne_none hr h0 hge
    cases hc : q.toConnectionIndex r with
    | none => exact absurd hc hci
    | some c => exact nofun

end
end Nea
