import Nea.Lib.X64
import Mathlib.Data.List.Basic

/-!
# Bytes of memory by their offsets

An address is an offset from a base, and ranges of bytes are ranges of offsets; below `2^64` nothing
wraps around, so that what lies apart is a matter of numbers.

* `bytesAt`                the bytes of a range;
* `writeBytes`, `copyBytes`   what is read after a write and after a copy, inside and outside;
* `SameOn`                 memories that agree at some offsets, and so in the words there.
-/

namespace X64

/-- the `n` bytes from `a` on -/
def bytesAt (m : Memory) (a : Word) (n : ℕ) : List UInt8 :=
  (List.range n).map (fun i => UInt8.ofBitVec (m (a + BitVec.ofNat 64 i)))

/-- bytes written one after the other, from `a` on -/
def writeBytes (m : Memory) (a : Word) (l : List (BitVec 8)) : Memory := fun x =>
  l[(x - a).toNat]?.getD (m x)

/-- `n` bytes from `src` on, all read before the first is written -/
def copyBytes (m : Memory) (src dst : Word) (n : ℕ) : Memory := fun x =>
  if (x - dst).toNat < n then m (src + (x - dst)) else m x

section
variable {o x : Word} {m m' : Memory} {a n : ℕ}

/-! ## offsets -/

/-- the offset of an address, from an offset on -/
theorem sub_offset (ha : a < 2^64) :
    (x - (o + BitVec.ofNat 64 a)).toNat = ((x - o).toNat + (2^64 - a)) % 2^64 := by
  have he : x - (o + BitVec.ofNat 64 a) = x - o - BitVec.ofNat 64 a := by grind
  rw [he, BitVec.toNat_sub, BitVec.toNat_ofNat, Nat.mod_eq_of_lt ha]
  omega

theorem add_offset (o : Word) (a b : ℕ) :
    o + BitVec.ofNat 64 a + BitVec.ofNat 64 b = o + BitVec.ofNat 64 (a + b) := by
  rw [BitVec.ofNat_add, BitVec.add_assoc]

/-! ## ranges -/

section
variable {a : Word}

theorem length_bytesAt (n : ℕ) : (bytesAt m a n).length = n := by
  rw [bytesAt, List.length_map, List.length_range]

theorem bytesAt_add (i j : ℕ) :
    bytesAt m a (i + j) = bytesAt m a i ++ bytesAt m (a + BitVec.ofNat 64 i) j := by
  unfold bytesAt
  rw [List.range_add, List.map_append, List.map_map]
  congr 1
  refine List.map_congr_left (fun k _ => ?_)
  rw [Function.comp_apply, BitVec.ofNat_add, BitVec.add_assoc]

theorem bytesAt_congr (h : ∀ i < n, m' (a + BitVec.ofNat 64 i) = m (a + BitVec.ofNat 64 i)) :
    bytesAt m' a n = bytesAt m a n :=
  List.map_congr_left (fun i hi => congrArg UInt8.ofBitVec (h i (List.mem_range.mp hi)))

end

/-! ## writes -/

/-- what has been written is there -/
theorem writeBytes_apply {l : List (BitVec 8)} {i : ℕ} (hl : l.length ≤ 2^64) (hi : i < l.length)
    (p : Word) : writeBytes m p l (p + BitVec.ofNat 64 i) = l[i] := by
  unfold writeBytes
  rw [add_ofNat_sub p (by omega), List.getElem?_eq_getElem hi]
  rfl

theorem writeBytes_of_outside {l : List (BitVec 8)} (hl : a + l.length ≤ 2^64)
    (h : ¬ (a ≤ (x - o).toNat ∧ (x - o).toNat < a + l.length)) :
    writeBytes m (o + BitVec.ofNat 64 a) l x = m x := by
  unfold writeBytes
  rcases Nat.eq_zero_or_pos l.length with h0 | h0
  · rw [List.eq_nil_of_length_eq_zero h0]
    rfl
  · have hlt := (x - o).isLt
    rw [sub_offset (by omega), List.getElem?_eq_none (by omega)]
    rfl

theorem bytesAt_writeBytes {l : List UInt8} (hl : l.length ≤ 2^64) (p : Word) :
    bytesAt (writeBytes m p (l.map UInt8.toBitVec)) p l.length = l := by
  apply List.ext_getElem (length_bytesAt _)
  intro i h1 h2
  simp only [bytesAt, List.getElem_map, List.getElem_range]
  have hi : i < (l.map UInt8.toBitVec).length := by rwa [List.length_map]
  rw [writeBytes_apply (by rwa [List.length_map]) hi p, List.getElem_map]

theorem copyBytes_apply {src dst : Word} {k : ℕ} (hk : k < n) (h64 : k < 2^64) :
    copyBytes m src dst n (dst + BitVec.ofNat 64 k) = m (src + BitVec.ofNat 64 k) := by
  have he : dst + BitVec.ofNat 64 k - dst = BitVec.ofNat 64 k := by
    rw [BitVec.add_comm, BitVec.add_sub_cancel]
  unfold copyBytes
  rw [if_pos (by rwa [add_ofNat_sub dst h64]), he]

theorem copyBytes_of_outside {src : Word} (hn : a + n ≤ 2^64)
    (h : ¬ (a ≤ (x - o).toNat ∧ (x - o).toNat < a + n)) :
    copyBytes m src (o + BitVec.ofNat 64 a) n x = m x := by
  unfold copyBytes
  rcases Nat.eq_zero_or_pos n with rfl | h0
  · exact if_neg (Nat.not_lt_zero _)
  · have hlt := (x - o).isLt
    refine if_neg ?_
    rw [sub_offset (by omega)]
    omega

end

/-! ## memories that agree -/

/-- the memory is the same at these offsets -/
def SameOn (o : Word) (used : ℕ → Prop) (m m' : Memory) : Prop :=
  ∀ x : Word, used (x - o).toNat → m' x = m x

section
variable {o : Word} {used : ℕ → Prop} {m m' : Memory} {a : ℕ}

theorem SameOn.apply (h : SameOn o used m m') (ha : a < 2^64) (hu : used a) :
    m' (o + BitVec.ofNat 64 a) = m (o + BitVec.ofNat 64 a) := by
  refine h _ ?_
  rwa [add_ofNat_sub o ha]

theorem SameOn.load (h : SameOn o used m m') (ha : a + 8 ≤ 2^64)
    (hu : ∀ y, a ≤ y → y < a + 8 → used y) :
    load m' (o + BitVec.ofNat 64 a) = load m (o + BitVec.ofNat 64 a) := by
  refine load_congr (fun i hi => ?_)
  rw [add_offset]
  exact h.apply (by omega) (hu _ (by omega) (by omega))

/-- a word that is stored -/
theorem sameOn_store (m : Memory) (ha : a + 8 ≤ 2^64) (v : Word) :
    SameOn o (fun y => y < a ∨ a + 8 ≤ y) m (store m (o + BitVec.ofNat 64 a) v) := by
  intro x hx
  have hlt := (x - o).isLt
  refine store_of_le m v ?_
  rw [sub_offset (by omega)]
  omega

end

end X64
