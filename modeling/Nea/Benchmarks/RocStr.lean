import Nea.Benchmarks.Request
import Nea.Lib.Bytes
import Nea.Lib.Utf8

/-!
# The strings of the roc benchmark (`roc_std/src/roc_str.rs`)

A `RocStr` is a union of 24 bytes: up to 23 bytes of text and their number, or the address, the
length and the capacity of a text in memory.  A part of the latter shares its bytes: it has the top
bit of its length set and, for a capacity, the address of the text it was cut from, halved, so that
the bit by which the small strings are known stays clear.  In front of that text stands the number
of the parts.

* `RocStr`, `asBytes`             the union and what it reads;
* `inc`, `dec`                    the count;
* `trySliceRange`, `splitOnce`, `next`   the parts of a string;
* `Piece`                         a string cut from the one at `p`, which reads the same whatever
                                  the count is and whatever is written elsewhere;
* `Front.slice`                   a part of one is one;
* `Front.splitOnce`, `Front.next` so they read what the text is split into.
-/

open X64 Text Utf8

namespace Nea
namespace Benchmarks
namespace Roc

/-! ## the union -/

/-- the bytes from 24 on are no part of the union -/
structure RocStr where
  bytes : Memory

/-- `SmallString::CAPACITY` -/
def smallCapacity : ℕ := 23

/-- `RocStr::MASK` -/
def mask : BitVec 8 := 0x80#8

/-- `SEAMLESS_SLICE_BIT` -/
def seamlessSliceBit : X64.Word := BitVec.intMin 64

namespace RocStr

/-- `SmallString` -/
def small (slice : List UInt8) : RocStr where
  bytes x :=
    if x = 23#64 then BitVec.ofNat 8 slice.length ||| mask else (slice[x.toNat]?.getD 0).toBitVec

/-- `SmallString::try_from_utf8_bytes` -/
def ofSmall (slice : List UInt8) : Option RocStr :=
  if slice.length ≤ smallCapacity then some (small slice) else none

/-- `BigString` -/
def ofBig (elements length capacityOrAllocPtr : X64.Word) : RocStr :=
  ⟨store (store (store (fun _ => 0) 0 elements) 8 length) 16 capacityOrAllocPtr⟩

variable (m : Memory) (s : RocStr)

def elements : X64.Word := load s.bytes 0
def length : X64.Word := load s.bytes 8
def capacityOrAllocPtr : X64.Word := load s.bytes 16

def isSmallStr : Bool := s.bytes 23 &&& mask != 0

/-- `BigString::len` -/
def bigLen : ℕ := (s.length &&& ~~~seamlessSliceBit).toNat

def len : ℕ := if s.isSmallStr then (s.bytes 23 &&& ~~~mask).toNat else s.bigLen

def asBytes : List UInt8 :=
  if s.isSmallStr then bytesAt s.bytes 0 s.len else bytesAt m s.elements s.len

/-- `as_str`; that the bytes are a text is not checked -/
def str : Str := (decode (s.asBytes m)).getD []

/-- `(self.length as isize) < 0` -/
def isSeamlessSlice : Bool := s.length.msb

/-- `BigString::capacity` -/
def capacity : ℕ := if s.isSeamlessSlice then s.bigLen else s.capacityOrAllocPtr.toNat

def ptrToRefcount : X64.Word :=
  if s.isSeamlessSlice then s.capacityOrAllocPtr <<< 1 - 8 else s.elements - 8

/-- `from_raw_parts` -/
def fromRawParts (bytes : X64.Word) (len cap : ℕ) : RocStr :=
  if len ≤ smallCapacity then (ofSmall (bytesAt m bytes len)).getD (small [])
  else ofBig bytes (BitVec.ofNat 64 len) (BitVec.ofNat 64 cap)

/-! ## the count -/

/-- `inc(1)`; the maximum with the `usize` 0 changes nothing, and the sum wraps around -/
def inc : Memory := store m s.ptrToRefcount (load m s.ptrToRefcount + 1)

def dec : Memory :=
  if s.capacity = 0 then m
  else if load m s.ptrToRefcount = 0 then m
  -- `roc_dealloc` does nothing
  else if load m s.ptrToRefcount = BitVec.intMin 64 then m
  else store m s.ptrToRefcount (load m s.ptrToRefcount - 1)

/-- the effect of `Clone` -/
def clone : Memory := if s.isSmallStr then m else s.inc m

/-- the effect of `Drop` -/
def drop : Memory := if s.isSmallStr then m else s.dec m

/-! ## parts -/

/-- the string and what its count has become, if the range is one of the text -/
def trySliceRange (start stop : ℕ) : Option (RocStr × Memory) :=
  match Utf8.get (s.asBytes m) start stop with
  | none => none
  | some _ =>
    if stop - start ≤ smallCapacity ∧ s.isSmallStr = true then
      some ((ofSmall (((s.asBytes m).take stop).drop start)).getD (small []), m)
    else
      some (ofBig (s.elements + BitVec.ofNat 64 start)
        (seamlessSliceBit ||| BitVec.ofNat 64 (stop - start)) (s.elements >>> 1), s.clone m)

/-- `none` is the panic of `slice_range` -/
def splitOnce (delimiter : Str) : Option (Option (RocStr × RocStr) × Memory) :=
  match Text.splitOnce delimiter (s.str m) with
  | none => some (none, m)
  | some (a, b) =>
    match s.trySliceRange m 0 (encode a).length with
    | none => none
    | some (x, m) =>
      match s.trySliceRange m (s.len - (encode b).length) s.len with
      | none => none
      | some (y, m) => some (some (x, y), m)

end RocStr

/-- `char_indices`, from the position of the first character on -/
def charIndices : ℕ → Str → List (ℕ × Char)
  | _, [] => []
  | pos, c :: s => (pos, c) :: charIndices (pos + c.utf8Size) s

/-- the position of the next character, the end of the text if there is none -/
def positionOr (len : ℕ) : List (ℕ × Char) → ℕ
  | [] => len
  | (pos, _) :: _ => pos

/-- `SplitWhitespace::next`: the next word, what is left of the characters, the memory -/
def RocStr.next (m : Memory) (s : RocStr) (it : List (ℕ × Char)) :
    Option RocStr × List (ℕ × Char) × Memory :=
  match it.dropWhile (fun q => isWhitespace q.2) with
  | [] => (none, [], m)
  | (start, c) :: rest =>
    let after := ((start, c) :: rest).dropWhile (fun q => !isWhitespace q.2)
    match s.trySliceRange m start (positionOr s.len after) with
    | none => (none, after.tail, m)
    | some (x, m) => (some x, after.tail, m)

/-! ## what the union reads -/

namespace RocStr

section
variable {m : Memory} {e l c : X64.Word}

@[simp] theorem elements_ofBig : (ofBig e l c).elements = e := by
  have h16 : Apart (0 : X64.Word) 16 := by decide
  have h8 : Apart (0 : X64.Word) 8 := by decide
  show load (store (store (store _ 0 e) 8 l) 16 c) 0 = e
  rw [load_store_apart _ c h16, load_store_apart _ l h8, load_store]

@[simp] theorem length_ofBig : (ofBig e l c).length = l := by
  have h16 : Apart (8 : X64.Word) 16 := by decide
  show load (store (store (store _ 0 e) 8 l) 16 c) 8 = l
  rw [load_store_apart _ c h16, load_store]

@[simp] theorem capacityOrAllocPtr_ofBig : (ofBig e l c).capacityOrAllocPtr = c :=
  load_store _ _ _

/-- The top bit of the last word tells the small strings from the big ones. -/
@[simp] theorem isSmallStr_ofBig : (ofBig e l c).isSmallStr = c.msb := by
  have hmask : ∀ x : BitVec 8, (x &&& mask != 0) = x.getLsbD 7 := by decide
  have hbyte : (ofBig e l c).bytes 23 = c.extractLsb' 56 8 := rfl
  rw [isSmallStr, hbyte, hmask, BitVec.getLsbD_extractLsb', BitVec.msb_eq_getLsbD_last]
  rfl

end

section
variable {s : RocStr}

theorem len_small (h : s.isSmallStr = true) : s.len = (s.bytes 23 &&& ~~~mask).toNat := if_pos h

theorem len_big (h : s.isSmallStr = false) : s.len = s.bigLen :=
  if_neg (Bool.eq_false_iff.mp h)

theorem asBytes_small (h : s.isSmallStr = true) (m : Memory) :
    s.asBytes m = bytesAt s.bytes 0 s.len := if_pos h

theorem asBytes_big (h : s.isSmallStr = false) (m : Memory) :
    s.asBytes m = bytesAt m s.elements s.len := if_neg (Bool.eq_false_iff.mp h)

theorem bigLen_lt (s : RocStr) : s.bigLen < 2^63 := by
  have hmsb : (s.length &&& ~~~seamlessSliceBit).msb = false := by
    rw [BitVec.msb_and]
    exact Bool.and_false _
  exact BitVec.toNat_lt_of_msb_false hmsb

end

/-- A text of at most 23 bytes is read from the union itself. -/
theorem isSmallStr_small {slice : List UInt8} (h : slice.length ≤ smallCapacity) :
    (small slice).isSmallStr = true ∧ ∀ m, (small slice).asBytes m = slice := by
  have hmask : ∀ x : BitVec 8, ((x ||| mask) &&& mask != 0) = true := by decide
  have hcount : ∀ n < 24, ((BitVec.ofNat 8 n ||| mask) &&& ~~~mask).toNat = n := by decide
  have hn : slice.length < 24 := Nat.lt_succ_of_le h
  have hsmall : (small slice).isSmallStr = true := hmask _
  have hlen : (small slice).len = slice.length := (len_small hsmall).trans (hcount _ hn)
  refine ⟨hsmall, fun m => ?_⟩
  rw [asBytes_small hsmall, hlen]
  apply List.ext_getElem (length_bytesAt _)
  intro i h1 h2
  have hx : (0#64 + BitVec.ofNat 64 i).toNat = i := by
    rw [BitVec.zero_add, BitVec.toNat_ofNat, Nat.mod_eq_of_lt (by omega)]
  have hne : ¬ 0#64 + BitVec.ofNat 64 i = 23#64 := by
    intro he
    rw [he] at hx
    have hx : 23 = i := hx
    omega
  simp only [bytesAt, List.getElem_map, List.getElem_range]
  show UInt8.ofBitVec (if 0#64 + BitVec.ofNat 64 i = 23#64 then _
    else (slice[(0#64 + BitVec.ofNat 64 i).toNat]?.getD 0).toBitVec) = slice[i]
  rw [if_neg hne, hx, List.getElem?_eq_getElem h2]
  rfl

end RocStr

/-! ## strings cut from one -/

/-- the memory in which the string at `p` has `k` for a count -/
def counted (m : Memory) (p k : X64.Word) : Memory := store m (p - 8) k

/-- a string cut from the one of `n` bytes at `p`: it reads `l` as long as these bytes are there, and
counts in front of them -/
structure Piece (m : Memory) (p : X64.Word) (n : ℕ) (s : RocStr) (l : List UInt8) : Prop where
  bytes : ∀ m', bytesAt m' p n = bytesAt m p n → s.asBytes m' = l
  fits : s.isSmallStr = true → l.length ≤ smallCapacity
  cell : s.isSmallStr = false → s.ptrToRefcount = p - 8
  held : s.isSmallStr = false → l ≠ [] → s.capacity ≠ 0

/-- one that starts where the string at `p` starts -/
structure Front (m : Memory) (p : X64.Word) (n : ℕ) (s : RocStr) (l : List UInt8) : Prop
    extends Piece m p n s l where
  front : s.isSmallStr = false → s.elements = p

/-- the count when one more string was cut -/
def RocStr.more (s : RocStr) (k : X64.Word) : X64.Word := if s.isSmallStr then k else k + 1

/-- the count when one of them was dropped; 0 and the least number are not counted down -/
def lowered (k : X64.Word) : X64.Word := if k = 0 ∨ k = BitVec.intMin 64 then k else k - 1

section
variable {m m' : Memory} {p k : X64.Word} {n : ℕ} {s : RocStr} {l : List UInt8}

theorem load_counted : load (counted m p k) (p - 8) = k := load_store ..

theorem store_counted (k' : X64.Word) : store (counted m p k) (p - 8) k' = counted m p k' :=
  store_store ..

/-- before anything is cut -/
theorem counted_load : counted m p (load m (p - 8)) = m := store_load ..

/-- The bytes of the text are not those of the count. -/
theorem bytesAt_counted (hn : n < 2^63) (k : X64.Word) :
    bytesAt (counted m p k) p n = bytesAt m p n := by
  refine bytesAt_congr (fun i hi => store_of_le m k ?_)
  have he : p + BitVec.ofNat 64 i - (p - 8) = BitVec.ofNat 64 (i + 8) := by
    rw [BitVec.ofNat_add]
    grind
  rw [he, BitVec.toNat_ofNat, Nat.mod_eq_of_lt (by omega)]
  omega

namespace Piece

/-- where the bytes are the same -/
theorem transfer (h : Piece m p n s l) (hm : bytesAt m' p n = bytesAt m p n) :
    Piece m' p n s l := ⟨fun m1 h1 => h.bytes m1 (h1.trans hm), h.fits, h.cell, h.held⟩

theorem len (h : Piece m p n s l) : s.len = l.length := by
  have hb := h.bytes m rfl
  cases hs : s.isSmallStr with
  | true =>
    rw [RocStr.asBytes_small hs] at hb
    rw [← hb, length_bytesAt]
  | false =>
    rw [RocStr.asBytes_big hs] at hb
    rw [← hb, length_bytesAt]

theorem str {t : Str} (h : Piece m p n s (encode t)) (hm : bytesAt m' p n = bytesAt m p n) :
    s.str m' = t := by
  rw [RocStr.str, h.bytes m' hm, decode_eq_some.mpr rfl]
  rfl

theorem clone (h : Piece m p n s l) (k : X64.Word) :
    s.clone (counted m p k) = counted m p (s.more k) := by
  unfold RocStr.clone RocStr.more
  cases hs : s.isSmallStr with
  | true => rfl
  | false =>
    show s.inc (counted m p k) = counted m p (k + 1)
    rw [RocStr.inc, h.cell hs, load_counted, store_counted]

/-- whatever is dropped, nothing but the count changes -/
theorem drop_eq (h : Piece m p n s l) (k : X64.Word) :
    ∃ k', s.drop (counted m p k) = counted m p k' := by
  unfold RocStr.drop
  cases hs : s.isSmallStr with
  | true => exact ⟨k, rfl⟩
  | false =>
    show ∃ k', s.dec (counted m p k) = counted m p k'
    unfold RocStr.dec
    rw [h.cell hs, load_counted, store_counted]
    split
    · exact ⟨k, rfl⟩
    · split
      · exact ⟨k, rfl⟩
      · split
        · exact ⟨k, rfl⟩
        · exact ⟨k - 1, rfl⟩

/-- A part that is not empty leaves the count when it is dropped. -/
theorem drop (h : Piece m p n s l) (hs : s.isSmallStr = false) (hl : l ≠ []) (k : X64.Word) :
    s.drop (counted m p k) = counted m p (lowered k) := by
  have hbig : ¬ s.isSmallStr = true := Bool.eq_false_iff.mp hs
  unfold RocStr.drop RocStr.dec lowered
  rw [if_neg hbig, h.cell hs, load_counted, store_counted, if_neg (h.held hs hl)]
  by_cases h0 : k = 0
  · rw [if_pos h0, if_pos (.inl h0)]
  · rw [if_neg h0]
    by_cases hmin : k = BitVec.intMin 64
    · rw [if_pos hmin, if_pos (.inr hmin)]
    · have hk : ¬ (k = 0 ∨ k = BitVec.intMin 64) := not_or.mpr ⟨h0, hmin⟩
      rw [if_neg hmin, if_neg hk]

end Piece

/-! ## parts -/

/-- Halving an even address and doubling it again. -/
theorem halve_double (hp : 8 ∣ p.toNat) : p >>> 1 <<< 1 = p := by
  have h0 : p[0] = false := by
    rw [BitVec.getElem_eq_testBit_toNat, Nat.testBit_zero]
    exact decide_eq_false (by omega)
  refine BitVec.eq_of_getLsbD_eq fun i hi => ?_
  rw [BitVec.getLsbD_shiftLeft, BitVec.getLsbD_ushiftRight]
  cases i with
  | zero => simp [h0]
  | succ i => simp [hi, Nat.add_comm]

/-- Below its top bit a length is a number. -/
theorem clear_seamless {n : ℕ} (hn : n < 2^63) :
    BitVec.ofNat 64 n &&& ~~~seamlessSliceBit = BitVec.ofNat 64 n ∧
      (seamlessSliceBit ||| BitVec.ofNat 64 n) &&& ~~~seamlessSliceBit = BitVec.ofNat 64 n := by
  have hmsb : (BitVec.ofNat 64 n).getLsbD 63 = false := by
    rw [BitVec.getLsbD_ofNat]
    simp [Nat.testBit_lt_two_pow hn]
  constructor
  · refine BitVec.eq_of_getLsbD_eq fun i hi => ?_
    rw [BitVec.getLsbD_and, BitVec.getLsbD_not, seamlessSliceBit, BitVec.getLsbD_intMin]
    by_cases h63 : i = 63
    · rw [h63, hmsb]
      rfl
    · have hne : ¬ i + 1 = 64 := by omega
      simp [hne, hi]
  · refine BitVec.eq_of_getLsbD_eq fun i hi => ?_
    rw [BitVec.getLsbD_and, BitVec.getLsbD_or, BitVec.getLsbD_not, seamlessSliceBit,
      BitVec.getLsbD_intMin]
    by_cases h63 : i = 63
    · rw [h63, hmsb]
      rfl
    · have hne : ¬ i + 1 = 64 := by omega
      simp [hne, hi]

/-- the words of a seamless slice -/
theorem seamless_slice {a c : X64.Word} {n : ℕ} (hn : n < 2^63) :
    (RocStr.ofBig a (seamlessSliceBit ||| BitVec.ofNat 64 n) (c >>> 1)).isSmallStr = false ∧
    (RocStr.ofBig a (seamlessSliceBit ||| BitVec.ofNat 64 n) (c >>> 1)).isSeamlessSlice = true ∧
    (RocStr.ofBig a (seamlessSliceBit ||| BitVec.ofNat 64 n) (c >>> 1)).bigLen = n := by
  refine ⟨?_, ?_, ?_⟩
  · rw [RocStr.isSmallStr_ofBig, BitVec.msb_ushiftRight]
    rfl
  · rw [RocStr.isSeamlessSlice, RocStr.length_ofBig, BitVec.msb_or]
    rfl
  · rw [RocStr.bigLen, RocStr.length_ofBig, (clear_seamless hn).2, BitVec.toNat_ofNat,
      Nat.mod_eq_of_lt (by omega)]

/-- the words of a string with a block of its own -/
theorem ofBig_block (e : X64.Word) {n cap : ℕ} (hn : n < 2^63) (hcap : cap < 2^63) :
    (RocStr.ofBig e (BitVec.ofNat 64 n) (BitVec.ofNat 64 cap)).isSmallStr = false ∧
    (RocStr.ofBig e (BitVec.ofNat 64 n) (BitVec.ofNat 64 cap)).isSeamlessSlice = false ∧
    (RocStr.ofBig e (BitVec.ofNat 64 n) (BitVec.ofNat 64 cap)).bigLen = n ∧
    (RocStr.ofBig e (BitVec.ofNat 64 n) (BitVec.ofNat 64 cap)).capacity = cap := by
  have hmsb : ∀ k < 2^63, (BitVec.ofNat 64 k).msb = false := by
    intro k hk
    rw [BitVec.msb_eq_false_iff_two_mul_lt, BitVec.toNat_ofNat, Nat.mod_eq_of_lt (by omega)]
    omega
  have hslice : (RocStr.ofBig e (BitVec.ofNat 64 n) (BitVec.ofNat 64 cap)).isSeamlessSlice =
      false := by
    rw [RocStr.isSeamlessSlice, RocStr.length_ofBig, hmsb n hn]
  refine ⟨?_, hslice, ?_, ?_⟩
  · rw [RocStr.isSmallStr_ofBig, hmsb cap hcap]
  · rw [RocStr.bigLen, RocStr.length_ofBig, (clear_seamless hn).1, BitVec.toNat_ofNat,
      Nat.mod_eq_of_lt (by omega)]
  · rw [RocStr.capacity, hslice, RocStr.capacityOrAllocPtr_ofBig, BitVec.toNat_ofNat,
      Nat.mod_eq_of_lt (by omega)]
    rfl

/-- **A part of a string is cut.**  It reads its part of the text, and counts where the string
counts. -/
theorem Front.slice (hp : 8 ∣ p.toNat) (hn : n < 2^63) (h : Front m p n s l) {a b c : Str}
    (hl : l = encode (a ++ b ++ c)) (k : X64.Word) {start stop : ℕ}
    (hstart : start = (encode a).length) (hstop : stop = start + (encode b).length) :
    ∃ x, s.trySliceRange (counted m p k) start stop = some (x, counted m p (s.more k)) ∧
      x.isSmallStr = s.isSmallStr ∧ Piece m p n x (encode b) ∧
      (a = [] → Front m p n x (encode b)) := by
  have hbytes : ∀ m', bytesAt m' p n = bytesAt m p n →
      ((s.asBytes m').take stop).drop start = encode b := by
    intro m' hm
    rw [h.bytes m' hm, hl, hstop, hstart, encode_append, encode_append, List.append_assoc,
      List.take_length_add_append, List.take_left, List.drop_left]
  have hget : Utf8.get (s.asBytes (counted m p k)) start stop = some b := by
    rw [h.bytes _ (bytesAt_counted hn k), hl, hstop, hstart]
    exact get_encode a b c
  have hle : (encode b).length ≤ l.length := by
    rw [hl, encode_append, encode_append, List.length_append, List.length_append]
    omega
  have hsub : stop - start = (encode b).length := by omega
  unfold RocStr.trySliceRange
  rw [hget]
  dsimp only
  cases hs : s.isSmallStr with
  | true =>
    have hfit : (encode b).length ≤ smallCapacity := Nat.le_trans hle (h.fits hs)
    obtain ⟨h1, h2⟩ := RocStr.isSmallStr_small hfit
    have hx : (RocStr.ofSmall (((s.asBytes (counted m p k)).take stop).drop start)).getD
        (.small []) = .small (encode b) := by
      rw [hbytes _ (bytesAt_counted hn k), RocStr.ofSmall, if_pos hfit]
      rfl
    have hpiece : Piece m p n (.small (encode b)) (encode b) := by
      refine ⟨fun m' _ => h2 m', fun _ => hfit, fun hf => ?_, fun hf => ?_⟩
      · rw [h1] at hf
        cases hf
      · rw [h1] at hf
        cases hf
    rw [if_pos ⟨by rw [hsub]; exact hfit, rfl⟩, hx, RocStr.more, hs]
    refine ⟨_, rfl, h1, hpiece, fun _ => ⟨hpiece, fun hf => ?_⟩⟩
    rw [h1] at hf
    cases hf
  | false =>
    have hlt : (encode b).length < 2^63 := by
      have hlen := h.len
      rw [RocStr.len_big hs] at hlen
      have := RocStr.bigLen_lt s
      omega
    obtain ⟨h1, h2, h3⟩ := seamless_slice (a := s.elements + BitVec.ofNat 64 start)
      (c := s.elements) hlt
    have hfront := h.front hs
    have hpiece : Piece m p n (.ofBig (s.elements + BitVec.ofNat 64 start)
        (seamlessSliceBit ||| BitVec.ofNat 64 (encode b).length) (s.elements >>> 1))
        (encode b) := by
      refine ⟨fun m' hm => ?_, fun hf => ?_, fun _ => ?_, fun _ hne => ?_⟩
      · -- the bytes are those of the string, from `start` on
        refine Eq.trans ?_ (hbytes m' hm)
        rw [RocStr.asBytes_big h1, RocStr.len_big h1, h3, RocStr.elements_ofBig,
          RocStr.asBytes_big hs, h.len]
        have hsplit : l.length = start + ((encode b).length + (encode c).length) := by
          rw [hl, encode_append, encode_append, List.length_append, List.length_append, hstart]
          omega
        rw [hsplit, bytesAt_add, bytesAt_add, List.drop_take, hsub,
          List.drop_left' (length_bytesAt _), List.take_left' (length_bytesAt _)]
      · rw [h1] at hf
        cases hf
      · rw [RocStr.ptrToRefcount, if_pos h2, RocStr.capacityOrAllocPtr_ofBig, hfront,
          halve_double hp]
      · rw [RocStr.capacity, if_pos h2, h3]
        exact fun h0 => hne (List.eq_nil_of_length_eq_zero h0)
    rw [if_neg (fun hf => by cases hf.2), h.clone, hsub]
    refine ⟨_, rfl, h1, hpiece, fun ha => ⟨hpiece, fun _ => ?_⟩⟩
    subst ha
    rw [RocStr.elements_ofBig, hfront, hstart]
    exact BitVec.add_zero p

/-- **Splitting a string** splits its text: two more strings are cut, or none. -/
theorem Front.splitOnce_some (hp : 8 ∣ p.toNat) (hn : n < 2^63) {t a b d : Str}
    (h : Front m p n s (encode t)) (k : X64.Word) (hd : d ≠ []) (ht : Text.splitOnce d t = some (a, b)) :
    ∃ x y, s.splitOnce (counted m p k) d = some (some (x, y), counted m p (s.more (s.more k))) ∧
      x.isSmallStr = s.isSmallStr ∧ Front m p n x (encode a) ∧
      y.isSmallStr = s.isSmallStr ∧ Piece m p n y (encode b) := by
  obtain ⟨hsplit, -⟩ := (splitOnce_eq_some hd).mp ht
  have hx : encode t = encode ([] ++ a ++ (d ++ b)) := by
    rw [hsplit, List.nil_append, List.append_assoc]
  have hy : encode t = encode ((a ++ d) ++ b ++ []) := by rw [hsplit, List.append_nil]
  have hlen : s.len - (encode b).length = (encode (a ++ d)).length := by
    rw [h.len, hsplit, encode_append (a ++ d), List.length_append]
    omega
  have hstop : s.len = s.len - (encode b).length + (encode b).length := by
    rw [hlen, h.len, hsplit, encode_append (a ++ d), List.length_append]
  obtain ⟨x, h1, h2, -, h3⟩ := h.slice hp hn hx k rfl (Nat.zero_add _).symm
  obtain ⟨y, h4, h5, h6, -⟩ := h.slice hp hn hy (s.more k) hlen hstop
  refine ⟨x, y, ?_, h2, h3 rfl, h5, h6⟩
  unfold RocStr.splitOnce
  rw [h.str (bytesAt_counted hn k), ht]
  dsimp only
  have h1 : s.trySliceRange (counted m p k) 0 (encode a).length =
      some (x, counted m p (s.more k)) := h1
  rw [h1]
  dsimp only
  rw [h4]

theorem Front.splitOnce_none (hn : n < 2^63) {t d : Str} (h : Front m p n s (encode t))
    (k : X64.Word) (ht : Text.splitOnce d t = none) :
    s.splitOnce (counted m p k) d = some (none, counted m p k) := by
  unfold RocStr.splitOnce
  rw [h.str (bytesAt_counted hn k), ht]

/-! ## words -/

theorem charIndices_append (pos : ℕ) (t u : Str) :
    charIndices pos (t ++ u) = charIndices pos t ++ charIndices (pos + (encode t).length) u := by
  induction t generalizing pos with
  | nil => rfl
  | cons c t ih =>
    have hlen : (encode (c :: t)).length = c.utf8Size + (encode t).length := by
      show (String.utf8EncodeChar c ++ encode t).length = _
      rw [List.length_append, String.length_utf8EncodeChar]
    rw [List.cons_append, charIndices, charIndices, ih, hlen, Nat.add_assoc]
    rfl

theorem mem_charIndices {pos : ℕ} {t : Str} {q : ℕ × Char} (h : q ∈ charIndices pos t) :
    q.2 ∈ t := by
  induction t generalizing pos with
  | nil => cases h
  | cons c t ih =>
    rcases List.mem_cons.mp h with rfl | h
    · exact List.mem_cons_self
    · exact List.mem_cons_of_mem c (ih h)

theorem dropWhile_charIndices {f : Char → Bool} {u v : Str} (hu : ∀ c ∈ u, f c = true)
    (hv : ∀ c ∈ v.head?, f c = false) (pos : ℕ) :
    (charIndices pos (u ++ v)).dropWhile (fun q => f q.2) =
      charIndices (pos + (encode u).length) v := by
  rw [charIndices_append, List.dropWhile_append_of_pos (fun q hq => hu _ (mem_charIndices hq))]
  cases v with
  | nil => rfl
  | cons c v =>
    have hc := hv c rfl
    rw [charIndices, List.dropWhile_cons_of_neg]
    rw [hc]
    exact Bool.false_ne_true

/-- **The next word of a string** is the next word of its text; there is none only at the end. -/
theorem Front.next (hp : 8 ∣ p.toNat) (hn : n < 2^63) {t pre rest : Str}
    (h : Front m p n s (encode t)) (ht : t = pre ++ rest) (k : X64.Word) :
    (words isWhitespace rest = [] ∧
      s.next (counted m p k) (charIndices (encode pre).length rest) = (none, [], counted m p k)) ∨
    ∃ w x pre' rest', words isWhitespace rest = w :: words isWhitespace rest' ∧
      t = pre' ++ rest' ∧
      s.next (counted m p k) (charIndices (encode pre).length rest) =
        (some x, charIndices (encode pre').length rest', counted m p (s.more k)) ∧
      x.isSmallStr = s.isSmallStr ∧ Piece m p n x (encode w) := by
  rcases words_cases isWhitespace rest with ⟨hall, hnil⟩ | ⟨u, w, v, hrest, hu, hne, hw, hv, hwords⟩
  · refine .inl ⟨hnil, ?_⟩
    have hdrop : (charIndices (encode pre).length rest).dropWhile (fun q => isWhitespace q.2) =
        [] := by
      have hd := dropWhile_charIndices (v := []) hall (fun c hc => by cases hc) (encode pre).length
      rwa [List.append_nil] at hd
    unfold RocStr.next
    rw [hdrop]
  · have hlen : ∀ a b : Str, (encode (a ++ b)).length = (encode a).length + (encode b).length := by
      intro a b
      rw [encode_append, List.length_append]
    -- the blanks in front of the word
    have hblank : (charIndices (encode pre).length rest).dropWhile (fun q => isWhitespace q.2) =
        charIndices (encode (pre ++ u)).length (w ++ v) := by
      rw [hrest, hlen]
      refine dropWhile_charIndices hu (fun c hc => ?_) _
      obtain ⟨c0, w0, rfl⟩ := List.exists_cons_of_ne_nil hne
      cases hc
      exact hw _ List.mem_cons_self
    -- the word
    have hword : (charIndices (encode (pre ++ u)).length (w ++ v)).dropWhile
        (fun q => !isWhitespace q.2) = charIndices (encode (pre ++ u ++ w)).length v := by
      rw [hlen (pre ++ u)]
      have hw' : ∀ c ∈ w, (!isWhitespace c) = true := by
        intro c hc
        rw [hw c hc]
        rfl
      have hv' : ∀ c ∈ v.head?, (!isWhitespace c) = false := by
        intro c hc
        rw [hv c hc]
        rfl
      exact dropWhile_charIndices hw' hv' _
    have htext : t = pre ++ u ++ w ++ v := by
      rw [ht, hrest, List.append_assoc, List.append_assoc]
    obtain ⟨x, h1, h2, h3, -⟩ := h.slice hp hn (congrArg encode htext) k rfl (hlen (pre ++ u) w)
    obtain ⟨c0, w0, hc0⟩ := List.exists_cons_of_ne_nil hne
    refine .inr ⟨w, x, pre ++ u ++ w ++ v.take 1, v.tail, hwords, ?_, ?_, h2, h3⟩
    · rw [htext, List.append_assoc _ (v.take 1), ← List.drop_one, List.take_append_drop]
    · have hcons : charIndices (encode (pre ++ u)).length (w ++ v) =
          ((encode (pre ++ u)).length, c0) ::
            charIndices ((encode (pre ++ u)).length + c0.utf8Size) (w0 ++ v) := by
        rw [hc0]
        rfl
      have hstop : positionOr s.len (charIndices (encode (pre ++ u ++ w)).length v) =
          (encode (pre ++ u ++ w)).length := by
        cases v with
        | nil =>
          show s.len = _
          rw [h.len, htext, List.append_nil]
        | cons c r => rfl
      have htail : (charIndices (encode (pre ++ u ++ w)).length v).tail =
          charIndices (encode (pre ++ u ++ w ++ v.take 1)).length v.tail := by
        cases v with
        | nil => rfl
        | cons c r =>
          have hone : (encode [c]).length = c.utf8Size := by
            show (String.utf8EncodeChar c ++ []).length = _
            rw [List.append_nil, String.length_utf8EncodeChar]
          show charIndices (_ + c.utf8Size) r = charIndices (encode (_ ++ [c])).length r
          rw [hlen _ [c], hone]
      unfold RocStr.next
      rw [hblank, hcons]
      dsimp only
      rw [← hcons, hword, hstop, h1, htail]

end

end Roc
end Benchmarks
end Nea
