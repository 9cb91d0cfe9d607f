import Nea.Allocator.Arena
import Nea.Benchmarks.Request
import Nea.Benchmarks.RocStr

/-!
# The headers of the roc benchmark (`roc_std/src/roc_list.rs`, `storage.rs`)

`Request::parse` copies the texts of the headers, the long ones into blocks of the arena, and keeps
them in a `RocList`, which is a block too and moves to a larger one when it is full.  A block has the
count of its owners in front.

* `Store`, `Outcome`      the memory with what is left of the arena, and how an operation ends;
* `rocAlloc`, `rocRealloc`, `RocStr.fromStr`, `RocList.push`, `collect`   the operations;
* `supply`, `needs`       the blocks that are asked for, one after the other;
* `Kept`                  nothing is written but to what was free in the arena;
* `Runs`                  an operation runs out of memory exactly when its blocks do not fit;
* `Listed`                the list reads the headers as long as its own bytes are there;
* `collect_runs`          so it does in the end.
-/

open X64 Text Utf8

namespace Nea
namespace Benchmarks
namespace Roc

/-! ## unions in memory -/

/-- the union in memory -/
def writeStr (m : Memory) (a : X64.Word) (s : RocStr) : Memory :=
  writeBytes m a ((List.range 24).map (fun i => s.bytes (BitVec.ofNat 64 i)))

def RocStr.at (m : Memory) (a : X64.Word) : RocStr where
  bytes x := if x.toNat < 24 then m (a + x) else 0

/-! ## the allocator -/

/-- memory, and how many bytes of the arena are left -/
structure Store where
  mem : Memory
  remaining : ℕ

/-- how an operation ends -/
inductive Outcome (α : Type) where
  | panic
  /-- `roc_panic` jumps away -/
  | outOfMemory (s : Store)
  | value (a : α) (s : Store)

def Outcome.andThen {α β : Type} (x : Outcome α) (f : α → Store → Outcome β) : Outcome β :=
  match x with
  | .panic => .panic
  | .outOfMemory s => .outOfMemory s
  | .value a s => f a s

theorem Outcome.andThen_assoc {α β γ : Type} (x : Outcome α) (f : α → Store → Outcome β)
    (g : β → Store → Outcome γ) :
    (x.andThen f).andThen g = x.andThen (fun a s => (f a s).andThen g) := by
  cases x <;> rfl

theorem word_align : ∃ k, 8 = 2 ^ k := ⟨3, rfl⟩

/-- a layout with the alignment of a word -/
def wordLayout (size : ℕ) : Layout := ⟨size, 8, word_align⟩

/-- `roc_alloc` in the arena at `o`; a layout that is rounded up has to fit into an `isize` -/
def rocAlloc (o : X64.Word) (size : ℕ) (s : Store) : Outcome X64.Word :=
  if size ≤ 2^63 - 8 then
    match carve (wordLayout size) s.remaining with
    | none => .outOfMemory s
    | some allocated => .value (o + BitVec.ofNat 64 allocated) { s with remaining := allocated }
  else .panic

/-- `roc_realloc`: the `realloc` of `GlobalAlloc` allocates, copies and gives back the old block,
which does nothing -/
def rocRealloc (o ptr : X64.Word) (newSize oldSize : ℕ) (s : Store) : Outcome X64.Word :=
  if oldSize ≤ 2^63 - 8 then
    match carve (wordLayout newSize) s.remaining with
    | none => .outOfMemory s
    | some allocated =>
      let new := o + BitVec.ofNat 64 allocated
      .value new ⟨copyBytes s.mem ptr new (min oldSize newSize), allocated⟩
  else .panic

/-! ## lists -/

/-- the header of the source, as the list holds it -/
structure Header where
  key : RocStr
  value : RocStr

def writeHeader (m : Memory) (a : X64.Word) (h : Header) : Memory :=
  writeStr (writeStr m a h.key) (a + 24) h.value

/-- `RocList<Header>` -/
structure RocList where
  elements : Option X64.Word
  length : ℕ
  capacityOrRefPtr : ℕ

/-- the size of a `Header` -/
def headerSize : ℕ := 48

/-- `alloc_bytes`: the eight bytes of the count are a multiple of the alignment, 1 or 8 -/
def allocBytes (elemSize numElems : ℕ) : ℕ := 8 + numElems * elemSize

/-- `REFCOUNT_1` -/
def refcount1 : X64.Word := BitVec.intMin 64

/-- `elems_from_allocation`: the count stands at the start of the block -/
def elemsFromAllocation (allocation : X64.Word) (s : Store) : Outcome X64.Word :=
  .value (allocation + 8) { s with mem := store s.mem allocation refcount1 }

def elemsWithCapacity (o : X64.Word) (elemSize numElems : ℕ) (s : Store) : Outcome X64.Word :=
  (rocAlloc o (allocBytes elemSize numElems) s).andThen elemsFromAllocation

/-- `RocStr::from`: a text that is too long for the union becomes a list of bytes -/
def RocStr.fromStr (o : X64.Word) (text : Str) (s : Store) : Outcome RocStr :=
  let slice := encode text
  match ofSmall slice with
  | some small => .value small s
  | none =>
    (elemsWithCapacity o 1 slice.length s).andThen fun elements s =>
      .value (.ofBig elements (BitVec.ofNat 64 slice.length) (BitVec.ofNat 64 slice.length))
        { s with mem := writeBytes s.mem elements (slice.map UInt8.toBitVec) }

namespace RocList
variable (o : X64.Word) (l : RocList)

def len : ℕ := l.length % 2^63

/-- `((length | capacity_or_ref_ptr) as isize) < 0` -/
def isSeamlessSlice : Bool := decide (2^63 ≤ l.length ∨ 2^63 ≤ l.capacityOrRefPtr)

def capacity : ℕ := if l.isSeamlessSlice then l.len else l.capacityOrRefPtr

def ptrToAllocation : X64.Word :=
  if l.isSeamlessSlice then BitVec.ofNat 64 l.capacityOrRefPtr <<< 1 - 8
  else l.elements.getD 0 - 8

def withCapacity (numElems : ℕ) (s : Store) : Outcome RocList :=
  (elemsWithCapacity o headerSize numElems s).andThen fun elements s =>
    .value ⟨some elements, 0, numElems⟩ s

/-- the block is given up when the list has moved; `none` is the panic of `decrease` -/
def giveUp (m : Memory) : Option Memory :=
  let storage := load m l.ptrToAllocation
  -- read-only, or nobody else has it: `roc_dealloc` does nothing
  if storage = 0 ∨ storage = refcount1 then some m
  else if storage = 1 then none
  else some (store m l.ptrToAllocation (storage - 1))

def reserve (numElems : ℕ) (s : Store) : Outcome RocList :=
  let newLen := numElems + l.len
  match l.elements with
  | none => withCapacity o newLen s
  | some elements =>
    if load s.mem l.ptrToAllocation = refcount1 ∧ l.isSeamlessSlice = false then
      (rocRealloc o l.ptrToAllocation (allocBytes headerSize newLen)
        (allocBytes headerSize l.capacity) s).andThen fun newAlloc s =>
          -- grown in its place
          if newAlloc = l.ptrToAllocation then .value l s
          else (elemsFromAllocation newAlloc s).andThen fun newElems s =>
            .value ⟨some newElems, l.len, newLen⟩ s
    else
      (elemsWithCapacity o headerSize newLen s).andThen fun newElems s =>
        match l.giveUp (copyBytes s.mem elements newElems (headerSize * l.len)) with
        | none => .panic
        | some m => .value ⟨some newElems, l.len, newLen⟩ { s with mem := m }

/-- the element is written behind the others -/
def append (value : Header) (s : Store) : Outcome RocList :=
  match l.elements with
  | none => .panic
  | some elements =>
    .value { l with length := l.length + 1 }
      { s with mem :=
          writeHeader s.mem (elements + BitVec.ofNat 64 (headerSize * l.len)) value }

def push (value : Header) (s : Store) : Outcome RocList :=
  (if l.capacity ≤ l.len then l.reserve o 1 s else .value l s).andThen fun l s =>
    l.append value s

/-- what element `i` reads -/
def header (m : Memory) (i : ℕ) : Benchmarks.Header :=
  let slot := l.elements.getD 0 + BitVec.ofNat 64 (headerSize * i)
  ⟨(RocStr.at m slot).str m, (RocStr.at m (slot + 24)).str m⟩

def headers (m : Memory) : List Benchmarks.Header := (List.range l.len).map (l.header m)

end RocList

/-- the loop over the lines -/
def collect (o : X64.Word) (headers : RocList) (s : Store) : List Str → Outcome RocList
  | [] => .value headers s
  | line :: lines =>
    match Text.splitOnce colon line with
    | none => collect o headers s lines
    | some (key, value) =>
      (RocStr.fromStr o key s).andThen fun key s =>
        (RocStr.fromStr o value s).andThen fun value s =>
          (headers.push o ⟨key, value⟩ s).andThen fun headers s => collect o headers s lines

/-! ## the blocks asked for -/

/-- what is left when blocks of these sizes are handed out, if there is room for all of them -/
def supply (remaining : ℕ) : List ℕ → Option ℕ
  | [] => some remaining
  | n :: ns => (carve (wordLayout n) remaining).bind (fun remaining => supply remaining ns)

/-- the block for a copy; a short text needs none -/
def copySize (text : Str) : List ℕ :=
  if (encode text).length ≤ smallCapacity then [] else [allocBytes 1 (encode text).length]

/-- the block for one more header when there are `k` of them -/
def growth (k : ℕ) : List ℕ := if k < 16 then [] else [allocBytes headerSize (k + 1)]

/-- the blocks for headers when there are `k` of them -/
def needs (k : ℕ) : List Benchmarks.Header → List ℕ
  | [] => []
  | h :: hs => copySize h.key ++ (copySize h.value ++ (growth k ++ needs (k + 1) hs))

theorem supply_append (r : ℕ) (ns ns' : List ℕ) :
    supply r (ns ++ ns') = (supply r ns).bind (fun r => supply r ns') := by
  induction ns generalizing r with
  | nil => rfl
  | cons n ns ih =>
    rw [List.cons_append, supply, supply, Option.bind_assoc]
    exact congrArg _ (funext ih)

/-- A block of words. -/
theorem carve_word {n r a : ℕ} (hr : r < 2^64) (h : carve (wordLayout n) r = some a) :
    a + n ≤ r := (carve_eq_some hr (by show 8 ≤ 4096; decide) h).2

/-! ## what is written -/

/-- **Nothing is written** but to what was free in the arena, up to `top`. -/
structure Kept (o : X64.Word) (top : ℕ) (s s' : Store) : Prop where
  le : s'.remaining ≤ s.remaining
  mem : SameOn o (fun y => y < s'.remaining ∨ top ≤ y) s.mem s'.mem

theorem Kept.refl (o : X64.Word) (top : ℕ) (s : Store) : Kept o top s s :=
  ⟨le_rfl, fun _ _ => rfl⟩

section
variable {o : X64.Word} {top top' : ℕ} {s s' s'' : Store}

theorem Kept.trans (h : Kept o top s s') (h' : Kept o top s' s'') : Kept o top s s'' where
  le := h'.le.trans h.le
  mem x hx := by
    have hle := h'.le
    rw [h'.mem x hx, h.mem x (by omega)]

theorem Kept.mono (h : Kept o top s s') (ht : top ≤ top') : Kept o top' s s' where
  le := h.le
  mem x hx := h.mem x (by omega)

/-! ## operations that need room -/

/-- an operation asks for blocks of sizes `ns`: it runs out of memory if there is no room for them,
and ends in `P` otherwise -/
def Runs {α : Type} (o : X64.Word) (top : ℕ) (s : Store) (ns : List ℕ) (x : Outcome α)
    (P : α → Store → Prop) : Prop :=
  match supply s.remaining ns with
  | none => ∃ s', x = .outOfMemory s' ∧ Kept o top s s'
  | some r => ∃ a s', x = .value a s' ∧ s'.remaining = r ∧ Kept o top s s' ∧ P a s'

variable {α β : Type} {ns ns' : List ℕ} {x : Outcome α} {P : α → Store → Prop}

theorem Runs.value {a : α} (h : P a s) : Runs o top s [] (.value a s) P :=
  ⟨a, s, rfl, rfl, Kept.refl o top s, h⟩

theorem Runs.imp {Q : α → Store → Prop} (h : Runs o top s ns x P)
    (hpq : ∀ a s', Kept o top s s' → P a s' → Q a s') : Runs o top s ns x Q := by
  unfold Runs at h ⊢
  cases hr : supply s.remaining ns with
  | none =>
    rw [hr] at h
    exact h
  | some r =>
    rw [hr] at h
    obtain ⟨a, s', hx, hs, hk, hp⟩ := h
    exact ⟨a, s', hx, hs, hk, hpq a s' hk hp⟩

/-- **The rule for one operation after the other.** -/
theorem Runs.andThen {f : α → Store → Outcome β} {Q : β → Store → Prop} (h : Runs o top s ns x P)
    (hf : ∀ a s', Kept o top s s' → P a s' → Runs o top s' ns' (f a s') Q) :
    Runs o top s (ns ++ ns') (x.andThen f) Q := by
  unfold Runs at h
  show match supply s.remaining (ns ++ ns') with
    | none => ∃ s', x.andThen f = .outOfMemory s' ∧ Kept o top s s'
    | some r => ∃ a s', x.andThen f = .value a s' ∧ s'.remaining = r ∧ Kept o top s s' ∧ Q a s'
  rw [supply_append]
  cases hr : supply s.remaining ns with
  | none =>
    rw [hr] at h
    obtain ⟨s', rfl, hk⟩ := h
    exact ⟨s', rfl, hk⟩
  | some r =>
    rw [hr] at h
    obtain ⟨a, s', rfl, hs, hk, hp⟩ := h
    have h2 := hf a s' hk hp
    unfold Runs at h2
    rw [hs] at h2
    rw [Option.bind_some]
    cases hr2 : supply r ns' with
    | none =>
      rw [hr2] at h2
      obtain ⟨s2, hx, hk2⟩ := h2
      exact ⟨s2, hx, hk.trans hk2⟩
    | some r2 =>
      rw [hr2] at h2
      obtain ⟨b, s2, hx, hs2, hk2, hq⟩ := h2
      exact ⟨b, s2, hx, hs2, hk.trans hk2, hq⟩

/-- an operation that writes only what it is given keeps the rest of the arena -/
theorem Runs.widen (h : Runs o s.remaining s ns x P) (ht : s.remaining ≤ top) :
    Runs o top s ns x (fun a s' => Kept o s.remaining s s' ∧ P a s') := by
  unfold Runs at h ⊢
  cases hr : supply s.remaining ns with
  | none =>
    rw [hr] at h
    obtain ⟨s', hx, hk⟩ := h
    exact ⟨s', hx, hk.mono ht⟩
  | some r =>
    rw [hr] at h
    obtain ⟨a, s', hx, hs, hk, hp⟩ := h
    exact ⟨a, s', hx, hs, hk.mono ht, hk, hp⟩

/-- what comes after asks for nothing -/
theorem Runs.andThen_value {f : α → Store → Outcome β} {Q : β → Store → Prop}
    (h : Runs o top s ns x P)
    (hf : ∀ a s', Kept o top s s' → P a s' → Runs o top s' [] (f a s') Q) :
    Runs o top s ns (x.andThen f) Q := by
  have h2 := h.andThen hf
  rwa [List.append_nil] at h2

/-! ## blocks -/

theorem rocAlloc_runs {n : ℕ} (hn : n ≤ 2^63 - 8) (hr : s.remaining < 2^64) :
    Runs o top s [n] (rocAlloc o n s) (fun a s' => a = o + BitVec.ofNat 64 s'.remaining ∧
      s'.remaining + n ≤ s.remaining ∧ s'.mem = s.mem) := by
  unfold Runs rocAlloc
  rw [supply, if_pos hn]
  cases hc : carve (wordLayout n) s.remaining with
  | none => exact ⟨s, rfl, Kept.refl o top s⟩
  | some a =>
    have hle := carve_word hr hc
    have ha : a ≤ s.remaining := by omega
    exact ⟨_, { s with remaining := a }, rfl, rfl, ⟨ha, fun _ _ => rfl⟩, rfl, hle, rfl⟩

theorem rocRealloc_runs {ptr : X64.Word} {new old : ℕ} (hold : old ≤ 2^63 - 8)
    (hr : s.remaining < 2^64) :
    Runs o s.remaining s [new] (rocRealloc o ptr new old s) (fun p s' =>
      p = o + BitVec.ofNat 64 s'.remaining ∧ s'.remaining + new ≤ s.remaining ∧
      s'.mem = copyBytes s.mem ptr p (min old new)) := by
  unfold Runs rocRealloc
  rw [supply, if_pos hold]
  cases hc : carve (wordLayout new) s.remaining with
  | none => exact ⟨s, rfl, Kept.refl o _ s⟩
  | some b =>
    have hle := carve_word hr hc
    refine ⟨_, _, rfl, rfl, ⟨by show b ≤ _; omega, fun x hx => ?_⟩, rfl, hle, rfl⟩
    have hx : (x - o).toNat < b ∨ s.remaining ≤ (x - o).toNat := hx
    have hmin := Nat.min_le_right old new
    exact copyBytes_of_outside (by omega) (by omega)

/-- **A new block** with its count. -/
theorem elemsWithCapacity_runs {z n : ℕ} (hn : allocBytes z n ≤ 2^63 - 8)
    (hr : s.remaining < 2^64) :
    Runs o s.remaining s [allocBytes z n] (elemsWithCapacity o z n s) (fun e s' =>
      e = o + BitVec.ofNat 64 (s'.remaining + 8) ∧
      s'.remaining + allocBytes z n ≤ s.remaining ∧
      load s'.mem (o + BitVec.ofNat 64 s'.remaining) = refcount1) := by
  refine (rocAlloc_runs hn hr).andThen_value ?_
  rintro a s' hk ⟨rfl, hle, hm⟩
  have hsize : 8 ≤ allocBytes z n := Nat.le_add_right 8 _
  refine ⟨_, _, rfl, rfl, ⟨le_rfl, ?_⟩, add_offset o _ 8, hle, load_store _ _ _⟩
  intro x hx
  have hx : (x - o).toNat < s'.remaining ∨ s.remaining ≤ (x - o).toNat := hx
  exact sameOn_store _ (by omega) refcount1 x (by omega)

/-! ## copies of texts -/

variable {m m' : Memory} {used used' : ℕ → Prop} {key value : RocStr} {t tk tv : Str} {a : ℕ}

/-- nothing but the 24 bytes of the union -/
def RocStr.Whole (s : RocStr) : Prop := ∀ x : X64.Word, 24 ≤ x.toNat → s.bytes x = 0

theorem whole_small {l : List UInt8} (hl : l.length ≤ smallCapacity) :
    (RocStr.small l).Whole := by
  intro x hx
  have hl : l.length ≤ 23 := hl
  have hne : ¬ x = 23#64 := by
    rintro rfl
    exact absurd hx (by decide)
  show (if x = 23#64 then _ else (l[x.toNat]?.getD 0).toBitVec) = 0
  rw [if_neg hne, List.getElem?_eq_none (by omega)]
  rfl

theorem whole_ofBig (e n c : X64.Word) : (RocStr.ofBig e n c).Whole := by
  intro x hx
  have hlt := x.isLt
  have h0 : 8 ≤ (x - 0).toNat := by
    rw [BitVec.toNat_sub]
    show 8 ≤ (2^64 - 0 + x.toNat) % 2^64
    omega
  have h8 : 8 ≤ (x - 8).toNat := by
    rw [BitVec.toNat_sub]
    show 8 ≤ (2^64 - 8 + x.toNat) % 2^64
    omega
  have h16 : 8 ≤ (x - 16).toNat := by
    rw [BitVec.toNat_sub]
    show 8 ≤ (2^64 - 16 + x.toNat) % 2^64
    omega
  show store (store (store (fun _ => 0) 0 e) 8 n) 16 c x = 0
  rw [store_of_le _ _ h16, store_of_le _ _ h8, store_of_le _ _ h0]

/-- A union that was written is read back. -/
theorem at_writeStr (m : Memory) {x : RocStr} (hx : x.Whole) {p : X64.Word}
    (h : ∀ i < 24, m' (p + BitVec.ofNat 64 i) = writeStr m p x (p + BitVec.ofNat 64 i)) :
    RocStr.at m' p = x := by
  suffices he : (RocStr.at m' p).bytes = x.bytes by
    cases x
    exact congrArg RocStr.mk he
  funext y
  show (if y.toNat < 24 then m' (p + y) else 0) = x.bytes y
  by_cases hy : y.toNat < 24
  · have hyy : BitVec.ofNat 64 y.toNat = y := by rw [BitVec.ofNat_toNat, BitVec.setWidth_eq]
    have hlen : ((List.range 24).map (fun i => x.bytes (BitVec.ofNat 64 i))).length = 24 := by
      rw [List.length_map, List.length_range]
    have h1 := h y.toNat hy
    unfold writeStr at h1
    rw [writeBytes_apply (by rw [hlen]; decide) (by rw [hlen]; exact hy), List.getElem_map,
      List.getElem_range, hyy] at h1
    rw [if_pos hy, h1]
  · rw [if_neg hy, hx y (by omega)]

theorem writeStr_of_outside {x : X64.Word} {y : RocStr} (ha : a + 24 ≤ 2^64)
    (h : (x - o).toNat < a ∨ a + 24 ≤ (x - o).toNat) :
    writeStr m (o + BitVec.ofNat 64 a) y x = m x := by
  have hlen : ((List.range 24).map (fun i => y.bytes (BitVec.ofNat 64 i))).length = 24 := by
    rw [List.length_map, List.length_range]
  refine writeBytes_of_outside (by omega) (fun h1 => ?_)
  rw [hlen] at h1
  omega

theorem writeHeader_of_outside {c : ℕ} (hc : c + 48 ≤ 2^64) (h : Header) :
    SameOn o (fun y => y < c ∨ c + 48 ≤ y) m (writeHeader m (o + BitVec.ofNat 64 c) h) := by
  intro x hx
  have hadd : o + BitVec.ofNat 64 c + 24 = o + BitVec.ofNat 64 (c + 24) := add_offset o c 24
  unfold writeHeader
  rw [hadd, writeStr_of_outside (by omega) (by omega), writeStr_of_outside (by omega) (by omega)]

/-- A header that was written is read back. -/
theorem at_writeHeader {c : ℕ} (hc : c + 48 ≤ 2^64) (hk : key.Whole) (hv : value.Whole)
    (h : SameOn o (fun y => c ≤ y ∧ y < c + 48)
      (writeHeader m (o + BitVec.ofNat 64 c) ⟨key, value⟩) m') :
    RocStr.at m' (o + BitVec.ofNat 64 c) = key ∧
      RocStr.at m' (o + BitVec.ofNat 64 (c + 24)) = value := by
  have hadd : o + BitVec.ofNat 64 c + 24 = o + BitVec.ofNat 64 (c + 24) := add_offset o c 24
  unfold writeHeader at h
  rw [hadd] at h
  constructor
  · refine at_writeStr m hk (fun i hi => ?_)
    rw [add_offset, h.apply (by omega) (by omega),
      writeStr_of_outside (by omega) (by rw [add_ofNat_sub o (by omega)]; omega)]
  · refine at_writeStr (writeStr m (o + BitVec.ofNat 64 c) key) hv (fun i hi => ?_)
    rw [add_offset, h.apply (by omega) (by omega)]

/-- a string that reads its text as long as the bytes at some offsets are there -/
structure Held (o : X64.Word) (used : ℕ → Prop) (m : Memory) (x : RocStr) (t : Str) : Prop where
  whole : x.Whole
  reads : ∀ m', SameOn o used m m' → x.asBytes m' = encode t

theorem Held.transfer {x : RocStr} (h : Held o used m x t) (hu : ∀ y, used y → used' y)
    (hm : SameOn o used m m') : Held o used' m' x t :=
  ⟨h.whole, fun m1 h1 => h.reads m1 (fun y hy => (h1 y (hu _ hy)).trans (hm y hy))⟩

theorem Held.str {x : RocStr} (h : Held o used m x t) (hm : SameOn o used m m') :
    x.str m' = t := by
  rw [RocStr.str, h.reads m' hm, decode_eq_some.mpr rfl]
  rfl

/-- **A copy of a text** is in the union or in a block of its own. -/
theorem fromStr_runs (ht : (encode t).length + 16 ≤ 2^63) (hr : s.remaining < 2^64) :
    Runs o s.remaining s (copySize t) (RocStr.fromStr o t s) (fun x s' =>
      Held o (fun y => s'.remaining ≤ y ∧ y < s.remaining) s'.mem x t) := by
  unfold copySize RocStr.fromStr
  dsimp only
  by_cases hfit : (encode t).length ≤ smallCapacity
  · rw [if_pos hfit, RocStr.ofSmall, if_pos hfit]
    exact Runs.value ⟨whole_small hfit, fun m' _ => (RocStr.isSmallStr_small hfit).2 m'⟩
  · rw [if_neg hfit, RocStr.ofSmall, if_neg hfit]
    have hsize : allocBytes 1 (encode t).length = 8 + (encode t).length := by
      rw [allocBytes, Nat.mul_one]
    have hblock := elemsWithCapacity_runs (o := o) (s := s) (z := 1) (n := (encode t).length)
      (by omega) hr
    rw [hsize] at hblock ⊢
    refine hblock.andThen_value ?_
    rintro e s' hk ⟨rfl, hle, -⟩
    have hlt : (encode t).length < 2^63 := by omega
    obtain ⟨h1, -, h3, -⟩ := ofBig_block (o + BitVec.ofNat 64 (s'.remaining + 8)) hlt hlt
    have hlen : ((encode t).map UInt8.toBitVec).length = (encode t).length := List.length_map _
    refine ⟨_, _, rfl, rfl, ⟨le_rfl, fun x hx => ?_⟩, whole_ofBig _ _ _, fun m' hm => ?_⟩
    · have hx : (x - o).toNat < s'.remaining ∨ s.remaining ≤ (x - o).toNat := hx
      exact writeBytes_of_outside (by omega) (by omega)
    · -- the bytes are those that were written
      rw [RocStr.asBytes_big h1, RocStr.len_big h1, h3, RocStr.elements_ofBig]
      refine Eq.trans (bytesAt_congr (fun i hi => ?_))
        (bytesAt_writeBytes (m := s'.mem) (l := encode t) (by omega) _)
      rw [add_offset]
      exact hm.apply (by omega) ⟨by show s'.remaining ≤ _; omega, by omega⟩

/-! ## the list -/

variable {l : RocList} {hs : List Benchmarks.Header}

/-- the bytes of the arena in use, up to `top`: all that was handed out but the free end of the list
at `a` -/
def Used (top a : ℕ) (s : Store) (l : RocList) (y : ℕ) : Prop :=
  s.remaining ≤ y ∧ y < top ∧
    ¬ (a + allocBytes headerSize l.length ≤ y ∧ y < a + allocBytes headerSize l.capacityOrRefPtr)

/-- the block of the list at offset `a` of the arena: nobody else has it, and it reads the headers as
long as the bytes in use are there -/
structure Listed (o : X64.Word) (top a : ℕ) (s : Store) (l : RocList)
    (hs : List Benchmarks.Header) : Prop where
  elements : l.elements = some (o + BitVec.ofNat 64 (a + 8))
  length : l.length = hs.length
  room : l.length ≤ l.capacityOrRefPtr
  free : s.remaining ≤ a
  fits : a + allocBytes headerSize l.capacityOrRefPtr ≤ top
  unique : load s.mem (o + BitVec.ofNat 64 a) = refcount1
  reads : ∀ m', SameOn o (Used top a s l) s.mem m' → l.headers m' = hs

/-- unions that are read from the same bytes -/
theorem at_congr {p p' : X64.Word}
    (h : ∀ i < 24, m' (p' + BitVec.ofNat 64 i) = m (p + BitVec.ofNat 64 i)) :
    RocStr.at m' p' = RocStr.at m p := by
  refine congrArg RocStr.mk (funext fun y => ?_)
  by_cases hy : y.toNat < 24
  · have hyy : BitVec.ofNat 64 y.toNat = y := by rw [BitVec.ofNat_toNat, BitVec.setWidth_eq]
    have h1 := h y.toNat hy
    rw [hyy] at h1
    rw [if_pos hy, if_pos hy, h1]
  · rw [if_neg hy, if_neg hy]

/-- where an element is -/
theorem header_eq {e : ℕ} (he : l.elements = some (o + BitVec.ofNat 64 e)) (m : Memory) (i : ℕ) :
    l.header m i =
      ⟨(RocStr.at m (o + BitVec.ofNat 64 (e + 48 * i))).str m,
        (RocStr.at m (o + BitVec.ofNat 64 (e + 48 * i + 24))).str m⟩ := by
  unfold RocList.header
  rw [he, Option.getD_some, headerSize, ← add_offset o (e + 48 * i) 24, ← add_offset o e]
  rfl

/-- Lists with the same bytes for elements. -/
theorem headers_congr {l' : RocList} {e e' : ℕ} (he' : l'.elements = some (o + BitVec.ofNat 64 e'))
    (he : l.elements = some (o + BitVec.ofNat 64 e)) (hlen : l'.len = l.len)
    (h : ∀ j < 48 * l.len, m (o + BitVec.ofNat 64 (e' + j)) = m (o + BitVec.ofNat 64 (e + j))) :
    l'.headers m = l.headers m := by
  unfold RocList.headers
  rw [hlen]
  refine List.map_congr_left (fun i hi => ?_)
  have hi := List.mem_range.mp hi
  have hslot : ∀ d, d + 24 ≤ 48 → RocStr.at m (o + BitVec.ofNat 64 (e' + 48 * i + d)) =
      RocStr.at m (o + BitVec.ofNat 64 (e + 48 * i + d)) := by
    intro d hd
    refine at_congr (fun j hj => ?_)
    have hj := h (48 * i + d + j) (by omega)
    rw [add_offset, add_offset]
    rwa [← Nat.add_assoc, ← Nat.add_assoc, ← Nat.add_assoc, ← Nat.add_assoc] at hj
  have hfirst := hslot 0 (by omega)
  rw [Nat.add_zero, Nat.add_zero] at hfirst
  rw [header_eq he', header_eq he, hfirst, hslot 24 (by omega)]

theorem allocBytes_header (n : ℕ) : allocBytes headerSize n = 8 + 48 * n :=
  congrArg (8 + ·) (Nat.mul_comm n 48)

section
variable (ht : top ≤ 2^62)
include ht

/-- lengths and capacities are small numbers -/
theorem Listed.plain (h : Listed o top a s l hs) : l.len = hs.length ∧
    l.isSeamlessSlice = false ∧ l.capacity = l.capacityOrRefPtr ∧
    l.ptrToAllocation = o + BitVec.ofNat 64 a := by
  have hfits := h.fits
  have hroom := h.room
  rw [allocBytes_header] at hfits
  have hslice : l.isSeamlessSlice = false := decide_eq_false (by omega)
  refine ⟨?_, hslice, ?_, ?_⟩
  · rw [RocList.len, Nat.mod_eq_of_lt (by omega), h.length]
  · rw [RocList.capacity, hslice]
    rfl
  · rw [RocList.ptrToAllocation, hslice, h.elements, ← add_offset]
    exact BitVec.add_sub_cancel _ _

/-- Elsewhere in the arena things go on. -/
theorem Listed.kept (h : Listed o top a s l hs) (hk : Kept o s.remaining s s') :
    Listed o top a s' l hs := by
  have hle := hk.le
  have hfree := h.free
  have hfits := h.fits
  rw [allocBytes_header] at hfits
  refine ⟨h.elements, h.length, h.room, hle.trans hfree, h.fits, ?_, fun m' hm => ?_⟩
  · rw [hk.mem.load (by omega) (fun y hy _ => .inr (by omega))]
    exact h.unique
  · refine h.reads m' (fun x ⟨h1, h2⟩ => ?_)
    rw [hm x ⟨by omega, h2⟩, hk.mem x (.inr h1)]

theorem withCapacity_runs (hs : s.remaining = top) :
    Runs o top s [allocBytes headerSize 16] (RocList.withCapacity o 16 s) (fun l s' =>
      l.capacityOrRefPtr = 16 ∧ Listed o top s'.remaining s' l []) := by
  subst hs
  refine (elemsWithCapacity_runs (by decide) (by omega)).andThen_value ?_
  rintro e s' hk ⟨rfl, hle, hone⟩
  exact Runs.value ⟨rfl, rfl, rfl, Nat.zero_le _, le_rfl, hle, hone, fun _ _ => rfl⟩

theorem Listed.reserve_eq (h : Listed o top a s l hs) (hfull : l.capacityOrRefPtr = hs.length) :
    l.reserve o 1 s =
      (rocRealloc o (o + BitVec.ofNat 64 a) (allocBytes headerSize (hs.length + 1))
        (allocBytes headerSize hs.length) s).andThen fun newAlloc s =>
          if newAlloc = o + BitVec.ofNat 64 a then .value l s
          else (elemsFromAllocation newAlloc s).andThen fun newElems s =>
            .value ⟨some newElems, hs.length, hs.length + 1⟩ s := by
  obtain ⟨hlen, hslice, hcap, hptr⟩ := h.plain ht
  unfold RocList.reserve
  simp only [h.elements, hptr, h.unique, hlen, hcap, hfull, Nat.add_comm 1]
  exact if_pos ⟨trivial, hslice⟩

/-- The old block is still there, and the new one has the same elements. -/
theorem Listed.moved (h : Listed o top a s l hs) (hfull : l.capacityOrRefPtr = hs.length) {b : ℕ}
    (hb : b + allocBytes headerSize (hs.length + 1) ≤ s.remaining)
    (hm : m = copyBytes s.mem (o + BitVec.ofNat 64 a) (o + BitVec.ofNat 64 b)
      (min (allocBytes headerSize hs.length) (allocBytes headerSize (hs.length + 1))))
    (hk : Kept o s.remaining s ⟨store m (o + BitVec.ofNat 64 b) refcount1, b⟩) :
    Listed o top b ⟨store m (o + BitVec.ofNat 64 b) refcount1, b⟩
      ⟨some (o + BitVec.ofNat 64 b + 8), hs.length, hs.length + 1⟩ hs := by
  obtain ⟨hlen, -, -, -⟩ := h.plain ht
  have hfree := h.free
  have hfits := h.fits
  have hnew := allocBytes_header (hs.length + 1)
  have hold := allocBytes_header hs.length
  rw [hfull, hold] at hfits
  have hused : ∀ y, b ≤ y → y < top →
      (y < b + allocBytes headerSize hs.length ∨
        b + allocBytes headerSize (hs.length + 1) ≤ y) →
      Used top b ⟨store m (o + BitVec.ofNat 64 b) refcount1, b⟩
        ⟨some (o + BitVec.ofNat 64 b + 8), hs.length, hs.length + 1⟩ y := by
    intro y h1 h2 h3
    refine ⟨h1, h2, fun h4 => ?_⟩
    have h5 : b + allocBytes headerSize hs.length ≤ y := h4.1
    have h6 : y < b + allocBytes headerSize (hs.length + 1) := h4.2
    omega
  have hfits' : b + allocBytes headerSize (hs.length + 1) ≤ top := by omega
  refine ⟨congrArg some (add_offset o b 8), rfl, Nat.le_succ _, le_rfl, hfits', load_store _ _ _,
    fun m' hsame => ?_⟩
  have hread : l.headers m' = hs := by
    refine h.reads m' (fun x hx => ?_)
    have hx1 := hx.1
    exact (hsame x (hused _ (by omega) hx.2.1 (.inr (by omega)))).trans (hk.mem x (.inr hx1))
  refine Eq.trans ?_ hread
  refine headers_congr (congrArg some (add_offset o b 8)) h.elements ?_ (fun j hj => ?_)
  · show hs.length % 2^63 = l.length % 2^63
    rw [h.length]
  · rw [hlen] at hj
    have hstore : SameOn o (fun y => y < b ∨ b + 8 ≤ y) m
        (store m (o + BitVec.ofNat 64 b) refcount1) := sameOn_store m (by omega) refcount1
    have holdj : m' (o + BitVec.ofNat 64 (a + 8 + j)) = s.mem (o + BitVec.ofNat 64 (a + 8 + j)) :=
      (hsame.apply (by omega) (hused _ (by omega) (by omega) (.inr (by omega)))).trans
        (hk.mem.apply (by omega) (.inr (by omega)))
    have hnewj : m' (o + BitVec.ofNat 64 (b + 8 + j)) = m (o + BitVec.ofNat 64 (b + 8 + j)) :=
      (hsame.apply (by omega) (hused _ (by omega) (by omega) (.inl (by omega)))).trans
        (hstore.apply (by omega) (.inr (by omega)))
    rw [holdj, hnewj, hm, Nat.add_assoc b, Nat.add_assoc a, ← add_offset o b, ← add_offset o a]
    exact copyBytes_apply (by rw [Nat.min_eq_left (by omega)]; omega) (by omega)

/-- **A full list moves** to a block with room for one more. -/
theorem reserve_runs (h : Listed o top a s l hs) (hfull : l.capacityOrRefPtr = hs.length) :
    Runs o s.remaining s [allocBytes headerSize (hs.length + 1)] (l.reserve o 1 s) (fun l' s' =>
      l'.capacityOrRefPtr = hs.length + 1 ∧
      s'.remaining + allocBytes headerSize (hs.length + 1) ≤ s.remaining ∧
      Listed o top s'.remaining s' l' hs) := by
  have hfree := h.free
  have hfits := h.fits
  have hnew := allocBytes_header (hs.length + 1)
  have hold := allocBytes_header hs.length
  rw [hfull, hold] at hfits
  rw [h.reserve_eq ht hfull]
  refine (rocRealloc_runs (by omega) (by omega)).andThen_value ?_
  rintro _ ⟨m, b⟩ hk ⟨rfl, hb, hm⟩
  have hb : b + allocBytes headerSize (hs.length + 1) ≤ s.remaining := hb
  -- the new block is below all that is in use
  have hne : ¬ o + BitVec.ofNat 64 b = o + BitVec.ofNat 64 a := by
    intro he
    have hab := congrArg (fun x => (x - o).toNat) he
    simp only [add_ofNat_sub o (by omega : b < 2^64), add_ofNat_sub o (by omega : a < 2^64)] at hab
    omega
  dsimp only
  rw [if_neg hne]
  have hk2 : Kept o s.remaining ⟨m, b⟩ ⟨store m (o + BitVec.ofNat 64 b) refcount1, b⟩ := by
    refine ⟨le_rfl, fun x hx => ?_⟩
    have hx : (x - o).toNat < b ∨ s.remaining ≤ (x - o).toNat := hx
    exact sameOn_store _ (by omega) refcount1 x (by omega)
  exact ⟨_, ⟨store m (o + BitVec.ofNat 64 b) refcount1, b⟩, rfl, rfl, hk2, rfl, hb,
    h.moved ht hfull hb hm (hk.trans hk2)⟩

/-- **One more header** where there is room for it. -/
theorem append_runs (h : Listed o top a s l hs) (hroom : hs.length < l.capacityOrRefPtr)
    (hk : Held o (Used top a s l) s.mem key tk) (hv : Held o (Used top a s l) s.mem value tv) :
    Runs o top s [] (l.append ⟨key, value⟩ s) (fun l' s' =>
      l'.capacityOrRefPtr = l.capacityOrRefPtr ∧ Listed o top a s' l' (hs ++ [⟨tk, tv⟩])) := by
  obtain ⟨hlen, -, -, -⟩ := h.plain ht
  have hfree := h.free
  have hfits := h.fits
  have hlength := h.length
  rw [allocBytes_header] at hfits
  -- the slot is the start of what is free in the block
  obtain ⟨c, hc⟩ : ∃ c, c = a + 8 + 48 * hs.length := ⟨_, rfl⟩
  obtain ⟨m, hm⟩ : ∃ m, m = writeHeader s.mem (o + BitVec.ofNat 64 c) ⟨key, value⟩ := ⟨_, rfl⟩
  have hrun : l.append ⟨key, value⟩ s =
      .value { l with length := l.length + 1 } { s with mem := m } := by
    unfold RocList.append
    rw [h.elements, hlen, hm, hc, headerSize, ← add_offset o (a + 8)]
  rw [hrun]
  have hother : SameOn o (fun y => y < c ∨ c + 48 ≤ y) s.mem m := by
    rw [hm]
    exact writeHeader_of_outside (by omega) _
  have hkept : Kept o top s { s with mem := m } := by
    refine ⟨le_rfl, fun x hx => hother x ?_⟩
    have hx : (x - o).toNat < s.remaining ∨ top ≤ (x - o).toNat := hx
    omega
  refine ⟨_, { s with mem := m }, rfl, rfl, hkept, rfl, h.elements, ?_, ?_, hfree, h.fits, ?_,
    fun m' hsame => ?_⟩
  · show l.length + 1 = _
    rw [hlength, List.length_append]
    rfl
  · show l.length + 1 ≤ l.capacityOrRefPtr
    omega
  · rw [hother.load (by omega) (fun y _ h2 => .inl (by omega))]
    exact h.unique
  · have hlast : ∀ y, c ≤ y → y < c + 48 →
        Used top a { s with mem := m } { l with length := l.length + 1 } y := by
      intro y h1 h2
      refine ⟨by show s.remaining ≤ y; omega, by omega, fun h3 => ?_⟩
      have h3 : a + allocBytes headerSize (l.length + 1) ≤ y := h3.1
      rw [allocBytes_header] at h3
      omega
    have hold : SameOn o (Used top a s l) s.mem m' := by
      intro x ⟨h1, h2, h3⟩
      rw [allocBytes_header, allocBytes_header] at h3
      refine (hsame x ⟨h1, h2, fun h4 => ?_⟩).trans (hother x (by omega))
      have h5 : a + allocBytes headerSize (l.length + 1) ≤ (x - o).toNat := h4.1
      have h6 : (x - o).toNat < a + allocBytes headerSize l.capacityOrRefPtr := h4.2
      rw [allocBytes_header] at h5 h6
      omega
    -- the slot reads the header
    have hslot : SameOn o (fun y => c ≤ y ∧ y < c + 48)
        (writeHeader s.mem (o + BitVec.ofNat 64 c) ⟨key, value⟩) m' := by
      rw [← hm]
      exact fun x hx => hsame x (hlast _ hx.1 hx.2)
    obtain ⟨hkey, hvalue⟩ := at_writeHeader (by omega) hk.whole hv.whole hslot
    have hnew : RocList.len { l with length := l.length + 1 } = hs.length + 1 := by
      show (l.length + 1) % 2^63 = _
      omega
    have hread := h.reads m' hold
    unfold RocList.headers at hread ⊢
    rw [hlen] at hread
    rw [hnew, List.range_succ, List.map_append, List.map_singleton]
    show List.map (l.header m') _ ++ [l.header m' hs.length] = _
    rw [hread, header_eq h.elements, ← hc, hkey, hvalue, hk.str hold, hv.str hold]

/-- **`push`** asks for a block when the list is full. -/
theorem push_runs (h : Listed o top a s l hs) (hcap : l.capacityOrRefPtr = max 16 hs.length)
    (hk : Held o (Used top a s l) s.mem key tk) (hv : Held o (Used top a s l) s.mem value tv) :
    Runs o top s (growth hs.length) (l.push o ⟨key, value⟩ s) (fun l' s' =>
      l'.capacityOrRefPtr = max 16 (hs.length + 1) ∧
      ∃ a', Listed o top a' s' l' (hs ++ [⟨tk, tv⟩])) := by
  obtain ⟨hlen, hslice, hplain, -⟩ := h.plain ht
  have hfree := h.free
  have hfits := h.fits
  rw [allocBytes_header] at hfits
  unfold RocList.push growth
  rw [hplain, hlen, hcap]
  by_cases hk16 : hs.length < 16
  · have hspace : ¬ max 16 hs.length ≤ hs.length := by omega
    rw [if_pos hk16, if_neg hspace]
    refine (append_runs ht h (by omega) hk hv).imp (fun l' s' _ h1 => ⟨?_, a, h1.2⟩)
    rw [h1.1, hcap]
    omega
  · have hfull : max 16 hs.length ≤ hs.length := by omega
    rw [if_neg hk16, if_pos hfull]
    have hle : s.remaining ≤ top := by omega
    have hmove := (reserve_runs ht h (by omega)).widen hle
    refine hmove.andThen_value (fun l1 s1 _ h1 => ?_)
    obtain ⟨hkept, hcap1, hb, h2⟩ := h1
    have hle := hkept.le
    -- what was in use is in use, and below it is the new block
    have hused : ∀ y, Used top a s l y → Used top s1.remaining s1 l1 y := by
      intro y hy
      have hy1 := hy.1
      refine ⟨by omega, hy.2.1, fun h5 => ?_⟩
      have h6 := h5.2
      rw [hcap1] at h6
      omega
    have hsame : SameOn o (Used top a s l) s.mem s1.mem := fun x hx => hkept.mem x (.inr hx.1)
    refine (append_runs ht h2 (by omega) (hk.transfer hused hsame)
      (hv.transfer hused hsame)).imp (fun l' s' _ h3 => ⟨?_, _, h3.2⟩)
    rw [h3.1, hcap1]
    omega

/-- **The loop** asks for the blocks of all headers, one after the other, and the list reads them
all. -/
theorem collect_runs {lines : List Str} (hsize : ∀ x ∈ lines.filterMap Benchmarks.Header.ofLine,
      (encode x.key).length + 16 ≤ 2^63 ∧ (encode x.value).length + 16 ≤ 2^63)
    (h : Listed o top a s l hs) (hcap : l.capacityOrRefPtr = max 16 hs.length) :
    Runs o top s (needs hs.length (lines.filterMap Benchmarks.Header.ofLine))
      (collect o l s lines) (fun l' s' =>
        ∃ a', Listed o top a' s' l' (hs ++ lines.filterMap Benchmarks.Header.ofLine)) := by
  induction lines generalizing a s l hs with
  | nil =>
    refine Runs.value ⟨a, ?_⟩
    rwa [List.filterMap_nil, List.append_nil]
  | cons line lines ih =>
    unfold collect
    cases hl : Text.splitOnce colon line with
    | none =>
      have hnone : Benchmarks.Header.ofLine line = none := by
        rw [Benchmarks.Header.ofLine, hl]
        rfl
      rw [List.filterMap_cons_none hnone] at hsize ⊢
      exact ih hsize h hcap
    | some q =>
      obtain ⟨k, v⟩ := q
      have hsome : Benchmarks.Header.ofLine line = some ⟨k, v⟩ := by
        rw [Benchmarks.Header.ofLine, hl]
        rfl
      rw [List.filterMap_cons_some hsome] at hsize ⊢
      rw [List.forall_mem_cons] at hsize
      obtain ⟨⟨hk, hv⟩, hsize⟩ := hsize
      have hfree := h.free
      have hfits := h.fits
      rw [allocBytes_header] at hfits
      have hle : s.remaining ≤ top := by omega
      refine ((fromStr_runs hk (by omega)).widen hle).andThen ?_
      rintro x s1 - ⟨hkept1, hx⟩
      have hle1 := hkept1.le
      refine ((fromStr_runs hv (by omega)).widen (hle1.trans hle)).andThen ?_
      rintro y s2 - ⟨hkept2, hy⟩
      have hle2 := hkept2.le
      -- both copies are below the list
      have hlow : ∀ i, s2.remaining ≤ i → i < s.remaining → Used top a s2 l i := by
        intro i h1 h2
        exact ⟨h1, by omega, fun h3 => absurd h3.1 (by omega)⟩
      have hx2 : Held o (Used top a s2 l) s2.mem x k :=
        hx.transfer (fun i hi => hlow i (by omega) hi.2) (fun i hi => hkept2.mem i (.inr hi.1))
      have hy2 : Held o (Used top a s2 l) s2.mem y v :=
        hy.transfer (fun i hi => hlow i hi.1 (by omega)) (fun _ _ => rfl)
      refine (push_runs ht ((h.kept ht hkept1).kept ht hkept2) hcap hx2 hy2).andThen ?_
      rintro l3 s3 - ⟨hcap3, a3, h3⟩
      have hlength : (hs ++ [(⟨k, v⟩ : Benchmarks.Header)]).length = hs.length + 1 :=
        List.length_append
      have hrest := ih hsize h3 (by rw [hlength, hcap3])
      rwa [hlength, List.append_assoc, List.singleton_append] at hrest

end

end

end Roc
end Benchmarks
end Nea
