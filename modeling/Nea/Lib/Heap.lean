import Nea.Lib.Region
import Mathlib.Logic.Function.Basic

/-!
# Separate blocks over one flat memory

A program thinks of memory as blocks, each with a content of its own; the machine has one map from
addresses to bytes.

* `Block`             a region with what has been written to it;
* `Heap`              blocks under names; `put`, `copy`, `push` and `drop` touch no other block;
* `Block.Shows`, `Shown`   the flat memory holds what has been written;
* `Separate`          no two blocks share an address;
* `Shown.put`, `Shown.copy`, `Shown.push`, `Shown.drop`   what a store to the flat memory does to a
                      block, as long as the blocks are separate.
-/

set_option linter.unusedSectionVars false

namespace Heap

/-- a region of memory with what has been written to it -/
structure Block (β : Type*) where
  region : Region
  /-- the value at an offset, once it has been written -/
  content : ℕ → Option β

namespace Block
variable {β : Type*}

def fresh (g : Region) : Block β := ⟨g, fun _ => none⟩

def put (b : Block β) (i : ℕ) (v : Option β) : Block β :=
  { b with content := Function.update b.content i v }

@[simp] theorem region_put (b : Block β) (i : ℕ) (v : Option β) : (b.put i v).region = b.region :=
  rfl

/-- the memory holds what has been written to the block -/
def Shows (m : ℕ → β) (b : Block β) : Prop :=
  ∀ i < b.region.size, ∀ v, b.content i = some v → m (b.region.start + i) = v

theorem shows_fresh (m : ℕ → β) (g : Region) : (fresh g).Shows m := fun _ _ _ h => by cases h

theorem Shows.put {m : ℕ → β} {b : Block β} (h : b.Shows m) (i : ℕ) {o : Option β} {x : β}
    (ho : ∀ v, o = some v → x = v) :
    (b.put i o).Shows (Function.update m (b.region.start + i) x) := by
  intro j hj v hv
  change Function.update b.content i o j = some v at hv
  show Function.update m (b.region.start + i) x (b.region.start + j) = v
  by_cases e : j = i
  · subst e
    rw [Function.update_self] at hv ⊢
    exact ho v hv
  · rw [Function.update_of_ne e] at hv
    rw [Function.update_of_ne (by omega)]
    exact h j hj v hv

/-- A store outside of the block. -/
theorem Shows.of_notMem {m : ℕ → β} {b : Block β} (h : b.Shows m) {p : ℕ}
    (hp : p ∉ b.region.bytes) (x : β) : b.Shows (Function.update m p x) := by
  intro i hi v hv
  rw [Function.update_of_ne, h i hi v hv]
  rintro rfl
  exact hp ⟨Nat.le_add_right .., by omega⟩

end Block
end Heap

/-- blocks under names -/
abbrev Heap (ι β : Type*) := ι → Option (Heap.Block β)

namespace Heap
variable {ι β : Type*} [DecidableEq ι]

/-- the content of a block at an offset -/
def read (h : Heap ι β) (k : ι) (i : ℕ) : Option β := (h k).bind (fun b => b.content i)

def put (h : Heap ι β) (k : ι) (i : ℕ) (v : Option β) : Heap ι β :=
  Function.update h k ((h k).map (fun b => b.put i v))

/-- the byte at an offset goes from one block to the same offset of another -/
def copy (h : Heap ι β) (src dst : ι) (i : ℕ) : Heap ι β := h.put dst i (h.read src i)

def push (h : Heap ι β) (k : ι) (g : Region) : Heap ι β := Function.update h k (some (.fresh g))

def drop (h : Heap ι β) (p : ι → Bool) : Heap ι β := fun k => if p k then none else h k

/-- no two blocks share an address -/
def Separate (h : Heap ι β) : Prop :=
  ∀ k k' b b', h k = some b → h k' = some b' → k ≠ k' → Disjoint b.region.bytes b'.region.bytes

/-- the memory holds what has been written to the blocks -/
def Shown (m : ℕ → β) (h : Heap ι β) : Prop := ∀ k b, h k = some b → b.Shows m

section
variable {m : ℕ → β} {h : Heap ι β} {k k' src dst : ι} {b : Block β} {i j : ℕ} {v : Option β}

theorem read_put (hk : h k = some b) :
    (h.put k i v).read k j = if j = i then v else h.read k j := by
  unfold read put
  rw [Function.update_self, hk]
  exact Function.update_apply ..

theorem put_of_ne (hne : k' ≠ k) : h.put k i v k' = h k' := Function.update_of_ne hne ..

theorem read_put_of_ne (hne : k' ≠ k) : (h.put k i v).read k' j = h.read k' j := by
  unfold read
  rw [put_of_ne hne]

/-- The regions do not change with the contents. -/
theorem region_put (h : Heap ι β) (k k' : ι) (i : ℕ) (v : Option β) :
    (h.put k i v k').map Block.region = (h k').map Block.region := by
  by_cases e : k' = k
  · subst e
    rw [put, Function.update_self, Option.map_map]
    rfl
  · rw [put_of_ne e]

theorem push_of_ne {g : Region} (hne : k' ≠ k) : h.push k g k' = h k' :=
  Function.update_of_ne hne ..

theorem push_self {g : Region} : h.push k g k = some (.fresh g) := Function.update_self ..

/-- **A store into a block changes this block only.** -/
theorem Shown.put (hs : h.Separate) (hm : h.Shown m) (hk : h k = some b) (hi : i < b.region.size)
    {x : β} (hv : ∀ y, v = some y → x = y) :
    (h.put k i v).Shown (Function.update m (b.region.start + i) x) := by
  intro k' b' hk'
  by_cases e : k' = k
  · subst e
    rw [Heap.put, Function.update_self, hk] at hk'
    cases hk'
    exact (hm _ b hk).put i hv
  · rw [put_of_ne e] at hk'
    refine (hm k' b' hk').of_notMem (fun hp => ?_) x
    have hin : b.region.start + i ∈ b.region.bytes := ⟨Nat.le_add_right .., by omega⟩
    exact Set.disjoint_left.mp (hs k k' b b' hk hk' (Ne.symm e)) hin hp

/-- A byte is copied from one block to another. -/
theorem Shown.copy {bs bd : Block β} (hs : h.Separate) (hm : h.Shown m) (hsrc : h src = some bs)
    (hdst : h dst = some bd) (his : i < bs.region.size) (hid : i < bd.region.size) :
    (h.copy src dst i).Shown
      (Function.update m (bd.region.start + i) (m (bs.region.start + i))) := by
  refine Shown.put hs hm hdst hid (fun y hy => ?_)
  rw [read, hsrc] at hy
  exact hm src bs hsrc i his y hy

theorem Shown.push (hm : h.Shown m) (k : ι) (g : Region) : (h.push k g).Shown m := by
  intro k' b' hk'
  by_cases e : k' = k
  · subst e
    rw [push_self] at hk'
    cases hk'
    exact Block.shows_fresh m g
  · rw [push_of_ne e] at hk'
    exact hm k' b' hk'

theorem Shown.drop (hm : h.Shown m) (p : ι → Bool) : (h.drop p).Shown m := by
  intro k b hk
  unfold Heap.drop at hk
  split at hk
  · cases hk
  · exact hm k b hk

end
end Heap
