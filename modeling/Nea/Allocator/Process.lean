import Nea.Allocator.Predictable
import Nea.Lib.Heap
import Mathlib.Data.Fintype.Basic

/-!
# The memory of the server (`GlobalAlloc` and `roc_*` of `nea/src/lib.rs`)

Threads allocate in the arena that their `CURRENT_ARENA` names, write into what they got, grow it
with `realloc` (the default one of `GlobalAlloc`: allocate, copy, `dealloc`, which does nothing),
and buckets are cleared.  All of them work on one flat memory.

* `route`             the arena of an allocation;
* `World`, `WorldAct`, `World.step`   the threads on the allocator and its memory;
* `blocks`            what has been handed out and not been cleared, under the number of its
                      allocation;
* `Ghost`, `track`    the same memory as separate blocks;
* `blocks_kept`       the flat memory holds what has been written to the blocks;
* `realloc_keeps`     `realloc` hands out a block with the content of the old one.
-/

set_option linter.unusedSectionVars false

namespace Nea
namespace Allocator

/-- `ARENA_INDEX_BEFORE_MAIN` -/
def arenaIndexBeforeMain : UInt32 := 0xFFFFFFFF
/-- `ARENA_INDEX_EXECUTOR` -/
def arenaIndexExecutor : UInt32 := 0xFFFFFFFE
/-- `ARENA_INDEX_REACTOR` -/
def arenaIndexReactor : UInt32 := 0xFFFFFFFD
/-- `ARENA_INDEX_UNINITIALIZED` -/
def arenaIndexUninitialized : UInt32 := 0xFFFFFFFC

/-- where `GlobalAlloc::alloc` tries to allocate; `none`: it answers null at once -/
def route (index : UInt32) : Option Arena :=
  if index = arenaIndexBeforeMain then some .initial
  else if index = arenaIndexExecutor ∨ index = arenaIndexReactor then some .initial
  else if index = arenaIndexUninitialized then none
  else some (.bucket index.toNat)

/-- what `GlobalAlloc::alloc` does when the arena has no room -/
inductive NoRoom where
  | null
  /-- the system allocator is asked -/
  | system
  | rocPanic
deriving DecidableEq

def noRoom (index : UInt32) : NoRoom :=
  if index = arenaIndexBeforeMain then .null
  else if index = arenaIndexExecutor ∨ index = arenaIndexReactor then .system
  else if index = arenaIndexUninitialized then .null
  else .rocPanic

/-! ## blocks -/

/-- how many allocations have succeeded -/
def count : List Event → ℕ
  | [] => 0
  | .returned .. :: h => count h + 1
  | .cleared _ :: h => count h

/-- the allocations that have not been cleared, each under its number -/
def blocks : List Event → ℕ → Option (Arena × Region)
  | [] => fun _ => none
  | .returned a l p :: h => Function.update (blocks h) (count h) (some (a, ⟨p, l.size⟩))
  | .cleared b :: h => fun k => (blocks h k).filter (fun x => decide (x.1 ≠ .bucket b))

theorem lt_count {h : List Event} {k : ℕ} {x : Arena × Region} (hk : blocks h k = some x) :
    k < count h := by
  induction h with
  | nil => cases hk
  | cons e h ih =>
    cases e with
    | returned a l p =>
      show k < count h + 1
      by_cases e : k = count h
      · omega
      · rw [blocks, Function.update_of_ne e] at hk
        have := ih hk
        omega
    | cleared b => exact ih (Option.filter_eq_some_iff.mp hk).1

theorem mem_live {h : List Event} {k : ℕ} {a : Arena} {g : Region}
    (hk : blocks h k = some (a, g)) : g ∈ live a h := by
  induction h with
  | nil => cases hk
  | cons e h ih =>
    cases e with
    | returned a' l p =>
      rw [live]
      by_cases e : k = count h
      · rw [blocks, e, Function.update_self] at hk
        cases hk
        rw [if_pos rfl]
        exact List.mem_cons_self ..
      · rw [blocks, Function.update_of_ne e] at hk
        split
        · exact List.mem_cons_of_mem _ (ih hk)
        · exact ih hk
    | cleared b =>
      obtain ⟨hk, hne⟩ := Option.filter_eq_some_iff.mp hk
      rw [live, if_neg (fun e => of_decide_eq_true hne e.symm)]
      exact ih hk

/-- Two blocks of one arena. -/
theorem blocks_apart {h : List Event} {a : Arena}
    (hp : (live a h).Pairwise (fun g g' => Disjoint g.bytes g'.bytes)) {k k' : ℕ} {g g' : Region}
    (hk : blocks h k = some (a, g)) (hk' : blocks h k' = some (a, g')) (hne : k ≠ k') :
    Disjoint g.bytes g'.bytes := by
  induction h with
  | nil => cases hk
  | cons e h ih =>
    cases e with
    | returned a' l p =>
      rw [blocks] at hk hk'
      rw [live] at hp
      by_cases e : k = count h
      · rw [e, Function.update_self] at hk
        rw [Function.update_of_ne (by omega)] at hk'
        cases hk
        rw [if_pos rfl] at hp
        exact (List.pairwise_cons.mp hp).1 g' (mem_live hk')
      · rw [Function.update_of_ne e] at hk
        by_cases e' : k' = count h
        · rw [e', Function.update_self] at hk'
          cases hk'
          rw [if_pos rfl] at hp
          exact ((List.pairwise_cons.mp hp).1 g (mem_live hk)).symm
        · rw [Function.update_of_ne e'] at hk'
          refine ih ?_ hk hk'
          split at hp
          · exact (List.pairwise_cons.mp hp).2
          · exact hp
    | cleared b =>
      obtain ⟨hk, hb⟩ := Option.filter_eq_some_iff.mp hk
      obtain ⟨hk', -⟩ := Option.filter_eq_some_iff.mp hk'
      rw [live, if_neg (fun e => of_decide_eq_true hb e.symm)] at hp
      exact ih hp hk hk'

theorem mem_ever_of_live {a : Arena} {g : Region} {h : List Event} (hg : g ∈ live a h) :
    g ∈ ever a h := by
  induction h with
  | nil => cases hg
  | cons e h ih =>
    cases e with
    | returned a' l p =>
      rw [live] at hg
      rw [ever]
      split at hg
      · next ha =>
        rw [if_pos ha]
        rcases List.mem_cons.mp hg with rfl | hg
        · exact List.mem_cons_self ..
        · exact List.mem_cons_of_mem _ (ih hg)
      · next ha =>
        rw [if_neg ha]
        exact ih hg
    | cleared b =>
      rw [live] at hg
      split at hg
      · cases hg
      · exact ih hg

section
variable {T : Type} [DecidableEq T] {m : Space} {s s' : State T}

/-- Regions of different arenas. -/
theorem Sound.disjoint_of_ne (hi : Sound m s) {a a' : Arena} (hne : a ≠ a') {g g' : Region}
    (hg : g ∈ ever a s.history) (hg' : g' ∈ ever a' s.history) : Disjoint g.bytes g'.bytes := by
  obtain ⟨l, p, hmem, rfl⟩ := mem_ever hg
  obtain ⟨l', p', hmem', rfl⟩ := mem_ever hg'
  have h1 := hi.granted a l p hmem
  have h2 := hi.granted a' l' p' hmem'
  rcases Space.origin_apart h1.arena h2.arena hne with hap | hap
  · exact Region.disjoint_of_le (le_trans h1.within.2 (le_trans hap h2.within.1))
  · exact (Region.disjoint_of_le (le_trans h2.within.2 (le_trans hap h1.within.1))).symm

/-- **No two blocks share an address.** -/
theorem Sound.blocks_disjoint (hi : Sound m s) {k k' : ℕ} {x x' : Arena × Region}
    (hk : blocks s.history k = some x) (hk' : blocks s.history k' = some x') (hne : k ≠ k') :
    Disjoint x.2.bytes x'.2.bytes := by
  by_cases e : x.1 = x'.1
  · exact blocks_apart (hi.stacked x.1).pairwise hk (e ▸ hk') hne
  · exact hi.disjoint_of_ne e (mem_ever_of_live (mem_live hk)) (mem_ever_of_live (mem_live hk'))

end

/-! ## threads -/

/-- what a thread is doing in the allocator -/
inductive Doing where
  | alloc
  /-- `realloc` of block `src`, which has `size` bytes: allocating -/
  | realloc (src size newSize : ℕ)
  /-- `realloc`: `i` of `n` bytes have been copied -/
  | copy (src dst n i : ℕ)
deriving DecidableEq

structure World (T : Type) where
  alloc : State T
  mem : ℕ → UInt8
  /-- `CURRENT_ARENA` -/
  current : T → UInt32
  doing : T → Option Doing

inductive WorldAct (T : Type) where
  | setArena (t : T) (index : UInt32)
  /-- `GlobalAlloc::alloc` -/
  | alloc (t : T) (l : Layout)
  | rocAlloc (t : T) (l : Layout)
  /-- `GlobalAlloc::realloc` of a block that was allocated with layout `l`, also by
  `roc_realloc` -/
  | realloc (t : T) (src : ℕ) (l : Layout) (newSize : ℕ)
  /-- the thread goes on in the allocator -/
  | go (t : T) (spurious : Bool)
  /-- the thread writes byte `i` of a block -/
  | write (t : T) (k i : ℕ) (v : UInt8)
  | clear (b : ℕ)

namespace World
variable {T : Type} [DecidableEq T]

def init (m : Space) (mem : ℕ → UInt8) : World T where
  alloc := State.init m
  mem := mem
  current _ := arenaIndexBeforeMain
  doing _ := none

def setDoing (w : World T) (t : T) (d : Option Doing) : World T :=
  { w with doing := Function.update w.doing t d }

def block (w : World T) (k : ℕ) : Option (Arena × Region) := blocks w.alloc.history k

/-- the block lies in bucket `b` -/
def inBucket (w : World T) (b k : ℕ) : Bool :=
  decide ((w.block k).map (fun x => x.1) = some (.bucket b))

/-- the call of the allocator for an arena -/
def request (t : T) (l : Layout) : Arena → Act T
  | .initial => .tryAllocateInInitialBucket t l
  | .bucket b => .tryAllocateInBucket t l b

/-- an allocation begins; when the arena refuses at once the thread is free again -/
def enter (m : Space) (w : World T) (t : T) (l : Layout) (d : Doing) :
    Option Arena → Option (World T)
  | none => some w
  | some a =>
    (w.alloc.step m (request t l a)).map (fun s =>
      { w with alloc := s }.setDoing t (if (s.calls t).isSome then some d else none))

/-- what a thread does when its call of the allocator is over -/
def after (s : State T) (t : T) (spurious : Bool) : Doing → Option Doing
  | .realloc src size newSize =>
    match answer s (.fetchUpdate t spurious) with
    | some (_, _, some _) => some (.copy src (count s.history) (min size newSize) 0)
    -- null, or `roc_panic`
    | _ => none
  | _ => none

/-- `copy_nonoverlapping`, byte by byte; a pointer into a cleared bucket dangles -/
def copyStep (w : World T) (t : T) (src dst n i : ℕ) : Option (World T) :=
  if i < n then
    match w.block src, w.block dst with
    | some (_, g), some (_, g') =>
      some ({ w with mem := Function.update w.mem (g'.start + i) (w.mem (g.start + i)) }.setDoing t
        (some (.copy src dst n (i + 1))))
    | _, _ => none
  else some (w.setDoing t none)

def step (m : Space) (w : World T) : WorldAct T → Option (World T)
  | .setArena t index =>
    if w.doing t = none then some { w with current := Function.update w.current t index } else none
  | .alloc t l => if w.doing t = none then w.enter m t l .alloc (route (w.current t)) else none
  | .rocAlloc t l =>
    if w.doing t = none then w.enter m t l .alloc (some (.bucket (w.current t).toNat)) else none
  | .realloc t src l newSize =>
    if w.doing t = none ∧ (w.block src).map (fun x => x.2.size) = some l.size then
      w.enter m t ⟨newSize, l.align, l.align_pow⟩ (.realloc src l.size newSize)
        (route (w.current t))
    else none
  | .go t spurious =>
    match w.doing t with
    | none => none
    | some (.copy src dst n i) => w.copyStep t src dst n i
    | some d =>
      (w.alloc.step m (.fetchUpdate t spurious)).map (fun s =>
        { w with alloc := s }.setDoing t
          (if (s.calls t).isSome then some d else after w.alloc t spurious d))
  | .write t k i v =>
    if w.doing t = none then
      match w.block k with
      | some (_, g) =>
        if i < g.size then some { w with mem := Function.update w.mem (g.start + i) v } else none
      | none => none
    else none
  | .clear b => (w.alloc.step m (.clearBucket b)).map (fun s => { w with alloc := s })

end World

def world {T : Type} [DecidableEq T] (m : Space) (mem : ℕ → UInt8) :
    Machine (World T) (WorldAct T) :=
  ⟨World.init m mem, World.step m⟩

/-! ## the blocks that a program sees -/

/-- the memory as separate blocks, and the content of a block when `realloc` was called on it (for
statements only; no code reads it) -/
structure Ghost (T : Type) where
  heap : Heap ℕ UInt8
  snapshot : T → ℕ → Option UInt8

section
variable {T : Type} [DecidableEq T]

/-- a call of the allocator has answered: a block under the next number, if it succeeded -/
def Ghost.answered (m : Space) (s : State T) (g : Ghost T) :
    Option (Arena × Layout × Option ℕ) → Ghost T
  | some (x, l, some off) =>
    { g with heap := g.heap.push (count s.history) ⟨m.origin x + off, l.size⟩ }
  | _ => g

/-- what a step means for the blocks; addresses occur only where a block is handed out -/
def track (m : Space) (w : World T) (a : WorldAct T) (_ : World T) (g : Ghost T) : Ghost T :=
  match a with
  | .realloc t src _ _ => { g with snapshot := Function.update g.snapshot t (g.heap.read src) }
  | .go t spurious =>
    match w.doing t with
    | none => g
    | some (.copy src dst n i) => if i < n then { g with heap := g.heap.copy src dst i } else g
    | some _ => g.answered m w.alloc (answer w.alloc (.fetchUpdate t spurious))
  | .write _ k i v => { g with heap := g.heap.put k i (some v) }
  | .clear b => { g with heap := g.heap.drop (w.inBucket b) }
  | _ => g

/-- the threads with their blocks -/
def blocked (m : Space) (mem : ℕ → UInt8) : Machine (World T × Ghost T) (WorldAct T) :=
  (world m mem).watch ⟨fun _ => none, fun _ _ => none⟩ (track m)

variable {m : Space} {s s' : State T}

/-- **The next step of a call**: it succeeds, fails or tries again. -/
theorem fetchUpdate_cases {t : T} {spurious : Bool}
    (hs : s.step m (.fetchUpdate t spurious) = some s') : ∃ c, s.calls t = some c ∧
    ((∃ off, answer s (.fetchUpdate t spurious) = some (c.arena, c.layout, some off) ∧
        s'.calls = Function.update s.calls t none ∧
        s'.history = .returned c.arena c.layout (m.origin c.arena + off) :: s.history) ∨
      (answer s (.fetchUpdate t spurious) = some (c.arena, c.layout, none) ∧
        s'.calls = Function.update s.calls t none ∧ s'.history = s.history) ∨
      (answer s (.fetchUpdate t spurious) = none ∧ s'.history = s.history ∧
        ∃ c', c'.arena = c.arena ∧ c'.layout = c.layout ∧
          s'.calls = Function.update s.calls t (some c'))) := by
  obtain ⟨c, hc, rfl⟩ := Option.map_eq_some_iff.mp hs
  refine ⟨c, hc, ?_⟩
  by_cases hwin : ∃ prev next, c.pc = .swap prev next ∧ spurious = false ∧
      s.remaining c.arena = prev
  · obtain ⟨prev, next, hpc, hp⟩ := hwin
    refine .inl ⟨c.allocated, ?_, ?_⟩
    · simp only [answer, hc, Option.bind_some, hpc]
      rw [if_pos hp]
    · unfold State.callStep
      simp only [hpc]
      rw [if_pos hp]
      exact ⟨rfl, rfl⟩
  · -- nothing is returned
    have hh : (s.callStep m t spurious c).history = s.history := by
      unfold State.callStep
      split
      · rfl
      · next prev next hpc =>
        rw [if_neg (fun hp => hwin ⟨prev, next, hpc, hp⟩)]
        rfl
    rcases calls_callStep m spurious hc with ⟨o, ha, hcalls⟩ | ⟨ha, c', h1, h2, hcalls⟩
    · cases o with
      | none => exact .inr (.inl ⟨ha, hcalls, hh⟩)
      | some off =>
        exfalso
        simp only [answer, hc, Option.bind_some] at ha
        split at ha
        · next prev next hpc =>
          split at ha
          · next hp => exact hwin ⟨prev, next, hpc, hp⟩
          · split at ha <;> cases ha
        · split at ha <;> cases ha
    · exact .inr (.inr ⟨ha, hh, c', h1, h2, hcalls⟩)

/-- A call that begins. -/
theorem request_cases {t : T} {l : Layout} {a : Arena}
    (hs : s.step m (World.request t l a) = some s') :
    s'.history = s.history ∧ (∀ t', t' ≠ t → s'.calls t' = s.calls t') ∧
      ∀ c, s'.calls t = some c → c.arena = a ∧ c.layout = l := by
  have henter : ∀ a, s.calls t = none → (s.enter t a l).history = s.history ∧
      (∀ t', t' ≠ t → (s.enter t a l).calls t' = s.calls t') ∧
      ∀ c, (s.enter t a l).calls t = some c → c.arena = a ∧ c.layout = l := by
    intro a h0
    unfold State.enter
    split
    · exact ⟨rfl, fun _ _ => rfl, fun c hc => by rw [h0] at hc; cases hc⟩
    · refine ⟨rfl, fun t' ht => Function.update_of_ne ht .., fun c hc => ?_⟩
      change Function.update s.calls t _ t = some c at hc
      rw [Function.update_self] at hc
      cases hc
      exact ⟨rfl, rfl⟩
  cases a with
  | initial =>
    simp only [World.request, State.step] at hs
    split at hs
    · next h0 => cases hs; exact henter _ h0
    · cases hs
  | bucket b =>
    simp only [World.request, State.step] at hs
    split at hs
    · next h0 =>
      split at hs
      · cases hs; exact henter _ h0
      · cases hs
        exact ⟨rfl, fun _ _ => rfl, fun c hc => by rw [h0] at hc; cases hc⟩
    · cases hs

/-! ## the invariant -/

/-- the thread is inside a call of the allocator -/
def Doing.calling : Doing → Bool
  | .alloc => true
  | .realloc .. => true
  | .copy .. => false

/-- the blocks that a thread works on are large enough, as long as they are not cleared -/
def Doing.Fits (w : World T) (t : T) : Doing → Prop
  | .alloc => True
  | .realloc src size newSize =>
    src < count w.alloc.history ∧ (∀ x, w.block src = some x → x.2.size = size) ∧
      ∀ c, w.alloc.calls t = some c → c.layout.size = newSize
  | .copy src dst n _ =>
    src < count w.alloc.history ∧ dst < count w.alloc.history ∧
      (∀ x, w.block src = some x → n ≤ x.2.size) ∧ ∀ x, w.block dst = some x → n ≤ x.2.size

/-- an arena that a thread may allocate in: `GlobalAlloc::alloc` or `roc_alloc` -/
def Routed (index : UInt32) (a : Arena) : Prop := route index = some a ∨ a = .bucket index.toNat

structure Kept (m : Space) (w : World T) (g : Ghost T) : Prop where
  sound : Sound m w.alloc
  regions : ∀ k, (g.heap k).map Heap.Block.region = (w.block k).map (fun x => x.2)
  shown : g.heap.Shown w.mem
  fits : ∀ t d, w.doing t = some d → d.Fits w t
  calls : ∀ t c, w.alloc.calls t = some c →
    (∃ d, w.doing t = some d ∧ d.calling = true) ∧ Routed (w.current t) c.arena

variable {w w' : World T} {g : Ghost T}

theorem Kept.block_of_heap (h : Kept m w g) {k : ℕ} {b : Heap.Block UInt8}
    (hk : g.heap k = some b) : ∃ x, w.block k = some x ∧ x.2 = b.region := by
  have hr := h.regions k
  rw [hk] at hr
  exact Option.map_eq_some_iff.mp hr.symm

theorem Kept.heap_of_block (h : Kept m w g) {k : ℕ} {x : Arena × Region}
    (hk : w.block k = some x) : ∃ b, g.heap k = some b ∧ b.region = x.2 := by
  have hr := h.regions k
  rw [hk] at hr
  exact Option.map_eq_some_iff.mp hr

theorem Kept.separate (h : Kept m w g) : g.heap.Separate := by
  intro k k' b b' hk hk' hne
  obtain ⟨x, hx, hr⟩ := h.block_of_heap hk
  obtain ⟨x', hx', hr'⟩ := h.block_of_heap hk'
  rw [← hr, ← hr']
  exact h.sound.blocks_disjoint hx hx' hne

/-- Blocks go, and new ones have new numbers. -/
theorem Doing.Fits.mono {t : T} {d : Doing} (h : d.Fits w t)
    (hn : count w.alloc.history ≤ count w'.alloc.history)
    (hb : ∀ k < count w.alloc.history, ∀ x, w'.block k = some x → w.block k = some x)
    (hc : d.calling = true → ∀ c', w'.alloc.calls t = some c' →
      ∃ c, w.alloc.calls t = some c ∧ c.layout.size = c'.layout.size) : d.Fits w' t := by
  cases d with
  | alloc => trivial
  | realloc src size newSize =>
    obtain ⟨h1, h2, h3⟩ := h
    refine ⟨by omega, fun x hx => h2 x (hb src h1 x hx), fun c' hc' => ?_⟩
    obtain ⟨c, hc1, hc2⟩ := hc rfl c' hc'
    exact hc2.symm.trans (h3 c hc1)
  | copy src dst n i =>
    obtain ⟨h1, h2, h3, h4⟩ := h
    exact ⟨by omega, by omega, fun x hx => h3 x (hb src h1 x hx),
      fun x hx => h4 x (hb dst h2 x hx)⟩

theorem kept_init (m : Space) (mem : ℕ → UInt8) :
    Kept m (World.init m mem : World T) ⟨fun _ => none, fun _ _ => none⟩ where
  sound := sound_init m
  regions k := rfl
  shown k b hk := by cases hk
  fits t d hd := by cases hd
  calls t c hc := by cases hc

/-- **One thread goes on in the allocator**: what the step has to keep. -/
theorem Kept.advance (h : Kept m w g) {t : T} {s' : State T} {o : Option Doing} {g' : Ghost T}
    (hs : Sound m s')
    (hreg : ∀ k, (g'.heap k).map Heap.Block.region = (blocks s'.history k).map (fun x => x.2))
    (hshown : g'.heap.Shown w.mem)
    (hn : count w.alloc.history ≤ count s'.history)
    (hb : ∀ k < count w.alloc.history, ∀ x, blocks s'.history k = some x → w.block k = some x)
    (hothers : ∀ t', t' ≠ t → s'.calls t' = w.alloc.calls t')
    (hfit : ∀ d, o = some d → d.Fits { w with alloc := s' } t)
    (hcall : ∀ c, s'.calls t = some c →
      (∃ d, o = some d ∧ d.calling = true) ∧ Routed (w.current t) c.arena) :
    Kept m ({ w with alloc := s' }.setDoing t o) g' where
  sound := hs
  regions := hreg
  shown := hshown
  fits t' d hd := by
    change Function.update w.doing t o t' = some d at hd
    by_cases e : t' = t
    · subst e
      rw [Function.update_self] at hd
      exact (hfit d hd).mono le_rfl (fun _ _ _ hx => hx) (fun _ c hc => ⟨c, hc, rfl⟩)
    · rw [Function.update_of_ne e] at hd
      exact (h.fits t' d hd).mono hn hb (fun _ c hc => ⟨c, (hothers t' e).symm.trans hc, rfl⟩)
  calls t' c hc := by
    show (∃ d, Function.update w.doing t o t' = some d ∧ d.calling = true) ∧ _
    by_cases e : t' = t
    · subst e
      rw [Function.update_self]
      exact hcall c hc
    · rw [Function.update_of_ne e]
      exact h.calls t' c ((hothers t' e).symm.trans hc)

/-- A thread whose call is over. -/
theorem Kept.setDoing (h : Kept m w g) {t : T} {o : Option Doing}
    (ho : ∀ d, o = some d → d.Fits w t) (hc : w.alloc.calls t = none) :
    Kept m (w.setDoing t o) g := by
  show Kept m ({ w with alloc := w.alloc }.setDoing t o) g
  exact h.advance h.sound h.regions h.shown le_rfl (fun _ _ _ hx => hx) (fun _ _ => rfl)
    ho (fun c h0 => by rw [hc] at h0; cases h0)

theorem Kept.calls_eq_none (h : Kept m w g) {t : T} (hd : ∀ d, w.doing t = some d →
    d.calling = false) : w.alloc.calls t = none := by
  cases hc : w.alloc.calls t with
  | none => rfl
  | some c =>
    obtain ⟨⟨d, h1, h2⟩, -⟩ := h.calls t c hc
    rw [hd d h1] at h2
    cases h2

/-- An allocation begins. -/
theorem Kept.enter (h : Kept m w g) {t : T} {l : Layout} {d : Doing} {o : Option Arena}
    (hd : d.calling = true) (ho : ∀ a, o = some a → Routed (w.current t) a)
    (hfit : ∀ s' : State T, s'.history = w.alloc.history →
      (∀ c, s'.calls t = some c → c.layout = l) → d.Fits { w with alloc := s' } t)
    (hs : w.enter m t l d o = some w') : Kept m w' g := by
  cases o with
  | none => cases hs; exact h
  | some a =>
    obtain ⟨s', hs', rfl⟩ := Option.map_eq_some_iff.mp hs
    obtain ⟨hh, hothers, hcall⟩ := request_cases hs'
    have hblocks : blocks s'.history = blocks w.alloc.history := by rw [hh]
    refine h.advance (h.sound.step hs') (fun k => ?_) h.shown (le_of_eq (by rw [hh]))
      (fun k _ x hx => ?_) hothers (fun d' hd' => ?_) (fun c hc => ⟨⟨d, ?_, hd⟩, ?_⟩)
    · rw [hblocks]
      exact h.regions k
    · rwa [hblocks] at hx
    · split at hd'
      · cases hd'
        exact hfit s' hh (fun c hc => (hcall c hc).2)
      · cases hd'
    · rw [hc]
      rfl
    · rw [(hcall c hc).1]
      exact ho a rfl

theorem track_go {t : T} {spurious : Bool} {d : Doing} (hd : w.doing t = some d)
    (hcalling : d.calling = true) : track m w (.go t spurious) w' g =
      g.answered m w.alloc (answer w.alloc (.fetchUpdate t spurious)) := by
  unfold track
  simp only [hd]
  cases d with
  | copy src dst n i => cases hcalling
  | _ => rfl

/-- **The next step of a call**, with what it means for the blocks. -/
theorem Kept.fetch (h : Kept m w g) {t : T} {spurious : Bool} {d : Doing} {s' : State T}
    (hd : w.doing t = some d) (hcalling : d.calling = true)
    (hs : w.alloc.step m (.fetchUpdate t spurious) = some s') :
    Kept m ({ w with alloc := s' }.setDoing t
      (if (s'.calls t).isSome then some d else World.after w.alloc t spurious d))
      (track m w (.go t spurious) w' g) := by
  obtain ⟨c, hc, hcases⟩ := fetchUpdate_cases hs
  have hr := (h.calls t c hc).2
  have hothers : ∀ o, s'.calls = Function.update w.alloc.calls t o →
      ∀ t', t' ≠ t → s'.calls t' = w.alloc.calls t' := by
    intro o ho t' ht
    rw [ho, Function.update_of_ne ht]
  rcases hcases with ⟨off, ha, hcalls, hh⟩ | ⟨ha, hcalls, hh⟩ | ⟨ha, hh, c', h1, h2, hcalls⟩
  · -- a block under the next number
    have hnone : s'.calls t = none := by rw [hcalls, Function.update_self]
    have hblocks : blocks s'.history = Function.update (blocks w.alloc.history)
        (count w.alloc.history) (some (c.arena, ⟨m.origin c.arena + off, c.layout.size⟩)) := by
      rw [hh]
      rfl
    have hcount : count s'.history = count w.alloc.history + 1 := by rw [hh]; rfl
    have hold : ∀ k < count w.alloc.history, ∀ x, blocks s'.history k = some x →
        w.block k = some x := by
      intro k hk x hx
      rwa [hblocks, Function.update_of_ne (by omega)] at hx
    rw [track_go hd hcalling, ha, hnone]
    refine h.advance (h.sound.step hs) (fun k => ?_) (h.shown.push _ _) (by omega) hold
      (hothers _ hcalls) (fun d' hd' => ?_) (fun c' hc' => by rw [hnone] at hc'; cases hc')
    · by_cases e : k = count w.alloc.history
      · rw [e, hblocks, Function.update_self]
        exact congrArg _ Heap.push_self
      · rw [hblocks, Function.update_of_ne e]
        exact (congrArg _ (Heap.push_of_ne e)).trans (h.regions k)
    · cases d with
      | alloc => cases hd'
      | realloc src size newSize =>
        obtain ⟨f1, f2, f3⟩ := h.fits t _ hd
        have hafter : World.after w.alloc t spurious (.realloc src size newSize) =
            some (.copy src (count w.alloc.history) (min size newSize) 0) := by
          unfold World.after
          rw [ha]
        rw [if_neg (by simp), hafter] at hd'
        cases hd'
        refine ⟨?_, ?_, fun x hx => ?_, fun x hx => ?_⟩
        · show src < count s'.history
          omega
        · show count w.alloc.history < count s'.history
          omega
        · rw [f2 x (hold src f1 x hx)]
          exact min_le_left ..
        · change blocks s'.history (count w.alloc.history) = some x at hx
          rw [hblocks, Function.update_self] at hx
          cases hx
          exact le_trans (min_le_right ..) (le_of_eq (f3 c hc).symm)
      | copy src dst n i => cases hcalling
  · -- no room: the call is over
    have hnone : s'.calls t = none := by rw [hcalls, Function.update_self]
    have hafter : World.after w.alloc t spurious d = none := by
      cases d with
      | realloc src size newSize => unfold World.after; rw [ha]
      | _ => rfl
    rw [track_go hd hcalling, ha, hnone, hafter]
    refine h.advance (h.sound.step hs) (fun k => ?_) h.shown (le_of_eq (by rw [hh]))
      (fun k _ x hx => ?_) (hothers _ hcalls) (fun d' hd' => by cases hd')
      (fun c' hc' => by rw [hnone] at hc'; cases hc')
    · rw [hh]
      exact h.regions k
    · rwa [hh] at hx
  · -- once more
    have hsome : s'.calls t = some c' := by rw [hcalls, Function.update_self]
    rw [track_go hd hcalling, ha, hsome]
    refine h.advance (h.sound.step hs) (fun k => ?_) h.shown (le_of_eq (by rw [hh]))
      (fun k _ x hx => ?_) (hothers _ hcalls) (fun d' hd' => ?_) (fun c1 hc1 => ?_)
    · rw [hh]
      exact h.regions k
    · rwa [hh] at hx
    · cases hd'
      refine (h.fits t d hd).mono (le_of_eq (by rw [hh])) (fun k _ x hx => ?_) (fun _ c1 hc1 => ?_)
      · change blocks s'.history k = some x at hx
        rwa [hh] at hx
      · rw [show ({ w with alloc := s' } : World T).alloc.calls t = s'.calls t from rfl, hsome]
          at hc1
        cases hc1
        exact ⟨c, hc, by rw [h2]⟩
    · rw [hsome] at hc1
      cases hc1
      exact ⟨⟨d, rfl, hcalling⟩, h1 ▸ hr⟩

/-- A byte of a block changes, in memory and in the block. -/
theorem Kept.store (h : Kept m w g) {mem : ℕ → UInt8} {k i : ℕ} {o : Option UInt8}
    (hm : (g.heap.put k i o).Shown mem) :
    Kept m { w with mem := mem } { g with heap := g.heap.put k i o } where
  sound := h.sound
  regions k' := (Heap.region_put g.heap k k' i o).trans (h.regions k')
  shown := hm
  fits t d hd := (h.fits t d hd).mono le_rfl (fun _ _ _ hx => hx) (fun _ c hc => ⟨c, hc, rfl⟩)
  calls := h.calls

/-- One byte of `copy_nonoverlapping`, or the end of it. -/
theorem Kept.copyStep (h : Kept m w g) {t : T} {src dst n i : ℕ} {spurious : Bool}
    (hd : w.doing t = some (.copy src dst n i)) (hs : w.copyStep t src dst n i = some w') :
    Kept m w' (track m w (.go t spurious) w' g) := by
  have hcalls : w.alloc.calls t = none :=
    h.calls_eq_none (fun d hd' => by rw [hd] at hd'; cases hd'; rfl)
  obtain ⟨f1, f2, f3, f4⟩ := h.fits t _ hd
  unfold track
  simp only [hd]
  unfold World.copyStep at hs
  split at hs
  · next hi =>
    rw [if_pos hi]
    split at hs
    · next a src' a' dst' hsrc hdst =>
      cases hs
      obtain ⟨bs, hbs, hrs⟩ := h.heap_of_block hsrc
      obtain ⟨bd, hbd, hrd⟩ := h.heap_of_block hdst
      have hm := Heap.Shown.copy h.separate h.shown hbs hbd (i := i)
        (by rw [hrs]; exact lt_of_lt_of_le hi (f3 _ hsrc))
        (by rw [hrd]; exact lt_of_lt_of_le hi (f4 _ hdst))
      rw [hrs, hrd] at hm
      refine (h.store hm).setDoing (fun d hd' => ?_) hcalls
      cases hd'
      exact ⟨f1, f2, f3, f4⟩
    · cases hs
  · next hi =>
    cases hs
    rw [if_neg hi]
    exact h.setDoing (fun d hd' => by cases hd') hcalls

/-- **Every step keeps the blocks.** -/
theorem Kept.step (h : Kept m w g) {a : WorldAct T} (hs : w.step m a = some w') :
    Kept m w' (track m w a w' g) := by
  cases a with
  | setArena t index =>
    simp only [World.step] at hs
    split at hs
    · next hd =>
      cases hs
      refine ⟨h.sound, h.regions, h.shown, fun t' d hd' => ?_, fun t' c hc => ?_⟩
      · exact (h.fits t' d hd').mono le_rfl (fun _ _ _ hx => hx) (fun _ c hc => ⟨c, hc, rfl⟩)
      · obtain ⟨⟨d, h1, h2⟩, h3⟩ := h.calls t' c hc
        have hne : t' ≠ t := by
          rintro rfl
          rw [hd] at h1
          cases h1
        refine ⟨⟨d, h1, h2⟩, ?_⟩
        show Routed (Function.update w.current t index t') c.arena
        rw [Function.update_of_ne hne]
        exact h3
    · cases hs
  | alloc t l =>
    simp only [World.step] at hs
    split at hs
    · exact h.enter (d := .alloc) rfl (fun a ha => .inl ha) (fun _ _ _ => trivial) hs
    · cases hs
  | rocAlloc t l =>
    simp only [World.step] at hs
    split at hs
    · exact h.enter (d := .alloc) rfl (fun a ha => by cases ha; exact .inr rfl)
        (fun _ _ _ => trivial) hs
    · cases hs
  | realloc t src l newSize =>
    simp only [World.step] at hs
    split at hs
    · next hd =>
      obtain ⟨x, hx, hsize⟩ := Option.map_eq_some_iff.mp hd.2
      have hk : Kept m w' g := by
        refine h.enter rfl (fun a ha => .inl ha) (fun s' hh hc => ?_) hs
        refine ⟨?_, fun y hy => ?_, fun c hc' => by rw [hc c hc']⟩
        · show src < count s'.history
          rw [hh]
          exact lt_count hx
        · change blocks s'.history src = some y at hy
          rw [hh] at hy
          rw [← hsize, Option.some.inj (hx.symm.trans hy)]
      exact ⟨hk.sound, hk.regions, hk.shown, hk.fits, hk.calls⟩
    · cases hs
  | go t spurious =>
    simp only [World.step] at hs
    split at hs
    · cases hs
    · next src dst n i hd => exact h.copyStep hd hs
    · next d hne hd =>
      obtain ⟨s', hs', rfl⟩ := Option.map_eq_some_iff.mp hs
      refine h.fetch hd ?_ hs'
      cases d with
      | copy src dst n i => exact absurd rfl (hne src dst n i)
      | _ => rfl
  | write t k i v =>
    simp only [World.step] at hs
    split at hs
    · split at hs
      · next a r hk =>
        split at hs
        · next hi =>
          cases hs
          obtain ⟨b, hb, hr⟩ := h.heap_of_block hk
          have hm := Heap.Shown.put h.separate h.shown hb (i := i) (v := some v) (x := v)
            (by rw [hr]; exact hi) (fun y hy => Option.some.inj hy)
          rw [hr] at hm
          exact h.store hm
        · cases hs
      · cases hs
    · cases hs
  | clear b =>
    obtain ⟨s', hs', rfl⟩ := Option.map_eq_some_iff.mp hs
    have hsound := h.sound.step hs'
    simp only [State.step] at hs'
    split at hs'
    · cases hs'
      refine ⟨hsound, fun k => ?_, h.shown.drop _, fun t d hd => ?_, h.calls⟩
      · show (g.heap.drop (w.inBucket b) k).map _ =
          ((w.block k).filter (fun x => decide (x.1 ≠ .bucket b))).map (fun x => x.2)
        have hr := h.regions k
        cases hx : w.block k with
        | none =>
          rw [hx] at hr
          have hnone : g.heap k = none := Option.map_eq_none_iff.mp hr
          unfold Heap.drop
          rw [hnone]
          split <;> rfl
        | some x =>
          rw [hx] at hr
          unfold Heap.drop World.inBucket
          rw [hx, Option.filter_some]
          by_cases e : x.1 = .bucket b
          · simp [e]
          · simpa [e] using hr
      · refine (h.fits t d hd).mono le_rfl (fun k _ x hx => ?_) (fun _ c hc => ⟨c, hc, rfl⟩)
        exact (Option.filter_eq_some_iff.mp hx).1
    · cases hs'

theorem kept_of_reachable {mem : ℕ → UInt8} {x : World T × Ghost T}
    (h : (blocked m mem).Reachable x) : Kept m x.1 x.2 :=
  h.invariant (I := fun x => Kept m x.1 x.2) (kept_init m mem) (fun s a s' _ hi _ hs => by
    obtain ⟨h1, h2⟩ := Machine.watch_step.mp hs
    rw [h2]
    exact hi.step h1)

/-- A block lies within its arena. -/
theorem Kept.within (h : Kept m w g) {k : ℕ} {a : Arena} {r : Region}
    (hk : w.block k = some (a, r)) :
    m.origin a ≤ r.start ∧ r.start + r.size ≤ m.origin a + m.size a := by
  obtain ⟨l, p, hmem, rfl⟩ := mem_ever (mem_ever_of_live (mem_live hk))
  exact (h.sound.granted a l p hmem).within

/-- An allocation that begins hands out nothing. -/
theorem history_enter {t : T} {l : Layout} {d : Doing} {o : Option Arena}
    (hs : w.enter m t l d o = some w') : w'.alloc.history = w.alloc.history := by
  cases o with
  | none => cases hs; rfl
  | some a =>
    obtain ⟨s', hs', rfl⟩ := Option.map_eq_some_iff.mp hs
    exact (request_cases hs').1

/-- **Where a block comes from**: it was there, or a thread has got it from an arena that the thread
may allocate in. -/
theorem Kept.handed (h : Kept m w g) {a : WorldAct T} (hs : w.step m a = some w') {k : ℕ}
    {x : Arena × Region} (hk : w'.block k = some x) : w.block k = some x ∨
      ∃ t spurious, a = .go t spurious ∧ Routed (w.current t) x.1 := by
  have hkept : w'.alloc.history = w.alloc.history → w.block k = some x := by
    intro he
    unfold World.block at hk
    rwa [he] at hk
  cases a with
  | setArena t index =>
    simp only [World.step] at hs
    split at hs
    · cases hs
      exact .inl hk
    · cases hs
  | alloc t l =>
    simp only [World.step] at hs
    split at hs
    · exact .inl (hkept (history_enter hs))
    · cases hs
  | rocAlloc t l =>
    simp only [World.step] at hs
    split at hs
    · exact .inl (hkept (history_enter hs))
    · cases hs
  | realloc t src l newSize =>
    simp only [World.step] at hs
    split at hs
    · exact .inl (hkept (history_enter hs))
    · cases hs
  | go t spurious =>
    simp only [World.step] at hs
    split at hs
    · cases hs
    · next src dst n i hd =>
      unfold World.copyStep at hs
      split at hs
      · split at hs
        · cases hs
          exact .inl hk
        · cases hs
      · cases hs
        exact .inl hk
    · next d hne hd =>
      obtain ⟨s', hs', rfl⟩ := Option.map_eq_some_iff.mp hs
      obtain ⟨c, hc, ⟨off, -, -, hh⟩ | ⟨-, -, hh⟩ | ⟨-, hh, -⟩⟩ := fetchUpdate_cases hs'
      · change blocks s'.history k = some x at hk
        rw [hh, blocks] at hk
        by_cases e : k = count w.alloc.history
        · -- the new one
          rw [e, Function.update_self] at hk
          cases hk
          exact .inr ⟨t, spurious, rfl, (h.calls t c hc).2⟩
        · rw [Function.update_of_ne e] at hk
          exact .inl hk
      · exact .inl (hkept hh)
      · exact .inl (hkept hh)
  | write t k i v =>
    simp only [World.step] at hs
    split at hs
    · split at hs
      · split at hs
        · cases hs
          exact .inl hk
        · cases hs
      · cases hs
    · cases hs
  | clear b =>
    obtain ⟨s', hs', rfl⟩ := Option.map_eq_some_iff.mp hs
    simp only [State.step] at hs'
    split at hs'
    · cases hs'
      exact .inl (Option.filter_eq_some_iff.mp hk).1
    · cases hs'

/-- **Memory is what the program takes it for.**  However the threads allocate, grow, write and
clear: the blocks of the program are what was handed out and not cleared since, no two of them share
an address, each byte of the flat memory inside a block is the one last written to the block, a block
lies within its arena and stays in it as long as it is there, and a thread gets its blocks in the
arena that its `CURRENT_ARENA` names. -/
theorem blocks_kept (m : Space) (mem : ℕ → UInt8) (x : World T × Ghost T)
    (h : (blocked m mem).Reachable x) :
    (∀ k, (x.2.heap k).map Heap.Block.region = (x.1.block k).map (fun y => y.2)) ∧
    (∀ k k' b b', x.2.heap k = some b → x.2.heap k' = some b' → k ≠ k' →
      Disjoint b.region.bytes b'.region.bytes) ∧
    (∀ k b, x.2.heap k = some b → ∀ i < b.region.size, ∀ v, b.content i = some v →
      x.1.mem (b.region.start + i) = v) ∧
    (∀ k a r, x.1.block k = some (a, r) →
      m.origin a ≤ r.start ∧ r.start + r.size ≤ m.origin a + m.size a) ∧
    (∀ t c, x.1.alloc.calls t = some c → Routed (x.1.current t) c.arena) ∧
    ∀ act x', (blocked m mem).step x act = some x' → ∀ k a r, x'.1.block k = some (a, r) →
      x.1.block k = some (a, r) ∨ ∃ t spurious, act = .go t spurious ∧ Routed (x.1.current t) a := by
  have hk := kept_of_reachable h
  refine ⟨hk.regions, hk.separate, hk.shown, fun k a r hr => hk.within hr,
    fun t c hc => (hk.calls t c hc).2, fun act x' hs k a r hr => ?_⟩
  exact hk.handed (Machine.watch_step.mp hs).1 hr

/-- a thread of bucket 0 writes two bytes and grows its block, a thread of bucket 1 writes
meanwhile -/
def growing : List (WorldAct Bool) :=
  [.setArena false 0, .setArena true 1, .alloc false ⟨2, 1, 0, rfl⟩, .go false false,
    .go false false, .alloc true ⟨8, 8, 3, rfl⟩, .go true false, .go true false,
    .write false 0 0 7, .write false 0 1 9, .realloc false 0 ⟨2, 1, 0, rfl⟩ 4, .go false false,
    .go false false, .go false false, .write true 1 3 5, .go false false]

/-- the end of that run: `realloc` is about to return -/
def grown : World Bool × Ghost Bool := (blocked spaceTwo (fun _ => 0)).final growing

/-- The old and the new block of the `realloc` lie apart. -/
theorem blocks_kept_grown : ∃ b b', grown.2.heap 0 = some b ∧ grown.2.heap 2 = some b' ∧
    Disjoint b.region.bytes b'.region.bytes := by
  obtain ⟨b, hb⟩ : ∃ b, grown.2.heap 0 = some b :=
    Option.isSome_iff_exists.mp (by decide +kernel)
  obtain ⟨b', hb'⟩ : ∃ b', grown.2.heap 2 = some b' :=
    Option.isSome_iff_exists.mp (by decide +kernel)
  exact ⟨b, b', hb, hb', (blocks_kept spaceTwo (fun _ => 0) grown
    (Machine.reachable_final _ _)).2.1 0 2 b b' hb hb' (by decide)⟩

/-! ## `realloc` -/

/-- the block that `realloc` was called on -/
def Doing.src : Doing → Option ℕ
  | .alloc => none
  | .realloc src _ _ => some src
  | .copy src _ _ _ => some src

/-- the block that `realloc` is going to hand out -/
def Doing.dst : Doing → Option ℕ
  | .copy _ dst _ _ => some dst
  | _ => none

/-- who calls `realloc` has the block for itself, and nobody has the new one before it is handed
out -/
def Exclusive (x : World T × Ghost T) : WorldAct T → Prop
  | .write _ k _ _ => ∀ t, ∀ d ∈ x.1.doing t, d.src ≠ some k ∧ d.dst ≠ some k
  | .realloc _ src _ _ => ∀ t, ∀ d ∈ x.1.doing t, d.dst ≠ some src
  | .clear b => ∀ t, ∀ d ∈ x.1.doing t,
      (∀ k ∈ d.src, x.1.inBucket b k = false) ∧ ∀ k ∈ d.dst, x.1.inBucket b k = false
  | _ => True

instance [Fintype T] (x : World T × Ghost T) : ∀ a, Decidable (Exclusive x a)
  | .write _ k _ _ =>
    inferInstanceAs (Decidable (∀ t, ∀ d ∈ x.1.doing t, d.src ≠ some k ∧ d.dst ≠ some k))
  | .realloc _ src _ _ => inferInstanceAs (Decidable (∀ t, ∀ d ∈ x.1.doing t, d.dst ≠ some src))
  | .clear b =>
    inferInstanceAs (Decidable (∀ t, ∀ d ∈ x.1.doing t,
      (∀ k ∈ d.src, x.1.inBucket b k = false) ∧ ∀ k ∈ d.dst, x.1.inBucket b k = false))
  | .setArena .. => isTrue trivial
  | .alloc .. => isTrue trivial
  | .rocAlloc .. => isTrue trivial
  | .go .. => isTrue trivial

/-- how far a `realloc` has come: the old block is as it was, and so are `i` bytes of the new one -/
def Doing.Faithful (g : Ghost T) (t : T) : Doing → Prop
  | .alloc => True
  | .realloc src _ _ => (g.heap src).isSome = true ∧ g.heap.read src = g.snapshot t
  | .copy src dst n i => src ≠ dst ∧ i ≤ n ∧
      (∃ bs bd, g.heap src = some bs ∧ g.heap dst = some bd ∧
        n = min bs.region.size bd.region.size) ∧
      g.heap.read src = g.snapshot t ∧ ∀ j < i, g.heap.read dst j = g.snapshot t j

structure Reallocs (w : World T) (g : Ghost T) : Prop where
  faithful : ∀ t d, w.doing t = some d → d.Faithful g t
  /-- a block that has not been handed out belongs to one `realloc` -/
  own : ∀ t t' d d' k, w.doing t = some d → w.doing t' = some d' → d.dst = some k →
    d'.src ≠ some k ∧ (t' ≠ t → d'.dst ≠ some k)

variable {g' : Ghost T}

/-- Nothing happens to the blocks of a `realloc`. -/
theorem Doing.Faithful.congr {t : T} {d : Doing} (h : d.Faithful g t)
    (hs : g'.snapshot t = g.snapshot t)
    (hh : ∀ k, d.src = some k ∨ d.dst = some k → g'.heap k = g.heap k) : d.Faithful g' t := by
  have hread : ∀ k, g'.heap k = g.heap k → g'.heap.read k = g.heap.read k := by
    intro k hk
    funext j
    unfold Heap.read
    rw [hk]
  cases d with
  | alloc => trivial
  | realloc src size newSize =>
    have hsrc := hh src (.inl rfl)
    refine ⟨by rw [hsrc]; exact h.1, ?_⟩
    rw [hread src hsrc, hs]
    exact h.2
  | copy src dst n i =>
    have hsrc := hh src (.inl rfl)
    have hdst := hh dst (.inr rfl)
    obtain ⟨h1, h2, h3, h4, h5⟩ := h
    refine ⟨h1, h2, ?_, ?_, ?_⟩
    · rw [hsrc, hdst]
      exact h3
    · rw [hread src hsrc, hs]
      exact h4
    · rw [hread dst hdst, hs]
      exact h5

/-- No thread does anything in the allocator. -/
theorem Reallocs.frame (h : Reallocs w g) (hd : w'.doing = w.doing)
    (hs : g'.snapshot = g.snapshot)
    (hh : ∀ t d k, w.doing t = some d → d.src = some k ∨ d.dst = some k →
      g'.heap k = g.heap k) : Reallocs w' g' where
  faithful t d ht := by
    rw [hd] at ht
    exact (h.faithful t d ht).congr (by rw [hs]) (fun k hk => hh t d k ht hk)
  own := by
    rw [hd]
    exact h.own

/-- Thread `t` goes on, with other blocks than those of the other threads. -/
theorem Reallocs.update (h : Reallocs w g) {t : T} {o : Option Doing}
    (hd : w'.doing = Function.update w.doing t o)
    (hothers : ∀ t' d, t' ≠ t → w.doing t' = some d → g'.snapshot t' = g.snapshot t' ∧
      ∀ k, d.src = some k ∨ d.dst = some k → g'.heap k = g.heap k)
    (hnew : ∀ d, o = some d → d.Faithful g' t)
    (hdst : ∀ d k, o = some d → d.dst = some k → d.src ≠ some k ∧
      ∀ t' d', t' ≠ t → w.doing t' = some d' → d'.src ≠ some k ∧ d'.dst ≠ some k)
    (hsrc : ∀ d k, o = some d → d.src = some k →
      ∀ t' d', t' ≠ t → w.doing t' = some d' → d'.dst ≠ some k) : Reallocs w' g' where
  faithful t' d ht := by
    rw [hd] at ht
    by_cases e : t' = t
    · subst e
      rw [Function.update_self] at ht
      exact hnew d ht
    · rw [Function.update_of_ne e] at ht
      obtain ⟨h1, h2⟩ := hothers t' d e ht
      exact (h.faithful t' d ht).congr h1 h2
  own t1 t2 d1 d2 k h1 h2 hk := by
    rw [hd] at h1 h2
    by_cases e1 : t1 = t
    · subst e1
      rw [Function.update_self] at h1
      by_cases e2 : t2 = t1
      · subst e2
        rw [Function.update_self, h1] at h2
        cases h2
        exact ⟨(hdst d1 k h1 hk).1, fun hne => absurd rfl hne⟩
      · rw [Function.update_of_ne e2] at h2
        have := (hdst d1 k h1 hk).2 t2 d2 e2 h2
        exact ⟨this.1, fun _ => this.2⟩
    · rw [Function.update_of_ne e1] at h1
      by_cases e2 : t2 = t
      · subst e2
        rw [Function.update_self] at h2
        exact ⟨fun hs => hsrc d2 k h2 hs t1 d1 e1 h1 hk,
          fun _ hs => ((hdst d2 k h2 hs).2 t1 d1 e1 h1).2 hk⟩
      · rw [Function.update_of_ne e2] at h2
        exact h.own t1 t2 d1 d2 k h1 h2 hk

theorem enter_doing {t : T} {l : Layout} {d : Doing} {o : Option Arena} (h0 : w.doing t = none)
    (hs : w.enter m t l d o = some w') :
    ∃ o', (o' = none ∨ o' = some d) ∧ w'.doing = Function.update w.doing t o' := by
  cases o with
  | none =>
    cases hs
    exact ⟨none, .inl rfl, by rw [← h0, Function.update_eq_self]⟩
  | some a =>
    obtain ⟨s', -, rfl⟩ := Option.map_eq_some_iff.mp hs
    refine ⟨_, ?_, rfl⟩
    split
    · exact .inr rfl
    · exact .inl rfl

/-- `alloc` and `roc_alloc` have no block yet. -/
theorem Reallocs.alloc (h : Reallocs w g) {t : T} {l : Layout} {o : Option Arena}
    (h0 : w.doing t = none) (hs : w.enter m t l .alloc o = some w') : Reallocs w' g := by
  obtain ⟨o', ho, hd⟩ := enter_doing h0 hs
  have ho' : ∀ d, o' = some d → d = .alloc := by
    rintro d rfl
    rcases ho with h1 | h1
    · cases h1
    · exact Option.some.inj h1
  refine h.update hd (fun _ _ _ _ => ⟨rfl, fun _ _ => rfl⟩) (fun d h1 => ?_) (fun d k h1 h2 => ?_)
    (fun d k h1 h2 => ?_) <;> cases ho' d h1
  · trivial
  · cases h2
  · cases h2

/-- Blocks that a thread works on have a number. -/
theorem Kept.lt_count (h : Kept m w g) {t : T} {d : Doing} {k : ℕ} (hd : w.doing t = some d)
    (hk : d.src = some k ∨ d.dst = some k) : k < count w.alloc.history := by
  have hf := h.fits t d hd
  cases d with
  | alloc => rcases hk with h1 | h1 <;> cases h1
  | realloc src size newSize =>
    rcases hk with h1 | h1
    · cases h1; exact hf.1
    · cases h1
  | copy src dst n i =>
    rcases hk with h1 | h1 <;> cases h1
    · exact hf.1
    · exact hf.2.1

/-- One byte is copied, or the copy is handed out. -/
theorem Reallocs.copyStep (h : Reallocs w g) {t : T} {src dst n i : ℕ} {spurious : Bool}
    (hd : w.doing t = some (.copy src dst n i)) (hs : w.copyStep t src dst n i = some w') :
    Reallocs w' (track m w (.go t spurious) w' g) := by
  obtain ⟨hne, hle, ⟨bs, bd, hbs, hbd, hn⟩, hsrc, hdst⟩ := h.faithful t _ hd
  unfold track
  simp only [hd]
  unfold World.copyStep at hs
  split at hs
  · next hi =>
    rw [if_pos hi]
    split at hs
    · cases hs
      refine h.update rfl (fun t' d hne' ht' => ⟨rfl, fun k hk => ?_⟩) (fun d h1 => ?_)
        (fun d k h1 h2 => ?_) (fun d k h1 h2 t' d' hne' ht' => ?_)
      · -- the byte is written to a block of this thread
        refine Heap.put_of_ne ?_
        rintro rfl
        have := h.own t t' _ d k hd ht' rfl
        rcases hk with hk | hk
        · exact this.1 hk
        · exact this.2 hne' hk
      · cases h1
        refine ⟨hne, hi, ⟨bs, bd.put i (g.heap.read src i), ?_, ?_, hn⟩, ?_, fun j hj => ?_⟩
        · exact (Heap.put_of_ne hne).trans hbs
        · show Function.update g.heap dst _ dst = _
          rw [Function.update_self, hbd]
          rfl
        · rw [← hsrc]
          funext j
          exact Heap.read_put_of_ne hne
        · show (g.heap.put dst i _).read dst j = _
          rw [Heap.read_put hbd]
          split
          · next e => rw [e, hsrc]
          · exact hdst j (by omega)
      · cases h1
        cases h2
        refine ⟨fun e => hne (Option.some.inj e), fun t' d' hne' ht' => ?_⟩
        have := h.own t t' _ d' dst hd ht' rfl
        exact ⟨this.1, this.2 hne'⟩
      · cases h1
        exact fun hk => (h.own t' t d' _ k ht' hd hk).1 h2
    · cases hs
  · next hi =>
    cases hs
    rw [if_neg hi]
    exact h.update rfl (fun _ _ _ _ => ⟨rfl, fun _ _ => rfl⟩) (fun d h1 => by cases h1)
      (fun d k h1 => by cases h1) (fun d k h1 => by cases h1)

/-- A call of the allocator goes on; after the allocation of `realloc` the copy begins. -/
theorem Reallocs.fetch (h : Reallocs w g) (hk : Kept m w g) {t : T} {spurious : Bool} {d : Doing}
    {s' : State T} (hd : w.doing t = some d) (hcalling : d.calling = true)
    (hs : w.alloc.step m (.fetchUpdate t spurious) = some s') :
    Reallocs ({ w with alloc := s' }.setDoing t
      (if (s'.calls t).isSome then some d else World.after w.alloc t spurious d))
      (track m w (.go t spurious) w' g) := by
  have hdst : d.dst = none := by
    cases d with
    | copy src dst n i => cases hcalling
    | _ => rfl
  -- the thread keeps its old block, or has none
  have hsame : ∀ {g1 : Ghost T} {o : Option Doing}, g1.snapshot = g.snapshot →
      (∀ k < count w.alloc.history, g1.heap k = g.heap k) → (o = none ∨ o = some d) →
      Reallocs ({ w with alloc := s' }.setDoing t o) g1 := by
    intro g1 o hsnap hheap ho
    have hd' : ∀ d', o = some d' → d' = d := by
      rintro d' rfl
      rcases ho with h1 | h1
      · cases h1
      · exact Option.some.inj h1
    refine h.update rfl (fun t' d' _ ht' => ⟨by rw [hsnap], fun k hk' => hheap k ?_⟩)
      (fun d' h1 => ?_) (fun d' k h1 h2 => ?_) (fun d' k h1 h2 t' d'' hne ht' h3 => ?_)
    · exact hk.lt_count ht' hk'
    · rw [hd' d' h1]
      exact (h.faithful t d hd).congr (by rw [hsnap]) (fun k hk' => hheap k (hk.lt_count hd hk'))
    · rw [hd' d' h1, hdst] at h2
      cases h2
    · rw [hd' d' h1] at h2
      exact (h.own t' t d'' d k ht' hd h3).1 h2
  obtain ⟨c, hc, hcases⟩ := fetchUpdate_cases hs
  rcases hcases with ⟨off, ha, hcalls, hh⟩ | ⟨ha, hcalls, hh⟩ | ⟨ha, hh, c', h1, h2, hcalls⟩
  · have hnone : s'.calls t = none := by rw [hcalls, Function.update_self]
    have hpush : ∀ k < count w.alloc.history, (g.heap.push (count w.alloc.history)
        ⟨m.origin c.arena + off, c.layout.size⟩) k = g.heap k :=
      fun k hlt => Heap.push_of_ne (by omega)
    rw [track_go hd hcalling, ha, hnone, if_neg (by simp)]
    cases d with
    | alloc => exact hsame rfl hpush (.inl rfl)
    | realloc src size newSize =>
      obtain ⟨hsome, hsnap⟩ := h.faithful t _ hd
      obtain ⟨f1, f2, f3⟩ := hk.fits t _ hd
      obtain ⟨bs, hbs⟩ := Option.isSome_iff_exists.mp hsome
      obtain ⟨x, hx, hr⟩ := hk.block_of_heap hbs
      have hafter : World.after w.alloc t spurious (.realloc src size newSize) =
          some (.copy src (count w.alloc.history) (min size newSize) 0) := by
        unfold World.after
        rw [ha]
      rw [hafter]
      refine h.update rfl (fun t' d' _ ht' => ⟨rfl, fun k hk' => hpush k (hk.lt_count ht' hk')⟩)
        (fun d' h1 => ?_) (fun d' k h1 h2 => ?_) (fun d' k h1 h2 t' d'' hne ht' h3 => ?_)
      · cases h1
        refine ⟨by omega, Nat.zero_le _, ⟨bs, .fresh ⟨m.origin c.arena + off, c.layout.size⟩,
          (hpush src f1).trans hbs, Heap.push_self, ?_⟩, ?_, fun j hj => absurd hj (by omega)⟩
        · show min size newSize = min bs.region.size c.layout.size
          rw [← hr, f2 x hx, f3 c hc]
        · refine Eq.trans (funext fun j => ?_) hsnap
          show (g.heap.push _ _ src).bind _ = _
          rw [hpush src f1]
          rfl
      · cases h1
        cases h2
        refine ⟨fun e => absurd (Option.some.inj e) (by omega), fun t' d'' _ ht' =>
          ⟨fun h3 => ?_, fun h3 => ?_⟩⟩
        · exact absurd (hk.lt_count ht' (.inl h3)) (lt_irrefl _)
        · exact absurd (hk.lt_count ht' (.inr h3)) (lt_irrefl _)
      · cases h1
        exact (h.own t' t d'' _ k ht' hd h3).1 h2
    | copy src dst n i => cases hcalling
  · have hnone : s'.calls t = none := by rw [hcalls, Function.update_self]
    have hafter : World.after w.alloc t spurious d = none := by
      cases d with
      | realloc src size newSize => unfold World.after; rw [ha]
      | _ => rfl
    rw [track_go hd hcalling, ha, hnone, hafter]
    exact hsame rfl (fun _ _ => rfl) (.inl rfl)
  · have hsome : s'.calls t = some c' := by rw [hcalls, Function.update_self]
    rw [track_go hd hcalling, ha, hsome]
    exact hsame rfl (fun _ _ => rfl) (.inr rfl)

theorem Reallocs.step (h : Reallocs w g) (hk : Kept m w g) {a : WorldAct T}
    (hex : Exclusive (w, g) a) (hs : w.step m a = some w') :
    Reallocs w' (track m w a w' g) := by
  cases a with
  | setArena t index =>
    simp only [World.step] at hs
    split at hs
    · cases hs; exact h.frame rfl rfl (fun _ _ _ _ _ => rfl)
    · cases hs
  | alloc t l =>
    simp only [World.step] at hs
    split at hs
    · next h0 => exact h.alloc h0 hs
    · cases hs
  | rocAlloc t l =>
    simp only [World.step] at hs
    split at hs
    · next h0 => exact h.alloc h0 hs
    · cases hs
  | realloc t src l newSize =>
    simp only [World.step] at hs
    split at hs
    · next h0 =>
      obtain ⟨x, hx, -⟩ := Option.map_eq_some_iff.mp h0.2
      obtain ⟨b, hb, -⟩ := hk.heap_of_block hx
      obtain ⟨o, ho, hd⟩ := enter_doing h0.1 hs
      have ho' : ∀ d, o = some d → d = .realloc src l.size newSize := by
        rintro d rfl
        rcases ho with h1 | h1
        · cases h1
        · exact Option.some.inj h1
      refine h.update hd (fun t' d hne _ => ⟨Function.update_of_ne hne .., fun _ _ => rfl⟩)
        (fun d h1 => ?_) (fun d k h1 h2 => ?_) (fun d k h1 h2 t' d' _ ht' => ?_) <;> cases ho' d h1
      · have hsome : (g.heap src).isSome = true := by rw [hb]; rfl
        refine ⟨hsome, ?_⟩
        show g.heap.read src = Function.update g.snapshot t (g.heap.read src) t
        rw [Function.update_self]
      · cases h2
      · cases h2
        exact hex t' d' ht'
    · cases hs
  | go t spurious =>
    simp only [World.step] at hs
    split at hs
    · cases hs
    · next src dst n i hd => exact h.copyStep hd hs
    · next d hne hd =>
      obtain ⟨s', hs', rfl⟩ := Option.map_eq_some_iff.mp hs
      refine h.fetch hk hd ?_ hs'
      cases d with
      | copy src dst n i => exact absurd rfl (hne src dst n i)
      | _ => rfl
  | write t k i v =>
    have hdoing : w'.doing = w.doing := by
      simp only [World.step] at hs
      split at hs
      · split at hs
        · split at hs
          · cases hs; rfl
          · cases hs
        · cases hs
      · cases hs
    refine h.frame hdoing rfl (fun t d k' hd hk' => Heap.put_of_ne ?_)
    rintro rfl
    rcases hk' with h1 | h1
    · exact (hex t d hd).1 h1
    · exact (hex t d hd).2 h1
  | clear b =>
    obtain ⟨s', -, rfl⟩ := Option.map_eq_some_iff.mp hs
    refine h.frame rfl rfl (fun t d k hd hk' => ?_)
    have hin : w.inBucket b k = false := by
      rcases hk' with h1 | h1
      · exact (hex t d hd).1 k h1
      · exact (hex t d hd).2 k h1
    show (if w.inBucket b k then none else g.heap k) = g.heap k
    rw [hin]
    rfl

theorem reallocs_of_reach {mem : ℕ → UInt8} {x : World T × Ghost T}
    (h : (blocked m mem).Reach Exclusive x) : Reallocs x.1 x.2 :=
  h.invariant (I := fun x => Reallocs x.1 x.2)
    ⟨fun t d hd => (by cases hd), fun t t' d d' k hd => (by cases hd)⟩
    (fun s a s' hr hi hok hs => by
      have hk := kept_of_reachable hr.reachable
      obtain ⟨h1, h2⟩ := Machine.watch_step.mp hs
      rw [h2]
      exact hi.step hk hok h1)

/-- **`realloc` keeps the content.**  Threads allocate, grow, write and clear in any order, but a
block is left alone while `realloc` works on it.  When `realloc` hands out the new block, the memory
there holds what the old block held when `realloc` was called, up to the smaller of the two sizes;
and the old block, which is never given back, still holds it too. -/
theorem realloc_keeps (m : Space) (mem : ℕ → UInt8) (x : World T × Ghost T)
    (h : (blocked m mem).Reach Exclusive x) (t : T) (src dst n : ℕ)
    (hd : x.1.doing t = some (.copy src dst n n)) :
    ∃ bs bd, x.2.heap src = some bs ∧ x.2.heap dst = some bd ∧
      n = min bs.region.size bd.region.size ∧ Disjoint bs.region.bytes bd.region.bytes ∧
      ∀ j < n, ∀ v, x.2.snapshot t j = some v →
        x.1.mem (bd.region.start + j) = v ∧ x.1.mem (bs.region.start + j) = v := by
  have hk := kept_of_reachable h.reachable
  obtain ⟨hne, -, ⟨bs, bd, hbs, hbd, hn⟩, hsrc, hdst⟩ := (reallocs_of_reach h).faithful t _ hd
  refine ⟨bs, bd, hbs, hbd, hn, hk.separate src dst bs bd hbs hbd hne, fun j hj v hv => ⟨?_, ?_⟩⟩
  · have h1 := hdst j hj
    rw [hv, Heap.read, hbd] at h1
    exact hk.shown dst bd hbd j (by omega) v h1
  · have h1 : x.2.heap.read src j = some v := by rw [hsrc, hv]
    rw [Heap.read, hbs] at h1
    exact hk.shown src bs hbs j (by omega) v h1

/-- Both bytes have arrived. -/
theorem realloc_keeps_grown : ∃ bs bd, grown.2.heap 0 = some bs ∧ grown.2.heap 2 = some bd ∧
    2 = min bs.region.size bd.region.size ∧ Disjoint bs.region.bytes bd.region.bytes ∧
    ∀ j < 2, ∀ v, grown.2.snapshot false j = some v →
      grown.1.mem (bd.region.start + j) = v ∧ grown.1.mem (bs.region.start + j) = v :=
  realloc_keeps spaceTwo (fun _ => 0) grown (Machine.Reach.final (by decide +kernel)) false 0 2 2
    (by decide +kernel)

end

end Allocator
end Nea
