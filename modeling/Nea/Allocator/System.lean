import Nea.Allocator.Arena
import Nea.Lib.Machine
import Nea.Lib.Region
import Mathlib.Logic.Function.Basic

/-!
# The allocator (`shared/src/allocator.rs`)

Any number of threads allocate in the initial arena and in the buckets, and clear buckets.  The
only shared words are the `remaining` of the arenas; `fetch_update` reads one, runs the closure and
tries to swap, and starts again with what it found when the swap fails (also without a reason: it
uses the weak compare-and-swap).

* `Space`             where the arenas lie: what `mmap` and the caller of `initialize_buckets`
                      guarantee;
* `Call`, `step`      one step is one access to `remaining`.  An allocation happens at the swap that
                      wins; what the thread does after that touches nothing shared;
* `live`              the regions of an arena since it was last cleared, from the history;
* `Sound`             the invariant;
* `allocations_disjoint`   the result.
-/

set_option linter.unusedSectionVars false

namespace Nea
namespace Allocator

/-- `INITIAL_ARENA_SIZE` -/
def initialArenaSize : ℕ := 4096 * 128

/-- the addresses that `ServerAlloc` works with, after `initialize_buckets` -/
structure Space where
  /-- address of `initial_arena` -/
  initialArena : ℕ
  /-- what `mmap` answered -/
  ptr : ℕ
  numberOfBuckets : ℕ
  bucketSize : ℕ
  initialArena_aligned : maxSupportedAlign ∣ initialArena
  ptr_aligned : maxSupportedAlign ∣ ptr
  bucketSize_pos : 0 < bucketSize
  bucketSize_dvd : maxSupportedAlign ∣ bucketSize
  no_overflow : numberOfBuckets * bucketSize < 2^64
  /-- `mmap` hands out addresses that are not in use -/
  apart : initialArena + initialArenaSize ≤ ptr ∨ ptr + numberOfBuckets * bucketSize ≤ initialArena

inductive Arena where
  | initial
  | bucket (b : ℕ)
deriving DecidableEq

namespace Space

/-- the start of an arena; for the buckets as `initialize_buckets` computes it -/
def origin (m : Space) : Arena → ℕ
  | .initial => m.initialArena
  | .bucket b => m.ptr + b * m.bucketSize

def size (m : Space) : Arena → ℕ
  | .initial => initialArenaSize
  | .bucket _ => m.bucketSize

/-- the arena exists: `buckets.get(bucket_index)` finds it -/
def has (m : Space) : Arena → Bool
  | .initial => true
  | .bucket b => decide (b < m.numberOfBuckets)

end Space

/-- where a call of `try_alloc_help` is, inside `fetch_update` -/
inductive CallPc where
  /-- the first load of `remaining` is next -/
  | load
  /-- the swap of `prev` for `next` is next -/
  | swap (prev next : ℕ)
deriving DecidableEq

structure Call where
  arena : Arena
  layout : Layout
  /-- the variable that the closure writes -/
  allocated : ℕ
  pc : CallPc

/-- the closure runs on what was found: the swap is next, or the call answers `None` -/
def Call.attempt (c : Call) (prev : ℕ) : Option Call :=
  (carve c.layout prev).map (fun next => { c with allocated := next, pc := .swap prev next })

/-- the history (for statements only; no code reads it) -/
inductive Event where
  | returned (a : Arena) (l : Layout) (p : ℕ)
  | cleared (b : ℕ)

structure State (T : Type) where
  remaining : Arena → ℕ
  calls : T → Option Call
  /-- latest event first -/
  history : List Event

inductive Act (T : Type) where
  | tryAllocateInInitialBucket (t : T) (l : Layout)
  | tryAllocateInBucket (t : T) (l : Layout) (b : ℕ)
  /-- the call of thread `t` goes on; `spurious`: a swap fails without a reason -/
  | fetchUpdate (t : T) (spurious : Bool)
  | clearBucket (b : ℕ)

namespace State
variable {T : Type} [DecidableEq T]

def init (m : Space) : State T := ⟨m.size, fun _ => none, []⟩

def setCall (s : State T) (t : T) (c : Option Call) : State T :=
  { s with calls := Function.update s.calls t c }

/-- `try_alloc_help` up to `fetch_update` -/
def enter (s : State T) (t : T) (a : Arena) (l : Layout) : State T :=
  if l.align > maxSupportedAlign then s else s.setCall t (some ⟨a, l, 0, .load⟩)

/-- the swap succeeds and the call answers with a pointer -/
def win (m : Space) (s : State T) (t : T) (c : Call) (next : ℕ) : State T where
  remaining := Function.update s.remaining c.arena next
  calls := Function.update s.calls t none
  history := .returned c.arena c.layout (m.origin c.arena + c.allocated) :: s.history

/-- the next access of a call to `remaining` -/
def callStep (m : Space) (s : State T) (t : T) (spurious : Bool) (c : Call) : State T :=
  match c.pc with
  | .load => s.setCall t (c.attempt (s.remaining c.arena))
  | .swap prev next =>
    if spurious = false ∧ s.remaining c.arena = prev then s.win m t c next
    else s.setCall t (c.attempt (s.remaining c.arena))

def step (m : Space) (s : State T) : Act T → Option (State T)
  | .tryAllocateInInitialBucket t l =>
    if s.calls t = none then some (s.enter t .initial l) else none
  | .tryAllocateInBucket t l b =>
    if s.calls t = none then
      -- out of range: `None`
      if m.has (.bucket b) then some (s.enter t (.bucket b) l) else some s
    else none
  | .fetchUpdate t spurious => (s.calls t).map (s.callStep m t spurious)
  | .clearBucket b =>
    -- out of range: a panic
    if m.has (.bucket b) then
      some { s with
        remaining := Function.update s.remaining (.bucket b) (m.size (.bucket b))
        history := .cleared b :: s.history }
    else none

end State

def machine {T : Type} [DecidableEq T] (m : Space) : Machine (State T) (Act T) :=
  ⟨State.init m, State.step m⟩

/-! ## what the history says -/

/-- the regions returned from an arena since it was last cleared -/
def live (a : Arena) : List Event → List Region
  | [] => []
  | .returned a' l p :: h => if a' = a then ⟨p, l.size⟩ :: live a h else live a h
  | .cleared b :: h => if .bucket b = a then [] else live a h

/-- all regions that were ever returned from an arena -/
def ever (a : Arena) : List Event → List Region
  | [] => []
  | .returned a' l p :: h => if a' = a then ⟨p, l.size⟩ :: ever a h else ever a h
  | .cleared _ :: h => ever a h

/-- The initial arena is never cleared. -/
theorem live_initial (h : List Event) : live .initial h = ever .initial h := by
  induction h with
  | nil => rfl
  | cons e h ih =>
    cases e with
    | returned a l p =>
      show (if a = .initial then _ else _) = (if a = .initial then _ else _)
      rw [ih]
    | cleared b =>
      show (if Arena.bucket b = .initial then [] else live .initial h) = _
      rw [if_neg (by simp)]
      exact ih

theorem mem_ever {a : Arena} {g : Region} {h : List Event} (hg : g ∈ ever a h) :
    ∃ l p, .returned a l p ∈ h ∧ g = ⟨p, l.size⟩ := by
  induction h with
  | nil => cases hg
  | cons e h ih =>
    cases e with
    | returned a' l p =>
      unfold ever at hg
      split at hg
      · next ha =>
        rcases List.mem_cons.mp hg with rfl | hg
        · exact ⟨l, p, by rw [ha]; exact List.mem_cons_self .., rfl⟩
        · obtain ⟨l', p', h1, h2⟩ := ih hg
          exact ⟨l', p', List.mem_cons_of_mem _ h1, h2⟩
      · obtain ⟨l', p', h1, h2⟩ := ih hg
        exact ⟨l', p', List.mem_cons_of_mem _ h1, h2⟩
    | cleared b =>
      obtain ⟨l', p', h1, h2⟩ := ih hg
      exact ⟨l', p', List.mem_cons_of_mem _ h1, h2⟩

/-! ## where the arenas lie -/

section
variable {m : Space} {a a' : Arena}

/-- Every alignment that is supported divides the start of every arena. -/
theorem Space.align_dvd_origin (m : Space) (a : Arena) {l : Layout}
    (hl : l.align ≤ maxSupportedAlign) : l.align ∣ m.origin a := by
  have h1 : l.align ∣ maxSupportedAlign := by
    obtain ⟨k, hk⟩ := l.align_pow
    rw [hk] at hl ⊢
    exact pow_dvd_pow 2 ((Nat.pow_le_pow_iff_right (by decide)).mp
      (show 2 ^ k ≤ 2 ^ 12 from hl))
  refine dvd_trans h1 ?_
  cases a with
  | initial => exact m.initialArena_aligned
  | bucket b => exact Nat.dvd_add m.ptr_aligned (Dvd.dvd.mul_left m.bucketSize_dvd b)

theorem Space.size_lt (ha : m.has a = true) : m.size a < 2^64 := by
  cases a with
  | initial => show 4096 * 128 < 2^64; decide
  | bucket b =>
    have hb : b < m.numberOfBuckets := of_decide_eq_true ha
    show m.bucketSize < 2^64
    calc m.bucketSize = 1 * m.bucketSize := (Nat.one_mul _).symm
      _ ≤ m.numberOfBuckets * m.bucketSize := Nat.mul_le_mul_right _ (by omega)
      _ < 2^64 := m.no_overflow

/-- a bucket lies in what `mmap` answered -/
theorem Space.bucket_within {b : ℕ} (hb : m.has (.bucket b) = true) :
    m.ptr ≤ m.origin (.bucket b) ∧
      m.origin (.bucket b) + m.bucketSize ≤ m.ptr + m.numberOfBuckets * m.bucketSize := by
  have hlt : b < m.numberOfBuckets := of_decide_eq_true hb
  have hmul : (b + 1) * m.bucketSize ≤ m.numberOfBuckets * m.bucketSize :=
    Nat.mul_le_mul_right _ hlt
  rw [Nat.succ_mul] at hmul
  show m.ptr ≤ m.ptr + b * m.bucketSize ∧ m.ptr + b * m.bucketSize + m.bucketSize ≤ _
  exact ⟨Nat.le_add_right .., by omega⟩

/-- Two arenas lie apart. -/
theorem Space.origin_apart (ha : m.has a = true) (ha' : m.has a' = true) (hne : a ≠ a') :
    m.origin a + m.size a ≤ m.origin a' ∨ m.origin a' + m.size a' ≤ m.origin a := by
  have hap := m.apart
  cases a with
  | initial =>
    cases a' with
    | initial => exact absurd rfl hne
    | bucket b =>
      have := Space.bucket_within ha'
      show m.initialArena + initialArenaSize ≤ _ ∨ _ + m.bucketSize ≤ m.initialArena
      omega
  | bucket b =>
    cases a' with
    | initial =>
      have := Space.bucket_within ha
      show _ + m.bucketSize ≤ m.initialArena ∨ m.initialArena + initialArenaSize ≤ _
      omega
    | bucket b' =>
      show m.ptr + b * m.bucketSize + m.bucketSize ≤ m.ptr + b' * m.bucketSize ∨
        m.ptr + b' * m.bucketSize + m.bucketSize ≤ m.ptr + b * m.bucketSize
      have hmul : ∀ i j, i < j → i * m.bucketSize + m.bucketSize ≤ j * m.bucketSize := by
        intro i j hij
        rw [← Nat.succ_mul]
        exact Nat.mul_le_mul_right _ hij
      have hbb : b ≠ b' := by
        rintro rfl
        exact hne rfl
      rcases Nat.lt_or_gt_of_ne hbb with h | h
      · have := hmul b b' h
        omega
      · have := hmul b' b h
        omega

end

/-! ## the invariant -/

/-- what a call knows: the closure has run on `prev`, and has written what it will swap in -/
structure CallOk (m : Space) (c : Call) : Prop where
  arena : m.has c.arena = true
  align : c.layout.align ≤ maxSupportedAlign
  swap : ∀ prev next, c.pc = .swap prev next →
    c.allocated = next ∧ prev ≤ m.size c.arena ∧ carve c.layout prev = some next

/-- a returned pointer is aligned, and its region lies in its arena -/
structure Granted (m : Space) (a : Arena) (l : Layout) (p : ℕ) : Prop where
  arena : m.has a = true
  aligned : l.align ∣ p
  within : m.origin a ≤ p ∧ p + l.size ≤ m.origin a + m.size a

structure Sound {T : Type} (m : Space) (s : State T) : Prop where
  calls : ∀ t c, s.calls t = some c → CallOk m c
  granted : ∀ a l p, .returned a l p ∈ s.history → Granted m a l p
  /-- the regions since the last clear, from the free part of the arena to its end -/
  stacked : ∀ a, Stacked (m.origin a + m.size a) (m.origin a + s.remaining a) (live a s.history)

section
variable {T : Type} [DecidableEq T] {m : Space} {s s' : State T}

theorem sound_init (m : Space) : Sound m (State.init m : State T) where
  calls t c h := by cases h
  granted a l p h := by cases h
  stacked a := .nil le_rfl

theorem Sound.remaining_le (h : Sound m s) (a : Arena) : s.remaining a ≤ m.size a := by
  have := (h.stacked a).le
  omega

theorem Sound.setCall (h : Sound m s) {t : T} {o : Option Call}
    (ho : ∀ c, o = some c → CallOk m c) : Sound m (s.setCall t o) where
  calls t' c hc := by
    change Function.update s.calls t o t' = some c at hc
    by_cases e : t' = t
    · rw [e, Function.update_self] at hc
      exact ho c hc
    · rw [Function.update_of_ne e] at hc
      exact h.calls t' c hc
  granted := h.granted
  stacked := h.stacked

theorem Sound.enter (h : Sound m s) {t : T} {a : Arena} {l : Layout} (ha : m.has a = true) :
    Sound m (s.enter t a l) := by
  unfold State.enter
  split
  · exact h
  · next hl =>
    refine h.setCall (fun c hc => ?_)
    cases hc
    exact ⟨ha, Nat.le_of_not_lt hl, nofun⟩

/-- The closure runs on a value of `remaining`, and the variable it writes is overwritten. -/
theorem CallOk.attempt {c c' : Call} {prev : ℕ} (h : CallOk m c) (hp : prev ≤ m.size c.arena)
    (hc : c.attempt prev = some c') : CallOk m c' := by
  obtain ⟨next, hn, rfl⟩ := Option.map_eq_some_iff.mp hc
  refine ⟨h.arena, h.align, ?_⟩
  intro prev' next' hpc
  cases hpc
  exact ⟨rfl, hp, hn⟩

/-- **The swap that wins carves a region off the free part of the arena.** -/
theorem Sound.win (h : Sound m s) {t : T} {c : Call} {next : ℕ} (hc : CallOk m c)
    (hpc : c.pc = .swap (s.remaining c.arena) next) : Sound m (s.win m t c next) := by
  obtain ⟨ha, hle, hcarve⟩ := hc.swap _ _ hpc
  have hlt := Space.size_lt hc.arena
  obtain ⟨hdvd, hsum⟩ := carve_eq_some (by omega) hc.align hcarve
  have horigin := m.align_dvd_origin c.arena hc.align
  constructor
  · intro t' c' hc'
    change Function.update s.calls t none t' = some c' at hc'
    by_cases e : t' = t
    · rw [e, Function.update_self] at hc'
      cases hc'
    · rw [Function.update_of_ne e] at hc'
      exact h.calls t' c' hc'
  · intro a l p hmem
    rcases List.mem_cons.mp hmem with heq | hmem
    · cases heq
      rw [ha]
      exact ⟨hc.arena, Nat.dvd_add horigin hdvd, Nat.le_add_right .., by omega⟩
    · exact h.granted a l p hmem
  · intro a
    show Stacked _ (m.origin a + Function.update s.remaining c.arena next a)
      (if c.arena = a then _ else _)
    by_cases e : a = c.arena
    · subst e
      rw [Function.update_self, if_pos rfl, ha]
      refine (h.stacked c.arena).push (g := ⟨m.origin c.arena + next, c.layout.size⟩) ?_
      show m.origin c.arena + next + c.layout.size ≤ _
      omega
    · rw [Function.update_of_ne e, if_neg (Ne.symm e)]
      exact h.stacked a

theorem Sound.callStep (h : Sound m s) {t : T} {spurious : Bool} {c : Call} (hc : CallOk m c) :
    Sound m (s.callStep m t spurious c) := by
  have hretry : Sound m (s.setCall t (c.attempt (s.remaining c.arena))) :=
    h.setCall (fun c' hc' => hc.attempt (h.remaining_le c.arena) hc')
  unfold State.callStep
  split
  · exact hretry
  · next prev next hpc =>
    split
    · next hwin => exact h.win hc (hwin.2 ▸ hpc)
    · exact hretry

/-- **Every step keeps the arenas sound.** -/
theorem Sound.step (h : Sound m s) {a : Act T} (hs : s.step m a = some s') : Sound m s' := by
  cases a with
  | tryAllocateInInitialBucket t l =>
    simp only [State.step] at hs
    split at hs
    · cases hs; exact h.enter rfl
    · cases hs
  | tryAllocateInBucket t l b =>
    simp only [State.step] at hs
    split at hs
    · split at hs
      · next hb => cases hs; exact h.enter hb
      · cases hs; exact h
    · cases hs
  | fetchUpdate t spurious =>
    obtain ⟨c, hc, rfl⟩ := Option.map_eq_some_iff.mp hs
    exact h.callStep (h.calls t c hc)
  | clearBucket b =>
    simp only [State.step] at hs
    split at hs
    · cases hs
      refine ⟨h.calls, fun a l p hmem => ?_, fun a => ?_⟩
      · rcases List.mem_cons.mp hmem with heq | hmem
        · cases heq
        · exact h.granted a l p hmem
      · show Stacked _ (m.origin a + Function.update s.remaining (.bucket b) _ a)
          (if Arena.bucket b = a then [] else live a s.history)
        by_cases e : a = .bucket b
        · subst e
          rw [Function.update_self, if_pos rfl]
          exact .nil le_rfl
        · rw [Function.update_of_ne e, if_neg (Ne.symm e)]
          exact h.stacked a
    · cases hs

theorem sound_of_reachable (h : (machine m).Reachable s) : Sound m s :=
  h.invariant (sound_init m) (fun _ _ _ _ hi _ hs => hi.step hs)

/-- **Allocations are aligned, stay inside their arena and never overlap.**  In every reachable
state: each pointer that was ever returned is a multiple of its alignment, and its region lies in
its arena; the regions returned from an arena since it was last cleared are pairwise disjoint, those
of the initial arena ever; and regions of two arenas are disjoint, whenever they were returned. -/
theorem allocations_disjoint (m : Space) (s : State T) (h : (machine m).Reachable s) :
    (∀ a l p, .returned a l p ∈ s.history →
      l.align ∣ p ∧ m.origin a ≤ p ∧ p + l.size ≤ m.origin a + m.size a) ∧
    (∀ a, (live a s.history).Pairwise (fun g g' => Disjoint g.bytes g'.bytes)) ∧
    (ever .initial s.history).Pairwise (fun g g' => Disjoint g.bytes g'.bytes) ∧
    (∀ a a', a ≠ a' → ∀ g ∈ ever a s.history, ∀ g' ∈ ever a' s.history,
      Disjoint g.bytes g'.bytes) := by
  have hi := sound_of_reachable h
  refine ⟨fun a l p hmem => ?_, fun a => (hi.stacked a).pairwise, ?_, ?_⟩
  · have hg := hi.granted a l p hmem
    exact ⟨hg.aligned, hg.within⟩
  · rw [← live_initial]
    exact (hi.stacked .initial).pairwise
  · intro a a' hne g hg g' hg'
    obtain ⟨l, p, hmem, rfl⟩ := mem_ever hg
    obtain ⟨l', p', hmem', rfl⟩ := mem_ever hg'
    have h1 := hi.granted a l p hmem
    have h2 := hi.granted a' l' p' hmem'
    have hw1 := h1.within
    have hw2 := h2.within
    rcases Space.origin_apart h1.arena h2.arena hne with hap | hap
    · apply Region.disjoint_of_le
      show p + l.size ≤ p'
      omega
    · apply Disjoint.symm
      apply Region.disjoint_of_le
      show p' + l'.size ≤ p
      omega

/-- two buckets of a page -/
def spaceTwo : Space where
  initialArena := 4096
  ptr := 4096 * 200
  numberOfBuckets := 2
  bucketSize := 4096
  initialArena_aligned := by decide
  ptr_aligned := by decide
  bucketSize_pos := by decide
  bucketSize_dvd := by decide
  no_overflow := by decide
  apart := by decide

/-- Two threads race for bucket 0; the loser tries again below the winner. -/
theorem allocations_disjoint_race : (live (.bucket 0) ((machine (T := Fin 2) spaceTwo).final
    [.tryAllocateInBucket 0 ⟨100, 8, 3, rfl⟩ 0, .tryAllocateInBucket 1 ⟨24, 16, 4, rfl⟩ 0,
      .fetchUpdate 0 false, .fetchUpdate 1 false, .fetchUpdate 0 false, .fetchUpdate 1 false,
      .fetchUpdate 1 false]).history).Pairwise (fun g g' => Disjoint g.bytes g'.bytes) :=
  (allocations_disjoint spaceTwo _ (Machine.reachable_final _ _)).2.1 (.bucket 0)

end

end Allocator
end Nea
