import Mathlib.Algebra.GroupWithZero.Nat
import Mathlib.Data.Nat.Basic
import Mathlib.Logic.Function.Basic
import Mathlib.Tactic.Common

/-!
# A fragment of x86-64

The registers, a memory of bytes and the carry flag, with the instructions that save and restore a
context need; blocks of them are straight-line and end by giving up control.

* `load`, `store`     words in memory, little-endian;
* `load_store`, `load_store_apart`   what is read after a store, at its cell and at a cell that
                      shares no byte with it;
* `storeFrom`         several words in a row, and what is read after that;
* `Instr.step`, `Exit.step`, `Block.run`   the instructions and the blocks.
-/

namespace X64

abbrev Word := BitVec 64

abbrev Memory := Word → BitVec 8

inductive Reg where
  | rax | rbx | rcx | rdx | rsi | rdi | rbp | rsp
  | r8 | r9 | r10 | r11 | r12 | r13 | r14 | r15
deriving DecidableEq

/-! ## words in memory -/

/-- the number in the `n` bytes from `a` on, the first one least significant -/
def loadBytes (m : Memory) : (n : ℕ) → Word → BitVec (8 * n)
  | 0, _ => 0#0
  | n + 1, a => loadBytes m n (a + 1) ++ m a

def load (m : Memory) (a : Word) : Word := loadBytes m 8 a

def store (m : Memory) (a v : Word) : Memory := fun x =>
  if (x - a).toNat < 8 then v.extractLsb' (8 * (x - a).toNat) 8 else m x

/-- no byte of the cell at `a` is a byte of the cell at `b` -/
def Apart (a b : Word) : Prop := ∀ i < 8, 8 ≤ (a + BitVec.ofNat 64 i - b).toNat

instance (a b : Word) : Decidable (Apart a b) := Nat.decidableBallLT ..

theorem getLsbD_loadBytes (m : Memory) (n : ℕ) (a : Word) (i : ℕ) :
    (loadBytes m n a).getLsbD i =
      (decide (i < 8 * n) && (m (a + BitVec.ofNat 64 (i / 8))).getLsbD (i % 8)) := by
  induction n generalizing a i with
  | zero => simp [loadBytes]
  | succ n ih =>
    rw [loadBytes, BitVec.getLsbD_append]
    by_cases h : i < 8
    · have h0 : i / 8 = 0 := Nat.div_eq_of_lt h
      have h1 : i < 8 * (n + 1) := by omega
      rw [h0, Nat.mod_eq_of_lt h]
      simp [h, h1]
    · have h0 : i / 8 = (i - 8) / 8 + 1 := by omega
      have h1 : (i - 8) % 8 = i % 8 := by omega
      have h2 : a + 1 + BitVec.ofNat 64 ((i - 8) / 8) = a + BitVec.ofNat 64 (i / 8) := by
        rw [h0, BitVec.ofNat_add, BitVec.add_assoc, BitVec.add_comm 1]
        rfl
      have h3 : decide (i - 8 < 8 * n) = decide (i < 8 * (n + 1)) := by
        rw [decide_eq_decide]; omega
      rw [ih, h1, h2, h3, if_neg h]

/-- A word is read from its eight bytes. -/
theorem load_congr {m m' : Memory} {a a' : Word}
    (h : ∀ i < 8, m (a + BitVec.ofNat 64 i) = m' (a' + BitVec.ofNat 64 i)) :
    load m a = load m' a' := by
  refine BitVec.eq_of_getLsbD_eq fun i hi => ?_
  show (loadBytes m 8 a).getLsbD i = (loadBytes m' 8 a').getLsbD i
  rw [getLsbD_loadBytes, getLsbD_loadBytes, h (i / 8) (by omega)]

theorem add_ofNat_sub (a : Word) {i : ℕ} (hi : i < 2^64) :
    (a + BitVec.ofNat 64 i - a).toNat = i := by
  rw [BitVec.add_comm, BitVec.add_sub_cancel, BitVec.toNat_ofNat, Nat.mod_eq_of_lt hi]

@[simp] theorem load_store (m : Memory) (a v : Word) : load (store m a v) a = v := by
  refine BitVec.eq_of_getLsbD_eq fun i hi => ?_
  have hq : i / 8 < 8 := by omega
  show (loadBytes (store m a v) 8 a).getLsbD i = v.getLsbD i
  rw [getLsbD_loadBytes, store, add_ofNat_sub a (by omega), if_pos hq,
    BitVec.getLsbD_extractLsb', Nat.div_add_mod]
  have h1 : i < 8 * 8 := hi
  have h2 : i % 8 < 8 := Nat.mod_lt _ (by omega)
  simp [h1, h2]

/-- A store leaves the other cells as they are. -/
theorem load_store_apart (m : Memory) {a b : Word} (v : Word) (h : Apart a b) :
    load (store m b v) a = load m a :=
  load_congr fun i hi => if_neg (Nat.not_lt.mpr (h i hi))

theorem store_of_le (m : Memory) {a x : Word} (v : Word) (h : 8 ≤ (x - a).toNat) :
    store m a v x = m x := if_neg (Nat.not_lt.mpr h)

theorem load_byte (m : Memory) (a : Word) {i : ℕ} (hi : i < 8) :
    (load m a).extractLsb' (8 * i) 8 = m (a + BitVec.ofNat 64 i) := by
  refine BitVec.eq_of_getLsbD_eq fun j hj => ?_
  have h1 : (load m a).getLsbD (8 * i + j) =
      (decide (8 * i + j < 8 * 8) &&
        (m (a + BitVec.ofNat 64 ((8 * i + j) / 8))).getLsbD ((8 * i + j) % 8)) :=
    getLsbD_loadBytes m 8 a (8 * i + j)
  have hd : (8 * i + j) / 8 = i := by omega
  have hm : (8 * i + j) % 8 = j := by omega
  have hlt : 8 * i + j < 8 * 8 := by omega
  rw [BitVec.getLsbD_extractLsb', h1, hd, hm]
  simp [hj, hlt]

/-- storing what is there -/
theorem store_load (m : Memory) (a : Word) : store m a (load m a) = m := by
  funext x
  unfold store
  split
  · next h =>
    rw [load_byte m a h, BitVec.ofNat_toNat, BitVec.setWidth_eq, BitVec.add_comm,
      BitVec.sub_add_cancel]
  · rfl

theorem store_store (m : Memory) (a v w : Word) : store (store m a v) a w = store m a w := by
  funext x
  unfold store
  split <;> rfl

/-- Cells at different multiples of eight bytes from one base. -/
theorem apart_cells (p : Word) {i j : ℕ} (hi : i < 2^60) (hj : j < 2^60) (hij : i ≠ j) :
    Apart (p + BitVec.ofNat 64 (8 * i)) (p + BitVec.ofNat 64 (8 * j)) := by
  intro k hk
  have h1 : p + BitVec.ofNat 64 (8 * i) + BitVec.ofNat 64 k - (p + BitVec.ofNat 64 (8 * j)) =
      BitVec.ofNat 64 (8 * i + k) - BitVec.ofNat 64 (8 * j) := by
    rw [BitVec.ofNat_add]
    grind
  rw [h1, BitVec.toNat_sub, BitVec.toNat_ofNat, BitVec.toNat_ofNat,
    Nat.mod_eq_of_lt (by omega : 8 * i + k < 2^64), Nat.mod_eq_of_lt (by omega : 8 * j < 2^64)]
  omega

/-- words stored one after the other, the first one at cell `i` from `p` on -/
def storeFrom (m : Memory) (p : Word) : ℕ → List Word → Memory
  | _, [] => m
  | i, v :: l => storeFrom (store m (p + BitVec.ofNat 64 (8 * i)) v) p (i + 1) l

/-- A cell that shares no byte with the cells written. -/
theorem load_storeFrom_apart (m : Memory) {p a : Word} {i : ℕ} {l : List Word}
    (h : ∀ k < l.length, Apart a (p + BitVec.ofNat 64 (8 * (i + k)))) :
    load (storeFrom m p i l) a = load m a := by
  induction l generalizing m i with
  | nil => rfl
  | cons v l ih =>
    have hfirst : Apart a (p + BitVec.ofNat 64 (8 * i)) := h 0 (Nat.succ_pos _)
    rw [storeFrom, ih _ (fun k hk => ?_), load_store_apart _ v hfirst]
    have := h (k + 1) (Nat.succ_lt_succ hk)
    rwa [show i + (k + 1) = i + 1 + k by omega] at this

/-- The words are read where they were stored. -/
theorem load_storeFrom (m : Memory) (p : Word) {i k : ℕ} {l : List Word} {v : Word}
    (hv : l[k]? = some v) (hb : i + l.length < 2^60) :
    load (storeFrom m p i l) (p + BitVec.ofNat 64 (8 * (i + k))) = v := by
  induction l generalizing m i k with
  | nil => cases hv
  | cons w l ih =>
    rw [List.length_cons] at hb
    rw [storeFrom]
    cases k with
    | zero =>
      cases hv
      rw [load_storeFrom_apart, Nat.add_zero, load_store]
      exact fun k hk => apart_cells p (by omega) (by omega) (by omega)
    | succ k =>
      rw [show i + (k + 1) = i + 1 + k by omega]
      exact ih _ hv (by omega)

/-- A byte outside of the cells written. -/
theorem storeFrom_of_le (m : Memory) {p x : Word} {i : ℕ} {l : List Word}
    (h : 8 * (i + l.length) ≤ (x - p).toNat) : storeFrom m p i l x = m x := by
  induction l generalizing m i with
  | nil => rfl
  | cons v l ih =>
    rw [List.length_cons] at h
    rw [storeFrom, ih _ (by omega), store_of_le]
    have hx : (x - (p + BitVec.ofNat 64 (8 * i))).toNat = (x - p).toNat - 8 * i := by
      have : x - (p + BitVec.ofNat 64 (8 * i)) = x - p - BitVec.ofNat 64 (8 * i) := by grind
      have hlt := (x - p).isLt
      rw [this, BitVec.toNat_sub, BitVec.toNat_ofNat, Nat.mod_eq_of_lt (by omega : 8 * i < 2^64)]
      omega
    omega

/-! ## instructions -/

structure State where
  regs : Reg → Word
  mem : Memory
  carry : Bool
  rip : Word

namespace State

def set (s : State) (r : Reg) (v : Word) : State := { s with regs := Function.update s.regs r v }

/-- the lower half of a register -/
@[simp] def low (s : State) (r : Reg) : BitVec 32 := (s.regs r).setWidth 32

/-- writing the lower half clears the upper one -/
@[simp] def setLow (s : State) (r : Reg) (v : BitVec 32) : State := s.set r (v.setWidth 64)

def storeAt (s : State) (a v : Word) : State := { s with mem := store s.mem a v }

def setCarry (s : State) (c : Bool) : State := { s with carry := c }

def goto (s : State) (a : Word) : State := { s with rip := a }

variable (s : State) (r r' : Reg) (v a : Word) (c : Bool)

@[simp] theorem regs_set : (s.set r v).regs r' = if r' = r then v else s.regs r' :=
  Function.update_apply ..
@[simp] theorem mem_set : (s.set r v).mem = s.mem := rfl
@[simp] theorem carry_set : (s.set r v).carry = s.carry := rfl
@[simp] theorem rip_set : (s.set r v).rip = s.rip := rfl
@[simp] theorem regs_storeAt : (s.storeAt a v).regs = s.regs := rfl
@[simp] theorem mem_storeAt : (s.storeAt a v).mem = store s.mem a v := rfl
@[simp] theorem carry_storeAt : (s.storeAt a v).carry = s.carry := rfl
@[simp] theorem rip_storeAt : (s.storeAt a v).rip = s.rip := rfl
@[simp] theorem regs_setCarry : (s.setCarry c).regs = s.regs := rfl
@[simp] theorem mem_setCarry : (s.setCarry c).mem = s.mem := rfl
@[simp] theorem carry_setCarry : (s.setCarry c).carry = c := rfl
@[simp] theorem regs_goto : (s.goto a).regs = s.regs := rfl
@[simp] theorem mem_goto : (s.goto a).mem = s.mem := rfl
@[simp] theorem rip_goto : (s.goto a).rip = a := rfl

end State

inductive Instr where
  /-- `mov [base+disp], src` -/
  | store (base : Reg) (disp : ℕ) (src : Reg)
  /-- `mov dst, [base+disp]` -/
  | load (dst base : Reg) (disp : ℕ)
  /-- `lea dst, [base+disp]` -/
  | lea (dst base : Reg) (disp : ℕ)
  /-- `xor dst, src` on the lower halves -/
  | xor (dst src : Reg)
  /-- `cmp dst, imm` on the lower half -/
  | cmp (dst : Reg) (imm : BitVec 32)
  /-- `adc dst, src` on the lower halves -/
  | adc (dst src : Reg)

@[simp] def State.addr (s : State) (base : Reg) (disp : ℕ) : Word :=
  s.regs base + BitVec.ofNat 64 disp

@[simp] def Instr.step (s : State) : Instr → State
  | .store base disp src => s.storeAt (s.addr base disp) (s.regs src)
  | .load dst base disp => s.set dst (X64.load s.mem (s.addr base disp))
  | .lea dst base disp => s.set dst (s.addr base disp)
  | .xor dst src => (s.setLow dst (s.low dst ^^^ s.low src)).setCarry false
  | .cmp dst imm => s.setCarry ((s.low dst).ult imm)
  | .adc dst src =>
    let c := if s.carry then 1#32 else 0#32
    (s.setLow dst (s.low dst + s.low src + c)).setCarry
      (decide (2^32 ≤ (s.low dst).toNat + (s.low src).toNat + c.toNat))

/-- how a block gives up control -/
inductive Exit where
  | ret
  /-- `jmp [base+disp]` -/
  | jmp (base : Reg) (disp : ℕ)

@[simp] def Exit.step (s : State) : Exit → State
  | .ret => (s.set .rsp (s.regs .rsp + 8)).goto (X64.load s.mem (s.regs .rsp))
  | .jmp base disp => s.goto (X64.load s.mem (s.addr base disp))

structure Block where
  body : List Instr
  exit : Exit

@[simp] def Block.run (b : Block) (s : State) : State := b.exit.step (b.body.foldl Instr.step s)

end X64
