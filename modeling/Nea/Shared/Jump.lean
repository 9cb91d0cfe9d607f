import Nea.Lib.X64

/-!
# `setjmp` and `longjmp` (`shared/src/setjmp_longjmp.rs`)

Before a worker polls a task it calls `setjmp`; out of memory, the application comes back there
through `longjmp`, on the same thread and with a copy of the buffer.  The two functions are written
in assembly, and so they are here.

* `setjmp`, `longjmp`   the two blocks;
* `JumpBuf.read`      the eight words of a buffer in memory;
* `setjmp_spec`, `longjmp_spec`   what each of them does to the registers and to memory;
* `longjmp_resumes`   the second return of `setjmp`.
-/

namespace Nea
open X64

/-- the words of a `JumpBuf` at an address -/
def JumpBuf.read (m : Memory) (p : Word) : List Word :=
  (List.range 8).map (fun i => load m (p + BitVec.ofNat 64 (8 * i)))

def setjmp : Block where
  body :=
    [.store .rdi 0 .rbx,
      .store .rdi 8 .rbp,
      .store .rdi 16 .r12,
      .store .rdi 24 .r13,
      .store .rdi 32 .r14,
      .store .rdi 40 .r15,
      .lea .rdx .rsp 8,
      .store .rdi 48 .rdx,
      .load .rdx .rsp 0,
      .store .rdi 56 .rdx,
      .xor .rax .rax]
  exit := .ret

def longjmp : Block where
  body :=
    [.xor .rax .rax,
      .cmp .rsi 1,
      .adc .rax .rsi,
      .load .rbx .rdi 0,
      .load .rbp .rdi 8,
      .load .r12 .rdi 16,
      .load .r13 .rdi 24,
      .load .r14 .rdi 32,
      .load .r15 .rdi 40,
      .load .rsp .rdi 48]
  exit := .jmp .rdi 56

/-- the registers that a call leaves as they are, `rsp` apart -/
def calleeSaved : List Reg := [.rbx, .rbp, .r12, .r13, .r14, .r15]

/-- what `setjmp` writes: the context of its caller after it has returned -/
def context (s : X64.State) : List Word :=
  calleeSaved.map s.regs ++ [s.regs .rsp + 8, load s.mem (s.regs .rsp)]

/-- the slot of the return address is not part of the buffer -/
def BufferApart (s : X64.State) : Prop :=
  ∀ i < 8, Apart (s.regs .rsp) (s.regs .rdi + BitVec.ofNat 64 (8 * i))

instance (s : X64.State) : Decidable (BufferApart s) := Nat.decidableBallLT ..

/-- The return address is read after seven words of the buffer have been written. -/
theorem load_return {s : X64.State} (h : BufferApart s) (l : List Word) (hl : l.length ≤ 8) :
    load (storeFrom s.mem (s.regs .rdi) 0 l) (s.regs .rsp) = load s.mem (s.regs .rsp) := by
  refine load_storeFrom_apart _ fun k hk => ?_
  rw [Nat.zero_add]
  exact h k (by omega)

/-- **`setjmp` returns 0, and has written the context of its caller into the buffer.** -/
theorem setjmp_spec (s : X64.State) (h : BufferApart s) :
    (setjmp.run s).mem = storeFrom s.mem (s.regs .rdi) 0 (context s) ∧
    (setjmp.run s).rip = load s.mem (s.regs .rsp) ∧
    (setjmp.run s).regs .rsp = s.regs .rsp + 8 ∧
    (setjmp.run s).regs .rax = 0 ∧
    ∀ r, r ≠ .rax → r ≠ .rdx → r ≠ .rsp → (setjmp.run s).regs r = s.regs r := by
  have h7 := load_return h (calleeSaved.map s.regs ++ [s.regs .rsp + 8]) (by simp [calleeSaved])
  have h8 := load_return h (context s) (by simp [context, calleeSaved])
  simp [storeFrom, context, calleeSaved] at h7 h8
  refine ⟨?_, ?_, ?_, ?_, fun r h1 h2 h3 => ?_⟩
  · simp [setjmp, storeFrom, context, calleeSaved, h7]
  · simp [setjmp, h7, h8]
  · simp [setjmp]
  · simp [setjmp]
  · simp [setjmp, h1, h2, h3]

/-- **`longjmp` restores the context in its buffer, and `setjmp` answers `ret` or 1.** -/
theorem longjmp_spec (t : X64.State) :
    (longjmp.run t).mem = t.mem ∧
    (longjmp.run t).regs .rax = (if t.low .rsi = 0 then 1 else t.low .rsi).setWidth 64 ∧
    calleeSaved.map (longjmp.run t).regs ++ [(longjmp.run t).regs .rsp, (longjmp.run t).rip] =
      JumpBuf.read t.mem (t.regs .rdi) := by
  refine ⟨?_, ?_, ?_⟩
  · simp [longjmp]
  · -- the carry says that `ret` is 0
    by_cases hz : t.low .rsi = 0
    · simp only [X64.State.low, BitVec.ofNat_eq_ofNat] at hz
      simp [longjmp, hz]
    · have hpos : (t.low .rsi).ult 1 = false := by
        rw [BitVec.ult_eq_decide, decide_eq_false_iff_not]
        intro h1
        exact hz (BitVec.eq_of_toNat_eq (Nat.lt_one_iff.mp h1))
      simp only [X64.State.low, BitVec.ofNat_eq_ofNat] at hz hpos
      simp [longjmp, hz, hpos]
  · simp [longjmp, calleeSaved, JumpBuf.read, List.range_succ]

theorem JumpBuf.read_storeFrom (m : Memory) (p : Word) {l : List Word} (hl : l.length = 8) :
    JumpBuf.read (storeFrom m p 0 l) p = l := by
  refine List.ext_getElem (by simp [JumpBuf.read, hl]) fun i h1 h2 => ?_
  have := load_storeFrom m p (List.getElem?_eq_getElem h2) (i := 0) (by omega)
  rw [Nat.zero_add] at this
  simpa [JumpBuf.read] using this

/-- **`longjmp` is the second return of `setjmp`.**  Whatever has happened since `setjmp` returned
to its caller, a `longjmp` with a buffer of the same content, wherever this copy is, comes back to
the same instruction with the same stack pointer and the same registers of the caller, and with an
answer that is not the 0 of the first return.  Neither call touches memory outside of the
buffer. -/
theorem longjmp_resumes (s t : X64.State) (h : BufferApart s)
    (hcopy : JumpBuf.read t.mem (t.regs .rdi) =
      JumpBuf.read (setjmp.run s).mem (s.regs .rdi)) :
    ((setjmp.run s).rip = load s.mem (s.regs .rsp) ∧
      (setjmp.run s).regs .rsp = s.regs .rsp + 8 ∧ (setjmp.run s).regs .rax = 0 ∧
      (∀ r ∈ calleeSaved, (setjmp.run s).regs r = s.regs r) ∧
      ∀ x, 64 ≤ (x - s.regs .rdi).toNat → (setjmp.run s).mem x = s.mem x) ∧
    (longjmp.run t).rip = (setjmp.run s).rip ∧
    (longjmp.run t).regs .rsp = (setjmp.run s).regs .rsp ∧
    (∀ r ∈ calleeSaved, (longjmp.run t).regs r = (setjmp.run s).regs r) ∧
    (longjmp.run t).low .rax = (if t.low .rsi = 0 then 1 else t.low .rsi) ∧
    (longjmp.run t).low .rax ≠ (setjmp.run s).low .rax ∧
    (longjmp.run t).mem = t.mem := by
  obtain ⟨hmem, hrip, hrsp, hrax, hregs⟩ := setjmp_spec s h
  obtain ⟨hmem', hrax', hctx⟩ := longjmp_spec t
  have hsaved : ∀ r ∈ calleeSaved, (setjmp.run s).regs r = s.regs r := by
    intro r hr
    refine hregs r ?_ ?_ ?_ <;> (rintro rfl; exact absurd hr (by decide))
  -- the buffer holds the context of the caller of `setjmp`
  rw [hcopy, hmem, JumpBuf.read_storeFrom _ _ (by simp [context, calleeSaved])] at hctx
  obtain ⟨hmap, htail⟩ := List.append_inj hctx (by simp)
  obtain ⟨h1, h2⟩ : (longjmp.run t).regs .rsp = s.regs .rsp + 8 ∧
      (longjmp.run t).rip = load s.mem (s.regs .rsp) := by simpa using htail
  have hret : (longjmp.run t).low .rax = if t.low .rsi = 0 then 1 else t.low .rsi := by
    rw [X64.State.low, hrax']
    exact BitVec.setWidth_setWidth_of_le _ (by decide)
  have hfirst : (setjmp.run s).low .rax = 0 := by
    rw [X64.State.low, hrax]
    rfl
  refine ⟨⟨hrip, hrsp, hrax, hsaved, fun x hx => ?_⟩, h2.trans hrip.symm, h1.trans hrsp.symm,
    fun r hr => ?_, hret, ?_, hmem'⟩
  · rw [hmem]
    exact storeFrom_of_le _ (by simpa [context, calleeSaved] using hx)
  · rw [hsaved r hr]
    exact List.map_inj_left.mp hmap r hr
  · rw [hret, hfirst]
    split
    · decide
    · next hne => exact hne

/-- a caller with its return address at 4096 and a buffer at 8192 -/
def caller : X64.State where
  regs r := match r with
    | .rsp => 4096
    | .rdi => 8192
    | .rbx => 7
    | _ => 0
  mem := store (fun _ => 0) 4096 1234
  carry := false
  rip := 0

/-- later, out of memory: other values in the registers, the buffer where it was -/
def outOfMemory : X64.State where
  regs r := match r with
    | .rdi => 8192
    | .rsi => 1
    | _ => 99
  mem := (setjmp.run caller).mem
  carry := true
  rip := 77

/-- The second return is to the caller of `setjmp`. -/
theorem longjmp_resumes_caller : (longjmp.run outOfMemory).rip = (setjmp.run caller).rip :=
  (longjmp_resumes caller outOfMemory (by decide) rfl).2.1

end Nea
