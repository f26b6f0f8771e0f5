import RedFox32.Machine.Pic
import RedFox32.Machine.Stack32

/-!
A 32-bit processor that can return to real mode: segment registers, table registers, and the instructions
on 16-bit registers and 16-bit stacks.  In real mode an address is sixteen times a segment and an offset.
-/

namespace RedFox32.Machine

/-! ### Short words in the memory -/

namespace Mem

/-- The 16-bit words `ws` stand in the memory from `a`. -/
def Holds16 (m : Mem) (a : Word) (ws : List (BitVec 16)) : Prop :=
  ∀ i v, ws[i]? = some v → m.load16 (a + BitVec.ofNat 32 (2 * i)) = v

variable {m m' : Mem} {a b : Word} {ws : List (BitVec 16)} {n : ℕ} {v : BitVec 16}

theorem load16_congr (h0 : m' b = m a) (h1 : m' (b + 1) = m (a + 1)) : m'.load16 b = m.load16 a := by
  unfold load16
  rw [h0, h1]

theorem load16_store16_self (v : BitVec 16) : (m.store16 a v).load16 a = v := by
  have e1 : (a + 1 - a).toNat = 1 := by bv_omega
  unfold load16 store16
  rw [store_inside (by omega), store_inside (by simp), e1, BitVec.sub_self]
  ext i hi
  simp only [BitVec.getElem_append, BitVec.getElem_extractLsb', BitVec.getLsbD_setWidth]
  grind

/-- The word of the same bytes. -/
theorem SameBytes.load32 (h : SameBytes m a m' b n) {i : ℕ} (hi : i + 4 ≤ n) :
    m'.load32 (b + BitVec.ofNat 32 i) = m.load32 (a + BitVec.ofNat 32 i) := by
  refine load32_eq_of_bytes fun j hj => ?_
  rw [byte_load32 j hj, BitVec.add_assoc, BitVec.add_assoc, ← BitVec.ofNat_add]
  exact h (i + j) (by omega)

/-- The short word of the same bytes. -/
theorem SameBytes.load16 (h : SameBytes m a m' b n) {i : ℕ} (hi : i + 2 ≤ n) :
    m'.load16 (b + BitVec.ofNat 32 i) = m.load16 (a + BitVec.ofNat 32 i) := by
  have hnext : ∀ c : Word, c + BitVec.ofNat 32 i + 1 = c + BitVec.ofNat 32 (i + 1) := by
    intro c
    rw [BitVec.ofNat_add, BitVec.add_assoc]
    rfl
  refine load16_congr (h i (by omega)) ?_
  rw [hnext, hnext]
  exact h (i + 1) (by omega)

/-- The words of the same bytes. -/
theorem Holds16.sameBytes (h : Holds16 m a ws) (hsame : SameBytes m a m' b (2 * ws.length)) :
    Holds16 m' b ws := by
  intro i w hw
  have hi : i < ws.length := (List.getElem?_eq_some_iff.1 hw).1
  rw [← h i w hw]
  exact hsame.load16 (by omega)

/-- A short word stored below. -/
theorem Holds16.push (h : Holds16 m a ws) (hlen : 2 * ws.length + 2 ≤ 2 ^ 32) :
    Holds16 (m.store16 (a - 2) v) (a - 2) (v :: ws) := by
  have hap : Apart (a - 2) 2 a (2 * ws.length) := by
    unfold Apart
    constructor <;> bv_omega
  have hrest : Holds16 (m.store16 (a - 2) v) a ws :=
    h.sameBytes fun i hi => store_outside (hap.left_le hi (by omega))
  intro i w hw
  cases i with
  | zero =>
    simp only [List.getElem?_cons_zero, Option.some.injEq] at hw
    subst hw
    simpa using load16_store16_self (m := m) (a := a - 2) v
  | succ i =>
    have e : a - 2 + BitVec.ofNat 32 (2 * (i + 1)) = a + BitVec.ofNat 32 (2 * i) := by bv_omega
    rw [e]
    exact hrest i w hw

/-! ### Changes one after another -/

theorem ChangesOnly.trans {m'' : Mem} (h : ChangesOnly a n m m') (h' : ChangesOnly a n m' m'') :
    ChangesOnly a n m m'' := fun c hc => (h' c hc).trans (h c hc)

/-- A change in a part of an arc. -/
theorem ChangesOnly.inner {i k : ℕ} (h : ChangesOnly (a + BitVec.ofNat 32 i) k m m') (hik : i + k ≤ n)
    (hi : i < 2 ^ 32) : ChangesOnly a n m m' := by
  intro c hc
  exact h c (by bv_omega)

variable {dst src : Word} {k : ℕ}

end Mem

/-- The low half of a register. -/
def lowHalf (r : Word) : BitVec 16 := r.extractLsb' 0 16

/-- The register with another low half. -/
def withLow (r : Word) (v : BitVec 16) : Word := r.extractLsb' 16 16 ++ v

@[simp] theorem lowHalf_withLow (r : Word) (v : BitVec 16) : lowHalf (withLow r v) = v :=
  BitVec.extractLsb'_append_eq_right

/-- `GDTR` or `IDTR`. -/
structure TableRegister where
  limit : BitVec 16
  base : Word
  deriving DecidableEq

/-- The data segment registers. -/
inductive Segment where
  | ds
  | es
  | fs
  | gs
  deriving DecidableEq

/-- The processor with its segment registers, the control register 0, the table registers, and the interrupt
controllers. -/
structure Processor where
  cpu : Cpu
  segments : Segment → BitVec 16
  ss : BitVec 16
  cr0 : Word
  gdtr : TableRegister
  idtr : TableRegister
  pics : PicPair

namespace Processor

variable (s : Processor)

/-- The memory. -/
def mem : Mem := s.cpu.mem

/-- The general registers. -/
def regs : Registers := s.cpu.regs

/-- The memory is replaced. -/
def setMem (m : Mem) : Processor := { s with cpu := { s.cpu with mem := m } }

/-- The general registers are replaced. -/
def setRegs (r : Registers) : Processor := { s with cpu := { s.cpu with regs := r } }

/-- `sp` -/
def sp : BitVec 16 := lowHalf s.regs.esp

/-- `mov sp, v` -/
def setSp (v : BitVec 16) : Processor := s.setRegs { s.regs with esp := withLow s.regs.esp v }

/-- A place on the stack of real mode. -/
def stackAt (offset : BitVec 16) : Word := (s.ss.setWidth 32 <<< 4) + offset.setWidth 32

/-- `push` of 16 bits. -/
def push16 (v : BitVec 16) : Processor :=
  (s.setMem (s.mem.store16 (s.stackAt (s.sp - 2)) v)).setSp (s.sp - 2)

/-- `push` of 32 bits on a 16-bit stack. -/
def push32 (v : Word) : Processor :=
  (s.setMem (s.mem.store32 (s.stackAt (s.sp - 4)) v)).setSp (s.sp - 4)

/-- The stack pointer after a `pop` of `n` bytes. -/
def drop (n : BitVec 16) : Processor := s.setSp (s.sp + n)

/-- `pushad` -/
def pushad : Processor := { s with cpu := s.cpu.pushad }

/-- `popad` -/
def popad : Processor := { s with cpu := s.cpu.popad }

/-- What `lgdt` and `lidt` load; of 16 bits they leave out the highest byte of the base. -/
def tableAt (a : Word) (wide : Bool) : TableRegister :=
  let base := s.mem.load32 (a + 2)
  ⟨s.mem.load16 a, if wide then base else base &&& 0xFFFFFF⟩

/-- What a `pop` leaves: the memory, the stack segment, and the system registers. -/
def system : Mem × BitVec 16 × Word × TableRegister × TableRegister × PicPair :=
  (s.mem, s.ss, s.cr0, s.gdtr, s.idtr, s.pics)

/-! ### Fields -/

section Fields

variable {s : Processor} {m : Mem} {r : Registers} {v : BitVec 16} {w : Word} {on : Bool}

@[simp] theorem sp_setSp : (s.setSp v).sp = v := lowHalf_withLow _ _

theorem stackAt_of_ss (hss : s.ss = 0) (offset : BitVec 16) : s.stackAt offset = offset.setWidth 32 := by
  unfold stackAt
  rw [hss]
  simp

end Fields

/-! ### Table registers in the memory -/

section Tables

variable {s t : Processor} {a b : Word} {r : TableRegister}

/-- The same bytes load the same register. -/
theorem tableAt_congr (h : Mem.SameBytes s.mem a t.mem b 6) (wide : Bool) :
    t.tableAt b wide = s.tableAt a wide := by
  have hlimit := h.load16 (i := 0) (by omega)
  have hbase : t.mem.load32 (b + 2) = s.mem.load32 (a + 2) := h.load32 (i := 2) (by omega)
  rw [BitVec.add_zero, BitVec.add_zero] at hlimit
  unfold tableAt
  rw [hlimit, hbase]

end Tables

/-! ### Pushes one after another -/

/-- **The words `ws` were pushed** since the state `s₀`, on a stack below `0x10000`. -/
structure Stacked (s₀ : Processor) (ws : List (BitVec 16)) : Prop where
  ss : s.ss = 0
  sp : s.sp.toNat + 2 * ws.length = s₀.sp.toNat
  holds : s.mem.Holds16 (s.sp.setWidth 32) ws
  frame : ∀ a, 2 * ws.length ≤ (a - s.sp.setWidth 32).toNat → s.mem a = s₀.mem a

section Stacked

variable {s s₀ : Processor} {ws : List (BitVec 16)} {v : BitVec 16}

/-- **One more push.** -/
theorem Stacked.push16 (h : s.Stacked s₀ ws) (hroom : 2 ≤ s.sp.toNat) :
    (s.push16 v).Stacked s₀ (v :: ws) := by
  obtain ⟨hss, hsp, hholds, hframe⟩ := h
  have hsub : (s.sp - 2).setWidth 32 = s.sp.setWidth 32 - (2 : Word) := by bv_omega
  have hlow : (s.sp - 2).toNat = s.sp.toNat - 2 := by bv_omega
  have hlt := s₀.sp.isLt
  have hsp' : (s.push16 v).sp = s.sp - 2 := sp_setSp
  have hmem : (s.push16 v).mem = s.mem.store16 (s.sp.setWidth 32 - 2) v := by
    show s.mem.store16 (s.stackAt (s.sp - 2)) v = _
    rw [stackAt_of_ss hss, hsub]
  refine ⟨hss, ?_, ?_, fun a ha => ?_⟩
  · rw [hsp', hlow, List.length_cons]
    omega
  · rw [hsp', hmem, hsub]
    exact hholds.push (by omega)
  · rw [hsp', hsub, List.length_cons] at ha
    rw [hmem]
    generalize s.sp.setWidth 32 = x at ha hframe
    have hfar : 2 * ws.length ≤ (a - x).toNat := by bv_omega
    exact (Mem.store_outside (by bv_omega)).trans (hframe a hfar)

end Stacked

end Processor

end RedFox32.Machine
