import RedFox32.Machine.RealMode

/-!
`int32`, which calls an interrupt of the BIOS from protected mode.  It copies itself to `0x7C00`, returns to
real mode with the registers that the caller asks for, and comes back with those that the BIOS left.  The
arithmetic flags are followed where `pushf` reads them.
-/

namespace RedFox32.Old.Int32

open RedFox32.Machine RedFox32.Machine.Mem

/-! ### The data -/

/-- `regs16_t` -/
structure Regs16 where
  di : BitVec 16
  si : BitVec 16
  bp : BitVec 16
  sp : BitVec 16
  bx : BitVec 16
  dx : BitVec 16
  cx : BitVec 16
  ax : BitVec 16
  gs : BitVec 16
  fs : BitVec 16
  es : BitVec 16
  ds : BitVec 16
  ef : BitVec 16
  deriving DecidableEq

/-- The fields in the order of the structure. -/
def Regs16.words (r : Regs16) : List (BitVec 16) :=
  [r.di, r.si, r.bp, r.sp, r.bx, r.dx, r.cx, r.ax, r.gs, r.fs, r.es, r.ds, r.ef]

/-- `INT32_BASE` -/
def int32Base : Word := 0x7C00

/-- `REBASE` -/
def rebase (x : ℕ) : Word := int32Base + BitVec.ofNat 32 x

/-- The code from `reloc` to `int32_end`: where it stands, and the offsets in it of the operand of `int` and
of the data behind the code. -/
structure Block where
  reloc : Word
  ib : ℕ
  stack32Ptr : ℕ
  ib_lt : ib < stack32Ptr
  fits : stack32Ptr + 68 ≤ 0x8400

namespace Block

variable (B : Block)

/-- `idt32_ptr` -/
def idt32Ptr : ℕ := B.stack32Ptr + 4
/-- `gdt32_ptr` -/
def gdt32Ptr : ℕ := B.idt32Ptr + 6
/-- `idt16_ptr` -/
def idt16Ptr : ℕ := B.gdt32Ptr + 6
/-- `gdt16_base` -/
def gdt16Base : ℕ := B.idt16Ptr + 6
/-- `gdt16_ptr` -/
def gdt16Ptr : ℕ := B.gdt16Base + 40
/-- `int32_end` -/
def size : ℕ := B.gdt16Ptr + 6

/-- What the assembler put behind the code: the pointers to the tables of real mode. -/
structure Assembled (m : Mem) : Prop where
  idtLimit : m.load16 (B.reloc + BitVec.ofNat 32 B.idt16Ptr) = 0x03FF
  idtBase : m.load32 (B.reloc + BitVec.ofNat 32 (B.idt16Ptr + 2)) = 0
  gdtLimit : m.load16 (B.reloc + BitVec.ofNat 32 B.gdt16Ptr) = 39
  gdtBase : m.load32 (B.reloc + BitVec.ofNat 32 (B.gdt16Ptr + 2)) = B.reloc + BitVec.ofNat 32 B.gdt16Base

end Block

/-! ### To the BIOS -/

section Code

variable (B : Block) (s : Processor)

/-- The number of the interrupt that is called. -/
def vector : Byte := s.mem (rebase B.ib)

/-! ### From the BIOS -/

end Code

/-! ### The interrupt controllers -/

section Resetpic

variable (s : Processor) (ret : BitVec 16)

end Resetpic

/-! ### The data in the copy -/

section Rebase

theorem rebase_add (x i : ℕ) : rebase x + BitVec.ofNat 32 i = rebase (x + i) := by
  unfold rebase
  rw [BitVec.ofNat_add, BitVec.add_assoc]

end Rebase

variable {B : Block} {s t t' : Processor}

/-- **What the copy keeps** of the 32-bit side `s`: the stack pointer and the table registers, and the
interrupt table of real mode. -/
structure Saved (B : Block) (s t : Processor) : Prop where
  stack : t.mem.load32 (rebase B.stack32Ptr) = s.regs.esp - 32
  idt : t.tableAt (rebase B.idt32Ptr) true = s.idtr
  gdt : t.tableAt (rebase B.gdt32Ptr) true = s.gdtr
  real : t.tableAt (rebase B.idt16Ptr) false = ⟨0x03FF, 0⟩

theorem Saved.congr (h : Saved B s t)
    (hsame : SameBytes t.mem (rebase B.stack32Ptr) t'.mem (rebase B.stack32Ptr) 22) : Saved B s t' := by
  have table : ∀ (i : ℕ) (wide : Bool), i + 6 ≤ 22 →
      t'.tableAt (rebase (B.stack32Ptr + i)) wide = t.tableAt (rebase (B.stack32Ptr + i)) wide := by
    intro i wide hi
    refine Processor.tableAt_congr (fun j hj => ?_) wide
    rw [rebase_add, Nat.add_assoc, ← rebase_add]
    exact hsame (i + j) (by omega)
  have hstack := hsame.load32 (i := 0) (by omega)
  rw [BitVec.add_zero] at hstack
  exact ⟨hstack.trans h.stack, (table 4 true (by omega)).trans h.idt,
    (table 10 true (by omega)).trans h.gdt, (table 16 false (by omega)).trans h.real⟩

/-- The second argument of `int32`. -/
def regsPtr (s : Processor) : Word := s.mem.load32 (s.regs.esp + 8)

/-- The lowest byte that the code uses, below its stack of real mode. -/
def lowBase : Word := 0x7BE0

/-- The stack of real mode and the copy of the code. -/
def Block.lowSize (B : Block) : ℕ := 32 + B.size

/-- What stands on the stack of the caller from its `pusha` on: the registers, the return address, and the
arguments. -/
def frameWords (s : Processor) : List Word :=
  [s.regs.edi, s.regs.esi, s.regs.ebp, s.regs.esp, s.regs.ebx, s.regs.edx, s.regs.ecx, s.regs.eax,
    s.mem.load32 s.regs.esp, s.mem.load32 (s.regs.esp + 4), s.mem.load32 (s.regs.esp + 8)]

/-- **Where `int32` may be called**: in protected mode, with the code, the stack, the structure of the
registers and the low memory apart from each other. -/
structure Placed (B : Block) (s : Processor) : Prop where
  assembled : B.Assembled s.mem
  protectedMode : s.cr0.getLsbD 0 = true
  code_stack : Apart B.reloc B.size (s.regs.esp - 32) 44
  code_low : Apart B.reloc B.size lowBase B.lowSize
  stack_low : Apart (s.regs.esp - 32) 44 lowBase B.lowSize
  struct_stack : Apart (regsPtr s) 26 (s.regs.esp - 32) 44
  struct_low : Apart (regsPtr s) 26 lowBase B.lowSize

/-- The stack of the caller, and the memory outside of the stack and the low memory. -/
structure Kept (B : Block) (s : Processor) (m : Mem) : Prop where
  frame : m.Holds (s.regs.esp - 32) (frameWords s)
  outside : ∀ a, 32 ≤ (a - (s.regs.esp - 32)).toNat → B.lowSize ≤ (a - lowBase).toNat → m a = s.mem a

section Kept

variable {m m' : Mem}

theorem frameWords_length (s : Processor) : (frameWords s).length = 11 := rfl

theorem Placed.frame (h : Placed B s) (hf : m.Holds (s.regs.esp - 32) (frameWords s))
    (hc : ChangesOnly lowBase B.lowSize m m') : m'.Holds (s.regs.esp - 32) (frameWords s) := by
  obtain ⟨hlow, hlow'⟩ := h.stack_low
  refine hf.congr (by rw [frameWords_length]; omega) fun b hb => hc b ?_
  rw [frameWords_length] at hb
  bv_omega

theorem Kept.changes (hk : Kept B s m) (h : Placed B s) (hc : ChangesOnly lowBase B.lowSize m m') :
    Kept B s m' :=
  ⟨h.frame hk.frame hc, fun a ha ha' => (hc a ha').trans (hk.outside a ha ha')⟩

end Kept

/-- **What the BIOS leaves alone** when it goes from `b` to `r`: the copy of the code, the stack of the
caller, and the control register. -/
structure Answers (B : Block) (s b r : Processor) : Prop where
  code : SameBytes b.mem int32Base r.mem int32Base B.size
  stack : SameBytes b.mem (s.regs.esp - 32) r.mem (s.regs.esp - 32) 44
  cr0 : r.cr0 = b.cr0

end RedFox32.Old.Int32
