import RedFox32.Machine.Stack32

/-!
# The entry stubs of `IDTA.asm`

A stub saves the registers, pushes its number, and calls `InterruptHandlerStub(unsigned char ID, struct
Registers32 Regs)`.  The sixteen hardware stubs push the number as a sign-extended byte, which takes one
argument slot of four bytes.  `IntSyscallHandler` pushes a word of two bytes, so the C function finds
the registers two bytes too far.
-/

namespace RedFox32.Kernel.IDT

open RedFox32.Machine

/-! ### The stubs -/

/-- The entry stubs: `Int_n` of the macro `Interrupt`, and `IntSyscallHandler`. -/
inductive Stub where
  | int (n : Fin 16)
  | intSyscallHandler
  deriving DecidableEq

namespace Stub

/-- The number that the stub passes on. -/
def id : Stub → Byte
  | int n => BitVec.ofNat 8 n
  | intSyscallHandler => 0x80

/-- The stub up to its `call`: `push byte n` extends the sign, `push word 0x0080` takes two bytes. -/
def prologue : Stub → Cpu → Cpu
  | int n, s => s.pushad.push32 ((BitVec.ofNat 8 n).signExtend 32)
  | intSyscallHandler, s => s.pushad.push16 0x0080

/-- The stub after its `call`. -/
def epilogue : Stub → Cpu → Cpu
  | int _, s => s.popEax.popad.iretd
  | intSyscallHandler, s => s.popAx.popad.iretd

/-- The processor at the first instruction of `InterruptHandlerStub`; the call pushes the address `ret`. -/
def enter (stub : Stub) (ret : Word) (s : Cpu) : Cpu := (stub.prologue s.interrupt).push32 ret

end Stub

/-! ### The arguments of `InterruptHandlerStub` -/

/-- `ID`: the low byte of the first argument slot. -/
def argID (s : Cpu) : Byte := s.mem (s.regs.esp + 4)

/-- `struct Registers32` at `a`, with the fields in the order of `Registers32.h`. -/
def registers32 (m : Mem) (a : Word) : Registers where
  edi := m.load32 a
  esi := m.load32 (a + 4)
  ebp := m.load32 (a + 8)
  esp := m.load32 (a + 12)
  ebx := m.load32 (a + 16)
  edx := m.load32 (a + 20)
  ecx := m.load32 (a + 24)
  eax := m.load32 (a + 28)

/-- `Regs`: the structure behind the first argument slot. -/
def argRegs (s : Cpu) : Registers := registers32 s.mem (s.regs.esp + 8)

/-- `InterruptHandlerStub` returns to the stub: the return address is popped, and the 48 bytes of its
arguments and of the interrupt frame are what they were (the function assigns to neither parameter). -/
def Returns (s s' : Cpu) : Prop :=
  s'.regs.esp = s.regs.esp + 4 ∧ ∀ a, (a - (s.regs.esp + 4)).toNat < 48 → s'.mem a = s.mem a

/-- A function that only returns. -/
example (s : Cpu) : Returns s { s with regs := { s.regs with esp := s.regs.esp + 4 } } :=
  ⟨rfl, fun _ _ => rfl⟩

/-- The function reads the number of the stub and the saved registers, and after the stub the
interrupted program has its registers and its stack back. -/
def Serves (stub : Stub) (ret : Word) (s : Cpu) : Prop :=
  argID (stub.enter ret s) = stub.id ∧ argRegs (stub.enter ret s) = s.interrupt.regs ∧
    ∀ after, Returns (stub.enter ret s) after → (stub.epilogue after).regs = s.regs

section Frame

variable (stub : Stub) (ret : Word) (s : Cpu)

/-- The address of the saved registers. -/
def saved : Word := s.interrupt.pushad.regs.esp

theorem saved_eq : saved s = s.regs.esp - 44 := by
  unfold saved
  rw [Cpu.pushad_regs, Cpu.interrupt_regs]
  simp [BitVec.sub_sub]

/-- The number of bytes that the stub pushes for its number. -/
def Stub.slot : Stub → ℕ
  | .int _ => 4
  | .intSyscallHandler => 2

/-- The value that the stub pushes for its number. -/
def Stub.pushed : Stub → Word
  | .int n => (BitVec.ofNat 8 n).signExtend 32
  | .intSyscallHandler => (0x0080 : BitVec 16).setWidth 32

theorem Stub.slot_cases : stub.slot = 2 ∨ stub.slot = 4 := by
  cases stub with
  | int n => exact .inr rfl
  | intSyscallHandler => exact .inl rfl

theorem Stub.pushed_low : stub.pushed.extractLsb' 0 8 = stub.id := by
  cases stub with
  | int n =>
    revert n
    decide
  | intSyscallHandler => decide

theorem enter_esp : (stub.enter ret s).regs.esp = saved s - BitVec.ofNat 32 stub.slot - 4 := by
  cases stub <;> rfl

theorem enter_mem : (stub.enter ret s).mem =
    (s.interrupt.pushad.mem.store (saved s - BitVec.ofNat 32 stub.slot) stub.slot stub.pushed).store32
      (saved s - BitVec.ofNat 32 stub.slot - 4) ret := by
  cases stub <;> rfl

/-- The saved registers and the interrupt frame, at the first instruction of the function. -/
theorem enter_holds : (stub.enter ret s).mem.Holds (saved s) s.savedWords := by
  have hslot := stub.slot_cases
  have hlen : 4 * s.savedWords.length ≤ 2 ^ 32 := by simp [Cpu.savedWords]
  rw [enter_mem]
  refine (s.holds_savedWords.store hlen ?_).store hlen ?_
  · show Mem.Apart _ _ (saved s) 44
    unfold Mem.Apart
    constructor <;> bv_omega
  · show Mem.Apart _ _ (saved s) 44
    unfold Mem.Apart
    constructor <;> bv_omega

/-- Every stub passes its number. -/
theorem argID_enter : argID (stub.enter ret s) = stub.id := by
  have hslot := stub.slot_cases
  unfold argID
  have haddr : (stub.enter ret s).regs.esp + 4 = saved s - BitVec.ofNat 32 stub.slot := by
    rw [enter_esp]
    bv_omega
  rw [haddr, enter_mem, Mem.store32, Mem.store_outside (by bv_omega), Mem.store_inside (by bv_omega),
    BitVec.sub_self]
  exact stub.pushed_low

/-- The saved registers are those at the entry of the stub. -/
theorem registers32_eq {m : Mem} {a : Word} (h : m.Holds a s.savedWords) :
    registers32 m a = s.interrupt.regs := by
  rw [Cpu.interrupt_regs]
  have h0 := h 0 _ rfl
  have h1 := h 1 _ rfl
  have h2 := h 2 _ rfl
  have h3 := h 3 _ rfl
  have h4 := h 4 _ rfl
  have h5 := h 5 _ rfl
  have h6 := h 6 _ rfl
  have h7 := h 7 _ rfl
  simp only [Nat.mul_zero, BitVec.add_zero] at h0
  unfold registers32
  rw [Registers.mk.injEq]
  exact ⟨h7, h6, h5, h4, h3, h2, h1, h0⟩

/-- **The end of the stub** gives the interrupted program its registers and its stack. -/
theorem resume_regs {t : Cpu} (hesp : t.regs.esp = saved s) (h : t.mem.Holds (saved s) s.savedWords) :
    t.popad.iretd.regs = s.regs := by
  have hregs := registers32_eq s h
  have hpop : t.popad.regs =
      { registers32 t.mem t.regs.esp with esp := t.regs.esp + 32 } := by
    simp [Cpu.popad, registers32]
  have hiretd : t.popad.iretd.regs = { t.popad.regs with esp := t.popad.regs.esp + 12 } := rfl
  have hback : s.regs.esp - 44#32 + 32#32 + 12#32 = s.regs.esp := by bv_omega
  rw [hiretd, hpop, hesp, hregs, Cpu.interrupt_regs, saved_eq]
  simp [hback]

/-- What the function returns to still holds the saved registers. -/
theorem Returns.holds {after : Cpu} (hret : Returns (stub.enter ret s) after) :
    after.mem.Holds (saved s) s.savedWords := by
  have hslot := stub.slot_cases
  refine (enter_holds stub ret s).congr (by simp [Cpu.savedWords]) fun b hb => hret.2 b ?_
  rw [enter_esp]
  change _ < 44 at hb
  bv_omega

/-- **Every stub restores the registers**, whatever it pushed. -/
theorem epilogue_regs {after : Cpu} (hret : Returns (stub.enter ret s) after) :
    (stub.epilogue after).regs = s.regs := by
  have hholds := hret.holds
  have hesp := hret.1
  rw [enter_esp] at hesp
  cases stub with
  | int n =>
    refine resume_regs s (t := after.popEax) ?_ hholds
    show after.regs.esp + 4 = _
    rw [hesp]
    simp only [Stub.slot]
    bv_omega
  | intSyscallHandler =>
    refine resume_regs s (t := after.popAx) ?_ hholds
    show after.regs.esp + 2 = _
    rw [hesp]
    simp only [Stub.slot]
    bv_omega

end Frame

/-! ### The registers that the function reads -/

section Arguments

variable (ret : Word) (s : Cpu)

/-- A hardware stub passes the saved registers. -/
theorem argRegs_int (n : Fin 16) : argRegs ((Stub.int n).enter ret s) = s.interrupt.regs := by
  have haddr : ((Stub.int n).enter ret s).regs.esp + 8 = saved s := by
    rw [enter_esp]
    simp only [Stub.slot]
    bv_omega
  unfold argRegs
  rw [haddr]
  exact registers32_eq s (enter_holds _ ret s)

/-- The low half of one word and the high half of the word below it. -/
def straddle (w v : Word) : Word := w.setWidth 16 ++ v.extractLsb' 16 16

/-- The words two bytes into a list of words. -/
theorem load32_straddle {m : Mem} {a : Word} {ws : List Word} (h : m.Holds a ws) {i : ℕ} {v w : Word}
    (hv : ws[i]? = some v) (hw : ws[i + 1]? = some w) :
    m.load32 (a + 2 + BitVec.ofNat 32 (4 * i)) = straddle w v := by
  have e1 : a + 2 + BitVec.ofNat 32 (4 * i) = a + BitVec.ofNat 32 (4 * i) + 2 := by bv_omega
  have e2 : a + BitVec.ofNat 32 (4 * i) + 4 = a + BitVec.ofNat 32 (4 * (i + 1)) := by bv_omega
  rw [e1, Mem.load32_add_two, e2, h i v hv, h (i + 1) w hw]
  rfl

/-- **The system call stub** passes the halves of neighbouring registers, and of the saved `EIP`. -/
theorem argRegs_intSyscallHandler :
    argRegs (Stub.intSyscallHandler.enter ret s) =
      { edi := straddle s.regs.esi s.regs.edi
        esi := straddle s.regs.ebp s.regs.esi
        ebp := straddle (s.regs.esp - 12) s.regs.ebp
        esp := straddle s.regs.ebx (s.regs.esp - 12)
        ebx := straddle s.regs.edx s.regs.ebx
        edx := straddle s.regs.ecx s.regs.edx
        ecx := straddle s.regs.eax s.regs.ecx
        eax := straddle s.eip s.regs.eax } := by
  have haddr : (Stub.intSyscallHandler.enter ret s).regs.esp + 8 = saved s + 2 := by
    rw [enter_esp]
    simp only [Stub.slot]
    bv_omega
  have h := enter_holds Stub.intSyscallHandler ret s
  have h0 := load32_straddle h (i := 0) rfl rfl
  simp only [Nat.mul_zero, BitVec.add_zero] at h0
  have h1 := load32_straddle h (i := 1) rfl rfl
  have h2 := load32_straddle h (i := 2) rfl rfl
  have h3 := load32_straddle h (i := 3) rfl rfl
  have h4 := load32_straddle h (i := 4) rfl rfl
  have h5 := load32_straddle h (i := 5) rfl rfl
  have h6 := load32_straddle h (i := 6) rfl rfl
  have h7 := load32_straddle h (i := 7) rfl rfl
  unfold argRegs registers32
  rw [haddr, Registers.mk.injEq]
  exact ⟨h7, h6, h5, h4, h3, h2, h1, h0⟩

theorem straddle_eq_iff (w v : Word) :
    straddle w v = v ↔ v = w.setWidth 16 ++ w.setWidth 16 := by
  unfold straddle
  constructor
  · intro h
    have hhigh : v.extractLsb' 16 16 = w.setWidth 16 := by
      rw [← h]
      exact BitVec.extractLsb'_append_eq_left
    rw [hhigh] at h
    exact h.symm
  · intro h
    have hhigh : v.extractLsb' 16 16 = w.setWidth 16 := by
      rw [h]
      exact BitVec.extractLsb'_append_eq_left
    rw [hhigh]
    exact h.symm

/-- All registers have the same 16-bit half twice, which is also the low half of the saved `EIP`. -/
def SameHalves : Prop :=
  ∃ half : BitVec 16, s.eip.setWidth 16 = half ∧
    ∀ v ∈ [s.regs.edi, s.regs.esi, s.regs.ebp, s.regs.esp - 12, s.regs.ebx, s.regs.edx, s.regs.ecx,
      s.regs.eax], v = half ++ half

/-- The system call stub passes the saved registers exactly when the halves cannot be told apart. -/
theorem argRegs_intSyscallHandler_iff :
    argRegs (Stub.intSyscallHandler.enter ret s) = s.interrupt.regs ↔ SameHalves s := by
  have hlow : ∀ (v : Word) (half : BitVec 16), v = half ++ half → v.setWidth 16 = half := by
    rintro _ half rfl
    exact BitVec.setWidth_append_eq_right
  rw [argRegs_intSyscallHandler, Cpu.interrupt_regs]
  simp only [Registers.mk.injEq, straddle_eq_iff]
  constructor
  · -- from the saved `EIP` upwards, every word repeats the low half of the one above it
    rintro ⟨hax, hcx, hdx, hbx, hsp, hbp, hsi, hdi⟩
    have lax := hlow _ _ hax
    rw [lax] at hcx
    have lcx := hlow _ _ hcx
    rw [lcx] at hdx
    have ldx := hlow _ _ hdx
    rw [ldx] at hbx
    have lbx := hlow _ _ hbx
    rw [lbx] at hsp
    have lsp := hlow _ _ hsp
    rw [lsp] at hbp
    have lbp := hlow _ _ hbp
    rw [lbp] at hsi
    have lsi := hlow _ _ hsi
    rw [lsi] at hdi
    refine ⟨_, rfl, ?_⟩
    simp only [List.forall_mem_cons, List.not_mem_nil, false_imp_iff, implies_true, and_true]
    exact ⟨hdi, hsi, hbp, hsp, hbx, hdx, hcx, hax⟩
  · rintro ⟨half, hip, hall⟩
    simp only [List.forall_mem_cons, List.not_mem_nil, false_imp_iff, implies_true, and_true] at hall
    obtain ⟨hdi, hsi, hbp, hsp, hbx, hdx, hcx, hax⟩ := hall
    rw [hip, hlow _ _ hax, hlow _ _ hcx, hlow _ _ hdx, hlow _ _ hbx, hlow _ _ hsp, hlow _ _ hbp,
      hlow _ _ hsi]
    exact ⟨hax, hcx, hdx, hbx, hsp, hbp, hsi, hdi⟩

end Arguments

/-- **A stub serves its interrupt** exactly when it is a hardware stub, or when all registers repeat
the low half of the saved `EIP`. -/
theorem serves_iff (stub : Stub) (ret : Word) (s : Cpu) :
    Serves stub ret s ↔ stub ≠ .intSyscallHandler ∨ SameHalves s := by
  have hid := argID_enter stub ret s
  have hregs : ∀ after, Returns (stub.enter ret s) after → (stub.epilogue after).regs = s.regs :=
    fun after hret => epilogue_regs stub ret s hret
  cases stub with
  | int n => exact iff_of_true ⟨hid, argRegs_int ret s n, hregs⟩ (.inl (by simp))
  | intSyscallHandler =>
    have hargs := argRegs_intSyscallHandler_iff ret s
    constructor
    · rintro ⟨-, hread, -⟩
      exact .inr (hargs.1 hread)
    · rintro (hne | hsame)
      · exact absurd rfl hne
      · exact ⟨hid, hargs.2 hsame, hregs⟩

/-- A processor that makes a system call with the number 1 in `EAX`. -/
def systemCall : Cpu where
  regs := { eax := 1, ecx := 0, edx := 0, ebx := 0, esp := 0x105000, ebp := 0, esi := 0, edi := 0 }
  eip := 0x10000
  cs := 8
  eflags := 2
  mem := fun _ => 0

/-- **The system call function reads 0** where the program put 1. -/
theorem systemCall_misread : ¬ Serves .intSyscallHandler 0x10100 systemCall := by
  rintro ⟨-, hread, -⟩
  have heax := congrArg Registers.eax hread
  rw [argRegs_intSyscallHandler] at heax
  exact absurd heax (by decide)

end RedFox32.Kernel.IDT
