import Mathlib.Data.List.FinRange
import RedFox32.Machine.Bytes

/-!
# The interrupt descriptor table

What `IDT_SetInterruptEntry` writes, what the processor makes of it, and the entry that `RegisterIRQ` of
the second bootloader stage writes for the same function.
-/

namespace RedFox32.Kernel.IDT

open RedFox32.Machine

/-- `IDT_Entry`, which has the same five fields in the bootloader. -/
@[ext] structure IDTEntry where
  offsetLow : BitVec 16
  selector : BitVec 16
  zero : Byte
  typeAttributes : Byte
  offsetHigh : BitVec 16
deriving DecidableEq

/-- The address at which the processor enters the function of a gate. -/
def IDTEntry.offset (e : IDTEntry) : Word := e.offsetHigh ++ e.offsetLow

/-- An entry with all fields zero. -/
def nullEntry : IDTEntry := ⟨0, 0, 0, 0, 0⟩

/-- The entries from `IDT` on, of which the table owns the first 256. -/
abbrev Table := ℕ → IDTEntry

/-- `IDT_SetInterruptEntry`, with the table at `idt`: the address it returns and the table.  The cast binds
more tightly than the shift, so `OffsetHigh` is made from a 16-bit number. -/
def idtSetInterruptEntry (idt : Word) (table : Table) (eid func : Word) : Word × Table :=
  if eid.toNat < 32 then (0, table)
  else
    (idt + 8 * eid,
      Function.update table eid.toNat
        { offsetLow := (func &&& 0x0000FFFF).setWidth 16
          offsetHigh := (((func &&& 0xFFFF0000).setWidth 16).setWidth 32 >>> 16).setWidth 16
          zero := 0
          typeAttributes := 0x8E
          selector := 0x08 })

/-- `RegisterIRQ` of the bootloader. -/
def registerIRQ (table : Table) (interruptID address : Word) : Table :=
  Function.update table interruptID.toNat
    { offsetLow := (address &&& 0xFFFF).setWidth 16
      selector := 0x08
      zero := 0
      typeAttributes := 0x8E
      offsetHigh := ((address &&& 0xFFFF0000) >>> 16).setWidth 16 }

/-- `HANDLER_SYSCALLS`, the entry of the system call. -/
def handlerSyscalls : Word := 0x80

/-- `IDT_Setup`, as far as it fills the table: the stubs of `Interrupts` and `IntSyscallHandler` at their
addresses. -/
def idtSetupTable (idt : Word) (interrupts : Fin 16 → Word) (intSyscallHandler : Word) (table : Table) :
    Table :=
  let table := (List.range' 0 32).foldl (fun t i => Function.update t i nullEntry) table
  let table := (List.finRange 16).foldl
    (fun t (i : Fin 16) =>
      (idtSetInterruptEntry idt t (BitVec.ofNat 32 (32 + i.val)) (interrupts i)).2) table
  let table := (List.range' 48 208).foldl (fun t i => Function.update t i nullEntry) table
  (idtSetInterruptEntry idt table handlerSyscalls intSyscallHandler).2

/-! ### One entry -/

section Entry

variable (func : Word)

theorem setWidth_and_low : (func &&& 0x0000FFFF).setWidth 16 = func.setWidth 16 := by
  ext i hi
  simp only [BitVec.getElem_setWidth, BitVec.getLsbD_and]
  interval_cases i <;> simp

/-- The shift after the cast leaves nothing. -/
theorem setWidth_shift : ((func &&& 0xFFFF0000).setWidth 16).setWidth 32 >>> 16 = 0#32 := by
  ext i hi
  simp only [BitVec.getElem_ushiftRight, BitVec.getLsbD_setWidth]
  simp

theorem setWidth_and_high : ((func &&& 0xFFFF0000) >>> 16).setWidth 16 = func.extractLsb' 16 16 := by
  ext i hi
  simp only [BitVec.getElem_setWidth, BitVec.getLsbD_ushiftRight, BitVec.getLsbD_and,
    BitVec.getElem_extractLsb']
  interval_cases i <;> simp

/-- The entry that is written for `func`: the high half of the address is lost. -/
def lowGate : IDTEntry := ⟨func.setWidth 16, 0x08, 0, 0x8E, 0⟩

theorem setInterruptEntry_eq {eid : Word} (heid : 32 ≤ eid.toNat) (idt : Word) (table : Table) :
    (idtSetInterruptEntry idt table eid func).2 = Function.update table eid.toNat (lowGate func) := by
  unfold idtSetInterruptEntry lowGate
  rw [if_neg (by omega), setWidth_and_low, setWidth_shift]
  rfl

theorem registerIRQ_eq (table : Table) (id : Word) :
    registerIRQ table id func =
      Function.update table id.toNat { lowGate func with offsetHigh := func.extractLsb' 16 16 } := by
  unfold registerIRQ lowGate
  rw [setWidth_and_low, setWidth_and_high]

theorem registerIRQ_offset (table : Table) (id : Word) :
    (registerIRQ table id func id.toNat).offset = func := by
  rw [registerIRQ_eq, Function.update_self]
  unfold IDTEntry.offset lowGate
  ext i hi
  simp only [BitVec.getElem_append]
  grind

theorem extract_high_eq_zero : func.extractLsb' 16 16 = 0 ↔ func.toNat < 0x10000 := by
  rw [← BitVec.toNat_inj, BitVec.extractLsb'_toNat]
  have := func.isLt
  rw [Nat.shiftRight_eq_div_pow]
  simp only [BitVec.ofNat_eq_ofNat, BitVec.toNat_ofNat, Nat.zero_mod]
  omega

end Entry

/-- The processor is led to `func`, the entry is that of `RegisterIRQ`, and the others are as they were. -/
def Installed (table before old : Table) (eid func : Word) : Prop :=
  (table eid.toNat).offset = func ∧ table eid.toNat = registerIRQ old eid func eid.toNat ∧
    ∀ k ≠ eid.toNat, table k = before k

/-- **`IDT_SetInterruptEntry`** does its work exactly for the functions in the first 64 KiB. -/
theorem setInterruptEntry_installed_iff (idt : Word) (table old : Table) (eid func : Word)
    (heid : 32 ≤ eid.toNat) :
    Installed (idtSetInterruptEntry idt table eid func).2 table old eid func ↔
      func.toNat < 0x10000 := by
  have hgate : (idtSetInterruptEntry idt table eid func).2 eid.toNat = lowGate func := by
    rw [setInterruptEntry_eq func heid, Function.update_self]
  have hirq : registerIRQ old eid func eid.toNat =
      { lowGate func with offsetHigh := func.extractLsb' 16 16 } := by
    rw [registerIRQ_eq, Function.update_self]
  rw [← extract_high_eq_zero]
  constructor
  · rintro ⟨-, hagree, -⟩
    rw [hgate, hirq] at hagree
    exact (congrArg IDTEntry.offsetHigh hagree).symm
  · intro hhigh
    have hagree : (idtSetInterruptEntry idt table eid func).2 eid.toNat =
        registerIRQ old eid func eid.toNat := by
      rw [hgate, hirq, hhigh]
      rfl
    refine ⟨?_, hagree, fun k hk => ?_⟩
    · rw [hagree]
      exact registerIRQ_offset func old eid
    · rw [setInterruptEntry_eq func heid]
      exact Function.update_of_ne hk _ _

/-- The stub of the keyboard below 64 KiB. -/
theorem setInterruptEntry_low :
    Installed (idtSetInterruptEntry 0x9000 (fun _ => nullEntry) 33 0x1234).2 (fun _ => nullEntry)
      (fun _ => nullEntry) 33 0x1234 :=
  (setInterruptEntry_installed_iff 0x9000 _ _ 33 0x1234 (by decide)).2 (by decide)

/-- The first function above 64 KiB is entered at address zero. -/
theorem setInterruptEntry_high :
    ¬ Installed (idtSetInterruptEntry 0x9000 (fun _ => nullEntry) 33 0x10000).2 (fun _ => nullEntry)
      (fun _ => nullEntry) 33 0x10000 := by
  rintro ⟨hoffset, -⟩
  exact absurd hoffset (by decide)

/-! ### The whole table -/

section Setup

variable (idt : Word) (interrupts : Fin 16 → Word) (intSyscallHandler : Word) (table : Table)

/-- The entry of a hardware interrupt after `IDT_Setup`. -/
theorem idtSetupTable_hardware (i : Fin 16) :
    idtSetupTable idt interrupts intSyscallHandler table (32 + i) = lowGate (interrupts i) := by
  have hid (j : Fin 16) : (BitVec.ofNat 32 (32 + j.val)).toNat = 32 + j.val := by
    rw [BitVec.toNat_ofNat]
    omega
  have hset (t : Table) (j : Fin 16) :
      (idtSetInterruptEntry idt t (BitVec.ofNat 32 (32 + j.val)) (interrupts j)).2 =
        Function.update t (32 + j.val) (lowGate (interrupts j)) := by
    rw [setInterruptEntry_eq _ (by rw [hid]; omega), hid]
  have hnull (t : Table) :
      (List.range' 48 208).foldl (fun t j => Function.update t j nullEntry) t (32 + i) = t (32 + i) := by
    apply copy_outside
    intro j hj
    have := List.mem_range'_1.1 hj
    omega
  have hplace : Function.Injective fun j : Fin 16 => 32 + j.val := by
    intro j k h
    simpa [Fin.ext_iff] using h
  have hcall : 32 + i.val ≠ handlerSyscalls.toNat := by
    simp [handlerSyscalls]
    omega
  unfold idtSetupTable
  simp only [hset]
  rw [setInterruptEntry_eq _ (by decide), Function.update_of_ne hcall, hnull]
  exact copy_inside hplace (List.mem_finRange i)

/-- **A hardware interrupt** after `IDT_Setup` enters its stub exactly when the stub lies in the first
64 KiB. -/
theorem idtSetupTable_offset_iff (i : Fin 16) :
    (idtSetupTable idt interrupts intSyscallHandler table (32 + i)).offset = interrupts i ↔
      (interrupts i).toNat < 0x10000 := by
  rw [idtSetupTable_hardware, ← BitVec.toNat_inj]
  unfold IDTEntry.offset lowGate
  rw [BitVec.toNat_append]
  simp

end Setup

end RedFox32.Kernel.IDT
