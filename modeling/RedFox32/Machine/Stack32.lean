import RedFox32.Machine.Bytes

/-!
The stack of a 32-bit processor: the general registers, the instructions that save and restore them,
and the frame of an interrupt without an error code.  The stack grows down and its addresses wrap.
-/

namespace RedFox32.Machine

/-! ### Words in the memory -/

namespace Mem

/-- The words `ws` stand in the memory from `a`. -/
def Holds (m : Mem) (a : Word) (ws : List Word) : Prop :=
  ∀ i v, ws[i]? = some v → m.load32 (a + BitVec.ofNat 32 (4 * i)) = v

variable {m m' : Mem} {a b : Word} {ws : List Word} {n : ℕ} {v : Word}

theorem holds_nil : Holds m a [] := by
  intro i v hv
  simp at hv

/-- Words stay where they are when the memory only changes apart from them. -/
theorem Holds.congr (h : Holds m a ws) (hlen : 4 * ws.length ≤ 2 ^ 32)
    (hm : ∀ b, (b - a).toNat < 4 * ws.length → m' b = m b) : Holds m' a ws := by
  intro i w hw
  have hi : i < ws.length := (List.getElem?_eq_some_iff.1 hw).1
  rw [← h i w hw]
  refine load32_congr fun j hj => hm _ ?_
  bv_omega

theorem Holds.store (h : Holds m a ws) (hlen : 4 * ws.length ≤ 2 ^ 32)
    (hap : Apart b n a (4 * ws.length)) : Holds (m.store b n v) a ws := by
  refine h.congr hlen fun c hc => store_outside ?_
  obtain ⟨h1, h2⟩ := hap
  bv_omega

/-- A word stored below. -/
theorem Holds.push (h : Holds m a ws) (hlen : 4 * ws.length + 4 ≤ 2 ^ 32) :
    Holds (m.store32 (a - 4) v) (a - 4) (v :: ws) := by
  have hap : Apart (a - 4) 4 a (4 * ws.length) := by
    unfold Apart
    constructor <;> bv_omega
  have hrest : Holds (m.store32 (a - 4) v) a ws := h.store (by omega) hap
  intro i w hw
  cases i with
  | zero =>
    simp only [List.getElem?_cons_zero, Option.some.injEq] at hw
    subst hw
    simpa using load32_store32_self (m := m) (a := a - 4) v
  | succ i =>
    have e : a - 4 + BitVec.ofNat 32 (4 * (i + 1)) = a + BitVec.ofNat 32 (4 * i) := by bv_omega
    rw [e]
    exact hrest i w hw

/-- The word two bytes further is made of two halves. -/
theorem load32_add_two (m : Mem) (a : Word) : m.load32 (a + 2) =
    (m.load32 (a + 4)).setWidth 16 ++ (m.load32 a).extractLsb' 16 16 := by
  have e1 : a + 2 + 1 = a + 3 := by bv_omega
  have e2 : a + 2 + 2 = a + 4 := by bv_omega
  have e3 : a + 2 + 3 = a + 4 + 1 := by bv_omega
  unfold load32
  rw [e1, e2, e3]
  ext i hi
  simp only [BitVec.getElem_append, BitVec.getElem_setWidth, BitVec.getElem_extractLsb',
    BitVec.getLsbD_append]
  grind

end Mem

/-! ### Registers and instructions -/

/-- The general registers. -/
structure Registers where
  eax : Word
  ecx : Word
  edx : Word
  ebx : Word
  esp : Word
  ebp : Word
  esi : Word
  edi : Word
  deriving DecidableEq

/-- The processor and its memory. -/
structure Cpu where
  regs : Registers
  eip : Word
  cs : Word
  eflags : Word
  mem : Mem

namespace Cpu

variable (s : Cpu)

/-- Push a 32-bit word. -/
def push32 (v : Word) : Cpu :=
  { s with mem := s.mem.store32 (s.regs.esp - 4) v, regs := { s.regs with esp := s.regs.esp - 4 } }

/-- Push a 16-bit word. -/
def push16 (v : BitVec 16) : Cpu :=
  { s with mem := s.mem.store16 (s.regs.esp - 2) v, regs := { s.regs with esp := s.regs.esp - 2 } }

/-- `pushad` pushes the stack pointer that it found. -/
def pushad : Cpu :=
  let r := s.regs
  ((((((((s.push32 r.eax).push32 r.ecx).push32 r.edx).push32 r.ebx).push32 r.esp).push32 r.ebp).push32
    r.esi).push32 r.edi)

/-- `popad` leaves out the stack pointer that `pushad` saved. -/
def popad : Cpu :=
  let w (i : ℕ) := s.mem.load32 (s.regs.esp + BitVec.ofNat 32 (4 * i))
  { s with regs :=
      { edi := w 0, esi := w 1, ebp := w 2, esp := s.regs.esp + 32, ebx := w 4, edx := w 5,
        ecx := w 6, eax := w 7 } }

/-- `pop eax` -/
def popEax : Cpu :=
  { s with regs := { s.regs with eax := s.mem.load32 s.regs.esp, esp := s.regs.esp + 4 } }

/-- `pop ax` keeps the high half of the register. -/
def popAx : Cpu :=
  { s with regs :=
      { s.regs with
        eax := s.regs.eax.extractLsb' 16 16 ++ s.mem.load16 s.regs.esp
        esp := s.regs.esp + 2 } }

/-- The frame that the processor pushes when it takes an interrupt. -/
def interrupt : Cpu := ((s.push32 s.eflags).push32 s.cs).push32 s.eip

/-- `iretd` -/
def iretd : Cpu :=
  { s with
    eip := s.mem.load32 s.regs.esp
    cs := s.mem.load32 (s.regs.esp + 4)
    eflags := s.mem.load32 (s.regs.esp + 8)
    regs := { s.regs with esp := s.regs.esp + 12 } }

variable {s} in
theorem holds_push32 {ws : List Word} {v : Word} (h : s.mem.Holds s.regs.esp ws)
    (hlen : 4 * ws.length + 4 ≤ 2 ^ 32) :
    (s.push32 v).mem.Holds (s.push32 v).regs.esp (v :: ws) :=
  h.push hlen

/-- The frame of the interrupt, and the registers that `pushad` saves below it. -/
def savedWords : List Word :=
  [s.regs.edi, s.regs.esi, s.regs.ebp, s.regs.esp - 12, s.regs.ebx, s.regs.edx, s.regs.ecx,
    s.regs.eax, s.eip, s.cs, s.eflags]

theorem interrupt_regs : s.interrupt.regs = { s.regs with esp := s.regs.esp - 12 } := by
  simp [interrupt, push32, BitVec.sub_sub]

theorem pushad_regs : s.pushad.regs = { s.regs with esp := s.regs.esp - 32 } := by
  simp [pushad, push32, BitVec.sub_sub]

variable {s} in
theorem holds_pushad {ws : List Word} (h : s.mem.Holds s.regs.esp ws)
    (hlen : 4 * ws.length + 32 ≤ 2 ^ 32) :
    s.pushad.mem.Holds s.pushad.regs.esp (s.regs.edi :: s.regs.esi :: s.regs.ebp :: s.regs.esp ::
      s.regs.ebx :: s.regs.edx :: s.regs.ecx :: s.regs.eax :: ws) := by
  have h1 := holds_push32 (v := s.regs.eax) h (by omega)
  have h2 := holds_push32 (v := s.regs.ecx) h1 (by simp only [List.length_cons]; omega)
  have h3 := holds_push32 (v := s.regs.edx) h2 (by simp only [List.length_cons]; omega)
  have h4 := holds_push32 (v := s.regs.ebx) h3 (by simp only [List.length_cons]; omega)
  have h5 := holds_push32 (v := s.regs.esp) h4 (by simp only [List.length_cons]; omega)
  have h6 := holds_push32 (v := s.regs.ebp) h5 (by simp only [List.length_cons]; omega)
  have h7 := holds_push32 (v := s.regs.esi) h6 (by simp only [List.length_cons]; omega)
  exact holds_push32 (v := s.regs.edi) h7 (by simp only [List.length_cons]; omega)

theorem holds_interrupt : s.interrupt.mem.Holds s.interrupt.regs.esp [s.eip, s.cs, s.eflags] := by
  have h0 : s.mem.Holds s.regs.esp [] := Mem.holds_nil
  have h1 := holds_push32 (v := s.eflags) h0 (by simp)
  have h2 := holds_push32 (v := s.cs) h1 (by simp)
  exact holds_push32 (v := s.eip) h2 (by simp)

/-- **What an interrupt handler finds** after its `pushad`. -/
theorem holds_savedWords :
    s.interrupt.pushad.mem.Holds s.interrupt.pushad.regs.esp s.savedWords := by
  have h := holds_pushad s.holds_interrupt (by simp)
  simp only [interrupt_regs] at h
  exact h

end Cpu

end RedFox32.Machine
