import Mathlib.Data.Finset.Max
import Mathlib.Data.Fintype.Basic
import RedFox32.Machine.Bytes

/-!
The 8259 interrupt controller, and two of them in cascade: the words of the initialisation, the mask, and
the in-service register in the fully nested mode.  A line is accepted when no line of the same or a higher
priority is in service, and a non-specific end of interrupt ends the one with the highest priority.
Requests that go away before they are acknowledged are not followed.
-/

namespace RedFox32.Machine

/-! ### One controller -/

/-- What the data port takes next: the mask, or a word of the initialisation.  The first word has said
whether there is only one controller, and whether a fourth word comes. -/
inductive PicExpects where
  | mask
  | icw2 (single fourth : Bool)
  | icw3 (fourth : Bool)
  | icw4
  deriving DecidableEq

/-- The registers of a controller; line 0 has the highest priority. -/
structure Pic8259 where
  expects : PicExpects
  base : Byte
  cascade : Byte
  mode : Byte
  mask : Byte
  inService : Finset (Fin 8)

namespace Pic8259

variable (c : Pic8259)

/-- The non-specific end of interrupt. -/
def endOfInterrupt : Pic8259 :=
  if h : c.inService.Nonempty then { c with inService := c.inService.erase (c.inService.min' h) } else c

/-- A byte written to the command port: the first word of an initialisation, or an end of interrupt.  The
other commands, which read registers and rotate priorities, are not followed. -/
def command (v : Byte) : Pic8259 :=
  if v &&& 0x10 ≠ 0 then
    { c with
      expects := .icw2 (v &&& 0x02 ≠ 0) (v &&& 0x01 ≠ 0)
      mask := 0
      mode := if v &&& 0x01 = 0 then 0 else c.mode }
  else if v &&& 0x08 ≠ 0 then c
  else if v &&& 0xE0 = 0x20 then c.endOfInterrupt
  else c

/-- A byte written to the data port. -/
def data (v : Byte) : Pic8259 :=
  match c.expects with
  | .mask => { c with mask := v }
  | .icw2 single fourth =>
    { c with
      base := v &&& 0xF8
      expects := if single then if fourth then .icw4 else .mask else .icw3 fourth }
  | .icw3 fourth => { c with cascade := v, expects := if fourth then .icw4 else .mask }
  | .icw4 => { c with mode := v, expects := .mask }

/-- A request of the line is accepted. -/
def Accepts (line : Fin 8) : Prop :=
  c.expects = .mask ∧ c.mask.getLsbD line = false ∧ ∀ j ∈ c.inService, line < j

/-- The line goes into service. -/
def acknowledge (line : Fin 8) : Pic8259 := { c with inService := insert line c.inService }

/-- The number that the processor is given for the line. -/
def vector (line : Fin 8) : Byte := c.base + BitVec.ofNat 8 line

/-! ### The lines in service -/

/-- **The lines served**, the last one accepted first: they are the lines in service, and each has a higher
priority than those it interrupted. -/
structure Serving (lines : List (Fin 8)) : Prop where
  inService : c.inService = lines.toFinset
  sorted : lines.Pairwise (· < ·)

variable {c} {line : Fin 8} {lines : List (Fin 8)}

theorem Serving.acknowledge (h : c.Serving lines) (ha : c.Accepts line) :
    (c.acknowledge line).Serving (line :: lines) := by
  obtain ⟨-, -, hlt⟩ := ha
  refine ⟨?_, List.pairwise_cons.2 ⟨fun j hj => hlt j ?_, h.sorted⟩⟩
  · rw [List.toFinset_cons, ← h.inService]
    rfl
  · rw [h.inService]
    exact List.mem_toFinset.2 hj

/-- **An end of interrupt** ends the line that was accepted last. -/
theorem Serving.endOfInterrupt (h : c.Serving (line :: lines)) : c.endOfInterrupt.Serving lines := by
  obtain ⟨hin, hsorted⟩ := h
  obtain ⟨hlt, hrest⟩ := List.pairwise_cons.1 hsorted
  have hmem : line ∈ c.inService := by
    rw [hin]
    simp
  have hmin : c.inService.min' ⟨line, hmem⟩ = line := by
    refine le_antisymm (Finset.min'_le _ _ hmem) (Finset.le_min' _ _ _ fun j hj => ?_)
    rw [hin, List.toFinset_cons, Finset.mem_insert, List.mem_toFinset] at hj
    rcases hj with rfl | hj
    · exact le_refl _
    · exact le_of_lt (hlt j hj)
  have hnot : line ∉ lines.toFinset := by
    intro hline
    exact absurd (hlt line (List.mem_toFinset.1 hline)) (lt_irrefl line)
  refine ⟨?_, hrest⟩
  unfold Pic8259.endOfInterrupt
  rw [dif_pos ⟨line, hmem⟩]
  dsimp only
  rw [hmin, hin, List.toFinset_cons, Finset.erase_insert hnot]

/-- An end of interrupt with no line in service. -/
theorem Serving.endOfInterrupt_nil (h : c.Serving []) : c.endOfInterrupt.Serving [] := by
  have hempty : ¬ c.inService.Nonempty := by
    rw [h.inService]
    simp
  unfold Pic8259.endOfInterrupt
  rw [dif_neg hempty]
  exact h

end Pic8259

/-! ### Two controllers -/

/-- The slave is on the line 2 of the master. -/
structure PicPair where
  master : Pic8259
  slave : Pic8259

namespace PicPair

variable (p : PicPair)

/-- A byte written to a port. -/
def out (port : BitVec 16) (v : Byte) : PicPair :=
  if port = 0x20 then { p with master := p.master.command v }
  else if port = 0x21 then { p with master := p.master.data v }
  else if port = 0xA0 then { p with slave := p.slave.command v }
  else if port = 0xA1 then { p with slave := p.slave.data v }
  else p

/-- Bytes written one after another. -/
def outs (es : List (BitVec 16 × Byte)) : PicPair := es.foldl (fun p e => p.out e.1 e.2) p

/-- The line of the master that a hardware interrupt uses. -/
def masterLine (irq : Fin 16) : Fin 8 := if h : irq.val < 8 then ⟨irq.val, h⟩ else 2

/-- The line of the slave that a hardware interrupt uses, if it does. -/
def slaveLine (irq : Fin 16) : Option (Fin 8) :=
  if h : 8 ≤ irq.val then some ⟨irq.val - 8, by omega⟩ else none

/-- The interrupt reaches the processor: each controller on its way accepts it.  The line 2 of the master
has no device of its own. -/
def Accepts (irq : Fin 16) : Prop :=
  irq.val ≠ 2 ∧ p.master.Accepts (masterLine irq) ∧ ∀ line ∈ slaveLine irq, p.slave.Accepts line

/-- The interrupt goes into service. -/
def acknowledge (irq : Fin 16) : PicPair where
  master := p.master.acknowledge (masterLine irq)
  slave :=
    match slaveLine irq with
    | some line => p.slave.acknowledge line
    | none => p.slave

/-- The number that the processor is given. -/
def vector (irq : Fin 16) : Byte :=
  match slaveLine irq with
  | some line => p.slave.vector line
  | none => p.master.vector (masterLine irq)

end PicPair

end RedFox32.Machine
