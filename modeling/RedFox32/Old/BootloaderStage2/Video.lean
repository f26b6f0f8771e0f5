import RedFox32.Machine.Bytes

/-!
The screen of the second stage, `Video.c`.  It is in the same memory as everything else: what the driver
prints changes the bytes of the video memory, and no others, as long as `ScreenPos` is even and not beyond the
end of the screen.
-/

namespace RedFox32.Old.Video

open RedFox32.Machine RedFox32.Machine.Mem

/-- `VIDEO_MEMORY` -/
def videoMemory : Word := 0xB8000

/-- `VGA_XRESOLUTION` -/
def vgaXResolution : Word := 160

/-- `VGA_MEMORY_SIZE` -/
def vgaMemorySize : Word := 160 * 25

/-- The memory and `ScreenPos`. -/
structure Screen where
  mem : Mem
  screenPos : Word

/-- The loop of `ScrollScreen`, which clears nothing. -/
def scrollLoop (writePos readPos : Word) (m : Mem) : Mem :=
  if readPos ≠ videoMemory + vgaMemorySize then
    scrollLoop (writePos + 1) (readPos + 1) (m.store8 writePos (m readPos))
  else m
termination_by (videoMemory + vgaMemorySize - readPos).toNat
decreasing_by
  unfold videoMemory vgaMemorySize at *
  bv_omega

/-- `ScrollScreen` -/
def scrollScreen (lines : Byte) (m : Mem) : Mem :=
  scrollLoop videoMemory (videoMemory + vgaXResolution * lines.setWidth 32) m

/-- The first `if` of `putch`. -/
def stickWithinBounds (s : Screen) : Screen :=
  if vgaMemorySize ≤ s.screenPos then ⟨scrollScreen 1 s.mem, s.screenPos - vgaXResolution⟩ else s

/-- `putch` -/
def putch (ch colour : Byte) (s : Screen) : Screen :=
  let s := stickWithinBounds s
  if ch = 10 then { s with screenPos := s.screenPos + vgaXResolution - s.screenPos % vgaXResolution }
  else
    ⟨(s.mem.store8 (videoMemory + s.screenPos) ch).store8 (videoMemory + (s.screenPos + 1)) colour,
      s.screenPos + 1 + 1⟩

/-- `puts`, on the bytes of a string; the end of the list stands for its terminator. -/
def puts : List Byte → Byte → Screen → Screen
  | [], _, s => s
  | ch :: str, colour, s => if ch = 0 then s else puts str colour (putch ch colour s)

/-- The bytes of a text. -/
def bytesOf (text : String) : List Byte := text.toList.map fun ch => BitVec.ofNat 8 ch.toNat

/-! ### Where it writes -/

/-- `ScreenPos` is at a cell of the screen, or at its end. -/
def Ordered (pos : Word) : Prop := pos.toNat % 2 = 0 ∧ pos.toNat ≤ 4000

/-- Some text changed the screen, and no memory beside it. -/
structure Prints (s s' : Screen) : Prop where
  ordered : Ordered s'.screenPos
  changes : ChangesOnly videoMemory 4000 s.mem s'.mem

section Prints

variable {s s' s'' : Screen} {ch colour : Byte}

theorem Prints.refl (h : Ordered s.screenPos) : Prints s s := ⟨h, .refl⟩

theorem Prints.trans (h : Prints s s') (h' : Prints s' s'') : Prints s s'' :=
  ⟨h'.ordered, fun a ha => (h'.changes a ha).trans (h.changes a ha)⟩

/-- A byte stored on the screen. -/
theorem changes_store8 {m : Mem} {i : Word} (v : Byte) (hi : i.toNat < 4000) :
    ChangesOnly videoMemory 4000 m (m.store8 (videoMemory + i) v) := by
  intro a ha
  refine store8_of_ne ?_
  rintro rfl
  rw [BitVec.add_comm, BitVec.add_sub_cancel] at ha
  omega

/-- The loop writes as far as it has still to read. -/
theorem scrollLoop_changes {writePos readPos : Word} {m : Mem}
    (h : (writePos - videoMemory).toNat + (videoMemory + vgaMemorySize - readPos).toNat ≤ 4000) :
    ChangesOnly videoMemory 4000 m (scrollLoop writePos readPos m) := by
  induction writePos, readPos, m using scrollLoop.induct with
  | case1 writePos readPos m hne ih =>
    rw [scrollLoop, if_pos hne]
    have hfirst : ChangesOnly videoMemory 4000 m (m.store8 writePos (m readPos)) := by
      have hplace := changes_store8 (m := m) (i := writePos - videoMemory) (m readPos) (by bv_omega)
      rwa [BitVec.add_comm, BitVec.sub_add_cancel] at hplace
    have hrest := ih (by unfold videoMemory vgaMemorySize at *; bv_omega)
    exact fun a ha => (hrest a ha).trans (hfirst a ha)
  | case2 writePos readPos m hend =>
    rw [scrollLoop, if_neg hend]
    exact .refl

theorem stick_prints (h : Ordered s.screenPos) :
    Prints s (stickWithinBounds s) ∧ (stickWithinBounds s).screenPos.toNat < 4000 := by
  obtain ⟨heven, hle⟩ := h
  unfold stickWithinBounds
  split_ifs with hfull
  · have hend : s.screenPos.toNat = 4000 := by
      unfold vgaMemorySize at hfull
      bv_omega
    have hpos : (s.screenPos - vgaXResolution).toNat = 3840 := by
      unfold vgaXResolution
      bv_omega
    refine ⟨⟨⟨by rw [hpos], by rw [hpos]; omega⟩, scrollLoop_changes (by decide)⟩, by rw [hpos]; omega⟩
  · refine ⟨.refl ⟨heven, hle⟩, ?_⟩
    unfold vgaMemorySize at hfull
    bv_omega

/-- **One character.** -/
theorem putch_prints (ch colour : Byte) (h : Ordered s.screenPos) : Prints s (putch ch colour s) := by
  obtain ⟨hstick, hlt⟩ := stick_prints h
  have heven := hstick.ordered.1
  unfold putch
  dsimp only
  generalize stickWithinBounds s = t at hstick hlt heven
  split_ifs
  · have hmod : (t.screenPos % vgaXResolution).toNat = t.screenPos.toNat % 160 := BitVec.toNat_umod
    have hpos : (t.screenPos + vgaXResolution - t.screenPos % vgaXResolution).toNat =
        t.screenPos.toNat + 160 - t.screenPos.toNat % 160 := by
      have hres : vgaXResolution.toNat = 160 := rfl
      generalize t.screenPos % vgaXResolution = r at hmod ⊢
      bv_omega
    exact ⟨⟨by rw [hpos]; omega, by rw [hpos]; omega⟩, hstick.changes⟩
  · have hsecond : (t.screenPos + 1).toNat < 4000 := by bv_omega
    have hpos : (t.screenPos + 1 + 1).toNat = t.screenPos.toNat + 2 := by bv_omega
    refine ⟨⟨by rw [hpos]; omega, by rw [hpos]; omega⟩, fun a ha => ?_⟩
    dsimp only
    rw [changes_store8 colour hsecond a ha, changes_store8 ch hlt a ha]
    exact hstick.changes a ha

/-- **A string.** -/
theorem puts_prints (str : List Byte) (colour : Byte) (h : Ordered s.screenPos) :
    Prints s (puts str colour s) := by
  induction str generalizing s with
  | nil => exact .refl h
  | cons ch str ih =>
    rw [puts]
    split_ifs
    · exact .refl h
    · have hfirst := putch_prints ch colour h
      exact hfirst.trans (ih hfirst.ordered)

end Prints

end RedFox32.Old.Video
