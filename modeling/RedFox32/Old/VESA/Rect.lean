import Mathlib.Tactic.Ring
import RedFox32.Machine.Bytes
import RedFox32.Machine.Loop

/-!
Rectangles in the frame buffer.  `VESA_DrawPixel` computes the address of its pixel anew; the two functions
for rectangles walk one pointer through the rows and skip from the end of a row to the start of the next.
All addresses are computed in 32 bits.
-/

namespace RedFox32.Old.VESA

open RedFox32.Machine RedFox32.Machine.Mem

/-- The `R`, `G` and `B` of a pixel. -/
structure Colour where
  r : Byte
  g : Byte
  b : Byte
  deriving DecidableEq

/-- The colour that `VESA_DrawRect` and `VESA_DrawChar` use for the background. -/
def black : Colour := ⟨0, 0, 0⟩

/-! ### The mode information -/

/-- `_VESA_Mode_Info` -/
def modeInfo : Word := 0x8600

/-- `sizeof(struct VESA_ModeInfo)` -/
def sizeofModeInfo : ℕ := 256

section Info

variable (m : Mem)

/-- `_VESA_Mode_Info->XResolution` -/
def xResolution : BitVec 16 := m.load16 (modeInfo + 18)

/-- `_VESA_Mode_Info->PhysBasePtr` -/
def physBasePtr : Word := m.load32 (modeInfo + 40)

/-- `PhysBasePtr + (X * 3) + Y * (XResolution * 3)` -/
def pixelAddr (x y : Word) : Word :=
  physBasePtr m + x * 3 + y * ((xResolution m).setWidth 32 * 3)

end Info

/-! ### Drawing -/

/-- `*Where++ = B; *Where++ = G; *Where = R;` -/
def writePixel (pointer : Word) (c : Colour) (m : Mem) : Mem :=
  ((m.store8 pointer c.b).store8 (pointer + 1) c.g).store8 (pointer + 2) c.r

/-- `VESA_DrawPixel` -/
def vesaDrawPixel (x y : Word) (c : Colour) (m : Mem) : Mem := writePixel (pixelAddr m x y) c m

/-- The memory and the pointer `Where`. -/
structure Brush where
  mem : Mem
  pointer : Word

/-- One pixel at the pointer, which moves behind it. -/
def Brush.draw (s : Brush) (c : Colour) : Brush := ⟨writePixel s.pointer c s.mem, s.pointer + 3⟩

/-- `Where += (_VESA_Mode_Info->XResolution * 3) - (W * 3)` -/
def Brush.skip (s : Brush) (w : Word) : Brush :=
  { s with pointer := s.pointer + ((xResolution s.mem).setWidth 32 * 3 - w * 3) }

/-- The body of the loop over the rows: the loop over the pixels of one row, and the skip. -/
def drawRow (w : Word) (colour : Word → Colour) (fuel : ℕ) (s : Brush) : Option Brush :=
  (forLoop w.toNat (fun _ (j : Word) s => some (s.draw (colour j))) fuel 0 s).map fun s => s.skip w

/-- The loops of the functions for rectangles, with the colour for the counters `i` and `j`. -/
def drawRows (x y w h : Word) (colour : Word → Word → Colour) (m : Mem) (fuel : ℕ) : Option Mem :=
  (forLoop h.toNat (fun fuel (i : Word) s => drawRow w (colour i) fuel s) fuel 0
    ⟨m, pixelAddr m x y⟩).map Brush.mem

/-- `VESA_DrawFillRect` -/
def vesaDrawFillRect (x y w h : Word) (c : Colour) : Mem → ℕ → Option Mem :=
  drawRows x y w h fun _ _ => c

/-- `VESA_DrawRect` -/
def vesaDrawRect (x y w h : Word) (c : Colour) : Mem → ℕ → Option Mem :=
  drawRows x y w h fun i j => if i = 0 ∨ i = h - 1 ∨ j = 0 ∨ j = w - 1 then c else black

/-! ### Calls of `VESA_DrawPixel` -/

/-- A call of `VESA_DrawPixel`. -/
structure PixelCall where
  x : Word
  y : Word
  colour : Colour
  deriving DecidableEq

namespace PixelCall

/-- What a call does. -/
def exec (m : Mem) (call : PixelCall) : Mem := vesaDrawPixel call.x call.y call.colour m

/-- The bytes that the call draws in a mode. -/
def addr (m : Mem) (call : PixelCall) : Word := pixelAddr m call.x call.y

/-- The call draws no byte of the mode information. -/
def Spares (m : Mem) (call : PixelCall) : Prop := Apart modeInfo sizeofModeInfo (call.addr m) 3

end PixelCall

/-- The calls for the pixels of the row `i` of a rectangle. -/
def rowCalls (x y : Word) (colour : ℕ → ℕ → Colour) (i w : ℕ) : List PixelCall :=
  (List.range w).map fun j => ⟨x + BitVec.ofNat 32 j, y + BitVec.ofNat 32 i, colour i j⟩

/-- The calls for the pixels of a rectangle, row by row. -/
def rectCalls (x y : Word) (colour : ℕ → ℕ → Colour) (w h : ℕ) : List PixelCall :=
  (List.range h).flatMap fun i => rowCalls x y colour i w

section Calls

variable {x y : Word} {colour colour' : ℕ → ℕ → Colour} {w h i j : ℕ} {call : PixelCall}

theorem rowCalls_zero : rowCalls x y colour i 0 = [] := rfl

theorem rowCalls_succ : rowCalls x y colour i (j + 1) =
    rowCalls x y colour i j ++ [⟨x + BitVec.ofNat 32 j, y + BitVec.ofNat 32 i, colour i j⟩] := by
  simp [rowCalls, List.range_succ]

theorem rectCalls_succ :
    rectCalls x y colour w (i + 1) = rectCalls x y colour w i ++ rowCalls x y colour i w := by
  simp [rectCalls, List.range_succ]

theorem mem_rowCalls : call ∈ rowCalls x y colour i w ↔
    ∃ j < w, call = ⟨x + BitVec.ofNat 32 j, y + BitVec.ofNat 32 i, colour i j⟩ := by
  simp [rowCalls, eq_comm]

theorem mem_rectCalls : call ∈ rectCalls x y colour w h ↔
    ∃ i < h, ∃ j < w, call = ⟨x + BitVec.ofNat 32 j, y + BitVec.ofNat 32 i, colour i j⟩ := by
  simp [rectCalls, mem_rowCalls]

theorem rectCalls_congr (hcolour : ∀ i < h, ∀ j < w, colour i j = colour' i j) :
    rectCalls x y colour w h = rectCalls x y colour' w h := by
  refine List.flatMap_congr fun i hi => List.map_congr_left fun j hj => ?_
  rw [hcolour i (List.mem_range.1 hi) j (List.mem_range.1 hj)]

/-- A rectangle that is no larger than the address arithmetic has no position twice. -/
theorem rectCalls_nodup (hw : w ≤ 2 ^ 32) (hh : h ≤ 2 ^ 32) :
    ((rectCalls x y colour w h).map fun call => (call.x, call.y)).Nodup := by
  have hinj : ∀ {z : Word} {a b : ℕ}, a < 2 ^ 32 → b < 2 ^ 32 →
      z + BitVec.ofNat 32 a = z + BitVec.ofNat 32 b → a = b := by
    intro z a b ha hb heq
    have hmod := congrArg BitVec.toNat (add_left_cancel heq)
    rwa [BitVec.toNat_ofNat, BitVec.toNat_ofNat, Nat.mod_eq_of_lt ha, Nat.mod_eq_of_lt hb] at hmod
  rw [rectCalls, List.map_flatMap, List.nodup_flatMap]
  constructor
  · intro i _
    rw [rowCalls, List.map_map]
    refine List.Nodup.map_on (fun a ha b hb heq => ?_) List.nodup_range
    rw [List.mem_range] at ha hb
    exact hinj (by omega) (by omega) (Prod.ext_iff.1 heq).1
  · refine List.Pairwise.imp_of_mem (fun {a b} ha hb hne => ?_) List.nodup_range
    rw [List.mem_range] at ha hb
    -- two rows differ in the second coordinate of every position
    intro p hpa hpb
    simp only [rowCalls, List.map_map, List.mem_map] at hpa hpb
    obtain ⟨j, -, rfl⟩ := hpa
    obtain ⟨k, -, heq⟩ := hpb
    exact hne (hinj (by omega) (by omega) (Prod.ext_iff.1 heq).2.symm)

end Calls

/-! ### The mode does not change -/

/-- The two memories have the same mode. -/
def SameMode (m m' : Mem) : Prop := xResolution m' = xResolution m ∧ physBasePtr m' = physBasePtr m

section Mode

variable {m m' : Mem} {calls : List PixelCall}

theorem SameMode.pixelAddr_eq (h : SameMode m m') : pixelAddr m' = pixelAddr m := by
  unfold pixelAddr
  rw [h.1, h.2]

theorem writePixel_changes (pointer : Word) (c : Colour) :
    ChangesOnly pointer 3 m (writePixel pointer c m) := by
  have h0 := (ChangesOnly.refl (m := m) (a := pointer) (n := 3)).store (i := 0) (k := 1)
    (v := c.b.setWidth 32) (by omega) (by omega)
  have h1 := h0.store (i := 1) (k := 1) (v := c.g.setWidth 32) (by omega) (by omega)
  have h2 := h1.store (i := 2) (k := 1) (v := c.r.setWidth 32) (by omega) (by omega)
  simpa [writePixel, store8] using h2

theorem PixelCall.exec_changes (call : PixelCall) :
    ChangesOnly (call.addr m) 3 m (call.exec m) := writePixel_changes _ _

theorem PixelCall.exec_sameMode {call : PixelCall} (h : call.Spares m) : SameMode m (call.exec m) := by
  constructor
  · exact call.exec_changes.load16 (h.inner (i := 18) (by decide) (by omega) (by omega)).symm
  · exact call.exec_changes.load32 (h.inner (i := 40) (by decide) (by omega) (by omega)).symm

/-- **Calls that spare the mode information** keep the mode, and all bytes but those of their pixels. -/
theorem foldl_exec (h : ∀ call ∈ calls, call.Spares m) :
    SameMode m (calls.foldl PixelCall.exec m) ∧
      ∀ b, (∀ call ∈ calls, 3 ≤ (b - call.addr m).toNat) → calls.foldl PixelCall.exec m b = m b := by
  induction calls using List.reverseRecOn with
  | nil => exact ⟨⟨rfl, rfl⟩, fun _ _ => rfl⟩
  | append_singleton calls call ih =>
    obtain ⟨hmode, hbytes⟩ := ih fun c hc => h c (List.mem_append_left _ hc)
    have hcall := h call (List.mem_append_right _ (List.mem_singleton_self call))
    have haddr : call.addr (calls.foldl PixelCall.exec m) = call.addr m := by
      unfold PixelCall.addr
      rw [hmode.pixelAddr_eq]
    have hlast : call.Spares (calls.foldl PixelCall.exec m) := by
      unfold PixelCall.Spares
      rw [haddr]
      exact hcall
    rw [List.foldl_append, List.foldl_cons, List.foldl_nil]
    obtain ⟨hx, hp⟩ := PixelCall.exec_sameMode hlast
    refine ⟨⟨hx.trans hmode.1, hp.trans hmode.2⟩, fun b hb => ?_⟩
    have hout := hb call (List.mem_append_right _ (List.mem_singleton_self call))
    rw [← haddr] at hout
    rw [call.exec_changes b hout]
    exact hbytes b fun c hc => hb c (List.mem_append_left _ hc)

end Mode

/-! ### The pointer walks along the pixels -/

section Walk

variable (m : Mem) (x y : Word)

/-- The pointer behind a pixel is at the next one of the row. -/
theorem pixelAddr_next (j : ℕ) :
    pixelAddr m (x + BitVec.ofNat 32 j) y + 3 = pixelAddr m (x + BitVec.ofNat 32 (j + 1)) y := by
  unfold pixelAddr
  rw [BitVec.ofNat_add]
  change _ + 3 = _ + (x + (BitVec.ofNat 32 j + 1)) * 3 + _
  ring

/-- The skip from the end of a row leads to the start of the next one, however wide the rectangle is. -/
theorem pixelAddr_skip (w : Word) (i : ℕ) :
    pixelAddr m (x + w) (y + BitVec.ofNat 32 i) + ((xResolution m).setWidth 32 * 3 - w * 3) =
      pixelAddr m x (y + BitVec.ofNat 32 (i + 1)) := by
  unfold pixelAddr
  rw [BitVec.ofNat_add]
  change _ = _ + (y + (BitVec.ofNat 32 i + 1)) * _
  ring

end Walk

section Loops

variable {m : Mem} {x y w h : Word} {colour : Word → Word → Colour}

/-- The colours for the exact counters of the calls. -/
def exactly (colour : Word → Word → Colour) (i j : ℕ) : Colour :=
  colour (BitVec.ofNat 32 i) (BitVec.ofNat 32 j)

/-- All pixels of the rectangle lie apart from the mode information. -/
def ClearOfMode (m : Mem) (x y w h : Word) : Prop := ∀ i < h.toNat, ∀ j < w.toNat,
  Apart modeInfo sizeofModeInfo (pixelAddr m (x + BitVec.ofNat 32 j) (y + BitVec.ofNat 32 i)) 3

theorem ClearOfMode.spares (hclear : ClearOfMode m x y w h) (colour : ℕ → ℕ → Colour) {i k : ℕ}
    (hi : i < h.toNat) (hk : k ≤ w.toNat) :
    ∀ call ∈ rectCalls x y colour w.toNat i ++ rowCalls x y colour i k, call.Spares m := by
  intro call hcall
  rcases List.mem_append.1 hcall with hcall | hcall
  · obtain ⟨i', hi', j, hj, rfl⟩ := mem_rectCalls.1 hcall
    exact hclear i' (by omega) j hj
  · obtain ⟨j, hj, rfl⟩ := mem_rowCalls.1 hcall
    exact hclear i hi j (by omega)

/-- The brush before the pixel `k` of the row `i`: it has drawn what the calls so far draw, and its pointer is
at the pixel. -/
structure Brush.At (m : Mem) (x y w : Word) (colour : Word → Word → Colour) (i k : ℕ) (s : Brush) :
    Prop where
  mem_eq : s.mem = (rectCalls x y (exactly colour) w.toNat i ++
    rowCalls x y (exactly colour) i k).foldl PixelCall.exec m
  pointer_eq : s.pointer = pixelAddr m (x + BitVec.ofNat 32 k) (y + BitVec.ofNat 32 i)

theorem Brush.At.draw {s : Brush} {i k : ℕ} (hclear : ClearOfMode m x y w h) (hi : i < h.toNat)
    (hk : k < w.toNat) (hs : s.At m x y w colour i k) :
    (s.draw (colour (BitVec.ofNat 32 i) (BitVec.ofNat 32 k))).At m x y w colour i (k + 1) := by
  obtain ⟨hmode, -⟩ := foldl_exec (hclear.spares (exactly colour) hi hk.le)
  rw [← hs.mem_eq] at hmode
  -- the address that the call computes is where the pointer is
  have haddr : s.pointer = pixelAddr s.mem (x + BitVec.ofNat 32 k) (y + BitVec.ofNat 32 i) := by
    rw [hs.pointer_eq, hmode.pixelAddr_eq]
  constructor
  · rw [rowCalls_succ, ← List.append_assoc, List.foldl_append, ← hs.mem_eq]
    show writePixel s.pointer _ s.mem = _
    rw [haddr]
    rfl
  · rw [← pixelAddr_next, ← hs.pointer_eq]
    rfl

theorem Brush.At.skip {s : Brush} {i : ℕ} (hclear : ClearOfMode m x y w h) (hi : i < h.toNat)
    (hs : s.At m x y w colour i w.toNat) : (s.skip w).At m x y w colour (i + 1) 0 := by
  obtain ⟨hmode, -⟩ := foldl_exec (hclear.spares (exactly colour) hi le_rfl)
  rw [← hs.mem_eq] at hmode
  have hpointer := hs.pointer_eq
  rw [BitVec.ofNat_toNat, BitVec.setWidth_eq] at hpointer
  constructor
  · rw [rectCalls_succ, rowCalls_zero, List.append_nil]
    exact hs.mem_eq
  · rw [BitVec.add_zero, ← pixelAddr_skip m x y w, ← hpointer, ← hmode.1]
    rfl

/-- **One row** of a rectangle: the loop draws what the calls draw, and the skip leads to the next row. -/
theorem drawRow_returns {s : Brush} {i : ℕ} (hclear : ClearOfMode m x y w h) (hi : i < h.toNat)
    (hs : s.At m x y w colour i 0) :
    ∃ s', Returns (fun fuel => drawRow w (colour (BitVec.ofNat 32 i)) fuel s) s' ∧
      s'.At m x y w colour (i + 1) 0 := by
  obtain ⟨s', hret, hs'⟩ := forLoop_returns
    (fun _ j s => some (s.draw (colour (BitVec.ofNat 32 i) j))) w.isLt
    (fun k hk s hs => ⟨_, settles_const _, hs.draw hclear hi hk⟩) hs
  exact ⟨s'.skip w, returns_map hret _, hs'.skip hclear hi⟩

/-- **The two loops** draw what the calls for the pixels draw, row by row. -/
theorem drawRows_returns (hclear : ClearOfMode m x y w h) : Returns (drawRows x y w h colour m)
    ((rectCalls x y (exactly colour) w.toNat h.toNat).foldl PixelCall.exec m) := by
  have h0 : Brush.At m x y w colour 0 0 ⟨m, pixelAddr m x y⟩ := ⟨rfl, by simp⟩
  obtain ⟨s', hret, hs'⟩ := forLoop_returns (fun fuel i s => drawRow w (colour i) fuel s) h.isLt
    (fun i hi s hs => drawRow_returns hclear hi hs) h0
  have hmem := hs'.mem_eq
  rw [rowCalls_zero, List.append_nil] at hmem
  rw [← hmem]
  exact returns_map hret _

end Loops

/-! ### The rectangles -/

section Rectangles

variable {m : Mem} {x y w h : Word} {c : Colour}

/-- The calls for a filled rectangle: the same colour for every pixel, row by row. -/
def fillRectCalls (x y w h : Word) (c : Colour) : List PixelCall :=
  rectCalls x y (fun _ _ => c) w.toNat h.toNat

/-- The calls for a bordered rectangle: black inside. -/
def borderRectCalls (x y w h : Word) (c : Colour) : List PixelCall :=
  rectCalls x y (fun i j => if i = 0 ∨ i + 1 = h.toNat ∨ j = 0 ∨ j + 1 = w.toNat then c else black)
    w.toNat h.toNat

/-- A counter inside its bound is at an edge when its number is. -/
theorem at_edge {n : Word} {i : ℕ} (hi : i < n.toNat) :
    (BitVec.ofNat 32 i = 0 ∨ BitVec.ofNat 32 i = n - 1) ↔ i = 0 ∨ i + 1 = n.toNat := by
  have hlt := n.isLt
  constructor
  · rintro (h | h)
    · left; bv_omega
    · right; bv_omega
  · rintro (h | h)
    · left; bv_omega
    · right; bv_omega

/-- The tests of `VESA_DrawRect` pick the border of the rectangle. -/
theorem rectCalls_border : rectCalls x y
    (exactly fun i j => if i = 0 ∨ i = h - 1 ∨ j = 0 ∨ j = w - 1 then c else black) w.toNat h.toNat =
      borderRectCalls x y w h c := by
  refine rectCalls_congr fun i hi j hj => ?_
  have hrow := at_edge hi
  have hcolumn := at_edge hj
  refine if_congr ?_ rfl rfl
  rw [← or_assoc, hrow, hcolumn, or_assoc]

/-- The calls for a rectangle leave every byte that is in none of its pixels. -/
theorem foldl_rectCalls_eq (hclear : ClearOfMode m x y w h) {colour : ℕ → ℕ → Colour} {b : Word}
    (hb : ∀ i < h.toNat, ∀ j < w.toNat,
      3 ≤ (b - pixelAddr m (x + BitVec.ofNat 32 j) (y + BitVec.ofNat 32 i)).toNat) :
    (rectCalls x y colour w.toNat h.toNat).foldl PixelCall.exec m b = m b := by
  have hspares : ∀ call ∈ rectCalls x y colour w.toNat h.toNat, call.Spares m := by
    intro call hcall
    obtain ⟨i, hi, j, hj, rfl⟩ := mem_rectCalls.1 hcall
    exact hclear i hi j hj
  refine (foldl_exec hspares).2 b fun call hcall => ?_
  obtain ⟨i, hi, j, hj, rfl⟩ := mem_rectCalls.1 hcall
  exact hb i hi j hj

/-- **The rectangles are their pixels**: the functions for rectangles return, the memory they leave is that
of the calls of `VESA_DrawPixel`, and it differs from the one before in pixels of the rectangle only. -/
theorem drawRects_eq_pixels (m : Mem) (x y w h : Word) (c : Colour) (hclear : ClearOfMode m x y w h) :
    Returns (vesaDrawFillRect x y w h c m) ((fillRectCalls x y w h c).foldl PixelCall.exec m) ∧
    Returns (vesaDrawRect x y w h c m) ((borderRectCalls x y w h c).foldl PixelCall.exec m) ∧
    ∀ b, (∀ i < h.toNat, ∀ j < w.toNat,
        3 ≤ (b - pixelAddr m (x + BitVec.ofNat 32 j) (y + BitVec.ofNat 32 i)).toNat) →
      (fillRectCalls x y w h c).foldl PixelCall.exec m b = m b ∧
        (borderRectCalls x y w h c).foldl PixelCall.exec m b = m b := by
  refine ⟨drawRows_returns hclear, ?_, ?_⟩
  · rw [← rectCalls_border]
    exact drawRows_returns hclear
  · intro b hb
    exact ⟨foldl_rectCalls_eq hclear hb, foldl_rectCalls_eq hclear hb⟩

/-- A rectangle of three by two pixels, at the left of the second row of a screen that is two pixels wide,
in a frame buffer at `0xE0000000`. -/
theorem drawRects_eq_pixels_wide :
    let m : Mem := (Mem.store32 (Mem.store16 (fun _ => 0) 0x8612 2) 0x8628 0xE0000000)
    Returns (vesaDrawFillRect 0 1 3 2 ⟨1, 2, 3⟩ m)
      ((fillRectCalls 0 1 3 2 ⟨1, 2, 3⟩).foldl PixelCall.exec m) := by
  intro m
  have hclear : ClearOfMode m 0 1 3 2 := by
    unfold ClearOfMode Apart
    decide
  exact (drawRects_eq_pixels m 0 1 3 2 ⟨1, 2, 3⟩ hclear).1

end Rectangles

end RedFox32.Old.VESA
