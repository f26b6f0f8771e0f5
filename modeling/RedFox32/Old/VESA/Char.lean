import RedFox32.Old.VESA.Rect

/-!
Characters in the frame buffer.  `VESA_DrawChar` scales a glyph of eight by eight bits with two loops whose
counters have eight bits, while their bound is computed in 32.
-/

namespace RedFox32.Old.VESA

open RedFox32.Machine

/-! ### The function -/

/-- The memory, with the calls of `VESA_DrawPixel` so far, in their order. -/
structure Drawing where
  mem : Mem
  calls : List PixelCall

/-- A call of `VESA_DrawPixel`. -/
def Drawing.call (s : Drawing) (call : PixelCall) : Drawing := ⟨call.exec s.mem, s.calls ++ [call]⟩

/-- `int mask[8]` -/
def mask : List Word := [1, 2, 4, 8, 16, 32, 64, 128]

/-- `(FontBytes[y / Scale] & mask[x / Scale]) != 0`, where a byte of the font is a signed `char`. -/
def lit (fontBytes : ℕ → Byte) (scale : Word) (x y : Byte) : Bool :=
  (fontBytes (y.setWidth 32 / scale).toNat).signExtend 32 &&&
    mask.getD (x.setWidth 32 / scale).toNat 0 != 0

section Loops

variable (fontBytes : ℕ → Byte) (X Y : Word) (c : Colour) (scale : Word)

/-- The body of the loop over `x`. -/
def drawDot (x y : Byte) (s : Drawing) : Drawing :=
  if lit fontBytes scale x y then s.call ⟨X + x.setWidth 32, Y + y.setWidth 32, c⟩
  else s.call ⟨X + x.setWidth 32, Y + y.setWidth 32, black⟩

/-- The body of the loop over `y`: the loop over `x`. -/
def drawDots (fuel : ℕ) (y : Byte) (s : Drawing) : Option Drawing :=
  forLoop (8 * scale).toNat (fun _ (x : Byte) s => some (drawDot fontBytes X Y c scale x y s)) fuel 0 s

/-- `VESA_DrawChar`, with the row of `VESAFont8x8` for the character. -/
def vesaDrawChar (m : Mem) (fuel : ℕ) : Option Drawing :=
  forLoop (8 * scale).toNat (drawDots fontBytes X Y c scale) fuel 0 ⟨m, []⟩

end Loops

/-! ### The scaled glyph -/

/-- The colour of the pixel in the row `y` and the column `x` of a scaled glyph. -/
def glyphColour (fontBytes : ℕ → Byte) (c : Colour) (scale y x : ℕ) : Colour :=
  if (fontBytes (y / scale)).getLsbD (x / scale) then c else black

/-- **The drawing is the scaled glyph**: it is what its calls draw, there is one call for every pixel of
the glyph, with its colour, and none for another position. -/
structure DrawsGlyph (fontBytes : ℕ → Byte) (X Y : Word) (c : Colour) (scale : ℕ) (m : Mem)
    (s : Drawing) : Prop where
  mem_eq : s.mem = s.calls.foldl PixelCall.exec m
  once : (s.calls.map fun call => (call.x, call.y)).Nodup
  pixels : ∀ call, call ∈ s.calls ↔ ∃ y < 8 * scale, ∃ x < 8 * scale,
    call = ⟨X + BitVec.ofNat 32 x, Y + BitVec.ofNat 32 y, glyphColour fontBytes c scale y x⟩

theorem mask_getD {k : ℕ} (hk : k < 8) : mask.getD k 0 = BitVec.twoPow 32 k := by
  interval_cases k <;> rfl

/-- The test with the mask reads one bit of a row, whatever the sign of the `char`. -/
theorem and_mask (row : Byte) {k : ℕ} (hk : k < 8) :
    (row.signExtend 32 &&& mask.getD k 0 != 0) = row.getLsbD k := by
  have hbit : (row.signExtend 32).getLsbD k = row.getLsbD k := by
    rw [BitVec.getLsbD_signExtend, if_pos hk]
    simp [show k < 32 by omega]
  rw [mask_getD hk, BitVec.and_twoPow, hbit]
  cases row.getLsbD k with
  | false => simp
  | true =>
    have hne : BitVec.twoPow 32 k ≠ 0 := by
      intro h
      have := congrArg (BitVec.getLsbD · k) h
      simp [show k < 32 by omega] at this
    simpa using hne

section Small

variable {fontBytes : ℕ → Byte} {X Y : Word} {c : Colour} {scale : Word} {m : Mem}

/-- A counter of eight bits in 32-bit arithmetic. -/
theorem setWidth_counter {k : ℕ} (hk : k < 2 ^ 8) :
    (BitVec.ofNat 8 k).setWidth 32 = BitVec.ofNat 32 k := by
  bv_omega

/-- A counter over the scale, in 32-bit arithmetic. -/
theorem counter_div {k : ℕ} (hk : k < 2 ^ 8) :
    ((BitVec.ofNat 8 k).setWidth 32 / scale).toNat = k / scale.toNat := by
  rw [setWidth_counter hk, BitVec.toNat_udiv, BitVec.toNat_ofNat, Nat.mod_eq_of_lt (by omega)]

theorem bound_eq (hscale : scale.toNat < 32) : (8 * scale).toNat = 8 * scale.toNat := by
  bv_omega

/-- One pixel: the call that the body makes is the one of the scaled glyph. -/
theorem drawDot_eq (hscale : scale.toNat < 32) {x y : ℕ} (hx : x < 8 * scale.toNat)
    (hy : y < 8 * scale.toNat) (s : Drawing) :
    drawDot fontBytes X Y c scale (BitVec.ofNat 8 x) (BitVec.ofNat 8 y) s =
      s.call ⟨X + BitVec.ofNat 32 x, Y + BitVec.ofNat 32 y,
        glyphColour fontBytes c scale.toNat y x⟩ := by
  have hbit : x / scale.toNat < 8 := by
    rw [Nat.div_lt_iff_lt_mul (by omega)]
    exact hx
  have hlit : lit fontBytes scale (BitVec.ofNat 8 x) (BitVec.ofNat 8 y) =
      (fontBytes (y / scale.toNat)).getLsbD (x / scale.toNat) := by
    unfold lit
    rw [counter_div (by omega), counter_div (by omega)]
    exact and_mask _ hbit
  unfold drawDot glyphColour
  rw [hlit, setWidth_counter (by omega), setWidth_counter (by omega)]
  split <;> rfl

/-- What has been drawn before the column `k` of the row `y`. -/
def DrawnUpTo (fontBytes : ℕ → Byte) (X Y : Word) (c : Colour) (scale : ℕ) (m : Mem) (y k : ℕ)
    (s : Drawing) : Prop :=
  s.mem = s.calls.foldl PixelCall.exec m ∧
    s.calls = rectCalls X Y (glyphColour fontBytes c scale) (8 * scale) y ++
      rowCalls X Y (glyphColour fontBytes c scale) y k

theorem DrawnUpTo.dot (hscale : scale.toNat < 32) {x y : ℕ} (hx : x < 8 * scale.toNat)
    (hy : y < 8 * scale.toNat) {s : Drawing} (hs : DrawnUpTo fontBytes X Y c scale.toNat m y x s) :
    DrawnUpTo fontBytes X Y c scale.toNat m y (x + 1)
      (drawDot fontBytes X Y c scale (BitVec.ofNat 8 x) (BitVec.ofNat 8 y) s) := by
  obtain ⟨hmem, hcalls⟩ := hs
  rw [drawDot_eq hscale hx hy]
  constructor
  · show PixelCall.exec s.mem _ = (s.calls ++ [_]).foldl PixelCall.exec m
    rw [List.foldl_append, ← hmem]
    rfl
  · show s.calls ++ [_] = _
    rw [hcalls, rowCalls_succ, List.append_assoc]

/-- One row of the glyph. -/
theorem drawDots_returns (hscale : scale.toNat < 32) {y : ℕ} (hy : y < 8 * scale.toNat) {s : Drawing}
    (hs : DrawnUpTo fontBytes X Y c scale.toNat m y 0 s) :
    ∃ s', Returns (fun fuel => drawDots fontBytes X Y c scale fuel (BitVec.ofNat 8 y) s) s' ∧
      DrawnUpTo fontBytes X Y c scale.toNat m (y + 1) 0 s' := by
  have hbound := bound_eq hscale
  obtain ⟨s', hret, hmem, hcalls⟩ := forLoop_returns
    (fun _ x s => some (drawDot fontBytes X Y c scale x (BitVec.ofNat 8 y) s))
    (I := DrawnUpTo fontBytes X Y c scale.toNat m y) (by omega)
    (fun x hx s hs => ⟨_, settles_const _, hs.dot hscale (hbound ▸ hx) hy⟩) hs
  refine ⟨s', hret, hmem, ?_⟩
  rw [hcalls, hbound, rectCalls_succ, rowCalls_zero, List.append_nil]

/-- The function for a scale that its counters can hold. -/
theorem vesaDrawChar_returns (hscale : scale.toNat < 32) :
    ∃ s, Returns (vesaDrawChar fontBytes X Y c scale m) s ∧
      DrawnUpTo fontBytes X Y c scale.toNat m (8 * scale.toNat) 0 s := by
  have hbound := bound_eq hscale
  have h0 : DrawnUpTo fontBytes X Y c scale.toNat m 0 0 ⟨m, []⟩ := ⟨rfl, rfl⟩
  obtain ⟨s, hret, hs⟩ := forLoop_returns (drawDots fontBytes X Y c scale)
    (I := fun y => DrawnUpTo fontBytes X Y c scale.toNat m y 0) (by omega)
    (fun y hy s hs => drawDots_returns hscale (hbound ▸ hy) hs) h0
  rw [hbound] at hs
  exact ⟨s, hret, hs⟩

theorem DrawnUpTo.drawsGlyph (hscale : scale.toNat < 32) {s : Drawing}
    (hs : DrawnUpTo fontBytes X Y c scale.toNat m (8 * scale.toNat) 0 s) :
    DrawsGlyph fontBytes X Y c scale.toNat m s := by
  obtain ⟨hmem, hcalls⟩ := hs
  have hrect : s.calls = rectCalls X Y (glyphColour fontBytes c scale.toNat) (8 * scale.toNat)
      (8 * scale.toNat) := by
    rw [hcalls, rowCalls_zero, List.append_nil]
  refine ⟨hmem, ?_, fun call => ?_⟩
  · rw [hrect]
    exact rectCalls_nodup (by omega) (by omega)
  · rw [hrect]
    exact mem_rectCalls

end Small

/-! ### Every scale -/

section Scale

variable (fontBytes : ℕ → Byte) (X Y : Word) (c : Colour) (m : Mem)

/-- A bound that the counters cannot reach: the loop over `y` does not end. -/
theorem vesaDrawChar_diverges {scale : Word} (hscale : 32 ≤ scale.toNat)
    (hexact : 8 * scale.toNat < 2 ^ 32) : Diverges (vesaDrawChar fontBytes X Y c scale m) := by
  have hbound : 2 ^ 8 ≤ (8 * scale).toNat := by bv_omega
  exact Filter.Eventually.of_forall fun fuel => forLoop_eq_none hbound fuel 0 _

/-- **Which scales are drawn**: the function ends, and has drawn the scaled glyph, exactly when the scale is
below 32. -/
theorem drawsGlyph_iff (scale : Word) (hexact : 8 * scale.toNat < 2 ^ 32) :
    (∃ s, Returns (vesaDrawChar fontBytes X Y c scale m) s ∧
      DrawsGlyph fontBytes X Y c scale.toNat m s) ↔ scale.toNat < 32 := by
  constructor
  · rintro ⟨s, hret, -⟩
    by_contra hscale
    have hnone := vesaDrawChar_diverges fontBytes X Y c m (not_lt.1 hscale) hexact
    cases hret.unique hnone
  · intro hscale
    obtain ⟨s, hret, hs⟩ := vesaDrawChar_returns hscale
    exact ⟨s, hret, hs.drawsGlyph hscale⟩

/-- The glyph of a full block at its own size. -/
theorem drawsGlyph_iff_block :
    ∃ s, Returns (vesaDrawChar (fun _ => 0xFF) 10 20 ⟨255, 255, 255⟩ 1 fun _ => 0) s ∧
      DrawsGlyph (fun _ => 0xFF) 10 20 ⟨255, 255, 255⟩ 1 (fun _ => 0) s :=
  (drawsGlyph_iff (fun _ => 0xFF) 10 20 ⟨255, 255, 255⟩ (fun _ => 0) 1 (by decide)).2 (by decide)

/-- At the scale 32 the bound is 256, and no counter of eight bits is that large. -/
theorem large_scale_never_ends :
    ¬ ∃ s, Returns (vesaDrawChar (fun _ => 0xFF) 0 0 ⟨255, 255, 255⟩ 32 fun _ => 0) s := by
  rintro ⟨s, hret⟩
  have hscale : 32 ≤ (32 : Word).toNat := by decide
  have hexact : 8 * (32 : Word).toNat < 2 ^ 32 := by decide
  cases hret.unique (vesaDrawChar_diverges _ _ _ _ _ hscale hexact)

end Scale

end RedFox32.Old.VESA
