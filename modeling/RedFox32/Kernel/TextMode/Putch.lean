import RedFox32.Kernel.TextMode.Scroll

/-!
# What `putch` does to a screen in good order

A screen is in good order when `ScreenPos` is even and at most `4000` and nothing was written outside
the video memory.  `putch` keeps that, except for a backspace at the top left.
-/

namespace RedFox32.Kernel.TextMode

open RedFox32.Machine

/-- The screen is in good order, the cursor at the cell `c`. -/
structure Rests (s : Screen) (c : ℕ) : Prop where
  pos : s.screenPos = BitVec.ofNat 32 (2 * c)
  le : c ≤ 2000
  logged : ∀ a ∈ s.writes, InVideo a

/-! ### The cases of `putch` -/

section Cases

variable (ch colour : Byte) (s : Screen)

theorem putch_newline : putch newline colour s =
    (stickWithinBounds s).moveTo ((stickWithinBounds s).screenPos + textModeXResolution -
      (stickWithinBounds s).screenPos % textModeXResolution) := by
  rw [putch, if_pos rfl]

theorem putch_tab : putch tab colour s =
    putch space colour (putch space colour (putch space colour (putch space colour
      (stickWithinBounds s)))) := by
  rw [putch, if_neg (by decide), if_pos rfl]

theorem putch_backspace : putch backspace colour s =
    let s := putch space colour ((stickWithinBounds s).moveTo ((stickWithinBounds s).screenPos - 2))
    let s := s.moveTo (s.screenPos - 2)
    if s.screenPos > s.screenPos + 2 then s.moveTo 0 else s := by
  rw [putch, if_neg (by decide), if_neg (by decide), if_pos rfl]

variable {ch}

/-- The `default` case. -/
theorem putch_default (hn : ch ≠ newline) (ht : ch ≠ tab) (hb : ch ≠ backspace) :
    putch ch colour s =
      let s := stickWithinBounds s
      let s := (s.write (textModeVideoMemory + s.screenPos) ch).moveTo (s.screenPos + 1)
      (s.write (textModeVideoMemory + s.screenPos) colour).moveTo (s.screenPos + 1) := by
  rw [putch, if_neg hn, if_neg ht, if_neg hb]

end Cases

/-! ### The cursor -/

section Cursor

variable {s : Screen} {c : ℕ}

theorem Rests.pos_toNat (h : Rests s c) : s.screenPos.toNat = 2 * c := by
  have := h.le
  rw [h.pos]
  bv_omega

theorem Rests.eq_zero_iff (h : Rests s c) : s.screenPos = 0 ↔ c = 0 := by
  have := h.pos_toNat
  constructor
  · intro h0
    rw [h0] at this
    simpa using this.symm
  · rintro rfl
    exact h.pos

/-- The cursor cell after a full screen has scrolled. -/
def roomAt (c : ℕ) : ℕ := if c < 2000 then c else c - 80

theorem roomAt_lt (hc : c ≤ 2000) : roomAt c < 2000 := by
  unfold roomAt
  split_ifs <;> omega

/-- Below the end of the screen nothing happens. -/
theorem stick_of_lt (h : Rests s c) (hc : c < 2000) : stickWithinBounds s = s := by
  unfold stickWithinBounds
  rw [if_neg]
  have := h.pos_toNat
  unfold textModeMemorySize
  bv_omega

/-- At the end of the screen it scrolls by one line. -/
theorem stick_full (h : Rests s 2000) :
    Scrolled s.mem 160 3840 (stickWithinBounds s) ∧ Rests (stickWithinBounds s) 1920 := by
  have hfull : textModeMemorySize ≤ s.screenPos := by
    have := h.pos_toNat
    unfold textModeMemorySize
    bv_omega
  obtain ⟨hscr, hpos⟩ := scrollScreen_spec 1 (by decide) (by decide) h.logged
  unfold stickWithinBounds
  rw [if_pos hfull]
  refine ⟨⟨hscr.inside, hscr.outside, hscr.logged⟩, ?_, by omega, hscr.logged⟩
  simp only [moveTo_screenPos, hpos, h.pos]
  decide

theorem stick_rests (h : Rests s c) : Rests (stickWithinBounds s) (roomAt c) := by
  unfold roomAt
  split_ifs with hc
  · rwa [stick_of_lt h hc]
  · obtain rfl : c = 2000 := by have := h.le; omega
    exact (stick_full h).2

/-- A byte and its colour stored at the cursor. -/
def Screen.putCell (s : Screen) (c : ℕ) (ch colour : Byte) : Screen :=
  ((s.write (videoByte (2 * c)) ch).write (videoByte (2 * c + 1)) colour).moveTo
    (BitVec.ofNat 32 (2 * (c + 1)))

theorem putch_default_eq {ch : Byte} (colour : Byte) (hn : ch ≠ newline) (ht : ch ≠ tab)
    (hb : ch ≠ backspace) (h : Rests s c) :
    putch ch colour s = (stickWithinBounds s).putCell (roomAt c) ch colour := by
  have hpos := (stick_rests h).pos
  rw [putch_default colour s hn ht hb]
  simp only [moveTo_screenPos, hpos]
  unfold Screen.putCell Screen.moveTo Screen.write videoByte
  simp only [Screen.mk.injEq]
  have e : textModeVideoMemory + (BitVec.ofNat 32 (2 * roomAt c) + 1) =
      textModeVideoMemory + BitVec.ofNat 32 (2 * roomAt c + 1) := by bv_omega
  refine ⟨by rw [e], by bv_omega, by rw [e]⟩

theorem putCell_logged (ch colour : Byte) (h : ∀ a ∈ s.writes, InVideo a) (hc : c < 2000) :
    ∀ a ∈ (s.putCell c ch colour).writes, InVideo a := by
  intro a ha
  simp only [Screen.putCell, moveTo_writes, write_writes, List.append_assoc, List.mem_append,
    List.mem_cons, List.not_mem_nil, or_false] at ha
  rcases ha with ha | rfl | rfl
  · exact h a ha
  · exact inVideo_videoByte (by omega)
  · exact inVideo_videoByte (by omega)

theorem Rests.putCell {ch colour : Byte} (h : Rests s c) (hc : c < 2000) :
    Rests (s.putCell c ch colour) (c + 1) :=
  ⟨rfl, by omega, putCell_logged ch colour h.logged hc⟩

/-! ### The four kinds of character -/

theorem rests_default (ch colour : Byte) (hn : ch ≠ newline) (ht : ch ≠ tab)
    (hb : ch ≠ backspace) (h : Rests s c) : Rests (putch ch colour s) (roomAt c + 1) := by
  rw [putch_default_eq colour hn ht hb h]
  exact (stick_rests h).putCell (roomAt_lt h.le)

theorem rests_space (colour : Byte) (h : Rests s c) :
    Rests (putch space colour s) (roomAt c + 1) :=
  rests_default space colour (by decide) (by decide) (by decide) h

theorem rests_newline (colour : Byte) (h : Rests s c) :
    Rests (putch newline colour s) (80 * (roomAt c / 80 + 1)) := by
  have hr := stick_rests h
  have hlt := roomAt_lt h.le
  have hp := hr.pos_toNat
  rw [putch_newline]
  refine ⟨?_, by omega, hr.logged⟩
  simp only [moveTo_screenPos]
  unfold textModeXResolution
  generalize (stickWithinBounds s).screenPos = p at hp ⊢
  have hmod : (p % 160).toNat = p.toNat % 160 := BitVec.toNat_umod
  generalize p % 160 = q at hmod ⊢
  bv_omega

theorem rests_tab (colour : Byte) (h : Rests s c) :
    Rests (putch tab colour s)
      (roomAt (roomAt (roomAt (roomAt (roomAt c) + 1) + 1) + 1) + 1) := by
  rw [putch_tab]
  exact rests_space colour (rests_space colour (rests_space colour
    (rests_space colour (stick_rests h))))

/-- **A backspace away from the top left** goes one cell back and blanks it. -/
theorem putch_backspace_eq (colour : Byte) (h : Rests s c) (hc : c ≠ 0) :
    putch backspace colour s =
      ((stickWithinBounds s).putCell (roomAt c - 1) space colour).moveTo
        (BitVec.ofNat 32 (2 * (roomAt c - 1))) := by
  have hr := stick_rests h
  have hlt := roomAt_lt h.le
  have hne : roomAt c ≠ 0 := by unfold roomAt; split_ifs <;> omega
  -- one cell back, still in good order, and not at the end of the screen
  have hback : Rests ((stickWithinBounds s).moveTo ((stickWithinBounds s).screenPos - 2))
      (roomAt c - 1) := by
    refine ⟨?_, by omega, hr.logged⟩
    simp only [moveTo_screenPos, hr.pos]
    bv_omega
  rw [putch_backspace, putch_default_eq colour (by decide) (by decide) (by decide) hback,
    stick_of_lt hback (by omega)]
  have hroom : roomAt (roomAt c - 1) = roomAt c - 1 := by
    rw [roomAt, if_pos (by omega)]
  have hsub : BitVec.ofNat 32 (2 * (roomAt c - 1 + 1)) - 2 =
      BitVec.ofNat 32 (2 * (roomAt c - 1)) := by bv_omega
  simp only [hroom, Screen.putCell, moveTo_screenPos, hsub]
  rw [if_neg (by bv_omega)]
  rfl

theorem rests_backspace (colour : Byte) (h : Rests s c) (hc : c ≠ 0) :
    Rests (putch backspace colour s) (roomAt c - 1) := by
  have hlt := roomAt_lt h.le
  rw [putch_backspace_eq colour h hc]
  exact ⟨rfl, by omega, putCell_logged space colour (stick_rests h).logged (by omega)⟩

end Cursor

end RedFox32.Kernel.TextMode
