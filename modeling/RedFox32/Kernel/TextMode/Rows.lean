import RedFox32.Kernel.TextMode.Bounds

/-!
# Scrolling by any number of lines

For every value of its argument, what `ScrollScreen` makes of the rows of the screen and of the rest of
the memory.  By zero lines it blanks the screen, by thirteen to 25 it leaves rows in the middle as they
were, and by more it starts behind the end of the screen.
-/

namespace RedFox32.Kernel.TextMode

open RedFox32.Machine

/-- The screen before a call, with nothing written yet. -/
def freshScreen (mem : Mem) (pos : Word) : Screen := ⟨mem, pos, []⟩

/-- The rows have moved up by `lines` with blank ones behind them, and nothing but the video memory has
been touched. -/
def MovedUp (lines : ℕ) (m : Mem) (s : Screen) : Prop :=
  (∀ a ∈ s.writes, InVideo a) ∧ (∀ a, ¬ InVideo a → s.mem a = m a) ∧
    ∀ r < 25, ∀ c < 160, s.mem (videoByte (160 * r + c)) =
      if r + lines < 25 then m (videoByte (160 * (r + lines) + c)) else 0

/-- The bytes of the screen from `i` up to `j` are zero. -/
def Blank (m : Mem) (i j : ℕ) : Prop := ∀ k, i ≤ k → k < j → m (videoByte k) = 0

/-! ### By no line -/

/-- `k` iterations of the loop with both pointers at one byte. -/
structure Cleared (m₀ : Mem) (k : ℕ) (s : Screen) : Prop where
  inside : ∀ j < 4000, s.mem (videoByte j) = if j < k then 0 else m₀ (videoByte j)
  outside : ∀ a, ¬ InVideo a → s.mem a = m₀ a
  logged : ∀ a ∈ s.writes, InVideo a

/-- One iteration. -/
theorem Cleared.step {m₀ : Mem} {k : ℕ} {s : Screen} (h : Cleared m₀ k s) (hk : k < 4000) :
    Cleared m₀ (k + 1)
      ((s.write (videoByte k) (s.mem (videoByte k))).write (videoByte k) 0) := by
  refine ⟨fun j hj => ?_, fun a ha => ?_, fun a ha => ?_⟩
  · rw [write_videoByte _ _ hk hj, write_videoByte _ _ hk hj, h.inside j hj]
    by_cases hjk : j = k
    · rw [if_pos hjk, if_pos (by omega)]
    · have hsame : j < k ↔ j < k + 1 := by omega
      rw [if_neg hjk, if_neg hjk]
      simp only [hsame]
  · have hne : a ≠ videoByte k := by
      rintro rfl
      exact ha (inVideo_videoByte hk)
    rw [write_mem, if_neg hne, write_mem, if_neg hne, h.outside a ha]
  · simp only [write_writes, List.append_assoc, List.mem_append, List.mem_cons, List.not_mem_nil,
      or_false] at ha
    rcases ha with ha | rfl | rfl
    · exact h.logged a ha
    · exact inVideo_videoByte hk
    · exact inVideo_videoByte hk

theorem scrollLoop_cleared {m₀ : Mem} (n : ℕ) :
    ∀ k s, k + n = 4000 → Cleared m₀ k s →
      Cleared m₀ 4000 (scrollLoop (videoByte k) (videoByte k) s) := by
  have hend : videoByte 4000 = videoEnd := by decide
  induction n with
  | zero =>
    intro k s hk h
    obtain rfl : k = 4000 := hk
    rw [scrollLoop, hend, if_neg (by simp)]
    exact h
  | succ n ih =>
    intro k s hk h
    have hne : videoByte k ≠ videoEnd := by
      rw [← hend]
      unfold videoByte
      bv_omega
    rw [scrollLoop, if_pos hne, videoByte_succ]
    exact ih (k + 1) _ (by omega) (h.step (by omega))

/-! ### Each number of lines -/

section Lines

variable {m : Mem} {pos : Word} {lines : Byte}

theorem forall_rows {P : ℕ → ℕ → Prop} :
    (∀ r < 25, ∀ c < 160, P r c) ↔ ∀ j < 4000, P (j / 160) (j % 160) := by
  constructor
  · intro h j hj
    exact h _ (by omega) _ (by omega)
  · intro h r hr c hc
    have := h (160 * r + c) (by omega)
    rwa [show (160 * r + c) / 160 = r by omega, show (160 * r + c) % 160 = c by omega] at this

theorem readPos_eq (lines : Byte) :
    textModeVideoMemory + textModeXResolution * lines.setWidth 32 = videoByte (160 * lines.toNat) := by
  unfold videoByte textModeXResolution
  bv_omega

/-- **By no line** the whole screen is cleared. -/
theorem scrollScreen_zero : Cleared m 4000 (scrollScreen 0 (freshScreen m pos)) := by
  have hstart : Cleared m 0 (freshScreen m pos) := by
    refine ⟨fun j _ => ?_, fun _ _ => rfl, by simp [freshScreen]⟩
    rw [if_neg (by omega)]
    rfl
  exact scrollLoop_cleared 4000 0 _ rfl hstart

theorem movedUp_zero_iff : MovedUp 0 m (scrollScreen 0 (freshScreen m pos)) ↔ Blank m 0 4000 := by
  have h : Cleared m 4000 (scrollScreen 0 (freshScreen m pos)) := scrollScreen_zero
  have hrow (j : ℕ) : 160 * (j / 160) + j % 160 = j := by omega
  unfold MovedUp
  rw [forall_rows]
  simp only [Nat.add_zero, hrow]
  constructor
  · rintro ⟨-, -, hrows⟩ j - hj
    have hj' := hrows j hj
    rw [h.inside j hj, if_pos hj, if_pos (by omega)] at hj'
    exact hj'.symm
  · intro hblank
    refine ⟨h.logged, h.outside, fun j hj => ?_⟩
    rw [h.inside j hj, if_pos hj, if_pos (by omega), hblank j (by omega) hj]

/-- By one to 25 lines the rows move, but those that are neither read nor left behind by a row that
moved keep what they held. -/
theorem movedUp_iff_blank (hpos : 0 < lines.toNat) (hle : lines.toNat ≤ 25) :
    MovedUp lines.toNat m (scrollScreen lines (freshScreen m pos)) ↔
      Blank m (4000 - 160 * lines.toNat) (160 * lines.toNat) := by
  obtain ⟨h, -⟩ := scrollScreen_spec lines hpos hle (s := freshScreen m pos) (by simp [freshScreen])
  change Scrolled m _ _ _ at h
  have hrow (j : ℕ) : 160 * (j / 160 + lines.toNat) + j % 160 = j + 160 * lines.toNat := by omega
  have hwithin (j : ℕ) : j / 160 + lines.toNat < 25 ↔ j < 4000 - 160 * lines.toNat := by omega
  unfold MovedUp
  rw [forall_rows]
  simp only [show ∀ j, 160 * (j / 160) + j % 160 = j by omega, hrow, hwithin]
  constructor
  · rintro ⟨-, -, hrows⟩ j hj hj'
    have := hrows j (by omega)
    rwa [h.inside j (by omega), if_neg (by omega), if_neg (by omega), if_neg (by omega)] at this
  · intro hblank
    refine ⟨h.logged, h.outside, fun j hj => ?_⟩
    rw [h.inside j hj]
    by_cases hmoved : j < 4000 - 160 * lines.toNat
    · rw [if_pos hmoved, if_pos hmoved]
    rw [if_neg hmoved, if_neg hmoved]
    by_cases hcleared : 160 * lines.toNat ≤ j
    · rw [if_pos (by omega)]
    · rw [if_neg (by omega)]
      exact hblank j (by omega) (by omega)

/-- By more lines the first byte cleared is not one of the screen. -/
theorem scrollScreen_beyond (hlines : 25 < lines.toNat) :
    ¬ ∀ a ∈ (scrollScreen lines (freshScreen m pos)).writes, InVideo a := by
  have hend : videoByte 4000 = videoEnd := by decide
  have hne : videoByte (160 * lines.toNat) ≠ videoEnd := by
    rw [← hend]
    unfold videoByte
    bv_omega
  have hout : ¬ InVideo (videoByte (160 * lines.toNat)) := by
    have := lines.isLt
    unfold InVideo videoByte
    rw [BitVec.add_comm, BitVec.add_sub_cancel, BitVec.toNat_ofNat, Nat.mod_eq_of_lt (by omega)]
    omega
  unfold scrollScreen
  rw [readPos_eq, scrollLoop, if_pos hne]
  intro hall
  apply hout
  apply hall
  apply (scrollLoop_logs _ _ _).grows
  simp

end Lines

/-- **`ScrollScreen`** does what it is for exactly when it scrolls by one to 25 lines and the rows that it
neither moves nor clears are blank, or by none on a blank screen. -/
theorem scrollScreen_movedUp_iff (m : Mem) (pos : Word) (lines : Byte) :
    MovedUp lines.toNat m (scrollScreen lines (freshScreen m pos)) ↔
      (lines = 0 ∧ Blank m 0 4000) ∨
        (0 < lines.toNat ∧ lines.toNat ≤ 25 ∧
          Blank m (4000 - 160 * lines.toNat) (160 * lines.toNat)) := by
  by_cases hzero : lines = 0
  · subst hzero
    rw [show (0 : Byte).toNat = 0 from rfl, movedUp_zero_iff]
    simp
  have hpos : 0 < lines.toNat := by
    apply Nat.pos_of_ne_zero
    intro h
    apply hzero
    exact BitVec.eq_of_toNat_eq h
  rw [or_iff_right fun h => hzero h.1]
  by_cases hle : lines.toNat ≤ 25
  · rw [movedUp_iff_blank hpos hle]
    simp [hpos, hle]
  · refine iff_of_false (fun h => scrollScreen_beyond (by omega) h.1) ?_
    simp [hle]

/-- By 25 lines nothing is cleared. -/
theorem scrollScreen_full_page :
    ¬ MovedUp 25 (fun _ => 0x41) (scrollScreen 25 (freshScreen (fun _ => 0x41) 0)) := by
  intro h
  rcases (scrollScreen_movedUp_iff _ _ 25).1 h with ⟨h0, -⟩ | ⟨-, -, hblank⟩
  · exact absurd h0 (by decide)
  · exact absurd (hblank 0 (by decide) (by decide)) (by decide)

end RedFox32.Kernel.TextMode
