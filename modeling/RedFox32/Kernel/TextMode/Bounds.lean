import RedFox32.Kernel.TextMode.Putch
import RedFox32.Machine.Runs

/-!
# Where the driver writes

In every sequence of calls after `TextMode_Setup` the cursor and all writes stay in the video memory
exactly as long as no backspace arrives with the cursor at the top left.  There `ScreenPos - 2` wraps,
the full-screen test scrolls, and the blank goes `162` bytes below the video memory.
-/

namespace RedFox32.Kernel.TextMode

open RedFox32.Machine

/-- `ScreenPos` is even and at most `4000`, and every byte written so far lies in the video memory. -/
def WithinScreen (s : Screen) : Prop :=
  s.screenPos.toNat % 2 = 0 ∧ s.screenPos.toNat ≤ 4000 ∧ ∀ a ∈ s.writes, InVideo a

theorem withinScreen_iff {s : Screen} : WithinScreen s ↔ ∃ c, Rests s c := by
  constructor
  · rintro ⟨heven, hle, hlog⟩
    refine ⟨s.screenPos.toNat / 2, ?_, by omega, hlog⟩
    rw [show 2 * (s.screenPos.toNat / 2) = s.screenPos.toNat by omega]
    simp
  · rintro ⟨c, hc⟩
    have := hc.le
    rw [WithinScreen, hc.pos_toNat]
    exact ⟨by omega, by omega, hc.logged⟩

/-! ### The log tells where memory changed -/

/-- The log only grew, and a byte that is not in it is as it was. -/
structure Logs (s s' : Screen) : Prop where
  grows : s.writes ⊆ s'.writes
  kept : ∀ a ∉ s'.writes, s'.mem a = s.mem a

section Log

theorem Logs.refl (s : Screen) : Logs s s := ⟨fun _ ha => ha, fun _ _ => rfl⟩

theorem Logs.trans {s s' s'' : Screen} (h : Logs s s') (h' : Logs s' s'') : Logs s s'' where
  grows := fun _ ha => h'.grows (h.grows ha)
  kept a ha := (h'.kept a ha).trans (h.kept a fun hin => ha (h'.grows hin))

theorem write_logs (s : Screen) (a : Word) (v : Byte) : Logs s (s.write a v) where
  grows := fun b hb => by simp [hb]
  kept b hb := by
    rw [write_writes, List.mem_append, List.mem_singleton, not_or] at hb
    rw [write_mem, if_neg hb.2]

theorem moveTo_logs (s : Screen) (pos : Word) : Logs s (s.moveTo pos) := ⟨fun _ ha => ha, fun _ _ => rfl⟩

theorem foldl_logs {ι : Type} {f : Screen → ι → Screen} (hf : ∀ s i, Logs s (f s i)) (is : List ι)
    (s : Screen) : Logs s (is.foldl f s) := by
  induction is generalizing s with
  | nil => exact .refl s
  | cons i is ih => exact (hf s i).trans (ih _)

theorem scrollLoop_logs (w r : Word) (s : Screen) : Logs s (scrollLoop w r s) := by
  induction w, r, s using scrollLoop.induct with
  | case1 w r s h ih =>
    rw [scrollLoop, if_pos h]
    exact ((write_logs s w _).trans (write_logs _ r 0)).trans ih
  | case2 w r s h =>
    rw [scrollLoop, if_neg h]
    exact .refl s

theorem stick_logs (s : Screen) : Logs s (stickWithinBounds s) := by
  unfold stickWithinBounds
  split_ifs
  · exact (scrollLoop_logs _ _ s).trans (moveTo_logs _ _)
  · exact .refl s

theorem default_logs {ch : Byte} (colour : Byte) (hn : ch ≠ newline) (ht : ch ≠ tab)
    (hb : ch ≠ backspace) (s : Screen) : Logs s (putch ch colour s) := by
  rw [putch_default colour s hn ht hb]
  exact (stick_logs s).trans ((((write_logs _ _ _).trans (moveTo_logs _ _)).trans
    (write_logs _ _ _)).trans (moveTo_logs _ _))

theorem space_logs (colour : Byte) (s : Screen) : Logs s (putch space colour s) :=
  default_logs colour (by decide) (by decide) (by decide) s

theorem putch_logs (ch colour : Byte) (s : Screen) : Logs s (putch ch colour s) := by
  by_cases hn : ch = newline
  · subst hn
    rw [putch_newline]
    exact (stick_logs s).trans (moveTo_logs _ _)
  by_cases ht : ch = tab
  · subst ht
    rw [putch_tab]
    exact (stick_logs s).trans ((((space_logs colour _).trans (space_logs colour _)).trans
      (space_logs colour _)).trans (space_logs colour _))
  by_cases hb : ch = backspace
  · subst hb
    rw [putch_backspace]
    have hback := ((stick_logs s).trans ((moveTo_logs _ _).trans (space_logs colour
      ((stickWithinBounds s).moveTo ((stickWithinBounds s).screenPos - 2))))).trans
        (moveTo_logs _ ((putch space colour ((stickWithinBounds s).moveTo
          ((stickWithinBounds s).screenPos - 2))).screenPos - 2))
    dsimp only
    split_ifs
    · exact hback.trans (moveTo_logs _ _)
    · exact hback
  exact default_logs colour hn ht hb s

theorem puts_logs (str : List Byte) (colour : Byte) (s : Screen) : Logs s (puts str colour s) := by
  induction str generalizing s with
  | nil => exact .refl s
  | cons ch str ih =>
    rw [puts]
    split_ifs
    · exact .refl s
    · exact (putch_logs ch colour s).trans (ih _)

/-- **A call changes memory only where its log says.** -/
theorem exec_logs (call : Call) (s : Screen) : Logs s (call.exec s) := by
  cases call with
  | putch ch colour => exact putch_logs ch colour s
  | puts str colour => exact puts_logs str colour s
  | putchHex c colour => exact (putch_logs _ colour s).trans (putch_logs _ colour _)
  | putchBinary c colour => exact foldl_logs (fun s i => putch_logs _ 0x0C s) _ s
  | clearScreen => exact (moveTo_logs s 0).trans (foldl_logs (fun s i => write_logs s _ 0) _ _)
  | textModeSetup => exact moveTo_logs s 0

end Log

/-! ### One character -/

section Character

variable {s : Screen} {c : ℕ}

/-- **A backspace at the top left** writes outside the video memory. -/
theorem backspace_home (colour : Byte) (h : Rests s 0) :
    ¬ ∀ a ∈ (putch backspace colour s).writes, InVideo a := by
  have hpos : s.screenPos = 0 := h.pos
  have hstick : stickWithinBounds s = s := stick_of_lt h (by omega)
  set w := s.moveTo (s.screenPos - 2) with hw
  have hwpos : w.screenPos = 0xFFFFFFFE := by simp [hw, hpos]
  -- the wrapped position counts as a full screen, so the nested `putch` scrolls first
  have hscroll : (stickWithinBounds w).screenPos = 0xFFFFFF5E := by
    have h1 := (scrollScreen_spec 1 (by decide) (by decide) (s := w) h.logged).2
    unfold stickWithinBounds
    rw [if_pos (by rw [hwpos]; decide)]
    simp only [moveTo_screenPos, h1, hwpos]
    decide
  have hmem : textModeVideoMemory + 0xFFFFFF5E ∈ (putch space colour w).writes := by
    rw [putch_default colour w (by decide) (by decide) (by decide)]
    simp [hscroll]
  have hlog : textModeVideoMemory + 0xFFFFFF5E ∈ (putch backspace colour s).writes := by
    rw [putch_backspace, hstick]
    dsimp only
    split_ifs
    · exact hmem
    · exact hmem
  intro hall
  exact absurd (hall _ hlog) (by decide)

/-- A character keeps the screen in good order exactly when it is no backspace at the top left. -/
theorem putch_within_iff (ch colour : Byte) (h : Rests s c) :
    WithinScreen (putch ch colour s) ↔ (ch = backspace → s.screenPos ≠ 0) := by
  by_cases hb : ch = backspace
  · subst hb
    rw [ne_eq, h.eq_zero_iff]
    constructor
    · rintro hw - rfl
      exact backspace_home colour h hw.2.2
    · intro hc
      exact withinScreen_iff.2 ⟨_, rests_backspace colour h (hc rfl)⟩
  · refine iff_of_true (withinScreen_iff.2 ?_) fun hb' => absurd hb' hb
    by_cases hn : ch = newline
    · subst hn
      exact ⟨_, rests_newline colour h⟩
    by_cases ht : ch = tab
    · subst ht
      exact ⟨_, rests_tab colour h⟩
    exact ⟨_, rests_default ch colour hn ht hb h⟩

/-- The characters that `putch_hex` shows are no control characters. -/
theorem hexDigit_plain (n : Byte) :
    hexDigit n ≠ newline ∧ hexDigit n ≠ tab ∧ hexDigit n ≠ backspace := by
  revert n
  decide

theorem rests_hexDigit (n colour : Byte) (h : Rests s c) :
    Rests (putch (hexDigit n) colour s) (roomAt c + 1) :=
  rests_default _ colour (hexDigit_plain n).1 (hexDigit_plain n).2.1 (hexDigit_plain n).2.2 h

theorem rests_binaryDigit (b : Byte) (i : ℕ) (colour : Byte) (h : Rests s c) :
    Rests (putch (binaryDigit b i) colour s) (roomAt c + 1) := by
  unfold binaryDigit
  split_ifs
  · exact rests_default _ colour (by decide) (by decide) (by decide) h
  · exact rests_default _ colour (by decide) (by decide) (by decide) h

end Character

/-! ### One call -/

/-- No backspace before the end of the string arrives with the cursor at the top left. -/
def putsSafe : List Byte → Byte → Screen → Prop
  | [], _, _ => True
  | ch :: str, colour, s =>
    ch ≠ 0 → (ch = backspace → s.screenPos ≠ 0) ∧ putsSafe str colour (putch ch colour s)

/-- No backspace of the call arrives with the cursor at the top left. -/
def Call.Safe : Call → Screen → Prop
  | .putch ch _, s => ch = backspace → s.screenPos ≠ 0
  | .puts str colour, s => putsSafe str colour s
  | _, _ => True

section Calls

variable {s : Screen}

theorem puts_within_iff (str : List Byte) (colour : Byte) (h : WithinScreen s) :
    WithinScreen (puts str colour s) ↔ putsSafe str colour s := by
  induction str generalizing s with
  | nil => exact iff_of_true h trivial
  | cons ch str ih =>
    obtain ⟨c, hc⟩ := withinScreen_iff.1 h
    have hone := putch_within_iff ch colour hc
    rw [puts, putsSafe]
    split_ifs with h0
    · exact iff_of_true h fun hne => absurd h0 hne
    · constructor
      · intro hw _
        -- what a character writes outside stays in the log of the whole string
        have hsafe : ch = backspace → s.screenPos ≠ 0 := by
          rintro rfl hzero
          obtain rfl : c = 0 := hc.eq_zero_iff.1 hzero
          exact backspace_home colour hc fun a ha => hw.2.2 a ((puts_logs str colour _).grows ha)
        exact ⟨hsafe, (ih (hone.2 hsafe)).1 hw⟩
      · intro hs
        obtain ⟨hsafe, hrest⟩ := hs h0
        exact (ih (hone.2 hsafe)).2 hrest

theorem putchHex_within (c colour : Byte) (h : WithinScreen s) :
    WithinScreen (putchHex c colour s) := by
  obtain ⟨k, hk⟩ := withinScreen_iff.1 h
  exact withinScreen_iff.2 ⟨_, rests_hexDigit _ colour (rests_hexDigit _ colour hk)⟩

theorem putchBinary_within (c colour : Byte) (h : WithinScreen s) :
    WithinScreen (putchBinary c colour s) := by
  unfold putchBinary
  induction List.range 8 generalizing s with
  | nil => exact h
  | cons i is ih =>
    obtain ⟨k, hk⟩ := withinScreen_iff.1 h
    exact ih (withinScreen_iff.2 ⟨_, rests_binaryDigit c i 0x0C hk⟩)

theorem clearScreen_within (h : WithinScreen s) : WithinScreen (clearScreen s) := by
  have key : ∀ (is : List ℕ) (s : Screen), (∀ i ∈ is, i < 4000) → Rests s 0 →
      Rests (is.foldl (fun s i => s.write (textModeVideoMemory + BitVec.ofNat 32 i) 0) s) 0 := by
    intro is
    induction is with
    | nil => exact fun _ _ hs => hs
    | cons i is ih =>
      intro s hi hs
      refine ih _ (fun j hj => hi j (List.mem_cons_of_mem _ hj)) ⟨hs.pos, hs.le, fun a ha => ?_⟩
      rw [write_writes, List.mem_append, List.mem_singleton] at ha
      rcases ha with ha | rfl
      · exact hs.logged a ha
      · exact inVideo_videoByte (hi i (by simp))
  refine withinScreen_iff.2 ⟨0, key _ _ (fun i hi => ?_) ⟨rfl, by omega, h.2.2⟩⟩
  exact List.mem_range.1 hi

/-- **One call** keeps the screen in good order exactly when it is safe. -/
theorem exec_within_iff (call : Call) (h : WithinScreen s) :
    WithinScreen (call.exec s) ↔ call.Safe s := by
  obtain ⟨c, hc⟩ := withinScreen_iff.1 h
  cases call with
  | putch ch colour => exact putch_within_iff ch colour hc
  | puts str colour => exact puts_within_iff str colour h
  | putchHex b colour => exact iff_of_true (putchHex_within b colour h) trivial
  | putchBinary b colour => exact iff_of_true (putchBinary_within b colour h) trivial
  | clearScreen => exact iff_of_true (clearScreen_within h) trivial
  | textModeSetup =>
    exact iff_of_true (withinScreen_iff.2 ⟨0, rfl, by omega, hc.logged⟩) trivial

/-- **A call of a screen in good order leaves all other memory alone**, as long as it is safe. -/
theorem exec_mem (call : Call) (h : WithinScreen s) (hsafe : call.Safe s) {a : Word} (ha : ¬ InVideo a) :
    (call.exec s).mem a = s.mem a :=
  (exec_logs call s).kept a fun hin => ha (((exec_within_iff call h).2 hsafe).2.2 a hin)

/-- A string without a backspace is safe on every screen. -/
theorem putsSafe_of_plain {str : List Byte} (hplain : ∀ ch ∈ str, ch ≠ backspace) (colour : Byte)
    (s : Screen) : putsSafe str colour s := by
  induction str generalizing s with
  | nil => trivial
  | cons ch str ih =>
    exact fun _ => ⟨fun hb => absurd hb (hplain ch (by simp)),
      ih (fun c hc => hplain c (List.mem_cons_of_mem _ hc)) _⟩

end Calls

/-! ### Every sequence of calls -/

/-- The screen after `TextMode_Setup`, with nothing written yet. -/
def setupScreen (mem : Mem) (pos : Word) : Screen := textModeSetup ⟨mem, pos, []⟩

/-- The screens of a sequence of calls, one transition for each call. -/
def session (mem : Mem) (pos : Word) (calls : List Call) : List (Transition Screen Call) :=
  trace (fun s call => call.exec s) (setupScreen mem pos) calls

theorem setupScreen_rests (mem : Mem) (pos : Word) : Rests (setupScreen mem pos) 0 :=
  ⟨rfl, by omega, by simp [setupScreen, textModeSetup]⟩

/-- **The driver stays in the video memory** throughout a sequence of calls exactly when no backspace
arrives at the top left. -/
theorem within_iff_no_backspace_home (mem : Mem) (pos : Word) (calls : List Call) :
    (∀ t ∈ session mem pos calls, WithinScreen t.post) ↔
      ∀ t ∈ session mem pos calls, t.label.Safe t.pre := by
  refine (run_trace _ _ _).forall_iff (I := WithinScreen)
    (withinScreen_iff.2 ⟨0, setupScreen_rests mem pos⟩) (fun t hpre hstep => ?_)
    (fun t _ _ hpost => hpost)
  rw [hstep]
  exact exec_within_iff t.label hpre

/-- A backspace on the empty screen breaks the bound. -/
theorem backspace_home_breaks_bound :
    ¬ ∀ t ∈ session (fun _ => 0) 0 [.putch backspace 0x0B], WithinScreen t.post := by
  intro h
  have hw := h _ (List.mem_cons_self ..)
  exact backspace_home 0x0B (setupScreen_rests _ _) hw.2.2

end RedFox32.Kernel.TextMode
