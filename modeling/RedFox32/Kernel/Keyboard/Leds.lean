import RedFox32.Kernel.Keyboard.Pending

/-!
# The LEDs of the keyboard

`UpdateLEDS` sends the low byte of `Modifiers`.  Its lowest three bits are the locks, in the order of the
LEDs; the other five belong to keys that may be held while a lock key is handled, and are sent with them.
-/

namespace RedFox32.Kernel.Keyboard

open RedFox32.Machine

namespace KeyboardModifiers

variable (m : KeyboardModifiers)

/-- The LEDs that the locks ask for: bit 0 for Scroll Lock, bit 1 for Num Lock and bit 2 for Caps Lock. -/
def leds : Byte :=
  0#5 ++ BitVec.ofBool m.capsLock ++ BitVec.ofBool m.numLock ++ BitVec.ofBool m.scrollLock

/-- No key is held whose bit is in the low byte of `Modifiers`. -/
def Free : Prop :=
  m.leftShift = false ∧ m.rightShift = false ∧ m.control = false ∧ m.alt = false ∧ m.leftMenu = false

instance : Decidable m.Free := by unfold Free; infer_instance

/-- The low byte of `Modifiers` is the state of the LEDs when nothing else is held. -/
theorem low_eq_leds_iff : m.low = m.leds ↔ m.Free := by
  obtain ⟨-, -, -, h3, h4, h5, h6, h7⟩ := m.low_bits
  unfold Free
  constructor
  · intro h
    rw [← h3, ← h4, ← h5, ← h6, ← h7, h]
    unfold leds
    simp only [BitVec.getLsbD_append, BitVec.getLsbD_ofBool]
    simp
  · rintro ⟨hs, hr, hc, ha, hm⟩
    unfold low leds
    rw [hs, hr, hc, ha, hm]
    rfl

end KeyboardModifiers

/-! ### What is sent -/

section Written

variable {k k' : Driver} {p p' : Ports} {sc : Scancode} {fuel : ℕ}

theorem drain_written (h : drain fuel p = some p') : p'.written = p.written := by
  induction fuel generalizing p with
  | zero => cases h
  | succ fuel ih =>
    unfold drain at h
    dsimp only at h
    split_ifs at h
    · have hrest := ih h
      exact hrest
    · cases h
      rfl

/-- **`UpdateLEDS`** sends the command and the low byte of `Modifiers`. -/
theorem updateLEDS_written (h : updateLEDS fuel k = some k') :
    k'.ports.written = k.ports.written ++ [0xED, k.modifiers.low] := by
  unfold updateLEDS at h
  simp only [Option.bind_eq_bind, Option.bind_eq_some_iff, Option.some.injEq] at h
  obtain ⟨p, hp, q, hq, rfl⟩ := h
  have hsent : (q.outbData k.modifiers.low).written = q.written ++ [k.modifiers.low] := rfl
  have hcommand : (p.outbData 0xED).written = p.written ++ [0xED] := rfl
  rw [hsent, drain_written hq, hcommand, drain_written hp, List.append_assoc, List.singleton_append]

theorem handleScancode_written (h : handleScancode fuel k sc = some k') :
    (sc.IsLock → k'.ports.written = k.ports.written ++ [0xED, (modifiersAfter k.modifiers sc).low]) ∧
    (¬ sc.IsLock → k'.ports.written = k.ports.written) := by
  unfold handleScancode at h
  unfold Scancode.IsLock modifiersAfter
  cases hcase : keyCase sc.keycode with
  | level set =>
    simp only [hcase, Option.some.injEq] at h
    subst h
    exact ⟨by rintro ⟨-, ⟨⟩⟩, fun _ => rfl⟩
  | lock toggle =>
    simp only [hcase, Option.bind_eq_bind, Option.bind_eq_some_iff, Option.some.injEq] at h
    obtain ⟨g, hg, rfl⟩ := h
    refine ⟨fun _ => ?_, fun hnot => absurd ⟨toggle, rfl⟩ hnot⟩
    have hsent := updateLEDS_written hg
    dsimp only
    by_cases hup : sc.state = keyStateUp
    · rw [if_pos hup] at hsent
      rw [if_pos hup]
      exact hsent
    · rw [if_neg hup] at hsent
      rw [if_neg hup]
      exact hsent
  | ignore =>
    simp only [hcase, Option.some.injEq] at h
    subst h
    exact ⟨by rintro ⟨-, ⟨⟩⟩, fun _ => rfl⟩
  | regular =>
    simp only [hcase, Option.some.injEq] at h
    subst h
    exact ⟨by rintro ⟨-, ⟨⟩⟩, fun _ => rfl⟩

theorem keyboardHandler_written (h : keyboardHandler fuel k = some k') :
    (k.ports.scancode.IsLock → k'.ports.written = k.ports.written ++ [0xED, k'.modifiers.low]) ∧
    (¬ k.ports.scancode.IsLock → k'.ports.written = k.ports.written) := by
  rw [(keyboardHandler_spec h).1]
  unfold keyboardHandler at h
  dsimp only at h
  rw [Ports.readScancode_ports] at h
  have hsent := handleScancode_written h
  exact hsent

end Written

/-! ### The locks and the held keys -/

section Modifiers

variable {m : KeyboardModifiers} {sc : Scancode}

/-- A key that is held does not change the locks, and a lock does not change what is held. -/
def KeyCase.Separate : KeyCase → Prop
  | .level set => ∀ b m, (set b m).leds = m.leds
  | .lock toggle => ∀ m, (toggle m).Free ↔ m.Free
  | .ignore => True
  | .regular => True

theorem keyCase_separate (keycode : Byte) : (keyCase keycode).Separate := by
  unfold keyCase
  repeat' refine iteInduction (fun _ => ?_) fun _ => ?_
  all_goals first | exact fun _ _ => rfl | exact fun _ => Iff.rfl | trivial

theorem leds_modifiersAfter (h : ¬ sc.IsLock) : (modifiersAfter m sc).leds = m.leds := by
  have hsep := keyCase_separate sc.keycode
  unfold modifiersAfter
  cases hcase : keyCase sc.keycode with
  | level set =>
    rw [hcase] at hsep
    exact hsep _ m
  | lock toggle => exact absurd ⟨toggle, hcase⟩ h
  | ignore => rfl
  | regular => rfl

theorem free_modifiersAfter (h : sc.IsLock) : (modifiersAfter m sc).Free ↔ m.Free := by
  obtain ⟨toggle, hcase⟩ := h
  have hsep := keyCase_separate sc.keycode
  rw [hcase] at hsep
  unfold modifiersAfter
  rw [hcase]
  dsimp only
  split_ifs
  · exact hsep m
  · exact Iff.rfl

end Modifiers

/-! ### Runs of interrupts -/

/-- The last byte sent is the state of the LEDs that the locks ask for. -/
def Driver.LedsShown (k : Driver) : Prop := k.ports.written.getLast? = some k.modifiers.leds

instance : DecidablePred Driver.LedsShown := fun k => by unfold Driver.LedsShown; infer_instance

/-- Between the two moments one LED command was sent, with the state of the LEDs that the locks ask
for. -/
def Commands (k k' : Driver) : Prop := k'.ports.written = k.ports.written ++ [0xED, k'.modifiers.leds]

/-- The interrupt sends a right LED command for a lock key and nothing for any other one, and the LEDs
show the locks after it. -/
def ShowsLocks (t : Transition Driver Scancode) : Prop :=
  (t.label.IsLock → Commands t.pre t.post) ∧
    (¬ t.label.IsLock → t.post.ports.written = t.pre.ports.written) ∧ t.post.LedsShown

section Run

variable {boot k s : Driver} {tr : List (Transition Driver Scancode)} {fuel : ℕ}

theorem Commands.shown {k' : Driver} (h : Commands k k') : k'.LedsShown := by
  unfold Driver.LedsShown
  rw [h]
  simp

theorem keyboardSetup_commands (h : keyboardSetup fuel boot = some k) : Commands boot k := by
  have hzero : KeyboardModifiers.zero.low = KeyboardModifiers.zero.leds := by decide
  unfold Commands
  rw [(keyboardSetup_spec h).1, updateLEDS_written h, ← hzero]

/-- **One interrupt** shows the locks exactly when it is not a lock key that finds another key held. -/
theorem showsLocks_iff {t : Transition Driver Scancode} (hshown : t.pre.LedsShown)
    (h : HandlerStep t.pre t.label t.post) : ShowsLocks t ↔ (t.label.IsLock → t.pre.modifiers.Free) := by
  obtain ⟨hlabel, fuel, hrun⟩ := h
  obtain ⟨hsent, hquiet⟩ := keyboardHandler_written hrun
  have hmods := (keyboardHandler_spec hrun).1
  rw [← hlabel] at hsent hquiet hmods
  unfold ShowsLocks
  by_cases hlock : t.label.IsLock
  · have hfree : Commands t.pre t.post ↔ t.pre.modifiers.Free := by
      unfold Commands
      rw [hsent hlock, List.append_cancel_left_eq, ← free_modifiersAfter hlock, ← hmods,
        ← KeyboardModifiers.low_eq_leds_iff]
      simp
    constructor
    · rintro ⟨hcommands, -⟩ -
      exact hfree.1 (hcommands hlock)
    · intro hheld
      have hcommands := hfree.2 (hheld hlock)
      exact ⟨fun _ => hcommands, fun hnot => absurd hlock hnot, hcommands.shown⟩
  · refine iff_of_true ⟨fun h => absurd h hlock, hquiet, ?_⟩ fun h => absurd h hlock
    unfold Driver.LedsShown
    rw [hquiet hlock, hmods, leds_modifiersAfter hlock]
    exact hshown

/-- **The LEDs show the locks** throughout a run from `Keyboard_Setup` exactly when no lock key is handled
while Shift, Control, Alt or the left menu key is held. -/
theorem showsLocks_iff_free (hsetup : keyboardSetup fuel boot = some k) (h : Run HandlerStep k tr s) :
    (Commands boot k ∧ ∀ t ∈ tr, ShowsLocks t) ↔
      ∀ t ∈ tr, t.label.IsLock → t.pre.modifiers.Free := by
  rw [and_iff_right (keyboardSetup_commands hsetup)]
  exact h.forall_iff (I := Driver.LedsShown) (keyboardSetup_commands hsetup).shown
    (fun t hpre hstep => showsLocks_iff hpre hstep) (fun t _ _ hpost => hpost.2.2)

end Run

/-- Caps Lock alone, released after the setup. -/
theorem showsLocks_caps : ∃ k tr s, keyboardSetup 1 (bootDriver [0xBA]) = some k ∧
    Run HandlerStep k tr s ∧ tr.map Transition.label = [⟨0x3A, 0, false⟩] ∧
      s.ports.written = [0xED, 0x00, 0xED, 0x04] ∧ ∀ t ∈ tr, ShowsLocks t := by
  have hsetup : keyboardSetup 1 (bootDriver [0xBA]) = some (readyDriver [0xBA]) := rfl
  have hup : HandlerStep (readyDriver [0xBA]) ⟨0x3A, 0, false⟩ _ := ⟨by decide, 1, rfl⟩
  have hrun := Run.nil.snoc hup
  refine ⟨_, _, _, hsetup, hrun, rfl, rfl, ((showsLocks_iff_free hsetup hrun).2 ?_).2⟩
  intro t ht _
  obtain rfl := List.mem_singleton.1 ht
  decide

/-- The driver after the left shift key. -/
def shiftDriver (bytes : List Byte) : Driver where
  modifiers := { KeyboardModifiers.zero with leftShift := true }
  previousEvent := { KeyboardEvent.zero with modifiers := { KeyboardModifiers.zero with leftShift := true } }
  ports := { (readyDriver bytes).ports with taken := 1 }

/-- **Shift and Caps Lock**: the parameter that is sent has bit 3 set, which is no LED. -/
theorem shift_in_leds : ∃ k tr s, keyboardSetup 1 (bootDriver [0x2A, 0x3A]) = some k ∧
    Run HandlerStep k tr s ∧ tr.map (fun t => t.label.keycode) = [0x2A, 0x3A] ∧
      s.ports.written = [0xED, 0x00, 0xED, 0x08] ∧ s.modifiers.leds = 0x00 ∧
      ¬ ∀ t ∈ tr, ShowsLocks t := by
  have hshift : HandlerStep (readyDriver [0x2A, 0x3A]) ⟨0x2A, 1, false⟩ (shiftDriver [0x2A, 0x3A]) :=
    ⟨by decide, 1, rfl⟩
  have hcaps : HandlerStep (shiftDriver [0x2A, 0x3A]) ⟨0x3A, 1, false⟩ _ := ⟨by decide, 1, rfl⟩
  refine ⟨_, _, _, rfl, (Run.nil.snoc hshift).snoc hcaps, rfl, rfl, by decide, fun hall => ?_⟩
  obtain ⟨-, -, hshown⟩ := hall _ (List.mem_append_right _ List.mem_cons_self)
  exact absurd hshown (by decide)

end RedFox32.Kernel.Keyboard
