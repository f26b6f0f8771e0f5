import RedFox32.Kernel.Keyboard.Handler

/-!
# The pending event

`PreviousEvent` keeps the last regular key until somebody takes it.  Its character was chosen by the
modifiers of that moment, and every modifier key that comes later writes the modifiers of its own moment
into it.
-/

namespace RedFox32.Kernel.Keyboard

open RedFox32.Machine

/-- The character of the event is the one that its own modifiers choose for its key. -/
def KeyboardEvent.Consistent (e : KeyboardEvent) : Prop :=
  e.character = characterOf e.modifiers (e.keycode.setWidth 8)

instance (e : KeyboardEvent) : Decidable e.Consistent := by
  unfold KeyboardEvent.Consistent; infer_instance

@[simp] theorem keyEvent_keycode (m : KeyboardModifiers) (sc : Scancode) :
    (keyEvent m sc).keycode.setWidth 8 = sc.keycode := by
  unfold keyEvent
  dsimp only
  split_ifs
  · simp [BitVec.setWidth_or]
  · simp

/-- An event is consistent under all modifiers that choose the same layout. -/
theorem consistent_of_upper {m m' : KeyboardModifiers} {sc : Scancode} (h : m'.upper = m.upper) :
    KeyboardEvent.Consistent { keyEvent m sc with modifiers := m' } := by
  unfold KeyboardEvent.Consistent
  rw [keyEvent_keycode]
  unfold characterOf
  rw [h]
  rfl

section Run

variable {boot k s : Driver} {tr : List (Transition Driver Scancode)} {fuel : ℕ}

/-- `Keyboard_Setup` leaves `PreviousEvent` alone. -/
theorem keyboardSetup_spec (h : keyboardSetup fuel boot = some k) :
    k.modifiers = .zero ∧ k.previousEvent = boot.previousEvent := by
  obtain ⟨hm, he, -⟩ := updateLEDS_spec h
  exact ⟨hm, he⟩

/-- **The pending event** of a run is the event of the last regular key, with the modifiers in force
now. -/
theorem run_pending (h : Run HandlerStep k tr s) (hk : k.previousEvent.ready ≠ 1)
    (hready : s.previousEvent.ready = 1) :
    ∃ tr₁ t tr₂, tr = tr₁ ++ t :: tr₂ ∧ t.label.IsRegular ∧ (∀ t' ∈ tr₂, ¬ t'.label.IsRegular) ∧
      s.previousEvent = { keyEvent t.pre.modifiers t.label with modifiers := s.modifiers } := by
  induction h with
  | nil => exact absurd hready hk
  | @snoc tr s s' sc hrun hstep ih =>
    obtain ⟨rfl, fuel, hs⟩ := hstep
    obtain ⟨hm, he, -⟩ := keyboardHandler_spec hs
    generalize s.ports.scancode = sc at hm he
    -- a key that is not regular leaves the last regular one where it was
    have hlater : ¬ sc.IsRegular →
        s.previousEvent.ready = 1 →
        (s.previousEvent.modifiers = s.modifiers →
          s'.previousEvent = { s.previousEvent with modifiers := s'.modifiers }) →
        ∃ tr₁ t tr₂, tr ++ [⟨s, sc, s'⟩] = tr₁ ++ t :: tr₂ ∧ t.label.IsRegular ∧
          (∀ t' ∈ tr₂, ¬ t'.label.IsRegular) ∧
          s'.previousEvent = { keyEvent t.pre.modifiers t.label with modifiers := s'.modifiers } := by
      intro hnot hr heq
      obtain ⟨tr₁, t, tr₂, rfl, ht, hlast, hevent⟩ := ih hr
      refine ⟨tr₁, t, tr₂ ++ [⟨s, sc, s'⟩], by simp, ht, fun t' ht' => ?_, ?_⟩
      · rcases List.mem_append.1 ht' with ht' | ht'
        · exact hlast t' ht'
        · rw [List.mem_singleton.1 ht']
          exact hnot
      · rw [heq (by rw [hevent]), hevent]
    unfold eventAfter modifiersAfter at he
    unfold modifiersAfter at hm
    cases hcase : keyCase sc.keycode with
    | level _ | lock _ =>
      simp only [hcase] at hm he
      rw [← hm] at he
      rw [he] at hready
      exact hlater (by simp [Scancode.IsRegular, hcase]) hready fun _ => he
    | ignore =>
      simp only [hcase] at hm he
      rw [he] at hready
      refine hlater (by simp [Scancode.IsRegular, hcase]) hready fun hmods => ?_
      rw [he, hm, ← hmods]
    | regular =>
      simp only [hcase] at hm he
      refine ⟨tr, ⟨s, sc, s'⟩, [], rfl, hcase, by simp, ?_⟩
      rw [he, hm]
      rfl

/-- **The pending event** holds the character that the modifiers in force at its key chose, and the
modifiers in force now; so it is consistent as long as these choose the same layout. -/
theorem pending_event (hboot : boot.previousEvent.ready = 0) (hsetup : keyboardSetup fuel boot = some k)
    (h : Run HandlerStep k tr s) (hready : s.previousEvent.ready = 1) :
    ∃ tr₁ t tr₂, tr = tr₁ ++ t :: tr₂ ∧ t.label.IsRegular ∧ (∀ t' ∈ tr₂, ¬ t'.label.IsRegular) ∧
      s.previousEvent.keycode.setWidth 8 = t.label.keycode ∧
      s.previousEvent.character = characterOf t.pre.modifiers t.label.keycode ∧
      s.previousEvent.modifiers = s.modifiers ∧
      (s.modifiers.upper = t.pre.modifiers.upper → s.previousEvent.Consistent) := by
  have hk : k.previousEvent.ready ≠ 1 := by
    rw [(keyboardSetup_spec hsetup).2, hboot]
    decide
  obtain ⟨tr₁, t, tr₂, heq, ht, hlast, hevent⟩ := run_pending h hk hready
  refine ⟨tr₁, t, tr₂, heq, ht, hlast, ?_⟩
  rw [hevent]
  exact ⟨keyEvent_keycode t.pre.modifiers t.label, rfl, rfl, consistent_of_upper⟩

end Run

/-! ### A modifier after the key -/

/-- A keyboard that sends the given bytes to a controller that is always idle. -/
def quietPorts (bytes : List Byte) : Ports where
  data i := bytes.getD i 0
  taken := 0
  status _ := 0
  polled := 0
  written := []

/-- The driver before its setup. -/
def bootDriver (bytes : List Byte) : Driver := ⟨.zero, .zero, quietPorts bytes⟩

/-- The driver after its setup. -/
def readyDriver (bytes : List Byte) : Driver :=
  ⟨.zero, .zero, { quietPorts bytes with polled := 2, written := [0xED, 0x00] }⟩

/-- The driver after the first key, the letter A. -/
def letterDriver (bytes : List Byte) : Driver :=
  { readyDriver bytes with
    previousEvent := keyEvent .zero ⟨0x1E, 1, false⟩
    ports := { (readyDriver bytes).ports with taken := 1 } }

/-- The letter A, and the left Control key behind it: the layout is still the same. -/
theorem pending_event_control : ∃ tr s, Run HandlerStep (readyDriver [0x1E, 0x1D]) tr s ∧
    tr.map (fun t => t.label.keycode) = [0x1E, 0x1D] ∧
    (∃ tr₁ t tr₂, tr = tr₁ ++ t :: tr₂ ∧ t.label.IsRegular ∧ (∀ t' ∈ tr₂, ¬ t'.label.IsRegular) ∧
      s.previousEvent.keycode.setWidth 8 = t.label.keycode ∧
      s.previousEvent.character = characterOf t.pre.modifiers t.label.keycode ∧
      s.previousEvent.modifiers = s.modifiers ∧
      (s.modifiers.upper = t.pre.modifiers.upper → s.previousEvent.Consistent)) ∧
    s.previousEvent.modifiers ≠ .zero ∧ s.previousEvent.Consistent := by
  have hletter : HandlerStep (readyDriver [0x1E, 0x1D]) ⟨0x1E, 1, false⟩ (letterDriver [0x1E, 0x1D]) :=
    ⟨by decide, 1, rfl⟩
  have hcontrol : HandlerStep (letterDriver [0x1E, 0x1D]) ⟨0x1D, 1, false⟩ _ := ⟨by decide, 1, rfl⟩
  have hsetup : keyboardSetup 1 (bootDriver [0x1E, 0x1D]) = some (readyDriver [0x1E, 0x1D]) := rfl
  have hrun := (Run.nil.snoc hletter).snoc hcontrol
  exact ⟨_, _, hrun, rfl, pending_event rfl hsetup hrun rfl, by decide, by decide⟩

/-- **Shift after the letter A**: the pending event says that Shift is down, and its character is the
small letter. -/
theorem shift_after_letter : ∃ k tr s, keyboardSetup 1 (bootDriver [0x1E, 0x2A]) = some k ∧
    Run HandlerStep k tr s ∧ tr.map (fun t => t.label.keycode) = [0x1E, 0x2A] ∧
      s.previousEvent.ready = 1 ∧ ¬ s.previousEvent.Consistent := by
  have hletter : HandlerStep (readyDriver [0x1E, 0x2A]) ⟨0x1E, 1, false⟩ (letterDriver [0x1E, 0x2A]) :=
    ⟨by decide, 1, rfl⟩
  have hshift : HandlerStep (letterDriver [0x1E, 0x2A]) ⟨0x2A, 1, false⟩ _ := ⟨by decide, 1, rfl⟩
  exact ⟨_, _, _, rfl, (Run.nil.snoc hletter).snoc hshift, rfl, rfl, by decide⟩

end RedFox32.Kernel.Keyboard
