import RedFox32.Kernel.Keyboard.Defs
import RedFox32.Machine.Runs

/-!
# What one interrupt of the keyboard does

The globals after `Keyboard_Handler` depend on the scancode alone.  The ports do not: `UpdateLEDS` reads
the data port while the input buffer of the controller is full, and what it reads there nobody decodes.
So a lock key costs a byte of the keyboard for every poll that finds the controller busy.
-/

namespace RedFox32.Kernel.Keyboard

open RedFox32.Machine

/-! ### The ports -/

namespace Ports

variable (p : Ports)

/-- The bytes of the scancode that comes next. -/
def scancodeBytes : List Byte :=
  if p.data p.taken = 0xE0 then [0xE0, p.data (p.taken + 1)] else [p.data p.taken]

/-- The scancode that comes next. -/
def scancode : Scancode := p.readScancode.1

/-- The poll number `i` from now finds the input buffer of the controller empty. -/
def Idle (i : ℕ) : Prop := p.status (p.polled + i) &&& 0x02 = 0

instance (i : ℕ) : Decidable (p.Idle i) := by unfold Idle; infer_instance

/-- Reading a scancode takes its bytes and nothing else. -/
theorem readScancode_ports :
    p.readScancode.2 = { p with taken := p.taken + p.scancodeBytes.length } := by
  unfold readScancode scancodeBytes inbData
  dsimp only
  split_ifs <;> rfl

end Ports

section Drain

variable {p p' : Ports} {fuel : ℕ}

theorem drain_idle (h : p.Idle 0) : drain (fuel + 1) p = some { p with polled := p.polled + 1 } := by
  have h0 : p.status p.polled &&& 0x02 = 0 := h
  unfold drain Ports.inbControl
  dsimp only
  rw [if_neg (not_not.2 h0)]

/-- **The loop of `UpdateLEDS`** leaves the streams alone, and takes no byte exactly when its first poll
finds the controller idle. -/
theorem drain_spec (h : drain fuel p = some p') :
    p'.data = p.data ∧ p'.status = p.status ∧ p.taken ≤ p'.taken ∧
      (p'.taken = p.taken ↔ p.Idle 0) ∧ (p.Idle 0 → p'.polled = p.polled + 1) := by
  induction fuel generalizing p with
  | zero => cases h
  | succ fuel ih =>
    by_cases hidle : p.Idle 0
    · rw [drain_idle hidle] at h
      cases h
      exact ⟨rfl, rfl, le_rfl, iff_of_true rfl hidle, fun _ => rfl⟩
    · have hbusy : p.status p.polled &&& 0x02 ≠ 0 := hidle
      unfold drain Ports.inbControl Ports.inbData at h
      dsimp only at h
      rw [if_pos hbusy] at h
      obtain ⟨hdata, hstatus, htaken, -, -⟩ := ih h
      dsimp only at hdata hstatus htaken
      exact ⟨hdata, hstatus, by omega, iff_of_false (by omega) hidle, fun hi => absurd hi hidle⟩

end Drain

section UpdateLEDS

variable {k k' : Driver} {fuel : ℕ}

theorem updateLEDS_idle (h0 : k.ports.Idle 0) (h1 : k.ports.Idle 1) :
    ∃ p, updateLEDS (fuel + 1) k = some { k with ports := p } ∧ p.taken = k.ports.taken := by
  unfold updateLEDS
  rw [drain_idle h0, Option.bind_eq_bind, Option.bind_some, drain_idle h1]
  exact ⟨_, rfl, rfl⟩

/-- **`UpdateLEDS`** changes the ports only, and takes no byte exactly when both its loops find the
controller idle. -/
theorem updateLEDS_spec (h : updateLEDS fuel k = some k') :
    k'.modifiers = k.modifiers ∧ k'.previousEvent = k.previousEvent ∧
      k'.ports.data = k.ports.data ∧ k'.ports.status = k.ports.status ∧
      k.ports.taken ≤ k'.ports.taken ∧
      (k'.ports.taken = k.ports.taken ↔ k.ports.Idle 0 ∧ k.ports.Idle 1) := by
  unfold updateLEDS at h
  simp only [Option.bind_eq_bind, Option.bind_eq_some_iff, Option.some.injEq] at h
  obtain ⟨p, hp, q, hq, rfl⟩ := h
  obtain ⟨hd, hs, ht, hiff, hpoll⟩ := drain_spec hp
  obtain ⟨hd', hs', ht', hiff', -⟩ := drain_spec hq
  unfold Ports.outbData at *
  dsimp only at *
  refine ⟨rfl, rfl, hd'.trans hd, hs'.trans hs, ht.trans ht', ?_⟩
  constructor
  · intro heq
    have h0 := hiff.1 (by omega)
    have h1 : p.status p.polled &&& 0x02 = 0 := hiff'.1 (by omega)
    rw [hpoll h0, hs] at h1
    exact ⟨h0, h1⟩
  · rintro ⟨h0, h1⟩
    have h1' : p.status p.polled &&& 0x02 = 0 := by
      rw [hpoll h0, hs]
      exact h1
    exact (hiff'.2 h1').trans (hiff.2 h0)

end UpdateLEDS

/-! ### The globals -/

/-- `Modifiers` after the scancode. -/
def modifiersAfter (m : KeyboardModifiers) (sc : Scancode) : KeyboardModifiers :=
  match keyCase sc.keycode with
  | .level set => set (sc.state.getLsbD 0) m
  | .lock toggle => if sc.state = keyStateUp then toggle m else m
  | .ignore => m
  | .regular => m

/-- `PreviousEvent` after the scancode. -/
def eventAfter (m : KeyboardModifiers) (e : KeyboardEvent) (sc : Scancode) : KeyboardEvent :=
  match keyCase sc.keycode with
  | .level _ => { e with modifiers := modifiersAfter m sc }
  | .lock _ => { e with modifiers := modifiersAfter m sc }
  | .ignore => e
  | .regular => keyEvent m sc

/-- The key is a lock key. -/
def Scancode.IsLock (sc : Scancode) : Prop := ∃ toggle, keyCase sc.keycode = .lock toggle

/-- The key is not named in the `switch`. -/
def Scancode.IsRegular (sc : Scancode) : Prop := keyCase sc.keycode = .regular

section Handler

variable {k k' : Driver} {sc : Scancode} {fuel : ℕ}

/-- **A scancode** changes the globals as it says, and takes bytes of its own exactly when it is a lock
key that finds the controller busy. -/
theorem handleScancode_spec (h : handleScancode fuel k sc = some k') :
    k'.modifiers = modifiersAfter k.modifiers sc ∧
      k'.previousEvent = eventAfter k.modifiers k.previousEvent sc ∧
      k'.ports.data = k.ports.data ∧ k'.ports.status = k.ports.status ∧
      k.ports.taken ≤ k'.ports.taken ∧
      (k'.ports.taken = k.ports.taken ↔ (sc.IsLock → k.ports.Idle 0 ∧ k.ports.Idle 1)) := by
  unfold handleScancode at h
  unfold modifiersAfter eventAfter modifiersAfter Scancode.IsLock
  cases hcase : keyCase sc.keycode with
  | level set =>
    simp only [hcase, Option.some.injEq] at h
    subst h
    simp [updateEventModifiers]
  | lock toggle =>
    simp only [hcase, Option.bind_eq_bind, Option.bind_eq_some_iff, Option.some.injEq] at h
    obtain ⟨g, hg, rfl⟩ := h
    obtain ⟨hm, he, hd, hs, ht, hiff⟩ := updateLEDS_spec hg
    have hports : (if sc.state = keyStateUp then { k with modifiers := toggle k.modifiers } else k).ports =
        k.ports := by split_ifs <;> rfl
    have hevent : (if sc.state = keyStateUp then { k with modifiers := toggle k.modifiers }
        else k).previousEvent = k.previousEvent := by split_ifs <;> rfl
    have hmods : (if sc.state = keyStateUp then { k with modifiers := toggle k.modifiers }
        else k).modifiers = if sc.state = keyStateUp then toggle k.modifiers else k.modifiers := by
      split_ifs <;> rfl
    rw [hports] at hd hs ht hiff
    rw [hevent] at he
    rw [hmods] at hm
    refine ⟨hm, ?_, hd, hs, ht, hiff.trans (by simp)⟩
    simp [updateEventModifiers, hm, he]
  | ignore =>
    simp only [hcase, Option.some.injEq] at h
    subst h
    simp
  | regular =>
    simp only [hcase, Option.some.injEq] at h
    subst h
    simp

/-- A scancode that finds the controller idle, or asks nothing of it, is handled. -/
theorem handleScancode_some (h : sc.IsLock → k.ports.Idle 0 ∧ k.ports.Idle 1) :
    ∃ k', handleScancode (fuel + 1) k sc = some k' := by
  unfold handleScancode
  cases hcase : keyCase sc.keycode with
  | level set => exact ⟨_, rfl⟩
  | lock toggle =>
    obtain ⟨h0, h1⟩ := h ⟨toggle, hcase⟩
    by_cases hup : sc.state = keyStateUp
    · obtain ⟨p, hp, -⟩ := @updateLEDS_idle { k with modifiers := toggle k.modifiers } fuel h0 h1
      simp only [if_pos hup, hp]
      exact ⟨_, rfl⟩
    · obtain ⟨p, hp, -⟩ := @updateLEDS_idle k fuel h0 h1
      simp only [if_neg hup, hp]
      exact ⟨_, rfl⟩
  | ignore => exact ⟨_, rfl⟩
  | regular => exact ⟨_, rfl⟩

/-- The controller is idle when the next scancode is a lock key. -/
def Driver.NotBusy (k : Driver) : Prop := k.ports.scancode.IsLock → k.ports.Idle 0 ∧ k.ports.Idle 1

/-- **One interrupt** handles the next scancode, and takes no byte beyond it exactly when it does not find
the controller busy. -/
theorem keyboardHandler_spec (h : keyboardHandler fuel k = some k') :
    k'.modifiers = modifiersAfter k.modifiers k.ports.scancode ∧
      k'.previousEvent = eventAfter k.modifiers k.previousEvent k.ports.scancode ∧
      k'.ports.data = k.ports.data ∧ k'.ports.status = k.ports.status ∧
      k.ports.taken + k.ports.scancodeBytes.length ≤ k'.ports.taken ∧
      (k'.ports.taken = k.ports.taken + k.ports.scancodeBytes.length ↔ k.NotBusy) := by
  unfold keyboardHandler at h
  dsimp only at h
  rw [Ports.readScancode_ports] at h
  exact handleScancode_spec h

theorem keyboardHandler_some (h : k.NotBusy) : ∃ k', keyboardHandler (fuel + 1) k = some k' := by
  unfold keyboardHandler
  dsimp only
  rw [Ports.readScancode_ports]
  exact handleScancode_some h

end Handler

/-! ### Runs of interrupts -/

/-- An interrupt that returns, with the scancode that it handled. -/
def HandlerStep (k : Driver) (sc : Scancode) (k' : Driver) : Prop :=
  sc = k.ports.scancode ∧ ∃ fuel, keyboardHandler fuel k = some k'

/-- The interrupt returns and took from the data port the bytes of its scancode and no others. -/
def TakesScancode (k : Driver) : Prop :=
  ∃ fuel k', keyboardHandler fuel k = some k' ∧
    k'.ports.taken = k.ports.taken + k.ports.scancodeBytes.length

/-- The bytes that a run decoded. -/
def decoded (tr : List (Transition Driver Scancode)) : List Byte :=
  tr.flatMap fun t => t.pre.ports.scancodeBytes

/-- The bytes that were taken from the data port between two moments. -/
def bytesTaken (p p' : Ports) : List Byte :=
  (List.range' p.taken (p'.taken - p.taken)).map p.data

theorem takesScancode_iff (k : Driver) : TakesScancode k ↔ k.NotBusy := by
  constructor
  · rintro ⟨fuel, k', h, heq⟩
    obtain ⟨-, -, -, -, -, hiff⟩ := keyboardHandler_spec h
    exact hiff.1 heq
  · intro hn
    obtain ⟨k', h⟩ := @keyboardHandler_some k 0 hn
    obtain ⟨-, -, -, -, -, hiff⟩ := keyboardHandler_spec h
    exact ⟨1, k', h, hiff.2 hn⟩

theorem bytesTaken_scancode (p : Ports) :
    (List.range' p.taken p.scancodeBytes.length).map p.data = p.scancodeBytes := by
  unfold Ports.scancodeBytes
  split_ifs with h
  · simp [List.range'_succ, h]
  · simp [List.range'_succ]

section Run

variable {k s : Driver} {tr : List (Transition Driver Scancode)}

theorem run_data (h : Run HandlerStep k tr s) : s.ports.data = k.ports.data := by
  induction h with
  | nil => rfl
  | snoc _ hstep ih =>
    obtain ⟨-, fuel, hk⟩ := hstep
    exact (keyboardHandler_spec hk).2.2.1.trans ih

/-- **What a run decodes**: at most as many bytes as it takes, as many only if it never finds the
controller busy, and then the very bytes it takes. -/
theorem run_decoded (h : Run HandlerStep k tr s) :
    k.ports.taken + (decoded tr).length ≤ s.ports.taken ∧
      (k.ports.taken + (decoded tr).length = s.ports.taken → ∀ t ∈ tr, t.pre.NotBusy) ∧
      ((∀ t ∈ tr, t.pre.NotBusy) → decoded tr = bytesTaken k.ports s.ports) := by
  induction h with
  | nil => simp [decoded, bytesTaken]
  | @snoc tr s s' sc hrun hstep ih =>
    obtain ⟨hle, hbusy, hall⟩ := ih
    have hdata := run_data hrun
    obtain ⟨-, fuel, hk⟩ := hstep
    obtain ⟨-, -, -, -, hle', hiff⟩ := keyboardHandler_spec hk
    have happend : decoded (tr ++ [⟨s, sc, s'⟩]) = decoded tr ++ s.ports.scancodeBytes := by
      simp [decoded]
    have hmem : ∀ P : Driver → Prop, (∀ t ∈ tr ++ [⟨s, sc, s'⟩], P t.pre) ↔ (∀ t ∈ tr, P t.pre) ∧ P s := by
      simp [or_imp, forall_and]
    rw [happend, hmem, List.length_append]
    refine ⟨by omega, fun heq => ⟨hbusy (by omega), hiff.1 (by omega)⟩, fun ⟨hn, hlast⟩ => ?_⟩
    have htaken := hiff.2 hlast
    rw [hall hn, ← bytesTaken_scancode s.ports, hdata]
    unfold bytesTaken
    have hsplit : s'.ports.taken - k.ports.taken =
        (s.ports.taken - k.ports.taken) + s.ports.scancodeBytes.length := by omega
    have hfrom : s.ports.taken = k.ports.taken + (s.ports.taken - k.ports.taken) := by omega
    rw [hsplit, ← List.range'_append_1, List.map_append, ← hfrom]

end Run

/-- **Every byte is decoded once** exactly when no lock key finds the controller busy: this holds of one
interrupt, and of every run of interrupts. -/
theorem decodes_iff_notBusy (k : Driver) :
    (TakesScancode k ↔ k.NotBusy) ∧ ∀ tr s, Run HandlerStep k tr s →
      (decoded tr = bytesTaken k.ports s.ports ↔ ∀ t ∈ tr, t.pre.NotBusy) := by
  refine ⟨takesScancode_iff k, fun tr s h => ?_⟩
  obtain ⟨hle, hbusy, hall⟩ := run_decoded h
  refine ⟨fun heq => hbusy ?_, hall⟩
  have hlen := congrArg List.length heq
  simp only [bytesTaken, List.length_map, List.length_range'] at hlen
  omega

/-- A keyboard that sends Caps Lock and then the letter A, to a controller whose first poll is busy. -/
def busyPorts : Ports where
  data i := [0x3A, 0x1E].getD i 0
  taken := 0
  status i := [0x02].getD i 0
  polled := 0
  written := []

/-- **A key is lost** when Caps Lock finds the controller busy. -/
theorem busy_controller_loses_key : ∃ k k', k.ports = busyPorts ∧ HandlerStep k ⟨0x3A, 1, false⟩ k' ∧
    k.ports.scancodeBytes = [0x3A] ∧ bytesTaken k.ports k'.ports = [0x3A, 0x1E] ∧
    ¬ TakesScancode k := by
  refine ⟨⟨.zero, .zero, busyPorts⟩, _, rfl, ⟨by decide, 2, rfl⟩, by decide, rfl, ?_⟩
  rw [takesScancode_iff]
  intro h
  exact absurd (h ⟨_, rfl⟩).1 (by decide)

end RedFox32.Kernel.Keyboard
