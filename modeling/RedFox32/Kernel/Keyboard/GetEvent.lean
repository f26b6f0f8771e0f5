import RedFox32.Kernel.Keyboard.Pending
import RedFox32.Machine.Mailbox

/-!
# `Keyboard_GetEvent` between the interrupts

`Keyboard_GetEvent` takes `PreviousEvent` byte by byte with the interrupts enabled, and clears each byte
when it has copied it, the byte `Ready` first.  A key that comes before that byte is cleared replaces the
event; one that comes later is mixed into it.
-/

namespace RedFox32.Kernel.Keyboard

open RedFox32.Machine

/-! ### The bytes of an event -/

namespace KeyboardModifiers

/-- `((unsigned char*)&Modifiers)[1]` -/
def high (m : KeyboardModifiers) : Byte := (BitVec.ofBool m.rightMenu).setWidth 8

/-- `((unsigned char*)&Modifiers)[0] = b` -/
def setLow (m : KeyboardModifiers) (b : Byte) : KeyboardModifiers where
  scrollLock := b.getLsbD 0
  numLock := b.getLsbD 1
  capsLock := b.getLsbD 2
  leftShift := b.getLsbD 3
  rightShift := b.getLsbD 4
  control := b.getLsbD 5
  alt := b.getLsbD 6
  leftMenu := b.getLsbD 7
  rightMenu := m.rightMenu

/-- `((unsigned char*)&Modifiers)[1] = b` -/
def setHigh (m : KeyboardModifiers) (b : Byte) : KeyboardModifiers := { m with rightMenu := b.getLsbD 0 }

variable (m : KeyboardModifiers) (b : Byte)

@[simp] theorem high_setLow : (m.setLow b).high = m.high := rfl

@[simp] theorem low_setHigh : (m.setHigh b).low = m.low := rfl

@[simp] theorem low_setLow : (m.setLow b).low = b := by
  obtain ⟨h0, h1, h2, h3, h4, h5, h6, h7⟩ := (m.setLow b).low_bits
  ext i hi
  simp only [← BitVec.getLsbD_eq_getElem]
  interval_cases i <;> assumption

@[simp] theorem high_setHigh (m' : KeyboardModifiers) : (m.setHigh m'.high).high = m'.high := by
  unfold high setHigh
  cases m'.rightMenu <;> rfl

theorem setLow_self : m.setLow m.low = m := by
  obtain ⟨h0, h1, h2, h3, h4, h5, h6, h7⟩ := m.low_bits
  unfold setLow
  rw [h0, h1, h2, h3, h4, h5, h6, h7]

theorem setHigh_self : m.setHigh m.high = m := by
  unfold setHigh high
  simp

theorem eq_of_bytes {m m' : KeyboardModifiers} (hl : m.low = m'.low) (hh : m.high = m'.high) : m = m' := by
  have hself : ∀ m : KeyboardModifiers, (m.setLow m.low).setHigh m.high = m := by
    intro m
    rw [setLow_self, setHigh_self]
  rw [← hself m, ← hself m', hl, hh]
  rfl

end KeyboardModifiers

/-- The 16-bit number with the given bytes. -/
def ofBytes (high low : Byte) : BitVec 16 := high ++ low

@[simp] theorem low_ofBytes (high low : Byte) : (ofBytes high low).extractLsb' 0 8 = low :=
  BitVec.extractLsb'_append_eq_right

@[simp] theorem high_ofBytes (high low : Byte) : (ofBytes high low).extractLsb' 8 8 = high :=
  BitVec.extractLsb'_append_eq_left

theorem ofBytes_self (v : BitVec 16) : ofBytes (v.extractLsb' 8 8) (v.extractLsb' 0 8) = v := by
  unfold ofBytes
  ext i hi
  simp only [BitVec.getElem_append]
  grind

namespace KeyboardEvent

/-- `((char*)&e)[i]`; the byte 1 is padding. -/
def byte (e : KeyboardEvent) : ℕ → Byte
  | 0 => e.ready
  | 2 => e.keycode.extractLsb' 0 8
  | 3 => e.keycode.extractLsb' 8 8
  | 4 => e.character
  | 5 => e.state
  | 6 => e.modifiers.low
  | 7 => e.modifiers.high
  | _ => 0

/-- `((char*)&e)[i] = b` -/
def setByte (e : KeyboardEvent) (i : ℕ) (b : Byte) : KeyboardEvent :=
  match i with
  | 0 => { e with ready := b }
  | 2 => { e with keycode := ofBytes (e.keycode.extractLsb' 8 8) b }
  | 3 => { e with keycode := ofBytes b (e.keycode.extractLsb' 0 8) }
  | 4 => { e with character := b }
  | 5 => { e with state := b }
  | 6 => { e with modifiers := e.modifiers.setLow b }
  | 7 => { e with modifiers := e.modifiers.setHigh b }
  | _ => e

/-- `sizeof(struct KeyboardEvent)` -/
def size : ℕ := 8

theorem byte_setByte (s t : KeyboardEvent) (i j : ℕ) :
    (s.setByte i (t.byte i)).byte j = if j = i then t.byte i else s.byte j := by
  match i with
  | 0 | 1 | 2 | 3 | 4 | 5 | 6 | 7 =>
    match j with
    | 0 | 1 | 2 | 3 | 4 | 5 | 6 | 7 => simp [byte, setByte]
    | _ + 8 => rfl
  | i + 8 =>
    have hzero : t.byte (i + 8) = 0 := rfl
    split_ifs with hij
    · rw [hij]
      rfl
    · rfl

theorem eq_of_byte {s t : KeyboardEvent} (h : ∀ i < size, s.byte i = t.byte i) : s = t := by
  have hkeycode : s.keycode = t.keycode := by
    have h2 : s.keycode.extractLsb' 0 8 = t.keycode.extractLsb' 0 8 := h 2 (by decide)
    have h3 : s.keycode.extractLsb' 8 8 = t.keycode.extractLsb' 8 8 := h 3 (by decide)
    rw [← ofBytes_self s.keycode, ← ofBytes_self t.keycode, h2, h3]
  have hmodifiers : s.modifiers = t.modifiers :=
    KeyboardModifiers.eq_of_bytes (h 6 (by decide)) (h 7 (by decide))
  exact KeyboardEvent.ext (h 0 (by decide)) hkeycode (h 4 (by decide)) (h 5 (by decide)) hmodifiers

/-- The event, seen as its bytes. -/
def cells : Cells KeyboardEvent Byte size := ⟨byte, setByte, zero, byte_setByte, fun _ _ => eq_of_byte⟩

end KeyboardEvent

/-! ### The reader -/

/-- An interrupt, or a step of `Keyboard_GetEvent`: its call, the test of `Ready`, the copy of a byte, the
clear of a byte, and its return. -/
inductive ReadAct where
  | interrupt
  | call
  | test
  | copy
  | clear
  | ret
  deriving DecidableEq

/-- The driver, the static `Event` of `Keyboard_GetEvent` and where that function is.  To speak of them,
the event of the last key with the modifiers that the handler stored in it since, and the number of keys
that made an event. -/
structure Reader where
  driver : Driver
  event : KeyboardEvent
  phase : MailPhase
  posted : KeyboardEvent
  keys : ℕ

/-- The number of events that a key makes. -/
def Scancode.events (sc : Scancode) : ℕ :=
  match keyCase sc.keycode with
  | .regular => 1
  | _ => 0

namespace Reader

/-- An interrupt, when it returns, or the next step of `Keyboard_GetEvent`. -/
def next (fuel : ℕ) (r : Reader) (a : ReadAct) : Option Reader :=
  match a, r.phase with
  | .interrupt, _ => do
    let k ← keyboardHandler fuel r.driver
    let sc := r.driver.ports.scancode
    some { r with
      driver := k
      posted := eventAfter r.driver.modifiers r.posted sc
      keys := r.keys + sc.events }
  | .call, .outside => some { r with phase := .waiting }
  | .test, .waiting =>
    if r.driver.previousEvent.ready = 0 then some r else some { r with phase := .copying 0 }
  | .copy, .copying i =>
    if i < KeyboardEvent.size then
      some { r with
        event := r.event.setByte i (r.driver.previousEvent.byte i)
        phase := .clearing i }
    else none
  | .clear, .clearing i =>
    some { r with
      driver := { r.driver with previousEvent := r.driver.previousEvent.setByte i 0 }
      phase := .copying (i + 1) }
  | .ret, .copying i => if i < KeyboardEvent.size then none else some { r with phase := .outside }
  | _, _ => none

/-- The reader before the first call. -/
def start (k : Driver) : Reader := ⟨k, .zero, .outside, .zero, 0⟩

end Reader

/-- The steps of the reader. -/
def ReadStep (r : Reader) (a : ReadAct) (r' : Reader) : Prop := ∃ fuel, r.next fuel a = some r'

/-- The events that were returned, oldest first. -/
def returnedEvents (tr : List (Transition Reader ReadAct)) : List KeyboardEvent :=
  tr.filterMap fun t => if t.label = .ret then some t.pre.event else none

/-- At some moment `PreviousEvent` was the event `e`, which the key number `m` had made, and nothing of it
was cleared. -/
def PendingIn (tr : List (Transition Reader ReadAct)) (e : KeyboardEvent) (m : ℕ) : Prop :=
  ∃ t ∈ tr, t.pre.driver.previousEvent = e ∧ t.pre.posted = e ∧ t.pre.keys = m ∧ e.ready = 1

/-! ### The reader is a mailbox -/

/-- `PreviousEvent` is the slot and `Event` the copy. -/
def Reader.mailbox (r : Reader) : Mailbox KeyboardEvent :=
  ⟨r.driver.previousEvent, r.event, r.phase, r.posted, r.keys⟩

/-- **The interrupt does no harm**: `PreviousEvent` keeps the bytes that are still to be copied, and if it
is ready then the bytes that are still to be cleared are zero. -/
def Reader.Harmless (r : Reader) : Prop :=
  r.mailbox.Harmless KeyboardEvent.cells
    (eventAfter r.driver.modifiers r.driver.previousEvent r.driver.ports.scancode)

/-- A regular key posts its event, and any other key amends the one that is there. -/
def mailLabel (t : Transition Reader ReadAct) : MailLabel KeyboardEvent :=
  match t.label with
  | .interrupt =>
    let m := t.pre.driver.modifiers
    let sc := t.pre.driver.ports.scancode
    match keyCase sc.keycode with
    | .regular => .post (keyEvent m sc)
    | _ => .amend fun e => eventAfter m e sc
  | .call => .call
  | .test => .test
  | .copy => .copy
  | .clear => .clear
  | .ret => .ret t.pre.event

section Step

variable {r r' : Reader}

theorem zero_byte (i : ℕ) : KeyboardEvent.zero.byte i = 0 := by
  match i with
  | 0 | 1 | 2 | 3 | 4 | 5 | 6 | 7 => rfl
  | _ + 8 => rfl

theorem eventAfter_ready {m : KeyboardModifiers} {sc : Scancode} (h : ¬ sc.IsRegular)
    (e : KeyboardEvent) : (eventAfter m e sc).ready = e.ready := by
  unfold eventAfter
  unfold Scancode.IsRegular at h
  cases hcase : keyCase sc.keycode with
  | regular => exact absurd hcase h
  | _ => rfl

/-- An interrupt posts or amends. -/
theorem readStep_interrupt (h : ReadStep r .interrupt r') :
    MailStep KeyboardEvent.cells 1 r.mailbox (mailLabel ⟨r, .interrupt, r'⟩) r'.mailbox := by
  obtain ⟨fuel, h⟩ := h
  unfold Reader.next at h
  simp only [Option.bind_eq_bind, Option.bind_eq_some_iff, Option.some.injEq] at h
  obtain ⟨k, hk, rfl⟩ := h
  obtain ⟨-, he, -⟩ := keyboardHandler_spec hk
  unfold mailLabel Reader.mailbox
  dsimp only
  rw [he]
  unfold Scancode.events
  by_cases hreg : r.driver.ports.scancode.IsRegular
  · have hcase : keyCase r.driver.ports.scancode.keycode = .regular := hreg
    unfold eventAfter
    rw [hcase]
    exact .post _ _ rfl
  · have hamend : MailStep KeyboardEvent.cells 1 r.mailbox
        (.amend fun e => eventAfter r.driver.modifiers e r.driver.ports.scancode) _ :=
      .amend _ _ (eventAfter_ready hreg)
    cases hcase : keyCase r.driver.ports.scancode.keycode with
    | regular => exact absurd hcase hreg
    | _ => exact hamend

/-- **A step of the reader** is a step of the mailbox. -/
theorem readStep_mail {a : ReadAct} (h : ReadStep r a r') :
    MailStep KeyboardEvent.cells 1 r.mailbox (mailLabel ⟨r, a, r'⟩) r'.mailbox := by
  obtain ⟨fuel, h⟩ := h
  have hnext := h
  unfold Reader.next at h
  split at h
  next => exact readStep_interrupt ⟨fuel, hnext⟩
  next hphase =>
    cases h
    exact .call r.mailbox hphase
  next hphase =>
    split_ifs at h with hready
    · cases h
      exact .wait r.mailbox hphase (not_not.2 hready)
    · cases h
      exact .pass r.mailbox hphase hready
  next i hphase =>
    split_ifs at h with hi
    cases h
    exact .copy r.mailbox i hphase hi
  next i hphase =>
    cases h
    have hclear := @MailStep.clear _ _ _ KeyboardEvent.cells 1 r.mailbox i hphase
    have hzero : KeyboardEvent.cells.get KeyboardEvent.cells.zero i = 0 := zero_byte i
    rw [hzero] at hclear
    exact hclear
  next i hphase =>
    split_ifs at h with hi
    cases h
    exact .ret r.mailbox i hphase (by omega)
  next => cases h

end Step

/-! ### Runs -/

section Run

variable {boot k : Driver} {r : Reader} {tr : List (Transition Reader ReadAct)} {fuel : ℕ}

/-- The interrupts of a run do no harm. -/
def InterruptsHarmless (tr : List (Transition Reader ReadAct)) : Prop :=
  ∀ t ∈ tr, t.label = .interrupt → t.pre.Harmless

/-- The run of the mailbox. -/
def mailRun (tr : List (Transition Reader ReadAct)) :
    List (Transition (Mailbox KeyboardEvent) (MailLabel KeyboardEvent)) :=
  tr.map fun t => ⟨t.pre.mailbox, mailLabel t, t.post.mailbox⟩

theorem returned_mailRun : returned (mailRun tr) = returnedEvents tr := by
  unfold returned mailRun returnedEvents
  rw [List.filterMap_map]
  congr 1
  funext t
  obtain ⟨pre, label, post⟩ := t
  cases label with
  | interrupt =>
    simp only [Function.comp_apply, mailLabel]
    cases keyCase pre.driver.ports.scancode.keycode <;> rfl
  | _ => rfl

theorem pendingIn_of_displayed {e : KeyboardEvent} {m : ℕ}
    (h : Displayed KeyboardEvent.cells 1 (mailRun tr) e m) : PendingIn tr e m := by
  obtain ⟨u, hu, hslot, hposted, hcount, hflag⟩ := h
  obtain ⟨t, ht, rfl⟩ := List.mem_map.1 hu
  exact ⟨t, ht, hslot, hposted, hcount, hflag⟩

theorem harmlessAt_mailRun (h : InterruptsHarmless tr) :
    ∀ t ∈ mailRun tr, HarmlessAt KeyboardEvent.cells t := by
  intro u hu
  obtain ⟨⟨pre, label, post⟩, ht, rfl⟩ := List.mem_map.1 hu
  cases label with
  | interrupt =>
    have hharm : pre.Harmless := h _ ht rfl
    unfold HarmlessAt mailLabel
    unfold Reader.Harmless at hharm
    dsimp only
    cases hcase : keyCase pre.driver.ports.scancode.keycode with
    | regular =>
      have hevent : eventAfter pre.driver.modifiers pre.driver.previousEvent pre.driver.ports.scancode =
          keyEvent pre.driver.modifiers pre.driver.ports.scancode := by
        unfold eventAfter
        rw [hcase]
      rwa [hevent] at hharm
    | _ => exact hharm
  | _ => trivial

/-- **The events returned**: when no interrupt does harm, each is the whole event that was pending at some
moment, and no key is returned twice. -/
theorem getEvent_returns (hboot : boot.previousEvent.ready = 0) (hsetup : keyboardSetup fuel boot = some k)
    (h : Run ReadStep (.start k) tr r) (hharm : InterruptsHarmless tr) :
    ∃ owners : List ℕ, owners.Pairwise (· < ·) ∧
      List.Forall₂ (PendingIn tr) (returnedEvents tr) owners := by
  have hready : ¬ KeyboardEvent.cells.Ready (Reader.start k).mailbox.slot := by
    have hk : k.previousEvent.ready = 0 := (keyboardSetup_spec hsetup).2 ▸ hboot
    exact not_not.2 hk
  have hmail := h.map Reader.mailbox mailLabel fun t ht => readStep_mail ht
  obtain ⟨last, ⟨owners, hsorted, -, hall⟩, -⟩ :=
    run_delivers (by decide) rfl hready hmail (harmlessAt_mailRun hharm)
  refine ⟨owners, hsorted, ?_⟩
  rw [← returned_mailRun]
  exact List.Forall₂.imp (fun _ _ => pendingIn_of_displayed) hall

end Run

/-! ### Two keys -/

/-- Actions that are possible one after another are a run. -/
theorem run_actions {r : Reader} {acts : List ReadAct}
    (h : ∀ t ∈ trace (follow (Reader.next 1)) r acts, (t.pre.next 1 t.label).isSome) :
    Run ReadStep r (trace (follow (Reader.next 1)) r acts) (acts.foldl (follow (Reader.next 1)) r) :=
  (run_follow h).imp fun _ _ hnext => ⟨1, hnext⟩

/-- Before the byte `Ready` is cleared no interrupt does harm. -/
def Reader.Early (r : Reader) : Prop :=
  match r.phase with
  | .copying i => i = 0
  | .clearing i => i = 0
  | _ => True

instance (r : Reader) : Decidable r.Early := by
  unfold Reader.Early
  cases r.phase <;> infer_instance

theorem Reader.Early.harmless {r : Reader} (h : r.Early) : r.Harmless := by
  obtain ⟨driver, event, phase, posted, keys⟩ := r
  cases phase with
  | copying i =>
    obtain rfl : i = 0 := h
    trivial
  | clearing i =>
    obtain rfl : i = 0 := h
    trivial
  | _ => trivial

/-- A letter, and another one before its first byte is cleared. -/
def earlyActs : List ReadAct :=
  [.interrupt, .call, .test, .copy, .interrupt, .clear] ++
    (List.replicate 7 [ReadAct.copy, .clear]).flatten ++ [.ret]

def earlyTrace : List (Transition Reader ReadAct) :=
  trace (follow (Reader.next 1)) (.start (readyDriver [0x1E, 0x30])) earlyActs

/-- The second letter replaces the first one. -/
theorem getEvent_returns_second : returnedEvents earlyTrace = [keyEvent .zero ⟨0x30, 1, false⟩] ∧
    ∃ owners : List ℕ, owners.Pairwise (· < ·) ∧
      List.Forall₂ (PendingIn earlyTrace) (returnedEvents earlyTrace) owners := by
  refine ⟨by decide, ?_⟩
  have hsetup : keyboardSetup 1 (bootDriver [0x1E, 0x30]) = some (readyDriver [0x1E, 0x30]) := rfl
  have hearly : ∀ t ∈ earlyTrace, t.label = .interrupt → t.pre.Early := by decide
  exact getEvent_returns rfl hsetup (@run_actions _ earlyActs (by decide))
    fun t ht hlabel => (hearly t ht hlabel).harmless

/-- A letter, and another one when half of its bytes are taken. -/
def lateActs : List ReadAct :=
  [.interrupt, .call, .test] ++ (List.replicate 4 [ReadAct.copy, .clear]).flatten ++ [.interrupt] ++
    (List.replicate 4 [ReadAct.copy, .clear]).flatten ++ [.ret]

/-- The code of the first letter, and the character of the second. -/
def mixedEvent : KeyboardEvent := ⟨1, 0x001E, 0x62, 1, .zero⟩

/-- **Two keys are mixed**: the event returned is one that `PreviousEvent` never was. -/
theorem keys_mixed : ∃ tr r, keyboardSetup 1 (bootDriver [0x1E, 0x30]) = some (readyDriver [0x1E, 0x30]) ∧
    Run ReadStep (.start (readyDriver [0x1E, 0x30])) tr r ∧ returnedEvents tr = [mixedEvent] ∧
    ∀ t ∈ tr, t.pre.driver.previousEvent ≠ mixedEvent ∧ t.post.driver.previousEvent ≠ mixedEvent :=
  ⟨_, _, rfl, @run_actions _ lateActs (by decide), by decide, by decide⟩

end RedFox32.Kernel.Keyboard
