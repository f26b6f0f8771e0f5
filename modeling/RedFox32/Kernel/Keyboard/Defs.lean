import RedFox32.Machine.Bytes

/-!
# The keyboard driver `Keyboard.c`

`Keyboard_Handler` over the globals `Modifiers` and `PreviousEvent` and over the two ports of the
controller.  The data port gives the bytes that the keyboard sends, one after another; the control port
gives whatever status the controller has at each poll.  The loops of `UpdateLEDS` poll until the status
lets them go, so they take a fuel and give `none` when it runs out.
-/

namespace RedFox32.Kernel.Keyboard

open RedFox32.Machine

/-! ### `Keyboard.h` and the layout `GB.h` -/

/-- `KEY_STATE_UP` -/
def keyStateUp : Byte := 0

/-- `KEY_STATE_DOWN` -/
def keyStateDown : Byte := 1

/-- `KEY_CONTROL` -/
def keyControl : Byte := 0x1D

/-- `KEY_LEFT_SHIFT` -/
def keyLeftShift : Byte := 0x2A

/-- `KEY_RIGHT_SHIFT` -/
def keyRightShift : Byte := 0x36

/-- `KEY_ALT` -/
def keyAlt : Byte := 0x38

/-- `KEY_CAPS_LOCK` -/
def keyCapsLock : Byte := 0x3A

/-- `KEY_NUM_LOCK` -/
def keyNumLock : Byte := 0x45

/-- `KEY_SCROLL_LOCK` -/
def keyScrollLock : Byte := 0x46

/-- `KEY_MENU_LEFT` -/
def keyMenuLeft : Byte := 0x5B

/-- `KEY_MENU_RIGHT` -/
def keyMenuRight : Byte := 0x5D

/-- `KEY_CAPS_IGNORE` -/
def keyCapsIgnore : Byte := 0x7A

/-- `struct KeyboardModifiers`, whose fields are single bits. -/
@[ext] structure KeyboardModifiers where
  scrollLock : Bool
  numLock : Bool
  capsLock : Bool
  leftShift : Bool
  rightShift : Bool
  control : Bool
  alt : Bool
  leftMenu : Bool
  rightMenu : Bool
  deriving DecidableEq

/-- All modifiers off. -/
def KeyboardModifiers.zero : KeyboardModifiers :=
  ⟨false, false, false, false, false, false, false, false, false⟩

/-- `*(unsigned char*)&Modifiers` -/
def KeyboardModifiers.low (m : KeyboardModifiers) : Byte :=
  BitVec.ofBool m.leftMenu ++ BitVec.ofBool m.alt ++ BitVec.ofBool m.control ++
    BitVec.ofBool m.rightShift ++ BitVec.ofBool m.leftShift ++ BitVec.ofBool m.capsLock ++
    BitVec.ofBool m.numLock ++ BitVec.ofBool m.scrollLock

/-- The bits of the low byte are the first eight fields. -/
theorem KeyboardModifiers.low_bits (m : KeyboardModifiers) :
    m.low.getLsbD 0 = m.scrollLock ∧ m.low.getLsbD 1 = m.numLock ∧ m.low.getLsbD 2 = m.capsLock ∧
      m.low.getLsbD 3 = m.leftShift ∧ m.low.getLsbD 4 = m.rightShift ∧ m.low.getLsbD 5 = m.control ∧
      m.low.getLsbD 6 = m.alt ∧ m.low.getLsbD 7 = m.leftMenu := by
  unfold low
  simp only [BitVec.getLsbD_append, BitVec.getLsbD_ofBool]
  simp

/-- `struct KeyboardEvent` -/
@[ext] structure KeyboardEvent where
  ready : Byte
  keycode : BitVec 16
  character : Byte
  state : Byte
  modifiers : KeyboardModifiers
  deriving DecidableEq

/-- The event with all bytes zero. -/
def KeyboardEvent.zero : KeyboardEvent := ⟨0, 0, 0, 0, .zero⟩

/-- The 128 entries of a layout: those from 0, those of the number pad from 0x47, and that of 0x56. -/
def layout (main pad : List Char) (extra : Char) : List Byte :=
  (main ++ List.replicate (0x47 - main.length) '\x00' ++ pad ++
    List.replicate (0x56 - 0x47 - pad.length) '\x00' ++ [extra] ++
    List.replicate (0x80 - 0x57) '\x00').map fun c => BitVec.ofNat 8 c.toNat

/-- `KeyboardLayout` -/
def keyboardLayout : List Byte :=
  layout
    ['\x00', '\x00', '1', '2', '3', '4', '5', '6', '7', '8', '9', '0', '-', '=',
      '\x08', '\t', 'q', 'w', 'e', 'r', 't', 'y', 'u', 'i', 'o', 'p', '[', ']',
      '\n', '\x00', 'a', 's', 'd', 'f', 'g', 'h', 'j', 'k', 'l', ';', '\x27',
      '\x60', '\x00', '#', 'z', 'x', 'c', 'v', 'b', 'n', 'm', ',', '.', '/', '\x00',
      '*', '\x00', ' ']
    ['7', '8', '9', '-', '4', '5', '6', '+', '1', '2', '3', '0', '.'] '\x5c'

/-- `KeyboardLayoutCaps` -/
def keyboardLayoutCaps : List Byte :=
  layout
    ['\x00', '\x00', '!', '\x22', '\x00', '$', '%', '^', '&', '*', '(', '0', '_', '+',
      '\x08', '\t', 'Q', 'W', 'E', 'R', 'T', 'Y', 'U', 'I', 'O', 'P', '\x7b', '\x7d',
      '\n', '\x00', 'A', 'S', 'D', 'F', 'G', 'H', 'J', 'K', 'L', ':', '@',
      '\x60', '\x00', '~', 'Z', 'X', 'C', 'V', 'B', 'N', 'M', '<', '>', '?', '\x00',
      '*', '\x00', ' ']
    ['7', '8', '9', '-', '4', '5', '6', '+', '1', '2', '3', '0', '.'] '|'

example : keyboardLayout.length = 128 ∧ keyboardLayoutCaps.length = 128 := ⟨rfl, rfl⟩

/-! ### The ports -/

/-- The two ports of the controller: what the keyboard sends and how much of it was read, what the
control port shows and how often it was read, and what was written to the data port, oldest first. -/
structure Ports where
  data : ℕ → Byte
  taken : ℕ
  status : ℕ → Byte
  polled : ℕ
  written : List Byte

namespace Ports

variable (p : Ports)

/-- `inb(KEYBOARD_DATA_PORT)` -/
def inbData : Byte × Ports := (p.data p.taken, { p with taken := p.taken + 1 })

/-- `inb(KEYBOARD_CTRL_PORT)` -/
def inbControl : Byte × Ports := (p.status p.polled, { p with polled := p.polled + 1 })

/-- `outb(KEYBOARD_DATA_PORT, value)` -/
def outbData (value : Byte) : Ports := { p with written := p.written ++ [value] }

end Ports

/-! ### The driver -/

/-- The globals of `Keyboard.c`, and the ports. -/
structure Driver where
  modifiers : KeyboardModifiers
  previousEvent : KeyboardEvent
  ports : Ports

/-- The loops of `UpdateLEDS`: while the input buffer of the controller is full, read the data port. -/
def drain : ℕ → Ports → Option Ports
  | 0, _ => none
  | fuel + 1, p =>
    let (c, p) := p.inbControl
    if c &&& 0x02 ≠ 0 then drain fuel p.inbData.2 else some p

/-- `UpdateLEDS` -/
def updateLEDS (fuel : ℕ) (k : Driver) : Option Driver := do
  let p ← drain fuel k.ports
  let p ← drain fuel (p.outbData 0xED)
  some { k with ports := p.outbData k.modifiers.low }

/-- `UpdateEventModifiers` -/
def updateEventModifiers (k : Driver) : Driver :=
  { k with previousEvent := { k.previousEvent with modifiers := k.modifiers } }

/-- What the `switch` of `Keyboard_Handler` does for a key: it sets a modifier to the state of the key,
toggles a lock when the key goes up, returns, or goes on to the regular keys. -/
inductive KeyCase where
  | level (set : Bool → KeyboardModifiers → KeyboardModifiers)
  | lock (toggle : KeyboardModifiers → KeyboardModifiers)
  | ignore
  | regular

/-- The `switch` of `Keyboard_Handler`. -/
def keyCase (keycode : Byte) : KeyCase :=
  if keycode = keyControl then .level fun b m => { m with control := b }
  else if keycode = keyLeftShift then .level fun b m => { m with leftShift := b }
  else if keycode = keyRightShift then .level fun b m => { m with rightShift := b }
  else if keycode = keyCapsLock then .lock fun m => { m with capsLock := m.capsLock ^^ true }
  else if keycode = keyCapsIgnore then .ignore
  else if keycode = keyNumLock then .lock fun m => { m with numLock := m.numLock ^^ true }
  else if keycode = keyScrollLock then .lock fun m => { m with scrollLock := m.scrollLock ^^ true }
  else if keycode = keyAlt then .level fun b m => { m with alt := b }
  else if keycode = keyMenuLeft then .level fun b m => { m with leftMenu := b }
  else if keycode = keyMenuRight then .level fun b m => { m with rightMenu := b }
  else .regular

/-- `(LeftShift || RightShift) ^ CapsLock` -/
def KeyboardModifiers.upper (m : KeyboardModifiers) : Bool := (m.leftShift || m.rightShift) ^^ m.capsLock

/-- The character of a key under the given modifiers. -/
def characterOf (m : KeyboardModifiers) (keycode : Byte) : Byte :=
  (if m.upper then keyboardLayoutCaps else keyboardLayout).getD keycode.toNat 0

/-- A decoded scancode: the key, its state, and whether the prefix `0xE0` came first. -/
structure Scancode where
  keycode : Byte
  state : Byte
  extended : Bool
  deriving DecidableEq

/-- The state and the key in a scancode byte. -/
def Scancode.decode (extended : Bool) (code : Byte) : Scancode :=
  let state := if code &&& 0x80 ≠ 0 then keyStateUp else keyStateDown
  ⟨if state = keyStateUp then code - 0x80 else code, state, extended⟩

/-- The part of `Keyboard_Handler` that reads the data port. -/
def Ports.readScancode (p : Ports) : Scancode × Ports :=
  let (code, p) := p.inbData
  if code = 0xE0 then
    let (code, p) := p.inbData
    (.decode true code, p)
  else
    (.decode false code, p)

/-- The event of a regular key. -/
def keyEvent (m : KeyboardModifiers) (sc : Scancode) : KeyboardEvent where
  ready := 1
  keycode := if sc.extended then sc.keycode.setWidth 16 ||| 0x0E00 else sc.keycode.setWidth 16
  character := characterOf m sc.keycode
  state := sc.state
  modifiers := m

/-- The rest of `Keyboard_Handler`. -/
def handleScancode (fuel : ℕ) (k : Driver) (sc : Scancode) : Option Driver :=
  match keyCase sc.keycode with
  | .level set =>
    some (updateEventModifiers { k with modifiers := set (sc.state.getLsbD 0) k.modifiers })
  | .lock toggle => do
    let k ← updateLEDS fuel
      (if sc.state = keyStateUp then { k with modifiers := toggle k.modifiers } else k)
    some (updateEventModifiers k)
  | .ignore => some k
  | .regular => some { k with previousEvent := keyEvent k.modifiers sc }

/-- `Keyboard_Handler` -/
def keyboardHandler (fuel : ℕ) (k : Driver) : Option Driver :=
  let (sc, p) := k.ports.readScancode
  handleScancode fuel { k with ports := p } sc

/-- `Keyboard_Setup` -/
def keyboardSetup (fuel : ℕ) (k : Driver) : Option Driver :=
  updateLEDS fuel { k with modifiers := .zero }

end RedFox32.Kernel.Keyboard
