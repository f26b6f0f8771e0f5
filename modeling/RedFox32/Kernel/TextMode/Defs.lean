import RedFox32.Machine.Bytes

/-!
# The text mode driver `TextMode.c`

The functions over the RAM that holds the video memory and the global `ScreenPos`.  Every byte written
is also kept in a log, so that a property can speak of the addresses written and not only of what they
hold afterwards.
-/

namespace RedFox32.Kernel.TextMode

open RedFox32.Machine

/-- `TEXT_MODE_VIDEO_MEMORY` -/
def textModeVideoMemory : Word := 0xB8000

/-- `TEXT_MODE_XRESOLUTION` -/
def textModeXResolution : Word := 160

/-- `TEXT_MODE_MEMORY_SIZE` -/
def textModeMemorySize : Word := 160 * 25

/-- RAM, `ScreenPos`, and the addresses written so far, oldest first. -/
structure Screen where
  mem : Mem
  screenPos : Word
  writes : List Word

namespace Screen

variable (s : Screen)

/-- One byte written. -/
def write (a : Word) (v : Byte) : Screen :=
  { s with mem := s.mem.store8 a v, writes := s.writes ++ [a] }

/-- `ScreenPos` moved. -/
def moveTo (pos : Word) : Screen := { s with screenPos := pos }

end Screen

/-- `TextMode_Setup` -/
def textModeSetup (s : Screen) : Screen := s.moveTo 0

/-- The end of the video memory, where the loop of `ScrollScreen` stops. -/
def videoEnd : Word := textModeVideoMemory + textModeMemorySize

/-- The loop of `ScrollScreen`. -/
def scrollLoop (writePos readPos : Word) (s : Screen) : Screen :=
  if readPos ≠ videoEnd then
    scrollLoop (writePos + 1) (readPos + 1) ((s.write writePos (s.mem readPos)).write readPos 0)
  else s
termination_by (videoEnd - readPos).toNat
decreasing_by bv_omega

/-- `ScrollScreen` -/
def scrollScreen (lines : Byte) (s : Screen) : Screen :=
  scrollLoop textModeVideoMemory
    (textModeVideoMemory + textModeXResolution * lines.setWidth 32) s

/-- `'\n'` -/
def newline : Byte := 10

/-- `'\t'` -/
def tab : Byte := 9

/-- `'\b'` -/
def backspace : Byte := 8

/-- `' '` -/
def space : Byte := 32

/-- The first `if` of `putch`: a full screen scrolls before anything else happens. -/
def stickWithinBounds (s : Screen) : Screen :=
  if textModeMemorySize ≤ s.screenPos then
    let s := scrollScreen 1 s
    s.moveTo (s.screenPos - textModeXResolution)
  else s

/-- `putch` -/
def putch (ch colour : Byte) (s : Screen) : Screen :=
  let s := stickWithinBounds s
  if ch = newline then
    s.moveTo (s.screenPos + textModeXResolution - s.screenPos % textModeXResolution)
  else if ch = tab then
    putch space colour (putch space colour (putch space colour (putch space colour s)))
  else if ch = backspace then
    let s := putch space colour (s.moveTo (s.screenPos - 2))
    let s := s.moveTo (s.screenPos - 2)
    if s.screenPos > s.screenPos + 2 then s.moveTo 0 else s
  else
    let s := (s.write (textModeVideoMemory + s.screenPos) ch).moveTo (s.screenPos + 1)
    (s.write (textModeVideoMemory + s.screenPos) colour).moveTo (s.screenPos + 1)
termination_by if ch = tab ∨ ch = backspace then 1 else 0
decreasing_by all_goals simp_all [space, tab, backspace]

/-- `puts`, on the bytes of a string; the end of the list stands for its terminator. -/
def puts : List Byte → Byte → Screen → Screen
  | [], _, s => s
  | ch :: str, colour, s => if ch = 0 then s else puts str colour (putch ch colour s)

/-- One digit of `putch_hex`: the low four bits as a character. -/
def hexDigit (n : Byte) : Byte :=
  let h := (n &&& 0x0F) ||| 0x30
  if BitVec.slt 0x39 h then h + 7 else h

/-- `putch_hex`; `c >> 4` shifts a signed character. -/
def putchHex (c colour : Byte) (s : Screen) : Screen :=
  putch (hexDigit c) colour (putch (hexDigit (c.sshiftRight 4)) colour s)

/-- The character that `putch_binary` shows in its iteration `i`. -/
def binaryDigit (c : Byte) (i : ℕ) : Byte := if (c <<< i) &&& 0x80 ≠ 0 then 0x31 else 0x30

/-- `putch_binary`, which writes in the colour `0x0C` whatever its argument. -/
def putchBinary (c _colour : Byte) (s : Screen) : Screen :=
  (List.range 8).foldl (fun s i => putch (binaryDigit c i) 0x0C s) s

/-- `ClearScreen` -/
def clearScreen (s : Screen) : Screen :=
  (List.range textModeMemorySize.toNat).foldl
    (fun s i => s.write (textModeVideoMemory + BitVec.ofNat 32 i) 0) (s.moveTo 0)

/-- A call into the driver. -/
inductive Call where
  | putch (ch colour : Byte)
  | puts (str : List Byte) (colour : Byte)
  | putchHex (c colour : Byte)
  | putchBinary (c colour : Byte)
  | clearScreen
  | textModeSetup
  deriving DecidableEq

/-- What a call does. -/
def Call.exec : Call → Screen → Screen
  | .putch ch colour => TextMode.putch ch colour
  | .puts str colour => TextMode.puts str colour
  | .putchHex c colour => TextMode.putchHex c colour
  | .putchBinary c colour => TextMode.putchBinary c colour
  | .clearScreen => TextMode.clearScreen
  | .textModeSetup => TextMode.textModeSetup

end RedFox32.Kernel.TextMode
