import Mathlib.Data.List.TakeWhile
import RedFox32.Kernel.Memory.Layout
import RedFox32.Kernel.TextMode.Bounds
import RedFox32.Machine.Reader

/-!
# The text of `MMAP_Display`

What the calls of `MMAP_Display` put on the screen, character by character, and a reader of that text: it
takes the number of entries from the heading and the words of the records from the lines below.

The map and the video memory are in one RAM, and every call writes to it before the next byte of the map is
read.  A map that stays clear of the video memory is shown as it was; one that reaches into it is not.
-/

namespace RedFox32.Kernel.TextMode

open RedFox32.Machine

/-! ### The characters of a call -/

/-- The characters that a call gives to `putch`, with their colours. -/
def Call.shown : Call → List (Byte × Byte)
  | .putch ch colour => [(ch, colour)]
  | .puts str colour => (str.takeWhile (· ≠ 0)).map fun ch => (ch, colour)
  | .putchHex c colour => [(hexDigit (c.sshiftRight 4), colour), (hexDigit c, colour)]
  | .putchBinary c _ => (List.range 8).map fun i => (binaryDigit c i, 0x0C)
  | .clearScreen => []
  | .textModeSetup => []

/-- The call does nothing but show characters. -/
def Call.Shows : Call → Prop
  | .clearScreen => False
  | .textModeSetup => False
  | _ => True

/-- The screen after some characters. -/
def showAll (chars : List (Byte × Byte)) (s : Screen) : Screen :=
  chars.foldl (fun s c => putch c.1 c.2 s) s

theorem puts_eq_showAll (str : List Byte) (colour : Byte) (s : Screen) :
    puts str colour s = showAll ((str.takeWhile (· ≠ 0)).map fun ch => (ch, colour)) s := by
  induction str generalizing s with
  | nil => rfl
  | cons ch str ih =>
    by_cases h : ch = 0
    · simp [puts, showAll, h]
    · rw [puts, if_neg h, ih, List.takeWhile_cons_of_pos (by simpa using h)]
      rfl

/-- **A call shows its characters**, one `putch` for each. -/
theorem exec_eq_showAll {call : Call} (h : call.Shows) (s : Screen) :
    call.exec s = showAll call.shown s := by
  cases call with
  | putch ch colour => rfl
  | puts str colour => exact puts_eq_showAll str colour s
  | putchHex c colour => rfl
  | putchBinary c colour => rfl
  | clearScreen => exact h.elim
  | textModeSetup => exact h.elim

/-- A list of calls shows all their characters. -/
theorem foldl_exec_eq_showAll {calls : List Call} (h : ∀ call ∈ calls, call.Shows) (s : Screen) :
    calls.foldl (fun s call => call.exec s) s = showAll (calls.flatMap Call.shown) s := by
  induction calls generalizing s with
  | nil => rfl
  | cons call calls ih =>
    rw [List.foldl_cons, ih fun c hc => h c (List.mem_cons_of_mem _ hc),
      exec_eq_showAll (h call List.mem_cons_self), List.flatMap_cons]
    unfold showAll
    rw [List.foldl_append]

end RedFox32.Kernel.TextMode

namespace RedFox32.Kernel.Memory

open RedFox32.Machine
open RedFox32.Kernel.TextMode (Call)

/-! ### The reader -/

/-- A word as `0x` and eight upper-case digits, with two blanks behind. -/
def readColumn : Reader Byte Word := do
  Reader.literal (textBytes "0x")
  let v ← Reader.hexNumber 8
  Reader.literal (textBytes "  ")
  pure (BitVec.ofNat 32 v)

/-- A line of six words. -/
def readLine : Reader Byte (List Word) := do
  let ws ← readColumn.times 6
  Reader.literal [TextMode.newline]
  pure ws

/-- The lines above the records, with the number of entries. -/
def readHeading : Reader Byte Word := do
  Reader.literal (textBytes "[MMAP] Displaying Memory Map Entries\n")
  Reader.literal (textBytes "MMAP_Entries: 0x")
  let v ← Reader.hexNumber 8
  Reader.literal (textBytes "\nLOW         HIGH        LEN LOW     LEN HIGH    TYPE        ACPI\n")
  pure (BitVec.ofNat 32 v)

/-- The number of entries, and the words of all lines behind the heading. -/
def readDisplay (text : List Byte) : Option (Word × List (List Word)) :=
  (readHeading text).bind fun (count, rest) =>
    (readLine.toEnd rest).map fun lines => (count, lines)

/-- The text that a list of calls emits. -/
def emitted (calls : List Call) : List Byte := (calls.flatMap Call.shown).map Prod.fst

section Text

@[simp] theorem emitted_append (calls calls' : List Call) :
    emitted (calls ++ calls') = emitted calls ++ emitted calls' := by
  simp [emitted]

theorem emitted_flatMap {ι : Type} (f : ι → List Call) (is : List ι) :
    emitted (is.flatMap f) = is.flatMap fun i => emitted (f i) := by
  induction is with
  | nil => rfl
  | cons i is ih => rw [List.flatMap_cons, emitted_append, ih, List.flatMap_cons]

/-- A text without a zero is emitted as it is. -/
theorem emitted_puts {str : List Byte} (colour : Byte) (h : ∀ ch ∈ str, ch ≠ 0) :
    emitted [.puts str colour] = str := by
  have hall : str.takeWhile (· ≠ 0) = str := List.takeWhile_eq_self_iff.2 (by simpa using h)
  unfold emitted Call.shown
  rw [List.flatMap_singleton]
  dsimp only
  rw [hall, List.map_map]
  exact List.map_id str

/-! ### Words in hexadecimal -/

/-- The calls that show the digits of a word. -/
def hexCalls (w : Word) : List Call :=
  [3, 2, 1, 0].map fun n => .putchHex (w.extractLsb' (8 * n) 8) 0x0B

/-- The digits of the four bytes, each as the argument of `putch_hex` that it is made from. -/
def nibbles (w : Word) : List Byte :=
  [3, 2, 1, 0].flatMap fun n =>
    [(w.extractLsb' (8 * n) 8).sshiftRight 4, w.extractLsb' (8 * n) 8]

theorem emitted_hexCalls (w : Word) : emitted (hexCalls w) = (nibbles w).map TextMode.hexDigit := rfl

/-- The digit for the low four bits of a byte. -/
theorem hexValue_hexDigit (b : Byte) :
    Reader.hexValue (TextMode.hexDigit b) = some (b.toNat % 16) := by
  revert b
  decide

/-- The shift keeps the sign, and the mask takes it away again. -/
theorem sshiftRight_mod (b : Byte) : (b.sshiftRight 4).toNat % 16 = b.toNat / 16 := by
  revert b
  decide

theorem foldl_nibbles (w : Word) :
    ((nibbles w).map fun b => b.toNat % 16).foldl (fun v d => 16 * v + d) 0 = w.toNat := by
  have hw := w.isLt
  simp only [nibbles, List.flatMap_cons, List.flatMap_nil, List.append_nil, List.cons_append,
    List.nil_append, List.map_cons, List.map_nil, List.foldl_cons, List.foldl_nil, sshiftRight_mod,
    BitVec.extractLsb'_toNat, Nat.shiftRight_eq_div_pow]
  omega

/-- **The digits of a word** read as the word. -/
theorem reads_hexCalls (w : Word) : Reads (Reader.hexNumber 8) (emitted (hexCalls w)) w.toNat := by
  have h := Reads.hexNumber (nibbles w) fun b _ => hexValue_hexDigit b
  rwa [foldl_nibbles, ← emitted_hexCalls] at h

/-! ### Lines -/

theorem reads_showWord (w : Word) : Reads readColumn (emitted (showWord w)) w := by
  have hprefix : emitted [.puts (textBytes "0x") 0x0B] = textBytes "0x" :=
    emitted_puts _ (by simp [textBytes])
  have hblanks : emitted [.puts (textBytes "  ") 0x0B] = textBytes "  " :=
    emitted_puts _ (by simp [textBytes])
  have htext : emitted (showWord w) = textBytes "0x" ++ (emitted (hexCalls w) ++ textBytes "  ") := by
    rw [← hprefix, ← hblanks, ← emitted_append, ← emitted_append]
    rfl
  rw [htext]
  refine Reads.literal_bind ((reads_hexCalls w).bind ?_)
  rw [BitVec.ofNat_toNat, BitVec.setWidth_eq]
  exact (Reads.literal _).map

theorem emitted_showRecord (e : MemoryMapEntry) : emitted (showRecord e) =
    e.words.flatMap (fun w => emitted (showWord w)) ++ [TextMode.newline] := by
  rw [← emitted_flatMap]
  exact emitted_append _ _

theorem reads_showRecord (e : MemoryMapEntry) : Reads readLine (emitted (showRecord e)) e.words := by
  have hwords : Reads (readColumn.times 6) (e.words.flatMap fun w => emitted (showWord w))
      (e.words.map id) := Reads.times e.words fun w _ => reads_showWord w
  rw [List.map_id] at hwords
  rw [emitted_showRecord]
  exact hwords.bind (Reads.literal _).map

theorem reads_displayHeading (count : Word) :
    Reads readHeading (emitted (displayHeading count)) count := by
  have htitle : emitted [.puts (textBytes "[MMAP] Displaying Memory Map Entries\n") 0x0C] =
      textBytes "[MMAP] Displaying Memory Map Entries\n" := emitted_puts _ (by simp [textBytes])
  have hlabel : emitted [.puts (textBytes "MMAP_Entries: 0x") 0x0B] = textBytes "MMAP_Entries: 0x" :=
    emitted_puts _ (by simp [textBytes])
  have hcolumns : emitted [.puts (textBytes
        "\nLOW         HIGH        LEN LOW     LEN HIGH    TYPE        ACPI\n") 0x0B] =
      textBytes "\nLOW         HIGH        LEN LOW     LEN HIGH    TYPE        ACPI\n" :=
    emitted_puts _ (by simp [textBytes])
  have htext : emitted (displayHeading count) =
      textBytes "[MMAP] Displaying Memory Map Entries\n" ++ (textBytes "MMAP_Entries: 0x" ++
        (emitted (hexCalls count) ++
          textBytes "\nLOW         HIGH        LEN LOW     LEN HIGH    TYPE        ACPI\n")) := by
    rw [← htitle, ← hlabel, ← hcolumns, ← emitted_append, ← emitted_append, ← emitted_append]
    rfl
  rw [htext]
  refine Reads.literal_bind (Reads.literal_bind ((reads_hexCalls count).bind ?_))
  rw [BitVec.ofNat_toNat, BitVec.setWidth_eq]
  exact (Reads.literal _).map

/-- The lines of the records read as their words. -/
theorem readLine_records (es : List MemoryMapEntry) :
    readLine.toEnd (emitted (es.flatMap showRecord)) = some (es.map MemoryMapEntry.words) := by
  rw [emitted_flatMap]
  refine Reads.toEnd es (fun e _ => reads_showRecord e) fun e _ => ?_
  rw [emitted_showRecord]
  simp

end Text

/-- The text of a map in a memory that does not change reads back as the number of entries and, line by line,
the words of the records behind it. -/
theorem readDisplay_mmapDisplay (m : Mem) (map : Word) (hn : (numEntries m map).toNat < 2 ^ 31) :
    readDisplay (emitted (mmapDisplay m map)) =
      some (numEntries m map, (storedRecords m map).map MemoryMapEntry.words) := by
  unfold readDisplay
  rw [mmapDisplay_eq m map hn, emitted_append, reads_displayHeading, Option.bind_some]
  dsimp only
  rw [readLine_records]
  rfl

/-- The words of the records are those behind the count, in order. -/
theorem storedRecords_words (m : Mem) (map : Word) : (storedRecords m map).map MemoryMapEntry.words =
    (List.range (numEntries m map).toNat).map fun i =>
      (List.range 6).map fun j => m.load32 (map + 4 + BitVec.ofNat 32 (24 * i + 4 * j)) := by
  unfold storedRecords
  rw [List.map_map]
  refine List.map_congr_left fun i _ => ?_
  have haddr (j : ℕ) : map + 4 + BitVec.ofNat 32 (24 * i + 4 * j) =
      storedAddr map i + BitVec.ofNat 32 (4 * j) := by
    unfold storedAddr
    bv_omega
  simp only [haddr]
  rw [Function.comp_apply, words_read]
  simp [List.range_succ_eq_map]

/-! ### `MMAP_Display` on the RAM that holds the video memory -/

/-- The screen, in the RAM that holds the map, and the calls made on it so far. -/
structure Display where
  screen : TextMode.Screen
  calls : List Call

namespace Display

/-- A call of the text mode driver. -/
def call (c : Call) (d : Display) : Display := ⟨c.exec d.screen, d.calls ++ [c]⟩

/-- The loop over `n`: the four bytes from `b`, the highest first, each read when it is shown. -/
def displayBytes (b : Word) (d : Display) : Display :=
  [3, 2, 1, 0].foldl (fun d n => d.call (.putchHex (d.screen.mem (b + BitVec.ofNat 32 n)) 0x0B)) d

/-- The loop over `j`: `count` words from `b`. -/
def displayWords : ℕ → Word → Display → Display
  | 0, _, d => d
  | count + 1, b, d =>
    displayWords count (b + 4)
      (((d.call (.puts (textBytes "0x") 0x0B)).displayBytes b).call (.puts (textBytes "  ") 0x0B))

/-- The loop over `i`: `count` records from `b`. -/
def displayRecords : ℕ → Word → Display → Display
  | 0, _, d => d
  | count + 1, b, d =>
    displayRecords count (b + 4 * 6) ((d.displayWords 6 b).call (.putch TextMode.newline 0x0B))

/-- `MMAP_Display`: the number of entries is read once, behind the first line, and the bytes of the records
between the calls. -/
def mmapDisplay (map : Word) (d : Display) : Display :=
  let d := d.call (.puts (textBytes "[MMAP] Displaying Memory Map Entries\n") 0x0C)
  let count := numEntries d.screen.mem map
  let d := d.call (.puts (textBytes "MMAP_Entries: 0x") 0x0B)
  let d := [3, 2, 1, 0].foldl (fun d n => d.call (.putchHex (count.extractLsb' (8 * n) 8) 0x0B)) d
  let d := d.call (.puts (textBytes "\nLOW         HIGH        LEN LOW     LEN HIGH    TYPE        ACPI\n") 0x0B)
  d.displayRecords count.toInt.toNat (map + 4)

end Display

section Beside

variable {m : Mem} {d : Display} {b map : Word}

/-- The screen is in good order, and the memory beside it is `m`. -/
structure Beside (m : Mem) (d : Display) : Prop where
  within : TextMode.WithinScreen d.screen
  kept : ∀ a, ¬ TextMode.InVideo a → d.screen.mem a = m a

/-- `n` bytes stay clear of the video memory. -/
def Clear (b : Word) (n : ℕ) : Prop := ∀ i < n, ¬ TextMode.InVideo (b + BitVec.ofNat 32 i)

theorem Clear.drop {n k : ℕ} (h : Clear b n) (hk : k ≤ n) : Clear (b + BitVec.ofNat 32 k) (n - k) := by
  intro i hi
  have haddr : b + BitVec.ofNat 32 k + BitVec.ofNat 32 i = b + BitVec.ofNat 32 (k + i) := by bv_omega
  rw [haddr]
  exact h _ (by omega)

theorem Clear.take {n k : ℕ} (h : Clear b n) (hk : k ≤ n) : Clear b k := fun i hi => h i (by omega)

theorem calls_call (c : Call) (d : Display) : (d.call c).calls = d.calls ++ [c] := rfl

theorem Beside.call {c : Call} (h : Beside m d) (hsafe : c.Safe d.screen) : Beside m (d.call c) where
  within := (TextMode.exec_within_iff c h.within).2 hsafe
  kept a ha := (TextMode.exec_mem c h.within hsafe ha).trans (h.kept a ha)

theorem Beside.puts (h : Beside m d) (str : List Byte) (colour : Byte)
    (hplain : ∀ ch ∈ str, ch ≠ TextMode.backspace) : Beside m (d.call (.puts str colour)) :=
  h.call (TextMode.putsSafe_of_plain hplain colour d.screen)

theorem Beside.load32 (h : Beside m d) (hclear : Clear b 4) : d.screen.mem.load32 b = m.load32 b :=
  Mem.load32_congr fun i hi => h.kept _ (hclear i hi)

/-- **The bytes of a word** are those beside the screen. -/
theorem Beside.bytes (h : Beside m d) (ns : List ℕ)
    (hclear : ∀ n ∈ ns, ¬ TextMode.InVideo (b + BitVec.ofNat 32 n)) :
    let d' := ns.foldl (fun d n => d.call (.putchHex (d.screen.mem (b + BitVec.ofNat 32 n)) 0x0B)) d
    Beside m d' ∧ d'.calls = d.calls ++ ns.map fun n => .putchHex (m (b + BitVec.ofNat 32 n)) 0x0B := by
  induction ns generalizing d with
  | nil => exact ⟨h, (List.append_nil _).symm⟩
  | cons n ns ih =>
    have hbyte := h.kept _ (hclear n List.mem_cons_self)
    obtain ⟨hbeside, hcalls⟩ :=
      ih (h.call (c := .putchHex (d.screen.mem (b + BitVec.ofNat 32 n)) 0x0B) trivial)
        fun n' hn' => hclear n' (List.mem_cons_of_mem _ hn')
    refine ⟨hbeside, ?_⟩
    rw [List.foldl_cons, hcalls, Display.call, hbyte, List.append_assoc]
    rfl

theorem Beside.displayWords (h : Beside m d) (count : ℕ) (hclear : Clear b (4 * count)) :
    Beside m (d.displayWords count b) ∧
      (d.displayWords count b).calls = d.calls ++ displayWords m count b := by
  induction count generalizing b d with
  | zero => exact ⟨h, (List.append_nil _).symm⟩
  | succ count ih =>
    have hprefix := h.puts (textBytes "0x") 0x0B (by simp [textBytes, TextMode.backspace])
    obtain ⟨hbytes, hcalls⟩ := hprefix.bytes (b := b) [3, 2, 1, 0]
      fun n hn => hclear n (by simp only [List.mem_cons, List.not_mem_nil, or_false] at hn; omega)
    have hrest : Clear (b + 4) (4 * count) := by
      have hdrop := hclear.drop (k := 4) (by omega)
      rwa [show 4 * (count + 1) - 4 = 4 * count by omega] at hdrop
    have hblanks := hbytes.puts (textBytes "  ") 0x0B (by simp [textBytes, TextMode.backspace])
    obtain ⟨hwords, hall⟩ := ih hblanks hrest
    refine ⟨hwords, hall.trans ?_⟩
    rw [calls_call, hcalls, calls_call, Memory.displayWords, showBytes]
    simp only [List.append_assoc]

theorem Beside.displayRecords (h : Beside m d) (count : ℕ) (hclear : Clear b (24 * count)) :
    Beside m (d.displayRecords count b) ∧
      (d.displayRecords count b).calls = d.calls ++ displayRecords m count b := by
  induction count generalizing b d with
  | zero => exact ⟨h, (List.append_nil _).symm⟩
  | succ count ih =>
    obtain ⟨hwords, hcalls⟩ := h.displayWords 6 (hclear.take (by omega))
    have hrest : Clear (b + 4 * 6) (24 * count) := by
      have hdrop := hclear.drop (k := 24) (by omega)
      rwa [show 24 * (count + 1) - 24 = 24 * count by omega] at hdrop
    obtain ⟨hrecords, hall⟩ :=
      ih (hwords.call (c := .putch TextMode.newline 0x0B) fun hb => absurd hb (by decide)) hrest
    refine ⟨hrecords, hall.trans ?_⟩
    rw [calls_call, hcalls, Memory.displayRecords]
    simp only [List.append_assoc]

/-- **A map that stays clear of the video memory** is shown as it was before the first call. -/
theorem Beside.mmapDisplay (h : Beside m d) (hn : (numEntries m map).toNat < 2 ^ 31)
    (hclear : Clear map (4 + 24 * (numEntries m map).toNat)) :
    Beside m (d.mmapDisplay map) ∧ (d.mmapDisplay map).calls = d.calls ++ mmapDisplay m map := by
  have htitle := h.puts (textBytes "[MMAP] Displaying Memory Map Entries\n") 0x0C
    (by simp [textBytes, TextMode.backspace])
  have hcount : numEntries (d.call (.puts (textBytes "[MMAP] Displaying Memory Map Entries\n") 0x0C)).screen.mem
      map = numEntries m map := htitle.load32 (hclear.take (by omega))
  have hint : (numEntries m map).toInt.toNat = (numEntries m map).toNat := by
    rw [BitVec.toInt_eq_toNat_of_lt (by omega)]
    rfl
  have hhex (c : Byte) {d : Display} (h : Beside m d) : Beside m (d.call (.putchHex c 0x0B)) :=
    h.call trivial
  have hlabel := htitle.puts (textBytes "MMAP_Entries: 0x") 0x0B (by simp [textBytes, TextMode.backspace])
  have hdigits := hhex ((numEntries m map).extractLsb' (8 * 0) 8)
    (hhex ((numEntries m map).extractLsb' (8 * 1) 8) (hhex ((numEntries m map).extractLsb' (8 * 2) 8)
      (hhex ((numEntries m map).extractLsb' (8 * 3) 8) hlabel)))
  have hcolumns := hdigits.puts
    (textBytes "\nLOW         HIGH        LEN LOW     LEN HIGH    TYPE        ACPI\n") 0x0B
    (by simp [textBytes, TextMode.backspace])
  have hrest : Clear (map + 4) (24 * (numEntries m map).toNat) := by
    have hdrop := hclear.drop (k := 4) (by omega)
    rwa [Nat.add_sub_cancel_left] at hdrop
  obtain ⟨hbeside, hcalls⟩ := hcolumns.displayRecords (numEntries m map).toNat hrest
  unfold Display.mmapDisplay Memory.mmapDisplay displayHeading
  dsimp only
  rw [hcount, hint]
  refine ⟨hbeside, hcalls.trans ?_⟩
  simp only [calls_call, List.append_assoc]
  rfl

end Beside

/-- A map that stays clear of the video memory reads back as its records. -/
theorem readDisplay_records {s : TextMode.Screen} {map : Word} (hs : TextMode.WithinScreen s)
    (hn : (numEntries s.mem map).toNat < 2 ^ 31) (hclear : Clear map (4 + 24 * (numEntries s.mem map).toNat)) :
    readDisplay (emitted (Display.mmapDisplay map ⟨s, []⟩).calls) =
      some (numEntries s.mem map, (storedRecords s.mem map).map MemoryMapEntry.words) := by
  have hbeside : Beside s.mem ⟨s, []⟩ := ⟨hs, fun _ _ => rfl⟩
  have hcalls := (hbeside.mmapDisplay hn hclear).2
  rw [List.nil_append] at hcalls
  rw [hcalls, readDisplay_mmapDisplay s.mem map hn]

/-- **The text of `MMAP_Display` reads back** as the number of entries and, line by line, the words of the
records behind it, if the map stays clear of the video memory and the screen is in good order. -/
theorem mmapDisplay_readDisplay (s : TextMode.Screen) (map : Word) (hs : TextMode.WithinScreen s)
    (hn : (numEntries s.mem map).toNat < 2 ^ 31) (hclear : Clear map (4 + 24 * (numEntries s.mem map).toNat)) :
    readDisplay (emitted (Display.mmapDisplay map ⟨s, []⟩).calls) =
      some (numEntries s.mem map, (List.range (numEntries s.mem map).toNat).map fun i =>
        (List.range 6).map fun j => s.mem.load32 (map + 4 + BitVec.ofNat 32 (24 * i + 4 * j))) := by
  rw [readDisplay_records hs hn hclear, storedRecords_words]

/-- The map that the bootloader writes stays clear of the video memory as long as it has at most 30037
records. -/
theorem clear_of_le {n : ℕ} (hn : n ≤ 30037) : Clear 0x8000 (4 + 24 * n) := by
  intro i hi
  unfold TextMode.InVideo TextMode.textModeVideoMemory
  bv_omega

/-- The text for the map of QEMU has six lines, on a screen that is full. -/
theorem mmapDisplay_readDisplay_qemu :
    ∃ lines, readDisplay (emitted (Display.mmapDisplay 0x8000 ⟨⟨bootMem qemuMap, 4000, []⟩, []⟩).calls) =
      some (6, lines) ∧ lines.length = 6 := by
  have hcount : numEntries (bootMem qemuMap) 0x8000 = 6 := by decide
  have h := mmapDisplay_readDisplay ⟨bootMem qemuMap, 4000, []⟩ 0x8000 ⟨by decide, by decide, by simp⟩
    (by rw [hcount]; decide) (clear_of_le (by rw [hcount]; decide))
  rw [hcount] at h
  exact ⟨_, h, by simp⟩

/-! ### A map that reaches into the video memory -/

/-- RAM with a map of 30038 records, all zero but for one byte: the first of the video memory. -/
def reachingMem (v : Byte) : Mem := fun a =>
  if a = 0xB8000 then v else if a = 0x8000 then 0x56 else if a = 0x8001 then 0x75 else 0

/-- The screen is empty. -/
def reachingScreen (v : Byte) : TextMode.Screen := ⟨reachingMem v, 0, []⟩

theorem numEntries_reaching (v : Byte) : numEntries (reachingMem v) 0x8000 = 30038 := by
  refine Mem.load32_eq_of_bytes fun i hi => ?_
  interval_cases i <;> rfl

/-- The byte begins the second word of the last record. -/
theorem load32_reaching (v : Byte) :
    (reachingMem v).load32 (0x8000 + 4 + BitVec.ofNat 32 (24 * 30037 + 4 * 1)) = v.setWidth 32 := by
  have haddr : (0x8000 + 4 + BitVec.ofNat 32 (24 * 30037 + 4 * 1) : Word) = 0xB8000 := by decide
  rw [haddr]
  refine Mem.load32_eq_of_bytes fun i hi => ?_
  rw [BitVec.extractLsb'_setWidth_of_le (by omega)]
  cases i with
  | zero => exact BitVec.extractLsb'_eq_self.symm
  | succ i =>
    have hhigh : v.extractLsb' (8 * (i + 1)) 8 = 0 := by
      ext j hj
      rw [BitVec.getElem_extractLsb', BitVec.getLsbD_of_ge v _ (by omega)]
      simp
    rw [hhigh]
    have hlt : i < 3 := by omega
    interval_cases i <;> rfl

/-- The first character is shown in that byte, whatever it was. -/
theorem putch_reaching (v : Byte) : TextMode.putch 0x5B 0x0C (reachingScreen v) =
    TextMode.putch 0x5B 0x0C (reachingScreen 0) := by
  have hrests (v : Byte) : TextMode.Rests (reachingScreen v) 0 := ⟨rfl, by omega, by simp [reachingScreen]⟩
  have hmem : (reachingMem v).store8 0xB8000 0x5B = (reachingMem 0).store8 0xB8000 0x5B := by
    funext a
    rw [Mem.store8_eq_update, Mem.store8_eq_update]
    by_cases ha : a = 0xB8000
    · rw [ha, Function.update_self, Function.update_self]
    · rw [Function.update_of_ne ha, Function.update_of_ne ha]
      unfold reachingMem
      rw [if_neg ha, if_neg ha]
  rw [TextMode.putch_default_eq _ (by decide) (by decide) (by decide) (hrests v),
    TextMode.putch_default_eq _ (by decide) (by decide) (by decide) (hrests 0),
    TextMode.stick_of_lt (hrests v) (by omega), TextMode.stick_of_lt (hrests 0) (by omega)]
  unfold TextMode.Screen.putCell TextMode.Screen.write TextMode.Screen.moveTo TextMode.videoByte
    TextMode.roomAt reachingScreen
  dsimp only
  exact congrArg (fun m : Mem => (⟨m.store8 _ _, _, _⟩ : TextMode.Screen)) hmem

/-- So the byte is not in the text. -/
theorem mmapDisplay_reaching (v : Byte) : Display.mmapDisplay 0x8000 ⟨reachingScreen v, []⟩ =
    Display.mmapDisplay 0x8000 ⟨reachingScreen 0, []⟩ := by
  have htitle : (Call.puts (textBytes "[MMAP] Displaying Memory Map Entries\n") 0x0C).exec (reachingScreen v) =
      (Call.puts (textBytes "[MMAP] Displaying Memory Map Entries\n") 0x0C).exec (reachingScreen 0) := by
    have htext : textBytes "[MMAP] Displaying Memory Map Entries\n" =
        0x5B :: textBytes "MMAP] Displaying Memory Map Entries\n" := by decide
    unfold Call.exec
    dsimp only
    rw [htext, TextMode.puts, TextMode.puts, if_neg (by decide), if_neg (by decide), putch_reaching]
  unfold Display.mmapDisplay
  dsimp only [Display.call]
  rw [htitle]

/-- **A map of 30038 records at `0x8000` is not shown** as it is: its last record reaches into the video memory,
and the first character is written there before the record is read. -/
theorem mmapDisplay_overwrites : ¬ ∀ s : TextMode.Screen, TextMode.WithinScreen s →
    (numEntries s.mem 0x8000).toNat < 2 ^ 31 →
      readDisplay (emitted (Display.mmapDisplay 0x8000 ⟨s, []⟩).calls) =
        some (numEntries s.mem 0x8000, (List.range (numEntries s.mem 0x8000).toNat).map fun i =>
          (List.range 6).map fun j => s.mem.load32 (0x8000 + 4 + BitVec.ofNat 32 (24 * i + 4 * j))) := by
  intro hall
  have htext (v : Byte) := hall (reachingScreen v)
    ⟨show (0 : Word).toNat % 2 = 0 by decide, show (0 : Word).toNat ≤ 4000 by decide, nofun⟩
    (by rw [show (reachingScreen v).mem = reachingMem v from rfl, numEntries_reaching]; decide)
  have hboth := (htext 0).symm.trans ((congrArg (fun d : Display => readDisplay (emitted d.calls))
    (mmapDisplay_reaching 1)).symm.trans (htext 1))
  have hlines := (Prod.mk.inj (Option.some.inj hboth)).2
  have hline := congrArg (fun lines : List (List Word) => (lines[30037]?).bind fun ws => ws[1]?) hlines
  have hlast (v : Byte) : 30037 < (numEntries (reachingScreen v).mem 0x8000).toNat := by
    rw [show (reachingScreen v).mem = reachingMem v from rfl, numEntries_reaching]
    decide
  rw [List.getElem?_map, List.getElem?_map, List.getElem?_range (hlast 0), List.getElem?_range (hlast 1),
    Option.map_some, Option.map_some, Option.bind_some, Option.bind_some, List.getElem?_map, List.getElem?_map,
    List.getElem?_range (by omega), Option.map_some, Option.map_some, Option.some.injEq] at hline
  exact absurd ((load32_reaching 0).symm.trans (hline.trans (load32_reaching 1))) (by decide)

/-! ### The text on the screen -/

/-- The screen is what the calls have made of it, and all of them show characters. -/
structure Played (s : TextMode.Screen) (d : Display) : Prop where
  screen : d.screen = d.calls.foldl (fun s c => c.exec s) s
  shows : ∀ c ∈ d.calls, c.Shows

section Screen

variable {s : TextMode.Screen} {d : Display}

theorem Played.call {c : Call} (h : Played s d) (hc : c.Shows) : Played s (d.call c) where
  screen := by rw [calls_call, List.foldl_append, ← h.screen]; rfl
  shows c' hc' := by
    rw [calls_call, List.mem_append, List.mem_singleton] at hc'
    rcases hc' with hc' | rfl
    · exact h.shows c' hc'
    · exact hc

theorem Played.puts (h : Played s d) (str : List Byte) (colour : Byte) :
    Played s (d.call (.puts str colour)) := h.call trivial

theorem Played.putchHex (h : Played s d) (f : Display → ℕ → Byte) (ns : List ℕ) :
    Played s (ns.foldl (fun d n => d.call (.putchHex (f d n) 0x0B)) d) := by
  induction ns generalizing d with
  | nil => exact h
  | cons n ns ih => exact ih (h.call (c := .putchHex (f d n) 0x0B) trivial)

theorem Played.displayWords (h : Played s d) (count : ℕ) (b : Word) :
    Played s (d.displayWords count b) := by
  induction count generalizing b d with
  | zero => exact h
  | succ count ih =>
    have hbytes : Played s ((d.call (.puts (textBytes "0x") 0x0B)).displayBytes b) :=
      (h.puts _ _).putchHex (fun d n => d.screen.mem (b + BitVec.ofNat 32 n)) _
    exact ih (hbytes.puts _ _) _

theorem Played.displayRecords (h : Played s d) (count : ℕ) (b : Word) :
    Played s (d.displayRecords count b) := by
  induction count generalizing b d with
  | zero => exact h
  | succ count ih => exact ih ((h.displayWords 6 b).call (c := .putch TextMode.newline 0x0B) trivial) _

/-- **`MMAP_Display` shows its text**, one `putch` for each character, wherever the map is. -/
theorem mmapDisplay_showAll (s : TextMode.Screen) (map : Word) :
    (Display.mmapDisplay map ⟨s, []⟩).screen =
      TextMode.showAll ((Display.mmapDisplay map ⟨s, []⟩).calls.flatMap Call.shown) s := by
  have hstart : Played s ⟨s, []⟩ := ⟨rfl, nofun⟩
  have hplayed : Played s (Display.mmapDisplay map ⟨s, []⟩) := by
    have hlabel := (hstart.puts (textBytes "[MMAP] Displaying Memory Map Entries\n") 0x0C).puts
      (textBytes "MMAP_Entries: 0x") 0x0B
    have hdigits := hlabel.putchHex (fun _ n => (numEntries (Display.call
      (.puts (textBytes "[MMAP] Displaying Memory Map Entries\n") 0x0C) ⟨s, []⟩).screen.mem map).extractLsb'
        (8 * n) 8) [3, 2, 1, 0]
    exact (hdigits.puts _ _).displayRecords _ _
  rw [← TextMode.foldl_exec_eq_showAll hplayed.shows]
  exact hplayed.screen

end Screen

end RedFox32.Kernel.Memory
