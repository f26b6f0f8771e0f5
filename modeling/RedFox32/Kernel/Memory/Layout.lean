import RedFox32.Kernel.Memory.Check
import RedFox32.Kernel.TextMode.Defs

/-!
# The memory map in RAM

The bootloader stores the number of records at `0x8000` and the records themselves behind it.
`MMAP_Display` walks the bytes from `&MMAP->Entries`, which is where they are.  `CanSafelyAllocate`
follows the pointer that `struct MemoryMap` declares in that place, and the four bytes it finds there
are the low half of the first record's `Start`.
-/

namespace RedFox32.Kernel.Memory

open RedFox32.Machine
open RedFox32.Kernel.TextMode (Call)

/-! ### Records as words -/

namespace MemoryMapEntry

/-- The six words of a record. -/
def words (e : MemoryMapEntry) : List Word :=
  [e.start.setWidth 32, e.start.extractLsb' 32 32, e.length.setWidth 32,
    e.length.extractLsb' 32 32, e.type, e.acpi]

theorem load64_eq {m : Mem} {a : Word} {v : BitVec 64} (hlo : m.load32 a = v.setWidth 32)
    (hhi : m.load32 (a + 4) = v.extractLsb' 32 32) : m.load64 a = v := by
  unfold Mem.load64
  rw [hlo, hhi]
  ext i hi
  simp only [BitVec.getElem_append]
  grind

/-- A record is read back from its words. -/
theorem read_eq {m : Mem} {a : Word} {e : MemoryMapEntry}
    (h : ∀ j < 6, m.load32 (a + BitVec.ofNat 32 (4 * j)) = e.words.getD j 0) : read m a = e := by
  have h0 := h 0 (by omega)
  simp only [Nat.mul_zero, BitVec.add_zero] at h0
  have h1 := h 1 (by omega)
  have h2 := h 2 (by omega)
  have h3 := h 3 (by omega)
  have e3 : a + 8 + 4 = a + BitVec.ofNat 32 (4 * 3) := by bv_omega
  have hstart : m.load64 a = e.start := load64_eq h0 h1
  have hlength : m.load64 (a + 8) = e.length := load64_eq h2 (by rw [e3]; exact h3)
  have htype : m.load32 (a + 16) = e.type := h 4 (by omega)
  have hacpi : m.load32 (a + 20) = e.acpi := h 5 (by omega)
  unfold read
  rw [hstart, hlength, htype, hacpi]

theorem getElem?_words_flatMap (es : List MemoryMapEntry) {i j : ℕ} {e : MemoryMapEntry}
    (hi : es[i]? = some e) (hj : j < 6) :
    (es.flatMap words)[6 * i + j]? = some (e.words.getD j 0) := by
  induction es generalizing i with
  | nil => simp at hi
  | cons e' es ih =>
    have hlen : e'.words.length = 6 := rfl
    cases i with
    | zero =>
      simp only [List.getElem?_cons_zero, Option.some.injEq] at hi
      subst hi
      rw [List.flatMap_cons, List.getElem?_append_left (by omega), Nat.mul_zero, Nat.zero_add,
        List.getD_eq_getElem?_getD, List.getElem?_eq_getElem (by omega)]
      rfl
    | succ i =>
      rw [List.getElem?_cons_succ] at hi
      rw [List.flatMap_cons, List.getElem?_append_right (by omega), hlen,
        show 6 * (i + 1) + j - 6 = 6 * i + j by omega]
      exact ih hi

/-- The record `i` is read back from a list of words that holds all records behind a prefix. -/
theorem read_storeWords {m : Mem} {a : Word} {pre : List Word} {es : List MemoryMapEntry} {i : ℕ}
    {e : MemoryMapEntry} (hi : es[i]? = some e) (hfit : 4 * pre.length + 24 * es.length ≤ 2 ^ 32) :
    read (m.storeWords a (pre ++ es.flatMap words))
      (a + BitVec.ofNat 32 (4 * pre.length + 24 * i)) = e := by
  have hlt : i < es.length := (List.getElem?_eq_some_iff.1 hi).1
  refine read_eq fun j hj => ?_
  have e1 : a + BitVec.ofNat 32 (4 * pre.length + 24 * i) + BitVec.ofNat 32 (4 * j) =
      a + BitVec.ofNat 32 (4 * (pre.length + (6 * i + j))) := by bv_omega
  rw [e1]
  refine Mem.load32_storeWords ?_ (by omega)
  rw [List.getElem?_append_right (by omega), Nat.add_sub_cancel_left]
  exact getElem?_words_flatMap es hi hj

end MemoryMapEntry

/-! ### The map as `struct MemoryMap` declares it -/

/-- RAM with a memory map as the structure declares it: the count and the pointer at `0x8000`, the
entries behind them. -/
def declaredMem (es : List MemoryMapEntry) : Mem :=
  Mem.storeWords (fun _ => 0) 0x8000
    ([BitVec.ofNat 32 es.length, 0x8008] ++ es.flatMap MemoryMapEntry.words)

/-- The heap after `MemoryManagement_Setup` on such a map. -/
def declaredHeap (es : List MemoryMapEntry) : Heap :=
  memoryManagementSetup ⟨declaredMem es, 0, 0, ⟨0, 0, 0⟩, []⟩ 0x8000

/-- **Every list of entries that fits is a memory map** as the loop of `CanSafelyAllocate` reads it. -/
theorem map_declaredHeap (es : List MemoryMapEntry) (hfit : 8 + 24 * es.length ≤ 2 ^ 32) :
    (declaredHeap es).map = es := by
  have hn : numEntries (declaredMem es) 0x8000 = BitVec.ofNat 32 es.length :=
    Mem.load32_storeWords (j := 0) rfl (by omega)
  have hp : entries (declaredMem es) 0x8000 = 0x8008 := Mem.load32_storeWords (j := 1) rfl (by omega)
  have hlen : (declaredHeap es).mapLength = es.length := by
    unfold Heap.mapLength
    show (numEntries (declaredMem es) 0x8000).toNat = _
    rw [hn]
    bv_omega
  apply List.ext_getElem?
  intro i
  unfold Heap.map
  rw [hlen, List.getElem?_map]
  by_cases hi : i < es.length
  · rw [List.getElem?_range hi, List.getElem?_eq_getElem hi, Option.map_some]
    congr 1
    show MemoryMapEntry.read (declaredMem es) (entryAddr (declaredMem es) 0x8000 i) = _
    have ha : entryAddr (declaredMem es) 0x8000 i = 0x8000 + BitVec.ofNat 32 (4 * 2 + 24 * i) := by
      unfold entryAddr sizeofEntry
      rw [hp]
      bv_omega
    rw [ha]
    exact MemoryMapEntry.read_storeWords (List.getElem?_eq_getElem hi) (by simpa using hfit)
  · rw [List.getElem?_eq_none (by simpa using hi), List.getElem?_eq_none (by omega)]
    rfl

/-! ### The map as the bootloader writes it -/

/-- The address of the record `i` behind the count. -/
def storedAddr (map : Word) (i : ℕ) : Word := map + 4 + BitVec.ofNat 32 (24 * i)

/-- The records stored behind the count. -/
def storedRecords (m : Mem) (map : Word) : List MemoryMapEntry :=
  (List.range (numEntries m map).toNat).map fun i => .read m (storedAddr map i)

/-- RAM with a memory map as the bootloader writes it. -/
def bootMem (es : List MemoryMapEntry) : Mem :=
  Mem.storeWords (fun _ => 0) 0x8000 ([BitVec.ofNat 32 es.length] ++ es.flatMap MemoryMapEntry.words)

/-! ### `MMAP_Display` -/

/-- The bytes of a text. -/
def textBytes (text : String) : List Byte := text.toList.map fun c => BitVec.ofNat 8 c.toNat

/-- The calls that show the four bytes from `b`, the highest first, in a memory that does not change. -/
def showBytes (m : Mem) (b : Word) : List Call :=
  [3, 2, 1, 0].map fun n => .putchHex (m (b + BitVec.ofNat 32 n)) 0x0B

/-- The inner loop of `MMAP_Display`: `count` words from `b`. -/
def displayWords (m : Mem) : ℕ → Word → List Call
  | 0, _ => []
  | count + 1, b => [.puts (textBytes "0x") 0x0B] ++ showBytes m b ++
      [.puts (textBytes "  ") 0x0B] ++ displayWords m count (b + 4)

/-- The outer loop of `MMAP_Display`: `count` records from `b`. -/
def displayRecords (m : Mem) : ℕ → Word → List Call
  | 0, _ => []
  | count + 1, b => displayWords m 6 b ++ [.putch TextMode.newline 0x0B] ++
      displayRecords m count (b + 4 * 6)

/-- What `MMAP_Display` shows above the records. -/
def displayHeading (count : Word) : List Call :=
  [.puts (textBytes "[MMAP] Displaying Memory Map Entries\n") 0x0C,
    .puts (textBytes "MMAP_Entries: 0x") 0x0B] ++
  ([3, 2, 1, 0].map fun n => .putchHex (count.extractLsb' (8 * n) 8) 0x0B) ++
  [.puts (textBytes "\nLOW         HIGH        LEN LOW     LEN HIGH    TYPE        ACPI\n") 0x0B]

/-- `MMAP_Display`, as the calls it makes while the map in memory does not change; its loops count with a signed
`int`. -/
def mmapDisplay (m : Mem) (map : Word) : List Call :=
  displayHeading (numEntries m map) ++
    displayRecords m (numEntries m map).toInt.toNat (map + 4)

/-- The calls that show a word. -/
def showWord (w : Word) : List Call :=
  [.puts (textBytes "0x") 0x0B] ++
    ([3, 2, 1, 0].map fun n => .putchHex (w.extractLsb' (8 * n) 8) 0x0B) ++
    [.puts (textBytes "  ") 0x0B]

/-- The calls that show a record. -/
def showRecord (e : MemoryMapEntry) : List Call :=
  e.words.flatMap showWord ++ [.putch TextMode.newline 0x0B]

section Display

variable (m : Mem) (a : Word)

theorem load64_low : (m.load64 a).setWidth 32 = m.load32 a := by
  unfold Mem.load64
  ext i hi
  simp only [BitVec.getElem_setWidth, BitVec.getLsbD_append]
  grind

theorem load64_high : (m.load64 a).extractLsb' 32 32 = m.load32 (a + 4) := by
  unfold Mem.load64
  ext i hi
  simp only [BitVec.getElem_extractLsb', BitVec.getLsbD_append]
  grind

theorem words_read : (MemoryMapEntry.read m a).words =
    [m.load32 a, m.load32 (a + 4), m.load32 (a + 8), m.load32 (a + 12), m.load32 (a + 16),
      m.load32 (a + 20)] := by
  have e : a + 8#32 + 4#32 = a + 12#32 := by bv_omega
  simp [MemoryMapEntry.words, MemoryMapEntry.read, load64_low, load64_high, e]

/-- The four bytes of a word, shown where it stands. -/
theorem showBytes_eq : [.puts (textBytes "0x") 0x0B] ++ showBytes m a ++
    [.puts (textBytes "  ") 0x0B] = showWord (m.load32 a) := by
  have h : ∀ n < 4, (m.load32 a).extractLsb' (8 * n) 8 = m (a + BitVec.ofNat 32 n) :=
    fun n hn => Mem.byte_load32 n hn
  have h0 : (m.load32 a).extractLsb' 0 8 = m a := by simpa using h 0 (by omega)
  simp [showBytes, showWord, h 3, h 2, h 1, h0]

theorem displayWords_eq (count : ℕ) (b : Word) : displayWords m count b =
    ((List.range count).map fun j => m.load32 (b + BitVec.ofNat 32 (4 * j))).flatMap showWord := by
  induction count generalizing b with
  | zero => rfl
  | succ count ih =>
    have e : ∀ j : ℕ, b + 4#32 + BitVec.ofNat 32 (4 * j) = b + BitVec.ofNat 32 (4 * (j + 1)) := by
      intro j
      bv_omega
    rw [displayWords, ih, showBytes_eq, List.range_succ_eq_map]
    simp [List.map_map, Function.comp_def, e]

theorem displayRecords_eq (count : ℕ) (b : Word) : displayRecords m count b =
    ((List.range count).map fun i =>
      MemoryMapEntry.read m (b + BitVec.ofNat 32 (24 * i))).flatMap showRecord := by
  induction count generalizing b with
  | zero => rfl
  | succ count ih =>
    have e : ∀ i : ℕ, b + 24#32 + BitVec.ofNat 32 (24 * i) = b + BitVec.ofNat 32 (24 * (i + 1)) := by
      intro i
      bv_omega
    have hone : displayWords m 6 b ++ [.putch TextMode.newline 0x0B] =
        showRecord (MemoryMapEntry.read m b) := by
      rw [displayWords_eq, showRecord, words_read]
      simp [List.range_succ_eq_map]
    rw [displayRecords, ih, hone, List.range_succ_eq_map]
    simp [List.map_map, Function.comp_def, e]

/-- **`MMAP_Display` shows the records behind the count**, in order. -/
theorem mmapDisplay_eq (map : Word) (hn : (numEntries m map).toNat < 2 ^ 31) :
    mmapDisplay m map =
      displayHeading (numEntries m map) ++ (storedRecords m map).flatMap showRecord := by
  have hint : (numEntries m map).toInt.toNat = (numEntries m map).toNat := by
    rw [BitVec.toInt_eq_toNat_of_lt (by omega)]
    rfl
  rw [mmapDisplay, displayRecords_eq, hint]
  rfl

end Display

/-! ### Do the two readers agree? -/

/-- The entry that the loop of `CanSafelyAllocate` examines is the stored record of the same index,
and `MMAP_Display` shows the entries that the loop examines. -/
def ReadersAgree (h : Heap) : Prop :=
  (∀ i < h.mapLength, entryAddr h.mem h.memoryMMAP i = storedAddr h.memoryMMAP i) ∧
    mmapDisplay h.mem h.memoryMMAP =
      displayHeading (numEntries h.mem h.memoryMMAP) ++ h.map.flatMap showRecord

/-- The pointer that the loop follows is the low half of the first record's `Start`. -/
theorem entries_eq_start32 (m : Mem) (map : Word) :
    entries m map = (MemoryMapEntry.read m (storedAddr map 0)).start32 := by
  have e : storedAddr map 0 = map + 4 := by
    unfold storedAddr
    bv_omega
  rw [e]
  exact (load64_low m (map + 4)).symm

/-- **The readers agree** exactly on the empty map, and on maps whose first record happens to start, in
its low 32 bits, at the address where the records are stored. -/
theorem readersAgree_iff (h : Heap)
    (hfit : h.memoryMMAP.toNat + 4 + 24 * h.mapLength ≤ 2 ^ 32) :
    ReadersAgree h ↔ h.mapLength = 0 ∨
      (MemoryMapEntry.read h.mem (storedAddr h.memoryMMAP 0)).start32 = h.memoryMMAP + 4 := by
  have hstart := entries_eq_start32 h.mem h.memoryMMAP
  constructor
  · rintro ⟨haddr, -⟩
    rcases Nat.eq_zero_or_pos h.mapLength with h0 | hpos
    · exact .inl h0
    · have h0 := haddr 0 hpos
      unfold entryAddr storedAddr at h0
      rw [← hstart]
      exact .inr (by bv_omega)
  · intro hc
    have haddr : ∀ i < h.mapLength,
        entryAddr h.mem h.memoryMMAP i = storedAddr h.memoryMMAP i := by
      intro i hi
      rcases hc with h0 | hc
      · omega
      · unfold entryAddr storedAddr sizeofEntry
        rw [hstart, hc]
    refine ⟨haddr, ?_⟩
    have hmap : h.map = storedRecords h.mem h.memoryMMAP := by
      refine List.map_congr_left fun i hi => ?_
      unfold Heap.entry
      rw [haddr i (List.mem_range.1 hi)]
    have hlen : (numEntries h.mem h.memoryMMAP).toNat = h.mapLength := rfl
    rw [mmapDisplay_eq h.mem h.memoryMMAP (by omega), hmap]

/-! ### The map of QEMU -/

/-- The memory map that QEMU reports. -/
def qemuMap : List MemoryMapEntry :=
  [⟨0, 0x9FC00, 1, 1⟩, ⟨0x9FC00, 0x400, 2, 1⟩, ⟨0xF0000, 0x10000, 2, 1⟩,
    ⟨0x100000, 0x07EE0000, 1, 1⟩, ⟨0x07FE0000, 0x20000, 2, 1⟩, ⟨0xFFFC0000, 0x40000, 2, 1⟩]

/-- The heap after `MemoryManagement_Setup` on a map that the bootloader wrote. -/
def bootHeap (es : List MemoryMapEntry) : Heap :=
  memoryManagementSetup ⟨bootMem es, 0, 0, ⟨0, 0, 0⟩, []⟩ 0x8000

theorem readersAgree_iff_qemu :
    ReadersAgree (bootHeap qemuMap) ↔ (bootHeap qemuMap).mapLength = 0 ∨
      (MemoryMapEntry.read (bootHeap qemuMap).mem (storedAddr 0x8000 0)).start32 = 0x8000 + 4 :=
  readersAgree_iff (bootHeap qemuMap) (by decide)

/-- On the map of QEMU the loop examines the bytes from address 0. -/
theorem readers_disagree_qemu : ¬ ReadersAgree (bootHeap qemuMap) := by
  rintro ⟨haddr, -⟩
  exact absurd (haddr 0 (by decide)) (by decide)

end RedFox32.Kernel.Memory
