import RedFox32.BootloaderStage2.Defs

/-!
# The memory map that the bootloader writes

`CreateMemoryMap` prepares a slot behind the records it has kept, lets the BIOS write the next one there,
and moves on when it keeps it.  A record longer than 20 bytes whose ignore bit is clear is dropped; its
length is told from the low byte of `cx` alone.
-/

namespace RedFox32.BootloaderStage2

open RedFox32.Machine
open RedFox32.Kernel.Memory (MemoryMapEntry numEntries storedAddr storedRecords)

/-! ### The answers -/

namespace Answer

variable (a : Answer)

/-- The record of an answer: its words, with 1 for an ACPI word that is not among them. -/
def record : MemoryMapEntry where
  start := a.words.getD 1 0 ++ a.words.getD 0 0
  length := a.words.getD 3 0 ++ a.words.getD 2 0
  type := a.words.getD 4 0
  acpi := a.words.getD 5 1

/-- The record is kept, when its length is taken to be `size`: the answer has a record, its region is not
empty, and it is not a longer record than 20 bytes with the ignore bit clear. -/
def Accepted (size : ℕ) : Prop :=
  a.cx ≠ 0 ∧ a.record.length ≠ 0 ∧ ¬ (20 < size ∧ a.record.acpi.getLsbD 0 = false)

instance (size : ℕ) : Decidable (a.Accepted size) := by unfold Accepted; infer_instance

/-- The answer ends the list. -/
def Ends : Prop := a.carry = true ∨ a.ebx = 0

end Answer

/-- The answers with records: those up to the end of the list. -/
def heard : List Answer → List Answer
  | [] => []
  | a :: answers => if a.carry then [] else if a.ebx = 0 then [a] else a :: heard answers

/-- The records that the code keeps: it looks at the low byte of the length. -/
def kept (answers : List Answer) : List MemoryMapEntry :=
  ((heard answers).filter fun a => a.Accepted (a.cx.toNat % 256)).map Answer.record

/-! ### The slot -/

section Slot

variable {m : Mem} {o o' : BitVec 16} {b : Word} {ws : List Word} {w : Word}

theorem near_apart (h : 4 ≤ (o - o').toNat) (h' : 4 ≤ (o' - o).toNat) :
    Mem.Apart (near o) 4 (near o') 4 := by
  unfold Mem.Apart near
  constructor
  · bv_omega
  · bv_omega

theorem load32_storeSlot_of_apart
    (h : ∀ k < ws.length, Mem.Apart (near (o + BitVec.ofNat 16 (4 * k))) 4 b 4) :
    (storeSlot ws o m).load32 b = m.load32 b := by
  induction ws generalizing o m with
  | nil => rfl
  | cons w ws ih =>
    have h0 : Mem.Apart (near o) 4 b 4 := by simpa using h 0 (by simp)
    rw [storeSlot, ih fun k hk => ?_]
    · exact Mem.load32_store_of_apart h0
    · have hk' := h (k + 1) (by simpa using hk)
      have e : o + 4 + BitVec.ofNat 16 (4 * k) = o + BitVec.ofNat 16 (4 * (k + 1)) := by bv_omega
      rwa [e]

/-- The words of a slot are read back, also where the offsets wrap. -/
theorem load32_storeSlot {j : ℕ} (hlen : ws.length ≤ 6) (hw : ws[j]? = some w) :
    (storeSlot ws o m).load32 (near (o + BitVec.ofNat 16 (4 * j))) = w := by
  induction ws generalizing o m j with
  | nil => simp at hw
  | cons v ws ih =>
    simp only [List.length_cons] at hlen
    cases j with
    | zero =>
      simp only [List.getElem?_cons_zero, Option.some.injEq] at hw
      subst hw
      rw [storeSlot, Nat.mul_zero, BitVec.add_zero, load32_storeSlot_of_apart fun k hk => ?_]
      · exact Mem.load32_store32_self v
      · exact near_apart (by bv_omega) (by bv_omega)
    | succ j =>
      rw [List.getElem?_cons_succ] at hw
      have e : o + BitVec.ofNat 16 (4 * (j + 1)) = o + 4 + BitVec.ofNat 16 (4 * j) := by bv_omega
      rw [storeSlot, e]
      exact ih (by omega) hw

end Slot

/-! ### What the loop sees in a slot -/

section Ask

variable {a : Answer} {s : MapState}

/-- The words of a record. -/
theorem Answer.record_words (j : ℕ) (hj : j < 6) :
    a.record.words.getD j 0 = a.words.getD j (if j = 5 then 1 else 0) := by
  have hlow : ∀ v w : Word, (v ++ w).setWidth 32 = w := by
    intro v w
    ext i hi
    simp only [BitVec.getElem_setWidth, BitVec.getLsbD_append]
    grind
  have hhigh : ∀ v w : Word, (v ++ w).extractLsb' 32 32 = v :=
    fun _ _ => BitVec.extractLsb'_append_eq_left
  unfold MemoryMapEntry.words Answer.record
  dsimp only
  rw [hlow, hlow, hhigh, hhigh]
  interval_cases j <;> rfl

/-- After the call of the BIOS the slot holds the record. -/
theorem ask_slot (hfull : 5 ≤ a.words.length) {j : ℕ} (hj : j < 6) :
    (s.ask a).mem.load32 (near (s.di + BitVec.ofNat 16 (4 * j))) = a.record.words.getD j 0 := by
  have hlen := a.length_le
  rw [Answer.record_words j hj]
  unfold MapState.ask
  dsimp only
  by_cases hlt : j < a.words.length
  · have hget : a.words[j]? = some (a.words.getD j (if j = 5 then 1 else 0)) := by
      simp [hlt]
    exact load32_storeSlot hlen hget
  · -- the ACPI word that was prepared
    obtain rfl : j = 5 := by omega
    rw [load32_storeSlot_of_apart fun k hk => ?_, List.getD_eq_getElem?_getD,
      List.getElem?_eq_none (by omega)]
    · exact Mem.load32_store32_self 1
    · exact near_apart (by bv_omega) (by bv_omega)

/-- The test of the ignore bit. -/
theorem ask_ignore (hfull : 5 ≤ a.words.length) :
    (s.ask a).mem (near (s.di + 20)) &&& 1 = 0 ↔ a.record.acpi.getLsbD 0 = false := by
  have hword : (s.ask a).mem.load32 (near (s.di + 20)) = a.record.acpi := ask_slot hfull (j := 5) (by omega)
  have hbyte : a.record.acpi.extractLsb' 0 8 = (s.ask a).mem (near (s.di + 20)) := by
    rw [← hword]
    simpa using Mem.byte_load32 (m := (s.ask a).mem) (a := near (s.di + 20)) 0 (by omega)
  rw [← hbyte]
  have hbit : ∀ v : Byte, v &&& 1 = 0 ↔ v.getLsbD 0 = false := by decide
  rw [hbit]
  simp

/-- The test of the length. -/
theorem ask_length (hfull : 5 ≤ a.words.length) :
    (s.ask a).mem.load32 (near (s.di + 8)) ||| (s.ask a).mem.load32 (near (s.di + 12)) = 0 ↔
      a.record.length = 0 := by
  have hlow : (s.ask a).mem.load32 (near (s.di + 8)) = a.words.getD 2 0 :=
    (ask_slot hfull (j := 2) (by omega)).trans (Answer.record_words 2 (by omega))
  have hhigh : (s.ask a).mem.load32 (near (s.di + 12)) = a.words.getD 3 0 :=
    (ask_slot hfull (j := 3) (by omega)).trans (Answer.record_words 3 (by omega))
  rw [hlow, hhigh]
  unfold Answer.record
  dsimp only
  generalize a.words.getD 2 0 = v
  generalize a.words.getD 3 0 = w
  have hor : v ||| w = 0 ↔ v = 0 ∧ w = 0 := BitVec.or_eq_zero_iff
  rw [hor]
  constructor
  · rintro ⟨rfl, rfl⟩
    rfl
  · intro h
    have hv : (w ++ v).extractLsb' 0 32 = v := BitVec.extractLsb'_append_eq_right
    have hw : (w ++ v).extractLsb' 32 32 = w := BitVec.extractLsb'_append_eq_left
    rw [h] at hv hw
    exact ⟨hv.symm.trans (by simp), hw.symm.trans (by simp)⟩

/-- **From `.jmpin` to `.skipent`**: a record is kept or skipped. -/
theorem jmpin_ask (hcarry : a.carry = false) : (s.ask a).jmpin a =
    if a.Accepted (a.cx.toNat % 256) then
      { s.ask a with bp := s.bp + 1, di := s.di + 24 }
    else s.ask a := by
  unfold MapState.jmpin
  dsimp only
  by_cases hcx : a.cx = 0
  · rw [if_pos hcx, if_neg fun h => h.1 hcx]
  · have hfull := a.full hcarry hcx
    have hsize : ¬ a.cx.extractLsb' 0 8 ≤ 20 ↔ 20 < a.cx.toNat % 256 := by
      rw [BitVec.not_le, BitVec.lt_def]
      simp
    have hignore := ask_ignore (s := s) hfull
    have hlength := ask_length (s := s) hfull
    have hregs : (s.ask a).bp = s.bp ∧ (s.ask a).di = s.di := ⟨rfl, rfl⟩
    rw [if_neg hcx, hregs.1, hregs.2]
    by_cases hdrop : 20 < a.cx.toNat % 256 ∧ a.record.acpi.getLsbD 0 = false
    · rw [if_pos ⟨hsize.2 hdrop.1, hignore.2 hdrop.2⟩, if_neg fun h => h.2.2 hdrop]
    · rw [if_neg fun h => hdrop ⟨hsize.1 h.1, hignore.1 h.2⟩]
      by_cases hzero : a.record.length = 0
      · rw [if_pos (hlength.2 hzero), if_neg fun h => h.2.1 hzero]
      · rw [if_neg fun h => hzero (hlength.1 h), if_pos ⟨hcx, hzero, hdrop⟩]

end Ask

/-! ### The loop -/

/-- The records kept up to now stand behind the count, which is still zero, and the registers count them. -/
structure Collected (s : MapState) (recs : List MemoryMapEntry) : Prop where
  bp : s.bp = BitVec.ofNat 16 recs.length
  di : s.di = BitVec.ofNat 16 (0x8004 + 24 * recs.length)
  room : 0x8004 + 24 * recs.length ≤ 0x10000
  count : s.mem.load32 (near mmapEnt) = 0
  records : ∀ i e, recs[i]? = some e → MemoryMapEntry.read s.mem (storedAddr 0x8000 i) = e

section Loop

variable {a : Answer} {answers : List Answer} {s : MapState} {recs : List MemoryMapEntry} {m : Mem}

/-- A record is made of its six words. -/
theorem read_congr {m m' : Mem} {b : Word}
    (h : ∀ j < 6, m'.load32 (b + BitVec.ofNat 32 (4 * j)) = m.load32 (b + BitVec.ofNat 32 (4 * j))) :
    MemoryMapEntry.read m' b = MemoryMapEntry.read m b := by
  refine MemoryMapEntry.read_eq fun j hj => ?_
  rw [h j hj, Kernel.Memory.words_read]
  have e : b + BitVec.ofNat 32 (4 * 0) = b := by simp
  interval_cases j
  · rw [e]
    rfl
  all_goals rfl

/-- Where the words of the record `i` stand. -/
theorem storedAddr_toNat {i j : ℕ} (hi : 0x8004 + 24 * (i + 1) ≤ 0x10000) (hj : j < 6) :
    (storedAddr 0x8000 i + BitVec.ofNat 32 (4 * j)).toNat = 0x8004 + 24 * i + 4 * j := by
  unfold storedAddr
  simp only [BitVec.toNat_add, BitVec.ofNat_eq_ofNat, BitVec.toNat_ofNat]
  omega

/-- The slot behind the records, its offsets wrapped, is apart from what is below it. -/
theorem slot_apart {n j : ℕ} {b : Word} (hroom : 0x8004 + 24 * n ≤ 0x10000) (hj : j < 6)
    (hlow : 0x8000 ≤ b.toNat) (hhigh : b.toNat + 4 ≤ 0x8004 + 24 * n) :
    Mem.Apart (near (BitVec.ofNat 16 (0x8004 + 24 * n) + BitVec.ofNat 16 (4 * j))) 4 b 4 := by
  unfold Mem.Apart near
  have hoff : (BitVec.setWidth 32 (BitVec.ofNat 16 (0x8004 + 24 * n) + BitVec.ofNat 16 (4 * j))).toNat =
      (0x8004 + 24 * n + 4 * j) % 65536 := by
    simp only [BitVec.toNat_setWidth, BitVec.toNat_add, BitVec.toNat_ofNat]
    omega
  generalize BitVec.setWidth 32 (BitVec.ofNat 16 (0x8004 + 24 * n) + BitVec.ofNat 16 (4 * j)) = c at hoff
  constructor
  · bv_omega
  · bv_omega

/-- The call of the BIOS leaves the words below the slot alone. -/
theorem ask_below (h : Collected s recs) {b : Word} (hlow : 0x8000 ≤ b.toNat)
    (hhigh : b.toNat + 4 ≤ 0x8004 + 24 * recs.length) : (s.ask a).mem.load32 b = s.mem.load32 b := by
  unfold MapState.ask
  dsimp only
  rw [load32_storeSlot_of_apart fun k hk => ?_]
  · rw [h.di]
    exact Mem.load32_store_of_apart (slot_apart (j := 5) h.room (by omega) hlow hhigh)
  · have hlen := a.length_le
    rw [h.di]
    exact slot_apart h.room (by omega) hlow hhigh

theorem Collected.ask (h : Collected s recs) (a : Answer) : Collected (s.ask a) recs := by
  have hroom := h.room
  refine ⟨h.bp, h.di, h.room, ?_, fun i e hi => ?_⟩
  · rw [ask_below h (by decide) (by simp [near, mmapEnt])]
    exact h.count
  · have hlt := (List.getElem?_eq_some_iff.1 hi).1
    have haddr : ∀ j < 6, (storedAddr 0x8000 i + BitVec.ofNat 32 (4 * j)).toNat =
        0x8004 + 24 * i + 4 * j := fun j hj => storedAddr_toNat (by omega) hj
    rw [read_congr fun j hj => ask_below h ?_ ?_]
    · exact h.records i e hi
    · rw [haddr j hj]
      omega
    · rw [haddr j hj]
      omega

/-- A record that is kept. -/
theorem Collected.keep (h : Collected s recs) (hfull : 5 ≤ a.words.length)
    (hroom : 0x8004 + 24 * (recs.length + 1) ≤ 0x10000) :
    Collected { s.ask a with bp := s.bp + 1, di := s.di + 24 } (recs ++ [a.record]) := by
  have hask := h.ask a
  refine ⟨?_, ?_, by simpa using hroom, hask.count, fun i e hi => ?_⟩
  · rw [h.bp, List.length_append, List.length_singleton]
    bv_omega
  · rw [h.di, List.length_append, List.length_singleton]
    bv_omega
  · by_cases hlt : i < recs.length
    · rw [List.getElem?_append_left hlt] at hi
      exact hask.records i e hi
    · have hlen : i < (recs ++ [a.record]).length := (List.getElem?_eq_some_iff.1 hi).1
      rw [List.length_append, List.length_singleton] at hlen
      obtain rfl : i = recs.length := by omega
      have he : e = a.record := by simpa using hi.symm
      subst he
      refine MemoryMapEntry.read_eq fun j hj => ?_
      rw [← ask_slot hfull hj]
      congr 1
      refine BitVec.eq_of_toNat_eq ?_
      rw [storedAddr_toNat hroom hj, h.di]
      unfold near
      simp only [BitVec.toNat_setWidth, BitVec.toNat_add, BitVec.toNat_ofNat]
      omega

/-- **The map at the end**: the count, and the records behind it. -/
theorem Collected.e820f (h : Collected s recs) : numEntries s.e820f 0x8000 = BitVec.ofNat 32 recs.length ∧
    storedRecords s.e820f 0x8000 = recs := by
  have hroom := h.room
  have hmap : near mmapEnt = 0x8000 := rfl
  have hnum : numEntries s.e820f 0x8000 = BitVec.ofNat 32 recs.length := by
    have hload := Mem.load32_store16_self (v := s.bp) h.count
    rw [hmap] at hload
    unfold numEntries MapState.e820f
    rw [hmap, hload, h.bp]
    bv_omega
  refine ⟨hnum, List.ext_getElem? fun i => ?_⟩
  unfold storedRecords
  rw [hnum, List.getElem?_map, show (BitVec.ofNat 32 recs.length).toNat = recs.length by simp; omega]
  by_cases hi : i < recs.length
  · rw [List.getElem?_range hi, List.getElem?_eq_getElem hi, Option.map_some]
    congr 1
    rw [← h.records i _ (List.getElem?_eq_getElem hi)]
    refine read_congr fun j hj => ?_
    have haddr := storedAddr_toNat (i := i) (by omega) hj
    refine Mem.load32_store_of_apart ⟨?_, ?_⟩
    · rw [hmap]
      bv_omega
    · rw [hmap]
      bv_omega
  · rw [List.getElem?_eq_none (by simpa using hi), List.getElem?_eq_none (by omega)]
    rfl

theorem kept_cons (hcarry : a.carry = false) : kept (a :: answers) =
    (if a.Accepted (a.cx.toNat % 256) then [a.record] else []) ++
      if a.ebx = 0 then [] else kept answers := by
  have hheard : heard (a :: answers) = a :: if a.ebx = 0 then [] else heard answers := by
    rw [heard, if_neg (by simp [hcarry])]
    split_ifs <;> rfl
  unfold kept
  rw [hheard]
  by_cases hebx : a.ebx = 0
  · rw [if_pos hebx, if_pos hebx]
    by_cases hacc : a.Accepted (a.cx.toNat % 256)
    · simp [hacc]
    · simp [hacc]
  · rw [if_neg hebx, if_neg hebx]
    by_cases hacc : a.Accepted (a.cx.toNat % 256)
    · simp [hacc]
    · simp [hacc]

/-- One answer that is no end by its carry flag. -/
theorem Collected.step (h : Collected s recs) (hcarry : a.carry = false)
    (hroom : 0x8004 + 24 * (recs.length + (if a.Accepted (a.cx.toNat % 256) then [a.record] else []).length) ≤
      0x10000) :
    Collected ((s.ask a).jmpin a)
      (recs ++ if a.Accepted (a.cx.toNat % 256) then [a.record] else []) := by
  rw [jmpin_ask hcarry]
  by_cases hacc : a.Accepted (a.cx.toNat % 256)
  · rw [if_pos hacc, if_pos hacc]
    rw [if_pos hacc] at hroom
    exact h.keep (a.full hcarry hacc.1) hroom
  · rw [if_neg hacc, if_neg hacc, List.append_nil]
    exact h.ask a

/-- **The loop** keeps the records of the answers up to the end of the list. -/
theorem e820lp_spec (h : Collected s recs) (hends : ∃ a ∈ answers, a.Ends)
    (hroom : 0x8004 + 24 * (recs.length + (kept answers).length) ≤ 0x10000) :
    ∃ s', e820lp answers s = some s'.e820f ∧ Collected s' (recs ++ kept answers) := by
  induction answers generalizing s recs with
  | nil => simp at hends
  | cons a answers ih =>
    unfold e820lp
    dsimp only
    by_cases hcarry : a.carry = true
    · have hkept : kept (a :: answers) = [] := by simp [kept, heard, hcarry]
      rw [if_pos hcarry, hkept, List.append_nil]
      exact ⟨_, rfl, h.ask a⟩
    · have hcarry' : a.carry = false := by simpa using hcarry
      rw [kept_cons hcarry', List.length_append] at hroom
      have hstep := h.step hcarry' (by omega)
      rw [if_neg hcarry, kept_cons hcarry', ← List.append_assoc]
      by_cases hebx : a.ebx = 0
      · rw [if_neg (not_not.2 hebx), if_pos hebx, List.append_nil]
        exact ⟨_, rfl, hstep⟩
      · rw [if_pos hebx, if_neg hebx]
        rw [if_neg hebx] at hroom
        refine ih hstep ?_ (by rw [List.length_append]; omega)
        obtain ⟨b, hb, hbends⟩ := hends
        rcases List.mem_cons.1 hb with rfl | hb
        · exact absurd hbends (not_or.2 ⟨hcarry, hebx⟩)
        · exact ⟨b, hb, hbends⟩

/-- The state before the first call of the BIOS. -/
theorem collected_start (m : Mem) : Collected ⟨m.store32 (near mmapEnt) 0, 0x8004, 0⟩ [] where
  bp := rfl
  di := rfl
  room := by simp
  count := Mem.load32_store32_self 0
  records i e hi := by simp at hi

/-- **`CreateMemoryMap`** ends, and leaves the number of the records it kept at `0x8000` and the records
themselves behind it, in the order of the answers. -/
theorem stage2Map_records (hcarry : a.carry = false) (heax : a.eax = smap) (hebx : a.ebx ≠ 0)
    (hends : ∃ b ∈ answers, b.Ends) (hroom : 0x8004 + 24 * (kept (a :: answers)).length ≤ 0x10000) :
    ∃ m', stage2Map (a :: answers) m = some (false, m') ∧
      numEntries m' 0x8000 = BitVec.ofNat 32 (kept (a :: answers)).length ∧
      storedRecords m' 0x8000 = kept (a :: answers) := by
  rw [kept_cons hcarry, if_neg hebx, List.length_append] at hroom
  have hstep := (collected_start m).step hcarry (by rw [List.length_nil]; omega)
  rw [List.nil_append] at hstep
  obtain ⟨s', hloop, hs'⟩ := e820lp_spec hstep hends (by omega)
  refine ⟨s'.e820f, ?_, ?_⟩
  · unfold stage2Map createMemoryMap
    dsimp only
    rw [if_neg (by simp [hcarry]), if_neg (by simp [heax]), if_neg hebx]
    exact congrArg (Option.map fun m => (false, m)) hloop
  · rw [kept_cons hcarry, if_neg hebx]
    exact hs'.e820f

end Loop

/-! ### A length of 256 -/

/-- The end of the list. -/
def endAnswer : Answer := ⟨true, 0, 0, 0, [], by decide, by decide⟩

/-- A record of 20 bytes. -/
def shortAnswer : Answer := ⟨false, smap, 1, 20, [0, 0, 0x9FC00, 0, 1], by decide, by decide⟩

/-- A record of 24 bytes whose ignore bit is clear. -/
def ignoredAnswer : Answer := ⟨false, smap, 2, 24, [0x9FC00, 0, 0x400, 0, 2, 0], by decide, by decide⟩

/-- A record of an empty region. -/
def emptyAnswer : Answer := ⟨false, smap, 3, 20, [0xF0000, 0, 0, 0, 2], by decide, by decide⟩

/-- A record of 24 bytes whose ignore bit is set. -/
def fullAnswer : Answer := ⟨false, smap, 4, 24, [0x100000, 0, 0x7EE0000, 0, 1, 1], by decide, by decide⟩

/-- A list in which the second and the third record are skipped. -/
def mixedAnswers : List Answer := [shortAnswer, ignoredAnswer, emptyAnswer, fullAnswer, endAnswer]

theorem stage2Map_records_mixed :
    kept mixedAnswers = [shortAnswer.record, fullAnswer.record] ∧
    ∃ m', stage2Map mixedAnswers (fun _ => 0) = some (false, m') ∧
      numEntries m' 0x8000 = BitVec.ofNat 32 (kept mixedAnswers).length ∧
      storedRecords m' 0x8000 = kept mixedAnswers :=
  ⟨by decide, stage2Map_records rfl rfl (by decide) ⟨endAnswer, by simp, .inl rfl⟩ (by decide)⟩

/-- An answer that gives a length of 256 bytes for a record whose ignore bit is clear. -/
def longAnswer : Answer := ⟨false, smap, 1, 0x0100, [0, 0, 0x1000, 0, 1, 0], by decide, by decide⟩

/-- **It is kept**, although the record is longer than 20 bytes. -/
theorem long_record_kept : ∃ m', stage2Map [longAnswer, endAnswer] (fun _ => 0) = some (false, m') ∧
    numEntries m' 0x8000 = 1 ∧
    ((heard [longAnswer, endAnswer]).filter fun a => a.Accepted a.cx.toNat).length = 0 :=
  ⟨_, rfl, by decide, by decide⟩

end RedFox32.BootloaderStage2
