import RedFox32.Machine.Bitmap
import RedFox32.Machine.Runs
import RedFox32.Old.FileSystem.ReadDirectory

/-!
The map of the sectors in use: a bit for each of the 2880 sectors, and behind the bits the number of used
and of free sectors.  The map is the first 364 bytes of its sector and is changed in memory.
-/

namespace RedFox32.Old.FileSystem

open Machine

/-- `WriteLBA`: a sector that the disk does not have is not written. -/
def Drive.writeLBA (d : Drive) (lba : BitVec 16) : Drive :=
  if 2880 ≤ lba.toNat then d
  else { d with disk := Function.update d.disk lba.toNat d.buffer }

/-! ### The map in memory -/

/-- The bytes from `SectorMap` on: `SectorGroups` in the first 360, the two counts in the next four, and
behind these what the structure does not own. -/
abbrev SectorMap := ℕ → Byte

/-- `UsedSectors` -/
def SectorMap.usedSectors (m : SectorMap) : BitVec 16 := m 361 ++ m 360

/-- `FreeSectors` -/
def SectorMap.freeSectors (m : SectorMap) : BitVec 16 := m 363 ++ m 362

/-- `GetSectorStatus`; the index of the group is not checked. -/
def getSectorStatus (m : SectorMap) (sector : BitVec 16) : Byte :=
  let sectorGroupID := sector.toNat / 8
  let sectorBitOffset := sector.toNat % 8
  let sectorGroup := m sectorGroupID
  let sectorBit := 0b10000000#8 >>> sectorBitOffset
  (sectorGroup &&& sectorBit) >>> (7 - sectorBitOffset)

/-- `SetSectorStatus` -/
def setSectorStatus (m : SectorMap) (sector : BitVec 16) (status : Byte) : SectorMap :=
  let status : Byte := if status ≠ 0 then 1 else 0
  let sectorGroupID := sector.toNat / 8
  let sectorBitOffset := sector.toNat % 8
  let sectorGroup := m sectorGroupID
  let sectorBit := 0b10000000#8 >>> sectorBitOffset
  let sectorStatus := (sectorGroup &&& sectorBit) >>> (7 - sectorBitOffset)
  if sectorStatus ≠ status then
    Function.update m sectorGroupID (sectorGroup ^^^ (1#8 <<< (7 - sectorBitOffset)))
  else m

/-! ### The map on the disk -/

/-- The drive and `SectorMap`. -/
structure Volume where
  drive : Drive
  sectorMap : SectorMap

/-- The place of a byte of the map in its sector. -/
def mapByte (i : Fin 364) : Fin 512 := i.castLE (by omega)

/-- `LoadSectorMap` -/
def loadSectorMap (sectorMapLBA : BitVec 16) (v : Volume) : Volume :=
  let drive := v.drive.readLBA sectorMapLBA
  { drive
    sectorMap := (List.finRange 364).foldl
      (fun m i => Function.update m i.val (drive.buffer (mapByte i))) v.sectorMap }

/-- `WriteSectorMapChanges` -/
def writeSectorMapChanges (sectorMapLBA : BitVec 16) (v : Volume) : Volume :=
  let drive := v.drive.readLBA sectorMapLBA
  let buffer := (List.finRange 364).foldl
    (fun b i => Function.update b (mapByte i) (v.sectorMap i)) drive.buffer
  { v with drive := Drive.writeLBA { drive with buffer } sectorMapLBA }

/-! ### The status of a sector is a bit of the map -/

section Status

variable (m : SectorMap) (s t : BitVec 16) (status : Byte)

theorem status_of_group (g : Byte) (k : ℕ) (hk : k < 8) :
    (g &&& (0b10000000#8 >>> k)) >>> (7 - k) = if g.getLsbD (7 - k) then 1 else 0 := by
  interval_cases k <;> revert g <;> decide

theorem mask_eq_twoPow (k : ℕ) (hk : k < 8) : 1#8 <<< (7 - k) = BitVec.twoPow 8 (7 - k) := by
  interval_cases k <;> rfl

/-- **`GetSectorStatus`** is one where the bit is set and zero elsewhere. -/
theorem getSectorStatus_eq :
    getSectorStatus m s = if Bitmap.bit m s.toNat then 1 else 0 :=
  status_of_group _ _ (Nat.mod_lt _ (by omega))

theorem getSectorStatus_congr {m' : SectorMap} (h : m' (s.toNat / 8) = m (s.toNat / 8)) :
    getSectorStatus m' s = getSectorStatus m s := by
  simp only [getSectorStatus, h]

/-- **`SetSectorStatus`** puts one bit. -/
theorem setSectorStatus_eq :
    setSectorStatus m s status = Bitmap.assign m s.toNat (status ≠ 0) := by
  have hcur : getSectorStatus m s ≠ (if status ≠ 0 then 1 else 0) ↔
      Bitmap.bit m s.toNat ≠ decide (status ≠ 0) := by
    rw [getSectorStatus_eq]
    cases Bitmap.bit m s.toNat <;> simp
  have hmask := mask_eq_twoPow _ (Nat.mod_lt s.toNat (by omega : 8 > 0))
  unfold Bitmap.assign Bitmap.toggle
  rw [← hmask]
  by_cases h : Bitmap.bit m s.toNat = decide (status ≠ 0)
  · rw [if_pos h]
    exact if_neg fun hne => hcur.1 hne h
  · rw [if_neg h]
    exact if_pos (hcur.2 h)

/-- The statuses after one is set. -/
theorem getSectorStatus_set :
    getSectorStatus (setSectorStatus m s status) t =
      if t = s then (if status ≠ 0 then 1 else 0) else getSectorStatus m t := by
  rw [getSectorStatus_eq, setSectorStatus_eq, Bitmap.bit_assign, getSectorStatus_eq]
  simp only [BitVec.toNat_inj]
  split_ifs <;> simp_all

end Status

/-! ### A sequence of calls -/

/-- A call of `SetSectorStatus`. -/
structure StatusCall where
  sector : BitVec 16
  status : Byte
deriving DecidableEq

/-- What a call does to the map. -/
def StatusCall.exec (m : SectorMap) (c : StatusCall) : SectorMap := setSectorStatus m c.sector c.status

/-- The status that the last call for `t` gives, if there is one. -/
def lastStatus (calls : List StatusCall) (t : BitVec 16) : Option Byte :=
  (calls.reverse.find? fun c => c.sector = t).map StatusCall.status

theorem getSectorStatus_calls (m : SectorMap) (calls : List StatusCall) (t : BitVec 16) :
    getSectorStatus (calls.foldl StatusCall.exec m) t =
      match lastStatus calls t with
      | some status => if status ≠ 0 then 1 else 0
      | none => getSectorStatus m t := by
  induction calls using List.reverseRecOn with
  | nil => rfl
  | append_singleton calls c ih =>
    rw [List.foldl_append, List.foldl_cons, List.foldl_nil, StatusCall.exec, getSectorStatus_set, ih]
    unfold lastStatus
    rw [List.reverse_append, List.reverse_singleton, List.singleton_append]
    by_cases hc : c.sector = t
    · rw [List.find?_cons_of_pos (by simpa using hc), if_pos hc.symm]
      rfl
    · rw [List.find?_cons_of_neg (by simpa using hc), if_neg fun h => hc h.symm]

/-! ### Loading and writing the map -/

section Sector

variable {lba : BitVec 16} {v : Volume}

theorem mapByte_injective : Function.Injective mapByte := Fin.castLE_injective (by omega)

theorem loadSectorMap_disk : (loadSectorMap lba v).drive.disk = v.drive.disk := readLBA_disk lba

/-- The map that is loaded is the first bytes of its sector. -/
theorem loadSectorMap_inside (h : lba.toNat < 2880) (i : Fin 364) :
    (loadSectorMap lba v).sectorMap i = v.drive.disk lba.toNat (mapByte i) := by
  simp only [loadSectorMap]
  rw [copy_inside Fin.val_injective (List.mem_finRange i), readLBA_buffer h]

theorem writeLBA_disk {d : Drive} (h : lba.toNat < 2880) :
    (d.writeLBA lba).disk = Function.update d.disk lba.toNat d.buffer := by
  unfold Drive.writeLBA
  rw [if_neg (by omega)]

theorem writeSectorMapChanges_disk (h : lba.toNat < 2880) :
    (writeSectorMapChanges lba v).drive.disk = Function.update v.drive.disk lba.toNat
      ((List.finRange 364).foldl (fun b i => Function.update b (mapByte i) (v.sectorMap i))
        (v.drive.disk lba.toNat)) := by
  unfold writeSectorMapChanges
  rw [writeLBA_disk h, readLBA_buffer h, readLBA_disk]

/-- The sector of the map after the changes are written. -/
theorem writeSectorMapChanges_inside (h : lba.toNat < 2880) (i : Fin 364) :
    (writeSectorMapChanges lba v).drive.disk lba.toNat (mapByte i) = v.sectorMap i := by
  rw [writeSectorMapChanges_disk h, Function.update_self]
  exact copy_inside mapByte_injective (List.mem_finRange i)

theorem writeSectorMapChanges_behind (h : lba.toNat < 2880) {k : Fin 512} (hk : 364 ≤ k.val) :
    (writeSectorMapChanges lba v).drive.disk lba.toNat k = v.drive.disk lba.toNat k := by
  rw [writeSectorMapChanges_disk h, Function.update_self]
  apply copy_outside
  rintro i - rfl
  exact absurd i.isLt (Nat.not_lt.2 hk)

theorem writeSectorMapChanges_elsewhere (h : lba.toNat < 2880) {l : ℕ} (hl : l ≠ lba.toNat) :
    (writeSectorMapChanges lba v).drive.disk l = v.drive.disk l := by
  rw [writeSectorMapChanges_disk h]
  exact Function.update_of_ne hl _ _

end Sector

/-- The changes of the map in memory by a sequence of calls. -/
def Volume.setStatuses (v : Volume) (calls : List StatusCall) : Volume :=
  { v with sectorMap := calls.foldl StatusCall.exec v.sectorMap }

/-- **The map survives on the disk.**  After a map is loaded, changed and written, it is loaded again from
the same disk with the status that was last set for each sector, and the rest of the disk is as it was. -/
theorem sectorMap_roundTrip (lba : BitVec 16) (hlba : lba.toNat < 2880) (v : Volume)
    (calls : List StatusCall) (later : Volume)
    (hlater : later.drive.disk = (writeSectorMapChanges lba
      ((loadSectorMap lba v).setStatuses calls)).drive.disk) :
    (∀ t : BitVec 16, t.toNat < 2880 →
      getSectorStatus (loadSectorMap lba later).sectorMap t =
        match lastStatus calls t with
        | some status => if status ≠ 0 then 1 else 0
        | none => getSectorStatus (loadSectorMap lba v).sectorMap t) ∧
    (∀ k : Fin 512, 364 ≤ k.val →
      later.drive.disk lba.toNat k = v.drive.disk lba.toNat k) ∧
    ∀ l ≠ lba.toNat, later.drive.disk l = v.drive.disk l := by
  set changed := (loadSectorMap lba v).setStatuses calls with hchanged
  have hdisk : changed.drive.disk = v.drive.disk := loadSectorMap_disk
  refine ⟨fun t ht => ?_, fun k hk => ?_, fun l hl => ?_⟩
  · have hgroup : (loadSectorMap lba later).sectorMap (t.toNat / 8) = changed.sectorMap (t.toNat / 8) := by
      have hload := loadSectorMap_inside (v := later) hlba ⟨t.toNat / 8, by omega⟩
      rw [hlater, writeSectorMapChanges_inside hlba] at hload
      exact hload
    rw [getSectorStatus_congr _ _ hgroup, hchanged, Volume.setStatuses, getSectorStatus_calls]
  · rw [hlater, writeSectorMapChanges_behind hlba hk, hdisk]
  · rw [hlater, writeSectorMapChanges_elsewhere hlba hl, hdisk]

/-- A disk of zeros. -/
def blankVolume : Volume := ⟨⟨fun _ _ => 0, fun _ => 0, []⟩, fun _ => 0⟩

/-- Sector 10 is used, and sector 9 after it was used is free again. -/
theorem sectorMap_roundTrip_blank :
    let changed := (loadSectorMap 1 blankVolume).setStatuses [⟨9, 1⟩, ⟨10, 2⟩, ⟨9, 0⟩]
    let later := loadSectorMap 1 (writeSectorMapChanges 1 changed)
    getSectorStatus later.sectorMap 9 = 0 ∧ getSectorStatus later.sectorMap 10 = 1 := by
  intro changed later
  have h := (sectorMap_roundTrip 1 (by decide) blankVolume [⟨9, 1⟩, ⟨10, 2⟩, ⟨9, 0⟩]
    (writeSectorMapChanges 1 changed) rfl).1
  exact ⟨h 9 (by decide), h 10 (by decide)⟩

/-! ### The counts -/

/-- The two counts are those of the bits. -/
def SectorMap.Counted (m : SectorMap) : Prop :=
  m.usedSectors.toNat = Bitmap.count m 2880 ∧ m.freeSectors.toNat = 2880 - Bitmap.count m 2880

/-- The call leaves the map as it is, or is for a byte behind the structure. -/
def StatusCall.Harmless (m : SectorMap) (c : StatusCall) : Prop :=
  Bitmap.bit m c.sector.toNat = decide (c.status ≠ 0) ∨ 2912 ≤ c.sector.toNat

section Counts

variable {m m' : SectorMap}

theorem exec_eq (m : SectorMap) (c : StatusCall) :
    c.exec m = Bitmap.assign m c.sector.toNat (c.status ≠ 0) := setSectorStatus_eq m c.sector c.status

/-- Counts that are equal have equal bytes. -/
theorem countBytes_eq (hused : m'.usedSectors = m.usedSectors) (hfree : m'.freeSectors = m.freeSectors)
    {k : ℕ} (hk : 360 ≤ k) (hk' : k < 364) : m' k = m k := by
  have hbytes {a b c d : Byte} (h : a ++ b = c ++ d) : a = c ∧ b = d := by
    constructor
    · rw [← BitVec.extractLsb'_append_eq_left (a := a) (b := b), h, BitVec.extractLsb'_append_eq_left]
    · rw [← BitVec.extractLsb'_append_eq_right (a := a) (b := b), h, BitVec.extractLsb'_append_eq_right]
  obtain ⟨h1, h0⟩ := hbytes hused
  obtain ⟨h3, h2⟩ := hbytes hfree
  interval_cases k
  · exact h0
  · exact h1
  · exact h2
  · exact h3

theorem SectorMap.Counted.congr (h : m.Counted) (hbytes : ∀ k, 360 ≤ k → k < 364 → m' k = m k)
    (hcount : Bitmap.count m' 2880 = Bitmap.count m 2880) : m'.Counted := by
  unfold SectorMap.Counted SectorMap.usedSectors SectorMap.freeSectors at h ⊢
  rwa [hbytes 360 (by omega) (by omega), hbytes 361 (by omega) (by omega),
    hbytes 362 (by omega) (by omega), hbytes 363 (by omega) (by omega), hcount]

/-- Two maps with right counts and the same bits have the same counts. -/
theorem SectorMap.Counted.bytes_eq (h : m.Counted) (h' : m'.Counted)
    (hcount : Bitmap.count m' 2880 = Bitmap.count m 2880) {k : ℕ} (hk : 360 ≤ k) (hk' : k < 364) :
    m' k = m k := by
  obtain ⟨hused, hfree⟩ := h
  obtain ⟨hused', hfree'⟩ := h'
  apply countBytes_eq _ _ hk hk'
  · apply BitVec.eq_of_toNat_eq
    rw [hused', hused, hcount]
  · apply BitVec.eq_of_toNat_eq
    rw [hfree', hfree, hcount]

/-- **One call** keeps the counts right exactly when it changes no bit of the structure: nothing updates
the counts when a bit changes, and the bits from 2880 on are those of the counts themselves. -/
theorem exec_counted_iff (h : m.Counted) (c : StatusCall) : (c.exec m).Counted ↔ c.Harmless m := by
  unfold StatusCall.Harmless
  rw [exec_eq, Bitmap.assign]
  set s := c.sector.toNat
  by_cases hsame : Bitmap.bit m s = decide (c.status ≠ 0)
  · rw [if_pos hsame]
    exact iff_of_true h (Or.inl hsame)
  rw [if_neg hsame]
  constructor
  · intro h'
    by_contra hc
    obtain ⟨-, hlt⟩ := not_or.1 hc
    by_cases hmap : s < 2880
    · -- the count of the bits has changed, the bytes of the counts have not
      have hused : SectorMap.usedSectors (Bitmap.toggle m s) = m.usedSectors := by
        unfold SectorMap.usedSectors
        rw [Bitmap.toggle_outside (by omega), Bitmap.toggle_outside (by omega)]
      have hcount : Bitmap.count (Bitmap.toggle m s) 2880 = Bitmap.count m 2880 := by
        rw [← h'.1, ← h.1, hused]
      have := Bitmap.count_toggle_eq_iff.1 hcount
      omega
    · -- the bits counted are the same, one of the counts is not
      have hbyte := h.bytes_eq h' (Bitmap.count_toggle_of_le (by omega)) (k := s / 8) (by omega) (by omega)
      have hbit : Bitmap.bit (Bitmap.toggle m s) s = Bitmap.bit m s := by
        unfold Bitmap.bit at *
        rw [hbyte]
      rw [Bitmap.bit_toggle_self] at hbit
      exact Bool.not_ne_self _ hbit
  · intro hc
    have hbehind : 2912 ≤ s := hc.resolve_left hsame
    refine h.congr (fun k _ hk => Bitmap.toggle_outside (by omega)) ?_
    exact Bitmap.count_toggle_of_le (by omega)

end Counts

/-- **The counts stay right** throughout a sequence of calls exactly when every call is harmless. -/
theorem counted_iff_harmless (m : SectorMap) (h : m.Counted) (calls : List StatusCall) :
    (∀ t ∈ trace StatusCall.exec m calls, SectorMap.Counted t.post) ↔
      ∀ t ∈ trace StatusCall.exec m calls, t.label.Harmless t.pre := by
  refine (run_trace _ _ _).forall_iff (I := SectorMap.Counted) h (fun t hpre hstep => ?_)
    (fun t _ _ hpost => hpost)
  rw [hstep]
  exact exec_counted_iff hpre t.label

/-- A map with all sectors free. -/
def freeMap : SectorMap := fun k => if k = 362 then 0x40 else if k = 363 then 0x0B else 0

theorem freeMap_counted : freeMap.Counted := by
  have hcount : Bitmap.count freeMap 2880 = 0 := by
    apply Nat.count_of_forall_not
    intro i hi
    have hbyte : freeMap (i / 8) = 0 := by
      unfold freeMap
      rw [if_neg (by omega), if_neg (by omega)]
    simp [Bitmap.bit, hbyte]
  unfold SectorMap.Counted
  rw [hcount]
  decide

/-- A sector that is free is freed again. -/
theorem counted_free_again : freeMap.Counted ∧
    ∀ t ∈ trace StatusCall.exec freeMap [⟨5, 0⟩, ⟨2915, 1⟩], SectorMap.Counted t.post := by
  refine ⟨freeMap_counted, ?_⟩
  apply (counted_iff_harmless freeMap freeMap_counted [⟨5, 0⟩, ⟨2915, 1⟩]).2
  intro t ht
  simp only [trace, List.mem_cons, List.not_mem_nil, or_false] at ht
  rcases ht with rfl | rfl
  · exact Or.inl (by decide)
  · exact Or.inr (by decide)

/-- A sector is taken, and both counts are as before. -/
theorem taken_not_counted :
    freeMap.Counted ∧ ¬ SectorMap.Counted ([⟨5, 1⟩].foldl StatusCall.exec freeMap) := by
  refine ⟨freeMap_counted, fun h => ?_⟩
  rcases (exec_counted_iff freeMap_counted ⟨5, 1⟩).1 h with hbit | hbehind
  · exact absurd hbit (by decide)
  · exact absurd hbehind (by decide)

end RedFox32.Old.FileSystem
