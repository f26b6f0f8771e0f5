import RedFox32.BootloaderStage2.Defs

/-!
# What `LoadKernel` loads

The loop counts from 1 and stops before `KERNEL_CYLINDER_COUNT`, so from 2 on it loads one track less than
it is told.  `LoadCylinder` takes the number of the track for the number of the sector, and finds the head
but never the cylinder: only the first track is read from where it was written.
-/

namespace RedFox32.BootloaderStage2

open RedFox32.Machine
open RedFox32.Kernel.Memory (numEntries)

/-! ### Tracks -/

/-- The sector from which `LoadCylinder` reads the track `t`. -/
def trackSector (t : ℕ) : ℕ := t % 2 * trackSectors + (t - 1)

/-- The sector at which the kernel is written to the disk. -/
def kernelSector : ℕ := 18

/-- The number of tracks that the loop loads. -/
def tracksRead (n : ℕ) : ℕ := max 1 (n - 1)

/-- The memory after the tracks up to `k` are loaded. -/
def tracksLoaded (d : Drive) (k : ℕ) (m : Mem) : Mem := fun a =>
  let i := (a - near kernelBase).toNat
  if i < k * trackBytes then d.byte (sectorBytes * trackSector (i / trackBytes + 1) + i % trackBytes)
  else m a

section Loop

variable {d : Drive} {count : BitVec 16} {l : Loader} {m : Mem}

/-- `LoadCylinder` packs the number of the track into a sector and a head. -/
theorem sectorAt_track {t : ℕ} (h1 : 1 ≤ t) (h : t < 64) :
    sectorAt ((BitVec.ofNat 16 t).extractLsb' 8 8) ((BitVec.ofNat 16 t).extractLsb' 0 8)
      ((BitVec.ofNat 16 t % 2).setWidth 8) = trackSector t := by
  interval_cases t <;> rfl

theorem loadCylinder_ok {t : ℕ} (hd : ∀ i, d.fails i = false) (h1 : 1 ≤ t) (h : t < 64) (bx : BitVec 16) :
    loadCylinder d (BitVec.ofNat 16 t) bx l = .ok { l with
      mem := fun a =>
        if (a - near bx).toNat < trackBytes then
          d.byte (sectorBytes * trackSector t + (a - near bx).toNat)
        else l.mem a
      reads := l.reads + 1 } := by
  unfold loadCylinder
  dsimp only
  rw [if_neg (by simp [hd])]
  unfold int13Read
  rw [sectorAt_track h1 h]
  rfl

/-- The next track is loaded behind the others. -/
theorem tracksLoaded_succ {k : ℕ} (hroom : 0x2900 + (k + 1) * trackBytes ≤ 0x10000) :
    (fun a =>
      if (a - near (BitVec.ofNat 16 (0x2900 + k * trackBytes))).toNat < trackBytes then
        d.byte (sectorBytes * trackSector (k + 1) +
          (a - near (BitVec.ofNat 16 (0x2900 + k * trackBytes))).toNat)
      else tracksLoaded d k m a) = tracksLoaded d (k + 1) m := by
  have hbase : (near kernelBase).toNat = 0x2900 := rfl
  have hbytes : trackBytes = 0x2400 := rfl
  obtain ⟨p, hp⟩ : ∃ p, p = k * trackBytes := ⟨_, rfl⟩
  have hsucc : (k + 1) * trackBytes = p + 0x2400 := by rw [Nat.succ_mul, hp, hbytes]
  have hnear : (near (BitVec.ofNat 16 (0x2900 + p))).toNat = 0x2900 + p := by
    unfold near
    rw [BitVec.toNat_setWidth, BitVec.toNat_ofNat, Nat.mod_eq_of_lt (by omega), Nat.mod_eq_of_lt (by omega)]
  funext a
  unfold tracksLoaded
  dsimp only
  rw [← hp, hsucc]
  by_cases hin : (a - near (BitVec.ofNat 16 (0x2900 + p))).toNat < trackBytes
  · -- a byte of the new track
    have hi : (a - near kernelBase).toNat = p + (a - near (BitVec.ofNat 16 (0x2900 + p))).toNat := by
      bv_omega
    have hq : (a - near kernelBase).toNat / trackBytes = k := by
      rw [hbytes] at hp hin ⊢
      omega
    have hr : (a - near kernelBase).toNat % trackBytes =
        (a - near (BitVec.ofNat 16 (0x2900 + p))).toNat := by
      rw [hbytes] at hp hin ⊢
      omega
    rw [if_pos hin, if_pos (by omega), hq, hr]
  · rw [if_neg hin]
    by_cases hold : (a - near kernelBase).toNat < p
    · rw [if_pos hold, if_pos (by omega)]
    · rw [if_neg hold, if_neg (by bv_omega)]

/-- The loader after another track. -/
def nextTrack (d : Drive) (k : ℕ) (m : Mem) (l : Loader) : Loader where
  mem := tracksLoaded d (k + 1) m
  loadAddr := BitVec.ofNat 16 (0x2900 + (k + 1) * trackBytes)
  reads := l.reads + 1
  screen := l.screen ++ [0x4C]

/-- One round of the loop. -/
theorem loadLoop_succ (hd : ∀ i, d.fails i = false) {k : ℕ} (fuel : ℕ)
    (hroom : 0x2900 + (k + 1) * trackBytes ≤ 0x10000) (hmem : l.mem = tracksLoaded d k m)
    (haddr : l.loadAddr = BitVec.ofNat 16 (0x2900 + k * trackBytes)) :
    loadLoop d count (fuel + 1) (BitVec.ofNat 16 (k + 1)) l =
      if (BitVec.ofNat 16 (k + 2)).slt count then
        loadLoop d count fuel (BitVec.ofNat 16 (k + 2)) (nextTrack d k m l)
      else some (.ok (nextTrack d k m l)) := by
  have hk : k + 1 < 64 := by
    unfold trackBytes at hroom
    omega
  have hcx : BitVec.ofNat 16 (k + 1) + 1 = BitVec.ofNat 16 (k + 2) := by bv_omega
  have hnext : l.loadAddr + BitVec.ofNat 16 trackBytes =
      BitVec.ofNat 16 (0x2900 + (k + 1) * trackBytes) := by
    rw [haddr, Nat.succ_mul, ← Nat.add_assoc, BitVec.ofNat_add _ trackBytes]
  rw [loadLoop]
  dsimp only
  rw [loadCylinder_ok hd (by omega) hk]
  dsimp only
  rw [hnext, hcx, hmem, haddr, tracksLoaded_succ hroom]
  rfl

theorem slt_count (hroom : 0x2900 + count.toNat * trackBytes ≤ 0x10000) {k : ℕ} (hk : k < 64) :
    (BitVec.ofNat 16 (k + 2)).slt count = true ↔ k + 2 < count.toNat := by
  unfold trackBytes at hroom
  have hlow : (BitVec.ofNat 16 (k + 2)).toNat = k + 2 := by
    rw [BitVec.toNat_ofNat]
    omega
  rw [BitVec.slt_iff_toInt_lt, BitVec.toInt_eq_toNat_of_lt (by omega),
    BitVec.toInt_eq_toNat_of_lt (by omega), hlow]
  omega

/-- **The loop** loads the tracks up to the last but one, and the first in any case. -/
theorem loadLoop_spec (hcount : 1 ≤ count.toNat) (hroom : 0x2900 + count.toNat * trackBytes ≤ 0x10000)
    (hd : ∀ i, d.fails i = false) {r k : ℕ} (hr : k + (r + 1) = tracksRead count.toNat)
    (hmem : l.mem = tracksLoaded d k m)
    (haddr : l.loadAddr = BitVec.ofNat 16 (0x2900 + k * trackBytes)) :
    ∃ l', (∀ fuel, r < fuel → loadLoop d count fuel (BitVec.ofNat 16 (k + 1)) l = some (.ok l')) ∧
      l'.mem = tracksLoaded d (tracksRead count.toNat) m := by
  unfold tracksRead at *
  have hsmall : count.toNat ≤ 5 := by
    unfold trackBytes at hroom
    omega
  have hle : k + 1 ≤ count.toNat := by omega
  have hnext : 0x2900 + (k + 1) * trackBytes ≤ 0x10000 :=
    le_trans (Nat.add_le_add_left (Nat.mul_le_mul_right _ hle) _) hroom
  induction r generalizing k l with
  | zero =>
    have hstop : ¬ (BitVec.ofNat 16 (k + 2)).slt count = true := by
      rw [slt_count hroom (by omega)]
      omega
    refine ⟨nextTrack d k m l, fun fuel hfuel => ?_, ?_⟩
    · obtain ⟨fuel, rfl⟩ := Nat.exists_eq_succ_of_ne_zero (by omega : fuel ≠ 0)
      rw [loadLoop_succ hd fuel hnext hmem haddr, if_neg hstop]
    · rw [← hr]
      rfl
  | succ r ih =>
    have hgo : (BitVec.ofNat 16 (k + 2)).slt count = true := by
      rw [slt_count hroom (by omega)]
      omega
    have hnext' : 0x2900 + (k + 1 + 1) * trackBytes ≤ 0x10000 :=
      le_trans (Nat.add_le_add_left (Nat.mul_le_mul_right _ (by omega)) _) hroom
    have hmem' : (nextTrack d k m l).mem = tracksLoaded d (k + 1) m := rfl
    have haddr' : (nextTrack d k m l).loadAddr = BitVec.ofNat 16 (0x2900 + (k + 1) * trackBytes) := rfl
    obtain ⟨l', hrun, hmem'⟩ := ih (k := k + 1) (by omega) hmem' haddr' (by omega) hnext'
    refine ⟨l', fun fuel hfuel => ?_, hmem'⟩
    obtain ⟨fuel, rfl⟩ := Nat.exists_eq_succ_of_ne_zero (by omega : fuel ≠ 0)
    rw [loadLoop_succ hd fuel hnext hmem haddr, if_pos hgo]
    exact hrun fuel (by omega)

/-- **`LoadKernel`** ends when no read fails. -/
theorem loadKernel_spec (hcount : 1 ≤ count.toNat) (hroom : 0x2900 + count.toNat * trackBytes ≤ 0x10000)
    (hd : ∀ i, d.fails i = false) (haddr : l.loadAddr = kernelBase) :
    ∃ l', (∀ fuel, count.toNat ≤ fuel → loadKernel d count fuel l = some (.ok l')) ∧
      l'.mem = tracksLoaded d (tracksRead count.toNat) l.mem := by
  have hmem : l.mem = tracksLoaded d 0 l.mem := by
    funext a
    unfold tracksLoaded
    dsimp only
    rw [if_neg (by omega)]
  have hread : 0 + (tracksRead count.toNat - 1 + 1) = tracksRead count.toNat ∧
      tracksRead count.toNat - 1 < count.toNat := by
    unfold tracksRead
    omega
  obtain ⟨l', hrun, hmem'⟩ := loadLoop_spec hcount hroom hd hread.1 hmem haddr
  exact ⟨l', fun fuel hfuel => hrun fuel (by omega), hmem'⟩

end Loop

/-! ### Is it the kernel? -/

/-- The bytes of the memory map at `0x8000`. -/
def mapBytes (m : Mem) : ℕ := 4 + 24 * (numEntries m 0x8000).toNat

/-- **The kernel is loaded**: `n` tracks hold the sectors of the disk from the one where the kernel was
written, and no other memory is changed, nor the memory map. -/
structure Loads (d : Drive) (n : ℕ) (m m' : Mem) : Prop where
  kernel : ∀ i < n * trackBytes,
    m' (near kernelBase + BitVec.ofNat 32 i) = d.byte (sectorBytes * kernelSector + i)
  others : ∀ a, n * trackBytes ≤ (a - near kernelBase).toNat → m' a = m a
  map : ∀ i < mapBytes m, m' (0x8000 + BitVec.ofNat 32 i) = m (0x8000 + BitVec.ofNat 32 i)

/-- The contents of the disk and of the memory before make up for what is read wrongly: a track that is
read from other sectors has the same bytes there, the track that is not read is in the memory already, and
so is the part of the memory map that is overwritten. -/
structure Coincide (d : Drive) (n : ℕ) (m : Mem) : Prop where
  sectors : ∀ t, 2 ≤ t → t < n → ∀ i < trackBytes,
    d.byte (sectorBytes * trackSector t + i) = d.byte (sectorBytes * (trackSectors * t) + i)
  last : ∀ i < trackBytes, m (near kernelBase + BitVec.ofNat 32 ((n - 1) * trackBytes + i)) =
    d.byte (sectorBytes * (trackSectors * n) + i)
  map : ∀ i < mapBytes m, 0x5700 + i < (n - 1) * trackBytes →
    m (0x8000 + BitVec.ofNat 32 i) = d.byte (sectorBytes * kernelSector + (0x5700 + i))

section Exact

variable {d : Drive} {n : ℕ} {m : Mem}

theorem tracksLoaded_apply (k : ℕ) {i : ℕ} (hi : i < 2 ^ 32) :
    tracksLoaded d k m (near kernelBase + BitVec.ofNat 32 i) =
      if i < k * trackBytes then d.byte (sectorBytes * trackSector (i / trackBytes + 1) + i % trackBytes)
      else m (near kernelBase + BitVec.ofNat 32 i) := by
  have hsub : (near kernelBase + BitVec.ofNat 32 i - near kernelBase).toNat = i := by bv_omega
  unfold tracksLoaded
  rw [hsub]

/-- The byte `i` of the track `t`, among the bytes of the kernel. -/
theorem track_index {t i : ℕ} (h1 : 1 ≤ t) (hi : i < trackBytes) :
    ((t - 1) * trackBytes + i) / trackBytes + 1 = t ∧ ((t - 1) * trackBytes + i) % trackBytes = i ∧
      sectorBytes * kernelSector + ((t - 1) * trackBytes + i) =
        sectorBytes * (trackSectors * t) + i := by
  unfold trackBytes sectorBytes kernelSector trackSectors at *
  refine ⟨?_, ?_, ?_⟩
  · omega
  · omega
  · omega

theorem index_track (i : ℕ) : ∃ t j, 1 ≤ t ∧ j < trackBytes ∧ i = (t - 1) * trackBytes + j := by
  refine ⟨i / trackBytes + 1, i % trackBytes, Nat.le_add_left _ _, Nat.mod_lt _ (by decide), ?_⟩
  rw [Nat.add_sub_cancel, Nat.mul_comm]
  exact (Nat.div_add_mod i trackBytes).symm

/-- A byte lies before the end of a track when its own track is no later one. -/
theorem track_lt_iff {q r j : ℕ} (hj : j < trackBytes) : q * trackBytes + j < r * trackBytes ↔ q < r := by
  constructor
  · intro h
    by_contra hle
    have hmul : r * trackBytes ≤ q * trackBytes := Nat.mul_le_mul_right _ (not_lt.1 hle)
    omega
  · intro h
    have hmul : (q + 1) * trackBytes ≤ r * trackBytes := Nat.mul_le_mul_right _ h
    rw [Nat.succ_mul] at hmul
    omega

/-- The memory map, seen from the kernel. -/
theorem map_address (i : ℕ) :
    0x8000 + BitVec.ofNat 32 i = near kernelBase + BitVec.ofNat 32 (0x5700 + i) := by
  have hbase : near kernelBase = 0x2900 := rfl
  rw [hbase, BitVec.ofNat_add, ← BitVec.add_assoc]
  rfl

theorem tracksLoaded_others {k : ℕ} {a : Word} (h : k * trackBytes ≤ (a - near kernelBase).toNat) :
    tracksLoaded d k m a = m a := by
  unfold tracksLoaded
  dsimp only
  rw [if_neg (by omega)]

/-- One track is loaded as it should be. -/
theorem loads_one (hmap : mapBytes m ≤ 0x8000) : Loads d 1 m (tracksLoaded d 1 m) := by
  refine ⟨fun i hi => ?_, fun a ha => tracksLoaded_others ha, fun i hi => ?_⟩
  · rw [Nat.one_mul] at hi
    have hlt : i < 2 ^ 32 := lt_trans hi (by decide)
    rw [tracksLoaded_apply 1 hlt, if_pos (by rwa [Nat.one_mul]), Nat.div_eq_of_lt hi, Nat.mod_eq_of_lt hi]
    rfl
  · have hnot : ¬ 0x5700 + i < 1 * trackBytes := by
      unfold trackBytes
      omega
    rw [map_address, tracksLoaded_apply 1 (by omega), if_neg hnot]

/-- The kernel is in its place where the tracks coincide. -/
theorem Coincide.kernel (h : Coincide d n m) (hn : 2 ≤ n) (hroom : 0x2900 + n * trackBytes ≤ 0x10000) :
    ∀ i < n * trackBytes, tracksLoaded d (n - 1) m (near kernelBase + BitVec.ofNat 32 i) =
      d.byte (sectorBytes * kernelSector + i) := by
  have hpred : (n - 1) * trackBytes ≤ n * trackBytes := Nat.mul_le_mul_right _ (by omega)
  intro i hi
  obtain ⟨t, j, h1, hj, rfl⟩ := index_track i
  obtain ⟨hq, hr, hsum⟩ := track_index h1 hj
  rw [tracksLoaded_apply _ (by omega), hsum]
  rw [track_lt_iff hj] at hi
  by_cases hin : (t - 1) * trackBytes + j < (n - 1) * trackBytes
  · rw [if_pos hin, hq, hr]
    rw [track_lt_iff hj] at hin
    -- the first track is read from where it was written
    by_cases ht : t = 1
    · rw [ht]
      rfl
    · exact h.sectors t (by omega) (by omega) j hj
  · rw [if_neg hin]
    rw [track_lt_iff hj] at hin
    obtain rfl : t = n := by omega
    exact h.last j hj

/-- With more tracks, it depends on the contents. -/
theorem loads_iff_coincide (hn : 2 ≤ n) (hroom : 0x2900 + n * trackBytes ≤ 0x10000)
    (hmap : mapBytes m ≤ 0x8000) :
    Loads d n m (tracksLoaded d (n - 1) m) ↔ Coincide d n m := by
  have hpred : (n - 1) * trackBytes ≤ n * trackBytes := Nat.mul_le_mul_right _ (by omega)
  constructor
  · intro h
    refine ⟨fun t h2 ht i hi => ?_, fun i hi => ?_, fun i hi hlt => ?_⟩
    · obtain ⟨hq, hr, hsum⟩ := track_index (by omega : 1 ≤ t) hi
      have hin : (t - 1) * trackBytes + i < (n - 1) * trackBytes := (track_lt_iff hi).2 (by omega)
      have hk := h.kernel ((t - 1) * trackBytes + i) (by omega)
      rw [tracksLoaded_apply _ (by omega), if_pos hin, hq, hr, hsum] at hk
      exact hk
    · obtain ⟨-, -, hsum⟩ := track_index (by omega : 1 ≤ n) hi
      have hin : (n - 1) * trackBytes + i < n * trackBytes := (track_lt_iff hi).2 (by omega)
      have hk := h.kernel ((n - 1) * trackBytes + i) hin
      rw [tracksLoaded_apply _ (by omega), if_neg (by omega), hsum] at hk
      exact hk
    · have hk := h.kernel (0x5700 + i) (by omega)
      have hm := h.map i hi
      rw [map_address] at hm ⊢
      exact hm.symm.trans hk
  · intro h
    have hkernel := h.kernel hn hroom
    refine ⟨hkernel, fun a ha => tracksLoaded_others (by omega), fun i hi => ?_⟩
    by_cases hin : 0x5700 + i < (n - 1) * trackBytes
    · rw [map_address, hkernel _ (by omega), ← map_address]
      exact (h.map i hi hin).symm
    · rw [map_address, tracksLoaded_apply _ (by omega), if_neg hin]

end Exact

/-- **The kernel is loaded** exactly when it has one track, or the contents of the disk and of the memory
make up for what is read wrongly. -/
theorem loadKernel_iff {d : Drive} {count : BitVec 16} {l : Loader} (hcount : 1 ≤ count.toNat)
    (hroom : 0x2900 + count.toNat * trackBytes ≤ 0x10000) (hd : ∀ i, d.fails i = false)
    (haddr : l.loadAddr = kernelBase) (hmap : mapBytes l.mem ≤ 0x8000) :
    ∃ l', (∀ fuel, count.toNat ≤ fuel → loadKernel d count fuel l = some (.ok l')) ∧
      (Loads d count.toNat l.mem l'.mem ↔ count.toNat = 1 ∨ Coincide d count.toNat l.mem) := by
  obtain ⟨l', hrun, hmem⟩ := loadKernel_spec hcount hroom hd haddr
  refine ⟨l', hrun, ?_⟩
  rw [hmem]
  by_cases hone : count.toNat = 1
  · rw [hone]
    exact iff_of_true (loads_one hmap) (.inl rfl)
  · have hread : tracksRead count.toNat = count.toNat - 1 := by
      unfold tracksRead
      omega
    rw [hread, loads_iff_coincide (by omega) hroom hmap]
    exact (or_iff_right hone).symm

/-- A disk whose sectors from 36 on are filled with ones. -/
def twoTracks : Drive := ⟨fun i => if 512 * 36 ≤ i then 1 else 0, fun _ => false⟩

/-- A loader before its first track, with an empty memory map. -/
def emptyLoader : Loader := ⟨fun _ => 0, kernelBase, 0, []⟩

theorem loadKernel_iff_one :
    ∃ l', (∀ fuel, (1 : BitVec 16).toNat ≤ fuel → loadKernel twoTracks 1 fuel emptyLoader = some (.ok l')) ∧
      (Loads twoTracks (1 : BitVec 16).toNat emptyLoader.mem l'.mem ↔
        (1 : BitVec 16).toNat = 1 ∨ Coincide twoTracks (1 : BitVec 16).toNat emptyLoader.mem) :=
  loadKernel_iff (by decide) (by decide) (fun _ => rfl) rfl (by decide)

/-- **The second track is not loaded.** -/
theorem second_track_missing : ∃ l', loadKernel twoTracks 2 2 emptyLoader = some (.ok l') ∧
    l'.mem 0x4D00 = 0 ∧ twoTracks.byte (sectorBytes * 36) = 1 ∧
    ¬ Loads twoTracks 2 emptyLoader.mem l'.mem := by
  refine ⟨_, rfl, by decide, by decide, fun h => ?_⟩
  have hbyte := h.kernel 0x2400 (by decide)
  exact absurd hbyte (by decide)

end RedFox32.BootloaderStage2
