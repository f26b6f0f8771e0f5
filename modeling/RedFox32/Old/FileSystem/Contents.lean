import RedFox32.Old.FileSystem.ReadFile

/-!
What `ReadFile` leaves in memory for the entry it finds.  `Pos` starts again at zero with every sector, so
the sectors of a file lie over one another.
-/

namespace RedFox32.Old.FileSystem

open Machine

/-- The byte `j` of the sector `k` of a file at `data`. -/
def fileByte (data : Word) (k : ℕ) (j : Fin 512) : Word := data + BitVec.ofNat 32 (512 * k + j)

/-- `F` has its size and the bytes of its sectors, one sector behind the other. -/
def Loaded (disk : ℕ → Block) (s : State) : Prop :=
  let f := s.file.descriptor
  s.file.size.toNat = 512 * f.sectorCount.toNat ∧
    ∀ k < f.sectorCount.toNat, ∀ j, s.mem (fileByte s.file.data k j) = disk (f.startSector.toNat + k) j

/-- The entry has no more than one sector, or its first sector holds what its last one does and the memory
behind the first 512 bytes at `data` happens to hold the others. -/
def Spared (disk : ℕ → Block) (m : Mem) (data : Word) (f : FSFileDescriptor) : Prop :=
  f.sectorCount.toNat ≤ 1 ∨
    disk (f.startSector.toNat + (f.sectorCount.toNat - 1)) = disk f.startSector.toNat ∧
      ∀ k, 1 ≤ k → k < f.sectorCount.toNat →
        ∀ j, m (fileByte data k j) = disk (f.startSector.toNat + k) j

/-! ### One sector -/

section Buffer

variable (m : Mem) (data : Word) (b : Block)

theorem storeBuffer_eq :
    storeBuffer m data b = (List.finRange 512).foldl
      (fun m (c : Fin 512) => Function.update m (data + BitVec.ofNat 32 c) (b c)) m := by
  unfold storeBuffer
  simp only [Mem.store8_eq_update]

theorem storeBuffer_inside (j : Fin 512) : storeBuffer m data b (data + BitVec.ofNat 32 j) = b j := by
  have hplace : Function.Injective fun c : Fin 512 => data + BitVec.ofNat 32 c := by
    intro i j h
    ext
    bv_omega
  rw [storeBuffer_eq]
  exact copy_inside hplace (List.mem_finRange j)

theorem storeBuffer_outside {a : Word} (h : 512 ≤ (a - data).toNat) : storeBuffer m data b a = m a := by
  rw [storeBuffer_eq]
  apply copy_outside
  rintro c - rfl
  have := c.isLt
  bv_omega

/-- A sector that is stored over another one. -/
theorem storeBuffer_storeBuffer (b' : Block) :
    storeBuffer (storeBuffer m data b) data b' = storeBuffer m data b' := by
  funext a
  by_cases h : 512 ≤ (a - data).toNat
  · rw [storeBuffer_outside _ _ _ h, storeBuffer_outside _ _ _ h, storeBuffer_outside _ _ _ h]
  · obtain ⟨j, rfl⟩ : ∃ j : Fin 512, a = data + BitVec.ofNat 32 j := by
      refine ⟨⟨(a - data).toNat, by omega⟩, ?_⟩
      rw [BitVec.ofNat_toNat, BitVec.setWidth_eq, BitVec.add_comm, BitVec.sub_add_cancel]
    rw [storeBuffer_inside, storeBuffer_inside]

end Buffer

/-! ### The loop over the sectors -/

/-- **The loop** leaves the last sector, whatever it read before. -/
theorem loadData_eq {limit fuel : ℕ} {data : Word} {lba : BitVec 16} {d d' : Drive} {m m' : Mem}
    (hlimit : limit ≤ 2880) (h : loadData limit data fuel lba d m = some (d', m')) :
    m' = if lba.toNat < limit then storeBuffer m data (d.disk (limit - 1)) else m := by
  induction fuel generalizing lba d m with
  | zero => cases h
  | succ fuel ih =>
    unfold loadData at h
    by_cases hlt : lba.toNat < limit
    · have hnext : (lba + 1).toNat = lba.toNat + 1 := by bv_omega
      rw [if_pos hlt] at h
      have hrest := ih h
      rw [readLBA_disk, readLBA_buffer (by omega), hnext] at hrest
      rw [if_pos hlt, hrest]
      by_cases hmore : lba.toNat + 1 < limit
      · rw [if_pos hmore, storeBuffer_storeBuffer]
      · rw [if_neg hmore, show lba.toNat = limit - 1 by omega]
    · rw [if_neg hlt] at h
      cases h
      rw [if_neg hlt]

section File

variable {malloc : Word → Word} {fuel : ℕ} {s s' : State} {f : FSFileDescriptor}

/-- The size of a file in bytes. -/
def FSFileDescriptor.size (f : FSFileDescriptor) : Word := f.sectorCount.setWidth 32 * 512

theorem FSFileDescriptor.size_toNat (f : FSFileDescriptor) :
    f.size.toNat = 512 * f.sectorCount.toNat := by
  unfold FSFileDescriptor.size
  bv_omega

/-- The bytes of the first sector are the ones the loop writes. -/
theorem fileByte_inside (data : Word) (j : Fin 512) : fileByte data 0 j = data + BitVec.ofNat 32 j := by
  unfold fileByte
  rw [Nat.mul_zero, Nat.zero_add]

theorem fileByte_outside {data : Word} {k : ℕ} {j : Fin 512} (hk : 1 ≤ k) (hk' : k < 2880) :
    512 ≤ (fileByte data k j - data).toNat := by
  unfold fileByte
  rw [BitVec.add_comm, BitVec.add_sub_cancel, BitVec.toNat_ofNat, Nat.mod_eq_of_lt (by omega)]
  omega

/-- What `ReadFile` leaves after the entry is found. -/
theorem loadFile_eq (hlimit : f.startSector.toNat + f.sectorCount.toNat ≤ 2880)
    (h : loadFile malloc fuel s f = some s') :
    s'.file = ⟨f, malloc f.size, f.size⟩ ∧
      s'.mem = if 0 < f.sectorCount.toNat then storeBuffer s.mem (malloc f.size)
        (s.drive.disk (f.startSector.toNat + (f.sectorCount.toNat - 1))) else s.mem := by
  unfold loadFile at h
  obtain ⟨⟨drive, mem⟩, hload, hrest⟩ := Option.bind_eq_some_iff.1 h
  cases hrest
  refine ⟨rfl, ?_⟩
  dsimp only
  rw [loadData_eq hlimit hload]
  by_cases hcount : 0 < f.sectorCount.toNat
  · rw [if_pos (by omega), if_pos hcount, Nat.add_sub_assoc hcount]
    rfl
  · rw [if_neg (by omega), if_neg hcount]

/-- **The file is loaded** exactly when it is spared: of several sectors only the last one is left. -/
theorem loadFile_loaded_iff (hlimit : f.startSector.toNat + f.sectorCount.toNat ≤ 2880)
    (h : loadFile malloc fuel s f = some s') :
    Loaded s.drive.disk s' ↔ Spared s.drive.disk s.mem (malloc f.size) f := by
  obtain ⟨hfile, hmem⟩ := loadFile_eq hlimit h
  unfold Loaded Spared
  rw [hfile, hmem]
  dsimp only
  rw [and_iff_right f.size_toNat]
  by_cases hcount : 0 < f.sectorCount.toNat
  · rw [if_pos hcount]
    constructor
    · intro hbytes
      refine Or.inr ⟨?_, fun k hk hk' j => ?_⟩
      · funext j
        have hfirst := hbytes 0 hcount j
        rwa [fileByte_inside, storeBuffer_inside] at hfirst
      · have hbyte := hbytes k hk' j
        rwa [storeBuffer_outside _ _ _ (fileByte_outside hk (by omega))] at hbyte
    · intro hspared k hk j
      by_cases hzero : k = 0
      · subst hzero
        rw [fileByte_inside, storeBuffer_inside]
        rcases hspared with hone | ⟨hlast, -⟩
        · rw [show f.sectorCount.toNat - 1 = 0 by omega]
        · rw [hlast, Nat.add_zero]
      · rw [storeBuffer_outside _ _ _ (fileByte_outside (by omega) (by omega))]
        rcases hspared with hone | ⟨-, hrest⟩
        · omega
        · exact hrest k (by omega) hk j
  · rw [if_neg hcount]
    exact iff_of_true (fun k hk => absurd hk (by omega)) (Or.inl (by omega))

end File

/-! ### The whole of `ReadFile` -/

section ReadFile

theorem readDirectory_disk {name : Name} {fuel : ℕ} {d d' : Drive} {b b' : Block}
    (h : readDirectory name fuel d b = some (d', b')) : d'.disk = d.disk := by
  induction fuel generalizing d b with
  | zero => cases h
  | succ fuel ih =>
    unfold readDirectory at h
    split at h
    · dsimp only at h
      rw [copyMatched_zero] at h
      cases h
    · split_ifs at h
      · rw [ih h, readLBA_disk]
      · cases h
        rfl

theorem walkPath_disk {inDir : Byte} {fuel : ℕ} {w w' : Walker} (h : walkPath inDir fuel w = some w') :
    w'.drive.disk = w.drive.disk := by
  induction fuel generalizing w with
  | zero => cases h
  | succ fuel ih =>
    unfold walkPath at h
    split_ifs at h
    · cases h
      rfl
    obtain ⟨stop, -, hround⟩ := Option.bind_eq_some_iff.1 h
    cases stop with
    | none =>
      cases hround
      rfl
    | some stop =>
      obtain ⟨⟨d, dir⟩, hdir, hrest⟩ := Option.bind_eq_some_iff.1 hround
      exact (ih hrest).trans (readDirectory_disk hdir)

variable {malloc : Word → Word} {root : Block} {inDir : Byte} {fuel : ℕ} {s s' : State}

/-- A run of `ReadFile` that says `Match!` ends with the sectors of the entry found. -/
theorem readFile_matched (h : readFile malloc root inDir fuel s = some s')
    (hmatch : s'.console ≠ s.console) :
    ∃ s₁, s₁.drive.disk = s.drive.disk ∧ s₁.mem = s.mem ∧
      loadFile malloc fuel s₁ s'.file.descriptor = some s' := by
  obtain ⟨start, -, h⟩ := Option.bind_eq_some_iff.1 h
  obtain ⟨w, hwalk, h⟩ := Option.bind_eq_some_iff.1 h
  have hdisk := walkPath_disk hwalk
  unfold findFile at h
  split at h
  next f _ =>
    have hf : s'.file.descriptor = f := by
      obtain ⟨_, -, hrest⟩ := Option.bind_eq_some_iff.1 h
      cases hrest
      rfl
    exact ⟨{ s with drive := w.drive, path := w.path }, hdisk, rfl, hf ▸ h⟩
  next =>
    cases h
    exact absurd rfl hmatch

/-- **`ReadFile`** has loaded the entry it found exactly when the entry is spared. -/
theorem readFile_loaded_iff (malloc : Word → Word) (root : Block) (inDir : Byte) (fuel : ℕ)
    (s s' : State) (hret : readFile malloc root inDir fuel s = some s')
    (hmatch : s'.console ≠ s.console)
    (hdisk : s'.file.descriptor.startSector.toNat + s'.file.descriptor.sectorCount.toNat ≤ 2880) :
    Loaded s.drive.disk s' ↔
      Spared s.drive.disk s.mem (malloc s'.file.descriptor.size) s'.file.descriptor := by
  obtain ⟨s₁, hdrive, hmem, hload⟩ := readFile_matched hret hmatch
  rw [← hdrive, ← hmem]
  exact loadFile_loaded_iff hdisk hload

/-- `ReadFile` returns with the entry of the root directory that a single name is the name of. -/
theorem readFile_root {p : Pathname} {f : FSFileDescriptor} (hstored : p.Stored s.path)
    (hdirect : p.Direct inDir) (hf : named [root] p.first.val = some f)
    (hlt : f.startSector.toNat + f.sectorCount.toNat < 2 ^ 16) :
    ∃ fuel s', readFile malloc root inDir fuel s = some s' ∧ s'.file.descriptor = f ∧
      s'.console = s.console ++ [("Match!\n", 0x0B)] := by
  have hwalk : Returns (fun fuel => walkPath inDir fuel ⟨s.drive, root, s.path, p.start, 0⟩) _ :=
    walkPath_direct hstored hdirect
  rw [← hstored.names.name] at hf
  obtain ⟨s', hret, hdesc, hconsole⟩ := (findFile_some hf).1 hlt
  obtain ⟨fuel, hfuel⟩ := ((readFile_walked hstored hwalk).2 hret).exists
  exact ⟨fuel, s', hfuel, hdesc, hconsole⟩

end ReadFile

/-! ### A file of two sectors -/

/-- A state before `ReadFile`, with zeros in memory and in `F`. -/
def startState (disk : ℕ → Block) (p : Pathname) : State :=
  ⟨⟨disk, disk 0, []⟩, fun _ => 0, p.text, ⟨⟨fun _ => 0, 0, 0, 0⟩, 0, 0⟩, []⟩

/-- The file of one sector is loaded. -/
theorem readFile_loaded_fileA :
    ∃ fuel s', readFile (fun _ => 0x10000) fileBlock 0 fuel (startState fileDisk ⟨false, fileA, []⟩) =
      some s' ∧ Loaded fileDisk s' := by
  obtain ⟨fuel, s', hret, hf, hconsole⟩ := @readFile_root (fun _ => 0x10000) fileBlock 0
    (startState fileDisk ⟨false, fileA, []⟩) ⟨false, fileA, []⟩ (fileBlock.file 0)
    (Pathname.stored_text _) (.inr ⟨rfl, rfl⟩) named_fileBlock (by decide)
  refine ⟨fuel, s', hret, ?_⟩
  apply (readFile_loaded_iff _ _ _ _ _ _ hret (by rw [hconsole]; simp) (by rw [hf]; decide)).2
  rw [hf]
  exact .inl (by decide)

/-- A block with the file `FILEA`, which has the sectors 6 and 7. -/
def pairBlock : Block := blockOf [0x46, 0x49, 0x4C, 0x45, 0x41, 0x01, 6, 0, 2, 0]

/-- A disk whose sectors are filled with their numbers. -/
def numberedDisk (lba : ℕ) : Block := fun _ => BitVec.ofNat 8 lba

/-- **The second sector is stored over the first.** -/
theorem readFile_pair_not_loaded :
    ∃ fuel s', readFile (fun _ => 0x10000) pairBlock 0 fuel (startState numberedDisk ⟨false, fileA, []⟩) =
        some s' ∧ s'.console ≠ [] ∧ s'.file.descriptor = pairBlock.file 0 ∧ ¬ Loaded numberedDisk s' := by
  obtain ⟨fuel, s', hret, hf, hconsole⟩ := @readFile_root (fun _ => 0x10000) pairBlock 0
    (startState numberedDisk ⟨false, fileA, []⟩) ⟨false, fileA, []⟩ (pairBlock.file 0)
    (Pathname.stored_text _) (.inr ⟨rfl, rfl⟩) rfl (by decide)
  have hmatch : s'.console ≠ (startState numberedDisk ⟨false, fileA, []⟩).console := by
    rw [hconsole]
    simp
  refine ⟨fuel, s', hret, hmatch, hf, fun hloaded => ?_⟩
  obtain ⟨s₁, hdrive, -, hload⟩ := readFile_matched hret hmatch
  have hdisk : s₁.drive.disk = numberedDisk := hdrive
  rw [← hdisk, loadFile_loaded_iff (by rw [hf]; decide) hload, hf, hdisk] at hloaded
  rcases hloaded with hone | ⟨hsame, -⟩
  · exact absurd hone (by decide)
  · exact absurd (congrFun hsame 0) (by decide)

end RedFox32.Old.FileSystem
