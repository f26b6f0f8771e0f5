import RedFox32.BootloaderStage2.CreateMemoryMap
import RedFox32.BootloaderStage2.LoadKernel
import RedFox32.Kernel.Memory.Display

/-!
# From the disk image to the kernel

`DiskBuilder.sh` writes the files of a build into the image, `Bootloader.asm` loads the second stage from
it, and `Stage2A.asm` makes the memory map and loads the kernel.  What the BIOS answers is an input: its
resets and reads may fail any number of times.
-/

namespace RedFox32.BootloaderStage1

open RedFox32.Machine
open RedFox32.BootloaderStage2
open RedFox32.Kernel.Memory

/-! ### `DiskBuilder.sh` -/

/-- `dd` with `bs=512`, `conv=notrunc` and `seek`: the bytes of a file over those of the image. -/
def dd (file : List Byte) (seek : ℕ) (image : ℕ → Byte) : ℕ → Byte := fun i =>
  if sectorBytes * seek ≤ i then file.getD (i - sectorBytes * seek) (image i) else image i

/-- The files of a build, where they exist. -/
structure Build where
  stage1 : Option (List Byte)
  stage2 : Option (List Byte)
  kernel : Option (List Byte)

/-- `[[ -f file ]] && dd ..` -/
def ddFile (file : Option (List Byte)) (seek : ℕ) (image : ℕ → Byte) : ℕ → Byte :=
  match file with
  | none => image
  | some file => dd file seek image

/-- `DiskBuilder.sh`, on an image of zeros or on a device. -/
def diskBuilder (b : Build) (image : ℕ → Byte) : ℕ → Byte :=
  ddFile b.kernel 18 (ddFile b.stage2 1 (ddFile b.stage1 0 image))

/-! ### `Bootloader.asm` -/

/-- `Stage2Location` -/
def stage2Location : BitVec 16 := 0x0500

/-- What `int 0x13` with `ah = 2` answers: the carry flag, the number of sectors in `al`, and what is left
in the part of the buffer that holds no whole sector. -/
structure ReadAnswer where
  carry : Bool
  al : Byte
  junk : Word → Byte

/-- The number of bytes that an answer read. -/
def ReadAnswer.bytes (a : ReadAnswer) : ℕ := if a.carry then 0 else sectorBytes * a.al.toNat

/-- The memory after 16 sectors from the second one of the disk are asked for. -/
def ReadAnswer.read (a : ReadAnswer) (disk : ℕ → Byte) (m : Mem) : Mem := fun x =>
  let i := (x - near stage2Location).toNat
  if i < sectorBytes * 16 then
    if i < a.bytes then disk (sectorBytes * sectorAt 0 2 0 + i) else a.junk x
  else m x

/-- The memory and the screen. -/
structure Stage1 where
  mem : Mem
  screen : List Byte

/-- The loop `Reset`, for the carry flags still to come. -/
def reset : List Bool → Stage1 → Option Stage1
  | [], _ => none
  | carry :: carries, s => if carry then reset carries s else some { s with screen := s.screen ++ [0x42] }

/-- The loop `LoadStage2`, for the answers still to come. -/
def loadStage2 (disk : ℕ → Byte) : List ReadAnswer → Stage1 → Option Stage1
  | [], _ => none
  | a :: answers, s =>
    let s := { s with mem := a.read disk s.mem }
    if a.carry then loadStage2 disk answers { s with screen := s.screen ++ [0x45] }
    else if a.al ≠ 16 then loadStage2 disk answers s
    else some { s with screen := s.screen ++ [0x4C] }

/-- `Boot`, up to the jump to the second stage. -/
def boot (disk : ℕ → Byte) (carries : List Bool) (answers : List ReadAnswer) (s : Stage1) :
    Option Stage1 :=
  (reset carries s).bind (loadStage2 disk answers)

/-! ### `Stage2` -/

/-- `KERNEL_CYLINDER_COUNT` -/
def kernelCylinderCount : BitVec 16 := 1

/-- `Stage2` up to protected mode.  The carry flag of `CreateMemoryMap` is not looked at. -/
def stage2 (d : Drive) (answers : List Answer) (fuel : ℕ) (m : Mem) : Option (Except Loader Loader) :=
  (stage2Map answers m).bind fun r => loadKernel d kernelCylinderCount fuel ⟨r.2, kernelBase, 0, []⟩

/-! ### The image -/

section Image

variable {file : List Byte} {seek i : ℕ} {image : ℕ → Byte} {v : Byte}

/-- A byte of the file. -/
theorem dd_file (h : file[i]? = some v) : dd file seek image (sectorBytes * seek + i) = v := by
  unfold dd
  rw [if_pos (Nat.le_add_right _ _), Nat.add_sub_cancel_left, List.getD_eq_getElem?_getD, h]
  rfl

/-- A byte before the file. -/
theorem dd_before (h : i < sectorBytes * seek) : dd file seek image i = image i := by
  unfold dd
  rw [if_neg (by omega)]

theorem ddFile_before {file : Option (List Byte)} (h : i < sectorBytes * seek) :
    ddFile file seek image i = image i := by
  cases file with
  | none => rfl
  | some file => exact dd_before h

/-- **The kernel on the disk**, from the sector 18. -/
theorem diskBuilder_kernel {b : Build} (hb : b.kernel = some file) (h : file[i]? = some v) :
    diskBuilder b image (sectorBytes * kernelSector + i) = v := by
  unfold diskBuilder
  rw [hb]
  exact dd_file h

/-- **The second stage on the disk**, up to where the kernel begins. -/
theorem diskBuilder_stage2 {b : Build} (hb : b.stage2 = some file) (h : file[i]? = some v)
    (hi : i < sectorBytes * 17) : diskBuilder b image (sectorBytes * 1 + i) = v := by
  unfold diskBuilder
  rw [ddFile_before (by unfold sectorBytes at hi ⊢; omega), hb]
  exact dd_file h

end Image

/-! ### The loops -/

/-- The answer ends the loop `LoadStage2`. -/
def ReadAnswer.Good (a : ReadAnswer) : Prop := a.carry = false ∧ a.al = 16

section Loops

variable {disk : ℕ → Byte} {answers : List ReadAnswer} {s : Stage1}

/-- The loop `Reset` ends with the first reset that succeeds. -/
theorem reset_spec {carries : List Bool} (h : false ∈ carries) :
    reset carries s = some { s with screen := s.screen ++ [0x42] } := by
  induction carries with
  | nil => simp at h
  | cons carry carries ih =>
    unfold reset
    cases carry with
    | false => rfl
    | true => exact ih (by simpa using h)

/-- **The loop `LoadStage2`**: whatever failed before, a good answer leaves the 16 sectors. -/
theorem loadStage2_spec (h : ∃ a ∈ answers, a.Good) :
    ∃ s', loadStage2 disk answers s = some s' ∧
      ∀ i < sectorBytes * 16, s'.mem (near stage2Location + BitVec.ofNat 32 i) = disk (sectorBytes * 1 + i) := by
  induction answers generalizing s with
  | nil => simp at h
  | cons a answers ih =>
    unfold loadStage2
    dsimp only
    by_cases hgood : a.Good
    · obtain ⟨hcarry, hal⟩ := hgood
      rw [if_neg (by simp [hcarry]), if_neg (not_not.2 hal)]
      refine ⟨_, rfl, fun i hi => ?_⟩
      have hoff : (near stage2Location + BitVec.ofNat 32 i - near stage2Location).toNat = i := by
        unfold sectorBytes at hi
        bv_omega
      have hbytes : a.bytes = sectorBytes * 16 := by
        unfold ReadAnswer.bytes
        rw [hcarry, hal]
        rfl
      unfold ReadAnswer.read
      dsimp only
      rw [hoff, hbytes, if_pos hi, if_pos hi]
      rfl
    · have hrest : ∃ a ∈ answers, a.Good := by simpa [hgood] using h
      by_cases hcarry : a.carry = true
      · rw [if_pos hcarry]
        exact ih hrest
      · have hal : a.al ≠ 16 := fun hal => hgood ⟨by simpa using hcarry, hal⟩
        rw [if_neg hcarry, if_pos hal]
        exact ih hrest

/-- The loop does not end without a good answer. -/
theorem loadStage2_none (h : ¬ ∃ a ∈ answers, a.Good) : loadStage2 disk answers s = none := by
  induction answers generalizing s with
  | nil => rfl
  | cons a answers ih =>
    have hrest : ¬ ∃ a ∈ answers, a.Good := fun ⟨b, hb, hgood⟩ => h ⟨b, List.mem_cons_of_mem _ hb, hgood⟩
    have hgood : ¬ a.Good := fun hgood => h ⟨a, List.mem_cons_self, hgood⟩
    unfold loadStage2
    dsimp only
    by_cases hcarry : a.carry = true
    · rw [if_pos hcarry]
      exact ih hrest
    · have hal : a.al ≠ 16 := fun hal => hgood ⟨by simpa using hcarry, hal⟩
      rw [if_neg hcarry, if_pos hal]
      exact ih hrest

end Loops

/-! ### The kernel and the map -/

section Kernel

variable {d : Drive} {m : Mem}

/-- One cylinder is one read, of the sectors from 18 on. -/
theorem loadKernel_one (hd : d.fails 0 = false) :
    ∃ l, (∀ fuel, loadKernel d kernelCylinderCount (fuel + 1) ⟨m, kernelBase, 0, []⟩ = some (.ok l)) ∧
      l.mem = tracksLoaded d 1 m := by
  have hread : loadCylinder d 1 kernelBase ⟨m, kernelBase, 0, [0x4C]⟩ =
      .ok ⟨int13Read d 18 0 1 1 kernelBase m, kernelBase, 1, [0x4C]⟩ := by
    unfold loadCylinder
    rw [if_neg (by simp [hd])]
    rfl
  refine ⟨⟨int13Read d 18 0 1 1 kernelBase m, kernelBase + BitVec.ofNat 16 trackBytes, 1, [0x4C]⟩,
    fun fuel => ?_, ?_⟩
  · unfold loadKernel loadLoop
    dsimp only [List.nil_append]
    rw [hread]
    rfl
  · funext a
    unfold int13Read tracksLoaded
    dsimp only
    have hsector : sectorAt 0 1 1 = trackSector 1 := rfl
    have hbytes : sectorBytes * (18 : Byte).toNat = trackBytes := rfl
    rw [hsector, hbytes, Nat.one_mul]
    split_ifs with hi
    · rw [Nat.div_eq_of_lt hi, Nat.mod_eq_of_lt hi]
    · rfl

/-- The kernel leaves the memory map alone. -/
theorem tracksLoaded_map (hn : 0x8004 + 24 * (numEntries m 0x8000).toNat ≤ 0x10000) :
    numEntries (tracksLoaded d 1 m) 0x8000 = numEntries m 0x8000 ∧
      storedRecords (tracksLoaded d 1 m) 0x8000 = storedRecords m 0x8000 := by
  have hsame : ∀ a : Word, 0x8000 ≤ a.toNat → a.toNat < 0x10004 → tracksLoaded d 1 m a = m a := by
    intro a hlow hhigh
    refine tracksLoaded_others ?_
    have hbase : (near kernelBase).toNat = 0x2900 := rfl
    unfold trackBytes
    bv_omega
  have hnum : numEntries (tracksLoaded d 1 m) 0x8000 = numEntries m 0x8000 := by
    unfold numEntries
    exact Mem.load32_congr fun j hj => hsame _ (by bv_omega) (by bv_omega)
  refine ⟨hnum, ?_⟩
  unfold storedRecords
  rw [hnum]
  refine List.map_congr_left fun i hi => read_congr fun j hj => Mem.load32_congr fun b hb => ?_
  have haddr := storedAddr_toNat (i := i) (by have := List.mem_range.1 hi; omega) hj
  have hi' := List.mem_range.1 hi
  exact hsame _ (by bv_omega) (by bv_omega)

end Kernel

/-! ### The whole boot -/

/-- **What the kernel finds**: the second stage was in its place when it began; the kernel is in its place,
as far as it has 18 sectors; the memory map at `0x8000` is the list of the records that the BIOS answered
and that are kept, and on every screen in good order the text of `MMAP_Display` reads back as these
records. -/
structure Booted (stage2 kernel : List Byte) (answers : List Answer) (m m' : Mem) : Prop where
  stage2 : ∀ i v, stage2[i]? = some v → i < sectorBytes * 16 →
    m (near stage2Location + BitVec.ofNat 32 i) = v
  kernel : ∀ i v, kernel[i]? = some v → i < sectorBytes * 18 →
    m' (near kernelBase + BitVec.ofNat 32 i) = v
  count : numEntries m' 0x8000 = BitVec.ofNat 32 (kept answers).length
  records : storedRecords m' 0x8000 = kept answers
  display : ∀ s : Kernel.TextMode.Screen, s.mem = m' → Kernel.TextMode.WithinScreen s →
    readDisplay (emitted (Display.mmapDisplay 0x8000 ⟨s, []⟩).calls) =
      some (BitVec.ofNat 32 (kept answers).length, (kept answers).map MemoryMapEntry.words)

/-- The text for a map that ends below 64 KiB. -/
theorem readDisplay_kept {s : Kernel.TextMode.Screen} {recs : List MemoryMapEntry}
    (hnum : numEntries s.mem 0x8000 = BitVec.ofNat 32 recs.length) (hrecs : storedRecords s.mem 0x8000 = recs)
    (hroom : 0x8004 + 24 * recs.length ≤ 0x10000) (hs : Kernel.TextMode.WithinScreen s) :
    readDisplay (emitted (Display.mmapDisplay 0x8000 ⟨s, []⟩).calls) =
      some (BitVec.ofNat 32 recs.length, recs.map MemoryMapEntry.words) := by
  have hlen : (numEntries s.mem 0x8000).toNat = recs.length := by
    rw [hnum, BitVec.toNat_ofNat]
    omega
  rw [readDisplay_records hs (by omega) (clear_of_le (by omega)), hrecs, hnum]

section Boot

variable {b : Build} {second kern : List Byte} {image : ℕ → Byte} {d : Drive} {carries : List Bool}
  {reads : List ReadAnswer} {a : Answer} {answers : List Answer} {s : Stage1}

/-- **The boot**: whatever resets and reads fail before one succeeds, the kernel finds what it needs. -/
theorem boot_loads (hsecond : b.stage2 = some second) (hkern : b.kernel = some kern)
    (hd : d.byte = diskBuilder b image) (hfails : d.fails 0 = false) (hreset : false ∈ carries)
    (hreads : ∃ r ∈ reads, r.Good) (hcarry : a.carry = false) (heax : a.eax = smap) (hebx : a.ebx ≠ 0)
    (hends : ∃ r ∈ answers, r.Ends) (hroom : 0x8004 + 24 * (kept (a :: answers)).length ≤ 0x10000) :
    ∃ s₁ l, boot d.byte carries reads s = some s₁ ∧
      (∀ fuel, stage2 d (a :: answers) (fuel + 1) s₁.mem = some (.ok l)) ∧
      Booted second kern (a :: answers) s₁.mem l.mem := by
  obtain ⟨s₁, hboot, hmem⟩ := @loadStage2_spec d.byte reads { s with screen := s.screen ++ [0x42] } hreads
  rw [kept_cons hcarry, if_neg hebx, List.length_append] at hroom
  have hstep := (collected_start s₁.mem).step hcarry (by rw [List.length_nil]; omega)
  rw [List.nil_append] at hstep
  obtain ⟨t, hloop, hcollected⟩ := e820lp_spec hstep hends (by omega)
  obtain ⟨hnum, hrecs⟩ := hcollected.e820f
  have hkept : (if a.Accepted (a.cx.toNat % 256) then [a.record] else []) ++ kept answers =
      kept (a :: answers) := by
    rw [kept_cons hcarry, if_neg hebx]
  rw [hkept] at hnum hrecs
  have hlen : 0x8004 + 24 * (kept (a :: answers)).length ≤ 0x10000 := by
    rw [← hkept, List.length_append]
    exact hroom
  have hmap : stage2Map (a :: answers) s₁.mem = some (false, t.e820f) := by
    unfold stage2Map createMemoryMap
    dsimp only
    rw [if_neg (by simp [hcarry]), if_neg (by simp [heax]), if_neg hebx]
    exact congrArg (Option.map fun m => (false, m)) hloop
  obtain ⟨l₀, hload, hl₀⟩ := @loadKernel_one d t.e820f hfails
  have hentries : (numEntries t.e820f 0x8000).toNat = (kept (a :: answers)).length := by
    rw [hnum, BitVec.toNat_ofNat]
    omega
  obtain ⟨hnum', hrecs'⟩ := @tracksLoaded_map d t.e820f (by rw [hentries]; exact hlen)
  rw [hnum] at hnum'
  rw [hrecs] at hrecs'
  rw [← hl₀] at hnum' hrecs'
  refine ⟨s₁, l₀, ?_, fun fuel => ?_, ?_, ?_, hnum', hrecs', ?_⟩
  · unfold boot
    rw [reset_spec hreset]
    exact hboot
  · unfold stage2
    rw [hmap, Option.bind_some]
    exact hload fuel
  · intro i v hv hi
    rw [hmem i hi, hd]
    exact diskBuilder_stage2 hsecond hv (by unfold sectorBytes at hi ⊢; omega)
  · intro i v hv hi
    have hi' : i < 1 * trackBytes := by
      rw [Nat.one_mul]
      exact hi
    have hlt : i < trackBytes := hi
    rw [hl₀, tracksLoaded_apply 1 (lt_trans hlt (by decide)), if_pos hi', Nat.div_eq_of_lt hlt,
      Nat.mod_eq_of_lt hlt, hd]
    exact diskBuilder_kernel hkern hv
  · rintro screen hscreen hs
    rw [← hscreen] at hnum' hrecs'
    exact readDisplay_kept hnum' hrecs' hlen hs

end Boot

/-- A build of one byte each. -/
def smallBuild : Build := ⟨some [0xEB], some [0xFA], some [0x90]⟩

/-- The floppy of that build. -/
def smallFloppy : Drive := ⟨diskBuilder smallBuild fun _ => 0, fun _ => false⟩

/-- The reset and the first two reads fail once, and one read is short. -/
theorem boot_loads_small :
    ∃ s₁ l, boot smallFloppy.byte [true, false] [⟨true, 0, fun _ => 1⟩, ⟨false, 3, fun _ => 2⟩,
        ⟨false, 16, fun _ => 3⟩] ⟨fun _ => 0, []⟩ = some s₁ ∧
      (∀ fuel, stage2 smallFloppy [shortAnswer, endAnswer] (fuel + 1) s₁.mem = some (.ok l)) ∧
      Booted [0xFA] [0x90] [shortAnswer, endAnswer] s₁.mem l.mem :=
  boot_loads (b := smallBuild) rfl rfl rfl rfl (by simp) ⟨⟨false, 16, fun _ => 3⟩, by simp, rfl, rfl⟩ rfl rfl
    (by decide) ⟨endAnswer, by simp, .inl rfl⟩ (by decide)

end RedFox32.BootloaderStage1
