import RedFox32.Old.BootloaderStage2.Transfer

/-!
The loop of `Stage2_CEntry` that loads the kernel.  Each round prints a letter, reads a sector into the buffer
of the driver, which prints as well, and copies it behind the sectors before it.
-/

namespace RedFox32.Old.FDC

open RedFox32.Machine RedFox32.Machine.Mem

/-! ### The loop -/

/-- `KERNEL_MEMORY_POSITION` -/
def kernelMemoryPosition : Word := 0x10000

/-- `KERNEL_START_SECTOR` -/
def kernelStartSector : ℕ := 18

/-- `KERNEL_END_SECTOR` -/
def kernelEndSector : ℕ := 30

namespace State

/-- A text is printed by other code. -/
def puts (text : String) (colour : Byte) (b : State) : State :=
  ⟨b.driver.puts text colour, b.board.puts text colour⟩

/-- The inner loop: the buffer is copied to the place of the kernel. -/
def copySector (offset : ℕ) (b : State) : State :=
  { b with
    board := { b.board with
      system := { b.board.system with
        mem := b.board.system.mem.copyBytes (kernelMemoryPosition + BitVec.ofNat 32 offset) readWriteBuffer
          512 } } }

end State

section Loop

variable (c : Controller) (moves : ℕ → ℕ) (orders : ℕ → List Bool)

/-- The rounds of the loop for the sectors, with `offset`; what comes when in the call for a sector is in
`orders`. -/
def loadSectors (fuel : ℕ) : List ℕ → ℕ → State → Option State
  | [], _, b => some b
  | sector :: sectors, offset, b =>
    let b := b.puts "R" 0x0B
    (readLBA c (BitVec.ofNat 16 sector) b.driver fuel).bind fun driver =>
      loadSectors fuel sectors (offset + 512) ((b.after moves (orders sector) driver).copySector offset)

/-- The loop of `Stage2_CEntry`. -/
def loadKernel (b : State) (fuel : ℕ) : Option State :=
  loadSectors c moves orders fuel (List.range' kernelStartSector (kernelEndSector - kernelStartSector)) 0 b

end Loop

/-! ### The answers that a call takes -/

section Taken

variable {c : Controller} {s driver : Driver} {lba : BitVec 16}

theorem taken_dmaMode (mode : Byte) : (s.dmaMode mode).taken = s.taken := by
  simp [Driver.dmaMode, Driver.outb]

theorem taken_readFIFO_iterate (k : ℕ) : ((fun s => (s.readFIFO c).2)^[k] s).taken = s.taken + k := by
  induction k with
  | zero => rfl
  | succ k ih =>
    rw [Function.iterate_succ_apply', taken_readFIFO, ih]
    rfl

theorem taken_readWriteSector (readWrite cylinder head sector : Byte) :
    (s.readWriteSector c readWrite cylinder head sector).taken = s.taken + 9 := by
  have hmode : (if readWrite ≠ 0 then s.dmaRead else s.dmaWrite).taken = s.taken := by
    split_ifs <;> exact taken_dmaMode _
  unfold Driver.readWriteSector
  generalize (if readWrite ≠ 0 then s.dmaRead else s.dmaWrite) = s₁ at hmode ⊢
  have hdata : (s₁.writeData c readWrite cylinder head sector).taken = s₁.taken := by
    unfold Driver.writeData
    simp only [taken_writeFIFO]
  have hwait := (waitIRQ_talks (c := c) (s := s₁.writeData c readWrite cylinder head sector)).taken
  have hread := taken_readFIFO_iterate (c := c)
    (s := (s₁.writeData c readWrite cylinder head sector).waitIRQ c) 7
  have hsense := (senseInterrupt_talks (c := c) (s := (fun s => (s.readFIFO c).2)^[7]
    ((s₁.writeData c readWrite cylinder head sector).waitIRQ c))).taken
  show (((fun s => (s.readFIFO c).2)^[7]
    ((s₁.writeData c readWrite cylinder head sector).waitIRQ c)).senseInterrupt c).2.2.taken = _
  omega

/-- **A transfer that finds its cylinder at once** takes eleven bytes of answers. -/
theorem taken_transferLBA {readWrite : Byte} (hlba : lba.toNat < 2880)
    (hfirst : c.reported s 0 = (lba2CHS (lba.setWidth 32)).1)
    (hret : Returns (transferLBA c readWrite lba s) driver) : driver.taken = s.taken + 11 := by
  have hcall : transferLBA c readWrite lba s = readWriteGeneric c readWrite
      (lba2CHS (lba.setWidth 32)).1 (lba2CHS (lba.setWidth 32)).2.1 (lba2CHS (lba.setWidth 32)).2.2 s := by
    funext fuel
    exact if_neg (by omega)
  rw [hcall] at hret
  generalize (lba2CHS (lba.setWidth 32)).1 = cylinder at hret hfirst
  generalize (lba2CHS (lba.setWidth 32)).2.1 = head at hret
  generalize (lba2CHS (lba.setWidth 32)).2.2 = sector at hret
  have hcommand : ∀ s, Talks s (writeSeek c cylinder head s) [seekCommand] 0 :=
    fun s => writeSeek_talks cylinder head
  have hseek : Returns (seek c cylinder head s.motorOn)
      ((Retry.attempt c (writeSeek c cylinder head))^[1] ⟨s.motorOn, 0, 0⟩) := by
    refine doWhile_returns (fun k hk => absurd hk (by omega)) ?_
    have hon : c.reported s.motorOn 0 = cylinder := hfirst
    rw [attempts_cyl hcommand s.motorOn (by omega), hon]
    simp
  obtain ⟨a, ha, rfl⟩ := (returns_map_iff hseek).1 hret
  obtain rfl := Option.some.inj (ha.unique hseek)
  have htaken := (attempts_early (c := c) hcommand s.motorOn (n := 1) (by omega)).2
  rw [taken_readWriteSector, htaken]
  rfl

end Taken

/-! ### The kernel in the memory -/

section Load

variable {c : Controller} {moves : ℕ → ℕ} {orders : ℕ → List Bool} {b : State}

/-- Between two rounds: the driver is idle, the channel is at the begin of the buffer, and the drive finds the
cylinder of each of the next `n` sectors at once, and moves them whole. -/
structure Prepared (c : Controller) (moves : ℕ → ℕ) (b : State) (first n : ℕ) : Prop where
  idle : Idle b
  offset : b.store.offset = 0
  reported : ∀ j < n, c.fifo (b.driver.taken + 11 * j + 1) =
    (lba2CHS ((BitVec.ofNat 16 (first + j)).setWidth 32)).1
  moved : ∀ j < n, 512 ≤ moves (b.board.system.transfers + j)

/-- A sector stands in the memory from `a`. -/
theorem loadBytes_inside (disk : ℕ → Byte) (lba : ℕ) (m : Mem) (a : Word) {i : ℕ} (hi : i < 512) :
    FloppySystem.loadBytes disk lba 512 m a (a + BitVec.ofNat 32 i) = disk (512 * lba + i) := by
  have hdist : (a + BitVec.ofNat 32 i - a).toNat = i := by
    rw [BitVec.add_comm, BitVec.add_sub_cancel, BitVec.toNat_ofNat]
    omega
  unfold FloppySystem.loadBytes
  rw [hdist, if_pos hi]

theorem loadBytes_outside (disk : ℕ → Byte) (lba : ℕ) (m : Mem) {a b : Word}
    (hb : 512 ≤ (b - a).toNat) : FloppySystem.loadBytes disk lba 512 m a b = m b :=
  if_neg (by omega)

/-- Printing leaves the driver idle, and the memory beside the screen. -/
theorem Idle.puts (h : Idle b) (text : String) (colour : Byte) :
    Idle (b.puts text colour) ∧ b.store.Beside (b.puts text colour).store := by
  obtain ⟨hdrive, hfifo, hconfused, hprogrammed, hordered⟩ := h
  obtain ⟨hordered', hagree⟩ := puts_agree text colour hordered
  exact ⟨⟨hdrive, hfifo, hconfused, hprogrammed.of_dma rfl, hordered'⟩, beside_of_agree hagree⟩

/-- The buffer and the place of the kernel are not on the screen. -/
theorem offScreen_low {a : Word} (ha : a.toNat < 0xB8000) : OffScreen a := by
  unfold OffScreen Video.videoMemory
  bv_omega

/-- **The call of a round** reads its sector into the buffer. -/
theorem round_returns {sector n : ℕ} (h : Prepared c moves b sector (n + 1)) (hsector : sector < 2880)
    (order : List Bool) :
    ∃ driver, Returns (readLBA c (BitVec.ofNat 16 sector) (b.puts "R" 0x0B).driver) driver ∧
      Prepared c moves ((b.puts "R" 0x0B).after moves order driver) (sector + 1) n ∧
      ((b.puts "R" 0x0B).after moves order driver).board.system.disk = b.board.system.disk ∧
      ∀ a, OffScreen a → ((b.puts "R" 0x0B).after moves order driver).board.system.mem a =
        FloppySystem.loadBytes b.board.system.disk sector 512 b.board.system.mem readWriteBuffer a := by
  obtain ⟨hidle, hoffset, hreported, hmoved⟩ := h
  have hlba : (BitVec.ofNat 16 sector).toNat = sector := by
    rw [BitVec.toNat_ofNat]
    omega
  have hprinted : Idle (b.puts "R" 0x0B) ∧ _ := hidle.puts "R" 0x0B
  obtain ⟨hidle', hbeside⟩ := hprinted
  have htaken₀ : (b.puts "R" 0x0B).driver.taken = b.driver.taken := rfl
  have htransfers₀ : (b.puts "R" 0x0B).board.system.transfers = b.board.system.transfers := rfl
  generalize b.puts "R" 0x0B = p at *
  have hfirst : c.reported p.driver 0 = (lba2CHS ((BitVec.ofNat 16 sector).setWidth 32)).1 := by
    have hnow := hreported 0 (by omega)
    rw [← htaken₀] at hnow
    exact hnow
  have hprompt : Prompt c p.driver (lba2CHS ((BitVec.ofNat 16 sector).setWidth 32)).1 :=
    ⟨0, by omega, hfirst⟩
  have hzero : p.store.offset = 0 := hbeside.offset.trans hoffset
  have hbytes : bytesMoved c moves p (BitVec.ofNat 16 sector) = 512 := by
    have hall := hmoved 0 (by omega)
    rw [Nat.add_zero, ← htransfers₀] at hall
    unfold bytesMoved
    rw [if_pos ⟨by omega, hprompt⟩, hzero]
    omega
  obtain ⟨driver, hret⟩ := @transferLBA_returns _ _ 1 _ hprompt
  obtain ⟨hidle'', htransfers, hstore⟩ := @Idle.transfer _ moves _ _ _ _ hidle' (.inr rfl) hret order
  have htaken := taken_transferLBA (by omega) hfirst hret
  rw [hbytes, hlba] at hstore
  refine ⟨driver, hret, ⟨hidle'', ?_, fun j hj => ?_, fun j hj => ?_⟩, ?_, fun a ha => ?_⟩
  · rw [hstore.offset]
    show (p.store.offset + 512) % 512 = 0
    rw [hzero]
  · have hnext := hreported (j + 1) (by omega)
    show c.fifo (driver.taken + 11 * j + 1) = _
    rw [htaken, htaken₀, show sector + 1 + j = sector + (j + 1) by omega, ← hnext]
    congr 1
    omega
  · have hnext := hmoved (j + 1) (by omega)
    rw [htransfers (by omega), htransfers₀, Nat.add_assoc, Nat.add_comm 1 j]
    exact hnext
  · exact hstore.disk.trans hbeside.disk
  · refine (hstore.mem a ha).trans ?_
    show FloppySystem.loadBytes p.board.system.disk sector 512 p.board.system.mem
      (readWriteBuffer + BitVec.ofNat 32 p.store.offset) a = _
    have hdisk : p.board.system.disk = b.board.system.disk := hbeside.disk
    have hmem : p.board.system.mem a = b.board.system.mem a := hbeside.mem a ha
    rw [hzero, BitVec.add_zero, hdisk]
    unfold FloppySystem.loadBytes
    rw [hmem]

/-- The copy of a round leaves the driver as it is. -/
theorem Prepared.copySector {first n : ℕ} (h : Prepared c moves b first n) (offset : ℕ) :
    Prepared c moves (b.copySector offset) first n := by
  obtain ⟨⟨hdrive, hfifo, hconfused, hprogrammed, hordered⟩, hoffset, hreported, hmoved⟩ := h
  exact ⟨⟨hdrive, hfifo, hconfused, hprogrammed.of_dma rfl, hordered⟩, hoffset, hreported, hmoved⟩

/-- The place of a sector is apart from the buffer. -/
theorem kernel_apart {offset : ℕ} (h : offset + 512 ≤ 2 ^ 31) :
    Apart (kernelMemoryPosition + BitVec.ofNat 32 offset) 512 readWriteBuffer 512 := by
  unfold Apart kernelMemoryPosition readWriteBuffer
  constructor <;> bv_omega

/-- **The memory after a round**, beside the screen. -/
theorem round_mem {disk : ℕ → Byte} {sector offset : ℕ} {m : Mem} (h : offset + 512 ≤ 2 ^ 31)
    (hmem : ∀ a, OffScreen a → b.board.system.mem a =
      FloppySystem.loadBytes disk sector 512 m readWriteBuffer a) {a : Word} (ha : OffScreen a) :
    (b.copySector offset).board.system.mem a =
      FloppySystem.loadBytes disk sector 512 (FloppySystem.loadBytes disk sector 512 m readWriteBuffer)
        (kernelMemoryPosition + BitVec.ofNat 32 offset) a := by
  unfold State.copySector
  dsimp only
  rw [copyBytes_eq (kernel_apart h) (n := 512) (by omega) (by omega)]
  dsimp only
  generalize kernelMemoryPosition + BitVec.ofNat 32 offset = place
  by_cases hin : (a - place).toNat < 512
  · have hbuffer : OffScreen (readWriteBuffer + (a - place)) := by
      refine offScreen_low ?_
      unfold readWriteBuffer
      bv_omega
    have hsector := loadBytes_inside disk sector m readWriteBuffer hin
    rw [BitVec.ofNat_toNat, BitVec.setWidth_eq] at hsector
    rw [if_pos hin, hmem _ hbuffer, hsector]
    exact (if_pos hin).symm
  · rw [if_neg hin, hmem a ha]
    exact (if_neg hin).symm

/-- The bytes of a sector are apart from the buffer and from the sectors behind it. -/
theorem kernel_far {offset i n : ℕ} (hi : i < 512) (h : offset + 512 + n * 512 ≤ 2 ^ 31) :
    512 ≤ (kernelMemoryPosition + BitVec.ofNat 32 (offset + i) - readWriteBuffer).toNat ∧
      n * 512 ≤ (kernelMemoryPosition + BitVec.ofNat 32 (offset + i) -
        (kernelMemoryPosition + BitVec.ofNat 32 (offset + 512))).toNat := by
  unfold kernelMemoryPosition readWriteBuffer
  constructor <;> bv_omega

/-- What is apart from all sectors is apart from the first one, and from the others. -/
theorem kernel_next {offset n : ℕ} {a : Word}
    (h : (n + 1) * 512 ≤ (a - (kernelMemoryPosition + BitVec.ofNat 32 offset)).toNat) :
    512 ≤ (a - (kernelMemoryPosition + BitVec.ofNat 32 offset)).toNat ∧
      n * 512 ≤ (a - (kernelMemoryPosition + BitVec.ofNat 32 (offset + 512))).toNat := by
  have hnext : a - (kernelMemoryPosition + BitVec.ofNat 32 (offset + 512)) =
      a - (kernelMemoryPosition + BitVec.ofNat 32 offset) - 512 := by
    rw [BitVec.ofNat_add, ← BitVec.add_assoc]
    exact (BitVec.sub_sub _ _ _).symm
  have hless : ∀ x : Word, 512 ≤ x.toNat → (x - 512).toNat = x.toNat - 512 := by
    intro x hx
    bv_omega
  rw [Nat.succ_mul] at h
  have hfar := le_trans (Nat.le_add_left 512 (n * 512)) h
  rw [hnext, hless _ hfar]
  exact ⟨hfar, Nat.le_sub_of_add_le h⟩

theorem offScreen_kernel {offset i : ℕ} (h : offset + i < 0xA8000) :
    OffScreen (kernelMemoryPosition + BitVec.ofNat 32 (offset + i)) := by
  refine offScreen_low ?_
  unfold kernelMemoryPosition
  bv_omega

/-- **The rounds** put one sector behind the other, and leave the memory apart from them, from the buffer and
from the screen as it was. -/
theorem loadSectors_returns {n first offset : ℕ} (h : Prepared c moves b first n) (hfirst : first + n ≤ 2880)
    (hoffset : offset + n * 512 ≤ 0xA8000) :
    ∃ b', Returns (fun fuel => loadSectors c moves orders fuel (List.range' first n) offset b) b' ∧
      b'.board.system.disk = b.board.system.disk ∧
      (∀ i < n * 512, b'.board.system.mem (kernelMemoryPosition + BitVec.ofNat 32 (offset + i)) =
        b.board.system.disk (512 * first + i)) ∧
      ∀ a, OffScreen a → 512 ≤ (a - readWriteBuffer).toNat →
        n * 512 ≤ (a - (kernelMemoryPosition + BitVec.ofNat 32 offset)).toNat →
        b'.board.system.mem a = b.board.system.mem a := by
  induction n generalizing first offset b with
  | zero => exact ⟨b, settles_const _, rfl, fun i hi => absurd hi (by omega), fun _ _ _ _ => rfl⟩
  | succ n ih =>
    have hplace : offset + 512 ≤ 2 ^ 31 := by omega
    have hoffset' : offset + 512 + n * 512 ≤ 0xA8000 := by omega
    obtain ⟨driver, hret, hprepared, hdisk, hmem⟩ := round_returns h (by omega) (orders first)
    have hcopied := hprepared.copySector offset
    have hround := @round_mem _ _ _ offset _ hplace hmem
    have hdisk₁ : (((b.puts "R" 0x0B).after moves (orders first) driver).copySector offset).board.system.disk =
        b.board.system.disk := hdisk
    obtain ⟨b', hb', hdisk', hkernel, hrest⟩ := ih hcopied (by omega) hoffset'
    refine ⟨b', (settles_bind_some hret).2 hb', hdisk'.trans hdisk₁, fun i hi => ?_, fun a ha hbuffer hout => ?_⟩
    · by_cases hin : i < 512
      · obtain ⟨hbuffer, hbehind⟩ := kernel_far hin (by omega : offset + 512 + n * 512 ≤ 2 ^ 31)
        have hoff : OffScreen (kernelMemoryPosition + BitVec.ofNat 32 (offset + i)) := offScreen_kernel (by omega)
        rw [hrest _ hoff hbuffer hbehind, hround hoff, BitVec.ofNat_add, ← BitVec.add_assoc]
        exact loadBytes_inside _ _ _ _ hin
      · have hbyte := hkernel (i - 512) (by omega)
        rw [show offset + 512 + (i - 512) = offset + i by omega] at hbyte
        rw [hbyte, hdisk₁, show 512 * (first + 1) + (i - 512) = 512 * first + i by omega]
    · obtain ⟨hfar, hbehind⟩ := kernel_next hout
      rw [hrest a ha hbuffer hbehind, hround ha, loadBytes_outside _ _ _ hfar, loadBytes_outside _ _ _ hbuffer]

theorem taken_initState {s : Driver} {board : Board} :
    (initState c moves s board).driver.taken = s.taken + 1 := by
  show ((({ s with drive := 0, irqReceived := 0 } : Driver).dmaInit.writeFIFO c 0x94).readFIFO c).2.taken = _
  rw [taken_readFIFO, taken_writeFIFO]
  simp [Driver.dmaInit, Driver.outb]

/-- The kernel lies on the cylinder 0. -/
theorem cylinder_kernel : ∀ j < 12,
    (lba2CHS ((BitVec.ofNat 16 (kernelStartSector + j)).setWidth 32)).1 = 0 := by
  decide

/-- **The second stage loads the kernel**: after `FDC_Init`, when the drive finds each sector at once and moves
it whole, the loop of `Stage2_CEntry` returns with the sectors 18 to 29 of the disk at `0x10000`, and it changes
no other memory but the buffer and the screen. -/
theorem loadKernel_returns {s : Driver} {board : Board} (hfifo : board.system.fifo = [])
    (hconfused : board.system.confused = false) (hflip : board.system.dma.first.flipFlop = false)
    (hpage : board.system.dma.pages 0x81 = 0) (hpos : Video.Ordered board.screenPos)
    (hreported : ∀ j < 12, c.fifo (s.taken + 11 * j + 2) = 0)
    (hmoved : ∀ j < 12, 512 ≤ moves (board.system.transfers + j)) :
    ∃ b', Returns (loadKernel c moves orders (initState c moves s board)) b' ∧
      b'.board.system.disk = board.system.disk ∧
      (∀ i < 12 * 512, b'.board.system.mem (kernelMemoryPosition + BitVec.ofNat 32 i) =
        board.system.disk (512 * 18 + i)) ∧
      ∀ a, OffScreen a → 512 ≤ (a - readWriteBuffer).toNat → 12 * 512 ≤ (a - kernelMemoryPosition).toNat →
        b'.board.system.mem a = board.system.mem a := by
  have hinit : Idle (initState c moves s board) ∧ _ := idle_init hfifo hconfused hflip hpage hpos
  obtain ⟨hidle, hzero, hsystem⟩ := hinit
  have hprepared : Prepared c moves (initState c moves s board) kernelStartSector
      (kernelEndSector - kernelStartSector) := by
    refine ⟨hidle, hzero, fun j hj => ?_, fun j hj => ?_⟩
    · rw [taken_initState, cylinder_kernel j hj, ← hreported j hj]
      congr 1
      omega
    · rw [hsystem]
      exact hmoved j hj
  obtain ⟨b', hret, hdisk', hkernel, hrest⟩ := @loadSectors_returns _ _ orders _ _ _ 0 hprepared (by decide)
    (by decide)
  rw [hsystem] at hdisk' hkernel hrest
  refine ⟨b', hret, hdisk', fun i hi => ?_, fun a ha hbuffer hout => ?_⟩
  · have hbyte := hkernel i hi
    rw [Nat.zero_add] at hbyte
    exact hbyte
  · refine hrest a ha hbuffer ?_
    rw [BitVec.add_zero]
    exact hout

/-- With a drive that never fails, and texts between the bytes of each call. -/
theorem loadKernel_returns_sample : ∃ b',
    Returns (loadKernel promptController (fun _ => 512) (fun _ => [false, true, true, false])
      (sampleState fun _ => 512)) b' ∧
    b'.board.system.disk = sampleSystem.disk ∧
    (∀ i < 12 * 512, b'.board.system.mem (kernelMemoryPosition + BitVec.ofNat 32 i) =
      sampleSystem.disk (512 * 18 + i)) ∧
    ∀ a, OffScreen a → 512 ≤ (a - readWriteBuffer).toNat → 12 * 512 ≤ (a - kernelMemoryPosition).toNat →
      b'.board.system.mem a = sampleSystem.mem a :=
  loadKernel_returns rfl rfl rfl rfl ⟨rfl, by decide⟩ (fun _ _ => rfl) fun _ _ => le_rfl

end Load

end RedFox32.Old.FDC
