import RedFox32.Machine.FloppyDisk
import RedFox32.Machine.Runs
import RedFox32.Old.BootloaderStage2.FDC
import RedFox32.Old.BootloaderStage2.Video

/-!
The sectors that the floppy driver reads and writes.  `ReadLBA` and `WriteLBA` start the motor, seek, set the
mode of the channel and send a command of nine bytes; the bytes that they send to the ports make the
controllers move a sector between the disk and the buffer at `0x7E00`.  The address and the count of the channel
are written once, by `FDC_Init`: after a transfer that breaks off the next one begins where it ended.

While they work they print, and the texts go into the same memory, at any moment between the bytes.
-/

namespace RedFox32.Old.FDC

open RedFox32.Machine

/-! ### The functions -/

/-- `READ_DATA` is `WRITE_DATA + 1`. -/
def writeDataCommand : Byte := 5
/-- `OPT_MT` -/
def optMT : Byte := 0x80
/-- `OPT_MF` -/
def optMF : Byte := 0x40

namespace Driver

/-- `DMAInit` -/
def dmaInit (s : Driver) : Driver :=
  let s := s.outb 0x0A 0x06
  let s := s.outb 0xD8 0xFF
  let s := s.outb 0x04 0x00
  let s := s.outb 0x04 0x7E
  let s := s.outb 0xD8 0xFF
  let s := s.outb 0x05 0xFF
  let s := s.outb 0x05 0x01
  let s := s.outb 0x80 0x00
  s.outb 0x0A 0x02

/-- The channel 2 takes a mode while it is masked. -/
def dmaMode (mode : Byte) (s : Driver) : Driver :=
  let s := s.outb 0x0A 0x06
  let s := s.outb 0x0B mode
  s.outb 0x0A 0x02

/-- `DMARead` -/
def dmaRead : Driver → Driver := dmaMode 0x56

/-- `DMAWrite` -/
def dmaWrite : Driver → Driver := dmaMode 0x5A

variable (c : Controller)

/-- The command of `ReadWriteGeneric`. -/
def writeData (readWrite cylinder head sector : Byte) (s : Driver) : Driver :=
  let s := s.writeFIFO c ((writeDataCommand + readWrite) ||| optMT ||| optMF)
  let s := s.writeFIFO c (head <<< 2 ||| s.drive)
  let s := s.writeFIFO c cylinder
  let s := s.writeFIFO c head
  let s := s.writeFIFO c sector
  let s := s.writeFIFO c 2
  let s := s.writeFIFO c 18
  let s := s.writeFIFO c 0x1B
  s.writeFIFO c 0xFF

/-- `ReadWriteGeneric` from the choice of the mode on. -/
def readWriteSector (readWrite cylinder head sector : Byte) (s : Driver) : Driver :=
  let s := if readWrite ≠ 0 then s.dmaRead else s.dmaWrite
  let s := (s.writeData c readWrite cylinder head sector).waitIRQ c
  let s := (fun s => (s.readFIFO c).2)^[7] s
  let (_, _, s) := s.senseInterrupt c
  s.motorOff

/-- `FDC_Init`; the two system calls of it are in the tables of the second stage. -/
def fdcInit (s : Driver) : Driver :=
  let s := { s with drive := 0, irqReceived := 0 }.dmaInit
  ((s.writeFIFO c 0x94).readFIFO c).2

end Driver

section Functions

variable (c : Controller)

/-- `ReadWriteGeneric` -/
def readWriteGeneric (readWrite cylinder head sector : Byte) (s : Driver) (fuel : ℕ) : Option Driver :=
  (seek c cylinder head s.motorOn fuel).map fun r => r.driver.readWriteSector c readWrite cylinder head sector

/-- `LBA2CHS`, with `*Cylinder`, `*Head` and `*Sector`. -/
def lba2CHS (lba : Word) : Byte × Byte × Byte :=
  ((lba / 36).setWidth 8, (lba % 36 / 18).setWidth 8, (lba % 36 % 18 + 1).setWidth 8)

/-- `ReadLBA` and `WriteLBA` -/
def transferLBA (readWrite : Byte) (lba : BitVec 16) (s : Driver) (fuel : ℕ) : Option Driver :=
  if 2880 ≤ lba.toNat then some s
  else
    let (cylinder, head, sector) := lba2CHS (lba.setWidth 32)
    readWriteGeneric c readWrite cylinder head sector s fuel

/-- `ReadLBA` -/
def readLBA (lba : BitVec 16) : Driver → ℕ → Option Driver := transferLBA c 1 lba

/-- `WriteLBA` -/
def writeLBA (lba : BitVec 16) : Driver → ℕ → Option Driver := transferLBA c 0 lba

end Functions

/-! ### What the controllers do -/

/-- The driver sends bytes that the controllers answer with the change `f`, none of them for the page register
of the channel; before and after them no command is incomplete. -/
structure Sends (moves : ℕ → ℕ) (s s' : Driver) (f : FloppySystem → FloppySystem) : Prop where
  outs : ∃ es, s'.outs = s.outs ++ es ∧ (∀ e ∈ es, e.1 ≠ 0x81) ∧
    ∀ d : FloppySystem, d.fifo = [] → d.outs moves es = f d ∧ (f d).fifo = []
  drive : s'.drive = s.drive

section Sends

variable {moves : ℕ → ℕ} {c : Controller} {s s' s'' : Driver} {f g : FloppySystem → FloppySystem}

theorem Sends.nothing (houts : s'.outs = s.outs) (hdrive : s'.drive = s.drive) :
    Sends moves s s' id :=
  ⟨⟨[], by simpa using houts, nofun, fun _ hd => ⟨rfl, hd⟩⟩, hdrive⟩

theorem Sends.trans (h : Sends moves s s' f) (h' : Sends moves s' s'' g) :
    Sends moves s s'' fun d => g (f d) := by
  obtain ⟨⟨es, hes, hports, hf⟩, hdrive⟩ := h
  obtain ⟨⟨es', hes', hports', hg⟩, hdrive'⟩ := h'
  refine ⟨⟨es ++ es', ?_, fun e he => ?_, fun d hd => ?_⟩, hdrive'.trans hdrive⟩
  · rw [hes', hes, List.append_assoc]
  · exact (List.mem_append.1 he).elim (hports e) (hports' e)
  · obtain ⟨hfd, hfifo⟩ := hf d hd
    rw [FloppySystem.outs_append, hfd]
    exact hg (f d) hfifo

/-- A byte for the digital output register that leaves the controller running. -/
theorem sends_writeDOR (v : Byte) : Sends moves s (s.writeDOR v) fun d => { d with dor := v } := by
  refine ⟨⟨[(regDOR, v)], rfl, by simp [regDOR], fun d hd => ⟨?_, hd⟩⟩, rfl⟩
  show { d with dor := v, fifo := if v.getLsbD 2 then d.fifo else [] } = _
  rw [hd]
  split_ifs <;> rfl

theorem fifoBytes_port (bytes : List Byte) : ∀ e ∈ FloppySystem.fifoBytes bytes, e.1 ≠ 0x81 := by
  intro e he
  obtain ⟨v, -, rfl⟩ := List.mem_map.1 he
  exact (by decide : (0x3F5 : BitVec 16) ≠ 0x81)

/-- A command that moves no data. -/
theorem sends_command (command : Byte) (ps : List Byte) (hps : ps.length = floppyParameters command)
    (hshort : ps.length ≠ 8) (houts : s'.outs = s.outs ++ FloppySystem.fifoBytes (command :: ps))
    (hdrive : s'.drive = s.drive) : Sends moves s s' id := by
  refine ⟨⟨_, houts, fifoBytes_port _, fun d hd => ⟨?_, hd⟩⟩, hdrive⟩
  rw [FloppySystem.outs_command hps hd]
  exact FloppySystem.execute_of_length (by simpa using hshort)

theorem sends_irqHandler (k : ℕ) : Sends moves s (Driver.irqHandler^[k] s) id := by
  induction k with
  | zero => exact .nothing rfl rfl
  | succ k ih =>
    rw [Function.iterate_succ_apply']
    exact ih.trans (.nothing rfl rfl)

theorem sends_waitIRQ : Sends moves s (s.waitIRQ c) id := by
  have hwait : Sends moves (Driver.irqHandler^[c.irqs s.waits] s) (s.waitIRQ c) id := by
    unfold Driver.waitIRQ
    dsimp only
    split <;> exact .nothing rfl rfl
  exact (sends_irqHandler _).trans hwait

@[simp] theorem outs_writeFIFO (v : Byte) : (s.writeFIFO c v).outs = s.outs ++ [(0x3F5, v)] := rfl

@[simp] theorem drive_writeFIFO (v : Byte) : (s.writeFIFO c v).drive = s.drive := rfl

@[simp] theorem outs_readFIFO : (s.readFIFO c).2.outs = s.outs := rfl

theorem sends_readFIFO : Sends moves s (s.readFIFO c).2 id := .nothing rfl rfl

theorem sends_readFIFO_iterate (k : ℕ) : Sends moves s ((fun s => (s.readFIFO c).2)^[k] s) id := by
  induction k with
  | zero => exact .nothing rfl rfl
  | succ k ih =>
    rw [Function.iterate_succ_apply']
    exact ih.trans sends_readFIFO

theorem sends_senseInterrupt : Sends moves s (s.senseInterrupt c).2.2 id := by
  refine sends_command senseInterruptCommand [] rfl (by simp) ?_ rfl
  simp [Driver.senseInterrupt, FloppySystem.fifoBytes]

theorem sends_specify (a b e : Byte) : Sends moves s (s.specify c a b e) id := by
  refine sends_command specifyCommand [a <<< 4 ||| e, b <<< 1 ||| 1] rfl (by simp) ?_ rfl
  simp [Driver.specify, FloppySystem.fifoBytes]

theorem sends_seek (cylinder head : Byte) : Sends moves s (writeSeek c cylinder head s) id := by
  refine sends_command seekCommand [head <<< 2 ||| s.drive, cylinder] rfl (by simp) ?_ rfl
  simp [writeSeek, FloppySystem.fifoBytes]

theorem sends_senseDrive : Sends moves s (s.senseDrive c) id :=
  (sends_senseInterrupt.trans sends_readFIFO).trans sends_readFIFO

/-- **A reset** stops the motors. -/
theorem sends_resetController : Sends moves s (s.resetController c) fun d => { d with dor := 0x0C } := by
  have hoff : Sends moves s (s.writeDOR 0) fun d => { d with dor := 0 } := sends_writeDOR 0
  have hdor := hoff.trans (sends_writeDOR (4 ||| 8))
  have hwait := hdor.trans (sends_waitIRQ (c := c))
  have hsense : ∀ {s₀ : Driver}, Sends moves s₀ ((Driver.senseDrive c)^[4] s₀) id := by
    intro s₀
    exact ((sends_senseDrive.trans sends_senseDrive).trans sends_senseDrive).trans sends_senseDrive
  have hccr : ∀ {s₀ : Driver}, Sends moves s₀ (s₀.writeCCR 0) id := by
    intro s₀
    refine ⟨⟨[(regCCR, 0)], rfl, by simp [regCCR], fun d hd => ⟨?_, hd⟩⟩, rfl⟩
    rfl
  exact ((hwait.trans hsense).trans hccr).trans (sends_specify 13 1 0xF)

theorem sends_timeoutPanic : Sends moves s (s.timeoutPanic c) fun d => { d with dor := 0x0C } := by
  have hputs : Sends moves s (s.puts "[FDC] PANIC: Timeout! \n" 0x0C) id := .nothing rfl rfl
  exact hputs.trans sends_resetController

/-- The motors are stopped, or nothing happens. -/
def restart (stopped : Bool) (d : FloppySystem) : FloppySystem :=
  { d with dor := if stopped then 0x0C else d.dor }

theorem sends_attempt (cylinder head : Byte) (r : Retry) :
    Sends moves r.driver (r.attempt c (writeSeek c cylinder head)).driver
      (restart (r.timeout = 500)) := by
  have hseek : Sends moves r.driver (writeSeek c cylinder head r.driver) id := sends_seek cylinder head
  have hasked := (hseek.trans (sends_waitIRQ (c := c))).trans (sends_senseInterrupt (c := c))
  unfold Retry.attempt
  dsimp only
  by_cases htimeout : r.timeout = 500
  · rw [if_pos htimeout, htimeout]
    exact hasked.trans sends_timeoutPanic
  · rw [if_neg htimeout, decide_eq_false htimeout]
    exact hasked

theorem restart_restart (b b' : Bool) (d : FloppySystem) :
    restart b' (restart b d) = restart (b || b') d := by
  cases b <;> cases b' <;> rfl

/-- **The first attempts** reset nothing, and what follows them does. -/
theorem sends_attempts (cylinder head : Byte) (n : ℕ) :
    Sends moves s ((Retry.attempt c (writeSeek c cylinder head))^[n] ⟨s, 0, 0⟩).driver
      (restart (500 < n)) := by
  induction n with
  | zero => exact .nothing rfl rfl
  | succ n ih =>
    rw [Function.iterate_succ_apply']
    have hnext := ih.trans (sends_attempt (c := c) cylinder head _)
    simp only [restart_restart] at hnext
    convert hnext using 2
    by_cases hn : n ≤ 500
    · have hcommand : ∀ s, Talks s (writeSeek c cylinder head s) [seekCommand] 0 :=
        fun s => writeSeek_talks cylinder head
      rw [(attempts_early hcommand s hn).1]
      by_cases heq : n = 500
      · simp [heq]
      · have hne : ¬ BitVec.ofNat 16 n = 500 := by bv_omega
        rw [decide_eq_false hne, Bool.or_false, decide_eq_decide]
        omega
    · simp [show 500 < n by omega, show 500 < n + 1 by omega]

/-- The cylinder is reported by one of the first 500 attempts. -/
def Prompt (c : Controller) (s : Driver) (cylinder : Byte) : Prop := ∃ k < 500, c.reported s k = cylinder

instance (c : Controller) (s : Driver) (cylinder : Byte) : Decidable (Prompt c s cylinder) := by
  unfold Prompt
  infer_instance

/-- **A seek that returns** has reset the controller exactly when the cylinder was not reported soon. -/
theorem sends_seek_returns {cylinder head : Byte} {r : Retry} (h : Returns (seek c cylinder head s) r) :
    Sends moves s r.driver (restart (¬ Prompt c s cylinder)) := by
  have hcommand : ∀ s, Talks s (writeSeek c cylinder head s) [seekCommand] 0 :=
    fun s => writeSeek_talks cylinder head
  obtain ⟨n, hagain, hend, rfl⟩ := doWhile_returns_iff.1 h
  have hprompt : Prompt c s cylinder ↔ n + 1 ≤ 500 := by
    constructor
    · rintro ⟨k, hk, hreported⟩
      by_contra hn
      have hmore := hagain k (by omega)
      rw [attempts_cyl hcommand s (by omega), hreported] at hmore
      simp at hmore
    · intro hn
      refine ⟨n, by omega, ?_⟩
      rw [attempts_cyl hcommand s (by omega)] at hend
      simpa using hend
  have hsends : Sends moves s ((Retry.attempt c (writeSeek c cylinder head))^[n + 1] ⟨s, 0, 0⟩).driver
      (restart (500 < n + 1)) := sends_attempts cylinder head (n + 1)
  convert hsends using 3
  rw [hprompt]
  omega

/-! ### One sector -/

theorem sends_dmaMode {mode : Byte} (hmode : mode.extractLsb' 0 2 = 2) :
    Sends moves s (s.dmaMode mode) (FloppySystem.setMode mode) := by
  refine ⟨⟨[(0x0A, 0x06), (0x0B, mode), (0x0A, 0x02)], ?_, by simp, fun d hd => ⟨?_, hd⟩⟩, rfl⟩
  · simp [Driver.dmaMode, Driver.outb]
  · show { d with dma := { d.dma with
      first := ((d.dma.first.out 10 0x06).out 11 mode).out 10 0x02 } } = _
    rw [Dma8237.out_mode hmode]
    rfl

/-- The mode that `ReadWriteGeneric` chooses. -/
def modeOf (readWrite : Byte) : Byte := if readWrite ≠ 0 then 0x56 else 0x5A

/-- The command that `ReadWriteGeneric` sends. -/
def dataCommand (readWrite cylinder head sector drive : Byte) : List Byte :=
  [(writeDataCommand + readWrite) ||| optMT ||| optMF, head <<< 2 ||| drive, cylinder, head, sector, 2, 18,
    0x1B, 0xFF]

/-- What the controllers do for `ReadWriteGeneric`, once the drive is on the cylinder. -/
def moveSector (moves : ℕ → ℕ) (readWrite cylinder head sector drive : Byte) (d : FloppySystem) :
    FloppySystem :=
  { (d.setMode (modeOf readWrite)).execute moves (dataCommand readWrite cylinder head sector drive) with
    dor := 0x0C }

theorem sends_writeData {readWrite : Byte} (hrw : readWrite = 0 ∨ readWrite = 1)
    (cylinder head sector : Byte) :
    Sends moves s (s.writeData c readWrite cylinder head sector) fun d =>
      d.execute moves (dataCommand readWrite cylinder head sector s.drive) := by
  refine ⟨⟨FloppySystem.fifoBytes (dataCommand readWrite cylinder head sector s.drive), ?_,
    fifoBytes_port _, fun d hd => ⟨?_, ?_⟩⟩, ?_⟩
  · unfold Driver.writeData
    simp only [outs_writeFIFO, drive_writeFIFO, List.append_assoc]
    rfl
  · refine FloppySystem.outs_command ?_ hd
    rcases hrw with rfl | rfl <;> rfl
  · rw [FloppySystem.execute_fifo, hd]
  · unfold Driver.writeData
    simp only [drive_writeFIFO]

theorem sends_readWriteSector {readWrite : Byte} (hrw : readWrite = 0 ∨ readWrite = 1)
    (cylinder head sector : Byte) :
    Sends moves s (s.readWriteSector c readWrite cylinder head sector)
      (moveSector moves readWrite cylinder head sector s.drive) := by
  have hmode : Sends moves s (if readWrite ≠ 0 then s.dmaRead else s.dmaWrite)
      (FloppySystem.setMode (modeOf readWrite)) := by
    unfold modeOf Driver.dmaRead Driver.dmaWrite
    split_ifs <;> exact sends_dmaMode (by decide)
  unfold Driver.readWriteSector
  generalize (if readWrite ≠ 0 then s.dmaRead else s.dmaWrite) = s₁ at hmode ⊢
  have hdata : Sends moves s₁ (s₁.writeData c readWrite cylinder head sector) fun d =>
      d.execute moves (dataCommand readWrite cylinder head sector s.drive) :=
    hmode.drive ▸ sends_writeData hrw cylinder head sector
  have hoff : ∀ s : Driver, Sends moves s s.motorOff fun d => { d with dor := 0x0C } :=
    fun s => sends_writeDOR _
  exact ((((hmode.trans hdata).trans (sends_waitIRQ (c := c))).trans
    (sends_readFIFO_iterate (c := c) 7)).trans (sends_senseInterrupt (c := c))).trans (hoff _)

/-- What the controllers do for `ReadWriteGeneric`. -/
def moveGeneric (c : Controller) (moves : ℕ → ℕ) (readWrite cylinder head sector : Byte) (s : Driver)
    (d : FloppySystem) : FloppySystem :=
  moveSector moves readWrite cylinder head sector s.drive
    (restart (¬ Prompt c s cylinder) { d with dor := 8 ||| 4 ||| (0x10 : Byte) <<< s.drive })

/-- **`ReadWriteGeneric`** that returns. -/
theorem sends_readWriteGeneric {readWrite cylinder head sector : Byte}
    (hrw : readWrite = 0 ∨ readWrite = 1)
    (h : Returns (readWriteGeneric c readWrite cylinder head sector s) s') :
    Sends moves s s' (moveGeneric c moves readWrite cylinder head sector s) := by
  obtain ⟨r, hr⟩ := doWhile_settles (Retry.attempt c (writeSeek c cylinder head))
    (fun r => r.cyl != cylinder) ⟨s.motorOn, 0, 0⟩
  obtain ⟨a, ha, rfl⟩ := (returns_map_iff hr).1 h
  have hon : Sends moves s s.motorOn fun d => { d with dor := 8 ||| 4 ||| (0x10 : Byte) <<< s.drive } :=
    sends_writeDOR _
  have hseek : Sends moves s.motorOn a.driver (restart (¬ Prompt c s cylinder)) := sends_seek_returns ha
  have hdrive : a.driver.drive = s.drive := hseek.drive.trans hon.drive
  have hmove : Sends moves a.driver (a.driver.readWriteSector c readWrite cylinder head sector)
      (moveSector moves readWrite cylinder head sector s.drive) :=
    hdrive ▸ sends_readWriteSector hrw cylinder head sector
  have hall := (hon.trans hseek).trans hmove
  exact hall

/-- A seek returns when the cylinder is reported soon. -/
theorem Prompt.seek_returns {cylinder head : Byte} (h : Prompt c s cylinder) :
    ∃ r, Returns (seek c cylinder head s) r := by
  obtain ⟨k, hk, hreported⟩ := h
  have hcommand : ∀ s, Talks s (writeSeek c cylinder head s) [seekCommand] 0 :=
    fun s => writeSeek_talks cylinder head
  have hgives := (retry_givesUp_iff hcommand (by decide) (by decide) cylinder s).2
    ⟨k, by omega, hreported⟩
  obtain ⟨r, hret, -⟩ := hgives
  exact ⟨r, hret⟩

/-- **A call returns** when its cylinder is reported soon. -/
theorem transferLBA_returns {readWrite : Byte} {lba : BitVec 16}
    (h : Prompt c s (lba2CHS (lba.setWidth 32)).1) :
    ∃ driver, Returns (transferLBA c readWrite lba s) driver := by
  unfold transferLBA
  split_ifs
  · exact ⟨s, settles_const _⟩
  · have hon : Prompt c s.motorOn (lba2CHS (lba.setWidth 32)).1 := h
    obtain ⟨r, hr⟩ := hon.seek_returns
    have hret := returns_map hr fun r => r.driver.readWriteSector c readWrite
      (lba2CHS (lba.setWidth 32)).1 (lba2CHS (lba.setWidth 32)).2.1 (lba2CHS (lba.setWidth 32)).2.2
    exact ⟨_, hret⟩

end Sends

/-! ### The sectors -/

/-- `FDC_READWRITE_BUFFER` -/
def readWriteBuffer : Word := 0x7E00

/-- **`LBA2CHS`**: the numbers fit their bytes and belong to the sector. -/
theorem lba2CHS_eq {lba : BitVec 16} (hlba : lba.toNat < 2880) :
    (lba2CHS (lba.setWidth 32)).1.toNat < 80 ∧ (lba2CHS (lba.setWidth 32)).2.1.toNat < 2 ∧
      (1 ≤ (lba2CHS (lba.setWidth 32)).2.2.toNat ∧ (lba2CHS (lba.setWidth 32)).2.2.toNat ≤ 18) ∧
      sectorNumber (lba2CHS (lba.setWidth 32)).1.toNat (lba2CHS (lba.setWidth 32)).2.1.toNat
        (lba2CHS (lba.setWidth 32)).2.2.toNat = lba.toNat := by
  have hwide : (lba.setWidth 32).toNat = lba.toNat := by
    rw [BitVec.toNat_setWidth]
    omega
  unfold lba2CHS sectorNumber
  dsimp only
  generalize lba.setWidth 32 = w at hwide
  have h1 : ((w / 36).setWidth 8 : Byte).toNat = w.toNat / 36 := by
    simp
    omega
  have h2 : ((w % 36 / 18).setWidth 8 : Byte).toNat = w.toNat % 36 / 18 := by
    simp
    omega
  have h3 : ((w % 36 % 18 + 1).setWidth 8 : Byte).toNat = w.toNat % 36 % 18 + 1 := by
    simp
    omega
  rw [h1, h2, h3, hwide]
  omega

/-- The disk, the memory, and how many bytes the channel is behind the begin of the buffer. -/
structure Store where
  disk : ℕ → Byte
  mem : Mem
  offset : ℕ

/-- The first `n` bytes of a sector are read or written. -/
def Store.transfer (readWrite : Byte) (lba n : ℕ) (st : Store) : Store :=
  let place := readWriteBuffer + BitVec.ofNat 32 st.offset
  { disk := if readWrite ≠ 0 then st.disk else FloppySystem.storeBytes st.mem place st.disk lba n
    mem := if readWrite ≠ 0 then FloppySystem.loadBytes st.disk lba n st.mem place else st.mem
    offset := (st.offset + n) % 512 }

/-- Nothing is read or written. -/
theorem Store.transfer_zero {readWrite : Byte} {lba : ℕ} {st : Store} (h : st.offset < 512) :
    st.transfer readWrite lba 0 = st := by
  unfold Store.transfer
  rw [Nat.add_zero, Nat.mod_eq_of_lt h]
  simp only [FloppySystem.loadBytes_zero, FloppySystem.storeBytes_zero, ite_self]

/-- The disk, the memory and the channel of the system. -/
def storeOf (d : FloppySystem) : Store := ⟨d.disk, d.mem, 511 - d.channel.count.toNat⟩

section Sector

variable {moves : ℕ → ℕ} {c : Controller} {s : Driver} {d : FloppySystem} {readWrite : Byte}
  {lba : BitVec 16}

/-- The motor is on unless the controller was reset. -/
theorem motor_restart {head : Byte} (hhead : head.toNat < 2) (mode : Byte) (stopped : Bool) :
    ((restart stopped { d with dor := 8 ||| 4 ||| (0x10 : Byte) <<< (0 : Byte) }).setMode mode).motor
      (head <<< 2 ||| 0) = !stopped := by
  have hunit : ((head <<< 2 ||| 0 : Byte) &&& 3).toNat = 0 := by
    obtain rfl | rfl : head = 0 ∨ head = 1 := by
      rcases (show head.toNat = 0 ∨ head.toNat = 1 by omega) with h | h
      · exact .inl (BitVec.eq_of_toNat_eq h)
      · exact .inr (BitVec.eq_of_toNat_eq h)
    · rfl
    · rfl
  have hdor : ((restart stopped { d with dor := 8 ||| 4 ||| (0x10 : Byte) <<< (0 : Byte) }).setMode mode).dor =
      if stopped then 0x0C else 0x1C := rfl
  unfold FloppySystem.motor
  rw [hunit, hdor]
  cases stopped <;> rfl

/-- A reset keeps what the drive and the channels have. -/
theorem restart_keeps (stopped : Bool) (dor : Byte) (d : FloppySystem) :
    let e := restart stopped { d with dor := dor }
    e.dma = d.dma ∧ e.disk = d.disk ∧ e.mem = d.mem ∧ e.transfers = d.transfers ∧
      e.confused = d.confused :=
  ⟨rfl, rfl, rfl, rfl, rfl⟩

/-- What a command does to a channel that is set up. -/
theorem execute_store {k : ℕ} {cylinder head sector : Byte} (unit : Byte) (hrw : readWrite = 0 ∨ readWrite = 1)
    (hc : cylinder.toNat < 80) (hhd : head.toNat < 2) (hs : 1 ≤ sector.toNat ∧ sector.toNat ≤ 18)
    (h : d.SetUp readWriteBuffer k) (hmode : d.channel.mode = modeOf readWrite) :
    let d' := d.execute moves [(writeDataCommand + readWrite) ||| optMT ||| optMF, unit, cylinder, head,
      sector, 2, 18, 0x1B, 0xFF]
    d.moved moves unit ≤ 512 - k ∧ d'.dma = (d.advance (d.moved moves unit)).dma ∧ d'.confused = d.confused ∧
      d'.transfers = d.transfers + 1 ∧ storeOf d' = (storeOf d).transfer readWrite
        (sectorNumber cylinder.toNat head.toNat sector.toNat) (d.moved moves unit) := by
  have hoffset : (storeOf d).offset = k := by
    have hk := h.within
    have hcount := h.count_toNat
    unfold storeOf
    dsimp only
    omega
  have hle : d.moved moves unit ≤ 512 - k := h.moved_le unit
  have hadvance := (h.advance hle).count_toNat
  have hbehind : 511 - (d.advance (d.moved moves unit)).channel.count.toNat =
      (k + d.moved moves unit) % 512 := by
    have hlt := Nat.mod_lt (k + d.moved moves unit) (show 0 < 512 by decide)
    omega
  dsimp only
  unfold Store.transfer
  dsimp only
  rw [hoffset]
  rcases hrw with rfl | rfl
  · rw [h.execute_write hc hhd hs rfl (by rw [hmode]; rfl)]
    refine ⟨hle, rfl, rfl, rfl, ?_⟩
    rw [← hbehind]
    rfl
  · rw [h.execute_read hc hhd hs rfl (by rw [hmode]; rfl)]
    refine ⟨hle, rfl, rfl, rfl, ?_⟩
    rw [← hbehind]
    rfl

/-- **One sector**: it moves when the drive is on the cylinder soon, as far as the drive moves it and the count
goes. -/
theorem moveGeneric_store {k : ℕ} {cylinder head sector : Byte} {d' : FloppySystem}
    (hrw : readWrite = 0 ∨ readWrite = 1) (hc : cylinder.toNat < 80) (hhd : head.toNat < 2)
    (hs : 1 ≤ sector.toNat ∧ sector.toNat ≤ 18) (hdrive : s.drive = 0)
    (hd : d.Programmed readWriteBuffer k) (hd' : d' = moveGeneric c moves readWrite cylinder head sector s d) :
    let n := if Prompt c s cylinder then min (moves d.transfers) (512 - k) else 0
    d'.Programmed readWriteBuffer ((k + n) % 512) ∧ d'.confused = d.confused ∧
      d'.transfers = d.transfers + 1 ∧
      storeOf d' = (storeOf d).transfer readWrite (sectorNumber cylinder.toNat head.toNat sector.toNat) n := by
  unfold moveGeneric moveSector dataCommand at hd'
  rw [hdrive] at hd'
  have hmotor := motor_restart (d := d) hhd (modeOf readWrite) (¬ Prompt c s cylinder)
  obtain ⟨hdma, hdisk, hmem, htransfers, hconfused⟩ :=
    restart_keeps (¬ Prompt c s cylinder) (8 ||| 4 ||| (0x10 : Byte) <<< (0 : Byte)) d
  generalize restart (¬ Prompt c s cylinder)
    { d with dor := 8 ||| 4 ||| (0x10 : Byte) <<< (0 : Byte) } = e at *
  have he : (e.setMode (modeOf readWrite)).SetUp readWriteBuffer k := by
    refine (hd.of_dma hdma).setMode ?_ ?_
    all_goals rcases hrw with rfl | rfl <;> rfl
  have hmode : (e.setMode (modeOf readWrite)).channel.mode = modeOf readWrite := by
    rw [FloppySystem.channel_setMode]
  have hmoved : (e.setMode (modeOf readWrite)).moved moves (head <<< 2 ||| 0) =
      if Prompt c s cylinder then min (moves d.transfers) (512 - k) else 0 := by
    rw [he.moved, hmotor, ← htransfers]
    by_cases hprompt : Prompt c s cylinder
    · simp [hprompt, FloppySystem.setMode]
    · simp [hprompt]
  have hstore : storeOf (e.setMode (modeOf readWrite)) = storeOf d := by
    unfold storeOf
    rw [FloppySystem.channel_setMode]
    unfold FloppySystem.channel
    rw [hdma, ← hdisk, ← hmem]
    rfl
  obtain ⟨hle, hdma', hconfused', htransfers', hstore'⟩ :=
    @execute_store moves _ _ _ _ _ _ (head <<< 2 ||| 0) hrw hc hhd hs he hmode
  have hafter := he.advance hle
  rw [hmoved] at hdma' hstore' hafter
  rw [hstore] at hstore'
  dsimp only
  subst hd'
  refine ⟨hafter.toProgrammed.of_dma hdma', ?_, ?_, hstore'⟩
  · rw [← hconfused]
    exact hconfused'
  · rw [← htransfers]
    exact htransfers'

end Sector

/-! ### `FDC_Init` -/

section Init

variable {moves : ℕ → ℕ} {c : Controller} {s : Driver} {d : FloppySystem}

/-- What the controllers of the direct memory access do for `DMAInit`. -/
def initDma (p : DmaPair) : DmaPair :=
  ((((((((p.out 0x0A 0x06).out 0xD8 0xFF).out 0x04 0x00).out 0x04 0x7E).out 0xD8 0xFF).out 0x05
    0xFF).out 0x05 0x01).out 0x80 0x00).out 0x0A 0x02

/-- **The channel after `DMAInit`**: port `0xD8` is not the flip-flop of this channel. -/
theorem channel_initDma (p : DmaPair) : (initDma p).first.channels 2 =
    { baseAddress := if p.first.flipFlop then 0x007E else 0x7E00
      baseCount := if p.first.flipFlop then 0xFF01 else 0x01FF
      address := if p.first.flipFlop then 0x007E else 0x7E00
      count := if p.first.flipFlop then 0xFF01 else 0x01FF
      mode := (p.first.channels 2).mode
      masked := false } := by
  have hflip : (!!p.first.flipFlop) = p.first.flipFlop := Bool.not_not _
  have hall : (initDma p).first.channels 2 =
      { baseAddress := putHalf (!p.first.flipFlop) (putHalf p.first.flipFlop
          (p.first.channels 2).baseAddress 0x00) 0x7E
        baseCount := putHalf (!!!p.first.flipFlop) (putHalf (!!p.first.flipFlop)
          (p.first.channels 2).baseCount 0xFF) 0x01
        address := putHalf (!p.first.flipFlop) (putHalf p.first.flipFlop
          (p.first.channels 2).address 0x00) 0x7E
        count := putHalf (!!!p.first.flipFlop) (putHalf (!!p.first.flipFlop)
          (p.first.channels 2).count 0xFF) 0x01
        mode := (p.first.channels 2).mode
        masked := false } := rfl
  rw [hall, hflip, putHalf_putHalf, putHalf_putHalf, putHalf_putHalf, putHalf_putHalf]
  rfl

theorem pages_initDma (p : DmaPair) : (initDma p).pages 0x81 = p.pages 0x81 := by
  have hpages : (initDma p).pages = Function.update p.pages 0x80 0x00 := rfl
  rw [hpages, Function.update_of_ne (by decide)]

/-- The page of a channel whose buffer is in the first 64 KiB. -/
theorem page_of_base {page : Byte} {base : BitVec 16}
    (h : ((0 : Byte) ++ page) ++ base = readWriteBuffer) : page = 0 ∧ base = 0x7E00 := by
  have hnat := congrArg BitVec.toNat h
  rw [FloppySystem.toNat_append_word] at hnat
  have hbase := base.isLt
  have hbuffer : readWriteBuffer.toNat = 0x7E00 := rfl
  have hpages : ∀ page : Byte, ((0 : Byte) ++ page : BitVec 16).toNat = page.toNat := by decide
  have hpage := hpages page
  exact ⟨BitVec.eq_of_toNat_eq (by simp; omega), BitVec.eq_of_toNat_eq (by simp; omega)⟩

/-- **`FDC_Init`** programs the channel exactly when the flip-flop was clear and the page was 0. -/
theorem programmed_initDma_iff :
    ({ d with dma := initDma d.dma } : FloppySystem).Programmed readWriteBuffer 0 ↔
      d.dma.first.flipFlop = false ∧ d.dma.pages 0x81 = 0 := by
  have hchannel : ({ d with dma := initDma d.dma } : FloppySystem).channel = _ := channel_initDma d.dma
  constructor
  · rintro ⟨-, -, hcount, -, -, hbase, -⟩
    obtain ⟨hpage, -⟩ := page_of_base hbase
    rw [pages_initDma] at hpage
    refine ⟨?_, hpage⟩
    by_contra hset
    rw [Bool.not_eq_false] at hset
    rw [hchannel] at hcount
    dsimp only at hcount
    rw [hset] at hcount
    exact absurd hcount (by decide)
  · rintro ⟨hflip, hpage⟩
    rw [hflip] at hchannel
    refine ⟨?_, ?_, ?_, by decide, ?_, ?_, ?_⟩
    all_goals rw [hchannel]
    · rfl
    · rfl
    · rfl
    · dsimp only
      rw [pages_initDma, hpage]
      rfl
    · show (0x7E00 : BitVec 16).toNat + 512 ≤ 2 ^ 16
      decide

theorem sends_dmaInit : Sends moves s s.dmaInit fun d => { d with dma := initDma d.dma } := by
  refine ⟨⟨[(0x0A, 0x06), (0xD8, 0xFF), (0x04, 0x00), (0x04, 0x7E), (0xD8, 0xFF), (0x05, 0xFF),
    (0x05, 0x01), (0x80, 0x00), (0x0A, 0x02)], ?_, by simp, fun d hd => ⟨?_, hd⟩⟩, ?_⟩
  · simp [Driver.dmaInit, Driver.outb]
  · exact FloppySystem.outs_dma (by simp)
  · simp [Driver.dmaInit, Driver.outb]

theorem sends_fdcInit : Sends moves { s with drive := 0, irqReceived := 0 } (s.fdcInit c)
    fun d => { d with dma := initDma d.dma } := by
  have hlock : ∀ s : Driver, Sends moves s (s.writeFIFO c 0x94) id :=
    fun s => sends_command 0x94 [] rfl (by simp) (by simp [FloppySystem.fifoBytes]) rfl
  exact (sends_dmaInit.trans (hlock _)).trans sends_readFIFO

end Init

/-! ### The board -/

/-- Where memory is not the screen. -/
def OffScreen (a : Word) : Prop := 4000 ≤ (a - Video.videoMemory).toNat

/-- The controllers with the memory, and `ScreenPos`. -/
structure Board where
  system : FloppySystem
  screenPos : Word

namespace Board

variable (moves : ℕ → ℕ)

/-- A text is printed. -/
def puts (text : String) (colour : Byte) (b : Board) : Board :=
  let s := Video.puts (Video.bytesOf text) colour ⟨b.system.mem, b.screenPos⟩
  ⟨{ b.system with mem := s.mem }, s.screenPos⟩

/-- The bytes that a call sent to ports and the texts that it printed, each in their order.  What comes when is
an input: `true` for the next byte, `false` for the next text; in the end what is left of the bytes, and of the
texts. -/
def play : List Bool → List (BitVec 16 × Byte) → List (String × Byte) → Board → Board
  | [], es, ts, b => ts.foldl (fun b t => b.puts t.1 t.2) { b with system := b.system.outs moves es }
  | true :: order, [], ts, b => play order [] ts b
  | true :: order, e :: es, ts, b => play order es ts { b with system := b.system.out moves e.1 e.2 }
  | false :: order, es, [], b => play order es [] b
  | false :: order, es, t :: ts, b => play order es ts (b.puts t.1 t.2)

end Board

section Board

variable {moves : ℕ → ℕ} {d d' : FloppySystem} {b : Board} {es : List (BitVec 16 × Byte)}

/-- The transfers stay below the screen. -/
theorem offScreen_address (hpage : d.dma.pages 0x81 = 0) (i : ℕ) : OffScreen (d.address i) := by
  have hlt := FloppySystem.address_lt hpage i
  unfold OffScreen Video.videoMemory
  bv_omega

/-- Bytes for the ports do the same beside the screen. -/
theorem agree_outs (h : FloppySystem.Agree OffScreen d d') (hpage : d.dma.pages 0x81 = 0)
    (hports : ∀ e ∈ es, e.1 ≠ 0x81) :
    FloppySystem.Agree OffScreen (d.outs moves es) (d'.outs moves es) := by
  induction es generalizing d d' with
  | nil => exact h
  | cons e es ih =>
    refine ih (h.out (offScreen_address hpage) e.1 e.2) ?_ fun x hx => hports x (List.mem_cons_of_mem _ hx)
    rw [FloppySystem.pages_out (hports e List.mem_cons_self)]
    exact hpage

/-- A text is printed beside everything else. -/
theorem puts_agree (text : String) (colour : Byte) (hpos : Video.Ordered b.screenPos) :
    Video.Ordered (b.puts text colour).screenPos ∧
      FloppySystem.Agree OffScreen b.system (b.puts text colour).system := by
  obtain ⟨hordered, hchanges⟩ :=
    Video.puts_prints (s := ⟨b.system.mem, b.screenPos⟩) (Video.bytesOf text) colour hpos
  exact ⟨hordered, rfl, hchanges⟩

theorem puts_foldl_agree (ts : List (String × Byte)) (hpos : Video.Ordered b.screenPos) :
    Video.Ordered (ts.foldl (fun b t => b.puts t.1 t.2) b).screenPos ∧
      FloppySystem.Agree OffScreen b.system (ts.foldl (fun b t => b.puts t.1 t.2) b).system := by
  induction ts generalizing b with
  | nil => exact ⟨hpos, .refl _⟩
  | cons t ts ih =>
    obtain ⟨hordered, hagree⟩ := puts_agree t.1 t.2 hpos
    obtain ⟨hordered', hagree'⟩ := ih hordered
    exact ⟨hordered', hagree.trans hagree'⟩

variable (moves) in
/-- **Whatever comes when**, beside the screen a call does what its bytes for the ports do. -/
theorem play_agree (order : List Bool) (ts : List (String × Byte)) (hpos : Video.Ordered b.screenPos)
    (hpage : b.system.dma.pages 0x81 = 0) (hports : ∀ e ∈ es, e.1 ≠ 0x81) :
    Video.Ordered (b.play moves order es ts).screenPos ∧
      FloppySystem.Agree OffScreen (b.system.outs moves es) (b.play moves order es ts).system := by
  induction order generalizing b es ts with
  | nil => exact puts_foldl_agree (b := { b with system := b.system.outs moves es }) ts hpos
  | cons port order ih =>
    cases port with
    | true =>
      cases es with
      | nil => exact ih ts hpos hpage hports
      | cons e es =>
        refine ih (b := { b with system := b.system.out moves e.1 e.2 }) ts hpos ?_ fun x hx =>
          hports x (List.mem_cons_of_mem _ hx)
        dsimp only
        rw [FloppySystem.pages_out (hports e List.mem_cons_self)]
        exact hpage
    | false =>
      cases ts with
      | nil => exact ih [] hpos hpage hports
      | cons t ts =>
        obtain ⟨hordered, hagree⟩ := puts_agree t.1 t.2 hpos
        have hpage' : (b.puts t.1 t.2).system.dma.pages 0x81 = 0 := hpage
        obtain ⟨hordered', hagree'⟩ := ih (b := b.puts t.1 t.2) ts hordered hpage' hports
        exact ⟨hordered', (agree_outs hagree hpage hports).trans hagree'⟩

end Board

/-! ### Runs of calls -/

/-- The driver, and what it drives. -/
structure State where
  driver : Driver
  board : Board

namespace State

/-- After a call that leaves the driver as it is now. -/
def after (moves : ℕ → ℕ) (order : List Bool) (b : State) (driver : Driver) : State :=
  ⟨driver, b.board.play moves order (driver.outs.drop b.driver.outs.length)
    (driver.console.drop b.driver.console.length)⟩

/-- The disk, the memory and the channel. -/
def store (b : State) : Store := storeOf b.board.system

end State

/-- A call of the interface of the driver, or other code, which leaves the memory and `ScreenPos`. -/
inductive Call where
  | read (lba : BitVec 16)
  | write (lba : BitVec 16)
  | code (mem : Mem) (screenPos : Word)

/-- Two stores are the same beside the screen. -/
structure Store.Beside (st st' : Store) : Prop where
  disk : st'.disk = st.disk
  offset : st'.offset = st.offset
  mem : ∀ a, OffScreen a → st'.mem a = st.mem a

section Calls

variable (c : Controller) (moves : ℕ → ℕ)

/-- A step: a call returns, and the controllers have taken the bytes that it sent while its texts came on the
screen; other code prints as the driver does. -/
inductive CallStep : State → Call → State → Prop
  | read {b : State} {lba : BitVec 16} {driver : Driver} (order : List Bool)
      (h : Returns (readLBA c lba b.driver) driver) : CallStep b (.read lba) (b.after moves order driver)
  | write {b : State} {lba : BitVec 16} {driver : Driver} (order : List Bool)
      (h : Returns (writeLBA c lba b.driver) driver) : CallStep b (.write lba) (b.after moves order driver)
  | code (b : State) (mem : Mem) {screenPos : Word} (h : Video.Ordered screenPos) :
      CallStep b (.code mem screenPos)
        { b with board := ⟨{ b.board.system with mem := mem }, screenPos⟩ }

/-- How many bytes a call moves: there is such a sector, the drive gets to its cylinder soon, and goes on for
so long, at most to the end of the buffer. -/
def bytesMoved (b : State) (lba : BitVec 16) : ℕ :=
  if lba.toNat < 2880 ∧ Prompt c b.driver (lba2CHS (lba.setWidth 32)).1 then
    min (moves b.board.system.transfers) (512 - b.store.offset)
  else 0

/-- The disk, the memory and the channel that a call leaves. -/
def Call.store (b : State) : Call → Store
  | .read lba => b.store.transfer 1 lba.toNat (bytesMoved c moves b lba)
  | .write lba => b.store.transfer 0 lba.toNat (bytesMoved c moves b lba)
  | .code mem _ => { b.store with mem := mem }

/-- A transfer works: there is such a sector, the drive gets to its cylinder soon, and moves it whole. -/
def Works (b : State) (lba : BitVec 16) : Prop :=
  lba.toNat < 2880 ∧ Prompt c b.driver (lba2CHS (lba.setWidth 32)).1 ∧ 512 ≤ moves b.board.system.transfers

instance (b : State) (lba : BitVec 16) : Decidable (Works c moves b lba) := by
  unfold Works
  infer_instance

/-- What a call should leave: a whole sector read or written, or nothing. -/
def Call.sector (b : State) : Call → Store
  | .read lba => if Works c moves b lba then b.store.transfer 1 lba.toNat 512 else b.store
  | .write lba => if Works c moves b lba then b.store.transfer 0 lba.toNat 512 else b.store
  | .code mem _ => { b.store with mem := mem }

/-- Between two calls no command is incomplete, and the channel is programmed. -/
structure Idle (b : State) : Prop where
  drive : b.driver.drive = 0
  fifo : b.board.system.fifo = []
  confused : b.board.system.confused = false
  programmed : b.board.system.Programmed readWriteBuffer b.store.offset
  ordered : Video.Ordered b.board.screenPos

/-- After `FDC_Init`, which prints nothing: the controllers have taken the bytes that it sent. -/
def initState (s : Driver) (board : Board) : State :=
  ⟨s.fdcInit c, { board with system := board.system.outs moves ((s.fdcInit c).outs.drop s.outs.length) }⟩

end Calls

section Runs

variable {c : Controller} {moves : ℕ → ℕ} {b b' : State} {readWrite : Byte} {lba : BitVec 16}
  {driver : Driver}

theorem Idle.page (h : Idle b) : b.board.system.dma.pages 0x81 = 0 := (page_of_base h.programmed.base).1

/-- A call that does nothing. -/
theorem after_self (order : List Bool) : b.after moves order b.driver = b := by
  have hplay : b.board.play moves order [] [] = b.board := by
    induction order with
    | nil => rfl
    | cons port order ih => cases port <;> exact ih
  unfold State.after
  rw [List.drop_length, List.drop_length, hplay]

/-- The system after a call, beside the screen. -/
theorem beside_of_agree {d d' : FloppySystem} (h : FloppySystem.Agree OffScreen d d') :
    (storeOf d).Beside (storeOf d') := by
  refine ⟨?_, ?_, h.mem⟩
  · show d'.disk = d.disk
    rw [h.same]
  unfold storeOf FloppySystem.channel
  rw [h.dma]

/-- **A transfer** between idle states. -/
theorem Idle.transfer (h : Idle b) (hrw : readWrite = 0 ∨ readWrite = 1)
    (hret : Returns (transferLBA c readWrite lba b.driver) driver) (order : List Bool) :
    Idle (b.after moves order driver) ∧
      (lba.toNat < 2880 → (b.after moves order driver).board.system.transfers = b.board.system.transfers + 1) ∧
      (b.store.transfer readWrite lba.toNat (bytesMoved c moves b lba)).Beside
        (b.after moves order driver).store := by
  have hpage := h.page
  obtain ⟨hdrive, hfifo, hconfused, hprogrammed, hordered⟩ := h
  by_cases hlba : lba.toNat < 2880
  · obtain ⟨hc, hhd, hs, hnumber⟩ := lba2CHS_eq hlba
    have hcall : transferLBA c readWrite lba b.driver = readWriteGeneric c readWrite
        (lba2CHS (lba.setWidth 32)).1 (lba2CHS (lba.setWidth 32)).2.1 (lba2CHS (lba.setWidth 32)).2.2
        b.driver := by
      funext fuel
      exact if_neg (by omega)
    rw [hcall] at hret
    have hsends : Sends moves b.driver driver _ := sends_readWriteGeneric hrw hret
    obtain ⟨⟨es, hes, hports, hmove⟩, hkeep⟩ := hsends
    have hdrop : driver.outs.drop b.driver.outs.length = es := by
      rw [hes]
      exact List.drop_left
    obtain ⟨hd, hempty⟩ := hmove b.board.system hfifo
    obtain ⟨hprogrammed', hconfused', htransfers, hstore⟩ :=
      moveGeneric_store hrw hc hhd hs hdrive hprogrammed hd
    obtain ⟨hordered', hagree⟩ := play_agree moves order (driver.console.drop b.driver.console.length)
      hordered hpage hports
    have hmoved : bytesMoved c moves b lba = if Prompt c b.driver (lba2CHS (lba.setWidth 32)).1 then
        min (moves b.board.system.transfers) (512 - b.store.offset) else 0 := by
      unfold bytesMoved
      simp only [hlba, true_and]
    rw [← hmoved] at hprogrammed' hstore
    rw [hnumber] at hstore
    rw [← hd] at hempty
    unfold State.after
    rw [hdrop]
    generalize b.board.play moves order es (driver.console.drop b.driver.console.length) = board at *
    have hbeside := beside_of_agree hagree
    rw [hstore] at hbeside
    refine ⟨⟨hkeep.trans hdrive, ?_, ?_, ?_, hordered'⟩, fun _ => ?_, hbeside⟩
    · exact (congrArg FloppySystem.fifo hagree.same).trans hempty
    · exact (congrArg FloppySystem.confused hagree.same).trans (hconfused'.trans hconfused)
    · have hoffset : (storeOf board.system).offset = (b.store.offset + bytesMoved c moves b lba) % 512 :=
        hbeside.offset
      show board.system.Programmed readWriteBuffer (storeOf board.system).offset
      rw [hoffset]
      exact hprogrammed'.of_dma hagree.dma
    · exact (congrArg FloppySystem.transfers hagree.same).trans htransfers
  · have hcall : transferLBA c readWrite lba b.driver = fun _ => some b.driver := by
      funext fuel
      exact if_pos (by omega)
    rw [hcall] at hret
    obtain rfl : b.driver = driver := Option.some.inj ((settles_const _).unique hret)
    have hnone : bytesMoved c moves b lba = 0 := if_neg fun h => hlba h.1
    rw [hnone, Store.transfer_zero hprogrammed.within, after_self]
    exact ⟨⟨hdrive, hfifo, hconfused, hprogrammed, hordered⟩, fun h => absurd h hlba, rfl, rfl, fun _ _ => rfl⟩

/-- **One call.** -/
theorem Idle.step (h : Idle b) {call : Call} (hstep : CallStep c moves b call b') :
    Idle b' ∧ (call.store c moves b).Beside b'.store := by
  cases hstep with
  | read order hret =>
    obtain ⟨hidle, -, hstore⟩ := h.transfer (.inr rfl) hret order
    exact ⟨hidle, hstore⟩
  | write order hret =>
    obtain ⟨hidle, -, hstore⟩ := h.transfer (.inl rfl) hret order
    exact ⟨hidle, hstore⟩
  | code mem hpos =>
    obtain ⟨hdrive, hfifo, hconfused, hprogrammed, -⟩ := h
    exact ⟨⟨hdrive, hfifo, hconfused, hprogrammed.of_dma rfl, hpos⟩, rfl, rfl, fun _ _ => rfl⟩

/-- After `FDC_Init`, with the flip-flop and the page as the BIOS left them. -/
theorem idle_init {s : Driver} {board : Board} (hfifo : board.system.fifo = [])
    (hconfused : board.system.confused = false) (hflip : board.system.dma.first.flipFlop = false)
    (hpage : board.system.dma.pages 0x81 = 0) (hpos : Video.Ordered board.screenPos) :
    Idle (initState c moves s board) ∧ (initState c moves s board).store.offset = 0 ∧
      (initState c moves s board).board.system =
        { board.system with dma := initDma board.system.dma } := by
  have hsends : Sends moves { s with drive := 0, irqReceived := 0 } (s.fdcInit c)
      fun d => { d with dma := initDma d.dma } := sends_fdcInit
  obtain ⟨⟨es, hes, -, hinit⟩, hdrive⟩ := hsends
  have hdrop : (s.fdcInit c).outs.drop s.outs.length = es := by
    rw [hes]
    exact List.drop_left
  have hsystem : (initState c moves s board).board.system =
      { board.system with dma := initDma board.system.dma } := by
    unfold initState
    rw [hdrop]
    exact (hinit board.system hfifo).1
  have hprogrammed : (initState c moves s board).board.system.Programmed readWriteBuffer 0 := by
    rw [hsystem]
    exact programmed_initDma_iff.2 ⟨hflip, hpage⟩
  have hoffset : (initState c moves s board).store.offset = 0 := by
    have hcount := hprogrammed.count_toNat
    unfold State.store storeOf
    dsimp only
    omega
  refine ⟨⟨hdrive, ?_, ?_, hoffset.symm ▸ hprogrammed, hpos⟩, hoffset, hsystem⟩
  · rw [hsystem]
    exact hfifo
  · rw [hsystem]
    exact hconfused

/-- A controller that is always ready, and always on the cylinder 0. -/
def promptController : Controller := { stuckController with fifo := fun _ => 0 }

/-- Controllers that were reset, and a disk on which every byte is the low byte of its place. -/
def sampleSystem : FloppySystem where
  disk p := BitVec.ofNat 8 p
  mem _ := 0
  dma := ⟨⟨false, fun _ => ⟨0, 0, 0, 0, 0, true⟩⟩, ⟨false, fun _ => ⟨0, 0, 0, 0, 0, true⟩⟩, fun _ => 0⟩
  dor := 0
  fifo := []
  transfers := 0
  confused := false

/-- After `FDC_Init`, on an empty screen. -/
def sampleState (moves : ℕ → ℕ) : State :=
  initState promptController moves ⟨0, 0, [], [], 0, 0, 0⟩ ⟨sampleSystem, 0⟩

end Runs

end RedFox32.Old.FDC
