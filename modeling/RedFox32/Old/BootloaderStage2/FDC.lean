import RedFox32.Machine.Bytes
import RedFox32.Machine.Loop

/-!
The retries of the floppy driver.  `Seek` and `Calibrate` repeat a command until the controller reports the
cylinder that is asked for; they count the attempts in 16 bits, and when the count meets 500 they print a
message, reset the controller and go on.
-/

namespace RedFox32.Old.FDC

open RedFox32.Machine

/-! ### The controller and the driver -/

/-- What the controller answers: the bytes that reads of the main status register and of the FIFO give, one
after another, and the interrupts between two waits of the driver.  It is ready again and again, so that
every command is answered. -/
structure Controller where
  msr : ℕ → Byte
  fifo : ℕ → Byte
  irqs : ℕ → ℕ
  ready : ∀ n, ∃ k, n ≤ k ∧ msr k &&& 0x80 ≠ 0

/-- `REG_DOR` -/
def regDOR : BitVec 16 := 0x03F2
/-- `REG_FIFO` -/
def regFIFO : BitVec 16 := 0x03F5
/-- `REG_CCR` -/
def regCCR : BitVec 16 := 0x03F7

/-- `SPECIFY` -/
def specifyCommand : Byte := 3
/-- `RECALIBRATE` -/
def recalibrateCommand : Byte := 7
/-- `SENSE_INTERRUPT` -/
def senseInterruptCommand : Byte := 8
/-- `SEEK` -/
def seekCommand : Byte := 15

/-- `Drive` and `IRQReceived`, the texts on the screen with their colours, the bytes sent to ports, and how
many answers the controller has given: polls of the status, bytes of the FIFO, and waits. -/
structure Driver where
  drive : Byte
  irqReceived : Byte
  console : List (String × Byte)
  outs : List (BitVec 16 × Byte)
  polls : ℕ
  taken : ℕ
  waits : ℕ

namespace Driver

/-- `puts` -/
def puts (s : Driver) (text : String) (colour : Byte) : Driver :=
  { s with console := s.console ++ [(text, colour)] }

/-- `outb` -/
def outb (s : Driver) (port : BitVec 16) (value : Byte) : Driver :=
  { s with outs := s.outs ++ [(port, value)] }

/-- `WriteDOR` -/
def writeDOR (s : Driver) (value : Byte) : Driver := s.outb regDOR value

/-- `WriteCCR` -/
def writeCCR (s : Driver) (value : Byte) : Driver := s.outb regCCR value

/-- `MotorOn` -/
def motorOn (s : Driver) : Driver := s.writeDOR (8 ||| 4 ||| (0x10 : Byte) <<< s.drive)

/-- `MotorOff` -/
def motorOff (s : Driver) : Driver := s.writeDOR (8 ||| 4)

/-- `IRQHandler` -/
def irqHandler (s : Driver) : Driver := { s.puts "IRQ_REC\n" 0x0C with irqReceived := 1 }

variable (c : Controller)

/-- `while (!(ReadMSR() & MSR_RQM));` -/
def poll (s : Driver) : Driver := { s with polls := Nat.find (c.ready s.polls) + 1 }

/-- `WriteFIFO` -/
def writeFIFO (value : Byte) (s : Driver) : Driver := (s.poll c).outb regFIFO value

/-- `ReadFIFO`, with the byte that it reads. -/
def readFIFO (s : Driver) : Byte × Driver := (c.fifo s.taken, { s.poll c with taken := s.taken + 1 })

/-- `WaitIRQ`, after the interrupts since the last one; the `hlt` ends with an interrupt. -/
def waitIRQ (s : Driver) : Driver :=
  let s := (irqHandler^[c.irqs s.waits] s).puts "IRQ_WAIT\n" 0x0C
  let s := if s.irqReceived = 0 then s.irqHandler else s
  { s with irqReceived := 0, waits := s.waits + 1 }.puts "IRQ_REG\n" 0x0C

/-- `SenseInterrupt`, with `*st0` and `*cyl`. -/
def senseInterrupt (s : Driver) : Byte × Byte × Driver :=
  let (st0, s) := (s.writeFIFO c senseInterruptCommand).readFIFO c
  let (cyl, s) := s.readFIFO c
  (st0, cyl, s)

/-- `Specify` -/
def specify (stepRateTime headLoadTime headUnloadTime : Byte) (s : Driver) : Driver :=
  let s := s.writeFIFO c specifyCommand
  let s := s.writeFIFO c (stepRateTime <<< 4 ||| headUnloadTime)
  s.writeFIFO c (headLoadTime <<< 1 ||| 1)

/-- The body of the loop of `ResetController`. -/
def senseDrive (s : Driver) : Driver :=
  let (_, _, s) := s.senseInterrupt c
  let (_, s) := s.readFIFO c
  (s.readFIFO c).2

/-- `ResetController` -/
def resetController (s : Driver) : Driver :=
  let s := (s.writeDOR 0).writeDOR (4 ||| 8)
  let s := s.waitIRQ c
  let s := (senseDrive c)^[4] s
  (s.writeCCR 0).specify c 13 1 0xF

/-- `TimeoutPanic` -/
def timeoutPanic (s : Driver) : Driver :=
  (s.puts "[FDC] PANIC: Timeout! \n" 0x0C).resetController c

end Driver

/-! ### The loops -/

/-- The driver with the local variables `Timeout` and `cyl`. -/
structure Retry where
  driver : Driver
  timeout : BitVec 16
  cyl : Byte

section Loops

variable (c : Controller)

/-- The body of both loops, from the bytes of the command on. -/
def Retry.attempt (command : Driver → Driver) (r : Retry) : Retry :=
  let (_, cyl, s) := ((command r.driver).waitIRQ c).senseInterrupt c
  let s := if r.timeout = 500 then s.timeoutPanic c else s
  ⟨s, r.timeout + 1, cyl⟩

/-- The loop of `Seek` and of `Calibrate`. -/
def retry (command : Driver → Driver) (cylinder : Byte) (s : Driver) (fuel : ℕ) : Option Retry :=
  doWhile (Retry.attempt c command) (fun r => r.cyl != cylinder) fuel ⟨s, 0, 0⟩

/-- The bytes that `Seek` writes. -/
def writeSeek (cylinder head : Byte) (s : Driver) : Driver :=
  let s := s.writeFIFO c seekCommand
  let s := s.writeFIFO c (head <<< 2 ||| s.drive)
  s.writeFIFO c cylinder

/-- `Seek` -/
def seek (cylinder head : Byte) (s : Driver) : ℕ → Option Retry :=
  retry c (writeSeek c cylinder head) cylinder s

/-- The bytes that `Calibrate` writes. -/
def writeRecalibrate (s : Driver) : Driver :=
  let s := s.writeFIFO c recalibrateCommand
  s.writeFIFO c s.drive

/-- `Calibrate` -/
def calibrate (s : Driver) (fuel : ℕ) : Option Retry :=
  (retry c (writeRecalibrate c) 0 s.motorOn fuel).map fun r => { r with driver := r.driver.motorOff }

end Loops

/-! ### The commands among the bytes of the FIFO -/

/-- The bytes written to the FIFO so far. -/
def Driver.written (s : Driver) : List Byte := (s.outs.filter fun o => o.1 = regFIFO).map Prod.snd

/-- How many bytes of parameters follow the byte of a command. -/
def params (command : Byte) : ℕ :=
  if command = seekCommand ∨ command = specifyCommand then 2
  else if command = recalibrateCommand then 1 else 0

/-- The commands in the bytes that are written, when the first `pending` bytes are parameters. -/
def commands : ℕ → List Byte → List Byte
  | _, [] => []
  | 0, command :: bytes => command :: commands (params command) bytes
  | pending + 1, _ :: bytes => commands pending bytes

/-- The driver issues commands, each with all its parameters, and takes `n` bytes of answers. -/
structure Talks (s s' : Driver) (issued : List Byte) (n : ℕ) : Prop where
  bytes : ∃ bytes, s'.written = s.written ++ bytes ∧
    ∀ rest, commands 0 (bytes ++ rest) = issued ++ commands 0 rest
  taken : s'.taken = s.taken + n

section Talk

variable {c : Controller} {s s' s'' : Driver} {issued issued' : List Byte} {n n' : ℕ}

theorem Talks.quiet (hwritten : s'.written = s.written) (htaken : s'.taken = s.taken) :
    Talks s s' [] 0 :=
  ⟨⟨[], by simpa using hwritten, fun _ => rfl⟩, htaken⟩

theorem Talks.trans (h : Talks s s' issued n) (h' : Talks s' s'' issued' n') :
    Talks s s'' (issued ++ issued') (n + n') := by
  obtain ⟨bytes, hbytes, hissued⟩ := h.bytes
  obtain ⟨bytes', hbytes', hissued'⟩ := h'.bytes
  refine ⟨⟨bytes ++ bytes', ?_, fun rest => ?_⟩, ?_⟩
  · rw [hbytes', hbytes, List.append_assoc]
  · rw [List.append_assoc, hissued, hissued', List.append_assoc]
  · rw [h'.taken, h.taken, Nat.add_assoc]

/-- The commands that were issued are those among the bytes written since. -/
theorem Talks.commands_eq (h : Talks s s' issued n) :
    commands 0 (s'.written.drop s.written.length) = issued := by
  obtain ⟨bytes, hbytes, hissued⟩ := h.bytes
  have hnil := hissued []
  rw [hbytes, List.drop_left]
  simpa [commands] using hnil

@[simp] theorem written_puts (text : String) (colour : Byte) :
    (s.puts text colour).written = s.written := rfl

@[simp] theorem taken_puts (text : String) (colour : Byte) :
    (s.puts text colour).taken = s.taken := rfl

@[simp] theorem written_writeDOR (v : Byte) : (s.writeDOR v).written = s.written := by
  simp [Driver.written, Driver.writeDOR, Driver.outb, regDOR, regFIFO]

@[simp] theorem written_writeCCR (v : Byte) : (s.writeCCR v).written = s.written := by
  simp [Driver.written, Driver.writeCCR, Driver.outb, regCCR, regFIFO]

@[simp] theorem written_writeFIFO (v : Byte) : (s.writeFIFO c v).written = s.written ++ [v] := by
  simp [Driver.written, Driver.writeFIFO, Driver.poll, Driver.outb]

@[simp] theorem taken_writeFIFO (v : Byte) : (s.writeFIFO c v).taken = s.taken := rfl

@[simp] theorem written_readFIFO : (s.readFIFO c).2.written = s.written := rfl

@[simp] theorem taken_readFIFO : (s.readFIFO c).2.taken = s.taken + 1 := rfl

theorem irqHandler_talks (k : ℕ) : Talks s (Driver.irqHandler^[k] s) [] 0 := by
  induction k with
  | zero => exact .quiet rfl rfl
  | succ k ih =>
    rw [Function.iterate_succ_apply']
    have hlast : Talks (Driver.irqHandler^[k] s) (Driver.irqHandler^[k] s).irqHandler [] 0 :=
      .quiet rfl rfl
    exact ih.trans hlast

theorem waitIRQ_talks : Talks s (s.waitIRQ c) [] 0 := by
  have hwait : Talks (Driver.irqHandler^[c.irqs s.waits] s) (s.waitIRQ c) [] 0 := by
    unfold Driver.waitIRQ
    dsimp only
    split <;> exact .quiet rfl rfl
  exact (irqHandler_talks (c.irqs s.waits)).trans hwait

theorem senseInterrupt_talks : Talks s (s.senseInterrupt c).2.2 [senseInterruptCommand] 2 :=
  ⟨⟨[senseInterruptCommand], by simp [Driver.senseInterrupt], fun _ => rfl⟩,
    by simp [Driver.senseInterrupt]⟩

/-- The cylinder that is reported is the second byte of the answer. -/
theorem senseInterrupt_cyl : (s.senseInterrupt c).2.1 = c.fifo (s.taken + 1) := rfl

theorem readFIFO_talks : Talks s (s.readFIFO c).2 [] 1 :=
  ⟨⟨[], by simp, fun _ => rfl⟩, rfl⟩

theorem specify_talks (a b d : Byte) : Talks s (s.specify c a b d) [specifyCommand] 0 :=
  ⟨⟨[specifyCommand, a <<< 4 ||| d, b <<< 1 ||| 1], by simp [Driver.specify], fun _ => rfl⟩, rfl⟩

theorem senseDrive_talks : Talks s (s.senseDrive c) [senseInterruptCommand] 4 :=
  (senseInterrupt_talks.trans readFIFO_talks).trans readFIFO_talks

theorem writeSeek_talks (cylinder head : Byte) :
    Talks s (writeSeek c cylinder head s) [seekCommand] 0 :=
  ⟨⟨[seekCommand, head <<< 2 ||| s.drive, cylinder], by simp [writeSeek]; rfl, fun _ => rfl⟩, rfl⟩

theorem writeRecalibrate_talks : Talks s (writeRecalibrate c s) [recalibrateCommand] 0 :=
  ⟨⟨[recalibrateCommand, s.drive], by simp [writeRecalibrate]; rfl, fun _ => rfl⟩, rfl⟩

/-- The commands of a reset. -/
def resetCommands : List Byte := List.replicate 4 senseInterruptCommand ++ [specifyCommand]

theorem resetController_talks : Talks s (s.resetController c) resetCommands 16 := by
  have hdisabled : Talks s ((s.writeDOR 0).writeDOR (4 ||| 8)) [] 0 := .quiet (by simp) rfl
  have hwait := hdisabled.trans (waitIRQ_talks (c := c))
  have hsense : ∀ {s₀ : Driver}, Talks s₀ ((Driver.senseDrive c)^[4] s₀)
      (List.replicate 4 senseInterruptCommand) 16 := by
    intro s₀
    exact ((senseDrive_talks.trans senseDrive_talks).trans senseDrive_talks).trans senseDrive_talks
  have hccr : ∀ {s₀ : Driver}, Talks s₀ (s₀.writeCCR 0) [] 0 := .quiet (by simp) rfl
  exact ((hwait.trans hsense).trans hccr).trans (specify_talks 13 1 0xF)

theorem timeoutPanic_talks : Talks s (s.timeoutPanic c) resetCommands 16 :=
  (Talks.quiet (written_puts _ _) (taken_puts _ _)).trans resetController_talks

end Talk

/-! ### The attempts -/

section Attempts

variable {c : Controller} {command : Driver → Driver} {op : Byte}

/-- One attempt: the command and the question for its outcome, and a reset when the count meets 500. -/
theorem attempt_talks (hcommand : ∀ s, Talks s (command s) [op] 0) (r : Retry) :
    Talks r.driver (r.attempt c command).driver
      (op :: senseInterruptCommand :: if r.timeout = 500 then resetCommands else [])
      (2 + if r.timeout = 500 then 16 else 0) := by
  have hanswer := ((hcommand r.driver).trans (waitIRQ_talks (c := c))).trans
    (senseInterrupt_talks (c := c))
  unfold Retry.attempt
  dsimp only
  split
  · exact hanswer.trans timeoutPanic_talks
  · exact hanswer

/-- The cylinder that an attempt sees. -/
theorem attempt_cyl (hcommand : ∀ s, Talks s (command s) [op] 0) (r : Retry) :
    (r.attempt c command).cyl = c.fifo (r.driver.taken + 1) := by
  have hasked := (hcommand r.driver).trans (waitIRQ_talks (c := c))
  have hcyl : (r.attempt c command).cyl = (((command r.driver).waitIRQ c).senseInterrupt c).2.1 := rfl
  rw [hcyl, senseInterrupt_cyl, hasked.taken, Nat.add_zero]

/-- Every attempt issues one command. -/
theorem attempts_issue (hcommand : ∀ s, Talks s (command s) [op] 0) (hop : op ≠ senseInterruptCommand)
    (hreset : op ∉ resetCommands) (r : Retry) (n : ℕ) :
    ∃ issued m, Talks r.driver ((Retry.attempt c command)^[n] r).driver issued m ∧
      issued.count op = n := by
  induction n with
  | zero => exact ⟨[], 0, .quiet rfl rfl, rfl⟩
  | succ n ih =>
    obtain ⟨issued, m, htalk, hcount⟩ := ih
    rw [Function.iterate_succ_apply']
    refine ⟨_, _, htalk.trans (attempt_talks hcommand _), ?_⟩
    have hnone : (if ((Retry.attempt c command)^[n] r).timeout = 500 then resetCommands
        else []).count op = 0 := by
      split
      · exact List.count_eq_zero.2 hreset
      · rfl
    rw [List.count_append, hcount, List.count_cons_self, List.count_cons_of_ne hop.symm, hnone]

/-- Before the count meets 500, an attempt takes two bytes. -/
theorem attempts_early (hcommand : ∀ s, Talks s (command s) [op] 0) (s : Driver) {n : ℕ}
    (hn : n ≤ 500) : ((Retry.attempt c command)^[n] ⟨s, 0, 0⟩).timeout = BitVec.ofNat 16 n ∧
      ((Retry.attempt c command)^[n] ⟨s, 0, 0⟩).driver.taken = s.taken + 2 * n := by
  induction n with
  | zero => exact ⟨rfl, rfl⟩
  | succ n ih =>
    obtain ⟨htimeout, htaken⟩ := ih (by omega)
    have hcounting : ((Retry.attempt c command)^[n] ⟨s, 0, 0⟩).timeout ≠ 500 := by
      rw [htimeout]
      bv_omega
    rw [Function.iterate_succ_apply']
    constructor
    · show _ + 1 = _
      rw [htimeout, BitVec.ofNat_add]
      rfl
    · rw [(attempt_talks hcommand _).taken, if_neg hcounting, htaken]
      omega

/-- The cylinder that the controller reports after the attempt `k`, as long as it has not been reset. -/
def Controller.reported (c : Controller) (s : Driver) (k : ℕ) : Byte := c.fifo (s.taken + 2 * k + 1)

theorem attempts_cyl (hcommand : ∀ s, Talks s (command s) [op] 0) (s : Driver) {k : ℕ} (hk : k ≤ 500) :
    ((Retry.attempt c command)^[k + 1] ⟨s, 0, 0⟩).cyl = c.reported s k := by
  rw [Function.iterate_succ_apply', attempt_cyl hcommand, (attempts_early hcommand s hk).2]
  rfl

/-- **The function gives up**: it returns, it has issued the command at most 501 times, and the cylinder
that was reported last is the one that was asked for. -/
def GivesUp (run : ℕ → Option Retry) (op cylinder : Byte) (s : Driver) : Prop :=
  ∃ r, Returns run r ∧ (commands 0 (r.driver.written.drop s.written.length)).count op ≤ 501 ∧
    r.cyl = cylinder

/-- **The loop gives up** exactly when one of the first 501 reports is the cylinder that is asked for. -/
theorem retry_givesUp_iff (hcommand : ∀ s, Talks s (command s) [op] 0)
    (hop : op ≠ senseInterruptCommand) (hreset : op ∉ resetCommands) (cylinder : Byte) (s : Driver) :
    GivesUp (retry c command cylinder s) op cylinder s ↔ ∃ k ≤ 500, c.reported s k = cylinder := by
  have hissued : ∀ n, (commands 0 (((Retry.attempt c command)^[n] ⟨s, 0, 0⟩).driver.written.drop
      s.written.length)).count op = n := by
    intro n
    obtain ⟨issued, m, htalk, hcount⟩ := attempts_issue (c := c) hcommand hop hreset ⟨s, 0, 0⟩ n
    rw [htalk.commands_eq, hcount]
  constructor
  · rintro ⟨r, hret, hfew, hcyl⟩
    obtain ⟨n, -, -, rfl⟩ := doWhile_returns_iff.1 hret
    rw [hissued] at hfew
    refine ⟨n, by omega, ?_⟩
    rw [← attempts_cyl hcommand s (by omega)]
    exact hcyl
  · intro hreported
    -- the first report of the cylinder ends the loop
    obtain ⟨hk, hfirst⟩ := Nat.find_spec hreported
    have hearlier := fun k => Nat.find_min hreported (m := k)
    refine ⟨_, doWhile_returns_iff.2 ⟨Nat.find hreported, fun k hlt => ?_, ?_, rfl⟩, ?_, ?_⟩
    · rw [attempts_cyl hcommand s (by omega), bne_iff_ne]
      exact fun heq => hearlier k hlt ⟨by omega, heq⟩
    · rw [attempts_cyl hcommand s hk, hfirst]
      simp
    · rw [hissued]
      omega
    · rw [attempts_cyl hcommand s hk, hfirst]

end Attempts

/-! ### The two functions -/

section Functions

variable (c : Controller) (s : Driver)

/-- The motor is switched by a port that is not the FIFO. -/
theorem calibrate_givesUp : GivesUp (calibrate c s) recalibrateCommand 0 s ↔
    GivesUp (retry c (writeRecalibrate c) 0 s.motorOn) recalibrateCommand 0 s.motorOn := by
  obtain ⟨r, hr⟩ := doWhile_settles (Retry.attempt c (writeRecalibrate c)) (fun r => r.cyl != 0)
    ⟨s.motorOn, 0, 0⟩
  have hon : s.motorOn.written = s.written := written_writeDOR _
  have hoff : ∀ s : Driver, s.motorOff.written = s.written := fun s => written_writeDOR _
  constructor
  · rintro ⟨r', hret, hfew, hcyl⟩
    obtain ⟨a, ha, rfl⟩ := (returns_map_iff hr).1 hret
    refine ⟨a, ha, ?_, hcyl⟩
    rw [hon]
    rwa [hoff a.driver] at hfew
  · rintro ⟨a, ha, hfew, hcyl⟩
    refine ⟨_, (returns_map_iff hr).2 ⟨a, ha, rfl⟩, ?_, hcyl⟩
    rw [hon] at hfew
    rwa [hoff a.driver]

/-- **Which reports make the functions give up**: those with the cylinder that is asked for among the
first 501. -/
theorem givesUp_iff :
    (∀ cylinder head, GivesUp (seek c cylinder head s) seekCommand cylinder s ↔
      ∃ k ≤ 500, c.reported s k = cylinder) ∧
    (GivesUp (calibrate c s) recalibrateCommand 0 s ↔ ∃ k ≤ 500, c.reported s k = 0) := by
  constructor
  · intro cylinder head
    exact retry_givesUp_iff (fun s => writeSeek_talks cylinder head) (by decide) (by decide) cylinder s
  · rw [calibrate_givesUp]
    exact retry_givesUp_iff (fun s => writeRecalibrate_talks) (by decide) (by decide) 0 s.motorOn

end Functions

/-- A controller that is always ready, and reports the cylinder 1 whatever it is asked for. -/
def stuckController : Controller where
  msr _ := 0x80
  fifo _ := 1
  irqs _ := 0
  ready n := ⟨n, le_rfl, by decide⟩

/-- With such a controller a seek to the cylinder 0 never returns. -/
theorem stuck_seek_never_returns :
    ¬ ∃ r, Returns (seek stuckController 0 0 ⟨0, 0, [], [], 0, 0, 0⟩) r := by
  rintro ⟨r, hret⟩
  obtain ⟨n, -, hend, -⟩ := doWhile_returns_iff.1 hret
  rw [Function.iterate_succ_apply', attempt_cyl fun s => writeSeek_talks 0 0] at hend
  change ((1 : Byte) != 0) = false at hend
  exact absurd hend (by decide)

end RedFox32.Old.FDC
