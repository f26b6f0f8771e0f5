import Mathlib.Logic.Function.Basic
import RedFox32.Machine.Bytes

/-!
A floppy disk of 1440 KiB behind an 82077 controller, and the two 8237 controllers of direct memory access
through which it moves sectors.  The floppy controller collects the bytes of a command and carries it out
when it has all the parameters; how many bytes a transfer moves before the drive gives up is a parameter.
-/

namespace RedFox32.Machine

/-! ### Direct memory access -/

/-- A channel: the address and the count that were written to it, where it stands, and its mode.  The count
is one less than the number of bytes. -/
structure DmaChannel where
  baseAddress : BitVec 16
  baseCount : BitVec 16
  address : BitVec 16
  count : BitVec 16
  mode : Byte
  masked : Bool

/-- One controller.  The flip-flop says that the high byte of a register comes next. -/
structure Dma8237 where
  flipFlop : Bool
  channels : BitVec 2 → DmaChannel

/-- A byte written to one half of a register. -/
def putHalf (high : Bool) (x : BitVec 16) (v : Byte) : BitVec 16 :=
  if high then v ++ x.extractLsb' 0 8 else x.extractLsb' 8 8 ++ v

/-- **Two bytes** fill a register: they come in the order low, high, unless the flip-flop is set. -/
theorem putHalf_putHalf (high : Bool) (x : BitVec 16) (v w : Byte) :
    putHalf (!high) (putHalf high x v) w = if high then v ++ w else w ++ v := by
  cases high
  · show w ++ (x.extractLsb' 8 8 ++ v).extractLsb' 0 8 = w ++ v
    rw [BitVec.extractLsb'_append_eq_right]
  · show (v ++ x.extractLsb' 0 8).extractLsb' 8 8 ++ w = v ++ w
    rw [BitVec.extractLsb'_append_eq_left]

namespace DmaChannel

variable (ch : DmaChannel)

/-- A byte written to the address. -/
def putAddress (high : Bool) (v : Byte) : DmaChannel :=
  { ch with baseAddress := putHalf high ch.baseAddress v, address := putHalf high ch.address v }

/-- A byte written to the count. -/
def putCount (high : Bool) (v : Byte) : DmaChannel :=
  { ch with baseCount := putHalf high ch.baseCount v, count := putHalf high ch.count v }

/-- The address of the `i`-th byte from here. -/
def place (i : ℕ) : BitVec 16 :=
  if ch.mode.getLsbD 5 then ch.address - BitVec.ofNat 16 i else ch.address + BitVec.ofNat 16 i

/-- The channel after `n` bytes.  At the end of the count it starts again, or it is masked. -/
def advance (n : ℕ) : DmaChannel :=
  if n = ch.count.toNat + 1 then
    if ch.mode.getLsbD 4 then { ch with address := ch.baseAddress, count := ch.baseCount }
    else { ch with address := ch.place n, count := ch.count - BitVec.ofNat 16 n, masked := true }
  else { ch with address := ch.place n, count := ch.count - BitVec.ofNat 16 n }

end DmaChannel

namespace Dma8237

variable (c : Dma8237)

/-- A channel is changed. -/
def onChannel (i : BitVec 2) (f : DmaChannel → DmaChannel) : Dma8237 :=
  { c with channels := Function.update c.channels i (f (c.channels i)) }

/-- A byte written to one of the sixteen registers.  The command register and requests by software are not
followed. -/
def out (reg : BitVec 4) (v : Byte) : Dma8237 :=
  if reg < 8 then
    let c' := c.onChannel (reg.extractLsb' 1 2) fun ch =>
      if reg.getLsbD 0 then ch.putCount c.flipFlop v else ch.putAddress c.flipFlop v
    { c' with flipFlop := !c.flipFlop }
  else if reg = 10 then c.onChannel (v.extractLsb' 0 2) fun ch => { ch with masked := v.getLsbD 2 }
  else if reg = 11 then c.onChannel (v.extractLsb' 0 2) fun ch => { ch with mode := v }
  else if reg = 12 then { c with flipFlop := false }
  else if reg = 13 then
    { flipFlop := false, channels := fun i => { c.channels i with masked := true } }
  else if reg = 14 then { c with channels := fun i => { c.channels i with masked := false } }
  else if reg = 15 then { c with channels := fun i => { c.channels i with masked := v.getLsbD i.toNat } }
  else c

variable {c} {i : BitVec 2} {f g : DmaChannel → DmaChannel}

theorem onChannel_onChannel : (c.onChannel i f).onChannel i g = c.onChannel i fun ch => g (f ch) := by
  unfold onChannel
  simp

/-- A mode that is written to the channel 2 while it is masked. -/
theorem out_mode {mode : Byte} (hmode : mode.extractLsb' 0 2 = 2) :
    ((c.out 10 0x06).out 11 mode).out 10 0x02 =
      c.onChannel 2 fun ch => { ch with mode := mode, masked := false } := by
  have hmask : ∀ c : Dma8237, c.out 10 0x06 = c.onChannel 2 fun ch => { ch with masked := true } :=
    fun c => rfl
  have hclear : ∀ c : Dma8237, c.out 10 0x02 = c.onChannel 2 fun ch => { ch with masked := false } :=
    fun c => rfl
  have hset : ∀ c : Dma8237, c.out 11 mode =
      c.onChannel (mode.extractLsb' 0 2) fun ch => { ch with mode := mode } := fun c => rfl
  rw [hmask, hset, hclear, hmode, onChannel_onChannel, onChannel_onChannel]

end Dma8237

/-- The two controllers, and the page registers by their ports. -/
structure DmaPair where
  first : Dma8237
  second : Dma8237
  pages : BitVec 16 → Byte

/-- A byte written to a port: the second controller has every other port. -/
def DmaPair.out (p : DmaPair) (port : BitVec 16) (v : Byte) : DmaPair :=
  if port < 0x10 then { p with first := p.first.out (port.extractLsb' 0 4) v }
  else if 0x80 ≤ port ∧ port < 0x90 then { p with pages := Function.update p.pages port v }
  else if 0xC0 ≤ port ∧ port < 0xE0 then { p with second := p.second.out (port.extractLsb' 1 4) v }
  else p

/-! ### The disk and its controller -/

/-- The number of the sector `s` under the head `h` of the cylinder `c`. -/
def sectorNumber (c h s : ℕ) : ℕ := (c * 2 + h) * 18 + (s - 1)

/-- The number of the bytes that follow the byte of a command. -/
def floppyParameters (command : Byte) : ℕ :=
  match (command &&& 0x1F).toNat with
  | 2 | 5 | 6 | 9 | 12 | 17 | 22 | 25 | 29 => 8
  | 13 => 5
  | 19 => 3
  | 3 | 15 => 2
  | 4 | 7 | 10 | 18 => 1
  | _ => 0

/-- The disk, the memory and the controllers; of the floppy controller the digital output register, the bytes
of a command that still lacks parameters, and how many transfers there were.  It is confused when it was told
to move data against the mode of its channel. -/
structure FloppySystem where
  disk : ℕ → Byte
  mem : Mem
  dma : DmaPair
  dor : Byte
  fifo : List Byte
  transfers : ℕ
  confused : Bool

namespace FloppySystem

variable (d : FloppySystem)

/-- The channel of the floppy controller. -/
def channel : DmaChannel := d.dma.first.channels 2

/-- The address in the memory of the `i`-th byte of a transfer. -/
def address (i : ℕ) : Word := ((0 : Byte) ++ d.dma.pages 0x81) ++ d.channel.place i

/-- The motor of the drive runs. -/
def motor (drive : Byte) : Bool := d.dor.getLsbD (4 + (drive &&& 3).toNat)

/-- The number of bytes that a transfer moves: none without the motor or through a masked channel, and at
most up to the end of the count. -/
def moved (moves : ℕ → ℕ) (drive : Byte) : ℕ :=
  if d.motor drive ∧ d.channel.masked = false then min (moves d.transfers) (d.channel.count.toNat + 1)
  else 0

/-- The channel advances. -/
def advance (n : ℕ) : FloppySystem :=
  { d with
    dma := { d.dma with first := d.dma.first.onChannel 2 fun ch => ch.advance n }
    transfers := d.transfers + 1 }

/-- From the sector `lba` on into the memory. -/
def readSectors (lba n : ℕ) : FloppySystem :=
  { d.advance n with
    mem := (List.range n).foldl (fun m i => Function.update m (d.address i) (d.disk (512 * lba + i))) d.mem }

/-- From the memory to the sector `lba` and what follows. -/
def writeSectors (lba n : ℕ) : FloppySystem :=
  { d.advance n with
    disk := (List.range n).foldl (fun m i => Function.update m (512 * lba + i) (d.mem (d.address i))) d.disk }

/-- A command with its parameters.  Of the commands that move data those of plain sectors are followed, on
disks of this size; the others leave the data alone. -/
def execute (moves : ℕ → ℕ) : List Byte → FloppySystem
  | [command, unit, c, h, s, size, _, _, _] =>
    let lba := sectorNumber c.toNat h.toNat s.toNat
    let there := c.toNat < 80 ∧ h.toNat < 2 ∧ 1 ≤ s.toNat ∧ s.toNat ≤ 18 ∧ size = 2
    let n := if there then d.moved moves unit else 0
    if command &&& 0x1F = 6 then
      if d.channel.mode &&& 0x0C = 0x04 then d.readSectors lba n else { d with confused := true }
    else if command &&& 0x1F = 5 then
      if d.channel.mode &&& 0x0C = 0x08 then d.writeSectors lba n else { d with confused := true }
    else d
  | _ => d

/-- A byte written to the FIFO. -/
def outFifo (moves : ℕ → ℕ) (v : Byte) : FloppySystem :=
  match d.fifo ++ [v] with
  | [] => d
  | command :: ps =>
    if ps.length < floppyParameters command then { d with fifo := command :: ps }
    else { d with fifo := [] }.execute moves (command :: ps)

/-- A byte written to a port. -/
def out (moves : ℕ → ℕ) (port : BitVec 16) (v : Byte) : FloppySystem :=
  if port = 0x3F5 then d.outFifo moves v
  else if port = 0x3F2 then
    { d with dor := v, fifo := if v.getLsbD 2 then d.fifo else [] }
  else { d with dma := d.dma.out port v }

/-- Bytes written one after another. -/
def outs (moves : ℕ → ℕ) (es : List (BitVec 16 × Byte)) : FloppySystem :=
  es.foldl (fun d e => d.out moves e.1 e.2) d

variable {d : FloppySystem} {moves : ℕ → ℕ}

theorem outs_append (es es' : List (BitVec 16 × Byte)) :
    d.outs moves (es ++ es') = (d.outs moves es).outs moves es' := List.foldl_append

/-- Bytes for the controllers of the direct memory access. -/
theorem outs_dma {es : List (BitVec 16 × Byte)} (hes : ∀ e ∈ es, e.1 ≠ 0x3F5 ∧ e.1 ≠ 0x3F2) :
    d.outs moves es = { d with dma := es.foldl (fun p e => p.out e.1 e.2) d.dma } := by
  induction es generalizing d with
  | nil => rfl
  | cons e es ih =>
    obtain ⟨hfifo, hdor⟩ := hes e List.mem_cons_self
    have hfirst : d.out moves e.1 e.2 = { d with dma := d.dma.out e.1 e.2 } := by
      unfold out
      rw [if_neg hfifo, if_neg hdor]
    show (d.out moves e.1 e.2).outs moves es = _
    rw [hfirst, ih fun e he => hes e (List.mem_cons_of_mem _ he)]
    rfl

/-! ### The bytes of a command -/

/-- The bytes written to the FIFO. -/
def fifoBytes (bytes : List Byte) : List (BitVec 16 × Byte) := bytes.map fun v => (0x3F5, v)

variable {command v : Byte} {qs : List Byte}

theorem outs_fifo_cons (bytes : List Byte) :
    d.outs moves (fifoBytes (v :: bytes)) = (d.outFifo moves v).outs moves (fifoBytes bytes) := rfl

/-- A parameter that is not the last one. -/
theorem outFifo_more (hfifo : d.fifo = command :: qs) (hmore : qs.length + 1 < floppyParameters command) :
    d.outFifo moves v = { d with fifo := command :: (qs ++ [v]) } := by
  unfold outFifo
  rw [hfifo]
  exact if_pos (by simpa using hmore)

/-- The last parameter. -/
theorem outFifo_last (hfifo : d.fifo = command :: qs) (hlast : qs.length + 1 = floppyParameters command) :
    d.outFifo moves v = { d with fifo := [] }.execute moves (command :: (qs ++ [v])) := by
  unfold outFifo
  rw [hfifo]
  exact if_neg (by simp [hlast])

theorem outs_parameters {ps : List Byte} (hps : ps ≠ [])
    (hlen : qs.length + ps.length = floppyParameters command) (hfifo : d.fifo = command :: qs) :
    d.outs moves (fifoBytes ps) = { d with fifo := [] }.execute moves (command :: (qs ++ ps)) := by
  induction ps generalizing qs d with
  | nil => exact absurd rfl hps
  | cons v ps ih =>
    rw [List.length_cons] at hlen
    rw [outs_fifo_cons]
    by_cases hnil : ps = []
    · subst hnil
      rw [outFifo_last hfifo (by simpa using hlen)]
      rfl
    · have hpos : 0 < ps.length := List.length_pos_of_ne_nil hnil
      rw [outFifo_more hfifo (by omega), ih hnil (by simp; omega) rfl, List.append_assoc]
      rfl

/-- **A command with all its parameters** is carried out. -/
theorem outs_command {ps : List Byte} (hlen : ps.length = floppyParameters command) (hfifo : d.fifo = []) :
    d.outs moves (fifoBytes (command :: ps)) = d.execute moves (command :: ps) := by
  have hsame : { d with fifo := [] } = d := by
    rw [← hfifo]
  have hfirst : d.outFifo moves command =
      if 0 < floppyParameters command then { d with fifo := [command] }
      else { d with fifo := [] }.execute moves [command] := by
    unfold outFifo
    rw [hfifo]
    rfl
  rw [outs_fifo_cons, hfirst]
  by_cases hnil : ps = []
  · subst hnil
    rw [if_neg (by simp [← hlen]), hsame]
    rfl
  · have hpos : 0 < ps.length := List.length_pos_of_ne_nil hnil
    rw [if_pos (by omega), outs_parameters hnil (by simpa using hlen) rfl, List.nil_append]
    exact congrArg (fun d => d.execute moves (command :: ps)) hsame

/-- The commands that move no data. -/
theorem execute_of_length {bytes : List Byte} (h : bytes.length ≠ 9) : d.execute moves bytes = d := by
  unfold execute
  split
  · simp at h
  · rfl

/-! ### A channel for one sector -/

/-- The channel has the address and the count of one sector at `a`, and stands `k` bytes behind its begin. -/
structure Programmed (d : FloppySystem) (a : Word) (k : ℕ) : Prop where
  baseCount : d.channel.baseCount = 511
  address : d.channel.address = d.channel.baseAddress + BitVec.ofNat 16 k
  count : d.channel.count = 511 - BitVec.ofNat 16 k
  within : k < 512
  masked : d.channel.masked = false
  base : ((0 : Byte) ++ d.dma.pages 0x81) ++ d.channel.baseAddress = a
  room : d.channel.baseAddress.toNat + 512 ≤ 2 ^ 16

/-- **The channel is set up** for one sector at `a`, upwards and over and over again. -/
structure SetUp (d : FloppySystem) (a : Word) (k : ℕ) : Prop extends d.Programmed a k where
  again : d.channel.mode.getLsbD 4 = true
  upwards : d.channel.mode.getLsbD 5 = false

variable {a : Word} {k n : ℕ}

theorem Programmed.count_toNat (h : d.Programmed a k) : d.channel.count.toNat = 511 - k := by
  have hk := h.within
  rw [h.count]
  bv_omega

theorem toNat_append_word (x y : BitVec 16) : (x ++ y).toNat = x.toNat * 65536 + y.toNat := by
  rw [BitVec.toNat_append, ← Nat.shiftLeft_add_eq_or_of_lt y.isLt, Nat.shiftLeft_eq]

/-- An address goes up below its page. -/
theorem append_add (x y : BitVec 16) {i : ℕ} (hi : y.toNat + i < 2 ^ 16) :
    x ++ (y + BitVec.ofNat 16 i) = (x ++ y : Word) + BitVec.ofNat 32 i := by
  apply BitVec.eq_of_toNat_eq
  have hx := x.isLt
  have hsum : (y + BitVec.ofNat 16 i).toNat = y.toNat + i := by
    rw [BitVec.toNat_add, BitVec.toNat_ofNat]
    omega
  rw [BitVec.toNat_add, BitVec.toNat_ofNat, toNat_append_word, toNat_append_word, hsum]
  omega

/-- The bytes of a transfer follow those that the channel has moved. -/
theorem SetUp.address_eq (h : d.SetUp a k) {i : ℕ} (hi : k + i < 512) :
    d.address i = a + BitVec.ofNat 32 k + BitVec.ofNat 32 i := by
  have hroom := h.room
  have hplace : d.channel.place i = d.channel.baseAddress + BitVec.ofNat 16 (k + i) := by
    unfold DmaChannel.place
    rw [h.upwards, h.address, BitVec.add_assoc, ← BitVec.ofNat_add]
    rfl
  unfold FloppySystem.address
  rw [hplace, append_add _ _ (by omega), h.base, BitVec.ofNat_add, ← BitVec.add_assoc]

theorem channel_advance : (d.advance n).channel = d.channel.advance n := by
  unfold advance Dma8237.onChannel channel
  dsimp only
  rw [Function.update_self]

/-- **The channel advances**, and at the end of a sector it starts again. -/
theorem SetUp.advance (h : d.SetUp a k) (hn : n ≤ 512 - k) : (d.advance n).SetUp a ((k + n) % 512) := by
  have hk := h.within
  have hcount := h.count_toNat
  obtain ⟨⟨hbaseCount, haddress, hleft, -, hmasked, hbase, hroom⟩, hagain, hupwards⟩ := h
  have hpages : (d.advance n).dma.pages = d.dma.pages := rfl
  have hend : n = d.channel.count.toNat + 1 ↔ (k + n) % 512 = 0 ∧ n ≠ 0 := by omega
  have hplace : d.channel.place n = d.channel.baseAddress + BitVec.ofNat 16 (k + n) := by
    unfold DmaChannel.place
    rw [hupwards, haddress, BitVec.add_assoc, ← BitVec.ofNat_add]
    rfl
  have hsame : (d.advance n).channel.baseCount = d.channel.baseCount ∧
      (d.advance n).channel.baseAddress = d.channel.baseAddress ∧
      (d.advance n).channel.mode = d.channel.mode ∧ (d.advance n).channel.masked = d.channel.masked := by
    rw [channel_advance]
    unfold DmaChannel.advance
    rw [if_pos hagain]
    split_ifs
    · exact ⟨rfl, rfl, rfl, rfl⟩
    · exact ⟨rfl, rfl, rfl, rfl⟩
  obtain ⟨h1, h2, h3, h4⟩ := hsame
  have hstands : (d.advance n).channel.address = d.channel.baseAddress + BitVec.ofNat 16 ((k + n) % 512) ∧
      (d.advance n).channel.count = 511 - BitVec.ofNat 16 ((k + n) % 512) := by
    rw [channel_advance]
    unfold DmaChannel.advance
    rw [if_pos hagain]
    split_ifs with hlast
    · rw [(hend.1 hlast).1]
      exact ⟨(BitVec.add_zero _).symm, hbaseCount⟩
    · have hlt : (k + n) % 512 = k + n := Nat.mod_eq_of_lt (by omega)
      rw [hlt]
      refine ⟨hplace, ?_⟩
      dsimp only
      rw [hleft, BitVec.ofNat_add, BitVec.sub_sub]
  refine ⟨⟨h1.trans hbaseCount, ?_, hstands.2, Nat.mod_lt _ (by decide), h4.trans hmasked, ?_, ?_⟩, ?_, ?_⟩
  · rw [h2]
    exact hstands.1
  · rw [hpages, h2]
    exact hbase
  · rw [h2]
    exact hroom
  · rw [h3]
    exact hagain
  · rw [h3]
    exact hupwards

/-- The memory with the first `n` bytes of a sector of the disk at `a`. -/
def loadBytes (disk : ℕ → Byte) (lba n : ℕ) (m : Mem) (a : Word) : Mem := fun b =>
  if (b - a).toNat < n then disk (512 * lba + (b - a).toNat) else m b

/-- The disk with the `n` bytes from `a` at the begin of a sector. -/
def storeBytes (m : Mem) (a : Word) (disk : ℕ → Byte) (lba n : ℕ) : ℕ → Byte := fun p =>
  if 512 * lba ≤ p ∧ p < 512 * lba + n then m (a + BitVec.ofNat 32 (p - 512 * lba)) else disk p

theorem loadBytes_zero (disk : ℕ → Byte) (lba : ℕ) (m : Mem) (a : Word) : loadBytes disk lba 0 m a = m := by
  funext b
  exact if_neg (Nat.not_lt_zero _)

theorem storeBytes_zero (m : Mem) (a : Word) (disk : ℕ → Byte) (lba : ℕ) :
    storeBytes m a disk lba 0 = disk := by
  funext p
  exact if_neg (by omega)

/-- **Some bytes** into the memory. -/
theorem SetUp.readSectors (h : d.SetUp a k) (lba : ℕ) (hn : n ≤ 512 - k) : d.readSectors lba n =
    { d.advance n with mem := loadBytes d.disk lba n d.mem (a + BitVec.ofNat 32 k) } := by
  have hk := h.within
  have hmem : (List.range n).foldl
      (fun m i => Function.update m (d.address i) (d.disk (512 * lba + i))) d.mem =
        loadBytes d.disk lba n d.mem (a + BitVec.ofNat 32 k) := by
    funext b
    unfold loadBytes
    split_ifs with hin
    · refine copy_same ⟨(b - (a + BitVec.ofNat 32 k)).toNat, List.mem_range.2 hin, ?_⟩ fun i hi heq => ?_
      · rw [h.address_eq (by omega)]
        bv_omega
      · have hi := List.mem_range.1 hi
        rw [h.address_eq (by omega)] at heq
        rw [← heq]
        congr 2
        bv_omega
    · refine copy_outside fun i hi heq => hin ?_
      have hi := List.mem_range.1 hi
      rw [h.address_eq (by omega)] at heq
      bv_omega
  unfold FloppySystem.readSectors
  rw [hmem]

/-- **Some bytes** from the memory. -/
theorem SetUp.writeSectors (h : d.SetUp a k) (lba : ℕ) (hn : n ≤ 512 - k) : d.writeSectors lba n =
    { d.advance n with disk := storeBytes d.mem (a + BitVec.ofNat 32 k) d.disk lba n } := by
  have hk := h.within
  have hdisk : (List.range n).foldl
      (fun m i => Function.update m (512 * lba + i) (d.mem (d.address i))) d.disk =
        storeBytes d.mem (a + BitVec.ofNat 32 k) d.disk lba n := by
    funext p
    unfold storeBytes
    split_ifs with hin
    · obtain ⟨hle, hlt⟩ := hin
      refine copy_same ⟨p - 512 * lba, List.mem_range.2 (by omega), by omega⟩ fun i hi heq => ?_
      have hi := List.mem_range.1 hi
      rw [h.address_eq (by omega), show i = p - 512 * lba by omega]
    · refine copy_outside fun i hi heq => hin ?_
      have hi := List.mem_range.1 hi
      omega
  unfold FloppySystem.writeSectors
  rw [hdisk]

/-- The channel takes a mode, and its mask is cleared. -/
def setMode (mode : Byte) (d : FloppySystem) : FloppySystem :=
  { d with
    dma := { d.dma with
      first := d.dma.first.onChannel 2 fun ch => { ch with mode := mode, masked := false } } }

theorem channel_setMode (mode : Byte) :
    (d.setMode mode).channel = { d.channel with mode := mode, masked := false } := by
  unfold setMode Dma8237.onChannel FloppySystem.channel
  dsimp only
  rw [Function.update_self]

/-- The modes of a channel that moves sectors upwards, over and over again. -/
theorem Programmed.setMode (h : d.Programmed a k) {mode : Byte} (hagain : mode.getLsbD 4 = true)
    (hupwards : mode.getLsbD 5 = false) : (d.setMode mode).SetUp a k := by
  have hchannel := d.channel_setMode mode
  refine ⟨⟨?_, ?_, ?_, h.within, ?_, ?_, ?_⟩, ?_, ?_⟩
  all_goals rw [hchannel]
  · exact h.baseCount
  · exact h.address
  · exact h.count
  · exact h.base
  · exact h.room
  · exact hagain
  · exact hupwards

/-- Only the direct memory access counts. -/
theorem Programmed.of_dma {d' : FloppySystem} (h : d.Programmed a k) (hdma : d'.dma = d.dma) :
    d'.Programmed a k := by
  obtain ⟨h1, h2, h3, h4, h5, h6, h7⟩ := h
  unfold FloppySystem.channel at *
  rw [← hdma] at h1 h2 h3 h5 h6 h7
  exact ⟨h1, h2, h3, h4, h5, h6, h7⟩

/-- The number of bytes that move goes at most up to the end of the sector. -/
theorem SetUp.moved (h : d.SetUp a k) (drive : Byte) : d.moved moves drive =
    if d.motor drive then min (moves d.transfers) (512 - k) else 0 := by
  have hk := h.within
  have hroom : d.channel.count.toNat + 1 = 512 - k := by
    rw [h.count_toNat]
    omega
  unfold FloppySystem.moved
  rw [hroom, h.masked]
  simp only [and_true]

theorem SetUp.moved_le (h : d.SetUp a k) (drive : Byte) : d.moved moves drive ≤ 512 - k := by
  rw [h.moved]
  split_ifs
  · exact min_le_right _ _
  · exact Nat.zero_le _

section Execute

variable {command drive c hd s e g l : Byte}

/-- **`READ DATA`** of a sector. -/
theorem SetUp.execute_read (h : d.SetUp a k) (hc : c.toNat < 80) (hhd : hd.toNat < 2)
    (hs : 1 ≤ s.toNat ∧ s.toNat ≤ 18) (hcommand : command &&& 0x1F = 6)
    (hmode : d.channel.mode &&& 0x0C = 0x04) :
    d.execute moves [command, drive, c, hd, s, 2, e, g, l] =
      { d.advance (d.moved moves drive) with
        mem := loadBytes d.disk (sectorNumber c.toNat hd.toNat s.toNat) (d.moved moves drive) d.mem
          (a + BitVec.ofNat 32 k) } := by
  unfold execute
  dsimp only
  rw [if_pos hcommand, if_pos hmode, if_pos ⟨hc, hhd, hs.1, hs.2, rfl⟩]
  exact h.readSectors _ (h.moved_le drive)

/-- **`WRITE DATA`** of a sector. -/
theorem SetUp.execute_write (h : d.SetUp a k) (hc : c.toNat < 80) (hhd : hd.toNat < 2)
    (hs : 1 ≤ s.toNat ∧ s.toNat ≤ 18) (hcommand : command &&& 0x1F = 5)
    (hmode : d.channel.mode &&& 0x0C = 0x08) :
    d.execute moves [command, drive, c, hd, s, 2, e, g, l] =
      { d.advance (d.moved moves drive) with
        disk := storeBytes d.mem (a + BitVec.ofNat 32 k) d.disk
          (sectorNumber c.toNat hd.toNat s.toNat) (d.moved moves drive) } := by
  have hne : ¬ command &&& 0x1F = 6 := by
    rw [hcommand]
    decide
  unfold execute
  dsimp only
  rw [if_neg hne, if_pos hcommand, if_pos hmode, if_pos ⟨hc, hhd, hs.1, hs.2, rfl⟩]
  exact h.writeSectors _ (h.moved_le drive)

end Execute

/-- A command leaves no byte behind. -/
theorem execute_fifo (bytes : List Byte) : (d.execute moves bytes).fifo = d.fifo := by
  unfold execute
  split
  · dsimp only
    split_ifs <;> rfl
  · rfl

/-! ### Memory that the transfers do not see -/

/-- The systems differ in memory only, and not where `P` holds. -/
structure Agree (P : Word → Prop) (d d' : FloppySystem) : Prop where
  same : d' = { d with mem := d'.mem }
  mem : ∀ a, P a → d'.mem a = d.mem a

section Agree

variable {P : Word → Prop} {d' d'' : FloppySystem}

theorem Agree.refl (d : FloppySystem) : Agree P d d := ⟨rfl, fun _ _ => rfl⟩

theorem Agree.trans (h : Agree P d d') (h' : Agree P d' d'') : Agree P d d'' :=
  ⟨by rw [h'.same, h.same], fun a ha => (h'.mem a ha).trans (h.mem a ha)⟩

theorem Agree.dma (h : Agree P d d') : d'.dma = d.dma := by rw [h.same]

theorem agree_of_mem {m m' : Mem} (hm : ∀ a, P a → m' a = m a) :
    Agree P { d with mem := m } { d with mem := m' } := ⟨rfl, hm⟩

/-- The same bytes come into both memories. -/
theorem copy_agree {ι : Type} {place : ι → Word} {value : ι → Byte} (is : List ι) {m m' : Mem}
    (hm : ∀ a, P a → m' a = m a) {a : Word} (ha : P a) :
    is.foldl (fun m i => Function.update m (place i) (value i)) m' a =
      is.foldl (fun m i => Function.update m (place i) (value i)) m a := by
  induction is generalizing m m' with
  | nil => exact hm a ha
  | cons i is ih =>
    refine ih fun b hb => ?_
    dsimp only
    by_cases hplace : b = place i
    · rw [hplace, Function.update_self, Function.update_self]
    · rw [Function.update_of_ne hplace, Function.update_of_ne hplace]
      exact hm b hb

/-- **A command** whose transfers stay where the memories agree. -/
theorem Agree.execute (h : Agree P d d') (hP : ∀ i, P (d.address i)) (bytes : List Byte) :
    Agree P (d.execute moves bytes) (d'.execute moves bytes) := by
  obtain ⟨hsame, hmem⟩ := h
  generalize d'.mem = m at hsame hmem
  subst hsame
  unfold FloppySystem.execute
  split
  · rename_i command unit c hd s size _ _ _
    dsimp only
    have hmoved : FloppySystem.moved { d with mem := m } moves unit = d.moved moves unit := rfl
    have hchannel : FloppySystem.channel { d with mem := m } = d.channel := rfl
    rw [hmoved, hchannel]
    generalize (if c.toNat < 80 ∧ hd.toNat < 2 ∧ 1 ≤ s.toNat ∧ s.toNat ≤ 18 ∧ size = 2 then
      d.moved moves unit else 0) = n
    split_ifs
    · exact agree_of_mem fun a ha => copy_agree _ hmem ha
    · exact ⟨rfl, hmem⟩
    · refine ⟨?_, hmem⟩
      have hdisk : (List.range n).foldl (fun disk i => Function.update disk
          (512 * sectorNumber c.toNat hd.toNat s.toNat + i) (m (d.address i))) d.disk =
          (List.range n).foldl (fun disk i => Function.update disk
            (512 * sectorNumber c.toNat hd.toNat s.toNat + i) (d.mem (d.address i))) d.disk := by
        congr 1
        funext disk i
        rw [hmem _ (hP i)]
      exact congrArg (fun disk => { d.advance n with mem := m, disk := disk }) hdisk
    · exact ⟨rfl, hmem⟩
    · exact ⟨rfl, hmem⟩
  · exact ⟨rfl, hmem⟩

/-- **A byte for a port.** -/
theorem Agree.out (h : Agree P d d') (hP : ∀ i, P (d.address i)) (port : BitVec 16) (v : Byte) :
    Agree P (d.out moves port v) (d'.out moves port v) := by
  obtain ⟨hsame, hmem⟩ := h
  generalize d'.mem = m at hsame hmem
  subst hsame
  unfold FloppySystem.out
  dsimp only
  by_cases hfifo : port = 0x3F5
  · rw [if_pos hfifo, if_pos hfifo]
    unfold outFifo
    dsimp only
    split
    · exact ⟨rfl, hmem⟩
    · rename_i command ps _
      by_cases hmore : ps.length < floppyParameters command
      · rw [if_pos hmore, if_pos hmore]
        exact ⟨rfl, hmem⟩
      · have hempty : Agree P { d with fifo := [] } { d with fifo := [], mem := m } := ⟨rfl, hmem⟩
        rw [if_neg hmore, if_neg hmore]
        exact hempty.execute hP _
  · rw [if_neg hfifo, if_neg hfifo]
    by_cases hdor : port = 0x3F2
    · rw [if_pos hdor, if_pos hdor]
      exact ⟨rfl, hmem⟩
    · rw [if_neg hdor, if_neg hdor]
      exact ⟨rfl, hmem⟩

end Agree

/-- Below 64 KiB, while the page of the channel is 0. -/
theorem address_lt (hpage : d.dma.pages 0x81 = 0) (i : ℕ) : (d.address i).toNat < 65536 := by
  unfold address
  rw [hpage, toNat_append_word]
  have hplace := (d.channel.place i).isLt
  have hzero : ((0 : Byte) ++ (0 : Byte) : BitVec 16).toNat = 0 := rfl
  omega

theorem pages_execute (bytes : List Byte) : (d.execute moves bytes).dma.pages = d.dma.pages := by
  unfold execute
  split
  · dsimp only
    split_ifs <;> rfl
  · rfl

/-- The page changes through its port only. -/
theorem pages_out {port : BitVec 16} (hport : port ≠ 0x81) (v : Byte) :
    (d.out moves port v).dma.pages 0x81 = d.dma.pages 0x81 := by
  have hpair : (d.dma.out port v).pages 0x81 = d.dma.pages 0x81 := by
    unfold DmaPair.out
    split_ifs
    · rfl
    · exact Function.update_of_ne (Ne.symm hport) _ _
    · rfl
    · rfl
  have hfifo : (d.outFifo moves v).dma.pages 0x81 = d.dma.pages 0x81 := by
    unfold outFifo
    split
    · rfl
    · split_ifs
      · rfl
      · rw [pages_execute]
  unfold out
  by_cases hdata : port = 0x3F5
  · rw [if_pos hdata]
    exact hfifo
  · rw [if_neg hdata]
    by_cases hdor : port = 0x3F2
    · rw [if_pos hdor]
    · rw [if_neg hdor]
      exact hpair

end FloppySystem

end RedFox32.Machine
