import RedFox32.Kernel.Memory.Layout

/-!
# The second stage of the bootloader, `Stage2A.asm`

`CreateMemoryMap` and `LoadKernel`, which run in real mode with `ds = es = 0`.  What the BIOS does is an
input: the answers of `int 0x15`, and the drive that `int 0x13` reads.
-/

namespace RedFox32.BootloaderStage2

open RedFox32.Machine
open RedFox32.Kernel.Memory (MemoryMapEntry)

/-- The address of an offset in the segment 0. -/
def near (offset : BitVec 16) : Word := offset.setWidth 32

/-! ### `CreateMemoryMap` -/

/-- `mmap_ent` -/
def mmapEnt : BitVec 16 := 0x8000

/-- `"SMAP"` -/
def smap : Word := 0x0534D4150

/-- What `int 0x15` with `eax = 0xE820` answers: the carry flag, the registers, and the words that it
writes at `es:di`.  A record has five words, or six when the ACPI word is among them; an answer that has no
record may leave some of them as they are. -/
structure Answer where
  carry : Bool
  eax : Word
  ebx : Word
  cx : BitVec 16
  words : List Word
  length_le : words.length ≤ 6
  full : carry = false → cx ≠ 0 → 5 ≤ words.length

/-- The registers of the loop, and the memory. -/
structure MapState where
  mem : Mem
  di : BitVec 16
  bp : BitVec 16

/-- The memory after words are stored from an offset on. -/
def storeSlot : List Word → BitVec 16 → Mem → Mem
  | [], _, m => m
  | w :: ws, offset, m => storeSlot ws (offset + 4) (m.store32 (near offset) w)

namespace MapState

variable (s : MapState)

/-- `mov [di + 20], dword 1` and `int 0x15` -/
def ask (a : Answer) : MapState :=
  { s with mem := storeSlot a.words s.di (s.mem.store32 (near (s.di + 20)) 1) }

/-- From `.jmpin` to `.skipent`. -/
def jmpin (a : Answer) : MapState :=
  let cl : Byte := a.cx.extractLsb' 0 8
  if a.cx = 0 then s
  else if ¬ cl ≤ 20 ∧ s.mem (near (s.di + 20)) &&& 1 = 0 then s
  else if s.mem.load32 (near (s.di + 8)) ||| s.mem.load32 (near (s.di + 12)) = 0 then s
  else { s with bp := s.bp + 1, di := s.di + 24 }

/-- `.e820f` -/
def e820f : Mem := s.mem.store16 (near mmapEnt) s.bp

end MapState

/-- `.e820lp`, for the answers still to come. -/
def e820lp : List Answer → MapState → Option Mem
  | [], _ => none
  | a :: answers, s =>
    let s := s.ask a
    if a.carry then some s.e820f
    else
      let s := s.jmpin a
      if a.ebx ≠ 0 then e820lp answers s else some s.e820f

/-- `CreateMemoryMap`: the carry flag at its end, and the memory. -/
def createMemoryMap (answers : List Answer) (m : Mem) : Option (Bool × Mem) :=
  match answers with
  | [] => none
  | a :: answers =>
    let s : MapState := ⟨m, 0x8004, 0⟩
    let s := s.ask a
    if a.carry then some (true, s.mem)
    else if a.eax ≠ smap then some (true, s.mem)
    else if a.ebx = 0 then some (true, s.mem)
    -- `ebx` is not zero here, so `.skipent` goes on to the loop
    else (e820lp answers (s.jmpin a)).map fun m => (false, m)

/-- `Stage2` from `mov dword [0x8000], 0` to the return of `CreateMemoryMap`. -/
def stage2Map (answers : List Answer) (m : Mem) : Option (Bool × Mem) :=
  createMemoryMap answers (m.store32 (near mmapEnt) 0)

/-! ### `LoadKernel` -/

/-- `KERNEL_BASE` -/
def kernelBase : BitVec 16 := 0x2900

/-- The bytes of a sector. -/
def sectorBytes : ℕ := 512

/-- The sectors of a track. -/
def trackSectors : ℕ := 18

/-- The bytes of a track, which `LoadKernel` adds to its address. -/
def trackBytes : ℕ := 0x2400

/-- The drive: the bytes of its disk, and whether the read with a given number fails. -/
structure Drive where
  byte : ℕ → Byte
  fails : ℕ → Bool

/-- The memory, the variable `KERNEL_LOAD_ADDR`, the number of reads so far, and what is on the screen. -/
structure Loader where
  mem : Mem
  loadAddr : BitVec 16
  reads : ℕ
  screen : List Byte

/-- The number of the sector at the address that `int 0x13` takes in `ch`, `cl` and `dh`: cylinder, sector
from 1, and head. -/
def sectorAt (ch cl dh : Byte) : ℕ :=
  let cylinder := ch.toNat + 256 * (cl.toNat / 64)
  (cylinder * 2 + dh.toNat) * trackSectors + (cl.toNat % 64 - 1)

/-- `int 0x13` with `ah = 2`: the memory after `al` consecutive sectors are read to `es:bx`. -/
def int13Read (d : Drive) (al ch cl dh : Byte) (bx : BitVec 16) (m : Mem) : Mem := fun a =>
  let i := (a - near bx).toNat
  if i < sectorBytes * al.toNat then d.byte (sectorBytes * sectorAt ch cl dh + i) else m a

/-- `LoadCylinder`.  An error prints `E` and halts. -/
def loadCylinder (d : Drive) (ax bx : BitVec 16) (l : Loader) : Except Loader Loader :=
  -- `div cl` by 2 leaves the remainder in `ah`
  let dh : Byte := (ax % 2).setWidth 8
  let ch : Byte := ax.extractLsb' 8 8
  let cl : Byte := ax.extractLsb' 0 8
  if d.fails l.reads then
    .error { l with reads := l.reads + 1, screen := l.screen ++ [0x45] }
  else
    .ok { l with mem := int13Read d 18 ch cl dh bx l.mem, reads := l.reads + 1 }

/-- The loop of `LoadKernel`; the comparison with `KERNEL_CYLINDER_COUNT` is signed. -/
def loadLoop (d : Drive) (count : BitVec 16) : ℕ → BitVec 16 → Loader → Option (Except Loader Loader)
  | 0, _, _ => none
  | fuel + 1, cx, l =>
    let l := { l with screen := l.screen ++ [0x4C] }
    match loadCylinder d cx l.loadAddr l with
    | .error l => some (.error l)
    | .ok l =>
      let cx := cx + 1
      let l := { l with loadAddr := l.loadAddr + BitVec.ofNat 16 trackBytes }
      if cx.slt count then loadLoop d count fuel cx l else some (.ok l)

/-- `LoadKernel` -/
def loadKernel (d : Drive) (count : BitVec 16) (fuel : ℕ) (l : Loader) : Option (Except Loader Loader) :=
  loadLoop d count fuel 1 l

end RedFox32.BootloaderStage2
