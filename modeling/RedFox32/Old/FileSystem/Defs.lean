import Mathlib.Data.List.FinRange
import RedFox32.Machine.Bytes

/-!
The file system of the old kernel: directories of ten-byte descriptors in chained sectors, and the reading
of a file by its path.  What the floppy driver does below `ReadLBA` is not modelled: a sector is read
whole.
-/

namespace RedFox32.Old.FileSystem

open Machine

/-! ### Names, descriptors and directory blocks -/

/-- The five characters of a name. -/
abbrev Name := Fin 5 → Byte

/-- The 512 bytes of a sector. -/
abbrev Block := Fin 512 → Byte

/-- `FSFileDescriptor`. -/
@[ext] structure FSFileDescriptor where
  name : Name
  attributes : Byte
  startSector : BitVec 16
  sectorCount : BitVec 16
deriving DecidableEq

/-- The bit `Attributes.Directory`. -/
def FSFileDescriptor.directory (f : FSFileDescriptor) : Bool := f.attributes.getLsbD 5

namespace Block

variable (b : Block)

/-- The 16-bit word at offset `k` of a block. -/
def word (k : ℕ) (hk : k + 1 < 512) : BitVec 16 := b ⟨k + 1, hk⟩ ++ b ⟨k, by omega⟩

/-- `Files[i]`. -/
def file (i : Fin 51) : FSFileDescriptor where
  name j := b ⟨10 * i + j, by omega⟩
  attributes := b ⟨10 * i + 5, by omega⟩
  startSector := b.word (10 * i + 6) (by omega)
  sectorCount := b.word (10 * i + 8) (by omega)

/-- `Files`. -/
def files : List FSFileDescriptor := (List.finRange 51).map b.file

/-- `NextDescriptorLBA`. -/
def nextDescriptorLBA : BitVec 16 := b.word 510 (by omega)

end Block

/-- The two names have the same characters. -/
def nameCompare (a b : Name) : Bool := (List.finRange 5).all fun i => a i == b i

/-! ### The floppy drive -/

/-- The drive: the sectors of the disk, the 512 bytes at `0x7E00` and the sectors read so far. -/
structure Drive where
  disk : ℕ → Block
  buffer : Block
  reads : List (BitVec 16)

/-- `ReadLBA`: a sector that the disk does not have is not read. -/
def Drive.readLBA (d : Drive) (lba : BitVec 16) : Drive :=
  if 2880 ≤ lba.toNat then d
  else { d with buffer := d.disk lba.toNat, reads := d.reads ++ [lba] }

/-! ### Finding a directory -/

/-- The copy of the buffer after a matching entry.  The loop counts `i`, so `c` is the same in every
round. -/
def copyMatched (buffer : Block) (c : ℕ) : ℕ → Block → Option Block
  | 0, _ => none
  | fuel + 1, dir =>
    if h : c < 512 then copyMatched buffer c fuel (Function.update dir ⟨c, h⟩ (buffer ⟨c, h⟩))
    else some dir

/-- `ReadDirectory`: the drive and the block that `Dir` holds at the end. -/
def readDirectory (name : Name) : ℕ → Drive → Block → Option (Drive × Block)
  | 0, _, _ => none
  | fuel + 1, d, dir =>
    match dir.files.find? fun f => f.directory && nameCompare f.name name with
    | some _ =>
      let d := d.readLBA dir.nextDescriptorLBA
      (copyMatched d.buffer 0 fuel dir).map fun dir => (d, dir)
    | none =>
      if dir.nextDescriptorLBA ≠ 0 then
        let d := d.readLBA dir.nextDescriptorLBA
        readDirectory name fuel d d.buffer
      else some (d, dir)

/-! ### Reading a file -/

/-- The character `/`. -/
def slash : Byte := 0x2F

/-- The five characters of the path from `start`. -/
def nameAt (path : ℕ → Byte) (start : ℕ) : Name := fun j => path (start + j)

/-- `DirnameStart` after the slashes are skipped. -/
def skipSlashes (path : ℕ → Byte) : ℕ → ℕ → Option ℕ
  | 0, _ => none
  | fuel + 1, start => if path start = slash then skipSlashes path fuel (start + 1) else some start

/-- `DirnameEnd` at the next slash, if there is one before the end of the path. -/
def scanName (path : ℕ → Byte) : ℕ → ℕ → Option (Option ℕ)
  | 0, _ => none
  | fuel + 1, stop =>
    if path stop = slash then some (some stop)
    else if path stop = 0 then some none
    else scanName path fuel (stop + 1)

/-- What `ReadFile` works with while it follows the path: the drive, `Dir`, the path, `DirnameStart` and
`DirnameEnd`. -/
structure Walker where
  drive : Drive
  dir : Block
  path : ℕ → Byte
  start : ℕ
  stop : ℕ

/-- The directories of the path, while `InDir` is zero. -/
def walkPath (inDir : Byte) : ℕ → Walker → Option Walker
  | 0, _ => none
  | fuel + 1, w =>
    if inDir ≠ 0 then some w
    else (scanName w.path fuel w.stop).bind fun
      | none => some w
      | some stop =>
        let path := Function.update w.path stop 0
        (readDirectory (nameAt path w.start) fuel w.drive w.dir).bind fun (d, dir) =>
          walkPath inDir fuel ⟨d, dir, path, stop + 1, stop + 1⟩

/-- `FILE`. -/
structure FILE where
  descriptor : FSFileDescriptor
  data : Word
  size : Word

/-- The bytes of the buffer stored from `data`. -/
def storeBuffer (m : Mem) (data : Word) (buffer : Block) : Mem :=
  (List.finRange 512).foldl (fun m (c : Fin 512) => m.store8 (data + BitVec.ofNat 32 c) (buffer c)) m

/-- The sectors of the file from `lba`.  The 16-bit counter is compared with a sum that is not reduced, and
every sector is stored at `data`. -/
def loadData (limit : ℕ) (data : Word) : ℕ → BitVec 16 → Drive → Mem → Option (Drive × Mem)
  | 0, _, _, _ => none
  | fuel + 1, lba, d, m =>
    if lba.toNat < limit then
      let d := d.readLBA lba
      loadData limit data fuel (lba + 1) d (storeBuffer m data d.buffer)
    else some (d, m)

/-- The state `ReadFile` changes: the drive, the memory behind `Data`, the characters of `Path`, the file
`F` and the texts put on the screen with their colours. -/
structure State where
  drive : Drive
  mem : Mem
  path : ℕ → Byte
  file : FILE
  console : List (String × Byte)

variable (malloc : Word → Word)

/-- The body of the last loop of `ReadFile` for the entry that matches. -/
def loadFile (fuel : ℕ) (s : State) (f : FSFileDescriptor) : Option State :=
  let size := f.sectorCount.setWidth 32 * 512
  let data := malloc size
  (loadData (f.startSector.toNat + f.sectorCount.toNat) data fuel f.startSector s.drive s.mem).bind
    fun (drive, mem) => some
      { s with drive, mem, file := ⟨f, data, size⟩, console := s.console ++ [("Match!\n", 0x0B)] }

/-- The last loop of `ReadFile`: the entry of one block with the name. -/
def findFile (dir : Block) (name : Name) (fuel : ℕ) (s : State) : Option State :=
  match dir.files.find? fun f => nameCompare f.name name with
  | some f => loadFile malloc fuel s f
  | none => some s

/-- `ReadFile`, where `inDir` is what the variable `InDir`, which is not initialised, holds. -/
def readFile (rootDirectory : Block) (inDir : Byte) (fuel : ℕ) (s : State) : Option State :=
  (skipSlashes s.path fuel 0).bind fun start =>
    (walkPath inDir fuel ⟨s.drive, rootDirectory, s.path, start, 0⟩).bind fun w =>
      findFile malloc w.dir (nameAt w.path w.start) fuel { s with drive := w.drive, path := w.path }

end RedFox32.Old.FileSystem
