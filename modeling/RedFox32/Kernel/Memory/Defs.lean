import RedFox32.Machine.Bytes

/-!
# The allocator of `Memory.c`

The structures of `Memory.h` and `Memory.c` as they lie in RAM, and the functions over them.  Pointers
are 32-bit words and their arithmetic wraps.  `malloc` and `canSafelyAllocate` call each other and the
scan of the memory map starts over after every nested call, so the three take a fuel and give `none`
when it runs out; `while (1) { cli; hlt }` is the outcome `outOfMemory`.
-/

namespace RedFox32.Kernel.Memory

open RedFox32.Machine

/-! ### The memory map -/

/-- `MMAP_TYPE_USABLE` -/
def mmapTypeUsable : Word := 1

/-- `MEMORY_START` -/
def memoryStart : Word := 0x00105000

/-- The upper bound `0xFFFF0000` of the bounds tests. -/
def memoryEnd : Word := 0xFFFF0000

/-- `struct MemoryMapEntry` -/
structure MemoryMapEntry where
  start : BitVec 64
  length : BitVec 64
  type : Word
  acpi : Word
  deriving DecidableEq

/-- `sizeof(struct MemoryMapEntry)` -/
def sizeofEntry : ℕ := 24

/-- The entry stored in the 24 bytes from `a`. -/
def MemoryMapEntry.read (m : Mem) (a : Word) : MemoryMapEntry where
  start := m.load64 a
  length := m.load64 (a + 8)
  type := m.load32 (a + 16)
  acpi := m.load32 (a + 20)

namespace MemoryMapEntry

variable (e : MemoryMapEntry)

/-- `(unsigned int)Entry->Start` -/
def start32 : Word := e.start.setWidth 32

/-- `(char*)(unsigned int)Entry->Start + Entry->Length` -/
def end32 : Word := e.start32 + e.length.setWidth 32

end MemoryMapEntry

/-- `Map->NumEntries`, the first field of `struct MemoryMap`. -/
def numEntries (m : Mem) (map : Word) : Word := m.load32 map

/-- `Map->Entries`, the pointer in the second field of `struct MemoryMap`. -/
def entries (m : Mem) (map : Word) : Word := m.load32 (map + 4)

/-- `Map->Entries + i` -/
def entryAddr (m : Mem) (map : Word) (i : ℕ) : Word :=
  entries m map + BitVec.ofNat 32 (sizeofEntry * i)

/-- `MMAP_Length` -/
def mmapLength (m : Mem) (map : Word) : Word := BitVec.ofNat 32 sizeofEntry * numEntries m map + 4

/-! ### Allocations

`struct MemoryAllocation` is packed: the magic word, `Previous`, `Next`, `Length`, one byte of flags,
and the data. -/

/-- `ALLOCATION_HEADER_MAGIC` -/
def allocationHeaderMagic : Word := 0xA110C000

/-- `sizeof(struct MemoryAllocation)` -/
def sizeofAllocation : Word := 17

/-- `&Alloc->Previous` -/
def previousAddr (alloc : Word) : Word := alloc + 4

/-- `&Alloc->Next` -/
def nextAddr (alloc : Word) : Word := alloc + 8

/-- `&Alloc->Length` -/
def lengthAddr (alloc : Word) : Word := alloc + 12

/-- `&Alloc->Flags` -/
def flagsAddr (alloc : Word) : Word := alloc + 16

/-- `Alloc->Data` -/
def dataAddr (alloc : Word) : Word := alloc + sizeofAllocation

/-- `MemoryAllocationList` -/
structure AllocationList where
  first : Word
  last : Word
  numAllocs : Word

/-- RAM, the globals of `Memory.c`, and the texts it gave to `puts`, oldest first. -/
structure Heap where
  mem : Mem
  memoryMMAP : Word
  nextAllocationPosition : Word
  memoryAllocationList : AllocationList
  console : List String

namespace Heap

variable (h : Heap)

/-- The entry `*(Memory_MMAP->Entries + i)`. -/
def entry (i : ℕ) : MemoryMapEntry := .read h.mem (entryAddr h.mem h.memoryMMAP i)

/-- `puts` -/
def puts (text : String) : Heap := { h with console := h.console ++ [text] }

/-- The block that `malloc` writes at `NextAllocationPosition`: the stores to its header and to the
list, in the order of the source. -/
def place (size : Word) : Heap :=
  let alloc := h.nextAllocationPosition
  let list := h.memoryAllocationList
  let linked : Mem × AllocationList :=
    if alloc ≠ memoryStart then
      let m := h.mem.store32 (previousAddr alloc) list.last
      (m.store32 (nextAddr (m.load32 (previousAddr alloc))) alloc, list)
    else
      (h.mem.store32 (previousAddr alloc) 0, { list with first := alloc })
  let m := ((linked.1.store32 alloc allocationHeaderMagic).store8 (flagsAddr alloc) 1).store32
    (lengthAddr alloc) size
  { h with
    mem := m
    memoryAllocationList :=
      { linked.2 with last := alloc, numAllocs := linked.2.numAllocs + 1 }
    nextAllocationPosition := alloc + size + sizeofAllocation + 1 }

/-- `free` -/
def free (data : Word) : Heap :=
  let alloc := data - sizeofAllocation
  if h.mem.load32 alloc = allocationHeaderMagic then
    let m := h.mem.store8 (flagsAddr alloc) 0
    { h with mem := m.store32 alloc (m.load32 alloc + 1) }
  else
    h.puts "[MEMORY] Invalid free!\n"

end Heap

/-- How an evaluation ends: with a value, or in the out-of-memory loop of `malloc`. -/
inductive Outcome (α : Type) where
  | ret (v : α) (h : Heap)
  | outOfMemory (h : Heap)

/-- Go on after an evaluation that returned; the out-of-memory loop never does. -/
def andThen {α β : Type} (r : Option (Outcome α)) (k : α → Heap → Option (Outcome β)) :
    Option (Outcome β) :=
  match r with
  | some (.ret v h) => k v h
  | some (.outOfMemory h) => some (.outOfMemory h)
  | none => none

/-- The two tests of `CanSafelyAllocate` that refuse a request. -/
def outOfBounds (position size : Word) : Prop :=
  (position < memoryStart ∨ memoryEnd < position) ∨
    (position + size < memoryStart ∨ memoryEnd < position + size)

instance (position size : Word) : Decidable (outOfBounds position size) := by
  unfold outOfBounds; infer_instance

mutual

/-- `CanSafelyAllocate`, whose `Position` is always `&NextAllocationPosition`. -/
def canSafelyAllocate : ℕ → Heap → Word → Option (Outcome Bool)
  | 0, _, _ => none
  | fuel + 1, h, size =>
    if size = 0 then some (.ret true h)
    else if outOfBounds h.nextAllocationPosition size then some (.ret false h)
    else scan fuel h size 0

/-- The `for` loop of `CanSafelyAllocate`, at the index `i`. -/
def scan : ℕ → Heap → Word → ℕ → Option (Outcome Bool)
  | 0, _, _, _ => none
  | fuel + 1, h, size, i =>
    let position := h.nextAllocationPosition
    if i < (numEntries h.mem h.memoryMMAP).toNat then
      let e := h.entry i
      if e.end32 < position then scan fuel h size (i + 1)
      else if (e.start32 ≤ position ∧ position ≤ e.end32) ∨
          (e.start32 ≤ position + size ∧ position + size ≤ e.end32) then
        andThen (malloc fuel h (e.start32 - position)) fun _ h' => scan fuel h' size 0
      else scan fuel h size (i + 1)
    else some (.ret true h)

/-- `malloc` -/
def malloc : ℕ → Heap → Word → Option (Outcome Word)
  | 0, _, _ => none
  | fuel + 1, h, size =>
    if size = 0 then some (.ret 0 h)
    else
      andThen (canSafelyAllocate fuel h size) fun safe h' =>
        if safe then some (.ret (dataAddr h'.nextAllocationPosition) (h'.place size))
        else some (.outOfMemory (h'.puts "[MALLOC] OUT OF MEMORY!\n"))

end

/-- `realloc` -/
def realloc (fuel : ℕ) (h : Heap) (data size : Word) : Option (Outcome Word) :=
  let alloc := data - sizeofAllocation
  if h.mem.load32 alloc ≠ allocationHeaderMagic then some (.ret 0 h)
  else if size ≤ h.mem.load32 (lengthAddr alloc) then
    some (.ret (dataAddr alloc) { h with mem := h.mem.store32 (lengthAddr alloc) size })
  else if h.mem.load32 (nextAddr alloc) = 0 then
    some (.ret (dataAddr alloc) { h with mem := h.mem.store32 (lengthAddr alloc) size })
  else
    andThen (malloc fuel h size) fun new h' =>
      if new = 0 then some (.ret 0 h') else some (.ret new (h'.free data))

/-- `MemoryManagement_Setup` -/
def memoryManagementSetup (h : Heap) (map : Word) : Heap :=
  { h with memoryMMAP := map, nextAllocationPosition := memoryStart }

end RedFox32.Kernel.Memory
