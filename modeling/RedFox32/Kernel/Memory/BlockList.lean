import Mathlib.Data.List.Pairwise
import RedFox32.Kernel.Memory.Realloc
import RedFox32.Machine.Walk

/-!
# The list of blocks

`MemoryAllocationList` links the blocks in the order they were placed, through fields that lie in their
headers.  `malloc` writes `Previous` of the new block and `Next` of the one before it, but never `Next` of
the new block: the list ends where RAM held a null word.  `MemoryManagement_Setup` resets
`NextAllocationPosition` and nothing of the list.
-/

namespace RedFox32.Kernel.Memory

open RedFox32.Machine RedFox32.Machine.Mem

/-! ### Links -/

namespace Heap

variable (h : Heap) (alloc : Word)

/-- `Alloc->Next` -/
def next : Word := h.mem.load32 (nextAddr alloc)

/-- `Alloc->Previous` -/
def previous : Word := h.mem.load32 (previousAddr alloc)

end Heap

section Links

variable {h : Heap} {p size b : Word}

theorem place_numAllocs :
    (h.place size).memoryAllocationList.numAllocs = h.memoryAllocationList.numAllocs + 1 := by
  unfold Heap.place
  dsimp only
  split_ifs <;> rfl

theorem place_first : (h.place size).memoryAllocationList.first =
    if h.nextAllocationPosition ≠ memoryStart then h.memoryAllocationList.first
    else h.nextAllocationPosition := by
  unfold Heap.place
  dsimp only
  split_ifs <;> rfl

/-- A header that is apart from the new one keeps its `Previous`. -/
theorem place_previous (hap : Apart h.nextAllocationPosition 17 b 17)
    (hlast : h.memoryAllocationList.last = b ∨ Apart h.memoryAllocationList.last 17 b 17) :
    (h.place size).previous b = h.previous b := by
  refine place_load32 (hap.symm.inner (i := 4) (by omega) (by omega) (by omega)).symm ?_
  rcases hlast with rfl | hlast
  · unfold Apart nextAddr previousAddr
    constructor <;> bv_omega
  · have hnext : Apart (nextAddr h.memoryAllocationList.last) 4 b 17 :=
      hlast.inner (i := 8) (by omega) (by omega) (by omega)
    exact (hnext.symm.inner (i := 4) (by omega) (by omega) (by omega)).symm

/-- A header that is apart from the new one and from the last one keeps its `Next`. -/
theorem place_next (hap : Apart h.nextAllocationPosition 17 b 17)
    (hlast : Apart h.memoryAllocationList.last 17 b 17) : (h.place size).next b = h.next b := by
  refine place_load32 (hap.symm.inner (i := 8) (by omega) (by omega) (by omega)).symm ?_
  have hnext : Apart (nextAddr h.memoryAllocationList.last) 4 b 17 :=
    hlast.inner (i := 8) (by omega) (by omega) (by omega)
  exact (hnext.symm.inner (i := 8) (by omega) (by omega) (by omega)).symm

/-- The new header keeps the word it finds in `Next`, and points back at the last block. -/
theorem place_new (hlast : h.nextAllocationPosition ≠ memoryStart →
      Apart (nextAddr h.memoryAllocationList.last) 4 h.nextAllocationPosition 17) :
    (h.place size).next h.nextAllocationPosition = h.next h.nextAllocationPosition ∧
      (h.place size).previous h.nextAllocationPosition =
        if h.nextAllocationPosition ≠ memoryStart then h.memoryAllocationList.last else 0 := by
  have hrest : ∀ m : Mem, ∀ i, i = 4 ∨ i = 8 →
      (((m.store32 h.nextAllocationPosition allocationHeaderMagic).store8
        (flagsAddr h.nextAllocationPosition) 1).store32 (lengthAddr h.nextAllocationPosition)
          size).load32 (h.nextAllocationPosition + BitVec.ofNat 32 i) =
        m.load32 (h.nextAllocationPosition + BitVec.ofNat 32 i) := by
    intro m i hi
    unfold store32 store8
    rw [load32_store_of_apart, load32_store_of_apart, load32_store_of_apart]
    all_goals
      unfold Apart
      try unfold lengthAddr
      try unfold flagsAddr
      rcases hi with rfl | rfl <;> constructor <;> bv_omega
  have hprev : ∀ v, (h.mem.store32 (previousAddr h.nextAllocationPosition) v).load32
      (nextAddr h.nextAllocationPosition) = h.next h.nextAllocationPosition := by
    intro v
    refine load32_store_of_apart ?_
    unfold Apart previousAddr nextAddr
    constructor <;> bv_omega
  have hnext := fun m => hrest m 8 (.inr rfl)
  have hback := fun m => hrest m 4 (.inl rfl)
  unfold Heap.place
  dsimp only
  by_cases hp : h.nextAllocationPosition ≠ memoryStart
  · simp only [if_pos hp, load32_store32_self]
    refine ⟨(hnext _).trans (Eq.trans (load32_store_of_apart ?_) (hprev _)),
      (hback _).trans (Eq.trans (load32_store_of_apart ?_) (load32_store32_self _))⟩
    · exact ((hlast hp).symm.inner (i := 8) (by omega) (by omega) (by omega)).symm
    · exact ((hlast hp).symm.inner (i := 4) (by omega) (by omega) (by omega)).symm
  · simp only [if_neg hp]
    exact ⟨(hnext _).trans (hprev _), (hback _).trans (load32_store32_self _)⟩

/-- Changes apart from a header keep its links. -/
theorem links_of_changes {h' : Heap} {a : Word} {n : ℕ} (hch : ChangesOnly a n h.mem h'.mem)
    (hn : 0 < n) (hap : Apart a n b 17) : h'.next b = h.next b ∧ h'.previous b = h.previous b :=
  ⟨hch.load32 (hap.symm.inner (i := 8) (by omega) (by omega) hn).symm,
    hch.load32 (hap.symm.inner (i := 4) (by omega) (by omega) hn).symm⟩

/-- `free` writes the magic word and the flags of its block, and neither of the links. -/
theorem free_links (hb : p - sizeofAllocation = b ∨ Apart (p - sizeofAllocation) 17 b 17) :
    (h.free p).next b = h.next b ∧ (h.free p).previous b = h.previous b := by
  rcases hb with rfl | hb
  · unfold Heap.free
    dsimp only
    split_ifs
    · unfold Heap.next Heap.previous store32 store8 nextAddr previousAddr flagsAddr
      dsimp only
      constructor
      · rw [load32_store_of_apart, load32_store_of_apart]
        all_goals
          unfold Apart
          constructor <;> bv_omega
      · rw [load32_store_of_apart, load32_store_of_apart]
        all_goals
          unfold Apart
          constructor <;> bv_omega
    · exact ⟨rfl, rfl⟩
  · exact links_of_changes free_changes (by omega) hb

/-- `realloc` in place writes the length of its block, and neither of the links. -/
theorem resize_links (hb : p - sizeofAllocation = b ∨ Apart (p - sizeofAllocation) 17 b 17) :
    (h.resize p size).next b = h.next b ∧ (h.resize p size).previous b = h.previous b := by
  rcases hb with rfl | hb
  · refine ⟨nextOf_resize, load32_store_of_apart ?_⟩
    unfold Apart lengthAddr previousAddr
    constructor <;> bv_omega
  · exact links_of_changes resize_changes (by omega) hb

end Links

/-! ### Calls -/

/-- The header of the block that a call places. -/
def HeapCall.header : HeapCall → Option Word
  | .malloc _ p => if p = 0 then none else some (p - sizeofAllocation)
  | .free _ => none
  | .write _ _ => none

/-- The header of the block that a request places. -/
def Request.header : Request → Option Word
  | .call c => c.header
  | .realloc p _ q => if q = 0 ∨ q = p then none else some (q - sizeofAllocation)

/-- A request that returns. -/
inductive RequestStep : Heap → Request → Heap → Prop
  | call {h h' : Heap} {c : HeapCall} (hstep : HeapStep h c h') : RequestStep h (.call c) h'
  | realloc {h h' : Heap} {p size q : Word} (hret : ∃ fuel, realloc fuel h p size = some (.ret q h')) :
      RequestStep h (.realloc p size q) h'

/-- The heap, and the headers of the blocks placed since the setup, in the order they were placed. -/
structure Ledger where
  heap : Heap
  headers : List Word

/-- A request adds the header of its block. -/
def LedgerStep (l : Ledger) (e : Request) (l' : Ledger) : Prop :=
  RequestStep l.heap e l'.heap ∧ l'.headers = l.headers ++ e.header.toList

/-- **The list is well formed**: following `Next` from `First` visits the headers in order and ends with
null, following `Previous` from `Last` visits them in reverse and ends with null, and `NumAllocs` counts
them. -/
structure Ledger.Listed (l : Ledger) : Prop where
  nonnull : 0 ∉ l.headers
  forward : Walk l.heap.next l.heap.memoryAllocationList.first l.headers 0
  backward : Walk l.heap.previous l.heap.memoryAllocationList.last l.headers.reverse 0
  count : l.heap.memoryAllocationList.numAllocs.toNat = l.headers.length

/-- The 17 bytes of the header at `a` and of the header at `b` do not meet. -/
def HeadersApart (a b : Word) : Prop := a.toNat + 17 ≤ b.toNat ∨ b.toNat + 17 ≤ a.toNat

instance : Std.Symm HeadersApart := ⟨fun _ _ h => h.symm⟩

theorem HeadersApart.ne {a b : Word} (hab : HeadersApart a b) : a ≠ b := by
  rintro rfl
  unfold HeadersApart at hab
  omega

/-- The block that `malloc` would place finds a null word in `Next` and meets no header before it. -/
def Ledger.Clear (l : Ledger) : Prop :=
  l.heap.next l.heap.nextAllocationPosition = 0 ∧
    ∀ a ∈ l.headers, HeadersApart a l.heap.nextAllocationPosition

/-- The requests that keep the list: a new block finds its place clear, a pointer whose header passes the
magic test is the pointer of a block, and the program stores into no header. -/
def Ledger.Keeps (l : Ledger) : Request → Prop
  | .call (.malloc size _) => size ≠ 0 → l.Clear
  | .call (.free p) => l.heap.magicOf p = allocationHeaderMagic → p - sizeofAllocation ∈ l.headers
  | .call (.write a _) => ∀ b ∈ l.headers, 17 ≤ (a - b).toNat
  | .realloc p size _ => l.heap.magicOf p = allocationHeaderMagic →
      p - sizeofAllocation ∈ l.headers ∧
        (l.heap.lengthOf p < size → l.heap.nextOf p ≠ 0 → l.Clear)

/-! ### One request -/

/-- What the list rests on: the headers lie in the bounds, apart from each other, and the first of them
at `MEMORY_START`. -/
structure Ledger.Kept (l : Ledger) : Prop where
  bounds : ∀ a ∈ l.headers, memoryStart.toNat ≤ a.toNat ∧ a.toNat ≤ memoryEnd.toNat
  apart : l.headers.Pairwise HeadersApart
  start : (l.headers = [] ∧ l.heap.nextAllocationPosition = memoryStart) ∨ memoryStart ∈ l.headers
  forward : Walk l.heap.next l.heap.memoryAllocationList.first l.headers 0
  backward : Walk l.heap.previous l.heap.memoryAllocationList.last l.headers.reverse 0
  count : l.heap.memoryAllocationList.numAllocs = BitVec.ofNat 32 l.headers.length

section Kept

variable {l : Ledger} {h : Heap} {p q size : Word}

/-- Headers that lie apart are too few for `NumAllocs` to wrap. -/
theorem length_lt_of_apart {as : List Word} (hap : as.Pairwise HeadersApart) :
    as.length < 2 ^ 32 := by
  have hnodup : (as.map fun a => a.toNat / 17).Nodup := by
    refine List.pairwise_map.2 (hap.imp fun hab => ?_)
    unfold HeadersApart at hab
    omega
  have hsub : (as.map fun a => a.toNat / 17) ⊆ List.range (2 ^ 32 - 1) := by
    intro n hn
    obtain ⟨a, -, rfl⟩ := List.mem_map.1 hn
    have := a.isLt
    rw [List.mem_range]
    omega
  have hle := (hnodup.subperm hsub).length_le
  rw [List.length_map, List.length_range] at hle
  omega

theorem Ledger.Kept.listed (hk : l.Kept) : l.Listed where
  nonnull h0 := absurd (hk.bounds 0 h0).1 (by decide)
  forward := hk.forward
  backward := hk.backward
  count := by
    rw [hk.count, BitVec.toNat_ofNat]
    exact Nat.mod_eq_of_lt (length_lt_of_apart hk.apart)

/-- Two headers of the list are the same or apart. -/
theorem Ledger.Kept.eq_or_apart (hk : l.Kept) {a b : Word} (ha : a ∈ l.headers) (hb : b ∈ l.headers) :
    a = b ∨ Apart a 17 b 17 := by
  rcases eq_or_ne a b with rfl | hne
  · exact .inl rfl
  · have hab := hk.apart.forall ha hb hne
    have h1 := (hk.bounds a ha).2
    have h2 := (hk.bounds b hb).2
    unfold memoryEnd at h1 h2
    unfold HeadersApart at hab
    right
    unfold Apart
    constructor <;> bv_omega

/-- The new header is apart from those before it. -/
theorem Ledger.Kept.new_apart (hk : l.Kept) (hc : l.Clear) (ha : Admits l.heap size) {b : Word}
    (hb : b ∈ l.headers) : Apart l.heap.nextAllocationPosition 17 b 17 := by
  have h1 := hc.2 b hb
  unfold HeadersApart at h1
  have h2 := (hk.bounds b hb).2
  have h3 := ha.position.2
  unfold memoryEnd at h2 h3
  unfold Apart
  constructor <;> bv_omega

/-- Changes that leave the links of the headers alone. -/
theorem Ledger.Kept.changes (hk : l.Kept)
    (hlinks : ∀ b ∈ l.headers, h.next b = l.heap.next b ∧ h.previous b = l.heap.previous b)
    (hnext : h.nextAllocationPosition = l.heap.nextAllocationPosition)
    (hlist : h.memoryAllocationList = l.heap.memoryAllocationList) : Ledger.Kept ⟨h, l.headers⟩ where
  bounds := hk.bounds
  apart := hk.apart
  start := by simpa only [hnext] using hk.start
  forward := by
    rw [hlist]
    exact hk.forward.congr fun b hb => (hlinks b hb).1
  backward := by
    rw [hlist]
    exact hk.backward.congr fun b hb => (hlinks b (List.mem_reverse.1 hb)).2
  count := by
    rw [hlist]
    exact hk.count

/-- The position is past `MEMORY_START` once there is a block. -/
theorem Ledger.Kept.position_ne (hk : l.Kept) (hc : l.Clear) (hne : l.headers ≠ []) :
    l.heap.nextAllocationPosition ≠ memoryStart := by
  have hap := hc.2 memoryStart (hk.start.resolve_left fun h0 => hne h0.1)
  exact hap.ne.symm

/-- The links behind a new block. -/
theorem Ledger.Kept.place_walks (hk : l.Kept) (hc : l.Clear) (ha : Admits l.heap size) :
    Walk (l.heap.place size).next (l.heap.place size).memoryAllocationList.first
        (l.headers ++ [l.heap.nextAllocationPosition]) 0 ∧
      Walk (l.heap.place size).previous l.heap.nextAllocationPosition
        (l.heap.nextAllocationPosition :: l.headers.reverse) 0 := by
  have hnew : ∀ b ∈ l.headers, Apart l.heap.nextAllocationPosition 17 b 17 :=
    fun b hb => hk.new_apart hc ha hb
  have hposition := hk.position_ne hc
  obtain ⟨h, as⟩ := l
  dsimp only at *
  rcases List.eq_nil_or_concat as with rfl | ⟨bs, last, rfl⟩
  · -- the first block
    have hstart : h.nextAllocationPosition = memoryStart := by
      rcases hk.start with ⟨-, h0⟩ | h0
      · exact h0
      · cases h0
    obtain ⟨hnext, hprev⟩ := @place_new h size (absurd hstart)
    rw [if_neg (not_ne_iff.2 hstart)] at hprev
    rw [place_first, if_neg (not_ne_iff.2 hstart)]
    exact ⟨⟨rfl, hnext.trans hc.1⟩, rfl, hprev⟩
  · -- a block behind the last one
    rw [List.concat_eq_append] at *
    have hs := hposition (by simp)
    have hback := hk.backward
    rw [List.reverse_append, List.reverse_singleton, List.singleton_append] at hback
    have hlast : h.memoryAllocationList.last = last := hback.1
    have hmem : last ∈ bs ++ [last] := List.mem_append_right _ (List.mem_singleton_self last)
    have hlastNew : Apart (nextAddr last) 4 h.nextAllocationPosition 17 :=
      (hnew last hmem).symm.inner (i := 8) (by omega) (by omega) (by omega)
    obtain ⟨hnext, hprev⟩ := @place_new h size fun _ => hlast ▸ hlastNew
    rw [if_pos hs, hlast] at hprev
    have hnextLast : (h.place size).next last = h.nextAllocationPosition := by
      have heq := @nextOf_place_last h size hs (hlast ▸ hlastNew.symm)
      unfold Heap.nextOf at heq
      rwa [dataAddr_sub, hlast] at heq
    have hapart := List.pairwise_append.1 hk.apart
    constructor
    · rw [place_first, if_pos hs]
      refine hk.forward.snoc (fun b hb => ?_) hnextLast (hnext.trans hc.1)
      have hb' : b ∈ bs ++ [last] := List.mem_append_left _ hb
      have hbl := (hapart.2.2 b hb last (List.mem_singleton_self last)).ne.symm
      exact place_next (hnew b hb') (hlast ▸ (hk.eq_or_apart hmem hb').resolve_left hbl)
    · refine ⟨rfl, ?_⟩
      have hwalk : Walk h.previous h.memoryAllocationList.last (bs ++ [last]).reverse 0 := hk.backward
      rw [hlast] at hwalk
      rw [hprev]
      refine hwalk.congr fun b hb => ?_
      have hb' := List.mem_reverse.1 hb
      exact place_previous (hnew b hb') (hlast ▸ hk.eq_or_apart hmem hb')

/-- **A new block** at the end of the list. -/
theorem Ledger.Kept.place (hk : l.Kept) (hc : l.Clear) (ha : Admits l.heap size) :
    Ledger.Kept ⟨l.heap.place size, l.headers ++ [l.heap.nextAllocationPosition]⟩ := by
  obtain ⟨hforward, hbackward⟩ := hk.place_walks hc ha
  have hstart : memoryStart ∈ l.headers ++ [l.heap.nextAllocationPosition] := by
    rcases hk.start with ⟨-, h0⟩ | h0
    · rw [h0]
      exact List.mem_append_right _ (List.mem_singleton_self _)
    · exact List.mem_append_left _ h0
  refine ⟨fun a hmem => ?_, ?_, .inr hstart, hforward, ?_, ?_⟩
  · rcases List.mem_append.1 hmem with hmem | hmem
    · exact hk.bounds a hmem
    · rw [List.mem_singleton.1 hmem]
      exact ha.position
  · refine List.pairwise_append.2 ⟨hk.apart, List.pairwise_singleton _ _, fun a hmem b hb => ?_⟩
    rw [List.mem_singleton.1 hb]
    exact hc.2 a hmem
  · rw [List.reverse_append]
    exact hbackward
  · show (l.heap.place size).memoryAllocationList.numAllocs = _
    rw [place_numAllocs, hk.count, List.length_append, List.length_singleton, BitVec.ofNat_add]
    rfl

/-- **A freed block** stays in the list. -/
theorem Ledger.Kept.free (hk : l.Kept) (hp : p - sizeofAllocation ∈ l.headers) :
    Ledger.Kept ⟨l.heap.free p, l.headers⟩ :=
  hk.changes (fun _ hb => free_links (hk.eq_or_apart hp hb)) (free_nextAllocationPosition p)
    (free_memoryAllocationList p)

/-- **One request** keeps the list. -/
theorem Ledger.Kept.step {e : Request} {l' : Ledger} (hk : l.Kept) (hstep : LedgerStep l e l')
    (hok : l.Keeps e) : l'.Kept := by
  obtain ⟨h, as⟩ := l
  obtain ⟨h', as'⟩ := l'
  obtain ⟨hstep, heq⟩ := hstep
  dsimp only at hstep heq
  subst heq
  cases hstep with
  | call hcall =>
    cases hcall with
    | malloc hret =>
      rcases malloc_returns_iff.1 hret with ⟨rfl, rfl, rfl⟩ | ⟨hs, ha, rfl, rfl⟩
      · simpa [Request.header, HeapCall.header] using hk
      · simp only [Request.header, HeapCall.header, ha.dataAddr_ne_zero, if_false, dataAddr_sub,
          Option.toList_some]
        exact hk.place (hok hs) ha
    | free p =>
      rw [Request.header, HeapCall.header, Option.toList_none, List.append_nil]
      by_cases hm : h.magicOf p = allocationHeaderMagic
      · exact hk.free (hok hm)
      · have hfree : h.free p = h.puts "[MEMORY] Invalid free!\n" := if_neg hm
        show Ledger.Kept ⟨h.free p, as⟩
        rw [hfree]
        exact hk.changes (fun _ _ => ⟨rfl, rfl⟩) rfl rfl
    | write a v =>
      rw [Request.header, HeapCall.header, Option.toList_none, List.append_nil]
      have hch := changesOnly_store8 h.mem a v
      refine hk.changes (fun b hb => links_of_changes hch (by omega) ?_) rfl rfl
      have hab := hok b hb
      unfold Apart
      constructor <;> bv_omega
  | @realloc _ p size q hret =>
    rcases realloc_returns hret with ⟨-, rfl, rfl⟩ | ⟨hm, -, rfl, rfl⟩ |
      ⟨hm, hlt, hnext, ha, rfl, rfl⟩
    · simpa [Request.header] using hk
    · simp only [Request.header, or_true, if_true, Option.toList_none, List.append_nil]
      exact hk.changes (fun _ hb => resize_links (hk.eq_or_apart (hok hm).1 hb)) rfl rfl
    · obtain ⟨hp, hclear⟩ := hok hm
      have hc := hclear hlt hnext
      have hne : dataAddr h.nextAllocationPosition ≠ p := by
        rintro rfl
        rw [dataAddr_sub] at hp
        exact (hc.2 _ hp).ne rfl
      simp only [Request.header, ha.dataAddr_ne_zero, hne, or_self, if_false, dataAddr_sub,
        Option.toList_some]
      exact (hk.place hc ha).free (List.mem_append_left _ hp)

end Kept

/-! ### Runs -/

/-- The list of `MemoryAllocationList` is empty, as the globals are before the first setup. -/
def AllocationList.Empty (list : AllocationList) : Prop :=
  list.first = 0 ∧ list.last = 0 ∧ list.numAllocs = 0

/-- **The list is well formed** in every state of a run from an empty list whose requests keep it. -/
theorem listed_of_keeps {boot : Heap} {map : Word} {tr : List (Transition Ledger Request)} {l : Ledger}
    (hempty : boot.memoryAllocationList.Empty)
    (hrun : Run LedgerStep ⟨memoryManagementSetup boot map, []⟩ tr l)
    (hok : ∀ t ∈ tr, t.pre.Keeps t.label) :
    Ledger.Listed ⟨memoryManagementSetup boot map, []⟩ ∧ ∀ t ∈ tr, t.post.Listed := by
  have hinit : Ledger.Kept ⟨memoryManagementSetup boot map, []⟩ :=
    ⟨by simp, .nil, .inl ⟨rfl, rfl⟩, hempty.1, hempty.2.1, hempty.2.2⟩
  obtain ⟨-, hinv⟩ := hrun.invariant (I := Ledger.Kept) (C := fun t => t.pre.Keeps t.label) hinit
    (fun t hk hstep hc => hk.step hstep hc) hok
  exact ⟨hinit.listed, fun t ht => (hinv t ht).2.listed⟩

/-- Two blocks of eight bytes, the second one freed. -/
def freedBlock : Heap := (eightBytes.place 8).free 0x10502B

/-- The first of them moved to a block of a hundred bytes behind both. -/
def movedApart : Heap := (freedBlock.place 100).free 0x105011

/-- Two blocks, the second freed and the first moved: all three headers stay in the list. -/
theorem listed_of_keeps_moves : ∃ tr,
    Run LedgerStep ⟨declaredHeap [], []⟩ tr ⟨movedApart, [0x105000, 0x10501A, 0x105034]⟩ ∧
      tr.map Transition.label = [.call (.malloc 8 0x105011), .call (.malloc 8 0x10502B),
        .call (.free 0x10502B), .realloc 0x105011 100 0x105045] ∧
      Ledger.Listed ⟨declaredHeap [], []⟩ ∧ ∀ t ∈ tr, t.post.Listed := by
  have hfirst : LedgerStep ⟨declaredHeap [], []⟩ (.call (.malloc 8 0x105011))
      ⟨eightBytes, [0x105000]⟩ :=
    ⟨.call (.malloc_of_empty (by decide) (by decide) (by decide)), rfl⟩
  have hsecond : LedgerStep ⟨eightBytes, [0x105000]⟩ (.call (.malloc 8 0x10502B))
      ⟨eightBytes.place 8, [0x105000, 0x10501A]⟩ :=
    ⟨.call (.malloc_of_empty (by decide) (by decide) (by decide)), rfl⟩
  have hfree : LedgerStep ⟨eightBytes.place 8, [0x105000, 0x10501A]⟩ (.call (.free 0x10502B))
      ⟨freedBlock, [0x105000, 0x10501A]⟩ :=
    ⟨.call (.free _ _), rfl⟩
  have hmoves : LedgerStep ⟨freedBlock, [0x105000, 0x10501A]⟩ (.realloc 0x105011 100 0x105045)
      ⟨movedApart, [0x105000, 0x10501A, 0x105034]⟩ :=
    ⟨.realloc (realloc_moves (by decide) (by decide) (by decide)
      (admits_of_empty (by decide) (by decide))), rfl⟩
  have hrun := (((Run.nil.snoc hfirst).snoc hsecond).snoc hfree).snoc hmoves
  refine ⟨_, hrun, rfl, @listed_of_keeps (declaredHeap []) 0x8000 _ _ ⟨rfl, rfl, rfl⟩ hrun
    fun t ht => ?_⟩
  simp only [List.nil_append, List.cons_append, List.mem_cons, List.not_mem_nil, or_false] at ht
  rcases ht with rfl | rfl | rfl | rfl
  · exact fun _ => ⟨by decide, by simp⟩
  · refine fun _ => ⟨by decide, fun b hb => ?_⟩
    obtain rfl := List.mem_singleton.1 hb
    exact .inl (by decide)
  · exact fun _ => by simp [sizeofAllocation]
  · refine fun _ => ⟨by simp [sizeofAllocation], fun _ _ => ⟨by decide, fun b hb => ?_⟩⟩
    simp only [List.mem_cons, List.not_mem_nil, or_false] at hb
    rcases hb with rfl | rfl
    · exact .inl (by decide)
    · exact .inl (by decide)

/-- RAM in which the word that the first header will use as `Next` is not zero. -/
def dirtyHeap : Heap := { declaredHeap [] with mem := (declaredHeap []).mem.store32 0x105008 1 }

/-- **The first block of dirty RAM has a next one.** -/
theorem last_next_not_null : ∃ boot map tr l, boot.memoryAllocationList.Empty ∧
    Run LedgerStep ⟨memoryManagementSetup boot map, []⟩ tr l ∧
      tr.map Transition.label = [.call (.malloc 8 0x105011)] ∧ ¬ l.Listed := by
  have hstep : LedgerStep ⟨dirtyHeap, []⟩ (.call (.malloc 8 0x105011))
      ⟨dirtyHeap.place 8, [0x105000]⟩ :=
    ⟨.call (.malloc_of_empty (by decide) (by decide) (by decide)), rfl⟩
  refine ⟨dirtyHeap, 0x8000, _, _, ⟨rfl, rfl, rfl⟩, .snoc .nil hstep, rfl, fun hl => ?_⟩
  have hnext : (dirtyHeap.place 8).next 0x105000 = 0 := hl.forward.2
  exact absurd hnext (by decide)

end RedFox32.Kernel.Memory
