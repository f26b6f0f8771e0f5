import RedFox32.Kernel.Memory.Layout
import RedFox32.Machine.Frontier

/-!
# The blocks of a run

`NextAllocationPosition` moves past every block that `malloc` places, so it is a frontier between the
blocks of a run and what comes after them.  This holds as long as the end of the block is where the
bounds test of `CanSafelyAllocate` takes it to be: the test looks at a sum that may have wrapped, and
leaves out the header.
-/

namespace RedFox32.Kernel.Memory

open RedFox32.Machine

/-! ### Runs -/

/-- What happens to the heap: a call with its result, or a store of the program. -/
inductive HeapCall where
  | malloc (size p : Word)
  | free (p : Word)
  | write (a : Word) (v : Byte)

/-- A call that returns. -/
inductive HeapStep : Heap → HeapCall → Heap → Prop
  | malloc {h h' : Heap} {size p : Word} (hret : ∃ fuel, malloc fuel h size = some (.ret p h')) :
      HeapStep h (.malloc size p) h'
  | free (h : Heap) (p : Word) : HeapStep h (.free p) (h.free p)
  | write (h : Heap) (a : Word) (v : Byte) :
      HeapStep h (.write a v) { h with mem := h.mem.store8 a v }

/-- The header and the data of the block whose data is at `p`. -/
def blockExtent (p size : Word) : Extent := ⟨p.toNat - 17, p.toNat + size.toNat⟩

/-- The block that a call returns. -/
def HeapCall.block : HeapCall → Option Extent
  | .malloc size p => if p = 0 then none else some (blockExtent p size)
  | .free _ => none
  | .write _ _ => none

/-- The blocks that `malloc` returned in a run. -/
def blocks (tr : List (Transition Heap HeapCall)) : List Extent := tr.filterMap fun t => t.label.block

/-! ### One call -/

section Call

variable {h h' : Heap} {c : HeapCall} {size : Word}

@[simp] theorem free_nextAllocationPosition (p : Word) :
    (h.free p).nextAllocationPosition = h.nextAllocationPosition := by
  unfold Heap.free
  dsimp only
  split_ifs <;> rfl

@[simp] theorem free_memoryAllocationList (p : Word) :
    (h.free p).memoryAllocationList = h.memoryAllocationList := by
  unfold Heap.free
  dsimp only
  split_ifs <;> rfl

@[simp] theorem place_nextAllocationPosition :
    (h.place size).nextAllocationPosition =
      h.nextAllocationPosition + size + sizeofAllocation + 1 := rfl

/-- The position of a request that passes the bounds test. -/
theorem Admits.position (ha : Admits h size) :
    memoryStart.toNat ≤ h.nextAllocationPosition.toNat ∧
      h.nextAllocationPosition.toNat ≤ memoryEnd.toNat := by
  have hb := ha.1
  unfold outOfBounds at hb
  simp only [not_or, BitVec.not_lt] at hb
  exact ⟨hb.1.1, hb.1.2⟩

theorem Admits.dataAddr_toNat (ha : Admits h size) :
    (dataAddr h.nextAllocationPosition).toNat = h.nextAllocationPosition.toNat + 17 := by
  obtain ⟨-, hle⟩ := ha.position
  unfold dataAddr sizeofAllocation
  unfold memoryEnd at hle
  bv_omega

theorem Admits.dataAddr_ne_zero (ha : Admits h size) : dataAddr h.nextAllocationPosition ≠ 0 := by
  intro h0
  have hp := ha.dataAddr_toNat
  rw [h0] at hp
  simp at hp

/-- A block starts at `NextAllocationPosition`. -/
theorem Admits.block (ha : Admits h size) :
    (HeapCall.malloc size (dataAddr h.nextAllocationPosition)).block =
      some ⟨h.nextAllocationPosition.toNat, h.nextAllocationPosition.toNat + 17 + size.toNat⟩ := by
  have hp := ha.dataAddr_toNat
  rw [HeapCall.block, if_neg ha.dataAddr_ne_zero]
  simp [blockExtent, hp]

/-- **A call places a block or none.**  Only the block of a non-zero request moves the position. -/
theorem HeapStep.placed (hs : HeapStep h c h') :
    (c.block = none ∧ h'.nextAllocationPosition = h.nextAllocationPosition ∧
      ∀ size p, c = .malloc size p → size = 0) ∨
    ∃ size, size ≠ 0 ∧ Admits h size ∧ c = .malloc size (dataAddr h.nextAllocationPosition) ∧
      h' = h.place size := by
  cases hs with
  | malloc hret =>
    rcases malloc_returns_iff.1 hret with ⟨rfl, rfl, rfl⟩ | ⟨hs, ha, rfl, rfl⟩
    · exact .inl ⟨rfl, rfl, by rintro _ _ ⟨⟩; rfl⟩
    · exact .inr ⟨_, hs, ha, rfl, rfl⟩
  | free p => exact .inl ⟨rfl, free_nextAllocationPosition p, by rintro _ _ ⟨⟩⟩
  | write a v => exact .inl ⟨rfl, rfl, by rintro _ _ ⟨⟩⟩

end Call

/-! ### Blocks inside the bounds -/

/-- The sum of the bounds test wraps and passes again above `MEMORY_START`, or it ends so close to the
upper bound that the 17 bytes of the header reach past it. -/
def Overshoots (position size : Word) : Prop :=
  size ≠ 0 ∧ (2 ^ 32 + memoryStart.toNat ≤ position.toNat + size.toNat ∨
    (memoryEnd.toNat < position.toNat + size.toNat + 16 ∧
      position.toNat + size.toNat ≤ memoryEnd.toNat))

instance (position size : Word) : Decidable (Overshoots position size) := by
  unfold Overshoots; infer_instance

/-- The bytes from `MEMORY_START` to the upper bound of the bounds test. -/
def heapBytes : Set ℤ := Set.Icc memoryStart.toNat memoryEnd.toNat

/-- A request that passes the bounds test ends inside the bounds exactly if it does not overshoot. -/
theorem Admits.inside_iff {h : Heap} {size : Word} (hs : size ≠ 0) (ha : Admits h size) :
    h.nextAllocationPosition.toNat + size.toNat + 16 ≤ memoryEnd.toNat ↔
      ¬ Overshoots h.nextAllocationPosition size := by
  have hb := ha.1
  unfold outOfBounds memoryStart memoryEnd at hb
  unfold Overshoots memoryStart memoryEnd
  bv_omega

theorem Admits.bytes_subset_iff {h : Heap} {size : Word} (hs : size ≠ 0) (ha : Admits h size) :
    Set.Ico (h.nextAllocationPosition.toNat : ℤ) (h.nextAllocationPosition.toNat + 17 + size.toNat) ⊆
        heapBytes ↔
      ¬ Overshoots h.nextAllocationPosition size := by
  obtain ⟨hlo, hhi⟩ := ha.position
  rw [← ha.inside_iff hs]
  unfold heapBytes
  constructor
  · intro hsub
    have hlast := hsub (a := (h.nextAllocationPosition.toNat + 16 + size.toNat : ℤ))
      ⟨by omega, by omega⟩
    have := hlast.2
    omega
  · rintro hle b ⟨hb1, hb2⟩
    exact ⟨by omega, by omega⟩

/-- The position after a block that does not overshoot. -/
theorem Admits.next_toNat {h : Heap} {size : Word} (hs : size ≠ 0) (ha : Admits h size)
    (ho : ¬ Overshoots h.nextAllocationPosition size) :
    (h.place size).nextAllocationPosition.toNat =
      h.nextAllocationPosition.toNat + (17 + size.toNat) + 1 := by
  have hle := (ha.inside_iff hs).2 ho
  unfold memoryEnd at hle
  simp only [place_nextAllocationPosition, sizeofAllocation]
  bv_omega

section Run

variable {boot h : Heap} {map : Word} {tr : List (Transition Heap HeapCall)}

/-- The call does not overshoot. -/
def Fits (t : Transition Heap HeapCall) : Prop :=
  ∀ size p, t.label = .malloc size p → ¬ Overshoots t.pre.nextAllocationPosition size

/-- **The position is a frontier** for the block of a call that does not overshoot. -/
theorem HeapStep.frontier {t : Transition Heap HeapCall} (hstep : HeapStep t.pre t.label t.post)
    (hfit : Fits t) :
    t.pre.nextAllocationPosition.toNat ≤ t.post.nextAllocationPosition.toNat ∧
      ∀ b, t.label.block = some b → (t.pre.nextAllocationPosition.toNat : ℤ) ≤ b.lo ∧
        b.hi ≤ t.post.nextAllocationPosition.toNat := by
  rcases hstep.placed with ⟨hnone, hnext, -⟩ | ⟨size, hs, ha, hlabel, hpost⟩
  · rw [hnone, hnext]
    exact ⟨le_rfl, by simp⟩
  · have hnext := ha.next_toNat hs (hfit _ _ hlabel)
    rw [hlabel, ha.block, hpost, hnext]
    refine ⟨by omega, fun b hb => ?_⟩
    rw [Option.some.injEq] at hb
    subst hb
    exact ⟨le_rfl, by push_cast; omega⟩

/-- Every block of the run lies inside the bounds, and no two blocks overlap. -/
def BlocksSound (tr : List (Transition Heap HeapCall)) : Prop :=
  (∀ b ∈ blocks tr, b.bytes ⊆ heapBytes) ∧
    (blocks tr).Pairwise fun b c => Disjoint b.bytes c.bytes

/-- **The blocks of a run are sound** exactly when no request overshoots. -/
theorem blocksSound_iff (hrun : Run HeapStep (memoryManagementSetup boot map) tr h) :
    BlocksSound tr ↔ ∀ t ∈ tr, Fits t := by
  constructor
  · rintro ⟨hin, -⟩ ⟨g, c, g'⟩ ht size p rfl
    have hstep : HeapStep g (.malloc size p) g' := hrun.step_of_mem ht
    rcases hstep.placed with ⟨-, -, hzero⟩ | ⟨size', hs, ha, heq, -⟩
    · rintro ⟨hne, -⟩
      exact hne (hzero _ _ rfl)
    · obtain ⟨rfl, rfl⟩ := HeapCall.malloc.inj heq
      exact (ha.bytes_subset_iff hs).1 (hin _ (List.mem_filterMap.2 ⟨_, ht, ha.block⟩))
  · intro hfit
    have hfront : ∀ t ∈ tr, _ := fun t ht => (hrun.step_of_mem ht).frontier (hfit t ht)
    refine ⟨fun b hb => ?_, List.pairwise_filterMap.2 ?_⟩
    · obtain ⟨⟨g, c, g'⟩, ht, hblock⟩ := List.mem_filterMap.1 hb
      have hstep : HeapStep g c g' := hrun.step_of_mem ht
      change c.block = some b at hblock
      rcases hstep.placed with ⟨hnone, -⟩ | ⟨size, hs, ha, rfl, -⟩
      · rw [hnone] at hblock
        cases hblock
      · rw [ha.block, Option.some.injEq] at hblock
        subst hblock
        exact (ha.bytes_subset_iff hs).2 (hfit _ ht _ _ rfl)
    · refine hrun.disjoint_of_frontier (f := fun h => h.nextAllocationPosition.toNat) ?_ ?_ ?_
      · exact fun t ht => Int.ofNat_le.2 (hfront t ht).1
      · exact fun t ht b hb => ((hfront t ht).2 b hb).2
      · exact fun t ht b hb => ((hfront t ht).2 b hb).1

end Run

/-- On the map without entries the bounds test alone decides. -/
theorem admits_of_empty {h : Heap} {size : Word} (h0 : h.mapLength = 0)
    (hb : ¬ outOfBounds h.nextAllocationPosition size) : Admits h size := by
  have hmap : h.map = [] := by rw [Heap.map, h0, List.range_zero, List.map_nil]
  exact ⟨hb, by simp [hmap]⟩

theorem HeapStep.malloc_of_empty {h : Heap} {size : Word} (h0 : h.mapLength = 0) (hs : size ≠ 0)
    (hb : ¬ outOfBounds h.nextAllocationPosition size) :
    HeapStep h (.malloc size (dataAddr h.nextAllocationPosition)) (h.place size) :=
  .malloc (malloc_returns_iff.2 (.inr ⟨hs, admits_of_empty h0 hb, rfl, rfl⟩))

/-- Three blocks, the first of which is freed. -/
theorem blocksSound_iff_three : ∃ tr h, Run HeapStep (declaredHeap []) tr h ∧
    tr.map Transition.label = [.malloc 1 0x105011, .malloc 0x100 0x105024, .free 0x105011,
      .malloc 8 0x105136] ∧
    (BlocksSound tr ↔ ∀ t ∈ tr, Fits t) ∧ ∀ t ∈ tr, Fits t := by
  have hone : HeapStep (declaredHeap []) (.malloc 1 0x105011) ((declaredHeap []).place 1) :=
    .malloc_of_empty (by decide) (by decide) (by decide)
  have htwo : HeapStep ((declaredHeap []).place 1) (.malloc 0x100 0x105024)
      (((declaredHeap []).place 1).place 0x100) :=
    .malloc_of_empty (by decide) (by decide) (by decide)
  have hfree := HeapStep.free (((declaredHeap []).place 1).place 0x100) 0x105011
  have hthree : HeapStep ((((declaredHeap []).place 1).place 0x100).free 0x105011)
      (.malloc 8 0x105136) (((((declaredHeap []).place 1).place 0x100).free 0x105011).place 8) :=
    .malloc_of_empty (by decide) (by decide) (by decide)
  have hrun := (((Run.nil.snoc hone).snoc htwo).snoc hfree).snoc hthree
  refine ⟨_, _, hrun, rfl, blocksSound_iff hrun, fun t ht size p hlabel => ?_⟩
  simp only [List.nil_append, List.cons_append, List.mem_cons, List.not_mem_nil, or_false] at ht
  rcases ht with rfl | rfl | rfl | rfl
  · obtain ⟨rfl, -⟩ := HeapCall.malloc.inj hlabel
    decide
  · obtain ⟨rfl, -⟩ := HeapCall.malloc.inj hlabel
    decide
  · cases hlabel
  · obtain ⟨rfl, -⟩ := HeapCall.malloc.inj hlabel
    decide

/-- **The largest request is granted** behind a block of one byte, and reaches past 4 GiB. -/
theorem block_past_bounds : ∃ tr h, Run HeapStep (declaredHeap []) tr h ∧
    tr.map Transition.label = [.malloc 1 0x105011, .malloc 0xFFFFFFFF 0x105024] ∧
    ¬ BlocksSound tr := by
  have hone : HeapStep (declaredHeap []) (.malloc 1 0x105011) ((declaredHeap []).place 1) :=
    .malloc_of_empty (by decide) (by decide) (by decide)
  have hmax : HeapStep ((declaredHeap []).place 1) (.malloc 0xFFFFFFFF 0x105024)
      (((declaredHeap []).place 1).place 0xFFFFFFFF) :=
    .malloc_of_empty (by decide) (by decide) (by decide)
  refine ⟨_, _, .snoc (.snoc .nil hone) hmax, rfl, fun hsound => ?_⟩
  have hsub := hsound.1 (blockExtent 0x105024 0xFFFFFFFF) (by simp [blocks, HeapCall.block])
  have hlast := hsub (a := 0x100105022) (by constructor <;> decide)
  exact absurd hlast.2 (by decide)

end RedFox32.Kernel.Memory
