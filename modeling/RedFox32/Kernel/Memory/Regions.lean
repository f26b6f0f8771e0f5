import RedFox32.Kernel.Memory.Session

/-!
# Blocks and the regions of the map

`CanSafelyAllocate` asks of every entry, whatever its type, whether one of the two ends of the request
lies in it, and computes the ends of the entry in 32 bits.  So a reserved region can lie under a block,
and a usable region can keep the allocator from everything behind it.
-/

namespace RedFox32.Kernel.Memory

open RedFox32.Machine

namespace MemoryMapEntry

variable (e : MemoryMapEntry)

/-- The bytes that the entry describes, as exact integers. -/
def region : Extent := ⟨e.start.toNat, e.start.toNat + e.length.toNat⟩

theorem end32_toNat (hlt : e.start.toNat + e.length.toNat < 2 ^ 32) :
    e.end32.toNat = e.start.toNat + e.length.toNat := by
  unfold end32 start32
  rw [BitVec.toNat_add, BitVec.toNat_setWidth, BitVec.toNat_setWidth]
  omega

theorem start32_toNat (hlt : e.start.toNat < 2 ^ 32) : e.start32.toNat = e.start.toNat := by
  unfold start32
  rw [BitVec.toNat_setWidth]
  omega

end MemoryMapEntry

/-! ### Reserved regions -/

/-- A region that the tests do not see although it meets the block: it lies strictly between the two
ends of the request; or it starts behind the request, where the header moves the data; or it ends at or
past 4 GiB, and the sum that the tests use has wrapped. -/
def Unseen (position size : Word) (e : MemoryMapEntry) : Prop :=
  0 < e.length.toNat ∧
    ((position.toNat < e.start.toNat ∧
        e.start.toNat + e.length.toNat < position.toNat + size.toNat) ∨
      (position.toNat + size.toNat < e.start.toNat ∧
        e.start.toNat < position.toNat + size.toNat + 17) ∨
      (2 ^ 32 ≤ e.start.toNat + e.length.toNat ∧
        e.start.toNat < position.toNat + size.toNat + 17))

/-- What the tests know of an entry below 4 GiB that they did not flag. -/
theorem not_flags_cases {position size : Word} {e : MemoryMapEntry}
    (hf : ¬ Flags position size e) (hlt : e.start.toNat + e.length.toNat < 2 ^ 32) :
    e.start.toNat + e.length.toNat < position.toNat ∨
      (position.toNat < e.start.toNat ∧
        ((position + size).toNat < e.start.toNat ∨
          e.start.toNat + e.length.toNat < (position + size).toNat)) := by
  have hs := e.start32_toNat (by omega)
  have he := e.end32_toNat hlt
  unfold Flags at hf
  simp only [BitVec.lt_def, BitVec.le_def] at hf
  omega

/-- **A block and a region**: a request that passes the tests overlaps the region of an entry exactly
if the tests do not see it. -/
theorem Admits.disjoint_iff {h : Heap} {size : Word} (hs : size ≠ 0) (ha : Admits h size)
    {e : MemoryMapEntry} (he : e ∈ h.map) :
    Disjoint (Extent.bytes ⟨h.nextAllocationPosition.toNat,
        h.nextAllocationPosition.toNat + 17 + size.toNat⟩) e.region.bytes ↔
      ¬ Unseen h.nextAllocationPosition size e := by
  obtain ⟨-, hhi⟩ := ha.position
  have hb := (not_or.1 ha.1).2
  have hf := ha.2 e he
  have hsize : 0 < size.toNat := by bv_omega
  unfold memoryEnd at hhi
  unfold memoryStart memoryEnd at hb
  simp only [BitVec.lt_def, BitVec.toNat_add] at hb
  unfold Unseen Extent.bytes MemoryMapEntry.region
  rw [Set.Ico_disjoint_Ico]
  rcases Nat.lt_or_ge (e.start.toNat + e.length.toNat) (2 ^ 32) with hlt | hge
  · have hcase := not_flags_cases hf hlt
    rw [BitVec.toNat_add] at hcase
    simp only [min_le_iff, le_max_iff]
    omega
  · simp only [min_le_iff, le_max_iff]
    omega

/-- The block that the call returns keeps clear of every region that is not usable. -/
def AvoidsReserved (t : Transition Heap HeapCall) : Prop :=
  ∀ b, t.label.block = some b →
    ∀ e ∈ t.pre.map, e.type ≠ mmapTypeUsable → Disjoint b.bytes e.region.bytes

/-- The tests see every region that is not usable. -/
def SeesReserved (t : Transition Heap HeapCall) : Prop :=
  ∀ size p, t.label = .malloc size p → size ≠ 0 →
    ∀ e ∈ t.pre.map, e.type ≠ mmapTypeUsable → ¬ Unseen t.pre.nextAllocationPosition size e

theorem HeapStep.avoids_iff_sees {t : Transition Heap HeapCall}
    (hstep : HeapStep t.pre t.label t.post) : AvoidsReserved t ↔ SeesReserved t := by
  obtain ⟨h, c, h'⟩ := t
  rcases hstep.placed with ⟨hnone, -, hzero⟩ | ⟨size, hs, ha, heq, -⟩
  · refine iff_of_true (fun b hb => ?_) fun size p hc hne => absurd (hzero size p hc) hne
    rw [hnone] at hb
    cases hb
  · dsimp only at ha heq
    subst heq
    unfold AvoidsReserved SeesReserved
    simp only [ha.block, Option.some.injEq, forall_eq', HeapCall.malloc.injEq, and_imp]
    constructor
    · rintro hall _ _ rfl rfl - e he htype
      exact (ha.disjoint_iff hs he).1 (hall e he htype)
    · intro hall e he htype
      exact (ha.disjoint_iff hs he).2 (hall _ _ rfl rfl hs e he htype)

/-- **The blocks of a run avoid the reserved regions** exactly when the tests see all of them. -/
theorem avoidsReserved_iff {boot h : Heap} {map : Word} {tr : List (Transition Heap HeapCall)}
    (hrun : Run HeapStep (memoryManagementSetup boot map) tr h) :
    (∀ t ∈ tr, AvoidsReserved t) ↔ ∀ t ∈ tr, SeesReserved t :=
  forall₂_congr fun _ ht => (hrun.step_of_mem ht).avoids_iff_sees

/-- A map with one reserved page. -/
def pageMap : List MemoryMapEntry := [⟨0x200000, 0x1000, 2, 1⟩]

/-- A request of two megabytes around the page. -/
def overPage : Transition Heap HeapCall :=
  ⟨declaredHeap pageMap, .malloc 0x200000 0x105011, (declaredHeap pageMap).place 0x200000⟩

theorem step_overPage : HeapStep overPage.pre overPage.label overPage.post := by
  refine .malloc (malloc_returns_iff.2 (.inr ⟨by decide, ⟨by decide, ?_⟩, by decide, rfl⟩))
  have hmap : overPage.pre.map = pageMap := map_declaredHeap _ (by decide)
  rw [hmap]
  decide

theorem avoidsReserved_iff_overPage :
    (∀ t ∈ [overPage], AvoidsReserved t) ↔ ∀ t ∈ [overPage], SeesReserved t :=
  avoidsReserved_iff (.snoc .nil step_overPage)

/-- **A reserved page under a block.** -/
theorem block_over_reserved_page : ∃ tr h, Run HeapStep (declaredHeap pageMap) tr h ∧
    tr.map Transition.label = [.malloc 0x200000 0x105011] ∧ ¬ ∀ t ∈ tr, AvoidsReserved t := by
  refine ⟨[overPage], _, .snoc .nil step_overPage, rfl, fun hall => ?_⟩
  have hmap : overPage.pre.map = pageMap := map_declaredHeap _ (by decide)
  have hdisj := hall _ (List.mem_singleton.2 rfl) (blockExtent 0x105011 0x200000)
    (by simp [overPage, HeapCall.block]) ⟨0x200000, 0x1000, 2, 1⟩ (by simp [hmap, pageMap]) (by decide)
  have hblock : (0x200000 : ℤ) ∈ (blockExtent 0x105011 0x200000).bytes := by
    constructor <;> decide
  have hpage : (0x200000 : ℤ) ∈ (MemoryMapEntry.region ⟨0x200000, 0x1000, 2, 1⟩).bytes := by
    constructor <;> decide
  exact Set.disjoint_left.1 hdisj hblock hpage

/-! ### Usable regions -/

/-- The position never falls below `MEMORY_START`, whatever the requests overshoot. -/
theorem memoryStart_le_position {boot h : Heap} {map : Word} {tr : List (Transition Heap HeapCall)}
    (hrun : Run HeapStep (memoryManagementSetup boot map) tr h) :
    memoryStart.toNat ≤ h.nextAllocationPosition.toNat := by
  refine (hrun.invariant (I := fun h => memoryStart.toNat ≤ h.nextAllocationPosition.toNat)
    (C := fun _ => True) le_rfl (fun t hpre hstep _ => ?_) fun _ _ => trivial).1
  rcases hstep.placed with ⟨-, hnext, -⟩ | ⟨size, -, ha, -, hpost⟩
  · rwa [hnext]
  · have hb := (not_or.1 ha.1).2
    rw [hpost, place_nextAllocationPosition]
    unfold memoryStart memoryEnd at hb
    unfold memoryStart sizeofAllocation
    bv_omega

/-- A run of `Size + 18` bytes at or above the position and below the upper bound, inside one usable
entry. -/
def HasRoom (h : Heap) (size : Word) : Prop :=
  ∃ e ∈ h.map, e.type = mmapTypeUsable ∧ ∃ a : ℕ,
    h.nextAllocationPosition.toNat ≤ a ∧ a + size.toNat + 18 ≤ memoryEnd.toNat ∧
      e.start.toNat ≤ a ∧ a + size.toNat + 18 ≤ e.start.toNat + e.length.toNat

/-- `malloc` returns a block. -/
def Succeeds (h : Heap) (size : Word) : Prop :=
  ∃ fuel p h', p ≠ 0 ∧ malloc fuel h size = some (.ret p h')

theorem succeeds_iff_admits {h : Heap} {size : Word} (hs : size ≠ 0) :
    Succeeds h size ↔ Admits h size := by
  constructor
  · rintro ⟨fuel, p, h', hp, hret⟩
    rcases malloc_returns_iff.1 ⟨fuel, hret⟩ with ⟨h0, -⟩ | ⟨-, ha, -⟩
    · exact absurd h0 hs
    · exact ha
  · intro ha
    obtain ⟨fuel, hret⟩ := malloc_returns_iff.2 (.inr ⟨hs, ha, rfl, rfl⟩)
    exact ⟨fuel, _, _, ha.dataAddr_ne_zero, hret⟩

/-- **With room in a usable region**, `malloc` returns a block exactly when no entry of the map, of
whatever type, holds one of the two ends of the request. -/
theorem succeeds_iff_of_hasRoom {boot h : Heap} {map : Word} {tr : List (Transition Heap HeapCall)}
    {size : Word} (hrun : Run HeapStep (memoryManagementSetup boot map) tr h) (hs : size ≠ 0)
    (hroom : HasRoom h size) :
    Succeeds h size ↔ ∀ e ∈ h.map, ¬ Flags h.nextAllocationPosition size e := by
  have hstart := memoryStart_le_position hrun
  obtain ⟨e, -, -, a, hpos, hend, -, -⟩ := hroom
  have hb : ¬ outOfBounds h.nextAllocationPosition size := by
    unfold outOfBounds memoryStart memoryEnd
    unfold memoryStart at hstart
    unfold memoryEnd at hend
    bv_omega
  rw [succeeds_iff_admits hs]
  exact and_iff_right hb

/-- On the map of QEMU there is room behind `MEMORY_START`. -/
theorem hasRoom_qemu : HasRoom (declaredHeap qemuMap) 1024 := by
  refine ⟨⟨0x100000, 0x07EE0000, 1, 1⟩, ?_, by decide, 0x105000, by decide, by decide, by decide,
    by decide⟩
  rw [map_declaredHeap _ (by decide)]
  simp [qemuMap]

theorem succeeds_iff_of_hasRoom_qemu : Succeeds (declaredHeap qemuMap) 1024 ↔
    ∀ e ∈ (declaredHeap qemuMap).map,
      ¬ Flags (declaredHeap qemuMap).nextAllocationPosition 1024 e :=
  succeeds_iff_of_hasRoom .nil (by decide) hasRoom_qemu

/-- **The usable region around `MEMORY_START` stops the allocator** on the map of QEMU. -/
theorem qemu_usable_region_refused :
    (qemuMap.Pairwise fun d e => Disjoint d.region.bytes e.region.bytes) ∧
      HasRoom (declaredHeap qemuMap) 1024 ∧ ¬ Succeeds (declaredHeap qemuMap) 1024 := by
  refine ⟨?_, hasRoom_qemu, fun hret => ?_⟩
  · simp [qemuMap, MemoryMapEntry.region, Extent.bytes, Set.Ico_disjoint_Ico]
  · have ha := (succeeds_iff_admits (by decide)).1 hret
    have hmem : (⟨0x100000, 0x07EE0000, 1, 1⟩ : MemoryMapEntry) ∈ (declaredHeap qemuMap).map := by
      rw [map_declaredHeap _ (by decide)]
      simp [qemuMap]
    exact ha.2 _ hmem (by decide)

end RedFox32.Kernel.Memory
