import RedFox32.Kernel.Memory.Layout

/-!
# When the evaluation of `malloc` is finite

The nested requests and the restarts of the scan make no progress: the position moves only when a block
is placed, and no request that meets a flagged entry ever places one.
-/

namespace RedFox32.Kernel.Memory

open RedFox32.Machine

/-- The evaluation of `malloc(size)` is finite: it returns or reaches the out-of-memory loop. -/
def Ends (h : Heap) (size : Word) : Prop := ∃ fuel o, malloc fuel h size = some o

/-- **`malloc` ends** exactly when it is asked for nothing, when the bounds refuse the request, or when
no entry is flagged or the first flagged one starts below `MEMORY_START`. -/
theorem malloc_ends_iff (h : Heap) (size : Word) :
    Ends h size ↔ size = 0 ∨ outOfBounds h.nextAllocationPosition size ∨
      ∀ j, FirstFlagged h size j → (h.entry j).start32 < memoryStart := by
  by_cases hs : size = 0
  · subst hs
    exact iff_of_true ⟨1, _, malloc_zero 0⟩ (.inl rfl)
  rcases malloc_cases h hs with ⟨ha, f, hf⟩ | ⟨hb, f, hf⟩ | ⟨j, hb, hj, hcase⟩
  · refine iff_of_true ⟨f, _, hf⟩ (.inr (.inr fun j hj => ?_))
    exact absurd hj.2.1 (ha.2 _ (mem_map.2 ⟨j, hj.1, rfl⟩))
  · exact iff_of_true ⟨f, _, hf⟩ (.inr (.inl hb))
  rcases hcase with ⟨hlow, f, hf⟩ | ⟨hhigh, hf⟩
  · refine iff_of_true ⟨f, _, hf⟩ (.inr (.inr fun k hk => ?_))
    rwa [hk.unique hj]
  · refine iff_of_false ?_ ?_
    · rintro ⟨fuel, o, ho⟩
      simp [hf] at ho
    · rintro (h0 | hb' | hall)
      · exact hs h0
      · exact hb hb'
      · exact absurd (hall j hj) (BitVec.not_lt.2 hhigh)

/-- One reserved region at 2 MiB, and a request that ends inside it. -/
theorem malloc_never_ends :
    ¬ Ends (declaredHeap [⟨0x200000, 0x100000, 2, 1⟩]) 0x100000 := by
  rintro ⟨fuel, o, ho⟩
  have hj : FirstFlagged (declaredHeap [⟨0x200000, 0x100000, 2, 1⟩]) 0x100000 0 :=
    ⟨by decide, by decide, by omega⟩
  rw [malloc_diverges (by decide) (by decide) hj (by decide)] at ho
  simp at ho

end RedFox32.Kernel.Memory
