import RedFox32.Kernel.Memory.Validity

/-!
# The contents of a block

`realloc` keeps the bytes of a block that stays where it is.  A block that has a next one does not grow
there: `realloc` calls `malloc` and then `free`, and copies nothing in between.
-/

namespace RedFox32.Kernel.Memory

open RedFox32.Machine RedFox32.Machine.Mem

/-- `realloc` leaves the block of `p` where it is. -/
def Heap.Stays (h : Heap) (p size : Word) : Prop := size ≤ h.lengthOf p ∨ h.nextOf p = 0

instance (h : Heap) (p size : Word) : Decidable (h.Stays p size) := by
  unfold Heap.Stays; infer_instance

/-! ### One call -/

section Call

variable {h h' : Heap} {p q size : Word} {k : ℕ}

theorem not_stays (hlt : h.lengthOf p < size) (hnext : h.nextOf p ≠ 0) : ¬ h.Stays p size :=
  not_or.2 ⟨BitVec.not_le.2 hlt, hnext⟩

theorem resize_sameBytes (hk : k + 17 ≤ 2 ^ 32) : SameBytes h.mem p (h.resize p size).mem p k := by
  refine resize_changes.sameBytes ?_ (by omega)
  unfold Apart sizeofAllocation
  constructor <;> bv_omega

/-- A new block keeps what lay in its data before. -/
theorem place_sameBytes (hap : Apart h.nextAllocationPosition 17 q k)
    (hlast : Apart (nextAddr h.memoryAllocationList.last) 4 q k) (hk : k ≤ 2 ^ 32) :
    SameBytes h.mem q (h.place size).mem q k := by
  obtain ⟨m, m', hm, rfl, hm'⟩ := place_changes h size
  refine SameBytes.trans ?_ (hm'.sameBytes hap hk)
  refine (hm.sameBytes hap hk).trans ?_
  split_ifs
  · intro i hi
    exact store_outside (hlast.left_le hi hk)
  · intro i hi
    rfl

/-- A call that moves the block finds the bytes at `NextAllocationPosition` as they were. -/
theorem move_sameBytes_iff
    (hpos : Apart h.nextAllocationPosition 17 (dataAddr h.nextAllocationPosition) k)
    (hlast : Apart (nextAddr h.memoryAllocationList.last) 4 (dataAddr h.nextAllocationPosition) k)
    (hold : Apart (p - sizeofAllocation) 17 (dataAddr h.nextAllocationPosition) k)
    (hk : k ≤ 2 ^ 32) :
    SameBytes h.mem p ((h.place size).free p).mem (dataAddr h.nextAllocationPosition) k ↔
      SameBytes h.mem p h.mem (dataAddr h.nextAllocationPosition) k := by
  have hplace : SameBytes h.mem _ (h.place size).mem _ k := place_sameBytes hpos hlast hk
  have hfree : SameBytes (h.place size).mem _ ((h.place size).free p).mem _ k :=
    free_changes.sameBytes hold hk
  exact (hplace.trans hfree).congr_right

end Call

/-! ### Blocks in the address space -/

/-- Where the blocks in use lie: they start at or below `NextAllocationPosition`, and end inside the
address space.  Their headers may say anything. -/
structure InSpace (h : Heap) (live : Word → Option Word) : Prop where
  start : memoryStart.toNat ≤ h.nextAllocationPosition.toNat
  last_le : h.nextAllocationPosition = memoryStart ∨
    h.memoryAllocationList.last.toNat + 17 ≤ h.nextAllocationPosition.toNat
  inside : ∀ p n, live p = some n → memoryStart.toNat + 17 ≤ p.toNat ∧
    p.toNat ≤ h.nextAllocationPosition.toNat ∧ p.toNat + n.toNat ≤ 2 ^ 32

/-- The request takes no block past the end of the address space, and `realloc` is called for a block
in use. -/
def Session.Fits (s : Session) : Request → Prop
  | .call (.malloc size _) => s.heap.nextAllocationPosition.toNat + size.toNat ≤ 2 ^ 32
  | .call (.free _) => True
  | .call (.write _ _) => True
  | .realloc p size _ => s.heap.magicOf p = allocationHeaderMagic → s.live p ≠ none ∧
      (if s.heap.Stays p size then p else s.heap.nextAllocationPosition).toNat + size.toNat ≤ 2 ^ 32

section InSpace

variable {h : Heap} {s s' : Session} {live : Word → Option Word} {p q size n : Word}

theorem inSpace_setup (boot : Heap) (map : Word) :
    InSpace (memoryManagementSetup boot map) fun _ => none where
  start := le_rfl
  last_le := .inl rfl
  inside _ _ hp := by cases hp

/-- A request that passes the bounds test without a wrapped sum ends below the upper bound. -/
theorem Admits.end_le (ha : Admits h size)
    (hfit : h.nextAllocationPosition.toNat + size.toNat ≤ 2 ^ 32) :
    h.nextAllocationPosition.toNat + size.toNat ≤ memoryEnd.toNat := by
  have hb := ha.1
  unfold outOfBounds memoryStart memoryEnd at hb
  unfold memoryEnd
  bv_omega

theorem InSpace.forget (hi : InSpace h live) (p : Word) : InSpace h (Function.update live p none) where
  start := hi.start
  last_le := hi.last_le
  inside q k hq := hi.inside q k (update_none hq).2

/-- The bookkeeping depends on the position and on the last block only. -/
theorem InSpace.congr {h' : Heap} (hi : InSpace h live)
    (hnext : h'.nextAllocationPosition = h.nextAllocationPosition)
    (hlist : h'.memoryAllocationList.last = h.memoryAllocationList.last) : InSpace h' live where
  start := by simpa only [hnext] using hi.start
  last_le := by simpa only [hnext, hlist] using hi.last_le
  inside := by simpa only [hnext] using hi.inside

/-- **A new block.** -/
theorem InSpace.place (hi : InSpace h live) (ha : Admits h size)
    (hfit : h.nextAllocationPosition.toNat + size.toNat ≤ 2 ^ 32) :
    InSpace (h.place size)
      (Function.update live (dataAddr h.nextAllocationPosition) (some size)) := by
  have hdata := ha.dataAddr_toNat
  have hend := ha.end_le hfit
  have hstart := hi.start
  have hlast : (h.place size).memoryAllocationList.last = h.nextAllocationPosition := rfl
  have hnext : (h.place size).nextAllocationPosition.toNat =
      h.nextAllocationPosition.toNat + size.toNat + 18 := by
    unfold memoryEnd at hend
    simp only [place_nextAllocationPosition, sizeofAllocation]
    bv_omega
  constructor
  · omega
  · right
    rw [hlast, hnext]
    omega
  · intro q k hq
    rcases update_some hq with ⟨rfl, rfl⟩ | ⟨-, hq⟩
    · rw [hdata, hnext]
      omega
    · have hin := hi.inside q k hq
      omega

/-- **A block with a new length.** -/
theorem InSpace.resize {old : Word} (hi : InSpace h live) (hp : live p = some old)
    (hend : p.toNat + size.toNat ≤ 2 ^ 32) :
    InSpace (h.resize p size) (Function.update live p (some size)) := by
  refine ⟨hi.start, hi.last_le, fun q k hq => ?_⟩
  rcases update_some hq with ⟨rfl, rfl⟩ | ⟨-, hq⟩
  · obtain ⟨hlow, hle, -⟩ := hi.inside q old hp
    exact ⟨hlow, hle, hend⟩
  · exact hi.inside q k hq

/-- **One request** keeps the blocks in use inside the address space. -/
theorem InSpace.step {e : Request} (hi : InSpace s.heap s.live) (hstep : SessionStep s e s')
    (hfit : s.Fits e) : InSpace s'.heap s'.live := by
  cases hstep with
  | @call h h' c live hcall =>
    cases hcall with
    | malloc hret =>
      rcases malloc_returns_iff.1 hret with ⟨rfl, rfl, rfl⟩ | ⟨-, ha, rfl, rfl⟩
      · exact hi
      · simp only [HeapCall.live, if_neg ha.dataAddr_ne_zero]
        exact InSpace.place hi ha hfit
    | free p =>
      exact (InSpace.forget hi p).congr (free_nextAllocationPosition p)
        (by rw [free_memoryAllocationList])
    | write a v => exact InSpace.congr hi rfl rfl
  | @realloc h h' p size q live hret =>
    rcases realloc_returns hret with ⟨-, rfl, rfl⟩ | ⟨hm, hstay, rfl, rfl⟩ |
      ⟨hm, hlt, hnext, ha, rfl, rfl⟩
    · exact hi
    · have hstays : h.Stays q size := hstay
      obtain ⟨hlive, hend⟩ := hfit hm
      obtain ⟨old, hp⟩ := Option.ne_none_iff_exists'.1 hlive
      have hin := hi.inside q old hp
      have hq : q ≠ 0 := by
        rintro rfl
        simp at hin
      rw [if_pos hstays] at hend
      rw [if_neg hq, Function.update_idem]
      exact InSpace.resize hi hp hend
    · obtain ⟨-, hend⟩ := hfit hm
      have hmove : ¬ h.Stays p size := not_stays hlt hnext
      rw [if_neg hmove] at hend
      rw [if_neg ha.dataAddr_ne_zero]
      exact ((InSpace.forget hi p).place ha hend).congr (free_nextAllocationPosition p)
        (by rw [free_memoryAllocationList])

/-- **What `realloc` does to the contents** of a block in use. -/
theorem InSpace.realloc_sameBytes_iff {h' : Heap} (hi : InSpace s.heap s.live)
    (hfit : ¬ s.heap.Stays p size → s.heap.nextAllocationPosition.toNat + size.toNat ≤ 2 ^ 32)
    (hp : s.live p = some n) (hq : q ≠ 0)
    (hret : ∃ fuel, realloc fuel s.heap p size = some (.ret q h')) :
    SameBytes s.heap.mem p h'.mem q (min n.toNat size.toNat) ↔
      s.heap.Stays p size ∨ SameBytes s.heap.mem p s.heap.mem
        (dataAddr s.heap.nextAllocationPosition) (min n.toNat size.toNat) := by
  have hin := hi.inside p n hp
  simp only [memoryStart] at hin
  rcases realloc_returns hret with ⟨-, rfl, -⟩ | ⟨-, hstay, rfl, rfl⟩ |
    ⟨-, hlt, hnext, ha, rfl, rfl⟩
  · exact absurd rfl hq
  · exact iff_of_true (resize_sameBytes (by bv_omega)) (.inl hstay)
  · have hmove : ¬ s.heap.Stays p size := not_stays hlt hnext
    have hend := ha.end_le (hfit hmove)
    -- a block in use stands below the position, and the last block does too
    have hlast := hi.last_le.resolve_left fun heq => by
      rw [heq] at hin
      simp only [memoryStart] at hin
      bv_omega
    have hdata := ha.dataAddr_toNat
    rw [or_iff_right hmove]
    refine move_sameBytes_iff ?_ ?_ ?_ (by omega)
    · unfold Apart memoryEnd at *
      constructor <;> bv_omega
    · unfold Apart nextAddr memoryEnd at *
      constructor <;> bv_omega
    · unfold Apart sizeofAllocation memoryEnd at *
      constructor <;> bv_omega

end InSpace

/-- **The contents come through `realloc`** exactly where the block stays, or where the bytes behind
`NextAllocationPosition` already are those of the block. -/
theorem realloc_keeps_iff {boot : Heap} {map : Word} {tr : List (Transition Session Request)}
    {s : Session} (hrun : Run SessionStep ⟨memoryManagementSetup boot map, fun _ => none⟩ tr s)
    (hfits : ∀ t ∈ tr, t.pre.Fits t.label) {p size q n : Word} {h' : Heap}
    (hfit : ¬ s.heap.Stays p size → s.heap.nextAllocationPosition.toNat + size.toNat ≤ 2 ^ 32)
    (hp : s.live p = some n) (hq : q ≠ 0)
    (hret : ∃ fuel, realloc fuel s.heap p size = some (.ret q h')) :
    SameBytes s.heap.mem p h'.mem q (min n.toNat size.toNat) ↔
      s.heap.Stays p size ∨ SameBytes s.heap.mem p s.heap.mem
        (dataAddr s.heap.nextAllocationPosition) (min n.toNat size.toNat) := by
  obtain ⟨hi, -⟩ := hrun.invariant (I := fun s => InSpace s.heap s.live)
    (C := fun t => t.pre.Fits t.label) (inSpace_setup boot map)
    (fun t hi hstep hc => hi.step hstep hc) hfits
  exact hi.realloc_sameBytes_iff hfit hp hq hret

/-- The block of eight bytes with a letter in it. -/
def letterSession : Session := eightBytesSession.wrote 0x105011 0x41

/-- A block that shrinks. -/
theorem realloc_keeps_iff_shrink :
    SameBytes letterSession.heap.mem 0x105011 (letterSession.heap.resize 0x105011 4).mem 0x105011
        (min (8 : Word).toNat (4 : Word).toNat) ↔
      letterSession.heap.Stays 0x105011 4 ∨ SameBytes letterSession.heap.mem 0x105011
        letterSession.heap.mem (dataAddr letterSession.heap.nextAllocationPosition)
        (min (8 : Word).toNat (4 : Word).toNat) := by
  have hrun := (Run.nil.snoc step_eightBytes).snoc (step_wrote _ 0x105011 0x41)
  refine realloc_keeps_iff hrun (fun t ht => ?_) (q := 0x105011) (fun hmove => absurd (.inl ?_) hmove)
    (by decide) (by decide) ⟨0, realloc_in_place (by decide) (.inr (by decide))⟩
  · simp only [List.nil_append, List.cons_append, List.mem_cons, List.not_mem_nil, or_false] at ht
    rcases ht with rfl | rfl
    · show (declaredHeap []).nextAllocationPosition.toNat + (8 : Word).toNat ≤ 2 ^ 32
      decide
    · trivial
  · decide

/-- Two blocks of eight bytes, and a letter in the first one. -/
def lettersSession : Session :=
  Session.wrote ⟨eightBytes.place 8, (HeapCall.malloc 8 0x10502B).live eightBytesSession.live⟩
    0x105011 0x41

/-- **A block that grows away from the next one** leaves its bytes behind. -/
theorem realloc_loses_contents : ∃ tr h',
    Run SessionStep ⟨declaredHeap [], fun _ => none⟩ tr lettersSession ∧
      tr.map Transition.label = [.call (.malloc 8 0x105011), .call (.malloc 8 0x10502B),
        .call (.write 0x105011 0x41)] ∧
      lettersSession.live 0x105011 = some 8 ∧
      (∃ fuel, realloc fuel lettersSession.heap 0x105011 16 = some (.ret 0x105045 h')) ∧
      ¬ SameBytes lettersSession.heap.mem 0x105011 h'.mem 0x105045
        (min (8 : Word).toNat (16 : Word).toNat) := by
  have hnext : HeapStep eightBytes (.malloc 8 0x10502B) (eightBytes.place 8) :=
    .malloc_of_empty (by decide) (by decide) (by decide)
  have hrun := ((Run.nil.snoc step_eightBytes).snoc (.call hnext)).snoc (step_wrote _ 0x105011 0x41)
  have hmoves : ∃ fuel, realloc fuel lettersSession.heap 0x105011 16 =
      some (.ret 0x105045 ((lettersSession.heap.place 16).free 0x105011)) :=
    realloc_moves (by decide) (by decide) (by decide) (admits_of_empty (by decide) (by decide))
  refine ⟨_, _, hrun, rfl, by decide, hmoves, fun hsame => ?_⟩
  -- the first byte is still the one of an empty memory
  exact absurd (hsame 0 (by decide)) (by decide)

end RedFox32.Kernel.Memory
