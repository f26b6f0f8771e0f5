import RedFox32.Kernel.Memory.Session

/-!
# Runs with `realloc`

`realloc` grows a block where it stands when its `Next` is null, and takes that to mean that nothing
lies behind it.  `Next` is only written when a block is placed behind, so this is right for the blocks
there are; but `NextAllocationPosition` stays where it was, and the next block is placed there.
-/

namespace RedFox32.Kernel.Memory

open RedFox32.Machine RedFox32.Machine.Mem

/-! ### Headers -/

namespace Heap

variable (h : Heap) (data : Word)

/-- The magic word of the block of `data`. -/
def magicOf : Word := h.mem.load32 (data - sizeofAllocation)

/-- The field `Next` of the block of `data`. -/
def nextOf : Word := h.mem.load32 (nextAddr (data - sizeofAllocation))

/-- The field `Length` of the block of `data`. -/
def lengthOf : Word := h.mem.load32 (lengthAddr (data - sizeofAllocation))

/-- The heap with another `Length` in the block of `data`. -/
def resize (size : Word) : Heap :=
  { h with mem := h.mem.store32 (lengthAddr (data - sizeofAllocation)) size }

end Heap

section Header

variable {h h' : Heap} {p q size : Word} {a : Word} {n : ℕ}

theorem dataAddr_header : dataAddr (p - sizeofAllocation) = p := by
  unfold dataAddr
  exact BitVec.sub_add_cancel p _

theorem dataAddr_sub : dataAddr p - sizeofAllocation = p := by
  unfold dataAddr
  exact BitVec.add_sub_cancel p _

/-- `realloc` in terms of what the header says. -/
theorem realloc_eq (fuel : ℕ) (h : Heap) (p size : Word) : realloc fuel h p size =
    if h.magicOf p ≠ allocationHeaderMagic then some (.ret 0 h)
    else if size ≤ h.lengthOf p then some (.ret p (h.resize p size))
    else if h.nextOf p = 0 then some (.ret p (h.resize p size))
    else andThen (malloc fuel h size) fun new h' =>
      if new = 0 then some (.ret 0 h') else some (.ret new (h'.free p)) := by
  unfold realloc
  dsimp only
  rw [dataAddr_header]
  rfl

/-- **The three ways `realloc` returns**: it refuses the pointer, it changes the length in place, or it
places a new block and frees the old one. -/
theorem realloc_returns (hret : ∃ fuel, realloc fuel h p size = some (.ret q h')) :
    (h.magicOf p ≠ allocationHeaderMagic ∧ q = 0 ∧ h' = h) ∨
    (h.magicOf p = allocationHeaderMagic ∧ (size ≤ h.lengthOf p ∨ h.nextOf p = 0) ∧ q = p ∧
      h' = h.resize p size) ∨
    (h.magicOf p = allocationHeaderMagic ∧ h.lengthOf p < size ∧ h.nextOf p ≠ 0 ∧ Admits h size ∧
      q = dataAddr h.nextAllocationPosition ∧ h' = (h.place size).free p) := by
  obtain ⟨fuel, hret⟩ := hret
  rw [realloc_eq] at hret
  split_ifs at hret with hm hl hn
  · cases hret
    exact .inl ⟨hm, rfl, rfl⟩
  · cases hret
    exact .inr (.inl ⟨not_ne_iff.1 hm, .inl hl, rfl, rfl⟩)
  · cases hret
    exact .inr (.inl ⟨not_ne_iff.1 hm, .inr hn, rfl, rfl⟩)
  · have hsize : size ≠ 0 := by
      rintro rfl
      simp at hl
    rw [andThen_eq_some] at hret
    rcases hret with ⟨new, g, hmalloc, hk⟩ | ⟨g, -, hk⟩
    · rcases malloc_returns_iff.1 ⟨fuel, hmalloc⟩ with ⟨h0, -⟩ | ⟨-, ha, rfl, rfl⟩
      · exact absurd h0 hsize
      · rw [if_neg ha.dataAddr_ne_zero] at hk
        cases hk
        exact .inr (.inr ⟨not_ne_iff.1 hm, BitVec.not_le.1 hl, hn, ha, rfl, rfl⟩)
    · cases hk

/-- What the header of `p` says does not change with bytes apart from it. -/
theorem lengthOf_eq (hch : ChangesOnly a n h.mem h'.mem) (hn : 0 < n)
    (hap : Apart a n (p - sizeofAllocation) 17) : h'.lengthOf p = h.lengthOf p :=
  hch.load32 (hap.symm.inner (i := 12) (by omega) (by omega) hn).symm

theorem nextOf_eq (hch : ChangesOnly a n h.mem h'.mem) (hn : 0 < n)
    (hap : Apart a n (p - sizeofAllocation) 17) : h'.nextOf p = h.nextOf p :=
  hch.load32 (hap.symm.inner (i := 8) (by omega) (by omega) hn).symm

/-! ### What the operations change -/

theorem free_changes : ChangesOnly (p - sizeofAllocation) 17 h.mem (h.free p).mem := by
  unfold Heap.free
  dsimp only
  split_ifs
  · have h0 := (ChangesOnly.refl (m := h.mem) (a := p - sizeofAllocation) (n := 17)).store
      (i := 16) (k := 1) (v := 0) (by omega) (by omega)
    have h1 := h0.store (i := 0) (k := 4) (v := (h.mem.store8 (flagsAddr (p - sizeofAllocation)) 0).load32
      (p - sizeofAllocation) + 1) (by omega) (by omega)
    simpa [store32, store8, flagsAddr] using h1
  · exact ChangesOnly.refl

theorem resize_changes : ChangesOnly (p - sizeofAllocation) 17 h.mem (h.resize p size).mem :=
  ChangesOnly.refl.store (i := 12) (k := 4) (by omega) (by omega)

theorem nextOf_resize : (h.resize p size).nextOf p = h.nextOf p := by
  refine load32_store_of_apart ?_
  unfold Apart lengthAddr nextAddr
  constructor <;> bv_omega

theorem lengthOf_resize : (h.resize p size).lengthOf p = size := load32_store32_self size

variable (h size) in
/-- **What `place` changes**: the new header, and `Next` of the last block. -/
theorem place_changes : ∃ m m',
    ChangesOnly h.nextAllocationPosition 17 h.mem m ∧
    m' = (if h.nextAllocationPosition ≠ memoryStart then
      m.store32 (nextAddr h.memoryAllocationList.last) h.nextAllocationPosition else m) ∧
    ChangesOnly h.nextAllocationPosition 17 m' (h.place size).mem := by
  have hlast : ∀ m, ChangesOnly h.nextAllocationPosition 17 m
      (((m.store32 h.nextAllocationPosition allocationHeaderMagic).store8
        (flagsAddr h.nextAllocationPosition) 1).store32 (lengthAddr h.nextAllocationPosition) size) := by
    intro m
    have h0 := (ChangesOnly.refl (m := m) (a := h.nextAllocationPosition) (n := 17)).store
      (i := 0) (k := 4) (v := allocationHeaderMagic) (by omega) (by omega)
    have h1 := h0.store (i := 16) (k := 1) (v := 1) (by omega) (by omega)
    have h2 := h1.store (i := 12) (k := 4) (v := size) (by omega) (by omega)
    simpa [store32, store8, flagsAddr, lengthAddr] using h2
  have hfirst : ∀ v, ChangesOnly h.nextAllocationPosition 17 h.mem
      (h.mem.store32 (previousAddr h.nextAllocationPosition) v) :=
    fun v => ChangesOnly.refl.store (i := 4) (k := 4) (by omega) (by omega)
  unfold Heap.place
  dsimp only
  by_cases hp : h.nextAllocationPosition ≠ memoryStart
  · simp only [if_pos hp, load32_store32_self]
    exact ⟨_, _, hfirst _, rfl, hlast _⟩
  · simp only [if_neg hp]
    exact ⟨_, _, hfirst _, rfl, hlast _⟩

theorem place_load32 (hap : Apart h.nextAllocationPosition 17 a 4)
    (hlast : Apart (nextAddr h.memoryAllocationList.last) 4 a 4) :
    (h.place size).mem.load32 a = h.mem.load32 a := by
  obtain ⟨m, m', hm, rfl, hm'⟩ := place_changes h size
  rw [hm'.load32 hap]
  split_ifs
  · exact (load32_store_of_apart hlast).trans (hm.load32 hap)
  · exact hm.load32 hap

theorem nextOf_place_last (hne : h.nextAllocationPosition ≠ memoryStart)
    (hap : Apart h.nextAllocationPosition 17 (nextAddr h.memoryAllocationList.last) 4) :
    (h.place size).nextOf (dataAddr h.memoryAllocationList.last) = h.nextAllocationPosition := by
  obtain ⟨m, m', -, hm, hm'⟩ := place_changes h size
  rw [if_pos hne] at hm
  unfold Heap.nextOf
  rw [dataAddr_sub, hm'.load32 hap, hm]
  exact load32_store32_self _

theorem lengthOf_place : (h.place size).lengthOf (dataAddr h.nextAllocationPosition) = size := by
  unfold Heap.lengthOf
  rw [dataAddr_sub]
  exact load32_store32_self size

end Header

/-! ### The blocks in use -/

/-- What happens to the heap in a run with `realloc`. -/
inductive Request where
  | call (c : HeapCall)
  | realloc (p size q : Word)

/-- The heap, and the blocks in use: the sizes that were asked for, under the data pointers. -/
structure Session where
  heap : Heap
  live : Word → Option Word

/-- The blocks in use after a call. -/
def HeapCall.live : HeapCall → (Word → Option Word) → Word → Option Word
  | .malloc size p, live => if p = 0 then live else Function.update live p (some size)
  | .free p, live => Function.update live p none
  | .write _ _, live => live

/-- A call that returns. -/
inductive SessionStep : Session → Request → Session → Prop
  | call {h h' : Heap} {c : HeapCall} {live : Word → Option Word} (hstep : HeapStep h c h') :
      SessionStep ⟨h, live⟩ (.call c) ⟨h', c.live live⟩
  | realloc {h h' : Heap} {p size q : Word} {live : Word → Option Word}
      (hret : ∃ fuel, realloc fuel h p size = some (.ret q h')) :
      SessionStep ⟨h, live⟩ (.realloc p size q) ⟨h', if q = 0 then live else
        Function.update (Function.update live p none) q (some size)⟩

/-- What keeps the blocks in use apart: their headers say what was asked for, they end below
`NextAllocationPosition`, and all of them except the last block end below it and know a next one. -/
structure WellKept (h : Heap) (live : Word → Option Word) : Prop where
  start : memoryStart.toNat ≤ h.nextAllocationPosition.toNat
  last_le : h.nextAllocationPosition = memoryStart ∨
    h.memoryAllocationList.last.toNat + 17 ≤ h.nextAllocationPosition.toNat
  inside : ∀ p n, live p = some n → memoryStart.toNat + 17 ≤ p.toNat ∧
    p.toNat + n.toNat ≤ h.nextAllocationPosition.toNat
  apart : ∀ p n q k, live p = some n → live q = some k → p ≠ q →
    p.toNat + n.toNat + 17 ≤ q.toNat ∨ q.toNat + k.toNat + 17 ≤ p.toNat
  length : ∀ p n, live p = some n → h.lengthOf p = n
  linked : ∀ p n, live p = some n → p = dataAddr h.memoryAllocationList.last ∨
    (p.toNat + n.toNat ≤ h.memoryAllocationList.last.toNat ∧ h.nextOf p ≠ 0)

section WellKept

variable {h h' : Heap} {live : Word → Option Word} {p q size n : Word}

theorem wellKept_setup (boot : Heap) (map : Word) :
    WellKept (memoryManagementSetup boot map) fun _ => none where
  start := le_rfl
  last_le := .inl rfl
  inside _ _ hp := by cases hp
  apart _ _ _ _ hp := by cases hp
  length _ _ hp := by cases hp
  linked _ _ hp := by cases hp

theorem update_some {k : Word} (hq : Function.update live p (some size) q = some k) :
    (q = p ∧ k = size) ∨ (q ≠ p ∧ live q = some k) := by
  rw [Function.update_apply] at hq
  split_ifs at hq with heq
  · exact .inl ⟨heq, (Option.some.inj hq).symm⟩
  · exact .inr ⟨heq, hq⟩

theorem update_none {k : Word} (hq : Function.update live p none q = some k) :
    q ≠ p ∧ live q = some k := by
  rw [Function.update_apply] at hq
  split_ifs at hq with heq
  exact ⟨heq, hq⟩

/-- A block no longer in use. -/
theorem WellKept.forget (hw : WellKept h live) (p : Word) :
    WellKept h (Function.update live p none) where
  start := hw.start
  last_le := hw.last_le
  inside q k hq := hw.inside q k (update_none hq).2
  apart q k r l hq hr := hw.apart q k r l (update_none hq).2 (update_none hr).2
  length q k hq := hw.length q k (update_none hq).2
  linked q k hq := hw.linked q k (update_none hq).2

/-- Changes apart from the headers of the blocks in use. -/
theorem WellKept.changes {a : Word} {n : ℕ} (hw : WellKept h live) (hn : 0 < n)
    (hch : ChangesOnly a n h.mem h'.mem)
    (hap : ∀ p k, live p = some k → Apart a n (p - sizeofAllocation) 17)
    (hnext : h'.nextAllocationPosition = h.nextAllocationPosition)
    (hlist : h'.memoryAllocationList.last = h.memoryAllocationList.last) : WellKept h' live where
  start := by simpa only [hnext] using hw.start
  last_le := by simpa only [hnext, hlist] using hw.last_le
  inside := by simpa only [hnext] using hw.inside
  apart := hw.apart
  length p k hp := (lengthOf_eq hch hn (hap p k hp)).trans (hw.length p k hp)
  linked p k hp := by
    rw [hlist, nextOf_eq hch hn (hap p k hp)]
    exact hw.linked p k hp

/-- The header of a block is apart from the header of every other one. -/
theorem WellKept.header_apart (hw : WellKept h live) (hp : live p = some n) {k : Word}
    (hq : live q = some k) (hne : p ≠ q) :
    Apart (p - sizeofAllocation) 17 (q - sizeofAllocation) 17 := by
  have h1 := hw.apart p n q k hp hq hne
  have h2 := (hw.inside p n hp).1
  have h3 := (hw.inside q k hq).1
  unfold memoryStart at h2 h3
  unfold Apart sizeofAllocation
  constructor <;> bv_omega

/-- **A freed block.** -/
theorem WellKept.free (hw : WellKept h live) (hp : live p = some n) :
    WellKept (h.free p) (Function.update live p none) := by
  refine (hw.forget p).changes (by omega) free_changes (fun q k hq => ?_)
    (free_nextAllocationPosition p) (by rw [free_memoryAllocationList])
  obtain ⟨hne, hq⟩ := update_none hq
  exact hw.header_apart hp hq (Ne.symm hne)

/-- **A byte stored into the data of a block.** -/
theorem WellKept.write (hw : WellKept h live) {a : Word} (hp : live p = some n)
    (ha : p.toNat ≤ a.toNat ∧ a.toNat < p.toNat + n.toNat) (v : Byte) :
    WellKept { h with mem := h.mem.store8 a v } live := by
  refine hw.changes (by omega) (changesOnly_store8 h.mem a v) (fun q k hq => ?_) rfl rfl
  have h2 := hw.inside p n hp
  have h3 := (hw.inside q k hq).1
  unfold memoryStart at h2 h3
  rcases eq_or_ne p q with rfl | hne
  · unfold Apart sizeofAllocation
    constructor <;> bv_omega
  · have h1 := hw.apart p n q k hp hq hne
    unfold Apart sizeofAllocation
    constructor <;> bv_omega

/-- A block in use has a last block above or at it. -/
theorem WellKept.last_below (hw : WellKept h live) (hp : live p = some n) :
    h.nextAllocationPosition ≠ memoryStart ∧
      h.memoryAllocationList.last.toNat + 17 ≤ h.nextAllocationPosition.toNat := by
  have hin := hw.inside p n hp
  have hne : h.nextAllocationPosition ≠ memoryStart := by
    intro heq
    simp only [heq] at hin
    omega
  exact ⟨hne, hw.last_le.resolve_left hne⟩

/-- A block in use keeps its length behind which a new one is placed. -/
theorem WellKept.lengthOf_place (hw : WellKept h live) (ha : Admits h size)
    (hp : live p = some n) : (h.place size).lengthOf p = n := by
  obtain ⟨-, hlast⟩ := hw.last_below hp
  have hpos := ha.position.2
  have hin := hw.inside p n hp
  have hl := hw.linked p n hp
  simp only [memoryStart, memoryEnd] at hpos hin
  simp only [dataAddr, sizeofAllocation] at hl
  refine Eq.trans (place_load32 ?_ ?_) (hw.length p n hp)
  · unfold Apart lengthAddr sizeofAllocation
    constructor <;> bv_omega
  · unfold Apart lengthAddr nextAddr sizeofAllocation
    constructor <;> bv_omega

/-- A block in use knows a next one after a new one is placed. -/
theorem WellKept.nextOf_place (hw : WellKept h live) (ha : Admits h size)
    (hp : live p = some n) : (h.place size).nextOf p ≠ 0 := by
  obtain ⟨hne, hlast⟩ := hw.last_below hp
  have hpos := ha.position.2
  have hin := hw.inside p n hp
  simp only [memoryStart, memoryEnd] at hpos hin
  rcases hw.linked p n hp with rfl | ⟨hbelow, hnext⟩
  · rw [nextOf_place_last hne ?_]
    · bv_omega
    · unfold Apart nextAddr
      constructor <;> bv_omega
  · refine ne_of_eq_of_ne (place_load32 ?_ ?_) hnext
    · unfold Apart nextAddr sizeofAllocation
      constructor <;> bv_omega
    · unfold Apart nextAddr sizeofAllocation
      constructor <;> bv_omega

/-- **A placed block.** -/
theorem WellKept.place (hw : WellKept h live) (hs : size ≠ 0) (ha : Admits h size)
    (ho : ¬ Overshoots h.nextAllocationPosition size) :
    WellKept (h.place size)
      (Function.update live (dataAddr h.nextAllocationPosition) (some size)) := by
  have hnext := ha.next_toNat hs ho
  have hdata := ha.dataAddr_toNat
  have hpos := ha.position.1
  have hcase : ∀ p k, Function.update live (dataAddr h.nextAllocationPosition) (some size) p = some k →
      (p = dataAddr h.nextAllocationPosition ∧ k = size) ∨
        (live p = some k ∧ p.toNat + k.toNat ≤ h.nextAllocationPosition.toNat) := by
    intro p k hp
    rcases update_some hp with hnew | ⟨-, hp'⟩
    · exact .inl hnew
    · exact .inr ⟨hp', (hw.inside p k hp').2⟩
  constructor
  · simp only [hnext]
    omega
  · right
    simp only [hnext]
    show h.nextAllocationPosition.toNat + 17 ≤ _
    omega
  · intro p k hp
    simp only [hnext]
    rcases hcase p k hp with ⟨rfl, rfl⟩ | ⟨hp', hle⟩
    · omega
    · exact ⟨(hw.inside p k hp').1, by omega⟩
  · intro p k q l hp hq hne
    rcases hcase p k hp with ⟨rfl, rfl⟩ | ⟨hp', hle⟩
    · rcases hcase q l hq with ⟨rfl, rfl⟩ | ⟨-, hle⟩
      · exact absurd rfl hne
      · omega
    · rcases hcase q l hq with ⟨rfl, rfl⟩ | ⟨hq', -⟩
      · omega
      · exact hw.apart p k q l hp' hq' hne
  · intro p k hp
    rcases hcase p k hp with ⟨rfl, rfl⟩ | ⟨hp', -⟩
    · exact Memory.lengthOf_place
    · exact hw.lengthOf_place ha hp'
  · intro p k hp
    rcases hcase p k hp with ⟨rfl, rfl⟩ | ⟨hp', hle⟩
    · exact .inl rfl
    · exact .inr ⟨hle, hw.nextOf_place ha hp'⟩

/-- The other blocks do not meet a block that shrinks, nor the last one, whatever its length. -/
theorem WellKept.resize_apart {old k : Word} (hw : WellKept h live) (hp : live p = some old)
    (hlast : size ≤ old ∨ p = dataAddr h.memoryAllocationList.last) (hq : live q = some k)
    (hne : q ≠ p) :
    p.toNat + size.toNat + 17 ≤ q.toNat ∨ q.toNat + k.toNat + 17 ≤ p.toNat := by
  have hin := hw.inside p old hp
  rcases hlast with hs | hp'
  · have hap := hw.apart p old q k hp hq (Ne.symm hne)
    have hs' : size.toNat ≤ old.toNat := BitVec.le_def.1 hs
    omega
  · have hl := (hw.linked q k hq).resolve_left (hp' ▸ hne)
    simp only [memoryStart] at hl hin
    simp only [dataAddr, sizeofAllocation] at hp'
    right
    bv_omega

/-- **A block with a new length.**  It shrinks, or it has no next block and ends below the position. -/
theorem WellKept.resize {old : Word} (hw : WellKept h live) (hp : live p = some old)
    (hfit : size ≤ old ∨
      (h.nextOf p = 0 ∧ p.toNat + size.toNat ≤ h.nextAllocationPosition.toNat)) :
    WellKept (h.resize p size) (Function.update live p (some size)) := by
  have hin := hw.inside p old hp
  have hle : size ≤ old → size.toNat ≤ old.toNat := BitVec.le_def.1
  have hlast : size ≤ old ∨ p = dataAddr h.memoryAllocationList.last := by
    rcases hfit with hfit | ⟨hnull, -⟩
    · exact .inl hfit
    · exact .inr ((hw.linked p old hp).resolve_right fun hl => hl.2 hnull)
  constructor
  · exact hw.start
  · exact hw.last_le
  · intro q k hq
    rcases update_some hq with ⟨rfl, rfl⟩ | ⟨-, hq'⟩
    · refine ⟨hin.1, ?_⟩
      rcases hfit with hs | ⟨-, hend⟩
      · have hs' := hle hs
        show q.toNat + k.toNat ≤ h.nextAllocationPosition.toNat
        omega
      · exact hend
    · exact hw.inside q k hq'
  · intro q k r l hq hr hne
    rcases update_some hq with ⟨rfl, rfl⟩ | ⟨hqp, hq'⟩
    · rcases update_some hr with ⟨rfl, rfl⟩ | ⟨hrp, hr'⟩
      · exact absurd rfl hne
      · exact hw.resize_apart hp hlast hr' hrp
    · rcases update_some hr with ⟨rfl, rfl⟩ | ⟨-, hr'⟩
      · exact (hw.resize_apart hp hlast hq' hqp).symm
      · exact hw.apart q k r l hq' hr' hne
  · intro q k hq
    rcases update_some hq with ⟨rfl, rfl⟩ | ⟨hqp, hq'⟩
    · exact lengthOf_resize
    · have hap := hw.header_apart hp hq' (Ne.symm hqp)
      exact (lengthOf_eq resize_changes (by omega) hap).trans (hw.length q k hq')
  · intro q k hq
    rcases update_some hq with ⟨rfl, rfl⟩ | ⟨hqp, hq'⟩
    · rcases hlast with hs | hl
      · refine (hw.linked q old hp).imp id fun hl => ⟨?_, ?_⟩
        · have hs' := hle hs
          have hend := hl.1
          show q.toNat + k.toNat ≤ h.memoryAllocationList.last.toNat
          omega
        · rw [nextOf_resize]
          exact hl.2
      · exact .inl hl
    · have hap := hw.header_apart hp hq' (Ne.symm hqp)
      have hnext : (h.resize p size).nextOf q = h.nextOf q := nextOf_eq resize_changes (by omega) hap
      exact (hw.linked q k hq').imp id fun hl => ⟨hl.1, ne_of_eq_of_ne hnext hl.2⟩

end WellKept

/-! ### Proper calls -/

/-- The calls for which the allocator keeps its blocks apart: no request overshoots; a pointer whose
header passes the magic test is the pointer of a block in use; a block that grows in place ends below
`NextAllocationPosition`; and the program stores into the data of its blocks. -/
def Session.Proper (s : Session) : Request → Prop
  | .call (.malloc size _) => ¬ Overshoots s.heap.nextAllocationPosition size
  | .call (.free p) => s.heap.magicOf p = allocationHeaderMagic → s.live p ≠ none
  | .call (.write a _) => ∃ p n, s.live p = some n ∧ p.toNat ≤ a.toNat ∧ a.toNat < p.toNat + n.toNat
  | .realloc p size _ => s.heap.magicOf p = allocationHeaderMagic →
      s.live p ≠ none ∧ (s.heap.lengthOf p < size →
        if s.heap.nextOf p = 0 then
          p.toNat + size.toNat ≤ s.heap.nextAllocationPosition.toNat
        else ¬ Overshoots s.heap.nextAllocationPosition size)

section Proper

variable {s s' : Session} {c : HeapCall} {p size q : Word}

/-- **A proper `realloc`** is refused, resizes a block in use, or replaces it by a new one. -/
theorem WellKept.realloc_cases (hw : WellKept s.heap s.live)
    (hstep : SessionStep s (.realloc p size q) s') (hok : s.Proper (.realloc p size q)) :
    (q = 0 ∧ s' = s) ∨
    (∃ old, s.live p = some old ∧ q = p ∧
      (size ≤ old ∨ (s.heap.nextOf p = 0 ∧
        p.toNat + size.toNat ≤ s.heap.nextAllocationPosition.toNat)) ∧
      s' = ⟨s.heap.resize p size, Function.update s.live p (some size)⟩) ∨
    (∃ old, s.live p = some old ∧ size ≠ 0 ∧ Admits s.heap size ∧
      ¬ Overshoots s.heap.nextAllocationPosition size ∧
      q = dataAddr s.heap.nextAllocationPosition ∧ q ≠ p ∧
      s' = ⟨(s.heap.place size).free p,
        Function.update (Function.update s.live q (some size)) p none⟩) := by
  obtain ⟨h, live⟩ := s
  cases hstep with
  | realloc hret =>
    rcases realloc_returns hret with ⟨-, rfl, rfl⟩ | ⟨hm, hplace, rfl, rfl⟩ |
      ⟨hm, hlt, hnext, ha, rfl, rfl⟩
    · exact .inl ⟨rfl, by simp⟩
    · obtain ⟨hlive, hgrow⟩ := hok hm
      obtain ⟨old, hp⟩ := Option.ne_none_iff_exists'.1 hlive
      have hlen : h.lengthOf q = old := hw.length q old hp
      have hq : q ≠ 0 := by
        rintro rfl
        have hin := (hw.inside 0 old hp).1
        simp at hin
      refine .inr (.inl ⟨old, hp, rfl, ?_, by rw [if_neg hq, Function.update_idem]⟩)
      simp only [hlen] at hgrow hplace
      by_cases hle : size ≤ old
      · exact .inl hle
      · have hnull := hplace.resolve_left hle
        have hend := hgrow (BitVec.not_le.1 hle)
        rw [if_pos hnull] at hend
        exact .inr ⟨hnull, hend⟩
    · obtain ⟨hlive, hgrow⟩ := hok hm
      obtain ⟨old, hp⟩ := Option.ne_none_iff_exists'.1 hlive
      have ho := hgrow hlt
      rw [if_neg hnext] at ho
      have hdata := ha.dataAddr_toNat
      have hin := (hw.inside p old hp).2
      have hne : dataAddr h.nextAllocationPosition ≠ p := by
        rintro rfl
        simp only at hin
        omega
      refine .inr (.inr ⟨old, hp, ?_, ha, ho, rfl, hne, ?_⟩)
      · rintro rfl
        simp at hlt
      · rw [if_neg ha.dataAddr_ne_zero, Function.update_comm (Ne.symm hne)]

/-- **One proper call** keeps the blocks in use apart. -/
theorem WellKept.step {e : Request} (hw : WellKept s.heap s.live) (hstep : SessionStep s e s')
    (hok : s.Proper e) : WellKept s'.heap s'.live := by
  cases e with
  | call c =>
    cases hstep with
    | @call h h' _ live hcall =>
    cases hcall with
    | malloc hret =>
      rcases malloc_returns_iff.1 hret with ⟨rfl, rfl, rfl⟩ | ⟨hs, ha, rfl, rfl⟩
      · exact hw
      · have hne := ha.dataAddr_ne_zero
        simp only [HeapCall.live, if_neg hne]
        exact WellKept.place hw hs ha hok
    | free p =>
      by_cases hm : h.magicOf p = allocationHeaderMagic
      · obtain ⟨n, hp⟩ := Option.ne_none_iff_exists'.1 (hok hm)
        exact WellKept.free hw hp
      · have hfree : h.free p = h.puts "[MEMORY] Invalid free!\n" := if_neg hm
        simp only [HeapCall.live, hfree]
        have hforget := WellKept.forget hw p
        exact ⟨hforget.start, hforget.last_le, hforget.inside, hforget.apart, hforget.length,
          hforget.linked⟩
    | write a v =>
      obtain ⟨p, n, hp, ha⟩ := hok
      exact WellKept.write hw hp ha v
  | realloc p size q =>
    rcases hw.realloc_cases hstep hok with ⟨-, rfl⟩ | ⟨old, hp, rfl, hfit, rfl⟩ |
      ⟨old, hp, hs, ha, ho, rfl, hne, rfl⟩
    · exact hw
    · exact hw.resize hp hfit
    · refine (hw.place hs ha ho).free (p := p) (n := old) ?_
      rw [Function.update_of_ne (Ne.symm hne)]
      exact hp

/-- The block that a request places. -/
def Request.block : Request → Option Extent
  | .call c => c.block
  | .realloc p size q => if q = 0 ∨ q = p then none else some (blockExtent q size)

/-- The data that a successful `realloc` returns. -/
def Request.data : Request → Option Extent
  | .call _ => none
  | .realloc _ size q => if q = 0 then none else some ⟨q.toNat, q.toNat + size.toNat⟩

/-- **The position is a frontier** for the blocks that proper calls place. -/
theorem WellKept.frontier {e : Request} (hw : WellKept s.heap s.live) (hstep : SessionStep s e s')
    (hok : s.Proper e) :
    s.heap.nextAllocationPosition.toNat ≤ s'.heap.nextAllocationPosition.toNat ∧
      ∀ b, e.block = some b → (s.heap.nextAllocationPosition.toNat : ℤ) ≤ b.lo := by
  cases e with
  | call c =>
    cases hstep with
    | @call h h' _ live hcall =>
    have hfit : Fits ⟨h, c, h'⟩ := by
      rintro size p hc
      dsimp only at hc
      subst hc
      exact hok
    obtain ⟨hle, hblock⟩ := HeapStep.frontier (t := ⟨h, c, h'⟩) hcall hfit
    exact ⟨hle, fun b hb => (hblock b hb).1⟩
  | realloc p size q =>
    rcases hw.realloc_cases hstep hok with ⟨rfl, rfl⟩ | ⟨old, hp, rfl, hfit, rfl⟩ |
      ⟨old, hp, hs, ha, ho, rfl, hne, rfl⟩
    · exact ⟨le_rfl, by simp [Request.block]⟩
    · exact ⟨le_rfl, by simp [Request.block]⟩
    · have hnext := ha.next_toNat hs ho
      have hdata := ha.dataAddr_toNat
      refine ⟨?_, fun b hb => ?_⟩
      · simp only [free_nextAllocationPosition, hnext]
        omega
      · simp only [Request.block, ha.dataAddr_ne_zero, hne, or_self, if_false,
          Option.some.injEq] at hb
        subst hb
        simp only [blockExtent, hdata]
        omega

/-- The result of a successful `realloc` is in use. -/
theorem WellKept.live_result (hw : WellKept s.heap s.live)
    (hstep : SessionStep s (.realloc p size q) s') (hok : s.Proper (.realloc p size q))
    (hq : q ≠ 0) : s'.live q = some size := by
  rcases hw.realloc_cases hstep hok with ⟨h0, -⟩ | ⟨old, -, rfl, -, rfl⟩ |
    ⟨old, -, -, -, -, -, hne, rfl⟩
  · exact absurd h0 hq
  · exact Function.update_self ..
  · simp only [Function.update_of_ne hne, Function.update_self]

end Proper

/-! ### Runs -/

/-- After every successful `realloc` its data is apart from every other block in use, and it stays
apart from every block placed later. -/
def ReallocSound (tr : List (Transition Session Request)) : Prop :=
  (∀ t ∈ tr, ∀ p size q, t.label = .realloc p size q → q ≠ 0 → ∀ p' n, p' ≠ q →
    t.post.live p' = some n →
      Disjoint (Extent.bytes ⟨q.toNat, q.toNat + size.toNat⟩) (blockExtent p' n).bytes) ∧
  tr.Pairwise fun t t' => ∀ r, t.label.data = some r → ∀ b, t'.label.block = some b →
    Disjoint r.bytes b.bytes

/-- **`realloc` keeps to its data** in every run of proper calls. -/
theorem reallocSound_of_proper {boot : Heap} {map : Word} {tr : List (Transition Session Request)}
    {s : Session}
    (hrun : Run SessionStep ⟨memoryManagementSetup boot map, fun _ => none⟩ tr s)
    (hok : ∀ t ∈ tr, t.pre.Proper t.label) : ReallocSound tr := by
  obtain ⟨-, hinv⟩ := hrun.invariant (I := fun s => WellKept s.heap s.live)
    (C := fun t => t.pre.Proper t.label) (wellKept_setup boot map)
    (fun t hw hstep hc => hw.step hstep hc) hok
  have hstep : ∀ t ∈ tr, SessionStep t.pre t.label t.post := fun t ht => hrun.step_of_mem ht
  constructor
  · rintro ⟨g, e, g'⟩ ht p size q rfl hq p' n hne hp'
    obtain ⟨hpre, hpost⟩ := hinv _ ht
    have hlive := hpre.live_result (hstep _ ht) (hok _ ht) hq
    have hap := hpost.apart q size p' n hlive hp' (Ne.symm hne)
    unfold Extent.bytes blockExtent
    simp only [Set.Ico_disjoint_Ico, min_le_iff, le_max_iff]
    omega
  · refine hrun.disjoint_of_frontier (f := fun s => s.heap.nextAllocationPosition.toNat) ?_ ?_ ?_
    · exact fun t ht => Int.ofNat_le.2 ((hinv t ht).1.frontier (hstep t ht) (hok t ht)).1
    · rintro ⟨g, e, g'⟩ ht r hr
      obtain ⟨hpre, hpost⟩ := hinv _ ht
      cases e with
      | call c => cases hr
      | realloc p size q =>
        simp only [Request.data] at hr
        split_ifs at hr with hq
        have hin := (hpost.inside q size (hpre.live_result (hstep _ ht) (hok _ ht) hq)).2
        rw [Option.some.injEq] at hr
        subst hr
        show (q.toNat + size.toNat : ℤ) ≤ g'.heap.nextAllocationPosition.toNat
        exact_mod_cast hin
    · exact fun t ht => ((hinv t ht).1.frontier (hstep t ht) (hok t ht)).2

/-! ### A block that grows -/

theorem realloc_in_place {h : Heap} {p size : Word} (hm : h.magicOf p = allocationHeaderMagic)
    (hplace : size ≤ h.lengthOf p ∨ h.nextOf p = 0) :
    realloc 0 h p size = some (.ret p (h.resize p size)) := by
  rw [realloc_eq, if_neg (not_ne_iff.2 hm)]
  split_ifs with hl hn
  · rfl
  · rfl
  · exact absurd hplace (not_or.2 ⟨hl, hn⟩)

theorem realloc_moves {h : Heap} {p size : Word} (hm : h.magicOf p = allocationHeaderMagic)
    (hl : h.lengthOf p < size) (hn : h.nextOf p ≠ 0) (ha : Admits h size) :
    ∃ fuel, realloc fuel h p size =
      some (.ret (dataAddr h.nextAllocationPosition) ((h.place size).free p)) := by
  have hs : size ≠ 0 := by
    rintro rfl
    simp at hl
  obtain ⟨fuel, hmalloc⟩ := malloc_returns_iff.2 (.inr ⟨hs, ha, rfl, rfl⟩)
  refine ⟨fuel, ?_⟩
  rw [realloc_eq, if_neg (not_ne_iff.2 hm), if_neg (BitVec.not_le.2 hl), if_neg hn, hmalloc]
  exact if_neg ha.dataAddr_ne_zero

/-- A block of eight bytes. -/
def eightBytes : Heap := (declaredHeap []).place 8

/-- The session in which the block of eight bytes is in use. -/
def eightBytesSession : Session := ⟨eightBytes, (HeapCall.malloc 8 0x105011).live fun _ => none⟩

theorem step_eightBytes : SessionStep ⟨declaredHeap [], fun _ => none⟩ (.call (.malloc 8 0x105011))
    eightBytesSession :=
  .call (.malloc_of_empty (by decide) (by decide) (by decide))

/-- The session in which the block was shrunk or grown where it is. -/
def resizedSession (size : Word) : Session :=
  ⟨eightBytes.resize 0x105011 size, if (0x105011 : Word) = 0 then eightBytesSession.live else
    Function.update (Function.update eightBytesSession.live 0x105011 none) 0x105011 (some size)⟩

theorem step_resize (size : Word) :
    SessionStep eightBytesSession (.realloc 0x105011 size 0x105011) (resizedSession size) :=
  .realloc ⟨0, realloc_in_place (by decide) (.inr (by decide))⟩

/-- Two blocks of eight bytes, the second one shrunk. -/
def shrunkBlock : Heap := (eightBytes.place 8).resize 0x10502B 4

/-- The first of them moved to a block of a hundred bytes. -/
def movedBlock : Heap := (shrunkBlock.place 100).free 0x105011

/-- A block that shrinks where it is, a block that moves, and the block placed behind it. -/
theorem reallocSound_of_proper_moves : ∃ tr s,
    Run SessionStep ⟨declaredHeap [], fun _ => none⟩ tr s ∧
      tr.map Transition.label = [.call (.malloc 8 0x105011), .call (.malloc 8 0x10502B),
        .realloc 0x10502B 4 0x10502B, .realloc 0x105011 100 0x105045, .call (.malloc 8 0x1050BB),
        .call (.free 0x10502B)] ∧
      ReallocSound tr := by
  have hsecond : HeapStep eightBytes (.malloc 8 0x10502B) (eightBytes.place 8) :=
    .malloc_of_empty (by decide) (by decide) (by decide)
  have hshrinks : realloc 0 (eightBytes.place 8) 0x10502B 4 = some (.ret 0x10502B shrunkBlock) :=
    realloc_in_place (by decide) (.inr (by decide))
  have hmoves : ∃ fuel, realloc fuel shrunkBlock 0x105011 100 = some (.ret 0x105045 movedBlock) :=
    realloc_moves (by decide) (by decide) (by decide) (admits_of_empty (by decide) (by decide))
  have hthird : HeapStep movedBlock (.malloc 8 0x1050BB) (movedBlock.place 8) :=
    .malloc_of_empty (by decide) (by decide) (by decide)
  have hrun := (((((Run.nil.snoc step_eightBytes).snoc (.call hsecond)).snoc
    (.realloc ⟨0, hshrinks⟩)).snoc (.realloc hmoves)).snoc (.call hthird)).snoc
    (.call (.free _ 0x10502B))
  refine ⟨_, _, hrun, rfl, reallocSound_of_proper hrun fun t ht => ?_⟩
  simp only [List.nil_append, List.cons_append, List.mem_cons, List.not_mem_nil, or_false] at ht
  rcases ht with rfl | rfl | rfl | rfl | rfl | rfl
  · show ¬ Overshoots _ 8
    decide
  · show ¬ Overshoots _ 8
    decide
  · exact fun _ => ⟨by decide, fun hlt => absurd hlt (by decide)⟩
  · refine fun _ => ⟨by decide, fun _ => ?_⟩
    rw [if_neg (by decide)]
    decide
  · show ¬ Overshoots _ 8
    decide
  · exact fun _ => by decide

/-- **A block that grows in place** past `NextAllocationPosition`, and the block placed next. -/
theorem realloc_over_next_block : ∃ tr s,
    Run SessionStep ⟨declaredHeap [], fun _ => none⟩ tr s ∧
      tr.map Transition.label = [.call (.malloc 8 0x105011), .realloc 0x105011 100 0x105011,
        .call (.malloc 8 0x10502B)] ∧
      ¬ ReallocSound tr := by
  have hnext : HeapStep (eightBytes.resize 0x105011 100) (.malloc 8 0x10502B)
      ((eightBytes.resize 0x105011 100).place 8) :=
    .malloc_of_empty (by decide) (by decide) (by decide)
  refine ⟨_, _, ((Run.nil.snoc step_eightBytes).snoc (step_resize 100)).snoc (.call hnext), rfl,
    fun hsound => ?_⟩
  have hpair := (List.pairwise_append.1 hsound.2).2.2 _
    (List.mem_append_right _ (List.mem_singleton.2 rfl)) _ (List.mem_singleton.2 rfl)
  have hdisj := hpair ⟨0x105011, 0x105011 + 100⟩ rfl (blockExtent 0x10502B 8) rfl
  have hgrown : (0x10502B : ℤ) ∈ (Extent.bytes ⟨0x105011, 0x105011 + 100⟩) := by
    constructor <;> decide
  have hplaced : (0x10502B : ℤ) ∈ (blockExtent 0x10502B 8).bytes := by
    constructor <;> decide
  exact Set.disjoint_left.1 hdisj hgrown hplaced

end RedFox32.Kernel.Memory
