import RedFox32.Kernel.Memory.Defs

/-!
# What `CanSafelyAllocate` decides

An entry that the loop flags is never skipped.  The nested `malloc` asks for the bytes up to the start
of the entry, and that request is flagged again: by the same entry, or by an earlier one.  So a request
that meets a flagged entry never returns.  It ends in the out-of-memory loop when the first flagged
entry starts below `MEMORY_START`, and otherwise it recurses for ever.
-/

namespace RedFox32.Kernel.Memory

open RedFox32.Machine

/-- The number of entries the loop visits. -/
def Heap.mapLength (h : Heap) : ℕ := (numEntries h.mem h.memoryMMAP).toNat

/-- The entries the loop visits, in order. -/
def Heap.map (h : Heap) : List MemoryMapEntry := (List.range h.mapLength).map h.entry

/-- The tests of the loop body: the entry does not end below the position, and one of the two ends of
the request lies in it. -/
def Flags (position size : Word) (e : MemoryMapEntry) : Prop :=
  ¬ e.end32 < position ∧ ((e.start32 ≤ position ∧ position ≤ e.end32) ∨
    (e.start32 ≤ position + size ∧ position + size ≤ e.end32))

instance (position size : Word) : DecidablePred (Flags position size) := fun e => by
  unfold Flags; infer_instance

/-- The request passes every test: the bounds, and every entry of the map. -/
def Admits (h : Heap) (size : Word) : Prop :=
  ¬ outOfBounds h.nextAllocationPosition size ∧
    ∀ e ∈ h.map, ¬ Flags h.nextAllocationPosition size e

/-- The entry of index `j` is the first that the request meets. -/
def FirstFlagged (h : Heap) (size : Word) (j : ℕ) : Prop :=
  j < h.mapLength ∧ Flags h.nextAllocationPosition size (h.entry j) ∧
    ∀ k < j, ¬ Flags h.nextAllocationPosition size (h.entry k)

/-- The heap in which the out-of-memory loop halts. -/
def Heap.exhausted (h : Heap) : Heap := h.puts "[MALLOC] OUT OF MEMORY!\n"

/-! ### Fuel -/

theorem andThen_eq_some {α β : Type} {r : Option (Outcome α)}
    {k : α → Heap → Option (Outcome β)} {o : Outcome β} :
    andThen r k = some o ↔ (∃ v h, r = some (.ret v h) ∧ k v h = some o) ∨
      ∃ h, r = some (.outOfMemory h) ∧ o = .outOfMemory h := by
  rcases r with _ | (⟨v, h⟩ | h)
  · simp [andThen]
  · simp [andThen]
  · simp [andThen, eq_comm]

/-- More fuel keeps a result after the first evaluation, if it keeps the results of both parts. -/
theorem andThen_mono {α β : Type} {r r' : Option (Outcome α)}
    {k k' : α → Heap → Option (Outcome β)} {o : Outcome β} (h : andThen r k = some o)
    (hr : ∀ o, r = some o → r' = some o) (hk : ∀ v h o, k v h = some o → k' v h = some o) :
    andThen r' k' = some o := by
  rw [andThen_eq_some] at h ⊢
  rcases h with ⟨v, h1, h2, h3⟩ | ⟨h1, h2, h3⟩
  · exact .inl ⟨v, h1, hr _ h2, hk _ _ _ h3⟩
  · exact .inr ⟨h1, hr _ h2, h3⟩

/-- More fuel keeps the results of the three functions. -/
theorem fuel_succ : ∀ fuel : ℕ,
    (∀ h size o, canSafelyAllocate fuel h size = some o →
      canSafelyAllocate (fuel + 1) h size = some o) ∧
    (∀ h size i o, scan fuel h size i = some o → scan (fuel + 1) h size i = some o) ∧
    (∀ h size o, malloc fuel h size = some o → malloc (fuel + 1) h size = some o) := by
  intro fuel
  induction fuel with
  | zero =>
    refine ⟨fun h size o hc => ?_, fun h size i o hc => ?_, fun h size o hc => ?_⟩
    · simp [canSafelyAllocate] at hc
    · simp [scan] at hc
    · simp [malloc] at hc
  | succ fuel ih =>
    obtain ⟨ihc, ihs, ihm⟩ := ih
    refine ⟨fun h size o hc => ?_, fun h size i o hc => ?_, fun h size o hc => ?_⟩
    · rw [canSafelyAllocate] at hc ⊢
      split_ifs at hc ⊢
      · exact hc
      · exact hc
      · exact ihs _ _ _ _ hc
    · rw [scan] at hc ⊢
      dsimp only at hc ⊢
      split_ifs at hc ⊢
      · exact ihs _ _ _ _ hc
      · exact andThen_mono hc (ihm _ _) fun _ h' => ihs h' size 0
      · exact ihs _ _ _ _ hc
      · exact hc
    · rw [malloc] at hc ⊢
      split_ifs at hc ⊢
      · exact hc
      · exact andThen_mono hc (ihc _ _) fun _ _ _ hk => hk

/-- More fuel keeps the result of `malloc`. -/
theorem malloc_mono {h : Heap} {size : Word} {o : Outcome Word} {fuel fuel' : ℕ}
    (hle : fuel ≤ fuel') (hm : malloc fuel h size = some o) : malloc fuel' h size = some o := by
  induction hle with
  | refl => exact hm
  | step _ ih => exact (fuel_succ _).2.2 _ _ _ ih

section Scan

variable {h : Heap} {size : Word} {fuel i j : ℕ}

theorem mem_map {e : MemoryMapEntry} : e ∈ h.map ↔ ∃ i < h.mapLength, h.entry i = e := by
  simp [Heap.map]

theorem exists_firstFlagged {e : MemoryMapEntry} (he : e ∈ h.map)
    (hf : Flags h.nextAllocationPosition size e) : ∃ j, FirstFlagged h size j := by
  obtain ⟨i, hi, rfl⟩ := mem_map.1 he
  have hex : ∃ i, Flags h.nextAllocationPosition size (h.entry i) := ⟨i, hf⟩
  refine ⟨Nat.find hex, ?_, Nat.find_spec hex, fun k hk => Nat.find_min hex hk⟩
  exact (Nat.find_min' hex hf).trans_lt hi

theorem FirstFlagged.unique {k : ℕ} (hk : FirstFlagged h size k) (hj : FirstFlagged h size j) :
    k = j := by
  rcases Nat.lt_trichotomy k j with hlt | heq | hlt
  · exact absurd hk.2.1 (hj.2.2 k hlt)
  · exact heq
  · exact absurd hj.2.1 (hk.2.2 j hlt)

theorem admits_or_firstFlagged (hb : ¬ outOfBounds h.nextAllocationPosition size) :
    Admits h size ∨ ∃ j, FirstFlagged h size j := by
  by_cases hall : ∀ e ∈ h.map, ¬ Flags h.nextAllocationPosition size e
  · exact .inl ⟨hb, hall⟩
  · push Not at hall
    obtain ⟨e, he, hf⟩ := hall
    exact .inr (exists_firstFlagged he hf)

/-! ### One iteration of the loop -/

theorem scan_end (hi : h.mapLength ≤ i) : scan (fuel + 1) h size i = some (.ret true h) := by
  unfold scan
  rw [if_neg (by unfold Heap.mapLength at hi; omega)]

theorem scan_pass (hi : i < h.mapLength) (hf : ¬ Flags h.nextAllocationPosition size (h.entry i)) :
    scan (fuel + 1) h size i = scan fuel h size (i + 1) := by
  unfold Heap.mapLength at hi
  rw [scan]
  simp only [hi, if_true]
  by_cases hs : (h.entry i).end32 < h.nextAllocationPosition
  · rw [if_pos hs]
  · rw [if_neg hs, if_neg fun ht => hf ⟨hs, ht⟩]

theorem scan_flagged (hi : i < h.mapLength)
    (hf : Flags h.nextAllocationPosition size (h.entry i)) :
    scan (fuel + 1) h size i =
      andThen (malloc fuel h ((h.entry i).start32 - h.nextAllocationPosition)) fun _ h' =>
        scan fuel h' size 0 := by
  unfold Heap.mapLength at hi
  rw [scan]
  simp only [hi, if_true]
  rw [if_neg hf.1, if_pos hf.2]

/-- A map without flagged entries is scanned to its end. -/
theorem scan_clear (hf : ∀ e ∈ h.map, ¬ Flags h.nextAllocationPosition size e) :
    ∀ fuel i, h.mapLength - i < fuel → scan fuel h size i = some (.ret true h) := by
  intro fuel
  induction fuel with
  | zero => intro i hi; omega
  | succ fuel ih =>
    intro i hfuel
    by_cases hi : i < h.mapLength
    · rw [scan_pass hi (hf _ (mem_map.2 ⟨i, hi, rfl⟩))]
      exact ih (i + 1) (by omega)
    · exact scan_end (by omega)

/-- The scan reaches the first flagged entry. -/
theorem scan_to_first (hj : FirstFlagged h size j) :
    ∀ d i, i + d = j → scan (fuel + d) h size i = scan fuel h size j := by
  obtain ⟨hlt, -, hmin⟩ := hj
  intro d
  induction d with
  | zero => rintro i rfl; rfl
  | succ d ih =>
    intro i hi
    rw [show fuel + (d + 1) = fuel + d + 1 by omega, scan_pass (by omega) (hmin i (by omega))]
    exact ih (i + 1) (by omega)

/-! ### The nested request -/

/-- A flagged entry starts at or below one of the two ends of the request. -/
theorem firstFlagged_start_le (hb : ¬ outOfBounds h.nextAllocationPosition size)
    (hj : FirstFlagged h size j) : (h.entry j).start32 ≤ memoryEnd := by
  obtain ⟨-, ⟨-, ht⟩, -⟩ := hj
  unfold outOfBounds at hb
  push Not at hb
  rcases ht with ⟨hle, -⟩ | ⟨hle, -⟩
  · exact BitVec.le_trans hle (BitVec.not_lt.1 hb.1.2)
  · exact BitVec.le_trans hle (BitVec.not_lt.1 hb.2.2)

/-- **The nested request meets a flagged entry again**: the entry itself, or an earlier one that the
outer request did not see and that therefore starts above the position. -/
theorem firstFlagged_nested (hj : FirstFlagged h size j)
    (hs : memoryStart ≤ (h.entry j).start32) (hp : memoryStart ≤ h.nextAllocationPosition) :
    ∃ k, FirstFlagged h ((h.entry j).start32 - h.nextAllocationPosition) k ∧
      memoryStart ≤ (h.entry k).start32 := by
  obtain ⟨hlt, ⟨hend, ht⟩, hmin⟩ := hj
  set p := h.nextAllocationPosition with hpdef
  have hsum : p + ((h.entry j).start32 - p) = (h.entry j).start32 := by bv_omega
  have hself : Flags p ((h.entry j).start32 - p) (h.entry j) := by
    refine ⟨hend, ?_⟩
    rcases ht with ht | ⟨h1, h2⟩
    · exact .inl ht
    · rw [hsum]
      exact .inr ⟨BitVec.le_refl _, BitVec.le_trans h1 h2⟩
  obtain ⟨k, hk⟩ := exists_firstFlagged (mem_map.2 ⟨j, hlt, rfl⟩) hself
  refine ⟨k, hk, ?_⟩
  obtain ⟨hklt, ⟨hkend, hkt⟩, hkmin⟩ := hk
  rcases Nat.lt_trichotomy k j with hkj | rfl | hkj
  · -- an earlier entry does not hold the position, so it starts above it
    have hnot := hmin k hkj
    unfold Flags at hnot
    rw [hsum] at hkt
    rw [not_and_or, not_or, not_and_or] at hnot
    simp only [← hpdef] at hkend hkt hnot
    bv_omega
  · exact hs
  · exact absurd hself (hkmin j hkj)

/-- The bounds of the nested request are the position and the start of the entry. -/
theorem outOfBounds_nested {start : Word} (hb : ¬ outOfBounds h.nextAllocationPosition size) :
    outOfBounds h.nextAllocationPosition (start - h.nextAllocationPosition) ↔
      start < memoryStart ∨ memoryEnd < start := by
  have hsum : h.nextAllocationPosition + (start - h.nextAllocationPosition) = start := by bv_omega
  unfold outOfBounds at hb ⊢
  rw [hsum]
  tauto

/-! ### The five ends of `malloc` -/

theorem malloc_zero (fuel : ℕ) : malloc (fuel + 1) h 0 = some (.ret 0 h) := by
  rw [malloc, if_pos rfl]

theorem malloc_refused (hs : size ≠ 0) (hb : outOfBounds h.nextAllocationPosition size)
    (hfuel : 2 ≤ fuel) : malloc fuel h size = some (.outOfMemory h.exhausted) := by
  obtain ⟨f, rfl⟩ : ∃ f, fuel = f + 2 := ⟨fuel - 2, by omega⟩
  rw [malloc, if_neg hs, canSafelyAllocate, if_neg hs, if_pos hb]
  rfl

theorem malloc_scan (hs : size ≠ 0) (hb : ¬ outOfBounds h.nextAllocationPosition size) :
    malloc (fuel + 2) h size = andThen (scan fuel h size 0) fun safe h' =>
      if safe then some (.ret (dataAddr h'.nextAllocationPosition) (h'.place size))
      else some (.outOfMemory h'.exhausted) := by
  rw [malloc, if_neg hs, canSafelyAllocate, if_neg hs, if_neg hb]
  rfl

theorem malloc_admitted (hs : size ≠ 0) (ha : Admits h size) (hfuel : h.mapLength + 3 ≤ fuel) :
    malloc fuel h size =
      some (.ret (dataAddr h.nextAllocationPosition) (h.place size)) := by
  obtain ⟨f, rfl⟩ : ∃ f, fuel = f + 2 := ⟨fuel - 2, by omega⟩
  rw [malloc_scan hs ha.1, scan_clear ha.2 f 0 (by omega)]
  rfl

/-- A first flagged entry below `MEMORY_START`: the nested request is refused. -/
theorem malloc_low (hs : size ≠ 0) (hb : ¬ outOfBounds h.nextAllocationPosition size)
    (hj : FirstFlagged h size j) (hlow : (h.entry j).start32 < memoryStart)
    (hfuel : j + 5 ≤ fuel) : malloc fuel h size = some (.outOfMemory h.exhausted) := by
  obtain ⟨f, rfl⟩ : ∃ f, fuel = f + 1 + j + 2 := ⟨fuel - 3 - j, by omega⟩
  have hne : (h.entry j).start32 - h.nextAllocationPosition ≠ 0 := by
    unfold outOfBounds at hb
    bv_omega
  rw [malloc_scan hs hb, scan_to_first hj j 0 (by omega), scan_flagged hj.1 hj.2.1,
    malloc_refused hne ((outOfBounds_nested hb).2 (.inl hlow)) (by omega)]
  rfl

/-- A first flagged entry at or above `MEMORY_START`: the scan never ends.  The induction is on the
fuel; the nested request and the restart meet a first flagged entry of the same kind. -/
theorem scan_diverges : ∀ fuel size i j, ¬ outOfBounds h.nextAllocationPosition size →
    FirstFlagged h size j → memoryStart ≤ (h.entry j).start32 → i ≤ j →
    scan fuel h size i = none := by
  intro fuel
  induction fuel using Nat.strong_induction_on with
  | _ fuel ih =>
    intro size i j hb hj hhigh hij
    rcases fuel with _ | fuel
    · rw [scan]
    rcases Nat.lt_or_eq_of_le hij with hlt | rfl
    · rw [scan_pass (hlt.trans hj.1) (hj.2.2 i hlt)]
      exact ih fuel (by omega) size (i + 1) j hb hj hhigh hlt
    rw [scan_flagged hj.1 hj.2.1]
    have hp : memoryStart ≤ h.nextAllocationPosition := by
      unfold outOfBounds at hb
      bv_omega
    obtain ⟨k, hk, hkhigh⟩ := firstFlagged_nested hj hhigh hp
    have hb' : ¬ outOfBounds h.nextAllocationPosition
        ((h.entry i).start32 - h.nextAllocationPosition) := by
      rw [outOfBounds_nested hb, not_or, BitVec.not_lt, BitVec.not_lt]
      exact ⟨hhigh, firstFlagged_start_le hb hj⟩
    rcases fuel with _ | fuel
    · rw [malloc]
      rfl
    by_cases hz : (h.entry i).start32 - h.nextAllocationPosition = 0
    · -- `malloc(0)` returns at once and the same scan starts over
      rw [hz, malloc_zero]
      exact ih (fuel + 1) (by omega) size 0 i hb hj hhigh (by omega)
    · rcases fuel with _ | fuel
      · rw [malloc, if_neg hz, canSafelyAllocate]
        rfl
      · rw [malloc_scan hz hb', ih fuel (by omega) _ 0 k hb' hk hkhigh (by omega)]
        rfl

theorem malloc_diverges (hs : size ≠ 0) (hb : ¬ outOfBounds h.nextAllocationPosition size)
    (hj : FirstFlagged h size j) (hhigh : memoryStart ≤ (h.entry j).start32) (fuel : ℕ) :
    malloc fuel h size = none := by
  rcases fuel with _ | _ | fuel
  · rw [malloc]
  · rw [malloc, if_neg hs, canSafelyAllocate]
    rfl
  · rw [malloc_scan hs hb, scan_diverges fuel size 0 j hb hj hhigh (by omega)]
    rfl

end Scan

/-! ### What `malloc` does -/

/-- A non-zero request ends in one of four ways. -/
theorem malloc_cases (h : Heap) {size : Word} (hs : size ≠ 0) :
    (Admits h size ∧ ∃ fuel, malloc fuel h size =
      some (.ret (dataAddr h.nextAllocationPosition) (h.place size))) ∨
    (outOfBounds h.nextAllocationPosition size ∧
      ∃ fuel, malloc fuel h size = some (.outOfMemory h.exhausted)) ∨
    ∃ j, ¬ outOfBounds h.nextAllocationPosition size ∧ FirstFlagged h size j ∧
      (((h.entry j).start32 < memoryStart ∧
        ∃ fuel, malloc fuel h size = some (.outOfMemory h.exhausted)) ∨
      (memoryStart ≤ (h.entry j).start32 ∧ ∀ fuel, malloc fuel h size = none)) := by
  by_cases hb : outOfBounds h.nextAllocationPosition size
  · exact .inr (.inl ⟨hb, 2, malloc_refused hs hb le_rfl⟩)
  rcases admits_or_firstFlagged hb with ha | ⟨j, hj⟩
  · exact .inl ⟨ha, _, malloc_admitted hs ha le_rfl⟩
  refine .inr (.inr ⟨j, hb, hj, ?_⟩)
  by_cases hlow : (h.entry j).start32 < memoryStart
  · exact .inl ⟨hlow, _, malloc_low hs hb hj hlow le_rfl⟩
  · have hhigh := BitVec.not_lt.1 hlow
    exact .inr ⟨hhigh, malloc_diverges hs hb hj hhigh⟩

/-- Two evaluations that end give the same outcome. -/
theorem malloc_unique {h : Heap} {size : Word} {o o' : Outcome Word} {fuel fuel' : ℕ}
    (hm : malloc fuel h size = some o) (hm' : malloc fuel' h size = some o') : o = o' := by
  have h1 := malloc_mono (le_max_left fuel fuel') hm
  have h2 := malloc_mono (le_max_right fuel fuel') hm'
  exact Option.some.inj (h1.symm.trans h2)

/-- **`malloc` returns** null for the size 0, and otherwise exactly when every test passes, with the
block at `NextAllocationPosition`. -/
theorem malloc_returns_iff {h h' : Heap} {size p : Word} :
    (∃ fuel, malloc fuel h size = some (.ret p h')) ↔
      (size = 0 ∧ p = 0 ∧ h' = h) ∨
        (size ≠ 0 ∧ Admits h size ∧ p = dataAddr h.nextAllocationPosition ∧ h' = h.place size) := by
  constructor
  · rintro ⟨fuel, hret⟩
    by_cases hs : size = 0
    · subst hs
      obtain ⟨rfl, rfl⟩ := Outcome.ret.inj (malloc_unique hret (malloc_zero 0))
      exact .inl ⟨rfl, rfl, rfl⟩
    rcases malloc_cases h hs with ⟨ha, f, hf⟩ | ⟨-, f, hf⟩ | ⟨j, -, -, ⟨-, f, hf⟩ | ⟨-, hf⟩⟩
    · obtain ⟨rfl, rfl⟩ := Outcome.ret.inj (malloc_unique hret hf)
      exact .inr ⟨hs, ha, rfl, rfl⟩
    · exact absurd (malloc_unique hret hf) (by simp)
    · exact absurd (malloc_unique hret hf) (by simp)
    · simp [hf] at hret
  · rintro (⟨rfl, rfl, rfl⟩ | ⟨hs, ha, rfl, rfl⟩)
    · exact ⟨1, malloc_zero 0⟩
    · exact ⟨h.mapLength + 3, malloc_admitted hs ha le_rfl⟩

end RedFox32.Kernel.Memory
