import RedFox32.Kernel.Memory.Regions

/-!
# What the tests of an entry tell

The loop of `CanSafelyAllocate` asks whether an end of the request lies in the region of an entry, with
the end of the region counted as a part of it, and with both of its ends cut to 32 bits.  The question is
whether the two ranges have a byte in common.
-/

namespace RedFox32.Kernel.Memory

open RedFox32.Machine

namespace MemoryMapEntry

variable (e : MemoryMapEntry)

theorem start32_mod : e.start32.toNat = e.start.toNat % 2 ^ 32 := by
  unfold start32
  rw [BitVec.toNat_setWidth]

theorem end32_mod : e.end32.toNat = (e.start.toNat + e.length.toNat) % 2 ^ 32 := by
  unfold end32
  rw [BitVec.toNat_add, start32_mod, BitVec.toNat_setWidth]
  omega

end MemoryMapEntry

/-- The request and the region of the entry have a byte in common. -/
def Meets (position size : Word) (e : MemoryMapEntry) : Prop :=
  (Extent.bytes ⟨position.toNat, position.toNat + size.toNat⟩ ∩ e.region.bytes).Nonempty

/-- The tests are right about the entry.  A region below 4 GiB must not touch the request at an end, nor
lie strictly inside it.  One that crosses 4 GiB must still hold, with its wrapped end, the end of the
request by which it is met, and must not seem to hold one that it only touches.  One above 4 GiB must not
seem to hold an end of the request. -/
def Judged (position size : Word) (e : MemoryMapEntry) : Prop :=
  let first := position.toNat
  let past := position.toNat + size.toNat
  let start := e.start.toNat
  let stop := e.start.toNat + e.length.toNat
  if stop < 2 ^ 32 then
    stop ≠ first ∧ start ≠ past ∧ ¬ (first < start ∧ stop < past)
  else if start < 2 ^ 32 then
    (start ≤ first → first ≤ stop % 2 ^ 32) ∧
      (first < start → start < past → past ≤ stop % 2 ^ 32) ∧
      (start = past → stop % 2 ^ 32 < past)
  else
    stop % 2 ^ 32 < first ∨
      (first < start % 2 ^ 32 ∧ (past < start % 2 ^ 32 ∨ stop % 2 ^ 32 < past))

instance (position size : Word) (e : MemoryMapEntry) : Decidable (Judged position size e) := by
  unfold Judged; infer_instance

section Tests

variable {position size : Word} {e : MemoryMapEntry}

theorem meets_iff (hsize : size ≠ 0) (hlength : e.length ≠ 0) : Meets position size e ↔
    position.toNat < e.start.toNat + e.length.toNat ∧
      e.start.toNat < position.toNat + size.toNat := by
  have hsize' : 0 < size.toNat := by bv_omega
  have hlength' : 0 < e.length.toNat := by bv_omega
  unfold Meets Extent.bytes MemoryMapEntry.region
  rw [Set.Ico_inter_Ico, Set.nonempty_Ico]
  simp only [max_lt_iff, lt_min_iff]
  omega

/-- The tests in exact integers, for a request that does not wrap. -/
theorem flags_iff (hfit : position.toNat + size.toNat < 2 ^ 32) : Flags position size e ↔
    position.toNat ≤ (e.start.toNat + e.length.toNat) % 2 ^ 32 ∧
      (e.start.toNat % 2 ^ 32 ≤ position.toNat ∨
        (e.start.toNat % 2 ^ 32 ≤ position.toNat + size.toNat ∧
          position.toNat + size.toNat ≤ (e.start.toNat + e.length.toNat) % 2 ^ 32)) := by
  have hpast : (position + size).toNat = position.toNat + size.toNat := by bv_omega
  unfold Flags
  simp only [BitVec.lt_def, BitVec.le_def, e.start32_mod, e.end32_mod, hpast]
  omega

end Tests

/-- **The tests flag what the request meets** exactly for the entries that they are right about. -/
theorem flags_meets_iff (position size : Word) (e : MemoryMapEntry) (hlength : e.length ≠ 0)
    (hsize : size ≠ 0) (hfit : position.toNat + size.toNat < 2 ^ 32) :
    (Flags position size e ↔ Meets position size e) ↔ Judged position size e := by
  have hsize' : 0 < size.toNat := by bv_omega
  have hlength' : 0 < e.length.toNat := by bv_omega
  rw [flags_iff hfit, meets_iff hsize hlength]
  unfold Judged
  dsimp only
  split_ifs with hbelow hacross
  · rw [Nat.mod_eq_of_lt hbelow, Nat.mod_eq_of_lt (by omega)]
    omega
  · -- the region holds every byte of the request from its start on
    rw [Nat.mod_eq_of_lt hacross]
    omega
  · -- the region holds no byte of the request
    omega

/-- A page that starts inside the request and ends behind it. -/
theorem flags_meets_page :
    Flags 0x200000 0x1000 ⟨0x200800, 0x1000, 2, 1⟩ ↔ Meets 0x200000 0x1000 ⟨0x200800, 0x1000, 2, 1⟩ :=
  (flags_meets_iff _ _ _ (by decide) (by decide) (by decide)).2 (by decide)

/-- **A page inside the request** is not flagged. -/
theorem page_inside_not_flagged : Meets 0x200000 0x3000 ⟨0x201000, 0x1000, 2, 1⟩ ∧
    ¬ Flags 0x200000 0x3000 ⟨0x201000, 0x1000, 2, 1⟩ := by
  constructor
  · apply (meets_iff (by decide) (by decide)).2
    decide
  · decide

end RedFox32.Kernel.Memory
