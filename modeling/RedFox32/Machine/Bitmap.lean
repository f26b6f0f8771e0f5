import Mathlib.Data.Nat.Count
import RedFox32.Machine.Bytes

/-!
Bitmaps in bytes, where the bits of a byte are counted from the highest one.
-/

namespace RedFox32.Machine.Bitmap

variable (m : ℕ → Byte) (i : ℕ)

/-- The bit `i`. -/
def bit : Bool := (m (i / 8)).getLsbD (7 - i % 8)

/-- The bitmap with the bit `i` the other way round. -/
def toggle : ℕ → Byte :=
  Function.update m (i / 8) (m (i / 8) ^^^ BitVec.twoPow 8 (7 - i % 8))

/-- The bitmap with `v` for the bit `i`. -/
def assign (v : Bool) : ℕ → Byte := if bit m i = v then m else toggle m i

/-- The number of bits set among the first `n`. -/
def count (n : ℕ) : ℕ := Nat.count (fun j => bit m j = true) n

variable {m i} {j k n : ℕ} {v : Bool}

/-! ### One bit -/

@[simp] theorem bit_toggle_self : bit (toggle m i) i = !bit m i := by
  simp [bit, toggle, show 7 - i % 8 < 8 by omega]

theorem bit_toggle_of_ne (h : j ≠ i) : bit (toggle m i) j = bit m j := by
  unfold bit toggle
  by_cases hbyte : j / 8 = i / 8
  · have hbit : 7 - i % 8 ≠ 7 - j % 8 := by omega
    rw [hbyte, Function.update_self, BitVec.getLsbD_xor, BitVec.getLsbD_twoPow]
    simp [hbit]
  · rw [Function.update_of_ne hbyte]

theorem toggle_outside (h : k ≠ i / 8) : toggle m i k = m k := Function.update_of_ne h _ _

@[simp] theorem toggle_toggle : toggle (toggle m i) i = m := by
  unfold toggle
  rw [Function.update_self, Function.update_idem, BitVec.xor_assoc, BitVec.xor_self,
    BitVec.xor_zero, Function.update_eq_self]

theorem bit_assign : bit (assign m i v) j = if j = i then v else bit m j := by
  unfold assign
  split_ifs with hv hj hj
  · rw [hj, hv]
  · rfl
  · rw [hj, bit_toggle_self]
    exact Bool.not_eq.2 hv
  · exact bit_toggle_of_ne hj

/-! ### Counting -/

theorem count_toggle_of_le (h : n ≤ i) : count (toggle m i) n = count m n := by
  unfold count
  rw [Nat.count_eq_card_filter_range, Nat.count_eq_card_filter_range]
  congr 1
  refine Finset.filter_congr fun j hj => ?_
  rw [bit_toggle_of_ne (by have := Finset.mem_range.1 hj; omega)]

/-- A bit that is set counts once more. -/
theorem count_toggle_of_clear (h : i < n) (hi : bit m i = false) :
    count (toggle m i) n = count m n + 1 := by
  have hset : (Finset.range n).filter (fun j => bit (toggle m i) j = true) =
      insert i ((Finset.range n).filter fun j => bit m j = true) := by
    ext j
    simp only [Finset.mem_filter, Finset.mem_insert, Finset.mem_range]
    by_cases hj : j = i
    · subst hj
      simp [h, hi]
    · simp [hj, bit_toggle_of_ne hj]
  unfold count
  rw [Nat.count_eq_card_filter_range, Nat.count_eq_card_filter_range, hset,
    Finset.card_insert_of_notMem (by simp [hi])]

theorem count_toggle_of_set (h : i < n) (hi : bit m i = true) :
    count (toggle m i) n + 1 = count m n := by
  have hback := count_toggle_of_clear (m := toggle m i) h (by simp [hi])
  rw [toggle_toggle] at hback
  exact hback.symm

/-- **A toggled bit** changes the count exactly when it is one of the bits counted. -/
theorem count_toggle_eq_iff : count (toggle m i) n = count m n ↔ n ≤ i := by
  constructor
  · intro heq
    by_contra hlt
    cases hi : bit m i with
    | false =>
      have := count_toggle_of_clear (n := n) (by omega) hi
      omega
    | true =>
      have := count_toggle_of_set (n := n) (by omega) hi
      omega
  · exact count_toggle_of_le

end RedFox32.Machine.Bitmap
