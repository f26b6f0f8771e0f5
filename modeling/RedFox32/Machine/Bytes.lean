import Mathlib.Data.BitVec
import Mathlib.Tactic.IntervalCases

/-!
A byte-addressed memory of `2 ^ 32` bytes with little-endian words.  Addresses wrap at `2 ^ 32`, so a
range of bytes is an arc of a circle: `b` lies in the `n` bytes from `a` when `(b - a).toNat < n`.
-/

namespace RedFox32.Machine

/-! ### Values stored one after another -/

section Copy

variable {ι κ β : Type} [DecidableEq κ] {place : ι → κ} {value : ι → β} {is : List ι} {c : κ → β}

theorem copy_outside {k : κ} (h : ∀ i ∈ is, place i ≠ k) :
    is.foldl (fun c i => Function.update c (place i) (value i)) c k = c k := by
  induction is generalizing c with
  | nil => rfl
  | cons i is ih =>
    rw [List.foldl_cons, ih fun j hj => h j (List.mem_cons_of_mem _ hj)]
    exact Function.update_of_ne (h i List.mem_cons_self).symm _ _

/-- A place holds the value that is copied to it, when no other value is. -/
theorem copy_same {k : κ} {v : β} (hk : ∃ i ∈ is, place i = k)
    (hv : ∀ i ∈ is, place i = k → value i = v) :
    is.foldl (fun c i => Function.update c (place i) (value i)) c k = v := by
  induction is generalizing c with
  | nil =>
    obtain ⟨i, hi, -⟩ := hk
    cases hi
  | cons j is ih =>
    rw [List.foldl_cons]
    by_cases hlater : ∃ i ∈ is, place i = k
    · exact ih hlater fun i hi => hv i (List.mem_cons_of_mem j hi)
    · have houtside : ∀ i ∈ is, place i ≠ k := fun i hi heq => hlater ⟨i, hi, heq⟩
      obtain ⟨i, hi, heq⟩ := hk
      obtain rfl : i = j := (List.mem_cons.1 hi).resolve_right fun hi => houtside i hi heq
      rw [copy_outside houtside, ← heq, Function.update_self]
      exact hv i List.mem_cons_self heq

/-- A copy to places that are all different leaves every value in its place. -/
theorem copy_inside (hplace : Function.Injective place) {i : ι} (hi : i ∈ is) :
    is.foldl (fun c i => Function.update c (place i) (value i)) c (place i) = value i :=
  copy_same ⟨i, hi, rfl⟩ fun _ _ heq => by rw [hplace heq]

end Copy

/-- One byte. -/
abbrev Byte := BitVec 8

/-- A 32-bit address or machine word. -/
abbrev Word := BitVec 32

/-- The contents of the memory. -/
abbrev Mem := Word → Byte

namespace Mem

variable (m : Mem) (a : Word)

/-! ### Loads and stores -/

/-- The 16-bit word at `a`. -/
def load16 : BitVec 16 := m (a + 1) ++ m a

/-- The 32-bit word at `a`. -/
def load32 : Word := m (a + 3) ++ m (a + 2) ++ m (a + 1) ++ m a

/-- The 64-bit word at `a`. -/
def load64 : BitVec 64 := load32 m (a + 4) ++ load32 m a

/-- The memory after the low `n` bytes of `v` are stored at `a`. -/
def store (n : ℕ) (v : Word) : Mem := fun b =>
  if (b - a).toNat < n then v.extractLsb' (8 * (b - a).toNat) 8 else m b

/-- The memory after the byte `v` is stored at `a`. -/
def store8 (v : Byte) : Mem := m.store a 1 (v.setWidth 32)

/-- The memory after the 16-bit word `v` is stored at `a`. -/
def store16 (v : BitVec 16) : Mem := m.store a 2 (v.setWidth 32)

/-- The memory after the 32-bit word `v` is stored at `a`. -/
def store32 (v : Word) : Mem := m.store a 4 v

/-! ### Arcs of addresses -/

/-- The `n` bytes from `a` and the `k` bytes from `b` have no byte in common. -/
def Apart (a : Word) (n : ℕ) (b : Word) (k : ℕ) : Prop := n ≤ (b - a).toNat ∧ k ≤ (a - b).toNat

variable {m : Mem} {a b : Word} {n k : ℕ}

theorem Apart.symm (h : Apart a n b k) : Apart b k a n := ⟨h.2, h.1⟩

theorem Apart.left_le (h : Apart a n b k) {i : ℕ} (hi : i < k) (hk : k ≤ 2 ^ 32) :
    n ≤ (b + BitVec.ofNat 32 i - a).toNat := by
  obtain ⟨h1, h2⟩ := h
  bv_omega

/-! ### What a store changes, and what it keeps -/

theorem store_outside {v : Word} (h : n ≤ (b - a).toNat) : m.store a n v b = m b := by
  unfold store
  rw [if_neg (by omega)]

theorem store_inside {v : Word} (h : (b - a).toNat < n) :
    m.store a n v b = v.extractLsb' (8 * (b - a).toNat) 8 := by
  unfold store
  rw [if_pos h]

@[simp] theorem store8_self (v : Byte) : m.store8 a v a = v := by
  unfold store8
  rw [store_inside (by simp), BitVec.sub_self]
  ext i hi
  simp [hi, show i < 32 by omega]

theorem store8_of_ne {v : Byte} (h : b ≠ a) : m.store8 a v b = m b :=
  store_outside (by bv_omega)

theorem load32_congr {m' : Mem} (h : ∀ i < 4, m' (b + BitVec.ofNat 32 i) = m (b + BitVec.ofNat 32 i)) :
    load32 m' b = load32 m b := by
  have h0 := h 0 (by omega)
  have h1 := h 1 (by omega)
  have h2 := h 2 (by omega)
  have h3 := h 3 (by omega)
  simp only [BitVec.add_zero] at h0
  simp only [load32, BitVec.ofNat_eq_ofNat, h0, h1, h2, h3]

theorem store8_eq_update (v : Byte) : m.store8 a v = Function.update m a v := by
  funext b
  by_cases h : b = a
  · rw [h, store8_self, Function.update_self]
  · rw [store8_of_ne h, Function.update_of_ne h]

/-- A store keeps the words it does not touch. -/
theorem load32_store_of_apart {v : Word} (h : Apart a n b 4) :
    load32 (m.store a n v) b = load32 m b :=
  load32_congr fun _ hi => store_outside (h.left_le hi (by omega))

/-- A word is determined by its four bytes. -/
theorem load32_eq_of_bytes {v : Word}
    (h : ∀ i < 4, m (a + BitVec.ofNat 32 i) = v.extractLsb' (8 * i) 8) : load32 m a = v := by
  have h0 := h 0 (by omega)
  simp only [BitVec.add_zero] at h0
  simp only [load32, BitVec.ofNat_eq_ofNat]
  rw [h0, h 1 (by omega), h 2 (by omega), h 3 (by omega)]
  ext i hi
  simp only [BitVec.getElem_append]
  grind

/-! ### Changes inside an arc -/

/-- The memory `m'` differs from `m` only in the `n` bytes from `a`. -/
def ChangesOnly (a : Word) (n : ℕ) (m m' : Mem) : Prop := ∀ b, n ≤ (b - a).toNat → m' b = m b

theorem ChangesOnly.refl : ChangesOnly a n m m := fun _ _ => rfl

/-- A store inside the arc. -/
theorem ChangesOnly.store {m' : Mem} {i : ℕ} {v : Word} (h : ChangesOnly a n m m') (hik : i + k ≤ n)
    (hi : i < 2 ^ 32) : ChangesOnly a n m (m'.store (a + BitVec.ofNat 32 i) k v) := by
  intro b hb
  rw [store_outside (by bv_omega)]
  exact h b hb

theorem changesOnly_store8 (m : Mem) (a : Word) (v : Byte) : ChangesOnly a 1 m (m.store8 a v) := by
  intro b hb
  exact store_outside hb

theorem ChangesOnly.load32 {m' : Mem} (h : ChangesOnly a n m m') (hap : Apart a n b 4) :
    load32 m' b = load32 m b :=
  load32_congr fun _ hi => h _ (hap.left_le hi (by omega))

theorem ChangesOnly.load16 {m' : Mem} (h : ChangesOnly a n m m') (hap : Apart a n b 2) :
    load16 m' b = load16 m b := by
  have h0 := h _ (hap.left_le (i := 0) (by omega) (by omega))
  have h1 : m' (b + 1) = m (b + 1) := h _ (hap.left_le (i := 1) (by omega) (by omega))
  rw [BitVec.add_zero] at h0
  unfold Mem.load16
  rw [h0, h1]

/-! ### Equal ranges -/

/-- The `n` bytes from `b` in the second memory are the `n` bytes from `a` in the first one. -/
def SameBytes (m : Mem) (a : Word) (m' : Mem) (b : Word) (n : ℕ) : Prop :=
  ∀ i < n, m' (b + BitVec.ofNat 32 i) = m (a + BitVec.ofNat 32 i)

theorem SameBytes.trans {m' m'' : Mem} {c : Word} (h : SameBytes m a m' b n)
    (h' : SameBytes m' b m'' c n) : SameBytes m a m'' c n := fun i hi => (h' i hi).trans (h i hi)

/-- Ranges that are apart from a change keep their bytes. -/
theorem ChangesOnly.sameBytes {m' : Mem} (h : ChangesOnly a n m m') (hap : Apart a n b k)
    (hk : k ≤ 2 ^ 32) : SameBytes m b m' b k := fun _ hi => h _ (hap.left_le hi hk)

theorem SameBytes.congr_right {m' m'' : Mem} (h : SameBytes m' b m'' b n) :
    SameBytes m a m'' b n ↔ SameBytes m a m' b n := by
  constructor
  · intro hs i hi
    exact (h i hi).symm.trans (hs i hi)
  · intro hs
    exact hs.trans h

/-- A part of an arc is apart from what the arc is apart from. -/
theorem Apart.inner {i n' : ℕ} (h : Apart a n b k) (hin : i + n' ≤ n) (hn : 0 < n') (hk : 0 < k) :
    Apart (a + BitVec.ofNat 32 i) n' b k := by
  obtain ⟨h1, h2⟩ := h
  unfold Apart
  constructor <;> bv_omega

theorem load32_store32_self (v : Word) : load32 (m.store32 a v) a = v := by
  refine load32_eq_of_bytes fun i hi => ?_
  have e : (a + BitVec.ofNat 32 i - a).toNat = i := by bv_omega
  unfold store32
  rw [store_inside (by omega), e]

/-- The bytes of a word, from the lowest. -/
theorem byte_load32 (i : ℕ) (hi : i < 4) :
    (load32 m a).extractLsb' (8 * i) 8 = m (a + BitVec.ofNat 32 i) := by
  unfold load32
  ext j hj
  simp only [BitVec.getElem_extractLsb', BitVec.getLsbD_append]
  interval_cases i <;> simp <;> grind

/-- A 16-bit store to a word that is zero. -/
theorem load32_store16_self {v : BitVec 16} (h : load32 m a = 0) :
    load32 (m.store16 a v) a = v.setWidth 32 := by
  refine load32_eq_of_bytes fun i hi => ?_
  have e : (a + BitVec.ofNat 32 i - a).toNat = i := by bv_omega
  unfold store16
  by_cases hlt : i < 2
  · rw [store_inside (by omega), e]
  · have hbyte : m (a + BitVec.ofNat 32 i) = (load32 m a).extractLsb' (8 * i) 8 :=
      (byte_load32 i hi).symm
    rw [store_outside (by omega), hbyte, h]
    ext j hj
    simp [BitVec.getElem_extractLsb', show 16 ≤ 8 * i + j by omega]

/-! ### Copies byte by byte -/

variable (m) in
/-- The bytes from `src` on are copied to `dst`, one after another and upwards. -/
def copyBytes (dst src : Word) : ℕ → Mem
  | 0 => m
  | n + 1 => Function.update (copyBytes dst src n) (dst + BitVec.ofNat 32 n)
      (copyBytes dst src n (src + BitVec.ofNat 32 n))

/-- **A copy** to a range that is apart from what is copied. -/
theorem copyBytes_eq {dst src : Word} (h : Apart dst k src k) (hn : n ≤ k) (hk : k ≤ 2 ^ 32) :
    m.copyBytes dst src n = fun b =>
      if (b - dst).toNat < n then m (src + (b - dst)) else m b := by
  induction n with
  | zero => simp [copyBytes]
  | succ n ih =>
    have hsource : ¬ (src + BitVec.ofNat 32 n - dst).toNat < n := by
      have hle := h.left_le (show n < k by omega) hk
      omega
    unfold copyBytes
    rw [ih (by omega)]
    funext b
    by_cases hb : b - dst = BitVec.ofNat 32 n
    · have hplace : b = dst + BitVec.ofNat 32 n := by
        rw [← hb, BitVec.add_comm, BitVec.sub_add_cancel]
      have hn' : (BitVec.ofNat 32 n).toNat = n := by
        rw [BitVec.toNat_ofNat]
        omega
      rw [hb, hplace, Function.update_self, if_pos (by omega)]
      exact if_neg hsource
    · have hplace : b ≠ dst + BitVec.ofNat 32 n := by
        rintro rfl
        exact hb (by rw [BitVec.add_comm, BitVec.add_sub_cancel])
      have hne : (b - dst).toNat ≠ n := by
        intro heq
        rw [← heq, BitVec.ofNat_toNat, BitVec.setWidth_eq] at hb
        exact hb rfl
      have hiff : (b - dst).toNat < n ↔ (b - dst).toNat < n + 1 := by omega
      rw [Function.update_of_ne hplace]
      simp only [hiff]

/-! ### Lists of words -/

variable (m a) in
/-- The memory after a list of words is stored from `a`. -/
def storeWords (ws : List Word) : Mem := fun b =>
  match ws[(b - a).toNat / 4]? with
  | some v => v.extractLsb' (8 * ((b - a).toNat % 4)) 8
  | none => m b

theorem load32_storeWords {ws : List Word} {j : ℕ} {v : Word} (hv : ws[j]? = some v)
    (hj : 4 * j + 4 ≤ 2 ^ 32) : (m.storeWords a ws).load32 (a + BitVec.ofNat 32 (4 * j)) = v := by
  refine load32_eq_of_bytes fun i hi => ?_
  have e : (a + BitVec.ofNat 32 (4 * j) + BitVec.ofNat 32 i - a).toNat = 4 * j + i := by bv_omega
  unfold storeWords
  rw [e, show (4 * j + i) / 4 = j by omega, show (4 * j + i) % 4 = i by omega, hv]

end Mem

end RedFox32.Machine
