import RedFox32.Kernel.TextMode.Defs

/-!
# Scrolling

The loop of `ScrollScreen` moves and clears bytes in one pass over overlapping ranges.  `Scrolled`
says what the video memory holds after `k` iterations with the read pointer `d` bytes ahead.
-/

namespace RedFox32.Kernel.TextMode

open RedFox32.Machine

/-- The address of the byte `j` of the video memory. -/
def videoByte (j : ℕ) : Word := textModeVideoMemory + BitVec.ofNat 32 j

/-- The address lies in the `4000` bytes of the video memory. -/
def InVideo (a : Word) : Prop := (a - textModeVideoMemory).toNat < 4000

instance : DecidablePred InVideo := fun a => by unfold InVideo; infer_instance

theorem inVideo_videoByte {j : ℕ} (hj : j < 4000) : InVideo (videoByte j) := by
  unfold InVideo videoByte
  bv_omega

theorem videoByte_inj {i j : ℕ} (hi : i < 4000) (hj : j < 4000) :
    videoByte i = videoByte j ↔ i = j := by
  unfold videoByte
  constructor
  · intro h
    bv_omega
  · rintro rfl
    rfl

theorem videoByte_succ (j : ℕ) : videoByte j + 1 = videoByte (j + 1) := by
  unfold videoByte
  bv_omega

/-! ### One byte written -/

section Write

variable (s : Screen) (a : Word) (v : Byte)

@[simp] theorem write_screenPos : (s.write a v).screenPos = s.screenPos := rfl
@[simp] theorem write_writes : (s.write a v).writes = s.writes ++ [a] := rfl
@[simp] theorem moveTo_screenPos (p : Word) : (s.moveTo p).screenPos = p := rfl
@[simp] theorem moveTo_mem (p : Word) : (s.moveTo p).mem = s.mem := rfl
@[simp] theorem moveTo_writes (p : Word) : (s.moveTo p).writes = s.writes := rfl

theorem write_mem (b : Word) : (s.write a v).mem b = if b = a then v else s.mem b := by
  unfold Screen.write
  split_ifs with h
  · subst h
    exact Mem.store8_self v
  · exact Mem.store8_of_ne h

theorem write_videoByte {i j : ℕ} (hi : i < 4000) (hj : j < 4000) :
    (s.write (videoByte i) v).mem (videoByte j) = if j = i then v else s.mem (videoByte j) := by
  rw [write_mem]
  simp only [videoByte_inj hj hi]

end Write

/-! ### The loop -/

/-- `k` iterations of the loop over the memory `m₀`, the read pointer `d` bytes ahead. -/
structure Scrolled (m₀ : Mem) (d k : ℕ) (s : Screen) : Prop where
  inside : ∀ j < 4000, s.mem (videoByte j) =
    if j < k then m₀ (videoByte (j + d)) else if d ≤ j ∧ j < k + d then 0 else m₀ (videoByte j)
  outside : ∀ a, ¬ InVideo a → s.mem a = m₀ a
  logged : ∀ a ∈ s.writes, InVideo a

/-- One iteration. -/
theorem Scrolled.step {m₀ : Mem} {d k : ℕ} {s : Screen} (h : Scrolled m₀ d k s) (hd : 0 < d)
    (hk : k + d < 4000) :
    Scrolled m₀ d (k + 1)
      ((s.write (videoByte k) (s.mem (videoByte (k + d)))).write (videoByte (k + d)) 0) := by
  refine ⟨fun j hj => ?_, fun a ha => ?_, fun a ha => ?_⟩
  · rw [write_videoByte _ _ hk hj, write_videoByte _ _ (by omega) hj, h.inside _ hj,
      h.inside _ hk]
    -- the byte read has not been moved or cleared yet
    rw [if_neg (by omega : ¬ k + d < k), if_neg (by omega : ¬ (d ≤ k + d ∧ k + d < k + d))]
    rcases Nat.lt_trichotomy j k with hjk | rfl | hjk
    · rw [if_neg (by omega), if_neg (by omega), if_pos hjk, if_pos (by omega)]
    · rw [if_neg (by omega), if_pos rfl, if_pos (by omega)]
    · by_cases hjd : j = k + d
      · rw [if_pos hjd, if_neg (by omega), if_pos (by omega)]
      · have hsame : (d ≤ j ∧ j < k + d) ↔ (d ≤ j ∧ j < k + 1 + d) := by omega
        rw [if_neg hjd, if_neg (by omega), if_neg (by omega), if_neg (show ¬ j < k + 1 by omega)]
        simp only [hsame]
  · have h1 : a ≠ videoByte (k + d) := by
      rintro rfl
      exact ha (inVideo_videoByte hk)
    have h2 : a ≠ videoByte k := by
      rintro rfl
      exact ha (inVideo_videoByte (by omega))
    rw [write_mem, if_neg h1, write_mem, if_neg h2, h.outside a ha]
  · simp only [write_writes, List.append_assoc, List.mem_append, List.mem_cons,
      List.not_mem_nil, or_false] at ha
    rcases ha with ha | rfl | rfl
    · exact h.logged a ha
    · exact inVideo_videoByte (by omega)
    · exact inVideo_videoByte hk

theorem scrollLoop_spec {m₀ : Mem} {d : ℕ} (hd : 0 < d) :
    ∀ n k s, k + d + n = 4000 → Scrolled m₀ d k s →
      Scrolled m₀ d (k + n) (scrollLoop (videoByte k) (videoByte (k + d)) s) ∧
        (scrollLoop (videoByte k) (videoByte (k + d)) s).screenPos = s.screenPos := by
  have hend : videoByte 4000 = videoEnd := by decide
  intro n
  induction n with
  | zero =>
    intro k s hk h
    rw [scrollLoop, show k + d = 4000 by omega, hend]
    simpa using h
  | succ n ih =>
    intro k s hk h
    have hne : videoByte (k + d) ≠ videoEnd := by
      rw [← hend]
      unfold videoByte
      bv_omega
    rw [scrollLoop, if_pos hne, videoByte_succ, videoByte_succ,
      show k + d + 1 = k + 1 + d by omega, show k + (n + 1) = k + 1 + n by omega]
    obtain ⟨h1, h2⟩ := ih (k + 1) _ (by omega) (h.step hd (by omega))
    exact ⟨h1, h2.trans rfl⟩

/-- **`ScrollScreen`** by one to 25 lines. -/
theorem scrollScreen_spec (lines : Byte) (hpos : 0 < lines.toNat) (hle : lines.toNat ≤ 25)
    {s : Screen} (hlog : ∀ a ∈ s.writes, InVideo a) :
    Scrolled s.mem (160 * lines.toNat) (4000 - 160 * lines.toNat) (scrollScreen lines s) ∧
      (scrollScreen lines s).screenPos = s.screenPos := by
  have hstart : Scrolled s.mem (160 * lines.toNat) 0 s := by
    refine ⟨fun j _ => ?_, fun _ _ => rfl, hlog⟩
    rw [if_neg (by omega), if_neg (by omega)]
  have h := scrollLoop_spec (by omega) (4000 - 160 * lines.toNat) 0 s (by omega) hstart
  rw [Nat.zero_add, Nat.zero_add] at h
  have hread : textModeVideoMemory + textModeXResolution * lines.setWidth 32 =
      videoByte (160 * lines.toNat) := by
    unfold videoByte textModeXResolution
    bv_omega
  have hwrite : videoByte 0 = textModeVideoMemory := by decide
  have hscroll : scrollScreen lines s =
      scrollLoop (videoByte 0) (videoByte (160 * lines.toNat)) s := by
    unfold scrollScreen
    rw [hread, hwrite]
  rwa [hscroll]

end RedFox32.Kernel.TextMode
