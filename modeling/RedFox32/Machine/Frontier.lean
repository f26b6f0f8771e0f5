import Mathlib.Data.Int.ConditionallyCompleteOrder
import Mathlib.Order.CompletePartialOrder
import Mathlib.Order.ConditionallyCompleteLattice.Basic
import Mathlib.Order.Interval.Set.Disjoint
import RedFox32.Machine.Runs

/-!
Ranges of bytes, and the rule for a system that hands them out from a frontier: what was handed out
lies below it, what will be handed out lies above it, and it only moves up.
-/

namespace RedFox32.Machine

universe u v

/-- A half-open range of bytes, as exact integers. -/
structure Extent where
  lo : ℤ
  hi : ℤ

/-- The bytes of the range. -/
def Extent.bytes (e : Extent) : Set ℤ := Set.Ico e.lo e.hi

theorem Extent.disjoint_of_le {a b : Extent} (h : a.hi ≤ b.lo) : Disjoint a.bytes b.bytes := by
  unfold Extent.bytes
  rw [Set.Ico_disjoint_Ico]
  exact (min_le_left _ _).trans (h.trans (le_max_right _ _))

section Frontier

variable {σ : Type u} {ε : Type v} {step : σ → ε → σ → Prop} {init s : σ}
  {tr : List (Transition σ ε)} {f : σ → ℤ}

/-- The frontier does not move down in a run. -/
theorem Run.frontier_le (h : Run step init tr s) (hup : ∀ t ∈ tr, f t.pre ≤ f t.post) :
    ∀ t ∈ tr, f t.post ≤ f s := by
  induction h with
  | nil => simp
  | @snoc tr s s' e _ _ ih =>
    have hlast : f s ≤ f s' := hup ⟨s, e, s'⟩ (by simp)
    intro t ht
    rcases List.mem_append.1 ht with ht | ht
    · exact (ih (fun t ht => hup t (List.mem_append_left _ ht)) t ht).trans hlast
    · rw [List.mem_singleton] at ht
      subst ht
      exact le_rfl

/-- **The frontier rule.**  If the `old` ranges of a transition lie below the frontier after it and the
`new` ranges above the frontier before it, then no new range meets an older one. -/
theorem Run.disjoint_of_frontier (h : Run step init tr s)
    {old new : Transition σ ε → Option Extent} (hup : ∀ t ∈ tr, f t.pre ≤ f t.post)
    (hold : ∀ t ∈ tr, ∀ r, old t = some r → r.hi ≤ f t.post)
    (hnew : ∀ t ∈ tr, ∀ b, new t = some b → f t.pre ≤ b.lo) :
    tr.Pairwise fun t t' => ∀ r, old t = some r → ∀ b, new t' = some b →
      Disjoint r.bytes b.bytes := by
  induction h with
  | nil => exact .nil
  | @snoc tr s s' e hrun _ ih =>
    have hmem : ∀ t ∈ tr, t ∈ tr ++ [⟨s, e, s'⟩] := fun t ht => List.mem_append_left _ ht
    have hle := hrun.frontier_le fun t ht => hup t (hmem t ht)
    refine List.pairwise_append.2 ⟨?_, List.pairwise_singleton _ _, ?_⟩
    · apply ih
      · exact fun t ht => hup t (hmem t ht)
      · exact fun t ht => hold t (hmem t ht)
      · exact fun t ht => hnew t (hmem t ht)
    · intro t ht t' ht' r hr b hb
      rw [List.mem_singleton] at ht'
      subst ht'
      have hr' := hold t (hmem t ht) r hr
      have hb' := hnew _ (by simp) b hb
      exact Extent.disjoint_of_le (hr'.trans ((hle t ht).trans hb'))

end Frontier

end RedFox32.Machine
