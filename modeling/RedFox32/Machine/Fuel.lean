import Mathlib.Order.Filter.AtTopBot.Basic

/-!
Loops that may not end.  A computation takes a fuel, and what counts is what it gives with every fuel
that is large enough: a value, or `none` when no fuel is enough.
-/

namespace RedFox32.Machine

universe u v

variable {α : Type u} {β : Type v}

/-- Every fuel that is large enough gives `r`. -/
def Settles (f : ℕ → α) (r : α) : Prop := ∀ᶠ fuel in Filter.atTop, f fuel = r

/-- The computation returns a value. -/
abbrev Returns (f : ℕ → Option α) (a : α) : Prop := Settles f (some a)

/-- No fuel is enough. -/
abbrev Diverges (f : ℕ → Option α) : Prop := Settles f none

section Settles

variable {f g : ℕ → α} {r r' : α}

theorem settles_const (r : α) : Settles (fun _ => r) r :=
  Filter.Eventually.of_forall fun _ => rfl

theorem Settles.unique (h : Settles f r) (h' : Settles f r') : r = r' := by
  obtain ⟨fuel, hr, hr'⟩ := (Filter.Eventually.and h h').exists
  exact hr.symm.trans hr'

/-- A loop that goes round once more. -/
theorem settles_succ (hf : ∀ fuel, f (fuel + 1) = g fuel) : Settles f r ↔ Settles g r := by
  simp only [Settles, Filter.eventually_atTop]
  constructor
  · rintro ⟨n, hn⟩
    refine ⟨n, fun fuel hfuel => ?_⟩
    rw [← hf]
    exact hn (fuel + 1) (by omega)
  · rintro ⟨n, hn⟩
    refine ⟨n + 1, fun fuel hfuel => ?_⟩
    obtain ⟨fuel, rfl⟩ := Nat.exists_eq_add_of_le' (Nat.one_le_of_lt hfuel)
    rw [hf]
    exact hn fuel (by omega)

end Settles

section Bind

variable {f : ℕ → Option α} {g : ℕ → α → Option β} {F : ℕ → Option β} {a : α} {r : Option β}

/-- What follows a computation that returns. -/
theorem settles_bind_some (h : Returns f a) :
    Settles (fun fuel => (f fuel).bind (g fuel)) r ↔ Settles (fun fuel => g fuel a) r := by
  refine Filter.eventually_congr (Filter.Eventually.mono h fun fuel hfuel => ?_)
  simp only [hfuel, Option.bind_some]

theorem returns_map (h : Returns f a) (k : α → β) : Returns (fun fuel => (f fuel).map k) (k a) := by
  refine Filter.Eventually.mono h fun fuel hfuel => ?_
  simp only [hfuel, Option.map_some]

/-- What is done to the value of a computation that returns, or does not end. -/
theorem returns_map_iff {r : Option α} (h : Settles f r) {k : α → β} {b : β} :
    Returns (fun fuel => (f fuel).map k) b ↔ ∃ a, Returns f a ∧ k a = b := by
  constructor
  · intro hb
    cases r with
    | none =>
      have hnone : Diverges fun fuel => (f fuel).map k :=
        Filter.Eventually.mono h fun fuel hfuel => by simp only [hfuel, Option.map_none]
      cases hb.unique hnone
    | some a => exact ⟨a, h, Option.some.inj ((returns_map h k).unique hb)⟩
  · rintro ⟨a, ha, rfl⟩
    exact returns_map ha k

/-- What follows a computation that does not end is not reached. -/
theorem diverges_bind (h : Diverges f) : Diverges fun fuel => (f fuel).bind (g fuel) := by
  refine Filter.Eventually.mono h fun fuel hfuel => ?_
  simp only [hfuel, Option.bind_none]

/-- A loop whose round starts with a computation that returns. -/
theorem settles_round (hF : ∀ fuel, F (fuel + 1) = (f fuel).bind (g fuel)) (h : Returns f a) :
    Settles F r ↔ Settles (fun fuel => g fuel a) r :=
  (settles_succ hF).trans (settles_bind_some h)

end Bind

end RedFox32.Machine
