import Mathlib.Data.BitVec
import RedFox32.Machine.Fuel

/-!
Loops of C.  A `for` loop counts in a number of a fixed width: it runs over the range of its bound when the
width holds the bound, and never ends when it does not.  A `do` loop goes round until a test fails.
-/

namespace RedFox32.Machine

universe u

/-! ### Counted loops -/

/-- `for (i = 0; i < bound; i++) body`, from `i` on, with a counter of `w` bits. -/
def forLoop {σ : Type u} {w : ℕ} (bound : ℕ) (body : ℕ → BitVec w → σ → Option σ) :
    ℕ → BitVec w → σ → Option σ
  | 0, _, _ => none
  | fuel + 1, i, s =>
    if i.toNat < bound then (body fuel i s).bind (forLoop bound body fuel (i + 1)) else some s

section ForLoop

variable {σ : Type u} {w bound : ℕ} {body : ℕ → BitVec w → σ → Option σ}

/-- A counter that cannot reach the bound. -/
theorem forLoop_eq_none (hbound : 2 ^ w ≤ bound) (fuel : ℕ) (i : BitVec w) (s : σ) :
    forLoop bound body fuel i s = none := by
  induction fuel generalizing i s with
  | zero => rfl
  | succ fuel ih =>
    have hi : i.toNat < bound := lt_of_lt_of_le i.isLt hbound
    rw [forLoop, if_pos hi, Option.bind_eq_none_iff]
    intro s' _
    exact ih (i + 1) s'

/-- One more round of the loop. -/
theorem forLoop_round {k : ℕ} {s s' : σ} {r : Option σ} (hk : k < bound) (hbound : bound < 2 ^ w)
    (hbody : Returns (fun fuel => body fuel (BitVec.ofNat w k) s) s') :
    Settles (fun fuel => forLoop bound body fuel (BitVec.ofNat w k) s) r ↔
      Settles (fun fuel => forLoop bound body fuel (BitVec.ofNat w (k + 1)) s') r := by
  have hi : (BitVec.ofNat w k).toNat < bound := by
    rwa [BitVec.toNat_ofNat, Nat.mod_eq_of_lt (by omega)]
  rw [BitVec.ofNat_add]
  refine settles_round (fun fuel => ?_) hbody
  rw [forLoop, if_pos hi]
  rfl

theorem forLoop_end {s : σ} (hbound : bound < 2 ^ w) :
    Returns (fun fuel => forLoop bound body fuel (BitVec.ofNat w bound) s) s := by
  refine (settles_succ (g := fun _ => some s) fun fuel => ?_).2 (settles_const _)
  rw [forLoop, BitVec.toNat_ofNat, Nat.mod_eq_of_lt hbound, if_neg (lt_irrefl bound)]

/-- **The invariant of a counted loop**: what holds at the start and is kept by every round holds, with the
counter at the bound, in the state that the loop returns. -/
theorem forLoop_returns (body : ℕ → BitVec w → σ → Option σ) {I : ℕ → σ → Prop}
    (hbound : bound < 2 ^ w)
    (hbody : ∀ k < bound, ∀ s, I k s →
      ∃ s', Returns (fun fuel => body fuel (BitVec.ofNat w k) s) s' ∧ I (k + 1) s')
    {s : σ} (h0 : I 0 s) :
    ∃ s', Returns (fun fuel => forLoop bound body fuel 0 s) s' ∧ I bound s' := by
  -- the induction is on the rounds that are left
  have hrest : ∀ n k, n + k = bound → ∀ s, I k s →
      ∃ s', Returns (fun fuel => forLoop bound body fuel (BitVec.ofNat w k) s) s' ∧ I bound s' := by
    intro n
    induction n with
    | zero =>
      intro k hk s hs
      obtain rfl : k = bound := by omega
      exact ⟨s, forLoop_end hbound, hs⟩
    | succ n ih =>
      intro k hk s hs
      obtain ⟨s₁, hround, hs₁⟩ := hbody k (by omega) s hs
      obtain ⟨s', hret, hs'⟩ := ih (k + 1) (by omega) s₁ hs₁
      exact ⟨s', (forLoop_round (by omega) hbound hround).2 hret, hs'⟩
  exact hrest bound 0 rfl s h0

end ForLoop

/-! ### Loops with a test at the end -/

/-- `do body while (again)` -/
def doWhile {σ : Type u} (body : σ → σ) (again : σ → Bool) : ℕ → σ → Option σ
  | 0, _ => none
  | fuel + 1, s => if again (body s) then doWhile body again fuel (body s) else some (body s)

section DoWhile

variable {σ : Type u} {body : σ → σ} {again : σ → Bool} {s : σ}

/-- The loop goes round as long as the test holds. -/
theorem doWhile_round {r : Option σ} (h : again (body s) = true) :
    Settles (fun fuel => doWhile body again fuel s) r ↔
      Settles (fun fuel => doWhile body again fuel (body s)) r := by
  refine settles_succ fun fuel => ?_
  rw [doWhile, if_pos h]

theorem doWhile_end (h : again (body s) = false) :
    Returns (fun fuel => doWhile body again fuel s) (body s) := by
  refine (settles_succ (g := fun _ => some (body s)) fun fuel => ?_).2 (settles_const _)
  rw [doWhile, if_neg (by simp [h])]

/-- **A loop whose test fails** first after the round `n`. -/
theorem doWhile_returns {n : ℕ} (hagain : ∀ k < n, again (body^[k + 1] s) = true)
    (hend : again (body^[n + 1] s) = false) :
    Returns (fun fuel => doWhile body again fuel s) (body^[n + 1] s) := by
  induction n generalizing s with
  | zero => exact doWhile_end hend
  | succ n ih =>
    refine (doWhile_round (hagain 0 (by omega))).2 ?_
    exact ih (fun k hk => hagain (k + 1) (by omega)) hend

/-- **A loop whose test never fails** does not end. -/
theorem doWhile_eq_none (hagain : ∀ k, again (body^[k + 1] s) = true) (fuel : ℕ) :
    doWhile body again fuel s = none := by
  induction fuel generalizing s with
  | zero => rfl
  | succ fuel ih =>
    have hfirst : again (body s) = true := hagain 0
    rw [doWhile, if_pos hfirst]
    exact ih fun k => hagain (k + 1)

/-- A test fails first at some number, or it holds for all of them. -/
theorem first_failure (test : ℕ → Bool) :
    (∃ n, (∀ k < n, test k = true) ∧ test n = false) ∨ ∀ k, test k = true := by
  by_cases hfail : ∃ n, test n = false
  · left
    refine ⟨Nat.find hfail, fun k hk => ?_, Nat.find_spec hfail⟩
    simpa using Nat.find_min hfail hk
  · right
    simpa using hfail

/-- The loop returns, or no fuel is enough. -/
theorem doWhile_settles (body : σ → σ) (again : σ → Bool) (s : σ) :
    ∃ r, Settles (fun fuel => doWhile body again fuel s) r := by
  rcases first_failure fun k => again (body^[k + 1] s) with ⟨n, hagain, hend⟩ | hagain
  · exact ⟨_, doWhile_returns hagain hend⟩
  · exact ⟨none, Filter.Eventually.of_forall (doWhile_eq_none hagain)⟩

/-- **When the loop returns**, and what: the state after the first round after which the test fails. -/
theorem doWhile_returns_iff {s' : σ} : Returns (fun fuel => doWhile body again fuel s) s' ↔
    ∃ n, (∀ k < n, again (body^[k + 1] s) = true) ∧ again (body^[n + 1] s) = false ∧
      s' = body^[n + 1] s := by
  constructor
  · intro hret
    rcases first_failure fun k => again (body^[k + 1] s) with ⟨n, hagain, hend⟩ | hagain
    · exact ⟨n, hagain, hend, Option.some.inj (hret.unique (doWhile_returns hagain hend))⟩
    · have hnone : Diverges fun fuel => doWhile body again fuel s :=
        Filter.Eventually.of_forall (doWhile_eq_none hagain)
      cases hret.unique hnone
  · rintro ⟨n, hagain, hend, rfl⟩
    exact doWhile_returns hagain hend

end DoWhile

end RedFox32.Machine
