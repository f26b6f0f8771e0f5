import Mathlib.Logic.Function.Basic
import Mathlib.Tactic.Ring

/-!
An unbounded document of cells in rows of `W`, seen through a window of `H` rows.  The cursor is a cell
of the document; the window moves down by one row when a cell is wanted and the cursor has left it.
-/

namespace RedFox32.Machine

universe u

/-- The cells of the document, the cursor, and the first visible row. -/
structure Document (α : Type u) where
  grid : ℕ → α
  cursor : ℕ
  top : ℕ

namespace Document

variable {α : Type u} (W H : ℕ) (d : Document α)

/-- The window moves down by one row if the cursor has left it. -/
def makeRoom : Document α := if d.top + H ≤ d.cursor / W then { d with top := d.top + 1 } else d

/-- A cell stored under the cursor, which moves on. -/
def store (a : α) : Document α :=
  { d with grid := Function.update d.grid d.cursor a, cursor := d.cursor + 1 }

/-- The cursor moved to the start of the next row. -/
def nextRow : Document α := { d with cursor := W * (d.cursor / W + 1) }

/-- The cursor moved back by one cell, and a cell stored there. -/
def back (a : α) : Document α :=
  { d with grid := Function.update d.grid (d.cursor - 1) a, cursor := d.cursor - 1 }

/-- The cursor is in the window or at its end, and below the window there are only blanks. -/
structure Framed (blank : α) : Prop where
  ge : W * d.top ≤ d.cursor
  le : d.cursor ≤ W * (d.top + H)
  fresh : ∀ v, W * (d.top + H) ≤ v → d.grid v = blank

/-- The place of the cursor in the window, in cells. -/
def place : ℕ := d.cursor - W * d.top

variable {W H d} {blank : α}

theorem Framed.place_le (h : d.Framed W H blank) : d.place W ≤ W * H := by
  have h1 := h.ge
  have h2 := h.le
  rw [Nat.mul_add] at h2
  unfold place
  omega

theorem Framed.cursor_eq (h : d.Framed W H blank) : d.cursor = W * d.top + d.place W := by
  have := h.ge
  unfold place
  omega

/-- Inside the window no row is added. -/
theorem Framed.makeRoom_of_lt (h : d.Framed W H blank) (hW : 0 < W) (hlt : d.place W < W * H) :
    d.makeRoom W H = d := by
  have hc := h.cursor_eq
  unfold makeRoom
  rw [if_neg]
  rw [not_le, Nat.div_lt_iff_lt_mul hW, Nat.mul_comm, Nat.mul_add]
  omega

/-- At the end of the window it moves down by one row. -/
theorem Framed.makeRoom_full (h : d.Framed W H blank) (hW : 0 < W) (hfull : d.place W = W * H) :
    d.makeRoom W H = { d with top := d.top + 1 } := by
  have hc := h.cursor_eq
  unfold makeRoom
  rw [if_pos]
  rw [Nat.le_div_iff_mul_le hW, Nat.mul_comm, Nat.mul_add]
  omega

/-- After the window has moved the cursor is inside it. -/
theorem Framed.makeRoom (h : d.Framed W H blank) (hW : 0 < W) (hH : 0 < H) :
    (d.makeRoom W H).Framed W H blank ∧ (d.makeRoom W H).place W < W * H := by
  obtain ⟨h1, h2, h3⟩ := h
  have hWH : 0 < W * H := Nat.mul_pos hW hH
  have hle : W ≤ W * H := Nat.le_mul_of_pos_right W hH
  rcases Nat.lt_or_eq_of_le (Framed.place_le ⟨h1, h2, h3⟩) with hlt | hfull
  · rw [Framed.makeRoom_of_lt ⟨h1, h2, h3⟩ hW hlt]
    exact ⟨⟨h1, h2, h3⟩, hlt⟩
  · have hc := Framed.cursor_eq ⟨h1, h2, h3⟩
    rw [Framed.makeRoom_full ⟨h1, h2, h3⟩ hW hfull]
    have e : W * (d.top + 1 + H) = W * (d.top + H) + W := by ring
    have e' : W * (d.top + 1) = W * d.top + W := by ring
    refine ⟨⟨?_, ?_, fun v hv => h3 v ?_⟩, ?_⟩
    · show W * (d.top + 1) ≤ d.cursor
      omega
    · show d.cursor ≤ W * (d.top + 1 + H)
      omega
    · show W * (d.top + H) ≤ v
      have hv' : W * (d.top + 1 + H) ≤ v := hv
      omega
    · show d.cursor - W * (d.top + 1) < W * H
      omega

theorem Framed.store (h : d.Framed W H blank) (hlt : d.place W < W * H) (a : α) :
    (d.store a).Framed W H blank := by
  have hc := h.cursor_eq
  have e : W * (d.top + H) = W * d.top + W * H := Nat.mul_add ..
  refine ⟨?_, ?_, fun v hv => ?_⟩
  · show W * d.top ≤ d.cursor + 1
    omega
  · show d.cursor + 1 ≤ W * (d.top + H)
    omega
  · have hv' : W * (d.top + H) ≤ v := hv
    show Function.update d.grid d.cursor a v = blank
    rw [Function.update_of_ne (by omega)]
    exact h.fresh v hv'

theorem Framed.nextRow (h : d.Framed W H blank) (hW : 0 < W) (hlt : d.place W < W * H) :
    (d.nextRow W).Framed W H blank := by
  have hc := h.cursor_eq
  have e : W * (d.top + H) = W * d.top + W * H := Nat.mul_add ..
  have hrow : d.cursor / W < d.top + H := by
    rw [Nat.div_lt_iff_lt_mul hW, Nat.mul_comm]
    omega
  have hge := Nat.lt_mul_div_succ d.cursor hW
  refine ⟨?_, ?_, h.fresh⟩
  · show W * d.top ≤ W * (d.cursor / W + 1)
    omega
  · exact Nat.mul_le_mul_left W hrow

theorem Framed.back (h : d.Framed W H blank) (hlt : d.place W < W * H) (h0 : d.place W ≠ 0)
    (a : α) : (d.back a).Framed W H blank := by
  have hc := h.cursor_eq
  have e : W * (d.top + H) = W * d.top + W * H := Nat.mul_add ..
  refine ⟨?_, ?_, fun v hv => ?_⟩
  · show W * d.top ≤ d.cursor - 1
    omega
  · show d.cursor - 1 ≤ W * (d.top + H)
    omega
  · have hv' : W * (d.top + H) ≤ v := hv
    show Function.update d.grid (d.cursor - 1) a v = blank
    rw [Function.update_of_ne (by omega)]
    exact h.fresh v hv'

end Document

end RedFox32.Machine
