import Mathlib.Data.List.Basic
import RedFox32.Machine.Bytes

/-!
Readers of text.  A reader takes the front of a list of characters for a value and leaves the rest.  What
is written piece by piece is read back piece by piece, whatever comes behind.
-/

namespace RedFox32.Machine

/-- A reader of values of type `α` in text over `τ`. -/
def Reader (τ α : Type) : Type := List τ → Option (α × List τ)

namespace Reader

variable {τ α : Type}

instance : Monad (Reader τ) where
  pure a := fun text => some (a, text)
  bind p q := fun text => (p text).bind fun (a, rest) => q a rest

/-- The given characters. -/
def literal [DecidableEq τ] (s : List τ) : Reader τ Unit := fun text =>
  if s <+: text then some ((), text.drop s.length) else none

/-- `n` values, one behind the other. -/
def times (p : Reader τ α) : ℕ → Reader τ (List α)
  | 0 => pure []
  | n + 1 => do
    let a ← p
    let as ← p.times n
    pure (a :: as)

/-- Values up to the end of the text, `n` of them at most. -/
def many (p : Reader τ α) : ℕ → List τ → Option (List α)
  | _, [] => some []
  | 0, _ :: _ => none
  | n + 1, c :: text => (p (c :: text)).bind fun (a, rest) => (p.many n rest).map fun as => a :: as

/-- Values up to the end of the text. -/
def toEnd (p : Reader τ α) (text : List τ) : Option (List α) := p.many text.length text

/-- The value of an upper-case hexadecimal digit. -/
def hexValue (c : Byte) : Option ℕ :=
  if 0x30 ≤ c ∧ c ≤ 0x39 then some (c.toNat - 0x30)
  else if 0x41 ≤ c ∧ c ≤ 0x46 then some (c.toNat - 0x37)
  else none

/-- One upper-case hexadecimal digit. -/
def hexDigit : Reader Byte ℕ
  | [] => none
  | c :: text => (hexValue c).map fun d => (d, text)

/-- A number of `n` hexadecimal digits, the highest first. -/
def hexNumber (n : ℕ) : Reader Byte ℕ := do
  let ds ← hexDigit.times n
  pure (ds.foldl (fun v d => 16 * v + d) 0)

end Reader

/-- The reader takes the text for the value, whatever comes behind it. -/
def Reads {τ α : Type} (p : Reader τ α) (text : List τ) (a : α) : Prop :=
  ∀ rest, p (text ++ rest) = some (a, rest)

namespace Reads

variable {τ α β ι : Type} {p : Reader τ α} {s t : List τ} {a : α}

theorem pure (a : α) : Reads (Pure.pure a : Reader τ α) [] a := fun _ => rfl

theorem bind {q : α → Reader τ β} {b : β} (hp : Reads p s a) (hq : Reads (q a) t b) :
    Reads (p >>= q) (s ++ t) b := by
  intro rest
  have hrun : (p >>= q) (s ++ t ++ rest) = (p (s ++ t ++ rest)).bind fun (a, rest) => q a rest := rfl
  rw [hrun, List.append_assoc, hp, Option.bind_some]
  exact hq rest

/-- A value that is made from the one read. -/
theorem map {f : α → β} (hp : Reads p s a) : Reads (p >>= fun a => Pure.pure (f a)) s (f a) := by
  have h : Reads (p >>= fun a => Pure.pure (f a)) (s ++ []) (f a) := bind hp (pure (f a))
  rwa [List.append_nil] at h

theorem literal [DecidableEq τ] (s : List τ) : Reads (Reader.literal s) s () := by
  intro rest
  unfold Reader.literal
  rw [if_pos (List.prefix_append s rest), List.drop_left]

/-- A value behind given characters. -/
theorem literal_bind [DecidableEq τ] {q : Reader τ α} (hq : Reads q t a) :
    Reads (Reader.literal s >>= fun _ => q) (s ++ t) a :=
  (literal s).bind hq

/-- A list of pieces, each read as its own value. -/
theorem times {text : ι → List τ} {value : ι → α} (is : List ι)
    (h : ∀ i ∈ is, Reads p (text i) (value i)) :
    Reads (p.times is.length) (is.flatMap text) (is.map value) := by
  induction is with
  | nil => exact pure []
  | cons i is ih =>
    rw [List.flatMap_cons, List.map_cons, List.length_cons]
    exact (h i List.mem_cons_self).bind (ih fun j hj => h j (List.mem_cons_of_mem _ hj)).map

theorem many {text : ι → List τ} {value : ι → α} (is : List ι)
    (h : ∀ i ∈ is, Reads p (text i) (value i)) (hne : ∀ i ∈ is, text i ≠ []) {n : ℕ}
    (hn : (is.flatMap text).length ≤ n) : p.many n (is.flatMap text) = some (is.map value) := by
  induction is generalizing n with
  | nil =>
    cases n with
    | zero => rfl
    | succ n => rfl
  | cons i is ih =>
    obtain ⟨c, cs, htext⟩ := List.exists_cons_of_ne_nil (hne i List.mem_cons_self)
    have hread := h i List.mem_cons_self (is.flatMap text)
    rw [List.flatMap_cons, htext, List.cons_append] at hn ⊢
    rw [htext, List.cons_append] at hread
    cases n with
    | zero => simp at hn
    | succ n =>
      have hlen : (is.flatMap text).length ≤ n := by
        simp only [List.length_cons, List.length_append] at hn
        omega
      have hrest := ih (fun j hj => h j (List.mem_cons_of_mem _ hj))
        (fun j hj => hne j (List.mem_cons_of_mem _ hj)) hlen
      rw [Reader.many, hread, Option.bind_some]
      dsimp only
      rw [hrest]
      rfl

/-- **A list of pieces up to the end**, none of them empty. -/
theorem toEnd {text : ι → List τ} {value : ι → α} (is : List ι)
    (h : ∀ i ∈ is, Reads p (text i) (value i)) (hne : ∀ i ∈ is, text i ≠ []) :
    p.toEnd (is.flatMap text) = some (is.map value) := many is h hne le_rfl

theorem hexDigit {c : Byte} {d : ℕ} (h : Reader.hexValue c = some d) : Reads Reader.hexDigit [c] d := by
  intro rest
  rw [List.singleton_append, Reader.hexDigit, h]
  rfl

/-- A number written in digits that have the given values. -/
theorem hexNumber {digit : ι → Byte} {value : ι → ℕ} (is : List ι)
    (h : ∀ i ∈ is, Reader.hexValue (digit i) = some (value i)) :
    Reads (Reader.hexNumber is.length) (is.map digit)
      ((is.map value).foldl (fun v d => 16 * v + d) 0) := by
  rw [List.map_eq_flatMap]
  exact (times is fun i hi => hexDigit (h i hi)).map

end Reads

end RedFox32.Machine
