/-!
Walks along a pointer field.  A list of nodes is linked by `next` when following `next` from its first
node meets the nodes in order; a list that is linked both ways is walked backwards by the other field.
-/

namespace RedFox32.Machine

universe u

/-- Following `next` from `a` meets the nodes `bs` one after another and then stands at `z`. -/
def Walk {α : Type u} (next : α → α) : α → List α → α → Prop
  | a, [], z => a = z
  | a, b :: bs, z => a = b ∧ Walk next (next b) bs z

namespace Walk

variable {α : Type u} {next next' : α → α} {a b z : α} {bs cs : List α}

theorem append : Walk next a (bs ++ cs) z ↔ ∃ y, Walk next a bs y ∧ Walk next y cs z := by
  induction bs generalizing a with
  | nil => exact ⟨fun h => ⟨a, rfl, h⟩, fun ⟨_, rfl, h⟩ => h⟩
  | cons b bs ih =>
    constructor
    · rintro ⟨rfl, h⟩
      obtain ⟨y, h1, h2⟩ := ih.1 h
      exact ⟨y, ⟨rfl, h1⟩, h2⟩
    · rintro ⟨y, ⟨rfl, h1⟩, h2⟩
      exact ⟨rfl, ih.2 ⟨y, h1, h2⟩⟩

/-- A walk depends on the fields of its own nodes only. -/
theorem congr (h : Walk next a bs z) (heq : ∀ b ∈ bs, next' b = next b) : Walk next' a bs z := by
  induction bs generalizing a with
  | nil => exact h
  | cons b bs ih =>
    obtain ⟨rfl, h⟩ := h
    refine ⟨rfl, ?_⟩
    rw [heq a (List.mem_cons_self ..)]
    exact ih h fun c hc => heq c (List.mem_cons_of_mem _ hc)

/-- **A node behind the last one**: the last node is made to point at it, the others stay. -/
theorem snoc {l : α} (h : Walk next a (bs ++ [l]) z) (heq : ∀ b ∈ bs, next' b = next b)
    (hl : next' l = b) (hb : next' b = z) : Walk next' a (bs ++ [l] ++ [b]) z := by
  obtain ⟨y, hbs, rfl, -⟩ := append.1 h
  exact append.2 ⟨b, append.2 ⟨y, hbs.congr heq, rfl, hl⟩, rfl, hb⟩

end Walk

end RedFox32.Machine
