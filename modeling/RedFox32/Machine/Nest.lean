import Mathlib.Algebra.BigOperators.Group.List.Basic
import Mathlib.Algebra.GroupWithZero.Nat

/-!
Routines that interrupt one another.  A routine is a list of actions; the innermost runs, a new one may
be entered at any time, and some actions put something out.  Whatever the order, the output is accounted
for by what the routines have done so far.
-/

namespace RedFox32.Machine

universe u v w

/-- A routine that was entered: what it was entered for, what it did, and what is left to do. -/
structure Activation (ι : Type u) (α : Type v) where
  source : ι
  past : List α
  rest : List α

/-- The routines entered and not left, innermost first; those left; and the output, oldest first. -/
structure Nest (ι : Type u) (α : Type v) (β : Type w) where
  stack : List (Activation ι α)
  finished : List (Activation ι α)
  log : List β

/-- What can happen. -/
inductive Move (ι : Type u) (α : Type v) where
  | enter (i : ι) (body : List α)
  | act
  | leave

section Nest

variable {ι : Type u} {α : Type v} {β : Type w} (emit : α → Option β)

/-- What a routine has put out. -/
def Activation.sent (a : Activation ι α) : List β := a.past.filterMap emit

/-- Every routine, left or not. -/
def Nest.all (s : Nest ι α β) : List (Activation ι α) := s.finished ++ s.stack

inductive Nest.Step : Nest ι α β → Move ι α → Nest ι α β → Prop
  | enter (s : Nest ι α β) (i : ι) (body : List α) :
      Nest.Step s (.enter i body) { s with stack := ⟨i, [], body⟩ :: s.stack }
  | act {i : ι} {past rest : List α} {x : α} {stack finished : List (Activation ι α)}
      {log : List β} :
      Nest.Step ⟨⟨i, past, x :: rest⟩ :: stack, finished, log⟩ .act
        ⟨⟨i, past ++ [x], rest⟩ :: stack, finished, log ++ (emit x).toList⟩
  | leave {i : ι} {past : List α} {stack finished : List (Activation ι α)} {log : List β} :
      Nest.Step ⟨⟨i, past, []⟩ :: stack, finished, log⟩ .leave
        ⟨stack, finished ++ [⟨i, past, []⟩], log⟩

/-- Every routine follows a body that its source allows, those left have come to its end, and the output
is what all of them have put out. -/
structure Nest.Accounted [BEq β] (body : ι → List α → Prop) (s : Nest ι α β) : Prop where
  bodies : ∀ a ∈ s.all, body a.source (a.past ++ a.rest)
  done : ∀ a ∈ s.finished, a.rest = []
  counted : ∀ e, s.log.count e = (s.all.map fun a => (a.sent emit).count e).sum

variable {emit}

theorem Activation.sent_append (i : ι) (past rest : List α) (x : α) :
    (Activation.mk i (past ++ [x]) rest).sent emit =
      (Activation.mk i past (x :: rest)).sent emit ++ (emit x).toList := by
  unfold Activation.sent
  rw [List.filterMap_append]
  cases h : emit x with
  | none => simp [h]
  | some e => simp [h]

variable [BEq β] {body : ι → List α → Prop} {s s' : Nest ι α β} {m : Move ι α}

/-- **One move** keeps the account. -/
theorem Nest.Accounted.step (h : s.Accounted emit body) (hs : Nest.Step emit s m s')
    (hbody : ∀ i xs, m = .enter i xs → body i xs) : s'.Accounted emit body := by
  obtain ⟨hbodies, hdone, hcount⟩ := h
  cases hs with
  | enter _ i xs =>
    refine ⟨fun a ha => ?_, hdone, fun e => ?_⟩
    · simp only [Nest.all, List.mem_append, List.mem_cons] at ha
      rcases ha with ha | rfl | ha
      · exact hbodies a (List.mem_append_left _ ha)
      · exact hbody _ _ rfl
      · exact hbodies a (List.mem_append_right _ ha)
    · rw [hcount e]
      simp [Nest.all, Activation.sent]
  | @act i past rest x stack finished log =>
    refine ⟨fun a ha => ?_, hdone, fun e => ?_⟩
    · simp only [Nest.all, List.mem_append, List.mem_cons] at ha
      rcases ha with ha | rfl | ha
      · exact hbodies a (by simp [Nest.all, ha])
      · simpa using hbodies ⟨i, past, x :: rest⟩ (by simp [Nest.all])
      · exact hbodies a (by simp [Nest.all, ha])
    · have he := hcount e
      simp only [Nest.all, List.map_append, List.map_cons, List.sum_append, List.sum_cons] at he ⊢
      rw [Activation.sent_append, List.count_append, List.count_append, he]
      omega
  | @leave i past stack finished log =>
    refine ⟨fun a ha => ?_, fun a ha => ?_, fun e => ?_⟩
    · refine hbodies a ?_
      simpa [Nest.all] using ha
    · rcases List.mem_append.1 ha with ha | ha
      · exact hdone a ha
      · rw [List.mem_singleton] at ha
        rw [ha]
    · have he := hcount e
      simp only [Nest.all, List.map_append, List.map_cons, List.sum_append, List.sum_cons,
        List.map_nil, List.sum_nil] at he ⊢
      omega

theorem sum_map_le_countP (as : List α) (f : α → ℕ) (p : α → Bool)
    (h : ∀ a ∈ as, f a ≤ if p a then 1 else 0) : (as.map f).sum ≤ as.countP p := by
  induction as with
  | nil => simp
  | cons a as ih =>
    have ha := h a (by simp)
    have has := ih fun b hb => h b (List.mem_cons_of_mem _ hb)
    rw [List.map_cons, List.sum_cons, List.countP_cons]
    omega

/-- **Counting.**  If a routine puts out `e` at most once, and only when it meets `p`, then `e` was put
out at most as often as there are routines that meet `p`. -/
theorem Nest.Accounted.count_le (h : s.Accounted emit body) (e : β) (p : Activation ι α → Bool)
    (hp : ∀ a ∈ s.all, (a.sent emit).count e ≤ if p a then 1 else 0) :
    s.log.count e ≤ s.all.countP p := by
  rw [h.counted e]
  exact sum_map_le_countP _ _ _ hp

end Nest

end RedFox32.Machine
