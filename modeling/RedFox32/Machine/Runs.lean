import Mathlib.Data.List.Induction

/-!
Labelled runs of a transition system.  A run keeps every transition it took with the states before
and after it, so that a property of a run can speak of its calls, of their results and of the states
they met.
-/

namespace RedFox32.Machine

universe u v

/-- One transition of a run: the state before it, its label, and the state after it. -/
structure Transition (σ : Type u) (ε : Type v) where
  pre : σ
  label : ε
  post : σ

/-- The runs of `step` from `init`: the transitions taken, oldest first, and the state reached. -/
inductive Run {σ : Type u} {ε : Type v} (step : σ → ε → σ → Prop) (init : σ) :
    List (Transition σ ε) → σ → Prop
  | nil : Run step init [] init
  | snoc {tr : List (Transition σ ε)} {s s' : σ} {e : ε} :
      Run step init tr s → step s e s' → Run step init (tr ++ [⟨s, e, s'⟩]) s'

namespace Run

variable {σ : Type u} {ε : Type v} {step : σ → ε → σ → Prop} {init s : σ}
  {tr : List (Transition σ ε)}

theorem step_of_mem (h : Run step init tr s) {t : Transition σ ε} (ht : t ∈ tr) :
    step t.pre t.label t.post := by
  induction h with
  | nil => simp at ht
  | snoc _ hs ih =>
    rcases List.mem_append.1 ht with ht | ht
    · exact ih ht
    · rw [List.mem_singleton] at ht
      subst ht
      exact hs

/-- **Invariants.**  What holds initially and is kept by every transition that meets `C` holds in
every state of a run whose transitions all meet `C`. -/
theorem invariant (h : Run step init tr s) {I : σ → Prop} {C : Transition σ ε → Prop}
    (h0 : I init) (hs : ∀ t, I t.pre → step t.pre t.label t.post → C t → I t.post)
    (hC : ∀ t ∈ tr, C t) : I s ∧ ∀ t ∈ tr, I t.pre ∧ I t.post := by
  induction h with
  | nil => exact ⟨h0, by simp⟩
  | @snoc tr s s' e _ he ih =>
    obtain ⟨hI, hall⟩ := ih fun t ht => hC t (List.mem_append_left _ ht)
    have hI' : I s' := hs ⟨s, e, s'⟩ hI he (hC _ (by simp))
    refine ⟨hI', fun t ht => ?_⟩
    rcases List.mem_append.1 ht with ht | ht
    · exact hall t ht
    · rw [List.mem_singleton] at ht
      subst ht
      exact ⟨hI, hI'⟩

/-- **Exact conditions.**  If under the invariant a transition is good exactly when it meets `C`, and
a good transition keeps the invariant, then a run is good throughout exactly when all its transitions
meet `C`. -/
theorem forall_iff (h : Run step init tr s) {I : σ → Prop} {P C : Transition σ ε → Prop}
    (h0 : I init) (hPC : ∀ t, I t.pre → step t.pre t.label t.post → (P t ↔ C t))
    (hI : ∀ t, I t.pre → step t.pre t.label t.post → P t → I t.post) :
    (∀ t ∈ tr, P t) ↔ ∀ t ∈ tr, C t := by
  constructor
  · intro hP t ht
    obtain ⟨-, hall⟩ := h.invariant h0 hI hP
    exact (hPC t (hall t ht).1 (h.step_of_mem ht)).1 (hP t ht)
  · intro hC t ht
    obtain ⟨-, hall⟩ := h.invariant (C := C) h0
      (fun t hpre hst hc => hI t hpre hst ((hPC t hpre hst).2 hc)) hC
    exact (hPC t (hall t ht).1 (h.step_of_mem ht)).2 (hC t ht)

theorem imp {step' : σ → ε → σ → Prop} (h : Run step init tr s)
    (hs : ∀ t ∈ tr, step t.pre t.label t.post → step' t.pre t.label t.post) : Run step' init tr s := by
  induction h with
  | nil => exact .nil
  | snoc _ he ih =>
    exact (ih fun t ht => hs t (List.mem_append_left _ ht)).snoc (hs ⟨_, _, _⟩ (by simp) he)

/-- A run of one system is a run of another one that simulates its steps. -/
theorem map {σ' : Type u} {ε' : Type v} {step' : σ' → ε' → σ' → Prop} (h : Run step init tr s)
    (f : σ → σ') (g : Transition σ ε → ε')
    (hs : ∀ t, step t.pre t.label t.post → step' (f t.pre) (g t) (f t.post)) :
    Run step' (f init) (tr.map fun t => ⟨f t.pre, g t, f t.post⟩) (f s) := by
  induction h with
  | nil => exact .nil
  | snoc _ he ih =>
    rw [List.map_append]
    exact ih.snoc (hs ⟨_, _, _⟩ he)

end Run

/-! ### Deterministic systems -/

/-- The transitions of a deterministic system on a list of labels. -/
def trace {σ : Type u} {ε : Type v} (f : σ → ε → σ) : σ → List ε → List (Transition σ ε)
  | _, [] => []
  | s, e :: es => ⟨s, e, f s e⟩ :: trace f (f s e) es

theorem trace_append {σ : Type u} {ε : Type v} (f : σ → ε → σ) (s : σ) (es es' : List ε) :
    trace f s (es ++ es') = trace f s es ++ trace f (es.foldl f s) es' := by
  induction es generalizing s with
  | nil => rfl
  | cons e es ih => simp [trace, ih]

/-- The transitions of a deterministic system are a run. -/
theorem run_trace {σ : Type u} {ε : Type v} (f : σ → ε → σ) (s : σ) (es : List ε) :
    Run (fun s e s' => s' = f s e) s (trace f s es) (es.foldl f s) := by
  induction es using List.reverseRecOn with
  | nil => exact .nil
  | append_singleton es e ih =>
    rw [trace_append, List.foldl_append]
    exact ih.snoc rfl

/-- The state after a label of a system that cannot always move; where it cannot, it stays. -/
def follow {σ : Type u} {ε : Type v} (next : σ → ε → Option σ) (s : σ) (e : ε) : σ := (next s e).getD s

/-- Labels that are possible one after another are a run. -/
theorem run_follow {σ : Type u} {ε : Type v} {next : σ → ε → Option σ} {s : σ} {es : List ε}
    (h : ∀ t ∈ trace (follow next) s es, (next t.pre t.label).isSome) :
    Run (fun s e s' => next s e = some s') s (trace (follow next) s es) (es.foldl (follow next) s) := by
  refine (run_trace (follow next) s es).imp fun t ht hpost => ?_
  obtain ⟨s', hnext⟩ := Option.isSome_iff_exists.1 (h t ht)
  rw [hpost, follow, hnext]
  rfl

end RedFox32.Machine
