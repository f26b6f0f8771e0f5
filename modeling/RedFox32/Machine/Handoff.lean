import RedFox32.Machine.Mailbox

/-!
A mailbox whose producer waits for the consumer: the slot is only touched while it is empty and the
consumer is not taking a value.  Then no value is lost: what was posted is what was returned, in the same
order, and at most one value more that is still in transit.
-/

namespace RedFox32.Machine

universe u v

variable {σ : Type u} {β : Type v} {n : ℕ} (C : Cells σ β n) (flag : β)

/-- The slot is empty, and the consumer is not taking a value. -/
def Mailbox.Empty (b : Mailbox σ) : Prop :=
  (b.phase = .outside ∨ b.phase = .waiting) ∧ ¬ C.Ready b.slot

/-- The producer is in time in a transition. -/
def InTime (t : Transition (Mailbox σ) (MailLabel σ)) : Prop :=
  match t.label with
  | .post _ => t.pre.Empty C
  | .amend _ => t.pre.Empty C
  | _ => True

/-- The values posted in a run, oldest first. -/
def posted (tr : List (Transition (Mailbox σ) (MailLabel σ))) : List σ :=
  tr.filterMap fun t =>
    match t.label with
    | .post v => some v
    | _ => none

/-- The consumer holds the value `v`: it has copied the cells below `c` and cleared those below `d`. -/
structure Holding (c d : ℕ) (b : Mailbox σ) (v : σ) : Prop where
  ready : C.Ready v
  copied : ∀ j < c, C.get b.copy j = C.get v j
  kept : ∀ j, c ≤ j → C.get b.slot j = C.get v j
  cleared : ∀ j < d, C.get b.slot j = C.get C.zero j

/-- The values that are posted and not yet returned. -/
def Transit (b : Mailbox σ) (vs : List σ) : Prop :=
  match b.phase with
  | .copying i => ∃ v, vs = [v] ∧ Holding C i i b v
  | .clearing i => ∃ v, vs = [v] ∧ Holding C (i + 1) i b v
  | _ => (C.Ready b.slot ∧ vs = [b.slot]) ∨ (¬ C.Ready b.slot ∧ vs = [])

variable {C flag} {b b' : Mailbox σ} {vs : List σ} {l : MailLabel σ}

theorem Mailbox.Empty.transit (h : b.Empty C) (hv : Transit C b vs) : vs = [] := by
  obtain ⟨hphase, hslot⟩ := h
  unfold Transit at hv
  rcases hphase with hphase | hphase
  · simpa [hphase, hslot] using hv
  · simpa [hphase, hslot] using hv

theorem Transit.length_le (h : Transit C b vs) : vs.length ≤ 1 := by
  unfold Transit at h
  split at h
  · obtain ⟨v, rfl, -⟩ := h
    simp
  · obtain ⟨v, rfl, -⟩ := h
    simp
  · rcases h with ⟨-, rfl⟩ | ⟨-, rfl⟩
    · simp
    · simp

/-- A slot that is ready is in transit. -/
theorem transit_ready (hb : b.phase = .outside ∨ b.phase = .waiting) (hr : C.Ready b.slot) :
    Transit C b [b.slot] := by
  unfold Transit
  rcases hb with hb | hb
  · rw [hb]
    exact .inl ⟨hr, rfl⟩
  · rw [hb]
    exact .inl ⟨hr, rfl⟩

theorem transit_empty (hb : b.Empty C) : Transit C b [] := by
  obtain ⟨hphase, hslot⟩ := hb
  unfold Transit
  rcases hphase with hphase | hphase
  · rw [hphase]
    exact .inr ⟨hslot, rfl⟩
  · rw [hphase]
    exact .inr ⟨hslot, rfl⟩

/-- The copy of one cell. -/
theorem Holding.copy {i : ℕ} {v : σ} (h : Holding C i i b v) :
    Holding C (i + 1) i { b with copy := C.put b.copy i (C.get b.slot i), phase := .clearing i } v := by
  refine ⟨h.ready, fun j hj => ?_, fun j hj => h.kept j (by omega), h.cleared⟩
  rw [C.get_put]
  split_ifs with hji
  · exact hji ▸ h.kept i (Nat.le_refl i)
  · exact h.copied j (by omega)

/-- The clear of one cell. -/
theorem Holding.clear {i : ℕ} {v : σ} (h : Holding C (i + 1) i b v) :
    Holding C (i + 1) (i + 1)
      { b with slot := C.put b.slot i (C.get C.zero i), phase := .copying (i + 1) } v := by
  refine ⟨h.ready, h.copied, fun j hj => ?_, fun j hj => ?_⟩
  · rw [C.get_put, if_neg (by omega)]
    exact h.kept j hj
  · rw [C.get_put]
    split_ifs with hji
    · rw [hji]
    · exact h.cleared j (by omega)

/-- A value all of whose cells are taken is the copy, and the slot is empty. -/
theorem Holding.taken {i : ℕ} {v : σ} (h : Holding C i i b v) (hi : n ≤ i) (hn : 0 < n) :
    b.copy = v ∧ ¬ C.Ready b.slot :=
  ⟨C.ext _ _ fun j hj => h.copied j (by omega), fun hr => hr (h.cleared 0 (by omega))⟩

/-- **One step**: what was posted before and in it is what it returned and what is in transit after it. -/
theorem Transit.step (hn : 0 < n) (hflag : flag ≠ C.get C.zero 0) (h : Transit C b vs)
    (hstep : MailStep C flag b l b') (hin : InTime C ⟨b, l, b'⟩) :
    ∃ vs', Transit C b' vs' ∧ vs ++ posted [⟨b, l, b'⟩] = returned [⟨b, l, b'⟩] ++ vs' := by
  cases hstep with
  | post v hv =>
    have hempty : b.Empty C := hin
    have hr : C.Ready v := by
      unfold Cells.Ready
      rwa [hv]
    have hvs := hempty.transit h
    subst hvs
    exact ⟨[v], @transit_ready _ _ _ C { b with slot := v, posted := v, count := b.count + 1 } hempty.1 hr,
      rfl⟩
  | amend f hf =>
    have hempty : b.Empty C := hin
    have hvs := hempty.transit h
    subst hvs
    refine ⟨[], transit_empty ⟨hempty.1, ?_⟩, rfl⟩
    unfold Cells.Ready
    rw [hf]
    exact hempty.2
  | call hb =>
    refine ⟨vs, ?_, List.append_nil vs⟩
    unfold Transit at h ⊢
    simpa only [hb] using h
  | wait hb hr => exact ⟨vs, h, List.append_nil vs⟩
  | pass hb hr =>
    unfold Transit at h
    simp only [hb, hr, true_and, not_true_eq_false, false_and, or_false] at h
    exact ⟨vs, ⟨b.slot, h, hr, by simp, by simp, by simp⟩, List.append_nil vs⟩
  | copy i hb hi =>
    unfold Transit at h
    simp only [hb] at h
    obtain ⟨v, hvs, hold⟩ := h
    exact ⟨vs, ⟨v, hvs, hold.copy⟩, List.append_nil vs⟩
  | clear i hb =>
    unfold Transit at h
    simp only [hb] at h
    obtain ⟨v, hvs, hold⟩ := h
    exact ⟨vs, ⟨v, hvs, hold.clear⟩, List.append_nil vs⟩
  | ret i hb hi =>
    unfold Transit at h
    simp only [hb] at h
    obtain ⟨v, rfl, hold⟩ := h
    obtain ⟨rfl, hslot⟩ := hold.taken hi hn
    exact ⟨[], @transit_empty _ _ _ C { b with phase := .outside } ⟨.inl rfl, hslot⟩, rfl⟩

theorem posted_append (tr tr' : List (Transition (Mailbox σ) (MailLabel σ))) :
    posted (tr ++ tr') = posted tr ++ posted tr' := List.filterMap_append

theorem returned_append (tr tr' : List (Transition (Mailbox σ) (MailLabel σ))) :
    returned (tr ++ tr') = returned tr ++ returned tr' := List.filterMap_append

/-- **A run whose producer is in time** loses nothing: what was posted is what was returned and what is
still in transit. -/
theorem run_handsOff {init : Mailbox σ} {tr : List (Transition (Mailbox σ) (MailLabel σ))} (hn : 0 < n)
    (hflag : flag ≠ C.get C.zero 0) (hinit : init.Empty C) (h : Run (MailStep C flag) init tr b)
    (hin : ∀ t ∈ tr, InTime C t) :
    ∃ vs, Transit C b vs ∧ posted tr = returned tr ++ vs := by
  induction h with
  | nil => exact ⟨[], transit_empty hinit, rfl⟩
  | @snoc tr s s' l _ hstep ih =>
    obtain ⟨vs, hvs, heq⟩ := ih fun t ht => hin t (List.mem_append_left _ ht)
    obtain ⟨vs', hvs', heq'⟩ := hvs.step hn hflag hstep (hin _ (by simp))
    refine ⟨vs', hvs', ?_⟩
    rw [posted_append, returned_append, heq, List.append_assoc, heq', List.append_assoc]

/-! ### Values with numbers -/

section Numbered

variable {α β : Type*} {R : α → β → Prop}

/-- Values that have growing numbers in a list are those of a part of the list, in its order. -/
theorem exists_sublist_drop {ys : List β} {xs : List α} {owners : List ℕ} {b : ℕ}
    (h : List.Forall₂ (fun x m => ∃ y, ys[m]? = some y ∧ R x y) xs owners)
    (hsorted : owners.Pairwise (· < ·)) (hb : ∀ m ∈ owners, b ≤ m) :
    ∃ part, part.Sublist (ys.drop b) ∧ List.Forall₂ R xs part := by
  induction h generalizing b with
  | nil => exact ⟨[], List.nil_sublist _, .nil⟩
  | @cons x m xs owners hx _ ih =>
    obtain ⟨y, hy, hR⟩ := hx
    obtain ⟨hlt, hsorted⟩ := List.pairwise_cons.1 hsorted
    obtain ⟨part, hpart, hall⟩ := ih hsorted fun o ho => hlt o ho
    have hm : m < ys.length := (List.getElem?_eq_some_iff.1 hy).1
    have hcons : ys.drop m = y :: ys.drop (m + 1) := by
      rw [List.drop_eq_getElem_cons hm, (List.getElem?_eq_some_iff.1 hy).2]
    have hle : b ≤ m := hb m List.mem_cons_self
    have hdrop : (ys.drop m).Sublist (ys.drop b) := by
      rw [← Nat.sub_add_cancel hle, Nat.add_comm, ← List.drop_drop]
      exact List.drop_sublist _ _
    refine ⟨y :: part, List.Sublist.trans ?_ hdrop, .cons hR hall⟩
    rw [hcons]
    exact hpart.cons_cons y

end Numbered

end RedFox32.Machine
