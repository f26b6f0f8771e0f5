import RedFox32.Machine.Runs
import Mathlib.Data.List.Forall2

/-!
A slot for one value, which a producer fills at any time.  A consumer waits until the first cell of the
slot says that there is a value, and then takes the value cell by cell, clearing each cell when it has
copied it.  What it returns is a value that was in the slot as long as nothing is put there while it takes
one, or what is put there changes no cell that it still needs and leaves no value that it still clears.
-/

namespace RedFox32.Machine

universe u v

/-- A type whose values are read and written cell by cell: `n` cells, of which `zero` has the cleared
ones.  A cell keeps what is put there if another value has it in the same cell. -/
structure Cells (σ : Type u) (β : Type v) (n : ℕ) where
  get : σ → ℕ → β
  put : σ → ℕ → β → σ
  zero : σ
  get_put : ∀ s t i j, get (put s i (get t i)) j = if j = i then get t i else get s j
  ext : ∀ s t, (∀ i < n, get s i = get t i) → s = t

/-- Where the consumer is. -/
inductive MailPhase where
  | outside
  | waiting
  | copying (i : ℕ)
  | clearing (i : ℕ)
  deriving DecidableEq

/-- The slot, the copy, and the place of the consumer; and, to speak of them, the value last posted with
all its amendments, and how many were posted. -/
structure Mailbox (σ : Type u) where
  slot : σ
  copy : σ
  phase : MailPhase
  posted : σ
  count : ℕ

/-- What producer and consumer do. -/
inductive MailLabel (σ : Type u) where
  | post (v : σ)
  | amend (f : σ → σ)
  | call
  | test
  | copy
  | clear
  | ret (v : σ)

variable {σ : Type u} {β : Type v} {n : ℕ} (C : Cells σ β n) (flag : β)

/-- The slot says that there is a value. -/
def Cells.Ready (s : σ) : Prop := C.get s 0 ≠ C.get C.zero 0

/-- One step of the mailbox.  Posted values have `flag` in their first cell, and amendments leave it. -/
inductive MailStep : Mailbox σ → MailLabel σ → Mailbox σ → Prop
  | post (b : Mailbox σ) (v : σ) (hv : C.get v 0 = flag) :
      MailStep b (.post v) { b with slot := v, posted := v, count := b.count + 1 }
  | amend (b : Mailbox σ) (f : σ → σ) (hf : ∀ v, C.get (f v) 0 = C.get v 0) :
      MailStep b (.amend f) { b with slot := f b.slot, posted := f b.posted }
  | call (b : Mailbox σ) (hb : b.phase = .outside) : MailStep b .call { b with phase := .waiting }
  | wait (b : Mailbox σ) (hb : b.phase = .waiting) (hs : ¬ C.Ready b.slot) : MailStep b .test b
  | pass (b : Mailbox σ) (hb : b.phase = .waiting) (hs : C.Ready b.slot) :
      MailStep b .test { b with phase := .copying 0 }
  | copy (b : Mailbox σ) (i : ℕ) (hb : b.phase = .copying i) (hi : i < n) :
      MailStep b .copy { b with copy := C.put b.copy i (C.get b.slot i), phase := .clearing i }
  | clear (b : Mailbox σ) (i : ℕ) (hb : b.phase = .clearing i) :
      MailStep b .clear { b with slot := C.put b.slot i (C.get C.zero i), phase := .copying (i + 1) }
  | ret (b : Mailbox σ) (i : ℕ) (hb : b.phase = .copying i) (hi : n ≤ i) :
      MailStep b (.ret b.copy) { b with phase := .outside }

/-- The cells from `c` on are still to be copied and those from `d` on still to be cleared: a new value
of the slot has the old one's in the former, and, if it is ready, nothing in the latter. -/
def Cells.Spares (c d : ℕ) (old new : σ) : Prop :=
  (∀ j, c ≤ j → C.get new j = C.get old j) ∧
    (C.Ready new → ∀ j, d ≤ j → C.get new j = C.get C.zero j)

/-- **A new value of the slot does no harm** where the consumer is. -/
def Mailbox.Harmless (b : Mailbox σ) (new : σ) : Prop :=
  match b.phase with
  | .copying (i + 1) => C.Spares (i + 1) (i + 1) b.slot new
  | .clearing (i + 1) => C.Spares (i + 2) (i + 1) b.slot new
  | _ => True

/-- The producer does no harm in a transition. -/
def HarmlessAt (t : Transition (Mailbox σ) (MailLabel σ)) : Prop :=
  match t.label with
  | .post v => t.pre.Harmless C v
  | .amend f => t.pre.Harmless C (f t.pre.slot)
  | _ => True

/-- The values returned in a run, oldest first. -/
def returned (tr : List (Transition (Mailbox σ) (MailLabel σ))) : List σ :=
  tr.filterMap fun t =>
    match t.label with
    | .ret v => some v
    | _ => none

/-- At some moment of the run the slot held the value `v`, whole, and it was the one with number `m`. -/
def Displayed (tr : List (Transition (Mailbox σ) (MailLabel σ))) (v : σ) (m : ℕ) : Prop :=
  ∃ t ∈ tr, t.pre.slot = v ∧ t.pre.posted = v ∧ t.pre.count = m ∧ C.get v 0 = flag

/-! ### The invariant -/

variable (seen : σ → ℕ → Prop) (last : ℕ)

/-- A value that is ready is the one last posted, whole, with a number above `m`. -/
def Fresh (m : ℕ) (b : Mailbox σ) : Prop :=
  C.Ready b.slot → b.slot = b.posted ∧ C.get b.posted 0 = flag ∧ m < b.count

/-- The consumer takes a value that was seen: it has copied the cells below `c` and cleared those below
`d`, and a value that was posted since then has no cell that it would still clear. -/
def Taking (c d : ℕ) (b : Mailbox σ) : Prop :=
  ∃ v m, seen v m ∧ last < m ∧ m ≤ b.count ∧ (∀ j < c, C.get b.copy j = C.get v j) ∧
    (∀ j, c ≤ j → C.get b.slot j = C.get v j) ∧ Fresh C flag m b ∧
    (C.Ready b.slot → ∀ j, d ≤ j → C.get b.posted j = C.get C.zero j)

/-- What holds where the consumer is. -/
def Sound (b : Mailbox σ) : Prop :=
  last ≤ b.count ∧
  match b.phase with
  | .outside => Fresh C flag last b
  | .waiting => Fresh C flag last b
  | .copying 0 => C.Ready b.slot ∧ Fresh C flag last b
  | .clearing 0 => C.Ready b.slot ∧ Fresh C flag last b ∧ C.get b.copy 0 = flag
  | .copying (i + 1) => Taking C flag seen last (i + 1) (i + 1) b
  | .clearing (i + 1) => Taking C flag seen last (i + 2) (i + 1) b

section Preservation

variable {C flag seen last} {b b' : Mailbox σ} {l : MailLabel σ} {c d i m : ℕ}

theorem Fresh.post {v : σ} (hv : C.get v 0 = flag) (hm : m ≤ b.count) :
    Fresh C flag m { b with slot := v, posted := v, count := b.count + 1 } :=
  fun _ => ⟨rfl, hv, Nat.lt_succ_of_le hm⟩

theorem Fresh.amend {f : σ → σ} (h : Fresh C flag m b) (hf : ∀ v, C.get (f v) 0 = C.get v 0) :
    Fresh C flag m { b with slot := f b.slot, posted := f b.posted } := by
  intro hr
  have hr' : C.Ready b.slot := by
    unfold Cells.Ready at hr ⊢
    rwa [hf] at hr
  obtain ⟨heq, hflag, hm⟩ := h hr'
  exact ⟨congrArg f heq, (hf _).trans hflag, hm⟩

/-- A value that spares what is still needed may be posted while the consumer takes another. -/
theorem Taking.post {v : σ} (h : Taking C flag seen last c d b) (hv : C.get v 0 = flag)
    (hsp : C.Spares c d b.slot v) :
    Taking C flag seen last c d { b with slot := v, posted := v, count := b.count + 1 } := by
  obtain ⟨w, m, hw, hlast, hm, hcopied, hrest, -, -⟩ := h
  refine ⟨w, m, hw, hlast, Nat.le_succ_of_le hm, hcopied, fun j hj => ?_, Fresh.post hv hm, hsp.2⟩
  exact (hsp.1 j hj).trans (hrest j hj)

theorem Taking.amend {f : σ → σ} (h : Taking C flag seen last c d b)
    (hf : ∀ v, C.get (f v) 0 = C.get v 0) (hsp : C.Spares c d b.slot (f b.slot)) :
    Taking C flag seen last c d { b with slot := f b.slot, posted := f b.posted } := by
  obtain ⟨w, m, hw, hlast, hm, hcopied, hrest, hfresh, -⟩ := h
  have hfresh' := hfresh.amend hf
  refine ⟨w, m, hw, hlast, hm, hcopied, fun j hj => ?_, hfresh', fun hr j hj => ?_⟩
  · exact (hsp.1 j hj).trans (hrest j hj)
  · have heq : f b.slot = f b.posted := (hfresh' hr).1
    exact heq ▸ hsp.2 hr j hj

/-- The next cell is copied. -/
theorem Taking.copy (h : Taking C flag seen last i d b) :
    Taking C flag seen last (i + 1) d
      { b with copy := C.put b.copy i (C.get b.slot i), phase := .clearing i } := by
  obtain ⟨w, m, hw, hlast, hm, hcopied, hrest, hfresh, hclear⟩ := h
  refine ⟨w, m, hw, hlast, hm, fun j hj => ?_, fun j hj => hrest j (by omega), hfresh, hclear⟩
  dsimp only
  rw [C.get_put]
  split_ifs with hji
  · exact hji ▸ hrest i (Nat.le_refl _)
  · exact hcopied j (by omega)

/-- A cell other than the first is cleared; a value that was posted meanwhile has nothing in it. -/
theorem Taking.clear (h : Taking C flag seen last (i + 2) (i + 1) b) :
    Taking C flag seen last (i + 2) (i + 2)
      { b with slot := C.put b.slot (i + 1) (C.get C.zero (i + 1)), phase := .copying (i + 2) } := by
  obtain ⟨w, m, hw, hlast, hm, hcopied, hrest, hfresh, hclear⟩ := h
  have hready : C.Ready (C.put b.slot (i + 1) (C.get C.zero (i + 1))) → C.Ready b.slot := by
    unfold Cells.Ready
    rw [C.get_put, if_neg (by omega)]
    exact id
  refine ⟨w, m, hw, hlast, hm, hcopied, fun j hj => ?_, fun hr => ?_, fun hr j hj => ?_⟩
  · dsimp only
    rw [C.get_put, if_neg (by omega)]
    exact hrest j hj
  · obtain ⟨heq, hflag, hlt⟩ := hfresh (hready hr)
    refine ⟨?_, hflag, hlt⟩
    rw [← heq]
    refine C.ext _ _ fun j _ => ?_
    rw [C.get_put]
    split_ifs with hji
    · rw [hji, heq, hclear (hready hr) (i + 1) (Nat.le_refl _)]
    · rfl
  · exact hclear (hready hr) j (by omega)

/-- The first cell is cleared: from here on the consumer takes the value that was in the slot. -/
theorem taking_of_clear (hr : C.Ready b.slot) (hfresh : Fresh C flag last b)
    (hcopy : C.get b.copy 0 = flag) (hseen : seen b.slot b.count) :
    Taking C flag seen last 1 1
      { b with slot := C.put b.slot 0 (C.get C.zero 0), phase := .copying 1 } := by
  obtain ⟨heq, hflag, hlt⟩ := hfresh hr
  have hnot : ¬ C.Ready (C.put b.slot 0 (C.get C.zero 0)) := by
    unfold Cells.Ready
    rw [C.get_put, if_pos rfl]
    exact not_not.2 rfl
  refine ⟨b.slot, b.count, hseen, hlt, (Nat.le_refl _), fun j hj => ?_, fun j hj => ?_,
    fun hr' => absurd hr' hnot, fun hr' => absurd hr' hnot⟩
  · obtain rfl : j = 0 := by omega
    rw [hcopy, heq, hflag]
  · dsimp only
    rw [C.get_put, if_neg (by omega)]

theorem Fresh.flag_ne (h : Fresh C flag m b) (hr : C.Ready b.slot) : flag ≠ C.get C.zero 0 := by
  obtain ⟨heq, hflag, -⟩ := h hr
  rw [← hflag, ← heq]
  exact hr

/-- **The slot is replaced**, the consumer staying where it is: what has to be kept in each phase. -/
theorem Sound.replace {s p : σ} {k : ℕ} (h : Sound C flag seen last b) (hharm : b.Harmless C s)
    (hk : b.count ≤ k)
    (hfresh : Fresh C flag last b → Fresh C flag last { b with slot := s, posted := p, count := k })
    (hready : Fresh C flag last b → C.Ready b.slot → C.Ready s)
    (htaking : ∀ c d, Taking C flag seen last c d b → C.Spares c d b.slot s →
      Taking C flag seen last c d { b with slot := s, posted := p, count := k }) :
    Sound C flag seen last { b with slot := s, posted := p, count := k } := by
  obtain ⟨hlast, h⟩ := h
  refine ⟨Nat.le_trans hlast hk, ?_⟩
  unfold Mailbox.Harmless at hharm
  dsimp only
  cases hphase : b.phase with
  | outside | waiting =>
    rw [hphase] at h
    exact hfresh h
  | copying i =>
    rw [hphase] at h hharm
    cases i with
    | zero => exact ⟨hready h.2 h.1, hfresh h.2⟩
    | succ i => exact htaking _ _ h hharm
  | clearing i =>
    rw [hphase] at h hharm
    cases i with
    | zero => exact ⟨hready h.2.1 h.1, hfresh h.2.1, h.2.2⟩
    | succ i => exact htaking _ _ h hharm

/-- **The producer** keeps the invariant when it does no harm. -/
theorem Sound.post {v : σ} (h : Sound C flag seen last b) (hv : C.get v 0 = flag)
    (hharm : b.Harmless C v) :
    Sound C flag seen last { b with slot := v, posted := v, count := b.count + 1 } := by
  have hready : Fresh C flag last b → C.Ready b.slot → C.Ready v := by
    intro hfresh hr
    unfold Cells.Ready
    rw [hv]
    exact hfresh.flag_ne hr
  exact h.replace hharm (Nat.le_succ _) (fun _ => Fresh.post hv h.1) hready
    fun _ _ ht hsp => ht.post hv hsp

theorem Sound.amend {f : σ → σ} (h : Sound C flag seen last b) (hf : ∀ v, C.get (f v) 0 = C.get v 0)
    (hharm : b.Harmless C (f b.slot)) :
    Sound C flag seen last { b with slot := f b.slot, posted := f b.posted } := by
  have hready : Fresh C flag last b → C.Ready b.slot → C.Ready (f b.slot) := by
    intro _ hr
    unfold Cells.Ready at hr ⊢
    rwa [hf]
  exact h.replace hharm (Nat.le_refl _) (fun hfresh => hfresh.amend hf) hready
    fun _ _ ht hsp => ht.amend hf hsp

/-- **The consumer** keeps the invariant, and what it returns was seen. -/
theorem Sound.call (h : Sound C flag seen last b) (hb : b.phase = .outside) :
    Sound C flag seen last { b with phase := .waiting } := by
  obtain ⟨hlast, h⟩ := h
  rw [hb] at h
  exact ⟨hlast, h⟩

theorem Sound.pass (h : Sound C flag seen last b) (hb : b.phase = .waiting) (hs : C.Ready b.slot) :
    Sound C flag seen last { b with phase := .copying 0 } := by
  obtain ⟨hlast, h⟩ := h
  rw [hb] at h
  exact ⟨hlast, hs, h⟩

theorem Sound.copy (h : Sound C flag seen last b) (hb : b.phase = .copying i) :
    Sound C flag seen last
      { b with copy := C.put b.copy i (C.get b.slot i), phase := .clearing i } := by
  obtain ⟨hlast, h⟩ := h
  rw [hb] at h
  refine ⟨hlast, ?_⟩
  cases i with
  | zero =>
    obtain ⟨heq, hflag, -⟩ := h.2 h.1
    refine ⟨h.1, h.2, ?_⟩
    dsimp only
    rw [C.get_put, if_pos rfl, heq, hflag]
  | succ i => exact h.copy

theorem Sound.clear (h : Sound C flag seen last b) (hb : b.phase = .clearing i)
    (hseen : b.slot = b.posted → C.get b.slot 0 = flag → seen b.slot b.count) :
    Sound C flag seen last
      { b with slot := C.put b.slot i (C.get C.zero i), phase := .copying (i + 1) } := by
  obtain ⟨hlast, h⟩ := h
  rw [hb] at h
  refine ⟨hlast, ?_⟩
  cases i with
  | zero =>
    obtain ⟨hr, hfresh, hcopy⟩ := h
    obtain ⟨heq, hflag, -⟩ := hfresh hr
    exact taking_of_clear hr hfresh hcopy (hseen heq (heq ▸ hflag))
  | succ i => exact h.clear

theorem Sound.ret (h : Sound C flag seen last b) (hb : b.phase = .copying i) (hi : n ≤ i) (hn : 0 < n) :
    ∃ m, seen b.copy m ∧ last < m ∧ Sound C flag seen m { b with phase := .outside } := by
  obtain ⟨hlast, h⟩ := h
  rw [hb] at h
  cases i with
  | zero => omega
  | succ i =>
    obtain ⟨w, m, hw, hlt, hm, hcopied, -, hfresh, -⟩ := h
    have heq : b.copy = w := C.ext _ _ fun j hj => hcopied j (by omega)
    exact ⟨m, heq ▸ hw, hlt, hm, hfresh⟩

theorem Taking.mono {seen' : σ → ℕ → Prop} (h : Taking C flag seen last c d b)
    (hseen : ∀ v m, seen v m → seen' v m) : Taking C flag seen' last c d b := by
  obtain ⟨w, m, hw, hrest⟩ := h
  exact ⟨w, m, hseen w m hw, hrest⟩

theorem Sound.mono {seen' : σ → ℕ → Prop} (h : Sound C flag seen last b)
    (hseen : ∀ v m, seen v m → seen' v m) : Sound C flag seen' last b := by
  obtain ⟨hlast, h⟩ := h
  refine ⟨hlast, ?_⟩
  cases hphase : b.phase with
  | outside | waiting =>
    rw [hphase] at h
    exact h
  | copying i | clearing i =>
    rw [hphase] at h
    cases i with
    | zero => exact h
    | succ i => exact h.mono hseen

end Preservation

/-! ### Runs -/

/-- What is returned up to now: values that were displayed, with numbers that grow up to `last`. -/
def Delivered (tr : List (Transition (Mailbox σ) (MailLabel σ))) : Prop :=
  ∃ owners : List ℕ, owners.Pairwise (· < ·) ∧ (∀ m ∈ owners, m ≤ last) ∧
    List.Forall₂ (Displayed C flag tr) (returned tr) owners

section Run

variable {C flag last} {init s : Mailbox σ} {tr : List (Transition (Mailbox σ) (MailLabel σ))}

theorem Displayed.append {v : σ} {m : ℕ} (h : Displayed C flag tr v m)
    (tr' : List (Transition (Mailbox σ) (MailLabel σ))) : Displayed C flag (tr ++ tr') v m := by
  obtain ⟨t, ht, hrest⟩ := h
  exact ⟨t, List.mem_append_left _ ht, hrest⟩

/-- A step that returns nothing. -/
theorem Delivered.quiet {t : Transition (Mailbox σ) (MailLabel σ)} (h : Delivered C flag last tr)
    (ht : returned [t] = []) : Delivered C flag last (tr ++ [t]) := by
  obtain ⟨owners, hsorted, hle, hall⟩ := h
  have hret : returned (tr ++ [t]) = returned tr := by
    unfold returned at ht ⊢
    rw [List.filterMap_append, ht, List.append_nil]
  rw [← hret] at hall
  exact ⟨owners, hsorted, hle, hall.imp fun _ _ hd => hd.append _⟩

/-- A step that returns a value with a new number. -/
theorem Delivered.ret {b b' : Mailbox σ} {v : σ} {m : ℕ} (h : Delivered C flag last tr)
    (hv : Displayed C flag tr v m) (hm : last < m) :
    Delivered C flag m (tr ++ [⟨b, .ret v, b'⟩]) := by
  obtain ⟨owners, hsorted, hle, hall⟩ := h
  have hret : returned (tr ++ [⟨b, .ret v, b'⟩]) = returned tr ++ [v] := by
    unfold returned
    rw [List.filterMap_append]
    rfl
  refine ⟨owners ++ [m], ?_, fun o ho => ?_, ?_⟩
  · rw [List.pairwise_append]
    refine ⟨hsorted, List.pairwise_singleton _ _, fun o ho o' ho' => ?_⟩
    rw [List.mem_singleton.1 ho']
    exact Nat.lt_of_le_of_lt (hle o ho) hm
  · rcases List.mem_append.1 ho with ho | ho
    · exact Nat.le_of_lt (Nat.lt_of_le_of_lt (hle o ho) hm)
    · exact Nat.le_of_eq (List.mem_singleton.1 ho)
  · rw [hret]
    exact List.rel_append (hall.imp fun _ _ hd => hd.append _) (.cons (hv.append _) .nil)

/-- **A run in which the producer does no harm** returns values that the slot displayed, each with its own
number. -/
theorem run_delivers (hn : 0 < n) (hphase : init.phase = .outside) (hslot : ¬ C.Ready init.slot)
    (h : Run (MailStep C flag) init tr s) (hC : ∀ t ∈ tr, HarmlessAt C t) :
    ∃ last, Delivered C flag last tr ∧ Sound C flag (Displayed C flag tr) last s := by
  induction h with
  | nil =>
    refine ⟨init.count, ⟨[], List.Pairwise.nil, by simp, .nil⟩, Nat.le_refl _, ?_⟩
    rw [hphase]
    exact fun hr => absurd hr hslot
  | @snoc tr s s' l _ hstep ih =>
    obtain ⟨last, hdel, hsound⟩ := ih fun t ht => hC t (List.mem_append_left _ ht)
    have hharm := hC ⟨s, l, s'⟩ (by simp)
    have hs : Sound C flag (Displayed C flag (tr ++ [⟨s, l, s'⟩])) last s :=
      hsound.mono fun _ _ hd => hd.append _
    cases hstep with
    | post v hv => exact ⟨last, hdel.quiet rfl, hs.post hv hharm⟩
    | amend f hf => exact ⟨last, hdel.quiet rfl, hs.amend hf hharm⟩
    | call hb => exact ⟨last, hdel.quiet rfl, hs.call hb⟩
    | wait hb hr => exact ⟨last, hdel.quiet rfl, hs⟩
    | pass hb hr => exact ⟨last, hdel.quiet rfl, hs.pass hb hr⟩
    | copy i hb hi => exact ⟨last, hdel.quiet rfl, hs.copy hb⟩
    | clear i hb =>
      refine ⟨last, hdel.quiet rfl, hs.clear hb fun heq hflag => ?_⟩
      exact ⟨_, List.mem_append_right _ (List.mem_singleton_self _), rfl, heq.symm, rfl, hflag⟩
    | ret i hb hi =>
      obtain ⟨m, hseen, hlt, hs'⟩ := hsound.ret hb hi hn
      exact ⟨m, hdel.ret hseen hlt, hs'.mono fun _ _ hd => hd.append _⟩

end Run

end RedFox32.Machine
