import RedFox32.Kernel.Memory.Realloc

/-!
# Which pointers `free` takes

`free` and `realloc` know a block by the magic word 17 bytes below the pointer.  Placing a block writes
the word and freeing it spoils it, so the pointers that a run returned are told apart rightly: those in use
have the word, and the others have lost it for good.  About any other pointer the word says nothing, for
the bytes below it may be data of the program.
-/

namespace RedFox32.Kernel.Memory

open RedFox32.Machine RedFox32.Machine.Mem

/-! ### The magic word -/

section Magic

variable {h h' : Heap} {p size : Word} {a : Word} {n : ℕ}

theorem magicOf_eq (hch : ChangesOnly a n h.mem h'.mem) (hn : 0 < n)
    (hap : Apart a n (p - sizeofAllocation) 17) : h'.magicOf p = h.magicOf p := by
  have hword : Apart a n (p - sizeofAllocation + BitVec.ofNat 32 0) 4 :=
    (hap.symm.inner (by omega) (by omega) hn).symm
  rw [BitVec.add_zero] at hword
  exact hch.load32 hword

theorem magicOf_place : (h.place size).magicOf (dataAddr h.nextAllocationPosition) =
    allocationHeaderMagic := by
  have hflags : ∀ m : Mem, ((m.store8 (flagsAddr h.nextAllocationPosition) 1).store32
      (lengthAddr h.nextAllocationPosition) size).load32 h.nextAllocationPosition =
        m.load32 h.nextAllocationPosition := by
    intro m
    unfold store32 store8
    rw [load32_store_of_apart, load32_store_of_apart]
    · unfold Apart flagsAddr
      constructor <;> bv_omega
    · unfold Apart lengthAddr
      constructor <;> bv_omega
  unfold Heap.magicOf
  rw [dataAddr_sub]
  exact (hflags _).trans (load32_store32_self _)

theorem magicOf_resize : (h.resize p size).magicOf p = h.magicOf p := by
  refine load32_store_of_apart ?_
  unfold Apart lengthAddr
  constructor <;> bv_omega

/-- Freeing a block counts the magic word up by one. -/
theorem magicOf_free (hm : h.magicOf p = allocationHeaderMagic) :
    (h.free p).magicOf p = allocationHeaderMagic + 1 := by
  have hflags : (h.mem.store8 (flagsAddr (p - sizeofAllocation)) 0).load32 (p - sizeofAllocation) =
      allocationHeaderMagic := by
    refine Eq.trans (load32_store_of_apart ?_) hm
    unfold Apart flagsAddr
    constructor <;> bv_omega
  have hfree : (h.free p).mem = (h.mem.store8 (flagsAddr (p - sizeofAllocation)) 0).store32
      (p - sizeofAllocation) (allocationHeaderMagic + 1) := by
    unfold Heap.free
    dsimp only
    unfold Heap.magicOf at hm
    rw [if_pos hm, hflags]
  unfold Heap.magicOf
  rw [hfree]
  exact load32_store32_self _

theorem free_refused (hm : h.magicOf p ≠ allocationHeaderMagic) :
    h.free p = h.puts "[MEMORY] Invalid free!\n" := if_neg hm

/-- `free` takes effect: it changes RAM. -/
def TakesEffect (h : Heap) (p : Word) : Prop := (h.free p).mem ≠ h.mem

theorem takesEffect_iff : TakesEffect h p ↔ h.magicOf p = allocationHeaderMagic := by
  constructor
  · intro heff
    by_contra hm
    exact heff (by rw [free_refused hm]; rfl)
  · intro hm heq
    have hfree := magicOf_free hm
    unfold Heap.magicOf at hm hfree
    rw [heq, hm] at hfree
    exact absurd hfree (by decide)

/-- `realloc` returns null and changes nothing exactly where the magic word is missing. -/
theorem realloc_refused (hm : h.magicOf p ≠ allocationHeaderMagic) {q : Word} :
    (∃ fuel, realloc fuel h p size = some (.ret q h')) ↔ q = 0 ∧ h' = h := by
  have heq : ∀ fuel, realloc fuel h p size = some (.ret 0 h) := fun _ => if_pos hm
  constructor
  · rintro ⟨fuel, hret⟩
    rw [heq] at hret
    cases hret
    exact ⟨rfl, rfl⟩
  · rintro ⟨rfl, rfl⟩
    exact ⟨0, heq 0⟩

end Magic

/-! ### The pointers of a run -/

/-- The pointer that a request returns. -/
def Request.returned : Request → Option Word
  | .call (.malloc _ p) => if p = 0 then none else some p
  | .call _ => none
  | .realloc _ _ q => if q = 0 then none else some q

/-- The pointers that a run returned. -/
def returned (tr : List (Transition Session Request)) : List Word :=
  tr.filterMap fun t => t.label.returned

/-- What the magic words say about the pointers `ps` returned so far: those in use have it, and the others
have lost it in a header that no block in use can reach. -/
structure Marked (h : Heap) (live : Word → Option Word) (ps : List Word) : Prop where
  live_magic : ∀ p n, live p = some n → h.magicOf p = allocationHeaderMagic
  dead_magic : ∀ p ∈ ps, live p = none → h.magicOf p = allocationHeaderMagic + 1
  dead_inside : ∀ p ∈ ps, live p = none → memoryStart.toNat + 17 ≤ p.toNat ∧
    p.toNat ≤ h.nextAllocationPosition.toNat
  dead_apart : ∀ p ∈ ps, live p = none → ∀ q k, live q = some k →
    q.toNat + k.toNat + 17 ≤ p.toNat ∨ p.toNat + 17 ≤ q.toNat
  dead_last : ∀ p ∈ ps, live p = none → p = dataAddr h.memoryAllocationList.last ∨
    p.toNat ≤ h.memoryAllocationList.last.toNat

section Marked

variable {h : Heap} {live : Word → Option Word} {ps : List Word} {p q size n : Word}

theorem update_some_none (hq : Function.update live p (some size) q = none) : q ≠ p ∧ live q = none := by
  rw [Function.update_apply] at hq
  split_ifs at hq with heq
  exact ⟨heq, hq⟩

theorem update_none_none (hq : Function.update live p none q = none) : q = p ∨ live q = none := by
  rw [Function.update_apply] at hq
  split_ifs at hq with heq
  · exact .inl heq
  · exact .inr hq

/-- Bytes apart from every header, in use or not, can change. -/
theorem Marked.changes {h' : Heap} {a : Word} {n : ℕ} (hd : Marked h live ps) (hn : 0 < n)
    (hch : ChangesOnly a n h.mem h'.mem)
    (hap : ∀ p, (∃ k, live p = some k) ∨ (p ∈ ps ∧ live p = none) → Apart a n (p - sizeofAllocation) 17)
    (hnext : h'.nextAllocationPosition = h.nextAllocationPosition)
    (hlist : h'.memoryAllocationList.last = h.memoryAllocationList.last) : Marked h' live ps where
  live_magic p k hp := (magicOf_eq hch hn (hap p (.inl ⟨k, hp⟩))).trans (hd.live_magic p k hp)
  dead_magic p hmem hp := (magicOf_eq hch hn (hap p (.inr ⟨hmem, hp⟩))).trans (hd.dead_magic p hmem hp)
  dead_inside := by simpa only [hnext] using hd.dead_inside
  dead_apart := hd.dead_apart
  dead_last := by simpa only [hlist] using hd.dead_last

/-- The header of a block out of use is apart from the header of a block in use. -/
theorem Marked.dead_header_apart (hd : Marked h live ps) (hw : WellKept h live) (hmem : p ∈ ps)
    (hp : live p = none) (hq : live q = some n) :
    Apart (q - sizeofAllocation) 17 (p - sizeofAllocation) 17 := by
  have h1 := hd.dead_apart p hmem hp q n hq
  have h2 := hd.dead_inside p hmem hp
  have h3 := hw.inside q n hq
  unfold memoryStart at h2 h3
  unfold Apart sizeofAllocation
  constructor <;> bv_omega

/-- **A freed block** is out of use, and its magic word is spoilt. -/
theorem Marked.free (hd : Marked h live ps) (hw : WellKept h live) (hp : live p = some n) :
    Marked (h.free p) (Function.update live p none) ps := by
  have hin := hw.inside p n hp
  constructor
  · intro q k hq
    obtain ⟨hne, hq⟩ := update_none hq
    exact (magicOf_eq free_changes (by omega) (hw.header_apart hp hq (Ne.symm hne))).trans
      (hd.live_magic q k hq)
  · intro q hmem hq
    rcases update_none_none hq with rfl | hdead
    · exact magicOf_free (hd.live_magic q n hp)
    · exact (magicOf_eq free_changes (by omega) (hd.dead_header_apart hw hmem hdead hp)).trans
        (hd.dead_magic q hmem hdead)
  · intro q hmem hq
    rw [free_nextAllocationPosition]
    rcases update_none_none hq with rfl | hdead
    · exact ⟨hin.1, by omega⟩
    · exact hd.dead_inside q hmem hdead
  · intro q hmem hq r k hr
    obtain ⟨hne, hr'⟩ := update_none hr
    rcases update_none_none hq with rfl | hdead
    · have hap := hw.apart q n r k hp hr' (Ne.symm hne)
      omega
    · exact hd.dead_apart q hmem hdead r k hr'
  · intro q hmem hq
    rw [free_memoryAllocationList]
    rcases update_none_none hq with rfl | hdead
    · exact (hw.linked q n hp).imp id fun hl => by omega
    · exact hd.dead_last q hmem hdead

/-- **A byte stored into the data of a block.** -/
theorem Marked.write (hd : Marked h live ps) (hw : WellKept h live) {a : Word} (hp : live p = some n)
    (ha : p.toNat ≤ a.toNat ∧ a.toNat < p.toNat + n.toNat) (v : Byte) :
    Marked { h with mem := h.mem.store8 a v } live ps := by
  refine hd.changes (by omega) (changesOnly_store8 h.mem a v) (fun q hq => ?_) rfl rfl
  have h2 := hw.inside p n hp
  unfold memoryStart at h2
  rcases hq with ⟨k, hq⟩ | ⟨hmem, hq⟩
  · have h3 := (hw.inside q k hq).1
    unfold memoryStart at h3
    rcases eq_or_ne p q with rfl | hne
    · unfold Apart sizeofAllocation
      constructor <;> bv_omega
    · have h1 := hw.apart p n q k hp hq hne
      unfold Apart sizeofAllocation
      constructor <;> bv_omega
  · have h1 := hd.dead_apart q hmem hq p n hp
    have h3 := (hd.dead_inside q hmem hq).1
    unfold memoryStart at h3
    unfold Apart sizeofAllocation
    constructor <;> bv_omega

/-- A header below the position keeps its magic word when a block is placed. -/
theorem magicOf_place_below (ha : Admits h size)
    (hlast : h.memoryAllocationList.last.toNat + 17 ≤ h.nextAllocationPosition.toNat)
    (hin : memoryStart.toNat + 17 ≤ p.toNat ∧ p.toNat ≤ h.nextAllocationPosition.toNat)
    (hp : p = dataAddr h.memoryAllocationList.last ∨ p.toNat ≤ h.memoryAllocationList.last.toNat) :
    (h.place size).magicOf p = h.magicOf p := by
  have hpos := ha.position.2
  simp only [memoryStart, memoryEnd] at hpos hin
  simp only [dataAddr, sizeofAllocation] at hp
  refine place_load32 ?_ ?_
  · unfold Apart sizeofAllocation
    constructor <;> bv_omega
  · unfold Apart nextAddr sizeofAllocation
    constructor <;> bv_omega

/-- **A placed block** is in use, and has the magic word. -/
theorem Marked.place (hd : Marked h live ps) (hw : WellKept h live) (hs : size ≠ 0)
    (ha : Admits h size) (ho : ¬ Overshoots h.nextAllocationPosition size) :
    Marked (h.place size) (Function.update live (dataAddr h.nextAllocationPosition) (some size)) ps := by
  have hnext := ha.next_toNat hs ho
  have hdata := ha.dataAddr_toNat
  have hmagic : ∀ p, memoryStart.toNat + 17 ≤ p.toNat ∧ p.toNat ≤ h.nextAllocationPosition.toNat →
      (p = dataAddr h.memoryAllocationList.last ∨ p.toNat ≤ h.memoryAllocationList.last.toNat) →
      (h.place size).magicOf p = h.magicOf p := by
    intro p hin hp
    have hne : h.nextAllocationPosition ≠ memoryStart := by
      intro heq
      rw [heq] at hin
      omega
    exact magicOf_place_below ha (hw.last_le.resolve_left hne) hin hp
  constructor
  · intro p k hp
    rcases update_some hp with ⟨rfl, rfl⟩ | ⟨-, hp'⟩
    · exact magicOf_place
    · have hin := hw.inside p k hp'
      exact (hmagic p ⟨hin.1, by omega⟩ ((hw.linked p k hp').imp id fun hl => by omega)).trans
        (hd.live_magic p k hp')
  · intro p hmem hp
    obtain ⟨-, hdead⟩ := update_some_none hp
    exact (hmagic p (hd.dead_inside p hmem hdead) (hd.dead_last p hmem hdead)).trans
      (hd.dead_magic p hmem hdead)
  · intro p hmem hp
    obtain ⟨hlo, hhi⟩ := hd.dead_inside p hmem (update_some_none hp).2
    rw [hnext]
    exact ⟨hlo, by omega⟩
  · intro p hmem hp q k hq
    obtain ⟨-, hdead⟩ := update_some_none hp
    rcases update_some hq with ⟨rfl, rfl⟩ | ⟨-, hq'⟩
    · have hin := hd.dead_inside p hmem hdead
      omega
    · exact hd.dead_apart p hmem hdead q k hq'
  · intro p hmem hp
    exact .inr (hd.dead_inside p hmem (update_some_none hp).2).2

/-- **A block with a new length.** -/
theorem Marked.resize {old : Word} (hd : Marked h live ps) (hw : WellKept h live)
    (hp : live p = some old)
    (hfit : size ≤ old ∨
      (h.nextOf p = 0 ∧ p.toNat + size.toNat ≤ h.nextAllocationPosition.toNat)) :
    Marked (h.resize p size) (Function.update live p (some size)) ps := by
  constructor
  · intro q k hq
    rcases update_some hq with ⟨rfl, rfl⟩ | ⟨hne, hq'⟩
    · exact magicOf_resize.trans (hd.live_magic q old hp)
    · exact (magicOf_eq resize_changes (by omega) (hw.header_apart hp hq' (Ne.symm hne))).trans
        (hd.live_magic q k hq')
  · intro q hmem hq
    obtain ⟨-, hdead⟩ := update_some_none hq
    exact (magicOf_eq resize_changes (by omega) (hd.dead_header_apart hw hmem hdead hp)).trans
      (hd.dead_magic q hmem hdead)
  · exact fun q hmem hq => hd.dead_inside q hmem (update_some_none hq).2
  · intro q hmem hq r k hr
    obtain ⟨hqp, hdead⟩ := update_some_none hq
    rcases update_some hr with ⟨rfl, rfl⟩ | ⟨-, hr'⟩
    · have hap := hd.dead_apart q hmem hdead r old hp
      rcases hfit with hs | ⟨hnull, -⟩
      · have hs' := BitVec.le_def.1 hs
        omega
      · -- the block that grows is the last one, and everything else lies below it
        have hlast := (hw.linked r old hp).resolve_right fun hl => hl.2 hnull
        have hbelow := (hd.dead_last q hmem hdead).resolve_left (hlast ▸ hqp)
        have hin := (hw.inside r old hp).1
        simp only [memoryStart] at hin
        simp only [dataAddr, sizeofAllocation] at hlast
        right
        bv_omega
    · exact hd.dead_apart q hmem hdead r k hr'
  · exact fun q hmem hq => hd.dead_last q hmem (update_some_none hq).2

/-- A pointer in use that was returned once more. -/
theorem Marked.add (hd : Marked h live ps) (hp : live p = some n) : Marked h live (ps ++ [p]) := by
  have hmem : ∀ q ∈ ps ++ [p], live q = none → q ∈ ps := by
    intro q hq hdead
    rcases List.mem_append.1 hq with hq | hq
    · exact hq
    · rw [List.mem_singleton.1 hq, hp] at hdead
      cases hdead
  exact ⟨hd.live_magic, fun q hq h0 => hd.dead_magic q (hmem q hq h0) h0,
    fun q hq h0 => hd.dead_inside q (hmem q hq h0) h0, fun q hq h0 => hd.dead_apart q (hmem q hq h0) h0,
    fun q hq h0 => hd.dead_last q (hmem q hq h0) h0⟩

end Marked

/-! ### Runs -/

section Runs

variable {s s' : Session} {ps : List Word}

/-- **One proper request** keeps what the magic words say. -/
theorem Marked.step {e : Request} (hd : Marked s.heap s.live ps) (hw : WellKept s.heap s.live)
    (hstep : SessionStep s e s') (hok : s.Proper e) :
    Marked s'.heap s'.live (ps ++ e.returned.toList) := by
  cases e with
  | call c =>
    cases hstep with
    | @call h h' _ live hcall =>
    cases hcall with
    | malloc hret =>
      rcases malloc_returns_iff.1 hret with ⟨rfl, rfl, rfl⟩ | ⟨hs, ha, rfl, rfl⟩
      · simpa [Request.returned, HeapCall.live] using hd
      · simp only [HeapCall.live, Request.returned, if_neg ha.dataAddr_ne_zero, Option.toList_some]
        exact (hd.place hw hs ha hok).add (Function.update_self ..)
    | free p =>
      simp only [Request.returned, Option.toList_none, List.append_nil, HeapCall.live]
      by_cases hm : h.magicOf p = allocationHeaderMagic
      · obtain ⟨n, hp⟩ := Option.ne_none_iff_exists'.1 (hok hm)
        exact hd.free hw hp
      · have hp : live p = none := by
          by_contra hp
          obtain ⟨n, hp⟩ := Option.ne_none_iff_exists'.1 hp
          exact hm (hd.live_magic p n hp)
        rw [free_refused hm, Function.update_eq_self_iff.2 hp.symm]
        exact ⟨hd.live_magic, hd.dead_magic, hd.dead_inside, hd.dead_apart, hd.dead_last⟩
    | write a v =>
      obtain ⟨p, n, hp, ha⟩ := hok
      simp only [Request.returned, Option.toList_none, List.append_nil, HeapCall.live]
      exact hd.write hw hp ha v
  | realloc p size q =>
    rcases hw.realloc_cases hstep hok with ⟨rfl, rfl⟩ | ⟨old, hp, rfl, hfit, rfl⟩ |
      ⟨old, hp, hs, ha, ho, rfl, hne, rfl⟩
    · simpa [Request.returned] using hd
    · have hq : q ≠ 0 := by
        rintro rfl
        have hin := (hw.inside 0 old hp).1
        simp at hin
      simp only [Request.returned, if_neg hq, Option.toList_some]
      exact (hd.resize hw hp hfit).add (Function.update_self ..)
    · simp only [Request.returned, if_neg ha.dataAddr_ne_zero, Option.toList_some]
      have hold : Function.update s.live (dataAddr s.heap.nextAllocationPosition) (some size) p =
          some old := by
        rw [Function.update_of_ne (Ne.symm hne)]
        exact hp
      refine ((hd.place hw hs ha ho).free (hw.place hs ha ho) hold).add (n := size) ?_
      rw [Function.update_of_ne hne, Function.update_self]

theorem marked_of_proper {boot : Heap} {map : Word} {tr : List (Transition Session Request)}
    (hrun : Run SessionStep ⟨memoryManagementSetup boot map, fun _ => none⟩ tr s)
    (hok : ∀ t ∈ tr, t.pre.Proper t.label) :
    WellKept s.heap s.live ∧ Marked s.heap s.live (returned tr) := by
  induction hrun with
  | nil =>
    refine ⟨wellKept_setup boot map, ?_⟩
    constructor <;> simp [returned]
  | @snoc tr s s' e hrun hstep ih =>
    obtain ⟨hw, hd⟩ := ih fun t ht => hok t (List.mem_append_left _ ht)
    have hproper : s.Proper e := hok ⟨s, e, s'⟩ (by simp)
    have hlist : returned (tr ++ [⟨s, e, s'⟩]) = returned tr ++ e.returned.toList := by
      unfold returned
      rw [List.filterMap_append]
      cases he : e.returned <;> simp [he]
    rw [hlist]
    exact ⟨hw.step hstep hproper, hd.step hw hstep hproper⟩

/-- **Which pointers `free` takes** after a run of proper requests: those in use, and those that no
request returned but that have the magic word below them.  At any other pointer `free` and `realloc`
change nothing, and `free` says so. -/
theorem takesEffect_iff_of_proper {boot : Heap} {map : Word} {tr : List (Transition Session Request)}
    (hrun : Run SessionStep ⟨memoryManagementSetup boot map, fun _ => none⟩ tr s)
    (hok : ∀ t ∈ tr, t.pre.Proper t.label) (p : Word) :
    (TakesEffect s.heap p ↔ s.live p ≠ none ∨
      (p ∉ returned tr ∧ s.heap.magicOf p = allocationHeaderMagic)) ∧
    (¬ TakesEffect s.heap p → s.heap.free p = s.heap.puts "[MEMORY] Invalid free!\n" ∧
      ∀ size q h', (∃ fuel, realloc fuel s.heap p size = some (.ret q h')) ↔ q = 0 ∧ h' = s.heap) := by
  obtain ⟨-, hd⟩ := marked_of_proper hrun hok
  rw [takesEffect_iff]
  refine ⟨⟨fun hm => ?_, ?_⟩, fun hm => ⟨free_refused hm, fun _ _ _ => realloc_refused hm⟩⟩
  · by_cases hp : s.live p = none
    · refine .inr ⟨fun hmem => ?_, hm⟩
      rw [hd.dead_magic p hmem hp] at hm
      exact absurd hm (by decide)
    · exact .inl hp
  · rintro (hp | ⟨-, hm⟩)
    · obtain ⟨n, hp⟩ := Option.ne_none_iff_exists'.1 hp
      exact hd.live_magic p n hp
    · exact hm

end Runs

/-- The block of eight bytes, freed. -/
def freedSession : Session :=
  ⟨eightBytes.free 0x105011, (HeapCall.free 0x105011).live eightBytesSession.live⟩

/-- The pointer of a block that was freed. -/
theorem takesEffect_iff_of_proper_freed : ∃ tr s,
    Run SessionStep ⟨declaredHeap [], fun _ => none⟩ tr s ∧
      tr.map Transition.label = [.call (.malloc 8 0x105011), .call (.free 0x105011)] ∧
      (TakesEffect s.heap 0x105011 ↔ s.live 0x105011 ≠ none ∨
        (0x105011 ∉ returned tr ∧ s.heap.magicOf 0x105011 = allocationHeaderMagic)) := by
  have hfree : SessionStep eightBytesSession (.call (.free 0x105011)) freedSession :=
    .call (.free eightBytes 0x105011)
  have hrun := (Run.nil.snoc step_eightBytes).snoc hfree
  refine ⟨_, _, hrun, rfl, (takesEffect_iff_of_proper hrun (fun t ht => ?_) 0x105011).1⟩
  simp only [List.nil_append, List.cons_append, List.mem_cons, List.not_mem_nil, or_false] at ht
  rcases ht with rfl | rfl
  · show ¬ Overshoots _ 8
    decide
  · exact fun _ => by decide

/-- A session after a store of the program. -/
def Session.wrote (s : Session) (a : Word) (v : Byte) : Session :=
  ⟨{ s.heap with mem := s.heap.mem.store8 a v }, s.live⟩

theorem step_wrote (s : Session) (a : Word) (v : Byte) :
    SessionStep s (.call (.write a v)) (s.wrote a v) := .call (.write s.heap a v)

/-- The magic word, stored into the first four bytes of the block of eight. -/
def forgedSession : Session :=
  (((eightBytesSession.wrote 0x105011 0x00).wrote 0x105012 0xC0).wrote 0x105013 0x10).wrote 0x105014 0xA1

/-- **A magic word in the data of a block** makes `free` take a pointer that was never returned. -/
theorem free_takes_forged : ∃ tr s,
    Run SessionStep ⟨declaredHeap [], fun _ => none⟩ tr s ∧
      tr.map Transition.label = [.call (.malloc 8 0x105011), .call (.write 0x105011 0x00),
        .call (.write 0x105012 0xC0), .call (.write 0x105013 0x10), .call (.write 0x105014 0xA1)] ∧
      s.live 0x105011 = some 8 ∧ s.live 0x105022 = none ∧ 0x105022 ∉ returned tr ∧
      TakesEffect s.heap 0x105022 := by
  have hrun := ((((Run.nil.snoc step_eightBytes).snoc (step_wrote _ 0x105011 0x00)).snoc
    (step_wrote _ 0x105012 0xC0)).snoc (step_wrote _ 0x105013 0x10)).snoc (step_wrote _ 0x105014 0xA1)
  refine ⟨_, forgedSession, hrun, rfl, by decide, by decide, by decide, ?_⟩
  rw [takesEffect_iff]
  decide

end RedFox32.Kernel.Memory
