import RedFox32.Machine.Bytes
import RedFox32.Machine.Runs

/-!
# The interrupts of the floppy controller, `Floppy.c`

`IRQHandler` counts the interrupts in `IRQReceived`, a signed byte, and `WaitIRQ` takes one off when it is
positive.  `WaitIRQ` reads the counter and stores it again with the interrupts enabled: an interrupt between
the two is forgotten, and so are all interrupts when the counter wraps round.  Its test and its `hlt` are two
instructions as well: an interrupt between them is counted, and `WaitIRQ` sleeps all the same, until another
interrupt ends the `hlt`.
-/

namespace RedFox32.Kernel.Floppy

open RedFox32.Machine

/-- Where `WaitIRQ` is: not called, before its test, before the `hlt`, in the `hlt`, past the loop, and
between the load and the store of `IRQReceived--`. -/
inductive WaitPhase where
  | outside
  | testing
  | halting
  | halted
  | passed
  | loaded (v : Byte)
  deriving DecidableEq

/-- What happens: an interrupt of the floppy controller, one of another device, or the next step of
`WaitIRQ`. -/
inductive WaitAct where
  | irq
  | wake
  | call
  | test
  | hlt
  | load
  | store
  deriving DecidableEq

/-- `IRQReceived` and the place of `WaitIRQ`; and, to speak of them, the number of interrupts of the
controller and that of the completed waits. -/
structure Counter where
  irqReceived : Byte
  phase : WaitPhase
  irqs : ℕ
  waits : ℕ
  deriving DecidableEq

/-- `Floppy_Setup` -/
def floppySetup : Counter := ⟨0, .outside, 0, 0⟩

namespace Counter

/-- An interrupt of any device ends the `hlt`, and `WaitIRQ` is back at its test. -/
def awake (f : Counter) : Counter :=
  match f.phase with
  | .halted => { f with phase := .testing }
  | _ => f

/-- `IRQHandler` -/
def irqHandler (f : Counter) : Counter := { f with irqReceived := f.irqReceived + 1, irqs := f.irqs + 1 }

/-- An interrupt, or the next step of `WaitIRQ`. -/
def next (f : Counter) (a : WaitAct) : Option Counter :=
  match a, f.phase with
  | .irq, _ => some f.irqHandler.awake
  | .wake, _ => some f.awake
  | .call, .outside => some { f with phase := .testing }
  | .test, .testing =>
    some { f with phase := if f.irqReceived.toInt ≤ 0 then .halting else .passed }
  | .hlt, .halting => some { f with phase := .halted }
  | .load, .passed => some { f with phase := .loaded f.irqReceived }
  | .store, .loaded v =>
    some { f with irqReceived := v - 1, phase := .outside, waits := f.waits + 1 }
  | _, _ => none

/-- The interrupts that no wait has taken. -/
def pending (f : Counter) : ℤ := f.irqs - f.waits

end Counter

/-- The steps of the driver. -/
def FloppyStep (f : Counter) (a : WaitAct) (f' : Counter) : Prop := f.next a = some f'

/-- **The counter is exact** in a step: after it, it is the number of interrupts that no wait has taken; a
test lets `WaitIRQ` through exactly when there are such interrupts; and the processor is not halted while
there are. -/
def CountsAt (t : Transition Counter WaitAct) : Prop :=
  t.post.irqReceived.toInt = t.post.pending ∧
    (t.label = .test → (t.post.phase = .passed ↔ 0 < t.pre.pending)) ∧
    (t.post.phase = .halted → t.post.pending ≤ 0)

/-- **Undisturbed**: an interrupt finds room in the counter, a store finds the value that was loaded, and a
`hlt` finds the counter as the test found it, not positive. -/
def Undisturbed (t : Transition Counter WaitAct) : Prop :=
  (t.label = .irq → t.pre.irqReceived ≠ 127) ∧
    (t.label = .store → t.pre.phase = .loaded t.pre.irqReceived) ∧
    (t.label = .hlt → t.pre.irqReceived.toInt ≤ 0)

instance (t : Transition Counter WaitAct) : Decidable (Undisturbed t) := by
  unfold Undisturbed; infer_instance

/-- The counter is exact, and past the test it is positive, and so is the value that was loaded. -/
structure Exact (f : Counter) : Prop where
  counts : f.irqReceived.toInt = f.pending
  passed : f.phase = .passed → 0 < f.irqReceived.toInt
  loaded : ∀ v, f.phase = .loaded v → 0 < v.toInt

section Step

variable {f f' : Counter} {a : WaitAct}

theorem exact_setup : Exact floppySetup where
  counts := rfl
  passed h := by cases h
  loaded v h := by cases h

@[simp] theorem awake_irqReceived : f.awake.irqReceived = f.irqReceived := by
  unfold Counter.awake
  split <;> rfl

@[simp] theorem awake_pending : f.awake.pending = f.pending := by
  unfold Counter.awake
  split <;> rfl

@[simp] theorem awake_passed : f.awake.phase = .passed ↔ f.phase = .passed := by
  unfold Counter.awake
  cases hphase : f.phase <;> simp [hphase]

@[simp] theorem awake_loaded {v : Byte} : f.awake.phase = .loaded v ↔ f.phase = .loaded v := by
  unfold Counter.awake
  cases hphase : f.phase <;> simp [hphase]

/-- After an interrupt the processor is not halted. -/
theorem awake_ne_halted : f.awake.phase ≠ .halted := by
  unfold Counter.awake
  cases hphase : f.phase <;> simp [hphase]

/-- The counter goes up by one, unless it is full. -/
theorem toInt_add_one (v : Byte) : (v + 1).toInt = v.toInt + 1 ↔ v ≠ 127 := by
  revert v
  decide

/-- A positive counter goes down by one. -/
theorem toInt_sub_one {v : Byte} (h : 0 < v.toInt) : (v - 1).toInt = v.toInt - 1 := by
  have hall : ∀ v : Byte, 0 < v.toInt → (v - 1).toInt = v.toInt - 1 := by decide
  exact hall v h

/-- **An interrupt** of the controller keeps the counter exact unless it is full. -/
theorem counts_irq (h : Exact f) : (f.irqHandler.awake.irqReceived.toInt = f.irqHandler.awake.pending ↔
    f.irqReceived ≠ 127) := by
  rw [awake_irqReceived, awake_pending, ← toInt_add_one]
  have hcounts := h.counts
  unfold Counter.irqHandler Counter.pending at *
  dsimp only
  constructor
  · intro heq
    omega
  · intro heq
    omega

/-- **The store** of `IRQReceived--` keeps the counter exact when it finds what was loaded. -/
theorem counts_store {v : Byte} (h : Exact f) (hphase : f.phase = .loaded v) :
    ((v - 1).toInt = ((f.irqs : ℤ) - ((f.waits + 1 : ℕ) : ℤ)) ↔ v = f.irqReceived) := by
  have hcounts := h.counts
  unfold Counter.pending at hcounts
  rw [toInt_sub_one (h.loaded v hphase), ← BitVec.toInt_inj]
  constructor
  · intro heq
    omega
  · intro heq
    omega

/-- What a step of `WaitIRQ` does. -/
theorem floppyStep_cases (h : FloppyStep f a f') :
    (a = .irq ∧ f' = f.irqHandler.awake) ∨ (a = .wake ∧ f' = f.awake) ∨
    (a = .call ∧ f' = { f with phase := .testing }) ∨
    (a = .test ∧ f' = { f with phase := if f.irqReceived.toInt ≤ 0 then .halting else .passed }) ∨
    (a = .hlt ∧ f' = { f with phase := .halted }) ∨
    (a = .load ∧ f.phase = .passed ∧ f' = { f with phase := .loaded f.irqReceived }) ∨
    ∃ v, a = .store ∧ f.phase = .loaded v ∧
      f' = { f with irqReceived := v - 1, phase := .outside, waits := f.waits + 1 } := by
  unfold FloppyStep Counter.next at h
  split at h
  all_goals simp_all

/-- Under the invariant, a step keeps the counter exact exactly when it is undisturbed. -/
theorem countsAt_iff (h : Exact f) (hstep : FloppyStep f a f') :
    CountsAt ⟨f, a, f'⟩ ↔ Undisturbed ⟨f, a, f'⟩ := by
  have hcounts := h.counts
  unfold CountsAt Undisturbed
  dsimp only
  obtain ⟨rfl, rfl⟩ | ⟨rfl, rfl⟩ | ⟨rfl, rfl⟩ | ⟨rfl, rfl⟩ | ⟨rfl, rfl⟩ | ⟨rfl, -, rfl⟩ | ⟨v, rfl, hv, rfl⟩ :=
    floppyStep_cases hstep
  · constructor
    · rintro ⟨heq, -⟩
      exact ⟨fun _ => (counts_irq h).1 heq, nofun, nofun⟩
    · rintro ⟨hroom, -⟩
      exact ⟨(counts_irq h).2 (hroom rfl), nofun, fun hhalted => absurd hhalted awake_ne_halted⟩
  · refine iff_of_true ⟨by simpa using hcounts, nofun, fun hhalted => ?_⟩ ⟨nofun, nofun, nofun⟩
    exact absurd hhalted awake_ne_halted
  · exact iff_of_true ⟨hcounts, nofun, nofun⟩ ⟨nofun, nofun, nofun⟩
  · have htest : (if f.irqReceived.toInt ≤ 0 then WaitPhase.halting else .passed) = .passed ↔
        0 < f.pending := by
      rw [← hcounts]
      split_ifs with hle
      · simpa using hle
      · simpa using hle
    refine iff_of_true ⟨hcounts, fun _ => htest, fun hhalted => ?_⟩ ⟨nofun, nofun, nofun⟩
    split_ifs at hhalted
  · -- the processor halts: the counter is what the interrupts before the `hlt` have made of it
    constructor
    · rintro ⟨-, -, hasleep⟩
      exact ⟨nofun, nofun, fun _ => hcounts.trans_le (hasleep rfl)⟩
    · rintro ⟨-, -, hle⟩
      exact ⟨hcounts, nofun, fun _ => hcounts.symm.trans_le (hle rfl)⟩
  · exact iff_of_true ⟨hcounts, nofun, nofun⟩ ⟨nofun, nofun, nofun⟩
  · constructor
    · rintro ⟨heq, -⟩
      exact ⟨nofun, fun _ => by rw [hv, (counts_store h hv).1 heq], nofun⟩
    · rintro ⟨-, hfound, -⟩
      have hv' := hfound rfl
      rw [hv, WaitPhase.loaded.injEq] at hv'
      exact ⟨(counts_store h hv).2 hv', nofun, nofun⟩

/-- A step that keeps the counter exact keeps the invariant. -/
theorem Exact.step (h : Exact f) (hstep : FloppyStep f a f') (hok : CountsAt ⟨f, a, f'⟩) :
    Exact f' := by
  obtain ⟨hok, -⟩ := hok
  dsimp only at hok
  obtain ⟨rfl, rfl⟩ | ⟨rfl, rfl⟩ | ⟨rfl, rfl⟩ | ⟨rfl, rfl⟩ | ⟨rfl, rfl⟩ | ⟨rfl, hp, rfl⟩ | ⟨v, rfl, hv, rfl⟩ :=
    floppyStep_cases hstep
  · refine ⟨hok, fun hphase => ?_, fun v hphase => ?_⟩
    · have hsame : f.irqHandler.phase = .passed := awake_passed.1 hphase
      have hpos := h.passed hsame
      have hcounts := h.counts
      rw [hok, awake_pending]
      unfold Counter.irqHandler Counter.pending at *
      dsimp only
      omega
    · have hsame : f.irqHandler.phase = .loaded v := awake_loaded.1 hphase
      exact h.loaded v hsame
  · refine ⟨hok, fun hphase => ?_, fun v hphase => ?_⟩
    · rw [awake_irqReceived]
      exact h.passed (awake_passed.1 hphase)
    · exact h.loaded v (awake_loaded.1 hphase)
  · exact ⟨hok, nofun, nofun⟩
  · refine ⟨hok, fun hphase => ?_, fun v hphase => ?_⟩
    · by_contra hle
      rw [not_lt] at hle
      simp [hle] at hphase
    · dsimp only at hphase
      split_ifs at hphase
  · exact ⟨hok, nofun, nofun⟩
  · refine ⟨hok, nofun, fun v hphase => ?_⟩
    cases hphase
    exact h.passed hp
  · exact ⟨hok, nofun, nofun⟩

end Step

/-- **The counter is exact** throughout a run exactly when the run is undisturbed: no interrupt finds the
counter at 127, none falls between the load and the store of a wait, and none between its test and its
`hlt`. -/
theorem countsAt_iff_undisturbed {f : Counter} {tr : List (Transition Counter WaitAct)}
    (h : Run FloppyStep floppySetup tr f) : (∀ t ∈ tr, CountsAt t) ↔ ∀ t ∈ tr, Undisturbed t :=
  h.forall_iff exact_setup (fun _ hpre hstep => countsAt_iff hpre hstep)
    fun _ hpre hstep hok => hpre.step hstep hok

/-- Two waits, the first of which sleeps through a tick of the timer, and three interrupts. -/
theorem countsAt_iff_undisturbed_two :
    (∀ t ∈ trace (follow Counter.next) floppySetup [.call, .test, .hlt, .wake, .test, .hlt, .irq, .irq, .test,
      .load, .store, .call, .irq, .test, .load, .store], CountsAt t) ↔
    ∀ t ∈ trace (follow Counter.next) floppySetup [.call, .test, .hlt, .wake, .test, .hlt, .irq, .irq, .test,
      .load, .store, .call, .irq, .test, .load, .store], Undisturbed t :=
  countsAt_iff_undisturbed (run_follow (by decide))

/-- **An interrupt is lost** between the load and the store: there were two, one wait is complete, and the
counter is zero.  **And one is slept through** between the test and the `hlt`: it is counted, and the
processor is halted. -/
theorem interrupt_lost : (∃ tr f, Run FloppyStep floppySetup tr f ∧
    tr.map (fun t => t.label) = [.call, .irq, .test, .load, .irq, .store] ∧
    f = ⟨0, .outside, 2, 1⟩ ∧ ¬ ∀ t ∈ tr, CountsAt t) ∧
    ∃ tr f, Run FloppyStep floppySetup tr f ∧ tr.map (fun t => t.label) = [.call, .test, .irq, .hlt] ∧
      f = ⟨1, .halted, 1, 0⟩ ∧ ¬ ∀ t ∈ tr, CountsAt t := by
  refine ⟨⟨_, _, @run_follow _ _ Counter.next floppySetup [.call, .irq, .test, .load, .irq, .store]
    (by decide), by decide, by decide, fun h => ?_⟩, _, _, @run_follow _ _ Counter.next floppySetup
    [.call, .test, .irq, .hlt] (by decide), by decide, by decide, fun h => ?_⟩
  · have hlast := (h ⟨⟨2, .loaded 1, 2, 0⟩, .store, ⟨0, .outside, 2, 1⟩⟩ (by simp [trace]; decide)).1
    exact absurd hlast (by decide)
  · have hlast := (h ⟨⟨1, .halting, 1, 0⟩, .hlt, ⟨1, .halted, 1, 0⟩⟩ (by simp [trace]; decide)).2.2 rfl
    exact absurd hlast (by decide)

end RedFox32.Kernel.Floppy
