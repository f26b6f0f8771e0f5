import RedFox32.Kernel.Keyboard.Pending

/-!
# `Keyboard_getch`

The loop of `Keyboard_getch` while every event arrives during its `hlt`.  The body clears `Ready` and the
condition asks for it right behind, so the loop goes on whatever event it has found.
-/

namespace RedFox32.Kernel.Keyboard

open RedFox32.Machine

/-- `Keyboard_getch` at the condition of its loop: `c` and the globals. -/
structure Getch where
  c : Byte
  driver : Driver

namespace Getch

/-- The condition of the loop. -/
def waits (g : Getch) : Bool :=
  g.c = 0 || g.driver.previousEvent.state ≠ keyStateDown || g.driver.previousEvent.ready = 0

/-- The character that is returned, once the loop is over. -/
def returned (g : Getch) : Option Byte := if g.waits then none else some g.c

/-- The body of the loop behind its `hlt`. -/
def take (k : Driver) : Getch :=
  ⟨k.previousEvent.character, { k with previousEvent := { k.previousEvent with ready := 0 } }⟩

end Getch

/-- The interrupts of the keyboard during one `hlt`, of which at least one posts an event. -/
def Halted (k k' : Driver) : Prop :=
  ∃ tr, Run HandlerStep k tr k' ∧ ∃ t ∈ tr, t.label.IsRegular

/-- A round of the loop, with the event that it finds after the `hlt`. -/
inductive GetchStep : Getch → KeyboardEvent → Getch → Prop
  | round {g : Getch} {k : Driver} (hwaits : g.waits = true) (hhalt : Halted g.driver k) :
      GetchStep g k.previousEvent (.take k)

/-- The event is a key that goes down and has a character. -/
def KeyboardEvent.isPress (e : KeyboardEvent) : Bool := e.state = keyStateDown && e.character ≠ 0

/-- The character of the first press among the events. -/
def firstPress (events : List KeyboardEvent) : Option Byte :=
  (events.find? KeyboardEvent.isPress).map KeyboardEvent.character

section Run

variable {k : Driver} {g : Getch} {tr : List (Transition Getch KeyboardEvent)}

/-- **A round** leaves `Ready` cleared, and so the loop waits again. -/
theorem waits_take (k : Driver) : (Getch.take k).waits = true := by
  simp [Getch.waits, Getch.take]

/-- No run of the loop gets out of it. -/
theorem run_waits (h : Run GetchStep ⟨0, k⟩ tr g) : g.waits = true := by
  cases h with
  | nil => rfl
  | snoc _ hstep =>
    cases hstep with
    | round => exact waits_take _

theorem firstPress_eq_none {events : List KeyboardEvent} :
    firstPress events = none ↔ ∀ e ∈ events, e.isPress = false := by
  simp [firstPress]

/-- **`Keyboard_getch`** does what it is for exactly until it finds a press: then it should return, and
waits. -/
theorem getch_returned_iff (h : Run GetchStep ⟨0, k⟩ tr g) :
    g.returned = firstPress (tr.map Transition.label) ↔ ∀ t ∈ tr, t.label.isPress = false := by
  unfold Getch.returned
  rw [if_pos (run_waits h), eq_comm, firstPress_eq_none, List.forall_mem_map]

end Run

/-! ### One letter -/

/-- A `hlt` with one interrupt, which posts an event. -/
theorem run_key {k k' : Driver} {sc : Scancode} (h : HandlerStep k sc k') (hsc : sc.IsRegular) :
    Run GetchStep ⟨0, k⟩ [⟨⟨0, k⟩, k'.previousEvent, .take k'⟩] (.take k') :=
  Run.nil.snoc (.round rfl ⟨_, Run.nil.snoc h, _, List.mem_singleton_self _, hsc⟩)

/-- The driver after the letter A has gone up. -/
def letterUpDriver : Driver :=
  { readyDriver [0x9E] with
    previousEvent := keyEvent .zero ⟨0x1E, 0, false⟩
    ports := { (readyDriver [0x9E]).ports with taken := 1 } }

/-- The loop waits on when the letter A goes up, as it should. -/
theorem getch_letter_up : ∃ tr g, Run GetchStep ⟨0, readyDriver [0x9E]⟩ tr g ∧
    tr.map Transition.label = [letterUpDriver.previousEvent] ∧
      g.returned = firstPress (tr.map Transition.label) := by
  have hstep : HandlerStep (readyDriver [0x9E]) ⟨0x1E, 0, false⟩ letterUpDriver := ⟨by decide, 1, rfl⟩
  have hrun := run_key hstep rfl
  refine ⟨_, _, hrun, rfl, (getch_returned_iff hrun).2 ?_⟩
  intro t ht
  obtain rfl := List.mem_singleton.1 ht
  decide

/-- **The letter A is not returned.** -/
theorem getch_misses_letter : ∃ tr g, Run GetchStep ⟨0, readyDriver [0x1E]⟩ tr g ∧
    firstPress (tr.map Transition.label) = some 0x61 ∧ g.returned = none := by
  have hstep : HandlerStep (readyDriver [0x1E]) ⟨0x1E, 1, false⟩ (letterDriver [0x1E]) :=
    ⟨by decide, 1, rfl⟩
  exact ⟨_, _, run_key hstep rfl, by decide, rfl⟩

end RedFox32.Kernel.Keyboard
