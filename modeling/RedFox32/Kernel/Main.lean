import RedFox32.Kernel.Keyboard.GetEvent
import RedFox32.Kernel.Keyboard.Held
import RedFox32.Kernel.Memory.Display
import RedFox32.Kernel.TextMode.Terminal
import RedFox32.Machine.Handoff

/-!
# The event loop of `KMain`

The loop takes an event with `Keyboard_GetEvent`, shows the character of a key that goes down, and leaves
for `Shutdown` or `Reboot` when that key is Escape.  The interrupts of the keyboard come at any of its
steps; `putch` shares nothing with them, so the body of the loop is one step.
-/

namespace RedFox32.Kernel.Main

open RedFox32.Machine
open RedFox32.Kernel.Keyboard
open RedFox32.Kernel.TextMode
open RedFox32.Kernel.Memory (textBytes)

/-! ### The loop -/

/-- Where `KMain` is: in `Keyboard_GetEvent` or just before it, in the body of the loop with the event, or
in one of the two functions that do not return. -/
inductive Place where
  | getEvent
  | body (event : KeyboardEvent)
  | shutdown
  | reboot

/-- The keyboard and `Keyboard_GetEvent`, the screen, the place, and what was written to the ports of the
power management, as port and value. -/
structure EventLoop where
  reader : Reader
  screen : Screen
  place : Place
  power : List (BitVec 16 × BitVec 16)

/-- What `Shutdown` shows when the board goes on. -/
def shutdownText : List Byte := textBytes "[SHUTDOWN] Didn't shutdown the system!"

/-- What `Reboot` shows when the board goes on. -/
def rebootText : List Byte := textBytes "[REBOOT] Reboot failed!"

namespace EventLoop

/-- The loop is entered. -/
def start (k : Driver) (s : Screen) : EventLoop := ⟨.start k, s, .getEvent, []⟩

variable (l : EventLoop)

/-- `Shutdown`, for a board that goes on. -/
def shutdown : EventLoop :=
  { l with
    power := l.power ++ [(0x0604, 0x2000)]
    screen := puts shutdownText 0x0C l.screen
    place := .shutdown }

/-- The loop of `Reboot`: it polls until the input buffer of the controller is empty. -/
def waitInput : ℕ → Ports → Option Ports
  | 0, _ => none
  | fuel + 1, p =>
    let (c, p) := p.inbControl
    if c &&& 0x02 ≠ 0 then waitInput fuel p else some p

/-- `Reboot`, for a board that goes on. -/
def reboot (fuel : ℕ) : Option EventLoop :=
  (waitInput fuel l.reader.driver.ports).map fun p =>
    { l with
      reader := { l.reader with driver := { l.reader.driver with ports := p } }
      power := l.power ++ [(0x0064, 0x00FE)]
      screen := puts rebootText 0x0C l.screen
      place := .reboot }

/-- The body of the loop. -/
def body (fuel : ℕ) (event : KeyboardEvent) : Option EventLoop :=
  if event.state = keyStateDown then
    let l := { l with screen := putch event.character 0x0B l.screen }
    if event.keycode = 1 then
      if event.modifiers.leftShift then some l.shutdown else l.reboot fuel
    else some { l with place := .getEvent }
  else some { l with place := .getEvent }

end EventLoop

/-- A step of `Keyboard_GetEvent` or an interrupt, or the body of the loop. -/
inductive LoopAct where
  | read (a : ReadAct)
  | body
  deriving DecidableEq

/-- The next step; `Reboot` has disabled the interrupts. -/
def EventLoop.next (fuel : ℕ) (l : EventLoop) (a : LoopAct) : Option EventLoop :=
  match a, l.place with
  | .read .interrupt, .reboot => none
  | .read .interrupt, _ => (l.reader.next fuel .interrupt).map fun r => { l with reader := r }
  | .read a, .getEvent =>
    (l.reader.next fuel a).map fun r =>
      { l with reader := r, place := if a = .ret then .body l.reader.event else .getEvent }
  | .body, .body event => l.body fuel event
  | _, _ => none

/-- The steps of the loop. -/
def LoopStep (l : EventLoop) (a : LoopAct) (l' : EventLoop) : Prop := ∃ fuel, l.next fuel a = some l'

/-- The steps of the keyboard and of `Keyboard_GetEvent`. -/
def readTrace (tr : List (Transition EventLoop LoopAct)) : List (Transition Reader ReadAct) :=
  tr.filterMap fun t =>
    match t.label with
    | .read a => some ⟨t.pre.reader, a, t.post.reader⟩
    | .body => none

/-- The events that the body of the loop handled, oldest first. -/
def handled (tr : List (Transition EventLoop LoopAct)) : List KeyboardEvent :=
  tr.filterMap fun t =>
    match t.label, t.pre.place with
    | .body, .body event => some event
    | _, _ => none

/-- The event that the loop has and did not handle yet. -/
def EventLoop.inHand (l : EventLoop) : List KeyboardEvent :=
  match l.place with
  | .body event => [event]
  | _ => []

/-! ### What an event does -/

/-- The Escape key goes down. -/
def Escapes (e : KeyboardEvent) : Prop := e.state = keyStateDown ∧ e.keycode = 1

instance (e : KeyboardEvent) : Decidable (Escapes e) := by unfold Escapes; infer_instance

/-- The characters that an event shows, with their colours. -/
def echo (e : KeyboardEvent) : List (Byte × Byte) :=
  if e.state = keyStateDown then
    (e.character, 0x0B) ::
      if Escapes e then
        (if e.modifiers.leftShift then shutdownText else rebootText).map fun ch => (ch, 0x0C)
      else []
  else []

/-- What an event writes to the ports of the power management. -/
def powerOf (e : KeyboardEvent) : List (BitVec 16 × BitVec 16) :=
  if Escapes e then
    if e.modifiers.leftShift then [(0x0604, 0x2000)] else [(0x0064, 0x00FE)]
  else []

/-- Where the loop is after an event. -/
def placeAfter (e : KeyboardEvent) : Place :=
  if Escapes e then if e.modifiers.leftShift then .shutdown else .reboot else .getEvent

/-- The document after some characters. -/
def typeAll (chars : List (Byte × Byte)) (d : Document Cell) : Document Cell :=
  chars.foldl (fun d c => documentPutch c.1 c.2 d) d

@[simp] theorem typeAll_nil (d : Document Cell) : typeAll [] d = d := rfl

@[simp] theorem typeAll_cons (c : Byte × Byte) (cs : List (Byte × Byte)) (d : Document Cell) :
    typeAll (c :: cs) d = typeAll cs (documentPutch c.1 c.2 d) := rfl

theorem typeAll_append (cs cs' : List (Byte × Byte)) (d : Document Cell) :
    typeAll (cs ++ cs') d = typeAll cs' (typeAll cs d) := List.foldl_append

section Body

variable {l l' : EventLoop} {e : KeyboardEvent} {d : Document Cell} {fuel : ℕ}

/-- A text without backspaces. -/
theorem puts_shows {str : List Byte} {s : Screen} {colour : Byte} (h : Shows s d)
    (hstr : ∀ ch ∈ str, ch ≠ 0 ∧ ch ≠ backspace) :
    Shows (puts str colour s) (typeAll (str.map fun ch => (ch, colour)) d) := by
  induction str generalizing s d with
  | nil => exact h
  | cons ch str ih =>
    obtain ⟨hzero, hback⟩ := hstr ch List.mem_cons_self
    rw [puts, if_neg hzero]
    exact ih (putch_shows ch colour h fun hb => absurd hb hback) fun c hc =>
      hstr c (List.mem_cons_of_mem _ hc)

theorem shutdownText_plain : ∀ ch ∈ shutdownText, ch ≠ 0 ∧ ch ≠ backspace := by
  decide

theorem rebootText_plain : ∀ ch ∈ rebootText, ch ≠ 0 ∧ ch ≠ backspace := by
  decide

/-- **The body of the loop** writes what its event writes to the power management, and goes where it goes. -/
theorem body_spec (h : l.body fuel e = some l') : l'.power = l.power ++ powerOf e ∧ l'.place = placeAfter e ∧
    (l'.place ≠ .reboot → l'.reader = l.reader) := by
  unfold EventLoop.body at h
  unfold powerOf placeAfter
  by_cases hdown : e.state = keyStateDown
  · rw [if_pos hdown] at h
    dsimp only at h
    by_cases hesc : e.keycode = 1
    · have hescapes : Escapes e := ⟨hdown, hesc⟩
      simp only [if_pos hescapes]
      rw [if_pos hesc] at h
      by_cases hshift : e.modifiers.leftShift
      · rw [if_pos hshift] at h
        obtain rfl := Option.some.inj h
        simp only [if_pos hshift]
        exact ⟨rfl, rfl, fun _ => rfl⟩
      · rw [if_neg hshift] at h
        unfold EventLoop.reboot at h
        obtain ⟨p, -, rfl⟩ := Option.map_eq_some_iff.1 h
        simp only [if_neg hshift]
        exact ⟨trivial, trivial, fun hne => absurd rfl hne⟩
    · have hescapes : ¬ Escapes e := fun hx => hesc hx.2
      rw [if_neg hesc] at h
      obtain rfl := Option.some.inj h
      simp only [if_neg hescapes]
      exact ⟨(List.append_nil _).symm, trivial, fun _ => trivial⟩
  · have hescapes : ¬ Escapes e := fun hx => hdown hx.1
    rw [if_neg hdown] at h
    obtain rfl := Option.some.inj h
    simp only [if_neg hescapes]
    exact ⟨(List.append_nil _).symm, trivial, fun _ => trivial⟩

/-- **The body of the loop** shows the characters of its event, but for a backspace at the top left. -/
theorem body_shows (h : l.body fuel e = some l') (hd : Shows l.screen d)
    (hb : e.state = keyStateDown → e.character = backspace → l.screen.screenPos ≠ 0) :
    Shows l'.screen (typeAll (echo e) d) := by
  unfold EventLoop.body at h
  unfold echo
  by_cases hdown : e.state = keyStateDown
  · have hput := putch_shows e.character 0x0B hd (hb hdown)
    rw [if_pos hdown] at h ⊢
    dsimp only at h
    by_cases hesc : e.keycode = 1
    · have hescapes : Escapes e := ⟨hdown, hesc⟩
      rw [if_pos hescapes, typeAll_cons]
      rw [if_pos hesc] at h
      by_cases hshift : e.modifiers.leftShift
      · rw [if_pos hshift] at h ⊢
        obtain rfl := Option.some.inj h
        exact puts_shows hput shutdownText_plain
      · rw [if_neg hshift] at h ⊢
        unfold EventLoop.reboot at h
        obtain ⟨p, -, rfl⟩ := Option.map_eq_some_iff.1 h
        exact puts_shows hput rebootText_plain
    · have hescapes : ¬ Escapes e := fun hx => hesc hx.2
      rw [if_neg hescapes, typeAll_cons, typeAll_nil]
      rw [if_neg hesc] at h
      obtain rfl := Option.some.inj h
      exact hput
  · rw [if_neg hdown] at h ⊢
    obtain rfl := Option.some.inj h
    exact hd

end Body

/-! ### Steps and runs -/

section Step

variable {l l' : EventLoop} {a : LoopAct}

/-- **What a step can do**: an interrupt, a step of `Keyboard_GetEvent`, or the body of the loop. -/
theorem loopStep_cases (h : LoopStep l a l') :
    (∃ r, a = .read .interrupt ∧ l.place ≠ .reboot ∧ ReadStep l.reader .interrupt r ∧
      l' = { l with reader := r }) ∨
    (∃ act r, act ≠ .interrupt ∧ a = .read act ∧ l.place = .getEvent ∧ ReadStep l.reader act r ∧
      l' = { l with reader := r, place := if act = .ret then .body l.reader.event else .getEvent }) ∨
    ∃ e fuel, a = .body ∧ l.place = .body e ∧ l.body fuel e = some l' := by
  obtain ⟨fuel, h⟩ := h
  unfold EventLoop.next at h
  split at h
  next => cases h
  next hplace =>
    obtain ⟨r, hr, rfl⟩ := Option.map_eq_some_iff.1 h
    exact .inl ⟨r, rfl, hplace, ⟨fuel, hr⟩, rfl⟩
  next act hne hplace =>
    obtain ⟨r, hr, rfl⟩ := Option.map_eq_some_iff.1 h
    exact .inr (.inl ⟨act, r, fun hact => hne hact, rfl, hplace, ⟨fuel, hr⟩, rfl⟩)
  next e hplace => exact .inr (.inr ⟨e, fuel, rfl, hplace, h⟩)
  next => cases h

end Step

/-- No backspace is shown with the cursor at the top left. -/
def NoBackspaceHome (tr : List (Transition EventLoop LoopAct)) : Prop :=
  ∀ t ∈ tr, ∀ e, t.label = .body → t.pre.place = .body e → e.state = keyStateDown →
    e.character = backspace → t.pre.screen.screenPos ≠ 0

/-- **What the loop did**: it read events, handled them in the order in which it got them, none after an
Escape, and all that it wrote is what these events write; and what it showed is what they show, if no backspace
came at the top left. -/
structure Did (k : Driver) (d : Document Cell) (tr : List (Transition EventLoop LoopAct))
    (l : EventLoop) : Prop where
  reads : ∃ r, Run ReadStep (.start k) (readTrace tr) r ∧ (l.place ≠ .reboot → r = l.reader)
  returned : returnedEvents (readTrace tr) = handled tr ++ l.inHand
  screen : NoBackspaceHome tr → Shows l.screen (typeAll ((handled tr).flatMap echo) d)
  power : l.power = (handled tr).flatMap powerOf
  place : (∃ e, l.place = .body e) ∨ l.place = ((handled tr).getLast?.map placeAfter).getD .getEvent
  running : l.place = .getEvent ∨ (∃ e, l.place = .body e) → ∀ e ∈ handled tr, ¬ Escapes e
  before : ∀ e ∈ (handled tr).dropLast, ¬ Escapes e

section Run

variable {k : Driver} {d : Document Cell} {tr : List (Transition EventLoop LoopAct)} {l l' : EventLoop}
  {a : LoopAct}

theorem readTrace_append (tr tr' : List (Transition EventLoop LoopAct)) :
    readTrace (tr ++ tr') = readTrace tr ++ readTrace tr' := List.filterMap_append

theorem handled_append (tr tr' : List (Transition EventLoop LoopAct)) :
    handled (tr ++ tr') = handled tr ++ handled tr' := List.filterMap_append

theorem returnedEvents_append (tr tr' : List (Transition Reader ReadAct)) :
    returnedEvents (tr ++ tr') = returnedEvents tr ++ returnedEvents tr' := List.filterMap_append

theorem NoBackspaceHome.left {tr' : List (Transition EventLoop LoopAct)} (h : NoBackspaceHome (tr ++ tr')) :
    NoBackspaceHome tr := fun t ht => h t (List.mem_append_left _ ht)

theorem Did.interrupt {r : Reader} (h : Did k d tr l) (hplace : l.place ≠ .reboot)
    (hr : ReadStep l.reader .interrupt r) :
    Did k d (tr ++ [⟨l, .read .interrupt, { l with reader := r }⟩]) { l with reader := r } := by
  obtain ⟨⟨r₀, hrun, heq⟩, hreturned, hscreen, hpower, hat, hrunning, hbefore⟩ := h
  obtain rfl := heq hplace
  have hhandled : handled (tr ++ [⟨l, .read .interrupt, { l with reader := r }⟩]) = handled tr := by
    rw [handled_append]
    exact List.append_nil _
  refine ⟨⟨r, ?_, fun _ => rfl⟩, ?_, fun hb => hhandled.symm ▸ hscreen hb.left, hhandled.symm ▸ hpower,
    hhandled.symm ▸ hat, hhandled.symm ▸ hrunning, hhandled.symm ▸ hbefore⟩
  · rw [readTrace_append]
    exact hrun.snoc hr
  · rw [readTrace_append, returnedEvents_append, hhandled, hreturned]
    exact List.append_nil _

theorem Did.read {act : ReadAct} {r : Reader} (h : Did k d tr l) (hact : act ≠ .interrupt)
    (hplace : l.place = .getEvent) (hr : ReadStep l.reader act r)
    (hl : l' = { l with reader := r, place := if act = .ret then .body l.reader.event else .getEvent }) :
    Did k d (tr ++ [⟨l, .read act, l'⟩]) l' := by
  obtain ⟨⟨r₀, hrun, heq⟩, hreturned, hscreen, hpower, hat, hrunning, hbefore⟩ := h
  obtain rfl := heq (by simp [hplace])
  have hnone := hrunning (.inl hplace)
  have hhandled : handled (tr ++ [⟨l, .read act, l'⟩]) = handled tr := by
    rw [handled_append]
    exact List.append_nil _
  have hreader : l'.reader = r := by rw [hl]
  have hscr : l'.screen = l.screen := by rw [hl]
  have hpow : l'.power = l.power := by rw [hl]
  refine ⟨⟨r, ?_, fun _ => hreader.symm⟩, ?_, ?_, ?_, ?_, ?_, ?_⟩
  · rw [readTrace_append]
    have hsnoc := hrun.snoc hr
    rw [← hreader] at hsnoc ⊢
    exact hsnoc
  · rw [readTrace_append, returnedEvents_append, hhandled, hreturned]
    unfold EventLoop.inHand
    rw [hplace]
    by_cases hret : act = .ret
    · subst hret
      rw [hl]
      simp [readTrace, returnedEvents]
    · rw [hl]
      simp [readTrace, returnedEvents, hret]
  · rw [hhandled, hscr]
    exact fun hb => hscreen hb.left
  · rw [hhandled, hpow]
    exact hpower
  · rw [hhandled]
    by_cases hret : act = .ret
    · exact .inl ⟨l.reader.event, by rw [hl]; simp [hret]⟩
    · rcases hat with ⟨e, he⟩ | hat
      · rw [hplace] at he
        cases he
      · right
        rw [← hat, hplace, hl]
        simp [hret]
  · rw [hhandled]
    exact fun _ => hnone
  · rw [hhandled]
    exact hbefore

theorem Did.body {e : KeyboardEvent} {fuel : ℕ} (h : Did k d tr l) (hplace : l.place = .body e)
    (hbody : l.body fuel e = some l') : Did k d (tr ++ [⟨l, .body, l'⟩]) l' := by
  obtain ⟨⟨r₀, hrun, heq⟩, hreturned, hscreen, hpower, hat, hrunning, hbefore⟩ := h
  obtain rfl := heq (by simp [hplace])
  have hnone := hrunning (.inr ⟨e, hplace⟩)
  obtain ⟨hpow, hafter, hreader⟩ := body_spec hbody
  have hhandled : handled (tr ++ [⟨l, .body, l'⟩]) = handled tr ++ [e] := by
    rw [handled_append]
    simp [handled, hplace]
  have hread : readTrace (tr ++ [⟨l, .body, l'⟩]) = readTrace tr := by
    rw [readTrace_append]
    exact List.append_nil _
  have hhand : l'.inHand = [] := by
    unfold EventLoop.inHand
    rw [hafter]
    unfold placeAfter
    split_ifs <;> rfl
  have hdo : l.inHand = [e] := by
    unfold EventLoop.inHand
    rw [hplace]
  refine ⟨⟨l.reader, ?_, fun hne => ?_⟩, ?_, fun hb => ?_, ?_, ?_, fun hgo => ?_, ?_⟩
  · rw [hread]
    exact hrun
  · exact (hreader hne).symm
  · rw [hread, hhandled, hhand, hreturned, hdo, List.append_nil]
  · rw [hhandled, List.flatMap_append, typeAll_append, List.flatMap_singleton]
    exact body_shows hbody (hscreen hb.left) (hb ⟨l, .body, l'⟩ (by simp) e rfl hplace)
  · rw [hhandled, List.flatMap_append, List.flatMap_singleton, hpow, hpower]
  · rw [hhandled]
    exact .inr (by simpa using hafter)
  · have hesc : ¬ Escapes e := by
      intro hesc
      rw [hafter] at hgo
      unfold placeAfter at hgo
      rw [if_pos hesc] at hgo
      split_ifs at hgo <;> simp at hgo
    rw [hhandled]
    intro x hx
    rcases List.mem_append.1 hx with hx | hx
    · exact hnone x hx
    · rw [List.mem_singleton.1 hx]
      exact hesc
  · rw [hhandled, List.dropLast_concat]
    exact hnone

/-- **Every run of the loop**, by induction on the run. -/
theorem run_did {s : Screen} (hs : Shows s d) (h : Run LoopStep (.start k s) tr l) : Did k d tr l := by
  induction h with
  | nil =>
    exact ⟨⟨_, .nil, fun _ => rfl⟩, rfl, fun _ => hs, rfl, .inr rfl, by simp [handled], by simp [handled]⟩
  | @snoc tr l l' a _ hstep hdid =>
    rcases loopStep_cases hstep with ⟨r, rfl, hplace, hr, rfl⟩ | ⟨act, r, hact, rfl, hplace, hr, hl⟩ |
      ⟨e, fuel, rfl, hplace, hbody⟩
    · exact hdid.interrupt hplace hr
    · exact hdid.read hact hplace hr hl
    · exact hdid.body hplace hbody

end Run

/-! ### The keys -/

/-- The events of the regular keys that the interrupts handled, oldest first. -/
def keyEvents (tr : List (Transition Reader ReadAct)) : List KeyboardEvent :=
  tr.filterMap fun t =>
    match t.label, keyCase t.pre.driver.ports.scancode.keycode with
    | .interrupt, .regular => some (keyEvent t.pre.driver.modifiers t.pre.driver.ports.scancode)
    | _, _ => none

/-- The same key did the same; the modifiers may differ. -/
def SameKey (e e' : KeyboardEvent) : Prop :=
  e.keycode = e'.keycode ∧ e.character = e'.character ∧ e.state = e'.state

theorem keyEvents_append (tr tr' : List (Transition Reader ReadAct)) :
    keyEvents (tr ++ tr') = keyEvents tr ++ keyEvents tr' := List.filterMap_append

/-- The keys are what the interrupts post. -/
theorem posted_mailRun (tr : List (Transition Reader ReadAct)) : posted (mailRun tr) = keyEvents tr := by
  unfold posted mailRun keyEvents
  rw [List.filterMap_map]
  congr 1
  funext t
  obtain ⟨pre, label, post⟩ := t
  cases label with
  | interrupt =>
    simp only [Function.comp_apply, mailLabel]
    cases keyCase pre.driver.ports.scancode.keycode <;> rfl
  | _ => rfl

section Numbers

variable {k : Driver} {r r' : Reader} {tr : List (Transition Reader ReadAct)} {a : ReadAct}

/-- Only an interrupt changes what was posted, the modifiers and the ports. -/
theorem readStep_other (h : ReadStep r a r') (ha : a ≠ .interrupt) :
    r'.keys = r.keys ∧ r'.posted = r.posted ∧ r'.driver.modifiers = r.driver.modifiers ∧
      r'.driver.ports = r.driver.ports := by
  obtain ⟨fuel, h⟩ := h
  unfold Reader.next at h
  split at h
  next => exact absurd rfl ha
  next =>
    cases h
    exact ⟨rfl, rfl, rfl, rfl⟩
  next =>
    split_ifs at h
    · cases h
      exact ⟨rfl, rfl, rfl, rfl⟩
    · cases h
      exact ⟨rfl, rfl, rfl, rfl⟩
  next =>
    split_ifs at h
    cases h
    exact ⟨rfl, rfl, rfl, rfl⟩
  next i _ =>
    cases h
    refine ⟨rfl, rfl, rfl, rfl⟩
  next =>
    split_ifs at h
    cases h
    exact ⟨rfl, rfl, rfl, rfl⟩
  next => cases h

/-- An interrupt handles the next scancode. -/
theorem readStep_handler (h : ReadStep r .interrupt r') :
    (∃ fuel, keyboardHandler fuel r.driver = some r'.driver) ∧
      r'.keys = r.keys + r.driver.ports.scancode.events ∧
      r'.posted = eventAfter r.driver.modifiers r.posted r.driver.ports.scancode := by
  obtain ⟨fuel, h⟩ := h
  unfold Reader.next at h
  simp only [Option.bind_eq_bind, Option.bind_eq_some_iff, Option.some.injEq] at h
  obtain ⟨k, hk, rfl⟩ := h
  exact ⟨⟨fuel, hk⟩, rfl, rfl⟩

/-- The key with a number is one of the keys, counted from one. -/
def IsNumber (tr : List (Transition Reader ReadAct)) (e : KeyboardEvent) (m : ℕ) : Prop :=
  1 ≤ m ∧ ∃ e', (KeyboardEvent.zero :: keyEvents tr)[m]? = some e' ∧ SameKey e e'

theorem IsNumber.append {e : KeyboardEvent} {m : ℕ} (h : IsNumber tr e m)
    (tr' : List (Transition Reader ReadAct)) : IsNumber (tr ++ tr') e m := by
  obtain ⟨hm, e', he', hsame⟩ := h
  refine ⟨hm, e', ?_, hsame⟩
  rw [keyEvents_append, ← List.cons_append,
    List.getElem?_append_left (List.getElem?_eq_some_iff.1 he').1]
  exact he'

theorem eventAfter_same {m : KeyboardModifiers} {sc : Scancode} (h : ¬ sc.IsRegular)
    (e : KeyboardEvent) : SameKey (eventAfter m e sc) e := by
  unfold eventAfter
  unfold Scancode.IsRegular at h
  cases hcase : keyCase sc.keycode with
  | regular => exact absurd hcase h
  | _ => exact ⟨rfl, rfl, rfl⟩

/-- **A step makes a key or it makes none**, and then what was posted is still the same key. -/
theorem readStep_keys (h : ReadStep r a r') :
    (∃ e, keyEvents [⟨r, a, r'⟩] = [e] ∧ r'.keys = r.keys + 1 ∧ r'.posted = e) ∨
      (keyEvents [⟨r, a, r'⟩] = [] ∧ r'.keys = r.keys ∧ SameKey r'.posted r.posted ∧
        r'.posted.ready = r.posted.ready) := by
  by_cases ha : a = .interrupt
  · subst ha
    obtain ⟨-, hcount, hposted⟩ := readStep_handler h
    unfold Scancode.events at hcount
    by_cases hreg : r.driver.ports.scancode.IsRegular
    · have hcase : keyCase r.driver.ports.scancode.keycode = .regular := hreg
      rw [hcase] at hcount
      unfold eventAfter at hposted
      rw [hcase] at hposted
      exact .inl ⟨_, by simp [keyEvents, hcase], hcount, hposted⟩
    · have hsame := eventAfter_same (m := r.driver.modifiers) hreg r.posted
      have hready := eventAfter_ready (m := r.driver.modifiers) hreg r.posted
      rw [← hposted] at hsame hready
      unfold Scancode.IsRegular at hreg
      unfold keyEvents
      cases hcase : keyCase r.driver.ports.scancode.keycode with
      | regular => exact absurd hcase hreg
      | _ =>
        rw [hcase] at hcount
        exact .inr ⟨by simp [hcase], hcount, hsame, hready⟩
  · obtain ⟨hcount, hposted, -, -⟩ := readStep_other h ha
    refine .inr ⟨?_, hcount, hposted ▸ ⟨rfl, rfl, rfl⟩, hposted ▸ rfl⟩
    cases a with
    | interrupt => exact absurd rfl ha
    | _ => rfl

/-- **The numbers of the keys**: the reader counts them, and what was posted last is the last of them. -/
theorem run_numbers (h : Run ReadStep (.start k) tr r) :
    (r.keys = (keyEvents tr).length ∧ (r.posted.ready = 1 → IsNumber tr r.posted r.keys)) ∧
      ∀ t ∈ tr, t.pre.posted.ready = 1 → IsNumber tr t.pre.posted t.pre.keys := by
  induction h with
  | nil => exact ⟨⟨rfl, fun h => absurd (show (0 : Byte) = 1 from h) (by decide)⟩, by simp⟩
  | @snoc tr r r' a _ hstep ih =>
    obtain ⟨⟨hkeys, hlast⟩, hall⟩ := ih
    refine ⟨?_, fun t ht => ?_⟩
    · rw [keyEvents_append, List.length_append]
      rcases readStep_keys hstep with ⟨e, hone, hcount, hposted⟩ | ⟨hnone, hcount, hsame, hready⟩
      · rw [hone, hcount, hkeys, hposted]
        refine ⟨rfl, fun _ => ⟨by omega, e, ?_, ⟨rfl, rfl, rfl⟩⟩⟩
        rw [keyEvents_append, hone]
        simp
      · rw [hnone, hcount, hready]
        refine ⟨hkeys, fun hr => ?_⟩
        obtain ⟨hm, e', he', hsame'⟩ := (hlast hr).append [⟨r, a, r'⟩]
        exact ⟨hm, e', he', hsame.1.trans hsame'.1, hsame.2.1.trans hsame'.2.1,
          hsame.2.2.trans hsame'.2.2⟩
    · rcases List.mem_append.1 ht with ht | ht
      · exact fun hready => (hall t ht hready).append _
      · rw [List.mem_singleton.1 ht]
        exact fun hready => (hlast hready).append _

end Numbers

section Echo

variable {boot k : Driver} {s : Screen} {d : Document Cell} {l : EventLoop}
  {tr : List (Transition EventLoop LoopAct)} {fuel : ℕ}

/-- The events returned are keys with growing numbers. -/
theorem returned_numbers {r : Reader} {tr : List (Transition Reader ReadAct)}
    (hboot : boot.previousEvent.ready = 0) (hsetup : keyboardSetup fuel boot = some k)
    (h : Run ReadStep (.start k) tr r) (hharm : InterruptsHarmless tr) :
    ∃ owners : List ℕ, owners.Pairwise (· < ·) ∧ (∀ m ∈ owners, 1 ≤ m) ∧
      List.Forall₂ (fun e m => ∃ e', (KeyboardEvent.zero :: keyEvents tr)[m]? = some e' ∧ SameKey e e')
        (returnedEvents tr) owners := by
  have hready : ¬ KeyboardEvent.cells.Ready (Reader.start k).mailbox.slot := by
    have hk : k.previousEvent.ready = 0 := (keyboardSetup_spec hsetup).2 ▸ hboot
    exact not_not.2 hk
  have hmail := h.map Reader.mailbox mailLabel fun t ht => readStep_mail ht
  obtain ⟨last, ⟨owners, hsorted, -, hall⟩, -⟩ :=
    run_delivers (by decide) rfl hready hmail (harmlessAt_mailRun hharm)
  have hnumbers : List.Forall₂ (IsNumber tr) (returnedEvents tr) owners := by
    rw [← returned_mailRun]
    refine List.Forall₂.imp (fun e m hshown => ?_) hall
    obtain ⟨t, ht, -, hposted, hkeys, hr⟩ := pendingIn_of_displayed hshown
    have hnum := (run_numbers h).2 t ht (by rw [hposted]; exact hr)
    rwa [hposted, hkeys] at hnum
  have hsplit := (List.forall₂_and_left (p := fun m => 1 ≤ m) owners (returnedEvents tr)).1 hnumbers.flip
  exact ⟨owners, hsorted, hsplit.1, hsplit.2.flip⟩

/-- **The screen after any run**: when no interrupt does harm, the loop handled some of the keys, each once
and in their order, none after an Escape, and the screen shows what these keys show. -/
theorem loop_shows_keys (hboot : boot.previousEvent.ready = 0) (hsetup : keyboardSetup fuel boot = some k)
    (hs : Shows s d) (h : Run LoopStep (.start k s) tr l) (hharm : InterruptsHarmless (readTrace tr))
    (hb : NoBackspaceHome tr) :
    (∃ part, part.Sublist (keyEvents (readTrace tr)) ∧ List.Forall₂ SameKey (handled tr) part) ∧
      (∀ e ∈ (handled tr).dropLast, ¬ Escapes e) ∧
      Shows l.screen (typeAll ((handled tr).flatMap echo) d) ∧
      l.power = (handled tr).flatMap powerOf := by
  have hdid := run_did hs h
  refine ⟨?_, hdid.before, hdid.screen hb, hdid.power⟩
  obtain ⟨r, hrun, -⟩ := hdid.reads
  obtain ⟨owners, hsorted, hpos, hall⟩ := returned_numbers hboot hsetup hrun hharm
  obtain ⟨part, hpart, hsame⟩ := exists_sublist_drop hall hsorted hpos
  rw [hdid.returned] at hsame
  refine ⟨part.take (handled tr).length, (List.take_sublist _ _).trans hpart, ?_⟩
  have htake := List.forall₂_take (handled tr).length hsame
  rwa [List.take_left] at htake

end Echo

/-! ### A loop that keeps up -/

/-- The event that an action makes, if it makes one. -/
def keyOf (m : KeyboardModifiers) (a : KeyAction) : List KeyboardEvent :=
  match keyCase a.key.code with
  | .regular => [keyEvent m a.scancode]
  | _ => []

/-- The events that a sequence of actions makes, the modifiers being `m` before it. -/
def keysFrom (m : KeyboardModifiers) : List KeyAction → List KeyboardEvent
  | [] => []
  | a :: acts => keyOf m a ++ keysFrom (a.key.act a.down m) acts

/-- The events that a sequence of actions makes. -/
def keysOf (acts : List KeyAction) : List KeyboardEvent := keysFrom .zero acts

theorem keysOf_snoc (acts : List KeyAction) (a : KeyAction) :
    keysOf (acts ++ [a]) = keysOf acts ++ keyOf (modifiersOf acts) a := by
  have hfrom : ∀ m, keysFrom m (acts ++ [a]) =
      keysFrom m acts ++ keyOf (acts.foldl (fun m a => a.key.act a.down m) m) a := by
    induction acts with
    | nil => exact fun m => List.append_nil _
    | cons b acts ih =>
      intro m
      rw [List.cons_append, keysFrom, keysFrom, ih, List.foldl_cons, List.append_assoc]
  exact hfrom .zero

/-- `PreviousEvent` is empty, and `Keyboard_GetEvent` is not taking an event. -/
def Free (r : Reader) : Prop :=
  (r.phase = .outside ∨ r.phase = .waiting) ∧ r.driver.previousEvent.ready = 0

instance (r : Reader) : Decidable (Free r) := by unfold Free; infer_instance

/-- The loop keeps up: every interrupt of the keyboard comes when it is free. -/
def KeepsUp (tr : List (Transition EventLoop LoopAct)) : Prop :=
  ∀ t ∈ tr, t.label = .read .interrupt → Free t.pre.reader

/-- The number of interrupts in a run. -/
def interrupts (tr : List (Transition Reader ReadAct)) : ℕ := tr.countP fun t => t.label = .interrupt

section KeepsUp

variable {boot k : Driver} {r r' : Reader} {tr : List (Transition Reader ReadAct)} {s : Screen}
  {d : Document Cell} {l : EventLoop} {acts : List KeyAction} {a : KeyAction} {fuel : ℕ}

theorem empty_iff_free (r : Reader) : r.mailbox.Empty KeyboardEvent.cells ↔ Free r :=
  and_congr Iff.rfl not_not

/-- **A reader that keeps up** loses no key: the keys are the events returned, and at most one more. -/
theorem returned_of_keepsUp (hboot : boot.previousEvent.ready = 0)
    (hsetup : keyboardSetup fuel boot = some k) (h : Run ReadStep (.start k) tr r)
    (hfree : ∀ t ∈ tr, t.label = .interrupt → Free t.pre) :
    ∃ rest, keyEvents tr = returnedEvents tr ++ rest ∧ rest.length ≤ 1 ∧ (Free r → rest = []) := by
  have hinit : (Reader.start k).mailbox.Empty KeyboardEvent.cells := by
    rw [empty_iff_free]
    exact ⟨.inl rfl, (keyboardSetup_spec hsetup).2 ▸ hboot⟩
  have hmail := h.map Reader.mailbox mailLabel fun t ht => readStep_mail ht
  have htime : ∀ t ∈ mailRun tr, InTime KeyboardEvent.cells t := by
    intro u hu
    obtain ⟨⟨pre, label, post⟩, ht, rfl⟩ := List.mem_map.1 hu
    cases label with
    | interrupt =>
      have hempty := (empty_iff_free pre).2 (hfree _ ht rfl)
      unfold InTime mailLabel
      dsimp only
      cases keyCase pre.driver.ports.scancode.keycode <;> exact hempty
    | _ => trivial
  obtain ⟨rest, htransit, heq⟩ := run_handsOff (by decide) (by decide) hinit hmail htime
  have hposted := posted_mailRun tr
  have hreturned := @returned_mailRun tr
  unfold mailRun at hposted hreturned
  rw [hposted, hreturned] at heq
  exact ⟨rest, heq, htransit.length_le, fun hr => ((empty_iff_free r).2 hr).transit htransit⟩

/-- The key of an interrupt that reads an action. -/
theorem keyEvents_act (hsend : Sends r.driver.ports a.bytes) :
    keyEvents [⟨r, .interrupt, r'⟩] = keyOf r.driver.modifiers a := by
  obtain ⟨hsc, -⟩ := scancode_of_sends hsend
  unfold keyEvents keyOf
  rw [List.filterMap_cons, List.filterMap_nil]
  dsimp only
  rw [hsc]
  have hcode : a.scancode.keycode = a.key.code := rfl
  rw [hcode]
  cases keyCase a.key.code <;> rfl

/-- **The keys of a run** with one interrupt for each action are those that the actions make. -/
theorem run_keys (hidle : k.ports.AlwaysIdle) (hzero : k.modifiers = .zero)
    (h : Run ReadStep (.start k) tr r) (hlen : interrupts tr = acts.length)
    (hsend : Sends k.ports (acts.flatMap KeyAction.bytes)) :
    keyEvents tr = keysOf acts ∧ r.driver.modifiers = modifiersOf acts ∧
      r.driver.ports.data = k.ports.data ∧ r.driver.ports.status = k.ports.status ∧
      r.driver.ports.taken = k.ports.taken + (acts.flatMap KeyAction.bytes).length := by
  induction h generalizing acts with
  | nil =>
    have hacts : acts = [] := List.eq_nil_of_length_eq_zero hlen.symm
    subst hacts
    exact ⟨rfl, hzero, rfl, rfl, rfl⟩
  | @snoc tr r r' act hrun hstep ih =>
    unfold interrupts at hlen ih
    rw [List.countP_append] at hlen
    by_cases hact : act = .interrupt
    · subst hact
      have hone : [(⟨r, .interrupt, r'⟩ : Transition Reader ReadAct)].countP
          (fun t => t.label = .interrupt) = 1 := rfl
      rw [hone] at hlen
      obtain rfl | ⟨acts, a, rfl⟩ := List.eq_nil_or_concat' acts
      · simp at hlen
      · rw [List.flatMap_append, List.flatMap_singleton, sends_append] at hsend
        obtain ⟨hkeys, hm, hd, hs, ht⟩ := ih (by simpa using hlen) hsend.1
        have hnow : Sends r.driver.ports a.bytes := hsend.2.congr hd ht
        obtain ⟨⟨fuel, hk⟩, -, -⟩ := readStep_handler hstep
        obtain ⟨hm', hd', hs', ht'⟩ := keyboardHandler_act (hidle.congr hs) hnow hk
        refine ⟨?_, ?_, hd'.trans hd, hs'.trans hs, ?_⟩
        · rw [keyEvents_append, keyEvents_act hnow, hkeys, hm, keysOf_snoc]
        · rw [hm', hm, modifiersOf_snoc]
        · rw [ht', ht, List.flatMap_append, List.flatMap_singleton, List.length_append, Nat.add_assoc]
    · have hzero : [(⟨r, act, r'⟩ : Transition Reader ReadAct)].countP
          (fun t => t.label = .interrupt) = 0 := by simp [hact]
      rw [hzero, Nat.add_zero] at hlen
      obtain ⟨hkeys, hm, hd, hs, ht⟩ := ih hlen hsend
      obtain ⟨-, -, hmods, hports⟩ := readStep_other hstep hact
      have hnone : keyEvents [⟨r, act, r'⟩] = [] := by
        cases act with
        | interrupt => exact absurd rfl hact
        | _ => rfl
      rw [keyEvents_append, hnone, List.append_nil, hmods, hports]
      exact ⟨hkeys, hm, hd, hs, ht⟩

/-- **What is typed is handled**: when the controller is idle and the loop keeps up, the events handled are
those of the keys typed, in their order, but for at most two that are still on their way, and for none when the
loop is free again.  **And it is shown**, unless a backspace comes at the top left. -/
theorem loop_shows_typed {tr : List (Transition EventLoop LoopAct)} (hidle : boot.ports.AlwaysIdle)
    (hsend : Sends boot.ports (acts.flatMap KeyAction.bytes)) (hboot : boot.previousEvent.ready = 0)
    (hsetup : keyboardSetup fuel boot = some k) (hs : Shows s d) (h : Run LoopStep (.start k s) tr l)
    (hlen : interrupts (readTrace tr) = acts.length) (hup : KeepsUp tr) :
    (∃ rest, keysOf acts = handled tr ++ rest ∧ rest.length ≤ 2) ∧
      (l.place = .getEvent → Free l.reader →
        handled tr = keysOf acts ∧ ∀ e ∈ keysOf acts, ¬ Escapes e) ∧
      (NoBackspaceHome tr → Shows l.screen (typeAll ((handled tr).flatMap echo) d)) := by
  obtain ⟨⟨r, hrun, hr⟩, hreturned, hscreen, -, -, hrunning, -⟩ := run_did hs h
  have hfree : ∀ t ∈ readTrace tr, t.label = .interrupt → Free t.pre := by
    intro u hu hlabel
    obtain ⟨⟨pre, label, post⟩, ht, hread⟩ := List.mem_filterMap.1 hu
    cases label with
    | read act =>
      obtain rfl := Option.some.inj hread
      have hact : act = .interrupt := hlabel
      subst hact
      exact hup _ ht rfl
    | body => cases hread
  obtain ⟨hzero, hd, hstatus, ht⟩ := keyboardSetup_ports hidle hsetup
  have hkeys := (run_keys (hidle.congr hstatus) hzero hrun hlen (hsend.congr hd ht)).1
  obtain ⟨rest, hrest, hle, hnone⟩ := returned_of_keepsUp hboot hsetup hrun hfree
  rw [hkeys, hreturned, List.append_assoc] at hrest
  have hhand : l.inHand.length ≤ 1 := by
    unfold EventLoop.inHand
    split <;> simp
  refine ⟨⟨l.inHand ++ rest, hrest, by rw [List.length_append]; omega⟩, fun hplace hl => ?_, hscreen⟩
  have hall : keysOf acts = handled tr := by
    have hempty : l.inHand = [] := by
      unfold EventLoop.inHand
      rw [hplace]
    have hreader := hr (by simp [hplace])
    rw [hrest, hempty, hnone (hreader ▸ hl), List.append_nil, List.append_nil]
  rw [hall]
  exact ⟨rfl, hrunning (.inl hplace)⟩

end KeepsUp

/-! ### Some keys -/

/-- The loop takes an event and handles it. -/
def takeEvent : List LoopAct :=
  [.read .call, .read .test] ++ (List.replicate 8 [LoopAct.read .copy, .read .clear]).flatten ++
    [.read .ret, .body]

/-- The loop on some bytes of the keyboard, with an empty screen. -/
def loopStart (bytes : List Byte) : EventLoop := .start (readyDriver bytes) (setupScreen (fun _ => 0) 0)

def loopTrace (bytes : List Byte) (acts : List LoopAct) : List (Transition EventLoop LoopAct) :=
  trace (follow (EventLoop.next 1)) (loopStart bytes) acts

def loopEnd (bytes : List Byte) (acts : List LoopAct) : EventLoop :=
  acts.foldl (follow (EventLoop.next 1)) (loopStart bytes)

theorem run_loopTrace {bytes : List Byte} {acts : List LoopAct}
    (h : ∀ t ∈ loopTrace bytes acts, (t.pre.next 1 t.label).isSome) :
    Run LoopStep (loopStart bytes) (loopTrace bytes acts) (loopEnd bytes acts) :=
  (run_follow h).imp fun _ _ hnext => ⟨1, hnext⟩

theorem noBackspaceHome_of_inHand {tr : List (Transition EventLoop LoopAct)}
    (h : ∀ t ∈ tr, ∀ e ∈ t.pre.inHand, e.character ≠ backspace) : NoBackspaceHome tr := by
  intro t ht e _ hplace _ hback
  refine absurd hback (h t ht e ?_)
  unfold EventLoop.inHand
  rw [hplace]
  exact List.mem_singleton_self e

/-- Left Shift, the letter A, and the letter B before the loop takes an event; then Escape. -/
def lateLoop : List LoopAct :=
  [.read .interrupt, .read .interrupt, .read .interrupt] ++ takeEvent ++ [.read .interrupt] ++ takeEvent

def lateBytes : List Byte := [0x2A, 0x1E, 0x30, 0x01]

/-- B and Escape are handled, and A is not. -/
theorem loop_shows_keys_late :
    (handled (loopTrace lateBytes lateLoop)).map KeyboardEvent.keycode = [0x30, 0x01] ∧
    (keyEvents (readTrace (loopTrace lateBytes lateLoop))).map KeyboardEvent.keycode = [0x1E, 0x30, 0x01] ∧
    (∃ part, part.Sublist (keyEvents (readTrace (loopTrace lateBytes lateLoop))) ∧
      List.Forall₂ SameKey (handled (loopTrace lateBytes lateLoop)) part) ∧
    (∀ e ∈ (handled (loopTrace lateBytes lateLoop)).dropLast, ¬ Escapes e) ∧
    Shows (loopEnd lateBytes lateLoop).screen
      (typeAll ((handled (loopTrace lateBytes lateLoop)).flatMap echo) (initialDocument fun _ => 0)) ∧
    (loopEnd lateBytes lateLoop).power = (handled (loopTrace lateBytes lateLoop)).flatMap powerOf := by
  have hsetup : keyboardSetup 1 (bootDriver lateBytes) = some (readyDriver lateBytes) := rfl
  have hearly : ∀ t ∈ readTrace (loopTrace lateBytes lateLoop), t.label = .interrupt → t.pre.Early := by decide
  exact ⟨by decide, by decide, loop_shows_keys rfl hsetup (initialDocument_shows _ 0)
    (run_loopTrace (by decide)) (fun t ht hlabel => (hearly t ht hlabel).harmless)
    (noBackspaceHome_of_inHand (by decide))⟩

/-- Left Shift is held, the letter A goes down, repeats and goes up, and left Shift goes up. -/
def shiftedA : List KeyAction :=
  shiftLetter ++ shiftLetter.tail ++ [.release (.other letterA), .release .leftShift]

/-- Each event is taken before the next key. -/
def promptLoop : List LoopAct :=
  [.read .interrupt, .read .interrupt] ++ takeEvent ++ [.read .interrupt] ++ takeEvent ++
    [.read .interrupt] ++ takeEvent ++ [.read .interrupt]

def promptBytes : List Byte := shiftedA.flatMap KeyAction.bytes

theorem keepsUp_prompt : KeepsUp (loopTrace promptBytes promptLoop) := by
  have hfree : ∀ t ∈ loopTrace promptBytes promptLoop, t.label = .read .interrupt → Free t.pre.reader := by
    decide +kernel
  exact hfree

/-- The three events of the letter are handled in their order, and shown. -/
theorem loop_shows_typed_shifted :
    (keysOf shiftedA).map (fun e => (e.character, e.state, e.modifiers.leftShift)) =
      [(0x41, 1, true), (0x41, 1, true), (0x41, 0, true)] ∧
    (∃ rest, keysOf shiftedA = handled (loopTrace promptBytes promptLoop) ++ rest ∧ rest.length ≤ 2) ∧
    (handled (loopTrace promptBytes promptLoop) = keysOf shiftedA ∧ ∀ e ∈ keysOf shiftedA, ¬ Escapes e) ∧
    Shows (loopEnd promptBytes promptLoop).screen
      (typeAll ((handled (loopTrace promptBytes promptLoop)).flatMap echo) (initialDocument fun _ => 0)) := by
  have hsetup : keyboardSetup 1 (bootDriver promptBytes) = some (readyDriver promptBytes) := rfl
  obtain ⟨hrest, hdone, hshows⟩ := loop_shows_typed (alwaysIdle_bootDriver promptBytes)
    (show Sends _ (shiftedA.flatMap KeyAction.bytes) from sends_bootDriver promptBytes) rfl hsetup
    (initialDocument_shows _ 0) (run_loopTrace (by decide)) (by decide) keepsUp_prompt
  exact ⟨by decide, hrest, hdone rfl ⟨.inl rfl, rfl⟩, hshows (noBackspaceHome_of_inHand (by decide))⟩

end RedFox32.Kernel.Main
