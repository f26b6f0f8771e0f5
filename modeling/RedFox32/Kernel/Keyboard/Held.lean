import RedFox32.Kernel.Keyboard.Pending

/-!
# Which modifier keys are held

A keyboard that sends scancode set 1, and the modifiers after a sequence of presses, repeats and releases.
Shift and the menu keys have a bit for each key, but the two Control keys share one, and so do the two Alt
keys: the bit says whether the last thing that happened to either of them was a press.
-/

namespace RedFox32.Kernel.Keyboard

open RedFox32.Machine

/-! ### The keyboard -/

/-- The codes of the keys that the `switch` of `Keyboard_Handler` names and that change a modifier. -/
def modifierCodes : List Byte :=
  [keyControl, keyLeftShift, keyRightShift, keyCapsLock, keyNumLock, keyScrollLock, keyAlt, keyMenuLeft,
    keyMenuRight]

/-- A key that is no modifier: its make code, which is no modifier's and whose break code is not the code
of a prefix, and whether a prefix is sent before it. -/
structure OtherKey where
  code : Byte
  extended : Bool
  make : code < 0x80
  plain : code ≠ 0x60
  other : code ∉ modifierCodes
  deriving DecidableEq

/-- The keys of the keyboard. -/
inductive Key where
  | leftControl
  | rightControl
  | leftShift
  | rightShift
  | leftAlt
  | rightAlt
  | leftMenu
  | rightMenu
  | capsLock
  | numLock
  | scrollLock
  | other (key : OtherKey)
  deriving DecidableEq

namespace Key

/-- The make code. -/
def code : Key → Byte
  | leftControl => 0x1D
  | rightControl => 0x1D
  | leftShift => 0x2A
  | rightShift => 0x36
  | leftAlt => 0x38
  | rightAlt => 0x38
  | leftMenu => 0x5B
  | rightMenu => 0x5D
  | capsLock => 0x3A
  | numLock => 0x45
  | scrollLock => 0x46
  | other key => key.code

/-- The prefix `0xE0` is sent before the code. -/
def extended : Key → Bool
  | rightControl => true
  | rightAlt => true
  | leftMenu => true
  | rightMenu => true
  | other key => key.extended
  | _ => false

end Key

/-- What happens to a key. -/
inductive KeyAction where
  | press (key : Key)
  | again (key : Key)
  | release (key : Key)
  deriving DecidableEq

namespace KeyAction

/-- The key it happens to. -/
def key : KeyAction → Key
  | press key => key
  | again key => key
  | release key => key

/-- The key is down after it. -/
def down : KeyAction → Bool
  | press _ => true
  | again _ => true
  | release _ => false

/-- The make code or the break code. -/
def code (a : KeyAction) : Byte := if a.down then a.key.code else a.key.code + 0x80

/-- The bytes that the keyboard sends. -/
def bytes (a : KeyAction) : List Byte := if a.key.extended then [0xE0, a.code] else [a.code]

end KeyAction

/-- The keys held after a sequence of actions. -/
def held (acts : List KeyAction) : Key → Bool :=
  acts.foldl (fun h a => Function.update h a.key a.down) fun _ => false

theorem held_snoc (acts : List KeyAction) (a : KeyAction) (key : Key) :
    held (acts ++ [a]) key = if key = a.key then a.down else held acts key := by
  simp [held, Function.update_apply]

/-- The sequences that fingers can type: a key that is up is pressed, and one that is held repeats or is
released. -/
inductive Typed : List KeyAction → Prop
  | nil : Typed []
  | press {acts : List KeyAction} {key : Key} (h : Typed acts) (hup : held acts key = false) :
      Typed (acts ++ [.press key])
  | again {acts : List KeyAction} {key : Key} (h : Typed acts) (hdown : held acts key = true) :
      Typed (acts ++ [.again key])
  | release {acts : List KeyAction} {key : Key} (h : Typed acts) (hdown : held acts key = true) :
      Typed (acts ++ [.release key])

/-- The lock of a key is on after an odd number of completed presses. -/
def locked (acts : List KeyAction) (key : Key) : Bool := acts.count (.release key) % 2 == 1

/-- **The modifiers are right**: each key with a bit of its own has it set while it is held, Control and
Alt are set while one of their keys is held, and the locks follow the parity of their presses. -/
structure Tracks (m : KeyboardModifiers) (acts : List KeyAction) : Prop where
  leftShift : m.leftShift = held acts .leftShift
  rightShift : m.rightShift = held acts .rightShift
  leftMenu : m.leftMenu = held acts .leftMenu
  rightMenu : m.rightMenu = held acts .rightMenu
  control : m.control = (held acts .leftControl || held acts .rightControl)
  alt : m.alt = (held acts .leftAlt || held acts .rightAlt)
  capsLock : m.capsLock = locked acts .capsLock
  numLock : m.numLock = locked acts .numLock
  scrollLock : m.scrollLock = locked acts .scrollLock

/-- The last action on one of the two keys is a release. -/
def LastReleased (key key' : Key) (acts : List KeyAction) : Prop :=
  ∃ a, (acts.filter fun a => a.key = key ∨ a.key = key').getLast? = some a ∧ a.down = false

/-- The last action on one of the two keys released it, and the other one is held. -/
def Overlap (key key' : Key) (acts : List KeyAction) : Prop :=
  LastReleased key key' acts ∧ (held acts key || held acts key') = true

/-! ### The modifiers after a sequence -/

/-- The effect of an action on the modifiers. -/
def Key.act (down : Bool) (m : KeyboardModifiers) : Key → KeyboardModifiers
  | leftControl => { m with control := down }
  | rightControl => { m with control := down }
  | leftShift => { m with leftShift := down }
  | rightShift => { m with rightShift := down }
  | leftAlt => { m with alt := down }
  | rightAlt => { m with alt := down }
  | leftMenu => { m with leftMenu := down }
  | rightMenu => { m with rightMenu := down }
  | capsLock => { m with capsLock := m.capsLock ^^ !down }
  | numLock => { m with numLock := m.numLock ^^ !down }
  | scrollLock => { m with scrollLock := m.scrollLock ^^ !down }
  | other _ => m

/-- The modifiers after a sequence of actions. -/
def modifiersOf (acts : List KeyAction) : KeyboardModifiers :=
  acts.foldl (fun m a => a.key.act a.down m) .zero

theorem modifiersOf_snoc (acts : List KeyAction) (a : KeyAction) :
    modifiersOf (acts ++ [a]) = a.key.act a.down (modifiersOf acts) := by
  simp [modifiersOf]

theorem locked_snoc (acts : List KeyAction) (a : KeyAction) (key : Key) :
    locked (acts ++ [a]) key = (locked acts key ^^ (decide (key = a.key) && !a.down)) := by
  have hcount : (acts ++ [a]).count (.release key) =
      acts.count (.release key) + if key = a.key ∧ a.down = false then 1 else 0 := by
    rw [List.count_append, List.count_singleton]
    cases a with
    | press key' => simp [KeyAction.down]
    | again key' => simp [KeyAction.down]
    | release key' =>
      by_cases h : key = key'
      · simp [KeyAction.key, KeyAction.down, h]
      · simp [KeyAction.key, KeyAction.down, h, Ne.symm h]
  unfold locked
  rw [hcount]
  by_cases h : key = a.key ∧ a.down = false
  · simp only [h, and_self, if_true, decide_true, Bool.not_false, Bool.and_self, Bool.xor_true]
    rcases Nat.mod_two_eq_zero_or_one (acts.count (.release a.key)) with h0 | h0
    · simp [h0, Nat.add_mod]
    · simp [h0, Nat.add_mod]
  · have hfalse : (decide (key = a.key) && !a.down) = false := by
      simpa using h
    rw [if_neg h, hfalse, Bool.xor_false, Nat.add_zero]

/-- The last action on one of the two keys, if any, left it down. -/
def lastDown (key key' : Key) (acts : List KeyAction) : Bool :=
  ((acts.filter fun a => a.key = key ∨ a.key = key').getLast?.map KeyAction.down).getD false

theorem lastDown_snoc (key key' : Key) (acts : List KeyAction) (a : KeyAction) :
    lastDown key key' (acts ++ [a]) =
      if a.key = key ∨ a.key = key' then a.down else lastDown key key' acts := by
  unfold lastDown
  by_cases h : a.key = key ∨ a.key = key'
  · simp [h]
  · simp [h]

/-- **A bit for two keys** is right exactly when the keys do not overlap. -/
theorem lastDown_eq_iff (key key' : Key) (acts : List KeyAction) :
    lastDown key key' acts = (held acts key || held acts key') ↔ ¬ Overlap key key' acts := by
  have hnone : ∀ as : List KeyAction, (as.filter fun a => a.key = key ∨ a.key = key').getLast? = none →
      held as key = false ∧ held as key' = false := by
    intro as
    induction as using List.reverseRecOn with
    | nil => simp [held]
    | append_singleton as a ih =>
      intro h
      by_cases ha : a.key = key ∨ a.key = key'
      · simp [ha] at h
      · rw [not_or] at ha
        rw [held_snoc, held_snoc, if_neg (Ne.symm ha.1), if_neg (Ne.symm ha.2)]
        exact ih (by simpa [ha.1, ha.2] using h)
  have hsome : ∀ (as : List KeyAction) (a : KeyAction),
      (as.filter fun a => a.key = key ∨ a.key = key').getLast? = some a → a.down = true →
      (held as key || held as key') = true := by
    intro as b
    induction as using List.reverseRecOn with
    | nil => simp
    | append_singleton as a ih =>
      intro h hdown
      by_cases ha : a.key = key ∨ a.key = key'
      · have hab : a = b := by simpa [ha] using h
        subst hab
        rw [held_snoc, held_snoc]
        rcases ha with ha | ha
        · simp [ha, hdown]
        · simp [ha, hdown]
      · rw [not_or] at ha
        rw [held_snoc, held_snoc, if_neg (Ne.symm ha.1), if_neg (Ne.symm ha.2)]
        exact ih (by simpa [ha.1, ha.2] using h) hdown
  unfold lastDown Overlap LastReleased
  cases hlast : (acts.filter fun a => a.key = key ∨ a.key = key').getLast? with
  | none =>
    obtain ⟨h1, h2⟩ := hnone acts hlast
    simp [h1, h2]
  | some a =>
    cases hdown : a.down with
    | true => simp [hsome acts a hlast hdown, hdown]
    | false => simp [hdown]

/-- **The modifiers after a sequence**, bit by bit. -/
theorem modifiersOf_spec (acts : List KeyAction) :
    (modifiersOf acts).leftShift = held acts .leftShift ∧
    (modifiersOf acts).rightShift = held acts .rightShift ∧
    (modifiersOf acts).leftMenu = held acts .leftMenu ∧
    (modifiersOf acts).rightMenu = held acts .rightMenu ∧
    (modifiersOf acts).control = lastDown .leftControl .rightControl acts ∧
    (modifiersOf acts).alt = lastDown .leftAlt .rightAlt acts ∧
    (modifiersOf acts).capsLock = locked acts .capsLock ∧
    (modifiersOf acts).numLock = locked acts .numLock ∧
    (modifiersOf acts).scrollLock = locked acts .scrollLock := by
  induction acts using List.reverseRecOn with
  | nil => decide
  | append_singleton acts a ih =>
    obtain ⟨hls, hrs, hlm, hrm, hc, ha, hcl, hnl, hsl⟩ := ih
    simp only [modifiersOf_snoc, held_snoc, lastDown_snoc, locked_snoc]
    generalize a.key = key
    generalize a.down = down
    cases key <;> simp [Key.act, hls, hrs, hlm, hrm, hc, ha, hcl, hnl, hsl]

/-- **The modifiers are right** exactly when neither the Control keys nor the Alt keys overlap. -/
theorem tracks_modifiersOf_iff (acts : List KeyAction) : Tracks (modifiersOf acts) acts ↔
    ¬ Overlap .leftControl .rightControl acts ∧ ¬ Overlap .leftAlt .rightAlt acts := by
  obtain ⟨hls, hrs, hlm, hrm, hc, ha, hcl, hnl, hsl⟩ := modifiersOf_spec acts
  rw [← lastDown_eq_iff, ← lastDown_eq_iff, ← hc, ← ha]
  exact ⟨fun h => ⟨h.control, h.alt⟩, fun ⟨h1, h2⟩ => ⟨hls, hrs, hlm, hrm, h1, h2, hcl, hnl, hsl⟩⟩

/-! ### What the handler reads -/

/-- The scancode of an action. -/
def KeyAction.scancode (a : KeyAction) : Scancode :=
  ⟨a.key.code, if a.down then keyStateDown else keyStateUp, a.key.extended⟩

/-- Make codes and break codes. -/
theorem code_bits : ∀ c : Byte, c < 0x80 → c &&& 0x80 = 0 ∧ (c + 0x80) &&& 0x80 ≠ 0 ∧
    c + 0x80 - 0x80 = c ∧ c ≠ 0xE0 ∧ (c ≠ 0x60 → c + 0x80 ≠ 0xE0) := by
  decide

theorem Key.code_lt (key : Key) : key.code < 0x80 := by
  cases key with
  | other key => exact key.make
  | _ => decide

theorem Key.code_ne (key : Key) : key.code ≠ 0x60 := by
  cases key with
  | other key => exact key.plain
  | _ => decide

theorem KeyAction.decode_code (a : KeyAction) : Scancode.decode a.key.extended a.code = a.scancode := by
  obtain ⟨hmake, hbreak, hsub, -, -⟩ := code_bits a.key.code a.key.code_lt
  unfold Scancode.decode KeyAction.code KeyAction.scancode
  cases a.down with
  | true =>
    simp only [if_true, hmake, ne_eq, not_true_eq_false, if_false]
    rw [if_neg (by decide)]
  | false =>
    simp only [Bool.false_eq_true, if_false]
    rw [if_pos hbreak, if_pos rfl, hsub]

theorem KeyAction.code_ne (a : KeyAction) : a.code ≠ 0xE0 := by
  obtain ⟨-, -, -, hmake, hbreak⟩ := code_bits a.key.code a.key.code_lt
  unfold KeyAction.code
  cases a.down with
  | true => exact hmake
  | false => exact hbreak a.key.code_ne

/-- An action changes the modifiers as it should. -/
theorem modifiersAfter_act (m : KeyboardModifiers) (a : KeyAction) :
    modifiersAfter m a.scancode = a.key.act a.down m := by
  unfold modifiersAfter KeyAction.scancode
  generalize a.down = down
  cases hkey : a.key with
  | other key =>
    have hcode := key.other
    simp only [modifierCodes, List.mem_cons, List.not_mem_nil, or_false, not_or] at hcode
    obtain ⟨h1, h2, h3, h4, h5, h6, h7, h8, h9⟩ := hcode
    have hcase : keyCase key.code = if key.code = keyCapsIgnore then .ignore else .regular := by
      unfold keyCase
      simp [h1, h2, h3, h4, h5, h6, h7, h8, h9]
    simp only [Key.code, hcase, Key.act]
    split_ifs <;> rfl
  | capsLock | numLock | scrollLock =>
    cases down with
    | true =>
      rw [Key.act, Bool.not_true, Bool.xor_false]
      rfl
    | false => rfl
  | _ => cases down <;> rfl

/-- The next bytes of the data port. -/
def Sends (p : Ports) (bytes : List Byte) : Prop := ∀ i b, bytes[i]? = some b → p.data (p.taken + i) = b

/-- The handler reads an action as it was sent. -/
theorem scancode_of_sends {p : Ports} {a : KeyAction} (h : Sends p a.bytes) :
    p.scancode = a.scancode ∧ p.scancodeBytes = a.bytes := by
  have hdecode := a.decode_code
  unfold Ports.scancode Ports.readScancode Ports.scancodeBytes Ports.inbData
  unfold Sends at h
  unfold KeyAction.bytes at h ⊢
  cases hext : a.key.extended with
  | true =>
    rw [hext] at h hdecode
    have h0 : p.data p.taken = 0xE0 := h 0 _ rfl
    have h1 : p.data (p.taken + 1) = a.code := h 1 _ rfl
    dsimp only
    rw [if_pos h0, if_pos h0, if_pos rfl, h1]
    exact ⟨hdecode, rfl⟩
  | false =>
    rw [hext] at h hdecode
    have h0 : p.data p.taken = a.code := h 0 _ rfl
    have hne : p.data p.taken ≠ 0xE0 := by
      rw [h0]
      exact a.code_ne
    dsimp only
    rw [if_neg hne, if_neg hne, if_neg (by simp), h0]
    exact ⟨hdecode, rfl⟩

theorem Sends.congr {p p' : Ports} {bs : List Byte} (h : Sends p bs) (hd : p'.data = p.data)
    (ht : p'.taken = p.taken) : Sends p' bs := by
  intro i b hi
  rw [hd, ht]
  exact h i b hi

theorem sends_append {p : Ports} {bs cs : List Byte} :
    Sends p (bs ++ cs) ↔ Sends p bs ∧ Sends { p with taken := p.taken + bs.length } cs := by
  constructor
  · intro h
    refine ⟨fun i b hi => h i b ?_, fun i b hi => ?_⟩
    · rw [List.getElem?_append_left (List.getElem?_eq_some_iff.1 hi).1]
      exact hi
    · have hcs : (bs ++ cs)[bs.length + i]? = some b := by
        rw [List.getElem?_append_right (by omega), Nat.add_sub_cancel_left]
        exact hi
      have hp := h _ b hcs
      rwa [← Nat.add_assoc] at hp
  · rintro ⟨hbs, hcs⟩ i b hi
    by_cases hlt : i < bs.length
    · rw [List.getElem?_append_left hlt] at hi
      exact hbs i b hi
    · rw [List.getElem?_append_right (by omega)] at hi
      have hp := hcs _ b hi
      dsimp only at hp
      rwa [Nat.add_assoc, Nat.add_sub_cancel' (by omega)] at hp

/-! ### Runs -/

/-- The input buffer of the controller is empty at every poll. -/
def Ports.AlwaysIdle (p : Ports) : Prop := ∀ i, p.status i &&& 0x02 = 0

theorem Ports.AlwaysIdle.congr {p p' : Ports} (h : p.AlwaysIdle) (hs : p'.status = p.status) :
    p'.AlwaysIdle := by
  intro i
  rw [hs]
  exact h i

/-- The states after `Keyboard_Setup` and one interrupt for each action. -/
def Handled (boot : Driver) (acts : List KeyAction) (s : Driver) : Prop :=
  ∃ fuel k tr, keyboardSetup fuel boot = some k ∧ Run HandlerStep k tr s ∧ tr.length = acts.length

section Run

variable {boot k k' s : Driver} {acts : List KeyAction} {a : KeyAction} {fuel : ℕ}
  {tr : List (Transition Driver Scancode)}

/-- **One interrupt** on an idle controller reads one action, and changes the modifiers as it should. -/
theorem keyboardHandler_act (hidle : k.ports.AlwaysIdle) (hsend : Sends k.ports a.bytes)
    (h : keyboardHandler fuel k = some k') :
    k'.modifiers = a.key.act a.down k.modifiers ∧
      k'.ports.data = k.ports.data ∧ k'.ports.status = k.ports.status ∧
      k'.ports.taken = k.ports.taken + a.bytes.length := by
  obtain ⟨hsc, hbytes⟩ := scancode_of_sends hsend
  obtain ⟨hm, -, hd, hs, -, hiff⟩ := keyboardHandler_spec h
  rw [hsc, modifiersAfter_act] at hm
  rw [hbytes] at hiff
  exact ⟨hm, hd, hs, hiff.2 fun _ => ⟨hidle _, hidle _⟩⟩

/-- **A run** of one interrupt for each action. -/
theorem run_acts (hidle : k.ports.AlwaysIdle) (hzero : k.modifiers = .zero)
    (h : Run HandlerStep k tr s) (hlen : tr.length = acts.length)
    (hsend : Sends k.ports (acts.flatMap KeyAction.bytes)) :
    s.modifiers = modifiersOf acts ∧ s.ports.data = k.ports.data ∧ s.ports.status = k.ports.status ∧
      s.ports.taken = k.ports.taken + (acts.flatMap KeyAction.bytes).length := by
  induction h generalizing acts with
  | nil =>
    have hacts : acts = [] := List.eq_nil_of_length_eq_zero hlen.symm
    subst hacts
    exact ⟨hzero, rfl, rfl, rfl⟩
  | @snoc tr s s' sc hrun hstep ih =>
    rw [List.length_append, List.length_singleton] at hlen
    obtain rfl | ⟨acts, a, rfl⟩ := List.eq_nil_or_concat' acts
    · simp at hlen
    · rw [List.flatMap_append, List.flatMap_singleton, sends_append] at hsend
      obtain ⟨hm, hd, hs, ht⟩ := ih (by simpa using hlen) hsend.1
      obtain ⟨-, fuel, hk⟩ := hstep
      obtain ⟨hm', hd', hs', ht'⟩ := keyboardHandler_act (hidle.congr hs) (hsend.2.congr hd ht) hk
      refine ⟨?_, hd'.trans hd, hs'.trans hs, ?_⟩
      · rw [hm', hm, modifiersOf_snoc]
      · rw [ht', ht, List.flatMap_append, List.flatMap_singleton, List.length_append, Nat.add_assoc]

/-- An idle controller lets every interrupt return. -/
theorem exists_run (hidle : k.ports.AlwaysIdle) (n : ℕ) :
    ∃ tr s, Run HandlerStep k tr s ∧ tr.length = n ∧ s.ports.status = k.ports.status := by
  induction n with
  | zero => exact ⟨[], k, .nil, rfl, rfl⟩
  | succ n ih =>
    obtain ⟨tr, s, hrun, hlen, hs⟩ := ih
    have hidle' := hidle.congr hs
    obtain ⟨s', hk⟩ := @keyboardHandler_some s 0 fun _ => ⟨hidle' _, hidle' _⟩
    obtain ⟨-, -, -, hs', -, -⟩ := keyboardHandler_spec hk
    exact ⟨_, s', hrun.snoc ⟨rfl, 1, hk⟩, by simp [hlen], hs'.trans hs⟩

/-- The setup on an idle controller returns and leaves the data port alone. -/
theorem keyboardSetup_some (hidle : boot.ports.AlwaysIdle) : ∃ k, keyboardSetup 1 boot = some k := by
  obtain ⟨p, hp, -⟩ := @updateLEDS_idle { boot with modifiers := .zero } 0 (hidle _) (hidle _)
  exact ⟨_, hp⟩

theorem keyboardSetup_ports (hidle : boot.ports.AlwaysIdle) (h : keyboardSetup fuel boot = some k) :
    k.modifiers = .zero ∧ k.ports.data = boot.ports.data ∧ k.ports.status = boot.ports.status ∧
      k.ports.taken = boot.ports.taken := by
  obtain ⟨hm, -, hd, hs, -, hiff⟩ := updateLEDS_spec h
  exact ⟨hm, hd, hs, hiff.2 ⟨hidle _, hidle _⟩⟩

theorem exists_handled (hidle : boot.ports.AlwaysIdle) (acts : List KeyAction) :
    ∃ s, Handled boot acts s := by
  obtain ⟨k, hk⟩ := keyboardSetup_some hidle
  obtain ⟨-, -, hs, -⟩ := keyboardSetup_ports hidle hk
  obtain ⟨tr, s, hrun, hlen, -⟩ := exists_run (hidle.congr hs) acts.length
  exact ⟨s, 1, k, tr, hk, hrun, hlen⟩

theorem modifiers_of_handled (hidle : boot.ports.AlwaysIdle)
    (hsend : Sends boot.ports (acts.flatMap KeyAction.bytes)) (h : Handled boot acts s) :
    s.modifiers = modifiersOf acts := by
  obtain ⟨fuel, k, tr, hk, hrun, hlen⟩ := h
  obtain ⟨hm, hd, hs, ht⟩ := keyboardSetup_ports hidle hk
  exact (run_acts (hidle.congr hs) hm hrun hlen (hsend.congr hd ht)).1

/-- **The modifiers after a sequence**: the interrupts return, and the modifiers are right exactly when
neither the Control keys nor the Alt keys overlap. -/
theorem tracks_iff_not_overlap (hidle : boot.ports.AlwaysIdle)
    (hsend : Sends boot.ports (acts.flatMap KeyAction.bytes)) :
    (∃ s, Handled boot acts s) ∧ ∀ s, Handled boot acts s → (Tracks s.modifiers acts ↔
      ¬ Overlap .leftControl .rightControl acts ∧ ¬ Overlap .leftAlt .rightAlt acts) := by
  refine ⟨exists_handled hidle acts, fun s h => ?_⟩
  rw [modifiers_of_handled hidle hsend h]
  exact tracks_modifiersOf_iff acts

end Run

/-! ### Two Control keys -/

theorem alwaysIdle_bootDriver (bytes : List Byte) : (bootDriver bytes).ports.AlwaysIdle := by
  intro i
  exact BitVec.zero_and

theorem sends_bootDriver (bytes : List Byte) : Sends (bootDriver bytes).ports bytes := by
  intro i b hi
  have hget : bytes.getD (0 + i) 0 = b := by simp [hi]
  exact hget

def letterA : OtherKey := ⟨0x1E, false, by decide, by decide, by decide⟩

/-- Left Shift and the letter A. -/
def shiftLetter : List KeyAction := [.press .leftShift, .press (.other letterA)]

theorem tracks_iff_not_overlap_shift :
    (∃ s, Handled (bootDriver [0x2A, 0x1E]) shiftLetter s) ∧
    ∀ s, Handled (bootDriver [0x2A, 0x1E]) shiftLetter s → (Tracks s.modifiers shiftLetter ↔
      ¬ Overlap .leftControl .rightControl shiftLetter ∧ ¬ Overlap .leftAlt .rightAlt shiftLetter) :=
  tracks_iff_not_overlap (alwaysIdle_bootDriver _) (sends_bootDriver [0x2A, 0x1E])

/-- Left Control is held while right Control is pressed and released. -/
def twoControls : List KeyAction := [.press .leftControl, .press .rightControl, .release .rightControl]

theorem typed_twoControls : Typed twoControls := by
  have h0 : Typed [.press .leftControl] := Typed.nil.press rfl
  have h1 : Typed [.press .leftControl, .press .rightControl] := h0.press (by decide)
  exact h1.release (by decide)

/-- **A held key is forgotten**: left Control is held, and its modifier is off. -/
theorem held_control_forgotten : ∃ s,
    Handled (bootDriver (twoControls.flatMap KeyAction.bytes)) twoControls s ∧ Typed twoControls ∧
    held twoControls .leftControl = true ∧ s.modifiers.control = false ∧
    ¬ Tracks s.modifiers twoControls := by
  obtain ⟨s, hs⟩ := exists_handled
    (alwaysIdle_bootDriver (twoControls.flatMap KeyAction.bytes)) twoControls
  have hmods := modifiers_of_handled (alwaysIdle_bootDriver _) (sends_bootDriver _) hs
  have hcontrol : s.modifiers.control = false := by
    rw [hmods]
    rfl
  have hheld : held twoControls .leftControl = true := by decide
  refine ⟨s, hs, typed_twoControls, hheld, hcontrol, fun h => ?_⟩
  have hboth := h.control
  rw [hcontrol, hheld] at hboth
  simp at hboth

end RedFox32.Kernel.Keyboard
