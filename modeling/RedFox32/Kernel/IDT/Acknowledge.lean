import RedFox32.Machine.Nest
import RedFox32.Machine.Runs
import RedFox32.Kernel.IDT.Stub

/-!
# The end of an interrupt

`InterruptHandlerStub` calls a handler and then acknowledges the interrupt: the slave PIC if the number
is 8 or more, and the master PIC.  The number `0x80` of a system call is more than 8 too, so every system
call that comes back from its handler acknowledges an interrupt on both PICs.
-/

namespace RedFox32.Kernel.IDT

open RedFox32.Machine

/-! ### `InterruptHandlerStub` -/

/-- `InterruptHandlers`: the addresses of the handlers, null where there is none. -/
abbrev InterruptHandlers := Fin 17 → Word

/-- `IDT_SYSCALL_INTERRUPT_ID` -/
def idtSyscallInterruptId : Fin 17 := 16

/-- `SetInterruptHandler` -/
def setInterruptHandler (handlers : InterruptHandlers) (ID : Byte) (func : Word) : InterruptHandlers :=
  let handlers :=
    if h : ID.toNat < 16 then Function.update handlers ⟨ID.toNat, by omega⟩ func else handlers
  if ID = 0x80 then Function.update handlers idtSyscallInterruptId func else handlers

/-- What `InterruptHandlerStub` does: it calls a handler, or writes to a port. -/
inductive Action where
  | call (func : Word)
  | outb (port : BitVec 16) (value : Byte)
  deriving DecidableEq

/-- What goes out of a port. -/
def Action.output : Action → Option (BitVec 16 × Byte)
  | call _ => none
  | outb port value => some (port, value)

/-- A call through a pointer that may be null. -/
def callIfSet (func : Word) : List Action := if func ≠ 0 then [.call func] else []

/-- `InterruptHandlerStub` -/
def interruptHandlerStub (handlers : InterruptHandlers) (ID : Byte) : List Action :=
  (if h : ID.toNat < 16 then callIfSet (handlers ⟨ID.toNat, by omega⟩)
    else if ID = 0x80 then callIfSet (handlers idtSyscallInterruptId)
    else []) ++
  ((if 8 ≤ ID.toNat then [.outb 0xA0 0x20] else []) ++ [.outb 0x20 0x20])

/-! ### The PICs -/

/-- The two interrupt controllers. -/
inductive Pic where
  | master
  | slave
  deriving DecidableEq

namespace Pic

/-- The command that ends an interrupt on the controller. -/
def endOfInterrupt : Pic → BitVec 16 × Byte
  | master => (0x20, 0x20)
  | slave => (0xA0, 0x20)

/-- The controller takes part in the interrupt: the master in every hardware interrupt, the slave in
those from 8 on. -/
def serves : Pic → Stub → Bool
  | master, .int _ => true
  | slave, .int n => 8 ≤ n.val
  | _, .intSyscallHandler => false

end Pic

/-- The commands that end an interrupt: one for each controller that takes part in it. -/
def commands (stub : Stub) : List (BitVec 16 × Byte) :=
  ([Pic.slave, Pic.master].filter fun pic => pic.serves stub).map Pic.endOfInterrupt

/-- The commands that `InterruptHandlerStub` sends. -/
def sends : Stub → List (BitVec 16 × Byte)
  | .int n => commands (.int n)
  | .intSyscallHandler => [(0xA0, 0x20), (0x20, 0x20)]

/-! ### Runs of interrupts -/

/-- The handlers, and the calls of `InterruptHandlerStub`. -/
structure Interrupts where
  handlers : InterruptHandlers
  nest : Nest Stub Action (BitVec 16 × Byte)

/-- After `IDT_Setup` no handler is set. -/
def idtSetup : Interrupts := ⟨fun _ => 0, ⟨[], [], []⟩⟩

/-- What can happen. -/
inductive Event where
  | interrupt (stub : Stub)
  | act
  | leave
  | setInterruptHandler (ID : Byte) (func : Word)

/-- An interrupt may come at any time, inside a handler or between two acknowledgements. -/
inductive InterruptStep : Interrupts → Event → Interrupts → Prop
  | interrupt {s : Interrupts} {stub : Stub} {nest : Nest Stub Action (BitVec 16 × Byte)}
      (h : Nest.Step Action.output s.nest
        (.enter stub (interruptHandlerStub s.handlers stub.id)) nest) :
      InterruptStep s (.interrupt stub) { s with nest := nest }
  | act {s : Interrupts} {nest : Nest Stub Action (BitVec 16 × Byte)}
      (h : Nest.Step Action.output s.nest .act nest) : InterruptStep s .act { s with nest := nest }
  | leave {s : Interrupts} {nest : Nest Stub Action (BitVec 16 × Byte)}
      (h : Nest.Step Action.output s.nest .leave nest) : InterruptStep s .leave { s with nest := nest }
  | setInterruptHandler (s : Interrupts) (ID : Byte) (func : Word) :
      InterruptStep s (.setInterruptHandler ID func)
        { s with handlers := setInterruptHandler s.handlers ID func }

/-- The handler of the call has returned, or there is none. -/
def finishing (a : Activation Stub Action) : Bool := a.rest.all fun x => x.output.isSome

/-- Every call that ended has sent the commands of its interrupt, every other call has sent some of
them in order, and no controller has received more than there are calls finishing or finished for it. -/
structure Acknowledged (s : Interrupts) : Prop where
  finished : ∀ a ∈ s.nest.finished, a.sent Action.output = commands a.source
  running : ∀ a ∈ s.nest.stack, a.sent Action.output <+: commands a.source
  count : ∀ pic : Pic, s.nest.log.count pic.endOfInterrupt ≤
    s.nest.all.countP fun a => pic.serves a.source && finishing a

/-- The handler that `InterruptHandlerStub` calls for an interrupt. -/
def handlerOf (handlers : InterruptHandlers) : Stub → Word
  | .int n => handlers n.castSucc
  | .intSyscallHandler => handlers idtSyscallInterruptId

/-- What the events of a run tell: the handlers that are set, and for each call under way, innermost first,
its interrupt and whether its handler was called, or there was none to call. -/
structure Nesting where
  handlers : InterruptHandlers
  calls : List (Stub × Bool)

namespace Nesting

/-- Before the first event. -/
def start : Nesting := ⟨fun _ => 0, []⟩

def next (n : Nesting) : Event → Nesting
  | .interrupt stub => { n with calls := (stub, decide (handlerOf n.handlers stub = 0)) :: n.calls }
  | .act => { n with calls := (n.calls.take 1).map (fun call => (call.1, true)) ++ n.calls.drop 1 }
  | .leave => { n with calls := n.calls.drop 1 }
  | .setInterruptHandler ID func => { n with handlers := IDT.setInterruptHandler n.handlers ID func }

/-- The event takes a system call on after its handler has returned, or without a handler. -/
def GoesOn (n : Nesting) : Event → Prop
  | .act | .leave => n.calls.head? = some (.intSyscallHandler, true)
  | _ => False

/-- **No system call comes back from its handler**: none is taken on after it. -/
def StaysInHandlers : Nesting → List Event → Prop
  | _, [] => True
  | n, e :: es => ¬ n.GoesOn e ∧ StaysInHandlers (n.next e) es

instance (n : Nesting) (e : Event) : Decidable (n.GoesOn e) :=
  match e with
  | .act | .leave => inferInstanceAs (Decidable (n.calls.head? = _))
  | .interrupt _ | .setInterruptHandler _ _ => inferInstanceAs (Decidable False)

instance decStaysInHandlers : (n : Nesting) → (es : List Event) → Decidable (n.StaysInHandlers es)
  | _, [] => inferInstanceAs (Decidable True)
  | n, e :: es => @instDecidableAnd _ _ _ (decStaysInHandlers (n.next e) es)

theorem staysInHandlers_snoc (n : Nesting) (es : List Event) (e : Event) :
    n.StaysInHandlers (es ++ [e]) ↔ n.StaysInHandlers es ∧ ¬ (es.foldl next n).GoesOn e := by
  induction es generalizing n with
  | nil => simp [StaysInHandlers]
  | cons e' es ih =>
    rw [List.cons_append, StaysInHandlers, StaysInHandlers, ih, List.foldl_cons, and_assoc]

end Nesting

/-- The step sends a command for a system call. -/
def AcknowledgesSystemCall (t : Transition Interrupts Event) : Prop :=
  t.label = .act ∧ ∃ past port value rest stack,
    t.pre.nest.stack = ⟨.intSyscallHandler, past, .outb port value :: rest⟩ :: stack

/-! ### One call -/

/-- The body of a call, whatever handlers were set. -/
def IsBody (stub : Stub) (body : List Action) : Prop :=
  ∃ handlers, body = interruptHandlerStub handlers stub.id

theorem callIfSet_output (func : Word) : ∀ x ∈ callIfSet func, x.output = none := by
  intro x hx
  unfold callIfSet at hx
  split_ifs at hx
  · rw [List.mem_singleton] at hx
    rw [hx]
    rfl
  · cases hx

/-- **`InterruptHandlerStub`** calls its handler, if there is one, and then sends its commands. -/
theorem interruptHandlerStub_eq (handlers : InterruptHandlers) (stub : Stub) :
    interruptHandlerStub handlers stub.id =
      callIfSet (handlerOf handlers stub) ++ (sends stub).map fun e => .outb e.1 e.2 := by
  cases stub with
  | int n =>
    have hn : (Stub.int n).id.toNat = n.val := by
      show (BitVec.ofNat 8 n).toNat = n.val
      rw [BitVec.toNat_ofNat]
      omega
    have hlt : (Stub.int n).id.toNat < 16 := by omega
    have hhandler : handlers ⟨(Stub.int n).id.toNat, by omega⟩ = handlerOf handlers (.int n) :=
      congrArg handlers (Fin.ext hn)
    unfold interruptHandlerStub
    rw [dif_pos hlt, hhandler]
    refine congrArg (List.append _) ?_
    rw [hn]
    by_cases h8 : 8 ≤ n.val
    · simp [sends, commands, Pic.serves, Pic.endOfInterrupt, h8]
    · simp [sends, commands, Pic.serves, Pic.endOfInterrupt, h8]
  | intSyscallHandler => rfl

/-- **A call** calls at most a handler, and then sends its commands. -/
theorem IsBody.split {stub : Stub} {body : List Action} (h : IsBody stub body) :
    ∃ calls, (∀ x ∈ calls, x.output = none) ∧
      body = calls ++ (sends stub).map fun e => .outb e.1 e.2 := by
  obtain ⟨handlers, rfl⟩ := h
  exact ⟨_, callIfSet_output _, interruptHandlerStub_eq handlers stub⟩

theorem filterMap_outb (es : List (BitVec 16 × Byte)) :
    (es.map fun e => Action.outb e.1 e.2).filterMap Action.output = es := by
  induction es with
  | nil => rfl
  | cons e es ih => simp [Action.output, ih]

/-- What a call has sent and what it will send are its commands, and it sends nothing before its handler
has returned. -/
theorem IsBody.sent {a : Activation Stub Action} (h : IsBody a.source (a.past ++ a.rest)) :
    a.sent Action.output ++ a.rest.filterMap Action.output = sends a.source ∧
      (a.sent Action.output = [] ∨ finishing a = true) := by
  obtain ⟨calls, hcalls, heq⟩ := h.split
  have hnone : calls.filterMap Action.output = [] := List.filterMap_eq_nil_iff.2 hcalls
  constructor
  · unfold Activation.sent
    rw [← List.filterMap_append, heq, List.filterMap_append, hnone, filterMap_outb, List.nil_append]
  · rcases List.append_eq_append_iff.1 heq with ⟨more, hpast, -⟩ | ⟨more, -, hrest⟩
    · -- only the handler was called so far
      left
      refine List.filterMap_eq_nil_iff.2 fun x hx => hcalls x ?_
      rw [hpast]
      exact List.mem_append_left _ hx
    · right
      refine List.all_eq_true.2 fun x hx => ?_
      have hmem : x ∈ (sends a.source).map fun e => Action.outb e.1 e.2 := by
        rw [hrest]
        exact List.mem_append_right _ hx
      obtain ⟨e, -, rfl⟩ := List.mem_map.1 hmem
      rfl

theorem sends_ne_nil (stub : Stub) : sends stub ≠ [] := by
  cases stub with
  | int n =>
    revert n
    decide
  | intSyscallHandler => decide

/-- Each command goes once to each controller that takes part. -/
theorem count_commands (pic : Pic) (stub : Stub) :
    (commands stub).count pic.endOfInterrupt = if pic.serves stub then 1 else 0 := by
  cases stub with
  | int n =>
    cases pic
    · revert n
      decide
    · revert n
      decide
  | intSyscallHandler => cases pic <;> rfl

/-! ### Every run -/

/-- No system call has sent a command. -/
def Quiet (s : Interrupts) : Prop :=
  ∀ a ∈ s.nest.all, a.source = .intSyscallHandler → a.sent Action.output = []

/-- **With system calls quiet** the acknowledgements are right, and only then. -/
theorem acknowledged_iff_quiet {s : Interrupts} (h : s.nest.Accounted Action.output IsBody) :
    Acknowledged s ↔ Quiet s := by
  constructor
  · rintro ⟨hfin, hrun, -⟩ a ha hsys
    have hnone : commands a.source = [] := by
      rw [hsys]
      rfl
    rcases List.mem_append.1 ha with ha | ha
    · exact (hfin a ha).trans hnone
    · exact List.prefix_nil.1 (hnone ▸ hrun a ha)
  · intro hq
    have hsends : ∀ a ∈ s.nest.all, a.sent Action.output ≠ [] →
        a.sent Action.output ++ a.rest.filterMap Action.output = commands a.source := by
      intro a ha hne
      rw [(h.bodies a ha).sent.1]
      cases hsource : a.source with
      | int n => rfl
      | intSyscallHandler => exact absurd (hq a ha hsource) hne
    have hinit : ∀ a ∈ s.nest.all, a.sent Action.output <+: commands a.source := by
      intro a ha
      by_cases hne : a.sent Action.output = []
      · rw [hne]
        exact List.nil_prefix
      · exact ⟨_, hsends a ha hne⟩
    constructor
    · intro a ha
      have hall : a ∈ s.nest.all := List.mem_append_left _ ha
      have hsent := (h.bodies a hall).sent.1
      rw [h.done a ha, List.filterMap_nil, List.append_nil] at hsent
      have hne : a.sent Action.output ≠ [] := by
        rw [hsent]
        exact sends_ne_nil a.source
      have hcommands := hsends a hall hne
      rwa [h.done a ha, List.filterMap_nil, List.append_nil] at hcommands
    · exact fun a ha => hinit a (List.mem_append_right _ ha)
    · intro pic
      refine h.count_le _ _ fun a ha => ?_
      rcases (h.bodies a ha).sent.2 with hnil | hfin
      · rw [hnil]
        simp
      · rw [hfin, Bool.and_true, ← count_commands]
        exact (hinit a ha).sublist.count_le _

theorem quiet_of_subset {s s' : Interrupts} (hq : Quiet s)
    (hsub : ∀ a ∈ s'.nest.all, a ∈ s.nest.all ∨ a.past = []) : Quiet s' := by
  intro a ha hsys
  rcases hsub a ha with hold | hnew
  · exact hq a hold hsys
  · unfold Activation.sent
    rw [hnew]
    rfl

/-- **One step** keeps the system calls quiet exactly when it sends no command for one. -/
theorem quiet_step_iff {s s' : Interrupts} {e : Event} (hq : Quiet s) (hstep : InterruptStep s e s') :
    Quiet s' ↔ ¬ AcknowledgesSystemCall ⟨s, e, s'⟩ := by
  obtain ⟨handlers, nest⟩ := s
  cases hstep with
  | interrupt h =>
    refine iff_of_true (quiet_of_subset hq fun a ha => ?_) (by rintro ⟨hact, -⟩; cases hact)
    cases h with
    | enter =>
      simp only [Nest.all, List.mem_append, List.mem_cons] at ha ⊢
      rcases ha with ha | rfl | ha
      · exact .inl (.inl ha)
      · exact .inr rfl
      · exact .inl (.inr ha)
  | act h =>
    cases h with
    | @act i past rest x stack finished log =>
      constructor
      · rintro hq' ⟨-, past', port, value, rest', stack', heq⟩
        cases heq
        have hsent := hq' ⟨.intSyscallHandler, past ++ [.outb port value], rest⟩
          (by simp [Nest.all]) rfl
        rw [Activation.sent_append] at hsent
        have hout := (List.append_eq_nil_iff.1 hsent).2
        simp [Action.output] at hout
      · intro hack a ha hsys
        simp only [Nest.all, List.mem_append, List.mem_cons] at ha
        rcases ha with ha | rfl | ha
        · exact hq a (List.mem_append_left _ ha) hsys
        · have hbefore := hq ⟨i, past, x :: rest⟩ (by simp [Nest.all]) hsys
          rw [Activation.sent_append, hbefore]
          cases x with
          | call func => rfl
          | outb port value =>
            cases hsys
            exact absurd ⟨rfl, past, port, value, rest, stack, rfl⟩ hack
        · exact hq a (List.mem_append_right _ (List.mem_cons_of_mem _ ha)) hsys
  | leave h =>
    refine iff_of_true (quiet_of_subset hq fun a ha => ?_) (by rintro ⟨hact, -⟩; cases hact)
    cases h with
    | leave =>
      left
      simpa [Nest.all] using ha
  | setInterruptHandler ID func =>
    exact iff_of_true hq (by rintro ⟨hact, -⟩; cases hact)

theorem accounted_step {s s' : Interrupts} {e : Event}
    (h : s.nest.Accounted Action.output IsBody) (hstep : InterruptStep s e s') :
    s'.nest.Accounted Action.output IsBody := by
  cases hstep with
  | interrupt hn =>
    refine h.step hn ?_
    rintro _ _ ⟨⟩
    exact ⟨_, rfl⟩
  | act hn => exact h.step hn (by rintro _ _ ⟨⟩)
  | leave hn => exact h.step hn (by rintro _ _ ⟨⟩)
  | setInterruptHandler ID func => exact h

theorem accounted_idtSetup : idtSetup.nest.Accounted Action.output IsBody :=
  ⟨by simp [idtSetup, Nest.all], by simp [idtSetup], by simp [idtSetup, Nest.all]⟩

theorem quiet_idtSetup : Quiet idtSetup := by simp [Quiet, idtSetup, Nest.all]

/-- The interrupts of a run are acknowledged as they should be, at every moment, exactly when no step sends a
command for a system call. -/
theorem acknowledged_iff_no_command {tr : List (Transition Interrupts Event)} {s : Interrupts}
    (hrun : Run InterruptStep idtSetup tr s) :
    (∀ t ∈ tr, Acknowledged t.post) ↔ ∀ t ∈ tr, ¬ AcknowledgesSystemCall t := by
  refine hrun.forall_iff (I := fun s => s.nest.Accounted Action.output IsBody ∧ Quiet s)
    ⟨accounted_idtSetup, quiet_idtSetup⟩ ?_ ?_
  · rintro ⟨g, e, g'⟩ ⟨hacc, hq⟩ hstep
    exact (acknowledged_iff_quiet (accounted_step hacc hstep)).trans (quiet_step_iff hq hstep)
  · rintro ⟨g, e, g'⟩ ⟨hacc, hq⟩ hstep hpost
    have hacc' := accounted_step hacc hstep
    exact ⟨hacc', (acknowledged_iff_quiet hacc').1 hpost⟩

/-! ### What the events tell -/

/-- The call is the one that the events tell of: it was entered with some handler, and it is past it exactly
when they say so. -/
structure Tells (a : Activation Stub Action) (call : Stub × Bool) : Prop where
  source : a.source = call.1
  body : ∃ func, a.past ++ a.rest = callIfSet func ++ (sends a.source).map (fun e => .outb e.1 e.2) ∧
    (call.2 = true ↔ func = 0 ∨ a.past ≠ [])

/-- The handlers and the calls under way are those that the events tell of. -/
structure ToldBy (s : Interrupts) (n : Nesting) : Prop where
  handlers : s.handlers = n.handlers
  calls : List.Forall₂ Tells s.nest.stack n.calls

/-- **Past its handler**, and only then, a call goes on with a command. -/
theorem Tells.next_iff {i : Stub} {past rest : List Action} {x : Action} {call : Stub × Bool}
    (h : Tells ⟨i, past, x :: rest⟩ call) : call.2 = true ↔ ∃ port value, x = .outb port value := by
  obtain ⟨-, func, hbody, htold⟩ := h
  dsimp only at hbody htold
  have hcommand : x ∈ (sends i).map (fun e => Action.outb e.1 e.2) → ∃ port value, x = .outb port value := by
    intro hx
    obtain ⟨e, -, rfl⟩ := List.mem_map.1 hx
    exact ⟨_, _, rfl⟩
  rw [htold]
  by_cases hfunc : func = 0
  · have hnone : callIfSet func = [] := if_neg (not_not_intro hfunc)
    rw [hnone, List.nil_append] at hbody
    exact iff_of_true (.inl hfunc) (hcommand (by rw [← hbody]; simp))
  · have hcall : callIfSet func = [.call func] := if_pos hfunc
    rw [hcall, List.singleton_append] at hbody
    cases past with
    | nil =>
      rw [List.nil_append, List.cons.injEq] at hbody
      rw [hbody.1]
      refine iff_of_false ?_ (by rintro ⟨_, _, ⟨⟩⟩)
      simpa using hfunc
    | cons y past =>
      rw [List.cons_append, List.cons.injEq] at hbody
      exact iff_of_true (.inr (List.cons_ne_nil y past)) (hcommand (by rw [← hbody.2]; simp))

/-- **One step** follows the events. -/
theorem ToldBy.step {s s' : Interrupts} {n : Nesting} {e : Event} (h : ToldBy s n)
    (hstep : InterruptStep s e s') : ToldBy s' (n.next e) := by
  obtain ⟨handlers, nest⟩ := s
  obtain ⟨handlers', calls⟩ := n
  obtain ⟨hhandlers, hcalls⟩ := h
  obtain rfl : handlers = handlers' := hhandlers
  cases hstep with
  | @interrupt stub _ hn =>
    cases hn with
    | enter =>
      refine ⟨rfl, .cons ⟨rfl, _, interruptHandlerStub_eq handlers stub, ?_⟩ hcalls⟩
      simp
  | act hn =>
    cases hn with
    | act =>
      cases hcalls with
      | cons htop hrest =>
        obtain ⟨hsource, func, hbody, -⟩ := htop
        refine ⟨rfl, .cons ⟨hsource, func, ?_, ?_⟩ hrest⟩
        · rw [← hbody, List.append_assoc, List.singleton_append]
        · simp
  | leave hn =>
    cases hn with
    | leave =>
      cases hcalls with
      | cons _ hrest => exact ⟨rfl, hrest⟩
  | setInterruptHandler ID func => exact ⟨rfl, hcalls⟩

/-- **Under the invariant a step sends a command for a system call** exactly when it takes one on after its
handler. -/
theorem acknowledgesSystemCall_iff {s s' : Interrupts} {n : Nesting} {e : Event}
    (hacc : s.nest.Accounted Action.output IsBody) (hq : Quiet s) (h : ToldBy s n)
    (hstep : InterruptStep s e s') : AcknowledgesSystemCall ⟨s, e, s'⟩ ↔ n.GoesOn e := by
  obtain ⟨handlers, nest⟩ := s
  obtain ⟨handlers', calls⟩ := n
  have hcalls := h.calls
  cases hstep with
  | interrupt hn => exact iff_of_false (by rintro ⟨hact, -⟩; cases hact) id
  | act hn =>
    cases hn with
    | @act i past rest x stack finished log =>
      cases hcalls with
      | @cons _ call _ told htop hrest =>
        have hnext := htop.next_iff
        obtain ⟨hsource, -⟩ := htop
        obtain ⟨stub, done⟩ := call
        obtain rfl : i = stub := hsource
        constructor
        · rintro ⟨-, past', port, value, rest', stack', heq⟩
          cases heq
          have htrue : done = true := hnext.2 ⟨port, value, rfl⟩
          rw [htrue]
          rfl
        · intro hgoes
          obtain ⟨rfl, rfl⟩ := Prod.mk.inj (Option.some.inj hgoes)
          obtain ⟨port, value, rfl⟩ := hnext.1 rfl
          exact ⟨rfl, past, port, value, rest, stack, rfl⟩
  | leave hn =>
    cases hn with
    | @leave i past stack finished log =>
      refine iff_of_false (by rintro ⟨hact, -⟩; cases hact) fun hgoes => ?_
      cases hcalls with
      | @cons _ call _ told htop hrest =>
        -- a system call that is left has sent its commands
        have hsys : i = .intSyscallHandler :=
          htop.source.trans (congrArg Prod.fst (Option.some.inj hgoes))
        have hmem : (⟨i, past, []⟩ : Activation Stub Action) ∈
            Nest.all (⟨⟨i, past, []⟩ :: stack, finished, log⟩ : Nest Stub Action (BitVec 16 × Byte)) := by
          simp [Nest.all]
        have hsent := (hacc.bodies _ hmem).sent.1
        rw [hq _ hmem hsys] at hsent
        exact sends_ne_nil i hsent.symm
  | setInterruptHandler ID func => exact iff_of_false (by rintro ⟨hact, -⟩; cases hact) id

/-- Along a run without a command for a system call the invariants hold, and the events tell its calls. -/
theorem no_command_iff {tr : List (Transition Interrupts Event)} {s : Interrupts}
    (hrun : Run InterruptStep idtSetup tr s) :
    ((∀ t ∈ tr, ¬ AcknowledgesSystemCall t) ↔ Nesting.start.StaysInHandlers (tr.map Transition.label)) ∧
      s.nest.Accounted Action.output IsBody ∧ ((∀ t ∈ tr, ¬ AcknowledgesSystemCall t) → Quiet s) ∧
        ToldBy s ((tr.map Transition.label).foldl Nesting.next Nesting.start) := by
  induction hrun with
  | nil => exact ⟨by simp [Nesting.StaysInHandlers], accounted_idtSetup, fun _ => quiet_idtSetup, rfl, .nil⟩
  | @snoc tr s s' e _ hstep ih =>
    obtain ⟨hiff, hacc, hquiet, htold⟩ := ih
    have hlast : (∀ t ∈ tr ++ [⟨s, e, s'⟩], ¬ AcknowledgesSystemCall t) ↔
        (∀ t ∈ tr, ¬ AcknowledgesSystemCall t) ∧ ¬ AcknowledgesSystemCall ⟨s, e, s'⟩ := by
      simp only [List.mem_append, List.mem_singleton, or_imp, forall_and, forall_eq]
    rw [List.map_append, List.map_singleton, hlast, Nesting.staysInHandlers_snoc, List.foldl_append]
    refine ⟨?_, accounted_step hacc hstep, fun hno => ?_, htold.step hstep⟩
    · rw [← hiff, and_congr_right_iff]
      exact fun hno => not_congr (acknowledgesSystemCall_iff hacc (hquiet hno) htold hstep)
    · exact (quiet_step_iff (hquiet hno.1) hstep).2 hno.2

/-- **The interrupts of a run are acknowledged** as they should be, at every moment, exactly when no system
call of the run comes back from its handler: there is none, or each has a handler and stays in it. -/
theorem acknowledged_iff {tr : List (Transition Interrupts Event)} {s : Interrupts}
    (hrun : Run InterruptStep idtSetup tr s) :
    (∀ t ∈ tr, Acknowledged t.post) ↔ Nesting.start.StaysInHandlers (tr.map Transition.label) :=
  (acknowledged_iff_no_command hrun).trans (no_command_iff hrun).1

/-- Two handlers: one of the timer and one of the system calls. -/
def twoHandlers : InterruptHandlers :=
  setInterruptHandler (setInterruptHandler (fun _ => 0) 0 0x2000) 0x80 0x1000

/-- The calls under way, those left and the commands, with the two handlers. -/
def among (stack finished : List (Activation Stub Action)) (log : List (BitVec 16 × Byte)) : Interrupts :=
  ⟨twoHandlers, ⟨stack, finished, log⟩⟩

section Among

variable {stack finished : List (Activation Stub Action)} {log : List (BitVec 16 × Byte)} {i : Stub}
  {past rest : List Action} {x : Action}

theorem among_interrupt (i : Stub) (body : List Action) (h : interruptHandlerStub twoHandlers i.id = body) :
    InterruptStep (among stack finished log) (.interrupt i) (among (⟨i, [], body⟩ :: stack) finished log) := by
  subst h
  exact .interrupt (.enter _ _ _)

theorem among_act : InterruptStep (among (⟨i, past, x :: rest⟩ :: stack) finished log) .act
    (among (⟨i, past ++ [x], rest⟩ :: stack) finished (log ++ x.output.toList)) :=
  .act .act

theorem among_leave : InterruptStep (among (⟨i, past, []⟩ :: stack) finished log) .leave
    (among stack (finished ++ [⟨i, past, []⟩]) log) :=
  .leave .leave

end Among

/-- The timer's handler makes a system call, whose handler does not return; in it the clock comes, and the
keyboard between the two commands of the clock. -/
theorem acknowledged_iff_nested : ∃ tr s, Run InterruptStep idtSetup tr s ∧
    tr.map Transition.label = [.setInterruptHandler 0 0x2000, .setInterruptHandler 0x80 0x1000,
      .interrupt (.int 0), .act, .interrupt .intSyscallHandler, .act, .interrupt (.int 8), .act,
      .interrupt (.int 1), .act, .leave, .act, .leave] ∧
    s.nest.log = [(0xA0, 0x20), (0x20, 0x20), (0x20, 0x20)] ∧
    s.nest.stack.map Activation.source = [.intSyscallHandler, .int 0] ∧ ∀ t ∈ tr, Acknowledged t.post := by
  have hset : Run InterruptStep idtSetup _ (among [] [] []) :=
    (Run.nil.snoc (.setInterruptHandler _ 0 0x2000)).snoc (.setInterruptHandler _ 0x80 0x1000)
  have htimer := (hset.snoc (among_interrupt (.int 0) [.call 0x2000, .outb 0x20 0x20]
    (by decide))).snoc among_act
  have hsystemCall := (htimer.snoc (among_interrupt .intSyscallHandler
    [.call 0x1000, .outb 0xA0 0x20, .outb 0x20 0x20] (by decide))).snoc among_act
  have hclock := (hsystemCall.snoc (among_interrupt (.int 8)
    [.outb 0xA0 0x20, .outb 0x20 0x20] (by decide))).snoc among_act
  have hkeyboard := ((hclock.snoc (among_interrupt (.int 1) [.outb 0x20 0x20]
    (by decide))).snoc among_act).snoc among_leave
  have hrun := (hkeyboard.snoc among_act).snoc among_leave
  exact ⟨_, _, hrun, rfl, rfl, rfl, (acknowledged_iff hrun).2 (by decide)⟩

/-- An interrupt that comes first, without a handler. -/
def entered (stub : Stub) : Interrupts :=
  ⟨fun _ => 0, ⟨[⟨stub, [], interruptHandlerStub (fun _ => 0) stub.id⟩], [], []⟩⟩

theorem step_entered (stub : Stub) : InterruptStep idtSetup (.interrupt stub) (entered stub) :=
  .interrupt (.enter _ _ _)

/-- A system call without a handler, after its first command. -/
def systemCallSent : Interrupts :=
  ⟨fun _ => 0, ⟨[⟨.intSyscallHandler, [.outb 0xA0 0x20], [.outb 0x20 0x20]⟩], [], [(0xA0, 0x20)]⟩⟩

/-- **A system call acknowledges an interrupt** that never was. -/
theorem systemCall_acknowledges : ∃ tr s, Run InterruptStep idtSetup tr s ∧
    tr.map Transition.label = [.interrupt .intSyscallHandler, .act] ∧
      ¬ ∀ t ∈ tr, Acknowledged t.post := by
  have hact : InterruptStep (entered .intSyscallHandler) .act systemCallSent := .act .act
  refine ⟨_, _, (Run.nil.snoc (step_entered _)).snoc hact, rfl, fun hall => ?_⟩
  have hpost : Acknowledged systemCallSent :=
    hall _ (List.mem_append_right _ (List.mem_singleton.2 rfl))
  have hcount := hpost.count .slave
  exact absurd hcount (by decide)

end RedFox32.Kernel.IDT
