import RedFox32.Kernel.IDT.Acknowledge
import RedFox32.Kernel.IDT.Table
import RedFox32.Machine.Pic

/-!
# The lines in service

The two controllers under the calls of `InterruptHandlerStub`.  An interrupt only comes when the controllers
accept its line, so the calls that have not ended their interrupts are nested in the order of the
priorities, and the non-specific commands that they send end the interrupts they belong to.
-/

namespace RedFox32.Kernel.IDT

open RedFox32.Machine

/-! ### Calls and lines -/

/-- The line that an interrupt uses on a controller. -/
def Pic.line : Pic → Stub → Option (Fin 8)
  | .master, .int n => some (PicPair.masterLine n)
  | .slave, .int n => PicPair.slaveLine n
  | _, .intSyscallHandler => none

/-- The call has still to end its interrupt on the controller. -/
def Pic.Awaits (pic : Pic) (a : Activation Stub Action) : Prop :=
  pic.endOfInterrupt ∈ a.rest.filterMap Action.output

instance (pic : Pic) (a : Activation Stub Action) : Decidable (pic.Awaits a) := by
  unfold Pic.Awaits
  infer_instance

/-- The lines of the calls that have still to end their interrupts on the controller, innermost first. -/
def pending (pic : Pic) (stack : List (Activation Stub Action)) : List (Fin 8) :=
  stack.flatMap fun a => if pic.Awaits a then (pic.line a.source).toList else []

/-- The controller awaits the end of no interrupt. -/
def NonePending (stack : List (Activation Stub Action)) : Prop := ∀ pic, pending pic stack = []

/-- The system calls are not made by what a hardware interrupt runs before its commands. -/
def CallsOutside : List (Activation Stub Action) → Prop
  | [] => True
  | a :: stack => (a.source = .intSyscallHandler → NonePending stack) ∧ CallsOutside stack

/-- What a call sends: the commands of its own interrupt, or for a system call any ends of interrupts. -/
def EndsInterrupts : Stub → List Action → Prop
  | .int n, body => body.filterMap Action.output = commands (.int n)
  | .intSyscallHandler, body => ∀ e ∈ body.filterMap Action.output, ∃ pic : Pic, e = pic.endOfInterrupt

/-- The calls have sent some of their commands, in order. -/
def Answering (a : Activation Stub Action) : Prop :=
  match a.source with
  | .int n => ∃ sent, sent ++ a.rest.filterMap Action.output = commands (.int n)
  | .intSyscallHandler => EndsInterrupts .intSyscallHandler a.rest

/-- **The lines in service** are those of the calls that have still to end their interrupts. -/
structure InService (stack : List (Activation Stub Action)) (pics : PicPair) : Prop where
  answering : ∀ a ∈ stack, Answering a
  calls : CallsOutside stack
  master : pics.master.Serving (pending .master stack)
  slave : pics.slave.Serving (pending .slave stack)

theorem EndsInterrupts.answering {stub : Stub} {body : List Action} (h : EndsInterrupts stub body) :
    Answering ⟨stub, [], body⟩ := by
  cases stub with
  | int n => exact ⟨[], h⟩
  | intSyscallHandler => exact h

/-- The body of the common function. -/
theorem IsBody.endsInterrupts {stub : Stub} {body : List Action} (h : IsBody stub body) :
    EndsInterrupts stub body := by
  obtain ⟨calls, hcalls, rfl⟩ := h.split
  have hout : (calls ++ (sends stub).map fun e => Action.outb e.1 e.2).filterMap Action.output =
      sends stub := by
    rw [List.filterMap_append, List.filterMap_eq_nil_iff.2 hcalls, filterMap_outb]
    rfl
  cases stub with
  | int n => exact hout
  | intSyscallHandler =>
    intro e he
    rw [hout] at he
    rcases List.mem_cons.1 he with rfl | he
    · exact ⟨.slave, rfl⟩
    · obtain rfl := List.mem_singleton.1 he
      exact ⟨.master, rfl⟩

/-- The commands of an interrupt: the slave's first, if it takes part. -/
theorem commands_int (n : Fin 16) : commands (.int n) =
    if 8 ≤ n.val then [Pic.slave.endOfInterrupt, Pic.master.endOfInterrupt]
    else [Pic.master.endOfInterrupt] := by
  by_cases h : 8 ≤ n.val
  · simp [commands, Pic.serves, h]
  · simp [commands, Pic.serves, h]

theorem endOfInterrupt_ne : Pic.slave.endOfInterrupt ≠ Pic.master.endOfInterrupt := by decide

section Step

variable {stack : List (Activation Stub Action)} {a : Activation Stub Action} {pics : PicPair} {n : Fin 16}
  {past rest : List Action} {x : Action}

theorem pending_cons (pic : Pic) : pending pic (a :: stack) =
    (if pic.Awaits a then (pic.line a.source).toList else []) ++ pending pic stack := rfl

/-- A call is entered for an interrupt that the controllers accept. -/
theorem InService.enter (h : InService stack pics) (hacc : pics.Accepts n) {body : List Action}
    (hbody : EndsInterrupts (.int n) body) :
    InService (⟨.int n, [], body⟩ :: stack) (pics.acknowledge n) := by
  obtain ⟨hanswering, hcalls, hmaster, hslave⟩ := h
  obtain ⟨-, hm, hs⟩ := hacc
  have hawaits : ∀ pic : Pic, pic.Awaits ⟨.int n, [], body⟩ ↔ pic.endOfInterrupt ∈ commands (.int n) := by
    intro pic
    unfold Pic.Awaits
    rw [show body.filterMap Action.output = commands (.int n) from hbody]
  refine ⟨List.forall_mem_cons.2 ⟨hbody.answering, hanswering⟩, ⟨by rintro ⟨⟩, hcalls⟩, ?_, ?_⟩
  · have hin : Pic.master.endOfInterrupt ∈ commands (.int n) := by
      rw [commands_int]
      split_ifs <;> simp
    rw [pending_cons, if_pos ((hawaits .master).2 hin)]
    exact hmaster.acknowledge hm
  · rw [pending_cons]
    by_cases h8 : 8 ≤ n.val
    · have hin : Pic.slave.endOfInterrupt ∈ commands (.int n) := by
        rw [commands_int, if_pos h8]
        simp
      have hline : PicPair.slaveLine n = some ⟨n.val - 8, by omega⟩ := dif_pos h8
      have hnew := hslave.acknowledge (hs _ hline)
      rw [if_pos ((hawaits .slave).2 hin)]
      unfold Pic.line PicPair.acknowledge
      dsimp only
      rw [hline]
      exact hnew
    · have hnot : Pic.slave.endOfInterrupt ∉ commands (.int n) := by
        rw [commands_int, if_neg h8]
        simpa using endOfInterrupt_ne
      have hline : PicPair.slaveLine n = none := dif_neg h8
      rw [if_neg (fun hs => hnot ((hawaits .slave).1 hs))]
      unfold PicPair.acknowledge
      dsimp only
      rw [hline]
      exact hslave

/-- A system call uses no line. -/
theorem pending_systemCall (pic : Pic) : pending pic (⟨.intSyscallHandler, past, rest⟩ :: stack) =
    pending pic stack := by
  rw [pending_cons]
  cases pic <;> simp [Pic.line]

theorem InService.systemCall (h : InService stack pics) (hquiet : NonePending stack) {body : List Action}
    (hbody : EndsInterrupts .intSyscallHandler body) :
    InService (⟨.intSyscallHandler, [], body⟩ :: stack) pics := by
  obtain ⟨hanswering, hcalls, hmaster, hslave⟩ := h
  refine ⟨List.forall_mem_cons.2 ⟨hbody.answering, hanswering⟩, ⟨fun _ => hquiet, hcalls⟩, ?_, ?_⟩
  · rw [pending_systemCall]
    exact hmaster
  · rw [pending_systemCall]
    exact hslave

/-- An action that sends nothing. -/
theorem InService.quiet {i : Stub} (h : InService (⟨i, past, x :: rest⟩ :: stack) pics)
    (hx : x.output = none) : InService (⟨i, past ++ [x], rest⟩ :: stack) pics := by
  obtain ⟨hanswering, hcalls, hmaster, hslave⟩ := h
  have hsame : (x :: rest).filterMap Action.output = rest.filterMap Action.output :=
    List.filterMap_cons_none hx
  have hpending : ∀ pic : Pic, pending pic (⟨i, past, x :: rest⟩ :: stack) =
      pending pic (⟨i, past ++ [x], rest⟩ :: stack) := by
    intro pic
    rw [pending_cons, pending_cons]
    unfold Pic.Awaits
    simp only [hsame]
  obtain ⟨hhead, htail⟩ := List.forall_mem_cons.1 hanswering
  refine ⟨List.forall_mem_cons.2 ⟨?_, htail⟩, hcalls, hpending .master ▸ hmaster,
    hpending .slave ▸ hslave⟩
  unfold Answering EndsInterrupts at hhead ⊢
  dsimp only at hhead ⊢
  rw [hsame] at hhead
  exact hhead

/-- What a call of a hardware interrupt can have left to send when it sends a command. -/
theorem suffix_commands {e : BitVec 16 × Byte} {sent later : List (BitVec 16 × Byte)}
    (h : sent ++ e :: later = commands (.int n)) :
    (e = Pic.master.endOfInterrupt ∧ later = []) ∨
      (e = Pic.slave.endOfInterrupt ∧ later = [Pic.master.endOfInterrupt] ∧ 8 ≤ n.val) := by
  rw [commands_int] at h
  split_ifs at h with h8
  · rcases sent with _ | ⟨s, _ | ⟨t, sent⟩⟩
    · simp only [List.nil_append, List.cons.injEq] at h
      exact .inr ⟨h.1, h.2, h8⟩
    · simp only [List.cons_append, List.nil_append, List.cons.injEq] at h
      exact .inl h.2
    · simp at h
  · rcases sent with _ | ⟨s, sent⟩
    · simp only [List.nil_append, List.cons.injEq] at h
      exact .inl h
    · simp at h

/-- **A command** ends the interrupt of the call that sends it. -/
theorem InService.send {e : BitVec 16 × Byte} (h : InService (⟨.int n, past, x :: rest⟩ :: stack) pics)
    (hx : x.output = some e) : InService (⟨.int n, past ++ [x], rest⟩ :: stack) (pics.out e.1 e.2) := by
  obtain ⟨hanswering, ⟨-, hcalls⟩, hmaster, hslave⟩ := h
  obtain ⟨⟨sent, hsent⟩, htail⟩ := List.forall_mem_cons.1 hanswering
  dsimp only at hsent
  rw [List.filterMap_cons_some hx] at hsent
  have hlater : ∀ a ∈ (⟨.int n, past ++ [x], rest⟩ : Activation Stub Action) :: stack, Answering a :=
    List.forall_mem_cons.2 ⟨⟨sent ++ [e], by simpa using hsent⟩, htail⟩
  have hbefore : ∀ pic : Pic, pic.Awaits ⟨.int n, past, x :: rest⟩ ↔
      pic.endOfInterrupt ∈ e :: rest.filterMap Action.output := by
    intro pic
    unfold Pic.Awaits
    rw [List.filterMap_cons_some hx]
  have hafter : ∀ pic : Pic, pic.Awaits ⟨.int n, past ++ [x], rest⟩ ↔
      pic.endOfInterrupt ∈ rest.filterMap Action.output := fun pic => Iff.rfl
  rw [pending_cons] at hmaster hslave
  simp only [hbefore] at hmaster hslave
  rcases suffix_commands hsent with ⟨rfl, hnil⟩ | ⟨rfl, hone, h8⟩
  · rw [hnil] at hmaster hslave hafter
    rw [if_pos (by simp)] at hmaster
    rw [if_neg (by simpa using endOfInterrupt_ne)] at hslave
    refine ⟨hlater, ⟨by rintro ⟨⟩, hcalls⟩, ?_, ?_⟩
    · rw [pending_cons, if_neg (by simp [hafter])]
      exact hmaster.endOfInterrupt
    · rw [pending_cons, if_neg (by simp [hafter])]
      exact hslave
  · have hline : PicPair.slaveLine n = some ⟨n.val - 8, by omega⟩ := dif_pos h8
    rw [hone] at hmaster hslave hafter
    rw [if_pos (by simp)] at hmaster hslave
    unfold Pic.line at hslave
    dsimp only at hslave
    rw [hline] at hslave
    refine ⟨hlater, ⟨by rintro ⟨⟩, hcalls⟩, ?_, ?_⟩
    · rw [pending_cons, if_pos (by simp [hafter])]
      exact hmaster
    · rw [pending_cons, if_neg (by simpa [hafter] using endOfInterrupt_ne)]
      exact hslave.endOfInterrupt

/-- **A command of a system call** finds nothing to end. -/
theorem InService.send_systemCall {e : BitVec 16 × Byte}
    (h : InService (⟨.intSyscallHandler, past, x :: rest⟩ :: stack) pics) (hx : x.output = some e) :
    (∃ pic : Pic, e = pic.endOfInterrupt) ∧
      InService (⟨.intSyscallHandler, past ++ [x], rest⟩ :: stack) (pics.out e.1 e.2) := by
  obtain ⟨hanswering, ⟨hquiet, hcalls⟩, hmaster, hslave⟩ := h
  obtain ⟨hhead, htail⟩ := List.forall_mem_cons.1 hanswering
  unfold Answering EndsInterrupts at hhead
  dsimp only at hhead
  rw [List.filterMap_cons_some hx] at hhead
  obtain ⟨hown, hlater⟩ := List.forall_mem_cons.1 hhead
  have hnone := hquiet rfl
  rw [pending_systemCall, hnone .master] at hmaster
  rw [pending_systemCall, hnone .slave] at hslave
  refine ⟨hown, List.forall_mem_cons.2 ⟨hlater, htail⟩, ⟨hquiet, hcalls⟩, ?_, ?_⟩
  all_goals
    rw [pending_systemCall, hnone]
    obtain ⟨pic, rfl⟩ := hown
    cases pic
  · exact hmaster.endOfInterrupt_nil
  · exact hmaster
  · exact hslave
  · exact hslave.endOfInterrupt_nil

/-- A call that is left has nothing to send. -/
theorem InService.leave {i : Stub} (h : InService (⟨i, past, []⟩ :: stack) pics) : InService stack pics := by
  have hnone : ∀ pic : Pic, pending pic (⟨i, past, []⟩ :: stack) = pending pic stack := by
    intro pic
    rw [pending_cons, if_neg (by simp [Pic.Awaits])]
    rfl
  obtain ⟨hanswering, ⟨-, hcalls⟩, hmaster, hslave⟩ := h
  refine ⟨(List.forall_mem_cons.1 hanswering).2, hcalls, ?_, ?_⟩
  · rw [← hnone .master]
    exact hmaster
  · rw [← hnone .slave]
    exact hslave

/-- With no call running, no line is in service. -/
theorem InService.free (h : InService [] pics) :
    pics.master.inService = ∅ ∧ pics.slave.inService = ∅ :=
  ⟨h.master.inService, h.slave.inService⟩

/-- Controllers with no line in service. -/
theorem inService_nil (hm : pics.master.inService = ∅) (hs : pics.slave.inService = ∅) :
    InService [] pics :=
  ⟨by simp, trivial, ⟨hm, .nil⟩, ⟨hs, .nil⟩⟩

end Step

/-! ### The board -/

/-- The calls of the common function, the controllers, and the interrupt descriptor table. -/
structure Board where
  nest : Nest Stub Action (BitVec 16 × Byte)
  pics : PicPair
  table : Table

/-- What can happen on the board. -/
inductive BoardEvent where
  | irq (n : Fin 16)
  | systemCall
  | act
  | leave

section Board

variable (entry : Stub → Word) (Body : Stub → List Action → Prop)

/-- A step of the board.  The processor enters the stub whose address the gate gives, for the number that
the controllers gave it; a stub at `entry stub` calls the common function, which does what `Body` says. -/
inductive BoardStep : Board → BoardEvent → Board → Prop
  | irq {b : Board} {n : Fin 16} {stub : Stub} {body : List Action}
      {nest : Nest Stub Action (BitVec 16 × Byte)} (hacc : b.pics.Accepts n)
      (hgate : (b.table (b.pics.vector n).toNat).offset = entry stub) (hbody : Body stub body)
      (h : Nest.Step Action.output b.nest (.enter stub body) nest) :
      BoardStep b (.irq n) { b with nest := nest, pics := b.pics.acknowledge n }
  | systemCall {b : Board} {stub : Stub} {body : List Action}
      {nest : Nest Stub Action (BitVec 16 × Byte)}
      (hgate : (b.table handlerSyscalls.toNat).offset = entry stub) (hbody : Body stub body)
      (h : Nest.Step Action.output b.nest (.enter stub body) nest) :
      BoardStep b .systemCall { b with nest := nest }
  | act {b : Board} {nest : Nest Stub Action (BitVec 16 × Byte)} {es : List (BitVec 16 × Byte)}
      (h : Nest.Step Action.output b.nest .act nest) (hlog : nest.log = b.nest.log ++ es) :
      BoardStep b .act { b with nest := nest, pics := b.pics.outs es }
  | leave {b : Board} {nest : Nest Stub Action (BitVec 16 × Byte)}
      (h : Nest.Step Action.output b.nest .leave nest) : BoardStep b .leave { b with nest := nest }

/-- A system call comes from what a hardware interrupt runs before its commands. -/
def CallsInInterrupt (t : Transition Board BoardEvent) : Prop :=
  t.label = .systemCall ∧ ¬ NonePending t.pre.nest.stack

/-- The gates lead to the stubs: that of each hardware interrupt, and that of the system call. -/
structure Gates (table : Table) : Prop where
  hardware : ∀ n : Fin 16, (table (32 + n)).offset = entry (.int n)
  systemCall : (table handlerSyscalls.toNat).offset = entry .intSyscallHandler

/-- The controllers after an initialisation: they give the numbers from 32 on and mask no line. -/
structure Remapped (p : PicPair) : Prop where
  vector : ∀ n, (p.vector n).toNat = 32 + n.val
  master : p.master.expects = .mask ∧ p.master.mask = 0
  slave : p.slave.expects = .mask ∧ p.slave.mask = 0

/-- What holds on the board at every moment. -/
structure Ordered (b : Board) : Prop where
  gates : Gates entry b.table
  remapped : Remapped b.pics
  inService : InService b.nest.stack b.pics

variable {entry Body}

theorem Remapped.acknowledge {p : PicPair} (h : Remapped p) (n : Fin 16) : Remapped (p.acknowledge n) := by
  obtain ⟨hvector, hm, hs⟩ := h
  have hslave : (p.acknowledge n).slave.base = p.slave.base ∧
      (p.acknowledge n).slave.expects = p.slave.expects ∧ (p.acknowledge n).slave.mask = p.slave.mask := by
    unfold PicPair.acknowledge
    dsimp only
    split <;> exact ⟨rfl, rfl, rfl⟩
  refine ⟨fun m => ?_, hm, ⟨hslave.2.1.trans hs.1, hslave.2.2.trans hs.2⟩⟩
  rw [← hvector m]
  unfold PicPair.vector Pic8259.vector
  rw [hslave.1]
  rfl

theorem endOfInterrupt_rest (c : Pic8259) : c.endOfInterrupt.base = c.base ∧
    c.endOfInterrupt.expects = c.expects ∧ c.endOfInterrupt.mask = c.mask := by
  unfold Pic8259.endOfInterrupt
  split <;> exact ⟨rfl, rfl, rfl⟩

/-- The commands that end interrupts leave the rest of the controllers alone. -/
theorem Remapped.out {p : PicPair} (h : Remapped p) (pic : Pic) :
    Remapped (p.out pic.endOfInterrupt.1 pic.endOfInterrupt.2) := by
  obtain ⟨hvector, hm, hs⟩ := h
  cases pic with
  | master =>
    obtain ⟨hbase, hexpects, hmask⟩ := endOfInterrupt_rest p.master
    refine ⟨fun n => ?_, ⟨hexpects.trans hm.1, hmask.trans hm.2⟩, hs⟩
    rw [← hvector n]
    show (PicPair.vector ⟨p.master.endOfInterrupt, p.slave⟩ n).toNat = _
    unfold PicPair.vector Pic8259.vector
    rw [hbase]
  | slave =>
    obtain ⟨hbase, hexpects, hmask⟩ := endOfInterrupt_rest p.slave
    refine ⟨fun n => ?_, hm, ⟨hexpects.trans hs.1, hmask.trans hs.2⟩⟩
    rw [← hvector n]
    show (PicPair.vector ⟨p.master, p.slave.endOfInterrupt⟩ n).toNat = _
    unfold PicPair.vector Pic8259.vector
    rw [hbase]

/-- **One step** keeps the order, unless it is a system call inside an interrupt; and an interrupt enters its
own stub. -/
theorem Ordered.step {b b' : Board} {e : BoardEvent} (hentry : Function.Injective entry)
    (hends : ∀ stub body, Body stub body → EndsInterrupts stub body) (h : Ordered entry b)
    (hstep : BoardStep entry Body b e b') (hcall : ¬ CallsInInterrupt ⟨b, e, b'⟩) :
    Ordered entry b' ∧
      ∀ n, e = .irq n → ∃ body, b'.nest.stack = ⟨.int n, [], body⟩ :: b.nest.stack := by
  obtain ⟨hgates, hremapped, hin⟩ := h
  obtain ⟨before, pics, table⟩ := b
  cases hstep with
  | @irq n stub body nest hacc hgate hbody hn =>
    rw [hremapped.vector, hgates.hardware] at hgate
    obtain rfl := hentry hgate
    cases hn
    refine ⟨⟨hgates, hremapped.acknowledge n, hin.enter hacc (hends _ body hbody)⟩, ?_⟩
    rintro m ⟨⟩
    exact ⟨body, rfl⟩
  | @systemCall stub body nest hgate hbody hn =>
    rw [hgates.systemCall] at hgate
    obtain rfl := hentry hgate
    cases hn
    have hquiet : NonePending before.stack := by
      by_contra hnot
      exact hcall ⟨rfl, hnot⟩
    refine ⟨⟨hgates, hremapped, hin.systemCall hquiet (hends _ body hbody)⟩, ?_⟩
    rintro m ⟨⟩
  | @act nest es hn hlog =>
    refine ⟨?_, by rintro m ⟨⟩⟩
    cases hn with
    | @act i past rest x stack finished log =>
      obtain rfl := List.append_cancel_left hlog
      cases hx : x.output with
      | none => exact ⟨hgates, hremapped, hin.quiet hx⟩
      | some out =>
        cases i with
        | int n =>
          obtain ⟨sent, hsent⟩ := hin.answering _ List.mem_cons_self
          dsimp only at hsent
          rw [List.filterMap_cons_some hx] at hsent
          refine ⟨hgates, ?_, hin.send hx⟩
          rcases suffix_commands hsent with ⟨rfl, -⟩ | ⟨rfl, -, -⟩
          · exact hremapped.out .master
          · exact hremapped.out .slave
        | intSyscallHandler =>
          obtain ⟨⟨pic, rfl⟩, hnext⟩ := hin.send_systemCall hx
          exact ⟨hgates, hremapped.out pic, hnext⟩
  | leave hn =>
    refine ⟨?_, by rintro m ⟨⟩⟩
    cases hn with
    | leave => exact ⟨hgates, hremapped, hin.leave⟩

/-- **Every run** keeps the order, as long as no system call comes inside an interrupt. -/
theorem run_ordered {init b : Board} {tr : List (Transition Board BoardEvent)}
    (hentry : Function.Injective entry) (hends : ∀ stub body, Body stub body → EndsInterrupts stub body)
    (h0 : Ordered entry init) (hrun : Run (BoardStep entry Body) init tr b)
    (hcalls : ∀ t ∈ tr, ¬ CallsInInterrupt t) :
    Ordered entry b ∧ ∀ t ∈ tr, ∀ n, t.label = .irq n →
      ∃ body, t.post.nest.stack = ⟨.int n, [], body⟩ :: t.pre.nest.stack := by
  obtain ⟨hb, hall⟩ := hrun.invariant (C := fun t => ¬ CallsInInterrupt t) h0
    (fun t hpre hstep hq => (hpre.step hentry hends hstep hq).1) hcalls
  exact ⟨hb, fun t ht => ((hall t ht).1.step hentry hends (hrun.step_of_mem ht) (hcalls t ht)).2⟩

/-- When no call runs, every line with a device is accepted. -/
theorem Ordered.accepts {b : Board} (h : Ordered entry b) (hnil : b.nest.stack = []) {n : Fin 16}
    (hn : n.val ≠ 2) : b.pics.Accepts n := by
  obtain ⟨-, hremapped, hin⟩ := h
  rw [hnil] at hin
  obtain ⟨hm, hs⟩ := hin.free
  refine ⟨hn, ⟨hremapped.master.1, by simp [hremapped.master.2], by simp [hm]⟩, fun line _ => ?_⟩
  exact ⟨hremapped.slave.1, by simp [hremapped.slave.2], by simp [hs]⟩

end Board

/-! ### `IDT_Setup` -/

/-- `IDT_InitializePIC` -/
def idtInitializePIC : List (BitVec 16 × Byte) :=
  [(0x20, 0x11), (0xA0, 0x11), (0x21, 0x20), (0xA1, 0x28), (0x21, 0x04), (0xA1, 0x02), (0x21, 0x01),
    (0xA1, 0x01), (0x21, 0x00), (0xA1, 0x00)]

/-- Whatever the controllers were doing. -/
theorem remapped_initializePIC (p : PicPair) : Remapped (p.outs idtInitializePIC) := by
  refine ⟨fun n => ?_, ⟨rfl, rfl⟩, ⟨rfl, rfl⟩⟩
  have hm : (p.outs idtInitializePIC).master.base = 0x20 := rfl
  have hs : (p.outs idtInitializePIC).slave.base = 0x28 := rfl
  unfold PicPair.vector Pic8259.vector PicPair.slaveLine PicPair.masterLine
  rw [hm, hs]
  revert n
  decide

/-- The board after `IDT_Setup`, with the stubs at their addresses. -/
def idtSetupBoard (entry : Stub → Word) (idt : Word) (table : Table) (pics : PicPair) : Board where
  nest := idtSetup.nest
  pics := pics.outs idtInitializePIC
  table := idtSetupTable idt (fun n => entry (.int n)) (entry .intSyscallHandler) table

section Setup

variable {entry : Stub → Word} {idt : Word} {table : Table} {pics : PicPair} {b : Board}
  {tr : List (Transition Board BoardEvent)}

theorem ordered_setup (hlow : ∀ stub, (entry stub).toNat < 0x10000) (hm : pics.master.inService = ∅)
    (hs : pics.slave.inService = ∅) : Ordered entry (idtSetupBoard entry idt table pics) := by
  have hgate : ∀ func : Word, func.toNat < 0x10000 → (lowGate func).offset = func := by
    intro func hfunc
    have hhigh := (extract_high_eq_zero func).2 hfunc
    unfold IDTEntry.offset lowGate
    ext i hi
    have hbit : func.getLsbD i = if i < 16 then func.getLsbD i else false := by
      split_ifs with h16
      · rfl
      · have hext := congrArg (fun v : BitVec 16 => v.getLsbD (i - 16)) hhigh
        simpa [show 16 + (i - 16) = i by omega, show i - 16 < 16 by omega] using hext
    simp only [BitVec.getElem_append]
    rw [← BitVec.getLsbD_eq_getElem, hbit]
    split_ifs with h16
    · simp
    · simp
  refine ⟨⟨fun n => ?_, ?_⟩, remapped_initializePIC pics, inService_nil hm hs⟩
  · unfold idtSetupBoard
    dsimp only
    rw [idtSetupTable_hardware]
    exact hgate _ (hlow _)
  · unfold idtSetupBoard idtSetupTable
    dsimp only
    rw [setInterruptEntry_eq _ (by decide), Function.update_self]
    exact hgate _ (hlow _)

/-- **The lines in service in every run** after `IDT_Setup`, whatever the controllers did before: as long
as no system call comes inside an interrupt, each interrupt enters its own stub, the lines in service are those of
the calls that have still to end their interrupts, in the order of their priorities, and when no call runs
every line is accepted again. -/
theorem lines_in_service (hentry : Function.Injective entry) (hlow : ∀ stub, (entry stub).toNat < 0x10000)
    (hm : pics.master.inService = ∅) (hs : pics.slave.inService = ∅)
    (hrun : Run (BoardStep entry IsBody) (idtSetupBoard entry idt table pics) tr b)
    (hcalls : ∀ t ∈ tr, ¬ CallsInInterrupt t) :
    (∀ t ∈ tr, ∀ n, t.label = .irq n →
      ∃ body, t.post.nest.stack = ⟨.int n, [], body⟩ :: t.pre.nest.stack) ∧
      b.pics.master.Serving (pending .master b.nest.stack) ∧
      b.pics.slave.Serving (pending .slave b.nest.stack) ∧
      (b.nest.stack = [] → ∀ n : Fin 16, n.val ≠ 2 → b.pics.Accepts n) := by
  obtain ⟨hb, hall⟩ := run_ordered hentry (fun stub body hbody => hbody.endsInterrupts)
    (ordered_setup hlow hm hs) hrun hcalls
  exact ⟨hall, hb.inService.master, hb.inService.slave, fun hnil n hn => hb.accepts hnil hn⟩

end Setup

/-! ### A timer inside a clock -/

/-- Stubs of 16 bytes from `0x3000` on. -/
def sampleEntry : Stub → Word
  | .int n => BitVec.ofNat 32 (0x3000 + 16 * n.val)
  | .intSyscallHandler => 0x3100

theorem sampleEntry_toNat (stub : Stub) : (sampleEntry stub).toNat =
    match stub with
    | .int n => 0x3000 + 16 * n.val
    | .intSyscallHandler => 0x3100 := by
  cases stub with
  | int n =>
    show (BitVec.ofNat 32 (0x3000 + 16 * n.val)).toNat = 0x3000 + 16 * n.val
    rw [BitVec.toNat_ofNat]
    omega
  | intSyscallHandler => rfl

theorem sampleEntry_injective : Function.Injective sampleEntry := by
  intro a b hab
  have h := congrArg BitVec.toNat hab
  rw [sampleEntry_toNat, sampleEntry_toNat] at h
  cases a with
  | int n =>
    cases b with
    | int m =>
      dsimp only at h
      rw [show n = m by omega]
    | intSyscallHandler =>
      dsimp only at h
      omega
  | intSyscallHandler =>
    cases b with
    | int m =>
      dsimp only at h
      omega
    | intSyscallHandler => rfl

theorem sampleEntry_low (stub : Stub) : (sampleEntry stub).toNat < 0x10000 := by
  rw [sampleEntry_toNat]
  cases stub with
  | int n =>
    dsimp only
    omega
  | intSyscallHandler => decide

/-- Controllers that nobody has initialised. -/
def coldPics : PicPair := ⟨⟨.mask, 0, 0, 0, 0xFF, ∅⟩, ⟨.icw2 false true, 0, 0, 0, 0xFF, ∅⟩⟩

/-- The board with some calls. -/
def sampleBoard (stack finished : List (Activation Stub Action)) (log : List (BitVec 16 × Byte))
    (pics : PicPair) : Board :=
  ⟨⟨stack, finished, log⟩, pics, (idtSetupBoard sampleEntry 0x9000 (fun _ => nullEntry) coldPics).table⟩

section Sample

variable {stack finished : List (Activation Stub Action)} {log : List (BitVec 16 × Byte)} {pics : PicPair}
  {i : Stub} {past rest : List Action} {x : Action}

/-- An interrupt without a handler. -/
theorem sample_irq (h : Ordered sampleEntry (sampleBoard stack finished log pics)) (n : Fin 16)
    (hacc : pics.Accepts n) (body : List Action)
    (hbody : interruptHandlerStub (fun _ => 0) (Stub.int n).id = body) :
    let b := sampleBoard (⟨.int n, [], body⟩ :: stack) finished log (pics.acknowledge n)
    BoardStep sampleEntry IsBody (sampleBoard stack finished log pics) (.irq n) b ∧ Ordered sampleEntry b := by
  subst hbody
  have hgate : ((sampleBoard stack finished log pics).table (pics.vector n).toNat).offset =
      sampleEntry (.int n) := by
    have hvector : (pics.vector n).toNat = 32 + n.val := h.remapped.vector n
    rw [hvector]
    exact h.gates.hardware n
  have hstep : BoardStep sampleEntry IsBody (sampleBoard stack finished log pics) (.irq n)
      (sampleBoard (⟨.int n, [], interruptHandlerStub (fun _ => 0) (Stub.int n).id⟩ :: stack) finished log
        (pics.acknowledge n)) :=
    .irq hacc hgate ⟨fun _ => 0, rfl⟩ (.enter _ _ _)
  exact ⟨hstep, (h.step sampleEntry_injective (fun _ _ hbody => hbody.endsInterrupts) hstep
    (by rintro ⟨⟨⟩, -⟩)).1⟩

theorem sample_act (h : Ordered sampleEntry (sampleBoard (⟨i, past, x :: rest⟩ :: stack) finished log pics)) :
    let b := sampleBoard (⟨i, past ++ [x], rest⟩ :: stack) finished (log ++ x.output.toList)
      (pics.outs x.output.toList)
    BoardStep sampleEntry IsBody (sampleBoard (⟨i, past, x :: rest⟩ :: stack) finished log pics) .act b ∧
      Ordered sampleEntry b := by
  have hstep : BoardStep sampleEntry IsBody (sampleBoard (⟨i, past, x :: rest⟩ :: stack) finished log pics)
      .act (sampleBoard (⟨i, past ++ [x], rest⟩ :: stack) finished (log ++ x.output.toList)
        (pics.outs x.output.toList)) := .act .act rfl
  exact ⟨hstep, (h.step sampleEntry_injective (fun _ _ hbody => hbody.endsInterrupts) hstep
    (by rintro ⟨⟨⟩, -⟩)).1⟩

theorem sample_leave (h : Ordered sampleEntry (sampleBoard (⟨i, past, []⟩ :: stack) finished log pics)) :
    let b := sampleBoard stack (finished ++ [⟨i, past, []⟩]) log pics
    BoardStep sampleEntry IsBody (sampleBoard (⟨i, past, []⟩ :: stack) finished log pics) .leave b ∧
      Ordered sampleEntry b := by
  have hstep : BoardStep sampleEntry IsBody (sampleBoard (⟨i, past, []⟩ :: stack) finished log pics) .leave
      (sampleBoard stack (finished ++ [⟨i, past, []⟩]) log pics) := .leave .leave
  exact ⟨hstep, (h.step sampleEntry_injective (fun _ _ hbody => hbody.endsInterrupts) hstep
    (by rintro ⟨⟨⟩, -⟩)).1⟩

end Sample

/-- The clock of the slave comes, and the timer before it is acknowledged.  Both end, the timer first, and the
keyboard is accepted. -/
theorem lines_in_service_clock : ∃ tr b,
    Run (BoardStep sampleEntry IsBody) (idtSetupBoard sampleEntry 0x9000 (fun _ => nullEntry) coldPics) tr b ∧
    tr.map Transition.label = [.irq 8, .irq 0, .act, .leave, .act, .act, .leave, .irq 1] ∧
    tr.map (fun t => (pending .master t.post.nest.stack, pending .slave t.post.nest.stack)) =
      [([2], [0]), ([0, 2], [0]), ([2], [0]), ([2], [0]), ([2], []), ([], []), ([], []), ([1], [])] ∧
    (∀ t ∈ tr, ∀ n, t.label = .irq n →
      ∃ body, t.post.nest.stack = ⟨.int n, [], body⟩ :: t.pre.nest.stack) ∧
    b.pics.master.Serving (pending .master b.nest.stack) ∧
    b.pics.slave.Serving (pending .slave b.nest.stack) ∧
    (b.nest.stack = [] → ∀ n : Fin 16, n.val ≠ 2 → b.pics.Accepts n) := by
  have h0 : Ordered sampleEntry (sampleBoard [] [] [] (coldPics.outs idtInitializePIC)) :=
    ordered_setup sampleEntry_low rfl rfl
  obtain ⟨s1, h1⟩ := sample_irq h0 8 (h0.accepts rfl (by decide)) [.outb 0xA0 0x20, .outb 0x20 0x20]
    (by decide)
  have hacc : ((coldPics.outs idtInitializePIC).acknowledge 8).Accepts 0 :=
    ⟨by decide, ⟨rfl, rfl, by decide⟩, fun line hline => by cases hline⟩
  obtain ⟨s2, h2⟩ := sample_irq h1 0 hacc [.outb 0x20 0x20] (by decide)
  obtain ⟨s3, h3⟩ := sample_act h2
  obtain ⟨s4, h4⟩ := sample_leave h3
  obtain ⟨s5, h5⟩ := sample_act h4
  obtain ⟨s6, h6⟩ := sample_act h5
  obtain ⟨s7, h7⟩ := sample_leave h6
  obtain ⟨s8, -⟩ := sample_irq h7 1 (h7.accepts rfl (by decide)) [.outb 0x20 0x20] (by decide)
  have hrun := (((((((Run.nil.snoc s1).snoc s2).snoc s3).snoc s4).snoc s5).snoc s6).snoc s7).snoc s8
  exact ⟨_, _, hrun, rfl, by decide, lines_in_service sampleEntry_injective sampleEntry_low rfl rfl hrun
    (by simp [CallsInInterrupt])⟩

end RedFox32.Kernel.IDT
