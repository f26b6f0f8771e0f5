import RedFox32.Machine.Bytes
import RedFox32.Machine.Runs

/-!
The system calls of the second stage.  `int 0x80` calls the address that the table `Syscalls` has for `EAX`,
unless it is null; the first two calls store an address, in `Syscalls` and in `InterruptHandlers`.  All
indices come from the registers of the caller.
-/

namespace RedFox32.Old.Syscall

open RedFox32.Machine RedFox32.Machine.Mem

/-! ### The tables and the functions -/

/-- `sizeof(Syscalls)` -/
def sizeofSyscalls : ℕ := 4 * 0x256

/-- `sizeof(InterruptHandlers)` -/
def sizeofInterruptHandlers : ℕ := 4 * 16

/-- Where the tables and the two functions lie. -/
structure Layout where
  syscalls : Word
  interruptHandlers : Word
  sysRegisterSyscall : Word
  sysRegisterInterruptHandler : Word
  tables_apart : Apart syscalls sizeofSyscalls interruptHandlers sizeofInterruptHandlers
  registerSyscall_ne : sysRegisterSyscall ≠ 0
  registerInterruptHandler_ne : sysRegisterInterruptHandler ≠ 0
  functions_ne : sysRegisterSyscall ≠ sysRegisterInterruptHandler

/-- `struct Registers32` -/
structure Registers32 where
  edi : Word
  esi : Word
  ebp : Word
  esp : Word
  ebx : Word
  edx : Word
  ecx : Word
  eax : Word

/-- The memory, the texts on the screen with their colours, and the interrupt flag; and, to speak of it, the
address that was stored last for each number of a system call. -/
structure State where
  mem : Mem
  console : List (String × Byte)
  interrupts : Bool
  stored : Word → Option Word

namespace State

/-- `puts` -/
def puts (s : State) (text : String) (colour : Byte) : State :=
  { s with console := s.console ++ [(text, colour)] }

variable (L : Layout)

/-- `Syscalls[id] = position` -/
def setSyscall (id position : Word) (s : State) : State :=
  { s with
    mem := s.mem.store32 (L.syscalls + 4 * id) position
    stored := Function.update s.stored id (some position) }

/-- `InterruptHandlers[id] = position` -/
def setInterruptHandler (id position : Word) (s : State) : State :=
  { s with mem := s.mem.store32 (L.interruptHandlers + 4 * id) position }

/-- `Syscalls[eax]` -/
def syscall (s : State) (eax : Word) : Word := s.mem.load32 (L.syscalls + 4 * eax)

end State

section Functions

variable (L : Layout)

/-- `Syscalls_Initialize`; what is stored counts from here on. -/
def syscallsInitialize (s : State) : State :=
  let s := { s with stored := fun _ => none }.puts
    ("Setup default syscalls:\n" ++ "    0=SYS_RegisterSyscall\n" ++
      "    1=SYS_RegisterInterruptHandler\n") 0x0B
  let s := s.setSyscall L 0 L.sysRegisterSyscall
  let s := s.setSyscall L 1 L.sysRegisterInterruptHandler
  (List.range' 2 (0xFF - 2)).foldl (fun s i => s.setSyscall L (BitVec.ofNat 32 i) 0) s

/-- `SYS_RegisterSyscall` -/
def sysRegisterSyscall (regs : Registers32) (s : State) : State := s.setSyscall L regs.ebx regs.edx

/-- `SYS_RegisterInterruptHandler` -/
def sysRegisterInterruptHandler (regs : Registers32) (s : State) : State :=
  let s := { s with interrupts := false }
  let s := s.setInterruptHandler L regs.ebx regs.edx
  { s with interrupts := true }

/-- `IntSyscall_Handler`; a function other than the two leaves the memory `after`. -/
def intSyscallHandler (regs : Registers32) (after : Mem) (s : State) : State :=
  if s.syscall L regs.eax ≠ 0 then
    if s.syscall L regs.eax = L.sysRegisterSyscall then sysRegisterSyscall L regs s
    else if s.syscall L regs.eax = L.sysRegisterInterruptHandler then
      sysRegisterInterruptHandler L regs s
    else { s with mem := after }
  else s

/-- `IntSyscall`: the gate clears the interrupt flag, and `iret` restores it. -/
def intSyscall (regs : Registers32) (after : Mem) (s : State) : State :=
  { intSyscallHandler L regs after { s with interrupts := false } with interrupts := s.interrupts }

end Functions

/-! ### Runs -/

/-- What happens: `int 0x80`, or other code that leaves the memory and the interrupt flag. -/
inductive Act where
  | int80 (regs : Registers32) (after : Mem)
  | code (after : Mem) (interrupts : Bool)

/-- The memory that other code leaves. -/
def Act.after : Act → Mem
  | int80 _ after => after
  | code after _ => after

/-- The state after an act. -/
def next (L : Layout) : Act → State → State
  | .int80 regs after, s => intSyscall L regs after s
  | .code after interrupts, s => { s with mem := after, interrupts := interrupts }

/-- The two memories have the same tables. -/
def KeepsTables (L : Layout) (m m' : Mem) : Prop :=
  SameBytes m L.syscalls m' L.syscalls sizeofSyscalls ∧
    SameBytes m L.interruptHandlers m' L.interruptHandlers sizeofInterruptHandlers

/-- A step of the system: only the two functions write to the tables. -/
def SyscallStep (L : Layout) (s : State) (a : Act) (s' : State) : Prop :=
  KeepsTables L s.mem a.after ∧ s' = next L a s

/-! ### Staying inside the tables -/

section Property

variable (L : Layout)

/-- The address that `IntSyscall_Handler` calls. -/
def called (s : State) (eax : Word) : Option Word :=
  if s.syscall L eax = 0 then none else some (s.syscall L eax)

/-- **A system call stays inside the tables**: the address that is called is the one stored for exactly this
number, and the two functions store inside their tables. -/
structure SafeCall (regs : Registers32) (s s' : State) : Prop where
  dispatch : ∀ F, called L s regs.eax = some F → s.stored regs.eax = some F
  syscalls : called L s regs.eax = some L.sysRegisterSyscall →
    4 * regs.ebx.toNat + 4 ≤ sizeofSyscalls ∧ ChangesOnly L.syscalls sizeofSyscalls s.mem s'.mem
  handlers : called L s regs.eax = some L.sysRegisterInterruptHandler →
    4 * regs.ebx.toNat + 4 ≤ sizeofInterruptHandlers ∧
      ChangesOnly L.interruptHandlers sizeofInterruptHandlers s.mem s'.mem

/-- **In range**: a number that is not null in the table has been stored, and an index for one of the two
functions is one of its table. -/
structure InRange (regs : Registers32) (s : State) : Prop where
  known : s.syscall L regs.eax ≠ 0 → (s.stored regs.eax).isSome
  syscalls : s.syscall L regs.eax = L.sysRegisterSyscall → regs.ebx.toNat < 0x256
  handlers : s.syscall L regs.eax = L.sysRegisterInterruptHandler → regs.ebx.toNat < 16

/-- A transition whose system call, if it is one, stays inside the tables. -/
def Safe (t : Transition State Act) : Prop :=
  match t.label with
  | .int80 regs _ => SafeCall L regs t.pre t.post
  | .code _ _ => True

/-- A transition whose system call, if it is one, is in range. -/
def Ranged (t : Transition State Act) : Prop :=
  match t.label with
  | .int80 regs _ => InRange L regs t.pre
  | .code _ _ => True

/-- The table has what was stored: nothing was stored behind its end, and every number has its address. -/
def Exact (s : State) : Prop :=
  ∀ id F, s.stored id = some F → id.toNat < 0x256 ∧ s.syscall L id = F

end Property

section Tables

variable {L : Layout} {s : State} {id id' position : Word}

theorem setSyscall_self : (s.setSyscall L id position).syscall L id = position :=
  load32_store32_self position

theorem setSyscall_of_ne (hid : id.toNat < 0x256) (hid' : id'.toNat < 0x256) (hne : id' ≠ id) :
    (s.setSyscall L id position).syscall L id' = s.syscall L id' := by
  refine load32_store_of_apart ?_
  unfold Apart
  constructor <;> bv_omega

theorem setSyscall_changes (hid : id.toNat < 0x256) :
    ChangesOnly L.syscalls sizeofSyscalls s.mem (s.setSyscall L id position).mem := by
  have hplace : L.syscalls + 4 * id = L.syscalls + BitVec.ofNat 32 (4 * id.toNat) := by bv_omega
  unfold State.setSyscall store32
  dsimp only
  rw [hplace]
  exact ChangesOnly.refl.store (by unfold sizeofSyscalls; omega) (by omega)

theorem setInterruptHandler_changes (hid : id.toNat < 16) :
    ChangesOnly L.interruptHandlers sizeofInterruptHandlers s.mem
      (s.setInterruptHandler L id position).mem := by
  have hplace : L.interruptHandlers + 4 * id =
      L.interruptHandlers + BitVec.ofNat 32 (4 * id.toNat) := by bv_omega
  unfold State.setInterruptHandler store32
  dsimp only
  rw [hplace]
  exact ChangesOnly.refl.store (by unfold sizeofInterruptHandlers; omega) (by omega)

/-- A number of the table is stored. -/
theorem Exact.setSyscall (h : Exact L s) (hid : id.toNat < 0x256) :
    Exact L (s.setSyscall L id position) := by
  intro id' F hstored
  by_cases heq : id' = id
  · subst heq
    have hF : some position = some F := by simpa [State.setSyscall] using hstored
    exact ⟨hid, setSyscall_self.trans (Option.some.inj hF)⟩
  · have hold : s.stored id' = some F := by simpa [State.setSyscall, heq] using hstored
    obtain ⟨hid', hentry⟩ := h id' F hold
    exact ⟨hid', (setSyscall_of_ne hid hid' heq).trans hentry⟩

/-- What keeps the bytes of the table keeps the addresses. -/
theorem Exact.of_sameBytes {s' : State} (h : Exact L s) (hstored : s'.stored = s.stored)
    (hsame : SameBytes s.mem L.syscalls s'.mem L.syscalls sizeofSyscalls) : Exact L s' := by
  intro id F hF
  rw [hstored] at hF
  obtain ⟨hid, hentry⟩ := h id F hF
  refine ⟨hid, (load32_congr fun i hi => ?_).trans hentry⟩
  have hplace : L.syscalls + 4 * id + BitVec.ofNat 32 i =
      L.syscalls + BitVec.ofNat 32 (4 * id.toNat + i) := by bv_omega
  rw [hplace]
  exact hsame _ (by unfold sizeofSyscalls; omega)

/-- The loop over the numbers that have no function yet. -/
theorem stored_zeros (is : List ℕ) (s : State) :
    (is.foldl (fun s i => s.setSyscall L (BitVec.ofNat 32 i) 0) s).stored =
      is.foldl (fun c i => Function.update c (BitVec.ofNat 32 i) (some 0)) s.stored := by
  refine (List.foldl_hom State.stored fun s i => ?_).symm
  rfl

/-- What the initialisation stores: the two functions, and null up to the number `0xFE`. -/
theorem stored_initialized (L : Layout) (s : State) (id : Word) :
    (syscallsInitialize L s).stored id =
      if id = 0 then some L.sysRegisterSyscall
      else if id = 1 then some L.sysRegisterInterruptHandler
      else if id.toNat < 0xFF then some 0 else none := by
  have hzeros : (∃ i ∈ List.range' 2 (0xFF - 2), BitVec.ofNat 32 i = id) ↔
      2 ≤ id.toNat ∧ id.toNat < 0xFF := by
    constructor
    · rintro ⟨i, hi, rfl⟩
      obtain ⟨hle, hlt⟩ := List.mem_range'_1.1 hi
      rw [BitVec.toNat_ofNat]
      omega
    · rintro ⟨hle, hlt⟩
      exact ⟨id.toNat, List.mem_range'_1.2 ⟨hle, by omega⟩, by simp⟩
  unfold syscallsInitialize
  dsimp only
  rw [stored_zeros]
  by_cases hmem : ∃ i ∈ List.range' 2 (0xFF - 2), BitVec.ofNat 32 i = id
  · obtain ⟨hle, hlt⟩ := hzeros.1 hmem
    rw [copy_same hmem fun _ _ _ => rfl, if_neg (by bv_omega), if_neg (by bv_omega), if_pos hlt]
  · have houtside : ∀ i ∈ List.range' 2 (0xFF - 2), BitVec.ofNat 32 i ≠ id :=
      fun i hi heq => hmem ⟨i, hi, heq⟩
    rw [hzeros] at hmem
    rw [copy_outside houtside]
    show Function.update (Function.update (fun _ => none) 0 _) 1 _ id = _
    by_cases h1 : id = 1
    · rw [h1, Function.update_self]
      rfl
    by_cases h0 : id = 0
    · rw [h0]
      rfl
    rw [Function.update_of_ne h1, Function.update_of_ne h0, if_neg h0, if_neg h1,
      if_neg (by bv_omega)]

/-- After the initialisation the table has what was stored. -/
theorem exact_initialized (L : Layout) (s : State) : Exact L (syscallsInitialize L s) := by
  have hzeros : ∀ (is : List ℕ), (∀ i ∈ is, i < 0x256) → ∀ s, Exact L s →
      Exact L (is.foldl (fun s i => s.setSyscall L (BitVec.ofNat 32 i) 0) s) := by
    intro is
    induction is with
    | nil => exact fun _ _ hs => hs
    | cons i is ih =>
      intro his s hs
      have hi : i < 0x256 := his i List.mem_cons_self
      refine ih (fun j hj => his j (List.mem_cons_of_mem i hj)) _ (hs.setSyscall ?_)
      rw [BitVec.toNat_ofNat]
      omega
  have hnone : Exact L ({ s with stored := fun _ => none } : State) := by
    intro id F hF
    cases hF
  unfold syscallsInitialize
  refine hzeros _ (fun i hi => ?_) _ ?_
  · have hlt := (List.mem_range'_1.1 hi).2
    omega
  · exact Exact.setSyscall (Exact.setSyscall hnone (by decide)) (by decide)

/-- The number 0 registers system calls. -/
theorem syscall_initialized (L : Layout) (s : State) :
    (syscallsInitialize L s).syscall L 0 = L.sysRegisterSyscall := by
  have hstored : (syscallsInitialize L s).stored 0 = some L.sysRegisterSyscall := by
    rw [stored_initialized, if_pos rfl]
  exact (exact_initialized L s 0 _ hstored).2

end Tables

/-! ### One system call -/

section Call

variable {L : Layout} {s s' : State} {regs : Registers32} {after : Mem} {a : Act}

theorem called_eq_some {eax F : Word} : called L s eax = some F ↔ F ≠ 0 ∧ s.syscall L eax = F := by
  unfold called
  split
  · rename_i hnull
    constructor
    · intro h
      cases h
    · rintro ⟨hne, rfl⟩
      exact absurd hnull hne
  · rename_i hne
    rw [Option.some.injEq]
    constructor
    · rintro rfl
      exact ⟨hne, rfl⟩
    · exact fun h => h.2

theorem intSyscall_registerSyscall (h : s.syscall L regs.eax = L.sysRegisterSyscall) :
    intSyscall L regs after s = s.setSyscall L regs.ebx regs.edx := by
  have hne : s.syscall L regs.eax ≠ 0 := h ▸ L.registerSyscall_ne
  have hcall : intSyscallHandler L regs after { s with interrupts := false } =
      sysRegisterSyscall L regs { s with interrupts := false } :=
    (if_pos hne).trans (if_pos h)
  rw [intSyscall, hcall]
  rfl

theorem intSyscall_registerInterruptHandler
    (h : s.syscall L regs.eax = L.sysRegisterInterruptHandler) :
    intSyscall L regs after s = s.setInterruptHandler L regs.ebx regs.edx := by
  have hne : s.syscall L regs.eax ≠ 0 := h ▸ L.registerInterruptHandler_ne
  have hother : s.syscall L regs.eax ≠ L.sysRegisterSyscall := h ▸ L.functions_ne.symm
  have hcall : intSyscallHandler L regs after { s with interrupts := false } =
      sysRegisterInterruptHandler L regs { s with interrupts := false } :=
    (if_pos hne).trans ((if_neg hother).trans (if_pos h))
  rw [intSyscall, hcall]
  rfl

/-- **What a system call can do**: one of the two functions stores an address, other code leaves a memory,
or nothing happens. -/
theorem intSyscall_cases (L : Layout) (regs : Registers32) (after : Mem) (s : State) :
    (s.syscall L regs.eax = L.sysRegisterSyscall ∧
      intSyscall L regs after s = s.setSyscall L regs.ebx regs.edx) ∨
    (s.syscall L regs.eax = L.sysRegisterInterruptHandler ∧
      intSyscall L regs after s = s.setInterruptHandler L regs.ebx regs.edx) ∨
    intSyscall L regs after s = { s with mem := after } ∨ intSyscall L regs after s = s := by
  by_cases hregister : s.syscall L regs.eax = L.sysRegisterSyscall
  · exact .inl ⟨hregister, intSyscall_registerSyscall hregister⟩
  by_cases hhandler : s.syscall L regs.eax = L.sysRegisterInterruptHandler
  · exact .inr (.inl ⟨hhandler, intSyscall_registerInterruptHandler hhandler⟩)
  refine .inr (.inr ?_)
  by_cases hnull : s.syscall L regs.eax = 0
  · right
    have hcall : intSyscallHandler L regs after { s with interrupts := false } =
        { s with interrupts := false } := if_neg (not_not.2 hnull)
    rw [intSyscall, hcall]
  · left
    have hcall : intSyscallHandler L regs after { s with interrupts := false } =
        { s with mem := after, interrupts := false } :=
      (if_pos hnull).trans ((if_neg hregister).trans (if_neg hhandler))
    rw [intSyscall, hcall]

/-- **One system call** stays inside the tables exactly when it is in range. -/
theorem safeCall_iff (hexact : Exact L s) :
    SafeCall L regs s (intSyscall L regs after s) ↔ InRange L regs s := by
  constructor
  · intro hsafe
    refine ⟨fun hne => ?_, fun hF => ?_, fun hF => ?_⟩
    · rw [hsafe.dispatch _ (called_eq_some.2 ⟨hne, rfl⟩)]
      rfl
    · have hlast := (hsafe.syscalls (called_eq_some.2 ⟨L.registerSyscall_ne, hF⟩)).1
      unfold sizeofSyscalls at hlast
      omega
    · have hlast := (hsafe.handlers (called_eq_some.2 ⟨L.registerInterruptHandler_ne, hF⟩)).1
      unfold sizeofInterruptHandlers at hlast
      omega
  · intro hrange
    refine ⟨fun F hcalled => ?_, fun hcalled => ?_, fun hcalled => ?_⟩
    · obtain ⟨hne, rfl⟩ := called_eq_some.1 hcalled
      obtain ⟨F, hstored⟩ := Option.isSome_iff_exists.1 (hrange.known hne)
      rw [hstored, (hexact _ F hstored).2]
    · have hF := (called_eq_some.1 hcalled).2
      have hid := hrange.syscalls hF
      refine ⟨by unfold sizeofSyscalls; omega, ?_⟩
      rw [intSyscall_registerSyscall hF]
      exact setSyscall_changes hid
    · have hF := (called_eq_some.1 hcalled).2
      have hid := hrange.handlers hF
      refine ⟨by unfold sizeofInterruptHandlers; omega, ?_⟩
      rw [intSyscall_registerInterruptHandler hF]
      exact setInterruptHandler_changes hid

/-- A system call in range keeps the table exact. -/
theorem Exact.intSyscall (hexact : Exact L s) (hrange : InRange L regs s)
    (hkeeps : KeepsTables L s.mem after) : Exact L (intSyscall L regs after s) := by
  rcases intSyscall_cases L regs after s with ⟨hF, heq⟩ | ⟨hF, heq⟩ | heq | heq
  · rw [heq]
    exact hexact.setSyscall (hrange.syscalls hF)
  · rw [heq]
    have hchanges : ChangesOnly L.interruptHandlers sizeofInterruptHandlers s.mem
        (s.setInterruptHandler L regs.ebx regs.edx).mem :=
      setInterruptHandler_changes (hrange.handlers hF)
    exact hexact.of_sameBytes rfl (hchanges.sameBytes L.tables_apart.symm (by decide))
  · rw [heq]
    exact hexact.of_sameBytes rfl hkeeps.1
  · rw [heq]
    exact hexact

end Call

/-! ### Every run -/

section Runs

variable {L : Layout} {s₀ s : State} {tr : List (Transition State Act)} {t : Transition State Act}

theorem safe_iff_ranged (hexact : Exact L t.pre) (hstep : SyscallStep L t.pre t.label t.post) :
    Safe L t ↔ Ranged L t := by
  obtain ⟨pre, label, post⟩ := t
  obtain ⟨-, hpost⟩ := hstep
  cases label with
  | int80 regs after =>
    dsimp only [next] at hpost
    subst hpost
    exact safeCall_iff hexact
  | code after interrupts => exact Iff.rfl

theorem Exact.step (hexact : Exact L t.pre) (hstep : SyscallStep L t.pre t.label t.post)
    (hranged : Ranged L t) : Exact L t.post := by
  obtain ⟨pre, label, post⟩ := t
  obtain ⟨hkeeps, hpost⟩ := hstep
  cases label with
  | int80 regs after =>
    dsimp only [next] at hpost
    subst hpost
    exact hexact.intSyscall hranged hkeeps
  | code after interrupts =>
    dsimp only [next] at hpost
    subst hpost
    exact hexact.of_sameBytes rfl hkeeps.1

/-- **Which runs stay inside the tables**: those whose system calls are all in range, whatever the memory
held before the initialisation. -/
theorem safe_iff (L : Layout) (s₀ : State) (h : Run (SyscallStep L) (syscallsInitialize L s₀) tr s) :
    (∀ t ∈ tr, Safe L t) ↔ ∀ t ∈ tr, Ranged L t :=
  h.forall_iff (exact_initialized L s₀) (fun _ hexact hstep => safe_iff_ranged hexact hstep)
    fun _ hexact hstep hsafe => hexact.step hstep ((safe_iff_ranged hexact hstep).1 hsafe)

/-- A number behind the end of the table is registered outside. -/
theorem not_safe_of_outside {regs : Registers32} {after : Mem} {s' : State}
    (hregister : s.syscall L regs.eax = L.sysRegisterSyscall) (hid : 0x256 ≤ regs.ebx.toNat) :
    ¬ Safe L ⟨s, .int80 regs after, s'⟩ := by
  intro hsafe
  have hcalled := called_eq_some.2 ⟨L.registerSyscall_ne, hregister⟩
  have hlast := (SafeCall.syscalls hsafe hcalled).1
  unfold sizeofSyscalls at hlast
  omega

/-- Tables and functions at some addresses. -/
def lowLayout : Layout where
  syscalls := 0x20000
  interruptHandlers := 0x21000
  sysRegisterSyscall := 0x10000
  sysRegisterInterruptHandler := 0x10100
  tables_apart := by unfold Apart; decide
  registerSyscall_ne := by decide
  registerInterruptHandler_ne := by decide
  functions_ne := by decide

/-- Registers with a number and the arguments of the two functions. -/
def arguments (eax ebx edx : Word) : Registers32 := ⟨0, 0, 0, 0, ebx, edx, 0, eax⟩

/-- The state before the initialisation, with the byte `0xFF` everywhere. -/
def dirty : State := ⟨fun _ => 0xFF, [], true, fun _ => none⟩

theorem syscallStep_int80 (L : Layout) (regs : Registers32) (s : State) :
    SyscallStep L s (.int80 regs s.mem) (intSyscall L regs s.mem s) :=
  ⟨⟨fun _ _ => rfl, fun _ _ => rfl⟩, rfl⟩

/-- A system call that registers the number 8. -/
theorem safe_iff_eight : ∃ tr s, Run (SyscallStep lowLayout) (syscallsInitialize lowLayout dirty) tr s ∧
    tr.length = 1 ∧ ∀ t ∈ tr, Safe lowLayout t := by
  have hrun := Run.nil.snoc
    (syscallStep_int80 lowLayout (arguments 0 8 0x12345) (syscallsInitialize lowLayout dirty))
  refine ⟨_, _, hrun, rfl, (safe_iff lowLayout dirty hrun).2 fun t ht => ?_⟩
  obtain rfl := List.mem_singleton.1 ht
  refine ⟨fun _ => ?_, fun _ => by decide, fun _ => by decide⟩
  dsimp only
  rw [stored_initialized]
  rfl

/-- A system call that registers the number `0x300` stores behind the end of the table. -/
theorem registers_outside :
    ∃ tr s, Run (SyscallStep lowLayout) (syscallsInitialize lowLayout dirty) tr s ∧
      ¬ ∀ t ∈ tr, Safe lowLayout t := by
  have hregister := syscall_initialized lowLayout dirty
  generalize syscallsInitialize lowLayout dirty = init at hregister ⊢
  let regs := arguments 0 0x300 0x12345
  have hrun := Run.nil.snoc (syscallStep_int80 lowLayout regs init)
  have hnot : ¬ Safe lowLayout ⟨init, .int80 regs init.mem, intSyscall lowLayout regs init.mem init⟩ :=
    not_safe_of_outside hregister (by decide)
  exact ⟨_, _, hrun, fun hall => hnot (hall _ List.mem_cons_self)⟩

end Runs

end RedFox32.Old.Syscall
