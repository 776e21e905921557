import Dytan.HandlerProofs

/-! # Control coverage — which destinations receive the control taint

    Control taint enters a place only through an assigning call: the
    `SetTaintFor…` calls always add it, the clearing calls leave it behind at
    a place that is a key.  So an instruction's destination receives it when
    the handler inserts such a call for it, and keeps it to the end of the
    handler's calls.

    `destinations` lists what each instruction of the table writes, apart from
    the stack and frame pointers, the flags and the control words.  `coverage`
    says by which kind of call the handler covers them: the handlers without a
    body, and those whose rule assigns the flags only (INC, DEC, NEG), cover
    none.  `steppedRegs` are the index and count registers of the string
    instructions; one handler, that of SCASB, assigns one of them.

    What no call assigns keeps its marks, so a destination that is not covered
    includes the control taint exactly when it did before. -/

namespace DytanControlCoverage

open DytanBitset DytanRegister DytanTaintState DytanMarkFlow DytanInstruction DytanHandler
open Emission Overwrite

variable {ws : WordSize} {N : Nat}

/-! ## Control taint along data-flow calls -/

/-- The places a `SetTaintFor…` call assigns. -/
def setPlaces : Call ws → Set (Place ws)
  | .setTaintForRegister dest _ => regPlaces dest
  | .setTaintForMemory start size _ => rangePlaces start size
  | _ => ∅

/-- The places a clearing call assigns when they are keys. -/
def clearPlaces : Call ws → Set (Place ws)
  | .clearTaintForRegister r => {.reg r}
  | .clearTaintForMemory start size => rangePlaces start size
  | _ => ∅

/-- A register or a memory byte. -/
def IsStored (p : Place ws) : Prop := (∃ r, p = .reg r) ∨ ∃ a, p = .mem a

theorem isStored_reg (r : Reg) : IsStored (Place.reg r : Place ws) := Or.inl ⟨r, rfl⟩

theorem isStored_mem (a : Addr ws) : IsStored (.mem a) := Or.inr ⟨a, rfl⟩

/-- A call that assigns a register or a byte assigns the control taint to it. -/
theorem controlPlaces_subset_origins {c : Call ws} (hc : isData c = true)
    {s : TaintState ws N} {p : Place ws} (hp : IsStored p) (ht : p ∈ targets c s) :
    controlPlaces ⊆ origins c := by
  have hscr : ∀ x, p ≠ .scr x := by
    rintro x rfl
    rcases hp with ⟨r, h⟩ | ⟨a, h⟩ <;> exact nomatch h
  cases c with
  | pushControl _ => exact nomatch hc
  | popControl _ => exact nomatch hc
  | clearTaintSet x => exact absurd ht (hscr x)
  | taintForRegister _ x => exact absurd ht (hscr x)
  | taintForMemory _ _ x => exact absurd ht (hscr x)
  | setTaintForRegister _ _ => exact Set.subset_union_right
  | setTaintForMemory _ _ _ => exact Set.subset_union_right
  | clearTaintForRegister _ => exact subset_rfl
  | clearTaintForMemory _ _ => exact subset_rfl

/-- The stored places a call assigns. -/
theorem mem_targets_stored {c : Call ws} (hc : isData c = true) {s : TaintState ws N}
    {p : Place ws} (hp : IsStored p) :
    p ∈ targets c s ↔ p ∈ setPlaces c ∨ (p ∈ clearPlaces c ∧ p ∈ present s) := by
  have hscr : ∀ x, p ≠ .scr x := by
    rintro x rfl
    rcases hp with ⟨r, h⟩ | ⟨a, h⟩ <;> exact nomatch h
  cases c with
  | pushControl _ => exact nomatch hc
  | popControl _ => exact nomatch hc
  | clearTaintSet x => simp [targets, setPlaces, clearPlaces, hscr x]
  | taintForRegister _ x => simp [targets, setPlaces, clearPlaces, hscr x]
  | taintForMemory _ _ x => simp [targets, setPlaces, clearPlaces, hscr x]
  | setTaintForRegister _ _ => simp [targets, setPlaces, clearPlaces]
  | setTaintForMemory _ _ _ => simp [targets, setPlaces, clearPlaces]
  | clearTaintForRegister _ => simp [targets, setPlaces, clearPlaces]
  | clearTaintForMemory _ _ => simp [targets, setPlaces, clearPlaces]

/-- A covered place: it holds the control taint, or the next call assigns it. -/
def CoveredBy (c : Call ws) (s : TaintState ws N) (p : Place ws) : Prop :=
  controlMarks s ⊆ marksAt s p ∨ p ∈ setPlaces c ∨ (p ∈ clearPlaces c ∧ p ∈ present s)

/-- One data-flow call keeps the control taint and the keys, and leaves the
    control taint at every covered place. -/
theorem control_step {s : TaintState ws N} (hs : SizedState s) {c : Call ws}
    (hc : isData c = true) :
    ∃ s', step c s = some s' ∧ SizedState s' ∧ controlMarks s' = controlMarks s
      ∧ present s ⊆ present s'
      ∧ ∀ p, IsStored p → CoveredBy c s p → controlMarks s ⊆ marksAt s' p := by
  obtain ⟨s', b, hstep, ha, hb⟩ := data_step_assigns hs hc
  have hctl : ∀ a, marksAt s' (.ctl a) = marksAt s (.ctl a) := by
    intro a
    rw [marksAt, marksAt, ha.frame _ (ctl_notMem_targets hc s a)]
  refine ⟨s', hstep, ha.sizedState hs, ?_, ?_, ?_⟩
  · ext m
    constructor
    · rintro ⟨q, ⟨a, rfl⟩, hm⟩
      exact ⟨.ctl a, ⟨a, rfl⟩, hctl a ▸ hm⟩
    · rintro ⟨q, ⟨a, rfl⟩, hm⟩
      exact ⟨.ctl a, ⟨a, rfl⟩, (hctl a).symm ▸ hm⟩
  · rintro p ⟨e, he⟩
    by_cases hp : p ∈ targets c s
    · exact ⟨b, ha.target p hp⟩
    · exact ⟨e, by rw [ha.frame p hp, he]⟩
  · intro p hstored hcov
    by_cases hp : p ∈ targets c s
    · rw [marksAt, ha.target p hp, entryMarks_some, hb]
      rintro m ⟨q, hq, hm⟩
      exact ⟨q, controlPlaces_subset_origins hc hstored hp hq, hm⟩
    · rw [marksAt, ha.frame p hp]
      exact hcov.resolve_right fun h => hp ((mem_targets_stored hc hstored).mpr h)

/-- A place that holds the control taint keeps it through data-flow calls. -/
theorem control_kept {calls : List (Call ws)} (hdata : ∀ c ∈ calls, isData c = true)
    {s : TaintState ws N} (hs : SizedState s) :
    ∃ s', run calls s = some s' ∧ ∀ p, IsStored p →
      (controlMarks s ⊆ marksAt s p ∨ ∃ c ∈ calls, p ∈ setPlaces c
        ∨ (p ∈ clearPlaces c ∧ p ∈ present s)) →
      controlMarks s ⊆ marksAt s' p := by
  induction calls generalizing s with
  | nil =>
      refine ⟨s, rfl, fun p _ h => ?_⟩
      rcases h with h | ⟨c, hc, -⟩
      · exact h
      · exact nomatch hc
  | cons c rest ih =>
      obtain ⟨s₁, hstep, hs₁, hctl, hpres, hcov⟩ := control_step hs (hdata c List.mem_cons_self)
      obtain ⟨s', hrun, hrest⟩ := ih (fun d hd => hdata d (List.mem_cons_of_mem _ hd)) hs₁
      refine ⟨s', by rw [run_cons, hstep]; exact hrun, fun p hp h => ?_⟩
      rw [← hctl]
      refine hrest p hp ?_
      rw [hctl]
      rcases h with h | ⟨d, hd, h⟩
      · exact Or.inl (hcov p hp (Or.inl h))
      · rcases List.mem_cons.mp hd with rfl | hd
        · exact Or.inl (hcov p hp (Or.inr h))
        · refine Or.inr ⟨d, hd, ?_⟩
          rcases h with h | ⟨h, hk⟩
          · exact Or.inl h
          · exact Or.inr ⟨h, hpres hk⟩

/-- A stored place that no call assigns keeps its entry. -/
theorem entry_untouched {calls : List (Call ws)} (hdata : ∀ c ∈ calls, isData c = true)
    {p : Place ws} (hp : IsStored p) {s s' : TaintState ws N} (hs : SizedState s)
    (hrun : run calls s = some s')
    (hfree : ∀ c ∈ calls, p ∉ setPlaces c ∧ (p ∈ clearPlaces c → p ∉ present s)) :
    entryAt s' p = entryAt s p := by
  induction calls generalizing s with
  | nil =>
      cases hrun
      rfl
  | cons c rest ih =>
      have hc := hdata c List.mem_cons_self
      obtain ⟨s₁, b, hstep, ha, -⟩ := data_step_assigns hs hc
      have hsame : entryAt s₁ p = entryAt s p := by
        refine ha.frame p fun ht => ?_
        obtain ⟨hset, hclear⟩ := hfree c List.mem_cons_self
        rcases (mem_targets_stored hc hp).mp ht with h | ⟨h, hpres⟩
        · exact hset h
        · exact hclear h hpres
      rw [run_cons, hstep] at hrun
      rw [← hsame]
      refine ih (fun d hd => hdata d (List.mem_cons_of_mem _ hd)) (ha.sizedState hs) hrun ?_
      intro d hd
      obtain ⟨hset, hclear⟩ := hfree d (List.mem_cons_of_mem _ hd)
      refine ⟨hset, fun h hpres => hclear h ?_⟩
      obtain ⟨e, he⟩ := hpres
      exact ⟨e, hsame ▸ he⟩

/-! ## What instructions write -/

/-- A destination: an explicit operand, an operand that is always a register,
    an implicit register, or the memory the instruction writes. -/
inductive Destination where
  | operand (n : Nat)
  | regOperand (n : Nat)
  | register (r : Reg)
  | memory

/-- The bytes an execution writes. -/
def writtenBytes (ctx : Ctx ws) : Set (Place ws) :=
  {p | ∃ i < ctx.memoryWriteSize.toNat,
    p = .mem (ctx.memoryWriteEA + BitVec.ofNat ws.bits i)}

/-- The written range ends below the top of the address space. -/
def NoWrap (ctx : Ctx ws) : Prop :=
  ctx.memoryWriteEA.toNat + ctx.memoryWriteSize.toNat < 2 ^ ws.bits

/-- The place of a register operand; the stack and frame pointers and the flags
    are none. -/
def registerPlaces (ws : WordSize) (r : Reg) : Set (Place ws) :=
  {p | isStackReg r = false ∧ r ≠ flagsReg ws ∧ p = .reg r}

def Destination.places (ctx : Ctx ws) (ins : Ins) : Destination → Set (Place ws)
  | .operand n =>
      match ins.kind n with
      | .reg r => registerPlaces ws r
      | .memory _ _ => writtenBytes ctx
      | _ => ∅
  | .regOperand n =>
      match ins.kind n with
      | .reg r => registerPlaces ws r
      | _ => ∅
  | .register r => {.reg r}
  | .memory => writtenBytes ctx

/-- The implicit destinations of one-operand multiplication and division. -/
def wideDestinations (operandWidth : Nat) : List Destination :=
  if operandWidth = 32 then [.register .eax, .register .edx]
  else if operandWidth = 64 then [.register .rax, .register .rdx]
  else []

/-- CMPXCHG compares the accumulator with its destination over the size of the
    operand. -/
def exchanges (ctx : Ctx ws) (ins : Ins) : Bool :=
  if ins.operandIsReg 0 then ctx.regValue (ins.operandReg 0) = ctx.regValue (ins.operandReg 2)
  else (ctx.memory ctx.memoryReadEA).toNat % 2 ^ ins.operandWidth 0
    = (ctx.regValue (ins.operandReg 2)).toNat % 2 ^ ins.operandWidth 0

/-- The operands, implicit registers and memory that an instruction of the table
    writes. -/
def destinations (ctx : Ctx ws) (ins : Ins) : List Destination :=
  match ins.iclass with
  | .ADD | .OR | .AND | .SUB | .ADC | .SBB | .XOR | .INC | .DEC | .NEG | .NOT => [.operand 0]
  | .SAR | .SHL | .SHR | .ROL | .ROR | .SHLD | .SHRD => [.operand 0]
  | .MOV | .MOVZX | .MOVSX | .MOVDQU | .POP => [.operand 0]
  | .LDDQU | .LEA | .BSF | .BSR | .BSWAP => [.regOperand 0]
  | .SETB | .SETNB | .SETZ | .SETNZ | .SETBE | .SETNBE => [.operand 0]
  | .SETS | .SETL | .SETNL | .SETLE | .SETNLE => [.operand 0]
  | .XCHG => [.operand 0, .operand 1]
  | .XADD => [.operand 0, .regOperand 1]
  | .IMUL => if ins.operandCount = 1 then wideDestinations (ins.operandWidth 0)
      else [.regOperand 0]
  | .MUL | .DIV | .IDIV => wideDestinations (ins.operandWidth 0)
  | .CMPXCHG => if exchanges ctx ins then [.operand 0] else [.regOperand 2]
  | .CWDE => [.register .eax]
  | .CDQ => if ins.operandWidth 0 = 32 then [.register .edx]
      else if ins.operandWidth 0 = 64 then [.register .rdx] else []
  | .LAHF => [.register .ah]
  | .PUSH | .PUSHFD | .CALL_NEAR | .MOVSB | .MOVSW | .MOVSD | .STOSB | .STOSD => [.memory]
  | .FNSTCW | .STMXCSR => [.memory]
  | .FST | .FSTP | .FIST | .FISTP | .FNSTSW => [.operand 0]
  | .FLD | .FLDZ | .FILD | .FADDP | .FIADD | .FDIV | .FDIVP | .FDIVRP | .FIDIVR => [.regOperand 0]
  | .FXCH => [.regOperand 0, .regOperand 1]
  | .RDTSC => [.register .eax, .register .edx]
  | .CPUID => [.register .eax, .register .ebx, .register .ecx, .register .edx]
  | _ => []

/-- The source index, destination index and count register of the string
    instructions; on a 64-bit build the low half is written with the whole. -/
def sourceIndex : WordSize → List Reg
  | .w32 => [.esi]
  | .w64 => [.rsi, .esi]

def destinationIndex : WordSize → List Reg
  | .w32 => [.edi]
  | .w64 => [.rdi, .edi]

def countRegister : WordSize → List Reg
  | .w32 => [.ecx]
  | .w64 => [.rcx, .ecx]

/-- The registers that a string instruction steps: the count register only when
    it is repeated. -/
def steppedRegs (ws : WordSize) (ins : Ins) : List Reg :=
  match ins.iclass with
  | .MOVSB | .MOVSW | .MOVSD => sourceIndex ws ++ destinationIndex ws
      ++ (if ins.hasRealRep then countRegister ws else [])
  | .STOSB | .STOSD => destinationIndex ws ++ (if ins.hasRealRep then countRegister ws else [])
  | .CMPSB => sourceIndex ws ++ destinationIndex ws
      ++ (if ins.repPrefix || ins.repnePrefix then countRegister ws else [])
  | .SCASB => destinationIndex ws
      ++ (if ins.repPrefix || ins.repnePrefix then countRegister ws else [])
  | _ => []

/-- The places of the destinations. -/
def resultPlaces (ctx : Ctx ws) (ins : Ins) : Set (Place ws) :=
  {p | ∃ d ∈ destinations ctx ins, p ∈ d.places ctx ins}

/-- The places an execution of the instruction writes. -/
def destinationPlaces (ctx : Ctx ws) (ins : Ins) : Set (Place ws) :=
  resultPlaces ctx ins ∪ {p | ∃ r ∈ steppedRegs ws ins, p = .reg r}

/-- How a handler covers its destinations. -/
inductive Coverage where
  | assigned
  | cleared
  | uncovered
deriving DecidableEq

/-- How the handler of an instruction covers its destinations.  With a memory
    operand both calls of CMPXCHG run when a whole `ADDRINT` of memory equals
    the accumulator, and none otherwise. -/
def coverage (ctx : Ctx ws) (ins : Ins) : Coverage :=
  match ins.iclass with
  | .ADD | .OR | .AND | .SUB | .ADC | .SBB | .SAR | .SHL | .SHR | .SHLD | .SHRD => .assigned
  | .XOR => if sameRegisters ins then .cleared else .assigned
  | .MOV | .MOVZX | .MOVSX | .MOVDQU | .LDDQU | .LEA | .POP | .PUSH | .PUSHFD => .assigned
  | .SETB | .SETNB | .SETZ | .SETNZ | .SETBE | .SETNBE => .assigned
  | .SETS | .SETL | .SETNL | .SETLE | .SETNLE => .assigned
  | .XCHG | .XADD | .IMUL | .MUL | .DIV | .IDIV | .CWDE | .CDQ => .assigned
  | .MOVSB | .MOVSW | .MOVSD | .STOSB | .STOSD => .assigned
  | .CMPXCHG =>
      if ins.operandIsReg 0
        || checkEqual_m_r ctx.memory ctx.memoryReadEA (ctx.regValue (ins.operandReg 2))
      then .assigned else .uncovered
  | .BSF | .BSR | .RDTSC | .CPUID | .FNSTCW | .STMXCSR => .cleared
  | .FNSTSW => if ins.operandIsReg 0 then .cleared else .uncovered
  | _ => .uncovered

/-- The calls' loops reach the place: over a range that wraps around the end of
    the address space they do not run. -/
def Reached (ctx : Ctx ws) (p : Place ws) : Prop := p ∈ writtenBytes ctx → NoWrap ctx

/-- What the handler assigns.  Of the registers that string instructions step
    this is one, the count register of SCASB by its 32-bit name. -/
def assignedDestinations (ctx : Ctx ws) (ins : Ins) : Set (Place ws) :=
  {p | Reached ctx p ∧ ((coverage ctx ins = .assigned ∧ p ∈ resultPlaces ctx ins)
    ∨ (ins.iclass = .SCASB ∧ .ecx ∈ steppedRegs ws ins ∧ p = .reg .ecx))}

/-- What the handler clears. -/
def clearedDestinations (ctx : Ctx ws) (ins : Ins) : Set (Place ws) :=
  {p | Reached ctx p ∧ coverage ctx ins = .cleared ∧ p ∈ resultPlaces ctx ins}

/-- After the inserted calls every destination holds the control taint. -/
def ReceivesControl (ctx : Ctx ws) (ins : Ins) (s : TaintState ws N) : Prop :=
  ∃ s', run (callsAt ctx (dataflow ws ins).calls) s = some s'
    ∧ ∀ p ∈ destinationPlaces ctx ins, controlMarks s ⊆ marksAt s' p

/-! ## The chains cover their operands -/

/-- A call that runs and assigns `p`. -/
def Sets (ctx : Ctx ws) (p : Place ws) (i : Inserted) : Prop :=
  ctx.fires i = true ∧ p ∈ setPlaces (ctx.resolve i.call)

/-- A call that runs and clears `p`. -/
def Clears (ctx : Ctx ws) (p : Place ws) (i : Inserted) : Prop :=
  ctx.fires i = true ∧ p ∈ clearPlaces (ctx.resolve i.call)

/-- Without wrap-around the loops over the written range reach every byte. -/
theorem writtenBytes_subset {ctx : Ctx ws} (h : NoWrap ctx) :
    writtenBytes ctx ⊆ rangePlaces ctx.memoryWriteEA ctx.memoryWriteSize := by
  rintro p ⟨i, hi, rfl⟩
  refine ⟨_, ?_, rfl⟩
  rw [addrRange]
  have hsum : (ctx.memoryWriteEA + ctx.memoryWriteSize).toNat
      = ctx.memoryWriteEA.toNat + ctx.memoryWriteSize.toNat := by
    rw [BitVec.toNat_add, Nat.mod_eq_of_lt h]
  rw [hsum, Nat.add_sub_cancel_left]
  exact List.mem_map_of_mem (List.mem_range.mpr hi)

theorem sets_register (ctx : Ctx ws) {r : Reg} (hr : isStackReg r = false)
    (sets : List Scratch) :
    Emits (Sets ctx (.reg r)) (insertCall (.setTaintForRegister r sets)) :=
  Emits.emit ⟨rfl, hr, r, mem_writtenRegs.mpr (Or.inl rfl), rfl⟩

theorem sets_memory {ctx : Ctx ws} {p : Place ws} (hw : Reached ctx p)
    (hp : p ∈ writtenBytes ctx) (sets : List Scratch) :
    Emits (Sets ctx p) (insertCall (.setTaintForMemory sets)) :=
  Emits.emit ⟨rfl, writtenBytes_subset (hw hp) hp⟩

/-- An operand that is a register: its place is that register. -/
theorem places_operand_reg {ctx : Ctx ws} {ins : Ins} {n : Nat} {p : Place ws}
    (hreg : ins.operandIsReg n = true) (hp : p ∈ (Destination.operand n).places ctx ins) :
    isStackReg (ins.operandReg n) = false ∧ ins.operandReg n ≠ flagsReg ws
      ∧ p = .reg (ins.operandReg n) := by
  rw [Destination.places, Ins.operandIsReg_iff.mp hreg] at hp
  exact hp

/-- An operand that is no register: its places are the bytes written. -/
theorem places_operand_memory {ctx : Ctx ws} {ins : Ins} {n : Nat} {p : Place ws}
    (hreg : ins.operandIsReg n = false) (hp : p ∈ (Destination.operand n).places ctx ins) :
    p ∈ writtenBytes ctx := by
  rw [Destination.places] at hp
  cases hk : ins.kind n with
  | reg r =>
      rw [Ins.operandIsReg, hk] at hreg
      exact Bool.noConfusion hreg
  | memory _ _ =>
      rw [hk] at hp
      exact hp
  | immediate => rw [hk] at hp; exact absurd hp (Set.notMem_empty p)
  | addressGenerator _ _ => rw [hk] at hp; exact absurd hp (Set.notMem_empty p)
  | other => rw [hk] at hp; exact absurd hp (Set.notMem_empty p)

/-- An operand that is always a register. -/
theorem places_regOperand {ctx : Ctx ws} {ins : Ins} {n : Nat} {p : Place ws}
    (hp : p ∈ (Destination.regOperand n).places ctx ins) :
    isStackReg (ins.operandReg n) = false ∧ ins.operandReg n ≠ flagsReg ws
      ∧ p = .reg (ins.operandReg n) := by
  rw [Destination.places] at hp
  rw [Ins.operandReg]
  cases hk : ins.kind n with
  | reg r =>
      rw [hk] at hp
      exact hp
  | memory _ _ => rw [hk] at hp; exact absurd hp (Set.notMem_empty p)
  | immediate => rw [hk] at hp; exact absurd hp (Set.notMem_empty p)
  | addressGenerator _ _ => rw [hk] at hp; exact absurd hp (Set.notMem_empty p)
  | other => rw [hk] at hp; exact absurd hp (Set.notMem_empty p)

/-- A destination is a register or a byte. -/
theorem isStored_places {ctx : Ctx ws} {ins : Ins} {d : Destination} {p : Place ws}
    (hp : p ∈ d.places ctx ins) : IsStored p := by
  have hbytes : p ∈ writtenBytes ctx → IsStored p := by
    rintro ⟨i, -, rfl⟩
    exact isStored_mem _
  cases d with
  | operand n =>
      by_cases hreg : ins.operandIsReg n = true
      · rw [(places_operand_reg hreg hp).2.2]
        exact isStored_reg _
      · exact hbytes (places_operand_memory (by simpa using hreg) hp)
  | regOperand n =>
      rw [(places_regOperand hp).2.2]
      exact isStored_reg _
  | register r =>
      rw [show p = .reg r from hp]
      exact isStored_reg r
  | memory => exact hbytes hp

/-- The chain that assigns operand `n` covers it. -/
theorem sets_operand {ctx : Ctx ws} {p : Place ws} (hw : Reached ctx p) {ins : Ins} {n : Nat}
    (hp : p ∈ (Destination.operand n).places ctx ins) (sets : List Scratch) :
    Emits (Sets ctx p) (setTaintForOperand ins n sets) := by
  rw [setTaintForOperand]
  by_cases hreg : ins.operandIsReg n = true
  · rw [if_pos hreg]
    obtain ⟨hstack, -, rfl⟩ := places_operand_reg hreg hp
    exact sets_register ctx hstack sets
  · rw [if_neg hreg]
    have hbytes := places_operand_memory (by simpa using hreg) hp
    split
    · exact Emits.bind_right fun _ => sets_memory hw hbytes sets
    · exact Emits.abort

/-- A call that assigns the register of operand `n`. -/
theorem sets_regOperand {ctx : Ctx ws} {ins : Ins} {n : Nat} {p : Place ws}
    (hp : p ∈ (Destination.regOperand n).places ctx ins) (sets : List Scratch) :
    Emits (Sets ctx p) (insertCall (.setTaintForRegister (ins.operandReg n) sets)) := by
  obtain ⟨hstack, -, rfl⟩ := places_regOperand hp
  exact sets_register ctx hstack sets

/-! ## The handlers that assign their destinations -/

section Assigned

variable {ctx : Ctx ws} {ins : Ins} {p : Place ws}

theorem sets_ADD (hw : Reached ctx p) (hp : p ∈ (Destination.operand 0).places ctx ins) :
    Emits (Sets ctx p) (instrumentADD ws ins) :=
  .bind_right fun _ => .bind_right fun _ => .bind_left (sets_operand hw hp _)

theorem sets_ADC (hw : Reached ctx p) (hp : p ∈ (Destination.operand 0).places ctx ins) :
    Emits (Sets ctx p) (instrumentADC ws ins) :=
  .bind_right fun _ => .bind_right fun _ => .bind_right fun _ =>
    .bind_left (sets_operand hw hp _)

theorem sets_XOR (hsame : sameRegisters ins = false) (hw : Reached ctx p)
    (hp : p ∈ (Destination.operand 0).places ctx ins) :
    Emits (Sets ctx p) (instrumentXOR ws ins) := by
  have hdest : Emits (Sets ctx p) (xorDestination ins) := by
    rw [xorDestination]
    rw [hsame]
    exact sets_operand hw hp _
  exact .bind_right fun _ => .bind_right fun _ => .bind_left hdest

theorem sets_SAR (hw : Reached ctx p) (hp : p ∈ (Destination.operand 0).places ctx ins) :
    Emits (Sets ctx p) (instrumentSAR ws ins) :=
  .bind_right fun _ => .bind_right fun _ => .bind_left (sets_operand hw hp _)

theorem sets_SHLD (hw : Reached ctx p) (hp : p ∈ (Destination.operand 0).places ctx ins) :
    Emits (Sets ctx p) (instrumentSHLD ws ins) :=
  .bind_right fun _ => .bind_right fun _ => .bind_right fun _ =>
    .bind_left (sets_operand hw hp _)

theorem sets_XADD (hw : Reached ctx p) (hp : p ∈ (Destination.operand 0).places ctx ins
    ∨ p ∈ (Destination.regOperand 1).places ctx ins) :
    Emits (Sets ctx p) (instrumentXADD ws ins) := by
  rcases hp with hp | hp
  · exact .bind_right fun _ => .bind_right fun _ => .bind_left (sets_operand hw hp _)
  · exact .bind_right fun _ => .bind_right fun _ => .bind_right fun _ =>
      .bind_left (sets_regOperand hp _)

theorem sets_XCHG (hw : Reached ctx p) (hp : p ∈ (Destination.operand 0).places ctx ins
    ∨ p ∈ (Destination.operand 1).places ctx ins) :
    Emits (Sets ctx p) (instrumentXCHG ins) := by
  rcases hp with hp | hp
  · exact .bind_right fun _ => .bind_right fun _ => .bind_left (sets_operand hw hp _)
  · exact .bind_right fun _ => .bind_right fun _ => .bind_right fun _ =>
      sets_operand hw hp _

/-- The places of the wide destinations are the registers of the width test. -/
theorem mem_wideDestinations {n : Nat} (hp : ∃ d ∈ wideDestinations n, p ∈ d.places ctx ins) :
    ∃ w, wideRegs n = some w ∧ isStackReg w.regAx = false ∧ isStackReg w.regDx = false
      ∧ (p = .reg w.regAx ∨ p = .reg w.regDx) := by
  obtain ⟨d, hd, hp⟩ := hp
  rw [wideDestinations] at hd
  rw [wideRegs]
  by_cases h32 : n = 32
  · rw [if_pos h32] at hd ⊢
    refine ⟨_, rfl, rfl, rfl, ?_⟩
    simp only [List.mem_cons, List.not_mem_nil, or_false] at hd
    rcases hd with rfl | rfl
    · exact Or.inl hp
    · exact Or.inr hp
  · rw [if_neg h32] at hd ⊢
    by_cases h64 : n = 64
    · rw [if_pos h64] at hd ⊢
      refine ⟨_, rfl, rfl, rfl, ?_⟩
      simp only [List.mem_cons, List.not_mem_nil, or_false] at hd
      rcases hd with rfl | rfl
      · exact Or.inl hp
      · exact Or.inr hp
    · rw [if_neg h64] at hd
      exact nomatch hd

theorem sets_MUL
    (hp : ∃ d ∈ wideDestinations (ins.operandWidth 0), p ∈ d.places ctx ins) :
    Emits (Sets ctx p) (instrumentMUL ins) := by
  obtain ⟨w, hw, hax, hdx, rfl | rfl⟩ := mem_wideDestinations hp
  · rw [instrumentMUL, hw]
    exact .bind_right fun _ => .bind_right fun _ => .bind_left (sets_register ctx hax _)
  · rw [instrumentMUL, hw]
    exact .bind_right fun _ => .bind_right fun _ => .bind_right fun _ =>
      .bind_left (sets_register ctx hdx _)

theorem sets_DIV
    (hp : ∃ d ∈ wideDestinations (ins.operandWidth 0), p ∈ d.places ctx ins) :
    Emits (Sets ctx p) (instrumentDIV ins) := by
  obtain ⟨w, hw, hax, hdx, rfl | rfl⟩ := mem_wideDestinations hp
  · rw [instrumentDIV, hw]
    exact .bind_right fun _ => .bind_right fun _ => .bind_right fun _ =>
      .bind_left (sets_register ctx hax _)
  · rw [instrumentDIV, hw]
    exact .bind_right fun _ => .bind_right fun _ => .bind_right fun _ =>
      .bind_right fun _ => .bind_left (sets_register ctx hdx _)

theorem sets_IDIV
    (hp : ∃ d ∈ wideDestinations (ins.operandWidth 0), p ∈ d.places ctx ins) :
    Emits (Sets ctx p) (instrumentIDIV ins) := by
  obtain ⟨w, hw, hax, hdx, rfl | rfl⟩ := mem_wideDestinations hp
  · rw [instrumentIDIV, hw]
    exact .bind_right fun _ => .bind_right fun _ => .bind_right fun _ =>
      .bind_left (sets_register ctx hax _)
  · rw [instrumentIDIV, hw]
    exact .bind_right fun _ => .bind_right fun _ => .bind_right fun _ =>
      .bind_right fun _ => .bind_left (sets_register ctx hdx _)

theorem sets_IMUL (hp : ∃ d ∈ (if ins.operandCount = 1
      then wideDestinations (ins.operandWidth 0) else [.regOperand 0]),
      p ∈ d.places ctx ins) :
    Emits (Sets ctx p) (instrumentIMUL ws ins) := by
  rw [instrumentIMUL]
  by_cases h1 : ins.operandCount = 1
  · rw [if_pos h1] at hp ⊢
    exact sets_MUL hp
  · rw [if_neg h1] at hp ⊢
    obtain ⟨d, hd, hp⟩ := hp
    cases List.mem_singleton.mp hd
    have hoperands : ∀ immediate, Emits (Sets ctx p) (imulOperands ws ins immediate) :=
      fun _ => .bind_right fun _ => .bind_right fun _ => .bind_left (sets_regOperand hp _)
    split
    · exact hoperands true
    · split
      · exact hoperands false
      · exact Emits.abort

theorem sets_PUSH (hw : Reached ctx p) (hp : p ∈ writtenBytes ctx) :
    Emits (Sets ctx p) (instrumentPUSH ins) :=
  .bind_right fun _ => .bind_right fun _ => sets_memory hw hp _

theorem sets_POP (hw : Reached ctx p) (hp : p ∈ (Destination.operand 0).places ctx ins) :
    Emits (Sets ctx p) (instrumentPOP ins) :=
  .bind_right fun _ => .bind_right fun _ => sets_operand hw hp _

theorem sets_MOV (hw : Reached ctx p) (hp : p ∈ (Destination.operand 0).places ctx ins) :
    Emits (Sets ctx p) (instrumentMOV ins) :=
  .bind_right fun _ => sets_operand hw hp _

theorem sets_MOVDQU (hw : Reached ctx p) (hp : p ∈ (Destination.operand 0).places ctx ins) :
    Emits (Sets ctx p) (instrumentMOVDQU ins) :=
  .bind_right fun _ => sets_operand hw hp _

theorem sets_LDDQU (hp : p ∈ (Destination.regOperand 0).places ctx ins) :
    Emits (Sets ctx p) (instrumentLDDQU ins) := by
  refine .bind_right fun _ => ?_
  split
  · exact sets_regOperand hp _
  · exact Emits.abort

theorem sets_LEA (hp : p ∈ (Destination.regOperand 0).places ctx ins) :
    Emits (Sets ctx p) (instrumentLEA ins) :=
  .bind_right fun _ => .bind_right fun _ => sets_regOperand hp _

theorem sets_CDQ (hp : ∃ d ∈ (if ins.operandWidth 0 = 32 then [Destination.register .edx]
      else if ins.operandWidth 0 = 64 then [.register .rdx] else []),
      p ∈ d.places ctx ins) :
    Emits (Sets ctx p) (instrumentCDQ ins) := by
  obtain ⟨d, hd, hp⟩ := hp
  rw [instrumentCDQ]
  by_cases h32 : ins.operandWidth 0 = 32
  · rw [if_pos h32] at hd ⊢
    cases List.mem_singleton.mp hd
    cases hp
    exact .bind_right fun _ => sets_register ctx rfl _
  · rw [if_neg h32] at hd ⊢
    by_cases h64 : ins.operandWidth 0 = 64
    · rw [if_pos h64] at hd ⊢
      cases List.mem_singleton.mp hd
      cases hp
      exact .bind_right fun _ => sets_register ctx rfl _
    · rw [if_neg h64] at hd
      exact nomatch hd

theorem sets_PUSHFD (hw : Reached ctx p) (hp : p ∈ writtenBytes ctx) :
    Emits (Sets ctx p) (instrumentPUSHFD ws) :=
  .bind_right fun _ => sets_memory hw hp _

theorem sets_SETcc (hw : Reached ctx p) (hp : p ∈ (Destination.operand 0).places ctx ins) :
    Emits (Sets ctx p) (instrumentSETcc ws ins) := by
  refine .bind_right fun _ => ?_
  rw [setccDestination]
  by_cases hreg : ins.operandIsReg 0 = true
  · rw [if_pos hreg]
    obtain ⟨hstack, -, rfl⟩ := places_operand_reg hreg hp
    exact sets_register ctx hstack _
  · rw [if_neg hreg]
    have hbytes := places_operand_memory (by simpa using hreg) hp
    split
    · exact .bind_right fun _ => sets_memory hw hbytes _
    · exact Emits.abort

/-- With a register destination exactly one of the two calls of CMPXCHG runs,
    and it assigns the register that is written. -/
theorem sets_CMPXCHG_register (hreg : ins.operandIsReg 0 = true)
    (hp : ∃ d ∈ (if exchanges ctx ins then [Destination.operand 0] else [.regOperand 2]),
      p ∈ d.places ctx ins) :
    Emits (Sets ctx p) (instrumentCMPXCHG ins) := by
  refine .bind_right fun _ => ?_
  rw [cmpxchgAssigns]
  rw [if_pos hreg]
  obtain ⟨d, hd, hp⟩ := hp
  by_cases hex : exchanges ctx ins = true
  · rw [if_pos hex] at hd
    cases List.mem_singleton.mp hd
    obtain ⟨hstack, -, rfl⟩ := places_operand_reg hreg hp
    have heq : checkEqual_r_r (ctx.regValue (ins.operandReg 0))
        (ctx.regValue (ins.operandReg 2)) = true := by
      rw [exchanges, if_pos hreg] at hex
      exact hex
    exact .bind_left (Emits.emit ⟨heq, hstack, _, mem_writtenRegs.mpr (Or.inl rfl), rfl⟩)
  · rw [if_neg hex] at hd
    cases List.mem_singleton.mp hd
    obtain ⟨hstack, -, rfl⟩ := places_regOperand hp
    have hne : checkNotEqual_r_r (ctx.regValue (ins.operandReg 0))
        (ctx.regValue (ins.operandReg 2)) = true := by
      rw [exchanges, if_pos hreg] at hex
      simpa [checkNotEqual_r_r] using hex
    exact .bind_right fun _ =>
      Emits.emit ⟨hne, hstack, _, mem_writtenRegs.mpr (Or.inl rfl), rfl⟩

theorem operandIsMemory_of_cmpxchgLoads (hreg : ins.operandIsReg 0 = false)
    (hc : Completes (cmpxchgLoads ins)) : ins.operandIsMemory 0 = true := by
  rw [cmpxchgLoads] at hc
  split at hc
  · obtain ⟨a, ha, -⟩ := completes_bind.mp hc
    have hload : Completes (taintForOperand ins 0 .dest true false) := ⟨a, ha⟩
    by_contra hmem
    rw [Bool.not_eq_true] at hmem
    rw [taintForOperand, hreg, hmem] at hload
    exact not_completes_abort hload
  · exact absurd hc not_completes_abort

/-- With a memory destination both calls run when the words compare equal. -/
theorem sets_CMPXCHG_memory (hreg : ins.operandIsReg 0 = false)
    (heq : checkEqual_m_r ctx.memory ctx.memoryReadEA (ctx.regValue (ins.operandReg 2)) = true)
    (hw : Reached ctx p)
    (hp : ∃ d ∈ (if exchanges ctx ins then [Destination.operand 0] else [.regOperand 2]),
      p ∈ d.places ctx ins) :
    Emits (Sets ctx p) (instrumentCMPXCHG ins) := by
  intro hc
  have hloads : Completes (cmpxchgLoads ins) := by
    obtain ⟨a, ha, -⟩ := completes_bind.mp hc
    exact ⟨a, ha⟩
  have hmem := operandIsMemory_of_cmpxchgLoads hreg hloads
  refine Emits.bind_right (fun _ => ?_) hc
  rw [cmpxchgAssigns, hreg, hmem]
  obtain ⟨d, hd, hp⟩ := hp
  by_cases hex : exchanges ctx ins = true
  · rw [if_pos hex] at hd
    cases List.mem_singleton.mp hd
    have hbytes := places_operand_memory hreg hp
    exact .bind_left (Emits.emit ⟨heq, writtenBytes_subset (hw hbytes) hbytes⟩)
  · rw [if_neg hex] at hd
    cases List.mem_singleton.mp hd
    obtain ⟨hstack, -, rfl⟩ := places_regOperand hp
    exact .bind_right fun _ =>
      Emits.emit ⟨heq, hstack, _, mem_writtenRegs.mpr (Or.inl rfl), rfl⟩

theorem sets_MOVS (hw : Reached ctx p) (hp : p ∈ writtenBytes ctx) :
    Emits (Sets ctx p) (instrumentMOVS ins) := by
  refine .bind_right fun _ => .bind_right fun _ => ?_
  split
  · exact .bind_right fun _ => sets_memory hw hp _
  · exact sets_memory hw hp _

theorem sets_STOSB (hw : Reached ctx p) (hp : p ∈ writtenBytes ctx) :
    Emits (Sets ctx p) (instrumentSTOSB ins) :=
  .bind_right fun _ => .bind_right fun _ => .bind_right fun _ => sets_memory hw hp _

theorem sets_STOSD (hw : Reached ctx p) (hp : p ∈ writtenBytes ctx) :
    Emits (Sets ctx p) (instrumentSTOSD ins) :=
  .bind_right fun _ => .bind_right fun _ => .bind_right fun _ => sets_memory hw hp _

/-- SCASB assigns the count register where it is repeated. -/
theorem sets_SCASB (hrep : (ins.repPrefix || ins.repnePrefix) = true) :
    Emits (Sets ctx (.reg .ecx)) (instrumentSCASB ws ins) := by
  refine .bind_right fun _ => .bind_right fun _ => .bind_right fun _ =>
    .bind_right fun _ => ?_
  rw [if_pos hrep]
  exact sets_register ctx rfl _

/-- A list of one destination. -/
theorem mem_one {d : Destination} (h : ∃ d' ∈ [d], p ∈ d'.places ctx ins) :
    p ∈ d.places ctx ins := by
  obtain ⟨d', hd', hp⟩ := h
  cases List.mem_singleton.mp hd'
  exact hp

/-- A list of two destinations. -/
theorem mem_two {d e : Destination} (h : ∃ d' ∈ [d, e], p ∈ d'.places ctx ins) :
    p ∈ d.places ctx ins ∨ p ∈ e.places ctx ins := by
  obtain ⟨d', hd', hp⟩ := h
  rcases List.mem_pair.mp hd' with rfl | rfl
  · exact Or.inl hp
  · exact Or.inr hp

/-- An assigning handler that completes has inserted an assigning call for
    each of its destinations. -/
theorem sets_results (hcov : coverage ctx ins = .assigned) (hw : Reached ctx p)
    (hp : p ∈ resultPlaces ctx ins) : Emits (Sets ctx p) (dataflow ws ins) := by
  rw [dataflow]
  have hp : ∃ d ∈ destinations ctx ins, p ∈ d.places ctx ins := hp
  rw [destinations] at hp
  rw [coverage] at hcov
  revert hcov hp
  cases ins.iclass with
  | ADD | OR | AND | SUB => exact fun _ hp => sets_ADD hw (mem_one hp)
  | ADC | SBB => exact fun _ hp => sets_ADC hw (mem_one hp)
  | XOR =>
      intro hcov hp
      cases hsame : sameRegisters ins with
      | true => simp [hsame] at hcov
      | false => exact sets_XOR hsame hw (mem_one hp)
  | SAR | SHL | SHR => exact fun _ hp => sets_SAR hw (mem_one hp)
  | SHLD | SHRD => exact fun _ hp => sets_SHLD hw (mem_one hp)
  | XADD => exact fun _ hp => sets_XADD hw (mem_two hp)
  | XCHG => exact fun _ hp => sets_XCHG hw (mem_two hp)
  | MUL => exact fun _ hp => sets_MUL hp
  | IMUL => exact fun _ hp => sets_IMUL hp
  | DIV => exact fun _ hp => sets_DIV hp
  | IDIV => exact fun _ hp => sets_IDIV hp
  | PUSH => exact fun _ hp => sets_PUSH hw (mem_one hp)
  | POP => exact fun _ hp => sets_POP hw (mem_one hp)
  | MOV | MOVZX | MOVSX => exact fun _ hp => sets_MOV hw (mem_one hp)
  | MOVDQU => exact fun _ hp => sets_MOVDQU hw (mem_one hp)
  | LDDQU => exact fun _ hp => sets_LDDQU (mem_one hp)
  | LEA => exact fun _ hp => sets_LEA (mem_one hp)
  | CWDE =>
      intro _ hp
      rw [show p = .reg .eax from mem_one hp]
      exact .bind_right fun _ => sets_register ctx rfl _
  | CDQ => exact fun _ hp => sets_CDQ hp
  | PUSHFD => exact fun _ hp => sets_PUSHFD hw (mem_one hp)
  | SETB | SETNB | SETZ | SETNZ | SETBE | SETNBE | SETS | SETL | SETNL | SETLE | SETNLE =>
      exact fun _ hp => sets_SETcc hw (mem_one hp)
  | CMPXCHG =>
      intro hcov hp
      by_cases hreg : ins.operandIsReg 0 = true
      · exact sets_CMPXCHG_register hreg hp
      · rw [Bool.not_eq_true] at hreg
        cases heq : checkEqual_m_r ctx.memory ctx.memoryReadEA (ctx.regValue (ins.operandReg 2)) with
        | true => exact sets_CMPXCHG_memory hreg heq hw hp
        | false => simp [hreg, heq] at hcov
  | MOVSB | MOVSW | MOVSD => exact fun _ hp => sets_MOVS hw (mem_one hp)
  | STOSB => exact fun _ hp => sets_STOSB hw (mem_one hp)
  | STOSD => exact fun _ hp => sets_STOSD hw (mem_one hp)
  | FNSTSW =>
      intro hcov
      by_cases hreg : ins.operandIsReg 0 = true <;> simp [hreg] at hcov
  | _ =>
      intro hcov
      simp at hcov

/-- Every place of `assignedDestinations` is assigned by a call. -/
theorem sets_dataflow (hp : p ∈ assignedDestinations ctx ins) :
    Emits (Sets ctx p) (dataflow ws ins) := by
  obtain ⟨hw, ⟨hcov, hp⟩ | ⟨hclass, hmem, rfl⟩⟩ := hp
  · exact sets_results hcov hw hp
  · rw [steppedRegs, hclass] at hmem
    rw [dataflow, hclass]
    by_cases hrep : (ins.repPrefix || ins.repnePrefix) = true
    · exact sets_SCASB hrep
    · simp only [if_neg hrep, List.append_nil] at hmem
      cases ws <;> exact absurd hmem (by decide)

/-! ## The handlers that clear their destinations -/

theorem clears_register (ctx : Ctx ws) (r : Reg) :
    Emits (Clears ctx (.reg r)) (insertCall (.clearTaintForRegister r)) :=
  Emits.emit ⟨rfl, rfl⟩

theorem clears_XOR (hsame : sameRegisters ins = true)
    (hp : p ∈ (Destination.operand 0).places ctx ins) :
    Emits (Clears ctx p) (instrumentXOR ws ins) := by
  have hreg : ins.operandIsReg 0 = true := by
    rw [sameRegisters] at hsame
    rw [Bool.and_eq_true, Bool.and_eq_true] at hsame
    exact hsame.1.1
  have hdest : Emits (Clears ctx p) (xorDestination ins) := by
    rw [xorDestination]
    rw [if_pos hsame]
    obtain ⟨-, -, rfl⟩ := places_operand_reg hreg hp
    exact clears_register ctx _
  exact .bind_right fun _ => .bind_right fun _ => .bind_left hdest

theorem clears_regOperand (hp : p ∈ (Destination.regOperand 0).places ctx ins) :
    Emits (Clears ctx p) (insertCall (.clearTaintForRegister (ins.operandReg 0))) := by
  obtain ⟨-, -, rfl⟩ := places_regOperand hp
  exact clears_register ctx _

theorem clears_memory (hw : Reached ctx p) (hp : p ∈ writtenBytes ctx) :
    Emits (Clears ctx p) (insertCall .clearTaintForMemory) :=
  Emits.emit ⟨rfl, writtenBytes_subset (hw hp) hp⟩

theorem clears_CPUID (hp : ∃ d ∈ [Destination.register .eax, .register .ebx, .register .ecx,
      .register .edx], p ∈ d.places ctx ins) :
    Emits (Clears ctx p) instrumentCPUID := by
  obtain ⟨d, hd, hp⟩ := hp
  simp only [List.mem_cons, List.not_mem_nil, or_false] at hd
  rcases hd with rfl | rfl | rfl | rfl
  all_goals cases hp
  · exact .bind_left (clears_register ctx _)
  · exact .bind_right fun _ => .bind_left (clears_register ctx _)
  · exact .bind_right fun _ => .bind_right fun _ => .bind_left (clears_register ctx _)
  · exact .bind_right fun _ => .bind_right fun _ => .bind_right fun _ =>
      clears_register ctx _

/-- Every place of `clearedDestinations` is cleared by a call. -/
theorem clears_dataflow (hp : p ∈ clearedDestinations ctx ins) :
    Emits (Clears ctx p) (dataflow ws ins) := by
  rw [dataflow]
  obtain ⟨hw, hcov, hp⟩ := hp
  have hp : ∃ d ∈ destinations ctx ins, p ∈ d.places ctx ins := hp
  rw [destinations] at hp
  rw [coverage] at hcov
  revert hcov hp
  cases ins.iclass with
  | XOR =>
      intro hcov hp
      cases hsame : sameRegisters ins with
      | true => exact clears_XOR hsame (mem_one hp)
      | false => simp [hsame] at hcov
  | BSF | BSR => exact fun _ hp => clears_regOperand (mem_one hp)
  | RDTSC =>
      intro _ hp
      rcases mem_two hp with hp | hp
      · rw [show p = .reg .eax from hp]
        exact .bind_left (clears_register ctx _)
      · rw [show p = .reg .edx from hp]
        exact .bind_right fun _ => clears_register ctx _
  | CPUID => exact fun _ hp => clears_CPUID hp
  | FNSTCW | STMXCSR => exact fun _ hp => clears_memory hw (mem_one hp)
  | FNSTSW =>
      intro hcov hp
      by_cases hreg : ins.operandIsReg 0 = true
      · obtain ⟨-, -, rfl⟩ := places_operand_reg hreg (mem_one hp)
        show Emits _ (instrumentFNSTSW ins)
        rw [instrumentFNSTSW, if_pos hreg]
        exact clears_register ctx _
      · simp [hreg] at hcov
  | CMPXCHG =>
      intro hcov
      dsimp only at hcov
      split at hcov <;> exact nomatch hcov
  | _ =>
      intro hcov
      simp at hcov

/-! ## What no call assigns -/

/-- If the call runs in `s` it does not assign `p`: it names other places, or
    clears `p` where it is no key. -/
def Avoids (ctx : Ctx ws) (s : TaintState ws N) (p : Place ws) (i : Inserted) : Prop :=
  ctx.fires i = true → p ∉ setPlaces (ctx.resolve i.call)
    ∧ (p ∈ clearPlaces (ctx.resolve i.call) → p ∉ present s)

variable {s : TaintState ws N}

theorem avoids_taintForRegister (r : Reg) (set : Scratch) :
    EmitsOnly (Avoids ctx s p) (insertCall (.taintForRegister r set)) :=
  EmitsOnly.emit fun _ => ⟨Set.notMem_empty p, (absurd · (Set.notMem_empty p))⟩

theorem avoids_taintForMemory (ea : ReadEA) (set : Scratch) :
    EmitsOnly (Avoids ctx s p) (insertCall (.taintForMemory ea set)) := by
  refine EmitsOnly.emit fun _ => ?_
  cases ea <;> exact ⟨Set.notMem_empty p, (absurd · (Set.notMem_empty p))⟩

theorem avoids_clearTaintSet (set : Scratch) :
    EmitsOnly (Avoids ctx s p) (insertCall (.clearTaintSet set)) :=
  EmitsOnly.emit fun _ => ⟨Set.notMem_empty p, (absurd · (Set.notMem_empty p))⟩

theorem avoids_requireMemoryRead (ins : Ins) :
    EmitsOnly (Avoids ctx s p) (requireMemoryRead ins) := by
  rw [requireMemoryRead]
  split
  · exact EmitsOnly.pure
  · exact EmitsOnly.leave

theorem avoids_requireMemoryWrite (ins : Ins) :
    EmitsOnly (Avoids ctx s p) (requireMemoryWrite ins) := by
  rw [requireMemoryWrite]
  split
  · exact EmitsOnly.pure
  · exact EmitsOnly.leave

/-- Loading an operand assigns a scratch set only. -/
theorem avoids_taintForOperand (n : Nat) (set : Scratch) (memory immediate : Bool) :
    EmitsOnly (Avoids ctx s p) (taintForOperand ins n set memory immediate) := by
  rw [taintForOperand]
  split
  · exact avoids_taintForRegister _ _
  split
  · exact .bind (avoids_requireMemoryRead ins) fun _ => avoids_taintForMemory _ _
  split
  · exact avoids_clearTaintSet _
  · exact EmitsOnly.abort

/-- Assigning a register assigns no place but its names. -/
theorem avoids_setTaintForRegister {r : Reg} (hp : p ∉ (regPlaces r : Set (Place ws)))
    (sets : List Scratch) : EmitsOnly (Avoids ctx s p) (insertCall (.setTaintForRegister r sets)) :=
  EmitsOnly.emit fun _ => ⟨hp, (absurd · (Set.notMem_empty p))⟩

theorem avoids_setTaintForFlags (hp : p ≠ .reg (flagsReg ws)) (sets : List Scratch) :
    EmitsOnly (Avoids ctx s p) (setTaintForFlags ws sets) := by
  refine avoids_setTaintForRegister ?_ sets
  rw [regPlaces_flags]
  exact hp

theorem avoids_setTaintForMemory (r : Reg) (sets : List Scratch) :
    EmitsOnly (Avoids ctx s (.reg r)) (insertCall (.setTaintForMemory sets)) := by
  refine EmitsOnly.emit fun _ => ⟨?_, (absurd · (Set.notMem_empty _))⟩
  rintro ⟨a, -, h⟩
  exact nomatch h

/-- A destination is not the flags register. -/
theorem ne_flags_of_operand (hp : p ∈ (Destination.operand 0).places ctx ins) :
    p ≠ .reg (flagsReg ws) := by
  by_cases hreg : ins.operandIsReg 0 = true
  · obtain ⟨-, hflags, rfl⟩ := places_operand_reg hreg hp
    exact fun h => hflags (Place.reg.inj h)
  · obtain ⟨i, -, rfl⟩ := places_operand_memory (by simpa using hreg) hp
    exact fun h => nomatch h

theorem avoids_DEC (hp : p ∈ (Destination.operand 0).places ctx ins) :
    EmitsOnly (Avoids ctx s p) (instrumentDEC ws ins) :=
  .bind (avoids_taintForOperand 0 .dest true false) fun _ =>
    avoids_setTaintForFlags (ne_flags_of_operand hp) _

/-- With a memory destination that compares unequal as a whole `ADDRINT` no
    assignment of CMPXCHG runs. -/
theorem avoids_CMPXCHG (hreg : ins.operandIsReg 0 = false)
    (hne : checkEqual_m_r ctx.memory ctx.memoryReadEA (ctx.regValue (ins.operandReg 2)) = false) :
    EmitsOnly (Avoids ctx s p) (instrumentCMPXCHG ins) := by
  have hloads : EmitsOnly (Avoids ctx s p) (cmpxchgLoads ins) := by
    rw [cmpxchgLoads]
    split
    · exact .bind (avoids_taintForOperand 0 .dest true false) fun _ =>
        .bind (avoids_taintForRegister _ _) fun _ => avoids_taintForRegister _ _
    · exact EmitsOnly.abort
  refine .bind hloads fun _ => ?_
  rw [cmpxchgAssigns, hreg]
  -- neither check passes
  have hfires : ∀ c check, ctx.passes check = false → EmitsOnly (Avoids ctx s p)
      (insertIfThenCall check c) := by
    intro c check hcheck
    refine EmitsOnly.emit fun hfire => ?_
    rw [Ctx.fires, Option.map_some, Option.getD_some, hcheck] at hfire
    exact nomatch hfire
  split
  · exact absurd ‹false = true› Bool.false_ne_true
  split
  · exact .bind (hfires _ _ hne) fun _ => hfires _ _ hne
  · exact EmitsOnly.pure

/-- A handler that covers none of its destinations assigns and clears none. -/
theorem avoids_results (hcov : coverage ctx ins = .uncovered) (hp : p ∈ resultPlaces ctx ins) :
    EmitsOnly (Avoids ctx s p) (dataflow ws ins) := by
  rw [dataflow]
  have hp : ∃ d ∈ destinations ctx ins, p ∈ d.places ctx ins := hp
  rw [destinations] at hp
  rw [coverage] at hcov
  revert hcov hp
  cases ins.iclass with
  | INC | DEC | NEG => exact fun _ hp => avoids_DEC (mem_one hp)
  | NOT | ROL | ROR | BSWAP | LAHF | CALL_NEAR => exact fun _ _ => EmitsOnly.pure
  | FST | FSTP | FIST | FISTP | FLD | FLDZ | FILD | FADDP | FIADD | FDIV | FDIVP | FDIVRP
  | FIDIVR | FXCH => exact fun _ _ => EmitsOnly.pure
  | CMPXCHG =>
      intro hcov _
      dsimp only at hcov
      split at hcov
      · exact nomatch hcov
      · rename_i hnot
        rw [Bool.not_eq_true, Bool.or_eq_false_iff] at hnot
        exact avoids_CMPXCHG hnot.1 hnot.2
  | FNSTSW =>
      intro hcov _
      dsimp only at hcov
      split at hcov
      · exact nomatch hcov
      · rename_i hreg
        show EmitsOnly _ (instrumentFNSTSW ins)
        rw [instrumentFNSTSW, if_neg hreg]
        exact EmitsOnly.pure
  | XOR =>
      intro hcov
      dsimp only at hcov
      split at hcov <;> exact nomatch hcov
  | _ =>
      rintro hcov ⟨d, hd, -⟩
      first
        | exact absurd hd List.not_mem_nil
        | simp at hcov

/-- Clearing a place that is no key assigns nothing. -/
theorem avoids_clear {c : Analysis} (hset : p ∉ setPlaces (ctx.resolve c)) (hp : p ∉ present s) :
    EmitsOnly (Avoids ctx s p) (insertCall c) :=
  EmitsOnly.emit fun _ => ⟨hset, fun _ => hp⟩

/-- A handler that clears its destinations leaves alone those that are no
    keys. -/
theorem avoids_cleared (hcov : coverage ctx ins = .cleared) (hp : p ∈ resultPlaces ctx ins)
    (hpres : p ∉ present s) : EmitsOnly (Avoids ctx s p) (dataflow ws ins) := by
  have hclear : ∀ r, EmitsOnly (Avoids ctx s p) (insertCall (.clearTaintForRegister r)) :=
    fun _ => avoids_clear (Set.notMem_empty p) hpres
  have hbytes : EmitsOnly (Avoids ctx s p) (insertCall .clearTaintForMemory) :=
    avoids_clear (Set.notMem_empty p) hpres
  rw [dataflow]
  have hp : ∃ d ∈ destinations ctx ins, p ∈ d.places ctx ins := hp
  rw [destinations] at hp
  rw [coverage] at hcov
  revert hcov hp
  cases ins.iclass with
  | XOR =>
      intro hcov hp
      have hdest : EmitsOnly (Avoids ctx s p) (xorDestination ins) := by
        rw [xorDestination]
        dsimp only at hcov
        split at hcov
        · rw [if_pos ‹_›]
          exact hclear _
        · exact nomatch hcov
      exact .bind (avoids_taintForOperand 0 .dest true false) fun _ =>
        .bind (avoids_taintForOperand 1 .src true true) fun _ =>
        .bind hdest fun _ => avoids_setTaintForFlags (ne_flags_of_operand (mem_one hp)) _
  | BSF | BSR => exact fun _ _ => hclear _
  | RDTSC => exact fun _ _ => .bind (hclear _) fun _ => hclear _
  | CPUID =>
      exact fun _ _ => .bind (hclear _) fun _ => .bind (hclear _) fun _ =>
        .bind (hclear _) fun _ => hclear _
  | FNSTCW | STMXCSR => exact fun _ _ => hbytes
  | FNSTSW =>
      intro _ _
      show EmitsOnly _ (instrumentFNSTSW ins)
      rw [instrumentFNSTSW]
      split
      · exact hclear _
      · exact EmitsOnly.pure
  | CMPXCHG =>
      intro hcov
      dsimp only at hcov
      split at hcov <;> exact nomatch hcov
  | _ =>
      intro hcov
      simp at hcov

/-- A register that a string instruction steps. -/
theorem mem_steppedRegs {r : Reg} (hr : r ∈ steppedRegs ws ins) :
    r ∈ [Reg.rsi, .esi, .rdi, .edi, .rcx, .ecx] := by
  have hindex : sourceIndex ws ++ destinationIndex ws ++ countRegister ws
      ⊆ [Reg.rsi, .esi, .rdi, .edi, .rcx, .ecx] := by
    cases ws <;> decide
  have hmaybe : ∀ b : Bool, (if b then countRegister ws else []) ⊆ countRegister ws := by
    intro b
    cases b with
    | true => exact List.Subset.refl _
    | false => exact List.nil_subset _
  refine hindex ?_
  rw [List.mem_append, List.mem_append]
  rw [steppedRegs] at hr
  revert hr
  cases ins.iclass with
  | MOVSB | MOVSW | MOVSD | CMPSB =>
      intro hr
      rw [List.mem_append, List.mem_append] at hr
      exact hr.imp_right (hmaybe _ ·)
  | STOSB | STOSD | SCASB =>
      intro hr
      rw [List.mem_append] at hr
      exact hr.imp .inr (hmaybe _ ·)
  | _ => exact fun hr => absurd hr List.not_mem_nil

/-- No handler assigns a register that a string instruction steps, but for the
    count register of SCASB. -/
theorem avoids_stepped {r : Reg} (hr : r ∈ steppedRegs ws ins)
    (hnot : ¬ (ins.iclass = .SCASB ∧ r = .ecx)) :
    EmitsOnly (Avoids ctx s (.reg r)) (dataflow ws ins) := by
  have hname := mem_steppedRegs hr
  have hflags : Place.reg r ≠ (.reg (flagsReg ws) : Place ws) := by
    intro h
    rw [Place.reg.inj h] at hname
    revert hname
    cases ws <;> decide
  rw [dataflow]
  rw [steppedRegs] at hr
  revert hr hnot
  cases ins.iclass with
  | MOVSB | MOVSW | MOVSD =>
      intro _ _
      show EmitsOnly _ (instrumentMOVS ins)
      refine .bind (avoids_taintForMemory _ _) fun _ =>
        .bind (avoids_taintForMemory _ _) fun _ => ?_
      split
      · exact .bind (avoids_taintForRegister _ _) fun _ => avoids_setTaintForMemory _ _
      · exact avoids_setTaintForMemory _ _
  | STOSB | STOSD =>
      exact fun _ _ => .bind (avoids_taintForRegister _ _) fun _ =>
        .bind (avoids_taintForRegister _ _) fun _ =>
        .bind (avoids_requireMemoryWrite ins) fun _ => avoids_setTaintForMemory _ _
  | CMPSB =>
      exact fun _ _ => .bind (avoids_requireMemoryRead ins) fun _ =>
        .bind (avoids_taintForMemory _ _) fun _ => .bind (avoids_requireMemoryRead ins) fun _ =>
        .bind (avoids_taintForMemory _ _) fun _ => avoids_setTaintForFlags hflags _
  | SCASB =>
      intro _ hnot
      refine .bind (avoids_requireMemoryRead ins) fun _ => .bind (avoids_taintForMemory _ _)
        fun _ => .bind (avoids_taintForRegister _ _) fun _ =>
        .bind (avoids_setTaintForFlags hflags _) fun _ => ?_
      split
      · refine avoids_setTaintForRegister ?_ _
        rintro ⟨-, q, hq, h⟩
        rw [← Place.reg.inj h] at hq
        have hecx : r = .ecx := by
          revert hq
          simp only [List.mem_cons, List.not_mem_nil, or_false] at hname
          rcases hname with rfl | rfl | rfl | rfl | rfl | rfl <;> decide
        exact hnot ⟨rfl, hecx⟩
      · exact EmitsOnly.pure
  | _ => exact fun hr => absurd hr List.not_mem_nil

/-- The loops over a range that wraps around assign nothing. -/
theorem avoids_unreached {p : Place ws} (hp : ¬ Reached ctx p) (e : Emitter Inserted Unit) :
    EmitsOnly (Avoids ctx s p) e := by
  rw [Reached, Classical.not_imp] at hp
  obtain ⟨⟨i, hi, rfl⟩, hwrap⟩ := hp
  have hrange : Place.mem (ctx.memoryWriteEA + BitVec.ofNat ws.bits i)
      ∉ (rangePlaces ctx.memoryWriteEA ctx.memoryWriteSize : Set (Place ws)) := by
    rintro ⟨a, ha, -⟩
    rw [mem_addrRange, BitVec.le_def, BitVec.lt_def, BitVec.toNat_add] at ha
    rw [NoWrap, not_lt] at hwrap
    have hsize := ctx.memoryWriteSize.isLt
    have hstart := ctx.memoryWriteEA.isLt
    rw [Nat.mod_eq_sub_mod hwrap, Nat.mod_eq_of_lt (by omega)] at ha
    omega
  intro c _ _
  cases c.call with
  | setTaintForRegister r _ =>
      refine ⟨?_, (absurd · (Set.notMem_empty _))⟩
      rintro ⟨-, q, -, h⟩
      exact nomatch h
  | setTaintForMemory _ => exact ⟨hrange, (absurd · (Set.notMem_empty _))⟩
  | clearTaintForRegister r =>
      exact ⟨Set.notMem_empty _, fun h => nomatch (show Place.mem _ = .reg r from h)⟩
  | clearTaintForMemory => exact ⟨Set.notMem_empty _, (absurd · hrange)⟩
  | taintForMemory ea _ => cases ea <;> exact ⟨Set.notMem_empty _, (absurd · (Set.notMem_empty _))⟩
  | _ => exact ⟨Set.notMem_empty _, (absurd · (Set.notMem_empty _))⟩

/-- What is neither assigned, nor cleared as a key, no call touches. -/
theorem avoids_dataflow (hp : p ∈ destinationPlaces ctx ins)
    (hassigned : p ∉ assignedDestinations ctx ins)
    (hcleared : p ∈ clearedDestinations ctx ins → p ∉ present s) :
    EmitsOnly (Avoids ctx s p) (dataflow ws ins) := by
  by_cases hw : Reached ctx p
  · rcases hp with hp | ⟨r, hr, rfl⟩
    · cases hcov : coverage ctx ins with
      | assigned => exact absurd ⟨hw, .inl ⟨hcov, hp⟩⟩ hassigned
      | cleared => exact avoids_cleared hcov hp (hcleared ⟨hw, hcov, hp⟩)
      | uncovered => exact avoids_results hcov hp
    · refine avoids_stepped hr ?_
      rintro ⟨hclass, rfl⟩
      exact hassigned ⟨hw, .inr ⟨hclass, hr, rfl⟩⟩
  · exact avoids_unreached hw _

/-! ## The control taint at the destinations -/

theorem assignedDestinations_subset :
    assignedDestinations ctx ins ⊆ destinationPlaces ctx ins := by
  rintro p ⟨-, ⟨-, hp⟩ | ⟨-, hmem, rfl⟩⟩
  · exact .inl hp
  · exact .inr ⟨.ecx, hmem, rfl⟩

theorem isStored_destination (hp : p ∈ destinationPlaces ctx ins) : IsStored p := by
  rcases hp with ⟨d, -, hd⟩ | ⟨r, -, rfl⟩
  · exact isStored_places hd
  · exact isStored_reg r

/-- **Control coverage**: when the handler of an instruction completes, every
    place that the instruction writes has the control taint afterwards exactly
    when each is assigned by the handler, or is cleared by it and a key, or has
    the control taint before. -/
theorem receivesControl_iff (hs : SizedState s) (hacc : Completes (dataflow ws ins)) :
    ReceivesControl ctx ins s ↔ ∀ p ∈ destinationPlaces ctx ins,
      p ∈ assignedDestinations ctx ins ∨ (p ∈ clearedDestinations ctx ins ∧ p ∈ present s)
        ∨ controlMarks s ⊆ marksAt s p := by
  have hdata := isData_callsAt ctx (dataflow ws ins).calls
  constructor
  · rintro ⟨s', hrun, hmarks⟩ p hp
    by_contra hno
    rw [not_or, not_or, not_and] at hno
    obtain ⟨hassigned, hcleared, hbefore⟩ := hno
    refine hbefore ?_
    have hsame : entryAt s' p = entryAt s p := by
      refine entry_untouched hdata (isStored_destination hp) hs hrun fun c hc => ?_
      obtain ⟨i, hi, hfires, rfl⟩ := mem_callsAt.mp hc
      exact avoids_dataflow hp hassigned hcleared i hi hfires
    rw [marksAt, ← hsame]
    exact hmarks p hp
  · intro hcond
    obtain ⟨s', hrun, hkept⟩ := control_kept hdata hs
    refine ⟨s', hrun, fun p hp => hkept p (isStored_destination hp) ?_⟩
    rcases hcond p hp with h | ⟨h, hpres⟩ | h
    · obtain ⟨i, hi, hfires, hset⟩ := sets_dataflow h hacc
      exact .inr ⟨_, mem_callsAt.mpr ⟨i, hi, hfires, rfl⟩, .inl hset⟩
    · obtain ⟨i, hi, hfires, hclear⟩ := clears_dataflow h hacc
      exact .inr ⟨_, mem_callsAt.mpr ⟨i, hi, hfires, rfl⟩, .inr ⟨hclear, hpres⟩⟩
    · exact .inl h

end Assigned

/-- `add eax, ebx` in the scope of a tainted branch. -/
theorem receivesControl_iff_add :
    ∃ s, run [.pushControl 20] (flagsTainted .w64 1) = some s ∧ 0 ∈ controlMarks s
      ∧ ReceivesControl (writesAt .w64 0 0) (onRegisters .ADD [(.eax, 32), (.ebx, 32)]) s := by
  obtain ⟨s, hrun, hs⟩ := run_sized (flagsTainted_sized .w64 Nat.one_pos) [.pushControl 20]
  refine ⟨s, hrun, ?_, (receivesControl_iff hs ⟨(), rfl⟩).mpr fun p hp => .inl ⟨?_, .inl ⟨rfl, ?_⟩⟩⟩
  · cases hrun
    exact ⟨.ctl 20, ⟨20, rfl⟩, ⟨[1#64], 1⟩, by decide, by decide, by decide⟩
  · rintro ⟨i, hi, -⟩
    exact absurd hi (Nat.not_lt_zero i)
  · rcases hp with hp | ⟨r, hr, -⟩
    · exact hp
    · exact absurd hr List.not_mem_nil

/-- `inc eax` in the scope of a tainted branch: only the flags are assigned, and
    EAX stays without the control taint. -/
theorem inc_uncovered :
    Completes (dataflow .w64 (onRegisters .INC [(.eax, 32)]))
      ∧ ∃ s, run [.pushControl 20] (flagsTainted .w64 1) = some s ∧ 0 ∈ controlMarks s
        ∧ ¬ ReceivesControl (writesAt .w64 0 0) (onRegisters .INC [(.eax, 32)]) s := by
  refine ⟨⟨(), rfl⟩, _, rfl, ⟨.ctl 20, ⟨20, rfl⟩, ⟨[1#64], 1⟩, ?_, ?_, ?_⟩, ?_⟩
  · decide
  · decide
  · decide
  · rintro ⟨s', hrun, h⟩
    cases hrun
    obtain ⟨b, hb, -⟩ := h (.reg .eax)
      (.inl ⟨.operand 0, List.mem_cons_self, rfl, by decide, rfl⟩)
      (show 0 ∈ controlMarks _ from
        ⟨.ctl 20, ⟨20, rfl⟩, ⟨[1#64], 1⟩, by decide, by decide, by decide⟩)
    exact nomatch (show none = some b from hb)

end DytanControlCoverage
