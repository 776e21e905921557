import Dytan.MarkFlowProofs
import Dytan.EmissionProofs

/-! # Instructions and the calls inserted before them

    What the instrumentation framework tells a handler about an instruction
    (`Ins`), and the calls a handler can insert (`Inserted`).  The effective
    addresses, register values and memory a call receives are known only when
    the instruction executes; `Ctx` holds them, and `callsAt` turns inserted
    calls into the analysis calls that run. -/

namespace DytanInstruction

open DytanRegister DytanTaintState DytanMarkFlow

/-- Instruction classes (`XED_ICLASS_…`): those of the dispatch table, and
    `other` for all that have no entry. -/
inductive IClass where
  | ADD | PUSH | POP | OR | ADC | SBB | AND | SUB | XOR | CMP | INC | DEC | IMUL
  | JO | JNO | JB | JNB | JZ | JNZ | JBE | JNBE | JS | JNS | JP | JNP | JL | JNL | JLE | JNLE
  | TEST | XCHG | MOV | MOVDQU | LDDQU | LEA | PAUSE | CWDE | CDQ | PUSHFD | POPFD
  | SAHF | LAHF | MOVSB | MOVSW | MOVSD | CMPSB | STOSB | STOSD | SCASB
  | RET_NEAR | LEAVE | INT | JRCXZ | CALL_NEAR | JMP | HLT | CLD | STD | RDTSC
  | SETB | SETNB | SETZ | SETNZ | SETBE | SETNBE | CPUID | BT | SHLD | CMPXCHG
  | NOP | NOP2 | NOP3 | NOP4 | NOP5 | NOP6 | NOP7 | NOP8 | NOP9 | MOVZX | XADD
  | SETS | SETL | SETNL | SETLE | SETNLE | SHRD | BSF | BSR | MOVSX | BSWAP
  | ROL | ROR | SHL | SHR | SAR | NOT | NEG | MUL | DIV | IDIV | LDMXCSR | STMXCSR
  | FDIV | FLD | FST | FSTP | FLDCW | FNSTCW | FXCH | FLDZ | FILD | FISTP
  | FNSTSW | FUCOM | FADDP | FDIVRP | FDIVP | FIDIVR | FIADD | FIST
  | FCOMI | FCOMIP | FUCOMI | FUCOMIP
  | other
deriving DecidableEq, Repr

/-- What an operand is.  A memory operand and an address generator name a base
    and an index register, `invalid` when there is none. -/
inductive OperandKind where
  | reg (r : Reg)
  | memory (base index : Reg)
  | immediate
  | addressGenerator (base index : Reg)
  | other
deriving DecidableEq, Repr

structure Operand where
  kind : OperandKind
  width : Nat
  isImplicit : Bool
deriving DecidableEq, Repr

/-- An instruction, as the framework describes it. -/
structure Ins where
  iclass : IClass
  operands : List Operand
  isMemoryRead : Bool
  isMemoryWrite : Bool
  hasRealRep : Bool
  repPrefix : Bool
  repnePrefix : Bool
deriving DecidableEq, Repr

/-- The kind of operand `n`; an operand that is not there is of no kind. -/
def Ins.kind (ins : Ins) (n : Nat) : OperandKind :=
  ((ins.operands[n]?).map Operand.kind).getD .other

/-- `INS_OperandIsReg`. -/
def Ins.operandIsReg (ins : Ins) (n : Nat) : Bool :=
  match ins.kind n with
  | .reg _ => true
  | _ => false

/-- `INS_OperandIsMemory`. -/
def Ins.operandIsMemory (ins : Ins) (n : Nat) : Bool :=
  match ins.kind n with
  | .memory _ _ => true
  | _ => false

/-- `INS_OperandIsImmediate`. -/
def Ins.operandIsImmediate (ins : Ins) (n : Nat) : Bool :=
  match ins.kind n with
  | .immediate => true
  | _ => false

/-- `INS_OperandReg`, `REG_INVALID` for an operand that is no register. -/
def Ins.operandReg (ins : Ins) (n : Nat) : Reg :=
  match ins.kind n with
  | .reg r => r
  | _ => .invalid

/-- `INS_OperandMemoryBaseReg`. -/
def Ins.operandMemoryBaseReg (ins : Ins) (n : Nat) : Reg :=
  match ins.kind n with
  | .memory base _ => base
  | .addressGenerator base _ => base
  | _ => .invalid

/-- `INS_OperandMemoryIndexReg`. -/
def Ins.operandMemoryIndexReg (ins : Ins) (n : Nat) : Reg :=
  match ins.kind n with
  | .memory _ index => index
  | .addressGenerator _ index => index
  | _ => .invalid

/-- `INS_OperandWidth`. -/
def Ins.operandWidth (ins : Ins) (n : Nat) : Nat :=
  ((ins.operands[n]?).map Operand.width).getD 0

/-- The number of operands that are not implicit, as `Instrument_IMUL` counts. -/
def Ins.operandCount (ins : Ins) : Nat :=
  ins.operands.countP fun o => !o.isImplicit

theorem Ins.operandIsReg_iff {ins : Ins} {n : Nat} :
    ins.operandIsReg n = true ↔ ins.kind n = .reg (ins.operandReg n) := by
  rw [operandIsReg, operandReg]
  cases ins.kind n <;> simp

theorem Ins.operandIsMemory_iff {ins : Ins} {n : Nat} :
    ins.operandIsMemory n = true ↔ ∃ base index, ins.kind n = .memory base index := by
  rw [operandIsMemory]
  cases ins.kind n <;> simp

theorem operandIsReg_of_memory {ins : Ins} {n : Nat} (hmem : ins.operandIsMemory n = true) :
    ins.operandIsReg n ≠ true := by
  intro hreg
  rw [Ins.operandIsMemory, Ins.operandIsReg_iff.mp hreg] at hmem
  exact nomatch hmem

/-! ## Inserted calls -/

/-- The effective address a memory-reading call gets (`IARG_MEMORYREAD_EA`,
    `IARG_MEMORYREAD2_EA`); its size is `IARG_MEMORYREAD_SIZE`. -/
inductive ReadEA where
  | read
  | read2
deriving DecidableEq, Repr

/-- An analysis call with the arguments fixed at instrumentation time.  Calls
    that assign memory get `IARG_MEMORYWRITE_EA` and `IARG_MEMORYWRITE_SIZE`. -/
inductive Analysis where
  | clearTaintSet (set : Scratch)
  | taintForRegister (reg : Reg) (set : Scratch)
  | taintForMemory (ea : ReadEA) (set : Scratch)
  | setTaintForRegister (dest : Reg) (sets : List Scratch)
  | setTaintForMemory (sets : List Scratch)
  | clearTaintForRegister (reg : Reg)
  | clearTaintForMemory
deriving DecidableEq, Repr

/-- The check of an `INS_InsertIfCall`. -/
inductive Check where
  | equal_r_r (r₁ r₂ : Reg)
  | notEqual_r_r (r₁ r₂ : Reg)
  | equal_m_r (r : Reg)
  | notEqual_m_r (r : Reg)
deriving DecidableEq, Repr

/-- A call inserted with `INS_InsertCall`, or with `INS_InsertThenCall` under
    a check. -/
structure Inserted where
  check : Option Check
  call : Analysis
deriving DecidableEq, Repr

/-- What an execution of the instruction supplies. -/
structure Ctx (ws : WordSize) where
  memoryReadEA : Addr ws
  memoryRead2EA : Addr ws
  memoryReadSize : Addr ws
  memoryWriteEA : Addr ws
  memoryWriteSize : Addr ws
  regValue : Reg → Addr ws
  memory : Addr ws → Addr ws

variable {ws : WordSize}

/-- `CheckEqual_r_r`. -/
def checkEqual_r_r (v₁ v₂ : Addr ws) : Bool := v₁ = v₂

/-- `CheckNotEqual_r_r`. -/
def checkNotEqual_r_r (v₁ v₂ : Addr ws) : Bool := v₁ ≠ v₂

/-- `CheckEqual_m_r`: compares a whole `ADDRINT` of memory. -/
def checkEqual_m_r (memory : Addr ws → Addr ws) (start v₂ : Addr ws) : Bool :=
  memory start = v₂

/-- `CheckNotEqual_m_r`, whose body is that of `CheckEqual_m_r`. -/
def checkNotEqual_m_r (memory : Addr ws → Addr ws) (start v₂ : Addr ws) : Bool :=
  memory start = v₂

def Ctx.passes (ctx : Ctx ws) : Check → Bool
  | .equal_r_r r₁ r₂ => checkEqual_r_r (ctx.regValue r₁) (ctx.regValue r₂)
  | .notEqual_r_r r₁ r₂ => checkNotEqual_r_r (ctx.regValue r₁) (ctx.regValue r₂)
  | .equal_m_r r => checkEqual_m_r ctx.memory ctx.memoryReadEA (ctx.regValue r)
  | .notEqual_m_r r => checkNotEqual_m_r ctx.memory ctx.memoryReadEA (ctx.regValue r)

/-- The inserted call runs. -/
def Ctx.fires (ctx : Ctx ws) (i : Inserted) : Bool := (i.check.map ctx.passes).getD true

/-- The analysis call with its run-time arguments. -/
def Ctx.resolve (ctx : Ctx ws) : Analysis → Call ws
  | .clearTaintSet set => .clearTaintSet set
  | .taintForRegister reg set => .taintForRegister reg set
  | .taintForMemory .read set => .taintForMemory ctx.memoryReadEA ctx.memoryReadSize set
  | .taintForMemory .read2 set => .taintForMemory ctx.memoryRead2EA ctx.memoryReadSize set
  | .setTaintForRegister dest sets => .setTaintForRegister dest sets
  | .setTaintForMemory sets => .setTaintForMemory ctx.memoryWriteEA ctx.memoryWriteSize sets
  | .clearTaintForRegister reg => .clearTaintForRegister reg
  | .clearTaintForMemory => .clearTaintForMemory ctx.memoryWriteEA ctx.memoryWriteSize

/-- The analysis calls that run before the instruction, in order. -/
def callsAt (ctx : Ctx ws) (inserted : List Inserted) : List (Call ws) :=
  (inserted.filter ctx.fires).map fun i => ctx.resolve i.call

theorem mem_callsAt {ctx : Ctx ws} {inserted : List Inserted} {c : Call ws} :
    c ∈ callsAt ctx inserted ↔
      ∃ i ∈ inserted, ctx.fires i = true ∧ ctx.resolve i.call = c := by
  simp [callsAt, and_assoc]

@[simp] theorem callsAt_append (ctx : Ctx ws) (xs ys : List Inserted) :
    callsAt ctx (xs ++ ys) = callsAt ctx xs ++ callsAt ctx ys := by
  simp [callsAt]

/-- Inserted calls are data-flow calls. -/
theorem isData_callsAt (ctx : Ctx ws) (inserted : List Inserted) :
    ∀ c ∈ callsAt ctx inserted, isData c = true := by
  intro c hc
  obtain ⟨i, -, -, rfl⟩ := mem_callsAt.mp hc
  cases i.call with
  | taintForMemory ea _ => cases ea <;> rfl
  | _ => rfl

/-- An execution that writes `size` bytes at `ea`. -/
def writesAt (ws : WordSize) (ea size : Addr ws) : Ctx ws where
  memoryReadEA := 0
  memoryRead2EA := 0
  memoryReadSize := 0
  memoryWriteEA := ea
  memoryWriteSize := size
  regValue := fun _ => 0
  memory := fun _ => 0

/-- An instruction with explicit register operands only. -/
def onRegisters (iclass : IClass) (operands : List (Reg × Nat)) : Ins where
  iclass := iclass
  operands := operands.map fun o => ⟨.reg o.1, o.2, false⟩
  isMemoryRead := false
  isMemoryWrite := false
  hasRealRep := false
  repPrefix := false
  repnePrefix := false

end DytanInstruction
