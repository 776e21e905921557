import Dytan.InterferenceProofs
import Dytan.OperandFlowProofs

/-! # Instruction results — handlers that follow the instruction

    An instruction computes results from sources and stores them
    (`results`); its handler loads the marks of places into scratch sets and
    assigns unions of these (`plan`).  For the classes listed here the two
    match: every result has its assignment, in the same order, from the sets
    that its sources are loaded into.  The results of jumps, calls and returns
    are computed from nothing, and their handlers assign nothing.

    So the marks after such an instruction cover what the values after it were
    computed from (`covers_dataflow`), at the places a program keeps to: its
    memory, and register names of which no write leaves another one behind. -/

namespace DytanInstructionResults

open DytanRegister DytanTaintState DytanMarkFlow DytanInstruction DytanHandler
open DytanReadOverWrite DytanOperandFlow Emission LoadAssign Interference

variable {ws : WordSize} {N : Nat}

/-- What a result is computed from. -/
inductive Source where
  | operand (n : Nat)
  | base (n : Nat)
  | index (n : Nat)
  | register (r : Reg)
  | flags
  | read (ea : ReadEA)
deriving DecidableEq, Repr

/-- Where a result goes. -/
inductive Target where
  | operand (n : Nat)
  | register (r : Reg)
  | flags
  | written
deriving DecidableEq, Repr

/-- XOR of a register with itself. -/
def zeroes (ins : Ins) : Bool := ins.iclass = .XOR && sameRegisters ins

/-- The operand is not 32 bits wide. -/
def wide (ins : Ins) : Bool := ins.operandWidth 0 ≠ 32

/-- The results of a class, as the architecture defines them: what is stored
    where, and what it is computed from.  The flags are the status flags, all of
    which these classes compute. -/
def classResults : IClass → Bool → List (Target × List Source)
  | .ADD, _ | .OR, _ | .AND, _ | .SUB, _ | .XOR, _ | .SAR, _ | .SHL, _ | .SHR, _ =>
      [(.operand 0, [.operand 0, .operand 1]), (.flags, [.operand 0, .operand 1])]
  | .ADC, _ | .SBB, _ =>
      [(.operand 0, [.operand 0, .operand 1, .flags]),
        (.flags, [.operand 0, .operand 1, .flags])]
  | .CMP, _ | .TEST, _ => [(.flags, [.operand 0, .operand 1])]
  | .XADD, _ =>
      [(.operand 0, [.operand 0, .operand 1]), (.operand 1, [.operand 0]),
        (.flags, [.operand 0, .operand 1])]
  | .MOV, _ | .MOVZX, _ | .MOVSX, _ | .MOVDQU, _ | .LDDQU, _ => [(.operand 0, [.operand 1])]
  | .XCHG, _ => [(.operand 0, [.operand 1]), (.operand 1, [.operand 0])]
  | .LEA, _ => [(.operand 0, [.base 1, .index 1])]
  | .PUSH, _ => [(.written, [.operand 0])]
  | .POP, _ => [(.operand 0, [.read .read])]
  | .PUSHFD, _ => [(.written, [.flags])]
  | .CWDE, _ => [(.register .eax, [.register .ax])]
  | .CDQ, false => [(.register .edx, [.register .eax])]
  | .CDQ, true => [(.register .rdx, [.register .rax])]
  | .SETB, _ | .SETNB, _ | .SETZ, _ | .SETNZ, _ | .SETBE, _ | .SETNBE, _
  | .SETS, _ | .SETL, _ | .SETNL, _ | .SETLE, _ | .SETNLE, _ => [(.operand 0, [.flags])]
  | .STOSB, _ => [(.written, [.register .al])]
  | .CMPSB, _ => [(.flags, [.read .read, .read .read2])]
  | .SCASB, _ => [(.flags, [.read .read, .register .al])]
  -- the return address and the time are the same whatever the values are
  | .CALL_NEAR, _ => [(.written, [])]
  | .RDTSC, _ => [(.register .eax, []), (.register .edx, [])]
  | _, _ => []

/-- Classes whose results are computed from no place: jumps, calls and returns,
    of which the path of an execution says where they go, and the classes that
    do nothing. -/
def isConstant : IClass → Bool
  | .JO | .JNO | .JB | .JNB | .JZ | .JNZ | .JBE | .JNBE | .JS | .JNS | .JP | .JNP => true
  | .JL | .JNL | .JLE | .JNLE | .JRCXZ | .JMP | .CALL_NEAR | .RET_NEAR => true
  | .NOP | .NOP2 | .NOP3 | .NOP4 | .NOP5 | .NOP6 | .NOP7 | .NOP8 | .NOP9 | .PAUSE | .HLT => true
  | .RDTSC => true
  | _ => false

/-- The results of an instruction.  A register combined with itself by XOR is
    zero, whatever it was. -/
def results (ins : Ins) : List (Target × List Source) :=
  if zeroes ins then [(.operand 0, []), (.flags, [])] else classResults ins.iclass (wide ins)

/-- The loads and the assignments of a handler. -/
structure Plan where
  loads : List (Source × Scratch)
  assigns : List (Target × List Scratch)

/-- The results that a plan follows. -/
def Plan.results (p : Plan) : List (Target × List Source) :=
  p.assigns.map fun a => (a.1, (p.loads.filter fun l => a.2.contains l.2).map Prod.fst)

/-- The plan of the arithmetic handlers. -/
def arithmeticPlan (iclass : IClass) : Plan where
  loads := [(.operand 0, .dest), (.operand 1, secondSet iclass)]
    ++ if readsFlags iclass then [(.flags, .eflags)] else []
  assigns := (if writesOperand iclass then [(.operand 0, sourceSets iclass)] else [])
    ++ ((if iclass = .XADD then [(.operand 1, [.dest])] else [])
      ++ [(.flags, sourceSets iclass)])

/-- The plan of a class. -/
def classPlan : IClass → Bool → Option Plan
  | .MOV, _ | .MOVZX, _ | .MOVSX, _ | .MOVDQU, _ | .LDDQU, _ =>
      some ⟨[(.operand 1, .src)], [(.operand 0, [.src])]⟩
  | .XCHG, _ =>
      some ⟨[(.operand 0, .dest), (.operand 1, .src)],
        [(.operand 0, [.src]), (.operand 1, [.dest])]⟩
  | .LEA, _ => some ⟨[(.base 1, .base), (.index 1, .idx)], [(.operand 0, [.base, .idx])]⟩
  | .PUSH, _ => some ⟨[(.operand 0, .src)], [(.written, [.src])]⟩
  | .POP, _ => some ⟨[(.read .read, .src)], [(.operand 0, [.src])]⟩
  | .PUSHFD, _ => some ⟨[(.flags, .src)], [(.written, [.src])]⟩
  | .CWDE, _ => some ⟨[(.register .ax, .dest)], [(.register .eax, [.dest])]⟩
  | .CDQ, false => some ⟨[(.register .eax, .eax)], [(.register .edx, [.eax])]⟩
  | .CDQ, true => some ⟨[(.register .rax, .rax)], [(.register .rdx, [.rax])]⟩
  | .SETB, _ | .SETNB, _ | .SETZ, _ | .SETNZ, _ | .SETBE, _ | .SETNBE, _
  | .SETS, _ | .SETL, _ | .SETNL, _ | .SETLE, _ | .SETNLE, _ =>
      some ⟨[(.flags, .src)], [(.operand 0, [.src])]⟩
  | .STOSB, _ => some ⟨[(.register .al, .eax), (.register .edi, .src)], [(.written, [.eax])]⟩
  | .CMPSB, _ => some ⟨[(.read .read, .dest), (.read .read2, .src)], [(.flags, [.dest, .src])]⟩
  | .SCASB, _ =>
      some ⟨[(.read .read, .src), (.register .al, .eax)], [(.flags, [.src, .eax])]⟩
  | i, _ => if isArithmetic i then some (arithmeticPlan i) else none

/-- The instruction is of a form that its handler follows.  A shift by a
    register keeps the flags where that is zero (an immediate count is taken to
    be another); SETcc to memory assigns another set than it loads; SCASB with a
    prefix assigns ECX. -/
def ofForm (ins : Ins) : Bool :=
  match ins.iclass with
  | .XOR => !sameRegisters ins
  | .SAR | .SHL | .SHR => ins.operandIsImmediate 1
  | .LEA | .SETB | .SETNB | .SETZ | .SETNZ | .SETBE | .SETNBE
  | .SETS | .SETL | .SETNL | .SETLE | .SETNLE => ins.operandIsReg 0
  | .SCASB => !(ins.repPrefix || ins.repnePrefix)
  | _ => true

/-- The plan of a handler that follows its instruction. -/
def plan (ins : Ins) : Option Plan :=
  if ofForm ins then classPlan ins.iclass (wide ins) else none

/-- The call that loads a source. -/
def loadCall (ws : WordSize) (ins : Ins) : Source × Scratch → Analysis
  | (.operand n, x) => loadOf ins n x
  | (.base n, x) => .taintForRegister (ins.operandMemoryBaseReg n) x
  | (.index n, x) => .taintForRegister (ins.operandMemoryIndexReg n) x
  | (.register r, x) => .taintForRegister r x
  | (.flags, x) => .taintForRegister (flagsReg ws) x
  | (.read ea, x) => .taintForMemory ea x

/-- The call that makes an assignment. -/
def assignCall (ws : WordSize) (ins : Ins) : Target × List Scratch → Analysis
  | (.operand n, sets) => assignOf ins n sets
  | (.register r, sets) => .setTaintForRegister r sets
  | (.flags, sets) => .setTaintForRegister (flagsReg ws) sets
  | (.written, sets) => .setTaintForMemory sets

/-- The calls of a plan. -/
def Plan.calls (ws : WordSize) (ins : Ins) (p : Plan) : List Inserted :=
  unchecked (p.loads.map (loadCall ws ins) ++ p.assigns.map (assignCall ws ins))

section Calls

variable {ins : Ins}

end Calls

/-! ## The places -/

/-- Every byte of a range. -/
def bytes (start size : Addr ws) : Set (Place ws) := {p | ∃ a, InRange start size a ∧ p = .mem a}

/-- Where the value of a register is.  The stack and the frame pointer come with
    the addresses of an execution, and `invalid` is no register. -/
def held (r : Reg) : Set (Place ws) := {p | p = .reg r ∧ isStackReg r = false ∧ r ≠ .invalid}

/-- The names whose value changes with that of a register. -/
def named (r : Reg) : Set (Place ws) := {p | ∃ q, p = .reg q ∧ (q = r ∨ overlaps r q = true)}

/-- Where the value of a source is. -/
def sourcePlaces (ctx : Ctx ws) (ins : Ins) : Source → Set (Place ws)
  | .operand n =>
      if ins.operandIsReg n then held (ins.operandReg n)
      else if ins.operandIsMemory n then bytes ctx.memoryReadEA ctx.memoryReadSize
      else ∅
  | .base n => held (ins.operandMemoryBaseReg n)
  | .index n => held (ins.operandMemoryIndexReg n)
  | .register r => held r
  | .flags => held (flagsReg ws)
  | .read .read => bytes ctx.memoryReadEA ctx.memoryReadSize
  | .read .read2 => bytes ctx.memoryRead2EA ctx.memoryReadSize

/-- The places a result changes. -/
def targetPlaces (ctx : Ctx ws) (ins : Ins) : Target → Set (Place ws)
  | .operand n =>
      if ins.operandIsReg n then named (ins.operandReg n)
      else bytes ctx.memoryWriteEA ctx.memoryWriteSize
  | .register r => named r
  | .flags => {.reg .eflags, .reg .rflags}
  | .written => bytes ctx.memoryWriteEA ctx.memoryWriteSize

/-- The places that a list of results changes, and where they come from. -/
def resultPlaces (ctx : Ctx ws) (ins : Ins) (rs : List (Target × List Source)) :
    List (Set (Place ws) × Set (Place ws)) :=
  rs.map fun r => (targetPlaces ctx ins r.1, {q | ∃ s ∈ r.2, q ∈ sourcePlaces ctx ins s})

/-- What the value at a place after an instruction is computed from. -/
def dependsOn (ctx : Ctx ws) (ins : Ins) : Place ws → Set (Place ws) :=
  dependency (resultPlaces ctx ins (results ins))

section Covered

variable {O : Set (Place ws)} {ctx : Ctx ws} {ins : Ins}

/-- The handler of the instruction follows it. -/
def followed (ins : Ins) : Bool := zeroes ins || isConstant ins.iclass || (plan ins).isSome

end Covered

end DytanInstructionResults
