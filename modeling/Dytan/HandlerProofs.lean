import Dytan.InstructionProofs

/-! # The instruction handlers and the dispatch table

    One handler per instruction class, written as the source writes it: load
    the marks of the operands into scratch sets, then assign their union.  A
    handler that meets an operand it does not expect aborts the tool, and one
    that cannot find the memory accessed returns, leaving in place the calls
    it has inserted so far.

    The three chains that most handlers repeat (load an operand, assign an
    operand, assign the flags) are one definition each. -/

namespace DytanHandler

open DytanRegister DytanTaintState DytanInstruction Emission

abbrev Handler := Emitter Inserted Unit

/-- `INS_InsertCall(ins, IPOINT_BEFORE, …)`. -/
def insertCall (c : Analysis) : Handler := emit ⟨none, c⟩

/-- `INS_InsertIfCall` followed by `INS_InsertThenCall`. -/
def insertIfThenCall (check : Check) (c : Analysis) : Handler := emit ⟨some check, c⟩

/-- `if(!INS_IsMemoryRead(ins)) return;` -/
def requireMemoryRead (ins : Ins) : Handler :=
  if ins.isMemoryRead then pure () else leave

/-- `if(!INS_IsMemoryWrite(ins)) return;` -/
def requireMemoryWrite (ins : Ins) : Handler :=
  if ins.isMemoryWrite then pure () else leave

/-- The chain that loads the marks of operand `n` into `set`: a register, a
    memory operand where the handler expects one, an immediate where it
    expects one; anything else aborts. -/
def taintForOperand (ins : Ins) (n : Nat) (set : Scratch) (memory immediate : Bool) :
    Handler :=
  if ins.operandIsReg n then insertCall (.taintForRegister (ins.operandReg n) set)
  else if memory && ins.operandIsMemory n then do
    requireMemoryRead ins
    insertCall (.taintForMemory .read set)
  else if immediate && ins.operandIsImmediate n then insertCall (.clearTaintSet set)
  else abort

/-- The chain that assigns the union of `sets` to operand `n`, a register or a
    memory operand. -/
def setTaintForOperand (ins : Ins) (n : Nat) (sets : List Scratch) : Handler :=
  if ins.operandIsReg n then insertCall (.setTaintForRegister (ins.operandReg n) sets)
  else if ins.operandIsMemory n then do
    requireMemoryWrite ins
    insertCall (.setTaintForMemory sets)
  else abort

/-- Assign the union of `sets` to the flags register of the build. -/
def setTaintForFlags (ws : WordSize) (sets : List Scratch) : Handler :=
  insertCall (.setTaintForRegister (flagsReg ws) sets)

def instrumentADD (ws : WordSize) (ins : Ins) : Handler := do
  taintForOperand ins 0 .dest true false
  taintForOperand ins 1 .src true true
  setTaintForOperand ins 0 [.dest, .src]
  setTaintForFlags ws [.dest, .src]

def instrumentAND (ws : WordSize) (ins : Ins) : Handler := instrumentADD ws ins

def instrumentOR (ws : WordSize) (ins : Ins) : Handler := instrumentAND ws ins

def instrumentSUB (ws : WordSize) (ins : Ins) : Handler := instrumentADD ws ins

def instrumentADC (ws : WordSize) (ins : Ins) : Handler := do
  taintForOperand ins 0 .dest true false
  taintForOperand ins 1 .src true true
  insertCall (.taintForRegister (flagsReg ws) .eflags)
  setTaintForOperand ins 0 [.dest, .src, .eflags]
  setTaintForFlags ws [.dest, .src, .eflags]

def instrumentSBB (ws : WordSize) (ins : Ins) : Handler := instrumentADC ws ins

/-- `INS_OperandReg(ins, 0) == INS_OperandReg(ins, 1)`, both registers. -/
def sameRegisters (ins : Ins) : Bool :=
  ins.operandIsReg 0 && ins.operandIsReg 1 && ins.operandReg 0 = ins.operandReg 1

/-- The destination of XOR: a register combined with itself is cleared. -/
def xorDestination (ins : Ins) : Handler :=
  if sameRegisters ins then insertCall (.clearTaintForRegister (ins.operandReg 0))
  else setTaintForOperand ins 0 [.dest, .src]

def instrumentXOR (ws : WordSize) (ins : Ins) : Handler := do
  taintForOperand ins 0 .dest true false
  taintForOperand ins 1 .src true true
  xorDestination ins
  setTaintForFlags ws [.dest, .src]

def instrumentCMP (ws : WordSize) (ins : Ins) : Handler := do
  taintForOperand ins 0 .dest true false
  taintForOperand ins 1 .src true true
  setTaintForFlags ws [.dest, .src]

def instrumentTEST (ws : WordSize) (ins : Ins) : Handler := do
  taintForOperand ins 0 .dest true false
  -- no branch for a memory operand 1
  taintForOperand ins 1 .src false true
  setTaintForFlags ws [.dest, .src]

def instrumentDEC (ws : WordSize) (ins : Ins) : Handler := do
  taintForOperand ins 0 .dest true false
  -- the operand keeps its marks and is not assigned
  setTaintForFlags ws [.dest]

def instrumentINC (ws : WordSize) (ins : Ins) : Handler := instrumentDEC ws ins

def instrumentNEG (ws : WordSize) (ins : Ins) : Handler := do
  taintForOperand ins 0 .dest true false
  setTaintForFlags ws [.dest]

def instrumentSAR (ws : WordSize) (ins : Ins) : Handler := do
  taintForOperand ins 0 .dest true false
  taintForOperand ins 1 .cnt false true
  setTaintForOperand ins 0 [.dest, .cnt]
  setTaintForFlags ws [.dest, .cnt]

def instrumentSHL (ws : WordSize) (ins : Ins) : Handler := instrumentSAR ws ins

def instrumentSHR (ws : WordSize) (ins : Ins) : Handler := instrumentSAR ws ins

/-- The third operand of SHLD: `src` is loaded from operand 0 when the count is
    a register. -/
def shldSource (ins : Ins) : Handler :=
  if ins.operandIsReg 2 then insertCall (.taintForRegister (ins.operandReg 0) .src)
  else if ins.operandIsImmediate 2 then insertCall (.clearTaintSet .src)
  else abort

def instrumentSHLD (ws : WordSize) (ins : Ins) : Handler := do
  taintForOperand ins 0 .dest true false
  -- operand 1 goes into `cnt`, not into `src`
  insertCall (.taintForRegister (ins.operandReg 1) .cnt)
  shldSource ins
  setTaintForOperand ins 0 [.dest, .src, .cnt]
  setTaintForFlags ws [.dest, .src, .cnt]

def instrumentSHRD (ws : WordSize) (ins : Ins) : Handler := instrumentSHLD ws ins

def instrumentXADD (ws : WordSize) (ins : Ins) : Handler := do
  taintForOperand ins 0 .dest true false
  taintForOperand ins 1 .src false false
  setTaintForOperand ins 0 [.dest, .src]
  insertCall (.setTaintForRegister (ins.operandReg 1) [.dest])
  setTaintForFlags ws [.dest, .src]

/-! ## Multiplication and division -/

/-- The registers and scratch sets that the operand width selects. -/
structure WideRegs where
  regAx : Reg
  regDx : Reg
  regFlags : Reg
  ax : Scratch
  dx : Scratch

/-- The width test that starts MUL, DIV and IDIV; other widths abort. -/
def wideRegs (operandWidth : Nat) : Option WideRegs :=
  if operandWidth = 32 then some ⟨.eax, .edx, .eflags, .eax, .edx⟩
  else if operandWidth = 64 then some ⟨.rax, .rdx, .rflags, .rax, .rdx⟩
  else none

def instrumentMUL (ins : Ins) : Handler :=
  match wideRegs (ins.operandWidth 0) with
  | none => abort
  | some w => do
      taintForOperand ins 0 .src true false
      insertCall (.taintForRegister w.regAx w.ax)
      insertCall (.setTaintForRegister w.regAx [w.ax, .src])
      insertCall (.setTaintForRegister w.regDx [w.ax, .src])
      -- the flags of the operand width, not of the build
      insertCall (.setTaintForRegister w.regFlags [w.ax, .src])

/-- The source chain of IMUL with two or three operands: a register operand 1
    loads the marks of operand 0. -/
def imulSource (ins : Ins) (immediate : Bool) : Handler :=
  if ins.operandIsReg 1 then insertCall (.taintForRegister (ins.operandReg 0) .src)
  else if ins.operandIsMemory 1 then do
    requireMemoryRead ins
    insertCall (.taintForMemory .read .src)
  else if immediate && ins.operandIsImmediate 1 then insertCall (.clearTaintSet .src)
  else abort

/-- IMUL with two or three operands. -/
def imulOperands (ws : WordSize) (ins : Ins) (immediate : Bool) : Handler := do
  insertCall (.taintForRegister (ins.operandReg 0) .dest)
  imulSource ins immediate
  insertCall (.setTaintForRegister (ins.operandReg 0) [.dest, .src])
  setTaintForFlags ws [.dest, .src]

def instrumentIMUL (ws : WordSize) (ins : Ins) : Handler :=
  if ins.operandCount = 1 then instrumentMUL ins
  else if ins.operandCount = 2 then imulOperands ws ins true
  else if ins.operandCount = 3 then imulOperands ws ins false
  else abort

def instrumentDIV (ins : Ins) : Handler :=
  match wideRegs (ins.operandWidth 0) with
  | none => abort
  | some w => do
      taintForOperand ins 0 .src true false
      insertCall (.taintForRegister w.regAx w.ax)
      insertCall (.taintForRegister w.regDx w.dx)
      insertCall (.setTaintForRegister w.regAx [w.ax, w.dx, .src])
      insertCall (.setTaintForRegister w.regDx [w.ax, w.dx, .src])
      insertCall (.clearTaintForRegister w.regFlags)

def instrumentIDIV (ins : Ins) : Handler :=
  match wideRegs (ins.operandWidth 0) with
  | none => abort
  | some w => do
      taintForOperand ins 0 .src true false
      insertCall (.taintForRegister w.regDx w.dx)
      insertCall (.taintForRegister w.regAx w.ax)
      insertCall (.setTaintForRegister w.regAx [w.ax, w.dx, .src])
      insertCall (.setTaintForRegister w.regDx [w.ax, w.dx, .src])
      insertCall (.clearTaintForRegister w.regFlags)

/-! ## Data movement -/

def instrumentPUSH (ins : Ins) : Handler := do
  taintForOperand ins 0 .src true true
  requireMemoryWrite ins
  insertCall (.setTaintForMemory [.src])

def instrumentPOP (ins : Ins) : Handler := do
  requireMemoryRead ins
  insertCall (.taintForMemory .read .src)
  setTaintForOperand ins 0 [.src]

def instrumentXCHG (ins : Ins) : Handler := do
  taintForOperand ins 0 .dest true false
  taintForOperand ins 1 .src true false
  -- both are loaded before either is assigned
  setTaintForOperand ins 0 [.src]
  setTaintForOperand ins 1 [.dest]

def instrumentMOV (ins : Ins) : Handler := do
  taintForOperand ins 1 .src true true
  setTaintForOperand ins 0 [.src]

def instrumentMOVZX (ins : Ins) : Handler := instrumentMOV ins

def instrumentMOVSX (ins : Ins) : Handler := instrumentMOV ins

def instrumentMOVDQU (ins : Ins) : Handler := do
  taintForOperand ins 1 .src true false
  setTaintForOperand ins 0 [.src]

/-- LDDQU loads from memory only. -/
def lddquSource (ins : Ins) : Handler :=
  if ins.operandIsMemory 1 then do
    requireMemoryRead ins
    insertCall (.taintForMemory .read .src)
  else abort

def instrumentLDDQU (ins : Ins) : Handler := do
  lddquSource ins
  if ins.operandIsReg 0 then insertCall (.setTaintForRegister (ins.operandReg 0) [.src])
  else abort

def instrumentLEA (ins : Ins) : Handler := do
  insertCall (.taintForRegister (ins.operandMemoryBaseReg 1) .base)
  insertCall (.taintForRegister (ins.operandMemoryIndexReg 1) .idx)
  insertCall (.setTaintForRegister (ins.operandReg 0) [.base, .idx])

def instrumentCWDE : Handler := do
  insertCall (.taintForRegister .ax .dest)
  insertCall (.setTaintForRegister .eax [.dest])

def instrumentCDQ (ins : Ins) : Handler :=
  if ins.operandWidth 0 = 32 then do
    insertCall (.taintForRegister .eax .eax)
    insertCall (.setTaintForRegister .edx [.eax])
  else if ins.operandWidth 0 = 64 then do
    insertCall (.taintForRegister .rax .rax)
    insertCall (.setTaintForRegister .rdx [.rax])
  else abort

def instrumentPUSHFD (ws : WordSize) : Handler := do
  insertCall (.taintForRegister (flagsReg ws) .src)
  insertCall (.setTaintForMemory [.src])

/-- The flags are loaded into `src` again, not assigned. -/
def instrumentPOPFD (ws : WordSize) (ins : Ins) : Handler := do
  requireMemoryRead ins
  insertCall (.taintForMemory .read .src)
  insertCall (.taintForRegister (flagsReg ws) .src)

/-- The destination of SETcc: memory is assigned `base`, not the `src` just
    loaded. -/
def setccDestination (ins : Ins) : Handler :=
  if ins.operandIsReg 0 then insertCall (.setTaintForRegister (ins.operandReg 0) [.src])
  else if ins.operandIsMemory 0 then do
    requireMemoryWrite ins
    insertCall (.setTaintForMemory [.base])
  else abort

def instrumentSETcc (ws : WordSize) (ins : Ins) : Handler := do
  insertCall (.taintForRegister (flagsReg ws) .src)
  setccDestination ins

/-- The loads of CMPXCHG, for a 32- or 64-bit operand. -/
def cmpxchgLoads (ins : Ins) : Handler :=
  if ins.operandWidth 0 = 32 || ins.operandWidth 0 = 64 then do
    taintForOperand ins 0 .dest true false
    insertCall (.taintForRegister (ins.operandReg 1) .src)
    insertCall (.taintForRegister (ins.operandReg 2) .eax)
  else abort

/-- The conditional assignments of CMPXCHG. -/
def cmpxchgAssigns (ins : Ins) : Handler :=
  if ins.operandIsReg 0 then do
    insertIfThenCall (.equal_r_r (ins.operandReg 0) (ins.operandReg 2))
      (.setTaintForRegister (ins.operandReg 0) [.src])
    insertIfThenCall (.notEqual_r_r (ins.operandReg 0) (ins.operandReg 2))
      (.setTaintForRegister (ins.operandReg 2) [.src])
  else if ins.operandIsMemory 0 then do
    insertIfThenCall (.equal_m_r (ins.operandReg 2)) (.setTaintForMemory [.src])
    insertIfThenCall (.notEqual_m_r (ins.operandReg 2))
      (.setTaintForRegister (ins.operandReg 2) [.src])
  else pure ()

def instrumentCMPXCHG (ins : Ins) : Handler := do
  cmpxchgLoads ins
  cmpxchgAssigns ins

def instrumentMOVS (ins : Ins) : Handler := do
  -- both loads read the source operand
  insertCall (.taintForMemory .read .dest)
  insertCall (.taintForMemory .read .src)
  if ins.hasRealRep then do
    insertCall (.taintForRegister .ecx .cnt)
    insertCall (.setTaintForMemory [.src, .dest, .cnt])
  else
    insertCall (.setTaintForMemory [.src, .dest])

def instrumentMOVSB (ins : Ins) : Handler := instrumentMOVS ins

def instrumentMOVSD (ins : Ins) : Handler := instrumentMOVS ins

def instrumentMOVSW (ins : Ins) : Handler := instrumentMOVS ins

def instrumentCMPSB (ws : WordSize) (ins : Ins) : Handler := do
  requireMemoryRead ins
  insertCall (.taintForMemory .read .dest)
  requireMemoryRead ins
  insertCall (.taintForMemory .read2 .src)
  setTaintForFlags ws [.dest, .src]

def instrumentSTOSB (ins : Ins) : Handler := do
  insertCall (.taintForRegister .al .eax)
  insertCall (.taintForRegister .edi .src)
  requireMemoryWrite ins
  insertCall (.setTaintForMemory [.eax])

def instrumentSTOSD (ins : Ins) : Handler := do
  -- AX, although STOSD stores EAX
  insertCall (.taintForRegister .ax .eax)
  insertCall (.taintForRegister .edi .src)
  requireMemoryWrite ins
  insertCall (.setTaintForMemory [.eax])

def instrumentSCASB (ws : WordSize) (ins : Ins) : Handler := do
  requireMemoryRead ins
  insertCall (.taintForMemory .read .src)
  insertCall (.taintForRegister .al .eax)
  setTaintForFlags ws [.src, .eax]
  if ins.repPrefix || ins.repnePrefix then
    insertCall (.setTaintForRegister .ecx [.src, .eax])
  else pure ()

def instrumentCLD (ws : WordSize) : Handler :=
  insertCall (.clearTaintForRegister (flagsReg ws))

def instrumentSTD (ws : WordSize) : Handler :=
  insertCall (.clearTaintForRegister (flagsReg ws))

def instrumentRDTSC : Handler := do
  insertCall (.clearTaintForRegister .eax)
  insertCall (.clearTaintForRegister .edx)

def instrumentCPUID : Handler := do
  insertCall (.clearTaintForRegister .eax)
  insertCall (.clearTaintForRegister .ebx)
  insertCall (.clearTaintForRegister .ecx)
  insertCall (.clearTaintForRegister .edx)

def instrumentBSF (ins : Ins) : Handler :=
  insertCall (.clearTaintForRegister (ins.operandReg 0))

def instrumentBSR (ins : Ins) : Handler :=
  insertCall (.clearTaintForRegister (ins.operandReg 0))

def instrumentFNSTSW (ins : Ins) : Handler :=
  if ins.operandIsReg 0 then insertCall (.clearTaintForRegister (ins.operandReg 0))
  else pure ()

def instrumentFNSTCW : Handler := insertCall .clearTaintForMemory

def instrumentSTMXCSR : Handler := insertCall .clearTaintForMemory

def emptyHandler : Handler := pure ()

/-- The default of the table: its log line and its `abort` are commented out. -/
def unimplementedInstruction : Handler := pure ()

def instrumentJcc : Handler := pure ()
def instrumentPAUSE : Handler := pure ()
def instrumentSAHF : Handler := pure ()
def instrumentLAHF : Handler := pure ()
def instrumentRET_NEAR : Handler := pure ()
def instrumentLEAVE : Handler := pure ()
def instrumentINT : Handler := pure ()
def instrumentCALL_NEAR : Handler := pure ()
def instrumentJMP : Handler := pure ()
def instrumentHLT : Handler := pure ()
def instrumentBT : Handler := pure ()
def instrumentNOP : Handler := pure ()
def instrumentBSWAP : Handler := pure ()
def instrumentROL : Handler := pure ()
def instrumentROR : Handler := pure ()
def instrumentNOT : Handler := pure ()
def instrumentLDMXCSR : Handler := pure ()
def instrumentFDIV : Handler := pure ()
def instrumentFLD : Handler := pure ()
def instrumentFST : Handler := pure ()
def instrumentFSTP : Handler := pure ()
def instrumentFLDCW : Handler := pure ()
def instrumentFXCH : Handler := pure ()
def instrumentFLDZ : Handler := pure ()
def instrumentFILD : Handler := pure ()
def instrumentFISTP : Handler := pure ()
def instrumentFUCOM : Handler := pure ()
def instrumentFADDP : Handler := pure ()
def instrumentFDIVRP : Handler := pure ()
def instrumentEflags : Handler := pure ()

/-! ## The dispatch table -/

/-- `instrument_functions`, as `main` fills it. -/
def instrumentFunctions (ws : WordSize) (ins : Ins) : IClass → Handler
  | .ADD => instrumentADD ws ins
  | .PUSH => instrumentPUSH ins
  | .POP => instrumentPOP ins
  | .OR => instrumentOR ws ins
  | .ADC => instrumentADC ws ins
  | .SBB => instrumentSBB ws ins
  | .AND => instrumentAND ws ins
  | .SUB => instrumentSUB ws ins
  | .XOR => instrumentXOR ws ins
  | .CMP => instrumentCMP ws ins
  | .INC => instrumentINC ws ins
  | .DEC => instrumentDEC ws ins
  | .IMUL => instrumentIMUL ws ins
  | .JO | .JNO | .JB | .JNB | .JZ | .JNZ | .JBE | .JNBE | .JS | .JNS | .JP | .JNP
  | .JL | .JNL | .JLE | .JNLE | .JRCXZ => instrumentJcc
  | .TEST => instrumentTEST ws ins
  | .XCHG => instrumentXCHG ins
  | .MOV => instrumentMOV ins
  | .MOVDQU => instrumentMOVDQU ins
  | .LDDQU => instrumentLDDQU ins
  | .LEA => instrumentLEA ins
  | .PAUSE => instrumentPAUSE
  | .CWDE => instrumentCWDE
  | .CDQ => instrumentCDQ ins
  | .PUSHFD => instrumentPUSHFD ws
  | .POPFD => instrumentPOPFD ws ins
  | .SAHF => instrumentSAHF
  | .LAHF => instrumentLAHF
  | .MOVSB => instrumentMOVSB ins
  | .MOVSW => instrumentMOVSW ins
  | .MOVSD => instrumentMOVSD ins
  | .CMPSB => instrumentCMPSB ws ins
  | .STOSB => instrumentSTOSB ins
  | .STOSD => instrumentSTOSD ins
  | .SCASB => instrumentSCASB ws ins
  | .RET_NEAR => instrumentRET_NEAR
  | .LEAVE => instrumentLEAVE
  | .INT => instrumentINT
  | .CALL_NEAR => instrumentCALL_NEAR
  | .JMP => instrumentJMP
  | .HLT => instrumentHLT
  | .CLD => instrumentCLD ws
  | .STD => instrumentSTD ws
  | .RDTSC => instrumentRDTSC
  | .SETB | .SETNB | .SETZ | .SETNZ | .SETBE | .SETNBE
  | .SETS | .SETL | .SETNL | .SETLE | .SETNLE => instrumentSETcc ws ins
  | .CPUID => instrumentCPUID
  | .BT => instrumentBT
  | .SHLD => instrumentSHLD ws ins
  | .CMPXCHG => instrumentCMPXCHG ins
  | .NOP | .NOP2 | .NOP3 | .NOP4 | .NOP5 | .NOP6 | .NOP7 | .NOP8 | .NOP9 => instrumentNOP
  | .MOVZX => instrumentMOVZX ins
  | .XADD => instrumentXADD ws ins
  | .SHRD => instrumentSHRD ws ins
  | .BSF => instrumentBSF ins
  | .BSR => instrumentBSR ins
  | .MOVSX => instrumentMOVSX ins
  | .BSWAP => instrumentBSWAP
  | .ROL => instrumentROL
  | .ROR => instrumentROR
  | .SHL => instrumentSHL ws ins
  | .SHR => instrumentSHR ws ins
  | .SAR => instrumentSAR ws ins
  | .NOT => instrumentNOT
  | .NEG => instrumentNEG ws ins
  | .MUL => instrumentMUL ins
  | .DIV => instrumentDIV ins
  | .IDIV => instrumentIDIV ins
  | .LDMXCSR => instrumentLDMXCSR
  | .STMXCSR => instrumentSTMXCSR
  | .FDIV => instrumentFDIV
  | .FLD => instrumentFLD
  | .FST => instrumentFST
  | .FSTP => instrumentFSTP
  | .FLDCW => instrumentFLDCW
  | .FNSTCW => instrumentFNSTCW
  | .FXCH => instrumentFXCH
  | .FLDZ => instrumentFLDZ
  | .FILD => instrumentFILD
  | .FISTP => instrumentFISTP
  | .FNSTSW => instrumentFNSTSW ins
  | .FUCOM => instrumentFUCOM
  | .FADDP => instrumentFADDP
  | .FDIVRP => instrumentFDIVRP
  | .FDIVP | .FIDIVR | .FIADD | .FIST => emptyHandler
  | .FCOMI | .FCOMIP | .FUCOMI | .FUCOMIP => instrumentEflags
  | .other => unimplementedInstruction

/-- `Dataflow`: the handler of the instruction's class. -/
def dataflow (ws : WordSize) (ins : Ins) : Handler := instrumentFunctions ws ins ins.iclass

end DytanHandler
