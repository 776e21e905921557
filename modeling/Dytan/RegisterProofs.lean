import Mathlib.Algebra.Group.Int.Defs
import Mathlib.Algebra.Group.Nat.Defs
import Mathlib.Tactic.Common

/-! # Registers — the keys of the register taint map

    The tool keys taint by the register names of the instrumentation
    framework.  The general-purpose names are listed one by one; a register
    of any other kind (segment, vector, control, …) is `other`, by its code.

    `span` places a general-purpose name in the x86-64 register file: which
    of the sixteen 64-bit registers it is part of, and which bits of it.
    `subRegisters` is the hand-written alias table of `SetTaintForRegister`. -/

namespace DytanRegister

/-- The two builds: `__WORDSIZE` is 32 or 64. -/
inductive WordSize where
  | w32
  | w64
deriving DecidableEq, Repr

/-- The width of `ADDRINT` and `size_t` on the build. -/
def WordSize.bits : WordSize → Nat
  | .w32 => 32
  | .w64 => 64

theorem WordSize.bits_pos (ws : WordSize) : 0 < ws.bits := by
  cases ws <;> decide

/-- Register names (`LEVEL_BASE::REG_…`). -/
inductive Reg where
  | invalid
  | rax | rbx | rcx | rdx | rsi | rdi | rbp | rsp
  | r8 | r9 | r10 | r11 | r12 | r13 | r14 | r15
  | eax | ebx | ecx | edx | esi | edi | ebp | esp
  | r8d | r9d | r10d | r11d | r12d | r13d | r14d | r15d
  | ax | bx | cx | dx | si | di | bp | sp
  | r8w | r9w | r10w | r11w | r12w | r13w | r14w | r15w
  | al | bl | cl | dl | sil | dil | bpl | spl
  | r8b | r9b | r10b | r11b | r12b | r13b | r14b | r15b
  | ah | bh | ch | dh
  | eflags | rflags
  | other (code : Nat)
deriving DecidableEq, Repr

/-- The 64-bit register a general-purpose name belongs to, and the bits
    `lo ≤ i < hi` of it that the name covers. -/
def Reg.span : Reg → Option (Reg × Nat × Nat)
  | .rax => some (.rax, 0, 64) | .rbx => some (.rbx, 0, 64)
  | .rcx => some (.rcx, 0, 64) | .rdx => some (.rdx, 0, 64)
  | .rsi => some (.rsi, 0, 64) | .rdi => some (.rdi, 0, 64)
  | .rbp => some (.rbp, 0, 64) | .rsp => some (.rsp, 0, 64)
  | .r8 => some (.r8, 0, 64) | .r9 => some (.r9, 0, 64)
  | .r10 => some (.r10, 0, 64) | .r11 => some (.r11, 0, 64)
  | .r12 => some (.r12, 0, 64) | .r13 => some (.r13, 0, 64)
  | .r14 => some (.r14, 0, 64) | .r15 => some (.r15, 0, 64)
  | .eax => some (.rax, 0, 32) | .ebx => some (.rbx, 0, 32)
  | .ecx => some (.rcx, 0, 32) | .edx => some (.rdx, 0, 32)
  | .esi => some (.rsi, 0, 32) | .edi => some (.rdi, 0, 32)
  | .ebp => some (.rbp, 0, 32) | .esp => some (.rsp, 0, 32)
  | .r8d => some (.r8, 0, 32) | .r9d => some (.r9, 0, 32)
  | .r10d => some (.r10, 0, 32) | .r11d => some (.r11, 0, 32)
  | .r12d => some (.r12, 0, 32) | .r13d => some (.r13, 0, 32)
  | .r14d => some (.r14, 0, 32) | .r15d => some (.r15, 0, 32)
  | .ax => some (.rax, 0, 16) | .bx => some (.rbx, 0, 16)
  | .cx => some (.rcx, 0, 16) | .dx => some (.rdx, 0, 16)
  | .si => some (.rsi, 0, 16) | .di => some (.rdi, 0, 16)
  | .bp => some (.rbp, 0, 16) | .sp => some (.rsp, 0, 16)
  | .r8w => some (.r8, 0, 16) | .r9w => some (.r9, 0, 16)
  | .r10w => some (.r10, 0, 16) | .r11w => some (.r11, 0, 16)
  | .r12w => some (.r12, 0, 16) | .r13w => some (.r13, 0, 16)
  | .r14w => some (.r14, 0, 16) | .r15w => some (.r15, 0, 16)
  | .al => some (.rax, 0, 8) | .bl => some (.rbx, 0, 8)
  | .cl => some (.rcx, 0, 8) | .dl => some (.rdx, 0, 8)
  | .sil => some (.rsi, 0, 8) | .dil => some (.rdi, 0, 8)
  | .bpl => some (.rbp, 0, 8) | .spl => some (.rsp, 0, 8)
  | .r8b => some (.r8, 0, 8) | .r9b => some (.r9, 0, 8)
  | .r10b => some (.r10, 0, 8) | .r11b => some (.r11, 0, 8)
  | .r12b => some (.r12, 0, 8) | .r13b => some (.r13, 0, 8)
  | .r14b => some (.r14, 0, 8) | .r15b => some (.r15, 0, 8)
  | .ah => some (.rax, 8, 16) | .bh => some (.rbx, 8, 16)
  | .ch => some (.rcx, 8, 16) | .dh => some (.rdx, 8, 16)
  | .invalid => none | .eflags => none | .rflags => none
  | .other _ => none

/-- Two names overlap when they share a bit of one 64-bit register: one is a
    sub-register of the other. -/
def overlaps (r q : Reg) : Bool :=
  match r.span, q.span with
  | some (f, lo, hi), some (f', lo', hi') =>
      decide (f = f') && decide (lo < hi') && decide (lo' < hi)
  | _, _ => false

/-- The names `SetTaintForRegister` also writes when `dest` is written: its
    hand-coded sub-registers. -/
def subRegisters : Reg → List Reg
  | .r15d => [.r15w, .r15b]
  | .eax => [.ax, .ah, .al]
  | .ebx => [.bx, .bh, .bl]
  | .ecx => [.cx, .ch, .cl]
  | .edx => [.dx, .dh, .dl]
  | _ => []

/-- The flags register of the build: `REG_EFLAGS` or `REG_RFLAGS`. -/
def flagsReg : WordSize → Reg
  | .w32 => .eflags
  | .w64 => .rflags

/-- `SetTaintForRegister` ignores the stack and frame pointers. -/
def isStackReg (r : Reg) : Bool := r = .esp ∨ r = .ebp

/-- All names a call `SetTaintForRegister(dest, …)` writes, in order. -/
def writtenRegs (dest : Reg) : List Reg := subRegisters dest ++ [dest]

theorem mem_writtenRegs {r dest : Reg} :
    r ∈ writtenRegs dest ↔ r = dest ∨ r ∈ subRegisters dest := by
  rw [writtenRegs]
  rw [List.mem_append, List.mem_singleton, or_comm]

@[simp] theorem flagsReg_not_stack (ws : WordSize) :
    isStackReg (flagsReg ws) = false := by
  cases ws <;> rfl

end DytanRegister
