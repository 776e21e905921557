import Mathlib.Data.BitVec
import Mathlib.Logic.Basic

/-! # The CMOVcc checks

    `Instrument_CMOVcc`, disabled as it stands, asks one of sixteen functions
    of the flags whether the move happens, and states beside each of them the
    condition it wants.

    The masks shift 1 by their position, so a masked value is 0 or a power of
    two above 1: the functions that compare it with 1 never answer yes, those
    that compare two masked values answer that both bits are clear, and
    `CF_MASK` reads bit 1. -/

namespace DytanCmovChecks

/-- The value of an `ADDRINT`. -/
abbrev AddrInt := BitVec 64

-- the macros are not parenthesised, but `<<` binds tighter than `&`
/-- `CF_MASK`. -/
def cfMask : AddrInt := 1#64 <<< 1
/-- `PF_MASK`. -/
def pfMask : AddrInt := 1#64 <<< 2
/-- `ZF_MASK`. -/
def zfMask : AddrInt := 1#64 <<< 6
/-- `SF_MASK`. -/
def sfMask : AddrInt := 1#64 <<< 7
/-- `OF_MASK`. -/
def ofMask : AddrInt := 1#64 <<< 11

/-- A truth value, returned as an `ADDRINT`. -/
def truth (b : Bool) : AddrInt := if b then 1 else 0

def checkCMOVNB (eflags : AddrInt) : AddrInt := truth (eflags &&& cfMask == 0)

def checkCMOVB (eflags : AddrInt) : AddrInt := truth (eflags &&& cfMask == 1)

def checkCMOVBE (eflags : AddrInt) : AddrInt :=
  truth (eflags &&& cfMask == 1 || eflags &&& zfMask == 1)

def checkCMOVNLE (eflags : AddrInt) : AddrInt :=
  truth (eflags &&& zfMask == 0 && eflags &&& sfMask == 0)

def checkCMOVNL (eflags : AddrInt) : AddrInt := truth (eflags &&& sfMask == eflags &&& ofMask)

def checkCMOVL (eflags : AddrInt) : AddrInt := truth (eflags &&& sfMask != eflags &&& ofMask)

def checkCMOVLE (eflags : AddrInt) : AddrInt :=
  truth (eflags &&& zfMask == 1 || eflags &&& sfMask != eflags &&& ofMask)

def checkCMOVNBE (eflags : AddrInt) : AddrInt :=
  truth (eflags &&& cfMask == 0 && eflags &&& zfMask == 0)

def checkCMOVNZ (eflags : AddrInt) : AddrInt := truth (eflags &&& zfMask == 0)

def checkCMOVNO (eflags : AddrInt) : AddrInt := truth (eflags &&& ofMask == 0)

def checkCMOVNP (eflags : AddrInt) : AddrInt := truth (eflags &&& pfMask == 0)

def checkCMOVNS (eflags : AddrInt) : AddrInt := truth (eflags &&& sfMask == 0)

def checkCMOVO (eflags : AddrInt) : AddrInt := truth (eflags &&& ofMask == 1)

def checkCMOVP (eflags : AddrInt) : AddrInt := truth (eflags &&& pfMask == 1)

def checkCMOVS (eflags : AddrInt) : AddrInt := truth (eflags &&& sfMask == 1)

def checkCMOVZ (eflags : AddrInt) : AddrInt := truth (eflags &&& zfMask == 1)

/-- The `XED_ICLASS_CMOVcc` opcodes. -/
inductive Cmov where
  | nb | b | be | nle | nl | l | le | nbe | nz | no | np | ns | o | p | s | z
deriving DecidableEq, Repr

/-- The function `Instrument_CMOVcc` inserts for an opcode. -/
def Cmov.check : Cmov → AddrInt → AddrInt
  | nb => checkCMOVNB
  | b => checkCMOVB
  | be => checkCMOVBE
  | nle => checkCMOVNLE
  | nl => checkCMOVNL
  | l => checkCMOVL
  | le => checkCMOVLE
  | nbe => checkCMOVNBE
  | nz => checkCMOVNZ
  | no => checkCMOVNO
  | np => checkCMOVNP
  | ns => checkCMOVNS
  | o => checkCMOVO
  | p => checkCMOVP
  | s => checkCMOVS
  | z => checkCMOVZ

def CF (v : AddrInt) : Bool := v.getLsbD 0
def PF (v : AddrInt) : Bool := v.getLsbD 2
def ZF (v : AddrInt) : Bool := v.getLsbD 6
def SF (v : AddrInt) : Bool := v.getLsbD 7
def OF (v : AddrInt) : Bool := v.getLsbD 11

/-- The condition stated beside the opcode. -/
def Cmov.condition : Cmov → AddrInt → Bool
  | nb, v => CF v == false
  | b, v => CF v == true
  | be, v => CF v == true || ZF v == true
  | nle, v => ZF v == false && SF v == OF v
  | nl, v => SF v == OF v
  | l, v => SF v != OF v
  | le, v => ZF v == true || SF v != OF v
  | nbe, v => CF v == false && ZF v == false
  | nz, v => ZF v == false
  | no, v => OF v == false
  | np, v => PF v == false
  | ns, v => SF v == false
  | o, v => OF v == true
  | p, v => PF v == true
  | s, v => SF v == true
  | z, v => ZF v == true

/-- The opcode with the complementary condition. -/
def Cmov.opposite : Cmov → Cmov
  | nb => b
  | b => nb
  | be => nbe
  | nle => le
  | nl => l
  | l => nl
  | le => nle
  | nbe => be
  | nz => z
  | no => o
  | np => p
  | ns => s
  | o => no
  | p => np
  | s => ns
  | z => nz

theorem condition_opposite (c : Cmov) (v : AddrInt) :
    c.opposite.condition v = !c.condition v := by
  cases c <;> simp only [Cmov.opposite, Cmov.condition] <;>
    cases CF v <;> cases ZF v <;> cases SF v <;> cases OF v <;> cases PF v <;> rfl

/-! ## What the functions test -/

section Masks

variable {n : Nat} (v : BitVec n) {j k : Nat}

/-- A masked value is the bit at its position. -/
theorem getLsbD_and_mask (i : Nat) :
    (v &&& 1#n <<< k).getLsbD i = (v.getLsbD i && decide (i = k)) := by
  rw [← BitVec.twoPow_eq, BitVec.getLsbD_and, BitVec.getLsbD_twoPow]
  by_cases hi : i = k
  · subst hi
    cases hv : v.getLsbD i with
    | false => rfl
    | true =>
        have hlt := BitVec.lt_of_getLsbD hv
        simp [hlt]
  · simp [hi, Ne.symm hi]

/-- Compared with 0, the bit is clear. -/
theorem and_mask_eq_zero_iff : v &&& 1#n <<< k = 0 ↔ v.getLsbD k = false := by
  constructor
  · intro h
    have hbit := getLsbD_and_mask v (k := k) k
    rw [h] at hbit
    simpa using hbit.symm
  · intro h
    refine BitVec.eq_of_getLsbD_eq fun i _ => ?_
    rw [getLsbD_and_mask]
    by_cases hi : i = k
    · rw [hi, h]
      exact BitVec.getLsbD_zero.symm
    · rw [decide_eq_false hi, Bool.and_false]
      exact BitVec.getLsbD_zero.symm

/-- Above position 0 a masked value is never 1. -/
theorem and_mask_ne_one (hn : 0 < n) (hk : 0 < k) : v &&& 1#n <<< k ≠ 1 := by
  intro h
  have hbit := getLsbD_and_mask v (k := k) 0
  rw [h, decide_eq_false (by omega), Bool.and_false] at hbit
  have hone : (1 : BitVec n).getLsbD 0 = true := by
    show (1#n).getLsbD 0 = true
    rw [BitVec.getLsbD_one, decide_eq_true hn, decide_eq_true rfl, Bool.and_true]
  exact Bool.false_ne_true (hbit.symm.trans hone)

/-- Masked at two positions a value is the same exactly when both bits are
    clear. -/
theorem and_mask_eq_and_mask_iff (hjk : j ≠ k) :
    v &&& 1#n <<< j = v &&& 1#n <<< k ↔ v.getLsbD j = false ∧ v.getLsbD k = false := by
  constructor
  · intro h
    have hj := congrArg (·.getLsbD j) h
    have hk := congrArg (·.getLsbD k) h
    simp only [getLsbD_and_mask, decide_eq_false hjk, decide_eq_false hjk.symm, decide_true,
      Bool.and_true, Bool.and_false] at hj hk
    exact ⟨hj, hk.symm⟩
  · rintro ⟨hj, hk⟩
    rw [(and_mask_eq_zero_iff v).mpr hj, (and_mask_eq_zero_iff v).mpr hk]

end Masks

/-- The bit that `CF_MASK` selects. -/
def bitOfCfMask (v : AddrInt) : Bool := v.getLsbD 1

/-- What the function of an opcode tests. -/
def Cmov.tested : Cmov → AddrInt → Bool
  | nb, v => !bitOfCfMask v
  | b, _ => false
  | be, _ => false
  | nle, v => !ZF v && !SF v
  | nl, v => !SF v && !OF v
  | l, v => SF v || OF v
  | le, v => SF v || OF v
  | nbe, v => !bitOfCfMask v && !ZF v
  | nz, v => !ZF v
  | no, v => !OF v
  | np, v => !PF v
  | ns, v => !SF v
  | o, _ => false
  | p, _ => false
  | s, _ => false
  | z, _ => false

theorem truth_ne_zero_iff (b : Bool) : truth b ≠ 0 ↔ b = true := by
  cases b <;> decide

theorem masked_beq_zero {n : Nat} (v : BitVec n) (k : Nat) :
    (v &&& 1#n <<< k == 0) = !v.getLsbD k := by
  rw [Bool.eq_iff_iff, beq_iff_eq, and_mask_eq_zero_iff, Bool.not_eq_true']

theorem masked_beq_one (v : AddrInt) {k : Nat} (hk : 0 < k) : (v &&& 1#64 <<< k == 1) = false :=
  beq_eq_false_iff_ne.mpr (and_mask_ne_one v (by decide) hk)

theorem masked_beq_masked {n : Nat} (v : BitVec n) {j k : Nat} (hjk : j ≠ k) :
    (v &&& 1#n <<< j == v &&& 1#n <<< k) = (!v.getLsbD j && !v.getLsbD k) := by
  rw [Bool.eq_iff_iff, beq_iff_eq, and_mask_eq_and_mask_iff v hjk, Bool.and_eq_true,
    Bool.not_eq_true', Bool.not_eq_true']

/-- **What each function tests.** -/
theorem check_ne_zero_iff (c : Cmov) (v : AddrInt) : c.check v ≠ 0 ↔ c.tested v = true := by
  have hcmp := masked_beq_masked v (j := 7) (k := 11) (by decide)
  cases c with
  | nb => exact (truth_ne_zero_iff _).trans (by rw [cfMask, masked_beq_zero]; rfl)
  | b => exact (truth_ne_zero_iff _).trans (by rw [cfMask, masked_beq_one v (by decide)]; rfl)
  | be =>
      refine (truth_ne_zero_iff _).trans ?_
      rw [cfMask, zfMask, masked_beq_one v (by decide), masked_beq_one v (by decide)]
      rfl
  | nle => exact (truth_ne_zero_iff _).trans (by
      rw [zfMask, sfMask, masked_beq_zero, masked_beq_zero]; rfl)
  | nl => exact (truth_ne_zero_iff _).trans (by rw [sfMask, ofMask, hcmp]; rfl)
  | l =>
      refine (truth_ne_zero_iff _).trans ?_
      rw [sfMask, ofMask, bne, hcmp, Bool.not_and, Bool.not_not, Bool.not_not]
      rfl
  | le =>
      refine (truth_ne_zero_iff _).trans ?_
      rw [zfMask, sfMask, ofMask, masked_beq_one v (by decide), bne, hcmp, Bool.not_and,
        Bool.not_not, Bool.not_not, Bool.false_or]
      rfl
  | nbe => exact (truth_ne_zero_iff _).trans (by
      rw [cfMask, zfMask, masked_beq_zero, masked_beq_zero]; rfl)
  | nz => exact (truth_ne_zero_iff _).trans (by rw [zfMask, masked_beq_zero]; rfl)
  | no => exact (truth_ne_zero_iff _).trans (by rw [ofMask, masked_beq_zero]; rfl)
  | np => exact (truth_ne_zero_iff _).trans (by rw [pfMask, masked_beq_zero]; rfl)
  | ns => exact (truth_ne_zero_iff _).trans (by rw [sfMask, masked_beq_zero]; rfl)
  | o => exact (truth_ne_zero_iff _).trans (by rw [ofMask, masked_beq_one v (by decide)]; rfl)
  | p => exact (truth_ne_zero_iff _).trans (by rw [pfMask, masked_beq_one v (by decide)]; rfl)
  | s => exact (truth_ne_zero_iff _).trans (by rw [sfMask, masked_beq_one v (by decide)]; rfl)
  | z => exact (truth_ne_zero_iff _).trans (by rw [zfMask, masked_beq_one v (by decide)]; rfl)

/-- Where a function answers as its opcode's condition says. -/
theorem check_follows_iff (c : Cmov) (v : AddrInt) :
    (c.check v ≠ 0 ↔ c.condition v = true) ↔ c.tested v = c.condition v := by
  rw [check_ne_zero_iff, ← Bool.eq_iff_iff]

/-- The answers are right for a flags value: each function returns a non-zero
    value exactly when the condition of its opcode holds, and of two
    complementary ones exactly one does. -/
structure Right (v : AddrInt) : Prop where
  follows : ∀ c : Cmov, c.check v ≠ 0 ↔ c.condition v = true
  exclusive : ∀ c : Cmov, Xor (c.check v ≠ 0) (c.opposite.check v ≠ 0)

/-- Functions that follow their conditions exclude each other as these do. -/
theorem Right.of_follows {v : AddrInt}
    (h : ∀ c : Cmov, c.check v ≠ 0 ↔ c.condition v = true) : Right v where
  follows := h
  exclusive := by
    intro c
    rw [h c, h c.opposite, condition_opposite]
    cases c.condition v with
    | false => exact Or.inr ⟨rfl, Bool.false_ne_true⟩
    | true => exact Or.inl ⟨rfl, Bool.false_ne_true⟩

/-- **The checks are right** exactly for the flags values in which the carry,
    parity, zero, sign and overflow flags and bit 1 are all clear. -/
theorem right_iff (v : AddrInt) : Right v ↔ CF v = false ∧ bitOfCfMask v = false ∧ PF v = false
    ∧ ZF v = false ∧ SF v = false ∧ OF v = false := by
  constructor
  · intro h
    have heq : ∀ c : Cmov, c.tested v = c.condition v :=
      fun c => (check_follows_iff c v).mp (h.follows c)
    -- the functions that never answer yes want their flag clear
    have hcf : CF v = false := by simpa [Cmov.tested, Cmov.condition] using heq .b
    have hpf : PF v = false := by simpa [Cmov.tested, Cmov.condition] using heq .p
    have hzf : ZF v = false := by simpa [Cmov.tested, Cmov.condition] using heq .z
    have hsf : SF v = false := by simpa [Cmov.tested, Cmov.condition] using heq .s
    have hof : OF v = false := by simpa [Cmov.tested, Cmov.condition] using heq .o
    -- and `CF_MASK` is compared with 0 in place of the carry flag
    have hbit : bitOfCfMask v = false := by simpa [Cmov.tested, Cmov.condition, hcf] using heq .nb
    exact ⟨hcf, hbit, hpf, hzf, hsf, hof⟩
  · rintro ⟨hcf, hbit, hpf, hzf, hsf, hof⟩
    refine Right.of_follows fun c => (check_follows_iff c v).mpr ?_
    cases c <;> simp [Cmov.tested, Cmov.condition, hcf, hbit, hpf, hzf, hsf, hof]

/-- With the carry flag alone, both CMOVB and CMOVNB are answered wrongly. -/
theorem carry_not_right : checkCMOVB 1 = 0 ∧ checkCMOVNB 1 = 1 ∧ CF 1 = true ∧ ¬ Right 1 := by
  refine ⟨by decide, by decide, by decide, fun h => ?_⟩
  have hyes := (h.follows .b).mpr (by decide)
  exact hyes (by decide)

end DytanCmovChecks
