import Dytan.RegisterAliasProofs
import Dytan.HandlerProofs

/-! # The flags register — what writers associate and what readers see

    The flags are kept under two names, EFLAGS and RFLAGS.  Every reader, and
    most writers, use the name of the build; MUL, one-operand IMUL, DIV and
    IDIV use the name their operand width selects.

    A handler that writes the flags does so by its last call.  The marks it
    associates with them are those that call assigns: the union of the scratch
    sets it passes and the control taint, or the control taint alone when it
    clears.  `FlagsSeen` says that every reader then sees exactly these. -/

namespace DytanFlags

open DytanBitset DytanRegister DytanTaintState DytanMarkFlow DytanRegisterAlias
open DytanInstruction DytanHandler Emission Overwrite

variable {ws : WordSize} {N : Nat}

/-- The readers of the flags. -/
inductive FlagReader (ws : WordSize) where
  | pushControl (a : Addr ws)
  | setcc
  | adc
  | pushfd

/-- The scratch set into which `Instrument_ADC` loads the flags. -/
abbrev adcSet : Scratch := .eflags

/-- The scratch set into which SETcc and PUSHFD load the flags. -/
abbrev flagSet : Scratch := .src

/-- The state with no branch pushed. -/
def withoutControl (s : TaintState ws N) : TaintState ws N :=
  { s with controlTaintMap := ∅ }

/-- The marks a reader sees: those `PushControl` enters for a branch without an
    entry, or those the reading handler loads. -/
def FlagReader.sees (reader : FlagReader ws) (s : TaintState ws N) : Set Nat :=
  match reader with
  | .pushControl a => {m | ∃ t, step (.pushControl a) (withoutControl s) = some t
      ∧ m ∈ marksAt t (.ctl a)}
  | .setcc => readBack (flagsReg ws) flagSet s
  | .adc => readBack (flagsReg ws) adcSet s
  | .pushfd => readBack (flagsReg ws) flagSet s

/-- SETcc loads the flags of the build into `flagSet`. -/
theorem setcc_reads (ins : Ins) :
    ⟨none, .taintForRegister (flagsReg ws) flagSet⟩ ∈ (instrumentSETcc ws ins).calls := by
  rw [instrumentSETcc]
  rw [bind_of_ok rfl]
  exact List.mem_append_left _ List.mem_cons_self

/-- PUSHFD loads the flags of the build into `flagSet`. -/
theorem pushfd_reads :
    ⟨none, .taintForRegister (flagsReg ws) flagSet⟩ ∈ (instrumentPUSHFD ws).calls :=
  List.mem_cons_self

/-- ADC, when it completes, has loaded the flags of the build into `adcSet`. -/
theorem adc_reads (ins : Ins) :
    Emits (· = ⟨none, .taintForRegister (flagsReg ws) adcSet⟩) (instrumentADC ws ins) :=
  .bind_right fun _ => .bind_right fun _ => .bind_left (Emits.emit rfl)

/-- Every reader sees the marks under the name of the build. -/
theorem sees_eq {s : TaintState ws N} (hs : SizedState s) (reader : FlagReader ws) :
    reader.sees s = marksAt s (.reg (flagsReg ws)) := by
  cases reader with
  | setcc => exact readBack_eq hs _ _
  | adc => exact readBack_eq hs _ _
  | pushfd => exact readBack_eq hs _ _
  | pushControl a =>
      have hempty : SizedState (withoutControl s) := by
        refine ⟨fun p b hb => ?_, hs.tags⟩
        cases p with
        | ctl c => simp [entryAt, withoutControl] at hb
        | reg r => exact hs.entries (.reg r) b hb
        | mem c => exact hs.entries (.mem c) b hb
        | scr x => exact hs.entries (.scr x) b hb
      obtain ⟨t, e, hpush, ha, he⟩ := pushControl_spec hempty a
      have hnone : marksAt (withoutControl s) (.ctl a) = ∅ := by
        rw [marksAt, entryAt, withoutControl, Std.ExtTreeMap.getElem?_empty, entryMarks_none]
      have htarget : marksAt t (.ctl a) = marksAt s (.reg (flagsReg ws)) := by
        rw [marksAt, ha.target (.ctl a) rfl, he, hnone, Set.empty_union]
        rfl
      ext m
      constructor
      · rintro ⟨t', ht', hm⟩
        cases hpush.symm.trans ht'
        exact htarget ▸ hm
      · exact fun hm => ⟨t, hpush, htarget.symm ▸ hm⟩

/-! ## Writers -/

/-- The marks a flag-writing call assigns. -/
def flagsMarks (c : Analysis) (s : TaintState ws N) : Set Nat :=
  match c with
  | .setTaintForRegister _ sets => {m | ∃ x ∈ sets, m ∈ marks (s.scratch x)} ∪ controlMarks s
  | .clearTaintForRegister _ => controlMarks s
  | _ => ∅

/-- After the inserted calls every reader sees the marks that the last of them
    associates with the flags. -/
def FlagsSeen (ctx : Ctx ws) (ins : Ins) (s : TaintState ws N) : Prop :=
  ∃ pre i s₁ s', (dataflow ws ins).calls = pre ++ [i] ∧ run (callsAt ctx pre) s = some s₁
    ∧ run (callsAt ctx (dataflow ws ins).calls) s = some s'
    ∧ ∀ reader : FlagReader ws, reader.sees s' = flagsMarks i.call s₁

/-- The last call assigns the flags: what readers see is the entry of the
    build's name after it. -/
theorem flagsSeen_iff {ins : Ins} {s : TaintState ws N} (hs : SizedState s) (ctx : Ctx ws)
    {pre : List Inserted} {c : Analysis}
    (hcalls : (dataflow ws ins).calls = pre ++ [⟨none, c⟩]) :
    ∃ s₁ s', run (callsAt ctx pre) s = some s₁ ∧ SizedState s₁
      ∧ step (ctx.resolve c) s₁ = some s'
      ∧ (∀ p, (∀ d ∈ callsAt ctx pre, p ∉ mayAssign d) → entryAt s₁ p = entryAt s p)
      ∧ controlMarks s₁ = controlMarks s
      ∧ (FlagsSeen ctx ins s ↔ marksAt s' (.reg (flagsReg ws)) = flagsMarks c s₁) := by
  obtain ⟨s₁, hpre, hs₁, hframe, hctl⟩ := run_frame (isData_callsAt ctx pre) hs
  obtain ⟨s', hstep, hs', -⟩ := step_marks hs₁ (ctx.resolve c)
  have hrun : run (callsAt ctx (dataflow ws ins).calls) s = some s' := by
    rw [hcalls, callsAt_append, run_append, hpre]
    show (step (ctx.resolve c) s₁).bind (run []) = some s'
    rw [hstep]
    rfl
  refine ⟨s₁, s', hpre, hs₁, hstep, hframe, hctl, ?_⟩
  constructor
  · rintro ⟨pre', i, t₁, t', hcalls', hpre', hrun', hsees⟩
    rw [hcalls] at hcalls'
    obtain ⟨rfl, hi⟩ := List.append_inj' hcalls' rfl
    cases hi
    cases hpre.symm.trans hpre'
    cases hrun.symm.trans hrun'
    rw [← sees_eq hs' (.setcc)]
    exact hsees .setcc
  · intro h
    refine ⟨pre, _, s₁, s', hcalls, hpre, hrun, fun reader => ?_⟩
    rw [sees_eq hs' reader]
    exact h

/-- A writer whose last call assigns the flags of the build is seen by every
    reader. -/
theorem flagsSeen_of_set {ctx : Ctx ws} {ins : Ins} {s : TaintState ws N} (hs : SizedState s)
    {pre : List Inserted} {sets : List Scratch}
    (hcalls : (dataflow ws ins).calls
      = pre ++ [⟨none, .setTaintForRegister (flagsReg ws) sets⟩]) :
    FlagsSeen ctx ins s := by
  obtain ⟨s₁, s', -, hs₁, hstep, -, -, hiff⟩ := flagsSeen_iff hs ctx hcalls
  refine hiff.mpr ?_
  obtain ⟨t, b, ht, ha, -, hb⟩ :=
    setTaintForRegister_spec hs₁ (flagsReg ws) (sized_args hs₁ sets)
  cases hstep.symm.trans ht
  have htarget : entryAt s' (.reg (flagsReg ws)) = some b :=
    ha.target _ ⟨flagsReg_not_stack ws, _, mem_writtenRegs.mpr (Or.inl rfl), rfl⟩
  rw [marksAt, htarget, entryMarks_some, hb]
  ext m
  simp [flagsMarks]

/-- A call that assigns another name: readers still see what was there before
    the handler's calls. -/
theorem flagsSeen_set_other {ctx : Ctx ws} {ins : Ins} {s : TaintState ws N}
    (hs : SizedState s) {pre : List Inserted} {k : Reg} {sets : List Scratch}
    (hcalls : (dataflow ws ins).calls = pre ++ [⟨none, .setTaintForRegister k sets⟩])
    (hk : flagsReg ws ∉ writtenRegs k)
    (hpre : ∀ d ∈ callsAt ctx pre, Place.reg (flagsReg ws) ∉ mayAssign d) :
    ∃ s₁, run (callsAt ctx pre) s = some s₁ ∧ controlMarks s₁ = controlMarks s
      ∧ (FlagsSeen ctx ins s ↔
        marksAt s (.reg (flagsReg ws)) = flagsMarks (.setTaintForRegister k sets) s₁) := by
  obtain ⟨s₁, s', hrun, hs₁, hstep, hframe, hctl, hiff⟩ := flagsSeen_iff hs ctx hcalls
  refine ⟨s₁, hrun, hctl, hiff.trans ?_⟩
  obtain ⟨t, b, ht, ha, -⟩ := setTaintForRegister_spec hs₁ k (sized_args hs₁ sets)
  cases hstep.symm.trans ht
  have hkeep : entryAt s' (.reg (flagsReg ws)) = entryAt s (.reg (flagsReg ws)) := by
    rw [← hframe _ hpre]
    refine ha.frame _ ?_
    rintro ⟨-, r, hr, h⟩
    cases h
    exact hk hr
  rw [marksAt, hkeep, marksAt]

/-- A handler that clears the flags under the name `k`: when that is the name
    of the build, the name must be a key or there must be no control taint;
    otherwise readers must have seen just the control taint before. -/
theorem flagsSeen_clear_iff {ctx : Ctx ws} {ins : Ins} {s : TaintState ws N}
    (hs : SizedState s) {pre : List Inserted} {k : Reg}
    (hcalls : (dataflow ws ins).calls = pre ++ [⟨none, .clearTaintForRegister k⟩])
    (hpre : ∀ d ∈ callsAt ctx pre, Place.reg (flagsReg ws) ∉ mayAssign d) :
    FlagsSeen ctx ins s ↔
      if k = flagsReg ws then .reg (flagsReg ws) ∈ present s ∨ controlMarks s = ∅
      else marksAt s (.reg (flagsReg ws)) = controlMarks s := by
  obtain ⟨s₁, s', -, hs₁, hstep, hframe, hctl, hiff⟩ := flagsSeen_iff hs ctx hcalls
  refine hiff.trans ?_
  rw [flagsMarks, hctl]
  have hkeep := hframe _ hpre
  obtain ⟨t, c, ht, ha, -, hc⟩ := clearTaintForRegister_spec hs₁ k
  cases hstep.symm.trans ht
  by_cases hk : k = flagsReg ws
  · rw [if_pos hk]
    subst hk
    by_cases hp : Place.reg (flagsReg ws) ∈ present s₁
    · have htarget : entryAt s' (.reg (flagsReg ws)) = some c := ha.target _ ⟨rfl, hp⟩
      have hp' : Place.reg (flagsReg ws) ∈ present s := by
        obtain ⟨b, hb⟩ := hp
        exact ⟨b, hkeep ▸ hb⟩
      rw [marksAt, htarget, entryMarks_some, hc, hctl]
      exact ⟨fun _ => Or.inl hp', fun _ => rfl⟩
    · have hp' : Place.reg (flagsReg ws) ∉ present s := by
        rintro ⟨b, hb⟩
        exact hp ⟨b, hkeep ▸ hb⟩
      rw [marksAt, ha.frame _ fun h => hp h.2, hkeep]
      show marksAt s (.reg (flagsReg ws)) = _ ↔ _
      rw [marksAt_of_absent hp']
      exact ⟨fun h => Or.inr h.symm, fun h => (h.resolve_left hp').symm⟩
  · rw [if_neg hk]
    have hne : Place.reg (flagsReg ws) ∉ ({.reg k} ∩ present s₁ : Set (Place ws)) := by
      rintro ⟨h, -⟩
      cases h
      exact hk rfl
    rw [marksAt, ha.frame _ hne, hkeep, marksAt]

/-! ## Writers that use the name of the build -/

/-- The last call assigns the flags of the build. -/
def AssignsFlags (ws : WordSize) (i : Inserted) : Prop :=
  ∃ sets, i = ⟨none, .setTaintForRegister (flagsReg ws) sets⟩

theorem endsWith_setTaintForFlags (sets : List Scratch) :
    EndsWith (AssignsFlags ws) (setTaintForFlags ws sets) := EndsWith.emit ⟨sets, rfl⟩

theorem endsWith_ADD (ins : Ins) : EndsWith (AssignsFlags ws) (instrumentADD ws ins) :=
  .bind fun _ => .bind fun _ => .bind fun _ => endsWith_setTaintForFlags _

theorem endsWith_ADC (ins : Ins) : EndsWith (AssignsFlags ws) (instrumentADC ws ins) :=
  .bind fun _ => .bind fun _ => .bind fun _ => .bind fun _ => endsWith_setTaintForFlags _

theorem endsWith_XOR (ins : Ins) : EndsWith (AssignsFlags ws) (instrumentXOR ws ins) :=
  .bind fun _ => .bind fun _ => .bind fun _ => endsWith_setTaintForFlags _

theorem endsWith_CMP (ins : Ins) : EndsWith (AssignsFlags ws) (instrumentCMP ws ins) :=
  .bind fun _ => .bind fun _ => endsWith_setTaintForFlags _

theorem endsWith_TEST (ins : Ins) : EndsWith (AssignsFlags ws) (instrumentTEST ws ins) :=
  .bind fun _ => .bind fun _ => endsWith_setTaintForFlags _

theorem endsWith_DEC (ins : Ins) : EndsWith (AssignsFlags ws) (instrumentDEC ws ins) :=
  .bind fun _ => endsWith_setTaintForFlags _

theorem endsWith_SAR (ins : Ins) : EndsWith (AssignsFlags ws) (instrumentSAR ws ins) :=
  .bind fun _ => .bind fun _ => .bind fun _ => endsWith_setTaintForFlags _

theorem endsWith_SHLD (ins : Ins) : EndsWith (AssignsFlags ws) (instrumentSHLD ws ins) :=
  .bind fun _ => .bind fun _ => .bind fun _ => .bind fun _ => endsWith_setTaintForFlags _

theorem endsWith_XADD (ins : Ins) : EndsWith (AssignsFlags ws) (instrumentXADD ws ins) :=
  .bind fun _ => .bind fun _ => .bind fun _ => .bind fun _ => endsWith_setTaintForFlags _

theorem endsWith_imulOperands (ins : Ins) (immediate : Bool) :
    EndsWith (AssignsFlags ws) (imulOperands ws ins immediate) :=
  .bind fun _ => .bind fun _ => .bind fun _ => endsWith_setTaintForFlags _

/-- The classes whose handler selects the name by operand width. -/
def selectsByWidth (ins : Ins) : Bool :=
  match ins.iclass with
  | .MUL | .DIV | .IDIV => true
  | .IMUL => ins.operandCount = 1
  | _ => false

/-- The flag-writing classes: those of the handlers ADD, ADC, XOR, CMP, TEST,
    DEC, NEG, SAR, SHLD, XADD, MUL, IMUL, DIV and IDIV. -/
def writesFlags : IClass → Bool
  | .ADD | .OR | .AND | .SUB | .ADC | .SBB | .XOR | .CMP | .TEST | .INC | .DEC | .NEG => true
  | .SAR | .SHL | .SHR | .SHLD | .SHRD | .XADD | .MUL | .IMUL | .DIV | .IDIV => true
  | _ => false

theorem endsWith_dataflow {ins : Ins} (hw : writesFlags ins.iclass = true)
    (hsel : selectsByWidth ins = false) : EndsWith (AssignsFlags ws) (dataflow ws ins) := by
  rw [dataflow]
  rw [selectsByWidth] at hsel
  revert hw hsel
  cases ins.iclass with
  | ADD | OR | AND | SUB => exact fun _ _ => endsWith_ADD ins
  | ADC | SBB => exact fun _ _ => endsWith_ADC ins
  | XOR => exact fun _ _ => endsWith_XOR ins
  | CMP => exact fun _ _ => endsWith_CMP ins
  | TEST => exact fun _ _ => endsWith_TEST ins
  | INC | DEC | NEG => exact fun _ _ => endsWith_DEC ins
  | SAR | SHL | SHR => exact fun _ _ => endsWith_SAR ins
  | SHLD | SHRD => exact fun _ _ => endsWith_SHLD ins
  | XADD => exact fun _ _ => endsWith_XADD ins
  | IMUL =>
      intro _ hsel
      show EndsWith _ (instrumentIMUL ws ins)
      rw [instrumentIMUL]
      rw [if_neg (by simpa using hsel)]
      split
      · exact endsWith_imulOperands ins true
      · split
        · exact endsWith_imulOperands ins false
        · exact EndsWith.abort
  | MUL | DIV | IDIV =>
      intro _ hsel
      simp at hsel
  | _ =>
      intro hw
      exact nomatch hw

/-! ## Writers that select the name by operand width -/

/-- The width test accepts two widths. -/
theorem wideRegs_cases {n : Nat} {w : WideRegs} (h : wideRegs n = some w) :
    (n = 32 ∧ w = ⟨.eax, .edx, .eflags, .eax, .edx⟩)
      ∨ (n = 64 ∧ w = ⟨.rax, .rdx, .rflags, .rax, .rdx⟩) := by
  rw [wideRegs] at h
  by_cases h32 : n = 32
  · rw [if_pos h32] at h
    exact Or.inl ⟨h32, (Option.some.inj h).symm⟩
  · rw [if_neg h32] at h
    by_cases h64 : n = 64
    · rw [if_pos h64] at h
      exact Or.inr ⟨h64, (Option.some.inj h).symm⟩
    · rw [if_neg h64] at h
      exact nomatch h

/-- The selected name is that of the build when the operand is as wide as the
    build. -/
theorem regFlags_eq_iff {n : Nat} {w : WideRegs} (h : wideRegs n = some w) :
    w.regFlags = flagsReg ws ↔ n = ws.bits := by
  rcases wideRegs_cases h with ⟨rfl, rfl⟩ | ⟨rfl, rfl⟩ <;> cases ws <;> decide

/-- The selected name has no sub-registers. -/
theorem writtenRegs_regFlags {n : Nat} {w : WideRegs} (h : wideRegs n = some w) :
    writtenRegs w.regFlags = [w.regFlags] := by
  rcases wideRegs_cases h with ⟨-, rfl⟩ | ⟨-, rfl⟩ <;> rfl

/-- Neither result register is written under a name of the flags. -/
theorem flagsReg_notMem_wide {n : Nat} {w : WideRegs} (h : wideRegs n = some w) :
    flagsReg ws ∉ writtenRegs w.regAx ∧ flagsReg ws ∉ writtenRegs w.regDx := by
  rcases wideRegs_cases h with ⟨-, rfl⟩ | ⟨-, rfl⟩ <;> cases ws <;> decide

/-- The call that loads operand 0. -/
def operandLoad (ins : Ins) : Analysis :=
  if ins.operandIsReg 0 then .taintForRegister (ins.operandReg 0) .src
  else .taintForMemory .read .src

/-- The marks of operand 0. -/
def operandMarks (ctx : Ctx ws) (ins : Ins) (s : TaintState ws N) : Set Nat :=
  if ins.operandIsReg 0 then marksAt s (.reg (ins.operandReg 0))
  else gathered (rangePlaces ctx.memoryReadEA ctx.memoryReadSize) (marksAt s)

theorem taintForOperand_eq {ins : Ins} (h : Completes (taintForOperand ins 0 .src true false)) :
    taintForOperand ins 0 .src true false = emit ⟨none, operandLoad ins⟩ := by
  simp only [taintForOperand, operandLoad] at *
  by_cases hreg : ins.operandIsReg 0 = true
  · rw [if_pos hreg, if_pos hreg]
    rfl
  · rw [if_neg hreg] at h ⊢
    rw [if_neg hreg]
    cases hmem : ins.operandIsMemory 0 with
    | false =>
        rw [hmem] at h
        exact absurd h not_completes_abort
    | true =>
        rw [hmem] at h
        cases hread : ins.isMemoryRead with
        | false =>
            simp [requireMemoryRead, hread] at h
        | true =>
            simp only [requireMemoryRead, hread]
            rfl

/-- Loading operand 0 puts its marks into `src` and changes no other place. -/
theorem operandLoad_spec (ctx : Ctx ws) (ins : Ins) {s : TaintState ws N} (hs : SizedState s) :
    ∃ t, step (ctx.resolve (operandLoad ins)) s = some t ∧ SizedState t
      ∧ marksAt t (.scr .src) = operandMarks ctx ins s
      ∧ ∀ p, p ≠ .scr .src → entryAt t p = entryAt s p := by
  rw [operandLoad, operandMarks]
  by_cases hreg : ins.operandIsReg 0 = true
  · rw [if_pos hreg, if_pos hreg]
    obtain ⟨t, b, ht, ha, -, hb⟩ := taintForRegister_spec hs (ins.operandReg 0) .src
    refine ⟨t, ht, ha.sizedState hs, ?_, fun p hp => ha.frame p hp⟩
    rw [marksAt, ha.target _ rfl, entryMarks_some, hb]
  · rw [if_neg hreg, if_neg hreg]
    obtain ⟨t, b, ht, ha, -, hb⟩ :=
      taintForMemory_spec hs ctx.memoryReadEA ctx.memoryReadSize .src
    refine ⟨t, ht, ha.sizedState hs, ?_, fun p hp => ha.frame p hp⟩
    rw [marksAt, ha.target _ rfl, entryMarks_some, hb]

/-- A call that cannot assign the flags of the build. -/
def SparesFlags (ws : WordSize) (i : Inserted) : Prop :=
  ∀ ctx : Ctx ws, Place.reg (flagsReg ws) ∉ mayAssign (ctx.resolve i.call)

theorem sparesFlags_load (r : Reg) (x : Scratch) :
    SparesFlags ws ⟨none, .taintForRegister r x⟩ := fun _ h => nomatch h

theorem sparesFlags_operandLoad (ins : Ins) : SparesFlags ws ⟨none, operandLoad ins⟩ := by
  rw [operandLoad]
  split
  · exact sparesFlags_load _ _
  · exact fun _ h => nomatch h

theorem sparesFlags_set {r : Reg} (h : flagsReg ws ∉ writtenRegs r) (sets : List Scratch) :
    SparesFlags ws ⟨none, .setTaintForRegister r sets⟩ := by
  rintro ctx ⟨-, q, hq, heq⟩
  cases heq
  exact h hq

theorem sparesFlags_callsAt (ctx : Ctx ws) {pre : List Inserted}
    (h : ∀ i ∈ pre, SparesFlags ws i) :
    ∀ d ∈ callsAt ctx pre, Place.reg (flagsReg ws) ∉ mayAssign d := by
  intro d hd
  obtain ⟨i, hi, -, rfl⟩ := mem_callsAt.mp hd
  exact h i hi ctx

/-- The calls of MUL before the one that assigns the flags. -/
def mulCalls (ins : Ins) (w : WideRegs) : List Inserted :=
  [⟨none, operandLoad ins⟩, ⟨none, .taintForRegister w.regAx w.ax⟩,
    ⟨none, .setTaintForRegister w.regAx [w.ax, .src]⟩,
    ⟨none, .setTaintForRegister w.regDx [w.ax, .src]⟩]

theorem calls_MUL {ins : Ins} {w : WideRegs} (hw : wideRegs (ins.operandWidth 0) = some w)
    (hc : Completes (instrumentMUL ins)) :
    (instrumentMUL ins).calls
      = mulCalls ins w ++ [⟨none, .setTaintForRegister w.regFlags [w.ax, .src]⟩] := by
  simp only [instrumentMUL] at *
  rw [hw] at *
  obtain ⟨a, ha, -⟩ := completes_bind.mp hc
  show (taintForOperand ins 0 .src true false >>= _).calls = _
  rw [taintForOperand_eq ⟨a, ha⟩]
  rfl

theorem sparesFlags_mulCalls {ins : Ins} {w : WideRegs}
    (hw : wideRegs (ins.operandWidth 0) = some w) :
    ∀ i ∈ mulCalls ins w, SparesFlags ws i := by
  obtain ⟨hax, hdx⟩ : flagsReg ws ∉ writtenRegs w.regAx ∧ flagsReg ws ∉ writtenRegs w.regDx :=
    flagsReg_notMem_wide hw
  simp only [mulCalls, List.forall_mem_cons]
  exact ⟨sparesFlags_operandLoad ins, sparesFlags_load _ _, sparesFlags_set hax _,
    sparesFlags_set hdx _, by simp⟩

/-- The marks MUL associates with the flags. -/
def mulMarks (ctx : Ctx ws) (ins : Ins) (w : WideRegs) (s : TaintState ws N) : Set Nat :=
  marksAt s (.reg w.regAx) ∪ operandMarks ctx ins s ∪ controlMarks s

/-- The marks the last call of MUL assigns, read off the state before the
    handler's calls. -/
theorem flagsMarks_MUL (ctx : Ctx ws) {ins : Ins} {w : WideRegs}
    (hw : wideRegs (ins.operandWidth 0) = some w) {s s₁ : TaintState ws N} (hs : SizedState s)
    (hrun : run (callsAt ctx (mulCalls ins w)) s = some s₁)
    (hctl : controlMarks s₁ = controlMarks s) :
    flagsMarks (.setTaintForRegister w.regFlags [w.ax, .src]) s₁ = mulMarks ctx ins w s := by
  have hax : w.ax ≠ .src := by
    rcases wideRegs_cases hw with ⟨-, rfl⟩ | ⟨-, rfl⟩ <;> decide
  obtain ⟨t₁, ht₁, hs₁, hsrc, hkeep₁⟩ := operandLoad_spec ctx ins hs
  obtain ⟨t₂, b, ht₂, ha₂, -, hb⟩ := taintForRegister_spec hs₁ w.regAx w.ax
  -- the two assignments of registers leave the scratch sets alone
  have hdata : ∀ c ∈ ([.setTaintForRegister w.regAx [w.ax, .src],
      .setTaintForRegister w.regDx [w.ax, .src]] : List (Call ws)), isData c = true := by
    simp [isData]
  obtain ⟨t₃, ht₃, -, hkeep₃, -⟩ := run_frame hdata (ha₂.sizedState hs₁)
  have hscr : ∀ x, entryAt t₃ (.scr x) = entryAt t₂ (.scr x) := by
    intro x
    refine hkeep₃ _ ?_
    simp [mayAssign, regPlaces]
  have hs₁t₃ : s₁ = t₃ := by
    have hall : run (callsAt ctx (mulCalls ins w)) s = some t₃ := by
      show run (_ :: .taintForRegister w.regAx w.ax :: _) s = some t₃
      rw [run_cons, ht₁, Option.bind_some, run_cons]
      show (taintForRegister w.regAx w.ax t₁).bind _ = some t₃
      rw [ht₂]
      exact ht₃
    exact Option.some.inj (hrun.symm.trans hall)
  subst hs₁t₃
  have hmax : marks (s₁.scratch w.ax) = marksAt s (.reg w.regAx) := by
    have h : entryAt s₁ (.scr w.ax) = some b := (hscr _).trans (ha₂.target _ rfl)
    rw [Option.some.inj h, hb, marksAt, hkeep₁ _ (by simp), marksAt]
  have hmsrc : marks (s₁.scratch .src) = operandMarks ctx ins s := by
    have h : entryAt s₁ (.scr .src) = entryAt t₁ (.scr .src) := by
      rw [hscr]
      refine ha₂.frame _ fun h => hax ?_
      exact (Place.scr.inj h).symm
    rw [← hsrc, marksAt, ← h]
    exact (entryMarks_some _).symm
  ext m
  simp [flagsMarks, mulMarks, hctl, hmax, hmsrc]

/-- MUL: readers see what it associates when the operand has the width of the
    build, or when they saw the same before. -/
theorem flagsSeen_MUL_iff {ctx : Ctx ws} {ins : Ins} {w : WideRegs}
    (hw : wideRegs (ins.operandWidth 0) = some w) {s : TaintState ws N} (hs : SizedState s)
    (hmul : dataflow ws ins = instrumentMUL ins) (hc : Completes (instrumentMUL ins)) :
    FlagsSeen ctx ins s ↔ ins.operandWidth 0 = ws.bits
      ∨ marksAt s (.reg (flagsReg ws)) = mulMarks ctx ins w s := by
  have hcalls := calls_MUL hw hc
  rw [← hmul] at hcalls
  by_cases hk : w.regFlags = flagsReg ws
  · rw [hk] at hcalls
    exact iff_of_true (flagsSeen_of_set hs hcalls) (Or.inl ((regFlags_eq_iff hw).mp hk))
  · have hother : flagsReg ws ∉ writtenRegs w.regFlags := by
      rw [writtenRegs_regFlags hw, List.mem_singleton]
      exact fun h => hk h.symm
    obtain ⟨s₁, hrun, hctl, hiff⟩ :=
      flagsSeen_set_other hs hcalls hother (sparesFlags_callsAt ctx (sparesFlags_mulCalls hw))
    rw [hiff, flagsMarks_MUL ctx hw hs hrun hctl]
    exact ⟨Or.inr, fun h => h.resolve_left fun h => hk ((regFlags_eq_iff hw).mpr h)⟩

/-- The calls of DIV and IDIV before the one that clears the flags; the two
    load the registers in opposite orders. -/
def divCalls (ins : Ins) (w : WideRegs) (loads : List Inserted) : List Inserted :=
  ⟨none, operandLoad ins⟩ :: loads
    ++ [⟨none, .setTaintForRegister w.regAx [w.ax, w.dx, .src]⟩,
      ⟨none, .setTaintForRegister w.regDx [w.ax, w.dx, .src]⟩]

/-- The calls of a division spare the flags, in whichever order they load. -/
theorem sparesFlags_divCalls {ins : Ins} {w : WideRegs}
    (hw : wideRegs (ins.operandWidth 0) = some w) (r₁ r₂ : Reg) (x₁ x₂ : Scratch) :
    ∀ i ∈ divCalls ins w [⟨none, .taintForRegister r₁ x₁⟩, ⟨none, .taintForRegister r₂ x₂⟩],
      SparesFlags ws i := by
  obtain ⟨hax, hdx⟩ : flagsReg ws ∉ writtenRegs w.regAx ∧ flagsReg ws ∉ writtenRegs w.regDx :=
    flagsReg_notMem_wide hw
  simp only [divCalls, List.cons_append, List.nil_append, List.forall_mem_cons]
  exact ⟨sparesFlags_operandLoad ins, sparesFlags_load _ _, sparesFlags_load _ _,
    sparesFlags_set hax _, sparesFlags_set hdx _, by simp⟩

/-- DIV and IDIV clear the flags after calls that spare them. -/
theorem calls_DIV {ins : Ins} {w : WideRegs} (hw : wideRegs (ins.operandWidth 0) = some w)
    (hdiv : dataflow ws ins = instrumentDIV ins ∨ dataflow ws ins = instrumentIDIV ins)
    (hc : Completes (dataflow ws ins)) :
    ∃ pre, (dataflow ws ins).calls = pre ++ [⟨none, .clearTaintForRegister w.regFlags⟩]
      ∧ ∀ i ∈ pre, SparesFlags ws i := by
  rcases hdiv with h | h
  · rw [h] at hc ⊢
    rw [instrumentDIV] at hc ⊢
    rw [hw] at hc ⊢
    obtain ⟨a, ha, -⟩ := completes_bind.mp hc
    refine ⟨divCalls ins w [⟨none, .taintForRegister w.regAx w.ax⟩,
      ⟨none, .taintForRegister w.regDx w.dx⟩], ?_, ?_⟩
    · show (taintForOperand ins 0 .src true false >>= _).calls = _
      rw [taintForOperand_eq ⟨a, ha⟩]
      rfl
    · exact sparesFlags_divCalls hw _ _ _ _
  · rw [h] at hc ⊢
    rw [instrumentIDIV] at hc ⊢
    rw [hw] at hc ⊢
    obtain ⟨a, ha, -⟩ := completes_bind.mp hc
    refine ⟨divCalls ins w [⟨none, .taintForRegister w.regDx w.dx⟩,
      ⟨none, .taintForRegister w.regAx w.ax⟩], ?_, ?_⟩
    · show (taintForOperand ins 0 .src true false >>= _).calls = _
      rw [taintForOperand_eq ⟨a, ha⟩]
      rfl
    · exact sparesFlags_divCalls hw _ _ _ _

/-- The handlers that clear the flags. -/
def clearsFlags : IClass → Bool
  | .DIV | .IDIV => true
  | _ => false

/-- When readers see what the handler associates with the flags.  A handler
    that selects the name by operand width needs an operand as wide as the
    build, or flags that carried the right marks already; and a clearing one
    needs a key to clear, or no control taint. -/
def FlagsCondition (ctx : Ctx ws) (ins : Ins) (s : TaintState ws N) : Prop :=
  if selectsByWidth ins then
    match wideRegs (ins.operandWidth 0) with
    | none => True
    | some w =>
        if clearsFlags ins.iclass then
          if ins.operandWidth 0 = ws.bits then
            .reg (flagsReg ws) ∈ present s ∨ controlMarks s = ∅
          else marksAt s (.reg (flagsReg ws)) = controlMarks s
        else ins.operandWidth 0 = ws.bits
          ∨ marksAt s (.reg (flagsReg ws)) = mulMarks ctx ins w s
  else True

/-- A handler that completes has passed its width test. -/
theorem wideRegs_of_completes {ins : Ins} {f : WideRegs → Handler}
    (hc : Completes (match wideRegs (ins.operandWidth 0) with
      | none => abort
      | some w => f w)) : ∃ w, wideRegs (ins.operandWidth 0) = some w := by
  cases h : wideRegs (ins.operandWidth 0) with
  | none =>
      rw [h] at hc
      exact absurd hc not_completes_abort
  | some w => exact ⟨w, rfl⟩

theorem flagsCondition_of_MUL {ctx : Ctx ws} {ins : Ins} {s : TaintState ws N}
    (hs : SizedState s) (hsel : selectsByWidth ins = true)
    (hclear : clearsFlags ins.iclass = false) (hmul : dataflow ws ins = instrumentMUL ins)
    (hc : Completes (dataflow ws ins)) : FlagsSeen ctx ins s ↔ FlagsCondition ctx ins s := by
  rw [hmul] at hc
  obtain ⟨w, hw⟩ := wideRegs_of_completes hc
  rw [flagsSeen_MUL_iff hw hs hmul hc, FlagsCondition, if_pos hsel, hw, hclear]
  rfl

theorem flagsCondition_of_DIV {ctx : Ctx ws} {ins : Ins} {s : TaintState ws N}
    (hs : SizedState s) (hsel : selectsByWidth ins = true)
    (hclear : clearsFlags ins.iclass = true)
    (hdiv : dataflow ws ins = instrumentDIV ins ∨ dataflow ws ins = instrumentIDIV ins)
    (hc : Completes (dataflow ws ins)) : FlagsSeen ctx ins s ↔ FlagsCondition ctx ins s := by
  obtain ⟨w, hw⟩ : ∃ w, wideRegs (ins.operandWidth 0) = some w := by
    rcases hdiv with h | h
    · rw [h] at hc
      exact wideRegs_of_completes hc
    · rw [h] at hc
      exact wideRegs_of_completes hc
  obtain ⟨pre, hcalls, hspare⟩ := calls_DIV hw hdiv hc
  rw [flagsSeen_clear_iff hs hcalls (sparesFlags_callsAt ctx hspare), FlagsCondition,
    if_pos hsel, hw, hclear]
  simp only [regFlags_eq_iff hw, if_true]

/-- **When the flags are one register**: after a flag-writing handler every
    reader sees the marks the handler associates with the flags exactly when
    the name it uses is the one of the build, or the marks were right already. -/
theorem flagsSeen_iff_condition (ctx : Ctx ws) (ins : Ins) {s : TaintState ws N}
    (hs : SizedState s) (hw : writesFlags ins.iclass = true)
    (hc : Completes (dataflow ws ins)) : FlagsSeen ctx ins s ↔ FlagsCondition ctx ins s := by
  cases hsel : selectsByWidth ins with
  | false =>
      obtain ⟨pre, i, hcalls, sets, rfl⟩ := endsWith_dataflow hw hsel hc
      refine iff_of_true (flagsSeen_of_set hs hcalls) ?_
      rw [FlagsCondition, hsel]
      trivial
  | true =>
      have hsel' := hsel
      rw [selectsByWidth] at hsel'
      cases hi : ins.iclass with
      | MUL => exact flagsCondition_of_MUL hs hsel (by rw [hi]; rfl) (by rw [dataflow, hi]; rfl) hc
      | IMUL =>
          rw [hi] at hsel'
          refine flagsCondition_of_MUL hs hsel (by rw [hi]; rfl) ?_ hc
          rw [dataflow, hi]
          exact if_pos (by simpa using hsel')
      | DIV =>
          exact flagsCondition_of_DIV hs hsel (by rw [hi]; rfl) (Or.inl (by rw [dataflow, hi]; rfl)) hc
      | IDIV =>
          exact flagsCondition_of_DIV hs hsel (by rw [hi]; rfl) (Or.inr (by rw [dataflow, hi]; rfl)) hc
      | _ =>
          rw [hi] at hsel'
          exact nomatch hsel'

/-- On a 64-bit build `mul rbx` is seen by every reader. -/
theorem flagsSeen_iff_mul_rbx :
    FlagsSeen (writesAt .w64 0 0) (onRegisters .MUL [(.rbx, 64)]) (flagsTainted .w64 1)
      ↔ FlagsCondition (writesAt .w64 0 0) (onRegisters .MUL [(.rbx, 64)])
        (flagsTainted .w64 1) :=
  flagsSeen_iff_condition _ _ (flagsTainted_sized .w64 Nat.one_pos) rfl ⟨(), rfl⟩

/-- On a 64-bit build `mul ebx` associates no marks with the flags, and readers
    still see the mark that was there. -/
theorem mul_ebx_unseen :
    ∃ s : TaintState .w64 1, SizedState s
      ∧ Completes (dataflow .w64 (onRegisters .MUL [(.ebx, 32)]))
      ∧ ¬ FlagsSeen (writesAt .w64 0 0) (onRegisters .MUL [(.ebx, 32)]) s := by
  have hs : SizedState (flagsTainted .w64 1) := flagsTainted_sized .w64 Nat.one_pos
  refine ⟨flagsTainted .w64 1, hs, ⟨(), rfl⟩, fun h => ?_⟩
  have hwide : wideRegs ((onRegisters .MUL [(.ebx, 32)]).operandWidth 0)
      = some ⟨.eax, .edx, .eflags, .eax, .edx⟩ := rfl
  rcases (flagsSeen_MUL_iff hwide hs rfl ⟨(), rfl⟩).mp h with hwidth | hmarks
  · exact absurd hwidth (by decide)
  · have hflags : 0 ∈ marksAt (flagsTainted .w64 1) (.reg (flagsReg .w64)) :=
      ⟨_, rfl, by decide, by decide⟩
    rw [hmarks] at hflags
    rcases hflags with (⟨b, hb, -⟩ | ⟨b, hb, -⟩) | hctl
    · exact nomatch hb
    · exact nomatch hb
    · obtain ⟨a, b, hb, -⟩ := mem_controlMarks.mp hctl
      simp [flagsTainted, TaintState.init] at hb

end DytanFlags
