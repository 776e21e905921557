import Mathlib.Data.BitVec
import Dytan.SourceOperandProofs

/-! # CMPXCHG and its outcome

    CMPXCHG stores its source register when the accumulator equals the
    destination, and loads the destination into the accumulator otherwise.
    The tool inserts two assignments under checks.  The second check is meant
    to be the opposite of the first; for a register it is, but
    `CheckNotEqual_m_r` has the body of `CheckEqual_m_r`.  The second
    assignment gives the accumulator the marks of the source register, not
    those of the destination that were loaded, and the memory checks compare a
    whole `ADDRINT` whatever the size of the operand. -/

namespace DytanCompareExchange

open DytanBitset DytanRegister DytanTaintState DytanMarkFlow DytanInstruction DytanHandler
open DytanReadOverWrite DytanOperandFlow DytanSourceOperand Emission Overwrite LoadAssign

variable {ws : WordSize} {N : Nat}

/-- A CMPXCHG of 4 or 8 bytes, as the decoder and the framework present it:
    different registers of the width of the operand, or memory and two
    registers; register values fit the width; memory is written where it is
    read, and does not reach the end of the address space. -/
structure Operands (ctx : Ctx ws) (ins : Ins) : Prop where
  iclass : ins.iclass = .CMPXCHG
  size : ins.operandWidth 0 = 32 ∨ ins.operandWidth 0 = 64
  destination : ins.operandIsReg 0 = true ∨ ins.operandIsMemory 0 = true
  registers : ins.operandIsReg 1 = true ∧ ins.operandIsReg 2 = true
  sameWidth : ins.operandIsReg 0 = true → width (ins.operandReg 0) = width (ins.operandReg 2)
  distinct : ins.operandReg 1 ≠ ins.operandReg 2 ∧ (ins.operandIsReg 0 = true →
    ins.operandReg 0 ≠ ins.operandReg 1 ∧ ins.operandReg 0 ≠ ins.operandReg 2)
  notStack : isStackReg (ins.operandReg 2) = false
    ∧ (ins.operandIsReg 0 = true → isStackReg (ins.operandReg 0) = false)
  values : ∀ n, ins.operandIsReg n = true →
    (ctx.regValue (ins.operandReg n)).toNat < 2 ^ ins.operandWidth 0
  memory : ins.operandIsMemory 0 = true → ins.isMemoryRead = true ∧ ins.isMemoryWrite = true
    ∧ ctx.memoryReadSize.toNat = ins.operandWidth 0 / 8
    ∧ ctx.memoryWriteEA = ctx.memoryReadEA ∧ ctx.memoryWriteSize = ctx.memoryReadSize
    ∧ NoWrapRange ctx.memoryReadEA ctx.memoryReadSize

/-- The `ADDRINT` at the destination: its value, and for memory what follows
    it. -/
def destinationWord (ctx : Ctx ws) (ins : Ins) : Addr ws :=
  if ins.operandIsReg 0 then ctx.regValue (ins.operandReg 0) else ctx.memory ctx.memoryReadEA

/-- The accumulator equals the destination over the size of the operand. -/
def SameValue (ctx : Ctx ws) (ins : Ins) : Prop :=
  (destinationWord ctx ins).toNat % 2 ^ ins.operandWidth 0
    = (ctx.regValue (ins.operandReg 2)).toNat

/-- The destination's marks are `M`. -/
def DestinationHas (ctx : Ctx ws) (ins : Ins) (s : TaintState ws N) (M : Place ws → Set Nat) :
    Prop :=
  (ins.operandIsReg 0 = true →
      marksAt s (.reg (ins.operandReg 0)) = M (.reg (ins.operandReg 0)))
    ∧ (ins.operandIsMemory 0 = true → ∀ a, InRange ctx.memoryReadEA ctx.memoryReadSize a →
      marksAt s (.mem a) = M (.mem a))

/-- The marks follow the outcome. -/
def Follows (ctx : Ctx ws) (ins : Ins) (s : TaintState ws N) : Prop :=
  ∃ s', run (callsAt ctx (dataflow ws ins).calls) s = some s'
    ∧ (SameValue ctx ins →
      DestinationHas ctx ins s' (fun _ => marksAt s (.reg (ins.operandReg 1)))
        ∧ marksAt s' (.reg (ins.operandReg 2)) = marksAt s (.reg (ins.operandReg 2)))
    ∧ (¬ SameValue ctx ins →
      marksAt s' (.reg (ins.operandReg 2)) = operandMarks ctx ins 0 s
        ∧ DestinationHas ctx ins s' (marksAt s))

/-- What is assigned by mistake, or not assigned, has the right marks. -/
def Harmless (ctx : Ctx ws) (ins : Ins) (s : TaintState ws N) : Prop :=
  if ins.operandIsReg 0 then
    SameValue ctx ins
      ∨ marksAt s (.reg (ins.operandReg 1)) = marksAt s (.reg (ins.operandReg 0))
  else if destinationWord ctx ins = ctx.regValue (ins.operandReg 2) then
    marksAt s (.reg (ins.operandReg 1)) = marksAt s (.reg (ins.operandReg 2))
  else
    (SameValue ctx ins → ∀ a, InRange ctx.memoryReadEA ctx.memoryReadSize a →
      marksAt s (.mem a) = marksAt s (.reg (ins.operandReg 1)))
    ∧ (¬ SameValue ctx ins →
      marksAt s (.reg (ins.operandReg 2)) = operandMarks ctx ins 0 s)

/-! ## The calls that run -/

section Calls

variable {ctx : Ctx ws} {ins : Ins}

/-- The check of the first assignment. -/
def equalCheck (ins : Ins) : Check :=
  if ins.operandIsReg 0 then .equal_r_r (ins.operandReg 0) (ins.operandReg 2)
  else .equal_m_r (ins.operandReg 2)

/-- The check of the second assignment. -/
def notEqualCheck (ins : Ins) : Check :=
  if ins.operandIsReg 0 then .notEqual_r_r (ins.operandReg 0) (ins.operandReg 2)
  else .notEqual_m_r (ins.operandReg 2)

/-- The first phase. -/
def exchangeLoadCalls (ins : Ins) : List Analysis :=
  [loadOf ins 0 .dest, .taintForRegister (ins.operandReg 1) .src,
    .taintForRegister (ins.operandReg 2) .eax]

/-- The assignment to the accumulator. -/
def accumulatorCall (ins : Ins) : Analysis := .setTaintForRegister (ins.operandReg 2) [.src]

/-- The calls of CMPXCHG. -/
theorem calls_CMPXCHG (ho : Operands ctx ins) :
    (dataflow ws ins).calls = unchecked (exchangeLoadCalls ins)
      ++ [⟨some (equalCheck ins), assignOf ins 0 [.src]⟩,
        ⟨some (notEqualCheck ins), accumulatorCall ins⟩] := by
  have hsize : (ins.operandWidth 0 = 32 || ins.operandWidth 0 = 64) = true := by
    simpa using ho.size
  have hops : dataflow ws ins = instrumentCMPXCHG ins := by
    rw [dataflow, ho.iclass]
    rfl
  rw [hops, instrumentCMPXCHG, cmpxchgLoads, if_pos hsize, cmpxchgAssigns, exchangeLoadCalls,
    loadOf, assignOf, equalCheck, notEqualCheck, taintForOperand]
  by_cases hreg : ins.operandIsReg 0 = true
  · simp only [if_pos hreg]
    rfl
  · have hmem := ho.destination.resolve_left hreg
    simp only [if_neg hreg, hmem, Bool.and_self, if_true, requireMemoryRead, (ho.memory hmem).1]
    rfl

/-- The second check passes on the first one's result for memory, and on the
    opposite for a register. -/
def accumulatorAssigned (ctx : Ctx ws) (ins : Ins) : Bool :=
  if ins.operandIsReg 0 then destinationWord ctx ins ≠ ctx.regValue (ins.operandReg 2)
  else destinationWord ctx ins = ctx.regValue (ins.operandReg 2)

theorem passes_equalCheck (ctx : Ctx ws) (ins : Ins) :
    ctx.passes (equalCheck ins)
      = decide (destinationWord ctx ins = ctx.regValue (ins.operandReg 2)) := by
  rw [equalCheck, destinationWord]
  by_cases hreg : ins.operandIsReg 0 = true
  · rw [if_pos hreg, if_pos hreg]
    rfl
  · rw [if_neg hreg, if_neg hreg]
    rfl

theorem passes_notEqualCheck (ctx : Ctx ws) (ins : Ins) :
    ctx.passes (notEqualCheck ins) = accumulatorAssigned ctx ins := by
  rw [notEqualCheck, accumulatorAssigned, destinationWord]
  by_cases hreg : ins.operandIsReg 0 = true
  · rw [if_pos hreg, if_pos hreg, if_pos hreg]
    rfl
  · rw [if_neg hreg, if_neg hreg, if_neg hreg]
    rfl

/-- The second phase: the assignments that are made. -/
def exchangeAssignCalls (ctx : Ctx ws) (ins : Ins) : List Analysis :=
  guarded (decide (destinationWord ctx ins = ctx.regValue (ins.operandReg 2)))
      (assignOf ins 0 [.src])
    ++ guarded (accumulatorAssigned ctx ins) (accumulatorCall ins)

/-- A call under a check runs when the check passes. -/
theorem callsAt_checked (ctx : Ctx ws) (k : Check) (a : Analysis) (rest : List Inserted) :
    callsAt ctx (⟨some k, a⟩ :: rest)
      = guarded (ctx.passes k) (ctx.resolve a) ++ callsAt ctx rest := by
  have hfires : ctx.fires ⟨some k, a⟩ = ctx.passes k := rfl
  rw [callsAt, List.filter_cons, hfires]
  cases ctx.passes k with
  | true => rfl
  | false => rfl

/-- The calls that run. -/
theorem callsAt_CMPXCHG (ho : Operands ctx ins) :
    callsAt ctx (dataflow ws ins).calls
      = callsAt ctx (unchecked (exchangeLoadCalls ins ++ exchangeAssignCalls ctx ins)) := by
  rw [calls_CMPXCHG ho, callsAt_append, callsAt_checked, callsAt_checked, callsAt_unchecked,
    callsAt_unchecked, exchangeAssignCalls, passes_equalCheck, passes_notEqualCheck,
    List.map_append, List.map_append, map_guarded, map_guarded]
  rw [show callsAt ctx [] = [] from rfl, List.append_nil]

end Calls

/-! ## The marks after them -/

section Marks

variable {ctx : Ctx ws} {ins : Ins}

/-- The loads of CMPXCHG. -/
def exchangeLoads (ctx : Ctx ws) (ins : Ins) : List (Place ws × Set (Place ws)) :=
  onScratch [(.dest, loadedPlaces ctx ins 0), (.src, {.reg (ins.operandReg 1)}),
    (.eax, {.reg (ins.operandReg 2)})]

theorem exchangeLoads_into (ctx : Ctx ws) (ins : Ins) : LoadsInto buffers (exchangeLoads ctx ins) := by
  refine loadsInto_scratch (by simp) fun l hl => ?_
  have hreg : ∀ r : Reg, ∀ p ∈ ({.reg r} : Set (Place ws)), p ∉ buffers := by
    rintro r p rfl
    exact reg_notMem_buffers r
  rcases List.mem_cons.mp hl with rfl | hl
  · exact loadedPlaces_notMem_buffers ctx ins 0
  · rcases List.mem_cons.mp hl with rfl | hl
    · exact hreg _
    · rw [List.mem_singleton.mp hl]
      exact hreg _

theorem effect_exchangeLoadCalls (ctx : Ctx ws) (ins : Ins) :
    (exchangeLoadCalls ins).map (effect ctx)
      = (exchangeLoads ctx ins).map fun l => ({l.1}, l.2) := by
  rw [exchangeLoadCalls, List.map_cons, effect_loadOf]
  rfl

/-- No call of CMPXCHG clears. -/
theorem isTransfer_exchange (ctx : Ctx ws) (ins : Ins) :
    ∀ c ∈ exchangeLoadCalls ins ++ exchangeAssignCalls ctx ins,
      isTransfer (ctx.resolve c) = true := by
  intro c hc
  rcases List.mem_append.mp hc with hc | hc
  · rcases List.mem_cons.mp hc with rfl | hc
    · exact (resolve_loadOf ctx ins 0 .dest).1
    · rcases List.mem_cons.mp hc with rfl | hc
      · rfl
      · rw [List.mem_singleton.mp hc]
        rfl
  · rcases List.mem_append.mp hc with hc | hc
    · rw [eq_of_mem_guarded hc]
      exact (resolve_assignOf ctx ins 0 _).1
    · rw [eq_of_mem_guarded hc]
      rfl

/-- No register of the operand's width is written with the accumulator. -/
theorem destination_notMem (ho : Operands ctx ins) (hreg : ins.operandIsReg 0 = true) :
    Place.reg (ins.operandReg 0) ∉ (regPlaces (ins.operandReg 2) : Set (Place ws)) := by
  rw [reg_mem_regPlaces ho.notStack.1]
  rintro (heq | hsub)
  · exact (ho.distinct.2 hreg).2 heq
  · exact width_ne_of_mem_subRegisters hsub (ho.sameWidth hreg)

theorem accumulator_notMem (ho : Operands ctx ins) :
    Place.reg (ins.operandReg 2) ∉ assignedPlaces ctx ins 0 := by
  rw [assignedPlaces]
  by_cases hreg : ins.operandIsReg 0 = true
  · rw [if_pos hreg, reg_mem_regPlaces (ho.notStack.2 hreg)]
    rintro (heq | hsub)
    · exact (ho.distinct.2 hreg).2 heq.symm
    · exact width_ne_of_mem_subRegisters hsub (ho.sameWidth hreg).symm
  · rw [if_neg hreg]
    rintro ⟨a, -, h⟩
    cases h

/-- The marks after the calls of CMPXCHG, when there is no control taint. -/
theorem run_CMPXCHG {s : TaintState ws N} (hs : SizedState s) (ho : Operands ctx ins)
    (hcontrol : controlMarks s = ∅) :
    ∃ s', run (callsAt ctx (dataflow ws ins).calls) s = some s'
      ∧ DestinationHas ctx ins s' (fun p =>
          if destinationWord ctx ins = ctx.regValue (ins.operandReg 2)
          then marksAt s (.reg (ins.operandReg 1)) else marksAt s p)
      ∧ marksAt s' (.reg (ins.operandReg 2))
        = if accumulatorAssigned ctx ins then marksAt s (.reg (ins.operandReg 1))
          else marksAt s (.reg (ins.operandReg 2)) := by
  obtain ⟨s', hrun, -, hm⟩ := run_effects hs ctx (effect_exchangeLoadCalls ctx ins)
    (isTransfer_exchange ctx ins)
  rw [← callsAt_CMPXCHG ho] at hrun
  rw [exchangeAssignCalls, List.map_append, map_guarded, map_guarded, effect_assignOf,
    accumulatorCall, effect_setTaintForRegister] at hm
  have hsrc : gathered (sources [.src]) (load (exchangeLoads ctx ins) (marksAt s))
      = marksAt s (.reg (ins.operandReg 1)) := by
    rw [gathered_buffer (exchangeLoads_into ctx ins) (List.mem_cons_of_mem _ List.mem_cons_self),
      gathered_singleton, hcontrol, Set.union_empty]
  have hkept : ∀ p : Place ws, p ∉ buffers →
      load (exchangeLoads ctx ins) (marksAt s) p = marksAt s p := fun p hp =>
    load_of_notMem (fun l hl h => hp (by rw [← h]; exact (exchangeLoads_into ctx ins).buffers l hl)) _
  have hdest : ∀ p ∈ assignedPlaces ctx ins 0, p ∉ regPlaces (ins.operandReg 2) → p ∉ buffers →
      marksAt s' p = if destinationWord ctx ins = ctx.regValue (ins.operandReg 2)
        then marksAt s (.reg (ins.operandReg 1)) else marksAt s p := by
    intro p hp hacc hbuf
    rw [hm, assign_guarded_left _ _ _ _ hp hacc, hsrc, hkept p hbuf]
    simp only [decide_eq_true_eq]
  refine ⟨s', hrun, ⟨fun hreg => ?_, fun hmem a ha => ?_⟩, ?_⟩
  · refine hdest _ ?_ (destination_notMem ho hreg) (reg_notMem_buffers _)
    rw [assignedPlaces, if_pos hreg]
    exact (reg_mem_regPlaces (ho.notStack.2 hreg)).mpr (.inl rfl)
  · refine hdest _ ?_ (mem_notMem_regPlaces a _) (mem_notMem_buffers a)
    obtain ⟨-, -, -, hea, hsize, hwrap⟩ := ho.memory hmem
    rw [assignedPlaces, if_neg (operandIsReg_of_memory hmem), hea, hsize, mem_rangePlaces,
      mem_addrRange_of_lt hwrap]
    exact ha
  · rw [hm, assign_guarded_right _ _ _ _ (accumulator_notMem ho)
      ((reg_mem_regPlaces ho.notStack.1).mpr (.inl rfl))
      (sources_notMem_assignedPlaces _ ctx ins 0), hsrc, hkept _ (reg_notMem_buffers _)]

end Marks

/-! ## When the marks follow the outcome -/

section Outcome

variable {ctx : Ctx ws} {ins : Ins}

/-- Equal words are equal over the size of the operand. -/
theorem sameValue_of_eq (ho : Operands ctx ins)
    (h : destinationWord ctx ins = ctx.regValue (ins.operandReg 2)) : SameValue ctx ins := by
  rw [SameValue, h]
  exact Nat.mod_eq_of_lt (ho.values 2 ho.registers.2)

/-- A register has no bits beyond the operand. -/
theorem sameValue_iff (ho : Operands ctx ins) (hreg : ins.operandIsReg 0 = true) :
    SameValue ctx ins ↔ destinationWord ctx ins = ctx.regValue (ins.operandReg 2) := by
  refine ⟨fun h => ?_, sameValue_of_eq ho⟩
  have hword : (destinationWord ctx ins).toNat < 2 ^ ins.operandWidth 0 := by
    rw [destinationWord, if_pos hreg]
    exact ho.values 0 hreg
  rw [SameValue, Nat.mod_eq_of_lt hword] at h
  exact BitVec.eq_of_toNat_eq h

theorem follows_iff_of_run {s s' : TaintState ws N}
    (hrun : run (callsAt ctx (dataflow ws ins).calls) s = some s') : Follows ctx ins s ↔
      (SameValue ctx ins →
        DestinationHas ctx ins s' (fun _ => marksAt s (.reg (ins.operandReg 1)))
          ∧ marksAt s' (.reg (ins.operandReg 2)) = marksAt s (.reg (ins.operandReg 2)))
      ∧ (¬ SameValue ctx ins →
        marksAt s' (.reg (ins.operandReg 2)) = operandMarks ctx ins 0 s
          ∧ DestinationHas ctx ins s' (marksAt s)) := by
  constructor
  · rintro ⟨t, ht, h⟩
    cases hrun.symm.trans ht
    exact h
  · exact fun h => ⟨s', hrun, h⟩

/-- A register destination: only the marks of an unequal accumulator go
    wrong. -/
theorem follows_register_iff {s : TaintState ws N} (hs : SizedState s) (ho : Operands ctx ins)
    (hcontrol : controlMarks s = ∅) (hreg : ins.operandIsReg 0 = true) :
    Follows ctx ins s ↔ SameValue ctx ins
      ∨ marksAt s (.reg (ins.operandReg 1)) = marksAt s (.reg (ins.operandReg 0)) := by
  obtain ⟨s', hrun, hdest, hacc⟩ := run_CMPXCHG hs ho hcontrol
  have hiff := sameValue_iff ho hreg
  rw [follows_iff_of_run hrun]
  rw [accumulatorAssigned, if_pos hreg] at hacc
  by_cases hsame : SameValue ctx ins
  · have heq := hiff.mp hsame
    simp only [heq, ne_eq, not_true_eq_false, decide_false, Bool.false_eq_true, if_false,
      if_true] at hacc hdest
    exact iff_of_true ⟨fun _ => ⟨hdest, hacc⟩, fun h => absurd hsame h⟩ (.inl hsame)
  · have hne : ¬ destinationWord ctx ins = ctx.regValue (ins.operandReg 2) :=
      fun heq => hsame (hiff.mpr heq)
    simp only [hne, ne_eq, not_false_eq_true, decide_true, if_true, if_false] at hacc hdest
    rw [hacc, operandMarks_reg hreg]
    exact ⟨fun h => .inr (h.2 hsame).1,
      fun h => ⟨fun h' => absurd h' hsame, fun _ => ⟨h.resolve_left hsame, hdest⟩⟩⟩

/-- A memory destination: both assignments are made when the whole words are
    equal, and neither otherwise. -/
theorem follows_memory_iff {s : TaintState ws N} (hs : SizedState s) (ho : Operands ctx ins)
    (hcontrol : controlMarks s = ∅) (hmem : ins.operandIsMemory 0 = true) :
    Follows ctx ins s ↔ if destinationWord ctx ins = ctx.regValue (ins.operandReg 2) then
        marksAt s (.reg (ins.operandReg 1)) = marksAt s (.reg (ins.operandReg 2))
      else
        (SameValue ctx ins → ∀ a, InRange ctx.memoryReadEA ctx.memoryReadSize a →
          marksAt s (.mem a) = marksAt s (.reg (ins.operandReg 1)))
        ∧ (¬ SameValue ctx ins →
          marksAt s (.reg (ins.operandReg 2)) = operandMarks ctx ins 0 s) := by
  obtain ⟨s', hrun, hdest, hacc⟩ := run_CMPXCHG hs ho hcontrol
  have hreg := operandIsReg_of_memory hmem
  rw [follows_iff_of_run hrun]
  rw [accumulatorAssigned, if_neg hreg] at hacc
  by_cases heq : destinationWord ctx ins = ctx.regValue (ins.operandReg 2)
  · have hsame := sameValue_of_eq ho heq
    simp only [heq, decide_true, if_true] at hacc hdest
    rw [if_pos heq, hacc]
    exact ⟨fun h => (h.1 hsame).2, fun h => ⟨fun _ => ⟨hdest, h⟩, fun h' => absurd hsame h'⟩⟩
  · simp only [heq, decide_false, Bool.false_eq_true, if_false] at hacc hdest
    rw [if_neg heq, hacc]
    constructor
    · intro h
      refine ⟨fun hsame a ha => ?_, fun hsame => (h.2 hsame).1⟩
      exact (hdest.2 hmem a ha).symm.trans ((h.1 hsame).1.2 hmem a ha)
    · intro h
      refine ⟨fun hsame => ⟨⟨fun h' => absurd h' hreg, fun _ a ha => ?_⟩, rfl⟩,
        fun hsame => ⟨h.2 hsame, hdest⟩⟩
      rw [hdest.2 hmem a ha]
      exact h.1 hsame a ha

/-- **The marks follow the outcome of CMPXCHG** exactly when what is assigned
    by mistake, or not assigned, has the right marks. -/
theorem follows_iff_harmless {s : TaintState ws N} (hs : SizedState s) (ho : Operands ctx ins)
    (hcontrol : controlMarks s = ∅) : Follows ctx ins s ↔ Harmless ctx ins s := by
  rw [Harmless]
  by_cases hreg : ins.operandIsReg 0 = true
  · rw [if_pos hreg]
    exact follows_register_iff hs ho hcontrol hreg
  · rw [if_neg hreg]
    exact follows_memory_iff hs ho hcontrol (ho.destination.resolve_left hreg)

/-- `cmpxchg ecx, ebx`, with the accumulator EAX. -/
def cmpxchgEcxEbx : Ins := onRegisters .CMPXCHG [(.ecx, 32), (.ebx, 32), (.eax, 32)]

/-- `cmpxchg dword ptr [rdx], ebx`, with the accumulator EAX. -/
def cmpxchgRdxEbx : Ins where
  iclass := .CMPXCHG
  operands := [⟨.memory .rdx .invalid, 32, false⟩, ⟨.reg .ebx, 32, false⟩, ⟨.reg .eax, 32, true⟩]
  isMemoryRead := true
  isMemoryWrite := true
  hasRealRep := false
  repPrefix := false
  repnePrefix := false

/-- ECX holds 1 and the other registers 0; the ADDRINT at 16 is `word`. -/
def exchangeAt (word : Addr .w64) : Ctx .w64 where
  memoryReadEA := 16
  memoryRead2EA := 0
  memoryReadSize := 4
  memoryWriteEA := 16
  memoryWriteSize := 4
  regValue := fun r => if r = .ecx then 1 else 0
  memory := fun _ => word

theorem cmpxchgEcxEbx_operands (word : Addr .w64) : Operands (exchangeAt word) cmpxchgEcxEbx where
  iclass := rfl
  size := .inl rfl
  destination := .inl rfl
  registers := ⟨rfl, rfl⟩
  sameWidth := fun _ => rfl
  distinct := ⟨by decide, fun _ => ⟨by decide, by decide⟩⟩
  notStack := ⟨rfl, fun _ => rfl⟩
  values := by
    intro n _
    show (if cmpxchgEcxEbx.operandReg n = .ecx then (1 : Addr .w64) else 0).toNat < 2 ^ 32
    by_cases h : cmpxchgEcxEbx.operandReg n = .ecx
    · rw [if_pos h]
      decide
    · rw [if_neg h]
      decide
  memory := nofun

theorem cmpxchgRdxEbx_operands (word : Addr .w64) : Operands (exchangeAt word) cmpxchgRdxEbx where
  iclass := rfl
  size := .inl rfl
  destination := .inr rfl
  registers := ⟨rfl, rfl⟩
  sameWidth := nofun
  distinct := ⟨by decide, nofun⟩
  notStack := ⟨rfl, nofun⟩
  values := by
    intro n _
    show (if cmpxchgRdxEbx.operandReg n = .ecx then (1 : Addr .w64) else 0).toNat < 2 ^ 32
    by_cases h : cmpxchgRdxEbx.operandReg n = .ecx
    · rw [if_pos h]
      decide
    · rw [if_neg h]
      decide
  memory := fun _ => ⟨rfl, rfl, rfl, rfl, rfl, by
    show (16 : Addr .w64).toNat + (4 : Addr .w64).toNat < 2 ^ 64
    decide⟩

/-- `cmpxchg ecx, ebx` when ECX is not equal to EAX. -/
theorem follows_iff_harmless_unequal :
    Follows (exchangeAt 0) cmpxchgEcxEbx (registerTainted .w64 1 .ecx)
      ↔ Harmless (exchangeAt 0) cmpxchgEcxEbx (registerTainted .w64 1 .ecx) :=
  follows_iff_harmless (registerTainted_sized .w64 Nat.one_pos .ecx) (cmpxchgEcxEbx_operands 0)
    (controlMarks_registerTainted .ecx)

/-- With marks on EBX only: `cmpxchg ecx, ebx` with different values gives EAX
    the marks of EBX; the memory form gives them to EAX when the values are
    equal, and gives them to nothing when the values are equal and the four
    bytes after them are not zero. -/
theorem outcome_not_followed :
    ¬ Follows (exchangeAt 0) cmpxchgEcxEbx (registerTainted .w64 1 .ebx)
      ∧ (SameValue (exchangeAt 0) cmpxchgRdxEbx
        ∧ ¬ Follows (exchangeAt 0) cmpxchgRdxEbx (registerTainted .w64 1 .ebx))
      ∧ (SameValue (exchangeAt (2 ^ 32)) cmpxchgRdxEbx
        ∧ ¬ Follows (exchangeAt (2 ^ 32)) cmpxchgRdxEbx (registerTainted .w64 1 .ebx)) := by
  have hs : SizedState (registerTainted .w64 1 .ebx) :=
    registerTainted_sized .w64 Nat.one_pos .ebx
  have hcontrol := controlMarks_registerTainted .ebx
  have hzero := zero_mem_registerTainted .ebx
  refine ⟨fun h => ?_, ⟨rfl, fun h => ?_⟩, ⟨rfl, fun h => ?_⟩⟩
  · rcases (follows_register_iff hs (cmpxchgEcxEbx_operands 0) hcontrol rfl).mp h with hsame | heq
    · exact absurd hsame (by unfold SameValue; decide)
    · have hdest : marksAt (registerTainted .w64 1 .ebx) (.reg .ecx) = ∅ :=
        marksAt_registerTainted_of_ne (by decide)
      exact Set.notMem_empty 0 (hdest ▸ heq ▸ hzero)
  · have heq := (follows_memory_iff hs (cmpxchgRdxEbx_operands 0) hcontrol rfl).mp h
    rw [if_pos (by decide)] at heq
    have hacc : marksAt (registerTainted .w64 1 .ebx) (.reg .eax) = ∅ :=
      marksAt_registerTainted_of_ne (by decide)
    exact Set.notMem_empty 0 (hacc ▸ heq ▸ hzero)
  · have heq := (follows_memory_iff hs (cmpxchgRdxEbx_operands (2 ^ 32)) hcontrol rfl).mp h
    rw [if_neg (by decide)] at heq
    have hbyte : marksAt (registerTainted .w64 1 .ebx) (.mem 16) = ∅ :=
      marksAt_of_absent fun ⟨b, hb⟩ => by simp [entryAt, registerTainted, TaintState.init] at hb
    exact Set.notMem_empty 0 (hbyte ▸ (heq.1 rfl 16 ⟨by decide, by decide⟩).symm ▸ hzero)

end Outcome

end DytanCompareExchange
