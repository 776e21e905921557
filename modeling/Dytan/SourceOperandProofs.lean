import Dytan.OperandFlowProofs

/-! # Source operands of IMUL, SHLD and SHRD

    Three handlers choose their operands by number in several branches.  For a
    register in operand 1, `Instrument_IMUL` loads operand 0 once more, and so
    does `Instrument_SHLD` for a register in operand 2.  The marks of the
    register that is passed over reach the destination only if they are among
    those the handler does load, or in the control taint. -/

namespace DytanSourceOperand

open DytanBitset DytanRegister DytanTaintState DytanMarkFlow DytanInstruction DytanHandler
open DytanReadOverWrite DytanOperandFlow Emission Overwrite LoadAssign

variable {ws : WordSize} {N : Nat}

/-- The operands whose marks the result has to include. -/
def sourceOperands : IClass → List Nat
  | .IMUL => [1]
  | .SHLD | .SHRD => [0, 1, 2]
  | _ => []

/-- The old marks of these operands. -/
def sourceMarks (ctx : Ctx ws) (ins : Ins) (s : TaintState ws N) : Set Nat :=
  {m | ∃ n ∈ sourceOperands ins.iclass, m ∈ operandMarks ctx ins n s}

/-- After the inserted calls the flags and the destination carry the marks of
    every source operand. -/
def KeepsSources (ctx : Ctx ws) (ins : Ins) (s : TaintState ws N) : Prop :=
  ∃ s', run (callsAt ctx (dataflow ws ins).calls) s = some s'
    ∧ sourceMarks ctx ins s ⊆ marksAt s' (.reg (flagsReg ws))
    ∧ (ins.operandIsReg 0 = true → isStackReg (ins.operandReg 0) = false →
      sourceMarks ctx ins s ⊆ marksAt s' (.reg (ins.operandReg 0)))
    ∧ (ins.operandIsMemory 0 = true → ∀ a, InRange ctx.memoryReadEA ctx.memoryReadSize a →
      sourceMarks ctx ins s ⊆ marksAt s' (.mem a))

/-- IMUL with two or three explicit operands, SHLD or SHRD, as the decoder
    presents them; a memory operand does not reach the end of the address
    space. -/
structure Shape (ctx : Ctx ws) (ins : Ins) : Prop where
  handled : (ins.iclass = .IMUL ∧ (ins.operandCount = 2 ∨ ins.operandCount = 3)
      ∧ ins.operandIsReg 0 = true)
    ∨ ((ins.iclass = .SHLD ∨ ins.iclass = .SHRD) ∧ ins.operandIsReg 1 = true)
  sameBytes : ins.operandIsMemory 0 = true →
    ctx.memoryWriteEA = ctx.memoryReadEA ∧ ctx.memoryWriteSize = ctx.memoryReadSize
  noWrap : ∀ n < 2, ins.operandIsMemory n = true →
    NoWrapRange ctx.memoryReadEA ctx.memoryReadSize

/-- The marks of the register that is passed over are loaded anyway. -/
def Covered (ctx : Ctx ws) (ins : Ins) (s : TaintState ws N) : Prop :=
  match ins.iclass with
  | .IMUL => ins.operandIsReg 1 = true →
      marksAt s (.reg (ins.operandReg 1)) ⊆ marksAt s (.reg (ins.operandReg 0)) ∪ controlMarks s
  | _ => ins.operandIsReg 2 = true →
      marksAt s (.reg (ins.operandReg 2)) ⊆ operandMarks ctx ins 0 s ∪ operandMarks ctx ins 1 s
        ∪ marksAt s (.reg (ins.operandReg 0)) ∪ controlMarks s

theorem operandMarks_reg {ctx : Ctx ws} {ins : Ins} {n : Nat} (hreg : ins.operandIsReg n = true)
    (s : TaintState ws N) : operandMarks ctx ins n s = marksAt s (.reg (ins.operandReg n)) := by
  rw [operandMarks, Ins.operandIsReg_iff.mp hreg]

/-! ## One union for the destination and the flags -/

/-- Loads as loads of places. -/
def onScratch (ls : List (Scratch × Set (Place ws))) : List (Place ws × Set (Place ws)) :=
  ls.map fun l => (.scr l.1, l.2)

@[simp] theorem onScratch_cons (l : Scratch × Set (Place ws))
    (ls : List (Scratch × Set (Place ws))) :
    onScratch (l :: ls) = (.scr l.1, l.2) :: onScratch ls := rfl

@[simp] theorem onScratch_nil : onScratch ([] : List (Scratch × Set (Place ws))) = [] := rfl

theorem map_fst_onScratch (ls : List (Scratch × Set (Place ws))) :
    (onScratch ls).map Prod.fst = (ls.map Prod.fst).map Place.scr := by
  rw [onScratch, List.map_map, List.map_map]
  rfl

/-- Loads of different scratch sets from registers and bytes. -/
theorem loadsInto_scratch {ls : List (Scratch × Set (Place ws))} (hd : (ls.map Prod.fst).Nodup)
    (hsources : ∀ l ∈ ls, ∀ p ∈ l.2, p ∉ buffers) : LoadsInto buffers (onScratch ls) where
  buffers := by
    intro l hl
    obtain ⟨l', -, rfl⟩ := List.mem_map.mp hl
    exact ⟨l'.1, rfl⟩
  sources := by
    intro l hl
    obtain ⟨l', hl', rfl⟩ := List.mem_map.mp hl
    exact hsources l' hl'
  distinct := by
    rw [map_fst_onScratch]
    exact hd.map fun x y h => Place.scr.inj h

/-- All that is loaded is assigned to the targets of `c` and to the flags. -/
theorem run_joined {s : TaintState ws N} (hs : SizedState s) (ctx : Ctx ws)
    (loadCs : List Analysis) (c : Analysis) (sets : List Scratch)
    {ls : List (Scratch × Set (Place ws))} {T : Set (Place ws)}
    (hl : loadCs.map (effect ctx) = (onScratch ls).map fun l => ({l.1}, l.2))
    (hinto : LoadsInto buffers (onScratch ls)) (hsets : ∀ x, x ∈ ls.map Prod.fst ↔ x ∈ sets)
    (hc : effect ctx c = (T, sources sets)) (hT : ∀ q ∈ sources sets, q ∉ T)
    (ht : ∀ d ∈ loadCs ++ [c], isTransfer (ctx.resolve d) = true) :
    ∃ s', run (callsAt ctx (unchecked
        (loadCs ++ [c, .setTaintForRegister (flagsReg ws) sets]))) s = some s'
      ∧ ∀ p, p ∈ T ∨ p = .reg (flagsReg ws) →
          marksAt s' p
            = {m | ∃ l ∈ onScratch ls, m ∈ gathered l.2 (marksAt s)} ∪ controlMarks s := by
  have hplaces : ∀ p, p ∈ (onScratch ls).map Prod.fst
      ↔ p ∈ sets.map (Place.scr : Scratch → Place ws) := by
    intro p
    rw [map_fst_onScratch, List.mem_map, List.mem_map]
    simp only [hsets]
  have hts : ∀ d ∈ loadCs ++ [c, .setTaintForRegister (flagsReg ws) sets],
      isTransfer (ctx.resolve d) = true := by
    intro d hd
    rw [← List.singleton_append, ← List.append_assoc] at hd
    rcases List.mem_append.mp hd with hd | hd
    · exact ht d hd
    · rw [List.mem_singleton.mp hd]
      rfl
  obtain ⟨s', hrun, -, hm⟩ := run_effects hs ctx hl hts
  refine ⟨s', hrun, fun p hp => ?_⟩
  rw [hm, ← gathered_joined hinto hplaces s]
  show assign [effect ctx c, effect ctx (.setTaintForRegister (flagsReg ws) sets)] _ p = _
  rw [hc, effect_setTaintForRegister, regPlaces_flags]
  by_cases hflags : p = .reg (flagsReg ws)
  · refine assign_last [(T, sources sets)] [] ({.reg (flagsReg ws)}, sources sets) hflags nofun
      (fun b hb q hq => ?_) _
    rw [List.mem_singleton.mp hb]
    exact hT q hq
  · refine assign_last [] [({.reg (flagsReg ws)}, sources sets)] (T, sources sets)
      (hp.resolve_right hflags) (fun b hb => ?_) nofun _
    rw [List.mem_singleton.mp hb]
    exact hflags

/-- When the destination and the flags read one set of marks, the sources are
    kept exactly when they are in it. -/
theorem keepsSources_iff {ctx : Ctx ws} {ins : Ins} (hd : Shape ctx ins) {s s' : TaintState ws N}
    (hrun : run (callsAt ctx (dataflow ws ins).calls) s = some s') {J : Set Nat}
    (hJ : ∀ p, p ∈ assignedPlaces ctx ins 0 ∨ p = .reg (flagsReg ws) → marksAt s' p = J) :
    KeepsSources ctx ins s ↔ sourceMarks ctx ins s ⊆ J := by
  constructor
  · rintro ⟨t, ht, hflags, -⟩
    cases hrun.symm.trans ht
    rw [hJ _ (.inr rfl)] at hflags
    exact hflags
  · intro hsub
    refine ⟨s', hrun, ?_, fun hreg hst => ?_, fun hmem a ha => ?_⟩
    · rw [hJ _ (.inr rfl)]
      exact hsub
    · have hp : Place.reg (ins.operandReg 0) ∈ assignedPlaces ctx ins 0 := by
        rw [assignedPlaces, if_pos hreg]
        exact (reg_mem_regPlaces hst).mpr (.inl rfl)
      rw [hJ _ (.inl hp)]
      exact hsub
    · have hreg := operandIsReg_of_memory hmem
      obtain ⟨hea, hsize⟩ := hd.sameBytes hmem
      have hp : Place.mem a ∈ assignedPlaces ctx ins 0 := by
        rw [assignedPlaces, if_neg hreg, hea, hsize, mem_rangePlaces,
          mem_addrRange_of_lt (hd.noWrap 0 (by omega) hmem)]
        exact ha
      rw [hJ _ (.inl hp)]
      exact hsub

/-- The places read for a register operand `n`: those of operand 0. -/
def passedOver (ins : Ins) (n : Nat) (otherwise : Set (Place ws)) : Set (Place ws) :=
  if ins.operandIsReg n then {.reg (ins.operandReg 0)} else otherwise

theorem passedOver_notMem_buffers {ins : Ins} {n : Nat} {otherwise : Set (Place ws)}
    (h : ∀ p ∈ otherwise, p ∉ buffers) : ∀ p ∈ passedOver ins n otherwise, p ∉ buffers := by
  rw [passedOver]
  by_cases hreg : ins.operandIsReg n = true
  · rw [if_pos hreg]
    rintro p rfl
    exact reg_notMem_buffers _
  · rw [if_neg hreg]
    exact h

theorem gathered_passedOver (ins : Ins) (n : Nat) (otherwise : Set (Place ws))
    (s : TaintState ws N) :
    gathered (passedOver ins n otherwise) (marksAt s)
      = if ins.operandIsReg n then marksAt s (.reg (ins.operandReg 0))
        else gathered otherwise (marksAt s) := by
  rw [passedOver]
  by_cases hreg : ins.operandIsReg n = true
  · rw [if_pos hreg, if_pos hreg, gathered_singleton]
  · rw [if_neg hreg, if_neg hreg]

/-! ## IMUL -/

section IMUL

variable {ctx : Ctx ws} {ins : Ins}

/-- The load of `imulSource`. -/
def imulLoad (ins : Ins) : Analysis :=
  if ins.operandIsReg 1 then .taintForRegister (ins.operandReg 0) .src
  else loadOf ins 1 .src

theorem imulSource_completes {immediate : Bool} (h : Completes (imulSource ins immediate)) :
    imulSource ins immediate = insertCall (imulLoad ins) := by
  rw [imulLoad]
  by_cases hreg : ins.operandIsReg 1 = true
  · rw [imulSource, if_pos hreg, if_pos hreg]
  · -- without a register the chain is the usual one
    have hchain : imulSource ins immediate = taintForOperand ins 1 .src true immediate := by
      rw [imulSource, taintForOperand, if_neg hreg, if_neg hreg, Bool.true_and]
    rw [hchain] at h ⊢
    rw [if_neg hreg]
    exact taintForOperand_completes h

/-- The calls of IMUL with two or three operands. -/
theorem calls_IMUL (hi : ins.iclass = .IMUL)
    (hn : ins.operandCount = 2 ∨ ins.operandCount = 3) (hc : Completes (dataflow ws ins)) :
    (dataflow ws ins).calls
      = unchecked ([.taintForRegister (ins.operandReg 0) .dest, imulLoad ins]
        ++ [.setTaintForRegister (ins.operandReg 0) [.dest, .src],
          .setTaintForRegister (flagsReg ws) [.dest, .src]]) := by
  have hops : ∃ immediate, dataflow ws ins = imulOperands ws ins immediate := by
    rw [dataflow, hi]
    show ∃ immediate, instrumentIMUL ws ins = _
    rw [instrumentIMUL]
    rcases hn with hn | hn
    · exact ⟨true, by rw [hn]; rfl⟩
    · exact ⟨false, by rw [hn]; rfl⟩
  obtain ⟨immediate, hops⟩ := hops
  rw [hops] at hc ⊢
  rw [imulOperands] at hc ⊢
  obtain ⟨e₁, hc⟩ := calls_bind (fun _ => rfl) hc
  obtain ⟨e₂, -⟩ := calls_bind imulSource_completes hc
  rw [e₁, e₂]
  rfl

/-- The loads of IMUL. -/
def imulLoads (ctx : Ctx ws) (ins : Ins) : List (Scratch × Set (Place ws)) :=
  [(.dest, {.reg (ins.operandReg 0)}), (.src, passedOver ins 1 (loadedPlaces ctx ins 1))]

theorem effect_imulLoad (ctx : Ctx ws) (ins : Ins) :
    effect ctx (imulLoad ins) = ({.scr .src}, passedOver ins 1 (loadedPlaces ctx ins 1)) := by
  rw [imulLoad, passedOver]
  by_cases hreg : ins.operandIsReg 1 = true
  · rw [if_pos hreg, if_pos hreg]
    rfl
  · rw [if_neg hreg, if_neg hreg, effect_loadOf]

theorem imulLoads_into (ctx : Ctx ws) (ins : Ins) :
    LoadsInto buffers (onScratch (imulLoads ctx ins)) := by
  refine loadsInto_scratch (by simp [imulLoads]) fun l hl => ?_
  rcases List.mem_cons.mp hl with rfl | hl
  · rintro p rfl
    exact reg_notMem_buffers _
  · rw [List.mem_singleton.mp hl]
    exact passedOver_notMem_buffers (loadedPlaces_notMem_buffers ctx ins 1)

theorem isTransfer_imulLoad (ctx : Ctx ws) (ins : Ins) :
    isTransfer (ctx.resolve (imulLoad ins)) = true := by
  rw [imulLoad]
  by_cases hreg : ins.operandIsReg 1 = true
  · rw [if_pos hreg]
    rfl
  · rw [if_neg hreg]
    exact (resolve_loadOf ctx ins 1 .src).1

theorem sourceMarks_IMUL (hi : ins.iclass = .IMUL) (s : TaintState ws N) :
    sourceMarks ctx ins s = operandMarks ctx ins 1 s := by
  ext m
  simp [sourceMarks, sourceOperands, hi]

/-- What the loads of IMUL bring together. -/
theorem joined_imulLoads (hd : Shape ctx ins) (s : TaintState ws N) :
    {m | ∃ l ∈ onScratch (imulLoads ctx ins), m ∈ gathered l.2 (marksAt s)}
      = marksAt s (.reg (ins.operandReg 0))
        ∪ if ins.operandIsReg 1 then marksAt s (.reg (ins.operandReg 0))
          else operandMarks ctx ins 1 s := by
  rw [← gathered_loadedPlaces (hd.noWrap 1 (by omega)) s, ← gathered_passedOver]
  ext m
  simp [imulLoads]

/-- **IMUL keeps operand 1** exactly when it is no register or its marks are
    among those of operand 0 and the control taint. -/
theorem imul_keeps_iff {s : TaintState ws N} (hs : SizedState s) (hd : Shape ctx ins)
    (hi : ins.iclass = .IMUL) (hn : ins.operandCount = 2 ∨ ins.operandCount = 3)
    (h0 : ins.operandIsReg 0 = true) (hc : Completes (dataflow ws ins)) :
    KeepsSources ctx ins s
      ↔ (ins.operandIsReg 1 = true → marksAt s (.reg (ins.operandReg 1))
          ⊆ marksAt s (.reg (ins.operandReg 0)) ∪ controlMarks s) := by
  have hassigned : assignedPlaces ctx ins 0 = regPlaces (ins.operandReg 0) := if_pos h0
  have htransfer : ∀ d ∈ [Analysis.taintForRegister (ins.operandReg 0) .dest, imulLoad ins]
      ++ [.setTaintForRegister (ins.operandReg 0) [.dest, .src]],
      isTransfer (ctx.resolve d) = true := by
    intro d hd
    rcases List.mem_cons.mp hd with rfl | hd
    · rfl
    · rcases List.mem_cons.mp hd with rfl | hd
      · exact isTransfer_imulLoad ctx ins
      · rw [List.mem_singleton.mp hd]
        rfl
  obtain ⟨s', hrun, hJ⟩ := run_joined hs ctx
    [.taintForRegister (ins.operandReg 0) .dest, imulLoad ins]
    (.setTaintForRegister (ins.operandReg 0) [.dest, .src]) [.dest, .src]
    (by rw [List.map_cons, List.map_cons, effect_imulLoad]; rfl) (imulLoads_into ctx ins)
    (fun p => Iff.rfl) (effect_setTaintForRegister ctx _ _) (sources_notMem_regPlaces _ _) htransfer
  rw [← calls_IMUL hi hn hc] at hrun
  rw [keepsSources_iff hd hrun (by rw [hassigned]; exact hJ), sourceMarks_IMUL hi,
    joined_imulLoads hd]
  by_cases h1 : ins.operandIsReg 1 = true
  · rw [if_pos h1, operandMarks_reg h1, Set.union_self]
    exact ⟨fun h _ => h, fun h => h h1⟩
  · rw [if_neg h1]
    exact ⟨fun _ h => absurd h h1, fun _ => fun m hm => .inl (.inr hm)⟩

end IMUL

/-! ## SHLD and SHRD -/

section SHLD

variable {ctx : Ctx ws} {ins : Ins}

/-- The load of `shldSource`. -/
def shldLoad (ins : Ins) : Analysis :=
  if ins.operandIsReg 2 then .taintForRegister (ins.operandReg 0) .src else .clearTaintSet .src

theorem shldSource_completes (h : Completes (shldSource ins)) :
    shldSource ins = insertCall (shldLoad ins)
      ∧ (ins.operandIsReg 2 = true ∨ ins.kind 2 = .immediate) := by
  rw [shldSource] at h ⊢
  rw [shldLoad]
  by_cases hreg : ins.operandIsReg 2 = true
  · rw [if_pos hreg, if_pos hreg]
    exact ⟨rfl, .inl hreg⟩
  · rw [if_neg hreg] at h ⊢
    rw [if_neg hreg]
    by_cases himm : ins.operandIsImmediate 2 = true
    · rw [if_pos himm]
      refine ⟨rfl, .inr ?_⟩
      rw [Ins.operandIsImmediate] at himm
      revert himm
      cases ins.kind 2 with
      | immediate => exact fun _ => rfl
      | _ =>
          intro h
          exact Bool.noConfusion h
    · rw [if_neg himm] at h
      exact absurd h not_completes_abort

/-- The calls of SHLD and SHRD. -/
theorem calls_SHLD (hi : ins.iclass = .SHLD ∨ ins.iclass = .SHRD)
    (hc : Completes (dataflow ws ins)) :
    (dataflow ws ins).calls
      = unchecked ([loadOf ins 0 .dest, .taintForRegister (ins.operandReg 1) .cnt, shldLoad ins]
        ++ [assignOf ins 0 [.dest, .src, .cnt],
          .setTaintForRegister (flagsReg ws) [.dest, .src, .cnt]])
    ∧ (ins.operandIsReg 2 = true ∨ ins.kind 2 = .immediate) := by
  have hops : dataflow ws ins = instrumentSHLD ws ins := by
    rw [dataflow]
    rcases hi with hi | hi
    · rw [hi]
      rfl
    · rw [hi]
      rfl
  rw [hops] at hc ⊢
  rw [instrumentSHLD] at hc ⊢
  obtain ⟨e₁, hc⟩ := calls_bind taintForOperand_completes hc
  obtain ⟨e₂, hc⟩ := calls_bind (fun _ => rfl) hc
  obtain ⟨a, ha, -⟩ := completes_bind.mp hc
  obtain ⟨e₃, hc⟩ := calls_bind (fun h => (shldSource_completes h).1) hc
  obtain ⟨e₄, -⟩ := calls_bind setTaintForOperand_completes hc
  rw [e₁, e₂, e₃, e₄]
  exact ⟨rfl, (shldSource_completes ⟨a, ha⟩).2⟩

/-- The loads of SHLD and SHRD. -/
def shldLoads (ctx : Ctx ws) (ins : Ins) : List (Scratch × Set (Place ws)) :=
  [(.dest, loadedPlaces ctx ins 0), (.cnt, {.reg (ins.operandReg 1)}),
    (.src, passedOver ins 2 ∅)]

theorem effect_shldLoad (ctx : Ctx ws) (ins : Ins) :
    effect ctx (shldLoad ins) = ({.scr .src}, passedOver ins 2 ∅) := by
  rw [shldLoad, passedOver]
  by_cases hreg : ins.operandIsReg 2 = true
  · rw [if_pos hreg, if_pos hreg]
    rfl
  · rw [if_neg hreg, if_neg hreg]
    rfl

theorem shldLoads_into (ctx : Ctx ws) (ins : Ins) :
    LoadsInto buffers (onScratch (shldLoads ctx ins)) := by
  refine loadsInto_scratch (by simp [shldLoads]) fun l hl => ?_
  rcases List.mem_cons.mp hl with rfl | hl
  · exact loadedPlaces_notMem_buffers ctx ins 0
  · rcases List.mem_cons.mp hl with rfl | hl
    · rintro p rfl
      exact reg_notMem_buffers _
    · rw [List.mem_singleton.mp hl]
      exact passedOver_notMem_buffers fun p hp => absurd hp (Set.notMem_empty p)

theorem isTransfer_shldLoad (ctx : Ctx ws) (ins : Ins) :
    isTransfer (ctx.resolve (shldLoad ins)) = true := by
  rw [shldLoad]
  by_cases hreg : ins.operandIsReg 2 = true
  · rw [if_pos hreg]
    rfl
  · rw [if_neg hreg]
    rfl

theorem sourceMarks_SHLD (hi : ins.iclass = .SHLD ∨ ins.iclass = .SHRD) (s : TaintState ws N) :
    sourceMarks ctx ins s
      = operandMarks ctx ins 0 s ∪ operandMarks ctx ins 1 s ∪ operandMarks ctx ins 2 s := by
  have hsources : sourceOperands ins.iclass = [0, 1, 2] := by
    rcases hi with hi | hi
    · rw [hi]
      rfl
    · rw [hi]
      rfl
  ext m
  simp [sourceMarks, hsources, or_assoc]

/-- What the loads of SHLD and SHRD bring together. -/
theorem joined_shldLoads (hd : Shape ctx ins) (h1 : ins.operandIsReg 1 = true)
    (s : TaintState ws N) :
    {m | ∃ l ∈ onScratch (shldLoads ctx ins), m ∈ gathered l.2 (marksAt s)}
      = operandMarks ctx ins 0 s ∪ operandMarks ctx ins 1 s
        ∪ if ins.operandIsReg 2 then marksAt s (.reg (ins.operandReg 0)) else ∅ := by
  rw [← gathered_loadedPlaces (hd.noWrap 0 (by omega)) s, operandMarks_reg h1,
    ← gathered_empty (marksAt s), ← gathered_passedOver]
  ext m
  simp [shldLoads, or_assoc]

/-- **SHLD and SHRD keep all operands** exactly when the count is no register
    or its marks are among those of the other operands, of the register in
    operand 0 and of the control taint. -/
theorem shld_keeps_iff {s : TaintState ws N} (hs : SizedState s) (hd : Shape ctx ins)
    (hi : ins.iclass = .SHLD ∨ ins.iclass = .SHRD) (h1 : ins.operandIsReg 1 = true)
    (hc : Completes (dataflow ws ins)) :
    KeepsSources ctx ins s
      ↔ (ins.operandIsReg 2 = true → marksAt s (.reg (ins.operandReg 2))
          ⊆ operandMarks ctx ins 0 s ∪ operandMarks ctx ins 1 s
            ∪ marksAt s (.reg (ins.operandReg 0)) ∪ controlMarks s) := by
  obtain ⟨hcalls, h2⟩ := calls_SHLD hi hc
  have htransfer : ∀ d ∈ [loadOf ins 0 .dest, .taintForRegister (ins.operandReg 1) .cnt,
      shldLoad ins] ++ [assignOf ins 0 [.dest, .src, .cnt]],
      isTransfer (ctx.resolve d) = true := by
    intro d hd
    rcases List.mem_cons.mp hd with rfl | hd
    · exact (resolve_loadOf ctx ins 0 .dest).1
    · rcases List.mem_cons.mp hd with rfl | hd
      · rfl
      · rcases List.mem_cons.mp hd with rfl | hd
        · exact isTransfer_shldLoad ctx ins
        · rw [List.mem_singleton.mp hd]
          exact (resolve_assignOf ctx ins 0 _).1
  have hsets : ∀ x, x ∈ (shldLoads ctx ins).map Prod.fst ↔ x ∈ [Scratch.dest, .src, .cnt] := by
    intro x
    simp only [shldLoads, List.map_cons, List.map_nil, List.mem_cons, List.not_mem_nil, or_false]
    tauto
  obtain ⟨s', hrun, hJ⟩ := run_joined hs ctx
    [loadOf ins 0 .dest, .taintForRegister (ins.operandReg 1) .cnt, shldLoad ins]
    (assignOf ins 0 [.dest, .src, .cnt]) [.dest, .src, .cnt]
    (by rw [List.map_cons, List.map_cons, List.map_cons, effect_loadOf, effect_shldLoad]; rfl)
    (shldLoads_into ctx ins) hsets (effect_assignOf ctx ins 0 _)
    (sources_notMem_assignedPlaces _ ctx ins 0) htransfer
  have hrun' : run (callsAt ctx (dataflow ws ins).calls) s = some s' := by
    rw [hcalls]
    exact hrun
  rw [keepsSources_iff hd hrun' hJ, sourceMarks_SHLD hi, joined_shldLoads hd h1]
  by_cases hreg : ins.operandIsReg 2 = true
  · rw [if_pos hreg, operandMarks_reg hreg]
    constructor
    · exact fun h _ => Set.Subset.trans Set.subset_union_right h
    · intro h
      refine Set.union_subset (fun m hm => ?_) (h hreg)
      exact .inl (.inl hm)
  · have hnone : operandMarks ctx ins 2 s = ∅ := by
      rw [operandMarks, h2.resolve_left hreg]
    rw [if_neg hreg, hnone]
    exact ⟨fun _ h => absurd h hreg, fun _ => Set.subset_union_left⟩

end SHLD

/-! ## When no source operand is dropped -/

section Kept

variable {ctx : Ctx ws} {ins : Ins}

/-- **The source operands are kept** exactly when the marks of the register
    that is passed over are loaded anyway. -/
theorem keepsSources_iff_covered {s : TaintState ws N} (hs : SizedState s) (hd : Shape ctx ins)
    (hc : Completes (dataflow ws ins)) : KeepsSources ctx ins s ↔ Covered ctx ins s := by
  rcases hd.handled with ⟨hi, hn, h0⟩ | ⟨hi, h1⟩
  · rw [imul_keeps_iff hs hd hi hn h0 hc, Covered, hi]
  · rw [shld_keeps_iff hs hd hi h1 hc, Covered]
    rcases hi with hi | hi
    · rw [hi]
    · rw [hi]

/-- A state in which `r` carries mark 0. -/
def registerTainted (ws : WordSize) (N : Nat) (r : Reg) : TaintState ws N :=
  { TaintState.init ws N with
    regTaintMap := Function.update (fun _ => none) r (bitsetSetBit (bitsetInit ws.bits N) 0) }

theorem registerTainted_sized (ws : WordSize) (hN : 0 < N) (r : Reg) :
    SizedState (registerTainted ws N r) where
  entries := by
    intro p b hb
    cases p with
    | reg q =>
        by_cases hq : q = r
        · obtain ⟨u, hu, hsu, -⟩ := setBit_sized ws.bits_pos (sized_init N) hN
          subst hq
          rw [show entryAt (registerTainted ws N q) (.reg q) = some u by
            simp [entryAt, registerTainted, hu]] at hb
          cases hb
          exact hsu
        · rw [show entryAt (registerTainted ws N r) (.reg q) = none by
            simp [entryAt, registerTainted, hq]] at hb
          cases hb
    | mem a => exact init_sized.entries (.mem a) b hb
    | ctl a => exact init_sized.entries (.ctl a) b hb
    | scr x => exact init_sized.entries (.scr x) b hb
  tags := init_sized.tags

theorem zero_mem_registerTainted (r : Reg) :
    0 ∈ marksAt (registerTainted .w64 1 r) (.reg r) := by
  obtain ⟨u, hu, -, hm⟩ := setBit_sized (WordSize.bits_pos .w64) (sized_init 1) Nat.one_pos
  refine ⟨u, by simp [entryAt, registerTainted, hu], ?_⟩
  show 0 ∈ marks u
  rw [hm]
  exact Set.mem_insert 0 _

theorem controlMarks_registerTainted (r : Reg) :
    controlMarks (registerTainted .w64 1 r) = ∅ := by
  ext m
  refine ⟨fun h => ?_, fun h => absurd h (Set.notMem_empty m)⟩
  obtain ⟨a, b, hb, -⟩ := mem_controlMarks.mp h
  simp [registerTainted, TaintState.init] at hb

theorem marksAt_registerTainted_of_ne {q r : Reg} (h : q ≠ r) :
    marksAt (registerTainted .w64 1 r) (.reg q) = ∅ :=
  marksAt_of_absent fun ⟨b, hb⟩ => by simp [entryAt, registerTainted, h] at hb

/-- `imul eax, ebx`. -/
def imulEaxEbx : Ins := onRegisters .IMUL [(.eax, 32), (.ebx, 32)]

theorem imulEaxEbx_shape : Shape (writesAt .w64 0 0) imulEaxEbx where
  handled := .inl ⟨rfl, .inl rfl, rfl⟩
  sameBytes := nofun
  noWrap := by
    intro n hn
    match n, hn with
    | 0, _ => exact nofun
    | 1, _ => exact nofun

/-- `shld eax, edx, cl`. -/
def shldEaxEdxCl : Ins := onRegisters .SHLD [(.eax, 32), (.edx, 32), (.cl, 8)]

theorem shldEaxEdxCl_shape : Shape (writesAt .w64 0 0) shldEaxEdxCl where
  handled := .inr ⟨.inl rfl, rfl⟩
  sameBytes := nofun
  noWrap := by
    intro n hn
    match n, hn with
    | 0, _ => exact nofun
    | 1, _ => exact nofun

/-- `imul eax, ebx` with marks on EAX only. -/
theorem keepsSources_iff_covered_imul :
    KeepsSources (writesAt .w64 0 0) imulEaxEbx (registerTainted .w64 1 .eax)
      ↔ Covered (writesAt .w64 0 0) imulEaxEbx (registerTainted .w64 1 .eax) :=
  keepsSources_iff_covered (registerTainted_sized .w64 Nat.one_pos .eax) imulEaxEbx_shape ⟨(), rfl⟩

/-- A mark of EBX is lost by `imul eax, ebx`, and one of CL by
    `shld eax, edx, cl`. -/
theorem source_operand_dropped :
    (Completes (dataflow .w64 imulEaxEbx)
      ∧ ¬ KeepsSources (writesAt .w64 0 0) imulEaxEbx (registerTainted .w64 1 .ebx))
    ∧ (Completes (dataflow .w64 shldEaxEdxCl)
      ∧ ¬ KeepsSources (writesAt .w64 0 0) shldEaxEdxCl (registerTainted .w64 1 .cl)) := by
  refine ⟨⟨⟨(), rfl⟩, fun h => ?_⟩, ⟨⟨(), rfl⟩, fun h => ?_⟩⟩
  · have hsub := (imul_keeps_iff (registerTainted_sized .w64 Nat.one_pos .ebx) imulEaxEbx_shape rfl
      (.inl rfl) rfl ⟨(), rfl⟩).mp h rfl
    have hmem := hsub (zero_mem_registerTainted .ebx)
    rw [controlMarks_registerTainted, marksAt_registerTainted_of_ne (by decide), Set.union_empty]
      at hmem
    exact hmem
  · have hsub := (shld_keeps_iff (registerTainted_sized .w64 Nat.one_pos .cl) shldEaxEdxCl_shape
      (.inl rfl) rfl ⟨(), rfl⟩).mp h rfl
    have hmem := hsub (zero_mem_registerTainted .cl)
    rw [operandMarks_reg rfl, operandMarks_reg rfl, controlMarks_registerTainted,
      marksAt_registerTainted_of_ne (by decide), marksAt_registerTainted_of_ne (by decide),
      Set.union_empty, Set.union_empty, Set.union_empty] at hmem
    exact hmem

end Kept

end DytanSourceOperand
