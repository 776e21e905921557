import Dytan.HandlerProofs
import Dytan.ReadOverWriteProofs
import Dytan.LoadAssignProofs

/-! # From operands to destinations

    Most handlers are a transfer in two phases: calls that load the marks of
    the operands into scratch sets, then calls that assign unions of scratch
    sets.  A handler that completes has inserted exactly the calls of its two
    phases, and the marks after them are those of `LoadAssign`.

    For the handlers of the two-operand arithmetic this gives the whole flow:
    the marks of both operands, of the flags where they are read and of the
    control taint end up in operand 0 and in the flags, and nowhere else. -/

namespace DytanOperandFlow

open DytanBitset DytanRegister DytanTaintState DytanMarkFlow DytanInstruction DytanHandler
open DytanReadOverWrite Emission Overwrite LoadAssign

variable {ws : WordSize} {N : Nat}

/-- The calls that assign their targets whatever keys there are. -/
def isTransfer : Call ws → Bool
  | .clearTaintForRegister _ => false
  | .clearTaintForMemory _ _ => false
  | .pushControl _ => false
  | .popControl _ => false
  | _ => true

theorem step_transfer {s : TaintState ws N} (hs : SizedState s) {c : Call ws}
    (hc : isTransfer c = true) :
    ∃ s', step c s = some s' ∧ SizedState s'
      ∧ marksAt s' = overwrite (mayAssign c) (origins c) (marksAt s) := by
  have htargets : targets c s = mayAssign c := by
    cases c with
    | clearTaintForRegister _ => exact nomatch hc
    | clearTaintForMemory _ _ => exact nomatch hc
    | pushControl _ => exact nomatch hc
    | popControl _ => exact nomatch hc
    | _ => rfl
  rw [← htargets]
  exact step_marks hs c

theorem run_transfers {s : TaintState ws N} (hs : SizedState s) {calls : List (Call ws)}
    (hcalls : ∀ c ∈ calls, isTransfer c = true) :
    ∃ s', run calls s = some s' ∧ SizedState s'
      ∧ marksAt s' = calls.foldl (fun σ c => overwrite (mayAssign c) (origins c) σ)
          (marksAt s) := by
  induction calls generalizing s with
  | nil => exact ⟨s, rfl, hs, rfl⟩
  | cons c rest ih =>
      obtain ⟨s₁, hstep, hs₁, hm₁⟩ := step_transfer hs (hcalls c List.mem_cons_self)
      obtain ⟨s', hrun, hs', hm'⟩ := ih hs₁ fun d hd => hcalls d (List.mem_cons_of_mem _ hd)
      refine ⟨s', by rw [run_cons, hstep]; exact hrun, hs', ?_⟩
      rw [hm', hm₁, List.foldl_cons]

/-- The scratch sets. -/
def buffers : Set (Place ws) := {p | ∃ x, p = .scr x}

/-- **Two phases**: calls that load the buffers `ls`, then calls that make the
    assignments `as`. -/
theorem run_load_assign {s : TaintState ws N} (hs : SizedState s) {loads assigns : List (Call ws)}
    {ls : List (Place ws × Set (Place ws))} {as : List (Set (Place ws) × Set (Place ws))}
    (hl : loads.map (fun c => (mayAssign c, origins c)) = ls.map fun l => ({l.1}, l.2))
    (ha : assigns.map (fun c => (mayAssign c, origins c)) = as)
    (ht : ∀ c ∈ loads ++ assigns, isTransfer c = true) :
    ∃ s', run (loads ++ assigns) s = some s' ∧ SizedState s'
      ∧ marksAt s' = assign as (load ls (marksAt s)) := by
  obtain ⟨s', hrun, hs', hm⟩ := run_transfers hs ht
  refine ⟨s', hrun, hs', ?_⟩
  have hfold : ∀ (cs : List (Call ws)) (σ : Place ws → Set Nat),
      cs.foldl (fun σ c => overwrite (mayAssign c) (origins c) σ) σ
        = assign (cs.map fun c => (mayAssign c, origins c)) σ := by
    intro cs σ
    rw [assign, List.foldl_map]
  have hload : assign (ls.map fun l => ({l.1}, l.2)) (marksAt s) = load ls (marksAt s) := by
    rw [assign, load, List.foldl_map]
  rw [hm, List.foldl_append, hfold, hfold, hl, ha, hload]

/-! ## Operands -/

/-- The call that loads operand `n` into `set`. -/
def loadOf (ins : Ins) (n : Nat) (set : Scratch) : Analysis :=
  if ins.operandIsReg n then .taintForRegister (ins.operandReg n) set
  else if ins.operandIsMemory n then .taintForMemory .read set
  else .clearTaintSet set

/-- The call that assigns `sets` to operand `n`. -/
def assignOf (ins : Ins) (n : Nat) (sets : List Scratch) : Analysis :=
  if ins.operandIsReg n then .setTaintForRegister (ins.operandReg n) sets
  else .setTaintForMemory sets

/-- A load chain that completes has inserted the one call. -/
theorem taintForOperand_completes {ins : Ins} {n : Nat} {set : Scratch} {memory immediate : Bool}
    (h : Completes (taintForOperand ins n set memory immediate)) :
    taintForOperand ins n set memory immediate = insertCall (loadOf ins n set) := by
  rw [taintForOperand] at h ⊢
  rw [loadOf]
  by_cases hreg : ins.operandIsReg n = true
  · rw [if_pos hreg, if_pos hreg]
  · rw [if_neg hreg] at h ⊢
    rw [if_neg hreg]
    by_cases hmem : (memory && ins.operandIsMemory n) = true
    · rw [if_pos hmem] at h ⊢
      rw [if_pos (Bool.and_eq_true_iff.mp hmem).2]
      cases hread : ins.isMemoryRead with
      | false => simp [requireMemoryRead, hread] at h
      | true =>
          simp only [requireMemoryRead, hread]
          rfl
    · rw [if_neg hmem] at h ⊢
      by_cases himm : (immediate && ins.operandIsImmediate n) = true
      · have hnot : ins.operandIsMemory n ≠ true := by
          intro hm
          obtain ⟨base, index, hk⟩ := Ins.operandIsMemory_iff.mp hm
          have := (Bool.and_eq_true_iff.mp himm).2
          rw [Ins.operandIsImmediate, hk] at this
          exact nomatch this
        rw [if_pos himm, if_neg hnot]
      · rw [if_neg himm] at h
        exact absurd h not_completes_abort

/-- An assignment chain that completes has inserted the one call, and a memory
    operand is written. -/
theorem setTaintForOperand_completes {ins : Ins} {n : Nat} {sets : List Scratch}
    (h : Completes (setTaintForOperand ins n sets)) :
    setTaintForOperand ins n sets = insertCall (assignOf ins n sets) := by
  rw [setTaintForOperand] at h ⊢
  rw [assignOf]
  by_cases hreg : ins.operandIsReg n = true
  · rw [if_pos hreg, if_pos hreg]
  · rw [if_neg hreg] at h ⊢
    rw [if_neg hreg]
    by_cases hmem : ins.operandIsMemory n = true
    · rw [if_pos hmem] at h ⊢
      cases hwrite : ins.isMemoryWrite with
      | false => simp [requireMemoryWrite, hwrite] at h
      | true =>
          simp only [requireMemoryWrite, hwrite]
          rfl
    · rw [if_neg hmem] at h
      exact absurd h not_completes_abort

/-- The places operand `n` is loaded from. -/
def loadedPlaces (ctx : Ctx ws) (ins : Ins) (n : Nat) : Set (Place ws) :=
  if ins.operandIsReg n then {.reg (ins.operandReg n)}
  else if ins.operandIsMemory n then rangePlaces ctx.memoryReadEA ctx.memoryReadSize
  else ∅

/-- The places assigned with operand `n`. -/
def assignedPlaces (ctx : Ctx ws) (ins : Ins) (n : Nat) : Set (Place ws) :=
  if ins.operandIsReg n then regPlaces (ins.operandReg n)
  else rangePlaces ctx.memoryWriteEA ctx.memoryWriteSize

theorem resolve_loadOf (ctx : Ctx ws) (ins : Ins) (n : Nat) (set : Scratch) :
    isTransfer (ctx.resolve (loadOf ins n set)) = true
      ∧ mayAssign (ctx.resolve (loadOf ins n set)) = {.scr set}
      ∧ origins (ctx.resolve (loadOf ins n set)) = loadedPlaces ctx ins n := by
  rw [loadOf, loadedPlaces]
  by_cases hreg : ins.operandIsReg n = true
  · rw [if_pos hreg, if_pos hreg]
    exact ⟨rfl, rfl, rfl⟩
  · rw [if_neg hreg, if_neg hreg]
    by_cases hmem : ins.operandIsMemory n = true
    · rw [if_pos hmem, if_pos hmem]
      exact ⟨rfl, rfl, rfl⟩
    · rw [if_neg hmem, if_neg hmem]
      exact ⟨rfl, rfl, rfl⟩

theorem resolve_assignOf (ctx : Ctx ws) (ins : Ins) (n : Nat) (sets : List Scratch) :
    isTransfer (ctx.resolve (assignOf ins n sets)) = true
      ∧ mayAssign (ctx.resolve (assignOf ins n sets)) = assignedPlaces ctx ins n
      ∧ origins (ctx.resolve (assignOf ins n sets)) = scratchPlaces sets ∪ controlPlaces := by
  rw [assignOf, assignedPlaces]
  by_cases hreg : ins.operandIsReg n = true
  · rw [if_pos hreg, if_pos hreg]
    exact ⟨rfl, rfl, rfl⟩
  · rw [if_neg hreg, if_neg hreg]
    exact ⟨rfl, rfl, rfl⟩

/-- The first part of a handler that completes. -/
theorem calls_bind {x : Handler} {c : Analysis} {f : Unit → Handler}
    (hx : Completes x → x = insertCall c) (h : Completes (x >>= f)) :
    (x >>= f).calls = ⟨none, c⟩ :: (f ()).calls ∧ Completes (f ()) := by
  obtain ⟨a, ha, hf⟩ := completes_bind.mp h
  rw [hx ⟨a, ha⟩]
  exact ⟨rfl, hf⟩

/-! ## The two-operand arithmetic -/

/-- The classes of the handlers ADD, ADC, XOR, CMP, TEST, SAR and XADD. -/
def isArithmetic : IClass → Bool
  | .ADD | .OR | .AND | .SUB | .ADC | .SBB | .XOR | .CMP | .TEST => true
  | .SAR | .SHL | .SHR | .XADD => true
  | _ => false

/-- The flags are an operand. -/
def readsFlags : IClass → Bool
  | .ADC | .SBB => true
  | _ => false

/-- Operand 0 is written. -/
def writesOperand : IClass → Bool
  | .CMP | .TEST => false
  | _ => true

/-- The scratch set operand 1 is loaded into. -/
def secondSet : IClass → Scratch
  | .SAR | .SHL | .SHR => .cnt
  | _ => .src

/-- The scratch sets whose union is assigned. -/
def sourceSets (iclass : IClass) : List Scratch :=
  [.dest, secondSet iclass] ++ if readsFlags iclass then [.eflags] else []

/-- The calls of the first phase. -/
def loadCalls (ws : WordSize) (ins : Ins) : List Analysis :=
  [loadOf ins 0 .dest, loadOf ins 1 (secondSet ins.iclass)]
    ++ if readsFlags ins.iclass then [.taintForRegister (flagsReg ws) .eflags] else []

/-- The assignment of XADD to its source. -/
def exchangeCalls (ins : Ins) : List Analysis :=
  if ins.iclass = .XADD then [.setTaintForRegister (ins.operandReg 1) [.dest]] else []

/-- The last call. -/
def flagsCall (ws : WordSize) (ins : Ins) : Analysis :=
  .setTaintForRegister (flagsReg ws) (sourceSets ins.iclass)

/-- The calls of the second phase. -/
def assignCalls (ws : WordSize) (ins : Ins) : List Analysis :=
  (if writesOperand ins.iclass then [assignOf ins 0 (sourceSets ins.iclass)] else [])
    ++ (exchangeCalls ins ++ [flagsCall ws ins])

/-- Calls inserted without a check. -/
def unchecked (cs : List Analysis) : List Inserted := cs.map fun c => ⟨none, c⟩

/-- The two phases. -/
def phases (ws : WordSize) (ins : Ins) : List Inserted :=
  unchecked (loadCalls ws ins ++ assignCalls ws ins)

section Calls

variable {ins : Ins} {i : IClass}

theorem calls_ADD (hi : ins.iclass = i) (hr : readsFlags i = false) (hw : writesOperand i = true)
    (hs : secondSet i = .src) (hx : i ≠ .XADD) (hc : Completes (instrumentADD ws ins)) :
    (instrumentADD ws ins).calls = phases ws ins := by
  rw [instrumentADD] at hc ⊢
  obtain ⟨e₁, hc⟩ := calls_bind taintForOperand_completes hc
  obtain ⟨e₂, hc⟩ := calls_bind taintForOperand_completes hc
  obtain ⟨e₃, -⟩ := calls_bind setTaintForOperand_completes hc
  rw [e₁, e₂, e₃]
  simp [phases, unchecked, loadCalls, assignCalls, exchangeCalls, flagsCall, sourceSets, hi, hr, hw, hs, hx]
  rfl

theorem calls_ADC (hi : ins.iclass = i) (hr : readsFlags i = true) (hw : writesOperand i = true)
    (hs : secondSet i = .src) (hx : i ≠ .XADD) (hc : Completes (instrumentADC ws ins)) :
    (instrumentADC ws ins).calls = phases ws ins := by
  rw [instrumentADC] at hc ⊢
  obtain ⟨e₁, hc⟩ := calls_bind taintForOperand_completes hc
  obtain ⟨e₂, hc⟩ := calls_bind taintForOperand_completes hc
  obtain ⟨e₃, hc⟩ := calls_bind (fun _ => rfl) hc
  obtain ⟨e₄, -⟩ := calls_bind setTaintForOperand_completes hc
  rw [e₁, e₂, e₃, e₄]
  simp [phases, unchecked, loadCalls, assignCalls, exchangeCalls, flagsCall, sourceSets, hi, hr, hw, hs, hx]
  rfl

/-- XOR of two different operands is like ADD. -/
theorem calls_XOR (hi : ins.iclass = .XOR) (hsame : sameRegisters ins = false)
    (hc : Completes (instrumentXOR ws ins)) : (instrumentXOR ws ins).calls = phases ws ins := by
  have hxor : instrumentXOR ws ins = instrumentADD ws ins := by
    rw [instrumentXOR, instrumentADD, xorDestination, hsame]
    rfl
  rw [hxor] at hc ⊢
  exact calls_ADD hi rfl rfl rfl nofun hc

theorem calls_CMP (hi : ins.iclass = .CMP) (hc : Completes (instrumentCMP ws ins)) :
    (instrumentCMP ws ins).calls = phases ws ins := by
  rw [instrumentCMP] at hc ⊢
  obtain ⟨e₁, hc⟩ := calls_bind taintForOperand_completes hc
  obtain ⟨e₂, -⟩ := calls_bind taintForOperand_completes hc
  rw [e₁, e₂]
  simp [phases, unchecked, loadCalls, assignCalls, exchangeCalls, flagsCall, sourceSets, hi,
    readsFlags, writesOperand, secondSet]
  rfl

theorem calls_TEST (hi : ins.iclass = .TEST) (hc : Completes (instrumentTEST ws ins)) :
    (instrumentTEST ws ins).calls = phases ws ins := by
  rw [instrumentTEST] at hc ⊢
  obtain ⟨e₁, hc⟩ := calls_bind taintForOperand_completes hc
  obtain ⟨e₂, -⟩ := calls_bind taintForOperand_completes hc
  rw [e₁, e₂]
  simp [phases, unchecked, loadCalls, assignCalls, exchangeCalls, flagsCall, sourceSets, hi,
    readsFlags, writesOperand, secondSet]
  rfl

theorem calls_SAR (hi : ins.iclass = i) (hr : readsFlags i = false) (hw : writesOperand i = true)
    (hs : secondSet i = .cnt) (hx : i ≠ .XADD) (hc : Completes (instrumentSAR ws ins)) :
    (instrumentSAR ws ins).calls = phases ws ins := by
  rw [instrumentSAR] at hc ⊢
  obtain ⟨e₁, hc⟩ := calls_bind taintForOperand_completes hc
  obtain ⟨e₂, hc⟩ := calls_bind taintForOperand_completes hc
  obtain ⟨e₃, -⟩ := calls_bind setTaintForOperand_completes hc
  rw [e₁, e₂, e₃]
  simp [phases, unchecked, loadCalls, assignCalls, exchangeCalls, flagsCall, sourceSets, hi, hr, hw, hs, hx]
  rfl

theorem calls_XADD (hi : ins.iclass = .XADD) (hc : Completes (instrumentXADD ws ins)) :
    (instrumentXADD ws ins).calls = phases ws ins := by
  rw [instrumentXADD] at hc ⊢
  obtain ⟨e₁, hc⟩ := calls_bind taintForOperand_completes hc
  obtain ⟨e₂, hc⟩ := calls_bind taintForOperand_completes hc
  obtain ⟨e₃, hc⟩ := calls_bind setTaintForOperand_completes hc
  obtain ⟨e₄, -⟩ := calls_bind (fun _ => rfl) hc
  rw [e₁, e₂, e₃, e₄]
  simp [phases, unchecked, loadCalls, assignCalls, exchangeCalls, flagsCall, sourceSets, hi,
    readsFlags, writesOperand, secondSet]
  rfl

/-- **What the arithmetic handlers insert** when they complete. -/
theorem calls_dataflow (harith : isArithmetic ins.iclass = true)
    (hsame : ins.iclass = .XOR → sameRegisters ins = false) (hc : Completes (dataflow ws ins)) :
    (dataflow ws ins).calls = phases ws ins := by
  rw [dataflow] at hc ⊢
  revert harith hsame hc
  cases hi : ins.iclass with
  | ADD | OR | AND | SUB => exact fun _ _ hc => calls_ADD hi rfl rfl rfl nofun hc
  | ADC | SBB => exact fun _ _ hc => calls_ADC hi rfl rfl rfl nofun hc
  | XOR => exact fun _ hsame hc => calls_XOR hi (hsame rfl) hc
  | CMP => exact fun _ _ hc => calls_CMP hi hc
  | TEST => exact fun _ _ hc => calls_TEST hi hc
  | SAR | SHL | SHR => exact fun _ _ hc => calls_SAR hi rfl rfl rfl nofun hc
  | XADD => exact fun _ _ hc => calls_XADD hi hc
  | _ =>
      intro harith
      exact nomatch harith

end Calls

/-! ## What the two phases do -/

/-- The loads of the first phase. -/
def loads (ctx : Ctx ws) (ins : Ins) : List (Place ws × Set (Place ws)) :=
  [(.scr .dest, loadedPlaces ctx ins 0), (.scr (secondSet ins.iclass), loadedPlaces ctx ins 1)]
    ++ if readsFlags ins.iclass then [(.scr .eflags, {.reg (flagsReg ws)})] else []

/-- Where an assignment of `sets` takes marks from. -/
def sources (sets : List Scratch) : Set (Place ws) := scratchPlaces sets ∪ controlPlaces

/-- The targets and the origins of a call that runs. -/
def effect (ctx : Ctx ws) (c : Analysis) : Set (Place ws) × Set (Place ws) :=
  (mayAssign (ctx.resolve c), origins (ctx.resolve c))

@[simp] theorem effect_loadOf (ctx : Ctx ws) (ins : Ins) (n : Nat) (set : Scratch) :
    effect ctx (loadOf ins n set) = ({.scr set}, loadedPlaces ctx ins n) := by
  obtain ⟨-, hd, ho⟩ := resolve_loadOf ctx ins n set
  rw [effect, hd, ho]

@[simp] theorem effect_assignOf (ctx : Ctx ws) (ins : Ins) (n : Nat) (sets : List Scratch) :
    effect ctx (assignOf ins n sets) = (assignedPlaces ctx ins n, sources sets) := by
  obtain ⟨-, hd, ho⟩ := resolve_assignOf ctx ins n sets
  rw [effect, hd, ho, sources]

@[simp] theorem effect_setTaintForRegister (ctx : Ctx ws) (r : Reg) (sets : List Scratch) :
    effect ctx (.setTaintForRegister r sets) = (regPlaces r, sources sets) := rfl

@[simp] theorem effect_taintForRegister (ctx : Ctx ws) (r : Reg) (set : Scratch) :
    effect ctx (.taintForRegister r set) = ({.scr set}, {.reg r}) := rfl

/-- The assignments of the second phase. -/
def assigns (ctx : Ctx ws) (ins : Ins) : List (Set (Place ws) × Set (Place ws)) :=
  (assignCalls ws ins).map (effect ctx)

theorem callsAt_unchecked (ctx : Ctx ws) (cs : List Analysis) :
    callsAt ctx (unchecked cs) = cs.map ctx.resolve := by
  induction cs with
  | nil => rfl
  | cons c rest ih => exact congrArg (ctx.resolve c :: ·) ih

/-- The marks after two phases of calls inserted without a check. -/
theorem run_effects {s : TaintState ws N} (hs : SizedState s) (ctx : Ctx ws)
    {loadCs assignCs : List Analysis} {ls : List (Place ws × Set (Place ws))}
    (hl : loadCs.map (effect ctx) = ls.map fun l => ({l.1}, l.2))
    (ht : ∀ c ∈ loadCs ++ assignCs, isTransfer (ctx.resolve c) = true) :
    ∃ s', run (callsAt ctx (unchecked (loadCs ++ assignCs))) s = some s'
      ∧ SizedState s'
      ∧ marksAt s' = assign (assignCs.map (effect ctx)) (load ls (marksAt s)) := by
  rw [callsAt_unchecked, List.map_append]
  refine run_load_assign hs ?_ ?_ fun c hc => ?_
  · rw [List.map_map]
    exact hl
  · rw [List.map_map]
    rfl
  · rw [← List.map_append] at hc
    obtain ⟨a, ha, rfl⟩ := List.mem_map.mp hc
    exact ht a ha

theorem mem_assignCalls {ins : Ins} {c : Analysis} :
    c ∈ assignCalls ws ins
      ↔ (writesOperand ins.iclass = true ∧ c = assignOf ins 0 (sourceSets ins.iclass))
        ∨ (ins.iclass = .XADD ∧ c = .setTaintForRegister (ins.operandReg 1) [.dest])
        ∨ c = flagsCall ws ins := by
  rw [assignCalls, exchangeCalls, List.mem_append, List.mem_append, List.mem_ite_nil_right,
    List.mem_ite_nil_right, List.mem_singleton, List.mem_singleton, List.mem_singleton]

/-- No call of the two phases clears. -/
theorem isTransfer_phases (ctx : Ctx ws) {ins : Ins} {c : Analysis}
    (hc : c ∈ loadCalls ws ins ++ assignCalls ws ins) : isTransfer (ctx.resolve c) = true := by
  rcases List.mem_append.mp hc with hc | hc
  · rw [loadCalls, List.mem_append] at hc
    rcases hc with hc | hc
    · rcases List.mem_cons.mp hc with rfl | hc
      · exact (resolve_loadOf ctx ins 0 .dest).1
      · rw [List.mem_singleton.mp hc]
        exact (resolve_loadOf ctx ins 1 _).1
    · rw [List.mem_singleton.mp (List.mem_ite_nil_right.mp hc).2]
      rfl
  · rcases mem_assignCalls.mp hc with ⟨-, rfl⟩ | ⟨-, rfl⟩ | rfl
    · exact (resolve_assignOf ctx ins 0 _).1
    · rfl
    · rfl

/-- The marks after the calls of an arithmetic handler. -/
theorem run_phases {s : TaintState ws N} (hs : SizedState s) (ctx : Ctx ws) (ins : Ins) :
    ∃ s', run (callsAt ctx (phases ws ins)) s = some s' ∧ SizedState s'
      ∧ marksAt s' = assign (assigns ctx ins) (load (loads ctx ins) (marksAt s)) := by
  refine run_effects hs ctx ?_ fun c hc => isTransfer_phases ctx hc
  rw [loadCalls, loads]
  cases readsFlags ins.iclass with
  | true => simp
  | false => simp

/-! ### The loads -/

theorem reg_notMem_buffers (r : Reg) : (Place.reg r : Place ws) ∉ buffers := by
  rintro ⟨x, h⟩
  exact nomatch h

theorem mem_notMem_buffers (a : Addr ws) : Place.mem a ∉ buffers := by
  rintro ⟨x, h⟩
  exact nomatch h

theorem loadedPlaces_notMem_buffers (ctx : Ctx ws) (ins : Ins) (n : Nat) :
    ∀ p ∈ loadedPlaces ctx ins n, p ∉ buffers := by
  intro p hp
  rw [loadedPlaces] at hp
  rintro ⟨x, rfl⟩
  by_cases hreg : ins.operandIsReg n = true
  · rw [if_pos hreg] at hp
    exact nomatch hp
  · rw [if_neg hreg] at hp
    by_cases hmem : ins.operandIsMemory n = true
    · rw [if_pos hmem] at hp
      obtain ⟨a, -, h⟩ := hp
      exact nomatch h
    · rw [if_neg hmem] at hp
      exact hp

theorem secondSet_ne (iclass : IClass) :
    secondSet iclass ≠ .dest ∧ secondSet iclass ≠ .eflags := by
  have hcases : secondSet iclass = .cnt ∨ secondSet iclass = .src := by
    cases iclass with
    | SAR | SHL | SHR => exact .inl rfl
    | _ => exact .inr rfl
  rcases hcases with h | h
  · rw [h]
    exact ⟨nofun, nofun⟩
  · rw [h]
    exact ⟨nofun, nofun⟩

theorem loads_into (ctx : Ctx ws) (ins : Ins) : LoadsInto buffers (loads ctx ins) where
  buffers := by
    intro l hl
    rw [loads, List.mem_append] at hl
    rcases hl with hl | hl
    · rcases List.mem_cons.mp hl with rfl | hl
      · exact ⟨_, rfl⟩
      · rw [List.mem_singleton.mp hl]
        exact ⟨_, rfl⟩
    · rw [List.mem_singleton.mp (List.mem_ite_nil_right.mp hl).2]
      exact ⟨_, rfl⟩
  sources := by
    intro l hl
    rw [loads, List.mem_append] at hl
    rcases hl with hl | hl
    · rcases List.mem_cons.mp hl with rfl | hl
      · exact loadedPlaces_notMem_buffers ctx ins 0
      · rw [List.mem_singleton.mp hl]
        exact loadedPlaces_notMem_buffers ctx ins 1
    · rw [List.mem_singleton.mp (List.mem_ite_nil_right.mp hl).2]
      rintro p rfl ⟨x, hx⟩
      exact nomatch hx
  distinct := by
    obtain ⟨hd, he⟩ := secondSet_ne ins.iclass
    rw [loads]
    cases readsFlags ins.iclass with
    | true => simp [hd.symm, he]
    | false => simp [hd.symm]

/-- The marks of operand `n`: those of its register, of the bytes it is read
    from, or none for an immediate. -/
def operandMarks (ctx : Ctx ws) (ins : Ins) (n : Nat) (s : TaintState ws N) : Set Nat :=
  match ins.kind n with
  | .reg r => marksAt s (.reg r)
  | .memory _ _ =>
      {m | ∃ a, InRange ctx.memoryReadEA ctx.memoryReadSize a ∧ m ∈ marksAt s (.mem a)}
  | _ => ∅

/-- The marks that flow: both operands, the flags where they are read, and the
    control taint. -/
def flowedMarks (ctx : Ctx ws) (ins : Ins) (s : TaintState ws N) : Set Nat :=
  operandMarks ctx ins 0 s ∪ operandMarks ctx ins 1 s
    ∪ (if readsFlags ins.iclass then marksAt s (.reg (flagsReg ws)) else ∅) ∪ controlMarks s

theorem gathered_rangePlaces {start size : Addr ws} (hw : NoWrapRange start size)
    (σ : Place ws → Set Nat) :
    gathered (rangePlaces start size) σ = {m | ∃ a, InRange start size a ∧ m ∈ σ (.mem a)} := by
  ext m
  constructor
  · rintro ⟨q, ⟨a, ha, rfl⟩, hm⟩
    exact ⟨a, (mem_addrRange_of_lt hw).mp ha, hm⟩
  · rintro ⟨a, ha, hm⟩
    exact ⟨.mem a, ⟨a, (mem_addrRange_of_lt hw).mpr ha, rfl⟩, hm⟩

theorem gathered_loadedPlaces {ctx : Ctx ws} {ins : Ins} {n : Nat}
    (hw : ins.operandIsMemory n = true → NoWrapRange ctx.memoryReadEA ctx.memoryReadSize)
    (s : TaintState ws N) :
    gathered (loadedPlaces ctx ins n) (marksAt s) = operandMarks ctx ins n s := by
  rw [loadedPlaces, operandMarks, Ins.operandIsReg, Ins.operandReg]
  rw [Ins.operandIsMemory] at hw ⊢
  cases hk : ins.kind n with
  | reg r => exact gathered_singleton s (.reg r)
  | memory base index =>
      rw [hk] at hw
      exact gathered_rangePlaces (hw rfl) (marksAt s)
  | immediate => exact gathered_empty _
  | addressGenerator base index => exact gathered_empty _
  | other => exact gathered_empty _

theorem gathered_sources (sets : List Scratch) (σ : Place ws → Set Nat) :
    gathered (sources sets) σ = {m | ∃ x ∈ sets, m ∈ σ (.scr x)} ∪ gathered controlPlaces σ := by
  rw [sources, gathered_union]
  congr 1
  ext m
  constructor
  · rintro ⟨q, ⟨x, hx, rfl⟩, hm⟩
    exact ⟨x, hx, hm⟩
  · rintro ⟨x, hx, hm⟩
    exact ⟨.scr x, ⟨x, hx, rfl⟩, hm⟩

/-- Loads keep the control taint. -/
theorem load_control {ls : List (Place ws × Set (Place ws))} (hinto : LoadsInto buffers ls)
    (s : TaintState ws N) :
    gathered controlPlaces (load ls (marksAt s)) = controlMarks s := by
  refine gathered_eq fun q hq => load_of_notMem (fun l hl h => ?_) _
  obtain ⟨a, rfl⟩ := hq
  obtain ⟨x, hx⟩ := hinto.buffers l hl
  exact nomatch hx.symm.trans h

/-- One buffer after the loads. -/
theorem gathered_buffer {ls : List (Place ws × Set (Place ws))} (hinto : LoadsInto buffers ls)
    {x : Scratch} {S : Set (Place ws)} (hl : (.scr x, S) ∈ ls) (s : TaintState ws N) :
    gathered (sources [x]) (load ls (marksAt s)) = gathered S (marksAt s) ∪ controlMarks s := by
  rw [gathered_sources, load_control hinto, ← load_buffer hinto hl]
  congr 1
  ext m
  simp

/-- The union of all buffers after the loads. -/
theorem gathered_joined {ls : List (Place ws × Set (Place ws))} {sets : List Scratch}
    (hinto : LoadsInto buffers ls) (hsets : ∀ p, p ∈ ls.map Prod.fst ↔ p ∈ sets.map Place.scr)
    (s : TaintState ws N) :
    gathered (sources sets) (load ls (marksAt s))
      = {m | ∃ l ∈ ls, m ∈ gathered l.2 (marksAt s)} ∪ controlMarks s := by
  rw [gathered_sources, load_control hinto]
  congr 1
  ext m
  constructor
  · rintro ⟨x, hx, hmx⟩
    have hmem : Place.scr x ∈ ls.map Prod.fst := (hsets _).mpr (List.mem_map_of_mem hx)
    obtain ⟨l, hl, heq⟩ := List.mem_map.mp hmem
    rw [← heq, load_buffer hinto hl] at hmx
    exact ⟨l, hl, hmx⟩
  · rintro ⟨l, hl, hml⟩
    have hmem : l.1 ∈ sets.map Place.scr := (hsets _).mp (List.mem_map_of_mem hl)
    obtain ⟨x, hx, heq⟩ := List.mem_map.mp hmem
    refine ⟨x, hx, ?_⟩
    rw [heq, load_buffer hinto hl]
    exact hml

section Loaded

variable {ctx : Ctx ws} {ins : Ins}

/-- The first phase changes scratch sets only. -/
theorem load_stored {p : Place ws} (hp : p ∉ buffers) (σ : Place ws → Set Nat) :
    load (loads ctx ins) σ p = σ p :=
  load_of_notMem (fun l hl h => hp (by rw [← h]; exact (loads_into ctx ins).buffers l hl)) σ

/-- What the second phase assigns to operand 0 and to the flags. -/
theorem gathered_sourceSets
    (hw : ∀ n < 2, ins.operandIsMemory n = true →
      NoWrapRange ctx.memoryReadEA ctx.memoryReadSize) (s : TaintState ws N) :
    gathered (sources (sourceSets ins.iclass)) (load (loads ctx ins) (marksAt s))
      = flowedMarks ctx ins s := by
  have hsets : (loads ctx ins).map Prod.fst = (sourceSets ins.iclass).map Place.scr := by
    rw [loads, sourceSets]
    cases readsFlags ins.iclass with
    | true => rfl
    | false => rfl
  rw [gathered_joined (loads_into ctx ins) fun p => by rw [hsets], flowedMarks,
    ← gathered_loadedPlaces (hw 0 (by omega)), ← gathered_loadedPlaces (hw 1 (by omega)), loads]
  congr 1
  ext m
  cases readsFlags ins.iclass with
  | true => simp [or_assoc]
  | false => simp

/-- What XADD assigns to operand 1. -/
theorem gathered_dest
    (hw : ins.operandIsMemory 0 = true → NoWrapRange ctx.memoryReadEA ctx.memoryReadSize)
    (s : TaintState ws N) :
    gathered (sources [.dest]) (load (loads ctx ins) (marksAt s))
      = operandMarks ctx ins 0 s ∪ controlMarks s := by
  rw [gathered_buffer (loads_into ctx ins) (List.mem_append_left _ List.mem_cons_self),
    gathered_loadedPlaces hw]

end Loaded

section Assigned

variable {ctx : Ctx ws} {ins : Ins}

theorem mem_notMem_regPlaces (a : Addr ws) (r : Reg) :
    Place.mem a ∉ (regPlaces r : Set (Place ws)) := by
  rintro ⟨-, q, -, h⟩
  exact nomatch h

theorem sources_notMem_regPlaces (sets : List Scratch) (r : Reg) :
    ∀ q ∈ (sources sets : Set (Place ws)), q ∉ regPlaces r := by
  rintro q (⟨x, -, rfl⟩ | ⟨a, rfl⟩) ⟨-, p, -, h⟩
  · exact nomatch h
  · exact nomatch h

theorem sources_notMem_assignedPlaces (sets : List Scratch) (ctx : Ctx ws) (ins : Ins) (n : Nat) :
    ∀ q ∈ sources sets, q ∉ assignedPlaces ctx ins n := by
  rw [assignedPlaces]
  by_cases hreg : ins.operandIsReg n = true
  · rw [if_pos hreg]
    exact sources_notMem_regPlaces sets _
  · rw [if_neg hreg]
    rintro q (⟨x, -, rfl⟩ | ⟨a, rfl⟩) ⟨b, -, h⟩
    · exact nomatch h
    · exact nomatch h

/-- Assignments do not touch what assignments take marks from. -/
theorem sources_notMem_effect {c : Analysis} (hc : c ∈ assignCalls ws ins) (sets : List Scratch) :
    ∀ q ∈ sources sets, q ∉ (effect ctx c).1 := by
  rcases mem_assignCalls.mp hc with ⟨-, rfl⟩ | ⟨-, rfl⟩ | rfl
  · rw [effect_assignOf]
    exact sources_notMem_assignedPlaces sets ctx ins 0
  · exact sources_notMem_regPlaces sets _
  · exact sources_notMem_regPlaces sets _

/-- A place assigned by a call of the second phase and by none after it. -/
theorem assign_call (before after : List Analysis) (c : Analysis) {sets : List Scratch}
    (hsplit : assignCalls ws ins = before ++ c :: after)
    (hsets : (effect ctx c).2 = sources sets) {p : Place ws} (hp : p ∈ (effect ctx c).1)
    (hafter : ∀ d ∈ after, p ∉ (effect ctx d).1) (σ : Place ws → Set Nat) :
    assign (assigns ctx ins) σ p = gathered (sources sets) σ := by
  rw [assigns, hsplit, List.map_append, List.map_cons, ← hsets]
  refine assign_last _ _ (effect ctx c) hp (fun b hb => ?_) (fun b hb q hq => ?_) σ
  · obtain ⟨d, hd, rfl⟩ := List.mem_map.mp hb
    exact hafter d hd
  · obtain ⟨d, hd, rfl⟩ := List.mem_map.mp hb
    rw [hsets] at hq
    exact sources_notMem_effect (by rw [hsplit]; exact List.mem_append_left _ hd) sets q hq

/-- A place assigned by no call of the second phase. -/
theorem assign_none {p : Place ws} (hp : ∀ c ∈ assignCalls ws ins, p ∉ (effect ctx c).1)
    (σ : Place ws → Set Nat) : assign (assigns ctx ins) σ p = σ p := by
  refine assign_of_notMem (fun a ha => ?_) σ
  obtain ⟨c, hc, rfl⟩ := List.mem_map.mp ha
  exact hp c hc

end Assigned

/-! ## The flow -/

/-- The width of a general-purpose register. -/
def width (r : Reg) : Option Nat := r.span.map fun b => b.2.2 - b.2.1

/-- A listed sub-register is narrower. -/
theorem width_ne_of_mem_subRegisters {r q : Reg} (h : q ∈ subRegisters r) : width q ≠ width r := by
  revert q
  cases r with
  | other code => exact fun h => absurd h List.not_mem_nil
  | _ => decide

/-- What the decoder says of an instruction of these classes that executes:
    neither operand names the flags, the operands of XADD have one width, a
    memory operand 0 that is written is written where it is read, and no
    operand reaches the end of the address space. -/
structure Decoded (ctx : Ctx ws) (ins : Ins) : Prop where
  notFlags : ∀ n < 2, ins.operandIsReg n = true → ins.operandReg n ≠ flagsReg ws
  sameWidth : ins.iclass = .XADD → ins.operandIsReg 0 = true →
    width (ins.operandReg 0) = width (ins.operandReg 1)
  sameBytes : writesOperand ins.iclass = true → ins.operandIsMemory 0 = true →
    ctx.memoryWriteEA = ctx.memoryReadEA ∧ ctx.memoryWriteSize = ctx.memoryReadSize
  noWrap : ∀ n < 2, ins.operandIsMemory n = true →
    NoWrapRange ctx.memoryReadEA ctx.memoryReadSize

/-- A register the instruction may change: the flags, operand 0 where it is
    written, operand 1 of XADD, and what is listed with these. -/
def ChangesReg (ws : WordSize) (ins : Ins) (q : Reg) : Prop :=
  q = flagsReg ws
    ∨ (writesOperand ins.iclass = true ∧ ins.operandIsReg 0 = true
      ∧ isStackReg (ins.operandReg 0) = false
      ∧ (q = ins.operandReg 0 ∨ q ∈ subRegisters (ins.operandReg 0)))
    ∨ (ins.iclass = .XADD ∧ isStackReg (ins.operandReg 1) = false
      ∧ (q = ins.operandReg 1 ∨ q ∈ subRegisters (ins.operandReg 1)))

/-- A byte the instruction may change. -/
def ChangesByte (ctx : Ctx ws) (ins : Ins) (a : Addr ws) : Prop :=
  writesOperand ins.iclass = true ∧ ins.operandIsMemory 0 = true
    ∧ InRange ctx.memoryReadEA ctx.memoryReadSize a

/-- The marks flow from the operands to operand 0 and the flags, and nothing
    else changes. -/
structure Flows (ctx : Ctx ws) (ins : Ins) (s s' : TaintState ws N) : Prop where
  register : ins.operandIsReg 0 = true → marksAt s' (.reg (ins.operandReg 0))
    = if writesOperand ins.iclass = true ∧ isStackReg (ins.operandReg 0) = false
      then flowedMarks ctx ins s else marksAt s (.reg (ins.operandReg 0))
  bytes : ins.operandIsMemory 0 = true → ∀ a, InRange ctx.memoryReadEA ctx.memoryReadSize a →
    marksAt s' (.mem a)
      = if writesOperand ins.iclass = true then flowedMarks ctx ins s else marksAt s (.mem a)
  flags : marksAt s' (.reg (flagsReg ws)) = flowedMarks ctx ins s
  exchanged : ins.iclass = .XADD → isStackReg (ins.operandReg 1) = false →
    marksAt s' (.reg (ins.operandReg 1)) = operandMarks ctx ins 0 s ∪ controlMarks s
  otherRegisters : ∀ q, ¬ ChangesReg ws ins q → marksAt s' (.reg q) = marksAt s (.reg q)
  otherBytes : ∀ a, ¬ ChangesByte ctx ins a → marksAt s' (.mem a) = marksAt s (.mem a)

/-- Every arithmetic handler first loads operand 0, a register or memory. -/
theorem operand0_of_completes {ins : Ins} (harith : isArithmetic ins.iclass = true)
    (hc : Completes (dataflow ws ins)) :
    ins.operandIsReg 0 = true ∨ ins.operandIsMemory 0 = true := by
  have hload : Completes (taintForOperand ins 0 .dest true false) := by
    rw [dataflow] at hc
    revert harith hc
    cases ins.iclass with
    | ADD | OR | AND | SUB | ADC | SBB | XOR | CMP | TEST | SAR | SHL | SHR | XADD =>
        intro _ hc
        obtain ⟨a, ha, -⟩ := completes_bind.mp hc
        exact ⟨a, ha⟩
    | _ =>
        intro harith
        exact nomatch harith
  by_contra hno
  rw [not_or] at hno
  rw [taintForOperand, if_neg hno.1, if_neg (by simpa using hno.2), if_neg (by simp)] at hload
  exact not_completes_abort hload

section Flow

variable {ctx : Ctx ws} {ins : Ins}

/-- A register that the second phase assigns is one the instruction changes. -/
theorem changesReg_of_mem {c : Analysis} (hc : c ∈ assignCalls ws ins) {q : Reg}
    (hq : Place.reg q ∈ (effect ctx c).1) : ChangesReg ws ins q := by
  rcases mem_assignCalls.mp hc with ⟨hw, rfl⟩ | ⟨hx, rfl⟩ | rfl
  · rw [effect_assignOf, assignedPlaces] at hq
    by_cases hreg : ins.operandIsReg 0 = true
    · rw [if_pos hreg] at hq
      have hst : isStackReg (ins.operandReg 0) = false := hq.1
      exact .inr (.inl ⟨hw, hreg, hst, (reg_mem_regPlaces hst).mp hq⟩)
    · rw [if_neg hreg] at hq
      obtain ⟨a, -, h⟩ := hq
      exact nomatch h
  · have hst : isStackReg (ins.operandReg 1) = false := hq.1
    exact .inr (.inr ⟨hx, hst, (reg_mem_regPlaces hst).mp hq⟩)
  · rw [flagsCall, effect_setTaintForRegister, regPlaces_flags] at hq
    cases hq
    exact .inl rfl

/-- A byte that the second phase assigns is one the instruction changes. -/
theorem changesByte_of_mem (hd : Decoded ctx ins)
    (h0 : ins.operandIsReg 0 = true ∨ ins.operandIsMemory 0 = true) {c : Analysis}
    (hc : c ∈ assignCalls ws ins) {a : Addr ws} (ha : Place.mem a ∈ (effect ctx c).1) :
    ChangesByte ctx ins a := by
  rcases mem_assignCalls.mp hc with ⟨hw, rfl⟩ | ⟨-, rfl⟩ | rfl
  · rw [effect_assignOf, assignedPlaces] at ha
    by_cases hreg : ins.operandIsReg 0 = true
    · rw [if_pos hreg] at ha
      exact absurd ha (mem_notMem_regPlaces a _)
    · have hmem := h0.resolve_left hreg
      obtain ⟨hea, hsize⟩ := hd.sameBytes hw hmem
      rw [if_neg hreg, hea, hsize, mem_rangePlaces,
        mem_addrRange_of_lt (hd.noWrap 0 (by omega) hmem)] at ha
      exact ⟨hw, hmem, ha⟩
  · exact absurd ha (mem_notMem_regPlaces a _)
  · exact absurd ha (mem_notMem_regPlaces a _)

/-- A register that XADD writes as operand 0 and again with operand 1 is
    operand 1. -/
theorem Decoded.eq_of_mem (hd : Decoded ctx ins) (hx : ins.iclass = .XADD)
    (hreg : ins.operandIsReg 0 = true)
    (h : Place.reg (ins.operandReg 0) ∈ (regPlaces (ins.operandReg 1) : Set (Place ws))) :
    ins.operandReg 0 = ins.operandReg 1 := by
  rcases (reg_mem_regPlaces h.1).mp h with heq | hsub
  · exact heq
  · exact absurd (hd.sameWidth hx hreg) (width_ne_of_mem_subRegisters hsub)

/-- Operand 1 of XADD is a register. -/
theorem operand1_of_completes (hx : ins.iclass = .XADD) (hc : Completes (dataflow ws ins)) :
    ins.operandIsReg 1 = true := by
  rw [dataflow, hx] at hc
  obtain ⟨-, -, hc⟩ := completes_bind.mp hc
  obtain ⟨a, ha, -⟩ := completes_bind.mp hc
  by_contra hno
  have hload : Completes (taintForOperand ins 1 .src false false) := ⟨a, ha⟩
  rw [taintForOperand, if_neg hno, if_neg (by simp), if_neg (by simp)] at hload
  exact not_completes_abort hload

variable {s : TaintState ws N}

/-- The marks after the two phases at the register operand 0. -/
theorem register_after (hd : Decoded ctx ins) (hc : Completes (dataflow ws ins))
    (hreg : ins.operandIsReg 0 = true) :
    assign (assigns ctx ins) (load (loads ctx ins) (marksAt s)) (.reg (ins.operandReg 0))
      = if writesOperand ins.iclass = true ∧ isStackReg (ins.operandReg 0) = false
        then flowedMarks ctx ins s else marksAt s (.reg (ins.operandReg 0)) := by
  have hflags := hd.notFlags 0 (by omega) hreg
  by_cases hcond : writesOperand ins.iclass = true ∧ isStackReg (ins.operandReg 0) = false
  · rw [if_pos hcond]
    have htarget : Place.reg (ins.operandReg 0)
        ∈ (effect ctx (assignOf ins 0 (sourceSets ins.iclass))).1 := by
      rw [effect_assignOf, assignedPlaces, if_pos hreg]
      exact (reg_mem_regPlaces hcond.2).mpr (.inl rfl)
    have hnotFlags : ∀ sets, Place.reg (ins.operandReg 0)
        ∉ (effect ctx (.setTaintForRegister (flagsReg ws) sets)).1 := by
      intro sets h
      rw [effect_setTaintForRegister, regPlaces_flags] at h
      exact hflags (Place.reg.inj h)
    by_cases hx : ins.iclass = .XADD
        ∧ Place.reg (ins.operandReg 0) ∈ (regPlaces (ins.operandReg 1) : Set (Place ws))
    · -- both operands are this register: the second assignment gives the same marks
      have heq := hd.eq_of_mem hx.1 hreg hx.2
      have hk₁ := Ins.operandIsReg_iff.mp (operand1_of_completes hx.1 hc)
      have hsame : flowedMarks ctx ins s = operandMarks ctx ins 0 s ∪ controlMarks s := by
        have hreads : readsFlags ins.iclass = false := by rw [hx.1]; rfl
        rw [flowedMarks, operandMarks, operandMarks, Ins.operandIsReg_iff.mp hreg, hk₁, heq, hreads]
        simp
      rw [hsame, ← gathered_dest (hd.noWrap 0 (by omega)) s]
      refine assign_call [assignOf ins 0 (sourceSets ins.iclass)] [flagsCall ws ins]
        (.setTaintForRegister (ins.operandReg 1) [.dest]) ?_ rfl hx.2 ?_ _
      · rw [assignCalls, exchangeCalls, if_pos hcond.1, if_pos hx.1]
        rfl
      · intro c hmem
        rw [List.mem_singleton.mp hmem]
        exact hnotFlags _
    · rw [← gathered_sourceSets hd.noWrap s]
      refine assign_call [] (exchangeCalls ins ++ [flagsCall ws ins])
        (assignOf ins 0 (sourceSets ins.iclass)) ?_ (by rw [effect_assignOf]) htarget ?_ _
      · rw [assignCalls, if_pos hcond.1]
        rfl
      · intro c hmem
        rcases List.mem_append.mp hmem with hmem | hmem
        · obtain ⟨hxadd, hmem⟩ := List.mem_ite_nil_right.mp hmem
          rw [List.mem_singleton.mp hmem]
          exact fun h => hx ⟨hxadd, h⟩
        · rw [List.mem_singleton.mp hmem]
          exact hnotFlags _
  · rw [if_neg hcond, assign_none (fun c hmem h => ?_), load_stored (reg_notMem_buffers _)]
    rcases changesReg_of_mem hmem h with hf | ⟨hw, -, hst, -⟩ | ⟨hx, hst, hin⟩
    · exact hflags hf
    · exact hcond ⟨hw, hst⟩
    · have heq := hd.eq_of_mem hx hreg ((reg_mem_regPlaces hst).mpr hin)
      exact hcond ⟨by rw [hx]; rfl, by rw [heq]; exact hst⟩

/-- The marks after the two phases at the bytes of a memory operand 0. -/
theorem bytes_after (hd : Decoded ctx ins) (hmem : ins.operandIsMemory 0 = true) {a : Addr ws}
    (ha : InRange ctx.memoryReadEA ctx.memoryReadSize a) :
    assign (assigns ctx ins) (load (loads ctx ins) (marksAt s)) (.mem a)
      = if writesOperand ins.iclass = true then flowedMarks ctx ins s else marksAt s (.mem a) := by
  have hreg := operandIsReg_of_memory hmem
  by_cases hw : writesOperand ins.iclass = true
  · obtain ⟨hea, hsize⟩ := hd.sameBytes hw hmem
    rw [if_pos hw, ← gathered_sourceSets hd.noWrap s]
    refine assign_call [] (exchangeCalls ins ++ [flagsCall ws ins])
      (assignOf ins 0 (sourceSets ins.iclass)) ?_ (by rw [effect_assignOf]) ?_ ?_ _
    · rw [assignCalls, if_pos hw]
      rfl
    · rw [effect_assignOf, assignedPlaces, if_neg hreg, hea, hsize, mem_rangePlaces,
        mem_addrRange_of_lt (hd.noWrap 0 (by omega) hmem)]
      exact ha
    · intro c hc
      rcases List.mem_append.mp hc with hc | hc
      · rw [List.mem_singleton.mp (List.mem_ite_nil_right.mp hc).2]
        exact mem_notMem_regPlaces a _
      · rw [List.mem_singleton.mp hc]
        exact mem_notMem_regPlaces a _
  · rw [if_neg hw, assign_none (fun c hc h => ?_), load_stored (mem_notMem_buffers a)]
    exact hw (changesByte_of_mem hd (.inr hmem) hc h).1

/-- The marks after the two phases at the flags. -/
theorem flags_after (hd : Decoded ctx ins) :
    assign (assigns ctx ins) (load (loads ctx ins) (marksAt s)) (.reg (flagsReg ws))
      = flowedMarks ctx ins s := by
  rw [← gathered_sourceSets hd.noWrap s]
  have hsplit : assignCalls ws ins
      = ((if writesOperand ins.iclass then [assignOf ins 0 (sourceSets ins.iclass)] else [])
        ++ exchangeCalls ins) ++ flagsCall ws ins :: [] := by
    rw [assignCalls, List.append_assoc]
  have heffect : effect ctx (flagsCall ws ins)
      = (regPlaces (flagsReg ws), sources (sourceSets ins.iclass)) := by
    rw [flagsCall, effect_setTaintForRegister]
  refine assign_call _ [] (flagsCall ws ins) hsplit (by rw [heffect]) ?_ ?_ _
  · rw [heffect, regPlaces_flags]
    rfl
  · intro d hd
    exact absurd hd List.not_mem_nil

/-- The marks after the two phases at operand 1 of XADD. -/
theorem exchanged_after (hd : Decoded ctx ins) (hx : ins.iclass = .XADD)
    (hreg : ins.operandIsReg 1 = true) (hst : isStackReg (ins.operandReg 1) = false) :
    assign (assigns ctx ins) (load (loads ctx ins) (marksAt s)) (.reg (ins.operandReg 1))
      = operandMarks ctx ins 0 s ∪ controlMarks s := by
  have hw : writesOperand ins.iclass = true := by rw [hx]; rfl
  rw [← gathered_dest (hd.noWrap 0 (by omega)) s]
  refine assign_call [assignOf ins 0 (sourceSets ins.iclass)] [flagsCall ws ins]
    (.setTaintForRegister (ins.operandReg 1) [.dest]) ?_ rfl ?_ ?_ _
  · rw [assignCalls, exchangeCalls, if_pos hw, if_pos hx]
    rfl
  · exact (reg_mem_regPlaces hst).mpr (.inl rfl)
  · intro c hc h
    rw [List.mem_singleton.mp hc, flagsCall, effect_setTaintForRegister, regPlaces_flags] at h
    exact hd.notFlags 1 (by omega) hreg (Place.reg.inj h)

/-- **The arithmetic handlers propagate exactly**: for every operand shape
    they accept and every state, operand 0 (unless only compared, or the stack
    or frame pointer) and the flags get the marks of both operands, of the
    flags where they are read and of the control taint; operand 1 of XADD gets
    those of operand 0 and of the control taint; nothing else changes. -/
theorem arithmetic_flows (hs : SizedState s) (harith : isArithmetic ins.iclass = true)
    (hsame : ins.iclass = .XOR → sameRegisters ins = false) (hc : Completes (dataflow ws ins))
    (hd : Decoded ctx ins) :
    ∃ s', run (callsAt ctx (dataflow ws ins).calls) s = some s' ∧ Flows ctx ins s s' := by
  obtain ⟨s', hrun, -, hm⟩ := run_phases hs ctx ins
  have h0 := operand0_of_completes harith hc
  rw [calls_dataflow harith hsame hc]
  refine ⟨s', hrun, ?_, ?_, ?_, ?_, ?_, ?_⟩
  · intro hreg
    rw [hm]
    exact register_after hd hc hreg
  · intro hmem a ha
    rw [hm]
    exact bytes_after hd hmem ha
  · rw [hm]
    exact flags_after hd
  · intro hx hst
    rw [hm]
    exact exchanged_after hd hx (operand1_of_completes hx hc) hst
  · intro q hq
    rw [hm, assign_none fun c hc h => hq (changesReg_of_mem hc h),
      load_stored (reg_notMem_buffers q)]
  · intro a ha
    rw [hm, assign_none fun c hc h => ha (changesByte_of_mem hd h0 hc h),
      load_stored (mem_notMem_buffers a)]

/-- `adc eax, ebx` on a 64-bit build. -/
theorem arithmetic_flows_adc :
    ∃ s', run (callsAt (writesAt .w64 0 0)
        (dataflow .w64 (onRegisters .ADC [(.eax, 32), (.ebx, 32)])).calls)
        (flagsTainted .w64 1) = some s'
      ∧ Flows (writesAt .w64 0 0) (onRegisters .ADC [(.eax, 32), (.ebx, 32)])
        (flagsTainted .w64 1) s' := by
  refine arithmetic_flows (flagsTainted_sized .w64 Nat.one_pos) rfl nofun ⟨(), rfl⟩
    ⟨?_, nofun, nofun, ?_⟩
  · intro n hn _
    match n, hn with
    | 0, _ => decide
    | 1, _ => decide
  · intro n hn
    match n, hn with
    | 0, _ => exact nofun
    | 1, _ => exact nofun

end Flow

end DytanOperandFlow
