import Dytan.SizeInvariantProofs
import Dytan.OperandFlowProofs

/-! # Saving a register on the stack and restoring it

    PUSH and PUSHFD load a register into `src` and assign `src` to the bytes of
    the slot; POP joins those bytes into `src` and assigns it to a register.
    Whatever runs in between, the slot keeps its marks if nothing writes it, so
    the register comes back with the marks that were saved.

    POPFD ends with a call that loads the flags once more where POP has the
    assignment.  The flags therefore leave POPFD as they entered it. -/

namespace DytanStackRoundTrip

open DytanBitset DytanRegister DytanTaintState DytanMarkFlow DytanInstruction DytanHandler
open DytanSyscallState DytanSyscallFunctions DytanTaintSource DytanOtherWriters
  DytanSizeInvariant DytanReadOverWrite DytanOperandFlow Emission Overwrite
open DytanFailedCall (PathCallback NetworkCallback Environment)

variable {ws : WordSize} {N : Nat}

/-! ## The operations in between -/

/-- Everything that can happen to the taint: an analysis call, another writer
    of the taint map, and a display. -/
inductive Operation (ws : WordSize) where
  | call (c : Call ws)
  | write (w : Writer ws)
  | displayTagsForByteRange (start size : Addr ws)

/-- Run an operation. -/
def Operation.run : Operation ws → Globals ws N → Option (Globals ws N)
  | .call c, g => (step c g.state).map fun s => { g with state := s }
  | .write w, g => w.run g
  | .displayTagsForByteRange start size, g =>
      (DytanSizeInvariant.displayTagsForByteRange start size g.state).map fun _ => g

/-- The operation writes the byte at `a`. -/
def Operation.WritesByte (g : Globals ws N) (a : Addr ws) : Operation ws → Prop
  | .call c => Place.mem a ∈ targets c g.state
  | .write w => ∃ X, w.Gives g a X
  | .displayTagsForByteRange _ _ => False

/-- Erasing bytes keeps the sizes. -/
theorem handler_sized {sys : Sys} {env : Environment} {mem : AppMemory ws}
    {args : SyscallArguments ws} {g g' : Globals ws N} (hs : SizedState g.state)
    (h : Writer.run g (.handler sys env mem args) = some g') : SizedState g'.state := by
  obtain ⟨handle, hreg, h⟩ := Option.bind_eq_some_iff.mp h
  by_cases hclears : clears sys = true
  · rw [observer_clears hreg hclears] at h
    cases h
    refine ⟨fun p b hb => ?_, hs.tags⟩
    cases p with
    | mem a =>
        have herase := foldl_eraseRange_getElem? (handlerRanges sys env.sizes args)
          g.memTaintMap a
        by_cases ha : a ∈ erased (handlerRanges sys env.sizes args)
        · exact nomatch (herase.1 ha).symm.trans hb
        · exact hs.entries (.mem a) b ((herase.2 ha).symm.trans hb)
    | reg r => exact hs.entries (.reg r) b hb
    | ctl a => exact hs.entries (.ctl a) b hb
    | scr x => exact hs.entries (.scr x) b hb
  · rw [handler_state hreg (Bool.not_eq_true _ ▸ hclears) h]
    exact hs

/-- A writer that completes keeps the sizes. -/
theorem writer_sized {w : Writer ws} {g g' : Globals ws N} (hs : SizedState g.state)
    (h : w.run g = some g') : SizedState g'.state := by
  cases w with
  | clearTaintForMemory start size =>
      obtain ⟨s, hrun, rfl⟩ := Option.map_eq_some_iff.mp h
      obtain ⟨s', hstep, hs', -⟩ := step_marks hs (.clearTaintForMemory start size)
      cases hrun.symm.trans hstep
      exact hs'
  | setNewTaintForMemory addr size taintMark =>
      exact (stores_setNewTaintForMemory h).sizedState hs
  | assignTagToByteRange start size name =>
      exact (stores_assignTagToByteRange h).sizedState hs
  | pathCallback callback env args => exact (stores_pathCallback h).sizedState hs
  | networkCallback callback start length => exact (stores_networkCallback h).sizedState hs
  | handler sys env mem args => exact handler_sized hs h

/-- **One operation** keeps the sizes, and the marks of every byte it does not
    write. -/
theorem run_keeps {op : Operation ws} {g g' : Globals ws N} (hs : SizedState g.state)
    (h : op.run g = some g') :
    SizedState g'.state ∧ ∀ a, ¬ op.WritesByte g a →
      marksAt g'.state (.mem a) = marksAt g.state (.mem a) := by
  cases op with
  | call c =>
      obtain ⟨s, hrun, rfl⟩ := Option.map_eq_some_iff.mp h
      obtain ⟨s', hstep, hs', hm⟩ := step_marks hs c
      cases hrun.symm.trans hstep
      refine ⟨hs', fun a ha => ?_⟩
      show marksAt s (.mem a) = _
      rw [hm, overwrite_of_notMem ha]
  | write w =>
      refine ⟨writer_sized hs h, fun a ha => ?_⟩
      exact (write_spec hs h).kept a fun X hX => ha ⟨X, hX⟩
  | displayTagsForByteRange start size =>
      obtain ⟨out, -, rfl⟩ := Option.map_eq_some_iff.mp h
      exact ⟨hs, fun _ _ => rfl⟩

/-- No operation of the run writes a byte of the slot. -/
def Spares (slot : List (Addr ws)) (ops : List (Operation ws)) (g : Globals ws N) : Prop :=
  Runs.EachStep Operation.run (fun op g => ∀ a ∈ slot, ¬ op.WritesByte g a) ops g

/-- **A run** that spares the slot keeps its marks. -/
theorem runs_keep {slot : List (Addr ws)} {ops : List (Operation ws)} {g g' : Globals ws N}
    (hs : SizedState g.state) (hrun : Runs.runs Operation.run ops g = some g')
    (hspares : Spares slot ops g) :
    SizedState g'.state ∧ ∀ a ∈ slot, marksAt g'.state (.mem a) = marksAt g.state (.mem a) := by
  induction ops generalizing g with
  | nil =>
      cases hrun
      exact ⟨hs, fun _ _ => rfl⟩
  | cons op rest ih =>
      rw [Runs.runs_cons, Option.bind_eq_some_iff] at hrun
      obtain ⟨g₁, hstep, hrest⟩ := hrun
      obtain ⟨hs₁, hkeep⟩ := run_keeps hs hstep
      obtain ⟨hs', hkeep'⟩ := ih hs₁ hrest (hspares.2 g₁ hstep)
      refine ⟨hs', fun a ha => ?_⟩
      rw [hkeep' a ha, hkeep a (hspares.1 a ha)]

/-! ## The four instructions -/

/-- PUSH of a register. -/
structure IsPush (ins : Ins) (r : Reg) : Prop where
  iclass : ins.iclass = .PUSH
  operand : ins.kind 0 = .reg r
  write : ins.isMemoryWrite = true

/-- POP of a register. -/
structure IsPop (ins : Ins) (r : Reg) : Prop where
  iclass : ins.iclass = .POP
  operand : ins.kind 0 = .reg r
  read : ins.isMemoryRead = true

/-- POPFD; PUSHFD is known by its class alone. -/
structure IsPopfd (ins : Ins) : Prop where
  iclass : ins.iclass = .POPFD
  read : ins.isMemoryRead = true

/-- The calls that run before an instruction, on the globals. -/
def execute (ctx : Ctx ws) (ins : Ins) (g : Globals ws N) : Option (Globals ws N) :=
  (run (callsAt ctx (dataflow ws ins).calls) g.state).map fun s => { g with state := s }

/-- The calls of a save. -/
def saveCalls (r : Reg) : List Analysis := [.taintForRegister r .src, .setTaintForMemory [.src]]

/-- The calls of a restore. -/
def restoreCalls (r : Reg) : List Analysis :=
  [.taintForMemory .read .src, .setTaintForRegister r [.src]]

/-- The calls of POPFD. -/
def popfdCalls (ws : WordSize) : List Analysis :=
  [.taintForMemory .read .src, .taintForRegister (flagsReg ws) .src]

theorem operand_reg {ins : Ins} {n : Nat} {r : Reg} (h : ins.kind n = .reg r) :
    ins.operandIsReg n = true ∧ ins.operandReg n = r := by
  rw [Ins.operandIsReg, Ins.operandReg, h]
  exact ⟨rfl, rfl⟩

theorem calls_push {ins : Ins} {r : Reg} (h : IsPush ins r) :
    (dataflow ws ins).calls = unchecked (saveCalls r) := by
  obtain ⟨hreg, hr⟩ := operand_reg h.operand
  have hcalls : (instrumentPUSH ins).calls = unchecked (saveCalls r) := by
    rw [instrumentPUSH, taintForOperand, if_pos hreg, hr, requireMemoryWrite, if_pos h.write]
    rfl
  rw [dataflow, h.iclass]
  exact hcalls

theorem calls_pushfd {ins : Ins} (h : ins.iclass = .PUSHFD) :
    (dataflow ws ins).calls = unchecked (saveCalls (flagsReg ws)) := by
  rw [dataflow, h]
  rfl

theorem calls_pop {ins : Ins} {r : Reg} (h : IsPop ins r) :
    (dataflow ws ins).calls = unchecked (restoreCalls r) := by
  obtain ⟨hreg, hr⟩ := operand_reg h.operand
  have hcalls : (instrumentPOP ins).calls = unchecked (restoreCalls r) := by
    rw [instrumentPOP, setTaintForOperand, if_pos hreg, hr, requireMemoryRead, if_pos h.read]
    rfl
  rw [dataflow, h.iclass]
  exact hcalls

theorem calls_popfd {ins : Ins} (h : IsPopfd ins) :
    (dataflow ws ins).calls = unchecked (popfdCalls ws) := by
  have hcalls : (instrumentPOPFD ws ins).calls = unchecked (popfdCalls ws) := by
    rw [instrumentPOPFD, requireMemoryRead, if_pos h.read]
    rfl
  rw [dataflow, h.iclass]
  exact hcalls

/-! ## What they do to the marks -/

/-- No branch is open. -/
def NoControl (s : TaintState ws N) : Prop := ∀ a : Addr ws, s.controlTaintMap[a]? = none

theorem controlMarks_eq_empty {s : TaintState ws N} (h : NoControl s) : controlMarks s = ∅ := by
  ext m
  rw [mem_controlMarks]
  constructor
  · rintro ⟨a, b, hb, -⟩
    exact nomatch (h a).symm.trans hb
  · exact fun hm => absurd hm (Set.notMem_empty m)

/-- The bytes of the slot. -/
def slotOf (ctx : Ctx ws) : List (Addr ws) := addrRange ctx.memoryWriteEA ctx.memoryWriteSize

/-- A restore reads the slot of the save. -/
structure SameSlot (ctx ctx' : Ctx ws) : Prop where
  ea : ctx'.memoryReadEA = ctx.memoryWriteEA
  size : ctx'.memoryReadSize = ctx.memoryWriteSize

/-- What two transfers leave. -/
theorem execute_pair (ctx : Ctx ws) {ins : Ins} {g : Globals ws N} (hs : SizedState g.state)
    {c d : Analysis} (hcalls : (dataflow ws ins).calls = unchecked [c, d])
    (hc : isTransfer (ctx.resolve c) = true) (hd : isTransfer (ctx.resolve d) = true) :
    ∃ g', execute ctx ins g = some g' ∧ SizedState g'.state
      ∧ marksAt g'.state
        = overwrite (mayAssign (ctx.resolve d)) (origins (ctx.resolve d))
          (overwrite (mayAssign (ctx.resolve c)) (origins (ctx.resolve c)) (marksAt g.state)) := by
  have htransfers : ∀ e ∈ [ctx.resolve c, ctx.resolve d], isTransfer e = true := by
    intro e he
    rcases List.mem_pair.mp he with rfl | rfl
    · exact hc
    · exact hd
  obtain ⟨s', hrun, hs', hm⟩ := run_transfers hs htransfers
  refine ⟨{ g with state := s' }, ?_, hs', hm⟩
  rw [execute, hcalls, callsAt_unchecked]
  exact Option.map_eq_some_iff.mpr ⟨s', hrun, rfl⟩

/-- Loading a place that is no scratch set into one changes no control mark. -/
theorem gathered_src {S : Set (Place ws)} {s : TaintState ws N} (hctl : NoControl s) :
    gathered (scratchPlaces [.src] ∪ controlPlaces)
        (overwrite {.scr .src} S (marksAt s)) = gathered S (marksAt s) := by
  have hnone := controlMarks_eq_empty hctl
  ext m
  constructor
  · rintro ⟨q, ⟨x, hx, rfl⟩ | ⟨a, rfl⟩, hm⟩
    · rw [List.mem_singleton.mp hx, overwrite_of_mem (Set.mem_singleton _)] at hm
      exact hm
    · rw [overwrite_of_notMem (by simp)] at hm
      have hmem : m ∈ controlMarks s := ⟨.ctl a, ⟨a, rfl⟩, hm⟩
      rw [hnone] at hmem
      exact absurd hmem (Set.notMem_empty m)
  · intro hm
    refine ⟨.scr .src, Or.inl ⟨.src, List.mem_singleton.mpr rfl, rfl⟩, ?_⟩
    rw [overwrite_of_mem (Set.mem_singleton _)]
    exact hm

/-- A save gives every byte of the slot the marks of the register. -/
theorem save_spec (ctx : Ctx ws) {ins : Ins} {r : Reg} {g : Globals ws N}
    (hs : SizedState g.state) (hctl : NoControl g.state)
    (hcalls : (dataflow ws ins).calls = unchecked (saveCalls r)) :
    ∃ g', execute ctx ins g = some g' ∧ SizedState g'.state
      ∧ ∀ a ∈ slotOf ctx, marksAt g'.state (.mem a) = marksAt g.state (.reg r) := by
  obtain ⟨g', hrun, hs', hm⟩ := execute_pair ctx hs hcalls rfl rfl
  refine ⟨g', hrun, hs', fun a ha => ?_⟩
  have htarget : Place.mem a ∈ mayAssign (ctx.resolve (.setTaintForMemory [.src])) :=
    mem_rangePlaces.mpr ha
  have horigin : gathered {Place.reg r} (marksAt g.state) = marksAt g.state (.reg r) :=
    gathered_singleton g.state (.reg r)
  rw [hm, overwrite_of_mem htarget, ← horigin]
  exact gathered_src hctl

/-- A restore assigns the marks of the slot. -/
theorem pop_spec (ctx : Ctx ws) {ins : Ins} {r : Reg} {g : Globals ws N}
    (hs : SizedState g.state) (hctl : NoControl g.state) (hpop : IsPop ins r)
    (hr : isStackReg r = false) :
    ∃ g', execute ctx ins g = some g'
      ∧ marksAt g'.state (.reg r)
        = gathered (rangePlaces ctx.memoryReadEA ctx.memoryReadSize) (marksAt g.state) := by
  obtain ⟨g', hrun, -, hm⟩ := execute_pair ctx hs (calls_pop hpop) rfl rfl
  refine ⟨g', hrun, ?_⟩
  have htarget : Place.reg r ∈ mayAssign (ctx.resolve (.setTaintForRegister r [.src])) :=
    (reg_mem_regPlaces hr).mpr (Or.inl rfl)
  rw [hm, overwrite_of_mem htarget]
  exact gathered_src hctl

/-- POPFD leaves the flags alone. -/
theorem popfd_spec (ctx : Ctx ws) {ins : Ins} {g : Globals ws N} (hs : SizedState g.state)
    (hpopfd : IsPopfd ins) :
    ∃ g', execute ctx ins g = some g'
      ∧ marksAt g'.state (.reg (flagsReg ws)) = marksAt g.state (.reg (flagsReg ws)) := by
  obtain ⟨g', hrun, -, hm⟩ := execute_pair ctx hs (calls_popfd hpopfd) rfl rfl
  refine ⟨g', hrun, ?_⟩
  have hload : ∀ e, Place.reg (flagsReg ws) ∉ mayAssign (ctx.resolve (.taintForMemory e .src)) := by
    intro e
    cases e <;> exact fun h => nomatch h
  have hload' : Place.reg (flagsReg ws)
      ∉ mayAssign (ctx.resolve (.taintForRegister (flagsReg ws) .src)) := fun h => nomatch h
  rw [hm, overwrite_of_notMem hload', overwrite_of_notMem (hload .read)]

/-- Bytes that all have the marks `X`. -/
theorem gathered_same {start size : Addr ws} {X : Set Nat} {σ : Place ws → Set Nat}
    (h : ∀ a ∈ addrRange start size, σ (.mem a) = X) :
    gathered (rangePlaces start size) σ = X ↔ addrRange start size ≠ [] ∨ X = ∅ := by
  cases hrange : addrRange start size with
  | nil =>
      have hempty : gathered (rangePlaces start size) σ = ∅ := by
        ext m
        constructor
        · rintro ⟨q, ⟨a, ha, rfl⟩, -⟩
          rw [hrange] at ha
          exact absurd ha List.not_mem_nil
        · exact fun hm => absurd hm (Set.notMem_empty m)
      rw [hempty]
      constructor
      · exact fun hX => Or.inr hX.symm
      · rintro (hne | rfl)
        · exact absurd rfl hne
        · rfl
  | cons b rest =>
      refine iff_of_true ?_ (Or.inl (List.cons_ne_nil b rest))
      ext m
      constructor
      · rintro ⟨q, ⟨a, ha, rfl⟩, hm⟩
        rw [h a ha] at hm
        exact hm
      · intro hm
        have hb : b ∈ addrRange start size := by
          rw [hrange]
          exact List.mem_cons_self
        exact ⟨.mem b, mem_rangePlaces.mpr hb, by rw [h b hb]; exact hm⟩

/-- The restore completes, and the register has the marks `X` after it exactly
    if `P`. -/
def RestoredIff (ctx : Ctx ws) (ins : Ins) (r : Reg) (g : Globals ws N) (X : Set Nat) (P : Prop) :
    Prop :=
  ∃ g', execute ctx ins g = some g' ∧ (marksAt g'.state (.reg r) = X ↔ P)

/-- A run that spares the slot of the save, after which no branch is open. -/
structure Between (ctx : Ctx ws) (g₁ g₂ : Globals ws N) : Prop where
  run : ∃ ops, Runs.runs Operation.run ops g₁ = some g₂ ∧ Spares (slotOf ctx) ops g₁
  control : NoControl g₂.state

/-- **The exact condition of the stack round trip**: POP restores what PUSH has
    saved if the slot has a byte, or there was nothing to save; POPFD restores
    what PUSHFD has saved only if the flags still have it. -/
theorem stack_round_trip_iff {ctx ctx' : Ctx ws} (hslot : SameSlot ctx ctx') {g : Globals ws N}
    (hs : SizedState g.state) (hctl : NoControl g.state) :
    (∀ push pop r₁ r₂, IsPush push r₁ → IsPop pop r₂ → isStackReg r₂ = false →
        ∃ g₁, execute ctx push g = some g₁ ∧ ∀ g₂, Between ctx g₁ g₂ →
          RestoredIff ctx' pop r₂ g₂ (marksAt g.state (.reg r₁))
            (slotOf ctx ≠ [] ∨ marksAt g.state (.reg r₁) = ∅))
      ∧ ∀ pushfd popfd : Ins, pushfd.iclass = .PUSHFD → IsPopfd popfd →
        ∃ g₁, execute ctx pushfd g = some g₁ ∧ ∀ g₂, Between ctx g₁ g₂ →
          RestoredIff ctx' popfd (flagsReg ws) g₂ (marksAt g.state (.reg (flagsReg ws)))
            (marksAt g₂.state (.reg (flagsReg ws)) = marksAt g.state (.reg (flagsReg ws))) := by
  constructor
  · intro push pop r₁ r₂ hpush hpop hr₂
    obtain ⟨g₁, hsave, hs₁, hbytes⟩ := save_spec ctx hs hctl (calls_push hpush)
    refine ⟨g₁, hsave, fun g₂ hbetween => ?_⟩
    obtain ⟨ops, hrun, hspares⟩ := hbetween.run
    obtain ⟨hs₂, hkept⟩ := runs_keep hs₁ hrun hspares
    obtain ⟨g₃, hrestore, hm⟩ := pop_spec ctx' hs₂ hbetween.control hpop hr₂
    refine ⟨g₃, hrestore, ?_⟩
    rw [hm, hslot.ea, hslot.size]
    refine gathered_same fun a ha => ?_
    rw [hkept a ha, hbytes a ha]
  · intro pushfd popfd hpushfd hpopfd
    obtain ⟨g₁, hsave, hs₁, -⟩ := save_spec ctx hs hctl (calls_pushfd hpushfd)
    refine ⟨g₁, hsave, fun g₂ hbetween => ?_⟩
    obtain ⟨ops, hrun, hspares⟩ := hbetween.run
    obtain ⟨hs₂, -⟩ := runs_keep hs₁ hrun hspares
    obtain ⟨g₃, hrestore, hm⟩ := popfd_spec ctx' hs₂ hpopfd
    exact ⟨g₃, hrestore, by rw [hm]⟩

/-! ## The flags are lost -/

/-- An instruction whose slot is the 8 bytes at 100. -/
def eightBytes : Ctx .w64 :=
  { writesAt .w64 100 8 with
    memoryReadEA := 100
    memoryReadSize := 8 }

/-- PUSHFD and POPFD. -/
def pushfd : Ins := { onRegisters .PUSHFD [] with isMemoryWrite := true }

def popfd : Ins := { onRegisters .POPFD [] with isMemoryRead := true }

/-- The globals with tainted flags. -/
def taintedFlags : Globals .w64 1 :=
  { Globals.init .w64 1 with state := flagsTainted .w64 1 }

theorem noControl_taintedFlags : NoControl taintedFlags.state :=
  fun _ => Std.ExtTreeMap.getElem?_empty

theorem flags_taintedFlags : 0 ∈ marksAt taintedFlags.state (.reg .rflags) := by
  obtain ⟨u, hu, -, hmarks⟩ := setBit_sized WordSize.w64.bits_pos (sized_init 1) Nat.one_pos
  have hentry : entryAt taintedFlags.state (.reg (flagsReg .w64)) = some u := by
    simp [entryAt, taintedFlags, flagsTainted, hu]
  refine ⟨u, hentry, ?_⟩
  rw [hmarks]
  exact Or.inl rfl

/-- Data-flow calls open no branch. -/
theorem noControl_run {calls : List (Call ws)} (hdata : ∀ c ∈ calls, isData c = true)
    {s s' : TaintState ws N} (hs : SizedState s) (hctl : NoControl s)
    (h : run calls s = some s') : NoControl s' := by
  obtain ⟨s₁, hrun, -, hframe, -⟩ := run_frame hdata hs
  cases h.symm.trans hrun
  intro a
  have hout : ∀ c ∈ calls, Place.ctl a ∉ mayAssign c := by
    intro c hc
    cases c with
    | setTaintForRegister dest sets => exact fun ⟨_, _, _, h⟩ => nomatch h
    | setTaintForMemory start size sets => exact fun ⟨_, _, h⟩ => nomatch h
    | clearTaintForMemory start size => exact fun ⟨_, _, h⟩ => nomatch h
    | _ => exact fun h => nomatch h
  exact (hframe (.ctl a) hout).trans (hctl a)

/-- Clearing a register while no branch is open leaves it without marks. -/
theorem clear_marks {s s' : TaintState ws N} (hs : SizedState s) (hctl : NoControl s) {r : Reg}
    (h : step (.clearTaintForRegister r) s = some s') : marksAt s' (.reg r) = ∅ := by
  obtain ⟨s₁, hstep, -, hm⟩ := step_marks hs (.clearTaintForRegister r)
  cases h.symm.trans hstep
  rw [hm]
  by_cases hr : Place.reg r ∈ present s
  · have htarget : Place.reg r ∈ targets (.clearTaintForRegister r) s := ⟨rfl, hr⟩
    rw [overwrite_of_mem htarget]
    exact controlMarks_eq_empty hctl
  · rw [overwrite_of_notMem fun h => hr h.2, marksAt_of_absent hr]

theorem stack_round_trip_iff_flags :
    (∀ push pop r₁ r₂, IsPush push r₁ → IsPop pop r₂ → isStackReg r₂ = false →
        ∃ g₁, execute eightBytes push taintedFlags = some g₁ ∧ ∀ g₂, Between eightBytes g₁ g₂ →
          RestoredIff eightBytes pop r₂ g₂ (marksAt taintedFlags.state (.reg r₁))
            (slotOf eightBytes ≠ [] ∨ marksAt taintedFlags.state (.reg r₁) = ∅))
      ∧ ∀ pushfd popfd : Ins, pushfd.iclass = .PUSHFD → IsPopfd popfd →
        ∃ g₁, execute eightBytes pushfd taintedFlags = some g₁ ∧ ∀ g₂, Between eightBytes g₁ g₂ →
          RestoredIff eightBytes popfd .rflags g₂ (marksAt taintedFlags.state (.reg .rflags))
            (marksAt g₂.state (.reg .rflags) = marksAt taintedFlags.state (.reg .rflags)) :=
  stack_round_trip_iff ⟨rfl, rfl⟩ (flagsTainted_sized .w64 Nat.one_pos) noControl_taintedFlags

/-- Clearing the flags between PUSHFD and POPFD clears them for good. -/
theorem popfd_loses_flags :
    ∃ g₁ g₂ g₃ : Globals .w64 1, SizedState taintedFlags.state ∧ NoControl taintedFlags.state
      ∧ execute eightBytes pushfd taintedFlags = some g₁ ∧ Between eightBytes g₁ g₂
      ∧ execute eightBytes popfd g₂ = some g₃
      ∧ marksAt g₃.state (.reg .rflags) ≠ marksAt taintedFlags.state (.reg .rflags) := by
  have hs : SizedState taintedFlags.state := flagsTainted_sized .w64 Nat.one_pos
  have hpushfd : (dataflow .w64 pushfd).calls = unchecked (saveCalls .rflags) := calls_pushfd rfl
  have hpopfd : IsPopfd popfd := ⟨rfl, rfl⟩
  -- PUSHFD saves, the flags are cleared, and POPFD loads but does not assign
  obtain ⟨g₁, hsave, hs₁, -⟩ := save_spec eightBytes hs noControl_taintedFlags hpushfd
  have hctl₁ : NoControl g₁.state := by
    obtain ⟨s₁, hrun, rfl⟩ := Option.map_eq_some_iff.mp hsave
    exact noControl_run (isData_callsAt _ _) hs noControl_taintedFlags hrun
  obtain ⟨s₂, hclear, hs₂, -⟩ := step_marks hs₁ (.clearTaintForRegister .rflags)
  have hempty : marksAt s₂ (.reg .rflags) = ∅ := clear_marks hs₁ hctl₁ hclear
  have hbetween : Between eightBytes g₁ { g₁ with state := s₂ } := by
    refine ⟨⟨[.call (.clearTaintForRegister .rflags)], ?_, ?_, fun _ _ => trivial⟩, ?_⟩
    · rw [Runs.runs_cons, Operation.run, hclear]
      rfl
    · exact fun a _ h => nomatch h.1
    · have hrun : run [.clearTaintForRegister .rflags] g₁.state = some s₂ := by
        rw [run_cons, hclear]
        rfl
      refine noControl_run (fun c hc => ?_) hs₁ hctl₁ hrun
      rw [List.mem_singleton.mp hc]
      rfl
  obtain ⟨g₃, hrestore, hm⟩ : ∃ g₃, execute eightBytes popfd { g₁ with state := s₂ } = some g₃
      ∧ marksAt g₃.state (.reg .rflags) = marksAt s₂ (.reg .rflags) := popfd_spec _ hs₂ hpopfd
  refine ⟨g₁, _, g₃, hs, noControl_taintedFlags, hsave, hbetween, hrestore, fun hsame => ?_⟩
  have hflags := flags_taintedFlags
  rw [← hsame] at hflags
  have hnone : 0 ∈ marksAt s₂ (.reg .rflags) := hm ▸ hflags
  rw [hempty] at hnone
  exact Set.notMem_empty 0 hnone

end DytanStackRoundTrip
