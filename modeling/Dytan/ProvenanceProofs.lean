import Dytan.FlowPathsProofs
import Dytan.ToolHistoryProofs

/-! # Provenance — where every mark comes from

    The tool as a program of its own: whatever the threads do, what happens to
    the globals is a list of actions (taint operations, callbacks of file
    sources, handlers) that the completed calls determine (`run_actions`).

    Each action moves marks as one transfer: an analysis call from its origins
    to its targets, a source by putting fresh marks down, a handler by erasing.
    So a place has a mark after a run exactly if a path leads there from a place
    that had it at the start, or from a byte that a source gave it to
    (`mark_provenance`, `tool_provenance`). -/

namespace DytanProvenance

open DytanRegister DytanTaintState DytanMarkFlow DytanSyscallState
  DytanSyscallFunctions DytanSizeInvariant DytanOtherWriters DytanTool DytanToolHistory
open DytanFailedCall (PathCallback Environment)
open DytanPathMonitor (FileEvent openedAs)
open DytanSyscallMonitor (Begun)
open FlowPaths TwoPhase
open Runs (runs)

variable {ws : WordSize} {N : Nat}

/-- What changes the globals: a taint operation, or a handler. -/
inductive Action (ws : WordSize) where
  | operation (op : Op ws)
  | handler (sys : Sys) (env : Environment) (mem : AppMemory ws) (args : SyscallArguments ws)

/-- Run an action. -/
def Action.run : Action ws → Globals ws N → Option (Globals ws N)
  | .operation op, g => op.onGlobals g
  | .handler sys env mem args, g =>
      (observer ws sys).bind fun handle => handle env.sizes mem args g

/-- The actions that are writers of `memTaintMap`. -/
def Action.writer : Action ws → Option (Writer ws)
  | .operation (.setNewTaintForMemory addr size taintMark) =>
      some (.setNewTaintForMemory addr size taintMark)
  | .operation (.assignTagToByteRange start size name) => some (.assignTagToByteRange start size name)
  | .operation (.pathCallback callback env args) => some (.pathCallback callback env args)
  | .operation (.networkCallback callback start length) => some (.networkCallback callback start length)
  | .handler sys env mem args => some (.handler sys env mem args)
  | .operation (.call _) | .operation (.displayTagsForByteRange _ _) => none

/-- The action gives the byte at `addr` the mark `m`. -/
def Action.GivesMark (g : Globals ws N) (a : Action ws) (addr : Addr ws) (m : Nat) : Prop :=
  ∃ w X, a.writer = some w ∧ w.Gives g addr X ∧ m ∈ X

/-- A writer puts the marks it gives down as fresh. -/
def writerTransfer (g : Globals ws N) (w : Writer ws) : Transfer (Place ws) Nat where
  targets := {p | ∃ addr X, p = .mem addr ∧ w.Gives g addr X}
  origins := ∅
  fresh := fun p => {m | ∃ addr X, p = .mem addr ∧ w.Gives g addr X ∧ m ∈ X}

/-- An analysis call moves marks from its origins to its targets. -/
def Action.moves (g : Globals ws N) : Action ws → Transfer (Place ws) Nat
  | .operation (.call c) => move (targets c g.state) (origins c)
  | _ => move ∅ ∅

/-- How an action moves marks. -/
def Action.transfer (g : Globals ws N) (a : Action ws) : Transfer (Place ws) Nat :=
  a.writer.elim (a.moves g) (writerTransfer g)

/-- How a list of actions moves marks. -/
def transfers : List (Action ws) → Globals ws N → List (Transfer (Place ws) Nat)
  | [], _ => []
  | a :: rest, g => a.transfer g :: (a.run g).elim [] (transfers rest)

theorem writer_run {a : Action ws} {w : Writer ws} (h : a.writer = some w) (g : Globals ws N) :
    a.run g = w.run g := by
  cases a with
  | handler sys env mem args =>
      cases h
      rfl
  | operation op =>
      cases op with
      | call c => exact nomatch h
      | displayTagsForByteRange start size => exact nomatch h
      | _ =>
          cases h
          rfl

/-! ## One action -/

/-- Handlers change the taint map and no other part of the state. -/
theorem handler_memory {sys : Sys} {env : Environment} {mem : AppMemory ws}
    {args : SyscallArguments ws} {g g' : Globals ws N}
    (h : (Action.handler sys env mem args).run g = some g') :
    ∃ m, g'.state = { g.state with memTaintMap := m }
      ∧ ∀ (addr : Addr ws) b, m[addr]? = some b → g.state.memTaintMap[addr]? = some b := by
  obtain ⟨handle, hreg, h⟩ := Option.bind_eq_some_iff.mp h
  by_cases hclears : clears sys = true
  · rw [observer_clears hreg hclears] at h
    cases h
    refine ⟨_, rfl, fun addr b hb => ?_⟩
    by_cases haddr : addr ∈ erased (handlerRanges sys env.sizes args)
    · rw [(foldl_eraseRange_getElem? _ _ addr).1 haddr] at hb
      exact nomatch hb
    · rw [(foldl_eraseRange_getElem? _ _ addr).2 haddr] at hb
      exact hb
  · exact ⟨g.state.memTaintMap,
      handler_state hreg (Bool.eq_false_iff.mpr hclears) h, fun _ _ hb => hb⟩

/-- An action that is a writer changes the taint map, and keeps the sizes. -/
theorem writer_memory {a : Action ws} {w : Writer ws} (hw : a.writer = some w)
    {g g' : Globals ws N} (hs : SizedState g.state) (h : a.run g = some g') :
    SizedState g'.state ∧ ∃ m, g'.state = { g.state with memTaintMap := m } := by
  have hstores : Stores g g' →
      SizedState g'.state ∧ ∃ m, g'.state = { g.state with memTaintMap := m } := by
    intro hst
    obtain ⟨writes, -, hmem⟩ := hst.memory
    exact ⟨hst.sizedState hs, _, hmem⟩
  cases a with
  | handler sys env mem args =>
      obtain ⟨m, hm, hsub⟩ := handler_memory h
      refine ⟨?_, m, hm⟩
      rw [hm]
      refine ⟨fun q b hb => ?_, hs.tags⟩
      cases q with
      | mem addr => exact hs.entries (.mem addr) b (hsub addr b hb)
      | reg r => exact hs.entries (.reg r) b hb
      | ctl addr => exact hs.entries (.ctl addr) b hb
      | scr x => exact hs.entries (.scr x) b hb
  | operation op =>
      cases op with
      | call c => exact nomatch hw
      | displayTagsForByteRange start size => exact nomatch hw
      | setNewTaintForMemory addr size taintMark => exact hstores (stores_setNewTaintForMemory h)
      | assignTagToByteRange start size name => exact hstores (stores_assignTagToByteRange h)
      | pathCallback callback env args => exact hstores (stores_pathCallback h)
      | networkCallback callback start length => exact hstores (stores_networkCallback h)

/-- Changing the taint map leaves the marks of the other places. -/
theorem marksAt_of_memory {s : TaintState ws N} {p : Place ws} (hp : ∀ addr, p ≠ .mem addr)
    (m : TaintMap ws) :
    marksAt ({ s with memTaintMap := m } : TaintState ws N) p = marksAt s p := by
  cases p with
  | mem addr => exact absurd rfl (hp addr)
  | _ => rfl

/-- A writer is its transfer. -/
theorem writer_marks {a : Action ws} {w : Writer ws} (hw : a.writer = some w)
    {g g' : Globals ws N} (hs : SizedState g.state) (h : a.run g = some g') :
    marksAt g'.state = (writerTransfer g w).apply (marksAt g.state) := by
  obtain ⟨-, m, hm⟩ := writer_memory hw hs h
  rw [writer_run hw] at h
  have hspec := write_spec hs h
  funext p
  by_cases hp : p ∈ (writerTransfer g w).targets
  · obtain ⟨addr, X, rfl, hX⟩ := hp
    have htarget : Place.mem addr ∈ (writerTransfer g w).targets := ⟨addr, X, rfl, hX⟩
    rw [apply_of_mem htarget, (hspec.given addr X hX).1]
    ext t
    constructor
    · intro ht
      exact Or.inr ⟨addr, X, rfl, hX, ht⟩
    · rintro (⟨q, hq, -⟩ | ⟨addr', X', haddr, hX', ht⟩)
      · exact absurd hq (Set.notMem_empty q)
      · -- the byte got one set of marks only
        cases haddr
        rw [← (hspec.given addr X hX).1, (hspec.given addr X' hX').1]
        exact ht
  · rw [apply_of_notMem hp]
    by_cases hmem : ∃ addr, p = .mem addr
    · obtain ⟨addr, rfl⟩ := hmem
      exact hspec.kept addr fun X hX => hp ⟨addr, X, rfl, hX⟩
    · rw [hm]
      exact marksAt_of_memory (fun addr heq => hmem ⟨addr, heq⟩) m

/-- **One action is one transfer.** -/
theorem action_marks {a : Action ws} {g g' : Globals ws N} (hs : SizedState g.state)
    (h : a.run g = some g') :
    SizedState g'.state ∧ marksAt g'.state = (a.transfer g).apply (marksAt g.state) := by
  cases hw : a.writer with
  | some w =>
      rw [Action.transfer, hw, Option.elim_some]
      exact ⟨(writer_memory hw hs h).1, writer_marks hw hs h⟩
  | none =>
      cases a with
      | handler sys env mem args => exact nomatch hw
      | operation op =>
          cases op with
          | call c =>
              obtain ⟨s, hstep, rfl⟩ := Option.map_eq_some_iff.mp h
              obtain ⟨s', hstep', hs', hmarks⟩ := step_marks hs c
              cases hstep.symm.trans hstep'
              refine ⟨hs', hmarks.trans ?_⟩
              exact (move_apply (targets c g.state) (origins c) (marksAt g.state)).symm
          | displayTagsForByteRange start size =>
              obtain ⟨out, -, rfl⟩ := Option.map_eq_some_iff.mp h
              refine ⟨hs, ?_⟩
              show _ = (move ∅ ∅).apply (marksAt g.state)
              funext p
              exact (apply_of_notMem (Set.notMem_empty p) _).symm
          | _ => exact nomatch hw

/-! ## Lists of actions -/

/-- **A run of actions is a list of transfers.** -/
theorem run_marks (acts : List (Action ws)) {g g' : Globals ws N} (hs : SizedState g.state)
    (h : runs Action.run acts g = some g') :
    SizedState g'.state ∧ marksAt g'.state = applyAll (transfers acts g) (marksAt g.state) := by
  induction acts generalizing g with
  | nil =>
      cases h
      exact ⟨hs, rfl⟩
  | cons a rest ih =>
      rw [Runs.runs_cons, Option.bind_eq_some_iff] at h
      obtain ⟨g₁, hstep, hrest⟩ := h
      obtain ⟨hs₁, hmarks₁⟩ := action_marks hs hstep
      obtain ⟨hs', hmarks'⟩ := ih hs₁ hrest
      refine ⟨hs', ?_⟩
      rw [hmarks', transfers, hstep, applyAll_cons, ← hmarks₁]
      rfl

/-- Some action of the list gave a byte the mark, and it flowed on to `p`. -/
def GivenOn (acts : List (Action ws)) (g : Globals ws N) (m : Nat) (p : Place ws) : Prop :=
  ∃ before a after g₁ g₂ addr, acts = before ++ a :: after ∧ runs Action.run before g = some g₁
    ∧ a.run g₁ = some g₂ ∧ a.GivesMark g₁ addr m ∧ Flow (transfers after g₂) (.mem addr) p

/-- The fresh marks of an action are those it gives. -/
theorem mem_fresh_iff {a : Action ws} {g : Globals ws N} {m : Nat} {p : Place ws} :
    p ∈ (a.transfer g).targets ∧ m ∈ (a.transfer g).fresh p
      ↔ ∃ addr, p = .mem addr ∧ a.GivesMark g addr m := by
  cases hw : a.writer with
  | none =>
      refine iff_of_false ?_ ?_
      · rintro ⟨-, hm⟩
        rw [Action.transfer, hw, Option.elim_none] at hm
        cases a with
        | handler sys env mem args => exact nomatch hw
        | operation op => cases op <;> exact hm
      · rintro ⟨addr, -, w, X, hw', -⟩
        exact nomatch hw.symm.trans hw'
  | some w =>
      rw [Action.transfer, hw, Option.elim_some]
      constructor
      · rintro ⟨-, addr, X, rfl, hX, hm⟩
        exact ⟨addr, rfl, w, X, hw, hX, hm⟩
      · rintro ⟨addr, rfl, w', X, hw', hX, hm⟩
        cases hw.symm.trans hw'
        exact ⟨⟨addr, X, rfl, hX⟩, addr, X, rfl, hX, hm⟩

theorem freshFlow_iff_givenOn {acts : List (Action ws)} {g g' : Globals ws N}
    (h : runs Action.run acts g = some g') (m : Nat) (p : Place ws) :
    FreshFlow (transfers acts g) m p ↔ GivenOn acts g m p := by
  induction acts generalizing g with
  | nil =>
      refine iff_of_false ?_ ?_
      · rintro ⟨before, t, after, q, heq, -⟩
        exact absurd heq.symm (List.append_ne_nil_of_right_ne_nil _ (List.cons_ne_nil _ _))
      · rintro ⟨before, a, after, g₁, g₂, addr, heq, -⟩
        exact absurd heq.symm (List.append_ne_nil_of_right_ne_nil _ (List.cons_ne_nil _ _))
  | cons a rest ih =>
      rw [Runs.runs_cons, Option.bind_eq_some_iff] at h
      obtain ⟨g₁, hstep, hrest⟩ := h
      rw [transfers, hstep, Option.elim_some, freshFlow_cons_iff, ih hrest]
      constructor
      · rintro (⟨q, hq, hm, hflow⟩ | ⟨before, b, after, g₂, g₃, addr, rfl, hbefore, hb⟩)
        · obtain ⟨addr, rfl, hgives⟩ := mem_fresh_iff.mp ⟨hq, hm⟩
          exact ⟨[], a, rest, g, g₁, addr, rfl, rfl, hstep, hgives, hflow⟩
        · refine ⟨a :: before, b, after, g₂, g₃, addr, rfl, ?_, hb⟩
          rw [Runs.runs_cons, hstep]
          exact hbefore
      · rintro ⟨before, b, after, g₂, g₃, addr, heq, hbefore, hb, hgives, hflow⟩
        cases before with
        | nil =>
            cases heq
            cases hbefore
            cases hstep.symm.trans hb
            obtain ⟨hq, hm⟩ := mem_fresh_iff.mpr ⟨addr, rfl, hgives⟩
            exact Or.inl ⟨.mem addr, hq, hm, hflow⟩
        | cons c before =>
            cases heq
            rw [Runs.runs_cons, hstep] at hbefore
            exact Or.inr ⟨before, b, after, g₂, g₃, addr, rfl, hbefore, hb, hgives, hflow⟩

/-- **Provenance**: after any run of taint operations, source callbacks and
    handlers a place has a mark exactly if a path of the run leads to it from a
    place that had the mark at the start, or from a byte that an action of the
    run gave it to.  No mark comes from nowhere, and none is lost. -/
theorem mark_provenance {acts : List (Action ws)} {g g' : Globals ws N}
    (hs : SizedState g.state) (h : runs Action.run acts g = some g') (m : Nat) (p : Place ws) :
    m ∈ marksAt g'.state p
      ↔ (∃ q, m ∈ marksAt g.state q ∧ Flow (transfers acts g) q p) ∨ GivenOn acts g m p := by
  rw [(run_marks acts hs h).2, mem_applyAll_iff, freshFlow_iff_givenOn h]

/-! ## The tool as a list of actions -/

section ToolActions

variable {platform : Platform .w64} {installed : List Installed}

/-- The callbacks a completed call runs: those of a successful `read`, on a
    descriptor opened as the history says. -/
def sourceActions (numbers : SyscallNumbers ws) (env : Environment) (installed : List Installed)
    (past : List (FileEvent ws)) (b : Begun ws) (a : Answer ws) : List (Action ws) :=
  if b.num = numbers.number .read ∧ int a.ret ≠ minusOne then
    (installed.flatMap (callees (openedAs past (int b.arg0)))).map fun c =>
      .operation (.pathCallback c.1 env (endedArgs b a))
  else []

/-- The handler a completed call runs. -/
def handlerActions (numbers : SyscallNumbers ws) (env : Environment) (b : Begun ws)
    (a : Answer ws) : List (Action ws) :=
  ((mainTable ws).filter fun sys => b.num = numbers.number sys).map fun sys =>
    .handler sys env a.mem (endedArgs b a)

/-- The actions of a completed call or an operation. -/
def completedActions (numbers : SyscallNumbers ws) (env : Environment)
    (installed : List Installed) (past : List (FileEvent ws)) :
    Completed (BitVec 32) (Begun ws) (Answer ws) (Op ws) → List (Action ws)
  | .acts op => [.operation op]
  | .call _ b a => sourceActions numbers env installed past b a ++ handlerActions numbers env b a

/-- The actions of a list of them, after the history `past`. -/
def toolActions (numbers : SyscallNumbers ws) (env : Environment) (installed : List Installed) :
    List (FileEvent ws) → List (Completed (BitVec 32) (Begun ws) (Answer ws) (Op ws)) →
    List (Action ws)
  | _, [] => []
  | past, c :: cs =>
      completedActions numbers env installed past c
        ++ toolActions numbers env installed ((fileEvent numbers c).toList ++ past) cs

theorem handlerActions_eq {numbers : SyscallNumbers ws} {sys : Sys}
    (hsys : observed ws sys = true) {b : Begun ws} (hb : b.num = numbers.number sys)
    (env : Environment) (a : Answer ws) :
    handlerActions numbers env b a = [.handler sys env a.mem (endedArgs b a)] := by
  have hfilter : (mainTable ws).filter (fun s => b.num = numbers.number s) = [sys] := by
    have hcongr : ∀ s ∈ mainTable ws,
        decide (b.num = numbers.number s) = decide (s = sys) := by
      intro s hs
      rw [hb]
      refine decide_eq_decide.mpr ⟨fun heq => ?_, fun heq => by rw [heq]⟩
      exact (numbers.distinct sys s hsys (mainTable_observed hs) heq).symm
    rw [List.filter_congr hcongr, List.filter_eq,
      List.count_eq_one_of_mem (mainTable_nodup ws) (mem_mainTable hsys)]
    rfl
  rw [handlerActions, hfilter]
  rfl

theorem handlerActions_none {numbers : SyscallNumbers ws} {b : Begun ws}
    (hb : ∀ sys, observed ws sys = true → b.num ≠ numbers.number sys) (env : Environment)
    (a : Answer ws) : handlerActions numbers env b a = [] := by
  rw [handlerActions, List.map_eq_nil_iff, List.filter_eq_nil_iff]
  intro sys hsys
  simpa using hb sys (mainTable_observed hsys)

/-- A file source stops the tool only where an opened name cannot be read. -/
theorem pathAfter_eq_none {sys : Sys} {args : SyscallArguments ws} {mem : AppMemory ws}
    {m : DytanPathMonitor.PathMonitor PathCallback} (h : pathAfter sys args mem m = none) :
    sys = .open ∧ mem.cString args.arg0 = none := by
  by_cases hsys : sys = .open
  · subst hsys
    refine ⟨rfl, ?_⟩
    have hopen : DytanPathMonitor.openCallback mem args m = none := h
    rw [DytanPathMonitor.openCallback] at hopen
    by_cases hret : int args.ret = minusOne
    · rw [if_pos hret] at hopen
      cases hopen
    · rw [if_neg hret] at hopen
      cases hname : mem.cString args.arg0 with
      | none => rfl
      | some name =>
          rw [hname] at hopen
          cases hopen
  · have hsome : (pathAfter sys args mem m).isSome = true := by
      cases sys with
      | «open» => exact absurd rfl hsys
      | _ => rfl
    rw [h] at hsome
    exact absurd hsome Bool.false_ne_true

/-- One source, a call that is no successful `read`: nothing happens to the
    globals, unless an opened name cannot be read. -/
theorem onCall_quiet {past : List (FileEvent .w64)} {i : Installed} {m : SourceMonitor}
    (hm : Remembers platform past i m) (env : Environment) (mem : AppMemory .w64)
    {args : SyscallArguments .w64} {sys : Sys} (hsys : sys = .read → int args.ret = minusOne)
    (g : Globals .w64 N) :
    (∃ m', onCall env mem args sys m g = some (g, m'))
      ∨ (onCall env mem args sys m g = none ∧ sys = .open ∧ mem.cString args.arg0 = none) := by
  cases i with
  | network n =>
      cases m with
      | path m => exact False.elim hm
      | network m =>
          obtain rfl : m = _ := hm rfl
          exact Or.inl ⟨_, onCall_network env mem args sys rfl g⟩
  | path p =>
      cases m with
      | network m => exact False.elim hm
      | path m =>
          have hcalls : readCalls args m sys = [] := by
            cases sys with
            | read => exact if_pos (hsys rfl)
            | _ => rfl
          rw [onCall_path, hcalls]
          show (∃ m', (pathAfter sys args mem m).map _ = _)
            ∨ ((pathAfter sys args mem m).map _ = _ ∧ _)
          cases hafter : pathAfter sys args mem m with
          | some m' => exact Or.inl ⟨.path m', rfl⟩
          | none => exact Or.inr ⟨rfl, pathAfter_eq_none hafter⟩

/-- All sources, a call that is no successful `read`. -/
theorem eachSource_quiet {past : List (FileEvent .w64)} {ms : List SourceMonitor}
    (h : List.Forall₂ (Remembers platform past) installed ms) (env : Environment)
    (mem : AppMemory .w64) (args : SyscallArguments .w64) {sys : Sys}
    (hsys : sys = .read → int args.ret = minusOne) (g : Globals .w64 N) :
    (∃ ms', eachSource (onCall env mem args sys) ms g = some (g, ms'))
      ∨ (eachSource (onCall env mem args sys) ms g = none ∧ sys = .open
        ∧ mem.cString args.arg0 = none) := by
  induction h with
  | nil => exact Or.inl ⟨[], rfl⟩
  | cons him _ ih =>
      rw [eachSource]
      rcases onCall_quiet him env mem hsys g with ⟨m', hone⟩ | ⟨hone, hopen⟩
      · rw [hone]
        rcases ih with ⟨ms', hrest⟩ | ⟨hrest, hopen⟩
        · refine Or.inl ⟨m' :: ms', ?_⟩
          show (eachSource _ _ g).bind _ = _
          rw [hrest]
          rfl
        · refine Or.inr ⟨?_, hopen⟩
          show (eachSource _ _ g).bind _ = _
          rw [hrest]
          rfl
      · rw [hone]
        exact Or.inr ⟨rfl, hopen⟩

theorem runs_pathCallbacks (env : Environment) (args : SyscallArguments ws)
    (calls : List (PathCallback × String)) (g : Globals ws N) :
    runs Action.run (calls.map fun c => .operation (.pathCallback c.1 env args)) g
      = runPathCallbacks env args calls g := by
  rw [runs, List.foldlM_map]
  rfl

theorem runs_handler (sys : Sys) (env : Environment) (mem : AppMemory ws)
    (args : SyscallArguments ws) (g : Globals ws N) :
    runs Action.run [.handler sys env mem args] g
      = (observer ws sys).bind fun handle => handle env.sizes mem args g := bind_pure _

/-- Only a read that succeeds has source actions. -/
theorem sourceActions_nil {numbers : SyscallNumbers ws} {past : List (FileEvent ws)}
    {b : Begun ws} {a : Answer ws}
    (h : b.num = numbers.number .read → int a.ret = minusOne) (env : Environment)
    (installed : List Installed) : sourceActions numbers env installed past b a = [] :=
  if_neg fun hread => hread.2 (h hread.1)

/-- One completed call or operation: its actions. -/
theorem stepCompleted_actions {past : List (FileEvent .w64)} {t : Tool .w64 N}
    (ht : List.Forall₂ (Remembers platform past) installed t.sources) (env : Environment)
    (c : Completed (BitVec 32) (Begun .w64) (Answer .w64) (Op .w64)) :
    (stepCompleted (effects env (monitorOf platform installed)) c t).map Tool.globals
      = runs Action.run (completedActions platform.numbers env installed past c) t.globals := by
  cases c with
  | acts op =>
      refine Eq.trans ?_ (bind_pure _).symm
      show ((op.onGlobals t.globals).map _).map _ = op.onGlobals t.globals
      rw [Option.map_map]
      exact Option.map_id'
  | call tid b a =>
      have hnum := int_endedArgs b a
      show (complete env (monitorOf platform installed) (endedArgs b a) a.mem t).map _ = _
      rw [completedActions, Runs.runs_append]
      rcases number_cases platform.numbers b.num with ⟨sys, hsys, hb⟩ | hnone
      · rw [monitorOf, complete_eq hsys (hnum.trans hb) env a.mem none (activate_of_remembers ht),
          handlerActions_eq hsys hb]
        -- in both cases the handler comes last
        have hlast : ∀ (g : Globals .w64 N) (ms : List SourceMonitor),
            ((observer .w64 sys).bind fun handle =>
              (handle env.sizes a.mem (endedArgs b a) g).map fun g' => (⟨g', ms⟩ : Tool .w64 N)).map
                Tool.globals
              = runs Action.run [.handler sys env a.mem (endedArgs b a)] g := by
          intro g ms
          rw [runs_handler]
          cases observer .w64 sys with
          | none => rfl
          | some handle =>
              show ((handle env.sizes a.mem (endedArgs b a) g).map _).map _ = handle _ _ _ g
              rw [Option.map_map]
              exact Option.map_id'
        by_cases hread : sys = .read ∧ int a.ret ≠ minusOne
        · obtain ⟨rfl, hret⟩ := hread
          have hsource : sourceActions platform.numbers env installed past b a = _ :=
            if_pos ⟨hb, hret⟩
          rw [hsource, runs_pathCallbacks,
            eachSource_read ht env a.mem (endedArgs b a) hret t.globals]
          show _ = (runPathCallbacks env (endedArgs b a)
            (installed.flatMap (callees (openedAs past (int (endedArgs b a).arg0)))) t.globals).bind _
          cases runPathCallbacks env (endedArgs b a)
            (installed.flatMap (callees (openedAs past (int (endedArgs b a).arg0)))) t.globals with
          | none => rfl
          | some g => exact hlast g t.sources
        · have hfail : sys = .read → int a.ret = minusOne := fun h =>
            not_not.mp fun hret => hread ⟨h, hret⟩
          have hnil : sourceActions platform.numbers env installed past b a = [] := by
            refine sourceActions_nil (fun h => hfail ?_) env installed
            exact platform.numbers.distinct sys .read hsys rfl (hb.symm.trans h)
          rw [hnil]
          show _ = runs Action.run [.handler sys env a.mem (endedArgs b a)] t.globals
          rcases eachSource_quiet ht env a.mem (endedArgs b a) hfail t.globals with
            ⟨ms', heach⟩ | ⟨heach, rfl, hname⟩
          · rw [heach]
            exact hlast t.globals ms'
          · -- the name that a source cannot read, the handler cannot either
            rw [heach, runs_handler]
            show none = handleOpen env.sizes a.mem (endedArgs b a) t.globals
            rw [handleOpen, hname]
            rfl
      · have hunobserved : ∀ sys, observed .w64 sys = true →
            int (endedArgs b a).num ≠ platform.numbers.number sys := fun sys hsys =>
          hnum ▸ hnone sys hsys
        have hnil : sourceActions platform.numbers env installed past b a = [] :=
          sourceActions_nil (fun h => absurd h (hnone .read rfl)) env installed
        rw [monitorOf, complete_unobserved hunobserved, hnil, handlerActions_none hnone]
        rfl

/-- The completed calls and operations are their actions, one after the other. -/
theorem completed_actions {past : List (FileEvent .w64)} {t : Tool .w64 N}
    (ht : List.Forall₂ (Remembers platform past) installed t.sources) (env : Environment)
    (cs : List (Completed (BitVec 32) (Begun .w64) (Answer .w64) (Op .w64))) :
    (runs (stepCompleted (effects env (monitorOf platform installed))) cs t).map Tool.globals
      = runs Action.run (toolActions platform.numbers env installed past cs) t.globals := by
  induction cs generalizing past t with
  | nil => rfl
  | cons c rest ih =>
      rw [Runs.runs_cons, toolActions, Runs.runs_append, ← stepCompleted_actions ht]
      cases hstep : stepCompleted (effects env (monitorOf platform installed)) c t with
      | none => rfl
      | some t' => exact ih (stepCompleted_remembers ht hstep)

variable {uninitialised : Option ToolObserver} {es : List (ToolEvent .w64)}

/-- The actions of a run that has not stopped lead to its globals. -/
theorem actions_of_run {env : Environment} {g : Globals .w64 N}
    (hdefault : NeverDefault platform.numbers uninitialised es) {s : Machine .w64 N}
    (h : runs (step env) es (start platform.numbers uninitialised
      ⟨g, installed.map (Installed.monitor platform)⟩) = some s) :
    runs Action.run (toolActions platform.numbers env installed []
      (completed (fun _ => noCall) es)) g = some s.tool.globals := by
  have hglobals := congrArg (Option.map fun s => s.tool.globals) h
  rw [run_globals_default hdefault] at hglobals
  exact (completed_actions (forall₂_start platform installed) env _).symm.trans hglobals

/-- **The tool is a list of actions**: whatever the threads do, the globals
    after a run on a 64-bit build are those after the actions that the history
    of completed calls determines, and the run stops exactly where they do. -/
theorem run_actions (platform : Platform .w64) (installed : List Installed) (env : Environment)
    (g : Globals .w64 N) (hdefault : NeverDefault platform.numbers uninitialised es) :
    (runs (step env) es (start platform.numbers uninitialised
        ⟨g, installed.map (Installed.monitor platform)⟩)).map (fun s => s.tool.globals)
      = runs Action.run (toolActions platform.numbers env installed []
          (completed (fun _ => noCall) es)) g := by
  rw [run_globals_default hdefault]
  exact completed_actions (forall₂_start platform installed) env _

theorem run_actions_openThenRead :
    (runs (step DytanFailedCall.environment) openThenRead (start linuxPlatform.numbers
        strayObserver ⟨Globals.init .w64 1, confSource.map (Installed.monitor linuxPlatform)⟩)).map
        (fun s => s.tool.globals)
      = runs Action.run (toolActions linuxPlatform.numbers DytanFailedCall.environment confSource []
          (completed (fun _ => noCall) openThenRead)) (Globals.init .w64 1) :=
  run_actions linuxPlatform confSource _ _ openThenRead_neverDefault

/-- **Every mark has a source**: in any run of the tool on a 64-bit build,
    whatever the threads do, a place has a mark in the end exactly if it flowed
    there from a place that had it at the start, or from a byte that a source
    gave it to: a callback of a file source for a completed read of a file
    opened under an observed name, or the program's own call. -/
theorem tool_provenance (platform : Platform .w64) (installed : List Installed)
    (env : Environment) {g : Globals .w64 N} (hg : SizedState g.state)
    (hdefault : NeverDefault platform.numbers uninitialised es) {s : Machine .w64 N}
    (h : runs (step env) es (start platform.numbers uninitialised
      ⟨g, installed.map (Installed.monitor platform)⟩) = some s) (m : Nat) (p : Place .w64) :
    let acts := toolActions platform.numbers env installed [] (completed (fun _ => noCall) es)
    m ∈ marksAt s.tool.globals.state p
      ↔ (∃ q, m ∈ marksAt g.state q ∧ Flow (transfers acts g) q p) ∨ GivenOn acts g m p := by
  intro acts
  exact mark_provenance hg (actions_of_run hdefault h) m p

end ToolActions

/-- The program taints four bytes while thread 1 is in a call. -/
def taintsWhileInCall : List (ToolEvent .w64) :=
  [.begins 1 ⟨0, 3, 100, 8, 0, 0, 0⟩, .acts (.setNewTaintForMemory 100 4 0)]

theorem taintsWhileInCall_neverDefault :
    NeverDefault linuxPlatform.numbers strayObserver taintsWhileInCall := by
  refine Or.inr fun tid b a hmem => ?_
  -- the call of thread 1 does not complete
  exact nomatch List.mem_singleton.mp hmem

theorem tool_provenance_taintsWhileInCall :
    ∃ s, runs (step DytanFailedCall.environment) taintsWhileInCall
        (start linuxPlatform.numbers strayObserver
          ⟨Globals.init .w64 1, confSource.map (Installed.monitor linuxPlatform)⟩) = some s
      ∧ (0 ∈ marksAt s.tool.globals.state (.mem 100)
        ↔ (∃ q, 0 ∈ marksAt (TaintState.init .w64 1) q
            ∧ Flow (transfers (toolActions linuxPlatform.numbers DytanFailedCall.environment
              confSource [] (completed (fun _ => noCall) taintsWhileInCall))
              (Globals.init .w64 1)) q (.mem 100))
          ∨ GivenOn (toolActions linuxPlatform.numbers DytanFailedCall.environment confSource []
            (completed (fun _ => noCall) taintsWhileInCall)) (Globals.init .w64 1) 0
            (.mem 100)) := by
  have hinit : SizedState (Globals.init .w64 1).state := init_sized
  have hrun : ∃ s, runs (step DytanFailedCall.environment) taintsWhileInCall
      (start linuxPlatform.numbers strayObserver
        ⟨Globals.init .w64 1, confSource.map (Installed.monitor linuxPlatform)⟩) = some s :=
    ⟨_, rfl⟩
  obtain ⟨s, hs⟩ := hrun
  exact ⟨s, hs, tool_provenance linuxPlatform confSource DytanFailedCall.environment hinit
    taintsWhileInCall_neverDefault hs 0 (.mem 100)⟩

end DytanProvenance
