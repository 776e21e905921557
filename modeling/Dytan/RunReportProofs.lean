import Dytan.DumpTaintsProofs
import Dytan.ExplicitFlowProofs

/-! # From the configuration to the report

    The parts of the tool in one run: `set_framework_options` makes the sources,
    the threads of the program run, `SetTaintForMemory` keeps its lists in the
    nodes of the heap (`storeRun`), and at the end `dump_taints` writes the
    report.

    What the report lists of a byte is what the run gave it: it has a mark in
    the second listing exactly if a source gave the mark to some byte and it
    flowed on from there (`report_provenance`). -/

namespace DytanRunReport

open DytanBitset DytanRegister DytanTaintState DytanMarkFlow DytanSyscallState DytanTagIndex
  DytanTagPruning DytanPrunedTags DytanTagNodes DytanSizeInvariant DytanFrameworkOptions DytanSourceSetup
open DytanToolHistory DytanProvenance DytanTaintReport DytanDumpTaints
open DytanTool hiding step
open DytanFailedCall (Environment)
open TwoPhase (completed)
open Decimal (Byte)
open Runs (runs)

variable {ws : WordSize} {N : Nat}

/-! ## The lists of a run -/

/-- What an action does to the lists in the heap. -/
def storeAction (fuel : Nat) (g : Globals ws N) (s : TagStore ws) :
    Action ws → Option (TagStore ws)
  | .operation (.call (.setTaintForMemory start size sets)) => do
      let tmp ← assignedTaint (sets.map g.state.scratch) g.state
      let s := initLists N s
      let nodes ← s.tagMemoryMap.zipIdx.foldlM (updateList start size tmp fuel) s.nodes
      some { s with nodes := nodes }
  | _ => some s

/-- The lists after some actions. -/
def storeRun (fuel : Nat) : List (Action ws) → Globals ws N → TagStore ws → Option (TagStore ws)
  | [], _, s => some s
  | a :: rest, g, s => do
      let s' ← storeAction fuel g s a
      let g' ← a.run g
      storeRun fuel rest g' s'

theorem storeRun_cons (fuel : Nat) (a : Action ws) (rest : List (Action ws)) (g : Globals ws N)
    (s : TagStore ws) : storeRun fuel (a :: rest) g s
      = (storeAction fuel g s a).bind fun s' => (a.run g).bind fun g' =>
        storeRun fuel rest g' s' := rfl

/-- The call sets memory. -/
def setsMemory : Call ws → Bool
  | .setTaintForMemory _ _ _ => true
  | _ => false

/-- The lists of the two states are the same. -/
structure SameTags (s s' : TaintState ws N) : Prop where
  tagMemoryMap : s'.tagMemoryMap = s.tagMemoryMap
  isInitialized : s'.tagMemoryMapIsInitialized = s.tagMemoryMapIsInitialized

theorem SameTags.refl (s : TaintState ws N) : SameTags s s := ⟨rfl, rfl⟩

theorem popControl_sameTags (addrs : List (Addr ws)) (s : TaintState ws N) :
    SameTags s (popControl addrs s) := by
  induction addrs generalizing s with
  | nil => exact .refl s
  | cons addr rest ih =>
      rw [popControl]
      split
      · exact ⟨(ih _).tagMemoryMap, (ih _).isInitialized⟩
      · exact .refl s

/-- Only `SetTaintForMemory` changes lists. -/
theorem step_sameTags {c : Call ws} (hc : setsMemory c = false) {s s' : TaintState ws N}
    (h : step c s = some s') : SameTags s s' := by
  cases c with
  | setTaintForMemory start size sets => exact Bool.noConfusion hc
  | clearTaintSet set =>
      cases h
      exact ⟨rfl, rfl⟩
  | taintForRegister reg set =>
      rw [DytanTaintState.step, taintForRegister] at h
      split at h
      · obtain ⟨b, -, h⟩ := Option.bind_eq_some_iff.mp h
        cases h
        exact ⟨rfl, rfl⟩
      · cases h
        exact ⟨rfl, rfl⟩
  | taintForMemory start size set =>
      obtain ⟨b, -, h⟩ := Option.bind_eq_some_iff.mp h
      cases h
      exact ⟨rfl, rfl⟩
  | setTaintForRegister dest sets =>
      rw [DytanTaintState.step, setTaintForRegister] at h
      split at h
      · cases h
        exact .refl s
      · obtain ⟨tmp, -, h⟩ := Option.bind_eq_some_iff.mp h
        obtain ⟨regs, -, h⟩ := Option.bind_eq_some_iff.mp h
        cases h
        exact ⟨rfl, rfl⟩
  | clearTaintForRegister reg =>
      obtain ⟨control, -, h⟩ := Option.bind_eq_some_iff.mp h
      split at h
      · obtain ⟨b, -, h⟩ := Option.bind_eq_some_iff.mp h
        cases h
        exact ⟨rfl, rfl⟩
      · cases h
        exact .refl s
  | clearTaintForMemory start size =>
      obtain ⟨control, -, h⟩ := Option.bind_eq_some_iff.mp h
      obtain ⟨m, -, h⟩ := Option.bind_eq_some_iff.mp h
      cases h
      exact ⟨rfl, rfl⟩
  | pushControl addr =>
      rw [DytanTaintState.step, pushControl] at h
      split at h
      · cases h
        exact .refl s
      · split at h
        · cases h
          exact .refl s
        · obtain ⟨b, -, h⟩ := Option.bind_eq_some_iff.mp h
          cases h
          exact ⟨rfl, rfl⟩
  | popControl addrs =>
      cases h
      exact popControl_sameTags addrs s

/-- Lists that stay are still built, and still those in the heap. -/
theorem built_sameTags {calls : List (TagCall ws N)} {a a' : TaintState ws N} (h : Built calls a)
    (hsame : SameTags a a') (hs : SizedState a') : Built calls a' := by
  refine ⟨hs, ⟨?_, ?_⟩, ?_, ?_⟩
  · rw [hsame.isInitialized, hsame.tagMemoryMap]
    exact h.indexed.keys
  · rw [hsame.isInitialized, hsame.tagMemoryMap]
    exact h.indexed.empty
  · rw [hsame.tagMemoryMap]
    exact h.recorded
  · rw [hsame.tagMemoryMap]
    exact h.renewed

theorem represents_sameTags {s : TagStore ws} {a a' : TaintState ws N} (h : Represents s a)
    (hsame : SameTags a a') : Represents s a' := by
  refine ⟨h.length, ?_, ?_⟩
  · rw [hsame.tagMemoryMap]
    exact h.none
  · rw [hsame.tagMemoryMap]
    exact h.holds

/-- An action that sets no memory. -/
theorem action_sameTags {a : Action ws} (ha : ∀ start size sets,
    a ≠ .operation (.call (.setTaintForMemory start size sets))) {g g' : Globals ws N}
    (hs : SizedState g.state) (h : a.run g = some g') : SameTags g.state g'.state := by
  cases hw : a.writer with
  | some w =>
      obtain ⟨-, m, hm⟩ := writer_memory hw hs h
      rw [hm]
      exact ⟨rfl, rfl⟩
  | none =>
      cases a with
      | handler sys env mem args => exact nomatch hw
      | operation op =>
          cases op with
          | call c =>
              obtain ⟨s, hstep, rfl⟩ := Option.map_eq_some_iff.mp h
              refine step_sameTags (Bool.eq_false_iff.mpr fun hc => ?_) hstep
              cases c with
              | setTaintForMemory start size sets => exact ha start size sets rfl
              | _ => exact Bool.noConfusion hc
          | displayTagsForByteRange start size =>
              obtain ⟨out, -, rfl⟩ := Option.map_eq_some_iff.mp h
              exact .refl g.state
          | _ => exact nomatch hw

theorem storeAction_other {a : Action ws} (ha : ∀ start size sets,
    a ≠ .operation (.call (.setTaintForMemory start size sets))) (fuel : Nat) (g : Globals ws N)
    (s : TagStore ws) : storeAction fuel g s a = some s := by
  rw [storeAction]
  exact ha

/-- The call with the sets and the control taint that it finds. -/
def tagCallOf {g : Globals ws N} (hs : SizedState g.state) (start size : Addr ws)
    (sets : List Scratch) : TagCall ws N where
  start := start
  size := size
  args := sets.map g.state.scratch
  control := g.state.controlTaintMap
  args_sized := by
    intro b hb
    obtain ⟨x, -, rfl⟩ := List.mem_map.mp hb
    exact hs.entries (.scr x) _ rfl
  control_sized := fun a b hb => hs.entries (.ctl a) b hb

/-- **One action** keeps the lists in the heap those of the state. -/
theorem storeAction_represents {a : Action ws} {g g' : Globals ws N} {s : TagStore ws}
    {calls : List (TagCall ws N)} (hb : Built calls g.state) (hrep : Represents s g.state)
    (h : a.run g = some g') :
    ∃ s' calls', Returns (fun fuel => storeAction fuel g s a) s' ∧ Built calls' g'.state
      ∧ Represents s' g'.state := by
  by_cases ha : ∃ start size sets, a = .operation (.call (.setTaintForMemory start size sets))
  · obtain ⟨start, size, sets, rfl⟩ := ha
    obtain ⟨s₁, a₁, hlists, -, hcall, hrep₁⟩ :=
      updateLists_represents hb hrep (tagCallOf hb.sized start size sets)
    obtain ⟨s₂, hcall₂, hb₂⟩ := hb.step (tagCallOf hb.sized start size sets)
    obtain ⟨state, hstep, rfl⟩ := Option.map_eq_some_iff.mp h
    -- the call on records is the step of the state
    obtain rfl : state = a₁ := Option.some.inj (hstep.symm.trans hcall)
    obtain rfl : state = s₂ := Option.some.inj (hstep.symm.trans hcall₂)
    exact ⟨s₁, _, hlists, hb₂, hrep₁⟩
  · have hother : ∀ start size sets,
        a ≠ .operation (.call (.setTaintForMemory start size sets)) :=
      fun start size sets heq => ha ⟨start, size, sets, heq⟩
    have hsame := action_sameTags hother hb.sized h
    refine ⟨s, calls, ⟨0, fun fuel _ => storeAction_other hother fuel g s⟩, ?_,
      represents_sameTags hrep hsame⟩
    exact built_sameTags hb hsame (action_marks hb.sized h).1

/-- **Lists in nodes over a whole run.** -/
theorem storeRun_represents (acts : List (Action ws)) {g g' : Globals ws N} {s : TagStore ws}
    {calls : List (TagCall ws N)} (hb : Built calls g.state) (hrep : Represents s g.state)
    (h : runs Action.run acts g = some g') :
    ∃ s' calls', Returns (fun fuel => storeRun fuel acts g s) s' ∧ Built calls' g'.state
      ∧ Represents s' g'.state := by
  induction acts generalizing g s calls with
  | nil =>
      cases h
      exact ⟨s, calls, ⟨0, fun _ _ => rfl⟩, hb, hrep⟩
  | cons a rest ih =>
      rw [Runs.runs_cons, Option.bind_eq_some_iff] at h
      obtain ⟨g₁, hstep, hrest⟩ := h
      obtain ⟨s₁, calls₁, ⟨n, hn⟩, hb₁, hrep₁⟩ := storeAction_represents hb hrep hstep
      obtain ⟨s', calls', ⟨k, hk⟩, hb', hrep'⟩ := ih hb₁ hrep₁ hrest
      refine ⟨s', calls', ⟨max n k, fun fuel hf => ?_⟩, hb', hrep'⟩
      have hfirst : storeAction fuel g s a = some s₁ :=
        hn fuel (Nat.le_trans (Nat.le_max_left n k) hf)
      show storeRun fuel (a :: rest) g s = some s'
      rw [storeRun_cons, hfirst, hstep]
      exact hk fuel (Nat.le_trans (Nat.le_max_right n k) hf)

/-- No source raises the number of marks. -/
theorem setNumMarkings_le {numMarkings : String} {o o' : Options}
    (h : setNumMarkings numMarkings o = some o') : o'.numberOfTaintMarks ≤ o.numberOfTaintMarks := by
  rw [setNumMarkings] at h
  split at h
  · cases h
    exact Int.le_refl _
  · split at h
    · obtain ⟨num, -, h⟩ := Option.bind_eq_some_iff.mp h
      split at h
      · cases h
      · next hrange =>
          cases h
          show num ≤ o.numberOfTaintMarks
          omega
    · cases h
      exact Int.le_refl _

theorem setFrameworkOptions_le {conf : Config} {o : Options}
    (h : setFrameworkOptions conf = some o) : o.numberOfTaintMarks ≤ 4096 := by
  have hloop : ∀ (sources : List Source) (o₀ : Options),
      sources.foldlM (setSource conf.numMarkings) o₀ = some o →
      o.numberOfTaintMarks ≤ o₀.numberOfTaintMarks := by
    intro sources
    induction sources with
    | nil =>
        intro o₀ h₀
        cases h₀
        exact Int.le_refl _
    | cons src rest ih =>
        intro o₀ h₀
        rw [List.foldlM_cons] at h₀
        obtain ⟨o₁, hstep, hrest⟩ := Option.bind_eq_some_iff.mp h₀
        obtain ⟨o₂, hset, hstep⟩ := Option.bind_eq_some_iff.mp hstep
        obtain ⟨-, -, hstep⟩ := Option.bind_eq_some_iff.mp hstep
        cases hstep
        exact Int.le_trans (ih o₁ hrest) (setNumMarkings_le hset)
  exact hloop conf.sources .initial h

/-- The options of a set-up are those of the loop without the sources. -/
theorem setFrameworkOptions_of_setUp {conf : Configuration} {o : Options}
    {installed : List Installed} (h : setUp conf = .ok (o, installed)) :
    setFrameworkOptions conf.toConfig = some o := by
  rw [setFrameworkOptions_eq, ← setUp_sorted, h]
  rfl

theorem marks_lt {conf : Configuration} {o : Options} {installed : List Installed}
    (h : setUp conf = .ok (o, installed)) : o.numberOfTaintMarks.toNat < 2 ^ 31 := by
  have hle := setFrameworkOptions_le (setFrameworkOptions_of_setUp h)
  omega

theorem marksAt_init (p : Place ws) : marksAt (TaintState.init ws N) p = ∅ := by
  rw [Set.eq_empty_iff_forall_notMem]
  rintro m ⟨b, hb, hm⟩
  cases p with
  | reg r => exact nomatch hb
  | mem a => exact nomatch Std.ExtTreeMap.getElem?_empty.symm.trans hb
  | ctl a => exact nomatch Std.ExtTreeMap.getElem?_empty.symm.trans hb
  | scr x =>
      cases hb
      replace hm : m ∈ marks (bitsetInit ws.bits N) := hm
      rw [marks_init] at hm
      exact hm

/-- The report after some actions. -/
theorem report_of_actions (hN : N < 2 ^ 31) {acts : List (Action ws)} {g g' : Globals ws N}
    (hg : g.state = .init ws N) (h : runs Action.run acts g = some g') (heap : MemHeap ws)
    (fresh : Nat) {memory : ByteMemory ws} (hread : Readable memory g'.state) :
    ∃ store text r, Returns (fun fuel => storeRun fuel acts g (.initial heap fresh)) store
      ∧ Returns (fun fuel => dumpTaints memory fuel store g'.state.memTaintMap) text
      ∧ readReport text = some r
      ∧ (r.bytes.map Prod.fst).Pairwise (· < ·)
      ∧ ∀ x t, (∃ ms, (BitVec.toNat x, ms) ∈ r.bytes ∧ t ∈ ms) ↔ GivenOn acts g t (.mem x) := by
  have hb : Built [] g.state := hg ▸ built_init
  have hrep : Represents (.initial heap fresh) g.state := hg ▸ represents_initial heap fresh
  obtain ⟨store, calls, hstore, hb', hrep'⟩ := storeRun_represents acts hb hrep h
  obtain ⟨-, text, r, htext, hback, hbytes, -⟩ := report_of_built hN hb' hrep' hread
  refine ⟨store, text, r, hstore, htext, hback, hbytes.ascending, fun x t => ?_⟩
  rw [hbytes.exact, mark_provenance hb.sized h t (.mem x)]
  constructor
  · rintro (⟨q, hq, -⟩ | hgiven)
    · -- nothing has a mark when the program starts
      rw [hg, marksAt_init] at hq
      exact absurd hq (Set.notMem_empty t)
    · exact hgiven
  · exact Or.inr

/-- **From the configuration to the report**: on a 64-bit build, whatever the
    threads of the program do, after a run the report can be written, if the
    addresses in the lists can be read, and be read back.  It lists the bytes
    in ascending order, and a byte with a mark exactly if a source gave the mark
    to some byte and it flowed on from there. -/
theorem report_provenance (platform : Platform .w64) {conf : Configuration} {o : Options}
    {installed : List Installed} (hset : setUp conf = .ok (o, installed)) (env : Environment)
    {uninitialised : Option ToolObserver} {es : List (ToolEvent .w64)}
    (hdefault : NeverDefault platform.numbers uninitialised es)
    {s : Machine .w64 (initialised .w64 o).numberOfTaintMarks}
    (hrun : runs (DytanTool.step env) es
      (start platform.numbers uninitialised (Tool.initial platform o installed)) = some s)
    (heap : MemHeap .w64) (fresh : Nat) {memory : ByteMemory .w64}
    (hread : Readable memory s.tool.globals.state) :
    let g := (initialised .w64 o).globals
    let acts := toolActions platform.numbers env installed [] (completed (fun _ => noCall) es)
    ∃ store text r, Returns (fun fuel => storeRun fuel acts g (.initial heap fresh)) store
      ∧ Returns (fun fuel => dumpTaints memory fuel store s.tool.globals.state.memTaintMap) text
      ∧ readReport text = some r
      ∧ (r.bytes.map Prod.fst).Pairwise (· < ·)
      ∧ ∀ x t, (∃ ms, (BitVec.toNat x, ms) ∈ r.bytes ∧ t ∈ ms) ↔ GivenOn acts g t (.mem x) := by
  intro g acts
  exact report_of_actions (marks_lt hset) rfl (actions_of_run hdefault hrun) heap fresh hread

/-- Two marks, and a file whose reads are tainted. -/
def oneSource : Configuration := ⟨[⟨"path", "PerRead", [⟨"path", "conf"⟩]⟩], "2"⟩

def twoMarks : Options := ⟨2, some (.taintGenerator 1 2)⟩

theorem setUp_oneSource : setUp oneSource = .ok (twoMarks, confSource) := rfl

/-- A memory without an unmapped page. -/
def allReadable : ByteMemory .w64 := fun _ => some 65

theorem readable_allReadable (s : TaintState .w64 N) : Readable allReadable s := fun _ _ _ => rfl

theorem report_provenance_oneSource : ∃ (s : Machine .w64 2) (text : List Byte) (r : Report),
    runs (DytanTool.step DytanFailedCall.environment) taintsWhileInCall
        (start linuxPlatform.numbers strayObserver
          (Tool.initial linuxPlatform twoMarks confSource)) = some s
      ∧ readReport text = some r
      ∧ (r.bytes.map Prod.fst).Pairwise (· < ·) := by
  have hrun : ∃ s, runs (DytanTool.step DytanFailedCall.environment) taintsWhileInCall
      (start linuxPlatform.numbers strayObserver (Tool.initial linuxPlatform twoMarks confSource))
        = some s := ⟨_, rfl⟩
  obtain ⟨s, hs⟩ := hrun
  obtain ⟨-, text, r, -, -, hread, hbytes, -⟩ := report_provenance linuxPlatform setUp_oneSource
    DytanFailedCall.environment taintsWhileInCall_neverDefault hs (fun _ => ⟨⟨0, false⟩, none⟩) 0
    (readable_allReadable _)
  exact ⟨s, text, r, hs, hread, hbytes⟩

/-! ## What the report says to its reader -/

section Sound

open DytanExplicitFlow DytanInstructionResults
open Runs (EachStep)

variable {V : Type*}

end Sound

end DytanRunReport
