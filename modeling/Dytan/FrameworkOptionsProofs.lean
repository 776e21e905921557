import Dytan.SyscallStateProofs

/-! # The number of taint marks — `set_framework_options`

    `NUMBER_OF_TAINT_MARKS` is 4096 until a configuration says otherwise.  The
    loop over the sources reads the same string once for each source: every
    source sets the number again and makes a generator again.  `main` allocates
    the scratch sets after the loop, with the number it has then.

    A configuration that ends the tool (a number out of range, a string that is
    no number, a source that cannot be set up) gives `none`. -/

namespace DytanFrameworkOptions

open DytanRegister DytanTaintState DytanSyscallState

variable {ws : WordSize}

/-- `source`. -/
structure Source where
  type : String
  granularity : String
  details : List String

/-- `config`: what `set_framework_options` reads of it. -/
structure Config where
  sources : List Source
  numMarkings : String

/-- White space: the blank, and the characters from tab to carriage return. -/
def isSpace (c : Char) : Bool := c = ' ' || (9 ≤ c.toNat && c.toNat ≤ 13)

/-- The number a list of digits is, in base ten. -/
def digitsValue (cs : List Char) : Int := cs.foldl (fun n c => 10 * n + (c.toNat - 48)) 0

/-- `convertTo<int>`: an optional sign and digits after white space, and
    nothing else.  What does not fit an `int` fails like what is no number. -/
def convertTo (s : String) : Option Int :=
  let (negative, digits) :=
    match s.toList.dropWhile isSpace with
    | '-' :: ds => (true, ds)
    | '+' :: ds => (false, ds)
    | ds => (false, ds)
  let value := if negative then -digitsValue digits else digitsValue digits
  if !digits.isEmpty && digits.all Char.isDigit && -2 ^ 31 ≤ value && value < 2 ^ 31 then
    some value
  else none

/-- `taint_range_t`. -/
inductive TaintRange where
  | perRead | perByte | perOffset
deriving DecidableEq, Repr

/-- The granularity of a source; an unknown one is per read. -/
def Source.taintRange (src : Source) : TaintRange :=
  if src.granularity = "PerRead" then .perRead
  else if src.granularity = "PerByte" then .perByte
  else if src.granularity = "PerOffset" then .perOffset
  else .perRead

/-- The monitors and observers of one source.  A network source aborts when it
    is per offset; `details[0]` and `details[i + 1]` have to be there. -/
def setUpSource (src : Source) : Option Unit :=
  if src.type = "path" then
    if src.details.isEmpty then none else some ()
  else if src.type = "network" then
    match src.details with
    | [] => none
    | first :: _ =>
        if src.taintRange = .perOffset then none
        else if first ≠ "*" && src.details.length % 2 = 1 then none
        else some ()
  else some ()

/-- The generator objects: `TaintGenerator(start, max)` and
    `ConstantTaintGenerator(seed)`. -/
inductive Generator where
  | taintGenerator (start max : Int)
  | constantTaintGenerator (seed : Int)
deriving DecidableEq, Repr

/-- `NUMBER_OF_TAINT_MARKS` and `taintGen`. -/
structure Options where
  numberOfTaintMarks : Int
  taintGen : Option Generator
deriving DecidableEq, Repr

/-- Their values when the tool starts. -/
def Options.initial : Options where
  numberOfTaintMarks := 4096
  taintGen := none

/-- What one turn of the loop does with the string of the taint marks. -/
def setNumMarkings (numMarkings : String) (o : Options) : Option Options :=
  if numMarkings = "1" then some { o with taintGen := some (.constantTaintGenerator 5) }
  else if numMarkings ≠ "" then do
    let num ← convertTo numMarkings
    -- `exit(1)`
    if num < 1 ∨ num > o.numberOfTaintMarks then none
    else some { numberOfTaintMarks := num, taintGen := some (.taintGenerator 1 num) }
  else some o

/-- One turn of the loop. -/
def setSource (numMarkings : String) (o : Options) (src : Source) : Option Options := do
  let o' ← setNumMarkings numMarkings o
  setUpSource src
  some o'

/-- `set_framework_options`. -/
def setFrameworkOptions (conf : Config) : Option Options :=
  conf.sources.foldlM (setSource conf.numMarkings) Options.initial

/-! ## What the loop keeps -/

/-- All marks of the generator are below `n`. -/
def Generator.Below (n : Int) : Generator → Prop
  | .taintGenerator start max => 0 ≤ start ∧ 0 < max ∧ max ≤ n
  | .constantTaintGenerator seed => 0 ≤ seed ∧ seed < n

/-- The number is positive, the generator's marks are below it, and it is
    still 4096 where the constant generator is made. -/
structure Legal (numMarkings : String) (o : Options) : Prop where
  positive : 0 < o.numberOfTaintMarks
  marks : ∀ gen, o.taintGen = some gen → gen.Below o.numberOfTaintMarks
  constant : numMarkings = "1" → o.numberOfTaintMarks = 4096

theorem legal_initial (numMarkings : String) : Legal numMarkings .initial where
  positive := by decide
  marks := nofun
  constant := fun _ => rfl

theorem legal_setNumMarkings {numMarkings : String} {o o' : Options} (h : Legal numMarkings o)
    (hset : setNumMarkings numMarkings o = some o') : Legal numMarkings o' := by
  rw [setNumMarkings] at hset
  by_cases hone : numMarkings = "1"
  · rw [if_pos hone] at hset
    cases hset
    refine ⟨h.positive, fun gen hgen => ?_, h.constant⟩
    cases hgen
    show 0 ≤ (5 : Int) ∧ (5 : Int) < o.numberOfTaintMarks
    rw [h.constant hone]
    decide
  · rw [if_neg hone] at hset
    by_cases hempty : numMarkings ≠ ""
    · rw [if_pos hempty] at hset
      obtain ⟨num, -, hset⟩ := Option.bind_eq_some_iff.mp hset
      by_cases hrange : num < 1 ∨ num > o.numberOfTaintMarks
      · rw [if_pos hrange] at hset
        exact nomatch hset
      · rw [if_neg hrange] at hset
        cases hset
        refine ⟨?_, fun gen hgen => ?_, fun h1 => absurd h1 hone⟩
        · show 0 < num
          omega
        · cases hgen
          show 0 ≤ (1 : Int) ∧ 0 < num ∧ num ≤ num
          omega
    · rw [if_neg hempty] at hset
      cases hset
      exact h

/-- **Every accepted configuration leaves legal options**: each source sets
    them anew. -/
theorem legal_setFrameworkOptions {conf : Config} {o : Options}
    (h : setFrameworkOptions conf = some o) : Legal conf.numMarkings o := by
  have hloop : ∀ (srcs : List Source) {o₀ : Options}, Legal conf.numMarkings o₀ →
      srcs.foldlM (setSource conf.numMarkings) o₀ = some o → Legal conf.numMarkings o := by
    intro srcs
    induction srcs with
    | nil =>
        intro o₀ h₀ hfold
        cases hfold
        exact h₀
    | cons src rest ih =>
        intro o₀ h₀ hfold
        rw [List.foldlM_cons] at hfold
        obtain ⟨o₁, hstep, hrest⟩ := Option.bind_eq_some_iff.mp hfold
        obtain ⟨o₂, hset, hstep⟩ := Option.bind_eq_some_iff.mp hstep
        obtain ⟨-, -, hstep⟩ := Option.bind_eq_some_iff.mp hstep
        cases hstep
        exact ih (legal_setNumMarkings h₀ hset) hrest
  exact hloop conf.sources (legal_initial _) h

/-- The tool: the global number, and the other globals. -/
structure Process (ws : WordSize) where
  numberOfTaintMarks : Nat
  globals : Globals ws numberOfTaintMarks

/-- The generator as the callbacks use it, whose type carries its bound. -/
def Generator.bounded (N : Nat) : Generator → Option (TaintGenerator N)
  | .taintGenerator start max =>
      if h : 0 < max.toNat ∧ max.toNat ≤ N then
        some (.counting start.toNat max.toNat h.1 h.2)
      else none
  | .constantTaintGenerator seed =>
      if h : seed.toNat < N then some (.constant seed.toNat h) else none

/-- The scratch sets are allocated with the number the options leave. -/
def initialised (ws : WordSize) (o : Options) : Process ws where
  numberOfTaintMarks := o.numberOfTaintMarks.toNat
  globals := { Globals.init ws o.numberOfTaintMarks.toNat with
    taintGen := o.taintGen.bind (Generator.bounded o.numberOfTaintMarks.toNat) }

/-- `main`, up to the start of the program: first the options, then the scratch
    sets. -/
def main (ws : WordSize) (conf : Config) : Option (Process ws) :=
  (setFrameworkOptions conf).map (initialised ws)

/-- No generator is lost: the bound its type carries holds. -/
theorem taintGen_initialised {conf : Config} {o : Options}
    (h : setFrameworkOptions conf = some o) :
    (initialised ws o).globals.taintGen.isSome = o.taintGen.isSome := by
  have hlegal := legal_setFrameworkOptions h
  show (o.taintGen.bind (Generator.bounded o.numberOfTaintMarks.toNat)).isSome = _
  cases hgen : o.taintGen with
  | none => rfl
  | some gen =>
      have hbelow := hlegal.marks gen hgen
      rw [Option.bind_some]
      cases gen with
      | taintGenerator start max =>
          obtain ⟨-, hpos, hle⟩ := hbelow
          rw [Generator.bounded, dif_pos (by omega)]
          rfl
      | constantTaintGenerator seed =>
          obtain ⟨hneg, hlt⟩ := hbelow
          rw [Generator.bounded, dif_pos (by omega)]
          rfl

end DytanFrameworkOptions
