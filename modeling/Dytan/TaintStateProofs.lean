import Dytan.BitsetProofs
import Dytan.RegisterProofs
import Dytan.RunsProofs

/-! # The taint state and the analysis calls

    The global maps of the tool (`regTaintMap`, `memTaintMap`,
    `controlTaintMap`, `tagMemoryMap`), its scratch bitsets, and the
    functions that instrumentation inserts before instructions.

    The state is indexed by the build (`WordSize`) and by
    `NUMBER_OF_TAINT_MARKS`.  A bitset operation whose `assert` fails stops
    the tool, so every function that calls one is partial: `none` is the
    stop.  Tracing output is not part of the state.

    `IMPLICIT` is not defined, as built: the base and index registers of a
    memory operand are not read. -/

namespace DytanTaintState

open DytanBitset DytanRegister

/-- `ADDRINT`. -/
abbrev Addr (ws : WordSize) := BitVec ws.bits

/-- The order of the maps that addresses are the keys of. -/
instance transOrdAddr (ws : WordSize) : Std.TransOrd (Addr ws) := BitVec.instTransOrd

/-- The global scratch bitsets that pass marks between analysis calls. -/
inductive Scratch where
  | dest | src | eax | edx | base | idx | eflags | cnt | rax | rdx | rflags
deriving DecidableEq, Repr

/-- A record of a tag list (`memlist`).  A list ends in a node whose address
    and flag are uninitialised; it is modelled by the records before it. -/
structure MemRecord (ws : WordSize) where
  memAddress : Addr ws
  isCleared : Bool
deriving DecidableEq, Repr

variable {ws : WordSize} {N : Nat}

/-- The globals.  `regTaintMap` is only looked up and assigned, never walked,
    so it is a function; the other maps are ordered maps. -/
structure TaintState (ws : WordSize) (N : Nat) where
  regTaintMap : Reg → Option (Bitset ws.bits)
  memTaintMap : Std.ExtTreeMap (Addr ws) (Bitset ws.bits)
  controlTaintMap : Std.ExtTreeMap (Addr ws) (Bitset ws.bits)
  tagMemoryMap : Std.ExtTreeMap Nat (List (MemRecord ws))
  tagMemoryMapIsInitialized : Bool
  scratch : Scratch → Bitset ws.bits

/-- The globals when instrumentation starts: empty maps, fresh scratch. -/
def TaintState.init (ws : WordSize) (N : Nat) : TaintState ws N where
  regTaintMap := fun _ => none
  memTaintMap := ∅
  controlTaintMap := ∅
  tagMemoryMap := ∅
  tagMemoryMapIsInitialized := false
  scratch := fun _ => bitsetInit ws.bits N

/-- The addresses of `for (addr = start; addr < start + size; addr++)`: none
    when `start + size` wraps. -/
def addrRange (start size : Addr ws) : List (Addr ws) :=
  (List.range ((start + size).toNat - start.toNat)).map
    fun i => start + BitVec.ofNat ws.bits i

/-- `ClearTaintSet`. -/
def clearTaintSet (set : Scratch) (s : TaintState ws N) : TaintState ws N :=
  { s with scratch := Function.update s.scratch set (bitsetReset (s.scratch set)) }

/-- `TaintForRegister`: copy the marks of `reg` into a scratch set. -/
def taintForRegister (reg : Reg) (set : Scratch) (s : TaintState ws N) :
    Option (TaintState ws N) := do
  match s.regTaintMap reg with
  | some b =>
      let b' ← bitsetSetBits (s.scratch set) b
      some { s with scratch := Function.update s.scratch set b' }
  | none => some (clearTaintSet set s)

/-- One turn of the loop of `TaintForMemory`. -/
def joinByte (s : TaintState ws N) (acc : Bitset ws.bits) (addr : Addr ws) :
    Option (Bitset ws.bits) :=
  match s.memTaintMap[addr]? with
  | some b => bitsetUnion acc b
  | none => some acc

/-- `TaintForMemory`: the union of the marks of the bytes of the range. -/
def taintForMemory (start size : Addr ws) (set : Scratch) (s : TaintState ws N) :
    Option (TaintState ws N) := do
  let b ← (addrRange start size).foldlM (joinByte s) (bitsetReset (s.scratch set))
  some { s with scratch := Function.update s.scratch set b }

/-- The join of all entries of `controlTaintMap`. -/
def controlTaint (s : TaintState ws N) : Option (Bitset ws.bits) :=
  unionAll (bitsetInit ws.bits N) (s.controlTaintMap.toList.map Prod.snd)

/-- The value the `SetTaintFor…` functions assign: the join of their
    arguments and of the control taint. -/
def assignedTaint (args : List (Bitset ws.bits)) (s : TaintState ws N) :
    Option (Bitset ws.bits) := do
  let tmp ← unionAll (bitsetInit ws.bits N) args
  let control ← controlTaint s
  bitsetUnion tmp control

/-- Overwrite an entry in place, or copy into a new one. -/
def assignEntry (entry : Option (Bitset ws.bits)) (tmp : Bitset ws.bits) :
    Option (Bitset ws.bits) :=
  match entry with
  | some b => bitsetSetBits b tmp
  | none => some (bitsetCopy tmp)

/-- Assign `tmp` to one name of the register map. -/
def assignReg (tmp : Bitset ws.bits) (regs : Reg → Option (Bitset ws.bits)) (r : Reg) :
    Option (Reg → Option (Bitset ws.bits)) := do
  let b ← assignEntry (regs r) tmp
  some (Function.update regs r (some b))

/-- `SetTaintForRegister(dest, n, args…)`. -/
def setTaintForRegister (dest : Reg) (args : List (Bitset ws.bits))
    (s : TaintState ws N) : Option (TaintState ws N) := do
  if isStackReg dest then return s
  let tmp ← assignedTaint args s
  let regs ← (writtenRegs dest).foldlM (assignReg tmp) s.regTaintMap
  some { s with regTaintMap := regs }

/-- `ClearTaintForRegister`: an entry that exists becomes the control taint. -/
def clearTaintForRegister (reg : Reg) (s : TaintState ws N) :
    Option (TaintState ws N) := do
  let control ← controlTaint s
  match s.regTaintMap reg with
  | some b =>
      let b' ← bitsetSetBits b control
      some { s with regTaintMap := Function.update s.regTaintMap reg (some b') }
  | none => some s

/-- One turn of the loop of `ClearTaintForMemory`. -/
def clearByte (control : Bitset ws.bits)
    (m : Std.ExtTreeMap (Addr ws) (Bitset ws.bits)) (addr : Addr ws) :
    Option (Std.ExtTreeMap (Addr ws) (Bitset ws.bits)) :=
  match m[addr]? with
  | some b => do
      let b' ← bitsetSetBits b control
      some (m.insert addr b')
  | none => some m

/-- `ClearTaintForMemory`: entries that exist become the control taint. -/
def clearTaintForMemory (start size : Addr ws) (s : TaintState ws N) :
    Option (TaintState ws N) := do
  let control ← controlTaint s
  let m ← (addrRange start size).foldlM (clearByte control) s.memTaintMap
  some { s with memTaintMap := m }

/-! ## The tag index -/

/-- The cast `(int)` of an address difference. -/
def toInt32 (x : Addr ws) : Int := (x.setWidth 32).toInt

/-- The tainting branch of the tag update: flag the offsets some record of the
    list already has (as `int` offsets), append a live record for the others. -/
def tagTaint (start size : Addr ws) (records : List (MemRecord ws)) :
    List (MemRecord ws) :=
  let flagged (i : Nat) : Bool := records.any fun r =>
    decide (0 ≤ toInt32 (r.memAddress - start)
      ∧ toInt32 (r.memAddress - start) < toInt32 size
      ∧ toInt32 (r.memAddress - start) = i)
  records ++ ((addrRange start size).zipIdx.filter fun p => !flagged p.2).map
    fun p => ⟨p.1, false⟩

/-- The flag of the last record of `rest` for the address of `r`, else of `r`. -/
def lastFlag (r : MemRecord ws) (rest : List (MemRecord ws)) : Bool :=
  (((rest.filter fun e => e.memAddress = r.memAddress).getLast?).map
    MemRecord.isCleared).getD r.isCleared

/-- The clearing branch of the tag update, from the current record on: a live
    record of the range whose address was not cleared later gets a cleared
    record, appended to the very list the loop is walking. -/
def tagClear (start size : Addr ws) : List (MemRecord ws) → List (MemRecord ws)
  | [] => []
  | r :: rest =>
      if (start ≤ r.memAddress ∧ r.memAddress < start + size ∧ r.isCleared = false)
          ∧ lastFlag r rest = false then
        r :: tagClear start size (rest ++ [⟨r.memAddress, true⟩])
      else r :: tagClear start size rest
termination_by records => (records.countP (fun e => !e.isCleared), records.length)
decreasing_by
  · -- the current record was live and the appended one is not
    rename_i h
    refine Prod.Lex.left _ _ ?_
    rw [List.countP_cons, List.countP_append]
    simp [h.1.2.2]
  · rw [List.countP_cons]
    by_cases hc : r.isCleared = true
    · simp only [hc, Bool.not_true, Bool.false_eq_true, if_false, Nat.add_zero]
      exact Prod.Lex.right _ (by simp)
    · refine Prod.Lex.left _ _ ?_
      simp [hc]

/-- One turn of the loop over `tagMemoryMap`. -/
def updateTag (start size : Addr ws) (tmp : Bitset ws.bits)
    (m : Std.ExtTreeMap Nat (List (MemRecord ws))) (entry : Nat × List (MemRecord ws)) :
    Option (Std.ExtTreeMap Nat (List (MemRecord ws))) := do
  let tainted ← bitsetTestBit tmp entry.1
  some (m.insert entry.1
    (if tainted then tagTaint start size entry.2 else tagClear start size entry.2))

/-- The map before the loop: on the first call one empty list per mark. -/
def initTags (N : Nat) (s : TaintState ws N) : Std.ExtTreeMap Nat (List (MemRecord ws)) :=
  if s.tagMemoryMapIsInitialized then s.tagMemoryMap
  else (List.range N).foldl (fun m t => m.insert t []) s.tagMemoryMap

/-- One turn of the last loop of `SetTaintForMemory`. -/
def assignByte (tmp : Bitset ws.bits)
    (m : Std.ExtTreeMap (Addr ws) (Bitset ws.bits)) (addr : Addr ws) :
    Option (Std.ExtTreeMap (Addr ws) (Bitset ws.bits)) := do
  let b ← assignEntry m[addr]? tmp
  some (m.insert addr b)

/-- `SetTaintForMemory(start, size, n, args…)`. -/
def setTaintForMemory (start size : Addr ws) (args : List (Bitset ws.bits))
    (s : TaintState ws N) : Option (TaintState ws N) := do
  let tmp ← assignedTaint args s
  let tags ← (initTags N s).toList.foldlM (updateTag start size tmp) (initTags N s)
  let m ← (addrRange start size).foldlM (assignByte tmp) s.memTaintMap
  some { s with
    memTaintMap := m
    tagMemoryMap := tags
    tagMemoryMapIsInitialized := true }

/-- `PushControl(addr)`: join the marks of the flags into the entry of the
    branch, unless the flags are untainted. -/
def pushControl (addr : Addr ws) (s : TaintState ws N) : Option (TaintState ws N) := do
  match s.regTaintMap (flagsReg ws) with
  | none => some s
  | some flags =>
      if bitsetIsEmpty flags then return s
      let entry := (s.controlTaintMap[addr]?).getD (bitsetInit ws.bits N)
      let b ← bitsetUnion entry flags
      some { s with controlTaintMap := s.controlTaintMap.insert addr b }

/-- `PopControl(n, addrs…)`: erase the entries one by one, and return at the
    first address that has none. -/
def popControl : List (Addr ws) → TaintState ws N → TaintState ws N
  | [], s => s
  | addr :: rest, s =>
      if addr ∈ s.controlTaintMap then
        popControl rest { s with controlTaintMap := s.controlTaintMap.erase addr }
      else s

/-- An analysis call with its run-time arguments.  The sets are scratch sets,
    as every inserted call passes them. -/
inductive Call (ws : WordSize) where
  | clearTaintSet (set : Scratch)
  | taintForRegister (reg : Reg) (set : Scratch)
  | taintForMemory (start size : Addr ws) (set : Scratch)
  | setTaintForRegister (dest : Reg) (sets : List Scratch)
  | setTaintForMemory (start size : Addr ws) (sets : List Scratch)
  | clearTaintForRegister (reg : Reg)
  | clearTaintForMemory (start size : Addr ws)
  | pushControl (addr : Addr ws)
  | popControl (addrs : List (Addr ws))
deriving DecidableEq, Repr

/-- Execute one call. -/
def step : Call ws → TaintState ws N → Option (TaintState ws N)
  | .clearTaintSet set, s => some (clearTaintSet set s)
  | .taintForRegister reg set, s => taintForRegister reg set s
  | .taintForMemory start size set, s => taintForMemory start size set s
  | .setTaintForRegister dest sets, s => setTaintForRegister dest (sets.map s.scratch) s
  | .setTaintForMemory start size sets, s =>
      setTaintForMemory start size (sets.map s.scratch) s
  | .clearTaintForRegister reg, s => clearTaintForRegister reg s
  | .clearTaintForMemory start size, s => clearTaintForMemory start size s
  | .pushControl addr, s => pushControl addr s
  | .popControl addrs, s => some (popControl addrs s)

/-- Execute a sequence of calls. -/
def run (calls : List (Call ws)) (s : TaintState ws N) : Option (TaintState ws N) :=
  Runs.runs step calls s

@[simp] theorem run_cons (c : Call ws) (cs : List (Call ws)) (s : TaintState ws N) :
    run (c :: cs) s = (step c s).bind (run cs) := rfl

theorem run_append (xs ys : List (Call ws)) (s : TaintState ws N) :
    run (xs ++ ys) s = (run xs s).bind (run ys) := by
  rw [run, Runs.runs]
  rw [List.foldlM_append]
  rfl

/-- Two calls, one after the other. -/
theorem run_pair {c d : Call ws} {s t u : TaintState ws N} (hc : step c s = some t)
    (hd : step d t = some u) : run [c, d] s = some u := by
  rw [run_cons, hc, Option.bind_some, run_cons, hd]
  rfl

end DytanTaintState
