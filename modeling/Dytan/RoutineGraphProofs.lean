import Dytan.BasicBlockProofs
import Dytan.BreadthFirstProofs

/-! # The routine graph — three passes over a routine

    `mapper` flags the branches of a routine and their targets, `BlockBuilder`
    groups its instructions into blocks, and `buildPostDominanceTree` walks
    the predecessors from the return node.

    The flags 1, 2, 4 and 5 stand for a call, a return, an indirect call and
    an indirect branch; 2 is also the starting address of the return node.
    `BlockBuilder` is partial: `none` is the use of an instruction that is not
    there (`INS_Next` of the last one).

    A set of block pointers is iterated in an order the program does not
    choose: every function that iterates one takes an `IterationOrder`. -/

namespace DytanRoutineGraph

open DytanRegister DytanTaintState DytanBasicBlock PostDominance

variable {ws : WordSize}

/-- An instruction of a routine, as far as the routine graph looks at it. -/
structure RtnIns (ws : WordSize) where
  address : Addr ws
  nextAddress : Addr ws
  targetAddress : Addr ws
  isBranch : Bool
  isCall : Bool
  isRet : Bool
  isDirectBranchOrCall : Bool
  hasFallThrough : Bool
  isCondBranch : Bool
deriving DecidableEq

/-- A routine: its first instruction and the others, at distinct addresses
    above the flags. -/
structure Routine (ws : WordSize) where
  head : RtnIns ws
  tail : List (RtnIns ws)
  nodup : ((head :: tail).map RtnIns.address).Nodup
  above : ∀ ins ∈ head :: tail, 5 < ins.address

/-- All instructions of a routine. -/
abbrev Routine.instructions (r : Routine ws) : List (RtnIns ws) := r.head :: r.tail

/-- `map<ADDRINT, set<ADDRINT>>`.  A `set<ADDRINT>` is its elements, ascending;
    a key that is not there reads as the empty set. -/
abbrev AddrSets (ws : WordSize) := Std.ExtTreeMap (Addr ws) (List (Addr ws))

/-- `branches` and `targets`. -/
structure JumpMaps (ws : WordSize) where
  branches : AddrSets ws
  targets : AddrSets ws

/-- `set<ADDRINT>::insert`. -/
def insertAddr (a : Addr ws) : List (Addr ws) → List (Addr ws)
  | [] => [a]
  | b :: set =>
      if a < b then a :: b :: set else if a = b then b :: set else b :: insertAddr a set

/-- `m[key].insert(a)`. -/
def insertAt (key a : Addr ws) (m : AddrSets ws) : AddrSets ws :=
  m.insert key (insertAddr a (m.getD key []))

/-- `branches[addr].insert(a)`. -/
def addBranch (addr a : Addr ws) (m : JumpMaps ws) : JumpMaps ws :=
  { m with branches := insertAt addr a m.branches }

/-- `targets[target].insert(addr)`. -/
def addTarget (target addr : Addr ws) (m : JumpMaps ws) : JumpMaps ws :=
  { m with targets := insertAt target addr m.targets }

/-- The fall-through of a branch or call. -/
def addFallThrough (ins : RtnIns ws) (m : JumpMaps ws) : JumpMaps ws :=
  if ins.hasFallThrough then
    addTarget ins.nextAddress ins.address (addBranch ins.address ins.nextAddress m)
  else m

/-- `if(INS_IsBranch(ins))` of `mapper`. -/
def mapBranch (ins : RtnIns ws) (m : JumpMaps ws) : JumpMaps ws :=
  if ins.isBranch then
    if ins.isDirectBranchOrCall then
      addFallThrough ins (addTarget ins.targetAddress ins.address
        (addBranch ins.address ins.targetAddress m))
    else addFallThrough ins (addBranch ins.address 5 m)
  else m

/-- `if(INS_IsCall(ins))` of `mapper`. -/
def mapCall (ins : RtnIns ws) (m : JumpMaps ws) : JumpMaps ws :=
  if ins.isCall then
    if ins.isDirectBranchOrCall then addFallThrough ins (addBranch ins.address 1 m)
    else addFallThrough ins (addBranch ins.address 4 m)
  else m

/-- `if(INS_IsRet(ins))` of `mapper`. -/
def mapRet (ins : RtnIns ws) (m : JumpMaps ws) : JumpMaps ws :=
  if ins.isRet then addBranch ins.address 2 m else m

/-- `mapper`. -/
def mapper (ins : RtnIns ws) (m : JumpMaps ws) : JumpMaps ws :=
  mapRet ins (mapCall ins (mapBranch ins m))

/-- The first pass: `mapper` on every instruction. -/
def jumpMaps (r : Routine ws) : JumpMaps ws :=
  r.instructions.foldl (fun m ins => mapper ins m) ⟨∅, ∅⟩

/-! ## The block builder -/

/-- A `RoutineGraph`, with the heap of its blocks: those below `next` are
    allocated. -/
structure RoutineGraph (ws : WordSize) where
  next : BlockId
  heap : Std.ExtTreeMap BlockId (BasicBlock ws)
  addressMap : Std.ExtTreeMap (Addr ws) BlockId
  allBlocks : List BlockId
  entranceNode : BlockId
  returnNode : BlockId

/-- The block a pointer points to. -/
def RoutineGraph.blocks (g : RoutineGraph ws) : Blocks ws := fun b => g.heap.getD b (.new ws)

/-- `new BasicBlock()` with both addresses set. -/
def newBlock (starting ending : Addr ws) (g : RoutineGraph ws) : BlockId × RoutineGraph ws :=
  (g.next, { g with
    next := g.next + 1
    heap := g.heap.insert g.next ⟨[], [], starting, ending⟩ })

/-- `addressMap[a] = b`. -/
def setAddress (a : Addr ws) (b : BlockId) (g : RoutineGraph ws) : RoutineGraph ws :=
  { g with addressMap := g.addressMap.insert a b }

/-- `allBlocks.insert(b)`. -/
def insertBlock (b : BlockId) (g : RoutineGraph ws) : RoutineGraph ws :=
  { g with allBlocks := g.allBlocks.insert b }

/-- Change the fields of block `b`. -/
def modifyBlock (b : BlockId) (f : BasicBlock ws → BasicBlock ws) (g : RoutineGraph ws) :
    RoutineGraph ws :=
  { g with heap := g.heap.insert b (f (g.blocks b)) }

/-- `setStarting`. -/
def setStarting (b : BlockId) (a : Addr ws) : RoutineGraph ws → RoutineGraph ws :=
  modifyBlock b fun x => { x with startingAddress := a }

/-- `setEnding`. -/
def setEnding (b : BlockId) (a : Addr ws) : RoutineGraph ws → RoutineGraph ws :=
  modifyBlock b fun x => { x with endingAddress := a }

/-- `b->insertSuccs(c)`. -/
def insertSuccs (b c : BlockId) : RoutineGraph ws → RoutineGraph ws :=
  modifyBlock b fun x => { x with successors := x.successors.insert c }

/-- `b->insertPreds(c)`. -/
def insertPreds (b c : BlockId) : RoutineGraph ws → RoutineGraph ws :=
  modifyBlock b fun x => { x with predecessors := x.predecessors.insert c }

/-- `Get_BasicBlock_At`. -/
def getBasicBlockAt (a : Addr ws) (g : RoutineGraph ws) : BlockId × RoutineGraph ws :=
  match g.addressMap[a]? with
  | some b => (b, g)
  | none =>
      -- its addresses are set when the loop reaches it
      let (b, g) := newBlock 0 0 g
      (b, insertBlock b (setAddress a b g))

/-- `target == 1` of `BranchIns`: a call.  The predecessor of the block that
    follows is the calling block, its successor the block of the call. -/
def callBranch (current : BlockId) (nextIns : Option (RtnIns ws)) (g : RoutineGraph ws) :
    Option (RoutineGraph ws) := do
  let (calledFunction, g) := newBlock 1 1 g
  let g := insertPreds calledFunction current (insertSuccs current calledFunction g)
  let fallThrough ← nextIns
  let (othertargetBlock, g) := getBasicBlockAt fallThrough.address g
  let g := insertPreds othertargetBlock current g
  some (insertSuccs calledFunction othertargetBlock g)

/-- `target == 2`: a return. -/
def returnBranch (current : BlockId) (g : RoutineGraph ws) : Option (RoutineGraph ws) := do
  let returnBlock ← g.addressMap[(2 : Addr ws)]?
  some (insertSuccs current returnBlock (insertPreds returnBlock current g))

/-- The block of an indirect call or branch. -/
def indirectTarget (flag : Addr ws) (current : BlockId) (g : RoutineGraph ws) :
    BlockId × RoutineGraph ws :=
  let (indirectTarget, g) := newBlock flag flag g
  let g := insertPreds indirectTarget current (insertBlock indirectTarget g)
  (indirectTarget, insertSuccs current indirectTarget g)

/-- `target == 4`: an indirect call. -/
def indirectCallBranch (current : BlockId) (nextIns : Option (RtnIns ws))
    (g : RoutineGraph ws) : Option (RoutineGraph ws) := do
  let (indirectTarget, g) := indirectTarget 4 current g
  let fallThrough ← nextIns
  let (othertargetBlock, g) := getBasicBlockAt fallThrough.address g
  let g := insertPreds othertargetBlock current g
  some (insertSuccs indirectTarget othertargetBlock g)

/-- An edge to the block at `a`. -/
def edgeTo (a : Addr ws) (current : BlockId) (g : RoutineGraph ws) : RoutineGraph ws :=
  let (targetBlock, g) := getBasicBlockAt a g
  insertSuccs current targetBlock (insertPreds targetBlock current g)

/-- Any other target: an edge to it and to the second target.  A branch with
    one target, the start of its own block, gets an edge to the next
    instruction. -/
def regularBranch (current : BlockId) (target : Addr ws) (others : List (Addr ws))
    (nextIns : Option (RtnIns ws)) (g : RoutineGraph ws) : Option (RoutineGraph ws) :=
  let g := edgeTo target current g
  match others with
  | other :: _ => some (edgeTo other current g)
  | [] =>
      -- a jump to the start of its own block
      if target = (g.blocks current).startingAddress then do
        let fallThrough ← nextIns
        some (edgeTo fallThrough.address current g)
      else some g

/-- `BranchIns`, for a non-empty set of targets. -/
def branchIns (m : JumpMaps ws) (currentIns : RtnIns ws) (nextIns : Option (RtnIns ws))
    (current : BlockId) (g : RoutineGraph ws) : Option (RoutineGraph ws) :=
  let g := setAddress currentIns.address current (setEnding current currentIns.address g)
  match m.branches.getD currentIns.address [] with
  | [] => none
  | target :: others =>
      if target = 1 then callBranch current nextIns g
      else if target = 2 then returnBranch current g
      else if target = 4 then indirectCallBranch current nextIns g
      else if target = 5 then some (indirectTarget 5 current g).2
      else regularBranch current target others nextIns g

/-- End the block at a branch instruction, if it is one. -/
def endAtBranch (m : JumpMaps ws) (currentIns : RtnIns ws) (nextIns : Option (RtnIns ws))
    (current : BlockId) (g : RoutineGraph ws) :
    Option (Option BlockId × RoutineGraph ws) :=
  if m.branches.getD currentIns.address [] ≠ [] then do
    let g ← branchIns m currentIns nextIns current g
    some (none, g)
  else some (some current, g)

/-- One turn of the loop of `BlockBuilder`: the block being built, if any, and
    the graph. -/
def blockStep (m : JumpMaps ws) (previous currentIns : RtnIns ws)
    (nextIns : Option (RtnIns ws)) (currentBlock : Option BlockId) (g : RoutineGraph ws) :
    Option (Option BlockId × RoutineGraph ws) :=
  match currentBlock with
  | none =>
      let (b, g) := getBasicBlockAt currentIns.address g
      endAtBranch m currentIns nextIns b (setStarting b currentIns.address g)
  | some b =>
      -- a target ends the block before it, also when it is a branch itself
      if m.targets.getD currentIns.address [] ≠ [] then
        let g := setEnding b previous.address g
        let (newBlock, g) := getBasicBlockAt currentIns.address g
        let g := insertPreds newBlock b (insertSuccs b newBlock g)
        endAtBranch m currentIns nextIns newBlock (setStarting newBlock currentIns.address g)
      else if m.branches.getD currentIns.address [] ≠ [] then
        endAtBranch m currentIns nextIns b g
      else some (some b, setAddress currentIns.address b g)

/-- The loop of `BlockBuilder`, and the end of the last block. -/
def blockLoop (m : JumpMaps ws) : RtnIns ws → List (RtnIns ws) → Option BlockId →
    RoutineGraph ws → Option (RoutineGraph ws)
  | previous, [], currentBlock, g =>
      match currentBlock with
      | none => some g
      | some b => some (setEnding b previous.address g)
  | previous, currentIns :: rest, currentBlock, g => do
      let (currentBlock, g) ← blockStep m previous currentIns rest.head? currentBlock g
      blockLoop m currentIns rest currentBlock g

/-- A graph without a block. -/
def noGraph (ws : WordSize) : RoutineGraph ws := ⟨0, ∅, ∅, [], 0, 0⟩

/-- The graph before the loop: the entrance block and the return block. -/
def initialGraph (firstIns : RtnIns ws) : RoutineGraph ws :=
  let (routineHead, g) := getBasicBlockAt firstIns.address (noGraph ws)
  let g := setAddress firstIns.address routineHead (setStarting routineHead firstIns.address g)
  let (returnBlock, g) := newBlock 2 2 g
  let g := insertBlock returnBlock (insertBlock routineHead (setAddress 2 returnBlock g))
  { g with entranceNode := routineHead, returnNode := returnBlock }

/-- `BlockBuilder`. -/
def blockBuilder (r : Routine ws) : Option (RoutineGraph ws) :=
  let g := initialGraph r.head
  blockLoop (jumpMaps r) r.head r.tail (some g.entranceNode) g

/-- The order in which sets of block pointers are iterated. -/
structure IterationOrder where
  list : List BlockId → List BlockId
  perm : ∀ set, (list set).Perm set

/-- Every list in the order it is in: the block inserted last comes first. -/
def IterationOrder.asListed : IterationOrder := ⟨id, fun _ => .refl _⟩

/-- The predecessors of a block in the order they are iterated. -/
def predecessorsOf (order : IterationOrder) (g : RoutineGraph ws) (b : BlockId) :
    List BlockId :=
  order.list (g.blocks b).predecessors

/-- One turn of the loop of `buildPostDominanceTree`. -/
def visitPredecessor (g : RoutineGraph ws) (currentBlock : BlockId)
    (state : Infos ws × List BlockId) (targetBlock : BlockId) :
    Option (Infos ws × List BlockId) := do
  let (h, blockQueue) := state
  -- a block without a parent has not been queued yet
  let blockQueue :=
    if (info h targetBlock).postDominator = none then blockQueue ++ [targetBlock] else blockQueue
  let h ← addPredecessorAsPostDominated g.blocks g.next h currentBlock targetBlock
  some (h, blockQueue)

/-- `buildPostDominanceTree`. -/
def buildPostDominanceTree (order : IterationOrder) (g : RoutineGraph ws) :
    Nat → Infos ws → BlockId → List BlockId → Option (Infos ws)
  | 0, _, _, _ => none
  | fuel + 1, h, currentBlock, blockQueue => do
      let (h, blockQueue) ← (predecessorsOf order g currentBlock).foldlM
        (visitPredecessor g currentBlock) (h, blockQueue)
      match blockQueue with
      | [] => some h
      | nextBlock :: blockQueue => buildPostDominanceTree order g fuel h nextBlock blockQueue

/-- The third pass.  No walk is longer than the number of blocks, and no block
    is processed twice. -/
def postDominanceTree (order : IterationOrder) (g : RoutineGraph ws) : Option (Infos ws) :=
  buildPostDominanceTree order g g.next ∅ g.returnNode []

/-- `initializeRoutineInfo`: all three passes. -/
def initializeRoutineInfo (order : IterationOrder) (r : Routine ws) :
    Option (RoutineGraph ws × Infos ws) := do
  let g ← blockBuilder r
  let h ← postDominanceTree order g
  some (g, h)

theorem initializeRoutineInfo_eq_some {order : IterationOrder} {r : Routine ws}
    {g : RoutineGraph ws} {h : Infos ws} :
    initializeRoutineInfo order r = some (g, h)
      ↔ blockBuilder r = some g ∧ postDominanceTree order g = some h := by
  constructor
  · intro hrun
    obtain ⟨g', hg, hrest⟩ := Option.bind_eq_some_iff.mp hrun
    obtain ⟨h', hh, hpair⟩ := Option.bind_eq_some_iff.mp hrest
    cases hpair
    exact ⟨hg, hh⟩
  · rintro ⟨hg, hh⟩
    simp [initializeRoutineInfo, hg, hh]

end DytanRoutineGraph
