import Dytan.BlockIntervalsProofs

/-! # Predecessors — the reverse of the successors, without the calls

    Wherever the builder inserts a successor it inserts a predecessor.  A call
    is the exception: the block after the call gets the calling block as its
    predecessor, and is a successor of the synthetic block of the call.

    So the predecessor sets are the reverse of the successor sets in which the
    synthetic blocks are contracted (`Mirrored`).  This holds of every graph
    the builder returns, and after each of its operations but for the time
    between the two insertions.  The builder returns a graph of every routine
    that does not end in a call or a jump (`blockBuilder_reverses`). -/

namespace DytanPredecessors

open DytanRegister DytanTaintState DytanBasicBlock DytanRoutineGraph DytanBlockBuilder
open DytanBlockLayout DytanPostDominanceTree DytanBlockIntervals
open DytanRoutineFlow (call)

variable {ws : WordSize} {g g' : RoutineGraph ws}

/-- The predecessors are the reverse of the successors. -/
structure Mirrored (g : RoutineGraph ws) : Prop where
  edge_iff : ∀ b c, Edge g b c ↔ ¬ IsCallBlock g b ∧ Successor g b c
  lt : ∀ b c, c ∈ (g.blocks b).successors → b < g.next ∧ c < g.next
  call_leaves : ∀ b c, IsCallBlock g b → c ∈ (g.blocks b).successors → ¬ IsCallBlock g c
  mapped : ∀ (x : Addr ws) b, g.addressMap[x]? = some b → b < g.next ∧ ¬ IsCallBlock g b

/-- Nothing follows a block that is not allocated. -/
theorem Mirrored.fresh_successors (h : Mirrored g) : (g.blocks g.next).successors = [] := by
  refine List.eq_nil_iff_forall_not_mem.mpr fun c hc => ?_
  exact Nat.lt_irrefl _ (h.lt _ c hc).1

theorem Mirrored.fresh_predecessors (h : Mirrored g) : (g.blocks g.next).predecessors = [] := by
  refine List.eq_nil_iff_forall_not_mem.mpr fun b hb => ?_
  obtain ⟨-, hsucc | ⟨k, -, -, hsucc⟩⟩ := (h.edge_iff b g.next).mp hb
  · exact Nat.lt_irrefl _ (h.lt b _ hsucc).2
  · exact Nat.lt_irrefl _ (h.lt k _ hsucc).2

/-- Nothing depends on the ending addresses, nor on a starting address that
    does not make a call block. -/
theorem Mirrored.of_same (h : Mirrored g) (hnext : g'.next = g.next)
    (hmap : ∀ x : Addr ws, g'.addressMap[x]? = g.addressMap[x]?)
    (hcall : ∀ c, IsCallBlock g' c ↔ IsCallBlock g c)
    (hsuccs : ∀ c, (g'.blocks c).successors = (g.blocks c).successors)
    (hpreds : ∀ c, (g'.blocks c).predecessors = (g.blocks c).predecessors) : Mirrored g' where
  edge_iff b c := by
    rw [Edge]
    rw [hpreds, hcall, Successor, hsuccs]
    simp only [hcall, hsuccs]
    exact h.edge_iff b c
  lt b c hc := by
    rw [hnext]
    exact h.lt b c (hsuccs b ▸ hc)
  call_leaves b c hb hc := by
    rw [hcall]
    exact h.call_leaves b c ((hcall b).mp hb) (hsuccs b ▸ hc)
  mapped x b hx := by
    rw [hnext, hcall]
    exact h.mapped x b ((hmap x).symm.trans hx)

/-- Changing the addresses of a block that does not become a call block. -/
theorem Mirrored.modify (h : Mirrored g) {b : BlockId} {f : BasicBlock ws → BasicBlock ws}
    (hs : ∀ x, (f x).successors = x.successors) (hp : ∀ x, (f x).predecessors = x.predecessors)
    (hcall : ∀ c, IsCallBlock (modifyBlock b f g) c ↔ IsCallBlock g c) :
    Mirrored (modifyBlock b f g) :=
  h.of_same rfl (fun _ => rfl) hcall (fun c => field_modifyBlock BasicBlock.successors hs b c g)
    fun c => field_modifyBlock BasicBlock.predecessors hp b c g

theorem Mirrored.afterSetEnding (h : Mirrored g) (b : BlockId) (a : Addr ws) :
    Mirrored (setEnding b a g)
      ∧ ∀ c, IsCallBlock (setEnding b a g) c ↔ IsCallBlock g c := by
  have hcall : ∀ c, IsCallBlock (setEnding b a g) c ↔ IsCallBlock g c := by
    intro c
    have hstart : ((setEnding b a g).blocks c).startingAddress = (g.blocks c).startingAddress :=
      field_modifyBlock BasicBlock.startingAddress (fun _ => by rfl) b c g
    rw [IsCallBlock, IsCallBlock, hstart]
  exact ⟨h.modify (fun _ => rfl) (fun _ => rfl) hcall, hcall⟩

/-- A block of the routine starts at its instruction. -/
theorem Mirrored.afterSetStarting (h : Mirrored g) {b : BlockId} (hb : ¬ IsCallBlock g b)
    {a : Addr ws} (ha : 5 < a) :
    Mirrored (setStarting b a g) ∧ ¬ IsCallBlock (setStarting b a g) b := by
  have hcall : ∀ c, IsCallBlock (setStarting b a g) c ↔ IsCallBlock g c := by
    intro c
    rw [IsCallBlock, setStarting, blocks_modifyBlock]
    by_cases hc : c = b
    · rw [if_pos hc, hc]
      refine iff_of_false (fun hh => ?_) hb
      exact not_isFlag_of_above ha (hh.imp_right Or.inl)
    · rw [if_neg hc]
      exact Iff.rfl
  exact ⟨h.modify (fun _ => rfl) (fun _ => rfl) hcall, (hcall b).not.mpr hb⟩

/-- A block of the routine may be given any address. -/
theorem Mirrored.afterSetAddress (h : Mirrored g) {b : BlockId} (hlt : b < g.next)
    (hb : ¬ IsCallBlock g b) (a : Addr ws) : Mirrored (setAddress a b g) where
  edge_iff := h.edge_iff
  lt := h.lt
  call_leaves := h.call_leaves
  mapped x c hx := by
    rw [getElem?_setAddress] at hx
    by_cases hxa : x = a
    · rw [if_pos hxa] at hx
      cases hx
      exact ⟨hlt, hb⟩
    · rw [if_neg hxa] at hx
      exact h.mapped x c hx

/-- A new block has no successors, as the block that was not there. -/
theorem Mirrored.successors_newBlock (h : Mirrored g) (s e : Addr ws) (c : BlockId) :
    ((newBlock s e g).2.blocks c).successors = (g.blocks c).successors := by
  rw [blocks_newBlock]
  by_cases hc : c = g.next
  · rw [if_pos hc, hc, h.fresh_successors]
  · rw [if_neg hc]

theorem Mirrored.predecessors_newBlock (h : Mirrored g) (s e : Addr ws) (c : BlockId) :
    ((newBlock s e g).2.blocks c).predecessors = (g.blocks c).predecessors := by
  rw [blocks_newBlock]
  by_cases hc : c = g.next
  · rw [if_pos hc, hc, h.fresh_predecessors]
  · rw [if_neg hc]

/-- A new block has no edges. -/
theorem Mirrored.afterNewBlock (h : Mirrored g) (s e : Addr ws) : Mirrored (newBlock s e g).2 := by
  have hold : ∀ c, c < g.next → (newBlock s e g).2.blocks c = g.blocks c := fun c hc => by
    rw [blocks_newBlock, if_neg (Nat.ne_of_lt hc)]
  have hsuccs := h.successors_newBlock s e
  have hpreds := h.predecessors_newBlock s e
  have hcall : ∀ c, c < g.next → (IsCallBlock (newBlock s e g).2 c ↔ IsCallBlock g c) := by
    intro c hc
    rw [IsCallBlock, IsCallBlock, hold c hc]
  -- a new block has no edges and is no successor
  have hsucc : ∀ b c, Successor (newBlock s e g).2 b c ↔ Successor g b c := by
    intro b c
    rw [Successor, Successor, hsuccs]
    refine or_congr_right (exists_congr fun k => and_congr_right fun hk => ?_)
    rw [hsuccs, hcall k (h.lt b k hk).2]
  refine ⟨fun b c => ?_, fun b c hc => ?_, fun b c hb hc => ?_, fun x b hx => ?_⟩
  · rw [Edge]
    rw [hpreds, hsucc]
    by_cases hb : b < g.next
    · rw [hcall b hb]
      exact h.edge_iff b c
    · -- nothing leaves a block that is not allocated
      have hno : ¬ Successor g b c := by
        rintro (hsucc | ⟨k, hk, -⟩)
        · exact hb (h.lt b c hsucc).1
        · exact hb (h.lt b k hk).1
      exact iff_of_false (fun he => hno ((h.edge_iff b c).mp he).2) fun hh => hno hh.2
  · rw [hsuccs] at hc
    obtain ⟨hb, hc⟩ := h.lt b c hc
    exact ⟨Nat.lt_succ_of_lt hb, Nat.lt_succ_of_lt hc⟩
  · rw [hsuccs] at hc
    obtain ⟨hb', hc'⟩ := h.lt b c hc
    rw [hcall c hc']
    exact h.call_leaves b c ((hcall b hb').mp hb) hc
  · obtain ⟨hb, hnot⟩ := h.mapped x b hx
    refine ⟨Nat.lt_succ_of_lt hb, ?_⟩
    rw [hcall b hb]
    exact hnot

/-- The block is one of the routine, or waits to be. -/
def InRoutine (g : RoutineGraph ws) (b : BlockId) : Prop := b < g.next ∧ ¬ IsCallBlock g b

/-- The block at an address, old or new. -/
theorem Mirrored.afterGet (h : Mirrored g) (a : Addr ws) :
    Mirrored (getBasicBlockAt a g).2
      ∧ InRoutine (getBasicBlockAt a g).2 (getBasicBlockAt a g).1
      ∧ (∀ c, ((getBasicBlockAt a g).2.blocks c).successors = (g.blocks c).successors)
      ∧ ∀ c < g.next, c < (getBasicBlockAt a g).2.next
        ∧ (IsCallBlock (getBasicBlockAt a g).2 c ↔ IsCallBlock g c) := by
  cases ha : g.addressMap[a]? with
  | some b =>
      rw [getBasicBlockAt_of_some ha]
      exact ⟨h, h.mapped a b ha, fun _ => rfl, fun c hc => ⟨hc, Iff.rfl⟩⟩
  | none =>
      rw [getBasicBlockAt_of_none ha]
      have hnot : ¬ IsCallBlock (newBlock 0 0 g).2 g.next := by
        rw [IsCallBlock, blocks_newBlock, if_pos rfl]
        exact fun hh => not_isFlag_zero (hh.imp_right Or.inl)
      have hset := (h.afterNewBlock 0 0).afterSetAddress (Nat.lt_succ_self g.next) hnot a
      refine ⟨⟨hset.edge_iff, hset.lt, hset.call_leaves, hset.mapped⟩,
        ⟨Nat.lt_succ_self _, hnot⟩, fun c => ?_, fun c hc => ⟨Nat.lt_succ_of_lt hc, ?_⟩⟩
      · exact h.successors_newBlock 0 0 c
      · rw [IsCallBlock, IsCallBlock, blocks_getBasicBlockAt, if_neg (Nat.ne_of_lt hc)]

/-! ## Edges -/

/-- A step that makes `c` a successor of `b`, and `b'` a predecessor of `c'`. -/
structure Links (b c b' c' : BlockId) (g g' : RoutineGraph ws) : Prop where
  next : g'.next = g.next
  addressMap : ∀ x : Addr ws, g'.addressMap[x]? = g.addressMap[x]?
  starting : ∀ x, (g'.blocks x).startingAddress = (g.blocks x).startingAddress
  successors : ∀ x y, y ∈ (g'.blocks x).successors
    ↔ y ∈ (g.blocks x).successors ∨ (x = b ∧ y = c)
  predecessors : ∀ x y, Edge g' x y ↔ Edge g x y ∨ (x = b' ∧ y = c')

theorem links_insertSuccs_insertPreds (b c b' c' : BlockId) (g : RoutineGraph ws) :
    Links b c b' c' g (insertSuccs b c (insertPreds c' b' g))
      ∧ Links b c b' c' g (insertPreds c' b' (insertSuccs b c g)) := by
  have hsucc : ∀ (g : RoutineGraph ws) x y, y ∈ ((insertSuccs b c g).blocks x).successors
      ↔ y ∈ (g.blocks x).successors ∨ (x = b ∧ y = c) := by
    intro g x y
    rw [blocks_insertSuccs]
    by_cases hx : x = b
    · rw [if_pos hx, List.mem_insert_iff, hx]
      simp [or_comm]
    · rw [if_neg hx]
      simp [hx]
  have hpred : ∀ (g : RoutineGraph ws) x y, Edge (insertPreds c' b' g) x y
      ↔ Edge g x y ∨ (x = b' ∧ y = c') := by
    intro g x y
    rw [Edge]
    rw [insertPreds, blocks_modifyBlock]
    by_cases hy : y = c'
    · rw [if_pos hy, List.mem_insert_iff, hy]
      simp [Edge, or_comm]
    · rw [if_neg hy]
      simp [Edge, hy]
  -- the two insertions change different sets
  have hkeep : ∀ (g : RoutineGraph ws) x,
      ((insertPreds c' b' g).blocks x).successors = (g.blocks x).successors :=
    fun g x => field_modifyBlock BasicBlock.successors (fun _ => by rfl) c' x g
  have hkeep' : ∀ (g : RoutineGraph ws) x y, Edge (insertSuccs b c g) x y ↔ Edge g x y := by
    intro g x y
    have hsame : ((insertSuccs b c g).blocks y).predecessors = (g.blocks y).predecessors :=
      field_modifyBlock BasicBlock.predecessors (fun _ => by rfl) b y g
    rw [Edge, Edge, hsame]
  have hstart : ∀ (g : RoutineGraph ws) x,
      ((insertPreds c' b' g).blocks x).startingAddress = (g.blocks x).startingAddress :=
    fun g x => field_modifyBlock BasicBlock.startingAddress (fun _ => by rfl) c' x g
  constructor
  · refine ⟨rfl, fun _ => rfl, fun x => ?_, fun x y => ?_, fun x y => ?_⟩
    · rw [starting_insertSuccs, hstart]
    · rw [hsucc, hkeep]
    · rw [hkeep', hpred]
  · refine ⟨rfl, fun _ => rfl, fun x => ?_, fun x y => ?_, fun x y => ?_⟩
    · rw [hstart, starting_insertSuccs]
    · rw [hkeep, hsucc]
    · rw [hpred, hkeep']

variable {b c b' c' : BlockId}

theorem Links.isCallBlock (h : Links b c b' c' g g') (x : BlockId) :
    IsCallBlock g' x ↔ IsCallBlock g x := by
  rw [IsCallBlock, IsCallBlock, h.starting]

/-- After an edge between allocated blocks, successors are allocated still. -/
theorem Mirrored.lt_links {a : BlockId} (h : Mirrored g) (hl : Links a c b c g g')
    (ha : a < g.next) (hcn : c < g.next) (x y : BlockId) (hy : y ∈ (g'.blocks x).successors) :
    x < g'.next ∧ y < g'.next := by
  rw [hl.next]
  rcases (hl.successors x y).mp hy with hy | ⟨rfl, rfl⟩
  · exact h.lt x y hy
  · exact ⟨ha, hcn⟩

/-- An edge leaves the address map alone. -/
theorem Mirrored.mapped_links {a : BlockId} (h : Mirrored g) (hl : Links a c b c g g')
    (d : Addr ws) (x : BlockId) (hx : g'.addressMap[d]? = some x) :
    x < g'.next ∧ ¬ IsCallBlock g' x := by
  rw [hl.next, hl.isCallBlock]
  exact h.mapped d x ((hl.addressMap d).symm.trans hx)

/-- An edge between blocks of the routine, or to the new block of a call. -/
theorem Mirrored.link (h : Mirrored g) (hl : Links b c b c g g') (hb : ¬ IsCallBlock g b)
    (hbn : b < g.next) (hcn : c < g.next)
    (hc : IsCallBlock g c → ∀ d, d ∉ (g.blocks c).successors) : Mirrored g' := by
  have hcall := hl.isCallBlock
  refine ⟨fun x y => ?_, h.lt_links hl hbn hcn, fun x y hx hy => ?_, h.mapped_links hl⟩
  · rw [hl.predecessors, h.edge_iff, hcall]
    by_cases hx : IsCallBlock g x
    · have hxb : x ≠ b := fun heq => hb (heq ▸ hx)
      simp [hx, hxb]
    · -- a block of a call has no successor besides those it had
      have hvia : (∃ k ∈ (g'.blocks x).successors, IsCallBlock g' k
            ∧ y ∈ (g'.blocks k).successors)
          ↔ ∃ k ∈ (g.blocks x).successors, IsCallBlock g k ∧ y ∈ (g.blocks k).successors := by
        constructor
        · rintro ⟨k, hk, hkc, hyk⟩
          rw [hcall] at hkc
          have hyk' := ((hl.successors k y).mp hyk).resolve_right fun hh => hb (hh.1 ▸ hkc)
          rcases (hl.successors x k).mp hk with hk | ⟨-, rfl⟩
          · exact ⟨k, hk, hkc, hyk'⟩
          · exact absurd hyk' (hc hkc y)
        · rintro ⟨k, hk, hkc, hyk⟩
          exact ⟨k, (hl.successors x k).mpr (Or.inl hk), (hcall k).mpr hkc,
            (hl.successors k y).mpr (Or.inl hyk)⟩
      have hsucc : Successor g' x y ↔ Successor g x y ∨ (x = b ∧ y = c) := by
        rw [Successor, hl.successors, hvia, Successor]
        exact or_right_comm
      rw [hsucc]
      simp only [hx, not_false_eq_true, true_and]
  · rw [hcall] at hx ⊢
    exact h.call_leaves x y hx
      (((hl.successors x y).mp hy).resolve_right fun hh => hb (hh.1 ▸ hx))

/-- The block after a call: a successor of the synthetic block, and a
    successor of the caller when the synthetic blocks are contracted. -/
theorem Mirrored.continueCall (h : Mirrored g) {k : BlockId} (hl : Links k c b c g g')
    (hk : IsCallBlock g k) (hb : ¬ IsCallBlock g b) (hc : ¬ IsCallBlock g c)
    (hkn : k < g.next) (hcn : c < g.next)
    (honly : ∀ x, k ∈ (g.blocks x).successors ↔ x = b) : Mirrored g' := by
  have hcall := hl.isCallBlock
  refine ⟨fun x y => ?_, h.lt_links hl hkn hcn, fun x y hx hy => ?_, h.mapped_links hl⟩
  · rw [hl.predecessors, h.edge_iff, hcall]
    by_cases hx : IsCallBlock g x
    · have hxb : x ≠ b := fun heq => hb (heq ▸ hx)
      simp [hx, hxb]
    -- only the caller sees the new successor, through `k`
    · have hxk : x ≠ k := fun heq => hx (heq ▸ hk)
      have hkept : ∀ y, y ∈ (g'.blocks x).successors ↔ y ∈ (g.blocks x).successors := fun y =>
        (hl.successors x y).trans ⟨fun hh => hh.resolve_right fun hh => hxk hh.1, Or.inl⟩
      simp only [hx, not_false_eq_true, true_and]
      constructor
      · rintro ((hy | ⟨j, hj, hjc, hyj⟩) | ⟨rfl, rfl⟩)
        · exact Or.inl ((hkept y).mpr hy)
        · exact Or.inr ⟨j, (hkept j).mpr hj, (hcall j).mpr hjc,
            (hl.successors j y).mpr (Or.inl hyj)⟩
        · exact Or.inr ⟨k, (hkept k).mpr ((honly x).mpr rfl), (hcall k).mpr hk,
            (hl.successors k y).mpr (Or.inr ⟨rfl, rfl⟩)⟩
      · rintro (hy | ⟨j, hj, hjc, hyj⟩)
        · exact Or.inl (Or.inl ((hkept y).mp hy))
        · rw [hkept] at hj
          rw [hcall] at hjc
          rcases (hl.successors j y).mp hyj with hyj | ⟨rfl, rfl⟩
          · exact Or.inl (Or.inr ⟨j, hj, hjc, hyj⟩)
          · exact Or.inr ⟨(honly x).mp hj, rfl⟩
  · rw [hcall] at hx ⊢
    rcases (hl.successors x y).mp hy with hy | ⟨-, rfl⟩
    · exact h.call_leaves x y hx hy
    · exact hc

/-! ## Ending a block -/

variable {current : BlockId} {nextIns : Option (RtnIns ws)}

theorem Mirrored.edgeTo (h : Mirrored g) (hcur : InRoutine g current) (a : Addr ws) :
    Mirrored (edgeTo a current g) ∧ InRoutine (edgeTo a current g) current := by
  obtain ⟨hget, ⟨hcn, hc⟩, -, hold⟩ := h.afterGet a
  obtain ⟨hbn, hb⟩ := hold current hcur.1
  obtain ⟨hl, -⟩ := links_insertSuccs_insertPreds current (getBasicBlockAt a g).1 current
    (getBasicBlockAt a g).1 (getBasicBlockAt a g).2
  have hnot := hb.not.mpr hcur.2
  refine ⟨hget.link hl hnot hbn hcn fun hcall => absurd hcall hc, ?_, ?_⟩
  · exact hl.next ▸ hbn
  · exact (hl.isCallBlock current).not.mpr hnot

/-- The new block of a call, or of an indirect branch, after the current one. -/
theorem Mirrored.newTarget (h : Mirrored g) (hcur : InRoutine g current) (flag : Addr ws)
    (hl : Links current g.next current g.next (newBlock flag flag g).2 g') :
    Mirrored g' ∧ InRoutine g' current ∧ g.next < g'.next
      ∧ (g'.blocks g.next).startingAddress = flag
      ∧ ∀ x, g.next ∈ (g'.blocks x).successors ↔ x = current := by
  have hnew := h.afterNewBlock flag flag
  have hnot : ¬ IsCallBlock (newBlock flag flag g).2 current := by
    rw [IsCallBlock, blocks_newBlock, if_neg (Nat.ne_of_lt hcur.1)]
    exact hcur.2
  have hsuccs := h.successors_newBlock flag flag
  refine ⟨hnew.link hl hnot (Nat.lt_succ_of_lt hcur.1) (Nat.lt_succ_self _) fun _ d => ?_,
    ⟨?_, (hl.isCallBlock current).not.mpr hnot⟩, ?_, ?_, fun x => ?_⟩
  · rw [hsuccs, h.fresh_successors]
    exact List.not_mem_nil
  · exact hl.next ▸ Nat.lt_succ_of_lt hcur.1
  · exact hl.next ▸ Nat.lt_succ_self _
  · rw [hl.starting, blocks_newBlock, if_pos rfl]
  · rw [hl.successors, hsuccs]
    refine ⟨fun hh => ?_, fun hh => Or.inr ⟨hh, rfl⟩⟩
    exact (hh.resolve_left fun hold => Nat.lt_irrefl _ (h.lt x _ hold).2).1

/-- The way on from the block of a call. -/
theorem Mirrored.goOn (h : Mirrored g) (hcur : InRoutine g current) {k : BlockId}
    (hkn : k < g.next) (hk : IsCallBlock g k)
    (honly : ∀ x, k ∈ (g.blocks x).successors ↔ x = current) (a : Addr ws) :
    Mirrored (insertSuccs k (getBasicBlockAt a g).1
      (insertPreds (getBasicBlockAt a g).1 current (getBasicBlockAt a g).2)) := by
  obtain ⟨hget, ⟨hcn, hc⟩, hsuccs, hold⟩ := h.afterGet a
  obtain ⟨hl, -⟩ := links_insertSuccs_insertPreds k (getBasicBlockAt a g).1 current
    (getBasicBlockAt a g).1 (getBasicBlockAt a g).2
  obtain ⟨hkn', hk'⟩ := hold k hkn
  refine hget.continueCall hl (hk'.mpr hk) ((hold current hcur.1).2.not.mpr hcur.2) hc hkn' hcn
    fun x => ?_
  rw [hsuccs]
  exact honly x

theorem Mirrored.callBranch (h : Mirrored g) (hcur : InRoutine g current)
    (hrun : callBranch current nextIns g = some g') : Mirrored g' := by
  cases nextIns with
  | none => exact nomatch hrun
  | some fallThrough =>
      obtain ⟨-, hl⟩ := links_insertSuccs_insertPreds current g.next current g.next
        (newBlock 1 1 g).2
      obtain ⟨hm, hcur', hkn, hk, honly⟩ := h.newTarget hcur 1 hl
      cases Option.some.inj hrun
      exact hm.goOn hcur' hkn (Or.inl hk) honly fallThrough.address

/-- The block of an indirect call or branch. -/
theorem Mirrored.indirectTarget (h : Mirrored g) (hcur : InRoutine g current) (flag : Addr ws) :
    Mirrored (indirectTarget flag current g).2 ∧ InRoutine (indirectTarget flag current g).2 current
      ∧ g.next < (indirectTarget flag current g).2.next
      ∧ ((indirectTarget flag current g).2.blocks g.next).startingAddress = flag
      ∧ ∀ x, g.next ∈ ((indirectTarget flag current g).2.blocks x).successors ↔ x = current := by
  obtain ⟨hl, -⟩ := links_insertSuccs_insertPreds current g.next current g.next
    (insertBlock g.next (newBlock flag flag g).2)
  exact h.newTarget hcur flag
    ⟨hl.next, hl.addressMap, hl.starting, hl.successors, hl.predecessors⟩

theorem Mirrored.indirectCallBranch (h : Mirrored g) (hcur : InRoutine g current)
    (hrun : indirectCallBranch current nextIns g = some g') : Mirrored g' := by
  cases nextIns with
  | none => exact nomatch hrun
  | some fallThrough =>
      obtain ⟨hm, hcur', hkn, hk, honly⟩ := h.indirectTarget hcur 4
      cases Option.some.inj hrun
      exact hm.goOn hcur' hkn (Or.inr hk) honly fallThrough.address

theorem Mirrored.returnBranch (h : Mirrored g) (hcur : InRoutine g current)
    (hrun : returnBranch current g = some g') : Mirrored g' := by
  obtain ⟨returnBlock, hret, hlast⟩ := Option.bind_eq_some_iff.mp hrun
  cases Option.some.inj hlast
  obtain ⟨hrn, hr⟩ := h.mapped 2 returnBlock hret
  obtain ⟨hl, -⟩ := links_insertSuccs_insertPreds current returnBlock current returnBlock g
  exact h.link hl hcur.2 hcur.1 hrn fun hcall => absurd hcall hr

theorem Mirrored.regularBranch (h : Mirrored g) (hcur : InRoutine g current) {target : Addr ws}
    {others : List (Addr ws)} (hrun : regularBranch current target others nextIns g = some g') :
    Mirrored g' := by
  obtain ⟨hm, hcur'⟩ := h.edgeTo hcur target
  simp only [DytanRoutineGraph.regularBranch] at hrun
  cases others with
  | cons other _ =>
      cases Option.some.inj hrun
      exact (hm.edgeTo hcur' other).1
  | nil =>
      by_cases hself : target = ((DytanRoutineGraph.edgeTo target current g).blocks
          current).startingAddress
      · simp only [if_pos hself] at hrun
        cases nextIns with
        | none => cases hrun
        | some fallThrough =>
            cases Option.some.inj hrun
            exact (hm.edgeTo hcur' fallThrough.address).1
      · simp only [if_neg hself] at hrun
        cases Option.some.inj hrun
        exact hm

/-- `BranchIns` keeps the predecessors the reverse of the successors. -/
theorem Mirrored.branchIns (h : Mirrored g) (hcur : InRoutine g current) {m : JumpMaps ws}
    {currentIns : RtnIns ws} (hrun : branchIns m currentIns nextIns current g = some g') :
    Mirrored g' := by
  obtain ⟨hend, hsame⟩ := h.afterSetEnding current currentIns.address
  have hnot := (hsame current).not.mpr hcur.2
  have hset := hend.afterSetAddress hcur.1 hnot currentIns.address
  have hcur' : InRoutine (setAddress currentIns.address current
      (setEnding current currentIns.address g)) current := ⟨hcur.1, hnot⟩
  rw [DytanRoutineGraph.branchIns] at hrun
  cases hbranches : m.branches.getD currentIns.address [] with
  | nil =>
      simp only [hbranches] at hrun
      cases hrun
  | cons target others =>
      simp only [hbranches] at hrun
      split at hrun
      · exact hset.callBranch hcur' hrun
      · split at hrun
        · exact hset.returnBranch hcur' hrun
        · split at hrun
          · exact hset.indirectCallBranch hcur' hrun
          · split at hrun
            · cases Option.some.inj hrun
              exact (hset.indirectTarget hcur' 5).1
            · exact hset.regularBranch hcur' hrun

/-! ## The loop -/

/-- Between two turns: the block being built, if any, is one of the routine. -/
def Turn (p : Option BlockId × RoutineGraph ws) : Prop :=
  Mirrored p.2 ∧ ∀ b, p.1 = some b → InRoutine p.2 b

theorem Mirrored.endAtBranch (h : Mirrored g) (hcur : InRoutine g current) {m : JumpMaps ws}
    {currentIns : RtnIns ws} {p : Option BlockId × RoutineGraph ws}
    (hrun : endAtBranch m currentIns nextIns current g = some p) : Turn p := by
  rw [DytanRoutineGraph.endAtBranch] at hrun
  split at hrun
  · obtain ⟨g₁, hbranch, hlast⟩ := Option.bind_eq_some_iff.mp hrun
    cases Option.some.inj hlast
    refine ⟨h.branchIns hcur hbranch, fun b hb => ?_⟩
    cases hb
  · cases Option.some.inj hrun
    refine ⟨h, fun b hb => ?_⟩
    cases hb
    exact hcur

/-- One turn. -/
theorem Turn.step {p p' : Option BlockId × RoutineGraph ws} (h : Turn p) {m : JumpMaps ws}
    {previous currentIns : RtnIns ws} (habove : 5 < currentIns.address)
    (hrun : blockStep m previous currentIns nextIns p.1 p.2 = some p') : Turn p' := by
  obtain ⟨currentBlock, g⟩ := p
  obtain ⟨hm, hcur⟩ := h
  cases currentBlock with
  | none =>
      obtain ⟨hget, ⟨hbn, hb⟩, -⟩ := hm.afterGet currentIns.address
      obtain ⟨hset, hb'⟩ := hget.afterSetStarting hb habove
      exact hset.endAtBranch ⟨hbn, hb'⟩ hrun
  | some b =>
      obtain ⟨hbn, hb⟩ := hcur b rfl
      rw [blockStep] at hrun
      split at hrun
      · -- a target: the block before it leads to it
        obtain ⟨hend, hsame⟩ := hm.afterSetEnding b previous.address
        obtain ⟨hget, ⟨hcn, hc⟩, -, hold⟩ := hend.afterGet currentIns.address
        obtain ⟨hbn', hb'⟩ := hold b hbn
        obtain ⟨-, hl⟩ := links_insertSuccs_insertPreds b
          (getBasicBlockAt currentIns.address (setEnding b previous.address g)).1 b
          (getBasicBlockAt currentIns.address (setEnding b previous.address g)).1
          (getBasicBlockAt currentIns.address (setEnding b previous.address g)).2
        have hlink := hget.link hl (hb'.not.mpr ((hsame b).not.mpr hb)) hbn' hcn
          fun hcall => absurd hcall hc
        obtain ⟨hset, hc'⟩ := hlink.afterSetStarting ((hl.isCallBlock _).not.mpr hc) habove
        exact hset.endAtBranch ⟨hcn, hc'⟩ hrun
      · split at hrun
        · exact hm.endAtBranch ⟨hbn, hb⟩ hrun
        · cases Option.some.inj hrun
          refine ⟨hm.afterSetAddress hbn hb currentIns.address, fun c hc => ?_⟩
          cases hc
          exact ⟨hbn, hb⟩

/-- The loop. -/
theorem Turn.loop {p : Option BlockId × RoutineGraph ws} (h : Turn p) {m : JumpMaps ws}
    {previous : RtnIns ws} {rest : List (RtnIns ws)} (habove : ∀ ins ∈ rest, 5 < ins.address)
    (hrun : blockLoop m previous rest p.1 p.2 = some g') : Mirrored g' := by
  induction rest generalizing previous p with
  | nil =>
      obtain ⟨currentBlock, g⟩ := p
      cases currentBlock with
      | none =>
          cases Option.some.inj hrun
          exact h.1
      | some b =>
          cases Option.some.inj hrun
          exact (h.1.afterSetEnding b previous.address).1
  | cons currentIns rest ih =>
      rw [blockLoop] at hrun
      obtain ⟨p', hstep, hrest⟩ := Option.bind_eq_some_iff.mp hrun
      exact ih (h.step (habove _ List.mem_cons_self) hstep)
        (fun ins hins => habove ins (List.mem_cons_of_mem _ hins)) hrest

/-- The graph before the loop has no edges. -/
theorem turn_initialGraph {firstIns : RtnIns ws} (habove : 5 < firstIns.address) :
    Turn (some (initialGraph firstIns).entranceNode, initialGraph firstIns) := by
  have hsuccs : ∀ c, ((initialGraph firstIns).blocks c).successors = [] := by
    intro c
    rw [blocks_initialGraph]
    split
    · rfl
    · split
      · rfl
      · rfl
  have hzero : InRoutine (initialGraph firstIns) 0 := by
    refine ⟨Nat.zero_lt_two, fun hh => not_isFlag_of_above habove ?_⟩
    rw [IsCallBlock, blocks_initialGraph_zero] at hh
    exact hh.imp_right Or.inl
  have hone : InRoutine (initialGraph firstIns) 1 := by
    refine ⟨Nat.one_lt_two, fun hh => ?_⟩
    rw [IsCallBlock, blocks_initialGraph_one] at hh
    exact not_isFlag_two (hh.imp_right Or.inl)
  refine ⟨⟨fun b c => ?_, fun b c hc => ?_, fun b c _ hc => ?_, fun x b hx => ?_⟩, fun b hb => ?_⟩
  · refine iff_of_false (fun hh => ?_) ?_
    · rw [Edge] at hh
      rw [predecessors_initialGraph] at hh
      cases hh
    · rintro ⟨-, hsucc | ⟨k, hk, -⟩⟩
      · rw [hsuccs] at hsucc
        cases hsucc
      · rw [hsuccs] at hk
        cases hk
  · rw [hsuccs] at hc
    cases hc
  · rw [hsuccs] at hc
    cases hc
  · rcases address_initialGraph_cases hx with ⟨-, rfl⟩ | ⟨-, rfl⟩
    · exact hone
    · exact hzero
  · cases hb
    exact hzero

/-- **The predecessors are the reverse of the successors**, in every graph the
    builder returns. -/
theorem blockBuilder_mirrored {r : Routine ws} (hb : blockBuilder r = some g) : Mirrored g :=
  (turn_initialGraph (r.above _ List.mem_cons_self)).loop
    (fun ins hins => r.above ins (List.mem_cons_of_mem _ hins)) hb

/-- **The builder returns a graph whose predecessors are the reverse of its
    successors**, when every call and every jump is followed by an instruction:
    `b` is a predecessor of `c` if it is no synthetic block and control leaves
    it for `c`, directly or through one.  `c` may be a synthetic block itself. -/
theorem blockBuilder_reverses (r : Routine ws) (hlast : CallsFollowed r) :
    ∃ g, blockBuilder r = some g
      ∧ ∀ b c, Edge g b c ↔ ¬ IsCallBlock g b ∧ Successor g b c := by
  obtain ⟨g, hg⟩ := hlast.builds
  exact ⟨g, hg, (blockBuilder_mirrored hg).edge_iff⟩

/-- `while (c) (*f)(); g(); return;` -/
def callbackLoop : Routine .w64 where
  head := plain 0x1000 0x1002
  tail := [jcc 0x1002 0x1004 0x1009, ⟨0x1004, 0x1007, 0, false, true, false, false, true, false⟩,
    jmp 0x1007 0x1009 0x1002, call 0x1009 0x100e 0x2000, ret 0x100e 0x100f]
  nodup := by decide
  above := by decide

/-- Both kinds of call, and a branch back. -/
theorem blockBuilder_reverses_callbackLoop : ∃ g, blockBuilder callbackLoop = some g
    ∧ ∀ b c, Edge g b c ↔ ¬ IsCallBlock g b ∧ Successor g b c := by
  refine blockBuilder_reverses callbackLoop fun last hlast => ?_
  cases hlast
  exact ⟨rfl, rfl⟩

end DytanPredecessors
