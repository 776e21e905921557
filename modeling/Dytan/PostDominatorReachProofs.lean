import Dytan.PredecessorsProofs
import Dytan.PostDominanceMapsProofs
import Dytan.RoutineFlowProofs

/-! # Which blocks get a post-dominator

    The tree is built along the predecessors, and control flows along the
    successors.  They differ at the synthetic block of a call: it is no block's
    predecessor.  Every other block gets a `PostDominator` exactly when it
    reaches the return node. -/

namespace DytanPostDominatorReach

open DytanRegister DytanTaintState DytanBasicBlock DytanRoutineGraph DytanBlockBuilder
open DytanBlockLayout DytanPredecessors DytanPostDominanceTree DytanPostDominanceMaps PostDominance
open DytanRoutineFlow (call)

variable {ws : WordSize} {g : RoutineGraph ws}

/-- Control passes from `b` to `c`. -/
def Flows (g : RoutineGraph ws) (b c : BlockId) : Prop := c ∈ (g.blocks b).successors

/-- Along a path to `R`: a block of the routine reaches `R` by the
    predecessors, and so does the caller of a synthetic block. -/
theorem edge_of_flows (h : Mirrored g) {R b : BlockId} {p : List BlockId}
    (hp : PathTo (Flows g) R b p) :
    (¬ IsCallBlock g b → Reaches (Edge g) R b)
      ∧ ∀ x, ¬ IsCallBlock g x → Flows g x b → Reaches (Edge g) R x := by
  induction hp with
  | exit =>
      refine ⟨fun _ => ⟨_, .exit⟩, fun x hx hflows => ?_⟩
      exact Reaches.step ((h.edge_iff x R).mpr ⟨hx, Or.inl hflows⟩) ⟨_, .exit⟩
  | @step b c p hflows hp ih =>
      have hb : ¬ IsCallBlock g b → Reaches (Edge g) R b := fun hb => ih.2 b hb hflows
      refine ⟨hb, fun x hx hxb => ?_⟩
      by_cases hcall : IsCallBlock g b
      · -- through the synthetic block, to the block after the call
        have hc : ¬ IsCallBlock g c := h.call_leaves b c hcall hflows
        have hedge : Edge g x c := (h.edge_iff x c).mpr ⟨hx, Or.inr ⟨b, hxb, hcall, hflows⟩⟩
        exact (ih.1 hc).step hedge
      · exact (hb hcall).step ((h.edge_iff x b).mpr ⟨hx, Or.inl hxb⟩)

theorem flows_of_edge (h : Mirrored g) {R b : BlockId} {p : List BlockId}
    (hp : PathTo (Edge g) R b p) : Reaches (Flows g) R b := by
  induction hp with
  | exit => exact ⟨_, .exit⟩
  | @step b c p hedge hp ih =>
      obtain ⟨-, hflows | ⟨k, hk, -, hc⟩⟩ := (h.edge_iff b c).mp hedge
      · exact ih.step hflows
      · exact (ih.step (show Flows g k c from hc)).step hk

/-- Outside the synthetic blocks, the predecessors and the successors agree on
    what reaches `R`. -/
theorem reaches_iff (h : Mirrored g) {R b : BlockId} (hb : ¬ IsCallBlock g b) :
    Reaches (Edge g) R b ↔ Reaches (Flows g) R b :=
  ⟨fun ⟨_, hp⟩ => flows_of_edge h hp, fun ⟨_, hp⟩ => (edge_of_flows h hp).1 hb⟩

/-- Every walk ends, and the blocks with a parent are those with a way to the
    return node along the predecessors. -/
theorem postDominator_iff_reachesEdge (order : IterationOrder) (hg : IsCfg g) :
    ∃ h, postDominanceTree order g = some h ∧ ∀ b, b ≠ g.returnNode →
      (parents h b ≠ none ↔ Reaches (Edge g) g.returnNode b) := by
  have hfull := fullVisit order hg
  obtain ⟨h, hrun, ht⟩ := tree_completed order hg
  refine ⟨h, hrun, fun b hb => ?_⟩
  rw [parent_iff hg hfull.visited ht]
  constructor
  · intro htail
    exact (ht.reaches b (Or.inr htail)).mono hfull.visited.edge
  · exact tail_of_reaches hfull hb

/-- **Building the tree of a routine ends**, follows no `NULL` parent, and
    gives a parent to exactly the blocks that reach the return node, but for
    the synthetic blocks of the calls, which get none. -/
theorem postDominator_iff_reaches (order : IterationOrder) {r : Routine ws}
    (hb : blockBuilder r = some g) :
    ∃ h, postDominanceTree order g = some h ∧ ∀ b, b ≠ g.returnNode →
      ((info h b).postDominator ≠ none
        ↔ ¬ IsCallBlock g b ∧ Reaches (Flows g) g.returnNode b) := by
  have hm := blockBuilder_mirrored hb
  obtain ⟨h, hrun, hiff⟩ := postDominator_iff_reachesEdge order (blockBuilder_isCfg hb)
  refine ⟨h, hrun, fun b hne => (hiff b hne).trans ?_⟩
  by_cases hcall : IsCallBlock g b
  · -- it is no block's predecessor
    refine iff_of_false ?_ fun hh => hh.1 hcall
    rintro ⟨p, hp⟩
    cases hp with
    | exit => exact hne rfl
    | step hedge _ => exact ((hm.edge_iff _ _).mp hedge).1 hcall
  · rw [reaches_iff hm hcall]
    exact ⟨fun hreach => ⟨hcall, hreach⟩, And.right⟩

/-- `f(); return;` -/
def callThenReturn : Routine .w64 where
  head := plain 0x1000 0x1002
  tail := [call 0x1002 0x1007 0x2000, ret 0x1007 0x1008]
  nodup := by decide
  above := by decide

/-- The synthetic block of the call has a way to the return node, and no
    parent. -/
theorem callThenReturn_call : ∃ g h b, blockBuilder callThenReturn = some g
    ∧ postDominanceTree .asListed g = some h ∧ b ≠ g.returnNode
    ∧ Reaches (Flows g) g.returnNode b ∧ (info h b).postDominator = none := by
  have hsome : (initializeRoutineInfo .asListed callThenReturn).isSome = true := by decide +kernel
  obtain ⟨⟨g, h⟩, hrun⟩ := Option.isSome_iff_exists.mp hsome
  obtain ⟨hg, hh⟩ := initializeRoutineInfo_eq_some.mp hrun
  -- what the run leaves, evaluated
  have heval : (initializeRoutineInfo .asListed callThenReturn).all fun gh =>
      (gh.1.returnNode == 1) && ((info gh.2 2).postDominator == none)
        && decide (3 ∈ (gh.1.blocks 2).successors) && decide (1 ∈ (gh.1.blocks 3).successors) := by
    decide +kernel
  rw [hrun] at heval
  simp only [Option.all_some, Bool.and_eq_true, beq_iff_eq, decide_eq_true_eq] at heval
  obtain ⟨⟨⟨hreturn, hparent⟩, h₂₃⟩, h₃₁⟩ := heval
  have hpath : PathTo (Flows g) g.returnNode 2 [2, 3, 1] := by
    rw [hreturn]
    exact .step h₂₃ (.step h₃₁ .exit)
  exact ⟨g, h, 2, hg, hh, by rw [hreturn]; decide, ⟨_, hpath⟩, hparent⟩

theorem postDominator_iff_reaches_callThenReturn :
    ∃ g h, blockBuilder callThenReturn = some g ∧ postDominanceTree .asListed g = some h
      ∧ ∀ b, b ≠ g.returnNode → ((info h b).postDominator ≠ none
        ↔ ¬ IsCallBlock g b ∧ Reaches (Flows g) g.returnNode b) := by
  have hsome : (blockBuilder callThenReturn).isSome = true := by decide +kernel
  obtain ⟨g, hg⟩ := Option.isSome_iff_exists.mp hsome
  obtain ⟨h, hh, hiff⟩ := postDominator_iff_reaches .asListed hg
  exact ⟨g, h, hg, hh, hiff⟩

end DytanPostDominatorReach
