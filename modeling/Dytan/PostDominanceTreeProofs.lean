import Dytan.BlockBuilderProofs

/-! # The post-dominance tree — when it is right

    `buildPostDominanceTree` visits each edge once, in breadth-first order from
    the return node.  The first edge out of a block gives it the edge's head as
    its parent, the second moves it up to the nearest common ancestor, and
    nothing is done for the blocks whose post-dominators change when another
    block moves.

    At every moment the parents are a tree rooted at the return node (`Tree`),
    so no walk runs forever or meets `NULL`.  The tree is right in the end
    exactly when no edge visited after the last edge out of a block changes
    that block's immediate post-dominator (`Settled`). -/

namespace DytanPostDominanceTree

open DytanRegister DytanTaintState DytanBasicBlock DytanRoutineGraph DytanBlockBuilder
open PostDominance

variable {ws : WordSize} {g : RoutineGraph ws}

/-! ## The edges visited so far -/

/-- Edges, tail first, in the order they are visited. -/
abbrev Edges := List (BlockId × BlockId)

/-- The graph of a list of edges. -/
def On (es : Edges) (u v : BlockId) : Prop := (u, v) ∈ es

/-- An edge out of the block has been visited. -/
def Tail (es : Edges) (b : BlockId) : Prop := ∃ v, (b, v) ∈ es

/-- The block is in the tree. -/
def Placed (g : RoutineGraph ws) (es : Edges) (b : BlockId) : Prop :=
  b = g.returnNode ∨ Tail es b

/-- One edge out of the block has been visited. -/
def OnlyEdge (es : Edges) (b v : BlockId) : Prop := (b, v) ∈ es ∧ ∀ c, (b, c) ∈ es → c = v

/-- The list has edges of the graph, each once. -/
structure Visited (g : RoutineGraph ws) (es : Edges) : Prop where
  edge : ∀ u v, (u, v) ∈ es → Edge g u v
  nodup : es.Nodup

theorem mem_concat {es : Edges} {u v x c : BlockId} :
    (x, c) ∈ es ++ [(u, v)] ↔ (x, c) ∈ es ∨ (x = u ∧ c = v) := by
  rw [List.mem_append, List.mem_singleton, Prod.mk.injEq]

theorem extends_concat (es : Edges) (u v : BlockId) :
    Extends (On es) (On (es ++ [(u, v)])) u v := fun _ _ => mem_concat

theorem tail_nil {b : BlockId} : ¬ Tail [] b := fun ⟨_, hc⟩ => nomatch hc

theorem Tail.concat {es : Edges} {b u v : BlockId} :
    Tail (es ++ [(u, v)]) b ↔ Tail es b ∨ b = u := by
  constructor
  · rintro ⟨c, hc⟩
    rcases mem_concat.mp hc with hc | ⟨rfl, -⟩
    · exact Or.inl ⟨c, hc⟩
    · exact Or.inr rfl
  · rintro (⟨c, hc⟩ | rfl)
    · exact ⟨c, mem_concat.mpr (Or.inl hc)⟩
    · exact ⟨v, mem_concat.mpr (Or.inr ⟨rfl, rfl⟩)⟩

theorem Placed.concat {es : Edges} {b u v : BlockId} (h : Placed g es b) :
    Placed g (es ++ [(u, v)]) b := h.imp_right fun ht => Tail.concat.mpr (Or.inl ht)

/-- The edges out of other blocks are the same. -/
theorem OnlyEdge.of_concat {es : Edges} {u v b c : BlockId} (hb : b ≠ u)
    (h : OnlyEdge (es ++ [(u, v)]) b c) : OnlyEdge es b c := by
  refine ⟨(mem_concat.mp h.1).resolve_right fun hh => hb hh.1, fun d hd => ?_⟩
  exact h.2 d (mem_concat.mpr (Or.inl hd))

/-- The return node has no way out. -/
theorem return_ne_tail (hg : IsCfg g) {u v : BlockId} (h : Edge g u v) : u ≠ g.returnNode := by
  rintro rfl
  exact hg.starting_ne _ v h hg.return_starting

section Graph

variable {es : Edges} (hg : IsCfg g) (hes : Visited g es)

include hg hes

theorem placed_start {b : BlockId} (h : Placed g es b) :
    (g.blocks b).startingAddress = 2 ↔ b = g.returnNode := by
  constructor
  · intro heq
    refine h.resolve_right ?_
    rintro ⟨v, hv⟩
    exact hg.starting_ne b v (hes.edge b v hv) heq
  · rintro rfl
    exact hg.return_starting

theorem placed_inj {b c : BlockId} (hb : Placed g es b) (hc : Placed g es c)
    (heq : (g.blocks b).startingAddress = (g.blocks c).startingAddress) : b = c := by
  rcases hb with rfl | ⟨v, hv⟩
  · exact ((placed_start hg hes hc).mp (heq ▸ hg.return_starting)).symm
  · rcases hc with rfl | ⟨w, hw⟩
    · exact (placed_start hg hes (Or.inr ⟨v, hv⟩)).mp (heq.trans hg.return_starting)
    · exact hg.starting_inj b v c w (hes.edge b v hv) (hes.edge c w hw) heq

theorem placed_lt {b : BlockId} (h : Placed g es b) : b < g.next := by
  rcases h with rfl | ⟨v, hv⟩
  · exact hg.return_lt
  · exact hg.edge_lt b v (hes.edge b v hv)

/-- A chain of placed blocks is shorter than the number of blocks. -/
theorem chain_length {parent : BlockId → Option BlockId} {b : BlockId} {cs : List BlockId}
    (h : Chain parent g.returnNode b cs) (hp : ∀ x ∈ b :: cs, Placed g es x) :
    cs.length < g.next := by
  have hsub : b :: cs ⊆ List.range g.next := fun x hx =>
    List.mem_range.mpr (placed_lt hg hes (hp x hx))
  have hlen := (List.subperm_of_subset h.nodup hsub).length_le
  rw [List.length_range] at hlen
  exact hlen

/-- Two edges out of a block are all of them. -/
theorem only_of_new {u v : BlockId} (huv : Edge g u v) (hnew : (u, v) ∉ es) {a : BlockId}
    (ha : (u, a) ∈ es) : OnlyEdge es u a := by
  refine ⟨ha, fun c hc => ?_⟩
  have hav : a ≠ v := by
    rintro rfl
    exact hnew ha
  have hcv : c ≠ v := by
    rintro rfl
    exact hnew hc
  obtain ⟨c₁, c₂, htwo⟩ := hg.twoOut u
  have h₂ := htwo a (hes.edge u a ha)
  have h₃ := htwo c (hes.edge u c hc)
  rcases htwo v huv with rfl | rfl
  · exact (h₃.resolve_left hcv).trans (h₂.resolve_left hav).symm
  · exact (h₃.resolve_right hcv).trans (h₂.resolve_right hav).symm

end Graph

/-! ## The tree -/

/-- The tree after the edges of `es` have been visited. -/
structure Tree (g : RoutineGraph ws) (es : Edges) (h : Infos ws) : Prop where
  flag : ∀ b, (info h b).isPostDominated = true ↔ Tail es b
  unplaced : ∀ b, ¬ Tail es b → parents h b = none
  chain : ∀ b, Placed g es b →
    ∃ cs, Chain (parents h) g.returnNode b cs ∧ ∀ x ∈ cs, Placed g es x
  reaches : ∀ b, Placed g es b → Reaches (On es) g.returnNode b
  first : ∀ b v, OnlyEdge es b v → parents h b = some v
  keys : ∀ w k, k ∈ (info h w).postDominated →
    ∃ b, Tail es b ∧ k = (g.blocks b).startingAddress
  notNull : ∀ b v, OnlyEdge es b v → ∀ w,
    (info h w).postDominated[(g.blocks b).startingAddress]? ≠ some none
  holds : ∀ b v, OnlyEdge es b v → ∀ cs, Chain (parents h) g.returnNode b cs → ∀ w,
    Holds h w (g.blocks b).startingAddress ↔ w ∈ cs

/-- The tree before the first edge: the return node. -/
theorem tree_nil (g : RoutineGraph ws) : Tree g [] ∅ where
  flag b := by
    refine iff_of_false ?_ (tail_nil (b := b))
    rw [info, Std.ExtTreeMap.getD_empty]
    exact Bool.false_ne_true
  unplaced b _ := by
    rw [parents, info, Std.ExtTreeMap.getD_empty]
    rfl
  chain b hb := by
    rcases hb with rfl | hb
    · exact ⟨[], .root, fun x hx => absurd hx List.not_mem_nil⟩
    · exact absurd hb tail_nil
  reaches b hb := by
    rcases hb with rfl | hb
    · exact ⟨_, .exit⟩
    · exact absurd hb tail_nil
  first b v hv := absurd hv.1 List.not_mem_nil
  keys w k hk := by
    rw [info, Std.ExtTreeMap.getD_empty] at hk
    exact absurd hk Std.ExtTreeMap.not_mem_empty
  notNull b v hv := absurd hv.1 List.not_mem_nil
  holds b v hv := absurd hv.1 List.not_mem_nil

/-- A placed block has a chain to the return node, through placed blocks. -/
theorem Tree.chain_all {es : Edges} {h : Infos ws} (ht : Tree g es h) {b : BlockId}
    (hb : Placed g es b) :
    ∃ cs, Chain (parents h) g.returnNode b cs ∧ ∀ x ∈ b :: cs, Placed g es x := by
  obtain ⟨cs, hcs, hplaced⟩ := ht.chain b hb
  refine ⟨cs, hcs, fun x hx => ?_⟩
  rcases List.mem_cons.mp hx with rfl | hx
  · exact hb
  · exact hplaced x hx

/-- A block that is not `NULL` at a key that is never `NULL` is a key. -/
theorem holds_iff_mem {h : Infos ws} {w : BlockId} {k : Addr ws}
    (hnull : (info h w).postDominated[k]? ≠ some none) :
    Holds h w k ↔ k ∈ (info h w).postDominated := by
  rw [Holds]
  rw [Std.ExtTreeMap.getD_eq_getD_getElem?, Std.ExtTreeMap.mem_iff_isSome_getElem?]
  cases hget : (info h w).postDominated[k]? with
  | none => simp
  | some o =>
      cases o with
      | none => exact absurd hget hnull
      | some c => simp

/-- What visiting the edge from `u` to `v` does to the parent of `u`: it becomes
    `v`, or the first block above `v` that was above `u`. -/
def Placing (g : RoutineGraph ws) (es : Edges) (h h' : Infos ws) (u v : BlockId) : Prop :=
  (¬ Tail es u ∧ parents h' u = some v) ∨
    ∃ w us cs pre post, parents h' u = some w ∧ Chain (parents h) g.returnNode u us
      ∧ Chain (parents h) g.returnNode v cs ∧ w ∈ us ∧ v :: cs = pre ++ w :: post
      ∧ ∀ b ∈ pre, b ∉ us

/-- Visit one edge. -/
def visitEdge (g : RoutineGraph ws) (h : Infos ws) (e : BlockId × BlockId) :
    Option (Infos ws) :=
  addPredecessorAsPostDominated g.blocks g.next h e.2 e.1

section Step

variable {es : Edges} {h : Infos ws} {u v : BlockId}

/-- A block without a visited way out is not in the tree. -/
theorem notPlaced_of_new (hg : IsCfg g) (huv : Edge g u v) (hu : ¬ Tail es u) :
    ¬ Placed g es u := by
  rintro (rfl | hu')
  · exact return_ne_tail hg huv rfl
  · exact hu hu'

theorem reaches_concat (ht : Tree g es h) (hv : Placed g es v) : ∀ b, Placed g (es ++ [(u, v)]) b →
    Reaches (On (es ++ [(u, v)])) g.returnNode b := by
  intro b hb
  have hold : ∀ b, Placed g es b → Reaches (On (es ++ [(u, v)])) g.returnNode b := fun b hb =>
    (ht.reaches b hb).mono fun x y he => mem_concat.mpr (Or.inl he)
  rcases hb with rfl | hb
  · exact hold _ (Or.inl rfl)
  · rcases Tail.concat.mp hb with hb | rfl
    · exact hold b (Or.inr hb)
    · exact (hold v hv).step (mem_concat.mpr (Or.inr ⟨rfl, rfl⟩))

variable (hg : IsCfg g) (hes : Visited g es) (ht : Tree g es h) (huv : Edge g u v)
  (hnew : (u, v) ∉ es) (hv : Placed g es v)

include hg hes ht huv hnew hv

omit hnew in
/-- What the first visit of a block does. -/
theorem visit_first (hu : ¬ Tail es u) : ∃ h' cs, visitEdge g h (u, v) = some h'
    ∧ Chain (parents h) g.returnNode v cs ∧ (∀ x ∈ v :: cs, Placed g es x)
    ∧ (∀ b, (info h' b).postDominator = if b = u then some v else (info h b).postDominator)
    ∧ (∀ b, (info h' b).isPostDominated = if b = u then true else (info h b).isPostDominated)
    ∧ ∀ b k, (info h' b).postDominated[k]?
      = if b ∈ v :: cs ∧ k = (g.blocks u).startingAddress then some (some u)
        else (info h b).postDominated[k]? := by
  obtain ⟨cs, hcs, hall⟩ := ht.chain_all hv
  obtain ⟨h', hrun, hparent, hflag, hmap⟩ := addPredecessorAsPostDominated_first
    ⟨hcs, fun x hx => placed_start hg hes (hall x hx)⟩
    (Bool.eq_false_iff.mpr fun hf => hu ((ht.flag u).mp hf))
    (fun hx => notPlaced_of_new hg huv hu (hall u hx)) (chain_length hg hes hcs hall)
  exact ⟨h', cs, hrun, hcs, hall, hparent, hflag, hmap⟩

/-- The first edge out of a block. -/
theorem tree_first (hu : ¬ Tail es u) :
    ∃ h', visitEdge g h (u, v) = some h' ∧ Tree g (es ++ [(u, v)]) h'
      ∧ Placing g es h h' u v := by
  obtain ⟨h', cs, hrun, hcs, hall, hparent, hflag, hmap⟩ :=
    visit_first hg hes ht huv hv hu
  have hnotPlaced : ¬ Placed g es u := notPlaced_of_new hg huv hu
  have hother : ∀ b, b ≠ u → parents h' b = parents h b := fun b hb =>
    (hparent b).trans (if_neg hb)
  have hself : parents h' u = some v := (hparent u).trans (if_pos rfl)
  -- chains of placed blocks do not pass through `u`
  have hchain : ∀ b bs, Chain (parents h) g.returnNode b bs → (∀ x ∈ b :: bs, Placed g es x) →
      Chain (parents h') g.returnNode b bs := by
    intro b bs hb hp
    refine hb.congr fun x hx => hother x ?_
    rintro rfl
    exact hnotPlaced (hp x hx)
  have hnewChain : Chain (parents h') g.returnNode u (v :: cs) :=
    .up (return_ne_tail hg huv) hself (hchain v cs hcs hall)
  have hkey : ∀ w b, Tail es b →
      (info h' w).postDominated[(g.blocks b).startingAddress]?
        = (info h w).postDominated[(g.blocks b).startingAddress]? := by
    intro w b ⟨c, hc⟩
    rw [hmap, if_neg]
    rintro ⟨-, heq⟩
    exact hu ((hg.starting_inj b c u v (hes.edge b c hc) huv heq) ▸ ⟨c, hc⟩)
  -- no map has the key of `u` yet
  have hfresh : ∀ w, (info h w).postDominated[(g.blocks u).startingAddress]? = none := by
    intro w
    refine Std.ExtTreeMap.getElem?_eq_none fun hk => ?_
    obtain ⟨b, ⟨c, hc⟩, heq⟩ := ht.keys w _ hk
    exact hu ((hg.starting_inj b c u v (hes.edge b c hc) huv heq.symm) ▸ ⟨c, hc⟩)
  have honlyOld : ∀ b c, OnlyEdge (es ++ [(u, v)]) b c → b ≠ u → OnlyEdge es b c :=
    fun b c hb hbu => hb.of_concat hbu
  refine ⟨h', hrun, ⟨fun b => ?_, fun b hb => ?_, fun b hb => ?_,
    reaches_concat ht hv, fun b c hb => ?_, fun w k hk => ?_,
    fun b c hb w => ?_, fun b c hb bs hbs w => ?_⟩, Or.inl ⟨hu, hself⟩⟩
  · rw [hflag, Tail.concat]
    by_cases hbu : b = u
    · simp [hbu]
    · rw [if_neg hbu, ht.flag]
      simp [hbu]
  · have hbu : b ≠ u := fun heq => hb (Tail.concat.mpr (Or.inr heq))
    rw [hother b hbu]
    exact ht.unplaced b fun hb' => hb (Tail.concat.mpr (Or.inl hb'))
  · by_cases hbu : b = u
    · subst hbu
      exact ⟨v :: cs, hnewChain, fun x hx => (hall x hx).concat⟩
    · have hold : Placed g es b := hb.imp_right fun ht' =>
        (Tail.concat.mp ht').resolve_right hbu
      obtain ⟨bs, hbs, hp⟩ := ht.chain_all hold
      exact ⟨bs, hchain b bs hbs hp, fun x hx => (hp x (List.mem_cons_of_mem _ hx)).concat⟩
  · by_cases hbu : b = u
    · subst hbu
      rw [hself, hb.2 v (mem_concat.mpr (Or.inr ⟨rfl, rfl⟩))]
    · rw [hother b hbu]
      exact ht.first b c (honlyOld b c hb hbu)
  · rw [Std.ExtTreeMap.mem_iff_isSome_getElem?, hmap] at hk
    by_cases hw : w ∈ v :: cs ∧ k = (g.blocks u).startingAddress
    · exact ⟨u, Tail.concat.mpr (Or.inr rfl), hw.2⟩
    · rw [if_neg hw] at hk
      obtain ⟨b, hb, heq⟩ := ht.keys w k (Std.ExtTreeMap.mem_iff_isSome_getElem?.mpr hk)
      exact ⟨b, Tail.concat.mpr (Or.inl hb), heq⟩
  · by_cases hbu : b = u
    · subst hbu
      rw [hmap]
      split
      · simp
      · rw [hfresh]
        simp
    · have hold := honlyOld b c hb hbu
      rw [hkey w b ⟨c, hold.1⟩]
      exact ht.notNull b c hold w
  · rw [Holds]
    rw [Std.ExtTreeMap.getD_eq_getD_getElem?]
    by_cases hbu : b = u
    · subst hbu
      rw [hbs.unique hnewChain, hmap]
      by_cases hw : w ∈ v :: cs
      · rw [if_pos ⟨hw, rfl⟩]
        simp [hw]
      · rw [if_neg fun hh => hw hh.1, hfresh]
        simp [hw]
    · have hold := honlyOld b c hb hbu
      obtain ⟨bs', hbs', hp⟩ := ht.chain_all (Or.inr ⟨c, hold.1⟩)
      have hsame : bs = bs' := hbs.unique (hchain b bs' hbs' hp)
      rw [hkey w b ⟨c, hold.1⟩, hsame, ← Std.ExtTreeMap.getD_eq_getD_getElem?]
      exact ht.holds b c hold bs' hbs' w

/-- What the second visit of a block does: `p` is its parent, `seg` are the
    ancestors it loses. -/
theorem visit_again {a : BlockId} (ha : (u, a) ∈ es) :
    ∃ h' p ps cs w seg rest pre post, visitEdge g h (u, v) = some h'
      ∧ Chain (parents h) g.returnNode u (p :: ps) ∧ Chain (parents h) g.returnNode v cs
      ∧ p :: ps = seg ++ w :: rest ∧ v :: cs = pre ++ w :: post ∧ (∀ b ∈ pre, b ∉ p :: ps)
      ∧ (∀ b, (info h' b).postDominator = if b = u then some w else (info h b).postDominator)
      ∧ (∀ b, (info h' b).isPostDominated = (info h b).isPostDominated)
      ∧ (∀ b k, k ≠ (g.blocks u).startingAddress → (info h' b).postDominated[k]?
        = if b ∈ seg ∧ k ∈ (info h u).postDominated then none
          else (info h b).postDominated[k]?)
      ∧ ∀ b, Holds h' b (g.blocks u).startingAddress
        ↔ Holds h b (g.blocks u).startingAddress ∧ b ∉ seg := by
  have honly := only_of_new hg hes huv hnew ha
  obtain ⟨cs, hcs, hall⟩ := ht.chain_all hv
  obtain ⟨us, hus, hallu⟩ := ht.chain_all (Or.inr ⟨a, ha⟩)
  obtain ⟨p, ps, hpu, rfl, -⟩ := hus.exists_parent (return_ne_tail hg huv)
  have husPlaced : ∀ x ∈ p :: ps, Placed g es x := fun x hx =>
    hallu x (List.mem_cons_of_mem _ hx)
  obtain ⟨h', w, seg, rest, pre, post, hrun, hseg, hsplit, hpre, hparent, hflag, hmap, hself⟩ :=
    addPredecessorAsPostDominated_again
      ⟨hcs, fun x hx => placed_start hg hes (hall x hx)⟩
      ⟨hus, fun x hx => placed_start hg hes (hallu x hx)⟩
      ((ht.flag u).mpr ⟨a, ha⟩) (fun b => ht.holds u a honly _ hus b)
      (fun b hb c hc heq => placed_inj hg hes (husPlaced b hb) (husPlaced c hc) heq)
      (chain_length hg hes hcs hall)
      (Nat.lt_of_succ_lt (chain_length hg hes hus hallu))
  exact ⟨h', p, ps, cs, w, seg, rest, pre, post, hrun, hus, hcs, hseg, hsplit, hpre, hparent,
    hflag, hmap, hself⟩

/-- The second edge out of a block. -/
theorem tree_again {a : BlockId} (ha : (u, a) ∈ es) :
    ∃ h', visitEdge g h (u, v) = some h' ∧ Tree g (es ++ [(u, v)]) h'
      ∧ Placing g es h h' u v := by
  have hav : a ≠ v := by
    rintro rfl
    exact hnew ha
  obtain ⟨h', p, ps, cs, w, seg, rest, pre, post, hrun, hus, hcs, hseg, hsplit, hpre, hparent,
    hflag, hmap, -⟩ := visit_again hg hes ht huv hnew hv ha
  have hother : ∀ b, b ≠ u → parents h' b = parents h b := fun b hb =>
    (hparent b).trans (if_neg hb)
  have hself : parents h' u = some w := (hparent u).trans (if_pos rfl)
  have hmove : ∀ b bs, Chain (parents h) g.returnNode b bs →
      ∃ bs', Chain (parents h') g.returnNode b bs' ∧ bs'.Sublist bs
        ∧ ∀ y, y ∈ bs' ↔ y ∈ bs ∧ ¬ (y ∈ seg ∧ (b = u ∨ u ∈ bs)) := fun b bs hb =>
    Chain.reparent (hseg ▸ hus) hself hother hb
  have honlyOld : ∀ b c, OnlyEdge (es ++ [(u, v)]) b c → b ≠ u ∧ OnlyEdge es b c := by
    intro b c hb
    have hbu : b ≠ u := by
      rintro rfl
      have h₁ := hb.2 a (mem_concat.mpr (Or.inl ha))
      have h₂ := hb.2 v (mem_concat.mpr (Or.inr ⟨rfl, rfl⟩))
      exact hav (h₁.trans h₂.symm)
    exact ⟨hbu, hb.of_concat hbu⟩
  have hkey : ∀ w b, b ≠ u → Tail es b →
      (info h' w).postDominated[(g.blocks b).startingAddress]?
        = if w ∈ seg ∧ (g.blocks b).startingAddress ∈ (info h u).postDominated then none
          else (info h w).postDominated[(g.blocks b).startingAddress]? := by
    intro w b hbu ⟨c, hc⟩
    refine hmap w _ fun heq => hbu ?_
    exact hg.starting_inj b c u v (hes.edge b c hc) huv heq
  refine ⟨h', hrun, ⟨fun b => ?_, fun b hb => ?_, fun b hb => ?_,
    reaches_concat ht hv, fun b c hb => ?_, fun x k hk => ?_,
    fun b c hb x => ?_, fun b c hb bs hbs x => ?_⟩,
    Or.inr ⟨w, p :: ps, cs, pre, post, hself, hus, hcs, ?_, hsplit, hpre⟩⟩
  · rw [hflag, Tail.concat, ht.flag]
    constructor
    · exact Or.inl
    · rintro (hb | rfl)
      · exact hb
      · exact ⟨a, ha⟩
  · have hbu : b ≠ u := fun heq => hb (Tail.concat.mpr (Or.inr heq))
    rw [hother b hbu]
    exact ht.unplaced b fun hb' => hb (Tail.concat.mpr (Or.inl hb'))
  · have hold : Placed g es b := hb.imp_right fun ht' =>
      (Tail.concat.mp ht').elim id fun heq => heq ▸ ⟨a, ha⟩
    obtain ⟨bs, hbs, hp⟩ := ht.chain b hold
    obtain ⟨bs', hbs', hsub, -⟩ := hmove b bs hbs
    exact ⟨bs', hbs', fun x hx => (hp x (hsub.subset hx)).concat⟩
  · obtain ⟨hbu, hold⟩ := honlyOld b c hb
    rw [hother b hbu]
    exact ht.first b c hold
  · by_cases hk' : k = (g.blocks u).startingAddress
    · exact ⟨u, Tail.concat.mpr (Or.inr rfl), hk'⟩
    · rw [Std.ExtTreeMap.mem_iff_isSome_getElem?, hmap x k hk'] at hk
      split at hk
      · exact absurd hk Bool.false_ne_true
      · obtain ⟨b, hb, heq⟩ := ht.keys x k (Std.ExtTreeMap.mem_iff_isSome_getElem?.mpr hk)
        exact ⟨b, Tail.concat.mpr (Or.inl hb), heq⟩
  · obtain ⟨hbu, hold⟩ := honlyOld b c hb
    rw [hkey x b hbu ⟨c, hold.1⟩]
    split
    · simp
    · exact ht.notNull b c hold x
  · obtain ⟨hbu, hold⟩ := honlyOld b c hb
    obtain ⟨bs₀, hbs₀, -⟩ := ht.chain b (Or.inr ⟨c, hold.1⟩)
    obtain ⟨bs', hbs', -, hmem⟩ := hmove b bs₀ hbs₀
    -- the key of `b` is in the map of `u` exactly when `b` is below `u`
    have hbelow : (g.blocks b).startingAddress ∈ (info h u).postDominated ↔ u ∈ bs₀ :=
      (holds_iff_mem (ht.notNull b c hold u)).symm.trans (ht.holds b c hold bs₀ hbs₀ u)
    have hx := ht.holds b c hold bs₀ hbs₀ x
    rw [hbs.unique hbs', hmem, ← hx]
    rw [Holds]
    rw [Std.ExtTreeMap.getD_eq_getD_getElem?, hkey x b hbu ⟨c, hold.1⟩]
    by_cases hcut : x ∈ seg ∧ (g.blocks b).startingAddress ∈ (info h u).postDominated
    · rw [if_pos hcut]
      refine iff_of_false (by simp) fun hh => hh.2 ⟨hcut.1, Or.inr (hbelow.mp hcut.2)⟩
    · rw [if_neg hcut, ← Std.ExtTreeMap.getD_eq_getD_getElem?]
      refine ⟨fun hh => ⟨hh, ?_⟩, fun hh => hh.1⟩
      rintro ⟨hxs, heq | hu⟩
      · exact hbu heq
      · exact hcut ⟨hxs, hbelow.mpr hu⟩
  · rw [hseg]
    exact List.mem_append_right _ List.mem_cons_self

/-- **One edge**: the visit completes and the tree is a tree again. -/
theorem tree_step : ∃ h', visitEdge g h (u, v) = some h' ∧ Tree g (es ++ [(u, v)]) h'
    ∧ Placing g es h h' u v := by
  by_cases hu : Tail es u
  · obtain ⟨a, ha⟩ := hu
    exact tree_again hg hes ht huv hnew hv ha
  · exact tree_first hg hes ht huv hnew hv hu

end Step

/-! ## When the tree is right -/

/-- Every parent is the immediate post-dominator in the graph visited so far. -/
def Right (g : RoutineGraph ws) (es : Edges) (h : Infos ws) : Prop :=
  ∀ b, Tail es b → ∃ p, parents h b = some p ∧ IsImmediate (On es) g.returnNode b p

/-- The parents of blocks out of which no edge of `rest` leads are the
    immediate post-dominators in the whole graph. -/
def Final (g : RoutineGraph ws) (es rest : Edges) (h : Infos ws) : Prop :=
  ∀ b, Tail es b → (∀ c, (b, c) ∉ rest) → ∀ p, parents h b = some p →
    IsImmediate (Edge g) g.returnNode b p

/-- Where the tree is right, the ancestors are the post-dominators. -/
theorem Right.postDominates_iff {es : Edges} {h : Infos ws} (hr : Right g es h)
    (ht : Tree g es h) {b : BlockId} {cs : List BlockId} (hb : Placed g es b)
    (hc : Chain (parents h) g.returnNode b cs) (q : BlockId) :
    PostDominates (On es) g.returnNode q b ↔ q ∈ b :: cs := by
  obtain ⟨cs', hc', hp⟩ := ht.chain_all hb
  rw [hc.unique hc']
  exact hc'.postDominates_iff (fun x hx hne => hr x ((hp x hx).resolve_left hne)) q

section RightStep

variable {es : Edges} {h h' : Infos ws} {u v : BlockId} (hg : IsCfg g) (ht : Tree g es h)
  (huv : Edge g u v) (hr : Right g es h)

include hg ht huv hr

/-- The parent of the block that is visited is right again. -/
theorem right_self (hv : Placed g es v) (hp : Placing g es h h' u v) :
    ∃ p, parents h' u = some p ∧ IsImmediate (On (es ++ [(u, v)])) g.returnNode u p := by
  have hne := return_ne_tail hg huv
  have hnewEdge : On (es ++ [(u, v)]) u v := mem_concat.mpr (Or.inr ⟨rfl, rfl⟩)
  rcases hp with ⟨hu, hself⟩ | ⟨w, us, cs, pre, post, hself, hus, hcs, hw, hsplit, hpre⟩
  · refine ⟨v, hself, isImmediate_of_only hne ?_ hnewEdge fun c hc => ?_⟩
    · rintro rfl
      exact hu (hv.resolve_left hne)
    · exact ((mem_concat.mp hc).resolve_left fun hold => hu ⟨c, hold⟩).2
  -- `u` has a parent: `w` is the first of its ancestors that is one of `v`
  · have huTail : Placed g es u := by
      by_contra hu
      have hnone : parents h u = none := ht.unplaced u fun hu' => hu (Or.inr hu')
      obtain ⟨c, _, hsome, -⟩ := hus.exists_parent hne
      exact nomatch hnone.symm.trans hsome
    have hwv : w ∈ v :: cs := hsplit ▸ List.mem_append_right _ List.mem_cons_self
    have hwPlaced : Placed g es w := by
      obtain ⟨us', hus', hplaced⟩ := ht.chain u huTail
      exact hplaced w (hus.unique hus' ▸ hw)
    have hpost : Chain (parents h) g.returnNode w post := by
      cases pre with
      | nil =>
          obtain ⟨rfl, rfl⟩ := List.cons.inj hsplit
          exact hcs
      | cons x pre =>
          obtain ⟨-, rfl⟩ := List.cons.inj hsplit
          exact hcs.after
    refine ⟨w, hself, isImmediate_of_nearest (extends_concat es u v) ?_ ?_ ?_ ?_⟩
    · rintro rfl
      exact hus.notMem_self hw
    · exact (hr.postDominates_iff ht huTail hus w).mpr (List.mem_cons_of_mem _ hw)
    · exact (hr.postDominates_iff ht hv hcs w).mpr hwv
    -- any other common post-dominator is behind `w`
    · intro q hq hqu hqv
      have hqus := (List.mem_cons.mp ((hr.postDominates_iff ht huTail hus q).mp hqu)).resolve_left hq
      have hqcs := (hr.postDominates_iff ht hv hcs q).mp hqv
      rw [hsplit] at hqcs
      refine (hr.postDominates_iff ht hwPlaced hpost q).mpr ?_
      exact (List.mem_append.mp hqcs).resolve_left fun hqpre => hpre q hqpre hqus

/-- The parents of the other blocks are still right, if those of the blocks
    without an edge to come are right for good. -/
theorem right_other (hes : Visited g es) {post : Edges} (hpost : Visited g (es ++ (u, v) :: post))
    (hfinal : Final g es ((u, v) :: post) h) {b : BlockId} (hbu : b ≠ u) (hb : Tail es b)
    (hother : parents h' b = parents h b) :
    ∃ p, parents h' b = some p ∧ IsImmediate (On (es ++ [(u, v)])) g.returnNode b p := by
  obtain ⟨p, hp, himm⟩ := hr b hb
  refine ⟨p, hother.trans hp, ?_⟩
  obtain ⟨d, hd⟩ := hb
  have hne := return_ne_tail hg (hes.edge b d hd)
  have hle : ∀ x y, On es x y → On (es ++ [(u, v)]) x y := (extends_concat es u v).le
  have hgraph : ∀ x y, On (es ++ [(u, v)]) x y → Edge g x y := fun x y he => by
    rcases mem_concat.mp he with he | ⟨rfl, rfl⟩
    · exact hes.edge x y he
    · exact huv
  by_cases hlater : ∃ c, (b, c) ∈ (u, v) :: post
  · -- one edge out of `b` has been visited: its parent is the head of that edge
    obtain ⟨c, hc⟩ := hlater
    have hnotMem : (b, c) ∉ es := fun hold =>
      List.disjoint_of_nodup_append hpost.nodup hold hc
    have honly := only_of_new hg hes (hpost.edge b c (List.mem_append_right _ hc)) hnotMem hd
    cases hp.symm.trans (ht.first b d honly)
    refine isImmediate_of_only hne himm.ne (hle b p hd) fun x hx => ?_
    exact honly.2 x ((mem_concat.mp hx).resolve_right fun hh => hbu hh.1)
  · have hwhole := hfinal b ⟨d, hd⟩ (fun c hc => hlater ⟨c, hc⟩) p hp
    exact himm.between hle hgraph (ht.reaches b (Or.inr ⟨d, hd⟩)) hne hwhole

end RightStep

/-! ## The whole run -/

/-- The tree after the edges of `es`. -/
def treeOf (g : RoutineGraph ws) (es : Edges) : Option (Infos ws) := es.foldlM (visitEdge g) ∅

/-- A list of all edges into blocks that reach the return node, each head
    placed when its edge is visited. -/
structure FullVisit (g : RoutineGraph ws) (es : Edges) : Prop where
  visited : Visited g es
  ordered : BreadthFirst.WellOrdered (· = g.returnNode) es
  complete : ∀ u v, Edge g u v → Reaches (Edge g) g.returnNode v → (u, v) ∈ es

/-- **The tree is right**: every block with a path to the return node, other
    than that node, has its immediate post-dominator. -/
def Correct (g : RoutineGraph ws) (h : Infos ws) : Prop :=
  ∀ b, b ≠ g.returnNode → Reaches (Edge g) g.returnNode b →
    ∃ p, (info h b).postDominator = some p ∧ IsImmediate (Edge g) g.returnNode b p

/-- After the last edge out of a block has been visited, no edge visited later
    changes the immediate post-dominator of the block. -/
def SettledOn (g : RoutineGraph ws) (es : Edges) : Prop :=
  ∀ pre u v post, es = pre ++ (u, v) :: post → (∀ c, (u, c) ∉ post) →
    ∀ p, IsImmediate (On (pre ++ [(u, v)])) g.returnNode u p →
      IsImmediate (Edge g) g.returnNode u p

theorem Visited.prefix_of {es rest : Edges} (h : Visited g (es ++ rest)) : Visited g es :=
  ⟨fun u v he => h.edge u v (List.mem_append_left _ he), h.nodup.of_append_left⟩

theorem treeOf_concat (es : Edges) (e : BlockId × BlockId) :
    treeOf g (es ++ [e]) = (treeOf g es).bind fun h => visitEdge g h e := by
  simp only [treeOf]
  rw [List.foldlM_append]
  simp

/-- Blocks out of which no edge leads keep their parents. -/
theorem parents_kept {es : Edges} {h h' : Infos ws}
    (hrun : es.foldlM (visitEdge g) h = some h') {b : BlockId} (hb : ∀ c, (b, c) ∉ es) :
    parents h' b = parents h b := by
  induction es generalizing h with
  | nil =>
      cases hrun
      rfl
  | cons e es ih =>
      obtain ⟨h₁, hstep, hrest⟩ := Option.bind_eq_some_iff.mp hrun
      rw [ih hrest fun c hc => hb c (List.mem_cons_of_mem _ hc)]
      refine addPredecessorAsPostDominated_other hstep ?_
      rintro rfl
      exact hb e.2 List.mem_cons_self

section Run

variable {all : Edges}

/-- A block that reaches the return node has a visited way out. -/
theorem tail_of_reaches (hall : FullVisit g all) {b : BlockId} (hne : b ≠ g.returnNode)
    (hr : Reaches (Edge g) g.returnNode b) : Tail all b := by
  obtain ⟨p, hp⟩ := hr
  cases hp with
  | exit => exact absurd rfl hne
  | step he hp => exact ⟨_, hall.complete _ _ he ⟨_, hp⟩⟩

/-- What is known of the edge that is visited next. -/
theorem FullVisit.next_edge {es rest : Edges} {u v : BlockId} (hall : FullVisit g all)
    (hcut : all = es ++ (u, v) :: rest) :
    Visited g es ∧ Edge g u v ∧ (u, v) ∉ es ∧ Placed g es v := by
  have hvis : Visited g (es ++ (u, v) :: rest) := hcut ▸ hall.visited
  refine ⟨hvis.prefix_of, hvis.edge u v (List.mem_append_right _ List.mem_cons_self), ?_,
    (hcut ▸ hall.ordered).head⟩
  exact fun hold => List.disjoint_of_nodup_append hvis.nodup hold List.mem_cons_self

variable (hg : IsCfg g) (hall : FullVisit g all)

include hg hall

/-- **Every prefix of the run completes**, and leaves a tree. -/
theorem tree_prefix (es rest : Edges) (hsplit : all = es ++ rest) :
    ∃ h, treeOf g es = some h ∧ Tree g es h := by
  induction es using List.reverseRecOn generalizing rest with
  | nil => exact ⟨∅, rfl, tree_nil g⟩
  | append_singleton es e ih =>
      obtain ⟨u, v⟩ := e
      have hcut : all = es ++ (u, v) :: rest := hsplit.trans (List.append_cons _ _ _).symm
      obtain ⟨h, hrun, ht⟩ := ih _ hcut
      obtain ⟨hes, huv, hnew, hv⟩ := hall.next_edge hcut
      obtain ⟨h', hstep, ht', -⟩ := tree_step hg hes ht huv hnew hv
      exact ⟨h', by rw [treeOf_concat, hrun]; exact hstep, ht'⟩

/-- If each block gets its final immediate post-dominator with its last edge,
    the tree is right after every prefix. -/
theorem right_prefix
    (hlast : ∀ es u v rest h', all = es ++ (u, v) :: rest →
      treeOf g (es ++ [(u, v)]) = some h' → Right g (es ++ [(u, v)]) h' →
      (∀ c, (u, c) ∉ rest) → ∀ p, parents h' u = some p →
        IsImmediate (Edge g) g.returnNode u p)
    (es rest : Edges) (hsplit : all = es ++ rest) {h : Infos ws} (hrun : treeOf g es = some h) :
    Right g es h ∧ Final g es rest h := by
  induction es using List.reverseRecOn generalizing rest h with
  | nil => exact ⟨fun b hb => absurd hb tail_nil, fun b hb => absurd hb tail_nil⟩
  | append_singleton es e ih =>
      obtain ⟨u, v⟩ := e
      have hcut : all = es ++ (u, v) :: rest := hsplit.trans (List.append_cons _ _ _).symm
      obtain ⟨h₀, hrun₀, ht⟩ := tree_prefix hg hall es _ hcut
      obtain ⟨hright, hfinal⟩ := ih _ hcut hrun₀
      have hvis : Visited g (es ++ (u, v) :: rest) := hcut ▸ hall.visited
      obtain ⟨hes, huv, hnew, hv⟩ := hall.next_edge hcut
      obtain ⟨h', hstep, -, hplacing⟩ := tree_step hg hes ht huv hnew hv
      have hrun' : treeOf g (es ++ [(u, v)]) = some h' := by
        rw [treeOf_concat, hrun₀]
        exact hstep
      cases hrun.symm.trans hrun'
      -- the last visit changes the parent of `u` only
      have hother : ∀ b, b ≠ u → parents h b = parents h₀ b := fun b hb =>
        addPredecessorAsPostDominated_other hstep hb
      have hright' : Right g (es ++ [(u, v)]) h := by
        intro b hb
        by_cases hbu : b = u
        · subst hbu
          exact right_self hg ht huv hright hv hplacing
        · exact right_other hg ht huv hright hes hvis hfinal hbu
            ((Tail.concat.mp hb).resolve_right hbu) (hother b hbu)
      refine ⟨hright', fun b hb hnone p hp => ?_⟩
      by_cases hbu : b = u
      · subst hbu
        exact hlast es b v rest h hcut hrun hright' hnone p hp
      · refine hfinal b ((Tail.concat.mp hb).resolve_right hbu) (fun c hc => ?_) p
          ((hother b hbu) ▸ hp)
        rcases List.mem_cons.mp hc with heq | hc
        · exact hbu (Prod.mk.inj heq).1
        · exact hnone c hc

/-- The tree is right in the end exactly when the blocks are settled. -/
theorem correct_iff_settledOn {h : Infos ws} (hrun : treeOf g all = some h) :
    Correct g h ↔ SettledOn g all := by
  have hwhole : all = all ++ [] := (List.append_nil all).symm
  constructor
  · intro hcorrect pre u v post hcut hnone p himm
    have hall' : all = (pre ++ [(u, v)]) ++ post := hcut.trans (List.append_cons _ _ _)
    -- what a block has after its last edge it has in the end
    have hkept : ∀ es x y rest h', all = es ++ (x, y) :: rest →
        treeOf g (es ++ [(x, y)]) = some h' → (∀ c, (x, c) ∉ rest) →
        parents h x = parents h' x := by
      intro es x y rest h' hcut hrun' hnone
      have hrest : rest.foldlM (visitEdge g) h' = some h := by
        have hcut' : all = (es ++ [(x, y)]) ++ rest := hcut.trans (List.append_cons _ _ _)
        have hsplit := hrun
        rw [hcut', treeOf, List.foldlM_append] at hsplit
        obtain ⟨h₁, hfirst, hrest⟩ := Option.bind_eq_some_iff.mp hsplit
        cases hrun'.symm.trans hfirst
        exact hrest
      exact parents_kept hrest hnone
    have hlast : ∀ es x y rest h', all = es ++ (x, y) :: rest →
        treeOf g (es ++ [(x, y)]) = some h' → Right g (es ++ [(x, y)]) h' →
        (∀ c, (x, c) ∉ rest) → ∀ p, parents h' x = some p →
          IsImmediate (Edge g) g.returnNode x p := by
      intro es x y rest h' hcut hrun' hright hnone p hp
      have hvis : Visited g (es ++ (x, y) :: rest) := hcut ▸ hall.visited
      have hxy := hvis.edge x y (List.mem_append_right _ List.mem_cons_self)
      obtain ⟨h₁, hrun₁, ht⟩ :=
        tree_prefix hg hall (es ++ [(x, y)]) rest (hcut.trans (List.append_cons _ _ _))
      have hreach : Reaches (Edge g) g.returnNode x := by
        refine (ht.reaches x (Or.inr (Tail.concat.mpr (Or.inr rfl)))).mono fun a c he => ?_
        rcases mem_concat.mp he with he | ⟨rfl, rfl⟩
        · exact hvis.edge a c (List.mem_append_left _ he)
        · exact hxy
      obtain ⟨q, hq, himm⟩ := hcorrect x (return_ne_tail hg hxy) hreach
      have hpq : parents h x = some q := hq
      rw [hkept es x y rest h' hcut hrun' hnone, hp] at hpq
      exact Option.some.inj hpq ▸ himm
    obtain ⟨h', hrun', ht⟩ := tree_prefix hg hall (pre ++ [(u, v)]) post hall'
    obtain ⟨hright, hfinal⟩ := right_prefix hg hall hlast _ post hall' hrun'
    have hu : Tail (pre ++ [(u, v)]) u := Tail.concat.mpr (Or.inr rfl)
    obtain ⟨q, hq, himmq⟩ := hright u hu
    have hpq : p = q := by
      refine himm.unique ?_ himmq
      exact himm.dominates.reaches (ht.reaches u (Or.inr hu))
    exact hpq ▸ hfinal u hu hnone q hq
  · intro hsettled b hne hreach
    have hlast : ∀ es x y rest h', all = es ++ (x, y) :: rest →
        treeOf g (es ++ [(x, y)]) = some h' → Right g (es ++ [(x, y)]) h' →
        (∀ c, (x, c) ∉ rest) → ∀ p, parents h' x = some p →
          IsImmediate (Edge g) g.returnNode x p := by
      intro es x y rest h' hcut hrun' hright hnone p hp
      obtain ⟨q, hq, himm⟩ := hright x (Tail.concat.mpr (Or.inr rfl))
      cases hp.symm.trans hq
      exact hsettled es x y rest hcut hnone p himm
    obtain ⟨hright, hfinal⟩ := right_prefix hg hall hlast all [] hwhole hrun
    have hb := tail_of_reaches hall hne hreach
    obtain ⟨p, hp, -⟩ := hright b hb
    exact ⟨p, hp, hfinal b hb (fun c hc => nomatch hc) p hp⟩

end Run

/-! ## The visits of `buildPostDominanceTree` -/

/-- The edges in the order `buildPostDominanceTree` visits them. -/
def visitsOf (order : IterationOrder) (g : RoutineGraph ws) : Edges :=
  BreadthFirst.visits (predecessorsOf order g) g.next g.returnNode

section Visits

variable (order : IterationOrder)

theorem mem_predecessorsOf {u v : BlockId} : u ∈ predecessorsOf order g v ↔ Edge g u v :=
  (order.perm _).mem_iff

theorem nodup_predecessorsOf (hg : IsCfg g) (v : BlockId) : (predecessorsOf order g v).Nodup :=
  (order.perm _).nodup_iff.mpr (hg.nodup v)

/-- The last turn leaves the queue empty. -/
theorem buildPostDominanceTree_last {fuel : Nat} {h h₁ : Infos ws} {currentBlock : BlockId}
    {queue : List BlockId}
    (hloop : (predecessorsOf order g currentBlock).foldlM (visitPredecessor g currentBlock)
      (h, queue) = some (h₁, [])) :
    buildPostDominanceTree order g (fuel + 1) h currentBlock queue = some h₁ := by
  rw [buildPostDominanceTree, hloop]
  rfl

/-- Any other turn goes on with the first block of the queue. -/
theorem buildPostDominanceTree_next {fuel : Nat} {h h₁ : Infos ws}
    {currentBlock nextBlock : BlockId} {queue rest : List BlockId}
    (hloop : (predecessorsOf order g currentBlock).foldlM (visitPredecessor g currentBlock)
      (h, queue) = some (h₁, nextBlock :: rest)) :
    buildPostDominanceTree order g (fuel + 1) h currentBlock queue
      = buildPostDominanceTree order g fuel h₁ nextBlock rest := by
  rw [buildPostDominanceTree, hloop]
  rfl

/-- The inner loop: each predecessor is visited, and queued if it had no parent. -/
theorem foldlM_visitPredecessor {v : BlockId} {seen us : List BlockId} {h : Infos ws}
    {queue : List BlockId} (hus : us.Nodup)
    (hnew : ∀ u ∈ us, parents h u = none ↔ u ∉ seen) :
    us.foldlM (visitPredecessor g v) (h, queue)
      = ((us.map (·, v)).foldlM (visitEdge g) h).map fun h' =>
        (h', queue ++ us.filter (· ∉ seen)) := by
  induction us generalizing h queue with
  | nil => simp
  | cons u us ih =>
      rw [List.foldlM_cons, List.map_cons, List.foldlM_cons]
      obtain ⟨hu, hus⟩ := List.nodup_cons.mp hus
      -- a block is queued on its first visit
      have hqueue : (if (info h u).postDominator = none then queue ++ [u] else queue)
          ++ us.filter (· ∉ seen) = queue ++ (u :: us).filter (· ∉ seen) := by
        have hiff : (info h u).postDominator = none ↔ u ∉ seen := hnew u List.mem_cons_self
        by_cases hseen : u ∈ seen
        · rw [if_neg fun hh => hiff.mp hh hseen, List.filter_cons_of_neg (by simpa using hseen)]
        · rw [if_pos (hiff.mpr hseen), List.filter_cons_of_pos (by simpa using hseen),
            List.append_assoc]
          rfl
      cases hstep : visitEdge g h (u, v) with
      | none =>
          have hnone : addPredecessorAsPostDominated g.blocks g.next h v u = none := hstep
          simp [visitPredecessor, hnone]
      | some h₁ =>
          have hsome : addPredecessorAsPostDominated g.blocks g.next h v u = some h₁ := hstep
          -- the visit of `u` gives a parent to no other block
          have hnew₁ : ∀ c ∈ us, parents h₁ c = none ↔ c ∉ seen := by
            intro c hc
            have hcu : c ≠ u := by
              rintro rfl
              exact hu hc
            rw [addPredecessorAsPostDominated_other hsome hcu]
            exact hnew c (List.mem_cons_of_mem _ hc)
          have hrec : us.foldlM (visitPredecessor g v)
              (h₁, if (info h u).postDominator = none then queue ++ [u] else queue) = _ :=
            ih hus hnew₁
          rw [hqueue] at hrec
          simp only [visitPredecessor, hsome, Option.bind_eq_bind, Option.bind_some]
          exact hrec

/-- The heads of edges that have been visited have parents. -/
theorem parents_visited {es : Edges} {h h' : Infos ws}
    (hrun : es.foldlM (visitEdge g) h = some h') (b : BlockId) :
    parents h' b = none ↔ parents h b = none ∧ ¬ Tail es b := by
  induction es generalizing h with
  | nil =>
      cases hrun
      exact ⟨fun hb => ⟨hb, tail_nil⟩, fun hb => hb.1⟩
  | cons e es ih =>
      obtain ⟨h₁, hstep, hrest⟩ := Option.bind_eq_some_iff.mp hrun
      rw [ih hrest]
      -- the parent is set by the visit, and stays
      by_cases hb : b = e.1
      · subst hb
        refine iff_of_false (fun hh => addPredecessorAsPostDominated_self hstep hh.1) ?_
        exact fun hh => hh.2 ⟨e.2, List.mem_cons_self⟩
      · rw [addPredecessorAsPostDominated_other hstep hb]
        refine and_congr_right fun _ => not_congr ⟨fun ⟨c, hc⟩ => ?_, fun ⟨c, hc⟩ => ?_⟩
        · exact ⟨c, List.mem_cons_of_mem _ hc⟩
        · rcases List.mem_cons.mp hc with rfl | hc
          · exact absurd rfl hb
          · exact ⟨c, hc⟩

/-- The loop visits the edges in the order of a breadth-first search: the blocks
    with a parent are those seen. -/
theorem buildPostDominanceTree_eq (hg : IsCfg g) (fuel : Nat) {h : Infos ws}
    {currentBlock : BlockId} {done queue : List BlockId}
    (hseen : (done ++ currentBlock :: queue).Nodup)
    (hsub : done ++ currentBlock :: queue ⊆ List.range g.next)
    (hfuel : (List.range g.next).length ≤ done.length + fuel)
    (hparents : ∀ b, b ≠ g.returnNode →
      (parents h b = none ↔ b ∉ done ++ currentBlock :: queue)) :
    buildPostDominanceTree order g fuel h currentBlock queue
      = (BreadthFirst.edges (predecessorsOf order g)
        (BreadthFirst.process (predecessorsOf order g) fuel (currentBlock :: queue)
          (done ++ currentBlock :: queue))).foldlM (visitEdge g) h := by
  induction fuel generalizing h currentBlock done queue with
  | zero =>
      have hlen := (List.subperm_of_subset hseen hsub).length_le
      rw [List.length_append, List.length_cons] at hlen
      omega
  | succ fuel ih =>
      have hpred := nodup_predecessorsOf order hg currentBlock
      have hnotReturn : ∀ u ∈ predecessorsOf order g currentBlock, u ≠ g.returnNode :=
        fun u hu => return_ne_tail hg ((mem_predecessorsOf order).mp hu)
      have hloop : (predecessorsOf order g currentBlock).foldlM (visitPredecessor g currentBlock)
          (h, queue) = _ := foldlM_visitPredecessor hpred fun u hu => hparents u (hnotReturn u hu)
      rw [BreadthFirst.process]
      change _ = List.foldlM _ _ (_ ++ BreadthFirst.edges _ _)
      rw [List.foldlM_append]
      cases hrun : ((predecessorsOf order g currentBlock).map (·, currentBlock)).foldlM
          (visitEdge g) h with
      | none =>
          rw [hrun] at hloop
          rw [buildPostDominanceTree, hloop]
          rfl
      | some h₁ =>
          rw [hrun] at hloop
          simp only [Option.bind_eq_bind, Option.bind_some]
          -- the queue moves on by one, and the fresh predecessors join it
          have hturn := BreadthFirst.shift_turn (predecessorsOf order g) currentBlock queue done
          have hnodup := BreadthFirst.nodup_turn (nodup_predecessorsOf order hg) hseen
          have hsub' : done ++ currentBlock :: queue ++ BreadthFirst.fresh
              (predecessorsOf order g) currentBlock (done ++ currentBlock :: queue)
              ⊆ List.range g.next := by
            intro u hu
            rcases List.mem_append.mp hu with hu | hu
            · exact hsub hu
            · refine List.mem_range.mpr (hg.edge_lt u currentBlock ?_)
              exact (mem_predecessorsOf order).mp (BreadthFirst.mem_fresh.mp hu).1
          -- those with a parent are the ones seen so far, and these
          have hparents' : ∀ b, b ≠ g.returnNode → (parents h₁ b = none ↔
              b ∉ done ++ currentBlock :: queue ++ BreadthFirst.fresh
                (predecessorsOf order g) currentBlock (done ++ currentBlock :: queue)) := by
            intro b hb
            have htail : Tail ((predecessorsOf order g currentBlock).map (·, currentBlock)) b
                ↔ b ∈ predecessorsOf order g currentBlock := by
              simp [Tail]
            rw [parents_visited hrun, hparents b hb, htail,
              List.mem_append (s := done ++ currentBlock :: queue), BreadthFirst.mem_fresh]
            tauto
          cases hqueue : queue ++ BreadthFirst.fresh (predecessorsOf order g) currentBlock
              (done ++ currentBlock :: queue) with
          | nil =>
              rw [buildPostDominanceTree_last order
                (hloop.trans (congrArg (fun queue => some (h₁, queue)) hqueue))]
              cases fuel <;> rfl
          | cons nextBlock rest =>
              rw [buildPostDominanceTree_next order
                (hloop.trans (congrArg (fun queue => some (h₁, queue)) hqueue))]
              rw [hqueue] at hturn
              rw [← hturn] at hnodup hsub' hparents' ⊢
              refine ih hnodup hsub' ?_ hparents'
              rw [List.length_append, List.length_singleton]
              omega

/-- The tree is the fold over the visits. -/
theorem postDominanceTree_eq (hg : IsCfg g) :
    postDominanceTree order g = treeOf g (visitsOf order g) := by
  have hnodup : ([] ++ [g.returnNode]).Nodup := List.nodup_singleton _
  refine buildPostDominanceTree_eq order hg g.next hnodup ?_ ?_ ?_
  · intro b hb
    cases List.mem_singleton.mp hb
    exact List.mem_range.mpr hg.return_lt
  · rw [List.length_range, List.length_nil, Nat.zero_add]
  · intro b hb
    refine iff_of_true ?_ fun hmem => hb (List.mem_singleton.mp hmem)
    rw [parents, info, Std.ExtTreeMap.getD_empty]
    rfl

/-- All edges into blocks that reach the return node are visited, each once and
    after an edge out of its head. -/
theorem fullVisit (hg : IsCfg g) : FullVisit g (visitsOf order g) := by
  have hnext := nodup_predecessorsOf order hg
  have hclosed : ∀ v, ∀ u ∈ predecessorsOf order g v, u ∈ List.range g.next := fun v u hu =>
    List.mem_range.mpr (hg.edge_lt u v ((mem_predecessorsOf order).mp hu))
  have hfuel : (List.range g.next).length ≤ g.next := by rw [List.length_range]
  obtain ⟨vs, hroot, hvs, hvisits⟩ := BreadthFirst.visits_closed hnext hclosed
    (List.mem_range.mpr hg.return_lt) hfuel
  refine ⟨⟨fun u v he => ?_, BreadthFirst.visits_nodup hnext _ _⟩,
    BreadthFirst.wellOrdered_visits _ _ _, fun u v he hreach => ?_⟩
  · exact (mem_predecessorsOf order).mp ((hvisits u v).mp he).2
  · refine (hvisits u v).mpr ⟨?_, (mem_predecessorsOf order).mpr he⟩
    obtain ⟨p, hp⟩ := hreach
    clear he
    induction hp with
    | exit => exact hroot
    | step he _ ih => exact hvs _ ih _ ((mem_predecessorsOf order).mpr he)

/-- The tree of a routine is always completed. -/
theorem tree_completed (hg : IsCfg g) :
    ∃ h, postDominanceTree order g = some h ∧ Tree g (visitsOf order g) h := by
  obtain ⟨h, hrun, ht⟩ :=
    tree_prefix hg (fullVisit order hg) (visitsOf order g) [] (List.append_nil _).symm
  exact ⟨h, (postDominanceTree_eq order hg).trans hrun, ht⟩

end Visits

/-! ## The tree of a routine -/

/-- After the last edge out of a block has been visited, no edge visited later
    changes the immediate post-dominator of the block. -/
def Settled (order : IterationOrder) (g : RoutineGraph ws) : Prop :=
  SettledOn g (visitsOf order g)

/-- **The tree of a routine** is always completed, and is right exactly when
    the blocks are settled. -/
theorem postDominator_iff_settled (order : IterationOrder) {r : Routine ws}
    (hb : blockBuilder r = some g) :
    ∃ h, postDominanceTree order g = some h ∧ (Correct g h ↔ Settled order g) := by
  have hg : IsCfg g := blockBuilder_isCfg hb
  obtain ⟨h, hrun, -⟩ := tree_completed order hg
  have htree : treeOf g (visitsOf order g) = some h :=
    (postDominanceTree_eq order hg).symm.trans hrun
  exact ⟨h, hrun, correct_iff_settledOn hg (fullVisit order hg) htree⟩

/-- An instruction that is no branch, call or return. -/
def plain (address nextAddress : Addr ws) : RtnIns ws :=
  ⟨address, nextAddress, 0, false, false, false, false, true, false⟩

/-- A direct conditional branch. -/
def jcc (address nextAddress target : Addr ws) : RtnIns ws :=
  ⟨address, nextAddress, target, true, false, false, true, true, true⟩

/-- A direct unconditional branch. -/
def jmp (address nextAddress target : Addr ws) : RtnIns ws :=
  ⟨address, nextAddress, target, true, false, false, true, false, false⟩

/-- A return. -/
def ret (address nextAddress : Addr ws) : RtnIns ws :=
  ⟨address, nextAddress, 0, false, false, true, false, false, false⟩

/-- `if (c) return; return;` -/
def twoReturns : Routine .w64 where
  head := plain 0x1000 0x1002
  tail := [jcc 0x1002 0x1004 0x1005, ret 0x1004 0x1005, ret 0x1005 0x1006]
  nodup := by decide
  above := by decide

theorem postDominator_iff_settled_twoReturns :
    ∃ g h, blockBuilder twoReturns = some g ∧ postDominanceTree .asListed g = some h
      ∧ (Correct g h ↔ Settled .asListed g) := by
  have hsome : (blockBuilder twoReturns).isSome = true := by decide +kernel
  obtain ⟨g, hg⟩ := Option.isSome_iff_exists.mp hsome
  obtain ⟨h, hh, hiff⟩ := postDominator_iff_settled .asListed hg
  exact ⟨g, h, hg, hh, hiff⟩

/-- `if (a || b) c`, where `b` has a longer way to a return of its own. -/
def unequalArms : Routine .w64 where
  head := plain 0x1000 0x1002
  tail := [jcc 0x1002 0x1004 0x1007, jcc 0x1004 0x1006 0x1009, ret 0x1006 0x1007,
    jmp 0x1007 0x1009 0x1006, jmp 0x1009 0x100b 0x100b, jmp 0x100b 0x100d 0x100d,
    ret 0x100d 0x100e]
  nodup := by decide
  above := by decide

/-- The second test moves up to the return node, and the first test stays
    below the block it shared with it. -/
theorem unequalArms_wrong : ∃ g h, blockBuilder unequalArms = some g
    ∧ postDominanceTree .asListed g = some h ∧ ¬ Correct g h := by
  have hsome : (initializeRoutineInfo .asListed unequalArms).isSome = true := by decide +kernel
  obtain ⟨⟨g, h⟩, hrun⟩ := Option.isSome_iff_exists.mp hsome
  obtain ⟨hg, hh⟩ := initializeRoutineInfo_eq_some.mp hrun
  -- what the run leaves, evaluated
  have heval : (initializeRoutineInfo .asListed unequalArms).all fun gh =>
      (gh.1.returnNode == 1) && ((info gh.2 0).postDominator == some 4)
        && decide (Edge gh.1 0 2) && decide (Edge gh.1 2 5) && decide (Edge gh.1 5 6)
        && decide (Edge gh.1 6 7) && decide (Edge gh.1 7 1) := by decide +kernel
  rw [hrun] at heval
  simp only [Option.all_some, Bool.and_eq_true, beq_iff_eq, decide_eq_true_eq] at heval
  obtain ⟨⟨⟨⟨⟨⟨hreturn, hparent⟩, h₀₂⟩, h₂₅⟩, h₅₆⟩, h₆₇⟩, h₇₁⟩ := heval
  refine ⟨g, h, hg, hh, fun hcorrect => ?_⟩
  have hpath : PathTo (Edge g) g.returnNode 0 [0, 2, 5, 6, 7, 1] := by
    rw [hreturn]
    exact .step h₀₂ (.step h₂₅ (.step h₅₆ (.step h₆₇ (.step h₇₁ .exit))))
  obtain ⟨p, hp, himm⟩ := hcorrect 0 (by rw [hreturn]; decide) ⟨_, hpath⟩
  cases hp.symm.trans hparent
  exact absurd (himm.dominates _ hpath) (by decide)

end DytanPostDominanceTree
