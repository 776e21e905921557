import Dytan.PostDominanceTreeProofs

/-! # The maps of the post-dominance tree

    Beside its parent, each block has the map of the blocks below it
    (`postDominated`) and the map of the blocks directly below it
    (`immediatelyPostDominated`).

    The second visit of a block takes it away from the ancestors it loses, and
    with it every key of its own map, as the blocks below it are lost with it.
    But a probe of the map leaves a key with `NULL`, and this key is taken away
    as well.  The other map is erased at the block that runs the update, where
    the block never was, and not at the parent it leaves. -/

namespace DytanPostDominanceMaps

open DytanRegister DytanTaintState DytanBasicBlock DytanRoutineGraph DytanBlockBuilder
open DytanPostDominanceTree PostDominance

variable {ws : WordSize} {g : RoutineGraph ws}

/-- `x` is a proper ancestor of `b` along the `PostDominator` pointers. -/
def Ancestor (h : Infos ws) (x b : BlockId) : Prop :=
  Relation.TransGen (fun y z => parents h y = some z) b x

/-- The blocks `x` loses when `u`, visited from `v`, moves up: `x` is above `u`
    and not above `v`. -/
def Cut (h : Infos ws) (u v x : BlockId) : Prop :=
  Ancestor h x u ∧ ¬ (x = v ∨ Ancestor h x v)

/-- The map of `x` has the blocks below `x` and no other block in the tree. -/
def EntriesRight (g : RoutineGraph ws) (h : Infos ws) (x : BlockId) : Prop :=
  ∀ b, parents h b ≠ none → (Holds h x (g.blocks b).startingAddress ↔ Ancestor h x b)

/-- **The maps are exact** at every block with a parent. -/
def Exact (g : RoutineGraph ws) (h : Infos ws) : Prop :=
  ∀ x, parents h x ≠ none → EntriesRight g h x

/-- No block whose key in the map of `u` is `NULL` has an ancestor that `u`
    loses. -/
def Harmless (g : RoutineGraph ws) (h : Infos ws) (u v : BlockId) : Prop :=
  ∀ b x, b ≠ u → parents h b ≠ none →
    (info h u).postDominated[(g.blocks b).startingAddress]? = some none →
    Ancestor h x b → ¬ Cut h u v x

section Tree

variable {es : Edges} {h : Infos ws} (hg : IsCfg g) (hes : Visited g es) (ht : Tree g es h)

include hg hes ht

theorem parents_return : parents h g.returnNode = none :=
  ht.unplaced _ fun ⟨v, hv⟩ => return_ne_tail hg (hes.edge _ v hv) rfl

theorem ancestor_iff {b x : BlockId} {cs : List BlockId}
    (hc : Chain (parents h) g.returnNode b cs) : Ancestor h x b ↔ x ∈ cs :=
  hc.transGen_iff (parents_return hg hes ht)

/-- The blocks with a parent are those with a visited way out. -/
theorem parent_iff {b : BlockId} : parents h b ≠ none ↔ Tail es b := by
  constructor
  · intro hb
    by_contra hnot
    exact hb (ht.unplaced b hnot)
  · intro hb
    obtain ⟨cs, hcs, -⟩ := ht.chain b (Or.inr hb)
    obtain ⟨v, hv⟩ := hb
    obtain ⟨c, -, hc, -⟩ := hcs.exists_parent (return_ne_tail hg (hes.edge b v hv))
    rw [hc]
    exact Option.some_ne_none c

end Tree

section Step

variable {es : Edges} {h h' : Infos ws} {u v : BlockId} (hg : IsCfg g) (hes : Visited g es)
  (ht : Tree g es h) (huv : Edge g u v) (hnew : (u, v) ∉ es) (hv : Placed g es v)
  (hstep : visitEdge g h (u, v) = some h')

include hg hes ht huv hnew hv hstep

/-- **The second visit**: where blocks are lost, the map loses the keys of the
    map of `u`, and the tree what is below `u`. -/
theorem entry_again {a : BlockId} (ha : (u, a) ∈ es) (x : BlockId) {b : BlockId}
    (hb : parents h b ≠ none) :
    (Holds h' x (g.blocks b).startingAddress ↔ Holds h x (g.blocks b).startingAddress
        ∧ ¬ (Cut h u v x
          ∧ (b = u ∨ (g.blocks b).startingAddress ∈ (info h u).postDominated)))
      ∧ (Ancestor h' x b ↔ Ancestor h x b ∧ ¬ (Cut h u v x ∧ (b = u ∨ Ancestor h u b))) := by
  obtain ⟨h₁, p, ps, cs, w, seg, rest, pre, post, hrun, hus, hcs, hseg, hsplit, hpre, hparent,
    -, hmap, hself⟩ := visit_again hg hes ht huv hnew hv ha
  cases hstep.symm.trans hrun
  -- the blocks that lose `u` are those between its old and its new parent
  have hcut : ∀ y, Cut h u v y ↔ y ∈ seg := by
    intro y
    rw [Cut]
    rw [ancestor_iff hg hes ht hus, ancestor_iff hg hes ht hcs, ← List.mem_cons]
    exact (hus.mem_below_iff hcs hseg hsplit hpre y).symm
  have hbTail : Tail es b := (parent_iff hg hes ht).mp hb
  constructor
  · rw [hcut]
    by_cases hbu : b = u
    · subst hbu
      rw [hself]
      simp
    · obtain ⟨c, hc⟩ := hbTail
      have hk : (g.blocks b).startingAddress ≠ (g.blocks u).startingAddress := fun heq =>
        hbu (hg.starting_inj b c u v (hes.edge b c hc) huv heq)
      rw [Holds]
      rw [Std.ExtTreeMap.getD_eq_getD_getElem?, hmap x _ hk]
      by_cases hlost : x ∈ seg ∧ (g.blocks b).startingAddress ∈ (info h u).postDominated
      · rw [if_pos hlost]
        exact iff_of_false (by simp) fun hh => hh.2 ⟨hlost.1, Or.inr hlost.2⟩
      · rw [if_neg hlost, ← Std.ExtTreeMap.getD_eq_getD_getElem?]
        refine ⟨fun hh => ⟨hh, ?_⟩, fun hh => hh.1⟩
        rintro ⟨hx, heq | hmem⟩
        · exact hbu heq
        · exact hlost ⟨hx, hmem⟩
  · obtain ⟨bs, hbs, -⟩ := ht.chain b (Or.inr hbTail)
    obtain ⟨bs', hbs', -, hmem⟩ := Chain.reparent (hseg ▸ hus) ((hparent u).trans (if_pos rfl))
      (fun y hy => (hparent y).trans (if_neg hy)) hbs
    have hnone : parents h' g.returnNode = none :=
      ((hparent _).trans (if_neg (return_ne_tail hg huv).symm)).trans (parents_return hg hes ht)
    have hanc : Ancestor h' x b ↔ x ∈ bs' := hbs'.transGen_iff hnone
    rw [hanc, hmem, hcut, ancestor_iff hg hes ht hbs, ancestor_iff hg hes ht hbs]

/-- The first visit keeps all maps right. -/
theorem exact_first (hu : ¬ Tail es u) (hright : ∀ x, EntriesRight g h x) (x : BlockId) :
    EntriesRight g h' x := by
  obtain ⟨h₁, cs, hrun, hcs, hall, hparent, -, hmap⟩ := visit_first hg hes ht huv hv hu
  cases hstep.symm.trans hrun
  intro b hb
  have hnotPlaced : ¬ Placed g es u := notPlaced_of_new hg huv hu
  have hother : ∀ y, y ≠ u → parents h' y = parents h y := fun y hy =>
    (hparent y).trans (if_neg hy)
  have hnone : parents h' g.returnNode = none :=
    (hother _ (return_ne_tail hg huv).symm).trans (parents_return hg hes ht)
  -- chains of placed blocks do not pass through `u`
  have hchain : ∀ y ys, Chain (parents h) g.returnNode y ys → (∀ z ∈ y :: ys, Placed g es z) →
      Chain (parents h') g.returnNode y ys := by
    intro y ys hys hp
    refine hys.congr fun z hz => hother z ?_
    rintro rfl
    exact hnotPlaced (hp z hz)
  by_cases hbu : b = u
  · subst hbu
    have hnewChain : Chain (parents h') g.returnNode b (v :: cs) :=
      .up (return_ne_tail hg huv) ((hparent b).trans (if_pos rfl)) (hchain v cs hcs hall)
    have hanc : Ancestor h' x b ↔ x ∈ v :: cs := hnewChain.transGen_iff hnone
    -- no map has the key of the new block yet
    have hfresh : (info h x).postDominated[(g.blocks b).startingAddress]? = none := by
      refine Std.ExtTreeMap.getElem?_eq_none fun hk => ?_
      obtain ⟨c, ⟨d, hd⟩, heq⟩ := ht.keys x _ hk
      exact hu ((hg.starting_inj c d b v (hes.edge c d hd) huv heq.symm) ▸ ⟨d, hd⟩)
    rw [hanc, Holds, Std.ExtTreeMap.getD_eq_getD_getElem?, hmap]
    by_cases hx : x ∈ v :: cs
    · rw [if_pos ⟨hx, rfl⟩]
      simp [hx]
    · rw [if_neg fun hh => hx hh.1, hfresh]
      simp [hx]
  · have hb' : parents h b ≠ none := hother b hbu ▸ hb
    obtain ⟨c, hc⟩ := (parent_iff hg hes ht).mp hb'
    have hk : (g.blocks b).startingAddress ≠ (g.blocks u).startingAddress := fun heq =>
      hbu (hg.starting_inj b c u v (hes.edge b c hc) huv heq)
    obtain ⟨bs, hbs, hp⟩ := ht.chain_all (Or.inr ⟨c, hc⟩)
    have hanc : Ancestor h' x b ↔ x ∈ bs := (hchain b bs hbs hp).transGen_iff hnone
    rw [hanc, ← ancestor_iff hg hes ht hbs, ← hright x b hb', Holds, Holds,
      Std.ExtTreeMap.getD_eq_getD_getElem?, Std.ExtTreeMap.getD_eq_getD_getElem?, hmap,
      if_neg fun hh => hk hh.2]

omit hg hes ht huv hnew hv in
theorem parents_ne_none {b : BlockId} (hb : parents h b ≠ none) : parents h' b ≠ none := by
  by_cases hbu : b = u
  · rw [hbu]
    exact addPredecessorAsPostDominated_self hstep
  · rw [addPredecessorAsPostDominated_other hstep hbu]
    exact hb

/-- A harmless second visit keeps all maps right. -/
theorem exact_again {a : BlockId} (ha : (u, a) ∈ es) (hright : ∀ x, EntriesRight g h x)
    (hharmless : Harmless g h u v) (x : BlockId) : EntriesRight g h' x := by
  intro b hb
  have hb' : parents h b ≠ none := by
    by_cases hbu : b = u
    · rw [hbu]
      exact (parent_iff hg hes ht).mpr ⟨a, ha⟩
    · rw [← addPredecessorAsPostDominated_other hstep hbu]
      exact hb
  obtain ⟨hholds, hanc⟩ := entry_again hg hes ht huv hnew hv hstep ha x hb'
  rw [hholds, hanc, hright x b hb']
  refine and_congr_right fun habove => not_congr (and_congr_right fun hcut => ?_)
  by_cases hbu : b = u
  · simp [hbu]
  · refine or_congr_right ?_
    -- the key of `b` in the map of `u` is not `NULL`
    rw [← hright u b hb']
    refine (holds_iff_mem fun hnull => ?_).symm
    exact hharmless b x hbu hb' hnull habove hcut

/-- A second visit that is not harmless breaks a map. -/
theorem harmless_of_exact {a : BlockId} (ha : (u, a) ∈ es) (hexact : Exact g h)
    (hexact' : Exact g h') : Harmless g h u v := by
  intro b x hbu hb hnull habove hcut
  obtain ⟨hholds, hanc⟩ := entry_again hg hes ht huv hnew hv hstep ha x hb
  have hu : parents h u ≠ none := (parent_iff hg hes ht).mpr ⟨a, ha⟩
  have hmem : (g.blocks b).startingAddress ∈ (info h u).postDominated := by
    rw [Std.ExtTreeMap.mem_iff_isSome_getElem?, hnull]
    rfl
  -- a `NULL` key says that `b` is not below `u`
  have hnot : ¬ Ancestor h u b := by
    rw [← hexact u hu b hb, Holds, Std.ExtTreeMap.getD_eq_getD_getElem?, hnull]
    simp
  have hx : parents h x ≠ none := by
    intro hnone
    obtain ⟨cs, hcs, -⟩ := ht.chain_all hv
    obtain ⟨us, hus, hplaced⟩ := ht.chain_all (Or.inr ((parent_iff hg hes ht).mp hu))
    have hxu : x ∈ us := (ancestor_iff hg hes ht hus).mp hcut.1
    have hroot : x = g.returnNode := by
      refine (hplaced x (List.mem_cons_of_mem _ hxu)).resolve_right fun htail => ?_
      exact (parent_iff hg hes ht).mpr htail hnone
    refine hcut.2 ?_
    rw [ancestor_iff hg hes ht hcs, ← List.mem_cons, hroot]
    exact hcs.root_mem
  have hlost : ¬ Holds h' x (g.blocks b).startingAddress := fun hh =>
    (hholds.mp hh).2 ⟨hcut, Or.inr hmem⟩
  refine hlost ((hexact' x (parents_ne_none hstep hx) b (parents_ne_none hstep hb)).mpr ?_)
  refine hanc.mpr ⟨habove, ?_⟩
  rintro ⟨-, heq | hub⟩
  · exact hbu heq
  · exact hnot hub

end Step

/-! ## The whole run -/

/-- The visits before and after a moment of the run, and the tree there. -/
structure Moment (order : IterationOrder) (g : RoutineGraph ws) (es rest : Edges) (h : Infos ws) :
    Prop where
  visits : visitsOf order g = es ++ rest
  tree : treeOf g es = some h

section Run

variable {order : IterationOrder} {es rest : Edges} {h : Infos ws} {u v : BlockId}

/-- What holds at every moment. -/
theorem Moment.tree_holds (hg : IsCfg g) (hm : Moment order g es rest h) :
    Visited g es ∧ Tree g es h := by
  have hfull := fullVisit order hg
  obtain ⟨h₁, hrun, ht⟩ := tree_prefix hg hfull es rest hm.visits
  cases hm.tree.symm.trans hrun
  exact ⟨(hm.visits ▸ hfull.visited).prefix_of, ht⟩

/-- The edge that is visited next, and the moment after it. -/
theorem Moment.next (hg : IsCfg g) (hm : Moment order g es ((u, v) :: rest) h) :
    Edge g u v ∧ (u, v) ∉ es ∧ Placed g es v
      ∧ ∃ h', visitEdge g h (u, v) = some h' ∧ Moment order g (es ++ [(u, v)]) rest h' := by
  obtain ⟨hes, ht⟩ := hm.tree_holds hg
  obtain ⟨-, huv, hnew, hv⟩ := (fullVisit order hg).next_edge hm.visits
  obtain ⟨h', hstep, -⟩ := tree_step hg hes ht huv hnew hv
  refine ⟨huv, hnew, hv, h', hstep, hm.visits.trans (List.append_cons _ _ _), ?_⟩
  rw [treeOf_concat, hm.tree]
  exact hstep

/-- A moment that is not the first comes after a visit. -/
theorem Moment.previous (hg : IsCfg g) (hm : Moment order g (es ++ [(u, v)]) rest h) :
    ∃ h₀, Moment order g es ((u, v) :: rest) h₀ ∧ visitEdge g h₀ (u, v) = some h := by
  have hcut : visitsOf order g = es ++ (u, v) :: rest :=
    hm.visits.trans (List.append_cons _ _ _).symm
  obtain ⟨h₀, hrun, -⟩ := tree_prefix hg (fullVisit order hg) es _ hcut
  refine ⟨h₀, ⟨hcut, hrun⟩, ?_⟩
  have htree := hm.tree
  rw [treeOf_concat, hrun] at htree
  exact htree

/-- **What every visit keeps** holds at every moment. -/
theorem Moment.holds {motive : Edges → Infos ws → Prop} (hg : IsCfg g)
    (hm : Moment order g es rest h) (first : motive [] ∅)
    (visit : ∀ es u v rest h h', Moment order g es ((u, v) :: rest) h →
      visitEdge g h (u, v) = some h' → motive es h → motive (es ++ [(u, v)]) h') :
    motive es h := by
  induction es using List.reverseRecOn generalizing rest h with
  | nil =>
      cases hm.tree
      exact first
  | append_singleton es e ih =>
      obtain ⟨u, v⟩ := e
      obtain ⟨h₀, hm₀, hstep⟩ := hm.previous hg
      exact visit es u v rest h₀ h hm₀ hstep (ih hm₀)

end Run

/-- **The descendant maps** are exact at every moment of the run exactly if
    every visit is harmless. -/
theorem exact_iff_harmless (order : IterationOrder) {r : Routine ws}
    (hb : blockBuilder r = some g) :
    (∀ es rest h, Moment order g es rest h → Exact g h)
      ↔ ∀ es u v rest h, Moment order g es ((u, v) :: rest) h → Harmless g h u v := by
  have hg : IsCfg g := blockBuilder_isCfg hb
  constructor
  · intro hexact es u v rest h hm
    obtain ⟨hes, ht⟩ := hm.tree_holds hg
    obtain ⟨huv, hnew, hv, h', hstep, hm'⟩ := hm.next hg
    by_cases hu : Tail es u
    · obtain ⟨a, ha⟩ := hu
      exact harmless_of_exact hg hes ht huv hnew hv hstep ha (hexact _ _ _ hm)
        (hexact _ _ _ hm')
    · -- the first visit: `u` has no ancestors
      intro b x _ _ _ _ hcut
      have hnone := ht.unplaced u hu
      obtain ⟨c, hc, -⟩ := Relation.TransGen.head'_iff.mp hcut.1
      exact nomatch hnone.symm.trans hc
  · intro hharmless es rest h hm
    have hright : ∀ x, EntriesRight g h x := by
      refine hm.holds hg (motive := fun _ h => ∀ x, EntriesRight g h x) ?_ ?_
      · intro x b hb
        exact absurd ((tree_nil g).unplaced b tail_nil) hb
      · intro es u v rest h₀ h' hm₀ hstep ih
        obtain ⟨hes, ht⟩ := hm₀.tree_holds hg
        obtain ⟨huv, hnew, hv, -⟩ := hm₀.next hg
        by_cases hu : Tail es u
        · obtain ⟨a, ha⟩ := hu
          exact exact_again hg hes ht huv hnew hv hstep ha ih (hharmless es u v rest h₀ hm₀)
        · exact exact_first hg hes ht huv hnew hv hstep hu ih
    exact fun x _ => hright x

theorem exact_iff_harmless_twoReturns : ∃ g, blockBuilder twoReturns = some g
    ∧ ((∀ es rest h, Moment .asListed g es rest h → Exact g h)
      ↔ ∀ es u v rest h, Moment .asListed g es ((u, v) :: rest) h → Harmless g h u v) := by
  have hsome : (blockBuilder twoReturns).isSome = true := by decide +kernel
  obtain ⟨g, hg⟩ := Option.isSome_iff_exists.mp hsome
  exact ⟨g, hg, exact_iff_harmless .asListed hg⟩

/-- The moment after the last visit. -/
theorem moment_last (order : IterationOrder) {r : Routine ws} {h : Infos ws}
    (hb : blockBuilder r = some g) (hh : postDominanceTree order g = some h) :
    Moment order g (visitsOf order g) [] h :=
  ⟨(List.append_nil _).symm, (postDominanceTree_eq order (blockBuilder_isCfg hb)).symm.trans hh⟩

/-- Two tests with a common arm; the other way out of the second is longer. -/
def lateMove : Routine .w64 where
  head := plain 0x1000 0x1002
  tail := [jcc 0x1002 0x1004 0x100c, jcc 0x1004 0x1006 0x100e, jmp 0x1006 0x1008 0x1008,
    jmp 0x1008 0x100a 0x100a, ret 0x100a 0x100c, jmp 0x100c 0x100e 0x100e, ret 0x100e 0x1010]
  nodup := by decide
  above := by decide

/-- The second test has been probed for the first and moves up later: the arm
    loses both keys, although it is the parent of the first. -/
theorem lateMove_loses_key : ∃ g es rest h, blockBuilder lateMove = some g
    ∧ Moment .asListed g es rest h ∧ ¬ Exact g h := by
  have hsome : (initializeRoutineInfo .asListed lateMove).isSome = true := by decide +kernel
  obtain ⟨⟨g, h⟩, hrun⟩ := Option.isSome_iff_exists.mp hsome
  obtain ⟨hg, hh⟩ := initializeRoutineInfo_eq_some.mp hrun
  -- what the run leaves, evaluated
  have heval : (initializeRoutineInfo .asListed lateMove).all fun gh =>
      ((info gh.2 5).postDominator == some 1) && ((info gh.2 0).postDominator == some 5)
        && ((info gh.2 5).postDominated.getD (gh.1.blocks 0).startingAddress none == none) := by
    decide +kernel
  rw [hrun] at heval
  simp only [Option.all_some, Bool.and_eq_true, beq_iff_eq] at heval
  obtain ⟨⟨hparent₅, hparent₀⟩, hentry⟩ := heval
  refine ⟨g, _, _, h, hg, moment_last .asListed hg hh, fun hexact => ?_⟩
  have h₅ : parents h 5 ≠ none := fun hnone => nomatch hnone.symm.trans hparent₅
  have h₀ : parents h 0 ≠ none := fun hnone => nomatch hnone.symm.trans hparent₀
  have habove : Ancestor h 5 0 := .single hparent₀
  exact (hexact 5 h₅ 0 h₀).mpr habove hentry

/-! ## The blocks directly below -/

/-- `immediatelyPostDominated` of `x` contains `b`. -/
def Contains (h : Infos ws) (x b : BlockId) : Prop :=
  ∃ k : Addr ws, (info h x).immediatelyPostDominated[k]? = some (some b)

/-- **The inverse of the parents.** -/
def Inverse (h : Infos ws) : Prop := ∀ x b, Contains h x b ↔ parents h b = some x

/-- Every entry is a block with a visited way out, at its starting address, and
    every block with a parent is entered there. -/
structure Entered (g : RoutineGraph ws) (es : Edges) (h : Infos ws) : Prop where
  keyed : ∀ x k o, (immediates h x)[k]? = some o →
    ∃ b, o = some b ∧ Tail es b ∧ k = (g.blocks b).startingAddress
  parent : ∀ b x, parents h b = some x → Contains h x b

theorem Entered.contains_iff {es : Edges} {h : Infos ws} (he : Entered g es h) {x b : BlockId} :
    Contains h x b ↔ (immediates h x)[(g.blocks b).startingAddress]? = some (some b) := by
  constructor
  · rintro ⟨k, hk⟩
    obtain ⟨c, hc, -, rfl⟩ := he.keyed x k _ hk
    cases hc
    exact hk
  · exact fun hk => ⟨_, hk⟩

/-- No entries before the first visit. -/
theorem immediates_empty (x : BlockId) (k : Addr ws) :
    (immediates (∅ : Infos ws) x)[k]? = none := by
  rw [immediates, info, Std.ExtTreeMap.getD_empty]
  simp [PostDominanceInfo.new]

section Step

variable {es : Edges} {h h' : Infos ws} {u v : BlockId} (hg : IsCfg g) (hes : Visited g es)
  (ht : Tree g es h) (huv : Edge g u v) (he : Entered g es h)
  (hstep : visitEdge g h (u, v) = some h')

include hg hes ht huv he hstep

omit ht he in
/-- The entries of other blocks stay. -/
theorem entry_other {b : BlockId} (hbu : b ≠ u) (hb : Tail es b) (x : BlockId) :
    (immediates h' x)[(g.blocks b).startingAddress]?
      = (immediates h x)[(g.blocks b).startingAddress]? := by
  obtain ⟨w, hw⟩ := Option.ne_none_iff_exists'.mp (addPredecessorAsPostDominated_self hstep)
  obtain ⟨c, hc⟩ := hb
  have hk : (g.blocks b).startingAddress ≠ (g.blocks u).startingAddress := fun heq =>
    hbu (hg.starting_inj b c u v (hes.edge b c hc) huv heq)
  rw [addPredecessorAsPostDominated_immediates hstep hw, if_neg fun hh => hk hh.2,
    if_neg fun hh => hk hh.2.2]

theorem entered_step : Entered g (es ++ [(u, v)]) h' := by
  obtain ⟨w, hw⟩ := Option.ne_none_iff_exists'.mp (addPredecessorAsPostDominated_self hstep)
  have hget := addPredecessorAsPostDominated_immediates hstep hw
  constructor
  · intro x k o ho
    rw [hget] at ho
    by_cases hself : x = w ∧ k = (g.blocks u).startingAddress
    · rw [if_pos hself] at ho
      cases ho
      exact ⟨u, rfl, Tail.concat.mpr (Or.inr rfl), hself.2⟩
    · rw [if_neg hself] at ho
      split at ho
      · exact nomatch ho
      · obtain ⟨b, hb, htail, hk⟩ := he.keyed x k o ho
        exact ⟨b, hb, Tail.concat.mpr (Or.inl htail), hk⟩
  · intro b x hx
    by_cases hbu : b = u
    · subst hbu
      cases hw.symm.trans hx
      exact ⟨(g.blocks b).startingAddress, (hget w _).trans (if_pos ⟨rfl, rfl⟩)⟩
    · rw [addPredecessorAsPostDominated_other hstep hbu] at hx
      have hb : Tail es b := (parent_iff hg hes ht).mp fun hnone => nomatch hnone.symm.trans hx
      have hentry := he.contains_iff.mp (he.parent b x hx)
      exact ⟨(g.blocks b).startingAddress,
        (entry_other hg hes huv hstep hbu hb x).trans hentry⟩

/-- Only entries of the block that is visited change. -/
theorem contains_other {b : BlockId} (hbu : b ≠ u) (x : BlockId) :
    Contains h' x b ↔ Contains h x b := by
  have he' := entered_step hg hes ht huv he hstep
  rw [he'.contains_iff, he.contains_iff]
  constructor
  · intro hentry
    obtain ⟨c, hc, htail, -⟩ := he'.keyed x _ _ hentry
    cases hc
    rw [← entry_other hg hes huv hstep hbu ((Tail.concat.mp htail).resolve_right hbu) x]
    exact hentry
  · intro hentry
    obtain ⟨c, hc, htail, -⟩ := he.keyed x _ _ hentry
    cases hc
    rw [entry_other hg hes huv hstep hbu htail x]
    exact hentry

/-- The block that is visited is entered at its new parent, and stays where it
    was but at the block it is visited from. -/
theorem contains_self (x : BlockId) : Contains h' x u ↔
    parents h' u = some x ∨ (Contains h x u ∧ ¬ (Tail es u ∧ x = v)) := by
  obtain ⟨w, hw⟩ := Option.ne_none_iff_exists'.mp (addPredecessorAsPostDominated_self hstep)
  have hw' : parents h' u = some w := hw
  have he' := entered_step hg hes ht huv he hstep
  rw [he'.contains_iff, he.contains_iff, addPredecessorAsPostDominated_immediates hstep hw, hw',
    ← ht.flag]
  by_cases hx : x = w
  · simp [hx]
  · have hx' : w ≠ x := Ne.symm hx
    rw [if_neg fun hh => hx hh.1]
    by_cases hlost : (info h u).isPostDominated = true ∧ x = v
    · rw [if_pos ⟨hlost.1, hlost.2, rfl⟩]
      refine iff_of_false (fun hh => nomatch hh) ?_
      rintro (heq | hstays)
      · exact hx' (Option.some.inj heq)
      · exact hstays.2 hlost
    · simp [hx', hlost]

end Step

section Run

variable {order : IterationOrder} {es rest : Edges} {h : Infos ws}

/-- The entries at every moment. -/
theorem Moment.entered (hg : IsCfg g) (hm : Moment order g es rest h) : Entered g es h := by
  refine hm.holds hg ⟨fun x k o ho => ?_, fun b x hx => ?_⟩ ?_
  · cases (immediates_empty x k).symm.trans ho
  · cases ((tree_nil g).unplaced b tail_nil).symm.trans hx
  · intro es u v rest h₀ h' hm₀ hstep ih
    obtain ⟨hes, ht⟩ := hm₀.tree_holds hg
    obtain ⟨huv, -⟩ := hm₀.next hg
    exact entered_step hg hes ht huv ih hstep

/-- A block that is not visited any more keeps its parent and its entries. -/
theorem Moment.kept (hg : IsCfg g) (hm : Moment order g es rest h) {b : BlockId}
    (hb : ∀ c, (b, c) ∉ rest) {h' : Infos ws} (hlast : Moment order g (visitsOf order g) [] h') :
    parents h' b = parents h b ∧ ∀ x, Contains h' x b ↔ Contains h x b := by
  induction rest generalizing es h with
  | nil =>
      have hes : visitsOf order g = es := hm.visits.trans (List.append_nil es)
      have hsame : h' = h := Option.some.inj (hlast.tree.symm.trans (hes ▸ hm.tree))
      rw [hsame]
      exact ⟨rfl, fun _ => Iff.rfl⟩
  | cons e rest ih =>
      obtain ⟨u, v⟩ := e
      obtain ⟨hes, ht⟩ := hm.tree_holds hg
      obtain ⟨huv, -, -, h₁, hstep, hm₁⟩ := hm.next hg
      have hbu : b ≠ u := by
        rintro rfl
        exact hb v List.mem_cons_self
      obtain ⟨hparents, hcontains⟩ := ih hm₁ fun c hc => hb c (List.mem_cons_of_mem _ hc)
      refine ⟨hparents.trans (addPredecessorAsPostDominated_other hstep hbu), fun x => ?_⟩
      rw [hcontains, contains_other hg hes ht huv (hm.entered hg) hstep hbu]

end Run

section Step

variable {es : Edges} {h h' : Infos ws} {u v : BlockId} (hg : IsCfg g) (hes : Visited g es)
  (ht : Tree g es h) (huv : Edge g u v) (hnew : (u, v) ∉ es) (hv : Placed g es v)
  (he : Entered g es h) (hstep : visitEdge g h (u, v) = some h')

include hg hes ht huv hnew hv he hstep

/-- A visit that does not change the parent keeps the inverse. -/
theorem inverse_step (hinv : Inverse h) (hkeep : ∀ p, parents h u = some p → Ancestor h p v) :
    Inverse h' := by
  intro x b
  by_cases hbu : b = u
  · subst hbu
    rw [contains_self hg hes ht huv he hstep]
    refine ⟨fun hx => ?_, Or.inl⟩
    rcases hx with hx | ⟨hx, -⟩
    · exact hx
    · have hparent := (hinv x b).mp hx
      obtain ⟨a, ha⟩ := (parent_iff hg hes ht).mp fun hnone => nomatch hnone.symm.trans hparent
      obtain ⟨h₁, p, ps, cs, w, seg, rest, pre, post, hrun, hus, hcs, hseg, hsplit, hpre,
        hparents, -⟩ := visit_again hg hes ht huv hnew hv ha
      cases hstep.symm.trans hrun
      obtain ⟨c, cs', hc, hps, -⟩ := hus.exists_parent (return_ne_tail hg huv)
      cases hc.symm.trans hparent
      cases hps
      -- the parent is above `v`: nothing is lost
      have hxv : x ∈ v :: cs :=
        List.mem_cons_of_mem _ ((ancestor_iff hg hes ht hcs).mp (hkeep x hparent))
      have hself : parents h' b = some w := (hparents b).trans (if_pos rfl)
      cases seg with
      | nil =>
          obtain ⟨rfl, -⟩ := List.cons.inj hseg
          exact hself
      | cons y seg =>
          obtain ⟨rfl, -⟩ := List.cons.inj hseg
          have hbelow := hus.mem_below_iff hcs hseg hsplit hpre x
          exact absurd hxv (hbelow.mp List.mem_cons_self).2
  · rw [contains_other hg hes ht huv he hstep hbu, hinv x b,
      addPredecessorAsPostDominated_other hstep hbu]

/-- A visit that changes the parent leaves the block entered at the old one. -/
theorem stale_entry {a p : BlockId} (ha : (u, a) ∈ es) (hp : parents h u = some p)
    (hnot : ¬ Ancestor h p v) : Contains h' p u ∧ parents h' u ≠ some p := by
  have honly := only_of_new hg hes huv hnew ha
  have hpv : p ≠ v := by
    rintro rfl
    cases hp.symm.trans (ht.first u a honly)
    exact hnew ha
  have hcut : Cut h u v p := by
    refine ⟨.single hp, ?_⟩
    rintro (heq | habove)
    · exact hpv heq
    · exact hnot habove
  have hu : parents h u ≠ none := fun hnone => nomatch hnone.symm.trans hp
  have hanc := (entry_again hg hes ht huv hnew hv hstep ha p hu).2
  constructor
  · exact (contains_self hg hes ht huv he hstep p).mpr
      (Or.inr ⟨he.parent u p hp, fun hh => hpv hh.2⟩)
  · exact fun hp' => (hanc.mp (.single hp')).2 ⟨hcut, Or.inl rfl⟩

end Step

/-- **The blocks directly below** are the inverse of the parents after the run
    exactly if no visit changes the parent of a block that has one: its parent
    is above the block it is visited from. -/
theorem inverse_iff_parents_kept (order : IterationOrder) {r : Routine ws}
    (hb : blockBuilder r = some g) :
    ∃ h, postDominanceTree order g = some h
      ∧ (Inverse h ↔ ∀ es u v rest h₀ p, Moment order g es ((u, v) :: rest) h₀ →
        parents h₀ u = some p → Ancestor h₀ p v) := by
  have hg : IsCfg g := blockBuilder_isCfg hb
  obtain ⟨h, hrun, -⟩ := tree_completed order hg
  refine ⟨h, hrun, ?_⟩
  have hlast := moment_last order hb hrun
  constructor
  · intro hinv es u v rest h₀ p hm hp
    by_contra hnot
    obtain ⟨hes, ht⟩ := hm.tree_holds hg
    obtain ⟨huv, hnew, hv, h', hstep, hm'⟩ := hm.next hg
    obtain ⟨a, ha⟩ := (parent_iff hg hes ht).mp fun hnone => nomatch hnone.symm.trans hp
    obtain ⟨hstale, hmoved⟩ :=
      stale_entry hg hes ht huv hnew hv (hm.entered hg) hstep ha hp hnot
    -- both edges out of `u` have been visited
    have hdone : ∀ c, (u, c) ∉ rest := by
      intro c hc
      obtain ⟨hes', -⟩ := hm'.tree_holds hg
      have hvis : Visited g ((es ++ [(u, v)]) ++ rest) :=
        hm'.visits ▸ (fullVisit order hg).visited
      have hcnew : (u, c) ∉ es ++ [(u, v)] := fun hold =>
        List.disjoint_of_nodup_append hvis.nodup hold hc
      have honly := only_of_new hg hes' (hvis.edge u c (List.mem_append_right _ hc)) hcnew
        (mem_concat.mpr (Or.inl ha))
      have hva : v = a := honly.2 v (mem_concat.mpr (Or.inr ⟨rfl, rfl⟩))
      exact hnew (hva ▸ ha)
    obtain ⟨hparents, hcontains⟩ := hm'.kept hg hdone hlast
    exact hmoved (hparents ▸ (hinv p u).mp ((hcontains p).mpr hstale))
  · intro hkeep
    refine hlast.holds hg (motive := fun _ h => Inverse h) ?_ ?_
    · intro x b
      refine iff_of_false (fun ⟨k, hk⟩ => ?_) fun hx => ?_
      · cases (immediates_empty x k).symm.trans hk
      · cases ((tree_nil g).unplaced b tail_nil).symm.trans hx
    · intro es u v rest h₀ h' hm₀ hstep ih
      obtain ⟨hes, ht⟩ := hm₀.tree_holds hg
      obtain ⟨huv, hnew, hv, -⟩ := hm₀.next hg
      exact inverse_step hg hes ht huv hnew hv (hm₀.entered hg) hstep ih
        fun p hp => hkeep es u v rest h₀ p hm₀ hp

theorem inverse_iff_parents_kept_twoReturns : ∃ g h, blockBuilder twoReturns = some g
    ∧ postDominanceTree .asListed g = some h
    ∧ (Inverse h ↔ ∀ es u v rest h₀ p, Moment .asListed g es ((u, v) :: rest) h₀ →
      parents h₀ u = some p → Ancestor h₀ p v) := by
  have hsome : (blockBuilder twoReturns).isSome = true := by decide +kernel
  obtain ⟨g, hg⟩ := Option.isSome_iff_exists.mp hsome
  obtain ⟨h, hh, hiff⟩ := inverse_iff_parents_kept .asListed hg
  exact ⟨g, h, hg, hh, hiff⟩

/-- The test moves from the one return to the return node, and stays entered at
    the return. -/
theorem twoReturns_stale : ∃ g h, blockBuilder twoReturns = some g
    ∧ postDominanceTree .asListed g = some h ∧ ¬ Inverse h := by
  have hsome : (initializeRoutineInfo .asListed twoReturns).isSome = true := by decide +kernel
  obtain ⟨⟨g, h⟩, hrun⟩ := Option.isSome_iff_exists.mp hsome
  obtain ⟨hg, hh⟩ := initializeRoutineInfo_eq_some.mp hrun
  -- what the run leaves, evaluated
  have heval : (initializeRoutineInfo .asListed twoReturns).all fun gh =>
      ((info gh.2 0).postDominator == some 1)
        && ((info gh.2 3).immediatelyPostDominated[(0x1000 : Addr .w64)]? == some (some 0)) := by
    decide +kernel
  rw [hrun] at heval
  simp only [Option.all_some, Bool.and_eq_true, beq_iff_eq] at heval
  obtain ⟨hparent, hentry⟩ := heval
  refine ⟨g, h, hg, hh, fun hinv => ?_⟩
  have hparent₃ := (hinv 3 0).mp ⟨_, hentry⟩
  exact nomatch hparent₃.symm.trans hparent

end DytanPostDominanceMaps
