import Mathlib.Logic.Relation
import Mathlib.Data.List.Nodup
import Mathlib.Tactic.Common

/-! # Post-dominance — vertices on every path to an exit

    A directed graph is a relation `E` on its vertices, with a distinguished
    exit `R`.  `q` post-dominates `u` when it lies on every path from `u` to
    `R`, and the immediate post-dominator of `u` is the nearest one other than
    `u` itself.

    The results are about a graph that grows by one edge at a time: the
    post-dominators of the new edge's tail are those its old paths share with
    the edge's head, a post-dominator never comes back once it is lost, and an
    immediate post-dominator that is the same in a smaller and in a larger
    graph is the same in between. -/

namespace PostDominance

variable {V : Type*} {E F G : V → V → Prop} {R : V}

/-- A path to the exit, by the list of its vertices. -/
inductive PathTo (E : V → V → Prop) (R : V) : V → List V → Prop where
  | exit : PathTo E R R [R]
  | step {u v : V} {p : List V} : E u v → PathTo E R v p → PathTo E R u (u :: p)

/-- There is a path to the exit. -/
def Reaches (E : V → V → Prop) (R u : V) : Prop := ∃ p, PathTo E R u p

/-- `q` lies on every path from `u` to the exit. -/
def PostDominates (E : V → V → Prop) (R q u : V) : Prop := ∀ p, PathTo E R u p → q ∈ p

/-- `p` is the **immediate post-dominator** of `u`: it is another vertex on
    every path, and every other vertex on all these paths post-dominates it. -/
structure IsImmediate (E : V → V → Prop) (R u p : V) : Prop where
  ne : p ≠ u
  dominates : PostDominates E R p u
  nearest : ∀ q, q ≠ u → PostDominates E R q u → PostDominates E R q p

theorem PathTo.start_mem {u : V} {p : List V} (h : PathTo E R u p) : u ∈ p := by
  cases h with
  | exit => exact List.mem_cons_self
  | step _ _ => exact List.mem_cons_self

theorem PathTo.exit_mem {u : V} {p : List V} (h : PathTo E R u p) : R ∈ p := by
  induction h with
  | exit => exact List.mem_cons_self
  | step _ _ ih => exact List.mem_cons_of_mem _ ih

/-- A path begins with its first vertex. -/
theorem PathTo.eq_cons {u : V} {p : List V} (h : PathTo E R u p) : ∃ p', p = u :: p' := by
  cases h with
  | exit => exact ⟨[], rfl⟩
  | step _ _ => exact ⟨_, rfl⟩

/-- From a vertex of a path, the rest of it is a path. -/
theorem PathTo.suffix {u v : V} {p : List V} (h : PathTo E R u p) (hv : v ∈ p) :
    ∃ p', PathTo E R v p' ∧ p' <:+ p := by
  induction h with
  | exit =>
      cases List.mem_singleton.mp hv
      exact ⟨_, .exit, List.suffix_rfl⟩
  | @step u w p he hp ih =>
      rcases List.mem_cons.mp hv with rfl | hv
      · exact ⟨_, .step he hp, List.suffix_rfl⟩
      · obtain ⟨p', hp', hs⟩ := ih hv
        exact ⟨p', hp', hs.trans (List.suffix_cons _ _)⟩

/-- A graph with more edges has the same paths and more. -/
theorem PathTo.mono (hEF : ∀ x y, E x y → F x y) {u : V} {p : List V} (h : PathTo E R u p) :
    PathTo F R u p := by
  induction h with
  | exit => exact .exit
  | step he _ ih => exact .step (hEF _ _ he) ih

theorem Reaches.mono (hEF : ∀ x y, E x y → F x y) {u : V} (h : Reaches E R u) :
    Reaches F R u := by
  obtain ⟨p, hp⟩ := h
  exact ⟨p, hp.mono hEF⟩

theorem Reaches.step {u v : V} (he : E u v) (h : Reaches E R v) : Reaches E R u := by
  obtain ⟨p, hp⟩ := h
  exact ⟨u :: p, .step he hp⟩

theorem PostDominates.refl (u : V) : PostDominates E R u u := fun _ hp => hp.start_mem

theorem PostDominates.exit (u : V) : PostDominates E R R u := fun _ hp => hp.exit_mem

theorem PostDominates.trans {q v u : V} (hq : PostDominates E R q v)
    (hv : PostDominates E R v u) : PostDominates E R q u := by
  intro p hp
  obtain ⟨p', hp', hs⟩ := hp.suffix (hv p hp)
  exact hs.subset (hq p' hp')

/-- The exit has no other post-dominator. -/
theorem PostDominates.eq_exit {q : V} (h : PostDominates E R q R) : q = R :=
  List.mem_singleton.mp (h [R] .exit)

/-- Two vertices that post-dominate each other and reach the exit are one. -/
theorem PostDominates.antisymm {u v : V} (hr : Reaches E R u) (huv : PostDominates E R u v)
    (hvu : PostDominates E R v u) : u = v := by
  by_contra hne
  -- a shortest path from `u` would pass through `v` and then through `u` again
  have hnone : ∀ n p, p.length = n → ¬ PathTo E R u p := by
    intro n
    induction n using Nat.strongRecOn with
    | ind n ih =>
        intro p hn hp
        obtain ⟨p₁, hp₁, hs₁⟩ := hp.suffix (hvu p hp)
        obtain ⟨p₂, hp₂, hs₂⟩ := hp₁.suffix (huv p₁ hp₁)
        have hlt : p₁.length < p.length := by
          refine Nat.lt_of_le_of_ne hs₁.length_le fun hlen => hne ?_
          obtain ⟨t, ht⟩ := hp.eq_cons
          obtain ⟨t₁, ht₁⟩ := hp₁.eq_cons
          have heq := hs₁.eq_of_length hlen
          rw [ht, ht₁] at heq
          exact (List.cons.inj heq).1.symm
        exact ih p₂.length (hn ▸ Nat.lt_of_le_of_lt hs₂.length_le hlt) p₂ rfl hp₂
  obtain ⟨p, hp⟩ := hr
  exact hnone _ p rfl hp

theorem PostDominates.mono (hEF : ∀ x y, E x y → F x y) {q u : V}
    (h : PostDominates F R q u) : PostDominates E R q u := fun p hp => h p (hp.mono hEF)

/-! ## Immediate post-dominators -/

/-- On a path there is a first vertex in `S`: any path from it extends
    backwards through vertices outside `S`. -/
theorem exists_first {S : V → Prop} (hR : S R) {u : V} {p : List V} (h : PathTo E R u p) :
    ∃ c, S c ∧ ∀ r, PathTo E R c r → ∃ p', PathTo E R u p' ∧ ∀ x ∈ p', x ∈ r ∨ ¬ S x := by
  induction h with
  | exit => exact ⟨R, hR, fun r hr => ⟨r, hr, fun _ hx => Or.inl hx⟩⟩
  | @step u v p he hp ih =>
      by_cases hu : S u
      · exact ⟨u, hu, fun r hr => ⟨r, hr, fun _ hx => Or.inl hx⟩⟩
      · obtain ⟨c, hc, hext⟩ := ih
        refine ⟨c, hc, fun r hr => ?_⟩
        obtain ⟨p', hp', hmem⟩ := hext r hr
        refine ⟨u :: p', .step he hp', fun x hx => ?_⟩
        rcases List.mem_cons.mp hx with rfl | hx
        · exact Or.inr hu
        · exact hmem x hx

/-- **Existence**: every vertex that reaches the exit, other than the exit, has
    an immediate post-dominator. -/
theorem exists_isImmediate {u : V} (hr : Reaches E R u) (hu : u ≠ R) :
    ∃ p, IsImmediate E R u p := by
  obtain ⟨π, hπ⟩ := hr
  have hR : R ≠ u ∧ PostDominates E R R u := ⟨hu.symm, .exit u⟩
  obtain ⟨c, ⟨hne, hdom⟩, hext⟩ :=
    exists_first (S := fun q => q ≠ u ∧ PostDominates E R q u) hR hπ
  refine ⟨c, hne, hdom, fun q hq hqu r hrr => ?_⟩
  obtain ⟨p', hp', hmem⟩ := hext r hrr
  exact (hmem q (hqu p' hp')).resolve_right fun h => h ⟨hq, hqu⟩

/-- **Uniqueness** of the immediate post-dominator. -/
theorem IsImmediate.unique {u p p' : V} (hr : Reaches E R p) (h : IsImmediate E R u p)
    (h' : IsImmediate E R u p') : p = p' :=
  PostDominates.antisymm hr (h'.nearest p h.ne h.dominates) (h.nearest p' h'.ne h'.dominates)

/-- A post-dominator of a vertex that reaches the exit reaches it too. -/
theorem PostDominates.reaches {q u : V} (h : PostDominates E R q u) (hr : Reaches E R u) :
    Reaches E R q := by
  obtain ⟨p, hp⟩ := hr
  obtain ⟨p', hp', -⟩ := hp.suffix (h p hp)
  exact ⟨p', hp'⟩

/-- **In between**: an immediate post-dominator in a smaller and in a larger
    graph is one in every graph between them. -/
theorem IsImmediate.between (hEF : ∀ x y, E x y → F x y) (hFG : ∀ x y, F x y → G x y)
    {u p : V} (hr : Reaches E R u) (hu : u ≠ R) (hE : IsImmediate E R u p)
    (hG : IsImmediate G R u p) : IsImmediate F R u p := by
  obtain ⟨p', hp'⟩ := exists_isImmediate (hr.mono hEF) hu
  have hF : PostDominates F R p u := hG.dominates.mono hFG
  have heq : p = p' := by
    refine PostDominates.antisymm (hE.dominates.reaches hr) ?_ ?_
    · exact (hp'.nearest p hE.ne hF).mono hEF
    · exact hE.nearest p' hp'.ne (hp'.dominates.mono hEF)
  exact heq ▸ hp'

/-- A vertex with a single way out is immediately post-dominated by its next
    vertex. -/
theorem isImmediate_of_only {u v : V} (hu : u ≠ R) (hne : v ≠ u) (hedge : E u v)
    (honly : ∀ w, E u w → w = v) : IsImmediate E R u v where
  ne := hne
  dominates := by
    intro p hp
    cases hp with
    | exit => exact absurd rfl hu
    | step he hp =>
        cases honly _ he
        exact List.mem_cons_of_mem _ hp.start_mem
  nearest := by
    intro q hq hqu p hp
    exact (List.mem_cons.mp (hqu (u :: p) (.step hedge hp))).resolve_left hq

/-- `F` is `E` with the edge from `u` to `v`. -/
def Extends (E F : V → V → Prop) (u v : V) : Prop := ∀ x y, F x y ↔ E x y ∨ (x = u ∧ y = v)

theorem Extends.le {u v : V} (h : Extends E F u v) : ∀ x y, E x y → F x y :=
  fun x y he => (h x y).mpr (Or.inl he)

/-- After its last use of the new edge a path is an old path from the head. -/
theorem PathTo.old_suffix {u v : V} (h : Extends E F u v) {x : V} {p : List V}
    (hp : PathTo F R x p) :
    (∃ p', PathTo E R x p' ∧ ∀ y ∈ p', y ∈ p) ∨ ∃ p', PathTo E R v p' ∧ ∀ y ∈ p', y ∈ p := by
  induction hp with
  | exit => exact Or.inl ⟨[R], .exit, fun _ hy => hy⟩
  | @step x w p he hp ih =>
      rcases ih with ⟨p', hp', hs⟩ | ⟨p', hp', hs⟩
      · rcases (h x w).mp he with he | ⟨rfl, rfl⟩
        · refine Or.inl ⟨x :: p', .step he hp', fun y hy => ?_⟩
          rcases List.mem_cons.mp hy with rfl | hy
          · exact List.mem_cons_self
          · exact List.mem_cons_of_mem _ (hs y hy)
        · exact Or.inr ⟨p', hp', fun y hy => List.mem_cons_of_mem _ (hs y hy)⟩
      · exact Or.inr ⟨p', hp', fun y hy => List.mem_cons_of_mem _ (hs y hy)⟩

/-- What lies on the old paths from `x` and from the head lies on the new paths
    from `x`. -/
theorem PostDominates.extend {u v : V} (h : Extends E F u v) {q x : V}
    (hx : PostDominates E R q x) (hv : PostDominates E R q v) : PostDominates F R q x := by
  intro p hp
  rcases hp.old_suffix h with ⟨p', hp', hs⟩ | ⟨p', hp', hs⟩
  · exact hs q (hx p' hp')
  · exact hs q (hv p' hp')

/-- A post-dominator of the tail is, in the new graph, the tail itself or an
    old one of tail and head. -/
theorem PostDominates.of_extended {u v : V} (h : Extends E F u v) {q : V} (hq : q ≠ u)
    (hu : PostDominates F R q u) : PostDominates E R q u ∧ PostDominates E R q v := by
  refine ⟨hu.mono h.le, fun p hp => ?_⟩
  have hstep : PathTo F R u (u :: p) :=
    .step ((h u v).mpr (Or.inr ⟨rfl, rfl⟩)) (hp.mono h.le)
  exact (List.mem_cons.mp (hu _ hstep)).resolve_left hq

/-- **The tail of a new edge**: its immediate post-dominator is the nearest
    vertex that post-dominated both tail and head before. -/
theorem isImmediate_of_nearest {u v w : V} (h : Extends E F u v) (hne : w ≠ u)
    (hu : PostDominates E R w u) (hv : PostDominates E R w v)
    (hnear : ∀ q, q ≠ u → PostDominates E R q u → PostDominates E R q v →
      PostDominates E R q w) : IsImmediate F R u w where
  ne := hne
  dominates := hu.extend h hv
  nearest := by
    intro q hq hqu
    obtain ⟨hqu', hqv⟩ := hqu.of_extended h hq
    exact (hnear q hq hqu' hqv).extend h hqv

/-! ## Parent pointers -/

section Parents

variable {parent : V → Option V}

/-- Following the parents of `b` up to the root passes through the list. -/
inductive Chain (parent : V → Option V) (R : V) : V → List V → Prop where
  | root : Chain parent R R []
  | up {b c : V} {cs : List V} : b ≠ R → parent b = some c → Chain parent R c cs →
      Chain parent R b (c :: cs)

theorem Chain.unique {b : V} {cs cs' : List V} (h : Chain parent R b cs)
    (h' : Chain parent R b cs') : cs = cs' := by
  induction h generalizing cs' with
  | root =>
      cases h' with
      | root => rfl
      | up hne _ _ => exact absurd rfl hne
  | up hne hp _ ih =>
      cases h' with
      | root => exact absurd rfl hne
      | up _ hp' hc' =>
          cases hp.symm.trans hp'
          rw [ih hc']

/-- A chain depends only on the parents along it. -/
theorem Chain.congr {parent' : V → Option V} {b : V} {cs : List V} (h : Chain parent R b cs)
    (heq : ∀ x ∈ b :: cs, parent' x = parent x) : Chain parent' R b cs := by
  induction h with
  | root => exact .root
  | up hne hp _ ih =>
      refine .up hne ((heq _ List.mem_cons_self).trans hp) ?_
      exact ih fun x hx => heq x (List.mem_cons_of_mem _ hx)

/-- The rest of a chain is the chain of the vertex it starts after. -/
theorem Chain.after {b w : V} {seg rest : List V} (h : Chain parent R b (seg ++ w :: rest)) :
    Chain parent R w rest := by
  induction seg generalizing b with
  | nil =>
      cases h with
      | up _ _ hc => exact hc
  | cons x seg ih =>
      cases h with
      | up _ _ hc => exact ih hc

/-- The chain of an ancestor is shorter. -/
theorem Chain.length_lt {b x : V} {cs xs : List V} (h : Chain parent R b cs)
    (h' : Chain parent R x xs) (hx : x ∈ cs) : xs.length < cs.length := by
  obtain ⟨pre, post, rfl⟩ := List.append_of_mem hx
  rw [h'.unique h.after, List.length_append, List.length_cons]
  omega

/-- No vertex is its own ancestor. -/
theorem Chain.notMem_self {b : V} {cs : List V} (h : Chain parent R b cs) : b ∉ cs :=
  fun hb => Nat.lt_irrefl _ (h.length_lt h hb)

theorem Chain.nodup {b : V} {cs : List V} (h : Chain parent R b cs) : (b :: cs).Nodup := by
  induction h with
  | root => exact List.nodup_singleton _
  | up hne hp hc ih => exact List.nodup_cons.mpr ⟨(Chain.up hne hp hc).notMem_self, ih⟩

/-- The root ends every chain. -/
theorem Chain.root_mem {b : V} {cs : List V} (h : Chain parent R b cs) : R ∈ b :: cs := by
  induction h with
  | root => exact List.mem_cons_self
  | up _ _ _ ih => exact List.mem_cons_of_mem _ ih

/-- A vertex other than the root has a parent that starts its chain. -/
theorem Chain.exists_parent {b : V} {cs : List V} (h : Chain parent R b cs) (hb : b ≠ R) :
    ∃ c cs', parent b = some c ∧ cs = c :: cs' ∧ Chain parent R c cs' := by
  cases h with
  | root => exact absurd rfl hb
  | up _ hp hc => exact ⟨_, _, hp, rfl, hc⟩

/-- The vertices above `b` are those that its parents lead to. -/
theorem Chain.transGen_iff {b x : V} {cs : List V} (h : Chain parent R b cs)
    (hR : parent R = none) :
    Relation.TransGen (fun y z => parent y = some z) b x ↔ x ∈ cs := by
  induction h with
  | root =>
      rw [Relation.TransGen.head'_iff]
      refine iff_of_false ?_ List.not_mem_nil
      rintro ⟨y, hy, -⟩
      exact nomatch hR.symm.trans hy
  | @up b c cs _ hp _ ih =>
      rw [Relation.TransGen.head'_iff, List.mem_cons, ← ih]
      constructor
      · rintro ⟨y, hy, hyx⟩
        cases hp.symm.trans hy
        exact Relation.reflTransGen_iff_eq_or_transGen.mp hyx
      · exact fun hx => ⟨c, hp, Relation.reflTransGen_iff_eq_or_transGen.mpr hx⟩

/-- When `w` is the first vertex of the second chain that is on the first, the
    vertices of the first below `w` are those that are not on the second. -/
theorem Chain.mem_below_iff {u v w : V} {us cs seg rest pre post : List V}
    (hu : Chain parent R u us) (hv : Chain parent R v cs) (hus : us = seg ++ w :: rest)
    (hcs : v :: cs = pre ++ w :: post) (hpre : ∀ y ∈ pre, y ∉ us) (x : V) :
    x ∈ seg ↔ x ∈ us ∧ x ∉ v :: cs := by
  subst hus
  have hpost : Chain parent R w post := by
    cases pre with
    | nil =>
        obtain ⟨rfl, rfl⟩ := List.cons.inj hcs
        exact hv
    | cons y pre =>
        obtain ⟨-, rfl⟩ := List.cons.inj hcs
        exact hv.after
  have hsame : rest = post := hu.after.unique hpost
  have hnodup := (List.nodup_cons.mp hu.nodup).2
  rw [hcs, List.mem_append, List.mem_append, ← hsame]
  constructor
  · intro hx
    refine ⟨Or.inl hx, ?_⟩
    rintro (hx' | hx')
    · exact hpre x hx' (List.mem_append_left _ hx)
    · exact List.disjoint_of_nodup_append hnodup hx hx'
  · rintro ⟨hx | hx, hnot⟩
    · exact hx
    · exact absurd (Or.inr hx) hnot

/-- **Moving a vertex up**: when `u` gets one of its ancestors `w` as its
    parent, the ancestors between the two are lost to `u` and to all below it,
    and nothing else changes. -/
theorem Chain.reparent {parent' : V → Option V} {u w : V} {seg rest : List V}
    (hu : Chain parent R u (seg ++ w :: rest)) (huw : parent' u = some w)
    (hother : ∀ x, x ≠ u → parent' x = parent x) {b : V} {cs : List V}
    (h : Chain parent R b cs) :
    ∃ cs', Chain parent' R b cs' ∧ cs'.Sublist cs
      ∧ ∀ y, y ∈ cs' ↔ y ∈ cs ∧ ¬ (y ∈ seg ∧ (b = u ∨ u ∈ cs)) := by
  have hnodup := hu.nodup
  induction h with
  | root => exact ⟨[], .root, List.Sublist.refl _, by simp⟩
  | @up b c cs hne hp hc ih =>
      by_cases hbu : b = u
      · subst hbu
        have hcs : c :: cs = seg ++ w :: rest := (Chain.up hne hp hc).unique hu
        have hrest : Chain parent' R w rest := by
          refine hu.after.congr fun x hx => hother x ?_
          rintro rfl
          exact (List.nodup_cons.mp hnodup).1 (List.mem_append_right _ hx)
        refine ⟨w :: rest, .up hne huw hrest, ?_, fun y => ?_⟩
        · rw [hcs]
          exact List.sublist_append_right _ _
        · rw [hcs, List.mem_append]
          constructor
          · intro hy
            refine ⟨Or.inr hy, fun hseg => ?_⟩
            exact List.disjoint_of_nodup_append (List.nodup_cons.mp hnodup).2 hseg.1 hy
          · rintro ⟨hy, hnot⟩
            exact hy.resolve_left fun hseg => hnot ⟨hseg, Or.inl rfl⟩
      · obtain ⟨cs', hc', hsub, hmem⟩ := ih
        refine ⟨c :: cs', .up hne ((hother b hbu).trans hp) hc', hsub.cons_cons _, fun y => ?_⟩
        -- the parent of `b` is kept: it is not between `u` and `w` when `b` is below `u`
        have hkept : ¬ (c ∈ seg ∧ (b = u ∨ u ∈ c :: cs)) := by
          rintro ⟨hseg, rfl | hmemu⟩
          · exact hbu rfl
          · rcases List.mem_cons.mp hmemu with rfl | hmemu
            · exact (List.nodup_cons.mp hnodup).1 (List.mem_append_left _ hseg)
            · exact Nat.lt_asymm (hc.length_lt hu hmemu)
                (hu.length_lt hc (List.mem_append_left _ hseg))
        simp only [List.mem_cons, hmem] at hkept ⊢
        constructor
        · rintro (rfl | ⟨hy, hnot⟩)
          · exact ⟨Or.inl rfl, hkept⟩
          · refine ⟨Or.inr hy, ?_⟩
            rintro ⟨hseg, rfl | rfl | hucs⟩
            · exact hbu rfl
            · exact hnot ⟨hseg, Or.inl rfl⟩
            · exact hnot ⟨hseg, Or.inr hucs⟩
        · rintro ⟨rfl | hy, hnot⟩
          · exact Or.inl rfl
          · refine Or.inr ⟨hy, ?_⟩
            rintro ⟨hseg, rfl | hucs⟩
            · exact hnot ⟨hseg, Or.inr (Or.inl rfl)⟩
            · exact hnot ⟨hseg, Or.inr (Or.inr hucs)⟩

/-- **The tree of immediate post-dominators**: where every parent is the
    immediate post-dominator, the ancestors are the other post-dominators. -/
theorem Chain.postDominates_iff {b : V} {cs : List V} (h : Chain parent R b cs)
    (hp : ∀ x ∈ b :: cs, x ≠ R → ∃ p, parent x = some p ∧ IsImmediate E R x p) (q : V) :
    PostDominates E R q b ↔ q ∈ b :: cs := by
  induction h with
  | root =>
      rw [List.mem_singleton]
      exact ⟨fun hq => hq.eq_exit, fun hq => hq ▸ .refl _⟩
  | @up b c cs hne hbc hc ih =>
      have hrest := ih fun x hx => hp x (List.mem_cons_of_mem _ hx)
      obtain ⟨p, hbp, himm⟩ := hp b List.mem_cons_self hne
      cases hbc.symm.trans hbp
      rw [List.mem_cons, ← hrest]
      constructor
      · intro hq
        by_cases hqb : q = b
        · exact Or.inl hqb
        · exact Or.inr (himm.nearest q hqb hq)
      · rintro (rfl | hq)
        · exact .refl _
        · exact hq.trans himm.dominates

end Parents

end PostDominance
