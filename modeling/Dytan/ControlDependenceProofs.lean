import Dytan.PostDominanceProofs

/-! # Control dependence — what a branch decides

    A vertex is control dependent on a branch when control that has left the
    branch one way is bound to come to it, and could have left the branch
    another way and never come to it.

    What strictly post-dominates the branch comes after all that is control
    dependent on it: an execution that gets from the branch to a dependent
    vertex has not met a strict post-dominator of the branch on its way.

    A graph whose vertices are grouped into blocks, entered at their first
    vertices only, has the post-dominators of the graph of its blocks. -/

namespace ControlDependence

open PostDominance

variable {V B : Type*} {E : V → V → Prop} {R u p x : V} {vs : List V}

/-- `q` lies on every path from `u` to the exit, after `u`. -/
def StrictlyPostDominates (E : V → V → Prop) (R q u : V) : Prop :=
  ∀ p, PathTo E R u (u :: p) → q ∈ p

/-- `x` is **control dependent** on `u`, for an execution that goes from `u`
    through `vs`: from all of these control is bound to come to `x`, and from
    `u` there is a way past it. -/
structure ControlDependent (E : V → V → Prop) (R u : V) (vs : List V) (x : V) : Prop where
  last : x ∈ vs
  bound : ∀ v ∈ vs, PostDominates E R x v
  avoidable : ∃ p, PathTo E R u (u :: p) ∧ x ∉ p

/-- A vertex post-dominates those that control leaves through it only. -/
theorem postDominates_of_closed {q : V} (inside : V → Prop) (hR : ¬ inside R)
    (hedge : ∀ v w, inside v → E v w → inside w ∨ w = q) (hu : inside u) :
    PostDominates E R q u := by
  intro p hp
  induction hp with
  | exit => exact absurd hu hR
  | @step v w p he hp ih =>
      rcases hedge v w hu he with hw | rfl
      · exact List.mem_cons_of_mem _ (ih hw)
      · exact List.mem_cons_of_mem _ hp.start_mem

/-- Post-dominators other than the vertex are strict. -/
theorem StrictlyPostDominates.of_ne {q : V} (h : PostDominates E R q u) (hne : q ≠ u) :
    StrictlyPostDominates E R q u :=
  fun p hp => (List.mem_cons.mp (h (u :: p) hp)).resolve_left hne

/-- A vertex that reaches the exit does not strictly post-dominate itself. -/
theorem StrictlyPostDominates.ne {q : V} (hr : Reaches E R u)
    (h : StrictlyPostDominates E R q u) : q ≠ u := by
  rintro rfl
  -- a shortest path would come to its first vertex again
  have hnone : ∀ n p, p.length = n → ¬ PathTo E R q p := by
    intro n
    induction n using Nat.strongRecOn with
    | ind n ih =>
        intro p hn hp
        obtain ⟨rest, rfl⟩ := hp.eq_cons
        have hmem := h rest hp
        cases hp with
        | exit => exact absurd hmem List.not_mem_nil
        | step he hrest =>
            obtain ⟨p', hp', hsuffix⟩ := hrest.suffix hmem
            have hlt : p'.length < n := by
              rw [← hn]
              exact Nat.lt_succ_of_le hsuffix.length_le
            exact ih p'.length hlt p' rfl hp'
  obtain ⟨p, hp⟩ := hr
  exact hnone _ p rfl hp

/-- **A strict post-dominator comes later** than what is control dependent. -/
theorem ControlDependent.notMem (h : ControlDependent E R u vs x)
    (hp : StrictlyPostDominates E R p u) : p ∉ vs := by
  intro hmem
  obtain ⟨way, hway, hx⟩ := h.avoidable
  -- the way past `x` meets `p`, and from there it comes to `x`
  have hpway := hp way hway
  cases hway with
  | exit => exact absurd hpway List.not_mem_nil
  | step he hrest =>
      obtain ⟨rest, hpath, hsuffix⟩ := hrest.suffix hpway
      exact hx (hsuffix.subset (h.bound p hmem rest hpath))

/-- The graph `F` is that of the blocks of `E`: an edge of `E` stays in its
    block, or enters another one at its first vertex. -/
structure Blocks (E : V → V → Prop) (R : V) (F : B → B → Prop) (S : B) (InBlock : V → B → Prop)
    (start : B → V) : Prop where
  step : ∀ {u v b}, InBlock u b → E u v →
    InBlock v b ∨ ∃ c, F b c ∧ v = start c ∧ InBlock v c
  exit : ∀ {b}, InBlock R b → b = S

variable {F : B → B → Prop} {S b c : B} {InBlock : V → B → Prop} {start : B → V}

/-- A path goes through the first vertices of the blocks of a path of blocks. -/
theorem Blocks.path (h : Blocks E R F S InBlock start) {way : List V} (hway : PathTo E R u way)
    (hu : InBlock u b) : ∃ bs, PathTo F S b (b :: bs) ∧ ∀ c ∈ bs, start c ∈ way.tail := by
  induction hway generalizing b with
  | exit =>
      cases h.exit hu
      exact ⟨[], .exit, fun _ hc => absurd hc List.not_mem_nil⟩
  | @step u v way he hway ih =>
      rcases h.step hu he with hv | ⟨c, hbc, rfl, hv⟩
      · obtain ⟨bs, hbs, hstarts⟩ := ih hv
        exact ⟨bs, hbs, fun c hc => List.mem_of_mem_tail (hstarts c hc)⟩
      · obtain ⟨bs, hbs, hstarts⟩ := ih hv
        refine ⟨c :: bs, .step hbc hbs, fun d hd => ?_⟩
        rcases List.mem_cons.mp hd with rfl | hd
        · exact hway.start_mem
        · exact List.mem_of_mem_tail (hstarts d hd)

/-- **Post-dominators of blocks**: the first vertex of a strict post-dominator
    of a block strictly post-dominates the vertices of the block. -/
theorem Blocks.strictlyPostDominates (h : Blocks E R F S InBlock start)
    (hc : StrictlyPostDominates F S c b) (hu : InBlock u b) :
    StrictlyPostDominates E R (start c) u := by
  intro way hway
  obtain ⟨bs, hbs, hstarts⟩ := h.path hway hu
  exact hstarts c (hc bs hbs)

end ControlDependence
