import Dytan.OverwriteProofs

/-! # Flow paths — where a mark comes from

    A `Transfer` overwrites a set of places with what it gathers from others
    and with fresh marks of its own.  A system that moves marks runs a list of
    transfers.

    `Flow ts q p` is a path along which one mark travels from `q` to `p`: at
    each transfer it stays where it is not overwritten, or it is gathered and
    put down at a target.  The main result is that the marks after a run are
    exactly those at the ends of paths, from a place that had the mark at the
    start or from a target where a transfer put it down as fresh: none comes
    from nowhere and none is lost. -/

namespace FlowPaths

open Overwrite

variable {P M : Type*}

/-- Overwrite `targets` with the marks of `origins` and the fresh ones. -/
structure Transfer (P M : Type*) where
  targets : Set P
  origins : Set P
  fresh : P → Set M

/-- The marks after a transfer. -/
def Transfer.apply (t : Transfer P M) (σ : P → Set M) : P → Set M :=
  fun p => {m | (p ∈ t.targets ∧ (m ∈ gathered t.origins σ ∨ m ∈ t.fresh p))
    ∨ (p ∉ t.targets ∧ m ∈ σ p)}

/-- A transfer without fresh marks. -/
def move (D S : Set P) : Transfer P M := ⟨D, S, fun _ => ∅⟩

/-- The transfers of a list, one after the other. -/
def applyAll (ts : List (Transfer P M)) (σ : P → Set M) : P → Set M :=
  ts.foldl (fun σ t => t.apply σ) σ

/-- The ways of a mark from one place to another. -/
inductive Flow : List (Transfer P M) → P → P → Prop where
  | done (p : P) : Flow [] p p
  | stay {t : Transfer P M} {ts : List (Transfer P M)} {q p : P} (hq : q ∉ t.targets)
      (rest : Flow ts q p) : Flow (t :: ts) q p
  | carry {t : Transfer P M} {ts : List (Transfer P M)} {q r p : P} (hq : q ∈ t.origins)
      (hr : r ∈ t.targets) (rest : Flow ts r p) : Flow (t :: ts) q p

/-- Some transfer of the list puts `m` down as fresh, and it flows to `p`. -/
def FreshFlow (ts : List (Transfer P M)) (m : M) (p : P) : Prop :=
  ∃ before t after q, ts = before ++ t :: after ∧ q ∈ t.targets ∧ m ∈ t.fresh q ∧ Flow after q p

@[simp] theorem move_apply (D S : Set P) (σ : P → Set M) :
    (move D S).apply σ = overwrite D S σ := by
  funext p
  ext m
  show (p ∈ D ∧ (m ∈ gathered S σ ∨ m ∈ (∅ : Set M)) ∨ p ∉ D ∧ m ∈ σ p) ↔ _
  rw [Set.mem_empty_iff_false, or_false]
  rfl

theorem apply_of_mem {t : Transfer P M} {p : P} (h : p ∈ t.targets) (σ : P → Set M) :
    t.apply σ p = gathered t.origins σ ∪ t.fresh p := by
  ext m
  constructor
  · rintro (⟨-, hm⟩ | ⟨hn, -⟩)
    · exact hm
    · exact absurd h hn
  · intro hm
    exact Or.inl ⟨h, hm⟩

theorem apply_of_notMem {t : Transfer P M} {p : P} (h : p ∉ t.targets) (σ : P → Set M) :
    t.apply σ p = σ p := by
  ext m
  constructor
  · rintro (⟨hp, -⟩ | ⟨-, hm⟩)
    · exact absurd hp h
    · exact hm
  · intro hm
    exact Or.inr ⟨h, hm⟩

@[simp] theorem applyAll_cons (t : Transfer P M) (ts : List (Transfer P M)) (σ : P → Set M) :
    applyAll (t :: ts) σ = applyAll ts (t.apply σ) := rfl

theorem flow_cons_iff {t : Transfer P M} {ts : List (Transfer P M)} {q p : P} :
    Flow (t :: ts) q p ↔ (q ∉ t.targets ∧ Flow ts q p)
      ∨ (q ∈ t.origins ∧ ∃ r ∈ t.targets, Flow ts r p) := by
  constructor
  · intro h
    cases h with
    | stay hq rest => exact Or.inl ⟨hq, rest⟩
    | carry hq hr rest => exact Or.inr ⟨hq, _, hr, rest⟩
  · rintro (⟨hq, rest⟩ | ⟨hq, r, hr, rest⟩)
    · exact .stay hq rest
    · exact .carry hq hr rest

theorem freshFlow_cons_iff {t : Transfer P M} {ts : List (Transfer P M)} {m : M} {p : P} :
    FreshFlow (t :: ts) m p
      ↔ (∃ q ∈ t.targets, m ∈ t.fresh q ∧ Flow ts q p) ∨ FreshFlow ts m p := by
  constructor
  · rintro ⟨before, u, after, q, hts, hq, hm, hflow⟩
    cases before with
    | nil =>
        cases hts
        exact Or.inl ⟨q, hq, hm, hflow⟩
    | cons t' rest =>
        cases hts
        exact Or.inr ⟨rest, u, after, q, rfl, hq, hm, hflow⟩
  · rintro (⟨q, hq, hm, hflow⟩ | ⟨before, u, after, q, rfl, hq, hm, hflow⟩)
    · exact ⟨[], t, ts, q, rfl, hq, hm, hflow⟩
    · exact ⟨t :: before, u, after, q, rfl, hq, hm, hflow⟩

/-- **A mark is where a path has brought it**: from a place that had it before
    the transfers, or from a transfer that put it down as fresh. -/
theorem mem_applyAll_iff (ts : List (Transfer P M)) (σ : P → Set M) (m : M) (p : P) :
    m ∈ applyAll ts σ p ↔ (∃ q, m ∈ σ q ∧ Flow ts q p) ∨ FreshFlow ts m p := by
  induction ts generalizing σ with
  | nil =>
      constructor
      · intro hm
        exact Or.inl ⟨p, hm, .done p⟩
      · rintro (⟨q, hm, hflow⟩ | ⟨before, t, after, q, hts, -⟩)
        · cases hflow
          exact hm
        · exact absurd hts.symm (List.append_ne_nil_of_right_ne_nil _ (List.cons_ne_nil _ _))
  | cons t rest ih =>
      rw [applyAll_cons, ih, freshFlow_cons_iff]
      constructor
      · rintro (⟨q, hm, hflow⟩ | hfresh)
        · -- what a place has after the first transfer it had before, or got
          by_cases hq : q ∈ t.targets
          · rw [apply_of_mem hq] at hm
            rcases hm with ⟨q', hq', hm⟩ | hm
            · exact Or.inl ⟨q', hm, .carry hq' hq hflow⟩
            · exact Or.inr (Or.inl ⟨q, hq, hm, hflow⟩)
          · rw [apply_of_notMem hq] at hm
            exact Or.inl ⟨q, hm, .stay hq hflow⟩
        · exact Or.inr (Or.inr hfresh)
      · rintro (⟨q, hm, hflow⟩ | ⟨q, hq, hm, hflow⟩ | hfresh)
        · rcases flow_cons_iff.mp hflow with ⟨hq, hrest⟩ | ⟨hq, r, hr, hrest⟩
          · refine Or.inl ⟨q, ?_, hrest⟩
            rw [apply_of_notMem hq]
            exact hm
          · refine Or.inl ⟨r, ?_, hrest⟩
            rw [apply_of_mem hr]
            exact Or.inl ⟨q, hq, hm⟩
        · refine Or.inl ⟨q, ?_, hflow⟩
          rw [apply_of_mem hq]
          exact Or.inr hm
        · exact Or.inr hfresh

end FlowPaths
