import Mathlib.Data.Set.Lattice

/-! # Overwriting: the mark algebra of a taint step

    A mark assignment gives every place of some type `P` a set of marks.  One
    step of a taint analysis overwrites a set `D` of places with the marks
    gathered from a set `S` of places, and leaves every other place alone.

    Marks do not interact: whether a mark reaches a place depends only on
    where that mark was.  So one step of two runs that overwrite the same
    places keeps them ordered, and keeps them equal on any one mark.  When
    the two runs overwrite different places the step keeps the relation
    exactly when the places treated differently do not show it.

    Two runs that agree on some places only keep agreeing on a place that is
    overwritten when they agree on all that it gathers from. -/

namespace Overwrite

variable {P M : Type*}

/-- The marks found at any place of `S`. -/
def gathered (S : Set P) (σ : P → Set M) : Set M := {m | ∃ q ∈ S, m ∈ σ q}

/-- Overwrite the places of `D` with what is gathered from `S`. -/
def overwrite (D S : Set P) (σ : P → Set M) : P → Set M :=
  fun p => {m | (p ∈ D ∧ m ∈ gathered S σ) ∨ (p ∉ D ∧ m ∈ σ p)}

theorem overwrite_of_mem {D S : Set P} {σ : P → Set M} {p : P} (h : p ∈ D) :
    overwrite D S σ p = gathered S σ := by
  ext m
  constructor
  · rintro (⟨-, hm⟩ | ⟨hn, -⟩)
    · exact hm
    · exact absurd h hn
  · intro hm
    exact Or.inl ⟨h, hm⟩

theorem overwrite_of_notMem {D S : Set P} {σ : P → Set M} {p : P} (h : p ∉ D) :
    overwrite D S σ p = σ p := by
  ext m
  constructor
  · rintro (⟨hd, -⟩ | ⟨-, hm⟩)
    · exact absurd hd h
    · exact hm
  · intro hm
    exact Or.inr ⟨h, hm⟩

@[simp] theorem gathered_empty (σ : P → Set M) : gathered ∅ σ = ∅ := by
  ext m
  simp [gathered]

theorem gathered_mono {S : Set P} {σ τ : P → Set M} (h : ∀ p, σ p ⊆ τ p) :
    gathered S σ ⊆ gathered S τ := by
  rintro m ⟨q, hq, hm⟩
  exact ⟨q, hq, h q hm⟩

/-- **Two ordered runs stay ordered** through a step exactly when the places
    overwritten in only one of them do not break the order. -/
theorem overwrite_le_iff {D D' S : Set P} {σ τ : P → Set M} (h : ∀ p, σ p ⊆ τ p) :
    (∀ p, overwrite D S σ p ⊆ overwrite D' S τ p) ↔
      (∀ p ∈ D, p ∉ D' → gathered S σ ⊆ τ p)
        ∧ (∀ p ∈ D', p ∉ D → σ p ⊆ gathered S τ) := by
  constructor
  · intro hle
    constructor
    · intro p hp hp'
      have := hle p
      rw [overwrite_of_mem hp, overwrite_of_notMem hp'] at this
      exact this
    · intro p hp' hp
      have := hle p
      rw [overwrite_of_notMem hp, overwrite_of_mem hp'] at this
      exact this
  · rintro ⟨h1, h2⟩ p
    by_cases hp : p ∈ D
    · by_cases hp' : p ∈ D'
      · rw [overwrite_of_mem hp, overwrite_of_mem hp']
        exact gathered_mono h
      · rw [overwrite_of_mem hp, overwrite_of_notMem hp']
        exact h1 p hp hp'
    · by_cases hp' : p ∈ D'
      · rw [overwrite_of_notMem hp, overwrite_of_mem hp']
        exact h2 p hp' hp
      · rw [overwrite_of_notMem hp, overwrite_of_notMem hp']
        exact h p

/-- Two assignments that agree on one mark gather it alike. -/
theorem gathered_congr {S : Set P} {σ τ : P → Set M} {m : M}
    (h : ∀ p, m ∈ σ p ↔ m ∈ τ p) : m ∈ gathered S σ ↔ m ∈ gathered S τ := by
  constructor
  · rintro ⟨q, hq, hm⟩
    exact ⟨q, hq, (h q).mp hm⟩
  · rintro ⟨q, hq, hm⟩
    exact ⟨q, hq, (h q).mpr hm⟩

/-- **Two runs that agree on a mark keep agreeing** through a step exactly when
    the places overwritten in only one of them do not tell the mark apart. -/
theorem overwrite_same_iff {D D' S : Set P} {σ τ : P → Set M} {m : M}
    (h : ∀ p, m ∈ σ p ↔ m ∈ τ p) :
    (∀ p, m ∈ overwrite D S σ p ↔ m ∈ overwrite D' S τ p) ↔
      ∀ p, ¬ (p ∈ D ↔ p ∈ D') → (m ∈ σ p ↔ m ∈ gathered S σ) := by
  have hS : m ∈ gathered S σ ↔ m ∈ gathered S τ := gathered_congr h
  constructor
  · intro hsame p hdiff
    have hp := hsame p
    by_cases hD : p ∈ D
    · have hD' : p ∉ D' := fun hx => hdiff ⟨fun _ => hx, fun _ => hD⟩
      rw [overwrite_of_mem hD, overwrite_of_notMem hD'] at hp
      rw [h p]
      exact hp.symm
    · have hD' : p ∈ D' := by
        by_contra hx
        exact hdiff ⟨fun hy => absurd hy hD, fun hy => absurd hy hx⟩
      rw [overwrite_of_notMem hD, overwrite_of_mem hD'] at hp
      rw [hS]
      exact hp
  · intro hcond p
    by_cases hD : p ∈ D
    · by_cases hD' : p ∈ D'
      · rw [overwrite_of_mem hD, overwrite_of_mem hD']
        exact hS
      · rw [overwrite_of_mem hD, overwrite_of_notMem hD', ← h p]
        exact (hcond p fun hiff => hD' (hiff.mp hD)).symm
    · by_cases hD' : p ∈ D'
      · rw [overwrite_of_notMem hD, overwrite_of_mem hD', ← hS]
        exact hcond p fun hiff => hD (hiff.mpr hD')
      · rw [overwrite_of_notMem hD, overwrite_of_notMem hD']
        exact h p

/-- The two assignments give the places of `O` the same marks. -/
def AgreeOn (O : Set P) (σ τ : P → Set M) : Prop := ∀ p ∈ O, σ p = τ p

/-- The places that agree for sure after both runs overwrite `D` from `S`: an
    overwritten place agrees when all that it gathers from does. -/
def agreeing (O D S : Set P) : Set P := {p | (p ∈ D ∧ S ⊆ O) ∨ (p ∉ D ∧ p ∈ O)}

/-- Runs that agree everywhere go on doing so. -/
@[simp] theorem agreeing_univ (D S : Set P) : agreeing Set.univ D S = Set.univ := by
  refine Set.eq_univ_of_forall fun p => ?_
  by_cases hD : p ∈ D
  · exact Or.inl ⟨hD, Set.subset_univ S⟩
  · exact Or.inr ⟨hD, Set.mem_univ p⟩

theorem AgreeOn.gathered_eq {O S : Set P} {σ τ : P → Set M} (h : AgreeOn O σ τ)
    (hS : S ⊆ O) : gathered S σ = gathered S τ := by
  ext m
  constructor
  · rintro ⟨q, hq, hm⟩
    exact ⟨q, hq, h q (hS hq) ▸ hm⟩
  · rintro ⟨q, hq, hm⟩
    exact ⟨q, hq, (h q (hS hq)).symm ▸ hm⟩

/-- One step of both runs. -/
theorem AgreeOn.overwrite {O D S : Set P} {σ τ : P → Set M} (h : AgreeOn O σ τ) :
    AgreeOn (agreeing O D S) (overwrite D S σ) (overwrite D S τ) := by
  rintro p (⟨hD, hS⟩ | ⟨hD, hp⟩)
  · rw [overwrite_of_mem hD, overwrite_of_mem hD, h.gathered_eq hS]
  · rw [overwrite_of_notMem hD, overwrite_of_notMem hD, h p hp]

end Overwrite
