import Dytan.OverwriteProofs

/-! # Load, then assign

    A transfer of marks in two phases.  The loads copy what is gathered from
    their sources into buffers, one buffer each.  The assignments then give
    sets of places what is gathered from buffers and from other places that
    no assignment touches.

    The loads do not disturb each other's sources and the assignments not each
    other's, so every load puts into its buffer what its sources held at the
    start, and a place ends up with the last assignment to it. -/

namespace LoadAssign

open Overwrite

variable {P M : Type*}

/-- Load the buffers, one after the other. -/
def load (ls : List (P × Set P)) (σ : P → Set M) : P → Set M :=
  ls.foldl (fun σ l => overwrite {l.1} l.2 σ) σ

/-- Make the assignments, one after the other. -/
def assign (as : List (Set P × Set P)) (σ : P → Set M) : P → Set M :=
  as.foldl (fun σ a => overwrite a.1 a.2 σ) σ

@[simp] theorem load_cons (l : P × Set P) (ls : List (P × Set P)) (σ : P → Set M) :
    load (l :: ls) σ = load ls (overwrite {l.1} l.2 σ) := rfl

@[simp] theorem assign_cons (a : Set P × Set P) (as : List (Set P × Set P)) (σ : P → Set M) :
    assign (a :: as) σ = assign as (overwrite a.1 a.2 σ) := rfl

theorem assign_append (as bs : List (Set P × Set P)) (σ : P → Set M) :
    assign (as ++ bs) σ = assign bs (assign as σ) := List.foldl_append

/-- Gathering sees only the places gathered from. -/
theorem gathered_eq {S : Set P} {σ τ : P → Set M} (h : ∀ q ∈ S, σ q = τ q) :
    gathered S σ = gathered S τ := by
  ext m
  constructor
  · rintro ⟨q, hq, hm⟩
    exact ⟨q, hq, h q hq ▸ hm⟩
  · rintro ⟨q, hq, hm⟩
    exact ⟨q, hq, h q hq ▸ hm⟩

theorem gathered_union (S T : Set P) (σ : P → Set M) :
    gathered (S ∪ T) σ = gathered S σ ∪ gathered T σ := by
  ext m
  constructor
  · rintro ⟨q, hq | hq, hm⟩
    · exact .inl ⟨q, hq, hm⟩
    · exact .inr ⟨q, hq, hm⟩
  · rintro (⟨q, hq, hm⟩ | ⟨q, hq, hm⟩)
    · exact ⟨q, .inl hq, hm⟩
    · exact ⟨q, .inr hq, hm⟩

/-- The loads go to different buffers of `B`, from places outside of `B`. -/
structure LoadsInto (B : Set P) (ls : List (P × Set P)) : Prop where
  buffers : ∀ l ∈ ls, l.1 ∈ B
  sources : ∀ l ∈ ls, ∀ p ∈ l.2, p ∉ B
  distinct : (ls.map Prod.fst).Nodup

theorem LoadsInto.tail {B : Set P} {l : P × Set P} {ls : List (P × Set P)}
    (h : LoadsInto B (l :: ls)) : LoadsInto B ls where
  buffers := fun l' hl' => h.buffers l' (List.mem_cons_of_mem _ hl')
  sources := fun l' hl' => h.sources l' (List.mem_cons_of_mem _ hl')
  distinct := (List.nodup_cons.mp h.distinct).2

/-- What is not loaded is as before. -/
theorem load_of_notMem {ls : List (P × Set P)} {p : P} (hp : ∀ l ∈ ls, l.1 ≠ p)
    (σ : P → Set M) : load ls σ p = σ p := by
  induction ls generalizing σ with
  | nil => rfl
  | cons l rest ih =>
      rw [load_cons, ih fun l' hl' => hp l' (List.mem_cons_of_mem _ hl')]
      exact overwrite_of_notMem fun h => hp l List.mem_cons_self h.symm

/-- **A buffer holds what its sources held before the loads.** -/
theorem load_buffer {B : Set P} {ls : List (P × Set P)} (h : LoadsInto B ls) {l : P × Set P}
    (hl : l ∈ ls) (σ : P → Set M) : load ls σ l.1 = gathered l.2 σ := by
  induction ls generalizing σ with
  | nil => exact absurd hl List.not_mem_nil
  | cons l' rest ih =>
      rw [load_cons]
      rcases List.mem_cons.mp hl with rfl | hrest
      · have hother : ∀ l'' ∈ rest, l''.1 ≠ l.1 := by
          intro l'' hl'' heq
          have hnot := (List.nodup_cons.mp h.distinct).1
          rw [← heq] at hnot
          exact hnot (List.mem_map_of_mem hl'')
        rw [load_of_notMem hother]
        exact overwrite_of_mem rfl
      · rw [ih h.tail hrest]
        refine gathered_eq fun q hq => overwrite_of_notMem fun heq => ?_
        refine h.sources l hl q hq ?_
        rw [show q = l'.1 from heq]
        exact h.buffers l' List.mem_cons_self

/-- A place that no assignment touches is as before. -/
theorem assign_of_notMem {as : List (Set P × Set P)} {p : P} (hp : ∀ a ∈ as, p ∉ a.1)
    (σ : P → Set M) : assign as σ p = σ p := by
  induction as generalizing σ with
  | nil => rfl
  | cons a rest ih =>
      rw [assign_cons, ih fun a' ha' => hp a' (List.mem_cons_of_mem _ ha')]
      exact overwrite_of_notMem (hp a List.mem_cons_self)

/-- **The last assignment to a place counts**, and gives it what its sources
    held before the assignments. -/
theorem assign_last (before after : List (Set P × Set P)) (a : Set P × Set P) {p : P}
    (hp : p ∈ a.1) (hafter : ∀ b ∈ after, p ∉ b.1)
    (hsources : ∀ b ∈ before, ∀ q ∈ a.2, q ∉ b.1) (σ : P → Set M) :
    assign (before ++ a :: after) σ p = gathered a.2 σ := by
  rw [assign_append, assign_cons, assign_of_notMem hafter, overwrite_of_mem hp]
  exact gathered_eq fun q hq => assign_of_notMem (fun b hb => hsources b hb q hq) σ

/-- What is done or not. -/
def guarded {α : Type*} (b : Bool) (a : α) : List α := if b then [a] else []

theorem eq_of_mem_guarded {α : Type*} {b : Bool} {a c : α} (h : c ∈ guarded b a) : c = a :=
  List.mem_singleton.mp (List.mem_ite_nil_right.mp h).2

@[simp] theorem map_guarded {α β : Type*} (f : α → β) (b : Bool) (a : α) :
    (guarded b a).map f = guarded b (f a) := by
  cases b with
  | true => rfl
  | false => rfl

/-- A place of the first target and not of the second. -/
theorem assign_guarded_left (b₁ b₂ : Bool) (a₁ a₂ : Set P × Set P) {p : P} (h₁ : p ∈ a₁.1)
    (h₂ : p ∉ a₂.1) (σ : P → Set M) :
    assign (guarded b₁ a₁ ++ guarded b₂ a₂) σ p = if b₁ then gathered a₁.2 σ else σ p := by
  have hsecond : ∀ b ∈ guarded b₂ a₂, p ∉ b.1 := by
    intro b hb
    rw [eq_of_mem_guarded hb]
    exact h₂
  cases b₁ with
  | true => exact assign_last [] _ a₁ h₁ hsecond nofun σ
  | false => exact assign_of_notMem hsecond σ

/-- A place of the second target and not of the first, which the second does
    not read. -/
theorem assign_guarded_right (b₁ b₂ : Bool) (a₁ a₂ : Set P × Set P) {p : P} (h₁ : p ∉ a₁.1)
    (h₂ : p ∈ a₂.1) (hsources : ∀ q ∈ a₂.2, q ∉ a₁.1) (σ : P → Set M) :
    assign (guarded b₁ a₁ ++ guarded b₂ a₂) σ p = if b₂ then gathered a₂.2 σ else σ p := by
  cases b₂ with
  | true =>
      refine assign_last _ [] a₂ h₂ nofun (fun b hb => ?_) σ
      rw [eq_of_mem_guarded hb]
      exact hsources
  | false =>
      have hnone : guarded false a₂ = [] := rfl
      rw [hnone, List.append_nil, if_neg Bool.false_ne_true]
      refine assign_of_notMem (fun b hb => ?_) σ
      rw [eq_of_mem_guarded hb]
      exact h₁

end LoadAssign
