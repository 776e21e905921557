import Mathlib.Data.List.Forall2
import Dytan.LoadAssignProofs

/-! # Interference — what a value can depend on

    Beside the marks there is a store of values.  A step of the program computes
    the value it leaves at a place from the values at some places before
    (`Respects`); which ones follows from its results, each computed before any
    is stored, stored one after the other (`dependency`).

    Marks cover the dependencies of a step if every place has after it all
    marks of the places its value was computed from.  Two stores that differ
    only where a mark is then differ only where it is after the step: without
    the mark, no interference. -/

namespace Interference

open Overwrite LoadAssign

variable {P V M : Type*} {O : Set P} {deps : P → Set P} {μ μ' : P → Set M} {m : M}

/-- The value that `f` leaves at a place of `O` is computed from those at the
    places `deps` names. -/
def Respects (O : Set P) (deps : P → Set P) (f : (P → V) → P → V) : Prop :=
  ∀ p ∈ O, ∀ σ τ, (∀ q ∈ deps p, σ q = τ q) → f σ p = f τ p

/-- The stores agree at the places of `O` that do not have the mark. -/
def AgreeOff (O : Set P) (μ : P → Set M) (m : M) (σ τ : P → V) : Prop :=
  ∀ p ∈ O, m ∉ μ p → σ p = τ p

/-- A place of `O` has after the step every mark that the places it depends on
    had before, and these are places of `O`. -/
def Covers (O : Set P) (deps : P → Set P) (μ μ' : P → Set M) : Prop :=
  ∀ p ∈ O, ∀ q ∈ deps p, q ∈ O ∧ μ q ⊆ μ' p

/-- **No interference in one step.** -/
theorem AgreeOff.step {f : (P → V) → P → V} (hf : Respects O deps f) (hc : Covers O deps μ μ')
    {σ τ : P → V} (h : AgreeOff O μ m σ τ) : AgreeOff O μ' m (f σ) (f τ) := by
  intro p hp hm
  refine hf p hp σ τ fun q hq => ?_
  obtain ⟨hqO, hsub⟩ := hc p hp q hq
  exact h q hqO fun hmq => hm (hsub hmq)

/-- Storing the result `r` makes its places depend on what it is computed from. -/
def store (deps : P → Set P) (r : Set P × Set P) : P → Set P :=
  fun p => {q | (p ∈ r.1 ∧ q ∈ r.2) ∨ (p ∉ r.1 ∧ q ∈ deps p)}

/-- The places the value at a place is computed from, where the results `rs` are
    stored in order: those of the last result stored there, or the place
    itself. -/
def dependency (rs : List (Set P × Set P)) : P → Set P := rs.foldl store fun p => {p}

/-- The assignment `a` of marks, made from the marks `ν`, follows the result
    `r`: it goes to the same places of `O`, and takes along the marks `μ` of all
    places the result is computed from. -/
structure Follows (O : Set P) (μ ν : P → Set M) (r a : Set P × Set P) : Prop where
  target : ∀ p ∈ O, p ∈ r.1 ↔ p ∈ a.1
  observed : ∀ q ∈ r.2, q ∈ O
  sources : ∀ q ∈ r.2, μ q ⊆ gathered a.2 ν

/-- One assignment that follows a result covers what the result adds. -/
theorem Covers.store {ν ν' : P → Set M} {r a : Set P × Set P} (h : Follows O μ ν r a)
    (hc : Covers O deps μ ν') (hν : ∀ q ∈ a.2, ν' q = ν q) :
    Covers O (store deps r) μ (overwrite a.1 a.2 ν') := by
  intro p hp q hq
  rcases hq with ⟨hpr, hq⟩ | ⟨hpr, hq⟩
  · refine ⟨h.observed q hq, ?_⟩
    rw [overwrite_of_mem ((h.target p hp).mp hpr), gathered_eq hν]
    exact h.sources q hq
  · rw [overwrite_of_notMem fun hpa => hpr ((h.target p hp).mpr hpa)]
    exact hc p hp q hq

/-- Assignments that follow results cover what the results add, as long as the
    places they take marks from are as they were. -/
theorem Covers.foldl {ν : P → Set M} {rs as : List (Set P × Set P)}
    (h : List.Forall₂ (Follows O μ ν) rs as)
    (hdisjoint : ∀ a ∈ as, ∀ b ∈ as, ∀ q ∈ a.2, q ∉ b.1) {ν' : P → Set M}
    (hc : Covers O deps μ ν') (hν : ∀ a ∈ as, ∀ q ∈ a.2, ν' q = ν q) :
    Covers O (rs.foldl Interference.store deps) μ (assign as ν') := by
  induction h generalizing deps ν' with
  | nil => exact hc
  | @cons r a rs as hra _ ih =>
      have hlater : ∀ b ∈ as, ∀ q ∈ b.2, q ∉ a.1 := fun b hb =>
        hdisjoint b (List.mem_cons_of_mem _ hb) a List.mem_cons_self
      refine ih (fun b hb c hcm => hdisjoint b (List.mem_cons_of_mem _ hb) c
        (List.mem_cons_of_mem _ hcm)) (hc.store hra (hν a List.mem_cons_self)) ?_
      intro b hb q hq
      have hkept : overwrite a.1 a.2 ν' q = ν' q := overwrite_of_notMem (hlater b hb q hq)
      exact hkept.trans (hν b (List.mem_cons_of_mem _ hb) q hq)

end Interference
