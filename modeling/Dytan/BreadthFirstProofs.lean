import Mathlib.Data.List.Nodup
import Mathlib.Data.List.Perm.Subperm
import Mathlib.Tactic.Common

/-! # Breadth-first search — the order in which edges are visited

    `next v` lists the neighbours of `v` in the order they are looked at.  The
    search processes a queue of vertices; a neighbour not seen before is
    appended to it.

    The edges are visited as their heads are processed.  No edge is visited
    twice, the head of each is the root or the tail of an edge visited before,
    and with enough fuel every edge is visited whose head the search reaches. -/

namespace BreadthFirst

variable {V : Type*}

/-- The edges, tail first, into the vertices of a list. -/
def edges (next : V → List V) (vs : List V) : List (V × V) :=
  vs.flatMap fun v => (next v).map (·, v)

theorem mem_edges {next : V → List V} {vs : List V} {u v : V} :
    (u, v) ∈ edges next vs ↔ v ∈ vs ∧ u ∈ next v := by
  simp [edges]

/-- The head of each edge is placed, or is the tail of an edge before it. -/
def WellOrdered (placed : V → Prop) : List (V × V) → Prop
  | [] => True
  | (u, v) :: es => placed v ∧ WellOrdered (fun x => placed x ∨ x = u) es

theorem WellOrdered.mono {placed placed' : V → Prop} (h : ∀ x, placed x → placed' x)
    {es : List (V × V)} (hes : WellOrdered placed es) : WellOrdered placed' es := by
  induction es generalizing placed placed' with
  | nil => trivial
  | cons e es ih => exact ⟨h _ hes.1, ih (fun x hx => hx.imp_left (h x)) hes.2⟩

/-- Edges into one placed vertex, then edges ordered after their tails. -/
theorem WellOrdered.into {placed : V → Prop} {v : V} (hv : placed v) {us : List V}
    {es : List (V × V)} (hes : WellOrdered (fun x => placed x ∨ x ∈ us) es) :
    WellOrdered placed (us.map (·, v) ++ es) := by
  induction us generalizing placed with
  | nil => exact hes.mono fun x hx => hx.resolve_right List.not_mem_nil
  | cons u us ih =>
      refine ⟨hv, ih (Or.inl hv) (hes.mono fun x hx => ?_)⟩
      rcases hx with hx | hx
      · exact Or.inl (Or.inl hx)
      · rcases List.mem_cons.mp hx with rfl | hx
        · exact Or.inl (Or.inr rfl)
        · exact Or.inr hx

/-- Where the list is cut, the head of the next edge is placed. -/
theorem WellOrdered.head {placed : V → Prop} {pre post : List (V × V)} {u v : V}
    (h : WellOrdered placed (pre ++ (u, v) :: post)) : placed v ∨ ∃ w, (v, w) ∈ pre := by
  induction pre generalizing placed with
  | nil => exact Or.inl h.1
  | cons e pre ih =>
      rcases ih h.2 with (hv | rfl) | ⟨w, hw⟩
      · exact Or.inl hv
      · exact Or.inr ⟨e.2, List.mem_cons_self⟩
      · exact Or.inr ⟨w, List.mem_cons_of_mem _ hw⟩

/-! ## The search -/

variable [DecidableEq V]

/-- The neighbours of `v` that have not been seen. -/
def fresh (next : V → List V) (v : V) (seen : List V) : List V :=
  (next v).filter (· ∉ seen)

/-- The vertices in the order they are processed. -/
def process (next : V → List V) : Nat → List V → List V → List V
  | 0, _, _ => []
  | _ + 1, [], _ => []
  | n + 1, v :: queue, seen =>
      v :: process next n (queue ++ fresh next v seen) (seen ++ fresh next v seen)

/-- The edges in the order a search from `root` visits them. -/
def visits (next : V → List V) (fuel : Nat) (root : V) : List (V × V) :=
  edges next (process next fuel [root] [root])

theorem mem_fresh {next : V → List V} {u v : V} {seen : List V} :
    u ∈ fresh next v seen ↔ u ∈ next v ∧ u ∉ seen := by
  simp [fresh]

/-- After a turn the processed vertices and the queue are what was seen. -/
theorem shift_turn (next : V → List V) (v : V) (queue done : List V) :
    (done ++ [v]) ++ (queue ++ fresh next v (done ++ v :: queue))
      = done ++ v :: queue ++ fresh next v (done ++ v :: queue) := by
  simp

theorem nodup_turn {next : V → List V} (hnext : ∀ v, (next v).Nodup) {v : V}
    {queue done : List V} (h : (done ++ v :: queue).Nodup) :
    (done ++ v :: queue ++ fresh next v (done ++ v :: queue)).Nodup := by
  refine List.Nodup.append h ((hnext v).filter _) ?_
  intro u hu hf
  exact (mem_fresh.mp hf).2 hu

/-- No vertex is processed twice. -/
theorem process_nodup {next : V → List V} (hnext : ∀ v, (next v).Nodup) (n : Nat)
    {queue done : List V} (h : (done ++ queue).Nodup) :
    (done ++ process next n queue (done ++ queue)).Nodup := by
  induction n generalizing queue done with
  | zero =>
      rw [process, List.append_nil]
      exact h.of_append_left
  | succ n ih =>
      cases queue with
      | nil => exact h
      | cons v queue =>
          have hshift := shift_turn next v queue done
          have hfresh := nodup_turn hnext h
          rw [← hshift] at hfresh
          have hrec := ih hfresh
          rw [hshift] at hrec
          rw [process]
          simpa using hrec

/-- With fuel for a finite graph the queue is emptied, and the neighbours of
    what is processed are processed. -/
theorem process_closed {next : V → List V} {vertices : List V}
    (hnext : ∀ v, (next v).Nodup) (hclosed : ∀ v, ∀ u ∈ next v, u ∈ vertices) (n : Nat)
    {queue done : List V} (h : (done ++ queue).Nodup) (hsub : done ++ queue ⊆ vertices)
    (hfuel : vertices.length ≤ done.length + n) :
    (∀ v ∈ queue, v ∈ process next n queue (done ++ queue))
      ∧ ∀ v ∈ process next n queue (done ++ queue), ∀ u ∈ next v,
        u ∈ done ++ process next n queue (done ++ queue) := by
  induction n generalizing queue done with
  | zero =>
      have hlen : (done ++ queue).length ≤ vertices.length :=
        (List.subperm_of_subset h hsub).length_le
      have hqueue : queue = [] := by
        rw [List.length_append] at hlen
        exact List.eq_nil_of_length_eq_zero (by omega)
      subst hqueue
      exact ⟨fun v hv => absurd hv List.not_mem_nil, fun v hv => absurd hv List.not_mem_nil⟩
  | succ n ih =>
      cases queue with
      | nil =>
          exact ⟨fun v hv => absurd hv List.not_mem_nil, fun v hv => absurd hv List.not_mem_nil⟩
      | cons v queue =>
          have hshift := shift_turn next v queue done
          have hfresh := nodup_turn hnext h
          have hsub' : (done ++ [v]) ++ (queue ++ fresh next v (done ++ v :: queue))
              ⊆ vertices := by
            rw [hshift]
            intro u hu
            rcases List.mem_append.mp hu with hu | hu
            · exact hsub hu
            · exact hclosed v u (mem_fresh.mp hu).1
          rw [← hshift] at hfresh
          obtain ⟨hqueue, hout⟩ := ih hfresh hsub' (by
            rw [List.length_append, List.length_singleton]
            omega)
          rw [hshift] at hqueue hout
          rw [process]
          refine ⟨fun w hw => ?_, fun w hw u hu => ?_⟩
          · rcases List.mem_cons.mp hw with rfl | hw
            · exact List.mem_cons_self
            · exact List.mem_cons_of_mem _ (hqueue w (List.mem_append_left _ hw))
          · rcases List.mem_cons.mp hw with rfl | hw
            · by_cases hseen : u ∈ done ++ w :: queue
              · rcases List.mem_append.mp hseen with hd | hq
                · exact List.mem_append_left _ hd
                · refine List.mem_append_right _ ?_
                  rcases List.mem_cons.mp hq with rfl | hq
                  · exact List.mem_cons_self
                  · exact List.mem_cons_of_mem _ (hqueue u (List.mem_append_left _ hq))
              · refine List.mem_append_right _ (List.mem_cons_of_mem _ (hqueue u ?_))
                exact List.mem_append_right _ (mem_fresh.mpr ⟨hu, hseen⟩)
            · have hu' := hout w hw u hu
              simpa using hu'

/-- The head of each edge visited is the root, or the tail of an edge visited
    before. -/
theorem wellOrdered_process (next : V → List V) (n : Nat) {queue seen : List V}
    {placed : V → Prop} (h : ∀ v ∈ queue, placed v) :
    WellOrdered placed (edges next (process next n queue seen)) := by
  induction n generalizing queue seen placed with
  | zero => trivial
  | succ n ih =>
      cases queue with
      | nil => trivial
      | cons v queue =>
          refine .into (h v List.mem_cons_self) (ih fun w hw => ?_)
          rcases List.mem_append.mp hw with hw | hw
          · exact Or.inl (h w (List.mem_cons_of_mem _ hw))
          · exact Or.inr (mem_fresh.mp hw).1

/-- No edge is visited twice. -/
theorem visits_nodup {next : V → List V} (hnext : ∀ v, (next v).Nodup) (fuel : Nat)
    (root : V) : (visits next fuel root).Nodup := by
  have hvs : (process next fuel [root] [root]).Nodup := by
    have h : ([] ++ [root]).Nodup := List.nodup_cons.mpr ⟨List.not_mem_nil, List.nodup_nil⟩
    have hrec := process_nodup hnext fuel h
    simpa using hrec
  refine List.nodup_flatMap.mpr ⟨fun v _ => ?_, hvs.imp ?_⟩
  · exact (hnext v).map fun u u' h => (Prod.mk.inj h).1
  · intro v w hvw e hv hw
    obtain ⟨u, -, rfl⟩ := List.mem_map.mp hv
    obtain ⟨u', -, heq⟩ := List.mem_map.mp hw
    exact hvw (Prod.mk.inj heq).2.symm

theorem wellOrdered_visits (next : V → List V) (fuel : Nat) (root : V) :
    WellOrdered (· = root) (visits next fuel root) :=
  wellOrdered_process next fuel fun _ hv => List.mem_singleton.mp hv

/-- **Completeness**: the root is processed, and with it every neighbour of a
    vertex that is. -/
theorem visits_closed {next : V → List V} {vertices : List V}
    (hnext : ∀ v, (next v).Nodup) (hclosed : ∀ v, ∀ u ∈ next v, u ∈ vertices)
    {root : V} (hroot : root ∈ vertices) {fuel : Nat} (hfuel : vertices.length ≤ fuel) :
    ∃ vs : List V, root ∈ vs ∧ (∀ v ∈ vs, ∀ u ∈ next v, u ∈ vs)
      ∧ ∀ u v, (u, v) ∈ visits next fuel root ↔ v ∈ vs ∧ u ∈ next v := by
  have h : ([] ++ [root]).Nodup := List.nodup_cons.mpr ⟨List.not_mem_nil, List.nodup_nil⟩
  have hsub : [] ++ [root] ⊆ vertices := by
    intro v hv
    cases List.mem_singleton.mp hv
    exact hroot
  obtain ⟨hqueue, hout⟩ := process_closed hnext hclosed fuel h hsub (by simpa using hfuel)
  exact ⟨process next fuel [root] [root], hqueue root (List.mem_singleton.mpr rfl),
    fun v hv u hu => hout v hv u hu, fun u v => mem_edges⟩

end BreadthFirst
