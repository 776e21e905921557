import Mathlib.Tactic.Common

/-! # Linked lists — nodes on a heap

    A node has its data and a pointer to the next node.  `LinksTo h q ps` says
    that the nodes `ps` are linked in this order and that the last one points
    to `q`; a whole list links to `none`.

    The operations are `setNext` and `setData`.  `setNext` keeps every list that
    its node is not in, and where it points a node of a list further down the
    list, the nodes in between are out (`LinksTo.skip`).  Where the node that
    ends a list is filled and pointed to a new one, the list is one node longer
    (`LinksTo.extend`). -/

namespace LinkedList

variable {α : Type*}

/-- A node. -/
structure Node (α : Type*) where
  data : α
  next : Option Nat

/-- The nodes, by pointer. -/
abbrev Heap (α : Type*) := Nat → Node α

/-- `p->next = q`. -/
def setNext (h : Heap α) (p : Nat) (q : Option Nat) : Heap α :=
  fun x => if x = p then ⟨(h p).data, q⟩ else h x

@[simp] theorem setNext_self (h : Heap α) (p : Nat) (q : Option Nat) :
    (setNext h p q p).next = q := by
  rw [setNext, if_pos rfl]

theorem setNext_of_ne (h : Heap α) {p x : Nat} (hx : x ≠ p) (q : Option Nat) :
    setNext h p q x = h x := if_neg hx

@[simp] theorem setNext_data (h : Heap α) (p x : Nat) (q : Option Nat) :
    (setNext h p q x).data = (h x).data := by
  rw [setNext]
  split
  · next hx => rw [hx]
  · rfl

theorem setNext_setNext (h : Heap α) (p : Nat) (q r : Option Nat) :
    setNext (setNext h p q) p r = setNext h p r := by
  funext x
  by_cases hx : x = p
  · rw [hx]
    simp [setNext]
  · rw [setNext_of_ne _ hx, setNext_of_ne _ hx, setNext_of_ne _ hx]

theorem setNext_eq_self {h : Heap α} {p : Nat} {q : Option Nat} (hp : (h p).next = q) :
    setNext h p q = h := by
  funext x
  by_cases hx : x = p
  · rw [hx, setNext, if_pos rfl, ← hp]
  · exact setNext_of_ne h hx q

/-- `p->data = d`. -/
def setData (h : Heap α) (p : Nat) (d : α) : Heap α :=
  fun x => if x = p then ⟨d, (h p).next⟩ else h x

@[simp] theorem setData_self (h : Heap α) (p : Nat) (d : α) : (setData h p d p).data = d := by
  rw [setData, if_pos rfl]

theorem setData_of_ne (h : Heap α) {p x : Nat} (hx : x ≠ p) (d : α) : setData h p d x = h x :=
  if_neg hx

@[simp] theorem setData_next (h : Heap α) (p x : Nat) (d : α) :
    (setData h p d x).next = (h x).next := by
  rw [setData]
  split
  · next hx => rw [hx]
  · rfl

theorem setData_setNext (h : Heap α) (p : Nat) (d : α) (q : Option Nat) :
    setData (setNext h p q) p d = setNext (setData h p d) p q := by
  funext x
  by_cases hx : x = p
  · subst hx
    simp [setData, setNext]
  · rw [setData_of_ne _ hx, setNext_of_ne _ hx, setNext_of_ne _ hx, setData_of_ne _ hx]

/-- The nodes are linked in this order, and the last one points to `q`. -/
def LinksTo (h : Heap α) (q : Option Nat) : List Nat → Prop
  | [] => True
  | p :: ps => (h p).next = ps.head?.or q ∧ LinksTo h q ps

variable {h : Heap α} {q : Option Nat} {p : Nat} {ps xs ys skipped : List Nat}

theorem linksTo_append (h : Heap α) (q : Option Nat) (xs ys : List Nat) :
    LinksTo h q (xs ++ ys) ↔ LinksTo h (ys.head?.or q) xs ∧ LinksTo h q ys := by
  induction xs with
  | nil => exact ⟨fun hl => ⟨trivial, hl⟩, And.right⟩
  | cons x xs ih =>
      have hnext : (xs ++ ys).head?.or q = xs.head?.or (ys.head?.or q) := by
        rw [List.head?_append, Option.or_assoc]
      show (h x).next = (xs ++ ys).head?.or q ∧ LinksTo h q (xs ++ ys) ↔ _
      rw [hnext, ih]
      exact and_assoc.symm

/-- A node that is not in the list. -/
theorem LinksTo.frame (hl : LinksTo h q ps) (hp : p ∉ ps) (r : Option Nat) :
    LinksTo (setNext h p r) q ps := by
  induction ps with
  | nil => trivial
  | cons x ps ih =>
      obtain ⟨hx, hps⟩ := not_or.mp (List.mem_cons.not.mp hp)
      refine ⟨?_, ih hl.2 hps⟩
      rw [setNext_of_ne h (Ne.symm hx)]
      exact hl.1

/-- The links of a list are all that counts. -/
theorem LinksTo.congr {h' : Heap α} (hl : LinksTo h q ps)
    (hnext : ∀ x ∈ ps, (h' x).next = (h x).next) : LinksTo h' q ps := by
  induction ps with
  | nil => trivial
  | cons x ps ih =>
      obtain ⟨hx, hps⟩ := List.forall_mem_cons.mp hnext
      exact ⟨hx.trans hl.1, ih hl.2 hps⟩

/-- **Unlinking**: a node that is pointed to the rest of its list. -/
theorem LinksTo.skip (hl : LinksTo h q (xs ++ p :: (skipped ++ ys)))
    (hnodup : (xs ++ p :: (skipped ++ ys)).Nodup) :
    LinksTo (setNext h p (ys.head?.or q)) q (xs ++ p :: ys)
      ∧ (xs ++ p :: ys).Nodup := by
  obtain ⟨hxs, -, hrest⟩ := (linksTo_append h q xs _).mp hl
  have hsub : (xs ++ p :: ys).Sublist (xs ++ p :: (skipped ++ ys)) :=
    (List.Sublist.refl xs).append ((List.sublist_append_right skipped ys).cons_cons p)
  have hnodup' := hnodup.sublist hsub
  obtain ⟨-, hp, hdisjoint⟩ := List.nodup_append.mp hnodup'
  have hpxs : p ∉ xs := fun hmem => hdisjoint p hmem p List.mem_cons_self rfl
  refine ⟨(linksTo_append _ q xs _).mpr ⟨?_, ?_, ?_⟩, hnodup'⟩
  · exact LinksTo.frame hxs hpxs _
  · rw [setNext_self]
  · exact (((linksTo_append h q skipped ys).mp hrest).2).frame (List.nodup_cons.mp hp).1 _

/-- Fill the node that ends a list and point it to a new one. -/
def extend (h : Heap α) (e f : Nat) (d : α) : Heap α :=
  setNext (setNext (setData h e d) e (some f)) f none

variable {e f x : Nat}

theorem extend_of_ne (h : Heap α) (hxe : x ≠ e) (hxf : x ≠ f) (d : α) : extend h e f d x = h x := by
  rw [extend]
  rw [setNext_of_ne _ hxf, setNext_of_ne _ hxe, setData_of_ne _ hxe]

theorem extend_end (h : Heap α) (hef : e ≠ f) (d : α) : extend h e f d e = ⟨d, some f⟩ := by
  rw [extend]
  rw [setNext_of_ne _ hef, setNext, if_pos rfl, setData_self]

theorem extend_new (h : Heap α) (hef : e ≠ f) (d : α) : extend h e f d f = ⟨(h f).data, none⟩ := by
  rw [extend, setNext, if_pos rfl]
  rw [setNext_of_ne _ hef.symm, setData_of_ne _ hef.symm]

/-- Where the node pointed before does not count. -/
theorem extend_setNext (h : Heap α) (e f : Nat) (q : Option Nat) (d : α) :
    extend (setNext h e q) e f d = extend h e f d := by
  rw [extend, extend, setData_setNext, setNext_setNext]

/-- **Extending**: the list is one node longer. -/
theorem LinksTo.extend (hl : LinksTo h none (xs ++ [e])) (hnodup : (xs ++ [e]).Nodup)
    (hf : f ∉ xs ++ [e]) (d : α) :
    LinksTo (extend h e f d) none (xs ++ [e, f]) ∧ (xs ++ [e, f]).Nodup := by
  have hef : e ≠ f := fun heq => hf (heq ▸ List.mem_append_right xs List.mem_cons_self)
  have hxs : ∀ x ∈ xs, x ≠ e ∧ x ≠ f := fun x hx =>
    ⟨fun heq => (List.nodup_append.mp hnodup).2.2 x hx e List.mem_cons_self heq,
      fun heq => hf (heq ▸ List.mem_append_left _ hx)⟩
  refine ⟨(linksTo_append _ none xs _).mpr ⟨?_, ?_, ?_, trivial⟩, ?_⟩
  · refine LinksTo.congr ((linksTo_append h none xs [e]).mp hl).1 fun x hx => ?_
    rw [extend_of_ne h (hxs x hx).1 (hxs x hx).2]
  · rw [extend_end h hef]
    rfl
  · rw [extend_new h hef]
    rfl
  · have hsplit : xs ++ [e, f] = (xs ++ [e]) ++ [f] := by simp
    rw [hsplit, List.nodup_append]
    refine ⟨hnodup, List.nodup_cons.mpr ⟨List.not_mem_nil, List.nodup_nil⟩, fun x hx y hy => ?_⟩
    rw [List.mem_singleton.mp hy]
    exact fun heq => hf (heq ▸ hx)

end LinkedList
