import Mathlib.Tactic.Common
import Mathlib.Data.Set.Basic

/-! # Maps kept in binary search trees

    A map with a comparator `less` keeps its entries in a binary tree.  A
    search asks the comparator along one path from the root; an insertion may
    afterwards reshape the tree, keeping its entries in order.

    For any comparator at all, a search only ends at an entry that is
    equivalent to the key.  It finds such an entry whenever there is one, in a
    tree of any shape, if the comparator is a strict weak order on the keys. -/

namespace SearchTree

variable {α K V : Type}

/-- A binary tree. -/
inductive Tree (α : Type) where
  | leaf
  | node (left : Tree α) (root : α) (right : Tree α)

/-- The elements of a tree, in order. -/
def Tree.toList : Tree α → List α
  | .leaf => []
  | .node left root right => left.toList ++ root :: right.toList

/-- How many elements lie before the place where a search ends.  It goes right
    at the elements that are `below` the key. -/
def lowerBound (below : α → Bool) : Tree α → Nat
  | .leaf => 0
  | .node left root right =>
      if below root then left.toList.length + 1 + lowerBound below right
      else lowerBound below left

/-- `find`: the element the search ends at, unless the key is less. -/
def find (less : K → K → Bool) (k : K) (t : Tree (K × V)) : Option (K × V) :=
  (t.toList[lowerBound (fun e => less e.1 k) t]?).filter fun e => !less k e.1

/-- The entries, in order, after the value of `k` is replaced by what `f` makes
    of it; `f none` is inserted where the search ends. -/
def altered (less : K → K → Bool) (k : K) (f : Option V → V) (t : Tree (K × V)) :
    List (K × V) :=
  let i := lowerBound (fun e => less e.1 k) t
  match find less k t with
  | some e => t.toList.set i (e.1, f (some e.2))
  | none => t.toList.take i ++ (k, f none) :: t.toList.drop i

theorem lowerBound_le (below : α → Bool) (t : Tree α) : lowerBound below t ≤ t.toList.length := by
  induction t with
  | leaf => exact Nat.le_refl _
  | node left root right ihl ihr =>
      rw [lowerBound, Tree.toList, List.length_append, List.length_cons]
      split <;> omega

/-- The search went left at the element it ends at. -/
theorem lowerBound_stops {below : α → Bool} {t : Tree α} {a : α}
    (h : t.toList[lowerBound below t]? = some a) : below a = false := by
  induction t with
  | leaf => exact nomatch h
  | node left root right ihl ihr =>
      rw [lowerBound, Tree.toList] at h
      by_cases hroot : below root = true
      · rw [if_pos hroot, List.getElem?_append_right (by omega),
          show left.toList.length + 1 + lowerBound below right - left.toList.length
            = lowerBound below right + 1 by omega, List.getElem?_cons_succ] at h
        exact ihr h
      · rw [if_neg hroot] at h
        have hle := lowerBound_le below left
        rcases Nat.lt_or_eq_of_le hle with hlt | heq
        · rw [List.getElem?_append_left hlt] at h
          exact ihl h
        · rw [heq, List.getElem?_append_right (Nat.le_refl _), Nat.sub_self] at h
          cases h
          exact Bool.eq_false_iff.mpr hroot

/-- **A search only ends at an entry equivalent to the key.** -/
theorem find_equivalent {less : K → K → Bool} {k : K} {t : Tree (K × V)} {e : K × V}
    (h : find less k t = some e) :
    e ∈ t.toList ∧ less e.1 k = false ∧ less k e.1 = false := by
  rw [find, Option.filter_eq_some_iff] at h
  have hstop := @lowerBound_stops _ (fun e => less e.1 k) t e h.1
  exact ⟨List.mem_of_getElem? h.1, hstop, by simpa using h.2⟩

/-- When they do, every search ends behind them. -/
theorem lowerBound_eq {below : α → Bool} {t : Tree α}
    (h : t.toList.Pairwise fun a b => below b = true → below a = true) :
    lowerBound below t = (t.toList.takeWhile below).length := by
  induction t with
  | leaf => rfl
  | node left root right ihl ihr =>
      rw [Tree.toList, List.pairwise_append, List.pairwise_cons] at h
      obtain ⟨hl, ⟨hroot, hr⟩, hcross⟩ := h
      rw [lowerBound, Tree.toList]
      by_cases hb : below root = true
      · have hall : ∀ a ∈ left.toList, below a = true :=
          fun a ha => hcross a ha root List.mem_cons_self hb
        rw [if_pos hb, List.takeWhile_append_of_pos hall, List.takeWhile_cons_of_pos hb, ihr hr,
          List.length_append, List.length_cons]
        omega
      · rw [if_neg hb, ihl hl, List.takeWhile_append]
        by_cases hlen : (left.toList.takeWhile below).length = left.toList.length
        · rw [if_pos hlen, List.takeWhile_cons_of_neg hb, List.append_nil]
          exact hlen
        · rw [if_neg hlen]

/-! ## Strict weak orders -/

/-- The comparator is a strict weak order on the keys in `S`. -/
structure StrictWeakOn (less : K → K → Bool) (S : Set K) : Prop where
  irrefl : ∀ a ∈ S, less a a = false
  trans : ∀ a ∈ S, ∀ b ∈ S, ∀ c ∈ S, less a b = true → less b c = true → less a c = true
  between : ∀ a ∈ S, ∀ b ∈ S, ∀ c ∈ S, less a c = true → less a b = true ∨ less b c = true

/-- The entries have keys in `S`, in increasing order. -/
structure SortedIn (less : K → K → Bool) (S : Set K) (xs : List (K × V)) : Prop where
  mem : ∀ e ∈ xs, e.1 ∈ S
  increasing : xs.Pairwise fun a b => less a.1 b.1 = true

/-- What an ordered sequence of entries looks like around a key. -/
structure SplitAt (less : K → K → Bool) (k : K) (xs before after : List (K × V)) : Prop where
  eq : xs = before ++ after
  below : ∀ e ∈ before, less e.1 k = true
  notBelow : ∀ e ∈ after, less e.1 k = false

variable {less : K → K → Bool} {S : Set K} {k : K} {t : Tree (K × V)}

/-- A search in an ordered tree ends between the entries below the key and the
    others. -/
theorem split_lowerBound (hless : StrictWeakOn less S) (hk : k ∈ S)
    (ht : SortedIn less S t.toList) :
    ∃ before after, SplitAt less k t.toList before after
      ∧ lowerBound (fun e => less e.1 k) t = before.length := by
  have hprefix : t.toList.Pairwise fun a b => less b.1 k = true → less a.1 k = true := by
    refine List.Pairwise.imp_of_mem ?_ ht.increasing
    intro a b ha hb hab hbk
    exact hless.trans a.1 (ht.mem a ha) b.1 (ht.mem b hb) k hk hab hbk
  refine ⟨t.toList.takeWhile (fun e => less e.1 k), t.toList.dropWhile (fun e => less e.1 k),
    ⟨List.takeWhile_append_dropWhile.symm, fun e he => ?_, ?_⟩, lowerBound_eq hprefix⟩
  · exact List.all_eq_true.mp List.all_takeWhile e he
  · intro e he
    have hsub : (t.toList.dropWhile fun e => less e.1 k).Pairwise
        (fun a b => less b.1 k = true → less a.1 k = true) :=
      hprefix.sublist (List.dropWhile_sublist _)
    cases hd : t.toList.dropWhile (fun e => less e.1 k) with
    | nil =>
        rw [hd] at he
        exact nomatch he
    | cons first rest =>
        have hfirst : less first.1 k = false := by
          have := List.head?_dropWhile_not (fun e : K × V => less e.1 k) t.toList
          rw [hd] at this
          simpa using this
        rw [hd] at he hsub
        rcases List.mem_cons.mp he with rfl | hmem
        · exact hfirst
        · by_contra hne
          have := (List.pairwise_cons.mp hsub).1 e hmem (by simpa using hne)
          rw [hfirst] at this
          exact nomatch this

/-- **What an alteration does to an ordered tree**: it replaces the value of
    the one entry equivalent to the key, or inserts an entry between the
    smaller and the greater keys. -/
theorem altered_cases (hless : StrictWeakOn less S) (hk : k ∈ S) (ht : SortedIn less S t.toList)
    (f : Option V → V) :
    (∃ before e after, t.toList = before ++ e :: after ∧ less e.1 k = false ∧ less k e.1 = false
        ∧ find less k t = some e ∧ altered less k f t = before ++ (e.1, f (some e.2)) :: after)
      ∨ (∃ before after, t.toList = before ++ after ∧ (∀ e ∈ before, less e.1 k = true)
        ∧ (∀ e ∈ after, less k e.1 = true)
        ∧ find less k t = none ∧ altered less k f t = before ++ (k, f none) :: after) := by
  obtain ⟨before, after, hsplit, hpos⟩ := split_lowerBound hless hk ht
  have hfind : find less k t = (after[0]?).filter fun e => !less k e.1 := by
    rw [find, hpos, hsplit.eq, List.getElem?_append_right (Nat.le_refl _), Nat.sub_self]
  cases after with
  | nil =>
      refine .inr ⟨before, [], hsplit.eq, hsplit.below, fun e he => absurd he List.not_mem_nil, hfind, ?_⟩
      rw [altered, hfind, hpos, hsplit.eq]
      simp
  | cons e rest =>
      have he : e.1 ∈ S := ht.mem e (by rw [hsplit.eq]; simp)
      by_cases hke : less k e.1 = true
      · have hnone : find less k t = none := by
          rw [hfind]
          simp [hke]
        refine .inr ⟨before, e :: rest, hsplit.eq, hsplit.below, ?_, hnone, ?_⟩
        · intro x hx
          rcases List.mem_cons.mp hx with rfl | hmem
          · exact hke
          · have hinc := ht.increasing
            rw [hsplit.eq, List.pairwise_append, List.pairwise_cons] at hinc
            exact hless.trans k hk e.1 he x.1 (ht.mem x (by rw [hsplit.eq]; simp [hmem])) hke
              (hinc.2.1.1 x hmem)
        · rw [altered, hnone, hpos, hsplit.eq]
          simp
      · have hsome : find less k t = some e := by
          rw [hfind]
          simp [hke]
        refine .inl ⟨before, e, rest, hsplit.eq, hsplit.notBelow e List.mem_cons_self,
          Bool.eq_false_iff.mpr hke, hsome, ?_⟩
        rw [altered, hsome, hpos, hsplit.eq]
        simp

/-- Around an entry equivalent to the key every other entry is comparable to
    the key. -/
theorem comparable_of_split (hless : StrictWeakOn less S) (hk : k ∈ S) {xs : List (K × V)}
    (hxs : SortedIn less S xs) {before after : List (K × V)} {e : K × V}
    (hlist : xs = before ++ e :: after) (hek : less e.1 k = false) (hke : less k e.1 = false) :
    (∀ x ∈ before, less x.1 k = true) ∧ ∀ x ∈ after, less k x.1 = true := by
  subst hlist
  have hinc := hxs.increasing
  rw [List.pairwise_append, List.pairwise_cons] at hinc
  have he : e.1 ∈ S := hxs.mem e (List.mem_append_right _ List.mem_cons_self)
  refine ⟨fun x hx => ?_, fun x hx => ?_⟩
  · have hxe := hinc.2.2 x hx e List.mem_cons_self
    rcases hless.between x.1 (hxs.mem x (List.mem_append_left _ hx)) k hk e.1 he hxe with h | h
    · exact h
    · rw [hke] at h
      exact nomatch h
  · have hex := hinc.2.1.1 x hx
    have hxS := hxs.mem x (List.mem_append_right _ (List.mem_cons_of_mem _ hx))
    rcases hless.between e.1 he k hk x.1 hxS hex with h | h
    · rw [hek] at h
      exact nomatch h
    · exact h

/-- **The entries after an alteration**: those comparable to the key, and one
    new entry. -/
theorem mem_altered (hless : StrictWeakOn less S) (hk : k ∈ S) (ht : SortedIn less S t.toList)
    (f : Option V → V) :
    ∃ e', ((find less k t = none ∧ e' = (k, f none))
        ∨ ∃ e, find less k t = some e ∧ e' = (e.1, f (some e.2)))
      ∧ ∀ x, x ∈ altered less k f t
        ↔ x = e' ∨ x ∈ t.toList ∧ (less x.1 k = true ∨ less k x.1 = true) := by
  rcases altered_cases hless hk ht f with
    ⟨before, e, after, hlist, hek, hke, hfind, hres⟩ | ⟨before, after, hlist, hbelow, habove, hfind, hres⟩
  · obtain ⟨hbelow, habove⟩ := comparable_of_split hless hk ht hlist hek hke
    refine ⟨_, .inr ⟨e, hfind, rfl⟩, fun x => ?_⟩
    rw [hres, hlist, List.perm_middle.mem_iff, List.perm_middle.mem_iff, List.mem_cons,
      List.mem_cons]
    refine or_congr_right ⟨fun hx => ⟨.inr hx, ?_⟩, ?_⟩
    · exact (List.mem_append.mp hx).imp (hbelow x) (habove x)
    · rintro ⟨rfl | hx, hcmp⟩
      · rw [hek, hke] at hcmp
        exact hcmp.elim nofun nofun
      · exact hx
  · refine ⟨_, .inl ⟨hfind, rfl⟩, fun x => ?_⟩
    rw [hres, hlist, List.perm_middle.mem_iff, List.mem_cons]
    refine or_congr_right ⟨fun hx => ⟨hx, ?_⟩, And.left⟩
    exact (List.mem_append.mp hx).imp (hbelow x) (habove x)

/-- An alteration keeps the entries in order. -/
theorem altered_sorted (hless : StrictWeakOn less S) (hk : k ∈ S) (ht : SortedIn less S t.toList)
    (f : Option V → V) : SortedIn less S (altered less k f t) := by
  have hmem := ht.mem
  have hinc := ht.increasing
  rcases altered_cases hless hk ht f with
    ⟨before, e, after, hlist, -, -, -, hres⟩ | ⟨before, after, hlist, hbelow, habove, -, hres⟩
  · rw [hlist] at hmem hinc
    rw [List.pairwise_append, List.pairwise_cons] at hinc
    rw [hres]
    refine ⟨fun x hx => ?_, ?_⟩
    · rcases List.mem_cons.mp (List.perm_middle.mem_iff.mp hx) with rfl | hx
      · exact hmem e (List.mem_append_right _ List.mem_cons_self)
      · exact hmem x (List.perm_middle.mem_iff.mpr (List.mem_cons_of_mem _ hx))
    · rw [List.pairwise_append, List.pairwise_cons]
      refine ⟨hinc.1, hinc.2.1, fun a ha b hb => ?_⟩
      rcases List.mem_cons.mp hb with rfl | hb
      · exact hinc.2.2 a ha e List.mem_cons_self
      · exact hinc.2.2 a ha b (List.mem_cons_of_mem _ hb)
  · rw [hlist] at hmem hinc
    rw [List.pairwise_append] at hinc
    rw [hres]
    refine ⟨fun x hx => ?_, ?_⟩
    · rcases List.mem_cons.mp (List.perm_middle.mem_iff.mp hx) with rfl | hx
      · exact hk
      · exact hmem x hx
    · rw [List.pairwise_append, List.pairwise_cons]
      refine ⟨hinc.1, ⟨habove, hinc.2.1⟩, fun a ha b hb => ?_⟩
      rcases List.mem_cons.mp hb with rfl | hb
      · exact hbelow a ha
      · exact hinc.2.2 a ha b hb

/-- **A search in an ordered tree is exact**: it finds the entry equivalent to
    the key, whatever the shape of the tree. -/
theorem find_eq_some_iff (hless : StrictWeakOn less S) (hk : k ∈ S)
    (ht : SortedIn less S t.toList) (e : K × V) :
    find less k t = some e ↔ e ∈ t.toList ∧ less e.1 k = false ∧ less k e.1 = false := by
  refine ⟨find_equivalent, fun ⟨hmem, hek, hke⟩ => ?_⟩
  rcases altered_cases hless hk ht (fun o => o.getD e.2) with
    ⟨before, e', after, hlist, he'k, hke', hfind, -⟩ | ⟨before, after, hlist, hbelow, habove, -, -⟩
  · obtain ⟨hbelow, habove⟩ := comparable_of_split hless hk ht hlist he'k hke'
    rw [hfind]
    rw [hlist] at hmem
    rcases List.mem_append.mp hmem with hx | hx
    · rw [hbelow e hx] at hek
      exact nomatch hek
    · rcases List.mem_cons.mp hx with rfl | hx
      · rfl
      · rw [habove e hx] at hke
        exact nomatch hke
  · rw [hlist] at hmem
    rcases List.mem_append.mp hmem with hx | hx
    · rw [hbelow e hx] at hek
      exact nomatch hek
    · rw [habove e hx] at hke
      exact nomatch hke

end SearchTree
