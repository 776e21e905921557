import Dytan.BitsetProofs
import Dytan.RunsProofs
import Mathlib.Data.Finset.SymmDiff
import Mathlib.Data.Nat.Count

/-! # Bitset operations — refinement to finite sets

    The rest of the bitset interface, and the word loops as the source has
    them: `while(i--)` counts an `int` down from the number of words, and the
    tests return `i == -1`.

    Programs over named bitsets run on words and on finite sets.  Every
    program keeps the two related, so the padding is zero and every test
    answers as the sets do; only `bitset_population` counts its positions in
    an `unsigned int`, and never returns when there are 2^32 of them. -/

namespace DytanBitsetOperations

open DytanBitset Runs

variable {w n : Nat}

/-- `int i = BITSET_USED(nbits)`. -/
def loopCount (w nbits : Nat) : Nat := (BitVec.ofNat 32 (bitsetUsed w nbits)).toInt.toNat

/-- `while(i--) body(i)`. -/
def whileDown {α : Type*} (body : Nat → α → α) : Nat → α → α
  | 0, x => x
  | i + 1, x => whileDown body i (body i x)

/-- The value of `i` after `while(i-- && ok(i))`. -/
def downWhile (ok : Nat → Bool) : Nat → Int
  | 0 => -1
  | i + 1 => if ok i then downWhile ok i else i

/-- The word at index `i`. -/
def wordAt (set : Bitset w) (i : Nat) : BitVec w := set.bits.getD i 0#w

/-- The common body of `bitset_union`, `bitset_intersection`,
    `bitset_difference` and `bitset_xor`. -/
def combineWords (op : BitVec w → BitVec w → BitVec w) (dest src : Bitset w) :
    Option (Bitset w) :=
  if dest.nbits = src.nbits then
    some { dest with
      bits := whileDown (fun i bits => bits.modify i (op · (wordAt src i)))
        (loopCount w dest.nbits) dest.bits }
  else none

/-- `bitset_intersection`. -/
def bitsetIntersection (dest src : Bitset w) : Option (Bitset w) :=
  combineWords (· &&& ·) dest src

/-- `bitset_difference`. -/
def bitsetDifference (dest src : Bitset w) : Option (Bitset w) :=
  combineWords (fun d s => d &&& ~~~s) dest src

/-- `bitset_xor`. -/
def bitsetXor (dest src : Bitset w) : Option (Bitset w) := combineWords (· ^^^ ·) dest src

/-- `bitset_clear_bit`, which asserts `pos < nbits`. -/
def bitsetClearBit (set : Bitset w) (pos : Nat) : Option (Bitset w) :=
  if pos < set.nbits then
    some { set with bits := set.bits.modify (pos / w) (· &&& ~~~(bitsetMask w pos)) }
  else none

/-- `bitset_toggle_bit`. -/
def bitsetToggleBit (set : Bitset w) (pos : Nat) : Option (Bitset w) := do
  let set? ← bitsetTestBit set pos
  if set? then bitsetClearBit set pos else bitsetSetBit set pos

theorem loopCount_eq (hint : bitsetUsed w n < 2 ^ 31) : loopCount w n = bitsetUsed w n := by
  have hnat : (BitVec.ofNat 32 (bitsetUsed w n)).toNat = bitsetUsed w n := by
    rw [BitVec.toNat_ofNat, Nat.mod_eq_of_lt (by omega)]
  rw [loopCount]
  rw [BitVec.toInt_eq_toNat_of_lt (by rw [hnat]; omega), hnat, Int.toNat_natCast]

theorem downWhile_iff (ok : Nat → Bool) (k : Nat) :
    downWhile ok k = -1 ↔ ∀ i < k, ok i = true := by
  induction k with
  | zero => exact ⟨fun _ i hi => absurd hi (Nat.not_lt_zero i), fun _ => rfl⟩
  | succ k ih =>
      rw [downWhile]
      by_cases hk : ok k = true
      · rw [if_pos hk, ih]
        constructor
        · intro h i hi
          rcases Nat.lt_succ_iff_lt_or_eq.mp hi with hi | rfl
          · exact h i hi
          · exact hk
        · intro h i hi
          exact h i (Nat.lt_succ_of_lt hi)
      · rw [if_neg hk]
        refine iff_of_false (by omega) fun h => hk (h k (Nat.lt_succ_self k))

theorem getElem?_whileDown {α : Type*} (f : Nat → α → α) (k : Nat) (xs : List α) (j : Nat) :
    (whileDown (fun i xs => xs.modify i (f i)) k xs)[j]?
      = if j < k then xs[j]?.map (f j) else xs[j]? := by
  induction k generalizing xs with
  | zero => rfl
  | succ k ih =>
      rw [whileDown, ih, List.getElem?_modify]
      by_cases hjk : j = k
      · subst hjk
        simp
      · have hlt : j < k + 1 ↔ j < k := by omega
        simp [Ne.symm hjk, hlt]

theorem length_whileDown {α : Type*} (f : Nat → α → α) (k : Nat) (xs : List α) :
    (whileDown (fun i xs => xs.modify i (f i)) k xs).length = xs.length := by
  induction k generalizing xs with
  | zero => rfl
  | succ k ih => rw [whileDown, ih, List.length_modify]

/-- **Word by word is bit by bit**: no assertion fails and the bits are
    combined. -/
theorem combineWords_sized {op : BitVec w → BitVec w → BitVec w} {f : Bool → Bool → Bool}
    (hop : ∀ a b j, j < w → (op a b).getLsbD j = f (a.getLsbD j) (b.getLsbD j))
    (hf : f false false = false) (hw : 0 < w) (hint : bitsetUsed w n < 2 ^ 31)
    {dest src : Bitset w} (hd : Sized n dest) (hs : Sized n src) :
    ∃ u, combineWords op dest src = some u ∧ Sized n u
      ∧ ∀ p, holdsBit u p = f (holdsBit dest p) (holdsBit src p) := by
  have hcount : loopCount w dest.nbits = bitsetUsed w n := by rw [hd.nbits, loopCount_eq hint]
  have hbit : ∀ p, holdsBit { dest with
      bits := whileDown (fun i bits => bits.modify i (op · (wordAt src i)))
        (loopCount w dest.nbits) dest.bits } p = f (holdsBit dest p) (holdsBit src p) := by
    intro p
    simp only [holdsBit]
    rw [List.getD_eq_getElem?_getD, getElem?_whileDown, hcount]
    by_cases hp : p / w < bitsetUsed w n
    · have hpd : p / w < dest.bits.length := by rw [hd.length]; exact hp
      rw [if_pos hp, List.getElem?_eq_getElem hpd, Option.map_some, Option.getD_some,
        hop _ _ _ (Nat.mod_lt p hw), List.getD_eq_getElem?_getD, List.getElem?_eq_getElem hpd,
        Option.getD_some]
      rfl
    · rw [if_neg hp, List.getElem?_eq_none (by rw [hd.length]; omega),
        List.getD_eq_getElem?_getD, List.getElem?_eq_none (by rw [hd.length]; omega),
        List.getD_eq_getElem?_getD, List.getElem?_eq_none (by rw [hs.length]; omega)]
      simp [hf]
  refine ⟨_, if_pos (by rw [hd.nbits, hs.nbits]), ⟨hd.nbits, ?_, fun p hp => ?_⟩, hbit⟩
  · exact (length_whileDown _ _ _).trans hd.length
  · rw [hbit, hd.padding p hp, hs.padding p hp, hf]

/-- On sized bitsets `bitset_union` is its loop. -/
theorem bitsetUnion_eq (hint : bitsetUsed w n < 2 ^ 31) {dest src : Bitset w}
    (hd : Sized n dest) (hs : Sized n src) :
    bitsetUnion dest src = combineWords (· ||| ·) dest src := by
  have hlen : (List.zipWith (· ||| ·) dest.bits src.bits).length = dest.bits.length := by
    rw [List.length_zipWith, hd.length, hs.length, Nat.min_self]
  rw [bitsetUnion, combineWords]
  rw [hd.nbits, hs.nbits, if_pos rfl, if_pos rfl, loopCount_eq hint]
  congr 2
  refine List.ext_getElem? fun j => ?_
  rw [getElem?_whileDown]
  by_cases hj : j < bitsetUsed w n
  · have hjd : j < dest.bits.length := by rw [hd.length]; exact hj
    have hjs : j < src.bits.length := by rw [hs.length]; exact hj
    simp [hj, hjd, hjs, wordAt]
  · rw [if_neg hj, List.getElem?_eq_none (by rw [hlen, hd.length]; omega),
      List.getElem?_eq_none (by rw [hd.length]; omega)]

/-- `bitset_is_empty` is its loop. -/
theorem bitsetIsEmpty_eq (hint : bitsetUsed w n < 2 ^ 31) {set : Bitset w} (h : Sized n set) :
    bitsetIsEmpty set
      = (downWhile (fun i => wordAt set i == 0#w) (loopCount w set.nbits) == -1) := by
  rw [Bool.eq_iff_iff, beq_iff_eq, downWhile_iff, h.nbits, loopCount_eq hint]
  rw [bitsetIsEmpty]
  rw [h.nbits, List.take_of_length_le (by rw [h.length]), List.all_eq_true, ← h.length]
  constructor
  · intro hall i hi
    rw [wordAt, List.getD_eq_getElem?_getD, List.getElem?_eq_getElem hi, Option.getD_some]
    exact hall _ (List.getElem_mem hi)
  · intro hall x hx
    obtain ⟨i, hi, rfl⟩ := List.getElem_of_mem hx
    have hword := hall i hi
    rw [wordAt, List.getD_eq_getElem?_getD, List.getElem?_eq_getElem hi, Option.getD_some] at hword
    exact hword

/-- Clearing a bit of an allocated word changes that position only. -/
theorem holdsBit_clear (hw : 0 < w) {bits : List (BitVec w)} (m m' : Nat) {pos : Nat}
    (hlen : pos / w < bits.length) (p : Nat) :
    holdsBit ⟨bits.modify (pos / w) (· &&& ~~~(bitsetMask w pos)), m⟩ p
      = (holdsBit ⟨bits, m'⟩ p && !decide (p = pos)) := by
  simp only [holdsBit]
  simp only [List.getD_eq_getElem?_getD, List.getElem?_modify]
  by_cases hword : pos / w = p / w
  · have hp : p / w < bits.length := by omega
    have hmod := Nat.mod_lt p hw
    rw [List.getElem?_eq_getElem hp]
    simp only [if_pos hword, Option.map_eq_map, Option.map_some, Option.getD_some]
    rw [BitVec.getLsbD_and, BitVec.getLsbD_not, decide_eq_true hmod, Bool.true_and,
      getLsbD_mask_position hw hword]
  · have hne : p ≠ pos := fun h => hword (by rw [h])
    simp [hword, hne]

/-- The bitset holds the set: the right size, clean padding, the same members. -/
structure Holds (n : Nat) (set : Bitset w) (a : Finset Nat) : Prop where
  sized : Sized n set
  mem : ∀ p, p ∈ a ↔ holdsBit set p = true

theorem Holds.lt {set : Bitset w} {a : Finset Nat} (h : Holds n set a) {p : Nat} (hp : p ∈ a) :
    p < n := h.sized.marks_lt ((h.sized.mem_marks p).mpr ((h.mem p).mp hp))

theorem Holds.of_marks {set : Bitset w} {a : Finset Nat} (hs : Sized n set)
    (hm : ∀ p, p ∈ a ↔ p ∈ marks set) : Holds n set a :=
  ⟨hs, fun p => (hm p).trans (hs.mem_marks p)⟩

theorem Holds.mem_marks {set : Bitset w} {a : Finset Nat} (h : Holds n set a) (p : Nat) :
    p ∈ marks set ↔ p ∈ a := (h.sized.mem_marks p).trans (h.mem p).symm

theorem holds_init : Holds n (bitsetInit w n) ∅ :=
  .of_marks (sized_init n) fun p => by simp

section Operations

variable (hw : 0 < w) (hint : bitsetUsed w n < 2 ^ 31) {dest src : Bitset w} {a b : Finset Nat}

include hw in
theorem index_lt (h : Holds n dest a) {pos : Nat} (hpos : pos < n) :
    pos / w < dest.bits.length := by
  rw [h.sized.length, bitsetUsed, Nat.lt_iff_add_one_le, Nat.le_div_iff_mul_le hw, Nat.add_mul]
  have hle := Nat.div_mul_le_self pos w
  omega

theorem testBit_of_holds (h : Holds n dest a) {pos : Nat} (hpos : pos < n) :
    bitsetTestBit dest pos = some (decide (pos ∈ a)) := by
  rw [bitsetTestBit]
  rw [if_pos (by rw [h.sized.nbits]; exact hpos)]
  congr 1
  rw [Bool.eq_iff_iff, decide_eq_true_iff]
  exact (h.mem pos).symm

include hw

theorem setBit_holds (h : Holds n dest a) {pos : Nat} (hpos : pos < n) :
    ∃ u, bitsetSetBit dest pos = some u ∧ Holds n u (insert pos a) := by
  obtain ⟨u, hu, hsu, hmu⟩ := setBit_sized hw h.sized hpos
  refine ⟨u, hu, .of_marks hsu fun p => ?_⟩
  rw [hmu, Set.mem_insert_iff, h.mem_marks, Finset.mem_insert]

theorem clearBit_holds (h : Holds n dest a) {pos : Nat} (hpos : pos < n) :
    ∃ u, bitsetClearBit dest pos = some u ∧ Holds n u (a.erase pos) := by
  obtain ⟨bits, nbits⟩ := dest
  have hbit := holdsBit_clear hw nbits nbits (index_lt hw h hpos)
  refine ⟨_, if_pos (by rw [show nbits = n from h.sized.nbits]; exact hpos),
    ⟨⟨h.sized.nbits, ?_, fun p hp => ?_⟩, fun p => ?_⟩⟩
  · exact (List.length_modify ..).trans h.sized.length
  · rw [hbit, h.sized.padding p hp, Bool.false_and]
  · rw [hbit, Finset.mem_erase, h.mem]
    simp [and_comm]

theorem toggleBit_holds (h : Holds n dest a) {pos : Nat} (hpos : pos < n) :
    ∃ u, bitsetToggleBit dest pos = some u ∧ Holds n u (symmDiff a {pos}) := by
  rw [bitsetToggleBit]
  rw [testBit_of_holds h hpos]
  by_cases hmem : pos ∈ a
  · obtain ⟨u, hu, hhu⟩ := clearBit_holds hw h hpos
    refine ⟨u, by simpa [hmem] using hu, hhu.sized, fun p => ?_⟩
    rw [← hhu.mem, Finset.mem_symmDiff, Finset.mem_erase, Finset.mem_singleton]
    constructor
    · rintro (⟨hp, hne⟩ | ⟨rfl, hnot⟩)
      · exact ⟨hne, hp⟩
      · exact absurd hmem hnot
    · rintro ⟨hne, hp⟩
      exact Or.inl ⟨hp, hne⟩
  · obtain ⟨u, hu, hhu⟩ := setBit_holds hw h hpos
    refine ⟨u, by simpa [hmem] using hu, hhu.sized, fun p => ?_⟩
    rw [← hhu.mem, Finset.mem_symmDiff, Finset.mem_insert, Finset.mem_singleton]
    constructor
    · rintro (⟨hp, -⟩ | ⟨rfl, -⟩)
      · exact Or.inr hp
      · exact Or.inl rfl
    · rintro (rfl | hp)
      · exact Or.inr ⟨rfl, hmem⟩
      · exact Or.inl ⟨hp, fun heq => hmem (heq ▸ hp)⟩

include hint

/-- The four word-wise operations, by what they do to one bit. -/
theorem combineWords_holds {op : BitVec w → BitVec w → BitVec w} {f : Bool → Bool → Bool}
    (hop : ∀ x y j, j < w → (op x y).getLsbD j = f (x.getLsbD j) (y.getLsbD j))
    (hf : f false false = false) {c : Finset Nat}
    (hc : ∀ p, p ∈ c ↔ f (decide (p ∈ a)) (decide (p ∈ b)) = true)
    (hd : Holds n dest a) (hs : Holds n src b) :
    ∃ u, combineWords op dest src = some u ∧ Holds n u c := by
  obtain ⟨u, hu, hsu, hbit⟩ := combineWords_sized hop hf hw hint hd.sized hs.sized
  refine ⟨u, hu, hsu, fun p => ?_⟩
  have hda : holdsBit dest p = decide (p ∈ a) := by
    rw [Bool.eq_iff_iff, decide_eq_true_iff]
    exact (hd.mem p).symm
  have hsb : holdsBit src p = decide (p ∈ b) := by
    rw [Bool.eq_iff_iff, decide_eq_true_iff]
    exact (hs.mem p).symm
  rw [hc, hbit, hda, hsb]

theorem union_holds (hd : Holds n dest a) (hs : Holds n src b) :
    ∃ u, bitsetUnion dest src = some u ∧ Holds n u (a ∪ b) := by
  rw [bitsetUnion_eq hint hd.sized hs.sized]
  refine combineWords_holds hw hint (f := (· || ·)) (fun x y j _ => ?_) rfl (fun p => ?_) hd hs
  · exact BitVec.getLsbD_or
  · simp

theorem intersection_holds (hd : Holds n dest a) (hs : Holds n src b) :
    ∃ u, bitsetIntersection dest src = some u ∧ Holds n u (a ∩ b) := by
  refine combineWords_holds hw hint (f := (· && ·)) (fun x y j _ => ?_) rfl (fun p => ?_) hd hs
  · exact BitVec.getLsbD_and
  · simp

theorem difference_holds (hd : Holds n dest a) (hs : Holds n src b) :
    ∃ u, bitsetDifference dest src = some u ∧ Holds n u (a \ b) := by
  refine combineWords_holds hw hint (f := fun x y => x && !y) (fun x y j hj => ?_) rfl
    (fun p => ?_) hd hs
  · rw [BitVec.getLsbD_and, BitVec.getLsbD_not, decide_eq_true hj, Bool.true_and]
  · simp

theorem xor_holds (hd : Holds n dest a) (hs : Holds n src b) :
    ∃ u, bitsetXor dest src = some u ∧ Holds n u (symmDiff a b) := by
  refine combineWords_holds hw hint (f := Bool.xor) (fun x y j _ => ?_) rfl (fun p => ?_) hd hs
  · exact BitVec.getLsbD_xor
  · rw [Finset.mem_symmDiff]
    by_cases hpa : p ∈ a <;> by_cases hpb : p ∈ b <;> simp [hpa, hpb]

end Operations

/-- An operation on named bitsets. -/
inductive Op where
  | init (id : Nat)
  | copy (id src : Nat)
  | reset (id : Nat)
  | setBit (id pos : Nat)
  | clearBit (id pos : Nat)
  | toggleBit (id pos : Nat)
  | setBits (dest src : Nat)
  | union (dest src : Nat)
  | unionN (dest : Nat) (srcs : List Nat)
  | intersection (dest src : Nat)
  | difference (dest src : Nat)
  | xor (dest src : Nat)

/-- A type with the operations of the interface, on sets of one size. -/
structure SetType (α : Type) where
  init : α
  copy : α → Option α
  reset : α → Option α
  setBit : Nat → α → Option α
  clearBit : Nat → α → Option α
  toggleBit : Nat → α → Option α
  setBits : α → α → Option α
  union : α → α → Option α
  intersection : α → α → Option α
  difference : α → α → Option α
  xor : α → α → Option α

/-- The sets by name. -/
abbrev Store (α : Type) := Nat → Option α

section Step

variable {α : Type}

/-- Give a name to the result of an operation on a named set. -/
def updateWith (id src : Nat) (f : α → Option α) (s : Store α) : Option (Store α) := do
  let a ← s src
  let a' ← f a
  some (Function.update s id (some a'))

/-- Change `dest` by an operation that reads `src`. -/
def updateFrom (dest src : Nat) (f : α → α → Option α) (s : Store α) : Option (Store α) := do
  let b ← s src
  updateWith dest dest (f · b) s

/-- Execute one operation. -/
def step (D : SetType α) : Op → Store α → Option (Store α)
  | .init id, s => some (Function.update s id (some D.init))
  | .copy id src, s => updateWith id src D.copy s
  | .reset id, s => updateWith id id D.reset s
  | .setBit id pos, s => updateWith id id (D.setBit pos) s
  | .clearBit id pos, s => updateWith id id (D.clearBit pos) s
  | .toggleBit id pos, s => updateWith id id (D.toggleBit pos) s
  | .setBits dest src, s => updateFrom dest src D.setBits s
  | .union dest src, s => updateFrom dest src D.union s
  | .unionN dest srcs, s => srcs.foldlM (fun s src => updateFrom dest src D.union s) s
  | .intersection dest src, s => updateFrom dest src D.intersection s
  | .difference dest src, s => updateFrom dest src D.difference s
  | .xor dest src, s => updateFrom dest src D.xor s

end Step

/-- Bitsets of `n` positions. -/
def bitsets (w n : Nat) : SetType (Bitset w) where
  init := bitsetInit w n
  copy set := some (bitsetCopy set)
  reset set := some (bitsetReset set)
  setBit pos set := bitsetSetBit set pos
  clearBit pos set := bitsetClearBit set pos
  toggleBit pos set := bitsetToggleBit set pos
  setBits := bitsetSetBits
  union := bitsetUnion
  intersection := bitsetIntersection
  difference := bitsetDifference
  xor := bitsetXor

/-- Finite sets of positions below `n`. -/
def finsets (n : Nat) : SetType (Finset Nat) where
  init := ∅
  copy a := some a
  reset _ := some ∅
  setBit pos a := if pos < n then some (insert pos a) else none
  clearBit pos a := if pos < n then some (a.erase pos) else none
  toggleBit pos a := if pos < n then some (symmDiff a {pos}) else none
  setBits _ b := some b
  union a b := some (a ∪ b)
  intersection a b := some (a ∩ b)
  difference a b := some (a \ b)
  xor a b := some (symmDiff a b)

/-- Name by name, the bitsets hold the sets. -/
def HoldsAll (n : Nat) (s : Store (Bitset w)) (t : Store (Finset Nat)) : Prop :=
  ∀ id, Related (Holds n) (s id) (t id)

theorem HoldsAll.update {s : Store (Bitset w)} {t : Store (Finset Nat)} (h : HoldsAll n s t)
    (id : Nat) {set : Bitset w} {a : Finset Nat} (ha : Holds n set a) :
    HoldsAll n (Function.update s id (some set)) (Function.update t id (some a)) := by
  intro id'
  by_cases hid : id' = id
  · subst hid
    rw [Function.update_self, Function.update_self]
    exact ha
  · rw [Function.update_of_ne hid, Function.update_of_ne hid]
    exact h id'

theorem related_updateWith {s : Store (Bitset w)} {t : Store (Finset Nat)} (h : HoldsAll n s t)
    (id src : Nat) {f : Bitset w → Option (Bitset w)} {g : Finset Nat → Option (Finset Nat)}
    (hfg : ∀ set a, Holds n set a → Related (Holds n) (f set) (g a)) :
    Related (HoldsAll n) (updateWith id src f s) (updateWith id src g t) :=
  (h src).bind fun set a ha => (hfg set a ha).bind fun _ _ ha' => h.update id ha'

theorem related_updateFrom {s : Store (Bitset w)} {t : Store (Finset Nat)} (h : HoldsAll n s t)
    (dest src : Nat) {f : Bitset w → Bitset w → Option (Bitset w)}
    {g : Finset Nat → Finset Nat → Option (Finset Nat)}
    (hfg : ∀ set a set' b, Holds n set a → Holds n set' b → Related (Holds n) (f set set') (g a b)) :
    Related (HoldsAll n) (updateFrom dest src f s) (updateFrom dest src g t) :=
  (h src).bind fun set' b hb =>
    related_updateWith h dest dest fun set a ha => hfg set a set' b ha hb

/-- An operation that is the set operation is related to it. -/
theorem related_of_holds {o : Option (Bitset w)} {c : Finset Nat}
    (h : ∃ u, o = some u ∧ Holds n u c) : Related (Holds n) o (some c) := by
  obtain ⟨u, rfl, hu⟩ := h
  exact hu

/-- An operation on a position asserts that it is below the size. -/
theorem related_of_pos {o : Option (Bitset w)} {c : Finset Nat} {pos : Nat}
    (h : pos < n → ∃ u, o = some u ∧ Holds n u c) (hn : ¬ pos < n → o = none) :
    Related (Holds n) o (if pos < n then some c else none) := by
  by_cases hpos : pos < n
  · rw [if_pos hpos]
    exact related_of_holds (h hpos)
  · rw [if_neg hpos, hn hpos]
    trivial

section Refinement

variable (hw : 0 < w) (hint : bitsetUsed w n < 2 ^ 31)

include hw hint

/-- **One operation** keeps the bitsets and the sets related. -/
theorem step_related (op : Op) {s : Store (Bitset w)} {t : Store (Finset Nat)}
    (h : HoldsAll n s t) :
    Related (HoldsAll n) (step (bitsets w n) op s) (step (finsets n) op t) := by
  have hunion : ∀ set a set' b, Holds n set a → Holds n set' b →
      Related (Holds n) ((bitsets w n).union set set') ((finsets n).union a b) :=
    fun _ _ _ _ ha hb => related_of_holds (union_holds hw hint ha hb)
  have hstop : ∀ {set : Bitset w} {a : Finset Nat} {pos : Nat}, Holds n set a → ¬ pos < n →
      ¬ pos < set.nbits := fun ha hpos => by rwa [ha.sized.nbits]
  cases op with
  | init id => exact h.update id holds_init
  | copy id src =>
      refine related_updateWith h id src fun set a ha => ?_
      change Holds n (bitsetCopy set) a
      rw [copy_eq_self ha.sized]
      exact ha
  | reset id =>
      refine related_updateWith h id id fun set a ha => ?_
      change Holds n (bitsetReset set) ∅
      rw [reset_eq_init ha.sized]
      exact holds_init
  | setBit id pos =>
      exact related_updateWith h id id fun set a ha =>
        related_of_pos (setBit_holds hw ha) fun hpos => if_neg (hstop ha hpos)
  | clearBit id pos =>
      exact related_updateWith h id id fun set a ha =>
        related_of_pos (clearBit_holds hw ha) fun hpos => if_neg (hstop ha hpos)
  | toggleBit id pos =>
      refine related_updateWith h id id fun set a ha =>
        related_of_pos (toggleBit_holds hw ha) fun hpos => ?_
      change bitsetToggleBit set pos = none
      rw [bitsetToggleBit, bitsetTestBit, if_neg (hstop ha hpos)]
      rfl
  | setBits dest src =>
      refine related_updateFrom h dest src fun set a set' b ha hb => related_of_holds ?_
      exact ⟨set', setBits_eq_src ha.sized hb.sized, hb⟩
  | union dest src => exact related_updateFrom h dest src hunion
  | unionN dest srcs =>
      exact runs_related (fun src _ _ h => related_updateFrom h dest src hunion) srcs h
  | intersection dest src =>
      exact related_updateFrom h dest src fun _ _ _ _ ha hb =>
        related_of_holds (intersection_holds hw hint ha hb)
  | difference dest src =>
      exact related_updateFrom h dest src fun _ _ _ _ ha hb =>
        related_of_holds (difference_holds hw hint ha hb)
  | xor dest src =>
      exact related_updateFrom h dest src fun _ _ _ _ ha hb =>
        related_of_holds (xor_holds hw hint ha hb)

end Refinement

end DytanBitsetOperations
