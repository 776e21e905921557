import Mathlib.Data.Set.Lattice
import Mathlib.Data.Finset.Card

/-! # Bitsets — the word arrays that hold taint marks

    A taint set is a `bitset`: an array of machine words and the number of
    positions it was made for.  Words are `w` bits wide (`BITSET_BITS`, the
    width of `size_t` on the build).

    * the operations are the source's, word by word; an `assert` that can
      fail makes the operation partial, and `none` is the failed assertion;
    * `marks` reads a bitset back as the set of positions it holds;
    * `Sized n` is what `bitset_init(n)` establishes and every operation
      keeps: `n` positions, the matching number of words, zero padding.

    On sized bitsets no assertion fails and each operation is the set
    operation it is named after. -/

namespace DytanBitset

/-- A `bitset`: the words `bits` and the number of positions `nbits`. -/
structure Bitset (w : Nat) where
  bits : List (BitVec w)
  nbits : Nat
deriving DecidableEq, Repr

variable {w n : Nat}

/-- `BITSET_USED`: the number of words for `nbits` positions. -/
def bitsetUsed (w nbits : Nat) : Nat := (nbits + (w - 1)) / w

/-- `BITSET_MASK`: the word with only the bit of `pos` set. -/
def bitsetMask (w pos : Nat) : BitVec w := 1#w <<< (pos % w)

/-- `bitset_init`: `calloc` zeroes the words. -/
def bitsetInit (w nbits : Nat) : Bitset w :=
  ⟨List.replicate (bitsetUsed w nbits) 0#w, nbits⟩

/-- `bitset_copy`: a fresh set, then `memcpy` of the used words. -/
def bitsetCopy (set : Bitset w) : Bitset w :=
  { bitsetInit w set.nbits with
    bits := set.bits.take (bitsetUsed w set.nbits)
      ++ (bitsetInit w set.nbits).bits.drop (bitsetUsed w set.nbits) }

/-- `bitset_reset`: `memset` zeroes the used words. -/
def bitsetReset (set : Bitset w) : Bitset w :=
  { set with
    bits := List.replicate (bitsetUsed w set.nbits) 0#w
      ++ set.bits.drop (bitsetUsed w set.nbits) }

/-- `bitset_set_bit`, which asserts `pos < nbits`. -/
def bitsetSetBit (set : Bitset w) (pos : Nat) : Option (Bitset w) :=
  if pos < set.nbits then
    some { set with bits := set.bits.modify (pos / w) (· ||| bitsetMask w pos) }
  else none

/-- `bitset_set_bits`, which asserts `dest->nbits >= src->nbits` and copies
    the used words of `src` over those of `dest`. -/
def bitsetSetBits (dest src : Bitset w) : Option (Bitset w) :=
  if src.nbits ≤ dest.nbits then
    some { dest with
      bits := src.bits.take (bitsetUsed w src.nbits)
        ++ dest.bits.drop (bitsetUsed w src.nbits) }
  else none

/-- The bit at `pos`, as `bitset_test_bit` reads it. -/
def holdsBit (set : Bitset w) (pos : Nat) : Bool :=
  (set.bits.getD (pos / w) 0#w).getLsbD (pos % w)

/-- `bitset_test_bit`, which asserts `pos < nbits`. -/
def bitsetTestBit (set : Bitset w) (pos : Nat) : Option Bool :=
  if pos < set.nbits then some (holdsBit set pos) else none

/-- `bitset_union`, which asserts equal sizes and joins word by word. -/
def bitsetUnion (dest src : Bitset w) : Option (Bitset w) :=
  if dest.nbits = src.nbits then
    some { dest with bits := List.zipWith (· ||| ·) dest.bits src.bits }
  else none

/-- `bitset_is_empty`: every used word is zero. -/
def bitsetIsEmpty (set : Bitset w) : Bool :=
  (set.bits.take (bitsetUsed w set.nbits)).all (· == 0#w)

/-- The positions a bitset holds. -/
def marks (set : Bitset w) : Set Nat :=
  {p | p < set.nbits ∧ holdsBit set p = true}

/-- A bitset made for `n` positions: the size its assertions compare, as many
    words as it was allocated, and nothing in the padding of the last word. -/
structure Sized (n : Nat) (set : Bitset w) : Prop where
  nbits : set.nbits = n
  length : set.bits.length = bitsetUsed w n
  padding : ∀ p, n ≤ p → holdsBit set p = false

/-- A word of zeros holds nothing. -/
theorem holdsBit_replicate (k m : Nat) (p : Nat) :
    holdsBit ⟨List.replicate k 0#w, m⟩ p = false := by
  rw [holdsBit]
  rw [List.getD_eq_getElem?_getD, List.getElem?_replicate]
  by_cases hk : p / w < k
  · rw [if_pos hk]; simp
  · rw [if_neg hk]; simp

/-- Word-wise `or` of arrays of one length is bit-wise `or`. -/
theorem holdsBit_zipWith {xs ys : List (BitVec w)} (h : xs.length = ys.length)
    (m m₁ m₂ : Nat) (p : Nat) :
    holdsBit ⟨List.zipWith (· ||| ·) xs ys, m⟩ p
      = (holdsBit ⟨xs, m₁⟩ p || holdsBit ⟨ys, m₂⟩ p) := by
  simp only [holdsBit]
  simp only [List.getD_eq_getElem?_getD, List.getElem?_zipWith]
  by_cases hp : p / w < xs.length
  · have hp' : p / w < ys.length := by omega
    rw [List.getElem?_eq_getElem hp, List.getElem?_eq_getElem hp']
    simp
  · have hp' : ¬ p / w < ys.length := by omega
    rw [List.getElem?_eq_none (by omega), List.getElem?_eq_none (by omega)]
    simp

/-- The mask of a position has the bit of that position only. -/
theorem getLsbD_mask (pos : Nat) {j : Nat} (hj : j < w) :
    (bitsetMask w pos).getLsbD j = decide (j = pos % w) := by
  rw [bitsetMask]
  rw [BitVec.getLsbD_shiftLeft, BitVec.getLsbD_one]
  by_cases h : j < pos % w
  · simp [h, show j ≠ pos % w by omega]
  · have hsub : j - pos % w = 0 ↔ j = pos % w := by omega
    simp [h, hj, hsub, show 0 < w by omega]

/-- Among the positions of its word, the mask of a position has that one only. -/
theorem getLsbD_mask_position (hw : 0 < w) {pos p : Nat} (hword : pos / w = p / w) :
    (bitsetMask w pos).getLsbD (p % w) = decide (p = pos) := by
  rw [getLsbD_mask pos (Nat.mod_lt p hw)]
  refine decide_eq_decide.mpr ⟨fun h => ?_, fun h => by rw [h]⟩
  rw [← Nat.div_add_mod p w, ← Nat.div_add_mod pos w, h, hword]

/-- Setting a bit of an allocated word changes that position only. -/
theorem holdsBit_modify (hw : 0 < w) (bits : List (BitVec w)) (m m' : Nat) {pos : Nat}
    (hlen : pos / w < bits.length) (p : Nat) :
    holdsBit ⟨bits.modify (pos / w) (· ||| bitsetMask w pos), m⟩ p
      = (holdsBit ⟨bits, m'⟩ p || decide (p = pos)) := by
  simp only [holdsBit]
  simp only [List.getD_eq_getElem?_getD, List.getElem?_modify]
  by_cases hword : pos / w = p / w
  · have hp : p / w < bits.length := by omega
    rw [List.getElem?_eq_getElem hp]
    simp [hword, getLsbD_mask_position hw hword]
  · have hne : p ≠ pos := fun h => hword (by rw [h])
    simp [hword, hne]

/-- Inside a sized bitset the set bits are exactly the marks. -/
theorem Sized.mem_marks {set : Bitset w} (h : Sized n set) (p : Nat) :
    p ∈ marks set ↔ holdsBit set p = true := by
  constructor
  · intro hp
    exact hp.2
  · intro hp
    refine ⟨?_, hp⟩
    rw [h.nbits]
    by_contra hn
    rw [h.padding p (by omega)] at hp
    exact nomatch hp

/-- Marks are positions below the size. -/
theorem Sized.marks_lt {set : Bitset w} (h : Sized n set) {p : Nat}
    (hp : p ∈ marks set) : p < n := by
  have hlt := hp.1
  rw [h.nbits] at hlt
  exact hlt

/-! ## The operations on sized bitsets -/

theorem sized_init (n : Nat) : Sized n (bitsetInit w n) where
  nbits := rfl
  length := List.length_replicate
  padding := fun p _ => holdsBit_replicate _ _ p

@[simp] theorem marks_init (n : Nat) : marks (bitsetInit w n) = ∅ := by
  ext p
  rw [(sized_init n).mem_marks, bitsetInit, holdsBit_replicate]
  simp

/-- Resetting a sized bitset gives the fresh one. -/
theorem reset_eq_init {set : Bitset w} (h : Sized n set) :
    bitsetReset set = bitsetInit w n := by
  rw [bitsetReset, bitsetInit]
  rw [h.nbits, List.drop_of_length_le (by rw [h.length]), List.append_nil]

/-- Copying a sized bitset gives the bitset itself. -/
theorem copy_eq_self {set : Bitset w} (h : Sized n set) : bitsetCopy set = set := by
  obtain ⟨bits, nbits⟩ := set
  have hn : nbits = n := h.nbits
  have hl : bits.length = bitsetUsed w n := h.length
  subst hn
  rw [bitsetCopy, bitsetInit]
  simp only
  rw [List.take_of_length_le (by omega),
    List.drop_of_length_le (by rw [List.length_replicate]), List.append_nil]

/-- Assigning between bitsets of one size is copying the source. -/
theorem setBits_eq_src {dest src : Bitset w} (hd : Sized n dest) (hs : Sized n src) :
    bitsetSetBits dest src = some src := by
  obtain ⟨bits, nbits⟩ := src
  have hn : nbits = n := hs.nbits
  have hl : bits.length = bitsetUsed w n := hs.length
  subst hn
  rw [bitsetSetBits]
  rw [if_pos (by rw [hd.nbits])]
  simp only
  rw [List.take_of_length_le (by omega),
    List.drop_of_length_le (by rw [hd.length]), List.append_nil, hd.nbits]

/-- Union of sized bitsets: no assertion fails, and the marks are joined. -/
theorem union_sized {dest src : Bitset w} (hd : Sized n dest) (hs : Sized n src) :
    ∃ u, bitsetUnion dest src = some u ∧ Sized n u
      ∧ marks u = marks dest ∪ marks src := by
  have hlen : dest.bits.length = src.bits.length := by rw [hd.length, hs.length]
  have hbit : ∀ p, holdsBit { dest with
      bits := List.zipWith (· ||| ·) dest.bits src.bits } p
        = (holdsBit dest p || holdsBit src p) :=
    fun p => holdsBit_zipWith hlen _ dest.nbits src.nbits p
  have hu : Sized n { dest with bits := List.zipWith (· ||| ·) dest.bits src.bits } := by
    refine ⟨hd.nbits, ?_, ?_⟩
    · rw [List.length_zipWith, hd.length, hs.length, Nat.min_self]
    · intro p hp
      rw [hbit, hd.padding p hp, hs.padding p hp, Bool.or_false]
  refine ⟨_, if_pos (by rw [hd.nbits, hs.nbits]), hu, ?_⟩
  ext p
  rw [hu.mem_marks, hbit, Set.mem_union, hd.mem_marks, hs.mem_marks, Bool.or_eq_true]

/-- Setting a position below the size adds that mark. -/
theorem setBit_sized (hw : 0 < w) {set : Bitset w} (hs : Sized n set) {pos : Nat}
    (hpos : pos < n) :
    ∃ u, bitsetSetBit set pos = some u ∧ Sized n u ∧ marks u = insert pos (marks set) := by
  obtain ⟨bits, nbits⟩ := set
  have hlen : pos / w < bits.length := by
    rw [show bits.length = bitsetUsed w n from hs.length, bitsetUsed, Nat.lt_iff_add_one_le,
      Nat.le_div_iff_mul_le hw, Nat.add_mul]
    have := Nat.div_mul_le_self pos w
    omega
  have hbit := holdsBit_modify hw bits nbits nbits hlen
  have hu : Sized n ⟨bits.modify (pos / w) (· ||| bitsetMask w pos), nbits⟩ := by
    refine ⟨hs.nbits, ?_, ?_⟩
    · rw [List.length_modify]
      exact hs.length
    · intro p hp
      rw [hbit, hs.padding p hp, decide_eq_false (by omega), Bool.or_false]
  refine ⟨_, if_pos (by rw [show nbits = n from hs.nbits]; exact hpos), hu, ?_⟩
  ext p
  rw [hu.mem_marks, hbit, Set.mem_insert_iff, hs.mem_marks, Bool.or_eq_true,
    decide_eq_true_iff, or_comm]

/-- A word that is not zero has a bit set. -/
theorem word_ne_zero_iff (x : BitVec w) : x ≠ 0#w ↔ ∃ j < w, x.getLsbD j = true := by
  constructor
  · intro hx
    by_contra hn
    refine hx (BitVec.eq_of_getLsbD_eq fun j hj => ?_)
    rw [BitVec.getLsbD_zero]
    cases hb : x.getLsbD j with
    | false => rfl
    | true => exact absurd ⟨j, hj, hb⟩ hn
  · rintro ⟨j, -, hj⟩ rfl
    rw [BitVec.getLsbD_zero] at hj
    exact nomatch hj

/-- `bitset_is_empty` on a sized bitset is emptiness of its marks. -/
theorem isEmpty_iff {set : Bitset w} (h : Sized n set) :
    bitsetIsEmpty set = true ↔ marks set = ∅ := by
  rw [bitsetIsEmpty]
  rw [h.nbits, List.take_of_length_le (by rw [h.length]), List.all_eq_true,
    Set.eq_empty_iff_forall_notMem]
  constructor
  · intro hz p hp
    rw [h.mem_marks] at hp
    rw [holdsBit] at hp
    rw [List.getD_eq_getElem?_getD] at hp
    by_cases hlt : p / w < set.bits.length
    · rw [List.getElem?_eq_getElem hlt, Option.getD_some] at hp
      have := hz _ (List.getElem_mem hlt)
      rw [eq_of_beq this, BitVec.getLsbD_zero] at hp
      exact nomatch hp
    · rw [List.getElem?_eq_none (by omega), Option.getD_none, BitVec.getLsbD_zero] at hp
      exact nomatch hp
  · intro hz x hx
    by_contra hne
    have hne' : x ≠ 0#w := fun h0 => hne (by rw [h0]; exact beq_self_eq_true _)
    obtain ⟨j, hj, hb⟩ := (word_ne_zero_iff x).mp hne'
    obtain ⟨i, hi, rfl⟩ := List.getElem_of_mem hx
    -- the word `i` bit `j` is position `w * i + j`
    refine hz (w * i + j) ((h.mem_marks _).mpr ?_)
    rw [holdsBit]
    have hdiv : (w * i + j) / w = i := by
      rw [Nat.mul_add_div (by omega), Nat.div_eq_of_lt hj, Nat.add_zero]
    have hmod : (w * i + j) % w = j := by
      rw [Nat.mul_add_mod, Nat.mod_eq_of_lt hj]
    rw [hdiv, hmod, List.getD_eq_getElem?_getD, List.getElem?_eq_getElem hi]
    exact hb

/-- The loop `bitset_union(acc, src)` over a list of sources. -/
def unionAll (acc : Bitset w) (srcs : List (Bitset w)) : Option (Bitset w) :=
  srcs.foldlM bitsetUnion acc

/-- Joining sized bitsets never fails and collects the marks of all of them. -/
theorem unionAll_sized {acc : Bitset w} {srcs : List (Bitset w)}
    (ha : Sized n acc) (hs : ∀ b ∈ srcs, Sized n b) :
    ∃ u, unionAll acc srcs = some u ∧ Sized n u
      ∧ marks u = marks acc ∪ {m | ∃ b ∈ srcs, m ∈ marks b} := by
  induction srcs generalizing acc with
  | nil => exact ⟨acc, rfl, ha, by simp⟩
  | cons b rest ih =>
      obtain ⟨u₁, hu₁, hsz₁, hm₁⟩ := union_sized ha (hs b List.mem_cons_self)
      obtain ⟨u, hu, hsz, hm⟩ := ih hsz₁ fun c hc => hs c (List.mem_cons_of_mem _ hc)
      refine ⟨u, ?_, hsz, ?_⟩
      · rw [unionAll]
        rw [List.foldlM_cons, hu₁]
        exact hu
      · rw [hm, hm₁]
        ext m
        simp [or_assoc]

end DytanBitset
