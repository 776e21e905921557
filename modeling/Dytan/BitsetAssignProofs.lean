import Dytan.BitsetOperationsProofs

/-! # Assignment and inclusion of bitsets

    `bitset_set_bits` asserts only that the destination is not the smaller
    one.  It copies the used words of the source, so the last of them is
    replaced whole and the words beyond keep what they had.

    `bitset_is_subset(a, b)` compares `a | b` with `a`, word by word from the
    last: that is inclusion of `b` in `a`. -/

namespace DytanBitsetAssign

open DytanBitset DytanBitsetOperations

variable {w m n : Nat}

/-! ## Assignment -/

/-- The words of the source are read from it, the others from the
    destination. -/
theorem holdsBit_setBits {dest src : Bitset w} (hd : Sized m dest) (hs : Sized n src)
    (hle : n ≤ m) :
    ∃ u, bitsetSetBits dest src = some u ∧ u.nbits = m
      ∧ ∀ p, holdsBit u p
        = if p / w < bitsetUsed w n then holdsBit src p else holdsBit dest p := by
  refine ⟨_, if_pos (by rw [hs.nbits, hd.nbits]; exact hle), hd.nbits, fun p => ?_⟩
  have hlen : (src.bits.take (bitsetUsed w src.nbits)).length = bitsetUsed w n := by
    rw [List.length_take, hs.nbits, hs.length, Nat.min_self]
  simp only [holdsBit]
  rw [List.getD_eq_getElem?_getD]
  by_cases hp : p / w < bitsetUsed w n
  · rw [if_pos hp, List.getElem?_append_left (by rw [hlen]; exact hp), List.getElem?_take, hs.nbits,
      if_pos hp, List.getD_eq_getElem?_getD]
  · rw [if_neg hp, List.getElem?_append_right (by rw [hlen]; omega), hlen, List.getElem?_drop,
      hs.nbits, Nat.add_sub_cancel' (Nat.not_lt.mp hp), List.getD_eq_getElem?_getD]

/-- After `bitset_set_bits(dest, src)` a position of `dest` is set exactly when
    it is a position of `src` and was set there. -/
def Assigns (dest src : Bitset w) : Prop :=
  ∃ u, bitsetSetBits dest src = some u
    ∧ ∀ p < dest.nbits, (bitsetTestBit u p = some true
      ↔ p < src.nbits ∧ bitsetTestBit src p = some true)

/-- A test that is inside the bitset reads the bit. -/
theorem testBit_eq_some_true {set : Bitset w} {p : Nat} (hp : p < set.nbits) :
    bitsetTestBit set p = some true ↔ holdsBit set p = true := by
  rw [bitsetTestBit]
  rw [if_pos hp, Option.some_inj]

/-- The positions of the words in use. -/
theorem div_lt_used_iff (hw : 0 < w) (p : Nat) :
    p / w < bitsetUsed w n ↔ p < bitsetUsed w n * w := Nat.div_lt_iff_lt_mul hw

/-- Every position below the size is in a word in use. -/
theorem le_used_mul (hw : 0 < w) (n : Nat) : n ≤ bitsetUsed w n * w := by
  have hmod := Nat.mod_lt (n + (w - 1)) hw
  have hdiv := Nat.div_add_mod (n + (w - 1)) w
  rw [bitsetUsed]
  rw [Nat.mul_comm]
  omega

/-- **`bitset_set_bits` is assignment** exactly when `dest` has no bit beyond
    the words that are copied. -/
theorem setBits_assigns_iff (hw : 0 < w) {dest src : Bitset w} (hd : Sized m dest)
    (hs : Sized n src) (hle : n ≤ m) :
    Assigns dest src ↔ ∀ p, bitsetUsed w n * w ≤ p → holdsBit dest p = false := by
  obtain ⟨u, hu, hnbits, hbit⟩ := holdsBit_setBits hd hs hle
  constructor
  · rintro ⟨u', hu', htest⟩ p hp
    cases hu.symm.trans hu'
    by_cases hpm : p < m
    · -- the bit of `dest` would have survived at a position that `src` does not have
      have hsurvives := htest p (by rw [hd.nbits]; exact hpm)
      rw [testBit_eq_some_true (by rw [hnbits]; exact hpm), hbit,
        if_neg (by rw [div_lt_used_iff hw]; omega)] at hsurvives
      rw [Bool.eq_false_iff]
      intro hset
      have hsrc := (hsurvives.mp hset).1
      have hbound := le_used_mul hw n
      rw [hs.nbits] at hsrc
      omega
    · exact hd.padding p (Nat.not_lt.mp hpm)
  · intro hclear
    refine ⟨u, hu, fun p hp => ?_⟩
    rw [testBit_eq_some_true (by rw [hnbits, ← hd.nbits]; exact hp), hbit]
    by_cases hword : p / w < bitsetUsed w n
    · rw [if_pos hword]
      constructor
      · intro hset
        have hlt : p < src.nbits := ((hs.mem_marks p).mpr hset).1
        exact ⟨hlt, (testBit_eq_some_true hlt).mpr hset⟩
      · rintro ⟨hlt, hset⟩
        exact (testBit_eq_some_true hlt).mp hset
    · rw [if_neg hword]
      rw [div_lt_used_iff hw, Nat.not_lt] at hword
      refine iff_of_false (by rw [hclear p hword]; exact Bool.false_ne_true) fun hset => ?_
      have hbound := le_used_mul hw n
      have hlt := hset.1
      rw [hs.nbits] at hlt
      omega

/-- 65 positions with the last of them set. -/
def lastSet : Bitset 64 := ⟨[0#64, 1#64], 65⟩

theorem sized_lastSet : Sized 65 lastSet where
  nbits := rfl
  length := rfl
  padding := by
    intro p hp
    obtain ⟨k, rfl⟩ := Nat.exists_eq_add_of_le hp
    rw [holdsBit]
    by_cases hword : (65 + k) / 64 = 1
    · rw [hword]
      show (1#64).getLsbD ((65 + k) % 64) = false
      rw [BitVec.getLsbD_one, decide_eq_false (p := (65 + k) % 64 = 0) (by omega), Bool.and_false]
    · rw [List.getD_eq_getElem?_getD, List.getElem?_eq_none (by
        show 2 ≤ (65 + k) / 64
        omega)]
      exact BitVec.getLsbD_zero

theorem setBits_assigns_iff_lastSet : Assigns lastSet (bitsetInit 64 64)
    ↔ ∀ p, bitsetUsed 64 64 * 64 ≤ p → holdsBit lastSet p = false :=
  setBits_assigns_iff (by decide) sized_lastSet (sized_init 64) (by decide)

/-- Assigning an empty set of 64 positions leaves bit 64 of a set of 65. -/
theorem setBits_keeps_bit :
    Sized 65 lastSet ∧ Sized 64 (bitsetInit 64 64) ∧ ¬ Assigns lastSet (bitsetInit 64 64) := by
  refine ⟨sized_lastSet, sized_init 64, ?_⟩
  rintro ⟨u, hu, htest⟩
  have hu' : bitsetSetBits lastSet (bitsetInit 64 64) = some lastSet := by decide
  cases hu'.symm.trans hu
  exact absurd ((htest 64 (by decide)).mp (by decide)).1 (by decide)

/-! ## Inclusion -/

/-- The number of words as the `int` the loop counts down. -/
def wordCount (w nbits : Nat) : Int := (BitVec.ofNat 32 (bitsetUsed w nbits)).toInt

/-- `bitset_is_subset`, which asserts equal sizes.  A negative count reads in
    front of the arrays. -/
def bitsetIsSubset (a b : Bitset w) : Option Bool :=
  if a.nbits = b.nbits ∧ 0 ≤ wordCount w a.nbits then
    some (downWhile (fun i => wordAt a i ||| wordAt b i == wordAt a i) (loopCount w a.nbits) == -1)
  else none

/-- The positions of the words that the loop compares. -/
def compared (w n : Nat) : Set Nat := {p | p / w < loopCount w n}

/-- With a word count that fits an `int` these are all positions. -/
theorem marks_inter_compared (hw : 0 < w) (hint : bitsetUsed w n < 2 ^ 31) {b : Bitset w}
    (hb : Sized n b) : marks b ∩ compared w n = marks b := by
  ext p
  refine ⟨fun hp => hp.1, fun hp => ⟨hp, ?_⟩⟩
  show p / w < loopCount w n
  rw [loopCount_eq hint, div_lt_used_iff hw]
  exact Nat.lt_of_lt_of_le (hb.marks_lt hp) (le_used_mul hw n)

/-- The word of `a` absorbs the word of `b` when it has all its bits. -/
theorem or_eq_left_iff (x y : BitVec w) :
    x ||| y = x ↔ ∀ j < w, y.getLsbD j = true → x.getLsbD j = true := by
  constructor
  · intro h j _ hy
    rw [← h, BitVec.getLsbD_or, hy, Bool.or_true]
  · intro h
    ext j hj
    have hbit := h j hj
    rw [BitVec.getElem_or, ← BitVec.getLsbD_eq_getElem, ← BitVec.getLsbD_eq_getElem]
    cases hy : y.getLsbD j with
    | false => exact Bool.or_false _
    | true => rw [hbit hy, Bool.true_or]

/-- The compared words of `a` absorb those of `b` when `a` has the bits that `b`
    has there. -/
theorem compared_subset_iff (hw : 0 < w) {a b : Bitset w} (ha : Sized n a) (hb : Sized n b) :
    (∀ i < loopCount w n, wordAt a i ||| wordAt b i = wordAt a i)
      ↔ marks b ∩ compared w n ⊆ marks a := by
  constructor
  · rintro hwords p ⟨hp, hpc⟩
    rw [hb.mem_marks] at hp
    rw [ha.mem_marks]
    exact (or_eq_left_iff _ _).mp (hwords _ hpc) _ (Nat.mod_lt p hw) hp
  · intro hsub i hi
    rw [or_eq_left_iff]
    intro j hj hset
    -- bit `j` of word `i` is position `w * i + j`
    have hdiv : (w * i + j) / w = i := by
      rw [Nat.mul_add_div hw, Nat.div_eq_of_lt hj, Nat.add_zero]
    have hmod : (w * i + j) % w = j := by rw [Nat.mul_add_mod, Nat.mod_eq_of_lt hj]
    have hpos : ∀ set : Bitset w, holdsBit set (w * i + j) = (wordAt set i).getLsbD j := by
      intro set
      rw [holdsBit]
      rw [hdiv, hmod]
      rfl
    have hmem : w * i + j ∈ marks b ∩ compared w n := by
      refine ⟨(hb.mem_marks _).mpr (by rw [hpos]; exact hset), ?_⟩
      show (w * i + j) / w < loopCount w n
      rw [hdiv]
      exact hi
    have hin := (ha.mem_marks _).mp (hsub hmem)
    rw [hpos] at hin
    exact hin

/-- **What `bitset_is_subset` decides**: that the compared part of `b` is
    included in `a`. -/
theorem isSubset_decides (hw : 0 < w) {a b : Bitset w} (ha : Sized n a) (hb : Sized n b)
    (hcount : 0 ≤ wordCount w n) :
    ∃ r, bitsetIsSubset a b = some r ∧ (r = true ↔ marks b ∩ compared w n ⊆ marks a) := by
  refine ⟨_, if_pos ⟨by rw [ha.nbits, hb.nbits], by rw [ha.nbits]; exact hcount⟩, ?_⟩
  rw [beq_iff_eq, downWhile_iff, ha.nbits, ← compared_subset_iff hw ha hb]
  simp only [beq_iff_eq]

/-- `bitset_is_subset(a, b)` returns true exactly when every bit set in `a` is
    set in `b`. -/
def DecidesInclusion (a b : Bitset w) : Prop :=
  ∃ r, bitsetIsSubset a b = some r ∧ (r = true ↔ marks a ⊆ marks b)

/-- With a word count that is not negative as an `int` the answer is the inclusion
    of the compared part of `b` in `a`, the other way round. -/
theorem decidesInclusion_of_count (hw : 0 < w) {a b : Bitset w} (ha : Sized n a)
    (hb : Sized n b) (hcount : 0 ≤ wordCount w n) : DecidesInclusion a b
      ↔ (marks a ⊆ marks b ∧ marks b ∩ compared w n ⊆ marks a)
        ∨ (¬ marks a ⊆ marks b ∧ ¬ marks b ∩ compared w n ⊆ marks a) := by
  obtain ⟨r, hr, hback⟩ := isSubset_decides hw ha hb hcount
  constructor
  · rintro ⟨r', hr', hincl⟩
    cases hr'.symm.trans hr
    by_cases hsub : marks a ⊆ marks b
    · exact Or.inl ⟨hsub, hback.mp (hincl.mpr hsub)⟩
    · exact Or.inr ⟨hsub, fun h => hsub (hincl.mp (hback.mpr h))⟩
  · intro hboth
    refine ⟨r, hr, hback.trans ?_⟩
    rcases hboth with ⟨h₁, h₂⟩ | ⟨h₁, h₂⟩
    · exact iff_of_true h₂ h₁
    · exact iff_of_false h₂ h₁

/-- **`bitset_is_subset` decides the inclusion it is named after** exactly when
    the word count is not negative as an `int` and the inclusion of `a` in `b`
    and that of the compared part of `b` in `a` hold together or fail together. -/
theorem isSubset_decidesInclusion_iff (hw : 0 < w) {a b : Bitset w} (ha : Sized n a)
    (hb : Sized n b) : DecidesInclusion a b ↔ 0 ≤ wordCount w n
      ∧ ((marks a ⊆ marks b ∧ marks b ∩ compared w n ⊆ marks a)
        ∨ (¬ marks a ⊆ marks b ∧ ¬ marks b ∩ compared w n ⊆ marks a)) := by
  constructor
  · intro hdecides
    have hcount : 0 ≤ wordCount w n := by
      obtain ⟨r, hr, -⟩ := hdecides
      by_contra hneg
      rw [bitsetIsSubset] at hr
      rw [ha.nbits, if_neg fun h => hneg h.2] at hr
      exact nomatch hr
    exact ⟨hcount, (decidesInclusion_of_count hw ha hb hcount).mp hdecides⟩
  · rintro ⟨hcount, hboth⟩
    exact (decidesInclusion_of_count hw ha hb hcount).mpr hboth

/-- With a word count that fits an `int`: exactly when the two hold the same
    bits, or neither includes the other. -/
theorem isSubset_of_fits (hw : 0 < w) (hint : bitsetUsed w n < 2 ^ 31) {a b : Bitset w}
    (ha : Sized n a) (hb : Sized n b) : DecidesInclusion a b
      ↔ marks a = marks b ∨ (¬ marks a ⊆ marks b ∧ ¬ marks b ⊆ marks a) := by
  have hcount : 0 ≤ wordCount w n := by
    rw [wordCount, BitVec.toInt_eq_toNat_of_lt (by rw [BitVec.toNat_ofNat]; omega)]
    exact Int.natCast_nonneg _
  rw [decidesInclusion_of_count hw ha hb hcount, marks_inter_compared hw hint hb,
    Set.Subset.antisymm_iff]

/-- `{0}` and `{1}`: neither includes the other, and the answer is right. -/
theorem isSubset_decidesInclusion_iff_apart :
    ∃ a b : Bitset 64, bitsetSetBit (bitsetInit 64 2) 0 = some a
      ∧ bitsetSetBit (bitsetInit 64 2) 1 = some b ∧ DecidesInclusion a b := by
  obtain ⟨a, ha, hsa, hma⟩ : ∃ u, bitsetSetBit (bitsetInit 64 2) 0 = some u ∧ Sized 2 u
      ∧ marks u = insert 0 (marks (bitsetInit 64 2)) :=
    setBit_sized (by decide) (sized_init 2) (by decide)
  obtain ⟨b, hb, hsb, hmb⟩ : ∃ u, bitsetSetBit (bitsetInit 64 2) 1 = some u ∧ Sized 2 u
      ∧ marks u = insert 1 (marks (bitsetInit 64 2)) :=
    setBit_sized (by decide) (sized_init 2) (by decide)
  rw [marks_init, insert_empty_eq] at hma hmb
  refine ⟨a, b, ha, hb, (isSubset_decidesInclusion_iff (by decide) hsa hsb).mpr
    ⟨by decide, .inr ⟨?_, ?_⟩⟩⟩
  · rw [hma, hmb]
    exact fun h => absurd (h rfl) (by decide)
  · rw [hma, hmb]
    exact fun h => absurd (h ⟨rfl, show 1 / 64 < loopCount 64 2 by decide⟩) (by decide)

/-- The empty set is not found to be included in a set of one bit. -/
theorem isSubset_wrong_way : ∃ b : Bitset 64, bitsetSetBit (bitsetInit 64 1) 0 = some b
    ∧ Sized 1 b ∧ marks b = {0} ∧ bitsetIsSubset (bitsetInit 64 1) b = some false
    ∧ ¬ DecidesInclusion (bitsetInit 64 1) b := by
  obtain ⟨b, hb, hsized, hmarks⟩ : ∃ u, bitsetSetBit (bitsetInit 64 1) 0 = some u ∧ Sized 1 u
      ∧ marks u = insert 0 (marks (bitsetInit 64 1)) :=
    setBit_sized (by decide) (sized_init 1) (by decide)
  have hb' : bitsetSetBit (bitsetInit 64 1) 0 = some ⟨[1#64], 1⟩ := by decide
  cases hb'.symm.trans hb
  have hfalse : bitsetIsSubset (bitsetInit 64 1) ⟨[1#64], 1⟩ = some false := by decide
  refine ⟨_, hb, hsized, by rw [hmarks, marks_init, insert_empty_eq], hfalse, ?_⟩
  rintro ⟨r, hr, hincl⟩
  cases hfalse.symm.trans hr
  rw [marks_init] at hincl
  exact Bool.false_ne_true (hincl.mpr (Set.empty_subset _))

end DytanBitsetAssign
