import Dytan.SyscallStateProofs
import Mathlib.Data.Nat.ModEq

/-! # How long the generator of taint marks rotates

    `TaintGenerator::nextTaintMark` adds one to a signed counter that is never
    reduced and returns its remainder by the number of marks.  While the counter
    is small the marks rotate through `0 .. max - 1`, which is what the README
    promises.  The call after the counter reaches `INT_MAX` wraps it to
    `INT_MIN`, and C's remainder takes the sign of the dividend.

    Here an `int` is 32-bit two's complement; the observers' own generator
    stops where this one wraps, and agrees with it up to there. -/

namespace DytanTaintGenerator

/-- `TaintGenerator`: its two `int` fields. -/
structure TaintGenerator where
  current : BitVec 32
  max : BitVec 32
deriving DecidableEq, Repr

/-- The constructor `TaintGenerator(int start, int max)`. -/
def TaintGenerator.make (start max : Nat) : TaintGenerator where
  current := BitVec.ofNat 32 start
  max := BitVec.ofNat 32 max

/-- `TaintGenerator::nextTaintMark`: `%` truncates towards zero. -/
def nextTaintMark (gen : TaintGenerator) : BitVec 32 × TaintGenerator :=
  let current := gen.current + 1
  (current.srem gen.max, { gen with current := current })

/-- The marks the next `n` calls return, as integers, in call order. -/
def marks : Nat → TaintGenerator → List Int
  | 0, _ => []
  | n + 1, gen => (nextTaintMark gen).1.toInt :: marks n (nextTaintMark gen).2

/-- What a sequence of marks owes its readers: every mark is a bit position
    of a set of `max` marks, and no mark comes twice among `max` consecutive
    ones. -/
structure Rotates (max : Nat) (ms : List Int) : Prop where
  legal : ∀ m ∈ ms, 0 ≤ m ∧ m < (max : Int)
  distinct : ∀ i, ((ms.drop i).take max).Nodup

/-- The mark of the call that finds `v - 1` counted. -/
def markOf (max v : Nat) : Int :=
  ((BitVec.ofNat 32 v).srem (BitVec.ofNat 32 max)).toInt

@[simp] theorem nextTaintMark_make (start max : Nat) :
    nextTaintMark (.make start max)
      = ((BitVec.ofNat 32 (start + 1)).srem (BitVec.ofNat 32 max), .make (start + 1) max) := by
  have hcount : BitVec.ofNat 32 start + 1 = BitVec.ofNat 32 (start + 1) :=
    (BitVec.ofNat_add start 1).symm
  rw [nextTaintMark, TaintGenerator.make, TaintGenerator.make]
  simp only [hcount]

/-- Call `k` (from zero) of a fresh generator returns the mark of
    `start + 1 + k`. -/
theorem marks_make (n start max : Nat) :
    marks n (.make start max) = (List.range' (start + 1) n).map (markOf max) := by
  induction n generalizing start with
  | zero => rfl
  | succ n ih =>
      rw [marks, nextTaintMark_make, ih, List.range'_succ, List.map_cons, markOf]

/-- `markOf` is the truncated remainder of the wrapped counter. -/
theorem markOf_eq {max : Nat} (hmax : max < 2 ^ 31) (v : Nat) :
    markOf max v = Int.tmod ((v : Int).bmod (2 ^ 32)) (max : Int) := by
  have hm : ((max : Nat) : Int).bmod (2 ^ 32) = (max : Int) :=
    Int.bmod_eq_of_le (by omega) (by omega)
  rw [markOf, BitVec.toInt_srem, BitVec.toInt_ofNat', BitVec.toInt_ofNat', hm]

/-- Below `INT_MAX` nothing wraps. -/
theorem markOf_of_lt {max v : Nat} (hmax : max < 2 ^ 31) (hv : v < 2 ^ 31) :
    markOf max v = ((v % max : Nat) : Int) := by
  have hw : (v : Int).bmod (2 ^ 32) = (v : Int) := Int.bmod_eq_of_le (by omega) (by omega)
  rw [markOf_eq hmax, hw, Int.tmod_eq_emod_of_nonneg (Int.natCast_nonneg v), Int.natCast_emod]

/-- From `INT_MIN` on the remainder is that of a negative number. -/
theorem markOf_of_wrapped {max v : Nat} (hmax : max < 2 ^ 31) (h1 : 2 ^ 31 ≤ v) (h2 : v < 2 ^ 32) :
    markOf max v = -(((2 ^ 32 - v) % max : Nat) : Int) := by
  have hw : (v : Int).bmod (2 ^ 32) = -((2 ^ 32 - v : Nat) : Int) := by
    rw [Int.bmod_def]
    omega
  rw [markOf_eq hmax, hw, Int.neg_tmod, Int.tmod_eq_emod_of_nonneg (Int.natCast_nonneg _),
    Int.natCast_emod]

/-- `max` consecutive numbers have distinct remainders. -/
theorem nodup_range'_mod {max k : Nat} (hk : k ≤ max) (a : Nat) :
    ((List.range' a k).map (fun v => ((v % max : Nat) : Int))).Nodup := by
  refine List.Nodup.map_on ?_ (List.nodup_range')
  intro x hx y hy hxy
  rw [List.mem_range'_1] at hx hy
  have hmod : x % max = y % max := Int.natCast_inj.mp hxy
  rcases Nat.le_total x y with hle | hle
  · have hdvd : max ∣ y - x := (Nat.modEq_iff_dvd' hle).mp hmod
    have := Nat.eq_zero_of_dvd_of_lt hdvd (by omega)
    omega
  · have hdvd : max ∣ x - y := (Nat.modEq_iff_dvd' hle).mp hmod.symm
    have := Nat.eq_zero_of_dvd_of_lt hdvd (by omega)
    omega

/-- Remainders of consecutive numbers rotate. -/
theorem rotates_range'_mod {max : Nat} (hmax : 0 < max) (a n : Nat) :
    Rotates max ((List.range' a n).map (fun v => ((v % max : Nat) : Int))) where
  legal := by
    intro m hm
    obtain ⟨v, -, rfl⟩ := List.mem_map.mp hm
    exact ⟨Int.natCast_nonneg _, Int.ofNat_lt.mpr (Nat.mod_lt v hmax)⟩
  distinct := by
    intro i
    rw [← List.map_drop, ← List.map_take, List.drop_range']
    rcases Nat.le_total (n - i) max with hle | hle
    · rw [List.take_range'_of_length_le hle]
      exact nodup_range'_mod hle _
    · rw [List.take_range'_of_length_ge hle]
      exact nodup_range'_mod (Nat.le_refl _) _

/-- The runs in which no mark is that of a wrapped counter with a remainder
    of its own. -/
def Unwrapped (max n : Nat) : Prop :=
  max = 1 ∨ n ≤ 2 ^ 31 - 2 ∨ (n = 2 ^ 31 - 1 ∧ max ∣ 2 ^ 31)

/-- In such a run every mark is the plain remainder of the count. -/
theorem markOf_of_unwrapped {max n v : Nat} (hmax : max < 2 ^ 31) (h : Unwrapped max n)
    (hv : v < 2 + n) : markOf max v = ((v % max : Nat) : Int) := by
  rcases h with rfl | hn | ⟨hn, hdvd⟩
  · rw [markOf_eq hmax, Nat.mod_one]
    exact Int.tmod_one _
  · exact markOf_of_lt hmax (by omega)
  · rcases Nat.lt_or_ge v (2 ^ 31) with hlt | hge
    · exact markOf_of_lt hmax hlt
    · -- the one wrapped call finds `INT_MIN`, which `max` divides
      obtain rfl : v = 2 ^ 31 := by omega
      rw [markOf_of_wrapped hmax (Nat.le_refl _) (by omega), Nat.mod_eq_zero_of_dvd hdvd]
      exact Int.neg_eq_zero.mpr (Int.natCast_eq_zero.mpr (Nat.mod_eq_zero_of_dvd hdvd))

/-! ## The first illegal mark -/

/-- Some call of a longer run finds a wrapped counter whose remainder is not
    zero. -/
theorem exists_negative_mark {max n : Nat} (hmax : max < 2 ^ 31)
    (h : ¬ Unwrapped max n) : ∃ m ∈ marks n (.make 1 max), m < 0 := by
  rw [Unwrapped, not_or, not_or, not_and] at h
  obtain ⟨hone, hlong, hdvd⟩ := h
  by_cases hd : max ∣ 2 ^ 31
  · -- then `n` is larger still, and the call after next leaves `-(2 ^ 31 - 1)`
    refine ⟨markOf max (2 ^ 31 + 1), ?_, ?_⟩
    · rw [marks_make]
      refine List.mem_map_of_mem (List.mem_range'_1.mpr ?_)
      have : n ≠ 2 ^ 31 - 1 := fun hn => hdvd hn hd
      omega
    · rw [markOf_of_wrapped hmax (by omega) (by omega)]
      have hne : (2 ^ 32 - (2 ^ 31 + 1)) % max ≠ 0 := by
        intro h0
        have hone' : max ∣ 2 ^ 31 - (2 ^ 32 - (2 ^ 31 + 1)) :=
          Nat.dvd_sub hd (Nat.dvd_of_mod_eq_zero h0)
        exact hone (Nat.dvd_one.mp (by simpa using hone'))
      omega
  · refine ⟨markOf max (2 ^ 31), ?_, ?_⟩
    · rw [marks_make]
      refine List.mem_map_of_mem (List.mem_range'_1.mpr ?_)
      omega
    · rw [markOf_of_wrapped hmax (Nat.le_refl _) (by omega)]
      have hne : (2 ^ 32 - 2 ^ 31) % max ≠ 0 := by
        intro h0
        exact hd (by simpa using Nat.dvd_of_mod_eq_zero h0)
      omega

/-- **The rotation, exactly**: a run of `n` calls on `TaintGenerator(1, max)`
    returns legal marks, any `max` consecutive ones distinct, exactly when it
    ends before the counter wraps, or wraps it once onto a multiple of `max`,
    or there is one mark only. -/
theorem marks_rotate_iff (max n : Nat) (h1 : 1 ≤ max) (h2 : max ≤ 4096) :
    Rotates max (marks n (.make 1 max))
      ↔ max = 1 ∨ n ≤ 2 ^ 31 - 2 ∨ (n = 2 ^ 31 - 1 ∧ max ∣ 2 ^ 31) := by
  have hmax : max < 2 ^ 31 := by omega
  constructor
  · intro hrot
    by_contra hn
    obtain ⟨m, hm, hneg⟩ := exists_negative_mark hmax hn
    have := (hrot.legal m hm).1
    omega
  · intro hn
    have hplain : marks n (.make 1 max)
        = (List.range' 2 n).map (fun v => ((v % max : Nat) : Int)) := by
      rw [marks_make]
      refine List.map_congr_left fun v hv => ?_
      exact markOf_of_unwrapped hmax hn (List.mem_range'_1.mp hv).2
    rw [hplain]
    exact rotates_range'_mod h1 2 n

/-- The exact statement on a short run of three marks. -/
theorem marks_rotate_iff_three :
    Rotates 3 (marks 7 (.make 1 3))
      ↔ (3 = 1 ∨ 7 ≤ 2 ^ 31 - 2 ∨ (7 = 2 ^ 31 - 1 ∧ 3 ∣ 2 ^ 31)) :=
  marks_rotate_iff 3 7 (by decide) (by decide)

/-- With three marks the call number `2 ^ 31 - 1` returns `-2`. -/
theorem marks_not_rotating :
    (-2 : Int) ∈ marks (2 ^ 31 - 1) (.make 1 3)
      ∧ ¬ ∀ max n : Nat, 1 ≤ max → max ≤ 4096 → Rotates max (marks n (.make 1 max)) := by
  have hmem : (-2 : Int) ∈ marks (2 ^ 31 - 1) (.make 1 3) := by
    rw [marks_make]
    refine List.mem_map.mpr ⟨2 ^ 31, List.mem_range'_1.mpr (by omega), ?_⟩
    rw [markOf_of_wrapped (by omega) (Nat.le_refl _) (by omega)]
    rfl
  refine ⟨hmem, fun h => ?_⟩
  have := ((h 3 (2 ^ 31 - 1) (by omega) (by omega)).legal (-2) hmem).1
  omega

/-- Before the wrap both generators return the same mark and count alike. -/
theorem nextTaintMark_agrees {N current max tag : Nat} {pos : 0 < max} {le : max ≤ N}
    {gen' : DytanSyscallState.TaintGenerator N} (hmax : max < 2 ^ 31)
    (h : DytanSyscallState.nextTaintMark (.counting current max pos le) = some (tag, gen')) :
    (nextTaintMark (.make current max)).1.toInt = (tag : Int)
      ∧ gen' = .counting (current + 1) max pos le
      ∧ (nextTaintMark (.make current max)).2 = .make (current + 1) max := by
  rw [DytanSyscallState.nextTaintMark] at h
  by_cases hlt : current + 1 < 2 ^ 31
  · rw [if_pos hlt] at h
    cases h
    rw [nextTaintMark_make]
    exact ⟨markOf_of_lt hmax hlt, rfl, rfl⟩
  · rw [if_neg hlt] at h
    cases h

end DytanTaintGenerator
