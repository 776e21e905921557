import Mathlib.Algebra.Group.Int.Defs
import Mathlib.Algebra.Group.Nat.Defs
import Mathlib.Tactic.Common

/-! # Decimal numbers in C strings

    `atoi` is `strtol` in base ten, cut to an `int`: white space, a sign and
    digits, up to the first character that is no digit; a value that a `long`
    cannot hold is the nearest one it can.  `decimal n` spells `n`, and `atoi`
    reads it back where an `int` holds it. -/

namespace Decimal

/-- A byte of a string. -/
abbrev Byte := UInt8

/-- `isspace`: the blank, and the bytes from tab to carriage return. -/
def isSpace (b : Byte) : Bool := b = 32 || (9 ≤ b && b ≤ 13)

/-- `isdigit`. -/
def isDigit (b : Byte) : Bool := 48 ≤ b && b ≤ 57

/-- The number digits spell. -/
def digitsValue (digits : List Byte) : Nat :=
  digits.foldl (fun value b => 10 * value + (b.toNat - 48)) 0

/-- The sign, if there is one: whether it is a minus, and what follows it. -/
def sign : List Byte → Bool × List Byte
  | 45 :: s => (true, s)
  | 43 :: s => (false, s)
  | s => (false, s)

/-- `strtol` in base ten, for a `long` of `bits` bits. -/
def strtol (bits : Nat) (s : List Byte) : Int :=
  let (negative, s) := sign (s.dropWhile isSpace)
  let value : Int := digitsValue (s.takeWhile isDigit)
  max (-2 ^ (bits - 1)) (min (2 ^ (bits - 1) - 1) (if negative then -value else value))

/-- `atoi`. -/
def atoi (bits : Nat) (s : List Byte) : Int := (strtol bits s).bmod (2 ^ 32)

/-- The digits of a number. -/
def decimal (n : Nat) : List Byte := (Nat.toDigits 10 n).map Char.toUInt8

theorem decimal_ne_nil (n : Nat) : decimal n ≠ [] := fun h =>
  Nat.toDigits_ne_nil (List.map_eq_nil_iff.mp h)

theorem toNat_toUInt8 {c : Char} (hc : c.isDigit = true) : c.toUInt8.toNat = c.toNat := by
  have hle : c.toNat ≤ 57 := (Char.isDigit_iff_toNat.mp hc).2
  show c.toNat % 2 ^ 8 = c.toNat
  omega

theorem isDigit_of_mem_decimal {n : Nat} {b : Byte} (hb : b ∈ decimal n) : isDigit b = true := by
  obtain ⟨c, hc, rfl⟩ := List.mem_map.mp hb
  have hdigit := Nat.isDigit_of_mem_toDigits (by decide) (by decide) hc
  obtain ⟨hlo, hhi⟩ := Char.isDigit_iff_toNat.mp hdigit
  rw [isDigit, Bool.and_eq_true, decide_eq_true_eq, decide_eq_true_eq, UInt8.le_iff_toNat_le,
    UInt8.le_iff_toNat_le, toNat_toUInt8 hdigit]
  exact ⟨hlo, hhi⟩

theorem digitsValue_decimal (n : Nat) : digitsValue (decimal n) = n := by
  have hfold : ∀ (cs : List Char) (init : Nat), (∀ c ∈ cs, c.isDigit = true) →
      (cs.map Char.toUInt8).foldl (fun value b => 10 * value + (b.toNat - 48)) init
        = Nat.ofDigitChars 10 cs init := by
    intro cs
    induction cs with
    | nil =>
        intro init _
        rw [Nat.ofDigitChars_nil]
        rfl
    | cons c cs ih =>
        intro init hcs
        obtain ⟨hc, hcs⟩ := List.forall_mem_cons.mp hcs
        rw [List.map_cons, List.foldl_cons, ih _ hcs, Nat.ofDigitChars_cons, toNat_toUInt8 hc]
        rfl
  rw [digitsValue, decimal,
    hfold _ 0 fun c hc => Nat.isDigit_of_mem_toDigits (by decide) (by decide) hc]
  exact Nat.ofDigitChars_toDigits (by decide) (by decide)

/-- A digit is neither white space nor a sign. -/
theorem sign_of_digit {b : Byte} (hb : isDigit b = true) (rest : List Byte) :
    sign ((b :: rest).dropWhile isSpace) = (false, b :: rest) := by
  rw [isDigit, Bool.and_eq_true, decide_eq_true_eq, decide_eq_true_eq] at hb
  have hspace : isSpace b = false := by
    rw [isSpace, Bool.or_eq_false_iff, Bool.and_eq_false_iff, decide_eq_false_iff_not,
      decide_eq_false_iff_not, decide_eq_false_iff_not]
    refine ⟨?_, Or.inr fun hle => absurd (UInt8.le_trans hb.1 hle) (by decide)⟩
    rintro rfl
    exact absurd hb.1 (by decide)
  rw [List.dropWhile_cons_of_neg (by rw [hspace]; exact Bool.false_ne_true), sign]
  · rintro s ⟨⟩
    exact absurd hb.1 (by decide)
  · rintro s ⟨⟩
    exact absurd hb.1 (by decide)

/-- **Spelled and read back.** -/
theorem atoi_decimal {bits n : Nat} (hbits : 32 ≤ bits) (hn : n < 2 ^ 31) :
    atoi bits (decimal n) = n := by
  obtain ⟨b, rest, hdecimal⟩ := List.exists_cons_of_ne_nil (decimal_ne_nil n)
  have hdigit : ∀ x ∈ decimal n, isDigit x = true := fun x => isDigit_of_mem_decimal
  have htake : (decimal n).takeWhile isDigit = decimal n := by
    rw [← List.append_nil (decimal n), List.takeWhile_append_of_pos hdigit]
    rfl
  have hsign : sign ((decimal n).dropWhile isSpace) = (false, decimal n) := by
    rw [hdecimal]
    exact sign_of_digit (hdigit b (hdecimal ▸ List.mem_cons_self)) rest
  have hpow : (2 : Int) ^ 31 ≤ 2 ^ (bits - 1) := by
    exact_mod_cast Nat.pow_le_pow_right (by decide) (Nat.le_sub_one_of_lt hbits)
  have hvalue : strtol bits (decimal n) = n := by
    rw [strtol, hsign]
    show max (-2 ^ (bits - 1)) (min (2 ^ (bits - 1) - 1)
      (digitsValue ((decimal n).takeWhile isDigit) : Int)) = n
    rw [htake, digitsValue_decimal]
    omega
  rw [atoi, hvalue]
  exact Int.bmod_eq_of_le (by omega) (by omega)

/-- `-1`. -/
theorem atoi_minusOne {bits : Nat} (hbits : 32 ≤ bits) : atoi bits [45, 49] = -1 := by
  have hpow : (2 : Int) ^ 31 ≤ 2 ^ (bits - 1) := by
    exact_mod_cast Nat.pow_le_pow_right (by decide) (Nat.le_sub_one_of_lt hbits)
  have hvalue : strtol bits [45, 49] = -1 := by
    show max (-2 ^ (bits - 1)) (min (2 ^ (bits - 1) - 1) (-1)) = (-1 : Int)
    omega
  rw [atoi, hvalue]
  decide

end Decimal
