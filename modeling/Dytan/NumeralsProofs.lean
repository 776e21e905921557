import Mathlib.Data.Nat.Digits.Defs
import Mathlib.Tactic.Common

/-! # Numerals — numbers printed in one base and read in another

    A numeral is a list of digits, most significant first, without a mark of
    the base it was printed in.  A reader of a base refuses a digit that is too
    large for it.  Printed and read in one base a number comes back; read in a
    smaller base than it was printed in, it comes back exactly if it is one of
    that base's digits. -/

namespace Numerals

/-- The numeral of `n` in base `b`. -/
def numeral (b n : Nat) : List Nat :=
  if n = 0 then [0] else (Nat.digits b n).reverse

/-- The number a reader of base `b` sees. -/
def readIn (b : Nat) (ds : List Nat) : Option Nat :=
  if ∀ d ∈ ds, d < b then some (Nat.ofDigits b ds.reverse) else none

variable {b c n : Nat}

theorem readIn_eq_some_iff {ds : List Nat} :
    readIn b ds = some n ↔ (∀ d ∈ ds, d < b) ∧ Nat.ofDigits b ds.reverse = n := by
  rw [readIn]
  split
  · rename_i h
    rw [Option.some_inj]
    exact ⟨fun hn => ⟨h, hn⟩, And.right⟩
  · rename_i h
    exact iff_of_false nofun fun hn => h hn.1

theorem numeral_of_lt (hn : n < b) : numeral b n = [n] := by
  rw [numeral]
  split
  · rename_i hzero
    rw [hzero]
  · rename_i hne
    rw [Nat.digits_of_lt b n hne hn]
    rfl

/-- Backwards a numeral is the list of digits. -/
theorem numeral_reverse (hn : n ≠ 0) : (numeral b n).reverse = Nat.digits b n := by
  rw [numeral, if_neg hn, List.reverse_reverse]

/-- **Round trip** in one base. -/
theorem readIn_numeral (hb : 1 < b) (n : Nat) : readIn b (numeral b n) = some n := by
  rw [readIn_eq_some_iff]
  by_cases hn : n = 0
  · subst hn
    rw [numeral_of_lt (by omega)]
    refine ⟨fun d hd => ?_, rfl⟩
    rw [List.mem_singleton.mp hd]
    omega
  · refine ⟨fun d hd => ?_, ?_⟩
    · rw [← List.mem_reverse, numeral_reverse hn] at hd
      exact Nat.digits_lt_base hb hd
    · rw [numeral_reverse hn]
      exact Nat.ofDigits_digits b n

/-- A number of two or more digits shrinks when its digits are taken to a
    smaller base. -/
theorem ofDigits_digits_lt (hb : 1 < b) (hbc : b < c) (hn : c ≤ n) :
    Nat.ofDigits b (Nat.digits c n) < n := by
  have hc : 1 < c := hb.trans hbc
  have hquot : 0 < n / c := Nat.div_pos hn (by omega)
  rw [Nat.digits_def' hc (by omega), Nat.ofDigits_cons]
  calc n % c + b * Nat.ofDigits b (Nat.digits c (n / c))
      ≤ n % c + b * Nat.ofDigits c (Nat.digits c (n / c)) :=
        Nat.add_le_add_left (Nat.mul_le_mul_left b (Nat.ofDigits_monotone _ hbc.le)) _
    _ = n % c + b * (n / c) := by rw [Nat.ofDigits_digits]
    _ < n % c + c * (n / c) :=
        Nat.add_lt_add_left (Nat.mul_lt_mul_of_pos_right hbc hquot) _
    _ = n := Nat.mod_add_div n c

/-- What a reader of a smaller base sees is never larger, and smaller from the
    first number on that is no digit of it. -/
theorem readIn_smaller {m : Nat} (hb : 1 < b) (hbc : b < c)
    (h : readIn b (numeral c n) = some m) : m ≤ n ∧ (b ≤ n → m < n) := by
  obtain ⟨hlt, rfl⟩ := readIn_eq_some_iff.mp h
  rcases Nat.lt_or_ge n c with hn | hn
  · rw [numeral_of_lt hn] at hlt ⊢
    have hdigit := hlt n List.mem_cons_self
    exact ⟨Nat.le_of_eq Nat.ofDigits_singleton, fun hle => absurd hdigit (by omega)⟩
  · rw [numeral_reverse (by omega)]
    have hless := ofDigits_digits_lt hb hbc hn
    exact ⟨hless.le, fun _ => hless⟩

/-- **Read in a smaller base** a number comes back exactly if it is a digit. -/
theorem readIn_numeral_iff (hb : 1 < b) (hbc : b < c) :
    readIn b (numeral c n) = some n ↔ n < b := by
  constructor
  · intro h
    by_contra hn
    exact absurd ((readIn_smaller hb hbc h).2 (by omega)) (Nat.lt_irrefl n)
  · intro hn
    rw [numeral_of_lt (hn.trans hbc), readIn_eq_some_iff]
    refine ⟨fun d hd => ?_, Nat.ofDigits_singleton⟩
    rw [List.mem_singleton.mp hd]
    exact hn

end Numerals
