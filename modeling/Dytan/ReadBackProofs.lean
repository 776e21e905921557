import Dytan.DecimalProofs
import Dytan.NumeralsProofs

/-! # Read back — printed texts and their readers

    A reader takes a value off the front of a text and leaves the rest.  It
    reads a printer back if in front of every text that can follow it finds
    what was printed, and leaves that text.

    A number ends where the digits end, a list where its next item does not
    begin; so a number needs something other than a digit behind it, and the
    items of a list a beginning of their own. -/

namespace ReadBack

open Decimal Numerals

variable {β α : Type}

/-- Take a value off the front of a text. -/
abbrev Reader (β α : Type) := List β → Option (α × List β)

/-- What a reader finds, the next one goes on from. -/
theorem read_then {α γ : Type} {o : Option α} {a : α} (h : o = some a) (next : α → Option γ) :
    (o >>= next) = next a := by
  rw [h]
  rfl

/-- Expect a text. -/
def literal [DecidableEq β] (text : List β) : Reader β Unit :=
  fun s => if text <+: s then some ((), s.drop text.length) else none

@[simp] theorem literal_append [DecidableEq β] (text rest : List β) :
    literal text (text ++ rest) = some ((), rest) := by
  rw [literal, if_pos (List.prefix_append text rest), List.drop_left]

/-- Another text begins with something else. -/
theorem literal_of_head_ne [DecidableEq β] {b : β} {s : List β} (h : s.head? ≠ some b)
    (text : List β) : literal (b :: text) s = none := by
  refine if_neg fun hprefix => h ?_
  obtain ⟨rest, rfl⟩ := hprefix
  rfl

/-- One character, whatever it is. -/
def one : Reader β β
  | [] => none
  | b :: s => some (b, s)

/-- The longest word of characters of a kind. -/
def longest (kind : β → Bool) : Reader β (List β) := fun s => some (s.takeWhile kind, s.dropWhile kind)

/-- A text that does not go on with a character of the kind. -/
def StopsAt (kind : β → Bool) (rest : List β) : Prop := ∀ b ∈ rest.head?, kind b = false

theorem longest_append {kind : β → Bool} {word rest : List β} (hword : ∀ b ∈ word, kind b = true)
    (hrest : StopsAt kind rest) : longest kind (word ++ rest) = some (word, rest) := by
  rw [longest, List.takeWhile_append_of_pos hword, List.dropWhile_append_of_pos hword]
  cases rest with
  | nil => rw [List.takeWhile_nil, List.dropWhile_nil, List.append_nil]
  | cons b rest =>
      have hb : ¬ kind b = true := Bool.eq_false_iff.mp (hrest b rfl)
      rw [List.takeWhile_cons_of_neg hb, List.dropWhile_cons_of_neg hb, List.append_nil]

/-- Items, as long as there are any, and at most `n`. -/
def many (item : Reader β α) : Nat → Reader β (List α)
  | 0, s => some ([], s)
  | n + 1, s =>
      match item s with
      | none => some ([], s)
      | some (a, s) => (many item n s).map fun r => (a :: r.1, r.2)

/-- **Lists are read back** if their items are, each in front of the next one and
    of the rest, which is no item. -/
theorem many_append {item : Reader β α} {print : α → List β} (follow : List β → Prop)
    {as : List α} (hitem : ∀ a ∈ as, ∀ s, follow s → item (print a ++ s) = some (a, s))
    (hnext : ∀ a s, follow (print a ++ s)) {rest : List β} (hfollow : follow rest)
    (hrest : item rest = none) {n : Nat} (hn : as.length ≤ n) :
    many item n (as.flatMap print ++ rest) = some (as, rest) := by
  induction n generalizing as with
  | zero =>
      rw [List.length_eq_zero_iff.mp (Nat.le_zero.mp hn)]
      rfl
  | succ n ih =>
      cases as with
      | nil => rw [List.flatMap_nil, List.nil_append, many, hrest]
      | cons a as =>
          have hbehind : follow (as.flatMap print ++ rest) := by
            cases as with
            | nil => exact hfollow
            | cons b as =>
                rw [List.flatMap_cons, List.append_assoc]
                exact hnext b _
          rw [List.flatMap_cons, List.append_assoc, many, hitem a List.mem_cons_self _ hbehind]
          show (many item n _).map _ = _
          rw [ih (fun b hb => hitem b (List.mem_cons_of_mem _ hb)) (Nat.le_of_succ_le_succ hn)]
          rfl

/-- The items with a separator before every one but the first, as a loop prints
    them whose separator is empty at first. -/
def separated (sep : List β) : List (List β) → List β
  | [] => []
  | first :: rest => first ++ rest.flatMap fun text => sep ++ text

/-- An item behind a separator. -/
def behind [DecidableEq β] (sep : List β) (item : Reader β α) : Reader β α := fun s => do
  let ((), s) ← literal sep s
  item s

/-- At least one item, with separators. -/
def sepBy [DecidableEq β] (sep : List β) (item : Reader β α) (n : Nat) : Reader β (List α) :=
  fun s => do
    let (first, s) ← item s
    let (rest, s) ← many (behind sep item) n s
    some (first :: rest, s)

/-- **Lists with separators are read back**: each item in front of a separator
    and in front of the rest, which does not begin like the separator. -/
theorem sepBy_append [DecidableEq β] (b : β) (sep : List β) {item : Reader β α}
    {print : α → List β} {follow : List β → Prop}
    (hitem : ∀ a s, follow s → item (print a ++ s) = some (a, s))
    (hsep : ∀ s, follow (b :: sep ++ s)) {rest : List β} (hfollow : follow rest)
    (hrest : rest.head? ≠ some b) {as : List α} (hne : as ≠ []) {n : Nat} (hn : as.length ≤ n) :
    sepBy (b :: sep) item n (separated (b :: sep) (as.map print) ++ rest) = some (as, rest) := by
  have hbehind : ∀ a s, follow s →
      behind (b :: sep) item (b :: sep ++ print a ++ s) = some (a, s) := by
    intro a s hs
    rw [behind, List.append_assoc, literal_append]
    exact hitem a s hs
  have hnext : ∀ a s, follow (b :: sep ++ print a ++ s) := by
    intro a s
    rw [List.append_assoc]
    exact hsep _
  have hnone : behind (b :: sep) item rest = none := by
    rw [behind, literal_of_head_ne hrest sep]
    rfl
  cases as with
  | nil => exact absurd rfl hne
  | cons a as =>
      have hmany : many (behind (b :: sep) item) n
          (as.flatMap (fun a => b :: sep ++ print a) ++ rest) = some (as, rest) :=
        many_append follow (fun a _ => hbehind a) hnext hfollow hnone (Nat.le_of_succ_le hn)
      have hfirst : follow (as.flatMap (fun a => b :: sep ++ print a) ++ rest) := by
        cases as with
        | nil => exact hfollow
        | cons a as =>
            rw [List.flatMap_cons, List.append_assoc]
            exact hnext a _
      rw [List.map_cons, separated, List.flatMap_map, List.append_assoc, sepBy, hitem a _ hfirst]
      show ((many _ n _).bind _) = _
      rw [hmany]
      rfl

/-- The character of a digit, in lower case. -/
def digitByte (d : Nat) : Byte := (Nat.digitChar d).toUInt8

/-- The digit of a character. -/
def digitOf (b : Byte) : Option Nat :=
  if isDigit b then some (b.toNat - 48)
  else if 97 ≤ b && b ≤ 102 then some (b.toNat - 87)
  else none

/-- A digit, of a base up to sixteen. -/
def isHexDigit (b : Byte) : Bool := (digitOf b).isSome

theorem digitOf_digitByte {d : Nat} (hd : d < 16) : digitOf (digitByte d) = some d := by
  have hall : ∀ d : Fin 16, digitOf (digitByte d) = some d.val := by decide
  exact hall ⟨d, hd⟩

/-- A number in a base. -/
def spell (base n : Nat) : List Byte := (numeral base n).map digitByte

/-- Read a number in a base. -/
def number (base : Nat) : Reader Byte Nat := fun s => do
  let (word, s) ← longest isHexDigit s
  let digits ← word.mapM digitOf
  let n ← readIn base digits
  some (n, s)

theorem digit_lt {base n d : Nat} (hb : 1 < base) (hd : d ∈ numeral base n) : d < base :=
  (readIn_eq_some_iff.mp (readIn_numeral hb n)).1 d hd

/-- **Numbers are read back** in front of anything but a digit. -/
theorem number_spell {base : Nat} (hb : 1 < base) (hbase : base ≤ 16) (n : Nat) {rest : List Byte}
    (hrest : StopsAt isHexDigit rest) : number base (spell base n ++ rest) = some (n, rest) := by
  have hdigit : ∀ d ∈ numeral base n, digitOf (digitByte d) = some d := fun d hd =>
    digitOf_digitByte (Nat.lt_of_lt_of_le (digit_lt hb hd) hbase)
  have hword : ∀ b ∈ spell base n, isHexDigit b = true := by
    intro b hmem
    obtain ⟨d, hd, rfl⟩ := List.mem_map.mp hmem
    rw [isHexDigit, hdigit d hd]
    rfl
  have hdigits : (spell base n).mapM digitOf = some (numeral base n) := by
    rw [spell, List.mapM_map]
    have hall : ∀ ds : List Nat, (∀ d ∈ ds, digitOf (digitByte d) = some d) →
        ds.mapM (digitOf ∘ digitByte) = some ds := by
      intro ds
      induction ds with
      | nil => exact fun _ => rfl
      | cons d ds ih =>
          intro h
          obtain ⟨hd, hds⟩ := List.forall_mem_cons.mp h
          rw [List.mapM_cons, Function.comp_apply, hd, ih hds]
          rfl
    exact hall _ hdigit
  rw [number, longest_append hword hrest]
  show ((spell base n).mapM digitOf).bind _ = _
  rw [hdigits]
  show (readIn base (numeral base n)).bind _ = _
  rw [readIn_numeral hb]
  rfl

end ReadBack
