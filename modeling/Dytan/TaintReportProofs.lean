import Dytan.ReadBackProofs

/-! # The taint report — what `dump_taints` writes, read back

    At the end the tool writes two listings: for every tag the nodes of its
    list, and for every tainted byte its marks.  Numbers are printed in the base
    the stream was last switched to, and between the fields of a node stands the
    character at the address, whatever it is.

    The report can still be read: there is a reader that gives back every tag
    and every byte with what is listed there (`readReport_text`), so that two
    runs with different taint never leave the same text. -/

namespace DytanTaintReport

open Decimal ReadBack

/-- The bytes of an ASCII text. -/
def ascii (s : String) : List Byte := s.toList.map Char.toUInt8

/-- A node as it is printed, with the character at its address. -/
structure Listed where
  address : Nat
  isCleared : Nat
  content : Byte
deriving DecidableEq, Repr

/-- `static_cast<int>(c)` of a signed `char`. -/
def intText (c : Byte) : List Byte :=
  if c < 128 then spell 10 c.toNat else ascii "-" ++ spell 10 (256 - c.toNat)

def Listed.text (x : Listed) : List Byte :=
  spell 16 x.address ++ (ascii "-" ++ (spell 10 x.isCleared ++ (ascii "-"
    ++ ([x.content] ++ (ascii "-" ++ intText x.content ++ ascii "\n\t")))))

/-- What the report lists: tags with their nodes, and bytes with their marks. -/
structure Report where
  tags : List (Nat × List Listed)
  bytes : List (Nat × List Nat)
deriving DecidableEq, Repr

def separator : List Byte := ascii ", "

/-- The line of a tag. -/
def tagLine (entry : Nat × List Listed) : List Byte :=
  ascii "\t" ++ (spell 10 entry.1 ++ (ascii ": ["
    ++ (separated separator (entry.2.map Listed.text) ++ ascii "]\n")))

/-- The line of a byte. -/
def byteLine (entry : Nat × List Nat) : List Byte :=
  ascii "\t" ++ (spell 16 entry.1 ++ (ascii " - ["
    ++ (separated separator (entry.2.map (spell 10)) ++ ascii "]\n")))

/-- The first two headings. -/
def heading : List Byte :=
  ascii " \ndeleted memory addresses excluded ...\n" ++ ascii "\nMapping from tags to memory addresses:\n"

/-- The heading of the second listing. -/
def secondHeading : List Byte := ascii "\n\n" ++ ascii "All tainted memory addresses:\n"

/-- The text of a report. -/
def Report.text (r : Report) : List Byte :=
  heading ++ (r.tags.flatMap tagLine ++ (secondHeading ++ r.bytes.flatMap byteLine))

/-- Lists without an entry are not printed. -/
structure Report.Printed (r : Report) : Prop where
  tags : ∀ e ∈ r.tags, e.2 ≠ []
  bytes : ∀ e ∈ r.bytes, e.2 ≠ []

def readListed : Reader Byte Listed := fun s => do
  let (address, s) ← number 16 s
  let ((), s) ← literal (ascii "-") s
  let (isCleared, s) ← number 10 s
  let ((), s) ← literal (ascii "-") s
  let (content, s) ← one s
  let ((), s) ← literal (ascii "-" ++ intText content ++ ascii "\n\t") s
  some (⟨address, isCleared, content⟩, s)

def readTag : Reader Byte (Nat × List Listed) := fun s => do
  let ((), s) ← literal (ascii "\t") s
  let (tag, s) ← number 10 s
  let ((), s) ← literal (ascii ": [") s
  let (nodes, s) ← sepBy separator readListed s.length s
  let ((), s) ← literal (ascii "]\n") s
  some ((tag, nodes), s)

def readByte : Reader Byte (Nat × List Nat) := fun s => do
  let ((), s) ← literal (ascii "\t") s
  let (address, s) ← number 16 s
  let ((), s) ← literal (ascii " - [") s
  let (marks, s) ← sepBy separator (number 10) s.length s
  let ((), s) ← literal (ascii "]\n") s
  some ((address, marks), s)

def readReport (s : List Byte) : Option Report := do
  let ((), s) ← literal heading s
  let (tags, s) ← many readTag s.length s
  let ((), s) ← literal secondHeading s
  let (bytes, s) ← many readByte s.length s
  if s = [] then some ⟨tags, bytes⟩ else none

/-! ## Round trip -/

/-- A text that begins with a character that is no digit. -/
theorem stopsAt_append {text rest : List Byte} {b : Byte} (h : text.head? = some b)
    (hb : isHexDigit b = false) : StopsAt isHexDigit (text ++ rest) := by
  intro c hc
  rw [List.head?_append, h] at hc
  cases hc
  exact hb

theorem spell_ne_nil (base n : Nat) : spell base n ≠ [] := by
  rw [spell, Numerals.numeral]
  by_cases hn : n = 0
  · rw [if_pos hn]
    exact List.cons_ne_nil _ _
  · rw [if_neg hn]
    simpa using Nat.digits_ne_nil_iff_ne_zero.mpr hn

/-- A number in front of a text that begins with no digit. -/
theorem number_text {base : Nat} (hb : 1 < base) (hbase : base ≤ 16) (n : Nat)
    {text rest : List Byte} {b : Byte} (h : text.head? = some b) (hdigit : isHexDigit b = false) :
    number base (spell base n ++ (text ++ rest)) = some (n, text ++ rest) :=
  number_spell hb hbase n (stopsAt_append h hdigit)

/-- **A node is read back**, whatever its character is. -/
theorem readListed_text (x : Listed) (s : List Byte) : readListed (x.text ++ s) = some (x, s) := by
  rw [Listed.text]
  simp only [List.append_assoc]
  refine (read_then (number_text (by decide) (by decide) _ (b := 45) rfl rfl) _).trans ?_
  refine (read_then (literal_append _ _) _).trans ?_
  refine (read_then (number_text (by decide) (by decide) _ (b := 45) rfl rfl) _).trans ?_
  refine (read_then (literal_append _ _) _).trans ?_
  refine (read_then (a := (x.content, ascii "-" ++ (intText x.content ++ (ascii "\n\t" ++ s)))) rfl
    _).trans ?_
  have hlast : literal (ascii "-" ++ intText x.content ++ ascii "\n\t")
      (ascii "-" ++ (intText x.content ++ (ascii "\n\t" ++ s))) = some ((), s) := by
    rw [← List.append_assoc (intText x.content), ← List.append_assoc (ascii "-"),
      ← List.append_assoc (ascii "-")]
    exact literal_append _ _
  exact (read_then hlast _).trans rfl

/-- There are no more items than characters. -/
theorem length_le_separated {α : Type} {sep : List Byte} {print : α → List Byte}
    (hprint : ∀ a, print a ≠ []) (as : List α) (rest : List Byte) :
    as.length ≤ (separated sep (as.map print) ++ rest).length := by
  have hmany : ∀ as : List α, as.length
      ≤ ((as.map print).flatMap fun text => sep ++ text).length := by
    intro as
    induction as with
    | nil => exact Nat.zero_le _
    | cons a as ih =>
        have hpos := List.length_pos_iff.mpr (hprint a)
        rw [List.map_cons, List.flatMap_cons, List.length_append, List.length_append,
          List.length_cons]
        omega
  cases as with
  | nil => exact Nat.zero_le _
  | cons a as =>
      have hpos := List.length_pos_iff.mpr (hprint a)
      have htail := hmany as
      rw [List.map_cons, separated, List.length_append, List.length_append, List.length_cons]
      omega

/-- A list of items that ends with the end of a line. -/
theorem sepBy_line {α : Type} {item : Reader Byte α} {print : α → List Byte}
    (follow : List Byte → Prop) (hitem : ∀ a s, follow s → item (print a ++ s) = some (a, s))
    (hsep : ∀ s, follow (separator ++ s)) (hline : ∀ s, follow (ascii "]\n" ++ s))
    (hprint : ∀ a, print a ≠ []) {as : List α} (h : as ≠ []) (s : List Byte) :
    sepBy separator item (separated separator (as.map print) ++ (ascii "]\n" ++ s)).length
        (separated separator (as.map print) ++ (ascii "]\n" ++ s))
      = some (as, ascii "]\n" ++ s) := by
  have hhead : (ascii "]\n" ++ s).head? ≠ some 44 := fun heq =>
    absurd (Option.some.inj heq : (93 : Byte) = 44) (by decide)
  exact sepBy_append 44 (ascii " ") hitem hsep (hline s) hhead h
    (length_le_separated hprint as _)

theorem Listed.text_ne_nil (x : Listed) : x.text ≠ [] :=
  List.append_ne_nil_of_left_ne_nil (spell_ne_nil _ _) _

theorem readTag_line {entry : Nat × List Listed} (h : entry.2 ≠ []) (s : List Byte) :
    readTag (tagLine entry ++ s) = some (entry, s) := by
  rw [tagLine]
  simp only [List.append_assoc]
  refine (read_then (literal_append _ _) _).trans ?_
  refine (read_then (number_text (by decide) (by decide) _ (b := 58) rfl rfl) _).trans ?_
  refine (read_then (literal_append _ _) _).trans ?_
  refine (read_then (sepBy_line (fun _ => True) (fun x s _ => readListed_text x s)
    (fun _ => trivial) (fun _ => trivial) Listed.text_ne_nil h s) _).trans ?_
  exact (read_then (literal_append _ _) _).trans rfl

theorem readByte_line {entry : Nat × List Nat} (h : entry.2 ≠ []) (s : List Byte) :
    readByte (byteLine entry ++ s) = some (entry, s) := by
  rw [byteLine]
  simp only [List.append_assoc]
  refine (read_then (literal_append _ _) _).trans ?_
  refine (read_then (number_text (by decide) (by decide) _ (b := 32) rfl rfl) _).trans ?_
  refine (read_then (literal_append _ _) _).trans ?_
  refine (read_then (sepBy_line (StopsAt isHexDigit)
    (fun n s hs => number_spell (by decide) (by decide) n hs)
    (fun s => stopsAt_append (b := 44) rfl rfl) (fun s => stopsAt_append (b := 93) rfl rfl)
    (spell_ne_nil 10) h s) _).trans ?_
  exact (read_then (literal_append _ _) _).trans rfl

theorem length_le_flatMap {α : Type} {print : α → List Byte} (hprint : ∀ a, print a ≠ [])
    (as : List α) (rest : List Byte) : as.length ≤ (as.flatMap print ++ rest).length := by
  induction as with
  | nil => exact Nat.zero_le _
  | cons a as ih =>
      have hpos := List.length_pos_iff.mpr (hprint a)
      rw [List.flatMap_cons, List.append_assoc, List.length_append, List.length_cons]
      omega

/-- Lines are read back up to a text that is none. -/
theorem many_lines {α : Type} {item : Reader Byte α} {print : α → List Byte} {as : List α}
    (hitem : ∀ a ∈ as, ∀ s, item (print a ++ s) = some (a, s)) (hprint : ∀ a, print a ≠ [])
    {rest : List Byte} (hrest : item rest = none) :
    many item (as.flatMap print ++ rest).length (as.flatMap print ++ rest) = some (as, rest) :=
  many_append (fun _ => True) (fun a ha s _ => hitem a ha s) (fun _ _ => trivial) trivial
    hrest (length_le_flatMap hprint as rest)

/-- The reader gives back all that a report lists. -/
theorem readReport_printed {r : Report} (h : r.Printed) : readReport r.text = some r := by
  have htags : readTag (secondHeading ++ r.bytes.flatMap byteLine) = none := by
    refine (congrArg (· >>= _) (literal_of_head_ne (b := 9) ?_ [])).trans rfl
    exact fun heq => absurd (Option.some.inj heq : (10 : Byte) = 9) (by decide)
  have hbytes : many readByte (r.bytes.flatMap byteLine).length (r.bytes.flatMap byteLine)
      = some (r.bytes, []) := by
    have hmany : many readByte (r.bytes.flatMap byteLine ++ []).length
        (r.bytes.flatMap byteLine ++ []) = some (r.bytes, []) :=
      many_lines (fun e he s => readByte_line (h.bytes e he) s) (fun _ => List.cons_ne_nil _ _) rfl
    rwa [List.append_nil] at hmany
  refine (read_then (literal_append _ _) _).trans ?_
  refine (read_then (many_lines (fun e he s => readTag_line (h.tags e he) s)
    (fun _ => List.cons_ne_nil _ _) htags) _).trans ?_
  refine (read_then (literal_append _ _) _).trans ?_
  exact (read_then hbytes _).trans rfl

/-- **Round trip**: the reader gives back all that a report lists, and no other
    report has the same text. -/
theorem readReport_text {r : Report} (h : r.Printed) :
    readReport r.text = some r ∧ ∀ r' : Report, r'.Printed → r'.text = r.text → r' = r := by
  refine ⟨readReport_printed h, fun r' h' heq => ?_⟩
  have hback := readReport_printed h'
  rw [heq, readReport_printed h] at hback
  exact (Option.some.inj hback).symm

/-- Two tags and a byte, one character being a bracket. -/
def twoTags : Report :=
  ⟨[(0, [⟨255, 0, 93⟩]), (12, [⟨255, 0, 93⟩, ⟨4096, 1, 200⟩])], [(255, [0, 12])]⟩

theorem readReport_text_twoTags : readReport twoTags.text = some twoTags
    ∧ ∀ r : Report, r.Printed → r.text = twoTags.text → r = twoTags :=
  readReport_text ⟨by decide, by decide⟩

end DytanTaintReport
