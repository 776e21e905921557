import Dytan.RulesFileProofs

/-! # Ranges written and read back

    An offset file has a line for each range: a name, a start and an end.  The
    parser counts tokens; the count modulo 3 says what a token is, and the range
    it goes to has the number of the triples read before.

    A triple moves the count and the range number together (`runs_words`), so
    the ranges of a text end up in order (`runs_ranges`).  The name is in the
    buffer though it is not stored: a zero in it ends the text. -/

namespace DytanOffsetFile

open DytanRegister DytanConfigFiles DytanRulesFile Decimal Runs Tokens

variable {ws : WordSize}

/-- A range that a line can spell. -/
structure NamedRange where
  name : Name
  start : Nat
  stop : Nat
  name_word : IsWord name
  start_lt : start < 2 ^ 31
  stop_lt : stop < 2 ^ 31

/-- The words of its line. -/
def NamedRange.words (r : NamedRange) : List Name := [r.name, decimal r.start, decimal r.stop]

theorem NamedRange.mem_words {r : NamedRange} {w : Name} (h : w ∈ r.words) :
    w = r.name ∨ IsWord w ∧ 0 ∉ w := by
  simp only [NamedRange.words, List.mem_cons, List.not_mem_nil, or_false] at h
  rcases h with h | rfl | rfl
  · exact Or.inl h
  · exact Or.inr ⟨isWord_decimal r.start, zero_notMem_decimal r.start⟩
  · exact Or.inr ⟨isWord_decimal r.stop, zero_notMem_decimal r.stop⟩

/-- The text of an offset file; its last line may be ended too. -/
def IsRangesText (ranges : List NamedRange) (text : List Byte) : Prop :=
  IsText (ranges.map NamedRange.words) text

variable {ranges : List NamedRange} {text : List Byte}

theorem pieces_rangesText (htext : IsRangesText ranges text) :
    pieces isDelim text = (ranges.map NamedRange.words).flatten := by
  refine pieces_text (fun words hwords w hw => ?_) htext
  obtain ⟨r, -, rfl⟩ := List.mem_map.mp hwords
  rcases NamedRange.mem_words hw with rfl | ⟨hword, -⟩
  · exact r.name_word
  · exact hword

theorem zero_notMem_rangesText (hnames : ∀ r ∈ ranges, 0 ∉ r.name)
    (htext : IsRangesText ranges text) : 0 ∉ text := by
  intro hmem
  obtain ⟨words, hwords, w, hw, hzero⟩ := zero_mem_text htext hmem
  obtain ⟨r, hr, rfl⟩ := List.mem_map.mp hwords
  rcases NamedRange.mem_words hw with rfl | ⟨-, hnot⟩
  · exact hnames r hr hzero
  · exact hnot hzero

theorem length_flatten_words (ranges : List NamedRange) :
    (ranges.map NamedRange.words).flatten.length = 3 * ranges.length := by
  induction ranges with
  | nil => rfl
  | cons r rest ih =>
      rw [List.map_cons, List.flatten_cons, List.length_append, ih, List.length_cons]
      show 3 + 3 * rest.length = 3 * (rest.length + 1)
      omega

/-! ## Reading it -/

/-- The parser after a number of whole ranges. -/
def afterRanges (d : Datfile) (k : Nat) : DatParser := ⟨d, k, 3 * k⟩

/-- A range stored. -/
def storeRange (d : Datfile) (k : Nat) (hk : k < 256) (r : NamedRange) : Datfile :=
  { d with start := d.start.set k r.start, stop := d.stop.set k r.stop }

/-- **A range is read.** -/
theorem runs_words (r : NamedRange) (d : Datfile) {k : Nat} (hk : k < 256) :
    runs (datToken ws) r.words (afterRanges d k)
      = some (afterRanges (storeRange d k hk r) (k + 1)) := by
  have hname : datToken ws r.name (afterRanges d k) = some ⟨d, k, 3 * k + 1⟩ :=
    if_pos (Nat.mul_mod_right 3 k)
  have hstart : datToken ws (decimal r.start) ⟨d, k, 3 * k + 1⟩
      = some ⟨{ d with start := d.start.set k r.start }, k, 3 * k + 2⟩ := by
    have hne : ¬ (3 * k + 1) % 3 = 0 := by omega
    have hone : (3 * k + 1) % 3 = 1 := by omega
    rw [datToken, if_neg hne, dif_pos hk, if_pos hone]
    rw [atoi_decimal (bits_ge ws) r.start_lt]
  have hstop : datToken ws (decimal r.stop)
      ⟨{ d with start := d.start.set k r.start }, k, 3 * k + 2⟩
      = some (afterRanges (storeRange d k hk r) (k + 1)) := by
    have hne : ¬ (3 * k + 2) % 3 = 0 := by omega
    have hone : ¬ (3 * k + 2) % 3 = 1 := by omega
    rw [datToken, if_neg hne, dif_pos hk, if_neg hone]
    rw [atoi_decimal (bits_ge ws) r.stop_lt]
    rfl
  rw [NamedRange.words, runs_cons, hname, Option.bind_some, runs_cons, hstart, Option.bind_some,
    runs_cons, hstop]
  rfl

/-- Entry `i` of `datFile` is this range. -/
def HoldsRange (d : Datfile) (i : Nat) (r : NamedRange) : Prop :=
  d.start[i]? = some (r.start : Int) ∧ d.stop[i]? = some (r.stop : Int)

theorem storeRange_self (d : Datfile) {k : Nat} (hk : k < 256) (r : NamedRange) :
    HoldsRange (storeRange d k hk r) k r :=
  ⟨Vector.getElem?_set_self hk, Vector.getElem?_set_self hk⟩

theorem storeRange_of_ne (d : Datfile) {k i : Nat} (hk : k < 256) (hik : k ≠ i) (r r' : NamedRange) :
    HoldsRange (storeRange d k hk r) i r' ↔ HoldsRange d i r' := by
  rw [HoldsRange, HoldsRange, storeRange, Vector.getElem?_set_ne hk hik,
    Vector.getElem?_set_ne hk hik]

/-- **The ranges of a text**: each goes to its place, and those before stay. -/
theorem runs_ranges (ws : WordSize) (ranges : List NamedRange) (d : Datfile) {k : Nat}
    (hk : k + ranges.length ≤ 256) :
    ∃ d', runs (datToken ws) (ranges.map NamedRange.words).flatten (afterRanges d k)
        = some (afterRanges d' (k + ranges.length))
      ∧ (∀ i < k, ∀ r, HoldsRange d' i r ↔ HoldsRange d i r)
      ∧ ∀ i r, ranges[i]? = some r → HoldsRange d' (k + i) r := by
  induction ranges generalizing d k with
  | nil => exact ⟨d, rfl, fun i _ r => Iff.rfl, fun i r hr => nomatch hr⟩
  | cons r rest ih =>
      rw [List.length_cons] at hk
      have hlt : k < 256 := by omega
      obtain ⟨d', hrun, hbefore, hrest⟩ := ih (storeRange d k hlt r) (k := k + 1) (by omega)
      refine ⟨d', ?_, fun i hi r' => ?_, fun i r' hr' => ?_⟩
      · rw [List.map_cons, List.flatten_cons, runs_append, runs_words r d hlt, Option.bind_some,
          hrun, List.length_cons, Nat.add_assoc, Nat.add_comm 1]
      · rw [hbefore i (by omega), storeRange_of_ne d hlt (by omega)]
      · cases i with
        | zero =>
            cases hr'
            exact (hbefore k (Nat.lt_succ_self k) r).mpr (storeRange_self d hlt r)
        | succ i =>
            have hget := hrest i r' hr'
            rwa [Nat.add_assoc, Nat.add_comm 1] at hget

/-- The ranges that came back. -/
structure ReadBack (ranges : List NamedRange) (d : Datfile) : Prop where
  index : d.index = (ranges.length : Int) - 1
  entries : ∀ i r, ranges[i]? = some r → HoldsRange d i r

/-- **Every list of ranges comes back**, from names without zeros, whatever
    `datFile` held before. -/
theorem parseDatFiles_readBack (hnames : ∀ r ∈ ranges, 0 ∉ r.name)
    (htext : IsRangesText ranges text) (hlen : text.length < 256) (d : Datfile) :
    ∃ d', parseDatFiles ws (some text) d = some d' ∧ ReadBack ranges d' := by
  have hfew : 0 + ranges.length ≤ 256 := by
    have hcount := (pieces_spec isDelim text).1
    rw [pieces_rangesText htext, length_flatten_words] at hcount
    omega
  obtain ⟨d', hrun, -, hentries⟩ := runs_ranges ws ranges d hfew
  refine ⟨{ d' with index := (ranges.length : Int) - 1 }, ?_, rfl, fun i r hr => ?_⟩
  · rw [parseDatFiles, parseDatBuffer, readBuffer_of_lt hlen,
      whileToken_terminated isDelim_zero (zero_notMem_rangesText hnames htext),
      pieces_rangesText htext, show DatParser.mk d 0 0 = afterRanges d 0 from rfl, hrun,
      Option.map_some, Nat.zero_add]
    rfl
  · have hget := hentries i r hr
    rw [Nat.zero_add] at hget
    exact hget

/-- `test,21719,21751`. -/
def sampleRange : NamedRange where
  name := [116, 101, 115, 116]
  start := 21719
  stop := 21751
  name_word := isWord_of_all (List.cons_ne_nil _ _) rfl
  start_lt := by decide
  stop_lt := by decide

/-- `gzip,0,9`. -/
def otherRange : NamedRange where
  name := [103, 122, 105, 112]
  start := 0
  stop := 9
  name_word := isWord_of_all (List.cons_ne_nil _ _) rfl
  start_lt := by decide
  stop_lt := by decide

/-- The lines of the two. -/
def twoLines : List Byte := line sampleRange.words ++ 10 :: (line otherRange.words ++ [10])

theorem twoLines_text : IsRangesText [sampleRange, otherRange] twoLines := by
  right
  decide

theorem parseDatFiles_readBack_sample : ∃ d',
    parseDatFiles .w64 (some twoLines) .initial = some d'
      ∧ ReadBack [sampleRange, otherRange] d' :=
  parseDatFiles_readBack (by decide) twoLines_text (by decide) .initial

/-- A name that is one zero byte. -/
def zeroRange : NamedRange where
  name := [0]
  start := 3
  stop := 5
  name_word := isWord_of_all (List.cons_ne_nil _ _) rfl
  start_lt := by decide
  stop_lt := by decide

/-- Its line has no token: `datFile.index` is -1. -/
theorem zeroName_not_readBack : IsRangesText [zeroRange] (line zeroRange.words)
    ∧ (line zeroRange.words).length < 256
    ∧ ¬ ∃ d', parseDatFiles .w64 (some (line zeroRange.words)) .initial = some d'
        ∧ ReadBack [zeroRange] d' := by
  refine ⟨Or.inl rfl, by decide, ?_⟩
  rintro ⟨d', hparse, hback⟩
  have hline : line zeroRange.words = [] ++ 0 :: [44, 51, 44, 53] := by decide
  rw [parseDatFiles, parseDatBuffer, readBuffer_of_lt (by decide), hline, List.append_assoc,
    List.cons_append, whileToken_terminated isDelim_zero List.not_mem_nil] at hparse
  cases hparse
  exact absurd hback.index (by decide)

end DytanOffsetFile
