import Dytan.AssignmentLogProofs
import Dytan.RunsProofs

/-! # Does the log tell the truth

    A reader takes the marks and the offsets of the log for decimal numbers and
    the addresses for hexadecimal ones.  A line tells the truth if every address
    it lists holds, right after the call, exactly the mark it names, and the
    byte there comes from the offset it names.

    Only `pathSourceReadCallbackPerByte` always does.  The others leave the base
    of the mark to whoever printed last, or number the offsets without the bytes
    they skip, or print one mark for all bytes.  `runs_tell_iff` has the exact
    condition, call by call, of every run. -/

namespace DytanLogTruth

open DytanBitset DytanRegister DytanTaintState DytanMarkFlow DytanAssignmentLog Numerals Runs
open DytanSyscallState hiding Globals TaintGenerator nextTaintMark
open DytanTaintSource (markOnly reset_markOnly copyByte_markOnly writeTags writeTags_range_some
  DatFile)
open DytanTaintGenerator (TaintGenerator)

variable {ws : WordSize} {σ : Type} {N : Nat}

/-- The `i`-th address listed is `a`. -/
def Lists (addresses : Addresses) (i a : Nat) : Prop :=
  match addresses with
  | .one address => i = 0 ∧ readIn 16 address = some a
  | .range first last => ∃ f l, readIn 16 first = some f ∧ readIn 16 last = some l
      ∧ a = f + i ∧ a ≤ l

/-- The `i`-th offset of the file, if there is a file.  A range of offsets ends
    before its second number. -/
def Names (source : Source) (i offset : Nat) : Prop :=
  match source with
  | .file _ o => readIn 10 o = some (offset + i)
  | .fileRange _ start stop => ∃ x y, readIn 10 start = some x ∧ readIn 10 stop = some y
      ∧ offset = x + i ∧ offset < y
  | .network _ => True
  | .call => True

/-- The line is true of the marks in `m`, and of the offsets in the file. -/
def Tells (offsetOf : Addr ws → Nat) (m : TaintMap ws) (line : Line) : Prop :=
  match line with
  | .heading _ => True
  | .assignment mk source addresses _ => ∀ (i : Nat) (a : Addr ws), Lists addresses i a.toNat →
      (∃ t, readIn 10 mk = some t ∧ entryMarks m[a]? = {t}) ∧ Names source i (offsetOf a)

/-- What is printed in a base is read as decimal. -/
theorem readIn_radix_iff (base : Base) (n : Nat) :
    readIn 10 (numeral base.radix n) = some n ↔ base = .dec ∨ n < 10 := by
  cases base with
  | dec => exact iff_of_true (readIn_numeral (by decide) n) (Or.inl rfl)
  | hex =>
      rw [show Base.hex.radix = 16 from rfl, readIn_numeral_iff (by decide) (by decide)]
      exact ⟨Or.inr, fun h => h.resolve_left nofun⟩

/-- A line that names the mark of one byte. -/
theorem namesMark_iff {mk : List Nat} {m : TaintMap ws} {a : Addr ws} {t : Nat}
    (hmarks : entryMarks m[a]? = {t}) :
    (∃ u, readIn 10 mk = some u ∧ entryMarks m[a]? = {u}) ↔ readIn 10 mk = some t := by
  constructor
  · rintro ⟨u, hread, hu⟩
    rw [hmarks] at hu
    rw [hread, Set.singleton_injective hu]
  · intro hread
    exact ⟨t, hread, hmarks⟩

theorem lists_one_iff {i : Nat} {a b : Addr ws} :
    Lists (.one (numeral 16 a.toNat)) i b.toNat ↔ i = 0 ∧ b = a := by
  show i = 0 ∧ readIn 16 (numeral 16 a.toNat) = some b.toNat ↔ _
  rw [readIn_numeral (by decide), Option.some_inj]
  refine and_congr_right fun _ => ⟨fun h => ?_, fun h => by rw [h]⟩
  exact (BitVec.eq_of_toNat_eq h).symm

theorem lists_range_iff {i : Nat} {first last b : Addr ws} :
    Lists (.range (numeral 16 first.toNat) (numeral 16 last.toNat)) i b.toNat
      ↔ b.toNat = first.toNat + i ∧ b ≤ last := by
  show (∃ f l, readIn 16 (numeral 16 first.toNat) = some f
    ∧ readIn 16 (numeral 16 last.toNat) = some l ∧ b.toNat = f + i ∧ b.toNat ≤ l) ↔ _
  rw [readIn_numeral (by decide), readIn_numeral (by decide), BitVec.le_def]
  simp

/-- The line of one byte of a file. -/
theorem tells_fileLine_iff {offsetOf : Addr ws → Nat} {m : TaintMap ws} {a : Addr ws} {t : Nat}
    (hmarks : entryMarks m[a]? = {t}) (pathname : String) (curr : Nat) (c : BitVec 8) :
    Tells offsetOf m (fileLine (t : Int) pathname curr a c) ↔ curr = offsetOf a := by
  have hnames : Names (.file pathname (numeral 10 curr)) 0 (offsetOf a) ↔ curr = offsetOf a := by
    show readIn 10 (numeral 10 curr) = some (offsetOf a) ↔ _
    rw [readIn_numeral (by decide), Option.some_inj]
  constructor
  · intro h
    exact hnames.mp (h 0 a (lists_one_iff.mpr ⟨rfl, rfl⟩)).2
  · rintro hcurr i b hlists
    obtain ⟨rfl, rfl⟩ := lists_one_iff.mp hlists
    refine ⟨(namesMark_iff hmarks).mpr ?_, hnames.mpr hcurr⟩
    exact readIn_numeral (by decide) t

/-- The line of one byte from the network. -/
theorem tells_networkLine_iff {offsetOf : Addr ws → Nat} {m : TaintMap ws} {a : Addr ws} {t : Nat}
    (hmarks : entryMarks m[a]? = {t}) (base : Base) (tag : Int) (strAddress : String) :
    Tells offsetOf m (networkLine base tag strAddress a)
      ↔ readIn 10 (numeral base.radix tag.toNat) = some t := by
  constructor
  · intro h
    exact (namesMark_iff hmarks).mp (h 0 a (lists_one_iff.mpr ⟨rfl, rfl⟩)).1
  · intro hread i b hlists
    obtain ⟨-, rfl⟩ := lists_one_iff.mp hlists
    exact ⟨(namesMark_iff hmarks).mpr hread, trivial⟩

/-! ## The line of a range -/

theorem one_toNat : (1 : Addr ws).toNat = 1 :=
  Nat.mod_eq_of_lt (Nat.one_lt_two_pow ws.bits_pos.ne')

theorem lt_iff_le_sub_one {a e : Addr ws} (he : e ≠ 0) : a < e ↔ a ≤ e - 1 := by
  have hpos : 0 < e.toNat := by
    rw [Nat.pos_iff_ne_zero]
    exact fun h => he (BitVec.eq_of_toNat_eq h)
  have hle : (1 : Addr ws) ≤ e := by
    rw [BitVec.le_def, one_toNat]
    exact hpos
  rw [BitVec.lt_def, BitVec.le_def, BitVec.toNat_sub_of_le hle, one_toNat]
  omega

section RangeLine

variable {offsetOf : Addr ws → Nat} {m : TaintMap ws} {first size : Addr ws} {t : Nat}

/-- The addresses from the first on, up to the one before the end. -/
theorem mem_addrRange_iff_le (hend : first + size ≠ 0) {a : Addr ws} :
    a ∈ addrRange first size ↔ first ≤ a ∧ a ≤ first + size - 1 := by
  rw [mem_addrRange, lt_iff_le_sub_one hend]

/-- What such a line lists is the range. -/
theorem lists_rangeLine_iff (hend : first + size ≠ 0) {i : Nat} {a : Addr ws} :
    Lists (.range (numeral 16 first.toNat) (numeral 16 (first + size - 1).toNat)) i a.toNat
      ↔ (addrRange first size)[i]? = some a := by
  rw [lists_range_iff]
  constructor
  · rintro ⟨ha, hle⟩
    have hmem : a ∈ addrRange first size := by
      rw [mem_addrRange_iff_le hend, BitVec.le_def]
      exact ⟨by omega, hle⟩
    obtain ⟨j, hj⟩ := List.getElem?_of_mem hmem
    have hij : j = i := by
      have := addrRange_getElem? hj
      omega
    rw [← hij, hj]
  · intro ha
    exact ⟨addrRange_getElem? ha, ((mem_addrRange_iff_le hend).mp (List.mem_of_getElem? ha)).2⟩

/-- The line of a range that holds the mark `t`: it is silent, or the mark can
    be read and the source names its offsets. -/
theorem tells_rangeLine_iff (offsetOf : Addr ws → Nat) (hend : first + size ≠ 0)
    (hmarks : ∀ a ∈ addrRange first size, entryMarks m[a]? = {t}) (base : Base)
    (source : Source) :
    Tells offsetOf m (rangeLine base (t : Int) source first (first + size - 1))
      ↔ addrRange first size = [] ∨ ((base = .dec ∨ t < 10)
        ∧ ∀ (i : Nat) (a : Addr ws), (addrRange first size)[i]? = some a →
          Names source i (offsetOf a)) := by
  constructor
  · intro h
    rcases hcase : addrRange first size with _ | ⟨b, rest⟩
    · exact Or.inl rfl
    · refine Or.inr ⟨?_, fun i a ha => ?_⟩
      · have hb : (addrRange first size)[0]? = some b := by rw [hcase]; rfl
        have hmark := (h 0 b ((lists_rangeLine_iff hend).mpr hb)).1
        rw [namesMark_iff (hmarks b (List.mem_of_getElem? hb))] at hmark
        exact (readIn_radix_iff base t).mp hmark
      · rw [← hcase] at ha
        exact (h i a ((lists_rangeLine_iff hend).mpr ha)).2
  · rintro (hnil | ⟨hbase, hnames⟩) i a ha
    · rw [lists_rangeLine_iff hend, hnil] at ha
      exact nomatch ha
    · rw [lists_rangeLine_iff hend] at ha
      refine ⟨?_, hnames i a ha⟩
      rw [namesMark_iff (hmarks a (List.mem_of_getElem? ha))]
      exact (readIn_radix_iff base t).mpr hbase

/-- A range that ends at the top of the address space is listed but not
    tainted. -/
theorem tells_rangeLine_top_iff (hend : first + size = 0) (base : Base) (tag : Int) :
    Tells offsetOf m (rangeLine base tag .call first (first + size - 1))
      ↔ ∀ a : Addr ws, first ≤ a →
        ∃ u, readIn 10 (numeral base.radix tag.toNat) = some u ∧ entryMarks m[a]? = {u} := by
  have htop : ∀ a : Addr ws, a ≤ first + size - 1 := by
    intro a
    have hlast : ((0 : Addr ws) - 1).toNat = 2 ^ ws.bits - 1 := by
      rw [BitVec.toNat_sub, one_toNat]
      exact Nat.mod_eq_of_lt (Nat.sub_lt (Nat.two_pow_pos _) Nat.one_pos)
    rw [hend, BitVec.le_def, hlast]
    exact Nat.le_sub_one_of_lt a.isLt
  constructor
  · intro h a ha
    rw [BitVec.le_def] at ha
    refine (h (a.toNat - first.toNat) a (lists_range_iff.mpr ⟨?_, htop a⟩)).1
    omega
  · intro h i a ha
    obtain ⟨heq, -⟩ := lists_range_iff.mp ha
    refine ⟨h a ?_, trivial⟩
    rw [BitVec.le_def]
    omega

end RangeLine

/-! ## The lines of the loops -/

/-- A line of the bytes that got a mark: the `k`-th byte's, if it has one, with
    the number of marked bytes before it. -/
theorem mem_fileLines_iff {d : Descriptor ws} {pathname : String} {as : List (Addr ws)}
    {tags : List (Option Nat)} {curr : Nat} {line : Line} :
    line ∈ fileLines d pathname as tags curr ↔ ∃ (k : Nat) (a : Addr ws) (t : Nat),
      as[k]? = some a ∧ tags[k]? = some (some t)
        ∧ line = fileLine (t : Int) pathname (curr + (tags.take k).countP Option.isSome) a
          (d.byteAt a) := by
  induction as generalizing tags curr with
  | nil => exact iff_of_false (fun h => nomatch h) fun ⟨k, a, t, ha, _⟩ => nomatch ha
  | cons b rest ih =>
      cases tags with
      | nil => exact iff_of_false (fun h => nomatch h) fun ⟨k, a, t, _, ht, _⟩ => nomatch ht
      | cons tag tags =>
          cases tag with
          | none =>
              rw [fileLines, ih]
              constructor
              · rintro ⟨k, a, t, ha, ht, rfl⟩
                exact ⟨k + 1, a, t, ha, ht, by simp⟩
              · rintro ⟨k, a, t, ha, ht, rfl⟩
                cases k with
                | zero => exact nomatch ht
                | succ k => exact ⟨k, a, t, ha, ht, by simp⟩
          | some u =>
              rw [fileLines, List.mem_cons, ih]
              constructor
              · rintro (rfl | ⟨k, a, t, ha, ht, rfl⟩)
                · exact ⟨0, b, u, rfl, rfl, by simp⟩
                · exact ⟨k + 1, a, t, ha, ht, by simp [Nat.add_assoc, Nat.add_comm 1]⟩
              · rintro ⟨k, a, t, ha, ht, rfl⟩
                cases k with
                | zero =>
                    cases ha
                    cases ht
                    exact Or.inl (by simp)
                | succ k =>
                    exact Or.inr ⟨k, a, t, ha, ht, by simp [Nat.add_assoc, Nat.add_comm 1]⟩

/-- No byte is skipped before one that is not. -/
def Contiguous (flags : List Bool) : Prop :=
  ∀ j k : Nat, j < k → flags[k]? = some true → flags[j]? = some true

/-- The bytes before the `k`-th are all counted exactly if none is skipped. -/
theorem countP_take_eq_iff {tags : List (Option Nat)} {k : Nat} (hk : k < tags.length) :
    (tags.take k).countP Option.isSome = k
      ↔ ∀ j < k, (tags.map Option.isSome)[j]? = some true := by
  have hlen : (tags.take k).length = k := List.length_take_of_le hk.le
  have hall := List.countP_eq_length (p := Option.isSome) (l := tags.take k)
  rw [hlen] at hall
  rw [hall]
  constructor
  · intro h j hj
    have hmem : tags[j] ∈ tags.take k := List.mem_take_iff_getElem.mpr ⟨j, by omega, rfl⟩
    rw [List.getElem?_map, List.getElem?_eq_getElem (by omega), Option.map_some, h _ hmem]
  · intro h x hx
    obtain ⟨j, hj, rfl⟩ := List.mem_take_iff_getElem.mp hx
    have hflag := h j (by omega)
    rw [List.getElem?_map, List.getElem?_eq_getElem (by omega), Option.map_some,
      Option.some_inj] at hflag
    exact hflag

/-- **The lines of a file** are true exactly if no byte is skipped before a
    marked one. -/
theorem tells_fileLines_iff {d : Descriptor ws} {pathname : String} {as : List (Addr ws)}
    {tags : List (Option Nat)} {curr : Nat} {offsetOf : Addr ws → Nat} {m : TaintMap ws}
    (hlen : tags.length = as.length)
    (hmarks : ∀ (k : Nat) (a : Addr ws) (t : Nat), as[k]? = some a → tags[k]? = some (some t) →
      entryMarks m[a]? = {t})
    (hoffset : ∀ (k : Nat) (a : Addr ws), as[k]? = some a → offsetOf a = curr + k) :
    (∀ line ∈ fileLines d pathname as tags curr, Tells offsetOf m line)
      ↔ Contiguous (tags.map Option.isSome) := by
  constructor
  · intro h j k hjk hk
    rw [List.getElem?_map, Option.map_eq_some_iff] at hk
    obtain ⟨tag, htag, hsome⟩ := hk
    obtain ⟨t, rfl⟩ := Option.isSome_iff_exists.mp hsome
    obtain ⟨hlt, -⟩ := List.getElem?_eq_some_iff.mp htag
    have ha : as[k]? = some as[k] := List.getElem?_eq_getElem (by omega)
    have htells := h _ (mem_fileLines_iff.mpr ⟨k, _, t, ha, htag, rfl⟩)
    rw [tells_fileLine_iff (hmarks k _ t ha htag), hoffset k _ ha, Nat.add_left_cancel_iff,
      countP_take_eq_iff hlt] at htells
    exact htells j hjk
  · intro h line hline
    obtain ⟨k, a, t, ha, htag, rfl⟩ := mem_fileLines_iff.mp hline
    obtain ⟨hlt, -⟩ := List.getElem?_eq_some_iff.mp htag
    rw [tells_fileLine_iff (hmarks k a t ha htag), hoffset k a ha, Nat.add_left_cancel_iff,
      countP_take_eq_iff hlt]
    refine fun j hj => h j k hj ?_
    rw [List.getElem?_map, htag]
    rfl

/-- The lines of a read from the network; the first line switches the base. -/
def networkLines (tag : Int) (strAddress : String) : Base → List (Addr ws) → List Line
  | _, [] => []
  | base, addr :: as =>
      networkLine base tag strAddress addr :: networkLines tag strAddress .hex as

theorem network_lines (tag : Int) (strAddress : String) (as : List (Addr ws)) (log : Log) :
    (log.network tag strAddress as).lines
      = log.lines ++ networkLines tag strAddress log.base as := by
  induction as generalizing log with
  | nil => exact (List.append_nil _).symm
  | cons a rest ih =>
      rw [networkLines, Log.network, List.foldl_cons]
      exact (ih (log.networkByte tag strAddress a)).trans (List.append_assoc ..)

theorem mem_networkLines_iff {tag : Int} {strAddress : String} {base : Base}
    {as : List (Addr ws)} {line : Line} :
    line ∈ networkLines tag strAddress base as ↔ ∃ (k : Nat) (a : Addr ws), as[k]? = some a
      ∧ line = networkLine (if k = 0 then base else .hex) tag strAddress a := by
  induction as generalizing base with
  | nil => exact iff_of_false (fun h => nomatch h) fun ⟨k, a, ha, _⟩ => nomatch ha
  | cons b rest ih =>
      rw [networkLines, List.mem_cons, ih]
      constructor
      · rintro (rfl | ⟨k, a, ha, rfl⟩)
        · exact ⟨0, b, rfl, rfl⟩
        · exact ⟨k + 1, a, ha, by simp⟩
      · rintro ⟨k, a, ha, rfl⟩
        cases k with
        | zero =>
            cases ha
            exact Or.inl rfl
        | succ k => exact Or.inr ⟨k, a, ha, by simp⟩

/-- **The lines of a read from the network** are true exactly if all bytes have
    the mark they print, which is the last one, and it can be read. -/
theorem tells_networkLines_iff {strAddress : String} {base : Base} {as : List (Addr ws)}
    {offsetOf : Addr ws → Nat} {m : TaintMap ws} {f : Nat → Nat} {tag : Int}
    (hpos : 0 < as.length) (htag : tag.toNat = f (as.length - 1))
    (hmarks : ∀ (k : Nat) (a : Addr ws), as[k]? = some a → entryMarks m[a]? = {f k}) :
    (∀ line ∈ networkLines tag strAddress base as, Tells offsetOf m line)
      ↔ (∀ k < as.length, f k = tag.toNat)
        ∧ (tag.toNat < 10 ∨ (as.length = 1 ∧ base = .dec)) := by
  have hline : ∀ (k : Nat) (a : Addr ws), as[k]? = some a →
      (Tells offsetOf m (networkLine (if k = 0 then base else .hex) tag strAddress a)
        ↔ readIn 10 (numeral (if k = 0 then base else Base.hex).radix tag.toNat)
          = some (f k)) :=
    fun k a ha => tells_networkLine_iff (hmarks k a ha) _ tag strAddress
  have hget : ∀ k, k < as.length → ∃ a, as[k]? = some a :=
    fun k hk => ⟨_, List.getElem?_eq_getElem hk⟩
  constructor
  · intro h
    have hread : ∀ k < as.length,
        readIn 10 (numeral (if k = 0 then base else Base.hex).radix tag.toNat) = some (f k) := by
      intro k hk
      obtain ⟨a, ha⟩ := hget k hk
      exact (hline k a ha).mp (h _ (mem_networkLines_iff.mpr ⟨k, a, ha, rfl⟩))
    -- the last line says in which base the mark is right
    have hlast := hread (as.length - 1) (by omega)
    rw [← htag, readIn_radix_iff] at hlast
    have hbase : tag.toNat < 10 ∨ (as.length = 1 ∧ base = .dec) := by
      rcases hlast with hdec | hlt
      · split at hdec
        · exact Or.inr ⟨by omega, hdec⟩
        · exact nomatch hdec
      · exact Or.inl hlt
    refine ⟨fun k hk => ?_, hbase⟩
    have hk' := hread k hk
    have htrue : readIn 10 (numeral (if k = 0 then base else Base.hex).radix tag.toNat)
        = some tag.toNat := by
      rw [readIn_radix_iff]
      rcases hbase with hlt | ⟨hone, hdec⟩
      · exact Or.inr hlt
      · exact Or.inl (by rw [if_pos (by omega), hdec])
    rw [htrue, Option.some_inj] at hk'
    exact hk'.symm
  · rintro ⟨hsame, hbase⟩ line hmem
    obtain ⟨k, a, ha, rfl⟩ := mem_networkLines_iff.mp hmem
    obtain ⟨hk, -⟩ := List.getElem?_eq_some_iff.mp ha
    rw [hline k a ha, hsame k hk, readIn_radix_iff]
    rcases hbase with hlt | ⟨hone, hdec⟩
    · exact Or.inr hlt
    · exact Or.inl (by rw [if_pos (by omega), hdec])

/-! ## The loop over the configured ranges -/

/-- What the loop decides about the byte with the number `count`: whether it
    gets a mark, and the range looked at next. -/
def taintsOffset (datFile : DatFile) (count : Int) (index : Nat) : Option (Bool × Nat) := do
  let (start, stop) ← datFile.range index
  if count < start ∨ count > stop then some (false, index)
  else some (true, if count = stop then index + 1 else index)

/-- Which of the next `n` bytes get a mark. -/
def offsetFlags (datFile : DatFile) : Nat → Int → Nat → List Bool
  | 0, _, _ => []
  | n + 1, count, index =>
      match taintsOffset datFile (count + 1) index with
      | some (tainted, index') => tainted :: offsetFlags datFile n (count + 1) index'
      | none => []

variable [MarkGenerator σ]

/-- What one turn leaves: the byte is skipped, or it gets a mark and a line. -/
theorem offsetByte_cases {datFile : DatFile} {d : Descriptor ws} {pathname : String}
    {l l' : OffsetLoop ws} {g g' : Globals ws σ} {addr : Addr ws}
    (h : offsetByte datFile d pathname (l, g) addr = some (l', g'))
    (hs : l.s = bitsetInit ws.bits N) :
    (taintsOffset datFile (g.count + 1) l.index = some (false, l'.index) ∧ l' = l
      ∧ g' = { g with count := g.count + 1 })
    ∨ ∃ t < N, taintsOffset datFile (g.count + 1) l.index = some (true, l'.index)
      ∧ l'.s = bitsetInit ws.bits N ∧ l'.curr = l.curr + 1 ∧ g'.count = g.count + 1
      ∧ g'.memTaintMap = g.memTaintMap.insert addr (markOnly ws N t)
      ∧ g'.taintAssignmentLog.lines = g.taintAssignmentLog.lines
        ++ [fileLine (t : Int) pathname l.curr addr (d.byteAt addr)] := by
  simp only [offsetByte] at h
  split at h
  · obtain ⟨⟨start, stop⟩, hrange, h⟩ := Option.bind_eq_some_iff.mp h
    have htaints : taintsOffset datFile (g.count + 1) l.index
        = if g.count + 1 < start ∨ g.count + 1 > stop then some (false, l.index)
          else some (true, if g.count + 1 = stop then l.index + 1 else l.index) := by
      rw [taintsOffset, hrange]
      rfl
    simp only at h
    split at h
    · rename_i hout
      cases h
      exact Or.inl ⟨by rw [htaints, if_pos hout], rfl, rfl⟩
    · rename_i hin
      obtain ⟨⟨tag, g₁⟩, hmark, h⟩ := Option.bind_eq_some_iff.mp h
      obtain ⟨s, hset, h⟩ := Option.bind_eq_some_iff.mp h
      cases h
      obtain ⟨hmem, hcount, hlog⟩ := offsetMark_frame hmark
      rw [hs] at hset
      obtain ⟨hlegal, rfl⟩ := setTag_init_eq_some hset
      refine Or.inr ⟨tag.toNat, hlegal.toNat_lt, by rw [htaints, if_neg hin],
        reset_markOnly hlegal.toNat_lt, rfl, hcount, ?_, ?_⟩
      · show copyByte (markOnly ws N tag.toNat) g₁.memTaintMap addr = _
        rw [copyByte_markOnly hlegal.toNat_lt, hmem]
      · rw [hlog]
        exact fileByte_lines hlegal ..
  · cases h

/-- The whole loop stores and logs one list of tags. -/
theorem foldlM_offsetByte {datFile : DatFile} {d : Descriptor ws} {pathname : String}
    {as : List (Addr ws)} {l l' : OffsetLoop ws} {g g' : Globals ws σ}
    (h : as.foldlM (offsetByte datFile d pathname) (l, g) = some (l', g'))
    (hs : l.s = bitsetInit ws.bits N) :
    ∃ tags : List (Option Nat), tags.length = as.length
      ∧ tags.map Option.isSome = offsetFlags datFile as.length g.count l.index
      ∧ (∀ t, some t ∈ tags → t < N)
      ∧ g'.memTaintMap = writeTags N (as.zip tags) g.memTaintMap
      ∧ g'.taintAssignmentLog.lines
        = g.taintAssignmentLog.lines ++ fileLines d pathname as tags l.curr := by
  induction as generalizing l g with
  | nil =>
      cases h
      exact ⟨[], rfl, rfl, nofun, rfl, (List.append_nil _).symm⟩
  | cons a rest ih =>
      rw [List.foldlM_cons, Option.bind_eq_bind, Option.bind_eq_some_iff] at h
      obtain ⟨⟨l₁, g₁⟩, hturn, hrest⟩ := h
      rcases offsetByte_cases hturn hs with ⟨htaints, rfl, rfl⟩
        | ⟨t, ht, htaints, hs₁, hcurr, hcount, hmem, hlines⟩
      · obtain ⟨tags, hlen, hflags, hlt, hmem, hlines⟩ := ih hrest hs
        refine ⟨none :: tags, by rw [List.length_cons, hlen, List.length_cons], ?_, ?_, hmem,
          hlines⟩
        · rw [List.length_cons, offsetFlags, htaints]
          exact congrArg (false :: ·) hflags
        · intro t ht
          exact hlt t ((List.mem_cons.mp ht).resolve_left nofun)
      · obtain ⟨tags, hlen, hflags, hlt, hmem', hlines'⟩ := ih hrest hs₁
        refine ⟨some t :: tags, by rw [List.length_cons, hlen, List.length_cons], ?_, ?_, ?_, ?_⟩
        · rw [List.length_cons, offsetFlags, htaints, ← hcount]
          exact congrArg (true :: ·) hflags
        · intro u hu
          rcases List.mem_cons.mp hu with heq | hu
          · cases heq
            exact ht
          · exact hlt u hu
        · rw [hmem', hmem]
          rfl
        · rw [hlines', hlines, hcurr]
          exact List.append_assoc ..

/-! ## The calls -/

/-- A read of a file that returned bytes: the file is behind them, and the
    buffer does not reach the top of the address space. -/
structure FileRead (ws : WordSize) where
  pathname : String
  args : SyscallArguments ws
  descriptor : Descriptor ws
  pos : 0 < args.ret.toNat
  lt : args.ret.toNat < 2 ^ 31
  behind : args.ret.toNat ≤ descriptor.currentOffset
  fits : args.arg1.toNat + args.ret.toNat < 2 ^ ws.bits

/-- The offset in the file of the byte read to `a`. -/
def FileRead.offsetOf (r : FileRead ws) (a : Addr ws) : Nat :=
  r.descriptor.currentOffset - r.args.ret.toNat + (a.toNat - r.args.arg1.toNat)

/-- A read from the network that returned bytes. -/
structure NetworkRead (ws : WordSize) where
  strAddress : String
  start : Addr ws
  length : Addr ws
  pos : 0 < length.toNat
  fits : start.toNat + length.toNat < 2 ^ ws.bits

/-- The calls that append to the log. -/
inductive Event (ws : WordSize) where
  | pathPerByte (r : FileRead ws)
  | pathPerRead (r : FileRead ws)
  | pathPerOffset (r : FileRead ws)
  | networkPerByte (r : NetworkRead ws)
  | networkPerRead (r : NetworkRead ws)
  | newTaint (addr size : Addr ws) (taintMark : Int)

/-- The offset in the file of a byte, for the calls that read one. -/
def Event.offsetOf : Event ws → Addr ws → Nat
  | .pathPerByte r => r.offsetOf
  | .pathPerRead r => r.offsetOf
  | .pathPerOffset r => r.offsetOf
  | .networkPerByte _ => fun _ => 0
  | .networkPerRead _ => fun _ => 0
  | .newTaint .. => fun _ => 0

/-- The callback or the function. -/
def step (N : Nat) (datFile : DatFile) (e : Event ws) (g : Globals ws σ) :
    Option (Globals ws σ) :=
  match e with
  | .pathPerByte r => pathSourceReadCallbackPerByte N r.descriptor r.pathname r.args g
  | .pathPerRead r => pathSourceReadCallbackPerRead N r.descriptor r.pathname r.args g
  | .pathPerOffset r => pathSourceReadCallbackPerOffset N datFile r.descriptor r.pathname r.args g
  | .networkPerByte r => networkReadCallbackPerByte N r.strAddress r.start r.length g
  | .networkPerRead r => networkReadCallbackPerRead N r.strAddress r.start r.length g
  | .newTaint addr size taintMark => setNewTaintForMemory N addr size taintMark g

/-- Every line the call appends is true of the marks right after it. -/
def TellsAfter (N : Nat) (datFile : DatFile) (e : Event ws) (g : Globals ws σ) : Prop :=
  ∀ g', step N datFile e g = some g' →
    ∃ lines, g'.taintAssignmentLog.lines = g.taintAssignmentLog.lines ++ lines
      ∧ ∀ line ∈ lines, Tells e.offsetOf g'.memTaintMap line

/-- The mark of draw `k` from now on. -/
def upcoming (g : Globals ws σ) (k : Nat) : Int :=
  match g.taintGen with
  | some gen => mark gen k
  | none => 0

/-- The mark `SetNewTaintForMemory` stores. -/
def newMark (taintMark : Int) (g : Globals ws σ) : Int :=
  if taintMark = -1 then upcoming g 0 else taintMark

/-- When the lines of a call are true. -/
def TellsWhen (datFile : DatFile) (e : Event ws) (g : Globals ws σ) : Prop :=
  match e with
  | .pathPerByte _ => True
  | .pathPerRead r => g.taintAssignmentLog.base = .dec
      ∨ (upcoming g 0 < 10 ∧ r.descriptor.currentOffset < 10)
  | .pathPerOffset r => Contiguous (offsetFlags datFile r.args.ret.toNat g.count 0)
  | .networkPerByte r => (∀ k < r.length.toNat, upcoming g k = upcoming g (r.length.toNat - 1))
      ∧ (upcoming g (r.length.toNat - 1) < 10
        ∨ (r.length.toNat = 1 ∧ g.taintAssignmentLog.base = .dec))
  | .networkPerRead _ => g.taintAssignmentLog.base = .dec ∨ upcoming g 0 < 10
  | .newTaint addr size taintMark =>
      if addr + size = 0 then ∀ a : Addr ws, addr ≤ a → ∃ u,
        readIn 10 (numeral g.taintAssignmentLog.base.radix (newMark taintMark g).toNat) = some u
          ∧ entryMarks g.memTaintMap[a]? = {u}
      else addrRange addr size = [] ∨ g.taintAssignmentLog.base = .dec
        ∨ newMark taintMark g < 10

theorem upcoming_eq {g : Globals ws σ} {gen : σ} (hgen : g.taintGen = some gen) (k : Nat) :
    upcoming g k = mark gen k := by
  rw [upcoming, hgen]

/-- `ret` as an `int` and as a size. -/
theorem FileRead.ret_spec (r : FileRead ws) :
    0 < (int r.args.ret).toInt ∧ ofInt ws (int r.args.ret) = r.args.ret := by
  have hint : (int r.args.ret).toNat = r.args.ret.toNat := by
    rw [int, BitVec.toNat_setWidth]
    exact Nat.mod_eq_of_lt (r.lt.trans (by decide))
  have hpos := r.pos
  have hlt := r.lt
  constructor
  · rw [BitVec.toInt_eq_toNat_cond, hint, if_pos (by omega)]
    exact Int.ofNat_lt.mpr hpos
  · refine BitVec.eq_of_toNat_eq ?_
    rw [ofInt_toNat (by omega), hint]

/-- What a call appended decides whether it told the truth. -/
theorem tellsAfter_iff {datFile : DatFile} {e : Event ws} {g g' : Globals ws σ}
    {lines : List Line} (h : step N datFile e g = some g')
    (hlines : g'.taintAssignmentLog.lines = g.taintAssignmentLog.lines ++ lines) :
    TellsAfter N datFile e g ↔ ∀ line ∈ lines, Tells e.offsetOf g'.memTaintMap line := by
  constructor
  · intro htells
    obtain ⟨lines', hlines', hall⟩ := htells g' h
    rw [hlines] at hlines'
    rw [List.append_cancel_left hlines']
    exact hall
  · intro hall g₁ hg₁
    rw [h] at hg₁
    cases hg₁
    exact ⟨lines, hlines, hall⟩

/-- A heading is always true. -/
theorem tells_heading_cons {offsetOf : Addr ws → Nat} {m : TaintMap ws} {text : String}
    {lines : List Line} : (∀ line ∈ .heading text :: lines, Tells offsetOf m line)
      ↔ ∀ line ∈ lines, Tells offsetOf m line := by
  rw [List.forall_mem_cons]
  exact and_iff_right trivial

theorem add_ne_zero {start size : Addr ws} (hpos : 0 < size.toNat)
    (hfits : start.toNat + size.toNat < 2 ^ ws.bits) :
    start + size ≠ 0 ∧ addrRange start size ≠ [] := by
  constructor
  · intro hzero
    have htoNat : (start + size).toNat = start.toNat + size.toNat := by
      rw [BitVec.toNat_add, Nat.mod_eq_of_lt hfits]
    rw [hzero] at htoNat
    have : (0 : Addr ws).toNat = 0 := rfl
    omega
  · intro hnil
    have hlen := addrRange_length hfits
    rw [hnil, List.length_nil] at hlen
    omega

section EachCall

variable {datFile : DatFile} {g g' : Globals ws σ}

theorem contiguous_markTags (n : Nat) (gen : σ) :
    Contiguous ((markTags n gen).map Option.isSome) := by
  intro j k hjk hk
  obtain ⟨hlt, -⟩ := List.getElem?_eq_some_iff.mp hk
  rw [List.length_map, markTags_length] at hlt
  rw [List.getElem?_map, markTags_getElem? gen (hjk.trans hlt)]
  rfl

theorem FileRead.offsetOf_eq (r : FileRead ws) (k : Nat) (a : Addr ws)
    (ha : (addrRange r.args.arg1 r.args.ret)[k]? = some a) :
    r.offsetOf a = r.descriptor.currentOffset - r.args.ret.toNat + k := by
  rw [FileRead.offsetOf, addrRange_getElem? ha, Nat.add_sub_cancel_left]

theorem tellsAfter_pathPerByte {r : FileRead ws}
    (h : step N datFile (.pathPerByte r) g = some g') :
    TellsAfter N datFile (.pathPerByte r) g ↔ TellsWhen datFile (.pathPerByte r) g := by
  obtain ⟨hret, hsize⟩ := r.ret_spec
  cases hgen : g.taintGen with
  | none => simp [step, pathSourceReadCallbackPerByte, hgen, Int.not_le.mpr hret] at h
  | some gen =>
      obtain ⟨hall, hnone⟩ := pathSourceReadCallbackPerByte_spec (N := N) hgen r.descriptor
        r.pathname r.args hret
      rw [hsize] at hall hnone
      by_cases hlegal : ∀ k < (addrRange r.args.arg1 r.args.ret).length, Legal N (mark gen k)
      · obtain ⟨g₁, hcall, hmarked, hlines⟩ := hall hlegal
        obtain rfl : g₁ = g' := Option.some.inj (hcall.symm.trans h)
        rw [tellsAfter_iff h hlines, tells_heading_cons]
        refine iff_of_true ?_ trivial
        refine (tells_fileLines_iff (markTags_length _ gen) ?_ r.offsetOf_eq).mpr
          (contiguous_markTags _ gen)
        intro k a t ha ht
        obtain ⟨hk, -⟩ := List.getElem?_eq_some_iff.mp ha
        rw [markTags_getElem? gen hk] at ht
        cases ht
        exact entryMarks_of_marked hmarked hlegal ha
      · have hcall : step N datFile (.pathPerByte r) g = none := hnone hlegal
        rw [hcall] at h
        cases h

theorem tellsAfter_pathPerOffset {r : FileRead ws}
    (h : step N datFile (.pathPerOffset r) g = some g') :
    TellsAfter N datFile (.pathPerOffset r) g ↔ TellsWhen datFile (.pathPerOffset r) g := by
  obtain ⟨hret, hsize⟩ := r.ret_spec
  have hcall := h
  simp only [step, pathSourceReadCallbackPerOffset, if_neg (Int.not_le.mpr hret), hsize] at hcall
  split at hcall
  · obtain ⟨⟨l, g₁⟩, hloop, hcall⟩ := Option.bind_eq_some_iff.mp hcall
    obtain rfl : g₁ = g' := Option.some.inj hcall
    obtain ⟨tags, hlen, hflags, hlt, hmem, hlines⟩ := foldlM_offsetByte hloop rfl
    have hlines' : g₁.taintAssignmentLog.lines = g.taintAssignmentLog.lines
        ++ .heading ("Tainted from file " ++ r.pathname)
          :: fileLines r.descriptor r.pathname (addrRange r.args.arg1 r.args.ret) tags
            (r.descriptor.currentOffset - r.args.ret.toNat) := by
      rw [hlines]
      exact List.append_assoc ..
    have hmarks : ∀ (k : Nat) (a : Addr ws) (t : Nat),
        (addrRange r.args.arg1 r.args.ret)[k]? = some a → tags[k]? = some (some t) →
          entryMarks g₁.memTaintMap[a]? = {t} := by
      intro k a t ha ht
      rw [hmem]
      exact writeTags_range_some hlen ha ht (hlt t (List.mem_of_getElem? ht)) _
    rw [tellsAfter_iff h hlines', tells_heading_cons]
    refine (tells_fileLines_iff hlen hmarks r.offsetOf_eq).trans ?_
    rw [hflags, addrRange_length r.fits]
    rfl
  · cases hcall

theorem tellsAfter_networkPerByte {r : NetworkRead ws}
    (h : step N datFile (.networkPerByte r) g = some g') :
    TellsAfter N datFile (.networkPerByte r) g ↔ TellsWhen datFile (.networkPerByte r) g := by
  have hlen := addrRange_length r.fits
  have hpos : 0 < (addrRange r.start r.length).length := by
    rw [hlen]
    exact r.pos
  cases hgen : g.taintGen with
  | none => simp [step, networkReadCallbackPerByte, hgen] at h
  | some gen =>
      obtain ⟨hall, hnone⟩ := networkReadCallbackPerByte_spec (N := N) hgen r.strAddress r.start
        r.length
      by_cases hlegal : ∀ k < (addrRange r.start r.length).length, Legal N (mark gen k)
      · obtain ⟨tag, g₁, hcall, hmarked, hlog, htag⟩ := hall hlegal
        obtain rfl : g₁ = g' := Option.some.inj (hcall.symm.trans h)
        have hlines := congrArg Log.lines hlog
        rw [network_lines] at hlines
        have hlast := htag hpos
        rw [tellsAfter_iff h hlines, tells_networkLines_iff (f := fun k => (mark gen k).toNat) hpos
          (by rw [hlast]) fun k a ha => entryMarks_of_marked hmarked hlegal ha, hlast, hlen]
        -- the marks are not negative, and can be compared as integers
        rw [hlen] at hlegal
        refine and_congr (forall_congr' fun k => forall_congr' fun hk => ?_) (or_congr ?_ Iff.rfl)
        · have hk' := (hlegal k hk).1
          have hn' := (hlegal (r.length.toNat - 1) (by omega)).1
          rw [upcoming_eq hgen, upcoming_eq hgen]
          omega
        · have hn' := (hlegal (r.length.toNat - 1) (by omega)).1
          rw [upcoming_eq hgen]
          omega
      · have hcall : step N datFile (.networkPerByte r) g = none := hnone hlegal
        rw [hcall] at h
        cases h

/-- A mark drawn for a read, and the generator after it. -/
theorem networkReadCallbackPerRead_eq_some {strAddress : String} {start length : Addr ws}
    (h : networkReadCallbackPerRead N strAddress start length g = some g') :
    Legal N (upcoming g 0)
      ∧ g'.memTaintMap
        = copyRange (markOnly ws N (upcoming g 0).toNat) start length g.memTaintMap
      ∧ g'.taintAssignmentLog = g.taintAssignmentLog.range (upcoming g 0) (.network strAddress)
        start (start + length - 1) := by
  cases hgen : g.taintGen with
  | none => simp [networkReadCallbackPerRead, drawMark, hgen] at h
  | some gen =>
      rw [networkReadCallbackPerRead_eq hgen] at h
      rw [upcoming_eq hgen]
      split at h
      · rename_i hlegal
        cases h
        exact ⟨hlegal, rfl, rfl⟩
      · cases h

theorem tellsAfter_networkPerRead {r : NetworkRead ws}
    (h : step N datFile (.networkPerRead r) g = some g') :
    TellsAfter N datFile (.networkPerRead r) g ↔ TellsWhen datFile (.networkPerRead r) g := by
  obtain ⟨hlegal, hmem, hlog⟩ := networkReadCallbackPerRead_eq_some h
  obtain ⟨hend, hne⟩ := add_ne_zero r.pos r.fits
  have hlines := congrArg Log.lines hlog
  have htag := Int.toNat_of_nonneg hlegal.1
  have hmarks : ∀ a ∈ addrRange r.start r.length,
      entryMarks g'.memTaintMap[a]? = {(upcoming g 0).toNat} := by
    intro a ha
    rw [hmem]
    exact entryMarks_copyRange hlegal.toNat_lt g.memTaintMap ha
  have hline := tells_rangeLine_iff (fun _ => 0) hend hmarks
    g.taintAssignmentLog.base (.network r.strAddress)
  rw [htag] at hline
  rw [tellsAfter_iff h hlines, List.forall_mem_singleton]
  have hnames : ∀ (i : Nat) (a : Addr ws), (addrRange r.start r.length)[i]? = some a →
      Names (.network r.strAddress) i 0 := fun _ _ _ => trivial
  refine hline.trans ?_
  rw [or_iff_right hne, and_iff_left hnames]
  exact or_congr Iff.rfl (by omega)

theorem pathSourceReadCallbackPerRead_eq_some {r : FileRead ws}
    (h : pathSourceReadCallbackPerRead N r.descriptor r.pathname r.args g = some g') :
    Legal N (upcoming g 0)
      ∧ g'.memTaintMap
        = copyRange (markOnly ws N (upcoming g 0).toNat) r.args.arg1 r.args.ret g.memTaintMap
      ∧ g'.taintAssignmentLog
        = (g.taintAssignmentLog.heading ("Tainted from file " ++ r.pathname)).range
          (upcoming g 0)
          (readSource g.taintAssignmentLog.base r.descriptor r.pathname r.args.ret)
          r.args.arg1 (r.args.arg1 + r.args.ret - 1) := by
  obtain ⟨hret, hsize⟩ := r.ret_spec
  cases hgen : g.taintGen with
  | none =>
      simp [pathSourceReadCallbackPerRead, drawMark, hgen, Int.not_le.mpr hret] at h
  | some gen =>
      rw [pathSourceReadCallbackPerRead_eq hgen _ _ _ hret, hsize] at h
      rw [upcoming_eq hgen]
      split at h
      · rename_i hlegal
        cases h
        exact ⟨hlegal, rfl, rfl⟩
      · cases h

/-- The offsets of a read, printed in some base, name those of its bytes. -/
theorem names_readSource_iff (r : FileRead ws) (base : Base) :
    (∀ (i : Nat) (a : Addr ws), (addrRange r.args.arg1 r.args.ret)[i]? = some a →
        Names (readSource base r.descriptor r.pathname r.args.ret) i (r.offsetOf a))
      ↔ base = .dec ∨ r.descriptor.currentOffset < 10 := by
  have hpos := r.pos
  have hbehind := r.behind
  constructor
  · intro h
    cases base with
    | dec => exact Or.inl rfl
    | hex =>
        -- the last byte needs the whole of the second number
        have hlen := addrRange_length r.fits
        have ha : (addrRange r.args.arg1 r.args.ret)[r.args.ret.toNat - 1]?
            = some (addrRange r.args.arg1 r.args.ret)[r.args.ret.toNat - 1] :=
          List.getElem?_eq_getElem (by omega)
        obtain ⟨x, y, hx, hy, hoffset, hlt⟩ := h _ _ ha
        rw [r.offsetOf_eq _ _ ha] at hoffset hlt
        obtain ⟨-, hsmaller⟩ := readIn_smaller (b := 10) (c := 16) (by decide) (by decide) hy
        refine Or.inr ?_
        by_contra hten
        have := hsmaller (by omega)
        omega
  · intro hbase i a ha
    have hi : i < r.args.ret.toNat := ((addrRange_getElem?_iff r.fits).mp ha).1
    have hstop := (readIn_radix_iff base r.descriptor.currentOffset).mpr hbase
    have hstart := (readIn_radix_iff base (r.descriptor.currentOffset - r.args.ret.toNat)).mpr
      (hbase.imp id fun h => by omega)
    rw [r.offsetOf_eq i a ha]
    exact ⟨_, _, hstart, hstop, rfl, by omega⟩

theorem tellsAfter_pathPerRead {r : FileRead ws}
    (h : step N datFile (.pathPerRead r) g = some g') :
    TellsAfter N datFile (.pathPerRead r) g ↔ TellsWhen datFile (.pathPerRead r) g := by
  obtain ⟨hlegal, hmem, hlog⟩ := pathSourceReadCallbackPerRead_eq_some h
  obtain ⟨hend, hne⟩ := add_ne_zero r.pos r.fits
  have hlines : g'.taintAssignmentLog.lines = g.taintAssignmentLog.lines
      ++ [.heading ("Tainted from file " ++ r.pathname),
        rangeLine g.taintAssignmentLog.base (upcoming g 0)
          (readSource g.taintAssignmentLog.base r.descriptor r.pathname r.args.ret) r.args.arg1
          (r.args.arg1 + r.args.ret - 1)] := by
    rw [hlog]
    exact List.append_assoc ..
  have htag := Int.toNat_of_nonneg hlegal.1
  have hmarks : ∀ a ∈ addrRange r.args.arg1 r.args.ret,
      entryMarks g'.memTaintMap[a]? = {(upcoming g 0).toNat} := by
    intro a ha
    rw [hmem]
    exact entryMarks_copyRange hlegal.toNat_lt g.memTaintMap ha
  have hline := tells_rangeLine_iff r.offsetOf hend hmarks
    g.taintAssignmentLog.base
    (readSource g.taintAssignmentLog.base r.descriptor r.pathname r.args.ret)
  rw [htag, or_iff_right hne, names_readSource_iff] at hline
  rw [tellsAfter_iff h hlines, tells_heading_cons, List.forall_mem_singleton]
  refine hline.trans ?_
  rw [← or_and_left]
  exact or_congr Iff.rfl (and_congr (by omega) Iff.rfl)

/-- What `SetNewTaintForMemory` leaves. -/
theorem setNewTaintForMemory_eq_some {addr size : Addr ws} {taintMark : Int}
    (h : setNewTaintForMemory N addr size taintMark g = some g') :
    Legal N (newMark taintMark g)
      ∧ g'.memTaintMap
        = copyRange (markOnly ws N (newMark taintMark g).toNat) addr size g.memTaintMap
      ∧ g'.taintAssignmentLog = g.taintAssignmentLog.range (newMark taintMark g) .call addr
        (addr + size - 1) := by
  obtain ⟨⟨tag, g₁⟩, htag, h⟩ := Option.bind_eq_some_iff.mp h
  have hg₁ : tag = newMark taintMark g ∧ g₁.memTaintMap = g.memTaintMap
      ∧ g₁.taintAssignmentLog = g.taintAssignmentLog := by
    rw [chooseMark] at htag
    rw [newMark]
    split at htag
    · rename_i hminus
      obtain ⟨gen, hgen, htag⟩ := Option.bind_eq_some_iff.mp htag
      cases htag
      rw [if_pos hminus, upcoming_eq hgen]
      exact ⟨rfl, rfl, rfl⟩
    · rename_i hminus
      split at htag
      · cases htag
      · cases htag
        rw [if_neg hminus]
        exact ⟨rfl, rfl, rfl⟩
  obtain ⟨rfl, hmem, hlog⟩ := hg₁
  obtain ⟨s, hset, h⟩ := Option.bind_eq_some_iff.mp h
  obtain ⟨hlegal, rfl⟩ := setTag_init_eq_some hset
  cases h
  rw [hmem, hlog]
  exact ⟨hlegal, rfl, rfl⟩

theorem tellsAfter_newTaint {addr size : Addr ws} {taintMark : Int}
    (h : step N datFile (.newTaint addr size taintMark) g = some g') :
    TellsAfter N datFile (.newTaint addr size taintMark) g
      ↔ TellsWhen datFile (.newTaint addr size taintMark) g := by
  obtain ⟨hlegal, hmem, hlog⟩ := setNewTaintForMemory_eq_some h
  have hlines := congrArg Log.lines hlog
  rw [tellsAfter_iff h hlines, List.forall_mem_singleton, TellsWhen]
  by_cases hend : addr + size = 0
  · -- nothing is tainted, but the line lists the addresses up to the top
    rw [if_pos hend]
    have hnil : addrRange addr size = [] := by
      rw [addrRange, hend, show (0 : Addr ws).toNat = 0 from rfl, Nat.zero_sub]
      rfl
    rw [tells_rangeLine_top_iff hend, hmem, copyRange, hnil]
    rfl
  · rw [if_neg hend]
    have htag := Int.toNat_of_nonneg hlegal.1
    have hmarks : ∀ a ∈ addrRange addr size,
        entryMarks g'.memTaintMap[a]? = {(newMark taintMark g).toNat} := by
      intro a ha
      rw [hmem]
      exact entryMarks_copyRange hlegal.toNat_lt g.memTaintMap ha
    have hline := tells_rangeLine_iff (fun _ => 0) hend hmarks
      g.taintAssignmentLog.base .call
    have hnames : ∀ (i : Nat) (a : Addr ws), (addrRange addr size)[i]? = some a →
        Names .call i 0 := fun _ _ _ => trivial
    rw [htag, and_iff_left hnames] at hline
    exact hline.trans (or_congr Iff.rfl (or_congr Iff.rfl (by omega)))

end EachCall

/-- One call: its lines are true exactly under its condition. -/
theorem tellsAfter_iff_tellsWhen {datFile : DatFile} {e : Event ws} {g g' : Globals ws σ}
    (h : step N datFile e g = some g') :
    TellsAfter N datFile e g ↔ TellsWhen datFile e g := by
  cases e with
  | pathPerByte r => exact tellsAfter_pathPerByte h
  | pathPerRead r => exact tellsAfter_pathPerRead h
  | pathPerOffset r => exact tellsAfter_pathPerOffset h
  | networkPerByte r => exact tellsAfter_networkPerByte h
  | networkPerRead r => exact tellsAfter_networkPerRead h
  | newTaint addr size taintMark => exact tellsAfter_newTaint h

/-- **The log tells the truth** in a run exactly if each of its calls is made
    under its condition. -/
theorem runs_tell_iff {datFile : DatFile} {es : List (Event ws)} {g g' : Globals ws σ}
    (h : runs (step N datFile) es g = some g') :
    EachStep (step N datFile) (TellsAfter N datFile) es g
      ↔ EachStep (step N datFile) (TellsWhen datFile) es g :=
  eachStep_congr_of_runs (fun _ _ _ => tellsAfter_iff_tellsWhen) h

/-- The callback or the function as the observers have it. -/
def observerStep (datFile : DatFile) (e : Event ws) (h : DytanSyscallState.Globals ws N) :
    Option (DytanSyscallState.Globals ws N) :=
  match e with
  | .pathPerByte r => DytanTaintSource.pathSourceReadCallbackPerByte r.args h
  | .pathPerRead r => DytanTaintSource.pathSourceReadCallbackPerRead r.args h
  | .pathPerOffset r => DytanTaintSource.pathSourceReadCallbackPerOffset datFile r.args h
  | .networkPerByte r => DytanTaintSource.networkReadCallbackPerByte r.start r.length h
  | .networkPerRead r => DytanTaintSource.networkReadCallbackPerRead r.start r.length h
  | .newTaint addr size taintMark => DytanTaintSource.setNewTaintForMemory addr size taintMark h

theorem step_related (datFile : DatFile) (e : Event ws)
    (g : Globals ws (DytanSyscallState.TaintGenerator N)) (h : DytanSyscallState.Globals ws N)
    (hgh : SameGlobals g h) :
    Related SameGlobals (step N datFile e g) (observerStep datFile e h) := by
  cases e with
  | pathPerByte r => exact pathSourceReadCallbackPerByte_related hgh r.descriptor r.pathname r.args
  | pathPerRead r => exact pathSourceReadCallbackPerRead_related hgh r.descriptor r.pathname r.args
  | pathPerOffset r =>
      exact pathSourceReadCallbackPerOffset_related hgh datFile r.descriptor r.pathname r.args
  | networkPerByte r => exact networkReadCallbackPerByte_related hgh r.strAddress r.start r.length
  | networkPerRead r => exact networkReadCallbackPerRead_related hgh r.strAddress r.start r.length
  | newTaint addr size taintMark => exact setNewTaintForMemory_related hgh addr size taintMark

/-- **Refinement**: a run with the log is, without it, a run of what the
    observers call. -/
theorem runs_step_related (datFile : DatFile) (es : List (Event ws))
    {g : Globals ws (DytanSyscallState.TaintGenerator N)} {h : DytanSyscallState.Globals ws N}
    (hgh : SameGlobals g h) :
    Related SameGlobals (runs (step N datFile) es g) (runs (observerStep datFile) es h) :=
  runs_related (step_related datFile) es hgh

/-- No range is configured. -/
def noRanges : DatFile := ⟨[], DytanTaintSource.nil_length_le⟩

/-- Two bytes from the network. -/
def twoBytes : NetworkRead .w64 := ⟨"10.0.0.1", 100, 2, by decide, by decide⟩

theorem twoBytes_runs : ∃ g', runs (step 4096 noRanges) [.networkPerByte twoBytes]
    (.init .w64 (TaintGenerator.make 1 4096)) = some g' := by
  obtain ⟨hall, -⟩ := networkReadCallbackPerByte_spec (N := 4096)
    (g := .init .w64 (TaintGenerator.make 1 4096)) rfl twoBytes.strAddress twoBytes.start
    twoBytes.length
  obtain ⟨tag, g', hcall, -⟩ := hall (by decide)
  refine ⟨g', ?_⟩
  rw [runs_cons, show step 4096 noRanges (.networkPerByte twoBytes) _ = some g' from hcall]
  rfl

theorem runs_tell_iff_twoBytes : ∃ g', runs (step 4096 noRanges) [.networkPerByte twoBytes]
      (.init .w64 (TaintGenerator.make 1 4096)) = some g'
    ∧ (EachStep (step 4096 noRanges) (TellsAfter 4096 noRanges) [.networkPerByte twoBytes]
        (.init .w64 (TaintGenerator.make 1 4096))
      ↔ EachStep (step 4096 noRanges) (TellsWhen noRanges) [.networkPerByte twoBytes]
        (.init .w64 (TaintGenerator.make 1 4096))) := by
  obtain ⟨g', hrun⟩ := twoBytes_runs
  exact ⟨g', hrun, runs_tell_iff hrun⟩

/-- Bytes 100 and 101 get the marks 2 and 3, and the log says 3 of both. -/
theorem twoBytes_mislogged : ∃ g', runs (step 4096 noRanges) [.networkPerByte twoBytes]
      (.init .w64 (TaintGenerator.make 1 4096)) = some g'
    ∧ ¬ EachStep (step 4096 noRanges) (TellsAfter 4096 noRanges) [.networkPerByte twoBytes]
      (.init .w64 (TaintGenerator.make 1 4096)) := by
  obtain ⟨g', hrun⟩ := twoBytes_runs
  refine ⟨g', hrun, fun htells => ?_⟩
  rw [runs_cons, Option.bind_eq_some_iff] at hrun
  obtain ⟨g₁, hstep, -⟩ := hrun
  have hsame := ((tellsAfter_networkPerByte hstep).mp htells.1).1 0 (by decide)
  exact absurd hsame (by decide)

end DytanLogTruth
