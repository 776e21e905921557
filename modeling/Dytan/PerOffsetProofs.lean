import Dytan.TaintSourceProofs

/-! # Per-offset tainting — when the split into reads does not matter

    `pathSourceReadCallbackPerOffset` counts the bytes of the file in a static
    variable, and keeps the index of the current range, the flag of its first
    byte and its mark in variables of one call.

    A call that starts at or before the first range goes through the ranges as
    one read of the whole file would (`Within`).  A call that starts later
    begins again at the first range: inside it, the mark is still -1 and
    setting it fails; behind it, no byte of the call is tainted any more. -/

namespace DytanPerOffset

open DytanBitset DytanRegister DytanTaintState DytanMarkFlow DytanSyscallState DytanTaintSource
open Runs

variable {ws : WordSize} {N : Nat}

/-- Ranges as they are configured: in order, and apart from each other. -/
structure Config extends DatFile where
  le : ∀ r ∈ ranges, r.1 ≤ r.2
  lt : ranges.Pairwise fun r r' => r.2 < r'.1

/-- The ranges that have a byte in a file. -/
def Config.fileRanges (d : Config) : List (Int × Int) := d.ranges.filter fun r => 0 ≤ r.2

/-- The number of ranges whose first byte in the file lies before `o`. -/
def started (d : Config) (o : Int) : Nat :=
  (d.fileRanges.takeWhile fun r => max r.1 0 < o).length

/-- The mark of the byte at `o`, in a file tainted as configured: range number
    `k` has the mark of draw number `k`. -/
def Expected (d : Config) (gen : TaintGenerator N) (o : Int) (t : Nat) : Prop :=
  ∃ k r, d.fileRanges[k]? = some r ∧ r.1 ≤ o ∧ o ≤ r.2 ∧ t = tagAt gen k

/-- Not all of 256 ranges end before `o`. -/
def InArrays (d : Config) (o : Int) : Prop :=
  d.ranges.length = 256 → ∃ r ∈ d.ranges, o ≤ r.2

/-- The first range; none is read as `[0, 0]`. -/
def Config.first (d : Config) : Int × Int := d.ranges.getD 0 (0, 0)

theorem fileRanges_eq {d : Config} (h : ∀ r ∈ d.ranges, 0 ≤ r.1) : d.fileRanges = d.ranges := by
  refine List.filter_eq_self.mpr fun r hr => ?_
  have h₁ := h r hr
  have h₂ := d.le r hr
  exact decide_eq_true (by omega)

theorem InArrays.mono {d : Config} {o o' : Int} (h : InArrays d o') (hle : o ≤ o') :
    InArrays d o := by
  intro hlen
  obtain ⟨r, hr, ho⟩ := h hlen
  exact ⟨r, hr, by omega⟩

theorem started_mono (d : Config) {o o' : Int} (h : o ≤ o') : started d o ≤ started d o' := by
  simp only [started]
  generalize d.fileRanges = rs
  induction rs with
  | nil => exact Nat.le_refl _
  | cons r rest ih =>
      rw [List.takeWhile_cons, List.takeWhile_cons]
      by_cases hr : max r.1 0 < o
      · rw [if_pos (decide_eq_true hr), if_pos (decide_eq_true (by omega))]
        exact Nat.succ_le_succ ih
      · rw [if_neg (by simpa using hr)]
        exact Nat.zero_le _

/-! ## Going through the ranges -/

/-- How many of the ranges start before `o`, where `done` end before it. -/
def startedIn (o : Int) (done rest : List (Int × Int)) : Nat :=
  done.length + match rest with
    | r :: _ => if r.1 < o then 1 else 0
    | [] => 0

/-- The loop's variables before the byte at `o`, in a call that started at or
    before the first range: the ranges `done` are behind, and inside a range
    the tag is the mark drawn for it. -/
structure Within (d : Config) (gen : TaintGenerator N) (o : Int) (l : OffsetLoop N)
    (done rest : List (Int × Int)) : Prop where
  ranges : d.ranges = done ++ rest
  nonneg : ∀ r ∈ d.ranges, 0 ≤ r.1
  nonempty : d.ranges ≠ []
  count : l.count + 1 = o
  flag : l.flag = false
  index : l.index = done.length
  past : ∀ r ∈ done, r.2 < o
  here : ∀ r ∈ rest.head?, o ≤ r.2 ∧ (r.1 < o → l.tag = tagAt gen done.length)
  taintGen : l.taintGen = some (advance (startedIn o done rest) gen)
  drawn : CanDraw gen (startedIn o done rest)

theorem startedIn_eq {d : Config} (hpos : ∀ r ∈ d.ranges, 0 ≤ r.1) {o : Int}
    {done rest : List (Int × Int)} (hranges : d.ranges = done ++ rest)
    (hpast : ∀ r ∈ done, r.1 < o) (htail : ∀ r ∈ rest.tail, o ≤ r.1) :
    started d o = startedIn o done rest := by
  have hmax : ∀ r ∈ d.ranges, max r.1 0 = r.1 := fun r hr => by
    have h := hpos r hr
    omega
  simp only [started, startedIn]
  rw [fileRanges_eq hpos, hranges, List.takeWhile_append_of_pos, List.length_append]
  · congr 1
    cases rest with
    | nil => rfl
    | cons r tail =>
        have hr := hmax r (by rw [hranges]; simp)
        rw [List.takeWhile_cons, hr]
        by_cases hlt : r.1 < o
        · rw [if_pos (decide_eq_true hlt)]
          show _ = if r.1 < o then 1 else 0
          rw [if_pos hlt, List.length_cons]
          cases tail with
          | nil => rfl
          | cons r' tail' =>
              have hr' := hmax r' (by rw [hranges]; simp)
              have hle := htail r' List.mem_cons_self
              rw [List.takeWhile_cons, hr', if_neg (by simpa using hle)]
              rfl
        · rw [if_neg (by simpa using hlt)]
          show _ = if r.1 < o then 1 else 0
          rw [if_neg hlt]
          rfl
  · intro r hr
    rw [hmax r (by rw [hranges]; exact List.mem_append_left _ hr)]
    exact decide_eq_true (hpast r hr)

section Within

variable {d : Config} {gen : TaintGenerator N} {o : Int} {l : OffsetLoop N}
  {done rest : List (Int × Int)}

/-- The ranges behind the current one start after its end. -/
theorem Within.after (h : Within d gen o l done rest) :
    (∀ r ∈ done, r.1 < o) ∧ ∀ r ∈ rest.tail, o + 1 ≤ r.1 := by
  constructor
  · intro r hr
    have hle := d.le r (by rw [h.ranges]; exact List.mem_append_left _ hr)
    have hlt := h.past r hr
    omega
  · intro r hr
    cases rest with
    | nil => exact absurd hr List.not_mem_nil
    | cons r' tail =>
        have hsorted := d.lt
        rw [h.ranges, List.pairwise_append] at hsorted
        have hlt := (List.pairwise_cons.mp hsorted.2.1).1 r hr
        have hle := (h.here r' rfl).1
        omega

theorem Within.started_eq (h : Within d gen o l done rest) :
    started d o = startedIn o done rest ∧ started d (o + 1) = startedIn (o + 1) done rest := by
  obtain ⟨hdone, htail⟩ := h.after
  constructor
  · refine startedIn_eq h.nonneg h.ranges hdone fun r hr => ?_
    have hle := htail r hr
    omega
  · refine startedIn_eq h.nonneg h.ranges (fun r hr => ?_) htail
    have hlt := hdone r hr
    omega

/-- Only the current range can hold the byte at `o`. -/
theorem Within.expected_iff (h : Within d gen o l done rest) (t : Nat) :
    Expected d gen o t ↔ ∃ r, rest.head? = some r ∧ r.1 ≤ o ∧ t = tagAt gen done.length := by
  obtain ⟨hdone, htail⟩ := h.after
  rw [Expected]
  rw [fileRanges_eq h.nonneg, h.ranges]
  constructor
  · rintro ⟨k, r, hk, hle, hge, rfl⟩
    -- earlier ranges end before `o`, later ones start behind it
    rcases Nat.lt_trichotomy k done.length with hlt | rfl | hgt
    · rw [List.getElem?_append_left hlt] at hk
      have hpast := h.past r (List.mem_of_getElem? hk)
      omega
    · rw [List.getElem?_append_right (Nat.le_refl _), Nat.sub_self] at hk
      cases rest with
      | nil => exact nomatch hk
      | cons r' tail =>
          cases hk
          exact ⟨r, rfl, hle, rfl⟩
    · rw [List.getElem?_append_right (by omega)] at hk
      obtain ⟨j, hj⟩ : ∃ j, k - done.length = j + 1 := ⟨k - done.length - 1, by omega⟩
      rw [hj] at hk
      cases rest with
      | nil => exact nomatch hk
      | cons r' tail =>
          have hlt := htail r (List.mem_of_getElem? hk)
          omega
  · rintro ⟨r, hr, hle, rfl⟩
    cases rest with
    | nil => exact nomatch hr
    | cons r' tail =>
        cases hr
        refine ⟨done.length, r, ?_, hle, (h.here r rfl).1, rfl⟩
        rw [List.getElem?_append_right (Nat.le_refl _), Nat.sub_self]
        rfl

theorem Within.inArrays_iff (h : Within d gen o l done rest) :
    InArrays d o ↔ done.length < 256 := by
  have hlen : d.ranges.length = done.length + rest.length := by
    rw [h.ranges, List.length_append]
  have hbound := d.length_le
  cases rest with
  | nil =>
      rw [List.length_nil] at hlen
      constructor
      · intro hin
        by_contra hge
        obtain ⟨r, hr, hle⟩ := hin (by omega)
        rw [h.ranges, List.append_nil] at hr
        have hlt := h.past r hr
        omega
      · intro hlt hlen'
        omega
  | cons r tail =>
      rw [List.length_cons] at hlen
      refine iff_of_true (fun _ => ⟨r, ?_, (h.here r rfl).1⟩) (by omega)
      rw [h.ranges]
      simp

/-- The range the loop looks at. -/
theorem Within.range_eq (h : Within d gen o l done rest) (hlt : done.length < 256) :
    d.toDatFile.range l.index = some (rest.head?.getD (0, 0)) := by
  rw [DatFile.range, h.index, if_pos hlt, h.ranges, List.getD_eq_getElem?_getD,
    List.getElem?_append_right (Nat.le_refl _), Nat.sub_self]
  cases rest <;> rfl

/-- A byte of no range: the loop only counts it. -/
theorem Within.skip (h : Within d gen o l done rest) (hnot : ∀ r ∈ rest.head?, o < r.1) :
    Within d gen (o + 1) { l with count := o } done rest := by
  have hsame : startedIn (o + 1) done rest = startedIn o done rest := by
    simp only [startedIn]
    cases rest with
    | nil => rfl
    | cons r tail =>
        have hlt := hnot r rfl
        show done.length + (if r.1 < o + 1 then 1 else 0) = done.length + if r.1 < o then 1 else 0
        rw [if_neg (by omega), if_neg (by omega)]
  refine ⟨h.ranges, h.nonneg, h.nonempty, rfl, h.flag, h.index, fun r hr => ?_, fun r hr => ?_,
    by rw [hsame]; exact h.taintGen, by rw [hsame]; exact h.drawn⟩
  · have hlt := h.past r hr
    omega
  · have hlt := hnot r hr
    have hle := d.le r (by rw [h.ranges]; exact List.mem_append_right _ (List.mem_of_mem_head? hr))
    exact ⟨by omega, fun hcontra => absurd hcontra (by omega)⟩

/-- A byte of the current range, after which the loop may go to the next. -/
theorem Within.enter {r : Int × Int} {tail : List (Int × Int)}
    (h : Within d gen o l done (r :: tail)) (hle : r.1 ≤ o) (hdraw : CanDraw gen (done.length + 1)) :
    ∃ done' rest', Within d gen (o + 1)
      ⟨o, false, if o = r.2 then l.index + 1 else l.index, tagAt gen done.length,
        some (advance (done.length + 1) gen)⟩ done' rest' := by
  have htail := h.after.2
  have hhere := (h.here r rfl).1
  by_cases hend : o = r.2
  · -- the last byte of the range: the index moves on
    refine ⟨done ++ [r], tail, ?_⟩
    have hstarted : startedIn (o + 1) (done ++ [r]) tail = done.length + 1 := by
      simp only [startedIn]
      rw [List.length_append, List.length_singleton]
      cases tail with
      | nil => rfl
      | cons r' tail' =>
          have hlt := htail r' List.mem_cons_self
          show done.length + 1 + (if r'.1 < o + 1 then 1 else 0) = _
          rw [if_neg (by omega)]
    refine ⟨?_, h.nonneg, h.nonempty, rfl, rfl, ?_, fun x hx => ?_, fun x hx => ?_,
      by rw [hstarted], by rw [hstarted]; exact hdraw⟩
    · rw [h.ranges, List.append_assoc, List.singleton_append]
    · show (if o = r.2 then l.index + 1 else l.index) = _
      rw [if_pos hend, h.index, List.length_append, List.length_singleton]
    · rcases List.mem_append.mp hx with hx | hx
      · have hlt := h.past x hx
        omega
      · cases List.mem_singleton.mp hx
        omega
    · have hx' := List.mem_of_mem_head? hx
      have hlt := htail x hx'
      have hxle := d.le x (by rw [h.ranges]; simp [hx'])
      exact ⟨by omega, fun hcontra => absurd hcontra (by omega)⟩
  · refine ⟨done, r :: tail, ?_⟩
    have hstarted : startedIn (o + 1) done (r :: tail) = done.length + 1 := by
      show done.length + (if r.1 < o + 1 then 1 else 0) = _
      rw [if_pos (by omega)]
    refine ⟨h.ranges, h.nonneg, h.nonempty, rfl, rfl, ?_, fun x hx => ?_, fun x hx => ?_,
      by rw [hstarted], by rw [hstarted]; exact hdraw⟩
    · show (if o = r.2 then l.index + 1 else l.index) = _
      rw [if_neg hend, h.index]
    · have hlt := h.past x hx
      omega
    · cases hx
      exact ⟨by omega, fun _ => rfl⟩

/-- The loop can take the byte at `o`: the counter, the arrays and the
    generator allow it. -/
structure CanRead (d : Config) (gen : TaintGenerator N) (o : Int) : Prop where
  count : o < 2 ^ 31
  arrays : InArrays d o
  draws : CanDraw gen (started d (o + 1))

/-- The byte at `o` is taken and gets the mark it should have. -/
def Takes (d : Config) (gen : TaintGenerator N) (o : Int) (l : OffsetLoop N) : Prop :=
  ∃ tag l' done' rest', offsetTag d.toDatFile l = some (tag, l')
    ∧ Within d gen (o + 1) l' done' rest' ∧ ∀ t, tag = some t ↔ Expected d gen o t

/-- A byte of no range is taken. -/
theorem Within.step_outside (h : Within d gen o l done rest) (hcount : o < 2 ^ 31)
    (harrays : InArrays d o) (hnot : ∀ r ∈ rest.head?, o < r.1) :
    Takes d gen o l ∧ CanRead d gen o := by
  have hrange := h.range_eq (h.inArrays_iff.mp harrays)
  have hout : o < (rest.head?.getD (0, 0)).1 ∨ o > (rest.head?.getD (0, 0)).2 := by
    cases rest with
    | nil =>
        -- all ranges are behind: the zeros past them hold no byte
        obtain ⟨r, hr⟩ := List.exists_mem_of_ne_nil _ h.nonempty
        have h₁ := h.nonneg r hr
        have h₂ := d.le r hr
        rw [h.ranges, List.append_nil] at hr
        have h₃ := h.past r hr
        refine Or.inr ?_
        show (0 : Int) < o
        omega
    | cons r tail => exact Or.inl (hnot r rfl)
  have hskip := h.skip hnot
  refine ⟨⟨none, _, _, _, offsetTag_skip h.count hcount hrange hout, hskip, fun t => ?_⟩,
    hcount, harrays, ?_⟩
  · rw [h.expected_iff]
    refine iff_of_false (fun hh => nomatch hh) ?_
    rintro ⟨r, hr, hle, -⟩
    have hlt := hnot r hr
    omega
  · rw [h.started_eq.2]
    exact hskip.drawn

/-- A byte of the current range is taken, unless it is the first one and the
    generator cannot draw. -/
theorem Within.step_inside {r : Int × Int} {tail : List (Int × Int)}
    (h : Within d gen o l done (r :: tail)) (hcount : o < 2 ^ 31) (harrays : InArrays d o)
    (hle : r.1 ≤ o) :
    (CanRead d gen o → Takes d gen o l)
      ∧ (¬ CanRead d gen o → offsetTag d.toDatFile l = none) := by
  have hrange := h.range_eq (h.inArrays_iff.mp harrays)
  rw [List.head?_cons, Option.getD_some] at hrange
  have hend := (h.here r rfl).1
  have hin : ¬ (o < r.1 ∨ o > r.2) := by omega
  have hnew : started d (o + 1) = done.length + 1 := by
    rw [h.started_eq.2]
    show done.length + (if r.1 < o + 1 then 1 else 0) = _
    rw [if_pos (by omega)]
  have htags : ∀ t, (some (tagAt gen done.length) = some t ↔ Expected d gen o t) := by
    intro t
    rw [h.expected_iff]
    constructor
    · rintro ⟨⟩
      exact ⟨r, rfl, hle, rfl⟩
    · rintro ⟨x, hx, -, rfl⟩
      rfl
  by_cases hfirst : o = r.1
  · -- the first byte of a range draws its mark
    have hgen : l.taintGen = some (advance done.length gen) := by
      rw [h.taintGen]
      show some (advance (done.length + if r.1 < o then 1 else 0) gen) = _
      rw [if_neg (by omega), Nat.add_zero]
    by_cases hdraw : CanDraw gen (done.length + 1)
    · obtain ⟨done', rest', hwithin⟩ := h.enter hle hdraw
      refine ⟨fun _ => ⟨_, _, done', rest', ?_, hwithin, htags⟩,
        fun hnot => absurd ⟨hcount, harrays, by rw [hnew]; exact hdraw⟩ hnot⟩
      exact offsetTag_draw h.count hcount hrange hin hfirst hgen (nextTaintMark_advance hdraw)
    · refine ⟨fun hread => absurd hread.draws (by rw [hnew]; exact hdraw), fun _ => ?_⟩
      exact offsetTag_draw_none h.count hcount hrange hin hfirst hgen
        (nextTaintMark_advance_none hdraw)
  · -- later bytes have the mark that was drawn
    have hlt : r.1 < o := by omega
    have htag := (h.here r rfl).2 hlt
    have hstartedIn : startedIn o done (r :: tail) = done.length + 1 := by
      show done.length + (if r.1 < o then 1 else 0) = _
      rw [if_pos hlt]
    have hgen := h.taintGen
    have hdraw := h.drawn
    rw [hstartedIn] at hgen hdraw
    obtain ⟨done', rest', hwithin⟩ := h.enter hle hdraw
    refine ⟨fun _ => ⟨_, _, done', rest', ?_, hwithin, htags⟩,
      fun hnot => absurd ⟨hcount, harrays, by rw [hnew]; exact hdraw⟩ hnot⟩
    have hkeep := offsetTag_keep h.count hcount hrange hin h.flag hfirst
    rw [hkeep, htag, if_pos (Int.natCast_nonneg _), Int.toNat_natCast, hgen]

/-- **One byte**: where the loop can take it, the byte gets the mark it should
    have. -/
theorem Within.step (h : Within d gen o l done rest) :
    (CanRead d gen o → Takes d gen o l)
      ∧ (¬ CanRead d gen o → offsetTag d.toDatFile l = none) := by
  by_cases hcount : o < 2 ^ 31
  · by_cases harrays : InArrays d o
    · by_cases hnot : ∀ r ∈ rest.head?, o < r.1
      · obtain ⟨htakes, hread⟩ := h.step_outside hcount harrays hnot
        exact ⟨fun _ => htakes, fun hcannot => absurd hread hcannot⟩
      · cases rest with
        | nil => exact absurd (fun r hr => nomatch hr) hnot
        | cons r tail =>
            refine h.step_inside hcount harrays ?_
            by_contra hbefore
            refine hnot fun x hx => ?_
            cases hx
            omega
    · refine ⟨fun hread => absurd hread.arrays harrays, fun _ => ?_⟩
      have hge : ¬ l.index < 256 := by
        rw [h.index]
        exact fun hlt => harrays (h.inArrays_iff.mpr hlt)
      exact offsetTag_outOfArrays hge
  · exact ⟨fun hread => absurd hread.count hcount, fun _ => offsetTag_overflow h.count hcount⟩

end Within

theorem CanRead.mono {d : Config} {gen : TaintGenerator N} {o o' : Int} (h : CanRead d gen o')
    (hle : o ≤ o') : CanRead d gen o where
  count := by
    have hcount := h.count
    omega
  arrays := h.arrays.mono hle
  draws := h.draws.mono (started_mono d (by omega))

/-! ## The bytes of one call -/

section Call

variable {d : Config} {gen : TaintGenerator N}

/-- **A call that starts at or before the first range** gives its bytes the
    marks they should have, if it can take the last of them. -/
theorem Within.steps (n : Nat) {o : Int} {l : OffsetLoop N} {done rest : List (Int × Int)}
    (h : Within d gen o l done rest) :
    (n = 0 ∨ CanRead d gen (o + n - 1) → ∃ tags l', offsetTags d.toDatFile n l = some (tags, l')
        ∧ tags.length = n ∧ l'.count + 1 = o + n
        ∧ l'.taintGen = some (advance (started d (o + n)) gen)
        ∧ ∀ i < n, ∀ t, tags[i]? = some (some t) ↔ Expected d gen (o + i) t)
      ∧ (¬ (n = 0 ∨ CanRead d gen (o + n - 1)) → offsetTags d.toDatFile n l = none) := by
  induction n generalizing o l done rest with
  | zero =>
      refine ⟨fun _ => ⟨[], l, rfl, rfl, ?_, ?_, fun i hi => absurd hi (Nat.not_lt_zero i)⟩,
        fun hnot => absurd (Or.inl rfl) hnot⟩
      · rw [h.count]
        simp
      · rw [Int.natCast_zero, Int.add_zero, h.started_eq.1]
        exact h.taintGen
  | succ n ih =>
      have hlast : o + ((n + 1 : Nat) : Int) - 1 = o + n := by omega
      rw [hlast]
      by_cases hread : CanRead d gen o
      · obtain ⟨tag, l', done', rest', htag, hwithin, hexpected⟩ := h.step.1 hread
        obtain ⟨hsome, hnone⟩ := ih hwithin
        have hnext : (n = 0 ∨ CanRead d gen (o + 1 + n - 1)) ↔ CanRead d gen (o + n) := by
          rw [show o + 1 + (n : Int) - 1 = o + n by omega]
          refine or_iff_right_of_imp ?_
          rintro rfl
          rwa [Int.natCast_zero, Int.add_zero]
        rw [hnext] at hsome hnone
        rw [offsetTags, htag]
        constructor
        · rintro (hcontra | hcan)
          · cases hcontra
          obtain ⟨tags, l'', htags, hlen, hcount, hgen, hall⟩ := hsome hcan
          have hend : o + 1 + (n : Int) = o + ((n + 1 : Nat) : Int) := by omega
          rw [hend] at hcount hgen
          refine ⟨tag :: tags, l'', ?_, by rw [List.length_cons, hlen], hcount, hgen,
            fun i hi t => ?_⟩
          · simp [htags]
          · cases i with
            | zero =>
                rw [List.getElem?_cons_zero, Option.some_inj, hexpected]
                simp
            | succ i =>
                rw [List.getElem?_cons_succ, hall i (by omega),
                  show o + 1 + (i : Int) = o + ((i + 1 : Nat) : Int) by omega]
        · intro hnot
          have hcan : ¬ CanRead d gen (o + n) := fun hcan => hnot (Or.inr hcan)
          simp [hnone hcan]
      · constructor
        · rintro (hcontra | hcan)
          · cases hcontra
          · exact absurd (hcan.mono (by omega)) hread
        · intro _
          rw [offsetTags, h.step.2 hread]
          rfl

theorem range_zero (d : Config) : d.toDatFile.range 0 = some d.first := rfl

/-- A call that starts behind the first range taints no byte. -/
theorem offsetTags_behind (n : Nat) {o : Int} {l : OffsetLoop N} (hcount : l.count + 1 = o)
    (hindex : l.index = 0) (hbehind : d.first.2 < o) :
    (n = 0 ∨ o + n - 1 < 2 ^ 31 → offsetTags d.toDatFile n l
        = some (List.replicate n none, { l with count := l.count + n }))
      ∧ (¬ (n = 0 ∨ o + n - 1 < 2 ^ 31) → offsetTags d.toDatFile n l = none) := by
  induction n generalizing o l with
  | zero =>
      refine ⟨fun _ => ?_, fun hnot => absurd (Or.inl rfl) hnot⟩
      rw [Int.natCast_zero, Int.add_zero]
      rfl
  | succ n ih =>
      by_cases ho : o < 2 ^ 31
      · have hskip : offsetTag d.toDatFile l = some (none, { l with count := o }) :=
          offsetTag_skip hcount ho (by rw [hindex]; exact range_zero d) (Or.inr hbehind)
        obtain ⟨hsome, hnone⟩ := ih (o := o + 1) (l := { l with count := o }) rfl hindex (by omega)
        rw [offsetTags, hskip]
        constructor
        · rintro (hcontra | hlt)
          · cases hcontra
          have htags := hsome (Or.inr (by omega))
          have hend : o + (n : Int) = l.count + ((n + 1 : Nat) : Int) := by omega
          rw [show ({ l with count := o } : OffsetLoop N).count = o from rfl, hend] at htags
          simp [htags, List.replicate_succ]
        · intro hnot
          have hfail : ¬ (n = 0 ∨ o + 1 + (n : Int) - 1 < 2 ^ 31) := by omega
          simp [hnone hfail]
      · constructor
        · omega
        · intro _
          rw [offsetTags, offsetTag_overflow hcount ho]
          rfl

/-- A call that starts inside the first range fails at its first byte. -/
theorem offsetTags_inside {n : Nat} (hn : n ≠ 0) {o : Int} {l : OffsetLoop N}
    (hcount : l.count + 1 = o) (hindex : l.index = 0) (hflag : l.flag = false) (htag : l.tag = -1)
    (hafter : d.first.1 < o) (hbefore : o ≤ d.first.2) : offsetTags d.toDatFile n l = none := by
  obtain ⟨n, rfl⟩ := Nat.exists_eq_succ_of_ne_zero hn
  have hfail : offsetTag d.toDatFile l = none := by
    by_cases ho : o < 2 ^ 31
    · have hkeep := offsetTag_keep hcount ho (by rw [hindex]; exact range_zero d) (by omega) hflag
        (by omega)
      rw [hkeep, htag, if_neg (by decide)]
    · exact offsetTag_overflow hcount ho
  rw [offsetTags, hfail]
  rfl

/-- Without ranges, the byte at 0 is tainted. -/
theorem offsetTags_empty (hempty : d.ranges = []) {n : Nat} {l l' : OffsetLoop N}
    {tags : List (Option Nat)} (hcount : l.count + 1 = 0) (hindex : l.index = 0)
    (hgen : l.taintGen = some gen) (htags : offsetTags d.toDatFile (n + 1) l = some (tags, l')) :
    ∃ t, tags[0]? = some (some t) := by
  have hfirst : d.first = (0, 0) := by
    rw [Config.first, hempty]
    rfl
  have hrange : d.toDatFile.range l.index = some (0, 0) := by
    rw [hindex, range_zero, hfirst]
  rw [offsetTags] at htags
  cases hnext : nextTaintMark gen with
  | none =>
      rw [offsetTag_draw_none hcount (by decide) hrange (by decide) rfl hgen hnext] at htags
      cases htags
  | some p =>
      obtain ⟨tag, gen'⟩ := p
      rw [offsetTag_draw hcount (by decide) hrange (by decide) rfl hgen hnext] at htags
      obtain ⟨first, hfst, hrest⟩ := Option.bind_eq_some_iff.mp htags
      obtain ⟨others, -, heq⟩ := Option.bind_eq_some_iff.mp hrest
      cases hfst
      cases heq
      exact ⟨tag, rfl⟩

end Call

/-! ## Reading a file in chunks -/

/-- A successful `read` of a part of the file: its result is a byte count, and
    its buffer ends below the top of the address space. -/
structure Chunk (ws : WordSize) where
  args : SyscallArguments ws
  successful : (int args.ret).toNat < 2 ^ 31
  noWrap : args.arg1.toNat + (int args.ret).toNat < 2 ^ ws.bits

/-- The number of bytes read. -/
def Chunk.len (c : Chunk ws) : Nat := (int c.args.ret).toNat

/-- The addresses of the bytes read, in the order of the file. -/
def Chunk.bytes (c : Chunk ws) : List (Addr ws) :=
  addrRange c.args.arg1 (ofInt ws (int c.args.ret))

/-- The file up to `offset` has been read. -/
structure Reading (ws : WordSize) (N : Nat) where
  offset : Nat
  globals : Globals ws N

/-- Deliver the next chunk to the callback. -/
def readChunk (d : Config) (c : Chunk ws) (r : Reading ws N) : Option (Reading ws N) :=
  (pathSourceReadCallbackPerOffset d.toDatFile c.args r.globals).map
    fun g => ⟨r.offset + c.len, g⟩

/-- The chunk is tainted as configured, whatever the split: nothing fails, each
    byte has the mark of the range that contains its offset, or none, and the
    generator has been drawn from once for each range up to here.  `gen` is the
    generator at the start of the file. -/
def AsConfigured (d : Config) (gen : Option (TaintGenerator N)) (c : Chunk ws)
    (r : Reading ws N) : Prop :=
  ∃ g', pathSourceReadCallbackPerOffset d.toDatFile c.args r.globals = some g'
    ∧ g'.taintGen = gen.map (advance (started d (r.offset + c.len)))
    ∧ ∀ (i : Nat) a, c.bytes[i]? = some a →
        marksAt g'.state (.mem a) = {t | ∃ gen₀ ∈ gen, Expected d gen₀ (r.offset + i) t}

/-- The chunk starts at or before the first range, the callback can take its
    last byte, and its bytes outside of the ranges are read to addresses
    without marks. -/
def StartsBefore (d : Config) (gen : TaintGenerator N) (c : Chunk ws) (r : Reading ws N) : Prop :=
  d.ranges ≠ [] ∧ (r.offset : Int) ≤ d.first.1 ∧ CanRead d gen (r.offset + c.len - 1)
    ∧ ∀ (i : Nat) a, c.bytes[i]? = some a → (∀ t, ¬ Expected d gen (r.offset + i) t) →
        marksAt r.globals.state (.mem a) = ∅

/-- The chunk starts behind the first range, needs no new mark, and its bytes
    are read to addresses that have the right marks already. -/
def StaysBehind (d : Config) (gen : TaintGenerator N) (c : Chunk ws) (r : Reading ws N) : Prop :=
  d.first.2 < r.offset ∧ (r.offset : Int) + c.len - 1 < 2 ^ 31
    ∧ advance (started d (r.offset + c.len)) gen = advance (started d r.offset) gen
    ∧ ∀ (i : Nat) a, c.bytes[i]? = some a →
        marksAt r.globals.state (.mem a) = {t | Expected d gen (r.offset + i) t}

/-- The condition for a chunk to be tainted as configured. -/
def ReadsWhole (d : Config) (gen : Option (TaintGenerator N)) (c : Chunk ws)
    (r : Reading ws N) : Prop :=
  c.len = 0 ∨ ∃ gen₀ ∈ gen, StartsBefore d gen₀ c r ∨ StaysBehind d gen₀ c r

/-- The static counter stands at the last byte read, and the generator has been
    drawn from once for each range so far. -/
structure OnTrack (d : Config) (gen : Option (TaintGenerator N)) (r : Reading ws N) : Prop where
  count : r.globals.count + 1 = r.offset
  taintGen : r.globals.taintGen = gen.map (advance (started d r.offset))

theorem Chunk.bytes_length (c : Chunk ws) : c.bytes.length = c.len := by
  have hsize : (ofInt ws (int c.args.ret)).toNat = (int c.args.ret).toNat :=
    ofInt_toNat c.successful
  have hwrap := c.noWrap
  rw [← hsize] at hwrap
  rw [Chunk.bytes, addrRange_length hwrap, hsize]
  rfl

theorem Chunk.toInt_eq (c : Chunk ws) : (int c.args.ret).toInt = c.len := by
  have hlt := c.successful
  rw [BitVec.toInt_eq_toNat_of_lt (by omega)]
  rfl

/-- A chunk without bytes changes nothing. -/
theorem callback_of_empty (d : Config) {c : Chunk ws} (h : c.len = 0) (g : Globals ws N) :
    pathSourceReadCallbackPerOffset d.toDatFile c.args g = some g :=
  if_pos (by rw [c.toInt_eq, h]; decide)

theorem callback_of_noGenerator (d : Config) {c : Chunk ws} (h : c.len ≠ 0) {g : Globals ws N}
    (hgen : g.taintGen = none) :
    pathSourceReadCallbackPerOffset d.toDatFile c.args g = none := by
  rw [pathSourceReadCallbackPerOffset, if_neg (by rw [c.toInt_eq]; omega), hgen]
  rfl

/-- The callback stores the tags of its bytes. -/
theorem callback_eq (d : Config) {c : Chunk ws} (h : c.len ≠ 0) {g : Globals ws N}
    {gen : TaintGenerator N} (hgen : g.taintGen = some gen) :
    pathSourceReadCallbackPerOffset d.toDatFile c.args g
      = (offsetTags d.toDatFile c.len ⟨g.count, false, 0, -1, some gen⟩).map fun p =>
          { g.setMem (writeTags N (c.bytes.zip p.1) g.memTaintMap) with
            count := p.2.count
            taintGen := p.2.taintGen } := by
  have hneg : (-1 : Int) < N := by omega
  have hloop := foldlM_offsetByte (l := (⟨g.count, false, 0, -1, some gen⟩ : OffsetLoop N))
    d.toDatFile c.bytes hneg g.memTaintMap
  rw [c.bytes_length] at hloop
  rw [pathSourceReadCallbackPerOffset, if_neg (by rw [c.toInt_eq]; omega), hgen,
    if_pos Option.isSome_some]
  show ((c.bytes.foldlM (offsetByte d.toDatFile) _).bind _) = _
  rw [hloop]
  cases offsetTags d.toDatFile c.len ⟨g.count, false, 0, -1, some gen⟩ <;> rfl

/-- What a call that returns tells about its tags. -/
theorem asConfigured_iff_tags {d : Config} {gen gen₁ : TaintGenerator N} {c : Chunk ws}
    {r : Reading ws N} (hlen : c.len ≠ 0) (hgen : r.globals.taintGen = some gen₁)
    {tags : List (Option Nat)} {l' : OffsetLoop N}
    (htags : offsetTags d.toDatFile c.len ⟨r.globals.count, false, 0, -1, some gen₁⟩
      = some (tags, l')) :
    AsConfigured d (some gen) c r
      ↔ l'.taintGen = some (advance (started d (r.offset + c.len)) gen)
        ∧ ∀ (i : Nat) a, c.bytes[i]? = some a →
          (match tags[i]? with
            | some (some t) => {t}
            | _ => marksAt r.globals.state (.mem a))
            = {t | Expected d gen (r.offset + i) t} := by
  have hcall := callback_eq d hlen hgen
  rw [htags, Option.map_some] at hcall
  have hneg : (-1 : Int) < N := by omega
  obtain ⟨htagsLen, -, htagsLt⟩ := offsetTags_length htags
  have hsame : tags.length = c.bytes.length := by rw [htagsLen, c.bytes_length]
  have hmarks : ∀ (i : Nat) a, c.bytes[i]? = some a →
      entryMarks (writeTags N (c.bytes.zip tags) r.globals.memTaintMap)[a]?
        = match tags[i]? with
          | some (some t) => {t}
          | _ => marksAt r.globals.state (.mem a) := by
    intro i a ha
    cases htag : tags[i]? with
    | none =>
        have hi := (List.getElem?_eq_some_iff.mp ha).1
        rw [List.getElem?_eq_none_iff] at htag
        omega
    | some tag =>
        cases tag with
        | some t => exact writeTags_range_some hsame ha htag (htagsLt hneg i t htag) _
        | none =>
            show entryMarks _ = marksAt r.globals.state (.mem a)
            rw [Chunk.bytes, writeTags_range_none ha htag]
            rfl
  have hexpected : ∀ o : Int, {t | ∃ gen₀ ∈ some gen, Expected d gen₀ o t}
      = {t | Expected d gen o t} := by
    intro o
    ext t
    simp
  constructor
  · rintro ⟨g', hg', hgen', hbytes⟩
    rw [hcall] at hg'
    cases hg'
    refine ⟨hgen', fun i a ha => ?_⟩
    rw [← hmarks i a ha, ← hexpected]
    exact hbytes i a ha
  · rintro ⟨hgen', hbytes⟩
    refine ⟨_, hcall, hgen', fun i a ha => ?_⟩
    rw [hexpected, ← hbytes i a ha, ← hmarks i a ha]
    rfl

/-- A call that does not return taints nothing as configured. -/
theorem not_asConfigured {d : Config} {gen : Option (TaintGenerator N)} {gen₁ : TaintGenerator N}
    {c : Chunk ws} {r : Reading ws N} (hlen : c.len ≠ 0) (hgen : r.globals.taintGen = some gen₁)
    (htags : offsetTags d.toDatFile c.len ⟨r.globals.count, false, 0, -1, some gen₁⟩ = none) :
    ¬ AsConfigured d gen c r := by
  rintro ⟨g', hg', -⟩
  rw [callback_eq d hlen hgen, htags] at hg'
  exact nomatch hg'

theorem first_mem {d : Config} (h : d.ranges ≠ []) : d.first ∈ d.ranges := by
  rw [Config.first]
  cases hranges : d.ranges with
  | nil => exact absurd hranges h
  | cons r rest => exact List.mem_cons_self

theorem first_le (d : Config) : d.first.1 ≤ d.first.2 := by
  by_cases h : d.ranges = []
  · rw [Config.first, h]
    decide
  · exact d.le _ (first_mem h)

/-- The first range starts before the others. -/
theorem first_le_of_mem {d : Config} {r : Int × Int} (hr : r ∈ d.ranges) : d.first.1 ≤ r.1 := by
  have hsorted := d.lt
  have hle := d.le
  rw [Config.first]
  cases hranges : d.ranges with
  | nil =>
      rw [hranges] at hr
      exact absurd hr List.not_mem_nil
  | cons r₀ rest =>
      rw [hranges] at hr hsorted hle
      rcases List.mem_cons.mp hr with rfl | hrest
      · exact Int.le_refl _
      · have hlt := (List.pairwise_cons.mp hsorted).1 r hrest
        have hle₀ := hle r₀ List.mem_cons_self
        show r₀.1 ≤ r.1
        omega

section Split

variable {d : Config} {gen : TaintGenerator N} {c : Chunk ws} {r : Reading ws N}

/-- A call that starts at or before the first range goes through the ranges. -/
theorem within_start (h : OnTrack d (some gen) r) (hranges : d.ranges ≠ [])
    (hfirst : (r.offset : Int) ≤ d.first.1) :
    r.globals.taintGen = some gen
      ∧ Within d gen r.offset ⟨r.globals.count, false, 0, -1, some gen⟩ [] d.ranges := by
  have hnonneg : ∀ x ∈ d.ranges, 0 ≤ x.1 := by
    intro x hx
    have hle := first_le_of_mem hx
    omega
  have hzero : startedIn r.offset [] d.ranges = 0 := by
    simp only [startedIn]
    cases hrs : d.ranges with
    | nil => rfl
    | cons x rest =>
        have hle := first_le_of_mem (d := d) (r := x) (by rw [hrs]; exact List.mem_cons_self)
        show 0 + (if x.1 < r.offset then 1 else 0) = 0
        rw [if_neg (by omega)]
  have hstarted : started d r.offset = 0 := by
    have hsplit : started d r.offset = startedIn r.offset [] d.ranges := by
      refine startedIn_eq hnonneg rfl (fun x hx => absurd hx List.not_mem_nil) fun x hx => ?_
      have hle := first_le_of_mem (List.mem_of_mem_tail hx)
      omega
    rw [hsplit, hzero]
  have hgen := h.taintGen
  rw [hstarted, Option.map_some, advance_zero] at hgen
  refine ⟨hgen, rfl, hnonneg, hranges, h.count, rfl, rfl,
    fun x hx => absurd hx List.not_mem_nil, fun x hx => ?_,
    by rw [hzero, advance_zero], by rw [hzero]; exact canDraw_zero gen⟩
  have hx' := List.mem_of_mem_head? hx
  have hle := first_le_of_mem hx'
  have hxle := d.le x hx'
  exact ⟨by omega, fun hcontra => absurd hcontra (by omega)⟩

theorem asConfigured_iff_startsBefore (h : OnTrack d (some gen) r) (hlen : c.len ≠ 0)
    (hranges : d.ranges ≠ []) (hfirst : (r.offset : Int) ≤ d.first.1) :
    AsConfigured d (some gen) c r ↔ StartsBefore d gen c r := by
  obtain ⟨hgen, hwithin⟩ := within_start h hranges hfirst
  obtain ⟨hsome, hnone⟩ := hwithin.steps c.len
  by_cases hread : CanRead d gen (r.offset + c.len - 1)
  · obtain ⟨tags, l', htags, htagsLen, -, hgen', hexpected⟩ := hsome (Or.inr hread)
    rw [asConfigured_iff_tags hlen hgen htags]
    have hbytes : ∀ (i : Nat) a, c.bytes[i]? = some a →
        ((match tags[i]? with
            | some (some t) => {t}
            | _ => marksAt r.globals.state (.mem a))
            = {t | Expected d gen (r.offset + i) t}
          ↔ ((∀ t, ¬ Expected d gen (r.offset + i) t) →
            marksAt r.globals.state (.mem a) = ∅)) := by
      intro i a ha
      have hi : i < c.len := by
        rw [← c.bytes_length]
        exact (List.getElem?_eq_some_iff.mp ha).1
      have hexp := hexpected i hi
      have htagged : (∃ t, tags[i]? = some (some t)) ∨ ∀ t, tags[i]? ≠ some (some t) := by
        by_cases hex : ∃ t, tags[i]? = some (some t)
        · exact Or.inl hex
        · exact Or.inr fun t ht => hex ⟨t, ht⟩
      rcases htagged with ⟨t, ht⟩ | hnot
      · have hset : {t' | Expected d gen (r.offset + i) t'} = {t} := by
          ext t'
          show Expected d gen (r.offset + i) t' ↔ t' ∈ ({t} : Set Nat)
          rw [← hexp t', ht]
          simp [eq_comm]
        rw [ht, hset]
        exact iff_of_true rfl fun hno => absurd ((hexp t).mp ht) (hno t)
      · have hno : ∀ t, ¬ Expected d gen (r.offset + i) t := fun t ht => hnot t ((hexp t).mpr ht)
        have hset : {t' | Expected d gen (r.offset + i) t'} = (∅ : Set Nat) := by
          ext t'
          exact iff_of_false (hno t') (Set.notMem_empty t')
        have hmatch : (match tags[i]? with
            | some (some t) => {t}
            | _ => marksAt r.globals.state (.mem a)) = marksAt r.globals.state (.mem a) := by
          cases htag : tags[i]? with
          | none => rfl
          | some tag =>
              cases tag with
              | none => rfl
              | some t => exact absurd htag (hnot t)
        rw [hmatch, hset]
        exact ⟨fun hm _ => hm, fun hm => hm hno⟩
    constructor
    · rintro ⟨-, hall⟩
      exact ⟨hranges, hfirst, hread, fun i a ha => (hbytes i a ha).mp (hall i a ha)⟩
    · rintro ⟨-, -, -, hall⟩
      exact ⟨hgen', fun i a ha => (hbytes i a ha).mpr (hall i a ha)⟩
  · have htags := hnone fun hor => hor.elim hlen hread
    exact iff_of_false (not_asConfigured hlen hgen htags) fun hstart => hread hstart.2.2.1

theorem asConfigured_iff_staysBehind (h : OnTrack d (some gen) r) (hlen : c.len ≠ 0)
    (hbehind : d.first.2 < r.offset) :
    AsConfigured d (some gen) c r ↔ StaysBehind d gen c r := by
  have hgen := h.taintGen
  rw [Option.map_some] at hgen
  obtain ⟨hsome, hnone⟩ := offsetTags_behind (d := d)
    (l := ⟨r.globals.count, false, 0, -1, some (advance (started d r.offset) gen)⟩)
    c.len h.count rfl hbehind
  by_cases hlast : (r.offset : Int) + c.len - 1 < 2 ^ 31
  · rw [asConfigured_iff_tags hlen hgen (hsome (Or.inr hlast))]
    have hmatch : ∀ (i : Nat) a, c.bytes[i]? = some a →
        (match (List.replicate c.len (none : Option Nat))[i]? with
          | some (some t) => ({t} : Set Nat)
          | _ => marksAt r.globals.state (.mem a)) = marksAt r.globals.state (.mem a) := by
      intro i a ha
      have hi : i < c.len := by
        rw [← c.bytes_length]
        exact (List.getElem?_eq_some_iff.mp ha).1
      rw [List.getElem?_replicate, if_pos hi]
    constructor
    · rintro ⟨hadvance, hall⟩
      refine ⟨hbehind, hlast, (Option.some.inj hadvance).symm, fun i a ha => ?_⟩
      rw [← hall i a ha, hmatch i a ha]
    · rintro ⟨-, -, hadvance, hall⟩
      refine ⟨congrArg some hadvance.symm, fun i a ha => ?_⟩
      rw [hmatch i a ha, hall i a ha]
  · have htags := hnone fun hor => hor.elim hlen hlast
    exact iff_of_false (not_asConfigured hlen hgen htags) fun hstays => hlast hstays.2.1

/-- A call that starts inside the first range, or at 0 without ranges. -/
theorem not_asConfigured_between (h : OnTrack d (some gen) r) (hlen : c.len ≠ 0)
    (hstart : ¬ (d.ranges ≠ [] ∧ (r.offset : Int) ≤ d.first.1)) (hbehind : ¬ d.first.2 < r.offset) :
    ¬ AsConfigured d (some gen) c r := by
  have hgen := h.taintGen
  rw [Option.map_some] at hgen
  by_cases hempty : d.ranges = []
  · have hfirst : d.first = (0, 0) := by
      rw [Config.first, hempty]
      rfl
    have hzero : (r.offset : Int) = 0 := by
      rw [hfirst] at hbehind
      show (r.offset : Int) = 0
      omega
    obtain ⟨n, hn⟩ := Nat.exists_eq_succ_of_ne_zero hlen
    have hcount := h.count
    rw [hzero] at hcount
    cases htags : offsetTags d.toDatFile c.len
        ⟨r.globals.count, false, 0, -1, some (advance (started d r.offset) gen)⟩ with
    | none => exact not_asConfigured hlen hgen htags
    | some p =>
        obtain ⟨tags, l'⟩ := p
        rw [asConfigured_iff_tags hlen hgen htags]
        rintro ⟨-, hall⟩
        rw [hn] at htags
        obtain ⟨t, ht⟩ := offsetTags_empty hempty hcount rfl rfl htags
        obtain ⟨a, ha⟩ : ∃ a, c.bytes[0]? = some a := by
          have hpos : 0 < c.bytes.length := by
            rw [c.bytes_length]
            omega
          exact ⟨_, List.getElem?_eq_getElem hpos⟩
        have hmem : t ∈ {t | Expected d gen (r.offset + (0 : Nat)) t} := by
          rw [← hall 0 a ha, ht]
          exact Set.mem_singleton t
        obtain ⟨k, x, hk, -⟩ := hmem
        rw [Config.fileRanges, hempty] at hk
        exact nomatch hk
  · have hafter : d.first.1 < r.offset := Int.not_le.mp fun hle => hstart ⟨hempty, hle⟩
    exact not_asConfigured hlen hgen
      (offsetTags_inside hlen h.count rfl rfl rfl hafter (Int.not_lt.mp hbehind))

end Split

/-- **One chunk** is tainted as configured exactly under the condition. -/
theorem asConfigured_iff {d : Config} {gen : Option (TaintGenerator N)} {r : Reading ws N}
    (h : OnTrack d gen r) (c : Chunk ws) : AsConfigured d gen c r ↔ ReadsWhole d gen c r := by
  by_cases hlen : c.len = 0
  · refine iff_of_true ⟨r.globals, callback_of_empty d hlen _, ?_, fun i a ha => ?_⟩ (Or.inl hlen)
    · rw [hlen, Int.natCast_zero, Int.add_zero]
      exact h.taintGen
    · have hi := (List.getElem?_eq_some_iff.mp ha).1
      rw [c.bytes_length, hlen] at hi
      exact absurd hi (Nat.not_lt_zero i)
  · rw [ReadsWhole]
    rw [or_iff_right hlen]
    cases gen with
    | none =>
        refine iff_of_false ?_ fun ⟨_, hgen, _⟩ => nomatch hgen
        rintro ⟨g', hg', -⟩
        rw [callback_of_noGenerator d hlen h.taintGen] at hg'
        exact nomatch hg'
    | some gen =>
        have hsome : (∃ gen₀ ∈ some gen, StartsBefore d gen₀ c r ∨ StaysBehind d gen₀ c r)
            ↔ StartsBefore d gen c r ∨ StaysBehind d gen c r := by
          simp
        rw [hsome]
        have hle := first_le d
        by_cases hstart : d.ranges ≠ [] ∧ (r.offset : Int) ≤ d.first.1
        · rw [asConfigured_iff_startsBefore h hlen hstart.1 hstart.2]
          refine (or_iff_left ?_).symm
          intro hstays
          have hbehind := hstays.1
          have hfirst := hstart.2
          omega
        · by_cases hbehind : d.first.2 < r.offset
          · rw [asConfigured_iff_staysBehind h hlen hbehind]
            refine (or_iff_right ?_).symm
            exact fun hs => hstart ⟨hs.1, hs.2.1⟩
          · refine iff_of_false (not_asConfigured_between h hlen hstart hbehind) ?_
            rintro (hs | hs)
            · exact hstart ⟨hs.1, hs.2.1⟩
            · exact hbehind hs.1

/-- A chunk tainted as configured keeps the reading on track. -/
theorem onTrack_step {d : Config} {gen : Option (TaintGenerator N)} {c : Chunk ws}
    {r r' : Reading ws N} (h : OnTrack d gen r) (hok : AsConfigured d gen c r)
    (hstep : readChunk d c r = some r') : OnTrack d gen r' := by
  obtain ⟨g', hg', hgen, -⟩ := hok
  rw [readChunk, hg'] at hstep
  cases hstep
  refine ⟨?_, ?_⟩
  · show g'.count + 1 = ((r.offset + c.len : Nat) : Int)
    have hcount := h.count
    by_cases hlen : c.len = 0
    · rw [callback_of_empty d hlen] at hg'
      cases hg'
      omega
    · cases hgen₁ : r.globals.taintGen with
      | none =>
          rw [callback_of_noGenerator d hlen hgen₁] at hg'
          exact nomatch hg'
      | some gen₁ =>
          rw [callback_eq d hlen hgen₁, Option.map_eq_some_iff] at hg'
          obtain ⟨⟨tags, l'⟩, htags, rfl⟩ := hg'
          have hcount' := (offsetTags_length htags).2.1
          show l'.count + 1 = _
          rw [hcount']
          show r.globals.count + c.len + 1 = _
          omega
  · show g'.taintGen = gen.map (advance (started d ((r.offset + c.len : Nat) : Int)))
    rw [hgen, Int.natCast_add]

/-- The file before its first read. -/
def startOfFile (g : Globals ws N) : Reading ws N := ⟨0, { g with count := -1 }⟩

theorem onTrack_start (d : Config) (g : Globals ws N) :
    OnTrack d g.taintGen (startOfFile g) where
  count := rfl
  taintGen := by
    have hzero : started d ((0 : Nat) : Int) = 0 := by
      rw [started]
      generalize d.fileRanges = rs
      cases rs with
      | nil => rfl
      | cons x rest =>
          rw [List.takeWhile_cons, if_neg (by simp)]
          rfl
    show g.taintGen = g.taintGen.map (advance (started d ((0 : Nat) : Int)))
    rw [hzero]
    cases g.taintGen with
    | none => rfl
    | some gen => rw [Option.map_some, advance_zero]

/-- **A file read in chunks is tainted as configured exactly if every chunk
    meets the condition.** -/
theorem chunks_asConfigured_iff (d : Config) (g : Globals ws N) (chunks : List (Chunk ws)) :
    EachStep (readChunk d) (AsConfigured d g.taintGen) chunks (startOfFile g)
      ↔ EachStep (readChunk d) (ReadsWhole d g.taintGen) chunks (startOfFile g) :=
  eachStep_congr (fun c _ h => asConfigured_iff h c)
    (fun _ _ _ h hok hstep => onTrack_step h hok hstep) chunks (onTrack_start d g)

/-- One range: the bytes 1 to 4. -/
def oneRange : Config where
  ranges := [(1, 4)]
  length_le := by decide
  le := by decide
  lt := by decide

/-- A read of three bytes into a buffer at 100. -/
def threeBytes : Chunk .w64 where
  args := SyscallArguments.ofArgs 3 100 3 3
  successful := by decide
  noWrap := by decide

/-- The globals with a generator of 32 marks. -/
def thirtyTwoMarks : Globals .w64 32 :=
  { Globals.init .w64 32 with taintGen := some (.counting 1 32 (by decide) (by decide)) }

/-- A file whose range lies across two reads: the second read starts inside the
    range, and the callback fails. -/
theorem split_range_fails :
    ∃ r, readChunk oneRange threeBytes (startOfFile thirtyTwoMarks) = some r
      ∧ readChunk oneRange threeBytes r = none := by
  have hfirst := callback_eq oneRange (c := threeBytes) (by decide)
    (g := (startOfFile thirtyTwoMarks).globals) rfl
  rw [show offsetTags oneRange.toDatFile threeBytes.len
      ⟨(startOfFile thirtyTwoMarks).globals.count, false, 0, -1,
        some (.counting 1 32 (by decide) (by decide))⟩
    = some ([none, some 2, some 2], ⟨2, false, 0, 2,
        some (.counting 2 32 (by decide) (by decide))⟩) from rfl, Option.map_some] at hfirst
  refine ⟨_, by rw [readChunk, hfirst]; rfl, ?_⟩
  rw [readChunk, callback_eq oneRange (by decide) rfl]
  rfl

end DytanPerOffset
