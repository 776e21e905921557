import Mathlib.Data.Nat.ModEq
import Dytan.FailedCallProofs
import Dytan.SizeInvariantProofs

/-! # User tags — names that the program gives to its bytes

    A program that runs under the tool may call `DYTAN_tag` to give the bytes of
    a range a name, and `DYTAN_display` to have the marks of a range printed.
    Each name gets a mark the first time it is used.

    What the program means by this is a label for each byte: the name it was
    given last.  The tool keeps the marks of these labels (`tagging_refines`), so
    that a display prints the marks of the labels in its range.  They tell the
    labels as long as the program uses no more names than the generator has
    marks; with one name more, two names share a mark (`display_tells`). -/

namespace DytanUserTags

open DytanBitset DytanRegister DytanTaintState DytanMarkFlow DytanSyscallState DytanTaintSource
open DytanSizeInvariant DytanFailedCall Runs

variable {ws : WordSize} {N : Nat}

/-- The arguments of a call of `DYTAN_tag`. -/
structure Tagging (ws : WordSize) where
  start : Addr ws
  size : Addr ws
  name : String

/-- Execute a call. -/
def tagging (c : Tagging ws) (g : Globals ws N) : Option (Globals ws N) :=
  assignTagToByteRange c.start c.size c.name g

/-- The tool before the first call. -/
def fresh (ws : WordSize) (gen : TaintGenerator N) : Globals ws N :=
  { Globals.init ws N with taintGen := some gen }

/-- What the program has said: the names it has used, in order of their first
    use, and the label of each byte. -/
structure Labels (ws : WordSize) where
  names : List String
  label : Addr ws → Option String

def Labels.none : Labels ws := ⟨[], fun _ => Option.none⟩

/-- A call gives the bytes of its range its name. -/
def Labels.tag (l : Labels ws) (c : Tagging ws) : Labels ws where
  names := if c.name ∈ l.names then l.names else l.names ++ [c.name]
  label := fun a => if (addrRange c.start c.size).contains a then some c.name else l.label a

theorem label_tag (l : Labels ws) (c : Tagging ws) (a : Addr ws) :
    (l.tag c).label a = if a ∈ addrRange c.start c.size then some c.name else l.label a := by
  show (if (addrRange c.start c.size).contains a = true then _ else _) = _
  by_cases ha : a ∈ addrRange c.start c.size
  · rw [if_pos ha, if_pos (List.contains_iff_mem.mpr ha)]
  · rw [if_neg ha, if_neg fun h => ha (List.contains_iff_mem.mp h)]

/-- The labels after some calls. -/
def labels (calls : List (Tagging ws)) : Labels ws := calls.foldl Labels.tag .none

/-- The mark of a name. -/
def markOf (gen : TaintGenerator N) (names : List String) (name : String) : Nat :=
  tagAt gen (names.idxOf name)

/-- The tool keeps the labels: a mark for each name, in the order of their first
    use, and at each byte the mark of its label. -/
structure Keeps (gen : TaintGenerator N) (l : Labels ws) (g : Globals ws N) : Prop where
  taintGen : g.taintGen = some (advance l.names.length gen)
  tagMap : ∀ name, g.tagMap name = if name ∈ l.names then some (markOf gen l.names name) else none
  bytes : ∀ a, g.memTaintMap[a]?
    = (l.label a).map fun name => markOnly ws N (markOf gen l.names name)
  named : ∀ a name, l.label a = some name → name ∈ l.names
  nodup : l.names.Nodup
  sized : SizedState g.state
  noControl : g.state.controlTaintMap = ∅

variable {gen : TaintGenerator N} {l : Labels ws} {g g' : Globals ws N}

theorem keeps_fresh (gen : TaintGenerator N) : Keeps gen .none (fresh ws gen) where
  taintGen := by
    show some gen = some (advance 0 gen)
    rw [advance_zero]
  tagMap := fun _ => rfl
  bytes := fun _ => Std.ExtTreeMap.getElem?_empty
  named := nofun
  nodup := .nil
  sized := init_sized
  noControl := rfl

/-! ## One call -/

/-- A new name changes no mark. -/
theorem markOf_append (gen : TaintGenerator N) {names : List String} {name : String}
    (h : name ∈ names) (more : List String) : markOf gen (names ++ more) name = markOf gen names name := by
  rw [markOf, markOf, List.idxOf_append_of_mem h]

theorem markOf_new (gen : TaintGenerator N) {names : List String} {name : String} (h : name ∉ names) :
    markOf gen (names ++ [name]) name = tagAt gen names.length := by
  rw [markOf, List.idxOf_append_of_notMem h, List.idxOf_cons_self, Nat.add_zero]

theorem tagAt_advance (gen : TaintGenerator N) (k : Nat) : tagAt (advance k gen) 0 = tagAt gen k := by
  cases gen with
  | counting current max pos le => rfl
  | constant seed lt => rfl

theorem canDraw_advance {gen : TaintGenerator N} {k : Nat} (h : CanDraw gen (k + 1)) :
    CanDraw (advance k gen) 1 := by
  cases gen with
  | counting current max pos le =>
      rcases h with h | h
      · exact nomatch h
      · exact Or.inr (by omega)
  | constant seed lt => trivial

/-- The bytes of a range get the mark of a name. -/
theorem Keeps.store (h : Keeps gen l g) (c : Tagging ws) {names : List String}
    {g₁ : Globals ws N} (hstate : g₁.state = g.state)
    (hsame : ∀ name ∈ l.names, markOf gen names name = markOf gen l.names name) (a : Addr ws) :
    (g₁.setMem (copyRange (markOnly ws N (markOf gen names c.name)) c.start c.size
        g₁.memTaintMap)).memTaintMap[a]?
      = ((l.tag c).label a).map fun name => markOnly ws N (markOf gen names name) := by
  have hlt : markOf gen names c.name < N := tagAt_lt gen _
  show (copyRange _ c.start c.size g₁.state.memTaintMap)[a]? = _
  rw [copyRange_getElem? (markOnly_spec hlt).1, hstate, label_tag]
  split
  · rfl
  · rw [h.bytes a]
    cases hlabel : l.label a with
    | none => rfl
    | some name => exact congrArg (fun t => some (markOnly ws N t)) (hsame name (h.named a name hlabel)).symm

theorem sizedState_store (g₁ : Globals ws N) (hs : SizedState g₁.state) {t : Nat} (ht : t < N)
    (start size : Addr ws) :
    SizedState (g₁.setMem (copyRange (markOnly ws N t) start size g₁.memTaintMap)).state where
  entries := by
    intro p b hb
    cases p with
    | mem a =>
        have hget : (copyRange (markOnly ws N t) start size g₁.memTaintMap)[a]? = some b := hb
        rw [copyRange_getElem? (markOnly_spec ht).1] at hget
        split at hget
        · cases hget
          exact (markOnly_spec ht).1
        · exact hs.entries (.mem a) b hget
    | reg r => exact hs.entries (.reg r) b hb
    | ctl a => exact hs.entries (.ctl a) b hb
    | scr x => exact hs.entries (.scr x) b hb
  tags := hs.tags

/-- **One call** keeps the labels, if the generator has a mark for its name. -/
theorem tagging_refines (h : Keeps gen l g) (c : Tagging ws)
    (hdraw : CanDraw gen (l.tag c).names.length) :
    ∃ g', tagging c g = some g' ∧ Keeps gen (l.tag c) g' := by
  have hgen : g.taintGen.isSome = true := by
    rw [h.taintGen]
    rfl
  have hlabelled : ∀ a name, (l.tag c).label a = some name → name = c.name ∨ name ∈ l.names := by
    intro a name hname
    rw [label_tag] at hname
    split at hname
    · exact Or.inl (Option.some.inj hname).symm
    · exact Or.inr (h.named a name hname)
  by_cases hmem : c.name ∈ l.names
  · -- the name has its mark
    have hnames : (l.tag c).names = l.names := if_pos hmem
    have htag : g.tagMap c.name = some (markOf gen l.names c.name) := by
      rw [h.tagMap, if_pos hmem]
    have hlt : markOf gen l.names c.name < N := tagAt_lt gen _
    refine ⟨g.setMem (copyRange (markOnly ws N (markOf gen l.names c.name)) c.start c.size
      g.memTaintMap), ?_, ?_⟩
    · rw [tagging, assignTagToByteRange, if_pos hgen, htag]
      show (setTag (bitsetInit ws.bits N) (markOf gen l.names c.name)).bind _ = _
      rw [setTag_init hlt]
      rfl
    · refine ⟨hnames ▸ h.taintGen, hnames ▸ h.tagMap, fun a => ?_, fun a name hname => ?_,
        hnames ▸ h.nodup, sizedState_store g h.sized hlt c.start c.size, h.noControl⟩
      · rw [hnames]
        exact h.store c rfl (fun _ _ => rfl) a
      · rw [hnames]
        exact (hlabelled a name hname).elim (fun heq => heq ▸ hmem) id
  · -- the name gets the next one
    have hnames : (l.tag c).names = l.names ++ [c.name] := if_neg hmem
    have hlen : (l.tag c).names.length = l.names.length + 1 := by
      rw [hnames, List.length_append, List.length_singleton]
    have htag : g.tagMap c.name = none := by
      rw [h.tagMap, if_neg hmem]
    have hnew := markOf_new gen hmem
    have hlt : markOf gen (l.names ++ [c.name]) c.name < N := tagAt_lt gen _
    have hdrawn := (drawMark_spec h.taintGen).1 (canDraw_advance (hlen ▸ hdraw))
    rw [tagAt_advance, ← hnew, advance_advance] at hdrawn
    let g₁ : Globals ws N := { g with
      taintGen := some (advance (l.names.length + 1) gen)
      tagMap := Function.update g.tagMap c.name (some (markOf gen (l.names ++ [c.name]) c.name)) }
    refine ⟨g₁.setMem (copyRange (markOnly ws N (markOf gen (l.names ++ [c.name]) c.name)) c.start
      c.size g₁.memTaintMap), ?_, ?_⟩
    · rw [tagging, assignTagToByteRange, if_pos hgen, htag]
      show ((drawMark g).map _).bind _ = _
      rw [hdrawn]
      show (setTag (bitsetInit ws.bits N) (markOf gen (l.names ++ [c.name]) c.name)).bind _ = _
      rw [setTag_init hlt]
      rfl
    · refine ⟨?_, fun name => ?_, fun a => ?_, fun a name hname => ?_, ?_,
        sizedState_store g₁ h.sized hlt c.start c.size, h.noControl⟩
      · rw [hlen]
        rfl
      · show Function.update g.tagMap c.name _ name = _
        rw [hnames]
        by_cases heq : name = c.name
        · rw [heq, Function.update_self, if_pos (List.mem_append_right _ List.mem_cons_self)]
        · rw [Function.update_of_ne heq, h.tagMap]
          by_cases hold : name ∈ l.names
          · rw [if_pos hold, if_pos (List.mem_append_left _ hold), markOf_append gen hold]
          · rw [if_neg hold, if_neg fun hin => (List.mem_append.mp hin).elim hold
              fun hsingle => heq (List.mem_singleton.mp hsingle)]
      · rw [hnames]
        exact h.store c rfl (fun name hname => markOf_append gen hname _) a
      · rw [hnames]
        rcases hlabelled a name hname with rfl | hold
        · exact List.mem_append_right _ List.mem_cons_self
        · exact List.mem_append_left _ hold
      · rw [hnames]
        exact List.nodup_append.mpr ⟨h.nodup, List.nodup_singleton _, fun x hx y hy heq =>
          hmem ((List.mem_singleton.mp hy) ▸ heq ▸ hx)⟩

theorem names_le_tag (l : Labels ws) (c : Tagging ws) : l.names.length ≤ (l.tag c).names.length := by
  show _ ≤ (if c.name ∈ l.names then l.names else l.names ++ [c.name]).length
  split
  · exact Nat.le_refl _
  · rw [List.length_append]
    exact Nat.le_add_right _ _

theorem names_le_foldl (calls : List (Tagging ws)) (l : Labels ws) :
    l.names.length ≤ (calls.foldl Labels.tag l).names.length := by
  induction calls generalizing l with
  | nil => exact Nat.le_refl _
  | cons c rest ih => exact (names_le_tag l c).trans (ih (l.tag c))

/-- A run keeps the labels. -/
theorem runs_refine (calls : List (Tagging ws)) (h : Keeps gen l g)
    (hdraw : CanDraw gen (calls.foldl Labels.tag l).names.length) :
    ∃ g', runs tagging calls g = some g' ∧ Keeps gen (calls.foldl Labels.tag l) g' := by
  induction calls generalizing l g with
  | nil => exact ⟨g, rfl, h⟩
  | cons c rest ih =>
      obtain ⟨g₁, hstep, h₁⟩ := tagging_refines h c (hdraw.mono (names_le_foldl rest (l.tag c)))
      obtain ⟨g', hrun, h'⟩ := ih h₁ hdraw
      refine ⟨g', ?_, h'⟩
      rw [runs_cons, hstep]
      exact hrun

/-! ## The display -/

/-- The printing loop lists the marks in order. -/
theorem printMarks_eq (b : Bitset ws.bits) :
    printMarks b = some ((List.range b.nbits).filter (holdsBit b)) := by
  have hloop : ∀ (is out : List Nat), (∀ i ∈ is, i < b.nbits) →
      is.foldlM (printMark b) out = some (out ++ is.filter (holdsBit b)) := by
    intro is
    induction is with
    | nil =>
        intro out _
        rw [List.filter_nil, List.append_nil]
        rfl
    | cons i rest ih =>
        intro out his
        obtain ⟨hi, hrest⟩ := List.forall_mem_cons.mp his
        have htest : bitsetTestBit b i = some (holdsBit b i) := if_pos hi
        rw [List.foldlM_cons, printMark, htest]
        show rest.foldlM (printMark b) (if holdsBit b i = true then out ++ [i] else out) = _
        rw [ih _ hrest, List.filter_cons]
        split
        · rw [List.append_assoc]
          rfl
        · rfl
  exact (hloop _ [] fun i hi => List.mem_range.mp hi).trans rfl

/-- What a display prints in front of the control taint. -/
theorem displayTagsForByteRange_spec {s : TaintState ws N} (hs : SizedState s) (start size : Addr ws) :
    ∃ shown control, displayTagsForByteRange start size s = some (shown, control)
      ∧ shown.Pairwise (· < ·)
      ∧ (∀ t, t ∈ shown ↔ (∃ a ∈ addrRange start size, t ∈ marksAt s (.mem a)) ∨ t ∈ controlMarks s)
      ∧ ∀ t, t ∈ control ↔ t ∈ controlMarks s := by
  obtain ⟨bytes, hbytes, hsb, hmb⟩ :=
    foldlM_joinByte hs (addrRange start size) (sized_init (w := ws.bits) N)
  obtain ⟨c, hcontrol, hsc, hmc⟩ := controlTaint_spec hs
  obtain ⟨tmp, htmp, hst, hmt⟩ := union_sized hsb hsc
  have hlist : ∀ {b : Bitset ws.bits} (t : Nat),
      t ∈ (List.range b.nbits).filter (holdsBit b) ↔ t ∈ marks b := by
    intro b t
    rw [List.mem_filter, List.mem_range]
    rfl
  refine ⟨(List.range tmp.nbits).filter (holdsBit tmp), (List.range c.nbits).filter (holdsBit c),
    ?_, List.pairwise_lt_range.filter (holdsBit tmp), fun t => ?_, fun t => ?_⟩
  · show ((addrRange start size).foldlM (joinByte s) (bitsetInit ws.bits N)).bind _ = _
    rw [hbytes]
    show (controlTaint s).bind _ = _
    rw [hcontrol]
    show (bitsetUnion bytes c).bind _ = _
    rw [htmp]
    show (printMarks tmp).bind _ = _
    rw [printMarks_eq]
    show (printMarks c).bind _ = _
    rw [printMarks_eq]
    rfl
  · rw [hlist, hmt, hmb, hmc, marks_init, Set.empty_union]
    rfl
  · rw [hlist, hmc]

/-- A state without control taint has no control marks. -/
theorem Keeps.controlMarks_eq (h : Keeps gen l g) : controlMarks g.state = ∅ := by
  rw [Set.eq_empty_iff_forall_notMem]
  intro m hm
  obtain ⟨a, b, hb, -⟩ := mem_controlMarks.mp hm
  rw [h.noControl, Std.ExtTreeMap.getElem?_empty] at hb
  exact nomatch hb

/-- The marks at a byte are that of its label. -/
theorem Keeps.mem_marksAt (h : Keeps gen l g) (a : Addr ws) (t : Nat) :
    t ∈ marksAt g.state (.mem a) ↔ ∃ name, l.label a = some name ∧ g.tagMap name = some t := by
  have hbytes : entryAt g.state (.mem a)
      = (l.label a).map fun name => markOnly ws N (markOf gen l.names name) := h.bytes a
  rw [marksAt, hbytes]
  cases hlabel : l.label a with
  | none =>
      refine iff_of_false (by simp) ?_
      rintro ⟨name, hname, -⟩
      cases hname
  | some name =>
      have hlt : markOf gen l.names name < N := tagAt_lt gen _
      rw [Option.map_some, entryMarks_some, (markOnly_spec hlt).2, Set.mem_singleton_iff]
      constructor
      · rintro rfl
        exact ⟨name, rfl, (h.tagMap name).trans (if_pos (h.named a name hlabel))⟩
      · rintro ⟨_, ⟨⟩, htag⟩
        rw [h.tagMap, if_pos (h.named a name hlabel)] at htag
        exact (Option.some.inj htag).symm

/-! ## Names that share a mark -/

/-- How many marks the generator has. -/
def period : TaintGenerator N → Nat
  | .counting _ max _ _ => max
  | .constant _ _ => 1

theorem tagAt_injective {i j : Nat} (hi : i < period gen) (hj : j < period gen)
    (h : tagAt gen i = tagAt gen j) : i = j := by
  cases gen with
  | counting current max pos le =>
      replace hi : i < max := hi
      replace hj : j < max := hj
      have hmod : Nat.ModEq max (current + 1 + i) (current + 1 + j) := by
        show _ % max = _ % max
        rw [Nat.add_right_comm, Nat.add_right_comm current 1 j]
        exact h
      exact Nat.ModEq.eq_of_lt_of_lt (Nat.ModEq.add_left_cancel' _ hmod) hi hj
  | constant seed lt =>
      exact (Nat.lt_one_iff.mp hi).trans (Nat.lt_one_iff.mp hj).symm

theorem tagAt_period (gen : TaintGenerator N) : tagAt gen (period gen) = tagAt gen 0 := by
  cases gen with
  | counting current max pos le =>
      show (current + max + 1) % max = (current + 0 + 1) % max
      rw [Nat.add_right_comm, Nat.add_mod_right, Nat.add_zero]
  | constant seed lt => rfl

theorem period_pos (gen : TaintGenerator N) : 0 < period gen := by
  cases gen with
  | counting current max pos le => exact pos
  | constant seed lt => exact Nat.one_pos

/-- The marks of the names are distinct exactly if there are not too many. -/
theorem Keeps.distinct_iff (h : Keeps gen l g) :
    (∀ x y t, g.tagMap x = some t → g.tagMap y = some t → x = y)
      ↔ l.names.length ≤ period gen := by
  have hmark : ∀ (i : Nat) (hi : i < l.names.length), g.tagMap l.names[i] = some (tagAt gen i) := by
    intro i hi
    rw [h.tagMap, if_pos (List.getElem_mem hi), markOf, h.nodup.idxOf_getElem]
  constructor
  · intro hdistinct
    by_contra hlong
    have hlt : period gen < l.names.length := Nat.not_le.mp hlong
    have hsame := hdistinct _ _ _ (hmark (period gen) hlt)
      ((hmark 0 (Nat.zero_lt_of_lt hlt)).trans (congrArg some (tagAt_period gen).symm))
    exact Nat.ne_of_gt (period_pos gen) ((h.nodup.getElem_inj_iff).mp hsame)
  · intro hfew x y t hx hy
    rw [h.tagMap] at hx hy
    split at hx
    · next hxmem =>
        split at hy
        · next hymem =>
            have hix := List.idxOf_lt_length_of_mem hxmem
            have hiy := List.idxOf_lt_length_of_mem hymem
            have hidx : l.names.idxOf x = l.names.idxOf y := by
              refine tagAt_injective (Nat.lt_of_lt_of_le hix hfew) (Nat.lt_of_lt_of_le hiy hfew) ?_
              exact (Option.some.inj hx).trans (Option.some.inj hy).symm
            exact (List.idxOf_inj hxmem).mp hidx
        · exact nomatch hy
    · exact nomatch hx

/-- **What a display tells.**  After any calls of `DYTAN_tag` for which the
    generator has marks, a display prints, in ascending order, the marks of the
    labels in its range.  The marks tell the names apart exactly if there are not
    more of them than marks, and then a name is displayed exactly if it is the
    label of a byte of the range. -/
theorem display_tells (gen : TaintGenerator N) (calls : List (Tagging ws))
    (hdraw : CanDraw gen (labels calls).names.length) :
    ∃ g, runs tagging calls (fresh ws gen) = some g
      ∧ ((∀ x y t, g.tagMap x = some t → g.tagMap y = some t → x = y)
        ↔ (labels calls).names.length ≤ period gen)
      ∧ ∀ start size, ∃ shown, displayTagsForByteRange start size g.state = some (shown, [])
        ∧ shown.Pairwise (· < ·)
        ∧ (∀ t, t ∈ shown ↔ ∃ a ∈ addrRange start size, ∃ name,
          (labels calls).label a = some name ∧ g.tagMap name = some t)
        ∧ ((labels calls).names.length ≤ period gen → ∀ name t, g.tagMap name = some t →
          (t ∈ shown ↔ ∃ a ∈ addrRange start size, (labels calls).label a = some name)) := by
  obtain ⟨g, hrun, hkeeps⟩ := runs_refine calls (keeps_fresh gen) hdraw
  refine ⟨g, hrun, hkeeps.distinct_iff, fun start size => ?_⟩
  obtain ⟨shown, control, hdisplay, hsorted, hshown, hcontrol⟩ :=
    displayTagsForByteRange_spec hkeeps.sized start size
  rw [hkeeps.controlMarks_eq] at hcontrol
  have hnone : control = [] := List.eq_nil_iff_forall_not_mem.mpr fun t ht => (hcontrol t).mp ht
  have hlabels : ∀ t, t ∈ shown ↔ ∃ a ∈ addrRange start size, ∃ name,
      (labels calls).label a = some name ∧ g.tagMap name = some t := by
    intro t
    rw [hshown, hkeeps.controlMarks_eq, or_iff_left (Set.notMem_empty t)]
    exact exists_congr fun a => and_congr_right fun _ => hkeeps.mem_marksAt a t
  refine ⟨shown, hnone ▸ hdisplay, hsorted, hlabels, fun hfew name t ht => ?_⟩
  rw [hlabels]
  constructor
  · rintro ⟨a, ha, other, hother, htag⟩
    exact ⟨a, ha, (hkeeps.distinct_iff.mpr hfew other name t htag ht) ▸ hother⟩
  · rintro ⟨a, ha, hlabel⟩
    exact ⟨a, ha, name, hlabel, ht⟩

/-- Three marks, counted from one. -/
def threeMarks : TaintGenerator 3 := .counting 1 3 (by decide) (Nat.le_refl 3)

/-- Two names, and a byte that is given both. -/
def twoNames : List (Tagging .w64) := [⟨100, 2, "key"⟩, ⟨101, 1, "file"⟩]

theorem display_tells_twoNames : ∃ g, runs tagging twoNames (fresh .w64 threeMarks) = some g
    ∧ ∃ shown, displayTagsForByteRange (101 : Addr .w64) 1 g.state = some (shown, []) := by
  obtain ⟨g, hrun, -, hdisplay⟩ := display_tells threeMarks twoNames (Or.inr (by decide))
  obtain ⟨shown, hshown, -⟩ := hdisplay 101 1
  exact ⟨g, hrun, shown, hshown⟩

end DytanUserTags
