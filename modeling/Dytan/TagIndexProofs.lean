import Dytan.RegisterAliasProofs

/-! # The tag index — agreement with the taint map

    `tagMemoryMap` keeps, for each tag, the history of the addresses that got
    or lost it; an address has the tag if its last record is not cleared.

    `SetTaintForMemory` appends a cleared record wherever a live address loses
    the tag.  Where an address gets the tag it appends a live record, unless
    some record of the list lies at the same `int` offset, be it cleared or
    4 GiB away: those addresses get the mark and no record (`KeepsIndex`). -/

namespace DytanTagIndex

open DytanBitset DytanRegister DytanTaintState DytanMarkFlow DytanRegisterAlias Runs

variable {ws : WordSize} {N : Nat}

/-- The last record of a list for an address. -/
def lastRecord (records : List (MemRecord ws)) (a : Addr ws) : Option (MemRecord ws) :=
  (records.filter fun r => r.memAddress = a).getLast?

/-- The last record for the address is there and not cleared. -/
def LiveAt (records : List (MemRecord ws)) (a : Addr ws) : Prop :=
  ∃ r, lastRecord records a = some r ∧ r.isCleared = false

theorem lastRecord_append (xs ys : List (MemRecord ws)) (a : Addr ws) :
    lastRecord (xs ++ ys) a = (lastRecord ys a).or (lastRecord xs a) := by
  simp only [lastRecord]
  rw [List.filter_append, List.getLast?_append]

theorem lastRecord_singleton (r : MemRecord ws) (a : Addr ws) :
    lastRecord [r] a = if r.memAddress = a then some r else none := by
  rw [lastRecord]
  by_cases h : r.memAddress = a
  · simp [h]
  · simp [h]

theorem lastRecord_cons (r : MemRecord ws) (rest : List (MemRecord ws)) (a : Addr ws) :
    lastRecord (r :: rest) a
      = (lastRecord rest a).or (if r.memAddress = a then some r else none) := by
  rw [← lastRecord_singleton, ← lastRecord_append]
  rfl

theorem not_liveAt_nil (a : Addr ws) : ¬ LiveAt [] a := fun ⟨_, h, _⟩ => nomatch h

/-! ## The two branches -/

/-- The flags loop: some record lies at the `int` offset `i` of the range. -/
def flagged (start size : Addr ws) (records : List (MemRecord ws)) (i : Nat) : Bool :=
  records.any fun r =>
    decide (0 ≤ toInt32 (r.memAddress - start)
      ∧ toInt32 (r.memAddress - start) < toInt32 size
      ∧ toInt32 (r.memAddress - start) = i)

/-- A live list: its addresses are live, and it has no other. -/
theorem liveAt_append_live {records new : List (MemRecord ws)}
    (hnew : ∀ r ∈ new, r.isCleared = false) (a : Addr ws) :
    LiveAt (records ++ new) a ↔ (∃ r ∈ new, r.memAddress = a) ∨ LiveAt records a := by
  rw [LiveAt]
  rw [lastRecord_append]
  cases hlast : lastRecord new a with
  | none =>
      have hnone : ∀ r ∈ new, r.memAddress ≠ a := by
        intro r hr heq
        have hfilter := List.getLast?_eq_none_iff.mp hlast
        have hmem : r ∈ new.filter fun r => r.memAddress = a :=
          List.mem_filter.mpr ⟨hr, decide_eq_true heq⟩
        rw [hfilter] at hmem
        exact absurd hmem List.not_mem_nil
      rw [Option.none_or]
      refine (or_iff_right ?_).symm
      rintro ⟨r, hr, heq⟩
      exact hnone r hr heq
  | some r =>
      have hmem := List.mem_filter.mp (List.mem_of_getLast? hlast)
      have haddr := of_decide_eq_true hmem.2
      exact iff_of_true ⟨r, rfl, hnew r hmem.1⟩ (Or.inl ⟨r, hmem.1, haddr⟩)

/-- The tainting branch: the addresses of the range that are not flagged
    become live. -/
theorem liveAt_tagTaint (start size : Addr ws) (records : List (MemRecord ws)) (a : Addr ws) :
    LiveAt (tagTaint start size records) a
      ↔ (∃ i, (a, i) ∈ (addrRange start size).zipIdx ∧ flagged start size records i = false)
        ∨ LiveAt records a := by
  refine (liveAt_append_live (fun r hr => ?_) a).trans (or_congr_left ?_)
  · obtain ⟨p, -, rfl⟩ := List.mem_map.mp hr
    rfl
  · constructor
    · rintro ⟨r, hr, rfl⟩
      obtain ⟨⟨b, i⟩, hp, rfl⟩ := List.mem_map.mp hr
      obtain ⟨hmem, hflag⟩ := List.mem_filter.mp hp
      exact ⟨i, hmem, by simpa [flagged] using hflag⟩
    · rintro ⟨i, hmem, hflag⟩
      refine ⟨⟨a, false⟩, List.mem_map.mpr ⟨(a, i), List.mem_filter.mpr ⟨hmem, ?_⟩, rfl⟩, rfl⟩
      simpa [flagged] using hflag

/-- The flag that decides in the clearing branch is that of the last record. -/
theorem lastFlag_eq (r : MemRecord ws) (rest : List (MemRecord ws)) :
    lastFlag r rest = ((lastRecord rest r.memAddress).map MemRecord.isCleared).getD r.isCleared :=
  rfl

/-- The clearing branch: the live addresses of the range get a cleared record,
    the last records of the others stay. -/
theorem lastRecord_tagClear (start size : Addr ws) (records : List (MemRecord ws)) (a : Addr ws) :
    (a ∈ addrRange start size ∧ LiveAt records a →
        lastRecord (tagClear start size records) a = some ⟨a, true⟩)
      ∧ (¬ (a ∈ addrRange start size ∧ LiveAt records a) →
        lastRecord (tagClear start size records) a = lastRecord records a) := by
  induction records using tagClear.induct start size with
  | case1 =>
      refine ⟨fun h => absurd h.2 (not_liveAt_nil a), fun _ => ?_⟩
      rw [tagClear]
  | case2 r rest h ih =>
      -- a live record of the range that is the last one for its address
      rw [tagClear, if_pos h, lastRecord_cons, lastRecord_cons]
      have hlive : LiveAt (r :: rest) r.memAddress := by
        have hflag := h.2
        rw [lastFlag_eq] at hflag
        rw [LiveAt]
        rw [lastRecord_cons, if_pos rfl]
        cases hrest : lastRecord rest r.memAddress with
        | none => exact ⟨r, rfl, h.1.2.2⟩
        | some r' =>
            rw [hrest] at hflag
            exact ⟨r', rfl, hflag⟩
      by_cases ha : r.memAddress = a
      · subst ha
        -- the record that was appended is the last one
        have hlast : lastRecord (rest ++ [⟨r.memAddress, true⟩]) r.memAddress
            = some ⟨r.memAddress, true⟩ := by
          rw [lastRecord_append, lastRecord_singleton, if_pos rfl, Option.some_or]
        have hdead : ¬ LiveAt (rest ++ [⟨r.memAddress, true⟩]) r.memAddress := by
          rintro ⟨r', hr', hc⟩
          rw [hlast] at hr'
          cases hr'
          exact nomatch hc
        rw [ih.2 fun hh => hdead hh.2, hlast, Option.some_or]
        refine ⟨fun _ => rfl, fun hnot => absurd ⟨?_, hlive⟩ hnot⟩
        exact mem_addrRange.mpr ⟨h.1.1, h.1.2.1⟩
      · have hsame : lastRecord (rest ++ [⟨r.memAddress, true⟩]) a = lastRecord rest a := by
          rw [lastRecord_append, lastRecord_singleton, if_neg ha, Option.none_or]
        have hsameLive : LiveAt (rest ++ [⟨r.memAddress, true⟩]) a ↔ LiveAt (r :: rest) a := by
          simp only [LiveAt]
          rw [hsame, lastRecord_cons, if_neg ha, Option.or_none]
        rw [if_neg ha, Option.or_none, Option.or_none, ← hsameLive, ← hsame]
        exact ih
  | case3 r rest h ih =>
      rw [tagClear, if_neg h, lastRecord_cons, lastRecord_cons]
      by_cases ha : r.memAddress = a
      · subst ha
        rw [if_pos rfl]
        cases hrest : lastRecord rest r.memAddress with
        | some r' =>
            have hsameLive : LiveAt rest r.memAddress ↔ LiveAt (r :: rest) r.memAddress := by
              simp only [LiveAt]
              rw [lastRecord_cons, hrest, Option.some_or]
            rw [hrest] at ih
            refine ⟨fun hh => ?_, fun hh => ?_⟩
            · rw [ih.1 ⟨hh.1, hsameLive.mpr hh.2⟩, Option.some_or]
            · rw [ih.2 fun hh' => hh ⟨hh'.1, hsameLive.mp hh'.2⟩]
        | none =>
            -- the only record for its address: not live, or not in the range
            have hdead : ¬ LiveAt rest r.memAddress := by
              rintro ⟨r', hr', -⟩
              exact nomatch hrest.symm.trans hr'
            rw [ih.2 fun hh => hdead hh.2, hrest, Option.none_or]
            refine ⟨fun ⟨hmem, r', hr', hc⟩ => absurd ?_ h, fun _ => rfl⟩
            rw [lastRecord_cons, hrest, if_pos rfl, Option.none_or] at hr'
            cases hr'
            obtain ⟨hle, hlt⟩ := mem_addrRange.mp hmem
            refine ⟨⟨hle, hlt, hc⟩, ?_⟩
            rw [lastFlag_eq, hrest]
            exact hc
      · have hsameLive : LiveAt rest a ↔ LiveAt (r :: rest) a := by
          simp only [LiveAt]
          rw [lastRecord_cons, if_neg ha, Option.or_none]
        rw [if_neg ha, Option.or_none, Option.or_none, ← hsameLive]
        exact ih

theorem liveAt_tagClear (start size : Addr ws) (records : List (MemRecord ws)) (a : Addr ws) :
    LiveAt (tagClear start size records) a ↔ LiveAt records a ∧ a ∉ addrRange start size := by
  obtain ⟨hin, hout⟩ := lastRecord_tagClear start size records a
  constructor
  · rintro ⟨r, hr, hc⟩
    by_cases h : a ∈ addrRange start size ∧ LiveAt records a
    · rw [hin h] at hr
      cases hr
      exact nomatch hc
    · have hlive : LiveAt records a := ⟨r, (hout h).symm.trans hr, hc⟩
      exact ⟨hlive, fun hmem => h ⟨hmem, hlive⟩⟩
  · rintro ⟨⟨r, hr, hc⟩, hmem⟩
    exact ⟨r, (hout fun h => hmem h.1).trans hr, hc⟩

/-! ## The whole index -/

/-- The list of a tag; a tag without a list has no record. -/
def tagRecords (m : Std.ExtTreeMap Nat (List (MemRecord ws))) (t : Nat) : List (MemRecord ws) :=
  m[t]?.getD []

/-- What the update makes of one list. -/
def updatedTag (start size : Addr ws) (tmp : Bitset ws.bits) (t : Nat)
    (records : List (MemRecord ws)) : List (MemRecord ws) :=
  if holdsBit tmp t then tagTaint start size records else tagClear start size records

/-- The loop updates the list of every tag of the map. -/
theorem foldlM_updateTag_get {tmp : Bitset ws.bits} (ht : Sized N tmp) (start size : Addr ws)
    (entries : List (Nat × List (MemRecord ws))) (he : ∀ e ∈ entries, e.1 < N)
    (hkeys : entries.Pairwise fun e e' => e.1 ≠ e'.1)
    (m : Std.ExtTreeMap Nat (List (MemRecord ws))) :
    ∃ m', entries.foldlM (updateTag start size tmp) m = some m'
      ∧ (∀ e ∈ entries, m'[e.1]? = some (updatedTag start size tmp e.1 e.2))
      ∧ ∀ t, (∀ e ∈ entries, e.1 ≠ t) → m'[t]? = m[t]? := by
  induction entries generalizing m with
  | nil => exact ⟨m, rfl, fun e he => absurd he List.not_mem_nil, fun t _ => rfl⟩
  | cons e rest ih =>
      obtain ⟨hne, hrest⟩ := List.pairwise_cons.mp hkeys
      have hlt : e.1 < N := he e List.mem_cons_self
      have hstep : updateTag start size tmp m e
          = some (m.insert e.1 (updatedTag start size tmp e.1 e.2)) := by
        rw [updateTag, bitsetTestBit, if_pos (by rw [ht.nbits]; exact hlt)]
        rfl
      obtain ⟨m', hm', hget, hother⟩ :=
        ih (fun e' h' => he e' (List.mem_cons_of_mem _ h')) hrest
          (m.insert e.1 (updatedTag start size tmp e.1 e.2))
      refine ⟨m', by rw [List.foldlM_cons, hstep]; exact hm', fun e' he' => ?_, fun t hnot => ?_⟩
      · rcases List.mem_cons.mp he' with rfl | he'
        · rw [hother _ fun e' h' => (hne e' h').symm, Std.ExtTreeMap.getElem?_insert_self]
        · exact hget e' he'
      · have het := hnot e List.mem_cons_self
        rw [hother t fun e' h' => hnot e' (List.mem_cons_of_mem _ h'),
          Std.ExtTreeMap.getElem?_insert]
        simp [het]

/-- After initialisation every tag has a list. -/
theorem initTags_get {s : TaintState ws N}
    (hkeys : s.tagMemoryMapIsInitialized = true → ∀ t < N, t ∈ s.tagMemoryMap)
    (hempty : s.tagMemoryMapIsInitialized = false → s.tagMemoryMap = ∅) :
    ∀ t < N, (initTags N s)[t]? = some (tagRecords s.tagMemoryMap t) := by
  intro t htN
  rw [initTags, tagRecords]
  by_cases hinit : s.tagMemoryMapIsInitialized = true
  · rw [if_pos hinit]
    have hmem := hkeys hinit t htN
    rw [Std.ExtTreeMap.mem_iff_isSome_getElem?] at hmem
    obtain ⟨records, hget⟩ := Option.isSome_iff_exists.mp hmem
    rw [hget, Option.getD_some]
  · rw [if_neg hinit, hempty (Bool.eq_false_iff.mpr hinit)]
    have hfold : ∀ (ts : List Nat) (m : Std.ExtTreeMap Nat (List (MemRecord ws))),
        (ts.foldl (fun m t => m.insert t []) m)[t]? = if t ∈ ts then some [] else m[t]? := by
      intro ts
      induction ts with
      | nil => intro m; simp
      | cons u rest ih =>
          intro m
          rw [List.foldl_cons, ih, Std.ExtTreeMap.getElem?_insert]
          by_cases hrest : t ∈ rest
          · simp [hrest]
          · by_cases hut : u = t
            · simp [hut]
            · simp [hrest, hut, Ne.symm hut]
    rw [hfold, if_pos (List.mem_range.mpr htN), Std.ExtTreeMap.getElem?_empty, Option.getD_none]

/-- Every tag has a list once the index is initialised, and none before. -/
structure Indexed (s : TaintState ws N) : Prop where
  keys : s.tagMemoryMapIsInitialized = true → ∀ t < N, t ∈ s.tagMemoryMap
  empty : s.tagMemoryMapIsInitialized = false → s.tagMemoryMap = ∅

/-- The marks `SetTaintForMemory` assigns: those of its arguments and the
    control taint. -/
def assignedMarks (args : List (Bitset ws.bits)) (s : TaintState ws N) : Set Nat :=
  {m | ∃ b ∈ args, m ∈ marks b} ∪ controlMarks s

/-- What `SetTaintForMemory` does to the index. -/
theorem setTaintForMemory_index {s : TaintState ws N} (hs : SizedState s) (hk : Indexed s)
    (start size : Addr ws) {args : List (Bitset ws.bits)} (hargs : ∀ b ∈ args, Sized N b) :
    ∃ s' tmp, setTaintForMemory start size args s = some s' ∧ Sized N tmp
      ∧ marks tmp = assignedMarks args s ∧ Assigns (rangePlaces start size) (some tmp) s s'
      ∧ Indexed s'
      ∧ ∀ t < N, tagRecords s'.tagMemoryMap t
          = updatedTag start size tmp t (tagRecords s.tagMemoryMap t) := by
  obtain ⟨s', tmp, hs', ha, htmp, hmarks⟩ := setTaintForMemory_spec hs start size hargs
  have hst : Sized N tmp := ha.sized tmp rfl
  have hget := initTags_get hk.keys hk.empty
  obtain ⟨tags, htags, hupd, -⟩ := foldlM_updateTag_get hst start size (initTags N s).toList (by
    rintro ⟨t, records⟩ he
    refine initTags_lt hs t ?_
    rw [Std.ExtTreeMap.mem_iff_isSome_getElem?,
      Std.ExtTreeMap.mem_toList_iff_getElem?_eq_some.mp he]
    rfl) (Std.ExtTreeMap.distinct_keys_toList.imp fun h heq => h (compare_eq_iff_eq.mpr heq))
    (initTags N s)
  have hnew : ∀ t < N, tags[t]? = some (updatedTag start size tmp t
      (tagRecords s.tagMemoryMap t)) := fun t ht =>
    hupd (t, _) (Std.ExtTreeMap.mem_toList_iff_getElem?_eq_some.mpr (hget t ht))
  have htagsEq : s'.tagMemoryMap = tags ∧ s'.tagMemoryMapIsInitialized = true := by
    rw [setTaintForMemory, htmp, Option.bind_eq_bind, Option.bind_some, htags,
      Option.bind_eq_bind, Option.bind_some, Option.bind_eq_bind, Option.bind_eq_some_iff] at hs'
    obtain ⟨m, -, hm⟩ := hs'
    cases hm
    exact ⟨rfl, rfl⟩
  refine ⟨s', tmp, hs', hst, hmarks, ha, ⟨fun _ t ht => ?_, fun h => ?_⟩, fun t ht => ?_⟩
  · rw [htagsEq.1, Std.ExtTreeMap.mem_iff_isSome_getElem?, hnew t ht]
    rfl
  · rw [htagsEq.2] at h
    cases h
  · rw [htagsEq.1, tagRecords, hnew t ht, Option.getD_some]

/-- The control taint may change in between. -/
theorem sizedState_withControl {s : TaintState ws N} (hs : SizedState s)
    {control : Std.ExtTreeMap (Addr ws) (Bitset ws.bits)}
    (hcontrol : ∀ (a : Addr ws) b, control[a]? = some b → Sized N b) :
    SizedState ({ s with controlTaintMap := control } : TaintState ws N) := by
  refine ⟨fun p b hb => ?_, hs.tags⟩
  cases p with
  | ctl a => exact hcontrol a b hb
  | reg r => exact hs.entries (.reg r) b hb
  | mem a => exact hs.entries (.mem a) b hb
  | scr x => exact hs.entries (.scr x) b hb

/-! ## Agreement -/

/-- The index agrees with the taint map: an address has a mark exactly if its
    last record in the list of that mark is live. -/
def IndexAgrees (s : TaintState ws N) : Prop :=
  ∀ t < N, ∀ a, t ∈ marksAt s (.mem a) ↔ LiveAt (tagRecords s.tagMemoryMap t) a

/-- A call of `SetTaintForMemory`, with the control taint it finds. -/
structure SetCall (ws : WordSize) (N : Nat) where
  start : Addr ws
  size : Addr ws
  args : List (Bitset ws.bits)
  control : Std.ExtTreeMap (Addr ws) (Bitset ws.bits)
  size_lt : size.toNat < 2 ^ 31
  noWrap : start.toNat + size.toNat ≤ 2 ^ ws.bits
  args_sized : ∀ b ∈ args, Sized N b
  control_sized : ∀ (a : Addr ws) b, control[a]? = some b → Sized N b

/-- The state a call finds. -/
def SetCall.before (c : SetCall ws N) (s : TaintState ws N) : TaintState ws N :=
  { s with controlTaintMap := c.control }

/-- Execute a call. -/
def setCall (c : SetCall ws N) (s : TaintState ws N) : Option (TaintState ws N) :=
  setTaintForMemory c.start c.size c.args (c.before s)

/-- The call flags no address that its mark is new to: an address of the range
    that the flags loop skips in the list of an assigned mark is live there. -/
def KeepsIndex (c : SetCall ws N) (s : TaintState ws N) : Prop :=
  ∀ t ∈ assignedMarks c.args (c.before s), ∀ a i, (a, i) ∈ (addrRange c.start c.size).zipIdx →
    flagged c.start c.size (tagRecords s.tagMemoryMap t) i = true →
      LiveAt (tagRecords s.tagMemoryMap t) a

/-- An address of a range has one offset. -/
theorem offset_unique {start size a : Addr ws} {i j : Nat}
    (hi : (a, i) ∈ (addrRange start size).zipIdx) (hj : (a, j) ∈ (addrRange start size).zipIdx) :
    i = j := by
  have h₁ := addrRange_getElem? (List.mk_mem_zipIdx_iff_getElem?.mp hi)
  have h₂ := addrRange_getElem? (List.mk_mem_zipIdx_iff_getElem?.mp hj)
  omega

/-- What one call does to the marks and to the lists. -/
theorem setCall_spec {s : TaintState ws N} (hs : SizedState s) (hk : Indexed s)
    (c : SetCall ws N) :
    ∃ s', setCall c s = some s' ∧ SizedState s' ∧ Indexed s'
      ∧ (∀ a ∈ addrRange c.start c.size,
          marksAt s' (.mem a) = assignedMarks c.args (c.before s))
      ∧ (∀ a, a ∉ addrRange c.start c.size → marksAt s' (.mem a) = marksAt s (.mem a))
      ∧ (∀ t ∈ assignedMarks c.args (c.before s), t < N
          ∧ tagRecords s'.tagMemoryMap t = tagTaint c.start c.size (tagRecords s.tagMemoryMap t))
      ∧ ∀ t < N, t ∉ assignedMarks c.args (c.before s) →
          tagRecords s'.tagMemoryMap t = tagClear c.start c.size (tagRecords s.tagMemoryMap t) := by
  have hs₀ : SizedState (c.before s) := sizedState_withControl hs c.control_sized
  obtain ⟨s', tmp, hs', hst, hmarks, ha, hk', hrec⟩ :=
    setTaintForMemory_index hs₀ ⟨hk.keys, hk.empty⟩ c.start c.size c.args_sized
  refine ⟨s', hs', ha.sizedState hs₀, hk', fun a hmem => ?_, fun a hmem => ?_, fun t ht => ?_,
    fun t htN ht => ?_⟩
  · rw [marksAt, ha.target (.mem a) ⟨a, hmem, rfl⟩, entryMarks_some, hmarks]
  · rw [marksAt, ha.frame (.mem a) (by rintro ⟨b, hb, heq⟩; cases heq; exact hmem hb)]
    rfl
  · rw [← hmarks] at ht
    have htN := hst.marks_lt ht
    refine ⟨htN, ?_⟩
    rw [hrec t htN, updatedTag, if_pos ((hst.mem_marks t).mp ht)]
    rfl
  · rw [← hmarks] at ht
    rw [hrec t htN, updatedTag, if_neg fun h => ht ((hst.mem_marks t).mpr h)]
    rfl

/-- What one call does to the agreement. -/
theorem setCall_step {s : TaintState ws N} (hs : SizedState s) (hk : Indexed s)
    (c : SetCall ws N) :
    ∃ s', setCall c s = some s' ∧ SizedState s' ∧ Indexed s'
      ∧ (IndexAgrees s → (IndexAgrees s' ↔ KeepsIndex c s)) := by
  obtain ⟨s', hs', hsized, hk', hin, hout, htaint, hclear⟩ := setCall_spec hs hk c
  refine ⟨s', hs', hsized, hk', fun hagree => ?_⟩
  have hzip : ∀ a i, (a, i) ∈ (addrRange c.start c.size).zipIdx →
      a ∈ addrRange c.start c.size := fun a i h => List.fst_mem_of_mem_zipIdx h
  constructor
  · intro h t ht a i hmem hflag
    obtain ⟨htN, hrec⟩ := htaint t ht
    have hlive := (h t htN a).mp (by rw [hin a (hzip a i hmem)]; exact ht)
    rw [hrec, liveAt_tagTaint] at hlive
    rcases hlive with ⟨j, hj, hunflagged⟩ | hlive
    · rw [offset_unique hmem hj, hunflagged] at hflag
      exact nomatch hflag
    · exact hlive
  · intro hkeep t htN a
    by_cases ht : t ∈ assignedMarks c.args (c.before s)
    · rw [(htaint t ht).2, liveAt_tagTaint]
      by_cases hmem : a ∈ addrRange c.start c.size
      · rw [hin a hmem]
        refine iff_of_true ht ?_
        obtain ⟨i, hget⟩ := List.getElem?_of_mem hmem
        have hi := List.mk_mem_zipIdx_iff_getElem?.mpr hget
        by_cases hflag : flagged c.start c.size (tagRecords s.tagMemoryMap t) i = true
        · exact Or.inr (hkeep t ht a i hi hflag)
        · exact Or.inl ⟨i, hi, Bool.eq_false_iff.mpr hflag⟩
      · rw [hout a hmem, hagree t htN a]
        refine (or_iff_right ?_).symm
        rintro ⟨i, hi, -⟩
        exact hmem (hzip a i hi)
    · rw [hclear t htN ht, liveAt_tagClear]
      by_cases hmem : a ∈ addrRange c.start c.size
      · rw [hin a hmem]
        exact iff_of_false ht fun h => h.2 hmem
      · rw [hout a hmem, hagree t htN a]
        exact (and_iff_left hmem).symm

theorem indexAgrees_init : IndexAgrees (TaintState.init ws N) := by
  intro t ht a
  have hnone : marksAt (TaintState.init ws N) (.mem a) = ∅ := by
    rw [marksAt, show entryAt (TaintState.init ws N) (.mem a) = none from
      Std.ExtTreeMap.getElem?_empty, entryMarks_none]
  rw [hnone, tagRecords, show (TaintState.init ws N).tagMemoryMap[t]? = none from
    Std.ExtTreeMap.getElem?_empty]
  exact iff_of_false (Set.notMem_empty t) (not_liveAt_nil a)

theorem indexed_init : Indexed (TaintState.init ws N) where
  keys := fun h => absurd h Bool.false_ne_true
  empty := fun _ => rfl

/-- **The index agrees along a run of calls exactly if no call flags an address
    that one of its marks is new to.** -/
theorem indexAgrees_iff (calls : List (SetCall ws N)) :
    Always setCall IndexAgrees calls (TaintState.init ws N)
      ↔ EachStep setCall KeepsIndex calls (TaintState.init ws N) := by
  have hstep : ∀ (c : SetCall ws N) s, SizedState s ∧ Indexed s →
      ∃ s', setCall c s = some s' ∧ (SizedState s' ∧ Indexed s')
        ∧ (IndexAgrees s → (IndexAgrees s' ↔ KeepsIndex c s)) := by
    intro c s hs
    obtain ⟨s', hs', hsized, hk, hiff⟩ := setCall_step hs.1 hs.2 c
    exact ⟨s', hs', ⟨hsized, hk⟩, hiff⟩
  exact always_iff_eachStep hstep calls ⟨init_sized, indexed_init⟩ indexAgrees_init

/-- Byte 100 gets the marks of a list of bitsets; no control taint. -/
def setByte (args : List (Bitset WordSize.w64.bits)) (h : ∀ b ∈ args, Sized 1 b) : SetCall .w64 1 where
  start := 100
  size := 1
  args := args
  control := ∅
  size_lt := by decide
  noWrap := by decide
  args_sized := h
  control_sized := fun a b hb => by
    rw [Std.ExtTreeMap.getElem?_empty] at hb
    exact nomatch hb

theorem assignedMarks_setByte (args : List (Bitset WordSize.w64.bits)) (h : ∀ b ∈ args, Sized 1 b)
    (s : TaintState .w64 1) :
    assignedMarks (setByte args h).args ((setByte args h).before s)
      = {m | ∃ b ∈ args, m ∈ marks b} := by
  have hcontrol : controlMarks ((setByte args h).before s) = ∅ := by
    rw [Set.eq_empty_iff_forall_notMem]
    intro m hm
    obtain ⟨a, b, hb, -⟩ := mem_controlMarks.mp hm
    have hnone : (∅ : Std.ExtTreeMap (Addr .w64) (Bitset WordSize.w64.bits))[a]? = some b := hb
    rw [Std.ExtTreeMap.getElem?_empty] at hnone
    exact nomatch hnone
  show {m | ∃ b ∈ args, m ∈ marks b} ∪ controlMarks _ = _
  rw [hcontrol, Set.union_empty]

theorem mem_assignedMarks_markZero (s : TaintState .w64 1) :
    0 ∈ assignedMarks (setByte [markZero] markZero_sized).args
      ((setByte [markZero] markZero_sized).before s) := by
  rw [assignedMarks_setByte]
  exact ⟨markZero, List.mem_cons_self, by decide, by decide⟩

/-- Tainted and cleared, byte 100 has two records. -/
theorem runs_taint_clear : ∃ s, runs setCall
      [setByte [markZero] markZero_sized, setByte [] (by simp)] (TaintState.init .w64 1) = some s
    ∧ SizedState s ∧ Indexed s
    ∧ tagRecords s.tagMemoryMap 0 = [⟨100, false⟩, ⟨100, true⟩] := by
  have hclear : ∀ s, 0 ∉ assignedMarks (setByte [] (by simp)).args
      ((setByte [] (by simp)).before s) := by
    intro s
    rw [assignedMarks_setByte]
    rintro ⟨b, hb, -⟩
    exact nomatch hb
  obtain ⟨s₁, h₁, hs₁, hk₁, -, -, ht₁, -⟩ :=
    setCall_spec init_sized indexed_init (setByte [markZero] markZero_sized)
  obtain ⟨s₂, h₂, hs₂, hk₂, -, -, -, hc₂⟩ := setCall_spec hs₁ hk₁ (setByte [] (by simp))
  have hrec : tagRecords s₁.tagMemoryMap 0 = [⟨100, false⟩] := by
    rw [(ht₁ 0 (mem_assignedMarks_markZero _)).2, tagRecords,
      show (TaintState.init .w64 1).tagMemoryMap[0]? = none from Std.ExtTreeMap.getElem?_empty]
    decide
  refine ⟨s₂, ?_, hs₂, hk₂, ?_⟩
  · rw [runs_cons, h₁, Option.bind_some, runs_cons, h₂]
    rfl
  · rw [hc₂ 0 Nat.one_pos (hclear _), hrec]
    have hlt : (100 : Addr .w64) < 100 + 1 := by decide
    simp only [BitVec.ofNat_eq_ofNat] at hlt
    simp [tagClear, lastFlag, setByte, hlt]

/-- The last record of byte 100 is a cleared one then. -/
theorem not_liveAt_cleared :
    ¬ LiveAt [⟨100, false⟩, (⟨100, true⟩ : MemRecord .w64)] 100 := by
  rintro ⟨r, hr, hlive⟩
  have hlast : lastRecord [⟨100, false⟩, ⟨100, true⟩] 100
      = some (⟨100, true⟩ : MemRecord .w64) := by decide
  rw [hlast] at hr
  cases hr
  exact nomatch hlive

/-- The list a byte is left with by its history: tainted, cleared, and tainted
    again, it has mark 0, and its last record in the list of mark 0 is a
    cleared one. -/
theorem indexAgrees_retaint :
    ∃ s, runs setCall [setByte [markZero] markZero_sized, setByte [] (by simp),
        setByte [markZero] markZero_sized] (TaintState.init .w64 1) = some s
      ∧ 0 ∈ marksAt s (.mem 100)
      ∧ tagRecords s.tagMemoryMap 0 = [⟨100, false⟩, ⟨100, true⟩]
      ∧ ¬ IndexAgrees s := by
  obtain ⟨s₂, h₂, hs₂, hk₂, hrec₂⟩ := runs_taint_clear
  obtain ⟨s₃, h₃, -, -, hin₃, -, ht₃, -⟩ :=
    setCall_spec hs₂ hk₂ (setByte [markZero] markZero_sized)
  have hrec₃ : tagRecords s₃.tagMemoryMap 0 = [⟨100, false⟩, ⟨100, true⟩] := by
    rw [(ht₃ 0 (mem_assignedMarks_markZero _)).2, hrec₂]
    decide
  have hmarks : 0 ∈ marksAt s₃ (.mem 100) := by
    rw [hin₃ _ (mem_addrRange.mpr (by decide))]
    exact mem_assignedMarks_markZero s₂
  refine ⟨s₃, ?_, hmarks, hrec₃, fun hagree => ?_⟩
  · refine (runs_append [setByte [markZero] markZero_sized, setByte [] (by simp)] _ _).trans ?_
    rw [h₂, Option.bind_some, runs_cons, h₃]
    rfl
  · have hlive := (hagree 0 Nat.one_pos 100).mp hmarks
    rw [hrec₃] at hlive
    exact not_liveAt_cleared hlive

end DytanTagIndex
