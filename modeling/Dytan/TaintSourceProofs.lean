import Dytan.SyscallStateProofs

/-! # Taint sources — the callbacks that give bytes their marks

    The read callbacks of file and network sources, `SetNewTaintForMemory` and
    `AssignTagToByteRange`.  A callback draws marks from the generator and
    stores, at each byte it taints, a fresh bitset with one mark.

    The loops are described in two parts: which tag each byte of the buffer
    gets (a list that depends on the generator and on the loop's own
    variables), and what storing that list does to the taint map. -/

namespace DytanTaintSource

open DytanBitset DytanRegister DytanTaintState DytanMarkFlow DytanSyscallState

variable {ws : WordSize} {N : Nat}

/-- `bitset_set_bit(s, tag)` on an `int`: a negative one converts to a position
    beyond every bitset. -/
def setTag (s : Bitset ws.bits) (tag : Int) : Option (Bitset ws.bits) :=
  if 0 ≤ tag then bitsetSetBit s tag.toNat else none

/-- The bitset with one mark. -/
def markOnly (ws : WordSize) (N tag : Nat) : Bitset ws.bits :=
  { bitsetInit ws.bits N with
    bits := (bitsetInit ws.bits N).bits.modify (tag / ws.bits) (· ||| bitsetMask ws.bits tag) }

theorem setTag_init {tag : Nat} (h : tag < N) :
    setTag (bitsetInit ws.bits N) tag = some (markOnly ws N tag) := by
  rw [setTag, if_pos (Int.natCast_nonneg tag), Int.toNat_natCast, bitsetSetBit,
    if_pos (show tag < (bitsetInit ws.bits N).nbits from h)]
  rfl

theorem setTag_neg (s : Bitset ws.bits) {tag : Int} (h : tag < 0) : setTag s tag = none :=
  if_neg (Int.not_le.mpr h)

theorem markOnly_spec {tag : Nat} (h : tag < N) :
    Sized N (markOnly ws N tag) ∧ marks (markOnly ws N tag) = {tag} := by
  obtain ⟨u, hu, hsized, hmarks⟩ := setBit_sized ws.bits_pos (sized_init N) h
  have heq : markOnly ws N tag = u := by
    have hset : setTag (bitsetInit ws.bits N) tag = _ := setTag_init h
    rw [setTag, if_pos (Int.natCast_nonneg tag), Int.toNat_natCast, hu] at hset
    exact (Option.some.inj hset).symm
  rw [heq]
  refine ⟨hsized, ?_⟩
  rw [hmarks, marks_init]
  exact insert_empty_eq tag

/-! ## Drawing marks -/

/-- `taintGen->nextTaintMark()`, after `assert(taintGen)`. -/
def drawMark (g : Globals ws N) : Option (Nat × Globals ws N) := do
  let gen ← g.taintGen
  let (tag, gen') ← nextTaintMark gen
  some (tag, { g with taintGen := some gen' })

/-- The generator after `n` draws. -/
def advance (n : Nat) : TaintGenerator N → TaintGenerator N
  | .counting current max pos le => .counting (current + n) max pos le
  | .constant seed lt => .constant seed lt

/-- The mark of draw number `i`, from 0 on. -/
def tagAt (gen : TaintGenerator N) (i : Nat) : Nat :=
  match gen with
  | .counting current max _ _ => (current + i + 1) % max
  | .constant seed _ => seed

/-- The counter of the generator is good for `n` draws. -/
def CanDraw (gen : TaintGenerator N) (n : Nat) : Prop :=
  match gen with
  | .counting current _ _ _ => n = 0 ∨ current + n < 2 ^ 31
  | .constant _ _ => True

@[simp] theorem advance_zero (gen : TaintGenerator N) : advance 0 gen = gen := by
  cases gen <;> rfl

theorem tagAt_lt (gen : TaintGenerator N) (i : Nat) : tagAt gen i < N := by
  cases gen with
  | counting current max pos le => exact Nat.lt_of_lt_of_le (Nat.mod_lt _ pos) le
  | constant seed lt => exact lt

theorem canDraw_zero (gen : TaintGenerator N) : CanDraw gen 0 := by
  cases gen with
  | counting => exact Or.inl rfl
  | constant => trivial

theorem CanDraw.mono {gen : TaintGenerator N} {m n : Nat} (h : CanDraw gen n) (hmn : m ≤ n) :
    CanDraw gen m := by
  cases gen with
  | counting current max pos le =>
      rcases h with rfl | h
      · exact Or.inl (Nat.le_zero.mp hmn)
      · exact Or.inr (by omega)
  | constant => trivial

/-- Draw number `k`. -/
theorem nextTaintMark_advance {gen : TaintGenerator N} {k : Nat} (h : CanDraw gen (k + 1)) :
    nextTaintMark (advance k gen) = some (tagAt gen k, advance (k + 1) gen) := by
  cases gen with
  | counting current max pos le =>
      have hlt : current + k + 1 < 2 ^ 31 := by
        rcases h with h | h
        · exact nomatch h
        · omega
      exact if_pos hlt
  | constant seed lt => rfl

theorem nextTaintMark_advance_none {gen : TaintGenerator N} {k : Nat}
    (h : ¬ CanDraw gen (k + 1)) : nextTaintMark (advance k gen) = none := by
  cases gen with
  | counting current max pos le =>
      have hlt : ¬ current + k + 1 < 2 ^ 31 := fun hlt => h (Or.inr (by omega))
      exact if_neg hlt
  | constant seed lt => exact absurd trivial h

/-! ## The callbacks -/

/-- `pathSourceReadCallbackPerRead`: one mark for the whole buffer. -/
def pathSourceReadCallbackPerRead (args : SyscallArguments ws) (g : Globals ws N) :
    Option (Globals ws N) :=
  let ret := int args.ret
  if ret.toInt ≤ 0 then some g
  else do
    let (tag, g') ← drawMark g
    let s ← setTag (bitsetInit ws.bits N) tag
    some (g'.setMem (copyRange s args.arg1 (ofInt ws ret) g'.memTaintMap))

/-- One turn of the per-byte loops; `s` is empty again after it. -/
def taintByte (p : Bitset ws.bits × Globals ws N) (addr : Addr ws) :
    Option (Bitset ws.bits × Globals ws N) := do
  let (tag, g) ← drawMark p.2
  let s ← setTag p.1 tag
  some (bitsetReset s, g.setMem (copyByte s g.memTaintMap addr))

/-- The per-byte loop over `[start, start + size)`. -/
def taintBytes (start size : Addr ws) (g : Globals ws N) : Option (Globals ws N) :=
  if g.taintGen.isSome then
    ((addrRange start size).foldlM taintByte (bitsetInit ws.bits N, g)).map Prod.snd
  else none

/-- `pathSourceReadCallbackPerByte`: a mark for each byte. -/
def pathSourceReadCallbackPerByte (args : SyscallArguments ws) (g : Globals ws N) :
    Option (Globals ws N) :=
  let ret := int args.ret
  if ret.toInt ≤ 0 then some g
  else taintBytes args.arg1 (ofInt ws ret) g

/-- `pathSourceReadDefault`. -/
def pathSourceReadDefault (_ : SyscallArguments ws) (g : Globals ws N) : Option (Globals ws N) :=
  some g

/-- `datFile`: the configured ranges.  The arrays have 256 elements, and those
    that are not configured are zero. -/
structure DatFile where
  ranges : List (Int × Int)
  length_le : ranges.length ≤ 256

/-- A file without ranges fits. -/
theorem nil_length_le : ([] : List (Int × Int)).length ≤ 256 := Nat.zero_le 256

/-- `datFile.start[index]` and `datFile.end[index]`. -/
def DatFile.range (d : DatFile) (index : Nat) : Option (Int × Int) :=
  if index < 256 then some (d.ranges.getD index (0, 0)) else none

/-- The variables of the per-offset loop; `count` is static. -/
structure OffsetLoop (N : Nat) where
  count : Int
  flag : Bool
  index : Nat
  tag : Int
  taintGen : Option (TaintGenerator N)

/-- The body of the per-offset loop up to `bitset_set_bit`; `false` is
    `continue`.  An overflow of `count` is undefined. -/
def nextOffset (d : DatFile) (l : OffsetLoop N) : Option (OffsetLoop N × Bool) := do
  if l.count + 1 < 2 ^ 31 then
    let count := l.count + 1
    let (start, stop) ← d.range l.index
    if count < start ∨ count > stop then
      some ({ l with count := count }, false)
    else
      let flag := l.flag || decide (count = start)
      let index := if count = stop then l.index + 1 else l.index
      if flag then
        let gen ← l.taintGen
        let (tag, gen') ← nextTaintMark gen
        some (⟨count, false, index, tag, some gen'⟩, true)
      else some (⟨count, flag, index, l.tag, l.taintGen⟩, true)
  else none

/-- One turn of the per-offset loop. -/
def offsetByte (d : DatFile) (p : Bitset ws.bits × OffsetLoop N × TaintMap ws) (addr : Addr ws) :
    Option (Bitset ws.bits × OffsetLoop N × TaintMap ws) := do
  let (l, tainted) ← nextOffset d p.2.1
  if tainted then
    let s ← setTag p.1 l.tag
    some (bitsetReset s, l, copyByte s p.2.2 addr)
  else some (p.1, l, p.2.2)

/-- `pathSourceReadCallbackPerOffset`: the bytes of the configured ranges. -/
def pathSourceReadCallbackPerOffset (d : DatFile) (args : SyscallArguments ws)
    (g : Globals ws N) : Option (Globals ws N) :=
  let ret := int args.ret
  if ret.toInt ≤ 0 then some g
  else if g.taintGen.isSome then do
    let (_, l, m) ← (addrRange args.arg1 (ofInt ws ret)).foldlM (offsetByte d)
      (bitsetInit ws.bits N, ⟨g.count, false, 0, -1, g.taintGen⟩, g.memTaintMap)
    some { g.setMem m with count := l.count, taintGen := l.taintGen }
  else none

/-- `networkReadCallbackPerByte`. -/
def networkReadCallbackPerByte (start length : Addr ws) (g : Globals ws N) :
    Option (Globals ws N) :=
  taintBytes start length g

/-- `networkReadCallbackPerRead`. -/
def networkReadCallbackPerRead (start length : Addr ws) (g : Globals ws N) :
    Option (Globals ws N) := do
  let (tag, g') ← drawMark g
  let s ← setTag (bitsetInit ws.bits N) tag
  some (g'.setMem (copyRange s start length g'.memTaintMap))

/-- `SetNewTaintForMemory`: a mark of the caller's, or a new one for `-1`. -/
def setNewTaintForMemory (addr size : Addr ws) (taintMark : Int) (g : Globals ws N) :
    Option (Globals ws N) := do
  let (tag, g') ←
    if taintMark = -1 then (drawMark g).map fun p => ((p.1 : Int), p.2)
    else if taintMark ≥ N then none
    else some (taintMark, g)
  let s ← setTag (bitsetInit ws.bits N) tag
  some (g'.setMem (copyRange s addr size g'.memTaintMap))

/-- `AssignTagToByteRange`: one mark for each name. -/
def assignTagToByteRange (start size : Addr ws) (name : String) (g : Globals ws N) :
    Option (Globals ws N) :=
  if g.taintGen.isSome then do
    let (tag, g') ←
      match g.tagMap name with
      | some tag => some (tag, g)
      | none => (drawMark g).map fun p =>
          (p.1, { p.2 with tagMap := Function.update p.2.tagMap name (some p.1) })
    let s ← setTag (bitsetInit ws.bits N) tag
    some (g'.setMem (copyRange s start size g'.memTaintMap))
  else none

/-! ## Storing a list of tags -/

/-- Store a bitset with one mark at each byte that got a tag. -/
def writeTags (N : Nat) (writes : List (Addr ws × Option Nat)) (m : TaintMap ws) : TaintMap ws :=
  writes.foldl (fun m p =>
    match p.2 with
    | some tag => m.insert p.1 (markOnly ws N tag)
    | none => m) m

theorem writeTags_cons (a : Addr ws) (tag : Option Nat) (rest : List (Addr ws × Option Nat))
    (m : TaintMap ws) :
    writeTags N ((a, tag) :: rest) m
      = writeTags N rest (match tag with
        | some t => m.insert a (markOnly ws N t)
        | none => m) := rfl

theorem writeTags_of_notMem {writes : List (Addr ws × Option Nat)} {a : Addr ws}
    (h : ∀ t, (a, some t) ∉ writes) (m : TaintMap ws) : (writeTags N writes m)[a]? = m[a]? := by
  induction writes generalizing m with
  | nil => rfl
  | cons p rest ih =>
      obtain ⟨b, tag⟩ := p
      rw [writeTags_cons, ih fun t ht => h t (List.mem_cons_of_mem _ ht)]
      cases tag with
      | none => rfl
      | some t =>
          have hb : b ≠ a := by
            rintro rfl
            exact h t List.mem_cons_self
          show (m.insert b (markOnly ws N t))[a]? = m[a]?
          rw [Std.ExtTreeMap.getElem?_insert]
          simp [hb]

theorem writeTags_of_mem {writes : List (Addr ws × Option Nat)}
    (hnodup : (writes.map Prod.fst).Nodup) {a : Addr ws} {t : Nat} (h : (a, some t) ∈ writes)
    (m : TaintMap ws) : (writeTags N writes m)[a]? = some (markOnly ws N t) := by
  induction writes generalizing m with
  | nil => exact absurd h List.not_mem_nil
  | cons p rest ih =>
      obtain ⟨b, tag⟩ := p
      rw [List.map_cons, List.nodup_cons] at hnodup
      rw [writeTags_cons]
      rcases List.mem_cons.mp h with heq | hrest
      · cases heq
        rw [writeTags_of_notMem]
        · exact Std.ExtTreeMap.getElem?_insert_self
        · intro t' ht'
          exact hnodup.1 (List.mem_map.mpr ⟨_, ht', rfl⟩)
      · exact ih hnodup.2 hrest _

/-- A range paired with its tags names each address once. -/
theorem zip_addrRange_nodup {start size : Addr ws} {tags : List (Option Nat)}
    (h : tags.length = (addrRange start size).length) :
    (((addrRange start size).zip tags).map Prod.fst).Nodup := by
  rw [List.map_fst_zip (Nat.le_of_eq h.symm)]
  exact addrRange_nodup start size

section WriteRange

variable {start size a : Addr ws} {tags : List (Option Nat)} {i : Nat}

/-- A byte that got a tag has that mark. -/
theorem writeTags_range_some (hlen : tags.length = (addrRange start size).length)
    (ha : (addrRange start size)[i]? = some a) {t : Nat} (ht : tags[i]? = some (some t))
    (hlt : t < N) (m : TaintMap ws) :
    entryMarks (writeTags N ((addrRange start size).zip tags) m)[a]? = {t} := by
  have hmem : (a, some t) ∈ (addrRange start size).zip tags := by
    refine List.mem_of_getElem? (i := i) ?_
    rw [List.getElem?_zip_eq_some]
    exact ⟨ha, ht⟩
  rw [writeTags_of_mem (zip_addrRange_nodup hlen) hmem, entryMarks_some]
  exact (markOnly_spec hlt).2

/-- A byte that got no tag keeps its entry. -/
theorem writeTags_range_none (ha : (addrRange start size)[i]? = some a)
    (ht : tags[i]? = some none) (m : TaintMap ws) :
    (writeTags N ((addrRange start size).zip tags) m)[a]? = m[a]? := by
  refine writeTags_of_notMem (fun t hmem => ?_) m
  obtain ⟨j, hj⟩ := List.getElem?_of_mem hmem
  rw [List.getElem?_zip_eq_some] at hj
  obtain ⟨hja, hjt⟩ := hj
  have hij : i = j := by
    have h₁ := addrRange_getElem? ha
    have h₂ : a.toNat = start.toNat + j := addrRange_getElem? hja
    omega
  subst hij
  rw [ht] at hjt
  exact nomatch hjt

/-- A byte outside of the range keeps its entry. -/
theorem writeTags_range_out (ha : a ∉ addrRange start size) (m : TaintMap ws) :
    (writeTags N ((addrRange start size).zip tags) m)[a]? = m[a]? :=
  writeTags_of_notMem (fun _ hmem => ha (List.of_mem_zip hmem).1) m

end WriteRange

/-! ## What the loops store -/

theorem drawMark_eq {g : Globals ws N} {gen : TaintGenerator N} (h : g.taintGen = some gen) :
    drawMark g = (nextTaintMark gen).map fun p => (p.1, { g with taintGen := some p.2 }) := by
  rw [drawMark, h]
  cases hnext : nextTaintMark gen with
  | none => simp [hnext]
  | some p => simp [hnext]

theorem reset_markOnly {tag : Nat} (h : tag < N) :
    bitsetReset (markOnly ws N tag) = bitsetInit ws.bits N :=
  reset_eq_init (markOnly_spec h).1

theorem copyByte_markOnly {tag : Nat} (h : tag < N) (m : TaintMap ws) (a : Addr ws) :
    copyByte (markOnly ws N tag) m a = m.insert a (markOnly ws N tag) := by
  rw [copyByte, copy_eq_self (markOnly_spec h).1]

/-- The tags of `n` bytes, a draw for each, from draw number `k` on. -/
def byteTags (gen : TaintGenerator N) (k n : Nat) : List (Option Nat) :=
  (List.range' k n).map fun i => some (tagAt gen i)

/-- The per-byte loop draws a mark for each byte and stores them. -/
theorem foldlM_taintByte (as : List (Addr ws)) {g : Globals ws N} {gen : TaintGenerator N}
    {k : Nat} (hgen : g.taintGen = some (advance k gen)) (hk : CanDraw gen k) :
    (CanDraw gen (k + as.length) →
        as.foldlM taintByte (bitsetInit ws.bits N, g) = some (bitsetInit ws.bits N,
          { g.setMem (writeTags N (as.zip (byteTags gen k as.length)) g.memTaintMap) with
            taintGen := some (advance (k + as.length) gen) }))
      ∧ (¬ CanDraw gen (k + as.length) →
        as.foldlM taintByte (bitsetInit ws.bits N, g) = none) := by
  induction as generalizing g k with
  | nil =>
      refine ⟨fun _ => ?_, fun h => absurd hk h⟩
      rw [List.foldlM_nil, List.length_nil, Nat.add_zero, ← hgen]
      rfl
  | cons a rest ih =>
      have hlen : k + (a :: rest).length = k + 1 + rest.length := by
        rw [List.length_cons]
        omega
      rw [List.foldlM_cons, taintByte, drawMark_eq hgen, hlen]
      by_cases hnext : CanDraw gen (k + 1)
      · have hlt := tagAt_lt gen k
        rw [nextTaintMark_advance hnext]
        simp only [Option.map_some, Option.bind_eq_bind, Option.bind_some, setTag_init hlt,
          reset_markOnly hlt, copyByte_markOnly hlt]
        exact ih rfl hnext
      · refine ⟨fun h => absurd (h.mono (by omega)) hnext, fun _ => ?_⟩
        rw [nextTaintMark_advance_none hnext]
        rfl

/-- One draw. -/
theorem drawMark_spec {g : Globals ws N} {gen : TaintGenerator N} (h : g.taintGen = some gen) :
    (CanDraw gen 1 →
        drawMark g = some (tagAt gen 0, { g with taintGen := some (advance 1 gen) }))
      ∧ (¬ CanDraw gen 1 → drawMark g = none) := by
  rw [drawMark_eq h]
  constructor
  · intro hcan
    have hnext := nextTaintMark_advance (k := 0) hcan
    rw [advance_zero] at hnext
    rw [hnext]
    rfl
  · intro hcan
    have hnext := nextTaintMark_advance_none (k := 0) hcan
    rw [advance_zero] at hnext
    rw [hnext]
    rfl

/-- A draw for each byte of a range. -/
theorem taintBytes_spec {g : Globals ws N} {gen : TaintGenerator N} (h : g.taintGen = some gen)
    (start size : Addr ws) :
    (CanDraw gen (addrRange start size).length →
        taintBytes start size g = some
          { g.setMem (writeTags N ((addrRange start size).zip
              (byteTags gen 0 (addrRange start size).length)) g.memTaintMap) with
            taintGen := some (advance (addrRange start size).length gen) })
      ∧ (¬ CanDraw gen (addrRange start size).length → taintBytes start size g = none) := by
  have hsome : g.taintGen.isSome = true := by rw [h]; rfl
  have hstart : g.taintGen = some (advance 0 gen) := by rw [advance_zero, h]
  obtain ⟨hcan, hnot⟩ := foldlM_taintByte (addrRange start size) hstart (canDraw_zero gen)
  rw [Nat.zero_add] at hcan hnot
  rw [taintBytes, if_pos hsome]
  exact ⟨fun hc => by rw [hcan hc]; rfl, fun hc => by rw [hnot hc]; rfl⟩

/-- The tag the next byte gets from the per-offset loop, if any.  Tainting a
    byte while `tag` is still -1 fails. -/
def offsetTag (d : DatFile) (l : OffsetLoop N) : Option (Option Nat × OffsetLoop N) := do
  let (l', tainted) ← nextOffset d l
  if tainted then
    if 0 ≤ l'.tag then some (some l'.tag.toNat, l') else none
  else some (none, l')

/-- The tags of the next `n` bytes, and the loop's variables after them. -/
def offsetTags (d : DatFile) : Nat → OffsetLoop N → Option (List (Option Nat) × OffsetLoop N)
  | 0, l => some ([], l)
  | n + 1, l => do
      let (tag, l') ← offsetTag d l
      let (tags, l'') ← offsetTags d n l'
      some (tag :: tags, l'')

section OffsetTag

variable {d : DatFile} {l : OffsetLoop N} {o : Int} {r : Int × Int}

theorem nextOffset_eq (hcount : l.count + 1 = o) (ho : o < 2 ^ 31)
    (hrange : d.range l.index = some r) :
    nextOffset d l
      = if o < r.1 ∨ o > r.2 then some ({ l with count := o }, false)
        else if (l.flag || decide (o = r.1)) = true then
          l.taintGen.bind fun gen => (nextTaintMark gen).bind fun p =>
            some (⟨o, false, if o = r.2 then l.index + 1 else l.index, p.1, some p.2⟩, true)
        else some (⟨o, l.flag || decide (o = r.1), if o = r.2 then l.index + 1 else l.index,
          l.tag, l.taintGen⟩, true) := by
  rw [nextOffset, hcount, if_pos ho, hrange]
  rfl

/-- A byte outside of the range the loop looks at. -/
theorem offsetTag_skip (hcount : l.count + 1 = o) (ho : o < 2 ^ 31)
    (hrange : d.range l.index = some r) (hout : o < r.1 ∨ o > r.2) :
    offsetTag d l = some (none, { l with count := o }) := by
  rw [offsetTag, nextOffset_eq hcount ho hrange, if_pos hout]
  rfl

/-- The first byte of the range draws a mark. -/
theorem offsetTag_draw {gen gen' : TaintGenerator N} {tag : Nat} (hcount : l.count + 1 = o)
    (ho : o < 2 ^ 31) (hrange : d.range l.index = some r) (hin : ¬ (o < r.1 ∨ o > r.2))
    (hfirst : o = r.1) (hgen : l.taintGen = some gen)
    (hnext : nextTaintMark gen = some (tag, gen')) :
    offsetTag d l = some (some tag,
      ⟨o, false, if o = r.2 then l.index + 1 else l.index, tag, some gen'⟩) := by
  rw [offsetTag, nextOffset_eq hcount ho hrange, if_neg hin,
    if_pos (by rw [decide_eq_true hfirst, Bool.or_true]), hgen, Option.bind_some, hnext]
  simp

theorem offsetTag_draw_none {gen : TaintGenerator N} (hcount : l.count + 1 = o)
    (ho : o < 2 ^ 31) (hrange : d.range l.index = some r) (hin : ¬ (o < r.1 ∨ o > r.2))
    (hfirst : o = r.1) (hgen : l.taintGen = some gen) (hnext : nextTaintMark gen = none) :
    offsetTag d l = none := by
  rw [offsetTag, nextOffset_eq hcount ho hrange, if_neg hin,
    if_pos (by rw [decide_eq_true hfirst, Bool.or_true]), hgen, Option.bind_some, hnext]
  rfl

/-- A later byte of the range gets the tag there is, which must not be -1. -/
theorem offsetTag_keep (hcount : l.count + 1 = o) (ho : o < 2 ^ 31)
    (hrange : d.range l.index = some r) (hin : ¬ (o < r.1 ∨ o > r.2)) (hflag : l.flag = false)
    (hlater : o ≠ r.1) :
    offsetTag d l = if 0 ≤ l.tag then some (some l.tag.toNat,
        ⟨o, false, if o = r.2 then l.index + 1 else l.index, l.tag, l.taintGen⟩)
      else none := by
  rw [offsetTag, nextOffset_eq hcount ho hrange, if_neg hin, hflag, decide_eq_false hlater,
    Bool.or_false, if_neg Bool.false_ne_true]
  rfl

theorem offsetTag_overflow (hcount : l.count + 1 = o) (ho : ¬ o < 2 ^ 31) :
    offsetTag d l = none := by
  rw [offsetTag, nextOffset, hcount, if_neg ho]
  rfl

theorem offsetTag_outOfArrays (hindex : ¬ l.index < 256) : offsetTag d l = none := by
  rw [offsetTag, nextOffset]
  by_cases ho : l.count + 1 < 2 ^ 31
  · rw [if_pos ho, DatFile.range, if_neg hindex]
    rfl
  · rw [if_neg ho]
    rfl

end OffsetTag

theorem nextOffset_tag_lt {d : DatFile} {l l' : OffsetLoop N} {tainted : Bool}
    (h : nextOffset d l = some (l', tainted)) (hl : l.tag < N) : l'.tag < N := by
  rw [nextOffset] at h
  split at h
  · obtain ⟨⟨start, stop⟩, -, h⟩ := Option.bind_eq_some_iff.mp h
    simp only at h
    split at h
    · cases h
      exact hl
    · split at h
      · obtain ⟨gen, -, h⟩ := Option.bind_eq_some_iff.mp h
        obtain ⟨⟨tag, gen'⟩, hnext, h⟩ := Option.bind_eq_some_iff.mp h
        cases h
        exact Int.ofNat_lt.mpr (nextTaintMark_lt hnext)
      · cases h
        exact hl
  · exact nomatch h

theorem offsetTag_count {d : DatFile} {l l' : OffsetLoop N} {tag : Option Nat}
    (h : offsetTag d l = some (tag, l')) : l'.count = l.count + 1 ∧ (l.tag < N → l'.tag < N
      ∧ ∀ t, tag = some t → t < N) := by
  obtain ⟨⟨l₁, tainted⟩, hnext, h⟩ := Option.bind_eq_some_iff.mp h
  have hcount : l₁.count = l.count + 1 := by
    rw [nextOffset] at hnext
    split at hnext
    · obtain ⟨⟨start, stop⟩, -, hnext⟩ := Option.bind_eq_some_iff.mp hnext
      simp only at hnext
      split at hnext
      · cases hnext
        rfl
      · split at hnext
        · obtain ⟨gen, -, hnext⟩ := Option.bind_eq_some_iff.mp hnext
          obtain ⟨⟨tag, gen'⟩, -, hnext⟩ := Option.bind_eq_some_iff.mp hnext
          cases hnext
          rfl
        · cases hnext
          rfl
    · exact nomatch hnext
  simp only at h
  split at h
  · split at h
    · rename_i hneg
      cases h
      refine ⟨hcount, fun hl => ?_⟩
      have hlt := nextOffset_tag_lt hnext hl
      refine ⟨hlt, fun t ht => ?_⟩
      cases ht
      omega
    · exact nomatch h
  · cases h
    exact ⟨hcount, fun hl => ⟨nextOffset_tag_lt hnext hl, fun t ht => nomatch ht⟩⟩

/-- The loop counts its bytes, gives each an entry of the list, and every tag
    is a mark. -/
theorem offsetTags_length {d : DatFile} {n : Nat} {l l' : OffsetLoop N} {tags : List (Option Nat)}
    (h : offsetTags d n l = some (tags, l')) :
    tags.length = n ∧ l'.count = l.count + n
      ∧ (l.tag < N → ∀ (i t : Nat), tags[i]? = some (some t) → t < N) := by
  induction n generalizing l tags with
  | zero =>
      cases h
      exact ⟨rfl, by simp, fun _ i t ht => nomatch ht⟩
  | succ n ih =>
      obtain ⟨⟨tag, l₁⟩, htag, h⟩ := Option.bind_eq_some_iff.mp h
      obtain ⟨⟨rest, l₂⟩, hrest, h⟩ := Option.bind_eq_some_iff.mp h
      cases h
      obtain ⟨hlen, hcount, hlt⟩ := ih hrest
      obtain ⟨hcount₁, hlt₁⟩ := offsetTag_count htag
      refine ⟨by rw [List.length_cons, hlen], by omega, fun hl i t ht => ?_⟩
      obtain ⟨hl₁, htag₁⟩ := hlt₁ hl
      cases i with
      | zero =>
          rw [List.getElem?_cons_zero, Option.some_inj] at ht
          exact htag₁ t ht
      | succ i => exact hlt hl₁ i t ht

/-- The per-offset loop stores the tags of its bytes. -/
theorem foldlM_offsetByte (d : DatFile) (as : List (Addr ws)) {l : OffsetLoop N}
    (hl : l.tag < N) (m : TaintMap ws) :
    as.foldlM (offsetByte d) (bitsetInit ws.bits N, l, m)
      = (offsetTags d as.length l).map fun p =>
          (bitsetInit ws.bits N, p.2, writeTags N (as.zip p.1) m) := by
  induction as generalizing l m with
  | nil => rfl
  | cons a rest ih =>
      rw [List.foldlM_cons, offsetByte, List.length_cons, offsetTags, offsetTag]
      cases hnext : nextOffset d l with
      | none => rfl
      | some p =>
          obtain ⟨l', tainted⟩ := p
          have hl' := nextOffset_tag_lt hnext hl
          cases tainted with
          | false =>
              simp only [Option.bind_eq_bind, Option.bind_some, Bool.false_eq_true, if_false]
              rw [ih hl']
              cases htags : offsetTags d rest.length l' with
              | none => rfl
              | some p => rfl
          | true =>
              by_cases hneg : 0 ≤ l'.tag
              · have hlt : l'.tag.toNat < N := by omega
                have hset : setTag (bitsetInit ws.bits N) l'.tag
                    = some (markOnly ws N l'.tag.toNat) := by
                  rw [← setTag_init hlt, Int.toNat_of_nonneg hneg]
                simp only [Option.bind_eq_bind, Option.bind_some, if_true, hset, hneg,
                  reset_markOnly hlt, copyByte_markOnly hlt]
                rw [ih hl']
                cases htags : offsetTags d rest.length l' with
                | none => rfl
                | some p => rfl
              · simp [setTag_neg _ (Int.not_le.mp hneg), hneg]

end DytanTaintSource
