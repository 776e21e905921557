import Dytan.FailedCallProofs
import Dytan.TagIndexProofs

/-! # The tag index — writers that leave it alone

    `SetTaintForMemory` updates `tagMemoryMap` with the taint map.  Every other
    writer of `memTaintMap` — `ClearTaintForMemory`, `SetNewTaintForMemory`,
    `AssignTagToByteRange`, the read callbacks and the handlers — changes the
    taint map only (`write_spec`).  The index then agrees with the new map
    exactly if the writer gave every byte the marks it had. -/

namespace DytanOtherWriters

open DytanBitset DytanRegister DytanTaintState DytanMarkFlow DytanSyscallState
  DytanSyscallFunctions DytanTaintSource DytanTagIndex
open DytanFailedCall (PathCallback NetworkCallback Environment)
open DytanRegisterAlias (markZero markZero_sized)

variable {ws : WordSize} {N : Nat}

/-- The writers of `memTaintMap` but `SetTaintForMemory`, with their
    arguments. -/
inductive Writer (ws : WordSize) where
  | clearTaintForMemory (start size : Addr ws)
  | setNewTaintForMemory (addr size : Addr ws) (taintMark : Int)
  | assignTagToByteRange (start size : Addr ws) (name : String)
  | pathCallback (callback : PathCallback) (env : Environment) (args : SyscallArguments ws)
  | networkCallback (callback : NetworkCallback) (start length : Addr ws)
  | handler (sys : Sys) (env : Environment) (mem : AppMemory ws) (args : SyscallArguments ws)

/-- Run a writer. -/
def Writer.run (g : Globals ws N) : Writer ws → Option (Globals ws N)
  | .clearTaintForMemory start size =>
      (DytanTaintState.clearTaintForMemory start size g.state).map fun s => { g with state := s }
  | .setNewTaintForMemory addr size taintMark =>
      DytanTaintSource.setNewTaintForMemory addr size taintMark g
  | .assignTagToByteRange start size name =>
      DytanTaintSource.assignTagToByteRange start size name g
  | .pathCallback callback env args => callback.run env args g
  | .networkCallback callback start length => callback.run start length g
  | .handler sys env mem args => do
      let handle ← observer ws sys
      handle env.sizes mem args g

/-- The mark of draw number `i`. -/
def drawn (g : Globals ws N) (i : Nat) : Nat :=
  match g.taintGen with
  | some gen => tagAt gen i
  | none => 0

/-- The buffer of a read, and nothing where it has read nothing. -/
def readRange (args : SyscallArguments ws) : List (Addr ws) :=
  if (int args.ret).toInt ≤ 0 then [] else addrRange args.arg1 (ofInt ws (int args.ret))

/-- The writer gives the byte at `a` the marks `X`, whatever it had. -/
def Writer.Gives (g : Globals ws N) (a : Addr ws) (X : Set Nat) : Writer ws → Prop
  | .clearTaintForMemory start size =>
      (a ∈ addrRange start size ∧ a ∈ g.memTaintMap) ∧ X = controlMarks g.state
  | .setNewTaintForMemory addr size taintMark =>
      a ∈ addrRange addr size
        ∧ X = {if taintMark = -1 then drawn g 0 else taintMark.toNat}
  | .assignTagToByteRange start size name =>
      a ∈ addrRange start size ∧ X = {(g.tagMap name).getD (drawn g 0)}
  | .pathCallback .perRead _ args => a ∈ readRange args ∧ X = {drawn g 0}
  | .pathCallback .perByte _ args =>
      ∃ i, (readRange args)[i]? = some a ∧ X = {drawn g i}
  | .pathCallback .perOffset env args =>
      ∃ (i t : Nat) (tags : List (Option Nat)) (l : OffsetLoop N), (readRange args)[i]? = some a
        ∧ offsetTags env.datFile (readRange args).length ⟨g.count, false, 0, -1, g.taintGen⟩
            = some (tags, l)
        ∧ tags[i]? = some (some t) ∧ X = {t}
  | .pathCallback .default _ _ => False
  | .networkCallback .perRead start length => a ∈ addrRange start length ∧ X = {drawn g 0}
  | .networkCallback .perByte start length =>
      ∃ i, (addrRange start length)[i]? = some a ∧ X = {drawn g i}
  | .handler sys env _ args => a ∈ erased (handlerRanges sys env.sizes args) ∧ X = ∅

/-- The writer changes the taint map, and there the bytes it gives marks. -/
structure Writes (w : Writer ws) (g g' : Globals ws N) : Prop where
  tags : g'.state.tagMemoryMap = g.state.tagMemoryMap
  given : ∀ a X, w.Gives g a X → marksAt g'.state (.mem a) = X ∧ ∀ t ∈ X, t < N
  kept : ∀ a, (∀ X, ¬ w.Gives g a X) → marksAt g'.state (.mem a) = marksAt g.state (.mem a)

/-- A tag that `bitset_set_bit` takes is a mark. -/
theorem setTag_eq_some {tag : Int} {s : Bitset ws.bits}
    (h : setTag (bitsetInit ws.bits N) tag = some s) :
    0 ≤ tag ∧ tag.toNat < N ∧ s = markOnly ws N tag.toNat := by
  by_cases hneg : tag < 0
  · rw [setTag_neg _ hneg] at h
    exact nomatch h
  · obtain ⟨t, rfl⟩ := Int.eq_ofNat_of_zero_le (Int.not_lt.mp hneg)
    by_cases hlt : t < N
    · have hset : setTag (bitsetInit ws.bits N) (t : Int) = some (markOnly ws N t) :=
        setTag_init hlt
      rw [hset] at h
      cases h
      exact ⟨Int.natCast_nonneg t, hlt, rfl⟩
    · have hnone : setTag (bitsetInit ws.bits N) (t : Int) = none := by
        rw [setTag, if_pos (Int.natCast_nonneg t)]
        exact if_neg hlt
      rw [hnone] at h
      exact nomatch h

/-- Drawing a mark changes the generator only. -/
theorem drawMark_eq_some {g g' : Globals ws N} {tag : Nat} (h : drawMark g = some (tag, g')) :
    tag = drawn g 0 ∧ tag < N ∧ ∃ gen, g' = { g with taintGen := gen } := by
  cases hgen : g.taintGen with
  | none =>
      rw [drawMark, hgen] at h
      cases h
  | some gen =>
      rw [drawn, hgen]
      by_cases hcan : CanDraw gen 1
      · rw [(drawMark_spec hgen).1 hcan] at h
        cases h
        exact ⟨rfl, tagAt_lt gen 0, some (advance 1 gen), rfl⟩
      · rw [(drawMark_spec hgen).2 hcan] at h
        cases h

/-- A draw whose mark is passed on in another form. -/
theorem drawMark_map_eq_some {α : Type} {g : Globals ws N} {f : Nat × Globals ws N → α} {x : α}
    (h : (drawMark g).map f = some x) :
    drawn g 0 < N ∧ ∃ gen, x = f (drawn g 0, { g with taintGen := gen }) := by
  obtain ⟨⟨tag, g'⟩, hdraw, rfl⟩ := Option.map_eq_some_iff.mp h
  obtain ⟨rfl, hlt, gen, rfl⟩ := drawMark_eq_some hdraw
  exact ⟨hlt, gen, rfl⟩

/-! ## What a function that completed has done -/

/-- The end of every function that taints a whole range with one mark. -/
theorem storeTag_eq_some {tag : Int} {start size : Addr ws} {g g' : Globals ws N}
    (h : (do
      let s ← setTag (bitsetInit ws.bits N) tag
      some (g.setMem (copyRange s start size g.memTaintMap))) = some g') :
    tag.toNat < N
      ∧ g' = g.setMem (copyRange (markOnly ws N tag.toNat) start size g.memTaintMap) := by
  obtain ⟨s, hset, h⟩ := Option.bind_eq_some_iff.mp h
  cases h
  obtain ⟨-, hlt, rfl⟩ := setTag_eq_some hset
  exact ⟨hlt, rfl⟩

/-- The per-read callbacks copy a new mark to the range. -/
theorem perRead_eq_some {g g' : Globals ws N} {start length : Addr ws}
    (h : networkReadCallbackPerRead start length g = some g') :
    drawn g 0 < N ∧ ∃ gen, g' = { g with taintGen := gen }.setMem
      (copyRange (markOnly ws N (drawn g 0)) start length g.memTaintMap) := by
  obtain ⟨⟨tag, g₁⟩, hdraw, h⟩ := Option.bind_eq_some_iff.mp h
  obtain ⟨rfl, hlt, gen, rfl⟩ := drawMark_eq_some hdraw
  obtain ⟨-, rfl⟩ := storeTag_eq_some h
  exact ⟨hlt, gen, rfl⟩

/-- `SetNewTaintForMemory` copies the caller's mark, or a new one. -/
theorem setNewTaintForMemory_eq_some {g g' : Globals ws N} {addr size : Addr ws} {taintMark : Int}
    (h : setNewTaintForMemory addr size taintMark g = some g') :
    ∃ tag gen, tag = (if taintMark = -1 then drawn g 0 else taintMark.toNat) ∧ tag < N
      ∧ g' = { g with taintGen := gen }.setMem
        (copyRange (markOnly ws N tag) addr size g.memTaintMap) := by
  rw [setNewTaintForMemory] at h
  by_cases hnew : taintMark = -1
  · rw [if_pos hnew] at h ⊢
    obtain ⟨⟨tag, g₁⟩, hnext, h⟩ := Option.bind_eq_some_iff.mp h
    obtain ⟨hlt, gen, heq⟩ := drawMark_map_eq_some hnext
    cases heq
    obtain ⟨-, rfl⟩ := storeTag_eq_some h
    exact ⟨drawn g 0, gen, rfl, hlt, rfl⟩
  · rw [if_neg hnew] at h ⊢
    by_cases hbig : taintMark ≥ N
    · rw [if_pos hbig] at h
      exact nomatch h
    · rw [if_neg hbig, Option.bind_eq_bind, Option.bind_some] at h
      obtain ⟨hlt, rfl⟩ := storeTag_eq_some h
      exact ⟨taintMark.toNat, g.taintGen, rfl, hlt, rfl⟩

/-- `AssignTagToByteRange` copies the mark of the name, a new one the first
    time, and records it. -/
theorem assignTagToByteRange_eq_some {g g' : Globals ws N} {start size : Addr ws} {name : String}
    (h : assignTagToByteRange start size name g = some g') :
    ∃ tag gen, tag = (g.tagMap name).getD (drawn g 0) ∧ tag < N
      ∧ g' = { g with
          taintGen := gen
          tagMap := Function.update g.tagMap name (some tag) }.setMem
        (copyRange (markOnly ws N tag) start size g.memTaintMap) := by
  rw [assignTagToByteRange] at h
  by_cases hgen : g.taintGen.isSome = true
  · rw [if_pos hgen] at h
    cases hname : g.tagMap name with
    | some t =>
        simp only [hname, Option.bind_eq_bind, Option.bind_some] at h
        obtain ⟨hlt, rfl⟩ := storeTag_eq_some h
        refine ⟨t, g.taintGen, rfl, hlt, ?_⟩
        rw [← hname, Function.update_eq_self, Int.toNat_natCast]
    | none =>
        simp only [hname] at h
        obtain ⟨⟨tag, g₁⟩, hnext, h⟩ := Option.bind_eq_some_iff.mp h
        obtain ⟨hlt, gen, heq⟩ := drawMark_map_eq_some hnext
        cases heq
        obtain ⟨-, rfl⟩ := storeTag_eq_some h
        exact ⟨drawn g 0, gen, rfl, hlt, rfl⟩
  · rw [if_neg hgen] at h
    exact nomatch h

/-- The per-byte loop stores the next marks of the generator. -/
theorem taintBytes_eq_some {g g' : Globals ws N} {start size : Addr ws}
    (h : taintBytes start size g = some g') :
    ∃ gen gen', g.taintGen = some gen ∧ g' = { g with taintGen := gen' }.setMem (writeTags N
      ((addrRange start size).zip (byteTags gen 0 (addrRange start size).length))
      g.memTaintMap) := by
  cases hgen : g.taintGen with
  | none =>
      rw [taintBytes, hgen] at h
      cases h
  | some gen =>
      by_cases hcan : CanDraw gen (addrRange start size).length
      · rw [(taintBytes_spec hgen start size).1 hcan] at h
        cases h
        exact ⟨gen, some (advance (addrRange start size).length gen), rfl, rfl⟩
      · rw [(taintBytes_spec hgen start size).2 hcan] at h
        cases h

/-- The per-offset callback that has read something stores the tags of its
    loop. -/
theorem perOffset_eq_some {d : DatFile} {args : SyscallArguments ws} {g g' : Globals ws N}
    (hret : ¬ (int args.ret).toInt ≤ 0)
    (h : pathSourceReadCallbackPerOffset d args g = some g') :
    ∃ tags l, offsetTags d (addrRange args.arg1 (ofInt ws (int args.ret))).length
        ⟨g.count, false, 0, -1, g.taintGen⟩ = some (tags, l)
      ∧ g' = { g with count := l.count, taintGen := l.taintGen }.setMem (writeTags N
        ((addrRange args.arg1 (ofInt ws (int args.ret))).zip tags) g.memTaintMap) := by
  rw [pathSourceReadCallbackPerOffset] at h
  simp only [if_neg hret] at h
  by_cases hgen : g.taintGen.isSome = true
  · rw [if_pos hgen] at h
    obtain ⟨⟨b, l, m⟩, hloop, h⟩ := Option.bind_eq_some_iff.mp h
    cases h
    have hneg : (-1 : Int) < N := by omega
    rw [foldlM_offsetByte d _ hneg] at hloop
    obtain ⟨⟨tags, l'⟩, htags, heq⟩ := Option.map_eq_some_iff.mp hloop
    cases heq
    exact ⟨tags, l', htags, rfl⟩
  · rw [if_neg hgen] at h
    exact nomatch h

/-- A read that has read nothing taints nothing. -/
theorem pathCallback_idle {callback : PathCallback} {env : Environment}
    {args : SyscallArguments ws} (hret : (int args.ret).toInt ≤ 0) (g : Globals ws N) :
    callback.run env args g = some g := by
  cases callback with
  | perRead => exact if_pos hret
  | perByte => exact if_pos hret
  | perOffset => exact if_pos hret
  | default => rfl

/-! ## The functions as writers -/

/-- Copying one mark to a range. -/
theorem copyRange_writes {w : Writer ws} {g g' : Globals ws N} {tag : Nat} (hlt : tag < N)
    {start size : Addr ws} (hstate : g'.state = g.state)
    (hgives : ∀ a X, w.Gives g a X ↔ a ∈ addrRange start size ∧ X = {tag}) :
    Writes w g (g'.setMem (copyRange (markOnly ws N tag) start size g'.memTaintMap)) := by
  have hget : ∀ a, (copyRange (markOnly ws N tag) start size g'.memTaintMap)[a]?
      = if a ∈ addrRange start size then some (markOnly ws N tag) else g.state.memTaintMap[a]? := by
    intro a
    rw [copyRange_getElem? (markOnly_spec hlt).1, Globals.memTaintMap, hstate]
  refine ⟨?_, fun a X hX => ?_, fun a hnone => ?_⟩
  · show g'.state.tagMemoryMap = _
    rw [hstate]
  · obtain ⟨ha, rfl⟩ := (hgives a X).mp hX
    refine ⟨?_, fun t ht => ht ▸ hlt⟩
    show entryMarks (copyRange (markOnly ws N tag) start size g'.memTaintMap)[a]? = _
    rw [hget, if_pos ha, entryMarks_some]
    exact (markOnly_spec hlt).2
  · have ha : a ∉ addrRange start size := fun ha => hnone _ ((hgives a _).mpr ⟨ha, rfl⟩)
    show entryMarks (copyRange (markOnly ws N tag) start size g'.memTaintMap)[a]? = _
    rw [hget, if_neg ha]
    rfl

/-- Storing a list of tags. -/
theorem writeTags_writes {w : Writer ws} {g g' : Globals ws N} {start size : Addr ws}
    {tags : List (Option Nat)} (hlen : tags.length = (addrRange start size).length)
    (hlt : ∀ (i t : Nat), tags[i]? = some (some t) → t < N)
    (htags : g'.state.tagMemoryMap = g.state.tagMemoryMap)
    (hmem : g'.memTaintMap = writeTags N ((addrRange start size).zip tags) g.memTaintMap)
    (hgives : ∀ a X, w.Gives g a X ↔ ∃ (i t : Nat), (addrRange start size)[i]? = some a
      ∧ tags[i]? = some (some t) ∧ X = {t}) : Writes w g g' := by
  refine ⟨htags, fun a X hX => ?_, fun a hnone => ?_⟩
  · obtain ⟨i, t, ha, ht, rfl⟩ := (hgives a X).mp hX
    refine ⟨?_, fun t' ht' => ht' ▸ hlt i t ht⟩
    show entryMarks g'.memTaintMap[a]? = _
    rw [hmem]
    exact writeTags_range_some hlen ha ht (hlt i t ht) _
  · show entryMarks g'.memTaintMap[a]? = _
    rw [hmem]
    refine congrArg entryMarks ?_
    by_cases ha : a ∈ addrRange start size
    · obtain ⟨i, hi⟩ := List.getElem?_of_mem ha
      have hi' : i < tags.length := by
        rw [hlen]
        exact (List.getElem?_eq_some_iff.mp hi).1
      cases ht : tags[i] with
      | none => exact writeTags_range_none hi (by rw [List.getElem?_eq_getElem hi', ht]) _
      | some t =>
          refine absurd ((hgives a {t}).mpr ⟨i, t, hi, ?_, rfl⟩) (hnone _)
          rw [List.getElem?_eq_getElem hi', ht]
    · exact writeTags_range_out ha _

/-- A writer with nothing to write. -/
theorem nothing_writes {w : Writer ws} {g : Globals ws N} (hnone : ∀ a X, ¬ w.Gives g a X) :
    Writes w g g :=
  ⟨rfl, fun a X hX => absurd hX (hnone a X), fun _ _ => rfl⟩

theorem byteTags_getElem? (gen : TaintGenerator N) {i n : Nat} (h : i < n) :
    (byteTags gen 0 n)[i]? = some (some (tagAt gen i)) := by
  rw [byteTags, List.getElem?_map, List.getElem?_range' h]
  simp

/-- The loop that draws a mark for each byte. -/
theorem taintBytes_writes {w : Writer ws} {g g' : Globals ws N} {start size : Addr ws}
    (h : taintBytes start size g = some g')
    (hgives : ∀ a X, w.Gives g a X ↔ ∃ i, (addrRange start size)[i]? = some a
      ∧ X = {drawn g i}) : Writes w g g' := by
  obtain ⟨gen, gen', hgen, rfl⟩ := taintBytes_eq_some h
  have hlen : (byteTags gen 0 (addrRange start size).length).length
      = (addrRange start size).length := by
    rw [byteTags, List.length_map, List.length_range']
  have htag : ∀ (i t : Nat), (byteTags gen 0 (addrRange start size).length)[i]? = some (some t)
      ↔ i < (addrRange start size).length ∧ t = drawn g i := by
    intro i t
    rw [drawn, hgen]
    by_cases hi : i < (addrRange start size).length
    · rw [byteTags_getElem? gen hi]
      simp [hi, eq_comm]
    · rw [List.getElem?_eq_none (by rw [hlen]; exact Nat.not_lt.mp hi)]
      refine iff_of_false (fun h => ?_) fun h => hi h.1
      cases h
  refine writeTags_writes hlen ?_ rfl rfl fun a X => (hgives a X).trans ?_
  · intro i t ht
    rw [((htag i t).mp ht).2, drawn, hgen]
    exact tagAt_lt gen i
  · constructor
    · rintro ⟨i, hi, rfl⟩
      exact ⟨i, _, hi, (htag i _).mpr ⟨(List.getElem?_eq_some_iff.mp hi).1, rfl⟩, rfl⟩
    · rintro ⟨i, t, hi, ht, rfl⟩
      exact ⟨i, hi, by rw [((htag i t).mp ht).2]⟩

/-- `ClearTaintForMemory`. -/
theorem clearTaintForMemory_writes {g g' : Globals ws N} (hs : SizedState g.state)
    {start size : Addr ws}
    (h : Writer.run g (.clearTaintForMemory start size) = some g') :
    Writes (.clearTaintForMemory start size) g g' := by
  obtain ⟨s', hrun, rfl⟩ := Option.map_eq_some_iff.mp h
  obtain ⟨s₁, c, hspec, hassigns, -, hmarks⟩ := clearTaintForMemory_spec hs start size
  rw [hspec] at hrun
  cases hrun
  have hc : Sized N c := hassigns.sized c rfl
  have hplace : ∀ a, Place.mem a ∈ rangePlaces start size ∩ present g.state
      ↔ a ∈ addrRange start size ∧ a ∈ g.memTaintMap := by
    intro a
    refine and_congr ?_ ?_
    · constructor
      · rintro ⟨b, hb, heq⟩
        cases heq
        exact hb
      · exact fun ha => ⟨a, ha, rfl⟩
    · rw [Std.ExtTreeMap.mem_iff_isSome_getElem?, Option.isSome_iff_exists]
      exact Iff.rfl
  refine ⟨?_, fun a X hX => ?_, fun a hnone => ?_⟩
  · obtain ⟨control, -, hspec⟩ := Option.bind_eq_some_iff.mp hspec
    obtain ⟨m, -, hspec⟩ := Option.bind_eq_some_iff.mp hspec
    cases hspec
    rfl
  · obtain ⟨ha, rfl⟩ := hX
    constructor
    · rw [marksAt, hassigns.target _ ((hplace a).mpr ha), entryMarks_some, hmarks]
    · intro t ht
      rw [← hmarks] at ht
      exact hc.marks_lt ht
  · rw [marksAt, hassigns.frame _ fun hp => hnone _ ⟨(hplace a).mp hp, rfl⟩]
    rfl

/-- `SetNewTaintForMemory`. -/
theorem setNewTaintForMemory_writes {g g' : Globals ws N} {addr size : Addr ws} {taintMark : Int}
    (h : setNewTaintForMemory addr size taintMark g = some g') :
    Writes (.setNewTaintForMemory addr size taintMark) g g' := by
  obtain ⟨tag, gen, rfl, hlt, rfl⟩ := setNewTaintForMemory_eq_some h
  exact copyRange_writes hlt rfl fun _ _ => Iff.rfl

/-- `AssignTagToByteRange`. -/
theorem assignTagToByteRange_writes {g g' : Globals ws N} {start size : Addr ws} {name : String}
    (h : assignTagToByteRange start size name g = some g') :
    Writes (.assignTagToByteRange start size name) g g' := by
  obtain ⟨tag, gen, rfl, hlt, rfl⟩ := assignTagToByteRange_eq_some h
  exact copyRange_writes hlt rfl fun _ _ => Iff.rfl

/-- The callbacks that draw one mark. -/
theorem networkPerRead_writes {w : Writer ws} {g g' : Globals ws N} {start length : Addr ws}
    (h : networkReadCallbackPerRead start length g = some g')
    (hgives : ∀ a X, w.Gives g a X ↔ a ∈ addrRange start length ∧ X = {drawn g 0}) :
    Writes w g g' := by
  obtain ⟨hlt, gen, rfl⟩ := perRead_eq_some h
  exact copyRange_writes hlt rfl hgives

/-- The callbacks of network sources. -/
theorem networkCallback_writes {callback : NetworkCallback} {g g' : Globals ws N}
    {start length : Addr ws} (h : Writer.run g (.networkCallback callback start length) = some g') :
    Writes (.networkCallback callback start length) g g' := by
  cases callback with
  | perRead => exact networkPerRead_writes h fun _ _ => Iff.rfl
  | perByte => exact taintBytes_writes h fun _ _ => Iff.rfl

/-- The callback that taints by offset. -/
theorem perOffset_writes {env : Environment} {args : SyscallArguments ws} {g g' : Globals ws N}
    (hret : ¬ (int args.ret).toInt ≤ 0)
    (h : pathSourceReadCallbackPerOffset env.datFile args g = some g') :
    Writes (.pathCallback .perOffset env args) g g' := by
  have hrange : readRange args = addrRange args.arg1 (ofInt ws (int args.ret)) := if_neg hret
  have hneg : (-1 : Int) < N := by omega
  obtain ⟨tags, l, htags, rfl⟩ := perOffset_eq_some hret h
  obtain ⟨hlen, -, hlt⟩ := offsetTags_length htags
  refine writeTags_writes hlen (hlt hneg) rfl rfl fun a X => ?_
  simp only [Writer.Gives, hrange, htags]
  constructor
  · rintro ⟨i, t, tags', l', ha, heq, ht, rfl⟩
    cases heq
    exact ⟨i, t, ha, ht, rfl⟩
  · rintro ⟨i, t, ha, ht, rfl⟩
    exact ⟨i, t, tags, l, ha, rfl, ht, rfl⟩

/-- A callback gives no byte a mark when nothing has been read. -/
theorem pathCallback_gives_nothing {callback : PathCallback} {env : Environment}
    {args : SyscallArguments ws} (hret : (int args.ret).toInt ≤ 0) (g : Globals ws N) (a : Addr ws)
    (X : Set Nat) : ¬ (Writer.pathCallback callback env args).Gives g a X := by
  have hrange : readRange args = [] := if_pos hret
  intro hX
  cases callback with
  | perRead =>
      have ha := hX.1
      rw [hrange] at ha
      exact absurd ha List.not_mem_nil
  | perByte =>
      obtain ⟨i, ha, -⟩ := hX
      rw [hrange] at ha
      exact nomatch ha
  | perOffset =>
      obtain ⟨i, t, tags, l, ha, -⟩ := hX
      rw [hrange] at ha
      exact nomatch ha
  | default => exact hX

/-- The callbacks of file sources: nothing is read, or they do as those of
    network sources, or they taint by offset. -/
theorem pathCallback_writes {callback : PathCallback} {env : Environment}
    {args : SyscallArguments ws} {g g' : Globals ws N}
    (h : Writer.run g (.pathCallback callback env args) = some g') :
    Writes (.pathCallback callback env args) g g' := by
  by_cases hret : (int args.ret).toInt ≤ 0
  · cases (pathCallback_idle hret g).symm.trans h
    exact nothing_writes (pathCallback_gives_nothing hret g)
  · have hrange : readRange args = addrRange args.arg1 (ofInt ws (int args.ret)) := if_neg hret
    cases callback with
    | perRead =>
        have hrun : networkReadCallbackPerRead args.arg1 (ofInt ws (int args.ret)) g = some g' :=
          (if_neg hret).symm.trans h
        refine networkPerRead_writes hrun fun a X => ?_
        rw [← hrange]
        exact Iff.rfl
    | perByte =>
        have hrun : taintBytes args.arg1 (ofInt ws (int args.ret)) g = some g' :=
          (if_neg hret).symm.trans h
        refine taintBytes_writes hrun fun a X => ?_
        rw [← hrange]
        exact Iff.rfl
    | default =>
        cases h
        exact nothing_writes fun a X hX => hX
    | perOffset =>
        exact perOffset_writes hret h

/-- A handler that does not clear leaves the taint maps as they are. -/
theorem handler_state {sys : Sys} {handle : Handler ws N}
    (hreg : observer ws sys = some handle) (hclears : clears sys = false) {sz : StructSizes}
    {mem : AppMemory ws} {args : SyscallArguments ws} {g g' : Globals ws N}
    (h : handle sz mem args g = some g') : g'.state = g.state := by
  by_cases hdup : sys = .dup
  · subst hdup
    rw [show handle = handleDup from Option.some.inj (hreg.symm.trans observer_dup)] at h
    cases h
    rfl
  by_cases hopen : sys = .open
  · subst hopen
    rw [show handle = handleOpen from Option.some.inj (hreg.symm.trans observer_open)] at h
    obtain ⟨name, -, h⟩ := Option.bind_eq_some_iff.mp h
    cases h
    rfl
  by_cases hsocket : sys = .socketcall
  · subst hsocket
    rw [observer_socketcall hreg, handleSocketcall] at h
    by_cases hknown : knownSocketcall (int args.arg0) = true
    · rw [if_pos hknown] at h
      cases h
      rfl
    · -- the default case aborts
      rw [if_neg hknown] at h
      cases h
  -- what is left passes
  rw [observer_passes hreg hclears hdup hopen hsocket] at h
  cases h
  rfl

/-- The handlers. -/
theorem handler_writes {sys : Sys} {env : Environment} {mem : AppMemory ws}
    {args : SyscallArguments ws} {g g' : Globals ws N}
    (h : Writer.run g (.handler sys env mem args) = some g') :
    Writes (.handler sys env mem args) g g' := by
  obtain ⟨handle, hreg, h⟩ := Option.bind_eq_some_iff.mp h
  by_cases hclears : clears sys = true
  · rw [observer_clears hreg hclears] at h
    cases h
    refine ⟨rfl, fun a X hX => ?_, fun a hnone => ?_⟩
    · obtain ⟨ha, rfl⟩ := hX
      refine ⟨?_, fun t ht => absurd ht (Set.notMem_empty t)⟩
      show entryMarks (List.foldl _ _ _)[a]? = _
      rw [(foldl_eraseRange_getElem? _ g.memTaintMap a).1 ha, entryMarks_none]
    · have ha : a ∉ erased (handlerRanges sys env.sizes args) := fun ha => hnone _ ⟨ha, rfl⟩
      exact congrArg entryMarks ((foldl_eraseRange_getElem? _ g.memTaintMap a).2 ha)
  · have hpasses : clears sys = false := Bool.not_eq_true _ ▸ hclears
    have hstate := handler_state hreg hpasses h
    refine ⟨by rw [hstate], fun a X hX => ?_, fun a _ => by rw [hstate]⟩
    obtain ⟨⟨r, hr, -⟩, -⟩ := hX
    rw [handlerRanges_eq_nil hpasses] at hr
    exact absurd hr List.not_mem_nil

/-- **What a writer does**: it gives its bytes their marks, and changes no
    other mark and no record of the index. -/
theorem write_spec {w : Writer ws} {g g' : Globals ws N} (hs : SizedState g.state)
    (h : w.run g = some g') : Writes w g g' := by
  cases w with
  | clearTaintForMemory start size => exact clearTaintForMemory_writes hs h
  | setNewTaintForMemory addr size taintMark => exact setNewTaintForMemory_writes h
  | assignTagToByteRange start size name => exact assignTagToByteRange_writes h
  | pathCallback callback env args => exact pathCallback_writes h
  | networkCallback callback start length => exact networkCallback_writes h
  | handler sys env mem args => exact handler_writes h

/-! ## The index after a writer -/

/-- With the same records, the index agrees with the new map exactly if the
    marks are the old ones. -/
theorem indexAgrees_sameTags {s s' : TaintState ws N} (htags : s'.tagMemoryMap = s.tagMemoryMap)
    (hlt : ∀ a, ∀ t ∈ marksAt s (.mem a), t < N) (hlt' : ∀ a, ∀ t ∈ marksAt s' (.mem a), t < N)
    (hagrees : IndexAgrees s) :
    IndexAgrees s' ↔ ∀ a, marksAt s' (.mem a) = marksAt s (.mem a) := by
  constructor
  · intro h a
    ext t
    constructor
    · intro ht
      have hlive := (h t (hlt' a t ht) a).mp ht
      rw [htags] at hlive
      exact (hagrees t (hlt' a t ht) a).mpr hlive
    · intro ht
      have hlive := (hagrees t (hlt a t ht) a).mp ht
      rw [← htags] at hlive
      exact (h t (hlt a t ht) a).mpr hlive
  · intro h t ht a
    rw [h a, htags]
    exact hagrees t ht a

/-- **A writer preserves the tag index** exactly if every byte it gives marks
    had those marks already. -/
theorem writer_keeps_index_iff {w : Writer ws} {g g' : Globals ws N} (hs : SizedState g.state)
    (hagrees : IndexAgrees g.state) (h : w.run g = some g') :
    IndexAgrees g'.state ↔ ∀ a X, w.Gives g a X → marksAt g.state (.mem a) = X := by
  have hspec := write_spec hs h
  have hlt : ∀ a, ∀ t ∈ marksAt g.state (.mem a), t < N := by
    rintro a t ⟨b, hb, ht⟩
    exact (hs.entries (.mem a) b hb).marks_lt ht
  have hlt' : ∀ a, ∀ t ∈ marksAt g'.state (.mem a), t < N := by
    intro a t ht
    by_cases hgiven : ∃ X, w.Gives g a X
    · obtain ⟨X, hX⟩ := hgiven
      obtain ⟨hmarks, hbound⟩ := hspec.given a X hX
      rw [hmarks] at ht
      exact hbound t ht
    · rw [hspec.kept a fun X hX => hgiven ⟨X, hX⟩] at ht
      exact hlt a t ht
  rw [indexAgrees_sameTags hspec.tags hlt hlt' hagrees]
  constructor
  · intro hsame a X hX
    rw [← hsame a]
    exact (hspec.given a X hX).1
  · intro hgiven a
    by_cases hex : ∃ X, w.Gives g a X
    · obtain ⟨X, hX⟩ := hex
      rw [(hspec.given a X hX).1, hgiven a X hX]
    · exact hspec.kept a fun X hX => hex ⟨X, hX⟩

/-- The tool before the first call, with the constant generator. -/
def constantMarks : Globals .w64 1 :=
  { Globals.init .w64 1 with taintGen := some (.constant 0 Nat.one_pos) }

/-- Tainted once, byte 100 has mark 0, and the index a record of it. -/
theorem tainted_agrees : ∃ s, setCall (setByte [markZero] markZero_sized) (.init .w64 1) = some s
    ∧ SizedState s ∧ IndexAgrees s ∧ marksAt s (.mem 100) = {0} := by
  obtain ⟨s, hrun, hs, -, hiff⟩ :=
    setCall_step init_sized indexed_init (setByte [markZero] markZero_sized)
  obtain ⟨s', hrun', -, -, hin, -⟩ :=
    setCall_spec init_sized indexed_init (setByte [markZero] markZero_sized)
  obtain rfl : s' = s := Option.some.inj (hrun'.symm.trans hrun)
  refine ⟨s', hrun, hs, (hiff indexAgrees_init).mpr fun t ht a i hi hflag => ?_, ?_⟩
  · -- no list has a record yet
    rw [tagRecords, show (TaintState.init .w64 1).tagMemoryMap[t]? = none from
      Std.ExtTreeMap.getElem?_empty] at hflag
    exact absurd hflag Bool.false_ne_true
  · have hmem : (100 : Addr .w64) ∈ addrRange (100 : Addr .w64) 1 := mem_addrRange.mpr (by decide)
    rw [hin 100 hmem]
    refine Set.Subset.antisymm (fun m hm => ?_) ?_
    · rw [assignedMarks_setByte] at hm
      obtain ⟨b, hb, hm⟩ := hm
      exact Set.mem_singleton_iff.mpr (Nat.lt_one_iff.mp ((markZero_sized b hb).marks_lt hm))
    · exact Set.singleton_subset_iff.mpr (mem_assignedMarks_markZero _)

/-- Given the mark that it has, the byte keeps its record. -/
theorem writer_keeps_index_iff_again : ∃ s g',
    setCall (setByte [markZero] markZero_sized) (.init .w64 1) = some s
      ∧ (Writer.setNewTaintForMemory 100 1 0).run { constantMarks with state := s } = some g'
      ∧ IndexAgrees g'.state := by
  obtain ⟨s, hrun, hs, hagrees, hmarks⟩ := tainted_agrees
  have hwrite : (Writer.setNewTaintForMemory 100 1 0).run { constantMarks with state := s }
      = some (({ constantMarks with state := s } : Globals .w64 1).setMem
          (copyRange (markOnly .w64 1 0) 100 1 s.memTaintMap)) := rfl
  refine ⟨s, _, hrun, hwrite, (writer_keeps_index_iff hs hagrees hwrite).mpr ?_⟩
  rintro a X ⟨hmem, rfl⟩
  obtain ⟨hle, hlt⟩ := mem_addrRange.mp hmem
  have ha : a = 100 := by
    rw [BitVec.le_def] at hle
    rw [BitVec.lt_def] at hlt
    exact BitVec.eq_of_toNat_eq (Nat.le_antisymm (Nat.lt_succ_iff.mp hlt) hle)
  rw [ha]
  exact hmarks

/-- `SetNewTaintForMemory` gives a byte a mark that the index has no record
    of. -/
theorem new_taint_unindexed :
    IndexAgrees constantMarks.state
      ∧ ∃ g', setNewTaintForMemory 100 1 (-1) constantMarks = some g'
        ∧ ¬ IndexAgrees g'.state := by
  have hrun : setNewTaintForMemory 100 1 (-1) constantMarks
      = some (constantMarks.setMem (copyRange (markOnly .w64 1 0) 100 1
          constantMarks.memTaintMap)) := rfl
  have hin : (100 : Addr .w64) ∈ addrRange (100 : Addr .w64) 1 := mem_addrRange.mpr (by decide)
  refine ⟨indexAgrees_init, _, hrun, fun hagrees => ?_⟩
  obtain ⟨hmarks, -⟩ := (setNewTaintForMemory_writes hrun).given 100 {0} ⟨hin, rfl⟩
  have hmem : 0 ∈ marksAt (constantMarks.setMem (copyRange (markOnly .w64 1 0) 100 1
      constantMarks.memTaintMap)).state (.mem 100) := by
    rw [hmarks]
    rfl
  have hlive := (hagrees 0 Nat.one_pos 100).mp hmem
  have hnone : 0 ∈ marksAt (TaintState.init .w64 1) (.mem 100) :=
    (indexAgrees_init 0 Nat.one_pos 100).mpr hlive
  obtain ⟨b, hb, -⟩ := hnone
  have hempty : entryAt (TaintState.init .w64 1) (.mem 100) = none :=
    Std.ExtTreeMap.getElem?_empty
  cases hempty.symm.trans hb

end DytanOtherWriters
