import Dytan.TaintStateProofs
import Dytan.OverwriteProofs

/-! # Mark flow — what one analysis call does to the marks

    Every place that can hold marks (register name, memory byte, control key,
    scratch set) is a `Place`.  A state is read back as the marks at each
    place, and `SizedState` says that every stored bitset was made for
    `NUMBER_OF_TAINT_MARKS` positions.

    The main result is a refinement: on a sized state no assertion fails, the
    next state is sized, and its marks are those of one `overwrite` from the
    call's `origins` to its `targets`.  All word-level reasoning ends here;
    the relational properties of the calls are proved about `overwrite`. -/

namespace DytanMarkFlow

open DytanBitset DytanRegister DytanTaintState Overwrite

variable {ws : WordSize} {N : Nat}

/-- Where marks are kept. -/
inductive Place (ws : WordSize) where
  | reg (r : Reg)
  | mem (a : Addr ws)
  | ctl (a : Addr ws)
  | scr (x : Scratch)
deriving DecidableEq

/-- The bitset stored at a place, if the place is a key of its map. -/
def entryAt (s : TaintState ws N) : Place ws → Option (Bitset ws.bits)
  | .reg r => s.regTaintMap r
  | .mem a => s.memTaintMap[a]?
  | .ctl a => s.controlTaintMap[a]?
  | .scr x => some (s.scratch x)

/-- The marks of an entry; an absent key reads as the empty set. -/
def entryMarks {w : Nat} (e : Option (Bitset w)) : Set Nat := {m | ∃ b, e = some b ∧ m ∈ marks b}

/-- The marks at a place. -/
def marksAt (s : TaintState ws N) (p : Place ws) : Set Nat := entryMarks (entryAt s p)

/-- The places that are keys. -/
def present (s : TaintState ws N) : Set (Place ws) := {p | ∃ b, entryAt s p = some b}

/-- Every stored bitset has the size of the tool, and the tag index has no
    tag beyond it. -/
structure SizedState (s : TaintState ws N) : Prop where
  entries : ∀ p b, entryAt s p = some b → Sized N b
  tags : ∀ t ∈ s.tagMemoryMap, t < N

@[simp] theorem entryMarks_none {w : Nat} : entryMarks (none : Option (Bitset w)) = ∅ := by
  ext m
  simp [entryMarks]

@[simp] theorem entryMarks_some {w : Nat} (b : Bitset w) : entryMarks (some b) = marks b := by
  ext m
  simp [entryMarks]

/-- Where there are marks there is a key. -/
theorem present_of_mem {s : TaintState ws N} {p : Place ws} {m : Nat}
    (h : m ∈ marksAt s p) : p ∈ present s := by
  obtain ⟨b, hb, -⟩ := h
  exact ⟨b, hb⟩

theorem marksAt_of_absent {s : TaintState ws N} {p : Place ws} (h : p ∉ present s) :
    marksAt s p = ∅ := by
  ext m
  exact ⟨fun hm => absurd (present_of_mem hm) h, fun hm => absurd hm (Set.notMem_empty m)⟩

/-- The globals at the start are sized. -/
theorem init_sized : SizedState (TaintState.init ws N) where
  entries := by
    intro p b hb
    cases p with
    | reg r => exact nomatch hb
    | mem a => simp [entryAt, TaintState.init] at hb
    | ctl a => simp [entryAt, TaintState.init] at hb
    | scr x =>
        cases hb
        exact sized_init N
  tags := by
    intro t ht
    simp [TaintState.init] at ht

/-- A state whose flags carry mark 0. -/
def flagsTainted (ws : WordSize) (N : Nat) : TaintState ws N :=
  { TaintState.init ws N with
    regTaintMap := Function.update (fun _ => none) (flagsReg ws)
      (bitsetSetBit (bitsetInit ws.bits N) 0) }

theorem flagsTainted_sized (ws : WordSize) (hN : 0 < N) : SizedState (flagsTainted ws N) where
  entries := by
    intro p b hb
    cases p with
    | reg r =>
        by_cases hr : r = flagsReg ws
        · obtain ⟨u, hu, hsu, -⟩ := setBit_sized ws.bits_pos (sized_init N) hN
          subst hr
          rw [show entryAt (flagsTainted ws N) (.reg (flagsReg ws)) = some u by
            simp [entryAt, flagsTainted, hu]] at hb
          cases hb
          exact hsu
        · rw [show entryAt (flagsTainted ws N) (.reg r) = none by
            simp [entryAt, flagsTainted, hr]] at hb
          exact nomatch hb
    | mem a => exact init_sized.entries (.mem a) b hb
    | ctl a => exact init_sized.entries (.ctl a) b hb
    | scr x => exact init_sized.entries (.scr x) b hb
  tags := init_sized.tags

/-- The step from `s` to `s'` gives every place of `D` the entry `e` and
    leaves every other place as it was. -/
structure Assigns (D : Set (Place ws)) (e : Option (Bitset ws.bits))
    (s s' : TaintState ws N) : Prop where
  target : ∀ p ∈ D, entryAt s' p = e
  frame : ∀ p, p ∉ D → entryAt s' p = entryAt s p
  sized : ∀ b, e = some b → Sized N b
  tags : ∀ t ∈ s'.tagMemoryMap, t < N

/-- Assigning a sized entry keeps the state sized. -/
theorem Assigns.sizedState {D : Set (Place ws)} {e : Option (Bitset ws.bits)}
    {s s' : TaintState ws N} (h : Assigns D e s s') (hs : SizedState s) : SizedState s' where
  entries := by
    intro p b hb
    by_cases hp : p ∈ D
    · rw [h.target p hp] at hb
      exact h.sized b hb
    · rw [h.frame p hp] at hb
      exact hs.entries p b hb
  tags := h.tags

/-- Assigning an entry is overwriting marks. -/
theorem Assigns.marksAt_eq {D S : Set (Place ws)} {e : Option (Bitset ws.bits)}
    {s s' : TaintState ws N} (h : Assigns D e s s')
    (he : entryMarks e = gathered S (marksAt s)) :
    marksAt s' = overwrite D S (marksAt s) := by
  funext p
  by_cases hp : p ∈ D
  · rw [overwrite_of_mem hp, ← he, marksAt, h.target p hp]
  · rw [overwrite_of_notMem hp, marksAt, h.frame p hp, marksAt]

/-! ## What the calls gather -/

/-- An address a number of bytes further on. -/
theorem add_ofNat_toNat {start : Addr ws} {i : Nat} (h : start.toNat + i < 2 ^ ws.bits) :
    (start + BitVec.ofNat ws.bits i).toNat = start.toNat + i := by
  rw [BitVec.toNat_add, BitVec.toNat_ofNat, Nat.add_mod_mod, Nat.mod_eq_of_lt h]

/-- The range of a loop `for(addr = start; addr < start + size; addr++)`. -/
theorem mem_addrRange {start size a : Addr ws} :
    a ∈ addrRange start size ↔ start ≤ a ∧ a < start + size := by
  rw [addrRange]
  rw [List.mem_map, BitVec.le_def, BitVec.lt_def]
  constructor
  · rintro ⟨i, hi, rfl⟩
    rw [List.mem_range] at hi
    have hlt := (start + size).isLt
    rw [add_ofNat_toNat (by omega)]
    omega
  · rintro ⟨hle, hlt⟩
    refine ⟨a.toNat - start.toNat, List.mem_range.mpr (by omega), ?_⟩
    refine BitVec.eq_of_toNat_eq ?_
    have ha := a.isLt
    rw [add_ofNat_toNat (by omega)]
    omega

/-- The addresses of a range, in order. -/
theorem addrRange_getElem? {start size a : Addr ws} {i : Nat}
    (h : (addrRange start size)[i]? = some a) : a.toNat = start.toNat + i := by
  rw [addrRange, List.getElem?_map, Option.map_eq_some_iff] at h
  obtain ⟨j, hj, rfl⟩ := h
  obtain ⟨hlt, hj'⟩ := List.getElem?_eq_some_iff.mp hj
  rw [List.length_range] at hlt
  rw [List.getElem_range] at hj'
  have hend := (start + size).isLt
  show (start + BitVec.ofNat ws.bits j).toNat = _
  rw [add_ofNat_toNat (by omega), ← hj']

theorem addrRange_nodup (start size : Addr ws) : (addrRange start size).Nodup := by
  rw [List.nodup_iff_injective_get]
  intro i j hij
  have hget : ∀ k : Fin (addrRange start size).length,
      ((addrRange start size)[k.val]).toNat = start.toNat + k.val :=
    fun k => addrRange_getElem? (List.getElem?_eq_getElem k.isLt)
  have hi := hget i
  have heq : (addrRange start size)[i.val] = (addrRange start size)[j.val] := hij
  rw [heq, hget j] at hi
  exact Fin.ext (by omega)

/-- A range that ends below the top of the address space. -/
theorem mem_addrRange_of_lt {start size a : Addr ws}
    (h : start.toNat + size.toNat < 2 ^ ws.bits) :
    a ∈ addrRange start size
      ↔ start.toNat ≤ a.toNat ∧ a.toNat < start.toNat + size.toNat := by
  rw [mem_addrRange, BitVec.le_def, BitVec.lt_def, BitVec.toNat_add, Nat.mod_eq_of_lt h]

theorem addrRange_length {start size : Addr ws} (h : start.toNat + size.toNat < 2 ^ ws.bits) :
    (addrRange start size).length = size.toNat := by
  rw [addrRange, List.length_map, List.length_range, BitVec.toNat_add, Nat.mod_eq_of_lt h,
    Nat.add_sub_cancel_left]

/-- Its addresses, by their place in it. -/
theorem addrRange_getElem?_iff {start size a : Addr ws} {i : Nat}
    (h : start.toNat + size.toNat < 2 ^ ws.bits) :
    (addrRange start size)[i]? = some a ↔ i < size.toNat ∧ a.toNat = start.toNat + i := by
  have hlen := addrRange_length h
  constructor
  · intro ha
    obtain ⟨hi, -⟩ := List.getElem?_eq_some_iff.mp ha
    exact ⟨by omega, addrRange_getElem? ha⟩
  · rintro ⟨hi, ha⟩
    have hget : (addrRange start size)[i]? = some (addrRange start size)[i] :=
      List.getElem?_eq_getElem (by omega)
    rw [hget, Option.some_inj]
    refine BitVec.eq_of_toNat_eq ?_
    rw [addrRange_getElem? hget, ha]

/-- The bytes of a memory range. -/
def rangePlaces (start size : Addr ws) : Set (Place ws) :=
  {p | ∃ a ∈ addrRange start size, p = .mem a}

/-- All control keys. -/
def controlPlaces : Set (Place ws) := {p | ∃ a, p = .ctl a}

/-- The scratch sets passed to a call. -/
def scratchPlaces (sets : List Scratch) : Set (Place ws) := {p | ∃ x ∈ sets, p = .scr x}

/-- The names `SetTaintForRegister` writes. -/
def regPlaces (dest : Reg) : Set (Place ws) :=
  {p | isStackReg dest = false ∧ ∃ r ∈ writtenRegs dest, p = .reg r}

theorem regPlaces_flags : (regPlaces (flagsReg ws) : Set (Place ws)) = {.reg (flagsReg ws)} := by
  ext p
  constructor
  · rintro ⟨-, q, hq, rfl⟩
    have hnone : subRegisters (flagsReg ws) = [] := by cases ws <;> rfl
    rw [mem_writtenRegs, hnone] at hq
    exact hq.elim (fun h => h ▸ rfl) nofun
  · rintro rfl
    exact ⟨flagsReg_not_stack ws, _, mem_writtenRegs.mpr (.inl rfl), rfl⟩

/-- The union of all bitsets of `controlTaintMap`. -/
def controlMarks (s : TaintState ws N) : Set Nat := gathered controlPlaces (marksAt s)

theorem mem_controlMarks {s : TaintState ws N} {m : Nat} :
    m ∈ controlMarks s ↔ ∃ (a : Addr ws) (b : _), s.controlTaintMap[a]? = some b ∧ m ∈ marks b := by
  constructor
  · rintro ⟨q, ⟨a, rfl⟩, b, hb, hm⟩
    exact ⟨a, b, hb, hm⟩
  · rintro ⟨a, b, hb, hm⟩
    exact ⟨.ctl a, ⟨a, rfl⟩, b, hb, hm⟩

/-- Joining the control entries collects the control marks. -/
theorem controlTaint_spec {s : TaintState ws N} (hs : SizedState s) :
    ∃ c, controlTaint s = some c ∧ Sized N c ∧ marks c = controlMarks s := by
  have hmem : ∀ b, b ∈ s.controlTaintMap.toList.map Prod.snd
      ↔ ∃ a : Addr ws, s.controlTaintMap[a]? = some b := by
    intro b
    rw [List.mem_map]
    constructor
    · rintro ⟨⟨a, b'⟩, hab, rfl⟩
      exact ⟨a, Std.ExtTreeMap.mem_toList_iff_getElem?_eq_some.mp hab⟩
    · rintro ⟨a, hab⟩
      exact ⟨(a, b), Std.ExtTreeMap.mem_toList_iff_getElem?_eq_some.mpr hab, rfl⟩
  have hsized : ∀ b ∈ s.controlTaintMap.toList.map Prod.snd, Sized N b := by
    intro b hb
    obtain ⟨a, hab⟩ := (hmem b).mp hb
    exact hs.entries (.ctl a) b hab
  obtain ⟨c, hc, hsz, hm⟩ := unionAll_sized (sized_init N) hsized
  refine ⟨c, hc, hsz, ?_⟩
  ext m
  rw [hm, marks_init, Set.empty_union, mem_controlMarks]
  constructor
  · rintro ⟨b, hb, hmb⟩
    obtain ⟨a, hab⟩ := (hmem b).mp hb
    exact ⟨a, b, hab, hmb⟩
  · rintro ⟨a, b, hab, hmb⟩
    exact ⟨b, (hmem b).mpr ⟨a, hab⟩, hmb⟩

/-- The value the `SetTaintFor…` functions assign. -/
theorem assignedTaint_spec {s : TaintState ws N} (hs : SizedState s)
    {args : List (Bitset ws.bits)} (hargs : ∀ b ∈ args, Sized N b) :
    ∃ t, assignedTaint args s = some t ∧ Sized N t
      ∧ marks t = {m | ∃ b ∈ args, m ∈ marks b} ∪ controlMarks s := by
  obtain ⟨u, hu, hsu, hmu⟩ := unionAll_sized (sized_init (w := ws.bits) N) hargs
  obtain ⟨c, hc, hsc, hmc⟩ := controlTaint_spec hs
  obtain ⟨t, ht, hst, hmt⟩ := union_sized hsu hsc
  refine ⟨t, ?_, hst, ?_⟩
  · simp only [assignedTaint, hu, hc]
    exact ht
  · rw [hmt, hmu, hmc, marks_init, Set.empty_union]

/-! ## The loops -/

/-- Assigning to an entry, old or new, stores the assigned bitset itself. -/
theorem assignEntry_eq {e : Option (Bitset ws.bits)} {tmp : Bitset ws.bits}
    (he : ∀ b, e = some b → Sized N b) (ht : Sized N tmp) : assignEntry e tmp = some tmp := by
  cases e with
  | none => rw [assignEntry, copy_eq_self ht]
  | some b => exact setBits_eq_src (he b rfl) ht

/-- Assigning to a list of register names. -/
theorem foldlM_assignReg {tmp : Bitset ws.bits} (ht : Sized N tmp) (rs : List Reg)
    (regs : Reg → Option (Bitset ws.bits)) (hr : ∀ r b, regs r = some b → Sized N b) :
    rs.foldlM (assignReg tmp) regs
      = some fun r => if r ∈ rs then some tmp else regs r := by
  induction rs generalizing regs with
  | nil => simp
  | cons r rest ih =>
      have hstep : assignReg tmp regs r = some (Function.update regs r (some tmp)) := by
        rw [assignReg, assignEntry_eq (hr r) ht]
        rfl
      rw [List.foldlM_cons, hstep]
      show rest.foldlM (assignReg tmp) (Function.update regs r (some tmp)) = _
      rw [ih _ ?_]
      · congr 1
        funext q
        by_cases hq : q = r
        · subst hq
          simp
        · simp [hq]
      · intro q b hb
        by_cases hq : q = r
        · subst hq
          rw [Function.update_self] at hb
          cases hb
          exact ht
        · rw [Function.update_of_ne hq] at hb
          exact hr q b hb

/-- Assigning to the bytes of a list of addresses. -/
theorem foldlM_assignByte {tmp : Bitset ws.bits} (ht : Sized N tmp) (as : List (Addr ws))
    (m : Std.ExtTreeMap (Addr ws) (Bitset ws.bits)) (hm : ∀ (a : Addr ws) b, m[a]? = some b → Sized N b) :
    ∃ m', as.foldlM (assignByte tmp) m = some m'
      ∧ ∀ a : Addr ws, m'[a]? = if a ∈ as then some tmp else m[a]? := by
  induction as generalizing m with
  | nil => exact ⟨m, rfl, by simp⟩
  | cons a rest ih =>
      have hstep : assignByte tmp m a = some (m.insert a tmp) := by
        rw [assignByte, assignEntry_eq (hm a) ht]
        rfl
      obtain ⟨m', hm', hget⟩ := ih (m.insert a tmp) (by
        intro c b hb
        rw [Std.ExtTreeMap.getElem?_insert] at hb
        by_cases hc : a = c
        · simp only [hc, Std.compare_self, if_true] at hb
          cases hb
          exact ht
        · simp only [Std.compare_eq_iff_eq, if_neg hc] at hb
          exact hm c b hb)
      refine ⟨m', by rw [List.foldlM_cons, hstep]; exact hm', ?_⟩
      intro c
      rw [hget c]
      by_cases hc : c ∈ rest
      · simp [hc]
      · by_cases hac : c = a
        · simp [hac]
        · have hca : ¬ a = c := fun h => hac h.symm
          simp [hc, hac, hca, Std.ExtTreeMap.getElem?_insert]

/-- Clearing the bytes of a list of addresses: only keys are assigned. -/
theorem foldlM_clearByte {control : Bitset ws.bits} (hc : Sized N control)
    (as : List (Addr ws)) (m : Std.ExtTreeMap (Addr ws) (Bitset ws.bits))
    (hm : ∀ (a : Addr ws) b, m[a]? = some b → Sized N b) :
    ∃ m', as.foldlM (clearByte control) m = some m'
      ∧ ∀ a : Addr ws, m'[a]? = if a ∈ as ∧ a ∈ m then some control else m[a]? := by
  induction as generalizing m with
  | nil => exact ⟨m, rfl, by simp⟩
  | cons a rest ih =>
      cases ha : m[a]? with
      | none =>
          have hnot : a ∉ m := by simpa using ha
          obtain ⟨m', hm', hget⟩ := ih m hm
          refine ⟨m', by rw [List.foldlM_cons, clearByte, ha]; exact hm', ?_⟩
          intro c
          rw [hget c]
          by_cases hca : c = a
          · subst hca
            simp [hnot]
          · simp [hca]
      | some b =>
          have hmem : a ∈ m := by
            rw [Std.ExtTreeMap.mem_iff_isSome_getElem?, ha]
            rfl
          have hstep : clearByte control m a = some (m.insert a control) := by
            rw [clearByte, ha]
            simp only [setBits_eq_src (hm a b ha) hc]
            rfl
          obtain ⟨m', hm', hget⟩ := ih (m.insert a control) (by
            intro c b' hb'
            rw [Std.ExtTreeMap.getElem?_insert] at hb'
            by_cases hac : a = c
            · simp only [hac, Std.compare_self, if_true] at hb'
              cases hb'
              exact hc
            · simp only [Std.compare_eq_iff_eq, if_neg hac] at hb'
              exact hm c b' hb')
          refine ⟨m', by rw [List.foldlM_cons, hstep]; exact hm', ?_⟩
          intro c
          rw [hget c]
          by_cases hca : c = a
          · subst hca
            simp [hmem]
          · have hac : ¬ a = c := fun h => hca h.symm
            simp [hca, hac, Std.ExtTreeMap.getElem?_insert]

/-- Joining the bytes of a list of addresses. -/
theorem foldlM_joinByte {s : TaintState ws N} (hs : SizedState s) (as : List (Addr ws))
    {acc : Bitset ws.bits} (hacc : Sized N acc) :
    ∃ b, as.foldlM (joinByte s) acc = some b ∧ Sized N b
      ∧ marks b = marks acc ∪ {m | ∃ a ∈ as, m ∈ marksAt s (.mem a)} := by
  induction as generalizing acc with
  | nil => exact ⟨acc, rfl, hacc, by simp⟩
  | cons a rest ih =>
      have hstep : ∃ u, joinByte s acc a = some u ∧ Sized N u
          ∧ marks u = marks acc ∪ marksAt s (.mem a) := by
        cases ha : s.memTaintMap[a]? with
        | none =>
            refine ⟨acc, by rw [joinByte, ha], hacc, ?_⟩
            rw [marksAt, entryAt, ha, entryMarks_none, Set.union_empty]
        | some b =>
            obtain ⟨u, hu, hsu, hmu⟩ := union_sized hacc (hs.entries (.mem a) b ha)
            refine ⟨u, by rw [joinByte, ha]; exact hu, hsu, ?_⟩
            rw [marksAt, entryAt, ha, entryMarks_some, hmu]
      obtain ⟨u, hu, hsu, hmu⟩ := hstep
      obtain ⟨b, hb, hsb, hmb⟩ := ih hsu
      refine ⟨b, by rw [List.foldlM_cons, hu]; exact hb, hsb, ?_⟩
      rw [hmb, hmu]
      ext m
      simp [or_assoc]

/-- Updating the tag index asserts nothing that fails and adds no tag. -/
theorem foldlM_updateTag {tmp : Bitset ws.bits} (ht : Sized N tmp) (start size : Addr ws)
    (entries : List (Nat × List (MemRecord ws))) (he : ∀ e ∈ entries, e.1 < N)
    (m : Std.ExtTreeMap Nat (List (MemRecord ws))) (hm : ∀ t ∈ m, t < N) :
    ∃ m', entries.foldlM (updateTag start size tmp) m = some m' ∧ ∀ t ∈ m', t < N := by
  induction entries generalizing m with
  | nil => exact ⟨m, rfl, hm⟩
  | cons e rest ih =>
      have hlt : e.1 < N := he e List.mem_cons_self
      have htest : bitsetTestBit tmp e.1 = some (holdsBit tmp e.1) := by
        rw [bitsetTestBit, if_pos (by rw [ht.nbits]; exact hlt)]
      rw [List.foldlM_cons, updateTag, htest]
      refine ih (fun e' h' => he e' (List.mem_cons_of_mem _ h')) _ ?_
      intro t htm
      rw [Std.ExtTreeMap.mem_insert, Std.compare_eq_iff_eq] at htm
      rcases htm with rfl | htm
      · exact hlt
      · exact hm t htm

/-- The tag index before the loop has only tags of the tool. -/
theorem initTags_lt {s : TaintState ws N} (hs : SizedState s) : ∀ t ∈ initTags N s, t < N := by
  rw [initTags]
  by_cases hinit : s.tagMemoryMapIsInitialized = true
  · rw [if_pos hinit]
    exact hs.tags
  · rw [if_neg hinit]
    have hfold : ∀ (ts : List Nat) (m : Std.ExtTreeMap Nat (List (MemRecord ws))),
        (∀ t ∈ ts, t < N) → (∀ t ∈ m, t < N) →
          ∀ t ∈ ts.foldl (fun m t => m.insert t []) m, t < N := by
      intro ts
      induction ts with
      | nil => exact fun m _ hm => hm
      | cons t rest ih =>
          intro m hts hm
          refine ih _ (fun u hu => hts u (List.mem_cons_of_mem _ hu)) ?_
          intro u hu
          rw [Std.ExtTreeMap.mem_insert, Std.compare_eq_iff_eq] at hu
          rcases hu with rfl | hu
          · exact hts t List.mem_cons_self
          · exact hm u hu
    exact hfold _ _ (fun t ht => List.mem_range.mp ht) hs.tags

/-! ## The calls, one by one -/

/-- A step that only replaces one scratch set. -/
theorem assigns_scratch {s : TaintState ws N} (hs : SizedState s) (x : Scratch)
    {b : Bitset ws.bits} (hb : Sized N b) :
    Assigns {.scr x} (some b) s { s with scratch := Function.update s.scratch x b } where
  target := by
    rintro p rfl
    show some (Function.update s.scratch x b x) = some b
    rw [Function.update_self]
  frame := by
    intro p hp
    cases p with
    | scr y =>
        have hy : y ≠ x := fun h => hp (by rw [h]; rfl)
        show some (Function.update s.scratch x b y) = some (s.scratch y)
        rw [Function.update_of_ne hy]
    | _ => rfl
  sized := by
    rintro c hc
    cases hc
    exact hb
  tags := hs.tags

/-- A sized state resets its scratch sets to the fresh one. -/
theorem reset_scratch {s : TaintState ws N} (hs : SizedState s) (x : Scratch) :
    bitsetReset (s.scratch x) = bitsetInit ws.bits N :=
  reset_eq_init (hs.entries (.scr x) _ rfl)

theorem clearTaintSet_spec {s : TaintState ws N} (hs : SizedState s) (x : Scratch) :
    Assigns {.scr x} (some (bitsetInit ws.bits N)) s (clearTaintSet x s) := by
  rw [clearTaintSet]
  rw [reset_scratch hs]
  exact assigns_scratch hs x (sized_init N)

theorem taintForRegister_spec {s : TaintState ws N} (hs : SizedState s) (r : Reg)
    (x : Scratch) :
    ∃ s' b, taintForRegister r x s = some s' ∧ Assigns {.scr x} (some b) s s'
      ∧ b = (s.regTaintMap r).getD (bitsetInit ws.bits N) ∧ marks b = marksAt s (.reg r) := by
  rw [taintForRegister]
  cases hr : s.regTaintMap r with
  | none =>
      refine ⟨_, _, rfl, clearTaintSet_spec hs x, rfl, ?_⟩
      rw [marks_init, marksAt, entryAt, hr, entryMarks_none]
  | some b =>
      have hb : Sized N b := hs.entries (.reg r) b hr
      simp only [setBits_eq_src (hs.entries (.scr x) _ rfl) hb]
      refine ⟨_, b, rfl, assigns_scratch hs x hb, rfl, ?_⟩
      rw [marksAt, entryAt, hr, entryMarks_some]

theorem taintForMemory_spec {s : TaintState ws N} (hs : SizedState s)
    (start size : Addr ws) (x : Scratch) :
    ∃ s' b, taintForMemory start size x s = some s' ∧ Assigns {.scr x} (some b) s s'
      ∧ (addrRange start size).foldlM (joinByte s) (bitsetInit ws.bits N) = some b
      ∧ marks b = gathered (rangePlaces start size) (marksAt s) := by
  obtain ⟨b, hb, hsb, hmb⟩ :=
    foldlM_joinByte hs (addrRange start size) (sized_init (w := ws.bits) N)
  rw [taintForMemory]
  rw [reset_scratch hs]
  simp only [hb]
  refine ⟨_, b, rfl, assigns_scratch hs x hsb, rfl, ?_⟩
  rw [hmb, marks_init, Set.empty_union]
  ext m
  constructor
  · rintro ⟨a, ha, hm⟩
    exact ⟨.mem a, ⟨a, ha, rfl⟩, hm⟩
  · rintro ⟨q, ⟨a, ha, rfl⟩, hm⟩
    exact ⟨a, ha, hm⟩

/-- `SetTaintForRegister` assigns the union of its arguments and the control
    taint to the names it writes. -/
theorem setTaintForRegister_spec {s : TaintState ws N} (hs : SizedState s) (dest : Reg)
    {args : List (Bitset ws.bits)} (hargs : ∀ b ∈ args, Sized N b) :
    ∃ s' t, setTaintForRegister dest args s = some s'
      ∧ Assigns (regPlaces dest) (some t) s s' ∧ assignedTaint args s = some t
      ∧ marks t = {m | ∃ b ∈ args, m ∈ marks b} ∪ controlMarks s := by
  obtain ⟨t, ht, hst, hmt⟩ := assignedTaint_spec hs hargs
  have hsome : ∀ b, some t = some b → Sized N b := by
    rintro b hb
    cases hb
    exact hst
  rw [setTaintForRegister]
  cases hstack : isStackReg dest with
  | true =>
      refine ⟨s, t, by simp, ⟨?_, fun _ _ => rfl, hsome, hs.tags⟩, ht, hmt⟩
      rintro p ⟨hp, -⟩
      rw [hstack] at hp
      exact nomatch hp
  | false =>
      have hfold := foldlM_assignReg hst (writtenRegs dest) s.regTaintMap
        fun r b hb => hs.entries (.reg r) b hb
      refine ⟨{ s with
        regTaintMap := fun r => if r ∈ writtenRegs dest then some t else s.regTaintMap r },
        t, by simp [ht, hfold], ⟨?_, ?_, hsome, hs.tags⟩, ht, hmt⟩
      · rintro p ⟨-, r, hr, rfl⟩
        exact if_pos hr
      · intro p hp
        cases p with
        | reg r => exact if_neg fun hr => hp ⟨hstack, r, hr, rfl⟩
        | _ => rfl

/-- `SetTaintForMemory` assigns the same union to the bytes of its range. -/
theorem setTaintForMemory_spec {s : TaintState ws N} (hs : SizedState s)
    (start size : Addr ws) {args : List (Bitset ws.bits)} (hargs : ∀ b ∈ args, Sized N b) :
    ∃ s' t, setTaintForMemory start size args s = some s'
      ∧ Assigns (rangePlaces start size) (some t) s s' ∧ assignedTaint args s = some t
      ∧ marks t = {m | ∃ b ∈ args, m ∈ marks b} ∪ controlMarks s := by
  obtain ⟨t, ht, hst, hmt⟩ := assignedTaint_spec hs hargs
  obtain ⟨tags, htags, hlt⟩ := foldlM_updateTag hst start size (initTags N s).toList (by
    rintro ⟨tag, records⟩ he
    refine initTags_lt hs tag ?_
    rw [Std.ExtTreeMap.mem_iff_isSome_getElem?,
      Std.ExtTreeMap.mem_toList_iff_getElem?_eq_some.mp he]
    rfl) (initTags N s) (initTags_lt hs)
  obtain ⟨m, hm, hget⟩ := foldlM_assignByte hst (addrRange start size) s.memTaintMap
    fun a b hb => hs.entries (.mem a) b hb
  refine ⟨{ s with
      memTaintMap := m
      tagMemoryMap := tags
      tagMemoryMapIsInitialized := true }, t, ?_, ⟨?_, ?_, ?_, hlt⟩, ht, hmt⟩
  · simp [setTaintForMemory, ht, htags, hm]
  · rintro p ⟨a, ha, rfl⟩
    show m[a]? = some t
    rw [hget a, if_pos ha]
  · intro p hp
    cases p with
    | mem a =>
        show m[a]? = s.memTaintMap[a]?
        rw [hget a, if_neg fun ha => hp ⟨a, ha, rfl⟩]
    | _ => rfl
  · rintro b hb
    cases hb
    exact hst

/-- `ClearTaintForRegister` assigns the control taint, to a name that is a key. -/
theorem clearTaintForRegister_spec {s : TaintState ws N} (hs : SizedState s) (r : Reg) :
    ∃ s' c, clearTaintForRegister r s = some s'
      ∧ Assigns ({.reg r} ∩ present s) (some c) s s' ∧ controlTaint s = some c
      ∧ marks c = controlMarks s := by
  obtain ⟨c, hc, hsc, hmc⟩ := controlTaint_spec hs
  have hsome : ∀ b, some c = some b → Sized N b := by
    rintro b hb
    cases hb
    exact hsc
  rw [clearTaintForRegister]
  simp only [hc]
  cases hr : s.regTaintMap r with
  | none =>
      refine ⟨s, c, by simp, ⟨?_, fun _ _ => rfl, hsome, hs.tags⟩, rfl, hmc⟩
      rintro p ⟨rfl, b, hb⟩
      rw [show entryAt s (.reg r) = none from hr] at hb
      exact nomatch hb
  | some b =>
      refine ⟨{ s with regTaintMap := Function.update s.regTaintMap r (some c) }, c, ?_,
        ⟨?_, ?_, hsome, hs.tags⟩, rfl, hmc⟩
      · simp [setBits_eq_src (hs.entries (.reg r) b hr) hsc]
      · rintro p ⟨rfl, -⟩
        exact Function.update_self ..
      · intro p hp
        cases p with
        | reg q =>
            have hq : q ≠ r := by
              rintro rfl
              exact hp ⟨rfl, b, hr⟩
            exact Function.update_of_ne hq ..
        | _ => rfl

/-- `ClearTaintForMemory` assigns the control taint, to the bytes that are keys. -/
theorem clearTaintForMemory_spec {s : TaintState ws N} (hs : SizedState s)
    (start size : Addr ws) :
    ∃ s' c, clearTaintForMemory start size s = some s'
      ∧ Assigns (rangePlaces start size ∩ present s) (some c) s s'
      ∧ controlTaint s = some c ∧ marks c = controlMarks s := by
  obtain ⟨c, hc, hsc, hmc⟩ := controlTaint_spec hs
  obtain ⟨m, hm, hget⟩ := foldlM_clearByte hsc (addrRange start size) s.memTaintMap
    fun a b hb => hs.entries (.mem a) b hb
  have hkey : ∀ a : Addr ws, a ∈ s.memTaintMap ↔ Place.mem a ∈ present s := by
    intro a
    rw [Std.ExtTreeMap.mem_iff_isSome_getElem?, Option.isSome_iff_exists]
    exact Iff.rfl
  refine ⟨{ s with memTaintMap := m }, c, ?_, ⟨?_, ?_, ?_, hs.tags⟩, hc, hmc⟩
  · simp [clearTaintForMemory, hc, hm]
  · rintro p ⟨⟨a, ha, rfl⟩, hp⟩
    show m[a]? = some c
    rw [hget a, if_pos ⟨ha, (hkey a).mpr hp⟩]
  · intro p hp
    cases p with
    | mem a =>
        show m[a]? = s.memTaintMap[a]?
        rw [hget a, if_neg fun ha => hp ⟨⟨a, ha.1, rfl⟩, (hkey a).mp ha.2⟩]
    | _ => rfl
  · rintro b hb
    cases hb
    exact hsc

/-- `PushControl` joins the marks of the flags into the entry of the branch. -/
theorem pushControl_spec {s : TaintState ws N} (hs : SizedState s) (a : Addr ws) :
    ∃ s' e, pushControl a s = some s' ∧ Assigns {.ctl a} e s s'
      ∧ entryMarks e = marksAt s (.ctl a) ∪ marksAt s (.reg (flagsReg ws)) := by
  -- untainted flags: the call returns at once, which joins nothing
  have hskip : marksAt s (.reg (flagsReg ws)) = ∅ →
      Assigns {.ctl a} (entryAt s (.ctl a)) s s ∧ entryMarks (entryAt s (.ctl a))
        = marksAt s (.ctl a) ∪ marksAt s (.reg (flagsReg ws)) := by
    intro hempty
    refine ⟨⟨?_, fun _ _ => rfl, hs.entries (.ctl a), hs.tags⟩, ?_⟩
    · rintro p rfl
      rfl
    · rw [hempty, Set.union_empty, marksAt]
  rw [pushControl]
  cases hf : s.regTaintMap (flagsReg ws) with
  | none =>
      refine ⟨s, _, rfl, hskip ?_⟩
      rw [marksAt, entryAt, hf, entryMarks_none]
  | some flags =>
      have hsf : Sized N flags := hs.entries (.reg (flagsReg ws)) flags hf
      have hmf : marksAt s (.reg (flagsReg ws)) = marks flags := by
        rw [marksAt, entryAt, hf, entryMarks_some]
      by_cases hempty : bitsetIsEmpty flags = true
      · refine ⟨s, _, by simp [hempty], hskip ?_⟩
        rw [hmf, (isEmpty_iff hsf).mp hempty]
      · -- the entry joined into is the stored one, or a fresh empty set
        have hentry : Sized N ((s.controlTaintMap[a]?).getD (bitsetInit ws.bits N))
            ∧ marks ((s.controlTaintMap[a]?).getD (bitsetInit ws.bits N))
              = marksAt s (.ctl a) := by
          cases he : s.controlTaintMap[a]? with
          | none =>
              refine ⟨sized_init N, ?_⟩
              rw [Option.getD_none, marks_init, marksAt, entryAt, he, entryMarks_none]
          | some b =>
              refine ⟨hs.entries (.ctl a) b he, ?_⟩
              rw [Option.getD_some, marksAt, entryAt, he, entryMarks_some]
        obtain ⟨u, hu, hsu, hmu⟩ := union_sized hentry.1 hsf
        refine ⟨{ s with controlTaintMap := s.controlTaintMap.insert a u }, some u, ?_,
          ⟨?_, ?_, ?_, hs.tags⟩, ?_⟩
        · simp [hempty, hu]
        · rintro p rfl
          show (s.controlTaintMap.insert a u)[a]? = some u
          rw [Std.ExtTreeMap.getElem?_insert_self]
        · intro p hp
          cases p with
          | ctl c =>
              have hc : ¬ a = c := by
                rintro rfl
                exact hp rfl
              show (s.controlTaintMap.insert a u)[c]? = s.controlTaintMap[c]?
              rw [Std.ExtTreeMap.getElem?_insert]
              simp [hc]
          | _ => rfl
        · rintro b hb
          cases hb
          exact hsu
        · rw [entryMarks_some, hmu, hentry.2, hmf]

/-- The addresses `PopControl` erases before it stops. -/
def popped : List (Addr ws) → Std.ExtTreeMap (Addr ws) (Bitset ws.bits) → List (Addr ws)
  | [], _ => []
  | addr :: rest, m => if addr ∈ m then addr :: popped rest (m.erase addr) else []

/-- `PopControl` touches nothing but the control map. -/
theorem popControl_eq (addrs : List (Addr ws)) (s : TaintState ws N) :
    popControl addrs s
      = { s with controlTaintMap := (popControl addrs s).controlTaintMap } := by
  induction addrs generalizing s with
  | nil => rfl
  | cons a rest ih =>
      rw [popControl]
      by_cases ha : a ∈ s.controlTaintMap
      · rw [if_pos ha]
        exact ih { s with controlTaintMap := s.controlTaintMap.erase a }
      · rw [if_neg ha]

/-- `PopControl` erases exactly `popped`. -/
theorem popControl_getElem? (addrs : List (Addr ws)) (s : TaintState ws N) (c : Addr ws) :
    (popControl addrs s).controlTaintMap[c]?
      = if c ∈ popped addrs s.controlTaintMap then none else s.controlTaintMap[c]? := by
  induction addrs generalizing s with
  | nil => rfl
  | cons a rest ih =>
      rw [popControl, popped]
      by_cases ha : a ∈ s.controlTaintMap
      · rw [if_pos ha, if_pos ha, ih { s with controlTaintMap := s.controlTaintMap.erase a }]
        show (if c ∈ popped rest (s.controlTaintMap.erase a) then none
          else (s.controlTaintMap.erase a)[c]?) = _
        by_cases hc : c ∈ popped rest (s.controlTaintMap.erase a)
        · rw [if_pos hc, if_pos (List.mem_cons_of_mem _ hc)]
        · rw [if_neg hc, Std.ExtTreeMap.getElem?_erase]
          by_cases hac : a = c
          · subst hac
            simp
          · have hca : ¬ c = a := fun h => hac h.symm
            simp [hac, hca, hc]
      · rw [if_neg ha, if_neg ha, if_neg (by simp)]

theorem popControl_spec {s : TaintState ws N} (hs : SizedState s) (addrs : List (Addr ws)) :
    Assigns {p | ∃ a ∈ popped addrs s.controlTaintMap, p = .ctl a} none s
      (popControl addrs s) where
  target := by
    rintro p ⟨a, ha, rfl⟩
    show (popControl addrs s).controlTaintMap[a]? = none
    rw [popControl_getElem?, if_pos ha]
  frame := by
    intro p hp
    cases p with
    | ctl a =>
        show (popControl addrs s).controlTaintMap[a]? = s.controlTaintMap[a]?
        rw [popControl_getElem?, if_neg fun ha => hp ⟨a, ha, rfl⟩]
    | _ =>
        rw [popControl_eq]
        rfl
  sized := fun b hb => nomatch hb
  tags := by
    rw [popControl_eq]
    exact hs.tags

/-! ## One step -/

/-- The places a call assigns.  The clearing calls and `PopControl` look at
    which places are keys. -/
def targets : Call ws → TaintState ws N → Set (Place ws)
  | .clearTaintSet x, _ => {.scr x}
  | .taintForRegister _ x, _ => {.scr x}
  | .taintForMemory _ _ x, _ => {.scr x}
  | .setTaintForRegister dest _, _ => regPlaces dest
  | .setTaintForMemory start size _, _ => rangePlaces start size
  | .clearTaintForRegister r, s => {.reg r} ∩ present s
  | .clearTaintForMemory start size, s => rangePlaces start size ∩ present s
  | .pushControl a, _ => {.ctl a}
  | .popControl addrs, s => {p | ∃ a ∈ popped addrs s.controlTaintMap, p = .ctl a}

/-- The places a call takes marks from. -/
def origins : Call ws → Set (Place ws)
  | .clearTaintSet _ => ∅
  | .taintForRegister r _ => {.reg r}
  | .taintForMemory start size _ => rangePlaces start size
  | .setTaintForRegister _ sets => scratchPlaces sets ∪ controlPlaces
  | .setTaintForMemory _ _ sets => scratchPlaces sets ∪ controlPlaces
  | .clearTaintForRegister _ => controlPlaces
  | .clearTaintForMemory _ _ => controlPlaces
  | .pushControl a => {.ctl a, .reg (flagsReg ws)}
  | .popControl _ => ∅

/-- The union a `SetTaintFor…` call assigns is gathered from its origins. -/
theorem marks_args (s : TaintState ws N) (sets : List Scratch) :
    {m | ∃ b ∈ sets.map s.scratch, m ∈ marks b} ∪ controlMarks s
      = gathered (scratchPlaces sets ∪ controlPlaces) (marksAt s) := by
  ext m
  constructor
  · rintro (⟨b, hb, hm⟩ | ⟨q, hq, hm⟩)
    · obtain ⟨x, hx, rfl⟩ := List.mem_map.mp hb
      exact ⟨.scr x, Or.inl ⟨x, hx, rfl⟩, s.scratch x, rfl, hm⟩
    · exact ⟨q, Or.inr hq, hm⟩
  · rintro ⟨q, ⟨x, hx, rfl⟩ | hq, hm⟩
    · obtain ⟨b, hb, hmb⟩ := hm
      cases hb
      exact Or.inl ⟨s.scratch x, List.mem_map_of_mem hx, hmb⟩
    · exact Or.inr ⟨q, hq, hm⟩

/-- The scratch sets of a sized state are sized. -/
theorem sized_args {s : TaintState ws N} (hs : SizedState s) (sets : List Scratch) :
    ∀ b ∈ sets.map s.scratch, Sized N b := by
  intro b hb
  obtain ⟨x, -, rfl⟩ := List.mem_map.mp hb
  exact hs.entries (.scr x) _ rfl

@[simp] theorem gathered_singleton (s : TaintState ws N) (p : Place ws) :
    gathered {p} (marksAt s) = marksAt s p := by
  ext m
  simp [gathered]

/-- The analysis calls that are inserted by data-flow propagation. -/
def isData : Call ws → Bool
  | .pushControl _ => false
  | .popControl _ => false
  | _ => true

/-- Data-flow calls assign no control entry. -/
theorem ctl_notMem_targets {c : Call ws} (hc : isData c = true) (s : TaintState ws N)
    (a : Addr ws) : Place.ctl a ∉ targets c s := by
  cases c with
  | pushControl _ => exact nomatch hc
  | popControl _ => exact nomatch hc
  | clearTaintSet _ => exact fun h => nomatch h
  | taintForRegister _ _ => exact fun h => nomatch h
  | taintForMemory _ _ _ => exact fun h => nomatch h
  | setTaintForRegister _ _ =>
      rintro ⟨-, r, -, h⟩
      exact nomatch h
  | setTaintForMemory _ _ _ =>
      rintro ⟨b, -, h⟩
      exact nomatch h
  | clearTaintForRegister _ => exact fun h => nomatch h.1
  | clearTaintForMemory _ _ =>
      rintro ⟨⟨b, -, h⟩, -⟩
      exact nomatch h

/-- A data-flow call assigns one bitset to its targets, with the marks of its
    origins. -/
theorem data_step_assigns {s : TaintState ws N} (hs : SizedState s) {c : Call ws}
    (hc : isData c = true) :
    ∃ s' b, step c s = some s' ∧ Assigns (targets c s) (some b) s s'
      ∧ marks b = gathered (origins c) (marksAt s) := by
  cases c with
  | pushControl _ => exact nomatch hc
  | popControl _ => exact nomatch hc
  | clearTaintSet x =>
      refine ⟨_, _, rfl, clearTaintSet_spec hs x, ?_⟩
      rw [marks_init, origins, gathered_empty]
  | taintForRegister r x =>
      obtain ⟨s', b, hstep, ha, -, hb⟩ := taintForRegister_spec hs r x
      exact ⟨s', b, hstep, ha, by rw [hb, origins, gathered_singleton]⟩
  | taintForMemory start size x =>
      obtain ⟨s', b, hstep, ha, -, hb⟩ := taintForMemory_spec hs start size x
      exact ⟨s', b, hstep, ha, hb⟩
  | setTaintForRegister dest sets =>
      obtain ⟨s', t, hstep, ha, -, ht⟩ := setTaintForRegister_spec hs dest (sized_args hs sets)
      exact ⟨s', t, hstep, ha, by rw [ht, marks_args, origins]⟩
  | setTaintForMemory start size sets =>
      obtain ⟨s', t, hstep, ha, -, ht⟩ :=
        setTaintForMemory_spec hs start size (sized_args hs sets)
      exact ⟨s', t, hstep, ha, by rw [ht, marks_args, origins]⟩
  | clearTaintForRegister r =>
      obtain ⟨s', c, hstep, ha, -, hc⟩ := clearTaintForRegister_spec hs r
      exact ⟨s', c, hstep, ha, hc⟩
  | clearTaintForMemory start size =>
      obtain ⟨s', c, hstep, ha, -, hc⟩ := clearTaintForMemory_spec hs start size
      exact ⟨s', c, hstep, ha, hc⟩

/-- A call assigns one entry to its targets, with the marks of its origins. -/
theorem step_assigns {s : TaintState ws N} (hs : SizedState s) (c : Call ws) :
    ∃ s' e, step c s = some s' ∧ Assigns (targets c s) e s s'
      ∧ entryMarks e = gathered (origins c) (marksAt s) := by
  have hdata : isData c = true → ∃ s' e, step c s = some s' ∧ Assigns (targets c s) e s s'
      ∧ entryMarks e = gathered (origins c) (marksAt s) := by
    intro hc
    obtain ⟨s', b, hstep, ha, hb⟩ := data_step_assigns hs hc
    exact ⟨s', some b, hstep, ha, by rw [entryMarks_some, hb]⟩
  cases c with
  | pushControl a =>
      obtain ⟨s', e, hstep, ha, he⟩ := pushControl_spec hs a
      refine ⟨s', e, hstep, ha, ?_⟩
      rw [he, origins]
      ext m
      simp [gathered]
  | popControl addrs =>
      refine ⟨_, none, rfl, popControl_spec hs addrs, ?_⟩
      rw [entryMarks_none, origins, gathered_empty]
  | _ => exact hdata rfl

/-- **One call is one overwrite**: on a sized state no assertion fails, the
    next state is sized, and the marks move from the origins to the targets. -/
theorem step_marks {s : TaintState ws N} (hs : SizedState s) (c : Call ws) :
    ∃ s', step c s = some s' ∧ SizedState s'
      ∧ marksAt s' = overwrite (targets c s) (origins c) (marksAt s) := by
  obtain ⟨s', e, hstep, ha, he⟩ := step_assigns hs c
  exact ⟨s', hstep, ha.sizedState hs, ha.marksAt_eq he⟩

/-- **No sequence of calls fails an assertion**, and every state it reaches is
    sized. -/
theorem run_sized {s : TaintState ws N} (hs : SizedState s) (calls : List (Call ws)) :
    ∃ s', run calls s = some s' ∧ SizedState s' := by
  induction calls generalizing s with
  | nil => exact ⟨s, rfl, hs⟩
  | cons c rest ih =>
      obtain ⟨s₁, hstep, hs₁, -⟩ := step_marks hs c
      obtain ⟨s', hrun, hs'⟩ := ih hs₁
      exact ⟨s', by rw [run_cons, hstep]; exact hrun, hs'⟩

/-- The places a data-flow call can assign. -/
def mayAssign : Call ws → Set (Place ws)
  | .clearTaintSet x => {.scr x}
  | .taintForRegister _ x => {.scr x}
  | .taintForMemory _ _ x => {.scr x}
  | .setTaintForRegister dest _ => regPlaces dest
  | .setTaintForMemory start size _ => rangePlaces start size
  | .clearTaintForRegister r => {.reg r}
  | .clearTaintForMemory start size => rangePlaces start size
  | _ => ∅

theorem targets_subset_mayAssign {c : Call ws} (hc : isData c = true) (s : TaintState ws N) :
    targets c s ⊆ mayAssign c := by
  cases c with
  | pushControl _ => exact nomatch hc
  | popControl _ => exact nomatch hc
  | clearTaintForRegister _ => exact Set.inter_subset_left
  | clearTaintForMemory _ _ => exact Set.inter_subset_left
  | _ => exact subset_rfl

/-- **Frame**: data-flow calls keep the entry of a place none of them assigns,
    and every control entry. -/
theorem run_frame {calls : List (Call ws)} (hdata : ∀ c ∈ calls, isData c = true)
    {s : TaintState ws N} (hs : SizedState s) :
    ∃ s', run calls s = some s' ∧ SizedState s'
      ∧ (∀ p, (∀ c ∈ calls, p ∉ mayAssign c) → entryAt s' p = entryAt s p)
      ∧ controlMarks s' = controlMarks s := by
  induction calls generalizing s with
  | nil => exact ⟨s, rfl, hs, fun _ _ => rfl, rfl⟩
  | cons c rest ih =>
      have hc := hdata c List.mem_cons_self
      obtain ⟨s₁, b, hstep, ha, -⟩ := data_step_assigns hs hc
      obtain ⟨s', hrun, hs', hframe, hctl⟩ :=
        ih (fun d hd => hdata d (List.mem_cons_of_mem _ hd)) (ha.sizedState hs)
      refine ⟨s', by rw [run_cons, hstep]; exact hrun, hs', fun p hp => ?_, ?_⟩
      · rw [hframe p fun d hd => hp d (List.mem_cons_of_mem _ hd)]
        exact ha.frame p fun ht =>
          hp c List.mem_cons_self (targets_subset_mayAssign hc s ht)
      · rw [hctl]
        ext m
        constructor
        · rintro ⟨q, ⟨a, rfl⟩, hm⟩
          rw [marksAt, ha.frame _ (ctl_notMem_targets hc s a)] at hm
          exact ⟨.ctl a, ⟨a, rfl⟩, hm⟩
        · rintro ⟨q, ⟨a, rfl⟩, hm⟩
          refine ⟨.ctl a, ⟨a, rfl⟩, ?_⟩
          rw [marksAt, ha.frame _ (ctl_notMem_targets hc s a)]
          exact hm

end DytanMarkFlow
