import Dytan.RegisterAliasProofs

/-! # Reading taint after assigning it

    What `TaintForMemory` and `TaintForRegister` return after a `SetTaintFor…`
    call: the assigned marks where the call wrote, the old marks elsewhere,
    for any two ranges, any keys present and any old content of the output set.

    `ClearTaintFor…` is meant to be the assignment from no source.  It assigns
    the same control taint, but only to keys that exist and without the
    sub-registers; the two agree exactly where that makes no difference. -/

namespace DytanReadOverWrite

open DytanBitset DytanRegister DytanTaintState DytanMarkFlow DytanRegisterAlias Overwrite

variable {ws : WordSize} {N : Nat}

/-- `TaintForMemory(start, size)` returns `M` in the set `x`. -/
def ReadsMemory (start size : Addr ws) (x : Scratch) (s : TaintState ws N) (M : Set Nat) : Prop :=
  ∃ t, taintForMemory start size x s = some t ∧ marks (t.scratch x) = M

/-- `TaintForRegister(r)` returns `M` in the set `x`. -/
def ReadsRegister (r : Reg) (x : Scratch) (s : TaintState ws N) (M : Set Nat) : Prop :=
  ∃ t, taintForRegister r x s = some t ∧ marks (t.scratch x) = M

theorem readsMemory_iff {s : TaintState ws N} (hs : SizedState s) {start size : Addr ws}
    {x : Scratch} {M : Set Nat} :
    ReadsMemory start size x s M ↔ M = gathered (rangePlaces start size) (marksAt s) := by
  obtain ⟨t, b, ht, ha, -, hb⟩ := taintForMemory_spec hs start size x
  have hx : t.scratch x = b := Option.some.inj (ha.target (.scr x) rfl)
  constructor
  · rintro ⟨t', ht', rfl⟩
    rw [ht] at ht'
    cases ht'
    rw [hx, hb]
  · rintro rfl
    exact ⟨t, ht, by rw [hx, hb]⟩

theorem readsRegister_iff {s : TaintState ws N} (hs : SizedState s) {r : Reg} {x : Scratch}
    {M : Set Nat} : ReadsRegister r x s M ↔ M = marksAt s (.reg r) := by
  obtain ⟨t, b, ht, ha, -, hb⟩ := taintForRegister_spec hs r x
  have hx : t.scratch x = b := Option.some.inj (ha.target (.scr x) rfl)
  constructor
  · rintro ⟨t', ht', rfl⟩
    rw [ht] at ht'
    cases ht'
    rw [hx, hb]
  · rintro rfl
    exact ⟨t, ht, by rw [hx, hb]⟩

section Frame

variable {D : Set (Place ws)} {e : Option (Bitset ws.bits)} {s s' : TaintState ws N}

theorem regTaintMap_eq (h : Assigns D e s s') (hD : ∀ r, Place.reg r ∉ D) :
    s'.regTaintMap = s.regTaintMap :=
  funext fun r => h.frame (.reg r) (hD r)

theorem memTaintMap_eq (h : Assigns D e s s') (hD : ∀ a, Place.mem a ∉ D) :
    s'.memTaintMap = s.memTaintMap :=
  Std.ExtTreeMap.ext_getElem? fun a => h.frame (.mem a) (hD a)

theorem controlTaintMap_eq (h : Assigns D e s s') (hD : ∀ a, Place.ctl a ∉ D) :
    s'.controlTaintMap = s.controlTaintMap :=
  Std.ExtTreeMap.ext_getElem? fun a => h.frame (.ctl a) (hD a)

end Frame

theorem mem_rangePlaces {start size a : Addr ws} :
    Place.mem a ∈ rangePlaces start size ↔ a ∈ addrRange start size := by
  constructor
  · rintro ⟨b, hb, hab⟩
    cases hab
    exact hb
  · exact fun ha => ⟨a, ha, rfl⟩

theorem reg_mem_regPlaces {r q : Reg} (hr : isStackReg r = false) :
    (Place.reg q : Place ws) ∈ regPlaces r ↔ q = r ∨ q ∈ subRegisters r := by
  rw [← mem_writtenRegs]
  constructor
  · rintro ⟨-, p, hp, hpq⟩
    cases hpq
    exact hp
  · exact fun hq => ⟨hr, q, hq, rfl⟩

/-! ## Read over write -/

/-- The bytes of `[start, start + size)`. -/
def InRange (start size a : Addr ws) : Prop :=
  start.toNat ≤ a.toNat ∧ a.toNat < start.toNat + size.toNat

/-- The two ranges share a byte. -/
def Overlap (start size start' size' : Addr ws) : Prop :=
  ∃ a, InRange start size a ∧ InRange start' size' a

/-- The range does not reach the top of the address space. -/
def NoWrapRange (start size : Addr ws) : Prop := start.toNat + size.toNat < 2 ^ ws.bits

/-- The marks a call with these sets assigns. -/
def assignedMarks (sets : List (Bitset ws.bits)) (s : TaintState ws N) : Set Nat :=
  {m | ∃ b ∈ sets, m ∈ marks b} ∪ controlMarks s

/-- The marks of the bytes of a second range that lie outside the first. -/
def marksOutside (start size start' size' : Addr ws) (s : TaintState ws N) : Set Nat :=
  {m | ∃ a, InRange start' size' a ∧ ¬ InRange start size a ∧ m ∈ marksAt s (.mem a)}

/-- After `SetTaintForMemory` a second range reads what was assigned, if the
    two share a byte, and the old marks of its other bytes. -/
theorem readsMemory_after {s s' : TaintState ws N} {start size : Addr ws} {t : Bitset ws.bits}
    (hs : SizedState s) (ha : Assigns (rangePlaces start size) (some t) s s')
    (hw : NoWrapRange start size) {start' size' : Addr ws} (hw' : NoWrapRange start' size')
    (x : Scratch) :
    ReadsMemory start' size' x s'
      ({m | Overlap start size start' size' ∧ m ∈ marks t}
        ∪ marksOutside start size start' size' s) := by
  rw [readsMemory_iff (ha.sizedState hs)]
  have hin : ∀ a, Place.mem a ∈ rangePlaces start size ↔ InRange start size a := by
    intro a
    rw [mem_rangePlaces, mem_addrRange_of_lt hw, InRange]
  have hnew : ∀ a, InRange start size a → marksAt s' (.mem a) = marks t := by
    intro a haIn
    rw [marksAt, ha.target _ ((hin a).mpr haIn), entryMarks_some]
  have hold : ∀ a, ¬ InRange start size a → marksAt s' (.mem a) = marksAt s (.mem a) := by
    intro a haOut
    rw [marksAt, marksAt, ha.frame _ fun hm => haOut ((hin a).mp hm)]
  ext m
  constructor
  · rintro (⟨⟨a, haIn, haIn'⟩, hm⟩ | ⟨a, haIn', haOut, hm⟩)
    · refine ⟨.mem a, mem_rangePlaces.mpr ((mem_addrRange_of_lt hw').mpr haIn'), ?_⟩
      rw [hnew a haIn]
      exact hm
    · refine ⟨.mem a, mem_rangePlaces.mpr ((mem_addrRange_of_lt hw').mpr haIn'), ?_⟩
      rw [hold a haOut]
      exact hm
  · rintro ⟨q, ⟨a, haIn', rfl⟩, hm⟩
    have haIn' : InRange start' size' a := (mem_addrRange_of_lt hw').mp haIn'
    by_cases haIn : InRange start size a
    · rw [hnew a haIn] at hm
      exact .inl ⟨⟨a, haIn, haIn'⟩, hm⟩
    · rw [hold a haIn] at hm
      exact .inr ⟨a, haIn', haIn, hm⟩

/-- **Read over write**: after `SetTaintForMemory` every range reads the
    assigned marks for the bytes written and the old marks for the others;
    after `SetTaintForRegister` the register and its listed sub-registers read
    the assigned marks, and every other register its old ones.  The maps not
    written are unchanged. -/
theorem read_over_write {s : TaintState ws N} (hs : SizedState s) {sets : List (Bitset ws.bits)}
    (hsets : ∀ b ∈ sets, Sized N b) :
    (∀ start size : Addr ws, NoWrapRange start size →
        ∃ s', setTaintForMemory start size sets s = some s'
          ∧ s'.regTaintMap = s.regTaintMap ∧ s'.controlTaintMap = s.controlTaintMap
          ∧ ∀ (start' size' : Addr ws) (x : Scratch), NoWrapRange start' size' →
              ReadsMemory start' size' x s'
                ({m | Overlap start size start' size' ∧ m ∈ assignedMarks sets s}
                  ∪ marksOutside start size start' size' s))
      ∧ ∀ r : Reg, isStackReg r = false →
          ∃ s', setTaintForRegister r sets s = some s'
            ∧ s'.memTaintMap = s.memTaintMap ∧ s'.controlTaintMap = s.controlTaintMap
            ∧ ∀ (q : Reg) (x : Scratch),
                ((q = r ∨ q ∈ subRegisters r) → ReadsRegister q x s' (assignedMarks sets s))
                ∧ (¬ (q = r ∨ q ∈ subRegisters r) →
                  ReadsRegister q x s' (marksAt s (.reg q))) := by
  refine ⟨fun start size hw => ?_, fun r hr => ?_⟩
  · obtain ⟨s', t, hset, ha, -, ht⟩ := setTaintForMemory_spec hs start size hsets
    refine ⟨s', hset, regTaintMap_eq ha fun r h => ?_, controlTaintMap_eq ha fun a h => ?_,
      fun start' size' x hw' => ?_⟩
    · obtain ⟨a, -, h⟩ := h
      exact nomatch h
    · obtain ⟨b, -, h⟩ := h
      exact nomatch h
    · rw [assignedMarks, ← ht]
      exact readsMemory_after hs ha hw hw' x
  · obtain ⟨s', t, hset, ha, -, ht⟩ := setTaintForRegister_spec hs r hsets
    refine ⟨s', hset, memTaintMap_eq ha fun a h => ?_, controlTaintMap_eq ha fun a h => ?_,
      fun q x => ⟨fun hq => ?_, fun hq => ?_⟩⟩
    · obtain ⟨-, p, -, h⟩ := h
      exact nomatch h
    · obtain ⟨-, p, -, h⟩ := h
      exact nomatch h
    · rw [readsRegister_iff (ha.sizedState hs), marksAt,
        ha.target (.reg q) ((reg_mem_regPlaces hr).mpr hq), entryMarks_some, ht, assignedMarks]
    · rw [readsRegister_iff (ha.sizedState hs), marksAt, marksAt,
        ha.frame (.reg q) fun h => hq ((reg_mem_regPlaces hr).mp h)]

/-- Two overlapping ranges, and EAX, from the initial state. -/
theorem read_over_write_init :
    (∃ s', setTaintForMemory 100 4 [markZero] (TaintState.init .w64 1) = some s'
        ∧ ReadsMemory 102 4 .dest s'
          ({m | Overlap (100 : Addr .w64) 4 102 4
              ∧ m ∈ assignedMarks [markZero] (TaintState.init .w64 1)}
            ∪ marksOutside 100 4 102 4 (TaintState.init .w64 1)))
      ∧ ∃ s', setTaintForRegister .eax [markZero] (TaintState.init .w64 1) = some s'
          ∧ ReadsRegister .ah .dest s' (assignedMarks [markZero] (TaintState.init .w64 1)) := by
  obtain ⟨hmem, hreg⟩ := read_over_write (init_sized : SizedState (TaintState.init .w64 1))
    markZero_sized
  obtain ⟨s₁, hset₁, -, -, hread₁⟩ := hmem 100 4 (by unfold NoWrapRange; decide)
  obtain ⟨s₂, hset₂, -, -, hread₂⟩ := hreg .eax rfl
  exact ⟨⟨s₁, hset₁, hread₁ 102 4 .dest (by unfold NoWrapRange; decide)⟩,
    s₂, hset₂, (hread₂ .ah .dest).1 (.inr (by decide))⟩

/-! ## Clearing and assigning from no source -/

/-- `ClearTaintForRegister(r)` and `SetTaintForRegister(r, 0)` leave every
    register reading the same. -/
def RegisterAgrees (r : Reg) (s : TaintState ws N) : Prop :=
  ∃ s₁ s₂, clearTaintForRegister r s = some s₁ ∧ setTaintForRegister r [] s = some s₂
    ∧ ∀ q x, ∃ M, ReadsRegister q x s₁ M ∧ ReadsRegister q x s₂ M

/-- `ClearTaintForMemory(start, size)` and `SetTaintForMemory(start, size, 0)`
    leave every address reading the same. -/
def MemoryAgrees (start size : Addr ws) (s : TaintState ws N) : Prop :=
  ∃ s₁ s₂, clearTaintForMemory start size s = some s₁ ∧ setTaintForMemory start size [] s = some s₂
    ∧ ∀ a x, ∃ M, ReadsMemory a 1 x s₁ M ∧ ReadsMemory a 1 x s₂ M

/-- An assignment from no source assigns the control taint. -/
theorem assignedMarks_nil (s : TaintState ws N) :
    {m | ∃ b ∈ ([] : List (Bitset ws.bits)), m ∈ marks b} ∪ controlMarks s = controlMarks s := by
  ext m
  simp

theorem notMem_subRegisters (r : Reg) : r ∉ subRegisters r := by
  cases r with
  | other code => exact List.not_mem_nil
  | _ => decide

/-- **Two assignments of the same marks**, one to the keys among `D`, the other
    to all of `E`, agree at a place exactly when what the first leaves there
    has these marks already. -/
theorem marksAt_agree_iff {D E : Set (Place ws)} (hDE : D ⊆ E) {s s₁ s₂ : TaintState ws N}
    {c t : Bitset ws.bits} (h₁ : Assigns (D ∩ present s) (some c) s s₁)
    (h₂ : Assigns E (some t) s s₂) (hct : marks c = marks t) (p : Place ws) :
    marksAt s₁ p = marksAt s₂ p
      ↔ (p ∈ D → p ∈ present s ∨ marks t = ∅) ∧ (p ∈ E → p ∉ D → marksAt s p = marks t) := by
  by_cases hE : p ∈ E
  · have hnew : marksAt s₂ p = marks t := by rw [marksAt, h₂.target p hE, entryMarks_some]
    rw [hnew]
    by_cases hD : p ∈ D
    · by_cases hp : p ∈ present s
      · rw [marksAt, h₁.target p ⟨hD, hp⟩, entryMarks_some]
        exact ⟨fun _ => ⟨fun _ => .inl hp, fun _ h => absurd hD h⟩, fun _ => hct⟩
      · rw [marksAt, h₁.frame p fun h => hp h.2, show entryMarks (entryAt s p) = ∅ from
          marksAt_of_absent hp]
        exact ⟨fun h => ⟨fun _ => .inr h.symm, fun _ h => absurd hD h⟩,
          fun h => ((h.1 hD).resolve_left hp).symm⟩
    · rw [marksAt, h₁.frame p fun h => hD h.1]
      exact ⟨fun h => ⟨fun h => absurd h hD, fun _ _ => h⟩, fun h => h.2 hE hD⟩
  · have hD : p ∉ D := fun h => hE (hDE h)
    rw [marksAt, h₁.frame p fun h => hD h.1, marksAt, h₂.frame p hE]
    exact ⟨fun _ => ⟨fun h => absurd h hD, fun h => absurd h hE⟩, fun _ => rfl⟩

theorem registerAgrees_iff {s : TaintState ws N} (hs : SizedState s) {r : Reg}
    (hr : isStackReg r = false) :
    RegisterAgrees r s
      ↔ (Place.reg r ∈ present s ∨ controlMarks s = ∅)
        ∧ ∀ q ∈ subRegisters r, marksAt s (.reg q) = controlMarks s := by
  have hnone : ∀ b ∈ ([] : List (Bitset ws.bits)), Sized N b := nofun
  obtain ⟨s₁, c, hclear, ha₁, -, hc⟩ := clearTaintForRegister_spec hs r
  obtain ⟨s₂, t, hset, ha₂, -, ht⟩ := setTaintForRegister_spec hs r hnone
  rw [assignedMarks_nil] at ht
  have hsub : ({.reg r} : Set (Place ws)) ⊆ regPlaces r := by
    rintro p rfl
    exact (reg_mem_regPlaces hr).mpr (.inl rfl)
  have hreads : RegisterAgrees r s ↔ ∀ q, marksAt s₁ (.reg q) = marksAt s₂ (.reg q) := by
    constructor
    · rintro ⟨t₁, t₂, h₁, h₂, hall⟩ q
      rw [hclear] at h₁
      rw [hset] at h₂
      cases h₁
      cases h₂
      obtain ⟨M, hM₁, hM₂⟩ := hall q .dest
      rw [readsRegister_iff (ha₁.sizedState hs)] at hM₁
      rw [readsRegister_iff (ha₂.sizedState hs)] at hM₂
      rw [← hM₁, hM₂]
    · intro hall
      refine ⟨s₁, s₂, hclear, hset, fun q x => ⟨marksAt s₁ (.reg q), ?_, ?_⟩⟩
      · exact (readsRegister_iff (ha₁.sizedState hs)).mpr rfl
      · exact (readsRegister_iff (ha₂.sizedState hs)).mpr (hall q)
  rw [hreads, ← ht]
  constructor
  · intro hall
    refine ⟨((marksAt_agree_iff hsub ha₁ ha₂ (hc.trans ht.symm) _).mp (hall r)).1 rfl,
      fun q hq => ?_⟩
    refine ((marksAt_agree_iff hsub ha₁ ha₂ (hc.trans ht.symm) _).mp (hall q)).2
      ((reg_mem_regPlaces hr).mpr (.inr hq)) fun h => ?_
    cases h
    exact notMem_subRegisters _ hq
  · rintro ⟨hreg, hq⟩ q
    refine (marksAt_agree_iff hsub ha₁ ha₂ (hc.trans ht.symm) _).mpr
      ⟨fun h => ?_, fun hE hD => ?_⟩
    · cases h
      exact hreg
    · rcases (reg_mem_regPlaces hr).mp hE with rfl | hmem
      · exact absurd rfl hD
      · exact hq q hmem

/-- The one byte of `TaintForMemory(a, 1)`; the last address cannot be read. -/
theorem gathered_byte (a : Addr ws) (s : TaintState ws N) :
    gathered (rangePlaces a 1) (marksAt s)
      = {m | a.toNat + 1 < 2 ^ ws.bits ∧ m ∈ marksAt s (.mem a)} := by
  have hone : (1 : Addr ws).toNat = 1 := by cases ws <;> rfl
  have hmem : ∀ b : Addr ws, b ∈ addrRange a 1 ↔ a.toNat + 1 < 2 ^ ws.bits ∧ b = a := by
    intro b
    rw [mem_addrRange, BitVec.le_def, BitVec.lt_def, BitVec.toNat_add, hone, ← BitVec.toNat_inj]
    have ha := a.isLt
    rcases Nat.lt_or_ge (a.toNat + 1) (2 ^ ws.bits) with hlt | hge
    · rw [Nat.mod_eq_of_lt hlt]
      omega
    · rw [show a.toNat + 1 = 2 ^ ws.bits by omega, Nat.mod_self]
      omega
  ext m
  constructor
  · rintro ⟨q, ⟨b, hb, rfl⟩, hm⟩
    obtain ⟨hlt, rfl⟩ := (hmem b).mp hb
    exact ⟨hlt, hm⟩
  · rintro ⟨hlt, hm⟩
    exact ⟨.mem a, ⟨a, (hmem a).mpr ⟨hlt, rfl⟩, rfl⟩, hm⟩

theorem memoryAgrees_iff {s : TaintState ws N} (hs : SizedState s) (start size : Addr ws) :
    MemoryAgrees start size s
      ↔ (∀ a ∈ addrRange start size, Place.mem a ∈ present s) ∨ controlMarks s = ∅ := by
  have hnone : ∀ b ∈ ([] : List (Bitset ws.bits)), Sized N b := nofun
  obtain ⟨s₁, c, hclear, ha₁, -, hc⟩ := clearTaintForMemory_spec hs start size
  obtain ⟨s₂, t, hset, ha₂, -, ht⟩ := setTaintForMemory_spec hs start size hnone
  rw [assignedMarks_nil] at ht
  have hagree := marksAt_agree_iff subset_rfl ha₁ ha₂ (hc.trans ht.symm)
  have hreads : MemoryAgrees start size s
      ↔ ∀ a : Addr ws, a.toNat + 1 < 2 ^ ws.bits → marksAt s₁ (.mem a) = marksAt s₂ (.mem a) := by
    constructor
    · rintro ⟨t₁, t₂, h₁, h₂, hall⟩ a hlt
      rw [hclear] at h₁
      rw [hset] at h₂
      cases h₁
      cases h₂
      obtain ⟨M, hM₁, hM₂⟩ := hall a .dest
      rw [readsMemory_iff (ha₁.sizedState hs), gathered_byte] at hM₁
      rw [readsMemory_iff (ha₂.sizedState hs), gathered_byte] at hM₂
      ext m
      have hm := Set.ext_iff.mp (hM₁.symm.trans hM₂) m
      exact ⟨fun h => (hm.mp ⟨hlt, h⟩).2, fun h => (hm.mpr ⟨hlt, h⟩).2⟩
    · intro hall
      refine ⟨s₁, s₂, hclear, hset, fun a x => ⟨_, (readsMemory_iff (ha₁.sizedState hs)).mpr rfl,
        (readsMemory_iff (ha₂.sizedState hs)).mpr ?_⟩⟩
      rw [gathered_byte, gathered_byte]
      ext m
      exact ⟨fun h => ⟨h.1, hall a h.1 ▸ h.2⟩, fun h => ⟨h.1, hall a h.1 ▸ h.2⟩⟩
  rw [hreads, ← ht]
  constructor
  · intro hall
    by_cases hempty : marks t = ∅
    · exact .inr hempty
    · refine .inl fun a ha => ?_
      -- a byte of the range lies below the end of the range
      have hlt : a.toNat + 1 < 2 ^ ws.bits := by
        have h := (mem_addrRange.mp ha).2
        rw [BitVec.lt_def] at h
        have := (start + size).isLt
        omega
      exact (((hagree _).mp (hall a hlt)).1 (mem_rangePlaces.mpr ha)).resolve_right hempty
  · intro h a _
    refine (hagree _).mpr ⟨fun hp => ?_, fun hE hD => absurd hE hD⟩
    exact h.imp_left fun hall => hall a (mem_rangePlaces.mp hp)

/-- **Clearing against assigning from no source, exactly**: for a register,
    the two agree when it has an entry, or there is no control taint, and its
    listed sub-registers carry the control taint already; for a range, when
    each of its bytes has an entry, or there is no control taint. -/
theorem clear_agrees_iff {s : TaintState ws N} (hs : SizedState s) :
    (∀ r, isStackReg r = false →
        (RegisterAgrees r s
          ↔ (Place.reg r ∈ present s ∨ controlMarks s = ∅)
            ∧ ∀ q ∈ subRegisters r, marksAt s (.reg q) = controlMarks s))
      ∧ ∀ start size : Addr ws,
          (MemoryAgrees start size s
            ↔ (∀ a ∈ addrRange start size, Place.mem a ∈ present s) ∨ controlMarks s = ∅) :=
  ⟨fun _ hr => registerAgrees_iff hs hr, fun start size => memoryAgrees_iff hs start size⟩

/-- AL carries mark 0, and so does the control key 10. -/
def alAndControl : TaintState .w64 1 :=
  { TaintState.init .w64 1 with
    regTaintMap := fun r => if r = .al then some markZero else none
    controlTaintMap := (∅ : Std.ExtTreeMap (Addr .w64) (Bitset WordSize.w64.bits)).insert 10 markZero }

theorem alAndControl_sized : SizedState alAndControl where
  entries := by
    intro p b hb
    cases p with
    | reg r =>
        by_cases hr : r = .al
        · subst hr
          cases hb
          exact markZero_sized _ List.mem_cons_self
        · rw [show entryAt alAndControl (.reg r) = none from if_neg hr] at hb
          exact nomatch hb
    | mem a => exact init_sized.entries (.mem a) b hb
    | ctl a =>
        rw [show entryAt alAndControl (.ctl a) = (alAndControl.controlTaintMap)[a]? from rfl,
          show alAndControl.controlTaintMap = (∅ : Std.ExtTreeMap (Addr .w64) _).insert 10 markZero
            from rfl, Std.ExtTreeMap.getElem?_insert] at hb
        by_cases ha : compare (10 : Addr .w64) a = .eq
        · rw [if_pos ha] at hb
          cases hb
          exact markZero_sized _ List.mem_cons_self
        · rw [if_neg ha] at hb
          exact absurd hb (by simp)
    | scr x => exact init_sized.entries (.scr x) b hb
  tags := init_sized.tags

theorem zero_mem_controlMarks : 0 ∈ controlMarks alAndControl := by
  rw [mem_controlMarks]
  exact ⟨10, markZero, Std.ExtTreeMap.getElem?_insert_self, by decide, by decide⟩

/-- AL, which has an entry, is assigned the control taint when it is cleared; the
    byte 100, which has none, is not. -/
theorem clear_agrees_iff_al :
    RegisterAgrees .al alAndControl ∧ ¬ MemoryAgrees 100 1 alAndControl := by
  obtain ⟨hregister, hmemory⟩ := clear_agrees_iff alAndControl_sized
  refine ⟨(hregister .al rfl).mpr ⟨Or.inl ⟨markZero, rfl⟩, nofun⟩, fun h => ?_⟩
  rcases (hmemory 100 1).mp h with hall | hempty
  · obtain ⟨b, hb⟩ := hall 100 (by decide)
    exact nomatch Std.ExtTreeMap.getElem?_empty.symm.trans hb
  · exact absurd zero_mem_controlMarks (hempty ▸ Set.notMem_empty 0)

/-- Neither EAX, which has no entry, nor the byte 100 is assigned the control
    taint when it is cleared. -/
theorem clear_disagrees :
    isStackReg .eax = false ∧ ¬ RegisterAgrees .eax alAndControl
      ∧ NoWrapRange (100 : Addr .w64) 1 ∧ ¬ MemoryAgrees 100 1 alAndControl := by
  have hcontrol : controlMarks alAndControl ≠ ∅ :=
    fun h => absurd zero_mem_controlMarks (by rw [h]; exact Set.notMem_empty 0)
  refine ⟨rfl, fun h => ?_, by unfold NoWrapRange; decide, fun h => ?_⟩
  · rcases ((registerAgrees_iff alAndControl_sized rfl).mp h).1 with ⟨b, hb⟩ | hempty
    · exact nomatch hb
    · exact hcontrol hempty
  · rcases (memoryAgrees_iff alAndControl_sized 100 1).mp h with hall | hempty
    · obtain ⟨b, hb⟩ := hall 100 (by decide)
      exact absurd hb (by simp [entryAt, alAndControl, TaintState.init])
    · exact hcontrol hempty

end DytanReadOverWrite
