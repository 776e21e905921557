import Dytan.MarkFlowProofs

/-! # Register aliases — which names of a register a write reaches

    `SetTaintForRegister` keys taint by name and handles aliasing by a
    hand-written table.  Five 32-bit names have an entry; for these the table
    lists every narrower name, so a write reaches all parts of the register.
    For every other name the write reaches the name alone, and no write
    reaches a wider name. -/

namespace DytanRegisterAlias

open DytanBitset DytanRegister DytanTaintState DytanMarkFlow

variable {ws : WordSize} {N : Nat}

/-- `q` is a name for a part of `r`, or for the same bits. -/
def within (q r : Reg) : Bool :=
  match q.span, r.span with
  | some (f, lo, hi), some (f', lo', hi') =>
      decide (f = f') && decide (lo' ≤ lo) && decide (hi ≤ hi')
  | _, _ => false

/-- The names that have an entry in the alias table. -/
def hasSubRegisters (r : Reg) : Bool :=
  [Reg.r15d, .eax, .ebx, .ecx, .edx].contains r

/-- What `TaintForRegister` returns for a name, in the scratch set `x`. -/
def readBack (q : Reg) (x : Scratch) (s : TaintState ws N) : Set Nat :=
  {m | ∃ t, taintForRegister q x s = some t ∧ m ∈ marks (t.scratch x)}

/-- Reading a name gives the marks of its entry. -/
theorem readBack_eq {s : TaintState ws N} (hs : SizedState s) (q : Reg) (x : Scratch) :
    readBack q x s = marksAt s (.reg q) := by
  obtain ⟨t, b, ht, ha, -, hb⟩ := taintForRegister_spec hs q x
  have hx : t.scratch x = b := Option.some.inj (ha.target (.scr x) rfl)
  rw [← hb, ← hx]
  ext m
  constructor
  · rintro ⟨t', ht', hm⟩
    rw [ht] at ht'
    cases ht'
    exact hm
  · exact fun hm => ⟨t, ht, hm⟩

/-- The table of the five names is complete: it lists every part. -/
theorem mem_writtenRegs_iff_within (r q : Reg) :
    q ∈ writtenRegs r ↔ q = r ∨ (hasSubRegisters r = true ∧ within q r = true) := by
  rw [mem_writtenRegs]
  by_cases hr : hasSubRegisters r = true
  · have hcases : r = .r15d ∨ r = .eax ∨ r = .ebx ∨ r = .ecx ∨ r = .edx := by
      simpa [hasSubRegisters] using hr
    rcases hcases with rfl | rfl | rfl | rfl | rfl
    all_goals
      cases q with
      | other code => exact ⟨fun h => by simp [subRegisters] at h, fun h => by simp [within, Reg.span] at h⟩
      | _ => decide
  · have hnil : subRegisters r = [] := by
      cases r <;> first | rfl | exact absurd rfl hr
    rw [hnil]
    simp [hr]

/-- **The reach of a register write**: for a name other than the stack and
    frame pointer, the name itself and, for the five names of the table, all
    its parts read back the given sets; every other name reads back what it
    did before. -/
theorem setTaintForRegister_reach {s : TaintState ws N} (hs : SizedState s) {r : Reg}
    (hr : isStackReg r = false) {args : List (Bitset ws.bits)}
    (hargs : ∀ b ∈ args, Sized N b) :
    ∃ s', setTaintForRegister r args s = some s' ∧ ∀ (q : Reg) (x : Scratch),
      ((q = r ∨ (hasSubRegisters r = true ∧ within q r = true)) →
          ∀ b ∈ args, marks b ⊆ readBack q x s')
        ∧ (¬ (q = r ∨ (hasSubRegisters r = true ∧ within q r = true)) →
          readBack q x s' = readBack q x s) := by
  obtain ⟨s', t, hset, ha, -, ht⟩ := setTaintForRegister_spec hs r hargs
  have hs' : SizedState s' := ha.sizedState hs
  refine ⟨s', hset, fun q x => ?_⟩
  rw [← mem_writtenRegs_iff_within, readBack_eq hs', readBack_eq hs]
  constructor
  · intro hq b hb m hm
    have hentry : entryAt s' (.reg q) = some t := ha.target (.reg q) ⟨hr, q, hq, rfl⟩
    rw [marksAt, hentry, entryMarks_some, ht]
    exact Or.inl ⟨b, hb, hm⟩
  · intro hq
    have hframe : entryAt s' (.reg q) = entryAt s (.reg q) := by
      refine ha.frame (.reg q) ?_
      rintro ⟨-, p, hp, hpq⟩
      cases hpq
      exact hq hp
    rw [marksAt, marksAt, hframe]

/-- The set of mark 0, out of one mark. -/
def markZero : Bitset WordSize.w64.bits := ⟨[1#64], 1⟩

theorem markZero_sized : ∀ b ∈ [markZero], Sized 1 b := by
  intro b hb
  obtain ⟨u, hu, hsu, -⟩ :=
    setBit_sized WordSize.w64.bits_pos (sized_init 1) (show 0 < 1 from Nat.one_pos)
  cases List.mem_singleton.mp hb
  cases hu
  exact hsu

/-- A write to EAX reads back from AH. -/
theorem setTaintForRegister_reach_eax :
    ∃ s', setTaintForRegister .eax [markZero] (TaintState.init .w64 1) = some s'
      ∧ marks markZero ⊆ readBack .ah .dest s' := by
  have heax : isStackReg .eax = false := rfl
  obtain ⟨s', hset, hreach⟩ :=
    setTaintForRegister_reach (init_sized : SizedState (TaintState.init .w64 1)) heax
      markZero_sized
  exact ⟨s', hset, (hreach .ah .dest).1 (Or.inr ⟨rfl, rfl⟩) _ List.mem_cons_self⟩

/-- ESI has no entry in the table: after a write to ESI with mark 0, SI, which
    is part of it, reads back untainted. -/
theorem setTaintForRegister_esi_si :
    overlaps .esi .si = true ∧ 0 ∈ marks markZero
      ∧ ∃ s' t, setTaintForRegister .esi [markZero] (TaintState.init .w64 1) = some s'
        ∧ taintForRegister .si .dest s' = some t ∧ 0 ∉ marks (t.scratch .dest) :=
  ⟨rfl, ⟨by decide, by decide⟩, _, _, rfl, rfl, fun h => absurd h.2 (by decide)⟩

end DytanRegisterAlias
