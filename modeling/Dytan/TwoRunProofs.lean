import Dytan.ControlScopeProofs

/-! # Two runs of the same calls — monotonicity and mark independence

    The same sequence of calls is run from two states.  Marks move by
    `overwrite` from origins that depend on the call alone, so the two runs
    stay ordered, or agree on a mark, unless a call assigns different places
    in them.  Two kinds of calls look at the keys of a map: the clearing calls
    leave an absent key absent instead of giving it the control taint, and
    `PopControl` stops at the first absent key.

    For both relations the result is exact: every step keeps the relation
    exactly when it meets the condition read off these two places, so a run
    keeps it throughout exactly when each of its steps meets the condition. -/

namespace DytanTwoRun

open DytanBitset DytanRegister DytanTaintState DytanMarkFlow DytanControlScope Overwrite Runs

variable {ws : WordSize} {N : Nat}

/-- Both states of a pair are sized. -/
def SizedPair (p : TaintState ws N × TaintState ws N) : Prop :=
  SizedState p.1 ∧ SizedState p.2

/-! ## Ordered states -/

/-- Every place has in `s` a subset of the marks it has in `s'`. -/
def Below (s s' : TaintState ws N) : Prop := ∀ p, marksAt s p ⊆ marksAt s' p

/-- The places that only one of the runs assigns do not break the order: a
    clearing call meets no key of the lower state alone, unless there is no
    control taint, and `PopControl` erases no mark-holding entry of the upper
    state that it does not reach in the lower one. -/
def KeepsOrder : Call ws → TaintState ws N × TaintState ws N → Prop
  | .clearTaintForRegister r, (s, s') =>
      .reg r ∈ present s → .reg r ∉ present s' → controlMarks s = ∅
  | .clearTaintForMemory start size, (s, s') =>
      ∀ a ∈ addrRange start size,
        .mem a ∈ present s → .mem a ∉ present s' → controlMarks s = ∅
  | .popControl addrs, (s, s') =>
      ∀ a, Reached addrs s'.controlTaintMap a → ¬ Reached addrs s.controlTaintMap a →
        marksAt s (.ctl a) = ∅
  | _, _ => True

/-- The condition of `overwrite_le_iff` for the places of `X` that are keys,
    when control taint is what they are assigned. -/
theorem cleared_le_iff (X : Set (Place ws)) (s s' : TaintState ws N) :
    ((∀ p ∈ X ∩ present s, p ∉ X ∩ present s' → controlMarks s ⊆ marksAt s' p)
        ∧ (∀ p ∈ X ∩ present s', p ∉ X ∩ present s → marksAt s p ⊆ controlMarks s'))
      ↔ ∀ p ∈ X, p ∈ present s → p ∉ present s' → controlMarks s = ∅ := by
  constructor
  · rintro ⟨h, -⟩ p hX hp hp'
    have hsub := h p ⟨hX, hp⟩ fun hx => hp' hx.2
    rw [marksAt_of_absent hp'] at hsub
    exact Set.subset_empty_iff.mp hsub
  · intro h
    constructor
    · rintro p ⟨hX, hp⟩ hn
      rw [h p hX hp fun hp' => hn ⟨hX, hp'⟩]
      exact Set.empty_subset _
    · rintro p ⟨hX, -⟩ hn
      rw [marksAt_of_absent fun hp => hn ⟨hX, hp⟩]
      exact Set.empty_subset _

/-- The condition of `overwrite_le_iff`, call by call. -/
theorem keepsOrder_iff (c : Call ws) (s s' : TaintState ws N) :
    ((∀ p ∈ targets c s, p ∉ targets c s' → gathered (origins c) (marksAt s) ⊆ marksAt s' p)
        ∧ (∀ p ∈ targets c s', p ∉ targets c s →
            marksAt s p ⊆ gathered (origins c) (marksAt s')))
      ↔ KeepsOrder c (s, s') := by
  cases c with
  | clearTaintForRegister r =>
      refine (cleared_le_iff {.reg r} s s').trans ?_
      simp only [Set.mem_singleton_iff, forall_eq, KeepsOrder]
  | clearTaintForMemory start size =>
      refine (cleared_le_iff (rangePlaces start size) s s').trans ?_
      constructor
      · exact fun h a ha => h (.mem a) ⟨a, ha, rfl⟩
      · rintro h p ⟨a, ha, rfl⟩
        exact h a ha
  | popControl addrs =>
      rw [origins, gathered_empty, gathered_empty]
      constructor
      · rintro ⟨-, h⟩ a ha hn
        refine Set.subset_empty_iff.mp (h (.ctl a) ⟨a, (mem_popped_iff _ _ _).mpr ha, rfl⟩ ?_)
        rintro ⟨b, hb, hab⟩
        cases hab
        exact hn ((mem_popped_iff _ _ _).mp hb)
      · intro h
        refine ⟨fun p _ _ => Set.empty_subset _, ?_⟩
        rintro p ⟨a, ha, rfl⟩ hn
        rw [h a ((mem_popped_iff _ _ _).mp ha)
          fun hr => hn ⟨a, (mem_popped_iff _ _ _).mpr hr, rfl⟩]
  | _ =>
      refine ⟨fun _ => trivial, fun _ => ⟨fun p hp hn => absurd hp hn, ?_⟩⟩
      exact fun p hp hn => absurd hp hn

/-- One call on two ordered states: both steps are possible, and the results
    are ordered exactly when the call meets the condition. -/
theorem below_step_iff {s s' : TaintState ws N} (hs : SizedState s) (hs' : SizedState s')
    (c : Call ws) :
    ∃ t t', step c s = some t ∧ step c s' = some t' ∧ SizedState t ∧ SizedState t'
      ∧ (Below s s' → (Below t t' ↔ KeepsOrder c (s, s'))) := by
  obtain ⟨t, ht, hst, hmt⟩ := step_marks hs c
  obtain ⟨t', ht', hst', hmt'⟩ := step_marks hs' c
  refine ⟨t, t', ht, ht', hst, hst', fun hle => ?_⟩
  rw [← keepsOrder_iff, ← overwrite_le_iff hle, ← hmt, ← hmt']
  exact Iff.rfl

/-- **When adding marks never removes a mark**: two ordered states stay ordered
    throughout a sequence of calls exactly when each call meets the condition;
    then the two final states are ordered. -/
theorem below_run_iff {s s' : TaintState ws N} (hs : SizedState s) (hs' : SizedState s')
    (hle : Below s s') (calls : List (Call ws)) :
    (Always (stepBoth step) (fun p => Below p.1 p.2) calls (s, s')
        ↔ EachStep (stepBoth step) KeepsOrder calls (s, s'))
      ∧ (EachStep (stepBoth step) KeepsOrder calls (s, s') →
          ∃ t t', run calls s = some t ∧ run calls s' = some t' ∧ Below t t') := by
  have hiff : Always (stepBoth step) (fun p => Below p.1 p.2) calls (s, s')
      ↔ EachStep (stepBoth step) KeepsOrder calls (s, s') := by
    refine always_iff_eachStep ?_ calls (show SizedPair (s, s') from ⟨hs, hs'⟩) hle
    rintro c ⟨u, u'⟩ ⟨hu, hu'⟩
    obtain ⟨t, t', ht, ht', hst, hst', hstep⟩ := below_step_iff hu hu' c
    exact ⟨(t, t'), stepBoth_eq_some ht ht', ⟨hst, hst'⟩, hstep⟩
  refine ⟨hiff, fun hcond => ?_⟩
  obtain ⟨t, ht, -⟩ := run_sized hs calls
  obtain ⟨t', ht', -⟩ := run_sized hs' calls
  exact ⟨t, t', ht, ht', (hiff.mpr hcond).last (runs_stepBoth ht ht')⟩

/-- Tainting the flags, reading them and setting a register keeps the order. -/
theorem below_run_flags :
    ∃ t t', run [.taintForRegister .rflags .src, .setTaintForRegister .eax [.src],
          .pushControl 10] (TaintState.init .w64 1) = some t
      ∧ run [.taintForRegister .rflags .src, .setTaintForRegister .eax [.src],
          .pushControl 10] (flagsTainted .w64 1) = some t'
      ∧ Below t t' := by
  refine (below_run_iff init_sized (flagsTainted_sized .w64 Nat.one_pos) ?_ _).2 ?_
  · intro p
    by_cases hp : ∃ x, p = .scr x
    · obtain ⟨x, rfl⟩ := hp
      exact subset_rfl
    · rw [marksAt_of_absent]
      · exact Set.empty_subset _
      · rintro ⟨b, hb⟩
        cases p with
        | reg r => exact nomatch hb
        | mem a => simp [entryAt, TaintState.init] at hb
        | ctl a => simp [entryAt, TaintState.init] at hb
        | scr x => exact hp ⟨x, rfl⟩
  · simp [EachStep, KeepsOrder]

/-- Executing a branch only adds marks. -/
theorem below_pushControl {s s' : TaintState ws N} (hs : SizedState s) {a : Addr ws}
    (h : step (.pushControl a) s = some s') : Below s s' := by
  obtain ⟨t, ht, -, hmt⟩ := step_marks hs (.pushControl a)
  rw [h] at ht
  cases ht
  intro p m hm
  rw [hmt]
  by_cases hp : p ∈ targets (.pushControl a) s
  · rw [overwrite_of_mem hp]
    cases hp
    exact ⟨.ctl a, Or.inl rfl, hm⟩
  · rw [overwrite_of_notMem hp]
    exact hm

/-- The branches at 10 and 20 share a post-dominator.  Below: only the branch
    at 20 was tainted; above: both were.  The pop erases the entry of 20 above
    and keeps it below. -/
theorem popControl_breaks_order :
    ∃ s s' t t', run [.pushControl 20] (flagsTainted .w64 1) = some s
      ∧ run [.pushControl 10, .pushControl 20] (flagsTainted .w64 1) = some s'
      ∧ Below s s'
      ∧ run [.popControl [10, 20]] s = some t ∧ run [.popControl [10, 20]] s' = some t'
      ∧ ¬ Below t t' := by
  have hbelow : ∀ s s', run [.pushControl 20] (flagsTainted .w64 1) = some s →
      run [.pushControl 10, .pushControl 20] (flagsTainted .w64 1) = some s' →
        Below s s' := by
    intro s s' h h'
    have hs : SizedState (flagsTainted .w64 1) := flagsTainted_sized .w64 Nat.one_pos
    obtain ⟨u, hu, hsu, -⟩ := step_marks hs (.pushControl 10)
    obtain ⟨t, t', ht, ht', -, -, hiff⟩ := below_step_iff hs hsu (.pushControl 20)
    have hle := (hiff (below_pushControl hs hu)).mpr trivial
    rw [run_cons, ht] at h
    rw [run_cons, hu, Option.bind_some, run_cons, ht'] at h'
    cases h
    cases h'
    exact hle
  refine ⟨_, _, _, _, rfl, rfl, hbelow _ _ rfl rfl, rfl, rfl, fun h => ?_⟩
  obtain ⟨b, hb, -⟩ := h (.ctl 20)
    (show 0 ∈ marksAt _ (.ctl 20) from ⟨⟨[1], 1⟩, by decide, by decide, by decide⟩)
  cases (show none = some b from hb)

/-! ## States that agree on a mark -/

/-- The entry with only the mark `m`; no entry when `m` is not in it. -/
def keepMark (N m : Nat) {w : Nat} (b : Bitset w) : Option (Bitset w) :=
  if holdsBit b m then bitsetSetBit (bitsetInit w N) m else none

/-- The state with every mark but `m` deleted, and every key whose set becomes
    empty. -/
def keepMarkState (m : Nat) (s : TaintState ws N) : TaintState ws N :=
  { s with
    regTaintMap := fun r => (s.regTaintMap r).bind (keepMark N m)
    memTaintMap := s.memTaintMap.filterMap fun _ b => keepMark N m b
    controlTaintMap := s.controlTaintMap.filterMap fun _ b => keepMark N m b
    scratch := fun x => (keepMark N m (s.scratch x)).getD (bitsetInit ws.bits N) }

/-- The same places hold `m`. -/
def Agree (m : Nat) (s t : TaintState ws N) : Prop :=
  ∀ p, m ∈ marksAt s p ↔ m ∈ marksAt t p

/-- The places that only one of the runs assigns do not tell `m` apart: a
    clearing call that meets a key in one state only adds no `m`, and an entry
    that `PopControl` reaches in one state only does not hold it. -/
def KeepsMark (m : Nat) : Call ws → TaintState ws N × TaintState ws N → Prop
  | .clearTaintForRegister r, (s, t) =>
      ¬ (.reg r ∈ present s ↔ .reg r ∈ present t) → m ∉ controlMarks s
  | .clearTaintForMemory start size, (s, t) =>
      ∀ a ∈ addrRange start size,
        ¬ (.mem a ∈ present s ↔ .mem a ∈ present t) → m ∉ controlMarks s
  | .popControl addrs, (s, t) =>
      ∀ a, ¬ (Reached addrs s.controlTaintMap a ↔ Reached addrs t.controlTaintMap a) →
        m ∉ marksAt s (.ctl a)
  | _, _ => True

/-- Where agreeing states differ in presence, neither holds the mark. -/
theorem Agree.notMem {m : Nat} {s t : TaintState ws N} (h : Agree m s t) {p : Place ws}
    (hp : ¬ (p ∈ present s ↔ p ∈ present t)) : m ∉ marksAt s p := by
  intro hm
  exact hp ⟨fun _ => present_of_mem ((h p).mp hm), fun _ => present_of_mem hm⟩

/-- The condition of `overwrite_same_iff` for cleared places. -/
theorem cleared_same_iff {m : Nat} {s t : TaintState ws N} (h : Agree m s t)
    (X : Set (Place ws)) :
    (∀ p, ¬ (p ∈ X ∩ present s ↔ p ∈ X ∩ present t) →
        (m ∈ marksAt s p ↔ m ∈ controlMarks s))
      ↔ ∀ p ∈ X, ¬ (p ∈ present s ↔ p ∈ present t) → m ∉ controlMarks s := by
  constructor
  · intro hcond p hX hp hm
    refine h.notMem hp ((hcond p ?_).mpr hm)
    exact fun hiff => hp ⟨fun hs => (hiff.mp ⟨hX, hs⟩).2, fun ht => (hiff.mpr ⟨hX, ht⟩).2⟩
  · intro hcond p hp
    have hX : p ∈ X := by
      by_contra hX
      exact hp ⟨fun hs => absurd hs.1 hX, fun ht => absurd ht.1 hX⟩
    have hpres : ¬ (p ∈ present s ↔ p ∈ present t) :=
      fun hiff => hp ⟨fun hs => ⟨hX, hiff.mp hs.2⟩, fun ht => ⟨hX, hiff.mpr ht.2⟩⟩
    exact ⟨fun hm => absurd hm (h.notMem hpres), fun hm => absurd hm (hcond p hX hpres)⟩

/-- The condition of `overwrite_same_iff`, call by call. -/
theorem keepsMark_iff {m : Nat} {s t : TaintState ws N} (h : Agree m s t) (c : Call ws) :
    (∀ p, ¬ (p ∈ targets c s ↔ p ∈ targets c t) →
        (m ∈ marksAt s p ↔ m ∈ gathered (origins c) (marksAt s)))
      ↔ KeepsMark m c (s, t) := by
  cases c with
  | clearTaintForRegister r =>
      refine (cleared_same_iff h {.reg r}).trans ?_
      simp only [Set.mem_singleton_iff, forall_eq, KeepsMark]
  | clearTaintForMemory start size =>
      refine (cleared_same_iff h (rangePlaces start size)).trans ?_
      constructor
      · exact fun hc a ha => hc (.mem a) ⟨a, ha, rfl⟩
      · rintro hc p ⟨a, ha, rfl⟩
        exact hc a ha
  | popControl addrs =>
      have htarget : ∀ (u : TaintState ws N) (a : Addr ws),
          Place.ctl a ∈ targets (.popControl addrs) u
            ↔ Reached addrs u.controlTaintMap a := by
        intro u a
        rw [← mem_popped_iff]
        constructor
        · rintro ⟨b, hb, hab⟩
          cases hab
          exact hb
        · exact fun ha => ⟨a, ha, rfl⟩
      rw [origins, gathered_empty]
      constructor
      · intro hc a ha hm
        refine (hc (.ctl a) ?_).mp hm
        rw [htarget, htarget]
        exact ha
      · intro hc p hp
        refine ⟨fun hm => ?_, fun hm => absurd hm (Set.notMem_empty m)⟩
        cases p with
        | ctl a =>
            rw [htarget, htarget] at hp
            exact absurd hm (hc a hp)
        | _ =>
            refine absurd ⟨?_, ?_⟩ hp
            · rintro ⟨b, -, hb⟩
              cases hb
            · rintro ⟨b, -, hb⟩
              cases hb
  | _ => exact ⟨fun _ => trivial, fun _ p hp => absurd Iff.rfl hp⟩

/-- One call on two states that agree on `m`: the results agree exactly when
    the call meets the condition. -/
theorem agree_step_iff {s t : TaintState ws N} (hs : SizedState s) (ht : SizedState t)
    (m : Nat) (c : Call ws) :
    ∃ s' t', step c s = some s' ∧ step c t = some t' ∧ SizedState s' ∧ SizedState t'
      ∧ (Agree m s t → (Agree m s' t' ↔ KeepsMark m c (s, t))) := by
  obtain ⟨s', hs', hss, hms⟩ := step_marks hs c
  obtain ⟨t', ht', hst, hmt⟩ := step_marks ht c
  refine ⟨s', t', hs', ht', hss, hst, fun h => ?_⟩
  rw [← keepsMark_iff h, ← overwrite_same_iff h, ← hms, ← hmt]
  exact Iff.rfl

/-- What is kept of a sized entry: exactly the mark `m`, if it was there. -/
theorem keepMark_spec {w m : Nat} (hw : 0 < w) {b : Bitset w} (hb : Sized N b) :
    (∀ u, keepMark N m b = some u → Sized N u)
      ∧ (m ∈ entryMarks (keepMark N m b) ↔ m ∈ marks b) := by
  rw [keepMark]
  by_cases hm : holdsBit b m = true
  · have hmem : m ∈ marks b := (hb.mem_marks m).mpr hm
    obtain ⟨u, hu, hsu, hmu⟩ := setBit_sized hw (sized_init N) (hb.marks_lt hmem)
    rw [if_pos hm, hu]
    refine ⟨?_, ?_⟩
    · rintro v hv
      cases hv
      exact hsu
    · rw [entryMarks_some, hmu]
      exact ⟨fun _ => hmem, fun _ => Set.mem_insert m _⟩
  · rw [if_neg hm]
    refine ⟨fun u hu => (nomatch hu), ?_⟩
    rw [entryMarks_none, hb.mem_marks]
    exact ⟨fun h => (nomatch h), fun h => absurd h hm⟩

/-- Keeping only `m` keeps the state sized and the places of `m`. -/
theorem keepMarkState_spec {s : TaintState ws N} (hs : SizedState s) (m : Nat) :
    SizedState (keepMarkState m s) ∧ Agree m s (keepMarkState m s) := by
  have hkeep : ∀ (p : Place ws) (e : Option (Bitset ws.bits)), entryAt s p = e →
      (∀ u, e.bind (keepMark N m) = some u → Sized N u)
        ∧ (m ∈ entryMarks (e.bind (keepMark N m)) ↔ m ∈ entryMarks e) := by
    intro p e he
    cases e with
    | none => exact ⟨fun u hu => (nomatch hu), Iff.rfl⟩
    | some b =>
        rw [Option.bind_some, entryMarks_some]
        exact keepMark_spec ws.bits_pos (hs.entries p b he)
  have hscr : ∀ x, Sized N ((keepMarkState m s).scratch x)
      ∧ (m ∈ marks ((keepMarkState m s).scratch x) ↔ m ∈ marks (s.scratch x)) := by
    intro x
    obtain ⟨hsz, hmk⟩ := keepMark_spec (m := m) ws.bits_pos (hs.entries (.scr x) _ rfl)
    show Sized N ((keepMark N m (s.scratch x)).getD (bitsetInit ws.bits N))
      ∧ (m ∈ marks ((keepMark N m (s.scratch x)).getD (bitsetInit ws.bits N)) ↔ _)
    rw [← hmk]
    cases h : keepMark N m (s.scratch x) with
    | none =>
        rw [Option.getD_none, marks_init, entryMarks_none]
        exact ⟨sized_init N, Iff.rfl⟩
    | some u =>
        rw [Option.getD_some, entryMarks_some]
        exact ⟨hsz u h, Iff.rfl⟩
  have hentry : ∀ p, (∃ x, p = .scr x) ∨
      entryAt (keepMarkState m s) p = (entryAt s p).bind (keepMark N m) := by
    intro p
    cases p with
    | reg r => exact Or.inr rfl
    | mem a => exact Or.inr Std.ExtTreeMap.getElem?_filterMap'
    | ctl a => exact Or.inr Std.ExtTreeMap.getElem?_filterMap'
    | scr x => exact Or.inl ⟨x, rfl⟩
  refine ⟨⟨?_, hs.tags⟩, ?_⟩
  · intro p b hb
    rcases hentry p with ⟨x, rfl⟩ | he
    · cases hb
      exact (hscr x).1
    · rw [he] at hb
      exact (hkeep p _ rfl).1 b hb
  · intro p
    rcases hentry p with ⟨x, rfl⟩ | he
    · rw [marksAt, marksAt, entryAt, entryAt, entryMarks_some, entryMarks_some]
      exact (hscr x).2.symm
    · rw [marksAt, marksAt, he]
      exact (hkeep p _ rfl).2.symm

/-- **When other marks never matter**: the run from the state that holds only
    the mark `m` agrees on `m` throughout exactly when each call meets the
    condition; then the final states hold `m` at the same places. -/
theorem agree_run_iff {s : TaintState ws N} (hs : SizedState s) (m : Nat)
    (calls : List (Call ws)) :
    (Always (stepBoth step) (fun p => Agree m p.1 p.2) calls (s, keepMarkState m s)
        ↔ EachStep (stepBoth step) (KeepsMark m) calls (s, keepMarkState m s))
      ∧ (EachStep (stepBoth step) (KeepsMark m) calls (s, keepMarkState m s) →
          ∃ s' t', run calls s = some s' ∧ run calls (keepMarkState m s) = some t'
            ∧ Agree m s' t') := by
  obtain ⟨ht, hagree⟩ := keepMarkState_spec hs m
  have hiff : Always (stepBoth step) (fun p => Agree m p.1 p.2) calls (s, keepMarkState m s)
      ↔ EachStep (stepBoth step) (KeepsMark m) calls (s, keepMarkState m s) := by
    refine always_iff_eachStep ?_ calls
      (show SizedPair (s, keepMarkState m s) from ⟨hs, ht⟩) hagree
    rintro c ⟨u, v⟩ ⟨hu, hv⟩
    obtain ⟨u', v', hu', hv', hsu, hsv, hstep⟩ := agree_step_iff hu hv m c
    exact ⟨(u', v'), stepBoth_eq_some hu' hv', ⟨hsu, hsv⟩, hstep⟩
  refine ⟨hiff, fun hcond => ?_⟩
  obtain ⟨s', hs', -⟩ := run_sized hs calls
  obtain ⟨t', ht', -⟩ := run_sized ht calls
  exact ⟨s', t', hs', ht', (hiff.mpr hcond).last (runs_stepBoth hs' ht')⟩

/-- The flags carry mark 0, and EBX mark 1. -/
def flagsAndEbx : TaintState .w64 2 :=
  { flagsTainted .w64 2 with
    regTaintMap := Function.update (flagsTainted .w64 2).regTaintMap .ebx
      (bitsetSetBit (bitsetInit WordSize.w64.bits 2) 1) }

theorem flagsAndEbx_sized : SizedState flagsAndEbx where
  entries := by
    intro p b hb
    have hs : SizedState (flagsTainted .w64 2) := flagsTainted_sized .w64 Nat.two_pos
    cases p with
    | reg r =>
        by_cases hr : r = .ebx
        · obtain ⟨u, hu, hsu, -⟩ :=
            setBit_sized WordSize.w64.bits_pos (sized_init 2) (show 1 < 2 from Nat.one_lt_two)
          subst hr
          cases hu.symm.trans hb
          exact hsu
        · exact hs.entries (.reg r) b ((Function.update_of_ne hr _ _).symm.trans hb)
    | mem a => exact hs.entries (.mem a) b hb
    | ctl a => exact hs.entries (.ctl a) b hb
    | scr x => exact hs.entries (.scr x) b hb
  tags := (flagsTainted_sized .w64 Nat.two_pos).tags

/-- The mark of the flags flows as it would alone, though EAX gets both. -/
theorem agree_run_flags :
    ∃ s' t', run [.taintForRegister .rflags .src, .taintForRegister .ebx .dest,
          .setTaintForRegister .eax [.src, .dest], .pushControl 10] flagsAndEbx = some s'
      ∧ run [.taintForRegister .rflags .src, .taintForRegister .ebx .dest,
          .setTaintForRegister .eax [.src, .dest], .pushControl 10]
          (keepMarkState 0 flagsAndEbx) = some t'
      ∧ Agree 0 s' t' :=
  (agree_run_iff flagsAndEbx_sized 0 _).2 (by simp [EachStep, KeepsMark])

/-- Two open branches: mark 1 was pushed at 10, mark 0 at 20. -/
def twoBranches : TaintState .w64 2 :=
  { TaintState.init .w64 2 with
    controlTaintMap := (TaintState.init .w64 2).controlTaintMap
      |>.insert (10#64) (⟨[2#64], 2⟩ : Bitset WordSize.w64.bits)
      |>.insert (20#64) (⟨[1#64], 2⟩ : Bitset WordSize.w64.bits) }

/-- Without mark 1 there is no entry at 10, the pop stops there, and mark 0
    stays at 20. -/
theorem popControl_tells_marks_apart :
    ∃ s' t', run [.popControl [10, 20]] twoBranches = some s'
      ∧ run [.popControl [10, 20]] (keepMarkState 0 twoBranches) = some t'
      ∧ ¬ Agree 0 s' t' := by
  refine ⟨_, _, rfl, rfl, fun h => ?_⟩
  have hgone : entryAt (popControl [10, 20] twoBranches) (.ctl 20) = none := by
    decide
  obtain ⟨b, hb, -⟩ := (h (.ctl 20)).mpr ⟨⟨[1], 2⟩, by decide +kernel, by decide, by decide⟩
  cases hgone.symm.trans hb

end DytanTwoRun
