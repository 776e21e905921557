import Dytan.HandlerProofs

/-! # Stale scratch sets — a handler's calls do not depend on old contents

    The scratch sets are global and keep the residue of earlier instructions.
    A handler is independent of it when each scratch set it passes to an
    assigning call has been loaded by an earlier call of the same handler:
    a definite-assignment check on the inserted calls, `loadStep`.

    Every branch of every handler passes the check, except the memory branch
    of SETcc, which assigns `base`; there the result shows what `base` held. -/

namespace DytanStaleScratch

open DytanBitset DytanRegister DytanTaintState DytanMarkFlow DytanInstruction DytanHandler
open Emission Overwrite

variable {ws : WordSize} {N : Nat}

/-- The same entries at every register, address and control key, and in the
    scratch sets of `L`. -/
def SameAt (L : List Scratch) (s t : TaintState ws N) : Prop :=
  ∀ p, (∀ x, p = .scr x → x ∈ L) → entryAt s p = entryAt t p

/-- The same maps. -/
def SameMaps (s t : TaintState ws N) : Prop :=
  s.regTaintMap = t.regTaintMap ∧ s.memTaintMap = t.memTaintMap
    ∧ s.controlTaintMap = t.controlTaintMap

theorem sameAt_nil_iff {s t : TaintState ws N} : SameAt [] s t ↔ SameMaps s t := by
  constructor
  · intro h
    refine ⟨funext fun r => h (.reg r) fun _ hx => (nomatch hx), ?_, ?_⟩
    · exact Std.ExtTreeMap.ext_getElem? fun a => h (.mem a) fun _ hx => (nomatch hx)
    · exact Std.ExtTreeMap.ext_getElem? fun a => h (.ctl a) fun _ hx => (nomatch hx)
  · rintro ⟨hr, hm, hc⟩ p hp
    cases p with
    | reg r => exact congrFun hr r
    | mem a => exact congrArg (·[a]?) hm
    | ctl a => exact congrArg (·[a]?) hc
    | scr x => exact absurd (hp x rfl) List.not_mem_nil

theorem SameAt.mono {L L' : List Scratch} {s t : TaintState ws N} (h : SameAt L s t)
    (hL : ∀ x ∈ L', x ∈ L) : SameAt L' s t :=
  fun p hp => h p fun x hx => hL x (hp x hx)

theorem SameAt.sameMaps {L : List Scratch} {s t : TaintState ws N} (h : SameAt L s t) :
    SameMaps s t :=
  sameAt_nil_iff.mp (h.mono fun _ hx => absurd hx List.not_mem_nil)

/-- Two steps that assign one entry to the same places keep the agreement, and
    extend it to the scratch sets assigned. -/
theorem SameAt.assigns {L L' : List Scratch} {D : Set (Place ws)}
    {e : Option (Bitset ws.bits)} {s s' t t' : TaintState ws N} (h : SameAt L s t)
    (hs : Assigns D e s s') (ht : Assigns D e t t')
    (hL : ∀ x ∈ L', x ∈ L ∨ Place.scr x ∈ D) : SameAt L' s' t' := by
  intro p hp
  by_cases hD : p ∈ D
  · rw [hs.target p hD, ht.target p hD]
  · rw [hs.frame p hD, ht.frame p hD]
    refine h p fun x hx => ?_
    rcases hL x (hp x hx) with hx' | hx'
    · exact hx'
    · rw [← hx] at hx'
      exact absurd hx' hD

theorem controlTaint_congr {s t : TaintState ws N} (h : SameMaps s t) :
    controlTaint s = controlTaint t := by
  rw [controlTaint, controlTaint, h.2.2]

theorem assignedTaint_congr {L : List Scratch} {s t : TaintState ws N} (h : SameAt L s t)
    {sets : List Scratch} (hsets : ∀ x ∈ sets, x ∈ L) :
    assignedTaint (sets.map s.scratch) s = assignedTaint (sets.map t.scratch) t := by
  have hargs : sets.map s.scratch = sets.map t.scratch := by
    refine List.map_congr_left fun x hx => ?_
    refine Option.some.inj (h (.scr x) ?_)
    rintro y hy
    cases hy
    exact hsets x hx
  rw [assignedTaint, assignedTaint, hargs, controlTaint_congr h.sameMaps]

theorem joinByte_congr {s t : TaintState ws N} (h : SameMaps s t) :
    joinByte s = joinByte t := by
  funext acc a
  rw [joinByte, joinByte, h.2.1]

/-- The keys are the same. -/
theorem present_congr {L : List Scratch} {s t : TaintState ws N} (h : SameAt L s t)
    {X : Set (Place ws)} (hX : ∀ x, Place.scr x ∉ X) : X ∩ present s = X ∩ present t := by
  ext p
  constructor
  · rintro ⟨hp, b, hb⟩
    refine ⟨hp, b, ?_⟩
    rw [← h p fun x hx => absurd (hx ▸ hp) (hX x)]
    exact hb
  · rintro ⟨hp, b, hb⟩
    refine ⟨hp, b, ?_⟩
    rw [h p fun x hx => absurd (hx ▸ hp) (hX x)]
    exact hb

/-! ## One inserted call -/

/-- The scratch sets an inserted call passes. -/
def reads : Analysis → List Scratch
  | .setTaintForRegister _ sets => sets
  | .setTaintForMemory sets => sets
  | _ => []

/-- The scratch set an inserted call fills. -/
def loads : Analysis → List Scratch
  | .clearTaintSet set => [set]
  | .taintForRegister _ set => [set]
  | .taintForMemory _ set => [set]
  | _ => []

theorem scr_mem_of_loads {L : List Scratch} {x y : Scratch} (hy : y ∈ [x] ++ L) :
    y ∈ L ∨ Place.scr y ∈ ({.scr x} : Set (Place ws)) := by
  rcases List.mem_append.mp hy with hy | hy
  · rw [List.mem_singleton.mp hy]
    exact Or.inr rfl
  · exact Or.inl hy

/-- A call that passes only scratch sets of `L` does the same on states that
    agree up to them. -/
theorem step_sameAt {L : List Scratch} {s t : TaintState ws N} (hs : SizedState s)
    (ht : SizedState t) (h : SameAt L s t) (ctx : Ctx ws) (c : Analysis)
    (hr : ∀ x ∈ reads c, x ∈ L) :
    ∃ s' t', step (ctx.resolve c) s = some s' ∧ step (ctx.resolve c) t = some t'
      ∧ SizedState s' ∧ SizedState t' ∧ SameAt (loads c ++ L) s' t' := by
  -- both operand addresses load alike
  have hload : ∀ (start size : Addr ws) (x : Scratch), ∃ s' t',
      step (.taintForMemory start size x) s = some s'
        ∧ step (.taintForMemory start size x) t = some t'
        ∧ SizedState s' ∧ SizedState t' ∧ SameAt ([x] ++ L) s' t' := by
    intro start size x
    obtain ⟨s', b, hstep, ha, hb, -⟩ := taintForMemory_spec hs start size x
    obtain ⟨t', b', hstep', ha', hb', -⟩ := taintForMemory_spec ht start size x
    rw [joinByte_congr h.sameMaps, hb'] at hb
    cases hb
    exact ⟨s', t', hstep, hstep', ha.sizedState hs, ha'.sizedState ht,
      h.assigns ha ha' fun _ => scr_mem_of_loads⟩
  cases c with
  | clearTaintSet x =>
      exact ⟨_, _, rfl, rfl, (clearTaintSet_spec hs x).sizedState hs,
        (clearTaintSet_spec ht x).sizedState ht,
        h.assigns (clearTaintSet_spec hs x) (clearTaintSet_spec ht x)
          fun _ => scr_mem_of_loads⟩
  | taintForRegister r x =>
      obtain ⟨s', b, hstep, ha, hb, -⟩ := taintForRegister_spec hs r x
      obtain ⟨t', b', hstep', ha', hb', -⟩ := taintForRegister_spec ht r x
      rw [h.sameMaps.1, ← hb'] at hb
      subst hb
      exact ⟨s', t', hstep, hstep', ha.sizedState hs, ha'.sizedState ht,
        h.assigns ha ha' fun _ => scr_mem_of_loads⟩
  | taintForMemory ea x =>
      cases ea with
      | read => exact hload _ _ x
      | read2 => exact hload _ _ x
  | setTaintForRegister dest sets =>
      obtain ⟨s', b, hstep, ha, hb, -⟩ := setTaintForRegister_spec hs dest (sized_args hs sets)
      obtain ⟨t', b', hstep', ha', hb', -⟩ :=
        setTaintForRegister_spec ht dest (sized_args ht sets)
      rw [assignedTaint_congr h (show ∀ x ∈ sets, x ∈ L from hr), hb'] at hb
      cases hb
      exact ⟨s', t', hstep, hstep', ha.sizedState hs, ha'.sizedState ht,
        h.assigns ha ha' fun _ => Or.inl⟩
  | setTaintForMemory sets =>
      obtain ⟨s', b, hstep, ha, hb, -⟩ := setTaintForMemory_spec hs ctx.memoryWriteEA
        ctx.memoryWriteSize (sized_args hs sets)
      obtain ⟨t', b', hstep', ha', hb', -⟩ := setTaintForMemory_spec ht ctx.memoryWriteEA
        ctx.memoryWriteSize (sized_args ht sets)
      rw [assignedTaint_congr h (show ∀ x ∈ sets, x ∈ L from hr), hb'] at hb
      cases hb
      exact ⟨s', t', hstep, hstep', ha.sizedState hs, ha'.sizedState ht,
        h.assigns ha ha' fun _ => Or.inl⟩
  | clearTaintForRegister r =>
      -- the keys are the same, so the same places are cleared
      obtain ⟨s', b, hstep, ha, hb, -⟩ := clearTaintForRegister_spec hs r
      obtain ⟨t', b', hstep', ha', hb', -⟩ := clearTaintForRegister_spec ht r
      rw [controlTaint_congr h.sameMaps, hb'] at hb
      cases hb
      have hreg : ∀ x, Place.scr x ∉ ({.reg r} : Set (Place ws)) :=
        fun x hx => nomatch (show Place.scr x = .reg r from hx)
      rw [present_congr h hreg] at ha
      exact ⟨s', t', hstep, hstep', ha.sizedState hs, ha'.sizedState ht,
        h.assigns ha ha' fun _ => Or.inl⟩
  | clearTaintForMemory =>
      obtain ⟨s', b, hstep, ha, hb, -⟩ :=
        clearTaintForMemory_spec hs ctx.memoryWriteEA ctx.memoryWriteSize
      obtain ⟨t', b', hstep', ha', hb', -⟩ :=
        clearTaintForMemory_spec ht ctx.memoryWriteEA ctx.memoryWriteSize
      rw [controlTaint_congr h.sameMaps, hb'] at hb
      cases hb
      have hmem : ∀ x, Place.scr x ∉ rangePlaces ctx.memoryWriteEA ctx.memoryWriteSize := by
        rintro x ⟨a, -, hx⟩
        exact nomatch hx
      rw [present_congr h hmem] at ha
      exact ⟨s', t', hstep, hstep', ha.sizedState hs, ha'.sizedState ht,
        h.assigns ha ha' fun _ => Or.inl⟩

/-- Feed one inserted call to the check: what it passes must be loaded, and
    what it loads is loaded from then on, unless it runs under a condition. -/
def loadStep (L : List Scratch) (i : Inserted) : Option (List Scratch) :=
  if ∀ x ∈ reads i.call, x ∈ L then
    some (if i.check = none then loads i.call ++ L else L)
  else none

/-- Calls that pass the check do the same on states that agree up to what was
    loaded before. -/
theorem run_sameAt {L L' : List Scratch} (ctx : Ctx ws) {inserted : List Inserted}
    (hcheck : inserted.foldlM loadStep L = some L') {s t : TaintState ws N}
    (hs : SizedState s) (ht : SizedState t) (h : SameAt L s t) :
    ∃ s' t', run (callsAt ctx inserted) s = some s' ∧ run (callsAt ctx inserted) t = some t'
      ∧ SameMaps s' t' := by
  induction inserted generalizing L s t with
  | nil => exact ⟨s, t, rfl, rfl, h.sameMaps⟩
  | cons i rest ih =>
      rw [List.foldlM_cons] at hcheck
      by_cases hr : ∀ x ∈ reads i.call, x ∈ L
      · rw [loadStep, if_pos hr] at hcheck
        by_cases hfires : ctx.fires i = true
        · obtain ⟨s₁, t₁, hs₁, ht₁, hss, hst, hsame⟩ := step_sameAt hs ht h ctx i.call hr
          have hsame' : SameAt (if i.check = none then loads i.call ++ L else L) s₁ t₁ := by
            by_cases hc : i.check = none
            · rw [if_pos hc]
              exact hsame
            · -- a conditional call counts as loading nothing
              rw [if_neg hc]
              exact hsame.mono fun x hx => List.mem_append_right _ hx
          obtain ⟨s', t', hs', ht', hmaps⟩ := ih hcheck hss hst hsame'
          have hcalls : callsAt ctx (i :: rest) = ctx.resolve i.call :: callsAt ctx rest := by
            simp [callsAt, hfires]
          rw [hcalls, run_cons, run_cons, hs₁, ht₁]
          exact ⟨s', t', hs', ht', hmaps⟩
        · -- a call that does not run is a conditional one and loads nothing
          have hc : i.check ≠ none := by
            intro hc
            exact hfires (by simp [Ctx.fires, hc])
          rw [if_neg hc] at hcheck
          have hcalls : callsAt ctx (i :: rest) = callsAt ctx rest := by
            simp [callsAt, hfires]
          rw [hcalls]
          exact ih hcheck hs ht h
      · rw [loadStep, if_neg hr] at hcheck
        cases hcheck

/-! ## The handlers pass the check -/

/-- The scratch sets of `xs` are loaded. -/
def Loaded (xs L : List Scratch) : Prop := ∀ x ∈ xs, x ∈ L

theorem tracked_insertCall {xs : List Scratch} {c : Analysis} (hr : ∀ x ∈ reads c, x ∈ xs) :
    Tracked loadStep (Loaded xs) (insertCall c) (Loaded (loads c ++ xs)) := by
  refine Tracked.emit fun L hL => ⟨loads c ++ L, ?_, ?_⟩
  · rw [loadStep, if_pos fun x hx => hL x (hr x hx), if_pos rfl]
  · intro x hx
    rcases List.mem_append.mp hx with hx | hx
    · exact List.mem_append_left _ hx
    · exact List.mem_append_right _ (hL x hx)

theorem tracked_loadRegister {xs : List Scratch} (r : Reg) (x : Scratch) :
    Tracked loadStep (Loaded xs) (insertCall (.taintForRegister r x)) (Loaded (x :: xs)) :=
  tracked_insertCall fun _ h => nomatch h

theorem tracked_loadMemory {xs : List Scratch} (ea : ReadEA) (x : Scratch) :
    Tracked loadStep (Loaded xs) (insertCall (.taintForMemory ea x)) (Loaded (x :: xs)) :=
  tracked_insertCall fun _ h => nomatch h

theorem tracked_clearSet {xs : List Scratch} (x : Scratch) :
    Tracked loadStep (Loaded xs) (insertCall (.clearTaintSet x)) (Loaded (x :: xs)) :=
  tracked_insertCall fun _ h => nomatch h

theorem tracked_setRegister {xs : List Scratch} (r : Reg) {sets : List Scratch}
    (hsets : ∀ x ∈ sets, x ∈ xs) :
    Tracked loadStep (Loaded xs) (insertCall (.setTaintForRegister r sets)) (Loaded xs) :=
  tracked_insertCall hsets

theorem tracked_setMemory {xs : List Scratch} {sets : List Scratch}
    (hsets : ∀ x ∈ sets, x ∈ xs) :
    Tracked loadStep (Loaded xs) (insertCall (.setTaintForMemory sets)) (Loaded xs) :=
  tracked_insertCall hsets

theorem tracked_clearRegister {xs : List Scratch} (r : Reg) :
    Tracked loadStep (Loaded xs) (insertCall (.clearTaintForRegister r)) (Loaded xs) :=
  tracked_insertCall fun _ h => nomatch h

theorem tracked_clearMemory {xs : List Scratch} :
    Tracked loadStep (Loaded xs) (insertCall .clearTaintForMemory) (Loaded xs) :=
  tracked_insertCall fun _ h => nomatch h

/-- A conditional call loads nothing for what follows. -/
theorem tracked_insertIfThenCall {xs : List Scratch} {check : Check} {c : Analysis}
    (hr : ∀ x ∈ reads c, x ∈ xs) :
    Tracked loadStep (Loaded xs) (insertIfThenCall check c) (Loaded xs) := by
  refine Tracked.emit fun L hL => ⟨L, ?_, hL⟩
  rw [loadStep, if_pos fun x hx => hL x (hr x hx)]
  rfl

theorem tracked_ifSetRegister {xs : List Scratch} (check : Check) (r : Reg)
    {sets : List Scratch} (hsets : ∀ x ∈ sets, x ∈ xs) :
    Tracked loadStep (Loaded xs) (insertIfThenCall check (.setTaintForRegister r sets))
      (Loaded xs) :=
  tracked_insertIfThenCall hsets

theorem tracked_ifSetMemory {xs : List Scratch} (check : Check) {sets : List Scratch}
    (hsets : ∀ x ∈ sets, x ∈ xs) :
    Tracked loadStep (Loaded xs) (insertIfThenCall check (.setTaintForMemory sets))
      (Loaded xs) :=
  tracked_insertIfThenCall hsets

theorem tracked_requireMemoryRead {P : List Scratch → Prop} (ins : Ins) :
    Tracked loadStep P (requireMemoryRead ins) P := by
  rw [requireMemoryRead]
  split
  · exact Tracked.pure
  · exact Tracked.leave

theorem tracked_requireMemoryWrite {P : List Scratch → Prop} (ins : Ins) :
    Tracked loadStep P (requireMemoryWrite ins) P := by
  rw [requireMemoryWrite]
  split
  · exact Tracked.pure
  · exact Tracked.leave

theorem tracked_taintForOperand {xs : List Scratch} (ins : Ins) (n : Nat) (set : Scratch)
    (memory immediate : Bool) :
    Tracked loadStep (Loaded xs) (taintForOperand ins n set memory immediate)
      (Loaded (set :: xs)) := by
  rw [taintForOperand]
  split
  · exact tracked_loadRegister _ set
  · split
    · exact (tracked_requireMemoryRead ins).bind fun _ => tracked_loadMemory _ set
    · split
      · exact tracked_clearSet set
      · exact Tracked.abort

theorem tracked_setTaintForOperand {xs : List Scratch} (ins : Ins) (n : Nat)
    {sets : List Scratch} (hsets : ∀ x ∈ sets, x ∈ xs) :
    Tracked loadStep (Loaded xs) (setTaintForOperand ins n sets) (Loaded xs) := by
  rw [setTaintForOperand]
  split
  · exact tracked_setRegister _ hsets
  · split
    · exact (tracked_requireMemoryWrite ins).bind fun _ => tracked_setMemory hsets
    · exact Tracked.abort

theorem tracked_setTaintForFlags {xs : List Scratch} {sets : List Scratch}
    (hsets : ∀ x ∈ sets, x ∈ xs) :
    Tracked loadStep (Loaded xs) (setTaintForFlags ws sets) (Loaded xs) :=
  tracked_setRegister _ hsets

/-- A handler passes the check, whatever was loaded before it. -/
def Checked (h : Handler) : Prop := Tracked loadStep (Loaded []) h fun _ => True

theorem Checked.of_tracked {h : Handler} {Q : List Scratch → Prop}
    (ht : Tracked loadStep (Loaded []) h Q) : Checked h := ht.weaken fun _ _ => trivial

theorem Checked.empty : Checked (pure ()) := .of_tracked Tracked.pure

theorem Checked.abort : Checked abort := Tracked.abort

theorem checked_ADD (ins : Ins) : Checked (instrumentADD ws ins) :=
  .of_tracked <|
    (tracked_taintForOperand ins 0 .dest true false).bind fun _ =>
    (tracked_taintForOperand ins 1 .src true true).bind fun _ =>
    (tracked_setTaintForOperand ins 0 (by decide)).bind fun _ =>
    tracked_setTaintForFlags (by decide)

theorem checked_ADC (ins : Ins) : Checked (instrumentADC ws ins) :=
  .of_tracked <|
    (tracked_taintForOperand ins 0 .dest true false).bind fun _ =>
    (tracked_taintForOperand ins 1 .src true true).bind fun _ =>
    (tracked_loadRegister _ .eflags).bind fun _ =>
    (tracked_setTaintForOperand ins 0 (by decide)).bind fun _ =>
    tracked_setTaintForFlags (by decide)

theorem checked_XOR (ins : Ins) : Checked (instrumentXOR ws ins) := by
  have hdest : Tracked loadStep (Loaded [.src, .dest]) (xorDestination ins)
      (Loaded [.src, .dest]) := by
    rw [xorDestination]
    split
    · exact tracked_clearRegister _
    · exact tracked_setTaintForOperand ins 0 (by decide)
  exact .of_tracked <|
    (tracked_taintForOperand ins 0 .dest true false).bind fun _ =>
    (tracked_taintForOperand ins 1 .src true true).bind fun _ =>
    hdest.bind fun _ =>
    tracked_setTaintForFlags (by decide)

theorem checked_CMP (ins : Ins) : Checked (instrumentCMP ws ins) :=
  .of_tracked <|
    (tracked_taintForOperand ins 0 .dest true false).bind fun _ =>
    (tracked_taintForOperand ins 1 .src true true).bind fun _ =>
    tracked_setTaintForFlags (by decide)

theorem checked_TEST (ins : Ins) : Checked (instrumentTEST ws ins) :=
  .of_tracked <|
    (tracked_taintForOperand ins 0 .dest true false).bind fun _ =>
    (tracked_taintForOperand ins 1 .src false true).bind fun _ =>
    tracked_setTaintForFlags (by decide)

theorem checked_DEC (ins : Ins) : Checked (instrumentDEC ws ins) :=
  .of_tracked <|
    (tracked_taintForOperand ins 0 .dest true false).bind fun _ =>
    tracked_setTaintForFlags (by decide)

theorem checked_SAR (ins : Ins) : Checked (instrumentSAR ws ins) :=
  .of_tracked <|
    (tracked_taintForOperand ins 0 .dest true false).bind fun _ =>
    (tracked_taintForOperand ins 1 .cnt false true).bind fun _ =>
    (tracked_setTaintForOperand ins 0 (by decide)).bind fun _ =>
    tracked_setTaintForFlags (by decide)

theorem checked_SHLD (ins : Ins) : Checked (instrumentSHLD ws ins) := by
  have hsource : Tracked loadStep (Loaded [.cnt, .dest]) (shldSource ins)
      (Loaded [.src, .cnt, .dest]) := by
    rw [shldSource]
    split
    · exact tracked_loadRegister _ .src
    · split
      · exact tracked_clearSet .src
      · exact Tracked.abort
  exact .of_tracked <|
    (tracked_taintForOperand ins 0 .dest true false).bind fun _ =>
    (tracked_loadRegister _ .cnt).bind fun _ =>
    hsource.bind fun _ =>
    (tracked_setTaintForOperand ins 0 (by decide)).bind fun _ =>
    tracked_setTaintForFlags (by decide)

theorem checked_XADD (ins : Ins) : Checked (instrumentXADD ws ins) :=
  .of_tracked <|
    (tracked_taintForOperand ins 0 .dest true false).bind fun _ =>
    (tracked_taintForOperand ins 1 .src false false).bind fun _ =>
    (tracked_setTaintForOperand ins 0 (by decide)).bind fun _ =>
    (tracked_setRegister _ (by decide)).bind fun _ =>
    tracked_setTaintForFlags (by decide)

/-- The sets of MUL and DIV are the ones the width test selected. -/
theorem mem_wide (w : WideRegs) :
    ∀ x ∈ [w.ax, w.dx, Scratch.src], x ∈ [w.dx, w.ax, Scratch.src] := by
  intro x hx
  simp only [List.mem_cons, List.not_mem_nil, or_false] at hx ⊢
  tauto

theorem checked_MUL (ins : Ins) : Checked (instrumentMUL ins) := by
  rw [instrumentMUL]
  split
  · exact Checked.abort
  · rename_i w _
    have hsets : ∀ x ∈ [w.ax, Scratch.src], x ∈ [w.ax, Scratch.src] := fun _ hx => hx
    exact .of_tracked <|
      (tracked_taintForOperand ins 0 .src true false).bind fun _ =>
      (tracked_loadRegister _ w.ax).bind fun _ =>
      (tracked_setRegister _ hsets).bind fun _ =>
      (tracked_setRegister _ hsets).bind fun _ =>
      tracked_setRegister _ hsets

theorem checked_IMUL (ins : Ins) : Checked (instrumentIMUL ws ins) := by
  have hsource : ∀ immediate, Tracked loadStep (Loaded [.dest]) (imulSource ins immediate)
      (Loaded [.src, .dest]) := by
    intro immediate
    rw [imulSource]
    split
    · exact tracked_loadRegister _ .src
    · split
      · exact (tracked_requireMemoryRead ins).bind fun _ => tracked_loadMemory _ .src
      · split
        · exact tracked_clearSet .src
        · exact Tracked.abort
  have hoperands : ∀ immediate, Checked (imulOperands ws ins immediate) := fun immediate =>
    .of_tracked <|
      (tracked_loadRegister _ .dest).bind fun _ =>
      (hsource immediate).bind fun _ =>
      (tracked_setRegister _ (by decide)).bind fun _ =>
      tracked_setTaintForFlags (by decide)
  rw [instrumentIMUL]
  split
  · exact checked_MUL ins
  · split
    · exact hoperands true
    · split
      · exact hoperands false
      · exact Checked.abort

theorem checked_DIV (ins : Ins) : Checked (instrumentDIV ins) := by
  rw [instrumentDIV]
  split
  · exact Checked.abort
  · rename_i w _
    exact .of_tracked <|
      (tracked_taintForOperand ins 0 .src true false).bind fun _ =>
      (tracked_loadRegister _ w.ax).bind fun _ =>
      (tracked_loadRegister _ w.dx).bind fun _ =>
      (tracked_setRegister _ (mem_wide w)).bind fun _ =>
      (tracked_setRegister _ (mem_wide w)).bind fun _ =>
      tracked_clearRegister _

theorem checked_IDIV (ins : Ins) : Checked (instrumentIDIV ins) := by
  rw [instrumentIDIV]
  split
  · exact Checked.abort
  · rename_i w _
    have hsets : ∀ x ∈ [w.ax, w.dx, Scratch.src], x ∈ [w.ax, w.dx, Scratch.src] :=
      fun _ hx => hx
    exact .of_tracked <|
      (tracked_taintForOperand ins 0 .src true false).bind fun _ =>
      (tracked_loadRegister _ w.dx).bind fun _ =>
      (tracked_loadRegister _ w.ax).bind fun _ =>
      (tracked_setRegister _ hsets).bind fun _ =>
      (tracked_setRegister _ hsets).bind fun _ =>
      tracked_clearRegister _

theorem checked_PUSH (ins : Ins) : Checked (instrumentPUSH ins) :=
  .of_tracked <|
    (tracked_taintForOperand ins 0 .src true true).bind fun _ =>
    (tracked_requireMemoryWrite ins).bind fun _ =>
    tracked_setMemory (by decide)

theorem checked_POP (ins : Ins) : Checked (instrumentPOP ins) :=
  .of_tracked <|
    (tracked_requireMemoryRead ins).bind fun _ =>
    (tracked_loadMemory _ .src).bind fun _ =>
    tracked_setTaintForOperand ins 0 (by decide)

theorem checked_XCHG (ins : Ins) : Checked (instrumentXCHG ins) :=
  .of_tracked <|
    (tracked_taintForOperand ins 0 .dest true false).bind fun _ =>
    (tracked_taintForOperand ins 1 .src true false).bind fun _ =>
    (tracked_setTaintForOperand ins 0 (by decide)).bind fun _ =>
    tracked_setTaintForOperand ins 1 (by decide)

theorem checked_MOV (ins : Ins) : Checked (instrumentMOV ins) :=
  .of_tracked <|
    (tracked_taintForOperand ins 1 .src true true).bind fun _ =>
    tracked_setTaintForOperand ins 0 (by decide)

theorem checked_MOVDQU (ins : Ins) : Checked (instrumentMOVDQU ins) :=
  .of_tracked <|
    (tracked_taintForOperand ins 1 .src true false).bind fun _ =>
    tracked_setTaintForOperand ins 0 (by decide)

theorem checked_LDDQU (ins : Ins) : Checked (instrumentLDDQU ins) := by
  have hsource : Tracked loadStep (Loaded []) (lddquSource ins) (Loaded [.src]) := by
    rw [lddquSource]
    split
    · exact (tracked_requireMemoryRead ins).bind fun _ => tracked_loadMemory _ .src
    · exact Tracked.abort
  have hdest : Tracked loadStep (Loaded [.src])
      (if ins.operandIsReg 0 then insertCall (.setTaintForRegister (ins.operandReg 0) [.src])
      else abort) (Loaded [.src]) := by
    split
    · exact tracked_setRegister _ (by decide)
    · exact Tracked.abort
  exact .of_tracked (hsource.bind fun _ => hdest)

theorem checked_LEA (ins : Ins) : Checked (instrumentLEA ins) :=
  .of_tracked <|
    (tracked_loadRegister _ .base).bind fun _ =>
    (tracked_loadRegister _ .idx).bind fun _ =>
    tracked_setRegister _ (by decide)

theorem checked_CWDE : Checked instrumentCWDE :=
  .of_tracked <| (tracked_loadRegister _ .dest).bind fun _ => tracked_setRegister _ (by decide)

theorem checked_CDQ (ins : Ins) : Checked (instrumentCDQ ins) := by
  rw [instrumentCDQ]
  split
  · exact .of_tracked <| (tracked_loadRegister _ .eax).bind fun _ => tracked_setRegister _ (by decide)
  · split
    · exact .of_tracked <| (tracked_loadRegister _ .rax).bind fun _ => tracked_setRegister _ (by decide)
    · exact Checked.abort

theorem checked_PUSHFD : Checked (instrumentPUSHFD ws) :=
  .of_tracked <| (tracked_loadRegister _ .src).bind fun _ => tracked_setMemory (by decide)

theorem checked_POPFD (ins : Ins) : Checked (instrumentPOPFD ws ins) :=
  .of_tracked <|
    (tracked_requireMemoryRead ins).bind fun _ =>
    (tracked_loadMemory _ .src).bind fun _ =>
    tracked_loadRegister _ .src

theorem checked_CMPXCHG (ins : Ins) : Checked (instrumentCMPXCHG ins) := by
  have hloads : Tracked loadStep (Loaded []) (cmpxchgLoads ins)
      (Loaded [.eax, .src, .dest]) := by
    rw [cmpxchgLoads]
    split
    · exact (tracked_taintForOperand ins 0 .dest true false).bind fun _ =>
        (tracked_loadRegister _ .src).bind fun _ => tracked_loadRegister _ .eax
    · exact Tracked.abort
  have hassigns : Tracked loadStep (Loaded [.eax, .src, .dest]) (cmpxchgAssigns ins)
      (Loaded [.eax, .src, .dest]) := by
    rw [cmpxchgAssigns]
    split
    · exact (tracked_ifSetRegister _ _ (by decide)).bind fun _ =>
        tracked_ifSetRegister _ _ (by decide)
    · split
      · exact (tracked_ifSetMemory _ (by decide)).bind fun _ =>
          tracked_ifSetRegister _ _ (by decide)
      · exact Tracked.pure
  exact .of_tracked (hloads.bind fun _ => hassigns)

theorem checked_MOVS (ins : Ins) : Checked (instrumentMOVS ins) := by
  have hassign : Tracked loadStep (Loaded [.src, .dest])
      (if ins.hasRealRep then do
        insertCall (.taintForRegister .ecx .cnt)
        insertCall (.setTaintForMemory [.src, .dest, .cnt])
      else
        insertCall (.setTaintForMemory [.src, .dest])) (Loaded []) := by
    split
    · exact ((tracked_loadRegister _ .cnt).bind fun _ =>
        tracked_setMemory (by decide)).weaken fun _ _ _ hx => nomatch hx
    · exact (tracked_setMemory (by decide)).weaken fun _ _ _ hx => nomatch hx
  exact .of_tracked <|
    (tracked_loadMemory _ .dest).bind fun _ =>
    (tracked_loadMemory _ .src).bind fun _ =>
    hassign

theorem checked_CMPSB (ins : Ins) : Checked (instrumentCMPSB ws ins) :=
  .of_tracked <|
    (tracked_requireMemoryRead ins).bind fun _ =>
    (tracked_loadMemory _ .dest).bind fun _ =>
    (tracked_requireMemoryRead ins).bind fun _ =>
    (tracked_loadMemory _ .src).bind fun _ =>
    tracked_setTaintForFlags (by decide)

theorem checked_STOSB (ins : Ins) : Checked (instrumentSTOSB ins) :=
  .of_tracked <|
    (tracked_loadRegister _ .eax).bind fun _ =>
    (tracked_loadRegister _ .src).bind fun _ =>
    (tracked_requireMemoryWrite ins).bind fun _ =>
    tracked_setMemory (by decide)

theorem checked_STOSD (ins : Ins) : Checked (instrumentSTOSD ins) :=
  .of_tracked <|
    (tracked_loadRegister _ .eax).bind fun _ =>
    (tracked_loadRegister _ .src).bind fun _ =>
    (tracked_requireMemoryWrite ins).bind fun _ =>
    tracked_setMemory (by decide)

theorem checked_SCASB (ins : Ins) : Checked (instrumentSCASB ws ins) := by
  have hcount : Tracked loadStep (Loaded [.eax, .src])
      (if ins.repPrefix || ins.repnePrefix then
        insertCall (.setTaintForRegister .ecx [.src, .eax]) else pure ())
      (Loaded [.eax, .src]) := by
    split
    · exact tracked_setRegister _ (by decide)
    · exact Tracked.pure
  exact .of_tracked <|
    (tracked_requireMemoryRead ins).bind fun _ =>
    (tracked_loadMemory _ .src).bind fun _ =>
    (tracked_loadRegister _ .eax).bind fun _ =>
    (tracked_setTaintForFlags (by decide)).bind fun _ =>
    hcount

theorem checked_RDTSC : Checked instrumentRDTSC :=
  .of_tracked <| (tracked_clearRegister _).bind fun _ => tracked_clearRegister _

theorem checked_CPUID : Checked instrumentCPUID :=
  .of_tracked <|
    (tracked_clearRegister _).bind fun _ =>
    (tracked_clearRegister _).bind fun _ =>
    (tracked_clearRegister _).bind fun _ =>
    tracked_clearRegister _

theorem Checked.clearRegister (r : Reg) : Checked (insertCall (.clearTaintForRegister r)) :=
  .of_tracked (tracked_clearRegister r)

theorem Checked.clearMemory : Checked (insertCall .clearTaintForMemory) :=
  .of_tracked tracked_clearMemory

theorem checked_FNSTSW (ins : Ins) : Checked (instrumentFNSTSW ins) := by
  rw [instrumentFNSTSW]
  split
  · exact Checked.clearRegister _
  · exact Checked.empty

/-- The branch of SETcc that assigns memory. -/
def assignsBase (ins : Ins) : Prop :=
  ins.operandIsMemory 0 = true ∧ ins.isMemoryWrite = true

theorem checked_SETcc {ins : Ins} (h : ¬ assignsBase ins) : Checked (instrumentSETcc ws ins) := by
  have hdest : Tracked loadStep (Loaded [.src]) (setccDestination ins) (Loaded [.src]) := by
    rw [setccDestination]
    split
    · exact tracked_setRegister _ (by decide)
    · split
      · rename_i hmem
        have hw : ins.isMemoryWrite = false := by
          by_contra hw
          exact h ⟨hmem, by simpa using hw⟩
        rw [requireMemoryWrite, hw]
        exact Tracked.leave
      · exact Tracked.abort
  exact .of_tracked ((tracked_loadRegister _ .src).bind fun _ => hdest)

/-- The classes `Instrument_SETcc` handles. -/
def isSETcc : IClass → Bool
  | .SETB | .SETNB | .SETZ | .SETNZ | .SETBE | .SETNBE => true
  | .SETS | .SETL | .SETNL | .SETLE | .SETNLE => true
  | _ => false

/-- Every handler passes the check, but for the memory branch of SETcc. -/
theorem checked_dataflow {ins : Ins} (h : ¬ (isSETcc ins.iclass = true ∧ assignsBase ins)) :
    Checked (dataflow ws ins) := by
  rw [dataflow]
  revert h
  cases ins.iclass with
  | ADD | OR | AND | SUB => exact fun _ => checked_ADD ins
  | ADC | SBB => exact fun _ => checked_ADC ins
  | XOR => exact fun _ => checked_XOR ins
  | CMP => exact fun _ => checked_CMP ins
  | TEST => exact fun _ => checked_TEST ins
  | INC | DEC | NEG => exact fun _ => checked_DEC ins
  | SAR | SHL | SHR => exact fun _ => checked_SAR ins
  | SHLD | SHRD => exact fun _ => checked_SHLD ins
  | XADD => exact fun _ => checked_XADD ins
  | MUL => exact fun _ => checked_MUL ins
  | IMUL => exact fun _ => checked_IMUL ins
  | DIV => exact fun _ => checked_DIV ins
  | IDIV => exact fun _ => checked_IDIV ins
  | PUSH => exact fun _ => checked_PUSH ins
  | POP => exact fun _ => checked_POP ins
  | XCHG => exact fun _ => checked_XCHG ins
  | MOV | MOVZX | MOVSX => exact fun _ => checked_MOV ins
  | MOVDQU => exact fun _ => checked_MOVDQU ins
  | LDDQU => exact fun _ => checked_LDDQU ins
  | LEA => exact fun _ => checked_LEA ins
  | CWDE => exact fun _ => checked_CWDE
  | CDQ => exact fun _ => checked_CDQ ins
  | PUSHFD => exact fun _ => checked_PUSHFD
  | POPFD => exact fun _ => checked_POPFD ins
  | SETB | SETNB | SETZ | SETNZ | SETBE | SETNBE | SETS | SETL | SETNL | SETLE | SETNLE =>
      exact fun h => checked_SETcc fun hb => h ⟨rfl, hb⟩
  | CMPXCHG => exact fun _ => checked_CMPXCHG ins
  | MOVSB | MOVSW | MOVSD => exact fun _ => checked_MOVS ins
  | CMPSB => exact fun _ => checked_CMPSB ins
  | STOSB => exact fun _ => checked_STOSB ins
  | STOSD => exact fun _ => checked_STOSD ins
  | SCASB => exact fun _ => checked_SCASB ins
  | CLD | STD | BSF | BSR => exact fun _ => Checked.clearRegister _
  | RDTSC => exact fun _ => checked_RDTSC
  | CPUID => exact fun _ => checked_CPUID
  | FNSTSW => exact fun _ => checked_FNSTSW ins
  | FNSTCW | STMXCSR => exact fun _ => Checked.clearMemory
  | _ => exact fun _ => Checked.empty

/-! ## Independence from stale scratch sets -/

/-- From states with the same maps and any scratch contents, the inserted calls
    lead to the same maps. -/
def Independent (N : Nat) (ctx : Ctx ws) (ins : Ins) : Prop :=
  ∀ s t : TaintState ws N, SizedState s → SizedState t → SameMaps s t →
    ∃ s' t', run (callsAt ctx (dataflow ws ins).calls) s = some s'
      ∧ run (callsAt ctx (dataflow ws ins).calls) t = some t' ∧ SameMaps s' t'

theorem independent_of_checked {ins : Ins} (h : Checked (dataflow ws ins)) (ctx : Ctx ws) :
    Independent N ctx ins := by
  intro s t hs ht hmaps
  obtain ⟨L', hcheck, -⟩ := h [] fun x hx => nomatch hx
  exact run_sameAt ctx hcheck hs ht (sameAt_nil_iff.mpr hmaps)

/-- The calls of SETcc with a memory destination. -/
theorem calls_setcc {ins : Ins} (hc : isSETcc ins.iclass = true) (hb : assignsBase ins) :
    (dataflow ws ins).calls
      = [⟨none, .taintForRegister (flagsReg ws) .src⟩, ⟨none, .setTaintForMemory [.base]⟩] := by
  have hreg : ins.operandIsReg 0 = false := by
    obtain ⟨base, index, hkind⟩ := Ins.operandIsMemory_iff.mp hb.1
    rw [Ins.operandIsReg, hkind]
  have hcalls : (instrumentSETcc ws ins).calls
      = [⟨none, .taintForRegister (flagsReg ws) .src⟩,
          ⟨none, .setTaintForMemory [.base]⟩] := by
    rw [instrumentSETcc, setccDestination]
    rw [hreg, hb.1, requireMemoryWrite, hb.2]
    rfl
  rw [← hcalls, dataflow]
  cases h : ins.iclass <;> first | rfl | (rw [h] at hc; exact Bool.noConfusion hc)

/-- What SETcc leaves in the memory it writes: the marks `base` held, and the
    control taint. -/
theorem setcc_memory {s : TaintState ws N} (hs : SizedState s) (ea size : Addr ws)
    {a : Addr ws} (ha : a ∈ addrRange ea size) :
    ∃ s', run [.taintForRegister (flagsReg ws) .src, .setTaintForMemory ea size [.base]] s
        = some s'
      ∧ marksAt s' (.mem a) = marksAt s (.scr .base) ∪ controlMarks s := by
  obtain ⟨s₁, h₁, hs₁, hm₁⟩ := step_marks hs (.taintForRegister (flagsReg ws) .src)
  obtain ⟨s₂, h₂, -, hm₂⟩ := step_marks hs₁ (.setTaintForMemory ea size [.base])
  refine ⟨s₂, run_pair h₁ h₂, ?_⟩
  have hkeep : ∀ p, p ≠ Place.scr .src → marksAt s₁ p = marksAt s p := by
    intro p hp
    rw [hm₁]
    exact overwrite_of_notMem hp
  have htarget : Place.mem a ∈ targets (.setTaintForMemory ea size [.base]) s₁ := ⟨a, ha, rfl⟩
  rw [hm₂, overwrite_of_mem htarget]
  ext m
  constructor
  · rintro ⟨q, ⟨x, hx, rfl⟩ | ⟨c, rfl⟩, hm⟩
    · cases List.mem_singleton.mp hx
      rw [hkeep _ (by simp)] at hm
      exact Or.inl hm
    · rw [hkeep _ (by simp)] at hm
      exact Or.inr ⟨.ctl c, ⟨c, rfl⟩, hm⟩
  · rintro (hm | ⟨q, ⟨c, rfl⟩, hm⟩)
    · rw [← hkeep _ (by simp)] at hm
      exact ⟨.scr .base, Or.inl ⟨.base, List.mem_singleton.mpr rfl, rfl⟩, hm⟩
    · rw [← hkeep _ (by simp)] at hm
      exact ⟨.ctl c, Or.inr ⟨c, rfl⟩, hm⟩

/-- The initial state with mark 0 left in `base`. -/
def staleBase (ws : WordSize) (b : Bitset ws.bits) (N : Nat) : TaintState ws N :=
  { TaintState.init ws N with
    scratch := Function.update (TaintState.init ws N).scratch .base b }

theorem dependent_setcc {ins : Ins} (hc : isSETcc ins.iclass = true) (hb : assignsBase ins)
    (hN : 0 < N) (ctx : Ctx ws)
    (hrange : addrRange ctx.memoryWriteEA ctx.memoryWriteSize ≠ []) :
    ¬ Independent N ctx ins := by
  intro hind
  obtain ⟨a, ha⟩ := List.exists_mem_of_ne_nil _ hrange
  obtain ⟨b, -, hsb, hmb⟩ := setBit_sized ws.bits_pos (sized_init (w := ws.bits) N) hN
  have hs : SizedState (TaintState.init ws N) := init_sized
  have ht : SizedState (staleBase ws b N) := (assigns_scratch hs .base hsb).sizedState hs
  obtain ⟨s', t', hs', ht', -, hmem, -⟩ := hind _ _ hs ht ⟨rfl, rfl, rfl⟩
  rw [calls_setcc hc hb] at hs' ht'
  obtain ⟨s₂, hs₂, hms⟩ := setcc_memory hs ctx.memoryWriteEA ctx.memoryWriteSize ha
  obtain ⟨t₂, ht₂, hmt⟩ := setcc_memory ht ctx.memoryWriteEA ctx.memoryWriteSize ha
  cases hs'.symm.trans hs₂
  cases ht'.symm.trans ht₂
  have hzero : 0 ∈ marksAt t' (.mem a) := by
    rw [hmt]
    left
    show 0 ∈ entryMarks (some (Function.update (TaintState.init ws N).scratch .base b .base))
    rw [Function.update_self, entryMarks_some, hmb]
    exact Set.mem_insert 0 _
  have hsame : marksAt t' (.mem a) = marksAt s' (.mem a) := by
    rw [marksAt, marksAt, entryAt, entryAt, hmem]
  rw [hsame, hms] at hzero
  rcases hzero with hz | hz
  · rw [marksAt, entryAt, entryMarks_some, TaintState.init, marks_init] at hz
    exact hz
  · obtain ⟨c, e, he, -⟩ := mem_controlMarks.mp hz
    simp [TaintState.init] at he

/-- Without marks, or without a byte to write, that branch shows nothing. -/
theorem independent_setcc {ins : Ins} (hc : isSETcc ins.iclass = true) (hb : assignsBase ins)
    (ctx : Ctx ws) (h : N = 0 ∨ addrRange ctx.memoryWriteEA ctx.memoryWriteSize = []) :
    Independent N ctx ins := by
  intro s t hs ht hmaps
  rw [calls_setcc hc hb]
  rcases h with rfl | hrange
  · -- bitsets of no positions are all equal, so `base` is the same
    have hempty : ∀ b c : Bitset ws.bits, Sized 0 b → Sized 0 c → b = c := by
      rintro ⟨bits, nbits⟩ ⟨bits', nbits'⟩ hb hc
      have hlen : bitsetUsed ws.bits 0 = 0 := by
        cases ws <;> rfl
      have hbits : bits = [] := List.length_eq_zero_iff.mp (hb.length.trans hlen)
      have hbits' : bits' = [] := List.length_eq_zero_iff.mp (hc.length.trans hlen)
      rw [hbits, hbits', show nbits = 0 from hb.nbits, show nbits' = 0 from hc.nbits]
    have hsame : SameAt [.base] s t := by
      intro p hp
      cases p with
      | scr x =>
          exact congrArg some
            (hempty _ _ (hs.entries (.scr x) _ rfl) (ht.entries (.scr x) _ rfl))
      | _ => exact sameAt_nil_iff.mpr hmaps _ fun _ hx => (nomatch hx)
    have hcheck : [⟨none, .taintForRegister (flagsReg ws) .src⟩,
        ⟨none, .setTaintForMemory [.base]⟩].foldlM loadStep [.base]
          = some [.src, .base] := rfl
    exact run_sameAt ctx hcheck hs ht hsame
  · obtain ⟨s₁, t₁, hs₁, ht₁, hss, hst, hsame⟩ :=
      step_sameAt hs ht (sameAt_nil_iff.mpr hmaps) ctx (.taintForRegister (flagsReg ws) .src)
        fun x hx => nomatch hx
    obtain ⟨s₂, e, hs₂, hes, -⟩ := setTaintForMemory_spec hss ctx.memoryWriteEA
      ctx.memoryWriteSize (sized_args hss [.base])
    obtain ⟨t₂, e', ht₂, het, -⟩ := setTaintForMemory_spec hst ctx.memoryWriteEA
      ctx.memoryWriteSize (sized_args hst [.base])
    have hnone : ∀ p : Place ws, p ∉ rangePlaces ctx.memoryWriteEA ctx.memoryWriteSize := by
      rintro p ⟨a, ha, -⟩
      rw [hrange] at ha
      exact nomatch ha
    refine ⟨s₂, t₂, run_pair hs₁ hs₂, run_pair ht₁ ht₂, sameAt_nil_iff.mp fun p hp => ?_⟩
    rw [hes.frame p (hnone p), het.frame p (hnone p)]
    exact hsame p fun x hx => absurd (hp x hx) List.not_mem_nil

/-- **Independence from stale scratch sets**: the calls of every instruction
    are independent of old scratch contents, except those of a SETcc that
    writes at least one byte of memory. -/
theorem independent_iff (N : Nat) (ctx : Ctx ws) (ins : Ins) :
    Independent N ctx ins ↔
      ¬ (isSETcc ins.iclass = true ∧ assignsBase ins ∧ 0 < N
        ∧ addrRange ctx.memoryWriteEA ctx.memoryWriteSize ≠ []) := by
  constructor
  · rintro hind ⟨hc, hb, hN, hrange⟩
    exact dependent_setcc hc hb hN ctx hrange hind
  · intro h
    by_cases hcb : isSETcc ins.iclass = true ∧ assignsBase ins
    · refine independent_setcc hcb.1 hcb.2 ctx ?_
      by_contra hn
      rw [not_or] at hn
      exact h ⟨hcb.1, hcb.2, Nat.pos_of_ne_zero hn.1, hn.2⟩
    · exact independent_of_checked (checked_dataflow hcb) ctx

/-- `setz [mem]` on one byte at 100. -/
def setzMemory : Ins where
  iclass := .SETZ
  operands := [⟨.memory .ebx .invalid, 8, false⟩]
  isMemoryRead := false
  isMemoryWrite := true
  hasRealRep := false
  repPrefix := false
  repnePrefix := false

/-- `setz [100]` shows what an earlier LEA left in `base`. -/
theorem setz_stale : ¬ Independent 1 (writesAt .w64 100 1) setzMemory :=
  dependent_setcc rfl ⟨rfl, rfl⟩ Nat.one_pos _ (by decide)

end DytanStaleScratch
