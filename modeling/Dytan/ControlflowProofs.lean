import Dytan.ControlDependenceProofs
import Dytan.RoutineFlowProofs

/-! # Where `Controlflow` pushes and pops — the calls it inserts

    `Controlflow` inserts `PushControl` before every conditional branch whose
    block has a post-dominator, and `PopControl` before every instruction at
    which such a post-dominator starts.

    A branch is pushed whatever its post-dominator is, and popped only where
    the post-dominator starts at an instruction.  The return node starts at
    address 2, which is no instruction: a branch with the return node as its
    immediate post-dominator is pushed and never popped.

    What an execution of the routine comes by is a matter of its instructions
    (`Executes`), not of the graph. -/

namespace DytanControlflow

open DytanRegister DytanTaintState DytanBasicBlock DytanRoutineGraph DytanBlockBuilder
open DytanPostDominanceTree PostDominance ControlDependence
open DytanRoutineFlow (FallsThrough PassesTo Flow IsDirect)

variable {ws : WordSize}

/-- The calls inserted into a routine: `PushControl(a)` before the instruction
    at `a`, for each `a` in `pushes`, and `PopControl(args)` before the
    instruction at `x`, for each `(x, args)` in `pops`. -/
structure Calls (ws : WordSize) where
  pushes : List (Addr ws)
  pops : List (Addr ws × List (Addr ws))
deriving DecidableEq

/-- One turn of the first loop of `Controlflow`: `controls` and the pushes. -/
def placePush (g : RoutineGraph ws) (h : Infos ws)
    (state : AddrSets ws × List (Addr ws)) (ins : RtnIns ws) : AddrSets ws × List (Addr ws) :=
  if ins.isCondBranch then
    match g.addressMap[ins.address]? with
    | none => state
    | some block =>
        match (info h block).postDominator with
        | none => state
        | some ipdomBlock =>
            (insertAt (g.blocks ipdomBlock).startingAddress ins.address state.1,
              state.2 ++ [ins.address])
  else state

/-- One turn of the second loop. -/
def placePop (controls : AddrSets ws) (ins : RtnIns ws) : Option (Addr ws × List (Addr ws)) :=
  controls[ins.address]?.map fun args => (ins.address, args)

/-- The two loops. -/
def insertCalls (r : Routine ws) (g : RoutineGraph ws) (h : Infos ws) : Calls ws :=
  let (controls, pushes) := r.instructions.foldl (placePush g h) (∅, [])
  ⟨pushes, r.instructions.filterMap (placePop controls)⟩

/-- `Controlflow`.  The routines of shared libraries are left alone. -/
def controlflow (order : IterationOrder) (isSharedLib : Bool) (r : Routine ws) :
    Option (Calls ws) :=
  if isSharedLib then some ⟨[], []⟩
  else do
    let (g, h) ← initializeRoutineInfo order r
    some (insertCalls r g h)

/-! ## The first loop -/

/-- The immediate post-dominator reported for the block of the instruction. -/
def reported (g : RoutineGraph ws) (h : Infos ws) (a : Addr ws) : Option BlockId :=
  g.addressMap[a]?.bind fun block => (info h block).postDominator

section Loops

variable {g : RoutineGraph ws} {h : Infos ws}

theorem mem_insertAddr {a x : Addr ws} {set : List (Addr ws)} :
    x ∈ insertAddr a set ↔ x = a ∨ x ∈ set := by
  induction set with
  | nil => rw [insertAddr, List.mem_singleton, or_iff_left List.not_mem_nil]
  | cons b set ih =>
      rw [insertAddr]
      split
      · exact List.mem_cons
      · split
        · subst a
          rw [List.mem_cons, ← or_assoc, or_self]
        · rw [List.mem_cons, ih, List.mem_cons]
          exact or_left_comm

theorem mem_insertAt {key a k x : Addr ws} {m : AddrSets ws} :
    x ∈ (insertAt key a m).getD k [] ↔ (k = key ∧ x = a) ∨ x ∈ m.getD k [] := by
  rw [insertAt]
  rw [Std.ExtTreeMap.getD_insert]
  by_cases hk : k = key
  · subst hk
    simp [mem_insertAddr]
  · simp [hk, Ne.symm hk]

/-- What one turn adds. -/
theorem placePush_cases (state : AddrSets ws × List (Addr ws)) (ins : RtnIns ws) :
    placePush g h state ins = state ∨
      ∃ p, reported g h ins.address = some p
        ∧ placePush g h state ins
          = (insertAt (g.blocks p).startingAddress ins.address state.1,
            state.2 ++ [ins.address]) := by
  rw [placePush, reported]
  split
  · cases g.addressMap[ins.address]? with
    | none => exact Or.inl rfl
    | some block =>
        cases hp : (info h block).postDominator with
        | none => exact Or.inl (by simp [hp])
        | some p => exact Or.inr ⟨p, by simp [hp], by simp [hp]⟩
  · exact Or.inl rfl

/-- `controls` files the pushes under the reported post-dominators. -/
structure Filed (g : RoutineGraph ws) (h : Infos ws)
    (state : AddrSets ws × List (Addr ws)) : Prop where
  pushed : ∀ a ∈ state.2, ∃ p, reported g h a = some p
  filed : ∀ k a, a ∈ state.1.getD k [] ↔
    a ∈ state.2 ∧ ∃ p, reported g h a = some p ∧ (g.blocks p).startingAddress = k

theorem filed_nil : Filed g h (∅, []) where
  pushed a ha := absurd ha List.not_mem_nil
  filed k a := by
    rw [Std.ExtTreeMap.getD_empty]
    exact iff_of_false List.not_mem_nil fun hh => absurd hh.1 List.not_mem_nil

theorem Filed.step {state : AddrSets ws × List (Addr ws)} (hs : Filed g h state)
    (ins : RtnIns ws) : Filed g h (placePush g h state ins) := by
  rcases placePush_cases state ins with heq | ⟨p, hp, heq⟩
  · rw [heq]
    exact hs
  · rw [heq]
    refine ⟨fun a ha => ?_, fun k a => ?_⟩
    · rcases List.mem_append.mp ha with ha | ha
      · exact hs.pushed a ha
      · cases List.mem_singleton.mp ha
        exact ⟨p, hp⟩
    · rw [mem_insertAt, hs.filed, List.mem_append, List.mem_singleton]
      constructor
      · rintro (⟨rfl, rfl⟩ | ⟨ha, hk⟩)
        · exact ⟨Or.inr rfl, p, hp, rfl⟩
        · exact ⟨Or.inl ha, hk⟩
      · rintro ⟨ha | rfl, q, hq, hk⟩
        · exact Or.inr ⟨ha, q, hq, hk⟩
        · cases hq.symm.trans hp
          exact Or.inl ⟨hk.symm, rfl⟩

theorem Filed.run {state : AddrSets ws × List (Addr ws)} (hs : Filed g h state)
    (inss : List (RtnIns ws)) : Filed g h (inss.foldl (placePush g h) state) := by
  induction inss generalizing state with
  | nil => exact hs
  | cons ins inss ih => exact ih (hs.step ins)

/-- A branch is pushed only where a post-dominator is reported. -/
theorem reported_of_push {r : Routine ws} {a : Addr ws} (ha : a ∈ (insertCalls r g h).pushes) :
    ∃ p, reported g h a = some p :=
  (filed_nil.run r.instructions).pushed a ha

/-- The branch is popped where the reported post-dominator starts, if that is an
    instruction, and nowhere else. -/
theorem popped_iff {r : Routine ws} {a : Addr ws} {p : BlockId}
    (ha : a ∈ (insertCalls r g h).pushes) (hp : reported g h a = some p) (x : Addr ws) :
    (∃ args, (x, args) ∈ (insertCalls r g h).pops ∧ a ∈ args)
      ↔ x = (g.blocks p).startingAddress ∧ x ∈ r.instructions.map RtnIns.address := by
  have hfiled := (filed_nil (g := g) (h := h)).run r.instructions
  have hmem : ∀ k, a ∈ (r.instructions.foldl (placePush g h) (∅, [])).1.getD k []
      ↔ (g.blocks p).startingAddress = k := by
    intro k
    rw [hfiled.filed]
    constructor
    · rintro ⟨-, q, hq, hk⟩
      cases hq.symm.trans hp
      exact hk
    · intro hk
      exact ⟨ha, p, hp, hk⟩
  have hpops : ∀ args, (x, args) ∈ (insertCalls r g h).pops ↔ x ∈ r.instructions.map RtnIns.address
      ∧ (r.instructions.foldl (placePush g h) (∅, [])).1[x]? = some args := by
    intro args
    refine List.mem_filterMap.trans ⟨?_, ?_⟩
    · rintro ⟨ins, hins, hplace⟩
      obtain ⟨args', hget, hpair⟩ := Option.map_eq_some_iff.mp hplace
      cases hpair
      exact ⟨List.mem_map_of_mem hins, hget⟩
    · rintro ⟨hx, hget⟩
      obtain ⟨ins, hins, rfl⟩ := List.mem_map.mp hx
      exact ⟨ins, hins, Option.map_eq_some_iff.mpr ⟨args, hget, rfl⟩⟩
  constructor
  · rintro ⟨args, hpop, hargs⟩
    obtain ⟨hx, hget⟩ := (hpops args).mp hpop
    refine ⟨((hmem x).mp ?_).symm, hx⟩
    rw [Std.ExtTreeMap.getD_eq_getD_getElem?, hget]
    exact hargs
  · rintro ⟨hk, hx⟩
    have hin := (hmem x).mpr hk.symm
    rw [Std.ExtTreeMap.getD_eq_getD_getElem?] at hin
    cases hget : (r.instructions.foldl (placePush g h) (∅, [])).1[x]? with
    | none =>
        rw [hget] at hin
        exact absurd hin List.not_mem_nil
    | some args =>
        rw [hget] at hin
        exact ⟨args, (hpops args).mpr ⟨hx, hget⟩, hin⟩

end Loops

/-! ## Every path -/

/-- Control can pass from the instruction at `x` to the one at `a`, or it returns
    and `a` is 2.  An indirect jump can go to any instruction of the routine. -/
def Executes (r : Routine ws) (x a : Addr ws) : Prop :=
  ∃ ins ∈ r.instructions, ins.address = x
    ∧ ((a ∈ r.instructions.map RtnIns.address
        ∧ ((ins.isBranch = true ∧ (ins.isDirectBranchOrCall = true → a = ins.targetAddress))
          ∨ (FallsThrough ins ∧ a = ins.nextAddress)))
      ∨ (ins.isRet = true ∧ a = 2))

/-- The executions of a direct routine are its control flow. -/
theorem flow_eq_executes {r : Routine ws} (h : IsDirect r) : Flow r = Executes r := by
  funext x a
  refine propext (exists_congr fun ins => and_congr_right fun hins => and_congr_right fun _ => ?_)
  constructor
  · rintro (⟨hb, ha⟩ | ⟨hfall, ha⟩ | hret)
    · exact Or.inl ⟨ha ▸ h.targets ins hins hb, Or.inl ⟨hb, fun _ => ha⟩⟩
    · exact Or.inl ⟨ha ▸ h.next_mem hins hfall, Or.inr ⟨hfall, ha⟩⟩
    · exact Or.inr hret
  · rintro (⟨-, ⟨hb, ha⟩ | hfall⟩ | hret)
    · exact Or.inl ⟨hb, ha (h.direct hins hb)⟩
    · exact Or.inr (Or.inl hfall)
    · exact Or.inr (Or.inr hret)

/-- The parent of a block in the finished tree. -/
theorem parent_facts {g : RoutineGraph ws} {h : Infos ws} (order : IterationOrder) (hg : IsCfg g)
    (hrun : postDominanceTree order g = some h) {b p : BlockId}
    (hp : (info h b).postDominator = some p) :
    p ≠ b ∧ (p = g.returnNode ∨ ∃ c, Edge g p c) ∧ Reaches (Edge g) g.returnNode b := by
  have hfull := fullVisit order hg
  obtain ⟨h', hrun', ht⟩ := tree_completed order hg
  cases hrun.symm.trans hrun'
  have hb : Tail (visitsOf order g) b := by
    by_contra hnone
    exact nomatch (ht.unplaced b hnone).symm.trans hp
  obtain ⟨c, hc⟩ := hb
  obtain ⟨cs, hcs, hplaced⟩ := ht.chain b (Or.inr ⟨c, hc⟩)
  obtain ⟨q, qs, hq, rfl, -⟩ := hcs.exists_parent (return_ne_tail hg (hfull.visited.edge b c hc))
  have hqp : q = p := Option.some.inj (hq.symm.trans hp)
  subst hqp
  refine ⟨?_, (hplaced q List.mem_cons_self).imp_right fun ⟨d, hd⟩ =>
    ⟨d, hfull.visited.edge q d hd⟩, (ht.reaches b (Or.inr ⟨c, hc⟩)).mono hfull.visited.edge⟩
  rintro rfl
  exact hcs.notMem_self List.mem_cons_self

end DytanControlflow
