import Dytan.BlockBuilderProofs

/-! # Block spans — the block builder without its heap

    `BlockBuilder` decides from addresses alone where a block starts, where it
    ends and where control leaves it.  A *span* is a block named by its
    addresses, and `spansOf` takes the builder's decisions in its order,
    without a pointer.

    A span under construction has the ending address 0 and no exits, as a block
    has until the builder ends it. -/

namespace DytanBlockSpans

open DytanRegister DytanTaintState DytanBasicBlock DytanRoutineGraph

variable {ws : WordSize}

/-- A way out of a block: to the block at an address, to it through the block
    of a call, or to the block of an indirect branch. -/
inductive Exit (ws : WordSize) where
  | direct (a : Addr ws)
  | call (flag a : Addr ws)
  | indirect
deriving DecidableEq

/-- The address an exit leads to. -/
def Exit.to? : Exit ws → Option (Addr ws)
  | .direct a => some a
  | .call _ a => some a
  | .indirect => none

/-- A block by its addresses; the last member first. -/
structure Span (ws : WordSize) where
  starting : Addr ws
  ending : Addr ws
  members : List (Addr ws)
  exits : List (Exit ws)
deriving DecidableEq

/-- Control leaves the span for `a`. -/
def Span.LeavesFor (s : Span ws) (a : Addr ws) : Prop := ∃ e ∈ s.exits, e.to? = some a

/-- A span that starts at an instruction. -/
def Span.openAt (a : Addr ws) : Span ws := ⟨a, 0, [a], []⟩

/-- The next instruction of a span. -/
def Span.add (a : Addr ws) (s : Span ws) : Span ws := { s with members := a :: s.members }

/-- The end of a span. -/
def Span.endAt (a : Addr ws) (exits : List (Exit ws)) (s : Span ws) : Span ws :=
  { s with ending := a, exits := exits }

/-- The exits `regularBranch` gives a block. -/
def regularExits (target : Addr ws) (others : List (Addr ws)) (nextIns : Option (RtnIns ws))
    (starting : Addr ws) : Option (List (Exit ws)) :=
  match others with
  | other :: _ => some [.direct other, .direct target]
  | [] =>
      if target = starting then
        nextIns.map fun fallThrough => [.direct fallThrough.address, .direct target]
      else some [.direct target]

/-- The exits `BranchIns` gives the block it ends. -/
def exitsAt (m : JumpMaps ws) (currentIns : RtnIns ws) (nextIns : Option (RtnIns ws))
    (starting : Addr ws) : Option (List (Exit ws)) :=
  match m.branches.getD currentIns.address [] with
  | [] => none
  | target :: others =>
      if target = 1 then nextIns.map fun fallThrough => [.call 1 fallThrough.address]
      else if target = 2 then some [.direct 2]
      else if target = 4 then nextIns.map fun fallThrough => [.call 4 fallThrough.address]
      else if target = 5 then some [.indirect]
      else regularExits target others nextIns starting

/-- End the span at a branch instruction, if it is one: the span still open
    and the spans ended. -/
def spanAtBranch (m : JumpMaps ws) (currentIns : RtnIns ws) (nextIns : Option (RtnIns ws))
    (s : Span ws) : Option (Option (Span ws) × List (Span ws)) :=
  if m.branches.getD currentIns.address [] ≠ [] then do
    let exits ← exitsAt m currentIns nextIns s.starting
    some (none, [s.endAt currentIns.address exits])
  else some (some s, [])

/-- One turn of the loop. -/
def spanStep (m : JumpMaps ws) (previous currentIns : RtnIns ws)
    (nextIns : Option (RtnIns ws)) :
    Option (Span ws) → Option (Option (Span ws) × List (Span ws))
  | none => spanAtBranch m currentIns nextIns (.openAt currentIns.address)
  | some s =>
      if m.targets.getD currentIns.address [] ≠ [] then do
        let (current, ended) ← spanAtBranch m currentIns nextIns (.openAt currentIns.address)
        some (current, s.endAt previous.address [.direct currentIns.address] :: ended)
      else spanAtBranch m currentIns nextIns (s.add currentIns.address)

/-- The loop: the spans in the order they are ended. -/
def spanLoop (m : JumpMaps ws) : RtnIns ws → List (RtnIns ws) → Option (Span ws) →
    Option (List (Span ws))
  | previous, [], current => some (current.toList.map fun s => s.endAt previous.address [])
  | previous, currentIns :: rest, current => do
      let (current, ended) ← spanStep m previous currentIns rest.head? current
      let later ← spanLoop m currentIns rest current
      some (ended ++ later)

/-- The spans of a routine. -/
def spansOf (r : Routine ws) : Option (List (Span ws)) :=
  spanLoop (jumpMaps r) r.head r.tail (some (.openAt r.head.address))

/-! ## What the mapper flags -/

theorem mem_insertAddr {a x : Addr ws} {set : List (Addr ws)} :
    x ∈ insertAddr a set ↔ x = a ∨ x ∈ set := by
  induction set with
  | nil => exact List.mem_cons
  | cons b set ih =>
      rw [insertAddr]
      split
      · exact List.mem_cons
      · split
        · next _ heq =>
            rw [heq]
            exact ⟨Or.inr, fun h => h.elim (fun hx => hx ▸ List.mem_cons_self) id⟩
        · rw [List.mem_cons, ih, List.mem_cons]
          exact or_left_comm

theorem insertAddr_ne_nil (a : Addr ws) (set : List (Addr ws)) : insertAddr a set ≠ [] :=
  List.ne_nil_of_mem (mem_insertAddr.mpr (Or.inl rfl))

theorem getD_insertAt (key a x : Addr ws) (m : AddrSets ws) :
    (insertAt key a m).getD x []
      = if x = key then insertAddr a (m.getD key []) else m.getD x [] := by
  rw [insertAt]
  rw [Std.ExtTreeMap.getD_insert]
  by_cases hx : x = key
  · simp [hx]
  · simp [hx, Ne.symm hx]

/-- `x` is a target of the instruction: its jump goes there, or it is what
follows a conditional jump or a call. -/
def Targets (ins : RtnIns ws) (x : Addr ws) : Prop :=
  (ins.isBranch = true ∧ ins.isDirectBranchOrCall = true ∧ x = ins.targetAddress)
    ∨ ((ins.isBranch = true ∨ ins.isCall = true) ∧ ins.hasFallThrough = true
      ∧ x = ins.nextAddress)

theorem targets_addFallThrough {ins : RtnIns ws} {m : JumpMaps ws} {x : Addr ws} :
    (addFallThrough ins m).targets.getD x [] ≠ []
      ↔ (ins.hasFallThrough = true ∧ x = ins.nextAddress) ∨ m.targets.getD x [] ≠ [] := by
  rw [addFallThrough]
  by_cases hf : ins.hasFallThrough = true
  · rw [if_pos hf]
    show (insertAt ins.nextAddress ins.address m.targets).getD x [] ≠ [] ↔ _
    rw [getD_insertAt]
    by_cases hx : x = ins.nextAddress
    · rw [if_pos hx]
      exact iff_of_true (insertAddr_ne_nil _ _) (Or.inl ⟨hf, hx⟩)
    · rw [if_neg hx]
      exact ⟨Or.inr, fun h => h.resolve_left fun hh => hx hh.2⟩
  · rw [if_neg hf]
    exact ⟨Or.inr, fun h => h.resolve_left fun hh => hf hh.1⟩

theorem targets_mapBranch {ins : RtnIns ws} {m : JumpMaps ws} {x : Addr ws} :
    (mapBranch ins m).targets.getD x [] ≠ []
      ↔ (ins.isBranch = true ∧ ((ins.isDirectBranchOrCall = true ∧ x = ins.targetAddress)
          ∨ (ins.hasFallThrough = true ∧ x = ins.nextAddress)))
        ∨ m.targets.getD x [] ≠ [] := by
  rw [mapBranch]
  by_cases hb : ins.isBranch = true
  · rw [if_pos hb]
    by_cases hd : ins.isDirectBranchOrCall = true
    · rw [if_pos hd, targets_addFallThrough]
      show _ ∨ (insertAt ins.targetAddress ins.address m.targets).getD x [] ≠ [] ↔ _
      rw [getD_insertAt]
      by_cases hx : x = ins.targetAddress
      · rw [if_pos hx]
        exact iff_of_true (Or.inr (insertAddr_ne_nil _ _)) (Or.inl ⟨hb, Or.inl ⟨hd, hx⟩⟩)
      · rw [if_neg hx]
        simp [hb, hx]
    · rw [if_neg hd, targets_addFallThrough]
      show _ ∨ m.targets.getD x [] ≠ [] ↔ _
      simp [hb, hd]
  · rw [if_neg hb]
    simp [hb]

theorem targets_mapCall {ins : RtnIns ws} {m : JumpMaps ws} {x : Addr ws} :
    (mapCall ins m).targets.getD x [] ≠ []
      ↔ (ins.isCall = true ∧ ins.hasFallThrough = true ∧ x = ins.nextAddress)
        ∨ m.targets.getD x [] ≠ [] := by
  rw [mapCall]
  by_cases hc : ins.isCall = true
  · rw [if_pos hc]
    by_cases hd : ins.isDirectBranchOrCall = true
    · rw [if_pos hd, targets_addFallThrough]
      simp [hc, addBranch]
    · rw [if_neg hd, targets_addFallThrough]
      simp [hc, addBranch]
  · rw [if_neg hc]
    simp [hc]

theorem targets_mapper {ins : RtnIns ws} {m : JumpMaps ws} {x : Addr ws} :
    (mapper ins m).targets.getD x [] ≠ [] ↔ Targets ins x ∨ m.targets.getD x [] ≠ [] := by
  have hret : ∀ m : JumpMaps ws, (mapRet ins m).targets = m.targets := by
    intro m
    rw [mapRet]
    split
    · rfl
    · rfl
  rw [mapper, hret, targets_mapCall, targets_mapBranch, Targets]
  tauto

/-- The targets `mapper` has found after the first pass. -/
theorem targets_jumpMaps {r : Routine ws} {x : Addr ws} :
    (jumpMaps r).targets.getD x [] ≠ [] ↔ ∃ ins ∈ r.instructions, Targets ins x := by
  have hfold : ∀ (l : List (RtnIns ws)) (m : JumpMaps ws),
      (l.foldl (fun m ins => mapper ins m) m).targets.getD x [] ≠ []
        ↔ (∃ ins ∈ l, Targets ins x) ∨ m.targets.getD x [] ≠ [] := by
    intro l
    induction l with
    | nil =>
        intro m
        exact ⟨Or.inr, fun h => h.resolve_left fun ⟨_, hn, _⟩ => nomatch hn⟩
    | cons ins l ih =>
        intro m
        rw [List.foldl_cons, ih, targets_mapper, List.exists_mem_cons_iff]
        exact or_assoc.symm.trans (or_congr_left or_comm)
  rw [jumpMaps, hfold]
  refine ⟨fun h => h.resolve_right fun hn => hn ?_, Or.inl⟩
  exact Std.ExtTreeMap.getD_empty

/-- A fall-through in the set `branches` of an instruction. -/
def fallSet (ins : RtnIns ws) (set : List (Addr ws)) : List (Addr ws) :=
  if ins.hasFallThrough then insertAddr ins.nextAddress set else set

/-- The set `branches` of an instruction. -/
def branchSet (ins : RtnIns ws) (set : List (Addr ws)) : List (Addr ws) :=
  let set := if ins.isBranch then
      fallSet ins (insertAddr (if ins.isDirectBranchOrCall then ins.targetAddress else 5) set)
    else set
  let set := if ins.isCall then
      fallSet ins (insertAddr (if ins.isDirectBranchOrCall then 1 else 4) set)
    else set
  if ins.isRet then insertAddr 2 set else set

section Members

variable {ins : RtnIns ws}

theorem mem_fallSet {set : List (Addr ws)} {x : Addr ws} :
    x ∈ fallSet ins set ↔ (ins.hasFallThrough = true ∧ x = ins.nextAddress) ∨ x ∈ set := by
  rw [fallSet]
  by_cases hf : ins.hasFallThrough = true
  · rw [if_pos hf, mem_insertAddr]
    simp only [hf, true_and]
  · rw [if_neg hf]
    exact ⟨Or.inr, fun h => h.resolve_left fun hh => hf hh.1⟩

/-- A guarded addition to a set. -/
theorem mem_ite_set {b : Bool} {added set : List (Addr ws)} {p : Prop} {x : Addr ws}
    (h : x ∈ added ↔ p ∨ x ∈ set) :
    x ∈ (if b then added else set) ↔ (b = true ∧ p) ∨ x ∈ set := by
  cases b with
  | true => simpa using h
  | false => simp

/-- What each kind of branch adds. -/
theorem mem_branchSet {set : List (Addr ws)} {x : Addr ws} : x ∈ branchSet ins set
    ↔ (ins.isRet = true ∧ x = 2)
      ∨ (ins.isCall = true ∧ ((ins.hasFallThrough = true ∧ x = ins.nextAddress)
          ∨ x = if ins.isDirectBranchOrCall then 1 else 4))
      ∨ (ins.isBranch = true ∧ ((ins.hasFallThrough = true ∧ x = ins.nextAddress)
          ∨ x = if ins.isDirectBranchOrCall then ins.targetAddress else 5))
      ∨ x ∈ set := by
  have hfall : ∀ {a : Addr ws} {set : List (Addr ws)}, x ∈ fallSet ins (insertAddr a set)
      ↔ ((ins.hasFallThrough = true ∧ x = ins.nextAddress) ∨ x = a) ∨ x ∈ set := by
    intro a set
    rw [mem_fallSet, mem_insertAddr, or_assoc]
  rw [branchSet, mem_ite_set mem_insertAddr, mem_ite_set hfall, mem_ite_set hfall]

end Members

/-- The sets of the other instructions stay, and its own becomes `set`. -/
def AddsToOwn (ins : RtnIns ws) (m m' : JumpMaps ws) (set : List (Addr ws)) : Prop :=
  ∀ x, m'.branches.getD x [] = if x = ins.address then set else m.branches.getD x []

variable {ins : RtnIns ws} {m₁ m₂ : JumpMaps ws} {set : List (Addr ws)}

theorem addsToOwn_self (ins : RtnIns ws) (m : JumpMaps ws) :
    AddsToOwn ins m m (m.branches.getD ins.address []) := by
  intro x
  by_cases hx : x = ins.address
  · rw [if_pos hx, hx]
  · rw [if_neg hx]

theorem AddsToOwn.own (h : AddsToOwn ins m₁ m₂ set) :
    m₂.branches.getD ins.address [] = set := (h ins.address).trans (if_pos rfl)

theorem AddsToOwn.addBranch (h : AddsToOwn ins m₁ m₂ set) (a : Addr ws) :
    AddsToOwn ins m₁ (addBranch ins.address a m₂) (insertAddr a set) := by
  intro x
  show (insertAt ins.address a m₂.branches).getD x [] = _
  rw [getD_insertAt, h.own]
  by_cases hx : x = ins.address
  · rw [if_pos hx, if_pos hx]
  · rw [if_neg hx, h x, if_neg hx, if_neg hx]

theorem AddsToOwn.addFallThrough (h : AddsToOwn ins m₁ m₂ set) :
    AddsToOwn ins m₁ (addFallThrough ins m₂) (fallSet ins set) := by
  rw [DytanRoutineGraph.addFallThrough, fallSet]
  split
  · exact h.addBranch ins.nextAddress
  · exact h

theorem AddsToOwn.mapBranch (h : AddsToOwn ins m₁ m₂ set) :
    AddsToOwn ins m₁ (mapBranch ins m₂) (if ins.isBranch then
        fallSet ins (insertAddr (if ins.isDirectBranchOrCall then ins.targetAddress else 5) set)
      else set) := by
  rw [DytanRoutineGraph.mapBranch]
  split
  · split
    · -- a target is no branch
      have htarget : AddsToOwn ins m₁ (addTarget ins.targetAddress ins.address
          (DytanRoutineGraph.addBranch ins.address ins.targetAddress m₂))
          (insertAddr ins.targetAddress set) := h.addBranch ins.targetAddress
      exact htarget.addFallThrough
    · exact (h.addBranch 5).addFallThrough
  · exact h

theorem AddsToOwn.mapCall (h : AddsToOwn ins m₁ m₂ set) :
    AddsToOwn ins m₁ (mapCall ins m₂) (if ins.isCall then
        fallSet ins (insertAddr (if ins.isDirectBranchOrCall then 1 else 4) set)
      else set) := by
  rw [DytanRoutineGraph.mapCall]
  split
  · split
    · exact (h.addBranch 1).addFallThrough
    · exact (h.addBranch 4).addFallThrough
  · exact h

theorem AddsToOwn.mapRet (h : AddsToOwn ins m₁ m₂ set) :
    AddsToOwn ins m₁ (mapRet ins m₂) (if ins.isRet then insertAddr 2 set else set) := by
  rw [DytanRoutineGraph.mapRet]
  split
  · exact h.addBranch 2
  · exact h

/-- An instruction adds to its own set. -/
theorem branches_mapper (ins : RtnIns ws) (x : Addr ws) (m : JumpMaps ws) :
    (mapper ins m).branches.getD x []
      = if x = ins.address then branchSet ins (m.branches.getD ins.address [])
        else m.branches.getD x [] :=
  (addsToOwn_self ins m).mapBranch.mapCall.mapRet x

/-- The set `branches` after the first pass: only the instruction itself has
added to it. -/
theorem branches_jumpMaps {r : Routine ws} {ins : RtnIns ws} (hins : ins ∈ r.instructions) :
    (jumpMaps r).branches.getD ins.address [] = branchSet ins [] := by
  have hother : ∀ (l : List (RtnIns ws)) (m : JumpMaps ws), ins.address ∉ l.map RtnIns.address →
      (l.foldl (fun m ins => mapper ins m) m).branches.getD ins.address []
        = m.branches.getD ins.address [] := by
    intro l
    induction l with
    | nil =>
        intro m _
        rfl
    | cons i l ih =>
        intro m hn
        rw [List.map_cons, List.mem_cons, not_or] at hn
        rw [List.foldl_cons, ih _ hn.2, branches_mapper, if_neg hn.1]
  have hfold : ∀ (l : List (RtnIns ws)) (m : JumpMaps ws), ins ∈ l →
      (l.map RtnIns.address).Nodup → m.branches.getD ins.address [] = [] →
      (l.foldl (fun m ins => mapper ins m) m).branches.getD ins.address [] = branchSet ins [] := by
    intro l
    induction l with
    | nil =>
        intro m hmem
        exact nomatch hmem
    | cons i l ih =>
        intro m hmem hnodup hm
        obtain ⟨hi, hnodup⟩ := List.nodup_cons.mp hnodup
        rw [List.foldl_cons]
        rcases List.mem_cons.mp hmem with rfl | hmem
        · rw [hother l _ hi, branches_mapper, if_pos rfl, hm]
        · have hne : ins.address ≠ i.address := fun heq => hi (heq ▸ List.mem_map_of_mem hmem)
          refine ih _ hmem hnodup ?_
          rw [branches_mapper, if_neg hne]
          exact hm
  exact hfold _ _ hins r.nodup Std.ExtTreeMap.getD_empty

/-! ## The spans of a routine -/

variable {m : JumpMaps ws} {previous currentIns : RtnIns ws} {nextIns : Option (RtnIns ws)}
  {s : Span ws} {current current' : Option (Span ws)} {ended spans : List (Span ws)}

/-- What a turn does to the span under construction. -/
theorem spanAtBranch_cases
    (h : spanAtBranch m currentIns nextIns s = some (current', ended)) :
    (m.branches.getD currentIns.address [] = [] ∧ current' = some s ∧ ended = [])
      ∨ (m.branches.getD currentIns.address [] ≠ [] ∧ ∃ exits,
          exitsAt m currentIns nextIns s.starting = some exits ∧ current' = none
            ∧ ended = [s.endAt currentIns.address exits]) := by
  rw [spanAtBranch] at h
  by_cases hb : m.branches.getD currentIns.address [] = []
  · rw [if_neg (not_not.mpr hb)] at h
    cases h
    exact Or.inl ⟨hb, rfl, rfl⟩
  · rw [if_pos hb] at h
    obtain ⟨exits, hexits, hpair⟩ := Option.bind_eq_some_iff.mp h
    cases hpair
    exact Or.inr ⟨hb, exits, hexits, rfl, rfl⟩

/-- One turn: a span starts, is split off at a target, or goes on. -/
theorem spanStep_cases
    (h : spanStep m previous currentIns nextIns current = some (current', ended)) :
    (current = none
        ∧ spanAtBranch m currentIns nextIns (.openAt currentIns.address) = some (current', ended))
      ∨ (∃ s ended', current = some s ∧ m.targets.getD currentIns.address [] ≠ []
          ∧ spanAtBranch m currentIns nextIns (.openAt currentIns.address) = some (current', ended')
          ∧ ended = s.endAt previous.address [.direct currentIns.address] :: ended')
      ∨ ∃ s, current = some s ∧ m.targets.getD currentIns.address [] = []
          ∧ spanAtBranch m currentIns nextIns (s.add currentIns.address)
              = some (current', ended) := by
  cases current with
  | none => exact Or.inl ⟨rfl, h⟩
  | some s =>
      rw [spanStep] at h
      by_cases ht : m.targets.getD currentIns.address [] = []
      · rw [if_neg (not_not.mpr ht)] at h
        exact Or.inr (Or.inr ⟨s, rfl, ht, h⟩)
      · rw [if_pos ht] at h
        obtain ⟨⟨current₁, ended₁⟩, hbranch, hpair⟩ := Option.bind_eq_some_iff.mp h
        cases hpair
        exact Or.inr (Or.inl ⟨s, ended₁, rfl, ht, hbranch, rfl⟩)

theorem spanLoop_cons {rest : List (RtnIns ws)}
    (h : spanLoop m previous (currentIns :: rest) current = some spans) :
    ∃ current' ended later, spanStep m previous currentIns rest.head? current
        = some (current', ended)
      ∧ spanLoop m currentIns rest current' = some later ∧ spans = ended ++ later := by
  obtain ⟨⟨current', ended⟩, hstep, hrest⟩ := Option.bind_eq_some_iff.mp h
  obtain ⟨later, hlater, hpair⟩ := Option.bind_eq_some_iff.mp hrest
  cases hpair
  exact ⟨current', ended, later, hstep, hlater, rfl⟩

/-- The members of the span under construction are kept. -/
theorem mem_spanAtBranch (h : spanAtBranch m currentIns nextIns s = some (current', ended)) :
    ∃ s' ∈ current'.toList ++ ended, s'.members = s.members := by
  rcases spanAtBranch_cases h with ⟨-, rfl, rfl⟩ | ⟨-, exits, -, rfl, rfl⟩
  · exact ⟨s, List.mem_cons_self, rfl⟩
  · exact ⟨_, List.mem_cons_self, rfl⟩

/-- A turn takes the current instruction into a span, and keeps the others. -/
theorem mem_spanStep (h : spanStep m previous currentIns nextIns current = some (current', ended))
    {a : Addr ws} (ha : a = currentIns.address ∨ ∃ s ∈ current, a ∈ s.members) :
    ∃ s' ∈ current'.toList ++ ended, a ∈ s'.members := by
  rcases spanStep_cases h with
    ⟨rfl, hbranch⟩ | ⟨s, ended', rfl, -, hbranch, rfl⟩ | ⟨s, rfl, -, hbranch⟩
  · obtain ⟨s', hs', hmem⟩ := mem_spanAtBranch hbranch
    rcases ha with rfl | ⟨s, hs, -⟩
    · exact ⟨s', hs', hmem ▸ List.mem_cons_self⟩
    · exact nomatch hs
  · obtain ⟨s', hs', hmem⟩ := mem_spanAtBranch hbranch
    rcases ha with rfl | ⟨s₀, hs₀, ha⟩
    · refine ⟨s', ?_, hmem ▸ List.mem_cons_self⟩
      rw [List.mem_append, List.mem_cons]
      exact (List.mem_append.mp hs').imp_right Or.inr
    · cases hs₀
      exact ⟨_, List.mem_append_right _ List.mem_cons_self, ha⟩
  · obtain ⟨s', hs', hmem⟩ := mem_spanAtBranch hbranch
    refine ⟨s', hs', hmem ▸ List.mem_cons.mpr (ha.imp_right fun ⟨s₀, hs₀, ha⟩ => ?_)⟩
    cases hs₀
    exact ha

/-- Every instruction is a member of a span. -/
theorem mem_spanLoop {rest : List (RtnIns ws)} (h : spanLoop m previous rest current = some spans)
    {a : Addr ws} (ha : a ∈ rest.map RtnIns.address ∨ ∃ s ∈ current, a ∈ s.members) :
    ∃ s ∈ spans, a ∈ s.members := by
  induction rest generalizing previous current spans with
  | nil =>
      cases h
      obtain ⟨s, hs, hmem⟩ := ha.resolve_left List.not_mem_nil
      cases hs
      exact ⟨_, List.mem_cons_self, hmem⟩
  | cons currentIns rest ih =>
      obtain ⟨current', ended, later, hstep, hlater, rfl⟩ := spanLoop_cons h
      have hsplit : a ∈ rest.map RtnIns.address
          ∨ ∃ s' ∈ current'.toList ++ ended, a ∈ s'.members := by
        rcases ha with hmem | hs
        · rcases List.mem_cons.mp hmem with rfl | hmem
          · exact Or.inr (mem_spanStep hstep (Or.inl rfl))
          · exact Or.inl hmem
        · exact Or.inr (mem_spanStep hstep (Or.inr hs))
      rcases hsplit with hmem | ⟨s', hs', hmem⟩
      · obtain ⟨s, hs, hmem⟩ := ih hlater (Or.inl hmem)
        exact ⟨s, List.mem_append_right _ hs, hmem⟩
      · rcases List.mem_append.mp hs' with hs' | hs'
        · obtain ⟨s, hs, hmem⟩ := ih hlater (Or.inr ⟨s', Option.mem_toList.mp hs', hmem⟩)
          exact ⟨s, List.mem_append_right _ hs, hmem⟩
        · exact ⟨s', List.mem_append_left _ hs', hmem⟩

/-- Every instruction of a routine is a member of one of its spans. -/
theorem mem_spansOf {r : Routine ws} (h : spansOf r = some spans) {a : Addr ws}
    (ha : a ∈ r.instructions.map RtnIns.address) : ∃ s ∈ spans, a ∈ s.members := by
  refine mem_spanLoop h ?_
  rcases List.mem_cons.mp ha with rfl | ha
  · exact Or.inr ⟨_, rfl, List.mem_cons_self⟩
  · exact Or.inl ha

/-- A span ends where the loop stands, or later. -/
theorem ending_mem {rest : List (RtnIns ws)} (h : spanLoop m previous rest current = some spans) :
    ∀ s ∈ spans, s.ending ∈ (previous :: rest).map RtnIns.address := by
  induction rest generalizing previous current spans with
  | nil =>
      cases h
      intro s hs
      obtain ⟨s₀, -, rfl⟩ := List.mem_map.mp hs
      exact List.mem_cons_self
  | cons currentIns rest ih =>
      obtain ⟨current', ended, later, hstep, hlater, rfl⟩ := spanLoop_cons h
      have hbranch : ∀ {s₀ current' ended},
          spanAtBranch m currentIns rest.head? s₀ = some (current', ended) →
            ∀ s ∈ ended, s.ending = currentIns.address := by
        intro s₀ current' ended hrun s hs
        rcases spanAtBranch_cases hrun with ⟨-, -, rfl⟩ | ⟨-, exits, -, -, rfl⟩
        · exact nomatch hs
        · rw [List.mem_singleton.mp hs]
          rfl
      intro s hs
      rcases List.mem_append.mp hs with hs | hs
      · rcases spanStep_cases hstep with
          ⟨-, hrun⟩ | ⟨s₀, ended', -, -, hrun, rfl⟩ | ⟨s₀, -, -, hrun⟩
        · rw [hbranch hrun s hs]
          exact List.mem_cons_of_mem _ List.mem_cons_self
        · rcases List.mem_cons.mp hs with rfl | hs
          · exact List.mem_cons_self
          · rw [hbranch hrun s hs]
            exact List.mem_cons_of_mem _ List.mem_cons_self
        · rw [hbranch hrun s hs]
          exact List.mem_cons_of_mem _ List.mem_cons_self
      · exact List.mem_cons_of_mem _ (ih hlater s hs)

/-- The loop comes to every instruction. -/
theorem spanLoop_append {before rest : List (RtnIns ws)}
    (h : spanLoop m previous (before ++ rest) current = some spans) :
    ∃ previous' current' spans', spanLoop m previous' rest current' = some spans'
      ∧ ∀ s ∈ spans', s ∈ spans := by
  induction before generalizing previous current spans with
  | nil => exact ⟨previous, current, spans, h, fun _ hs => hs⟩
  | cons currentIns before ih =>
      obtain ⟨current', ended, later, -, hlater, rfl⟩ := spanLoop_cons h
      obtain ⟨previous', current'', spans', hloop, hsub⟩ := ih hlater
      exact ⟨previous', current'', spans', hloop, fun s hs =>
        List.mem_append_right _ (hsub s hs)⟩

end DytanBlockSpans
