import Dytan.RoutineFlowProofs

/-! # The instruction after the last one

    `BranchIns` takes `INS_Next` of a call, and of a branch whose only target is
    the start of its own block.  The last instruction of a routine has no next
    one: whether the builder asks for it depends on what that instruction is and
    on where its block starts.

    The block of an instruction starts at the first instruction of its straight
    line (`Line`): the builder leaves it at a jump, a call or a return, and
    splits it at a target.  It never looks at the first instruction of the
    routine. -/

namespace DytanNextInstruction

open DytanRegister DytanTaintState DytanBasicBlock DytanRoutineGraph DytanBlockBuilder
open DytanBlockSpans DytanBlockLayout DytanRoutineFlow Runs
open DytanPostDominanceTree (plain)

variable {ws : WordSize} {r : Routine ws} {ins : RtnIns ws}

/-- A branch names targets and flags. -/
theorem targets_of_mem_branchSet {x : Addr ws} (hx : x ∈ branchSet ins []) :
    Targets ins x ∨ IsFlag x ∨ x = 2 := by
  rcases mem_branchSet.mp hx with ⟨-, h2⟩ | ⟨hc, hfall | hx⟩ | ⟨hb, hfall | hx⟩ | hnil
  · exact Or.inr (Or.inr h2)
  · exact Or.inl (Or.inr ⟨Or.inr hc, hfall⟩)
  · refine Or.inr (Or.inl ?_)
    split at hx
    · exact Or.inl hx
    · exact Or.inr (Or.inl hx)
  · exact Or.inl (Or.inr ⟨Or.inl hb, hfall⟩)
  · split at hx
    · next hd => exact Or.inl (Or.inl ⟨hb, hd, hx⟩)
    · exact Or.inr (Or.inl (Or.inr (Or.inr hx)))
  · exact absurd hnil List.not_mem_nil

/-- Jumps, calls and returns are the branches of the builder. -/
theorem branchSet_ne_nil : branchSet ins [] ≠ [] ↔ Transfers ins := by
  have hfall : ∀ {a : Addr ws} {set : List (Addr ws)}, fallSet ins (insertAddr a set) ≠ [] :=
    fun {a set} => List.ne_nil_of_mem (mem_fallSet.mpr (Or.inr (mem_insertAddr.mpr (Or.inl rfl))))
  rw [branchSet, Transfers]
  cases hr : ins.isRet
  · cases hc : ins.isCall
    · cases hb : ins.isBranch
      · simp
      · simpa using hfall
    · simpa using hfall
  · simpa using insertAddr_ne_nil _ _

theorem branches_ne_nil (hins : ins ∈ r.instructions) :
    (jumpMaps r).branches.getD ins.address [] ≠ [] ↔ Transfers ins := by
  rw [branches_jumpMaps hins]
  exact branchSet_ne_nil

/-- An address a branch may name: a target, or one no instruction has. -/
def Named (r : Routine ws) (a : Addr ws) : Prop := IsTarget r a ∨ ¬ 5 < a

theorem foreseen (hins : ins ∈ r.instructions) :
    Foreseen (jumpMaps r) (fun _ => True) (Named r) ins := by
  intro target others hset
  refine ⟨fun _ => trivial, fun _ _ a ha => ?_⟩
  rw [branches_jumpMaps hins] at hset
  rcases targets_of_mem_branchSet (hset ▸ ha) with htarget | hflag | rfl
  · exact Or.inl ⟨ins, hins, htarget⟩
  · exact Or.inr fun habove => not_isFlag_of_above habove hflag
  · exact Or.inr fun habove => ne_two_of_above habove rfl

/-- The builder lays out the spans of every routine. -/
theorem lays (r : Routine ws) :
    Related (Lays (fun _ => True) (Named r)) (blockBuilder r) (spansOf r) := by
  refine blockBuilder_lays (fun _ hins => foreseen (List.mem_cons_of_mem _ hins)) fun ins hins => ?_
  rw [targets_jumpMaps]
  have habove := r.above ins (List.mem_cons_of_mem _ hins)
  exact ⟨fun h => h.resolve_right fun hn => hn habove, Or.inl⟩

/-! ## Straight lines -/

/-- `line` goes on with the block that starts at `start`, after the
    instructions `before`. -/
structure Line (r : Routine ws) (before : List (RtnIns ws)) (start : RtnIns ws)
    (line : List (RtnIns ws)) : Prop where
  starts : before = [] ∨ IsTarget r start.address ∨ ∃ ins ∈ before.tail.getLast?, Transfers ins
  inner : ∀ ins ∈ line, ¬ IsTarget r ins.address
  plain : ∀ ins ∈ (start :: line).dropLast, ins ≠ r.head → ¬ Transfers ins

/-- The block of the last of the instructions `done` starts at `a`. -/
def LineFrom (r : Routine ws) (done : List (RtnIns ws)) (a : Addr ws) : Prop :=
  ∃ before start line, done = before ++ start :: line ∧ Line r before start line
    ∧ start.address = a

variable {done rest before before' line line' : List (RtnIns ws)} {start start' : RtnIns ws}

/-- An instruction behind the first one is not the first one. -/
theorem ne_head (hr : r.instructions = done ++ rest) (hins : ins ∈ done.tail) : ins ≠ r.head := by
  rintro rfl
  cases done with
  | nil => exact nomatch hins
  | cons first done =>
      obtain ⟨rfl, htail⟩ := List.cons.inj hr
      have hmem : r.head.address ∈ r.tail.map RtnIns.address := by
        rw [htail]
        exact List.mem_map_of_mem (List.mem_append_left _ hins)
      exact (List.nodup_cons.mp r.nodup).1 hmem

/-- No block starts inside a straight line. -/
theorem Line.not_inside (h : Line r before start line) (h' : Line r before' start' line')
    (hr : r.instructions = before ++ start :: line ++ rest) {skipped : List (RtnIns ws)}
    (hbefore : before' = before ++ start :: skipped) (hline : line = skipped ++ start' :: line') :
    False := by
  rcases h'.starts with hnil | htarget | ⟨ins, hlast, htransfers⟩
  · rw [hbefore] at hnil
    exact List.append_ne_nil_of_right_ne_nil _ (List.cons_ne_nil _ _) hnil
  · refine h.inner start' ?_ htarget
    rw [hline]
    exact List.mem_append_right _ List.mem_cons_self
  · have hmem : ins ∈ before'.tail := List.mem_of_getLast? hlast
    have hprefix : r.instructions = before' ++ (start' :: line' ++ rest) := by
      rw [hr, hbefore, hline]
      simp
    refine h.plain ins ?_ (ne_head hprefix hmem) htransfers
    -- the instruction before `start'` is on the line
    have hback : ins ∈ start :: skipped := by
      have hlast' : before'.getLast? = some ins := by
        cases before' with
        | nil => exact nomatch hmem
        | cons first others =>
            cases others with
            | nil => exact nomatch hmem
            | cons second others => exact hlast
      rw [hbefore, List.getLast?_append_of_ne_nil _ (List.cons_ne_nil _ _)] at hlast'
      exact List.mem_of_getLast? hlast'
    rw [hline, ← List.cons_append, List.dropLast_append_of_ne_nil (List.cons_ne_nil _ _)]
    exact List.mem_append_left _ hback

/-- The start of a block is determined. -/
theorem LineFrom.unique (hr : r.instructions = done ++ rest) {a a' : Addr ws}
    (h : LineFrom r done a) (h' : LineFrom r done a') : a = a' := by
  obtain ⟨before, start, line, hdone, hline, rfl⟩ := h
  obtain ⟨before', start', line', hdone', hline', rfl⟩ := h'
  rcases List.append_eq_append_iff.mp (hdone.symm.trans hdone') with
    ⟨skipped, hbefore, hrest⟩ | ⟨skipped, hbefore, hrest⟩
  · cases skipped with
    | nil => exact congrArg RtnIns.address (List.cons.inj hrest).1
    | cons first skipped =>
        obtain ⟨rfl, hinside⟩ := List.cons.inj hrest
        exact (hline.not_inside hline' (hdone ▸ hr) hbefore hinside).elim
  · cases skipped with
    | nil => exact congrArg RtnIns.address (List.cons.inj hrest).1.symm
    | cons first skipped =>
        obtain ⟨rfl, hinside⟩ := List.cons.inj hrest
        exact (hline'.not_inside hline (hdone' ▸ hr) hbefore hinside).elim

/-- An instruction that is no target goes on with the line, unless a branch
    has ended it. -/
theorem LineFrom.append_singleton {a : Addr ws} (h : LineFrom r done a)
    (hlast : ∀ i ∈ done.getLast?, i ≠ r.head → ¬ Transfers i) {ins : RtnIns ws}
    (hins : ¬ IsTarget r ins.address) : LineFrom r (done ++ [ins]) a := by
  obtain ⟨before, start, line, rfl, hline, hstart⟩ := h
  refine ⟨before, start, line ++ [ins], List.append_assoc .., ⟨hline.starts, ?_, ?_⟩, hstart⟩
  · exact List.forall_mem_append.mpr ⟨hline.inner, List.forall_mem_singleton.mpr hins⟩
  · intro i hi hne
    rw [← List.cons_append, List.dropLast_concat,
      ← List.dropLast_append_getLast (List.cons_ne_nil start line)] at hi
    rcases List.mem_append.mp hi with hi | hi
    · exact hline.plain i hi hne
    · refine hlast i ?_ hne
      rw [List.mem_singleton.mp hi, List.getLast?_append_of_ne_nil _ (List.cons_ne_nil _ _)]
      exact List.getLast?_eq_some_getLast _

/-- Between two turns: the span under construction is the line of the last
    instruction, and without one a branch has ended it. -/
def Building (r : Routine ws) (done : List (RtnIns ws)) : Option (Span ws) → Prop
  | none => ∃ ins ∈ done.tail.getLast?, Transfers ins
  | some s => LineFrom r done s.starting
      ∧ ∀ ins ∈ done.getLast?, ins ≠ r.head → ¬ Transfers ins

theorem Building.ne_nil {current : Option (Span ws)} (h : Building r done current) :
    done ≠ [] := by
  rintro rfl
  cases current with
  | none =>
      obtain ⟨ins, hins, -⟩ := h
      exact nomatch hins
  | some s =>
      obtain ⟨⟨before, start, line, hdone, -⟩, -⟩ := h
      exact List.append_ne_nil_of_right_ne_nil before (List.cons_ne_nil start line) hdone.symm

/-- The instruction of a turn is taken into the span of its line. -/
theorem Building.spanStep {current : Option (Span ws)} (h : Building r done current)
    (previous ins : RtnIns ws) (nextIns : Option (RtnIns ws)) :
    ∃ s earlier, LineFrom r (done ++ [ins]) s.starting
      ∧ spanStep (jumpMaps r) previous ins nextIns current
        = (spanAtBranch (jumpMaps r) ins nextIns s).map fun p => (p.1, earlier ++ p.2) := by
  cases current with
  | none =>
      refine ⟨.openAt ins.address, [], ⟨done, ins, [], rfl, ⟨Or.inr (Or.inr h), nofun, nofun⟩, rfl⟩, ?_⟩
      exact (Option.map_id' (x := _)).symm
  | some s =>
      rw [DytanBlockSpans.spanStep]
      by_cases ht : IsTarget r ins.address
      · refine ⟨.openAt ins.address, [s.endAt previous.address [.direct ins.address]],
          ⟨done, ins, [], rfl, ⟨Or.inr (Or.inl ht), nofun, nofun⟩, rfl⟩, ?_⟩
        rw [if_pos (targets_jumpMaps.mpr ht)]
        cases spanAtBranch (jumpMaps r) ins nextIns (.openAt ins.address) <;> rfl
      · refine ⟨s.add ins.address, [], ?_, ?_⟩
        · exact h.1.append_singleton h.2 ht
        · rw [if_neg fun htarget => ht (targets_jumpMaps.mp htarget)]
          exact (Option.map_id' (x := _)).symm

/-! ## The next instruction -/

/-- A branch with these targets, whose block starts at `a`, is given the next
    instruction: a call, direct or not, and a jump to `a` alone. -/
def TakesNext : List (Addr ws) → Addr ws → Prop
  | [], _ => False
  | target :: others, a =>
      target = 1 ∨ target = 4 ∨ (others = [] ∧ target = a ∧ target ≠ 2 ∧ target ≠ 5)

theorem exitsAt_eq_none {m : JumpMaps ws} {nextIns : Option (RtnIns ws)} {a : Addr ws}
    (hne : m.branches.getD ins.address [] ≠ []) :
    exitsAt m ins nextIns a = none
      ↔ nextIns = none ∧ TakesNext (m.branches.getD ins.address []) a := by
  obtain ⟨target, others, hset⟩ := List.exists_cons_of_ne_nil hne
  rw [exitsAt, hset]
  simp only [TakesNext]
  -- the cases of `BranchIns`: 1, 4 and a lone target take the next instruction
  by_cases h1 : target = 1
  · rw [if_pos h1, Option.map_eq_none_iff]
    exact ⟨fun h => ⟨h, Or.inl h1⟩, And.left⟩
  rw [if_neg h1]
  by_cases h2 : target = 2
  · have h4 : target ≠ 4 := by
      rw [h2]
      cases ws <;> decide
    rw [if_pos h2]
    exact iff_of_false (Option.some_ne_none _) fun h =>
      ((h.2.resolve_left h1).resolve_left h4).2.2.1 h2
  rw [if_neg h2]
  by_cases h4 : target = 4
  · rw [if_pos h4, Option.map_eq_none_iff]
    exact ⟨fun h => ⟨h, Or.inr (Or.inl h4)⟩, And.left⟩
  rw [if_neg h4]
  by_cases h5 : target = 5
  · rw [if_pos h5]
    exact iff_of_false (Option.some_ne_none _) fun h =>
      ((h.2.resolve_left h1).resolve_left h4).2.2.2 h5
  rw [if_neg h5, regularExits.eq_def]
  cases others with
  | cons other others =>
      exact iff_of_false (Option.some_ne_none _) fun h =>
        List.cons_ne_nil _ _ ((h.2.resolve_left h1).resolve_left h4).1
  | nil =>
      simp only
      by_cases hself : target = a
      · rw [if_pos hself, Option.map_eq_none_iff]
        exact ⟨fun h => ⟨h, Or.inr (Or.inr ⟨trivial, hself, h2, h5⟩)⟩, And.left⟩
      · rw [if_neg hself]
        exact iff_of_false (Option.some_ne_none _) fun h =>
          hself ((h.2.resolve_left h1).resolve_left h4).2.1

variable {current : Option (Span ws)} {s : Span ws}

/-- A turn fails at a branch that is given an instruction that is not there. -/
theorem spanAtBranch_eq_none (hins : ins ∈ r.instructions) (nextIns : Option (RtnIns ws)) :
    spanAtBranch (jumpMaps r) ins nextIns s = none
      ↔ nextIns = none ∧ TakesNext (branchSet ins []) s.starting := by
  rw [← branches_jumpMaps hins, spanAtBranch]
  by_cases hset : (jumpMaps r).branches.getD ins.address [] = []
  · rw [if_neg (not_not.mpr hset), hset]
    exact iff_of_false (Option.some_ne_none _) fun h => h.2
  · rw [if_pos hset, ← exitsAt_eq_none hset, Option.bind_eq_bind, Option.bind_eq_none_iff]
    constructor
    · intro h
      exact Option.eq_none_iff_forall_ne_some.mpr fun exits hexits =>
        Option.some_ne_none _ (h exits hexits)
    · intro h exits hexits
      cases h.symm.trans hexits

/-- A turn leaves the line of the instruction, or its branch. -/
theorem building_of_spanAtBranch (hr : r.instructions = done ++ ins :: rest)
    (hline : LineFrom r (done ++ [ins]) s.starting) (hdone : done ≠ [])
    {nextIns : Option (RtnIns ws)} {current' : Option (Span ws)} {ended : List (Span ws)}
    (h : spanAtBranch (jumpMaps r) ins nextIns s = some (current', ended)) :
    Building r (done ++ [ins]) current' := by
  have hins : ins ∈ r.instructions := by
    rw [hr]
    exact List.mem_append_right _ List.mem_cons_self
  have hbranches := branches_ne_nil hins
  rcases spanAtBranch_cases h with ⟨hset, rfl, -⟩ | ⟨hset, exits, -, rfl, -⟩
  · refine ⟨hline, fun i hi _ htransfers => ?_⟩
    rw [List.getLast?_concat] at hi
    cases hi
    exact hbranches.mpr htransfers hset
  · refine ⟨ins, ?_, hbranches.mp hset⟩
    rw [List.tail_append_of_ne_nil hdone, List.getLast?_concat]
    rfl

/-- The loop fails at the last instruction, if at all. -/
theorem spanLoop_isSome_iff (hr : r.instructions = done ++ rest) (h : Building r done current)
    (previous : RtnIns ws) :
    (∃ spans, spanLoop (jumpMaps r) previous rest current = some spans)
      ↔ ∀ last ∈ rest.getLast?, ∀ a, LineFrom r r.instructions a →
        ¬ TakesNext (branchSet last []) a := by
  induction rest generalizing done previous current with
  | nil =>
      refine iff_of_true ⟨_, rfl⟩ fun last hlast => ?_
      cases hlast
  | cons ins rest ih =>
      have hins : ins ∈ r.instructions := by
        rw [hr]
        exact List.mem_append_right _ List.mem_cons_self
      obtain ⟨s, earlier, hline, hstep⟩ := h.spanStep previous ins rest.head?
      have hr' : r.instructions = (done ++ [ins]) ++ rest := hr.trans (List.append_cons ..)
      rw [spanLoop]
      rw [hstep]
      -- the turn fails only where no instruction is left
      cases hrun : spanAtBranch (jumpMaps r) ins rest.head? s with
      | none =>
          obtain ⟨hnext, htakes⟩ := (spanAtBranch_eq_none hins _).mp hrun
          cases List.head?_eq_none_iff.mp hnext
          refine iff_of_false ?_ fun hall => ?_
          · rintro ⟨spans, hspans⟩
            cases hspans
          · rw [List.append_nil] at hr'
            exact hall ins rfl s.starting (hr' ▸ hline) htakes
      | some out =>
          obtain ⟨current', ended⟩ := out
          have hbuilding := building_of_spanAtBranch hr hline h.ne_nil hrun
          cases rest with
          | nil =>
              refine iff_of_true ⟨_, rfl⟩ fun last hlast a ha htakes => ?_
              cases hlast
              rw [List.append_nil] at hr'
              have hall : r.instructions = r.instructions ++ [] := (List.append_nil _).symm
              have heq : a = s.starting := ha.unique hall (hr' ▸ hline)
              rw [heq] at htakes
              cases hrun.symm.trans ((spanAtBranch_eq_none hins _).mpr ⟨rfl, htakes⟩)
          | cons next rest =>
              rw [List.getLast?_cons_cons, ← ih hr' hbuilding ins]
              simp only [Option.map_some, Option.bind_eq_bind, Option.bind_some]
              constructor
              · rintro ⟨spans, hspans⟩
                obtain ⟨later, hlater, -⟩ := Option.bind_eq_some_iff.mp hspans
                exact ⟨later, hlater⟩
              · rintro ⟨later, hlater⟩
                exact ⟨earlier ++ ended ++ later, Option.bind_eq_some_iff.mpr ⟨later, hlater, rfl⟩⟩

/-- The builder returns when the loop finds its spans. -/
theorem builds_iff_spans (r : Routine ws) :
    (∃ g, blockBuilder r = some g) ↔ ∃ spans, spansOf r = some spans := by
  have hlays := lays r
  constructor
  · rintro ⟨g, hg⟩
    rw [hg] at hlays
    cases hspans : spansOf r with
    | none =>
        rw [hspans] at hlays
        exact hlays.elim
    | some spans => exact ⟨spans, rfl⟩
  · rintro ⟨spans, hspans⟩
    rw [hspans] at hlays
    obtain ⟨g, hg, -⟩ := related_some hlays
    exact ⟨g, hg⟩

/-- Before the loop, the line is the first instruction. -/
theorem building_head (r : Routine ws) : Building r [r.head] (some (.openAt r.head.address)) := by
  refine ⟨⟨[], r.head, [], rfl, ⟨Or.inl rfl, nofun, nofun⟩, rfl⟩, fun ins hins hne => ?_⟩
  cases hins
  exact absurd rfl hne

theorem builds_of_not_takesNext
    (h : ∀ last ∈ r.tail.getLast?, ∀ a, ¬ TakesNext (branchSet last []) a) :
    ∃ g, blockBuilder r = some g :=
  (builds_iff_spans r).mpr ((spanLoop_isSome_iff rfl (building_head r) r.head).mpr
    fun last hlast a _ => h last hlast a)

/-- **When the builder needs no instruction behind the last one**: the last
    instruction is no call, and no jump whose one target is the start of its
    own block. -/
theorem blockBuilder_isSome_iff (r : Routine ws) :
    (∃ g, blockBuilder r = some g)
      ↔ ∀ last ∈ r.tail.getLast?, ∀ a, LineFrom r r.instructions a →
        ¬ TakesNext (branchSet last []) a :=
  (builds_iff_spans r).trans (spanLoop_isSome_iff rfl (building_head r) r.head)

/-- `f();`, where `f` does not return. -/
def callAtEnd : Routine .w64 where
  head := plain 0x1000 0x1002
  tail := [call 0x1002 0x1007 0x2000]
  nodup := by decide
  above := by decide

/-- The builder asks for the instruction behind the call. -/
theorem callAtEnd_fails : blockBuilder callAtEnd = none := by decide +kernel

end DytanNextInstruction
