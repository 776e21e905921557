import Dytan.BlockLayoutProofs
import Dytan.PostDominanceTreeProofs

/-! # Routine flow — when the graph is the routine's control flow

    For a routine of plain instructions, direct jumps, direct calls and
    returns, the graph is right when its edges are the ways control can take
    and no jump, call or return stands inside a block (`IsControlFlow`).

    The builder handles the first instruction before its loop and never passes
    it to `BranchIns`, and it gives an unconditional jump to the start of its
    own block a fall-through that only a conditional one has.  These are the
    only routines it gets wrong: the graph is the control flow exactly when the
    first instruction passes control to the second alone, which is a target if
    the first one is a call, and no unconditional jump closes its own straight
    line (`builds_controlFlow_iff`). -/

namespace DytanRoutineFlow

open DytanRegister DytanTaintState DytanBasicBlock DytanRoutineGraph DytanBlockSpans
  DytanBlockLayout Runs
open DytanPostDominanceTree (plain jcc jmp ret)

variable {ws : WordSize} {r : Routine ws} {ins : RtnIns ws}

/-- The kinds of instructions of a direct routine. -/
inductive Kind where
  | plain
  | jump
  | condJump
  | call
  | ret

/-- What the decoder says about an instruction of a kind.  Whether it says that a
call falls through is left open: control comes back behind it either way. -/
def OfKind (ins : RtnIns ws) : Kind → Prop
  | .plain => ins.isBranch = false ∧ ins.isCall = false ∧ ins.isRet = false
  | .jump => ins.isBranch = true ∧ ins.isCall = false ∧ ins.isRet = false
      ∧ ins.isDirectBranchOrCall = true ∧ ins.hasFallThrough = false
  | .condJump => ins.isBranch = true ∧ ins.isCall = false ∧ ins.isRet = false
      ∧ ins.isDirectBranchOrCall = true ∧ ins.hasFallThrough = true
  | .call => ins.isBranch = false ∧ ins.isCall = true ∧ ins.isRet = false
      ∧ ins.isDirectBranchOrCall = true
  | .ret => ins.isBranch = false ∧ ins.isCall = false ∧ ins.isRet = true

/-- A jump, a call or a return. -/
def Transfers (ins : RtnIns ws) : Prop :=
  ins.isBranch = true ∨ ins.isCall = true ∨ ins.isRet = true

/-- Control may go on to the next instruction. -/
def FallsThrough (ins : RtnIns ws) : Prop :=
  ins.isRet = false ∧ (ins.isBranch = true → ins.hasFallThrough = true)

/-- What falls through is followed by the instruction it falls through to. -/
def Followed (instructions : List (RtnIns ws)) : Prop :=
  ∀ before ins after, instructions = before ++ ins :: after → FallsThrough ins →
    ∃ nextIns, after.head? = some nextIns ∧ nextIns.address = ins.nextAddress

/-- A routine without indirect control flow, whose jumps stay inside it. -/
structure IsDirect (r : Routine ws) : Prop where
  kinds : ∀ ins ∈ r.instructions, ∃ k, OfKind ins k
  followed : Followed r.instructions
  targets : ∀ ins ∈ r.instructions, ins.isBranch = true →
    ins.targetAddress ∈ r.instructions.map RtnIns.address

/-- Control can pass from the instruction to the first one of the block at `a`;
a return passes it to the return node, at 2. -/
def PassesTo (ins : RtnIns ws) (a : Addr ws) : Prop :=
  (ins.isBranch = true ∧ a = ins.targetAddress) ∨ (FallsThrough ins ∧ a = ins.nextAddress)
    ∨ (ins.isRet = true ∧ a = 2)

/-- Control can pass from the instruction at `x` to the block at `a`. -/
def Flow (r : Routine ws) (x a : Addr ws) : Prop :=
  ∃ ins ∈ r.instructions, ins.address = x ∧ PassesTo ins a

/-- The graph is the control flow of the routine. -/
structure IsControlFlow (r : Routine ws) (g : RoutineGraph ws) : Prop where
  edges : ∀ b c, b < g.next → c < g.next → ¬ IsCallBlock g b → ¬ IsCallBlock g c →
    (Successor g b c ↔ Flow r (g.blocks b).endingAddress (g.blocks c).startingAddress)
  ends : ∀ ins ∈ r.instructions, Transfers ins →
    ∃ b, g.addressMap[ins.address]? = some b ∧ (g.blocks b).endingAddress = ins.address

/-- The builder returns, and builds the control flow of the routine. -/
def BuildsControlFlow (r : Routine ws) : Prop :=
  ∃ g, blockBuilder r = some g ∧ IsControlFlow r g

/-! ## Direct routines -/

theorem passesTo_plain (h : OfKind ins .plain) {a : Addr ws} :
    PassesTo ins a ↔ a = ins.nextAddress := by
  obtain ⟨hb, hc, hr⟩ := h
  simp [PassesTo, FallsThrough, hb, hr]

theorem passesTo_jump (h : OfKind ins .jump) {a : Addr ws} :
    PassesTo ins a ↔ a = ins.targetAddress := by
  obtain ⟨hb, hc, hr, hd, hf⟩ := h
  simp [PassesTo, FallsThrough, hb, hr, hf]

theorem passesTo_condJump (h : OfKind ins .condJump) {a : Addr ws} :
    PassesTo ins a ↔ a = ins.targetAddress ∨ a = ins.nextAddress := by
  obtain ⟨hb, hc, hr, hd, hf⟩ := h
  simp [PassesTo, FallsThrough, hb, hr, hf]

theorem passesTo_call (h : OfKind ins .call) {a : Addr ws} :
    PassesTo ins a ↔ a = ins.nextAddress := by
  obtain ⟨hb, hc, hr, hd⟩ := h
  simp [PassesTo, FallsThrough, hb, hr]

theorem passesTo_ret (h : OfKind ins .ret) {a : Addr ws} : PassesTo ins a ↔ a = 2 := by
  obtain ⟨hb, hc, hr⟩ := h
  simp [PassesTo, FallsThrough, hb, hr]

/-- An address is in one part of a routine only. -/
theorem notMem_of_append {before after : List (RtnIns ws)} (hr : r.instructions = before ++ after)
    {a : Addr ws} (ha : a ∈ before.map RtnIns.address) : a ∉ after.map RtnIns.address := by
  have hnodup : ((before ++ after).map RtnIns.address).Nodup := hr ▸ r.nodup
  rw [List.map_append] at hnodup
  intro ha'
  exact List.disjoint_of_nodup_append hnodup ha ha'

/-- What an instruction at a known address passes control to. -/
theorem flow_iff (hins : ins ∈ r.instructions) {a : Addr ws} :
    Flow r ins.address a ↔ PassesTo ins a := by
  constructor
  · rintro ⟨i, hi, heq, hpass⟩
    have hsame : i = ins := List.inj_on_of_nodup_map r.nodup hi hins heq
    exact hsame ▸ hpass
  · intro hpass
    exact ⟨ins, hins, rfl, hpass⟩

/-- What falls through falls through to an instruction. -/
theorem IsDirect.next_mem (h : IsDirect r) (hins : ins ∈ r.instructions)
    (hfall : FallsThrough ins) : ins.nextAddress ∈ r.instructions.map RtnIns.address := by
  obtain ⟨before, after, hr⟩ := List.append_of_mem hins
  obtain ⟨nextIns, hnext, heq⟩ := h.followed before ins after hr hfall
  rw [← heq, hr]
  exact List.mem_map_of_mem (List.mem_append_right _ (List.mem_cons_of_mem _
    (List.mem_of_mem_head? hnext)))

theorem above_of_mem {a : Addr ws} (ha : a ∈ r.instructions.map RtnIns.address) : 5 < a := by
  obtain ⟨i, hi, rfl⟩ := List.mem_map.mp ha
  exact r.above i hi

theorem IsDirect.direct (h : IsDirect r) (hins : ins ∈ r.instructions)
    (hb : ins.isBranch = true) : ins.isDirectBranchOrCall = true := by
  obtain ⟨k, hk⟩ := h.kinds ins hins
  cases k with
  | jump => exact hk.2.2.2.1
  | condJump => exact hk.2.2.2.1
  | plain => exact nomatch hb.symm.trans hk.1
  | call => exact nomatch hb.symm.trans hk.1
  | ret => exact nomatch hb.symm.trans hk.1

theorem fallsThrough_call (h : OfKind ins .call) : FallsThrough ins :=
  ⟨h.2.2.1, fun hb => nomatch hb.symm.trans h.1⟩

/-- Only jumps and returns do not fall through. -/
theorem IsDirect.fallsThrough (h : IsDirect r) (hins : ins ∈ r.instructions)
    (hf : ins.isBranch = true ∨ ins.isCall = true) (hthrough : ins.hasFallThrough = true) :
    FallsThrough ins := by
  refine ⟨?_, fun _ => hthrough⟩
  obtain ⟨k, hk⟩ := h.kinds ins hins
  cases k with
  | ret => exact absurd hf (by simp [hk.1, hk.2.1])
  | plain => exact hk.2.2
  | jump => exact hk.2.2.1
  | condJump => exact hk.2.2.1
  | call => exact hk.2.2.1

/-- Every target is an instruction. -/
theorem IsDirect.target_mem (h : IsDirect r) {x : Addr ws}
    (hx : (jumpMaps r).targets.getD x [] ≠ []) : x ∈ r.instructions.map RtnIns.address := by
  obtain ⟨ins, hins, ⟨hb, -, rfl⟩ | ⟨hbc, hf, rfl⟩⟩ := targets_jumpMaps.mp hx
  · exact h.targets ins hins hb
  · exact h.next_mem hins (h.fallsThrough hins hbc hf)

/-! ## The branch sets of a direct routine -/

theorem branchSet_plain (h : OfKind ins .plain) : branchSet ins [] = [] := by
  obtain ⟨hb, hc, hr⟩ := h
  simp [branchSet, hb, hc, hr]

theorem branchSet_jump (h : OfKind ins .jump) : branchSet ins [] = [ins.targetAddress] := by
  obtain ⟨hb, hc, hr, hd, hf⟩ := h
  simp [branchSet, fallSet, hb, hc, hr, hd, hf, insertAddr]

theorem branchSet_condJump (h : OfKind ins .condJump) :
    branchSet ins [] = if ins.nextAddress < ins.targetAddress then
        [ins.nextAddress, ins.targetAddress]
      else if ins.nextAddress = ins.targetAddress then [ins.targetAddress]
      else [ins.targetAddress, ins.nextAddress] := by
  obtain ⟨hb, hc, hr, hd, hf⟩ := h
  simp [branchSet, fallSet, hb, hc, hr, hd, hf, insertAddr]

/-- The flag of a call comes first in its set. -/
theorem branchSet_call (h : OfKind ins .call) (hnext : 5 < ins.nextAddress) :
    ∃ others, branchSet ins [] = 1 :: others := by
  obtain ⟨hb, hc, hr, hd⟩ := h
  have hlt : ¬ ins.nextAddress < 1 := fun hlt =>
    absurd (BitVec.lt_trans hnext hlt) (by cases ws <;> decide)
  have hne : ins.nextAddress ≠ 1 := fun heq => not_isFlag_of_above hnext (Or.inl heq)
  cases hf : ins.hasFallThrough with
  | false => exact ⟨[], by simp [branchSet, fallSet, hb, hc, hr, hd, hf, insertAddr]⟩
  | true =>
      have hset : branchSet ins [] = insertAddr ins.nextAddress [1] := by
        simp [branchSet, fallSet, hb, hc, hr, hd, hf, insertAddr]
      rw [hset, insertAddr, if_neg hlt, if_neg hne]
      exact ⟨_, rfl⟩

theorem branchSet_ret (h : OfKind ins .ret) : branchSet ins [] = [2] := by
  obtain ⟨hb, hc, hr⟩ := h
  simp [branchSet, hb, hc, hr, insertAddr]

/-- Only jumps, calls and returns are branches to the builder. -/
theorem IsDirect.branches_ne_nil (h : IsDirect r) (hins : ins ∈ r.instructions) :
    (jumpMaps r).branches.getD ins.address [] ≠ [] ↔ Transfers ins := by
  rw [branches_jumpMaps hins]
  obtain ⟨k, hk⟩ := h.kinds ins hins
  cases k with
  | plain =>
      rw [branchSet_plain hk]
      simp [Transfers, hk.1, hk.2.1, hk.2.2]
  | jump =>
      rw [branchSet_jump hk]
      simp [Transfers, hk.1]
  | condJump =>
      rw [branchSet_condJump hk]
      refine iff_of_true ?_ (Or.inl hk.1)
      split_ifs <;> exact List.cons_ne_nil _ _
  | call =>
      obtain ⟨others, hset⟩ :=
        branchSet_call hk (above_of_mem (h.next_mem hins (fallsThrough_call hk)))
      rw [hset]
      exact iff_of_true (List.cons_ne_nil _ _) (Or.inr (Or.inl hk.2.1))
  | ret =>
      rw [branchSet_ret hk]
      simp [Transfers, hk.2.2]

/-- The exits of a regular branch with targets in the routine. -/
theorem exitsAt_regular {m : JumpMaps ws} {nextIns : Option (RtnIns ws)} {target : Addr ws}
    {others : List (Addr ws)} (hset : m.branches.getD ins.address [] = target :: others)
    (habove : 5 < target) (starting : Addr ws) :
    exitsAt m ins nextIns starting = regularExits target others nextIns starting := by
  have hflag := not_isFlag_of_above habove
  rw [exitsAt]
  rw [hset]
  simp only
  rw [if_neg fun h => hflag (Or.inl h), if_neg (ne_two_of_above habove),
    if_neg fun h => hflag (Or.inr (Or.inl h)), if_neg fun h => hflag (Or.inr (Or.inr h))]

/-- An unconditional jump to the start of the block it ends is given the next
instruction as well, as if it were conditional. -/
theorem IsDirect.exitsAt_jump (h : IsDirect r) (hins : ins ∈ r.instructions)
    (hk : OfKind ins .jump) (nextIns : Option (RtnIns ws)) (starting : Addr ws) :
    exitsAt (jumpMaps r) ins nextIns starting
      = if ins.targetAddress = starting then
          nextIns.map fun fallThrough => [.direct fallThrough.address, .direct ins.targetAddress]
        else some [.direct ins.targetAddress] :=
  exitsAt_regular ((branches_jumpMaps hins).trans (branchSet_jump hk))
    (above_of_mem (h.targets ins hins hk.1)) starting

/-- The exits of every other branch are the ways control can take. -/
theorem IsDirect.exitsAt_flow (h : IsDirect r) {before after : List (RtnIns ws)}
    (hr : r.instructions = before ++ ins :: after) (ht : Transfers ins) {starting : Addr ws}
    (hstart : starting ∈ (before ++ [ins]).map RtnIns.address)
    (hjump : OfKind ins .jump → ins.targetAddress ≠ starting) :
    ∃ exits, exitsAt (jumpMaps r) ins after.head? starting = some exits
      ∧ ∀ a, (∃ e ∈ exits, e.to? = some a) ↔ PassesTo ins a := by
  have hins : ins ∈ r.instructions := by
    rw [hr]
    exact List.mem_append_right _ List.mem_cons_self
  have hset := branches_jumpMaps hins
  obtain ⟨k, hk⟩ := h.kinds ins hins
  cases k with
  | plain =>
      rcases ht with ht | ht | ht
      · exact absurd (ht.symm.trans hk.1) nofun
      · exact absurd (ht.symm.trans hk.2.1) nofun
      · exact absurd (ht.symm.trans hk.2.2) nofun
  | jump =>
      refine ⟨[.direct ins.targetAddress], ?_, fun a => ?_⟩
      · rw [h.exitsAt_jump hins hk, if_neg (hjump hk)]
      · rw [passesTo_jump hk]
        simp [Exit.to?, eq_comm]
  | condJump =>
      have hfall := h.fallsThrough hins (Or.inl hk.1) hk.2.2.2.2
      have hnext := above_of_mem (h.next_mem hins hfall)
      have htarget := above_of_mem (h.targets ins hins hk.1)
      simp only [passesTo_condJump hk]
      rw [branchSet_condJump hk] at hset
      -- the targets stand in the set in order, or are one
      by_cases hlt : ins.nextAddress < ins.targetAddress
      · rw [if_pos hlt] at hset
        refine ⟨_, exitsAt_regular hset hnext starting, fun a => ?_⟩
        simp [Exit.to?, eq_comm]
      · rw [if_neg hlt] at hset
        by_cases heq : ins.nextAddress = ins.targetAddress
        · -- one target only, but it is not the start of the block
          rw [if_pos heq] at hset
          have hne : ins.targetAddress ≠ starting := by
            rintro rfl
            obtain ⟨nextIns, hn, hnaddr⟩ := h.followed before ins after hr hfall
            refine notMem_of_append (hr.trans (List.append_cons ..)) hstart ?_
            rw [← heq, ← hnaddr]
            exact List.mem_map_of_mem (List.mem_of_mem_head? hn)
          refine ⟨[.direct ins.targetAddress], ?_, fun a => ?_⟩
          · rw [exitsAt_regular hset htarget starting]
            exact if_neg hne
          · simp [Exit.to?, heq, eq_comm]
        · rw [if_neg heq] at hset
          refine ⟨_, exitsAt_regular hset htarget starting, fun a => ?_⟩
          simp [Exit.to?, eq_comm, or_comm]
  | call =>
      have hfall := fallsThrough_call hk
      obtain ⟨nextIns, hn, hnaddr⟩ := h.followed before ins after hr hfall
      obtain ⟨others, hcall⟩ := branchSet_call hk (above_of_mem (h.next_mem hins hfall))
      rw [hcall] at hset
      refine ⟨[.call 1 nextIns.address], ?_, fun a => ?_⟩
      · rw [exitsAt]
        rw [hset, hn]
        exact if_pos rfl
      · rw [passesTo_call hk, hnaddr]
        simp [Exit.to?, eq_comm]
  | ret =>
      rw [branchSet_ret hk] at hset
      refine ⟨[.direct 2], ?_, fun a => ?_⟩
      · rw [exitsAt]
        rw [hset]
        exact (if_neg fun heq => not_isFlag_two (Or.inl heq)).trans (if_pos rfl)
      · rw [passesTo_ret hk]
        simp [Exit.to?, eq_comm]

/-- A target of the routine: a jump goes there, or it follows a conditional
jump, or a call that the decoder lets fall through. -/
def IsTarget (r : Routine ws) (a : Addr ws) : Prop := ∃ ins ∈ r.instructions, Targets ins a

/-- The first instruction passes control to the second, or falls through; behind
a call the second is a target. -/
structure HeadPassesOn (r : Routine ws) : Prop where
  ret : r.head.isRet = false
  jump : r.head.isBranch = true → r.tail.head?.map RtnIns.address = some r.head.targetAddress
  call : r.head.isCall = true → IsTarget r r.head.nextAddress

/-- An unconditional jump closes a straight line of instructions: it goes back
to the first one, none before the jump transfers control, and none after the
first is a target. -/
def JumpsToOwnStart (r : Routine ws) : Prop :=
  ∃ before line jump after, r.instructions = before ++ (line ++ jump :: after)
    ∧ OfKind jump .jump
    ∧ (line ++ [jump]).head?.map RtnIns.address = some jump.targetAddress
    ∧ (∀ ins ∈ line, ¬ Transfers ins)
    ∧ ∀ ins ∈ (line ++ [jump]).tail, ¬ IsTarget r ins.address

/-- The line starts at an instruction that transfers no control, unless it is
the jump itself. -/
theorem JumpsToOwnStart.start (h : JumpsToOwnStart r) :
    ∃ start ∈ r.instructions, ∃ jump ∈ r.instructions, OfKind jump .jump
      ∧ start.address = jump.targetAddress ∧ (start = jump ∨ ¬ Transfers start) := by
  obtain ⟨before, line, jump, after, hr, hk, hstart, hplain, -⟩ := h
  have hmem : ∀ i ∈ line ++ [jump], i ∈ r.instructions := by
    intro i hi
    rw [hr, List.append_cons line]
    exact List.mem_append_right _ (List.mem_append_left _ hi)
  obtain ⟨start, hhead, heq⟩ := Option.map_eq_some_iff.mp hstart
  have hstartMem := List.mem_of_mem_head? hhead
  refine ⟨start, hmem start hstartMem, jump,
    hmem jump (List.mem_append_right _ List.mem_cons_self), hk, heq, ?_⟩
  rcases List.mem_append.mp hstartMem with hline | hjump
  · exact Or.inr (hplain start hline)
  · exact Or.inl (List.mem_singleton.mp hjump)

/-! ## When the condition holds -/

/-- The exits of a span are the control flow of its last instruction, and only
that one transfers control. -/
structure SpanFlow (r : Routine ws) (s : Span ws) : Prop where
  leaves : ∀ a, s.LeavesFor a ↔ Flow r s.ending a
  ends : ∀ ins ∈ r.instructions, Transfers ins → ins.address ∈ s.members →
    s.ending = ins.address

/-- The span holds a straight line that ends with `ins`. -/
def OnLine (r : Routine ws) (done : List (RtnIns ws)) (ins : RtnIns ws) (s : Span ws) : Prop :=
  ∃ before line, done = before ++ line
    ∧ (line ++ [ins]).head?.map RtnIns.address = some s.starting
    ∧ s.members = ((line ++ [ins]).map RtnIns.address).reverse
    ∧ (∀ i ∈ line, ¬ Transfers i)
    ∧ ∀ i ∈ (line ++ [ins]).tail, ¬ IsTarget r i.address

/-- Between two turns: the span under construction is a straight line. -/
def Ready (r : Routine ws) (done : List (RtnIns ws)) (previous : RtnIns ws)
    (current : Option (Span ws)) : Prop :=
  ∀ s ∈ current, OnLine r done previous s ∧ ¬ Transfers previous

variable {done rest : List (RtnIns ws)} {previous : RtnIns ws} {s : Span ws}
  {current : Option (Span ws)}

theorem onLine_openAt (r : Routine ws) (done : List (RtnIns ws)) (ins : RtnIns ws) :
    OnLine r done ins (.openAt ins.address) :=
  ⟨done, [], (List.append_nil _).symm, rfl, rfl, nofun, nofun⟩

/-- An instruction that is no target goes on with the line. -/
theorem OnLine.add (h : OnLine r done previous s) (hplain : ¬ Transfers previous)
    (ht : ¬ IsTarget r ins.address) :
    OnLine r (done ++ [previous]) ins (s.add ins.address) := by
  obtain ⟨before, line, rfl, hhead, hmem, hline, htail⟩ := h
  refine ⟨before, line ++ [previous], List.append_assoc .., ?_, ?_, fun i hi => ?_, fun i hi => ?_⟩
  · cases line with
    | nil => exact hhead
    | cons i line => exact hhead
  · simp [Span.add, hmem]
  · rcases List.mem_append.mp hi with hi | hi
    · exact hline i hi
    · rw [List.mem_singleton.mp hi]
      exact hplain
  · have htails : (line ++ [previous] ++ [ins]).tail = (line ++ [previous]).tail ++ [ins] := by
      cases line <;> rfl
    rw [htails] at hi
    rcases List.mem_append.mp hi with hi | hi
    · exact htail i hi
    · rw [List.mem_singleton.mp hi]
      exact ht

/-- The members of a line that transfer control: its last instruction at most. -/
theorem OnLine.transfers (h : OnLine r done ins s) (hr : r.instructions = done ++ ins :: rest)
    {i : RtnIns ws} (hi : i ∈ r.instructions) (ht : Transfers i) (hmem : i.address ∈ s.members) :
    i = ins := by
  obtain ⟨before, line, rfl, -, hmembers, hline, -⟩ := h
  rw [hmembers, List.mem_reverse] at hmem
  obtain ⟨j, hj, heq⟩ := List.mem_map.mp hmem
  have hsub : j ∈ r.instructions := by
    rw [hr]
    rcases List.mem_append.mp hj with hj | hj
    · exact List.mem_append_left _ (List.mem_append_right _ hj)
    · rw [List.mem_singleton.mp hj]
      exact List.mem_append_right _ List.mem_cons_self
  have hsame : j = i := List.inj_on_of_nodup_map r.nodup hsub hi heq
  subst hsame
  rcases List.mem_append.mp hj with hj | hj
  · exact absurd ht (hline j hj)
  · exact List.mem_singleton.mp hj

theorem OnLine.starting_mem (h : OnLine r done ins s) :
    s.starting ∈ (done ++ [ins]).map RtnIns.address := by
  obtain ⟨before, line, rfl, hhead, -⟩ := h
  obtain ⟨i, hi, heq⟩ := Option.map_eq_some_iff.mp hhead
  rw [← heq, List.append_assoc]
  exact List.mem_map_of_mem (List.mem_append_right _ (List.mem_of_mem_head? hi))

/-- The span ends at a jump, call or return, or goes on. -/
theorem IsDirect.spanAtBranch_flow (h : IsDirect r) (hown : ¬ JumpsToOwnStart r)
    (hr : r.instructions = done ++ ins :: rest) (hline : OnLine r done ins s) :
    ∃ current ended, spanAtBranch (jumpMaps r) ins rest.head? s = some (current, ended)
      ∧ (∀ s ∈ ended, SpanFlow r s) ∧ Ready r done ins current := by
  have hins : ins ∈ r.instructions := by
    rw [hr]
    exact List.mem_append_right _ List.mem_cons_self
  rw [spanAtBranch]
  by_cases ht : Transfers ins
  · have hjump : OfKind ins .jump → ins.targetAddress ≠ s.starting := by
      rintro hk heq
      obtain ⟨before, line, rfl, hhead, -, hplain, htail⟩ := hline
      refine hown ⟨before, line, ins, rest, ?_, hk, heq ▸ hhead, hplain, htail⟩
      rw [hr, List.append_assoc]
    obtain ⟨exits, hexits, hleaves⟩ := h.exitsAt_flow hr ht hline.starting_mem hjump
    rw [if_pos ((h.branches_ne_nil hins).mpr ht), hexits]
    refine ⟨none, [s.endAt ins.address exits], rfl, fun s' hs' => ?_, fun s' hs' => by cases hs'⟩
    rw [List.mem_singleton.mp hs']
    refine ⟨fun a => ?_, fun i hi hti hmem => ?_⟩
    · exact (hleaves a).trans (flow_iff hins).symm
    · rw [hline.transfers hr hi hti hmem]
      rfl
  · rw [if_neg fun hne => ht ((h.branches_ne_nil hins).mp hne)]
    refine ⟨some s, [], rfl, fun s' hs' => ?_, fun s' hs' => ?_⟩
    · cases hs'
    · cases hs'
      exact ⟨hline, ht⟩

/-- What follows an instruction that does not transfer control. -/
theorem IsDirect.next_eq (h : IsDirect r) (hr : r.instructions = done ++ previous :: ins :: rest)
    (hfall : FallsThrough previous) : ins.address = previous.nextAddress := by
  obtain ⟨nextIns, hnext, heq⟩ := h.followed done previous (ins :: rest) hr hfall
  cases hnext
  exact heq

theorem fallsThrough_of_plain (hplain : ¬ Transfers ins) : FallsThrough ins :=
  ⟨Bool.eq_false_of_not_eq_true fun hr => hplain (Or.inr (Or.inr hr)),
    fun hb => absurd (Or.inl hb) hplain⟩

theorem passesTo_of_plain (hplain : ¬ Transfers ins) {a : Addr ws} :
    PassesTo ins a ↔ a = ins.nextAddress := by
  constructor
  · rintro (⟨hb, -⟩ | ⟨-, ha⟩ | ⟨hr, -⟩)
    · exact absurd (Or.inl hb) hplain
    · exact ha
    · exact absurd (Or.inr (Or.inr hr)) hplain
  · intro ha
    exact Or.inr (Or.inl ⟨fallsThrough_of_plain hplain, ha⟩)

/-- A span split off at a target has one exit, the target. -/
theorem spanFlow_split (hline : OnLine r done previous s)
    (hr : r.instructions = done ++ previous :: ins :: rest)
    (hpass : ∀ a, PassesTo previous a ↔ a = ins.address) :
    SpanFlow r (s.endAt previous.address [.direct ins.address]) := by
  have hprev : previous ∈ r.instructions := by
    rw [hr]
    exact List.mem_append_right _ List.mem_cons_self
  refine ⟨fun a => ?_, fun i hi hti hmem => ?_⟩
  · show (∃ e ∈ [Exit.direct ins.address], e.to? = some a) ↔ Flow r previous.address a
    rw [flow_iff hprev, hpass]
    simp [Exit.to?, eq_comm]
  · rw [hline.transfers hr hi hti hmem]
    rfl

/-- One turn of the loop. -/
theorem IsDirect.spanStep_flow (h : IsDirect r) (hown : ¬ JumpsToOwnStart r)
    (hr : r.instructions = done ++ previous :: ins :: rest)
    (hready : Ready r done previous current) :
    ∃ current' ended, spanStep (jumpMaps r) previous ins rest.head? current
        = some (current', ended)
      ∧ (∀ s ∈ ended, SpanFlow r s) ∧ Ready r (done ++ [previous]) ins current' := by
  have hr' : r.instructions = (done ++ [previous]) ++ ins :: rest :=
    hr.trans (List.append_cons ..)
  have hstart := h.spanAtBranch_flow hown hr' (onLine_openAt r _ ins)
  cases current with
  | none => exact hstart
  | some s =>
      obtain ⟨hline, hplain⟩ := hready s rfl
      rw [spanStep]
      by_cases ht : (jumpMaps r).targets.getD ins.address [] ≠ []
      · rw [if_pos ht]
        obtain ⟨current', ended, hrun, hended, hready'⟩ := hstart
        rw [hrun]
        refine ⟨current', _, rfl, fun s' hs' => ?_, hready'⟩
        rcases List.mem_cons.mp hs' with rfl | hs'
        · refine spanFlow_split hline hr fun a => ?_
          rw [passesTo_of_plain hplain, h.next_eq hr (fallsThrough_of_plain hplain)]
        · exact hended s' hs'
      · rw [if_neg ht]
        exact h.spanAtBranch_flow hown hr'
          (hline.add hplain fun htarget => ht (targets_jumpMaps.mpr htarget))

/-- The loop. -/
theorem IsDirect.spanLoop_flow (h : IsDirect r) (hown : ¬ JumpsToOwnStart r)
    (hr : r.instructions = done ++ previous :: rest) (hready : Ready r done previous current) :
    ∃ spans, spanLoop (jumpMaps r) previous rest current = some spans
      ∧ ∀ s ∈ spans, SpanFlow r s := by
  induction rest generalizing done previous current with
  | nil =>
      cases current with
      | none => exact ⟨[], rfl, nofun⟩
      | some s =>
          -- the last instruction of a direct routine does not fall through
          obtain ⟨-, hplain⟩ := hready s rfl
          obtain ⟨nextIns, hnext, -⟩ :=
            h.followed done previous [] hr (fallsThrough_of_plain hplain)
          exact nomatch hnext
  | cons ins rest ih =>
      obtain ⟨current', ended, hstep, hended, hready'⟩ := h.spanStep_flow hown hr hready
      obtain ⟨later, hlater, hflow⟩ := ih (hr.trans (List.append_cons ..)) hready'
      refine ⟨ended ++ later, ?_, fun s hs => ?_⟩
      · rw [spanLoop, hstep]
        show (spanLoop (jumpMaps r) ins rest current').bind _ = _
        rw [hlater]
        rfl
      · exact (List.mem_append.mp hs).elim (hended s) (hflow s)

/-- What the first instruction passes control to, if only to the second. -/
theorem IsDirect.head_passesTo (h : IsDirect r) (hhead : HeadPassesOn r) :
    ∃ second rest, r.tail = second :: rest ∧ ∀ a, PassesTo r.head a ↔ a = second.address := by
  have hins : r.head ∈ r.instructions := List.mem_cons_self
  have hfall : FallsThrough r.head → ∃ second rest, r.tail = second :: rest
      ∧ second.address = r.head.nextAddress := by
    intro hfall
    obtain ⟨second, hsecond, heq⟩ := h.followed [] r.head r.tail rfl hfall
    obtain ⟨rest, hrest⟩ := List.head?_eq_some_iff.mp hsecond
    exact ⟨second, rest, hrest, heq⟩
  have htarget : r.head.isBranch = true → ∃ second rest, r.tail = second :: rest
      ∧ second.address = r.head.targetAddress := by
    intro hb
    obtain ⟨second, hsecond, heq⟩ := Option.map_eq_some_iff.mp (hhead.jump hb)
    obtain ⟨rest, hrest⟩ := List.head?_eq_some_iff.mp hsecond
    exact ⟨second, rest, hrest, heq⟩
  obtain ⟨k, hk⟩ := h.kinds _ hins
  -- each kind of instruction falls through, jumps, or does both to one place
  cases k with
  | plain =>
      obtain ⟨second, rest, hrest, heq⟩ := hfall ⟨hk.2.2, fun hb => nomatch hb.symm.trans hk.1⟩
      refine ⟨second, rest, hrest, fun a => ?_⟩
      rw [passesTo_plain hk, heq]
  | jump =>
      obtain ⟨second, rest, hrest, heq⟩ := htarget hk.1
      refine ⟨second, rest, hrest, fun a => ?_⟩
      rw [passesTo_jump hk, heq]
  | condJump =>
      obtain ⟨second, rest, hrest, heq⟩ := htarget hk.1
      obtain ⟨second', rest', hrest', heq'⟩ := hfall ⟨hk.2.2.1, fun _ => hk.2.2.2.2⟩
      cases hrest.symm.trans hrest'
      refine ⟨second, rest, hrest, fun a => ?_⟩
      rw [passesTo_condJump hk, ← heq, ← heq', or_self]
  | call =>
      obtain ⟨second, rest, hrest, heq⟩ := hfall (fallsThrough_call hk)
      refine ⟨second, rest, hrest, fun a => ?_⟩
      rw [passesTo_call hk, heq]
  | ret => exact nomatch hhead.ret.symm.trans hk.2.2

/-- What a first instruction that transfers control passes it to is a target. -/
theorem IsDirect.isTarget_of_head (h : IsDirect r) (hhead : HeadPassesOn r)
    (ht : Transfers r.head) {a : Addr ws} (ha : PassesTo r.head a) : IsTarget r a := by
  have hins : r.head ∈ r.instructions := List.mem_cons_self
  obtain ⟨k, hk⟩ := h.kinds _ hins
  cases k with
  | plain => exact absurd ht (by simp [Transfers, hk.1, hk.2.1, hk.2.2])
  | jump => exact ⟨_, hins, Or.inl ⟨hk.1, hk.2.2.2.1, (passesTo_jump hk).mp ha⟩⟩
  | condJump =>
      rcases (passesTo_condJump hk).mp ha with ha | ha
      · exact ⟨_, hins, Or.inl ⟨hk.1, hk.2.2.2.1, ha⟩⟩
      · exact ⟨_, hins, Or.inr ⟨Or.inl hk.1, hk.2.2.2.2, ha⟩⟩
  | call =>
      rw [(passesTo_call hk).mp ha]
      exact hhead.call hk.2.1
  | ret => exact nomatch hhead.ret.symm.trans hk.2.2

/-- Under the condition, every span is the control flow of its instructions. -/
theorem IsDirect.spansOf_flow (h : IsDirect r) (hhead : HeadPassesOn r)
    (hown : ¬ JumpsToOwnStart r) :
    ∃ spans, spansOf r = some spans ∧ ∀ s ∈ spans, SpanFlow r s := by
  by_cases ht : Transfers r.head
  · -- the second instruction is a target, and splits the first one off
    obtain ⟨second, rest, hrest, hpass⟩ := h.head_passesTo hhead
    have hr : r.instructions = [] ++ r.head :: second :: rest := congrArg (r.head :: ·) hrest
    have htarget : (jumpMaps r).targets.getD second.address [] ≠ [] :=
      targets_jumpMaps.mpr (h.isTarget_of_head hhead ht ((hpass _).mpr rfl))
    have hr' : r.instructions = [r.head] ++ second :: rest := hr
    obtain ⟨current, ended, hrun, hended, hready⟩ :=
      h.spanAtBranch_flow hown hr' (onLine_openAt r [r.head] second)
    obtain ⟨later, hlater, hflow⟩ := h.spanLoop_flow hown hr' hready
    have hfirst := spanFlow_split (onLine_openAt r [] r.head) hr hpass
    refine ⟨(Span.openAt r.head.address).endAt r.head.address [.direct second.address] :: ended
      ++ later, ?_, fun s hs => ?_⟩
    · rw [spansOf, hrest, spanLoop, spanStep, if_pos htarget, hrun]
      show (spanLoop (jumpMaps r) second rest current).bind _ = _
      rw [hlater]
      rfl
    · rcases List.mem_append.mp hs with hs | hs
      · rcases List.mem_cons.mp hs with rfl | hs
        · exact hfirst
        · exact hended s hs
      · exact hflow s hs
  · have hready : Ready r [] r.head (some (.openAt r.head.address)) := by
      intro s hs
      cases hs
      exact ⟨onLine_openAt r [] r.head, ht⟩
    exact h.spanLoop_flow hown rfl hready

/-! ## The graph of the spans -/

/-- A block starts at `a`: a span, or the return node. -/
def Named (spans : List (Span ws)) (a : Addr ws) : Prop := a = 2 ∨ ∃ s ∈ spans, s.starting = a

/-- The spans are the control flow, as far as the graph shows it. -/
structure SpansFlow (r : Routine ws) (spans : List (Span ws)) : Prop where
  leaves : ∀ s ∈ spans, ∀ a, Named spans a → (s.LeavesFor a ↔ Flow r s.ending a)
  ends : ∀ s ∈ spans, ∀ ins ∈ r.instructions, Transfers ins → ins.address ∈ s.members →
    s.ending = ins.address

/-- The targets of a routine wait for their instruction. -/
def Awaited (r : Routine ws) (a : Addr ws) : Prop := (jumpMaps r).targets.getD a [] ≠ []

variable {g : RoutineGraph ws} {spans : List (Span ws)} {laid : Layout ws}

/-- A direct routine has the flag of direct calls only. -/
theorem IsDirect.foreseen (h : IsDirect r) (hins : ins ∈ r.instructions) :
    Foreseen (jumpMaps r) (· = 1) (Awaited r) ins := by
  intro target others hset
  have hwant : ∀ {a : Addr ws}, Targets ins a → Awaited r a := fun ha =>
    targets_jumpMaps.mpr ⟨ins, hins, ha⟩
  rw [branches_jumpMaps hins] at hset
  obtain ⟨k, hk⟩ := h.kinds ins hins
  cases k with
  | plain =>
      rw [branchSet_plain hk] at hset
      exact nomatch hset
  | jump =>
      rw [branchSet_jump hk] at hset
      cases hset
      refine ⟨fun hf => absurd hf (not_isFlag_of_above (above_of_mem (h.targets ins hins hk.1))),
        fun _ _ a ha => ?_⟩
      rw [List.mem_singleton.mp ha]
      exact hwant (Or.inl ⟨hk.1, hk.2.2.2.1, rfl⟩)
  | condJump =>
      have hfall := h.fallsThrough hins (Or.inl hk.1) hk.2.2.2.2
      -- the set has the target and the next address at most
      have hmem : ∀ a ∈ target :: others, a = ins.targetAddress ∨ a = ins.nextAddress := by
        intro a ha
        obtain ⟨-, hc, hr, hd, -⟩ := hk
        rw [← hset, mem_branchSet, hc, hr, hd, if_pos rfl] at ha
        rcases ha with ⟨hret, -⟩ | ⟨hcall, -⟩ | ⟨-, ⟨-, hnext⟩ | htarget⟩ | hnil
        · exact nomatch hret
        · exact nomatch hcall
        · exact Or.inr hnext
        · exact Or.inl htarget
        · exact nomatch hnil
      refine ⟨fun hf => ?_, fun _ _ a ha => ?_⟩
      · rcases hmem target List.mem_cons_self with heq | heq
        · rw [heq] at hf
          exact absurd hf (not_isFlag_of_above (above_of_mem (h.targets ins hins hk.1)))
        · rw [heq] at hf
          exact absurd hf (not_isFlag_of_above (above_of_mem (h.next_mem hins hfall)))
      · rcases hmem a ha with heq | heq
        · exact hwant (Or.inl ⟨hk.1, hk.2.2.2.1, heq⟩)
        · exact hwant (Or.inr ⟨Or.inl hk.1, hk.2.2.2.2, heq⟩)
  | call =>
      obtain ⟨others', hcall⟩ :=
        branchSet_call hk (above_of_mem (h.next_mem hins (fallsThrough_call hk)))
      rw [hcall] at hset
      cases hset
      exact ⟨fun _ => rfl, fun hn => absurd (Or.inl rfl) hn⟩
  | ret =>
      rw [branchSet_ret hk] at hset
      cases hset
      exact ⟨fun hf => absurd hf not_isFlag_two, fun _ hn => absurd rfl hn⟩

/-- The builder lays out the spans of a direct routine. -/
theorem IsDirect.lays (h : IsDirect r) :
    Related (Lays (· = 1) (Awaited r)) (blockBuilder r) (spansOf r) :=
  blockBuilder_lays (fun _ hins => h.foreseen (List.mem_cons_of_mem _ hins)) fun _ _ => Iff.rfl

/-- The graph lays out the spans of the routine, all of them ended. -/
structure Drawn (r : Routine ws) (g : RoutineGraph ws) (spans : List (Span ws))
    (laid : Layout ws) : Prop where
  layout : Laid (· = 1) (Awaited r) none laid g
  mem : ∀ s, s ∈ spans ↔ ∃ b, (b, s) ∈ laid
  held : ∀ a ∈ r.instructions.map RtnIns.address, Held laid a
  awaited : ∀ a, Awaited r a → Held laid a

theorem IsDirect.drawn (h : IsDirect r) (hspans : spansOf r = some spans)
    (hl : Lays (· = 1) (Awaited r) g spans) : ∃ laid, Drawn r g spans laid := by
  obtain ⟨laid, hlaid, hl⟩ := hl
  have hmem : ∀ s, s ∈ spans ↔ ∃ b, (b, s) ∈ laid := by
    intro s
    rw [← List.mem_reverse, ← hlaid, List.mem_map]
    exact ⟨fun ⟨p, hp, heq⟩ => ⟨p.1, heq ▸ hp⟩, fun ⟨b, hb⟩ => ⟨_, hb, rfl⟩⟩
  have hheld : ∀ a ∈ r.instructions.map RtnIns.address, Held laid a := by
    intro a ha
    obtain ⟨s, hs, hsa⟩ := mem_spansOf hspans ha
    obtain ⟨b, hb⟩ := (hmem s).mp hs
    exact ⟨_, hb, hsa⟩
  exact ⟨laid, hl, hmem, hheld, fun a ha => hheld a (h.target_mem ha)⟩

/-- Nothing waits in a graph that is drawn. -/
theorem Drawn.address_cases (h : Drawn r g spans laid) {x : Addr ws} {c : BlockId}
    (hx : g.addressMap[x]? = some c) : x = 2 ∨ Held laid x := by
  by_contra hn
  obtain ⟨h2, hheld⟩ := not_or.mp hn
  obtain ⟨-, -, -, hwait | hnone⟩ := h.layout.waiting x c hheld h2 hx
  · exact hheld (h.awaited x hwait)
  · exact nomatch hnone

/-- A block outside calls is the return node or a span's. -/
theorem Drawn.block_cases (h : Drawn r g spans laid) {c : BlockId} (hc : c < g.next)
    (hcall : ¬ IsCallBlock g c) : c = g.returnNode ∨ ∃ s, (c, s) ∈ laid := by
  rcases h.layout.block_cases (fun _ _ => h.address_cases) hc with
    ⟨-, hflag⟩ | hret | ⟨p, hp, rfl⟩
  · exact absurd (Or.inl hflag) hcall
  · exact Or.inl hret
  · exact Or.inr ⟨p.2, hp⟩

/-- Such a block is at its starting address. -/
theorem Drawn.starting (h : Drawn r g spans laid) {c : BlockId} (hc : c < g.next)
    (hcall : ¬ IsCallBlock g c) :
    g.addressMap[(g.blocks c).startingAddress]? = some c
      ∧ (g.blocks c).startingAddress ≠ 0 ∧ Named spans (g.blocks c).startingAddress := by
  rcases h.block_cases hc hcall with rfl | ⟨s, hs⟩
  · rw [h.layout.return_block.1]
    refine ⟨h.layout.return_address, ?_, Or.inl rfl⟩
    cases ws <;> decide
  · have hb := h.layout.isBlock _ hs
    rw [hb.starting]
    refine ⟨hb.members _ hb.starting_mem, fun hzero => ?_,
      Or.inr ⟨s, (h.mem s).mpr ⟨c, hs⟩, rfl⟩⟩
    have habove := h.layout.above _ hs _ hb.starting_mem
    rw [hzero] at habove
    revert habove
    cases ws <;> decide

/-- The block of a span is no call's. -/
theorem Drawn.span_block (h : Drawn r g spans laid) {b : BlockId} (hb : (b, s) ∈ laid) :
    b < g.next ∧ ¬ IsCallBlock g b := by
  have hblock := h.layout.isBlock _ hb
  have hmapped := hblock.members _ hblock.starting_mem
  exact ⟨h.layout.lt _ _ hmapped, fun hcall => h.layout.not_isFlag hmapped (hcall.imp_right Or.inl)⟩

theorem Drawn.named (h : Drawn r g spans laid) {a : Addr ws} (ha : Named spans a) :
    ∃ c < g.next, ¬ IsCallBlock g c ∧ (g.blocks c).startingAddress = a := by
  rcases ha with rfl | ⟨s, hs, rfl⟩
  · refine ⟨g.returnNode, h.layout.lt _ _ h.layout.return_address, fun hcall => ?_,
      h.layout.return_block.1⟩
    exact h.layout.not_isFlag h.layout.return_address (hcall.imp_right Or.inl)
  · obtain ⟨b, hb⟩ := (h.mem s).mp hs
    obtain ⟨hlt, hcall⟩ := h.span_block hb
    exact ⟨b, hlt, hcall, (h.layout.isBlock _ hb).starting⟩

/-- The graph is the control flow when its spans are. -/
theorem Drawn.isControlFlow_iff (h : Drawn r g spans laid) :
    IsControlFlow r g ↔ SpansFlow r spans := by
  -- edges are the exits of the spans, and blocks end where they do
  have hedge : ∀ {b c s}, (b, s) ∈ laid → c < g.next → ¬ IsCallBlock g c →
      (Successor g b c ↔ s.LeavesFor (g.blocks c).startingAddress) := by
    intro b c s hb hc hcall
    obtain ⟨hmapped, hzero, -⟩ := h.starting hc hcall
    exact h.layout.successor_iff hb hmapped hzero
  have hending : ∀ {b s}, (b, s) ∈ laid → (g.blocks b).endingAddress = s.ending := fun hb =>
    (h.layout.isBlock _ hb).ending
  constructor
  · intro hflow
    refine ⟨fun s hs a ha => ?_, fun s hs ins hins ht hmem => ?_⟩
    · obtain ⟨b, hb⟩ := (h.mem s).mp hs
      obtain ⟨hlt, hcall⟩ := h.span_block hb
      obtain ⟨c, hc, hccall, rfl⟩ := h.named ha
      rw [← hedge hb hc hccall, ← hending hb]
      exact hflow.edges b c hlt hc hcall hccall
    · obtain ⟨b, hb⟩ := (h.mem s).mp hs
      obtain ⟨b', hb', hend⟩ := hflow.ends ins hins ht
      cases ((h.layout.isBlock _ hb).members _ hmem).symm.trans hb'
      rw [← hending hb]
      exact hend
  · intro hflow
    refine ⟨fun b c hlt hc hcall hccall => ?_, fun ins hins ht => ?_⟩
    · rcases h.block_cases hlt hcall with rfl | ⟨s, hb⟩
      · -- nothing leaves the return node, and no instruction is at 2
        obtain ⟨-, hend, hsuccs⟩ := h.layout.return_block
        rw [Successor, hend, hsuccs]
        refine iff_of_false ?_ ?_
        · rintro (hn | ⟨k, hn, -⟩)
          · exact nomatch hn
          · exact nomatch hn
        · rintro ⟨ins, hins, heq, -⟩
          exact ne_two_of_above (r.above ins hins) heq
      · rw [hedge hb hc hccall, hending hb]
        exact hflow.leaves s ((h.mem s).mpr ⟨b, hb⟩) _ (h.starting hc hccall).2.2
    · obtain ⟨p, hp, hmem⟩ := h.held _ (List.mem_map_of_mem hins)
      refine ⟨p.1, (h.layout.isBlock p hp).members _ hmem, ?_⟩
      rw [hending hp]
      exact hflow.ends p.2 ((h.mem p.2).mpr ⟨p.1, hp⟩) ins hins ht hmem

/-- The builder is right when the condition holds. -/
theorem IsDirect.builds (h : IsDirect r) (hhead : HeadPassesOn r) (hown : ¬ JumpsToOwnStart r) :
    BuildsControlFlow r := by
  obtain ⟨spans, hspans, hflow⟩ := h.spansOf_flow hhead hown
  have hlays := h.lays
  rw [hspans] at hlays
  obtain ⟨g, hrun, hl⟩ := related_some hlays
  obtain ⟨laid, hdrawn⟩ := h.drawn hspans hl
  refine ⟨g, hrun, hdrawn.isControlFlow_iff.mpr ⟨fun s hs a _ => (hflow s hs).leaves a, ?_⟩⟩
  exact fun s hs => (hflow s hs).ends

/-! ## When it does not hold -/

theorem Drawn.named_of_leadsTo (h : Drawn r g spans laid) {a : Addr ws} {k : BlockId}
    (hl : LeadsTo g a k) : Named spans a := by
  rcases h.address_cases hl.1 with rfl | ⟨p, hp, hmem⟩
  · exact Or.inl rfl
  · have hb := h.layout.isBlock p hp
    cases (hb.members a hmem).symm.trans hl.1
    have hzero := (h.starting (h.span_block hp).1 (h.span_block hp).2).2.1
    have hstart := hl.2.resolve_right hzero
    exact Or.inr ⟨p.2, (h.mem p.2).mpr ⟨p.1, hp⟩, hb.starting.symm.trans hstart⟩

/-- An exit leads to a block. -/
theorem Drawn.named_of_leavesFor (h : Drawn r g spans laid) (hs : s ∈ spans) {a : Addr ws}
    (ha : s.LeavesFor a) : Named spans a := by
  obtain ⟨b, hb⟩ := (h.mem s).mp hs
  obtain ⟨e, he, hto⟩ := ha
  obtain ⟨k, -, hl⟩ := (h.layout.isBlock _ hb).of_exit e he
  cases e with
  | direct a' =>
      cases Option.some.inj hto
      exact h.named_of_leadsTo hl
  | call flag a' =>
      cases Option.some.inj hto
      obtain ⟨-, -, -, j, hj, -⟩ := hl
      exact h.named_of_leadsTo hj
  | indirect => exact nomatch hto

/-- A target starts a block. -/
theorem Drawn.named_of_awaited (h : Drawn r g spans laid) {a : Addr ws} (ha : Awaited r a) :
    Named spans a := by
  obtain ⟨p, hp, hmem⟩ := h.awaited a ha
  exact Or.inr ⟨p.2, (h.mem p.2).mpr ⟨p.1, hp⟩, (h.layout.inner p hp a hmem ha).symm⟩

/-- A span that ends with the first instruction is split off by the second, which
is a target. -/
theorem span_of_head (hspans : spansOf r = some spans) (hs : s ∈ spans)
    (hend : s.ending = r.head.address) {second : RtnIns ws} {rest : List (RtnIns ws)}
    (htail : r.tail = second :: rest) :
    s = (Span.openAt r.head.address).endAt r.head.address [.direct second.address]
      ∧ Awaited r second.address := by
  have hnodup := (List.nodup_cons.mp r.nodup).1
  rw [spansOf, htail] at hspans
  rw [htail] at hnodup
  obtain ⟨current', ended, later, hstep, hlater, rfl⟩ := spanLoop_cons hspans
  -- a branch that comes later ends its span later
  have hbranch : ∀ {s₀ ended}, spanAtBranch (jumpMaps r) second rest.head? s₀
      = some (current', ended) → s ∉ ended := by
    intro s₀ ended hrun hmem
    rcases spanAtBranch_cases hrun with ⟨-, -, rfl⟩ | ⟨-, exits, -, -, rfl⟩
    · exact nomatch hmem
    · rw [List.mem_singleton.mp hmem] at hend
      exact hnodup (hend ▸ List.mem_cons_self)
  -- so only the target that follows can have ended it
  rcases List.mem_append.mp hs with hs | hs
  · rcases spanStep_cases hstep with
      ⟨hn, -⟩ | ⟨s₀, ended', hc, htarget, hrun, rfl⟩ | ⟨s₀, -, -, hrun⟩
    · exact nomatch hn
    · cases hc
      exact ⟨(List.mem_cons.mp hs).resolve_right (hbranch hrun), htarget⟩
    · exact absurd hs (hbranch hrun)
  · exact absurd (hend ▸ ending_mem hlater s hs) hnodup

/-- Such a span has the second instruction as its exit, whatever the first one
is. -/
theorem leavesFor_of_head (hspans : spansOf r = some spans) (hs : s ∈ spans)
    (hend : s.ending = r.head.address) (a : Addr ws) :
    s.LeavesFor a ↔ r.tail.head?.map RtnIns.address = some a := by
  cases htail : r.tail with
  | nil =>
      rw [spansOf, htail] at hspans
      cases hspans
      rw [List.mem_singleton.mp hs]
      exact iff_of_false nofun nofun
  | cons second rest =>
      rw [(span_of_head hspans hs hend htail).1]
      simp [Span.LeavesFor, Span.endAt, Exit.to?]

/-- The condition on the first instruction is needed. -/
theorem IsDirect.headPassesOn (h : IsDirect r) (hspans : spansOf r = some spans)
    (hdrawn : Drawn r g spans laid) (hflow : SpansFlow r spans) : HeadPassesOn r := by
  have hins : r.head ∈ r.instructions := List.mem_cons_self
  have hspan : Transfers r.head → ∃ s ∈ spans, s.ending = r.head.address := by
    intro ht
    obtain ⟨s, hs, hmem⟩ := mem_spansOf hspans (List.mem_map_of_mem hins)
    exact ⟨s, hs, hflow.ends s hs _ hins ht hmem⟩
  have hpass : Transfers r.head → ∀ a, Named spans a → PassesTo r.head a →
      r.tail.head?.map RtnIns.address = some a := by
    intro ht a ha hpass
    obtain ⟨s, hs, hend⟩ := hspan ht
    rw [← leavesFor_of_head hspans hs hend, hflow.leaves s hs a ha, hend]
    exact (flow_iff hins).mpr hpass
  refine ⟨?_, fun hb => ?_, fun hc => ?_⟩
  · by_contra hret
    have hret' : r.head.isRet = true := Bool.eq_true_of_not_eq_false hret
    obtain ⟨second, hsecond, heq⟩ := Option.map_eq_some_iff.mp
      (hpass (Or.inr (Or.inr hret')) 2 (Or.inl rfl) (Or.inr (Or.inr ⟨hret', rfl⟩)))
    have hmem : second ∈ r.instructions :=
      List.mem_cons_of_mem _ (List.mem_of_mem_head? hsecond)
    exact ne_two_of_above (r.above second hmem) heq
  · have htarget : Awaited r r.head.targetAddress :=
      targets_jumpMaps.mpr ⟨r.head, hins, Or.inl ⟨hb, h.direct hins hb, rfl⟩⟩
    exact hpass (Or.inl hb) _ (hdrawn.named_of_awaited htarget) (Or.inl ⟨hb, rfl⟩)
  · -- the block of the call ends with it, so what follows is a target
    obtain ⟨s, hs, hend⟩ := hspan (Or.inr (Or.inl hc))
    have hfall : FallsThrough r.head := by
      obtain ⟨k, hk⟩ := h.kinds _ hins
      cases k with
      | call => exact fallsThrough_call hk
      | plain => exact nomatch hc.symm.trans hk.2.1
      | jump => exact nomatch hc.symm.trans hk.2.1
      | condJump => exact nomatch hc.symm.trans hk.2.1
      | ret => exact nomatch hc.symm.trans hk.2.1
    obtain ⟨second, hsecond, heq⟩ := h.followed [] r.head r.tail rfl hfall
    obtain ⟨rest, hrest⟩ := List.head?_eq_some_iff.mp hsecond
    rw [← heq]
    exact targets_jumpMaps.mp (span_of_head hspans hs hend hrest).2

variable {spans' : List (Span ws)} {jump : RtnIns ws} {line after : List (RtnIns ws)}

/-- Some span ends with the jump and has the next instruction as an exit. -/
def FallsOut (jump : RtnIns ws) (after : List (RtnIns ws)) (spans : List (Span ws)) : Prop :=
  ∃ s ∈ spans, s.ending = jump.address
    ∧ ∃ nextIns, after.head? = some nextIns ∧ s.LeavesFor nextIns.address

theorem FallsOut.mono (h : FallsOut jump after spans) (hsub : ∀ s ∈ spans, s ∈ spans') :
    FallsOut jump after spans' := by
  obtain ⟨s, hs, hrest⟩ := h
  exact ⟨s, hsub s hs, hrest⟩

/-- An unconditional jump to the start of the span it ends falls out of it. -/
theorem IsDirect.fallsOut (h : IsDirect r) (hjump : jump ∈ r.instructions)
    (hk : OfKind jump .jump) (hstart : s.starting = jump.targetAddress) {current' ended}
    (hrun : spanAtBranch (jumpMaps r) jump after.head? s = some (current', ended)) :
    FallsOut jump after ended := by
  rcases spanAtBranch_cases hrun with ⟨hnil, -, -⟩ | ⟨-, exits, hexits, -, rfl⟩
  · exact absurd (Or.inl hk.1) (mt (h.branches_ne_nil hjump).mpr (not_not.mpr hnil))
  · rw [h.exitsAt_jump hjump hk, if_pos hstart.symm] at hexits
    obtain ⟨nextIns, hnext, rfl⟩ := Option.map_eq_some_iff.mp hexits
    exact ⟨_, List.mem_cons_self, rfl, nextIns, hnext, _, List.mem_cons_self, rfl⟩

/-- A straight line goes on with the span under construction, up to its jump. -/
theorem IsDirect.line_fallsOut (h : IsDirect r)
    (hmem : ∀ i ∈ line ++ [jump], i ∈ r.instructions) (hk : OfKind jump .jump)
    (hplain : ∀ i ∈ line, ¬ Transfers i) (ht : ∀ i ∈ line ++ [jump], ¬ IsTarget r i.address)
    (hstart : s.starting = jump.targetAddress)
    (hrun : spanLoop (jumpMaps r) previous (line ++ jump :: after) (some s) = some spans) :
    FallsOut jump after spans := by
  induction line generalizing previous s spans with
  | nil =>
      obtain ⟨current', ended, later, hstep, -, rfl⟩ := spanLoop_cons hrun
      rcases spanStep_cases hstep with
        ⟨hn, -⟩ | ⟨s₀, ended', -, htarget, -⟩ | ⟨s₀, hc, -, hbranch⟩
      · exact nomatch hn
      · exact absurd (targets_jumpMaps.mp htarget) (ht jump List.mem_cons_self)
      · cases hc
        have hstart' : (s.add jump.address).starting = jump.targetAddress := hstart
        exact (h.fallsOut (hmem jump List.mem_cons_self) hk hstart' hbranch).mono
          fun _ hs => List.mem_append_left _ hs
  | cons i line ih =>
      obtain ⟨current', ended, later, hstep, hlater, rfl⟩ := spanLoop_cons hrun
      have hi := hmem i List.mem_cons_self
      rcases spanStep_cases hstep with
        ⟨hn, -⟩ | ⟨s₀, ended', -, htarget, -⟩ | ⟨s₀, hc, -, hbranch⟩
      · exact nomatch hn
      · exact absurd (targets_jumpMaps.mp htarget) (ht i List.mem_cons_self)
      · cases hc
        rcases spanAtBranch_cases hbranch with ⟨-, rfl, rfl⟩ | ⟨hne, -⟩
        · have hstart' : (s.add i.address).starting = jump.targetAddress := hstart
          exact ih (fun j hj => hmem j (List.mem_cons_of_mem _ hj))
            (fun j hj => hplain j (List.mem_cons_of_mem _ hj))
            (fun j hj => ht j (List.mem_cons_of_mem _ hj)) hstart' hlater
        · exact absurd ((h.branches_ne_nil hi).mp hne) (hplain i List.mem_cons_self)

/-- A straight line that starts at a target starts a span of its own. -/
theorem IsDirect.target_fallsOut (h : IsDirect r)
    (hmem : ∀ i ∈ line ++ [jump], i ∈ r.instructions) (hk : OfKind jump .jump)
    (hplain : ∀ i ∈ line, ¬ Transfers i)
    (ht : ∀ i ∈ (line ++ [jump]).tail, ¬ IsTarget r i.address)
    (hstart : (line ++ [jump]).head?.map RtnIns.address = some jump.targetAddress)
    (hrun : spanLoop (jumpMaps r) previous (line ++ jump :: after) current = some spans) :
    FallsOut jump after spans := by
  have hjump : jump ∈ r.instructions :=
    hmem jump (List.mem_append_right _ List.mem_cons_self)
  have htarget : (jumpMaps r).targets.getD jump.targetAddress [] ≠ [] :=
    targets_jumpMaps.mpr ⟨jump, hjump, Or.inl ⟨hk.1, hk.2.2.2.1, rfl⟩⟩
  -- the turn at the target opens a span there, whatever came before
  have hopen : ∀ {i nextIns current' ended}, i.address = jump.targetAddress →
      spanStep (jumpMaps r) previous i nextIns current = some (current', ended) →
      ∃ ended', spanAtBranch (jumpMaps r) i nextIns (.openAt i.address) = some (current', ended')
        ∧ ∀ s ∈ ended', s ∈ ended := by
    intro i nextIns current' ended heq hstep
    rcases spanStep_cases hstep with
      ⟨-, hbranch⟩ | ⟨s₀, ended', -, -, hbranch, rfl⟩ | ⟨s₀, -, hnil, -⟩
    · exact ⟨ended, hbranch, fun _ hs => hs⟩
    · exact ⟨ended', hbranch, fun _ hs => List.mem_cons_of_mem _ hs⟩
    · exact absurd (heq ▸ hnil) htarget
  cases line with
  | nil =>
      obtain ⟨current', ended, later, hstep, -, rfl⟩ := spanLoop_cons hrun
      have heq : jump.address = jump.targetAddress := Option.some.inj hstart
      obtain ⟨ended', hbranch, hsub⟩ := hopen heq hstep
      exact (h.fallsOut hjump hk heq hbranch).mono
        fun s hs => List.mem_append_left _ (hsub s hs)
  | cons i line =>
      obtain ⟨current', ended, later, hstep, hlater, rfl⟩ := spanLoop_cons hrun
      have heq : i.address = jump.targetAddress := Option.some.inj hstart
      have hi := hmem i List.mem_cons_self
      obtain ⟨ended', hbranch, -⟩ := hopen heq hstep
      rcases spanAtBranch_cases hbranch with ⟨-, rfl, -⟩ | ⟨hne, -⟩
      · exact (h.line_fallsOut (fun j hj => hmem j (List.mem_cons_of_mem _ hj)) hk
          (fun j hj => hplain j (List.mem_cons_of_mem _ hj)) ht heq hlater).mono
            fun _ hs => List.mem_append_right _ hs
      · exact absurd ((h.branches_ne_nil hi).mp hne) (hplain i List.mem_cons_self)

/-- The condition on the other instructions is needed. -/
theorem IsDirect.not_jumpsToOwnStart (h : IsDirect r) (hspans : spansOf r = some spans)
    (hdrawn : Drawn r g spans laid) (hflow : SpansFlow r spans) : ¬ JumpsToOwnStart r := by
  rintro ⟨before, line, jump, after, hr, hk, hstart, hplain, ht⟩
  have hmem : ∀ i ∈ line ++ [jump], i ∈ r.instructions := by
    intro i hi
    rw [hr, List.append_cons line]
    exact List.mem_append_right _ (List.mem_append_left _ hi)
  have hjump := hmem jump (List.mem_append_right _ List.mem_cons_self)
  have hout : FallsOut jump after spans := by
    cases before with
    | nil =>
        cases line with
        | nil =>
            -- the first instruction would have to be the second as well
            cases hr
            have hhead := (h.headPassesOn hspans hdrawn hflow).jump hk.1
            obtain ⟨second, hsecond, heq⟩ := Option.map_eq_some_iff.mp hhead
            have hself : r.head.address = r.head.targetAddress := Option.some.inj hstart
            refine absurd ?_ (List.nodup_cons.mp r.nodup).1
            rw [hself, ← heq]
            exact List.mem_map_of_mem (List.mem_of_mem_head? hsecond)
        | cons i line =>
            obtain ⟨hhead, htail⟩ := List.cons.inj hr
            rw [spansOf, htail] at hspans
            exact h.line_fallsOut (fun j hj => hmem j (List.mem_cons_of_mem _ hj)) hk
              (fun j hj => hplain j (List.mem_cons_of_mem _ hj)) ht
              ((congrArg RtnIns.address hhead).trans (Option.some.inj hstart)) hspans
    | cons i before =>
        obtain ⟨-, htail⟩ := List.cons.inj hr
        rw [spansOf, htail] at hspans
        obtain ⟨previous', current', spans', hloop, hsub⟩ := spanLoop_append hspans
        exact (h.target_fallsOut hmem hk hplain ht hstart hloop).mono hsub
  obtain ⟨s, hs, hend, nextIns, hnext, hleaves⟩ := hout
  have hpass := (hflow.leaves s hs _ (hdrawn.named_of_leavesFor hs hleaves)).mp hleaves
  rw [hend, flow_iff hjump, passesTo_jump hk] at hpass
  -- the target is on the line, the next instruction behind it
  obtain ⟨start, hmemStart, heq⟩ := Option.map_eq_some_iff.mp hstart
  have hsplit : r.instructions = (before ++ (line ++ [jump])) ++ after := by
    rw [hr, List.append_assoc, List.append_assoc]
    rfl
  refine notMem_of_append hsplit ?_ (List.mem_map_of_mem (List.mem_of_mem_head? hnext))
  rw [hpass, ← heq]
  exact List.mem_map_of_mem (List.mem_append_right _ (List.mem_of_mem_head? hmemStart))

/-- A graph that is the control flow needs both conditions. -/
theorem IsDirect.needs (h : IsDirect r) (hbuilds : BuildsControlFlow r) :
    HeadPassesOn r ∧ ¬ JumpsToOwnStart r := by
  obtain ⟨g, hrun, hflow⟩ := hbuilds
  have hlays := h.lays
  rw [hrun] at hlays
  cases hspans : spansOf r with
  | none =>
      rw [hspans] at hlays
      exact hlays.elim
  | some spans =>
      rw [hspans] at hlays
      obtain ⟨laid, hdrawn⟩ := h.drawn hspans hlays
      have hspansFlow := hdrawn.isControlFlow_iff.mp hflow
      exact ⟨h.headPassesOn hspans hdrawn hspansFlow,
        h.not_jumpsToOwnStart hspans hdrawn hspansFlow⟩

/-- **When the graph is the control flow**: the first instruction passes
control to the second one alone, which is a target behind a call, and no
unconditional jump closes its own straight line. -/
theorem builds_controlFlow_iff (h : IsDirect r) :
    BuildsControlFlow r ↔ HeadPassesOn r ∧ ¬ JumpsToOwnStart r :=
  ⟨h.needs, fun ⟨hhead, hown⟩ => h.builds hhead hown⟩

theorem followed_nil : Followed ([] : List (RtnIns ws)) := by
  intro before ins after hr
  exact absurd hr (List.append_ne_nil_of_right_ne_nil _ (List.cons_ne_nil _ _)).symm

theorem Followed.cons (h : Followed rest) (hins : FallsThrough ins →
    ∃ nextIns, rest.head? = some nextIns ∧ nextIns.address = ins.nextAddress) :
    Followed (ins :: rest) := by
  intro before i after hr hfall
  cases before with
  | nil =>
      cases hr
      exact hins hfall
  | cons _ before =>
      cases hr
      exact h before i after rfl hfall

/-- A direct call. -/
def call (address nextAddress target : Addr ws) : RtnIns ws :=
  ⟨address, nextAddress, target, false, true, false, true, false, false⟩

/-- `while (c) f(); return;` -/
def whileLoop : Routine .w64 where
  head := plain 0x1000 0x1002
  tail := [jcc 0x1002 0x1004 0x100b, call 0x1004 0x1009 0x2000, jmp 0x1009 0x100b 0x1002,
    ret 0x100b 0x100c]
  nodup := by decide
  above := by decide

theorem whileLoop_isDirect : IsDirect whileLoop where
  kinds ins hins := by
    simp only [Routine.instructions, whileLoop, List.mem_cons, List.not_mem_nil, or_false] at hins
    rcases hins with rfl | rfl | rfl | rfl | rfl
    · exact ⟨.plain, rfl, rfl, rfl⟩
    · exact ⟨.condJump, rfl, rfl, rfl, rfl, rfl⟩
    · exact ⟨.call, rfl, rfl, rfl, rfl⟩
    · exact ⟨.jump, rfl, rfl, rfl, rfl, rfl⟩
    · exact ⟨.ret, rfl, rfl, rfl⟩
  followed := by
    refine .cons (.cons (.cons (.cons (.cons followed_nil ?_) ?_) ?_) ?_) ?_
    · exact fun h => nomatch h.1
    · exact fun h => nomatch h.2 rfl
    · exact fun _ => ⟨_, rfl, rfl⟩
    · exact fun _ => ⟨_, rfl, rfl⟩
    · exact fun _ => ⟨_, rfl, rfl⟩
  targets := by decide

/-- The jump goes back to the test, which ends a line of its own. -/
theorem builds_controlFlow_iff_whileLoop : BuildsControlFlow whileLoop := by
  refine (builds_controlFlow_iff whileLoop_isDirect).mpr ⟨⟨rfl, nofun, nofun⟩, fun hown => ?_⟩
  obtain ⟨start, hstart, jump, hjump, hk, heq, hline⟩ := hown.start
  simp only [Routine.instructions, whileLoop, List.mem_cons, List.not_mem_nil, or_false]
    at hstart hjump
  rcases hjump with rfl | rfl | rfl | rfl | rfl
  · exact nomatch hk.1
  · exact nomatch hk.2.2.2.2
  · exact nomatch hk.1
  · rcases hstart with rfl | rfl | rfl | rfl | rfl
    · revert heq
      decide
    · exact hline.elim nofun fun hplain => hplain (Or.inl rfl)
    · revert heq
      decide
    · revert heq
      decide
    · revert heq
      decide
  · exact nomatch hk.1

/-- A jump to itself, behind another instruction. -/
def selfJump : Routine .w64 where
  head := plain 0x1000 0x1002
  tail := [jmp 0x1002 0x1004 0x1002, ret 0x1004 0x1005]
  nodup := by decide
  above := by decide

/-- The builder lets the jump fall through to the return. -/
theorem selfJump_falls_through : IsDirect selfJump ∧ ¬ BuildsControlFlow selfJump := by
  have hdirect : IsDirect selfJump := by
    refine ⟨fun ins hins => ?_, ?_, by decide⟩
    · simp only [Routine.instructions, selfJump, List.mem_cons, List.not_mem_nil, or_false] at hins
      rcases hins with rfl | rfl | rfl
      · exact ⟨.plain, rfl, rfl, rfl⟩
      · exact ⟨.jump, rfl, rfl, rfl, rfl, rfl⟩
      · exact ⟨.ret, rfl, rfl, rfl⟩
    · refine .cons (.cons (.cons followed_nil ?_) ?_) ?_
      · exact fun h => nomatch h.1
      · exact fun h => nomatch h.2 rfl
      · exact fun _ => ⟨_, rfl, rfl⟩
  refine ⟨hdirect, fun hbuilds => (hdirect.needs hbuilds).2 ?_⟩
  exact ⟨[plain 0x1000 0x1002], [], jmp 0x1002 0x1004 0x1002, [ret 0x1004 0x1005], rfl,
    ⟨rfl, rfl, rfl, rfl, rfl⟩, rfl, nofun, nofun⟩

end DytanRoutineFlow
