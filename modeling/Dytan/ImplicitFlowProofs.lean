import Dytan.ControlCoverageProofs
import Dytan.ControlDependenceProofs
import Dytan.ControlScopeProofs
import Dytan.ControlflowProofs
import Dytan.PredecessorsProofs

/-! # Implicit flow — what a tainted branch decides is tainted

    `RoutineGraph` computes post-dominators of blocks, `Controlflow` places the
    pushes and pops of a routine by them, `PushControl` opens the scope of a
    branch with the marks of the flags, and the handlers assign the control
    taint with every union.  Here the parts come together: whatever an
    instruction writes that is control dependent on a branch has the marks that
    the flags had at the branch.

    Control dependence is that of the routine, instruction by instruction
    (`Executes`), and does not mention the graph.  The graph must be the control
    flow of the routine (`BuildsControlFlow`), and the post-dominator it
    reports for the branch must be one (`ReportsPostDominator`); it need not be
    the immediate one.  The routine may call others in between, with branches
    of their own, but not itself: the entry of a branch is that of its
    address. -/

namespace DytanImplicitFlow

open DytanRegister DytanTaintState DytanMarkFlow DytanInstruction DytanHandler DytanBasicBlock
open DytanRoutineGraph DytanBlockBuilder DytanBlockSpans DytanBlockLayout DytanBlockIntervals
  DytanRoutineFlow DytanPredecessors DytanControlflow
open DytanControlScope DytanControlCoverage
open ControlDependence PostDominance Emission
open DytanPostDominanceTree (plain jcc ret)

variable {ws : WordSize} {N : Nat} {r : Routine ws} {g : RoutineGraph ws} {a : Addr ws}

/-- What follows an element of a list without duplicates. -/
theorem next_unique {α : Type*} {l xs xs' ys ys' : List α} {u v w : α} (hl : l.Nodup)
    (h : l = xs ++ u :: v :: ys) (h' : l = xs' ++ u :: w :: ys') : v = w := by
  rw [h] at hl h'
  have hnot := (List.nodup_cons.mp (List.nodup_middle.mp hl)).1
  obtain ⟨-, -, hrest⟩ := (List.append_cons_inj_of_notMem
    (fun hx => hnot (List.mem_append_left _ hx)) fun hx => hnot (List.mem_append_right _ hx)).mp h'
  exact (List.cons.inj hrest).1

/-- The instruction after one that does not end its span is in the same span. -/
theorem next_mem_members {spans : List (Span ws)} (hspans : spansOf r = some spans) {s : Span ws}
    (hs : s ∈ spans) {before after : List (RtnIns ws)} {ins nextIns : RtnIns ws}
    (hr : r.instructions = before ++ ins :: nextIns :: after) (hmem : ins.address ∈ s.members)
    (hend : ins.address ≠ s.ending) : nextIns.address ∈ s.members := by
  obtain ⟨hmembers, hbounded⟩ := spansOf_members hspans
  obtain ⟨others, hothers⟩ := List.head?_eq_some_iff.mp (hbounded s hs).last
  rw [hothers] at hmem
  obtain ⟨later, earlier, hsplit⟩ :=
    List.append_of_mem ((List.mem_cons.mp hmem).resolve_left hend)
  -- the members behind the instruction, the next one first
  obtain ⟨w, rest, hw⟩ := List.exists_cons_of_ne_nil
    (List.reverse_ne_nil_iff.mpr (List.cons_ne_nil s.ending later))
  have hreverse : s.members.reverse = earlier.reverse ++ ins.address :: w :: rest := by
    rw [← hw, hothers, hsplit]
    simp
  obtain ⟨pre, post, rfl⟩ := List.append_of_mem hs
  have hinside : r.instructions.map RtnIns.address
      = memberList pre ++ earlier.reverse ++ ins.address :: w :: (rest ++ memberList post) := by
    rw [← hmembers]
    simp [memberList, hreverse]
  have houtside : r.instructions.map RtnIns.address = before.map RtnIns.address
      ++ ins.address :: nextIns.address :: after.map RtnIns.address := by
    rw [hr]
    simp
  have hw : w ∈ s.members.reverse := by
    rw [hreverse]
    exact List.mem_append_right _ (List.mem_cons_of_mem _ List.mem_cons_self)
  rw [← next_unique r.nodup hinside houtside]
  exact List.mem_reverse.mp hw

/-- **The graph of a routine is that of its blocks**: control stays in the block
    of an instruction, or enters another one where that starts. -/
theorem blocks_of_builds (h : IsDirect r) (hbuilds : BuildsControlFlow r)
    (hg : blockBuilder r = some g) : Blocks (Flow r) 2 (Edge g) g.returnNode
      (fun x b => g.addressMap[x]? = some b) fun b => (g.blocks b).startingAddress := by
  obtain ⟨hhead, hown⟩ := h.needs hbuilds
  obtain ⟨spans, hspans, hflow⟩ := h.spansOf_flow hhead hown
  have hlays := h.lays
  rw [hg, hspans] at hlays
  obtain ⟨laid, hdrawn⟩ := h.drawn hspans hlays
  refine ⟨?_, fun hb => ?_⟩
  · rintro u v b hub ⟨ins, hins, rfl, hpass⟩
    obtain ⟨p, hp, hmem⟩ := hdrawn.held _ (List.mem_map_of_mem hins)
    have hs := (hdrawn.mem p.2).mpr ⟨p.1, hp⟩
    cases hub.symm.trans ((hdrawn.layout.isBlock p hp).members _ hmem)
    by_cases hend : ins.address = p.2.ending
    · -- the last instruction of the block leaves it for the start of another
      have hleaves : p.2.LeavesFor v :=
        ((hflow p.2 hs).leaves v).mpr (hend ▸ ⟨ins, hins, rfl, hpass⟩)
      obtain ⟨c, hlt, hcall, rfl⟩ := hdrawn.named (hdrawn.named_of_leavesFor hs hleaves)
      obtain ⟨hmapped, hzero, -⟩ := hdrawn.starting hlt hcall
      refine Or.inr ⟨c, ?_, rfl, hmapped⟩
      refine ((blockBuilder_mirrored hg).edge_iff _ _).mpr ⟨(hdrawn.span_block hp).2, ?_⟩
      exact (hdrawn.layout.successor_iff hp hmapped hzero).mpr hleaves
    · -- any other one passes control to the next
      have hplain : ¬ Transfers ins := fun ht =>
        hend ((hflow p.2 hs).ends ins hins ht hmem).symm
      have hv := (passesTo_of_plain hplain).mp hpass
      obtain ⟨before, after, hr⟩ := List.append_of_mem hins
      obtain ⟨nextIns, hnext, heq⟩ := h.followed before ins after hr (fallsThrough_of_plain hplain)
      obtain ⟨rest, rfl⟩ := List.head?_eq_some_iff.mp hnext
      refine Or.inl ((hdrawn.layout.isBlock p hp).members _ ?_)
      rw [hv, ← heq]
      exact next_mem_members hspans hs hr hmem hend
  · exact Option.some.inj (hb.symm.trans hdrawn.layout.return_address)

/-! ## Where a branch is popped -/

/-- The post-dominator that the tree reports for the block of the branch is a
    post-dominator. -/
def ReportsPostDominator (order : IterationOrder) (r : Routine ws) (a : Addr ws) : Prop :=
  ∀ g h b p, initializeRoutineInfo order r = some (g, h) → g.addressMap[a]? = some b →
    (info h b).postDominator = some p → PostDominates (Edge g) g.returnNode p b

/-- **The branch is popped at strict post-dominators** of its instruction. -/
theorem pop_strictlyPostDominates (h : IsDirect r) (hbuilds : BuildsControlFlow r)
    {order : IterationOrder} {isSharedLib : Bool} {calls : Calls ws}
    (hrun : controlflow order isSharedLib r = some calls) (ha : a ∈ calls.pushes)
    (hreports : ReportsPostDominator order r a) {x : Addr ws} {args : List (Addr ws)}
    (hpop : (x, args) ∈ calls.pops) (hargs : a ∈ args) :
    StrictlyPostDominates (Executes r) 2 x a := by
  rw [← flow_eq_executes h]
  rw [controlflow] at hrun
  split at hrun
  · cases hrun
    exact absurd ha List.not_mem_nil
  · obtain ⟨⟨g, info⟩, hinfo, hcalls⟩ := Option.bind_eq_some_iff.mp hrun
    cases hcalls
    obtain ⟨hbuilt, htree⟩ := initializeRoutineInfo_eq_some.mp hinfo
    obtain ⟨p, hrep⟩ := reported_of_push ha
    obtain ⟨b, hb, hp⟩ := Option.bind_eq_some_iff.mp hrep
    obtain ⟨hne, -, -⟩ := parent_facts order (blockBuilder_isCfg hbuilt) htree hp
    obtain ⟨rfl, -⟩ := (popped_iff ha hrep x).mp ⟨args, hpop, hargs⟩
    exact (blocks_of_builds h hbuilds hbuilt).strictlyPostDominates
      (.of_ne (hreports g info b p hinfo hb hp) hne) hb

/-- The first loop pushes instructions. -/
theorem mem_pushed {h : Infos ws} {inss : List (RtnIns ws)}
    {state : AddrSets ws × List (Addr ws)} (ha : a ∈ (inss.foldl (placePush g h) state).2) :
    a ∈ state.2 ∨ a ∈ inss.map RtnIns.address := by
  induction inss generalizing state with
  | nil => exact Or.inl ha
  | cons ins inss ih =>
      rcases ih ha with ha | ha
      · rcases placePush_cases (g := g) (h := h) state ins with heq | ⟨p, -, heq⟩
        · rw [heq] at ha
          exact Or.inl ha
        · rw [heq] at ha
          rcases List.mem_append.mp ha with ha | ha
          · exact Or.inl ha
          · exact Or.inr (List.mem_singleton.mp ha ▸ List.mem_cons_self)
      · exact Or.inr (List.mem_cons_of_mem _ ha)

/-- A routine pops its own branches only. -/
theorem popped_mem {order : IterationOrder} {isSharedLib : Bool} {calls : Calls ws}
    (hrun : controlflow order isSharedLib r = some calls) {x : Addr ws} {args : List (Addr ws)}
    (hpop : (x, args) ∈ calls.pops) (hargs : a ∈ args) :
    a ∈ r.instructions.map RtnIns.address := by
  rw [controlflow] at hrun
  split at hrun
  · cases hrun
    exact absurd hpop List.not_mem_nil
  · obtain ⟨⟨g, info⟩, -, hcalls⟩ := Option.bind_eq_some_iff.mp hrun
    cases hcalls
    obtain ⟨ins, -, hplace⟩ := List.mem_filterMap.mp hpop
    obtain ⟨args', hget, hpair⟩ := Option.map_eq_some_iff.mp hplace
    cases hpair
    have hfiled := (filed_nil (g := g) (h := info)).run r.instructions
    have hmem : a ∈ (r.instructions.foldl (placePush g info) (∅, [])).1.getD ins.address [] := by
      rw [Std.ExtTreeMap.getD_eq_getD_getElem?]
      exact hget ▸ hargs
    exact (mem_pushed ((hfiled.filed ins.address a).mp hmem).1).resolve_left List.not_mem_nil

/-- The call pops the entry of the branch at `a`. -/
def Pops (a : Addr ws) : Call ws → Prop
  | .popControl addrs => a ∈ addrs
  | _ => False

theorem not_pops_of_isData {c : Call ws} (hc : isData c = true) : ¬ Pops a c := by
  cases c with
  | popControl addrs => exact nomatch hc
  | _ => exact id

/-- A call that does not pop the entry of a branch leaves its marks there. -/
theorem entry_kept {s s' : TaintState ws N} (hs : SizedState s) {c : Call ws}
    (hstep : step c s = some s') (hc : ¬ Pops a c) :
    marksAt s (.ctl a) ⊆ marksAt s' (.ctl a) := by
  have hframe : Place.ctl a ∉ targets c s → marksAt s (.ctl a) ⊆ marksAt s' (.ctl a) := by
    intro hnot
    obtain ⟨t, e, ht, ha, -⟩ := step_assigns hs c
    cases hstep.symm.trans ht
    rw [marksAt, marksAt, ha.frame _ hnot]
  cases c with
  | pushControl c => exact (pushControl_grows hs hstep).2.1 a
  | popControl addrs =>
      refine hframe ?_
      rintro ⟨x, hx, heq⟩
      cases heq
      exact hc (mem_of_mem_popped hx)
  | _ => exact hframe (ctl_notMem_targets rfl s a)

theorem entry_kept_run {calls : List (Call ws)} (hcalls : ∀ c ∈ calls, ¬ Pops a c)
    {s : TaintState ws N} (hs : SizedState s) :
    ∃ s', run calls s = some s' ∧ SizedState s' ∧ marksAt s (.ctl a) ⊆ marksAt s' (.ctl a) := by
  induction calls generalizing s with
  | nil => exact ⟨s, rfl, hs, subset_rfl⟩
  | cons c rest ih =>
      obtain ⟨s₁, hstep, hs₁, -⟩ := step_marks hs c
      obtain ⟨s', hrun, hs', hrest⟩ := ih (fun d hd => hcalls d (List.mem_cons_of_mem _ hd)) hs₁
      have hkept := entry_kept hs hstep (hcalls c List.mem_cons_self)
      exact ⟨s', by rw [run_cons, hstep]; exact hrun, hs', hkept.trans hrest⟩

/-! ## An execution -/

/-- A routine with the calls that `Controlflow` inserts into it. -/
structure Instrumented (ws : WordSize) (order : IterationOrder) where
  routine : Routine ws
  isSharedLib : Bool
  calls : Calls ws
  inserted : controlflow order isSharedLib routine = some calls

variable {order : IterationOrder}

/-- The addresses of the instructions. -/
def Instrumented.addresses (t : Instrumented ws order) : List (Addr ws) :=
  t.routine.instructions.map RtnIns.address

/-- The routines have no instruction in common. -/
def Instrumented.Apart (t t' : Instrumented ws order) : Prop :=
  ∀ x ∈ t.addresses, x ∉ t'.addresses

/-- An executed instruction: its routine, what the framework says about it, and
    the values it finds. -/
structure Executed (ws : WordSize) (order : IterationOrder) where
  code : Instrumented ws order
  address : Addr ws
  mem : address ∈ code.addresses
  ins : Ins
  ctx : Ctx ws

/-- The calls that `Controlflow` inserts before the instruction at `x`: its
    first loop pushes, its second one pops. -/
def controlCalls (calls : Calls ws) (x : Addr ws) : List (Call ws) :=
  (if calls.pushes.contains x then [.pushControl x] else [])
    ++ (calls.pops.filter fun p => p.1 = x).map fun p => .popControl p.2

/-- The calls that run before an instruction.  Routines are instrumented before
    their instructions are. -/
def callsBefore (e : Executed ws order) : List (Call ws) :=
  controlCalls e.code.calls e.address ++ callsAt e.ctx (dataflow ws e.ins).calls

/-- The calls of an execution. -/
def executionCalls (es : List (Executed ws order)) : List (Call ws) := es.flatMap callsBefore

/-- The way of an execution through the routine. -/
def wayThrough (t : Instrumented ws order) (es : List (Executed ws order)) : List (Addr ws) :=
  (es.map Executed.address).filter t.addresses.contains

theorem mem_controlCalls {calls : Calls ws} {x : Addr ws} {c : Call ws}
    (hc : c ∈ controlCalls calls x) :
    c = .pushControl x ∨ ∃ args, (x, args) ∈ calls.pops ∧ c = .popControl args := by
  rcases List.mem_append.mp hc with hc | hc
  · split at hc
    · exact Or.inl (List.mem_singleton.mp hc)
    · exact absurd hc List.not_mem_nil
  · obtain ⟨⟨y, args⟩, hfilter, rfl⟩ := List.mem_map.mp hc
    obtain ⟨hpop, hy⟩ := List.mem_filter.mp hfilter
    cases of_decide_eq_true hy
    exact Or.inr ⟨args, hpop, rfl⟩

/-- No call before the instruction pops the branch. -/
def Spares (a : Addr ws) (e : Executed ws order) : Prop :=
  ∀ args, (e.address, args) ∈ e.code.calls.pops → a ∉ args

theorem Spares.not_pops {e : Executed ws order} (he : Spares a e) :
    ∀ c ∈ callsBefore e, ¬ Pops a c := by
  intro c hc
  rcases List.mem_append.mp hc with hc | hc
  · rcases mem_controlCalls hc with rfl | ⟨args, hpop, rfl⟩
    · exact id
    · exact he args hpop
  · exact not_pops_of_isData (isData_callsAt e.ctx _ c hc)

/-- **The entry of a branch that has not been popped** includes the marks that
    the flags had at the branch. -/
theorem control_of_branch {branch : Executed ws order} {between : List (Executed ws order)}
    (hpush : branch.address ∈ branch.code.calls.pushes)
    (hspares : ∀ e ∈ branch :: between, Spares branch.address e) {s : TaintState ws N}
    (hs : SizedState s) :
    ∃ s', run (executionCalls (branch :: between)) s = some s' ∧ SizedState s'
      ∧ marksAt s (.reg (flagsReg ws)) ⊆ marksAt s' (.ctl branch.address) := by
  have hnone : ∀ c ∈ executionCalls (branch :: between), ¬ Pops branch.address c := by
    intro c hc
    obtain ⟨e, he, hc⟩ := List.mem_flatMap.mp hc
    exact (hspares e he).not_pops c hc
  obtain ⟨rest, hrest⟩ : ∃ rest, executionCalls (branch :: between)
      = .pushControl branch.address :: rest := by
    rw [executionCalls, List.flatMap_cons, callsBefore, controlCalls,
      if_pos (List.contains_iff_mem.mpr hpush)]
    exact ⟨_, rfl⟩
  rw [hrest] at hnone ⊢
  obtain ⟨s₁, e, hstep, ha, -⟩ := pushControl_spec hs branch.address
  obtain ⟨hs₁, -, hflags⟩ := pushControl_grows hs hstep
  obtain ⟨s', hrun, hs', hkept⟩ :=
    entry_kept_run (fun c hc => hnone c (List.mem_cons_of_mem _ hc)) hs₁
  refine ⟨s', ?_, hs', hflags.trans hkept⟩
  rw [run_cons]
  show (pushControl branch.address s).bind _ = _
  rw [hstep]
  exact hrun

/-- On the way to what is control dependent on the branch it is not popped. -/
theorem spares_of_dependent {branch : Executed ws order} (h : IsDirect branch.code.routine)
    (hbuilds : BuildsControlFlow branch.code.routine)
    (hpush : branch.address ∈ branch.code.calls.pushes)
    (hreports : ReportsPostDominator order branch.code.routine branch.address)
    {es : List (Executed ws order)} (hes : ∀ e ∈ es, e.code = branch.code ∨ e.code.Apart branch.code)
    {x : Addr ws} (hdependent : ControlDependent (Executes branch.code.routine) 2 branch.address
      (wayThrough branch.code es) x) : ∀ e ∈ branch :: es, Spares branch.address e := by
  intro e he args hpop hargs
  have hstrict : e.code = branch.code →
      StrictlyPostDominates (Executes branch.code.routine) 2 e.address branch.address := by
    intro hcode
    rw [hcode] at hpop
    exact pop_strictlyPostDominates h hbuilds branch.code.inserted hpush hreports hpop hargs
  rcases List.mem_cons.mp he with rfl | he
  · obtain ⟨way, hway, -⟩ := hdependent.avoidable
    exact (hstrict rfl).ne ⟨_, hway⟩ rfl
  · rcases hes e he with hcode | hapart
    · refine hdependent.notMem (hstrict hcode) ?_
      refine List.mem_filter.mpr ⟨List.mem_map_of_mem he, List.contains_iff_mem.mpr ?_⟩
      exact hcode ▸ e.mem
    · exact hapart _ (popped_mem e.code.inserted hpop hargs) branch.mem

/-- What its handler assigns, of what an instruction writes, receives the control
    taint. -/
theorem control_assigned {ctx : Ctx ws} {ins : Ins} (hcomplete : Completes (dataflow ws ins))
    {s : TaintState ws N} (hs : SizedState s) :
    ∃ s', run (callsAt ctx (dataflow ws ins).calls) s = some s'
      ∧ ∀ p ∈ assignedDestinations ctx ins, controlMarks s ⊆ marksAt s' p := by
  obtain ⟨s', hrun, hkept⟩ := control_kept (isData_callsAt ctx (dataflow ws ins).calls) hs
  refine ⟨s', hrun, fun p hp => ?_⟩
  refine hkept p (isStored_destination (assignedDestinations_subset hp)) (Or.inr ?_)
  obtain ⟨i, hi, hfires, hset⟩ := sets_dataflow hp hcomplete
  exact ⟨_, mem_callsAt.mpr ⟨i, hi, hfires, rfl⟩, .inl hset⟩

/-- **Implicit flow**: let a branch be executed, then instructions of its
    routine and of others, and then an instruction of the routine that is
    control dependent on the branch.  What its handler assigns of what it writes
    has, after its calls, the marks that the flags had at the branch. -/
theorem implicit_flow {branch last : Executed ws order} {between : List (Executed ws order)}
    (h : IsDirect branch.code.routine) (hbuilds : BuildsControlFlow branch.code.routine)
    (hpush : branch.address ∈ branch.code.calls.pushes)
    (hreports : ReportsPostDominator order branch.code.routine branch.address)
    (hbetween : ∀ e ∈ between ++ [last], e.code = branch.code ∨ e.code.Apart branch.code)
    (hdependent : ControlDependent (Executes branch.code.routine) 2 branch.address
      (wayThrough branch.code (between ++ [last])) last.address)
    (hcomplete : Completes (dataflow ws last.ins)) {s : TaintState ws N} (hs : SizedState s) :
    ∃ s', run (executionCalls (branch :: (between ++ [last]))) s = some s'
      ∧ ∀ p ∈ assignedDestinations last.ctx last.ins,
        marksAt s (.reg (flagsReg ws)) ⊆ marksAt s' p := by
  have hspares := spares_of_dependent h hbuilds hpush hreports hbetween hdependent
  obtain ⟨s₁, hrun₁, hs₁, hbranch⟩ := control_of_branch hpush
    (fun e he => hspares e (List.cons_subset_cons _ (List.subset_append_left _ _) he)) hs
  have hlast : Spares branch.address last :=
    hspares last (List.mem_cons_of_mem _ (List.mem_append_right _ List.mem_cons_self))
  -- the calls before the last instruction: first those of its routine, then its own
  obtain ⟨s₂, hrun₂, hs₂, hcontrol⟩ := entry_kept_run
    (fun c hc => hlast.not_pops c (List.mem_append_left _ hc)) hs₁
  obtain ⟨s', hrun', hreceives⟩ := control_assigned hcomplete hs₂
  refine ⟨s', ?_, fun p hp => ?_⟩
  · rw [← List.cons_append, executionCalls, List.flatMap_append, List.flatMap_singleton,
      run_append]
    rw [executionCalls] at hrun₁
    rw [hrun₁, Option.bind_some, callsBefore, run_append, hrun₂]
    exact hrun'
  · refine subset_trans ?_ (hreceives p hp)
    exact fun m hm => ⟨.ctl branch.address, ⟨_, rfl⟩, hcontrol (hbranch hm)⟩

/-- `if (c) { f(); x = y; } return;` -/
def callsThenMoves : Routine .w64 where
  head := plain 0x1000 0x1003
  tail := [jcc 0x1003 0x1005 0x100c, call 0x1005 0x100a 0x2000, plain 0x100a 0x100c,
    ret 0x100c 0x100d]
  nodup := by decide
  above := by decide

theorem callsThenMoves_isDirect : IsDirect callsThenMoves where
  kinds ins hins := by
    simp only [Routine.instructions, callsThenMoves, List.mem_cons, List.not_mem_nil, or_false]
      at hins
    rcases hins with rfl | rfl | rfl | rfl | rfl
    · exact ⟨.plain, rfl, rfl, rfl⟩
    · exact ⟨.condJump, rfl, rfl, rfl, rfl, rfl⟩
    · exact ⟨.call, rfl, rfl, rfl, rfl⟩
    · exact ⟨.plain, rfl, rfl, rfl⟩
    · exact ⟨.ret, rfl, rfl, rfl⟩
  followed := by
    refine .cons (.cons (.cons (.cons (.cons followed_nil ?_) ?_) ?_) ?_) ?_
    · exact fun h => absurd h.1 (by decide)
    all_goals exact fun _ => ⟨_, rfl, rfl⟩
  targets := by decide

theorem callsThenMoves_builds : BuildsControlFlow callsThenMoves := by
  refine callsThenMoves_isDirect.builds ⟨rfl, fun hb => absurd hb (by decide),
    fun hc => absurd hc (by decide)⟩ ?_
  rintro ⟨before, line, jump, after, hr, hk, -⟩
  have hjump : jump ∈ callsThenMoves.instructions := by
    rw [hr]
    exact List.mem_append_right _ (List.mem_append_right _ List.mem_cons_self)
  -- no instruction jumps without a condition
  have hnone : ∀ ins ∈ callsThenMoves.instructions,
      ¬ (ins.isBranch = true ∧ ins.hasFallThrough = false) := by decide
  exact hnone jump hjump ⟨hk.1, hk.2.2.2.2⟩

/-- The block of the test is left through the return only. -/
theorem callsThenMoves_reports : ReportsPostDominator .asListed callsThenMoves 0x1003 := by
  intro g h b p hrun hb hp
  have heval : (initializeRoutineInfo .asListed callsThenMoves).all fun gh =>
      (gh.1.returnNode == 1) && (gh.1.addressMap[(0x1003 : Addr .w64)]? == some 0)
        && ((info gh.2 0).postDominator == some 3)
        && decide (∀ v ∈ [0, 2, 4, 5], ∀ w < gh.1.next,
          Edge gh.1 v w → w ∈ [0, 2, 4, 5] ∨ w = 3) := by
    decide +kernel
  rw [hrun] at heval
  simp only [Option.all_some, Bool.and_eq_true, beq_iff_eq, decide_eq_true_eq] at heval
  obtain ⟨⟨⟨hreturn, hmap⟩, hparent⟩, hedges⟩ := heval
  cases hb.symm.trans hmap
  cases hp.symm.trans hparent
  obtain ⟨hbuilt, -⟩ := initializeRoutineInfo_eq_some.mp hrun
  have hmirrored := blockBuilder_mirrored hbuilt
  rw [hreturn]
  refine postDominates_of_closed (· ∈ [0, 2, 4, 5]) (by decide) (fun v w hv he => ?_)
    (by decide)
  refine hedges v hv w ?_ he
  obtain ⟨-, hsucc | ⟨k, -, -, hsucc⟩⟩ := (hmirrored.edge_iff v w).mp he
  · exact (hmirrored.lt v w hsucc).2
  · exact (hmirrored.lt k w hsucc).2

/-- The called routine: `if (c) z = w; return;` -/
def moves : Routine .w64 where
  head := plain 0x2000 0x2002
  tail := [jcc 0x2002 0x2004 0x2006, plain 0x2004 0x2006, ret 0x2006 0x2007]
  nodup := by decide
  above := by decide

def caller : Instrumented .w64 .asListed :=
  ⟨callsThenMoves, false, ⟨[0x1003], [(0x100c, [0x1003])]⟩, by decide +kernel⟩

def callee : Instrumented .w64 .asListed :=
  ⟨moves, false, ⟨[0x2002], [(0x2006, [0x2002])]⟩, by decide +kernel⟩

/-- The test of the caller. -/
def executedBranch : Executed .w64 .asListed :=
  ⟨caller, 0x1003, by decide, onRegisters .JZ [], writesAt .w64 0 0⟩

/-- The call, and the called routine. -/
def executedCall : List (Executed .w64 .asListed) :=
  [⟨caller, 0x1005, by decide, onRegisters .CALL_NEAR [], writesAt .w64 0x8000 8⟩,
    ⟨callee, 0x2002, by decide, onRegisters .JZ [], writesAt .w64 0 0⟩,
    ⟨callee, 0x2006, by decide, onRegisters .RET_NEAR [], writesAt .w64 0 0⟩]

/-- The move of the caller. -/
def executedMove : Executed .w64 .asListed :=
  ⟨caller, 0x100a, by decide, onRegisters .MOV [(.eax, 32), (.ebx, 32)], writesAt .w64 0 0⟩

theorem executedMove_dependent :
    ControlDependent (Executes callsThenMoves) 2 0x1003 [0x1005, 0x100a] 0x100a := by
  rw [← flow_eq_executes callsThenMoves_isDirect]
  have hbranch : jcc 0x1003 0x1005 0x100c ∈ callsThenMoves.instructions := by decide
  have hcall : call 0x1005 0x100a 0x2000 ∈ callsThenMoves.instructions := by decide
  have hret : ret 0x100c 0x100d ∈ callsThenMoves.instructions := by decide
  refine ⟨by decide, fun v hv => ?_, [0x100c, 2], ?_, by decide⟩
  · rcases List.mem_cons.mp hv with rfl | hv
    · refine postDominates_of_closed (· = 0x1005) (by decide) (fun v w hv he => ?_) rfl
      cases hv
      exact Or.inr ((passesTo_call ⟨rfl, rfl, rfl, rfl⟩).mp ((flow_iff hcall).mp he))
    · cases List.mem_singleton.mp hv
      exact .refl _
  · refine .step (v := 0x100c) ⟨_, hbranch, rfl, ?_⟩ (.step (v := 2) ⟨_, hret, rfl, ?_⟩ .exit)
    · exact (passesTo_condJump ⟨rfl, rfl, rfl, rfl, rfl⟩).mpr (.inl rfl)
    · exact (passesTo_ret ⟨rfl, rfl, rfl⟩).mpr rfl

/-- The move is tainted by the test before the call. -/
theorem implicit_flow_callsThenMoves :
    ∃ s, run (executionCalls (executedBranch :: (executedCall ++ [executedMove])))
        (flagsTainted .w64 1) = some s
      ∧ 0 ∈ marksAt s (.reg .eax) := by
  have hall : callee.addresses.all (fun x => !caller.addresses.contains x) = true := by decide
  have hapart : callee.Apart caller := fun x hx => by
    simpa using List.all_eq_true.mp hall x hx
  obtain ⟨s, hrun, hmarks⟩ :
      ∃ s, run (executionCalls (executedBranch :: (executedCall ++ [executedMove])))
          (flagsTainted .w64 1) = some s
        ∧ ∀ p ∈ assignedDestinations executedMove.ctx executedMove.ins,
          marksAt (flagsTainted .w64 1) (.reg .rflags) ⊆ marksAt s p := by
    refine implicit_flow callsThenMoves_isDirect callsThenMoves_builds List.mem_cons_self
      callsThenMoves_reports (fun e he => ?_) executedMove_dependent ⟨(), rfl⟩
      (flagsTainted_sized .w64 Nat.one_pos)
    simp only [executedCall, List.cons_append, List.nil_append, List.mem_cons, List.not_mem_nil,
      or_false] at he
    rcases he with rfl | rfl | rfl | rfl
    · exact Or.inl rfl
    · exact Or.inr hapart
    · exact Or.inr hapart
    · exact Or.inl rfl
  refine ⟨s, hrun, hmarks (.reg .eax) ⟨?_, .inl ⟨rfl, ?_⟩⟩ ?_⟩
  · rintro ⟨i, hi, -⟩
    exact absurd hi (Nat.not_lt_zero i)
  · exact ⟨.operand 0, List.mem_cons_self, rfl, by decide, rfl⟩
  · exact ⟨_, rfl, by decide, by decide⟩

end DytanImplicitFlow
