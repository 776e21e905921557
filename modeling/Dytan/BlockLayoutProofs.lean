import Dytan.BlockSpansProofs
import Dytan.RunsProofs

/-! # Block layout — the graph lays out the spans

    While the builder runs, every span it has started is laid out in a block of
    its own: the block has the span's addresses, its instructions are mapped to
    it, and each of its successors is where one of the span's exits leads.  The
    other mapped addresses wait for their instruction in blocks without edges
    (`Laid`).

    Each operation on the graph keeps the layout, so the builder and `spansOf`
    go on together or stop together (`blockBuilder_lays`). -/

namespace DytanBlockLayout

open DytanRegister DytanTaintState DytanBasicBlock DytanRoutineGraph DytanBlockBuilder
  DytanBlockSpans Runs

variable {ws : WordSize} {g g' : RoutineGraph ws}

/-- The starting addresses of the blocks that are not in the routine. -/
def IsFlag (a : Addr ws) : Prop := a = 1 ∨ a = 4 ∨ a = 5

theorem not_isFlag_of_above {a : Addr ws} (ha : 5 < a) : ¬ IsFlag a := by
  rintro (rfl | rfl | rfl) <;> revert ha <;> cases ws <;> decide

theorem ne_two_of_above {a : Addr ws} (ha : 5 < a) : a ≠ 2 := by
  rintro rfl
  revert ha
  cases ws <;> decide

theorem not_isFlag_two : ¬ IsFlag (2 : Addr ws) := by
  cases ws <;> unfold IsFlag <;> decide

theorem not_isFlag_zero : ¬ IsFlag (0 : Addr ws) := by
  cases ws <;> unfold IsFlag <;> decide

/-- `k` is the block at `a`: it starts there, or waits for its instruction. -/
def LeadsTo (g : RoutineGraph ws) (a : Addr ws) (k : BlockId) : Prop :=
  g.addressMap[a]? = some k
    ∧ ((g.blocks k).startingAddress = a ∨ (g.blocks k).startingAddress = 0)

/-- `k` is where an exit leads. -/
def Leads (g : RoutineGraph ws) (k : BlockId) : Exit ws → Prop
  | .direct a => LeadsTo g a k
  | .call flag a => k < g.next ∧ (flag = 1 ∨ flag = 4) ∧ (g.blocks k).startingAddress = flag
      ∧ ∃ j, LeadsTo g a j ∧ (g.blocks k).successors = [j]
  | .indirect => k < g.next ∧ (g.blocks k).startingAddress = 5 ∧ (g.blocks k).successors = []

/-- Block `b` is span `s`. -/
structure IsBlock (g : RoutineGraph ws) (b : BlockId) (s : Span ws) : Prop where
  starting : (g.blocks b).startingAddress = s.starting
  ending : (g.blocks b).endingAddress = s.ending
  members : ∀ a ∈ s.members, g.addressMap[a]? = some b
  starting_mem : s.starting ∈ s.members
  exit_of : ∀ k ∈ (g.blocks b).successors, ∃ e ∈ s.exits, Leads g k e
  of_exit : ∀ e ∈ s.exits, ∃ k ∈ (g.blocks b).successors, Leads g k e

/-- What an exit needs to lead to the same block in another graph. -/
theorem Leads.frame {k : BlockId} {e : Exit ws} (h : Leads g k e) (hnext : g.next ≤ g'.next)
    (hlead : ∀ a c, LeadsTo g a c → LeadsTo g' a c)
    (hflag : k < g.next → IsFlag (g.blocks k).startingAddress →
      (g'.blocks k).startingAddress = (g.blocks k).startingAddress
        ∧ (g'.blocks k).successors = (g.blocks k).successors) : Leads g' k e := by
  cases e with
  | direct a => exact hlead a k h
  | call flag a =>
      obtain ⟨hk, hf, hs, j, hj, hsuccs⟩ := h
      have hisFlag : IsFlag (g.blocks k).startingAddress := by
        rw [hs]
        exact hf.imp_right Or.inl
      obtain ⟨hs', hsuccs'⟩ := hflag hk hisFlag
      exact ⟨Nat.lt_of_lt_of_le hk hnext, hf, hs'.trans hs, j, hlead a j hj, hsuccs'.trans hsuccs⟩
  | indirect =>
      obtain ⟨hk, hs, hsuccs⟩ := h
      have hisFlag : IsFlag (g.blocks k).startingAddress := by
        rw [hs]
        exact Or.inr (Or.inr rfl)
      obtain ⟨hs', hsuccs'⟩ := hflag hk hisFlag
      exact ⟨Nat.lt_of_lt_of_le hk hnext, hs'.trans hs, hsuccs'.trans hsuccs⟩

/-- What a block needs to be the same span in another graph. -/
theorem IsBlock.frame {b : BlockId} {s : Span ws} (h : IsBlock g b s)
    (hnext : g.next ≤ g'.next)
    (hmap : ∀ a ∈ s.members, g'.addressMap[a]? = g.addressMap[a]?)
    (hlead : ∀ a c, LeadsTo g a c → LeadsTo g' a c)
    (hself : (g'.blocks b).startingAddress = (g.blocks b).startingAddress
      ∧ (g'.blocks b).endingAddress = (g.blocks b).endingAddress
      ∧ (g'.blocks b).successors = (g.blocks b).successors)
    (hflag : ∀ k ∈ (g.blocks b).successors, k < g.next → IsFlag (g.blocks k).startingAddress →
      (g'.blocks k).startingAddress = (g.blocks k).startingAddress
        ∧ (g'.blocks k).successors = (g.blocks k).successors) : IsBlock g' b s where
  starting := hself.1.trans h.starting
  ending := hself.2.1.trans h.ending
  members a ha := (hmap a ha).trans (h.members a ha)
  starting_mem := h.starting_mem
  exit_of k hk := by
    rw [hself.2.2] at hk
    obtain ⟨e, he, hl⟩ := h.exit_of k hk
    exact ⟨e, he, hl.frame hnext hlead (hflag k hk)⟩
  of_exit e he := by
    obtain ⟨k, hk, hl⟩ := h.of_exit e he
    rw [hself.2.2]
    exact ⟨k, hk, hl.frame hnext hlead (hflag k hk)⟩

/-! ## The layout -/

/-- The blocks of spans, the one under construction first. -/
abbrev Layout (ws : WordSize) := List (BlockId × Span ws)

/-- The instruction at `a` is in a span. -/
def Held (laid : Layout ws) (a : Addr ws) : Prop := ∃ p ∈ laid, a ∈ p.2.members

/-- The graph lays out the spans of `laid`.  `flags` are those of the blocks
    outside the routine, `wanted` the targets, and `next` is the address of the
    instruction after a branch. -/
structure Laid (flags wanted : Addr ws → Prop) (next : Option (Addr ws)) (laid : Layout ws)
    (g : RoutineGraph ws) : Prop where
  nodup : (laid.map Prod.fst).Nodup
  above : ∀ p ∈ laid, ∀ a ∈ p.2.members, 5 < a
  inner : ∀ p ∈ laid, ∀ a ∈ p.2.members, wanted a → a = p.2.starting
  isBlock : ∀ p ∈ laid, IsBlock g p.1 p.2
  return_address : g.addressMap[(2 : Addr ws)]? = some g.returnNode
  return_block : (g.blocks g.returnNode).startingAddress = 2
    ∧ (g.blocks g.returnNode).endingAddress = 2 ∧ (g.blocks g.returnNode).successors = []
  lt : ∀ (x : Addr ws) b, g.addressMap[x]? = some b → b < g.next
  alone : ∀ (x y : Addr ws) b, ¬ Held laid x → g.addressMap[x]? = some b →
    g.addressMap[y]? = some b → y = x
  waiting : ∀ (x : Addr ws) b, ¬ Held laid x → x ≠ 2 → g.addressMap[x]? = some b →
    (g.blocks b).startingAddress = 0 ∧ (g.blocks b).endingAddress = 0
      ∧ (g.blocks b).successors = [] ∧ (wanted x ∨ next = some x)
  covered : ∀ b < g.next,
    (IsFlag (g.blocks b).startingAddress ∧ flags (g.blocks b).startingAddress)
      ∨ ∃ x : Addr ws, g.addressMap[x]? = some b

variable {flags wanted : Addr ws → Prop} {next : Option (Addr ws)} {laid rest : Layout ws}
  {b : BlockId} {s : Span ws}

@[simp] theorem held_cons {x : Addr ws} :
    Held ((b, s) :: rest) x ↔ x ∈ s.members ∨ Held rest x := List.exists_mem_cons_iff ..

/-- Which instructions are held depends on the members alone. -/
theorem held_congr {s' : Span ws} (hmem : s'.members = s.members) {x : Addr ws} :
    Held ((b, s') :: rest) x ↔ Held ((b, s) :: rest) x := by
  rw [held_cons, held_cons, hmem]

theorem Laid.not_held_two (h : Laid flags wanted next laid g) : ¬ Held laid 2 := by
  rintro ⟨p, hp, h2⟩
  exact ne_two_of_above (h.above p hp 2 h2) rfl

/-- A block an address is mapped to is no flag's. -/
theorem Laid.not_isFlag (h : Laid flags wanted next laid g) {x : Addr ws}
    (hx : g.addressMap[x]? = some b) : ¬ IsFlag (g.blocks b).startingAddress := by
  by_cases hheld : Held laid x
  · obtain ⟨p, hp, hmem⟩ := hheld
    have hb := (h.isBlock p hp).members x hmem
    rw [hx] at hb
    cases hb
    rw [(h.isBlock p hp).starting]
    exact not_isFlag_of_above (h.above p hp _ (h.isBlock p hp).starting_mem)
  · by_cases h2 : x = 2
    · subst h2
      rw [h.return_address] at hx
      cases hx
      rw [h.return_block.1]
      exact not_isFlag_two
    · rw [(h.waiting x b hheld h2 hx).1]
      exact not_isFlag_zero

/-- The block of a target, or of an instruction to come, is where it leads. -/
theorem Laid.leadsTo (h : Laid flags wanted next laid g) {a : Addr ws}
    (ha : wanted a ∨ ¬ Held laid a) (hb : g.addressMap[a]? = some b) : LeadsTo g a b := by
  refine ⟨hb, ?_⟩
  by_cases hheld : Held laid a
  · obtain ⟨p, hp, hmem⟩ := hheld
    have hpb := (h.isBlock p hp).members a hmem
    rw [hb] at hpb
    cases hpb
    left
    rw [(h.isBlock p hp).starting]
    exact (h.inner p hp a hmem (ha.resolve_right fun hn => hn ⟨p, hp, hmem⟩)).symm
  · by_cases h2 : a = 2
    · subst h2
      rw [h.return_address] at hb
      cases hb
      exact Or.inl h.return_block.1
    · exact Or.inr (h.waiting a b hheld h2 hb).1

/-- A span's block is not another one's. -/
theorem Laid.ne_of_rest (h : Laid flags wanted next ((b, s) :: rest) g) {p : BlockId × Span ws}
    (hp : p ∈ rest) : p.1 ≠ b := by
  rintro rfl
  exact (List.nodup_cons.mp h.nodup).1 (List.mem_map.mpr ⟨p, hp, rfl⟩)

/-- The instruction after a branch may be waited for, or no longer. -/
theorem Laid.retarget (h : Laid flags wanted next laid g) (next' : Option (Addr ws))
    (hnext : ∀ a, next = some a → ¬ Held laid a → wanted a ∨ next' = some a) :
    Laid flags wanted next' laid g :=
  { h with
    waiting := fun x b hx h2 hb => by
      obtain ⟨hs, he, hsuccs, hw⟩ := h.waiting x b hx h2 hb
      exact ⟨hs, he, hsuccs, hw.elim Or.inl fun hn => hnext x hn hx⟩ }

/-! ## Operations that keep the addresses -/

theorem LeadsTo.keep {a : Addr ws} {c : BlockId} (h : LeadsTo g a c)
    (hmap : ∀ x : Addr ws, g'.addressMap[x]? = g.addressMap[x]?)
    (hstart : ∀ c, (g'.blocks c).startingAddress = (g.blocks c).startingAddress) :
    LeadsTo g' a c := by
  unfold LeadsTo
  rw [hmap, hstart]
  exact h

/-- The block under construction may change, the others stay. -/
theorem Laid.rebuild (h : Laid flags wanted next ((b, s) :: rest) g) {s' : Span ws}
    (hmem : s'.members = s.members) (hspan : s'.starting = s.starting)
    (hnext : g'.next = g.next) (hret : g'.returnNode = g.returnNode)
    (hmap : ∀ x : Addr ws, g'.addressMap[x]? = g.addressMap[x]?)
    (hstart : ∀ c, (g'.blocks c).startingAddress = (g.blocks c).startingAddress)
    (hfree : ∀ (x : Addr ws) c, ¬ Held ((b, s) :: rest) x → g.addressMap[x]? = some c →
      (g'.blocks c).endingAddress = (g.blocks c).endingAddress
        ∧ (g'.blocks c).successors = (g.blocks c).successors)
    (hself : IsBlock g' b s') (hrest : ∀ p ∈ rest, IsBlock g' p.1 p.2) :
    Laid flags wanted next ((b, s') :: rest) g' := by
  have hheld : ∀ x, Held ((b, s') :: rest) x ↔ Held ((b, s) :: rest) x := fun _ =>
    held_congr hmem
  have hnode := hfree 2 _ h.not_held_two h.return_address
  refine ⟨h.nodup, ?_, ?_, ?_, ?_, ?_, ?_, ?_, ?_, ?_⟩
  -- the members are the same, so `above` and `inner` stay
  · intro p hp a ha
    rcases List.mem_cons.mp hp with rfl | hp
    · rw [hmem] at ha
      exact h.above (b, s) List.mem_cons_self a ha
    · exact h.above p (List.mem_cons_of_mem _ hp) a ha
  · intro p hp a ha hw
    rcases List.mem_cons.mp hp with rfl | hp
    · rw [hmem] at ha
      exact (h.inner (b, s) List.mem_cons_self a ha hw).trans hspan.symm
    · exact h.inner p (List.mem_cons_of_mem _ hp) a ha hw
  · intro p hp
    rcases List.mem_cons.mp hp with rfl | hp
    · exact hself
    · exact hrest p hp
  -- the rest is about addresses that no span holds
  · rw [hmap, hret]
    exact h.return_address
  · rw [hret, hstart, hnode.1, hnode.2]
    exact h.return_block
  · intro x c hx
    rw [hmap] at hx
    rw [hnext]
    exact h.lt x c hx
  · intro x y c hx hxc hyc
    rw [hheld] at hx
    rw [hmap] at hxc hyc
    exact h.alone x y c hx hxc hyc
  · intro x c hx h2 hxc
    rw [hheld] at hx
    rw [hmap] at hxc
    rw [hstart, (hfree x c hx hxc).1, (hfree x c hx hxc).2]
    exact h.waiting x c hx h2 hxc
  · intro c hc
    rw [hnext] at hc
    rw [hstart]
    exact (h.covered c hc).imp_right fun ⟨x, hx⟩ => ⟨x, (hmap x).trans hx⟩

/-- Two graphs that differ in predecessors at most. -/
structure Alike (g g' : RoutineGraph ws) : Prop where
  next : g'.next = g.next
  returnNode : g'.returnNode = g.returnNode
  addressMap : ∀ x : Addr ws, g'.addressMap[x]? = g.addressMap[x]?
  starting : ∀ c, (g'.blocks c).startingAddress = (g.blocks c).startingAddress
  ending : ∀ c, (g'.blocks c).endingAddress = (g.blocks c).endingAddress
  successors : ∀ c, (g'.blocks c).successors = (g.blocks c).successors

theorem Alike.trans {g'' : RoutineGraph ws} (h : Alike g g') (h' : Alike g' g'') :
    Alike g g'' where
  next := h'.next.trans h.next
  returnNode := h'.returnNode.trans h.returnNode
  addressMap x := (h'.addressMap x).trans (h.addressMap x)
  starting c := (h'.starting c).trans (h.starting c)
  ending c := (h'.ending c).trans (h.ending c)
  successors c := (h'.successors c).trans (h.successors c)

theorem Alike.of_blocks (hnext : g'.next = g.next) (hret : g'.returnNode = g.returnNode)
    (hmap : ∀ x : Addr ws, g'.addressMap[x]? = g.addressMap[x]?)
    (hblocks : ∀ c, g'.blocks c = g.blocks c) : Alike g g' where
  next := hnext
  returnNode := hret
  addressMap := hmap
  starting c := congrArg _ (hblocks c)
  ending c := congrArg _ (hblocks c)
  successors c := congrArg _ (hblocks c)

/-- The layout does not look at predecessors. -/
theorem Laid.alike (h : Laid flags wanted next ((b, s) :: rest) g) (ha : Alike g g') :
    Laid flags wanted next ((b, s) :: rest) g' := by
  have hblock : ∀ p ∈ (b, s) :: rest, IsBlock g' p.1 p.2 := fun p hp =>
    (h.isBlock p hp).frame (Nat.le_of_eq ha.next.symm) (fun a _ => ha.addressMap a)
      (fun a c hl => hl.keep ha.addressMap ha.starting)
      ⟨ha.starting _, ha.ending _, ha.successors _⟩
      fun k _ _ _ => ⟨ha.starting k, ha.successors k⟩
  exact h.rebuild rfl rfl ha.next ha.returnNode ha.addressMap ha.starting
    (fun x c _ _ => ⟨ha.ending c, ha.successors c⟩) (hblock _ List.mem_cons_self)
    fun p hp => hblock p (List.mem_cons_of_mem _ hp)

theorem alike_insertPreds (c k : BlockId) (g : RoutineGraph ws) :
    Alike g (insertPreds c k g) where
  next := rfl
  returnNode := rfl
  addressMap _ := rfl
  starting x := field_modifyBlock BasicBlock.startingAddress (fun _ => by rfl) c x g
  ending x := field_modifyBlock BasicBlock.endingAddress (fun _ => by rfl) c x g
  successors x := field_modifyBlock BasicBlock.successors (fun _ => by rfl) c x g

/-- A change to the block under construction. -/
theorem Laid.afterModify (h : Laid flags wanted next ((b, s) :: rest) g)
    {f : BasicBlock ws → BasicBlock ws} {s' : Span ws} (hmem : s'.members = s.members)
    (hspan : s'.starting = s.starting)
    (hf : ∀ x, (f x).startingAddress = x.startingAddress)
    (hself : IsBlock (modifyBlock b f g) b s') :
    Laid flags wanted next ((b, s') :: rest) (modifyBlock b f g) := by
  have hother : ∀ c, c ≠ b → (modifyBlock b f g).blocks c = g.blocks c :=
    fun c hc => by rw [blocks_modifyBlock, if_neg hc]
  have hstart : ∀ c, ((modifyBlock b f g).blocks c).startingAddress
      = (g.blocks c).startingAddress :=
    fun c => field_modifyBlock BasicBlock.startingAddress hf b c g
  have hb := h.isBlock (b, s) List.mem_cons_self
  have hmapped : g.addressMap[s.starting]? = some b := hb.members _ hb.starting_mem
  refine h.rebuild hmem hspan rfl rfl (fun _ => rfl) hstart (fun x c hx hxc => ?_) hself
    fun p hp => ?_
  · have hc : c ≠ b := by
      rintro rfl
      have heq := h.alone x s.starting c hx hxc hmapped
      exact hx (heq ▸ ⟨_, List.mem_cons_self, hb.starting_mem⟩)
    rw [hother c hc]
    exact ⟨rfl, rfl⟩
  · refine (h.isBlock p (List.mem_cons_of_mem _ hp)).frame (Nat.le_refl _) (fun _ _ => rfl)
      (fun a c hl => hl.keep (fun _ => rfl) hstart) ?_ fun k _ _ hk => ?_
    · rw [hother p.1 (h.ne_of_rest hp)]
      exact ⟨rfl, rfl, rfl⟩
    · -- a flag's block is not the one under construction
      have hkb : k ≠ b := by
        rintro rfl
        exact h.not_isFlag hmapped hk
      rw [hother k hkb]
      exact ⟨rfl, rfl⟩

/-- `setEnding`. -/
theorem Laid.afterSetEnding (h : Laid flags wanted next ((b, s) :: rest) g) (a : Addr ws) :
    Laid flags wanted next ((b, { s with ending := a }) :: rest) (setEnding b a g) := by
  have hb := h.isBlock (b, s) List.mem_cons_self
  have hstart : ∀ c, ((setEnding b a g).blocks c).startingAddress
      = (g.blocks c).startingAddress :=
    fun c => field_modifyBlock BasicBlock.startingAddress (fun _ => by rfl) b c g
  have hsuccs : ∀ c, ((setEnding b a g).blocks c).successors = (g.blocks c).successors :=
    fun c => field_modifyBlock BasicBlock.successors (fun _ => by rfl) b c g
  have hlead : ∀ k e, Leads g k e → Leads (setEnding b a g) k e :=
    fun k e hl => hl.frame (Nat.le_refl _)
      (fun x c hx => hx.keep (fun _ => rfl) hstart) fun _ _ => ⟨hstart k, hsuccs k⟩
  refine h.afterModify rfl rfl (fun _ => rfl) ⟨?_, ?_, hb.members, hb.starting_mem, ?_, ?_⟩
  · exact (hstart b).trans hb.starting
  · show ((setEnding b a g).blocks b).endingAddress = a
    rw [setEnding]
    rw [blocks_modifyBlock, if_pos rfl]
  · intro k hk
    obtain ⟨e, he, hl⟩ := hb.exit_of k (hsuccs b ▸ hk)
    exact ⟨e, he, hlead k e hl⟩
  · intro e he
    obtain ⟨k, hk, hl⟩ := hb.of_exit e he
    exact ⟨k, (hsuccs b).symm ▸ hk, hlead k e hl⟩

theorem blocks_insertSuccs (c k x : BlockId) (g : RoutineGraph ws) :
    (insertSuccs c k g).blocks x = if x = c
      then { g.blocks c with successors := (g.blocks c).successors.insert k }
      else g.blocks x := blocks_modifyBlock ..

theorem starting_insertSuccs (c k x : BlockId) (g : RoutineGraph ws) :
    ((insertSuccs c k g).blocks x).startingAddress = (g.blocks x).startingAddress :=
  field_modifyBlock BasicBlock.startingAddress (fun _ => by rfl) c x g

/-- `insertSuccs`: a new exit. -/
theorem Laid.afterInsertSuccs (h : Laid flags wanted next ((b, s) :: rest) g) {k : BlockId}
    {e : Exit ws} (hk : Leads g k e) :
    Laid flags wanted next ((b, { s with exits := e :: s.exits }) :: rest) (insertSuccs b k g) := by
  have hb := h.isBlock (b, s) List.mem_cons_self
  have hstart := fun c => starting_insertSuccs b k c g
  have hsuccs : ∀ c, c ∈ ((insertSuccs b k g).blocks b).successors
      ↔ c = k ∨ c ∈ (g.blocks b).successors := by
    intro c
    rw [blocks_insertSuccs, if_pos rfl]
    exact List.mem_insert_iff
  have hlead : ∀ c e', Leads g c e' → Leads (insertSuccs b k g) c e' := by
    intro c e' hl
    refine hl.frame (Nat.le_refl _)
      (fun x c hx => hx.keep (fun _ => rfl) hstart) fun _ hflag => ?_
    have hcb : c ≠ b := by
      rintro rfl
      exact h.not_isFlag (hb.members _ hb.starting_mem) hflag
    rw [blocks_insertSuccs, if_neg hcb]
    exact ⟨rfl, rfl⟩
  refine h.afterModify rfl rfl (fun _ => rfl) ⟨?_, ?_, hb.members, hb.starting_mem, ?_, ?_⟩
  · exact (hstart b).trans hb.starting
  · show ((insertSuccs b k g).blocks b).endingAddress = s.ending
    rw [blocks_insertSuccs, if_pos rfl]
    exact hb.ending
  · intro c hc
    rcases (hsuccs c).mp hc with rfl | hc
    · exact ⟨e, List.mem_cons_self, hlead _ e hk⟩
    · obtain ⟨e', he', hl⟩ := hb.exit_of c hc
      exact ⟨e', List.mem_cons_of_mem _ he', hlead c e' hl⟩
  · intro e' he'
    rcases List.mem_cons.mp he' with rfl | he'
    · exact ⟨k, (hsuccs k).mpr (Or.inl rfl), hlead k e' hk⟩
    · obtain ⟨c, hc, hl⟩ := hb.of_exit e' he'
      exact ⟨c, (hsuccs c).mpr (Or.inr hc), hlead c e' hl⟩

/-! ## New blocks -/

/-- One more block: a flag's, or the one `a?` waits in. -/
theorem Laid.grow (h : Laid flags wanted next laid g) (hnext : g'.next = g.next + 1)
    (hret : g'.returnNode = g.returnNode) (hblocks : ∀ c, c ≠ g.next → g'.blocks c = g.blocks c)
    (a? : Option (Addr ws))
    (hmap : ∀ x : Addr ws,
      g'.addressMap[x]? = if a? = some x then some g.next else g.addressMap[x]?)
    (hfree : ∀ a : Addr ws, a? = some a → g.addressMap[a]? = none)
    (hwait : ∀ a, a? = some a → (g'.blocks g.next).startingAddress = 0
      ∧ (g'.blocks g.next).endingAddress = 0 ∧ (g'.blocks g.next).successors = []
      ∧ (wanted a ∨ next = some a))
    (hcover : (IsFlag (g'.blocks g.next).startingAddress
      ∧ flags (g'.blocks g.next).startingAddress) ∨ ∃ a, a? = some a) :
    Laid flags wanted next laid g' := by
  have hkeep : ∀ (x : Addr ws) c, g.addressMap[x]? = some c → g'.addressMap[x]? = some c := by
    intro x c hx
    have hne : a? ≠ some x := by
      intro ha
      rw [hfree x ha] at hx
      exact nomatch hx
    rw [hmap, if_neg hne]
    exact hx
  -- an address leads to the new block or where it led before
  have hcases : ∀ (x : Addr ws) c, g'.addressMap[x]? = some c →
      (a? = some x ∧ c = g.next) ∨ g.addressMap[x]? = some c := by
    intro x c hx
    rw [hmap] at hx
    by_cases ha : a? = some x
    · rw [if_pos ha] at hx
      exact Or.inl ⟨ha, (Option.some.inj hx).symm⟩
    · rw [if_neg ha] at hx
      exact Or.inr hx
  have hold : ∀ c, c < g.next → g'.blocks c = g.blocks c := fun c hc =>
    hblocks c (Nat.ne_of_lt hc)
  have hnode := hold _ (h.lt 2 _ h.return_address)
  refine ⟨h.nodup, h.above, h.inner, fun p hp => ?_, ?_, ?_, fun x c hx => ?_,
    fun x y c hx hxc hyc => ?_, fun x c hx h2 hxc => ?_, fun c hc => ?_⟩
  -- the new block is behind all the others, so the spans keep theirs
  · have hb := h.isBlock p hp
    have hlt := h.lt _ _ (hb.members _ hb.starting_mem)
    refine hb.frame (hnext ▸ Nat.le_succ _)
      (fun a ha => (hkeep a _ (hb.members a ha)).trans (hb.members a ha).symm)
      (fun a c hl => ⟨hkeep a c hl.1, ?_⟩) ?_ fun k _ hk _ => ?_
    · rw [hold c (h.lt a c hl.1)]
      exact hl.2
    · rw [hold _ hlt]
      exact ⟨rfl, rfl, rfl⟩
    · rw [hold k hk]
      exact ⟨rfl, rfl⟩
  · rw [hret]
    exact hkeep 2 _ h.return_address
  · rw [hret, hnode]
    exact h.return_block
  · rw [hnext]
    rcases hcases x c hx with ⟨-, rfl⟩ | hx
    · exact Nat.lt_succ_self _
    · exact Nat.lt_succ_of_lt (h.lt x c hx)
  -- two addresses of one block: both new, or both old
  · rcases hcases x c hxc with ⟨hax, hcn⟩ | hxc
    · rcases hcases y c hyc with ⟨hay, -⟩ | hyc
      · exact (Option.some.inj (hax.symm.trans hay)).symm
      · exact absurd (hcn ▸ h.lt y c hyc) (Nat.lt_irrefl _)
    · rcases hcases y c hyc with ⟨-, hcn⟩ | hyc
      · exact absurd (hcn ▸ h.lt x c hxc) (Nat.lt_irrefl _)
      · exact h.alone x y c hx hxc hyc
  · rcases hcases x c hxc with ⟨hax, rfl⟩ | hxc
    · exact hwait x hax
    · rw [hold c (h.lt x c hxc)]
      exact h.waiting x c hx h2 hxc
  · rw [hnext] at hc
    rcases Nat.lt_succ_iff_lt_or_eq.mp hc with hc | rfl
    · rw [hold c hc]
      exact (h.covered c hc).imp_right fun ⟨x, hx⟩ => ⟨x, hkeep x c hx⟩
    · refine hcover.imp_right fun ⟨a, ha⟩ => ⟨a, ?_⟩
      rw [hmap, if_pos ha]

/-- The block of a call or an indirect branch. -/
theorem Laid.afterNewBlock (h : Laid flags wanted next laid g) {flag : Addr ws} (hf : IsFlag flag)
    (hflags : flags flag) : Laid flags wanted next laid (newBlock flag flag g).2 := by
  refine h.grow rfl rfl (fun c hc => ?_) none (fun x => ?_) (fun _ ha => nomatch ha)
    (fun _ ha => nomatch ha) (Or.inl ?_)
  · rw [blocks_newBlock, if_neg hc]
  · rw [if_neg (by simp)]
    rfl
  · rw [blocks_newBlock, if_pos rfl]
    exact ⟨hf, hflags⟩

theorem getBasicBlockAt_of_some {a : Addr ws} (ha : g.addressMap[a]? = some b) :
    getBasicBlockAt a g = (b, g) := by
  rw [getBasicBlockAt]
  rw [ha]

theorem getBasicBlockAt_of_none {a : Addr ws} (ha : g.addressMap[a]? = none) :
    getBasicBlockAt a g
      = (g.next, insertBlock g.next (setAddress a g.next (newBlock 0 0 g).2)) := by
  rw [getBasicBlockAt]
  rw [ha]
  rfl

/-- The block `getBasicBlockAt` makes has nothing in it yet. -/
theorem blocks_getBasicBlockAt (a : Addr ws) (g : RoutineGraph ws) (c : BlockId) :
    (insertBlock g.next (setAddress a g.next (newBlock 0 0 g).2)).blocks c
      = if c = g.next then ⟨[], [], 0, 0⟩ else g.blocks c := blocks_newBlock ..

/-- The block at a target, or at the instruction after a branch. -/
theorem Laid.afterGet (h : Laid flags wanted next laid g) {a : Addr ws}
    (ha : wanted a ∨ next = some a) :
    Laid flags wanted next laid (getBasicBlockAt a g).2
      ∧ (getBasicBlockAt a g).2.addressMap[a]? = some (getBasicBlockAt a g).1 := by
  cases hb : g.addressMap[a]? with
  | some b =>
      rw [getBasicBlockAt_of_some hb]
      exact ⟨h, hb⟩
  | none =>
      rw [getBasicBlockAt_of_none hb]
      have hmap : ∀ x : Addr ws, (insertBlock g.next (setAddress a g.next
          (newBlock 0 0 g).2)).addressMap[x]?
            = if some a = some x then some g.next else g.addressMap[x]? := by
        intro x
        refine (getElem?_setAddress ..).trans (if_congr ?_ rfl rfl)
        exact ⟨fun hx => congrArg some hx.symm, fun hx => (Option.some.inj hx).symm⟩
      refine ⟨h.grow rfl rfl (fun c hc => ?_) (some a) hmap (fun x hx => ?_) (fun x hx => ?_)
        (Or.inr ⟨a, rfl⟩), ?_⟩
      · rw [blocks_getBasicBlockAt, if_neg hc]
      · cases hx
        exact hb
      · cases hx
        rw [blocks_getBasicBlockAt, if_pos rfl]
        exact ⟨rfl, rfl, rfl, ha⟩
      · rw [hmap, if_pos rfl]

/-- An address that an exit may lead to. -/
def Open (wanted : Addr ws → Prop) (next : Option (Addr ws)) (laid : Layout ws) (a : Addr ws) :
    Prop := wanted a ∨ (next = some a ∧ ¬ Held laid a)

theorem Open.congr {a : Addr ws} (h : Open wanted next ((b, s) :: rest) a) {s' : Span ws}
    (hmem : s'.members = s.members) : Open wanted next ((b, s') :: rest) a := by
  unfold Open
  rw [held_congr hmem]
  exact h

/-- `edgeTo`. -/
theorem Laid.afterEdgeTo (h : Laid flags wanted next ((b, s) :: rest) g) {a : Addr ws}
    (ha : Open wanted next ((b, s) :: rest) a) :
    Laid flags wanted next ((b, { s with exits := .direct a :: s.exits }) :: rest)
      (edgeTo a b g) := by
  obtain ⟨hg, hget⟩ := h.afterGet (ha.imp_right And.left)
  have hlead : LeadsTo (getBasicBlockAt a g).2 a (getBasicBlockAt a g).1 :=
    hg.leadsTo (ha.imp_right And.right) hget
  have hpreds := alike_insertPreds (getBasicBlockAt a g).1 b (getBasicBlockAt a g).2
  exact (hg.alike hpreds).afterInsertSuccs (e := .direct a)
    (hlead.keep hpreds.addressMap hpreds.starting)

/-! ## Calls -/

theorem Alike.afterInsertSuccs (h : Alike g g') (c k : BlockId) :
    Alike (insertSuccs c k g) (insertSuccs c k g') := by
  refine ⟨h.next, h.returnNode, h.addressMap, fun x => ?_, fun x => ?_, fun x => ?_⟩
  all_goals
    rw [blocks_insertSuccs, blocks_insertSuccs]
    by_cases hx : x = c
    · rw [if_pos hx, if_pos hx]
      simp only [h.starting, h.ending, h.successors]
    · rw [if_neg hx, if_neg hx]
      simp only [h.starting, h.ending, h.successors]

theorem Alike.afterGet (h : Alike g g') (a : Addr ws) :
    (getBasicBlockAt a g').1 = (getBasicBlockAt a g).1
      ∧ Alike (getBasicBlockAt a g).2 (getBasicBlockAt a g').2 := by
  cases ha : g.addressMap[a]? with
  | some b =>
      rw [getBasicBlockAt_of_some ha, getBasicBlockAt_of_some ((h.addressMap a).trans ha)]
      exact ⟨rfl, h⟩
  | none =>
      rw [getBasicBlockAt_of_none ha, getBasicBlockAt_of_none ((h.addressMap a).trans ha)]
      refine ⟨h.next, congrArg (· + 1) h.next, h.returnNode, fun x => ?_, fun x => ?_, fun x => ?_,
        fun x => ?_⟩
      · refine (getElem?_setAddress ..).trans (Eq.trans ?_ (getElem?_setAddress ..).symm)
        rw [h.next]
        exact if_congr Iff.rfl rfl (h.addressMap x)
      all_goals
        rw [blocks_getBasicBlockAt, blocks_getBasicBlockAt, h.next]
        by_cases hx : x = g.next
        · rw [if_pos hx, if_pos hx]
        · rw [if_neg hx, if_neg hx]
          simp only [h.starting, h.ending, h.successors]

/-- A successor of an old block and a block at an address, in either order. -/
theorem get_insertSuccs {c : BlockId} (hc : c < g.next) (k : BlockId) (a : Addr ws) :
    (getBasicBlockAt a (insertSuccs c k g)).1 = (getBasicBlockAt a g).1
      ∧ Alike (insertSuccs c k (getBasicBlockAt a g).2)
          (getBasicBlockAt a (insertSuccs c k g)).2 := by
  cases ha : g.addressMap[a]? with
  | some b =>
      have ha' : (insertSuccs c k g).addressMap[a]? = some b := ha
      rw [getBasicBlockAt_of_some ha, getBasicBlockAt_of_some ha']
      exact ⟨rfl, .of_blocks rfl rfl (fun _ => rfl) fun _ => rfl⟩
  | none =>
      have ha' : (insertSuccs c k g).addressMap[a]? = none := ha
      rw [getBasicBlockAt_of_none ha, getBasicBlockAt_of_none ha']
      have hsame : ∀ x, (insertBlock g.next (setAddress a g.next
          (newBlock 0 0 (insertSuccs c k g)).2)).blocks x
            = (insertSuccs c k (insertBlock g.next (setAddress a g.next
                (newBlock 0 0 g).2))).blocks x := by
        intro x
        have hcn : c ≠ g.next := Nat.ne_of_lt hc
        rw [blocks_insertSuccs, blocks_getBasicBlockAt, blocks_getBasicBlockAt, if_neg hcn]
        refine (blocks_getBasicBlockAt a (insertSuccs c k g) x).trans ?_
        rw [blocks_insertSuccs]
        show (if x = g.next then _ else _) = _
        by_cases hx : x = g.next
        · rw [if_pos hx, if_pos hx, if_neg (hx ▸ hcn.symm)]
        · rw [if_neg hx, if_neg hx]
      exact ⟨rfl, .of_blocks rfl rfl (fun _ => rfl) hsame⟩

/-- Successors of two blocks, in either order. -/
theorem insertSuccs_comm {c d : BlockId} (hcd : c ≠ d) (j k : BlockId) :
    Alike (insertSuccs c j (insertSuccs d k g)) (insertSuccs d k (insertSuccs c j g)) := by
  have hsame : ∀ x, (insertSuccs d k (insertSuccs c j g)).blocks x
      = (insertSuccs c j (insertSuccs d k g)).blocks x := by
    intro x
    simp only [blocks_insertSuccs]
    rw [if_neg hcd, if_neg hcd.symm]
    by_cases hxc : x = c
    · rw [if_pos hxc, if_neg (hxc ▸ hcd), if_pos hxc]
    · rw [if_neg hxc, if_neg hxc]
  exact .of_blocks rfl rfl (fun _ => rfl) hsame

/-- A call's block may get its successor: no span has an exit to it yet. -/
theorem Laid.continueCall (h : Laid flags wanted next ((b, s) :: rest) g) {k : BlockId}
    (hflag : (g.blocks k).startingAddress = 1 ∨ (g.blocks k).startingAddress = 4)
    (hsuccs : (g.blocks k).successors = []) (j : BlockId) :
    Laid flags wanted next ((b, s) :: rest) (insertSuccs k j g) := by
  have hisFlag : IsFlag (g.blocks k).startingAddress := hflag.imp_right Or.inl
  have hother : ∀ c, c ≠ k → (insertSuccs k j g).blocks c = g.blocks c := fun c hc => by
    rw [blocks_insertSuccs, if_neg hc]
  have hstart := fun c => starting_insertSuccs k j c g
  -- the block of a call is at no address
  have hmapped : ∀ (x : Addr ws) c, g.addressMap[x]? = some c → c ≠ k := by
    rintro x c hx rfl
    exact h.not_isFlag hx hisFlag
  have hblock : ∀ p ∈ (b, s) :: rest, IsBlock (insertSuccs k j g) p.1 p.2 := by
    intro p hp
    have hb := h.isBlock p hp
    refine hb.frame (Nat.le_refl _) (fun _ _ => rfl) (fun a c hl => hl.keep (fun _ => rfl) hstart)
      ?_ fun c hc _ _ => ?_
    · rw [hother p.1 (hmapped _ _ (hb.members _ hb.starting_mem))]
      exact ⟨rfl, rfl, rfl⟩
    -- no exit leads to it: its call has no successor yet, and it is not 5
    · have hck : c ≠ k := by
        rintro rfl
        obtain ⟨e, he, hl⟩ := hb.exit_of c hc
        cases e with
        | direct a => exact hmapped a c hl.1 rfl
        | call flag a =>
            obtain ⟨-, -, -, i, -, hi⟩ := hl
            rw [hsuccs] at hi
            exact nomatch hi
        | indirect =>
            obtain ⟨-, hs, -⟩ := hl
            rw [hs] at hflag
            revert hflag
            cases ws <;> decide
      rw [hother c hck]
      exact ⟨rfl, rfl⟩
  exact h.rebuild rfl rfl rfl rfl (fun _ => rfl) hstart
    (fun x c _ hx => by rw [hother c (hmapped x c hx)]; exact ⟨rfl, rfl⟩)
    (hblock _ List.mem_cons_self) fun p hp => hblock p (List.mem_cons_of_mem _ hp)

/-- An edge through the block of a call. -/
theorem Laid.linkCall (h : Laid flags wanted next ((b, s) :: rest) g) {flag : Addr ws}
    (hf : flag = 1 ∨ flag = 4) (hflags : flags flag) {a : Addr ws}
    (ha : Open wanted next ((b, s) :: rest) a) :
    Laid flags wanted next ((b, { s with exits := .call flag a :: s.exits }) :: rest)
      (insertSuccs b g.next (insertSuccs g.next
        (getBasicBlockAt a (newBlock flag flag g).2).1
        (getBasicBlockAt a (newBlock flag flag g).2).2)) := by
  have hnew := h.afterNewBlock (hf.imp_right Or.inl) hflags
  obtain ⟨hg, hget⟩ := hnew.afterGet (ha.imp_right And.left)
  have hlead : LeadsTo (getBasicBlockAt a (newBlock flag flag g).2).2 a
      (getBasicBlockAt a (newBlock flag flag g).2).1 := hg.leadsTo (ha.imp_right And.right) hget
  -- `Get_BasicBlock_At` leaves the block of the call as it was made
  have hk : (getBasicBlockAt a (newBlock flag flag g).2).2.blocks g.next
      = ⟨[], [], flag, flag⟩ ∧ g.next < (getBasicBlockAt a (newBlock flag flag g).2).2.next := by
    cases hmap : (newBlock flag flag g).2.addressMap[a]? with
    | some c =>
        rw [getBasicBlockAt_of_some hmap]
        rw [blocks_newBlock, if_pos rfl]
        exact ⟨rfl, Nat.lt_succ_self _⟩
    | none =>
        rw [getBasicBlockAt_of_none hmap]
        have hne : g.next ≠ (newBlock flag flag g).2.next := Nat.ne_of_lt (Nat.lt_succ_self _)
        refine ⟨(blocks_getBasicBlockAt ..).trans ?_, Nat.lt_succ_of_lt (Nat.lt_succ_self _)⟩
        rw [if_neg hne, blocks_newBlock, if_pos rfl]
  generalize getBasicBlockAt a (newBlock flag flag g).2 = found at hg hlead hk ⊢
  obtain ⟨j, g₁⟩ := found
  obtain ⟨hblock, hlt⟩ := hk
  have hstart : (g₁.blocks g.next).startingAddress = flag := by rw [hblock]
  have hcall := hg.continueCall (k := g.next) (hstart.symm ▸ hf) (by rw [hblock]) j
  have hsucc : (insertSuccs g.next j g₁).blocks g.next = ⟨[j], [], flag, flag⟩ := by
    rw [blocks_insertSuccs, if_pos rfl, hblock]
    rfl
  refine hcall.afterInsertSuccs (e := .call flag a) ⟨hlt, hf, ?_, j, ?_, ?_⟩
  · rw [hsucc]
  · exact hlead.keep (fun _ => rfl) fun c => starting_insertSuccs g.next j c g₁
  · rw [hsucc]

/-- The call of `callBranch` and `indirectCallBranch`, without predecessors. -/
theorem alike_linkCall {flag : Addr ws} (hb : b < g.next) {g₁ g₂ g₃ : RoutineGraph ws}
    (a : Addr ws) (h₁ : Alike (insertSuccs b g.next (newBlock flag flag g).2) g₁)
    (h₂ : Alike (getBasicBlockAt a g₁).2 g₂)
    (h₃ : g₃ = insertSuccs g.next (getBasicBlockAt a g₁).1 g₂) :
    Alike (insertSuccs b g.next (insertSuccs g.next
      (getBasicBlockAt a (newBlock flag flag g).2).1
      (getBasicBlockAt a (newBlock flag flag g).2).2)) g₃ := by
  obtain ⟨hfst, hget⟩ := h₁.afterGet a
  obtain ⟨hfst', hget'⟩ := get_insertSuccs (g := (newBlock flag flag g).2)
    (Nat.lt_succ_of_lt hb) g.next a
  have hne : b ≠ g.next := Nat.ne_of_lt hb
  rw [h₃, hfst, hfst']
  exact (insertSuccs_comm hne _ _).trans
    (((hget'.trans hget).trans h₂).afterInsertSuccs g.next _)

/-! ## Ending a block -/

theorem Laid.lt_next (h : Laid flags wanted next ((b, s) :: rest) g) : b < g.next := by
  have hb := h.isBlock (b, s) List.mem_cons_self
  exact h.lt _ _ (hb.members _ hb.starting_mem)

theorem Laid.afterCallBranch (h : Laid flags wanted next ((b, s) :: rest) g)
    {fallThrough : RtnIns ws} (hflags : flags 1)
    (ha : Open wanted next ((b, s) :: rest) fallThrough.address) :
    ∃ g', callBranch b (some fallThrough) g = some g'
      ∧ Laid flags wanted next
          ((b, { s with exits := .call 1 fallThrough.address :: s.exits }) :: rest) g' := by
  refine ⟨_, rfl, (h.linkCall (Or.inl rfl) hflags ha).alike ?_⟩
  exact alike_linkCall h.lt_next fallThrough.address (alike_insertPreds ..) (alike_insertPreds ..)
    rfl

/-- The block of an indirect call or branch, without predecessors. -/
theorem alike_indirectTarget (flag : Addr ws) (b : BlockId) (g : RoutineGraph ws) :
    Alike (insertSuccs b g.next (newBlock flag flag g).2) (indirectTarget flag b g).2 := by
  have hins : Alike (newBlock flag flag g).2 (insertBlock g.next (newBlock flag flag g).2) :=
    .of_blocks rfl rfl (fun _ => rfl) fun _ => rfl
  exact (hins.trans (alike_insertPreds ..)).afterInsertSuccs b g.next

theorem Laid.afterIndirectCallBranch (h : Laid flags wanted next ((b, s) :: rest) g)
    {fallThrough : RtnIns ws} (hflags : flags 4)
    (ha : Open wanted next ((b, s) :: rest) fallThrough.address) :
    ∃ g', indirectCallBranch b (some fallThrough) g = some g'
      ∧ Laid flags wanted next
          ((b, { s with exits := .call 4 fallThrough.address :: s.exits }) :: rest) g' := by
  refine ⟨_, rfl, (h.linkCall (Or.inr rfl) hflags ha).alike ?_⟩
  exact alike_linkCall h.lt_next fallThrough.address (alike_indirectTarget 4 b g)
    (alike_insertPreds ..) rfl

theorem Laid.afterIndirectTarget (h : Laid flags wanted next ((b, s) :: rest) g)
    (hflags : flags 5) :
    Laid flags wanted next ((b, { s with exits := .indirect :: s.exits }) :: rest)
      (indirectTarget 5 b g).2 := by
  have hnew : Laid flags wanted next ((b, s) :: rest) (newBlock 5 5 g).2 :=
    h.afterNewBlock (Or.inr (Or.inr rfl)) hflags
  have hblock : (newBlock 5 5 g).2.blocks g.next = ⟨[], [], 5, 5⟩ := by
    rw [blocks_newBlock, if_pos rfl]
  refine (hnew.afterInsertSuccs (k := g.next) (e := .indirect) ⟨Nat.lt_succ_self _, ?_, ?_⟩).alike
    (alike_indirectTarget 5 b g)
  · rw [hblock]
  · rw [hblock]

theorem Laid.afterReturnBranch (h : Laid flags wanted next ((b, s) :: rest) g) :
    ∃ g', returnBranch b g = some g'
      ∧ Laid flags wanted next ((b, { s with exits := .direct 2 :: s.exits }) :: rest) g' := by
  have hpreds := alike_insertPreds g.returnNode b g
  have hlead : LeadsTo g 2 g.returnNode := ⟨h.return_address, Or.inl h.return_block.1⟩
  refine ⟨insertSuccs b g.returnNode (insertPreds g.returnNode b g), ?_,
    (h.alike hpreds).afterInsertSuccs (e := .direct 2)
      (hlead.keep hpreds.addressMap hpreds.starting)⟩
  rw [returnBranch]
  rw [h.return_address]
  rfl

/-- The flag of a branch is one of `flags`; without a flag, its targets are
wanted. -/
def Foreseen (m : JumpMaps ws) (flags wanted : Addr ws → Prop) (ins : RtnIns ws) : Prop :=
  ∀ target others, m.branches.getD ins.address [] = target :: others →
    (IsFlag target → flags target)
      ∧ (¬ IsFlag target → target ≠ 2 → ∀ a ∈ target :: others, wanted a)

variable {m : JumpMaps ws} {currentIns : RtnIns ws} {nextIns : Option (RtnIns ws)}

theorem Laid.afterRegularBranch (h : Laid flags wanted next ((b, s) :: rest) g)
    (hexits : s.exits = []) {target : Addr ws} {others : List (Addr ws)}
    (hw : ∀ a ∈ target :: others, wanted a)
    (hnext : ∀ fallThrough, nextIns = some fallThrough →
      Open wanted next ((b, s) :: rest) fallThrough.address) :
    Related (fun g' exits => Laid flags wanted next ((b, { s with exits := exits }) :: rest) g')
      (regularBranch b target others nextIns g)
      (regularExits target others nextIns s.starting) := by
  have hedge := h.afterEdgeTo (Or.inl (hw target List.mem_cons_self))
  rw [hexits] at hedge
  rw [regularBranch.eq_def, regularExits.eq_def]
  cases others with
  | cons other others =>
      exact hedge.afterEdgeTo (Or.inl (hw other (List.mem_cons_of_mem _ List.mem_cons_self)))
  | nil =>
      have hstart := (hedge.isBlock _ List.mem_cons_self).starting
      simp only at hstart ⊢
      rw [hstart]
      by_cases hself : target = s.starting
      · rw [if_pos hself, if_pos hself]
        cases nextIns with
        | none => trivial
        | some fallThrough => exact hedge.afterEdgeTo ((hnext fallThrough rfl).congr rfl)
      · rw [if_neg hself, if_neg hself]
        exact hedge

/-- `BranchIns` gives the block it ends the exits of `exitsAt`. -/
theorem Laid.afterBranchIns
    (h : Laid flags wanted next ((b, s) :: rest)
      (setAddress currentIns.address b (setEnding b currentIns.address g)))
    (hexits : s.exits = [])
    (hnext : ∀ fallThrough, nextIns = some fallThrough →
      Open wanted next ((b, s) :: rest) fallThrough.address)
    (hw : Foreseen m flags wanted currentIns) :
    Related (fun g' exits => Laid flags wanted next ((b, { s with exits := exits }) :: rest) g')
      (branchIns m currentIns nextIns b g) (exitsAt m currentIns nextIns s.starting) := by
  rw [branchIns, exitsAt]
  cases hset : m.branches.getD currentIns.address [] with
  | nil => trivial
  | cons target others =>
      obtain ⟨hflags, hw⟩ := hw target others hset
      simp only
      -- the cases of `BranchIns`, in its order
      by_cases h1 : target = 1
      · rw [if_pos h1, if_pos h1]
        cases nextIns with
        | none => trivial
        | some fallThrough =>
            obtain ⟨g', hrun, hg⟩ := h.afterCallBranch
              (h1 ▸ hflags (Or.inl h1)) (hnext fallThrough rfl)
            rw [hrun]
            rw [hexits] at hg
            exact hg
      rw [if_neg h1, if_neg h1]
      by_cases h2 : target = 2
      · rw [if_pos h2, if_pos h2]
        obtain ⟨g', hrun, hg⟩ := h.afterReturnBranch
        rw [hrun]
        rw [hexits] at hg
        exact hg
      rw [if_neg h2, if_neg h2]
      by_cases h4 : target = 4
      · rw [if_pos h4, if_pos h4]
        cases nextIns with
        | none => trivial
        | some fallThrough =>
            obtain ⟨g', hrun, hg⟩ := h.afterIndirectCallBranch
              (h4 ▸ hflags (Or.inr (Or.inl h4))) (hnext fallThrough rfl)
            rw [hrun]
            rw [hexits] at hg
            exact hg
      rw [if_neg h4, if_neg h4]
      by_cases h5 : target = 5
      · rw [if_pos h5, if_pos h5]
        have hg := h.afterIndirectTarget (h5 ▸ hflags (Or.inr (Or.inr h5)))
        rw [hexits] at hg
        exact hg
      rw [if_neg h5, if_neg h5]
      -- what is left are regular targets
      have hregular : ¬ IsFlag target := by
        rintro (h | h | h)
        · exact h1 h
        · exact h4 h
        · exact h5 h
      exact h.afterRegularBranch hexits (hw hregular h2) hnext

/-! ## The next instruction -/

/-- An instruction joins the span under construction. -/
theorem Laid.afterSetAddress (h : Laid flags wanted next ((b, s) :: rest) g) {a : Addr ws}
    (ha : 5 < a) (hw : ¬ wanted a) (hfree : g.addressMap[a]? = none) :
    Laid flags wanted next ((b, s.add a) :: rest) (setAddress a b g) := by
  have hb := h.isBlock (b, s) List.mem_cons_self
  have hmapped : g.addressMap[s.starting]? = some b := hb.members _ hb.starting_mem
  have hkeep : ∀ (x : Addr ws) c, g.addressMap[x]? = some c →
      (setAddress a b g).addressMap[x]? = some c := by
    intro x c hx
    have hne : x ≠ a := by
      rintro rfl
      rw [hfree] at hx
      exact nomatch hx
    rw [getElem?_setAddress, if_neg hne]
    exact hx
  have hheld : ∀ x, Held ((b, s.add a) :: rest) x ↔ x = a ∨ Held ((b, s) :: rest) x := by
    intro x
    rw [held_cons, held_cons, ← or_assoc]
    exact or_congr List.mem_cons Iff.rfl
  have hold : ∀ (x : Addr ws) c, x ≠ a → (setAddress a b g).addressMap[x]? = some c →
      g.addressMap[x]? = some c := by
    intro x c hx hc
    rw [getElem?_setAddress, if_neg hx] at hc
    exact hc
  have hblock : ∀ p ∈ (b, s) :: rest, IsBlock (setAddress a b g) p.1 p.2 := by
    intro p hp
    have hpb := h.isBlock p hp
    exact hpb.frame (Nat.le_refl _)
      (fun x hx => (hkeep x _ (hpb.members x hx)).trans (hpb.members x hx).symm)
      (fun x c hl => ⟨hkeep x c hl.1, hl.2⟩) ⟨rfl, rfl, rfl⟩ fun _ _ _ _ => ⟨rfl, rfl⟩
  have hself := hblock _ List.mem_cons_self
  refine ⟨h.nodup, fun p hp x hx => ?_, fun p hp x hx hwx => ?_, fun p hp => ?_,
    hkeep 2 _ h.return_address, h.return_block, fun x c hx => ?_, fun x y c hx hxc hyc => ?_,
    fun x c hx h2 hxc => ?_, fun c hc => ?_⟩
  · rcases List.mem_cons.mp hp with rfl | hp
    · rcases List.mem_cons.mp hx with rfl | hx
      · exact ha
      · exact h.above (b, s) List.mem_cons_self x hx
    · exact h.above p (List.mem_cons_of_mem _ hp) x hx
  · rcases List.mem_cons.mp hp with rfl | hp
    · rcases List.mem_cons.mp hx with rfl | hx
      · exact absurd hwx hw
      · exact h.inner (b, s) List.mem_cons_self x hx hwx
    · exact h.inner p (List.mem_cons_of_mem _ hp) x hx hwx
  · rcases List.mem_cons.mp hp with rfl | hp
    · refine ⟨hself.starting, hself.ending, fun x hx => ?_,
        List.mem_cons_of_mem _ hself.starting_mem, hself.exit_of, hself.of_exit⟩
      rcases List.mem_cons.mp hx with rfl | hx
      · rw [getElem?_setAddress, if_pos rfl]
      · exact hself.members x hx
    · exact hblock p (List.mem_cons_of_mem _ hp)
  · by_cases hxa : x = a
    · rw [getElem?_setAddress, if_pos hxa] at hx
      cases hx
      exact h.lt _ _ hmapped
    · exact h.lt x c (hold x c hxa hx)
  · obtain ⟨hxa, hx⟩ := not_or.mp (mt (hheld x).mpr hx)
    have hxc := hold x c hxa hxc
    by_cases hya : y = a
    · rw [getElem?_setAddress, if_pos hya] at hyc
      cases hyc
      -- the block of an address to come would be the one under construction
      have heq := h.alone x s.starting _ hx hxc hmapped
      exact absurd (held_cons.mpr (Or.inl (heq ▸ hb.starting_mem))) hx
    · exact h.alone x y c hx hxc (hold y c hya hyc)
  · obtain ⟨hxa, hx⟩ := not_or.mp (mt (hheld x).mpr hx)
    exact h.waiting x c hx h2 (hold x c hxa hxc)
  · exact (h.covered c hc).imp_right fun ⟨x, hx⟩ => ⟨x, hkeep x c hx⟩

/-- A waiting block is started at its instruction. -/
theorem Laid.afterSetStarting (h : Laid flags wanted next laid g) {a : Addr ws} (ha : 5 < a)
    (hnew : ¬ Held laid a) (hb : g.addressMap[a]? = some b) :
    Laid flags wanted next ((b, .openAt a) :: laid) (setStarting b a g) := by
  obtain ⟨hzero, hend, hsuccs, -⟩ := h.waiting a b hnew (ne_two_of_above ha) hb
  have hblocks : ∀ c, (setStarting b a g).blocks c
      = if c = b then { g.blocks b with startingAddress := a } else g.blocks c :=
    fun c => blocks_modifyBlock ..
  -- the block waits for `a` alone, so no other address leads to it
  have hother : ∀ (x : Addr ws) c, x ≠ a → g.addressMap[x]? = some c →
      (setStarting b a g).blocks c = g.blocks c := by
    intro x c hx hc
    have hcb : c ≠ b := by
      rintro rfl
      exact hx (h.alone a x c hnew hb hc)
    rw [hblocks, if_neg hcb]
  have hlead : ∀ x c, LeadsTo g x c → LeadsTo (setStarting b a g) x c := by
    intro x c hl
    refine ⟨hl.1, ?_⟩
    by_cases hx : x = a
    · subst hx
      cases Option.some.inj (hb.symm.trans hl.1)
      rw [hblocks, if_pos rfl]
      exact Or.inl rfl
    · rw [hother x c hx hl.1]
      exact hl.2
  have hflag : ∀ k, IsFlag (g.blocks k).startingAddress →
      (setStarting b a g).blocks k = g.blocks k := by
    intro k hk
    have hkb : k ≠ b := by
      rintro rfl
      exact h.not_isFlag hb hk
    rw [hblocks, if_neg hkb]
  -- no span has `a` yet
  have hmember : ∀ p ∈ laid, ∀ x ∈ p.2.members, x ≠ a := by
    rintro p hp x hx rfl
    exact hnew ⟨p, hp, hx⟩
  have hself : (setStarting b a g).blocks b = { g.blocks b with startingAddress := a } := by
    rw [hblocks, if_pos rfl]
  refine ⟨List.nodup_cons.mpr ⟨fun hmem => ?_, h.nodup⟩, fun p hp x hx => ?_,
    fun p hp x hx hwx => ?_, fun p hp => ?_, h.return_address, ?_, h.lt, fun x y c hx => ?_,
    fun x c hx h2 hxc => ?_, fun c hc => ?_⟩
  -- a block of a span would be found at `a`
  · obtain ⟨p, hp, rfl⟩ := List.mem_map.mp hmem
    have hpb := h.isBlock p hp
    exact hmember p hp _ hpb.starting_mem
      (h.alone a _ _ hnew hb (hpb.members _ hpb.starting_mem))
  · rcases List.mem_cons.mp hp with rfl | hp
    · cases List.mem_singleton.mp hx
      exact ha
    · exact h.above p hp x hx
  · rcases List.mem_cons.mp hp with rfl | hp
    · exact List.mem_singleton.mp hx
    · exact h.inner p hp x hx hwx
  · rcases List.mem_cons.mp hp with rfl | hp
    · refine ⟨?_, ?_, fun x hx => ?_, List.mem_singleton.mpr rfl, fun k hk => ?_,
        fun e he => nomatch he⟩
      · rw [hself]
        rfl
      · rw [hself]
        exact hend
      · cases List.mem_singleton.mp hx
        exact hb
      · rw [hself] at hk
        have hk' : k ∈ (g.blocks b).successors := hk
        rw [hsuccs] at hk'
        exact nomatch hk'
    · have hpb := h.isBlock p hp
      refine hpb.frame (Nat.le_refl _) (fun _ _ => rfl) hlead ?_ fun k _ _ hk => ?_
      · rw [hother _ _ (hmember p hp _ hpb.starting_mem) (hpb.members _ hpb.starting_mem)]
        exact ⟨rfl, rfl, rfl⟩
      · rw [hflag k hk]
        exact ⟨rfl, rfl⟩
  · have hnode := hother 2 _ (ne_two_of_above ha).symm h.return_address
    have hret := h.return_block
    rw [← hnode] at hret
    exact hret
  · exact h.alone x y c fun hheld => hx (held_cons.mpr (Or.inr hheld))
  · rw [held_cons] at hx
    obtain ⟨hxa, hx⟩ := not_or.mp hx
    rw [hother x c (fun heq => hxa (List.mem_singleton.mpr heq)) hxc]
    exact h.waiting x c hx h2 hxc
  · rcases h.covered c hc with hk | hx
    · rw [hflag c hk.1]
      exact Or.inl hk
    · exact Or.inr hx

/-! ## The loop -/

/-- Between two turns: the graph lays out the spans ended and the one under
construction, and none holds an instruction to come. -/
def Stands (flags wanted : Addr ws → Prop) (coming : List (Addr ws)) (ended : Layout ws) :
    Option BlockId × RoutineGraph ws → Option (Span ws) → Prop
  | (none, g), none => Laid flags wanted coming.head? ended g ∧ ∀ a ∈ coming, ¬ Held ended a
  | (some b, g), some s => Laid flags wanted none ((b, s) :: ended) g
      ∧ (∀ a ∈ coming, ¬ Held ((b, s) :: ended) a) ∧ s.ending = 0 ∧ s.exits = []
  | _, _ => False

/-- After a turn, or a part of it, that ended the spans of `out`. -/
def StandsAfter (flags wanted : Addr ws → Prop) (coming : List (Addr ws)) (before : List (Span ws))
    (c : Option BlockId × RoutineGraph ws) (out : Option (Span ws) × List (Span ws)) : Prop :=
  ∃ ended : Layout ws, ended.map Prod.snd = out.2.reverse ++ before
    ∧ Stands flags wanted coming ended c out.1

variable {ended : Layout ws} {coming : List (Addr ws)}

/-- `BranchIns` ends the span under construction. -/
theorem Laid.branch_stands
    (h : Laid flags wanted none ((b, s) :: ended) (setAddress currentIns.address b g))
    (hexits : s.exits = []) (hcoming : ∀ x ∈ coming, ¬ Held ((b, s) :: ended) x)
    (hnext : nextIns.map RtnIns.address = coming.head?) (hw : Foreseen m flags wanted currentIns) :
    Related (StandsAfter flags wanted coming (ended.map Prod.snd))
      ((branchIns m currentIns nextIns b g).bind fun g => some (none, g))
      ((exitsAt m currentIns nextIns s.starting).bind fun exits =>
        some (none, [s.endAt currentIns.address exits])) := by
  have hend := (h.afterSetEnding currentIns.address).retarget coming.head?
    fun _ hn => nomatch hn
  have hopen : ∀ fallThrough, nextIns = some fallThrough →
      Open wanted coming.head? ((b, { s with ending := currentIns.address }) :: ended)
        fallThrough.address := by
    intro fallThrough hf
    rw [hf] at hnext
    exact Or.inr ⟨hnext.symm, fun hheld =>
      hcoming _ (List.mem_of_mem_head? hnext.symm) ((held_congr (by rfl)).mp hheld)⟩
  refine (hend.afterBranchIns (g := g) hexits hopen hw).bind fun g' exits hg => ?_
  exact ⟨(b, s.endAt currentIns.address exits) :: ended, rfl, hg, fun x hx hheld =>
    hcoming x hx ((held_congr (by rfl)).mp hheld)⟩

/-- A block that starts at the current instruction is ended there, or goes on. -/
theorem Laid.start_stands (h : Laid flags wanted none ((b, .openAt currentIns.address) :: ended) g)
    (hcoming : ∀ x ∈ coming, ¬ Held ((b, .openAt currentIns.address) :: ended) x)
    (hnext : nextIns.map RtnIns.address = coming.head?) (hw : Foreseen m flags wanted currentIns) :
    Related (StandsAfter flags wanted coming (ended.map Prod.snd))
      (endAtBranch m currentIns nextIns b g)
      (spanAtBranch m currentIns nextIns (.openAt currentIns.address)) := by
  have hb := h.isBlock _ List.mem_cons_self
  have hsame : Alike g (setAddress currentIns.address b g) := by
    refine .of_blocks rfl rfl (fun x => ?_) fun _ => rfl
    rw [getElem?_setAddress]
    by_cases hx : x = currentIns.address
    · rw [if_pos hx, hx]
      exact (hb.members _ hb.starting_mem).symm
    · rw [if_neg hx]
  rw [endAtBranch, spanAtBranch]
  by_cases hbranch : m.branches.getD currentIns.address [] ≠ []
  · rw [if_pos hbranch, if_pos hbranch]
    exact (h.alike hsame).branch_stands rfl hcoming hnext hw
  · rw [if_neg hbranch, if_neg hbranch]
    exact ⟨ended, rfl, h, hcoming, rfl, rfl⟩

/-- One turn of the loop, on the graph and on the spans. -/
theorem Stands.step {c : Option BlockId × RoutineGraph ws} {current : Option (Span ws)}
    (h : Stands flags wanted (currentIns.address :: coming) ended c current)
    (habove : 5 < currentIns.address) (hnew : currentIns.address ∉ coming)
    (hnext : nextIns.map RtnIns.address = coming.head?) (hw : Foreseen m flags wanted currentIns)
    (htarget : wanted currentIns.address ↔ m.targets.getD currentIns.address [] ≠ [])
    (previous : RtnIns ws) :
    Related (StandsAfter flags wanted coming (ended.map Prod.snd))
      (blockStep m previous currentIns nextIns c.1 c.2)
      (spanStep m previous currentIns nextIns current) := by
  obtain ⟨currentBlock, g⟩ := c
  have hcons : ∀ {laid : Layout ws} {b : BlockId} {s : Span ws},
      (∀ x, x ∈ s.members → x = currentIns.address ∨ Held laid x) →
      (∀ x ∈ currentIns.address :: coming, ¬ Held laid x) → ∀ x ∈ coming,
        ¬ Held ((b, s) :: laid) x := by
    intro laid b s hs hlaid x hx hheld
    rw [held_cons] at hheld
    have hheld' := hheld.elim (hs x) Or.inr
    rcases hheld' with rfl | hheld'
    · exact hnew hx
    · exact hlaid x (List.mem_cons_of_mem _ hx) hheld'
  cases currentBlock with
  | none =>
      cases current with
      | some s => exact h.elim
      | none =>
          -- the block before was ended by a branch
          obtain ⟨hl, hcoming⟩ := h
          obtain ⟨hg, hget⟩ := hl.afterGet (Or.inr rfl)
          have hst := hg.afterSetStarting habove (hcoming _ List.mem_cons_self) hget
          have hst' := hst.retarget none fun a ha hheld => by
            cases ha
            exact absurd (held_cons.mpr (Or.inl List.mem_cons_self)) hheld
          exact hst'.start_stands
            (hcons (fun x hx => Or.inl (List.mem_singleton.mp hx)) hcoming) hnext hw
  | some b =>
      cases current with
      | none => exact h.elim
      | some s =>
          obtain ⟨hl, hcoming, hzero, hexits⟩ := h
          have hfresh := hcoming _ List.mem_cons_self
          rw [blockStep, spanStep]
          by_cases ht : m.targets.getD currentIns.address [] ≠ []
          · -- a target starts a block of its own, after the one under construction
            rw [if_pos ht, if_pos ht]
            have hend := hl.afterSetEnding previous.address
            obtain ⟨hg, hget⟩ := hend.afterGet (Or.inl (htarget.mpr ht))
            simp only
            generalize getBasicBlockAt currentIns.address (setEnding b previous.address g) = found
              at hg hget ⊢
            obtain ⟨nb, g₁⟩ := found
            have hlead : LeadsTo g₁ currentIns.address nb :=
              hg.leadsTo (Or.inl (htarget.mpr ht)) hget
            have hsplit := (hg.afterInsertSuccs (e := .direct currentIns.address) hlead).alike
              (alike_insertPreds nb b _)
            have hst := hsplit.afterSetStarting habove
              (fun hheld => hfresh ((held_congr (by rfl)).mp hheld)) hget
            rw [hexits] at hst
            have hrest := hst.start_stands (m := m) (hcons (fun x hx => Or.inl
              (List.mem_singleton.mp hx)) fun x hx hheld => hcoming x hx
                ((held_congr (by rfl)).mp hheld)) hnext hw
            refine hrest.change fun c out hout => ?_
            obtain ⟨ended', hsnd, hstand⟩ := hout
            refine ⟨ended', ?_, hstand⟩
            rw [hsnd, List.reverse_cons, List.append_assoc]
            rfl
          · -- the instruction belongs to the span under construction
            rw [if_neg ht, if_neg ht]
            have hfree : g.addressMap[currentIns.address]? = none := by
              cases hmap : g.addressMap[currentIns.address]? with
              | none => rfl
              | some c =>
                  obtain ⟨-, -, -, hwant | hn⟩ :=
                    hl.waiting _ c hfresh (ne_two_of_above habove) hmap
                  · exact absurd (htarget.mp hwant) ht
                  · cases hn
            have hadd := hl.afterSetAddress habove (mt htarget.mp ht) hfree
            have hcoming' : ∀ x ∈ coming, ¬ Held ((b, s.add currentIns.address) :: ended) x := by
              intro x hx hheld
              rw [held_cons] at hheld
              rcases hheld with hmem | hheld
              · rcases List.mem_cons.mp hmem with rfl | hmem
                · exact hnew hx
                · exact hcoming x (List.mem_cons_of_mem _ hx) (held_cons.mpr (Or.inl hmem))
              · exact hcoming x (List.mem_cons_of_mem _ hx) (held_cons.mpr (Or.inr hheld))
            rw [spanAtBranch]
            by_cases hbranch : m.branches.getD currentIns.address [] ≠ []
            · rw [if_pos hbranch, if_pos hbranch, endAtBranch, if_pos hbranch]
              exact hadd.branch_stands hexits hcoming' hnext hw
            · rw [if_neg hbranch, if_neg hbranch]
              exact ⟨ended, rfl, hadd, hcoming', hzero, hexits⟩

/-- The graph lays out `spans`, and no block is under construction. -/
def Lays (flags wanted : Addr ws → Prop) (g : RoutineGraph ws) (spans : List (Span ws)) : Prop :=
  ∃ laid : Layout ws, laid.map Prod.snd = spans.reverse ∧ Laid flags wanted none laid g

/-- The loop, on the graph and on the spans. -/
theorem Stands.loop {rest : List (RtnIns ws)} {c : Option BlockId × RoutineGraph ws}
    {current : Option (Span ws)} (h : Stands flags wanted (rest.map RtnIns.address) ended c current)
    (habove : ∀ ins ∈ rest, 5 < ins.address) (hnodup : (rest.map RtnIns.address).Nodup)
    (hw : ∀ ins ∈ rest, Foreseen m flags wanted ins)
    (htarget : ∀ ins ∈ rest,
      wanted ins.address ↔ m.targets.getD ins.address [] ≠ []) (previous : RtnIns ws) :
    Related (fun g' spans => ∃ laid : Layout ws,
        laid.map Prod.snd = spans.reverse ++ ended.map Prod.snd ∧ Laid flags wanted none laid g')
      (blockLoop m previous rest c.1 c.2) (spanLoop m previous rest current) := by
  induction rest generalizing previous c current ended with
  | nil =>
      obtain ⟨currentBlock, g⟩ := c
      cases currentBlock with
      | none =>
          cases current with
          | some s => exact h.elim
          | none => exact ⟨ended, rfl, h.1⟩
      | some b =>
          cases current with
          | none => exact h.elim
          | some s =>
              -- the last block ends at the last instruction of the routine
              obtain ⟨hl, -, -, hexits⟩ := h
              have hend := hl.afterSetEnding previous.address
              rw [hexits] at hend
              exact ⟨_, rfl, hend⟩
  | cons currentIns rest ih =>
      obtain ⟨hnew, hnodup⟩ := List.nodup_cons.mp hnodup
      have hstep := Stands.step h (habove _ List.mem_cons_self) hnew
        (List.head?_map ..).symm (hw _ List.mem_cons_self) (htarget _ List.mem_cons_self) previous
      refine hstep.bind fun c' out ⟨ended', hsnd, hstand⟩ => ?_
      have hrest := ih hstand (fun ins hins => habove ins (List.mem_cons_of_mem _ hins)) hnodup
        (fun ins hins => hw ins (List.mem_cons_of_mem _ hins))
        (fun ins hins => htarget ins (List.mem_cons_of_mem _ hins)) currentIns
      refine hrest.change fun g' later ⟨laid, hlaid, hl⟩ => ⟨laid, ?_, hl⟩
      rw [hlaid, hsnd, List.reverse_append, List.append_assoc]

/-- The layout before the loop: the first block, and the return node. -/
theorem laid_initialGraph {firstIns : RtnIns ws} (habove : 5 < firstIns.address) :
    Laid flags wanted none [(0, .openAt firstIns.address)] (initialGraph firstIns) := by
  have hheld : ∀ x, Held [((0 : BlockId), Span.openAt firstIns.address)] x
      ↔ x = firstIns.address := by
    intro x
    rw [held_cons]
    refine ⟨fun hx => ?_, fun hx => Or.inl (List.mem_singleton.mpr hx)⟩
    rcases hx with hx | ⟨p, hp, -⟩
    · exact List.mem_singleton.mp hx
    · exact nomatch hp
  have hhead : (initialGraph firstIns).addressMap[firstIns.address]? = some 0 := by
    rw [address_initialGraph, if_neg (ne_two_of_above habove), if_pos rfl]
  have htwo : (initialGraph firstIns).addressMap[(2 : Addr ws)]? = some 1 := by
    rw [address_initialGraph, if_pos rfl]
  have hzero := blocks_initialGraph_zero firstIns
  have hone := blocks_initialGraph_one firstIns
  refine ⟨List.nodup_singleton _, fun p hp x hx => ?_, fun p hp x hx _ => ?_, fun p hp => ?_,
    htwo, ?_, fun x c hx => ?_, fun x y c hx hxc hyc => ?_, fun x c hx h2 hxc => ?_,
    fun c hc => ?_⟩
  · cases List.mem_singleton.mp hp
    cases List.mem_singleton.mp hx
    exact habove
  · cases List.mem_singleton.mp hp
    exact List.mem_singleton.mp hx
  · cases List.mem_singleton.mp hp
    refine ⟨?_, ?_, fun x hx => ?_, List.mem_singleton.mpr rfl, fun k hk => ?_,
      fun e he => nomatch he⟩
    · rw [hzero]
      rfl
    · rw [hzero]
      rfl
    · cases List.mem_singleton.mp hx
      exact hhead
    · rw [hzero] at hk
      exact nomatch hk
  · show ((initialGraph firstIns).blocks 1).startingAddress = 2
      ∧ ((initialGraph firstIns).blocks 1).endingAddress = 2
      ∧ ((initialGraph firstIns).blocks 1).successors = []
    rw [hone]
    exact ⟨rfl, rfl, rfl⟩
  · show c < 2
    rcases address_initialGraph_cases hx with ⟨-, rfl⟩ | ⟨-, rfl⟩
    · exact Nat.lt_succ_self 1
    · exact Nat.zero_lt_succ 1
  -- the first instruction is held, so `x` is the return node
  · rcases address_initialGraph_cases hxc with ⟨rfl, rfl⟩ | ⟨rfl, rfl⟩
    · rcases address_initialGraph_cases hyc with ⟨hy, -⟩ | ⟨-, hc⟩
      · exact hy
      · exact nomatch hc
    · exact absurd ((hheld _).mpr rfl) hx
  · rcases address_initialGraph_cases hxc with ⟨hx2, -⟩ | ⟨hxh, -⟩
    · exact absurd hx2 h2
    · exact absurd ((hheld x).mpr hxh) hx
  · have hc2 : c < 2 := hc
    rcases Nat.lt_succ_iff_lt_or_eq.mp hc2 with hc | rfl
    · cases Nat.lt_one_iff.mp hc
      exact Or.inr ⟨_, hhead⟩
    · exact Or.inr ⟨_, htwo⟩

/-- **The builder lays out the spans**: it builds a graph when the decisions it
takes give spans, and the graph is theirs. -/
theorem blockBuilder_lays {r : Routine ws}
    (hw : ∀ ins ∈ r.tail, Foreseen (jumpMaps r) flags wanted ins)
    (htarget : ∀ ins ∈ r.tail,
      wanted ins.address ↔ (jumpMaps r).targets.getD ins.address [] ≠ []) :
    Related (Lays flags wanted) (blockBuilder r) (spansOf r) := by
  obtain ⟨hhead, htail⟩ := List.nodup_cons.mp r.nodup
  have hstands : Stands flags wanted (r.tail.map RtnIns.address) [] (some 0, initialGraph r.head)
      (some (.openAt r.head.address)) := by
    refine ⟨laid_initialGraph (r.above _ List.mem_cons_self), fun x hx hheld => ?_, rfl, rfl⟩
    rcases held_cons.mp hheld with hmem | ⟨p, hp, -⟩
    · rw [List.mem_singleton.mp hmem] at hx
      exact hhead hx
    · exact nomatch hp
  have hloop := hstands.loop (fun ins hins => r.above ins (List.mem_cons_of_mem _ hins)) htail hw
    htarget r.head
  exact hloop.mono fun g spans ⟨laid, hlaid, hl⟩ => ⟨laid, hlaid.trans (List.append_nil _), hl⟩

/-! ## Reading a layout -/

/-- A synthetic block of a call. -/
def IsCallBlock (g : RoutineGraph ws) (b : BlockId) : Prop :=
  (g.blocks b).startingAddress = 1 ∨ (g.blocks b).startingAddress = 4

instance (g : RoutineGraph ws) (b : BlockId) : Decidable (IsCallBlock g b) :=
  inferInstanceAs (Decidable (_ ∨ _))

/-- Control leaves `b` for `c`, directly or through the block of a call. -/
def Successor (g : RoutineGraph ws) (b c : BlockId) : Prop :=
  c ∈ (g.blocks b).successors
    ∨ ∃ k ∈ (g.blocks b).successors, IsCallBlock g k ∧ c ∈ (g.blocks k).successors

instance (g : RoutineGraph ws) (b c : BlockId) : Decidable (Successor g b c) :=
  inferInstanceAs (Decidable (_ ∨ _))

/-- The successors of a laid-out span are those it leaves for. -/
theorem Laid.successor_iff (h : Laid flags wanted next laid g) {p : BlockId × Span ws}
    (hp : p ∈ laid) {c : BlockId} (hc : g.addressMap[(g.blocks c).startingAddress]? = some c)
    (hzero : (g.blocks c).startingAddress ≠ 0) :
    Successor g p.1 c ↔ p.2.LeavesFor (g.blocks c).startingAddress := by
  have hb := h.isBlock p hp
  have hstart : ∀ {a : Addr ws}, LeadsTo g a c → (g.blocks c).startingAddress = a := fun hl =>
    hl.2.resolve_right hzero
  have hsame : ∀ {k}, LeadsTo g (g.blocks c).startingAddress k → k = c := fun hl =>
    Option.some.inj (hl.1.symm.trans hc)
  constructor
  -- a block that is at its own starting address is no block of a flag
  · rintro (hsucc | ⟨k, hsucc, hcall, hck⟩)
    · obtain ⟨e, he, hl⟩ := hb.exit_of c hsucc
      cases e with
      | direct a => exact ⟨_, he, congrArg some (hstart hl).symm⟩
      | call flag a =>
          obtain ⟨-, hf, hs, -⟩ := hl
          exact absurd (hs ▸ hf.imp_right Or.inl) (h.not_isFlag hc)
      | indirect =>
          obtain ⟨-, hs, -⟩ := hl
          exact absurd (Or.inr (Or.inr hs)) (h.not_isFlag hc)
    · obtain ⟨e, he, hl⟩ := hb.exit_of k hsucc
      cases e with
      | direct a => exact absurd (hcall.imp_right Or.inl) (h.not_isFlag hl.1)
      | call flag a =>
          obtain ⟨-, -, -, j, hj, hsuccs⟩ := hl
          rw [hsuccs, List.mem_singleton] at hck
          subst hck
          exact ⟨_, he, congrArg some (hstart hj).symm⟩
      | indirect =>
          obtain ⟨-, -, hsuccs⟩ := hl
          rw [hsuccs] at hck
          exact nomatch hck
  · rintro ⟨e, he, hto⟩
    obtain ⟨k, hk, hl⟩ := hb.of_exit e he
    cases e with
    | direct a =>
        cases Option.some.inj hto
        cases hsame hl
        exact Or.inl hk
    | call flag a =>
        cases Option.some.inj hto
        obtain ⟨-, hf, hs, j, hj, hsuccs⟩ := hl
        cases hsame hj
        refine Or.inr ⟨k, hk, ?_, ?_⟩
        · rw [IsCallBlock, hs]
          exact hf
        · rw [hsuccs]
          exact List.mem_singleton.mpr rfl
    | indirect => exact nomatch hto

/-- When nothing waits, a block is a flag's, the return node or a span's. -/
theorem Laid.block_cases (h : Laid flags wanted next laid g)
    (hall : ∀ (x : Addr ws) c, g.addressMap[x]? = some c → x = 2 ∨ Held laid x) {c : BlockId}
    (hc : c < g.next) :
    (IsFlag (g.blocks c).startingAddress ∧ flags (g.blocks c).startingAddress)
      ∨ c = g.returnNode ∨ ∃ p ∈ laid, p.1 = c := by
  rcases h.covered c hc with hflag | ⟨x, hx⟩
  · exact Or.inl hflag
  · rcases hall x c hx with rfl | ⟨p, hp, hmem⟩
    · exact Or.inr (Or.inl (Option.some.inj (hx.symm.trans h.return_address)))
    · exact Or.inr (Or.inr ⟨p, hp,
        Option.some.inj (((h.isBlock p hp).members x hmem).symm.trans hx)⟩)

end DytanBlockLayout
