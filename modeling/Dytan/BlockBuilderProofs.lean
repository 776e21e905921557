import Dytan.RoutineGraphProofs

/-! # The block builder — what every graph it builds has in common

    A block is *started* when the builder sets its starting address.  While the
    builder runs, only started blocks have an edge out of them, they start at
    distinct instructions already processed, and the blocks that wait for an
    instruction still to come are not started (`Built`).

    In the graph it returns (`IsCfg`) the return node has no way out and every
    other block has at most two, whatever the routine. -/

namespace DytanBlockBuilder

open DytanRegister DytanTaintState DytanBasicBlock DytanRoutineGraph

variable {ws : WordSize}

/-- `b` is a predecessor of `c`. -/
def Edge (g : RoutineGraph ws) (b c : BlockId) : Prop := b ∈ (g.blocks c).predecessors

instance (g : RoutineGraph ws) (b c : BlockId) : Decidable (Edge g b c) :=
  inferInstanceAs (Decidable (b ∈ (g.blocks c).predecessors))

/-- `b` has at most two ways out. -/
def TwoOut (g : RoutineGraph ws) (b : BlockId) : Prop :=
  ∃ c₁ c₂, ∀ c, Edge g b c → c = c₁ ∨ c = c₂

/-- The graphs the builder returns. -/
structure IsCfg (g : RoutineGraph ws) : Prop where
  edge_lt : ∀ b c, Edge g b c → b < g.next
  twoOut : ∀ b, TwoOut g b
  nodup : ∀ c, (g.blocks c).predecessors.Nodup
  starting_inj : ∀ b c b' c', Edge g b c → Edge g b' c' →
    (g.blocks b).startingAddress = (g.blocks b').startingAddress → b = b'
  starting_ne : ∀ b c, Edge g b c → (g.blocks b).startingAddress ≠ 2
  return_starting : (g.blocks g.returnNode).startingAddress = 2
  return_lt : g.returnNode < g.next

/-- The graph being built: `done` are the addresses of the instructions
    processed, `started` the blocks that start at one of them. -/
structure Built (done : Addr ws → Prop) (started : BlockId → Prop) (g : RoutineGraph ws) :
    Prop where
  head_lt : ∀ b c, Edge g b c → c < g.next
  tail_started : ∀ b c, Edge g b c → started b
  started_lt : ∀ b, started b → b < g.next
  started_done : ∀ b, started b → done (g.blocks b).startingAddress
  started_inj : ∀ b b', started b → started b' →
    (g.blocks b).startingAddress = (g.blocks b').startingAddress → b = b'
  nodup : ∀ c, (g.blocks c).predecessors.Nodup
  not_done_two : ¬ done 2
  return_starting : (g.blocks g.returnNode).startingAddress = 2
  return_address : g.addressMap[(2 : Addr ws)]? = some g.returnNode
  address_lt : ∀ (x : Addr ws) b, g.addressMap[x]? = some b → b < g.next
  fresh : ∀ (x : Addr ws) b, ¬ done x → x ≠ 2 → g.addressMap[x]? = some b →
    ¬ started b ∧ b ≠ g.returnNode
  fresh_inj : ∀ (x y : Addr ws) b, ¬ done x → ¬ done y → x ≠ 2 → y ≠ 2 →
    g.addressMap[x]? = some b → g.addressMap[y]? = some b → x = y

variable {done done' : Addr ws → Prop} {started : BlockId → Prop} {g g' : RoutineGraph ws}

theorem Built.return_lt (h : Built done started g) : g.returnNode < g.next :=
  h.address_lt 2 _ h.return_address

/-- A started block has no edge yet, or has edges to two blocks. -/
theorem Built.isCfg (h : Built done started g) (htwo : ∀ b, TwoOut g b) : IsCfg g where
  edge_lt b c he := h.started_lt b (h.tail_started b c he)
  twoOut := htwo
  nodup := h.nodup
  starting_inj b c b' c' he he' :=
    h.started_inj b b' (h.tail_started b c he) (h.tail_started b' c' he')
  starting_ne b c he heq :=
    h.not_done_two (heq ▸ h.started_done b (h.tail_started b c he))
  return_starting := h.return_starting
  return_lt := h.return_lt

/-- More instructions are processed. -/
theorem Built.mono (h : Built done started g) (hsub : ∀ x, done x → done' x)
    (htwo : ¬ done' 2) : Built done' started g where
  head_lt := h.head_lt
  tail_started := h.tail_started
  started_lt := h.started_lt
  started_done b hb := hsub _ (h.started_done b hb)
  started_inj := h.started_inj
  nodup := h.nodup
  not_done_two := htwo
  return_starting := h.return_starting
  return_address := h.return_address
  address_lt := h.address_lt
  fresh x b hx := h.fresh x b fun hd => hx (hsub x hd)
  fresh_inj x y b hx hy := h.fresh_inj x y b (fun hd => hx (hsub x hd)) fun hd => hy (hsub y hd)

/-! ## The operations on the graph -/

theorem blocks_modifyBlock (b c : BlockId) (f : BasicBlock ws → BasicBlock ws)
    (g : RoutineGraph ws) :
    (modifyBlock b f g).blocks c = if c = b then f (g.blocks b) else g.blocks c := by
  simp only [modifyBlock, RoutineGraph.blocks]
  rw [Std.ExtTreeMap.getD_insert]
  by_cases hc : c = b
  · simp [hc]
  · simp [hc, Ne.symm hc]

/-- What a change to a block keeps in it, it keeps in all blocks. -/
theorem field_modifyBlock {α : Type} (field : BasicBlock ws → α)
    {f : BasicBlock ws → BasicBlock ws} (hf : ∀ x, field (f x) = field x) (b c : BlockId)
    (g : RoutineGraph ws) : field ((modifyBlock b f g).blocks c) = field (g.blocks c) := by
  rw [blocks_modifyBlock]
  by_cases hc : c = b
  · rw [if_pos hc, hf, hc]
  · rw [if_neg hc]

theorem blocks_newBlock (s e : Addr ws) (g : RoutineGraph ws) (c : BlockId) :
    (newBlock s e g).2.blocks c = if c = g.next then ⟨[], [], s, e⟩ else g.blocks c := by
  simp only [newBlock, RoutineGraph.blocks]
  rw [Std.ExtTreeMap.getD_insert]
  by_cases hc : c = g.next
  · simp [hc]
  · simp [hc, Ne.symm hc]

theorem getElem?_setAddress (a x : Addr ws) (b : BlockId) (g : RoutineGraph ws) :
    (setAddress a b g).addressMap[x]? = if x = a then some b else g.addressMap[x]? := by
  rw [setAddress]
  rw [Std.ExtTreeMap.getElem?_insert]
  by_cases hx : x = a
  · simp [hx]
  · simp [hx, Ne.symm hx]

/-- Changing a block without changing its starting address or predecessors. -/
theorem Built.modify (h : Built done started g) {b : BlockId}
    {f : BasicBlock ws → BasicBlock ws} (hp : ∀ x, (f x).predecessors = x.predecessors)
    (hs : ∀ x, (f x).startingAddress = x.startingAddress) :
    Built done started (modifyBlock b f g)
      ∧ ∀ x c, Edge (modifyBlock b f g) x c ↔ Edge g x c := by
  have hpreds : ∀ c, ((modifyBlock b f g).blocks c).predecessors = (g.blocks c).predecessors :=
    fun c => field_modifyBlock BasicBlock.predecessors hp b c g
  have hstart : ∀ c,
      ((modifyBlock b f g).blocks c).startingAddress = (g.blocks c).startingAddress :=
    fun c => field_modifyBlock BasicBlock.startingAddress hs b c g
  have hedge : ∀ x c, Edge (modifyBlock b f g) x c ↔ Edge g x c := fun x c => by
    simp only [Edge]
    rw [hpreds]
  refine ⟨⟨fun x c he => h.head_lt x c ((hedge x c).mp he),
    fun x c he => h.tail_started x c ((hedge x c).mp he), h.started_lt, fun x hx => ?_,
    fun x y hx hy heq => ?_, fun c => ?_, h.not_done_two, ?_, h.return_address, h.address_lt,
    h.fresh, h.fresh_inj⟩, hedge⟩
  · rw [hstart]
    exact h.started_done x hx
  · rw [hstart, hstart] at heq
    exact h.started_inj x y hx hy heq
  · rw [hpreds]
    exact h.nodup c
  · exact (hstart _).trans h.return_starting

theorem Built.afterSetEnding (h : Built done started g) (b : BlockId) (a : Addr ws) :
    Built done started (setEnding b a g) ∧ ∀ x c, Edge (setEnding b a g) x c ↔ Edge g x c :=
  h.modify (fun _ => rfl) fun _ => rfl

theorem Built.afterInsertSuccs (h : Built done started g) (b c : BlockId) :
    Built done started (insertSuccs b c g)
      ∧ ∀ x y, Edge (insertSuccs b c g) x y ↔ Edge g x y :=
  h.modify (fun _ => rfl) fun _ => rfl

/-- A new block has no edges. -/
theorem Built.afterNewBlock (h : Built done started g) (s e : Addr ws) :
    Built done started (newBlock s e g).2
      ∧ ∀ x c, Edge (newBlock s e g).2 x c ↔ Edge g x c := by
  have hold : ∀ c, c ≠ g.next → (newBlock s e g).2.blocks c = g.blocks c := fun c hc => by
    rw [blocks_newBlock, if_neg hc]
  have hedge : ∀ x c, Edge (newBlock s e g).2 x c ↔ Edge g x c := by
    intro x c
    by_cases hc : c = g.next
    · refine iff_of_false ?_ fun he => Nat.lt_irrefl _ (hc ▸ h.head_lt x c he)
      rw [Edge]
      rw [blocks_newBlock, if_pos hc]
      exact List.not_mem_nil
    · simp only [Edge]
      rw [hold c hc]
  have hstart : ∀ b, started b → (newBlock s e g).2.blocks b = g.blocks b := fun b hb =>
    hold b (Nat.ne_of_lt (h.started_lt b hb))
  refine ⟨⟨fun x c he => Nat.lt_succ_of_lt (h.head_lt x c ((hedge x c).mp he)),
    fun x c he => h.tail_started x c ((hedge x c).mp he),
    fun b hb => Nat.lt_succ_of_lt (h.started_lt b hb), fun b hb => ?_, fun b b' hb hb' heq => ?_,
    fun c => ?_, h.not_done_two, ?_, h.return_address,
    fun x b hx => Nat.lt_succ_of_lt (h.address_lt x b hx), h.fresh, h.fresh_inj⟩, hedge⟩
  · rw [hstart b hb]
    exact h.started_done b hb
  · rw [hstart b hb, hstart b' hb'] at heq
    exact h.started_inj b b' hb hb' heq
  · by_cases hc : c = g.next
    · rw [blocks_newBlock, if_pos hc]
      exact List.nodup_nil
    · rw [hold c hc]
      exact h.nodup c
  · exact (congrArg _ (hold _ (Nat.ne_of_lt h.return_lt))).trans h.return_starting

/-- The address of an instruction that has been processed may be given any
    block. -/
theorem Built.afterSetAddress (h : Built done started g) {a : Addr ws} (ha : done a)
    {b : BlockId} (hb : b < g.next) : Built done started (setAddress a b g) := by
  have htwo : (2 : Addr ws) ≠ a := by
    rintro rfl
    exact h.not_done_two ha
  have hold : ∀ (x : Addr ws) c, ¬ done x → (setAddress a b g).addressMap[x]? = some c →
      g.addressMap[x]? = some c := by
    intro x c hx hc
    have hne : x ≠ a := by
      rintro rfl
      exact hx ha
    rw [getElem?_setAddress, if_neg hne] at hc
    exact hc
  refine ⟨h.head_lt, h.tail_started, h.started_lt, h.started_done, h.started_inj, h.nodup,
    h.not_done_two, h.return_starting, ?_, fun x c hx => ?_,
    fun x c hx h2 hc => h.fresh x c hx h2 (hold x c hx hc),
    fun x y c hx hy h2 h2' hc hc' =>
      h.fresh_inj x y c hx hy h2 h2' (hold x c hx hc) (hold y c hy hc')⟩
  · rw [getElem?_setAddress, if_neg htwo]
    exact h.return_address
  · rw [getElem?_setAddress] at hx
    by_cases hxa : x = a
    · rw [if_pos hxa] at hx
      cases hx
      exact hb
    · rw [if_neg hxa] at hx
      exact h.address_lt x c hx

/-- An edge out of a started block. -/
theorem Built.afterInsertPreds (h : Built done started g) {b c : BlockId} (hb : started b)
    (hc : c < g.next) :
    Built done started (insertPreds c b g)
      ∧ ∀ x y, Edge (insertPreds c b g) x y ↔ Edge g x y ∨ (x = b ∧ y = c) := by
  have hpreds : ∀ y, ((insertPreds c b g).blocks y).predecessors
      = if y = c then (g.blocks c).predecessors.insert b else (g.blocks y).predecessors := by
    intro y
    rw [insertPreds]
    rw [blocks_modifyBlock]
    by_cases hy : y = c
    · rw [if_pos hy, if_pos hy]
    · rw [if_neg hy, if_neg hy]
  have hstart : ∀ y,
      ((insertPreds c b g).blocks y).startingAddress = (g.blocks y).startingAddress :=
    fun y => field_modifyBlock BasicBlock.startingAddress (fun _ => by rfl) c y g
  -- one edge more, and nothing else changes
  have hedge : ∀ x y, Edge (insertPreds c b g) x y ↔ Edge g x y ∨ (x = b ∧ y = c) := by
    intro x y
    simp only [Edge]
    rw [hpreds]
    by_cases hy : y = c
    · rw [if_pos hy, List.mem_insert_iff, hy]
      simp [or_comm]
    · rw [if_neg hy]
      simp [hy]
  refine ⟨⟨fun x y he => ?_, fun x y he => ?_, h.started_lt, fun x hx => ?_,
    fun x y hx hy heq => ?_, fun y => ?_, h.not_done_two, ?_, h.return_address, h.address_lt,
    h.fresh, h.fresh_inj⟩, hedge⟩
  · rcases (hedge x y).mp he with he | ⟨-, rfl⟩
    · exact h.head_lt x y he
    · exact hc
  · rcases (hedge x y).mp he with he | ⟨rfl, -⟩
    · exact h.tail_started x y he
    · exact hb
  · rw [hstart]
    exact h.started_done x hx
  · rw [hstart, hstart] at heq
    exact h.started_inj x y hx hy heq
  · rw [hpreds]
    split
    · exact (h.nodup c).insert
    · exact h.nodup y
  · exact (hstart _).trans h.return_starting

/-- The block at an address, old or new. -/
theorem Built.afterGet (h : Built done started g) (a : Addr ws) :
    Built done started (getBasicBlockAt a g).2
      ∧ (getBasicBlockAt a g).2.addressMap[a]? = some (getBasicBlockAt a g).1
      ∧ ∀ x c, Edge (getBasicBlockAt a g).2 x c ↔ Edge g x c := by
  rw [getBasicBlockAt]
  cases ha : g.addressMap[a]? with
  | some b => exact ⟨h, ha, fun _ _ => Iff.rfl⟩
  | none =>
      obtain ⟨hn, hedge⟩ := h.afterNewBlock 0 0
      have htwo : (2 : Addr ws) ≠ a := by
        rintro rfl
        rw [h.return_address] at ha
        exact nomatch ha
      -- the new block waits at `a` only
      have hget : ∀ (x : Addr ws) c,
          (setAddress a g.next (newBlock 0 0 g).2).addressMap[x]?
            = some c → (x = a ∧ c = g.next) ∨ (x ≠ a ∧ g.addressMap[x]? = some c) := by
        intro x c hc
        rw [getElem?_setAddress] at hc
        by_cases hx : x = a
        · rw [if_pos hx] at hc
          exact Or.inl ⟨hx, (Option.some.inj hc).symm⟩
        · rw [if_neg hx] at hc
          exact Or.inr ⟨hx, hc⟩
      refine ⟨⟨hn.head_lt, hn.tail_started, hn.started_lt, hn.started_done, hn.started_inj,
        hn.nodup, hn.not_done_two, hn.return_starting, ?_, fun x c hc => ?_,
        fun x c hx h2 hc => ?_, fun x y c hx hy h2 h2' hc hc' => ?_⟩, ?_, hedge⟩
      · refine (getElem?_setAddress ..).trans ?_
        rw [if_neg htwo]
        exact h.return_address
      · rcases hget x c hc with ⟨-, rfl⟩ | ⟨-, hc⟩
        · exact Nat.lt_succ_self _
        · exact Nat.lt_succ_of_lt (h.address_lt x c hc)
      · rcases hget x c hc with ⟨-, rfl⟩ | ⟨-, hc⟩
        · exact ⟨fun hs => Nat.lt_irrefl _ (h.started_lt _ hs), Nat.ne_of_gt h.return_lt⟩
        · exact h.fresh x c hx h2 hc
      · rcases hget x c hc with ⟨hxa, hcn⟩ | ⟨-, hcx⟩
        · rcases hget y c hc' with ⟨hya, -⟩ | ⟨-, hcy⟩
          · exact hxa.trans hya.symm
          · exact absurd (hcn ▸ h.address_lt y c hcy) (Nat.lt_irrefl _)
        · rcases hget y c hc' with ⟨-, hcn⟩ | ⟨-, hcy⟩
          · exact absurd (hcn ▸ h.address_lt x c hcx) (Nat.lt_irrefl _)
          · exact h.fresh_inj x y c hx hy h2 h2' hcx hcy
      · refine (getElem?_setAddress ..).trans ?_
        rw [if_pos rfl]
        rfl

/-- A waiting block is started at its instruction. -/
theorem Built.afterSetStarting (h : Built done started g) {a : Addr ws} (ha : ¬ done a)
    (h2 : a ≠ 2) {b : BlockId} (hb : g.addressMap[a]? = some b) :
    Built (fun x => done x ∨ x = a) (fun x => started x ∨ x = b) (setStarting b a g)
      ∧ ∀ x c, Edge (setStarting b a g) x c ↔ Edge g x c := by
  obtain ⟨hnew, hret⟩ := h.fresh a b ha h2 hb
  have hblocks : ∀ c, c ≠ b → (setStarting b a g).blocks c = g.blocks c := fun c hc => by
    rw [setStarting]
    rw [blocks_modifyBlock, if_neg hc]
  have hself : (setStarting b a g).blocks b = { g.blocks b with startingAddress := a } := by
    rw [setStarting]
    rw [blocks_modifyBlock, if_pos rfl]
  have hpreds : ∀ c, ((setStarting b a g).blocks c).predecessors = (g.blocks c).predecessors :=
    fun c => field_modifyBlock BasicBlock.predecessors (fun _ => by rfl) b c g
  have hedge : ∀ x c, Edge (setStarting b a g) x c ↔ Edge g x c := fun x c => by
    simp only [Edge]
    rw [hpreds]
  have hne : ∀ x, started x → x ≠ b := fun x hx heq => hnew (heq ▸ hx)
  -- only the starting address of `b` is new, and no started block has it
  refine ⟨⟨fun x c he => h.head_lt x c ((hedge x c).mp he),
    fun x c he => Or.inl (h.tail_started x c ((hedge x c).mp he)), fun x hx => ?_,
    fun x hx => ?_, fun x y hx hy heq => ?_, fun c => ?_, ?_, ?_, h.return_address, h.address_lt,
    fun x c hx hx2 hc => ?_, fun x y c hx hy => ?_⟩, hedge⟩
  · rcases hx with hx | rfl
    · exact h.started_lt x hx
    · exact h.address_lt a x hb
  · rcases hx with hx | rfl
    · rw [hblocks x (hne x hx)]
      exact Or.inl (h.started_done x hx)
    · rw [hself]
      exact Or.inr rfl
  · rcases hx with hx | rfl
    · rcases hy with hy | rfl
      · rw [hblocks x (hne x hx), hblocks y (hne y hy)] at heq
        exact h.started_inj x y hx hy heq
      · rw [hblocks x (hne x hx), hself] at heq
        have hxa : (g.blocks x).startingAddress = a := heq
        exact absurd (hxa ▸ h.started_done x hx) ha
    · rcases hy with hy | rfl
      · rw [hblocks y (hne y hy), hself] at heq
        have hya : a = (g.blocks y).startingAddress := heq
        exact absurd (hya ▸ h.started_done y hy) ha
      · rfl
  · rw [hpreds]
    exact h.nodup c
  · rintro (hd | heq)
    · exact h.not_done_two hd
    · exact h2 heq.symm
  · exact (congrArg _ (hblocks _ hret.symm)).trans h.return_starting
  · obtain ⟨hs, hr⟩ := h.fresh x c (fun hd => hx (Or.inl hd)) hx2 hc
    refine ⟨?_, hr⟩
    rintro (hs' | rfl)
    · exact hs hs'
    · exact hx (Or.inr (h.fresh_inj x a c (fun hd => hx (Or.inl hd)) ha hx2 h2 hc hb))
  · exact h.fresh_inj x y c (fun hd => hx (Or.inl hd)) fun hd => hy (Or.inl hd)

/-! ## Ending a block -/

/-- The graph `g` is `g₀` with edges from `current` to `heads`. -/
structure Linked (done : Addr ws → Prop) (started : BlockId → Prop) (current : BlockId)
    (heads : List BlockId) (g₀ g : RoutineGraph ws) : Prop where
  built : Built done started g
  edges : ∀ x c, Edge g x c → Edge g₀ x c ∨ (x = current ∧ c ∈ heads)

variable {current : BlockId} {heads : List BlockId} {g₀ : RoutineGraph ws}

/-- A step that adds no edge. -/
theorem Linked.keep (h : Linked done started current heads g₀ g)
    (h' : Built done started g' ∧ ∀ x c, Edge g' x c ↔ Edge g x c) :
    Linked done started current heads g₀ g' :=
  ⟨h'.1, fun x c he => h.edges x c ((h'.2 x c).mp he)⟩

/-- A step that adds one. -/
theorem Linked.link (h : Linked done started current heads g₀ g) (hs : started current)
    {c : BlockId} (hc : c < g.next) :
    Linked done started current (c :: heads) g₀ (insertPreds c current g) := by
  obtain ⟨hb, hedge⟩ := h.built.afterInsertPreds hs hc
  refine ⟨hb, fun x y he => ?_⟩
  rcases (hedge x y).mp he with he | ⟨rfl, rfl⟩
  · exact (h.edges x y he).imp_right fun ⟨hx, hy⟩ => ⟨hx, List.mem_cons_of_mem _ hy⟩
  · exact Or.inr ⟨rfl, List.mem_cons_self⟩

/-- An edge to the block at an address. -/
theorem Linked.linkAt (h : Linked done started current heads g₀ g) (hs : started current)
    (a : Addr ws) : ∃ c, (getBasicBlockAt a g).1 = c ∧
      Linked done started current (c :: heads) g₀
        (insertPreds c current (getBasicBlockAt a g).2) := by
  obtain ⟨hb, hget, hedge⟩ := h.built.afterGet a
  exact ⟨_, rfl, (h.keep ⟨hb, hedge⟩).link hs (hb.address_lt a _ hget)⟩

theorem Linked.edgeTo (h : Linked done started current heads g₀ g) (hs : started current)
    (a : Addr ws) : ∃ c, Linked done started current (c :: heads) g₀ (edgeTo a current g) := by
  obtain ⟨c, hc, hl⟩ := h.linkAt hs a
  refine ⟨c, ?_⟩
  rw [DytanRoutineGraph.edgeTo]
  simp only [hc]
  exact hl.keep (hl.built.afterInsertSuccs _ _)

theorem Linked.callBranch (h : Linked done started current [] g₀ g) (hs : started current)
    {nextIns : Option (RtnIns ws)} (hrun : callBranch current nextIns g = some g') :
    ∃ c₁ c₂, Linked done started current [c₁, c₂] g₀ g' := by
  cases nextIns with
  | none => exact nomatch hrun
  | some fallThrough =>
      have hnew := h.keep (h.built.afterNewBlock 1 1)
      have hsucc := hnew.keep (hnew.built.afterInsertSuccs current g.next)
      have hpred := hsucc.link hs (c := g.next) (Nat.lt_succ_self _)
      obtain ⟨c, hc, hl⟩ := hpred.linkAt hs fallThrough.address
      cases Option.some.inj hrun
      refine ⟨c, g.next, ?_⟩
      subst hc
      exact hl.keep (hl.built.afterInsertSuccs _ _)

theorem Linked.returnBranch (h : Linked done started current [] g₀ g) (hs : started current)
    (hrun : returnBranch current g = some g') :
    ∃ c, Linked done started current [c] g₀ g' := by
  rw [DytanRoutineGraph.returnBranch] at hrun
  rw [h.built.return_address] at hrun
  cases Option.some.inj hrun
  have hpred := h.link hs h.built.return_lt
  exact ⟨_, hpred.keep (hpred.built.afterInsertSuccs _ _)⟩

theorem Linked.indirectTarget (h : Linked done started current [] g₀ g) (hs : started current)
    (flag : Addr ws) :
    Linked done started current [g.next] g₀ (indirectTarget flag current g).2 := by
  have hnew := h.keep (h.built.afterNewBlock flag flag)
  have hins : Linked done started current [] g₀ (insertBlock g.next (newBlock flag flag g).2) :=
    ⟨⟨hnew.built.head_lt, hnew.built.tail_started, hnew.built.started_lt,
      hnew.built.started_done, hnew.built.started_inj, hnew.built.nodup,
      hnew.built.not_done_two, hnew.built.return_starting, hnew.built.return_address,
      hnew.built.address_lt, hnew.built.fresh, hnew.built.fresh_inj⟩, hnew.edges⟩
  have hpred := hins.link hs (c := g.next) (Nat.lt_succ_self _)
  exact hpred.keep (hpred.built.afterInsertSuccs _ _)

theorem Linked.indirectCallBranch (h : Linked done started current [] g₀ g)
    (hs : started current) {nextIns : Option (RtnIns ws)}
    (hrun : indirectCallBranch current nextIns g = some g') :
    ∃ c₁ c₂, Linked done started current [c₁, c₂] g₀ g' := by
  cases nextIns with
  | none => exact nomatch hrun
  | some fallThrough =>
      obtain ⟨c, hc, hl⟩ := (h.indirectTarget hs 4).linkAt hs fallThrough.address
      cases Option.some.inj hrun
      refine ⟨c, g.next, ?_⟩
      subst hc
      exact hl.keep (hl.built.afterInsertSuccs _ _)

theorem Linked.regularBranch (h : Linked done started current [] g₀ g) (hs : started current)
    {target : Addr ws} {others : List (Addr ws)} {nextIns : Option (RtnIns ws)}
    (hrun : regularBranch current target others nextIns g = some g') :
    ∃ c₁ c₂, Linked done started current [c₁, c₂] g₀ g' := by
  obtain ⟨c, hl⟩ := h.edgeTo hs target
  simp only [DytanRoutineGraph.regularBranch] at hrun
  cases others with
  | cons other _ =>
      obtain ⟨c', hl'⟩ := hl.edgeTo hs other
      cases Option.some.inj hrun
      exact ⟨c', c, hl'⟩
  | nil =>
      by_cases hself : target = ((DytanRoutineGraph.edgeTo target current g).blocks
          current).startingAddress
      · simp only [if_pos hself] at hrun
        cases nextIns with
        | none => exact nomatch hrun
        | some fallThrough =>
            obtain ⟨c', hl'⟩ := hl.edgeTo hs fallThrough.address
            cases Option.some.inj hrun
            exact ⟨c', c, hl'⟩
      · simp only [if_neg hself] at hrun
        cases Option.some.inj hrun
        refine ⟨c, c, hl.built, fun x y he => (hl.edges x y he).imp_right ?_⟩
        exact fun ⟨hx, hy⟩ => ⟨hx, List.mem_cons_of_mem _ hy⟩

/-- `BranchIns` gives the block it ends at most two ways out. -/
theorem Built.branchIns (h : Built done started g) (hs : started current) {m : JumpMaps ws}
    {currentIns : RtnIns ws} (hdone : done currentIns.address)
    {nextIns : Option (RtnIns ws)}
    (hrun : branchIns m currentIns nextIns current g = some g') :
    ∃ c₁ c₂, Linked done started current [c₁, c₂] g g' := by
  have hend : Linked done started current [] g
      (setAddress currentIns.address current (setEnding current currentIns.address g)) := by
    obtain ⟨hb, hedge⟩ := h.afterSetEnding current currentIns.address
    exact ⟨hb.afterSetAddress hdone (h.started_lt current hs), fun x c he =>
      Or.inl ((hedge x c).mp he)⟩
  have hone : ∀ c, Linked done started current [c] g g' →
      ∃ c₁ c₂, Linked done started current [c₁, c₂] g g' := fun c hl =>
    ⟨c, c, hl.built, fun x y he => (hl.edges x y he).imp_right
      fun ⟨hx, hy⟩ => ⟨hx, List.mem_cons_of_mem _ hy⟩⟩
  rw [DytanRoutineGraph.branchIns] at hrun
  cases hset : m.branches.getD currentIns.address [] with
  | nil =>
      simp only [hset] at hrun
      exact nomatch hrun
  | cons target others =>
      simp only [hset] at hrun
      split at hrun
      · exact hend.callBranch hs hrun
      · split at hrun
        · obtain ⟨c, hl⟩ := hend.returnBranch hs hrun
          exact hone c hl
        · split at hrun
          · exact hend.indirectCallBranch hs hrun
          · split at hrun
            · cases Option.some.inj hrun
              exact hone _ (hend.indirectTarget hs 5)
            · exact hend.regularBranch hs hrun

/-! ## The loop -/

/-- Between two turns: no block has more than two ways out, and the one being
    built is started and has none. -/
structure Building (done : Addr ws → Prop) (currentBlock : Option BlockId)
    (g : RoutineGraph ws) : Prop where
  built : ∃ started, Built done started g ∧ ∀ b, currentBlock = some b → started b
  twoOut : ∀ b, TwoOut g b
  free : ∀ b, currentBlock = some b → ∀ c, ¬ Edge g b c

/-- Ending a block without edges at a branch, or going on with it. -/
theorem Built.endAtBranch (h : Built done started g) (hs : started current)
    (hfree : ∀ c, ¬ Edge g current c) (htwo : ∀ b, TwoOut g b) {m : JumpMaps ws}
    {currentIns : RtnIns ws} (hdone : done currentIns.address)
    {nextIns : Option (RtnIns ws)} {currentBlock : Option BlockId}
    (hrun : endAtBranch m currentIns nextIns current g = some (currentBlock, g')) :
    Building done currentBlock g' := by
  rw [DytanRoutineGraph.endAtBranch] at hrun
  split at hrun
  · obtain ⟨g₁, hbranch, hret⟩ := Option.bind_eq_some_iff.mp hrun
    cases Option.some.inj hret
    obtain ⟨c₁, c₂, hb, hedges⟩ := h.branchIns hs hdone hbranch
    refine ⟨⟨started, hb, fun _ hn => nomatch hn⟩, fun b => ?_, fun _ hn => nomatch hn⟩
    by_cases hbc : b = current
    · subst hbc
      refine ⟨c₁, c₂, fun c he => ?_⟩
      have hmem := ((hedges b c he).resolve_left (hfree c)).2
      simpa using hmem
    · obtain ⟨d₁, d₂, hd⟩ := htwo b
      exact ⟨d₁, d₂, fun c he => hd c ((hedges b c he).resolve_right fun hh => hbc hh.1)⟩
  · cases Option.some.inj hrun
    refine ⟨⟨started, h, fun b hb => ?_⟩, htwo, fun b hb => ?_⟩
    · cases hb
      exact hs
    · cases hb
      exact hfree

/-- One turn of the loop. -/
theorem Building.step {currentBlock currentBlock' : Option BlockId}
    (h : Building done currentBlock g) {m : JumpMaps ws} {previous currentIns : RtnIns ws}
    (hnew : ¬ done currentIns.address) (h2 : currentIns.address ≠ 2)
    {nextIns : Option (RtnIns ws)}
    (hrun : blockStep m previous currentIns nextIns currentBlock g = some (currentBlock', g')) :
    Building (fun x => done x ∨ x = currentIns.address) currentBlock' g' := by
  obtain ⟨⟨started, hb, hs⟩, htwo, hfree⟩ := h
  have htwo' : ¬ (done 2 ∨ 2 = currentIns.address) := by
    rintro (hd | heq)
    · exact hb.not_done_two hd
    · exact h2 heq.symm
  cases currentBlock with
  | none =>
      -- the block before was ended by a branch
      obtain ⟨hg, hget, hedge⟩ := hb.afterGet currentIns.address
      obtain ⟨hst, hedge'⟩ := hg.afterSetStarting hnew h2 hget
      have hsame : ∀ x c, Edge (setStarting (getBasicBlockAt currentIns.address g).1
          currentIns.address (getBasicBlockAt currentIns.address g).2) x c ↔ Edge g x c :=
        fun x c => (hedge' x c).trans (hedge x c)
      refine hst.endAtBranch (Or.inr rfl) (fun c he => ?_) (fun b => ?_) (Or.inr rfl) hrun
      · exact (hg.fresh _ _ hnew h2 hget).1 (hb.tail_started _ c ((hsame _ c).mp he))
      · obtain ⟨c₁, c₂, hc⟩ := htwo b
        exact ⟨c₁, c₂, fun c he => hc c ((hsame b c).mp he)⟩
  | some b =>
      have hsb := hs b rfl
      have hfb := hfree b rfl
      rw [blockStep] at hrun
      simp only at hrun
      split at hrun
      · -- a target starts a block of its own, after the one being built
        obtain ⟨he, hedge₁⟩ := hb.afterSetEnding b previous.address
        obtain ⟨hg, hget, hedge₂⟩ := he.afterGet currentIns.address
        generalize getBasicBlockAt currentIns.address (setEnding b previous.address g)
          = found at hg hget hedge₂ hrun
        obtain ⟨nb, g₁⟩ := found
        obtain ⟨hsucc, hedge₃⟩ := hg.afterInsertSuccs b nb
        obtain ⟨hpred, hedge₄⟩ := hsucc.afterInsertPreds hsb (hg.address_lt _ nb hget)
        obtain ⟨hst, hedge₅⟩ := hpred.afterSetStarting hnew h2 (b := nb) hget
        have hnb : ¬ started nb := (hg.fresh _ nb hnew h2 hget).1
        have hsame : ∀ x c, Edge (setStarting nb currentIns.address
            (insertPreds nb b (insertSuccs b nb g₁))) x c → Edge g x c ∨ (x = b ∧ c = nb) := by
          intro x c hx
          rw [hedge₅, hedge₄, hedge₃, hedge₂, hedge₁] at hx
          exact hx
        refine hst.endAtBranch (Or.inr rfl) (fun c hx => ?_) (fun x => ?_) (Or.inr rfl) hrun
        · rcases hsame nb c hx with hx | ⟨rfl, -⟩
          · exact hnb (hb.tail_started nb c hx)
          · exact hnb hsb
        · by_cases hxb : x = b
          · subst hxb
            exact ⟨nb, nb, fun c hx => Or.inl ((hsame x c hx).resolve_left (hfb c)).2⟩
          · obtain ⟨c₁, c₂, hc⟩ := htwo x
            exact ⟨c₁, c₂, fun c hx => hc c ((hsame x c hx).resolve_right fun hh => hxb hh.1)⟩
      · -- the instruction belongs to the block being built
        have hmono : Built (fun x => done x ∨ x = currentIns.address) started g :=
          hb.mono (fun x hx => Or.inl hx) htwo'
        split at hrun
        · exact hmono.endAtBranch hsb hfb htwo (Or.inr rfl) hrun
        · cases Option.some.inj hrun
          refine ⟨⟨started, hmono.afterSetAddress (Or.inr rfl) (hb.started_lt b hsb), ?_⟩,
            htwo, hfree⟩
          intro c hc
          cases hc
          exact hsb

/-- The loop. -/
theorem Building.loop {currentBlock : Option BlockId} (h : Building done currentBlock g)
    {m : JumpMaps ws} {rest : List (RtnIns ws)} {previous : RtnIns ws}
    (hnodup : (rest.map RtnIns.address).Nodup) (hnew : ∀ ins ∈ rest, ¬ done ins.address)
    (h2 : ∀ ins ∈ rest, ins.address ≠ 2)
    (hrun : blockLoop m previous rest currentBlock g = some g') :
    ∃ started, Built (fun x => done x ∨ x ∈ rest.map RtnIns.address) started g'
      ∧ ∀ b, TwoOut g' b := by
  induction rest generalizing previous currentBlock g done with
  | nil =>
      obtain ⟨⟨started, hb, -⟩, htwo, -⟩ := h
      have hmono : Built (fun x => done x ∨ x ∈ ([] : List (RtnIns ws)).map RtnIns.address)
          started g := hb.mono (fun x hx => Or.inl hx) fun hx =>
        hb.not_done_two (hx.resolve_right List.not_mem_nil)
      cases currentBlock with
      | none =>
          cases Option.some.inj hrun
          exact ⟨started, hmono, htwo⟩
      | some b =>
          cases Option.some.inj hrun
          obtain ⟨he, hedge⟩ := hmono.afterSetEnding b previous.address
          refine ⟨started, he, fun x => ?_⟩
          obtain ⟨c₁, c₂, hc⟩ := htwo x
          exact ⟨c₁, c₂, fun c hx => hc c ((hedge x c).mp hx)⟩
  | cons ins rest ih =>
      obtain ⟨⟨cb, g₁⟩, hstep, hrest⟩ := Option.bind_eq_some_iff.mp hrun
      rw [List.map_cons, List.nodup_cons] at hnodup
      have hb := h.step (hnew ins List.mem_cons_self) (h2 ins List.mem_cons_self) hstep
      -- the instruction is not among those to come
      have hrestNew : ∀ i ∈ rest, ¬ (done i.address ∨ i.address = ins.address) := by
        rintro i hi (hd | heq)
        · exact hnew i (List.mem_cons_of_mem _ hi) hd
        · exact hnodup.1 (heq ▸ List.mem_map_of_mem hi)
      obtain ⟨started, hb, htwo⟩ := ih hb hnodup.2 hrestNew
        (fun i hi => h2 i (List.mem_cons_of_mem _ hi)) hrest
      refine ⟨started, hb.mono (fun x hx => ?_) fun hx => hb.not_done_two ?_, htwo⟩
      · rw [List.map_cons, List.mem_cons]
        exact or_assoc.mp hx
      · rw [List.map_cons, List.mem_cons] at hx
        exact or_assoc.mpr hx

/-- The two blocks the builder starts with. -/
theorem blocks_initialGraph (firstIns : RtnIns ws) (c : BlockId) :
    (initialGraph firstIns).blocks c = if c = 1 then ⟨[], [], 2, 2⟩
      else if c = 0 then ⟨[], [], firstIns.address, 0⟩ else .new ws := by
  show (newBlock 2 2 (setStarting 0 firstIns.address (newBlock 0 0 (noGraph ws)).2)).2.blocks c = _
  rw [blocks_newBlock]
  refine if_congr Iff.rfl rfl ?_
  rw [setStarting]
  rw [blocks_modifyBlock]
  refine if_congr Iff.rfl ?_ ?_
  · rw [blocks_newBlock]
    rfl
  · rw [blocks_newBlock]
    split
    · rfl
    · exact Std.ExtTreeMap.getD_empty

theorem address_initialGraph (firstIns : RtnIns ws) (x : Addr ws) :
    (initialGraph firstIns).addressMap[x]? = if x = 2 then some 1
      else if x = firstIns.address then some 0 else none := by
  show (setAddress 2 1 (setAddress firstIns.address 0
    (setAddress firstIns.address 0 (noGraph ws)))).addressMap[x]? = _
  rw [getElem?_setAddress, getElem?_setAddress, getElem?_setAddress]
  by_cases h2 : x = 2
  · rw [if_pos h2, if_pos h2]
  · rw [if_neg h2, if_neg h2]
    by_cases hx : x = firstIns.address
    · rw [if_pos hx, if_pos hx]
    · rw [if_neg hx, if_neg hx, if_neg hx]
      exact Std.ExtTreeMap.getElem?_empty

/-- The map has the return node and the first instruction. -/
theorem address_initialGraph_cases {firstIns : RtnIns ws} {x : Addr ws} {c : BlockId}
    (h : (initialGraph firstIns).addressMap[x]? = some c) :
    (x = 2 ∧ c = 1) ∨ (x = firstIns.address ∧ c = 0) := by
  rw [address_initialGraph] at h
  split at h
  · cases h
    exact Or.inl ⟨‹_›, rfl⟩
  · split at h
    · cases h
      exact Or.inr ⟨‹_›, rfl⟩
    · exact nomatch h

theorem blocks_initialGraph_zero (firstIns : RtnIns ws) :
    (initialGraph firstIns).blocks 0 = ⟨[], [], firstIns.address, 0⟩ :=
  blocks_initialGraph firstIns 0

theorem blocks_initialGraph_one (firstIns : RtnIns ws) :
    (initialGraph firstIns).blocks 1 = ⟨[], [], 2, 2⟩ :=
  blocks_initialGraph firstIns 1

/-- No block has a way in. -/
theorem predecessors_initialGraph (firstIns : RtnIns ws) (c : BlockId) :
    ((initialGraph firstIns).blocks c).predecessors = [] := by
  rw [blocks_initialGraph]
  split
  · rfl
  · split
    · rfl
    · rfl

theorem building_initialGraph {firstIns : RtnIns ws} (h2 : firstIns.address ≠ 2) :
    Building (fun x => x = firstIns.address) (some 0) (initialGraph firstIns) := by
  have hnone : ∀ b c, ¬ Edge (initialGraph firstIns) b c := by
    intro b c he
    rw [Edge] at he
    rw [predecessors_initialGraph] at he
    exact nomatch he
  refine ⟨⟨fun b => b = 0, ⟨fun b c he => absurd he (hnone b c),
    fun b c he => absurd he (hnone b c), ?_, ?_, ?_, fun c => ?_, fun heq => h2 heq.symm, ?_, ?_,
    fun x b hx => ?_, fun x b hx hx2 hb => ?_, fun x y b hx _ hx2 _ hb => ?_⟩, ?_⟩,
    fun b => ⟨0, 0, fun c he => absurd he (hnone b c)⟩, fun b _ c => hnone b c⟩
  · rintro b rfl
    exact Nat.zero_lt_succ 1
  · rintro b rfl
    rw [blocks_initialGraph_zero]
  · rintro b b' rfl rfl -
    rfl
  · rw [predecessors_initialGraph]
    exact List.nodup_nil
  · show ((initialGraph firstIns).blocks 1).startingAddress = 2
    rw [blocks_initialGraph_one]
  · rw [address_initialGraph, if_pos rfl]
    rfl
  · show b < 2
    rcases address_initialGraph_cases hx with ⟨-, rfl⟩ | ⟨-, rfl⟩
    · exact Nat.lt_succ_self 1
    · exact Nat.zero_lt_succ 1
  -- every address in the map is done, or that of the return node
  · rcases address_initialGraph_cases hb with ⟨h, -⟩ | ⟨h, -⟩
    · exact absurd h hx2
    · exact absurd h hx
  · rcases address_initialGraph_cases hb with ⟨h, -⟩ | ⟨h, -⟩
    · exact absurd h hx2
    · exact absurd h hx
  · intro b hb
    exact (Option.some.inj hb).symm

/-- What the loop leaves: the started blocks start at instructions of the
    routine. -/
theorem blockBuilder_built {r : Routine ws} {g : RoutineGraph ws}
    (hrun : blockBuilder r = some g) : ∃ started,
      Built (· ∈ r.instructions.map RtnIns.address) started g ∧ ∀ b, TwoOut g b := by
  have habove : ∀ ins ∈ r.instructions, ins.address ≠ 2 := by
    intro ins hins heq
    have hlt := r.above ins hins
    rw [heq] at hlt
    revert hlt
    cases ws <;> decide
  obtain ⟨hhead, htail⟩ := List.nodup_cons.mp r.nodup
  have hinit := building_initialGraph (habove _ List.mem_cons_self)
  have hnew : ∀ ins ∈ r.tail, ins.address ≠ r.head.address := fun ins hins heq =>
    hhead (heq ▸ List.mem_map_of_mem hins)
  obtain ⟨started, hb, htwo⟩ := hinit.loop htail hnew
    (fun ins hins => habove ins (List.mem_cons_of_mem _ hins)) hrun
  have hsame : (· ∈ r.instructions.map RtnIns.address)
      = fun x => x = r.head.address ∨ x ∈ r.tail.map RtnIns.address := by
    funext x
    rw [List.map_cons, List.mem_cons]
  exact ⟨started, hsame ▸ hb, htwo⟩

/-- **Every graph `BlockBuilder` builds** has at most two ways out of a block,
    none out of the return node, and distinct starting addresses. -/
theorem blockBuilder_isCfg {r : Routine ws} {g : RoutineGraph ws}
    (hrun : blockBuilder r = some g) : IsCfg g := by
  obtain ⟨started, hb, htwo⟩ := blockBuilder_built hrun
  exact hb.isCfg htwo

end DytanBlockBuilder
