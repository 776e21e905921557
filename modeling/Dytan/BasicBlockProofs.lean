import Dytan.TaintStateProofs
import Dytan.PostDominanceProofs

/-! # Basic blocks — the post-dominance tree and its patches

    A block is a pointer.  Its fields are in two records: `BasicBlock` has
    those of the control-flow graph, which `BlockBuilder` fills, and
    `PostDominanceInfo` those of the post-dominance tree, which
    `buildPostDominanceTree` fills.  A key of `postDominated` that `operator[]`
    inserted holds `NULL` (`none`).

    The walks along `PostDominator` follow the pointers of the source.  `fuel`
    bounds their length: `none` is a walk that does not end within it, or that
    follows a `NULL` pointer.

    Each walk has one lemma that says what it does on a block whose parents
    lead to the return node (`Chain`). -/

namespace DytanBasicBlock

open DytanRegister DytanTaintState PostDominance

variable {ws : WordSize}

/-- A `BasicBlock *`, by order of allocation. -/
abbrev BlockId := Nat

/-- The control-flow fields of a block. -/
structure BasicBlock (ws : WordSize) where
  successors : List BlockId
  predecessors : List BlockId
  startingAddress : Addr ws
  endingAddress : Addr ws

/-- `BasicBlock()`. -/
def BasicBlock.new (ws : WordSize) : BasicBlock ws := ⟨[], [], 0, 0⟩

/-- `map<ADDRINT, BasicBlock *>`. -/
abbrev BlockMap (ws : WordSize) := Std.ExtTreeMap (Addr ws) (Option BlockId)

/-- The post-dominance fields of a block. -/
structure PostDominanceInfo (ws : WordSize) where
  postDominated : BlockMap ws
  postDominator : Option BlockId
  immediatelyPostDominated : BlockMap ws
  isPostDominated : Bool

/-- `BasicBlock()`. -/
def PostDominanceInfo.new (ws : WordSize) : PostDominanceInfo ws := ⟨∅, none, ∅, false⟩

/-- The control-flow fields of the blocks. -/
abbrev Blocks (ws : WordSize) := BlockId → BasicBlock ws

/-- The post-dominance fields of the blocks that have been written to. -/
abbrev Infos (ws : WordSize) := Std.ExtTreeMap BlockId (PostDominanceInfo ws)

/-- The post-dominance fields of a block. -/
def info (h : Infos ws) (b : BlockId) : PostDominanceInfo ws := h.getD b (.new ws)

@[simp] theorem info_insert_self (h : Infos ws) (b : BlockId) (i : PostDominanceInfo ws) :
    info (h.insert b i) b = i := Std.ExtTreeMap.getD_insert_self

theorem info_insert_of_ne (h : Infos ws) {b c : BlockId} (hc : c ≠ b)
    (i : PostDominanceInfo ws) : info (h.insert b i) c = info h c := by
  simp only [info]
  rw [Std.ExtTreeMap.getD_insert, if_neg]
  rw [Std.compare_eq_iff_eq]
  exact fun heq => hc heq.symm

/-- A map after `insert`. -/
theorem getElem?_insert_of_ne (m : BlockMap ws) {key k : Addr ws} (hk : k ≠ key)
    (v : Option BlockId) : (m.insert key v)[k]? = m[k]? := by
  rw [Std.ExtTreeMap.getElem?_insert, if_neg]
  rw [Std.compare_eq_iff_eq]
  exact fun heq => hk heq.symm

/-- `setPostDominator`. -/
def setPostDominator (h : Infos ws) (this block : BlockId) : Infos ws :=
  let i := info h this
  h.insert this ⟨i.postDominated, some block, i.immediatelyPostDominated, true⟩

/-- Assign the map `immediatelyPostDominated`. -/
def setImmediate (h : Infos ws) (this : BlockId) (m : BlockMap ws) : Infos ws :=
  let i := info h this
  h.insert this ⟨i.postDominated, i.postDominator, m, i.isPostDominated⟩

/-- `addImmediatePostDominator`. -/
def addImmediatePostDominator (h : Infos ws) (this : BlockId) (key : Addr ws)
    (newBlock : BlockId) : Infos ws :=
  setImmediate h this ((info h this).immediatelyPostDominated.insert key (some newBlock))

/-- `immediatelyPostDominated.erase(key)`. -/
def eraseImmediate (h : Infos ws) (this : BlockId) (key : Addr ws) : Infos ws :=
  setImmediate h this ((info h this).immediatelyPostDominated.erase key)

/-- The block with another map `postDominated`. -/
def PostDominanceInfo.withMap (i : PostDominanceInfo ws) (m : BlockMap ws) :
    PostDominanceInfo ws :=
  ⟨m, i.postDominator, i.immediatelyPostDominated, i.isPostDominated⟩

/-- Assign the map `postDominated`. -/
def setPostDominated (h : Infos ws) (this : BlockId) (m : BlockMap ws) : Infos ws :=
  h.insert this ((info h this).withMap m)

/-- `postDominated[key]`, which inserts `NULL` for a key that is not there. -/
def indexPostDominated (h : Infos ws) (this : BlockId) (key : Addr ws) : Infos ws :=
  let m := (info h this).postDominated
  setPostDominated h this (m.insert key (m.getD key none))

/-- `getCommonPostDominator`. -/
def getCommonPostDominator (blocks : Blocks ws) :
    Nat → Infos ws → BlockId → BlockId → Option (BlockId × Infos ws)
  | 0, _, _, _ => none
  | fuel + 1, h, this, siblingBlock =>
      let key := (blocks siblingBlock).startingAddress
      let h := indexPostDominated h this key
      if (info h this).postDominated.getD key none ≠ none then some (this, h)
      else if (blocks this).startingAddress = 2 then some (this, h)
      else match (info h this).postDominator with
        | none => none
        | some p => getCommonPostDominator blocks fuel h p siblingBlock

/-- `passDownPostDominanceInfo`. -/
def passDownPostDominanceInfo (blocks : Blocks ws) :
    Nat → Infos ws → BlockId → BlockId → Option (Infos ws)
  | 0, _, _, _ => none
  | fuel + 1, h, this, newChild =>
      let h := setPostDominated h this ((info h this).postDominated.insert
        (blocks newChild).startingAddress (some newChild))
      if (blocks this).startingAddress ≠ 2 then
        match (info h this).postDominator with
        | none => none
        | some p => passDownPostDominanceInfo blocks fuel h p newChild
      else some h

/-- Erase `deletableBlocksParent` and all keys of `deletableBlocks`. -/
def eraseKeys (m deletableBlocks : BlockMap ws) (deletableBlocksParent : Addr ws) :
    BlockMap ws :=
  deletableBlocks.keys.foldl (fun m k => m.erase k) (m.erase deletableBlocksParent)

/-- `deleteDownPostDominanceInfo`. -/
def deleteDownPostDominanceInfo (blocks : Blocks ws) :
    Nat → Infos ws → BlockId → BlockMap ws → Addr ws → Addr ws → Option (Infos ws)
  | 0, _, _, _, _, _ => none
  | fuel + 1, h, this, deletableBlocks, deletableBlocksParent, lastNodesStarting =>
      if (blocks this).startingAddress ≠ lastNodesStarting then
        let h := setPostDominated h this
          (eraseKeys (info h this).postDominated deletableBlocks deletableBlocksParent)
        match (info h this).postDominator with
        | none => some h
        | some p => deleteDownPostDominanceInfo blocks fuel h p deletableBlocks
            deletableBlocksParent lastNodesStarting
      else some h

/-- `addPredecessorAsPostDominated`. -/
def addPredecessorAsPostDominated (blocks : Blocks ws) (fuel : Nat) (h : Infos ws)
    (this predecessor : BlockId) : Option (Infos ws) :=
  let key := (blocks predecessor).startingAddress
  if (info h predecessor).isPostDominated = false then
    let h := setPostDominator h predecessor this
    let h := addImmediatePostDominator h this key predecessor
    passDownPostDominanceInfo blocks fuel h this predecessor
  else
    match (info h predecessor).postDominator with
    | none => none
    | some competingSibling => do
        let (newPostDominator, h) ← getCommonPostDominator blocks fuel h this predecessor
        let h := eraseImmediate h this key
        let h ← deleteDownPostDominanceInfo blocks fuel h competingSibling
          (info h predecessor).postDominated key (blocks newPostDominator).startingAddress
        let h := setPostDominator h predecessor newPostDominator
        some (addImmediatePostDominator h newPostDominator key predecessor)

/-! ## What the walks read -/

/-- The `PostDominator` pointers. -/
def parents (h : Infos ws) : BlockId → Option BlockId := fun b => (info h b).postDominator

/-- `immediatelyPostDominated` is not read by the walks. -/
theorem setImmediate_keeps (h : Infos ws) (this b : BlockId) (m : BlockMap ws) :
    (info (setImmediate h this m) b).postDominator = (info h b).postDominator
      ∧ (info (setImmediate h this m) b).isPostDominated = (info h b).isPostDominated
      ∧ (info (setImmediate h this m) b).postDominated = (info h b).postDominated := by
  rw [setImmediate]
  by_cases hb : b = this
  · subst hb
    rw [info_insert_self]
    exact ⟨rfl, rfl, rfl⟩
  · rw [info_insert_of_ne h hb]
    exact ⟨rfl, rfl, rfl⟩

theorem setPostDominator_self (h : Infos ws) (this block : BlockId) :
    info (setPostDominator h this block) this
      = ⟨(info h this).postDominated, some block, (info h this).immediatelyPostDominated, true⟩ :=
  info_insert_self ..

theorem setPostDominator_of_ne (h : Infos ws) {this b : BlockId} (hb : b ≠ this)
    (block : BlockId) : info (setPostDominator h this block) b = info h b :=
  info_insert_of_ne h hb _

@[simp] theorem setPostDominated_self (h : Infos ws) (this : BlockId) (m : BlockMap ws) :
    info (setPostDominated h this m) this = (info h this).withMap m :=
  info_insert_self ..

theorem setPostDominated_of_ne (h : Infos ws) {this b : BlockId} (hb : b ≠ this)
    (m : BlockMap ws) : info (setPostDominated h this m) b = info h b :=
  info_insert_of_ne h hb _

@[simp] theorem parents_setPostDominated (h : Infos ws) (this : BlockId) (m : BlockMap ws) :
    parents (setPostDominated h this m) = parents h := by
  funext b
  simp only [parents]
  by_cases hb : b = this
  · subst hb
    rw [setPostDominated_self]
    rfl
  · rw [setPostDominated_of_ne h hb]

/-- Erasing the keys of a map. -/
theorem getElem?_eraseKeys (m deletable : BlockMap ws) (key k : Addr ws) :
    (eraseKeys m deletable key)[k]? = if k = key ∨ k ∈ deletable then none else m[k]? := by
  have hfold : ∀ (ks : List (Addr ws)) (m : BlockMap ws),
      (ks.foldl (fun m k => m.erase k) m)[k]? = if k ∈ ks then none else m[k]? := by
    intro ks
    induction ks with
    | nil => simp
    | cons c ks ih =>
        intro m
        rw [List.foldl_cons, ih, Std.ExtTreeMap.getElem?_erase]
        by_cases hk : k ∈ ks
        · simp [hk]
        · by_cases hc : c = k
          · simp [hc]
          · simp [hk, hc, Ne.symm hc]
  rw [eraseKeys, hfold, Std.ExtTreeMap.getElem?_erase]
  by_cases hk : k ∈ deletable
  · simp [hk]
  · by_cases hc : key = k
    · simp [hc]
    · simp [hk, hc, Ne.symm hc]

/-- `postDominated` of `b` has a block that is not `NULL` at `key`. -/
def Holds (h : Infos ws) (b : BlockId) (key : Addr ws) : Prop :=
  (info h b).postDominated.getD key none ≠ none

/-- The chain of a block; only its last block starts at 2. -/
def Rooted (blocks : Blocks ws) (h : Infos ws) (root b : BlockId) (cs : List BlockId) : Prop :=
  Chain (parents h) root b cs ∧ ∀ x ∈ b :: cs, (blocks x).startingAddress = 2 ↔ x = root

theorem Rooted.up {blocks : Blocks ws} {h : Infos ws} {root b c : BlockId} {cs : List BlockId}
    (hc : Rooted blocks h root b (c :: cs)) : Rooted blocks h root c cs := by
  obtain ⟨hchain, hstart⟩ := hc
  refine ⟨?_, fun x hx => hstart x (List.mem_cons_of_mem _ hx)⟩
  cases hchain with
  | up _ _ h => exact h

/-- A walk ends at the root, whose starting address is 2. -/
theorem Rooted.last {blocks : Blocks ws} {h : Infos ws} {root b : BlockId}
    (hc : Rooted blocks h root b []) : b = root ∧ (blocks b).startingAddress = 2 := by
  obtain ⟨hchain, hstart⟩ := hc
  cases hchain with
  | root => exact ⟨rfl, (hstart _ List.mem_cons_self).mpr rfl⟩

/-- A walk that goes on has not reached the root. -/
theorem Rooted.parent {blocks : Blocks ws} {h : Infos ws} {root b c : BlockId}
    {cs : List BlockId} (hc : Rooted blocks h root b (c :: cs)) :
    (info h b).postDominator = some c ∧ (blocks b).startingAddress ≠ 2 := by
  obtain ⟨hchain, hstart⟩ := hc
  cases hchain with
  | up hne hp _ => exact ⟨hp, fun h2 => hne ((hstart b List.mem_cons_self).mp h2)⟩

/-- The two heaps differ only in `NULL` entries at `key`. -/
structure Probed (key : Addr ws) (h h' : Infos ws) : Prop where
  parents_eq : ∀ b, (info h' b).postDominator = (info h b).postDominator
  flag_eq : ∀ b, (info h' b).isPostDominated = (info h b).isPostDominated
  holds_iff : ∀ b k, Holds h' b k ↔ Holds h b k
  other_key : ∀ b k, k ≠ key → (info h' b).postDominated[k]? = (info h b).postDominated[k]?

theorem Probed.refl (key : Addr ws) (h : Infos ws) : Probed key h h :=
  ⟨fun _ => rfl, fun _ => rfl, fun _ _ => Iff.rfl, fun _ _ _ => rfl⟩

theorem Probed.trans {key : Addr ws} {h₁ h₂ h₃ : Infos ws} (h : Probed key h₁ h₂)
    (h' : Probed key h₂ h₃) : Probed key h₁ h₃ where
  parents_eq b := (h'.parents_eq b).trans (h.parents_eq b)
  flag_eq b := (h'.flag_eq b).trans (h.flag_eq b)
  holds_iff b k := (h'.holds_iff b k).trans (h.holds_iff b k)
  other_key b k hk := (h'.other_key b k hk).trans (h.other_key b k hk)

/-- `operator[]` inserts a `NULL` entry at most. -/
theorem probed_index (h : Infos ws) (this : BlockId) (key : Addr ws) :
    Probed key h (indexPostDominated h this key) := by
  refine ⟨fun b => ?_, fun b => ?_, fun b k => ?_, fun b k hk => ?_⟩
  all_goals unfold indexPostDominated
  · exact congrFun (parents_setPostDominated h this _) b
  · by_cases hb : b = this
    · subst hb
      rw [setPostDominated_self]
      rfl
    · rw [setPostDominated_of_ne h hb]
  · simp only [Holds]
    by_cases hb : b = this
    · subst hb
      rw [setPostDominated_self, PostDominanceInfo.withMap, Std.ExtTreeMap.getD_insert]
      by_cases hk : key = k
      · simp [hk]
      · simp [hk]
    · rw [setPostDominated_of_ne h hb]
  · by_cases hb : b = this
    · subst hb
      rw [setPostDominated_self]
      exact getElem?_insert_of_ne _ hk _
    · rw [setPostDominated_of_ne h hb]

/-! ## The walks -/

/-- `getCommonPostDominator` finds the first block on the way up whose map has
    the sibling, or the return node. -/
theorem getCommonPostDominator_spec {blocks : Blocks ws} {h : Infos ws} {root this : BlockId}
    {cs : List BlockId} (hc : Rooted blocks h root this cs) (sibling : BlockId) {fuel : Nat}
    (hfuel : cs.length < fuel) :
    ∃ w h' pre post, getCommonPostDominator blocks fuel h this sibling = some (w, h')
      ∧ Probed (blocks sibling).startingAddress h h'
      ∧ this :: cs = pre ++ w :: post
      ∧ (Holds h w (blocks sibling).startingAddress ∨ w = root)
      ∧ ∀ b ∈ pre, ¬ Holds h b (blocks sibling).startingAddress := by
  induction cs generalizing h this fuel with
  | nil =>
      obtain ⟨fuel, rfl⟩ := Nat.exists_eq_succ_of_ne_zero (Nat.ne_of_gt hfuel)
      obtain ⟨hroot, h2⟩ := hc.last
      refine ⟨this, _, [], [], ?_, probed_index h this _, rfl, Or.inr hroot, by simp⟩
      rw [getCommonPostDominator]
      simp only [h2, if_true, ite_self]
  | cons c cs ih =>
      obtain ⟨fuel, rfl⟩ := Nat.exists_eq_succ_of_ne_zero
        (Nat.ne_of_gt (Nat.lt_of_le_of_lt (Nat.zero_le _) hfuel))
      have hprobe := probed_index h this (blocks sibling).startingAddress
      rw [getCommonPostDominator]
      by_cases hholds : Holds h this (blocks sibling).startingAddress
      · have hh := (hprobe.holds_iff this _).mpr hholds
        exact ⟨this, _, [], c :: cs, if_pos hh, hprobe, rfl, Or.inl hholds, by simp⟩
      · obtain ⟨hp, h2⟩ := hc.parent
        have hup : Rooted blocks (indexPostDominated h this (blocks sibling).startingAddress)
            root c cs := by
          refine ⟨hc.up.1.congr fun x _ => hprobe.parents_eq x, hc.up.2⟩
        obtain ⟨w, h', pre, post, hrun, hpr, hsplit, hw, hpre⟩ :=
          ih hup (Nat.lt_of_succ_lt_succ hfuel)
        refine ⟨w, h', this :: pre, post, ?_, hprobe.trans hpr, by rw [hsplit]; rfl, ?_, ?_⟩
        · have hh := fun hh => hholds ((hprobe.holds_iff this _).mp hh)
          refine (if_neg hh).trans ((if_neg h2).trans ?_)
          rw [hprobe.parents_eq, hp]
          exact hrun
        · exact hw.imp_left (hprobe.holds_iff _ _).mp
        · intro b hb
          rcases List.mem_cons.mp hb with rfl | hb
          · exact hholds
          · exact fun hh => hpre b hb ((hprobe.holds_iff _ _).mpr hh)

/-- `passDownPostDominanceInfo` enters the child at every block of the chain. -/
theorem passDownPostDominanceInfo_spec {blocks : Blocks ws} {h : Infos ws}
    {root this : BlockId} {cs : List BlockId} (hc : Rooted blocks h root this cs)
    (child : BlockId) {fuel : Nat} (hfuel : cs.length < fuel) :
    ∃ h', passDownPostDominanceInfo blocks fuel h this child = some h'
      ∧ ∀ b, info h' b = if b ∈ this :: cs then (info h b).withMap
          ((info h b).postDominated.insert (blocks child).startingAddress (some child))
        else info h b := by
  induction cs generalizing h this fuel with
  | nil =>
      obtain ⟨fuel, rfl⟩ := Nat.exists_eq_succ_of_ne_zero (Nat.ne_of_gt hfuel)
      obtain ⟨-, h2⟩ := hc.last
      refine ⟨_, by rw [passDownPostDominanceInfo]; exact if_neg (not_not_intro h2),
        fun b => ?_⟩
      by_cases hb : b = this
      · subst hb
        simp
      · rw [setPostDominated_of_ne h hb, if_neg (by simpa using hb)]
  | cons c cs ih =>
      obtain ⟨fuel, rfl⟩ := Nat.exists_eq_succ_of_ne_zero
        (Nat.ne_of_gt (Nat.lt_of_le_of_lt (Nat.zero_le _) hfuel))
      have hself : this ∉ c :: cs := hc.1.notMem_self
      obtain ⟨hp, h2⟩ := hc.parent
      have hup : Rooted blocks (setPostDominated h this ((info h this).postDominated.insert
          (blocks child).startingAddress (some child))) root c cs := by
        refine ⟨?_, hc.up.2⟩
        rw [parents_setPostDominated]
        exact hc.up.1
      obtain ⟨h', hrun, hh'⟩ := ih hup (Nat.lt_of_succ_lt_succ hfuel)
      refine ⟨h', ?_, fun b => ?_⟩
      · simp only [passDownPostDominanceInfo, ne_eq, h2, not_false_eq_true, if_true,
          setPostDominated_self, PostDominanceInfo.withMap, hp]
        exact hrun
      · rw [hh' b]
        by_cases hb : b = this
        · subst hb
          rw [if_neg hself, if_pos List.mem_cons_self, setPostDominated_self]
        · rw [setPostDominated_of_ne h hb]
          simp [hb]

/-- `deleteDownPostDominanceInfo` erases the keys at every block of the chain
    below the one it is told to stop at. -/
theorem deleteDownPostDominanceInfo_spec {blocks : Blocks ws} {h : Infos ws}
    {root this w : BlockId} {cs pre post : List BlockId}
    (hc : Chain (parents h) root this cs) (hsplit : this :: cs = pre ++ w :: post)
    (hstart : ∀ b ∈ pre, (blocks b).startingAddress ≠ (blocks w).startingAddress)
    (deletable : BlockMap ws) (key : Addr ws) {fuel : Nat}
    (hfuel : pre.length < fuel) :
    ∃ h', deleteDownPostDominanceInfo blocks fuel h this deletable key
        (blocks w).startingAddress = some h'
      ∧ ∀ b, info h' b = if b ∈ pre then (info h b).withMap
          (eraseKeys (info h b).postDominated deletable key) else info h b := by
  induction pre generalizing h this cs fuel with
  | nil =>
      obtain ⟨fuel, rfl⟩ := Nat.exists_eq_succ_of_ne_zero (Nat.ne_of_gt hfuel)
      obtain ⟨rfl, -⟩ := List.cons.inj hsplit
      refine ⟨h, ?_, fun b => by simp⟩
      rw [deleteDownPostDominanceInfo]
      exact if_neg (not_not_intro rfl)
  | cons x pre ih =>
      obtain ⟨fuel, rfl⟩ := Nat.exists_eq_succ_of_ne_zero
        (Nat.ne_of_gt (Nat.lt_of_le_of_lt (Nat.zero_le _) hfuel))
      obtain ⟨rfl, rfl⟩ := List.cons.inj hsplit
      have hself : this ∉ pre ++ w :: post := hc.notMem_self
      have hne : (blocks this).startingAddress ≠ (blocks w).startingAddress :=
        hstart this List.mem_cons_self
      obtain ⟨c, cs, hp, hcs, hup⟩ : ∃ c cs, (info h this).postDominator = some c
          ∧ pre ++ w :: post = c :: cs ∧ Chain (parents h) root c cs := by
        refine (hc.exists_parent fun hroot => ?_).imp fun c ⟨cs, hp, hcs, hup⟩ =>
          ⟨cs, hp, hcs, hup⟩
        subst hroot
        exact absurd (hc.unique .root) (by simp)
      have hup₁ : Chain (parents (setPostDominated h this
          (eraseKeys (info h this).postDominated deletable key))) root c cs := by
        rw [parents_setPostDominated]
        exact hup
      obtain ⟨h', hrun, hh'⟩ := ih hup₁ hcs.symm (fun b hb => hstart b (List.mem_cons_of_mem _ hb))
        (Nat.lt_of_succ_lt_succ hfuel)
      refine ⟨h', ?_, fun b => ?_⟩
      · simp only [deleteDownPostDominanceInfo, ne_eq, hne, not_false_eq_true, if_true,
          setPostDominated_self, PostDominanceInfo.withMap, hp]
        exact hrun
      · rw [hh' b]
        by_cases hb : b = this
        · subst hb
          rw [if_neg fun hb => hself (List.mem_append_left _ hb), if_pos List.mem_cons_self,
            setPostDominated_self]
        · rw [setPostDominated_of_ne h hb]
          simp [hb]

/-! ## The parents are kept -/

/-- The `immediatelyPostDominated` maps. -/
def immediates (h : Infos ws) : BlockId → BlockMap ws := fun b =>
  (info h b).immediatelyPostDominated

/-- The walks change neither the parents nor the maps of the blocks directly
    below. -/
def KeepsTree (h h' : Infos ws) : Prop := parents h' = parents h ∧ immediates h' = immediates h

theorem KeepsTree.trans {h₁ h₂ h₃ : Infos ws} (h : KeepsTree h₁ h₂) (h' : KeepsTree h₂ h₃) :
    KeepsTree h₁ h₃ := ⟨h'.1.trans h.1, h'.2.trans h.2⟩

theorem keepsTree_setPostDominated (h : Infos ws) (this : BlockId) (m : BlockMap ws) :
    KeepsTree h (setPostDominated h this m) := by
  refine ⟨parents_setPostDominated h this m, funext fun b => ?_⟩
  simp only [immediates]
  by_cases hb : b = this
  · subst hb
    rw [setPostDominated_self]
    rfl
  · rw [setPostDominated_of_ne h hb]

theorem getCommonPostDominator_keeps {blocks : Blocks ws} {fuel : Nat} {h h' : Infos ws}
    {this sibling w : BlockId}
    (hrun : getCommonPostDominator blocks fuel h this sibling = some (w, h')) :
    KeepsTree h h' := by
  induction fuel generalizing h this with
  | zero => exact nomatch hrun
  | succ fuel ih =>
      have hindex : ∀ key, KeepsTree h (indexPostDominated h this key) := fun key =>
        keepsTree_setPostDominated h this _
      simp only [getCommonPostDominator] at hrun
      split at hrun
      · cases hrun
        exact hindex _
      · split at hrun
        · cases hrun
          exact hindex _
        · split at hrun
          · exact nomatch hrun
          · exact (hindex _).trans (ih hrun)

theorem passDownPostDominanceInfo_keeps {blocks : Blocks ws} {fuel : Nat} {h h' : Infos ws}
    {this child : BlockId}
    (hrun : passDownPostDominanceInfo blocks fuel h this child = some h') :
    KeepsTree h h' := by
  induction fuel generalizing h this with
  | zero => exact nomatch hrun
  | succ fuel ih =>
      simp only [passDownPostDominanceInfo] at hrun
      split at hrun
      · split at hrun
        · exact nomatch hrun
        · exact (keepsTree_setPostDominated h this _).trans (ih hrun)
      · cases hrun
        exact keepsTree_setPostDominated h this _

theorem deleteDownPostDominanceInfo_keeps {blocks : Blocks ws} {fuel : Nat} {h h' : Infos ws}
    {this : BlockId} {deletable : BlockMap ws} {key last : Addr ws}
    (hrun : deleteDownPostDominanceInfo blocks fuel h this deletable key last = some h') :
    KeepsTree h h' := by
  induction fuel generalizing h this with
  | zero => exact nomatch hrun
  | succ fuel ih =>
      simp only [deleteDownPostDominanceInfo] at hrun
      split at hrun
      · split at hrun
        · cases hrun
          exact keepsTree_setPostDominated h this _
        · exact (keepsTree_setPostDominated h this _).trans (ih hrun)
      · cases hrun
        exact ⟨rfl, rfl⟩

theorem parents_setImmediate (h : Infos ws) (this : BlockId) (m : BlockMap ws) :
    parents (setImmediate h this m) = parents h :=
  funext fun b => (setImmediate_keeps h this b m).1

theorem parents_setPostDominator_self (h : Infos ws) (this block : BlockId) :
    parents (setPostDominator h this block) this = some block := by
  rw [parents]
  rw [setPostDominator_self]

/-- Only the predecessor gets another post-dominator. -/
theorem addPredecessorAsPostDominated_other {blocks : Blocks ws} {fuel : Nat}
    {h h' : Infos ws} {this predecessor : BlockId}
    (hrun : addPredecessorAsPostDominated blocks fuel h this predecessor = some h')
    {b : BlockId} (hb : b ≠ predecessor) : parents h' b = parents h b := by
  have hset : ∀ (h : Infos ws) (c : BlockId),
      parents (setPostDominator h predecessor c) b = parents h b := fun h c => by
    simp only [parents]
    rw [setPostDominator_of_ne h hb]
  simp only [addPredecessorAsPostDominated] at hrun
  split at hrun
  · rw [(passDownPostDominanceInfo_keeps hrun).1, addImmediatePostDominator,
      parents_setImmediate, hset]
  · split at hrun
    · exact nomatch hrun
    · obtain ⟨⟨w, h₁⟩, hcommon, hrest⟩ := Option.bind_eq_some_iff.mp hrun
      obtain ⟨h₂, hdelete, hlast⟩ := Option.bind_eq_some_iff.mp hrest
      cases hlast
      rw [addImmediatePostDominator, parents_setImmediate, hset,
        (deleteDownPostDominanceInfo_keeps hdelete).1, eraseImmediate, parents_setImmediate,
        (getCommonPostDominator_keeps hcommon).1]

/-- The predecessor has a post-dominator. -/
theorem addPredecessorAsPostDominated_self {blocks : Blocks ws} {fuel : Nat}
    {h h' : Infos ws} {this predecessor : BlockId}
    (hrun : addPredecessorAsPostDominated blocks fuel h this predecessor = some h') :
    parents h' predecessor ≠ none := by
  simp only [addPredecessorAsPostDominated] at hrun
  split at hrun
  · rw [(passDownPostDominanceInfo_keeps hrun).1, addImmediatePostDominator,
      parents_setImmediate, parents_setPostDominator_self]
    exact Option.some_ne_none _
  · split at hrun
    · exact nomatch hrun
    · obtain ⟨⟨w, h₁⟩, -, hrest⟩ := Option.bind_eq_some_iff.mp hrun
      obtain ⟨h₂, -, hlast⟩ := Option.bind_eq_some_iff.mp hrest
      cases hlast
      rw [addImmediatePostDominator, parents_setImmediate, parents_setPostDominator_self]
      exact Option.some_ne_none _

/-- Setting a parent keeps the maps of the blocks directly below. -/
theorem immediates_setPostDominator (h : Infos ws) (this block : BlockId) :
    immediates (setPostDominator h this block) = immediates h := by
  funext b
  simp only [immediates]
  by_cases hb : b = this
  · rw [hb, setPostDominator_self]
  · rw [setPostDominator_of_ne h hb]

theorem immediates_setImmediate (h : Infos ws) (this b : BlockId) (m : BlockMap ws) :
    immediates (setImmediate h this m) b = if b = this then m else immediates h b := by
  rw [setImmediate]
  simp only [immediates]
  by_cases hb : b = this
  · rw [if_pos hb, hb, info_insert_self]
  · rw [if_neg hb, info_insert_of_ne h hb]

theorem addImmediatePostDominator_getElem? (h : Infos ws) (this b child : BlockId)
    (key k : Addr ws) :
    (immediates (addImmediatePostDominator h this key child) b)[k]?
      = if b = this ∧ k = key then some (some child) else (immediates h b)[k]? := by
  rw [addImmediatePostDominator, immediates_setImmediate]
  by_cases hb : b = this
  · subst hb
    by_cases hk : k = key
    · subst hk
      simp
    · rw [if_pos rfl, if_neg fun hh => hk hh.2]
      exact getElem?_insert_of_ne _ hk _
  · rw [if_neg hb, if_neg fun hh => hb hh.1]

theorem eraseImmediate_getElem? (h : Infos ws) (this b : BlockId) (key k : Addr ws) :
    (immediates (eraseImmediate h this key) b)[k]?
      = if b = this ∧ k = key then none else (immediates h b)[k]? := by
  rw [eraseImmediate, immediates_setImmediate]
  by_cases hb : b = this
  · subst hb
    rw [if_pos rfl, Std.ExtTreeMap.getElem?_erase]
    by_cases hk : k = key
    · subst hk
      simp
    · have hk' : ¬ key = k := fun heq => hk heq.symm
      simp [hk, hk', immediates]
  · rw [if_neg hb, if_neg fun hh => hb hh.1]

/-- The predecessor is entered at its new parent; when it had one before, its
    key is erased at the block that runs the update. -/
theorem addPredecessorAsPostDominated_immediates {blocks : Blocks ws} {fuel : Nat}
    {h h' : Infos ws} {this predecessor w : BlockId}
    (hrun : addPredecessorAsPostDominated blocks fuel h this predecessor = some h')
    (hw : parents h' predecessor = some w) (b : BlockId) (k : Addr ws) :
    (immediates h' b)[k]?
      = if b = w ∧ k = (blocks predecessor).startingAddress then some (some predecessor)
        else if (info h predecessor).isPostDominated = true ∧ b = this
          ∧ k = (blocks predecessor).startingAddress then none
        else (immediates h b)[k]? := by
  simp only [addPredecessorAsPostDominated] at hrun
  split at hrun
  next hnew =>
    obtain ⟨hparents, himmediates⟩ := passDownPostDominanceInfo_keeps hrun
    rw [hparents, addImmediatePostDominator, parents_setImmediate,
      parents_setPostDominator_self] at hw
    cases hw
    rw [himmediates, addImmediatePostDominator_getElem?, immediates_setPostDominator, hnew]
    simp
  next hold =>
    split at hrun
    · exact nomatch hrun
    · obtain ⟨⟨c, h₁⟩, hcommon, hrest⟩ := Option.bind_eq_some_iff.mp hrun
      obtain ⟨h₂, hdelete, hlast⟩ := Option.bind_eq_some_iff.mp hrest
      cases hlast
      rw [addImmediatePostDominator, parents_setImmediate, parents_setPostDominator_self] at hw
      cases hw
      rw [addImmediatePostDominator_getElem?, immediates_setPostDominator,
        (deleteDownPostDominanceInfo_keeps hdelete).2, eraseImmediate_getElem?,
        (getCommonPostDominator_keeps hcommon).2]
      simp [Bool.not_eq_false _ ▸ hold]

/-! ## Adding a predecessor -/

/-- A block without a post-dominator gets the one whose predecessor it is, and
    is entered at every block of that one's chain. -/
theorem addPredecessorAsPostDominated_first {blocks : Blocks ws} {h : Infos ws}
    {root this predecessor : BlockId} {cs : List BlockId}
    (hc : Rooted blocks h root this cs) (hnew : (info h predecessor).isPostDominated = false)
    (hmem : predecessor ∉ this :: cs) {fuel : Nat} (hfuel : cs.length < fuel) :
    ∃ h', addPredecessorAsPostDominated blocks fuel h this predecessor = some h'
      ∧ (∀ b, (info h' b).postDominator
        = if b = predecessor then some this else (info h b).postDominator)
      ∧ (∀ b, (info h' b).isPostDominated = if b = predecessor then true else (info h b).isPostDominated)
      ∧ ∀ b k, (info h' b).postDominated[k]?
        = if b ∈ this :: cs ∧ k = (blocks predecessor).startingAddress
          then some (some predecessor) else (info h b).postDominated[k]? := by
  generalize hh₁ : addImmediatePostDominator (setPostDominator h predecessor this) this
    (blocks predecessor).startingAddress predecessor = h₁
  have hkeeps : ∀ b, (info h₁ b).postDominator = (info (setPostDominator h predecessor this) b).postDominator
      ∧ (info h₁ b).isPostDominated = (info (setPostDominator h predecessor this) b).isPostDominated
      ∧ (info h₁ b).postDominated = (info (setPostDominator h predecessor this) b).postDominated :=
    fun b => hh₁ ▸ setImmediate_keeps _ _ _ _
  have hchain : Rooted blocks h₁ root this cs := by
    refine ⟨hc.1.congr fun x hx => ?_, hc.2⟩
    show (info h₁ x).postDominator = (info h x).postDominator
    rw [(hkeeps x).1, setPostDominator_of_ne h (ne_of_mem_of_not_mem hx hmem)]
  obtain ⟨h', hrun, hh'⟩ := passDownPostDominanceInfo_spec hchain predecessor hfuel
  have hfields : ∀ b, (info h' b).postDominator = (info h₁ b).postDominator
      ∧ (info h' b).isPostDominated = (info h₁ b).isPostDominated := by
    intro b
    rw [hh' b]
    split
    · exact ⟨rfl, rfl⟩
    · exact ⟨rfl, rfl⟩
  refine ⟨h', ?_, fun b => ?_, fun b => ?_, fun b k => ?_⟩
  · simp only [addPredecessorAsPostDominated, hnew, if_true, hh₁]
    exact hrun
  · rw [(hfields b).1, (hkeeps b).1]
    by_cases hb : b = predecessor
    · rw [if_pos hb, hb, setPostDominator_self]
    · rw [if_neg hb, setPostDominator_of_ne h hb]
  · rw [(hfields b).2, (hkeeps b).2.1]
    by_cases hb : b = predecessor
    · rw [if_pos hb, hb, setPostDominator_self]
    · rw [if_neg hb, setPostDominator_of_ne h hb]
  · have hmap : (info h₁ b).postDominated = (info h b).postDominated := by
      rw [(hkeeps b).2.2]
      by_cases hb : b = predecessor
      · rw [hb, setPostDominator_self]
      · rw [setPostDominator_of_ne h hb]
    rw [hh' b]
    by_cases hb : b ∈ this :: cs
    · rw [if_pos hb, hmap, PostDominanceInfo.withMap]
      by_cases hk : k = (blocks predecessor).startingAddress
      · rw [if_pos ⟨hb, hk⟩, hk]
        exact Std.ExtTreeMap.getElem?_insert_self
      · rw [if_neg fun hh => hk hh.2]
        exact getElem?_insert_of_ne _ hk _
    · rw [if_neg hb, if_neg fun hh => hb hh.1, hmap]

/-- A block that has a post-dominator gets the first block above the new one
    that is above it already; it and the blocks below it are erased from the
    maps in between. -/
theorem addPredecessorAsPostDominated_again {blocks : Blocks ws} {h : Infos ws}
    {root this predecessor p : BlockId} {cs ps : List BlockId}
    (hc : Rooted blocks h root this cs) (hp : Rooted blocks h root predecessor (p :: ps))
    (hold : (info h predecessor).isPostDominated = true)
    (hmaps : ∀ b, Holds h b (blocks predecessor).startingAddress ↔ b ∈ p :: ps)
    (hinj : ∀ b ∈ p :: ps, ∀ c ∈ p :: ps,
      (blocks b).startingAddress = (blocks c).startingAddress → b = c)
    {fuel : Nat} (hfuel : cs.length < fuel) (hfuel' : ps.length < fuel) :
    ∃ h' w seg rest pre post,
      addPredecessorAsPostDominated blocks fuel h this predecessor = some h'
      ∧ p :: ps = seg ++ w :: rest ∧ this :: cs = pre ++ w :: post
      ∧ (∀ b ∈ pre, b ∉ p :: ps)
      ∧ (∀ b, (info h' b).postDominator
        = if b = predecessor then some w else (info h b).postDominator)
      ∧ (∀ b, (info h' b).isPostDominated = (info h b).isPostDominated)
      ∧ (∀ b k, k ≠ (blocks predecessor).startingAddress → (info h' b).postDominated[k]?
        = if b ∈ seg ∧ k ∈ (info h predecessor).postDominated then none
          else (info h b).postDominated[k]?)
      ∧ ∀ b, Holds h' b (blocks predecessor).startingAddress
        ↔ Holds h b (blocks predecessor).startingAddress ∧ b ∉ seg := by
  obtain ⟨w, h₁, pre, post, hrun, hprobe, hsplit, hw, hpre⟩ :=
    getCommonPostDominator_spec hc predecessor hfuel
  have hwp : w ∈ p :: ps := by
    rcases hw with hw | rfl
    · exact (hmaps w).mp hw
    · exact hp.up.1.root_mem
  obtain ⟨seg, rest, hseg⟩ := List.append_of_mem hwp
  have hpp : (info h predecessor).postDominator = some p := by
    obtain ⟨hchain, -⟩ := hp
    cases hchain with
    | up _ hpp _ => exact hpp
  -- the probes and the first erasure touch one key and no parent
  generalize hh₂ : eraseImmediate h₁ this (blocks predecessor).startingAddress = h₂
  have hkeeps : ∀ b, (info h₂ b).postDominator = (info h b).postDominator
      ∧ (info h₂ b).isPostDominated = (info h b).isPostDominated
      ∧ (∀ k, k ≠ (blocks predecessor).startingAddress →
        (info h₂ b).postDominated[k]? = (info h b).postDominated[k]?)
      ∧ ∀ k, Holds h₂ b k ↔ Holds h b k := by
    intro b
    obtain ⟨h1, h2, h3⟩ := setImmediate_keeps h₁ this b
      ((info h₁ this).immediatelyPostDominated.erase (blocks predecessor).startingAddress)
    rw [← hh₂]
    refine ⟨h1.trans (hprobe.parents_eq b), h2.trans (hprobe.flag_eq b), fun k hk => ?_,
      fun k => ?_⟩
    · exact (congrArg (·[k]?) h3).trans (hprobe.other_key b k hk)
    · rw [Holds, eraseImmediate, h3]
      exact hprobe.holds_iff b k
  have hnodup : (seg ++ w :: rest).Nodup := hseg ▸ hp.up.1.nodup
  have hchain : Chain (parents h₂) root p ps := hp.up.1.congr fun x _ => (hkeeps x).1
  -- the walk stops at the starting address of `w`, which no block below it has
  have hstart : ∀ b ∈ seg, (blocks b).startingAddress ≠ (blocks w).startingAddress := by
    intro b hb heq
    have hbw : b = w := hinj b (hseg ▸ List.mem_append_left _ hb) w hwp heq
    exact List.disjoint_of_nodup_append hnodup hb (hbw ▸ List.mem_cons_self)
  have hlen : seg.length < fuel := by
    have hlen := congrArg List.length hseg
    rw [List.length_append, List.length_cons, List.length_cons] at hlen
    omega
  obtain ⟨h₃, hdel, hh₃⟩ := deleteDownPostDominanceInfo_spec hchain hseg hstart
    (info h₂ predecessor).postDominated (blocks predecessor).startingAddress hlen
  have hfields : ∀ b, (info h₃ b).postDominator = (info h b).postDominator
      ∧ (info h₃ b).isPostDominated = (info h b).isPostDominated := by
    intro b
    rw [hh₃ b]
    split
    · exact ⟨(hkeeps b).1, (hkeeps b).2.1⟩
    · exact ⟨(hkeeps b).1, (hkeeps b).2.1⟩
  have hlast : ∀ b, _ := fun b => setImmediate_keeps (setPostDominator h₃ predecessor w) w b
    ((info (setPostDominator h₃ predecessor w) w).immediatelyPostDominated.insert
      (blocks predecessor).startingAddress (some predecessor))
  have hmap : ∀ b, (info (setPostDominator h₃ predecessor w) b).postDominated
      = (info h₃ b).postDominated := by
    intro b
    by_cases hb : b = predecessor
    · rw [hb, setPostDominator_self]
    · rw [setPostDominator_of_ne h₃ hb]
  refine ⟨addImmediatePostDominator (setPostDominator h₃ predecessor w) w
    (blocks predecessor).startingAddress predecessor, w, seg, rest, pre, post, ?_, hseg, hsplit,
    fun b hb hbp => hpre b hb ((hmaps b).mpr hbp), fun b => ?_, fun b => ?_, fun b k hk => ?_,
    fun b => ?_⟩
  · simp only [addPredecessorAsPostDominated, hold, Bool.true_eq_false, if_false, hpp, hrun,
      Option.bind_eq_bind, Option.bind_some, hh₂, hdel]
  · refine (hlast b).1.trans ?_
    by_cases hb : b = predecessor
    · rw [if_pos hb, hb, setPostDominator_self]
    · rw [if_neg hb, setPostDominator_of_ne h₃ hb, (hfields b).1]
  · refine (hlast b).2.1.trans ?_
    by_cases hb : b = predecessor
    · rw [hb, setPostDominator_self, hold]
    · rw [setPostDominator_of_ne h₃ hb, (hfields b).2]
  · refine (congrArg (·[k]?) (hlast b).2.2).trans ?_
    rw [hmap, hh₃ b]
    by_cases hb : b ∈ seg
    · have hmem : k ∈ (info h₂ predecessor).postDominated
          ↔ k ∈ (info h predecessor).postDominated := by
        rw [Std.ExtTreeMap.mem_iff_isSome_getElem?, Std.ExtTreeMap.mem_iff_isSome_getElem?,
          (hkeeps predecessor).2.2.1 k hk]
      rw [if_pos hb, PostDominanceInfo.withMap]
      simp only [getElem?_eraseKeys, hk, false_or, hb, true_and, (hkeeps b).2.2.1 k hk, hmem]
    · rw [if_neg hb, if_neg fun hh => hb hh.1, (hkeeps b).2.2.1 k hk]
  · rw [Holds, addImmediatePostDominator, (hlast b).2.2, hmap, hh₃ b]
    by_cases hb : b ∈ seg
    · rw [if_pos hb, PostDominanceInfo.withMap, Std.ExtTreeMap.getD_eq_getD_getElem?,
        getElem?_eraseKeys, if_pos (Or.inl rfl)]
      simp [hb]
    · rw [if_neg hb]
      exact ((hkeeps b).2.2.2 _).trans (by simp [hb])

end DytanBasicBlock
