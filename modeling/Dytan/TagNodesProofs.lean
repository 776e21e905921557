import Dytan.PrunedTagsProofs

/-! # The tag lists as nodes

    `SetTaintForMemory` keeps the list of each tag in nodes, of which the last
    one has no record yet.  Both of its branches append: they fill that node and
    point it to a new one.  The clearing branch does so while it is walking the
    list, so what it walks over gets longer on the way.

    The loops take fuel, and return when there is enough of it.  On nodes they
    do what `tagTaint` and `tagClear` do on records, and they touch no other
    list, so a run of calls on nodes refines a run of calls on records.  Its
    lists are NULL-terminated, with at most a live record and a cleared one
    behind it for each address. -/

namespace DytanTagNodes

open DytanBitset DytanRegister DytanTaintState DytanMarkFlow DytanRegisterAlias DytanTagIndex
open DytanTagPruning DytanPrunedTags LinkedList Runs

variable {ws : WordSize} {N : Nat}

/-- The nodes, and the one `new memlist` returns next.  The fields of a new node
    are what the heap has there. -/
structure Nodes (ws : WordSize) where
  heap : MemHeap ws
  fresh : Nat

/-- The flags loop of the tainting branch.  It ends at the node that ends the
    list. -/
def flagLoop (h : MemHeap ws) (start size : Addr ws) :
    Nat → Nat → (Nat → Bool) → Option ((Nat → Bool) × Nat)
  | 0, _, _ => none
  | fuel + 1, elementToAdd, addrFlag =>
      match (h elementToAdd).next with
      | none => some (addrFlag, elementToAdd)
      | some next =>
          let i := toInt32 ((h elementToAdd).data.memAddress - start)
          flagLoop h start size fuel next
            (if 0 ≤ i ∧ i < toInt32 size then Function.update addrFlag i.toNat true else addrFlag)

/-- The body of the loop over the range. -/
def appendByte (addrFlag : Nat → Bool) (p : Nodes ws × Nat) (byte : Addr ws × Nat) : Nodes ws × Nat :=
  let (σ, elementToAdd) := p
  let (addr, i) := byte
  if addrFlag i then (σ, elementToAdd)
  else
    (⟨setNext (setData σ.heap elementToAdd ⟨addr, false⟩) elementToAdd (some σ.fresh), σ.fresh + 1⟩,
      σ.fresh)

/-- The tainting branch. -/
def taintList (start size : Addr ws) (fuel head : Nat) (σ : Nodes ws) : Option (Nodes ws) := do
  let (addrFlag, elementToAdd) ← flagLoop σ.heap start size fuel head fun _ => false
  let (σ, elementToAdd) :=
    (addrRange start size).zipIdx.foldl (appendByte addrFlag) (σ, elementToAdd)
  some { σ with heap := setNext σ.heap elementToAdd none }

/-- The inner loop of the clearing branch: the flag of the last record for the
    address, and the node that ends the list. -/
def lastFlagLoop (h : MemHeap ws) (elementToAdd : Nat) : Nat → Bool → Nat → Option (Bool × Nat)
  | 0, _, _ => none
  | fuel + 1, flag, element =>
      match (h element).next with
      | none => some (flag, element)
      | some element =>
          lastFlagLoop h elementToAdd fuel
            (if (h element).next ≠ none
                ∧ (h element).data.memAddress = (h elementToAdd).data.memAddress then
              (h element).data.isCleared
            else flag) element

/-- The body of the clearing branch. -/
def clearNode (start size : Addr ws) (fuel elementToAdd : Nat) (σ : Nodes ws) :
    Option (Nodes ws) :=
  let r := (σ.heap elementToAdd).data
  if start ≤ r.memAddress ∧ r.memAddress < start + size ∧ r.isCleared = false then do
    let (flag, element) ← lastFlagLoop σ.heap elementToAdd fuel r.isCleared elementToAdd
    if flag = false then
      some ⟨extend σ.heap element σ.fresh ⟨r.memAddress, true⟩, σ.fresh + 1⟩
    else some σ
  else some σ

/-- The clearing branch, from `elementToAdd` on. -/
def clearList (start size : Addr ws) : Nat → Nat → Nodes ws → Option (Nodes ws)
  | 0, _, _ => none
  | fuel + 1, elementToAdd, σ =>
      if (σ.heap elementToAdd).next = none then some σ
      else do
        let σ ← clearNode start size (fuel + 1) elementToAdd σ
        let next ← (σ.heap elementToAdd).next
        clearList start size fuel next σ

/-! ## Lists -/

variable {h : MemHeap ws} {σ σ' : Nodes ws} {p e f : Nat} {ps ps' : List Nat}
  {records : List (MemRecord ws)} {last r : MemRecord ws} {start size : Addr ws}

theorem dataOf_append (h : MemHeap ws) (xs ys : List Nat) :
    dataOf h (xs ++ ys) = dataOf h xs ++ dataOf h ys := List.map_append

theorem dataOf_congr {h' : MemHeap ws} (hsame : ∀ x ∈ ps, h' x = h x) : dataOf h' ps = dataOf h ps :=
  List.map_congr_left fun x hx => congrArg Node.data (hsame x hx)

/-- The list at `p` has these records, and its nodes are not new ones. -/
structure Owns (σ : Nodes ws) (p : Nat) (ps : List Nat) (records : List (MemRecord ws)) : Prop where
  list : ∃ last, IsTagList σ.heap p ps records last
  below : ∀ x ∈ p :: ps, x < σ.fresh

/-- A list is changed to one with other records: the nodes that are not its own
    stay, and it takes new ones only. -/
structure Updates (σ σ' : Nodes ws) (p : Nat) (ps ps' : List Nat) (records : List (MemRecord ws)) :
    Prop where
  owns : Owns σ' p ps' records
  fresh_le : σ.fresh ≤ σ'.fresh
  taken : ∀ x ∈ ps', x ∈ ps ∨ σ.fresh ≤ x
  frame : ∀ x, x ∉ p :: ps → x < σ.fresh → σ'.heap x = σ.heap x

/-- A list with its last node: the nodes before it hold the records. -/
theorem isTagList_split (hlist : IsTagList h p ps records last) :
    ∃ front e, p :: ps = front ++ [e] ∧ dataOf h front = records ∧ (h e).data = last
      ∧ (h e).next = none := by
  obtain ⟨front, e, hsplit⟩ := (List.eq_nil_or_concat' (p :: ps)).resolve_left (List.cons_ne_nil _ _)
  have hdata := hlist.data
  rw [hsplit, dataOf_append] at hdata
  obtain ⟨hfront, hlast⟩ := List.append_inj' hdata rfl
  have hlinks := hlist.links
  rw [hsplit, linksTo_append] at hlinks
  exact ⟨front, e, hsplit, hfront, (List.cons.inj hlast).1, hlinks.2.1⟩

/-- The node that ends a list is filled, and a new one ends it. -/
theorem isTagList_extend (hlist : IsTagList h p ps records last)
    (he : (p :: ps).getLast? = some e) (hf : f ∉ p :: ps) (r : MemRecord ws) :
    IsTagList (extend h e f r) p (ps ++ [f]) (records ++ [r]) (h f).data := by
  obtain ⟨front, e', hsplit, hfront, -, -⟩ := isTagList_split hlist
  rw [hsplit, List.getLast?_concat] at he
  obtain rfl := Option.some.inj he
  have hlinks := hlist.links
  have hnodup := hlist.nodup
  rw [hsplit] at hlinks hnodup hf
  obtain ⟨hl, hn⟩ := hlinks.extend hnodup hf r
  have hall : p :: (ps ++ [f]) = front ++ [e', f] := by
    rw [← List.cons_append, hsplit, List.append_assoc]
    rfl
  have hef : e' ≠ f := fun heq => hf (heq ▸ List.mem_append_right front List.mem_cons_self)
  have hsame : ∀ x ∈ front, extend h e' f r x = h x := fun x hx =>
    extend_of_ne h (fun heq => (List.nodup_append.mp hnodup).2.2 x hx e' List.mem_cons_self heq)
      (fun heq : x = f => hf (heq ▸ List.mem_append_left _ hx)) r
  refine ⟨hall ▸ hl, hall ▸ hn, ?_⟩
  rw [hall, dataOf_append, dataOf_congr hsame, hfront, List.append_assoc]
  show records ++ [(extend h e' f r e').data, (extend h e' f r f).data] = _
  rw [extend_end h hef, extend_new h hef]
  rfl

theorem Updates.refl (h : Owns σ p ps records) : Updates σ σ p ps ps records where
  owns := h
  fresh_le := Nat.le_refl _
  taken := fun _ hx => Or.inl hx
  frame := fun _ _ _ => rfl

theorem Updates.trans {σ₁ : Nodes ws} {ps₁ : List Nat} {records₁ : List (MemRecord ws)}
    (h₁ : Updates σ σ₁ p ps ps₁ records₁) (h₂ : Updates σ₁ σ' p ps₁ ps' records) :
    Updates σ σ' p ps ps' records where
  owns := h₂.owns
  fresh_le := h₁.fresh_le.trans h₂.fresh_le
  taken := by
    intro x hx
    rcases h₂.taken x hx with hx | hx
    · exact h₁.taken x hx
    · exact Or.inr (h₁.fresh_le.trans hx)
  frame := by
    intro x hx hlt
    -- no node of the list in between either: those it took were new ones
    have hx₁ : x ∉ p :: ps₁ := by
      intro hmem
      rcases List.mem_cons.mp hmem with rfl | hmem
      · exact hx List.mem_cons_self
      · rcases h₁.taken x hmem with hmem | hle
        · exact hx (List.mem_cons_of_mem p hmem)
        · omega
    rw [h₂.frame x hx₁ (Nat.lt_of_lt_of_le hlt h₁.fresh_le), h₁.frame x hx hlt]

/-- The node that ends a list is filled, and a new one ends it. -/
theorem Owns.extend (h : Owns σ p ps records) (he : (p :: ps).getLast? = some e) (r : MemRecord ws) :
    Updates σ ⟨LinkedList.extend σ.heap e σ.fresh r, σ.fresh + 1⟩ p ps (ps ++ [σ.fresh])
      (records ++ [r]) := by
  obtain ⟨⟨last, hlist⟩, hbelow⟩ := h
  have hnew : σ.fresh ∉ p :: ps := fun hmem => Nat.lt_irrefl _ (hbelow _ hmem)
  refine ⟨⟨⟨_, isTagList_extend hlist he hnew r⟩, fun x hx => ?_⟩, Nat.le_succ _, fun x hx => ?_,
    fun x hx hlt => ?_⟩
  · rw [← List.cons_append] at hx
    rcases List.mem_append.mp hx with hx | hx
    · exact Nat.lt_succ_of_lt (hbelow x hx)
    · rw [List.mem_singleton.mp hx]
      exact Nat.lt_succ_self _
  · rcases List.mem_append.mp hx with hx | hx
    · exact Or.inl hx
    · exact Or.inr (Nat.le_of_eq (List.mem_singleton.mp hx).symm)
  · have hxe : x ≠ e := fun heq => hx (heq ▸ List.mem_of_mem_getLast? he)
    exact extend_of_ne σ.heap hxe (Nat.ne_of_lt hlt) r

/-- The list behind the first node. -/
theorem Owns.tail {next : Nat} (h : Owns σ p (next :: ps) (r :: records)) :
    Owns σ next ps records := by
  obtain ⟨⟨last, hlist⟩, hbelow⟩ := h
  refine ⟨⟨last, hlist.links.2, (List.nodup_cons.mp hlist.nodup).2, ?_⟩, fun x hx =>
    hbelow x (List.mem_cons_of_mem p hx)⟩
  exact (List.cons.inj hlist.data).2

/-- What is changed behind the first node. -/
theorem Updates.cons {next : Nat} {records' : List (MemRecord ws)}
    (h : Owns σ p (next :: ps) (r :: records)) (hup : Updates σ σ' next ps ps' records') :
    Updates σ σ' p (next :: ps) (next :: ps') (r :: records') := by
  obtain ⟨⟨last, hlist⟩, hbelow⟩ := h
  obtain ⟨⟨last', hlist'⟩, hbelow'⟩ := hup.owns
  have hp : p ∉ next :: ps := (List.nodup_cons.mp hlist.nodup).1
  have hlt : p < σ.fresh := hbelow p List.mem_cons_self
  have hsame : σ'.heap p = σ.heap p := hup.frame p hp hlt
  have hp' : p ∉ next :: ps' := by
    intro hmem
    rcases List.mem_cons.mp hmem with rfl | hmem
    · exact hp List.mem_cons_self
    · rcases hup.taken p hmem with hmem | hle
      · exact hp (List.mem_cons_of_mem next hmem)
      · omega
  refine ⟨⟨⟨last', ⟨?_, hlist'.links⟩, List.nodup_cons.mpr ⟨hp', hlist'.nodup⟩, ?_⟩, ?_⟩,
    hup.fresh_le, ?_, fun x hx => hup.frame x fun hmem => hx (List.mem_cons_of_mem p hmem)⟩
  · rw [hsame]
    exact hlist.links.1
  · show (σ'.heap p).data :: dataOf σ'.heap (next :: ps') = _
    rw [hlist'.data, hsame]
    exact congrArg (· :: _) (List.cons.inj hlist.data).1
  · exact List.forall_mem_cons.mpr ⟨Nat.lt_of_lt_of_le hlt hup.fresh_le, hbelow'⟩
  · intro x hx
    rcases List.mem_cons.mp hx with rfl | hx
    · exact Or.inl List.mem_cons_self
    · exact (hup.taken x hx).imp_left (List.mem_cons_of_mem next)

/-! ## The tainting branch on nodes -/

theorem flagged_cons (start size : Addr ws) (r : MemRecord ws) (rest : List (MemRecord ws)) (i : Nat) :
    flagged start size (r :: rest) i
      = (decide (0 ≤ toInt32 (r.memAddress - start)
          ∧ toInt32 (r.memAddress - start) < toInt32 size
          ∧ toInt32 (r.memAddress - start) = i) || flagged start size rest i) := rfl

/-- **The flags loop** flags what the records say, and ends at the last node. -/
theorem flagLoop_spec (hl : LinksTo h none (p :: ps)) (addrFlag : Nat → Bool) :
    ∃ addrFlag' e,
      (∀ fuel, ps.length < fuel → flagLoop h start size fuel p addrFlag = some (addrFlag', e))
      ∧ (p :: ps).getLast? = some e
      ∧ ∀ i, addrFlag' i = (addrFlag i || flagged start size (dataOf h (p :: ps).dropLast) i) := by
  induction ps generalizing p addrFlag with
  | nil =>
      refine ⟨addrFlag, p, fun fuel hf => ?_, rfl, fun i => (Bool.or_false _).symm⟩
      obtain ⟨fuel, rfl⟩ := Nat.exists_eq_succ_of_ne_zero (Nat.ne_of_gt hf)
      rw [flagLoop, show (h p).next = none from hl.1]
  | cons next ps ih =>
      obtain ⟨addrFlag', e, hrun, he, hflags⟩ := ih hl.2
        (if 0 ≤ toInt32 ((h p).data.memAddress - start)
            ∧ toInt32 ((h p).data.memAddress - start) < toInt32 size then
          Function.update addrFlag (toInt32 ((h p).data.memAddress - start)).toNat true else addrFlag)
      refine ⟨addrFlag', e, fun fuel hf => ?_, by rw [List.getLast?_cons_cons]; exact he, fun i => ?_⟩
      · obtain ⟨fuel, rfl⟩ := Nat.exists_eq_succ_of_ne_zero (Nat.ne_of_gt (Nat.zero_lt_of_lt hf))
        rw [flagLoop, show (h p).next = some next from hl.1]
        exact hrun fuel (Nat.lt_of_succ_lt_succ hf)
      · have hdata : dataOf h (p :: next :: ps).dropLast
            = (h p).data :: dataOf h (next :: ps).dropLast := rfl
        rw [hflags, hdata, flagged_cons, ← Bool.or_assoc]
        refine congrArg (· || flagged start size (dataOf h (next :: ps).dropLast) i) ?_
        -- the entry at `i` is set here exactly when the record lies at offset `i`
        generalize toInt32 ((h p).data.memAddress - start) = offset
        by_cases hin : 0 ≤ offset ∧ offset < toInt32 size
        · rw [if_pos hin]
          by_cases hi : offset = i
          · have hnat : offset.toNat = i := by omega
            rw [hnat, Function.update_self, decide_eq_true ⟨hin.1, hin.2, hi⟩, Bool.or_true]
          · have hnat : i ≠ offset.toNat := by omega
            rw [Function.update_of_ne hnat, decide_eq_false fun hc => hi hc.2.2, Bool.or_false]
        · rw [if_neg hin, decide_eq_false fun hc => hin ⟨hc.1, hc.2.1⟩, Bool.or_false]

/-- The list as it would be if the loop over the range stopped here. -/
def closed (σ : Nodes ws) (e : Nat) : Nodes ws := { σ with heap := setNext σ.heap e none }

/-- **The loop over the range** appends a record for each byte that is not
    flagged. -/
theorem appendBytes_spec (addrFlag : Nat → Bool) (bytes : List (Addr ws × Nat))
    (h : Owns (closed σ e) p ps records) (he : (p :: ps).getLast? = some e) :
    ∃ σ' e' ps', bytes.foldl (appendByte addrFlag) (σ, e) = (σ', e')
      ∧ Updates (closed σ e) (closed σ' e') p ps ps'
        (records ++ (bytes.filter fun b => !addrFlag b.2).map fun b => ⟨b.1, false⟩) := by
  induction bytes generalizing σ e ps records with
  | nil =>
      refine ⟨σ, e, ps, rfl, ?_⟩
      rw [List.filter_nil, List.map_nil, List.append_nil]
      exact .refl h
  | cons byte rest ih =>
      obtain ⟨addr, i⟩ := byte
      by_cases hflag : addrFlag i = true
      · -- skipped
        have hskip : appendByte addrFlag (σ, e) (addr, i) = (σ, e) := if_pos hflag
        obtain ⟨σ', e', ps', hrun, hup⟩ := ih h he
        refine ⟨σ', e', ps', ?_, ?_⟩
        · rw [List.foldl_cons, hskip, hrun]
        · rw [List.filter_cons_of_neg (by simp [hflag])]
          exact hup
      · have hstep : appendByte addrFlag (σ, e) (addr, i)
            = (⟨setNext (setData σ.heap e ⟨addr, false⟩) e (some σ.fresh), σ.fresh + 1⟩, σ.fresh) :=
          if_neg hflag
        -- closed, the list after the step is the extended one
        have hclosed : closed ⟨setNext (setData σ.heap e ⟨addr, false⟩) e (some σ.fresh),
              σ.fresh + 1⟩ σ.fresh
            = ⟨extend (closed σ e).heap e (closed σ e).fresh ⟨addr, false⟩, (closed σ e).fresh + 1⟩ := by
          rw [closed, closed, extend_setNext]
          rfl
        have hup₁ := h.extend he ⟨addr, false⟩
        rw [← hclosed] at hup₁
        have he₁ : (p :: (ps ++ [σ.fresh])).getLast? = some σ.fresh := by
          rw [← List.cons_append, List.getLast?_concat]
        obtain ⟨σ', e', ps', hrun, hup⟩ := ih hup₁.owns he₁
        refine ⟨σ', e', ps', ?_, hup₁.trans ?_⟩
        · rw [List.foldl_cons, hstep, hrun]
        · rw [List.filter_cons_of_pos (by simp [hflag]), List.map_cons]
          rw [List.append_assoc, List.singleton_append] at hup
          exact hup

/-- The records of a list are the data of the nodes before the last one. -/
theorem dataOf_dropLast (hlist : IsTagList h p ps records last) :
    dataOf h (p :: ps).dropLast = records := by
  obtain ⟨front, e, hsplit, hfront, -, -⟩ := isTagList_split hlist
  rw [hsplit, List.dropLast_concat, hfront]

/-- As many nodes behind the first one as records. -/
theorem length_eq_records (hlist : IsTagList h p ps records last) : ps.length = records.length := by
  have hlen := congrArg List.length hlist.data
  rw [dataOf, List.length_map, List.length_append, List.length_cons] at hlen
  exact Nat.succ.inj hlen

/-- **The tainting branch** does on nodes what `tagTaint` does on records. -/
theorem taintList_spec (h : Owns σ p ps records) (start size : Addr ws) :
    ∃ σ' ps', (∀ fuel, records.length < fuel → taintList start size fuel p σ = some σ')
      ∧ Updates σ σ' p ps ps' (tagTaint start size records) := by
  obtain ⟨last, hlist⟩ := h.list
  obtain ⟨addrFlag, e, hloop, he, hflags⟩ :
      ∃ addrFlag e, (∀ fuel, ps.length < fuel →
          flagLoop σ.heap start size fuel p (fun _ => false) = some (addrFlag, e)) ∧ _ ∧ _ :=
    flagLoop_spec hlist.links fun _ => false
  -- the loop ends where the list does
  have hnext : (σ.heap e).next = none := by
    obtain ⟨front, e', hsplit, -, -, hnext⟩ := isTagList_split hlist
    rw [hsplit, List.getLast?_concat] at he
    obtain rfl := Option.some.inj he
    exact hnext
  have hclosed : closed σ e = σ := by
    rw [closed, setNext_eq_self hnext]
  have hopen : Owns (closed σ e) p ps records := by
    rw [hclosed]
    exact h
  obtain ⟨σ', e', ps', hrun, hup⟩ :=
    appendBytes_spec addrFlag (addrRange start size).zipIdx hopen he
  refine ⟨closed σ' e', ps', fun fuel hf => ?_, ?_⟩
  · rw [taintList, hloop fuel (by rw [length_eq_records hlist]; exact hf)]
    show some (closed ((addrRange start size).zipIdx.foldl (appendByte addrFlag) (σ, e)).1
      ((addrRange start size).zipIdx.foldl (appendByte addrFlag) (σ, e)).2) = _
    rw [hrun]
  · have hflagged : ∀ i, addrFlag i = flagged start size records i := fun i => by
      rw [hflags, dataOf_dropLast hlist, Bool.false_or]
    rw [hclosed, funext hflagged] at hup
    exact hup

/-! ## The clearing branch on nodes -/

/-- The flag of the last of some records for an address. -/
def flagOfLast (addr : Addr ws) (flag : Bool) (records : List (MemRecord ws)) : Bool :=
  (((records.filter fun e => e.memAddress = addr).getLast?).map MemRecord.isCleared).getD flag

theorem flagOfLast_cons (addr : Addr ws) (flag : Bool) (r : MemRecord ws) (rest : List (MemRecord ws)) :
    flagOfLast addr flag (r :: rest)
      = flagOfLast addr (if r.memAddress = addr then r.isCleared else flag) rest := by
  rw [flagOfLast, flagOfLast]
  by_cases hr : r.memAddress = addr
  · rw [List.filter_cons_of_pos (by simpa using hr), if_pos hr, List.getLast?_cons]
    cases (rest.filter fun e => e.memAddress = addr).getLast? with
    | none => rfl
    | some e => rfl
  · rw [List.filter_cons_of_neg (by simpa using hr), if_neg hr]

/-- **The inner loop** looks at the records behind the current one. -/
theorem lastFlagLoop_spec (elementToAdd : Nat) (hl : LinksTo h none (p :: ps))
    (he : (p :: ps).getLast? = some e) {fuel : Nat} (hf : ps.length < fuel) (flag : Bool) :
    lastFlagLoop h elementToAdd fuel flag p
      = some (flagOfLast (h elementToAdd).data.memAddress flag (dataOf h ps.dropLast), e) := by
  induction ps generalizing p fuel flag with
  | nil =>
      obtain ⟨fuel, rfl⟩ := Nat.exists_eq_succ_of_ne_zero (Nat.ne_of_gt hf)
      cases he
      rw [lastFlagLoop, show (h p).next = none from hl.1]
      rfl
  | cons next ps ih =>
      obtain ⟨fuel, rfl⟩ := Nat.exists_eq_succ_of_ne_zero (Nat.ne_of_gt (Nat.zero_lt_of_lt hf))
      rw [List.getLast?_cons_cons] at he
      have hrun := ih hl.2 he (Nat.lt_of_succ_lt_succ hf)
        (if (h next).next ≠ none ∧ (h next).data.memAddress = (h elementToAdd).data.memAddress then
          (h next).data.isCleared else flag)
      rw [lastFlagLoop, show (h p).next = some next from hl.1]
      refine hrun.trans (congrArg (fun f => some (f, e)) ?_)
      cases ps with
      | nil =>
          -- the node that ends the list has no record
          rw [if_neg fun hc => hc.1 hl.2.1]
          rfl
      | cons next' ps =>
          have hnext : (h next).next ≠ none := by
            rw [show (h next).next = some next' from hl.2.1]
            exact Option.some_ne_none next'
          have hdata : dataOf h (next :: next' :: ps).dropLast
              = (h next).data :: dataOf h (next' :: ps).dropLast := rfl
          rw [hdata, flagOfLast_cons]
          refine congrArg (flagOfLast _ · _) ?_
          by_cases haddr : (h next).data.memAddress = (h elementToAdd).data.memAddress
          · rw [if_pos ⟨hnext, haddr⟩, if_pos haddr]
          · rw [if_neg fun hc => haddr hc.2, if_neg haddr]

/-- The current record is a live one of the range, and the last one for its
    address. -/
def Clears (start size : Addr ws) (r : MemRecord ws) (rest : List (MemRecord ws)) : Prop :=
  (start ≤ r.memAddress ∧ r.memAddress < start + size ∧ r.isCleared = false)
    ∧ lastFlag r rest = false

/-- The first record of a list. -/
theorem Owns.head (h : Owns σ p ps (r :: records)) :
    (σ.heap p).data = r ∧ ∃ next rest, ps = next :: rest ∧ (σ.heap p).next = some next
      ∧ dataOf σ.heap ps.dropLast = records := by
  obtain ⟨last, hlist⟩ := h.list
  have hlen := length_eq_records hlist
  cases ps with
  | nil => exact nomatch hlen
  | cons next rest =>
      refine ⟨(List.cons.inj hlist.data).1, next, rest, rfl, hlist.links.1, ?_⟩
      exact (List.cons.inj (dataOf_dropLast hlist)).2

/-- One node of the clearing branch. -/
theorem clearNode_spec (h : Owns σ p ps (r :: records)) (start size : Addr ws) :
    ∃ σ' ps', (∀ fuel, records.length + 1 < fuel → clearNode start size fuel p σ = some σ')
      ∧ (Clears start size r records → Updates σ σ' p ps ps' (r :: records ++ [⟨r.memAddress, true⟩]))
      ∧ (¬ Clears start size r records → Updates σ σ' p ps ps' (r :: records)) := by
  obtain ⟨hdata, next, rest, hps, -, hrecords⟩ := h.head
  obtain ⟨last, hlist⟩ := h.list
  obtain ⟨front, e, hsplit, -, -, -⟩ := isTagList_split hlist
  have he : (p :: ps).getLast? = some e := by rw [hsplit, List.getLast?_concat]
  have hloop : ∀ fuel, records.length + 1 < fuel →
      lastFlagLoop σ.heap p fuel r.isCleared p = some (lastFlag r records, e) := by
    intro fuel hf
    rw [lastFlagLoop_spec p hlist.links he (by rw [length_eq_records hlist]; exact hf), hdata,
      hrecords]
    rfl
  by_cases hc : Clears start size r records
  · refine ⟨_, _, fun fuel hf => ?_, fun _ => h.extend he ⟨r.memAddress, true⟩,
      fun hn => absurd hc hn⟩
    rw [clearNode, hdata, if_pos hc.1, hloop fuel hf]
    exact if_pos hc.2
  · refine ⟨σ, ps, fun fuel hf => ?_, fun hyes => absurd hyes hc, fun _ => .refl h⟩
    rw [clearNode, hdata]
    by_cases hrange : start ≤ r.memAddress ∧ r.memAddress < start + size ∧ r.isCleared = false
    · rw [if_pos hrange, hloop fuel hf]
      exact if_neg fun hlast => hc ⟨hrange, hlast⟩
    · rw [if_neg hrange]

theorem liveAt_cons {a : Addr ws} (h : LiveAt records a) (r : MemRecord ws) :
    LiveAt (r :: records) a := by
  obtain ⟨r', hr', hc⟩ := h
  refine ⟨r', ?_, hc⟩
  rw [lastRecord_cons, hr', Option.some_or]

/-- A cleared record ends the life of its address, and of no other. -/
theorem liveAt_append_cleared {a b : Addr ws} :
    LiveAt (records ++ [⟨b, true⟩]) a ↔ b ≠ a ∧ LiveAt records a := by
  rw [LiveAt, lastRecord_append, lastRecord_singleton]
  by_cases hb : b = a
  · rw [if_pos hb, Option.some_or]
    refine iff_of_false ?_ fun h => h.1 hb
    rintro ⟨r, hr, hc⟩
    cases hr
    exact Bool.noConfusion hc
  · rw [if_neg hb, Option.none_or]
    exact (and_iff_right hb).symm

/-- What the clearing branch appends: cleared records, at most one for an
    address, and none for an address that is not live. -/
theorem tagClear_eq_append (start size : Addr ws) (records : List (MemRecord ws)) :
    ∃ new, tagClear start size records = records ++ new ∧ (∀ r ∈ new, r.isCleared = true)
      ∧ ∀ a, (recordsAt new a).length ≤ 1 ∧ (¬ LiveAt records a → recordsAt new a = []) := by
  induction records using tagClear.induct start size with
  | case1 =>
      refine ⟨[], by rw [tagClear]; rfl, fun r hr => ?_, fun a => ⟨Nat.zero_le 1, fun _ => rfl⟩⟩
      cases hr
  | case2 r rest hc ih =>
      obtain ⟨new, hnew, hcleared, honce⟩ := ih
      refine ⟨⟨r.memAddress, true⟩ :: new, ?_, List.forall_mem_cons.mpr ⟨rfl, hcleared⟩, fun a => ?_⟩
      · rw [tagClear, if_pos hc, hnew, List.append_assoc]
        rfl
      · obtain ⟨hone, hnone⟩ := honce a
        rw [recordsAt_cons]
        by_cases ha : r.memAddress = a
        · -- the address is not live behind its cleared record
          rw [if_pos ha, hnone fun hlive => (liveAt_append_cleared.mp hlive).1 ha]
          refine ⟨Nat.le_refl 1, fun hdead => absurd ?_ hdead⟩
          have hflag := hc.2
          rw [lastFlag_eq, ha] at hflag
          rw [LiveAt, lastRecord_cons, if_pos ha]
          cases hlast : lastRecord rest a with
          | none => exact ⟨r, rfl, hc.1.2.2⟩
          | some r' =>
              rw [hlast] at hflag
              exact ⟨r', rfl, hflag⟩
        · rw [if_neg ha]
          exact ⟨hone, fun hdead => hnone fun hlive =>
            hdead (liveAt_cons (liveAt_append_cleared.mp hlive).2 r)⟩
  | case3 r rest hc ih =>
      obtain ⟨new, hnew, hcleared, honce⟩ := ih
      refine ⟨new, ?_, hcleared, fun a => ⟨(honce a).1, fun hdead => (honce a).2 fun hlive =>
        hdead (liveAt_cons hlive r)⟩⟩
      rw [tagClear, if_neg hc, hnew]
      rfl

theorem length_le_tagClear (start size : Addr ws) (records : List (MemRecord ws)) :
    records.length ≤ (tagClear start size records).length := by
  obtain ⟨new, hnew, -⟩ := tagClear_eq_append start size records
  rw [hnew, List.length_append]
  exact Nat.le_add_right _ _

/-- The walk goes on behind a node that is done. -/
theorem clearList_step {σ₁ : Nodes ws} {ps₁ : List Nat} {rest final : List (MemRecord ws)} {n : Nat}
    (h : Owns σ p ps (r :: records))
    (hnode : ∀ fuel, n < fuel → clearNode start size (fuel + 1) p σ = some σ₁)
    (hup : Updates σ σ₁ p ps ps₁ (r :: rest))
    (hrest : ∀ {next ps}, Owns σ₁ next ps rest →
      ∃ σ' ps', (∀ fuel, n < fuel → clearList start size fuel next σ₁ = some σ')
        ∧ Updates σ₁ σ' next ps ps' final) :
    ∃ σ' ps', (∀ fuel, n + 1 < fuel → clearList start size fuel p σ = some σ')
      ∧ Updates σ σ' p ps ps' (r :: final) := by
  obtain ⟨-, next₀, -, -, hnext₀, -⟩ := h.head
  obtain ⟨-, next, tail, rfl, hnext, -⟩ := hup.owns.head
  obtain ⟨σ', ps', hrun, hup'⟩ := hrest hup.owns.tail
  refine ⟨σ', next :: ps', fun fuel hf => ?_, hup.trans (hup'.cons hup.owns)⟩
  obtain ⟨fuel, rfl⟩ := Nat.exists_eq_succ_of_ne_zero (Nat.ne_of_gt (Nat.zero_lt_of_lt hf))
  have hn : n < fuel := Nat.lt_of_succ_lt_succ hf
  rw [clearList]
  rw [if_neg (by rw [hnext₀]; exact Option.some_ne_none next₀), hnode fuel hn, Option.bind_eq_bind,
    Option.bind_some, hnext]
  exact hrun fuel hn

/-- **The clearing branch** returns, and does on nodes what `tagClear` does on
    records, though the list gets longer while it walks. -/
theorem clearList_spec (start size : Addr ws) (records : List (MemRecord ws)) :
    ∀ {σ : Nodes ws} {p : Nat} {ps : List Nat}, Owns σ p ps records →
      ∃ σ' ps', (∀ fuel, (tagClear start size records).length < fuel →
          clearList start size fuel p σ = some σ')
        ∧ Updates σ σ' p ps ps' (tagClear start size records) := by
  induction records using tagClear.induct start size with
  | case1 =>
      intro σ p ps h
      obtain ⟨last, hlist⟩ := h.list
      obtain rfl := List.length_eq_zero_iff.mp (length_eq_records hlist)
      rw [tagClear]
      refine ⟨σ, [], fun fuel hf => ?_, .refl h⟩
      obtain ⟨fuel, rfl⟩ := Nat.exists_eq_succ_of_ne_zero (Nat.ne_of_gt (Nat.zero_lt_of_lt hf))
      exact if_pos hlist.links.1
  | case2 r rest hc ih =>
      intro σ p ps h
      have hlen := length_le_tagClear start size (rest ++ [⟨r.memAddress, true⟩])
      rw [List.length_append] at hlen
      rw [tagClear, if_pos hc]
      obtain ⟨σ₁, ps₁, hnode, hclears, -⟩ := clearNode_spec h start size
      exact clearList_step h (fun fuel hf => hnode (fuel + 1) (by omega)) (hclears hc) ih
  | case3 r rest hc ih =>
      intro σ p ps h
      have hlen := length_le_tagClear start size rest
      rw [tagClear, if_neg hc]
      obtain ⟨σ₁, ps₁, hnode, -, hkeeps⟩ := clearNode_spec h start size
      exact clearList_step h (fun fuel hf => hnode (fuel + 1) (by omega)) (hkeeps hc) ih

/-! ## The lists of all tags -/

/-- `tagMemoryMap`, which has the list of tag `t` at `t`, and the nodes. -/
structure TagStore (ws : WordSize) where
  nodes : Nodes ws
  tagMemoryMap : List Nat
  isInitialized : Bool

/-- The store before the first call, on any heap. -/
def TagStore.initial (heap : MemHeap ws) (fresh : Nat) : TagStore ws := ⟨⟨heap, fresh⟩, [], false⟩

/-- A new list. -/
def addList (s : TagStore ws) : TagStore ws :=
  { s with
    nodes := ⟨setNext s.nodes.heap s.nodes.fresh none, s.nodes.fresh + 1⟩
    tagMemoryMap := s.tagMemoryMap ++ [s.nodes.fresh] }

/-- The store before the loop: on the first call one new list per mark. -/
def initLists (N : Nat) (s : TagStore ws) : TagStore ws :=
  if s.isInitialized then s
  else { (List.range N).foldl (fun s _ => addList s) s with isInitialized := true }

/-- One turn of the loop over `tagMemoryMap`. -/
def updateList (start size : Addr ws) (tmp : Bitset ws.bits) (fuel : Nat) (σ : Nodes ws)
    (entry : Nat × Nat) : Option (Nodes ws) := do
  let tainted ← bitsetTestBit tmp entry.2
  if tainted then taintList start size fuel entry.1 σ else clearList start size fuel entry.1 σ

/-- The state a call finds. -/
def withControl (c : TagCall ws N) (a : TaintState ws N) : TaintState ws N :=
  { a with controlTaintMap := c.control }

/-- What `SetTaintForMemory` does to the lists.  The set it computes depends on
    its arguments and on the control taint. -/
def updateLists (c : TagCall ws N) (fuel : Nat) (s : TagStore ws) : Option (TagStore ws) := do
  let tmp ← assignedTaint c.args (withControl c (.init ws N))
  let s := initLists N s
  let nodes ← s.tagMemoryMap.zipIdx.foldlM (updateList c.start c.size tmp fuel) s.nodes
  some { s with nodes := nodes }

/-- With enough fuel the result is this one. -/
def Returns {α : Type*} (f : Nat → Option α) (result : α) : Prop :=
  ∃ enough, ∀ fuel, enough ≤ fuel → f fuel = some result

theorem Returns.unique {α : Type*} {f : Nat → Option α} {x y : α} (hx : Returns f x)
    (hy : Returns f y) : x = y := by
  obtain ⟨n, hn⟩ := hx
  obtain ⟨m, hm⟩ := hy
  exact Option.some.inj ((hn _ (Nat.le_max_left n m)).symm.trans (hm _ (Nat.le_max_right n m)))

/-- The lists at these nodes have these records, and share no node. -/
structure Holds (heads : List Nat) (σ : Nodes ws) (tails : Nat → List Nat)
    (records : Nat → List (MemRecord ws)) : Prop where
  owns : ∀ t p, heads[t]? = some p → Owns σ p (tails t) (records t)
  apart : ∀ t u p q, t ≠ u → heads[t]? = some p → heads[u]? = some q →
    ∀ x ∈ p :: tails t, x ∉ q :: tails u

variable {heads : List Nat} {tails : Nat → List Nat} {lists : Nat → List (MemRecord ws)} {t : Nat}

theorem Owns.frame (h : Owns σ p ps records) (hsame : ∀ x ∈ p :: ps, σ'.heap x = σ.heap x)
    (hle : σ.fresh ≤ σ'.fresh) : Owns σ' p ps records := by
  obtain ⟨⟨last, hlist⟩, hbelow⟩ := h
  refine ⟨⟨last, ?_, hlist.nodup, ?_⟩, fun x hx => Nat.lt_of_lt_of_le (hbelow x hx) hle⟩
  · exact hlist.links.congr fun x hx => by rw [hsame x hx]
  · rw [dataOf_congr hsame]
    exact hlist.data

/-- **One list is changed**, the others stay. -/
theorem Holds.update (h : Holds heads σ tails lists) (hp : heads[t]? = some p)
    (hup : Updates σ σ' p (tails t) ps' records) :
    Holds heads σ' (Function.update tails t ps') (Function.update lists t records) := by
  -- the nodes it has now are its own or new ones
  have hown : ∀ u q, u ≠ t → heads[u]? = some q → ∀ x ∈ p :: ps', x ∉ q :: tails u := by
    intro u q hu hq x hx hmem
    have hold : x ∈ p :: tails t ∨ σ.fresh ≤ x := by
      rcases List.mem_cons.mp hx with rfl | hx
      · exact Or.inl List.mem_cons_self
      · exact (hup.taken x hx).imp_left (List.mem_cons_of_mem p)
    rcases hold with hold | hle
    · exact h.apart t u p q hu.symm hp hq x hold hmem
    · exact absurd ((h.owns u q hq).below x hmem) (Nat.not_lt.mpr hle)
  refine ⟨fun u q hq => ?_, fun u v q q' huv hq hq' => ?_⟩
  · by_cases hu : u = t
    · subst hu
      rw [hp] at hq
      cases hq
      rw [Function.update_self, Function.update_self]
      exact hup.owns
    · rw [Function.update_of_ne hu, Function.update_of_ne hu]
      refine (h.owns u q hq).frame (fun x hx => ?_) hup.fresh_le
      refine hup.frame x (fun hmem => h.apart t u p q (Ne.symm hu) hp hq x hmem hx) ?_
      exact (h.owns u q hq).below x hx
  · by_cases hu : u = t
    · subst hu
      rw [hp] at hq
      cases hq
      rw [Function.update_self, Function.update_of_ne huv.symm]
      exact hown v q' huv.symm hq'
    · rw [Function.update_of_ne hu]
      by_cases hv : v = t
      · subst hv
        rw [hp] at hq'
        cases hq'
        rw [Function.update_self]
        exact fun x hx hmem => hown u q hu hq x hmem hx
      · rw [Function.update_of_ne hv]
        exact h.apart u v q q' huv hq hq'

/-- One turn of the loop. -/
theorem updateList_spec (start size : Addr ws) (h : Holds heads σ tails lists)
    {tmp : Bitset ws.bits} (htmp : Sized N tmp) (hp : heads[t]? = some p) (ht : t < N) :
    ∃ σ' tails', (∀ fuel, (tagClear start size (lists t)).length < fuel →
        updateList start size tmp fuel σ (p, t) = some σ')
      ∧ Holds heads σ' tails' (Function.update lists t (updatedTag start size tmp t (lists t))) := by
  have htest : bitsetTestBit tmp t = some (holdsBit tmp t) :=
    if_pos (by rw [htmp.nbits]; exact ht)
  rw [updatedTag]
  by_cases hbit : holdsBit tmp t = true
  · obtain ⟨σ', ps', hrun, hup⟩ := taintList_spec (h.owns t p hp) start size
    rw [if_pos hbit]
    refine ⟨σ', _, fun fuel hf => ?_, h.update hp hup⟩
    rw [updateList, htest, hbit]
    exact hrun fuel (Nat.lt_of_le_of_lt (length_le_tagClear start size (lists t)) hf)
  · obtain ⟨σ', ps', hrun, hup⟩ := clearList_spec start size (lists t) (h.owns t p hp)
    rw [if_neg hbit]
    refine ⟨σ', _, fun fuel hf => ?_, h.update hp hup⟩
    rw [updateList, htest, Bool.eq_false_iff.mpr hbit]
    exact hrun fuel hf

/-- The loop over the lists. -/
theorem updateLists_foldlM (start size : Addr ws) {tmp : Bitset ws.bits} (htmp : Sized N tmp)
    (entries : List (Nat × Nat)) (hentries : ∀ e ∈ entries, heads[e.2]? = some e.1 ∧ e.2 < N)
    (hnodup : (entries.map Prod.snd).Nodup) (h : Holds heads σ tails lists) :
    ∃ σ' tails' lists',
      (∀ fuel, (∀ e ∈ entries, (tagClear start size (lists e.2)).length < fuel) →
        entries.foldlM (updateList start size tmp fuel) σ = some σ')
      ∧ Holds heads σ' tails' lists'
      ∧ ∀ t, lists' t = if t ∈ entries.map Prod.snd then updatedTag start size tmp t (lists t)
          else lists t := by
  induction entries generalizing σ tails lists with
  | nil => exact ⟨σ, tails, lists, fun _ _ => rfl, h, fun t => (if_neg List.not_mem_nil).symm⟩
  | cons entry rest ih =>
      obtain ⟨p, t⟩ := entry
      obtain ⟨⟨hp, ht⟩, hrestEntries⟩ := List.forall_mem_cons.mp hentries
      obtain ⟨htrest, hnodup⟩ := List.nodup_cons.mp (show (t :: rest.map Prod.snd).Nodup from hnodup)
      obtain ⟨σ₁, tails₁, hrun₁, h₁⟩ := updateList_spec start size h htmp hp ht
      have hother : ∀ u ∈ rest.map Prod.snd,
          Function.update lists t (updatedTag start size tmp t (lists t)) u = lists u := fun u hu =>
        Function.update_of_ne (fun heq : u = t => htrest (heq ▸ hu)) _ _
      obtain ⟨σ', tails', lists', hrun, h', hlists⟩ := ih hrestEntries hnodup h₁
      refine ⟨σ', tails', lists', fun fuel hf => ?_, h', fun u => ?_⟩
      · obtain ⟨hft, hfrest⟩ := List.forall_mem_cons.mp hf
        rw [List.foldlM_cons, hrun₁ fuel hft]
        refine hrun fuel fun e he => ?_
        rw [hother e.2 (List.mem_map_of_mem he)]
        exact hfrest e he
      · rw [hlists, List.map_cons]
        by_cases hut : u = t
        · subst hut
          rw [if_neg htrest, if_pos List.mem_cons_self, Function.update_self]
        · by_cases hu : u ∈ rest.map Prod.snd
          · rw [if_pos hu, if_pos (List.mem_cons_of_mem t hu), hother u hu]
          · rw [if_neg hu, if_neg fun hmem => hu (List.mem_of_ne_of_mem hut hmem),
              Function.update_of_ne hut]

/-! ## Calls -/

/-- The lists in the store are those of the state. -/
structure Represents (s : TagStore ws) (a : TaintState ws N) : Prop where
  length : s.tagMemoryMap.length = if s.isInitialized then N else 0
  none : s.isInitialized = false → ∀ t, tagRecords a.tagMemoryMap t = []
  holds : ∃ tails, Holds s.tagMemoryMap s.nodes tails (tagRecords a.tagMemoryMap)

/-- A list more, and nothing in any. -/
theorem holds_addList {s : TagStore ws} (h : Holds s.tagMemoryMap s.nodes (fun _ => []) fun _ => []) :
    Holds (addList s).tagMemoryMap (addList s).nodes (fun _ => []) fun _ => [] := by
  have hcases : ∀ t p, (addList s).tagMemoryMap[t]? = some p →
      s.tagMemoryMap[t]? = some p ∧ p < s.nodes.fresh
        ∨ t = s.tagMemoryMap.length ∧ p = s.nodes.fresh := by
    intro t p hp
    by_cases ht : t < s.tagMemoryMap.length
    · rw [addList, List.getElem?_append_left ht] at hp
      exact Or.inl ⟨hp, (h.owns t p hp).below p List.mem_cons_self⟩
    · obtain ⟨hlt, hget⟩ := List.getElem?_eq_some_iff.mp hp
      have hlen : t < s.tagMemoryMap.length + 1 := by
        rw [addList, List.length_append] at hlt
        exact hlt
      obtain rfl : t = s.tagMemoryMap.length := by omega
      refine Or.inr ⟨rfl, ?_⟩
      rw [addList, List.getElem?_append_right (Nat.le_refl _), Nat.sub_self] at hp
      exact (Option.some.inj hp).symm
  refine ⟨fun t p hp => ?_, fun t u p q htu hp hq x hx hmem => ?_⟩
  · rcases hcases t p hp with ⟨hold, hlt⟩ | ⟨-, rfl⟩
    · refine (h.owns t p hold).frame (fun x hx => ?_) (Nat.le_succ _)
      rw [List.mem_singleton.mp hx]
      exact setNext_of_ne _ (Nat.ne_of_lt hlt) none
    · refine ⟨⟨(s.nodes.heap s.nodes.fresh).data, ⟨setNext_self _ _ _, trivial⟩,
        List.nodup_cons.mpr ⟨List.not_mem_nil, List.nodup_nil⟩, ?_⟩, fun x hx => ?_⟩
      · show [(setNext s.nodes.heap s.nodes.fresh none s.nodes.fresh).data] = _
        rw [setNext_data]
        rfl
      · rw [List.mem_singleton.mp hx]
        exact Nat.lt_succ_self _
  · rw [List.mem_singleton.mp hx] at hmem
    obtain rfl := List.mem_singleton.mp hmem
    rcases hcases t p hp with ⟨hold, hlt⟩ | ⟨rfl, rfl⟩
    · rcases hcases u p hq with ⟨hold', -⟩ | ⟨-, rfl⟩
      · exact h.apart t u p p htu hold hold' p List.mem_cons_self List.mem_cons_self
      · exact Nat.lt_irrefl _ hlt
    · rcases hcases u _ hq with ⟨-, hlt⟩ | ⟨rfl, -⟩
      · exact Nat.lt_irrefl _ hlt
      · exact htu rfl

theorem initLists_represents {s : TagStore ws} {a : TaintState ws N} (h : Represents s a) :
    (initLists N s).isInitialized = true ∧ Represents (initLists N s) a := by
  rw [initLists]
  by_cases hinit : s.isInitialized = true
  · rw [if_pos hinit]
    exact ⟨hinit, h⟩
  · rw [if_neg hinit]
    have hnone := h.none (Bool.eq_false_iff.mpr hinit)
    have hlen := h.length
    rw [if_neg hinit] at hlen
    have hlists : tagRecords a.tagMemoryMap = fun _ => [] := funext hnone
    -- the lists of the first marks
    have hfold : ∀ k, ((List.range k).foldl (fun s _ => addList s) s).tagMemoryMap.length = k
        ∧ Holds ((List.range k).foldl (fun s _ => addList s) s).tagMemoryMap
          ((List.range k).foldl (fun s _ => addList s) s).nodes (fun _ => []) fun _ => [] := by
      intro k
      induction k with
      | zero =>
          have hnil := List.length_eq_zero_iff.mp hlen
          refine ⟨hlen, fun t p hp => ?_, fun t u p q _ hp => ?_⟩
          · rw [List.range_zero, List.foldl_nil, hnil] at hp
            exact nomatch hp
          · rw [List.range_zero, List.foldl_nil, hnil] at hp
            exact nomatch hp
      | succ k ih =>
          rw [List.range_succ, List.foldl_append, List.foldl_cons, List.foldl_nil]
          refine ⟨?_, holds_addList ih.2⟩
          rw [addList, List.length_append, ih.1]
          rfl
    refine ⟨rfl, (hfold N).1, nofun, fun _ => [], ?_⟩
    rw [hlists]
    exact (hfold N).2

/-- The set is the one that the call computes in any state. -/
theorem assignedTaint_call (c : TagCall ws N) :
    ∃ tmp, assignedTaint c.args (withControl c (.init ws N)) = some tmp ∧ Sized N tmp
      ∧ ∀ a : TaintState ws N, marks tmp = assignedMarks c.args (withControl c a) := by
  obtain ⟨tmp, htmp, hsized, hmarks⟩ :=
    assignedTaint_spec (sizedState_withControl init_sized c.control_sized) c.args_sized
  refine ⟨tmp, htmp, hsized, fun a => hmarks.trans ?_⟩
  refine congrArg ({m | ∃ b ∈ c.args, m ∈ marks b} ∪ ·) (Set.ext fun m => ?_)
  exact mem_controlMarks.trans (mem_controlMarks (s := withControl c a)).symm

/-- A bound for finitely many lengths. -/
theorem exists_bound (f : Nat → Nat) (N : Nat) : ∃ enough, ∀ t < N, f t < enough := by
  induction N with
  | zero => exact ⟨0, fun t ht => absurd ht (Nat.not_lt_zero t)⟩
  | succ N ih =>
      obtain ⟨enough, h⟩ := ih
      refine ⟨max enough (f N + 1), fun t ht => ?_⟩
      rcases Nat.lt_succ_iff_lt_or_eq.mp ht with ht | rfl
      · exact Nat.lt_of_lt_of_le (h t ht) (Nat.le_max_left _ _)
      · exact Nat.lt_of_lt_of_le (Nat.lt_succ_self _) (Nat.le_max_right _ _)

/-- **One call** returns, and changes the lists as the call on records does. -/
theorem updateLists_represents {calls : List (TagCall ws N)} {s : TagStore ws} {a : TaintState ws N}
    (hbuilt : Built calls a) (h : Represents s a) (c : TagCall ws N) :
    ∃ s' a', Returns (fun fuel => updateLists c fuel s) s' ∧ s'.isInitialized = true
      ∧ tagCall c a = some a' ∧ Represents s' a' := by
  obtain ⟨hinit, h₀⟩ := initLists_represents h
  obtain ⟨tmp, htmp, hsized, hmarks⟩ := assignedTaint_call c
  obtain ⟨a', tmp', ha', hsized', hmarks', -, -, hrecords⟩ :=
    setTaintForMemory_index (sizedState_withControl hbuilt.sized c.control_sized)
      ⟨hbuilt.indexed.keys, hbuilt.indexed.empty⟩ c.start c.size c.args_sized
  -- both computed the same set
  have hsame : ∀ t, updatedTag c.start c.size tmp t = updatedTag c.start c.size tmp' t := by
    intro t
    have hbit : holdsBit tmp t = holdsBit tmp' t := by
      rw [Bool.eq_iff_iff, ← hsized.mem_marks, ← hsized'.mem_marks, hmarks a, hmarks']
      rfl
    funext records
    rw [updatedTag, updatedTag, hbit]
  obtain ⟨tails, hholds⟩ := h₀.holds
  have hlen := h₀.length
  rw [if_pos hinit] at hlen
  have hentries : ∀ e ∈ (initLists N s).tagMemoryMap.zipIdx,
      (initLists N s).tagMemoryMap[e.2]? = some e.1 ∧ e.2 < N := by
    rintro ⟨p, t⟩ he
    have hget := List.mk_mem_zipIdx_iff_getElem?.mp he
    exact ⟨hget, hlen ▸ (List.getElem?_eq_some_iff.mp hget).1⟩
  have hkeys : (initLists N s).tagMemoryMap.zipIdx.map Prod.snd = List.range N := by
    rw [List.zipIdx_map_snd, hlen, List.range_eq_range']
  obtain ⟨σ', tails', lists', hrun, hholds', hlists⟩ := updateLists_foldlM c.start c.size hsized _
    hentries (hkeys ▸ List.nodup_range) hholds
  obtain ⟨enough, henough⟩ := exists_bound
    (fun t => (tagClear c.start c.size (tagRecords a.tagMemoryMap t)).length) N
  refine ⟨{ initLists N s with nodes := σ' }, a', ⟨enough, fun fuel hf => ?_⟩, hinit, ha', ?_⟩
  · show updateLists c fuel s = _
    rw [updateLists, htmp]
    show Option.bind ((initLists N s).tagMemoryMap.zipIdx.foldlM
      (updateList c.start c.size tmp fuel) (initLists N s).nodes) _ = _
    rw [hrun fuel fun e he => Nat.lt_of_lt_of_le (henough e.2 (hentries e he).2) hf]
    rfl
  · refine ⟨h₀.length, fun hfalse => absurd hinit (Bool.eq_false_iff.mp hfalse), tails', ?_⟩
    refine ⟨fun t p hp => ?_, hholds'.apart⟩
    have ht : t < N := hlen ▸ (List.getElem?_eq_some_iff.mp hp).1
    rw [hrecords t ht, ← hsame]
    have howns := hholds'.owns t p hp
    rw [hlists, if_pos (by rw [hkeys]; exact List.mem_range.mpr ht)] at howns
    exact howns

theorem represents_initial (heap : MemHeap ws) (fresh : Nat) :
    Represents (.initial heap fresh) (TaintState.init ws N) := by
  refine ⟨rfl, fun _ t => ?_, fun _ => [], ⟨nofun, nofun⟩⟩
  rw [tagRecords, show (TaintState.init ws N).tagMemoryMap[t]? = none from
    Std.ExtTreeMap.getElem?_empty]
  rfl

/-- The stores of runs of calls on ranges of fewer than 2^31 bytes, from any
    heap. -/
inductive Reachable (N : Nat) : TagStore ws → Prop
  | initial (heap : MemHeap ws) (fresh : Nat) : Reachable N (.initial heap fresh)
  | call {s s' : TagStore ws} (c : TagCall ws N) : Reachable N s → c.size.toNat < 2 ^ 31 →
      Returns (fun fuel => updateLists c fuel s) s' → Reachable N s'

/-- **Runs on nodes refine runs on records.** -/
theorem Reachable.represents {s : TagStore ws} (h : Reachable N s) :
    ∃ (calls : List (TagCall ws N)) (a : TaintState ws N), runs tagCall calls (.init ws N) = some a
      ∧ (∀ c ∈ calls, c.size.toNat < 2 ^ 31) ∧ Represents s a := by
  induction h with
  | initial heap fresh => exact ⟨[], _, rfl, nofun, represents_initial heap fresh⟩
  | call c _ hsize hcall ih =>
      obtain ⟨calls, a, hrun, hsmall, hrep⟩ := ih
      obtain ⟨s', a', hcall', -, ha', hrep'⟩ := updateLists_represents (built_runs hrun) hrep c
      obtain rfl := hcall.unique hcall'
      refine ⟨calls ++ [c], a', ?_, ?_, hrep'⟩
      · rw [runs_append, hrun, Option.bind_some, runs_cons, ha']
        rfl
      · intro d hd
        rcases List.mem_append.mp hd with hd | hd
        · exact hsmall d hd
        · rw [List.mem_singleton.mp hd]
          exact hsize

/-- A list as it should be: NULL-terminated, with for each address nothing, or a
    live record, or a live record and a cleared one behind it; and on any range
    the clearing branch returns, having appended at most one record for an
    address. -/
def WellKept (σ : Nodes ws) (p : Nat) : Prop :=
  ∃ ps records last, IsTagList σ.heap p ps records last
    ∧ (∀ a, flagsAt records a = [] ∨ flagsAt records a = [false] ∨ flagsAt records a = [false, true])
    ∧ ∀ start size : Addr ws, ∃ σ' ps' new last',
        Returns (fun fuel => clearList start size fuel p σ) σ'
          ∧ IsTagList σ'.heap p ps' (records ++ new) last'
          ∧ (∀ r ∈ new, r.isCleared = true) ∧ ∀ a, (recordsAt new a).length ≤ 1

/-- **Every reachable list is well kept.** -/
theorem wellKept_of_reachable {s : TagStore ws} (h : Reachable N s) {t p : Nat}
    (hp : s.tagMemoryMap[t]? = some p) : WellKept s.nodes p := by
  obtain ⟨calls, a, hrun, hsmall, hrep⟩ := h.represents
  have hbuilt := built_runs hrun
  obtain ⟨tails, hholds⟩ := hrep.holds
  have howns := hholds.owns t p hp
  obtain ⟨last, hlist⟩ := howns.list
  have ht : t < N := by
    have hlt := (List.getElem?_eq_some_iff.mp hp).1
    have hlen := hrep.length
    split at hlen
    · omega
    · omega
  refine ⟨tails t, tagRecords a.tagMemoryMap t, last, hlist, fun x => ?_, fun start size => ?_⟩
  · exact flags_cases (hbuilt.recorded t ht x) fun htwo => hbuilt.renewed hsmall t ht ⟨x, htwo⟩
  · obtain ⟨σ', ps', hclear, hup⟩ := clearList_spec start size _ howns
    obtain ⟨new, hnew, hcleared, honce⟩ :=
      tagClear_eq_append start size (tagRecords a.tagMemoryMap t)
    obtain ⟨last', hlist'⟩ := hup.owns.list
    exact ⟨σ', ps', new, last', ⟨_, hclear⟩, hnew ▸ hlist', hcleared, fun x => (honce x).1⟩

/-- One tag, and byte 100 tainted with it. -/
theorem wellKept_of_reachable_tagged :
    ∃ (s : TagStore .w64) (p : Nat), s.tagMemoryMap[0]? = some p ∧ WellKept s.nodes p := by
  have hstart : Represents (.initial (fun _ => ⟨⟨0, false⟩, none⟩) 0) (TaintState.init .w64 1) :=
    represents_initial _ 0
  obtain ⟨s, a, hcall, hinit, -, hrep⟩ :=
    updateLists_represents built_init hstart (tagByte [markZero] markZero_sized)
  have hreach : Reachable 1 s := .call _ (.initial _ 0) (by decide) hcall
  have hlen := hrep.length
  rw [if_pos hinit] at hlen
  have hlt : 0 < s.tagMemoryMap.length := by omega
  have hp : s.tagMemoryMap[0]? = some s.tagMemoryMap[0] := List.getElem?_eq_getElem hlt
  exact ⟨s, _, hp, wellKept_of_reachable hreach hp⟩

end DytanTagNodes
