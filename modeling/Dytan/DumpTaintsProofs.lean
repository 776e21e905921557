import Dytan.TagNodesProofs
import Dytan.TaintReportProofs

/-! # `dump_taints` — the lists and maps in its report

    The function prunes the list of every tag, in the nodes themselves, prints
    what is left, and prints the entries of `memTaintMap` that are not empty.

    The loop over a list stays inside of it, so that the lists are pruned one by
    one.  What it prints is the text of a report, and reads back as that report
    (`dumpTaints_eq`).  Its second listing is always right; its first one is
    right for all tags exactly if every list is prunable, as long as the lists
    agree with the map (`report_right`).

    The first listing dereferences every address it prints: the program must
    still be able to read what is in the lists (`Readable`). -/

namespace DytanDumpTaints

open DytanBitset DytanRegister DytanTaintState DytanMarkFlow DytanRegisterAlias DytanTagIndex
open DytanTagPruning
open DytanPrunedTags DytanTagNodes DytanTaintReport
open LinkedList ReadBack Runs Decimal

variable {ws : WordSize} {N : Nat}

/-- The bytes the program has now; `none` where an address cannot be read. -/
abbrev ByteMemory (ws : WordSize) := Addr ws → Option Byte

/-- What is printed of a node, with a byte. -/
def listedAs (c : Byte) (r : MemRecord ws) : Listed :=
  ⟨r.memAddress.toNat, r.isCleared.toNat, c⟩

/-- What is printed of a node: the byte at its address is read. -/
def listed (memory : ByteMemory ws) (r : MemRecord ws) : Option Listed :=
  (memory r.memAddress).map fun c => listedAs c r

/-- The loop over the nodes of a list, up to the one that ends it. -/
def nodesText (memory : ByteMemory ws) (h : MemHeap ws) : Nat → List Byte → Nat → Option (List Byte)
  | 0, _, _ => none
  | fuel + 1, sep, address =>
      match (h address).next with
      | none => some []
      | some next => do
          let node ← listed memory (h address).data
          let rest ← nodesText memory h fuel separator next
          some (sep ++ node.text ++ rest)

/-- The line of a tag, if its list has a record. -/
def tagText (memory : ByteMemory ws) (h : MemHeap ws) (fuel : Nat) (entry : Nat × Nat) :
    Option (List Byte) :=
  let (head, tag) := entry
  if (h head).next = none then some []
  else do
    let nodes ← nodesText memory h fuel [] head
    some (ascii "\t" ++ (spell 10 tag ++ (ascii ": [" ++ (nodes ++ ascii "]\n"))))

/-- The loop over the positions of a set. -/
def marksText (set : Bitset ws.bits) : List Byte → List Nat → Option (List Byte)
  | _, [] => some []
  | sep, i :: rest => do
      if ← bitsetTestBit set i then
        let text ← marksText set separator rest
        some (sep ++ spell 10 i ++ text)
      else marksText set sep rest

/-- The line of a byte, if it has a mark. -/
def byteText (entry : Addr ws × Bitset ws.bits) : Option (List Byte) :=
  let (address, set) := entry
  if bitsetIsEmpty set then some []
  else do
    -- `i < (int) nbits`
    let marks ← marksText set [] (List.range (BitVec.ofNat 32 set.nbits).toInt.toNat)
    some (ascii "\t" ++ (spell 16 address.toNat ++ (ascii " - [" ++ (marks ++ ascii "]\n"))))

/-- `dump_taints`: the lists are pruned, then both listings are printed. -/
def dumpTaints (memory : ByteMemory ws) (fuel : Nat) (s : TagStore ws)
    (memTaintMap : Std.ExtTreeMap (Addr ws) (Bitset ws.bits)) : Option (List Byte) := do
  let h ← s.tagMemoryMap.zipIdx.foldlM (fun h e => pruneList fuel h e.1) s.nodes.heap
  let tags ← s.tagMemoryMap.zipIdx.mapM (tagText memory h fuel)
  let bytes ← memTaintMap.toList.mapM byteText
  some (heading ++ (tags.flatten ++ (secondHeading ++ bytes.flatten)))

/-! ## The pruning loop stays in its list -/

variable {h h' : MemHeap ws} {S : Set Nat} {p e current fuel : Nat} {ps : List Nat}

/-- No node of the set points out of it. -/
def Closed (h : MemHeap ws) (S : Set Nat) : Prop := ∀ x ∈ S, ∀ y, (h x).next = some y → y ∈ S

theorem Closed.setNext (hc : Closed h S) {q : Option Nat} (hq : ∀ y, q = some y → y ∈ S) :
    Closed (setNext h p q) S := by
  intro x hx y hy
  by_cases hxp : x = p
  · rw [hxp, setNext_self] at hy
    exact hq y hy
  · rw [setNext_of_ne h hxp] at hy
    exact hc x hx y hy

/-- The inner loop stays in the set. -/
theorem findCleared_mem (hc : Closed h S) (he : e ∈ S) {found : Nat × Nat}
    (hrun : findCleared h current fuel e = some (some found)) : found.1 ∈ S ∧ found.2 ∈ S := by
  induction fuel generalizing e with
  | zero => cases hrun
  | succ fuel ih =>
      cases hnext : (h e).next with
      | none =>
          rw [findCleared, hnext] at hrun
          cases hrun
      | some next =>
          have hmem := hc e he next hnext
          rw [findCleared_next hnext] at hrun
          split at hrun
          · cases hrun
            exact ⟨he, hmem⟩
          · exact ih hmem hrun

/-- **Frame**: the loop changes nodes of the set only, and none to point out of it. -/
theorem pruneList_frame (hc : Closed h S) (he : e ∈ S) (hrun : pruneList fuel h e = some h') :
    Closed h' S ∧ ∀ x, x ∉ S → h' x = h x := by
  induction fuel generalizing h e with
  | zero => exact nomatch hrun
  | succ fuel ih =>
      cases hnext : (h e).next with
      | none =>
          rw [pruneList, hnext] at hrun
          cases hrun
          exact ⟨hc, fun _ _ => rfl⟩
      | some current =>
          have hcurrent := hc e he current hnext
          rw [pruneList, hnext] at hrun
          by_cases hlive : (h e).data.isCleared = false
          · simp only [hlive, if_true] at hrun
            obtain ⟨found, hfound, hrest⟩ := Option.bind_eq_some_iff.mp hrun
            cases found with
            | none => exact ih hc hcurrent hrest
            | some found =>
                obtain ⟨hpre, hdel⟩ := findCleared_mem hc he hfound
                have hskip : Closed (setNext h e (h current).next) S :=
                  hc.setNext (hc current hcurrent)
                obtain ⟨hclosed, hsame⟩ := ih (hskip.setNext (hskip found.2 hdel)) he hrest
                refine ⟨hclosed, fun x hx => ?_⟩
                have hxpre : x ≠ found.1 := fun heq => hx (heq ▸ hpre)
                have hxe : x ≠ e := fun heq => hx (heq ▸ he)
                rw [hsame x hx, setNext_of_ne _ hxpre, setNext_of_ne _ hxe]
          · simp only [hlive] at hrun
            exact ih hc hcurrent hrun

theorem closed_of_linksTo (hl : LinksTo h none ps) : Closed h {x | x ∈ ps} := by
  induction ps with
  | nil => exact nofun
  | cons p ps ih =>
      intro x hx y hy
      rcases List.mem_cons.mp hx with rfl | hx
      · rw [hl.1, Option.or_none] at hy
        exact List.mem_cons_of_mem _ (List.mem_of_mem_head? hy)
      · exact List.mem_cons_of_mem _ (ih hl.2 x hx y hy)

theorem Closed.mem_of_linksTo (hc : Closed h S) (hp : p ∈ S) (hl : LinksTo h none (p :: ps)) :
    ∀ x ∈ p :: ps, x ∈ S := by
  induction ps generalizing p with
  | nil => exact fun x hx => List.mem_singleton.mp hx ▸ hp
  | cons q ps ih => exact List.forall_mem_cons.mpr ⟨hp, ih (hc p hp q hl.1) hl.2⟩

/-- The lists at these nodes, the fields of the nodes that end them included;
    they share no node. -/
structure Lists (h : MemHeap ws) (heads : List Nat) (tails : Nat → List Nat)
    (records : Nat → List (MemRecord ws)) (lasts : Nat → MemRecord ws) : Prop where
  list : ∀ t p, heads[t]? = some p → IsTagList h p (tails t) (records t) (lasts t)
  apart : ∀ t u p q, t ≠ u → heads[t]? = some p → heads[u]? = some q →
    ∀ x ∈ p :: tails t, x ∉ q :: tails u

variable {heads : List Nat} {tails : Nat → List Nat} {records : Nat → List (MemRecord ws)}
  {lasts : Nat → MemRecord ws} {t : Nat}

theorem exists_lists {σ : Nodes ws} (hholds : Holds heads σ tails records) :
    ∃ lasts, Lists σ.heap heads tails records lasts := by
  have hlast : ∀ t, ∃ last, ∀ p, heads[t]? = some p → IsTagList σ.heap p (tails t) (records t) last := by
    intro t
    cases hp : heads[t]? with
    | none => exact ⟨⟨0, false⟩, nofun⟩
    | some p =>
        obtain ⟨last, hlist⟩ := (hholds.owns t p hp).list
        exact ⟨last, fun q hq => Option.some.inj hq ▸ hlist⟩
  choose lasts hlasts using hlast
  exact ⟨lasts, hlasts, hholds.apart⟩

/-- The records of a list are those of the nodes before the last. -/
theorem isTagList_congr {r : List (MemRecord ws)} {last : MemRecord ws}
    (hlist : IsTagList h p ps r last) (hsame : ∀ x ∈ p :: ps, h' x = h x) :
    IsTagList h' p ps r last where
  links := hlist.links.congr fun x hx => congrArg Node.next (hsame x hx)
  nodup := hlist.nodup
  data := (dataOf_congr hsame).trans hlist.data

/-- **One list is pruned**, the others stay. -/
theorem Lists.prune (hl : Lists h heads tails records lasts) (hp : heads[t]? = some p)
    (hrec : WellRecorded (records t)) (hf : (tails t).length < fuel) :
    ∃ h' ps' last', pruneList fuel h p = some h'
      ∧ Lists h' heads (Function.update tails t ps')
        (Function.update records t (pruned (lasts t) (records t))) (Function.update lasts t last') := by
  have hlist := hl.list t p hp
  obtain ⟨h', ps', last', hrun, hlist'⟩ := pruneList_pruned hlist hrec hf
  obtain ⟨hclosed, hsame⟩ :=
    pruneList_frame (closed_of_linksTo hlist.links) (S := {x | x ∈ p :: tails t})
      List.mem_cons_self hrun
  -- the nodes that are left were in the list
  have hsub : ∀ x ∈ p :: ps', x ∈ p :: tails t :=
    hclosed.mem_of_linksTo List.mem_cons_self hlist'.links
  have hhead : ∀ q, heads[t]? = some q → q = p := fun q hq => Option.some.inj (hq.symm.trans hp)
  refine ⟨h', ps', last', hrun, fun u q hq => ?_, fun u v q q' huv hq hq' x hx => ?_⟩
  · by_cases hu : u = t
    · subst hu
      rw [hhead q hq, Function.update_self, Function.update_self, Function.update_self]
      exact hlist'
    · rw [Function.update_of_ne hu, Function.update_of_ne hu, Function.update_of_ne hu]
      exact isTagList_congr (hl.list u q hq) fun x hx => hsame x (hl.apart u t q p hu hq hp x hx)
  · by_cases hu : u = t
    · subst hu
      rw [hhead q hq, Function.update_self] at hx
      rw [Function.update_of_ne huv.symm]
      exact hl.apart u v p q' huv hp hq' x (hsub x hx)
    · rw [Function.update_of_ne hu] at hx
      by_cases hv : v = t
      · subst hv
        rw [hhead q' hq', Function.update_self]
        exact fun hmem => hl.apart u v q p huv hq hp x hx (hsub x hmem)
      · rw [Function.update_of_ne hv]
        exact hl.apart u v q q' huv hq hq' x hx

/-- The loop over the lists. -/
theorem Lists.pruneAll (entries : List (Nat × Nat))
    (hentries : ∀ e ∈ entries, heads[e.2]? = some e.1 ∧ WellRecorded (records e.2)
      ∧ (tails e.2).length < fuel) (hnodup : (entries.map Prod.snd).Nodup)
    (hl : Lists h heads tails records lasts) :
    ∃ h' tails' records' lasts', entries.foldlM (fun h e => pruneList fuel h e.1) h = some h'
      ∧ Lists h' heads tails' records' lasts'
      ∧ ∀ t, records' t = if t ∈ entries.map Prod.snd then pruned (lasts t) (records t)
          else records t := by
  induction entries generalizing h tails records lasts with
  | nil => exact ⟨h, tails, records, lasts, rfl, hl, fun t => (if_neg List.not_mem_nil).symm⟩
  | cons entry rest ih =>
      obtain ⟨p, t⟩ := entry
      obtain ⟨⟨hp, hrec, hf⟩, hrest⟩ := List.forall_mem_cons.mp hentries
      obtain ⟨htrest, hnodup⟩ := List.nodup_cons.mp (show (t :: rest.map Prod.snd).Nodup from hnodup)
      obtain ⟨h₁, ps', last', hrun₁, hl₁⟩ := hl.prune hp hrec hf
      have hother : ∀ u ∈ rest.map Prod.snd, u ≠ t := fun u hu heq => htrest (heq ▸ hu)
      obtain ⟨h', tails', records', lasts', hrun, hl', hrecords⟩ := ih (by
        intro e he
        have hne := hother e.2 (List.mem_map_of_mem he)
        rw [Function.update_of_ne hne, Function.update_of_ne hne]
        exact hrest e he) hnodup hl₁
      refine ⟨h', tails', records', lasts', ?_, hl', fun u => ?_⟩
      · rw [List.foldlM_cons, hrun₁]
        exact hrun
      · rw [hrecords, List.map_cons]
        by_cases hut : u = t
        · subst hut
          rw [if_neg htrest, if_pos List.mem_cons_self, Function.update_self]
        · rw [Function.update_of_ne hut, Function.update_of_ne hut]
          by_cases hu : u ∈ rest.map Prod.snd
          · rw [if_pos hu, if_pos (List.mem_cons_of_mem t hu)]
          · rw [if_neg hu, if_neg fun hmem => hu (List.mem_of_ne_of_mem hut hmem)]

/-! ## What is printed -/

/-- What is printed of a node, with the bytes of `contents`. -/
def listedIn (contents : Addr ws → Byte) (r : MemRecord ws) : Listed :=
  listedAs (contents r.memAddress) r

variable {memory : ByteMemory ws} {contents : Addr ws → Byte} {set : Bitset ws.bits}

/-- The addresses of some records can be read, and have the bytes of `contents`. -/
def Reads (memory : ByteMemory ws) (contents : Addr ws → Byte) (rs : List (MemRecord ws)) : Prop :=
  ∀ r ∈ rs, memory r.memAddress = some (contents r.memAddress)

theorem Reads.listed_eq {rs : List (MemRecord ws)} (h : Reads memory contents rs)
    {r : MemRecord ws} (hr : r ∈ rs) : listed memory r = some (listedIn contents r) := by
  rw [listed, h r hr]
  rfl

/-- The loop behind the first node. -/
theorem nodesText_separator (hl : LinksTo h none (p :: ps)) (hf : ps.length < fuel)
    (hread : Reads memory contents (dataOf h (p :: ps).dropLast)) :
    nodesText memory h fuel separator p
      = some ((((dataOf h (p :: ps).dropLast).map (listedIn contents)).map Listed.text).flatMap
          fun text => separator ++ text) := by
  induction ps generalizing p fuel with
  | nil =>
      obtain ⟨fuel, rfl⟩ := Nat.exists_eq_succ_of_ne_zero (Nat.ne_of_gt hf)
      rw [nodesText, show (h p).next = none from hl.1]
      rfl
  | cons q ps ih =>
      obtain ⟨fuel, rfl⟩ := Nat.exists_eq_succ_of_ne_zero (Nat.ne_of_gt (Nat.zero_lt_of_lt hf))
      rw [List.dropLast_cons_of_ne_nil (List.cons_ne_nil q ps)] at hread ⊢
      rw [nodesText, show (h p).next = some q from hl.1]
      show (listed memory (h p).data).bind _ = _
      rw [hread.listed_eq (show (h p).data ∈ _ from List.mem_cons_self)]
      show (nodesText memory h fuel separator q).bind _ = _
      rw [ih hl.2 (Nat.lt_of_succ_lt_succ hf) fun r hr => hread r (List.mem_cons_of_mem _ hr)]
      rfl

/-- The whole loop. -/
theorem nodesText_list {r : List (MemRecord ws)} {last : MemRecord ws}
    (hlist : IsTagList h p ps r last) (hf : ps.length < fuel) (hread : Reads memory contents r) :
    nodesText memory h fuel [] p
      = some (separated separator ((r.map (listedIn contents)).map Listed.text)) := by
  rw [← dataOf_dropLast hlist] at hread ⊢
  have hl := hlist.links
  obtain ⟨fuel, rfl⟩ := Nat.exists_eq_succ_of_ne_zero (Nat.ne_of_gt (Nat.zero_lt_of_lt hf))
  cases ps with
  | nil =>
      rw [nodesText, show (h p).next = none from hl.1]
      rfl
  | cons q ps =>
      rw [List.dropLast_cons_of_ne_nil (List.cons_ne_nil q ps)] at hread ⊢
      rw [nodesText, show (h p).next = some q from hl.1]
      show (listed memory (h p).data).bind _ = _
      rw [hread.listed_eq (show (h p).data ∈ _ from List.mem_cons_self)]
      show (nodesText memory h fuel separator q).bind _ = _
      rw [nodesText_separator hl.2 (Nat.lt_of_succ_lt_succ hf) fun r hr =>
        hread r (List.mem_cons_of_mem _ hr)]
      rfl

/-- The loop over positions, behind the first mark. -/
theorem marksText_separator (is : List Nat) (his : ∀ i ∈ is, i < set.nbits) :
    marksText set separator is
      = some (((is.filter (holdsBit set)).map (spell 10)).flatMap fun text => separator ++ text) := by
  induction is with
  | nil => rfl
  | cons i is ih =>
      obtain ⟨hi, hrest⟩ := List.forall_mem_cons.mp his
      rw [marksText, bitsetTestBit, if_pos hi, List.filter_cons]
      cases hbit : holdsBit set i with
      | false => exact ih hrest
      | true =>
          show (marksText set separator is).bind _ = _
          rw [ih hrest]
          rfl

/-- The whole loop. -/
theorem marksText_eq (is : List Nat) (his : ∀ i ∈ is, i < set.nbits) :
    marksText set [] is = some (separated separator ((is.filter (holdsBit set)).map (spell 10))) := by
  induction is with
  | nil => rfl
  | cons i is ih =>
      obtain ⟨hi, hrest⟩ := List.forall_mem_cons.mp his
      rw [marksText, bitsetTestBit, if_pos hi, List.filter_cons]
      cases hbit : holdsBit set i with
      | false => exact ih hrest
      | true =>
          show (marksText set separator is).bind _ = _
          rw [marksText_separator is hrest]
          rfl

/-! ## The report -/

/-- The marks of a set, in order. -/
def markList (set : Bitset ws.bits) : List Nat := (List.range set.nbits).filter (holdsBit set)

/-- The entry of a tag, if its list has a record. -/
def tagEntry (contents : Addr ws → Byte) (records : Nat → List (MemRecord ws)) (tag : Nat) :
    Option (Nat × List Listed) :=
  if records tag = [] then none else some (tag, (records tag).map (listedIn contents))

/-- The entry of a byte, if it has a mark. -/
def byteEntry (entry : Addr ws × Bitset ws.bits) : Option (Nat × List Nat) :=
  if markList entry.2 = [] then none else some (entry.1.toNat, markList entry.2)

/-- What there is to report. -/
def reportOf (contents : Addr ws → Byte) (records : Nat → List (MemRecord ws)) (tags : List Nat)
    (memTaintMap : Std.ExtTreeMap (Addr ws) (Bitset ws.bits)) : Report :=
  ⟨tags.filterMap (tagEntry contents records), memTaintMap.toList.filterMap byteEntry⟩

theorem reportOf_printed {tags : List Nat} {m : Std.ExtTreeMap (Addr ws) (Bitset ws.bits)} :
    (reportOf contents records tags m).Printed where
  tags := by
    intro e he
    obtain ⟨tag, -, hentry⟩ := List.mem_filterMap.mp he
    rw [tagEntry] at hentry
    split at hentry
    · exact nomatch hentry
    · next hne =>
        cases hentry
        exact fun hnil => hne (List.map_eq_nil_iff.mp hnil)
  bytes := by
    intro e he
    obtain ⟨entry, -, hentry⟩ := List.mem_filterMap.mp he
    rw [byteEntry] at hentry
    split at hentry
    · exact nomatch hentry
    · next hne =>
        cases hentry
        exact hne

/-- Lines, of the entries that have one. -/
theorem mapM_lines {α β : Type} (text : α → Option (List Byte)) (entry : α → Option β)
    (line : β → List Byte) {as : List α}
    (htext : ∀ a ∈ as, text a = some (((entry a).map line).getD [])) :
    ∃ texts, as.mapM text = some texts ∧ texts.flatten = (as.filterMap entry).flatMap line := by
  induction as with
  | nil => exact ⟨[], rfl, rfl⟩
  | cons a as ih =>
      obtain ⟨ha, hrest⟩ := List.forall_mem_cons.mp htext
      obtain ⟨texts, htexts, hflat⟩ := ih hrest
      refine ⟨((entry a).map line).getD [] :: texts, ?_, ?_⟩
      · rw [List.mapM_cons, ha, htexts]
        rfl
      · rw [List.flatten_cons, hflat, List.filterMap_cons]
        cases entry a with
        | none => rfl
        | some b => rfl

theorem tagText_eq (hl : Lists h heads tails records lasts) (hp : heads[t]? = some p)
    (hf : (tails t).length < fuel) (hread : Reads memory contents (records t)) :
    tagText memory h fuel (p, t) = some (((tagEntry contents records t).map tagLine).getD []) := by
  have hlist := hl.list t p hp
  have hnone : (h p).next = none ↔ records t = [] := by
    rw [hlist.links.1, Option.or_none, List.head?_eq_none_iff, ← List.length_eq_zero_iff,
      length_eq_records hlist, List.length_eq_zero_iff]
  rw [tagText, tagEntry]
  by_cases hnil : records t = []
  · rw [if_pos hnil, if_pos (hnone.mpr hnil)]
    rfl
  · rw [if_neg hnil, if_neg fun h => hnil (hnone.mp h), nodesText_list hlist hf hread]
    rfl

theorem marks_eq (set : Bitset ws.bits) : marks set = {i | i ∈ markList set} := by
  ext i
  show i < set.nbits ∧ holdsBit set i = true ↔ i ∈ markList set
  rw [markList, List.mem_filter, List.mem_range]

theorem byteText_eq (hset : Sized N set) (hN : N < 2 ^ 31) (address : Addr ws) :
    byteText (address, set) = some (((byteEntry (address, set)).map byteLine).getD []) := by
  have hcount : (BitVec.ofNat 32 set.nbits).toInt.toNat = set.nbits := by
    rw [hset.nbits, BitVec.toInt_eq_toNat_of_lt, BitVec.toNat_ofNat, Nat.mod_eq_of_lt]
    · rfl
    · omega
    · rw [BitVec.toNat_ofNat]
      omega
  have hempty : bitsetIsEmpty set = true ↔ markList set = [] := by
    rw [isEmpty_iff hset, marks_eq, List.eq_nil_iff_forall_not_mem, Set.eq_empty_iff_forall_notMem]
    rfl
  rw [byteText, byteEntry]
  by_cases hnil : markList set = []
  · rw [if_pos (hempty.mpr hnil), if_pos hnil]
    rfl
  · rw [if_neg fun h => hnil (hempty.mp h), if_neg hnil, hcount,
      marksText_eq _ fun i hi => List.mem_range.mp hi]
    rfl

/-- Pruning takes records out. -/
theorem prune_sublist (rs : List (MemRecord ws)) : (prune rs).Sublist rs := by
  induction rs using prune_induction with
  | nil =>
      rw [prune]
  | cleared r rest hc ih =>
      rw [prune_cleared hc]
      exact ih.cons r
  | cancelled r mid e after hlive hce hmid ih =>
      rw [prune_split hlive hce hmid]
      exact (ih.trans ((List.sublist_cons_self e after).append_left mid)).cons r
  | kept r rest hlive hnot ih =>
      rw [prune_kept hlive hnot]
      exact ih.cons_cons r

theorem dropLast_sublist_of_concat {α : Type} {l l' : List α} {x : α}
    (h : l.Sublist (l' ++ [x])) : l.dropLast.Sublist l' := by
  obtain ⟨l₁, l₂, rfl, h₁, h₂⟩ := List.sublist_append_iff.mp h
  cases h₂ with
  | cons _ hnil =>
      rw [List.sublist_nil.mp hnil, List.append_nil]
      exact (List.dropLast_sublist l₁).trans h₁
  | cons_cons _ hnil =>
      rw [List.sublist_nil.mp hnil, List.dropLast_concat]
      exact h₁

theorem pruned_sublist (last : MemRecord ws) (rs : List (MemRecord ws)) :
    (pruned last rs).Sublist rs := by
  cases rs with
  | nil => exact .refl _
  | cons head rest =>
      exact dropLast_sublist_of_concat ((prune_sublist (rest ++ [last])).cons_cons head)

/-- **What the function writes** is the text of a report, of the pruned lists. -/
theorem dumpTaints_eq {s : TagStore ws} {m : Std.ExtTreeMap (Addr ws) (Bitset ws.bits)}
    (hN : N < 2 ^ 31) (hl : Lists s.nodes.heap s.tagMemoryMap tails records lasts)
    (hrec : ∀ t < s.tagMemoryMap.length, WellRecorded (records t))
    (hm : ∀ (a : Addr ws) b, m[a]? = some b → Sized N b)
    (hf : ∀ t < s.tagMemoryMap.length, (records t).length < fuel)
    (hread : ∀ t < s.tagMemoryMap.length, Reads memory contents (records t)) :
    dumpTaints memory fuel s m
      = some (reportOf contents (fun t => pruned (lasts t) (records t))
          (List.range s.tagMemoryMap.length) m).text := by
  have hkeys : s.tagMemoryMap.zipIdx.map Prod.snd = List.range s.tagMemoryMap.length := by
    rw [List.zipIdx_map_snd, List.range_eq_range']
  have hentries : ∀ e ∈ s.tagMemoryMap.zipIdx,
      s.tagMemoryMap[e.2]? = some e.1 ∧ e.2 < s.tagMemoryMap.length := by
    rintro ⟨p, t⟩ he
    have hget := List.mk_mem_zipIdx_iff_getElem?.mp he
    exact ⟨hget, (List.getElem?_eq_some_iff.mp hget).1⟩
  have hready : ∀ e ∈ s.tagMemoryMap.zipIdx, s.tagMemoryMap[e.2]? = some e.1
      ∧ WellRecorded (records e.2) ∧ (tails e.2).length < fuel := by
    intro e he
    obtain ⟨hp, ht⟩ := hentries e he
    rw [length_eq_records (hl.list _ _ hp)]
    exact ⟨hp, hrec _ ht, hf _ ht⟩
  obtain ⟨h', tails', records', lasts', hprune, hl', hrecords⟩ :=
    hl.pruneAll _ hready (hkeys ▸ List.nodup_range)
  have hleft : ∀ t < s.tagMemoryMap.length, records' t = pruned (lasts t) (records t) := by
    intro t ht
    rw [hrecords, if_pos (hkeys ▸ List.mem_range.mpr ht)]
  have htagLine : ∀ e ∈ s.tagMemoryMap.zipIdx, tagText memory h' fuel e
      = some (((tagEntry contents records' e.2).map tagLine).getD []) := by
    intro e he
    obtain ⟨hp, ht⟩ := hentries e he
    have hsub := pruned_sublist (lasts e.2) (records e.2)
    refine tagText_eq hl' hp ?_ ?_
    · rw [length_eq_records (hl'.list _ _ hp), hleft _ ht]
      exact Nat.lt_of_le_of_lt hsub.length_le (hf _ ht)
    · rw [hleft _ ht]
      exact fun r hr => hread _ ht r (hsub.subset hr)
  have hbyteLine : ∀ e ∈ m.toList, byteText e = some (((byteEntry e).map byteLine).getD []) :=
    fun e he => byteText_eq (hm e.1 e.2 (Std.ExtTreeMap.mem_toList_iff_getElem?_eq_some.mp he)) hN e.1
  obtain ⟨tags, htags, htagsFlat⟩ :=
    mapM_lines _ (fun e : Nat × Nat => tagEntry contents records' e.2) _ htagLine
  obtain ⟨bytes, hbytes, hbytesFlat⟩ := mapM_lines _ _ _ hbyteLine
  have hlists : s.tagMemoryMap.zipIdx.filterMap (fun e => tagEntry contents records' e.2)
      = (List.range s.tagMemoryMap.length).filterMap
          (tagEntry contents fun t => pruned (lasts t) (records t)) := by
    rw [← hkeys, List.filterMap_map]
    refine List.filterMap_congr fun e he => ?_
    show tagEntry contents records' e.2 = tagEntry contents _ e.2
    rw [tagEntry, tagEntry, hleft e.2 (hentries e he).2]
  rw [dumpTaints, hprune]
  show (s.tagMemoryMap.zipIdx.mapM (tagText memory h' fuel)).bind _ = _
  rw [htags]
  show (m.toList.mapM byteText).bind _ = _
  rw [hbytes]
  show some (heading ++ (tags.flatten ++ (secondHeading ++ bytes.flatten))) = _
  rw [htagsFlat, hbytesFlat, hlists]
  rfl

/-! ## When the report is right -/

/-- The second listing: the bytes with marks in ascending order, each with its
    marks in ascending order. -/
structure BytesRight (r : Report) (a : TaintState ws N) : Prop where
  ascending : (r.bytes.map Prod.fst).Pairwise (· < ·)
  marks : ∀ e ∈ r.bytes, e.2.Pairwise (· < ·)
  exact : ∀ x t, (∃ ms, (x.toNat, ms) ∈ r.bytes ∧ t ∈ ms) ↔ t ∈ marksAt a (.mem x)

/-- The first listing: for each tag, once each and uncleared, the addresses that
    have the mark. -/
structure TagsRight (r : Report) (a : TaintState ws N) : Prop where
  once : ∀ e ∈ r.tags, (e.2.map Listed.address).Nodup
  live : ∀ e ∈ r.tags, ∀ x ∈ e.2, x.isCleared = 0
  exact : ∀ t x, (∃ nodes, (t, nodes) ∈ r.tags ∧ ∃ n ∈ nodes, n.address = x.toNat)
    ↔ t ∈ marksAt a (.mem x)

variable {a : TaintState ws N} {tags : List Nat}

theorem mem_byteEntries {m : Std.ExtTreeMap (Addr ws) (Bitset ws.bits)} {e : Nat × List Nat} :
    e ∈ m.toList.filterMap byteEntry
      ↔ ∃ (x : Addr ws) (b : _), m[x]? = some b ∧ markList b ≠ [] ∧ e = (x.toNat, markList b) := by
  rw [List.mem_filterMap]
  constructor
  · rintro ⟨⟨x, b⟩, hmem, hentry⟩
    rw [byteEntry] at hentry
    split at hentry
    · exact nomatch hentry
    · next hne =>
        cases hentry
        exact ⟨x, b, Std.ExtTreeMap.mem_toList_iff_getElem?_eq_some.mp hmem, hne, rfl⟩
  · rintro ⟨x, b, hget, hne, rfl⟩
    exact ⟨(x, b), Std.ExtTreeMap.mem_toList_iff_getElem?_eq_some.mpr hget, if_neg hne⟩

/-- The second listing is right. -/
theorem bytesRight (contents : Addr ws → Byte) (a : TaintState ws N) :
    BytesRight (reportOf contents records tags a.memTaintMap) a where
  ascending := by
    have hentry : ∀ (e e' : Addr ws × Bitset ws.bits) (y y' : Nat × List Nat),
        byteEntry e = some y → byteEntry e' = some y' → compare e.1 e'.1 = .lt → y.1 < y'.1 := by
      intro e e' y y' hy hy' hlt
      rw [byteEntry] at hy hy'
      split at hy
      · exact nomatch hy
      split at hy'
      · exact nomatch hy'
      cases hy
      cases hy'
      exact BitVec.lt_def.mp (compareOfLessAndEq_eq_lt.mp hlt)
    rw [reportOf, List.pairwise_map, List.pairwise_filterMap]
    exact Std.ExtTreeMap.ordered_keys_toList.imp fun hlt y hy y' hy' =>
      hentry _ _ y y' hy hy' hlt
  marks := by
    intro e he
    obtain ⟨x, b, -, -, rfl⟩ := mem_byteEntries.mp he
    exact List.pairwise_lt_range.filter _
  exact := by
    intro x t
    constructor
    · rintro ⟨ms, hms, ht⟩
      obtain ⟨y, b, hget, -, heq⟩ := mem_byteEntries.mp hms
      obtain ⟨hxy, rfl⟩ := Prod.mk.inj heq
      rw [← BitVec.eq_of_toNat_eq hxy] at hget
      exact ⟨b, hget, (marks_eq b).symm ▸ ht⟩
    · rintro ⟨b, hget, ht⟩
      rw [marks_eq] at ht
      exact ⟨_, mem_byteEntries.mpr ⟨x, b, hget, List.ne_nil_of_mem ht, rfl⟩, ht⟩

theorem mem_tagEntries {nodes : List Listed} :
    (t, nodes) ∈ tags.filterMap (tagEntry contents records)
      ↔ t ∈ tags ∧ records t ≠ [] ∧ nodes = (records t).map (listedIn contents) := by
  rw [List.mem_filterMap]
  constructor
  · rintro ⟨u, ht, hentry⟩
    rw [tagEntry] at hentry
    split at hentry
    · exact nomatch hentry
    · next hne =>
        cases hentry
        exact ⟨ht, hne, rfl⟩
  · rintro ⟨ht, hne, heq⟩
    exact ⟨t, ht, by rw [tagEntry, if_neg hne, ← heq]⟩

/-- The first listing is right if every list is pruned right. -/
theorem tagsRight_iff (hsized : SizedState a) (hagree : IndexAgrees a)
    (htags : ∀ t, t ∈ tags → t < N) (hall : ∀ t < N, records t ≠ [] → t ∈ tags) :
    TagsRight (reportOf contents records tags a.memTaintMap) a
      ↔ ∀ t < N, PrunedRight (tagRecords a.tagMemoryMap t) (records t) := by
  have haddress : ∀ t, ((records t).map (listedIn contents)).map Listed.address
      = ((records t).map MemRecord.memAddress).map BitVec.toNat := by
    intro t
    rw [List.map_map, List.map_map]
    rfl
  have hlt : ∀ t x, t ∈ marksAt a (.mem x) → t < N := by
    rintro t x ⟨b, hget, ht⟩
    exact (hsized.entries (.mem x) b hget).marks_lt ht
  have hexact : ∀ t x, (∃ nodes, (t, nodes) ∈ tags.filterMap (tagEntry contents records)
      ∧ ∃ n ∈ nodes, n.address = x.toNat)
        ↔ t < N ∧ ∃ r ∈ records t, r.memAddress = x := by
    intro t x
    constructor
    · rintro ⟨nodes, hmem, n, hn, hx⟩
      obtain ⟨ht, -, rfl⟩ := mem_tagEntries.mp hmem
      obtain ⟨r, hr, rfl⟩ := List.mem_map.mp hn
      exact ⟨htags t ht, r, hr, BitVec.eq_of_toNat_eq hx⟩
    · rintro ⟨ht, r, hr, rfl⟩
      have hne := List.ne_nil_of_mem hr
      exact ⟨_, mem_tagEntries.mpr ⟨hall t ht hne, hne, rfl⟩, _, List.mem_map_of_mem hr, rfl⟩
  constructor
  · intro h t ht
    by_cases hnil : records t = []
    · rw [hnil]
      refine ⟨.nil, nofun, fun x => ?_⟩
      rw [← hagree t ht x, ← h.exact t x]
      refine iff_of_false nofun ?_
      rintro ⟨nodes, hmem, -⟩
      exact (mem_tagEntries.mp hmem).2.1 hnil
    · have hmem : (t, (records t).map (listedIn contents)) ∈ tags.filterMap (tagEntry contents records) :=
        mem_tagEntries.mpr ⟨hall t ht hnil, hnil, rfl⟩
      refine ⟨?_, fun r hr => ?_, fun x => ?_⟩
      · have honce := h.once _ hmem
        rw [haddress] at honce
        exact honce.of_map
      · have hlive := h.live _ hmem _ (List.mem_map_of_mem hr)
        exact Bool.toNat_eq_zero.mp hlive
      · rw [← hagree t ht x, ← h.exact t x]
        exact ((hexact t x).trans (and_iff_right ht)).symm
  · intro h
    refine ⟨fun e he => ?_, fun e he n hn => ?_, fun t x => ?_⟩
    · obtain ⟨ht, -, heq⟩ := mem_tagEntries.mp he
      rw [heq, haddress]
      exact (h e.1 (htags e.1 ht)).once.map fun _ _ => BitVec.eq_of_toNat_eq
    · obtain ⟨ht, -, heq⟩ := mem_tagEntries.mp he
      rw [heq] at hn
      obtain ⟨r, hr, rfl⟩ := List.mem_map.mp hn
      exact Bool.toNat_eq_zero.mpr ((h e.1 (htags e.1 ht)).live r hr)
    · refine (hexact t x).trans ?_
      constructor
      · rintro ⟨ht, hr⟩
        exact (hagree t ht x).mpr (((h t ht).exact x).mp hr)
      · intro hmark
        have ht := hlt t x hmark
        exact ⟨ht, ((h t ht).exact x).mpr ((hagree t ht x).mp hmark)⟩

theorem prunedRight_iff_list {rs : List (MemRecord ws)} {last : MemRecord ws}
    (hrec : WellRecorded rs) : PrunedRight rs (pruned last rs) ↔ PrunableList last rs := by
  cases rs with
  | nil => exact iff_of_true ⟨.nil, nofun, fun x => iff_of_false nofun (not_liveAt_nil x)⟩ nofun
  | cons head rest => rw [prunedRight_iff_of_head hrec, prunableList_cons]

/-- Every address in the lists can be read. -/
def Readable (memory : ByteMemory ws) (a : TaintState ws N) : Prop :=
  ∀ t, ∀ r ∈ tagRecords a.tagMemoryMap t, (memory r.memAddress).isSome = true

/-- The report of a state whose lists `SetTaintForMemory` has built. -/
theorem report_of_built (hN : N < 2 ^ 31) {calls : List (TagCall ws N)} {a : TaintState ws N}
    (hbuilt : Built calls a) {s : TagStore ws} (hrep : Represents s a) {memory : ByteMemory ws}
    (hread : Readable memory a) :
    ∃ (lasts : Nat → MemRecord ws) (text : List Byte) (r : Report),
      Returns (fun fuel => dumpTaints memory fuel s a.memTaintMap) text
      ∧ readReport text = some r ∧ BytesRight r a
      ∧ (∀ t p, s.tagMemoryMap[t]? = some p →
        ∃ ps, IsTagList s.nodes.heap p ps (tagRecords a.tagMemoryMap t) (lasts t))
      ∧ (IndexAgrees a →
        (TagsRight r a ↔ ∀ t < N, PrunableList (lasts t) (tagRecords a.tagMemoryMap t))) := by
  obtain ⟨tails, hholds⟩ := hrep.holds
  obtain ⟨lasts, hl⟩ := exists_lists hholds
  have hlen := hrep.length
  have hlt : ∀ t < s.tagMemoryMap.length, t < N := by
    intro t ht
    split at hlen
    · omega
    · omega
  -- before the first call there are no lists, and no records
  have hall : ∀ t < N, pruned (lasts t) (tagRecords a.tagMemoryMap t) ≠ [] →
      t ∈ List.range s.tagMemoryMap.length := by
    intro t ht hne
    cases hinit : s.isInitialized with
    | true =>
        rw [if_pos hinit] at hlen
        exact List.mem_range.mpr (hlen ▸ ht)
    | false =>
        rw [hrep.none hinit t] at hne
        exact absurd rfl hne
  obtain ⟨enough, henough⟩ := exists_bound (fun t => (tagRecords a.tagMemoryMap t).length) N
  let contents : Addr ws → Byte := fun x => (memory x).getD 0
  have hreads : ∀ t, Reads memory contents (tagRecords a.tagMemoryMap t) := by
    intro t r hr
    obtain ⟨c, hc⟩ := Option.isSome_iff_exists.mp (hread t r hr)
    show memory r.memAddress = some ((memory r.memAddress).getD 0)
    rw [hc]
    rfl
  let r := reportOf contents (fun t => pruned (lasts t) (tagRecords a.tagMemoryMap t))
    (List.range s.tagMemoryMap.length) a.memTaintMap
  refine ⟨lasts, r.text, r, ⟨enough, fun fuel hf => ?_⟩, readReport_printed reportOf_printed,
    bytesRight contents a, fun t p hp => ⟨_, hl.list t p hp⟩, fun hagree => ?_⟩
  · exact dumpTaints_eq hN hl (fun t ht => hbuilt.recorded t (hlt t ht))
      (fun x b hb => hbuilt.sized.entries (.mem x) b hb)
      (fun t ht => Nat.lt_of_lt_of_le (henough t (hlt t ht)) hf) fun t _ => hreads t
  · rw [tagsRight_iff hbuilt.sized hagree (fun t ht => hlt t (List.mem_range.mp ht)) hall]
    exact forall₂_congr fun t ht => prunedRight_iff_list (hbuilt.recorded t ht)

/-- **The report of every run** whose addresses can be read is written and can be
    read back; its second listing is right.  If the lists agree with the map,
    its first listing is right exactly if every list is prunable. -/
theorem report_right (hN : N < 2 ^ 31) {calls : List (TagCall ws N)} {a : TaintState ws N}
    (hrun : runs tagCall calls (.init ws N) = some a) {s : TagStore ws} (hrep : Represents s a)
    {memory : ByteMemory ws} (hread : Readable memory a) :
    ∃ (lasts : Nat → MemRecord ws) (text : List Byte) (r : Report),
      Returns (fun fuel => dumpTaints memory fuel s a.memTaintMap) text
      ∧ readReport text = some r ∧ BytesRight r a
      ∧ (∀ t p, s.tagMemoryMap[t]? = some p →
        ∃ ps, IsTagList s.nodes.heap p ps (tagRecords a.tagMemoryMap t) (lasts t))
      ∧ (IndexAgrees a →
        (TagsRight r a ↔ ∀ t < N, PrunableList (lasts t) (tagRecords a.tagMemoryMap t))) :=
  report_of_built hN (built_runs hrun) hrep hread

/-- Byte 100 can be read, and no other. -/
def onlyByte : ByteMemory .w64 := fun x => if x = 100 then some 65 else none

/-- Tainted once, the only byte in a list is byte 100. -/
theorem tagByte_readable {a : TaintState .w64 1}
    (ha : tagCall (tagByte [markZero] markZero_sized) (.init .w64 1) = some a) :
    Readable onlyByte a := by
  obtain ⟨a', ha', hsized, -, -, -, htag, -⟩ :=
    setCall_spec init_sized indexed_init (setByte [markZero] markZero_sized)
  obtain rfl : a' = a := Option.some.inj (ha'.symm.trans ha)
  intro t r hr
  by_cases ht : t = 0
  · subst ht
    rw [(htag 0 (mem_assignedMarks_markZero _)).2, tagRecords,
      show (TaintState.init .w64 1).tagMemoryMap[0]? = none from Std.ExtTreeMap.getElem?_empty]
      at hr
    revert r
    decide
  · have hnone : a'.tagMemoryMap[t]? = none := by
      refine Std.ExtTreeMap.getElem?_eq_none fun hmem => ht ?_
      exact Nat.lt_one_iff.mp (hsized.tags t hmem)
    rw [tagRecords, hnone] at hr
    exact absurd hr List.not_mem_nil

/-- One tag, and byte 100 tainted with it. -/
theorem report_right_tagged : ∃ (s : TagStore .w64) (a : TaintState .w64 1) (text : List Byte)
    (r : Report), Returns (fun fuel => dumpTaints onlyByte fuel s a.memTaintMap) text
      ∧ readReport text = some r ∧ BytesRight r a := by
  have hstart : Represents (.initial (fun _ => ⟨⟨0, false⟩, none⟩) 0) (TaintState.init .w64 1) :=
    represents_initial _ 0
  obtain ⟨s, a, -, -, ha, hrep⟩ :=
    updateLists_represents built_init hstart (tagByte [markZero] markZero_sized)
  have hrun : runs tagCall [tagByte [markZero] markZero_sized] (.init .w64 1) = some a := by
    rw [runs_cons, ha]
    rfl
  obtain ⟨-, text, r, htext, hread, hbytes, -⟩ :=
    report_right (by decide) hrun hrep (tagByte_readable ha)
  exact ⟨s, a, text, r, htext, hread, hbytes⟩

end DytanDumpTaints
