import Mathlib.Data.List.Chain
import Mathlib.Data.List.Count
import Dytan.TagPruningProofs

/-! # What pruning leaves

    A list that `SetTaintForMemory` has built starts with a live record, and no
    address has two cleared records in a row (`WellRecorded`).  Pruning is done
    address by address (`recordsAt_prune`): it takes out a live record with the
    cleared one behind it, and leaves as many as are open then
    (`length_recordsAt_prune`).

    What goes wrong is at the two ends.  The first record stays whatever follows
    it, and a terminating node with `isCleared` set takes the last record that
    is left with it (`length_pruned`). -/

namespace DytanPrunedTags

open DytanBitset DytanRegister DytanTaintState DytanMarkFlow DytanRegisterAlias DytanTagIndex
open DytanTagPruning LinkedList Runs

variable {ws : WordSize} {N : Nat} {r last : MemRecord ws}
  {records rest done final : List (MemRecord ws)} {a : Addr ws}

/-! ## Address by address -/

/-- The records of an address. -/
def recordsAt (records : List (MemRecord ws)) (a : Addr ws) : List (MemRecord ws) :=
  records.filter fun r => r.memAddress = a

/-- Their flags. -/
def flagsAt (records : List (MemRecord ws)) (a : Addr ws) : List Bool :=
  (recordsAt records a).map MemRecord.isCleared

theorem mem_recordsAt : r ∈ recordsAt records a ↔ r ∈ records ∧ r.memAddress = a := by
  rw [recordsAt, List.mem_filter, decide_eq_true_eq]

theorem recordsAt_ne_nil : recordsAt records a ≠ [] ↔ ∃ r ∈ records, r.memAddress = a := by
  constructor
  · intro hne
    obtain ⟨r, hr⟩ := List.exists_mem_of_ne_nil _ hne
    exact ⟨r, mem_recordsAt.mp hr⟩
  · rintro ⟨r, hr⟩
    exact List.ne_nil_of_mem (mem_recordsAt.mpr hr)

theorem recordsAt_cons : recordsAt (r :: rest) a
    = if r.memAddress = a then r :: recordsAt rest a else recordsAt rest a := by
  rw [recordsAt, List.filter_cons]
  simp only [decide_eq_true_eq]
  rfl

theorem recordsAt_append (xs ys : List (MemRecord ws)) (a : Addr ws) :
    recordsAt (xs ++ ys) a = recordsAt xs a ++ recordsAt ys a := List.filter_append ..

theorem flagsAt_append (xs ys : List (MemRecord ws)) (a : Addr ws) :
    flagsAt (xs ++ ys) a = flagsAt xs a ++ flagsAt ys a := by
  rw [flagsAt, recordsAt_append, List.map_append]
  rfl

theorem liveAt_iff_flagsAt : LiveAt records a ↔ (flagsAt records a).getLast? = some false := by
  rw [flagsAt, List.getLast?_map, Option.map_eq_some_iff]
  rfl

/-- The first record that cancels `r`, and the list without it. -/
theorem exists_split (he : ∃ e ∈ rest, Cancels r e) :
    ∃ mid e after, rest = mid ++ e :: after ∧ Cancels r e ∧ (∀ x ∈ mid, ¬ Cancels r x)
      ∧ rest.eraseP (fun e => Cancels r e) = mid ++ after := by
  obtain ⟨e, hmem, hc⟩ := he
  obtain ⟨e', mid, after, hmid, hc', hrest, herase⟩ :=
    List.exists_of_eraseP hmem (p := fun e => decide (Cancels r e)) (decide_eq_true hc)
  exact ⟨mid, e', after, hrest, of_decide_eq_true hc',
    fun x hx hcx => hmid x hx (decide_eq_true hcx), herase⟩

/-- A live record goes with the first one that cancels it. -/
theorem prune_split {mid after : List (MemRecord ws)} {e : MemRecord ws}
    (hlive : r.isCleared = false) (hc : Cancels r e) (hmid : ∀ x ∈ mid, ¬ Cancels r x) :
    prune (r :: (mid ++ e :: after)) = prune (mid ++ after) := by
  have hfirst : (e :: after).eraseP (fun e => Cancels r e) = after :=
    List.eraseP_cons_of_pos (decide_eq_true hc)
  rw [prune_cancelled hlive ⟨e, List.mem_append_right _ List.mem_cons_self, hc⟩,
    List.eraseP_append_right, hfirst]
  intro x hx
  rw [decide_eq_true_eq]
  exact hmid x hx

/-- **Induction along pruning**: nothing, a cleared record, a live record with
    the first one that cancels it, or a live record that stays. -/
theorem prune_induction {P : List (MemRecord ws) → Prop} (nil : P [])
    (cleared : ∀ r rest, r.isCleared = true → P rest → P (r :: rest))
    (cancelled : ∀ r mid e after, r.isCleared = false → Cancels r e →
      (∀ x ∈ mid, ¬ Cancels r x) → P (mid ++ after) → P (r :: (mid ++ e :: after)))
    (kept : ∀ r rest, r.isCleared = false → (∀ e ∈ rest, ¬ Cancels r e) → P rest → P (r :: rest))
    (records : List (MemRecord ws)) : P records := by
  induction records using prune.induct with
  | case1 => exact nil
  | case2 r rest hc ih => exact cleared r rest hc ih
  | case3 r rest hc he ih =>
      obtain ⟨mid, e, after, rfl, hce, hmid, herase⟩ := exists_split he
      rw [herase] at ih
      exact cancelled r mid e after (Bool.eq_false_iff.mpr hc) hce hmid ih
  | case4 r rest hc he ih =>
      exact kept r rest (Bool.eq_false_iff.mpr hc) (fun e hmem hce => he ⟨e, hmem, hce⟩) ih

/-- Pruning is done address by address. -/
theorem recordsAt_prune (records : List (MemRecord ws)) (a : Addr ws) :
    recordsAt (prune records) a = prune (recordsAt records a) := by
  induction records using prune_induction with
  | nil =>
      rw [prune]
      exact (prune.eq_1).symm
  | cleared r rest hc ih =>
      rw [prune_cleared hc, recordsAt_cons]
      split
      · rw [prune_cleared hc]
        exact ih
      · exact ih
  | cancelled r mid e after hlive hce hmid ih =>
      rw [recordsAt_append] at ih
      rw [prune_split hlive hce hmid, ih, recordsAt_cons, recordsAt_append, recordsAt_cons, hce.1]
      split
      · rw [prune_split hlive hce fun x hx => hmid x (mem_recordsAt.mp hx).1]
      · rfl
  | kept r rest hlive hnot ih =>
      rw [prune_kept hlive hnot, recordsAt_cons, recordsAt_cons, ih]
      split
      · rw [prune_kept hlive fun e hmem => hnot e (mem_recordsAt.mp hmem).1]
      · rfl

/-- Only live records are left. -/
theorem live_of_mem_prune (h : r ∈ prune records) : r.isCleared = false := by
  induction records using prune_induction with
  | nil =>
      rw [prune] at h
      cases h
  | cleared r' rest hc ih =>
      rw [prune_cleared hc] at h
      exact ih h
  | cancelled r' mid e after hlive hce hmid ih =>
      rw [prune_split hlive hce hmid] at h
      exact ih h
  | kept r' rest hlive hnot ih =>
      rw [prune_kept hlive hnot] at h
      rcases List.mem_cons.mp h with rfl | h
      · exact hlive
      · exact ih h

/-! ## Open records -/

/-- How many records are open behind these flags, if `n` are before them: a live
    one is opened, a cleared one closes one. -/
def opened : Nat → List Bool → Nat
  | n, [] => n
  | n, false :: flags => opened (n + 1) flags
  | n, true :: flags => opened (n - 1) flags

variable {flags : List Bool} {n : Nat}

theorem opened_append (n : Nat) (xs ys : List Bool) :
    opened n (xs ++ ys) = opened (opened n xs) ys := by
  induction xs generalizing n with
  | nil => rfl
  | cons x xs ih =>
      cases x with
      | false => exact ih (n + 1)
      | true => exact ih (n - 1)

theorem opened_live (h : ∀ x ∈ flags, x = false) (n : Nat) :
    opened n flags = n + flags.length := by
  induction flags generalizing n with
  | nil => rfl
  | cons x flags ih =>
      obtain ⟨rfl, hrest⟩ := List.forall_mem_cons.mp h
      rw [opened, ih hrest, List.length_cons, Nat.add_assoc, Nat.add_comm 1]

theorem opened_of_last (h : flags.getLast? = some false) (n : Nat) : 0 < opened n flags := by
  obtain ⟨front, rfl⟩ := List.getLast?_eq_some_iff.mp h
  rw [opened_append]
  exact Nat.succ_pos _

/-- The records are of one address. -/
def OneAddress (records : List (MemRecord ws)) : Prop :=
  ∀ r ∈ records, ∀ e ∈ records, e.memAddress = r.memAddress

theorem oneAddress_recordsAt (records : List (MemRecord ws)) (a : Addr ws) :
    OneAddress (recordsAt records a) := fun _ hr _ he =>
  (mem_recordsAt.mp he).2.trans (mem_recordsAt.mp hr).2.symm

theorem OneAddress.sublist {xs ys : List (MemRecord ws)} (h : OneAddress ys) (hs : xs.Sublist ys) :
    OneAddress xs := fun r hr e he => h r (hs.subset hr) e (hs.subset he)

/-- What does not cancel a record of the address is live. -/
theorem OneAddress.live (h : OneAddress (r :: rest)) {xs : List (MemRecord ws)}
    (hs : xs.Sublist rest) (hnot : ∀ x ∈ xs, ¬ Cancels r x) :
    ∀ x ∈ xs.map MemRecord.isCleared, x = false := by
  intro x hx
  obtain ⟨e, he, rfl⟩ := List.mem_map.mp hx
  refine Bool.eq_false_iff.mpr fun hc => hnot e he ⟨?_, hc⟩
  exact h r List.mem_cons_self e (List.mem_cons_of_mem r (hs.subset he))

/-- Of the records of one address, as many are left as are open. -/
theorem length_prune (records : List (MemRecord ws)) :
    OneAddress records → (prune records).length = opened 0 (records.map MemRecord.isCleared) := by
  induction records using prune_induction with
  | nil =>
      intro _
      rw [prune]
      rfl
  | cleared r rest hc ih =>
      intro h
      rw [prune_cleared hc, ih (h.sublist (List.sublist_cons_self r rest)), List.map_cons, hc]
      rfl
  | cancelled r mid e after hlive hce hmid ih =>
      intro h
      have hless : (mid ++ after).Sublist (mid ++ e :: after) :=
        (List.Sublist.refl mid).append (List.sublist_cons_self e after)
      have hmidlive := h.live (List.sublist_append_left mid _) hmid
      rw [prune_split hlive hce hmid, ih (h.sublist (hless.trans (List.sublist_cons_self r _))),
        List.map_append, opened_append, opened_live hmidlive, List.map_cons, hlive, List.map_append,
        opened, opened_append, opened_live hmidlive, List.map_cons, hce.2, opened,
        Nat.add_right_comm, Nat.add_sub_cancel]
  | kept r rest hlive hnot ih =>
      intro h
      rw [prune_kept hlive hnot, List.length_cons, ih (h.sublist (List.sublist_cons_self r rest)),
        List.map_cons, hlive, opened, opened_live (h.live (List.Sublist.refl rest) hnot),
        opened_live (h.live (List.Sublist.refl rest) hnot), Nat.add_right_comm]

theorem length_recordsAt_prune (nodes : List (MemRecord ws)) (a : Addr ws) :
    (recordsAt (prune nodes) a).length = opened 0 (flagsAt nodes a) := by
  rw [recordsAt_prune, length_prune _ (oneAddress_recordsAt nodes a)]
  rfl

/-- An address with an open record. -/
def Open (nodes : List (MemRecord ws)) (a : Addr ws) : Prop := 0 < opened 0 (flagsAt nodes a)

instance (nodes : List (MemRecord ws)) (a : Addr ws) : Decidable (Open nodes a) :=
  inferInstanceAs (Decidable (0 < _))

theorem open_iff {nodes : List (MemRecord ws)} :
    Open nodes a ↔ ∃ r ∈ prune nodes, r.memAddress = a := by
  rw [Open, ← length_recordsAt_prune, List.length_pos_iff, recordsAt_ne_nil]

/-! ## The last record that is left -/

/-- Where nothing cancels `r`, a record of its address stays open. -/
theorem open_of_not_cancels (hnot : ∀ e ∈ rest, ¬ Cancels r e) {x : MemRecord ws} (hx : x ∈ rest)
    (ha : x.memAddress = r.memAddress) : Open rest r.memAddress := by
  have hmem : x ∈ recordsAt rest r.memAddress := mem_recordsAt.mpr ⟨hx, ha⟩
  have hlive : ∀ c ∈ flagsAt rest r.memAddress, c = false := by
    intro c hc
    obtain ⟨e, he, rfl⟩ := List.mem_map.mp hc
    obtain ⟨he, hea⟩ := mem_recordsAt.mp he
    exact Bool.eq_false_iff.mpr fun hc => hnot e he ⟨hea, hc⟩
  rw [Open, opened_live hlive, Nat.zero_add, flagsAt, List.length_map]
  exact List.length_pos_of_mem hmem

/-- Behind the last record that is left, only addresses without an open record
    have live ones. -/
theorem prune_getLast? (nodes : List (MemRecord ws)) : ∀ z, (prune nodes).getLast? = some z →
    ∃ front back, nodes = front ++ z :: back
      ∧ ∀ x ∈ back, x.isCleared = false → ∀ y ∈ prune nodes, y.memAddress ≠ x.memAddress := by
  induction nodes using prune_induction with
  | nil =>
      intro z hz
      rw [prune] at hz
      cases hz
  | cleared r rest hc ih =>
      intro z hz
      rw [prune_cleared hc] at hz ⊢
      obtain ⟨front, back, rfl, hback⟩ := ih z hz
      exact ⟨r :: front, back, rfl, hback⟩
  | cancelled r mid e after hlive hce hmid ih =>
      intro z hz
      rw [prune_split hlive hce hmid] at hz ⊢
      obtain ⟨front, back, hsplit, hback⟩ := ih z hz
      rcases List.append_eq_append_iff.mp hsplit with ⟨behind, rfl, hafter⟩ | ⟨behind, rfl, hbehind⟩
      · exact ⟨r :: (mid ++ e :: behind), back, by simp [hafter], hback⟩
      · cases behind with
        | nil =>
            rw [List.nil_append] at hbehind
            exact ⟨r :: (front ++ [e]), back, by simp [hbehind.symm], hback⟩
        | cons z' behind =>
            obtain ⟨rfl, rfl⟩ := List.cons.inj hbehind
            refine ⟨r :: front, behind ++ e :: after, by simp, fun x hx hxlive => ?_⟩
            rcases List.mem_append.mp hx with hx | hx
            · exact hback x (List.mem_append_left _ hx) hxlive
            rcases List.mem_cons.mp hx with rfl | hx
            · exact absurd (hce.2.symm.trans hxlive) Bool.false_ne_true.symm
            · exact hback x (List.mem_append_right _ hx) hxlive
  | kept r rest hlive hnot ih =>
      intro z hz
      rw [prune_kept hlive hnot] at hz ⊢
      -- another record of the address of `r` would be left behind it
      have hopen : ∀ x ∈ rest, x.memAddress = r.memAddress →
          ∃ y ∈ prune rest, y.memAddress = r.memAddress := fun x hx ha =>
        open_iff.mp (open_of_not_cancels hnot hx ha)
      rcases List.eq_nil_or_concat' (prune rest) with hnil | ⟨left, z', hleft⟩
      · rw [hnil, List.getLast?_singleton, Option.some.injEq] at hz
        refine ⟨[], rest, by rw [hz]; rfl, fun x hx _ y hy heq => ?_⟩
        rw [hnil, List.mem_singleton] at hy
        obtain ⟨y', hy', -⟩ := hopen x hx (heq.symm.trans (congrArg _ hy))
        rw [hnil] at hy'
        cases hy'
      · have hlast : (prune rest).getLast? = some z := by
          rw [hleft, ← List.cons_append, List.getLast?_concat] at hz
          rw [hleft, List.getLast?_concat, hz]
        obtain ⟨front, back, hsplit, hback⟩ := ih z hlast
        refine ⟨r :: front, back, congrArg _ hsplit, fun x hx hxlive y hy heq => ?_⟩
        rcases List.mem_cons.mp hy with rfl | hy
        · have hmem : x ∈ rest := hsplit ▸ List.mem_append_right _ (List.mem_cons_of_mem _ hx)
          obtain ⟨y', hy', ha⟩ := hopen x hmem heq.symm
          exact hback x hx hxlive y' hy' (ha.trans heq)
        · exact hback x hx hxlive y hy heq

/-- The last live record of an address with an open one. -/
def lastOpen (nodes : List (MemRecord ws)) : Option (MemRecord ws) :=
  (nodes.filter fun r => !r.isCleared && decide (Open nodes r.memAddress)).getLast?

/-- It is the last one that is left. -/
theorem getLast?_prune (nodes : List (MemRecord ws)) : (prune nodes).getLast? = lastOpen nodes := by
  have hsel : ∀ r : MemRecord ws, (!r.isCleared && decide (Open nodes r.memAddress)) = true
      ↔ r.isCleared = false ∧ ∃ y ∈ prune nodes, y.memAddress = r.memAddress := fun r => by
    rw [Bool.and_eq_true, Bool.not_eq_true', decide_eq_true_eq, open_iff]
  cases hlast : (prune nodes).getLast? with
  | none =>
      have hnil : prune nodes = [] := List.getLast?_eq_none_iff.mp hlast
      refine (List.getLast?_eq_none_iff.mpr (List.filter_eq_nil_iff.mpr fun r _ hr => ?_)).symm
      obtain ⟨y, hy, -⟩ := ((hsel r).mp hr).2
      rw [hnil] at hy
      exact nomatch hy
  | some z =>
      obtain ⟨front, back, hsplit, hback⟩ := prune_getLast? nodes z hlast
      have hz : z ∈ prune nodes := List.mem_of_getLast? hlast
      have hfilter : ∀ q : MemRecord ws → Bool, q z = true → (∀ x ∈ back, ¬ q x = true) →
          (nodes.filter q).getLast? = some z := by
        intro q hq hnone
        rw [hsplit, List.filter_append, List.filter_cons_of_pos hq, List.filter_eq_nil_iff.mpr hnone,
          List.getLast?_concat]
      refine (hfilter _ ((hsel z).mpr ⟨live_of_mem_prune hz, z, hz, rfl⟩) fun x hx hxsel => ?_).symm
      obtain ⟨hxlive, y, hy, ha⟩ := (hsel x).mp hxsel
      exact hback x hx hxlive y hy ha

/-! ## What `SetTaintForMemory` builds -/

/-- Flags that start live, no two cleared ones in a row. -/
structure Recorded (flags : List Bool) : Prop where
  head : flags.head? ≠ some true
  chain : flags.IsChain fun x y => x = false ∨ y = false

theorem recorded_nil : Recorded [] := ⟨nofun, .nil⟩

/-- Live records may be appended at any time. -/
theorem Recorded.append_live {flags new : List Bool} (h : Recorded flags)
    (hnew : ∀ x ∈ new, x = false) : Recorded (flags ++ new) where
  head := by
    rw [List.head?_append]
    cases hhead : flags.head? with
    | some x =>
        rw [Option.some_or, ← hhead]
        exact h.head
    | none =>
        rw [Option.none_or]
        exact fun htrue => nomatch (hnew _ (List.mem_of_mem_head? htrue))
  chain := by
    refine List.isChain_append.mpr ⟨h.chain, ?_, fun x _ y hy =>
      Or.inr (hnew y (List.mem_of_mem_head? hy))⟩
    exact List.Pairwise.isChain (List.pairwise_iff_forall_sublist.mpr fun {x y} hs =>
      Or.inl (hnew x (hs.subset List.mem_cons_self)))

/-- A cleared one behind a live one. -/
theorem Recorded.append_cleared {flags : List Bool} (h : Recorded flags)
    (hlast : flags.getLast? = some false) : Recorded (flags ++ [true]) where
  head := by
    rw [List.head?_append]
    cases hhead : flags.head? with
    | some x =>
        rw [Option.some_or, ← hhead]
        exact h.head
    | none =>
        rw [List.head?_eq_none_iff] at hhead
        rw [hhead] at hlast
        exact nomatch hlast
  chain := by
    refine List.isChain_append.mpr ⟨h.chain, .singleton _, fun x hx _ _ => Or.inl ?_⟩
    exact (Option.some.inj (hlast.symm.trans hx)).symm

/-- One more live flag, if the last one is live. -/
def openEnd (flags : List Bool) : Nat := if flags.getLast? = some false then 1 else 0

theorem openEnd_le_opened (flags : List Bool) : openEnd flags ≤ opened 0 flags := by
  rw [openEnd]
  split
  case isTrue hlast => exact opened_of_last hlast 0
  case isFalse => exact Nat.zero_le _

theorem openEnd_cons_cons (x y : Bool) (flags : List Bool) :
    openEnd (x :: y :: flags) = openEnd (y :: flags) := by
  rw [openEnd, List.getLast?_cons_cons]
  rfl

/-- Behind a cleared flag stands a live one, or none. -/
theorem Recorded.behind_cleared {flags : List Bool} (h : Recorded (false :: true :: flags)) :
    Recorded flags where
  head := by
    intro hhead
    obtain ⟨rest, rfl⟩ := List.head?_eq_some_iff.mp hhead
    exact absurd (List.isChain_cons_cons.mp h.chain.of_cons).1 (by decide)
  chain := h.chain.of_cons.of_cons

/-- Every cleared flag closes a live one of the same list. -/
theorem opened_recorded : ∀ (flags : List Bool), Recorded flags → ∀ n,
    opened n flags = n + opened 0 flags
  | [], _, _ => rfl
  | [false], _, n => congrArg (n + ·) (Nat.zero_add 1).symm
  | true :: _, h, _ => absurd rfl h.head
  | false :: false :: flags, h, n => by
      have htail := opened_recorded (false :: flags) ⟨nofun, h.chain.of_cons⟩
      show opened (n + 1) (false :: flags) = n + opened (0 + 1) (false :: flags)
      rw [htail (n + 1), htail (0 + 1), Nat.zero_add, Nat.add_assoc]
  | false :: true :: flags, h, n => opened_recorded flags h.behind_cleared n

/-- Only the last record is open where live and cleared ones alternate. -/
theorem opened_eq_openEnd_iff : ∀ (flags : List Bool), Recorded flags →
    (opened 0 flags = openEnd flags ↔ flags.IsChain (· ≠ ·))
  | [], _ => iff_of_true rfl .nil
  | [false], _ => iff_of_true rfl (.singleton _)
  | true :: _, h => absurd rfl h.head
  | false :: false :: flags, h => by
      refine iff_of_false (fun heq => ?_) fun halt => (List.isChain_cons_cons.mp halt).1 rfl
      rw [openEnd_cons_cons, opened, opened_recorded (false :: flags) ⟨nofun, h.chain.of_cons⟩]
        at heq
      have hle := openEnd_le_opened (false :: flags)
      omega
  | false :: true :: flags, h => by
      have hend : openEnd (false :: true :: flags) = openEnd flags := by
        cases flags with
        | nil => rfl
        | cons x rest => rw [openEnd_cons_cons, openEnd_cons_cons]
      have hchain : (false :: true :: flags).IsChain (· ≠ ·) ↔ flags.IsChain (· ≠ ·) := by
        refine ⟨fun halt => halt.of_cons.of_cons, fun halt =>
          List.isChain_cons_cons.mpr ⟨Bool.false_ne_true, ?_⟩⟩
        cases flags with
        | nil => exact .singleton _
        | cons x rest =>
            have hx : x = false := Bool.eq_false_iff.mpr fun hx => h.behind_cleared.head (hx ▸ rfl)
            exact List.isChain_cons_cons.mpr
              ⟨fun heq => Bool.false_ne_true.symm (heq.trans hx), halt⟩
      rw [hend, hchain, ← opened_eq_openEnd_iff flags h.behind_cleared]
      rfl

/-- Every address has flags as `SetTaintForMemory` leaves them. -/
def WellRecorded (records : List (MemRecord ws)) : Prop := ∀ a, Recorded (flagsAt records a)

/-- The tainting branch. -/
theorem WellRecorded.tagTaint (h : WellRecorded records) (start size : Addr ws) :
    WellRecorded (tagTaint start size records) := by
  intro a
  rw [DytanTaintState.tagTaint, flagsAt_append]
  refine (h a).append_live fun x hx => ?_
  obtain ⟨e, he, rfl⟩ := List.mem_map.mp hx
  obtain ⟨p, -, rfl⟩ := List.mem_map.mp (mem_recordsAt.mp he).1
  rfl

/-- A cleared record for a live address. -/
theorem WellRecorded.append_cleared (h : WellRecorded records) {a : Addr ws}
    (hlive : LiveAt records a) : WellRecorded (records ++ [⟨a, true⟩]) := by
  intro b
  rw [flagsAt_append, flagsAt, flagsAt, recordsAt_cons]
  by_cases hab : a = b
  · rw [if_pos hab]
    exact (h b).append_cleared (liveAt_iff_flagsAt.mp (hab ▸ hlive))
  · rw [if_neg hab]
    exact (List.append_nil _).symm ▸ h b

/-- The clearing branch, behind the records `done`. -/
theorem WellRecorded.tagClear (done : List (MemRecord ws)) (start size : Addr ws)
    (h : WellRecorded (done ++ records)) :
    WellRecorded (done ++ tagClear start size records) := by
  induction records using tagClear.induct start size generalizing done with
  | case1 =>
      rw [DytanTaintState.tagClear]
      exact h
  | case2 r rest hc ih =>
      rw [DytanTaintState.tagClear, if_pos hc, List.append_cons]
      refine ih _ ?_
      rw [← List.append_assoc, ← List.append_cons]
      refine h.append_cleared ?_
      have hflag := hc.2
      rw [lastFlag_eq] at hflag
      rw [LiveAt]
      rw [lastRecord_append, lastRecord_cons, if_pos rfl]
      cases hrest : lastRecord rest r.memAddress with
      | none => exact ⟨r, rfl, hc.1.2.2⟩
      | some e =>
          rw [hrest] at hflag
          exact ⟨e, rfl, hflag⟩
  | case3 r rest hc ih =>
      rw [DytanTaintState.tagClear, if_neg hc, List.append_cons]
      exact ih _ (List.append_cons .. ▸ h)

/-! ## When pruning is right -/

/-- The list has, once each and uncleared, the addresses whose last record was
    not cleared. -/
structure PrunedRight (records final : List (MemRecord ws)) : Prop where
  once : (final.map MemRecord.memAddress).Nodup
  live : ∀ r ∈ final, r.isCleared = false
  exact : ∀ a, (∃ r ∈ final, r.memAddress = a) ↔ LiveAt records a

theorem count_memAddress (records : List (MemRecord ws)) (a : Addr ws) :
    (records.map MemRecord.memAddress).count a = (recordsAt records a).length := by
  rw [List.count_eq_countP, List.countP_map, recordsAt, ← List.countP_eq_length_filter]
  refine List.countP_congr fun r _ => ?_
  simp

theorem length_pos_iff_liveAt {k : Nat} (h : k = openEnd (flagsAt records a)) :
    k ≤ 1 ∧ (0 < k ↔ LiveAt records a) := by
  rw [h, openEnd, liveAt_iff_flagsAt]
  split
  case isTrue hlast => exact ⟨Nat.le_refl 1, iff_of_true Nat.one_pos hlast⟩
  case isFalse hlast => exact ⟨Nat.zero_le 1, iff_of_false (Nat.lt_irrefl 0) hlast⟩

/-- One record at every live address, none at the others. -/
theorem prunedRight_iff (hlive : ∀ r ∈ final, r.isCleared = false) :
    PrunedRight records final
      ↔ ∀ a, (recordsAt final a).length = openEnd (flagsAt records a) := by
  constructor
  · intro h a
    have honce : (recordsAt final a).length ≤ 1 := by
      rw [← count_memAddress]
      exact List.nodup_iff_count_le_one.mp h.once a
    have hpos : 0 < (recordsAt final a).length ↔ LiveAt records a := by
      rw [List.length_pos_iff, recordsAt_ne_nil]
      exact h.exact a
    rw [liveAt_iff_flagsAt] at hpos
    rw [openEnd]
    split
    case isTrue hlast => exact Nat.le_antisymm honce (hpos.mpr hlast)
    case isFalse hlast => exact Nat.eq_zero_of_not_pos fun hlt => hlast (hpos.mp hlt)
  · intro h
    refine ⟨List.nodup_iff_count_le_one.mpr fun a => ?_, hlive, fun a => ?_⟩
    · rw [count_memAddress]
      exact (length_pos_iff_liveAt (h a)).1
    · rw [← recordsAt_ne_nil, ← List.length_pos_iff]
      exact (length_pos_iff_liveAt (h a)).2

/-- What is in the list after the loop: the first record stays, and the last
    node that is left ends the list. -/
def pruned (last : MemRecord ws) : List (MemRecord ws) → List (MemRecord ws)
  | [] => []
  | head :: rest => (head :: prune (rest ++ [last])).dropLast

/-- The node that ends the list then: the last live one of an address with an
    open record, or the first. -/
def ender (last head : MemRecord ws) (rest : List (MemRecord ws)) : MemRecord ws :=
  (lastOpen (rest ++ [last])).getD head

/-- One, at the address of the record. -/
def oneAt (r : MemRecord ws) (a : Addr ws) : Nat := if r.memAddress = a then 1 else 0

/-- **When a list is pruned right.**  If the terminating node does not look
    cleared: the records alternate at every address, and the first one is alone
    at its own.  If it does: of the first record and those that are open behind
    it, the only one too many is the one that ends the list. -/
structure Prunable (last head : MemRecord ws) (rest : List (MemRecord ws)) : Prop where
  alternate : last.isCleared = false → ∀ a, (flagsAt (head :: rest) a).IsChain (· ≠ ·)
  alone : last.isCleared = false → ∀ r ∈ rest, r.memAddress ≠ head.memAddress
  cut : last.isCleared = true → ∀ a, oneAt head a + opened 0 (flagsAt (rest ++ [last]) a)
    = openEnd (flagsAt (head :: rest) a) + oneAt (ender last head rest) a

variable {head : MemRecord ws}

theorem WellRecorded.head_live (h : WellRecorded (head :: rest)) : head.isCleared = false := by
  have hhead := (h head.memAddress).head
  rw [flagsAt, recordsAt_cons, if_pos rfl] at hhead
  exact Bool.eq_false_iff.mpr fun hc => hhead (congrArg some hc)

theorem live_of_mem_pruned (h : head.isCleared = false) (hr : r ∈ pruned last (head :: rest)) :
    r.isCleared = false := by
  rcases List.mem_cons.mp (List.mem_of_mem_dropLast hr) with rfl | hr
  · exact h
  · exact live_of_mem_prune hr

theorem length_recordsAt_cons (r : MemRecord ws) (rest : List (MemRecord ws)) (a : Addr ws) :
    (recordsAt (r :: rest) a).length = oneAt r a + (recordsAt rest a).length := by
  rw [recordsAt_cons, oneAt]
  split
  · rw [List.length_cons, Nat.add_comm]
  · rw [Nat.zero_add]

/-- What is left, with the node that ends the list, is the first record and the
    open ones. -/
theorem length_pruned (last head : MemRecord ws) (rest : List (MemRecord ws)) (a : Addr ws) :
    (recordsAt (pruned last (head :: rest)) a).length + oneAt (ender last head rest) a
      = oneAt head a + opened 0 (flagsAt (rest ++ [last]) a) := by
  have hlast : (head :: prune (rest ++ [last])).getLast? = some (ender last head rest) := by
    rw [List.getLast?_cons, getLast?_prune]
    rfl
  obtain ⟨front, hfront⟩ := List.getLast?_eq_some_iff.mp hlast
  rw [← length_recordsAt_prune, ← length_recordsAt_cons, pruned, hfront, List.dropLast_concat,
    recordsAt_append, List.length_append, length_recordsAt_cons]
  rfl

theorem prunedRight_iff_open (hhead : head.isCleared = false) :
    PrunedRight (head :: rest) (pruned last (head :: rest))
      ↔ ∀ a, oneAt head a + opened 0 (flagsAt (rest ++ [last]) a)
          = openEnd (flagsAt (head :: rest) a) + oneAt (ender last head rest) a := by
  rw [prunedRight_iff fun r hr => live_of_mem_pruned hhead hr]
  refine forall_congr' fun a => ?_
  rw [← length_pruned]
  exact Nat.add_right_cancel_iff.symm

/-! ### A terminating node that does not look cleared -/

theorem opened_flagsAt_live (h : last.isCleared = false) (rest : List (MemRecord ws)) (a : Addr ws) :
    opened 0 (flagsAt (rest ++ [last]) a) = opened 0 (flagsAt rest a) + oneAt last a := by
  rw [flagsAt_append, opened_append, flagsAt, flagsAt, recordsAt_cons, oneAt]
  split
  · rw [List.map_cons, h]
    rfl
  · rfl

/-- It ends the list itself. -/
theorem ender_of_live (h : last.isCleared = false) (head : MemRecord ws)
    (rest : List (MemRecord ws)) : ender last head rest = last := by
  have hopen : Open (rest ++ [last]) last.memAddress := by
    rw [Open, opened_flagsAt_live h, oneAt, if_pos rfl]
    exact Nat.succ_pos _
  rw [ender, lastOpen, List.filter_append, List.filter_cons_of_pos, List.filter_nil,
    List.getLast?_concat, Option.getD_some]
  rw [h, decide_eq_true hopen]
  rfl

/-- Nothing is too many at the address of the first record if it is alone. -/
theorem one_add_opened_iff (flags : List Bool) :
    1 + opened 0 flags = openEnd (false :: flags) ↔ flags = [] := by
  cases flags with
  | nil => exact iff_of_true rfl rfl
  | cons x rest =>
      refine iff_of_false (fun heq => ?_) (List.cons_ne_nil x rest)
      rw [openEnd_cons_cons] at heq
      have hle := openEnd_le_opened (x :: rest)
      omega

theorem flagsAt_cons_of_ne (ha : head.memAddress ≠ a) :
    flagsAt (head :: rest) a = flagsAt rest a := by
  rw [flagsAt, recordsAt_cons, if_neg ha]
  rfl

theorem flagsAt_eq_nil : flagsAt rest a = [] ↔ ∀ r ∈ rest, r.memAddress ≠ a := by
  rw [flagsAt, List.map_eq_nil_iff, ← not_iff_not]
  push Not
  exact recordsAt_ne_nil

theorem WellRecorded.flagsAt_head (h : WellRecorded (head :: rest)) :
    flagsAt (head :: rest) head.memAddress = false :: flagsAt rest head.memAddress := by
  rw [flagsAt, recordsAt_cons, if_pos rfl, List.map_cons, h.head_live]
  rfl

/-- Address by address: the first record is alone, the others alternate. -/
theorem opened_iff_alternate (hrec : WellRecorded (head :: rest)) :
    (∀ a, oneAt head a + opened 0 (flagsAt rest a) = openEnd (flagsAt (head :: rest) a))
      ↔ (∀ a, (flagsAt (head :: rest) a).IsChain (· ≠ ·))
        ∧ ∀ r ∈ rest, r.memAddress ≠ head.memAddress := by
  have hone : ∀ a, head.memAddress ≠ a →
      (oneAt head a + opened 0 (flagsAt rest a) = openEnd (flagsAt (head :: rest) a)
        ↔ (flagsAt (head :: rest) a).IsChain (· ≠ ·)) := fun a ha => by
    rw [oneAt, if_neg ha, Nat.zero_add, ← opened_eq_openEnd_iff _ (hrec a), flagsAt_cons_of_ne ha]
  have hhead : oneAt head head.memAddress + opened 0 (flagsAt rest head.memAddress)
      = openEnd (flagsAt (head :: rest) head.memAddress)
        ↔ ∀ r ∈ rest, r.memAddress ≠ head.memAddress := by
    rw [oneAt, if_pos rfl, hrec.flagsAt_head, one_add_opened_iff, flagsAt_eq_nil]
  constructor
  · intro h
    have halone := hhead.mp (h head.memAddress)
    refine ⟨fun a => ?_, halone⟩
    by_cases ha : head.memAddress = a
    · rw [← ha, hrec.flagsAt_head, flagsAt_eq_nil.mpr halone]
      exact .singleton _
    · exact (hone a ha).mp (h a)
  · rintro ⟨halt, halone⟩ a
    by_cases ha : head.memAddress = a
    · rw [← ha]
      exact hhead.mpr halone
    · exact (hone a ha).mpr (halt a)

theorem prunedRight_iff_of_head (hrec : WellRecorded (head :: rest)) :
    PrunedRight (head :: rest) (pruned last (head :: rest)) ↔ Prunable last head rest := by
  rw [prunedRight_iff_open hrec.head_live]
  cases hlast : last.isCleared with
  | true =>
      have hne : last.isCleared ≠ false := Bool.ne_false_iff.mpr hlast
      exact ⟨fun h => ⟨fun hc => absurd hc hne, fun hc => absurd hc hne, fun _ => h⟩,
        fun h => h.cut hlast⟩
  | false =>
      have hopen : (∀ a, oneAt head a + opened 0 (flagsAt (rest ++ [last]) a)
            = openEnd (flagsAt (head :: rest) a) + oneAt (ender last head rest) a)
          ↔ ∀ a, oneAt head a + opened 0 (flagsAt rest a) = openEnd (flagsAt (head :: rest) a) := by
        refine forall_congr' fun a => ?_
        rw [ender_of_live hlast, opened_flagsAt_live hlast, ← Nat.add_assoc]
        exact Nat.add_right_cancel_iff
      have hne : last.isCleared ≠ true := Bool.eq_false_iff.mp hlast
      rw [hopen, opened_iff_alternate hrec]
      exact ⟨fun h => ⟨fun _ => h.1, fun _ => h.2, fun hc => absurd hc hne⟩,
        fun h => ⟨h.alternate hlast, h.alone hlast⟩⟩

/-! ### No address recorded live twice -/

/-- Some address has two live records. -/
def Renewed (records : List (MemRecord ws)) : Prop := ∃ a, 2 ≤ (flagsAt records a).count false

/-- Without a second live record: nothing, or a live record, or one and the
    cleared one behind it. -/
theorem flags_cases {flags : List Bool} (h : Recorded flags) (hone : ¬ 2 ≤ flags.count false) :
    flags = [] ∨ flags = [false] ∨ flags = [false, true] := by
  match flags, h with
  | [], _ => exact Or.inl rfl
  | [false], _ => exact Or.inr (Or.inl rfl)
  | true :: _, h => exact absurd rfl h.head
  | false :: false :: flags, _ =>
      refine absurd ?_ hone
      rw [List.count_cons_self, List.count_cons_self]
      omega
  | [false, true], _ => exact Or.inr (Or.inr rfl)
  | false :: true :: true :: flags, h =>
      exact absurd (List.isChain_cons_cons.mp h.chain.of_cons).1 (by decide)
  | false :: true :: false :: flags, _ =>
      refine absurd ?_ hone
      rw [List.count_cons_self, List.count_cons_of_ne Bool.false_ne_true.symm, List.count_cons_self]
      omega

theorem alternating_of_once (hrec : WellRecorded (head :: rest)) (hone : ¬ Renewed (head :: rest))
    (a : Addr ws) : (flagsAt (head :: rest) a).IsChain (· ≠ ·) := by
  rcases flags_cases (hrec a) fun hle => hone ⟨a, hle⟩ with hf | hf | hf
  · rw [hf]
    exact .nil
  · rw [hf]
    exact .singleton _
  · rw [hf]
    exact List.isChain_cons_cons.mpr ⟨Bool.false_ne_true, .singleton _⟩

/-- Nothing is open behind the first record, at its address. -/
theorem opened_head_of_once (hrec : WellRecorded (head :: rest)) (hone : ¬ Renewed (head :: rest)) :
    opened 0 (flagsAt rest head.memAddress) = 0 := by
  have hcases := flags_cases (hrec head.memAddress) fun hle => hone ⟨_, hle⟩
  rw [hrec.flagsAt_head] at hcases
  rcases hcases with hf | hf | hf
  · exact nomatch hf
  · rw [(List.cons.inj hf).2]
    rfl
  · rw [(List.cons.inj hf).2]
    rfl

/-- A terminating node that looks cleared opens nothing. -/
theorem opened_flagsAt_cleared (h : last.isCleared = true) (rest : List (MemRecord ws)) (a : Addr ws) :
    opened 0 (flagsAt (rest ++ [last]) a) ≤ opened 0 (flagsAt rest a) := by
  rw [flagsAt_append, opened_append, flagsAt, flagsAt, recordsAt_cons]
  split
  · rw [List.map_cons, h]
    exact Nat.sub_le _ 1
  · exact Nat.le_refl _

/-- An open record is left, so the list ends with one. -/
theorem ender_of_open (h : Open (rest ++ [last]) a) (head : MemRecord ws) :
    Open (rest ++ [last]) (ender last head rest).memAddress := by
  obtain ⟨y, hy, -⟩ := open_iff.mp h
  obtain ⟨front, z, hfront⟩ :=
    (List.eq_nil_or_concat' (prune (rest ++ [last]))).resolve_left (List.ne_nil_of_mem hy)
  have hz : lastOpen (rest ++ [last]) = some z := by
    rw [← getLast?_prune, hfront, List.getLast?_concat]
  rw [ender, hz, Option.getD_some]
  exact open_iff.mpr ⟨z, hfront ▸ List.mem_append_right front List.mem_cons_self, rfl⟩

theorem ender_of_not_open (h : ∀ a, ¬ Open (rest ++ [last]) a) (head : MemRecord ws) :
    ender last head rest = head := by
  have hnone : lastOpen (rest ++ [last]) = none := by
    rw [← getLast?_prune, List.getLast?_eq_none_iff, List.eq_nil_iff_forall_not_mem]
    exact fun y hy => h y.memAddress (open_iff.mpr ⟨y, hy, rfl⟩)
  rw [ender, hnone]
  rfl

theorem openEnd_eq_zero_iff : openEnd (flagsAt records a) = 0 ↔ ¬ LiveAt records a := by
  rw [openEnd, liveAt_iff_flagsAt]
  split
  case isTrue hlast => exact iff_of_false Nat.one_ne_zero (not_not_intro hlast)
  case isFalse hlast => exact iff_of_true rfl hlast

/-- The one record too many is the first one: no address is live. -/
theorem cut_iff_dead (hrec : WellRecorded (head :: rest)) (hlast : last.isCleared = true)
    (hone : ¬ Renewed (head :: rest)) :
    (∀ a, oneAt head a + opened 0 (flagsAt (rest ++ [last]) a)
        = openEnd (flagsAt (head :: rest) a) + oneAt (ender last head rest) a)
      ↔ ∀ a, ¬ LiveAt (head :: rest) a := by
  have hle := opened_flagsAt_cleared hlast rest
  have hhead := opened_head_of_once hrec hone
  have hopened : ∀ a, head.memAddress ≠ a →
      opened 0 (flagsAt rest a) = openEnd (flagsAt (head :: rest) a) := fun a ha => by
    rw [← flagsAt_cons_of_ne ha]
    exact (opened_eq_openEnd_iff _ (hrec a)).mpr (alternating_of_once hrec hone a)
  constructor
  · intro h
    -- the list ends with a record of the first one's address
    have hender : (ender last head rest).memAddress = head.memAddress := by
      by_contra hne
      have heq := h (ender last head rest).memAddress
      rw [oneAt, if_neg (Ne.symm hne), oneAt, if_pos rfl, ← hopened _ (Ne.symm hne)] at heq
      have hless := hle (ender last head rest).memAddress
      omega
    intro a
    rw [← openEnd_eq_zero_iff]
    have heq := h a
    have hless := hle a
    by_cases ha : head.memAddress = a
    · rw [oneAt, if_pos ha, oneAt, if_pos (hender.trans ha)] at heq
      rw [← ha] at heq hless ⊢
      omega
    · rw [oneAt, if_neg ha, oneAt, hender, if_neg ha] at heq
      by_contra hne
      have hopen : Open (rest ++ [last]) a := Nat.pos_of_ne_zero (by omega)
      have hmore := ender_of_open hopen head
      rw [hender, Open] at hmore
      have hnone := hle head.memAddress
      omega
  · intro hdead
    have hzero : ∀ a, opened 0 (flagsAt (rest ++ [last]) a) = 0 := by
      intro a
      refine Nat.le_zero.mp ((hle a).trans (Nat.le_zero.mpr ?_))
      by_cases ha : head.memAddress = a
      · rw [← ha]
        exact hhead
      · rw [hopened a ha]
        exact openEnd_eq_zero_iff.mpr (hdead a)
    intro a
    rw [ender_of_not_open (fun b hb => absurd (hzero b) (Nat.ne_of_gt hb)), hzero,
      openEnd_eq_zero_iff.mpr (hdead a), Nat.add_comm]

theorem prunable_iff_of_once (hrec : WellRecorded (head :: rest)) (hone : ¬ Renewed (head :: rest)) :
    Prunable last head rest
      ↔ (last.isCleared = false → ∀ r ∈ rest, r.memAddress ≠ head.memAddress)
        ∧ (last.isCleared = true → ∀ a, ¬ LiveAt (head :: rest) a) := by
  constructor
  · intro h
    exact ⟨h.alone, fun hlast => (cut_iff_dead hrec hlast hone).mp (h.cut hlast)⟩
  · rintro ⟨halone, hdead⟩
    exact ⟨fun _ => alternating_of_once hrec hone, halone, fun hlast =>
      (cut_iff_dead hrec hlast hone).mpr (hdead hlast)⟩

/-! ## Calls -/

theorem toInt32_of_lt {x : Addr ws} (h : x.toNat < 2 ^ 31) : toInt32 x = x.toNat := by
  have hmod : x.toNat % 2 ^ 32 = x.toNat := Nat.mod_eq_of_lt (by omega)
  rw [toInt32, BitVec.toInt_eq_toNat_of_lt]
  · rw [BitVec.toNat_setWidth, hmod]
  · rw [BitVec.toNat_setWidth, hmod]
    omega

/-- The records the tainting branch appends. -/
def newRecords (start size : Addr ws) (records : List (MemRecord ws)) : List (MemRecord ws) :=
  ((addrRange start size).zipIdx.filter fun p => !flagged start size records p.2).map
    fun p => ⟨p.1, false⟩

theorem newRecords_once (start size : Addr ws) (records : List (MemRecord ws)) (a : Addr ws) :
    (recordsAt (newRecords start size records) a).length ≤ 1 := by
  rw [← count_memAddress, newRecords, List.map_map]
  refine List.nodup_iff_count_le_one.mp ((addrRange_nodup start size).sublist ?_) a
  have hsub := (List.filter_sublist (p := fun p => !flagged start size records p.2)
    (l := (addrRange start size).zipIdx)).map Prod.fst
  rw [List.zipIdx_map_fst] at hsub
  exact hsub

/-- A call of fewer than 2^31 bytes appends records for addresses without
    one. -/
theorem newRecords_fresh {start size : Addr ws} (hsize : size.toNat < 2 ^ 31)
    (hr : r ∈ newRecords start size records) : recordsAt records r.memAddress = [] := by
  obtain ⟨⟨a, i⟩, hp, rfl⟩ := List.mem_map.mp hr
  obtain ⟨hmem, hflag⟩ := List.mem_filter.mp hp
  have hget := List.mk_mem_zipIdx_iff_getElem?.mp hmem
  have ha := addrRange_getElem? hget
  have hi : i < size.toNat := by
    have hlen := (List.getElem?_eq_some_iff.mp hget).1
    rw [addrRange, List.length_map, List.length_range, BitVec.toNat_add] at hlen
    have hmod := Nat.mod_le (start.toNat + size.toNat) (2 ^ ws.bits)
    omega
  have hoffset : (a - start).toNat = i := by
    have hstart := start.isLt
    have halt := a.isLt
    rw [BitVec.toNat_sub, ha]
    rw [show 2 ^ ws.bits - start.toNat + (start.toNat + i) = i + 2 ^ ws.bits by omega,
      Nat.add_mod_right, Nat.mod_eq_of_lt (by omega)]
  by_contra hne
  obtain ⟨e, he, hea⟩ := recordsAt_ne_nil.mp hne
  replace hea : e.memAddress = a := hea
  have hflagged : flagged start size records i = true := by
    refine List.any_eq_true.mpr ⟨e, he, decide_eq_true ?_⟩
    rw [hea, toInt32_of_lt hsize, toInt32_of_lt (by omega), hoffset]
    omega
  rw [hflagged] at hflag
  exact Bool.noConfusion hflag

theorem not_renewed_tagTaint {start size : Addr ws} (hsize : size.toNat < 2 ^ 31)
    (hone : ¬ Renewed records) : ¬ Renewed (tagTaint start size records) := by
  rintro ⟨a, htwo⟩
  rw [show tagTaint start size records = records ++ newRecords start size records from rfl,
    flagsAt_append, List.count_append] at htwo
  have honce := newRecords_once start size records a
  have hlen : (flagsAt (newRecords start size records) a).count false
      ≤ (recordsAt (newRecords start size records) a).length := by
    rw [← List.length_map (f := MemRecord.isCleared)]
    exact List.count_le_length
  by_cases hnew : recordsAt (newRecords start size records) a = []
  · rw [hnew, List.length_nil] at hlen
    exact hone ⟨a, by omega⟩
  · obtain ⟨r, hr, rfl⟩ := recordsAt_ne_nil.mp hnew
    have hzero : (flagsAt records r.memAddress).count false = 0 := by
      rw [flagsAt, newRecords_fresh hsize hr]
      rfl
    omega

theorem count_tagClear (start size : Addr ws) (records : List (MemRecord ws)) (a : Addr ws) :
    (flagsAt (tagClear start size records) a).count false = (flagsAt records a).count false := by
  have hcons : ∀ (r : MemRecord ws) (xs ys : List (MemRecord ws)),
      (flagsAt xs a).count false = (flagsAt ys a).count false →
        (flagsAt (r :: xs) a).count false = (flagsAt (r :: ys) a).count false := by
    intro r xs ys h
    rw [← List.singleton_append, flagsAt_append, List.count_append, h, ← List.count_append,
      ← flagsAt_append]
    rfl
  induction records using tagClear.induct start size with
  | case1 => rw [tagClear]
  | case2 r rest hc ih =>
      rw [tagClear, if_pos hc]
      refine hcons r _ _ (ih.trans ?_)
      rw [flagsAt_append, List.count_append, flagsAt, flagsAt, recordsAt_cons]
      split
      · rfl
      · rfl
  | case3 r rest hc ih =>
      rw [tagClear, if_neg hc]
      exact hcons r _ _ ih

/-- A call of `SetTaintForMemory`, with the control taint it finds. -/
structure TagCall (ws : WordSize) (N : Nat) where
  start : Addr ws
  size : Addr ws
  args : List (Bitset ws.bits)
  control : Std.ExtTreeMap (Addr ws) (Bitset ws.bits)
  args_sized : ∀ b ∈ args, Sized N b
  control_sized : ∀ (a : Addr ws) b, control[a]? = some b → Sized N b

/-- Execute a call. -/
def tagCall (c : TagCall ws N) (s : TaintState ws N) : Option (TaintState ws N) :=
  setTaintForMemory c.start c.size c.args { s with controlTaintMap := c.control }

/-- The lists of a run: built of live records and cleared ones behind them, an
    address being live twice only after a call of 2^31 bytes or more. -/
structure Built (calls : List (TagCall ws N)) (s : TaintState ws N) : Prop where
  sized : SizedState s
  indexed : Indexed s
  recorded : ∀ t < N, WellRecorded (tagRecords s.tagMemoryMap t)
  renewed : (∀ c ∈ calls, c.size.toNat < 2 ^ 31) → ∀ t < N, ¬ Renewed (tagRecords s.tagMemoryMap t)

theorem built_init : Built [] (TaintState.init ws N) := by
  have hnil : ∀ t, tagRecords (TaintState.init ws N).tagMemoryMap t = [] := fun t => by
    rw [tagRecords, show (TaintState.init ws N).tagMemoryMap[t]? = none from
      Std.ExtTreeMap.getElem?_empty]
    rfl
  refine ⟨init_sized, indexed_init, fun t _ a => ?_, fun _ t _ => ?_⟩
  · rw [hnil]
    exact recorded_nil
  · rw [hnil]
    rintro ⟨a, htwo⟩
    exact Nat.not_succ_le_zero 1 htwo

/-- One call. -/
theorem Built.step {calls : List (TagCall ws N)} {s : TaintState ws N} (h : Built calls s)
    (c : TagCall ws N) : ∃ s', tagCall c s = some s' ∧ Built (calls ++ [c]) s' := by
  obtain ⟨s', tmp, hs', -, -, ha, hk, hrec⟩ :=
    setTaintForMemory_index (sizedState_withControl h.sized c.control_sized)
      ⟨h.indexed.keys, h.indexed.empty⟩ c.start c.size c.args_sized
  refine ⟨s', hs', ⟨?_, hk, fun t ht => ?_, fun hsmall t ht => ?_⟩⟩
  · exact ha.sizedState (sizedState_withControl h.sized c.control_sized)
  · rw [hrec t ht, updatedTag]
    split
    · exact (h.recorded t ht).tagTaint c.start c.size
    · exact WellRecorded.tagClear [] c.start c.size (h.recorded t ht)
  · have hone := h.renewed (fun d hd => hsmall d (List.mem_append_left _ hd)) t ht
    rw [hrec t ht, updatedTag]
    split
    · exact not_renewed_tagTaint (hsmall c (List.mem_append_right _ List.mem_cons_self)) hone
    · rintro ⟨a, htwo⟩
      rw [count_tagClear] at htwo
      exact hone ⟨a, htwo⟩

/-- A run of calls. -/
theorem built_runs {calls : List (TagCall ws N)} {s : TaintState ws N}
    (hrun : runs tagCall calls (.init ws N) = some s) : Built calls s := by
  have hrest : ∀ (rest done : List (TagCall ws N)) (s₀ : TaintState ws N), Built done s₀ →
      runs tagCall rest s₀ = some s → Built (done ++ rest) s := by
    intro rest
    induction rest with
    | nil =>
        intro done s₀ h₀ hs
        cases hs
        rwa [List.append_nil]
    | cons c rest ih =>
        intro done s₀ h₀ hs
        obtain ⟨s₁, hs₁, h₁⟩ := h₀.step c
        rw [runs_cons, hs₁, Option.bind_some] at hs
        rw [List.append_cons]
        exact ih _ s₁ h₁ hs
  exact hrest calls [] _ built_init hrun

/-! ## The loop on the lists of a run -/

/-- The list at `p` has these records; the node that ends it has the fields of
    `last`. -/
structure IsTagList (h : MemHeap ws) (p : Nat) (ps : List Nat) (records : List (MemRecord ws))
    (last : MemRecord ws) : Prop where
  links : LinksTo h none (p :: ps)
  nodup : (p :: ps).Nodup
  data : dataOf h (p :: ps) = records ++ [last]

variable {h : MemHeap ws} {p : Nat} {ps : List Nat}

/-- The loop leaves the list `pruned`. -/
theorem pruneList_pruned (hlist : IsTagList h p ps records last) (hrec : WellRecorded records)
    {fuel : Nat} (hf : ps.length < fuel) :
    ∃ h' ps' last', pruneList fuel h p = some h'
      ∧ IsTagList h' p ps' (pruned last records) last' := by
  cases records with
  | nil =>
      obtain ⟨-, hps⟩ := List.cons.inj hlist.data
      cases List.map_eq_nil_iff.mp hps
      obtain ⟨fuel, rfl⟩ := Nat.exists_eq_succ_of_ne_zero (Nat.ne_of_gt hf)
      refine ⟨h, [], last, ?_, hlist⟩
      rw [pruneList, show (h p).next = none from hlist.links.1]
  | cons head rest =>
      obtain ⟨hhead, hrest⟩ := List.cons.inj hlist.data
      replace hhead : (h p).data = head := hhead
      replace hrest : dataOf h ps = rest ++ [last] := hrest
      have hlive : (h p).data.isCleared = false := by rw [hhead, hrec.head_live]
      have hstands : Stands h [] p ps := ⟨hlist.links, hlist.nodup⟩
      obtain ⟨h', ps', hrun, hs, hdata, hleft⟩ := pruneList_spec hstands hlive hf
      have hall : dataOf h' (p :: ps') = head :: prune (rest ++ [last]) := by
        have hsame : dataOf h' (p :: ps') = dataOf h (p :: ps') :=
          List.map_congr_left fun x _ => hdata x
        rw [hsame]
        show (h p).data :: dataOf h ps' = _
        rw [hhead, hleft, hrest]
      refine ⟨h', ps', (head :: prune (rest ++ [last])).getLast (List.cons_ne_nil _ _), hrun,
        hs.links, hs.nodup, ?_⟩
      rw [hall, pruned, List.dropLast_append_getLast]

/-- The condition on a list: there is nothing to prune, or the records are as
    `Prunable` says. -/
def PrunableList (last : MemRecord ws) (records : List (MemRecord ws)) : Prop :=
  ∀ head rest, records = head :: rest → Prunable last head rest

theorem prunableList_cons : PrunableList last (head :: rest) ↔ Prunable last head rest := by
  constructor
  · intro h
    exact h head rest rfl
  · rintro h _ _ ⟨⟩
    exact h

/-- **When the pruning loop is right**, on every list of every run of calls and
    for every terminating node. -/
theorem prunedRight_iff_prunable {calls : List (TagCall ws N)} {s : TaintState ws N}
    (hrun : runs tagCall calls (.init ws N) = some s) {t : Nat} (ht : t < N)
    (hlist : IsTagList h p ps (tagRecords s.tagMemoryMap t) last) {fuel : Nat}
    (hf : ps.length < fuel) :
    ∃ h' ps' final last', pruneList fuel h p = some h' ∧ IsTagList h' p ps' final last'
      ∧ (PrunedRight (tagRecords s.tagMemoryMap t) final
        ↔ PrunableList last (tagRecords s.tagMemoryMap t)) := by
  have hrec := (built_runs hrun).recorded t ht
  generalize tagRecords s.tagMemoryMap t = records at hlist hrec ⊢
  obtain ⟨h', ps', last', hloop, hlist'⟩ := pruneList_pruned hlist hrec hf
  refine ⟨h', ps', pruned last records, last', hloop, hlist', ?_⟩
  cases records with
  | nil => exact iff_of_true ⟨.nil, nofun, fun a => iff_of_false nofun (not_liveAt_nil a)⟩ nofun
  | cons head rest =>
      rw [prunedRight_iff_of_head hrec, prunableList_cons]

/-- Calls of fewer than 2^31 bytes record no address live twice.  Their lists are
    pruned right if the terminating node looks cleared and no address is live, or
    it does not and the first record is alone at its address. -/
theorem prunable_of_small_calls {calls : List (TagCall ws N)} {s : TaintState ws N}
    (hrun : runs tagCall calls (.init ws N) = some s) (hsmall : ∀ c ∈ calls, c.size.toNat < 2 ^ 31)
    {t : Nat} (ht : t < N) (hrecords : tagRecords s.tagMemoryMap t = head :: rest) :
    Prunable last head rest
      ↔ (last.isCleared = false → ∀ r ∈ rest, r.memAddress ≠ head.memAddress)
        ∧ (last.isCleared = true → ∀ a, ¬ LiveAt (head :: rest) a) := by
  have hbuilt := built_runs hrun
  have hrec := hbuilt.recorded t ht
  have hone := hbuilt.renewed hsmall t ht
  rw [hrecords] at hrec hone
  exact prunable_iff_of_once hrec hone

/-- Byte 100 gets the marks of a list of bitsets. -/
def tagByte (args : List (Bitset WordSize.w64.bits)) (h : ∀ b ∈ args, Sized 1 b) :
    TagCall .w64 1 where
  start := 100
  size := 1
  args := args
  control := ∅
  args_sized := h
  control_sized := (setByte args h).control_sized

/-- A list of two records, in three nodes. -/
def threeNodes (first second last : MemRecord .w64) : MemHeap .w64
  | 0 => ⟨first, some 1⟩
  | 1 => ⟨second, some 2⟩
  | _ => ⟨last, none⟩

theorem threeNodes_list (first second last : MemRecord .w64) :
    IsTagList (threeNodes first second last) 0 [1, 2] [first, second] last :=
  ⟨⟨rfl, rfl, rfl, trivial⟩, by decide, rfl⟩

/-- Tainted and cleared, byte 100 has two records. -/
theorem runs_tagged_cleared : ∃ s, runs tagCall
      [tagByte [markZero] markZero_sized, tagByte [] (by simp)] (.init .w64 1) = some s
    ∧ tagRecords s.tagMemoryMap 0 = [⟨100, false⟩, ⟨100, true⟩] := by
  obtain ⟨s, hs, -, -, hrec⟩ := runs_taint_clear
  exact ⟨s, hs, hrec⟩

/-- A list tainted and cleared, and a terminating node that does not look
    cleared. -/
theorem prunedRight_iff_prunable_cleared : ∃ s, runs tagCall
      [tagByte [markZero] markZero_sized, tagByte [] (by simp)] (.init .w64 1) = some s
    ∧ ∃ h' ps' final last',
      pruneList 3 (threeNodes ⟨100, false⟩ ⟨100, true⟩ ⟨0, false⟩) 0 = some h'
        ∧ IsTagList h' 0 ps' final last'
        ∧ (PrunedRight (tagRecords s.tagMemoryMap 0) final
          ↔ PrunableList ⟨0, false⟩ (tagRecords s.tagMemoryMap 0)) := by
  obtain ⟨s, hs, hrec⟩ := runs_tagged_cleared
  have hlist : IsTagList (threeNodes ⟨100, false⟩ ⟨100, true⟩ ⟨0, false⟩) 0 [1, 2]
      (tagRecords s.tagMemoryMap 0) ⟨0, false⟩ := hrec ▸ threeNodes_list _ _ _
  exact ⟨s, hs, prunedRight_iff_prunable hs Nat.one_pos hlist (Nat.lt_succ_self 2)⟩

/-- Tainted and cleared, byte 100 is still in the list after the loop: nothing
    stands in front of its first record. -/
theorem pruned_head_stays : ∃ s, runs tagCall
      [tagByte [markZero] markZero_sized, tagByte [] (by simp)] (.init .w64 1) = some s
    ∧ IsTagList (threeNodes ⟨100, false⟩ ⟨100, true⟩ ⟨0, false⟩) 0 [1, 2]
        (tagRecords s.tagMemoryMap 0) ⟨0, false⟩
    ∧ ∃ h', pruneList 3 (threeNodes ⟨100, false⟩ ⟨100, true⟩ ⟨0, false⟩) 0 = some h'
      ∧ IsTagList h' 0 [2] [⟨100, false⟩] ⟨0, false⟩
      ∧ ¬ PrunedRight (tagRecords s.tagMemoryMap 0) [⟨100, false⟩] := by
  obtain ⟨s, hs, hrec⟩ := runs_tagged_cleared
  refine ⟨s, hs, ?_⟩
  rw [hrec]
  refine ⟨threeNodes_list _ _ _, _, rfl, ⟨⟨rfl, rfl, trivial⟩, by decide, rfl⟩, fun hright => ?_⟩
  exact not_liveAt_cleared ((hright.exact 100).mp ⟨_, List.mem_cons_self, rfl⟩)

end DytanPrunedTags
