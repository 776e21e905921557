import Dytan.LinkedListProofs
import Dytan.TagIndexProofs

/-! # The pruning loop of `dump_taints`

    Before the tag lists are printed, `dump_taints` takes out the records that
    were cleared later.  Its loop stands at a node `preCurrentElement` and looks
    at the next one: the first record of a list is never looked at.  It also
    never asks whether a node is the one that ends the list, whose fields are
    uninitialised, so the loop prunes the list of all nodes, and the last node
    that is left ends the list. -/

namespace DytanTagPruning

open DytanBitset DytanRegister DytanTaintState DytanMarkFlow DytanRegisterAlias DytanTagIndex
open LinkedList Runs

variable {ws : WordSize} {N : Nat}

/-- `memlist` nodes. -/
abbrev MemHeap (ws : WordSize) := Heap (MemRecord ws)

/-- The inner loop: the first cleared node behind `elementToDelete` that has
    the address of `currentElement`, and the node before it. -/
def findCleared (h : MemHeap ws) (currentElement : Nat) :
    Nat → Nat → Option (Option (Nat × Nat))
  | 0, _ => none
  | fuel + 1, elementToDelete =>
      match (h elementToDelete).next with
      | none => some none
      | some next =>
          if (h next).data.memAddress = (h currentElement).data.memAddress
              ∧ (h next).data.isCleared = true then some (some (elementToDelete, next))
          else findCleared h currentElement fuel next

/-- The loop over one list, from `preCurrentElement` on. -/
def pruneList : Nat → MemHeap ws → Nat → Option (MemHeap ws)
  | 0, _, _ => none
  | fuel + 1, h, preCurrentElement =>
      match (h preCurrentElement).next with
      | none => some h
      | some currentElement => do
          let found ← if (h preCurrentElement).data.isCleared = false then
              findCleared h currentElement (fuel + 1) preCurrentElement
            else some none
          match found with
          | some (preElementToDelete, elementToDelete) =>
              let h := setNext h preCurrentElement (h currentElement).next
              let h := setNext h preElementToDelete (h elementToDelete).next
              pruneList fuel h preCurrentElement
          | none => pruneList fuel h currentElement

/-- A cleared record for the address of `r`. -/
def Cancels (r e : MemRecord ws) : Prop := e.memAddress = r.memAddress ∧ e.isCleared = true

instance (r e : MemRecord ws) : Decidable (Cancels r e) := inferInstanceAs (Decidable (_ ∧ _))

/-- What the loop leaves of the records behind a live one. -/
def prune : List (MemRecord ws) → List (MemRecord ws)
  | [] => []
  | r :: rest =>
      if r.isCleared = true then prune rest
      else if ∃ e ∈ rest, Cancels r e then prune (rest.eraseP fun e => Cancels r e)
      else r :: prune rest
termination_by records => records.length
decreasing_by
  · exact Nat.lt_succ_self _
  · exact Nat.lt_succ_of_le (List.length_eraseP_le)
  · exact Nat.lt_succ_self _

variable {r : MemRecord ws} {rest records : List (MemRecord ws)}

theorem prune_cleared (h : r.isCleared = true) : prune (r :: rest) = prune rest := by
  rw [prune, if_pos h]

theorem prune_cancelled (h : r.isCleared = false) (he : ∃ e ∈ rest, Cancels r e) :
    prune (r :: rest) = prune (rest.eraseP fun e => Cancels r e) := by
  rw [prune, if_neg (Bool.eq_false_iff.mp h), if_pos he]

theorem prune_kept (h : r.isCleared = false) (he : ∀ e ∈ rest, ¬ Cancels r e) :
    prune (r :: rest) = r :: prune rest := by
  rw [prune, if_neg (Bool.eq_false_iff.mp h), if_neg fun ⟨e, hmem, hc⟩ => he e hmem hc]

/-! ## What the loop does -/

variable {h : MemHeap ws} {e current : Nat} {done ps : List Nat}

/-- The data of nodes. -/
def dataOf (h : MemHeap ws) (ps : List Nat) : List (MemRecord ws) := ps.map fun p => (h p).data

theorem findCleared_next {fuel next : Nat} (hnext : (h e).next = some next) :
    findCleared h current (fuel + 1) e
      = if Cancels (h current).data (h next).data then some (some (e, next))
        else findCleared h current fuel next := by
  rw [findCleared, hnext]
  rfl

/-- The inner loop stops at the first node that cancels the current one, `pre`
    being the node before it. -/
theorem findCleared_spec (current : Nat) (hl : LinksTo h none (e :: ps)) {fuel : Nat}
    (hf : ps.length < fuel) :
    (∃ mid del after front pre, ps = mid ++ del :: after ∧ e :: mid = front ++ [pre]
        ∧ findCleared h current fuel e = some (some (pre, del))
        ∧ Cancels (h current).data (h del).data
        ∧ ∀ p ∈ mid, ¬ Cancels (h current).data (h p).data)
      ∨ (findCleared h current fuel e = some none
        ∧ ∀ p ∈ ps, ¬ Cancels (h current).data (h p).data) := by
  induction fuel generalizing e ps with
  | zero => exact absurd hf (Nat.not_lt_zero _)
  | succ fuel ih =>
      cases ps with
      | nil =>
          refine Or.inr ⟨?_, nofun⟩
          rw [findCleared, show (h e).next = none from hl.1]
      | cons next ps =>
          rw [findCleared_next (show (h e).next = some next from hl.1)]
          by_cases hc : Cancels (h current).data (h next).data
          · exact Or.inl ⟨[], next, ps, [], e, rfl, rfl, if_pos hc, hc, nofun⟩
          · rw [if_neg hc]
            rcases ih hl.2 (Nat.lt_of_succ_lt_succ hf) with
              ⟨mid, del, after, front, pre, rfl, hpre, hrun, hdel, hnot⟩ | ⟨hrun, hnot⟩
            · exact Or.inl ⟨next :: mid, del, after, e :: front, pre, rfl,
                congrArg (e :: ·) hpre, hrun, hdel, List.forall_mem_cons.mpr ⟨hc, hnot⟩⟩
            · exact Or.inr ⟨hrun, List.forall_mem_cons.mpr ⟨hc, hnot⟩⟩

/-- The nodes of a list from `pre` on are `done ++ pre :: ps`. -/
structure Stands (h : MemHeap ws) (done : List Nat) (pre : Nat) (ps : List Nat) : Prop where
  links : LinksTo h none (done ++ pre :: ps)
  nodup : (done ++ pre :: ps).Nodup

theorem Stands.next (hs : Stands h done e ps) : (h e).next = ps.head? := by
  have hl := ((linksTo_append h none done (e :: ps)).mp hs.links).2.1
  rwa [Option.or_none] at hl

/-- A node of the list is pointed over some of the next ones. -/
theorem Stands.skip (skipped : List Nat) (hs : Stands h done e (skipped ++ ps)) :
    Stands (setNext h e ps.head?) done e ps := by
  obtain ⟨hl, hn⟩ := hs.links.skip hs.nodup
  rw [Option.or_none] at hl
  exact ⟨hl, hn⟩

theorem Stands.advance (hs : Stands h done e (current :: ps)) :
    Stands h (done ++ [e]) current ps := by
  have hsplit : done ++ [e] ++ current :: ps = done ++ e :: current :: ps := by simp
  exact ⟨hsplit ▸ hs.links, hsplit ▸ hs.nodup⟩

theorem dataOf_setNext (h : MemHeap ws) (p : Nat) (q : Option Nat) (ps : List Nat) :
    dataOf (setNext h p q) ps = dataOf h ps :=
  List.map_congr_left fun x _ => setNext_data h p x q

/-- The records behind a live node, without the first that cancels it. -/
theorem prune_cancelled_dataOf {mid after : List Nat} {del : Nat}
    (hlive : (h current).data.isCleared = false) (hc : Cancels (h current).data (h del).data)
    (hnot : ∀ p ∈ mid, ¬ Cancels (h current).data (h p).data) :
    prune (dataOf h (current :: (mid ++ del :: after))) = prune (dataOf h (mid ++ after)) := by
  have hmem : (h del).data ∈ dataOf h (mid ++ del :: after) :=
    List.mem_map_of_mem (List.mem_append_right _ List.mem_cons_self)
  have herase : (dataOf h (mid ++ del :: after)).eraseP (fun e => Cancels (h current).data e)
      = dataOf h (mid ++ after) := by
    rw [dataOf, List.map_append, List.eraseP_append_right, List.map_cons, List.eraseP_cons_of_pos,
      dataOf, List.map_append]
    · exact decide_eq_true hc
    · intro d hd
      obtain ⟨p, hp, rfl⟩ := List.mem_map.mp hd
      rw [decide_eq_true_eq]
      exact hnot p hp
  rw [← herase]
  exact prune_cancelled hlive ⟨_, hmem, hc⟩

/-- **One deletion**: the current node goes, and with it the node that cancels
    it, unless that is the next one, which is the next current node then. -/
theorem Stands.delete {mid front after : List Nat} {pre del : Nat}
    (hs : Stands h done e (current :: ps)) (hsplit : current :: ps = mid ++ del :: after)
    (hpre : e :: mid = front ++ [pre]) (hc : Cancels (h current).data (h del).data)
    (hnot : ∀ p ∈ mid, ¬ Cancels (h current).data (h p).data) :
    ∃ ps', Stands (setNext (setNext h e (h current).next) pre
          (setNext h e (h current).next del).next) done e ps'
      ∧ ps'.length < (current :: ps).length
      ∧ prune (dataOf h ps') = prune (dataOf h (current :: ps)) := by
  have hne : ∀ x ∈ current :: ps, x ≠ e := fun x hx heq =>
    (List.nodup_cons.mp (List.nodup_append.mp hs.nodup).2.1).1 (heq ▸ hx)
  have hcurrent : (h current).next = ps.head? := hs.advance.next
  have hout : Stands (setNext h e ps.head?) done e ps := hs.skip [current]
  rw [hcurrent]
  have hlast : (e :: mid).getLast? = some pre := by
    rw [hpre, List.getLast?_concat]
  cases mid with
  | nil =>
      -- the current node is cleared itself
      obtain ⟨rfl, rfl⟩ := List.cons.inj hsplit
      obtain rfl := Option.some.inj (show some e = some pre from hlast)
      refine ⟨ps, ?_, Nat.lt_succ_self _, (prune_cleared hc.2).symm⟩
      rw [setNext_setNext, setNext_of_ne _ (hne _ List.mem_cons_self), hcurrent]
      exact hout
  | cons first mid =>
      rw [List.cons_append, List.cons.injEq] at hsplit
      obtain ⟨rfl, rfl⟩ := hsplit
      have hlive : (h current).data.isCleared = false :=
        Bool.eq_false_iff.mpr fun hcl => hnot current List.mem_cons_self ⟨rfl, hcl⟩
      have hmid : ∀ p ∈ mid, ¬ Cancels (h current).data (h p).data := fun p hp =>
        hnot p (List.mem_cons_of_mem _ hp)
      have hdel : setNext h e (mid ++ del :: after).head? del = h del :=
        setNext_of_ne _ (hne _ (List.mem_cons_of_mem _ (List.mem_append_right _ List.mem_cons_self))) _
      have hafter : (h del).next = after.head? := by
        have hsplit : done ++ e :: current :: (mid ++ del :: after)
            = (done ++ e :: current :: mid) ++ del :: after := by simp
        exact Stands.next ⟨hsplit ▸ hs.links, hsplit ▸ hs.nodup⟩
      rw [hdel, hafter, prune_cancelled_dataOf hlive hc hmid]
      cases mid using List.reverseRecOn with
      | nil =>
          -- the next node is the one that cancels it
          obtain rfl := Option.some.inj (show some current = some pre from hlast)
          have hnot := (List.nodup_cons.mp (List.nodup_middle.mp hs.advance.nodup)).1
          rw [List.append_assoc] at hnot
          exact ⟨del :: after, ⟨hout.links.frame hnot _, hout.nodup⟩, Nat.lt_succ_self _,
            prune_cleared hc.2⟩
      | append_singleton mid last =>
          rw [← List.cons_append, ← List.cons_append, List.getLast?_concat] at hlast
          obtain rfl := Option.some.inj hlast
          refine ⟨mid ++ [last] ++ after, ?_, ?_, rfl⟩
          · have hsplit : done ++ e :: (mid ++ [last] ++ del :: after)
                = (done ++ e :: mid) ++ last :: ([del] ++ after) := by simp
            have hskip := Stands.skip [del]
              (show Stands (setNext h e _) (done ++ e :: mid) last ([del] ++ after) from
                ⟨hsplit ▸ hout.links, hsplit ▸ hout.nodup⟩)
            have hjoin : (done ++ e :: mid) ++ last :: after
                = done ++ e :: (mid ++ [last] ++ after) := by simp
            exact ⟨hjoin ▸ hskip.links, hjoin ▸ hskip.nodup⟩
          · simp only [List.length_append, List.length_cons, List.length_nil]
            omega

/-- **The loop** prunes the nodes behind a live one. -/
theorem pruneList_spec {fuel : Nat} (hs : Stands h done e ps)
    (hlive : (h e).data.isCleared = false) (hf : ps.length < fuel) :
    ∃ h' ps', pruneList fuel h e = some h' ∧ Stands h' done e ps'
      ∧ (∀ p, (h' p).data = (h p).data) ∧ dataOf h ps' = prune (dataOf h ps) := by
  induction fuel generalizing h done e ps with
  | zero => exact absurd hf (Nat.not_lt_zero _)
  | succ fuel ih =>
      cases ps with
      | nil =>
          refine ⟨h, [], ?_, hs, fun _ => rfl, by rw [dataOf, List.map_nil, prune]⟩
          rw [pruneList, show (h e).next = none from hs.next]
      | cons current ps =>
          have hl := ((linksTo_append h none done (e :: current :: ps)).mp hs.links).2
          rw [pruneList, show (h e).next = some current from hs.next]
          simp only [hlive, if_true]
          -- the pair goes and the loop stays at `e`, or it moves on to `current`
          rcases findCleared_spec current hl hf with
            ⟨mid, del, after, front, pre, hsplit, hpre, hrun, hdel, hnot⟩ | ⟨hrun, hnot⟩
          · rw [hrun]
            obtain ⟨ps', hs', hlen, hprune⟩ := hs.delete hsplit hpre hdel hnot
            obtain ⟨h', ps'', hloop, hs'', hdata, hleft⟩ := ih hs' (by simpa using hlive)
              (Nat.lt_of_lt_of_le hlen (Nat.le_of_lt_succ hf))
            refine ⟨h', ps'', hloop, hs'', fun p => ?_, ?_⟩
            · rw [hdata, setNext_data, setNext_data]
            · rw [dataOf_setNext, dataOf_setNext, dataOf_setNext, dataOf_setNext] at hleft
              rw [hleft, hprune]
          · rw [hrun]
            have hcurrent : (h current).data.isCleared = false :=
              Bool.eq_false_iff.mpr fun hcl => hnot current List.mem_cons_self ⟨rfl, hcl⟩
            obtain ⟨h', ps', hloop, hs', hdata, hleft⟩ := ih hs.advance hcurrent
              (Nat.lt_of_succ_lt_succ hf)
            have hjoin : done ++ [e] ++ current :: ps' = done ++ e :: current :: ps' := by simp
            refine ⟨h', current :: ps', hloop, ⟨hjoin ▸ hs'.links, hjoin ▸ hs'.nodup⟩, hdata, ?_⟩
            have hrest : ∀ d ∈ dataOf h ps, ¬ Cancels (h current).data d := by
              intro d hd
              obtain ⟨p, hp, rfl⟩ := List.mem_map.mp hd
              exact hnot p (List.mem_cons_of_mem _ hp)
            show (h current).data :: dataOf h ps' = prune ((h current).data :: dataOf h ps)
            rw [prune_kept hcurrent hrest, hleft]

end DytanTagPruning
