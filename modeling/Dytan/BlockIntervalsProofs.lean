import Mathlib.Data.List.Pairwise
import Dytan.NextInstructionProofs

/-! # Block intervals

    The start of a block is set when its first instruction is reached and the
    end when its last one is, in four different places.  What the builder does
    to a span is the same in all of them: it takes the current instruction into
    the span under construction, or ends that span and opens the next one there
    (`UpTo`).  So the members of the spans, read in order, are the
    instructions of the routine, and in a routine with increasing addresses the
    intervals of the blocks cut it up. -/

namespace DytanBlockIntervals

open DytanRegister DytanTaintState DytanBasicBlock DytanRoutineGraph DytanBlockSpans
open DytanBlockLayout DytanNextInstruction Runs
open DytanRoutineFlow (whileLoop)

variable {ws : WordSize}

/-- The members of spans, in order. -/
def memberList (spans : List (Span ws)) : List (Addr ws) := spans.flatMap fun s => s.members.reverse

/-- The span starts at its first member, and `a` is its last. -/
structure UpTo (s : Span ws) (a : Addr ws) : Prop where
  first : s.members.getLast? = some s.starting
  last : s.members.head? = some a

theorem upTo_openAt (a : Addr ws) : UpTo (.openAt a) a := ⟨rfl, rfl⟩

theorem UpTo.add {s : Span ws} {a : Addr ws} (h : UpTo s a) (b : Addr ws) :
    UpTo (s.add b) b := by
  refine ⟨?_, rfl⟩
  show (b :: s.members).getLast? = _
  rw [List.getLast?_cons, h.first]
  rfl

/-- The span ends at its last member. -/
def Bounded (s : Span ws) : Prop := UpTo s s.ending

variable {m : JumpMaps ws} {previous ins : RtnIns ws} {nextIns : Option (RtnIns ws)}
  {current current' : Option (Span ws)} {ended spans : List (Span ws)} {s : Span ws}

/-- A branch ends the span where it stands. -/
theorem spanAtBranch_members (hs : UpTo s ins.address)
    (h : spanAtBranch m ins nextIns s = some (current', ended)) :
    memberList ended ++ memberList current'.toList = s.members.reverse
      ∧ (∀ t ∈ ended, Bounded t) ∧ ∀ t ∈ current', UpTo t ins.address := by
  rcases spanAtBranch_cases h with ⟨-, rfl, rfl⟩ | ⟨-, exits, -, rfl, rfl⟩
  · refine ⟨by simp [memberList], nofun, fun t ht => ?_⟩
    cases ht
    exact hs
  · refine ⟨by simp [memberList, Span.endAt], fun t ht => ?_, nofun⟩
    rw [List.mem_singleton.mp ht]
    exact ⟨hs.first, hs.last⟩

/-- One turn takes the current instruction in. -/
theorem spanStep_members (hcurrent : ∀ s ∈ current, UpTo s previous.address)
    (h : spanStep m previous ins nextIns current = some (current', ended)) :
    memberList ended ++ memberList current'.toList
        = memberList current.toList ++ [ins.address]
      ∧ (∀ t ∈ ended, Bounded t) ∧ ∀ t ∈ current', UpTo t ins.address := by
  rcases spanStep_cases h with
    ⟨rfl, hbranch⟩ | ⟨s, ended', rfl, -, hbranch, rfl⟩ | ⟨s, rfl, -, hbranch⟩
  · exact spanAtBranch_members (upTo_openAt _) hbranch
  · obtain ⟨hmembers, hended, hcurrent'⟩ := spanAtBranch_members (upTo_openAt _) hbranch
    refine ⟨?_, fun t ht => ?_, hcurrent'⟩
    · show s.members.reverse ++ memberList ended' ++ _ = _
      rw [List.append_assoc, hmembers]
      simp [memberList, Span.openAt]
    · rcases List.mem_cons.mp ht with rfl | ht
      · have hs := hcurrent s rfl
        exact ⟨hs.first, hs.last⟩
      · exact hended t ht
  · obtain ⟨hmembers, hended, hcurrent'⟩ :=
      spanAtBranch_members ((hcurrent s rfl).add ins.address) hbranch
    refine ⟨?_, hended, hcurrent'⟩
    rw [hmembers]
    simp [memberList, Span.add]

/-- The loop takes every instruction in, in order. -/
theorem spanLoop_members {rest : List (RtnIns ws)}
    (hcurrent : ∀ s ∈ current, UpTo s previous.address)
    (h : spanLoop m previous rest current = some spans) :
    memberList spans = memberList current.toList ++ rest.map RtnIns.address
      ∧ ∀ s ∈ spans, Bounded s := by
  induction rest generalizing previous current spans with
  | nil =>
      cases h
      refine ⟨?_, fun t ht => ?_⟩
      · cases current <;> simp [memberList, Span.endAt]
      · obtain ⟨s, hs, rfl⟩ := List.mem_map.mp ht
        have hs := hcurrent s (Option.mem_toList.mp hs)
        exact ⟨hs.first, hs.last⟩
  | cons ins rest ih =>
      obtain ⟨current', ended, later, hstep, hlater, rfl⟩ := spanLoop_cons h
      obtain ⟨hmembers, hended, hcurrent'⟩ := spanStep_members hcurrent hstep
      obtain ⟨hlaterMembers, hlaterBounded⟩ := ih hcurrent' hlater
      refine ⟨?_, fun t ht => ?_⟩
      · calc memberList (ended ++ later)
            = memberList ended ++ memberList later := List.flatMap_append
          _ = memberList ended ++ memberList current'.toList ++ rest.map RtnIns.address := by
              rw [hlaterMembers, List.append_assoc]
          _ = memberList current.toList ++ (ins :: rest).map RtnIns.address := by
              rw [hmembers, List.append_assoc]
              rfl
      · rcases List.mem_append.mp ht with ht | ht
        · exact hended t ht
        · exact hlaterBounded t ht

/-- **The members of the spans are the instructions**, in order, and every span
    goes from its first to its last. -/
theorem spansOf_members {r : Routine ws} (h : spansOf r = some spans) :
    memberList spans = r.instructions.map RtnIns.address ∧ ∀ s ∈ spans, Bounded s := by
  refine spanLoop_members (fun s hs => ?_) h
  cases hs
  exact upTo_openAt _

/-! ## Increasing addresses -/

/-- The addresses of the routine increase. -/
def Increasing (r : Routine ws) : Prop := (r.instructions.map RtnIns.address).Pairwise (· < ·)

/-- The last instruction is neither a call nor a jump: every call and every
    jump is followed by another instruction. -/
def CallsFollowed (r : Routine ws) : Prop :=
  ∀ last ∈ r.instructions.getLast?, last.isBranch = false ∧ last.isCall = false

/-- The builder needs no instruction behind the last one. -/
theorem CallsFollowed.builds {r : Routine ws} (h : CallsFollowed r) :
    ∃ g, blockBuilder r = some g := by
  refine builds_of_not_takesNext fun last hlast a htakes => ?_
  have hmem : last ∈ r.instructions.getLast? := by
    cases htail : r.tail with
    | nil =>
        rw [htail] at hlast
        exact nomatch hlast
    | cons second rest =>
        rw [Routine.instructions, htail, List.getLast?_cons_cons]
        rwa [htail] at hlast
  obtain ⟨hb, hc⟩ := h last hmem
  rw [branchSet, hb, hc] at htakes
  cases hr : last.isRet with
  | false =>
      rw [hr] at htakes
      exact htakes
  | true =>
      rw [hr] at htakes
      revert htakes
      cases ws
      all_goals
        rintro (h | h | ⟨-, -, h, -⟩)
        · exact absurd h (by decide)
        · exact absurd h (by decide)
        · exact h rfl

/-- `x` is in the interval of the span. -/
def Inside (s : Span ws) (x : Addr ws) : Prop := s.starting ≤ x ∧ x ≤ s.ending

/-- Every member is in the interval of its span. -/
theorem inside_of_mem (hs : Bounded s) (hinc : s.members.reverse.Pairwise (· < ·)) {a : Addr ws}
    (ha : a ∈ s.members) : Inside s a := by
  have hfirst : ∀ x ∈ s.members, s.starting ≤ x := by
    obtain ⟨rest, hrest⟩ := List.getLast?_eq_some_iff.mp hs.first
    rw [hrest, List.reverse_append] at hinc
    intro x hx
    rw [hrest] at hx
    rcases List.mem_append.mp hx with hx | hx
    · exact BitVec.le_of_lt ((List.pairwise_cons.mp hinc).1 x (List.mem_reverse.mpr hx))
    · rw [List.mem_singleton.mp hx]
      exact BitVec.le_refl _
  have hlast : ∀ x ∈ s.members, x ≤ s.ending := by
    obtain ⟨rest, hrest⟩ := List.head?_eq_some_iff.mp hs.last
    rw [hrest, List.reverse_cons] at hinc
    intro x hx
    rw [hrest] at hx
    rcases List.mem_cons.mp hx with rfl | hx
    · exact BitVec.le_refl _
    · exact BitVec.le_of_lt ((List.pairwise_append.mp hinc).2.2 x (List.mem_reverse.mpr hx) _
        List.mem_cons_self)
  exact ⟨hfirst a ha, hlast a ha⟩

theorem Bounded.starting_mem (hs : Bounded s) : s.starting ∈ s.members :=
  List.mem_of_getLast? hs.first

theorem Bounded.ending_mem (hs : Bounded s) : s.ending ∈ s.members :=
  List.mem_of_mem_head? hs.last

/-- The intervals have no address in common. -/
def Apart (s t : Span ws) : Prop := ∀ x, ¬ (Inside s x ∧ Inside t x)

instance : Std.Symm (Apart : Span ws → Span ws → Prop) := ⟨fun _ _ h x hx => h x hx.symm⟩

/-- The intervals of the spans are disjoint. -/
theorem apart_of_increasing (hbounded : ∀ s ∈ spans, Bounded s)
    (hinc : (memberList spans).Pairwise (· < ·)) : spans.Pairwise Apart := by
  have hpairs := (List.pairwise_flatMap.mp hinc).2
  refine hpairs.imp_of_mem fun {s t} hs ht hlt x ⟨hsx, htx⟩ => ?_
  have hend : s.ending < t.starting :=
    hlt _ (List.mem_reverse.mpr (hbounded s hs).ending_mem) _
      (List.mem_reverse.mpr (hbounded t ht).starting_mem)
  have hle : t.starting ≤ s.ending := BitVec.le_trans htx.1 hsx.2
  exact Nat.not_le_of_lt (BitVec.lt_def.mp hend) (BitVec.le_def.mp hle)

/-! ## The blocks -/

/-- `x` is in the interval of the block. -/
def Within (g : RoutineGraph ws) (b : BlockId) (x : Addr ws) : Prop :=
  (g.blocks b).startingAddress ≤ x ∧ x ≤ (g.blocks b).endingAddress

/-- An instruction is mapped to the block. -/
def BlockOf (r : Routine ws) (g : RoutineGraph ws) (b : BlockId) : Prop :=
  ∃ a ∈ r.instructions.map RtnIns.address, g.addressMap[a]? = some b

/-- The intervals of the blocks cut up the routine. -/
structure CutsUp (r : Routine ws) (g : RoutineGraph ws) : Prop where
  covers : ∀ a ∈ r.instructions.map RtnIns.address,
    ∃ b, g.addressMap[a]? = some b ∧ Within g b a
  bounds : ∀ b, BlockOf r g b →
    (g.blocks b).startingAddress ∈ r.instructions.map RtnIns.address
      ∧ (g.blocks b).endingAddress ∈ r.instructions.map RtnIns.address
  disjoint : ∀ b c, BlockOf r g b → BlockOf r g c → b ≠ c →
    ∀ x, ¬ (Within g b x ∧ Within g c x)

variable {r : Routine ws} {g : RoutineGraph ws} {flags wanted : Addr ws → Prop}

/-- The blocks have the intervals of the spans they lay out. -/
theorem cutsUp_of_lays (hinc : Increasing r) (hspans : spansOf r = some spans)
    (hl : Lays flags wanted g spans) : CutsUp r g := by
  obtain ⟨laid, hlaid, hl⟩ := hl
  obtain ⟨hmembers, hbounded⟩ := spansOf_members hspans
  rw [Increasing, ← hmembers] at hinc
  have hmem : ∀ p ∈ laid, p.2 ∈ spans := fun p hp => by
    rw [← List.mem_reverse, ← hlaid]
    exact List.mem_map_of_mem hp
  have hwithin : ∀ p ∈ laid, ∀ x, Within g p.1 x ↔ Inside p.2 x := fun p hp x => by
    rw [Within, Inside, (hl.isBlock p hp).starting, (hl.isBlock p hp).ending]
  have haddress : ∀ p ∈ laid, ∀ a ∈ p.2.members, a ∈ r.instructions.map RtnIns.address := by
    intro p hp a ha
    rw [← hmembers]
    exact List.mem_flatMap.mpr ⟨p.2, hmem p hp, List.mem_reverse.mpr ha⟩
  -- the block of an instruction is the block of its span
  have hheld : ∀ a ∈ r.instructions.map RtnIns.address,
      ∃ p ∈ laid, a ∈ p.2.members ∧ g.addressMap[a]? = some p.1 := by
    intro a ha
    obtain ⟨s, hs, has⟩ := mem_spansOf hspans ha
    rw [← List.mem_reverse, ← hlaid] at hs
    obtain ⟨p, hp, rfl⟩ := List.mem_map.mp hs
    exact ⟨p, hp, has, (hl.isBlock p hp).members a has⟩
  have hblock : ∀ b, BlockOf r g b → ∃ s, (b, s) ∈ laid := by
    rintro b ⟨a, ha, hab⟩
    obtain ⟨p, hp, -, hap⟩ := hheld a ha
    cases hab.symm.trans hap
    exact ⟨p.2, hp⟩
  refine ⟨fun a ha => ?_, fun b hb => ?_, fun b c hb hc hbc x hx => ?_⟩
  · obtain ⟨p, hp, has, hap⟩ := hheld a ha
    refine ⟨p.1, hap, (hwithin p hp a).mpr ?_⟩
    exact inside_of_mem (hbounded _ (hmem p hp))
      ((List.pairwise_flatMap.mp hinc).1 _ (hmem p hp)) has
  · obtain ⟨s, hs⟩ := hblock b hb
    have hsb := hbounded s (hmem _ hs)
    rw [(hl.isBlock _ hs).starting, (hl.isBlock _ hs).ending]
    exact ⟨haddress _ hs _ hsb.starting_mem, haddress _ hs _ hsb.ending_mem⟩
  · obtain ⟨s, hs⟩ := hblock b hb
    obtain ⟨t, ht⟩ := hblock c hc
    have hne : s ≠ t := by
      rintro rfl
      have hmapped := (hbounded s (hmem _ hs)).starting_mem
      exact hbc (Option.some.inj (((hl.isBlock _ hs).members _ hmapped).symm.trans
        ((hl.isBlock _ ht).members _ hmapped)))
    have hdisjoint : Apart s t :=
      (apart_of_increasing hbounded hinc).forall (hmem _ hs) (hmem _ ht) hne
    exact hdisjoint x ⟨(hwithin _ hs x).mp hx.1, (hwithin _ ht x).mp hx.2⟩

/-- **The blocks cut up the routine**: the builder returns, every instruction
    is in the interval of its block, from one instruction to another, and the
    intervals are disjoint. -/
theorem blockBuilder_cutsUp (r : Routine ws) (hinc : Increasing r) (hlast : CallsFollowed r) :
    ∃ g, blockBuilder r = some g ∧ CutsUp r g := by
  obtain ⟨g, hg⟩ := hlast.builds
  have hlays := lays r
  rw [hg] at hlays
  cases hspans : spansOf r with
  | none =>
      rw [hspans] at hlays
      exact hlays.elim
  | some spans =>
      rw [hspans] at hlays
      exact ⟨g, hg, cutsUp_of_lays hinc hspans hlays⟩

theorem blockBuilder_cutsUp_whileLoop :
    ∃ g, blockBuilder whileLoop = some g ∧ CutsUp whileLoop g := by
  have hinc : Increasing whileLoop := by
    rw [Increasing]
    decide
  refine blockBuilder_cutsUp whileLoop hinc fun last hlast => ?_
  cases hlast
  exact ⟨rfl, rfl⟩

end DytanBlockIntervals
