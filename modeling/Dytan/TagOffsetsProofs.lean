import Mathlib.Data.BitVec
import Dytan.PrunedTagsProofs

/-! # The offsets of the tag index — 64-bit addresses in an `int`

    Before it appends records for a range, the tainting branch of
    `SetTaintForMemory` flags the offsets of the records there are.  It computes
    them as `(int)(memAddress - start)`, so a record that lies a multiple of
    4 GiB off an address of the range flags its offset, and that address gets
    no record. -/

namespace DytanTagOffsets

open DytanRegister DytanTaintState DytanMarkFlow DytanTagIndex DytanPrunedTags

variable {ws : WordSize} {start size a : Addr ws} {records : List (MemRecord ws)} {i : Nat}

/-- An address is in a list. -/
def Occurs (records : List (MemRecord ws)) (a : Addr ws) : Prop :=
  ∃ r ∈ records, r.memAddress = a

/-- The distance of an address from the start of the range, modulo 2^32. -/
def offset32 (start a : Addr ws) : Nat := (a - start).toNat % 2 ^ 32

/-- The cast of the difference is the distance modulo 2^32, where that is not
    negative as an `int`. -/
theorem toInt32_sub_eq_iff (start a : Addr ws) (hi : i < 2 ^ 31) :
    toInt32 (a - start) = i ↔ offset32 start a = i := by
  have hnat : ((a - start).setWidth 32).toNat = offset32 start a := BitVec.toNat_setWidth ..
  rw [toInt32, BitVec.toInt_eq_toNat_cond, hnat]
  have hlt : offset32 start a < 2 ^ 32 := Nat.mod_lt _ (Nat.two_pow_pos 32)
  split
  · exact Int.ofNat_inj
  · omega

/-- **What is flagged**: the distances of the records, modulo 2^32. -/
theorem flagged_iff (hsize : size.toNat < 2 ^ 31) (hi : i < size.toNat) :
    flagged start size records i = true ↔ ∃ r ∈ records, offset32 start r.memAddress = i := by
  rw [flagged, List.any_eq_true]
  refine exists_congr fun r => and_congr_right fun _ => ?_
  rw [decide_eq_true_iff, toInt32_of_lt hsize, ← toInt32_sub_eq_iff start _ (by omega)]
  omega

/-- The address at a distance of the range. -/
theorem mem_zipIdx_addrRange (hwrap : start.toNat + size.toNat < 2 ^ ws.bits) :
    (a, i) ∈ (addrRange start size).zipIdx
      ↔ i < size.toNat ∧ a = start + BitVec.ofNat ws.bits i := by
  rw [List.mk_mem_zipIdx_iff_getElem?, addrRange_getElem?_iff hwrap]
  refine and_congr_right fun hi => ?_
  rw [← add_ofNat_toNat (by omega)]
  exact ⟨BitVec.eq_of_toNat_eq, congrArg BitVec.toNat⟩

/-- An address occurs after the tainting branch if it occurred before, or if it
    is in the range and its offset is not flagged. -/
theorem occurs_tagTaint_iff (a : Addr ws) : Occurs (tagTaint start size records) a
    ↔ Occurs records a
      ∨ ∃ i, (a, i) ∈ (addrRange start size).zipIdx ∧ flagged start size records i = false := by
  show Occurs (records ++ newRecords start size records) a ↔ _
  constructor
  · rintro ⟨r, hr, rfl⟩
    rcases List.mem_append.mp hr with hr | hr
    · exact Or.inl ⟨r, hr, rfl⟩
    · obtain ⟨⟨b, i⟩, hp, rfl⟩ := List.mem_map.mp hr
      obtain ⟨hmem, hflag⟩ := List.mem_filter.mp hp
      exact Or.inr ⟨i, hmem, by simpa using hflag⟩
  · rintro (⟨r, hr, rfl⟩ | ⟨i, hmem, hflag⟩)
    · exact ⟨r, List.mem_append_left _ hr, rfl⟩
    · refine ⟨⟨a, false⟩, List.mem_append_right _ (List.mem_map.mpr ⟨(a, i), ?_, rfl⟩), rfl⟩
      exact List.mem_filter.mpr ⟨hmem, by simp [hflag]⟩

/-- Every address of the range occurs in the list. -/
def CoversRange (start size : Addr ws) (records : List (MemRecord ws)) : Prop :=
  ∀ a : Addr ws, start.toNat ≤ a.toNat → a.toNat < start.toNat + size.toNat → Occurs records a

/-- A record lies only at distances, modulo 2^32, at which the list has a record
    already. -/
def OffsetsRecorded (start size : Addr ws) (records : List (MemRecord ws)) : Prop :=
  ∀ r ∈ records, offset32 start r.memAddress < size.toNat →
    Occurs records (start + BitVec.ofNat ws.bits (offset32 start r.memAddress))

/-- **The range is covered** after the tainting branch exactly when no record is
    mistaken for one of another address of the range. -/
theorem coversRange_tagTaint_iff (hsize : size.toNat < 2 ^ 31)
    (hwrap : start.toNat + size.toNat < 2 ^ ws.bits) (records : List (MemRecord ws)) :
    CoversRange start size (tagTaint start size records) ↔ OffsetsRecorded start size records := by
  constructor
  · intro hcovers r hr hlt
    have haddr : (start + BitVec.ofNat ws.bits (offset32 start r.memAddress)).toNat
        = start.toNat + offset32 start r.memAddress := add_ofNat_toNat (by omega)
    have hoccurs := hcovers _ (by rw [haddr]; omega) (by rw [haddr]; omega)
    rcases (occurs_tagTaint_iff _).mp hoccurs with hold | ⟨i, hmem, hflag⟩
    · exact hold
    · -- its offset is flagged by `r`
      obtain ⟨hi, heq⟩ := (mem_zipIdx_addrRange hwrap).mp hmem
      have hoffset := offset_unique hmem ((mem_zipIdx_addrRange hwrap).mpr ⟨hlt, rfl⟩)
      have hflagged := (flagged_iff hsize hi).mpr ⟨r, hr, hoffset.symm⟩
      rw [hflagged] at hflag
      exact nomatch hflag
  · intro hrecorded a hle hlt
    have hi : a.toNat - start.toNat < size.toNat := by omega
    have ha : a = start + BitVec.ofNat ws.bits (a.toNat - start.toNat) := by
      refine BitVec.eq_of_toNat_eq ?_
      rw [add_ofNat_toNat (by omega), Nat.add_sub_cancel' hle]
    rw [occurs_tagTaint_iff]
    by_cases hflag : flagged start size records (a.toNat - start.toNat) = true
    · obtain ⟨r, hr, hoffset⟩ := (flagged_iff hsize hi).mp hflag
      have hold := hrecorded r hr (by rw [hoffset]; exact hi)
      rw [hoffset, ← ha] at hold
      exact Or.inl hold
    · exact Or.inr ⟨_, (mem_zipIdx_addrRange hwrap).mpr ⟨hi, ha⟩, Bool.eq_false_iff.mpr hflag⟩

/-- A record of the third byte, and a cleared one behind the range. -/
theorem coversRange_tagTaint_iff_twoRecords :
    CoversRange (100 : Addr .w64) 8 (tagTaint 100 8 [⟨102, false⟩, ⟨500, true⟩]) := by
  refine (coversRange_tagTaint_iff (by decide) (by decide) _).mpr fun r hr hlt => ?_
  rcases List.mem_cons.mp hr with rfl | hr
  · exact ⟨_, List.mem_cons_self, by decide⟩
  · rw [List.mem_singleton.mp hr] at hlt
    exact absurd hlt (by decide)

/-- A record 4 GiB behind byte 100: byte 100 gets none. -/
theorem farRecord_not_covered :
    ¬ CoversRange (100 : Addr .w64) 1 (tagTaint 100 1 [⟨100 + 2 ^ 32, false⟩]) := by
  intro hcovers
  have hnone : tagTaint (100 : Addr .w64) 1 [⟨100 + 2 ^ 32, false⟩]
      = [⟨100 + 2 ^ 32, false⟩] := by decide
  obtain ⟨r, hr, haddr⟩ := hcovers 100 (by decide) (by decide)
  rw [hnone] at hr
  rw [List.mem_singleton.mp hr] at haddr
  exact absurd haddr (by decide)

end DytanTagOffsets
