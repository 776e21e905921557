import Dytan.NumeralsProofs
import Dytan.RunsProofs
import Dytan.TaintGeneratorProofs
import Dytan.TaintSourceProofs

/-! # The assignment log — what the callbacks write about their marks

    The callbacks of the taint sources once more, with the generator any object
    that answers `nextTaintMark`, and with the lines they append to
    `taintAssignmentLog`.  A line keeps its numbers as the digits that were
    printed: the stream prints in the base it was last switched to, and does
    not say which.

    `readCallbacks_mark_iff` describes the four read callbacks without a
    configured range.  They do what they should exactly as long as the marks
    they draw are positions of the tool's bitsets.  Without the log all these
    callbacks are those of the observers, one lemma for each. -/

namespace DytanAssignmentLog

open DytanBitset DytanRegister DytanTaintState DytanMarkFlow Numerals
open DytanSyscallState hiding Globals TaintGenerator nextTaintMark
open DytanTaintSource (setTag setTag_init setTag_neg markOnly markOnly_spec reset_markOnly
  copyByte_markOnly writeTags writeTags_range_some writeTags_range_out DatFile)
open DytanTaintGenerator (TaintGenerator)
open Runs (Related runs_related)

variable {ws : WordSize} {σ : Type} {N : Nat}

/-- A subclass of `TaintGenerator`: its `nextTaintMark` returns an `int`. -/
class MarkGenerator (σ : Type) where
  nextTaintMark : σ → Int × σ

export MarkGenerator (nextTaintMark)

/-- `TaintGenerator` itself. -/
instance : MarkGenerator TaintGenerator where
  nextTaintMark gen :=
    let (tag, gen') := DytanTaintGenerator.nextTaintMark gen
    (tag.toInt, gen')

section Generators

variable [MarkGenerator σ]

/-- The generator after `n` calls. -/
def after : Nat → σ → σ
  | 0, gen => gen
  | n + 1, gen => after n (nextTaintMark gen).2

/-- The mark call number `k` returns, from 0 on. -/
def mark (gen : σ) (k : Nat) : Int := (nextTaintMark (after k gen)).1

/-- A position of the tool's bitsets. -/
def Legal (N : Nat) (tag : Int) : Prop := 0 ≤ tag ∧ tag < N

instance (N : Nat) (tag : Int) : Decidable (Legal N tag) :=
  inferInstanceAs (Decidable (0 ≤ tag ∧ tag < N))

theorem Legal.toNat_lt {tag : Int} (h : Legal N tag) : tag.toNat < N := by
  obtain ⟨hnonneg, hlt⟩ := h
  omega

/-- The marks of the next `n` calls, as the positions they set. -/
def markTags (n : Nat) (gen : σ) : List (Option Nat) :=
  match n with
  | 0 => []
  | n + 1 => some (nextTaintMark gen).1.toNat :: markTags n (nextTaintMark gen).2

theorem markTags_getElem? {n k : Nat} (gen : σ) (hk : k < n) :
    (markTags n gen)[k]? = some (some (mark gen k).toNat) := by
  induction n generalizing k gen with
  | zero => exact absurd hk (Nat.not_lt_zero k)
  | succ n ih =>
      rw [markTags]
      cases k with
      | zero => rfl
      | succ k => exact ih (nextTaintMark gen).2 (by omega)

@[simp] theorem markTags_length (n : Nat) (gen : σ) : (markTags n gen).length = n := by
  induction n generalizing gen with
  | zero => rfl
  | succ n ih => rw [markTags, List.length_cons, ih]

/-- The first mark is legal, and those after it are. -/
theorem legal_succ_iff {n : Nat} {gen : σ} :
    (∀ k < n + 1, Legal N (mark gen k))
      ↔ Legal N (nextTaintMark gen).1 ∧ ∀ k < n, Legal N (mark (nextTaintMark gen).2 k) := by
  constructor
  · intro h
    exact ⟨h 0 (by omega), fun k hk => h (k + 1) (by omega)⟩
  · rintro ⟨hfirst, hrest⟩ k hk
    cases k with
    | zero => exact hfirst
    | succ k => exact hrest k (by omega)

end Generators

/-- Only a legal mark can be set. -/
theorem setTag_init_eq (tag : Int) : setTag (bitsetInit ws.bits N) tag
    = if Legal N tag then some (markOnly ws N tag.toNat) else none := by
  by_cases hneg : 0 ≤ tag
  · obtain ⟨t, rfl⟩ := Int.eq_ofNat_of_zero_le hneg
    by_cases hlt : t < N
    · rw [setTag_init hlt, if_pos ⟨hneg, Int.ofNat_lt.mpr hlt⟩, Int.toNat_natCast]
    · rw [if_neg fun h => hlt (Int.ofNat_lt.mp h.2), setTag, if_pos hneg, bitsetSetBit,
        if_neg (show ¬ (t : Int).toNat < (bitsetInit ws.bits N).nbits from hlt)]
  · rw [setTag_neg _ (Int.not_le.mp hneg), if_neg fun h => hneg h.1]

theorem setTag_init_eq_some {tag : Int} {s : Bitset ws.bits}
    (h : setTag (bitsetInit ws.bits N) tag = some s) :
    Legal N tag ∧ s = markOnly ws N tag.toNat := by
  rw [setTag_init_eq] at h
  split at h
  · rename_i hlegal
    cases h
    exact ⟨hlegal, rfl⟩
  · exact nomatch h

/-! ## The stream -/

/-- The base a stream prints numbers in. -/
inductive Base where
  | dec
  | hex
deriving DecidableEq, Repr

/-- Its radix. -/
def Base.radix : Base → Nat
  | .dec => 10
  | .hex => 16

/-- Where a line says its marks come from.  Offsets are digits. -/
inductive Source where
  | file (pathname : String) (offset : List Nat)
  | fileRange (pathname : String) (start stop : List Nat)
  | network (strAddress : String)
  | call
deriving DecidableEq, Repr

/-- The addresses a line lists, as digits. -/
inductive Addresses where
  | one (address : List Nat)
  | range (first last : List Nat)
deriving DecidableEq, Repr

/-- The value of a byte: a number, and a character where that can be printed. -/
structure Value where
  number : List Nat
  char : Option Char
deriving DecidableEq, Repr

/-- A line of the log. -/
inductive Line where
  | heading (text : String)
  | assignment (mark : List Nat) (source : Source) (addresses : Addresses) (value : Option Value)
deriving DecidableEq, Repr

/-- `taintAssignmentLog`: the base it is switched to, and its lines. -/
structure Log where
  base : Base
  lines : List Line
deriving DecidableEq, Repr

/-- The log as it is opened. -/
def Log.init : Log := ⟨.dec, []⟩

/-- `isprint` of a `char`. -/
def isprint (c : BitVec 8) : Bool := 32 ≤ c.toNat && c.toNat < 127

/-- `<< std::hex << (int)*p`, and the character after it. -/
def Value.ofByte (c : BitVec 8) : Value where
  number := numeral 16 (c.signExtend 32).toNat
  char := if isprint c then some (Char.ofNat c.toNat) else none

/-- A line with a text. -/
def Log.heading (log : Log) (text : String) : Log :=
  { log with lines := log.lines ++ [.heading text] }

/-- The line of one byte of a file.  A mark that is printed has been set, so it
    is not negative. -/
def fileLine (tag : Int) (pathname : String) (curr : Nat) (addr : Addr ws) (c : BitVec 8) : Line :=
  .assignment (numeral 10 tag.toNat) (.file pathname (numeral 10 curr))
    (.one (numeral 16 addr.toNat)) (some (.ofByte c))

/-- `<< std::dec << tag << " - " << pathname << "[" << curr << "] -> " << std::hex << addr …`. -/
def Log.fileByte (log : Log) (tag : Int) (pathname : String) (curr : Nat) (addr : Addr ws)
    (c : BitVec 8) : Log :=
  ⟨.hex, log.lines ++ [fileLine tag pathname curr addr c]⟩

/-- The line of one byte from the network: no base is chosen for the mark. -/
def networkLine (base : Base) (tag : Int) (strAddress : String) (addr : Addr ws) : Line :=
  .assignment (numeral base.radix tag.toNat) (.network strAddress) (.one (numeral 16 addr.toNat))
    none

/-- `<< tag << " - [" << networkAddr.strAddress << "] -> " << std::hex << currAddress`. -/
def Log.networkByte (log : Log) (tag : Int) (strAddress : String) (addr : Addr ws) : Log :=
  ⟨.hex, log.lines ++ [networkLine log.base tag strAddress addr]⟩

/-- The loop that logs the bytes of a read from the network. -/
def Log.network (log : Log) (tag : Int) (strAddress : String) (addrs : List (Addr ws)) : Log :=
  addrs.foldl (fun log addr => log.networkByte tag strAddress addr) log

/-- The line of a range, with its last address: no base is chosen for the
    mark. -/
def rangeLine (base : Base) (tag : Int) (source : Source) (first last : Addr ws) : Line :=
  .assignment (numeral base.radix tag.toNat) source
    (.range (numeral 16 first.toNat) (numeral 16 last.toNat)) none

/-- `<< tag … << std::hex << start << "-" << std::hex << end - 1`. -/
def Log.range (log : Log) (tag : Int) (source : Source) (first last : Addr ws) : Log :=
  ⟨.hex, log.lines ++ [rangeLine log.base tag source first last]⟩

/-! ## The callbacks -/

/-- The globals the callbacks use; `count` is the `static` of the per-offset
    callback. -/
structure Globals (ws : WordSize) (σ : Type) where
  memTaintMap : TaintMap ws
  taintGen : Option σ
  count : Int
  taintAssignmentLog : Log

/-- What a callback asks the system after a read: where the file is, which is
    behind the bytes read, and the bytes of the buffer. -/
structure Descriptor (ws : WordSize) where
  currentOffset : Nat
  byteAt : Addr ws → BitVec 8

/-- The globals when `main` has made the generator and opened the log. -/
def Globals.init (ws : WordSize) (gen : σ) : Globals ws σ where
  memTaintMap := ∅
  taintGen := some gen
  count := -1
  taintAssignmentLog := .init

/-- Append a line with a text. -/
def Globals.heading (g : Globals ws σ) (text : String) : Globals ws σ :=
  { g with taintAssignmentLog := g.taintAssignmentLog.heading text }

section Callbacks

variable [MarkGenerator σ] (N)

/-- `taintGen->nextTaintMark()`, after `assert(taintGen)`. -/
def drawMark (g : Globals ws σ) : Option (Int × Globals ws σ) := do
  let gen ← g.taintGen
  let (tag, gen') := nextTaintMark gen
  some (tag, { g with taintGen := some gen' })

/-- One turn of the per-byte loops, before anything is logged; `s` is empty
    again after it. -/
def taintByte (s : Bitset ws.bits) (g : Globals ws σ) (addr : Addr ws) :
    Option (Int × Bitset ws.bits × Globals ws σ) := do
  let (tag, g) ← drawMark g
  let s ← setTag s tag
  some (tag, bitsetReset s, { g with memTaintMap := copyByte s g.memTaintMap addr })

/-- One turn of the loop of `pathSourceReadCallbackPerByte`. -/
def fileByte (d : Descriptor ws) (pathname : String) (p : Bitset ws.bits × Nat × Globals ws σ)
    (addr : Addr ws) : Option (Bitset ws.bits × Nat × Globals ws σ) := do
  let (s, curr, g) := p
  let (tag, s, g) ← taintByte s g addr
  some (s, curr + 1, { g with
    taintAssignmentLog := g.taintAssignmentLog.fileByte tag pathname curr addr (d.byteAt addr) })

/-- `pathSourceReadCallbackPerByte`. -/
def pathSourceReadCallbackPerByte (d : Descriptor ws) (pathname : String)
    (args : SyscallArguments ws) (g : Globals ws σ) : Option (Globals ws σ) :=
  let ret := int args.ret
  if ret.toInt ≤ 0 then some g
  else if g.taintGen.isSome then do
    let curr := d.currentOffset - args.ret.toNat
    let (_, _, g) ← (addrRange args.arg1 (ofInt ws ret)).foldlM (fileByte d pathname)
      (bitsetInit ws.bits N, curr, g.heading ("Tainted from file " ++ pathname))
    some g
  else none

/-- `pathSourceReadCallbackPerRead`. -/
def pathSourceReadCallbackPerRead (d : Descriptor ws) (pathname : String)
    (args : SyscallArguments ws) (g : Globals ws σ) : Option (Globals ws σ) :=
  let ret := int args.ret
  if ret.toInt ≤ 0 then some g
  else do
    let (tag, g) ← drawMark g
    let s ← setTag (bitsetInit ws.bits N) tag
    let g := { g with memTaintMap := copyRange s args.arg1 (ofInt ws ret) g.memTaintMap }
    let g := g.heading ("Tainted from file " ++ pathname)
    let radix := g.taintAssignmentLog.base.radix
    let source := Source.fileRange pathname
      (numeral radix (d.currentOffset - args.ret.toNat)) (numeral radix d.currentOffset)
    some { g with taintAssignmentLog :=
      g.taintAssignmentLog.range tag source args.arg1 (args.arg1 + ofInt ws ret - 1) }

/-- The variables of the per-offset loop. -/
structure OffsetLoop (ws : WordSize) where
  s : Bitset ws.bits
  flag : Bool
  index : Nat
  tag : Int
  curr : Nat

/-- `if (flag) tag = taintGen->nextTaintMark();`. -/
def offsetMark (flag : Bool) (tag : Int) (g : Globals ws σ) : Option (Int × Globals ws σ) :=
  if flag then drawMark g else some (tag, g)

/-- One turn of the per-offset loop; it may `continue` before the byte is
    tainted.  An overflow of `count` is undefined. -/
def offsetByte (datFile : DatFile) (d : Descriptor ws) (pathname : String)
    (p : OffsetLoop ws × Globals ws σ) (addr : Addr ws) :
    Option (OffsetLoop ws × Globals ws σ) := do
  let (l, g) := p
  if g.count + 1 < 2 ^ 31 then
    let count := g.count + 1
    let g := { g with count := count }
    let (start, stop) ← datFile.range l.index
    if count < start ∨ count > stop then some (l, g)
    else
      let flag := l.flag || decide (count = start)
      let index := if count = stop then l.index + 1 else l.index
      let (tag, g) ← offsetMark flag l.tag g
      let s ← setTag l.s tag
      some (⟨bitsetReset s, false, index, tag, l.curr + 1⟩, { g with
        memTaintMap := copyByte s g.memTaintMap addr
        taintAssignmentLog :=
          g.taintAssignmentLog.fileByte tag pathname l.curr addr (d.byteAt addr) })
  else none

/-- `pathSourceReadCallbackPerOffset`. -/
def pathSourceReadCallbackPerOffset (datFile : DatFile) (d : Descriptor ws) (pathname : String)
    (args : SyscallArguments ws) (g : Globals ws σ) : Option (Globals ws σ) :=
  let ret := int args.ret
  if ret.toInt ≤ 0 then some g
  else if g.taintGen.isSome then do
    let curr := d.currentOffset - args.ret.toNat
    let (_, g) ← (addrRange args.arg1 (ofInt ws ret)).foldlM (offsetByte datFile d pathname)
      (⟨bitsetInit ws.bits N, false, 0, -1, curr⟩, g.heading ("Tainted from file " ++ pathname))
    some g
  else none

/-- One turn of the tainting loop of `networkReadCallbackPerByte`. -/
def networkByte (p : Int × Bitset ws.bits × Globals ws σ) (addr : Addr ws) :
    Option (Int × Bitset ws.bits × Globals ws σ) :=
  taintByte p.2.1 p.2.2 addr

/-- `networkReadCallbackPerByte`: a loop that taints and a loop that logs.
    `tag` is not printed before it is set. -/
def networkReadCallbackPerByte (strAddress : String) (start length : Addr ws)
    (g : Globals ws σ) : Option (Globals ws σ) :=
  if g.taintGen.isSome then do
    let (tag, _, g) ← (addrRange start length).foldlM networkByte (0, bitsetInit ws.bits N, g)
    some { g with
      taintAssignmentLog := g.taintAssignmentLog.network tag strAddress (addrRange start length) }
  else none

/-- `networkReadCallbackPerRead`. -/
def networkReadCallbackPerRead (strAddress : String) (start length : Addr ws)
    (g : Globals ws σ) : Option (Globals ws σ) := do
  let (tag, g) ← drawMark g
  let s ← setTag (bitsetInit ws.bits N) tag
  some { g with
    memTaintMap := copyRange s start length g.memTaintMap
    taintAssignmentLog :=
      g.taintAssignmentLog.range tag (.network strAddress) start (start + length - 1) }

/-- The mark of `SetNewTaintForMemory`: a new one for `-1`, or the caller's,
    which must not be too large. -/
def chooseMark (taintMark : Int) (g : Globals ws σ) : Option (Int × Globals ws σ) :=
  if taintMark = -1 then drawMark g
  else if taintMark ≥ N then none
  else some (taintMark, g)

/-- `SetNewTaintForMemory`. -/
def setNewTaintForMemory (addr size : Addr ws) (taintMark : Int) (g : Globals ws σ) :
    Option (Globals ws σ) := do
  let (tag, g) ← chooseMark N taintMark g
  let s ← setTag (bitsetInit ws.bits N) tag
  some { g with
    memTaintMap := copyRange s addr size g.memTaintMap
    taintAssignmentLog := g.taintAssignmentLog.range tag .call addr (addr + size - 1) }

end Callbacks

/-! ## What the loops do -/

section Loops

variable [MarkGenerator σ]

/-- What a loop that gives each of its bytes a mark leaves, whatever it logs. -/
structure Marked (N : Nat) (as : List (Addr ws)) (gen : σ) (g g' : Globals ws σ) : Prop where
  mem : g'.memTaintMap = writeTags N (as.zip (markTags as.length gen)) g.memTaintMap
  gen : g'.taintGen = some (after as.length gen)

theorem drawMark_eq {g : Globals ws σ} {gen : σ} (hgen : g.taintGen = some gen) :
    drawMark g
      = some ((nextTaintMark gen).1, { g with taintGen := some (nextTaintMark gen).2 }) := by
  rw [drawMark, hgen]
  rfl

/-- The mark of a byte comes with the map and the log of before. -/
theorem offsetMark_frame {flag : Bool} {tag tag' : Int} {g g' : Globals ws σ}
    (h : offsetMark flag tag g = some (tag', g')) :
    g'.memTaintMap = g.memTaintMap ∧ g'.count = g.count
      ∧ g'.taintAssignmentLog = g.taintAssignmentLog := by
  rw [offsetMark] at h
  split at h
  · obtain ⟨gen, -, h⟩ := Option.bind_eq_some_iff.mp h
    cases h
    exact ⟨rfl, rfl, rfl⟩
  · cases h
    exact ⟨rfl, rfl, rfl⟩

/-- The globals after a byte got the next mark. -/
def Globals.taint (N : Nat) (g : Globals ws σ) (gen : σ) (addr : Addr ws) : Globals ws σ :=
  { g with
    memTaintMap := g.memTaintMap.insert addr (markOnly ws N (nextTaintMark gen).1.toNat)
    taintGen := some (nextTaintMark gen).2 }

/-- One turn: a legal mark is stored, and the scratch set is empty again; any
    other mark fails. -/
theorem taintByte_eq {g : Globals ws σ} {gen : σ} (hgen : g.taintGen = some gen) (addr : Addr ws) :
    taintByte (bitsetInit ws.bits N) g addr
      = if Legal N (nextTaintMark gen).1
        then some ((nextTaintMark gen).1, bitsetInit ws.bits N, g.taint N gen addr)
        else none := by
  rw [taintByte, drawMark_eq hgen]
  simp only [Option.bind_eq_bind, Option.bind_some, setTag_init_eq]
  split
  · rename_i hlegal
    rw [Option.bind_some, reset_markOnly hlegal.toNat_lt, copyByte_markOnly hlegal.toNat_lt]
    rfl
  · rfl

/-- The lines of the bytes of a file that got a mark; the offset printed only
    counts those. -/
def fileLines (d : Descriptor ws) (pathname : String) :
    List (Addr ws) → List (Option Nat) → Nat → List Line
  | addr :: as, some tag :: tags, curr =>
      fileLine tag pathname curr addr (d.byteAt addr) :: fileLines d pathname as tags (curr + 1)
  | _ :: as, none :: tags, curr => fileLines d pathname as tags curr
  | _, _, _ => []

/-- The log after the line of a byte with a legal mark. -/
theorem fileByte_lines {tag : Int} (h : Legal N tag) (log : Log) (pathname : String) (curr : Nat)
    (addr : Addr ws) (c : BitVec 8) : (log.fileByte tag pathname curr addr c).lines
      = log.lines ++ [fileLine (tag.toNat : Int) pathname curr addr c] := by
  rw [Int.toNat_of_nonneg h.1]
  rfl

/-- Marked by the rest of the loop, marked by the loop. -/
theorem Marked.cons {as : List (Addr ws)} {gen : σ} {g g₁ g' : Globals ws σ} {addr : Addr ws}
    (h : Marked N as (nextTaintMark gen).2 g₁ g')
    (hmem : g₁.memTaintMap = (g.taint N gen addr).memTaintMap) :
    Marked N (addr :: as) gen g g' where
  mem := by
    rw [h.mem, hmem]
    rfl
  gen := h.gen

/-- The loop of the path callback. -/
theorem foldlM_fileByte (d : Descriptor ws) (pathname : String) (as : List (Addr ws))
    {g : Globals ws σ} {gen : σ} (hgen : g.taintGen = some gen) (curr : Nat) :
    ((∀ k < as.length, Legal N (mark gen k)) →
        ∃ g', as.foldlM (fileByte d pathname) (bitsetInit ws.bits N, curr, g)
            = some (bitsetInit ws.bits N, curr + as.length, g')
          ∧ Marked N as gen g g'
          ∧ g'.taintAssignmentLog.lines
            = g.taintAssignmentLog.lines
              ++ fileLines d pathname as (markTags as.length gen) curr)
      ∧ ((¬ ∀ k < as.length, Legal N (mark gen k)) →
        as.foldlM (fileByte d pathname) (bitsetInit ws.bits N, curr, g) = none) := by
  induction as generalizing g gen curr with
  | nil =>
      refine ⟨fun _ => ⟨g, rfl, ⟨rfl, hgen⟩, ?_⟩, fun h => absurd (fun k hk => nomatch hk) h⟩
      exact (List.append_nil _).symm
  | cons addr rest ih =>
      rw [List.length_cons, legal_succ_iff, List.foldlM_cons, fileByte]
      simp only [taintByte_eq hgen]
      by_cases hfirst : Legal N (nextTaintMark gen).1
      · rw [if_pos hfirst]
        simp only [Option.bind_eq_bind, Option.bind_some]
        have hgen' : { g.taint N gen addr with
            taintAssignmentLog := g.taintAssignmentLog.fileByte (nextTaintMark gen).1 pathname curr
              addr (d.byteAt addr) }.taintGen = some (nextTaintMark gen).2 := rfl
        obtain ⟨hall, hnone⟩ := ih hgen' (curr + 1)
        refine ⟨fun h => ?_, fun h => hnone fun hrest => h ⟨hfirst, hrest⟩⟩
        obtain ⟨g', hrun, hmarked, hlines⟩ := hall h.2
        refine ⟨g', ?_, hmarked.cons rfl, ?_⟩
        · rw [Nat.add_comm rest.length 1, ← Nat.add_assoc]
          exact hrun
        · rw [hlines, fileByte_lines hfirst]
          exact List.append_assoc ..
      · rw [if_neg hfirst]
        exact ⟨fun h => absurd h.1 hfirst, fun _ => rfl⟩

/-- The tainting loop of the network callback; `tag` ends as the last mark
    drawn. -/
theorem foldlM_networkByte (as : List (Addr ws)) {g : Globals ws σ} {gen : σ}
    (hgen : g.taintGen = some gen) (tag : Int) :
    ((∀ k < as.length, Legal N (mark gen k)) →
        ∃ tag' g', as.foldlM networkByte (tag, bitsetInit ws.bits N, g)
            = some (tag', bitsetInit ws.bits N, g')
          ∧ Marked N as gen g g' ∧ g'.taintAssignmentLog = g.taintAssignmentLog
          ∧ (0 < as.length → tag' = mark gen (as.length - 1)))
      ∧ ((¬ ∀ k < as.length, Legal N (mark gen k)) →
        as.foldlM networkByte (tag, bitsetInit ws.bits N, g) = none) := by
  induction as generalizing g gen tag with
  | nil =>
      exact ⟨fun _ => ⟨tag, g, rfl, ⟨rfl, hgen⟩, rfl, fun h => absurd h (Nat.lt_irrefl 0)⟩,
        fun h => absurd (fun k hk => nomatch hk) h⟩
  | cons addr rest ih =>
      rw [List.length_cons, legal_succ_iff, List.foldlM_cons, networkByte]
      simp only [taintByte_eq hgen]
      by_cases hfirst : Legal N (nextTaintMark gen).1
      · rw [if_pos hfirst]
        simp only [Option.bind_eq_bind, Option.bind_some]
        have hgen' : (g.taint N gen addr).taintGen = some (nextTaintMark gen).2 := rfl
        obtain ⟨hall, hnone⟩ := ih hgen' (nextTaintMark gen).1
        refine ⟨fun h => ?_, fun h => hnone fun hrest => h ⟨hfirst, hrest⟩⟩
        obtain ⟨tag', g', hrun, hmarked, hlog, htag⟩ := hall h.2
        refine ⟨tag', g', hrun, hmarked.cons rfl, hlog, fun _ => ?_⟩
        rw [Nat.add_sub_cancel]
        cases rest with
        | nil =>
            -- the tag is that of this turn
            cases hrun
            rfl
        | cons b rest => exact htag (Nat.succ_pos _)
      · rw [if_neg hfirst]
        exact ⟨fun h => absurd h.1 hfirst, fun _ => rfl⟩

/-! ## What the callbacks leave -/

section Calls

variable {g : Globals ws σ} {gen : σ} (hgen : g.taintGen = some gen) (d : Descriptor ws)
  (pathname strAddress : String) (args : SyscallArguments ws) (start length : Addr ws)

include hgen

theorem pathSourceReadCallbackPerByte_spec (hret : 0 < (int args.ret).toInt) :
    ((∀ k < (addrRange args.arg1 (ofInt ws (int args.ret))).length, Legal N (mark gen k)) →
        ∃ g', pathSourceReadCallbackPerByte N d pathname args g = some g'
          ∧ Marked N (addrRange args.arg1 (ofInt ws (int args.ret))) gen g g'
          ∧ g'.taintAssignmentLog.lines = g.taintAssignmentLog.lines
            ++ .heading ("Tainted from file " ++ pathname)
              :: fileLines d pathname (addrRange args.arg1 (ofInt ws (int args.ret)))
                (markTags (addrRange args.arg1 (ofInt ws (int args.ret))).length gen)
                (d.currentOffset - args.ret.toNat))
      ∧ ((¬ ∀ k < (addrRange args.arg1 (ofInt ws (int args.ret))).length,
          Legal N (mark gen k)) →
        pathSourceReadCallbackPerByte N d pathname args g = none) := by
  have hsome : g.taintGen.isSome = true := by rw [hgen]; rfl
  have hheading : (g.heading ("Tainted from file " ++ pathname)).taintGen = some gen := hgen
  obtain ⟨hall, hnone⟩ := foldlM_fileByte (N := N) d pathname
    (addrRange args.arg1 (ofInt ws (int args.ret))) hheading (d.currentOffset - args.ret.toNat)
  simp only [pathSourceReadCallbackPerByte, if_neg (Int.not_le.mpr hret), if_pos hsome]
  refine ⟨fun h => ?_, fun h => ?_⟩
  · obtain ⟨g', hrun, hmarked, hlines⟩ := hall h
    refine ⟨g', by rw [hrun]; rfl, ⟨hmarked.mem, hmarked.gen⟩, ?_⟩
    rw [hlines]
    exact List.append_assoc ..
  · rw [hnone h]
    rfl

theorem networkReadCallbackPerByte_spec :
    ((∀ k < (addrRange start length).length, Legal N (mark gen k)) →
        ∃ tag g', networkReadCallbackPerByte N strAddress start length g = some g'
          ∧ Marked N (addrRange start length) gen g g'
          ∧ g'.taintAssignmentLog
            = g.taintAssignmentLog.network tag strAddress (addrRange start length)
          ∧ (0 < (addrRange start length).length →
            tag = mark gen ((addrRange start length).length - 1)))
      ∧ ((¬ ∀ k < (addrRange start length).length, Legal N (mark gen k)) →
        networkReadCallbackPerByte N strAddress start length g = none) := by
  have hsome : g.taintGen.isSome = true := by rw [hgen]; rfl
  obtain ⟨hall, hnone⟩ := foldlM_networkByte (N := N) (addrRange start length) hgen 0
  simp only [networkReadCallbackPerByte, if_pos hsome]
  refine ⟨fun h => ?_, fun h => ?_⟩
  · obtain ⟨tag, g', hrun, hmarked, hlog, htag⟩ := hall h
    refine ⟨tag, { g' with taintAssignmentLog :=
      g'.taintAssignmentLog.network tag strAddress (addrRange start length) },
      by rw [hrun]; rfl, ⟨hmarked.mem, hmarked.gen⟩, ?_, htag⟩
    rw [hlog]
  · rw [hnone h]
    rfl

theorem networkReadCallbackPerRead_eq :
    networkReadCallbackPerRead N strAddress start length g
      = if Legal N (nextTaintMark gen).1 then some { g with
          memTaintMap :=
            copyRange (markOnly ws N (nextTaintMark gen).1.toNat) start length g.memTaintMap
          taintGen := some (nextTaintMark gen).2
          taintAssignmentLog := g.taintAssignmentLog.range (nextTaintMark gen).1
            (.network strAddress) start (start + length - 1) }
        else none := by
  rw [networkReadCallbackPerRead, drawMark_eq hgen]
  simp only [Option.bind_eq_bind, Option.bind_some, setTag_init_eq]
  split <;> rfl

/-- The range of the file a read came from, as the log names it. -/
def readSource (base : Base) (d : Descriptor ws) (pathname : String) (ret : Addr ws) : Source :=
  .fileRange pathname (numeral base.radix (d.currentOffset - ret.toNat))
    (numeral base.radix d.currentOffset)

theorem pathSourceReadCallbackPerRead_eq (hret : 0 < (int args.ret).toInt) :
    pathSourceReadCallbackPerRead N d pathname args g
      = if Legal N (nextTaintMark gen).1 then some { g with
          memTaintMap := copyRange (markOnly ws N (nextTaintMark gen).1.toNat) args.arg1
            (ofInt ws (int args.ret)) g.memTaintMap
          taintGen := some (nextTaintMark gen).2
          taintAssignmentLog :=
            (g.taintAssignmentLog.heading ("Tainted from file " ++ pathname)).range
              (nextTaintMark gen).1 (readSource g.taintAssignmentLog.base d pathname args.ret)
              args.arg1 (args.arg1 + ofInt ws (int args.ret) - 1) }
        else none := by
  rw [pathSourceReadCallbackPerRead, if_neg (Int.not_le.mpr hret), drawMark_eq hgen]
  simp only [Option.bind_eq_bind, Option.bind_some, setTag_init_eq]
  split <;> rfl

end Calls

/-! ## Marks and bytes stay in step -/

/-- `n` marks are drawn, byte `start + k` has exactly the one of draw `k`, and
    every other entry is as it was. -/
structure MarksEachByte (gen : σ) (start : Addr ws) (n : Nat) (g g' : Globals ws σ) : Prop where
  drawn : g'.taintGen = some (after n gen)
  bytes : ∀ (k : Nat) (a : Addr ws), k < n → a.toNat = start.toNat + k →
    ∃ t : Nat, mark gen k = t ∧ entryMarks g'.memTaintMap[a]? = {t}
  others : ∀ a : Addr ws, (∀ k < n, a.toNat ≠ start.toNat + k) →
    g'.memTaintMap[a]? = g.memTaintMap[a]?

/-- One mark is drawn, every byte of the range has exactly that one, and every
    other entry is as it was. -/
structure MarksRead (gen : σ) (start : Addr ws) (n : Nat) (g g' : Globals ws σ) : Prop where
  drawn : g'.taintGen = some (after 1 gen)
  bytes : ∃ t : Nat, mark gen 0 = t ∧ ∀ (k : Nat) (a : Addr ws), k < n →
    a.toNat = start.toNat + k → entryMarks g'.memTaintMap[a]? = {t}
  others : ∀ a : Addr ws, (∀ k < n, a.toNat ≠ start.toNat + k) →
    g'.memTaintMap[a]? = g.memTaintMap[a]?

section InStep

variable {g g' : Globals ws σ} {gen : σ} {start size : Addr ws}

/-- An address outside of the range, by its distance from the start. -/
theorem notMem_addrRange (hwrap : start.toNat + size.toNat < 2 ^ ws.bits) {a : Addr ws}
    (ha : ∀ k < size.toNat, a.toNat ≠ start.toNat + k) : a ∉ addrRange start size := by
  intro hmem
  obtain ⟨hle, hlt⟩ := (mem_addrRange_of_lt hwrap).mp hmem
  exact ha (a.toNat - start.toNat) (by omega) (by omega)

/-- The marks the per-byte loops leave. -/
theorem entryMarks_of_marked (h : Marked N (addrRange start size) gen g g')
    (hlegal : ∀ k < (addrRange start size).length, Legal N (mark gen k)) {k : Nat} {a : Addr ws}
    (ha : (addrRange start size)[k]? = some a) :
    entryMarks g'.memTaintMap[a]? = {(mark gen k).toNat} := by
  obtain ⟨hk, -⟩ := List.getElem?_eq_some_iff.mp ha
  rw [h.mem]
  exact writeTags_range_some (markTags_length _ gen) ha (markTags_getElem? gen hk)
    (hlegal k hk).toNat_lt g.memTaintMap

theorem Marked.marksEachByte (hwrap : start.toNat + size.toNat < 2 ^ ws.bits)
    (h : Marked N (addrRange start size) gen g g')
    (hlegal : ∀ k < size.toNat, Legal N (mark gen k)) :
    MarksEachByte gen start size.toNat g g' where
  drawn := by rw [h.gen, addrRange_length hwrap]
  bytes := by
    intro k a hk ha
    obtain ⟨hnonneg, -⟩ := hlegal k hk
    refine ⟨(mark gen k).toNat, (Int.toNat_of_nonneg hnonneg).symm, ?_⟩
    refine entryMarks_of_marked h ?_ ((addrRange_getElem?_iff hwrap).mpr ⟨hk, ha⟩)
    rw [addrRange_length hwrap]
    exact hlegal
  others := by
    intro a ha
    rw [h.mem]
    exact writeTags_range_out (notMem_addrRange hwrap ha) g.memTaintMap

/-- The copies of a bitset with one mark. -/
theorem copyRange_markOnly {t : Nat} (ht : t < N) (m : TaintMap ws) (a : Addr ws) :
    (copyRange (markOnly ws N t) start size m)[a]?
      = if a ∈ addrRange start size then some (markOnly ws N t) else m[a]? :=
  copyRange_getElem? (markOnly_spec ht).1 start size m a

theorem entryMarks_copyRange {t : Nat} (ht : t < N) (m : TaintMap ws) {a : Addr ws}
    (ha : a ∈ addrRange start size) :
    entryMarks (copyRange (markOnly ws N t) start size m)[a]? = {t} := by
  rw [copyRange_markOnly ht, if_pos ha, entryMarks_some]
  exact (markOnly_spec ht).2

/-- One mark for the whole range. -/
theorem marksRead_of_copyRange (hwrap : start.toNat + size.toNat < 2 ^ ws.bits)
    (hlegal : Legal N (nextTaintMark gen).1) (hgen : g'.taintGen = some (nextTaintMark gen).2)
    (hmem : g'.memTaintMap
      = copyRange (markOnly ws N (nextTaintMark gen).1.toNat) start size g.memTaintMap) :
    MarksRead gen start size.toNat g g' where
  drawn := hgen
  bytes := by
    refine ⟨(nextTaintMark gen).1.toNat, (Int.toNat_of_nonneg hlegal.1).symm, ?_⟩
    intro k a hk ha
    rw [hmem]
    exact entryMarks_copyRange hlegal.toNat_lt g.memTaintMap
      ((mem_addrRange_of_lt hwrap).mpr (by omega))
  others := by
    intro a ha
    rw [hmem, copyRange_markOnly hlegal.toNat_lt, if_neg (notMem_addrRange hwrap ha)]

/-- A callback that stores a mark for each byte, or fails. -/
theorem marksEachByte_iff (hwrap : start.toNat + size.toNat < 2 ^ ws.bits)
    {o : Option (Globals ws σ)}
    (hall : (∀ k < (addrRange start size).length, Legal N (mark gen k)) →
      ∃ g', o = some g' ∧ Marked N (addrRange start size) gen g g')
    (hnone : (¬ ∀ k < (addrRange start size).length, Legal N (mark gen k)) → o = none) :
    (∃ g', o = some g' ∧ MarksEachByte gen start size.toNat g g')
      ↔ ∀ k < size.toNat, Legal N (mark gen k) := by
  rw [addrRange_length hwrap] at hall hnone
  constructor
  · rintro ⟨g', ho, -⟩
    by_contra hlegal
    rw [hnone hlegal] at ho
    exact nomatch ho
  · intro hlegal
    obtain ⟨g', ho, hmarked⟩ := hall hlegal
    exact ⟨g', ho, hmarked.marksEachByte hwrap hlegal⟩

/-- A callback that stores one mark at every byte, or fails. -/
theorem marksRead_iff (hwrap : start.toNat + size.toNat < 2 ^ ws.bits)
    {o : Option (Globals ws σ)}
    (ho : o = if Legal N (nextTaintMark gen).1 then some g' else none)
    (hgen : g'.taintGen = some (nextTaintMark gen).2)
    (hmem : g'.memTaintMap
      = copyRange (markOnly ws N (nextTaintMark gen).1.toNat) start size g.memTaintMap) :
    (∃ g', o = some g' ∧ MarksRead gen start size.toNat g g') ↔ Legal N (mark gen 0) := by
  show _ ↔ Legal N (nextTaintMark gen).1
  constructor
  · rintro ⟨g₁, hsome, -⟩
    by_contra hlegal
    rw [ho, if_neg hlegal] at hsome
    exact nomatch hsome
  · intro hlegal
    refine ⟨g', ?_, marksRead_of_copyRange hwrap hlegal hgen hmem⟩
    rw [ho, if_pos hlegal]

end InStep

/-- A positive `int` is below `2^31`. -/
theorem toNat_lt_of_toInt_pos {x : BitVec 32} (h : 0 < x.toInt) : x.toNat < 2 ^ 31 := by
  rw [BitVec.toInt_eq_toNat_cond] at h
  split at h <;> omega

/-- **The four read callbacks**: each gives the bytes of the buffer the marks it
    should exactly when the marks it draws are legal; a read without bytes
    changes nothing. -/
theorem readCallbacks_mark_iff {g : Globals ws σ} {gen : σ} (hgen : g.taintGen = some gen)
    (d : Descriptor ws) (pathname strAddress : String) (args : SyscallArguments ws)
    (start length : Addr ws) :
    (0 < (int args.ret).toInt → args.arg1.toNat + (int args.ret).toNat < 2 ^ ws.bits →
      ((∃ g', pathSourceReadCallbackPerByte N d pathname args g = some g'
          ∧ MarksEachByte gen args.arg1 (int args.ret).toNat g g')
        ↔ ∀ k < (int args.ret).toNat, Legal N (mark gen k))
      ∧ ((∃ g', pathSourceReadCallbackPerRead N d pathname args g = some g'
          ∧ MarksRead gen args.arg1 (int args.ret).toNat g g')
        ↔ Legal N (mark gen 0)))
    ∧ ((int args.ret).toInt ≤ 0 →
      pathSourceReadCallbackPerByte N d pathname args g = some g
        ∧ pathSourceReadCallbackPerRead N d pathname args g = some g)
    ∧ (start.toNat + length.toNat < 2 ^ ws.bits →
      ((∃ g', networkReadCallbackPerByte N strAddress start length g = some g'
          ∧ MarksEachByte gen start length.toNat g g')
        ↔ ∀ k < length.toNat, Legal N (mark gen k))
      ∧ ((∃ g', networkReadCallbackPerRead N strAddress start length g = some g'
          ∧ MarksRead gen start length.toNat g g')
        ↔ Legal N (mark gen 0))) := by
  refine ⟨fun hret hwrap => ?_, fun hret => ?_, fun hwrap => ?_⟩
  · have hsize : (ofInt ws (int args.ret)).toNat = (int args.ret).toNat :=
      ofInt_toNat (toNat_lt_of_toInt_pos hret)
    rw [← hsize] at hwrap ⊢
    constructor
    · obtain ⟨hall, hnone⟩ := pathSourceReadCallbackPerByte_spec hgen d pathname args hret
      refine marksEachByte_iff hwrap (fun h => ?_) hnone
      obtain ⟨g', hcall, hmarked, -⟩ := hall h
      exact ⟨g', hcall, hmarked⟩
    · exact marksRead_iff hwrap (pathSourceReadCallbackPerRead_eq hgen d pathname args hret) rfl
        rfl
  · exact ⟨if_pos hret, if_pos hret⟩
  · constructor
    · obtain ⟨hall, hnone⟩ := networkReadCallbackPerByte_spec hgen strAddress start length
      refine marksEachByte_iff hwrap (fun h => ?_) hnone
      obtain ⟨tag, g', hcall, hmarked, -⟩ := hall h
      exact ⟨g', hcall, hmarked⟩
    · exact marksRead_iff hwrap (networkReadCallbackPerRead_eq hgen strAddress start length) rfl
        rfl

end Loops

/-! ## The callbacks of the observers

    The observers' callbacks have no log, and a generator that stops where its
    counter would overflow.  Without the log these callbacks are those. -/

section Observers

/-- Where the counter would overflow there is no legal mark. -/
instance : MarkGenerator (DytanSyscallState.TaintGenerator N) where
  nextTaintMark gen :=
    match DytanSyscallState.nextTaintMark gen with
    | some (tag, gen') => (tag, gen')
    | none => (-1, gen)

/-- The globals agree in what both have. -/
structure SameGlobals (g : Globals ws (DytanSyscallState.TaintGenerator N))
    (h : DytanSyscallState.Globals ws N) : Prop where
  mem : g.memTaintMap = h.memTaintMap
  gen : g.taintGen = h.taintGen
  count : g.count = h.count

variable {g : Globals ws (DytanSyscallState.TaintGenerator N)}
  {h : DytanSyscallState.Globals ws N}

/-- The next mark is drawn and set by both, or by neither. -/
theorem nextSet_related (gen : DytanSyscallState.TaintGenerator N) (s : Bitset ws.bits)
    {α β : Type} {R : α → β → Prop}
    {f : Int × DytanSyscallState.TaintGenerator N → Bitset ws.bits → Option α}
    {k : Nat × DytanSyscallState.TaintGenerator N → Bitset ws.bits → Option β}
    (hfk : ∀ (tag : Nat) gen' u, Related R (f (tag, gen') u) (k (tag, gen') u)) :
    Related R ((setTag s (nextTaintMark gen).1).bind fun u => f (nextTaintMark gen) u)
      ((DytanSyscallState.nextTaintMark gen).bind fun p => (setTag s p.1).bind fun u => k p u) := by
  simp only [nextTaintMark]
  cases hnext : DytanSyscallState.nextTaintMark gen with
  | none =>
      simp only [Option.bind_none]
      rw [setTag_neg s (by decide)]
      trivial
  | some p =>
      simp only [Option.bind_some]
      cases setTag s p.1 with
      | none => trivial
      | some u => exact hfk p.1 p.2 u

/-- A mark is drawn and set by both, or by neither. -/
theorem drawSet_related (hgh : SameGlobals g h) (s : Bitset ws.bits) {α β : Type}
    {R : α → β → Prop} {f : Int × Globals ws _ → Bitset ws.bits → Option α}
    {k : Nat × DytanSyscallState.Globals ws N → Bitset ws.bits → Option β}
    (hfk : ∀ p q u, p.1 = q.1 → SameGlobals p.2 q.2 → Related R (f p u) (k q u)) :
    Related R ((drawMark g).bind fun p => (setTag s p.1).bind fun u => f p u)
      ((DytanTaintSource.drawMark h).bind fun q => (setTag s q.1).bind fun u => k q u) := by
  rw [drawMark, DytanTaintSource.drawMark, ← hgh.gen]
  cases hgen : g.taintGen with
  | none => trivial
  | some gen =>
      simp only [Option.bind_eq_bind, Option.bind_some, Option.bind_assoc]
      exact nextSet_related (f := fun p u => f (p.1, { g with taintGen := some p.2 }) u)
        (k := fun q u => k (q.1, { h with taintGen := some q.2 }) u) gen s
        fun tag gen' u => hfk _ _ u rfl ⟨hgh.mem, rfl, hgh.count⟩

theorem SameGlobals.setMem (hgh : SameGlobals g h) {m m' : TaintMap ws} (hm : m = m')
    (log : Log) : SameGlobals { g with memTaintMap := m, taintAssignmentLog := log }
      (h.setMem m') := ⟨hm, hgh.gen, hgh.count⟩

theorem networkReadCallbackPerRead_related (hgh : SameGlobals g h) (strAddress : String)
    (start length : Addr ws) :
    Related SameGlobals (networkReadCallbackPerRead N strAddress start length g)
      (DytanTaintSource.networkReadCallbackPerRead start length h) := by
  refine drawSet_related hgh _ fun p q u _ hpq => ?_
  exact hpq.setMem (congrArg (copyRange u start length) hpq.mem) _

theorem pathSourceReadCallbackPerRead_related (hgh : SameGlobals g h) (d : Descriptor ws)
    (pathname : String) (args : SyscallArguments ws) :
    Related SameGlobals (pathSourceReadCallbackPerRead N d pathname args g)
      (DytanTaintSource.pathSourceReadCallbackPerRead args h) := by
  rw [pathSourceReadCallbackPerRead, DytanTaintSource.pathSourceReadCallbackPerRead]
  by_cases hret : (int args.ret).toInt ≤ 0
  · rw [if_pos hret, if_pos hret]
    exact hgh
  · rw [if_neg hret, if_neg hret]
    refine drawSet_related hgh _ fun p q u _ hpq => ?_
    exact hpq.setMem (congrArg (copyRange u args.arg1 (ofInt ws (int args.ret))) hpq.mem) _

theorem taintByte_related (hgh : SameGlobals g h) (s : Bitset ws.bits) (addr : Addr ws) :
    Related (fun p q => p.2.1 = q.1 ∧ SameGlobals p.2.2 q.2) (taintByte s g addr)
      (DytanTaintSource.taintByte (s, h) addr) := by
  refine drawSet_related hgh s fun p q u _ hpq => ?_
  exact ⟨rfl, hpq.setMem (congrArg (fun m => copyByte u m addr) hpq.mem) _⟩

theorem SameGlobals.isSome (hgh : SameGlobals g h) : g.taintGen.isSome = h.taintGen.isSome := by
  rw [hgh.gen]

theorem pathSourceReadCallbackPerByte_related (hgh : SameGlobals g h) (d : Descriptor ws)
    (pathname : String) (args : SyscallArguments ws) :
    Related SameGlobals (pathSourceReadCallbackPerByte N d pathname args g)
      (DytanTaintSource.pathSourceReadCallbackPerByte args h) := by
  have hstep : ∀ (addr : Addr ws) (p : Bitset ws.bits × Nat × Globals ws _)
      (q : Bitset ws.bits × DytanSyscallState.Globals ws N),
      (p.1 = q.1 ∧ SameGlobals p.2.2 q.2) →
      Related (fun p q => p.1 = q.1 ∧ SameGlobals p.2.2 q.2) (fileByte d pathname p addr)
        (DytanTaintSource.taintByte q addr) := by
    rintro addr ⟨s, curr, g⟩ ⟨s', h⟩ ⟨rfl, hgh⟩
    rw [← Option.bind_fun_some (DytanTaintSource.taintByte (s, h) addr)]
    exact (taintByte_related hgh s addr).bind fun p q hpq =>
      ⟨hpq.1, hpq.2.mem, hpq.2.gen, hpq.2.count⟩
  rw [pathSourceReadCallbackPerByte, DytanTaintSource.pathSourceReadCallbackPerByte,
    DytanTaintSource.taintBytes, ← hgh.isSome]
  by_cases hret : (int args.ret).toInt ≤ 0
  · rw [if_pos hret, if_pos hret]
    exact hgh
  · rw [if_neg hret, if_neg hret]
    by_cases hsome : g.taintGen.isSome = true
    · rw [if_pos hsome, if_pos hsome, Option.map_eq_bind]
      exact (runs_related hstep (addrRange args.arg1 (ofInt ws (int args.ret)))
        ⟨rfl, hgh.mem, hgh.gen, hgh.count⟩).bind fun p q hpq => hpq.2
    · rw [if_neg hsome, if_neg hsome]
      trivial

theorem networkReadCallbackPerByte_related (hgh : SameGlobals g h) (strAddress : String)
    (start length : Addr ws) :
    Related SameGlobals (networkReadCallbackPerByte N strAddress start length g)
      (DytanTaintSource.networkReadCallbackPerByte start length h) := by
  have hstep : ∀ (addr : Addr ws) (p : Int × Bitset ws.bits × Globals ws _)
      (q : Bitset ws.bits × DytanSyscallState.Globals ws N),
      (p.2.1 = q.1 ∧ SameGlobals p.2.2 q.2) →
      Related (fun p q => p.2.1 = q.1 ∧ SameGlobals p.2.2 q.2) (networkByte p addr)
        (DytanTaintSource.taintByte q addr) := by
    rintro addr ⟨tag, s, g⟩ ⟨s', h⟩ ⟨rfl, hgh⟩
    exact taintByte_related hgh s addr
  rw [networkReadCallbackPerByte, DytanTaintSource.networkReadCallbackPerByte,
    DytanTaintSource.taintBytes, ← hgh.isSome]
  by_cases hsome : g.taintGen.isSome = true
  · rw [if_pos hsome, if_pos hsome, Option.map_eq_bind]
    exact (runs_related hstep (addrRange start length) ⟨rfl, hgh⟩).bind fun p q hpq =>
      ⟨hpq.2.mem, hpq.2.gen, hpq.2.count⟩
  · rw [if_neg hsome, if_neg hsome]
    trivial

/-- The variables of the two per-offset loops agree. -/
structure SameLoop (p : OffsetLoop ws × Globals ws (DytanSyscallState.TaintGenerator N))
    (q : Bitset ws.bits × DytanTaintSource.OffsetLoop N × TaintMap ws) : Prop where
  s : p.1.s = q.1
  flag : p.1.flag = q.2.1.flag
  index : p.1.index = q.2.1.index
  tag : p.1.tag = q.2.1.tag
  count : p.2.count = q.2.1.count
  gen : p.2.taintGen = q.2.1.taintGen
  mem : p.2.memTaintMap = q.2.2

theorem offsetByte_related {datFile : DatFile} {d : Descriptor ws} {pathname : String}
    (addr : Addr ws) (p : OffsetLoop ws × Globals ws (DytanSyscallState.TaintGenerator N))
    (q : Bitset ws.bits × DytanTaintSource.OffsetLoop N × TaintMap ws) (hpq : SameLoop p q) :
    Related SameLoop (offsetByte datFile d pathname p addr)
      (DytanTaintSource.offsetByte datFile q addr) := by
  obtain ⟨⟨s, flag, index, tag, curr⟩, ⟨m, gen, count, log⟩⟩ := p
  obtain ⟨s', ⟨count', flag', index', tag', gen'⟩, m'⟩ := q
  obtain ⟨hs, hflag, hindex, htag, hcount, hgen, hmem⟩ := hpq
  simp only at hs hflag hindex htag hcount hgen hmem
  subst hs hflag hindex htag hcount hgen hmem
  simp only [offsetByte, DytanTaintSource.offsetByte, DytanTaintSource.nextOffset]
  by_cases hlt : count + 1 < 2 ^ 31
  · rw [if_pos hlt, if_pos hlt]
    cases hrange : datFile.range index with
    | none => trivial
    | some r =>
        simp only [Option.bind_eq_bind, Option.bind_some]
        by_cases hout : count + 1 < r.1 ∨ count + 1 > r.2
        · rw [if_pos hout, if_pos hout]
          exact ⟨rfl, rfl, rfl, rfl, rfl, rfl, rfl⟩
        · rw [if_neg hout, if_neg hout, offsetMark]
          by_cases hdraw : (flag || decide (count + 1 = r.1)) = true
          · rw [if_pos hdraw, if_pos hdraw, drawMark]
            cases gen with
            | none => trivial
            | some gen =>
                simp only [Option.bind_eq_bind, Option.bind_some, Option.bind_assoc, if_true]
                refine nextSet_related (R := SameLoop) (f := fun p u => some
                  (OffsetLoop.mk (bitsetReset u) false
                      (if count + 1 = r.2 then index + 1 else index) p.1 (curr + 1),
                    Globals.mk (copyByte u m addr) (some p.2) (count + 1)
                      (log.fileByte p.1 pathname curr addr (d.byteAt addr))))
                  gen s fun tag gen' u => ?_
                exact ⟨rfl, rfl, rfl, rfl, rfl, rfl, rfl⟩
          · rw [if_neg hdraw, if_neg hdraw]
            simp only [Option.bind_some, if_true, Bool.eq_false_iff.mpr hdraw]
            cases setTag s tag with
            | none => trivial
            | some u => exact ⟨rfl, rfl, rfl, rfl, rfl, rfl, rfl⟩
  · rw [if_neg hlt, if_neg hlt]
    trivial

theorem pathSourceReadCallbackPerOffset_related (hgh : SameGlobals g h) (datFile : DatFile)
    (d : Descriptor ws) (pathname : String) (args : SyscallArguments ws) :
    Related SameGlobals (pathSourceReadCallbackPerOffset N datFile d pathname args g)
      (DytanTaintSource.pathSourceReadCallbackPerOffset datFile args h) := by
  rw [pathSourceReadCallbackPerOffset, DytanTaintSource.pathSourceReadCallbackPerOffset,
    ← hgh.isSome]
  by_cases hret : (int args.ret).toInt ≤ 0
  · rw [if_pos hret, if_pos hret]
    exact hgh
  · rw [if_neg hret, if_neg hret]
    by_cases hsome : g.taintGen.isSome = true
    · rw [if_pos hsome, if_pos hsome]
      exact (runs_related offsetByte_related (addrRange args.arg1 (ofInt ws (int args.ret)))
        ⟨rfl, rfl, rfl, rfl, hgh.count, hgh.gen, hgh.mem⟩).bind fun p q hpq =>
          ⟨hpq.mem, hpq.gen, hpq.count⟩
    · rw [if_neg hsome, if_neg hsome]
      trivial

theorem setNewTaintForMemory_related (hgh : SameGlobals g h) (addr size : Addr ws)
    (taintMark : Int) :
    Related SameGlobals (setNewTaintForMemory N addr size taintMark g)
      (DytanTaintSource.setNewTaintForMemory addr size taintMark h) := by
  rw [setNewTaintForMemory, DytanTaintSource.setNewTaintForMemory, chooseMark]
  by_cases hnew : taintMark = -1
  · rw [if_pos hnew, if_pos hnew, Option.map_eq_bind]
    simp only [Option.bind_eq_bind, Option.bind_assoc]
    refine drawSet_related hgh _ fun p q u _ hpq => ?_
    exact hpq.setMem (congrArg (copyRange u addr size) hpq.mem) _
  · rw [if_neg hnew, if_neg hnew]
    by_cases hlarge : taintMark ≥ N
    · rw [if_pos hlarge, if_pos hlarge]
      trivial
    · rw [if_neg hlarge, if_neg hlarge]
      simp only [Option.bind_eq_bind, Option.bind_some]
      cases setTag (bitsetInit ws.bits N) taintMark with
      | none => trivial
      | some u => exact hgh.setMem (congrArg (copyRange u addr size) hgh.mem) _

end Observers

/-- A generator of three marks, and reads of two bytes. -/
theorem readCallbacks_mark_two :
    ((∃ g', pathSourceReadCallbackPerByte 3 ⟨2, fun _ => 0⟩ "file" (.ofArgs 3 100 2 2)
          (.init .w64 (TaintGenerator.make 1 3)) = some g'
        ∧ MarksEachByte (TaintGenerator.make 1 3) 100 2 (.init .w64 (.make 1 3)) g')
      ↔ ∀ k < 2, Legal 3 (mark (TaintGenerator.make 1 3) k))
    ∧ ((∃ g', networkReadCallbackPerRead 3 "10.0.0.1" 100 2
          (.init .w64 (TaintGenerator.make 1 3)) = some g'
        ∧ MarksRead (TaintGenerator.make 1 3) 100 2 (.init .w64 (.make 1 3)) g')
      ↔ Legal 3 (mark (TaintGenerator.make 1 3) 0)) := by
  obtain ⟨hpath, -, hnetwork⟩ := readCallbacks_mark_iff (N := 3)
    (g := Globals.init .w64 (TaintGenerator.make 1 3)) rfl ⟨2, fun _ => 0⟩ "file" "10.0.0.1"
    (.ofArgs 3 100 2 2) 100 2
  exact ⟨(hpath (by decide) (by decide)).1, (hnetwork (by decide)).2⟩

/-- The counter of `TaintGenerator` only grows. -/
theorem after_make (n start max : Nat) :
    after n (TaintGenerator.make start max) = .make (start + n) max := by
  induction n generalizing start with
  | zero => rfl
  | succ n ih =>
      have hnext : (nextTaintMark (TaintGenerator.make start max)).2 = .make (start + 1) max := by
        show (DytanTaintGenerator.nextTaintMark (.make start max)).2 = _
        rw [DytanTaintGenerator.nextTaintMark_make]
      rw [after, hnext, ih, Nat.add_assoc, Nat.add_comm 1 n]

theorem mark_make (start max k : Nat) :
    mark (TaintGenerator.make start max) k = DytanTaintGenerator.markOf max (start + k + 1) := by
  rw [mark, after_make]
  show (DytanTaintGenerator.nextTaintMark (.make (start + k) max)).1.toInt = _
  rw [DytanTaintGenerator.nextTaintMark_make]
  rfl

/-- The mark after `2 ^ 31 - 2` others is `-2`, and the callbacks fail. -/
theorem wrapped_fails {gen : TaintGenerator} (hgen : gen = after (2 ^ 31 - 2) (.make 1 3)) :
    mark gen 0 = -2
      ∧ pathSourceReadCallbackPerByte 4096 ⟨1, fun _ => 0⟩ "file" (.ofArgs 3 100 1 1)
          (.init .w64 gen) = none
      ∧ networkReadCallbackPerRead 4096 "10.0.0.1" 100 1 (.init .w64 gen) = none := by
  have hmark : mark gen 0 = -2 := by
    rw [hgen, after_make, mark_make, DytanTaintGenerator.markOf_of_wrapped (by omega) (by omega)
      (by omega)]
    rfl
  have hillegal : ¬ Legal 4096 (mark gen 0) := by
    rw [hmark]
    exact fun h => absurd h.1 (by decide)
  refine ⟨hmark, ?_, ?_⟩
  · refine (pathSourceReadCallbackPerByte_spec rfl _ _ (.ofArgs 3 100 1 1) (by decide)).2 ?_
    exact fun h => hillegal (h 0 (by decide))
  · rw [networkReadCallbackPerRead_eq rfl]
    exact if_neg hillegal

/-- A generator whose counter has wrapped: no byte gets its mark. -/
theorem readCallbacks_wrapped : ∃ gen : TaintGenerator, gen = after (2 ^ 31 - 2) (.make 1 3)
    ∧ mark gen 0 = -2
    ∧ (¬ ∃ g', pathSourceReadCallbackPerByte 4096 ⟨1, fun _ => 0⟩ "file" (.ofArgs 3 100 1 1)
        (.init .w64 gen) = some g' ∧ MarksEachByte gen 100 1 (.init .w64 gen) g')
    ∧ ¬ ∃ g', networkReadCallbackPerRead 4096 "10.0.0.1" 100 1 (.init .w64 gen) = some g'
        ∧ MarksRead gen 100 1 (.init .w64 gen) g' := by
  refine ⟨_, rfl, ?_⟩
  obtain ⟨hmark, hpath, hnetwork⟩ := wrapped_fails rfl
  refine ⟨hmark, ?_, ?_⟩
  · rintro ⟨g', hsome, -⟩
    rw [hpath] at hsome
    exact nomatch hsome
  · rintro ⟨g', hsome, -⟩
    rw [hnetwork] at hsome
    exact nomatch hsome

end DytanAssignmentLog
