import Dytan.AssignmentLogProofs

/-! # The arguments of main — the wrapper and what it taints

    `main_wrapper_func` gives `argc` a mark and each argument a mark of its own.
    It computes the address of an argument as `&argv[i]`, which is the slot of
    the pointer, and the size as `strlen(argv[i])`, which is that of the string
    the pointer leads to.  So it taints the right bytes only where a pointer
    leads to its own slot, or a string is empty. -/

namespace DytanArgumentTaint

open DytanBitset DytanRegister DytanTaintState DytanMarkFlow DytanAssignmentLog
open DytanSyscallState hiding Globals TaintGenerator nextTaintMark
open DytanTaintSource (markOnly markOnly_spec)

variable {ws : WordSize} {σ : Type} {N : Nat}

/-- `&argv[i]`. -/
def argvSlot (argv : Addr ws) (i : Nat) : Addr ws := argv + BitVec.ofNat ws.bits (i * (ws.bits / 8))

/-- `(ADDRINT)strlen(…)`: the bytes of the string. -/
def strlen (s : String) : Addr ws := BitVec.ofNat ws.bits s.utf8ByteSize

/-- `sizeof(int)`. -/
def sizeofInt : Addr ws := 4

section Wrapper

variable [MarkGenerator σ] (N)

/-- One turn of the loop over the arguments; the log prints `i` in its base. -/
def taintArgument (mem : AppMemory ws) (argv : Addr ws) (g : Globals ws σ) (i : Nat) :
    Option (Globals ws σ) := do
  let addr := argvSlot argv i
  let digits := String.ofList (Nat.toDigits g.taintAssignmentLog.base.radix i)
  let arg ← mem.word addr
  let s ← mem.cString arg
  setNewTaintForMemory N addr (strlen s) (-1) (g.heading ("Tainted from argv" ++ digits))

/-- `main_wrapper_func`. -/
def mainWrapperFunc (mem : AppMemory ws) (argcAddr argvAddr : Addr ws) (g : Globals ws σ) :
    Option (Globals ws σ) := do
  let argc ← mem.word argcAddr
  let argv ← mem.word argvAddr
  let g ← setNewTaintForMemory N argcAddr sizeofInt (-1) (g.heading "Tainted from argc")
  (List.range (int argc).toInt.toNat).foldlM (taintArgument N mem argv) g

end Wrapper

/-- The `n` bytes from `p` on. -/
def Covers (p : Addr ws) (n : Nat) (a : Addr ws) : Prop :=
  p.toNat ≤ a.toNat ∧ a.toNat < p.toNat + n

/-- What the wrapper finds in memory: `argc`, the array `argv`, and a pointer
    and a string for each argument.  The strings are disjoint from one another
    and from `argc`. -/
structure ArgumentVector (mem : AppMemory ws) (argcAddr argvAddr : Addr ws) where
  argv : Addr ws
  args : List (Addr ws × String)
  argv_word : mem.word argvAddr = some argv
  argc_word : ∃ argc, mem.word argcAddr = some argc ∧ (int argc).toInt.toNat = args.length
  arg_read : ∀ (i : Nat) (p : Addr ws) (s : String), args[i]? = some (p, s) →
    mem.word (argvSlot argv i) = some p ∧ mem.cString p = some s
  argc_fits : argcAddr.toNat + 4 < 2 ^ ws.bits
  arg_fits : ∀ (i : Nat) (p : Addr ws) (s : String), args[i]? = some (p, s) →
    p.toNat + s.utf8ByteSize < 2 ^ ws.bits
  disjoint : ∀ (i j : Nat) (p q : Addr ws) (s t : String), i ≠ j → args[i]? = some (p, s) →
    args[j]? = some (q, t) → ∀ a, Covers p s.utf8ByteSize a → ¬ Covers q t.utf8ByteSize a
  argc_disjoint : ∀ (i : Nat) (p : Addr ws) (s : String), args[i]? = some (p, s) →
    ∀ a, Covers p s.utf8ByteSize a → ¬ Covers argcAddr 4 a

variable {mem : AppMemory ws} {argcAddr argvAddr : Addr ws}

/-- `argc` has the first mark drawn, argument `i` the one of draw `i + 1`, and
    every other address the marks it had. -/
structure TaintsArguments [MarkGenerator σ] (v : ArgumentVector mem argcAddr argvAddr) (gen : σ)
    (g g' : Globals ws σ) : Prop where
  argc : ∀ a, Covers argcAddr 4 a →
    ∃ t : Nat, mark gen 0 = t ∧ entryMarks g'.memTaintMap[a]? = {t}
  arg : ∀ (i : Nat) (p : Addr ws) (s : String), v.args[i]? = some (p, s) →
    ∀ a, Covers p s.utf8ByteSize a →
      ∃ t : Nat, mark gen (i + 1) = t ∧ entryMarks g'.memTaintMap[a]? = {t}
  others : ∀ a, ¬ Covers argcAddr 4 a →
    (∀ (i : Nat) (p : Addr ws) (s : String), v.args[i]? = some (p, s) →
      ¬ Covers p s.utf8ByteSize a) →
    entryMarks g'.memTaintMap[a]? = entryMarks g.memTaintMap[a]?

/-- The wrapper taints the arguments, from every state and with every generator
    whose marks are legal. -/
def Tainted (v : ArgumentVector mem argcAddr argvAddr) : Prop :=
  ∀ (N : Nat) (σ : Type) (_ : MarkGenerator σ) (gen : σ) (g : Globals ws σ),
    g.taintGen = some gen → (∀ k ≤ v.args.length, Legal N (mark gen k)) →
    ∃ g', mainWrapperFunc N mem argcAddr argvAddr g = some g' ∧ TaintsArguments v gen g g'

/-- The index of the last range with the address in it. -/
def writer (a : Addr ws) : List (Addr ws × Addr ws) → Option Nat
  | [] => none
  | (start, size) :: rest =>
      match writer a rest with
      | some k => some (k + 1)
      | none => if a ∈ addrRange start size then some 0 else none

theorem writer_eq_none_iff {a : Addr ws} {ranges : List (Addr ws × Addr ws)} :
    writer a ranges = none ↔ ∀ r ∈ ranges, a ∉ addrRange r.1 r.2 := by
  induction ranges with
  | nil => exact iff_of_true rfl nofun
  | cons r rest ih =>
      obtain ⟨start, size⟩ := r
      rw [List.forall_mem_cons, ← ih, writer]
      cases writer a rest with
      | some k => exact iff_of_false nofun fun h => nomatch h.2
      | none => simp

/-- The writer's range has the address. -/
theorem mem_of_writer {a : Addr ws} {ranges : List (Addr ws × Addr ws)} {k : Nat}
    (h : writer a ranges = some k) : ∃ r, ranges[k]? = some r ∧ a ∈ addrRange r.1 r.2 := by
  induction ranges generalizing k with
  | nil => exact nomatch h
  | cons r rest ih =>
      obtain ⟨start, size⟩ := r
      rw [writer] at h
      cases hrest : writer a rest with
      | some j =>
          rw [hrest] at h
          cases h
          exact ih hrest
      | none =>
          rw [hrest] at h
          simp only at h
          split at h
          · rename_i hin
            cases h
            exact ⟨(start, size), rfl, hin⟩
          · exact nomatch h

/-- A range with the address, and none behind it that has it. -/
theorem writer_eq_some {a : Addr ws} {ranges : List (Addr ws × Addr ws)} {k : Nat}
    {r : Addr ws × Addr ws} (hr : ranges[k]? = some r) (hin : a ∈ addrRange r.1 r.2)
    (hlast : ∀ j r', k < j → ranges[j]? = some r' → a ∉ addrRange r'.1 r'.2) :
    writer a ranges = some k := by
  induction ranges generalizing k with
  | nil => exact nomatch hr
  | cons first rest ih =>
      cases k with
      | zero =>
          cases hr
          have hnone : writer a rest = none := by
            rw [writer_eq_none_iff]
            intro r' hr'
            obtain ⟨j, hj⟩ := List.getElem?_of_mem hr'
            exact hlast (j + 1) r' (Nat.succ_pos j) hj
          rw [writer, hnone]
          exact if_pos hin
      | succ k =>
          have hrest := ih hr fun j r' hj hr' => hlast (j + 1) r' (by omega) hr'
          rw [writer, hrest]

/-! ## What the wrapper does -/

section Run

variable [MarkGenerator σ]

/-- A new mark for a range. -/
theorem setNewTaintForMemory_new {g : Globals ws σ} {gen : σ} (hgen : g.taintGen = some gen)
    (hlegal : Legal N (mark gen 0)) (addr size : Addr ws) :
    ∃ g', setNewTaintForMemory N addr size (-1) g = some g'
      ∧ g'.taintGen = some (nextTaintMark gen).2
      ∧ g'.memTaintMap = copyRange (markOnly ws N (mark gen 0).toNat) addr size g.memTaintMap := by
  rw [setNewTaintForMemory, chooseMark, if_pos rfl, drawMark_eq hgen]
  simp only [Option.bind_eq_bind, Option.bind_some, setTag_init_eq]
  rw [if_pos (show Legal N (nextTaintMark gen).1 from hlegal)]
  exact ⟨_, rfl, rfl, rfl⟩

/-- The entry a byte has after marks were drawn for the ranges in turn. -/
def written (N : Nat) (ranges : List (Addr ws × Addr ws)) (gen : σ) (m : TaintMap ws)
    (a : Addr ws) : Option (Bitset ws.bits) :=
  match writer a ranges with
  | some k => some (markOnly ws N (mark gen k).toNat)
  | none => m[a]?

/-- A range before the others. -/
theorem written_cons {ranges : List (Addr ws × Addr ws)} {gen : σ} {m m' : TaintMap ws}
    {start size : Addr ws} (hlegal : Legal N (mark gen 0))
    (hm' : m' = copyRange (markOnly ws N (mark gen 0).toNat) start size m) (a : Addr ws) :
    written N ranges (nextTaintMark gen).2 m' a = written N ((start, size) :: ranges) gen m a := by
  rw [written, written, writer]
  cases writer a ranges with
  | some k => rfl
  | none =>
      rw [hm', copyRange_markOnly hlegal.toNat_lt]
      by_cases ha : a ∈ addrRange start size
      · simp only [if_pos ha]
      · simp only [if_neg ha]

/-- The ranges the loop taints, from argument `i` on. -/
def argRanges (argv : Addr ws) : Nat → List (Addr ws × String) → List (Addr ws × Addr ws)
  | _, [] => []
  | i, (_, s) :: args => (argvSlot argv i, strlen s) :: argRanges argv (i + 1) args

theorem argRanges_getElem? (argv : Addr ws) (i : Nat) (args : List (Addr ws × String)) (j : Nat) :
    (argRanges argv i args)[j]? = args[j]?.map fun x => (argvSlot argv (i + j), strlen x.2) := by
  induction args generalizing i j with
  | nil => rfl
  | cons x rest ih =>
      obtain ⟨p, s⟩ := x
      cases j with
      | zero => rfl
      | succ j =>
          rw [argRanges, List.getElem?_cons_succ, ih, Nat.add_assoc, Nat.add_comm 1 j]
          rfl

/-- The loop over the arguments. -/
theorem foldlM_taintArgument {argv : Addr ws} (args : List (Addr ws × String)) {i : Nat}
    (hread : ∀ (j : Nat) (p : Addr ws) (s : String), args[j]? = some (p, s) →
      mem.word (argvSlot argv (i + j)) = some p ∧ mem.cString p = some s)
    {g : Globals ws σ} {gen : σ} (hgen : g.taintGen = some gen)
    (hlegal : ∀ k < args.length, Legal N (mark gen k)) :
    ∃ g', (List.range' i args.length).foldlM (taintArgument N mem argv) g = some g'
      ∧ ∀ a, g'.memTaintMap[a]? = written N (argRanges argv i args) gen g.memTaintMap a := by
  induction args generalizing i g gen with
  | nil => exact ⟨g, rfl, fun a => rfl⟩
  | cons x rest ih =>
      obtain ⟨p, s⟩ := x
      obtain ⟨hword, hstring⟩ := hread 0 p s rfl
      rw [List.length_cons, legal_succ_iff] at hlegal
      obtain ⟨g₁, hset, hgen₁, hmem₁⟩ := setNewTaintForMemory_new
        (g := g.heading ("Tainted from argv"
          ++ String.ofList (Nat.toDigits g.taintAssignmentLog.base.radix i)))
        hgen hlegal.1 (argvSlot argv i) (strlen s)
      have hturn : taintArgument N mem argv g i = some g₁ := by
        rw [Nat.add_zero] at hword
        rw [taintArgument, hword]
        simp only [Option.bind_eq_bind, Option.bind_some, hstring]
        exact hset
      obtain ⟨g', hrest, hwritten⟩ := ih (i := i + 1)
        (fun j p s hj => by rw [Nat.add_assoc, Nat.add_comm 1 j]; exact hread (j + 1) p s hj)
        hgen₁ hlegal.2
      refine ⟨g', ?_, fun a => ?_⟩
      · rw [List.length_cons, List.range'_succ, List.foldlM_cons, hturn]
        exact hrest
      · rw [hwritten a, argRanges]
        exact written_cons hlegal.1 hmem₁ a

/-- The ranges the wrapper taints. -/
def ranges (v : ArgumentVector mem argcAddr argvAddr) : List (Addr ws × Addr ws) :=
  (argcAddr, sizeofInt) :: argRanges v.argv 0 v.args

/-- **The wrapper**: the byte has the mark of the last range that covers it. -/
theorem mainWrapperFunc_written (v : ArgumentVector mem argcAddr argvAddr) {g : Globals ws σ}
    {gen : σ} (hgen : g.taintGen = some gen)
    (hlegal : ∀ k ≤ v.args.length, Legal N (mark gen k)) :
    ∃ g', mainWrapperFunc N mem argcAddr argvAddr g = some g'
      ∧ ∀ a, g'.memTaintMap[a]? = written N (ranges v) gen g.memTaintMap a := by
  obtain ⟨argc, hargc, hlen⟩ := v.argc_word
  have hlegal' : ∀ k < v.args.length + 1, Legal N (mark gen k) :=
    fun k hk => hlegal k (Nat.le_of_lt_succ hk)
  rw [legal_succ_iff] at hlegal'
  obtain ⟨g₁, hset, hgen₁, hmem₁⟩ := setNewTaintForMemory_new
    (g := g.heading "Tainted from argc") hgen hlegal'.1 argcAddr sizeofInt
  have hread : ∀ (j : Nat) (p : Addr ws) (s : String), v.args[j]? = some (p, s) →
      mem.word (argvSlot v.argv (0 + j)) = some p ∧ mem.cString p = some s := by
    intro j p s hj
    rw [Nat.zero_add]
    exact v.arg_read j p s hj
  obtain ⟨g', hloop, hwritten⟩ := foldlM_taintArgument v.args hread hgen₁ hlegal'.2
  refine ⟨g', ?_, fun a => ?_⟩
  · rw [mainWrapperFunc, hargc, v.argv_word]
    simp only [Option.bind_eq_bind, Option.bind_some, hset, hlen, List.range_eq_range']
    exact hloop
  · rw [hwritten a]
    exact written_cons hlegal'.1 hmem₁ a

end Run

/-! ## Where a pointer leads to its own slot -/

theorem strlen_toNat {s : String} (h : s.utf8ByteSize < 2 ^ ws.bits) :
    (strlen s : Addr ws).toNat = s.utf8ByteSize := by
  rw [strlen, BitVec.toNat_ofNat, Nat.mod_eq_of_lt h]

/-- The bytes of a range that does not reach the top. -/
theorem mem_addrRange_iff_covers {p size a : Addr ws} {n : Nat} (hsize : size.toNat = n)
    (hfits : p.toNat + n < 2 ^ ws.bits) : a ∈ addrRange p size ↔ Covers p n a := by
  subst hsize
  exact mem_addrRange_of_lt hfits

section Ranges

variable {v : ArgumentVector mem argcAddr argvAddr}

theorem argc_covers_iff (v : ArgumentVector mem argcAddr argvAddr) (a : Addr ws) :
    a ∈ addrRange argcAddr sizeofInt ↔ Covers argcAddr 4 a :=
  mem_addrRange_iff_covers (by cases ws <;> rfl) v.argc_fits

theorem ranges_arg {i : Nat} {p : Addr ws} {s : String} (h : v.args[i]? = some (p, s)) :
    (ranges v)[i + 1]? = some (argvSlot v.argv i, strlen s) := by
  rw [ranges, List.getElem?_cons_succ, argRanges_getElem?, h, Nat.zero_add]
  rfl

/-- Each range but the first is that of an argument. -/
theorem arg_of_ranges {j : Nat} {r : Addr ws × Addr ws} (h : (ranges v)[j + 1]? = some r) :
    ∃ p s, v.args[j]? = some (p, s) ∧ r = (argvSlot v.argv j, strlen s) := by
  rw [ranges, List.getElem?_cons_succ, argRanges_getElem?, Nat.zero_add,
    Option.map_eq_some_iff] at h
  obtain ⟨⟨p, s⟩, hps, rfl⟩ := h
  exact ⟨p, s, hps, rfl⟩

/-- The strings are where the wrapper looks for them. -/
def AtSlots (v : ArgumentVector mem argcAddr argvAddr) : Prop :=
  ∀ (i : Nat) (p : Addr ws) (s : String), v.args[i]? = some (p, s) →
    s.utf8ByteSize = 0 ∨ p = argvSlot v.argv i

/-- Then what is tainted for an argument is the argument. -/
theorem AtSlots.covers_iff (h : AtSlots v) {i : Nat} {p : Addr ws} {s : String}
    (hps : v.args[i]? = some (p, s)) (a : Addr ws) :
    a ∈ addrRange (argvSlot v.argv i) (strlen s) ↔ Covers p s.utf8ByteSize a := by
  have hfits := v.arg_fits i p s hps
  have hlen : (strlen s : Addr ws).toNat = s.utf8ByteSize := strlen_toNat (by omega)
  rcases h i p s hps with hzero | rfl
  · -- an empty string has no bytes, and none are tainted
    refine iff_of_false (fun hmem => ?_) fun hcovers => ?_
    · have hstrlen : (strlen s : Addr ws) = BitVec.ofNat ws.bits 0 :=
        BitVec.eq_of_toNat_eq (by rw [hlen, hzero]; rfl)
      rw [hstrlen, mem_addrRange, BitVec.le_def, BitVec.lt_def, BitVec.add_zero] at hmem
      omega
    · obtain ⟨hle, hlt⟩ := hcovers
      omega
  · exact mem_addrRange_iff_covers hlen hfits

/-- The last range to cover a byte is that of what the byte belongs to. -/
theorem AtSlots.writer_argc (h : AtSlots v) {a : Addr ws} (ha : Covers argcAddr 4 a) :
    writer a (ranges v) = some 0 := by
  refine writer_eq_some rfl ((argc_covers_iff v a).mpr ha) fun j r hj hr hin => ?_
  obtain ⟨j, rfl⟩ := Nat.exists_eq_succ_of_ne_zero hj.ne'
  obtain ⟨p, s, hps, rfl⟩ := arg_of_ranges hr
  exact v.argc_disjoint j p s hps a ((h.covers_iff hps a).mp hin) ha

theorem AtSlots.writer_arg (h : AtSlots v) {i : Nat} {p : Addr ws} {s : String}
    (hps : v.args[i]? = some (p, s)) {a : Addr ws} (ha : Covers p s.utf8ByteSize a) :
    writer a (ranges v) = some (i + 1) := by
  refine writer_eq_some (ranges_arg hps) ((h.covers_iff hps a).mpr ha) fun j r hj hr hin => ?_
  obtain ⟨j, rfl⟩ := Nat.exists_eq_succ_of_ne_zero (Nat.ne_zero_of_lt hj)
  obtain ⟨q, t, hqt, rfl⟩ := arg_of_ranges hr
  exact v.disjoint i j p q s t (by omega) hps hqt a ha ((h.covers_iff hqt a).mp hin)

theorem AtSlots.writer_none (h : AtSlots v) {a : Addr ws} (hargc : ¬ Covers argcAddr 4 a)
    (hargs : ∀ (i : Nat) (p : Addr ws) (s : String), v.args[i]? = some (p, s) →
      ¬ Covers p s.utf8ByteSize a) : writer a (ranges v) = none := by
  rw [writer_eq_none_iff]
  intro r hr
  obtain ⟨j, hj⟩ := List.getElem?_of_mem hr
  cases j with
  | zero =>
      cases hj
      exact fun hin => hargc ((argc_covers_iff v a).mp hin)
  | succ j =>
      obtain ⟨p, s, hps, rfl⟩ := arg_of_ranges hj
      exact fun hin => hargs j p s hps ((h.covers_iff hps a).mp hin)

end Ranges

/-- The entry written for draw `k`. -/
theorem entryMarks_written [MarkGenerator σ] {v : ArgumentVector mem argcAddr argvAddr} {gen : σ}
    (hlegal : ∀ k ≤ v.args.length, Legal N (mark gen k)) {m : TaintMap ws} {a : Addr ws} {k : Nat}
    (hk : k ≤ v.args.length) (h : writer a (ranges v) = some k) :
    ∃ t : Nat, mark gen k = t ∧ entryMarks (written N (ranges v) gen m a) = {t} := by
  refine ⟨(mark gen k).toNat, (Int.toNat_of_nonneg (hlegal k hk).1).symm, ?_⟩
  rw [written, h, entryMarks_some]
  exact (markOnly_spec (hlegal k hk).toNat_lt).2

/-- Where every string is at its slot, the arguments are tainted. -/
theorem AtSlots.tainted {v : ArgumentVector mem argcAddr argvAddr} (h : AtSlots v) : Tainted v := by
  intro N σ _ gen g hgen hlegal
  obtain ⟨g', hrun, hwritten⟩ := mainWrapperFunc_written v hgen hlegal
  refine ⟨g', hrun, ⟨fun a ha => ?_, fun i p s hps a ha => ?_, fun a hargc hargs => ?_⟩⟩
  · rw [hwritten]
    exact entryMarks_written hlegal (Nat.zero_le _) (h.writer_argc ha)
  · obtain ⟨hi, -⟩ := List.getElem?_eq_some_iff.mp hps
    rw [hwritten]
    exact entryMarks_written hlegal hi (h.writer_arg hps ha)
  · rw [hwritten, written, h.writer_none hargc hargs]

/-! ## Where it does not -/

/-- A generator given by the marks it returns. -/
def MarkStream := Nat → Int

instance : MarkGenerator MarkStream where
  nextTaintMark marks := (marks 0, fun k => marks (k + 1))

theorem mark_stream (marks : MarkStream) (k : Nat) : mark marks k = marks k := by
  induction k generalizing marks with
  | zero => rfl
  | succ k ih => exact ih fun k => marks (k + 1)

/-- One draw returns 1, and all others return 0. -/
def oneAt (i : Nat) : MarkStream := fun k => if k = i then 1 else 0

theorem mark_oneAt (i k : Nat) : mark (oneAt i) k = if k = i then 1 else 0 := mark_stream _ k

theorem legal_oneAt (i k : Nat) : Legal 2 (mark (oneAt i) k) := by
  rw [mark_oneAt]
  split <;> decide

section NotAtSlots

variable {v : ArgumentVector mem argcAddr argvAddr}

/-- If the arguments are tainted, each of their bytes is in the range the
    wrapper computes for its argument. -/
theorem Tainted.mem_addrRange (h : Tainted v) {i : Nat} {p : Addr ws} {s : String}
    (hps : v.args[i]? = some (p, s)) {a : Addr ws} (ha : Covers p s.utf8ByteSize a) :
    a ∈ addrRange (argvSlot v.argv i) (strlen s) := by
  -- the mark of the argument is 1, everything else has the mark 0 or none
  obtain ⟨g', hrun, htaints⟩ := h 2 MarkStream inferInstance (oneAt (i + 1)) (.init ws _) rfl
    fun k _ => legal_oneAt (i + 1) k
  obtain ⟨g₁, hrun₁, hwritten⟩ := mainWrapperFunc_written (N := 2) v
    (g := .init ws (oneAt (i + 1))) rfl fun k _ => legal_oneAt (i + 1) k
  obtain rfl : g₁ = g' := Option.some.inj (hrun₁.symm.trans hrun)
  obtain ⟨t, ht, hmarks⟩ := htaints.arg i p s hps a ha
  rw [mark_oneAt, if_pos rfl] at ht
  obtain rfl : t = 1 := by omega
  rw [hwritten, written] at hmarks
  cases hwriter : writer a (ranges v) with
  | none =>
      have hempty : (DytanAssignmentLog.Globals.init ws (oneAt (i + 1))).memTaintMap[a]? = none :=
        Std.ExtTreeMap.getElem?_empty
      rw [hwriter] at hmarks
      simp only [hempty, entryMarks_none] at hmarks
      exact absurd hmarks.symm (Set.singleton_ne_empty 1)
  | some k =>
      rw [hwriter] at hmarks
      simp only [entryMarks_some, (markOnly_spec (legal_oneAt (i + 1) k).toNat_lt).2] at hmarks
      have hk : (mark (oneAt (i + 1)) k).toNat = 1 := Set.singleton_injective hmarks
      rw [mark_oneAt] at hk
      have hki : k = i + 1 := by
        by_contra hne
        rw [if_neg hne] at hk
        exact nomatch hk
      obtain ⟨r, hr, hin⟩ := mem_of_writer hwriter
      rw [hki, ranges_arg hps] at hr
      cases hr
      exact hin

/-- If the arguments are tainted, each string that is not empty is at its slot. -/
theorem Tainted.atSlots (h : Tainted v) : AtSlots v := by
  intro i p s hps
  by_cases hzero : s.utf8ByteSize = 0
  · exact Or.inl hzero
  · have hfits := v.arg_fits i p s hps
    have hlen : (strlen s : Addr ws).toNat = s.utf8ByteSize := strlen_toNat (by omega)
    have hlast : (p + BitVec.ofNat ws.bits (s.utf8ByteSize - 1)).toNat
        = p.toNat + (s.utf8ByteSize - 1) := add_ofNat_toNat (by omega)
    -- the first and the last byte bound the range from both sides
    obtain ⟨hle, hlt⟩ := DytanMarkFlow.mem_addrRange.mp
      (h.mem_addrRange hps (a := p) ⟨Nat.le_refl _, by omega⟩)
    obtain ⟨-, hlt'⟩ := DytanMarkFlow.mem_addrRange.mp (h.mem_addrRange hps
      (a := p + BitVec.ofNat ws.bits (s.utf8ByteSize - 1)) ⟨by omega, by omega⟩)
    rw [BitVec.le_def] at hle
    rw [BitVec.lt_def, BitVec.toNat_add (argvSlot v.argv i), hlen] at hlt hlt'
    rw [hlast] at hlt'
    have hmod := Nat.mod_le ((argvSlot v.argv i).toNat + s.utf8ByteSize) (2 ^ ws.bits)
    refine Or.inr (BitVec.eq_of_toNat_eq ?_)
    omega

/-- **The wrapper taints the arguments** exactly where each string is empty or
    lies in the slot of its own pointer. -/
theorem tainted_iff_atSlots (v : ArgumentVector mem argcAddr argvAddr) :
    Tainted v ↔ AtSlots v :=
  ⟨Tainted.atSlots, AtSlots.tainted⟩

end NotAtSlots

/-! ## One argument -/

/-- `argc` is 1, and `argv[0]` leads to a string elsewhere. -/
def oneArgMemory : AppMemory .w64 where
  cString := fun a => if a = 0x3000 then some "a" else none
  word := fun a =>
    if a = 0x1000 then some 1
    else if a = 0x1008 then some 0x2000
    else if a = 0x2000 then some 0x3000
    else none
  sockaddrIn := fun _ => none

/-- Its argument vector. -/
def oneArg : ArgumentVector oneArgMemory 0x1000 0x1008 where
  argv := 0x2000
  args := [(0x3000, "a")]
  argv_word := rfl
  argc_word := ⟨1, rfl, rfl⟩
  arg_read := by
    intro i p s h
    cases i with
    | zero =>
        cases h
        exact ⟨rfl, rfl⟩
    | succ i => exact nomatch h
  argc_fits := by decide
  arg_fits := by
    intro i p s h
    cases i with
    | zero =>
        cases h
        decide
    | succ i => exact nomatch h
  disjoint := by
    intro i j p q s t hij hi hj
    cases i with
    | zero =>
        cases j with
        | zero => exact absurd rfl hij
        | succ j => exact nomatch hj
    | succ i => exact nomatch hi
  argc_disjoint := by
    intro i p s h a ha hargc
    cases i with
    | zero =>
        cases h
        have hle : 0x3000 ≤ a.toNat := ha.1
        have hlt : a.toNat < 0x1000 + 4 := hargc.2
        omega
    | succ i => exact nomatch h

/-- The byte of the argument gets no mark, but one of its pointer does. -/
theorem oneArg_not_tainted : ¬ Tainted oneArg
    ∧ ∃ g', mainWrapperFunc 4096 oneArgMemory 0x1000 0x1008
        (.init .w64 (DytanTaintGenerator.TaintGenerator.make 1 4096)) = some g'
      ∧ entryMarks g'.memTaintMap[(0x3000 : Addr .w64)]? = ∅
      ∧ entryMarks g'.memTaintMap[(0x2000 : Addr .w64)]? = {3} := by
  constructor
  · intro h
    rcases h.atSlots 0 0x3000 "a" rfl with hzero | hslot
    · exact absurd hzero (by decide)
    · exact absurd hslot (by decide)
  · have hlegal : ∀ k ≤ oneArg.args.length,
        Legal 4096 (mark (DytanTaintGenerator.TaintGenerator.make 1 4096) k) := by decide
    obtain ⟨g', hrun, hwritten⟩ := mainWrapperFunc_written (N := 4096) oneArg
      (g := .init .w64 (DytanTaintGenerator.TaintGenerator.make 1 4096)) rfl hlegal
    refine ⟨g', hrun, ?_, ?_⟩
    · have hwriter : writer 0x3000 (ranges oneArg) = none := by decide
      rw [hwritten, written, hwriter]
      show entryMarks (∅ : TaintMap .w64)[(0x3000 : Addr .w64)]? = ∅
      rw [Std.ExtTreeMap.getElem?_empty, entryMarks_none]
    · have hwriter : writer 0x2000 (ranges oneArg) = some 1 := by decide
      rw [hwritten, written, hwriter, entryMarks_some]
      exact (markOnly_spec (show 3 < 4096 by decide)).2

end DytanArgumentTaint
