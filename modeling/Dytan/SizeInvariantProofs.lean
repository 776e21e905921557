import Dytan.FrameworkOptionsProofs
import Dytan.OtherWritersProofs

/-! # Every bitset has the configured size

    Bitsets are made in many places, with `NUMBER_OF_TAINT_MARKS` positions or
    as copies of others, and `bitset_union` and `bitset_set_bits` assert that
    the sizes agree.  The number changes while the options are set, before the
    first bitset is made.  From then on every taint operation keeps the sizes,
    so none of these assertions can fail; what can fail is the use of a mark
    that no bitset has room for. -/

namespace DytanSizeInvariant

open DytanBitset DytanRegister DytanTaintState DytanMarkFlow DytanSyscallState
  DytanTaintSource DytanFrameworkOptions
open DytanFailedCall (PathCallback NetworkCallback Environment)
open DytanOtherWriters (readRange perRead_eq_some taintBytes_eq_some perOffset_eq_some
  setNewTaintForMemory_eq_some assignTagToByteRange_eq_some pathCallback_idle)

variable {ws : WordSize} {N : Nat}

/-- One turn of the loops that print marks. -/
def printMark (b : Bitset ws.bits) (out : List Nat) (i : Nat) : Option (List Nat) := do
  let tainted ← bitsetTestBit b i
  some (if tainted then out ++ [i] else out)

/-- The marks of a bitset, as printed. -/
def printMarks (b : Bitset ws.bits) : Option (List Nat) :=
  (List.range b.nbits).foldlM (printMark b) []

/-- `DisplayTagsForByteRange`: the marks it prints for the range, with those of
    the control taint, and for the control taint alone. -/
def displayTagsForByteRange (start size : Addr ws) (s : TaintState ws N) :
    Option (List Nat × List Nat) := do
  let bytes ← (addrRange start size).foldlM (joinByte s) (bitsetInit ws.bits N)
  let control ← controlTaint s
  let tmp ← bitsetUnion bytes control
  let marks ← printMarks tmp
  let controlMarks ← printMarks control
  some (marks, controlMarks)

/-- The taint operations, with their arguments. -/
inductive Op (ws : WordSize) where
  | call (c : Call ws)
  | setNewTaintForMemory (addr size : Addr ws) (taintMark : Int)
  | assignTagToByteRange (start size : Addr ws) (name : String)
  | displayTagsForByteRange (start size : Addr ws)
  | pathCallback (callback : PathCallback) (env : Environment) (args : SyscallArguments ws)
  | networkCallback (callback : NetworkCallback) (start length : Addr ws)

/-- Run an operation on the globals. -/
def Op.onGlobals (g : Globals ws N) : Op ws → Option (Globals ws N)
  | .call c => (step c g.state).map fun s => { g with state := s }
  | .setNewTaintForMemory addr size taintMark =>
      DytanTaintSource.setNewTaintForMemory addr size taintMark g
  | .assignTagToByteRange start size name =>
      DytanTaintSource.assignTagToByteRange start size name g
  | .displayTagsForByteRange start size =>
      (DytanSizeInvariant.displayTagsForByteRange start size g.state).map fun _ => g
  | .pathCallback callback env args => callback.run env args g
  | .networkCallback callback start length => callback.run start length g

/-- Run an operation. -/
def Op.run (op : Op ws) (p : Process ws) : Option (Process ws) :=
  (op.onGlobals p.globals).map fun g => { p with globals := g }

/-- Every bitset has the size of the tool, and every name a mark below it. -/
structure Fits (g : Globals ws N) : Prop where
  state : SizedState g.state
  names : ∀ name t, g.tagMap name = some t → t < N

theorem fits_initialised (ws : WordSize) (o : Options) : Fits (initialised ws o).globals where
  state := init_sized
  names := nofun

/-- An operation that stores marks changes the taint map at some bytes, each of
    which gets one mark. -/
structure Stores (g g' : Globals ws N) : Prop where
  memory : ∃ writes : List (Addr ws × Option Nat), (∀ a t, (a, some t) ∈ writes → t < N)
    ∧ g'.state = { g.state with memTaintMap := writeTags N writes g.memTaintMap }
  names : ∀ name t, g'.tagMap name = some t → g.tagMap name = some t ∨ t < N

/-- What is stored is sized. -/
theorem writeTags_sized {writes : List (Addr ws × Option Nat)} {m : TaintMap ws}
    (hwrites : ∀ a t, (a, some t) ∈ writes → t < N)
    (hm : ∀ (a : Addr ws) b, m[a]? = some b → Sized N b) (a : Addr ws) (b : Bitset ws.bits)
    (hb : (writeTags N writes m)[a]? = some b) : Sized N b := by
  induction writes generalizing m with
  | nil => exact hm a b hb
  | cons p rest ih =>
      obtain ⟨a', tag⟩ := p
      rw [writeTags_cons] at hb
      refine ih (fun a t hmem => hwrites a t (List.mem_cons_of_mem _ hmem)) ?_ hb
      intro a'' b' hb'
      cases tag with
      | none => exact hm a'' b' hb'
      | some t =>
          simp only [Std.ExtTreeMap.getElem?_insert] at hb'
          by_cases ha : compare a' a'' = .eq
          · rw [if_pos ha] at hb'
            cases hb'
            exact (markOnly_spec (hwrites a' t List.mem_cons_self)).1
          · rw [if_neg ha] at hb'
            exact hm a'' b' hb'

/-- Storing marks keeps the sizes. -/
theorem Stores.sizedState {g g' : Globals ws N} (hstores : Stores g g') (h : SizedState g.state) :
    SizedState g'.state := by
  obtain ⟨writes, hwrites, hstate⟩ := hstores.memory
  rw [hstate]
  refine ⟨fun q b hb => ?_, h.tags⟩
  cases q with
  | mem a => exact writeTags_sized hwrites (fun a b hb => h.entries (.mem a) b hb) a b hb
  | reg r => exact h.entries (.reg r) b hb
  | ctl a => exact h.entries (.ctl a) b hb
  | scr x => exact h.entries (.scr x) b hb

theorem Stores.fits {g g' : Globals ws N} (hstores : Stores g g') (h : Fits g) : Fits g' where
  state := hstores.sizedState h.state
  names := fun name t ht => (hstores.names name t ht).elim (h.names name t) id

theorem Stores.refl (g : Globals ws N) : Stores g g where
  memory := ⟨[], nofun, rfl⟩
  names := fun _ _ ht => .inl ht

/-! ## What the operations store -/

/-- Copying one mark to a range stores it at each byte. -/
theorem copyRange_eq_writeTags {tag : Nat} (hlt : tag < N) (start size : Addr ws)
    (m : TaintMap ws) :
    copyRange (markOnly ws N tag) start size m
      = writeTags N ((addrRange start size).map fun a => (a, some tag)) m := by
  rw [copyRange, writeTags, List.foldl_map]
  congr 1
  funext m' a
  exact copyByte_markOnly hlt m' a

theorem stores_copyRange {g : Globals ws N} {tag : Nat} (hlt : tag < N)
    (gen : Option (TaintGenerator N)) {names : String → Option Nat}
    (hnames : ∀ name t, names name = some t → g.tagMap name = some t ∨ t < N)
    (start size : Addr ws) :
    Stores g ({ g with taintGen := gen, tagMap := names }.setMem
      (copyRange (markOnly ws N tag) start size g.memTaintMap)) where
  memory := by
    refine ⟨(addrRange start size).map fun a => (a, some tag), fun a t hmem => ?_, ?_⟩
    · obtain ⟨a', -, heq⟩ := List.mem_map.mp hmem
      cases heq
      exact hlt
    · rw [copyRange_eq_writeTags hlt, Globals.setMem]
  names := hnames

theorem stores_taintBytes {g g' : Globals ws N} {start size : Addr ws}
    (h : taintBytes start size g = some g') : Stores g g' := by
  obtain ⟨gen, gen', -, rfl⟩ := taintBytes_eq_some h
  refine ⟨⟨_, fun a t hmem => ?_, rfl⟩, fun _ _ ht => .inl ht⟩
  obtain ⟨i, -, heq⟩ := List.mem_map.mp (List.of_mem_zip hmem).2
  cases heq
  exact tagAt_lt gen i

theorem stores_perRead {g g' : Globals ws N} {start length : Addr ws}
    (h : networkReadCallbackPerRead start length g = some g') : Stores g g' := by
  obtain ⟨hlt, gen, rfl⟩ := perRead_eq_some h
  exact stores_copyRange hlt gen (fun _ _ ht => .inl ht) start length

theorem stores_networkCallback {callback : NetworkCallback} {start length : Addr ws}
    {g g' : Globals ws N} (h : callback.run start length g = some g') : Stores g g' := by
  cases callback with
  | perRead => exact stores_perRead h
  | perByte => exact stores_taintBytes h

theorem stores_perOffset {d : DatFile} {args : SyscallArguments ws} {g g' : Globals ws N}
    (hret : ¬ (int args.ret).toInt ≤ 0)
    (h : pathSourceReadCallbackPerOffset d args g = some g') : Stores g g' := by
  obtain ⟨tags, l, htags, rfl⟩ := perOffset_eq_some hret h
  have hneg : (-1 : Int) < N := by omega
  refine ⟨⟨_, fun a t hmem => ?_, rfl⟩, fun _ _ ht => .inl ht⟩
  obtain ⟨i, hi⟩ := List.getElem?_of_mem (List.of_mem_zip hmem).2
  exact (offsetTags_length htags).2.2 hneg i t hi

theorem stores_pathCallback {callback : PathCallback} {env : Environment}
    {args : SyscallArguments ws} {g g' : Globals ws N} (h : callback.run env args g = some g') :
    Stores g g' := by
  by_cases hret : (int args.ret).toInt ≤ 0
  · cases (pathCallback_idle hret g).symm.trans h
    exact .refl g
  · cases callback with
    | perRead =>
        have hrun : networkReadCallbackPerRead args.arg1 (ofInt ws (int args.ret)) g = some g' :=
          (if_neg hret).symm.trans h
        exact stores_perRead hrun
    | perByte => exact stores_taintBytes ((if_neg hret).symm.trans h)
    | perOffset => exact stores_perOffset hret h
    | default =>
        cases h
        exact .refl g

theorem stores_setNewTaintForMemory {g g' : Globals ws N} {addr size : Addr ws} {taintMark : Int}
    (h : setNewTaintForMemory addr size taintMark g = some g') : Stores g g' := by
  obtain ⟨tag, gen, -, hlt, rfl⟩ := setNewTaintForMemory_eq_some h
  exact stores_copyRange hlt gen (fun _ _ ht => .inl ht) addr size

theorem stores_assignTagToByteRange {g g' : Globals ws N} {start size : Addr ws} {name : String}
    (h : assignTagToByteRange start size name g = some g') : Stores g g' := by
  obtain ⟨tag, gen, -, hlt, rfl⟩ := assignTagToByteRange_eq_some h
  refine stores_copyRange hlt gen (fun name' t ht => ?_) start size
  by_cases hsame : name' = name
  · rw [hsame, Function.update_self] at ht
    cases ht
    exact .inr hlt
  · rw [Function.update_of_ne hsame] at ht
    exact .inl ht

/-- **Every operation that completes keeps the sizes.** -/
theorem fits_of_run {g g' : Globals ws N} (hg : Fits g) {op : Op ws}
    (h : op.onGlobals g = some g') : Fits g' := by
  cases op with
  | call c =>
      obtain ⟨s, hstep, rfl⟩ := Option.map_eq_some_iff.mp h
      obtain ⟨s', hstep', hs', -⟩ := step_marks hg.state c
      cases hstep.symm.trans hstep'
      exact ⟨hs', hg.names⟩
  | setNewTaintForMemory addr size taintMark => exact (stores_setNewTaintForMemory h).fits hg
  | assignTagToByteRange start size name => exact (stores_assignTagToByteRange h).fits hg
  | displayTagsForByteRange start size =>
      obtain ⟨out, -, rfl⟩ := Option.map_eq_some_iff.mp h
      exact hg
  | pathCallback callback env args => exact (stores_pathCallback h).fits hg
  | networkCallback callback start length => exact (stores_networkCallback h).fits hg

/-! ## Operations with legal marks complete -/

/-- The generator is there and good for `n` draws. -/
def Drawable (g : Globals ws N) (n : Nat) : Prop :=
  ∃ gen, g.taintGen = some gen ∧ CanDraw gen n

/-- The marks the operation uses are legal: a mark of the caller's is below the
    number of marks, and the generator has marks to draw. -/
def LegalMarks (g : Globals ws N) : Op ws → Prop
  | .call _ => True
  | .setNewTaintForMemory _ _ taintMark =>
      (taintMark = -1 ∧ Drawable g 1) ∨ (0 ≤ taintMark ∧ taintMark < N)
  | .assignTagToByteRange _ _ name =>
      g.taintGen.isSome = true ∧ (g.tagMap name = none → Drawable g 1)
  | .displayTagsForByteRange _ _ => True
  | .pathCallback .perRead _ args => 0 < (int args.ret).toInt → Drawable g 1
  | .pathCallback .perByte _ args =>
      0 < (int args.ret).toInt → Drawable g (readRange args).length
  | .pathCallback .perOffset env args => 0 < (int args.ret).toInt →
      g.taintGen.isSome = true ∧ (offsetTags env.datFile (readRange args).length
        ⟨g.count, false, 0, -1, g.taintGen⟩).isSome = true
  | .pathCallback .default _ _ => True
  | .networkCallback .perRead _ _ => Drawable g 1
  | .networkCallback .perByte start length => Drawable g (addrRange start length).length

theorem printMarks_completes (b : Bitset ws.bits) : ∃ out, printMarks b = some out := by
  have hloop : ∀ (is : List Nat) (out : List Nat), (∀ i ∈ is, i < b.nbits) →
      ∃ out', is.foldlM (printMark b) out = some out' := by
    intro is
    induction is with
    | nil => exact fun out _ => ⟨out, rfl⟩
    | cons i rest ih =>
        intro out his
        have htest : bitsetTestBit b i = some (holdsBit b i) :=
          if_pos (his i List.mem_cons_self)
        rw [List.foldlM_cons, printMark, htest]
        exact ih _ fun j hj => his j (List.mem_cons_of_mem _ hj)
  exact hloop _ [] fun i hi => List.mem_range.mp hi

/-- Nothing that is printed can fail an assertion. -/
theorem displayTagsForByteRange_completes {s : TaintState ws N} (hs : SizedState s)
    (start size : Addr ws) : ∃ out, displayTagsForByteRange start size s = some out := by
  obtain ⟨bytes, hbytes, hsb, -⟩ :=
    foldlM_joinByte hs (addrRange start size) (sized_init (w := ws.bits) N)
  obtain ⟨control, hcontrol, hsc, -⟩ := controlTaint_spec hs
  obtain ⟨tmp, htmp, -, -⟩ := union_sized hsb hsc
  obtain ⟨marks, hmarks⟩ := printMarks_completes tmp
  obtain ⟨controlMarks, hcontrolMarks⟩ := printMarks_completes control
  refine ⟨(marks, controlMarks), ?_⟩
  simp [displayTagsForByteRange, hbytes, hcontrol, htmp, hmarks, hcontrolMarks]

/-- A generator with a mark to draw gives one below `N`. -/
theorem drawMark_completes {g : Globals ws N} (h : Drawable g 1) :
    ∃ tag g', drawMark g = some (tag, g') ∧ tag < N := by
  obtain ⟨gen, hgen, hcan⟩ := h
  exact ⟨_, _, (drawMark_spec hgen).1 hcan, tagAt_lt gen 0⟩

theorem perRead_completes {g : Globals ws N} (h : Drawable g 1) (start length : Addr ws) :
    ∃ g', networkReadCallbackPerRead start length g = some g' := by
  obtain ⟨tag, g₁, hdraw, hlt⟩ := drawMark_completes h
  refine ⟨g₁.setMem (copyRange (markOnly ws N tag) start length g₁.memTaintMap), ?_⟩
  simp [networkReadCallbackPerRead, hdraw, setTag_init hlt]

theorem taintBytes_completes {g : Globals ws N} {start size : Addr ws}
    (h : Drawable g (addrRange start size).length) : ∃ g', taintBytes start size g = some g' := by
  obtain ⟨gen, hgen, hcan⟩ := h
  exact ⟨_, (taintBytes_spec hgen start size).1 hcan⟩

theorem perOffset_completes {g : Globals ws N} {d : DatFile} {args : SyscallArguments ws}
    (h : 0 < (int args.ret).toInt → g.taintGen.isSome = true
      ∧ (offsetTags d (readRange args).length
          ⟨g.count, false, 0, -1, g.taintGen⟩).isSome = true) :
    ∃ g', pathSourceReadCallbackPerOffset d args g = some g' := by
  rw [pathSourceReadCallbackPerOffset]
  by_cases hret : (int args.ret).toInt ≤ 0
  · exact ⟨g, if_pos hret⟩
  · obtain ⟨hgen, htags⟩ := h (Int.not_le.mp hret)
    have hrange : readRange args = addrRange args.arg1 (ofInt ws (int args.ret)) := if_neg hret
    rw [hrange] at htags
    obtain ⟨p, hp⟩ := Option.isSome_iff_exists.mp htags
    have hneg : (-1 : Int) < N := by omega
    rw [if_neg hret, if_pos hgen, foldlM_offsetByte d _ hneg, hp]
    exact ⟨_, rfl⟩

theorem pathCallback_completes {g : Globals ws N} {callback : PathCallback} {env : Environment}
    {args : SyscallArguments ws} (h : LegalMarks g (.pathCallback callback env args)) :
    ∃ g', callback.run env args g = some g' := by
  by_cases hret : (int args.ret).toInt ≤ 0
  · exact ⟨g, pathCallback_idle hret g⟩
  · have hpos := Int.not_le.mp hret
    cases callback with
    | perRead =>
        obtain ⟨g', hrun⟩ := perRead_completes (h hpos) args.arg1 (ofInt ws (int args.ret))
        exact ⟨g', (if_neg hret).trans hrun⟩
    | perByte =>
        have hdraw : Drawable g (addrRange args.arg1 (ofInt ws (int args.ret))).length := by
          have hrange : readRange args = addrRange args.arg1 (ofInt ws (int args.ret)) :=
            if_neg hret
          rw [← hrange]
          exact h hpos
        obtain ⟨g', hrun⟩ := taintBytes_completes hdraw
        exact ⟨g', (if_neg hret).trans hrun⟩
    | perOffset => exact perOffset_completes h
    | default => exact ⟨g, rfl⟩

theorem setNewTaintForMemory_completes {g : Globals ws N} {taintMark : Int}
    (h : (taintMark = -1 ∧ Drawable g 1) ∨ (0 ≤ taintMark ∧ taintMark < N)) (addr size : Addr ws) :
    ∃ g', setNewTaintForMemory addr size taintMark g = some g' := by
  rw [setNewTaintForMemory]
  rcases h with ⟨hnew, hdraw⟩ | ⟨hneg, hlt⟩
  · obtain ⟨tag, g₁, hdraw, hlt⟩ := drawMark_completes hdraw
    rw [if_pos hnew, hdraw]
    simp [setTag_init hlt]
  · obtain ⟨t, rfl⟩ := Int.eq_ofNat_of_zero_le hneg
    have hlt' : t < N := Int.ofNat_lt.mp hlt
    rw [if_neg (by omega), if_neg (by omega)]
    simp [setTag_init hlt']

theorem assignTagToByteRange_completes {g : Globals ws N} (hg : Fits g) {name : String}
    (hgen : g.taintGen.isSome = true) (hdraw : g.tagMap name = none → Drawable g 1)
    (start size : Addr ws) : ∃ g', assignTagToByteRange start size name g = some g' := by
  rw [assignTagToByteRange, if_pos hgen]
  cases hname : g.tagMap name with
  | some t =>
      have hlt := hg.names name t hname
      simp [setTag_init hlt]
  | none =>
      obtain ⟨tag, g₁, hdraw, hlt⟩ := drawMark_completes (hdraw hname)
      simp [hdraw, setTag_init hlt]

/-- **An operation with legal marks fails no assertion.** -/
theorem completes_of_legal {g : Globals ws N} (hg : Fits g) {op : Op ws} (h : LegalMarks g op) :
    ∃ g', op.onGlobals g = some g' := by
  cases op with
  | call c =>
      obtain ⟨s', hstep, -⟩ := step_marks hg.state c
      exact ⟨{ g with state := s' }, Option.map_eq_some_iff.mpr ⟨s', hstep, rfl⟩⟩
  | setNewTaintForMemory addr size taintMark => exact setNewTaintForMemory_completes h addr size
  | assignTagToByteRange start size name =>
      exact assignTagToByteRange_completes hg h.1 h.2 start size
  | displayTagsForByteRange start size =>
      obtain ⟨out, hout⟩ := displayTagsForByteRange_completes hg.state start size
      exact ⟨g, Option.map_eq_some_iff.mpr ⟨out, hout, rfl⟩⟩
  | pathCallback callback env args => exact pathCallback_completes h
  | networkCallback callback start length =>
      cases callback with
      | perRead => exact perRead_completes h start length
      | perByte => exact taintBytes_completes h

/-! ## Every reachable state -/

/-- Every bitset of the maps and the scratch sets has the configured size, and
    no operation with legal marks fails an assertion. -/
structure SizesAgree (p : Process ws) : Prop where
  sizes : ∀ q b, entryAt p.globals.state q = some b → b.nbits = p.numberOfTaintMarks
  completes : ∀ op : Op ws, LegalMarks p.globals op → ∃ p', op.run p = some p'

theorem sizesAgree_of_fits {p : Process ws} (h : Fits p.globals) : SizesAgree p where
  sizes := fun q b hb => (h.state.entries q b hb).nbits
  completes := by
    intro op hop
    obtain ⟨g', hg'⟩ := completes_of_legal h hop
    exact ⟨{ p with globals := g' }, Option.map_eq_some_iff.mpr ⟨g', hg', rfl⟩⟩

/-- A run keeps the sizes, and the number of taint marks. -/
theorem fits_of_runs {ops : List (Op ws)} {p p' : Process ws} (h : Fits p.globals)
    (hrun : Runs.runs Op.run ops p = some p') :
    Fits p'.globals ∧ p'.numberOfTaintMarks = p.numberOfTaintMarks := by
  induction ops generalizing p with
  | nil =>
      cases hrun
      exact ⟨h, rfl⟩
  | cons op rest ih =>
      rw [Runs.runs_cons, Option.bind_eq_some_iff] at hrun
      obtain ⟨p₁, hstep, hrest⟩ := hrun
      obtain ⟨g, hg, rfl⟩ := Option.map_eq_some_iff.mp hstep
      have hfits : Fits (Process.mk p.numberOfTaintMarks g).globals := fits_of_run h hg
      have hrun' := ih hfits hrest
      exact hrun'

/-- **The size invariant**: whatever configuration is accepted, and whatever
    operations follow, every bitset has the configured number of positions and
    every operation with legal marks completes. -/
theorem sizes_agree {conf : Config} {p₀ p : Process ws} (hmain : main ws conf = some p₀)
    {ops : List (Op ws)} (hrun : Runs.runs Op.run ops p₀ = some p) :
    SizesAgree p ∧ p.numberOfTaintMarks = p₀.numberOfTaintMarks := by
  obtain ⟨o, -, rfl⟩ := Option.map_eq_some_iff.mp hmain
  obtain ⟨hfits, hnumber⟩ := fits_of_runs (fits_initialised ws o) hrun
  exact ⟨sizesAgree_of_fits hfits, hnumber⟩

/-- A file and a network source, and three marks. -/
def twoSources : Config where
  sources := [⟨"path", "PerByte", ["input.txt"]⟩, ⟨"network", "PerRead", ["*"]⟩]
  numMarkings := "3"

theorem main_twoSources :
    main .w64 twoSources = some (initialised .w64 ⟨3, some (.taintGenerator 1 3)⟩) := by
  have hoptions : setFrameworkOptions twoSources = some ⟨3, some (.taintGenerator 1 3)⟩ := by
    decide
  rw [main, hoptions, Option.map_some]

/-- Two sources, and a run that taints a byte and loads it. -/
theorem sizes_agree_twoSources :
    ∃ p : Process .w64, Runs.runs Op.run
        [.setNewTaintForMemory 100 1 (-1), .call (.taintForMemory 100 1 .src)]
        (initialised .w64 ⟨3, some (.taintGenerator 1 3)⟩) = some p
      ∧ SizesAgree p
      ∧ p.numberOfTaintMarks
        = (initialised .w64 ⟨3, some (.taintGenerator 1 3)⟩).numberOfTaintMarks := by
  obtain ⟨p, hrun⟩ : ∃ p : Process .w64, Runs.runs Op.run
      [.setNewTaintForMemory 100 1 (-1), .call (.taintForMemory 100 1 .src)]
      (initialised .w64 ⟨3, some (.taintGenerator 1 3)⟩) = some p := ⟨_, rfl⟩
  exact ⟨p, hrun, sizes_agree main_twoSources hrun⟩

end DytanSizeInvariant
