import Dytan.NetworkMonitorProofs
import Dytan.PathMonitorProofs
import Dytan.SyscallFunctionsProofs
import Dytan.TaintSourceProofs

/-! # Failed system calls — what the observers do to them

    Each observer decides for itself whether to look at the result of its call.
    The callbacks of `PathMonitor`, and those of `NetworkMonitor` for `read`
    and `close`, return at once when it is -1.  The handlers, and the callback
    for `socketcall`, do not look: they erase, record and taint as if the call
    had succeeded.

    `QuietWhen` says for each observer in which states a failed call changes
    nothing all the same. -/

namespace DytanFailedCall

open DytanBitset DytanRegister DytanTaintState DytanMarkFlow DytanSyscallState
  DytanSyscallFunctions DytanTaintSource
open DytanPathMonitor (PathMonitor)
open DytanNetworkMonitor (NetworkMonitor Notification NetCall NetworkAddress)

variable {ws : WordSize} {N : Nat}

/-! ## All observers of the tool -/

/-- The callbacks of file sources. -/
inductive PathCallback where
  | perRead | perByte | perOffset | default
deriving DecidableEq, Repr

/-- The callbacks of network sources. -/
inductive NetworkCallback where
  | perRead | perByte
deriving DecidableEq, Repr

/-- What is fixed when the tool starts. -/
structure Environment where
  sizes : StructSizes
  datFile : DatFile

/-- Everything an observer may change. -/
structure ToolState (ws : WordSize) (N : Nat) where
  globals : Globals ws N
  paths : PathMonitor PathCallback
  network : NetworkMonitor NetworkCallback

/-- A callback of a file source. -/
def PathCallback.run (env : Environment) (args : SyscallArguments ws) (g : Globals ws N) :
    PathCallback → Option (Globals ws N)
  | .perRead => pathSourceReadCallbackPerRead args g
  | .perByte => pathSourceReadCallbackPerByte args g
  | .perOffset => pathSourceReadCallbackPerOffset env.datFile args g
  | .default => pathSourceReadDefault args g

/-- A callback of a network source. -/
def NetworkCallback.run (start length : Addr ws) (g : Globals ws N) :
    NetworkCallback → Option (Globals ws N)
  | .perRead => networkReadCallbackPerRead start length g
  | .perByte => networkReadCallbackPerByte start length g

/-- Run the callbacks of an entry. -/
def runCallbacks (start length : Addr ws) (callbacks : List NetworkCallback)
    (g : Globals ws N) : Option (Globals ws N) :=
  callbacks.foldlM (fun g callback => callback.run start length g) g

/-- `NetworkMonitor::notifyForRead` with the callbacks it calls. -/
def notify (n : Notification ws) (m : NetworkMonitor NetworkCallback) (g : Globals ws N) :
    Option (Globals ws N) := do
  let calls ← DytanNetworkMonitor.notifyForRead n m
  calls.foldlM (fun g call => call.callback.run call.start call.length g) g

/-- The observers, under the names of their functions. -/
inductive Observer where
  | handler (sys : Sys)
  | openCallback | closeCallback | readCallback
  | socketcallNetworkCallback | closeNetworkCallback | readNetworkCallback
deriving DecidableEq, Repr

/-- An observer's function. -/
abbrev ObserverFunction (ws : WordSize) (N : Nat) :=
  Environment → AppMemory ws → SyscallArguments ws → ToolState ws N → Option (ToolState ws N)

/-- A `Handle_*` function as an observer. -/
def handlerFunction (handle : Handler ws N) : ObserverFunction ws N := fun env mem args s =>
  (handle env.sizes mem args s.globals).map fun g => { s with globals := g }

/-- `readCallback` with the callbacks it calls. -/
def readFunction : ObserverFunction ws N := fun env _ args s => do
  let g ← (DytanPathMonitor.readCallback args s.paths).foldlM
    (fun g call => call.1.run env args g) s.globals
  some { s with globals := g }

/-- `readNetworkCallback` with the callbacks it calls. -/
def readNetworkFunction : ObserverFunction ws N := fun _ _ args s => do
  let n := DytanNetworkMonitor.readNetworkCallback args s.network
  let g ← n.elim (some s.globals) fun n => notify n s.network s.globals
  some { s with globals := g }

/-- `socketcallNetworkCallback` with the callbacks it calls. -/
def socketcallFunction : ObserverFunction ws N := fun _ mem args s => do
  let (m, n) ← DytanNetworkMonitor.socketcallNetworkCallback mem args s.network
  let g ← n.elim (some s.globals) fun n => notify n m s.globals
  some { s with globals := g, network := m }

/-- The functions registered in a build of the given word size. -/
def registered : Observer → Option (ObserverFunction ws N)
  | .handler sys => (observer ws sys).map handlerFunction
  | .openCallback => some fun _ mem args s =>
      (DytanPathMonitor.openCallback mem args s.paths).map fun m => { s with paths := m }
  | .closeCallback => some fun _ _ args s =>
      some { s with paths := DytanPathMonitor.closeCallback args s.paths }
  | .readCallback => some readFunction
  | .socketcallNetworkCallback => if ws = .w32 then some socketcallFunction else none
  | .closeNetworkCallback => some fun _ _ args s =>
      some { s with network := DytanNetworkMonitor.closeNetworkCallback args s.network }
  | .readNetworkCallback => some readNetworkFunction

/-- What a failed call must not change. -/
structure Unchanged (s s' : ToolState ws N) : Prop where
  memTaintMap : s'.globals.memTaintMap = s.globals.memTaintMap
  taintGen : s'.globals.taintGen = s.globals.taintGen
  activeFileDescriptors : s'.paths.activeFileDescriptors = s.paths.activeFileDescriptors
  socketToAddress : s'.network.socketToAddress = s.network.socketToAddress
  openFiles : s'.globals.openFiles = s.globals.openFiles

theorem Unchanged.refl (s : ToolState ws N) : Unchanged s s := ⟨rfl, rfl, rfl, rfl, rfl⟩

/-- The observer returns, and has changed nothing. -/
def Quiet (f : ObserverFunction ws N) (env : Environment) (mem : AppMemory ws)
    (args : SyscallArguments ws) (s : ToolState ws N) : Prop :=
  ∃ s', f env mem args s = some s' ∧ Unchanged s s'

/-- Callbacks for `(size_t) -1` bytes change nothing: there is a generator, and
    it does not count, and the bytes from the buffer on have its mark already
    (these are all but the last if the buffer is at 0, and none otherwise); or
    it does count, and none of them draws a mark. -/
def CallbacksQuiet (callbacks : List NetworkCallback) (buf : Addr ws) (g : Globals ws N) : Prop :=
  callbacks ≠ [] → ∃ gen, g.taintGen = some gen ∧
    match gen with
    | .constant seed _ => ∀ a ∈ addrRange buf (-1), g.memTaintMap[a]? = some (markOnly ws N seed)
    | .counting _ _ _ _ => buf ≠ 0 ∧ NetworkCallback.perRead ∉ callbacks

/-- A failed `recv` is left alone, or it is on a recorded socket whose
    callbacks change nothing. -/
def RecvQuiet (mem : AppMemory ws) (args : SyscallArguments ws)
    (m : NetworkMonitor NetworkCallback) (g : Globals ws N) : Prop :=
  ∃ sock, DytanNetworkMonitor.sockArg mem args 0 = some sock ∧
    ((m.socketToAddress (int sock) = none ∧ m.observeEverything = false)
      ∨ ∃ buf a it, DytanNetworkMonitor.sockArg mem args 1 = some buf
          ∧ m.socketToAddress (int sock) = some a ∧ m.find a = some it
          ∧ CallbacksQuiet it.2 buf g)

/-- The call names an address that need not be observed, or that is recorded
    for its socket already; `i` is the argument that points to the address. -/
def NamesRecorded (i : Nat) (mem : AppMemory ws) (args : SyscallArguments ws)
    (m : NetworkMonitor NetworkCallback) : Prop :=
  ∃ servAddr address, DytanNetworkMonitor.sockArg mem args i = some servAddr
    ∧ DytanNetworkMonitor.sockAddress mem servAddr = some address
    ∧ (DytanNetworkMonitor.needsObserving address m = true →
        ∃ sock, DytanNetworkMonitor.sockArg mem args 0 = some sock
          ∧ m.socketToAddress (int sock) = some address)

/-- The condition on an observer, its arguments and the state before. -/
def QuietWhen (o : Observer) (env : Environment) (mem : AppMemory ws)
    (args : SyscallArguments ws) (s : ToolState ws N) : Prop :=
  match o with
  | .handler .dup =>
      ∃ name, s.globals.openFiles (int args.arg0) = some name
        ∧ s.globals.openFiles minusOne = some name
  | .handler .open =>
      ∃ name, mem.cString args.arg0 = some name ∧ s.globals.openFiles minusOne = some name
  | .handler .socketcall => knownSocketcall (int args.arg0) = true
  | .handler sys =>
      ∀ a ∈ erased (handlerRanges sys env.sizes args), a ∉ s.globals.memTaintMap
  | .openCallback | .closeCallback | .readCallback => True
  | .closeNetworkCallback | .readNetworkCallback => True
  | .socketcallNetworkCallback =>
      match DytanNetworkMonitor.socketcallCase (int args.arg0) with
      | none => False
      | some .other => True
      | some .connect => NamesRecorded 1 mem args s.network
      | some .recv => RecvQuiet mem args s.network s.globals
      | some .recvfrom => NamesRecorded 4 mem args s.network
          ∧ RecvQuiet mem args s.network s.globals

/-! ## The handlers -/

theorem int_minusOne : int (-1 : Addr ws) = minusOne := by
  cases ws <;> decide

/-- Erasing some ranges changes nothing exactly if they have no key. -/
theorem foldl_eraseRange_eq_self_iff (ranges : List (Addr ws × Addr ws)) (m : TaintMap ws) :
    ranges.foldl (fun m r => eraseRange r.1 r.2 m) m = m ↔ ∀ a ∈ erased ranges, a ∉ m := by
  constructor
  · intro h a ha hm
    have hget := (foldl_eraseRange_getElem? ranges m a).1 ha
    rw [h] at hget
    rw [Std.ExtTreeMap.mem_iff_isSome_getElem?, hget] at hm
    exact nomatch hm
  · intro h
    refine taintMap_ext fun a => ?_
    by_cases ha : a ∈ erased ranges
    · rw [(foldl_eraseRange_getElem? ranges m a).1 ha, Std.ExtTreeMap.getElem?_eq_none (h a ha)]
    · exact (foldl_eraseRange_getElem? ranges m a).2 ha

/-- A handler that returns some globals is quiet if it leaves three of them. -/
theorem quiet_handler_iff {handle : Handler ws N} {env : Environment} {mem : AppMemory ws}
    {args : SyscallArguments ws} {s : ToolState ws N} :
    Quiet (handlerFunction handle) env mem args s
      ↔ ∃ g, handle env.sizes mem args s.globals = some g
          ∧ g.memTaintMap = s.globals.memTaintMap ∧ g.taintGen = s.globals.taintGen
          ∧ g.openFiles = s.globals.openFiles := by
  constructor
  · rintro ⟨s', hrun, hun⟩
    obtain ⟨g, hg, rfl⟩ := Option.map_eq_some_iff.mp hrun
    exact ⟨g, hg, hun.memTaintMap, hun.taintGen, hun.openFiles⟩
  · rintro ⟨g, hg, hmem, hgen, hfiles⟩
    exact ⟨{ s with globals := g }, by rw [handlerFunction, hg, Option.map_some], hmem, hgen,
      rfl, rfl, hfiles⟩

/-- `openFiles` after `dup`. -/
theorem dup_openFiles_iff (files : BitVec 32 → Option String) (fd₁ fd₂ : BitVec 32) :
    Function.update (Function.update files fd₁ (some ((files fd₁).getD ""))) fd₂
        (some ((files fd₁).getD "")) = files
      ↔ ∃ name, files fd₁ = some name ∧ files fd₂ = some name := by
  constructor
  · intro h
    have h₂ : files fd₂ = some ((files fd₁).getD "") := by
      conv_lhs => rw [← h]
      exact Function.update_self ..
    have h₁ : files fd₁ = some ((files fd₁).getD "") := by
      conv_lhs => rw [← h]
      by_cases hfd : fd₁ = fd₂
      · rw [hfd]
        exact Function.update_self ..
      · rw [Function.update_of_ne hfd]
        exact Function.update_self ..
    exact ⟨_, h₁, h₂⟩
  · rintro ⟨name, h₁, h₂⟩
    have hsame : Function.update files fd₁ (some name) = files :=
      Function.update_eq_self_iff.mpr h₁.symm
    rw [h₁, Option.getD_some, hsame]
    exact Function.update_eq_self_iff.mpr h₂.symm

/-- The handlers. -/
theorem handler_quiet_iff {sys : Sys} {handle : Handler ws N}
    (hreg : observer ws sys = some handle) (env : Environment) (mem : AppMemory ws)
    {args : SyscallArguments ws} (hret : args.ret = -1) (s : ToolState ws N) :
    Quiet (handlerFunction handle) env mem args s ↔ QuietWhen (.handler sys) env mem args s := by
  have hfd : int args.ret = minusOne := by rw [hret, int_minusOne]
  refine quiet_handler_iff.trans ?_
  by_cases hclears : clears sys = true
  · -- it erases its ranges
    have hwhen : QuietWhen (.handler sys) env mem args s
        ↔ ∀ a ∈ erased (handlerRanges sys env.sizes args), a ∉ s.globals.memTaintMap := by
      cases sys with
      | dup | «open» | socketcall => exact nomatch hclears
      | _ => exact Iff.rfl
    rw [observer_clears hreg hclears, hwhen, ← foldl_eraseRange_eq_self_iff]
    constructor
    · rintro ⟨g, hg, hmem, -, -⟩
      cases hg
      exact hmem
    · exact fun hmem => ⟨_, rfl, hmem, rfl, rfl⟩
  · cases sys with
    | dup =>
        have hdup : handle = handleDup := Option.some.inj (hreg.symm.trans observer_dup)
        refine Iff.trans ?_ (dup_openFiles_iff s.globals.openFiles (int args.arg0) minusOne)
        rw [hdup, ← hfd]
        constructor
        · rintro ⟨g, hg, -, -, hfiles⟩
          cases hg
          exact hfiles
        · exact fun hfiles => ⟨_, rfl, rfl, rfl, hfiles⟩
    | «open» =>
        rw [show handle = handleOpen from Option.some.inj (hreg.symm.trans observer_open)]
        constructor
        · rintro ⟨g, hg, -, -, hfiles⟩
          obtain ⟨name, hname, hg⟩ := Option.bind_eq_some_iff.mp hg
          cases hg
          refine ⟨name, hname, ?_⟩
          rw [← hfd]
          exact (Function.update_eq_self_iff.mp hfiles).symm
        · rintro ⟨name, hname, hfiles⟩
          have hrun : handleOpen env.sizes mem args s.globals = some { s.globals with
              openFiles := Function.update s.globals.openFiles (int args.ret) (some name) } := by
            rw [handleOpen, hname]
            rfl
          refine ⟨_, hrun, rfl, rfl, ?_⟩
          rw [← hfd] at hfiles
          exact Function.update_eq_self_iff.mpr hfiles.symm
    | socketcall =>
        rw [observer_socketcall hreg]
        show _ ↔ knownSocketcall (int args.arg0) = true
        by_cases hknown : knownSocketcall (int args.arg0) = true
        · refine iff_of_true ⟨s.globals, if_pos hknown, rfl, rfl, rfl⟩ hknown
        · refine iff_of_false ?_ hknown
          rintro ⟨g, hg, -⟩
          rw [handleSocketcall, if_neg hknown] at hg
          exact nomatch hg
    | fcntl64 | fstat64 | lstat64 | stat64 | mmap2 | fcntl | fstat | lstat | stat
      | getdents64 | readlink | gettimeofday | time | rt_sigaction | rt_sigprocmask | uname
      | mmap => exact absurd rfl hclears
    | _ =>
        have hpass := observer_passes hreg rfl Sys.noConfusion Sys.noConfusion Sys.noConfusion
        rw [hpass]
        refine iff_of_true ⟨s.globals, rfl, rfl, rfl, rfl⟩ ?_
        rintro a ⟨r, hr, -⟩
        exact absurd hr List.not_mem_nil

/-! ## Callbacks for `(size_t) -1` bytes -/

theorem ofInt_minusOne : ofInt ws minusOne = -1 := by
  cases ws <;> decide

/-- The end of the buffer wraps around, unless the buffer is at 0. -/
theorem addrRange_minusOne {buf : Addr ws} : addrRange buf (-1) = [] ↔ buf ≠ 0 := by
  rw [List.eq_nil_iff_forall_not_mem]
  constructor
  · rintro h rfl
    refine h 0 (mem_addrRange.mpr ?_)
    cases ws <;> decide
  · intro h a ha
    obtain ⟨hle, hlt⟩ := mem_addrRange.mp ha
    have hpos : 0 < buf.toNat := by
      refine Nat.pos_of_ne_zero fun hzero => h ?_
      exact BitVec.eq_of_toNat_eq (by simpa using hzero)
    have hend : (buf + -1).toNat = buf.toNat - 1 := by
      have hsub : buf + -1 = buf - 1 := (BitVec.sub_eq_add_neg buf 1).symm
      have hone : (1 : Addr ws).toNat = 1 := by cases ws <;> rfl
      rw [hsub, BitVec.toNat_sub_of_le, hone]
      rw [BitVec.le_def, hone]
      exact hpos
    rw [BitVec.le_def] at hle
    rw [BitVec.lt_def, hend] at hlt
    omega

theorem advance_advance (m n : Nat) (gen : TaintGenerator N) :
    advance m (advance n gen) = advance (n + m) gen := by
  cases gen with
  | counting => simp [advance, Nat.add_assoc]
  | constant => rfl

/-- Storing one tag everywhere is copying its bitset. -/
theorem writeTags_replicate {tag : Nat} (h : tag < N) (as : List (Addr ws)) (m : TaintMap ws) :
    writeTags N (as.zip (List.replicate as.length (some tag))) m
      = as.foldl (copyByte (markOnly ws N tag)) m := by
  induction as generalizing m with
  | nil => rfl
  | cons a rest ih =>
      rw [List.length_cons, List.replicate_succ, List.zip_cons_cons, writeTags_cons, ih,
        List.foldl_cons, copyByte_markOnly h]

/-- Where the generator does not count, both callbacks give every byte its
    mark. -/
theorem run_constant {g : Globals ws N} {seed : Nat} {lt : seed < N}
    (hgen : g.taintGen = some (.constant seed lt)) (start length : Addr ws)
    (callback : NetworkCallback) :
    callback.run start length g
      = some (g.setMem (copyRange (markOnly ws N seed) start length g.memTaintMap)) := by
  have hsame : { g with taintGen := some (.constant seed lt) } = g := by rw [← hgen]
  cases callback with
  | perRead =>
      rw [NetworkCallback.run, networkReadCallbackPerRead, drawMark_eq hgen, nextTaintMark,
        Option.map_some, hsame]
      simp only [Option.bind_eq_bind, Option.bind_some, setTag_init lt]
  | perByte =>
      have hloop := (taintBytes_spec hgen start length).1 trivial
      have htags : byteTags (TaintGenerator.constant seed lt) 0 (addrRange start length).length
          = List.replicate (addrRange start length).length (some seed) := by
        rw [byteTags]
        simp only [tagAt, List.map_const', List.length_range']
      rw [htags, writeTags_replicate lt] at hloop
      rw [NetworkCallback.run, networkReadCallbackPerByte, hloop]
      show some { g.setMem _ with taintGen := some (.constant seed lt) } = _
      rw [← hgen]
      rfl

/-- How many marks a callback draws. -/
def NetworkCallback.draws (bytes : List (Addr ws)) : NetworkCallback → Nat
  | .perRead => 1
  | .perByte => bytes.length

/-- A callback that returns has drawn its marks. -/
theorem run_advances {g g' : Globals ws N} {gen : TaintGenerator N} (hgen : g.taintGen = some gen)
    {start length : Addr ws} {callback : NetworkCallback}
    (h : callback.run start length g = some g') :
    g'.taintGen = some (advance (callback.draws (addrRange start length)) gen) := by
  cases callback with
  | perRead =>
      obtain ⟨⟨tag, g₁⟩, hdraw, h⟩ := Option.bind_eq_some_iff.mp h
      obtain ⟨s, -, h⟩ := Option.bind_eq_some_iff.mp h
      cases h
      by_cases hcan : CanDraw gen 1
      · rw [(drawMark_spec hgen).1 hcan] at hdraw
        cases hdraw
        rfl
      · rw [(drawMark_spec hgen).2 hcan] at hdraw
        exact nomatch hdraw
  | perByte =>
      rw [NetworkCallback.run, networkReadCallbackPerByte] at h
      by_cases hcan : CanDraw gen (addrRange start length).length
      · rw [(taintBytes_spec hgen start length).1 hcan] at h
        cases h
        rfl
      · rw [(taintBytes_spec hgen start length).2 hcan] at h
        exact nomatch h

/-- Callbacks that all return have drawn a mark if one of them draws for a
    whole buffer, or if there is a byte to taint. -/
theorem runCallbacks_advances {start length : Addr ws} {callbacks : List NetworkCallback}
    {g g' : Globals ws N} {gen : TaintGenerator N} (hgen : g.taintGen = some gen)
    (h : runCallbacks start length callbacks g = some g') :
    ∃ n, g'.taintGen = some (advance n gen)
      ∧ (NetworkCallback.perRead ∈ callbacks → 0 < n)
      ∧ (callbacks ≠ [] → addrRange start length ≠ [] → 0 < n) := by
  induction callbacks generalizing g gen with
  | nil =>
      cases h
      refine ⟨0, by rw [advance_zero]; exact hgen, fun hmem => absurd hmem List.not_mem_nil,
        fun hne => absurd rfl hne⟩
  | cons callback rest ih =>
      obtain ⟨g₁, hrun, hrest⟩ := Option.bind_eq_some_iff.mp h
      obtain ⟨n, hg', hread, -⟩ := ih (run_advances hgen hrun) hrest
      refine ⟨callback.draws (addrRange start length) + n, ?_, fun hmem => ?_, fun _ hne => ?_⟩
      · rw [hg', advance_advance]
      · rcases List.mem_cons.mp hmem with rfl | hmem
        · exact Nat.add_pos_left Nat.one_pos n
        · exact Nat.add_pos_right _ (hread hmem)
      · have hlen := List.length_pos_of_ne_nil hne
        cases callback with
        | perRead => exact Nat.add_pos_left Nat.one_pos n
        | perByte => exact Nat.add_pos_left hlen n

/-- Copying twice is copying once. -/
theorem copyRange_copyRange {s : Bitset ws.bits} (hs : Sized N s) (start size : Addr ws)
    (m : TaintMap ws) :
    copyRange s start size (copyRange s start size m) = copyRange s start size m := by
  rw [copyRange_eq_self_iff hs]
  intro a ha
  rw [copyRange_getElem? hs, if_pos ha]

theorem runCallbacks_constant {g : Globals ws N} {seed : Nat} {lt : seed < N}
    (hgen : g.taintGen = some (.constant seed lt)) (start length : Addr ws)
    {callbacks : List NetworkCallback} (hne : callbacks ≠ []) :
    runCallbacks start length callbacks g
      = some (g.setMem (copyRange (markOnly ws N seed) start length g.memTaintMap)) := by
  induction callbacks generalizing g with
  | nil => exact absurd rfl hne
  | cons callback rest ih =>
      rw [runCallbacks, List.foldlM_cons, run_constant hgen, Option.bind_eq_bind, Option.bind_some]
      by_cases hrest : rest = []
      · rw [hrest]
        rfl
      · -- the others copy the same mark to the same bytes again
        have hcopied := ih (g := g.setMem (copyRange (markOnly ws N seed) start length
          g.memTaintMap)) hgen hrest
        rw [Globals.setMem_memTaintMap, copyRange_copyRange (markOnly_spec lt).1] at hcopied
        exact hcopied

/-- Without a generator the first callback fails. -/
theorem runCallbacks_noGenerator {callbacks : List NetworkCallback} (hne : callbacks ≠ [])
    {g : Globals ws N} (hgen : g.taintGen = none) (buf length : Addr ws) :
    runCallbacks buf length callbacks g = none := by
  obtain ⟨callback, rest, rfl⟩ := List.exists_cons_of_ne_nil hne
  have hfirst : callback.run buf length g = none := by
    cases callback with
    | perRead =>
        rw [NetworkCallback.run, networkReadCallbackPerRead, drawMark, hgen]
        rfl
    | perByte =>
        rw [NetworkCallback.run, networkReadCallbackPerByte, taintBytes, hgen]
        rfl
  rw [runCallbacks, List.foldlM_cons, hfirst]
  rfl

/-- Callbacks by byte do nothing for a buffer without bytes. -/
theorem runCallbacks_noByte {buf length : Addr ws} (hbytes : addrRange buf length = [])
    {g : Globals ws N} (hgen : g.taintGen.isSome = true) {callbacks : List NetworkCallback}
    (hread : NetworkCallback.perRead ∉ callbacks) :
    runCallbacks buf length callbacks g = some g := by
  induction callbacks with
  | nil => rfl
  | cons callback rest ih =>
      rw [List.mem_cons, not_or] at hread
      cases callback with
      | perRead => exact absurd rfl hread.1
      | perByte =>
          rw [runCallbacks, List.foldlM_cons, NetworkCallback.run, networkReadCallbackPerByte,
            taintBytes, if_pos hgen, hbytes]
          exact ih hread.2

/-- A counting generator that is where it was has not been drawn from. -/
theorem eq_zero_of_advance {current max n : Nat} {pos : 0 < max} {le : max ≤ N}
    (h : advance n (.counting current max pos le) = .counting current max pos le) : n = 0 := by
  rw [advance, TaintGenerator.counting.injEq] at h
  omega

/-- The callbacks change nothing of what a failed call must not change. -/
theorem callbacks_quiet_iff (callbacks : List NetworkCallback) (buf : Addr ws)
    (g : Globals ws N) :
    (∃ g', runCallbacks buf (-1) callbacks g = some g' ∧ g'.memTaintMap = g.memTaintMap
        ∧ g'.taintGen = g.taintGen ∧ g'.openFiles = g.openFiles)
      ↔ CallbacksQuiet callbacks buf g := by
  rw [CallbacksQuiet]
  by_cases hne : callbacks = []
  · subst hne
    exact iff_of_true ⟨g, rfl, rfl, rfl, rfl⟩ fun h => absurd rfl h
  cases hgen : g.taintGen with
  | none =>
      refine iff_of_false ?_ fun h => by obtain ⟨gen, hgen', -⟩ := h hne; exact nomatch hgen'
      rintro ⟨g', hrun, -⟩
      rw [runCallbacks_noGenerator hne hgen] at hrun
      exact nomatch hrun
  | some gen =>
      cases gen with
      | constant seed lt =>
          rw [runCallbacks_constant hgen _ _ hne]
          have hcopy := copyRange_eq_self_iff (markOnly_spec lt).1 buf (-1) g.memTaintMap
          constructor
          · rintro ⟨g', heq, hmem, -, -⟩ -
            cases heq
            exact ⟨_, rfl, hcopy.mp hmem⟩
          · intro h
            obtain ⟨gen, heq, h⟩ := h hne
            cases heq
            exact ⟨_, rfl, hcopy.mpr h, hgen, rfl⟩
      | counting current max pos le =>
          -- any draw moves the counter on
          constructor
          · rintro ⟨g', hrun, -, hsame, -⟩ -
            obtain ⟨n, hn, hread, hbytes⟩ := runCallbacks_advances hgen hrun
            rw [hsame] at hn
            have hzero := eq_zero_of_advance (Option.some.inj hn).symm
            refine ⟨_, rfl, addrRange_minusOne.mp ?_, fun hmem => ?_⟩
            · by_contra hrange
              exact absurd (hbytes hne hrange) (by omega)
            · exact absurd (hread hmem) (by omega)
          · intro h
            obtain ⟨gen, heq, hquiet⟩ := h hne
            cases heq
            obtain ⟨hbuf, hread⟩ := hquiet
            have hsome : g.taintGen.isSome = true := by rw [hgen]; rfl
            have hrun := runCallbacks_noByte (addrRange_minusOne.mpr hbuf) hsome hread
            exact ⟨g, hrun, rfl, hgen, rfl⟩

/-! ## The callback for `socketcall` -/

/-- Notifying runs the callbacks of the entry found. -/
theorem notify_eq {n : Notification ws} {m : NetworkMonitor NetworkCallback}
    {it : NetworkAddress × List NetworkCallback} (h : m.find n.address = some it)
    (g : Globals ws N) : notify n m g = runCallbacks n.start n.bytesRead it.2 g := by
  rw [notify, DytanNetworkMonitor.notifyForRead, h]
  show List.foldlM _ g (it.2.map _) = _
  rw [List.foldlM_map]
  rfl

theorem notify_none {n : Notification ws} {m : NetworkMonitor NetworkCallback}
    (h : m.find n.address = none) (g : Globals ws N) : notify n m g = none := by
  rw [notify, DytanNetworkMonitor.notifyForRead, h]
  rfl

/-- What the callback does after its `switch` case: the notification. -/
def Delivers (s : ToolState ws N)
    (r : Option (NetworkMonitor NetworkCallback × Option (Notification ws))) : Prop :=
  ∃ m n g, r = some (m, n) ∧ (n.elim (some s.globals) fun n => notify n m s.globals) = some g
    ∧ m.socketToAddress = s.network.socketToAddress
    ∧ g.memTaintMap = s.globals.memTaintMap ∧ g.taintGen = s.globals.taintGen
    ∧ g.openFiles = s.globals.openFiles

theorem socketcall_delivers {env : Environment} {mem : AppMemory ws}
    {args : SyscallArguments ws} {s : ToolState ws N} :
    Quiet socketcallFunction env mem args s
      ↔ Delivers s (DytanNetworkMonitor.socketcallNetworkCallback mem args s.network) := by
  constructor
  · rintro ⟨s', hrun, hun⟩
    obtain ⟨⟨m, n⟩, hcall, hrun⟩ := Option.bind_eq_some_iff.mp hrun
    obtain ⟨g, hg, hrun⟩ := Option.bind_eq_some_iff.mp hrun
    cases hrun
    exact ⟨m, n, g, hcall, hg, hun.socketToAddress, hun.memTaintMap, hun.taintGen, hun.openFiles⟩
  · rintro ⟨m, n, g, hcall, hg, hsockets, hmem, hgen, hfiles⟩
    refine ⟨{ s with globals := g, network := m }, ?_, hmem, hgen, rfl, hsockets, hfiles⟩
    simp only [socketcallFunction, hcall, Option.bind_eq_bind, Option.bind_some, hg]

/-- A failed `recv`. -/
theorem recv_quiet_iff {mem : AppMemory ws} {args : SyscallArguments ws} (hret : args.ret = -1)
    (s : ToolState ws N) :
    Delivers s (DytanNetworkMonitor.recvCase mem args s.network)
      ↔ RecvQuiet mem args s.network s.globals := by
  have hsize : ofInt ws (int args.ret) = -1 := by rw [hret, int_minusOne, ofInt_minusOne]
  constructor
  · rintro ⟨m, n, g, hrecv, hg, hsockets, hmem, hgen, hfiles⟩
    obtain ⟨sock, hsock, ⟨hnone, hoff, rfl, rfl⟩ | ⟨buf, address, hbuf, hskip, haddress, rfl, rfl⟩⟩ :=
      DytanNetworkMonitor.recvCase_cases hrecv
    · exact ⟨sock, hsock, Or.inl ⟨hnone, hoff⟩⟩
    · have hrecorded : s.network.socketToAddress (int sock) = some address := by
        rw [← hsockets, DytanNetworkMonitor.saveSocket_socketToAddress, if_pos rfl]
      refine ⟨sock, hsock, Or.inr ?_⟩
      cases hfind : s.network.find address with
      | none =>
          have hnone : notify ⟨address, buf, ofInt ws (int args.ret)⟩
              (DytanNetworkMonitor.saveSocket (int sock) address s.network) s.globals = none :=
            notify_none hfind s.globals
          cases hnone.symm.trans hg
      | some it =>
          refine ⟨buf, address, it, hbuf, hrecorded, hfind, ?_⟩
          rw [← callbacks_quiet_iff]
          refine ⟨g, ?_, hmem, hgen, hfiles⟩
          rw [← hsize, ← hg]
          exact (notify_eq (n := ⟨address, buf, ofInt ws (int args.ret)⟩) hfind s.globals).symm
  · rintro ⟨sock, hsock, ⟨hnone, hoff⟩ | ⟨buf, address, it, hbuf, hrecorded, hfind, hquiet⟩⟩
    · refine ⟨s.network, none, s.globals, ?_, rfl, rfl, rfl, rfl, rfl⟩
      rw [DytanNetworkMonitor.recvCase, hsock]
      exact if_pos ⟨hnone, hoff⟩
    · have hskip : ¬ (s.network.socketToAddress (int sock) = none
          ∧ s.network.observeEverything = false) := by
        rw [hrecorded]
        exact fun h => Option.some_ne_none _ h.1
      obtain ⟨g, hrun, hmem, hgen, hfiles⟩ := (callbacks_quiet_iff it.2 buf s.globals).mpr hquiet
      refine ⟨_, _, g, DytanNetworkMonitor.recvCase_eq hsock hbuf hskip, ?_, ?_, hmem, hgen, hfiles⟩
      · rw [hrecorded, Option.getD_some, hsize]
        exact (notify_eq (n := ⟨address, buf, -1⟩) hfind s.globals).trans hrun
      · rw [hrecorded, Option.getD_some]
        exact Function.update_eq_self_iff.mpr hrecorded.symm

/-- A failed `connect`. -/
theorem connect_quiet_iff {mem : AppMemory ws} {args : SyscallArguments ws}
    (s : ToolState ws N) :
    Delivers s ((DytanNetworkMonitor.connectCase mem args s.network).map fun m => (m, none))
      ↔ NamesRecorded 1 mem args s.network := by
  constructor
  · rintro ⟨m, n, g, hrun, -, hsockets, -⟩
    obtain ⟨m', hconnect, heq⟩ := Option.map_eq_some_iff.mp hrun
    cases heq
    obtain ⟨servAddr, hserv, hconnect⟩ := Option.bind_eq_some_iff.mp hconnect
    obtain ⟨address, haddress, hconnect⟩ := Option.bind_eq_some_iff.mp hconnect
    refine ⟨servAddr, address, hserv, haddress, fun hneeds => ?_⟩
    rw [if_pos hneeds] at hconnect
    obtain ⟨sock, hsock, hconnect⟩ := Option.bind_eq_some_iff.mp hconnect
    cases hconnect
    refine ⟨sock, hsock, ?_⟩
    rw [← hsockets, DytanNetworkMonitor.saveSocket_socketToAddress, if_pos rfl]
  · rintro ⟨servAddr, address, hserv, haddress, hrecorded⟩
    have hconnect : DytanNetworkMonitor.connectCase mem args s.network
        = if DytanNetworkMonitor.needsObserving address s.network then
            (DytanNetworkMonitor.sockArg mem args 0).map fun sock =>
              DytanNetworkMonitor.saveSocket (int sock) address s.network
          else some s.network := by
      rw [DytanNetworkMonitor.connectCase, hserv]
      show (DytanNetworkMonitor.sockAddress mem servAddr).bind _ = _
      rw [haddress, Option.map_eq_bind]
      rfl
    by_cases hneeds : DytanNetworkMonitor.needsObserving address s.network = true
    · obtain ⟨sock, hsock, hsame⟩ := hrecorded hneeds
      rw [hconnect, if_pos hneeds, hsock]
      exact ⟨_, none, s.globals, rfl, rfl, Function.update_eq_self_iff.mpr hsame.symm, rfl, rfl, rfl⟩
    · rw [hconnect, if_neg hneeds]
      exact ⟨_, none, s.globals, rfl, rfl, rfl, rfl, rfl, rfl⟩

/-- A failed `recvfrom`. -/
theorem recvfrom_quiet_iff {mem : AppMemory ws} {args : SyscallArguments ws}
    (hret : args.ret = -1) (s : ToolState ws N) :
    Delivers s ((DytanNetworkMonitor.recvfromCase mem args s.network).bind
        (DytanNetworkMonitor.recvCase mem args))
      ↔ NamesRecorded 4 mem args s.network ∧ RecvQuiet mem args s.network s.globals := by
  constructor
  · rintro ⟨m, n, g, hrun, hrest⟩
    obtain ⟨m₁, hcase, hrecv⟩ := Option.bind_eq_some_iff.mp hrun
    obtain ⟨sock, servAddr, address, hsock, hserv, haddress, rfl⟩ :=
      DytanNetworkMonitor.recvfromCase_eq_some.mp hcase
    by_cases hneeds : DytanNetworkMonitor.needsObserving address s.network = true
    · rw [if_pos hneeds] at hrecv
      -- what was saved is still there in the end, so it was there before
      have hsaved : (DytanNetworkMonitor.saveSocket (int sock) address
          s.network).socketToAddress (int sock) = some address := by
        rw [DytanNetworkMonitor.saveSocket_socketToAddress, if_pos rfl]
      have hrecorded : s.network.socketToAddress (int sock) = some address := by
        obtain ⟨sock', hsock', ⟨hnone, -⟩ | ⟨buf, b, -, -, hb, -, rfl⟩⟩ :=
          DytanNetworkMonitor.recvCase_cases hrecv
        · rw [hsock] at hsock'
          cases hsock'
          exact nomatch hnone.symm.trans hsaved
        · rw [hsock] at hsock'
          cases hsock'
          rw [hsaved] at hb
          rw [← hrest.2.1, DytanNetworkMonitor.saveSocket_socketToAddress, if_pos rfl, hb]
          rfl
      have hsame : DytanNetworkMonitor.saveSocket (int sock) address s.network = s.network :=
        congrArg s.network.setSockets (Function.update_eq_self_iff.mpr hrecorded.symm)
      rw [hsame] at hrecv
      exact ⟨⟨servAddr, address, hserv, haddress, fun _ => ⟨sock, hsock, hrecorded⟩⟩,
        (recv_quiet_iff hret s).mp ⟨m, n, g, hrecv, hrest⟩⟩
    · rw [if_neg hneeds] at hrecv
      exact ⟨⟨servAddr, address, hserv, haddress, fun h => absurd h hneeds⟩,
        (recv_quiet_iff hret s).mp ⟨m, n, g, hrecv, hrest⟩⟩
  · rintro ⟨⟨servAddr, address, hserv, haddress, hrecorded⟩, hquiet⟩
    have hquiet' := hquiet
    obtain ⟨sock, hsock, -⟩ := hquiet'
    have hcase : DytanNetworkMonitor.recvfromCase mem args s.network = some s.network := by
      refine DytanNetworkMonitor.recvfromCase_eq_some.mpr
        ⟨sock, servAddr, address, hsock, hserv, haddress, ?_⟩
      by_cases hneeds : DytanNetworkMonitor.needsObserving address s.network = true
      · obtain ⟨sock', hsock', hsame⟩ := hrecorded hneeds
        rw [hsock] at hsock'
        cases hsock'
        rw [if_pos hneeds]
        exact congrArg s.network.setSockets (Function.update_eq_self_iff.mpr hsame.symm).symm
      · rw [if_neg hneeds]
    rw [hcase]
    exact (recv_quiet_iff hret s).mpr hquiet

/-- A failed `socketcall`. -/
theorem socketcall_quiet_iff (env : Environment) (mem : AppMemory ws)
    {args : SyscallArguments ws} (hret : args.ret = -1) (s : ToolState ws N) :
    Quiet socketcallFunction env mem args s
      ↔ QuietWhen .socketcallNetworkCallback env mem args s := by
  refine socketcall_delivers.trans ?_
  rw [QuietWhen]
  rw [DytanNetworkMonitor.socketcallNetworkCallback]
  cases DytanNetworkMonitor.socketcallCase (int args.arg0) with
  | none =>
      refine iff_of_false ?_ not_false
      rintro ⟨m, n, g, hrun, -⟩
      cases hrun
  | some c =>
      cases c with
      | connect =>
          refine Iff.trans ?_ (connect_quiet_iff s)
          rw [Option.map_eq_bind]
          rfl
      | recvfrom => exact recvfrom_quiet_iff hret s
      | recv => exact recv_quiet_iff hret s
      | other => exact iff_of_true ⟨_, none, _, rfl, rfl, rfl, rfl, rfl, rfl⟩ trivial

/-! ## All observers -/

/-- **A failed call changes nothing** — its observer returns and leaves the
    taint map, the generator and the tables of descriptors, sockets and files
    as they were — exactly in the states `QuietWhen` says. -/
theorem failed_quiet_iff {o : Observer} {f : ObserverFunction ws N} (hreg : registered o = some f)
    (env : Environment) (mem : AppMemory ws) {args : SyscallArguments ws} (hret : args.ret = -1)
    (s : ToolState ws N) : Quiet f env mem args s ↔ QuietWhen o env mem args s := by
  have hfd : int args.ret = minusOne := by rw [hret, int_minusOne]
  cases o with
  | handler sys =>
      obtain ⟨handle, hhandle, rfl⟩ := Option.map_eq_some_iff.mp hreg
      exact handler_quiet_iff hhandle env mem hret s
  | openCallback =>
      cases hreg
      have hopen : DytanPathMonitor.openCallback mem args s.paths = some s.paths := by
        rw [DytanPathMonitor.openCallback, if_pos hfd]
      refine iff_of_true ⟨s, ?_, Unchanged.refl s⟩ trivial
      show (DytanPathMonitor.openCallback mem args s.paths).map _ = some s
      rw [hopen]
      rfl
  | closeCallback =>
      cases hreg
      have hclose : DytanPathMonitor.closeCallback args s.paths = s.paths := by
        rw [DytanPathMonitor.closeCallback, if_pos hfd]
      refine iff_of_true ⟨s, ?_, Unchanged.refl s⟩ trivial
      show some { s with paths := DytanPathMonitor.closeCallback args s.paths } = some s
      rw [hclose]
  | readCallback =>
      cases hreg
      have hread : DytanPathMonitor.readCallback args s.paths = [] := by
        rw [DytanPathMonitor.readCallback, if_pos hfd]
      refine iff_of_true ⟨s, ?_, Unchanged.refl s⟩ trivial
      rw [readFunction, hread]
      rfl
  | closeNetworkCallback =>
      cases hreg
      have hclose : DytanNetworkMonitor.closeNetworkCallback args s.network = s.network := by
        rw [DytanNetworkMonitor.closeNetworkCallback, if_pos hfd]
      refine iff_of_true ⟨s, ?_, Unchanged.refl s⟩ trivial
      show some { s with network := DytanNetworkMonitor.closeNetworkCallback args s.network }
        = some s
      rw [hclose]
  | readNetworkCallback =>
      cases hreg
      have hread : DytanNetworkMonitor.readNetworkCallback args s.network = none := by
        rw [DytanNetworkMonitor.readNetworkCallback, if_pos hfd]
      refine iff_of_true ⟨s, ?_, Unchanged.refl s⟩ trivial
      rw [readNetworkFunction, hread]
      rfl
  | socketcallNetworkCallback =>
      by_cases hws : ws = .w32
      · rw [registered, if_pos hws] at hreg
        cases hreg
        exact socketcall_quiet_iff env mem hret s
      · rw [registered, if_neg hws] at hreg
        cases hreg

/-- A state with nothing observed. -/
def noSources (g : Globals ws N) : ToolState ws N where
  globals := g
  paths := PathMonitor.new false
  network := (DytanNetworkMonitor.Setup.mk false [] none
    (DytanNetworkMonitor.MapSearch.linear _)).monitor

/-- The tool on 64-bit Linux, without ranges of offsets. -/
def environment : Environment := ⟨linux64, ⟨[], DytanTaintSource.nil_length_le⟩⟩

/-- `fstat(7, 100)` of a descriptor that is not open. -/
def failedFstat : SyscallArguments .w64 := SyscallArguments.ofArgs 7 100 0 (-1)

/-- It keeps a mark before the buffer. -/
theorem failed_quiet_iff_fstat :
    Quiet (handlerFunction handleFstat64) environment (AppMemory.unreadable _) failedFstat
      (noSources (markedAt 50)) := by
  refine (failed_quiet_iff (o := .handler .fstat) rfl environment _ rfl _).mpr fun a ha hmem => ?_
  have hin := mem_addrRange.mp (mem_erased_singleton.mp ha)
  rw [mem_markedAt.mp hmem] at hin
  exact absurd hin (by decide)

/-- `fstat` erases the entries of its buffer, whatever its result. -/
theorem fstat_erases (s : ToolState ws N) (env : Environment) (mem : AppMemory ws)
    {args : SyscallArguments ws} {a : Addr ws}
    (ha : a ∈ erased (handlerRanges .fstat env.sizes args)) :
    ∃ s', handlerFunction handleFstat64 env mem args s = some s'
      ∧ s'.globals.memTaintMap[a]? = none :=
  ⟨_, rfl, (foldl_eraseRange_getElem? _ s.globals.memTaintMap a).1 ha⟩

/-- A failed `fstat` erases the marks of its buffer. -/
theorem failed_fstat_erases :
    ∃ s s' : ToolState .w64 1,
      (registered (.handler .fstat) : Option (ObserverFunction .w64 1))
        = some (handlerFunction handleFstat64)
      ∧ handlerFunction handleFstat64 environment (AppMemory.unreadable _) failedFstat s = some s'
      ∧ s.globals.memTaintMap[(100 : Addr .w64)]? = some ⟨[1], 1⟩
      ∧ s'.globals.memTaintMap[(100 : Addr .w64)]? = none := by
  have hin : (100 : Addr .w64) ∈ erased (handlerRanges .fstat environment.sizes failedFstat) :=
    mem_erased_singleton.mpr (mem_addrRange.mpr (by decide))
  obtain ⟨s', hrun, hnone⟩ :=
    fstat_erases (noSources (markedAt 100)) environment (AppMemory.unreadable _) hin
  exact ⟨_, s', rfl, hrun, Std.ExtTreeMap.getElem?_insert_self, hnone⟩

end DytanFailedCall
