import Dytan.SizeInvariantProofs
import Dytan.SourceSetupProofs
import Dytan.SyscallMonitorProofs
import Dytan.TwoPhaseProofs

/-! # The tool — sources, observers and the program they watch

    All parts put together: the sources of a configuration, each with a monitor
    of its own, what they and `main` register with the one `SyscallMonitor`,
    and the events of a program with several threads: system calls begin and
    end, and the instrumented code runs taint operations.

    A system call is seen twice, and other threads go on in between.  The main
    result is that this does not matter: the tool ends in the state that the
    completed calls, in the order of their ends, lead to one by one, and each
    thread's calls are its own begins with its own results. -/

namespace DytanTool

open DytanRegister DytanTaintState DytanSyscallState DytanSyscallFunctions
  DytanFrameworkOptions DytanSourceSetup DytanSizeInvariant TwoPhase
open DytanFailedCall (PathCallback NetworkCallback Environment Observer notify)
open DytanPathMonitor (PathMonitor)
open DytanNetworkMonitor (NetworkMonitor MapSearch)
open DytanSyscallMonitor (SyscallMonitor Invocation Begun noArguments)
open Runs (runs Related)

variable {ws : WordSize} {N : Nat}

/-- The order of the maps that call numbers are the keys of. -/
instance transOrdNumber : Std.TransOrd (BitVec 32) := BitVec.instTransOrd

/-- The monitor of a source. -/
inductive SourceMonitor where
  | path (m : PathMonitor PathCallback)
  | network (m : NetworkMonitor NetworkCallback)

/-- The globals, and the monitors in the order of the configuration. -/
structure Tool (ws : WordSize) (N : Nat) where
  globals : Globals ws N
  sources : List SourceMonitor

/-- A registered function; the monitor it is passed is named by the place of
    its source. -/
structure ToolObserver where
  function : Observer
  source : Nat
deriving DecidableEq, Repr

/-- Run a function that `activate` registered on the monitor it is passed. -/
def SourceMonitor.run (env : Environment) (mem : AppMemory ws) (args : SyscallArguments ws)
    (g : Globals ws N) : Observer → SourceMonitor → Option (Globals ws N × SourceMonitor)
  | .openCallback, .path m =>
      (DytanPathMonitor.openCallback mem args m).map fun m' => (g, .path m')
  | .closeCallback, .path m => some (g, .path (DytanPathMonitor.closeCallback args m))
  | .readCallback, .path m =>
      ((DytanPathMonitor.readCallback args m).foldlM
        (fun g (call : PathCallback × String) => call.1.run env args g) g).map
          fun g' => (g', .path m)
  | .socketcallNetworkCallback, .network m => do
      let (m', n) ← DytanNetworkMonitor.socketcallNetworkCallback mem args m
      let g' ← n.elim (some g) fun n => notify n m' g
      some (g', .network m')
  | .closeNetworkCallback, .network m =>
      some (g, .network (DytanNetworkMonitor.closeNetworkCallback args m))
  | .readNetworkCallback, .network m =>
      ((DytanNetworkMonitor.readNetworkCallback args m).elim (some g)
        fun n => notify n m g).map fun g' => (g', .network m)
  | _, _ => none

/-- Run an observer that `endSyscall` calls. -/
def observe (env : Environment) (mem : AppMemory ws) (t : Tool ws N)
    (i : Invocation ws ToolObserver) : Option (Tool ws N) :=
  match i.callback.function with
  | .handler sys => do
      let handle ← observer ws sys
      let g ← handle env.sizes mem i.args t.globals
      some { t with globals := g }
  | f => do
      let m ← t.sources[i.callback.source]?
      let (g, m') ← m.run env mem i.args t.globals f
      some ⟨g, t.sources.set i.callback.source m'⟩

/-- Whether `main` registers a handler for the call in this build. -/
def observed (ws : WordSize) (sys : Sys) : Bool := (observer ws sys : Option (Handler ws 0)).isSome

/-- The `SYS_…` constants of the system. -/
structure SyscallNumbers (ws : WordSize) where
  number : Sys → BitVec 32
  distinct : ∀ a b, observed ws a = true → observed ws b = true → number a = number b → a = b

/-- `PathMonitor::activate` and `NetworkMonitor::activate`. -/
def SourceMonitor.activate (ws : WordSize) : SourceMonitor → List (Sys × Observer)
  | .path _ => [(.open, .openCallback), (.close, .closeCallback), (.read, .readCallback)]
  | .network _ =>
      (if ws = .w32 then [(.socketcall, .socketcallNetworkCallback)] else [])
        ++ [(.read, .readNetworkCallback), (.close, .closeNetworkCallback)]

/-- The registrations of the sources from place `i` on, made as each source is
    made. -/
def sourceRegistrations (numbers : SyscallNumbers ws) :
    Nat → List SourceMonitor → List (DytanSyscallMonitor.Event ws ToolObserver)
  | _, [] => []
  | i, m :: rest =>
      (m.activate ws).map (fun r => .addObserver (numbers.number r.1) ⟨r.2, i⟩ 0)
        ++ sourceRegistrations numbers (i + 1) rest

/-- The calls `main` registers handlers for, in its order. -/
def mainTable (ws : WordSize) : List Sys :=
  (match ws with
    | .w32 => [.fcntl64, .fstat64, .getuid32, .lstat64, .stat64, .llseek, .mmap2, .socketcall]
    | .w64 => [.fcntl, .fstat, .getuid, .lstat, .stat])
  ++ [.access, .alarm, .brk, .chmod, .close, .dup, .flock, .fsync, .ftruncate, .getdents64,
    .getpid, .gettimeofday, .ioctl, .link, .lseek, .mmap, .mprotect, .munmap, .open, .read,
    .readlink, .rename, .rt_sigaction, .rt_sigprocmask, .set_thread_area, .time, .uname,
    .unlink, .utime, .write, .writev, .poll, .gettid, .tgkill]

/-- Its registrations. -/
def handlerRegistrations (numbers : SyscallNumbers ws) :
    List (DytanSyscallMonitor.Event ws ToolObserver) :=
  (mainTable ws).map fun sys => .addObserver (numbers.number sys) ⟨.handler sys, 0⟩ 0

/-- The registrations before the program starts. -/
def registrations (numbers : SyscallNumbers ws) (sources : List SourceMonitor) :
    List (DytanSyscallMonitor.Event ws ToolObserver) :=
  sourceRegistrations numbers 0 sources ++ handlerRegistrations numbers

/-! ## The configuration -/

/-- What the tool takes from the system: the call numbers, `inet_addr`, `atoi`
    as a `short`, and the searches of `std::map`. -/
structure Platform (ws : WordSize) where
  numbers : SyscallNumbers ws
  inetAddr : String → BitVec 32
  atoi : String → BitVec 16
  search : MapSearch NetworkCallback

/-- The callback of a file source. -/
def pathCallback : TaintRange → PathCallback
  | .perRead => .perRead
  | .perByte => .perByte
  | .perOffset => .perOffset

/-- The callback of a network source; per offset there is none. -/
def networkCallback : TaintRange → NetworkCallback
  | .perByte => .perByte
  | _ => .perRead

/-- A source that `set_framework_options` has made. -/
inductive Installed where
  | path (p : PathSource)
  | network (n : NetworkSource)

/-- What a `PathTaintSource` registers with its monitor. -/
def pathSetup (p : PathSource) : DytanPathMonitor.Setup PathCallback where
  observeEverything := p.observeEverything
  paths := p.paths.map fun d => (d.text, pathCallback p.granularity)
  forAll := if p.observeEverything then some (pathCallback p.granularity) else none
  default := some .default

/-- What a `NetworkTaintSource` registers with its monitor. -/
def networkSetup (platform : Platform ws) (n : NetworkSource) :
    DytanNetworkMonitor.Setup NetworkCallback where
  observeEverything := n.observeEverything
  addresses := n.addresses.map fun a =>
    (⟨platform.inetAddr a.1.text, platform.atoi a.2.text, a.1.text ++ " : " ++ a.2.text⟩,
      networkCallback n.granularity)
  forAll := if n.observeEverything then some (networkCallback n.granularity) else none
  search := platform.search

/-- The monitor of a source that was made. -/
def Installed.monitor (platform : Platform ws) : Installed → SourceMonitor
  | .path p => .path (pathSetup p).monitor
  | .network n => .network (networkSetup platform n).monitor

/-- One turn of the loop of `set_framework_options`, with the sources in one
    list. -/
def install (numMarkings : String) (s : Options × List Installed) (src : TaintSource) :
    Except Stop (Options × List Installed) := do
  let options ← (setNumMarkings numMarkings s.1).elim (.error .ended) .ok
  if src.type = "path" then
    let p ← installPath src
    .ok (options, s.2 ++ [.path p])
  else if src.type = "network" then
    let n ← installNetwork src
    .ok (options, s.2 ++ [.network n])
  else .ok (options, s.2)

/-- `set_framework_options`. -/
def setUp (conf : Configuration) : Except Stop (Options × List Installed) :=
  conf.sources.foldlM (install conf.numMarkings) (.initial, [])

/-- The sources of each kind. -/
def Installed.paths (installed : List Installed) : List PathSource :=
  installed.filterMap fun
    | .path p => some p
    | .network _ => none

def Installed.networks (installed : List Installed) : List NetworkSource :=
  installed.filterMap fun
    | .path _ => none
    | .network n => some n

/-- What is installed, with the kinds apart. -/
def sorted (s : Options × List Installed) : Setup where
  options := s.1
  pathSources := Installed.paths s.2
  networkSources := Installed.networks s.2

theorem install_sorted (numMarkings : String) (s : Options × List Installed) (src : TaintSource) :
    (install numMarkings s src).map sorted = installSource numMarkings (sorted s) src := by
  have hpaths : ∀ i, Installed.paths (s.2 ++ [i]) = Installed.paths s.2 ++ Installed.paths [i] :=
    fun i => List.filterMap_append
  have hnetworks : ∀ i,
      Installed.networks (s.2 ++ [i]) = Installed.networks s.2 ++ Installed.networks [i] :=
    fun i => List.filterMap_append
  have hoptions : (sorted s).options = s.1 := rfl
  rw [install, installSource, hoptions]
  cases setNumMarkings numMarkings s.1 with
  | none => rfl
  | some options =>
      show Except.map sorted (if src.type = "path" then _ else _) = if src.type = "path" then _ else _
      by_cases hpath : src.type = "path"
      · rw [if_pos hpath, if_pos hpath]
        cases installPath src with
        | error stop => rfl
        | ok p =>
            show Except.ok (sorted (options, s.2 ++ [.path p])) = _
            rw [sorted, hpaths, hnetworks]
            exact congrArg (fun ns => Except.ok (Setup.mk options _ ns)) (List.append_nil _)
      · rw [if_neg hpath, if_neg hpath]
        by_cases hnet : src.type = "network"
        · rw [if_pos hnet, if_pos hnet]
          cases installNetwork src with
          | error stop => rfl
          | ok n =>
              show Except.ok (sorted (options, s.2 ++ [.network n])) = _
              rw [sorted, hpaths, hnetworks]
              exact congrArg (fun ps => Except.ok (Setup.mk options ps _)) (List.append_nil _)
        · rw [if_neg hnet, if_neg hnet]
          rfl

/-- The order in which the sources are made is what `installSources` leaves out. -/
theorem setUp_sorted (conf : Configuration) : (setUp conf).map sorted = installSources conf := by
  have hloop : ∀ (sources : List TaintSource) (s : Options × List Installed),
      (sources.foldlM (install conf.numMarkings) s).map sorted
        = sources.foldlM (installSource conf.numMarkings) (sorted s) := by
    intro sources
    induction sources with
    | nil => exact fun _ => rfl
    | cons src rest ih =>
        intro s
        rw [List.foldlM_cons, List.foldlM_cons, ← install_sorted]
        cases install conf.numMarkings s src with
        | error stop => rfl
        | ok s₁ => exact ih s₁
  exact hloop conf.sources (.initial, [])

/-- The tool when the program starts. -/
def Tool.initial (platform : Platform ws) (o : Options) (installed : List Installed) :
    Tool ws (initialised ws o).numberOfTaintMarks where
  globals := (initialised ws o).globals
  sources := installed.map (Installed.monitor platform)

/-- What the end of a system call is told, with the memory of the program. -/
structure Answer (ws : WordSize) where
  ret : Addr ws
  err : Addr ws
  mem : AppMemory ws

/-- Threads enter and leave system calls (`SysBefore`, `SysAfter`), and run
    taint operations. -/
abbrev ToolEvent (ws : WordSize) := TwoPhase.Event (BitVec 32) (Begun ws) (Answer ws) (Op ws)

/-- The tool with its `SyscallMonitor`. -/
structure Machine (ws : WordSize) (N : Nat) where
  monitor : SyscallMonitor ws ToolObserver
  tool : Tool ws N

/-- The monitor when the program starts; `defaultObserver` is as its allocation
    had it. -/
def startMonitor (numbers : SyscallNumbers ws) (uninitialised : Option ToolObserver)
    (sources : List SourceMonitor) : SyscallMonitor ws ToolObserver :=
  DytanSyscallMonitor.after (registrations numbers sources) (.new uninitialised)

/-- The machine when the program starts. -/
def start (numbers : SyscallNumbers ws) (uninitialised : Option ToolObserver) (t : Tool ws N) :
    Machine ws N := ⟨startMonitor numbers uninitialised t.sources, t⟩

/-- A taint operation of the instrumented code. -/
def operate (op : Op ws) (t : Tool ws N) : Option (Tool ws N) :=
  (op.onGlobals t.globals).map fun g => { t with globals := g }

/-- One event. -/
def step (env : Environment) : ToolEvent ws → Machine ws N → Option (Machine ws N)
  | .begins tid b, s =>
      some { s with monitor := DytanSyscallMonitor.beginSyscall tid b s.monitor }
  | .ends tid a, s =>
      let (invocations, monitor) := DytanSyscallMonitor.endSyscall tid a.ret a.err s.monitor
      (invocations.foldlM (observe env a.mem) s.tool).map fun t => ⟨monitor, t⟩
  | .acts op, s => (operate op s.tool).map fun t => { s with tool := t }

/-! ## Calls one by one -/

/-- The arguments of a call that began as `b`, when it has ended. -/
def endedArgs (b : Begun ws) (a : Answer ws) : SyscallArguments ws :=
  { b.args with ret := a.ret, err := a.err }

/-- The observers `endSyscall` calls with given arguments. -/
def called (args : SyscallArguments ws) (m : SyscallMonitor ws ToolObserver) :
    List (Invocation ws ToolObserver) :=
  match m.observers[int args.num]? with
  | some callbacks => callbacks.map fun o => ⟨o.1, int args.num, args, o.2⟩
  | none =>
      match m.defaultObserver with
      | some callback => [⟨callback, int args.num, args, 0⟩]
      | none => []

/-- A whole call, at once. -/
def complete (env : Environment) (m : SyscallMonitor ws ToolObserver) (args : SyscallArguments ws)
    (mem : AppMemory ws) (t : Tool ws N) : Option (Tool ws N) :=
  (called args m).foldlM (observe env mem) t

/-- What whole calls and operations do to the tool. -/
def effects (env : Environment) (m : SyscallMonitor ws ToolObserver) :
    Effects (Begun ws) (Answer ws) (Op ws) (Tool ws N) where
  call := fun b a => complete env m (endedArgs b a) a.mem
  act := operate

/-- The request of a thread that has begun no call. -/
def noCall : Begun ws := ⟨0, 0, 0, 0, 0, 0, 0⟩

theorem noCall_args : (noCall : Begun ws).args = noArguments := by
  cases ws with
  | w32 => decide
  | w64 => decide

/-- The machine has filed what the threads began, its observers are those that
    were registered, and the tool is the same. -/
structure Files (m₀ : SyscallMonitor ws ToolObserver) (s : Machine ws N)
    (p : (BitVec 32 → Begun ws) × Tool ws N) : Prop where
  pending : ∀ tid, s.monitor.pendingSyscalls.getD tid noArguments = (p.1 tid).args
  observers : s.monitor.observers = m₀.observers
  default : s.monitor.defaultObserver = m₀.defaultObserver
  tool : s.tool = p.2

/-- `endSyscall` calls the observers of the pending call. -/
theorem endSyscall_called (tid : BitVec 32) (ret err : Addr ws)
    (m : SyscallMonitor ws ToolObserver) :
    (DytanSyscallMonitor.endSyscall tid ret err m).1
      = called { m.pendingSyscalls.getD tid noArguments with ret := ret, err := err } m := by
  cases h : m.observers[int (m.pendingSyscalls.getD tid noArguments).num]? with
  | none => cases hd : m.defaultObserver <;> simp [DytanSyscallMonitor.endSyscall, called, h, hd]
  | some callbacks => simp [DytanSyscallMonitor.endSyscall, called, h]

/-- The observers called depend on those registered. -/
theorem called_congr {m m' : SyscallMonitor ws ToolObserver} (ho : m.observers = m'.observers)
    (hd : m.defaultObserver = m'.defaultObserver) (args : SyscallArguments ws) :
    called args m = called args m' := by
  rw [called, called, ho, hd]

/-- One event of the machine is one event of the calls in two phases. -/
theorem step_files (env : Environment) {m₀ : SyscallMonitor ws ToolObserver} (e : ToolEvent ws)
    (s : Machine ws N) (p : (BitVec 32 → Begun ws) × Tool ws N) (h : Files m₀ s p) :
    Related (Files m₀) (step env e s) (TwoPhase.step (effects env m₀) e p) := by
  obtain ⟨filed, t⟩ := p
  obtain ⟨monitor, t'⟩ := s
  obtain rfl : t' = t := h.tool
  cases e with
  | begins tid b =>
      refine ⟨fun tid' => ?_, h.observers, h.default, rfl⟩
      show (monitor.pendingSyscalls.insert tid b.args).getD tid' noArguments
        = (Function.update filed tid b tid').args
      rw [Std.ExtTreeMap.getD_insert]
      by_cases htid : tid' = tid
      · rw [htid, Function.update_self, if_pos Std.compare_self]
      · rw [Function.update_of_ne htid, if_neg fun heq =>
          htid (Std.LawfulEqCmp.eq_of_compare heq).symm]
        exact h.pending tid'
  | ends tid a =>
      have hcalled : (DytanSyscallMonitor.endSyscall tid a.ret a.err monitor).1
          = called (endedArgs (filed tid) a) m₀ := by
        have hpending : monitor.pendingSyscalls.getD tid noArguments = (filed tid).args :=
          h.pending tid
        rw [endSyscall_called, hpending]
        exact called_congr h.observers h.default _
      show Related (Files m₀)
        (((DytanSyscallMonitor.endSyscall tid a.ret a.err monitor).1.foldlM
          (observe env a.mem) t').map _)
        ((complete env m₀ (endedArgs (filed tid) a) a.mem t').map _)
      rw [hcalled, complete]
      cases (called (endedArgs (filed tid) a) m₀).foldlM (observe env a.mem) t' with
      | none => exact trivial
      | some t'' =>
          refine ⟨fun tid' => ?_, h.observers, h.default, rfl⟩
          -- filing an absent thread files what a lookup finds anyway
          exact (DytanSyscallMonitor.step_pending tid' (.endSyscall tid a.ret a.err)
            monitor).trans (h.pending tid')
  | acts op =>
      show Related (Files m₀) ((operate op t').map _) ((operate op t').map _)
      cases operate op t' with
      | none => exact trivial
      | some t'' => exact ⟨h.pending, h.observers, h.default, rfl⟩

/-- Whose calls sources observe, the handlers observe too. -/
theorem activate_observed {m : SourceMonitor} {r : Sys × Observer} (h : r ∈ m.activate ws) :
    observed ws r.1 = true := by
  cases m with
  | path m =>
      rw [SourceMonitor.activate] at h
      simp only [List.mem_cons, List.not_mem_nil, or_false] at h
      rcases h with rfl | rfl | rfl <;> cases ws <;> rfl
  | network m =>
      rw [SourceMonitor.activate, List.mem_append, List.mem_ite_nil_right] at h
      simp only [List.mem_cons, List.not_mem_nil, or_false] at h
      rcases h with ⟨rfl, rfl⟩ | rfl | rfl
      · rfl
      · cases ws <;> rfl
      · cases ws <;> rfl

theorem mainTable_observed {sys : Sys} (h : sys ∈ mainTable ws) : observed ws sys = true := by
  have hall : ∀ sys ∈ mainTable ws, observed ws sys = true := by
    cases ws with
    | w32 => decide
    | w64 => decide
  exact hall sys h

/-- Everything registered is an observer of a call with a handler. -/
theorem mem_registrations {numbers : SyscallNumbers ws} {sources : List SourceMonitor}
    {e : DytanSyscallMonitor.Event ws ToolObserver} (he : e ∈ registrations numbers sources) :
    ∃ sys o, observed ws sys = true ∧ e = .addObserver (numbers.number sys) o 0 := by
  have hsources : ∀ (i : Nat) (sources : List SourceMonitor),
      e ∈ sourceRegistrations numbers i sources →
      ∃ sys o, observed ws sys = true ∧ e = .addObserver (numbers.number sys) o 0 := by
    intro i sources
    induction sources generalizing i with
    | nil => exact fun h => absurd h List.not_mem_nil
    | cons m rest ih =>
        intro h
        rcases List.mem_append.mp h with h | h
        · obtain ⟨r, hr, rfl⟩ := List.mem_map.mp h
          exact ⟨r.1, _, activate_observed hr, rfl⟩
        · exact ih (i + 1) h
  rcases List.mem_append.mp he with h | h
  · exact hsources 0 sources h
  · obtain ⟨sys, hsys, rfl⟩ := List.mem_map.mp h
    exact ⟨sys, _, mainTable_observed hsys, rfl⟩

/-- Registering begins no call. -/
theorem startMonitor_pending (numbers : SyscallNumbers ws) (uninitialised : Option ToolObserver)
    (sources : List SourceMonitor) (tid : BitVec 32) :
    (startMonitor numbers uninitialised sources).pendingSyscalls.getD tid noArguments
      = noArguments := by
  have hnone : (registrations numbers sources).filterMap
      (DytanSyscallMonitor.Event.begins tid) = [] := by
    refine List.filterMap_eq_nil_iff.mpr fun e he => ?_
    obtain ⟨sys, o, -, rfl⟩ := mem_registrations he
    rfl
  rw [startMonitor, DytanSyscallMonitor.after_pending, DytanSyscallMonitor.latestBegin, hnone]
  rfl

theorem start_files (numbers : SyscallNumbers ws) (uninitialised : Option ToolObserver)
    (t : Tool ws N) : Files (startMonitor numbers uninitialised t.sources)
      (start numbers uninitialised t) (fun _ => noCall, t) where
  pending := by
    intro tid
    rw [noCall_args]
    exact startMonitor_pending numbers uninitialised t.sources tid
  observers := rfl
  default := rfl
  tool := rfl

/-- The tool after a run of the machine. -/
theorem run_tool (env : Environment) {m₀ : SyscallMonitor ws ToolObserver} {s : Machine ws N}
    {p : (BitVec 32 → Begun ws) × Tool ws N} (h : Files m₀ s p) (es : List (ToolEvent ws)) :
    (runs (step env) es s).map Machine.tool
      = (runs (TwoPhase.step (effects env m₀)) es p).map Prod.snd := by
  exact (Runs.runs_related (step_files env) es h).map_eq fun _ _ h' => h'.tool

/-- The globals after a run are those after its completed calls. -/
theorem run_globals (numbers : SyscallNumbers ws) (uninitialised : Option ToolObserver)
    (env : Environment) (t : Tool ws N) (es : List (ToolEvent ws)) :
    (runs (step env) es (start numbers uninitialised t)).map (fun s => s.tool.globals)
      = (runs (stepCompleted (effects env (startMonitor numbers uninitialised t.sources)))
          (completed (fun _ => noCall) es) t).map Tool.globals := by
  have hrun := (run_tool env (start_files numbers uninitialised t) es).trans
    (runs_completed _ es _ _)
  have hmap := congrArg (Option.map Tool.globals) hrun
  rw [Option.map_map] at hmap
  exact hmap

/-- **Interleavings are runs of whole calls**: in a run whose threads each
    enter and leave system calls in turn, the tool ends in the state that the
    completed calls and the operations lead to one by one, in the order in
    which the calls return; and the calls of each thread are its own, each with
    the arguments it began with and the result it ended with. -/
theorem run_linearizes (numbers : SyscallNumbers ws) (uninitialised : Option ToolObserver)
    (env : Environment) (t : Tool ws N) {es : List (ToolEvent ws)} (halt : Alternates es) :
    (runs (step env) es (start numbers uninitialised t)).map Machine.tool
        = runs (stepCompleted (effects env (startMonitor numbers uninitialised t.sources)))
          (completed (fun _ => noCall) es) t
      ∧ ∀ tid, (completed (fun _ => noCall) es).filterMap (Completed.of tid)
        = (es.filterMap (TwoPhase.Event.request tid)).zip
          (es.filterMap (TwoPhase.Event.answer tid)) := by
  refine ⟨?_, completed_of halt _⟩
  rw [run_tool env (start_files numbers uninitialised t)]
  exact runs_completed _ es _ t

/-- The call numbers of 64-bit Linux; the calls of 32-bit builds have others. -/
def linuxNumber : Sys → BitVec 32
  | .read => 0
  | .write => 1
  | .open => 2
  | .close => 3
  | .stat => 4
  | .fstat => 5
  | .lstat => 6
  | .poll => 7
  | .lseek => 8
  | .mmap => 9
  | .mprotect => 10
  | .munmap => 11
  | .brk => 12
  | .rt_sigaction => 13
  | .rt_sigprocmask => 14
  | .ioctl => 16
  | .writev => 20
  | .access => 21
  | .dup => 32
  | .alarm => 37
  | .getpid => 39
  | .uname => 63
  | .fcntl => 72
  | .flock => 73
  | .fsync => 74
  | .ftruncate => 77
  | .rename => 82
  | .link => 86
  | .unlink => 87
  | .readlink => 89
  | .chmod => 90
  | .gettimeofday => 96
  | .getuid => 102
  | .utime => 132
  | .gettid => 186
  | .time => 201
  | .set_thread_area => 205
  | .getdents64 => 217
  | .tgkill => 234
  | .fcntl64 | .fstat64 | .getuid32 | .lstat64 | .stat64 | .llseek | .mmap2 | .socketcall => -1

/-- The calls by their places in the table of `main`. -/
theorem linuxNumber_nodup : ((mainTable .w64).map linuxNumber).Nodup := by decide

theorem mem_mainTable {sys : Sys} (h : observed ws sys = true) : sys ∈ mainTable ws := by
  cases ws with
  | w32 =>
      cases sys with
      | fcntl | fstat | getuid | lstat | stat => exact nomatch h
      | _ => decide
  | w64 =>
      cases sys with
      | fcntl64 | fstat64 | getuid32 | lstat64 | stat64 | llseek | mmap2 | socketcall =>
          exact nomatch h
      | _ => decide

def linuxNumbers : SyscallNumbers .w64 where
  number := linuxNumber
  distinct := fun _ _ ha hb heq =>
    List.inj_on_of_nodup_map linuxNumber_nodup (mem_mainTable ha) (mem_mainTable hb) heq

/-- Thread 1 reads while thread 2 closes and comes back first. -/
def overlappingCalls : List (ToolEvent .w64) :=
  [.begins 1 ⟨0, 3, 100, 8, 0, 0, 0⟩, .begins 2 ⟨3, 4, 0, 0, 0, 0, 0⟩,
    .ends 2 ⟨0, 0, AppMemory.unreadable _⟩, .ends 1 ⟨8, 0, AppMemory.unreadable _⟩]

theorem alternates_overlappingCalls : Alternates overlappingCalls := by
  intro tid
  by_cases h1 : (1 : BitVec 32) = tid
  · subst h1
    simp [overlappingCalls, AlternatesFrom]
  · by_cases h2 : (2 : BitVec 32) = tid
    · subst h2
      simp [overlappingCalls, AlternatesFrom]
    · simp only [overlappingCalls, AlternatesFrom, if_neg h1, if_neg h2]

/-- A tool without sources. -/
def sourceless : Tool .w64 1 := ⟨Globals.init .w64 1, []⟩

theorem run_linearizes_overlapping :
    (runs (step DytanFailedCall.environment) overlappingCalls
          (start linuxNumbers none sourceless)).map Machine.tool
        = runs (stepCompleted (effects DytanFailedCall.environment
            (startMonitor linuxNumbers none sourceless.sources)))
          (completed (fun _ => noCall) overlappingCalls) sourceless
      ∧ ∀ tid, (completed (fun _ => noCall) overlappingCalls).filterMap (Completed.of tid)
        = (overlappingCalls.filterMap (TwoPhase.Event.request tid)).zip
          (overlappingCalls.filterMap (TwoPhase.Event.answer tid)) :=
  run_linearizes linuxNumbers none DytanFailedCall.environment sourceless
    alternates_overlappingCalls

end DytanTool
