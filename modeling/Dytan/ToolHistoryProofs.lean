import Dytan.ToolProofs

/-! # What a completed call does, and what the sources know

    `SyscallMonitor` calls the observers of a call one after the other.  For a
    call that `main` has a handler for, this comes to each source in turn, and
    then the handler (`complete_eq`).

    From this the histories follow.  Whatever the threads do, the monitor of a
    file source knows the openings among the completed calls, and a read runs
    the callbacks of all file sources that observe the name its descriptor was
    opened under.  On a 64-bit build the monitors of network sources never
    learn of a socket: their sources do nothing.

    The constructor leaves the default observer as it finds it.  The histories
    are those of runs in which it is never called: it is `NULL`, or every
    completed call has an observer (`NeverDefault`). -/

namespace DytanToolHistory

open DytanRegister DytanTaintState DytanSyscallState DytanSyscallFunctions
  DytanSizeInvariant DytanTool TwoPhase
open DytanFailedCall (PathCallback NetworkCallback Environment Observer)
open DytanPathMonitor (PathMonitor FileCall FileEvent openedAs)
open DytanNetworkMonitor (NetworkMonitor)
open DytanSyscallMonitor (SyscallMonitor Invocation Begun)
open Runs (runs)

variable {ws : WordSize} {N : Nat}

/-! ## Each source in turn -/

/-- Run some functions of one source. -/
def runEach (env : Environment) (mem : AppMemory ws) (args : SyscallArguments ws)
    (fs : List (Sys × Observer)) (p : Globals ws N × SourceMonitor) :
    Option (Globals ws N × SourceMonitor) :=
  fs.foldlM (fun (p : Globals ws N × SourceMonitor) r => p.2.run env mem args p.1 r.2) p

theorem runEach_one (env : Environment) (mem : AppMemory ws) (args : SyscallArguments ws)
    (r : Sys × Observer) (p : Globals ws N × SourceMonitor) :
    runEach env mem args [r] p = p.2.run env mem args p.1 r.2 := bind_pure _

/-- Run what a source has registered for a call. -/
def onCall (env : Environment) (mem : AppMemory ws) (args : SyscallArguments ws) (sys : Sys)
    (m : SourceMonitor) (g : Globals ws N) : Option (Globals ws N × SourceMonitor) :=
  runEach env mem args ((m.activate ws).filter fun r => r.1 = sys) (g, m)

/-- Run each source, from first to last. -/
def eachSource (f : SourceMonitor → Globals ws N → Option (Globals ws N × SourceMonitor)) :
    List SourceMonitor → Globals ws N → Option (Globals ws N × List SourceMonitor)
  | [], g => some (g, [])
  | m :: rest, g => do
      let (g', m') ← f m g
      let (g'', rest') ← eachSource f rest g'
      some (g'', m' :: rest')

/-- The calls the sources from place `i` on have for `sys`. -/
def sourceCalls (ws : WordSize) (sys : Sys) : Nat → List SourceMonitor → List ToolObserver
  | _, [] => []
  | i, m :: rest =>
      ((m.activate ws).filter fun r => r.1 = sys).map (fun r => ⟨r.2, i⟩)
        ++ sourceCalls ws sys (i + 1) rest

/-- An observer that a source has registered. -/
def isSource : Observer → Bool
  | .handler _ => false
  | _ => true

theorem activate_isSource {m : SourceMonitor} {r : Sys × Observer} (h : r ∈ m.activate ws) :
    isSource r.2 = true := by
  cases m with
  | path m =>
      rw [SourceMonitor.activate] at h
      simp only [List.mem_cons, List.not_mem_nil, or_false] at h
      rcases h with rfl | rfl | rfl <;> rfl
  | network m =>
      rw [SourceMonitor.activate, List.mem_append, List.mem_ite_nil_right] at h
      simp only [List.mem_cons, List.not_mem_nil, or_false] at h
      rcases h with ⟨-, rfl⟩ | rfl | rfl <;> rfl

/-- Observing through the monitor of a source. -/
theorem observe_source {env : Environment} {mem : AppMemory ws} {args : SyscallArguments ws}
    {f : Observer} (hf : isSource f = true) (num : BitVec 32) (v : Addr ws)
    (before after : List SourceMonitor) (m : SourceMonitor) (g : Globals ws N) :
    observe env mem ⟨g, before ++ m :: after⟩ ⟨⟨f, before.length⟩, num, args, v⟩
      = (m.run env mem args g f).map fun p => ⟨p.1, before ++ p.2 :: after⟩ := by
  have hget : (before ++ m :: after)[before.length]? = some m := by simp
  have hset : ∀ m' : SourceMonitor, (before ++ m :: after).set before.length m'
      = before ++ m' :: after := by
    intro m'
    simp
  cases f with
  | handler sys => exact absurd hf Bool.false_ne_true
  | _ =>
      simp only [observe, hget, hset, Option.bind_eq_bind, Option.bind_some]
      rw [Option.map_eq_bind]
      rfl

/-- Observing through a handler. -/
theorem observe_handler (env : Environment) (mem : AppMemory ws) (args : SyscallArguments ws)
    (sys : Sys) (i : Nat) (num : BitVec 32) (v : Addr ws) (t : Tool ws N) :
    observe env mem t ⟨⟨.handler sys, i⟩, num, args, v⟩
      = (observer ws sys).bind fun handle =>
        (handle env.sizes mem args t.globals).map fun g => { t with globals := g } := by
  simp only [observe, Option.bind_eq_bind, Option.map_eq_bind]
  rfl

/-- The observers of one source. -/
theorem foldlM_observe_one (env : Environment) (mem : AppMemory ws) (args : SyscallArguments ws)
    (num : BitVec 32) (v : Addr ws) (before after : List SourceMonitor)
    (fs : List (Sys × Observer)) (hfs : ∀ r ∈ fs, isSource r.2 = true) (m : SourceMonitor)
    (g : Globals ws N) :
    (fs.map fun r => (⟨⟨r.2, before.length⟩, num, args, v⟩ : Invocation ws ToolObserver)).foldlM
        (observe env mem) ⟨g, before ++ m :: after⟩
      = (runEach env mem args fs (g, m)).map fun p => ⟨p.1, before ++ p.2 :: after⟩ := by
  induction fs generalizing g m with
  | nil => rfl
  | cons r rest ih =>
      rw [List.map_cons, List.foldlM_cons, observe_source (hfs r List.mem_cons_self), runEach,
        List.foldlM_cons]
      cases m.run env mem args g r.2 with
      | none => rfl
      | some p => exact ih (fun r' hr' => hfs r' (List.mem_cons_of_mem _ hr')) p.2 p.1

/-- The observers of all sources, registered as they were at the start. -/
theorem foldlM_observe_sources (env : Environment) (mem : AppMemory ws)
    (args : SyscallArguments ws) (num : BitVec 32) (v : Addr ws) (sys : Sys)
    {registered rest : List SourceMonitor}
    (hkinds : registered.map (SourceMonitor.activate ws) = rest.map (SourceMonitor.activate ws))
    (before : List SourceMonitor) (g : Globals ws N) :
    ((sourceCalls ws sys before.length registered).map fun o =>
        (⟨o, num, args, v⟩ : Invocation ws ToolObserver)).foldlM
        (observe env mem) ⟨g, before ++ rest⟩
      = (eachSource (onCall env mem args sys) rest g).map fun p => ⟨p.1, before ++ p.2⟩ := by
  induction rest generalizing registered before g with
  | nil =>
      obtain rfl : registered = [] := List.map_eq_nil_iff.mp hkinds
      rfl
  | cons m rest ih =>
      obtain ⟨m₀, registered, rfl, hm, hrest⟩ := List.map_eq_cons_iff.mp hkinds
      have hone := foldlM_observe_one env mem args num v before rest
        ((m.activate ws).filter fun r => r.1 = sys)
        (fun r hr => activate_isSource (List.mem_filter.mp hr).1) m g
      rw [sourceCalls, hm, List.map_append, List.map_map, List.foldlM_append]
      rw [show ((fun o => (⟨o, num, args, v⟩ : Invocation ws ToolObserver)) ∘
          fun r : Sys × Observer => (⟨r.2, before.length⟩ : ToolObserver))
        = fun r => ⟨⟨r.2, before.length⟩, num, args, v⟩ from rfl, hone, eachSource]
      show ((onCall env mem args sys m g).map _).bind _ = Option.map _ ((onCall _ _ _ _ m g).bind _)
      cases onCall env mem args sys m g with
      | none => rfl
      | some p =>
          have hnext := ih hrest (before ++ [p.2]) p.1
          rw [List.length_append, List.length_singleton, List.append_assoc,
            List.singleton_append] at hnext
          refine hnext.trans ?_
          show _ = Option.map _ ((eachSource (onCall env mem args sys) rest p.1).bind _)
          cases eachSource (onCall env mem args sys) rest p.1 with
          | none => rfl
          | some q =>
              show some (Tool.mk q.1 (before ++ [p.2] ++ q.2)) = some ⟨q.1, before ++ p.2 :: q.2⟩
              rw [List.append_assoc, List.singleton_append]

/-! ## What is registered for a call -/

section Registered

variable {numbers : SyscallNumbers ws} {sys : Sys}

/-- The registrations for a call among some, as two observed calls have one
    number only if they are one call. -/
theorem registered_map (numbers : SyscallNumbers ws) {sys : Sys} {α : Type} (f : α → Sys)
    (o : α → ToolObserver) {l : List α}
    (hl : ∀ a ∈ l, observed ws (f a) = true) (hsys : observed ws sys = true) :
    DytanSyscallMonitor.registered (numbers.number sys)
        (l.map fun a => .addObserver (numbers.number (f a)) (o a) (0 : Addr ws))
      = (l.filter fun a => f a = sys).map fun a => (o a, 0) := by
  induction l with
  | nil => rfl
  | cons a rest ih =>
      have hrest := ih fun a' ha' => hl a' (List.mem_cons_of_mem _ ha')
      rw [DytanSyscallMonitor.registered] at hrest ⊢
      rw [List.map_cons]
      by_cases ha : f a = sys
      · have hreg : (DytanSyscallMonitor.Event.addObserver (numbers.number (f a)) (o a)
            (0 : Addr ws)).registers (numbers.number sys) = some (o a, 0) :=
          if_pos (congrArg numbers.number ha)
        rw [List.filterMap_cons_some hreg, hrest, List.filter_cons_of_pos (by simpa using ha)]
        rfl
      · have hreg : (DytanSyscallMonitor.Event.addObserver (numbers.number (f a)) (o a)
            (0 : Addr ws)).registers (numbers.number sys) = none :=
          if_neg fun heq => ha (numbers.distinct _ _ (hl a List.mem_cons_self) hsys heq)
        rw [List.filterMap_cons_none hreg, hrest, List.filter_cons_of_neg (by simpa using ha)]

/-- The registrations of the sources for a call. -/
theorem registered_sources (hsys : observed ws sys = true) (i : Nat)
    (sources : List SourceMonitor) :
    DytanSyscallMonitor.registered (numbers.number sys) (sourceRegistrations numbers i sources)
      = (sourceCalls ws sys i sources).map fun o => (o, 0) := by
  induction sources generalizing i with
  | nil => rfl
  | cons m rest ih =>
      have hone := registered_map numbers Prod.fst (fun r : Sys × Observer => ⟨r.2, i⟩)
        (fun r (hr : r ∈ m.activate ws) => activate_observed hr) hsys
      rw [DytanSyscallMonitor.registered] at hone
      rw [sourceRegistrations, DytanSyscallMonitor.registered, List.filterMap_append, hone,
        sourceCalls, List.map_append, List.map_map]
      exact congrArg _ (ih (i + 1))

theorem mainTable_nodup (ws : WordSize) : (mainTable ws).Nodup := by
  cases ws with
  | w32 => decide
  | w64 => decide

/-- One handler is registered for a call. -/
theorem registered_handlers (hsys : observed ws sys = true) :
    DytanSyscallMonitor.registered (numbers.number sys) (handlerRegistrations numbers)
      = [((⟨.handler sys, 0⟩ : ToolObserver), (0 : Addr ws))] := by
  have hcount : (mainTable ws).filter (fun s => s = sys) = [sys] := by
    rw [List.filter_eq, List.count_eq_one_of_mem (mainTable_nodup ws) (mem_mainTable hsys)]
    rfl
  have hmap := registered_map numbers id (fun s => (⟨.handler s, 0⟩ : ToolObserver))
    (fun s (hs : s ∈ mainTable ws) => mainTable_observed hs) hsys
  exact hmap.trans (congrArg (List.map _) hcount)

/-- The observers called for a call with a handler: those of the sources, in
    the order of the configuration, and the handler last. -/
theorem called_eq (hsys : observed ws sys = true) {args : SyscallArguments ws}
    (hnum : int args.num = numbers.number sys) (uninitialised : Option ToolObserver)
    (sources : List SourceMonitor) :
    called args (startMonitor numbers uninitialised sources)
      = (sourceCalls ws sys 0 sources).map (fun o => ⟨o, int args.num, args, 0⟩)
        ++ [⟨⟨.handler sys, 0⟩, int args.num, args, 0⟩] := by
  have hreg : DytanSyscallMonitor.registered (numbers.number sys) (registrations numbers sources)
      = (sourceCalls ws sys 0 sources).map (fun o => (o, (0 : Addr ws)))
        ++ [(⟨.handler sys, 0⟩, 0)] := by
    rw [registrations, DytanSyscallMonitor.registered, List.filterMap_append]
    exact congrArg₂ _ (registered_sources hsys 0 sources) (registered_handlers hsys)
  have hobservers := DytanSyscallMonitor.after_observers (numbers.number sys) uninitialised
    (registrations numbers sources)
  rw [if_neg (by rw [hreg]; exact List.append_ne_nil_of_right_ne_nil _ (List.cons_ne_nil _ _)),
    hreg] at hobservers
  rw [called, startMonitor, hnum, hobservers]
  simp [List.map_append, List.map_map, Function.comp_def]

/-- **A completed call** comes to each source in the order of the
    configuration, and then to its handler. -/
theorem complete_eq (hsys : observed ws sys = true) {args : SyscallArguments ws}
    (hnum : int args.num = numbers.number sys) (env : Environment) (mem : AppMemory ws)
    (uninitialised : Option ToolObserver) {sources : List SourceMonitor} {t : Tool ws N}
    (hkinds : sources.map (SourceMonitor.activate ws)
      = t.sources.map (SourceMonitor.activate ws)) :
    complete env (startMonitor numbers uninitialised sources) args mem t
      = (eachSource (onCall env mem args sys) t.sources t.globals).bind fun p =>
        (observer ws sys).bind fun handle =>
          (handle env.sizes mem args p.1).map fun g => ⟨g, p.2⟩ := by
  have hsources := foldlM_observe_sources env mem args (int args.num) 0 sys hkinds []
    t.globals
  rw [List.length_nil, List.nil_append] at hsources
  rw [complete, called_eq hsys hnum, List.foldlM_append, hsources]
  cases eachSource (onCall env mem args sys) t.sources t.globals with
  | none => rfl
  | some p =>
      show observe env mem ⟨p.1, p.2⟩ ⟨⟨.handler sys, 0⟩, int args.num, args, 0⟩ >>= pure = _
      rw [bind_pure, observe_handler]
      rfl

/-- The default observer plays no part in a call with a handler. -/
theorem complete_default {args : SyscallArguments ws} {uninitialised : Option ToolObserver}
    (h : uninitialised = none ∨ ∃ sys, observed ws sys = true ∧ int args.num = numbers.number sys)
    (env : Environment) (mem : AppMemory ws) (sources : List SourceMonitor) (t : Tool ws N) :
    complete env (startMonitor numbers uninitialised sources) args mem t
      = complete env (startMonitor numbers none sources) args mem t := by
  rcases h with rfl | ⟨sys, hsys, hnum⟩
  · rfl
  · rw [complete, complete, called_eq hsys hnum, called_eq hsys hnum]

/-- A call without observers does nothing, unless there is a default one. -/
theorem complete_unobserved {args : SyscallArguments ws}
    (hnum : ∀ sys, observed ws sys = true → int args.num ≠ numbers.number sys)
    (env : Environment) (mem : AppMemory ws) (sources : List SourceMonitor) (t : Tool ws N) :
    complete env (startMonitor numbers none sources) args mem t = some t := by
  have hreg : DytanSyscallMonitor.registered (int args.num) (registrations numbers sources)
      = [] := by
    refine List.filterMap_eq_nil_iff.mpr fun e he => ?_
    obtain ⟨sys, o, hsys, rfl⟩ := mem_registrations he
    exact if_neg fun heq => hnum sys hsys heq.symm
  have hset : DytanSyscallMonitor.latestDefault (registrations numbers sources) = none := by
    rw [DytanSyscallMonitor.latestDefault, List.filterMap_eq_nil_iff.mpr]
    · rfl
    · intro e he
      obtain ⟨sys, o, -, rfl⟩ := mem_registrations he
      rfl
  have hobservers := DytanSyscallMonitor.after_observers (int args.num) none
    (registrations numbers sources)
  have hdefault := DytanSyscallMonitor.after_default none (registrations numbers sources)
  rw [if_pos hreg] at hobservers
  rw [hset] at hdefault
  rw [complete, called, startMonitor, hobservers, hdefault]
  rfl

end Registered

theorem int_endedArgs (b : Begun ws) (a : Answer ws) : int (endedArgs b a).num = b.num :=
  DytanSyscallMonitor.int_ofInt b.num

/-- Every completed call of a run has an observer. -/
def AllObserved (numbers : SyscallNumbers ws) (es : List (ToolEvent ws)) : Prop :=
  ∀ tid b a, .call tid b a ∈ completed (fun _ => noCall) es →
    ∃ sys, observed ws sys = true ∧ b.num = numbers.number sys

/-- The default observer is not run: what the constructor found in its place is
    `NULL`, or every completed call has an observer. -/
def NeverDefault (numbers : SyscallNumbers ws) (uninitialised : Option ToolObserver)
    (es : List (ToolEvent ws)) : Prop :=
  uninitialised = none ∨ AllObserved numbers es

/-- One more call, with an observer. -/
theorem NeverDefault.concat {numbers : SyscallNumbers ws} {uninitialised : Option ToolObserver}
    {es : List (ToolEvent ws)} (h : NeverDefault numbers uninitialised es) {tid : BitVec 32}
    {b : Begun ws} (hb : (es.filterMap (TwoPhase.Event.request tid)).getLast? = some b)
    {sys : Sys} (hsys : observed ws sys = true) (hnum : b.num = numbers.number sys)
    (a : Answer ws) : NeverDefault numbers uninitialised (es ++ [.ends tid a]) := by
  refine h.imp_right fun hall tid' b' a' hmem => ?_
  rw [completed_concat, hb, Option.getD_some] at hmem
  rcases List.mem_append.mp hmem with hmem | hmem
  · exact hall tid' b' a' hmem
  · cases List.mem_singleton.mp hmem
    exact ⟨sys, hsys, hnum⟩

/-- **The uninitialised default observer does not matter** in a run in which no
    call comes to it. -/
theorem run_globals_default {numbers : SyscallNumbers ws} {uninitialised : Option ToolObserver}
    {es : List (ToolEvent ws)} (h : NeverDefault numbers uninitialised es) (env : Environment)
    (t : Tool ws N) :
    (runs (step env) es (start numbers uninitialised t)).map (fun s => s.tool.globals)
      = (runs (stepCompleted (effects env (startMonitor numbers none t.sources)))
          (completed (fun _ => noCall) es) t).map Tool.globals := by
  rw [run_globals]
  refine congrArg _ (Runs.runs_congr (fun c hc t' => ?_) t)
  cases c with
  | acts op => rfl
  | call tid b a =>
      have hnum := int_endedArgs b a
      refine complete_default (h.imp_right fun hall => ?_) env a.mem t.sources t'
      obtain ⟨sys, hsys, hb⟩ := hall tid b a hc
      exact ⟨sys, hsys, hnum.trans hb⟩

/-! ## What the sources know -/

/-- The calls file sources know of, with `dup`, which none of them observes. -/
def fileCall : Sys → Option FileCall
  | .open => some .sysOpen
  | .dup => some .sysDup
  | .close => some .sysClose
  | .read => some .sysRead
  | _ => none

/-- The same by number. -/
def fileCallOf (numbers : SyscallNumbers ws) (n : BitVec 32) : Option FileCall :=
  if n = numbers.number .open then some .sysOpen
  else if n = numbers.number .dup then some .sysDup
  else if n = numbers.number .close then some .sysClose
  else if n = numbers.number .read then some .sysRead
  else none

/-- A completed call as an event of the histories. -/
def fileEvent (numbers : SyscallNumbers ws) :
    Completed (BitVec 32) (Begun ws) (Answer ws) (Op ws) → Option (FileEvent ws)
  | .call _ b a => (fileCallOf numbers b.num).map fun c => ⟨c, endedArgs b a, a.mem⟩
  | .acts _ => none

/-- The calls on descriptors among the completed calls, the latest first. -/
def fileHistory (numbers : SyscallNumbers ws)
    (cs : List (Completed (BitVec 32) (Begun ws) (Answer ws) (Op ws))) : List (FileEvent ws) :=
  (cs.filterMap (fileEvent numbers)).reverse

theorem fileCallOf_number (numbers : SyscallNumbers ws) {sys : Sys}
    (hsys : observed ws sys = true) : fileCallOf numbers (numbers.number sys) = fileCall sys := by
  have hiff : ∀ sys', observed ws sys' = true →
      (numbers.number sys = numbers.number sys' ↔ sys = sys') := fun sys' h =>
    ⟨numbers.distinct sys sys' hsys h, congrArg numbers.number⟩
  have hopen := hiff .open (by cases ws <;> rfl)
  have hdup := hiff .dup (by cases ws <;> rfl)
  have hclose := hiff .close (by cases ws <;> rfl)
  have hread := hiff .read (by cases ws <;> rfl)
  simp only [fileCallOf, hopen, hdup, hclose, hread]
  cases sys with
  | _ => rfl

/-- The monitor of a file source after a call. -/
def pathAfter (sys : Sys) (args : SyscallArguments ws) (mem : AppMemory ws)
    (m : PathMonitor PathCallback) : Option (PathMonitor PathCallback) :=
  match fileCall sys with
  | some c => DytanPathMonitor.step ⟨c, args, mem⟩ m
  | none => some m

/-- The callbacks a file source runs for a call. -/
def readCalls (args : SyscallArguments ws) (m : PathMonitor PathCallback) :
    Sys → List (PathCallback × String)
  | .read => DytanPathMonitor.readCallback args m
  | _ => []

/-- Run callbacks of file sources. -/
def runPathCallbacks (env : Environment) (args : SyscallArguments ws)
    (calls : List (PathCallback × String)) (g : Globals ws N) : Option (Globals ws N) :=
  calls.foldlM (fun g call => call.1.run env args g) g

theorem runPathCallbacks_append (env : Environment) (args : SyscallArguments ws)
    (calls calls' : List (PathCallback × String)) (g : Globals ws N) :
    runPathCallbacks env args (calls ++ calls') g
      = (runPathCallbacks env args calls g).bind (runPathCallbacks env args calls') :=
  List.foldlM_append

/-- A file source: the callbacks of a read, and the monitor's own step. -/
theorem onCall_path (env : Environment) (mem : AppMemory ws) (args : SyscallArguments ws)
    (sys : Sys) (m : PathMonitor PathCallback) (g : Globals ws N) :
    onCall env mem args sys (.path m) g
      = (runPathCallbacks env args (readCalls args m sys) g).bind fun g' =>
        (pathAfter sys args mem m).map fun m' => (g', .path m') := by
  cases sys with
  | «open» =>
      exact runEach_one env mem args (.open, .openCallback) (g, .path m)
  | read =>
      refine (runEach_one env mem args (.read, .readCallback) (g, .path m)).trans ?_
      exact Option.map_eq_bind
  | _ => rfl

/-- A network source of a 64-bit build knows no socket, and does nothing. -/
theorem onCall_network (env : Environment) (mem : AppMemory .w64) (args : SyscallArguments .w64)
    (sys : Sys) {m : NetworkMonitor NetworkCallback} (hm : m.socketToAddress = fun _ => none)
    (g : Globals .w64 N) : onCall env mem args sys (.network m) g = some (g, .network m) := by
  have hclose : DytanNetworkMonitor.closeNetworkCallback args m = m := by
    rw [DytanNetworkMonitor.closeNetworkCallback]
    by_cases hret : int args.ret = minusOne
    · rw [if_pos hret]
    · rw [if_neg hret]
      refine congrArg m.setSockets (Function.update_eq_self_iff.mpr ?_)
      rw [hm]
  have hread : DytanNetworkMonitor.readNetworkCallback args m = none := by
    rw [DytanNetworkMonitor.readNetworkCallback, hm]
    by_cases hret : int args.ret = minusOne
    · rw [if_pos hret]
    · rw [if_neg hret]
      rfl
  cases sys with
  | close =>
      refine (runEach_one env mem args (.close, .closeNetworkCallback) (g, .network m)).trans ?_
      rw [SourceMonitor.run, hclose]
  | read =>
      refine (runEach_one env mem args (.read, .readNetworkCallback) (g, .network m)).trans ?_
      rw [SourceMonitor.run, hread]
      rfl
  | _ => rfl

/-- What a monitor knows of the calls so far: a file source the openings, a
    network source of a 64-bit build nothing. -/
def Remembers (platform : Platform ws) (past : List (FileEvent ws)) :
    Installed → SourceMonitor → Prop
  | .path p, .path m =>
      m = { (pathSetup p).monitor with activeFileDescriptors := openedAs past }
  | .network n, .network m => ws = .w64 → m = (networkSetup platform n).monitor
  | _, _ => False

theorem remembers_start (platform : Platform ws) (i : Installed) :
    Remembers platform [] i (i.monitor platform) := by
  cases i with
  | path p =>
      show (pathSetup p).monitor = _
      rw [DytanPathMonitor.monitor_eq]
      rfl
  | network n => exact fun _ => rfl

/-- A source keeps the kind of its monitor. -/
def isPath : SourceMonitor → Bool
  | .path _ => true
  | .network _ => false

theorem run_isPath {env : Environment} {mem : AppMemory ws} {args : SyscallArguments ws}
    {f : Observer} {m m' : SourceMonitor} {g g' : Globals ws N}
    (h : m.run env mem args g f = some (g', m')) : isPath m' = isPath m := by
  cases m with
  | path m =>
      cases f with
      | openCallback | readCallback =>
          obtain ⟨x, -, hx⟩ := Option.map_eq_some_iff.mp h
          cases hx
          rfl
      | closeCallback =>
          cases h
          rfl
      | _ => exact nomatch h
  | network m =>
      cases f with
      | socketcallNetworkCallback =>
          obtain ⟨⟨m₁, n⟩, -, h⟩ := Option.bind_eq_some_iff.mp h
          obtain ⟨g₁, -, h⟩ := Option.bind_eq_some_iff.mp h
          cases h
          rfl
      | readNetworkCallback =>
          obtain ⟨x, -, hx⟩ := Option.map_eq_some_iff.mp h
          cases hx
          rfl
      | closeNetworkCallback =>
          cases h
          rfl
      | _ => exact nomatch h

theorem onCall_isPath {env : Environment} {mem : AppMemory ws} {args : SyscallArguments ws}
    {sys : Sys} {m m' : SourceMonitor} {g g' : Globals ws N}
    (h : onCall env mem args sys m g = some (g', m')) : isPath m' = isPath m := by
  have hloop : ∀ (fs : List (Sys × Observer)) {p : Globals ws N × SourceMonitor},
      runEach env mem args fs p = some (g', m') → isPath m' = isPath p.2 := by
    intro fs
    induction fs with
    | nil =>
        intro p hp
        cases hp
        rfl
    | cons r rest ih =>
        intro p hp
        obtain ⟨p₁, hrun, hrest⟩ := Option.bind_eq_some_iff.mp hp
        exact (ih hrest).trans (run_isPath hrun)
  exact hloop _ h

theorem activate_of_isPath {m m' : SourceMonitor} (h : isPath m' = isPath m) :
    m'.activate ws = m.activate ws := by
  cases m with
  | path m =>
      cases m' with
      | path m' => rfl
      | network m' => exact nomatch h
  | network m =>
      cases m' with
      | path m' => exact nomatch h
      | network m' => rfl

/-- The history after a call. -/
def pastAfter (sys : Sys) (args : SyscallArguments ws) (mem : AppMemory ws)
    (past : List (FileEvent ws)) : List (FileEvent ws) :=
  match fileCall sys with
  | some c => ⟨c, args, mem⟩ :: past
  | none => past

/-- One source, one call. -/
theorem onCall_remembers {platform : Platform ws} {past : List (FileEvent ws)} {i : Installed}
    {env : Environment} {mem : AppMemory ws} {args : SyscallArguments ws} {sys : Sys}
    {m m' : SourceMonitor} {g g' : Globals ws N} (hm : Remembers platform past i m)
    (h : onCall env mem args sys m g = some (g', m')) :
    Remembers platform (pastAfter sys args mem past) i m' := by
  cases i with
  | path p =>
      cases m with
      | network m => exact False.elim hm
      | path m =>
          rw [onCall_path] at h
          obtain ⟨g₁, -, h⟩ := Option.bind_eq_some_iff.mp h
          obtain ⟨m₁, hafter, h⟩ := Option.map_eq_some_iff.mp h
          cases h
          show m₁ = _
          rw [pathAfter] at hafter
          rw [pastAfter]
          cases hcall : fileCall sys with
          | none =>
              rw [hcall] at hafter
              cases hafter
              exact hm
          | some c =>
              rw [hcall] at hafter
              have hm : m = { (pathSetup p).monitor with activeFileDescriptors := openedAs past } :=
                hm
              have hactive : m.activeFileDescriptors = openedAs past := by rw [hm]
              rw [DytanPathMonitor.step_openedAs hactive hafter, hm]
  | network n =>
      cases m with
      | path m => exact False.elim hm
      | network m =>
          have hkind := onCall_isPath h
          cases m' with
          | path m' => exact nomatch hkind
          | network m' =>
              intro hws
              subst hws
              obtain rfl : m = _ := hm rfl
              rw [onCall_network env mem args sys rfl g] at h
              cases h
              rfl

/-- What holds of each source after its turn holds of all after theirs. -/
theorem eachSource_forall₂ {I : Type} {R R' : I → SourceMonitor → Prop}
    {f : SourceMonitor → Globals ws N → Option (Globals ws N × SourceMonitor)}
    (hf : ∀ i m g g' m', R i m → f m g = some (g', m') → R' i m') {is : List I}
    {ms ms' : List SourceMonitor} {g g' : Globals ws N} (hR : List.Forall₂ R is ms)
    (h : eachSource f ms g = some (g', ms')) : List.Forall₂ R' is ms' := by
  induction hR generalizing g ms' with
  | nil =>
      cases h
      exact .nil
  | cons him _ ih =>
      obtain ⟨⟨g₁, m₁⟩, hone, h⟩ := Option.bind_eq_some_iff.mp h
      obtain ⟨⟨g₂, ms₂⟩, hrest, h⟩ := Option.bind_eq_some_iff.mp h
      cases h
      exact .cons (hf _ _ _ _ _ him hone) (ih hrest)

/-- A source that remembers has the kind it was installed with. -/
theorem Remembers.activate {platform : Platform ws} {past : List (FileEvent ws)} {i : Installed}
    {m : SourceMonitor} (h : Remembers platform past i m) :
    (i.monitor platform).activate ws = m.activate ws := by
  cases i with
  | path p =>
      cases m with
      | path m => rfl
      | network m => exact False.elim h
  | network n =>
      cases m with
      | path m => exact False.elim h
      | network m => rfl

theorem activate_of_remembers {platform : Platform ws} {past : List (FileEvent ws)}
    {installed : List Installed} {ms : List SourceMonitor}
    (h : List.Forall₂ (Remembers platform past) installed ms) :
    (installed.map (Installed.monitor platform)).map (SourceMonitor.activate ws)
      = ms.map (SourceMonitor.activate ws) := by
  induction h with
  | nil => rfl
  | cons him _ ih => rw [List.map_cons, List.map_cons, List.map_cons, him.activate, ih]

/-! ## Runs of completed calls -/

section Runs

variable {platform : Platform ws} {installed : List Installed}

/-- The monitor that a tool with these sources starts with, where the default
    observer is `NULL`.  For other contents the runs in which it does not matter
    are the same (`run_globals_default`). -/
def monitorOf (platform : Platform ws) (installed : List Installed) :
    SyscallMonitor ws ToolObserver :=
  startMonitor platform.numbers none (installed.map (Installed.monitor platform))

/-- A number is that of a call with a handler, or of none. -/
theorem number_cases (numbers : SyscallNumbers ws) (n : BitVec 32) :
    (∃ sys, observed ws sys = true ∧ n = numbers.number sys)
      ∨ ∀ sys, observed ws sys = true → n ≠ numbers.number sys := by
  by_cases h : ∃ sys, observed ws sys = true ∧ n = numbers.number sys
  · exact Or.inl h
  · exact Or.inr fun sys hsys heq => h ⟨sys, hsys, heq⟩

theorem fileCallOf_unobserved {numbers : SyscallNumbers ws} {n : BitVec 32}
    (h : ∀ sys, observed ws sys = true → n ≠ numbers.number sys) :
    fileCallOf numbers n = none := by
  rw [fileCallOf, if_neg (h .open (by cases ws <;> rfl)), if_neg (h .dup (by cases ws <;> rfl)),
    if_neg (h .close (by cases ws <;> rfl)), if_neg (h .read (by cases ws <;> rfl))]

/-- One completed call or operation. -/
theorem stepCompleted_remembers {env : Environment}
    {c : Completed (BitVec 32) (Begun ws) (Answer ws) (Op ws)} {past : List (FileEvent ws)}
    {t t' : Tool ws N} (ht : List.Forall₂ (Remembers platform past) installed t.sources)
    (h : stepCompleted (effects env (monitorOf platform installed)) c t = some t') :
    List.Forall₂ (Remembers platform ((fileEvent platform.numbers c).toList ++ past)) installed
      t'.sources := by
  cases c with
  | acts op =>
      obtain ⟨g, -, rfl⟩ := Option.map_eq_some_iff.mp h
      exact ht
  | call tid b a =>
      have h : complete env (monitorOf platform installed) (endedArgs b a) a.mem t = some t' := h
      have hnum := int_endedArgs b a
      rcases number_cases platform.numbers b.num with ⟨sys, hsys, hb⟩ | hnone
      · rw [monitorOf, complete_eq hsys (hnum.trans hb) env a.mem none
          (activate_of_remembers ht)] at h
        obtain ⟨⟨g₁, ms⟩, heach, h⟩ := Option.bind_eq_some_iff.mp h
        obtain ⟨handle, -, h⟩ := Option.bind_eq_some_iff.mp h
        obtain ⟨g₂, -, rfl⟩ := Option.map_eq_some_iff.mp h
        have hpast : (fileEvent platform.numbers (.call tid b a)).toList ++ past
            = pastAfter sys (endedArgs b a) a.mem past := by
          rw [fileEvent, hb, fileCallOf_number platform.numbers hsys, pastAfter]
          cases fileCall sys with
          | none => rfl
          | some c => rfl
        rw [hpast]
        exact eachSource_forall₂ (fun _ _ _ _ _ => onCall_remembers) ht heach
      · rw [monitorOf, complete_unobserved (fun sys hsys => hnum ▸ hnone sys hsys)] at h
        cases h
        rw [fileEvent, fileCallOf_unobserved hnone]
        exact ht

/-- **The sources know the completed calls**: after any run each file source
    has the openings of the history. -/
theorem run_remembers {env : Environment} {past : List (FileEvent ws)} {t t' : Tool ws N}
    (ht : List.Forall₂ (Remembers platform past) installed t.sources)
    (cs : List (Completed (BitVec 32) (Begun ws) (Answer ws) (Op ws)))
    (h : runs (stepCompleted (effects env (monitorOf platform installed))) cs t = some t') :
    List.Forall₂ (Remembers platform (fileHistory platform.numbers cs ++ past)) installed
      t'.sources := by
  induction cs generalizing past t with
  | nil =>
      cases h
      exact ht
  | cons c rest ih =>
      rw [Runs.runs_cons, Option.bind_eq_some_iff] at h
      obtain ⟨t₁, hstep, hrest⟩ := h
      have hnext := ih (stepCompleted_remembers ht hstep) hrest
      have hpast : fileHistory platform.numbers rest
            ++ ((fileEvent platform.numbers c).toList ++ past)
          = fileHistory platform.numbers (c :: rest) ++ past := by
        rw [fileHistory, fileHistory]
        cases hc : fileEvent platform.numbers c with
        | none => rw [List.filterMap_cons_none hc]; rfl
        | some e =>
            rw [List.filterMap_cons_some hc, List.reverse_cons, List.append_assoc]
            rfl
      rw [hpast] at hnext
      exact hnext

theorem forall₂_start (platform : Platform ws) (installed : List Installed) :
    List.Forall₂ (Remembers platform []) installed
      (installed.map (Installed.monitor platform)) := by
  induction installed with
  | nil => exact .nil
  | cons i rest ih => exact .cons (remembers_start platform i) ih

end Runs

/-! ## Reads, end to end -/

/-- The callbacks a source runs for a read of a file opened under a name. -/
def callees (name : Option String) : Installed → List (PathCallback × String)
  | .path p => (pathSetup p).callees name
  | .network _ => []

section Reads

variable {platform : Platform .w64} {installed : List Installed}

/-- One source, one read. -/
theorem onCall_read {past : List (FileEvent .w64)} {i : Installed} {m : SourceMonitor}
    (hm : Remembers platform past i m) (env : Environment) (mem : AppMemory .w64)
    {args : SyscallArguments .w64} (hret : int args.ret ≠ minusOne) (g : Globals .w64 N) :
    onCall env mem args .read m g
      = (runPathCallbacks env args (callees (openedAs past (int args.arg0)) i) g).map
        fun g' => (g', m) := by
  cases i with
  | path p =>
      cases m with
      | network m => exact False.elim hm
      | path m =>
          obtain rfl : m = { (pathSetup p).monitor with activeFileDescriptors := openedAs past } :=
            hm
          rw [onCall_path, readCalls, DytanPathMonitor.readCallback, if_neg hret,
            DytanPathMonitor.notifyForRead_eq, Option.map_eq_bind]
          rfl
  | network n =>
      cases m with
      | path m => exact False.elim hm
      | network m =>
          obtain rfl : m = _ := hm rfl
          exact onCall_network env mem args .read rfl g

/-- All sources, one read: the callbacks of all file sources, in order. -/
theorem eachSource_read {past : List (FileEvent .w64)} {ms : List SourceMonitor}
    (h : List.Forall₂ (Remembers platform past) installed ms) (env : Environment)
    (mem : AppMemory .w64) (args : SyscallArguments .w64) (hret : int args.ret ≠ minusOne)
    (g : Globals .w64 N) :
    eachSource (onCall env mem args .read) ms g
      = (runPathCallbacks env args
          (installed.flatMap (callees (openedAs past (int args.arg0)))) g).map
        fun g' => (g', ms) := by
  induction h generalizing g with
  | nil => rfl
  | @cons i m is ms him hrest ih =>
      rw [eachSource, onCall_read him env mem hret, List.flatMap_cons, runPathCallbacks_append]
      cases runPathCallbacks env args (callees (openedAs past (int args.arg0)) i) g with
      | none => rfl
      | some g₁ =>
          show (eachSource (onCall env mem args .read) ms g₁).bind _
            = Option.map _ (runPathCallbacks env args _ g₁)
          rw [ih g₁]
          cases runPathCallbacks env args _ g₁ with
          | none => rfl
          | some g₂ => rfl

/-- **A read taints as the sources say, whatever the threads do**: on a 64-bit
    build, when a thread returns from a successful `read`, the globals change by
    the callbacks of all file sources, in the order of the configuration, that
    observe the name under which the descriptor was last opened by a completed
    call and not closed since; by nothing else. -/
theorem read_taints {uninitialised : Option ToolObserver} (env : Environment)
    (g : Globals .w64 N) {es : List (ToolEvent .w64)}
    (hdefault : NeverDefault platform.numbers uninitialised es) {tid : BitVec 32}
    {a : Answer .w64} {b : Begun .w64}
    (hb : (es.filterMap (TwoPhase.Event.request tid)).getLast? = some b)
    (hread : b.num = platform.numbers.number .read) (hret : int a.ret ≠ minusOne) :
    (runs (step env) (es ++ [.ends tid a]) (start platform.numbers uninitialised
        ⟨g, installed.map (Installed.monitor platform)⟩)).map (fun s => s.tool.globals)
      = (runs (step env) es (start platform.numbers uninitialised
          ⟨g, installed.map (Installed.monitor platform)⟩)).bind fun s =>
        runPathCallbacks env (endedArgs b a) (installed.flatMap (callees (openedAs
          (fileHistory platform.numbers (completed (fun _ => noCall) es)) (int b.arg0))))
          s.tool.globals := by
  have hstart : List.Forall₂ (Remembers platform []) installed
      (Tool.mk g (installed.map (Installed.monitor platform))).sources :=
    forall₂_start platform installed
  have hbind : ∀ (o : Option (Machine .w64 N)) (f : Globals .w64 N → Option (Globals .w64 N)),
      (o.bind fun s => f s.tool.globals) = (o.map fun s => s.tool.globals).bind f := by
    intro o f
    cases o with
    | none => rfl
    | some s => rfl
  rw [hbind, run_globals_default hdefault, run_globals_default (hdefault.concat hb rfl hread a),
    completed_concat, hb, Option.getD_some, Runs.runs_append,
    show startMonitor platform.numbers none
      (Tool.mk g (installed.map (Installed.monitor platform))).sources
        = monitorOf platform installed from rfl]
  cases hrun : runs (stepCompleted (effects env (monitorOf platform installed)))
      (completed (fun _ => noCall) es) ⟨g, installed.map (Installed.monitor platform)⟩ with
  | none => rfl
  | some t =>
      have hknown := run_remembers hstart _ hrun
      rw [List.append_nil] at hknown
      have hsys : observed .w64 .read = true := rfl
      have hcall := complete_eq hsys ((int_endedArgs b a).trans hread) env a.mem none
        (activate_of_remembers hknown)
      have heach := eachSource_read hknown env a.mem (endedArgs b a) hret t.globals
      rw [heach, show int (endedArgs b a).arg0 = int b.arg0 from rfl] at hcall
      show Option.map Tool.globals ((complete env (monitorOf platform installed) (endedArgs b a)
        a.mem t) >>= pure) = _
      rw [bind_pure, monitorOf, hcall]
      show _ = runPathCallbacks env (endedArgs b a) _ t.globals
      cases runPathCallbacks env (endedArgs b a) _ t.globals with
      | none => rfl
      | some g' => rfl

end Reads

/-- 64-bit Linux, for configurations without network addresses: no text is the
    address of a host, or a port. -/
def linuxPlatform : Platform .w64 where
  numbers := linuxNumbers
  inetAddr := fun _ => -1
  atoi := fun _ => 0
  search := DytanNetworkMonitor.MapSearch.linear _

/-- One file, tainted per read. -/
def confSource : List Installed := [.path ⟨false, [⟨"path", "conf"⟩], .perRead⟩]

/-- Thread 1 opens the file as descriptor 3 while thread 2 enters a read of it. -/
def openThenRead : List (ToolEvent .w64) :=
  [.begins 1 ⟨2, 500, 0, 0, 0, 0, 0⟩, .begins 2 ⟨0, 3, 100, 8, 0, 0, 0⟩,
    .ends 1 ⟨3, 0, DytanPathMonitor.stringAt _ "conf"⟩]

/-- An observer that the constructor may find in the place of the default one. -/
def strayObserver : Option ToolObserver := some ⟨.handler .fstat, 0⟩

theorem openThenRead_neverDefault :
    NeverDefault linuxPlatform.numbers strayObserver openThenRead := by
  refine Or.inr fun tid b a hmem => ?_
  cases List.mem_singleton.mp hmem
  exact ⟨.open, rfl, rfl⟩

theorem read_taints_openThenRead :
    (runs (step DytanFailedCall.environment)
        (openThenRead ++ [.ends 2 ⟨8, 0, AppMemory.unreadable _⟩])
        (start linuxPlatform.numbers strayObserver
          ⟨Globals.init .w64 1, confSource.map (Installed.monitor linuxPlatform)⟩)).map
          (fun s => s.tool.globals)
      = (runs (step DytanFailedCall.environment) openThenRead
          (start linuxPlatform.numbers strayObserver
            ⟨Globals.init .w64 1, confSource.map (Installed.monitor linuxPlatform)⟩)).bind fun s =>
        runPathCallbacks DytanFailedCall.environment
          (endedArgs ⟨0, 3, 100, 8, 0, 0, 0⟩ ⟨8, 0, AppMemory.unreadable _⟩)
          (confSource.flatMap (callees (openedAs (fileHistory linuxPlatform.numbers
            (completed (fun _ => noCall) openThenRead)) (int (3 : Addr .w64)))))
          s.tool.globals :=
  read_taints DytanFailedCall.environment (Globals.init .w64 1) openThenRead_neverDefault rfl rfl
    (by decide)

/-! ## Network sources of 64-bit builds -/

/-- A network monitor that knows no socket. -/
def Silent : SourceMonitor → Prop
  | .path _ => True
  | .network m => m.socketToAddress = fun _ => none

theorem onCall_silent {env : Environment} {mem : AppMemory .w64} {args : SyscallArguments .w64}
    {sys : Sys} {m m' : SourceMonitor} {g g' : Globals .w64 N} (hm : Silent m)
    (h : onCall env mem args sys m g = some (g', m')) : Silent m' := by
  cases m with
  | path m =>
      have hkind := onCall_isPath h
      cases m' with
      | path m' => trivial
      | network m' => exact nomatch hkind
  | network m =>
      rw [onCall_network env mem args sys hm] at h
      cases h
      exact hm

/-- Passing over the network sources changes nothing for the others. -/
theorem eachSource_filter {env : Environment} {mem : AppMemory .w64}
    {args : SyscallArguments .w64} {sys : Sys} {ms : List SourceMonitor}
    (hms : ∀ m ∈ ms, Silent m) (g : Globals .w64 N) :
    eachSource (onCall env mem args sys) (ms.filter isPath) g
      = (eachSource (onCall env mem args sys) ms g).map fun p => (p.1, p.2.filter isPath) := by
  induction ms generalizing g with
  | nil => rfl
  | cons m rest ih =>
      have hrest := fun g => ih (fun m' hm' => hms m' (List.mem_cons_of_mem _ hm')) g
      cases m with
      | path m =>
          rw [List.filter_cons_of_pos rfl, eachSource, eachSource]
          cases hone : onCall env mem args sys (.path m) g with
          | none => rfl
          | some p =>
              show (eachSource (onCall env mem args sys) (rest.filter isPath) p.1).bind _
                = Option.map _ ((eachSource (onCall env mem args sys) rest p.1).bind _)
              rw [hrest p.1]
              cases eachSource (onCall env mem args sys) rest p.1 with
              | none => rfl
              | some q =>
                  have hkind : isPath p.2 = true := onCall_isPath hone
                  show some (q.1, p.2 :: q.2.filter isPath)
                    = some (q.1, (p.2 :: q.2).filter isPath)
                  rw [List.filter_cons_of_pos hkind]
      | network m =>
          have hm : m.socketToAddress = fun _ => none := hms (.network m) List.mem_cons_self
          have hone := onCall_network env mem args sys hm g
          rw [List.filter_cons_of_neg Bool.false_ne_true, hrest g, eachSource, hone]
          show _ = Option.map _ ((eachSource (onCall env mem args sys) rest g).bind _)
          cases eachSource (onCall env mem args sys) rest g with
          | none => rfl
          | some q => rfl

theorem eachSource_silent {env : Environment} {mem : AppMemory .w64}
    {args : SyscallArguments .w64} {sys : Sys} {ms ms' : List SourceMonitor}
    (hms : ∀ m ∈ ms, Silent m) {g g' : Globals .w64 N}
    (h : eachSource (onCall env mem args sys) ms g = some (g', ms')) : ∀ m ∈ ms', Silent m := by
  induction ms generalizing g ms' with
  | nil =>
      cases h
      exact fun m hm => absurd hm List.not_mem_nil
  | cons m rest ih =>
      obtain ⟨⟨g₁, m₁⟩, hone, h⟩ := Option.bind_eq_some_iff.mp h
      obtain ⟨⟨g₂, ms₂⟩, hrest, h⟩ := Option.bind_eq_some_iff.mp h
      cases h
      intro m' hm'
      rcases List.mem_cons.mp hm' with rfl | hm'
      · exact onCall_silent (hms m List.mem_cons_self) hone
      · exact ih (fun m hm => hms m (List.mem_cons_of_mem _ hm)) hrest m' hm'

/-- Two monitors of one kind. -/
def SameKind (m m' : SourceMonitor) : Prop := isPath m' = isPath m

theorem activate_of_sameKind {ms ms' : List SourceMonitor} (h : List.Forall₂ SameKind ms ms') :
    ms.map (SourceMonitor.activate ws) = ms'.map (SourceMonitor.activate ws) := by
  induction h with
  | nil => rfl
  | cons hm _ ih => rw [List.map_cons, List.map_cons, activate_of_isPath hm, ih]

theorem sameKind_filter {ms ms' : List SourceMonitor} (h : List.Forall₂ SameKind ms ms') :
    List.Forall₂ SameKind (ms.filter isPath) (ms'.filter isPath) :=
  List.rel_filter (fun m m' (hm : isPath m' = isPath m) => by simp only [hm]) h

/-- Two tools that differ by network sources that know no socket. -/
structure WithoutNetwork (ms : List SourceMonitor) (t t' : Tool .w64 N) : Prop where
  globals : t.globals = t'.globals
  sources : t'.sources = t.sources.filter isPath
  silent : ∀ m ∈ t.sources, Silent m
  kinds : List.Forall₂ SameKind ms t.sources

/-- One completed call or operation of both. -/
theorem stepCompleted_withoutNetwork {numbers : SyscallNumbers .w64} {env : Environment}
    {sources : List SourceMonitor}
    (c : Completed (BitVec 32) (Begun .w64) (Answer .w64) (Op .w64)) (t t' : Tool .w64 N)
    (h : WithoutNetwork sources t t') : Runs.Related (WithoutNetwork sources)
      (stepCompleted (effects env (startMonitor numbers none sources)) c t)
      (stepCompleted (effects env (startMonitor numbers none (sources.filter isPath))) c t') := by
  obtain ⟨g, ms⟩ := t
  obtain ⟨g', ms'⟩ := t'
  obtain rfl : g = g' := h.globals
  obtain rfl : ms' = ms.filter isPath := h.sources
  cases c with
  | acts op =>
      show Runs.Related _ ((op.onGlobals g).map _) ((op.onGlobals g).map _)
      cases op.onGlobals g with
      | none => trivial
      | some g₁ => exact ⟨rfl, rfl, h.silent, h.kinds⟩
  | call tid b a =>
      have hnum := int_endedArgs b a
      show Runs.Related _
        (complete env (startMonitor numbers none sources) (endedArgs b a) a.mem ⟨g, ms⟩)
        (complete env (startMonitor numbers none (sources.filter isPath)) (endedArgs b a) a.mem
          ⟨g, ms.filter isPath⟩)
      rcases number_cases numbers b.num with ⟨sys, hsys, hb⟩ | hnone
      · rw [complete_eq hsys (hnum.trans hb) env a.mem none (activate_of_sameKind h.kinds),
          complete_eq hsys (hnum.trans hb) env a.mem none
            (activate_of_sameKind (sameKind_filter h.kinds)), eachSource_filter h.silent]
        cases heach : eachSource (onCall env a.mem (endedArgs b a) sys) ms g with
        | none => trivial
        | some p =>
            have hsilent := eachSource_silent h.silent heach
            have hkinds : List.Forall₂ SameKind sources p.2 := by
              refine eachSource_forall₂ (fun m₀ m _ _ m' hm hone => ?_) h.kinds heach
              exact (onCall_isPath hone).trans hm
            show Runs.Related _ ((observer .w64 sys).bind _) ((observer .w64 sys).bind _)
            cases observer .w64 sys with
            | none => trivial
            | some handle =>
                show Runs.Related _ ((handle env.sizes a.mem (endedArgs b a) p.1).map _)
                  ((handle env.sizes a.mem (endedArgs b a) p.1).map _)
                cases handle env.sizes a.mem (endedArgs b a) p.1 with
                | none => trivial
                | some g₁ => exact ⟨rfl, rfl, hsilent, hkinds⟩
      · have hnone' : ∀ sys, observed .w64 sys = true →
            int (endedArgs b a).num ≠ numbers.number sys := fun sys hsys =>
          hnum ▸ hnone sys hsys
        rw [complete_unobserved hnone', complete_unobserved hnone']
        exact h

/-- **On a 64-bit build network sources do nothing**: whatever the threads do,
    the globals after a run are those of the same run, from the same globals,
    without any network source, and the one stops where the other does. -/
theorem network_sources_inert (platform : Platform .w64) (installed : List Installed)
    (env : Environment) (g : Globals .w64 N) {es : List (ToolEvent .w64)}
    {uninitialised uninitialised' : Option ToolObserver}
    (hdefault : NeverDefault platform.numbers uninitialised es)
    (hdefault' : NeverDefault platform.numbers uninitialised' es) :
    let sources := installed.map (Installed.monitor platform)
    (runs (step env) es (start platform.numbers uninitialised ⟨g, sources⟩)).map
        (fun s => s.tool.globals)
      = (runs (step env) es (start platform.numbers uninitialised'
          ⟨g, sources.filter isPath⟩)).map fun s => s.tool.globals := by
  intro sources
  have hstart : WithoutNetwork sources ⟨g, sources⟩ ⟨g, sources.filter isPath⟩ := by
    refine ⟨rfl, rfl, fun m hm => ?_, List.forall₂_same.mpr fun m _ => rfl⟩
    obtain ⟨i, -, rfl⟩ := List.mem_map.mp hm
    cases i with
    | path p => trivial
    | network n => rfl
  rw [run_globals_default hdefault, run_globals_default hdefault']
  exact (Runs.runs_related stepCompleted_withoutNetwork (completed (fun _ => noCall) es)
    hstart).map_eq fun _ _ h => h.globals

/-- A network source that observes everything, and the read of the file. -/
theorem network_sources_inert_openThenRead :
    let sources := (confSource ++ [Installed.network ⟨true, [], .perRead⟩]).map
      (Installed.monitor linuxPlatform)
    let es := openThenRead ++ [.ends 2 ⟨8, 0, AppMemory.unreadable _⟩]
    (runs (step DytanFailedCall.environment) es
        (start linuxPlatform.numbers strayObserver ⟨Globals.init .w64 1, sources⟩)).map
        (fun s => s.tool.globals)
      = (runs (step DytanFailedCall.environment) es
          (start linuxPlatform.numbers none ⟨Globals.init .w64 1, sources.filter isPath⟩)).map
        fun s => s.tool.globals :=
  network_sources_inert linuxPlatform _ _ _
    (openThenRead_neverDefault.concat rfl (show observed .w64 .read = true from rfl) rfl _)
    (.inl rfl)

end DytanToolHistory
