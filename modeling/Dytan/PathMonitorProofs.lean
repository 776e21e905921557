import Dytan.SyscallStateProofs

/-! # File sources — whom a read notifies

    `PathMonitor` remembers the name under which each descriptor was opened,
    and a successful `read` calls the observers of that name.

    It listens to `open`, `close` and `read`.  A descriptor made by `dup` is
    unknown to it (`Handle_DUP` keeps a map of its own), so what it remembers
    is the history of opens and closes (`openedAs`), where the process has the
    history that follows `dup` too (`refersTo`). -/

namespace DytanPathMonitor

open DytanRegister DytanTaintState DytanSyscallState Runs

variable {ws : WordSize} {K : Type}

/-- `PathMonitor`; `K` is a callback with its argument. -/
structure PathMonitor (K : Type) where
  observeEverything : Bool
  defaultObserver : Option K
  allObserver : Option K
  observers : String → Option (List K)
  activeFileDescriptors : BitVec 32 → Option String

/-- The constructor. -/
def PathMonitor.new (observeAll : Bool) : PathMonitor K where
  observeEverything := observeAll
  defaultObserver := none
  allObserver := none
  observers := fun _ => none
  activeFileDescriptors := fun _ => none

/-- `observers[pathname].push_back(…)`. -/
def observePath (pathname : String) (callback : K) (m : PathMonitor K) : PathMonitor K :=
  let callbacks := (m.observers pathname).getD [] ++ [callback]
  { m with observers := Function.update m.observers pathname (some callbacks) }

def registerCallbackForAll (callback : K) (m : PathMonitor K) : PathMonitor K :=
  { m with allObserver := some callback }

def registerDefault (callback : K) (m : PathMonitor K) : PathMonitor K :=
  { m with defaultObserver := some callback }

def addActiveFileDescriptor (fd : BitVec 32) (pathname : String) (m : PathMonitor K) :
    PathMonitor K :=
  { m with activeFileDescriptors := Function.update m.activeFileDescriptors fd (some pathname) }

def removeActiveFileDescriptor (fd : BitVec 32) (m : PathMonitor K) : PathMonitor K :=
  { m with activeFileDescriptors := Function.update m.activeFileDescriptors fd none }

/-- `notifyForRead`: the callbacks it calls, in order, each with the name it
    passes. -/
def notifyForRead (args : SyscallArguments ws) (m : PathMonitor K) : List (K × String) :=
  match m.activeFileDescriptors (int args.arg0) with
  | none => []
  | some pathname =>
      match m.observers pathname with
      | none =>
          if m.observeEverything then m.allObserver.toList.map fun callback => (callback, pathname)
          else m.defaultObserver.toList.map fun callback => (callback, pathname)
      | some activeObservers => activeObservers.map fun callback => (callback, pathname)

/-- `openCallback`. -/
def openCallback (mem : AppMemory ws) (args : SyscallArguments ws) (m : PathMonitor K) :
    Option (PathMonitor K) :=
  if int args.ret = minusOne then some m
  else do
    let pathname ← mem.cString args.arg0
    some (addActiveFileDescriptor (int args.ret) pathname m)

/-- `closeCallback`. -/
def closeCallback (args : SyscallArguments ws) (m : PathMonitor K) : PathMonitor K :=
  if int args.ret = minusOne then m else removeActiveFileDescriptor (int args.arg0) m

/-- `readCallback`: the calls it makes. -/
def readCallback (args : SyscallArguments ws) (m : PathMonitor K) : List (K × String) :=
  if int args.ret = minusOne then [] else notifyForRead args m

/-! ## Histories -/

/-- The calls on descriptors. -/
inductive FileCall where
  | sysOpen | sysDup | sysClose | sysRead
deriving DecidableEq, Repr

/-- A call, with the memory of the application when it returns. -/
structure FileEvent (ws : WordSize) where
  call : FileCall
  args : SyscallArguments ws
  mem : AppMemory ws

/-- The monitor after a call; no observer of it listens to `dup`. -/
def step (e : FileEvent ws) (m : PathMonitor K) : Option (PathMonitor K) :=
  match e.call with
  | .sysOpen => openCallback e.mem e.args m
  | .sysDup => some m
  | .sysClose => some (closeCallback e.args m)
  | .sysRead => some m

/-- The name of the file a descriptor refers to, by the latest event first. -/
def refersTo : List (FileEvent ws) → BitVec 32 → Option String
  | [], _ => none
  | e :: past, fd =>
      if int e.args.ret = minusOne then refersTo past fd
      else match e.call with
        | .sysOpen =>
            if int e.args.ret = fd then e.mem.cString e.args.arg0 else refersTo past fd
        | .sysDup =>
            if int e.args.ret = fd then refersTo past (int e.args.arg0) else refersTo past fd
        | .sysClose => if int e.args.arg0 = fd then none else refersTo past fd
        | .sysRead => refersTo past fd

/-- The name under which a descriptor was last opened since it was last
    closed, `dup` left aside. -/
def openedAs : List (FileEvent ws) → BitVec 32 → Option String
  | [], _ => none
  | e :: past, fd =>
      if int e.args.ret = minusOne then openedAs past fd
      else match e.call with
        | .sysOpen =>
            if int e.args.ret = fd then e.mem.cString e.args.arg0 else openedAs past fd
        | .sysClose => if int e.args.arg0 = fd then none else openedAs past fd
        | .sysDup | .sysRead => openedAs past fd

/-- What `set_framework_options` registers. -/
structure Setup (K : Type) where
  observeEverything : Bool
  paths : List (String × K)
  forAll : Option K
  default : Option K

/-- The monitor set up. -/
def Setup.monitor (u : Setup K) : PathMonitor K :=
  let m := u.paths.foldl (fun m p => observePath p.1 p.2 m) (PathMonitor.new u.observeEverything)
  let m := u.forAll.elim m fun callback => registerCallbackForAll callback m
  u.default.elim m fun callback => registerDefault callback m

/-- The callbacks a list of registrations has for a path, in order. -/
def callbacksOf (paths : List (String × K)) (pathname : String) : List K :=
  (paths.filter fun p => p.1 = pathname).map Prod.snd

/-- The callbacks registered for a path, in registration order. -/
def Setup.registered (u : Setup K) (pathname : String) : List K := callbacksOf u.paths pathname

/-- Whom a read of a file opened under a name has to notify. -/
def Setup.callees (u : Setup K) : Option String → List (K × String)
  | none => []
  | some pathname =>
      let callbacks :=
        if u.registered pathname = [] then
          (if u.observeEverything then u.forAll else u.default).toList
        else u.registered pathname
      callbacks.map fun callback => (callback, pathname)

/-! ## The monitor knows the openings -/

theorem callbacksOf_cons (name : String) (callback : K) (rest : List (String × K))
    (pathname : String) :
    callbacksOf ((name, callback) :: rest) pathname
      = if name = pathname then callback :: callbacksOf rest pathname
        else callbacksOf rest pathname := by
  simp only [callbacksOf]
  by_cases h : name = pathname
  · simp [h]
  · simp [h]

theorem observePath_observers (name pathname : String) (callback : K) (m : PathMonitor K) :
    (observePath name callback m).observers pathname
      = if name = pathname then some ((m.observers pathname).getD [] ++ [callback])
        else m.observers pathname := by
  by_cases h : name = pathname
  · subst h
    simp [observePath]
  · simp [observePath, h, Ne.symm h]

/-- Registering paths appends to the lists of callbacks. -/
theorem foldl_observePath (paths : List (String × K)) (m : PathMonitor K) :
    paths.foldl (fun m p => observePath p.1 p.2 m) m
      = { m with observers := fun pathname =>
          if callbacksOf paths pathname = [] then m.observers pathname
          else some ((m.observers pathname).getD [] ++ callbacksOf paths pathname) } := by
  induction paths generalizing m with
  | nil => rfl
  | cons p rest ih =>
      obtain ⟨name, callback⟩ := p
      rw [List.foldl_cons, ih]
      refine congrArg (fun o => ({ m with observers := o } : PathMonitor K))
        (funext fun pathname => ?_)
      rw [observePath_observers, callbacksOf_cons]
      by_cases h : name = pathname
      · by_cases hrest : callbacksOf rest pathname = []
        · simp [h, hrest]
        · simp [h, hrest]
      · simp [h]

/-- The monitor that was set up observes what was registered. -/
theorem monitor_eq (u : Setup K) :
    u.monitor = { observeEverything := u.observeEverything
                  defaultObserver := u.default
                  allObserver := u.forAll
                  observers := fun pathname =>
                    if u.registered pathname = [] then none else some (u.registered pathname)
                  activeFileDescriptors := fun _ => none } := by
  rw [Setup.monitor]
  rw [foldl_observePath]
  cases u.forAll with
  | none => cases u.default <;> rfl
  | some callback => cases u.default <;> rfl

/-- Notifying for a read calls whom the remembered name has to notify. -/
theorem notifyForRead_eq (u : Setup K) (active : BitVec 32 → Option String)
    (args : SyscallArguments ws) :
    notifyForRead args { u.monitor with activeFileDescriptors := active }
      = u.callees (active (int args.arg0)) := by
  rw [monitor_eq, notifyForRead]
  show (match active (int args.arg0) with | none => [] | some pathname => _) = _
  cases active (int args.arg0) with
  | none => rfl
  | some pathname =>
      show (match (if u.registered pathname = [] then none else some (u.registered pathname)) with
        | none => _ | some activeObservers => _) = _
      rw [Setup.callees]
      by_cases hreg : u.registered pathname = []
      · rw [if_pos hreg]
        simp only [hreg, if_true]
        cases u.observeEverything <;> rfl
      · rw [if_neg hreg]
        simp only [hreg, if_false]

/-- A failed call changes nothing. -/
theorem step_failed {e : FileEvent ws} {m m' : PathMonitor K} (hret : int e.args.ret = minusOne)
    (h : step e m = some m') : m' = m := by
  rw [step] at h
  cases hcall : e.call with
  | sysOpen =>
      rw [hcall] at h
      simp only [openCallback, if_pos hret] at h
      cases h
      rfl
  | sysClose =>
      rw [hcall] at h
      simp only [closeCallback, if_pos hret] at h
      cases h
      rfl
  | sysDup | sysRead =>
      rw [hcall] at h
      cases h
      rfl

/-- One call: the monitor changes its descriptors as `openedAs` does. -/
theorem step_openedAs {past : List (FileEvent ws)} {e : FileEvent ws} {m m' : PathMonitor K}
    (hm : m.activeFileDescriptors = openedAs past) (h : step e m = some m') :
    m' = { m with activeFileDescriptors := openedAs (e :: past) } := by
  have hsame : openedAs (e :: past) = openedAs past →
      m = { m with activeFileDescriptors := openedAs (e :: past) } := by
    intro heq
    rw [heq, ← hm]
  by_cases hret : int e.args.ret = minusOne
  · rw [step_failed hret h]
    refine hsame (funext fun fd => ?_)
    rw [openedAs, if_pos hret]
  · rw [step] at h
    cases hcall : e.call with
    | sysOpen =>
        rw [hcall] at h
        simp only [openCallback, if_neg hret] at h
        obtain ⟨pathname, hname, h⟩ := Option.bind_eq_some_iff.mp h
        cases h
        have hadd : openedAs (e :: past)
            = Function.update m.activeFileDescriptors (int e.args.ret) (some pathname) := by
          funext fd
          rw [openedAs, if_neg hret, hcall, hm]
          by_cases hfd : fd = int e.args.ret
          · subst hfd
            rw [Function.update_self]
            simp [hname]
          · rw [Function.update_of_ne hfd]
            simp [Ne.symm hfd]
        rw [hadd]
        rfl
    | sysClose =>
        rw [hcall] at h
        simp only [closeCallback, if_neg hret] at h
        cases h
        have hremove : openedAs (e :: past)
            = Function.update m.activeFileDescriptors (int e.args.arg0) none := by
          funext fd
          rw [openedAs, if_neg hret, hcall, hm]
          by_cases hfd : fd = int e.args.arg0
          · subst hfd
            rw [Function.update_self]
            simp
          · rw [Function.update_of_ne hfd]
            simp [Ne.symm hfd]
        rw [hremove]
        rfl
    | sysDup | sysRead =>
        -- no callback is registered for `dup`, and reading keeps the names
        rw [hcall] at h
        cases h
        refine hsame (funext fun fd => ?_)
        rw [openedAs, if_neg hret, hcall]

/-- A run: the monitor remembers the openings of the whole history. -/
theorem run_openedAs (u : Setup K) (events : List (FileEvent ws)) {m : PathMonitor K}
    (h : runs step events u.monitor = some m) :
    m = { u.monitor with activeFileDescriptors := openedAs events.reverse } := by
  have hstart : { u.monitor with activeFileDescriptors := openedAs ([] : List (FileEvent ws)) }
      = u.monitor := by
    rw [monitor_eq]
    rfl
  rw [← hstart] at h
  exact runs_history (f := fun past => { u.monitor with activeFileDescriptors := openedAs past })
    (fun _ _ _ => step_openedAs rfl) h

/-! ## Whom a read notifies -/

/-- Two names call the same callbacks exactly if they are the same name, or
    nobody is called. -/
theorem callees_eq_iff (u : Setup K) (x y : Option String) :
    u.callees x = u.callees y ↔ x = y ∨ (u.callees x = [] ∧ u.callees y = []) := by
  have hname : ∀ (z : Option String), ∀ c ∈ u.callees z, z = some c.2 := by
    intro z c hc
    cases z with
    | none => exact absurd hc List.not_mem_nil
    | some pathname =>
        obtain ⟨callback, -, rfl⟩ := List.mem_map.mp hc
        rfl
  constructor
  · intro heq
    cases hx : u.callees x with
    | nil => exact Or.inr ⟨rfl, heq.symm.trans hx⟩
    | cons c rest =>
        refine Or.inl ?_
        have hcx := hname x c (by rw [hx]; exact List.mem_cons_self)
        have hcy := hname y c (by rw [← heq, hx]; exact List.mem_cons_self)
        rw [hcx, hcy]
  · rintro (rfl | ⟨hx, hy⟩)
    · rfl
    · rw [hx, hy]

/-- The descriptor was last opened under the name of the file it refers to, or
    neither name has anyone to notify. -/
def OpenedAsReferred (u : Setup K) (past : List (FileEvent ws)) (fd : BitVec 32) : Prop :=
  openedAs past fd = refersTo past fd
    ∨ (u.callees (openedAs past fd) = [] ∧ u.callees (refersTo past fd) = [])

/-- **A successful read calls the callbacks of the file its descriptor refers
    to** exactly if the descriptor was opened under that file's name. -/
theorem read_follows_iff (u : Setup K) {events : List (FileEvent ws)} {m : PathMonitor K}
    (h : runs step events u.monitor = some m) {args : SyscallArguments ws}
    (hret : int args.ret ≠ minusOne) :
    readCallback args m = u.callees (refersTo events.reverse (int args.arg0))
      ↔ OpenedAsReferred u events.reverse (int args.arg0) := by
  rw [run_openedAs u events h, readCallback, if_neg hret, notifyForRead_eq, callees_eq_iff]
  rfl

/-- A memory in which every address holds the same string. -/
def stringAt (ws : WordSize) (s : String) : AppMemory ws :=
  { AppMemory.unreadable ws with cString := fun _ => some s }

/-- `open` returns a descriptor. -/
def opens (pathname : String) (fd : Addr .w64) : FileEvent .w64 where
  call := .sysOpen
  args := SyscallArguments.ofArgs 100 0 0 fd
  mem := stringAt _ pathname

/-- `dup` returns a descriptor. -/
def dups (fd₁ fd₂ : Addr .w64) : FileEvent .w64 where
  call := .sysDup
  args := SyscallArguments.ofArgs fd₁ 0 0 fd₂
  mem := AppMemory.unreadable _

/-- One observed path, one callback. -/
def observeConf : Setup Unit where
  observeEverything := false
  paths := [("conf", ())]
  forAll := none
  default := none

/-- A read of eight bytes from a descriptor. -/
def readsFrom (fd : Addr .w64) : SyscallArguments .w64 := SyscallArguments.ofArgs fd 100 8 8

theorem read_follows_iff_opened :
    ∃ m, runs step [opens "conf" 3] observeConf.monitor = some m
      ∧ (readCallback (readsFrom 3) m = observeConf.callees (refersTo [opens "conf" 3] 3)
        ↔ OpenedAsReferred observeConf [opens "conf" 3] 3) := by
  have hrun : runs step [opens "conf" 3] observeConf.monitor
      = some (addActiveFileDescriptor 3 "conf" observeConf.monitor) := rfl
  have hret : int (readsFrom 3).ret ≠ minusOne := by decide
  exact ⟨_, hrun, read_follows_iff observeConf hrun hret⟩

/-- A read on a duplicated descriptor of an observed file notifies nobody. -/
theorem dup_not_followed :
    ∃ m, runs step [opens "conf" 3, dups 3 4] observeConf.monitor = some m
      ∧ refersTo [dups 3 4, opens "conf" 3] 4 = some "conf"
      ∧ observeConf.callees (some "conf") = [((), "conf")]
      ∧ readCallback (readsFrom 4) m = [] :=
  ⟨_, rfl, rfl, by decide, by decide⟩

end DytanPathMonitor
