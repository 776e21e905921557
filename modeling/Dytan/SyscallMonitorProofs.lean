import Dytan.SyscallStateProofs

/-! # `SyscallMonitor` — observers of system calls

    The monitor is told of a system call twice: `beginSyscall` files the
    thread's number and arguments under the thread, `endSyscall` adds the
    result and calls the observers of that number, or the default observer.
    Between the two, other threads enter and leave calls of their own.

    What the monitor holds is a function of the events so far: the pending
    entry of a thread is its latest `beginSyscall`, the observers of a number
    are its registrations in order.  Each is proved for one event and then for
    every sequence of events. -/

namespace DytanSyscallMonitor

open DytanTaintState DytanRegister DytanSyscallState

variable {ws : WordSize} {Callback : Type}

/-- The call number is a signed 32-bit value; as an `ADDRINT` and back it is
    unchanged. -/
theorem int_ofInt (x : BitVec 32) : int (ofInt ws x) = x := by
  cases ws with
  | w32 =>
      show (x.signExtend 32).setWidth 32 = x
      rw [BitVec.signExtend_eq, BitVec.setWidth_eq]
  | w64 =>
      refine BitVec.eq_of_getLsbD_eq fun i hi => ?_
      rw [int, BitVec.getLsbD_setWidth, ofInt, BitVec.getLsbD_signExtend, if_pos hi]
      simp [WordSize.bits, hi, show i < 64 by omega]

/-- `SyscallMonitor`, with the `void *` of an observer as a word. -/
structure SyscallMonitor (ws : WordSize) (Callback : Type) where
  pendingSyscalls : Std.ExtTreeMap (BitVec 32) (SyscallArguments ws)
  observers : Std.ExtTreeMap (BitVec 32) (List (Callback × Addr ws))
  defaultObserver : Option Callback

/-- The constructor.  It leaves `defaultObserver` as the allocation had it. -/
def SyscallMonitor.new (uninitialised : Option Callback) : SyscallMonitor ws Callback where
  pendingSyscalls := ∅
  observers := ∅
  defaultObserver := uninitialised

/-- A call of an observer: the function with what it is passed. -/
structure Invocation (ws : WordSize) (Callback : Type) where
  callback : Callback
  syscallNumber : BitVec 32
  args : SyscallArguments ws
  v : Addr ws
deriving DecidableEq, Repr

/-- `addObserver`. -/
def addObserver (syscallNumber : BitVec 32) (callback : Callback) (v : Addr ws)
    (m : SyscallMonitor ws Callback) : SyscallMonitor ws Callback :=
  { m with observers :=
      m.observers.insert syscallNumber (m.observers.getD syscallNumber [] ++ [(callback, v)]) }

/-- `setDefaultObserver`. -/
def setDefaultObserver (callback : Callback) (m : SyscallMonitor ws Callback) :
    SyscallMonitor ws Callback :=
  { m with defaultObserver := some callback }

/-- The number and the arguments `beginSyscall` is given. -/
structure Begun (ws : WordSize) where
  num : BitVec 32
  arg0 : Addr ws
  arg1 : Addr ws
  arg2 : Addr ws
  arg3 : Addr ws
  arg4 : Addr ws
  arg5 : Addr ws
deriving DecidableEq, Repr

/-- The aggregate `beginSyscall` stores: `ret` and `err` are zero. -/
def Begun.args (b : Begun ws) : SyscallArguments ws where
  num := ofInt ws b.num
  arg0 := b.arg0
  arg1 := b.arg1
  arg2 := b.arg2
  arg3 := b.arg3
  arg4 := b.arg4
  arg5 := b.arg5
  ret := 0
  err := 0

/-- `beginSyscall`. -/
def beginSyscall (tid : BitVec 32) (b : Begun ws) (m : SyscallMonitor ws Callback) :
    SyscallMonitor ws Callback :=
  { m with pendingSyscalls := m.pendingSyscalls.insert tid b.args }

/-- The entry `operator[]` makes for an absent thread. -/
def noArguments : SyscallArguments ws := SyscallArguments.ofArgs 0 0 0 0

/-- `endSyscall`, with the observers it calls in call order. -/
def endSyscall (tid : BitVec 32) (ret err : Addr ws) (m : SyscallMonitor ws Callback) :
    List (Invocation ws Callback) × SyscallMonitor ws Callback :=
  let pending := m.pendingSyscalls.getD tid noArguments
  let args := { pending with ret := ret, err := err }
  let invocations :=
    match m.observers[int args.num]? with
    | some callbacks => callbacks.map fun o => ⟨o.1, int args.num, args, o.2⟩
    | none =>
        match m.defaultObserver with
        | some callback => [⟨callback, int args.num, args, 0⟩]
        | none => []
  (invocations, { m with pendingSyscalls := m.pendingSyscalls.insertIfNew tid noArguments })

/-- What happens to a monitor. -/
inductive Event (ws : WordSize) (Callback : Type) where
  | addObserver (syscallNumber : BitVec 32) (callback : Callback) (v : Addr ws)
  | setDefaultObserver (callback : Callback)
  | beginSyscall (tid : BitVec 32) (b : Begun ws)
  | endSyscall (tid : BitVec 32) (ret err : Addr ws)

/-- One event: the observers called, and the monitor after it. -/
def step : Event ws Callback → SyscallMonitor ws Callback →
    List (Invocation ws Callback) × SyscallMonitor ws Callback
  | .addObserver n callback v, m => ([], addObserver n callback v m)
  | .setDefaultObserver callback, m => ([], setDefaultObserver callback m)
  | .beginSyscall tid b, m => ([], beginSyscall tid b m)
  | .endSyscall tid ret err, m => endSyscall tid ret err m

/-- The observers each event of a run calls. -/
def trace : List (Event ws Callback) → SyscallMonitor ws Callback →
    List (List (Invocation ws Callback))
  | [], _ => []
  | e :: es, m => (step e m).1 :: trace es (step e m).2

/-- The monitor after a run. -/
def after (es : List (Event ws Callback)) (m : SyscallMonitor ws Callback) :
    SyscallMonitor ws Callback :=
  es.foldl (fun m e => (step e m).2) m

/-- `SysBefore`: the number Pin gives is an `ADDRINT`. -/
def sysBefore (threadIndex : BitVec 32) (num arg0 arg1 arg2 arg3 arg4 arg5 : Addr ws) :
    Event ws Callback :=
  .beginSyscall threadIndex ⟨int num, arg0, arg1, arg2, arg3, arg4, arg5⟩

/-- `SysAfter`. -/
def sysAfter (threadIndex : BitVec 32) (ret err : Addr ws) : Event ws Callback :=
  .endSyscall threadIndex ret err

@[simp] theorem after_concat (es : List (Event ws Callback)) (e : Event ws Callback)
    (m : SyscallMonitor ws Callback) : after (es ++ [e]) m = (step e (after es m)).2 := by
  rw [after, List.foldl_append]
  rfl

/-- The event at a position finds what the run before it leaves. -/
theorem trace_getElem? (past future : List (Event ws Callback)) (e : Event ws Callback)
    (m : SyscallMonitor ws Callback) :
    (trace (past ++ e :: future) m)[past.length]? = some (step e (after past m)).1 := by
  induction past generalizing m with
  | nil => rfl
  | cons e' rest ih => exact ih (step e' m).2

/-- The registration an event makes for `n`. -/
def Event.registers (n : BitVec 32) : Event ws Callback → Option (Callback × Addr ws)
  | .addObserver n' callback v => if n' = n then some (callback, v) else none
  | _ => none

/-- The default observer an event sets. -/
def Event.sets : Event ws Callback → Option Callback
  | .setDefaultObserver callback => some callback
  | _ => none

/-- The call of `tid` an event begins. -/
def Event.begins (tid : BitVec 32) : Event ws Callback → Option (Begun ws)
  | .beginSyscall tid' b => if tid' = tid then some b else none
  | _ => none

/-- The registrations for `n`, in registration order. -/
def registered (n : BitVec 32) (es : List (Event ws Callback)) : List (Callback × Addr ws) :=
  es.filterMap (Event.registers n)

/-- The default observer set last. -/
def latestDefault (es : List (Event ws Callback)) : Option Callback :=
  (es.filterMap Event.sets).getLast?

/-- The latest call of `tid`. -/
def latestBegin (tid : BitVec 32) (es : List (Event ws Callback)) : Option (Begun ws) :=
  (es.filterMap (Event.begins tid)).getLast?

/-- Whether an event is a begin or an end of `tid`. -/
def Event.side (tid : BitVec 32) : Event ws Callback → Option Bool
  | .beginSyscall tid' _ => if tid' = tid then some true else none
  | .endSyscall tid' _ _ => if tid' = tid then some false else none
  | _ => none

/-- Begin, end, begin, end, and so on; `inside` a call the next one is an end. -/
def alternating : Bool → List Bool → Prop
  | _, [] => True
  | inside, isBegin :: rest => isBegin = !inside ∧ alternating isBegin rest

/-- Each thread's own events alternate, whatever the other threads do. -/
def Alternates (es : List (Event ws Callback)) : Prop :=
  ∀ tid, alternating false (es.filterMap (Event.side tid))

/-- One event more: the last record counts. -/
theorem getLast?_filterMap_concat {α β : Type} (f : α → Option β) (es : List α) (e : α) :
    ((es ++ [e]).filterMap f).getLast? = (f e).or (es.filterMap f).getLast? := by
  rw [List.filterMap_append]
  cases h : f e with
  | none => simp [h]
  | some b => simp [h]

theorem registered_concat (n : BitVec 32) (es : List (Event ws Callback)) (e : Event ws Callback) :
    registered n (es ++ [e]) = registered n es ++ (e.registers n).toList := by
  rw [registered, List.filterMap_append]
  cases h : e.registers n with
  | none => simp [h, registered]
  | some o => simp [h, registered]

/-- Only a begin of the thread changes its pending entry. -/
theorem step_pending (tid : BitVec 32) (e : Event ws Callback) (m : SyscallMonitor ws Callback) :
    (step e m).2.pendingSyscalls.getD tid noArguments
      = ((e.begins tid).map Begun.args).getD (m.pendingSyscalls.getD tid noArguments) := by
  cases e with
  | addObserver n callback v => rfl
  | setDefaultObserver callback => rfl
  | beginSyscall tid' b =>
      by_cases htid : tid' = tid
      · simp [step, beginSyscall, Event.begins, htid]
      · simp [step, beginSyscall, Event.begins, Std.ExtTreeMap.getD_insert, htid]
  | endSyscall tid' ret err =>
      -- `operator[]` files what a lookup of an absent thread finds anyway
      show (m.pendingSyscalls.insertIfNew tid' noArguments).getD tid noArguments = _
      rw [Std.ExtTreeMap.getD_insertIfNew]
      by_cases htid : compare tid' tid = .eq ∧ tid' ∉ m.pendingSyscalls
      · obtain rfl : tid' = tid := Std.LawfulEqCmp.eq_of_compare htid.1
        rw [if_pos htid]
        exact (Std.ExtTreeMap.getD_eq_fallback htid.2).symm
      · rw [if_neg htid]
        rfl

/-- Only a registration for the number changes its observers, and it goes to
    the end. -/
theorem step_observers (n : BitVec 32) (e : Event ws Callback) (m : SyscallMonitor ws Callback) :
    (step e m).2.observers[n]?
      = match e.registers n with
        | some o => some (m.observers.getD n [] ++ [o])
        | none => m.observers[n]? := by
  cases e with
  | addObserver n' callback v =>
      by_cases hn : n' = n
      · simp [step, addObserver, Event.registers, hn]
      · simp [step, addObserver, Event.registers, Std.ExtTreeMap.getElem?_insert, hn]
  | setDefaultObserver callback => rfl
  | beginSyscall tid b => rfl
  | endSyscall tid ret err => rfl

theorem step_default (e : Event ws Callback) (m : SyscallMonitor ws Callback) :
    (step e m).2.defaultObserver = e.sets.or m.defaultObserver := by
  cases e with
  | _ => rfl

/-- **The pending entry of a thread is its latest call.** -/
theorem after_pending (tid : BitVec 32) (uninitialised : Option Callback)
    (es : List (Event ws Callback)) :
    (after es (.new uninitialised)).pendingSyscalls.getD tid noArguments
      = ((latestBegin tid es).map Begun.args).getD noArguments := by
  induction es using List.reverseRecOn with
  | nil => rfl
  | append_singleton es e ih =>
      rw [after_concat, step_pending, ih, latestBegin, latestBegin, getLast?_filterMap_concat]
      cases e.begins tid with
      | none => rfl
      | some b => rfl

/-- **The observers of a number are its registrations in order**, and there is
    an entry exactly when there is one. -/
theorem after_observers (n : BitVec 32) (uninitialised : Option Callback)
    (es : List (Event ws Callback)) :
    (after es (.new uninitialised)).observers[n]?
      = if registered n es = [] then none else some (registered n es) := by
  induction es using List.reverseRecOn with
  | nil => rfl
  | append_singleton es e ih =>
      rw [after_concat, step_observers, registered_concat]
      cases e.registers n with
      | none =>
          rw [Option.toList_none, List.append_nil]
          exact ih
      | some o =>
          have hsome : registered n es ++ [o] ≠ [] := List.append_ne_nil_of_right_ne_nil _ (by simp)
          rw [Option.toList_some, if_neg hsome, Std.ExtTreeMap.getD_eq_getD_getElem?, ih]
          by_cases hnil : registered n es = []
          · rw [if_pos hnil, hnil]
            rfl
          · rw [if_neg hnil]
            rfl

/-- A default observer that was set is the one the monitor has. -/
theorem after_default (uninitialised : Option Callback) (es : List (Event ws Callback)) :
    (after es (.new uninitialised : SyscallMonitor ws Callback)).defaultObserver
      = (latestDefault es).or uninitialised := by
  induction es using List.reverseRecOn with
  | nil => rfl
  | append_singleton es e ih =>
      rw [after_concat, step_default, ih, latestDefault, latestDefault,
        getLast?_filterMap_concat, Option.or_assoc]

/-! ## The observers an end calls -/

/-- The observers to be called for a call that began as `b` and returns `ret`
    and `err`, after the registrations in `es`. -/
def due (es : List (Event ws Callback)) (d : Callback) (b : Begun ws) (ret err : Addr ws) :
    List (Invocation ws Callback) :=
  let args := { b.args with ret := ret, err := err }
  if registered b.num es = [] then [⟨d, b.num, args, 0⟩]
  else (registered b.num es).map fun o => ⟨o.1, b.num, args, o.2⟩

theorem begins_of_side {tid : BitVec 32} {e : Event ws Callback} (h : e.side tid = some true) :
    ∃ b, e.begins tid = some b := by
  cases e with
  | addObserver n callback v => exact nomatch h
  | setDefaultObserver callback => exact nomatch h
  | beginSyscall tid' b =>
      rw [Event.side, Option.ite_none_right_eq_some] at h
      exact ⟨b, if_pos h.1⟩
  | endSyscall tid' ret err =>
      rw [Event.side, Option.ite_none_right_eq_some] at h
      exact nomatch h.2

/-- An end of a thread follows a begin of it. -/
theorem latestBegin_of_alternates {past future : List (Event ws Callback)} {tid : BitVec 32}
    {ret err : Addr ws} (h : Alternates (past ++ .endSyscall tid ret err :: future)) :
    ∃ b, latestBegin tid past = some b := by
  have halt := h tid
  have hside : Event.side tid (.endSyscall tid ret err : Event ws Callback) = some false :=
    if_pos rfl
  rw [List.filterMap_append, List.filterMap_cons_some hside] at halt
  cases hpast : past.filterMap (Event.side tid) with
  | nil =>
      rw [hpast] at halt
      exact nomatch halt.1
  | cons isBegin rest =>
      rw [hpast] at halt
      have hmem : true ∈ past.filterMap (Event.side tid) := by
        rw [hpast, show isBegin = true from halt.1]
        exact List.mem_cons_self
      obtain ⟨e, he, hbegin⟩ := List.mem_filterMap.mp hmem
      obtain ⟨b, hb⟩ := begins_of_side hbegin
      have hne : past.filterMap (Event.begins tid) ≠ [] :=
        List.ne_nil_of_mem (List.mem_filterMap.mpr ⟨e, he, hb⟩)
      exact ⟨_, List.getLast?_eq_some_getLast hne⟩

/-- **`endSyscall` calls what is due**: after any events, the end of a call
    that began as `b`. -/
theorem endSyscall_due {past : List (Event ws Callback)} {tid : BitVec 32} {d : Callback}
    {b : Begun ws} (hd : latestDefault past = some d) (hb : latestBegin tid past = some b)
    (uninitialised : Option Callback) (ret err : Addr ws) :
    (endSyscall tid ret err (after past (.new uninitialised))).1 = due past d b ret err := by
  have hpending := after_pending tid uninitialised past
  rw [hb] at hpending
  have hdefault := after_default uninitialised past
  rw [hd] at hdefault
  have hobservers := after_observers b.num uninitialised past
  have hnum : int b.args.num = b.num := int_ofInt b.num
  rw [endSyscall, due]
  simp only [hpending, hdefault, Option.map_some, Option.getD_some, hnum, hobservers]
  by_cases hnil : registered b.num past = []
  · rw [if_pos hnil, if_pos hnil]
    rfl
  · rw [if_neg hnil, if_neg hnil]

/-- **Every interleaving**: in a run whose threads each alternate begin and
    end, with a default observer set before it, every end calls exactly the
    observers registered for the number of the thread's latest begin, once per
    registration and in order, with that begin's arguments and this result;
    the default observer is called exactly when there are none. -/
theorem trace_endSyscall (uninitialised : Option Callback) (es past future : List (Event ws Callback))
    (tid : BitVec 32) (ret err : Addr ws) (d : Callback) (halt : Alternates es)
    (hes : es = past ++ .endSyscall tid ret err :: future) (hd : latestDefault past = some d) :
    ∃ b, latestBegin tid past = some b
      ∧ (trace es (.new uninitialised))[past.length]? = some (due past d b ret err) := by
  subst hes
  obtain ⟨b, hb⟩ := latestBegin_of_alternates halt
  refine ⟨b, hb, ?_⟩
  rw [trace_getElem?]
  exact congrArg some (endSyscall_due hd hb uninitialised ret err)

/-- Thread 1 is in call 3, with two observers, while thread 2 enters call 4
    and leaves it first. -/
def overlapping : List (Event .w64 (Fin 3)) :=
  [.setDefaultObserver 0, .addObserver 3 1 7, .addObserver 3 2 8,
    .beginSyscall 1 ⟨3, 10, 11, 12, 0, 0, 0⟩, .beginSyscall 2 ⟨4, 20, 21, 22, 0, 0, 0⟩,
    .endSyscall 2 5 0, .endSyscall 1 6 0]

theorem alternates_overlapping : Alternates overlapping := by
  intro tid
  by_cases h1 : (1 : BitVec 32) = tid
  · subst h1
    exact ⟨rfl, rfl, trivial⟩
  · by_cases h2 : (2 : BitVec 32) = tid
    · subst h2
      exact ⟨rfl, rfl, trivial⟩
    · simp only [overlapping, List.filterMap_cons, Event.side, if_neg h1, if_neg h2]
      exact trivial

theorem trace_endSyscall_overlapping :
    ∃ b, latestBegin 1 (overlapping.take 6) = some b
      ∧ (trace overlapping (.new none))[6]? = some (due (overlapping.take 6) 0 b 6 0) :=
  trace_endSyscall none overlapping (overlapping.take 6) [] 1 6 0 0 alternates_overlapping rfl rfl

end DytanSyscallMonitor
