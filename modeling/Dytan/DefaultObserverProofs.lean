import Dytan.SyscallMonitorProofs

/-! # The default observer that nobody sets

    The constructor of `SyscallMonitor` leaves `defaultObserver` as the
    allocation had it, and `main` leaves out the call that would set it.  At
    the end of a system call whose number has no observers the value found
    there is called.

    Two monitors that differ in it are run side by side.  They differ in
    nothing else, and it is consulted at those ends only. -/

namespace DytanDefaultObserver

open DytanTaintState DytanRegister DytanSyscallState DytanSyscallMonitor

variable {ws : WordSize} {Callback : Type}

/-- The number of the call that the end of a thread ends: 0 where the thread
    has begun none. -/
def endedNumber (tid : BitVec 32) (past : List (Event ws Callback)) : BitVec 32 :=
  ((latestBegin tid past).map Begun.num).getD 0

/-- Every system call that ends has observers registered for its number. -/
def AllObserved (es : List (Event ws Callback)) : Prop :=
  ∀ past future tid ret err, es = past ++ .endSyscall tid ret err :: future →
    registered (endedNumber tid past) past ≠ []

/-- Two monitors run the same callbacks, and none at the end of a system call
    without registered observers. -/
structure Alike (u u' : Option Callback) (es : List (Event ws Callback)) : Prop where
  same : trace es (.new u) = trace es (.new u')
  quiet : ∀ past future tid ret err, es = past ++ .endSyscall tid ret err :: future →
    registered (endedNumber tid past) past = [] →
    (trace es (.new u))[past.length]? = some [] ∧ (trace es (.new u'))[past.length]? = some []

/-- No event sets the default observer. -/
def NoDefaultSet (es : List (Event ws Callback)) : Prop :=
  ∀ callback, .setDefaultObserver callback ∉ es

theorem latestDefault_of_noDefaultSet {es : List (Event ws Callback)} (h : NoDefaultSet es) :
    latestDefault es = none := by
  rw [latestDefault]
  rw [List.getLast?_eq_none_iff, List.filterMap_eq_nil_iff]
  intro e he
  cases e with
  | setDefaultObserver callback => exact absurd he (h callback)
  | addObserver n callback v => rfl
  | beginSyscall tid b => rfl
  | endSyscall tid ret err => rfl

/-- The arguments the end of a thread passes to the callbacks. -/
def endedArgs (tid : BitVec 32) (past : List (Event ws Callback)) (ret err : Addr ws) :
    SyscallArguments ws :=
  { ((latestBegin tid past).map Begun.args).getD noArguments with ret := ret, err := err }

theorem int_endedArgs (tid : BitVec 32) (past : List (Event ws Callback)) (ret err : Addr ws) :
    int (endedArgs tid past ret err).num = endedNumber tid past := by
  rw [endedArgs, endedNumber]
  cases latestBegin tid past with
  | none =>
      show (0 : Addr ws).setWidth 32 = 0
      simp
  | some b => exact int_ofInt b.num

/-- The callbacks that the end of a call runs when the constructor found `u` in
    the place of the default observer. -/
def called (u : Option Callback) (tid : BitVec 32) (past : List (Event ws Callback))
    (ret err : Addr ws) : List (Invocation ws Callback) :=
  if registered (endedNumber tid past) past = [] then
    u.toList.map fun d => ⟨d, endedNumber tid past, endedArgs tid past ret err, 0⟩
  else
    (registered (endedNumber tid past) past).map fun o =>
      ⟨o.1, endedNumber tid past, endedArgs tid past ret err, o.2⟩

/-- **What an end runs**, after any events that set no default observer. -/
theorem endSyscall_called {past : List (Event ws Callback)} (h : NoDefaultSet past)
    (u : Option Callback) (tid : BitVec 32) (ret err : Addr ws) :
    (endSyscall tid ret err (after past (.new u))).1 = called u tid past ret err := by
  have hpending := after_pending tid u past
  have hdefault := after_default u past
  rw [latestDefault_of_noDefaultSet h, Option.none_or] at hdefault
  have hobservers := after_observers (endedNumber tid past) u past
  have hnum := int_endedArgs tid past ret err
  rw [endedArgs] at hnum
  rw [endSyscall, called, endedArgs]
  simp only [hpending, hdefault, hnum, hobservers]
  by_cases hnil : registered (endedNumber tid past) past = []
  · rw [if_pos hnil, if_pos hnil]
    cases u with
    | none => rfl
    | some d => rfl
  · rw [if_neg hnil, if_neg hnil]

/-- What the constructor found makes a difference only where there are no
    observers. -/
theorem called_of_observed {past : List (Event ws Callback)} {tid : BitVec 32}
    (h : registered (endedNumber tid past) past ≠ []) (u u' : Option Callback)
    (ret err : Addr ws) : called u tid past ret err = called u' tid past ret err := by
  rw [called, called]
  rw [if_neg h, if_neg h]

theorem called_eq_nil_iff {past : List (Event ws Callback)} {tid : BitVec 32}
    (h : registered (endedNumber tid past) past = []) (u : Option Callback) (ret err : Addr ws) :
    called u tid past ret err = [] ↔ u = none := by
  rw [called]
  rw [if_pos h, List.map_eq_nil_iff]
  cases u with
  | none => exact iff_of_true rfl rfl
  | some d => exact iff_of_false (List.cons_ne_nil _ _) (Option.some_ne_none d)

@[simp] theorem length_trace (es : List (Event ws Callback)) (m : SyscallMonitor ws Callback) :
    (trace es m).length = es.length := by
  induction es generalizing m with
  | nil => rfl
  | cons e rest ih =>
      rw [trace, List.length_cons, List.length_cons, ih]

/-- The trace at the position of an end. -/
theorem trace_end {es past future : List (Event ws Callback)} (h : NoDefaultSet es)
    {tid : BitVec 32} {ret err : Addr ws} (hes : es = past ++ .endSyscall tid ret err :: future)
    (u : Option Callback) :
    (trace es (.new u))[past.length]? = some (called u tid past ret err) := by
  subst hes
  have hpast : NoDefaultSet past := fun callback hmem =>
    h callback (List.mem_append_left _ hmem)
  rw [trace_getElem?]
  exact congrArg some (endSyscall_called hpast u tid ret err)

/-- Two traces are the same when every end runs the same. -/
theorem trace_eq_of_ends {es : List (Event ws Callback)} (h : NoDefaultSet es)
    {u u' : Option Callback}
    (hends : ∀ past future tid ret err, es = past ++ .endSyscall tid ret err :: future →
      called u tid past ret err = called u' tid past ret err) :
    trace es (.new u) = trace es (.new u') := by
  refine List.ext_getElem? fun k => ?_
  by_cases hk : k < es.length
  · have hsplit : es = es.take k ++ es[k] :: es.drop (k + 1) := by
      rw [← List.drop_eq_getElem_cons hk, List.take_append_drop]
    have hlen : (es.take k).length = k := List.length_take_of_le (Nat.le_of_lt hk)
    generalize es.take k = past at hsplit hlen
    subst hlen
    cases hek : es[past.length] with
    | endSyscall tid ret err =>
        rw [hek] at hsplit
        rw [trace_end h hsplit, trace_end h hsplit, hends _ _ _ _ _ hsplit]
    | _ =>
        rw [hek] at hsplit
        rw [hsplit, trace_getElem?, trace_getElem?]
        rfl
  · rw [List.getElem?_eq_none (by rw [length_trace]; omega),
      List.getElem?_eq_none (by rw [length_trace]; omega)]

/-- **The runs are alike** exactly when both allocations happened to hold a
    null default observer, or every system call that ends has observers. -/
theorem alike_iff (u u' : Option Callback) (es : List (Event ws Callback))
    (h : NoDefaultSet es) : Alike u u' es ↔ (u = none ∧ u' = none) ∨ AllObserved es := by
  constructor
  · intro halike
    by_cases hall : AllObserved es
    · exact Or.inr hall
    · left
      rw [AllObserved] at hall
      push Not at hall
      obtain ⟨past, future, tid, ret, err, hes, hnil⟩ := hall
      obtain ⟨hu, hu'⟩ := halike.quiet past future tid ret err hes hnil
      rw [trace_end h hes, Option.some_inj, called_eq_nil_iff hnil] at hu hu'
      exact ⟨hu, hu'⟩
  · rintro (⟨rfl, rfl⟩ | hall)
    · refine ⟨rfl, fun past future tid ret err hes hnil => ?_⟩
      rw [trace_end h hes, (called_eq_nil_iff hnil none ret err).mpr rfl]
      exact ⟨rfl, rfl⟩
    · refine ⟨trace_eq_of_ends h fun past future tid ret err hes => ?_, ?_⟩
      · exact called_of_observed (hall past future tid ret err hes) u u' ret err
      · intro past future tid ret err hes hnil
        exact absurd hnil (hall past future tid ret err hes)

/-- Thread 1 makes call 39, for which an observer is registered. -/
def observedCall : List (Event .w64 (Fin 4)) :=
  [.addObserver 39 2 0, .beginSyscall 1 ⟨39, 0, 0, 0, 0, 0, 0⟩, .endSyscall 1 1000 0]

theorem observedCall_observed : AllObserved observedCall := by
  intro past future tid ret err hes
  match past with
  | [] => cases hes
  | [_] => cases hes
  | [_, _] =>
      cases hes
      decide
  | _ :: _ :: _ :: past =>
      cases past <;> cases hes

/-- Its runs are alike on zeroed memory and on any other. -/
theorem alike_iff_observed : Alike none (some 3) observedCall := by
  refine (alike_iff none (some 3) observedCall fun callback hmem => ?_).mpr
    (Or.inr observedCall_observed)
  simp [observedCall] at hmem

/-- Thread 1 makes call 39, for which nobody has registered. -/
def unobserved : List (Event .w64 (Fin 3)) :=
  [.beginSyscall 1 ⟨39, 0, 0, 0, 0, 0, 0⟩, .endSyscall 1 1000 0]

theorem noDefaultSet_unobserved : NoDefaultSet unobserved := by
  intro callback hmem
  rcases List.mem_cons.mp hmem with heq | hmem
  · exact nomatch heq
  · exact nomatch List.mem_singleton.mp hmem

/-- The monitor on zeroed memory runs nothing, the other what it finds. -/
theorem garbage_called : NoDefaultSet unobserved
    ∧ trace unobserved (.new none) ≠ trace unobserved (.new (some 2))
    ∧ ¬ Alike none (some 2) unobserved := by
  have hne : trace unobserved (.new none) ≠ trace unobserved (.new (some 2)) := by
    intro heq
    have hlen := congrArg (fun t => t[1]?.map List.length) heq
    exact nomatch hlen
  exact ⟨noDefaultSet_unobserved, hne, fun h => hne h.same⟩

end DytanDefaultObserver
