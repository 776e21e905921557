import Dytan.RunsProofs

/-! # Calls in two phases

    Threads make calls of a shared component.  A call begins, which only files
    the thread's request, and ends, which takes the filed request and acts on
    the state; other events act at once.

    `completed` lists the calls of a run in the order of their ends, each with
    the request its thread began it with.  The state after a run is the state
    after executing these calls one by one (`runs_completed`), whatever lay
    between their begins and their ends; and where each thread's events
    alternate, a thread's calls are its begins paired with its ends. -/

namespace TwoPhase

open Runs

variable {T R A O S : Type*}

/-- What happens: thread `t` begins a call with request `r`, or ends it with
    answer `a`; or something else acts. -/
inductive Event (T R A O : Type*) where
  | begins (t : T) (r : R)
  | ends (t : T) (a : A)
  | acts (o : O)

/-- A whole call, or something else. -/
inductive Completed (T R A O : Type*) where
  | call (t : T) (r : R) (a : A)
  | acts (o : O)

/-- What a call and what the other events do to the state. -/
structure Effects (R A O S : Type*) where
  call : R → A → S → Option S
  act : O → S → Option S

variable [DecidableEq T]

/-- One event: the filed requests and the state. -/
def step (eff : Effects R A O S) : Event T R A O → (T → R) × S → Option ((T → R) × S)
  | .begins t r, (filed, s) => some (Function.update filed t r, s)
  | .ends t a, (filed, s) => (eff.call (filed t) a s).map fun s' => (filed, s')
  | .acts o, (filed, s) => (eff.act o s).map fun s' => (filed, s')

/-- One whole call. -/
def stepCompleted (eff : Effects R A O S) : Completed T R A O → S → Option S
  | .call _ r a, s => eff.call r a s
  | .acts o, s => eff.act o s

/-- The calls in the order of their ends. -/
def completed (filed : T → R) : List (Event T R A O) → List (Completed T R A O)
  | [] => []
  | .begins t r :: es => completed (Function.update filed t r) es
  | .ends t a :: es => .call t (filed t) a :: completed filed es
  | .acts o :: es => .acts o :: completed filed es

/-- **Calls take effect at their ends**: a run leads to the state that its
    completed calls lead to, one by one, and stops exactly when they do. -/
theorem runs_completed (eff : Effects R A O S) (es : List (Event T R A O)) (filed : T → R)
    (s : S) : (runs (step eff) es (filed, s)).map Prod.snd
      = runs (stepCompleted eff) (completed filed es) s := by
  induction es generalizing filed s with
  | nil => rfl
  | cons e rest ih =>
      rw [runs_cons]
      cases e with
      | begins t r => exact ih (Function.update filed t r) s
      | ends t a =>
          rw [completed, runs_cons]
          show Option.map Prod.snd (((eff.call (filed t) a s).map _).bind _)
            = (eff.call (filed t) a s).bind _
          cases eff.call (filed t) a s with
          | none => rfl
          | some s' => exact ih filed s'
      | acts o =>
          rw [completed, runs_cons]
          show Option.map Prod.snd (((eff.act o s).map _).bind _) = (eff.act o s).bind _
          cases eff.act o s with
          | none => rfl
          | some s' => exact ih filed s'

/-! ## The calls of one thread -/

/-- The request an event of the thread begins with. -/
def Event.request (t : T) : Event T R A O → Option R
  | .begins t' r => if t' = t then some r else none
  | _ => none

/-- The answer an event of the thread ends with. -/
def Event.answer (t : T) : Event T R A O → Option A
  | .ends t' a => if t' = t then some a else none
  | _ => none

/-- A call of the thread. -/
def Completed.of (t : T) : Completed T R A O → Option (R × A)
  | .call t' r a => if t' = t then some (r, a) else none
  | .acts _ => none

/-- The thread's events are begin, end, begin, end, and so on; `inside` a call
    an end comes next. -/
def AlternatesFrom (t : T) : Bool → List (Event T R A O) → Prop
  | _, [] => True
  | inside, .begins t' _ :: es =>
      if t' = t then inside = false ∧ AlternatesFrom t true es else AlternatesFrom t inside es
  | inside, .ends t' _ :: es =>
      if t' = t then inside = true ∧ AlternatesFrom t false es else AlternatesFrom t inside es
  | inside, .acts _ :: es => AlternatesFrom t inside es

/-- Each thread's own events alternate, whatever the others do. -/
def Alternates (es : List (Event T R A O)) : Prop := ∀ t, AlternatesFrom t false es

/-- The request filed where an end comes next. -/
def filedRequest (inside : Bool) (r : R) : List R := if inside then [r] else []

/-- The calls of a thread from a point on. -/
theorem completed_of_from {t : T} {es : List (Event T R A O)} {inside : Bool}
    (h : AlternatesFrom t inside es) (filed : T → R) :
    (completed filed es).filterMap (Completed.of t)
      = (filedRequest inside (filed t) ++ es.filterMap (Event.request t)).zip
        (es.filterMap (Event.answer t)) := by
  induction es generalizing inside filed with
  | nil => exact (List.zip_nil_right).symm
  | cons e rest ih =>
      cases e with
      | begins t' r =>
          have hanswer : (Event.begins t' r : Event T R A O).answer t = none := rfl
          rw [completed, List.filterMap_cons_none hanswer]
          rw [AlternatesFrom] at h
          by_cases ht : t' = t
          · -- the request is filed, and is the next one
            rw [if_pos ht] at h
            obtain ⟨rfl, hrest⟩ := h
            have hrequest : (Event.begins t' r : Event T R A O).request t = some r := if_pos ht
            rw [ih hrest, List.filterMap_cons_some hrequest, ht, Function.update_self]
            rfl
          · rw [if_neg ht] at h
            have hrequest : (Event.begins t' r : Event T R A O).request t = none := if_neg ht
            rw [ih h, List.filterMap_cons_none hrequest, Function.update_of_ne (Ne.symm ht)]
      | ends t' a =>
          have hrequest : (Event.ends t' a : Event T R A O).request t = none := rfl
          rw [completed, List.filterMap_cons_none hrequest]
          rw [AlternatesFrom] at h
          by_cases ht : t' = t
          · -- the filed request meets its answer
            rw [if_pos ht] at h
            obtain ⟨rfl, hrest⟩ := h
            have hanswer : (Event.ends t' a : Event T R A O).answer t = some a := if_pos ht
            have hcall : (Completed.call t' (filed t') a : Completed T R A O).of t
                = some (filed t, a) := by rw [ht]; exact if_pos rfl
            rw [List.filterMap_cons_some hcall, ih hrest, List.filterMap_cons_some hanswer]
            rfl
          · rw [if_neg ht] at h
            have hanswer : (Event.ends t' a : Event T R A O).answer t = none := if_neg ht
            have hcall : (Completed.call t' (filed t') a : Completed T R A O).of t = none :=
              if_neg ht
            rw [List.filterMap_cons_none hcall, ih h, List.filterMap_cons_none hanswer]
      | acts o =>
          have hrequest : (Event.acts o : Event T R A O).request t = none := rfl
          have hanswer : (Event.acts o : Event T R A O).answer t = none := rfl
          have hcall : (Completed.acts o : Completed T R A O).of t = none := rfl
          rw [completed, List.filterMap_cons_none hcall, List.filterMap_cons_none hrequest,
            List.filterMap_cons_none hanswer]
          exact ih h filed

/-- **A thread's calls are its own**: its requests paired with its answers, in
    order, whatever the other threads do. -/
theorem completed_of {es : List (Event T R A O)} (h : Alternates es) (filed : T → R) (t : T) :
    (completed filed es).filterMap (Completed.of t)
      = (es.filterMap (Event.request t)).zip (es.filterMap (Event.answer t)) :=
  completed_of_from (h t) filed

/-- The call an end completes began with the latest request of its thread. -/
theorem completed_concat (es : List (Event T R A O)) (filed : T → R) (t : T) (a : A) :
    completed filed (es ++ [.ends t a]) = completed filed es
      ++ [.call t ((es.filterMap (Event.request t)).getLast?.getD (filed t)) a] := by
  induction es generalizing filed with
  | nil => rfl
  | cons e rest ih =>
      cases e with
      | begins t' r =>
          rw [List.cons_append, completed, completed, ih]
          by_cases ht : t' = t
          · have hrequest : (Event.begins t' r : Event T R A O).request t = some r := if_pos ht
            rw [List.filterMap_cons_some hrequest, List.getLast?_cons, ht, Function.update_self]
            rfl
          · have hrequest : (Event.begins t' r : Event T R A O).request t = none := if_neg ht
            rw [List.filterMap_cons_none hrequest, Function.update_of_ne (Ne.symm ht)]
      | ends t' a' =>
          rw [List.cons_append, completed, completed, ih]
          rfl
      | acts o =>
          rw [List.cons_append, completed, completed, ih]
          rfl

end TwoPhase
