import Mathlib.Tactic.Common

/-! # Runs of a partial step function

    A system is a step function `E → S → Option S`; a run feeds it a list of
    events and stops at `none`.

    Two predicates are read along a run: `EachStep P` (every step meets a
    condition on its event and the state before it) and `Always Q` (every
    state reached satisfies `Q`).  An invariant that every step meeting `P`
    keeps is `Always` true; and when one step keeps `Q` exactly if it meets
    `P`, the same equivalence holds of runs.

    A state that is a function of the events so far stays one (`runs_history`). -/

namespace Runs

variable {S E : Type*} {step : E → S → Option S}

/-- Execute a list of events. -/
def runs (step : E → S → Option S) (es : List E) (s : S) : Option S :=
  es.foldlM (fun s e => step e s) s

/-- Every step of the run meets `P`. -/
def EachStep (step : E → S → Option S) (P : E → S → Prop) : List E → S → Prop
  | [], _ => True
  | e :: es, s => P e s ∧ ∀ s', step e s = some s' → EachStep step P es s'

/-- Every state of the run, the first and the last included, satisfies `Q`. -/
def Always (step : E → S → Option S) (Q : S → Prop) : List E → S → Prop
  | [], s => Q s
  | e :: es, s => Q s ∧ ∀ s', step e s = some s' → Always step Q es s'

@[simp] theorem runs_cons (e : E) (es : List E) (s : S) :
    runs step (e :: es) s = (step e s).bind (runs step es) := rfl

theorem runs_append (es es' : List E) (s : S) :
    runs step (es ++ es') s = (runs step es s).bind (runs step es') := List.foldlM_append ..

/-- **The history rule**: if every step leads from what `f` says of the events
    so far, latest first, to what it says with one event more, then a run
    leads to what `f` says of all its events. -/
theorem runs_history {f : List E → S}
    (hstep : ∀ e past s', step e (f past) = some s' → s' = f (e :: past))
    {es : List E} {s : S} (h : runs step es (f []) = some s) : s = f es.reverse := by
  have hrun : ∀ (es past : List E), runs step es (f past) = some s →
      s = f (es.reverse ++ past) := by
    intro es
    induction es with
    | nil =>
        intro past hs
        cases hs
        rfl
    | cons e rest ih =>
        intro past hs
        rw [runs_cons, Option.bind_eq_some_iff] at hs
        obtain ⟨s₁, hs₁, hrest⟩ := hs
        rw [hstep e past s₁ hs₁] at hrest
        rw [List.reverse_cons, List.append_assoc, List.singleton_append]
        exact ih (e :: past) hrest
  rw [← List.append_nil es.reverse]
  exact hrun es [] h

/-- What always holds, holds where the run ends. -/
theorem Always.last {Q : S → Prop} {es : List E} {s s' : S} (h : Always step Q es s)
    (hrun : runs step es s = some s') : Q s' := by
  induction es generalizing s with
  | nil =>
      cases hrun
      exact h
  | cons e rest ih =>
      rw [runs_cons, Option.bind_eq_some_iff] at hrun
      obtain ⟨s₁, hstep, hrest⟩ := hrun
      exact ih (h.2 s₁ hstep) hrest

theorem Always.mono {Q Q' : S → Prop} (hQ : ∀ s, Q s → Q' s) {es : List E} {s : S}
    (h : Always step Q es s) : Always step Q' es s := by
  induction es generalizing s with
  | nil => exact hQ s h
  | cons e rest ih => exact ⟨hQ s h.1, fun s' hs' => ih (h.2 s' hs')⟩

/-- **The invariant rule**: what every step meeting `P` keeps holds in every
    state of a run whose steps all meet `P`. -/
theorem always_of_eachStep {P : E → S → Prop} {Inv : S → Prop}
    (hstep : ∀ e s s', Inv s → P e s → step e s = some s' → Inv s')
    {es : List E} {s : S} (hs : Inv s) (hP : EachStep step P es s) :
    Always step Inv es s := by
  induction es generalizing s with
  | nil => exact hs
  | cons e rest ih =>
      refine ⟨hs, fun s' hs' => ?_⟩
      exact ih (hstep e s s' hs hP.1 hs') (hP.2 s' hs')

/-- **The exactness rule**: if from invariant states every step is possible,
    and keeps `Q` exactly when it meets `P`, then a run that starts in `Q`
    stays in `Q` exactly when each of its steps meets `P`. -/
theorem always_iff_eachStep {P : E → S → Prop} {Inv Q : S → Prop}
    (hstep : ∀ e s, Inv s → ∃ s', step e s = some s' ∧ Inv s' ∧ (Q s → (Q s' ↔ P e s)))
    (es : List E) {s : S} (hs : Inv s) (hQ : Q s) :
    Always step Q es s ↔ EachStep step P es s := by
  induction es generalizing s with
  | nil => exact ⟨fun _ => trivial, fun _ => hQ⟩
  | cons e rest ih =>
      obtain ⟨s', hs', hinv, hiff⟩ := hstep e s hs
      have huniq : ∀ t, step e s = some t → t = s' := by
        intro t ht
        rw [hs'] at ht
        cases ht
        rfl
      constructor
      · rintro ⟨-, h⟩
        have hrest := h s' hs'
        have hQ' : Q s' := by
          cases rest with
          | nil => exact hrest
          | cons => exact hrest.1
        refine ⟨(hiff hQ).mp hQ', fun t ht => ?_⟩
        rw [huniq t ht]
        exact (ih hinv hQ').mp hrest
      · rintro ⟨hP, h⟩
        refine ⟨hQ, fun t ht => ?_⟩
        rw [huniq t ht]
        exact (ih hinv ((hiff hQ).mpr hP)).mpr (h s' hs')

/-- Two conditions that agree wherever an invariant holds, and of which one
    keeps the invariant, are met by the same runs. -/
theorem eachStep_congr {P P' : E → S → Prop} {Inv : S → Prop}
    (hiff : ∀ e s, Inv s → (P e s ↔ P' e s))
    (hstep : ∀ e s s', Inv s → P e s → step e s = some s' → Inv s')
    (es : List E) {s : S} (hs : Inv s) : EachStep step P es s ↔ EachStep step P' es s := by
  induction es generalizing s with
  | nil => exact Iff.rfl
  | cons e rest ih =>
      constructor
      · rintro ⟨hP, hrest⟩
        refine ⟨(hiff e s hs).mp hP, fun s' hs' => ?_⟩
        exact (ih (hstep e s s' hs hP hs')).mp (hrest s' hs')
      · rintro ⟨hP', hrest⟩
        have hP := (hiff e s hs).mpr hP'
        refine ⟨hP, fun s' hs' => ?_⟩
        exact (ih (hstep e s s' hs hP hs')).mpr (hrest s' hs')

/-- Two conditions that agree at every step that is possible are met by the
    same runs, among those that do not stop. -/
theorem eachStep_congr_of_runs {P P' : E → S → Prop}
    (hiff : ∀ e s s', step e s = some s' → (P e s ↔ P' e s)) {es : List E} {s s' : S}
    (h : runs step es s = some s') : EachStep step P es s ↔ EachStep step P' es s := by
  induction es generalizing s with
  | nil => exact Iff.rfl
  | cons e rest ih =>
      rw [runs_cons, Option.bind_eq_some_iff] at h
      obtain ⟨s₁, hs₁, hrest⟩ := h
      refine and_congr (hiff e s s₁ hs₁) (forall_congr' fun s₂ => ?_)
      refine forall_congr' fun hs₂ => ?_
      rw [hs₁] at hs₂
      cases hs₂
      exact ih hrest

/-- Both systems have stopped, or both have gone on to related states. -/
def Related {T : Type*} (R : S → T → Prop) : Option S → Option T → Prop
  | none, none => True
  | some s, some t => R s t
  | _, _ => False

theorem related_some {T : Type*} {R : S → T → Prop} {o : Option S} {t : T}
    (h : Related R o (some t)) : ∃ s, o = some s ∧ R s t := by
  cases o with
  | none => exact False.elim h
  | some s => exact ⟨s, rfl, h⟩

theorem Related.mono {T : Type*} {R R' : S → T → Prop} (hR : ∀ s t, R s t → R' s t)
    {o : Option S} {o' : Option T} (h : Related R o o') : Related R' o o' := by
  cases o with
  | none =>
      cases o' with
      | none => trivial
      | some t => exact False.elim h
  | some s =>
      cases o' with
      | none => exact False.elim h
      | some t => exact hR s t h

/-- What related states have in common, related results have. -/
theorem Related.map_eq {T X : Type*} {R : S → T → Prop} {f : S → X} {f' : T → X}
    (hf : ∀ s t, R s t → f s = f' t) {o : Option S} {o' : Option T} (h : Related R o o') :
    o.map f = o'.map f' := by
  cases o with
  | none =>
      cases o' with
      | none => rfl
      | some t => exact False.elim h
  | some s =>
      cases o' with
      | none => exact False.elim h
      | some t => exact congrArg some (hf s t h)

/-- Related results are bound by related continuations. -/
theorem Related.bind {T S' T' : Type*} {R : S → T → Prop} {R' : S' → T' → Prop}
    {o : Option S} {o' : Option T} (h : Related R o o') {f : S → Option S'} {f' : T → Option T'}
    (hf : ∀ s t, R s t → Related R' (f s) (f' t)) : Related R' (o.bind f) (o'.bind f') := by
  cases o with
  | none =>
      cases o' with
      | none => trivial
      | some t => exact False.elim h
  | some s =>
      cases o' with
      | none => exact False.elim h
      | some t => exact hf s t h

/-- The right result may be changed on the way. -/
theorem Related.change {T T' : Type*} {R : S → T → Prop} {R' : S → T' → Prop} {o : Option S}
    {o' : Option T} (h : Related R o o') {f : T → T'} (hf : ∀ s t, R s t → R' s (f t)) :
    Related R' o (o'.bind fun t => some (f t)) := by
  cases o with
  | none =>
      cases o' with
      | none => trivial
      | some t => exact False.elim h
  | some s =>
      cases o' with
      | none => exact False.elim h
      | some t => exact hf s t h

/-- **Refinement**: what every step keeps related, every run keeps related. -/
theorem runs_related {T : Type*} {step' : E → T → Option T} {R : S → T → Prop}
    (hstep : ∀ e s t, R s t → Related R (step e s) (step' e t)) (es : List E) {s : S} {t : T}
    (h : R s t) : Related R (runs step es s) (runs step' es t) := by
  induction es generalizing s t with
  | nil => exact h
  | cons e rest ih =>
      rw [runs_cons, runs_cons]
      exact (hstep e s t h).bind fun _ _ => ih

/-- Two systems that take the same steps on the events of a run have the same
    run. -/
theorem runs_congr {step' : E → S → Option S} {es : List E}
    (h : ∀ e ∈ es, ∀ s, step e s = step' e s) (s : S) : runs step es s = runs step' es s := by
  induction es generalizing s with
  | nil => rfl
  | cons e rest ih =>
      rw [runs_cons, runs_cons, h e List.mem_cons_self]
      cases step' e s with
      | none => rfl
      | some s' => exact ih (fun e' he' => h e' (List.mem_cons_of_mem _ he')) s'

/-- Feed one event to both components of a pair. -/
def stepBoth (step : E → S → Option S) (e : E) (p : S × S) : Option (S × S) :=
  (step e p.1).bind fun s => (step e p.2).map fun t => (s, t)

theorem stepBoth_eq_some {e : E} {p : S × S} {s t : S} (hs : step e p.1 = some s)
    (ht : step e p.2 = some t) : stepBoth step e p = some (s, t) := by
  rw [stepBoth, hs, Option.bind_some, ht, Option.map_some]

/-- A lockstep run is two runs. -/
theorem runs_stepBoth {es : List E} {s t s' t' : S} (hs : runs step es s = some s')
    (ht : runs step es t = some t') :
    runs (stepBoth step) es (s, t) = some (s', t') := by
  induction es generalizing s t with
  | nil =>
      cases hs
      cases ht
      rfl
  | cons e rest ih =>
      rw [runs_cons, Option.bind_eq_some_iff] at hs ht
      obtain ⟨s₁, hs₁, hs⟩ := hs
      obtain ⟨t₁, ht₁, ht⟩ := ht
      rw [runs_cons, stepBoth_eq_some hs₁ ht₁, Option.bind_some]
      exact ih hs ht

end Runs
