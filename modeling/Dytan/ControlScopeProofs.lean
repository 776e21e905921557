import Dytan.MarkFlowProofs

/-! # Control scopes — pushing and popping the taint of branches

    `PushControl(a)` opens the scope of the branch at `a`, and `PopControl`
    at the post-dominator closes it.  Two questions about scopes:

    * does one `PopControl(n, a1, …, an)` close all the scopes it lists?
      It stops at the first address without an entry, so exactly when every
      listed key is preceded by distinct keys only;
    * does an entry survive until the scope that pushed it is closed?  The
      map is keyed by the static address of the branch, so an inner
      activation of the same routine closes the scope of an outer one.  In
      runs where no such pop happens, the open scopes stay covered. -/

namespace DytanControlScope

open DytanBitset DytanRegister DytanTaintState DytanMarkFlow Overwrite Runs

variable {ws : WordSize} {N : Nat}

/-! ## One `PopControl` -/

/-- `a` is a key, and the listed addresses before it are distinct keys. -/
def Reached (addrs : List (Addr ws)) (m : Std.ExtTreeMap (Addr ws) (Bitset ws.bits))
    (a : Addr ws) : Prop :=
  ∃ before after, addrs = before ++ a :: after ∧ (a :: before).Nodup
    ∧ ∀ x ∈ a :: before, x ∈ m

/-- `PopControl` erases the addresses it reaches. -/
theorem mem_popped_iff (addrs : List (Addr ws))
    (m : Std.ExtTreeMap (Addr ws) (Bitset ws.bits)) (a : Addr ws) :
    a ∈ popped addrs m ↔ Reached addrs m a := by
  induction addrs generalizing m with
  | nil =>
      constructor
      · intro h
        cases h
      · rintro ⟨before, after, h, -⟩
        exact absurd h (by simp)
  | cons x rest ih =>
      rw [popped]
      by_cases hx : x ∈ m
      · -- `x` is erased first, so an address reached later is another one
        rw [if_pos hx, List.mem_cons, ih]
        constructor
        · rintro (rfl | ⟨before, after, rfl, hnd, hkeys⟩)
          · exact ⟨[], rest, rfl, by simp, by simpa using hx⟩
          · have hne : ∀ y ∈ a :: before, x ≠ y ∧ y ∈ m := by
              intro y hy
              have := hkeys y hy
              rw [Std.ExtTreeMap.mem_erase] at this
              exact ⟨by simpa using this.1, this.2⟩
            refine ⟨x :: before, after, rfl, ?_, ?_⟩
            · have hperm : (x :: a :: before).Nodup :=
                List.nodup_cons.mpr ⟨fun hmem => (hne x hmem).1 rfl, hnd⟩
              exact (List.Perm.swap x a before).nodup_iff.mpr hperm
            · intro y hy
              rcases List.mem_cons.mp hy with rfl | hy
              · exact (hne y List.mem_cons_self).2
              · rcases List.mem_cons.mp hy with rfl | hy
                · exact hx
                · exact (hne y (List.mem_cons_of_mem _ hy)).2
        · rintro ⟨before, after, h, hnd, hkeys⟩
          cases before with
          | nil =>
              left
              simp only [List.nil_append, List.cons.injEq] at h
              exact h.1.symm
          | cons y before' =>
              right
              simp only [List.cons_append, List.cons.injEq] at h
              obtain ⟨rfl, hrest⟩ := h
              have hperm := (List.Perm.swap x a before').nodup_iff.mp hnd
              obtain ⟨hnotin, hnd'⟩ := List.nodup_cons.mp hperm
              refine ⟨before', after, hrest, hnd', ?_⟩
              intro z hz
              rw [Std.ExtTreeMap.mem_erase]
              refine ⟨?_, ?_⟩
              · have : x ≠ z := by
                  rintro rfl
                  exact hnotin hz
                simpa using this
              · rcases List.mem_cons.mp hz with rfl | hz
                · exact hkeys z List.mem_cons_self
                · exact hkeys z (List.mem_cons_of_mem _ (List.mem_cons_of_mem _ hz))
      · rw [if_neg hx]
        constructor
        · intro h
          cases h
        · rintro ⟨before, after, h, -, hkeys⟩
          -- the head of the list is not a key, so nothing is reached
          cases before with
          | nil =>
              simp only [List.nil_append, List.cons.injEq] at h
              rw [← h.1] at hkeys
              exact absurd (hkeys x List.mem_cons_self) hx
          | cons y before' =>
              simp only [List.cons_append, List.cons.injEq] at h
              rw [← h.1] at hkeys
              exact absurd (hkeys x (List.mem_cons_of_mem _ List.mem_cons_self)) hx

/-- Only listed addresses are erased. -/
theorem mem_of_mem_popped {addrs : List (Addr ws)}
    {m : Std.ExtTreeMap (Addr ws) (Bitset ws.bits)} {a : Addr ws}
    (h : a ∈ popped addrs m) : a ∈ addrs := by
  obtain ⟨before, after, rfl, -⟩ := (mem_popped_iff addrs m a).mp h
  simp

/-- `PopControl` removes every listed address and leaves every other entry. -/
def PopsListed (addrs : List (Addr ws)) (s : TaintState ws N) : Prop :=
  (∀ a ∈ addrs, a ∉ (popControl addrs s).controlTaintMap)
    ∧ ∀ a, a ∉ addrs →
        (popControl addrs s).controlTaintMap[a]? = s.controlTaintMap[a]?

/-- **When a pop closes all the scopes it lists**: exactly when each listed key
    is preceded in the list by distinct keys only. -/
theorem popsListed_iff (addrs : List (Addr ws)) (s : TaintState ws N) :
    PopsListed addrs s ↔
      ∀ a ∈ addrs, a ∈ s.controlTaintMap → Reached addrs s.controlTaintMap a := by
  have hkey : ∀ a, a ∈ (popControl addrs s).controlTaintMap
      ↔ a ∉ popped addrs s.controlTaintMap ∧ a ∈ s.controlTaintMap := by
    intro a
    rw [Std.ExtTreeMap.mem_iff_isSome_getElem?, popControl_getElem?,
      Std.ExtTreeMap.mem_iff_isSome_getElem?]
    by_cases ha : a ∈ popped addrs s.controlTaintMap
    · simp [ha]
    · simp [ha]
  constructor
  · rintro ⟨hgone, -⟩ a ha hk
    rw [← mem_popped_iff]
    by_contra hn
    exact hgone a ha ((hkey a).mpr ⟨hn, hk⟩)
  · intro h
    constructor
    · intro a ha hk
      obtain ⟨hn, hks⟩ := (hkey a).mp hk
      exact hn ((mem_popped_iff _ _ _).mpr (h a ha hks))
    · intro a ha
      rw [popControl_getElem?, if_neg fun hp => ha (mem_of_mem_popped hp)]

/-- The branches at 10 and 20 share a post-dominator, and only the second one
    was tainted when it executed: the pop stops at 10 and leaves 20. -/
theorem popControl_stops_early :
    ∃ s, run [.pushControl 20] (flagsTainted .w64 1) = some s
      ∧ ¬ PopsListed [10, 20] s := by
  refine ⟨_, rfl, ?_⟩
  rintro ⟨hgone, -⟩
  exact absurd (hgone 20 (by decide)) (by decide)

/-! ## Nested activations -/

/-- A run of instrumented routines: the taint state, and for every activation
    (innermost first) its open branch executions, each with the flag marks it
    was pushed with. -/
structure Config (ws : WordSize) (N : Nat) where
  taint : TaintState ws N
  frames : List (List (Addr ws × Set Nat))

/-- What an activation does: call, return, execute a branch, reach the
    immediate post-dominator of a branch, or make any other analysis call. -/
inductive Event (ws : WordSize) where
  | enter
  | leave
  | branch (a : Addr ws)
  | join (a : Addr ws)
  | data (c : Call ws)

/-- One event of the innermost activation.  A branch calls `PushControl(a)`
    and opens a scope; its post-dominator calls `PopControl(1, a)` and closes
    the scopes this activation has open for `a`; a return ends its scopes. -/
def stepEvent : Event ws → Config ws N → Option (Config ws N)
  | .enter, ⟨s, frames⟩ => some ⟨s, [] :: frames⟩
  | .leave, ⟨s, _ :: outer⟩ => some ⟨s, outer⟩
  | .branch a, ⟨s, top :: outer⟩ =>
      (pushControl a s).map fun s' =>
        ⟨s', ((a, marksAt s (.reg (flagsReg ws))) :: top) :: outer⟩
  | .join a, ⟨s, top :: outer⟩ =>
      some ⟨popControl [a] s, top.filter (fun e => e.1 ≠ a) :: outer⟩
  | .data c, ⟨s, top :: outer⟩ =>
      if isData c then (step c s).map fun s' => ⟨s', top :: outer⟩ else none
  | _, ⟨_, []⟩ => none

/-- The control taint includes the flag marks of every open branch execution. -/
def Covered (k : Config ws N) : Prop :=
  ∀ f ∈ k.frames, ∀ e ∈ f, e.2 ⊆ controlMarks k.taint

/-- A post-dominator of `a` is reached only while no outer activation has a
    tainted execution of `a` open. -/
def NoOuterOpen : Event ws → Config ws N → Prop
  | .join a, ⟨_, _ :: outer⟩ => ∀ f ∈ outer, ∀ e ∈ f, e.1 = a → e.2 = ∅
  | _, _ => True

/-- The invariant: the entry of each open branch itself holds its marks. -/
def OwnCovered (k : Config ws N) : Prop :=
  SizedState k.taint ∧ ∀ f ∈ k.frames, ∀ e ∈ f, e.2 ⊆ marksAt k.taint (.ctl e.1)

theorem OwnCovered.covered {k : Config ws N} (h : OwnCovered k) : Covered k :=
  fun f hf e he _ hm => ⟨.ctl e.1, ⟨e.1, rfl⟩, h.2 f hf e he hm⟩

/-- A branch adds marks to its own entry and keeps the other entries. -/
theorem pushControl_grows {s s' : TaintState ws N} (hs : SizedState s) {a : Addr ws}
    (h : pushControl a s = some s') :
    SizedState s' ∧ (∀ c, marksAt s (.ctl c) ⊆ marksAt s' (.ctl c))
      ∧ marksAt s (.reg (flagsReg ws)) ⊆ marksAt s' (.ctl a) := by
  obtain ⟨t, e, ht, ha, he⟩ := pushControl_spec hs a
  rw [h] at ht
  cases ht
  have htarget : marksAt s' (.ctl a)
      = marksAt s (.ctl a) ∪ marksAt s (.reg (flagsReg ws)) := by
    rw [← he, marksAt, ha.target (.ctl a) rfl]
  refine ⟨ha.sizedState hs, ?_, ?_⟩
  · intro c
    by_cases hc : c = a
    · subst hc
      rw [htarget]
      exact Set.subset_union_left
    · have hframe : entryAt s' (.ctl c) = entryAt s (.ctl c) :=
        ha.frame (.ctl c) fun h => hc (by cases h; rfl)
      rw [marksAt, marksAt, hframe]
  · rw [htarget]
    exact Set.subset_union_right

/-- Popping one branch keeps the entries of the others. -/
theorem popControl_other (s : TaintState ws N) {a c : Addr ws} (hc : c ≠ a) :
    marksAt (popControl [a] s) (.ctl c) = marksAt s (.ctl c) := by
  have hnot : c ∉ popped [a] s.controlTaintMap :=
    fun h => hc (List.mem_singleton.mp (mem_of_mem_popped h))
  show entryMarks ((popControl [a] s).controlTaintMap[c]?) = entryMarks (s.controlTaintMap[c]?)
  rw [popControl_getElem?, if_neg hnot]

/-- One event that meets the condition keeps every open branch in its entry. -/
theorem ownCovered_step {e : Event ws} {k k' : Config ws N} (hk : OwnCovered k)
    (hcond : NoOuterOpen e k) (hstep : stepEvent e k = some k') : OwnCovered k' := by
  obtain ⟨s, frames⟩ := k
  obtain ⟨hs, hcov⟩ := hk
  cases e with
  | enter =>
      cases hstep
      refine ⟨hs, fun f hf => ?_⟩
      rcases List.mem_cons.mp hf with rfl | hf
      · intro e he
        cases he
      · exact hcov f hf
  | leave =>
      cases frames with
      | nil => cases hstep
      | cons top outer =>
          cases hstep
          exact ⟨hs, fun f hf => hcov f (List.mem_cons_of_mem _ hf)⟩
  | branch a =>
      cases frames with
      | nil => cases hstep
      | cons top outer =>
          simp only [stepEvent, Option.map_eq_some_iff] at hstep
          obtain ⟨s', hpush, rfl⟩ := hstep
          obtain ⟨hs', hgrow, hflags⟩ := pushControl_grows hs hpush
          refine ⟨hs', fun f hf e he => ?_⟩
          -- entries only grow, and the new branch is covered by the flags joined
          rcases List.mem_cons.mp hf with rfl | hf
          · rcases List.mem_cons.mp he with rfl | he
            · exact hflags
            · exact (hcov top List.mem_cons_self e he).trans (hgrow e.1)
          · exact (hcov f (List.mem_cons_of_mem _ hf) e he).trans (hgrow e.1)
  | join a =>
      cases frames with
      | nil => cases hstep
      | cons top outer =>
          cases hstep
          refine ⟨(popControl_spec hs [a]).sizedState hs, fun f hf e he => ?_⟩
          rcases List.mem_cons.mp hf with rfl | hf
          · obtain ⟨he, hne⟩ := List.mem_filter.mp he
            rw [popControl_other s (of_decide_eq_true hne)]
            exact hcov top List.mem_cons_self e he
          · by_cases hea : e.1 = a
            · -- an outer execution of the popped branch was not tainted
              rw [hcond f hf e he hea]
              exact Set.empty_subset _
            · rw [popControl_other s hea]
              exact hcov f (List.mem_cons_of_mem _ hf) e he
  | data c =>
      cases frames with
      | nil => cases hstep
      | cons top outer =>
          by_cases hc : isData c = true
          · simp only [stepEvent, if_pos hc, Option.map_eq_some_iff] at hstep
            obtain ⟨s', hcall, rfl⟩ := hstep
            obtain ⟨t, e, ht, ha, -⟩ := step_assigns hs c
            rw [hcall] at ht
            cases ht
            refine ⟨ha.sizedState hs, fun f hf e he => ?_⟩
            rw [marksAt, ha.frame _ (ctl_notMem_targets hc s e.1)]
            exact hcov f hf e he
          · simp only [stepEvent, if_neg hc] at hstep
            cases hstep

/-- **Open scopes stay covered** in every state of every run of nested
    activations in which no activation pops a branch that an outer one has
    open. -/
theorem covered_of_noOuterOpen {s : TaintState ws N} (hs : SizedState s)
    {es : List (Event ws)} (h : EachStep stepEvent NoOuterOpen es ⟨s, []⟩) :
    Always stepEvent Covered es ⟨s, []⟩ :=
  (always_of_eachStep (fun _ _ _ hk hP hstep => ownCovered_step hk hP hstep)
    ⟨hs, fun _ hf => absurd hf List.not_mem_nil⟩ h).mono fun _ hk => hk.covered

/-- A routine that calls itself inside the scope of its tainted branch at 10:
    the inner activation pops the entry and the outer scope is uncovered. -/
theorem recursion_uncovers :
    ¬ Always stepEvent Covered [.enter, .branch 10, .enter, .branch 10, .join 10]
      ⟨flagsTainted .w64 1, []⟩ := by
  intro h
  obtain ⟨k, hrun, hempty, hframe⟩ : ∃ k, runs stepEvent
      [.enter, .branch 10, .enter, .branch 10, .join 10] ⟨flagsTainted .w64 1, []⟩ = some k
        ∧ k.taint.controlTaintMap.isEmpty = true
        ∧ [(10, marksAt (flagsTainted .w64 1) (.reg .rflags))] ∈ k.frames :=
    ⟨_, rfl, by decide, List.mem_cons_of_mem _ List.mem_cons_self⟩
  have houter : 0 ∈ marksAt (flagsTainted .w64 1) (.reg .rflags) :=
    ⟨_, rfl, by decide, by decide⟩
  obtain ⟨q, ⟨a, rfl⟩, b, hb, -⟩ := h.last hrun _ hframe _ List.mem_cons_self houter
  have hnone : k.taint.controlTaintMap[a]? = none := by
    rw [Std.ExtTreeMap.isEmpty_iff.mp hempty]
    exact Std.ExtTreeMap.getElem?_empty
  exact nomatch hnone.symm.trans hb

/-- The condition is met by a routine that calls another one inside the scope
    of its branch at 10. -/
theorem covered_of_noOuterOpen_call :
    Always stepEvent Covered
      [.enter, .branch 10, .enter, .branch 20, .join 20, .leave, .join 10, .leave]
      (⟨flagsTainted .w64 1, []⟩ : Config .w64 1) := by
  refine covered_of_noOuterOpen (flagsTainted_sized .w64 Nat.one_pos) ?_
  simp [EachStep, stepEvent, NoOuterOpen]
  intro _ _ _ _ h
  exact absurd h (by decide)

end DytanControlScope
