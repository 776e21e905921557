import Dytan.HandlerProofs
import Dytan.RegisterAliasProofs

/-! # Threads — one register map for all of them

    `regTaintMap` is keyed by register name, and no inserted call passes a
    thread: two threads that use a register of one name use one entry.  An
    interleaving, at instruction granularity, is a list of executed
    instructions with the thread that executes each.

    What a thread reads is therefore not what it would read alone.  It is for
    the places the thread owns: an instruction of another thread takes the
    places it may assign, and an instruction of its own gives them back when
    it owns everything they are assigned from. -/

namespace DytanThread

open DytanBitset DytanRegister DytanTaintState DytanMarkFlow DytanRegisterAlias DytanInstruction
open DytanHandler Emission Overwrite

variable {ws : WordSize} {N : Nat} {T : Type} [DecidableEq T]

/-- An instruction with what its execution supplies. -/
structure Executed (ws : WordSize) where
  ins : Ins
  ctx : Ctx ws

/-- The analysis calls of the execution. -/
def Executed.calls (e : Executed ws) : List (Call ws) :=
  callsAt e.ctx (dataflow ws e.ins).calls

/-- The call does not touch memory taint. -/
def noMemory : Call ws → Bool
  | .taintForMemory _ _ _ => false
  | .setTaintForMemory _ _ _ => false
  | .clearTaintForMemory _ _ => false
  | _ => true

/-- A register-only instruction. -/
def Executed.registerOnly (e : Executed ws) : Bool := e.calls.all noMemory

/-- Run the calls of a sequence of executed instructions. -/
def execute (es : List (Executed ws)) (s : TaintState ws N) : Option (TaintState ws N) :=
  run (es.flatMap Executed.calls) s

/-- The sequence of thread `t` in an interleaving. -/
def sequenceOf (t : T) (es : List (T × Executed ws)) : List (Executed ws) :=
  (es.filter fun e => e.1 = t).map Prod.snd

/-- After the interleaving `TaintForRegister` returns for `r` what it returns
    after the sequence of thread `t` alone. -/
def ReadsAlone (t : T) (es : List (T × Executed ws)) (r : Reg) (x : Scratch)
    (s : TaintState ws N) : Prop :=
  ∃ s₁ s₂, execute (es.map Prod.snd) s = some s₁ ∧ execute (sequenceOf t es) s = some s₂
    ∧ readBack r x s₁ = readBack r x s₂

/-- Register taint is per thread. -/
def PerThread (ws : WordSize) (N : Nat) : Prop :=
  ∀ es : List (Bool × Executed ws), (∀ e ∈ es, e.2.registerOnly = true) →
    ∀ (t : Bool) (r : Reg) (x : Scratch) (s : TaintState ws N), SizedState s →
      controlMarks s = ∅ → ReadsAlone t es r x s

theorem execute_cons (e : Executed ws) (es : List (Executed ws)) (s : TaintState ws N) :
    execute (e :: es) s = (run e.calls s).bind (execute es) := by
  unfold execute
  rw [List.flatMap_cons, run_append]

theorem sequenceOf_own {t u : T} (h : u = t) (e : Executed ws) (es : List (T × Executed ws)) :
    sequenceOf t ((u, e) :: es) = e :: sequenceOf t es := by
  simp [sequenceOf, h]

theorem sequenceOf_other {t u : T} (h : u ≠ t) (e : Executed ws)
    (es : List (T × Executed ws)) : sequenceOf t ((u, e) :: es) = sequenceOf t es := by
  simp [sequenceOf, h]

/-- What is owned after own calls. -/
def ownCalls (calls : List (Call ws)) (O : Set (Place ws)) : Set (Place ws) :=
  calls.foldl (fun O c => agreeing O (mayAssign c) (origins c)) O

/-- What is owned after calls of another thread. -/
def otherCalls (calls : List (Call ws)) (O : Set (Place ws)) : Set (Place ws) :=
  {p | p ∈ O ∧ ∀ c ∈ calls, p ∉ mayAssign c}

/-- The places thread `t` owns after an interleaving, when it owns `O` before. -/
def owned (t : T) : List (T × Executed ws) → Set (Place ws) → Set (Place ws)
  | [], O => O
  | (u, e) :: rest, O =>
      owned t rest (if u = t then ownCalls e.calls O else otherCalls e.calls O)

/-- As long as no other thread runs, the thread owns every place. -/
theorem ownCalls_univ (calls : List (Call ws)) : ownCalls calls Set.univ = Set.univ := by
  induction calls with
  | nil => rfl
  | cons c rest ih =>
      rw [ownCalls, List.foldl_cons, agreeing_univ]
      exact ih

theorem ctl_notMem_mayAssign (c : Call ws) (a : Addr ws) : Place.ctl a ∉ mayAssign c := by
  cases c with
  | setTaintForRegister _ _ =>
      rintro ⟨-, r, -, h⟩
      exact nomatch h
  | setTaintForMemory _ _ _ =>
      rintro ⟨b, -, h⟩
      exact nomatch h
  | clearTaintForMemory _ _ =>
      rintro ⟨b, -, h⟩
      exact nomatch h
  | _ => exact fun h => nomatch h

/-- A place a call may assign and leaves alone is an absent key of a clearing
    call. -/
theorem absent_of_spared {c : Call ws} (hc : isData c = true) {s : TaintState ws N}
    {p : Place ws} (hp : p ∈ mayAssign c) (hn : p ∉ targets c s) :
    p ∉ present s ∧ origins c = controlPlaces := by
  cases c with
  | pushControl _ => exact nomatch hc
  | popControl _ => exact nomatch hc
  | clearTaintForRegister r => exact ⟨fun h => hn ⟨hp, h⟩, rfl⟩
  | clearTaintForMemory start size => exact ⟨fun h => hn ⟨hp, h⟩, rfl⟩
  | _ => exact absurd hp hn

/-- Without control taint a clearing call acts on absent keys as on others, so
    every data-flow call overwrites what it may assign. -/
theorem step_overwrites {s : TaintState ws N} (hs : SizedState s) (hctl : controlMarks s = ∅)
    {c : Call ws} (hc : isData c = true) :
    ∃ s', step c s = some s' ∧ SizedState s' ∧ controlMarks s' = ∅
      ∧ marksAt s' = overwrite (mayAssign c) (origins c) (marksAt s) := by
  obtain ⟨s', hstep, hs', hm⟩ := step_marks hs c
  have hmarks : marksAt s' = overwrite (mayAssign c) (origins c) (marksAt s) := by
    rw [hm]
    funext p
    by_cases hp : p ∈ mayAssign c
    · rw [overwrite_of_mem hp]
      by_cases ht : p ∈ targets c s
      · rw [overwrite_of_mem ht]
      · -- an absent key has no marks, and neither has the control taint
        obtain ⟨habs, horigins⟩ := absent_of_spared hc hp ht
        rw [overwrite_of_notMem ht, marksAt_of_absent habs, horigins]
        exact hctl.symm
    · rw [overwrite_of_notMem hp,
        overwrite_of_notMem fun ht => hp (targets_subset_mayAssign hc s ht)]
  refine ⟨s', hstep, hs', ?_, hmarks⟩
  have hkeep : AgreeOn controlPlaces (marksAt s') (marksAt s) := by
    rintro p ⟨a, rfl⟩
    rw [hmarks, overwrite_of_notMem (ctl_notMem_mayAssign c a)]
  rw [controlMarks, hkeep.gathered_eq subset_rfl]
  exact hctl

/-! ## The interleaved run and the run alone -/

/-- The two runs: both states are sized and without control taint, and they
    have the same marks at the places of `O`. -/
structure Alike (O : Set (Place ws)) (s₁ s₂ : TaintState ws N) : Prop where
  sized₁ : SizedState s₁
  sized₂ : SizedState s₂
  control₁ : controlMarks s₁ = ∅
  control₂ : controlMarks s₂ = ∅
  agree : AgreeOn O (marksAt s₁) (marksAt s₂)

/-- An instruction of the thread: both runs execute its calls. -/
theorem Alike.own {O : Set (Place ws)} {s₁ s₂ : TaintState ws N} (h : Alike O s₁ s₂)
    {calls : List (Call ws)} (hdata : ∀ c ∈ calls, isData c = true) :
    ∃ t₁ t₂, run calls s₁ = some t₁ ∧ run calls s₂ = some t₂
      ∧ Alike (ownCalls calls O) t₁ t₂ := by
  induction calls generalizing O s₁ s₂ with
  | nil => exact ⟨s₁, s₂, rfl, rfl, h⟩
  | cons c rest ih =>
      have hc := hdata c List.mem_cons_self
      obtain ⟨u₁, hstep₁, hu₁, hctl₁, hm₁⟩ := step_overwrites h.sized₁ h.control₁ hc
      obtain ⟨u₂, hstep₂, hu₂, hctl₂, hm₂⟩ := step_overwrites h.sized₂ h.control₂ hc
      have halike : Alike (agreeing O (mayAssign c) (origins c)) u₁ u₂ := by
        refine ⟨hu₁, hu₂, hctl₁, hctl₂, ?_⟩
        rw [hm₁, hm₂]
        exact h.agree.overwrite
      obtain ⟨t₁, t₂, hrun₁, hrun₂, hfinal⟩ :=
        ih halike fun d hd => hdata d (List.mem_cons_of_mem _ hd)
      refine ⟨t₁, t₂, ?_, ?_, hfinal⟩
      · rw [run_cons, hstep₁]
        exact hrun₁
      · rw [run_cons, hstep₂]
        exact hrun₂

/-- An instruction of another thread: only the interleaved run executes it. -/
theorem Alike.other {O : Set (Place ws)} {s₁ s₂ : TaintState ws N} (h : Alike O s₁ s₂)
    {calls : List (Call ws)} (hdata : ∀ c ∈ calls, isData c = true) :
    ∃ t₁, run calls s₁ = some t₁ ∧ Alike (otherCalls calls O) t₁ s₂ := by
  obtain ⟨t₁, hrun, ht₁, hframe, hctl⟩ := run_frame hdata h.sized₁
  refine ⟨t₁, hrun, ht₁, h.sized₂, hctl.trans h.control₁, h.control₂, ?_⟩
  rintro p ⟨hp, hnone⟩
  rw [marksAt, hframe p hnone]
  exact h.agree p hp

/-- **The two runs agree on what the thread owns**, at the end of every
    interleaving. -/
theorem Alike.execute (t : T) (es : List (T × Executed ws)) {O : Set (Place ws)}
    {s₁ s₂ : TaintState ws N} (h : Alike O s₁ s₂) :
    ∃ t₁ t₂, execute (es.map Prod.snd) s₁ = some t₁ ∧ execute (sequenceOf t es) s₂ = some t₂
      ∧ Alike (owned t es O) t₁ t₂ := by
  induction es generalizing O s₁ s₂ with
  | nil => exact ⟨s₁, s₂, rfl, rfl, h⟩
  | cons event rest ih =>
      -- only an own instruction is in both runs
      obtain ⟨u, e⟩ := event
      have hdata : ∀ c ∈ e.calls, isData c = true := isData_callsAt e.ctx _
      rw [List.map_cons, execute_cons, owned]
      by_cases hu : u = t
      · obtain ⟨u₁, u₂, hrun₁, hrun₂, halike⟩ := h.own hdata
        rw [if_pos hu, sequenceOf_own hu, execute_cons, hrun₁, hrun₂]
        exact ih halike
      · obtain ⟨u₁, hrun₁, halike⟩ := h.other hdata
        rw [if_neg hu, sequenceOf_other hu, hrun₁]
        exact ih halike

/-- **Register taint follows ownership**: from every state without control
    taint, for every interleaving of the instructions of any threads, a register
    the thread owns at the end reads as after the thread's sequence alone. -/
theorem readsAlone_of_owned {t : T} {es : List (T × Executed ws)} {r : Reg} {x : Scratch}
    {s : TaintState ws N} (hs : SizedState s) (hctl : controlMarks s = ∅)
    (hown : Place.reg r ∈ owned t es Set.univ) : ReadsAlone t es r x s := by
  have hstart : Alike Set.univ s s := ⟨hs, hs, hctl, hctl, fun _ _ => rfl⟩
  obtain ⟨s₁, s₂, hrun₁, hrun₂, hend⟩ := hstart.execute t es
  refine ⟨s₁, s₂, hrun₁, hrun₂, ?_⟩
  rw [readBack_eq hend.sized₁, readBack_eq hend.sized₂]
  exact hend.agree _ hown

/-! ## Two threads -/

/-- `mov dest, src` on 32-bit registers. -/
def mov (dest src : Reg) : Executed .w64 where
  ins := onRegisters .MOV [(dest, 32), (src, 32)]
  ctx := writesAt .w64 0 0

theorem calls_mov (dest src : Reg) : (mov dest src).calls
    = [.taintForRegister src .src, .setTaintForRegister dest [.src]] := rfl

/-- A state whose EBX carries mark 0. -/
def ebxTainted : TaintState .w64 1 :=
  { TaintState.init .w64 1 with
    regTaintMap := Function.update (fun _ => none) .ebx (some markZero) }

theorem assigns_ebxTainted :
    Assigns {.reg .ebx} (some markZero) (TaintState.init .w64 1) ebxTainted where
  target := by
    rintro p rfl
    rfl
  frame := by
    intro p hp
    cases p with
    | reg r =>
        have hr : r ≠ .ebx := fun h => hp (by rw [h]; rfl)
        show Function.update (fun _ => none) Reg.ebx (some markZero) r = none
        rw [Function.update_of_ne hr]
    | _ => rfl
  sized := by
    rintro b hb
    cases hb
    exact markZero_sized _ List.mem_cons_self
  tags := init_sized.tags

theorem controlMarks_ebxTainted : controlMarks ebxTainted = ∅ := by
  ext m
  rw [mem_controlMarks]
  simp [ebxTainted, TaintState.init]

/-- The other thread writes EDX and not EAX, and the read of EAX is that of
    the thread alone. -/
theorem readsAlone_eax :
    ReadsAlone false [(false, mov .eax .ecx), (true, mov .edx .ebx)] .eax .dest ebxTainted := by
  refine readsAlone_of_owned (assigns_ebxTainted.sizedState init_sized)
    controlMarks_ebxTainted ?_
  have hedx : ∀ c ∈ (mov .edx .ebx).calls, Place.reg .eax ∉ mayAssign c := by
    rw [calls_mov]
    intro c hc
    rcases List.mem_pair.mp hc with rfl | rfl
    · exact fun h => nomatch h
    · rintro ⟨-, r, hr, heq⟩
      cases heq
      exact absurd hr (by decide)
  rw [owned, if_pos rfl, ownCalls_univ, owned, if_neg (by decide), owned]
  exact ⟨Set.mem_univ _, hedx⟩

/-- Both threads write EAX: the first reads there the mark that the second
    moved from EBX. -/
theorem shared_eax : ¬ PerThread .w64 1 := by
  intro hper
  obtain ⟨s₁, s₂, hrun₁, hrun₂, hsame⟩ :=
    hper [(false, mov .eax .ecx), (true, mov .eax .ebx)] (by decide) false .eax .dest ebxTainted
      (assigns_ebxTainted.sizedState init_sized) controlMarks_ebxTainted
  have hread : 0 ∈ readBack .eax .dest s₁ := by
    cases hrun₁
    exact ⟨_, rfl, by decide, by decide⟩
  rw [hsame] at hread
  cases hrun₂
  obtain ⟨t, ht, hm⟩ := hread
  cases ht
  exact absurd hm.2 (by decide)

end DytanThread
