import Mathlib.Tactic.Common

/-! # Emitters — code that inserts calls and may leave early

    An emitter appends items of type `C` one by one and ends in one of three
    ways: it completes with a value, it returns before its last line, or it
    aborts.  What was emitted before an early end stays emitted.

    Four properties of an emitter, each with a rule for sequencing, so that a
    property of a long emitter is put together from those of its parts:

    * `Tracked step P e Q`: a monitor that is fed the items never fails, and
      moves from `P` to `Q` when the emitter completes;
    * `Emits φ e`: an emitter that completes has emitted an item in `φ`;
    * `EndsWith φ e`: an emitter that completes has emitted one in `φ` last;
    * `EmitsOnly φ e`: all that the emitter emits is in `φ`, however it ends. -/

namespace Emission

/-- How an emitter ends before its last line. -/
inductive Exit where
  | returned
  | aborted
deriving DecidableEq, Repr

/-- The items emitted, and how it ended. -/
structure Emitter (C α : Type) where
  calls : List C
  result : Except Exit α

variable {C α β : Type} {σ : Type*}

/-- Sequencing: the second part runs only if the first completes. -/
def Emitter.andThen (x : Emitter C α) (f : α → Emitter C β) : Emitter C β :=
  match x.result with
  | .ok a => ⟨x.calls ++ (f a).calls, (f a).result⟩
  | .error e => ⟨x.calls, .error e⟩

instance : Monad (Emitter C) where
  pure a := ⟨[], .ok a⟩
  bind := Emitter.andThen

/-- Emit one item. -/
def emit (c : C) : Emitter C Unit := ⟨[c], .ok ()⟩

/-- `return` before the last line. -/
def leave : Emitter C α := ⟨[], .error .returned⟩

/-- `abort()`. -/
def abort : Emitter C α := ⟨[], .error .aborted⟩

/-- The emitter reached its last line. -/
def Completes (x : Emitter C α) : Prop := ∃ a, x.result = .ok a

@[simp] theorem not_completes_leave : ¬ Completes (leave : Emitter C α) :=
  fun ⟨_, h⟩ => nomatch h

@[simp] theorem not_completes_abort : ¬ Completes (abort : Emitter C α) :=
  fun ⟨_, h⟩ => nomatch h

theorem bind_of_ok {x : Emitter C α} {a : α} (h : x.result = .ok a) (f : α → Emitter C β) :
    x >>= f = ⟨x.calls ++ (f a).calls, (f a).result⟩ := by
  show x.andThen f = _
  rw [Emitter.andThen, h]

theorem bind_of_error {x : Emitter C α} {e : Exit} (h : x.result = .error e)
    (f : α → Emitter C β) : x >>= f = ⟨x.calls, .error e⟩ := by
  show x.andThen f = _
  rw [Emitter.andThen, h]

@[simp] theorem leave_bind (f : α → Emitter C β) : (leave : Emitter C α) >>= f = leave := rfl

/-- A sequence completes exactly when both parts do. -/
theorem completes_bind {x : Emitter C α} {f : α → Emitter C β} :
    Completes (x >>= f) ↔ ∃ a, x.result = .ok a ∧ Completes (f a) := by
  cases h : x.result with
  | ok a =>
      rw [bind_of_ok h]
      simp [Completes]
  | error e =>
      rw [bind_of_error h]
      simp [Completes]

/-- Fed the items from a state in `P`, the monitor `step` does not fail, and is
    in `Q` when the emitter completes. -/
def Tracked (step : σ → C → Option σ) (P : σ → Prop) (x : Emitter C α) (Q : σ → Prop) : Prop :=
  ∀ s, P s → ∃ s', x.calls.foldlM step s = some s' ∧ (Completes x → Q s')

variable {step : σ → C → Option σ} {P Q R : σ → Prop}

theorem Tracked.bind {x : Emitter C α} {f : α → Emitter C β} (hx : Tracked step P x Q)
    (hf : ∀ a, Tracked step Q (f a) R) : Tracked step P (x >>= f) R := by
  intro s hs
  obtain ⟨s₁, h₁, hQ⟩ := hx s hs
  cases h : x.result with
  | ok a =>
      obtain ⟨s₂, h₂, hR⟩ := hf a s₁ (hQ ⟨a, h⟩)
      rw [bind_of_ok h]
      refine ⟨s₂, ?_, hR⟩
      rw [List.foldlM_append, h₁]
      exact h₂
  | error e =>
      rw [bind_of_error h]
      exact ⟨s₁, h₁, fun ⟨_, hc⟩ => nomatch hc⟩

theorem Tracked.emit {c : C} (h : ∀ s, P s → ∃ s', step s c = some s' ∧ Q s') :
    Tracked step P (emit c) Q := by
  intro s hs
  obtain ⟨s', hs', hQ⟩ := h s hs
  refine ⟨s', ?_, fun _ => hQ⟩
  show [c].foldlM step s = some s'
  rw [List.foldlM_cons, hs']
  rfl

theorem Tracked.leave : Tracked step P (leave : Emitter C α) Q :=
  fun s _ => ⟨s, rfl, fun h => absurd h not_completes_leave⟩

theorem Tracked.abort : Tracked step P (abort : Emitter C α) Q :=
  fun s _ => ⟨s, rfl, fun h => absurd h not_completes_abort⟩

theorem Tracked.pure {a : α} : Tracked step P (pure a : Emitter C α) P :=
  fun s hs => ⟨s, rfl, fun _ => hs⟩

theorem Tracked.weaken {x : Emitter C α} (h : Tracked step P x Q) (hQ : ∀ s, Q s → R s) :
    Tracked step P x R := by
  intro s hs
  obtain ⟨s', hs', hq⟩ := h s hs
  exact ⟨s', hs', fun hc => hQ s' (hq hc)⟩

/-! ## Items emitted -/

variable {φ : C → Prop}

/-- An emitter that completes has emitted an item in `φ`. -/
def Emits (φ : C → Prop) (x : Emitter C α) : Prop := Completes x → ∃ c ∈ x.calls, φ c

theorem Emits.emit {c : C} (h : φ c) : Emits φ (emit c) :=
  fun _ => ⟨c, List.mem_singleton.mpr rfl, h⟩

theorem Emits.leave : Emits φ (leave : Emitter C α) := fun h => absurd h not_completes_leave

theorem Emits.abort : Emits φ (abort : Emitter C α) := fun h => absurd h not_completes_abort

/-- The item may come from the first part. -/
theorem Emits.bind_left {x : Emitter C α} {f : α → Emitter C β} (h : Emits φ x) :
    Emits φ (x >>= f) := by
  intro hc
  obtain ⟨a, ha, -⟩ := completes_bind.mp hc
  obtain ⟨c, hmem, hφ⟩ := h ⟨a, ha⟩
  rw [bind_of_ok ha]
  exact ⟨c, List.mem_append_left _ hmem, hφ⟩

/-- The item may come from the second part. -/
theorem Emits.bind_right {x : Emitter C α} {f : α → Emitter C β} (h : ∀ a, Emits φ (f a)) :
    Emits φ (x >>= f) := by
  intro hc
  obtain ⟨a, ha, hfa⟩ := completes_bind.mp hc
  obtain ⟨c, hmem, hφ⟩ := h a hfa
  rw [bind_of_ok ha]
  exact ⟨c, List.mem_append_right _ hmem, hφ⟩

/-- The last item of an emitter that completes is in `φ`. -/
def EndsWith (φ : C → Prop) (x : Emitter C α) : Prop :=
  Completes x → ∃ pre c, x.calls = pre ++ [c] ∧ φ c

theorem EndsWith.emit {c : C} (h : φ c) : EndsWith φ (emit c) :=
  fun _ => ⟨[], c, rfl, h⟩

theorem EndsWith.abort : EndsWith φ (abort : Emitter C α) :=
  fun h => absurd h not_completes_abort

theorem EndsWith.bind {x : Emitter C α} {f : α → Emitter C β} (h : ∀ a, EndsWith φ (f a)) :
    EndsWith φ (x >>= f) := by
  intro hc
  obtain ⟨a, ha, hfa⟩ := completes_bind.mp hc
  obtain ⟨pre, c, hcalls, hφ⟩ := h a hfa
  rw [bind_of_ok ha]
  exact ⟨x.calls ++ pre, c, by rw [hcalls, List.append_assoc], hφ⟩

/-- Every item emitted is in `φ`. -/
def EmitsOnly (φ : C → Prop) (x : Emitter C α) : Prop := ∀ c ∈ x.calls, φ c

theorem EmitsOnly.emit {c : C} (h : φ c) : EmitsOnly φ (emit c) := by
  intro d hd
  rw [List.mem_singleton.mp hd]
  exact h

theorem EmitsOnly.leave : EmitsOnly φ (leave : Emitter C α) :=
  fun _ hc => absurd hc List.not_mem_nil

theorem EmitsOnly.abort : EmitsOnly φ (abort : Emitter C α) :=
  fun _ hc => absurd hc List.not_mem_nil

theorem EmitsOnly.pure {a : α} : EmitsOnly φ (pure a : Emitter C α) :=
  fun _ hc => absurd hc List.not_mem_nil

theorem EmitsOnly.bind {x : Emitter C α} {f : α → Emitter C β} (hx : EmitsOnly φ x)
    (hf : ∀ a, EmitsOnly φ (f a)) : EmitsOnly φ (x >>= f) := by
  cases h : x.result with
  | ok a =>
      rw [bind_of_ok h]
      intro c hc
      exact (List.mem_append.mp hc).elim (hx c) (hf a c)
  | error e =>
      rw [bind_of_error h]
      exact hx

end Emission
