/-!
# Runs guarded step by step

A property that one step keeps exactly when the step is safe holds along a
whole run exactly when all its steps are safe. Safety may depend on the state
in which the step is taken.
-/

namespace GuardedRuns

universe u v

variable {σ : Type u} {α : Type v} {step : σ → α → σ} {P : σ → Prop} {safe : σ → α → Prop}

/-- The property holds in every state of the run. -/
def Always (step : σ → α → σ) (P : σ → Prop) (s : σ) (calls : List α) : Prop :=
  ∀ k, P ((calls.take k).foldl step s)

/-- Every step of the run is safe in the state where it is taken. -/
def Guarded (step : σ → α → σ) (safe : σ → α → Prop) (s : σ) (calls : List α) : Prop :=
  ∀ k a, calls[k]? = some a → safe ((calls.take k).foldl step s) a

theorem always_nil {s : σ} : Always step P s [] ↔ P s :=
  ⟨fun h => h 0, fun h k => by rwa [List.take_nil]⟩

theorem always_cons {s : σ} {a : α} {calls : List α} :
    Always step P s (a :: calls) ↔ P s ∧ Always step P (step s a) calls := by
  constructor
  · exact fun h => ⟨h 0, fun k => h (k + 1)⟩
  · rintro ⟨h0, h⟩ k
    cases k with
    | zero => exact h0
    | succ k => exact h k

theorem guarded_cons {s : σ} {a : α} {calls : List α} :
    Guarded step safe s (a :: calls) ↔ safe s a ∧ Guarded step safe (step s a) calls := by
  constructor
  · exact fun h => ⟨h 0 a rfl, fun k b hb => h (k + 1) b hb⟩
  · rintro ⟨h0, h⟩ k b hb
    cases k with
    | zero =>
      cases hb
      exact h0
    | succ k => exact h k b hb

/-- A step lemma that is an equivalence gives one for whole runs. -/
theorem always_iff_guarded (hstep : ∀ s a, P s → (P (step s a) ↔ safe s a)) {s : σ} (hs : P s)
    (calls : List α) : Always step P s calls ↔ Guarded step safe s calls := by
  induction calls generalizing s with
  | nil =>
    rw [always_nil]
    exact ⟨fun _ k a ha => by simp at ha, fun _ => hs⟩
  | cons a calls ih =>
    rw [always_cons, guarded_cons, ← hstep s a hs]
    constructor
    · rintro ⟨_, h⟩
      have hnext : P (step s a) := h 0
      exact ⟨hnext, (ih hnext).mp h⟩
    · rintro ⟨hnext, h⟩
      exact ⟨hs, (ih hnext).mpr h⟩

end GuardedRuns
