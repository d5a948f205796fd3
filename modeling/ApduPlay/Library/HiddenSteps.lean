import Mathlib.Data.List.Basic

/-!
# Runs of which some steps are hidden

A machine that may fail is compared with another one that never does. In every
state some requests are shown to the other machine, which answers them in the
same way, and the others leave its state alone. Then what is shown of a run is a
run of the other machine.
-/

namespace HiddenSteps

universe u v

variable {σ α β : Type u} {τ : Type v} {ε : Type v}

/-- A step of a run. -/
structure Event (σ α β : Type u) where
  /-- State before it. -/
  state : σ
  /-- What is asked. -/
  request : α
  /-- What is answered. -/
  answer : β

/-- Run a machine that may fail. -/
def run (step : σ → α → Except ε (β × σ)) : σ → List α → Except ε (List (Event σ α β) × σ)
  | s, [] => .ok ([], s)
  | s, a :: as =>
    match step s a with
    | .error e => .error e
    | .ok (b, s') =>
      match run step s' as with
      | .error e => .error e
      | .ok (events, last) => .ok (⟨s, a, b⟩ :: events, last)

/-- Run a machine. -/
def runTotal (step : τ → α → β × τ) : τ → List α → List β × τ
  | t, [] => ([], t)
  | t, a :: as =>
    let first := step t a
    let rest := runTotal step first.2 as
    (first.1 :: rest.1, rest.2)

/-- The steps that are shown. -/
def shownEvents (shown : σ → α → Bool) (events : List (Event σ α β)) : List (Event σ α β) :=
  events.filter fun e => shown e.state e.request

/-- How the machines belong together. -/
structure Shows (step : σ → α → Except ε (β × σ)) (spec : τ → α → β × τ) (shown : σ → α → Bool)
    (view : σ → τ) : Prop where
  /-- A step that is shown is a step of the other machine. -/
  visible : ∀ s a b s', shown s a = true → step s a = .ok (b, s') → spec (view s) a = (b, view s')
  /-- Any other one is none. -/
  hidden : ∀ s a b s', shown s a = false → step s a = .ok (b, s') → view s' = view s

variable {step : σ → α → Except ε (β × σ)} {spec : τ → α → β × τ} {shown : σ → α → Bool} {view : σ → τ}
  {I : σ → Prop} {s s' : σ} {a : α} {as : List α} {events : List (Event σ α β)}

theorem run_cons_ok (h : run step s (a :: as) = .ok (events, s')) :
    ∃ b s₁ rest, step s a = .ok (b, s₁) ∧ run step s₁ as = .ok (rest, s') ∧ events = ⟨s, a, b⟩ :: rest := by
  rw [run] at h
  cases hstep : step s a with
  | error e =>
    rw [hstep] at h
    cases h
  | ok first =>
    obtain ⟨b, s₁⟩ := first
    rw [hstep] at h
    dsimp only at h
    cases hrest : run step s₁ as with
    | error e =>
      rw [hrest] at h
      cases h
    | ok rest =>
      obtain ⟨rest, last⟩ := rest
      rw [hrest] at h
      cases h
      exact ⟨b, s₁, rest, rfl, hrest, rfl⟩

/-- A run ends if no step fails. -/
theorem run_ok (h : ∀ a ∈ as, ∀ s, ∃ b s', step s a = .ok (b, s')) :
    ∃ events s', run step s as = .ok (events, s') := by
  induction as generalizing s with
  | nil => exact ⟨[], s, rfl⟩
  | cons a as ih =>
    obtain ⟨b, s₁, hstep⟩ := h a List.mem_cons_self s
    obtain ⟨rest, last, hrest⟩ := ih (fun a' ha' => h a' (List.mem_cons_of_mem _ ha')) (s := s₁)
    refine ⟨⟨s, a, b⟩ :: rest, last, ?_⟩
    rw [run, hstep]
    dsimp only
    rw [hrest]

/-- Every request is answered in its turn. -/
theorem run_requests (h : run step s as = .ok (events, s')) : events.map Event.request = as := by
  induction as generalizing s events with
  | nil =>
    cases h
    rfl
  | cons a as ih =>
    obtain ⟨b, s₁, rest, -, hrest, rfl⟩ := run_cons_ok h
    rw [List.map_cons, ih hrest]

/-- What every step keeps holds before all of them. -/
theorem run_invariant (hstep : ∀ s a b s', I s → step s a = .ok (b, s') → I s') (hs : I s)
    (h : run step s as = .ok (events, s')) : ∀ e ∈ events, I e.state := by
  induction as generalizing s events with
  | nil =>
    cases h
    simp
  | cons a as ih =>
    obtain ⟨b, s₁, rest, hfirst, hrest, rfl⟩ := run_cons_ok h
    exact List.forall_mem_cons.mpr ⟨hs, ih (hstep s a b s₁ hs hfirst) hrest⟩

/-- What is shown of a run is a run of the other machine. -/
theorem Shows.run (hshows : Shows step spec shown view) (h : HiddenSteps.run step s as = .ok (events, s')) :
    runTotal spec (view s) ((shownEvents shown events).map Event.request) =
      ((shownEvents shown events).map Event.answer, view s') := by
  induction as generalizing s events with
  | nil =>
    cases h
    rfl
  | cons a as ih =>
    obtain ⟨b, s₁, rest, hstep, hrest, rfl⟩ := run_cons_ok h
    have hih := ih hrest
    cases ha : shown s a with
    | true =>
      have hfilter : shownEvents shown (⟨s, a, b⟩ :: rest) = ⟨s, a, b⟩ :: shownEvents shown rest :=
        List.filter_cons_of_pos ha
      rw [hfilter, List.map_cons, List.map_cons, runTotal, hshows.visible s a b s₁ ha hstep, hih]
    | false =>
      have hfilter : shownEvents shown (⟨s, a, b⟩ :: rest) = shownEvents shown rest :=
        List.filter_cons_of_neg (by simp [ha])
      rw [hfilter, ← hshows.hidden s a b s₁ ha hstep, hih]

end HiddenSteps
