import Mathlib.Order.Defs.Unbundled

/-!
# Computations that may end with an exception

An exception keeps the state that was reached. A computation advances a relation on states
when it holds between the state before and the one afterwards, with or without exception;
a computation that is composed of such computations is one as well.
-/

namespace ExceptionRuns

universe u

variable {ε σ α β : Type u}

/-- The state in which a computation ends. -/
def endState : EStateM.Result ε σ α → σ
  | .ok _ s => s
  | .error _ s => s

/-- No exception is raised. -/
def Ends (m : EStateM ε σ α) (s : σ) : Prop := ∃ a s', m s = .ok a s'

/-- The state afterwards is related to the one before. -/
def Advances (R : σ → σ → Prop) (m : EStateM ε σ α) : Prop := ∀ s, R s (endState (m s))

variable {R : σ → σ → Prop} {m : EStateM ε σ α} {f : α → EStateM ε σ β} {s s' : σ} {a : α} {e : ε}

/-- A run goes on after a step that ends. -/
theorem bind_ok (hm : m s = .ok a s') : (m >>= f) s = f a s' := by
  simp only [bind, EStateM.bind, hm]

/-- It ends with the exception of its first step. -/
theorem bind_error (hm : m s = .error e s') : (m >>= f) s = .error e s' := by
  simp only [bind, EStateM.bind, hm]

/-- A run with an exception does not end. -/
theorem not_ends_of_error (hm : m s = .error e s') : ¬ Ends m s := by
  rintro ⟨a, s'', hok⟩
  rw [hm] at hok
  cases hok

/-- What comes first has to end. -/
theorem Ends.of_bind (h : Ends (m >>= f) s) : Ends m s := by
  cases hm : m s with
  | ok a s' => exact ⟨a, s', hm⟩
  | error e s' => exact absurd h (not_ends_of_error (bind_error hm))

/-- What comes behind it has to end as well. -/
theorem Ends.bind (hm : Ends m s) (hf : ∀ a s', Ends (f a) s') : Ends (m >>= f) s := by
  obtain ⟨a, s', hrun⟩ := hm
  rw [Ends, bind_ok hrun]
  exact hf a s'

/-- So does what comes behind a step that is known. -/
theorem Ends.behind (h : Ends (m >>= f) s) (hm : m s = .ok a s') : Ends (f a) s' := by
  rwa [Ends, bind_ok hm] at h

/-- A loop ends if every round of it does in every state. -/
theorem ends_foldlM {step : β → α → EStateM ε σ β} {l : List α} (hstep : ∀ a ∈ l, ∀ b s, Ends (step b a) s)
    (b : β) (s : σ) : Ends (l.foldlM step b) s := by
  induction l generalizing b s with
  | nil => exact ⟨b, s, rfl⟩
  | cons a l ih =>
    rw [List.foldlM_cons]
    exact (hstep a List.mem_cons_self b s).bind fun b s =>
      ih (fun a ha => hstep a (List.mem_cons_of_mem _ ha)) b s

/-- A change that advances. -/
theorem advances_modify {g : σ → σ} (hg : ∀ s, R s (g s)) : Advances R (modify g : EStateM ε σ PUnit) :=
  fun s => hg s

theorem forM_cons (a : α) (l : List α) (step : α → EStateM ε σ PUnit) :
    (a :: l).forM step = step a >>= fun _ => l.forM step := rfl

/-- Every round of a loop that ends does so in some state. -/
theorem Ends.of_forM {step : α → EStateM ε σ PUnit} {l : List α} (h : Ends (l.forM step) s) (ha : a ∈ l) :
    ∃ s', Ends (step a) s' := by
  induction l generalizing s with
  | nil => exact absurd ha List.not_mem_nil
  | cons b l ih =>
    rw [forM_cons] at h
    rcases List.mem_cons.mp ha with rfl | ha
    · exact ⟨s, h.of_bind⟩
    · obtain ⟨u, s', hrun⟩ := h.of_bind
      exact ih (h.behind hrun) ha

section Advances

variable [IsPreorder σ R]

/-- Nothing is changed. -/
theorem advances_pure (a : α) : Advances R (pure a : EStateM ε σ α) := fun s => Std.Refl.refl s

/-- Nor is it by an exception. -/
theorem advances_throw (e : ε) : Advances R (throw e : EStateM ε σ α) := fun s => Std.Refl.refl s

/-- Nor by looking. -/
theorem advances_get : Advances R (get : EStateM ε σ σ) := fun s => Std.Refl.refl s

/-- Two steps that advance do so together. -/
theorem Advances.bind (hm : Advances R m) (hf : ∀ a, Advances R (f a)) : Advances R (m >>= f) := by
  intro s
  have hfirst := hm s
  cases hrun : m s with
  | ok a s' =>
    rw [hrun] at hfirst
    rw [bind_ok hrun]
    exact IsTrans.trans _ _ _ hfirst (hf a s')
  | error e s' =>
    rw [hrun] at hfirst
    rw [bind_error hrun]
    exact hfirst

/-- So do the steps of a loop with a result. -/
theorem Advances.foldlM {step : β → α → EStateM ε σ β} (l : List α) (hstep : ∀ b a, Advances R (step b a))
    (b : β) : Advances R (l.foldlM step b) := by
  induction l generalizing b with
  | nil => exact advances_pure b
  | cons a l ih =>
    rw [List.foldlM_cons]
    exact (hstep b a).bind ih

/-- So do those of a loop without one. -/
theorem Advances.forM {step : α → EStateM ε σ PUnit} (l : List α) (hstep : ∀ a, Advances R (step a)) :
    Advances R (l.forM step) := by
  induction l with
  | nil => exact advances_pure _
  | cons a l ih =>
    rw [forM_cons]
    exact (hstep a).bind fun _ => ih

/-- So do those of a loop that collects results. -/
theorem Advances.mapM {step : α → EStateM ε σ β} (l : List α) (hstep : ∀ a, Advances R (step a)) :
    Advances R (l.mapM step) := by
  induction l with
  | nil => exact advances_pure _
  | cons a l ih =>
    rw [List.mapM_cons]
    exact (hstep a).bind fun _ => ih.bind fun _ => advances_pure _

end Advances

/-- The state where a run ends. -/
theorem endState_ok (hm : m s = .ok a s') : endState (m s) = s' := by
  rw [hm, endState]

/-- Steps that only read are taken one after the other. -/
theorem mapM_ok {step : α → EStateM ε σ β} {value : α → β} {l : List α}
    (hstep : ∀ a ∈ l, step a s = .ok (value a) s) : l.mapM step s = .ok (l.map value) s := by
  induction l with
  | nil => rfl
  | cons a l ih =>
    obtain ⟨ha, hl⟩ := List.forall_mem_cons.mp hstep
    rw [List.mapM_cons, bind_ok ha, bind_ok (ih hl)]
    rfl

/-- With a step that fails they do not end. -/
theorem not_ends_mapM {step : α → EStateM ε σ β} {l : List α} (hread : ∀ a ∈ l, endState (step a s) = s)
    (ha : a ∈ l) (hfail : ¬ Ends (step a) s) : ¬ Ends (l.mapM step) s := by
  induction l with
  | nil => exact absurd ha List.not_mem_nil
  | cons b l ih =>
    obtain ⟨hb, hl⟩ := List.forall_mem_cons.mp hread
    rw [List.mapM_cons]
    cases hrun : step b s with
    | error e s' => exact not_ends_of_error (bind_error hrun)
    | ok v s' =>
      rw [hrun] at hb
      obtain rfl : s' = s := hb
      have hmem : a ∈ l := (List.mem_cons.mp ha).resolve_left fun heq => hfail (heq ▸ ⟨v, s', hrun⟩)
      rw [Ends, bind_ok hrun]
      exact fun h => ih hl hmem (Ends.of_bind h)

end ExceptionRuns
