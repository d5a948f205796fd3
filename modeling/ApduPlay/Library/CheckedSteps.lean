import Mathlib.Algebra.BigOperators.Group.List.Basic
import Mathlib.Data.List.Basic

/-!
# Steps that can fail

A step is checked when a predicate on its argument says whether it succeeds
and a total function says what it then does. Loops of checked steps are checked.
-/

namespace CheckedSteps

universe u v

variable {σ α : Type u} {ε : Type v}

/-- What a step does while the state keeps an invariant. -/
structure Checked (I : σ → Prop) (safe : α → Prop) (next : σ → α → σ) (step : σ → α → Except ε σ) :
    Prop where
  /-- A safe step succeeds. -/
  ok : ∀ s a, I s → safe a → step s a = .ok (next s a)
  /-- It keeps the invariant. -/
  keep : ∀ s a, I s → safe a → I (next s a)
  /-- An unsafe step fails. -/
  fail : ∀ s a, I s → ¬ safe a → ∃ e, step s a = .error e

variable {I : σ → Prop} {safe : α → Prop} {next : σ → α → σ} {step : σ → α → Except ε σ}

/-- A step that succeeds was safe. -/
theorem Checked.of_ok (h : Checked I safe next step) {s s' : σ} {a : α} (hs : I s)
    (hrun : step s a = .ok s') : safe a ∧ s' = next s a := by
  by_cases ha : safe a
  · rw [h.ok s a hs ha] at hrun
    cases hrun
    exact ⟨ha, rfl⟩
  · obtain ⟨e, he⟩ := h.fail s a hs ha
    rw [hrun] at he
    cases he

/-- A step succeeds exactly if it is safe. -/
theorem Checked.exists_ok_iff (h : Checked I safe next step) {s : σ} (hs : I s) (a : α) :
    (∃ s', step s a = .ok s') ↔ safe a := by
  constructor
  · rintro ⟨s', hrun⟩
    exact (h.of_ok hs hrun).1
  · exact fun ha => ⟨_, h.ok s a hs ha⟩

/-- A loop of checked steps is checked. -/
theorem Checked.loop (h : Checked I safe next step) :
    Checked I (fun as : List α => ∀ a ∈ as, safe a) (fun s as => as.foldl next s)
      (fun s as => as.foldlM step s) where
  ok s as := by
    induction as generalizing s with
    | nil => exact fun _ _ => rfl
    | cons a as ih =>
      intro hs hsafe
      obtain ⟨ha, has⟩ := List.forall_mem_cons.mp hsafe
      rw [List.foldlM_cons, h.ok s a hs ha]
      exact ih (next s a) (h.keep s a hs ha) has
  keep s as := by
    induction as generalizing s with
    | nil => exact fun hs _ => hs
    | cons a as ih =>
      intro hs hsafe
      obtain ⟨ha, has⟩ := List.forall_mem_cons.mp hsafe
      exact ih (next s a) (h.keep s a hs ha) has
  fail s as := by
    induction as generalizing s with
    | nil => exact fun _ hunsafe => absurd (List.forall_mem_nil safe) hunsafe
    | cons a as ih =>
      intro hs hunsafe
      by_cases ha : safe a
      · obtain ⟨e, he⟩ := ih (next s a) (h.keep s a hs ha)
          fun has => hunsafe (List.forall_mem_cons.mpr ⟨ha, has⟩)
        refine ⟨e, ?_⟩
        rw [List.foldlM_cons, h.ok s a hs ha]
        exact he
      · obtain ⟨e, he⟩ := h.fail s a hs ha
        refine ⟨e, ?_⟩
        rw [List.foldlM_cons, he]
        rfl

/-- A loop succeeds exactly if all its steps do, when that does not depend on
the state. -/
theorem exists_foldlM_ok (h : ∀ s a, (∃ s', step s a = .ok s') ↔ safe a) (as : List α) (s : σ) :
    (∃ s', as.foldlM step s = .ok s') ↔ ∀ a ∈ as, safe a := by
  induction as generalizing s with
  | nil => exact ⟨fun _ => List.forall_mem_nil safe, fun _ => ⟨s, rfl⟩⟩
  | cons a as ih =>
    rw [List.foldlM_cons, List.forall_mem_cons, ← h s a]
    cases hstep : step s a with
    | error e => exact ⟨fun ⟨_, hrun⟩ => (nomatch hrun), fun ⟨⟨_, hok⟩, _⟩ => (nomatch hok)⟩
    | ok s' => exact (ih s').trans (and_iff_right ⟨s', rfl⟩).symm

/-- A loop whose rounds add something adds the sum. -/
theorem foldlM_add {M : Type u} [AddMonoid M] {step : M → α → Except ε M} {term : α → M} {as : List α}
    (h : ∀ s, ∀ a ∈ as, step s a = .ok (s + term a)) (s : M) :
    as.foldlM step s = .ok (s + (as.map term).sum) := by
  induction as generalizing s with
  | nil => exact congrArg Except.ok (add_zero s).symm
  | cons a as ih =>
    rw [List.foldlM_cons, h s a List.mem_cons_self]
    refine (ih (fun s b hb => h s b (List.mem_cons_of_mem a hb)) (s + term a)).trans ?_
    rw [List.map_cons, List.sum_cons, add_assoc]

/-- Every step of a loop that succeeds does. -/
theorem of_foldlM_ok {step : σ → α → Except ε σ} {as : List α} {s s' : σ}
    (hrun : as.foldlM step s = .ok s') : ∀ a ∈ as, ∃ t t', step t a = .ok t' := by
  induction as generalizing s with
  | nil => exact List.forall_mem_nil _
  | cons a as ih =>
    rw [List.foldlM_cons] at hrun
    cases hstep : step s a with
    | error e =>
      rw [hstep] at hrun
      cases hrun
    | ok t =>
      rw [hstep] at hrun
      exact List.forall_mem_cons.mpr ⟨⟨s, t, hstep⟩, ih hrun⟩

end CheckedSteps
