import Mathlib.Data.List.Basic

/-!
# Errors with a mark

An error can carry a mark that says where it arose. Marks can be erased, and
for some of them one can ask whether a computation fails with one of these.
-/

namespace MarkedErrors

universe u v

variable {S ε : Type u} {α β σ : Type v} {s : S} {bad : S → Prop} {a : α}

/-- A computation whose errors are marked. -/
abbrev Marked (S ε : Type u) (α : Type v) := Except (S × ε) α

/-- All errors of a computation get the same mark. -/
def mark (s : S) (e : Except ε α) : Marked S ε α := e.mapError (Prod.mk s)

/-- The computation without marks. -/
def erase (e : Marked S ε α) : Except ε α := e.mapError Prod.snd

/-- The computation does not fail with a bad mark. -/
def Avoids (bad : S → Prop) (e : Marked S ε α) : Prop := ∀ s x, bad s → e ≠ .error (s, x)

@[simp]
theorem erase_mark (s : S) (e : Except ε α) : erase (mark s e) = e := by
  cases e <;> rfl

theorem erase_bind (e : Marked S ε α) (g : α → Marked S ε β) :
    erase (e >>= g) = erase e >>= fun a => erase (g a) := by
  cases e <;> rfl

theorem bind_eq_ok {e : Marked S ε α} {g : α → Marked S ε β} {b : β} :
    (e >>= g) = .ok b ↔ ∃ a, e = .ok a ∧ g a = .ok b := by
  cases e with
  | error x => exact iff_of_false (fun h => by cases h) fun ⟨a, ha, _⟩ => by cases ha
  | ok a => exact ⟨fun h => ⟨a, rfl, h⟩, fun ⟨a', ha', h⟩ => by cases ha'; exact h⟩

/-- Success does not depend on marks. -/
theorem erase_eq_ok {e : Marked S ε α} : erase e = .ok a ↔ e = .ok a := by
  cases e <;> simp [erase, Except.mapError]

theorem mark_eq_ok {e : Except ε α} : mark s e = .ok a ↔ e = .ok a := by
  rw [← erase_eq_ok, erase_mark]

/-- Loops of steps that agree without marks agree without marks. -/
theorem erase_foldlM {step : σ → α → Marked S ε σ} {plain : σ → α → Except ε σ}
    (h : ∀ st a, erase (step st a) = plain st a) (as : List α) (st : σ) :
    erase (as.foldlM step st) = as.foldlM plain st := by
  induction as generalizing st with
  | nil => rfl
  | cons a as ih =>
    rw [List.foldlM_cons, List.foldlM_cons, erase_bind, h]
    exact congrArg (plain st a >>= ·) (funext fun st' => ih st')

/-- A loop of steps with one mark has that mark itself. -/
theorem foldlM_mark {step : σ → α → Except ε σ} (s : S) (as : List α) (st : σ) :
    as.foldlM (fun st a => mark s (step st a)) st = mark s (as.foldlM step st) := by
  induction as generalizing st with
  | nil => rfl
  | cons a as ih =>
    rw [List.foldlM_cons, List.foldlM_cons]
    cases step st a with
    | error x => rfl
    | ok st' => exact ih st'

theorem avoids_ok (bad : S → Prop) (a : α) : Avoids bad (.ok a : Marked S ε α) :=
  fun _ _ _ h => by cases h

theorem avoids_bind {e : Marked S ε α} {g : α → Marked S ε β} :
    Avoids bad (e >>= g) ↔ Avoids bad e ∧ ∀ a, e = .ok a → Avoids bad (g a) := by
  cases e with
  | error x =>
    refine ⟨fun h => ⟨fun s y hs hy => h s y hs ?_, fun a ha => by cases ha⟩,
      fun h s y hs hy => h.1 s y hs ?_⟩
    · cases hy
      rfl
    · cases hy
      rfl
  | ok a => exact ⟨fun h => ⟨avoids_ok bad a, fun a' ha' => by cases ha'; exact h⟩, fun h => h.2 a rfl⟩

/-- A computation with a bad mark avoids it only by success. -/
theorem avoids_mark_iff {e : Except ε α} (hs : bad s) : Avoids bad (mark s e) ↔ ∃ a, e = .ok a := by
  cases e with
  | error x => exact iff_of_false (fun h => h s x hs rfl) fun ⟨a, ha⟩ => by cases ha
  | ok a => exact iff_of_true (avoids_ok bad a) ⟨a, rfl⟩

theorem avoids_mark (hs : ¬ bad s) (e : Except ε α) : Avoids bad (mark s e) := by
  cases e with
  | error x => exact fun t y ht hy => by cases hy; exact hs ht
  | ok a => exact avoids_ok bad a

/-- A loop avoids bad marks if all its steps do. -/
theorem avoids_foldlM {step : σ → α → Marked S ε σ} (as : List α)
    (h : ∀ st, ∀ a ∈ as, Avoids bad (step st a)) (st : σ) : Avoids bad (as.foldlM step st) := by
  induction as generalizing st with
  | nil => exact avoids_ok bad st
  | cons a as ih =>
    rw [List.foldlM_cons, avoids_bind]
    exact ⟨h st a List.mem_cons_self, fun st' _ => ih (fun st a ha => h st a (List.mem_cons_of_mem _ ha)) st'⟩

end MarkedErrors
