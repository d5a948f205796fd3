import Mathlib.Data.List.Forall2

/-!
# Patterns of columns

A pattern is a list of columns. A column stands for one element that it
accepts, and an optional column may also stand for none. Every element takes a
column, and every column that is not optional takes an element.
-/

namespace ColumnPatterns

universe u v

variable {κ : Type u} {α : Type v} {accepts : κ → α → Prop} {optional : κ → Prop}

/-- The columns describe the elements, in order. -/
inductive Describes (accepts : κ → α → Prop) (optional : κ → Prop) : List κ → List α → Prop
  /-- Nothing is left. -/
  | nil : Describes accepts optional [] []
  /-- A column stands for an element. -/
  | cons {column columns a as} : accepts column a → Describes accepts optional columns as →
      Describes accepts optional (column :: columns) (a :: as)
  /-- A column is absent. -/
  | skip {column columns as} : optional column → Describes accepts optional columns as →
      Describes accepts optional (column :: columns) as

variable {columns columns' : List κ} {as as' : List α}

/-- Parts are described by parts. -/
theorem Describes.append (h : Describes accepts optional columns as)
    (h' : Describes accepts optional columns' as') :
    Describes accepts optional (columns ++ columns') (as ++ as') := by
  induction h with
  | nil => exact h'
  | cons ha _ ih => exact .cons ha ih
  | skip ho _ ih => exact .skip ho ih

/-- Column by column. -/
theorem Describes.of_forall₂ (h : List.Forall₂ accepts columns as) :
    Describes accepts optional columns as := by
  induction h with
  | nil => exact .nil
  | cons ha _ ih => exact .cons ha ih

/-- Columns that are all absent. -/
theorem Describes.of_optional (h : ∀ column ∈ columns, optional column) :
    Describes accepts optional columns [] := by
  induction columns with
  | nil => exact .nil
  | cons column columns ih =>
    obtain ⟨hcolumn, hrest⟩ := List.forall_mem_cons.mp h
    exact .skip hcolumn (ih hrest)

/-- If no column is optional, there is no choice. -/
theorem describes_iff_forall₂ (hrequired : ∀ column ∈ columns, ¬ optional column) :
    Describes accepts optional columns as ↔ List.Forall₂ accepts columns as := by
  constructor
  · intro h
    induction h with
    | nil => exact .nil
    | cons ha _ ih => exact .cons ha (ih (List.forall_mem_cons.mp hrequired).2)
    | skip ho _ _ => exact absurd ho (List.forall_mem_cons.mp hrequired).1
  · exact .of_forall₂

/-- There is an element for every column that is not optional. -/
theorem Describes.countP_le [DecidablePred optional] (h : Describes accepts optional columns as) :
    (columns.countP fun column => ¬ optional column) ≤ as.length := by
  induction h with
  | nil => exact Nat.le_refl _
  | cons _ _ ih =>
    rw [List.countP_cons, List.length_cons]
    exact Nat.add_le_add ih (by split <;> omega)
  | skip ho _ ih =>
    rw [List.countP_cons_of_neg (by simpa using ho)]
    exact ih

end ColumnPatterns
