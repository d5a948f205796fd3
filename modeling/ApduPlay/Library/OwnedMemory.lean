import Mathlib.Data.List.Perm.Basic

/-!
# Arrays and their owners

Live arrays are kept with their element type, and deleting an array that is not
live under that type is an error. What is handed out, taken back and lost is
noted in a ledger, which accepts only steps that are sound.
-/

namespace OwnedMemory

universe u v

variable {π κ : Type u} {ε : Type v} [DecidableEq π] [DecidableEq κ]

/-- Addresses of the live arrays and their element types. -/
abbrev Heap (π κ : Type u) := List (π × κ)

/-- Delete an array. -/
def deleteArray (e : ε) (heap : Heap π κ) (kind : κ) (p : π) : Except ε (Heap π κ) :=
  if (p, kind) ∈ heap then .ok (heap.erase (p, kind)) else .error e

/-- Delete arrays one after another. -/
def deleteArrays (e : ε) (kind : κ) : Heap π κ → List π → Except ε (Heap π κ)
  | heap, [] => .ok heap
  | heap, p :: ps =>
    match deleteArray e heap kind p with
    | .error e => .error e
    | .ok heap => deleteArrays e kind heap ps

/-- Addresses that `new` gives out. -/
structure Allocator (π : Type u) where
  /-- An address besides those in use. -/
  new : List π → π
  /-- It is not in use. -/
  new_notMem : ∀ used, new used ∉ used

/-- What happens to arrays. -/
inductive Transfer (π κ : Type u)
  /-- Nothing. -/
  | none
  /-- A new array is handed out. -/
  | handedOut (p : π) (kind : κ)
  /-- A new array is forgotten. -/
  | lost (p : π) (kind : κ)
  /-- An array is taken back and deleted. -/
  | freed (p : π) (kind : κ)
  /-- An address is somebody else's. -/
  | foreign (p : Option π)
  deriving DecidableEq, Repr

/-- The arrays that were handed out and those that were lost. -/
structure Ledger (π κ : Type u) where
  /-- Handed out and not taken back. -/
  owned : List (π × κ)
  /-- Forgotten. -/
  lost : List (π × κ)

/-- Addresses in the ledger. -/
def Ledger.addresses (l : Ledger π κ) : List π := (l.owned ++ l.lost).map Prod.fst

/-- A sound step: new arrays are new, only what was handed out is taken back, and
nothing that was handed out is taken for somebody else's. -/
def Ledger.record (l : Ledger π κ) : Transfer π κ → Option (Ledger π κ)
  | .none => some l
  | .handedOut p kind => if p ∈ l.addresses then Option.none else some
    { l with owned := (p, kind) :: l.owned }
  | .lost p kind => if p ∈ l.addresses then Option.none else some { l with lost := (p, kind) :: l.lost }
  | .freed p kind => if (p, kind) ∈ l.owned then some { l with owned := l.owned.erase (p, kind) }
    else Option.none
  | .foreign Option.none => some l
  | .foreign (some p) => if p ∈ l.owned.map Prod.fst then Option.none else some l

/-- Sound steps one after another. -/
def Ledger.recordAll : Ledger π κ → List (Transfer π κ) → Option (Ledger π κ)
  | l, [] => some l
  | l, t :: ts => (l.record t).bind fun l => l.recordAll ts

variable {heap heap' rest : Heap π κ} {kind : κ} {p : π} {e : ε}

theorem deleteArray_ok (h : heap.Perm ((p, kind) :: rest)) :
    ∃ heap', deleteArray e heap kind p = .ok heap' ∧ heap'.Perm rest := by
  have hmem : (p, kind) ∈ heap := h.mem_iff.mpr List.mem_cons_self
  refine ⟨heap.erase (p, kind), if_pos hmem, ?_⟩
  have herase := h.erase (p, kind)
  rwa [List.erase_cons_head] at herase

/-- Live arrays can be deleted, and the others stay. -/
theorem deleteArrays_ok {ps : List π} (h : heap.Perm (ps.map (fun p => (p, kind)) ++ rest)) :
    ∃ heap', deleteArrays e kind heap ps = .ok heap' ∧ heap'.Perm rest := by
  induction ps generalizing heap with
  | nil => exact ⟨heap, rfl, h⟩
  | cons p ps ih =>
    obtain ⟨heap₁, hdelete, hheap₁⟩ := deleteArray_ok (e := e) h
    obtain ⟨heap', hrest, hheap'⟩ := ih hheap₁
    refine ⟨heap', ?_, hheap'⟩
    rw [deleteArrays, hdelete]
    exact hrest

end OwnedMemory
