import Mathlib.Data.List.AList
import Mathlib.Data.List.Dedup
import Mathlib.Data.List.Perm.Basic

/-!
# Groups under keys

A finite map collects items under keys: the value of a key is replaced by a
function of the old one. Whatever the values are, the items in them are those
that were added, and every value keeps what holds under its key.
-/

namespace Grouping

universe u v w

variable {κ : Type u} {β : Type v} {α : Type w}

/-- The items in the values of a map. -/
def items (of : β → List α) (entries : List (Sigma fun _ : κ => β)) : List α :=
  entries.flatMap fun e => of e.2

/-- Items have the same number exactly if they have the same key. -/
def SameIff {ι : Type v} (number : α → ι) (key : α → κ) (l : List α) : Prop :=
  ∀ a ∈ l, ∀ b ∈ l, number a = number b ↔ key a = key b

/-- A list without duplicates is as long as any other with the same members, but for duplicates. -/
theorem length_eq_dedup [DecidableEq α] {l l' : List α} (hl : l.Nodup) (hmem : ∀ a, a ∈ l ↔ a ∈ l') :
    l.length = l'.dedup.length :=
  ((List.perm_ext_iff_of_nodup hl (List.nodup_dedup l')).mpr fun a =>
    (hmem a).trans List.mem_dedup.symm).length_eq

variable {of : β → List α} {entries : List (Sigma fun _ : κ => β)} {k : κ} {a : α}

/-- The order of the keys does not matter, nor does that of the items of a value. -/
theorem items_perm {of' : β → List α} {entries' : List (Sigma fun _ : κ => β)} (h : entries.Perm entries')
    (hof : ∀ v, (of v).Perm (of' v)) : (items of entries).Perm (items of' entries') :=
  h.flatMap fun e _ => hof e.2

section Upsert

variable [DecidableEq κ]

/-- Replace the value of a key. -/
def upsert (m : AList fun _ : κ => β) (k : κ) (f : Option β → β) : AList fun _ : κ => β :=
  m.insert k (f (m.lookup k))

variable {m : AList fun _ : κ => β} {f : Option β → β}

theorem upsert_entries_ne_nil : (upsert m k f).entries ≠ [] := by
  rw [upsert, AList.entries_insert]
  exact List.cons_ne_nil _ _

/-- One more item in the value of a key is one more item in the map. -/
theorem items_upsert (hnew : (of (f none)).Perm [a]) (hold : ∀ v, (of (f (some v))).Perm (of v ++ [a])) :
    (items of (upsert m k f).entries).Perm (items of m.entries ++ [a]) := by
  rw [upsert, AList.entries_insert, items, List.flatMap_cons]
  by_cases hk : k ∈ m.entries.keys
  · obtain ⟨v, before, after, hbefore, hentries, herase⟩ := List.exists_of_kerase hk
    have hlookup : m.lookup k = some v := by
      refine AList.mem_lookup_iff.mpr ?_
      rw [hentries]
      exact List.mem_append_right _ List.mem_cons_self
    rw [herase, hlookup, hentries, items]
    simp only [List.flatMap_append, List.flatMap_cons]
    refine ((hold v).append_right _).trans (List.Perm.trans ?_
      ((List.perm_append_comm_assoc _ _ _).append_right [a]))
    rw [List.append_assoc, List.append_assoc]
    exact List.perm_append_comm.append_left _
  · have hlookup : m.lookup k = none := AList.lookup_eq_none.mpr hk
    rw [hlookup, List.kerase_of_notMem_keys hk]
    exact (hnew.append_right _).trans List.perm_append_comm

/-- What holds of a key and its value holds afterwards. -/
theorem forall_upsert {Q : κ → β → Prop} (hm : ∀ e ∈ m.entries, Q e.1 e.2) (hnew : Q k (f none))
    (hold : ∀ v, Q k v → Q k (f (some v))) : ∀ e ∈ (upsert m k f).entries, Q e.1 e.2 := by
  intro e he
  rw [upsert, AList.entries_insert] at he
  rcases List.mem_cons.mp he with rfl | he
  · cases hlookup : m.lookup k with
    | none => exact hnew
    | some v => exact hold v (hm ⟨k, v⟩ (AList.mem_lookup_iff.mp hlookup))
  · exact hm e ((List.kerase_sublist _ _).subset he)

end Upsert

variable {ι : Type v} {number : α → ι} {key : α → κ} {l l' : List α}

theorem sameIff_nil : SameIff number key [] := fun _ ha => absurd ha List.not_mem_nil

/-- Items of two lists that have neither a number nor a key in common. -/
theorem SameIff.append (h : SameIff number key l) (h' : SameIff number key l')
    (hapart : ∀ a ∈ l, ∀ b ∈ l', number a ≠ number b ∧ key a ≠ key b) : SameIff number key (l ++ l') := by
  intro a ha b hb
  rcases List.mem_append.mp ha with ha | ha <;> rcases List.mem_append.mp hb with hb | hb
  · exact h a ha b hb
  · obtain ⟨hnumber, hkey⟩ := hapart a ha b hb
    exact iff_of_false hnumber hkey
  · obtain ⟨hnumber, hkey⟩ := hapart b hb a ha
    exact iff_of_false hnumber.symm hkey.symm
  · exact h' a ha b hb

/-- Items that all have one number and one key. -/
theorem sameIff_const {n : ι} {k : κ} (hnumber : ∀ a ∈ l, number a = n) (hkey : ∀ a ∈ l, key a = k) :
    SameIff number key l :=
  fun a ha b hb => iff_of_true ((hnumber a ha).trans (hnumber b hb).symm) ((hkey a ha).trans (hkey b hb).symm)

end Grouping
