import Mathlib.Data.List.Basic
import Mathlib.Logic.Function.Basic

/-!
# Tables of slots

A slot is free or holds a key with its value, and no key is in two slots. Such a
table stands for a partial function. Writing a slot, clearing one and adding free
slots change the function at one key at most.
-/

namespace SlotTables

universe u v

variable {κ : Type u} {ν : Type v}

/-- The slots hold the keys with values, each of them once. -/
structure Represents (slots : List (Option (κ × ν))) (m : κ → Option ν) : Prop where
  /-- No key is in two slots. -/
  distinct : ∀ (i j : ℕ) k v w, slots[i]? = some (some (k, v)) → slots[j]? = some (some (k, w)) → i = j
  /-- A key has the value in its slot. -/
  value_iff : ∀ k v, m k = some v ↔ ∃ i : ℕ, slots[i]? = some (some (k, v))

/-- The keys in the slots. -/
def keys (slots : List (Option (κ × ν))) : List κ := slots.filterMap (Option.map Prod.fst)

variable {slots : List (Option (κ × ν))} {m : κ → Option ν} {i : ℕ} {k : κ} {v w : ν}

/-- Free slots stand for nothing. -/
theorem represents_replicate (n : ℕ) :
    Represents (List.replicate n (none : Option (κ × ν))) fun _ => none := by
  have hnone (i : ℕ) (e : κ × ν) : (List.replicate n none)[i]? ≠ some (some e) := by
    intro h
    cases List.eq_of_mem_replicate (List.mem_of_getElem? h)
  constructor
  · exact fun i _ _ _ _ h => absurd h (hnone i _)
  · exact fun k v => ⟨fun h => (nomatch h), fun ⟨i, h⟩ => absurd h (hnone i _)⟩

/-- More free slots stand for nothing more. -/
theorem Represents.append_free (h : Represents slots m) (n : ℕ) :
    Represents (slots ++ List.replicate n none) m := by
  have hold (i : ℕ) (e : κ × ν) :
      (slots ++ List.replicate n none)[i]? = some (some e) ↔ slots[i]? = some (some e) := by
    rcases Nat.lt_or_ge i slots.length with hi | hi
    · rw [List.getElem?_append_left hi]
    · rw [List.getElem?_append_right hi, List.getElem?_eq_none hi]
      refine ⟨fun h => ?_, fun h => nomatch h⟩
      cases List.eq_of_mem_replicate (List.mem_of_getElem? h)
  constructor
  · intro i j k v w hi hj
    exact h.distinct i j k v w ((hold i _).mp hi) ((hold j _).mp hj)
  · intro k v
    rw [h.value_iff k v]
    exact exists_congr fun i => (hold i _).symm

/-- What a slot holds after one slot was written. -/
theorem getElem?_set_eq_some (hi : i < slots.length) (s : Option (κ × ν)) (j : ℕ) (e : κ × ν) :
    (slots.set i s)[j]? = some (some e) ↔
      j = i ∧ s = some e ∨ j ≠ i ∧ slots[j]? = some (some e) := by
  by_cases hj : j = i
  · rw [hj, List.getElem?_set_self hi]
    simp
  · rw [List.getElem?_set_ne (Ne.symm hj)]
    simp [hj]

variable [DecidableEq κ]

/-- A key is written into the slot that holds it, or into a free one if none does. -/
theorem Represents.write (h : Represents slots m) (hi : i < slots.length)
    (hslot : ∀ e, slots[i]? = some (some e) → e.1 = k)
    (hother : ∀ j w, slots[j]? = some (some (k, w)) → j = i) (v : ν) :
    Represents (slots.set i (some (k, v))) (Function.update m k (some v)) := by
  have hset := getElem?_set_eq_some hi (some (k, v))
  constructor
  · intro a b k' v' w' ha hb
    rcases (hset a _).mp ha with ⟨hai, hnew⟩ | ⟨-, hola⟩ <;>
      rcases (hset b _).mp hb with ⟨hbi, hnew'⟩ | ⟨-, holb⟩
    · exact hai.trans hbi.symm
    · obtain ⟨rfl, -⟩ := Prod.mk.inj (Option.some.inj hnew)
      exact hai.trans (hother b w' holb).symm
    · obtain ⟨rfl, -⟩ := Prod.mk.inj (Option.some.inj hnew')
      exact (hother a v' hola).trans hbi.symm
    · exact h.distinct a b k' v' w' hola holb
  · intro k' v'
    by_cases hk : k' = k
    · subst hk
      rw [Function.update_self]
      constructor
      · intro hv
        cases hv
        exact ⟨i, (hset i _).mpr (Or.inl ⟨rfl, rfl⟩)⟩
      · rintro ⟨j, hj⟩
        rcases (hset j _).mp hj with ⟨-, hv⟩ | ⟨hji, hj⟩
        · exact congrArg some (Prod.mk.inj (Option.some.inj hv)).2
        · exact absurd (hother j v' hj) hji
    · rw [Function.update_of_ne hk, h.value_iff]
      refine exists_congr fun j => ?_
      rw [hset]
      constructor
      · intro hj
        refine Or.inr ⟨fun hji => hk ?_, hj⟩
        exact hslot (k', v') (hji ▸ hj)
      · rintro (⟨-, hv⟩ | ⟨-, hj⟩)
        · exact absurd (Prod.mk.inj (Option.some.inj hv)).1.symm hk
        · exact hj

/-- The slot of a key is cleared. -/
theorem Represents.clear (h : Represents slots m) (hi : slots[i]? = some (some (k, w))) :
    Represents (slots.set i none) (Function.update m k none) := by
  have hset := getElem?_set_eq_some (List.getElem?_eq_some_iff.mp hi).1 none
  have hold (j : ℕ) (e : κ × ν) : (slots.set i none)[j]? = some (some e) ↔ j ≠ i ∧
    slots[j]? = some (some e) := by
    rw [hset]
    exact ⟨fun hj => hj.resolve_left fun hnone => (nomatch hnone.2), Or.inr⟩
  constructor
  · intro a b k' v' w' ha hb
    exact h.distinct a b k' v' w' ((hold a _).mp ha).2 ((hold b _).mp hb).2
  · intro k' v'
    by_cases hk : k' = k
    · subst hk
      rw [Function.update_self]
      refine ⟨fun hv => (nomatch hv), fun ⟨j, hj⟩ => ?_⟩
      obtain ⟨hji, hj⟩ := (hold j _).mp hj
      exact absurd (h.distinct j i k' v' w hj hi) hji
    · rw [Function.update_of_ne hk, h.value_iff]
      refine exists_congr fun j => ?_
      rw [hold]
      refine ⟨fun hj => ⟨fun hji => hk ?_, hj⟩, And.right⟩
      subst hji
      exact (Prod.mk.inj (Option.some.inj (Option.some.inj (hj.symm.trans hi)))).1

omit [DecidableEq κ]

theorem mem_keys : k ∈ keys slots ↔ ∃ (i : ℕ) (v : ν), slots[i]? = some (some (k, v)) := by
  rw [keys, List.mem_filterMap]
  constructor
  · rintro ⟨s, hs, hk⟩
    obtain ⟨⟨k', v⟩, rfl, rfl⟩ := Option.map_eq_some_iff.mp hk
    obtain ⟨i, hi⟩ := List.mem_iff_getElem?.mp hs
    exact ⟨i, v, hi⟩
  · rintro ⟨i, v, hi⟩
    exact ⟨some (k, v), List.mem_of_getElem? hi, rfl⟩

/-- The keys are those that have a value. -/
theorem Represents.mem_keys_iff (h : Represents slots m) (k : κ) : k ∈ keys slots ↔ m k ≠ none := by
  rw [mem_keys, Option.ne_none_iff_exists']
  constructor
  · rintro ⟨i, v, hi⟩
    exact ⟨v, (h.value_iff k v).mpr ⟨i, hi⟩⟩
  · rintro ⟨v, hv⟩
    obtain ⟨i, hi⟩ := (h.value_iff k v).mp hv
    exact ⟨i, v, hi⟩

theorem length_keys (slots : List (Option (κ × ν))) : (keys slots).length = slots.countP Option.isSome := by
  rw [keys, List.length_filterMap_eq_countP]
  exact List.countP_congr fun s _ => by simp

/-- Each key is there once. -/
theorem Represents.nodup_keys (h : Represents slots m) : (keys slots).Nodup := by
  have hdistinct := h.distinct
  clear h
  induction slots with
  | nil => exact List.nodup_nil
  | cons s slots ih =>
    have hrest : (keys slots).Nodup := ih fun i j k v w hi hj =>
      Nat.succ.inj (hdistinct (i + 1) (j + 1) k v w hi hj)
    cases s with
    | none => exact hrest
    | some e =>
      refine List.nodup_cons.mpr ⟨fun hmem => ?_, hrest⟩
      obtain ⟨i, v, hi⟩ := mem_keys.mp hmem
      exact absurd (hdistinct 0 (i + 1) e.1 e.2 v rfl hi) (Nat.succ_ne_zero i).symm

end SlotTables
