import Mathlib.Data.List.Dedup
import Mathlib.Algebra.BigOperators.Group.List.Lemmas
import Mathlib.Algebra.GroupWithZero.Nat
import Mathlib.Data.List.Induction

/-!
# Lists with one item for every key

An item is put into a list: the first item with its key is changed, or a new item
is appended. The keys stay in the order in which they came first.
-/

namespace KeyedLists

universe u v

variable {κ : Type u} {β : Type v}

section

variable [BEq κ] [LawfulBEq κ]

/-- One more key among all that came. -/
theorem eraseDups_concat (history : List κ) (k : κ) :
    (history ++ [k]).eraseDups = if k ∈ history then history.eraseDups else history.eraseDups ++ [k] := by
  rw [List.eraseDups_append]
  by_cases hk : k ∈ history
  · simp [List.removeAll, hk]
  · simp [List.removeAll, hk, List.eraseDups_cons]

theorem nodup_eraseDups (history : List κ) : history.eraseDups.Nodup := by
  induction history using List.reverseRecOn with
  | nil => exact List.nodup_nil
  | append_singleton history k ih =>
    rw [eraseDups_concat]
    split_ifs with hk
    · exact ih
    · refine List.nodup_append.mpr ⟨ih, List.nodup_singleton k, fun a ha b hb heq => hk ?_⟩
      rw [List.mem_singleton.mp hb] at heq
      exact List.mem_eraseDups.mp (heq ▸ ha)

/-- The numbers of all keys that came add up. -/
theorem sum_count_eraseDups (history : List κ) :
    (history.eraseDups.map fun k => history.count k).sum = history.length := by
  classical
  obtain rfl : ‹BEq κ› = instBEqOfDecidableEq := lawful_beq_subsingleton _ _
  have hperm : history.eraseDups.Perm history.dedup :=
    (List.perm_ext_iff_of_nodup (nodup_eraseDups history) (List.nodup_dedup history)).mpr fun k => by
      rw [List.mem_eraseDups, List.mem_dedup]
  exact (hperm.map _).sum_nat.trans (List.sum_map_count_dedup_eq_length history)

end

variable [DecidableEq κ]

/-- Change the first item with a key, or append a new one. -/
def put (key : β → κ) (k : κ) (new : β) (f : β → β) (l : List β) : List β :=
  match l.findIdx? fun b => key b = k with
  | some i => l.modify i f
  | none => l ++ [new]

variable {key : β → κ} {k : κ} {new b : β} {f : β → β} {l : List β}

theorem put_cons (b : β) (l : List β) :
    put key k new f (b :: l) = if key b = k then f b :: l else b :: put key k new f l := by
  rw [put, List.findIdx?_cons]
  by_cases hb : key b = k
  · simp [hb]
  · simp only [hb, decide_false, Bool.false_eq_true, if_false, put]
    cases l.findIdx? fun b => key b = k with
    | none => rfl
    | some i => rfl

/-- A key that is there stays where it is, another one comes last. -/
theorem map_put (hnew : key new = k) (hf : ∀ b, key (f b) = key b) :
    (put key k new f l).map key = if k ∈ l.map key then l.map key else l.map key ++ [k] := by
  induction l with
  | nil => simp [put, hnew]
  | cons b l ih =>
    rw [put_cons, List.map_cons]
    by_cases hb : key b = k
    · rw [if_pos hb, if_pos (List.mem_cons.mpr (Or.inl hb.symm)), List.map_cons, hf]
    · rw [if_neg hb, List.map_cons, ih]
      by_cases hmem : k ∈ l.map key
      · rw [if_pos hmem, if_pos (List.mem_cons_of_mem _ hmem)]
      · have hnone : k ∉ key b :: l.map key := List.not_mem_cons_of_ne_of_not_mem (Ne.symm hb) hmem
        rw [if_neg hmem, if_neg hnone, List.cons_append]

/-- The keys are those that came, in the order in which they came first. -/
theorem map_put_of_eraseDups [BEq κ] [LawfulBEq κ] {history : List κ} (hnew : key new = k)
    (hf : ∀ b, key (f b) = key b)
    (hl : l.map key = history.eraseDups) : (put key k new f l).map key = (history ++ [k]).eraseDups := by
  have hmem : k ∈ history.eraseDups ↔ k ∈ history := List.mem_eraseDups
  rw [map_put hnew hf, eraseDups_concat, hl]
  by_cases hk : k ∈ history
  · rw [if_pos (hmem.mpr hk), if_pos hk]
  · rw [if_neg (mt hmem.mp hk), if_neg hk]

/-- What holds of the items afterwards: of those with other keys, of the one with
the key that is changed, and of a new one. -/
theorem forall_put {P Q : β → Prop} (hl : ∀ b ∈ l, P b) (hnodup : (l.map key).Nodup)
    (hother : ∀ b ∈ l, P b → key b ≠ k → Q b) (hsame : ∀ b ∈ l, P b → key b = k → Q (f b))
    (hnew : k ∉ l.map key → Q new) : ∀ b ∈ put key k new f l, Q b := by
  induction l with
  | nil => simpa [put] using hnew
  | cons b l ih =>
    obtain ⟨hb, hrest⟩ := List.forall_mem_cons.mp hl
    rw [List.map_cons, List.nodup_cons] at hnodup
    rw [put_cons]
    by_cases hk : key b = k
    · rw [if_pos hk, List.forall_mem_cons]
      refine ⟨hsame b List.mem_cons_self hb hk, fun c hc => ?_⟩
      refine hother c (List.mem_cons_of_mem b hc) (hrest c hc) fun hck => hnodup.1 ?_
      rw [hk, ← hck]
      exact List.mem_map_of_mem hc
    · rw [if_neg hk, List.forall_mem_cons]
      refine ⟨hother b List.mem_cons_self hb hk, ih hrest hnodup.2 ?_ ?_ fun hmem => hnew ?_⟩
      · exact fun c hc => hother c (List.mem_cons_of_mem b hc)
      · exact fun c hc => hsame c (List.mem_cons_of_mem b hc)
      · rw [List.map_cons, List.mem_cons]
        exact not_or.mpr ⟨Ne.symm hk, hmem⟩

/-- The items afterwards are those from before, some changed, and the new one. -/
theorem mem_put {c : β} (hc : c ∈ put key k new f l) : c ∈ l ∨ (∃ b ∈ l, c = f b) ∨ c = new := by
  induction l with
  | nil => exact Or.inr (Or.inr (List.mem_singleton.mp hc))
  | cons b l ih =>
    rw [put_cons] at hc
    by_cases hk : key b = k
    · rw [if_pos hk, List.mem_cons] at hc
      rcases hc with hb | hl
      · exact Or.inr (Or.inl ⟨b, List.mem_cons_self, hb⟩)
      · exact Or.inl (List.mem_cons_of_mem b hl)
    · rw [if_neg hk, List.mem_cons] at hc
      rcases hc with rfl | hput
      · exact Or.inl List.mem_cons_self
      · refine (ih hput).imp (List.mem_cons_of_mem b) (Or.imp_left ?_)
        exact fun ⟨b', hb', heq⟩ => ⟨b', List.mem_cons_of_mem b hb', heq⟩

/-- There is an item afterwards. -/
theorem put_ne_nil (key : β → κ) (k : κ) (new : β) (f : β → β) (l : List β) : put key k new f l ≠ [] := by
  cases l with
  | nil => exact List.cons_ne_nil _ _
  | cons b l =>
    rw [put_cons]
    split_ifs <;> exact List.cons_ne_nil _ _

/-- After a value was put in, it is what is found under its key. -/
theorem find?_put {ν : Type v} {l : List (κ × ν)} (k : κ) (v : ν) (k' : κ) :
    (put Prod.fst k (k, v) (fun e => (e.1, v)) l).find? (fun e => e.1 = k') =
      if k = k' then some (k, v) else l.find? fun e => e.1 = k' := by
  induction l with
  | nil => by_cases hk : k = k' <;> simp [put, hk]
  | cons e l ih =>
    rw [put_cons]
    by_cases he : e.1 = k
    · rw [if_pos he, List.find?_cons, List.find?_cons]
      by_cases hk : k = k'
      · simp [he, hk]
      · simp [he, hk]
    · rw [if_neg he, List.find?_cons, List.find?_cons, ih]
      by_cases hk : k = k'
      · simp [← hk, he]
      · simp [hk]

/-- Items may be replaced by others with keys that differ where these do. -/
theorem put_map {κ' : Type u} {β' : Type v} [DecidableEq κ'] {key' : β' → κ'} {k' : κ'} {new' : β'}
    {f' : β' → β'} {g : β → β'} (hkey : ∀ b, key b = k ↔ key' (g b) = k') (hf : ∀ b, g (f b) = f' (g b))
    (hnew : g new = new') : (put key k new f l).map g = put key' k' new' f' (l.map g) := by
  induction l with
  | nil =>
    rw [← hnew]
    rfl
  | cons b l ih =>
    rw [put_cons, List.map_cons, put_cons]
    by_cases hk : key b = k
    · rw [if_pos hk, if_pos ((hkey b).mp hk), List.map_cons, hf]
    · rw [if_neg hk, if_neg (mt (hkey b).mpr hk), List.map_cons, ih]

variable {ν : Type v} [AddCommMonoid ν]

/-- A weight that grows by what a new item weighs does so in all. -/
theorem sum_map_put {weight : β → ν} {a : ν} (hnew : weight new = a) (hf : ∀ b, weight (f b) = weight b + a) :
    ((put key k new f l).map weight).sum = (l.map weight).sum + a := by
  induction l with
  | nil =>
    rw [List.map_nil, List.sum_nil, zero_add, ← hnew]
    exact List.sum_singleton
  | cons b l ih =>
    rw [put_cons, List.map_cons, List.sum_cons]
    by_cases hk : key b = k
    · rw [if_pos hk, List.map_cons, List.sum_cons, hf, add_right_comm]
    · rw [if_neg hk, List.map_cons, List.sum_cons, ih, add_assoc]

/-- Add a number to that of its key. -/
def addTo (sums : List (κ × ν)) (e : κ × ν) : List (κ × ν) :=
  put Prod.fst e.1 e (fun sum => (sum.1, sum.2 + e.2)) sums

/-- The sum of the numbers of a key. -/
def sumOf (k : κ) (l : List (κ × ν)) : ν := ((l.filter fun e => e.1 = k).map Prod.snd).sum

theorem sumOf_concat (k : κ) (l : List (κ × ν)) (e : κ × ν) :
    sumOf k (l ++ [e]) = sumOf k l + if e.1 = k then e.2 else 0 := by
  rw [sumOf, List.filter_append, List.map_append, List.sum_append, sumOf]
  by_cases hk : e.1 = k
  · simp [hk]
  · simp [hk]

theorem sumOf_eq_zero {l : List (κ × ν)} (hk : k ∉ l.map Prod.fst) : sumOf k l = 0 := by
  have hnone : l.filter (fun e => e.1 = k) = [] := by
    refine List.filter_eq_nil_iff.mpr fun e he heq => hk ?_
    exact of_decide_eq_true heq ▸ List.mem_map_of_mem he
  rw [sumOf, hnone]
  rfl

theorem map_foldl_addTo (l : List (κ × ν)) :
    (l.foldl addTo []).map Prod.fst = (l.map Prod.fst).eraseDups := by
  induction l using List.reverseRecOn with
  | nil => rfl
  | append_singleton l e ih =>
    rw [List.foldl_append, List.map_append]
    exact map_put_of_eraseDups rfl (fun _ => rfl) ih

theorem mem_keys_foldl_addTo {l : List (κ × ν)} :
    k ∈ (l.foldl addTo []).map Prod.fst ↔ k ∈ l.map Prod.fst := by
  rw [map_foldl_addTo, List.mem_eraseDups]

/-- Adding up leaves the sum of every key. -/
theorem mem_foldl_addTo {l : List (κ × ν)} {n : ν} :
    (k, n) ∈ l.foldl addTo [] ↔ k ∈ l.map Prod.fst ∧ n = sumOf k l := by
  have hsums : ∀ e ∈ l.foldl addTo [], e.2 = sumOf e.1 l := by
    induction l using List.reverseRecOn with
    | nil => exact fun e he => absurd he List.not_mem_nil
    | append_singleton l e ih =>
      have hnodup : ((l.foldl addTo []).map Prod.fst).Nodup := by
        rw [map_foldl_addTo]
        exact nodup_eraseDups _
      rw [List.foldl_append]
      refine forall_put ih hnodup (fun sum _ hsum hne => ?_) (fun sum _ hsum heq => ?_) fun hnew => ?_
      · rw [sumOf_concat, if_neg (Ne.symm hne), hsum, add_zero]
      · rw [sumOf_concat, if_pos heq.symm, hsum]
      · rw [mem_keys_foldl_addTo] at hnew
        rw [sumOf_concat, if_pos rfl, sumOf_eq_zero hnew, zero_add]
  constructor
  · exact fun hmem => ⟨mem_keys_foldl_addTo.mp (List.mem_map_of_mem hmem), hsums _ hmem⟩
  · rintro ⟨hk, rfl⟩
    obtain ⟨⟨k', n⟩, hmem, rfl⟩ := List.mem_map.mp (mem_keys_foldl_addTo.mpr hk)
    rwa [← hsums _ hmem]

/-- The order does not matter. -/
theorem sumOf_perm {l l' : List (κ × ν)} (h : l.Perm l') (k : κ) : sumOf k l = sumOf k l' :=
  ((h.filter _).map _).sum_eq

end KeyedLists
