import Mathlib.Data.List.Basic
import Mathlib.Order.Basic

/-!
# Nested brackets

Words in which every opening bracket is closed and what is between the two is
such a word again. Which brackets close which is a relation. A pair of brackets
is determined by its opening one, and pairs are inside each other or apart.
-/

namespace NestedBrackets

universe u

variable {α : Type u}

/-- What neither opens nor closes. -/
def Plain (closes : α → α → Prop) (a : α) : Prop := ∀ b, ¬ closes a b ∧ ¬ closes b a

/-- Words with nested brackets, each of which is related to what closes it. -/
inductive Balanced (closes : α → α → Prop) : List α → Prop
  | nil : Balanced closes []
  /-- An element that is no bracket. -/
  | plain {a : α} {l : List α} : Plain closes a → Balanced closes l → Balanced closes (a :: l)
  /-- Two brackets with what is between them. -/
  | group {a b : α} {inside l : List α} : closes a b → Balanced closes inside → Balanced closes l →
      Balanced closes (a :: (inside ++ b :: l))

/-- An opening bracket at one place and the one that closes it at another. -/
def Pair (closes : α → α → Prop) (l : List α) (i j : ℕ) : Prop :=
  ∃ before a inside b behind, l = before ++ a :: (inside ++ b :: behind) ∧ closes a b ∧
    Balanced closes inside ∧ i = before.length ∧ j = before.length + (inside.length + 1)

/-- A pair inside no other pair. -/
def Outermost (closes : α → α → Prop) (l : List α) (i j : ℕ) : Prop :=
  Pair closes l i j ∧ ∀ i' j', Pair closes l i' j' → ¬ (i' < i ∧ j < j')

/-- A bracket of such a pair is there. -/
def OuterPlace (closes : α → α → Prop) (l : List α) (k : ℕ) : Prop :=
  ∃ i j, Outermost closes l i j ∧ (k = i ∨ k = j)

/-- The brackets of the outermost pairs are replaced and nothing else is. -/
inductive OuterReplaced (closes : α → α → Prop) (f : α → α) : List α → List α → Prop
  | nil : OuterReplaced closes f [] []
  /-- An element that is no bracket. -/
  | plain {a : α} {l l' : List α} : Plain closes a → OuterReplaced closes f l l' →
      OuterReplaced closes f (a :: l) (a :: l')
  /-- Two brackets with what is between them. -/
  | group {a b : α} {inside l l' : List α} : closes a b → Balanced closes inside →
      OuterReplaced closes f l l' → OuterReplaced closes f (a :: (inside ++ b :: l))
        (f a :: (inside ++ f b :: l'))

variable {closes closes' : α → α → Prop} {f : α → α} {a b : α} {inside l l' before behind : List α}
  {i j k : ℕ}

/-- Where an element is, if two lists with one element pointed out are the same. -/
theorem append_cons_cases (h : inside ++ b :: l = before ++ a :: behind) :
    (∃ s, before = inside ++ b :: s ∧ l = s ++ a :: behind) ∨ (before = inside ∧ a = b ∧ behind = l) ∨
      ∃ s, inside = before ++ a :: s ∧ behind = s ++ b :: l := by
  rcases List.append_eq_append_iff.mp h with ⟨s, hbefore, htail⟩ | ⟨s, hinside, htail⟩
  · cases s with
    | nil =>
      obtain ⟨hab, hrest⟩ := List.cons.inj htail
      exact Or.inr (Or.inl ⟨by rw [hbefore, List.append_nil], hab.symm, hrest.symm⟩)
    | cons c s =>
      obtain ⟨rfl, hrest⟩ := List.cons.inj htail
      exact Or.inl ⟨s, hbefore, hrest⟩
  · cases s with
    | nil =>
      obtain ⟨hab, hrest⟩ := List.cons.inj htail
      exact Or.inr (Or.inl ⟨by rw [hinside, List.append_nil], hab, hrest⟩)
    | cons c s =>
      obtain ⟨rfl, hrest⟩ := List.cons.inj htail
      exact Or.inr (Or.inr ⟨s, hinside, hrest⟩)

/-- A word without brackets is balanced. -/
theorem balanced_of_plain (h : ∀ a ∈ l, Plain closes a) : Balanced closes l := by
  induction l with
  | nil => exact Balanced.nil
  | cons a l ih =>
    obtain ⟨ha, hl⟩ := List.forall_mem_cons.mp h
    exact Balanced.plain ha (ih hl)

/-- With more brackets a word is balanced if the others are no elements of it. -/
theorem Balanced.mono (h : Balanced closes l) (hcloses : ∀ a b, closes a b → closes' a b)
    (hplain : ∀ a ∈ l, Plain closes a → Plain closes' a) : Balanced closes' l := by
  induction h with
  | nil => exact Balanced.nil
  | plain ha _ ih =>
    obtain ⟨hhead, htail⟩ := List.forall_mem_cons.mp hplain
    exact Balanced.plain (hhead ha) (ih htail)
  | group hab _ _ ihinside ih =>
    obtain ⟨-, htail⟩ := List.forall_mem_cons.mp hplain
    obtain ⟨hinside, hrest⟩ := List.forall_mem_append.mp htail
    exact Balanced.group (hcloses _ _ hab) (ihinside hinside) (ih (List.forall_mem_cons.mp hrest).2)

/-- Replacing brackets keeps the length. -/
theorem OuterReplaced.length_eq (h : OuterReplaced closes f l l') : l'.length = l.length := by
  induction h with
  | nil => rfl
  | plain _ _ ih => exact congrArg Nat.succ ih
  | group _ _ _ ih => simp only [List.length_cons, List.length_append, ih]

/-- In a balanced word the outermost brackets can be replaced. -/
theorem Balanced.exists_outerReplaced (f : α → α) (h : Balanced closes l) :
    ∃ l', OuterReplaced closes f l l' := by
  induction h with
  | nil => exact ⟨[], OuterReplaced.nil⟩
  | plain ha _ ih =>
    obtain ⟨l', hl'⟩ := ih
    exact ⟨_, OuterReplaced.plain ha hl'⟩
  | group hab hinside _ _ ih =>
    obtain ⟨l', hl'⟩ := ih
    exact ⟨_, OuterReplaced.group hab hinside hl'⟩

/-- What replaces brackets makes pairs again, so the word stays balanced. -/
theorem OuterReplaced.balanced (h : OuterReplaced closes f l l') (hcloses : ∀ a b, closes a b → closes' a b)
    (hf : ∀ a b, closes a b → closes' (f a) (f b)) (hplain : ∀ a ∈ l, Plain closes a → Plain closes' a) :
    Balanced closes' l' := by
  induction h with
  | nil => exact Balanced.nil
  | plain ha _ ih =>
    obtain ⟨hhead, htail⟩ := List.forall_mem_cons.mp hplain
    exact Balanced.plain (hhead ha) (ih htail)
  | group hab hinside _ ih =>
    obtain ⟨-, htail⟩ := List.forall_mem_cons.mp hplain
    obtain ⟨hmem, hrest⟩ := List.forall_mem_append.mp htail
    exact Balanced.group (hf _ _ hab) (hinside.mono hcloses hmem) (ih (List.forall_mem_cons.mp hrest).2)

/-- A bracket closes behind the one that it closes. -/
theorem Pair.lt (h : Pair closes l i j) : i < j := by
  obtain ⟨before, a, inside, b, behind, -, -, -, rfl, rfl⟩ := h
  omega

theorem Pair.lt_length (h : Pair closes l i j) : j < l.length := by
  obtain ⟨before, a, inside, b, behind, rfl, -, -, rfl, rfl⟩ := h
  simp only [List.length_append, List.length_cons]
  omega

theorem not_pair_nil : ¬ Pair closes [] i j := fun h => absurd h.lt_length (Nat.not_lt_zero j)

/-- A pair is moved by what is put before it, whatever comes behind. -/
theorem Pair.shift (h : Pair closes l i j) (before behind : List α) :
    Pair closes (before ++ (l ++ behind)) (i + before.length) (j + before.length) := by
  obtain ⟨front, a, inside, b, back, rfl, hab, hinside, rfl, rfl⟩ := h
  refine ⟨before ++ front, a, inside, b, back ++ behind, ?_, hab, hinside, ?_, ?_⟩
  · simp only [List.append_assoc, List.cons_append]
  · rw [List.length_append, Nat.add_comm]
  · rw [List.length_append]
    omega

/-- The pairs behind an element that is no bracket. -/
theorem pair_plain_iff (ha : Plain closes a) :
    Pair closes (a :: l) i j ↔ ∃ i' j', Pair closes l i' j' ∧ i = i' + 1 ∧ j = j' + 1 := by
  constructor
  · rintro ⟨before, c, inside, b, behind, hsplit, hcb, hinside, rfl, rfl⟩
    cases before with
    | nil =>
      obtain ⟨rfl, -⟩ := List.cons.inj hsplit
      exact absurd hcb (ha b).1
    | cons d before =>
      obtain ⟨-, htail⟩ := List.cons.inj hsplit
      exact ⟨_, _, ⟨before, c, inside, b, behind, htail, hcb, hinside, rfl, rfl⟩, rfl,
        Nat.add_right_comm _ _ _⟩
  · rintro ⟨i', j', hpair, rfl, rfl⟩
    have hshift := hpair.shift [a] []
    rw [List.append_nil] at hshift
    exact hshift

section Apart

variable (hapart : ∀ a b c, closes a b → ¬ closes b c)

include hapart

/-- Two balanced words with a closing bracket behind them are the same. -/
theorem Balanced.inj {inside inside' : List α} {b' c c' : α} (h : Balanced closes inside)
    (h' : Balanced closes inside') (hb : closes c b) (hb' : closes c' b')
    (heq : inside ++ b :: l = inside' ++ b' :: l') : inside = inside' := by
  induction h generalizing inside' l l' c c' b b' with
  | nil =>
    cases h' with
    | nil => rfl
    | plain ha _ =>
      obtain ⟨rfl, -⟩ := List.cons.inj heq
      exact absurd hb (ha _).2
    | group hab _ _ =>
      obtain ⟨rfl, -⟩ := List.cons.inj heq
      exact absurd hab (hapart _ _ _ hb)
  | plain ha _ ih =>
    cases h' with
    | nil =>
      obtain ⟨rfl, -⟩ := List.cons.inj heq
      exact absurd hb' (ha _).2
    | plain _ h' =>
      obtain ⟨rfl, htail⟩ := List.cons.inj heq
      exact congrArg (List.cons _) (ih h' hb hb' htail)
    | group hab _ _ =>
      obtain ⟨rfl, -⟩ := List.cons.inj heq
      exact absurd hab (ha _).1
  | group hab _ _ ihinside ih =>
    cases h' with
    | nil =>
      obtain ⟨rfl, -⟩ := List.cons.inj heq
      exact absurd hab (hapart _ _ _ hb')
    | plain ha _ =>
      obtain ⟨rfl, -⟩ := List.cons.inj heq
      exact absurd hab (ha _).1
    | group hab' hin' hrest' =>
      simp only [List.cons_append, List.append_assoc, List.cons.injEq] at heq
      obtain ⟨rfl, htail⟩ := heq
      obtain rfl := ihinside hin' hab hab' htail
      obtain ⟨rfl, hbehind⟩ := List.cons.inj (List.append_cancel_left htail)
      rw [ih hrest' hb hb' hbehind]

/-- Every opening bracket of a balanced word is closed in it. -/
theorem Balanced.exists_close {c : α} (h : Balanced closes l) (hsplit : l = before ++ a :: behind)
    (ha : closes a c) :
    ∃ inside b rest, behind = inside ++ b :: rest ∧ closes a b ∧ Balanced closes inside := by
  induction h generalizing before behind with
  | nil => exact absurd hsplit.symm (List.append_ne_nil_of_right_ne_nil _ (List.cons_ne_nil _ _))
  | plain hd _ ih =>
    cases before with
    | nil =>
      obtain ⟨rfl, -⟩ := List.cons.inj hsplit
      exact absurd ha (hd _).1
    | cons d before => exact ih (List.cons.inj hsplit).2
  | group hdb hinside _ ihinside ih =>
    cases before with
    | nil =>
      obtain ⟨rfl, rfl⟩ := List.cons.inj hsplit
      exact ⟨_, _, _, rfl, hdb, hinside⟩
    | cons d before =>
      rcases append_cons_cases (List.cons.inj hsplit).2 with ⟨s, -, hs⟩ | ⟨-, rfl, -⟩ | ⟨s, hs, rfl⟩
      · exact ih hs
      · exact absurd ha (hapart _ _ _ hdb)
      · obtain ⟨inside, b, rest, rfl, hab, hbal⟩ := ihinside hs
        exact ⟨inside, b, rest ++ _ :: _, List.append_assoc _ _ _, hab, hbal⟩

/-- The pairs of a word that begins with one. -/
theorem pair_group_iff (hab : closes a b) (hinside : Balanced closes inside) :
    Pair closes (a :: (inside ++ b :: l)) i j ↔
      (i = 0 ∧ j = inside.length + 1) ∨ (∃ i' j', Pair closes inside i' j' ∧ i = i' + 1 ∧ j = j' + 1) ∨
        ∃ i' j', Pair closes l i' j' ∧ i = i' + (inside.length + 2) ∧ j = j' + (inside.length + 2) := by
  constructor
  · rintro ⟨before, c, inside', d, behind, hsplit, hcd, hinside', rfl, rfl⟩
    cases before with
    | nil =>
      obtain ⟨rfl, htail⟩ := List.cons.inj hsplit
      obtain rfl := hinside.inj hapart hinside' hab hcd htail
      exact Or.inl ⟨rfl, Nat.zero_add _⟩
    | cons e before =>
      rcases append_cons_cases (List.cons.inj hsplit).2 with ⟨s, rfl, hs⟩ | ⟨-, rfl, -⟩ | ⟨s, hs, htail⟩
      · refine Or.inr (Or.inr ⟨_, _, ⟨s, c, inside', d, behind, hs, hcd, hinside', rfl, rfl⟩, ?_, ?_⟩)
        · simp only [List.length_cons, List.length_append]
          omega
        · simp only [List.length_cons, List.length_append]
          omega
      · exact absurd hcd (hapart _ _ _ hab)
      · obtain ⟨within, d', rest, rfl, hcd', hwithin⟩ := hinside.exists_close hapart hs hcd
        rw [List.append_assoc, List.cons_append] at htail
        obtain rfl := hinside'.inj hapart hwithin hcd hcd' htail
        obtain ⟨rfl, -⟩ := List.cons.inj (List.append_cancel_left htail)
        exact Or.inr (Or.inl ⟨_, _, ⟨before, c, inside', d, rest, hs, hcd, hinside', rfl, rfl⟩, rfl,
          Nat.add_right_comm _ _ _⟩)
  · rintro (⟨rfl, rfl⟩ | ⟨i', j', hpair, rfl, rfl⟩ | ⟨i', j', hpair, rfl, rfl⟩)
    · exact ⟨[], a, inside, b, l, rfl, hab, hinside, rfl, (Nat.zero_add _).symm⟩
    · exact hpair.shift [a] (b :: l)
    · have hshift := hpair.shift (a :: (inside ++ [b])) []
      simp only [List.append_nil, List.cons_append, List.append_assoc, List.nil_append, List.length_cons,
        List.length_append, List.length_nil] at hshift
      exact hshift

end Apart

theorem length_group (a b : α) (inside l : List α) :
    (a :: (inside ++ b :: l)).length = l.length + (inside.length + 2) := by
  simp only [List.length_cons, List.length_append]
  omega

theorem getElem?_close (a b : α) (inside l : List α) :
    (a :: (inside ++ b :: l))[inside.length + 1]? = some b := by
  rw [List.getElem?_cons_succ, List.getElem?_append_right (Nat.le_refl _), Nat.sub_self]
  rfl

theorem getElem?_behind (a b : α) (inside l : List α) (k : ℕ) :
    (a :: (inside ++ b :: l))[k + (inside.length + 2)]? = l[k]? := by
  have hk : k + (inside.length + 2) = inside.length + (k + 1) + 1 := by omega
  rw [hk, List.getElem?_cons_succ, List.getElem?_append_right (Nat.le_add_right _ _), Nat.add_sub_cancel_left]
  rfl

/-- There are brackets at both places. -/
theorem Pair.getElem? (h : Pair closes l i j) : ∃ a b, closes a b ∧ l[i]? = some a ∧ l[j]? = some b := by
  obtain ⟨before, a, inside, b, behind, rfl, hab, -, rfl, rfl⟩ := h
  refine ⟨a, b, hab, ?_, ?_⟩
  · rw [List.getElem?_append_right (Nat.le_refl _), Nat.sub_self]
    rfl
  · rw [List.getElem?_append_right (Nat.le_add_right _ _), Nat.add_sub_cancel_left, getElem?_close]

theorem not_outerPlace_nil : ¬ OuterPlace closes [] k := fun ⟨_, _, houter, _⟩ => not_pair_nil houter.1

/-- An element that is no bracket is in no pair. -/
theorem outermost_plain_iff (ha : Plain closes a) :
    Outermost closes (a :: l) i j ↔ ∃ i' j', Outermost closes l i' j' ∧ i = i' + 1 ∧ j = j' + 1 := by
  constructor
  · rintro ⟨hpair, houter⟩
    obtain ⟨i', j', hpair', rfl, rfl⟩ := (pair_plain_iff ha).mp hpair
    refine ⟨i', j', ⟨hpair', fun i'' j'' hin hlt => ?_⟩, rfl, rfl⟩
    exact houter _ _ ((pair_plain_iff ha).mpr ⟨i'', j'', hin, rfl, rfl⟩) (by omega)
  · rintro ⟨i', j', ⟨hpair, houter⟩, rfl, rfl⟩
    refine ⟨(pair_plain_iff ha).mpr ⟨i', j', hpair, rfl, rfl⟩, fun i'' j'' hin hlt => ?_⟩
    obtain ⟨i₀, j₀, hin', rfl, rfl⟩ := (pair_plain_iff ha).mp hin
    exact houter _ _ hin' (by omega)

/-- Outer places behind a letter that is no bracket. -/
theorem outerPlace_plain_iff (ha : Plain closes a) :
    OuterPlace closes (a :: l) k ↔ ∃ k', OuterPlace closes l k' ∧ k = k' + 1 := by
  constructor
  · rintro ⟨i, j, houter, hk⟩
    obtain ⟨i', j', houter', rfl, rfl⟩ := (outermost_plain_iff ha).mp houter
    rcases hk with rfl | rfl
    · exact ⟨i', ⟨i', j', houter', Or.inl rfl⟩, rfl⟩
    · exact ⟨j', ⟨i', j', houter', Or.inr rfl⟩, rfl⟩
  · rintro ⟨k', ⟨i, j, houter, hk⟩, rfl⟩
    exact ⟨_, _, (outermost_plain_iff ha).mpr ⟨i, j, houter, rfl, rfl⟩,
      hk.imp (congrArg (· + 1)) (congrArg (· + 1))⟩

section Apart

variable (hapart : ∀ a b c, closes a b → ¬ closes b c)

include hapart

/-- The first brackets of a word are an outermost pair, and the others are behind it. -/
theorem outermost_group_iff (hab : closes a b) (hinside : Balanced closes inside) :
    Outermost closes (a :: (inside ++ b :: l)) i j ↔
      (i = 0 ∧ j = inside.length + 1) ∨
        ∃ i' j', Outermost closes l i' j' ∧ i = i' + (inside.length + 2) ∧ j = j' + (inside.length + 2) := by
  have hpairs {i j : ℕ} := pair_group_iff (l := l) (i := i) (j := j) hapart hab hinside
  constructor
  · rintro ⟨hpair, houter⟩
    rcases hpairs.mp hpair with hfirst | ⟨i', j', hin, rfl, rfl⟩ | ⟨i', j', hbehind, rfl, rfl⟩
    · exact Or.inl hfirst
    · have hlt := hin.lt_length
      exact absurd ⟨Nat.succ_pos i', Nat.succ_lt_succ hlt⟩ (houter _ _ (hpairs.mpr (Or.inl ⟨rfl, rfl⟩)))
    · refine Or.inr ⟨i', j', ⟨hbehind, fun i'' j'' hin hlt => ?_⟩, rfl, rfl⟩
      exact houter _ _ (hpairs.mpr (Or.inr (Or.inr ⟨i'', j'', hin, rfl, rfl⟩))) (by omega)
  · rintro (⟨rfl, rfl⟩ | ⟨i', j', ⟨hpair, houter⟩, rfl, rfl⟩)
    · exact ⟨hpairs.mpr (Or.inl ⟨rfl, rfl⟩), fun _ _ _ hlt => Nat.not_lt_zero _ hlt.1⟩
    · refine ⟨hpairs.mpr (Or.inr (Or.inr ⟨i', j', hpair, rfl, rfl⟩)), fun i'' j'' hin hlt => ?_⟩
      have hij := hpair.lt
      rcases hpairs.mp hin with ⟨rfl, rfl⟩ | ⟨i₀, j₀, hinside', rfl, rfl⟩ | ⟨i₀, j₀, hbehind, rfl, rfl⟩
      · omega
      · have := hinside'.lt_length
        omega
      · exact houter _ _ hbehind (by omega)

/-- Outer places behind a balanced group are its ends and those behind it. -/
theorem outerPlace_group_iff (hab : closes a b) (hinside : Balanced closes inside) :
    OuterPlace closes (a :: (inside ++ b :: l)) k ↔
      k = 0 ∨ k = inside.length + 1 ∨ ∃ k', OuterPlace closes l k' ∧ k = k' + (inside.length + 2) := by
  have houtermost {i j : ℕ} := outermost_group_iff (l := l) (i := i) (j := j) hapart hab hinside
  constructor
  · rintro ⟨i, j, houter, hk⟩
    rcases houtermost.mp houter with ⟨rfl, rfl⟩ | ⟨i', j', houter', rfl, rfl⟩
    · exact hk.imp id Or.inl
    · refine Or.inr (Or.inr ?_)
      rcases hk with rfl | rfl
      · exact ⟨i', ⟨i', j', houter', Or.inl rfl⟩, rfl⟩
      · exact ⟨j', ⟨i', j', houter', Or.inr rfl⟩, rfl⟩
  · rintro (rfl | rfl | ⟨k', ⟨i, j, houter, hk⟩, rfl⟩)
    · exact ⟨_, _, houtermost.mpr (Or.inl ⟨rfl, rfl⟩), Or.inl rfl⟩
    · exact ⟨_, _, houtermost.mpr (Or.inl ⟨rfl, rfl⟩), Or.inr rfl⟩
    · exact ⟨_, _, houtermost.mpr (Or.inr ⟨i, j, houter, rfl, rfl⟩),
        hk.imp (congrArg (· + (inside.length + 2))) (congrArg (· + (inside.length + 2)))⟩

/-- The elements of the outermost pairs are replaced. -/
theorem OuterReplaced.getElem?_outer (h : OuterReplaced closes f l l') (hk : OuterPlace closes l k) :
    l'[k]? = l[k]?.map f := by
  induction h generalizing k with
  | nil => exact absurd hk not_outerPlace_nil
  | plain ha _ ih =>
    obtain ⟨k', hk', rfl⟩ := (outerPlace_plain_iff ha).mp hk
    exact ih hk'
  | @group a b inside l l' hab hinside _ ih =>
    rcases (outerPlace_group_iff hapart hab hinside).mp hk with rfl | rfl | ⟨k', hk', rfl⟩
    · rfl
    · rw [getElem?_close, getElem?_close]
      rfl
    · rw [getElem?_behind, getElem?_behind]
      exact ih hk'

/-- All others are kept. -/
theorem OuterReplaced.getElem?_other (h : OuterReplaced closes f l l') (hk : ¬ OuterPlace closes l k) :
    l'[k]? = l[k]? := by
  induction h generalizing k with
  | nil => rfl
  | plain ha _ ih =>
    cases k with
    | zero => rfl
    | succ k => exact ih fun hk' => hk ((outerPlace_plain_iff ha).mpr ⟨k, hk', rfl⟩)
  | @group a b inside l l' hab hinside _ ih =>
    have hplaces := mt (outerPlace_group_iff (k := k) (l := l) hapart hab hinside).mpr hk
    rcases Nat.lt_trichotomy k (inside.length + 1) with hlt | rfl | hgt
    · cases k with
      | zero => exact absurd (Or.inl rfl) hplaces
      | succ k =>
        have hlt := Nat.lt_of_succ_lt_succ hlt
        rw [List.getElem?_cons_succ, List.getElem?_cons_succ, List.getElem?_append_left hlt,
          List.getElem?_append_left hlt]
    · exact absurd (Or.inr (Or.inl rfl)) hplaces
    · obtain ⟨k', rfl⟩ := Nat.exists_eq_add_of_le' (Nat.succ_le_of_lt hgt)
      rw [getElem?_behind, getElem?_behind]
      exact ih fun hk' => hplaces (Or.inr (Or.inr ⟨k', hk', rfl⟩))

end Apart

end NestedBrackets
