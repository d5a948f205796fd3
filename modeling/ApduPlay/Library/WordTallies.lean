import ApduPlay.Library.WordCuts
import Mathlib.Algebra.Order.Group.Nat

/-!
# Tallies of beginnings

A beginning is tallied while words come: once for every word that goes through it.
A word that parts below the beginning from all that went through it so far starts
the tally again, and a word that parts above it, where all words went on to it so
far, is tallied as well. The tally differs from the number of words that go
through it by those that were lost and those that were gained so.
-/

namespace WordCuts

universe u

variable {α : Type u} {words before : List (List α)} {s u v w x y e e' : List α} {b : α}

/-- The word goes through `w`, and parts from what the words through `w` have in
common. -/
def PartsBelow (before : List (List α)) (s w : List α) : Prop :=
  w <+: s ∧ ∃ e ∈ before, w <+: e ∧ ∃ y ∈ e.inits, ¬ y <+: s ∧ ∀ e' ∈ before, w <+: e' → y <+: e'

/-- The word does not go through `w`, but through a beginning from where all words
went on to `w`. -/
def PartsAbove (before : List (List α)) (s w : List α) : Prop :=
  ¬ w <+: s ∧ (∃ e ∈ before, w <+: e) ∧
    ∃ u ∈ w.inits, u ≠ [] ∧ u <+: s ∧ ∀ e ∈ before, u <+: e → w <+: e

/-- Where words that begin with the same letter are equal none of them parts. -/
theorem not_parts (hheads : ∀ e ∈ s :: before, ∀ e' ∈ s :: before, e.head? = e'.head? → e = e')
    (hne : w ≠ []) :
    ¬ PartsBelow before s w ∧ ¬ PartsAbove before s w := by
  have hsame {u e : List α} (hu : u ≠ []) (hus : u <+: s) (he : e ∈ before) (hue : u <+: e) : s = e := by
    refine hheads s List.mem_cons_self e (List.mem_cons_of_mem s he) ?_
    obtain ⟨c, rest, rfl⟩ := List.exists_cons_of_ne_nil hu
    obtain ⟨-, rfl⟩ := hus
    obtain ⟨-, rfl⟩ := hue
    rfl
  constructor
  · rintro ⟨hws, e, he, hwe, y, hy, hys, -⟩
    exact hys (hsame hne hws he hwe ▸ (List.mem_inits y e).mp hy)
  · rintro ⟨hws, ⟨e, he, hwe⟩, u, hu, hune, hus, -⟩
    exact hws (hsame hune hus he (((List.mem_inits u w).mp hu).trans hwe) ▸ hwe)

section Decide

variable [DecidableEq α]

instance (before : List (List α)) (s w : List α) : Decidable (PartsBelow before s w) :=
  inferInstanceAs (Decidable (_ ∧ _))

instance (before : List (List α)) (s w : List α) : Decidable (PartsAbove before s w) :=
  inferInstanceAs (Decidable (_ ∧ _ ∧ _))

/-- The tally of a beginning. The last word comes first. -/
def tally (w : List α) : List (List α) → ℕ
  | [] => 0
  | s :: before =>
    if PartsBelow before s w then 1
    else if w <+: s ∨ PartsAbove before s w then tally w before + 1
    else tally w before

/-- Words through `w` that came before the tally was started again. -/
def lost (w : List α) : List (List α) → ℕ
  | [] => 0
  | s :: before => if PartsBelow before s w then before.countP (w <+: ·) else lost w before

/-- Words not through `w` that were tallied since. -/
def gained (w : List α) : List (List α) → ℕ
  | [] => 0
  | s :: before =>
    if PartsBelow before s w then 0
    else if PartsAbove before s w then gained w before + 1
    else gained w before

/-- What is tallied and what was lost is what goes through and what was gained. -/
theorem tally_add_lost (w : List α) (words : List (List α)) :
    tally w words + lost w words = words.countP (w <+: ·) + gained w words := by
  induction words with
  | nil => rfl
  | cons s before ih =>
    have hcount : (s :: before).countP (w <+: ·) = before.countP (w <+: ·) + if w <+: s then 1 else 0 := by
      simp only [List.countP_cons, decide_eq_true_eq]
    by_cases hbelow : PartsBelow before s w
    · rw [tally, lost, gained, if_pos hbelow, if_pos hbelow, if_pos hbelow, hcount,
        if_pos hbelow.1, Nat.add_comm]
    · rw [tally, lost, gained, if_neg hbelow, if_neg hbelow, if_neg hbelow, hcount]
      by_cases hs : w <+: s
      · have habove : ¬ PartsAbove before s w := fun habove => habove.1 hs
        rw [if_pos (Or.inl hs), if_neg habove, if_pos hs]
        omega
      · by_cases habove : PartsAbove before s w
        · rw [if_pos (Or.inr habove), if_pos habove, if_neg hs]
          omega
        · rw [if_neg (not_or.mpr ⟨hs, habove⟩), if_neg habove, if_neg hs]
          exact ih

/-- Where words that begin with the same letter are equal nothing is lost or gained. -/
theorem lost_gained_eq_zero (hheads : ∀ e ∈ words, ∀ e' ∈ words, e.head? = e'.head? → e = e') (hne : w ≠ []) :
    lost w words = 0 ∧ gained w words = 0 := by
  induction words with
  | nil => exact ⟨rfl, rfl⟩
  | cons s before ih =>
    obtain ⟨hbelow, habove⟩ := not_parts hheads hne
    rw [lost, gained, if_neg hbelow, if_neg hbelow, if_neg habove]
    exact ih fun e he e' he' => hheads e (List.mem_cons_of_mem s he) e' (List.mem_cons_of_mem s he')

/-- Nothing is tallied before a word came. -/
theorem tally_eq_zero (hw : ∀ e ∈ words, ¬ w <+: e) : tally w words = 0 := by
  induction words with
  | nil => rfl
  | cons s before ih =>
    obtain ⟨hs, hbefore⟩ := List.forall_mem_cons.mp hw
    have hnone : ¬ ∃ e ∈ before, w <+: e := fun ⟨e, he, hwe⟩ => hbefore e he hwe
    rw [tally, if_neg fun h => hs h.1, if_neg fun h => h.elim hs fun habove => hnone habove.2.1]
    exact ih hbefore

end Decide

/-- Of words none of which is a proper beginning of another every one ends at a cut. -/
theorem mem_cutsOf_of_mem (hnp : ∀ e ∈ words, ∀ e' ∈ words, e <+: e' → e = e') (he : e ∈ words) :
    e ∈ cutsOf words := by
  obtain ⟨before, e', after, hwords, hee', hbefore⟩ := exists_first ⟨e, he, List.prefix_refl e⟩
  obtain rfl := hnp e he e' (by simp [hwords]) hee'
  exact Or.inr (Or.inl ⟨before, after, hwords, hbefore⟩)

/-- Two words with a common beginning go on together, or part at a cut. -/
theorem prefix_or_cut (hnp : ∀ e ∈ words, ∀ e' ∈ words, e <+: e' → e = e') (he : e ∈ words) (he' : e' ∈ words)
    (hu : u <+: e) (hu' : u <+: e') (hy : y <+: e) :
    y <+: e' ∨ ∃ x ∈ cutsOf words, u <+: x ∧ x <+: y ∧ x ≠ y := by
  rcases prefix_or_extend_or_part y e' with hpre | ⟨a, rest, hext⟩ | ⟨x, a, b, s', t', hs, ht, hab⟩
  · exact Or.inl hpre
  · have hle : e' <+: y := ⟨a :: rest, hext.symm⟩
    have heq := hnp e' he' e he (hle.trans hy)
    exact Or.inl (heq ▸ hy)
  · have hxe : x ++ [b] <+: e := List.IsPrefix.trans ⟨t', by rw [ht]; simp⟩ hy
    have hxe' : x ++ [a] <+: e' := ⟨s', by rw [hs]; simp⟩
    refine Or.inr ⟨x, Or.inr (Or.inr ⟨e, he, e', he', b, a, hxe, hxe', hab⟩), ?_, ⟨b :: t', ht.symm⟩, ?_⟩
    · -- The words do not part inside of what they have in common.
      exact (prefix_or_next hu' hxe').resolve_right fun hinside =>
        hab (next_letter_unique hxe (hinside.trans hu))
    · rintro rfl
      have hlength := congrArg List.length ht
      simp at hlength

/-- What all words through `w` go through lies above the next cut. -/
theorem prefix_of_cut (hcut : x ∈ cutsOf words) (hne : x ≠ []) (hw : w <+: x)
    (hall : ∀ e ∈ words, w <+: e → y <+: e) : y <+: x := by
  rcases hcut with hnil | ⟨before, after, rfl, -⟩ | ⟨e, he, e', he', a, b, ha, hb, hab⟩
  · exact absurd hnil hne
  · exact hall x (by simp) hw
  · have hxe : x <+: e := (List.prefix_append x [a]).trans ha
    have hxe' : x <+: e' := (List.prefix_append x [b]).trans hb
    exact (prefix_or_next (hall e he (hw.trans hxe)) ha).resolve_right fun hinside =>
      hab (next_letter_unique (hinside.trans (hall e' he' (hw.trans hxe'))) hb)

/-- At a cut there is a word. -/
theorem exists_word_of_cut (hcut : x ∈ cutsOf words) (hne : x ≠ []) : ∃ e ∈ words, x <+: e := by
  rcases hcut with hnil | ⟨before, after, rfl, -⟩ | ⟨e, he, -, -, a, -, ha, -⟩
  · exact absurd hnil hne
  · exact ⟨x, by simp, List.prefix_refl x⟩
  · exact ⟨e, he, (List.prefix_append x [a]).trans ha⟩

section Steps

variable [DecidableEq α]

/-- A word that leaves the way to `w` at or above a cut is not tallied. -/
theorem tally_outside (hcut : v ∈ cutsOf words) (hw : v ++ [b] <+: w) (hout : ¬ v ++ [b] <+: s) :
    tally w (s :: words.reverse) = tally w words.reverse := by
  have hs : ¬ w <+: s := fun hs => hout (hw.trans hs)
  have habove : ¬ PartsAbove words.reverse s w := by
    rintro ⟨-, -, u, hu, hne, hus, hall⟩
    have huw := (List.mem_inits u w).mp hu
    have huv : u <+: v := (prefix_or_next huw hw).resolve_right fun hinside => hout (hinside.trans hus)
    have hvne : v ≠ [] := fun hnil => hne (List.prefix_nil.mp (hnil ▸ huv))
    have hwv := prefix_of_cut hcut hvne huv fun e he hue => hall e (List.mem_reverse.mpr he) hue
    have hlength := (hw.trans hwv).length_le
    rw [List.length_append, List.length_singleton] at hlength
    omega
  rw [tally, if_neg fun hbelow => hs hbelow.1, if_neg (not_or.mpr ⟨hs, habove⟩)]

/-- A word that goes on towards the next cut behind `w` is tallied. -/
theorem tally_entered (hnp : ∀ e ∈ words ++ [s], ∀ e' ∈ words ++ [s], e <+: e' → e = e')
    (hcut : x ∈ cutsOf words)
    (hw : w <+: x) (hgap : ∀ z ∈ cutsOf (words ++ [s]), w <+: z → z <+: x → z = x)
    (hu : u <+: w) (hne : u ≠ [])
    (hus : u <+: s) (hgap' : ∀ z ∈ cutsOf words, u <+: z → z <+: x → z = x) :
    tally w (s :: words.reverse) = tally w words.reverse + 1 := by
  have hwne : w ≠ [] := fun hnil => hne (List.prefix_nil.mp (hnil ▸ hu))
  have hxne : x ≠ [] := fun hnil => hwne (List.prefix_nil.mp (hnil ▸ hw))
  obtain ⟨e, he, hxe⟩ := exists_word_of_cut hcut hxne
  have hbelow : ¬ PartsBelow words.reverse s w := by
    rintro ⟨hws, -, -, -, y, -, hys, hall⟩
    have hyx := prefix_of_cut hcut hxne hw fun e he hwe => hall e (List.mem_reverse.mpr he) hwe
    rcases prefix_or_cut hnp (List.mem_append_left [s] he)
      (List.mem_append_right words (List.mem_singleton_self s))
        (hw.trans hxe) hws hxe with hxs | ⟨z, hz, hwz, hzx, hne'⟩
    · exact hys (hyx.trans hxs)
    · exact hne' (hgap z hz hwz hzx)
  have hcounted : w <+: s ∨ PartsAbove words.reverse s w := by
    by_cases hws : w <+: s
    · exact Or.inl hws
    · refine Or.inr ⟨hws, ⟨e, List.mem_reverse.mpr he, hw.trans hxe⟩, u,
        (List.mem_inits u w).mpr hu, hne, hus, ?_⟩
      intro e' he' hue'
      have hnp' := fun a ha c hc => hnp a (List.mem_append_left [s] ha) c (List.mem_append_left [s] hc)
      rcases prefix_or_cut hnp' he (List.mem_reverse.mp he') (hu.trans (hw.trans hxe)) hue'
        (hw.trans hxe) with
        hwe' | ⟨z, hz, huz, hzw, hne'⟩
      · exact hwe'
      · have hzx := hgap' z hz huz (hzw.trans hw)
        exact absurd (hzw.eq_of_length_le (hzx ▸ hw.length_le)) hne'
  rw [tally, if_neg hbelow, if_pos hcounted]

/-- Before a new cut the tally is one. -/
theorem tally_made (hnp : ∀ e ∈ words ++ [s], ∀ e' ∈ words ++ [s], e <+: e' → e = e')
    (hcut : x ∈ cutsOf (words ++ [s])) (hnew : x ∉ cutsOf words) (hw : w <+: x)
    (hgap : ∀ z ∈ cutsOf (words ++ [s]), w <+: z → z <+: x → z = x) : tally w (s :: words.reverse) = 1 := by
  have hold : cutsOf words ⊆ cutsOf (words ++ [s]) := by
    rw [cutsOf_append_singleton]
    exact Set.subset_union_left
  rw [cutsOf_append_singleton] at hcut
  obtain ⟨hs, hends⟩ := hcut.resolve_left hnew
  have hxs : x <+: s := hends.elim (fun heq => heq ▸ List.prefix_refl s) And.left
  have hsmem : s ∈ words ++ [s] := List.mem_append_right words (List.mem_singleton_self s)
  by_cases hthrough : ∃ e ∈ words, w <+: e
  · obtain ⟨e, he, hwe⟩ := hthrough
    have hmem := List.mem_append_left [s] he
    have hxe : x <+: e := by
      rcases prefix_or_cut hnp hsmem hmem (hw.trans hxs) hwe hxs with hxe | ⟨z, hz, hwz, hzx, hne⟩
      · exact hxe
      · exact absurd (hgap z hz hwz hzx) hne
    have hes : e ≠ s := fun heq => hs (Or.inr ⟨e, he, heq ▸ List.prefix_refl s⟩)
    obtain ⟨a, ha⟩ := exists_next hxe fun heq => hes (hnp e hmem s hsmem (heq ▸ hxs))
    have hparts : ¬ x ++ [a] <+: s := by
      rcases hends with rfl | hmax
      · exact fun hle => absurd hle.length_le (by simp)
      · exact fun hle => hmax.2.2 a hle (Or.inr ⟨e, he, ha⟩)
    have hbelow : PartsBelow words.reverse s w := by
      refine ⟨hw.trans hxs, e, List.mem_reverse.mpr he, hwe, x ++ [a],
        (List.mem_inits _ e).mpr ha, hparts, ?_⟩
      intro e' he' hwe'
      have hnp' := fun a ha c hc => hnp a (List.mem_append_left [s] ha) c (List.mem_append_left [s] hc)
      rcases prefix_or_cut hnp' he (List.mem_reverse.mp he') hwe hwe' ha with hle | ⟨z, hz, hwz, hzx, hne⟩
      · exact hle
      · -- The words would part at an old cut, but there is none from `w` to `x`.
        have hle : z <+: x := (List.prefix_concat_iff.mp hzx).resolve_left hne
        exact absurd (hgap z (hold hz) hwz hle ▸ hz) hnew
    rw [tally, if_pos hbelow]
  · have hnone : ∀ e ∈ words.reverse, ¬ w <+: e := fun e he hwe => hthrough ⟨e, List.mem_reverse.mp he, hwe⟩
    have hbelow : ¬ PartsBelow words.reverse s w := fun ⟨_, e, he, hwe, _⟩ => hnone e he hwe
    rw [tally, if_neg hbelow, if_pos (Or.inl (hw.trans hxs)), tally_eq_zero hnone]

end Steps

end WordCuts
