import Mathlib.Data.List.Chain
import Mathlib.Data.List.DropRight
import Mathlib.Data.List.Infix

/-!
# Searching, trimming and cutting lists

Finding a block in a list, taking elements off its ends, and cutting a list
into the parts that end with a separator.
-/

namespace TextSearch

universe u

variable {α : Type u} {s : List α} {p q : α → Bool}

/-- Elements that a filter drops may be taken off the front before. -/
theorem filter_dropWhile (h : ∀ a ∈ s, p a = true → q a = false) :
    (s.dropWhile p).filter q = s.filter q := by
  induction s with
  | nil => rfl
  | cons a s ih =>
    cases hp : p a with
    | false => rw [List.dropWhile_cons_of_neg (by simp [hp])]
    | true =>
      rw [List.dropWhile_cons_of_pos hp, ih fun b hb => h b (List.mem_cons_of_mem _ hb),
        List.filter_cons_of_neg (by simp [h a List.mem_cons_self hp])]

/-- And off the back. -/
theorem filter_rdropWhile (h : ∀ a ∈ s, p a = true → q a = false) :
    (s.rdropWhile p).filter q = s.filter q := by
  rw [List.rdropWhile, List.filter_reverse, filter_dropWhile fun a ha => h a (List.mem_reverse.mp ha),
    List.filter_reverse, List.reverse_reverse]

/-- What is taken off the back does not cut a block of elements that stay. -/
theorem infix_rdropWhile_iff {pat : List α} (hne : pat ≠ []) (h : ∀ a ∈ pat, p a = false) :
    pat <:+: s.rdropWhile p ↔ pat <:+: s := by
  constructor
  · exact fun hinfix => hinfix.trans (s.rdropWhile_prefix p).isInfix
  · rintro ⟨u, v, rfl⟩
    have hkeep : (pat.reverse ++ u.reverse).dropWhile p = pat.reverse ++ u.reverse := by
      obtain ⟨a, rest, hcons⟩ := List.exists_cons_of_ne_nil (mt List.reverse_eq_nil_iff.mp hne)
      have ha := h a (List.mem_reverse.mp (hcons ▸ List.mem_cons_self))
      rw [hcons, List.cons_append, List.dropWhile_cons_of_neg (by rw [ha]; exact Bool.false_ne_true)]
    rw [List.rdropWhile, List.reverse_append, List.reverse_append, List.dropWhile_append, hkeep]
    split_ifs
    · exact ⟨u, [], by simp⟩
    · exact ⟨u, (v.reverse.dropWhile p).reverse, by simp⟩

/-- Elements that a map neither changes nor makes stand where they stood. -/
theorem infix_map_iff {pat : List α} {f : α → α} (h : ∀ a ∈ pat, ∀ b, f b = a ↔ b = a) :
    pat <:+: s.map f ↔ pat <:+: s := by
  have hsame : ∀ {w pat : List α}, (∀ a ∈ pat, ∀ b, f b = a ↔ b = a) → (w.map f = pat ↔ w = pat) := by
    intro w
    induction w with
    | nil => simp
    | cons b w ih =>
      intro pat hpat
      cases pat with
      | nil => simp
      | cons a pat =>
        obtain ⟨ha, hpat⟩ := List.forall_mem_cons.mp hpat
        rw [List.map_cons, List.cons.injEq, List.cons.injEq, ha, ih hpat]
  constructor
  · rintro ⟨u, v, heq⟩
    obtain ⟨front, back, rfl, hfront, hback⟩ := List.map_eq_append_iff.mp heq.symm
    obtain ⟨before, w, rfl, -, hw⟩ := List.map_eq_append_iff.mp hfront
    exact ⟨before, back, by rw [(hsame h).mp hw]⟩
  · rintro ⟨u, v, rfl⟩
    exact ⟨u.map f, v.map f, by rw [List.map_append, List.map_append, (hsame h).mpr rfl]⟩

variable [DecidableEq α]

/-- Position of the first occurrence of a block. -/
def find (pat : List α) : List α → Option ℕ
  | [] => if pat = [] then some 0 else none
  | a :: s => if pat.isPrefixOf (a :: s) then some 0 else (find pat s).map (· + 1)

/-- The parts up to and including a separator, after some elements already read. -/
def partsFrom (sep : α) : List α → List α → List (List α)
  | _, [] => []
  | acc, a :: s => if a = sep then (acc ++ [a]) :: partsFrom sep [] s else partsFrom sep (acc ++ [a]) s

/-- The parts up to and including a separator. What stands behind the last
separator is no part. -/
def parts (sep : α) (s : List α) : List (List α) := partsFrom sep [] s

variable {pat t : List α} {sep : α} {k : ℕ}

/-- What is found is there. -/
theorem infix_of_find (h : find pat s = some k) : pat <:+: s := by
  induction s generalizing k with
  | nil =>
    unfold find at h
    split_ifs at h with hpat
    exact hpat ▸ List.nil_infix
  | cons a s ih =>
    unfold find at h
    split_ifs at h with hprefix
    · exact (List.isPrefixOf_iff_prefix.mp hprefix).isInfix
    · obtain ⟨j, hj, -⟩ := Option.map_eq_some_iff.mp h
      exact (ih hj).trans (List.suffix_cons a s).isInfix

/-- Where it is found, the list is cut into what stands before and behind. -/
theorem append_of_find (h : find pat s = some k) : ∃ t u, s = t ++ (pat ++ u) ∧ t.length = k := by
  induction s generalizing k with
  | nil =>
    unfold find at h
    split_ifs at h with hpat
    cases h
    exact ⟨[], [], by rw [hpat]; rfl, rfl⟩
  | cons a s ih =>
    unfold find at h
    split_ifs at h with hprefix
    · cases h
      obtain ⟨u, hu⟩ := List.isPrefixOf_iff_prefix.mp hprefix
      exact ⟨[], u, hu.symm, rfl⟩
    · obtain ⟨j, hj, rfl⟩ := Option.map_eq_some_iff.mp h
      obtain ⟨t, u, rfl, ht⟩ := ih hj
      exact ⟨a :: t, u, rfl, congrArg (· + 1) ht⟩

/-- A block that occurs is found. -/
theorem find_of_infix (h : pat <:+: s) : ∃ k, find pat s = some k := by
  induction s with
  | nil => exact ⟨0, if_pos (List.infix_nil.mp h)⟩
  | cons a s ih =>
    rcases List.infix_cons_iff.mp h with hprefix | hinfix
    · exact ⟨0, if_pos (List.isPrefixOf_iff_prefix.mpr hprefix)⟩
    · obtain ⟨k, hk⟩ := ih hinfix
      rw [find, hk]
      split_ifs
      · exact ⟨0, rfl⟩
      · exact ⟨k + 1, rfl⟩

theorem find_eq_none_iff : find pat s = none ↔ ¬ pat <:+: s := by
  constructor
  · rintro h hinfix
    obtain ⟨k, hk⟩ := find_of_infix hinfix
    cases h.symm.trans hk
  · intro h
    cases hfind : find pat s with
    | none => rfl
    | some k => exact absurd (infix_of_find hfind) h

/-- The first place where a block stands is where it is found. -/
theorem find_of_first (h : pat <+: s.drop k) (hmin : ∀ j, j < k → ¬ pat <+: s.drop j) :
    find pat s = some k := by
  induction s generalizing k with
  | nil =>
    have hnil : pat = [] := List.prefix_nil.mp (List.drop_nil ▸ h)
    have hzero : k = 0 := by
      by_contra hne
      exact hmin 0 (Nat.pos_of_ne_zero hne) (hnil ▸ List.nil_prefix)
    rw [find, if_pos hnil, hzero]
  | cons a s ih =>
    cases k with
    | zero => exact if_pos (List.isPrefixOf_iff_prefix.mpr h)
    | succ k =>
      have hnot := mt List.isPrefixOf_iff_prefix.mp (hmin 0 (Nat.succ_pos k))
      have hrest := ih h fun j hj => hmin (j + 1) (Nat.succ_lt_succ hj)
      exact (if_neg hnot).trans (congrArg _ hrest)

/-- A block that is found before is found there. -/
theorem find_append_of_some (h : find pat t = some k) (s : List α) : find pat (t ++ s) = some k := by
  induction t generalizing k with
  | nil =>
    unfold find at h
    split_ifs at h with hpat
    rw [hpat, ← h]
    cases s <;> rfl
  | cons a t ih =>
    unfold find at h
    split_ifs at h with hprefix
    · have hlong : pat <+: a :: (t ++ s) :=
        (List.isPrefixOf_iff_prefix.mp hprefix).trans (List.prefix_append (a :: t) s)
      exact (if_pos (List.isPrefixOf_iff_prefix.mpr hlong)).trans h
    · obtain ⟨j, hj, rfl⟩ := Option.map_eq_some_iff.mp h
      have hnot : ¬ pat <+: a :: (t ++ s) := by
        intro hlong
        have hshort : pat <+: a :: t := List.prefix_of_prefix_length_le hlong (List.prefix_append (a :: t) s)
          (((infix_of_find hj).length_le).trans (Nat.le_succ _))
        exact hprefix (List.isPrefixOf_iff_prefix.mpr hshort)
      rw [List.cons_append, find, if_neg (mt List.isPrefixOf_iff_prefix.mp hnot), ih hj]
      rfl

omit [DecidableEq α] in
/-- A block does not reach beyond an element that it does not have. -/
theorem prefix_append_cons {e : α} (he : e ∉ pat) (h : pat <+: t ++ e :: s) : pat <+: t := by
  rcases Nat.lt_or_ge t.length pat.length with hlt | hle
  · have hlong : t ++ [e] <+: pat := by
      have hfront : t ++ [e] <+: t ++ e :: s := ⟨s, by rw [List.append_assoc, List.singleton_append]⟩
      refine List.prefix_of_prefix_length_le hfront h ?_
      rw [List.length_append, List.length_singleton]
      exact hlt
    exact absurd (hlong.subset (List.mem_append_right t List.mem_cons_self)) he
  · exact List.prefix_of_prefix_length_le h (List.prefix_append t _) hle

/-- Otherwise it is found behind such an element. -/
theorem find_append_cons {e : α} (he : e ∉ pat) (hne : pat ≠ []) (h : find pat t = none) (s : List α) :
    find pat (t ++ e :: s) = (find pat s).map (· + (t.length + 1)) := by
  induction t with
  | nil =>
    have hnot : ¬ pat <+: e :: s := by
      intro hprefix
      have hshort : pat <+: [] := prefix_append_cons he hprefix
      exact hne (List.prefix_nil.mp hshort)
    rw [List.nil_append, find, if_neg (mt List.isPrefixOf_iff_prefix.mp hnot)]
    rfl
  | cons a t ih =>
    have hnot : ¬ pat <+: a :: t := fun hprefix => find_eq_none_iff.mp h hprefix.isInfix
    have hrest : find pat t = none :=
      find_eq_none_iff.mpr fun hinfix => find_eq_none_iff.mp h (List.infix_cons hinfix)
    have hlong : ¬ pat <+: a :: (t ++ e :: s) := fun hprefix => hnot (prefix_append_cons he hprefix)
    rw [List.cons_append, find, if_neg (mt List.isPrefixOf_iff_prefix.mp hlong), ih hrest, Option.map_map]
    rfl

/-- A block that breaks a relation between neighbours does not occur in a list
that keeps it. -/
theorem find_eq_none {R : α → α → Prop} (hs : s.IsChain R) (hpat : ¬ pat.IsChain R) : find pat s = none := by
  cases h : find pat s with
  | none => rfl
  | some k =>
    have hchain : pat.IsChain R := List.IsChain.infix hs (infix_of_find h)
    exact absurd hchain hpat

/-- If only the last element of the block breaks the relation, its first
occurrence is where the relation is first broken. -/
theorem find_append {R : α → α → Prop} {q : List α} {e : α} (ht : (t ++ q).IsChain R)
    (hpat : ¬ (q ++ [e]).IsChain R) (s : List α) :
    find (q ++ [e]) (t ++ (q ++ e :: s)) = some t.length := by
  induction t with
  | nil =>
    have hprefix : (q ++ [e]).isPrefixOf (q ++ e :: s) = true :=
      List.isPrefixOf_iff_prefix.mpr ⟨s, by simp⟩
    cases hq : q ++ e :: s with
    | nil => simp at hq
    | cons a rest =>
      rw [hq] at hprefix
      exact if_pos hprefix
  | cons a t ih =>
    have htail : (t ++ q).IsChain R := ht.tail
    have hnot : ¬ (q ++ [e]).isPrefixOf (a :: (t ++ (q ++ e :: s))) = true := by
      intro hprefix
      have hlong : (q ++ [e]) <+: (a :: t ++ q) ++ e :: s := by
        have := List.isPrefixOf_iff_prefix.mp hprefix
        simpa using this
      have hshort : (q ++ [e]) <+: a :: t ++ q :=
        List.prefix_of_prefix_length_le hlong (List.prefix_append _ _) (by simp)
      have hchain : (q ++ [e]).IsChain R := List.IsChain.infix ht hshort.isInfix
      exact hpat hchain
    rw [List.cons_append, find, if_neg hnot, ih htail]
    rfl

/-- A single element is found where it first stands. -/
theorem find_singleton {e : α} (h : e ∉ t) (s : List α) : find [e] (t ++ e :: s) = some t.length := by
  induction t with
  | nil => simp [find]
  | cons a t ih =>
    have hne : e ≠ a := fun he => h (he ▸ List.mem_cons_self)
    simp [find, hne, ih fun ht => h (List.mem_cons_of_mem a ht)]

/-- What stands before the first occurrence is determined. -/
theorem append_cons_inj {e : α} {x y : List α} (hs : e ∉ s) (ht : e ∉ t) (h : s ++ e :: x = t ++ e :: y) :
    s = t ∧ x = y := by
  have hpos : s.length = t.length := by
    have hfind := find_singleton hs x
    rw [h, find_singleton ht y] at hfind
    exact (Option.some.inj hfind).symm
  obtain ⟨hst, hxy⟩ := List.append_inj h hpos
  exact ⟨hst, (List.cons.inj hxy).2⟩

theorem find_singleton_eq_none {e : α} (h : e ∉ t) : find [e] t = none := by
  cases hfind : find [e] t with
  | none => rfl
  | some k => exact absurd (List.singleton_sublist.mp (infix_of_find hfind).sublist) h

/-- A list without separator has no part. -/
theorem partsFrom_eq_nil (h : sep ∉ s) (acc : List α) : partsFrom sep acc s = [] := by
  induction s generalizing acc with
  | nil => rfl
  | cons a s ih =>
    have hne : a ≠ sep := fun he => h (he ▸ List.mem_cons_self)
    rw [partsFrom, if_neg hne]
    exact ih (fun hs => h (List.mem_cons_of_mem a hs)) _

/-- The first part ends at the first separator. -/
theorem partsFrom_append (h : sep ∉ t) (acc s : List α) :
    partsFrom sep acc (t ++ sep :: s) = (acc ++ t ++ [sep]) :: parts sep s := by
  induction t generalizing acc with
  | nil => rw [List.nil_append, partsFrom, if_pos rfl, List.append_nil, parts]
  | cons a t ih =>
    have hne : a ≠ sep := fun he => h (he ▸ List.mem_cons_self)
    rw [List.cons_append, partsFrom, if_neg hne,
      ih fun ht => h (List.mem_cons_of_mem a ht)]
    simp

/-- Terminated pieces are cut into these pieces again. -/
theorem parts_flatMap {ts : List (List α)} (h : ∀ t ∈ ts, sep ∉ t) (hs : sep ∉ s) :
    parts sep (ts.flatMap (· ++ [sep]) ++ s) = ts.map (· ++ [sep]) := by
  induction ts with
  | nil => exact partsFrom_eq_nil hs []
  | cons t ts ih =>
    obtain ⟨ht, hts⟩ := List.forall_mem_cons.mp h
    rw [List.flatMap_cons, List.append_assoc, List.append_assoc, parts, List.singleton_append,
      partsFrom_append ht, ih hts]
    rfl

end TextSearch
