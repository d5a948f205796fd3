import Mathlib.Algebra.BigOperators.Group.List.Lemmas
import Mathlib.Algebra.GroupWithZero.Nat
import Mathlib.Algebra.Order.Ring.Int
import Mathlib.Data.List.Dedup
import ApduPlay.Library.WordTallies

/-!
# Letters at a place

The beginnings of one length that end with a letter have as many words together as
have the letter at that place. Their tallies together differ from this by what
they lost and gained.
-/

namespace WordCuts

universe u

variable {α : Type u} [DecidableEq α] {words : List (List α)} {w : List α} {k : ℕ} {b : α}

/-- The words with a letter at a place, where the first letter has place one. -/
def occurrences (words : List (List α)) (k : ℕ) (b : α) : ℕ := words.countP fun e => e[k - 1]? = some b

/-- The letters at a place. -/
def lettersAt (words : List (List α)) (k : ℕ) : List α := words.filterMap fun e => e[k - 1]?

/-- The different beginnings of a length. -/
def beginnings (words : List (List α)) (k : ℕ) : List (List α) := (words.map (List.take k)).dedup

/-- A number for each of the beginnings with a letter at the end, added up. -/
def total (f : List α → ℕ) (words : List (List α)) (k : ℕ) (b : α) : ℕ :=
  (((beginnings words k).filter fun w => w.getLast? = some b).map f).sum

/-- The tallies of the beginnings that end with a letter. -/
def talliedAt (words : List (List α)) (k : ℕ) (b : α) : ℕ := total (fun w => tally w words.reverse) words k b

/-- What these tallies lost. -/
def lostAt (words : List (List α)) (k : ℕ) (b : α) : ℕ := total (fun w => lost w words.reverse) words k b

/-- What they gained. -/
def gainedAt (words : List (List α)) (k : ℕ) (b : α) : ℕ := total (fun w => gained w words.reverse) words k b

/-- A letter is at a place if it occurs there. -/
theorem mem_lettersAt : b ∈ lettersAt words k ↔ 0 < occurrences words k b := by
  rw [lettersAt, occurrences, List.mem_filterMap, List.countP_pos_iff]
  simp only [decide_eq_true_eq]

/-- It does not occur in more words than there are. -/
theorem occurrences_le (words : List (List α)) (k : ℕ) (b : α) : occurrences words k b ≤ words.length :=
  List.countP_le_length

/-- The beginnings of a length are the paths of it. -/
theorem mem_beginnings (hk : 1 ≤ k) (hlong : ∀ e ∈ words, k ≤ e.length) :
    w ∈ beginnings words k ↔ w.length = k ∧ w ∈ pathsOf words := by
  rw [beginnings, List.mem_dedup, List.mem_map]
  constructor
  · rintro ⟨e, he, rfl⟩
    exact ⟨List.length_take_of_le (hlong e he), Or.inr ⟨e, he, List.take_prefix k e⟩⟩
  · rintro ⟨hlength, hnil | ⟨e, he, hw⟩⟩
    · rw [hnil, List.length_nil] at hlength
      omega
    · exact ⟨e, he, by rw [← hlength, ← List.prefix_iff_eq_take.mp hw]⟩

/-- Totals add up. -/
theorem total_add (f g : List α → ℕ) (words : List (List α)) (k : ℕ) (b : α) :
    total (fun w => f w + g w) words k b = total f words k b + total g words k b :=
  List.sum_map_add

theorem total_eq_zero {f : List α → ℕ} (hf : ∀ w ∈ beginnings words k, f w = 0) : total f words k b = 0 := by
  refine List.sum_eq_zero fun n hn => ?_
  obtain ⟨w, hw, rfl⟩ := List.mem_map.mp hn
  exact hf w (List.mem_filter.mp hw).1

omit [DecidableEq α] in
theorem getLast?_take_of_le {e : List α} (hk : 1 ≤ k) (hlong : k ≤ e.length) :
    (e.take k).getLast? = e[k - 1]? := by
  have hlt : k - 1 < e.length := by omega
  rw [List.getLast?_take, if_neg (by omega), List.getElem?_eq_getElem hlt]
  rfl

/-- The letters at a place are those the beginnings end with. -/
theorem mem_lettersAt_iff (hk : 1 ≤ k) (hlong : ∀ e ∈ words, k ≤ e.length) :
    b ∈ lettersAt words k ↔ ∃ w ∈ beginnings words k, w.getLast? = some b := by
  simp only [lettersAt, beginnings, List.mem_filterMap, List.mem_dedup, List.mem_map]
  constructor
  · rintro ⟨e, he, hb⟩
    exact ⟨e.take k, ⟨e, he, rfl⟩, (getLast?_take_of_le hk (hlong e he)).trans hb⟩
  · rintro ⟨-, ⟨e, he, rfl⟩, hb⟩
    exact ⟨e, he, (getLast?_take_of_le hk (hlong e he)).symm.trans hb⟩

theorem exists_letter (hk : 1 ≤ k) (hlong : ∀ e ∈ words, k ≤ e.length) (hw : w ∈ beginnings words k) :
    ∃ u b, w = u ++ [b] := by
  refine (List.eq_nil_or_concat' w).resolve_left fun hnil => ?_
  have hlength := ((mem_beginnings hk hlong).mp hw).1
  rw [hnil, List.length_nil] at hlength
  omega

/-- Every word has one beginning of the length. -/
theorem total_countP (hk : 1 ≤ k) (hlong : ∀ e ∈ words, k ≤ e.length) (b : α) :
    total (fun w => words.countP (w <+: ·)) words k b = occurrences words k b := by
  have hcount := List.sum_map_count_dedup_filter_eq_countP (fun w => decide (w.getLast? = some b))
    (words.map (List.take k))
  rw [List.countP_map] at hcount
  rw [total, occurrences]
  refine Eq.trans (congrArg List.sum (List.map_congr_left fun w hw => ?_)) (hcount.trans ?_)
  · have hlength := ((mem_beginnings hk hlong).mp (List.mem_filter.mp hw).1).1
    simp only [List.count, List.countP_map]
    refine List.countP_congr fun e he => ?_
    simp only [decide_eq_true_eq, List.prefix_iff_eq_take, hlength, Function.comp_apply, beq_iff_eq]
    exact eq_comm
  · refine List.countP_congr fun e he => ?_
    rw [Function.comp_apply, getLast?_take_of_le hk (hlong e he)]

/-- The law of the tallies for a letter at a place. -/
theorem talliedAt_add_lostAt (hk : 1 ≤ k) (hlong : ∀ e ∈ words, k ≤ e.length) (b : α) :
    talliedAt words k b + lostAt words k b = occurrences words k b + gainedAt words k b := by
  rw [talliedAt, lostAt, gainedAt, ← total_countP hk hlong, ← total_add, ← total_add]
  refine congrArg List.sum (List.map_congr_left fun w _ => ?_)
  rw [tally_add_lost, (List.reverse_perm words).countP_eq]

/-- The number that is read for a letter at a place when what was lost is left out and
what was gained is put in. -/
def shownAt (read : ℤ → ℤ) (words : List (List α)) (k : ℕ) (b : α) : ℤ :=
  read (occurrences words k b + gainedAt words k b - lostAt words k b)

/-- What is shown is the tally that is read. -/
theorem shownAt_eq (read : ℤ → ℤ) (hk : 1 ≤ k) (hlong : ∀ e ∈ words, k ≤ e.length) (b : α) :
    shownAt read words k b = read (talliedAt words k b) := by
  have hlaw := talliedAt_add_lostAt hk hlong b
  exact congrArg read (by omega)

/-- A letter that comes out on top at a place. -/
def Leads (read : ℤ → ℤ) (words : List (List α)) (k : ℕ) (b : α) : Prop :=
  b ∈ lettersAt words k ∧ ∀ b' ∈ lettersAt words k, shownAt read words k b' ≤ shownAt read words k b

instance (read : ℤ → ℤ) (words : List (List α)) (k : ℕ) (b : α) : Decidable (Leads read words k b) :=
  inferInstanceAs (Decidable (_ ∧ _))

/-- At every place up to one, what comes out on top is read as frequent as it is, and is as
frequent as any other letter. It is at most as frequent as what is read for all words, unless
this is negative. -/
def Balanced (read : ℤ → ℤ) (words : List (List α)) (depth : ℕ) : Prop :=
  ∀ k ∈ List.range' 1 depth, ∀ b ∈ lettersAt words k, Leads read words k b →
    shownAt read words k b = occurrences words k b ∧
      (∀ b' ∈ lettersAt words k, occurrences words k b' ≤ occurrences words k b) ∧
      (read words.length < 0 ∨ occurrences words k b ≤ read words.length)

instance (read : ℤ → ℤ) (words : List (List α)) (depth : ℕ) : Decidable (Balanced read words depth) :=
  inferInstanceAs (Decidable (∀ _ ∈ _, ∀ _ ∈ _, _ → _ ∧ _ ∧ _))

/-- This is so where words that begin with the same letter are equal, as long as numbers are
read as they are. -/
theorem balanced_of_heads {read : ℤ → ℤ} {depth : ℕ} (hread : ∀ n ≤ words.length, read n = n)
    (hlong : ∀ e ∈ words, depth ≤ e.length)
    (hheads : ∀ e ∈ words, ∀ e' ∈ words, e.head? = e'.head? → e = e') : Balanced read words depth := by
  intro k hk b _ hlead
  rw [List.mem_range'_1] at hk
  have hnone (w : List α) (hw : w ∈ beginnings words k) : lost w words.reverse = 0 ∧
      gained w words.reverse = 0 := by
    obtain ⟨u, d, rfl⟩ := exists_letter hk.1 (fun e he => by have := hlong e he; omega) hw
    refine lost_gained_eq_zero (fun e he e' he' => ?_) (by simp)
    exact hheads e (List.mem_reverse.mp he) e' (List.mem_reverse.mp he')
  have hshown (b : α) : shownAt read words k b = occurrences words k b := by
    rw [shownAt, lostAt, gainedAt, total_eq_zero fun w hw => (hnone w hw).1,
      total_eq_zero fun w hw => (hnone w hw).2, Nat.cast_zero, add_zero, sub_zero]
    exact hread _ (occurrences_le words k b)
  refine ⟨hshown b, fun b' hb' => ?_, Or.inr ?_⟩
  · have hle := hlead.2 b' hb'
    rw [hshown, hshown] at hle
    exact Nat.cast_le.mp hle
  · rw [hread _ le_rfl]
    exact Nat.cast_le.mpr (occurrences_le words k b)

end WordCuts
