import Mathlib.Data.List.Basic
import Mathlib.Data.Nat.Basic
import Mathlib.Order.Basic

/-!
# Wrapping a list into lines

A break is put before an item that finds no room in its line. The room that is
left is carried along, so that a list can be wrapped piece by piece.
-/

namespace LineWrapping

universe u

variable {α : Type u}

/-- Wrap a list into lines of a width, with the room of the first line. Also
gives the room that is left in the last line. -/
def wrap (width : ℕ) (br : List α) : ℕ → List α → List α × ℕ
  | room, [] => ([], room)
  | 0, a :: l =>
    let tail := wrap width br (width - 1) l
    (br ++ a :: tail.1, tail.2)
  | room + 1, a :: l =>
    let tail := wrap width br room l
    (a :: tail.1, tail.2)

/-- A list in lines, the first of which has a room and the others a width. Before
each of the others stands a break. Only the last line is not full, and it is not
empty behind a break. -/
def InLines (width : ℕ) (br : List α) (room : ℕ) (l text : List α) : Prop :=
  ∃ first rest, l = first ++ rest.flatten ∧ text = first ++ rest.flatMap (fun line => br ++ line) ∧
    first.length ≤ room ∧ (rest ≠ [] → first.length = room) ∧
    (∀ line ∈ rest, line ≠ [] ∧ line.length ≤ width) ∧ ∀ line ∈ rest.dropLast, line.length = width

variable {width room : ℕ} {br l l' : List α}

theorem wrap_nil (room : ℕ) : wrap width br room [] = ([], room) := by
  rw [wrap]

/-- A list is wrapped piece by piece. -/
theorem wrap_append (room : ℕ) (l l' : List α) :
    wrap width br room (l ++ l') =
      ((wrap width br room l).1 ++ (wrap width br (wrap width br room l).2 l').1,
        (wrap width br (wrap width br room l).2 l').2) := by
  induction l generalizing room with
  | nil => rw [wrap_nil, List.nil_append, List.nil_append]
  | cons a l ih =>
    cases room with
    | zero =>
      rw [List.cons_append, wrap, wrap]
      simp only [ih, List.append_assoc, List.cons_append]
    | succ room =>
      rw [List.cons_append, wrap, wrap]
      simp only [ih, List.cons_append]

/-- What fits into the line is not changed. -/
theorem wrap_of_le (h : l.length ≤ room) : wrap width br room l = (l, room - l.length) := by
  induction l generalizing room with
  | nil => rw [wrap_nil, List.length_nil, Nat.sub_zero]
  | cons a l ih =>
    cases room with
    | zero => exact absurd h (Nat.not_succ_le_zero _)
    | succ room =>
      rw [wrap, ih (Nat.le_of_succ_le_succ h), List.length_cons, Nat.add_sub_add_right]

/-- At the end of a line another one is begun. -/
theorem wrap_zero (hwidth : 0 < width) (hl : l ≠ []) :
    wrap width br 0 l = (br ++ (wrap width br width l).1, (wrap width br width l).2) := by
  obtain ⟨a, l, rfl⟩ := List.exists_cons_of_ne_nil hl
  obtain ⟨width, rfl⟩ := Nat.exists_eq_succ_of_ne_zero hwidth.ne'
  rw [wrap, wrap]
  rfl

/-- A list that goes on behind its first line. -/
theorem wrap_of_lt (hwidth : 0 < width) (h : room < l.length) :
    wrap width br room l =
      (l.take room ++ br ++ (wrap width br width (l.drop room)).1,
        (wrap width br width (l.drop room)).2) := by
  have htake : (l.take room).length = room := List.length_take_of_le h.le
  have hdrop : l.drop room ≠ [] := by
    rw [Ne, List.drop_eq_nil_iff]
    exact not_le.mpr h
  conv_lhs => rw [← List.take_append_drop room l, wrap_append, wrap_of_le htake.le, htake, Nat.sub_self]
  rw [wrap_zero hwidth hdrop, List.append_assoc]

/-- Wrapping puts a list in lines. -/
theorem inLines_wrap (hwidth : 0 < width) (br : List α) (room : ℕ) (l : List α) :
    InLines width br room l (wrap width br room l).1 := by
  induction l generalizing room with
  | nil => exact ⟨[], [], rfl, rfl, Nat.zero_le _, fun h => absurd rfl h, by simp, by simp⟩
  | cons a l ih =>
    cases room with
    | succ room =>
      obtain ⟨first, rest, hl, htext, hle, hfull, hrest, hmiddle⟩ := ih room
      refine ⟨a :: first, rest, ?_, ?_, Nat.succ_le_succ hle, fun h => congrArg Nat.succ (hfull h), hrest,
        hmiddle⟩
      · rw [hl, List.cons_append]
      · rw [wrap, htext, List.cons_append]
    | zero =>
      obtain ⟨first, rest, hl, htext, hle, hfull, hrest, hmiddle⟩ := ih (width - 1)
      have hlength : (a :: first).length = first.length + 1 := List.length_cons
      refine ⟨[], (a :: first) :: rest, ?_, ?_, Nat.le_refl 0, fun _ => rfl, ?_, ?_⟩
      · rw [hl, List.flatten_cons, List.nil_append, List.cons_append]
      · rw [wrap, htext, List.flatMap_cons, List.nil_append, List.append_assoc, List.cons_append]
      · exact List.forall_mem_cons.mpr ⟨⟨List.cons_ne_nil _ _, by omega⟩, hrest⟩
      · cases rest with
        | nil => exact fun line hline => absurd hline List.not_mem_nil
        | cons line rest =>
          have hfirst := hfull (List.cons_ne_nil _ _)
          rw [List.dropLast_cons_of_ne_nil (List.cons_ne_nil _ _)]
          exact List.forall_mem_cons.mpr ⟨by omega, hmiddle⟩

/-- The room that is left reaches to the end of a line, of the first one that
there is behind the list. -/
theorem wrap_room (hwidth : 0 < width) (br : List α) (room : ℕ) (l : List α) :
    ∃ n, l.length + (wrap width br room l).2 = room + n * width ∧
      (n = 0 ∨ (wrap width br room l).2 < width) := by
  induction l generalizing room with
  | nil => exact ⟨0, by rw [wrap_nil, List.length_nil, Nat.zero_add, Nat.zero_mul, Nat.add_zero], Or.inl rfl⟩
  | cons a l ih =>
    rw [List.length_cons]
    cases room with
    | succ room =>
      obtain ⟨n, hn, hleft⟩ := ih room
      rw [wrap]
      exact ⟨n, by omega, hleft⟩
    | zero =>
      obtain ⟨n, hn, hleft⟩ := ih (width - 1)
      rw [wrap]
      refine ⟨n + 1, ?_, Or.inr ?_⟩
      · rw [Nat.succ_mul]
        omega
      · rcases hleft with rfl | hlt
        · omega
        · exact hlt

/-- No end of a line between the list and that one. -/
theorem wrap_room_le (hwidth : 0 < width) (br : List α) {n : ℕ} (h : l.length ≤ room + n * width) :
    l.length + (wrap width br room l).2 ≤ room + n * width := by
  obtain ⟨m, hm, hleft⟩ := wrap_room hwidth br room l
  rw [hm]
  refine Nat.add_le_add_left (Nat.mul_le_mul_right width ?_) room
  rcases hleft with rfl | hlt
  · exact Nat.zero_le n
  · by_contra hmn
    have hmul : (n + 1) * width ≤ m * width := Nat.mul_le_mul_right width (Nat.lt_of_not_le hmn)
    rw [Nat.succ_mul] at hmul
    omega

/-- Nothing is left out. -/
theorem length_le_wrap (width : ℕ) (br : List α) (room : ℕ) (l : List α) :
    l.length ≤ (wrap width br room l).1.length := by
  induction l generalizing room with
  | nil => exact Nat.zero_le _
  | cons a l ih =>
    cases room with
    | zero =>
      have hrest := ih (width - 1)
      simp only [wrap, List.length_append, List.length_cons]
      omega
    | succ room =>
      have hrest := ih room
      simp only [wrap, List.length_cons]
      omega

/-- Take the breaks out again, with the number of lines bounded. -/
def unwrap (width breakLength : ℕ) : ℕ → List α → List α
  | 0, text => text
  | lines + 1, text =>
    if text.length ≤ width then text
    else text.take width ++ unwrap width breakLength lines (text.drop (width + breakLength))

theorem unwrap_wrap (hwidth : 0 < width) (hbr : br ≠ []) (l : List α) {lines : ℕ}
    (hlines : l.length ≤ lines) :
    unwrap width br.length lines (wrap width br width l).1 = l := by
  induction lines generalizing l with
  | zero =>
    rw [List.eq_nil_of_length_eq_zero (Nat.le_zero.mp hlines), wrap_nil]
    rfl
  | succ lines ih =>
    rcases Nat.lt_or_ge width l.length with hlt | hle
    · have hbreak := List.length_pos_of_ne_nil hbr
      have htake : (l.take width).length = width := List.length_take_of_le hlt.le
      have hrest : (l.drop width).length ≤ lines := by
        rw [List.length_drop]
        omega
      have hlength : (l.take width ++ br).length = width + br.length := by
        rw [List.length_append, htake]
      rw [wrap_of_lt hwidth hlt, unwrap, if_neg, List.drop_left' hlength, ih _ hrest, List.append_assoc,
        List.take_left' htake, List.take_append_drop]
      rw [List.length_append, hlength]
      omega
    · rw [wrap_of_le hle, unwrap, if_pos hle]

end LineWrapping
