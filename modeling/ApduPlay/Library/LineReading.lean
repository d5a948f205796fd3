import Mathlib.Data.List.Basic

/-!
# Reading lines into a buffer

Characters are read up to the end of a line or until the buffer is full. A line
that fits is read at once.
-/

namespace LineReading

universe u

variable {α : Type u} [DecidableEq α]

/-- Read at most a number of characters, up to the end of the line. What was read,
what remains, and whether the end of the text was met. -/
def readLine (e : α) : ℕ → List α → List α × List α × Bool
  | 0, text => ([], text, false)
  | _ + 1, [] => ([], [], true)
  | n + 1, c :: text =>
    if c = e then ([c], text, false)
    else
      let (line, rest, ended) := readLine e n text
      (c :: line, rest, ended)

/-- The lines that are ended, and what follows them. -/
def splitLines (e : α) : List α → List (List α) × List α
  | [] => ([], [])
  | c :: text =>
    let (lines, last) := splitLines e text
    if c = e then ([] :: lines, last)
    else
      match lines with
      | [] => ([], c :: last)
      | line :: lines => ((c :: line) :: lines, last)

/-- Put an end to every line. -/
def endLines (e : α) (lines : List (List α)) : List α := lines.flatMap (· ++ [e])

variable {e c : α} {n : ℕ} {line text rest : List α}

theorem readLine_line (he : e ∉ line) (hn : line.length < n) (rest : List α) :
    readLine e n (line ++ e :: rest) = (line ++ [e], rest, false) := by
  induction line generalizing n with
  | nil =>
    obtain ⟨k, rfl⟩ := Nat.exists_eq_succ_of_ne_zero (Nat.ne_of_gt hn)
    simp [readLine]
  | cons c line ih =>
    obtain ⟨k, rfl⟩ := Nat.exists_eq_succ_of_ne_zero (Nat.ne_of_gt (Nat.lt_of_le_of_lt (Nat.zero_le _) hn))
    rw [List.mem_cons, not_or] at he
    rw [List.cons_append, readLine, if_neg (Ne.symm he.1), ih he.2 (Nat.lt_of_succ_lt_succ hn)]
    rfl

/-- The buffer is full before the line ends. -/
theorem readLine_long (he : e ∉ line) (hn : n ≤ line.length) (rest : List α) :
    readLine e n (line ++ rest) = (line.take n, line.drop n ++ rest, false) := by
  induction line generalizing n with
  | nil =>
    rw [Nat.le_zero.mp hn]
    simp [readLine]
  | cons c line ih =>
    cases n with
    | zero => simp [readLine]
    | succ k =>
      rw [List.mem_cons, not_or] at he
      rw [List.cons_append, readLine, if_neg (Ne.symm he.1), ih he.2 (Nat.le_of_succ_le_succ hn)]
      rfl

/-- The text ends before the line does. -/
theorem readLine_end (he : e ∉ line) (hn : line.length < n) : readLine e n line = (line, [], true) := by
  induction line generalizing n with
  | nil =>
    obtain ⟨k, rfl⟩ := Nat.exists_eq_succ_of_ne_zero (Nat.ne_of_gt hn)
    rfl
  | cons c line ih =>
    obtain ⟨k, rfl⟩ := Nat.exists_eq_succ_of_ne_zero (Nat.ne_of_gt (Nat.lt_of_le_of_lt (Nat.zero_le _) hn))
    rw [List.mem_cons, not_or] at he
    rw [readLine, if_neg (Ne.symm he.1), ih he.2 (Nat.lt_of_succ_lt_succ hn)]

/-- The lines make up the text. -/
theorem endLines_splitLines (e : α) (text : List α) :
    endLines e (splitLines e text).1 ++ (splitLines e text).2 = text := by
  induction text with
  | nil => rfl
  | cons c text ih =>
    rw [splitLines]
    generalize splitLines e text = split at ih ⊢
    obtain ⟨lines, last⟩ := split
    dsimp only at ih ⊢
    split_ifs with hc
    · rw [← ih, hc]
      rfl
    · cases lines with
      | nil => exact congrArg (c :: ·) ih
      | cons line lines => exact congrArg (c :: ·) ih

/-- No line has an end inside. -/
theorem splitLines_not_mem (e : α) (text : List α) :
    (∀ line ∈ (splitLines e text).1, e ∉ line) ∧ e ∉ (splitLines e text).2 := by
  induction text with
  | nil => exact ⟨fun _ h => absurd h List.not_mem_nil, List.not_mem_nil⟩
  | cons c text ih =>
    rw [splitLines]
    generalize splitLines e text = split at ih ⊢
    obtain ⟨lines, last⟩ := split
    obtain ⟨hlines, hlast⟩ := ih
    dsimp only at hlines hlast ⊢
    split_ifs with hc
    · exact ⟨List.forall_mem_cons.mpr ⟨List.not_mem_nil, hlines⟩, hlast⟩
    · cases lines with
      | nil => exact ⟨hlines, List.not_mem_cons_of_ne_of_not_mem (Ne.symm hc) hlast⟩
      | cons line lines =>
        obtain ⟨hline, hrest⟩ := List.forall_mem_cons.mp hlines
        exact ⟨List.forall_mem_cons.mpr
          ⟨List.not_mem_cons_of_ne_of_not_mem (Ne.symm hc) hline, hrest⟩, hlast⟩

end LineReading
