import Mathlib.Data.List.Basic

/-!
# Formats for scanning a text

A format converts a longest part of the text whose characters are in a set, skips
blanks, or expects a character. Scanning ends at the first directive that fails,
and the parts converted until then are its result.
-/

namespace ScanFormats

universe u

variable {α : Type u}

/-- A directive of a format. -/
inductive Directive (α : Type u)
  /-- The longest part in a set, which must not be empty. -/
  | conversion (p : α → Bool)
  /-- Any number of blanks. -/
  | blanks (p : α → Bool)
  /-- One character. -/
  | literal (c : α)

variable [DecidableEq α]

/-- The parts that are converted. -/
def scan : List (Directive α) → List α → List (List α)
  | [], _ => []
  | .conversion p :: format, text =>
    match text.takeWhile p with
    | [] => []
    | part => part :: scan format (text.dropWhile p)
  | .blanks p :: format, text => scan format (text.dropWhile p)
  | .literal _ :: _, [] => []
  | .literal c :: format, d :: text => if d = c then scan format text else []

variable {p q : α → Bool} {format : List (Directive α)} {text : List α} {c d : α}

theorem scan_conversion (h : text.takeWhile p ≠ []) :
    scan (.conversion p :: format) text = text.takeWhile p :: scan format (text.dropWhile p) := by
  rw [scan]
  cases hpart : text.takeWhile p with
  | nil => exact absurd hpart h
  | cons c part => rfl

theorem scan_conversion_nil (h : text.takeWhile p = []) : scan (.conversion p :: format) text = [] := by
  rw [scan, h]

theorem scan_blanks : scan (.blanks p :: format) text = scan format (text.dropWhile p) := rfl

theorem scan_literal : scan (.literal c :: format) (c :: text) = scan format text := if_pos rfl

theorem scan_literal_nil (h : text.head? ≠ some c) : scan (.literal c :: format) text = [] := by
  cases text with
  | nil => rfl
  | cons d text => exact if_neg fun hd => h (congrArg some hd)

/-- A format has no more results than conversions. -/
theorem length_scan_le (format : List (Directive α)) (text : List α) :
    (scan format text).length ≤ format.countP fun | .conversion _ => true | _ => false := by
  induction format generalizing text with
  | nil => exact Nat.zero_le _
  | cons directive format ih =>
    cases directive with
    | conversion p =>
      by_cases h : text.takeWhile p = []
      · rw [scan_conversion_nil h]
        exact Nat.zero_le _
      · rw [scan_conversion h, List.length_cons, List.countP_cons_of_pos rfl]
        exact Nat.succ_le_succ (ih _)
    | blanks p =>
      rw [scan_blanks, List.countP_cons_of_neg (by simp)]
      exact ih _
    | literal c =>
      rw [List.countP_cons_of_neg (by simp)]
      cases text with
      | nil => exact Nat.zero_le _
      | cons d text =>
        rw [scan]
        split_ifs
        · exact ih _
        · exact Nat.zero_le _

end ScanFormats
