import Mathlib.Algebra.Order.Ring.Int
import Mathlib.Tactic.Ring
import ApduPlay.Library.ExceptionRuns
import ApduPlay.Library.LineWrapping
import ApduPlay.LogParser

/-!
# Wrapping a text

The labels of graphs are wrapped in lines of a width. The indices are of type
`int`, and the end of a line is computed before it is compared with the length of
the text, so that it can wrap around. Otherwise a break stands before every
character that finds no room in its line.
-/

namespace ApduPlay.WrappedText

open ExceptionRuns (Ends)
open LineWrapping LogParser PacketNode

/-- Computations that may end with an exception. -/
abbrev OutputM := Except JavaException

/-- Such a computation leaves any state alone. -/
instance {σ : Type} : MonadLift OutputM (EStateM JavaException σ) where
  monadLift e s :=
    match e with
    | .ok a => .ok a s
    | .error x => .error x s

/-- The characters from one index up to another. -/
def substring (str : JavaString) (beginIndex endIndex : ℤ) : OutputM JavaString :=
  if 0 ≤ beginIndex ∧ beginIndex ≤ endIndex ∧ endIndex ≤ str.length then
    pure ((str.drop beginIndex.toNat).take (endIndex - beginIndex).toNat)
  else throw .stringIndexOutOfBounds

/-- A line break in a label. -/
def lineBreak : JavaString := "<br/>".toList

/-- The loop of `wrapText` from an index on, with the number of rounds bounded. -/
def wrapLoop (str : JavaString) (wrapAfter : ℤ) : ℕ → ℤ → JavaString → OutputM JavaString
  | 0, _, sb => pure sb
  | rounds + 1, i, sb => do
    if ¬ i < str.length then return sb
    let lineEnd := wrapInt (i + wrapAfter)
    if str.length < lineEnd then return sb
    let line ← substring str i lineEnd
    wrapLoop str wrapAfter rounds lineEnd (sb ++ line ++ if str.length ≠ lineEnd then lineBreak else [])

/-- `wrapText`: the wrapped text, and the room that is left in the last line. -/
def wrapText (str : JavaString) (wrapAfter firstWrap : ℤ) : OutputM (JavaString × ℤ) := do
  if wrapAfter ≤ 0 then return (str, wrapAfter)
  let firstWrap := if firstWrap < 0 then wrapAfter else firstWrap
  if str.length < firstWrap then return (str, firstWrap - str.length)
  let line ← substring str 0 firstWrap
  let sb ← wrapLoop str wrapAfter (str.length - firstWrap).toNat firstWrap
    (line ++ if str.length ≠ firstWrap then lineBreak else [])
  let missingChars := (str.length - firstWrap) % wrapAfter
  if missingChars > 0 then
    let rest ← substring str (str.length - missingChars) str.length
    return (sb ++ rest, wrapAfter - missingChars)
  return (sb, 0)

/-- The room of the first line. -/
def firstLine (wrapAfter firstWrap : ℤ) : ℤ := if firstWrap < 0 then wrapAfter else firstWrap

/-- Some end of a line that is not before the end of the text is an `int`. -/
def LastLineFits (length : ℕ) (wrapAfter firstWrap : ℤ) : Prop :=
  ∃ n : ℕ, length ≤ firstLine wrapAfter firstWrap + n * wrapAfter ∧
    firstLine wrapAfter firstWrap + n * wrapAfter < 2 ^ 31

/-- A text of this length is wrapped, or left as it is. -/
def Wrappable (length : ℕ) (wrapAfter firstWrap : ℤ) : Prop :=
  0 < wrapAfter → LastLineFits length wrapAfter firstWrap

/-- A text in lines, and the room that is left in the last one. -/
def wrapped (str : JavaString) (wrapAfter firstWrap : ℤ) : JavaString × ℤ :=
  if wrapAfter ≤ 0 then (str, wrapAfter)
  else
    let lines := wrap wrapAfter.toNat lineBreak (firstLine wrapAfter firstWrap).toNat str
    (lines.1, lines.2)

variable {a b str sb : JavaString} {wrapAfter firstWrap i : ℤ} {rounds n length width room : ℕ}

/-- A computation that ends did its first step. -/
theorem of_bind_ok {α β : Type} {e : OutputM α} {g : α → OutputM β} {y : β} (h : (e >>= g) = .ok y) :
    ∃ x, e = .ok x ∧ g x = .ok y := by
  cases e with
  | error err => cases h
  | ok x => exact ⟨x, rfl, h⟩

theorem lift_eq_ok {σ α : Type} {e : OutputM α} {x : α} (he : e = .ok x) (s : σ) :
    (liftM e : EStateM JavaException σ α) s = .ok x s := by
  rw [he]
  rfl

/-- It ends in a state exactly if it does without one. -/
theorem ends_lift_iff {σ α : Type} {e : OutputM α} {s : σ} :
    Ends (liftM e : EStateM JavaException σ α) s ↔ ∃ x, e = .ok x := by
  constructor
  · rintro ⟨x, s', hrun⟩
    cases e with
    | ok x => exact ⟨x, rfl⟩
    | error err => cases hrun
  · rintro ⟨x, hx⟩
    exact ⟨x, s, lift_eq_ok hx s⟩

/-- Characters up to the end of a text are cut out. -/
theorem substring_ok {a b : ℕ} (hab : a ≤ b) (hb : b ≤ str.length) :
    substring str a b = .ok ((str.drop a).take (b - a)) := by
  rw [substring, if_pos (by omega), Int.toNat_natCast, ← Int.natCast_sub hab, Int.toNat_natCast]
  rfl

theorem firstLine_nonneg (hwrap : 0 < wrapAfter) (firstWrap : ℤ) : 0 ≤ firstLine wrapAfter firstWrap := by
  rw [firstLine]
  split_ifs with hneg
  · exact hwrap.le
  · exact not_lt.mp hneg

theorem lineEnd_zero (i wrapAfter : ℤ) : i + (0 : ℕ) * wrapAfter = i := by
  rw [Nat.cast_zero, zero_mul, add_zero]

theorem lineEnd_succ (i wrapAfter : ℤ) (n : ℕ) :
    i + (n + 1 : ℕ) * wrapAfter = i + wrapAfter + n * wrapAfter := by
  rw [Nat.cast_succ]
  ring

/-- One round of the loop. -/
theorem wrapLoop_succ {lineEnd : ℤ} (hi : i < str.length) (hline : wrapInt (i + wrapAfter) = lineEnd)
    (rounds : ℕ) (sb : JavaString) :
    wrapLoop str wrapAfter (rounds + 1) i sb =
      if str.length < lineEnd then .ok sb
      else substring str i lineEnd >>= fun line =>
        wrapLoop str wrapAfter rounds lineEnd
          (sb ++ line ++ if str.length ≠ lineEnd then lineBreak else []) := by
  rw [wrapLoop, if_neg (not_not_intro hi), hline]
  rfl

/-- The loop wraps the text behind an index but for a last line that is not full,
as long as the end of the last line is an `int`. -/
theorem wrapLoop_ok (hwidth : 0 < width) (hroom : room ≤ str.length)
    (hend : str.length ≤ (room : ℤ) + n * width) (hmax : (room : ℤ) + n * width < 2 ^ 31)
    (hrounds : str.length - room ≤ rounds) (sb : JavaString) :
    ∃ text, wrapLoop str width rounds room sb = .ok (sb ++ text) ∧
      wrap width lineBreak width (str.drop room) =
        (text ++ str.drop (str.length - (str.length - room) % width),
          if str.length = room then width
          else if (str.length - room) % width > 0 then width - (str.length - room) % width else 0) := by
  have hdrop : (str.drop room).length = str.length - room := List.length_drop
  induction rounds generalizing room n sb with
  | zero =>
    have hall : str.length = room := by omega
    refine ⟨[], congrArg Except.ok (List.append_nil sb).symm, ?_⟩
    rw [hall, Nat.sub_self, Nat.zero_mod, Nat.sub_zero, if_pos rfl, List.drop_eq_nil_of_le hall.le, wrap_nil]
    rfl
  | succ rounds ih =>
    rcases Nat.eq_or_lt_of_le hroom with hall | hlt
    · subst hall
      refine ⟨[], ?_, ?_⟩
      · rw [wrapLoop, if_pos (lt_irrefl _), List.append_nil]
        rfl
      · rw [Nat.sub_self, Nat.zero_mod, Nat.sub_zero, if_pos rfl, List.drop_length, wrap_nil]
        rfl
    cases n with
    | zero =>
      rw [lineEnd_zero] at hend
      omega
    | succ n =>
      rw [lineEnd_succ] at hend hmax
      have hrest : 0 ≤ (n : ℤ) * width := mul_nonneg (Int.natCast_nonneg n) (Int.natCast_nonneg width)
      have hline : wrapInt ((room : ℤ) + width) = (room + width : ℕ) := by
        rw [wrapInt_eq ⟨by omega, by omega⟩, Nat.cast_add]
      rw [← Nat.cast_add] at hend hmax
      rw [wrapLoop_succ (Nat.cast_lt.mpr hlt) hline]
      rcases Nat.lt_trichotomy (str.length - room) width with hshort | hfull | hlong
      · refine ⟨[], ?_, ?_⟩
        · rw [if_pos (by omega), List.append_nil]
        · have hplace : str.length - (str.length - room) = room := by omega
          rw [Nat.mod_eq_of_lt hshort, hplace, if_neg hlt.ne', if_pos (by omega),
            wrap_of_le (by omega), hdrop]
          rfl
      · have hends : room + width = str.length := by omega
        have htake : (str.drop room).take width = str.drop room := List.take_of_length_le (by omega)
        obtain ⟨text, hloop, htext⟩ := ih (n := n) le_rfl
          (by omega) (by omega) (by omega) (sb ++ str.drop room) List.length_drop
        rw [List.drop_length, wrap_nil, Nat.sub_self, Nat.zero_mod, Nat.sub_zero, List.drop_length,
          List.append_nil] at htext
        obtain rfl : text = [] := (congrArg Prod.fst htext).symm
        refine ⟨str.drop room, ?_, ?_⟩
        · rw [if_neg (by omega), substring_ok (Nat.le_add_right _ _) hends.le, Nat.add_sub_cancel_left, htake,
            hends, if_neg (not_not_intro rfl)]
          rw [List.append_nil] at hloop
          show wrapLoop str width rounds str.length (sb ++ str.drop room ++ []) = _
          rw [List.append_nil, hloop]
        · rw [hfull, Nat.mod_self, Nat.sub_zero, List.drop_length, List.append_nil, if_neg hlt.ne',
            if_neg (lt_irrefl 0), wrap_of_le (by omega), hdrop, hfull, Nat.sub_self]
      · have hinside : room + width < str.length := by omega
        have hmod : (str.length - (room + width)) % width = (str.length - room) % width := by
          rw [Nat.sub_add_eq]
          exact (Nat.mod_eq_sub_mod hlong.le).symm
        obtain ⟨text, hloop, htext⟩ := ih (n := n) hinside.le hend hmax (by omega)
          (sb ++ (str.drop room).take width ++ lineBreak) List.length_drop
        refine ⟨(str.drop room).take width ++ lineBreak ++ text, ?_, ?_⟩
        · rw [if_neg (by omega), substring_ok (Nat.le_add_right _ _) hinside.le, Nat.add_sub_cancel_left,
            if_pos (by omega)]
          refine hloop.trans ?_
          simp only [List.append_assoc]
        · rw [hmod, if_neg hinside.ne'] at htext
          rw [wrap_of_lt hwidth (by omega), List.drop_drop, htext, if_neg hlt.ne']
          simp only [List.append_assoc]

/-- A text is wrapped if the end of its last line is an `int`. -/
theorem wrapText_lines (hwrap : 0 < wrapAfter) (h : LastLineFits str.length wrapAfter firstWrap) :
    wrapText str wrapAfter firstWrap =
      .ok ((wrap wrapAfter.toNat lineBreak (firstLine wrapAfter firstWrap).toNat str).1,
        ((wrap wrapAfter.toNat lineBreak (firstLine wrapAfter firstWrap).toNat str).2 : ℤ)) := by
  obtain ⟨n, hend, hmax⟩ := h
  have hfirst := firstLine_nonneg hwrap firstWrap
  rw [wrapText, if_neg hwrap.not_ge]
  rw [firstLine] at hend hmax hfirst ⊢
  generalize (if firstWrap < 0 then wrapAfter else firstWrap) = first at hend hmax hfirst ⊢
  obtain ⟨width, rfl⟩ := Int.eq_ofNat_of_zero_le hwrap.le
  obtain ⟨room, rfl⟩ := Int.eq_ofNat_of_zero_le hfirst
  have hwidth : 0 < width := Int.natCast_pos.mp hwrap
  simp only [Int.toNat_natCast, Nat.cast_lt, ne_eq, Nat.cast_inj]
  rcases Nat.lt_or_ge str.length room with hlt | hle
  · rw [if_pos hlt, wrap_of_le hlt.le, Nat.cast_sub hlt.le]
    rfl
  · have hline : substring str 0 room = .ok (str.take room) := by
      have hcut := substring_ok (Nat.zero_le room) hle
      rwa [List.drop_zero, Nat.sub_zero] at hcut
    have hmissing : ((str.length : ℤ) - room) % width = ((str.length - room) % width : ℕ) := by
      rw [← Nat.cast_sub hle, Int.natCast_emod]
    have hrounds : ((str.length : ℤ) - room).toNat = str.length - room := by omega
    obtain ⟨text, hloop, htext⟩ := wrapLoop_ok hwidth hle hend hmax le_rfl
      (str.take room ++ if ¬ str.length = room then lineBreak else [])
    rw [if_neg (not_lt.mpr hle), hline, hmissing, hrounds]
    show (wrapLoop str width (str.length - room) room
      (str.take room ++ if ¬ str.length = room then lineBreak else []) >>= _) = _
    rw [hloop]
    show (if ((str.length - room) % width : ℕ) > (0 : ℤ) then _ else _) = _
    rcases Nat.eq_or_lt_of_le hle with hall | hlt
    · subst hall
      rw [List.drop_length, wrap_nil, Nat.sub_self, Nat.zero_mod, Nat.sub_zero, List.drop_length,
        List.append_nil] at htext
      obtain rfl : text = [] := (congrArg Prod.fst htext).symm
      rw [wrap_of_le le_rfl, Nat.sub_self, Nat.zero_mod, if_neg (by decide), if_neg (not_not_intro rfl),
        List.take_length, List.append_nil, List.append_nil]
      rfl
    · rw [if_neg hlt.ne'] at htext
      rw [wrap_of_lt hwidth hlt, htext]
      have hle' : (str.length - room) % width ≤ str.length :=
        (Nat.mod_le _ _).trans (Nat.sub_le _ _)
      by_cases hpos : (str.length - room) % width > 0
      · have htail : (str.drop (str.length - (str.length - room) % width)).take
            (str.length - (str.length - (str.length - room) % width)) =
              str.drop (str.length - (str.length - room) % width) :=
          List.take_of_length_le List.length_drop.le
        have hmod := Nat.mod_lt (str.length - room) hwidth
        rw [if_pos (Int.natCast_pos.mpr hpos), if_pos hpos, ← Nat.cast_sub hle',
          substring_ok (Nat.sub_le _ _) le_rfl, htail, if_pos hlt.ne', Nat.cast_sub hmod.le]
        simp only [List.append_assoc]
        rfl
      · have hzero : (str.length - room) % width = 0 := Nat.eq_zero_of_not_pos hpos
        rw [if_neg (mt Int.natCast_pos.mp hpos), if_neg hpos, if_pos hlt.ne', hzero, Nat.sub_zero,
          List.drop_length, List.append_nil]
        simp only [List.append_assoc]
        rfl

/-- Otherwise the loop comes to a line whose end wraps around. -/
theorem wrapLoop_error (hwrap : 0 < wrapAfter) (hwidth : wrapAfter < 2 ^ 31) (hi : 0 ≤ i)
    (hrange : i < 2 ^ 31)
    (hend : ∀ n : ℕ, str.length ≤ i + n * wrapAfter → 2 ^ 31 ≤ i + n * wrapAfter)
    (hrounds : str.length ≤ i + rounds) (sb : JavaString) :
    wrapLoop str wrapAfter rounds i sb = .error .stringIndexOutOfBounds := by
  have hstop : i < str.length := by
    have hhere := hend 0
    rw [lineEnd_zero] at hhere
    exact lt_of_not_ge fun hle => absurd (hhere hle) hrange.not_ge
  induction rounds generalizing i sb with
  | zero => exact absurd hrounds (by rw [Nat.cast_zero, add_zero]; exact hstop.not_ge)
  | succ rounds ih =>
    by_cases hover : i + wrapAfter < 2 ^ 31
    · have hline : wrapInt (i + wrapAfter) = i + wrapAfter := wrapInt_eq ⟨by omega, by omega⟩
      have hnext : i + wrapAfter < str.length := by
        have hone := hend 1
        rw [Nat.cast_one, one_mul] at hone
        exact lt_of_not_ge fun hle => absurd (hone hle) hover.not_ge
      have hcut : ∃ line, substring str i (i + wrapAfter) = .ok line :=
        ⟨_, if_pos ⟨hi, by omega, hnext.le⟩⟩
      obtain ⟨line, hcut⟩ := hcut
      have hend' (n : ℕ) (hle : str.length ≤ i + wrapAfter + n * wrapAfter) :
          2 ^ 31 ≤ i + wrapAfter + n * wrapAfter := by
        rw [← lineEnd_succ] at hle ⊢
        exact hend _ hle
      rw [wrapLoop_succ hstop hline, if_neg hnext.not_gt, hcut]
      rw [Nat.cast_succ] at hrounds
      exact ih (by omega) hover hend' (by omega) _ hnext
    · have hline : wrapInt (i + wrapAfter) = i + wrapAfter - 2 ^ 32 := by
        rw [wrapInt, Int.bmod_def]
        omega
      have hsubstring : substring str i (i + wrapAfter - 2 ^ 32) = .error .stringIndexOutOfBounds :=
        if_neg fun h => by omega
      rw [wrapLoop_succ hstop hline, if_neg (by omega), hsubstring]
      rfl

/-- Otherwise an index is out of range. -/
theorem wrapText_error (hwrap : 0 < wrapAfter) (hwidth : wrapAfter < 2 ^ 31) (hfirst : firstWrap < 2 ^ 31)
    (h : ¬ LastLineFits str.length wrapAfter firstWrap) :
    wrapText str wrapAfter firstWrap = .error .stringIndexOutOfBounds := by
  have hnonneg := firstLine_nonneg hwrap firstWrap
  have hrange : firstLine wrapAfter firstWrap < 2 ^ 31 := by
    rw [firstLine]
    split_ifs
    · exact hwidth
    · exact hfirst
  have hend (n : ℕ) (hle : str.length ≤ firstLine wrapAfter firstWrap + n * wrapAfter) :
      2 ^ 31 ≤ firstLine wrapAfter firstWrap + n * wrapAfter :=
    not_lt.mp fun hlt => h ⟨n, hle, hlt⟩
  have hrounds : (str.length : ℤ) ≤ firstLine wrapAfter firstWrap +
      ((str.length - firstLine wrapAfter firstWrap).toNat : ℕ) := by omega
  have hloop := wrapLoop_error hwrap hwidth hnonneg hrange hend hrounds
  have hlong : ¬ str.length < firstLine wrapAfter firstWrap := fun hlt =>
    h ⟨0, (lineEnd_zero _ _).symm ▸ hlt.le, (lineEnd_zero _ _).symm ▸ hrange⟩
  have hline : ∃ line, substring str 0 (firstLine wrapAfter firstWrap) = .ok line :=
    ⟨_, if_pos ⟨le_refl 0, hnonneg, not_lt.mp hlong⟩⟩
  obtain ⟨line, hline⟩ := hline
  rw [firstLine] at hloop hlong hline
  rw [wrapText, if_neg hwrap.not_ge]
  simp only [if_neg hlong, hline]
  show (wrapLoop _ _ _ _ _ >>= _) = _
  rw [hloop]
  rfl

/-- A text is wrapped without an exception. -/
theorem wrapText_ok (h : Wrappable str.length wrapAfter firstWrap) :
    wrapText str wrapAfter firstWrap = .ok (wrapped str wrapAfter firstWrap) := by
  rcases Int.lt_or_le 0 wrapAfter with hwrap | hwrap
  · rw [wrapText_lines hwrap (h hwrap), wrapped, if_neg hwrap.not_ge]
  · rw [wrapText, wrapped, if_pos hwrap, if_pos hwrap]
    rfl

/-- There is no other way to wrap it. -/
theorem wrapText_ok_iff (hwidth : wrapAfter < 2 ^ 31) (hfirst : firstWrap < 2 ^ 31) :
    (∃ result, wrapText str wrapAfter firstWrap = .ok result) ↔ Wrappable str.length wrapAfter firstWrap := by
  refine ⟨fun ⟨result, hrun⟩ hwrap => ?_, fun h => ⟨_, wrapText_ok h⟩⟩
  by_contra hlong
  rw [wrapText_error hwrap hwidth hfirst hlong] at hrun
  cases hrun

/-- A text is wrapped piece by piece, with the room that is left carried along. -/
theorem wrapped_append (a b : JavaString) (wrapAfter firstWrap : ℤ) :
    wrapped (a ++ b) wrapAfter firstWrap =
      ((wrapped a wrapAfter firstWrap).1 ++ (wrapped b wrapAfter (wrapped a wrapAfter firstWrap).2).1,
        (wrapped b wrapAfter (wrapped a wrapAfter firstWrap).2).2) := by
  by_cases hwrap : wrapAfter ≤ 0
  · simp only [wrapped, if_pos hwrap]
  · have hroom (n : ℕ) : (firstLine wrapAfter n).toNat = n := by
      rw [firstLine, if_neg (not_lt.mpr (Int.natCast_nonneg n)), Int.toNat_natCast]
    simp only [wrapped, if_neg hwrap, wrap_append, hroom]

/-- The end that the first piece leaves to the second is an `int` if the end of both is. -/
theorem LastLineFits.append (hwrap : 0 < wrapAfter) (h : LastLineFits (a ++ b).length wrapAfter firstWrap) :
    LastLineFits b.length wrapAfter (wrapped a wrapAfter firstWrap).2 := by
  rw [wrapped, if_neg hwrap.not_ge]
  obtain ⟨width, rfl⟩ := Int.eq_ofNat_of_zero_le hwrap.le
  obtain ⟨room, hroom⟩ := Int.eq_ofNat_of_zero_le (firstLine_nonneg hwrap firstWrap)
  have hwidth : 0 < width := Int.natCast_pos.mp hwrap
  obtain ⟨n, hend, hmax⟩ := h
  rw [hroom, ← Nat.cast_mul, ← Nat.cast_add] at hend hmax
  rw [hroom, Int.toNat_natCast, Int.toNat_natCast]
  have hleft : firstLine width ((wrap width lineBreak room a).2 : ℤ) = (wrap width lineBreak room a).2 :=
    if_neg (Int.natCast_nonneg _).not_gt
  have hboth := wrap_room_le hwidth lineBreak (Nat.cast_le.mp hend)
  obtain ⟨m, hm, -⟩ := wrap_room hwidth lineBreak (wrap width lineBreak room a).2 b
  rw [wrap_append, List.length_append] at hboth
  refine ⟨m, ?_, ?_⟩
  · rw [hleft, ← Nat.cast_mul, ← Nat.cast_add, ← hm]
    exact Nat.cast_le.mpr (Nat.le_add_right _ _)
  · rw [hleft, ← Nat.cast_mul, ← Nat.cast_add, ← hm]
    omega

theorem LastLineFits.of_append (h : LastLineFits (a ++ b).length wrapAfter firstWrap) :
    LastLineFits a.length wrapAfter firstWrap := by
  obtain ⟨n, hend, hmax⟩ := h
  rw [List.length_append, Nat.cast_add] at hend
  exact ⟨n, by omega, hmax⟩

/-- With whole lines from the beginning there are ends enough for a text of this length. -/
theorem lastLineFits_of_short (hwrap : 0 < wrapAfter) (hwidth : wrapAfter < 2 ^ 31)
    (hshort : length ≤ 2 ^ 30) : LastLineFits length wrapAfter (-1) := by
  have hline : firstLine wrapAfter (-1) = wrapAfter := rfl
  rw [LastLineFits, hline]
  rcases Int.lt_or_le wrapAfter length with hlong | hfits
  · obtain ⟨width, rfl⟩ := Int.eq_ofNat_of_zero_le hwrap.le
    have hfull := Nat.div_mul_le_self length width
    have hnext := Nat.lt_div_mul_add (a := length) (Int.natCast_pos.mp hwrap)
    refine ⟨length / width, ?_, ?_⟩
    · rw [← Nat.cast_mul]
      omega
    · rw [← Nat.cast_mul]
      omega
  · exact ⟨0, (lineEnd_zero _ _).symm ▸ hfits, (lineEnd_zero _ _).symm ▸ hwidth⟩

theorem wrappable_of_short (hwidth : wrapAfter < 2 ^ 31) (hshort : length ≤ 2 ^ 30) :
    Wrappable length wrapAfter (-1) := fun hwrap => lastLineFits_of_short hwrap hwidth hshort

end ApduPlay.WrappedText
