import ApduPlay.ConstantBytes

/-!
# When a common beginning is long enough

The setting is a number of bytes, and the comparison takes three characters for
each of them. A message that is common as a whole has one character less, since
no blank follows its last byte.
-/

namespace ApduPlay.ConstantLengths

open CommonPrefix JoinedWords LogParser TextOutput ConstantBytes

/-- The bytes all messages begin with are as many as the settings want, or they
are the whole shortest message and this is not checked. -/
def LongEnough {α : Type} [DecidableEq α] (settings : Settings) (ls : List (List α)) : Prop :=
  settings.minimalConstantLength ≤ commonLength ls ∨
    settings.checkMinimalLengthOnShorterStreams = false ∧ Whole ls

instance {α : Type} [DecidableEq α] (settings : Settings) (ls : List (List α)) :
    Decidable (LongEnough settings ls) :=
  inferInstanceAs (Decidable (_ ∨ _))

/-- The characters of the common bytes are returned if they are long enough, and
no string is indexed outside. -/
def ReturnsCommon (settings : Settings) (wss : List (List JavaString)) : Prop :=
  longestCommonPrefix settings (wss.map (joined ' ')) =
    .ok (if LongEnough settings wss then 3 * commonLength wss - 1 else 0)

/-- Three times the setting is an `int`. -/
def Fits (minimalConstantLength : ℤ) : Prop :=
  -(2 ^ 31) ≤ minimalConstantLength * 3 ∧ minimalConstantLength * 3 < 2 ^ 31

/-- The test with characters decides like one with bytes. In the range of `int` it
does unless the whole shortest message is common and has exactly as many bytes as
the settings want. Beyond, the characters are compared with what the product wraps
to. -/
def JudgedRight (minimalConstantLength : ℤ) (n : ℕ) (whole : Prop) [Decidable whole] : Prop :=
  (Fits minimalConstantLength → ¬ (whole ∧ minimalConstantLength = n)) ∧
    (¬ Fits minimalConstantLength →
      (minimalConstantLength ≤ n ↔
        (minimalConstantLength * 3).bmod (2 ^ 32) ≤ (if whole then 3 * n - 1 else 3 * n : ℕ)))

variable {settings : Settings} {wss : List (List JavaString)} {minimum : ℤ} {n : ℕ}

theorem bmod_of_fits (h : Fits minimum) : (minimum * 3).bmod (2 ^ 32) = minimum * 3 :=
  Int.bmod_eq_of_le_mul_two (by have := h.1; omega) (by have := h.2; omega)

/-- With some common bytes both tests agree exactly in these cases. -/
theorem judgedRight_iff {whole : Prop} [Decidable whole] (hn : 0 < n) :
    JudgedRight minimum n whole ↔
      (minimum ≤ n ↔ (minimum * 3).bmod (2 ^ 32) ≤ (if whole then 3 * n - 1 else 3 * n : ℕ)) := by
  unfold JudgedRight
  by_cases hfits : Fits minimum
  · rw [and_iff_left fun h => absurd hfits h, forall_prop_of_true hfits, bmod_of_fits hfits]
    by_cases hwhole : whole
    · rw [if_pos hwhole, and_iff_right hwhole]
      omega
    · rw [if_neg hwhole]
      refine iff_of_true (fun h => hwhole h.1) ?_
      omega
  · rw [and_iff_right fun h => absurd h hfits, forall_prop_of_true hfits]

/-- One of two answers is returned and one is right. -/
theorem returned_iff {test right : Prop} [Decidable test] [Decidable right] (hn : 0 < n) :
    3 * (if test then n else 0) - 1 = (if right then 3 * n - 1 else 0) ↔ (right ↔ test) := by
  split_ifs with htest hright hright
  · exact iff_of_true rfl (iff_of_true hright htest)
  · exact iff_of_false (by omega) fun h => hright (h.mpr htest)
  · exact iff_of_false (by omega) fun h => htest (h.mp hright)
  · exact iff_of_true rfl (iff_of_false hright htest)

/-- The length is right exactly if nothing is common, or the whole shortest message
is and this suffices, or the test is right. -/
theorem returnsCommon_iff (settings : Settings) (hne : wss ≠ []) (hwss : ∀ ws ∈ wss, TwoDigits ws) :
    ReturnsCommon settings wss ↔
      commonLength wss = 0 ∨ settings.checkMinimalLengthOnShorterStreams = false ∧ Whole wss ∨
        JudgedRight settings.minimalConstantLength (commonLength wss) (Whole wss) := by
  rw [ReturnsCommon, longestCommonPrefix_joined settings hne hwss, Except.ok.injEq, constantLength]
  rcases Nat.eq_zero_or_pos (commonLength wss) with hzero | hpos
  · rw [hzero, ite_self]
    exact iff_of_true (ite_self 0).symm (Or.inl rfl)
  · rw [or_iff_right hpos.ne', judgedRight_iff hpos]
    by_cases hshort : settings.checkMinimalLengthOnShorterStreams = false ∧ Whole wss
    · have hlong : LongEnough settings wss := Or.inr hshort
      rw [if_pos hlong, if_pos (Or.inr hshort)]
      exact iff_of_true rfl (Or.inl hshort)
    · have hlong : LongEnough settings wss ↔ settings.minimalConstantLength ≤ commonLength wss :=
        or_iff_left hshort
      rw [returned_iff hpos, hlong, or_iff_left hshort, or_iff_right hshort]

/-- Two bytes are constant if two are wanted and a message goes on behind them. -/
theorem returnsCommon_longer :
    ReturnsCommon ⟨2, true, defaultTextOutputSettings⟩
      [["00".toList, "A4".toList, "04".toList], ["00".toList, "A4".toList, "08".toList]] :=
  (returnsCommon_iff ⟨2, true, defaultTextOutputSettings⟩ (by decide)
    (by unfold TwoDigits; decide)).mpr (by
      refine Or.inr (Or.inr ⟨fun _ h => ?_, fun h => absurd ⟨by decide, by decide⟩ h⟩)
      exact absurd h.1 (by decide +kernel))

/-- A message of two bytes alone is not. -/
theorem not_returnsCommon_whole :
    ¬ ReturnsCommon ⟨2, true, defaultTextOutputSettings⟩ [["00".toList, "A4".toList]] := by
  unfold ReturnsCommon
  decide +kernel

end ApduPlay.ConstantLengths
