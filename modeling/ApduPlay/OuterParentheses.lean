import Mathlib.Data.Nat.Basic
import ApduPlay.HexStrings
import ApduPlay.RuleFile
import ApduPlay.Library.NestedBrackets

/-!
# The parentheses of a description

Before the description of an instruction is written to the log, its outer
parentheses become square brackets. The position is an `unsigned int` and the
count of open parentheses an `int`, while the length is a `size_t`.
-/

namespace ApduPlay.OuterParentheses

open HexStrings NestedBrackets RuleFile

/-- The loop of `ConvertOuterParenthessis` from a position and a count on, if it
ends within some steps. A count that leaves the range of `int` has no result. -/
def convertSteps : ℕ → UInt32 → ℤ → Text → Option Text
  | 0, _, _, _ => none
  | steps + 1, i, count, description =>
    match description[i.toNat]? with
    | none => some description
    | some c =>
      if c = 40 then
        if count = 2 ^ 31 - 1 then none
        else convertSteps steps (i + 1) (count + 1)
          (if count = 0 then description.set i.toNat 91 else description)
      else if c = 41 then
        if count = -2 ^ 31 then none
        else convertSteps steps (i + 1) (count - 1)
          (if count = 1 then description.set i.toNat 93 else description)
      else convertSteps steps (i + 1) count description

/-- `ConvertOuterParenthessis` ends with this description. -/
def ConvertOuterParenthessis (description result : Text) : Prop :=
  ∃ steps, convertSteps steps 0 0 description = some result

/-- What `WriteDescription` appends to the log. -/
def WriteDescription (instructionDict : Dictionary) (insByte : UInt8) (appended : Text) : Prop :=
  ∃ description, instructionDict.value (ascii "instructions:") (hexNum insByte) = .ok description ∧
    if description.length ≠ 0 then
      ∃ tmp, ConvertOuterParenthessis description tmp ∧
        appended = ascii "instruction info: " ++ tmp ++ ascii "\n"
    else appended = []

/-- `(` is closed by `)`. -/
def Parentheses (a b : UInt8) : Prop := a = 40 ∧ b = 41

/-- So is `[` by `]`. -/
def Brackets (a b : UInt8) : Prop := Parentheses a b ∨ a = 91 ∧ b = 93

/-- The square bracket for a parenthesis. -/
def squared (c : UInt8) : UInt8 := if c = 40 then 91 else 93

/-- The parentheses inside no others are square brackets now, everything else is
as it was, and all brackets are closed. -/
def OuterConverted (description result : Text) : Prop :=
  (∀ i j, Outermost Parentheses description i j → result[i]? = some 91 ∧ result[j]? = some 93) ∧
    (∀ k, ¬ OuterPlace Parentheses description k → result[k]? = description[k]?) ∧ Balanced Brackets result

variable {description result l l' : Text} {steps n : ℕ} {i : UInt32}

theorem parentheses_apart (a b c : UInt8) (h : Parentheses a b) : ¬ Parentheses b c := by
  rintro ⟨rfl, -⟩
  exact absurd h.2 (by decide)

theorem plain_parentheses_iff {c : UInt8} : Plain Parentheses c ↔ c ≠ 40 ∧ c ≠ 41 := by
  constructor
  · intro h
    exact ⟨fun hc => (h 41).1 ⟨hc, rfl⟩, fun hc => (h 40).2 ⟨rfl, hc⟩⟩
  · exact fun h b => ⟨fun hb => h.1 hb.1, fun hb => h.2 hb.2⟩

theorem plain_brackets {c : UInt8} (h : Plain Parentheses c) (hc : c ≠ 91 ∧ c ≠ 93) : Plain Brackets c :=
  fun b => ⟨fun hb => hb.elim (h b).1 fun hb => hc.1 hb.1, fun hb => hb.elim (h b).2 fun hb => hc.2 hb.2⟩

/-- The loop with the characters behind it and those to come. -/
def run (steps : ℕ) (done : Text) (count : ℤ) (rest : Text) : Option Text :=
  convertSteps steps (UInt32.ofNat done.length) count (done ++ rest)

section Steps

variable {done rest w w' : Text} {c : UInt8} {count : ℤ}

/-- One step replaces a character or keeps it, and goes on behind it. -/
theorem run_cons (hdone : done.length < 2 ^ 32) :
    run (steps + 1) done count (c :: rest) =
      if c = 40 then
        if count = 2 ^ 31 - 1 then none
        else run steps (done ++ [if count = 0 then 91 else c]) (count + 1) rest
      else if c = 41 then
        if count = -2 ^ 31 then none
        else run steps (done ++ [if count = 1 then 93 else c]) (count - 1) rest
      else run steps (done ++ [c]) count rest := by
  have hpos : (UInt32.ofNat done.length).toNat = done.length := UInt32.toNat_ofNat_of_lt' hdone
  have hread : (done ++ c :: rest)[(UInt32.ofNat done.length).toNat]? = some c := by
    rw [hpos, List.getElem?_append_right (Nat.le_refl _), Nat.sub_self]
    rfl
  have hkeep : done ++ c :: rest = done ++ [c] ++ rest := by rw [List.append_assoc, List.singleton_append]
  have hreplace (P : Prop) [Decidable P] (x : UInt8) :
      (if P then (done ++ c :: rest).set done.length x else done ++ c :: rest) =
        done ++ [if P then x else c] ++ rest := by
    split_ifs
    · rw [List.set_append_right _ _ (Nat.le_refl _), Nat.sub_self, List.append_assoc]
      rfl
    · exact hkeep
  have hnext (x : UInt8) : UInt32.ofNat (done ++ [x]).length = UInt32.ofNat done.length + 1 := by
    rw [List.length_append, List.length_singleton, UInt32.ofNat_add]
    rfl
  rw [run, convertSteps, hread]
  dsimp only
  rw [hpos, hreplace, hreplace, hkeep]
  simp only [run, hnext]

theorem run_plain (hc : Plain Parentheses c) (hdone : done.length < 2 ^ 32) :
    run (steps + 1) done count (c :: rest) = run steps (done ++ [c]) count rest := by
  obtain ⟨hopen, hclose⟩ := plain_parentheses_iff.mp hc
  rw [run_cons hdone, if_neg hopen, if_neg hclose]

theorem run_open (hn : n + 1 < 2 ^ 31) (hdone : done.length < 2 ^ 32) :
    run (steps + 1) done n (40 :: rest) = run steps (done ++ [if n = 0 then 91 else 40])
      (n + 1 : ℕ) rest := by
  rw [run_cons hdone, if_pos rfl, if_neg (by omega), Nat.cast_succ]
  simp only [Nat.cast_eq_zero]

theorem run_close (hdone : done.length < 2 ^ 32) :
    run (steps + 1) done (n + 1 : ℕ) (41 :: rest) =
      run steps (done ++ [if n = 0 then 93 else 41]) n rest := by
  have hone : ((n + 1 : ℕ) : ℤ) = 1 ↔ n = 0 := by omega
  rw [run_cons hdone, if_neg (by decide), if_pos rfl, if_neg (by omega), Nat.cast_succ, add_sub_cancel_right]
  simp only [← Nat.cast_succ, Nat.succ_eq_add_one, hone]

/-- A pair is passed with the count it began with. -/
theorem run_group (steps : ℕ) (rest : Text) {inside l : Text} (hn : n + 1 < 2 ^ 31)
    (hdone : done.length + (inside.length + 2) ≤ 2 ^ 32)
    (hinside : ∀ (steps : ℕ) (done rest : Text), done.length + inside.length ≤ 2 ^ 32 →
      run (steps + inside.length) done (n + 1 : ℕ) (inside ++ rest) =
        run steps (done ++ inside) (n + 1 : ℕ) rest) :
    run (steps + (40 :: (inside ++ 41 :: l)).length) done n (40 :: (inside ++ 41 :: l) ++ rest) =
      run (steps + l.length) (done ++ (if n = 0 then 91 else 40) :: (inside ++ [if n = 0 then 93 else 41])) n
        (l ++ rest) := by
  have hsteps : steps + (40 :: (inside ++ 41 :: l)).length = steps + l.length + 1 + inside.length + 1 := by
    rw [length_group]
    omega
  have hlen (x : UInt8) : (done ++ [x]).length = done.length + 1 := List.length_append
  have hlen' (x : UInt8) : (done ++ [x] ++ inside).length = done.length + 1 + inside.length := by
    rw [List.length_append, hlen]
  rw [hsteps, List.cons_append, List.append_assoc, List.cons_append, run_open hn (by omega),
    hinside _ _ _ (by rw [hlen]; omega), run_close (by rw [hlen']; omega)]
  simp only [List.append_assoc, List.cons_append, List.nil_append]

/-- Inside a pair the count is positive at every position, so nothing is replaced. -/
theorem run_nested (h : Balanced Parentheses w) (hn : 0 < n) (hcount : 2 * n + w.length < 2 ^ 32)
    (hdone : done.length + w.length ≤ 2 ^ 32) :
    run (steps + w.length) done n (w ++ rest) = run steps (done ++ w) n rest := by
  induction h generalizing steps done n rest with
  | nil => rw [List.append_nil, List.nil_append, List.length_nil, Nat.add_zero]
  | @plain a l ha _ ih =>
    rw [List.length_cons] at hcount hdone
    have hlen : (done ++ [a]).length = done.length + 1 := List.length_append
    rw [List.length_cons, ← Nat.add_assoc, List.cons_append, run_plain ha (by omega),
      ih hn (by omega) (by omega), List.append_assoc, List.singleton_append]
  | @group a b inside l hab _ _ ihinside ih =>
    obtain ⟨rfl, rfl⟩ := hab
    rw [length_group] at hcount hdone
    have hlen : (done ++ 40 :: (inside ++ [41])).length = done.length + (inside.length + 2) := by
      rw [List.length_append, length_group, List.length_nil, Nat.zero_add]
    have hpass (steps : ℕ) (done rest : Text) (hdone : done.length + inside.length ≤ 2 ^ 32) :
        run (steps + inside.length) done (n + 1 : ℕ) (inside ++ rest) =
          run steps (done ++ inside) (n + 1 : ℕ) rest :=
      ihinside (Nat.succ_pos n) (by omega) hdone
    rw [run_group steps rest (by omega) (by omega) hpass, if_neg hn.ne',
      if_neg hn.ne', ih hn (by omega) (by omega)]
    simp only [List.append_assoc, List.cons_append, List.nil_append]

/-- Outside of all pairs the count is zero, and the brackets of a pair are replaced. -/
theorem run_outer (steps : ℕ) (done rest : Text) (h : OuterReplaced Parentheses squared w w')
    (hdone : done.length + w.length ≤ 2 ^ 32) (hw : w.length < 2 ^ 32) :
    run (steps + w.length) done (0 : ℕ) (w ++ rest) = run steps (done ++ w') (0 : ℕ) rest := by
  induction h generalizing steps done rest with
  | nil => rw [List.append_nil, List.nil_append, List.length_nil, Nat.add_zero]
  | @plain a l l' ha _ ih =>
    rw [List.length_cons] at hw hdone
    have hlen : (done ++ [a]).length = done.length + 1 := List.length_append
    rw [List.length_cons, ← Nat.add_assoc, List.cons_append, run_plain ha (by omega),
      ih _ _ _ (by omega) (by omega), List.append_assoc, List.singleton_append]
  | @group a b inside l l' hab hinside _ ih =>
    obtain ⟨rfl, rfl⟩ := hab
    rw [length_group] at hw hdone
    have hlen : (done ++ 91 :: (inside ++ [93])).length = done.length + (inside.length + 2) := by
      rw [List.length_append, length_group, List.length_nil, Nat.zero_add]
    have hpass (steps : ℕ) (done rest : Text) (hdone : done.length + inside.length ≤ 2 ^ 32) :
        run (steps + inside.length) done (1 : ℕ) (inside ++ rest) = run steps (done ++ inside) (1 : ℕ) rest :=
      run_nested hinside Nat.one_pos (by omega) hdone
    rw [run_group steps rest (by decide) (by omega) hpass, if_pos rfl,
      if_pos rfl, ih _ _ _ (by omega) (by omega)]
    simp only [List.append_assoc, List.cons_append, List.nil_append]
    rfl

end Steps

/-- A position of 32 bits is always below a length of more. -/
theorem convertSteps_endless (hlen : 2 ^ 32 ≤ description.length) (steps : ℕ) (i : UInt32) (count : ℤ) :
    convertSteps steps i count description = none := by
  induction steps generalizing i count description with
  | zero => rfl
  | succ steps ih =>
    have hset (x : UInt8) : 2 ^ 32 ≤ (description.set i.toNat x).length := by rwa [List.length_set]
    obtain ⟨c, hread⟩ : ∃ c, description[i.toNat]? = some c :=
      ⟨_, List.getElem?_eq_getElem (Nat.lt_of_lt_of_le i.toNat_lt hlen)⟩
    rw [convertSteps, hread]
    dsimp only
    split_ifs
    · rfl
    · exact ih (hset 91) _ _
    · exact ih hlen _ _
    · rfl
    · exact ih (hset 93) _ _
    · exact ih hlen _ _
    · exact ih hlen _ _

/-- The description of a shorter length is converted. -/
theorem convertOuterParenthessis_outer (h : OuterReplaced Parentheses squared description result)
    (hlen : description.length < 2 ^ 32) : ConvertOuterParenthessis description result := by
  have hrun := run_outer 1 [] [] h (Nat.zero_add _ ▸ hlen.le) hlen
  rw [List.append_nil, List.nil_append] at hrun
  refine ⟨1 + description.length, hrun.trans ?_⟩
  have hpos : (UInt32.ofNat result.length).toNat = result.length :=
    UInt32.toNat_ofNat_of_lt' (h.length_eq ▸ hlen)
  rw [run, convertSteps, hpos, List.append_nil, List.getElem?_eq_none (Nat.le_refl _)]

theorem outerConverted_of_replaced (h : OuterReplaced Parentheses squared description result)
    (hsquare : ∀ c ∈ description, c ≠ 91 ∧ c ≠ 93) : OuterConverted description result := by
  refine ⟨fun i j houter => ?_, fun k hk => h.getElem?_other parentheses_apart hk, ?_⟩
  · have hi := h.getElem?_outer parentheses_apart ⟨i, j, houter, Or.inl rfl⟩
    have hj := h.getElem?_outer parentheses_apart ⟨i, j, houter, Or.inr rfl⟩
    obtain ⟨a, b, ⟨rfl, rfl⟩, hopen, hclose⟩ := houter.1.getElem?
    rw [hi, hj, hopen, hclose]
    exact ⟨rfl, rfl⟩
  · refine h.balanced (fun _ _ => Or.inl) ?_ fun c hc hplain => plain_brackets hplain (hsquare c hc)
    rintro _ _ ⟨rfl, rfl⟩
    exact Or.inr ⟨rfl, rfl⟩

/-- The outer parentheses of a description are converted exactly if its length is
an `unsigned int`. -/
theorem outerConverted_iff (hbalanced : Balanced Parentheses description)
    (hsquare : ∀ c ∈ description, c ≠ 91 ∧ c ≠ 93) :
    (∃ result, ConvertOuterParenthessis description result ∧ OuterConverted description result) ↔
      description.length < 2 ^ 32 := by
  constructor
  · rintro ⟨result, ⟨steps, hsteps⟩, -⟩
    by_contra hlen
    rw [convertSteps_endless (Nat.le_of_not_lt hlen)] at hsteps
    cases hsteps
  · intro hlen
    obtain ⟨result, hresult⟩ := hbalanced.exists_outerReplaced squared
    exact ⟨result, convertOuterParenthessis_outer hresult hlen, outerConverted_of_replaced hresult hsquare⟩

/-- `(A(B))C` -/
theorem outerConverted_nested :
    (∃ result, ConvertOuterParenthessis [40, 65, 40, 66, 41, 41, 67] result ∧
        OuterConverted [40, 65, 40, 66, 41, 41, 67] result) ↔
      [40, 65, 40, 66, 41, 41, 67].length < 2 ^ 32 := by
  have hplain {c : UInt8} (hc : c ≠ 40 ∧ c ≠ 41) : Plain Parentheses c := plain_parentheses_iff.mpr hc
  have hin : Balanced Parentheses [65, 40, 66, 41] :=
    Balanced.plain (hplain (by decide)) (Balanced.group ⟨rfl, rfl⟩
      (Balanced.plain (hplain (by decide)) Balanced.nil) Balanced.nil)
  have hall : Balanced Parentheses [40, 65, 40, 66, 41, 41, 67] :=
    Balanced.group ⟨rfl, rfl⟩ hin (Balanced.plain (hplain (by decide)) Balanced.nil)
  exact outerConverted_iff hall (by simp)

/-- Without any parentheses the loop does not end in a description this long. -/
theorem not_outerConverted_long :
    Balanced Parentheses (List.replicate (2 ^ 32) 65) ∧
      (∀ c ∈ List.replicate (2 ^ 32) (65 : UInt8), c ≠ 91 ∧ c ≠ 93) ∧
      ¬ ∃ result, ConvertOuterParenthessis (List.replicate (2 ^ 32) 65) result ∧
        OuterConverted (List.replicate (2 ^ 32) 65) result := by
  refine ⟨balanced_of_plain fun c hc => ?_, fun c hc => ?_, ?_⟩
  · rw [List.eq_of_mem_replicate hc]
    exact plain_parentheses_iff.mpr (by decide)
  · rw [List.eq_of_mem_replicate hc]
    decide
  · rintro ⟨result, ⟨steps, hsteps⟩, -⟩
    rw [convertSteps_endless (by rw [List.length_replicate])] at hsteps
    cases hsteps

/-- The description of an instruction is logged with its outer parentheses converted. -/
theorem writeDescription_converted {instructionDict : Dictionary} {insByte : UInt8}
    (hvalue : instructionDict.value (ascii "instructions:") (hexNum insByte) = .ok description)
    (hne : description ≠ []) (hbalanced : Balanced Parentheses description)
    (hsquare : ∀ c ∈ description, c ≠ 91 ∧ c ≠ 93) (hlen : description.length < 2 ^ 32) :
    ∃ tmp, OuterConverted description tmp ∧
      WriteDescription instructionDict insByte (ascii "instruction info: " ++ tmp ++ ascii "\n") := by
  obtain ⟨tmp, htmp⟩ := hbalanced.exists_outerReplaced squared
  refine ⟨tmp, outerConverted_of_replaced htmp hsquare, description, hvalue, ?_⟩
  rw [if_pos (mt List.eq_nil_of_length_eq_zero hne)]
  exact ⟨tmp, convertOuterParenthessis_outer htmp hlen, rfl⟩

example : convertSteps 8 0 0 (ascii "(A(B))C") = some (ascii "[A(B)]C") := by decide

end ApduPlay.OuterParentheses
