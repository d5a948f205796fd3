import ApduPlay.Library.JoinedWords
import ApduPlay.RecordedLogs

/-!
# How much a log tells

There are no more exchanges in a log than lines, and no more lines than characters. Every byte
takes two characters of a line.
-/

namespace ApduPlay.LogSizes

open JoinedWords LogParser RecordedLogs

/-- No part of an exchange has more bytes than that. -/
structure Within (limit : ℕ) (e : LogExchange) : Prop where
  /-- The header has not. -/
  header : e.header.length ≤ limit
  /-- What was sent has not. -/
  data : e.data.length ≤ limit
  /-- No answer has. -/
  answers : ∀ answer ∈ e.answers, answer.length ≤ limit

variable {text line part key value : JavaString} {bytes : List UInt8} {limit headerLength : ℕ}
  {history history' : History}

/-- A scanner finds no more lines than characters. -/
theorem length_scannerLines (text : JavaString) : (scannerLines text).length ≤ text.length := by
  fun_induction scannerLines text with
  | case1 => exact Nat.le_refl 0
  | case2 text ih => exact (Nat.succ_le_succ ih).trans (Nat.le_succ _)
  | case3 c text _ _ ih => exact Nat.succ_le_succ ih
  | case4 c text _ _ _ _ => exact Nat.succ_le_succ (Nat.zero_le _)
  | case5 c text _ _ line lines hlines ih =>
    rw [hlines] at ih
    exact Nat.le_succ_of_le ih

/-- A line is no longer than the text. -/
theorem length_line (text : JavaString) : ∀ line ∈ scannerLines text, line.length ≤ text.length := by
  fun_induction scannerLines text with
  | case1 => exact List.forall_mem_nil _
  | case2 text ih =>
    refine List.forall_mem_cons.mpr ⟨Nat.zero_le _, fun line hline => ?_⟩
    exact Nat.le_succ_of_le (Nat.le_succ_of_le (ih line hline))
  | case3 c text _ _ ih =>
    exact List.forall_mem_cons.mpr ⟨Nat.zero_le _, fun line hline => Nat.le_succ_of_le (ih line hline)⟩
  | case4 c text _ _ _ _ => exact List.forall_mem_singleton.mpr (Nat.succ_le_succ (Nat.zero_le _))
  | case5 c text _ _ line lines hlines ih =>
    rw [hlines] at ih
    obtain ⟨hfirst, hrest⟩ := List.forall_mem_cons.mp ih
    refine List.forall_mem_cons.mpr ⟨Nat.succ_le_succ hfirst, fun line hline => ?_⟩
    exact Nat.le_succ_of_le (hrest line hline)

/-- A part is no longer than what is split. -/
theorem length_part {c : Char} (hpart : part ∈ split c text) : part.length ≤ text.length := by
  unfold split at hpart
  split_ifs at hpart
  · have hmem : part ∈ text.splitOn c := (List.rdropWhile_prefix _ _).subset hpart
    have hle := length_le_intercalate hmem [c]
    rwa [List.intercalate_splitOn] at hle
  · rw [List.mem_singleton.mp hpart]

/-- So is the value of a line. -/
theorem length_value (h : processLine line = some (key, value)) : value.length ≤ line.length := by
  have hparts : split ':' line = [key, value] := by
    unfold processLine at h
    split at h
    · rename_i hsplit
      cases h
      exact hsplit
    · cases h
  exact length_part (hparts ▸ List.mem_cons_of_mem _ List.mem_cons_self)

theorem length_normalizeHexString (text : JavaString) : (normalizeHexString text).length ≤ text.length := by
  have htrim : (trim text).length ≤ text.length :=
    (List.rdropWhile_prefix _ _).length_le.trans (List.dropWhile_sublist _).length_le
  exact (List.length_filter_le _ _).trans htrim

/-- A byte has two digits. -/
theorem length_hexBinary (h : hexBinary text = some bytes) : 2 * bytes.length = text.length := by
  induction text using hexBinary.induct generalizing bytes with
  | case1 =>
    cases h
    rfl
  | case2 c => cases h
  | case3 c d text ih =>
    rw [hexBinary] at h
    obtain ⟨high, -, h⟩ := Option.bind_eq_some_iff.mp h
    obtain ⟨low, -, h⟩ := Option.bind_eq_some_iff.mp h
    obtain ⟨rest, hrest, h⟩ := Option.bind_eq_some_iff.mp h
    cases h
    have hlength := ih hrest
    simp only [List.length_cons]
    omega

/-- The bytes of a value are not more than half its characters. -/
theorem length_bytes (hvalue : value.length ≤ 2 * limit)
    (h : hexBinary (normalizeHexString value) = some bytes) : bytes.length ≤ limit := by
  have hbytes := length_hexBinary h
  have htext := length_normalizeHexString value
  omega

/-- What a change of the last exchange leaves within the limit. -/
theorem within_changeLast {change : LogExchange → LogExchange}
    (hall : ∀ e ∈ history.exchanges, Within limit e)
    (hchange : ∀ e, Within limit e → Within limit (change e))
    (h : history.changeLast change = some history') :
    (∀ e ∈ history'.exchanges, Within limit e) ∧
      history'.exchanges.length = history.exchanges.length := by
  obtain ⟨exchanges, ac⟩ := history
  rcases List.eq_nil_or_concat exchanges with rfl | ⟨before, e, rfl⟩
  · cases h
  · rw [List.concat_eq_append] at hall h ⊢
    rw [changeLast_concat] at h
    cases h
    obtain ⟨hbefore, he⟩ := List.forall_mem_append.mp hall
    refine ⟨List.forall_mem_append.mpr ⟨hbefore, ?_⟩, ?_⟩
    · exact List.forall_mem_singleton.mpr (hchange e (he e List.mem_cons_self))
    · rw [List.length_append, List.length_append, List.length_singleton, List.length_singleton]

/-- One line tells of one more exchange at most, and of nothing that is longer than half of it. -/
theorem within_readLine (hline : line.length ≤ 2 * limit) (hall : ∀ e ∈ history.exchanges, Within limit e)
    (h : history.readLine headerLength line = some history') :
    (∀ e ∈ history'.exchanges, Within limit e) ∧
      history'.exchanges.length ≤ history.exchanges.length + 1 := by
  unfold History.readLine at h
  split at h
  · cases h
    exact ⟨hall, Nat.le_succ _⟩
  · rename_i hpair
    have hvalue := (length_value hpair).trans hline
    split_ifs at h
    · obtain ⟨data, hdata, hsend⟩ := Option.bind_eq_some_iff.mp h
      have hlength := length_bytes hvalue hdata
      unfold History.send at hsend
      split_ifs at hsend
      cases hsend
      refine ⟨List.forall_mem_append.mpr ⟨hall, List.forall_mem_singleton.mpr ⟨?_, ?_, ?_⟩⟩, ?_⟩
      · exact (List.length_take_le' _ _).trans hlength
      · exact List.length_drop.le.trans ((Nat.sub_le _ _).trans hlength)
      · exact List.forall_mem_nil _
      · rw [List.length_append, List.length_singleton]
    · obtain ⟨data, hdata, hreceive⟩ := Option.bind_eq_some_iff.mp h
      have hlength := length_bytes hvalue hdata
      unfold History.receive at hreceive
      split_ifs at hreceive
      · cases hreceive
        exact ⟨hall, Nat.le_succ _⟩
      · have hanswer : ∀ e : LogExchange, Within limit e →
            Within limit { e with answers := e.answers ++ [data] } := fun e he =>
          ⟨he.header, he.data,
            List.forall_mem_append.mpr ⟨he.answers, List.forall_mem_singleton.mpr hlength⟩⟩
        obtain ⟨hwithin, hcount⟩ := within_changeLast hall hanswer hreceive
        exact ⟨hwithin, hcount.le.trans (Nat.le_succ _)⟩
    · obtain ⟨responseTime, -, hawait⟩ := Option.bind_eq_some_iff.mp h
      obtain ⟨changed, hchanged, hac⟩ := Option.bind_eq_some_iff.mp hawait
      cases hac
      have htime : ∀ e : LogExchange, Within limit e →
          Within limit { e with responseTime := responseTime, ac := history.ac } := fun e he =>
        ⟨he.header, he.data, he.answers⟩
      obtain ⟨hwithin, hcount⟩ := within_changeLast hall htime hchanged
      exact ⟨hwithin, hcount.le.trans (Nat.le_succ _)⟩
    · cases h
      exact ⟨hall, Nat.le_succ _⟩

/-- The same for all lines. -/
theorem within_readLines (headerLength : ℕ) {lines : List JavaString}
    (hlines : ∀ line ∈ lines, line.length ≤ 2 * limit) (hall : ∀ e ∈ history.exchanges, Within limit e) :
    (∀ e ∈ (history.readLines headerLength lines).exchanges, Within limit e) ∧
      (history.readLines headerLength lines).exchanges.length ≤ history.exchanges.length + lines.length := by
  induction lines generalizing history with
  | nil => exact ⟨hall, Nat.le_refl _⟩
  | cons line lines ih =>
    obtain ⟨hline, hlines⟩ := List.forall_mem_cons.mp hlines
    rw [History.readLines]
    split
    · rename_i hread
      obtain ⟨hwithin, hcount⟩ := within_readLine hline hall hread
      obtain ⟨hrest, hlength⟩ := ih hlines hwithin
      refine ⟨hrest, hlength.trans ?_⟩
      rw [List.length_cons]
      omega
    · exact ⟨hall, Nat.le_add_right _ _⟩

/-- A log tells of no more exchanges than it has characters, and of no more bytes at a time than
half of these. -/
theorem within_historyOf (headerLength : ℕ) (htext : text.length ≤ 2 * limit) :
    (∀ e ∈ (historyOf headerLength text).exchanges, Within limit e) ∧
      (historyOf headerLength text).exchanges.length ≤ 2 * limit := by
  have hlines : ∀ line ∈ scannerLines text, line.length ≤ 2 * limit :=
    fun line hline => (length_line text line hline).trans htext
  have hnone : ∀ e ∈ noHistory.exchanges, Within limit e := List.forall_mem_nil _
  obtain ⟨hwithin, hcount⟩ := within_readLines headerLength hlines hnone
  exact ⟨hwithin, hcount.trans ((Nat.zero_add _).le.trans ((length_scannerLines text).trans htext))⟩

end ApduPlay.LogSizes
