import ApduPlay.SeparatedArray
import Mathlib.Data.Nat.Find
import Mathlib.Order.Basic

/-!
# Names in one text

The setting of the virtual readers and the list of the proxy are texts of names
with `|` between them, and are parsed like arrays of strings. In an array two
separators in a row are the end; in a text they are an empty name.
-/

namespace ApduPlay.SeparatedNames

open SeparatedArray

variable {χ : Type} [DecidableEq χ]

/-- The segments of a text that are not empty. -/
def segments (separator : χ) (text : List χ) : List (List χ) :=
  (text.splitOn separator).filter fun segment => segment.length > 0

/-- `VIRTUAL_READERS_SEPARATOR` -/
def virtualReadersSeparator : UInt8 := 124

/-- All segments of a text are found, the first character behind which is its
zero character. This is what `LoadRule` does with the value of `VIRTUAL_READERS`
and `Remote_ListReaders` with the response without the blanks at its end. -/
def FindsSegments (text : Text) : Prop :=
  stringParseSeparatedArray virtualReadersSeparator (text ++ [0]) text.length =
    .ok (segments virtualReadersSeparator text)

/-- The loop stops at a position in the text: there is a separator, and one at
the position that the `DWORD` has next. -/
def StopsAt (separator : χ) (text : List χ) (pos : ℕ) : Prop :=
  pos < 2 ^ 32 ∧ text[pos]? = some separator ∧ text[(pos + 1) % 2 ^ 32]? = some separator

instance (separator : χ) (text : List χ) (pos : ℕ) : Decidable (StopsAt separator text pos) :=
  inferInstanceAs (Decidable (_ ∧ _ ∧ _))

variable {separator nul : χ} {text item before : List χ} {items result result' : List (List χ)}
  {array : List χ} {arraySize steps p : ℕ} {pos : UInt32}

theorem segments_append_cons (before after : List χ) :
    segments separator (before ++ separator :: after) =
      segments separator before ++ segments separator after := by
  rw [segments, List.splitOn, List.splitOnP_append_cons _ _ (by simp), List.filter_append]
  rfl

/-- A text without separators is a segment, unless it is empty. -/
theorem segments_item (hitem : separator ∉ item) : segments separator item = pushItem [] item := by
  have hnone : ∀ c ∈ item, (c == separator) = false := by
    intro c hc
    rw [beq_eq_false_iff_ne]
    exact fun he => hitem (he ▸ hc)
  rw [segments, List.splitOn, List.splitOnP_eq_singleton hnone, pushItem]
  cases item <;> rfl

theorem segments_eq_nil_iff : segments separator text = [] ↔ ∀ c ∈ text, c = separator := by
  induction text with
  | nil => simp [segments]
  | cons c text ih =>
    rw [List.forall_mem_cons, ← ih]
    by_cases hc : c = separator
    · have hsplit : segments separator ([] ++ separator :: text) = _ := segments_append_cons [] text
      rw [List.nil_append, segments_item List.not_mem_nil] at hsplit
      rw [hc, hsplit]
      simp [pushItem]
    · refine iff_of_false (fun hnil => ?_) fun h => hc h.1
      rw [segments, List.splitOn, List.splitOnP_cons_eq_if_modifyHead, if_neg (by simpa using hc)] at hnil
      obtain ⟨head, tail, hsplit⟩ := List.exists_cons_of_ne_nil (List.splitOnP_ne_nil (· == separator) text)
      rw [hsplit] at hnil
      simp at hnil

omit [DecidableEq χ] in
/-- What is pushed comes behind what is there. -/
theorem pushItem_eq (items : List (List χ)) (item : List χ) :
    pushItem items item = items ++ pushItem [] item := by
  unfold pushItem
  split_ifs <;> simp

/-- The loop has gone through the first characters: the item that is open has no
separator in it, and with the items that were found it makes up their segments. -/
structure Scanned (separator : χ) (text : List χ) (p : ℕ) (item : List χ) (items : List (List χ)) :
    Prop where
  /-- The open item goes on. -/
  notMem : separator ∉ item
  /-- The segments, whatever comes behind. -/
  segments_eq : ∀ after,
    segments separator (text.take p ++ after) = items ++ segments separator (item ++ after)

/-- One more character of an item. -/
theorem Scanned.character (h : Scanned separator text p item items) {c : χ} (hc : text[p]? = some c)
    (hne : c ≠ separator) : Scanned separator text (p + 1) (item ++ [c]) items := by
  refine ⟨?_, fun after => ?_⟩
  · rw [List.mem_append, List.mem_singleton]
    exact not_or.mpr ⟨h.notMem, Ne.symm hne⟩
  · rw [List.take_add_one, hc, Option.toList_some, List.append_assoc, h.segments_eq, List.append_assoc]

/-- A separator ends the item. -/
theorem Scanned.ended (h : Scanned separator text p item items) (hc : text[p]? = some separator) :
    Scanned separator text (p + 1) [] (pushItem items item) := by
  refine ⟨List.not_mem_nil, fun after => ?_⟩
  rw [List.take_add_one, hc, Option.toList_some, List.append_assoc, h.segments_eq, List.singleton_append,
    segments_append_cons, segments_item h.notMem, ← List.append_assoc, ← pushItem_eq, List.nil_append]

/-- Where the loop ends, all segments up to there are found. -/
theorem Scanned.pushItem_eq_segments (h : Scanned separator text p item items) :
    pushItem items item = segments separator (text.take p) := by
  have hsegments := h.segments_eq []
  rw [List.append_nil, List.append_nil, segments_item h.notMem, ← pushItem_eq] at hsegments
  exact hsegments.symm

/-- As long as no position stops it the loop goes through the text. The induction
is on the number of characters. -/
theorem parseSteps_scanned (hnul : nul ≠ separator) (hp : p ≤ text.length) (hmax : p ≤ 2 ^ 32)
    (hgo : ∀ q < p, ¬ StopsAt separator text q) :
    ∃ item items, Scanned separator text p item items ∧ ∀ steps,
      parseSteps separator (text ++ [nul]) text.length (p + steps) 0 [] [] =
        parseSteps separator (text ++ [nul]) text.length steps (UInt32.ofNat p) item items := by
  induction p with
  | zero =>
    refine ⟨[], [], ⟨List.not_mem_nil, fun after => ?_⟩, fun steps => ?_⟩
    · rw [List.take_zero, List.nil_append, List.nil_append]
    · rw [Nat.zero_add]
      rfl
  | succ p ih =>
    obtain ⟨item, items, hscanned, hrun⟩ := ih (by omega) (by omega) fun q hq => hgo q (by omega)
    have hpos : (UInt32.ofNat p).toNat = p := UInt32.toNat_ofNat_of_lt' (show p < 2 ^ 32 by omega)
    have hnext : UInt32.ofNat p + 1 = UInt32.ofNat (p + 1) := (UInt32.ofNat_add p 1).symm
    have hc : text[p]? = some text[p] := List.getElem?_eq_getElem hp
    have hread : (text ++ [nul])[(UInt32.ofNat p).toNat]? = some text[p] := by
      rw [hpos, List.getElem?_append_left hp, hc]
    have hfits : p ≤ text.length - 1 := by omega
    by_cases hsep : text[p] = separator
    · have hlookahead : ∃ d, (text ++ [nul])[(UInt32.ofNat p + 1).toNat]? = some d ∧ d ≠ separator := by
        have hwrap : (UInt32.ofNat p + 1).toNat = (p + 1) % 2 ^ 32 := by
          rw [hnext, UInt32.toNat_ofNat']
        have hle : (p + 1) % 2 ^ 32 ≤ text.length := (Nat.mod_le _ _).trans hp
        rw [hwrap]
        rcases hle.lt_or_eq with hlt | heq
        · refine ⟨_, (List.getElem?_append_left hlt).trans (List.getElem?_eq_getElem hlt), fun hd => ?_⟩
          exact hgo p p.lt_succ_self ⟨by omega, hc.trans (congrArg some hsep),
            (List.getElem?_eq_getElem hlt).trans (congrArg some hd)⟩
        · exact ⟨nul, by rw [heq, List.getElem?_concat_length], hnul⟩
      obtain ⟨d, hd, hne⟩ := hlookahead
      refine ⟨[], pushItem items item, hscanned.ended (hc.trans (congrArg some hsep)), fun steps => ?_⟩
      rw [Nat.succ_add, ← Nat.add_succ, hrun, parseSteps, hread]
      dsimp only
      rw [if_neg (not_not.mpr hsep), hd]
      dsimp only
      rw [if_pos ⟨hne, by rw [hpos]; exact hfits⟩, hnext]
    · refine ⟨item ++ [text[p]], items, hscanned.character hc hsep, fun steps => ?_⟩
      rw [Nat.succ_add, ← Nat.add_succ, hrun, parseSteps, hread]
      dsimp only
      rw [if_pos hsep, if_pos (by rw [hpos]; exact hfits), hnext]

/-- At the first position that stops it, the loop ends with the segments before. -/
theorem parse_of_stopsAt (hnul : nul ≠ separator) (hstop : StopsAt separator text p)
    (hgo : ∀ q < p, ¬ StopsAt separator text q) :
    stringParseSeparatedArray separator (text ++ [nul]) text.length =
      .ok (segments separator (text.take p)) := by
  obtain ⟨hmax, hc, hd⟩ := hstop
  have hp := (List.getElem?_eq_some_iff.mp hc).1
  obtain ⟨item, items, hscanned, hrun⟩ := parseSteps_scanned hnul hp.le hmax.le hgo
  have hpos : (UInt32.ofNat p).toNat = p := UInt32.toNat_ofNat_of_lt' hmax
  have hwrap : (UInt32.ofNat p + 1).toNat = (p + 1) % 2 ^ 32 := by
    rw [← UInt32.toNat_ofNat', UInt32.ofNat_add]
    rfl
  have hsteps : 2 ^ 32 = p + (2 ^ 32 - p - 1 + 1) := by omega
  rw [stringParseSeparatedArray, if_pos (Nat.zero_lt_of_lt hp), hsteps, hrun, parseSteps, hpos,
    List.getElem?_append_left hp, hc]
  dsimp only
  rw [if_neg (not_not.mpr rfl), hwrap, List.getElem?_append_left (List.getElem?_eq_some_iff.mp hd).1, hd]
  dsimp only
  rw [if_neg fun h => h.1 rfl, hscanned.pushItem_eq_segments]
  rfl

/-- Without such a position all segments of a text are found whose positions
do not wrap around. -/
theorem parse_of_not_stopsAt (hnul : nul ≠ separator) (hgo : ∀ p, ¬ StopsAt separator text p)
    (hlen : text.length < 2 ^ 32) :
    stringParseSeparatedArray separator (text ++ [nul]) text.length = .ok (segments separator text) := by
  unfold stringParseSeparatedArray
  split_ifs with hsome
  · obtain ⟨item, items, hscanned, hrun⟩ := parseSteps_scanned hnul le_rfl hlen.le fun q _ => hgo q
    have hpos : (UInt32.ofNat text.length).toNat = text.length := UInt32.toNat_ofNat_of_lt' hlen
    have hsteps : 2 ^ 32 = text.length + (2 ^ 32 - text.length - 1 + 1) := by omega
    rw [hsteps, hrun, parseSteps, hpos, List.getElem?_concat_length]
    dsimp only
    rw [if_pos hnul, if_neg (by omega), hscanned.pushItem_eq_segments, List.take_length]
    rfl
  · rw [List.eq_nil_of_length_eq_zero (Nat.eq_zero_of_not_pos hsome)]
    rfl

/-- In a longer text the position comes back to the beginning. -/
theorem parse_endless (hgo : ∀ p, ¬ StopsAt separator text p) (hlen : 2 ^ 32 ≤ text.length) :
    stringParseSeparatedArray separator (text ++ [nul]) text.length = .error .endlessLoop := by
  have hpass : ∀ pos : UInt32, (text ++ [nul])[pos.toNat]? = some separator →
      (text ++ [nul])[(pos + 1).toNat]? ≠ some separator := by
    intro pos hpos hnext
    have hlt := pos.toNat_lt
    have hlt' := (pos + 1).toNat_lt
    rw [List.getElem?_append_left (by omega)] at hpos hnext
    exact hgo pos.toNat ⟨hlt, hpos, UInt32.toNat_add pos 1 ▸ hnext⟩
  rw [stringParseSeparatedArray, if_pos (by omega),
    parseSteps_endless (by rw [List.length_append]; omega) hlen hpass]
  rfl

/-- The first position that stops the loop, and the segments before and behind. -/
theorem parse_firstStop (hnul : nul ≠ separator) (hexists : ∃ p, StopsAt separator text p) :
    ∃ p rest, (∀ q, StopsAt separator text q → p ≤ q) ∧ StopsAt separator text p ∧
      text.drop p = separator :: rest ∧
      stringParseSeparatedArray separator (text ++ [nul]) text.length =
        .ok (segments separator (text.take p)) ∧
      segments separator text = segments separator (text.take p) ++ segments separator rest := by
  have hstop : StopsAt separator text (Nat.find hexists) := Nat.find_spec hexists
  have hparse := parse_of_stopsAt hnul hstop fun q hq => Nat.find_min hexists hq
  obtain ⟨hp, hc⟩ := List.getElem?_eq_some_iff.mp hstop.2.1
  have hrest := (List.drop_eq_getElem_cons hp).trans (by rw [hc])
  refine ⟨Nat.find hexists, _, fun q hq => Nat.find_min' hexists hq, hstop, hrest, hparse, ?_⟩
  rw [← segments_append_cons, ← hrest, List.take_append_drop]

/-- All segments are found exactly if behind a position that stops the loop there
are only separators, and the loop does stop in a text of four gibi and more. -/
theorem findsSegments_iff (text : Text) :
    FindsSegments text ↔
      (∀ p, StopsAt virtualReadersSeparator text p → ∀ c ∈ text.drop p, c = virtualReadersSeparator) ∧
        (2 ^ 32 ≤ text.length → ∃ p, StopsAt virtualReadersSeparator text p) := by
  have hnul : (0 : UInt8) ≠ virtualReadersSeparator := by decide
  by_cases hexists : ∃ p, StopsAt virtualReadersSeparator text p
  · obtain ⟨p, rest, hfirst, hstop, hrest, hparse, hsplit⟩ := parse_firstStop hnul hexists
    have hfound : FindsSegments text ↔ ∀ c ∈ text.drop p, c = virtualReadersSeparator := by
      rw [hrest, List.forall_mem_cons, and_iff_right rfl, ← segments_eq_nil_iff]
      constructor
      · intro h
        have hsame := Except.ok.inj (hparse.symm.trans h)
        rwa [hsplit, List.self_eq_append_right] at hsame
      · intro hnil
        rw [FindsSegments, hsplit, hnil, List.append_nil]
        exact hparse
    rw [hfound, and_iff_left fun _ => hexists]
    refine ⟨fun h q hq c hc => h c ?_, fun h => h p hstop⟩
    rw [← Nat.add_sub_cancel' (hfirst q hq), ← List.drop_drop] at hc
    exact List.mem_of_mem_drop hc
  · have hgo : ∀ p, ¬ StopsAt virtualReadersSeparator text p := not_exists.mp hexists
    rw [and_iff_right fun p hp => absurd hp (hgo p)]
    rcases Nat.lt_or_ge text.length (2 ^ 32) with hlen | hlen
    · exact iff_of_true (parse_of_not_stopsAt hnul hgo hlen) fun h => absurd h (by omega)
    · refine iff_of_false (fun h => ?_) fun h => hexists (h hlen)
      cases (parse_endless hgo hlen).symm.trans h

/-- There are no more items than segments. -/
theorem length_parse_le (hnul : nul ≠ separator)
    (h : stringParseSeparatedArray separator (text ++ [nul]) text.length = .ok items) :
    items.length ≤ (segments separator text).length := by
  by_cases hexists : ∃ p, StopsAt separator text p
  · obtain ⟨p, rest, -, -, -, hparse, hsplit⟩ := parse_firstStop hnul hexists
    cases h.symm.trans hparse
    rw [hsplit, List.length_append]
    exact Nat.le_add_right _ _
  · have hgo := not_exists.mp hexists
    rcases Nat.lt_or_ge text.length (2 ^ 32) with hlen | hlen
    · cases h.symm.trans (parse_of_not_stopsAt hnul hgo hlen)
      exact Nat.le_refl _
    · cases (parse_endless hgo hlen).symm.trans h

/-- No segment is longer than the text. -/
theorem length_segment_le {text segment : List χ} (h : segment ∈ segments separator text) :
    segment.length ≤ text.length := by
  by_cases hmem : separator ∈ text
  · obtain ⟨before, after, hsplit, hbefore⟩ := List.eq_append_cons_of_mem hmem
    have hlength : text.length = before.length + (after.length + 1) := by
      rw [hsplit, List.length_append, List.length_cons]
    rw [hsplit, segments_append_cons] at h
    rcases List.mem_append.mp h with h | h
    · rw [segments_item hbefore, pushItem] at h
      split_ifs at h
      · cases h
      · rw [List.mem_singleton.mp h]
        omega
    · have hle := length_segment_le h
      omega
  · rw [segments_item hmem, pushItem] at h
    split_ifs at h
    · cases h
    · rw [List.mem_singleton.mp h]
termination_by text.length
decreasing_by omega

/-- A text that is not too long is parsed. -/
theorem parse_ok (hnul : nul ≠ separator) (hlen : text.length < 2 ^ 32) :
    ∃ items, stringParseSeparatedArray separator (text ++ [nul]) text.length = .ok items ∧
      ∀ item ∈ items, item.length ≤ text.length := by
  by_cases hexists : ∃ p, StopsAt separator text p
  · obtain ⟨p, rest, -, -, -, hparse, -⟩ := parse_firstStop hnul hexists
    refine ⟨_, hparse, fun item hitem => Nat.le_trans (length_segment_le hitem) ?_⟩
    rw [List.length_take]
    exact Nat.min_le_right _ _
  · exact ⟨_, parse_of_not_stopsAt hnul (not_exists.mp hexists) hlen, fun item hitem =>
      length_segment_le hitem⟩

/-- The segments of joined words are the words that are not empty. -/
theorem segments_intercalate {words : List (List χ)} (hwords : ∀ word ∈ words, separator ∉ word) :
    segments separator (List.intercalate [separator] words) = words.filter fun word => word.length > 0 := by
  induction words with
  | nil => rfl
  | cons word words ih =>
    obtain ⟨hword, hrest⟩ := List.forall_mem_cons.mp hwords
    have hfirst : segments separator word = [word].filter fun word => word.length > 0 := by
      rw [segments_item hword, pushItem]
      cases word <;> rfl
    cases words with
    | nil => rw [List.intercalate_singleton, hfirst]
    | cons next words =>
      rw [List.intercalate_cons_cons, List.append_assoc, List.singleton_append, segments_append_cons,
        ih hrest, hfirst, ← List.filter_append, List.singleton_append]

/-- The second name is behind an empty one. -/
theorem not_findsSegments_empty : ¬ FindsSegments (ascii "A||B") := by
  rw [findsSegments_iff]
  intro h
  exact absurd (h.1 1 (by decide) 0x42 (by decide)) (by decide)

end ApduPlay.SeparatedNames
