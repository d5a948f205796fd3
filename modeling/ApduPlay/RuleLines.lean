import ApduPlay.RuleElements

/-!
# Lines of rules

Elements separated by commas, with or without a comma behind the last one, and
what the loader makes of such a line.
-/

namespace ApduPlay.RuleLines

open ApduRules TextNumbers TextSearch RuleFile RuleElements CheckedSteps

/-- Elements separated by commas. -/
def line : List Written → Bool → Text
  | [], _ => []
  | [w], comma => w.text ++ if comma then [44] else []
  | w :: ws, comma => w.text ++ 44 :: line ws comma

/-- The elements that end with a comma. -/
def processed (ws : List Written) (comma : Bool) : List Written := if comma then ws else ws.dropLast

/-- The direction of an element, if it is one. -/
def inputOf : Element → Option Bool
  | .direction input => some input
  | _ => none

/-- Number of a direction. -/
def directionNumber (input : Bool) : ℤ := if input then inputApdu else outputApdu

/-- The direction that a line sets, or the one set before. -/
def directionOf (default : ℤ) (ws : List Written) : ℤ :=
  match ws.findSome? fun w => inputOf w.element with
  | none => default
  | some input => directionNumber input

/-- The parts of these elements. -/
def joined (ws : List Written) : Text := ws.flatMap fun w => w.text ++ [44]

variable {ws : List Written} {w : Written} {c : UInt8}

/-- Not this character before an equals sign. -/
def NotBefore (c a b : UInt8) : Prop := ¬ (a = c ∧ b = 61)

instance (c : UInt8) : DecidableRel (NotBefore c) :=
  fun _ _ => inferInstanceAs (Decidable (¬ _))

theorem line_append (ws : List Written) (w : Written) (comma : Bool) :
    line (ws ++ [w]) comma = joined ws ++ (w.text ++ if comma then [44] else []) := by
  induction ws with
  | nil => rfl
  | cons v ws ih =>
    cases ws with
    | nil => simp [line, joined]
    | cons v' ws =>
      have hcons : line (v :: v' :: ws ++ [w]) comma = v.text ++ 44 :: line (v' :: ws ++ [w]) comma := rfl
      rw [hcons, ih]
      simp [joined]

/-- A line with a blank behind it: the parts that end with a comma, and a rest. -/
theorem line_blank (ws : List Written) (comma : Bool) :
    (∃ rest, line ws comma ++ [32] = joined (processed ws comma) ++ rest ∧ rest = [32] ∧
      processed ws comma = ws) ∨
    ∃ w, line ws comma ++ [32] = joined (processed ws comma) ++ (w.text ++ [32]) ∧
      ws = processed ws comma ++ [w] := by
  cases ws using List.reverseRecOn with
  | nil => exact Or.inl ⟨[32], by cases comma <;> rfl, rfl, by cases comma <;> rfl⟩
  | append_singleton ws w =>
    cases comma with
    | true => exact Or.inl ⟨[32], by simp [line_append, processed, joined], rfl, rfl⟩
    | false => exact Or.inr ⟨w, by simp [line_append, processed], by simp [processed]⟩

theorem chain_of_no_equals {t : Text} (h : (61 : UInt8) ∉ t) : t.IsChain (NotBefore c) := by
  induction t with
  | nil => exact List.isChain_nil
  | cons a t ih =>
    refine List.isChain_cons.mpr ⟨fun y hy heq => ?_, ih fun ht => h (List.mem_cons_of_mem a ht)⟩
    exact h (List.mem_cons_of_mem a (heq.2 ▸ List.mem_of_mem_head? hy))

/-- An equals sign behind a name that does not end with the character. -/
theorem chain_name_value {name value : Text} (hname : (61 : UInt8) ∉ name) (hvalue : (61 : UInt8) ∉ value)
    (hc : c ≠ 61) (hlast : c ∉ name.getLast?) : (name ++ 61 :: value).IsChain (NotBefore c) := by
  refine List.isChain_append.mpr ⟨chain_of_no_equals hname, List.isChain_cons.mpr
    ⟨fun y _ heq => hc heq.1.symm, chain_of_no_equals hvalue⟩, fun x hx y _ heq => ?_⟩
  exact hlast (heq.1 ▸ hx)

theorem getLast_upper {name keyword : Text} (h : name.map toUpper = keyword) {c : UInt8}
    (hc : toUpper c ∉ keyword.getLast?) : c ∉ name.getLast? := by
  intro hmem
  apply hc
  rw [← h, List.getLast?_map]
  exact Option.mem_map_of_mem toUpper hmem

theorem hexPair_no_equals {pair : Text} {b : UInt8} (h : HexPair pair b) {x : UInt8}
    (hx : digitValue 16 x = none) : x ∉ pair := by
  obtain ⟨high, low, m, n, rfl, hhigh, hlow, -⟩ := h
  intro hmem
  simp only [List.mem_cons, List.not_mem_nil, or_false] at hmem
  rcases hmem with rfl | rfl
  · rw [hx] at hhigh
    cases hhigh
  · rw [hx] at hlow
    cases hlow

/-- No element contains a comma. -/
theorem comma_not_mem (w : Written) : (44 : UInt8) ∉ w.text := by
  obtain ⟨element, text, spells⟩ := w
  cases spells with
  | direction input => cases input <;> decide
  | @header field value name pair hname hpair =>
    have hkeyword : toUpper 44 ∉ field.keyword.1 := by cases field <;> decide
    simp only [List.mem_append, List.mem_cons, not_or]
    exact ⟨not_mem_of_upper hname hkeyword, by decide, hexPair_no_equals hpair (by decide)⟩
  | @data offset bytes name text hname htext =>
    simp only [List.mem_append, List.mem_cons, not_or]
    refine ⟨⟨not_mem_of_upper hname (by decide), fun hmem => ?_⟩, by decide,
      htext.not_mem (by decide) (by decide)⟩
    exact absurd (mem_decimal hmem).1 (by decide)

/-- Before the equals sign of an element stands neither t nor, except for the
direction, n. -/
theorem chain_text (w : Written) (hc : c = 116 ∨ c = 110 ∧ inputOf w.element = none) :
    w.text.IsChain (NotBefore c) := by
  have hne : c ≠ 61 := by
    rcases hc with rfl | ⟨rfl, -⟩ <;> decide
  obtain ⟨element, text, spells⟩ := w
  cases spells with
  | direction input =>
    obtain rfl | ⟨-, hnone⟩ := hc
    · have hvalue : (61 : UInt8) ∉ [if input then (49 : UInt8) else 48] := by cases input <;> decide
      have hname : (61 : UInt8) ∉ ascii "in" := by decide
      exact chain_name_value hname hvalue hne (by decide)
    · cases hnone
  | @header field value name pair hname hpair =>
    have hlast : toUpper c ∉ field.keyword.1.getLast? := by
      rcases hc with rfl | ⟨rfl, -⟩ <;> cases field <;> decide
    exact chain_name_value (not_mem_of_upper hname (keyword_no_equals field))
      (hexPair_no_equals hpair (by decide)) hne (getLast_upper hname hlast)
  | @data offset bytes name text hname htext =>
    refine chain_name_value ?_ (htext.not_mem (by decide) (by decide)) hne ?_
    · intro hmem
      rcases List.mem_append.mp hmem with hmem | hmem
      · exact not_mem_of_upper hname (by decide) hmem
      · exact absurd (mem_decimal hmem).2 (by decide)
    · intro hmem
      have hnil : decimal offset ≠ [] := by simp [decimal]
      rw [List.getLast?_append_of_ne_nil _ hnil] at hmem
      have hdigit := (mem_decimal (List.mem_of_mem_getLast? hmem)).2
      rcases hc with rfl | ⟨rfl, -⟩ <;> exact absurd hdigit (by decide)

/-- The same for elements with commas, and what follows them. -/
theorem chain_joined (hws : ∀ w ∈ ws, c = 116 ∨ c = 110 ∧ inputOf w.element = none) (hc : c ≠ 44)
    {rest : Text} (hrest : rest.IsChain (NotBefore c)) : (joined ws ++ rest).IsChain (NotBefore c) := by
  induction ws with
  | nil => exact hrest
  | cons w ws ih =>
    obtain ⟨hw, hws'⟩ := List.forall_mem_cons.mp hws
    have hsplit : joined (w :: ws) ++ rest = w.text ++ 44 :: (joined ws ++ rest) := by simp [joined]
    rw [hsplit]
    refine List.isChain_append.mpr ⟨chain_text w hw, List.isChain_cons.mpr
      ⟨fun y _ heq => hc heq.1.symm, ih hws'⟩, fun x _ y hy heq => ?_⟩
    rw [List.head?_cons, Option.mem_some_iff] at hy
    rw [← hy] at heq
    exact absurd heq.2 (by decide)

/-- There is no history element. -/
theorem readHistory_line (r : ApduSingleRule) (ws : List Written) (comma : Bool) :
    readHistory r (line ws comma ++ [32]) = (r, line ws comma ++ [32]) := by
  have hchain : (line ws comma ++ [32]).IsChain (NotBefore 116) := by
    obtain ⟨rest, hline, rfl, -⟩ | ⟨w, hline, -⟩ := line_blank ws comma
    · rw [hline]
      exact chain_joined (fun w _ => Or.inl rfl) (by decide) (List.isChain_singleton 32)
    · rw [hline]
      refine chain_joined (fun w _ => Or.inl rfl) (by decide) (List.isChain_append.mpr
        ⟨chain_text w (Or.inl rfl), List.isChain_singleton 32, fun x _ y hy heq => ?_⟩)
      rw [List.head?_cons, Option.mem_some_iff] at hy
      rw [← hy] at heq
      exact absurd heq.2 (by decide)
  have hfind : find (ascii "t=") (line ws comma ++ [32]) = none :=
    find_eq_none hchain (by decide)
  rw [readHistory, hfind]

/-- The first direction element is found. -/
theorem readDirection_at (r : ApduSingleRule) {before : Text} (after : Text) (input : Bool)
    (hbefore : (before ++ [105, 110]).IsChain (NotBefore 110))
    (hafter : ∀ c ∈ after.head?, digitValue 10 c = none) :
    readDirection r (before ++ (ascii "in=" ++ (if input then 49 else 48) :: after)) =
      ({ r with apduDirection := directionNumber input },
        eraseElement (before ++ (ascii "in=" ++ (if input then 49 else 48) :: after)) before.length) := by
  have hfind : find (ascii "in=") (before ++ (ascii "in=" ++ (if input then 49 else 48) :: after)) =
      some before.length :=
    find_append (q := [105, 110]) (e := 61) hbefore (by decide) ((if input then 49 else 48) :: after)
  have hdrop : (before ++ (ascii "in=" ++ (if input then 49 else 48) :: after)).drop (before.length + 3) =
      decimal (if input then 1 else 0) ++ after := by
    rw [List.drop_append, List.drop_of_length_le (Nat.le_add_right _ _), Nat.add_sub_cancel_left]
    cases input <;> rfl
  rw [readDirection, hfind]
  dsimp only
  rw [hdrop, strtol_decimal _ hafter]
  cases input <;> rfl

/-- An element is erased together with its comma. -/
theorem eraseElement_comma (before after : Text) {element : Text} (helement : (44 : UInt8) ∉ element) :
    eraseElement (before ++ (element ++ 44 :: after)) before.length = before ++ after := by
  have hfind : find [44] ((before ++ (element ++ 44 :: after)).drop before.length) = some element.length := by
    rw [List.drop_left, find_singleton helement]
  simp only [eraseElement, hfind, List.take_left]
  rw [List.drop_append, List.drop_of_length_le (Nat.le_add_right _ _), Nat.add_sub_cancel_left]
  simp [List.drop_append]

/-- Without a comma nothing else is lost, however the count wraps around. -/
theorem eraseElement_end (before : Text) {element : Text} (helement : (44 : UInt8) ∉ element) :
    ∃ rest, eraseElement (before ++ element) before.length = before ++ rest ∧ (44 : UInt8) ∉ rest := by
  have hfind : find [44] ((before ++ element).drop before.length) = none := by
    rw [List.drop_left, find_singleton_eq_none helement]
  refine ⟨element.drop ((2 ^ 64 - before.length) % 2 ^ 64), ?_, fun hmem =>
    helement (List.mem_of_mem_drop hmem)⟩
  simp only [eraseElement, hfind, List.take_left]
  rw [List.drop_append, List.drop_of_length_le (Nat.le_add_right _ _), Nat.add_sub_cancel_left,
    List.nil_append]

/-- A list of elements with its first direction, if there is one. -/
theorem split_direction (ws : List Written) :
    (∀ w ∈ ws, inputOf w.element = none) ∨ ∃ before w input after, ws = before ++ w :: after ∧
      (∀ v ∈ before, inputOf v.element = none) ∧ inputOf w.element = some input := by
  induction ws with
  | nil => exact Or.inl (List.forall_mem_nil _)
  | cons w ws ih =>
    cases hw : inputOf w.element with
    | some input => exact Or.inr ⟨[], w, input, ws, rfl, List.forall_mem_nil _, hw⟩
    | none =>
      rcases ih with hnone | ⟨before, v, input, after, rfl, hbefore, hv⟩
      · exact Or.inl (List.forall_mem_cons.mpr ⟨hw, hnone⟩)
      · exact Or.inr ⟨w :: before, v, input, after, rfl, List.forall_mem_cons.mpr ⟨hw, hbefore⟩, hv⟩

theorem text_of_direction {input : Bool} (h : inputOf w.element = some input) :
    w.element = .direction input ∧ w.text = ascii "in=" ++ [if input then 49 else 48] := by
  obtain ⟨element, text, spells⟩ := w
  cases spells with
  | direction input' =>
    cases h
    exact ⟨rfl, rfl⟩
  | header hname hpair => cases h
  | data hname htext => cases h

theorem directionOf_none {default : ℤ} (h : ∀ w ∈ ws, inputOf w.element = none) :
    directionOf default ws = default := by
  have hnone : (ws.findSome? fun w => inputOf w.element) = none := List.findSome?_eq_none_iff.mpr h
  rw [directionOf, hnone]

theorem directionOf_append {default : ℤ} {before after : List Written} {input : Bool}
    (hbefore : ∀ w ∈ before, inputOf w.element = none) (hw : inputOf w.element = some input) :
    directionOf default (before ++ w :: after) = directionNumber input := by
  have hnone : (before.findSome? fun w => inputOf w.element) = none := List.findSome?_eq_none_iff.mpr hbefore
  rw [directionOf, List.findSome?_append, hnone, List.findSome?_cons, hw]
  rfl

/-- An element that sets no direction. -/
def setsNone (w : Written) : Bool := (inputOf w.element).isNone

theorem chain_direction {before : List Written} (hbefore : ∀ w ∈ before, inputOf w.element = none) :
    (joined before ++ [105, 110]).IsChain (NotBefore 110) :=
  chain_joined (fun w hw => Or.inr ⟨rfl, hbefore w hw⟩) (by decide) (by decide)

theorem comma_not_mem_blank (w : Written) : (44 : UInt8) ∉ w.text ++ [32] := by
  simp only [List.mem_append, not_or]
  exact ⟨comma_not_mem w, by decide⟩

/-- Behind the elements with commas there is no comma. -/
theorem line_rest (ws : List Written) (comma : Bool) :
    ∃ rest more, line ws comma ++ [32] = joined (processed ws comma) ++ rest ∧ (44 : UInt8) ∉ rest ∧
      ws = processed ws comma ++ more := by
  rcases line_blank ws comma with ⟨rest, hline, rfl, hall⟩ | ⟨w, hline, hws⟩
  · exact ⟨[32], [], hline, by decide, by rw [List.append_nil, hall]⟩
  · exact ⟨w.text ++ [32], [w], hline, comma_not_mem_blank w, hws⟩

/-- A line without a direction element says nothing about the direction. -/
theorem find_direction_none (hnone : ∀ w ∈ ws, inputOf w.element = none) (comma : Bool) :
    find (ascii "in=") (line ws comma ++ [32]) = none := by
  rcases line_blank ws comma with ⟨rest, hline, rfl, hall⟩ | ⟨w, hline, hws⟩
  · rw [hline, hall]
    exact find_eq_none (chain_joined (fun v hv => Or.inr ⟨rfl, hnone v hv⟩) (by decide)
      (List.isChain_singleton 32)) (by decide)
  · have hw : inputOf w.element = none := hnone w (by rw [hws]; simp)
    have hprocessed : ∀ v ∈ processed ws comma, inputOf v.element = none :=
      fun v hv => hnone v (by rw [hws]; exact List.mem_append_left _ hv)
    have hchain : (w.text ++ [32]).IsChain (NotBefore 110) := by
      refine List.isChain_append.mpr
        ⟨chain_text w (Or.inr ⟨rfl, hw⟩), List.isChain_singleton 32, fun x _ y hy heq => ?_⟩
      rw [List.head?_cons, Option.mem_some_iff] at hy
      rw [← hy] at heq
      exact absurd heq.2 (by decide)
    rw [hline]
    exact find_eq_none (chain_joined (fun v hv => Or.inr ⟨rfl, hprocessed v hv⟩) (by decide) hchain)
      (by decide)

/-- A direction element at the end of the line, without a comma. -/
theorem readDirection_last (r : ApduSingleRule) {ws : List Written} {comma : Bool} {w : Written}
    {input : Bool} (hnone : ∀ v ∈ processed ws comma, inputOf v.element = none)
    (hw : inputOf w.element = some input)
    (hline : line ws comma ++ [32] = joined (processed ws comma) ++ (w.text ++ [32]))
    (hws : ws = processed ws comma ++ [w]) :
    ∃ rest, readDirection r (line ws comma ++ [32]) =
        ({ r with apduDirection := directionOf r.apduDirection ws }, joined (processed ws comma) ++ rest) ∧
      (44 : UInt8) ∉ rest := by
  obtain ⟨-, htext⟩ := text_of_direction hw
  have hblank : ∀ c ∈ ([32] : Text).head?, digitValue 10 c = none := by
    intro c hc
    cases hc
    decide
  have hat := readDirection_at r [32] input (chain_direction hnone) hblank
  have htail : w.text ++ [32] = ascii "in=" ++ (if input then 49 else 48) :: [32] := by
    rw [htext, List.append_assoc]
    rfl
  have hcomma : (44 : UInt8) ∉ ascii "in=" ++ (if input then 49 else 48) :: [32] := by
    cases input <;> decide
  obtain ⟨rest, herase, hrest⟩ := eraseElement_end (joined (processed ws comma)) hcomma
  have hdirection : directionOf r.apduDirection ws = directionNumber input := by
    rw [hws]
    exact directionOf_append hnone hw
  refine ⟨rest, ?_, hrest⟩
  rw [hline, htail, hat, herase, hdirection]

/-- The first direction element of the line has a comma and is erased. -/
theorem readDirection_comma (r : ApduSingleRule) {ws before after : List Written} {comma : Bool} {v : Written}
    {input : Bool} (hsplit : processed ws comma = before ++ v :: after)
    (hbefore : ∀ w ∈ before, inputOf w.element = none) (hv : inputOf v.element = some input) :
    ∃ rest, readDirection r (line ws comma ++ [32]) =
        ({ r with apduDirection := directionOf r.apduDirection ws }, joined (before ++ after) ++ rest) ∧
      (44 : UInt8) ∉ rest := by
  obtain ⟨-, htext⟩ := text_of_direction hv
  obtain ⟨rest, more, hline, hrest, hws⟩ := line_rest ws comma
  have hjoined : joined (processed ws comma) ++ rest =
      joined before ++ (ascii "in=" ++ (if input then 49 else 48) :: 44 :: (joined after ++ rest)) := by
    rw [hsplit]
    simp [joined, htext]
  have hat := readDirection_at r (44 :: (joined after ++ rest)) input (chain_direction hbefore)
    (by intro c hc; cases hc; decide)
  have herase : eraseElement (joined before ++
      (ascii "in=" ++ (if input then 49 else 48) :: 44 :: (joined after ++ rest))) (joined before).length =
        joined before ++ (joined after ++ rest) := by
    have helement : (44 : UInt8) ∉ ascii "in=" ++ [if input then 49 else 48] := by
      cases input <;> decide
    have hcut := eraseElement_comma (joined before) (joined after ++ rest) helement
    rw [List.append_assoc] at hcut
    exact hcut
  have hdirection : directionOf r.apduDirection ws = directionNumber input := by
    rw [hws, hsplit, List.append_assoc]
    exact directionOf_append hbefore hv
  refine ⟨rest, ?_, hrest⟩
  rw [hline, hjoined, hat, herase, hdirection]
  simp [joined]

/-- Without a direction element the line stays as it is. -/
theorem readDirection_none (r : ApduSingleRule) {ws : List Written}
    (hnone : ∀ w ∈ ws, inputOf w.element = none) (comma : Bool) :
    ∃ rest, readDirection r (line ws comma ++ [32]) =
        ({ r with apduDirection := directionOf r.apduDirection ws }, joined (processed ws comma) ++ rest) ∧
      (44 : UInt8) ∉ rest := by
  obtain ⟨rest, -, hline, hrest, -⟩ := line_rest ws comma
  refine ⟨rest, ?_, hrest⟩
  rw [readDirection, find_direction_none hnone comma, hline, directionOf_none hnone]

/-- The direction is read wherever it stands, and its element is taken out. -/
theorem readDirection_line (r : ApduSingleRule) (ws : List Written) (comma : Bool) :
    ∃ kept rest, readDirection r (line ws comma ++ [32]) =
        ({ r with apduDirection := directionOf r.apduDirection ws }, joined kept ++ rest) ∧
      (44 : UInt8) ∉ rest ∧ kept.filter setsNone = (processed ws comma).filter setsNone := by
  rcases split_direction (processed ws comma) with hnone | ⟨before, v, input, after, hsplit, hbefore, hv⟩
  · refine ⟨processed ws comma, ?_⟩
    rcases line_blank ws comma with ⟨-, -, -, hall⟩ | ⟨w, hline, hws⟩
    · obtain ⟨rest, hread, hrest⟩ := readDirection_none r (hall ▸ hnone) comma
      exact ⟨rest, hread, hrest, rfl⟩
    · cases hw : inputOf w.element with
      | some input =>
        obtain ⟨rest, hread, hrest⟩ := readDirection_last r hnone hw hline hws
        exact ⟨rest, hread, hrest, rfl⟩
      | none =>
        have hall : ∀ u ∈ ws, inputOf u.element = none := by
          rw [hws]
          simpa using fun u hu => hu.elim (hnone u) fun heq => heq ▸ hw
        obtain ⟨rest, hread, hrest⟩ := readDirection_none r hall comma
        exact ⟨rest, hread, hrest, rfl⟩
  · -- the erased element is the first direction, which the filter drops anyway
    obtain ⟨rest, hread, hrest⟩ := readDirection_comma r hsplit hbefore hv
    refine ⟨before ++ after, rest, hread, hrest, ?_⟩
    rw [hsplit, List.filter_append, List.filter_append, List.filter_cons_of_neg]
    simp [setsNone, hv]

variable {keywords : List (Text × ℤ)} {offsetOf : Text → Except Fault ℤ} {read : ℕ → Except Fault ℤ}
  {st : Loading} {comma : Bool}

/-- The elementary rules of some elements. -/
def rulesOf (f : Element → List ApduSingleRule) (ws : List Written) : List ApduSingleRule :=
  ws.flatMap fun w => f w.element

/-- Directions make no elementary rules. -/
theorem rulesOf_filter {f : Element → List ApduSingleRule} (hf : ∀ input, f (.direction input) = [])
    (ws : List Written) : rulesOf f (ws.filter setsNone) = rulesOf f ws := by
  induction ws with
  | nil => rfl
  | cons w ws ih =>
    cases hw : inputOf w.element with
    | none =>
      rw [List.filter_cons_of_pos (by simp [setsNone, hw]), rulesOf, List.flatMap_cons, ← rulesOf, ih]
      rfl
    | some input =>
      rw [List.filter_cons_of_neg (by simp [setsNone, hw]), ih, rulesOf, rulesOf, List.flatMap_cons,
        (text_of_direction hw).1, hf]
      rfl

/-- The loader gets past every direction. -/
theorem loads_filter : (∀ w ∈ ws.filter setsNone, Loads read w.element) ↔ ∀ w ∈ ws, Loads read w.element := by
  refine ⟨fun h w hw => ?_, fun h w hw => h w (List.mem_of_mem_filter hw)⟩
  cases hdir : inputOf w.element with
  | none => exact h w (List.mem_filter.mpr ⟨hw, by simp [setsNone, hdir]⟩)
  | some input =>
    rw [(text_of_direction hdir).1]
    trivial

/-- What the loader makes of a line: the elementary rules of the elements that
end with a comma, or a fault if it does not get past one of them. -/
structure LineOutcome (keywords : List (Text × ℤ)) (read : ℕ → Except Fault ℤ) (r : ApduSingleRule)
    (rules : List ApduSingleRule) (ws : List Written) (comma : Bool) (result : Except Fault Loading) :
    Prop where
  /-- The loader gets past all elements. -/
  ok : (∀ w ∈ processed ws comma, Loads read w.element) → ∃ r', result = .ok (r', rules ++
    rulesOf (loaded keywords read r.history (directionOf r.apduDirection ws)) (processed ws comma)) ∧
      r'.history = r.history ∧ r'.apduDirection = directionOf r.apduDirection ws
  /-- It does not. -/
  fail : ¬ (∀ w ∈ processed ws comma, Loads read w.element) → ∃ e, result = .error e

/-- The parts of a line are loaded one after the other. -/
theorem lineOutcome_loadParts (hkeywords : IsKeywords keywords) (hread : ReadsOffsets offsetOf read)
    (hints : ReadsInts read) (r : ApduSingleRule) (rules : List ApduSingleRule) (ws : List Written)
    (comma : Bool) :
    LineOutcome keywords read r rules ws comma
      (loadParts keywords offsetOf ((readDirection r (line ws comma ++ [32])).1, rules)
        (readDirection r (line ws comma ++ [32])).2) := by
  obtain ⟨kept, rest, hdirection, hrest, hkept⟩ := readDirection_line r ws comma
  have hparts : parts 44 (joined kept ++ rest) = kept.map fun w => w.text ++ [44] := by
    have htexts : ∀ t ∈ kept.map (·.text), (44 : UInt8) ∉ t := by simpa using fun w _ => comma_not_mem w
    have hcut := parts_flatMap htexts hrest
    simpa [joined, List.flatMap_map, List.map_map, Function.comp_def] using hcut
  have hchecked := checked_loadPart hkeywords hread
  have hloads : (∀ w ∈ kept, Loads read w.element) ↔ ∀ w ∈ processed ws comma, Loads read w.element := by
    rw [← loads_filter, hkept, loads_filter]
  rw [hdirection]
  simp only [loadParts, hparts, List.foldlM_map]
  refine ⟨fun h => ?_, fun h => hchecked.loop.fail _ kept trivial fun hk => h (hloads.mp hk)⟩
  obtain ⟨r', hfold, hhistory, hdir⟩ := foldl_next keywords hints (kept.map (·.element))
    ({ r with apduDirection := directionOf r.apduDirection ws }, rules)
  rw [List.foldl_map] at hfold
  refine ⟨r', (hchecked.loop.ok _ kept trivial (hloads.mpr h)).trans ?_, hhistory, hdir⟩
  have hsame (f : Element → List ApduSingleRule) (hf : ∀ input, f (.direction input) = []) :
      rulesOf f kept = rulesOf f (processed ws comma) := by
    rw [← rulesOf_filter hf kept, hkept, rulesOf_filter hf]
  rw [hfold, List.flatMap_map]
  exact congrArg (fun rs => Except.ok (r', rules ++ rs)) (hsame _ fun _ => rfl)

end ApduPlay.RuleLines
