import ApduPlay.Basic
import ApduPlay.Library.Buffer

/-!
# Lists of strings in one array

Reader names travel as arrays in which every name is followed by a separator.
The same code exists for narrow and for wide characters.
-/

namespace ApduPlay.SeparatedArray

/-- One character type of the array functions. -/
structure CharWidth (χ : Type) where
  /-- The zero character. -/
  nul : χ
  /-- Conversion from a `char` of a stored name. -/
  widen : UInt8 → χ
  /-- The bytes of a character in memory. -/
  bytes : χ → List UInt8

/-- `char` -/
def narrow : CharWidth UInt8 := ⟨0, id, fun c => [c]⟩

/-- `WCHAR`; a `char` is signed and keeps its sign. -/
def wide : CharWidth UInt16 :=
  ⟨0, fun b => if b < 0x80 then b.toUInt16 else 0xFF00 + b.toUInt16,
    fun c => [c.toUInt8, (c >>> 8).toUInt8]⟩

variable {χ : Type} (w : CharWidth χ) (separator : χ)

/-- Compute required length: item + separator, empty items left out. -/
def requiredLength (values : List Text) : ℕ :=
  (values.map fun v => if v.length > 0 then v.length + 1 else 0).sum

/-- The characters written for a list. -/
def serialized (values : List Text) : List χ :=
  values.flatMap fun v => if v.length > 0 then v.map w.widen ++ [separator] else []

/-- `String_SerializeAsSeparatedArray` without a buffer. -/
def serializedSize (values : List Text) : ℕ := requiredLength values

/-- `String_SerializeAsSeparatedArray` into a buffer from a position on:
status, array size and buffer afterwards. -/
def stringSerializeAsSeparatedArray (values : List Text) (buf : List χ) (pos arraySize : ℕ) :
    Except Fault (Status × ℕ × List χ) :=
  if arraySize ≤ requiredLength values then do
    let buf ← Buffer.write .outOfBounds buf pos (serialized w separator values)
    return (statOk, (serialized w separator values).length, buf)
  else return (statNotEnoughtMemory, arraySize, buf)

variable [DecidableEq χ]

/-- An item is stored when it is not empty. -/
def pushItem (items : List (List χ)) (item : List χ) : List (List χ) :=
  if item.isEmpty then items else items ++ [item]

/-- The loop of `String_ParseSeparatedArray`, with its `DWORD` position. There is
no result if the steps do not suffice. -/
def parseSteps (array : List χ) (arraySize : ℕ) :
    ℕ → UInt32 → List χ → List (List χ) → Option (Except Fault (List (List χ)))
  | 0, _, _, _ => none
  | steps + 1, pos, itemName, items =>
    match array[pos.toNat]? with
    | none => some (.error .outOfBounds)
    | some c =>
      if c ≠ separator then
        if pos.toNat ≤ arraySize - 1 then
          parseSteps array arraySize steps (pos + 1) (itemName ++ [c]) items
        else some (.ok (pushItem items itemName))
      else
        match array[(pos + 1).toNat]? with
        | none => some (.error .outOfBounds)
        | some d =>
          if d ≠ separator ∧ pos.toNat ≤ arraySize - 1 then
            parseSteps array arraySize steps (pos + 1) [] (pushItem items itemName)
          else some (.ok (pushItem items itemName))

/-- `String_ParseSeparatedArray`. A loop that has passed all positions never ends. -/
def stringParseSeparatedArray (array : List χ) (arraySize : ℕ) : Except Fault (List (List χ)) :=
  if arraySize > 0 then (parseSteps separator array arraySize (2 ^ 32) 0 [] []).getD (.error .endlessLoop)
  else .ok []

/-- What the loop does to the characters from a position on if no position wraps
around. -/
def parseFrom (arraySize : ℕ) : List χ → ℕ → List χ → List (List χ) → Except Fault (List (List χ))
  | [], _, _, _ => .error .outOfBounds
  | c :: rest, pos, item, items =>
    if c ≠ separator then
      if pos ≤ arraySize - 1 then parseFrom arraySize rest (pos + 1) (item ++ [c]) items
      else .ok (pushItem items item)
    else
      match rest.head? with
      | none => .error .outOfBounds
      | some d =>
        if d ≠ separator ∧ pos ≤ arraySize - 1 then
          parseFrom arraySize rest (pos + 1) [] (pushItem items item)
        else .ok (pushItem items item)

/-- An item that is not empty needs its separator. -/
theorem requiredLength_cons (value : Text) (values : List Text) :
    requiredLength (value :: values) =
      (if value.length > 0 then value.length + 1 else 0) + requiredLength values := by
  rw [requiredLength, List.map_cons, List.sum_cons, requiredLength]

omit [DecidableEq χ] in
/-- An item that is not empty is written with its separator. -/
theorem serialized_cons (value : Text) (values : List Text) :
    serialized w separator (value :: values) =
      (if value.length > 0 then value.map w.widen ++ [separator] else []) ++
        serialized w separator values := by
  rw [serialized, List.flatMap_cons, serialized]

theorem requiredLength_replicate {length : ℕ} (h : 0 < length) (b : UInt8) :
    requiredLength [List.replicate length b] = length + 1 := by
  simp [requiredLength, h]

omit [DecidableEq χ] in
theorem length_serialized (values : List Text) :
    (serialized w separator values).length = requiredLength values := by
  induction values with
  | nil => rfl
  | cons v values ih =>
    rw [serialized_cons, requiredLength_cons, List.length_append, ih]
    split_ifs <;> simp

omit [DecidableEq χ] in
/-- Serializing leaves the empty items out. -/
theorem serialized_eq (values : List Text) :
    serialized w separator values =
      ((values.filter fun v => v.length > 0).map fun v => v.map w.widen).flatMap fun name =>
        name ++ [separator] := by
  induction values with
  | nil => rfl
  | cons v values ih =>
    rw [serialized_cons, ih]
    by_cases hv : v.length > 0
    · rw [if_pos hv, List.filter_cons_of_pos (by simpa using hv), List.map_cons, List.flatMap_cons]
    · rw [if_neg hv, List.filter_cons_of_neg (by simpa using hv), List.nil_append]

omit [DecidableEq χ] in
/-- With the reported size the list is written. -/
theorem stringSerializeAsSeparatedArray_ok {values : List Text} {buf : List χ} {pos : ℕ}
    (h : pos + requiredLength values ≤ buf.length) :
    stringSerializeAsSeparatedArray w separator values buf pos (serializedSize values) =
      .ok (statOk, requiredLength values, Buffer.overwrite buf pos (serialized w separator values)) := by
  have hlen := length_serialized w separator values
  rw [stringSerializeAsSeparatedArray, serializedSize, if_pos (Nat.le_refl _)]
  refine (Fault.bind_ok (Buffer.write_ok (by rw [hlen]; exact h))).trans ?_
  rw [hlen]
  rfl

omit [DecidableEq χ] in
/-- A buffer that ends before the list faults. -/
theorem stringSerializeAsSeparatedArray_error {values : List Text} {buf : List χ} {pos : ℕ}
    (h : buf.length < pos + requiredLength values) :
    stringSerializeAsSeparatedArray w separator values buf pos (serializedSize values) =
      .error .outOfBounds := by
  rw [stringSerializeAsSeparatedArray, serializedSize, if_pos (Nat.le_refl _)]
  exact Fault.bind_error (Buffer.write_error (by rw [length_serialized]; exact h))

variable {separator} {array pre rest item : List χ} {items : List (List χ)} {arraySize : ℕ}

/-- As long as its position does not wrap around, the loop does what it does to
the characters from there on. -/
theorem parseSteps_of_parseFrom (hlen : array.length ≤ 2 ^ 32) (hsplit : array = pre ++ rest)
    {result : List (List χ)} (h : parseFrom separator arraySize rest pre.length item items = .ok result)
    {steps : ℕ} (hsteps : rest.length ≤ steps) :
    parseSteps separator array arraySize steps (UInt32.ofNat pre.length) item items = some (.ok result) := by
  induction rest generalizing pre item items steps with
  | nil => cases h
  | cons c rest ih =>
    obtain ⟨steps, rfl⟩ : ∃ n, steps = n + 1 := Nat.exists_eq_succ_of_ne_zero (by rintro rfl; cases hsteps)
    have hsteps : rest.length ≤ steps := Nat.le_of_succ_le_succ hsteps
    have hlength : array.length = pre.length + (rest.length + 1) := by
      rw [hsplit, List.length_append, List.length_cons]
    have hpos : (UInt32.ofNat pre.length).toNat = pre.length :=
      UInt32.toNat_ofNat_of_lt' (show pre.length < 2 ^ 32 by omega)
    have hread : array[(UInt32.ofNat pre.length).toNat]? = some c := by
      rw [hpos, hsplit, List.getElem?_append_right (Nat.le_refl _), Nat.sub_self]
      rfl
    have hnext : UInt32.ofNat pre.length + 1 = UInt32.ofNat (pre ++ [c]).length := by
      rw [List.length_append, List.length_singleton, UInt32.ofNat_add]
      rfl
    have hsplit' : array = (pre ++ [c]) ++ rest := by
      rw [hsplit, List.append_assoc, List.singleton_append]
    have hpre : (pre ++ [c]).length = pre.length + 1 := by
      rw [List.length_append, List.length_singleton]
    rw [parseFrom] at h
    rw [parseSteps, hread]
    dsimp only
    split_ifs at h with hc hgo
    · rw [if_pos hc, if_pos (by rw [hpos]; exact hgo), hnext, ih hsplit' (by rw [hpre]; exact h) hsteps]
    · rw [if_pos hc, if_neg (by rw [hpos]; exact hgo), ← h]
    · cases rest with
      | nil => cases h
      | cons d rest =>
        have hpos' : (UInt32.ofNat pre.length + 1).toNat = pre.length + 1 := by
          rw [List.length_cons] at hlength
          rw [hnext, hpre]
          exact UInt32.toNat_ofNat_of_lt' (show pre.length + 1 < 2 ^ 32 by omega)
        have hread' : array[(UInt32.ofNat pre.length + 1).toNat]? = some d := by
          rw [hpos', hsplit', ← hpre, List.getElem?_append_right (Nat.le_refl _), Nat.sub_self]
          rfl
        dsimp only [List.head?_cons] at h
        rw [if_neg hc, hread']
        dsimp only
        rw [hpos]
        split_ifs at h with hgo
        · rw [if_pos hgo, hnext, ih hsplit' (by rw [hpre]; exact h) hsteps]
        · rw [if_neg hgo, ← h]

/-- An array that fits is parsed so. -/
theorem stringParseSeparatedArray_of_parseFrom (hlen : array.length ≤ 2 ^ 32) (hsize : 0 < arraySize)
    {result : List (List χ)} (h : parseFrom separator arraySize array 0 [] [] = .ok result) :
    stringParseSeparatedArray separator array arraySize = .ok result := by
  have hsteps := parseSteps_of_parseFrom hlen (List.nil_append array).symm h hlen
  rw [stringParseSeparatedArray, if_pos hsize]
  exact congrArg (Option.getD · _) hsteps

/-- The loop does not go beyond two separators in a row. The induction is on the
positions up to the size. -/
theorem parseSteps_ok_of_double (hpos : 0 < arraySize) (hsize : arraySize < 2 ^ 32)
    (before after : List χ) {steps p : ℕ}
    (hp : p ≤ before.length) (hbelow : p ≤ arraySize) (hsteps : arraySize < p + steps) (item : List χ)
    (items : List (List χ)) :
    ∃ items', parseSteps separator (before ++ separator :: separator :: after) arraySize steps
      (UInt32.ofNat p) item items = some (.ok items') := by
  induction steps generalizing p item items with
  | zero => omega
  | succ steps ih =>
    have hindex : (UInt32.ofNat p).toNat = p := UInt32.toNat_ofNat_of_lt' (show p < 2 ^ 32 by omega)
    have hnext : UInt32.ofNat p + 1 = UInt32.ofNat (p + 1) := (UInt32.ofNat_add p 1).symm
    obtain ⟨c, hc⟩ : ∃ c, (before ++ separator :: separator :: after)[p]? = some c := by
      refine ⟨_, List.getElem?_eq_getElem ?_⟩
      rw [List.length_append, List.length_cons]
      omega
    obtain ⟨d, hd⟩ : ∃ d, (before ++ separator :: separator :: after)[(UInt32.ofNat p + 1).toNat]? =
        some d := by
      refine ⟨_, List.getElem?_eq_getElem ?_⟩
      have hwrap : (UInt32.ofNat p + 1).toNat ≤ p + 1 := by
        rw [hnext, UInt32.toNat_ofNat']
        exact Nat.mod_le _ _
      rw [List.length_append, List.length_cons, List.length_cons]
      omega
    rw [parseSteps, hindex, hc]
    dsimp only
    have hfirst : p = before.length → c = separator ∧ (p < arraySize → d = separator) := by
      rintro rfl
      refine ⟨by simpa using hc.symm, fun hlt => ?_⟩
      rw [hnext, UInt32.toNat_ofNat_of_lt' (show before.length + 1 < 2 ^ 32 by omega)] at hd
      simpa using hd.symm
    split_ifs with hsep hgo
    · have hshort : p ≠ before.length := fun he => hsep (hfirst he).1
      rw [hnext]
      exact ih (by omega) (by omega) (by omega) _ _
    · exact ⟨_, rfl⟩
    · rw [hd]
      dsimp only
      split_ifs with hgo
      · have hshort : p ≠ before.length := fun he => hgo.1 ((hfirst he).2 (by omega))
        rw [hnext]
        exact ih (by omega) (by omega) (by omega) _ _
      · exact ⟨_, rfl⟩

theorem stringParseSeparatedArray_ok_of_double (separator : χ) (hsize : arraySize < 2 ^ 32)
    (before after : List χ) :
    ∃ items, stringParseSeparatedArray separator (before ++ separator :: separator :: after) arraySize =
      .ok items := by
  unfold stringParseSeparatedArray
  split_ifs with hpos
  · obtain ⟨items, hitems⟩ : ∃ items,
      parseSteps separator (before ++ separator :: separator :: after) arraySize
        (2 ^ 32) (UInt32.ofNat 0) [] [] = some (.ok items) :=
      parseSteps_ok_of_double hpos hsize before after (Nat.zero_le _) (Nat.zero_le _) (by omega) [] []
    exact ⟨items, congrArg (Option.getD · _) hitems⟩
  · exact ⟨[], rfl⟩

/-- If no position before the size stops it, the loop goes on forever. -/
theorem parseSteps_endless (hlen : 2 ^ 32 ≤ array.length) (hsize : 2 ^ 32 ≤ arraySize)
    (hgo : ∀ pos : UInt32, array[pos.toNat]? = some separator → array[(pos + 1).toNat]? ≠ some separator)
    (steps : ℕ) (pos : UInt32) (item : List χ) (items : List (List χ)) :
    parseSteps separator array arraySize steps pos item items = none := by
  have hread : ∀ pos : UInt32, ∃ c, array[pos.toNat]? = some c := fun pos =>
    ⟨_, List.getElem?_eq_getElem (Nat.lt_of_lt_of_le pos.toNat_lt hlen)⟩
  have hbound : ∀ pos : UInt32, pos.toNat ≤ arraySize - 1 := fun pos => by
    have := pos.toNat_lt
    omega
  induction steps generalizing pos item items with
  | zero => rfl
  | succ steps ih =>
    obtain ⟨c, hc⟩ := hread pos
    obtain ⟨d, hd⟩ := hread (pos + 1)
    rw [parseSteps, hc]
    dsimp only
    by_cases hsep : c = separator
    · have hnext : d ≠ separator := by
        rintro rfl
        exact hgo pos (hsep ▸ hc) hd
      rw [if_neg (not_not.mpr hsep), hd]
      dsimp only
      rw [if_pos ⟨hnext, hbound pos⟩, ih]
    · rw [if_pos hsep, if_pos (hbound pos), ih]

end ApduPlay.SeparatedArray
