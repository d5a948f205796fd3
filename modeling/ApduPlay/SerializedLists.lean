import ApduPlay.SeparatedArray
import Mathlib.Data.List.Chain

/-!
# Serializing a list and parsing it back

Both functions leave out empty strings. The guard of the one compares the
capacity with the required length the wrong way round. The position of the other
has 32 bits, also where the size of the array has more.
-/

namespace ApduPlay.SerializedLists

open SeparatedArray

variable {χ : Type}

/-- An array is used up to its capacity: a list that fits is serialized and its
length reported, and nothing is written for a list that does not. Writing
outside of the array is a fault. -/
def SerializesWithin (w : CharWidth χ) (separator : χ) (values : List Text) (outArray : List χ) : Prop :=
  ∃ status arraySize written,
    stringSerializeAsSeparatedArray w separator values outArray 0 outArray.length =
      .ok (status, arraySize, written) ∧
    if requiredLength values ≤ outArray.length then
      status = statOk ∧ arraySize = requiredLength values ∧
        written = serialized w separator values ++ outArray.drop (requiredLength values)
    else status = statNotEnoughtMemory ∧ written = outArray

section Parsing

variable [DecidableEq χ]

/-- The strings of a list that are not empty. -/
def itemsOf (w : CharWidth χ) (values : List Text) : List (List χ) :=
  (values.filter fun v => v.length > 0).map fun v => v.map w.widen

/-- A list that is serialized with the length that is reported for it, and one
more separator behind it, is parsed back. The memory ends behind this separator. -/
def RoundTrips (w : CharWidth χ) (separator : χ) (values : List Text) : Prop :=
  ∀ memory : List χ, memory.length = serializedSize values + 1 →
    ∃ arraySize outArray,
      stringSerializeAsSeparatedArray w separator values memory 0 (serializedSize values) =
        .ok (statOk, arraySize, outArray) ∧
      stringParseSeparatedArray separator (outArray.set (serializedSize values) separator)
        (serializedSize values) = .ok (itemsOf w values)

end Parsing

variable {w : CharWidth χ} {separator : χ} {values : List Text} {outArray : List χ}

/-- The guard lets a short array pass. -/
theorem not_serializesWithin_short (h : outArray.length < requiredLength values) :
    ¬ SerializesWithin w separator values outArray := by
  rintro ⟨status, arraySize, written, hcall, -⟩
  have hlen := length_serialized w separator values
  have hout : outArray.length < 0 + (serialized w separator values).length := by omega
  rw [stringSerializeAsSeparatedArray, if_pos (Nat.le_of_lt h),
    Fault.bind_error (Buffer.write_error hout)] at hcall
  cases hcall

/-- It refuses an array that is larger than necessary. -/
theorem not_serializesWithin_long (h : requiredLength values < outArray.length) :
    ¬ SerializesWithin w separator values outArray := by
  rintro ⟨status, arraySize, written, hcall, hwithin⟩
  rw [stringSerializeAsSeparatedArray, if_neg (Nat.not_le.mpr h)] at hcall
  rw [if_pos (Nat.le_of_lt h)] at hwithin
  cases hcall
  exact absurd hwithin.1 (by decide)

theorem serializesWithin_exact (h : outArray.length = requiredLength values) :
    SerializesWithin w separator values outArray := by
  have hroom : 0 + requiredLength values ≤ outArray.length := by omega
  have hcall := stringSerializeAsSeparatedArray_ok w separator hroom
  rw [serializedSize, ← h] at hcall
  refine ⟨_, _, _, hcall, ?_⟩
  rw [h, if_pos (Nat.le_refl _), Buffer.overwrite, List.take_zero, List.nil_append, length_serialized,
    Nat.zero_add]
  exact ⟨rfl, rfl, rfl⟩

/-- An array is used up to its capacity exactly if its capacity is the required
length. -/
theorem serializesWithin_iff (w : CharWidth χ) (separator : χ) (values : List Text) (outArray : List χ) :
    SerializesWithin w separator values outArray ↔ outArray.length = requiredLength values := by
  constructor
  · intro h
    rcases Nat.lt_trichotomy outArray.length (requiredLength values) with hshort | hexact | hlong
    · exact absurd h (not_serializesWithin_short hshort)
    · exact hexact
    · exact absurd h (not_serializesWithin_long hlong)
  · exact serializesWithin_exact

/-- With one character too few it writes outside, and with one too many it
refuses. -/
theorem not_serializesWithin_other :
    (¬ SerializesWithin narrow 0 [ascii "R1"] [0, 0] ∧
        ¬ SerializesWithin narrow 0 [ascii "R1"] [0, 0, 0, 0]) ∧
      ¬ SerializesWithin wide 0 [ascii "R1"] [0, 0] ∧
        ¬ SerializesWithin wide 0 [ascii "R1"] [0, 0, 0, 0] :=
  ⟨⟨not_serializesWithin_short (by decide), not_serializesWithin_long (by decide)⟩,
    not_serializesWithin_short (by decide), not_serializesWithin_long (by decide)⟩

variable {array pre rest item : List χ} {items names : List (List χ)} {arraySize : ℕ}

/-- What is serialized are the items that are not empty. -/
theorem serialized_itemsOf (w : CharWidth χ) (separator : χ) (values : List Text) :
    serialized w separator values = (itemsOf w values).flatMap fun name => name ++ [separator] :=
  serialized_eq w separator values

theorem itemsOf_spec (hvalues : ∀ v ∈ values, separator ∉ v.map w.widen) :
    ∀ name ∈ itemsOf w values, name ≠ [] ∧ separator ∉ name := by
  intro name hname
  obtain ⟨v, hv, rfl⟩ := List.mem_map.mp hname
  obtain ⟨hmem, hlength⟩ := List.mem_filter.mp hv
  have hpos : 0 < v.length := of_decide_eq_true hlength
  exact ⟨List.ne_nil_of_length_pos (by rw [List.length_map]; exact hpos), hvalues v hmem⟩

/-- A separator is not followed by another one. -/
def NotDoubled (separator a b : χ) : Prop := a = separator → b ≠ separator

theorem isChain_item {name : List χ} (hname : separator ∉ name) (hrest : rest.IsChain (NotDoubled separator))
    (hhead : ∀ c ∈ rest.head?, c ≠ separator) :
    (name ++ separator :: rest).IsChain (NotDoubled separator) := by
  induction name with
  | nil => exact List.isChain_cons.mpr ⟨fun c hc _ => hhead c hc, hrest⟩
  | cons c name ih =>
    obtain ⟨hc, hname⟩ := not_or.mp (mt List.mem_cons.mpr hname)
    exact List.isChain_cons.mpr ⟨fun _ _ heq => absurd heq.symm hc, ih hname⟩

theorem head_ne_separator (hnames : ∀ name ∈ names, name ≠ [] ∧ separator ∉ name) :
    ∀ c ∈ (names.flatMap fun name => name ++ [separator]).head?, c ≠ separator := by
  cases names with
  | nil => exact fun c hc => absurd hc (Option.not_mem_none c)
  | cons name names =>
    obtain ⟨hne, hmem⟩ := hnames name List.mem_cons_self
    obtain ⟨a, tail, rfl⟩ := List.exists_cons_of_ne_nil hne
    rintro c hc rfl
    cases hc
    exact hmem List.mem_cons_self

/-- In a serialized list no separator is doubled. -/
theorem isChain_names (hnames : ∀ name ∈ names, name ≠ [] ∧ separator ∉ name) :
    (names.flatMap fun name => name ++ [separator]).IsChain (NotDoubled separator) := by
  induction names with
  | nil => exact List.isChain_nil
  | cons name names ih =>
    obtain ⟨⟨-, hname⟩, hrest⟩ := List.forall_mem_cons.mp hnames
    rw [List.flatMap_cons, List.append_assoc, List.singleton_append]
    exact isChain_item hname (ih hrest) (head_ne_separator hrest)

/-- What is written into memory that ends one character behind the list. -/
theorem stringSerializeAsSeparatedArray_memory {memory : List χ}
    (hmemory : memory.length = requiredLength values + 1) :
    ∃ outArray, stringSerializeAsSeparatedArray w separator values memory 0 (serializedSize values) =
        .ok (statOk, requiredLength values, outArray) ∧
      outArray.set (serializedSize values) separator = serialized w separator values ++ [separator] := by
  have hlen := length_serialized w separator values
  refine ⟨_, stringSerializeAsSeparatedArray_ok w separator (by omega), ?_⟩
  obtain ⟨last, hlast⟩ : ∃ last, memory.drop (requiredLength values) = [last] :=
    List.length_eq_one_iff.mp (by rw [List.length_drop]; omega)
  rw [Buffer.overwrite, List.take_zero, List.nil_append, hlen, Nat.zero_add, hlast, serializedSize, ← hlen,
    List.set_append_right _ _ (Nat.le_refl _), Nat.sub_self]
  rfl

variable [DecidableEq χ]

/-- The characters of an item are put together. -/
theorem parseFrom_item {name : List χ} (hname : separator ∉ name) {pos : ℕ}
    (hpos : pos + name.length ≤ arraySize) :
    parseFrom separator arraySize (name ++ rest) pos item items =
      parseFrom separator arraySize rest (pos + name.length) (item ++ name) items := by
  induction name generalizing pos item with
  | nil => rw [List.nil_append, List.append_nil, List.length_nil, Nat.add_zero]
  | cons c name ih =>
    obtain ⟨hc, hrest⟩ := not_or.mp (mt List.mem_cons.mpr hname)
    rw [List.length_cons] at hpos ⊢
    rw [List.cons_append, parseFrom, if_pos (Ne.symm hc), if_pos (by omega), ih hrest (by omega),
      List.append_assoc, List.singleton_append, Nat.add_assoc, Nat.add_comm 1]

/-- The loop ends at the separator behind the last item. -/
theorem parseFrom_names (hnames : ∀ name ∈ names, name ≠ [] ∧ separator ∉ name) (hsome : names ≠ [])
    {pos : ℕ} (hpos : pos + (names.flatMap fun name => name ++ [separator]).length ≤ arraySize) :
    parseFrom separator arraySize ((names.flatMap fun name => name ++ [separator]) ++ [separator]) pos []
      items = .ok (items ++ names) := by
  induction names generalizing pos items with
  | nil => exact absurd rfl hsome
  | cons name names ih =>
    obtain ⟨⟨hne, hname⟩, hrest⟩ := List.forall_mem_cons.mp hnames
    rw [List.flatMap_cons, List.length_append, List.length_append, List.length_singleton] at hpos
    have hpush : pushItem items name = items ++ [name] := if_neg (by simpa using hne)
    rw [List.flatMap_cons, List.append_assoc, List.append_assoc, parseFrom_item hname (by omega),
      List.nil_append, List.singleton_append, parseFrom, if_neg (not_not.mpr rfl)]
    cases names with
    | nil =>
      simp only [List.flatMap_nil, List.nil_append, List.head?_cons, ne_eq, not_true_eq_false, false_and,
        if_false]
      rw [hpush]
    | cons next names =>
      obtain ⟨⟨hnext, hmem⟩, -⟩ := List.forall_mem_cons.mp hrest
      obtain ⟨c, tail, rfl⟩ := List.exists_cons_of_ne_nil hnext
      have hhead : (((c :: tail) :: names).flatMap (fun name => name ++ [separator]) ++ [separator]).head? =
          some c := rfl
      have hc : c ≠ separator := fun he => hmem (he ▸ List.mem_cons_self)
      rw [hhead]
      dsimp only
      have hgo : pos + name.length ≤ arraySize - 1 := by
        rw [List.flatMap_cons, List.length_append, List.length_append, List.length_cons] at hpos
        omega
      rw [if_pos ⟨hc, hgo⟩, hpush, ih hrest (List.cons_ne_nil _ _) (by omega), List.append_assoc,
        List.singleton_append]

/-- The array is parsed as long as its length fits the position. -/
theorem stringParseSeparatedArray_serialized (hvalues : ∀ v ∈ values, separator ∉ v.map w.widen)
    (hlen : requiredLength values < 2 ^ 32) :
    stringParseSeparatedArray separator (serialized w separator values ++ [separator])
      (requiredLength values) = .ok (itemsOf w values) := by
  have hlength := length_serialized w separator values
  have hsplit := serialized_itemsOf w separator values
  by_cases hsome : 0 < requiredLength values
  · have hnames : itemsOf w values ≠ [] := by
      intro hnone
      rw [hsplit, hnone] at hlength
      exact absurd hlength.symm (Nat.ne_of_gt hsome)
    have hloop : parseFrom separator (requiredLength values) _ 0 [] [] = .ok ([] ++ itemsOf w values) :=
      parseFrom_names (itemsOf_spec hvalues) hnames (by rw [← hsplit]; omega)
    rw [← hsplit] at hloop
    refine stringParseSeparatedArray_of_parseFrom ?_ hsome hloop
    rw [List.length_append, List.length_singleton]
    omega
  · rw [stringParseSeparatedArray, if_neg hsome]
    cases hnames : itemsOf w values with
    | nil => rfl
    | cons name names =>
      rw [hsplit, hnames, List.flatMap_cons, List.length_append, List.length_append] at hlength
      exact absurd hlength (by rw [List.length_singleton]; omega)

/-- Otherwise the loop does not end. -/
theorem stringParseSeparatedArray_endless (hvalues : ∀ v ∈ values, separator ∉ v.map w.widen)
    (hlen : 2 ^ 32 ≤ requiredLength values) :
    stringParseSeparatedArray separator (serialized w separator values ++ [separator])
      (requiredLength values) = .error .endlessLoop := by
  have hlength := length_serialized w separator values
  have hsplit := serialized_itemsOf w separator values
  have hchain := isChain_names (itemsOf_spec hvalues)
  have hhead := head_ne_separator (itemsOf_spec hvalues)
  rw [← hsplit] at hchain hhead
  rw [stringParseSeparatedArray, if_pos (show 0 < requiredLength values by omega)]
  have hpass : ∀ pos : UInt32, (serialized w separator values ++ [separator])[pos.toNat]? = some separator →
      (serialized w separator values ++ [separator])[(pos + 1).toNat]? ≠ some separator := by
    intro pos hpos hnext
    have hmax := pos.toNat_lt
    have hstep : (pos + 1).toNat = (pos.toNat + 1) % 2 ^ 32 := UInt32.toNat_add pos 1
    rw [List.getElem?_append_left (by omega)] at hpos
    by_cases hlast : pos.toNat + 1 < 2 ^ 32
    · rw [hstep, Nat.mod_eq_of_lt hlast, List.getElem?_append_left (by omega)] at hnext
      obtain ⟨hi, hpos⟩ := List.getElem?_eq_some_iff.mp hpos
      obtain ⟨hi', hnext⟩ := List.getElem?_eq_some_iff.mp hnext
      exact List.isChain_iff_getElem.mp hchain pos.toNat hi' hpos hnext
    · -- Behind the last position comes the first one again.
      have hwrap : (pos.toNat + 1) % 2 ^ 32 = 0 := by omega
      rw [hstep, hwrap, List.getElem?_append_left (by omega), ← List.head?_eq_getElem?] at hnext
      exact hhead separator hnext rfl
  rw [parseSteps_endless (by rw [List.length_append]; omega) hlen hpass]
  rfl

theorem not_roundTrips (hvalues : ∀ v ∈ values, separator ∉ v.map w.widen)
    (hlong : 2 ^ 32 ≤ requiredLength values) : ¬ RoundTrips w separator values := by
  intro h
  have hmemory : (List.replicate (requiredLength values + 1) separator).length =
      requiredLength values + 1 := List.length_replicate
  obtain ⟨arraySize, outArray, hcall, hparse⟩ := h _ hmemory
  obtain ⟨outArray', hcall', hset⟩ := stringSerializeAsSeparatedArray_memory hmemory
  cases hcall.symm.trans hcall'
  rw [hset, serializedSize, stringParseSeparatedArray_endless hvalues hlong] at hparse
  cases hparse

/-- A list survives exactly if its characters and separators are less than four
gibi. -/
theorem roundTrips_iff (w : CharWidth χ) (separator : χ) (values : List Text)
    (hvalues : ∀ v ∈ values, separator ∉ v.map w.widen) :
    RoundTrips w separator values ↔ requiredLength values < 2 ^ 32 := by
  constructor
  · intro h
    by_contra hlong
    exact not_roundTrips hvalues (Nat.le_of_not_lt hlong) h
  · intro hlen memory hmemory
    obtain ⟨outArray, hcall, hset⟩ := stringSerializeAsSeparatedArray_memory hmemory
    refine ⟨_, outArray, hcall, ?_⟩
    rw [hset]
    exact stringParseSeparatedArray_serialized hvalues hlen

theorem roundTrips_empty : (∀ v ∈ [ascii "R1", [], ascii "R2"], (0 : UInt8) ∉ v.map narrow.widen) ∧
    RoundTrips narrow 0 [ascii "R1", [], ascii "R2"] ∧ RoundTrips wide 0 [ascii "R1", [], ascii "R2"] :=
  ⟨by decide, (roundTrips_iff narrow 0 [ascii "R1", [], ascii "R2"] (by decide)).mpr (by decide),
    (roundTrips_iff wide 0 [ascii "R1", [], ascii "R2"] (by decide)).mpr (by decide)⟩

/-- With its separator this string fills all positions. -/
theorem not_roundTrips_long :
    ¬ RoundTrips narrow 0 [List.replicate (2 ^ 32 - 1) 0x41] ∧
      ¬ RoundTrips wide 0 [List.replicate (2 ^ 32 - 1) 0x41] := by
  have hlong : requiredLength [List.replicate (2 ^ 32 - 1) 0x41] = 2 ^ 32 :=
    requiredLength_replicate (by omega) 0x41
  have habsent : ∀ {χ : Type} (w : CharWidth χ), w.widen 0x41 ≠ w.nul →
      ∀ v ∈ [List.replicate (2 ^ 32 - 1) 0x41], w.nul ∉ v.map w.widen := by
    intro χ w hne v hv hmem
    rw [List.mem_singleton.mp hv, List.map_replicate] at hmem
    exact hne (List.eq_of_mem_replicate hmem).symm
  exact ⟨not_roundTrips (habsent narrow (by decide)) hlong.ge,
    not_roundTrips (habsent wide (by decide)) hlong.ge⟩

end ApduPlay.SerializedLists
