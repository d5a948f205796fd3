import ApduPlay.TextOutput

/-!
# The constant bytes of some messages

The comparison of the strings finds the bytes that all messages begin with, or
end with, as many as there are, whichever message is the shortest.
-/

namespace ApduPlay.ConstantBytes

open CommonPrefix JoinedWords LogParser OutputTrees TextOutput WrappedText
open PacketGraph (hexBinaryString hexByte hexByte_injective hexBinaryString_concat)

/-- A list is common as a whole. -/
def Whole {α : Type} [DecidableEq α] (ls : List (List α)) : Prop := ∃ l ∈ ls, l.length ≤ commonLength ls

instance {α : Type} [DecidableEq α] (ls : List (List α)) : Decidable (Whole ls) :=
  inferInstanceAs (Decidable (∃ l ∈ ls, l.length ≤ commonLength ls))

/-- Characters of the first `k` of `n` bytes, with the blank behind them if there are more. -/
def stop (n k : ℕ) : ℕ := if k < n then 3 * k else 3 * n - 1

/-- Number of bytes all messages begin with, none if they are too few for the settings. -/
def constantLength {α : Type} [DecidableEq α] (settings : Settings) (ls : List (List α)) : ℕ :=
  if (settings.minimalConstantLength * 3).bmod (2 ^ 32) ≤
      (if Whole ls then 3 * commonLength ls - 1 else 3 * commonLength ls : ℕ) ∨
    settings.checkMinimalLengthOnShorterStreams = false ∧ Whole ls then commonLength ls else 0

/-- The words are two digits each. -/
def TwoDigits (words : List JavaString) : Prop := ∀ w ∈ words, w.length + 1 = 3

variable {words words' : List JavaString} {wss : List (List JavaString)} {settings : Settings} {sep : Char}
  {i k : ℕ}

/-- Either there are more bytes, or the text ends. -/
theorem stop_cases {n : ℕ} (hk : k ≤ n) : k < n ∧ stop n k = 3 * k ∨ k = n ∧ stop n k = 3 * n - 1 := by
  rcases hk.lt_or_eq with hlt | heq
  · exact Or.inl ⟨hlt, if_pos hlt⟩
  · exact Or.inr ⟨heq, if_neg heq.not_lt⟩

/-- After a result the computation goes on. -/
theorem bind_ok {α β : Type} {m : OutputM α} {a : α} (h : m = .ok a) (f : α → OutputM β) :
    (m >>= f) = f a := by
  rw [h]
  rfl

theorem charAt_ok {str : JavaString} {c : Char} (hc : str[i]? = some c) : charAt str i = .ok c := by
  rw [charAt, hc]
  rfl

/-- The digits of a byte. -/
theorem charAt_joined (hw : TwoDigits words) {a b : Char} (hi : words[i]? = some [a, b]) :
    charAt (joined sep words) (3 * i) = .ok a ∧ charAt (joined sep words) (3 * i + 1) = .ok b :=
  ⟨charAt_ok (getElem?_joined (j := 0) hw hi Nat.two_pos), charAt_ok (getElem?_joined hw hi Nat.one_lt_two)⟩

theorem exists_digits (hw : TwoDigits words) (hi : i < words.length) : ∃ a b, words[i]? = some [a, b] := by
  obtain ⟨a, b, hab⟩ := List.length_eq_two.mp (Nat.succ_injective (hw _ (List.getElem_mem hi)))
  exact ⟨a, b, by rw [List.getElem?_eq_getElem hi, hab]⟩

/-- Two bytes are compared digit by digit. -/
theorem digitsDiffer_joined (hw : TwoDigits words) (hw' : TwoDigits words') {w w' : JavaString}
    (hi : words[i]? = some w) (hi' : words'[i]? = some w') :
    digitsDiffer (joined sep words) (joined sep words') (3 * i) = .ok (decide (w ≠ w')) := by
  obtain ⟨a, b, hab⟩ := exists_digits hw (List.getElem?_eq_some_iff.mp hi).1
  obtain ⟨c, d, hcd⟩ := exists_digits hw' (List.getElem?_eq_some_iff.mp hi').1
  obtain ⟨ha, hb⟩ := charAt_joined hw hab
  obtain ⟨hc, hd⟩ := charAt_joined hw' hcd
  cases hi.symm.trans hab
  cases hi'.symm.trans hcd
  refine (bind_ok ha _).trans ((bind_ok hc _).trans ?_)
  by_cases hac : a = c
  · rw [if_neg (not_not_intro hac)]
    refine (bind_ok hb _).trans ((bind_ok hd _).trans (congrArg Except.ok ?_))
    simp [hac, bne, Bool.beq_eq_decide_eq]
  · rw [if_pos hac]
    simp [hac]
    rfl

/-- The loop ends at the first byte that differs, or behind what is already known
to differ. The induction is on the rounds; so far all bytes were the same. -/
theorem compareLoop_joined (hw : TwoDigits words) (hw' : TwoDigits words')
    (hlen : words.length ≤ words'.length)
    (hk : k ≤ words.length) (rounds : ℕ) (hi : i ≤ agree words words') (hik : i ≤ k + 1)
    (hrounds : k + 1 ≤ i + rounds) :
    ∃ j, compareLoop (joined sep words) (joined sep words') (stop words.length k) rounds (3 * i) = .ok j ∧
      (if j < stop words.length k then j else stop words.length k) =
        stop words.length (min k (agree words words')) := by
  have hagree : agree words words' ≤ words.length := (le_agree_iff.mp le_rfl).1
  have hstop := stop_cases hk
  induction rounds generalizing i with
  | zero =>
    refine ⟨3 * i, rfl, ?_⟩
    rw [Nat.min_eq_left (by omega), if_neg (by omega)]
  | succ rounds ih =>
    rw [compareLoop]
    by_cases hcond : stop words.length k ≠ 0 ∧ 3 * i < stop words.length k + 1
    · have hlt : i < words.length ∧ i ≤ k := by omega
      have hget : words[i]? = some words[i] := List.getElem?_eq_getElem hlt.1
      have hget' : words'[i]? = some words'[i] := List.getElem?_eq_getElem (hlt.1.trans_le hlen)
      rw [if_pos hcond, bind_ok (digitsDiffer_joined hw hw' hget hget')]
      by_cases hsame : words[i] = words'[i]
      · have hnext : i < agree words words' := (lt_agree_iff hi).mpr ⟨_, hget, hsame ▸ hget'⟩
        obtain ⟨j, hj, hresult⟩ := ih hnext (by omega) (by omega)
        refine ⟨j, ?_, hresult⟩
        rw [← hj, decide_eq_false (not_not_intro hsame)]
        rfl
      · have hend : agree words words' = i := by
          refine le_antisymm (Nat.le_of_not_lt fun hnext => hsame ?_) hi
          obtain ⟨a, ha, ha'⟩ := (lt_agree_iff hi).mp hnext
          cases hget.symm.trans ha
          exact (Option.some.inj (hget'.symm.trans ha')).symm
        refine ⟨3 * i, ?_, ?_⟩
        · rw [decide_eq_true hsame]
          rfl
        · rw [hend, Nat.min_eq_right hlt.2]
          have hlast := stop_cases hlt.1.le
          split <;> omega
    · refine ⟨3 * i, by rw [if_neg hcond]; rfl, ?_⟩
      have hmin : min k (agree words words') = k := Nat.min_eq_left (by omega)
      rw [hmin, if_neg (by omega)]

/-- Texts that are the same are of the same words. -/
theorem agree_of_joined_eq (hw : TwoDigits words) (hw' : TwoDigits words')
    (hlen : words.length ≤ words'.length)
    (heq : joined sep words' = joined sep words) : agree words words' = words.length := by
  refine le_antisymm (le_agree_iff.mp le_rfl).1 (Nat.le_of_not_lt fun hlt => ?_)
  obtain ⟨a, b, hab⟩ := exists_digits hw hlt
  obtain ⟨c, d, hcd⟩ := exists_digits hw' (hlt.trans_le hlen)
  have hword : ((joined sep words).drop (3 * agree words words')).take 2 = [a, b] := take_drop_joined hw hab
  have hword' : ((joined sep words').drop (3 * agree words words')).take 2 = [c, d] :=
    take_drop_joined hw' hcd
  rw [heq] at hword'
  have hsame : [a, b] = [c, d] := hword.symm.trans hword'
  exact lt_irrefl _ ((lt_agree_iff le_rfl).mpr ⟨_, hab, hsame ▸ hcd⟩)

/-- A string shortens what is common to the bytes it has in common. -/
theorem compareString_joined (hw : TwoDigits words) (hw' : TwoDigits words')
    (hlen : words.length ≤ words'.length)
    (hk : k ≤ words.length) :
    compareString (joined sep words) (stop words.length k) (joined sep words') =
      .ok (stop words.length (min k (agree words words'))) := by
  rw [compareString]
  split
  · rename_i heq
    rw [agree_of_joined_eq hw hw' hlen heq, Nat.min_eq_left hk]
    rfl
  · have hrounds : k + 1 ≤ 0 + (stop words.length k + 1) := by
      have hstop := stop_cases hk
      omega
    obtain ⟨j, hj, hresult⟩ := compareLoop_joined hw hw' hlen hk _ (Nat.zero_le _) (Nat.zero_le _) hrounds
    rw [← hresult]
    exact bind_ok hj _

/-- So does every string, one after the other. -/
theorem compareStrings_joined (hw : TwoDigits words)
    (hwss : ∀ ws ∈ wss, TwoDigits ws ∧ words.length ≤ ws.length)
    (hk : k ≤ words.length) :
    (wss.map (joined sep)).foldlM (compareString (joined sep words)) (stop words.length k) =
      .ok (stop words.length (wss.foldl (fun k ws => min k (agree words ws)) k)) := by
  induction wss generalizing k with
  | nil => rfl
  | cons ws wss ih =>
    obtain ⟨⟨hw', hlen⟩, hrest⟩ := List.forall_mem_cons.mp hwss
    rw [List.map_cons, List.foldlM_cons, bind_ok (compareString_joined hw hw' hlen hk)]
    exact ih hrest ((min_le_left _ _).trans hk)

/-- The loop over the lengths finds a shortest string. -/
theorem shortest_spec (str : JavaString) (strs : List JavaString) :
    strs.foldl (fun minStr str => if str.length < minStr.length then str else minStr) str ∈ str :: strs ∧
      ∀ s ∈ str :: strs,
        (strs.foldl (fun minStr str => if str.length < minStr.length then str else minStr) str).length ≤
          s.length := by
  induction strs generalizing str with
  | nil => simp
  | cons next strs ih =>
    rw [List.foldl_cons]
    split
    · rename_i hlt
      obtain ⟨hmem, hle⟩ := ih next
      refine ⟨List.mem_cons_of_mem _ hmem, List.forall_mem_cons.mpr ⟨?_, hle⟩⟩
      exact (hle next List.mem_cons_self).trans hlt.le
    · rename_i hge
      obtain ⟨hmem, hle⟩ := ih str
      obtain ⟨hstr, hrest⟩ := List.forall_mem_cons.mp hle
      refine ⟨?_, List.forall_mem_cons.mpr
        ⟨hstr, List.forall_mem_cons.mpr ⟨hstr.trans (not_lt.mp hge), hrest⟩⟩⟩
      rcases List.mem_cons.mp hmem with heq | htail
      · exact List.mem_cons.mpr (Or.inl heq)
      · exact List.mem_cons_of_mem _ (List.mem_cons_of_mem _ htail)

/-- The texts of messages are as long as they have bytes. -/
theorem length_le_of_joined (hw : TwoDigits words) (hw' : TwoDigits words')
    (hlen : (joined sep words).length ≤ (joined sep words').length) : words.length ≤ words'.length := by
  rw [length_joined hw, length_joined hw'] at hlen
  omega

/-- A shortest list is common as a whole if one is. -/
theorem whole_iff {words : List JavaString} (hmem : words ∈ wss)
    (hshort : ∀ ws ∈ wss, words.length ≤ ws.length) :
    Whole wss ↔ commonLength wss = words.length := by
  constructor
  · rintro ⟨ws, hws, hle⟩
    exact le_antisymm (commonLength_le hmem) ((hshort ws hws).trans hle)
  · exact fun heq => ⟨words, hmem, heq.ge⟩

/-- The comparison with a shortest of the strings finds what all have in common. -/
theorem compareStrings_shortest {first : List JavaString} {rest : List (List JavaString)}
    (hwss : ∀ ws ∈ first :: rest, TwoDigits ws) :
    ∃ words ∈ first :: rest, (∀ ws ∈ first :: rest, words.length ≤ ws.length) ∧
      (rest.map (joined sep)).foldl (fun minStr str => if str.length < minStr.length then str else minStr)
          (joined sep first) = joined sep words ∧
        ((first :: rest).map (joined sep)).foldlM (compareString (joined sep words))
            (joined sep words).length =
          .ok (stop words.length (commonLength (first :: rest))) := by
  obtain ⟨hmin, hshort⟩ := shortest_spec (joined sep first) (rest.map (joined sep))
  rw [← List.map_cons] at hmin hshort
  obtain ⟨words, hwords, hjoined⟩ := List.mem_map.mp hmin
  have hw := hwss words hwords
  have hlens : ∀ ws ∈ first :: rest, words.length ≤ ws.length := fun ws hws =>
    length_le_of_joined hw (hwss ws hws) (hjoined ▸ hshort _ (List.mem_map_of_mem hws))
  have hstart : (joined sep words).length = stop words.length words.length := by
    rw [length_joined hw, stop, if_neg (lt_irrefl _)]
  have hshared : (first :: rest).foldl (fun k ws => min k (agree words ws)) words.length =
      commonLength (first :: rest) := shared_eq_commonLength hwords
  refine ⟨words, hwords, hlens, hjoined.symm, ?_⟩
  rw [hstart, compareStrings_joined hw (fun ws hws => ⟨hwss ws hws, hlens ws hws⟩) le_rfl, hshared]

/-- What is returned for some common bytes of a shortest message. -/
theorem returned_eq {n : ℕ} {least : ℤ} {check : Bool} {whole : Prop} [Decidable whole] (hk : k ≤ n)
    (hwhole : whole ↔ k = n) :
    (if !(decide ((stop n k : ℤ) ≥ least) || (!check && decide (stop n k ≥ 3 * n - 1))) then pure 0
      else if stop n k ≥ 3 * n - 1 then pure (3 * n - 1)
      else pure (if stop n k > 1 then stop n k - 1 else 0) : OutputM ℕ) =
      .ok (3 * (if least ≤ (if whole then 3 * k - 1 else 3 * k : ℕ) ∨ check = false ∧ whole then k
        else 0) - 1) := by
  have hstop : stop n k = if whole then 3 * k - 1 else 3 * k := by
    rcases stop_cases hk with ⟨hlt, hstop⟩ | ⟨heq, hstop⟩
    · rw [hstop, if_neg fun h => hlt.ne (hwhole.mp h)]
    · rw [hstop, if_pos (hwhole.mpr heq), heq]
  have hend : stop n k ≥ 3 * n - 1 ↔ whole := by
    rw [hwhole]
    rcases stop_cases hk with ⟨hlt, hstop⟩ | ⟨heq, hstop⟩ <;> omega
  have hreturn : (decide ((stop n k : ℤ) ≥ least) || (!check && decide (stop n k ≥ 3 * n - 1))) =
      decide (least ≤ (stop n k : ℤ) ∨ check = false ∧ whole) := by
    simp [hend]
  rw [hreturn, ← hstop]
  by_cases henough : least ≤ (stop n k : ℤ) ∨ check = false ∧ whole
  · rw [decide_eq_true henough, if_pos henough, if_neg (by decide)]
    by_cases hfull : whole
    · rw [if_pos (hend.mpr hfull), hwhole.mp hfull]
      rfl
    · rw [if_neg hfull] at hstop
      rw [if_neg (mt hend.mp hfull), hstop]
      refine congrArg Except.ok ?_
      split <;> omega
  · rw [decide_eq_false henough, if_neg henough, if_pos (by decide)]
    rfl

/-- The comparison counts the characters of the constant bytes, without the last blank. -/
theorem longestCommonPrefix_joined (settings : Settings) (hne : wss ≠ []) (hwss : ∀ ws ∈ wss, TwoDigits ws) :
    longestCommonPrefix settings (wss.map (joined sep)) = .ok (3 * constantLength settings wss - 1) := by
  obtain ⟨first, rest, rfl⟩ := List.exists_cons_of_ne_nil hne
  obtain ⟨words, hwords, hshort, hmin, hcompare⟩ := compareStrings_shortest hwss
  rw [List.map_cons] at hcompare
  rw [List.map_cons, longestCommonPrefix]
  dsimp only
  rw [hmin, bind_ok hcompare, length_joined (hwss words hwords)]
  exact returned_eq (commonLength_le hwords) (whole_iff hwords hshort)

/-- How the elements are spelled does not matter. -/
theorem constantLength_map {α β : Type} [DecidableEq α] [DecidableEq β] {f : α → β}
    (hf : Function.Injective f)
    (settings : Settings) (ls : List (List α)) :
    constantLength settings (ls.map (List.map f)) = constantLength settings ls := by
  have hwhole : Whole (ls.map (List.map f)) ↔ Whole ls := by
    simp only [Whole, commonLength_map hf, List.mem_map, exists_exists_and_eq_and, List.length_map]
  simp only [constantLength, commonLength_map hf, hwhole]

/-- The constant bytes are in every list. -/
theorem constantLength_le {α : Type} [DecidableEq α] (settings : Settings) {ls : List (List α)} :
    constantLength settings ls ≤ commonLength ls := by
  rw [constantLength]
  exact (ite_le_sup _ _ _).trans (sup_le le_rfl (Nat.zero_le _))

/-- The two digits of a byte, in either order. -/
theorem twoDigits_map (f : UInt8 → JavaString) (hf : ∀ b, (f b).length = 2) (bytes : List UInt8) :
    TwoDigits (bytes.map f) := by
  intro w hw
  obtain ⟨b, -, rfl⟩ := List.mem_map.mp hw
  rw [hf]

/-- The comparison of texts with two digits for every byte. -/
theorem longestCommonPrefix_digits {f : UInt8 → JavaString} (hf : Function.Injective f)
    (hlen : ∀ b, (f b).length = 2) (settings : Settings) (sep : Char) {ls : List (List UInt8)}
    (hne : ls ≠ []) :
    longestCommonPrefix settings (ls.map fun bytes => joined sep (bytes.map f)) =
      .ok (3 * constantLength settings ls - 1) := by
  have hwss : ∀ ws ∈ ls.map (List.map f), TwoDigits ws := by
    intro ws hws
    obtain ⟨bytes, -, rfl⟩ := List.mem_map.mp hws
    exact twoDigits_map f hlen bytes
  have hjoined : longestCommonPrefix settings ((ls.map (List.map f)).map (joined sep)) = _ :=
    longestCommonPrefix_joined settings (by simpa using hne) hwss
  rw [← constantLength_map hf, ← hjoined, List.map_map]
  rfl

/-- The text of some bytes with one character between them. -/
theorem hexBinaryString_joined (sep : Char) (bytes : List UInt8) :
    hexBinaryString (some [sep]) bytes = joined sep (bytes.map hexByte) := by
  rcases List.eq_nil_or_concat bytes with rfl | ⟨bytes, b, rfl⟩
  · rfl
  · rw [List.concat_eq_append, hexBinaryString_concat, List.map_append, List.map_singleton,
      joined_concat, List.flatMap_map]
    rfl

/-- From its end a text has the digits of every byte the other way round. -/
theorem reverse_hexBinaryString (sep : Char) (bytes : List UInt8) :
    (hexBinaryString (some [sep]) bytes).reverse =
      joined sep (bytes.reverse.map fun b => (hexByte b).reverse) := by
  rw [hexBinaryString_joined, reverse_joined, ← List.map_reverse, List.map_map]
  rfl

/-- The comparison of texts with one character between the bytes, from either end. -/
theorem longestCommonPrefix_bytes (settings : Settings) (sep : Char) {ls : List (List UInt8)}
    (hne : ls ≠ []) :
    longestCommonPrefix settings (ls.map (hexBinaryString (some [sep]))) =
        .ok (3 * constantLength settings ls - 1) ∧
      longestCommonPrefix settings ((ls.map (hexBinaryString (some [sep]))).map List.reverse) =
        .ok (3 * constantLength settings (ls.map List.reverse) - 1) := by
  have hreverse : Function.Injective fun b => (hexByte b).reverse :=
    List.reverse_injective.comp hexByte_injective
  have hinverted : ((ls.map (hexBinaryString (some [sep]))).map List.reverse) =
      (ls.map List.reverse).map fun bytes => joined sep (bytes.map fun b => (hexByte b).reverse) := by
    rw [List.map_map, List.map_map]
    exact List.map_congr_left fun bytes _ => reverse_hexBinaryString sep bytes
  constructor
  · rw [← longestCommonPrefix_digits hexByte_injective (fun _ => rfl) settings sep hne]
    exact congrArg _ (List.map_congr_left fun bytes _ => hexBinaryString_joined sep bytes)
  · rw [hinverted]
    exact longestCommonPrefix_digits hreverse (fun _ => rfl) settings sep (by simpa using hne)

/-- A message as bytes, which occurs at least once. Its text has room in a string. -/
structure ByteMessage where
  /-- The bytes. -/
  bytes : List UInt8
  /-- Identifier of the node where they end. -/
  identifier : ℤ
  /-- Number of packets with this message. -/
  occurrences : ℕ
  /-- There is one. -/
  occurs : 0 < occurrences
  /-- Three characters for a byte, but for the last one. -/
  fits : 3 * bytes.length ≤ 2 ^ 31

/-- The message, with a character between the bytes. -/
def ByteMessage.text (sep : Char) (msg : ByteMessage) : OutputMessage :=
  ⟨hexBinaryString (some [sep]) msg.bytes, msg.identifier, msg.occurrences⟩

/-- The text of a message is that of its bytes with the character between them. -/
theorem message_text (sep : Char) (msg : ByteMessage) :
    (msg.text sep).message = joined sep (msg.bytes.map hexByte) := hexBinaryString_joined sep msg.bytes

/-- A packet of such messages. -/
structure ByteGroup where
  /-- What was sent. -/
  transmitted : ByteMessage
  /-- What was answered. -/
  received : List ByteMessage

/-- The packet, with a character between the bytes. -/
def ByteGroup.text (sep : Char) (packet : ByteGroup) : Group :=
  ⟨packet.transmitted.text sep, packet.received.map (ByteMessage.text sep)⟩

/-- A header with such packets. -/
def byteTree (sep : Char) (header : JavaString) (packets : List ByteGroup) : OutputTree :=
  ⟨header, packets.map (ByteGroup.text sep)⟩

/-- All that was sent. -/
def transmittedBytes (packets : List ByteGroup) : List ByteMessage := packets.map ByteGroup.transmitted

/-- All that was answered. -/
def receivedBytes (packets : List ByteGroup) : List ByteMessage := packets.flatMap ByteGroup.received

theorem transmittedMessages_byteTree (sep : Char) (header : JavaString) (packets : List ByteGroup) :
    (byteTree sep header packets).transmittedMessages =
      (transmittedBytes packets).map (ByteMessage.text sep) := by
  rw [OutputTree.transmittedMessages, byteTree, transmittedBytes, List.map_map, List.map_map]
  rfl

theorem receivedMessages_byteTree (sep : Char) (header : JavaString) (packets : List ByteGroup) :
    (byteTree sep header packets).receivedMessages = (receivedBytes packets).map (ByteMessage.text sep) := by
  rw [OutputTree.receivedMessages, byteTree, receivedBytes, List.flatMap_map, List.map_flatMap]
  rfl

/-- Number of bytes all messages begin with. -/
def prefixLength (settings : Settings) (msgs : List ByteMessage) : ℕ :=
  constantLength settings (msgs.map ByteMessage.bytes)

/-- Number of bytes all messages end with. -/
def suffixLength (settings : Settings) (msgs : List ByteMessage) : ℕ :=
  constantLength settings (msgs.map fun msg => msg.bytes.reverse)

variable {msgs : List ByteMessage} {msg : ByteMessage}

/-- The comparison finds the bytes all messages begin with and those they end with. -/
theorem longestCommonPrefixes_ok (settings : Settings) (sep : Char) (hne : msgs ≠ []) :
    longestCommonPrefixes settings (msgs.map (ByteMessage.text sep)) =
      .ok (3 * prefixLength settings msgs - 1, 3 * suffixLength settings msgs - 1) := by
  have hbytes : msgs.map ByteMessage.bytes ≠ [] := by simpa using hne
  have hstrings : (msgs.map (ByteMessage.text sep)).map OutputMessage.message =
      (msgs.map ByteMessage.bytes).map (hexBinaryString (some [sep])) := by
    rw [List.map_map, List.map_map]
    rfl
  have hreversed : (msgs.map fun msg => msg.bytes.reverse) =
      (msgs.map ByteMessage.bytes).map List.reverse := by
    rw [List.map_map]
    rfl
  obtain ⟨hleft, hright⟩ := longestCommonPrefix_bytes settings sep hbytes
  rw [longestCommonPrefixes, hstrings, suffixLength, hreversed]
  exact (bind_ok hleft _).trans (bind_ok hright _)

/-- No message is shorter than what is constant at either end. -/
theorem prefixLength_le (settings : Settings) (hmsg : msg ∈ msgs) :
    prefixLength settings msgs ≤ msg.bytes.length :=
  (constantLength_le settings).trans (commonLength_le (List.mem_map_of_mem hmsg))

theorem suffixLength_le (settings : Settings) (hmsg : msg ∈ msgs) :
    suffixLength settings msgs ≤ msg.bytes.length := by
  refine (constantLength_le settings).trans ((commonLength_le (List.mem_map_of_mem hmsg)).trans ?_)
  rw [List.length_reverse]

/-- What is constant has room in a string. -/
theorem constant_fits (settings : Settings) (hne : msgs ≠ []) :
    3 * prefixLength settings msgs ≤ 2 ^ 31 ∧ 3 * suffixLength settings msgs ≤ 2 ^ 31 := by
  obtain ⟨msg, hmsg⟩ := List.exists_mem_of_ne_nil msgs hne
  have hstarts := prefixLength_le settings hmsg
  have hsuffix := suffixLength_le settings hmsg
  have hfits := msg.fits
  omega

/-- The messages begin with the same bytes. -/
theorem take_prefixLength (settings : Settings) {msg' : ByteMessage} (hmsg : msg ∈ msgs)
    (hmsg' : msg' ∈ msgs) :
    msg.bytes.take (prefixLength settings msgs) = msg'.bytes.take (prefixLength settings msgs) :=
  take_commonLength (List.mem_map_of_mem hmsg) (List.mem_map_of_mem hmsg') (constantLength_le settings)

/-- They end with the same bytes. -/
theorem drop_suffixLength (settings : Settings) {msg' : ByteMessage} (hmsg : msg ∈ msgs)
    (hmsg' : msg' ∈ msgs) :
    msg.bytes.drop (msg.bytes.length - suffixLength settings msgs) =
      msg'.bytes.drop (msg'.bytes.length - suffixLength settings msgs) := by
  have hreversed {m : ByteMessage} (hm : m ∈ msgs) :
      m.bytes.reverse ∈ msgs.map fun msg => msg.bytes.reverse := List.mem_map.mpr ⟨m, hm, rfl⟩
  have hsame := take_commonLength (hreversed hmsg) (hreversed hmsg') (constantLength_le settings)
  rw [← suffixLength, List.take_reverse, List.take_reverse] at hsame
  exact List.reverse_injective hsame

end ApduPlay.ConstantBytes
