import ApduPlay.Base64Loops
import ApduPlay.RemoteRequests
import ApduPlay.SeparatedNames
import ApduPlay.SerializedLists

/-!
# Names of remote readers

The proxy lists its readers in one response. An item that ends with padding is
taken for base64, so a name is decoded only if its code is padded.
-/

namespace ApduPlay.ReaderNames

open RemoteProxy RemoteRequests SeparatedArray SeparatedNames Base64 Base64Loops

/-- `NO_READER` -/
def noReader : Text := ascii "*"

/-- `CMD_READERS` -/
def cmdReaders : Text := ascii "READERS"

/-- The name that an item stands for. No item is empty. -/
def readerName (item : Text) : Except Fault Text :=
  if item.getLast? = some 61 then base64Decode item else .ok item

/-- The items of a response, which ends with a zero character. -/
def items (response : Text) : Except Fault (List Text) :=
  stringParseSeparatedArray virtualReadersSeparator (trimmed response ++ [0]) (trimmed response).length

/-- The data of the request for the readers. -/
def readersData (remoteTag : Text) : Text := cStr remoteTag ++ cmdSeparator ++ ascii "0"

/-- `Remote_ListReaders`: the status, the list afterwards, the configuration and what
was sent. The status of the request is not looked at. -/
def remoteListReaders (cfg : RemoteConfig) (remoteTag : Text) (net : Network) (pResponse : List Text) :
    Except Fault (Status × List Text × RemoteConfig × List Text) :=
  if cfg.pSocket ≠ .null then do
    let request ← cfg.remoteSendRequest net noReader cmdReaders (readersData remoteTag) []
    let remoteReaders ← items request.response
    let names ← remoteReaders.mapM readerName
    return (scardSSuccess, pResponse ++ names, request.cfg, request.sent)
  else return (scardFCommError, pResponse, cfg, [])

/-- The code of a name, whose length is counted as an `unsigned int`. -/
def code (name : Text) : Text := base64Encode name (UInt32.ofNat name.length)

/-- The answer to the readers command. -/
def encodedNames (names : List Text) : Text :=
  List.intercalate [virtualReadersSeparator] (names.map code)

variable {cfg : RemoteConfig} {remoteTag : Text} {net : Network} {request : Requested} {names : List Text}

/-- Codes have padding and characters of the alphabet. -/
theorem eq_padding_or_isBase64 {name : Text} {c : UInt8} (hc : c ∈ code name) :
    c = 61 ∨ isBase64 c = true := by
  obtain ⟨body, pad, hsplit, hbody, hpad, -⟩ :=
    encodeGroups_eq (name.take (UInt32.ofNat name.length).toNat)
  rw [code, base64Encode_eq, hsplit] at hc
  rcases List.mem_append.mp hc with hc | hc
  · obtain ⟨v, hv, rfl⟩ := hbody c hc
    have hspec := (charAt_spec hv).1
    rw [Bool.and_eq_true] at hspec
    exact Or.inr hspec.2
  · exact Or.inl (hpad c hc)

/-- Joined words have their own characters and the separator. -/
theorem mem_of_mem_intercalate {χ : Type} {separator : χ} {words : List (List χ)} {c : χ}
    (h : c ∈ List.intercalate [separator] words) :
    c = separator ∨ ∃ u ∈ words, c ∈ u := by
  induction words with
  | nil => exact absurd h List.not_mem_nil
  | cons u words ih =>
    cases words with
    | nil =>
      rw [List.intercalate_singleton] at h
      exact Or.inr ⟨u, List.mem_cons_self, h⟩
    | cons u' words =>
      rw [List.intercalate_cons_cons] at h
      rcases List.mem_append.mp h with h | h
      · rcases List.mem_append.mp h with h | h
        · exact Or.inr ⟨u, List.mem_cons_self, h⟩
        · exact Or.inl (List.mem_singleton.mp h)
      · exact (ih h).imp_right fun ⟨v, hv, hc⟩ => ⟨v, List.mem_cons_of_mem u hv, hc⟩

/-- The characters of codes are not trimmed. -/
theorem code_spec {c : UInt8} (h : c = 61 ∨ isBase64 c = true) : isBlank c = false ∧ c ≠ 124 := by
  have hall : ∀ n < 256, isBase64 (UInt8.ofNat n) = true → isBlank (UInt8.ofNat n) = false ∧
      UInt8.ofNat n ≠ 124 := by
    decide +kernel
  rcases h with rfl | h
  · decide
  · exact forall_below (P := fun c => isBase64 c = true → isBlank c = false ∧ c ≠ 124) hall c.toNat_lt h

/-- No code has a bar in it. -/
theorem separator_notMem_code (name : Text) : virtualReadersSeparator ∉ code name := fun h =>
  (code_spec (eq_padding_or_isBase64 h)).2 rfl

/-- Nothing is trimmed from the answer. -/
theorem trimmed_encodedNames (names : List Text) : trimmed (encodedNames names) = encodedNames names := by
  have hkeep : (encodedNames names).reverse.dropWhile isBlank = (encodedNames names).reverse := by
    cases hrev : (encodedNames names).reverse with
    | nil => rfl
    | cons c s =>
      have hc : isBlank c = false := by
        rcases mem_of_mem_intercalate (List.mem_reverse.mp (hrev ▸ List.mem_cons_self)) with rfl | ⟨u, hu, hc⟩
        · decide
        · obtain ⟨name, -, rfl⟩ := List.mem_map.mp hu
          exact (code_spec (eq_padding_or_isBase64 hc)).1
      exact List.dropWhile_cons_of_neg (by rw [hc]; exact Bool.false_ne_true)
  rw [trimmed, hkeep, List.reverse_reverse]

/-- Behind the last code the answer goes on like a list that is serialized. -/
theorem encodedNames_append (hsome : names ≠ []) : encodedNames names ++ [virtualReadersSeparator] =
    (names.map code).flatMap fun word => word ++ [virtualReadersSeparator] := by
  unfold encodedNames
  induction names with
  | nil => exact absurd rfl hsome
  | cons name names ih =>
    cases names with
    | nil => simp
    | cons next names =>
      rw [List.map_cons, List.map_cons, List.intercalate_cons_cons, ← List.map_cons, List.append_assoc,
        ih (List.cons_ne_nil next names), List.flatMap_cons]

/-- No position of the answer stops the loop if no code is empty. -/
theorem not_stopsAt_encodedNames (hcodes : ∀ name ∈ names, code name ≠ []) (p : ℕ) :
    ¬ StopsAt virtualReadersSeparator (encodedNames names) p := by
  rintro ⟨hp, hc, hd⟩
  have hsome : names ≠ [] := by
    rintro rfl
    cases hc
  have hwords : ∀ word ∈ names.map code, word ≠ [] ∧ virtualReadersSeparator ∉ word := by
    intro word hword
    obtain ⟨name, hname, rfl⟩ := List.mem_map.mp hword
    exact ⟨hcodes name hname, separator_notMem_code name⟩
  have hchain := SerializedLists.isChain_names hwords
  have hhead := SerializedLists.head_ne_separator hwords
  rw [← encodedNames_append hsome] at hchain hhead
  have hshort := (List.getElem?_eq_some_iff.mp hc).1
  by_cases hlast : p + 1 < 2 ^ 32
  · rw [Nat.mod_eq_of_lt hlast] at hd
    obtain ⟨hi, hc⟩ := List.getElem?_eq_some_iff.mp hc
    obtain ⟨hi', hd⟩ := List.getElem?_eq_some_iff.mp hd
    have hlength : p + 1 < (encodedNames names ++ [virtualReadersSeparator]).length := by
      rw [List.length_append]
      omega
    refine List.isChain_iff_getElem.mp hchain p hlength ?_ ?_
    · rw [List.getElem_append_left hi, hc]
    · rw [List.getElem_append_left hi', hd]
  · have hwrap : (p + 1) % 2 ^ 32 = 0 := by omega
    rw [hwrap] at hd
    refine hhead virtualReadersSeparator ?_ rfl
    rw [List.head?_eq_getElem?, List.getElem?_append_left (by omega)]
    exact hd

/-- The codes are the items of an answer exactly if it is not too long. -/
theorem items_encodedNames (hcodes : ∀ name ∈ names, code name ≠ []) :
    items (encodedNames names) =
      if (encodedNames names).length < 2 ^ 32 then .ok (names.map code) else .error .endlessLoop := by
  have hwords : ∀ word ∈ names.map code, virtualReadersSeparator ∉ word := by
    intro word hword
    obtain ⟨name, -, rfl⟩ := List.mem_map.mp hword
    exact separator_notMem_code name
  have hall : (names.map code).filter (fun word => word.length > 0) = names.map code := by
    refine List.filter_eq_self.mpr fun word hword => ?_
    obtain ⟨name, hname, rfl⟩ := List.mem_map.mp hword
    exact decide_eq_true (List.length_pos_iff.mpr (hcodes name hname))
  rw [items, trimmed_encodedNames]
  split_ifs with hlen
  · rw [parse_of_not_stopsAt (by decide) (not_stopsAt_encodedNames hcodes) hlen, encodedNames,
      segments_intercalate hwords, hall]
  · exact parse_endless (not_stopsAt_encodedNames hcodes) (Nat.le_of_not_lt hlen)

/-- If there are as many items as names, no code is empty. -/
theorem code_ne_nil_of_items {found : List Text} (h : items (encodedNames names) = .ok found)
    (hlength : found.length = names.length) : ∀ name ∈ names, code name ≠ [] := by
  have hwords : ∀ word ∈ names.map code, virtualReadersSeparator ∉ word := by
    intro word hword
    obtain ⟨name, -, rfl⟩ := List.mem_map.mp hword
    exact separator_notMem_code name
  rw [items, trimmed_encodedNames] at h
  have hle := length_parse_le (by decide) h
  rw [encodedNames, segments_intercalate hwords, hlength, ← List.length_map (f := code)] at hle
  have hall := List.length_filter_eq_length_iff.mp (Nat.le_antisymm (List.length_filter_le _ _) hle)
  intro name hname
  exact List.ne_nil_of_length_pos (of_decide_eq_true (hall (code name) (List.mem_map_of_mem hname)))

/-- The code of a name ends with padding unless its bytes come in groups of three. -/
theorem readerName_code (name : Text) : readerName (code name) =
    if 3 ∣ name.length % 2 ^ 32 then .ok (code name) else base64Decode (code name) := by
  have hlength : (name.take (UInt32.ofNat name.length).toNat).length = name.length % 2 ^ 32 := by
    rw [List.length_take, UInt32.toNat_ofNat', Nat.min_eq_left (Nat.mod_le _ _)]
  have hlast := getLast?_encodeGroups (name.take (UInt32.ofNat name.length).toNat)
  rw [← base64Encode_eq, ← code, hlength] at hlast
  by_cases hthree : 3 ∣ name.length % 2 ^ 32
  · rw [readerName, if_neg fun h => hlast.mp h hthree, if_pos hthree]
  · rw [readerName, if_pos (hlast.mpr hthree), if_neg hthree]

/-- A name is found again exactly if its code is padded and is decoded. -/
theorem readerName_code_iff {name : Text} (hne : name ≠ []) : readerName (code name) = .ok name ↔
    ¬ 3 ∣ name.length ∧ (name.length + 2) / 3 * 4 ≤ 2 ^ 31 := by
  have hpos := List.length_pos_iff.mpr hne
  rw [readerName_code]
  by_cases hlen : (name.length + 2) / 3 * 4 ≤ 2 ^ 31
  · rw [Nat.mod_eq_of_lt (show name.length < 2 ^ 32 by omega), and_iff_left hlen]
    split_ifs with hthree
    · refine iff_of_false (fun hsame => ?_) (not_not.mpr hthree)
      have hcode := congrArg List.length (Except.ok.inj hsame)
      rw [code, base64Encode_whole (by omega), length_encodeGroups] at hcode
      omega
    · exact iff_of_true (base64Decode_base64Encode hlen) hthree
  · refine iff_of_false (fun hsame => ?_) fun h => hlen h.2
    split_ifs at hsame with hthree
    · have hcode := congrArg List.length (Except.ok.inj hsame)
      have hcount : (UInt32.ofNat name.length).toNat = name.length % 2 ^ 32 := UInt32.toNat_ofNat'
      rw [code, base64Encode_eq, length_encodeGroups, List.length_take, hcount] at hcode
      omega
    · exact base64Decode_base64Encode_long (Nat.lt_of_not_le hlen) hsame

/-- A list is worked through item by item. -/
theorem mapM_ok_iff {α β : Type} (f : α → Except Fault β) (l : List α) (l' : List β) :
    l.mapM f = .ok l' ↔ List.Forall₂ (fun a b => f a = .ok b) l l' := by
  induction l generalizing l' with
  | nil => cases l' <;> simp [pure, Except.pure]
  | cons a l ih =>
    rw [List.mapM_cons, Fault.bind_eq_ok, List.forall₂_cons_left_iff]
    constructor
    · rintro ⟨b, hb, hrest⟩
      obtain ⟨l'', hl, hcons⟩ := Fault.of_bind_ok hrest
      exact ⟨b, l'', hb, (ih l'').mp hl, (Except.ok.inj hcons).symm⟩
    · rintro ⟨b, l'', hb, hl, rfl⟩
      exact ⟨b, hb, (Fault.bind_ok ((ih l'').mpr hl)).trans rfl⟩

/-- If the proxy answers with the codes of names that are not empty, the names are
appended exactly if none of them has a length that is a multiple of three, none has a
code that is too long, and the answer is not too long. -/
theorem remoteListReaders_iff (hne : ∀ name ∈ names, name ≠ []) (hsocket : cfg.pSocket ≠ .null)
    (hrequest : cfg.remoteSendRequest net noReader cmdReaders (readersData remoteTag) [] = .ok request)
    (hanswer : request.response = encodedNames names) (pResponse : List Text) :
    remoteListReaders cfg remoteTag net pResponse =
        .ok (scardSSuccess, pResponse ++ names, request.cfg, request.sent) ↔
      (∀ name ∈ names, ¬ 3 ∣ name.length ∧ (name.length + 2) / 3 * 4 ≤ 2 ^ 31) ∧
        (encodedNames names).length < 2 ^ 32 := by
  have hlist : remoteListReaders cfg remoteTag net pResponse =
      .ok (scardSSuccess, pResponse ++ names, request.cfg, request.sent) ↔
        ∃ found, items (encodedNames names) = .ok found ∧ found.mapM readerName = .ok names := by
    rw [remoteListReaders, if_pos hsocket, Fault.bind_ok hrequest, hanswer, Fault.bind_eq_ok]
    refine exists_congr fun found => and_congr_right fun _ => ?_
    rw [Fault.bind_eq_ok]
    constructor
    · rintro ⟨names', hnames, hsame⟩
      rw [hnames, (List.append_right_inj _).mp (Prod.mk.inj (Prod.mk.inj (Except.ok.inj hsame)).2).1]
    · exact fun h => ⟨names, h, rfl⟩
  have hmap : (names.map code).mapM readerName = .ok names ↔
      ∀ name ∈ names, ¬ 3 ∣ name.length ∧ (name.length + 2) / 3 * 4 ≤ 2 ^ 31 := by
    rw [mapM_ok_iff, List.forall₂_map_left_iff, List.forall₂_same]
    exact forall₂_congr fun name hname => readerName_code_iff (hne name hname)
  rw [hlist]
  constructor
  · rintro ⟨found, hfound, hnames⟩
    have hlength := ((mapM_ok_iff _ _ _).mp hnames).length_eq
    rw [items_encodedNames (code_ne_nil_of_items hfound hlength)] at hfound
    split_ifs at hfound with hlen
    · cases hfound
      exact ⟨hmap.mp hnames, hlen⟩
  · rintro ⟨hnames, hlen⟩
    have hcodes : ∀ name ∈ names, code name ≠ [] := fun name hname hnil => by
      obtain ⟨-, hshort⟩ := hnames name hname
      have hlength := congrArg List.length hnil
      have hpos := List.length_pos_iff.mpr (hne name hname)
      rw [code, base64Encode_whole (by omega), length_encodeGroups, List.length_nil] at hlength
      omega
    exact ⟨_, (items_encodedNames hcodes).trans (if_pos hlen), hmap.mpr hnames⟩

/-- The proxy answers the request with this number. -/
def readersNet (names : List Text) : Network :=
  ⟨true, 62 :: (printedID 2 ++ 58 :: (encodedNames names ++ [64, 64, 10])), List.replicate 80 .arrived⟩

/-- The line that a new session sends. -/
def readersLine : Text := remoteFormatRequest noReader 2 cmdReaders (readersData []) []
    cmdLineSeparator ++ [10]

/-- What its request comes to. -/
def readersRequested (names : List Text) : Requested :=
  ⟨scardSSuccess, encodedNames names, ⟨false, .connected [], 2⟩, [readersLine]⟩

/-- Names of four and five characters are listed. -/
theorem remoteListReaders_padded :
    remoteListReaders ⟨false, .connected [], 1⟩ [] (readersNet [ascii "Card", ascii "Token"]) [] =
      .ok (scardSSuccess, [] ++ [ascii "Card", ascii "Token"], ⟨false, .connected [], 2⟩, [readersLine]) :=
  (remoteListReaders_iff (by simp [ascii]) SocketPointer.noConfusion
    (show _ = Except.ok (readersRequested [ascii "Card", ascii "Token"]) by decide +kernel) rfl []).mpr
    ⟨by simp [ascii], by decide +kernel⟩

/-- A name of six characters is listed as its code. -/
theorem remoteListReaders_unpadded :
    (RemoteConfig.mk false (.connected []) 1).remoteSendRequest (readersNet [ascii "Reader"]) noReader
        cmdReaders (readersData []) [] = .ok (readersRequested [ascii "Reader"]) ∧
      remoteListReaders ⟨false, .connected [], 1⟩ [] (readersNet [ascii "Reader"]) [] ≠
        .ok (scardSSuccess, [] ++ [ascii "Reader"], ⟨false, .connected [], 2⟩, [readersLine]) := by
  have hrun : remoteListReaders ⟨false, .connected [], 1⟩ [] (readersNet [ascii "Reader"]) [] =
      .ok (scardSSuccess, [ascii "UmVhZGVy"], ⟨false, .connected [], 2⟩, [readersLine]) := by
    decide +kernel
  refine ⟨by decide +kernel, fun h => ?_⟩
  rw [hrun, Except.ok.injEq, Prod.mk.injEq, Prod.mk.injEq] at h
  exact absurd h.2.1 (by decide)

end ApduPlay.ReaderNames
