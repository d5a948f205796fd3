import ApduPlay.HexStrings
import ApduPlay.IniFile
import ApduPlay.ReaderNames
import ApduPlay.RuleSections
import ApduPlay.SeparatedNames

/-!
# Settings in the rules file

`LoadRules` from the text of the file on: the settings of the library in the
section WINSCARD, those of the remote proxy in the section REMOTE, and rules in
the others. What is set at the end is told by the last line for each key.
-/

namespace ApduPlay.LoadedSettings

open ApduRules HexStrings IniFile IniLines IniSections KeyedLists RuleFile SeparatedArray TextNumbers
open SeparatedNames (virtualReadersSeparator)

/-- `WINSCARD_CONFIG` -/
structure WinscardConfig where
  /-- `bAUTO_REQUEST_DATA` -/
  autoRequestData : Bool
  /-- `bFORCE_CONNECT_SHARED_MODE` -/
  forceConnectSharedMode : Bool
  /-- `bFORCE_APDU_NONZERO_INPUT_DATA` -/
  forceApduNonzeroInputData : Bool
  /-- `bLOG_EXCHANGED_APDU` -/
  logExchangedApdu : Bool
  /-- `sLOG_BASE_PATH` -/
  logBasePath : Text
  /-- `bMODIFY_APDU_BY_RULES` -/
  modifyApduByRules : Bool
  /-- `sREADER_ORDERED_FIRST` -/
  readerOrderedFirst : Text
  /-- `sVIRTUAL_READERS_STATIC` -/
  virtualReadersStatic : Text
  /-- `listVIRTUAL_READERS_STATIC` -/
  listVirtualReadersStatic : List Text
  /-- `listVIRTUAL_READERS` -/
  listVirtualReaders : List Text
  deriving DecidableEq, Repr

/-- `WINSCARD_CONFIG::clear`, for a build with the logging of traffic or without it. -/
def WinscardConfig.cleared (trafficLogging : Bool) : WinscardConfig :=
  ⟨false, false, false, trafficLogging, [], trafficLogging, [], [], [], []⟩

/-- The settings in `REMOTE_CONFIG`. -/
structure RemoteSettings where
  /-- `bRedirect` -/
  redirect : Bool
  /-- `bOpenSocketForEveryCommand` -/
  openSocketForEveryCommand : Bool
  /-- `remoteReaderPrefix` -/
  remoteReaderPrefix : Text
  /-- `IP` -/
  ip : Text
  /-- `port` -/
  port : Text
  /-- `measureApdu` -/
  measureApdu : List UInt8
  /-- `measureApduLen` -/
  measureApduLen : UInt8
  /-- `measureApduByteCounter` -/
  measureApduByteCounter : ℤ
  /-- `measureApduByteDelay` -/
  measureApduByteDelay : ℤ
  /-- `readRatio` -/
  readRatio : ℤ
  /-- `numSamples` -/
  numSamples : UInt32
  deriving DecidableEq, Repr

/-- `REMOTE_CONFIG::clear` -/
def RemoteSettings.cleared : RemoteSettings :=
  ⟨false, false, ascii "Simona", [], [], List.replicate 255 0, 0, 0, 0, 1, 1000⟩

/-- What `LoadRules` changes. -/
structure App where
  /-- `m_winscardConfig` -/
  winscardConfig : WinscardConfig
  /-- `m_remoteConfig` -/
  remoteConfig : RemoteSettings
  /-- `rulesList` -/
  rulesList : List ApduRule
  /-- `m_bRulesActive` -/
  bRulesActive : Bool

/-- The key is put together in a buffer of 256 characters. -/
def secAndKey (sectionName valueName : Text) : Except Fault Text :=
  if sectionName.length + valueName.length < 256 then .ok (sectionName ++ valueName) else .error .outOfBounds

/-- The number for the first character of a text. -/
def booleanOf (text : Text) (notfound : ℤ) : ℤ :=
  match text with
  | [] => notfound
  | c :: _ =>
    if c ∈ ascii "yY1tT" then 1
    else if c ∈ ascii "nN0fF" then 0
    else notfound

/-- `iniparser_getboolean` -/
def iniparserGetboolean (dict : Dictionary) (key : Text) (notfound : ℤ) : Except Fault ℤ :=
  match dict.entries.find? fun e => e.1 == key.map toLower with
  | none => .ok notfound
  | some (_, none) => .error .nullPointer
  | some (_, some c) => .ok (booleanOf c notfound)

/-- A setting that is true or false. -/
def loadBoolean (dict : Dictionary) (sectionName valueName : Text) (old : Bool) : Except Fault Bool := do
  let key ← secAndKey sectionName valueName
  let value ← iniparserGetboolean dict key 2
  return if value ≠ 2 then value ≠ 0 else old

/-- A setting that is a text. -/
def loadText (dict : Dictionary) (sectionName valueName : Text) (old : Text) : Except Fault Text := do
  let charValue ← dict.value sectionName valueName
  return if charValue ≠ [] then charValue else old

/-- The names of virtual readers, if there are some. -/
def loadVirtualReaders (dict : Dictionary) (sectionName : Text) (cfg : WinscardConfig) :
    Except Fault WinscardConfig := do
  let charValue ← dict.value sectionName (ascii ":VIRTUAL_READERS")
  if charValue ≠ [] then
    let readers ← stringParseSeparatedArray virtualReadersSeparator (charValue ++ [0]) charValue.length
    return { cfg with
      virtualReadersStatic := charValue, listVirtualReadersStatic := readers, listVirtualReaders := readers }
  else return cfg

/-- The settings in the section WINSCARD. -/
def loadWinscard (dict : Dictionary) (sectionName : Text) (cfg : WinscardConfig) :
    Except Fault WinscardConfig := do
  let autoRequestData ← loadBoolean dict sectionName (ascii ":AUTO_REQUEST_DATA") cfg.autoRequestData
  let forceConnectSharedMode ←
    loadBoolean dict sectionName (ascii ":FORCE_CONNECT_SHARED_MODE") cfg.forceConnectSharedMode
  let forceApduNonzeroInputData ←
    loadBoolean dict sectionName (ascii ":FORCE_APDU_NONZERO_INPUT_DATA") cfg.forceApduNonzeroInputData
  let logExchangedApdu ← loadBoolean dict sectionName (ascii ":LOG_EXCHANGED_APDU") cfg.logExchangedApdu
  let logBasePath ← loadText dict sectionName (ascii ":LOG_BASE_PATH") cfg.logBasePath
  let modifyApduByRules ← loadBoolean dict sectionName (ascii ":MODIFY_APDU_BY_RULES") cfg.modifyApduByRules
  let readerOrderedFirst ← loadText dict sectionName (ascii ":READER_ORDERED_FIRST") cfg.readerOrderedFirst
  loadVirtualReaders dict sectionName { cfg with
    autoRequestData := autoRequestData, forceConnectSharedMode := forceConnectSharedMode,
    forceApduNonzeroInputData := forceApduNonzeroInputData, logExchangedApdu := logExchangedApdu,
    logBasePath := logBasePath, modifyApduByRules := modifyApduByRules,
    readerOrderedFirst := readerOrderedFirst }

/-- The APDU that is measured. Its length is a `BYTE`, which keeps the size of the
array if more bytes are given. -/
def loadMeasureApdu (dict : Dictionary) (sectionName : Text) (cfg : RemoteSettings) :
    Except Fault RemoteSettings := do
  let charValue ← dict.value sectionName (ascii ":MEASURE_APDU")
  if charValue ≠ [] then
    let read ← byteConvertFromHexStringToArray charValue cfg.measureApdu 255
    return { cfg with
      measureApdu := read.2.1, measureApduLen := if read.2.2 > 0xFF then 255 else read.2.2.toUInt8 }
  else return cfg

/-- The settings in the section REMOTE. -/
def loadRemote (dict : Dictionary) (sectionName : Text) (cfg : RemoteSettings) :
    Except Fault RemoteSettings := do
  let redirect ← loadBoolean dict sectionName (ascii ":REDIRECT") cfg.redirect
  let openSocketForEveryCommand ←
    loadBoolean dict sectionName (ascii ":NEW_SOCKET_PER_COMMAND") cfg.openSocketForEveryCommand
  let remoteReaderPrefix ← loadText dict sectionName (ascii ":REMOTE_READER_PREFIX") cfg.remoteReaderPrefix
  let ip ← loadText dict sectionName (ascii ":IP") cfg.ip
  let port ← loadText dict sectionName (ascii ":PORT") cfg.port
  let cfg ← loadMeasureApdu dict sectionName cfg
  let measureApduByteCounter ←
    dict.intValue sectionName (ascii ":MEASURE_BYTE_COUNTER") cfg.measureApduByteCounter
  let measureApduByteDelay ← dict.intValue sectionName (ascii ":MEASURE_BYTE_DELAY") cfg.measureApduByteDelay
  let readRatio ← dict.intValue sectionName (ascii ":READ_RATIO") cfg.readRatio
  let numSamples ← dict.intValue sectionName (ascii ":NUM_SAMPLES") cfg.numSamples.toNat
  return { cfg with
    redirect := redirect, openSocketForEveryCommand := openSocketForEveryCommand,
    remoteReaderPrefix := remoteReaderPrefix, ip := ip, port := port,
    measureApduByteCounter := measureApduByteCounter, measureApduByteDelay := measureApduByteDelay,
    readRatio := readRatio, numSamples := UInt32.ofInt numSamples }

/-- What a section of a certain name loads. -/
def loadNamed {α : Type} (sectionName keyword : Text) (load : α → Except Fault α) (cfg : α) :
    Except Fault α :=
  if compareWithNoCase sectionName keyword then load cfg else .ok cfg

/-- `LoadRule` for one section. -/
def loadSection (dict : Dictionary) (memory : Text → ℤ) (app : App) (sectionName : Text) :
    Except Fault App := do
  let winscardConfig ← loadNamed sectionName (ascii "WINSCARD") (loadWinscard dict sectionName)
    app.winscardConfig
  let remoteConfig ← loadNamed sectionName (ascii "REMOTE") (loadRemote dict sectionName) app.remoteConfig
  let rule ← loadRule dict (memory sectionName) sectionName
  return ⟨winscardConfig, remoteConfig, app.rulesList ++ rule.toList, app.bRulesActive⟩

/-- The loop of `LoadRules`. The dictionary is a null pointer if the file could not
be loaded, and then it has no sections. -/
def loadSections (dict : Option Dictionary) (memory : Text → ℤ) (app : App) : Except Fault App :=
  match dict with
  | none => .ok app
  | some dict => dict.sections.foldlM (loadSection dict memory) app

/-- `LoadRules`, when the file opens. -/
def loadRules (dict : Option Dictionary) (memory : Text → ℤ) (app : App) : Except Fault App := do
  let app ← loadSections dict memory app
  return { app with bRulesActive := true }

/-- The arrays as the functions that load rules see them. -/
def loaderDictionary (d : IniDictionary.Dictionary) : Option Dictionary :=
  let entries := d.slots.filterMap IniDictionary.Slot.entry
  if h : ∀ e ∈ entries, e.2 ≠ none → 58 ∈ e.1 then some ⟨entries, h⟩ else none

/-- `LoadRules` from the text of the file on. -/
def loadRulesFile (file : Text) (memory : Text → ℤ) (app : App) : Except Fault App := do
  let dict ← iniparserLoad (some file)
  loadRules (dict.bind loaderDictionary) memory app

/-- The value of a key in the last line that sets it. -/
def lastValue (sets : List (Text × Option Text)) (key : Text) : Option Text :=
  (sets.reverse.find? fun e => e.1 = key).bind Prod.snd

/-- What lines say about a setting that is true or false. -/
def booleanSetting (sets : List (Text × Option Text)) (key : Text) (old : Bool) : Bool :=
  let value := booleanOf ((lastValue sets key).getD []) 2
  if value ≠ 2 then value ≠ 0 else old

/-- What lines say about a setting that is a text. -/
def textSetting (sets : List (Text × Option Text)) (key old : Text) : Text :=
  let value := (lastValue sets key).getD []
  if value ≠ [] then value else old

/-- What lines say about a setting that is a number. -/
def numberSetting (sets : List (Text × Option Text)) (key : Text) (old : ℤ) : ℤ :=
  let value := (lastValue sets key).getD []
  if value ≠ [] then strtol 10 value else old

/-- Names separated by bars, up to two bars in a row. -/
def barNames (text : Text) : List Text :=
  match text.splitOn 124 with
  | [] => []
  | name :: names => (if name = [] then [] else [name]) ++ names.takeWhile (· ≠ [])

/-- What lines say about the settings of the library. -/
def winscardOf (sets : List (Text × Option Text)) (cfg : WinscardConfig) : WinscardConfig :=
  let readers := (lastValue sets (ascii "winscard:virtual_readers")).getD []
  { autoRequestData := booleanSetting sets (ascii "winscard:auto_request_data") cfg.autoRequestData
    forceConnectSharedMode :=
      booleanSetting sets (ascii "winscard:force_connect_shared_mode") cfg.forceConnectSharedMode
    forceApduNonzeroInputData :=
      booleanSetting sets (ascii "winscard:force_apdu_nonzero_input_data") cfg.forceApduNonzeroInputData
    logExchangedApdu := booleanSetting sets (ascii "winscard:log_exchanged_apdu") cfg.logExchangedApdu
    logBasePath := textSetting sets (ascii "winscard:log_base_path") cfg.logBasePath
    modifyApduByRules := booleanSetting sets (ascii "winscard:modify_apdu_by_rules") cfg.modifyApduByRules
    readerOrderedFirst := textSetting sets (ascii "winscard:reader_ordered_first") cfg.readerOrderedFirst
    virtualReadersStatic := if readers ≠ [] then readers else cfg.virtualReadersStatic
    listVirtualReadersStatic := if readers ≠ [] then barNames readers else cfg.listVirtualReadersStatic
    listVirtualReaders := if readers ≠ [] then barNames readers else cfg.listVirtualReaders }

/-- What lines say about the settings of the remote proxy. -/
def remoteOf (sets : List (Text × Option Text)) (cfg : RemoteSettings) : RemoteSettings :=
  let bytes := byteConvertFromHexString ((lastValue sets (ascii "remote:measure_apdu")).getD [])
  { redirect := booleanSetting sets (ascii "remote:redirect") cfg.redirect
    openSocketForEveryCommand :=
      booleanSetting sets (ascii "remote:new_socket_per_command") cfg.openSocketForEveryCommand
    remoteReaderPrefix := textSetting sets (ascii "remote:remote_reader_prefix") cfg.remoteReaderPrefix
    ip := textSetting sets (ascii "remote:ip") cfg.ip
    port := textSetting sets (ascii "remote:port") cfg.port
    measureApdu :=
      if bytes.length ≤ 255 then bytes ++ cfg.measureApdu.drop bytes.length else cfg.measureApdu
    measureApduLen :=
      if (lastValue sets (ascii "remote:measure_apdu")).getD [] = [] then cfg.measureApduLen
      else if UInt32.ofNat bytes.length > 0xFF then 255
      else (UInt32.ofNat bytes.length).toUInt8
    measureApduByteCounter :=
      numberSetting sets (ascii "remote:measure_byte_counter") cfg.measureApduByteCounter
    measureApduByteDelay := numberSetting sets (ascii "remote:measure_byte_delay") cfg.measureApduByteDelay
    readRatio := numberSetting sets (ascii "remote:read_ratio") cfg.readRatio
    numSamples := UInt32.ofInt (numberSetting sets (ascii "remote:num_samples") cfg.numSamples.toNat) }

section

variable {sets : List (Text × Option Text)} {dict : Dictionary} {sectionName valueName key name : Text}
  {memory : Text → ℤ} {app app' : App} {names : List Text}

/-- The text that a name of a section and a name of a value stand for. -/
theorem getString_eq (hdict : dict.entries = setEntries sets)
    {text : Text} (hvalue : dict.getString key = some text) :
    (lastValue sets (key.map toLower)).getD [] = text := by
  have hfind := find?_setEntries sets (key.map toLower)
  rw [Dictionary.getString, hdict] at hvalue
  simp only [beq_eq_decide] at hvalue
  rw [hfind] at hvalue
  rw [lastValue]
  cases hlast : sets.reverse.find? fun e => e.1 = key.map toLower with
  | none =>
    rw [hlast] at hvalue
    exact Option.some.inj hvalue
  | some e =>
    rw [hlast] at hvalue
    dsimp only at hvalue
    rw [Option.bind_some, hvalue]
    rfl

/-- A text is what the last line for its key says. -/
theorem loadText_eq (hdict : dict.entries = setEntries sets)
    {old new : Text} (h : loadText dict sectionName valueName old = .ok new) :
    new = textSetting sets ((sectionName ++ valueName).map toLower) old := by
  obtain ⟨text, htext, hnew⟩ := Fault.of_bind_ok h
  rw [textSetting, getString_eq hdict (RuleSections.value_ok_iff.mp htext).2]
  exact (Except.ok.inj hnew).symm

/-- So is a number. -/
theorem intValue_eq (hdict : dict.entries = setEntries sets)
    {old new : ℤ} (h : dict.intValue sectionName valueName old = .ok new) :
    new = numberSetting sets ((sectionName ++ valueName).map toLower) old := by
  obtain ⟨text, htext, hnew⟩ := Fault.of_bind_ok h
  rw [numberSetting, getString_eq hdict (RuleSections.value_ok_iff.mp htext).2]
  exact (Except.ok.inj hnew).symm

/-- So is a setting that is true or false. -/
theorem loadBoolean_eq (hdict : dict.entries = setEntries sets) {old new : Bool}
    (h : loadBoolean dict sectionName valueName old = .ok new) :
    new = booleanSetting sets ((sectionName ++ valueName).map toLower) old := by
  obtain ⟨key', hkey', h⟩ := Fault.of_bind_ok h
  obtain ⟨value, hvalue, hnew⟩ := Fault.of_bind_ok h
  have hsame : key' = sectionName ++ valueName := by
    unfold secAndKey at hkey'
    split_ifs at hkey'
    exact (Except.ok.inj hkey').symm
  have hboolean : value = booleanOf
    ((lastValue sets ((sectionName ++ valueName).map toLower)).getD []) 2 := by
    have hfind := find?_setEntries sets ((sectionName ++ valueName).map toLower)
    rw [iniparserGetboolean, hsame, hdict] at hvalue
    simp only [beq_eq_decide] at hvalue
    rw [hfind] at hvalue
    rw [lastValue]
    cases hlast : sets.reverse.find? fun e => e.1 = (sectionName ++ valueName).map toLower with
    | none =>
      rw [hlast] at hvalue
      exact (Except.ok.inj hvalue).symm
    | some e =>
      obtain ⟨k, v⟩ := e
      rw [hlast] at hvalue
      cases v with
      | none => cases hvalue
      | some text => exact (Except.ok.inj hvalue).symm
  rw [booleanSetting, ← hboolean]
  exact (Except.ok.inj hnew).symm

/-- What the loop over the names does to a text that ends at the size. -/
theorem parseFrom_eq {size : ℕ} (hsize : 0 < size) (text item : Text) (items : List Text) (pos : ℕ)
    (hpos : pos + text.length = size) :
    parseFrom (124 : UInt8) size (text ++ [0]) pos item items =
      .ok (items ++ match (text.splitOn 124).modifyHead (item ++ ·) with
        | [] => []
        | name :: names => (if name = [] then [] else [name]) ++ names.takeWhile (· ≠ [])) := by
  have hpush (items : List Text) (item : Text) :
    pushItem items item = items ++ if item = [] then [] else [item] := by
    rw [pushItem]
    cases item <;> simp
  induction text generalizing item items pos with
  | nil =>
    have hend : ¬ pos ≤ size - 1 := by
      rw [List.length_nil] at hpos
      omega
    rw [List.nil_append, parseFrom, if_pos (by decide), if_neg hend, hpush, List.splitOn_nil]
    simp
  | cons c text ih =>
    have hnext : pos + 1 + text.length = size := by
      rw [List.length_cons] at hpos
      omega
    have hin : pos ≤ size - 1 := by omega
    rw [List.cons_append, parseFrom]
    by_cases hc : c = 124
    · rw [if_neg (not_not.mpr hc), hc, List.splitOn_cons_eq_if_modifyHead, if_pos (by decide),
        List.modifyHead_cons,
        List.append_nil]
      cases text with
      | nil =>
        have hzero : (0 : UInt8) ≠ 124 ∧ pos ≤ size - 1 := ⟨by decide, hin⟩
        rw [List.nil_append, List.head?_cons]
        dsimp only
        rw [if_pos hzero]
        have hrest := ih [] (pushItem items item) (pos + 1) hnext
        rw [List.nil_append] at hrest
        rw [hrest, hpush, List.splitOn_nil]
        simp
      | cons d text =>
        rw [List.cons_append, List.head?_cons]
        dsimp only
        by_cases hd : d = 124
        · rw [if_neg fun h => h.1 hd, hpush, hd]
          simp [List.splitOn_cons_eq_if_modifyHead]
        · rw [if_pos ⟨hd, hin⟩]
          have hrest := ih [] (pushItem items item) (pos + 1) hnext
          rw [List.cons_append] at hrest
          rw [hrest, hpush]
          obtain ⟨name, names, hnames⟩ := List.exists_cons_of_ne_nil (List.splitOn_ne_nil 124 text)
          simp [List.splitOn_cons_eq_if_modifyHead, hd, hnames]
    · rw [if_pos hc, if_pos hin, ih _ _ _ hnext]
      obtain ⟨name, names, hnames⟩ := List.exists_cons_of_ne_nil (List.splitOn_ne_nil 124 text)
      simp [List.splitOn_cons_eq_if_modifyHead, hc, hnames]

/-- The list of names is read up to two bars in a row. -/
theorem stringParseSeparatedArray_eq {text : Text} (htext : text ≠ []) (hshort : text.length < asciilinesz) :
    stringParseSeparatedArray virtualReadersSeparator (text ++ [0]) text.length = .ok (barNames text) := by
  have hpos := List.length_pos_iff.mpr htext
  have hbound : asciilinesz = 1024 := rfl
  refine stringParseSeparatedArray_of_parseFrom ?_ hpos ?_
  · rw [List.length_append, List.length_singleton]
    omega
  · rw [virtualReadersSeparator, parseFrom_eq hpos text [] [] 0 (Nat.zero_add _), barNames]
    have hhead : (text.splitOn 124).modifyHead (([] : Text) ++ ·) = text.splitOn 124 := by
      cases text.splitOn 124 <;> rfl
    rw [hhead]
    rfl

/-- No value is longer than a line. -/
theorem lastValue_short (hshort : ∀ e ∈ sets, ∀ val ∈ e.2, val.length < asciilinesz) (key : Text) :
    ((lastValue sets key).getD []).length < asciilinesz := by
  cases hlast : lastValue sets key with
  | none => exact (by decide : 0 < asciilinesz)
  | some val =>
    obtain ⟨e, hfind, he⟩ := Option.bind_eq_some_iff.mp hlast
    exact hshort e (List.mem_reverse.mp (List.mem_of_find?_eq_some hfind)) val he

/-- The virtual readers are those of the last line for them. -/
theorem loadVirtualReaders_eq (hdict : dict.entries = setEntries sets)
    (hshort : ∀ e ∈ sets, ∀ val ∈ e.2, val.length < asciilinesz) {cfg cfg' : WinscardConfig}
    (h : loadVirtualReaders dict (ascii "winscard") cfg = .ok cfg') :
    cfg' =
      let readers := (lastValue sets (ascii "winscard:virtual_readers")).getD []
      { cfg with
        virtualReadersStatic := if readers ≠ [] then readers else cfg.virtualReadersStatic
        listVirtualReadersStatic := if readers ≠ [] then barNames readers else cfg.listVirtualReadersStatic
        listVirtualReaders := if readers ≠ [] then barNames readers else cfg.listVirtualReaders } := by
  obtain ⟨readers, hreaders, h⟩ := Fault.of_bind_ok h
  have hkey : (ascii "winscard" ++ ascii ":VIRTUAL_READERS").map toLower = ascii
    "winscard:virtual_readers" := by
    decide
  have hlength := lastValue_short hshort (ascii "winscard:virtual_readers")
  rw [← hkey, getString_eq hdict (RuleSections.value_ok_iff.mp hreaders).2] at hlength ⊢
  by_cases hnil : readers = []
  · subst hnil
    exact (Except.ok.inj h).symm
  · rw [if_pos hnil] at h
    obtain ⟨names, hnames, h⟩ := Fault.of_bind_ok h
    rw [stringParseSeparatedArray_eq hnil hlength] at hnames
    cases hnames
    simp only [ne_eq, hnil, not_false_eq_true, if_true]
    exact (Except.ok.inj h).symm

/-- The settings of the library are what the last lines say. -/
theorem loadWinscard_eq (hdict : dict.entries = setEntries sets)
    (hshort : ∀ e ∈ sets, ∀ val ∈ e.2, val.length < asciilinesz) {cfg cfg' : WinscardConfig}
    (h : loadWinscard dict (ascii "winscard") cfg = .ok cfg') : cfg' = winscardOf sets cfg := by
  obtain ⟨autoRequestData, h₁, h⟩ := Fault.of_bind_ok h
  obtain ⟨forceConnectSharedMode, h₂, h⟩ := Fault.of_bind_ok h
  obtain ⟨forceApduNonzeroInputData, h₃, h⟩ := Fault.of_bind_ok h
  obtain ⟨logExchangedApdu, h₄, h⟩ := Fault.of_bind_ok h
  obtain ⟨logBasePath, h₅, h⟩ := Fault.of_bind_ok h
  obtain ⟨modifyApduByRules, h₆, h⟩ := Fault.of_bind_ok h
  obtain ⟨readerOrderedFirst, h₇, h⟩ := Fault.of_bind_ok h
  rw [loadVirtualReaders_eq hdict hshort h, winscardOf, loadBoolean_eq hdict h₁,
    loadBoolean_eq hdict h₂, loadBoolean_eq hdict h₃,
    loadBoolean_eq hdict h₄, loadText_eq hdict h₅,
    loadBoolean_eq hdict h₆, loadText_eq hdict h₇]
  rfl

/-- So is the APDU that is measured. -/
theorem loadMeasureApdu_eq (hdict : dict.entries = setEntries sets) {cfg cfg' : RemoteSettings}
    (h : loadMeasureApdu dict (ascii "remote") cfg = .ok cfg') :
    cfg' =
      let text := (lastValue sets (ascii "remote:measure_apdu")).getD []
      let bytes := byteConvertFromHexString text
      { cfg with
        measureApdu :=
          if bytes.length ≤ 255 then bytes ++ cfg.measureApdu.drop bytes.length else cfg.measureApdu
        measureApduLen :=
          if text = [] then cfg.measureApduLen
          else if UInt32.ofNat bytes.length > 0xFF then 255
          else (UInt32.ofNat bytes.length).toUInt8 } := by
  obtain ⟨text, htext, h⟩ := Fault.of_bind_ok h
  have hkey : (ascii "remote" ++ ascii ":MEASURE_APDU").map toLower = ascii "remote:measure_apdu" := by decide
  rw [← hkey, getString_eq hdict (RuleSections.value_ok_iff.mp htext).2]
  by_cases hnil : text = []
  · subst hnil
    exact (Except.ok.inj h).symm
  rw [if_pos hnil] at h
  obtain ⟨read, hread, h⟩ := Fault.of_bind_ok h
  rw [← Except.ok.inj h]
  simp only [hnil, if_false]
  by_cases hfits : (byteConvertFromHexString text).length ≤ 255
  · have hroom : (byteConvertFromHexString text).length ≤ cfg.measureApdu.length := by
      by_contra hshort
      rw [byteConvertFromHexStringToArray_error hfits (Nat.lt_of_not_le hshort)] at hread
      cases hread
    rw [byteConvertFromHexStringToArray_ok hfits hroom] at hread
    cases hread
    rw [if_pos hfits]
  · rw [byteConvertFromHexStringToArray_long (Nat.lt_of_not_le hfits)] at hread
    cases hread
    rw [if_neg hfits]

/-- So are the settings of the proxy. -/
theorem loadRemote_eq (hdict : dict.entries = setEntries sets) {cfg cfg' : RemoteSettings}
    (h : loadRemote dict (ascii "remote") cfg = .ok cfg') : cfg' = remoteOf sets cfg := by
  obtain ⟨redirect, h₁, h⟩ := Fault.of_bind_ok h
  obtain ⟨openSocketForEveryCommand, h₂, h⟩ := Fault.of_bind_ok h
  obtain ⟨remoteReaderPrefix, h₃, h⟩ := Fault.of_bind_ok h
  obtain ⟨ip, h₄, h⟩ := Fault.of_bind_ok h
  obtain ⟨port, h₅, h⟩ := Fault.of_bind_ok h
  obtain ⟨measured, h₆, h⟩ := Fault.of_bind_ok h
  obtain ⟨measureApduByteCounter, h₇, h⟩ := Fault.of_bind_ok h
  obtain ⟨measureApduByteDelay, h₈, h⟩ := Fault.of_bind_ok h
  obtain ⟨readRatio, h₉, h⟩ := Fault.of_bind_ok h
  obtain ⟨numSamples, h₁₀, h⟩ := Fault.of_bind_ok h
  have hmeasured := loadMeasureApdu_eq hdict h₆
  subst hmeasured
  rw [← Except.ok.inj h, remoteOf, loadBoolean_eq hdict h₁,
    loadBoolean_eq hdict h₂, loadText_eq hdict h₃, loadText_eq hdict h₄, loadText_eq hdict h₅,
    intValue_eq hdict h₇, intValue_eq hdict h₈, intValue_eq hdict h₉, intValue_eq hdict h₁₀]
  rfl

/-- Upper case does not matter in lower case. -/
theorem toLower_toUpper (c : UInt8) : toLower (toUpper c) = toLower c := by
  unfold toLower toUpper
  simp only [UInt8.le_iff_toNat_le, ← UInt8.toNat_inj]
  split_ifs <;> simp_all [UInt8.toNat_sub] <;> omega

/-- A name in lower case is compared as it is. -/
theorem compareWithNoCase_lower (hname : name.map toLower = name) (keyword : Text) :
    compareWithNoCase name keyword = true ↔ name = keyword.map toLower := by
  rw [compareWithNoCase, beq_iff_eq]
  have hlower (text : Text) : (text.map toUpper).map toLower = text.map toLower := by
    rw [List.map_map]
    exact List.map_congr_left fun c _ => toLower_toUpper c
  have hupper (c : UInt8) : toUpper (toLower c) = toUpper c := by
    unfold toLower toUpper
    simp only [UInt8.le_iff_toNat_le, ← UInt8.toNat_inj]
    split_ifs <;> simp_all <;> omega
  constructor
  · intro h
    rw [← hname, ← hlower, h, hlower]
  · rintro rfl
    rw [List.map_map]
    exact List.map_congr_left fun c _ => hupper c

/-- What the loader makes of some sections. -/
structure Loads (dict : Dictionary) (memory : Text → ℤ) (names : List Text) (app app' : App) : Prop where
  /-- The settings of the library are loaded if their section is there. -/
  winscard : if ascii "winscard" ∈ names then
      loadWinscard dict (ascii "winscard") app.winscardConfig = .ok app'.winscardConfig
    else app'.winscardConfig = app.winscardConfig
  /-- So are those of the proxy. -/
  remote : if ascii "remote" ∈ names then
      loadRemote dict (ascii "remote") app.remoteConfig = .ok app'.remoteConfig
    else app'.remoteConfig = app.remoteConfig
  /-- A rule is loaded for each section of rules. -/
  rules : ∃ rules, app'.rulesList = app.rulesList ++ rules ∧
    List.Forall₂ (fun name rule => loadRule dict (memory name) name = .ok (some rule))
      (names.filter isRuleSection) rules
  /-- Loading is not finished. -/
  active : app'.bRulesActive = app.bRulesActive

/-- Settings are loaded by the only section of their name. -/
theorem loaded_cons {α : Type} {keyword word first : Text} {load : Text → α → Except Fault α} {a a₁ a' : α}
    (hname : first.map toLower = first) (hfirst : first ∉ names) (hword : keyword.map toLower = word)
    (hstep : loadNamed first keyword (load first) a = .ok a₁)
    (hrest : if word ∈ names then load word a₁ = .ok a' else a' = a₁) :
    if word ∈ first :: names then load word a = .ok a' else a' = a := by
  have hcompare := compareWithNoCase_lower hname keyword
  rw [hword] at hcompare
  unfold loadNamed at hstep
  by_cases hsame : first = word
  · rw [if_pos (hcompare.mpr hsame)] at hstep
    rw [← hsame] at hrest ⊢
    rw [if_neg hfirst] at hrest
    rw [if_pos List.mem_cons_self, hrest]
    exact hstep
  · rw [if_neg (mt hcompare.mp hsame)] at hstep
    cases hstep
    have hmem : word ∈ first :: names ↔ word ∈ names := by
      rw [List.mem_cons]
      exact or_iff_right (Ne.symm hsame)
    simpa only [hmem] using hrest

/-- A section of rules gives a rule. -/
theorem loadRule_some (hname : isRuleSection name = true) {direction : ℤ} {rule : Option ApduRule}
    (h : loadRule dict direction name = .ok rule) : ∃ r, rule = some r := by
  rw [loadRule, if_pos hname] at h
  obtain ⟨usage, -, h⟩ := Fault.of_bind_ok h
  obtain ⟨direction, -, h⟩ := Fault.of_bind_ok h
  obtain ⟨msDelay, -, h⟩ := Fault.of_bind_ok h
  obtain ⟨charValue, -, h⟩ := Fault.of_bind_ok h
  obtain ⟨st, -, h⟩ := Fault.of_bind_ok h
  obtain ⟨actionRules, -, h⟩ := Fault.of_bind_ok h
  exact ⟨_, (Except.ok.inj h).symm⟩

/-- The sections are loaded one after the other, each of them once. -/
theorem loads_sections (hnodup : names.Nodup) (hlower : ∀ name ∈ names, name.map toLower = name)
    (h : names.foldlM (loadSection dict memory) app = .ok app') : Loads dict memory names app app' := by
  induction names generalizing app with
  | nil =>
    cases h
    exact ⟨rfl, rfl, ⟨[], (List.append_nil _).symm, .nil⟩, rfl⟩
  | cons first names ih =>
    obtain ⟨hfirst, hnodup⟩ := List.nodup_cons.mp hnodup
    obtain ⟨hname, hlower⟩ := List.forall_mem_cons.mp hlower
    rw [List.foldlM_cons] at h
    obtain ⟨app₁, hstep, hrest⟩ := Fault.of_bind_ok h
    have hloads := ih hnodup hlower hrest
    rw [loadSection] at hstep
    obtain ⟨winscardConfig, hwinscard, hstep⟩ := Fault.of_bind_ok hstep
    obtain ⟨remoteConfig, hremote, hstep⟩ := Fault.of_bind_ok hstep
    obtain ⟨rule, hrule, hstep⟩ := Fault.of_bind_ok hstep
    obtain rfl := Except.ok.inj hstep
    refine ⟨loaded_cons hname hfirst (by decide) hwinscard hloads.winscard,
      loaded_cons hname hfirst (by decide) hremote hloads.remote, ?_, hloads.active⟩
    obtain ⟨rules, hrules, hforall⟩ := hloads.rules
    rw [List.append_assoc] at hrules
    rw [List.filter_cons]
    by_cases hrulesection : isRuleSection first = true
    · obtain ⟨r, rfl⟩ := loadRule_some hrulesection hrule
      rw [if_pos hrulesection]
      exact ⟨_, hrules, .cons hrule hforall⟩
    · rw [loadRule, if_neg hrulesection] at hrule
      cases hrule
      rw [if_neg hrulesection]
      exact ⟨_, hrules, hforall⟩

/-- What is known about the keys that a file sets. -/
def FileKeys (sets : List (Text × Option Text)) : Prop :=
  ∀ e ∈ sets, e.1.map toLower = e.1 ∧
    (e.2 ≠ none → ∃ name key, e.1 = name ++ 58 :: key ∧ (name = [] ∨ (name, none) ∈ sets))

/-- Only a section that is there has values. -/
theorem lastValue_eq_none (hsets : FileKeys sets) {word valueName : Text} (hword : word ≠ [])
    (hcolon : 58 ∉ word)
    (hvalueName : 58 ∉ valueName) (habsent : word ∉ sectionNames sets) :
    lastValue sets (word ++ 58 :: valueName) = none := by
  by_contra hsome
  obtain ⟨text, htext⟩ := Option.ne_none_iff_exists'.mp hsome
  obtain ⟨e, hfind, he⟩ := Option.bind_eq_some_iff.mp htext
  have hmem : e ∈ sets := List.mem_reverse.mp (List.mem_of_find?_eq_some hfind)
  have hkey : e.1 = word ++ 58 :: valueName := by simpa using List.find?_some hfind
  obtain ⟨name, key, hsplit, hname⟩ := (hsets e hmem).2 (by rw [he]; exact Option.some_ne_none text)
  rw [hkey] at hsplit
  have hcount := congrArg (List.count 58) hsplit
  rw [List.count_append, List.count_append, List.count_cons_self, List.count_cons_self,
    List.count_eq_zero_of_not_mem hcolon, List.count_eq_zero_of_not_mem hvalueName] at hcount
  have hnone : 58 ∉ name := List.count_eq_zero.mp (by omega)
  obtain ⟨rfl, -⟩ := TextSearch.append_cons_inj hcolon hnone hsplit
  have hheader := hname.resolve_left hword
  refine habsent (List.mem_filter.mpr ⟨List.mem_eraseDups.mpr (List.mem_map_of_mem hheader), ?_⟩)
  simpa [isSecname] using hcolon

/-- Without a value a setting stays as it is. -/
theorem booleanSetting_none (h : lastValue sets key = none) (old : Bool) :
    booleanSetting sets key old = old := by
  rw [booleanSetting, h]
  rfl

/-- So does a text. -/
theorem textSetting_none (h : lastValue sets key = none) (old : Text) : textSetting sets key old = old := by
  rw [textSetting, h]
  rfl

/-- So does a number. -/
theorem numberSetting_none (h : lastValue sets key = none) (old : ℤ) : numberSetting sets key old = old := by
  rw [numberSetting, h]
  rfl

/-- Without its section the settings of the library stay as they are. -/
theorem winscardOf_absent (hsets : FileKeys sets) (habsent : ascii "winscard" ∉ sectionNames sets)
    (cfg : WinscardConfig) : winscardOf sets cfg = cfg := by
  have hnone (valueName : Text) (h : 58 ∉ valueName) :
    lastValue sets (ascii "winscard" ++ 58 :: valueName) = none :=
    lastValue_eq_none hsets (by decide) (by decide) h habsent
  have h₁ : lastValue sets (ascii "winscard:auto_request_data") = none :=
    hnone (ascii "auto_request_data") (by decide)
  have h₂ : lastValue sets (ascii "winscard:force_connect_shared_mode") = none :=
    hnone (ascii "force_connect_shared_mode") (by decide)
  have h₃ : lastValue sets (ascii "winscard:force_apdu_nonzero_input_data") = none :=
    hnone (ascii "force_apdu_nonzero_input_data") (by decide)
  have h₄ : lastValue sets (ascii "winscard:log_exchanged_apdu") = none :=
    hnone (ascii "log_exchanged_apdu") (by decide)
  have h₅ : lastValue sets (ascii "winscard:log_base_path") = none :=
    hnone (ascii "log_base_path") (by decide)
  have h₆ : lastValue sets (ascii "winscard:modify_apdu_by_rules") = none :=
    hnone (ascii "modify_apdu_by_rules") (by decide)
  have h₇ : lastValue sets (ascii "winscard:reader_ordered_first") = none :=
    hnone (ascii "reader_ordered_first") (by decide)
  have h₈ : lastValue sets (ascii "winscard:virtual_readers") = none :=
    hnone (ascii "virtual_readers") (by decide)
  rw [winscardOf, booleanSetting_none h₁, booleanSetting_none h₂, booleanSetting_none h₃,
    booleanSetting_none h₄,
    textSetting_none h₅, booleanSetting_none h₆, textSetting_none h₇, h₈]
  rfl

/-- Without its section the settings of the proxy stay as they are. -/
theorem remoteOf_absent (hsets : FileKeys sets) (habsent : ascii "remote" ∉ sectionNames sets)
    (cfg : RemoteSettings) : remoteOf sets cfg = cfg := by
  have hnone (valueName : Text) (h : 58 ∉ valueName) :
    lastValue sets (ascii "remote" ++ 58 :: valueName) = none :=
    lastValue_eq_none hsets (by decide) (by decide) h habsent
  have h₁ : lastValue sets (ascii "remote:redirect") = none := hnone (ascii "redirect") (by decide)
  have h₂ : lastValue sets (ascii "remote:new_socket_per_command") = none :=
    hnone (ascii "new_socket_per_command") (by decide)
  have h₃ : lastValue sets (ascii "remote:remote_reader_prefix") = none :=
    hnone (ascii "remote_reader_prefix") (by decide)
  have h₄ : lastValue sets (ascii "remote:ip") = none := hnone (ascii "ip") (by decide)
  have h₅ : lastValue sets (ascii "remote:port") = none := hnone (ascii "port") (by decide)
  have h₆ : lastValue sets (ascii "remote:measure_byte_counter") = none :=
    hnone (ascii "measure_byte_counter") (by decide)
  have h₇ : lastValue sets (ascii "remote:measure_byte_delay") = none :=
    hnone (ascii "measure_byte_delay") (by decide)
  have h₈ : lastValue sets (ascii "remote:read_ratio") = none := hnone (ascii "read_ratio") (by decide)
  have h₉ : lastValue sets (ascii "remote:num_samples") = none := hnone (ascii "num_samples") (by decide)
  have h₁₀ : lastValue sets (ascii "remote:measure_apdu") = none := hnone (ascii "measure_apdu") (by decide)
  rw [remoteOf, booleanSetting_none h₁, booleanSetting_none h₂, textSetting_none h₃, textSetting_none h₄,
    textSetting_none h₅, numberSetting_none h₆, numberSetting_none h₇, numberSetting_none h₈,
      numberSetting_none h₉,
    h₁₀]
  have hsamples : UInt32.ofInt cfg.numSamples.toNat = cfg.numSamples := by
    have hlt := cfg.numSamples.toNat_lt
    rw [UInt32.ofInt, Int.emod_eq_of_lt (by omega) (by omega), Int.toNat_natCast, UInt32.ofNat_toNat]
  rw [hsamples]
  rfl

/-- An entry was set. -/
theorem mem_of_mem_setEntries {e : Text × Option Text} (he : e ∈ setEntries sets) : e ∈ sets := by
  have hnodup : ((setEntries sets).map Prod.fst).Nodup := by
    rw [map_setEntries]
    exact nodup_eraseDups _
  cases hfind : (setEntries sets).find? fun x => x.1 = e.1 with
  | none => exact absurd (List.find?_eq_none.mp hfind e he) (by simp)
  | some x =>
    have hkey : x.1 = e.1 := by simpa using List.find?_some hfind
    obtain rfl := List.inj_on_of_nodup_map hnodup (List.mem_of_find?_eq_some hfind) he hkey
    rw [find?_setEntries] at hfind
    exact List.mem_reverse.mp (List.mem_of_find?_eq_some hfind)

/-- The loader sees what was set. -/
theorem loaderDictionary_eq (hsets : FileKeys sets) {d : IniDictionary.Dictionary}
    (hd : Packed d (setEntries sets)) :
    ∃ dict, loaderDictionary d = some dict ∧ dict.entries = setEntries sets := by
  have hentries : d.slots.filterMap IniDictionary.Slot.entry = setEntries sets := by
    obtain ⟨free, hslots⟩ := hd.slots
    have hfree : (List.replicate free IniDictionary.Slot.free).filterMap IniDictionary.Slot.entry = [] :=
      List.filterMap_eq_nil_iff.mpr fun slot hslot => by rw [List.eq_of_mem_replicate hslot]; rfl
    rw [hslots, List.filterMap_append, hfree, List.append_nil, List.filterMap_map]
    exact List.filterMap_some
  have hcolon : ∀ e ∈ d.slots.filterMap IniDictionary.Slot.entry, e.2 ≠ none → 58 ∈ e.1 := by
    intro e he hvalue
    rw [hentries] at he
    obtain ⟨name, key, hkey, -⟩ := (hsets e (mem_of_mem_setEntries he)).2 hvalue
    rw [hkey]
    exact List.mem_append_right _ List.mem_cons_self
  exact ⟨⟨_, hcolon⟩, dif_pos hcolon, hentries⟩

/-- What the keys that were set make of the settings and the rules. -/
structure LoadedFrom (sets : List (Text × Option Text)) (memory : Text → ℤ) (app app' : App) : Prop where
  /-- The settings of the library. -/
  winscardConfig : app'.winscardConfig = winscardOf sets app.winscardConfig
  /-- The settings of the proxy. -/
  remoteConfig : app'.remoteConfig = remoteOf sets app.remoteConfig
  /-- A rule for each section of rules, in the order in which the sections come first. -/
  rulesList : ∃ (dict : Dictionary) (rules : List ApduRule), dict.entries = setEntries sets ∧
    app'.rulesList = app.rulesList ++ rules ∧
    List.Forall₂ (fun name rule => loadRule dict (memory name) name = .ok (some rule))
      ((sectionNames sets).filter isRuleSection) rules
  /-- Rules are used. -/
  bRulesActive : app'.bRulesActive = true

/-- When a text file is loaded without a fault: if a line is too long or an error, then
nothing of the file is used, but rules are. Otherwise every setting of the library
and of the proxy is what the last line for its key says, or stays as it was if
none does, and each section of rules gives one rule. -/
theorem loadRulesFile_eq {file : Text} (hfile : 0 ∉ file) (hsize : file.length < 2 ^ 30)
    (h : loadRulesFile file memory app = .ok app') :
    match fileSets file with
    | none => app' = { app with bRulesActive := true }
    | some sets => LoadedFrom sets memory app app' := by
  obtain ⟨result, hresult, hrel⟩ := iniparserLoad_packed hfile hsize
  rw [loadRulesFile, Fault.bind_ok hresult] at h
  obtain ⟨loaded, hloaded, h⟩ := Fault.of_bind_ok h
  obtain rfl := Except.ok.inj h
  cases hsets : fileSets file with
  | none =>
    rw [hsets] at hrel
    cases hrel
    cases hloaded
    rfl
  | some sets =>
    rw [hsets] at hrel
    obtain ⟨hpacked, -⟩ := hrel
    rename_i d
    have hkeys : FileKeys sets := fileSets_keys hsets
    obtain ⟨dict, hdict, hentries⟩ := loaderDictionary_eq hkeys hpacked
    rw [Option.bind_some, hdict] at hloaded
    have hsections : dict.sections = sectionNames sets := by
      rw [(hpacked.loaderSees hentries).1, hpacked.slotKeys_slots, map_setEntries, sectionNames]
    rw [loadSections, hsections] at hloaded
    have hlower : ∀ name ∈ sectionNames sets, name.map toLower = name := by
      intro name hname
      obtain ⟨e, he, rfl⟩ := List.mem_map.mp (List.mem_eraseDups.mp (List.mem_filter.mp hname).1)
      exact (hkeys e he).1
    have hnodup : (sectionNames sets).Nodup := (nodup_eraseDups _).filter _
    have hloads := loads_sections hnodup hlower hloaded
    obtain ⟨rules, hrules, hforall⟩ := hloads.rules
    refine ⟨?_, ?_, ⟨dict, rules, hentries, hrules, hforall⟩, rfl⟩
    · have hwinscard := hloads.winscard
      by_cases hmem : ascii "winscard" ∈ sectionNames sets
      · rw [if_pos hmem] at hwinscard
        exact loadWinscard_eq hentries (fileSets_short hsets) hwinscard
      · rw [if_neg hmem] at hwinscard
        exact hwinscard.trans (winscardOf_absent hkeys hmem _).symm
    · have hremote := hloads.remote
      by_cases hmem : ascii "remote" ∈ sectionNames sets
      · rw [if_pos hmem] at hremote
        exact loadRemote_eq hentries hremote
      · rw [if_neg hmem] at hremote
        exact hremote.trans (remoteOf_absent hkeys hmem _).symm

end

set_option maxRecDepth 10000 in
/-- A file with one setting. -/
theorem loadRulesFile_eq_logging :
    LoadedFrom [(ascii "winscard", none), (ascii "winscard:log_exchanged_apdu", some (ascii "1"))]
      (fun _ => 0)
      ⟨.cleared false, .cleared, [], false⟩
      ⟨{ WinscardConfig.cleared false with logExchangedApdu := true }, .cleared, [], true⟩ := by
  have hloaded : loadRulesFile (ascii "[WINSCARD]\nLOG_EXCHANGED_APDU=1\n") (fun _ => 0)
      ⟨.cleared false, .cleared, [], false⟩ =
      .ok ⟨{ WinscardConfig.cleared false with logExchangedApdu := true }, .cleared, [], true⟩ := by rfl
  have hsets : fileSets (ascii "[WINSCARD]\nLOG_EXCHANGED_APDU=1\n") =
      some [(ascii "winscard", none), (ascii "winscard:log_exchanged_apdu", some (ascii "1"))] := by decide
  have h := loadRulesFile_eq (by decide) (by decide) hloaded
  rwa [hsets] at h

end ApduPlay.LoadedSettings
