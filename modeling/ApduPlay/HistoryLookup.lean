import ApduPlay.ApduRules

/-!
# Looking up an APDU in the history

`GetApduFromHistory` walks an iterator to the entry that is asked for. The
walk over the incoming APDUs stops after as many steps, the one over the
outgoing APDUs never does, and the end that both are compared with is that of
the incoming list.
-/

namespace ApduPlay.HistoryLookup

open ApduRules

/-- `STAT_NOT_ENOUGHT_DATA_TYPE` -/
def statNotEnoughtDataType : Status := 20

/-- An iterator, given by the entries from its place on. -/
abbrev Place := List ApduBuffer

/-- `iter++`. Behind the last entry it is undefined. -/
def Place.next : Place → Except Fault Place
  | [] => .error .outOfBounds
  | _ :: rest => .ok rest

/-- The loop for incoming APDUs. -/
def walkIn (iter : Place) : ℕ → Except Fault Place
  | 0 => .ok iter
  | history + 1 => do walkIn (← iter.next) history

/-- The loop for outgoing APDUs. Its condition does not change, so behind the
last entry it still goes on. -/
def walkOut (history : ℤ) : Place → Except Fault Place
  | [] => if history > 0 then .error .endlessLoop else .ok []
  | apdu :: rest => if history > 0 then walkOut history rest else .ok (apdu :: rest)

/-- `GetApduFromHistory`: status and buffer afterwards. No place in the
outgoing list is the end of the incoming one, and behind the last entry there
is nothing to copy. -/
def getApduFromHistory (app : WinscardApp) (buffer : ApduBuffer) (history apduDirection : ℤ) :
    Except Fault (Status × ApduBuffer) :=
  if apduDirection = inputApdu then do
    match ← walkIn app.apduInList history.toNat with
    | [] => return (statNotEnoughtDataType, buffer)
    | apduBuff :: _ => return (statOk, apduBuff)
  else do
    match ← walkOut history app.apduOutList with
    | [] => .error .outOfBounds
    | apduBuff :: _ => return (statOk, apduBuff)

variable {app : WinscardApp} {buffer : ApduBuffer} {apduDirection : ℤ}

/-- The list that a direction refers to. -/
def historyOf (app : WinscardApp) (apduDirection : ℤ) : List ApduBuffer :=
  if apduDirection = inputApdu then app.apduInList else app.apduOutList

/-- The lookup ends with the entry and success, or with the old buffer and
another status if there is no such entry. -/
def LooksUp (app : WinscardApp) (buffer : ApduBuffer) (history : ℕ) (apduDirection : ℤ) : Prop :=
  getApduFromHistory app buffer history apduDirection = .ok (
    match (historyOf app apduDirection)[history]? with
    | some apdu => (statOk, apdu)
    | none => (statNotEnoughtDataType, buffer))

/-- The walk over the incoming APDUs may go up to the end of the list. -/
theorem walkIn_eq (iter : Place) (history : ℕ) :
    walkIn iter history = if history ≤ iter.length then .ok (iter.drop history) else .error .outOfBounds := by
  induction history generalizing iter with
  | zero => rfl
  | succ history ih =>
    cases iter with
    | nil => rfl
    | cons apdu rest =>
      rw [walkIn, Fault.bind_ok (show Place.next (apdu :: rest) = .ok rest from rfl), ih, List.length_cons]
      simp only [Nat.add_le_add_iff_right, List.drop_succ_cons]

/-- The other walk never takes a step, or it never ends. -/
theorem walkOut_eq (history : ℤ) (iter : Place) :
    walkOut history iter = if history > 0 then .error .endlessLoop else .ok iter := by
  induction iter with
  | nil => rfl
  | cons apdu rest ih =>
    rw [walkOut, ih]
    split_ifs <;> rfl

/-- The lookup of an incoming APDU. -/
theorem getApduFromHistory_in (history : ℤ) (hdir : apduDirection = inputApdu) :
    getApduFromHistory app buffer history apduDirection =
      if history.toNat ≤ app.apduInList.length then
        .ok (match app.apduInList[history.toNat]? with
          | some apdu => (statOk, apdu)
          | none => (statNotEnoughtDataType, buffer))
      else .error .outOfBounds := by
  rw [getApduFromHistory, if_pos hdir, walkIn_eq]
  by_cases hle : history.toNat ≤ app.apduInList.length
  · rw [if_pos hle, if_pos hle, Fault.bind_ok rfl, ← List.head?_drop]
    cases app.apduInList.drop history.toNat <;> rfl
  · rw [if_neg hle, if_neg hle]
    rfl

/-- The lookup of an outgoing APDU. -/
theorem getApduFromHistory_out (history : ℤ) (hdir : apduDirection ≠ inputApdu) :
    getApduFromHistory app buffer history apduDirection =
      if history > 0 then .error .endlessLoop
      else
        match app.apduOutList with
        | [] => .error .outOfBounds
        | apdu :: _ => .ok (statOk, apdu) := by
  rw [getApduFromHistory, if_neg hdir, walkOut_eq]
  by_cases hpos : history > 0
  · rw [if_pos hpos, if_pos hpos]
    rfl
  · rw [if_neg hpos, if_neg hpos, Fault.bind_ok rfl]
    cases app.apduOutList <;> rfl

/-- The conditions of rules see what the lookup leaves in a cleared buffer. -/
theorem getApduFromHistory_cleared (app : WinscardApp) (history apduDirection : ℤ) :
    (getApduFromHistory app ApduBuffer.zero history apduDirection).map (·.2) =
      (app.getApduFromHistory history apduDirection).map (·.getD ApduBuffer.zero) := by
  rw [WinscardApp.getApduFromHistory]
  by_cases hdir : apduDirection = inputApdu
  · rw [getApduFromHistory_in history hdir, if_pos hdir]
    split_ifs
    · cases app.apduInList[history.toNat]? <;> rfl
    · rfl
  · rw [getApduFromHistory_out history hdir, if_neg hdir]
    split_ifs
    · rfl
    · cases app.apduOutList <;> rfl

/-- A condition looks for its APDU in the history and reads one byte of it. -/
theorem testMatch_eq (app : WinscardApp) (r : ApduSingleRule) :
    app.testMatch r = (do
      let found ← getApduFromHistory app ApduBuffer.zero r.history r.apduDirection
      let b ← byteAt found.2.buffer r.element
      return b == r.value) := by
  have hcleared := getApduFromHistory_cleared app r.history r.apduDirection
  unfold WinscardApp.testMatch
  cases hfound : app.getApduFromHistory r.history r.apduDirection with
  | error e =>
    rw [hfound] at hcleared
    cases hlook : getApduFromHistory app ApduBuffer.zero r.history r.apduDirection with
    | error e' =>
      rw [hlook] at hcleared
      exact congrArg _ (Except.error.inj hcleared).symm
    | ok found =>
      rw [hlook] at hcleared
      cases hcleared
  | ok found =>
    rw [hfound] at hcleared
    cases hlook : getApduFromHistory app ApduBuffer.zero r.history r.apduDirection with
    | error e' =>
      rw [hlook] at hcleared
      cases hcleared
    | ok found' =>
      rw [hlook] at hcleared
      have hsame : found'.2 = found.getD ApduBuffer.zero := Except.ok.inj hcleared
      rw [Fault.bind_ok rfl, Fault.bind_ok rfl, hsame]

/-- The lookup does what it should exactly for incoming APDUs up to one place
behind the history, and for the last outgoing APDU when there is one. -/
theorem looksUp_iff (app : WinscardApp) (buffer : ApduBuffer) (history : ℕ) (apduDirection : ℤ) :
    LooksUp app buffer history apduDirection ↔
      if apduDirection = inputApdu then history ≤ app.apduInList.length
      else history = 0 ∧ app.apduOutList ≠ [] := by
  unfold LooksUp historyOf
  by_cases hdir : apduDirection = inputApdu
  · rw [if_pos hdir, if_pos hdir, getApduFromHistory_in _ hdir, Int.toNat_natCast]
    split_ifs with hle
    · exact iff_of_true rfl hle
    · exact iff_of_false (fun h => by cases h) hle
  · rw [if_neg hdir, if_neg hdir, getApduFromHistory_out _ hdir]
    by_cases hzero : history = 0
    · subst hzero
      rw [if_neg (by decide), and_iff_right rfl]
      cases app.apduOutList with
      | nil => exact iff_of_false (fun h => by cases h) fun h => h rfl
      | cons apdu rest => exact iff_of_true rfl (List.cons_ne_nil _ _)
    · rw [if_pos (by omega)]
      exact iff_of_false (fun h => by cases h) fun h => hzero h.1

/-- Two responses are recorded. -/
def twoResponses : WinscardApp := ⟨true, [], [], [ApduBuffer.zero, ApduBuffer.zero]⟩

/-- The older one is never found. -/
theorem not_looksUp_second :
    1 < (historyOf twoResponses outputApdu).length ∧ ¬ LooksUp twoResponses ApduBuffer.zero 1 outputApdu := by
  refine ⟨by decide, fun h => ?_⟩
  rw [LooksUp, getApduFromHistory_out _ (by decide)] at h
  cases h

end ApduPlay.HistoryLookup
