import Mathlib.Tactic.SplitIfs
import ApduPlay.CardSession
import ApduPlay.Library.GuardedRuns

/-!
# APDUs reach the reader of their handle

Each live remote connection should be found in both tables with its own reader,
under a handle of its own. Establishing or releasing any context empties the
tables for all contexts, and the counter and the handles of the original
library are not kept apart, so each call has a condition under which it is
harmless.
-/

namespace ApduPlay.HandleRouting

open CardSession GuardedRuns

/-- Every live remote handle is known as remote, belongs to the reader it was
connected to, and is given out once. -/
structure Routed (t : Traced) : Prop where
  /-- The handle is in the table of remote handles. -/
  isRemoteCard : ∀ c ∈ t.live, t.session.isRemoteCard c.handle = true
  /-- The handle has the name of its reader. -/
  getReaderName : ∀ c ∈ t.live, (t.session.getReaderName c.handle).1 = c.reader
  /-- No two live connections share a handle. -/
  distinct : t.live.Pairwise fun c d => c.handle ≠ d.handle
  /-- APDUs are sent to that reader. -/
  transmit : ∀ c ∈ t.live, (t.session.transmitDestination c.handle).1 = .remoteReader c.reader

/-- When a call leaves the live remote connections alone: the tables are only
emptied while no live connection is left in them, and a handle that is given
out or overwritten is not a live remote handle of another reader. -/
def RoutingSafe (t : Traced) : Call → Prop
  | .establishContext _ => t.live = []
  | .releaseContext hContext original =>
    if original = scardSSuccess then ∀ c ∈ t.live, c.context = hContext else t.live = []
  | .connect _ szReader original _ =>
    if t.session.isRemoteReader szReader then
      if t.session.socket then ∀ c ∈ t.live, c.handle ≠ (t.session.nextRemoteCardID + 1).toUInt64
      else ∀ c ∈ t.live, c.handle = (t.session.nextRemoteCardID + 1).toUInt64 → c.reader = szReader
    else ∀ c ∈ t.live, c.handle = original.2 → c.reader = szReader
  | .transmit _ | .disconnect _ _ | .forward _ _ | .listReaders _ => True

variable {t : Traced} {s : Session} {h k : CardHandle} {r : Text}

/-- The destination follows from the two tables. -/
theorem routed_iff : Routed t ↔ (∀ c ∈ t.live, t.session.isRemoteCard c.handle = true ∧
    (t.session.getReaderName c.handle).1 = c.reader) ∧
    t.live.Pairwise fun c d => c.handle ≠ d.handle := by
  constructor
  · exact fun hr => ⟨fun c hc => ⟨hr.isRemoteCard c hc, hr.getReaderName c hc⟩, hr.distinct⟩
  · rintro ⟨htables, hdistinct⟩
    refine ⟨fun c hc => (htables c hc).1, fun c hc => (htables c hc).2, hdistinct, fun c hc => ?_⟩
    rw [Session.transmitDestination, if_pos (htables c hc).1]
    exact congrArg Destination.remoteReader (htables c hc).2

theorem getReaderName_of_map {s' : Session} (hmap : s'.cardReaderMap h = s.cardReaderMap h) :
    (s'.getReaderName h).1 = (s.getReaderName h).1 := by
  unfold Session.getReaderName
  rw [hmap]
  cases s.cardReaderMap h <;> rfl

theorem getReaderName_update (s : Session) (h k : CardHandle) (r : Text) :
    (Session.getReaderName { s with cardReaderMap := Function.update s.cardReaderMap k (some r) } h).1 =
      if h = k then r else (s.getReaderName h).1 := by
  by_cases hk : h = k
  · subst hk
    simp [Session.getReaderName]
  · rw [if_neg hk]
    exact getReaderName_of_map (Function.update_of_ne hk _ _)

/-- The empty tables route nothing. -/
theorem routed_released (hs : t.session = s.remoteSCardReleaseContext) : Routed t ↔ t.live = [] := by
  rw [routed_iff]
  constructor
  · rintro ⟨htables, _⟩
    refine List.eq_nil_iff_forall_not_mem.mpr fun c hc => ?_
    have hremote := (htables c hc).1
    rw [hs] at hremote
    cases hremote
  · intro hlive
    rw [hlive]
    exact ⟨by simp, .nil⟩

theorem isRemoteCard_update (s : Session) (h k : CardHandle) (r : Text) :
    Session.isRemoteCard { s with remoteReadersMap := Function.update s.remoteReadersMap k (some r) } h =
      (h == k || s.isRemoteCard h) := by
  by_cases hk : h = k
  · subst hk
    simp [Session.isRemoteCard]
  · simp [Session.isRemoteCard, hk]

/-- Looking a name up changes no name. -/
theorem getReaderName_getReaderName (s : Session) (h k : CardHandle) :
    ((s.getReaderName k).2.getReaderName h).1 = (s.getReaderName h).1 := by
  cases hk : s.cardReaderMap k with
  | some name => simp [Session.getReaderName, hk]
  | none =>
    have hsnd : (s.getReaderName k).2 =
        { s with cardReaderMap := Function.update s.cardReaderMap k (some []) } := by
      simp [Session.getReaderName, hk]
    rw [hsnd, getReaderName_update]
    split_ifs with hh
    · subst hh
      simp [Session.getReaderName, hk]
    · rfl

theorem remoteReadersMap_getReaderName (s : Session) (k : CardHandle) :
    (s.getReaderName k).2.remoteReadersMap = s.remoteReadersMap := by
  unfold Session.getReaderName
  cases s.cardReaderMap k <;> rfl

theorem remoteReadersMap_transmitDestination (s : Session) (k : CardHandle) :
    (s.transmitDestination k).2.remoteReadersMap = s.remoteReadersMap := by
  unfold Session.transmitDestination
  split_ifs
  · exact remoteReadersMap_getReaderName _ _
  · rfl

/-- Only the two tables matter. -/
theorem Routed.of_tables (hr : Routed t) (hremote : s.remoteReadersMap = t.session.remoteReadersMap)
    (hname : ∀ h, (s.getReaderName h).1 = (t.session.getReaderName h).1) :
    Routed { t with session := s } := by
  refine routed_iff.mpr ⟨fun c hc => ⟨?_, ?_⟩, hr.distinct⟩
  · have hc' := hr.isRemoteCard c hc
    rwa [Session.isRemoteCard, ← hremote] at hc'
  · exact (hname c.handle).trans (hr.getReaderName c hc)

/-- Losing connections and keeping the tables keeps the routing. -/
theorem Routed.filter (hr : Routed t) (keep : RemoteCard → Bool) (opened : List (CardContext × CardHandle)) :
    Routed ⟨t.session, t.live.filter keep, opened⟩ where
  isRemoteCard c hc := hr.isRemoteCard c (List.mem_filter.mp hc).1
  getReaderName c hc := hr.getReaderName c (List.mem_filter.mp hc).1
  distinct := hr.distinct.filter keep
  transmit c hc := hr.transmit c (List.mem_filter.mp hc).1

/-- A name written under one handle concerns only that handle. -/
theorem routed_overwrite (hr : Routed t) (hremote : ∀ c ∈ t.live, s.isRemoteCard c.handle = true)
    (hname : ∀ c ∈ t.live, (s.getReaderName c.handle).1 =
      if c.handle = k then r else (t.session.getReaderName c.handle).1)
    (opened : List (CardContext × CardHandle)) :
    Routed ⟨s, t.live, opened⟩ ↔ ∀ c ∈ t.live, c.handle = k → c.reader = r := by
  rw [routed_iff]
  constructor
  · rintro ⟨htables, _⟩ c hc rfl
    have hc' := (htables c hc).2
    rw [hname c hc, if_pos rfl] at hc'
    exact hc'.symm
  · intro hsame
    refine ⟨fun c hc => ⟨hremote c hc, ?_⟩, hr.distinct⟩
    refine (hname c hc).trans ?_
    split_ifs with hk
    · exact (hsame c hc hk).symm
    · exact hr.getReaderName c hc

/-- A new connection is routed exactly if no live one has its handle. -/
theorem routed_append (hr : Routed t) (hContext : CardContext)
    (hremote : ∀ c ∈ t.live, s.isRemoteCard c.handle = true) (hk : s.isRemoteCard k = true)
    (hname : ∀ h, (s.getReaderName h).1 = if h = k then r else (t.session.getReaderName h).1)
    (opened : List (CardContext × CardHandle)) :
    Routed ⟨s, t.live ++ [⟨hContext, k, r⟩], opened⟩ ↔ ∀ c ∈ t.live, c.handle ≠ k := by
  rw [routed_iff]
  constructor
  · rintro ⟨_, hdistinct⟩ c hc
    exact (List.pairwise_append.mp hdistinct).2.2 c hc _ (List.mem_singleton.mpr rfl)
  · intro hfresh
    constructor
    · intro c hc
      rcases List.mem_append.mp hc with hc | hc
      · refine ⟨hremote c hc, (hname c.handle).trans ?_⟩
        rw [if_neg (hfresh c hc)]
        exact hr.getReaderName c hc
      · obtain rfl := List.mem_singleton.mp hc
        exact ⟨hk, (hname k).trans (if_pos rfl)⟩
    · refine List.pairwise_append.mpr ⟨hr.distinct, List.pairwise_singleton _ _, fun c hc d hd => ?_⟩
      obtain rfl := List.mem_singleton.mp hd
      exact hfresh c hc

theorem routed_connect (hContext : CardContext) (szReader : Text) (original : Status × CardHandle)
    (response : Text) (hr : Routed t) :
    Routed (t.step (.connect hContext szReader original response)) ↔
      RoutingSafe t (.connect hContext szReader original response) := by
  have hadded (atr : Text) (h : CardHandle) : ((t.session.addRemoteCard szReader atr).2.storeReader
      (t.session.nextRemoteCardID + 1).toUInt64 szReader).isRemoteCard h =
      (h == (t.session.nextRemoteCardID + 1).toUInt64 || t.session.isRemoteCard h) :=
    isRemoteCard_update _ _ _ _
  have hremote (atr : Text) : ∀ c ∈ t.live, ((t.session.addRemoteCard szReader atr).2.storeReader
      (t.session.nextRemoteCardID + 1).toUInt64 szReader).isRemoteCard c.handle = true := by
    intro c hc
    rw [hadded, hr.isRemoteCard c hc, Bool.or_true]
  have hname (atr : Text) (h : CardHandle) : (((t.session.addRemoteCard szReader atr).2.storeReader
      (t.session.nextRemoteCardID + 1).toUInt64 szReader).getReaderName h).1 =
      if h = (t.session.nextRemoteCardID + 1).toUInt64 then szReader
      else (t.session.getReaderName h).1 :=
    (getReaderName_update _ _ _ _).trans (if_congr Iff.rfl rfl (getReaderName_of_map rfl))
  simp only [RoutingSafe]
  cases hreader : t.session.isRemoteReader szReader with
  | true =>
    cases hs : t.session.socket with
    | true =>
      rw [step_connect_remote hreader hs]
      simp only [if_true]
      exact routed_append hr hContext (hremote response) (by rw [hadded]; simp) (hname response) _
    | false =>
      rw [step_connect_refused hreader hs]
      simp only [if_true, Bool.false_eq_true, if_false]
      exact routed_overwrite hr (hremote []) (fun c _ => hname [] c.handle) _
  | false =>
    rw [step_connect_local hreader]
    simp only [Bool.false_eq_true, if_false]
    have hremote' : ∀ c ∈ t.live, (t.session.storeReader original.2 szReader).isRemoteCard c.handle = true :=
      hr.isRemoteCard
    exact routed_overwrite hr hremote' (fun c _ => getReaderName_update _ _ _ _) _

/-- One step keeps the routing exactly when it is safe. -/
theorem routed_step (t : Traced) (call : Call) (hr : Routed t) :
    Routed (t.step call) ↔ RoutingSafe t call := by
  cases call with
  | establishContext original => exact routed_released rfl
  | releaseContext hContext original =>
    simp only [Traced.step, RoutingSafe]
    by_cases hs : original = scardSSuccess
    · rw [if_pos hs, if_pos hs, routed_released rfl]
      simp [List.filter_eq_nil_iff]
    · rw [if_neg hs, if_neg hs, routed_released rfl]
  | connect hContext szReader original response => exact routed_connect _ _ _ _ hr
  | transmit hCard =>
    simp only [RoutingSafe, iff_true]
    refine hr.of_tables (remoteReadersMap_transmitDestination _ _) fun h => ?_
    unfold Session.transmitDestination
    split_ifs
    · exact getReaderName_getReaderName _ _ _
    · rfl
  | disconnect hCard original =>
    simp only [Traced.step, RoutingSafe, iff_true]
    by_cases hs : (t.session.scardDisconnect hCard original).status = scardSSuccess
    · rw [if_pos hs]
      exact hr.filter _ _
    · rwa [if_neg hs]
  | forward hCard original =>
    simp only [RoutingSafe, iff_true]
    exact hr
  | listReaders readers =>
    simp only [RoutingSafe, iff_true]
    exact hr.of_tables rfl fun h => getReaderName_of_map rfl

/-- In a whole run every live remote handle stays routed to its reader if and
only if every call is safe in the state where it is made. -/
theorem always_routed_iff (listVirtualReaders : List Text) (socket : Bool) (calls : List Call) :
    Always Traced.step Routed (Traced.initial listVirtualReaders socket) calls ↔
      Guarded Traced.step RoutingSafe (Traced.initial listVirtualReaders socket) calls := by
  refine always_iff_guarded routed_step ?_ calls
  exact ⟨by simp [Traced.initial], by simp [Traced.initial], .nil, by simp [Traced.initial]⟩

/-- A second context makes the library forget the card connected in the first. -/
theorem not_always_routed_two_contexts :
    ¬ Always Traced.step Routed (Traced.initial [ascii "Remote 1"] true)
      [.establishContext 0, .connect 10 (ascii "Remote 1") (0, 0) (ascii "3B00"), .establishContext 0] := by
  intro hall
  have hremote := (hall 3).isRemoteCard ⟨10, 2, ascii "Remote 1"⟩ (by decide)
  revert hremote
  decide

end ApduPlay.HandleRouting
