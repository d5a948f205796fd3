import ApduPlay.Library.KeyedLists
import ApduPlay.PacketGraph

/-!
# Grouping the packets of a tree

The analysed outputs first put together what was sent several times and, for
each of it, what was answered several times. Messages are objects that are
compared by their text and count how often they were added, as an `int`; a packet
that is the first of its kind is kept itself, with its messages. So the counts are
right as long as no message belongs to two packets.
-/

namespace ApduPlay.OutputTrees

open KeyedLists LogParser PacketNode PacketGraph

/-- A message. -/
structure OutputMessage where
  /-- The text. -/
  message : JavaString
  /-- Identifier of the node where its bytes end. -/
  identifier : ℤ
  /-- Number of packets with this message. -/
  count : JavaInt
  deriving DecidableEq, Repr

/-- The constructor. -/
def newMessage (message : JavaString) (identifier : ℤ) : OutputMessage := ⟨message, identifier, 1⟩

/-- The message objects, in the order in which they were created. An object is
referred to by its place. -/
abbrev Messages := List OutputMessage

/-- The object at a place; all places that are used are there. -/
def Messages.get (messages : Messages) (r : ℕ) : OutputMessage := messages.getD r (newMessage [] 0)

/-- `increaseCount` -/
def increaseCount (messages : Messages) (r : ℕ) (amount : JavaInt) : Messages :=
  messages.modify r fun msg => { msg with count := msg.count + amount }

/-- `equals`, of the texts. -/
def equalMessages (messages : Messages) (r r' : ℕ) : Bool :=
  (messages.get r).message = (messages.get r').message

/-- A packet refers to its messages. -/
structure OutputPacket where
  /-- What was sent. -/
  transmittedMessage : ℕ
  /-- What was answered. -/
  receivedMessages : List ℕ

/-- `addReceivedMessage`, with the objects afterwards. -/
def addReceivedMessage (messages : Messages) (packet : OutputPacket) (msg : ℕ) : Messages × OutputPacket :=
  match packet.receivedMessages.findIdx? fun r => equalMessages messages r msg with
  | none => (messages, { packet with receivedMessages := packet.receivedMessages ++ [msg] })
  | some index =>
    (increaseCount messages (packet.receivedMessages.getD index 0) (messages.get msg).count, packet)

/-- `addReceivedMessages` -/
def addReceivedMessages (messages : Messages) (packet : OutputPacket) (msgs : List ℕ) :
    Messages × OutputPacket :=
  msgs.foldl (fun s msg => addReceivedMessage s.1 s.2 msg) (messages, packet)

/-- The objects and the packets of an output tree. -/
structure OutputState where
  /-- The message objects. -/
  messages : Messages
  /-- The packets of the tree. -/
  packets : List OutputPacket

/-- `addPacket` -/
def addPacket (s : OutputState) (packet : OutputPacket) : OutputState :=
  match s.packets.findIdx? fun p =>
      equalMessages s.messages p.transmittedMessage packet.transmittedMessage with
  | none => { s with packets := s.packets ++ [packet] }
  | some index =>
    let outputPackets := s.packets.getD index packet
    let messages := increaseCount s.messages outputPackets.transmittedMessage
      (s.messages.get packet.transmittedMessage).count
    let added := addReceivedMessages messages outputPackets packet.receivedMessages
    ⟨added.1, s.packets.set index added.2⟩

/-- The packets are added one after the other. -/
def addPackets (s : OutputState) (packets : List OutputPacket) : OutputState := packets.foldl addPacket s

/-- The texts of a packet, with the identifiers of the nodes where its bytes end. -/
structure Exchange where
  /-- What was sent. -/
  transmittedStr : JavaString
  /-- Leaf of what was sent. -/
  transmittedLeafNode : ℤ
  /-- What was answered. -/
  receivedStr : JavaString
  /-- Leaf of what was answered. -/
  receivedLeafNode : ℤ

/-- One packet of `prepareAnalyzedPackets`: it is made of new messages and added. -/
def addExchange (s : OutputState) (e : Exchange) : OutputState :=
  let transmitted := s.messages.length
  let messages := s.messages ++ [newMessage e.transmittedStr e.transmittedLeafNode,
    newMessage e.receivedStr e.receivedLeafNode]
  let p := addReceivedMessage messages ⟨transmitted, []⟩ (transmitted + 1)
  addPacket ⟨p.1, s.packets⟩ p.2

/-- `prepareAnalyzedPackets`, given the texts. -/
def prepareAnalyzedPackets (exchanges : List Exchange) : OutputState :=
  exchanges.foldl addExchange ⟨[], []⟩

/-- A packet with its messages in place of the references. -/
structure Group where
  /-- What was sent. -/
  transmittedMessage : OutputMessage
  /-- What was answered. -/
  receivedMessages : List OutputMessage
  deriving DecidableEq, Repr

/-- What a packet refers to. -/
def OutputPacket.group (messages : Messages) (packet : OutputPacket) : Group :=
  ⟨messages.get packet.transmittedMessage, packet.receivedMessages.map messages.get⟩

/-- The packets of the tree. -/
def OutputState.groups (s : OutputState) : List Group := s.packets.map (OutputPacket.group s.messages)

/-- One more occurrence. -/
def OutputMessage.again (msg : OutputMessage) : OutputMessage := { msg with count := msg.count + 1 }

/-- Count an answer among those of the same message. -/
def putAnswer (e : Exchange) (msgs : List OutputMessage) : List OutputMessage :=
  put OutputMessage.message e.receivedStr
    (newMessage e.receivedStr e.receivedLeafNode) OutputMessage.again msgs

/-- Count an exchange among the groups. -/
def putExchange (e : Exchange) (groups : List Group) : List Group :=
  put (fun g => g.transmittedMessage.message) e.transmittedStr
    ⟨newMessage e.transmittedStr e.transmittedLeafNode, [newMessage e.receivedStr e.receivedLeafNode]⟩
    (fun g => ⟨g.transmittedMessage.again, putAnswer e g.receivedMessages⟩) groups

/-- The objects of a packet. -/
def OutputPacket.references (packet : OutputPacket) : List ℕ :=
  packet.transmittedMessage :: packet.receivedMessages

/-- No object is referred to twice, and all of them are there. -/
structure Distinct (s : OutputState) : Prop where
  /-- A packet refers to different objects. -/
  nodup : ∀ p ∈ s.packets, p.references.Nodup
  /-- Packets refer to different objects. -/
  apart : ∀ {i j : ℕ} {p q : OutputPacket}, s.packets[i]? = some p → s.packets[j]? = some q → i ≠ j →
    ∀ r ∈ p.references, r ∉ q.references
  /-- The objects were created. -/
  lt_length : ∀ p ∈ s.packets, ∀ r ∈ p.references, r < s.messages.length

variable {messages messages' : Messages} {packet : OutputPacket} {s : OutputState} {e : Exchange}
  {r r' k : ℕ} {refs : List ℕ}

theorem get_append_left (hr : r < messages.length) (more : Messages) :
    Messages.get (messages ++ more) r = messages.get r := by
  simp only [Messages.get, List.getD_eq_getElem?_getD, List.getElem?_append_left hr]

/-- Only the object itself is changed. -/
theorem get_increaseCount_of_ne (h : r ≠ r') (amount : JavaInt) :
    (increaseCount messages r amount).get r' = messages.get r' := by
  simp only [increaseCount, Messages.get, List.getD_eq_getElem?_getD, List.getElem?_modify_ne _ _ h]

theorem get_increaseCount (hr : r < messages.length) :
    (increaseCount messages r 1).get r = (messages.get r).again := by
  simp only [increaseCount, Messages.get, List.getD_eq_getElem?_getD, List.getElem?_modify_eq,
    List.getElem?_eq_getElem hr, Option.getD_some]
  rfl

theorem length_increaseCount (r : ℕ) (amount : JavaInt) :
    (increaseCount messages r amount).length = messages.length := List.length_modify _ _ _

/-- A packet means the same as long as its own objects do. -/
theorem group_congr (h : ∀ r ∈ packet.references, messages.get r = messages'.get r) :
    packet.group messages = packet.group messages' := by
  obtain ⟨htransmitted, hreceived⟩ := List.forall_mem_cons.mp h
  rw [OutputPacket.group, OutputPacket.group, htransmitted, List.map_congr_left hreceived]

/-- One of several different objects is changed. -/
theorem map_get_increaseCount (hnodup : refs.Nodup) (hlt : ∀ r ∈ refs, r < messages.length)
    (hk : k < refs.length) :
    refs.map (increaseCount messages (refs.getD k 0) 1).get = (refs.map messages.get).modify k .again := by
  have hr : refs.getD k 0 = refs[k] := by
    rw [List.getD_eq_getElem?_getD, List.getElem?_eq_getElem hk, Option.getD_some]
  refine List.ext_getElem? fun j => ?_
  rw [List.getElem?_modify, List.getElem?_map, List.getElem?_map, hr]
  rcases Nat.lt_or_ge j refs.length with hj | hj
  · rw [List.getElem?_eq_getElem hj]
    by_cases hjk : k = j
    · subst hjk
      refine congrArg some ((get_increaseCount (hlt _ (List.getElem_mem hk))).trans ?_)
      exact (if_pos rfl).symm
    · have hne : refs[k] ≠ refs[j] := fun h => hjk ((hnodup.getElem_inj_iff).mp h)
      simp [get_increaseCount_of_ne hne, hjk]
  · rw [List.getElem?_eq_none hj]
    rfl

/-- A new answer is counted among the answers of a packet, and only objects that
the packet refers to are changed. -/
theorem addReceivedMessage_spec {msg : ℕ} (hnodup : packet.references.Nodup)
    (hlt : ∀ r ∈ packet.references, r < messages.length)
    (hnew : msg ∉ packet.references)
    (hvalue : messages.get msg = newMessage e.receivedStr e.receivedLeafNode) :
    ∃ messages' packet', addReceivedMessage messages packet msg = (messages', packet') ∧
      packet'.group messages' =
        ⟨messages.get packet.transmittedMessage, putAnswer e (packet.receivedMessages.map messages.get)⟩ ∧
      (∀ r ∉ packet.references, messages'.get r = messages.get r) ∧
      messages'.length = messages.length ∧
      packet'.references.Nodup ∧ ∀ r ∈ packet'.references, r ∈ packet.references ∨ r = msg := by
  obtain ⟨htransmitted, hreceived⟩ := List.nodup_cons.mp hnodup
  have hfind : (packet.receivedMessages.findIdx? fun r => equalMessages messages r msg) =
      (packet.receivedMessages.map messages.get).findIdx? fun m => m.message = e.receivedStr := by
    rw [List.findIdx?_map]
    refine congrArg (fun test => packet.receivedMessages.findIdx? test) (funext fun r => ?_)
    rw [equalMessages, hvalue]
    rfl
  rw [addReceivedMessage, putAnswer, put, hfind]
  cases hindex : (packet.receivedMessages.map messages.get).findIdx? fun m => m.message = e.receivedStr with
  | none =>
    refine ⟨_, _, rfl, ?_, fun _ _ => rfl, rfl, ?_, ?_⟩
    · rw [OutputPacket.group, List.map_append, List.map_singleton, hvalue]
    · rw [OutputPacket.references, ← List.cons_append]
      refine List.nodup_append.mpr ⟨hnodup, List.nodup_singleton msg, fun a ha b hb heq => hnew ?_⟩
      rwa [← List.mem_singleton.mp hb, ← heq]
    · intro r hr
      rw [OutputPacket.references, ← List.cons_append, List.mem_append, List.mem_singleton] at hr
      exact hr
  | some k =>
    have hk : k < packet.receivedMessages.length := by
      have hlt := (List.findIdx?_eq_some_iff_findIdx_eq.mp hindex).1
      rwa [List.length_map] at hlt
    have hmem : packet.receivedMessages.getD k 0 ∈ packet.receivedMessages := by
      rw [List.getD_eq_getElem?_getD, List.getElem?_eq_getElem hk]
      exact List.getElem_mem hk
    have hcount : (messages.get msg).count = 1 := by
      rw [hvalue]
      rfl
    dsimp only
    rw [hcount]
    have hother {r : ℕ} (hr : r ∉ packet.receivedMessages) : packet.receivedMessages.getD k 0 ≠ r :=
      fun heq => hr (heq ▸ hmem)
    refine ⟨_, packet, rfl, ?_, fun r hr => ?_, length_increaseCount _ _, hnodup, fun r hr => Or.inl hr⟩
    · rw [OutputPacket.group, map_get_increaseCount hreceived
        (fun r hr => hlt r (List.mem_cons_of_mem _ hr)) hk,
        get_increaseCount_of_ne (hother htransmitted)]
    · exact get_increaseCount_of_ne (hother fun hmem => hr (List.mem_cons_of_mem _ hmem)) 1

/-- Replacing one packet and its objects changes one group. -/
theorem map_group_set {packets : List OutputPacket} {i : ℕ} {packet' : OutputPacket} {f : Group → Group}
    (hpacket : packets[i]? = some packet) (hnew : packet'.group messages' = f (packet.group messages))
    (hother : ∀ j q, packets[j]? = some q → i ≠ j → q.group messages' = q.group messages) :
    (packets.set i packet').map (OutputPacket.group messages') =
      (packets.map (OutputPacket.group messages)).modify i f := by
  refine List.ext_getElem? fun j => ?_
  rw [List.getElem?_map, List.getElem?_modify, List.getElem?_map]
  by_cases hij : i = j
  · subst hij
    rw [List.getElem?_set_self (List.getElem?_eq_some_iff.mp hpacket).1, hpacket]
    simp [hnew]
  · rw [List.getElem?_set_ne hij]
    cases hq : packets[j]? with
    | none => rfl
    | some q => simp [hij, hother j q hq hij]

/-- Before a packet was added nothing was referred to. -/
theorem distinct_nil (messages : Messages) : Distinct ⟨messages, []⟩ :=
  ⟨fun _ hp => absurd hp List.not_mem_nil, fun hp => absurd hp (by simp),
    fun _ hp => absurd hp List.not_mem_nil⟩

/-- More objects do not matter. -/
theorem Distinct.append (h : Distinct s) (more : Messages) : Distinct ⟨s.messages ++ more, s.packets⟩ :=
  ⟨h.nodup, h.apart, fun p hp r hr => by
    rw [List.length_append]
    exact Nat.lt_add_right _ (h.lt_length p hp r hr)⟩

/-- An object that no packet refers to. -/
def Fresh (s : OutputState) (r : ℕ) : Prop := r < s.messages.length ∧ ∀ p ∈ s.packets, r ∉ p.references

/-- A packet of two objects that are not referred to comes last. -/
theorem Distinct.concat (h : Distinct s) {t r : ℕ} (hne : t ≠ r) (ht : Fresh s t) (hr : Fresh s r) :
    Distinct ⟨s.messages, s.packets ++ [⟨t, [r]⟩]⟩ := by
  have hnew : ∀ k ∈ (⟨t, [r]⟩ : OutputPacket).references, Fresh s k := by
    rw [OutputPacket.references]
    exact List.forall_mem_cons.mpr ⟨ht, List.forall_mem_singleton.mpr hr⟩
  have hcases {i : ℕ} {p : OutputPacket} (hp : (s.packets ++ [⟨t, [r]⟩])[i]? = some p) :
      s.packets[i]? = some p ∨ i = s.packets.length ∧ p = ⟨t, [r]⟩ := by
    rw [List.getElem?_append] at hp
    split at hp
    · exact Or.inl hp
    · have hi := (List.getElem?_eq_some_iff.mp hp).1
      rw [List.length_singleton] at hi
      have heq : i = s.packets.length := by omega
      subst heq
      rw [Nat.sub_self] at hp
      exact Or.inr ⟨rfl, (Option.some.inj hp).symm⟩
  refine ⟨List.forall_mem_append.mpr ⟨h.nodup, ?_⟩, fun {i j p q} hp hq hij k hk hk' => ?_,
    List.forall_mem_append.mpr ⟨h.lt_length, ?_⟩⟩
  · simp [OutputPacket.references, hne]
  · rcases hcases hp with hp | ⟨rfl, rfl⟩ <;> rcases hcases hq with hq | ⟨rfl, rfl⟩
    · exact h.apart hp hq hij k hk hk'
    · exact (hnew k hk').2 p (List.mem_of_getElem? hp) hk
    · exact (hnew k hk).2 q (List.mem_of_getElem? hq) hk'
    · exact hij rfl
  · exact List.forall_mem_singleton.mpr fun k hk => (hnew k hk).1

/-- A packet gets another object that is not referred to. -/
theorem Distinct.set (h : Distinct s) {i : ℕ} {msg : ℕ} {packet' : OutputPacket}
    (hi : s.packets[i]? = some packet) (hnodup : packet'.references.Nodup)
    (hsub : ∀ r ∈ packet'.references, r ∈ packet.references ∨ r = msg) (hmsg : Fresh s msg)
    (hlength : messages'.length = s.messages.length) :
    Distinct ⟨messages', s.packets.set i packet'⟩ := by
  have hcases {j : ℕ} {p : OutputPacket} (hp : (s.packets.set i packet')[j]? = some p) :
      i = j ∧ p = packet' ∨ i ≠ j ∧ s.packets[j]? = some p := by
    by_cases hij : i = j
    · subst hij
      rw [List.getElem?_set_self (List.getElem?_eq_some_iff.mp hi).1] at hp
      exact Or.inl ⟨rfl, (Option.some.inj hp).symm⟩
    · rw [List.getElem?_set_ne hij] at hp
      exact Or.inr ⟨hij, hp⟩
  have hmem {p : OutputPacket} (hp : p ∈ s.packets.set i packet') : p = packet' ∨ p ∈ s.packets :=
    (List.mem_or_eq_of_mem_set hp).symm
  refine ⟨fun p hp => ?_, fun {j k p q} hp hq hjk r hr hr' => ?_, fun p hp r hr => ?_⟩
  · rcases hmem hp with rfl | hp
    · exact hnodup
    · exact h.nodup p hp
  · rcases hcases hp with ⟨hij, hp'⟩ | ⟨hij, hp'⟩ <;> rcases hcases hq with ⟨hik, hq'⟩ | ⟨hik, hq'⟩
    · exact hjk (hij.symm.trans hik)
    · rw [hp'] at hr
      rcases hsub r hr with hold | rfl
      · exact h.apart hi hq' hik r hold hr'
      · exact hmsg.2 q (List.mem_of_getElem? hq') hr'
    · rw [hq'] at hr'
      rcases hsub r hr' with hold | rfl
      · exact h.apart hp' hi (Ne.symm hij) r hr hold
      · exact hmsg.2 p (List.mem_of_getElem? hp') hr
    · exact h.apart hp' hq' hjk r hr hr'
  · rw [hlength]
    rcases hmem hp with rfl | hp
    · rcases hsub r hr with hold | rfl
      · exact h.lt_length packet (List.mem_of_getElem? hi) r hold
      · exact hmsg.1
    · exact h.lt_length p hp r hr

/-- What a packet of two messages tells. -/
def exchangeOf (messages : Messages) (t r : ℕ) : Exchange :=
  ⟨(messages.get t).message, (messages.get t).identifier, (messages.get r).message,
    (messages.get r).identifier⟩

/-- A message that was counted once. -/
theorem eq_newMessage {msg : OutputMessage} (hcount : msg.count = 1) :
    msg = newMessage msg.message msg.identifier := by
  rw [newMessage, ← hcount]

/-- Objects behind a step: as many as before, and those that were not referred to are unchanged. -/
structure LeavesOthers (s s' : OutputState) (packet : OutputPacket) : Prop where
  /-- There are no new ones. -/
  length : s'.messages.length = s.messages.length
  /-- Only those of a packet are changed. -/
  get : ∀ k, Fresh s k → k ∉ packet.references → s'.messages.get k = s.messages.get k
  /-- Only those of the new packet become those of a packet. -/
  references : ∀ k, Fresh s k → k ∉ packet.references → ∀ p ∈ s'.packets, k ∉ p.references

/-- Adding a packet of two objects that are not referred to counts its exchange among the groups. -/
theorem addPacket_spec (h : Distinct s) {t r : ℕ} (hne : t ≠ r) (ht : Fresh s t) (hr : Fresh s r)
    (htcount : (s.messages.get t).count = 1) (hrcount : (s.messages.get r).count = 1) :
    (addPacket s ⟨t, [r]⟩).groups = putExchange (exchangeOf s.messages t r) s.groups ∧
      Distinct (addPacket s ⟨t, [r]⟩) ∧ LeavesOthers s (addPacket s ⟨t, [r]⟩) ⟨t, [r]⟩ := by
  have hsent : s.messages.get t =
      newMessage (exchangeOf s.messages t r).transmittedStr
        (exchangeOf s.messages t r).transmittedLeafNode := eq_newMessage htcount
  have hanswer : s.messages.get r =
      newMessage (exchangeOf s.messages t r).receivedStr
        (exchangeOf s.messages t r).receivedLeafNode := eq_newMessage hrcount
  have hfind : (s.packets.findIdx? fun p => equalMessages s.messages p.transmittedMessage t) =
      s.groups.findIdx? fun g => g.transmittedMessage.message =
        (exchangeOf s.messages t r).transmittedStr := by
    rw [OutputState.groups, List.findIdx?_map]
    rfl
  rw [addPacket, putExchange, put]
  dsimp only
  rw [hfind]
  cases hindex : s.groups.findIdx? fun g => g.transmittedMessage.message =
      (exchangeOf s.messages t r).transmittedStr with
  | none =>
    refine ⟨?_, h.concat hne ht hr, rfl, fun _ _ _ => rfl, fun k hk hother p hp => ?_⟩
    · rw [OutputState.groups, List.map_append]
      refine congrArg _ ?_
      rw [List.map_singleton, OutputPacket.group, hsent, List.map_singleton, hanswer]
    · rcases List.mem_append.mp hp with hp | hp
      · exact hk.2 p hp
      · rwa [List.mem_singleton.mp hp]
  | some i =>
    have hi : i < s.packets.length := by
      have hlt := (List.findIdx?_eq_some_iff_findIdx_eq.mp hindex).1
      rwa [OutputState.groups, List.length_map] at hlt
    have hpacket : s.packets[i]? = some s.packets[i] := List.getElem?_eq_getElem hi
    have hmem : s.packets[i] ∈ s.packets := List.getElem_mem hi
    have hgetD : s.packets.getD i ⟨t, [r]⟩ = s.packets[i] := by
      rw [List.getD_eq_getElem?_getD, hpacket, Option.getD_some]
    have hlt := h.lt_length _ hmem
    have hnodup := h.nodup _ hmem
    have hfirst := hlt _ List.mem_cons_self
    let counted := increaseCount s.messages s.packets[i].transmittedMessage 1
    have hlength : counted.length = s.messages.length := length_increaseCount _ _
    have hfresh {k : ℕ} (hk : Fresh s k) : s.packets[i].transmittedMessage ≠ k := fun heq =>
      hk.2 _ hmem (heq ▸ List.mem_cons_self)
    obtain ⟨messages', packet', hrun, hgroup, hframe, hlen, hnodup', hsub⟩ :=
      addReceivedMessage_spec hnodup (fun k hk => hlength.symm ▸ hlt k hk) (hr.2 _ hmem)
        ((get_increaseCount_of_ne (hfresh hr) 1).trans hanswer)
    have hreceived : s.packets[i].receivedMessages.map counted.get =
        s.packets[i].receivedMessages.map s.messages.get := by
      refine List.map_congr_left fun k hk => get_increaseCount_of_ne (fun heq => ?_) 1
      exact (List.nodup_cons.mp hnodup).1 (heq ▸ hk)
    have hrun' : addReceivedMessages counted s.packets[i] [r] = (messages', packet') := hrun
    have hlength' := hlen.trans hlength
    dsimp only
    rw [hgetD, htcount]
    show OutputState.groups ⟨(addReceivedMessages counted s.packets[i] [r]).1,
        s.packets.set i (addReceivedMessages counted s.packets[i] [r]).2⟩ = _ ∧
      Distinct ⟨(addReceivedMessages counted s.packets[i] [r]).1,
        s.packets.set i (addReceivedMessages counted s.packets[i] [r]).2⟩ ∧
      LeavesOthers s ⟨(addReceivedMessages counted s.packets[i] [r]).1,
        s.packets.set i (addReceivedMessages counted s.packets[i] [r]).2⟩ ⟨t, [r]⟩
    rw [hrun']
    refine ⟨map_group_set hpacket ?_ fun j q hq hij => group_congr fun k hk => ?_,
      h.set hpacket hnodup' hsub hr hlength', hlength', fun k hk _ => ?_, fun k hk hother p hp => ?_⟩
    · rw [hgroup, hreceived, get_increaseCount hfirst]
      rfl
    · have hout := h.apart hq hpacket (Ne.symm hij) k hk
      have hne : s.packets[i].transmittedMessage ≠ k := fun heq => hout (heq ▸ List.mem_cons_self)
      exact (hframe k hout).trans (get_increaseCount_of_ne hne 1)
    · exact (hframe k (hk.2 _ hmem)).trans (get_increaseCount_of_ne (hfresh hk) 1)
    · rcases List.mem_or_eq_of_mem_set hp with hp | rfl
      · exact hk.2 p hp
      · intro hin
        rcases hsub k hin with hold | rfl
        · exact hk.2 _ hmem hold
        · exact hother (List.mem_cons_of_mem _ List.mem_cons_self)

/-- So does adding a packet of new objects. -/
theorem addExchange_spec (h : Distinct s) (e : Exchange) :
    (addExchange s e).groups = putExchange e s.groups ∧ Distinct (addExchange s e) := by
  let n := s.messages.length
  let more := [newMessage e.transmittedStr e.transmittedLeafNode, newMessage e.receivedStr e.receivedLeafNode]
  let messages : Messages := s.messages ++ more
  have hlength : messages.length = n + 2 := List.length_append
  have hget (j : ℕ) : messages.get (n + j) = Messages.get more j := by
    simp only [Messages.get, List.getD_eq_getElem?_getD, messages, n]
    rw [List.getElem?_append_right (Nat.le_add_right _ _), Nat.add_sub_cancel_left]
  have hfresh {j : ℕ} (hj : j < 2) : Fresh ⟨messages, s.packets⟩ (n + j) :=
    ⟨hlength ▸ Nat.add_lt_add_left hj n, fun p hp hin =>
      absurd (h.lt_length p hp _ hin) (not_lt.mpr (Nat.le_add_right n j))⟩
  have hsent : messages.get n = newMessage e.transmittedStr e.transmittedLeafNode := hget 0
  have hanswer : messages.get (n + 1) = newMessage e.receivedStr e.receivedLeafNode := hget 1
  have hexchange : exchangeOf messages n (n + 1) = e := by
    rw [exchangeOf, hsent, hanswer]
    rfl
  have hgroups : OutputState.groups ⟨messages, s.packets⟩ = s.groups :=
    List.map_congr_left fun p hp => group_congr fun r hr => get_append_left (h.lt_length p hp r hr) more
  obtain ⟨hstep, hdistinct, -⟩ := addPacket_spec (h.append more) (Nat.lt_succ_self n).ne (hfresh Nat.two_pos)
    (hfresh Nat.one_lt_two) (congrArg OutputMessage.count (hget 0)) (congrArg OutputMessage.count (hget 1))
  rw [hexchange, hgroups] at hstep
  exact ⟨hstep, hdistinct⟩

/-- So the groups of a tree are those of its exchanges. -/
theorem groups_prepareAnalyzedPackets (exchanges : List Exchange) :
    (prepareAnalyzedPackets exchanges).groups =
        exchanges.foldl (fun groups e => putExchange e groups) [] ∧
      Distinct (prepareAnalyzedPackets exchanges) := by
  induction exchanges using List.reverseRecOn with
  | nil => exact ⟨rfl, distinct_nil []⟩
  | append_singleton exchanges e ih =>
    obtain ⟨hgroups, hdistinct⟩ := ih
    obtain ⟨hstep, hnext⟩ := addExchange_spec hdistinct e
    rw [prepareAnalyzedPackets, List.foldl_concat, List.foldl_concat, ← hgroups]
    exact ⟨hstep, hnext⟩

/-- The messages tell which texts there were, and how often. -/
structure Tallies (texts : List JavaString) (msgs : List OutputMessage) : Prop where
  /-- Every text once, in the order in which they came first. -/
  messages : msgs.map OutputMessage.message = texts.eraseDups
  /-- The number of its occurrences. -/
  counts : ∀ msg ∈ msgs, msg.count = (texts.count msg.message : ℕ)

/-- What was answered to a message. -/
def answersTo (exchanges : List Exchange) (transmittedStr : JavaString) : List JavaString :=
  (exchanges.filter fun e => e.transmittedStr = transmittedStr).map Exchange.receivedStr

/-- The groups tell which exchanges there were, and how often. -/
structure TalliesExchanges (exchanges : List Exchange) (groups : List Group) : Prop where
  /-- What was sent. -/
  transmitted : Tallies (exchanges.map Exchange.transmittedStr) (groups.map Group.transmittedMessage)
  /-- What was answered to it. -/
  received : ∀ g ∈ groups, Tallies (answersTo exchanges g.transmittedMessage.message) g.receivedMessages

variable {texts : List JavaString} {msgs : List OutputMessage} {exchanges : List Exchange}
  {groups : List Group} {text : JavaString}

theorem Tallies.nodup (h : Tallies texts msgs) : (msgs.map OutputMessage.message).Nodup :=
  h.messages ▸ nodup_eraseDups texts

/-- The numbers add up to the number of all texts. -/
theorem Tallies.sum_count (h : Tallies texts msgs) :
    (msgs.map fun msg => texts.count msg.message).sum = texts.length := by
  rw [← sum_count_eraseDups texts, ← h.messages, List.map_map]
  rfl

theorem tallies_newMessage (text : JavaString) (leaf : ℤ) : Tallies [text] [newMessage text leaf] :=
  ⟨by simp [newMessage, List.eraseDups_cons], by simp [newMessage]⟩

/-- One more message is counted. -/
theorem Tallies.put (h : Tallies texts msgs) (text : JavaString) (leaf : ℤ) :
    Tallies (texts ++ [text])
      (put OutputMessage.message text (newMessage text leaf) OutputMessage.again msgs) := by
  refine ⟨map_put_of_eraseDups rfl (fun _ => rfl) h.messages, ?_⟩
  refine forall_put h.counts h.nodup (fun m _ hm hne => ?_) (fun m _ hm heq => ?_) fun hnot => ?_
  · rw [hm, List.count_append, List.count_singleton, beq_eq_false_iff_ne.mpr (Ne.symm hne)]
    rfl
  · rw [OutputMessage.again, hm, List.count_append, heq, List.count_singleton_self, Nat.cast_add]
    rfl
  · rw [h.messages, List.mem_eraseDups] at hnot
    show 1 = (((texts ++ [text]).count text : ℕ) : JavaInt)
    rw [List.count_append, List.count_eq_zero_of_not_mem hnot, List.count_singleton_self]
    rfl

theorem answersTo_concat (exchanges : List Exchange) (e : Exchange) (text : JavaString) :
    answersTo (exchanges ++ [e]) text =
      if e.transmittedStr = text then answersTo exchanges text ++ [e.receivedStr]
      else answersTo exchanges text := by
  rw [answersTo, List.filter_append, List.map_append]
  split_ifs with h <;> simp [h, answersTo]

/-- Putting an exchange among the groups puts its message among the messages of them. -/
theorem map_transmittedMessage_putExchange (e : Exchange) (groups : List Group) :
    (putExchange e groups).map Group.transmittedMessage =
      put OutputMessage.message e.transmittedStr (newMessage e.transmittedStr e.transmittedLeafNode)
        OutputMessage.again (groups.map Group.transmittedMessage) := by
  induction groups with
  | nil => rfl
  | cons g groups ih =>
    rw [putExchange, put_cons, List.map_cons, put_cons]
    split_ifs
    · rfl
    · rw [List.map_cons, ← ih]
      rfl

/-- The step: one more exchange is counted, with what was sent and what was answered. -/
theorem TalliesExchanges.put (h : TalliesExchanges exchanges groups) (e : Exchange) :
    TalliesExchanges (exchanges ++ [e]) (putExchange e groups) := by
  have hnodup : (groups.map fun g => g.transmittedMessage.message).Nodup := by
    have := h.transmitted.nodup
    rwa [List.map_map] at this
  constructor
  · rw [List.map_append, map_transmittedMessage_putExchange]
    exact h.transmitted.put e.transmittedStr e.transmittedLeafNode
  · refine forall_put h.received hnodup (fun g _ hg hne => ?_) (fun g _ hg heq => ?_) fun hnot => ?_
    · rwa [answersTo_concat, if_neg (Ne.symm hne)]
    · show Tallies (answersTo (exchanges ++ [e]) g.transmittedMessage.message)
        (putAnswer e g.receivedMessages)
      rw [answersTo_concat, if_pos heq.symm]
      exact hg.put e.receivedStr e.receivedLeafNode
    · have hnone : answersTo exchanges e.transmittedStr = [] := by
        rw [answersTo, List.map_eq_nil_iff, List.filter_eq_nil_iff]
        refine fun e' he' heq => hnot ?_
        have hmem := List.mem_map_of_mem (f := Exchange.transmittedStr) he'
        rw [← List.mem_eraseDups, ← h.transmitted.messages, List.map_map] at hmem
        rwa [← of_decide_eq_true heq]
      show Tallies (answersTo (exchanges ++ [e]) e.transmittedStr)
        [newMessage e.receivedStr e.receivedLeafNode]
      rw [answersTo_concat, if_pos rfl, hnone]
      exact tallies_newMessage e.receivedStr e.receivedLeafNode

/-- The groups of exchanges tell which these are. -/
theorem talliesExchanges_foldl (exchanges : List Exchange) :
    TalliesExchanges exchanges (exchanges.foldl (fun groups e => putExchange e groups) []) := by
  induction exchanges using List.reverseRecOn with
  | nil => exact ⟨⟨rfl, by simp⟩, by simp⟩
  | append_singleton exchanges e ih =>
    rw [List.foldl_concat]
    exact ih.put e

/-- What grouping is for: each message once, with how often it was sent, and with
what was answered to it, each answer once, with how often it was. -/
structure GroupedPackets (exchanges : List Exchange) (groups : List Group) : Prop where
  /-- What was sent comes in the order in which it was sent first. -/
  transmitted : groups.map (fun g => g.transmittedMessage.message) =
    (exchanges.map Exchange.transmittedStr).eraseDups
  /-- Nothing that was sent is there twice. -/
  transmitted_nodup : (groups.map fun g => g.transmittedMessage.message).Nodup
  /-- How often it was sent. -/
  transmitted_count : ∀ g ∈ groups, g.transmittedMessage.count.toInt =
    (exchanges.countP fun e => e.transmittedStr = g.transmittedMessage.message : ℕ)
  /-- What was answered comes in the order in which it was answered first. -/
  received : ∀ g ∈ groups, g.receivedMessages.map OutputMessage.message =
    (answersTo exchanges g.transmittedMessage.message).eraseDups
  /-- No answer is there twice. -/
  received_nodup : ∀ g ∈ groups, (g.receivedMessages.map OutputMessage.message).Nodup
  /-- How often it was answered to that. -/
  received_count : ∀ g ∈ groups, ∀ msg ∈ g.receivedMessages, msg.count.toInt =
    (exchanges.countP fun e =>
      e.transmittedStr = g.transmittedMessage.message ∧ e.receivedStr = msg.message : ℕ)
  /-- There is an answer to everything that was sent. -/
  received_sum : ∀ g ∈ groups,
    (g.receivedMessages.map fun msg => msg.count.toInt).sum = g.transmittedMessage.count.toInt

theorem answersTo_length (exchanges : List Exchange) (text : JavaString) :
    (answersTo exchanges text).length = exchanges.countP fun e => e.transmittedStr = text := by
  rw [answersTo, List.length_map, List.countP_eq_length_filter]

/-- Counts that do not reach the limit tell the numbers. -/
theorem Tallies.toInt_count (h : Tallies texts msgs) (hlimit : texts.length < 2 ^ 31) {msg : OutputMessage}
    (hmsg : msg ∈ msgs) : msg.count.toInt = (texts.count msg.message : ℕ) := by
  rw [h.counts msg hmsg]
  exact JavaInt.toInt_natCast_eq_iff.mpr (List.count_le_length.trans_lt hlimit)

/-- Few groups that tell the exchanges are what grouping is for. -/
theorem TalliesExchanges.groupedPackets (h : TalliesExchanges exchanges groups)
    (hlimit : exchanges.length < 2 ^ 31) : GroupedPackets exchanges groups := by
  obtain ⟨htransmitted, hreceived⟩ := h
  have hnodup := htransmitted.nodup
  have hfirst := htransmitted.messages
  rw [List.map_map] at hnodup hfirst
  have hanswers (text : JavaString) : (answersTo exchanges text).length < 2 ^ 31 := by
    rw [answersTo_length]
    exact List.countP_le_length.trans_lt hlimit
  have hcount : ∀ g ∈ groups, g.transmittedMessage.count.toInt =
      (exchanges.countP fun e => e.transmittedStr = g.transmittedMessage.message : ℕ) := fun g hg => by
    rw [htransmitted.toInt_count (by rwa [List.length_map]) (List.mem_map_of_mem hg), List.count_eq_countP,
      List.countP_map]
    exact congrArg Nat.cast (List.countP_congr fun e _ => by simp)
  refine ⟨hfirst, hnodup, hcount, fun g hg => (hreceived g hg).messages, fun g hg => (hreceived g hg).nodup,
    fun g hg msg hmsg => ?_, fun g hg => ?_⟩
  · rw [(hreceived g hg).toInt_count (hanswers _) hmsg, answersTo, List.count_eq_countP, List.countP_map,
      List.countP_filter]
    exact congrArg Nat.cast (List.countP_congr fun e _ => by simp [and_comm])
  · rw [List.map_congr_left fun msg hmsg => (hreceived g hg).toInt_count (hanswers _) hmsg, hcount g hg,
      ← answersTo_length, ← (hreceived g hg).sum_count]
    refine ((map_list_sum (Nat.castRingHom ℤ) _).trans ?_).symm
    rw [List.map_map]
    rfl

/-- A packet of two messages. -/
def packetOf (p : ℕ × ℕ) : OutputPacket := ⟨p.1, [p.2]⟩

/-- Packets of messages of their own are counted by their messages. -/
theorem groups_addPackets (messages : Messages) (packets : List (ℕ × ℕ))
    (hown : (packets.flatMap fun p => [p.1, p.2]).Nodup)
    (hcreated : ∀ r ∈ packets.flatMap fun p => [p.1, p.2], r < messages.length)
    (hcount : ∀ r ∈ packets.flatMap fun p => [p.1, p.2], (messages.get r).count = 1) :
    ∃ s, addPackets ⟨messages, []⟩ (packets.map packetOf) = s ∧ Distinct s ∧
      s.groups = (packets.map fun p => exchangeOf messages p.1 p.2).foldl
        (fun groups e => putExchange e groups) [] ∧
      s.messages.length = messages.length ∧
      ∀ r < messages.length, r ∉ packets.flatMap (fun p => [p.1, p.2]) →
        Fresh s r ∧ s.messages.get r = messages.get r := by
  induction packets using List.reverseRecOn with
  | nil => exact ⟨⟨messages, []⟩, rfl, distinct_nil messages, rfl, rfl, fun r hr _ => ⟨⟨hr, by simp⟩, rfl⟩⟩
  | append_singleton packets p ih =>
    obtain ⟨t, r⟩ := p
    rw [List.flatMap_append, List.flatMap_singleton] at hown hcreated hcount
    obtain ⟨hold, hlast, hapart⟩ := List.nodup_append.mp hown
    obtain ⟨hcreatedOld, hcreatedLast⟩ := List.forall_mem_append.mp hcreated
    obtain ⟨hcountOld, hcountLast⟩ := List.forall_mem_append.mp hcount
    obtain ⟨s, hrun, hdistinct, hgroups, hlength, hfresh⟩ := ih hold hcreatedOld hcountOld
    have hother {k : ℕ} (hk : k ∈ [t, r]) := hfresh k (hcreatedLast k hk) fun hin => hapart k hin k hk rfl
    obtain ⟨htfresh, htsame⟩ := hother List.mem_cons_self
    obtain ⟨hrfresh, hrsame⟩ := hother (List.mem_cons_of_mem t List.mem_cons_self)
    have hne : t ≠ r := fun heq => (List.nodup_cons.mp hlast).1 (heq ▸ List.mem_cons_self)
    obtain ⟨hstep, hdistinct', hleaves⟩ := addPacket_spec hdistinct hne htfresh hrfresh
      (htsame ▸ hcountLast t List.mem_cons_self)
      (hrsame ▸ hcountLast r (List.mem_cons_of_mem t List.mem_cons_self))
    have hexchange : exchangeOf s.messages t r = exchangeOf messages t r := by
      rw [exchangeOf, exchangeOf, htsame, hrsame]
    refine ⟨addPacket s ⟨t, [r]⟩, ?_, hdistinct', ?_, hleaves.length.trans hlength, fun k hk hnot => ?_⟩
    · rw [List.map_append, List.map_singleton, addPackets, List.foldl_concat, ← addPackets, hrun]
      rfl
    · rw [hstep, hgroups, hexchange, List.map_append, List.map_singleton, List.foldl_concat]
    · rw [List.flatMap_append, List.flatMap_singleton, List.mem_append, not_or] at hnot
      obtain ⟨hkfresh, hksame⟩ := hfresh k hk hnot.1
      refine ⟨⟨(hleaves.length.trans hlength).symm ▸ hk, hleaves.references k hkfresh hnot.2⟩, ?_⟩
      exact (hleaves.get k hkfresh hnot.2).trans hksame

/-- Packets of messages of their own, each counted once, are grouped by what was sent, and then by
what was answered. -/
theorem groupedPackets_addPackets (messages : Messages) (packets : List (ℕ × ℕ))
    (hown : (packets.flatMap fun p => [p.1, p.2]).Nodup)
    (hcreated : ∀ r ∈ packets.flatMap fun p => [p.1, p.2], r < messages.length)
    (hcount : ∀ r ∈ packets.flatMap fun p => [p.1, p.2], (messages.get r).count = 1)
    (hlimit : packets.length < 2 ^ 31) :
    GroupedPackets (packets.map fun p => exchangeOf messages p.1 p.2)
      (addPackets ⟨messages, []⟩ (packets.map packetOf)).groups := by
  obtain ⟨s, hrun, -, hgroups, -⟩ := groups_addPackets messages packets hown hcreated hcount
  have htallies := talliesExchanges_foldl (packets.map fun p => exchangeOf messages p.1 p.2)
  rw [hrun, hgroups]
  exact htallies.groupedPackets (by rwa [List.length_map])

/-- Two packets with the same messages. -/
theorem groupedPackets_addPackets_two :
    GroupedPackets
      (([(0, 1), (2, 3)] : List (ℕ × ℕ)).map fun p =>
        exchangeOf [newMessage ['0', '1'] 1, newMessage ['9', '0'] 2,
        newMessage ['0', '1'] 1, newMessage ['9', '0'] 2] p.1 p.2)
      (addPackets ⟨[newMessage ['0', '1'] 1, newMessage ['9', '0'] 2, newMessage ['0', '1'] 1,
        newMessage ['9', '0'] 2], []⟩ (([(0, 1), (2, 3)] : List (ℕ × ℕ)).map packetOf)).groups :=
  groupedPackets_addPackets _ _ (by decide) (by decide) (by decide) (by decide)

/-- A message that belongs to three packets is counted by what it was counted before. -/
theorem not_groupedPackets_shared :
    ¬ GroupedPackets
      (([(0, 1), (2, 1), (3, 1)] : List (ℕ × ℕ)).map fun p => exchangeOf [newMessage ['0', '1'] 1,
        newMessage ['9', '0'] 2, newMessage ['0', '1'] 1, newMessage ['0', '1'] 1] p.1 p.2)
      (addPackets ⟨[newMessage ['0', '1'] 1, newMessage ['9', '0'] 2, newMessage ['0', '1'] 1,
        newMessage ['0', '1'] 1], []⟩ (([(0, 1), (2, 1), (3, 1)] : List (ℕ × ℕ)).map packetOf)).groups := by
  intro h
  have hsum := h.received_sum ⟨⟨['0', '1'], 1, 3⟩, [⟨['9', '0'], 2, 4⟩]⟩ (by decide)
  exact absurd hsum (by decide)

end ApduPlay.OutputTrees
