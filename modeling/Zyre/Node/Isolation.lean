import Zyre.Node.Entries
import Zyre.Node.Handling

/-!
# A message is about its sender

Whatever a message from `X` makes a node do, the entries, the groups and the events of the other peers
stay what they were, but for the count of the messages sent to them and, where a HELLO makes the node
create an entry for `X`, the peers connected to the endpoint it gives.
-/

namespace Zyre

namespace Node

variable {S : Scope} {n n' : Node} {X Y : CStr} {p : Peer} {env : Env} {uuid : Uuid} {msg : Msg}

/-- The entry has not changed, but for the count of messages sent. -/
def Kept (n : Node) (Y : CStr) (p : Peer) : Prop :=
  ∃ k, n.peers.lookup Y = some { p with sentSequence := k }

/-- The entry has been disconnected, and has not changed otherwise. -/
def Dropped (n : Node) (Y : CStr) (p : Peer) : Prop :=
  ∃ k, n.peers.lookup Y = some { p.disconnect with sentSequence := k }

/-- A purge keeps an entry, or disconnects one on its endpoint. -/
theorem kept_purged {endpoint : CStr} {peers : AList fun _ : CStr => Peer}
    (hpeers : peers.lookup Y = (n.purged endpoint).peers.lookup Y) (hp : n.peers.lookup Y = some p)
    (hn' : n'.peers = peers) :
    Kept n' Y p ∨ p.connected = true ∧ p.endpoint = endpoint ∧ Dropped n' Y p := by
  have hlook : n'.peers.lookup Y = some (purgePeer endpoint p) := by
    rw [hn', hpeers]
    simp [purged, hp]
  cases hconn : p.connected with
  | false =>
    have hpurge : purgePeer endpoint p = p := by simp [purgePeer, Peer.disconnect, hconn]
    exact Or.inl ⟨p.sentSequence, by rw [hlook, hpurge]⟩
  | true =>
    by_cases hend : p.endpoint = endpoint
    · have hpurge : purgePeer endpoint p = p.disconnect := by
        simp [purgePeer, Peer.endpointStr, hconn, hend]
      refine Or.inr ⟨rfl, hend, p.disconnect.sentSequence, ?_⟩
      rw [hlook, hpurge]
    · have hpurge : purgePeer endpoint p = p := by
        simp [purgePeer, Peer.endpointStr, hconn, hend]
      exact Or.inl ⟨p.sentSequence, by rw [hlook, hpurge]⟩

/-- What a deed does to the entry of a peer it is not about. -/
theorem Deed.entry (h : Deed S n n') (hY : Y ∉ S.about) (hp : n.peers.lookup Y = some p) :
    Kept n' Y p ∨
      p.connected = true ∧ p.endpoint ∈ S.greets ∧ n.serial < n'.serial ∧ Dropped n' Y p := by
  have hsame : ∀ {m : Node}, m.peers = n.peers → Kept m Y p := fun h =>
    ⟨p.sentSequence, by rw [h, hp]⟩
  have hposted : ∀ (r : PeerRef) (q : Peer) (msg : Msg), Kept (n.posted r q msg) Y p := by
    intro r q msg
    by_cases hr : Y = r.identity
    · subst hr
      exact ⟨p.sentSequence + 1, by simp [posted, hp]⟩
    · exact ⟨p.sentSequence, by simp [posted, AList.lookup_modify_ne hr, hp]⟩
  cases h with
  | send r q msg hr hid => exact Or.inl (hposted r q msg)
  | pass r q msg name hr hname hwave => exact Or.inl (hposted r q msg)
  | peer X f hX =>
    have hne : Y ≠ X := fun h => hY (h ▸ hX)
    exact Or.inl ⟨p.sentSequence, by simp [AList.lookup_modify_ne hne, hp]⟩
  | remove X hX =>
    have hne : Y ≠ X := fun h => hY (h ▸ hX)
    exact Or.inl ⟨p.sentSequence, by simp [hne, hp]⟩
  | greet env X endpoint key hX hgreets hnew =>
    have hne : Y ≠ X := fun h => hY (h ▸ hX)
    refine (kept_purged (AList.lookup_insert_ne hne) hp rfl).imp_right ?_
    rintro ⟨hconn, hend, hdrop⟩
    exact ⟨hconn, hend ▸ hgreets, Nat.lt_succ_self _, hdrop⟩
  | enroll X endpoint q hX hgreets =>
    have hne : Y ≠ X := fun h => hY (h ▸ hX)
    refine (kept_purged (AList.lookup_insert_ne hne) hp rfl).imp_right ?_
    rintro ⟨hconn, hend, hdrop⟩
    exact ⟨hconn, hend ▸ hgreets, Nat.lt_succ_self _, hdrop⟩
  | refuse endpoint hgreets =>
    refine (kept_purged rfl hp rfl).imp_right ?_
    rintro ⟨hconn, hend, hdrop⟩
    exact ⟨hconn, hend ▸ hgreets, Nat.lt_succ_self _, hdrop⟩
  | know hpeers hgroups hserial houtbox hmail huuid hown => exact Or.inl (hsame hpeers)
  | _ => exact Or.inl (hsame rfl)

/-- What a run of deeds does to it: once disconnected it stays as it is. -/
theorem Deeds.entry (h : Deeds S n n') (hY : Y ∉ S.about) (hp : n.peers.lookup Y = some p) :
    n.serial ≤ n'.serial ∧ (Kept n' Y p ∨
      p.connected = true ∧ p.endpoint ∈ S.greets ∧ n.serial < n'.serial ∧ Dropped n' Y p) := by
  induction h with
  | refl => exact ⟨le_rfl, Or.inl ⟨p.sentSequence, hp⟩⟩
  | tail _ hdeed ih =>
    obtain ⟨hserial, ih⟩ := ih
    refine ⟨hserial.trans hdeed.serial_le, ?_⟩
    rcases ih with ⟨k, hk⟩ | ⟨hconn, hgreets, hlt, k, hk⟩
    · rcases hdeed.entry hY hk with ⟨k', hk'⟩ | ⟨hconn, hgreets, hlt, k', hk'⟩
      · exact Or.inl ⟨k', hk'⟩
      · refine Or.inr ⟨hconn, hgreets, hserial.trans_lt hlt, k', hk'.trans ?_⟩
        simp only [Peer.disconnect]
        split_ifs <;> rfl
    · rcases hdeed.entry hY hk with ⟨k', hk'⟩ | ⟨hconn', -⟩
      · exact Or.inr ⟨hconn, hgreets, hlt.trans_le hdeed.serial_le, k', hk'⟩
      · simp at hconn'

/-- What a message from `X` leaves of what a node holds about another peer `Y`. An entry is created for
`X` also where its mailbox can then not be connected; `serial` counts the entries created. -/
structure Spared (n n' : Node) (X : CStr) (msg : Msg) (Y : CStr) : Prop where
  entry : ∀ p, n.peers.lookup Y = some p → Kept n' Y p ∨
    msg.id = .hello ∧ (∀ q, n.peers.lookup X = some q → q.ready = true) ∧ n.serial < n'.serial ∧
      p.connected = true ∧ p.endpoint = msg.endpoint ∧ Dropped n' Y p
  absent : n.peers.lookup Y = none → n'.peers.lookup Y = none
  members : ∀ name, Y ∈ n'.members name ↔ Y ∈ n.members name
  events : ∃ es, n'.outbox = n.outbox ++ es ∧ ∀ e ∈ es, e.identity = Y → e.elects = true

/-- **Isolation.** A message from one peer leaves every other one its entry and its groups, and the events
since that are about it tell no more than that it leads a group. The one exception is a peer that is
connected to the endpoint a HELLO announces: it is disconnected. -/
theorem recvPeer_spared {frames : List Frame} (hsender : senderOf frames = some uuid)
    (hok : recvPeer env frames n = .ok ⟨⟩ n') (hY : Y ≠ uuid.str) :
    Spared n n' uuid.str (Msg.recv frames).msg Y := by
  rw [recvPeer_of_sender hsender] at hok
  have hresumable : Resumable (msgScope Set.univ n uuid.str (Msg.recv frames).msg) n :=
    fun _ _ _ _ _ _ => trivial
  have hdeeds := (recvMsg_leads hresumable fun _ _ _ => trivial).of_ok hok
  have habout : Y ∉ (msgScope Set.univ n uuid.str (Msg.recv frames).msg).about := hY
  obtain ⟨v, -, hreaches⟩ := EStateM.wp_of_ok hok recvMsg_spec
  have hview := hreaches.other hY
  refine ⟨fun p hp => ?_, fun hnone => ?_, fun name => ?_, ?_⟩
  · refine (Deeds.entry hdeeds habout hp).2.imp_right fun ⟨hconn, hgreets, hlt, hdrop⟩ => ?_
    exact ⟨hgreets.1, hgreets.2.2, hlt, hconn, hgreets.2.1, hdrop⟩
  · have hentry : (n.view Y).entry = none := by simp [hnone]
    have hentry' : (n'.view Y).entry = none := by
      rcases hview with h | h
      · rw [h, hentry]
      · rw [h, PeerView.purge_of_entry_eq_none hentry, hentry]
    exact Option.map_eq_none_iff.mp hentry'
  · have hgroups : (n'.view Y).groups = (n.view Y).groups := by
      rcases hview with h | h
      · rw [h]
      · rw [h, PeerView.purge]
    exact Set.ext_iff.mp hgroups name
  · obtain ⟨es, hes, htells⟩ := Deeds.outbox hdeeds
    refine ⟨es, hes, fun e he heY => ?_⟩
    rcases htells e he with ⟨-, hX⟩ | ⟨identity, leaderName, name, -, rfl⟩
    · exact absurd (heY ▸ hX) habout
    · rfl

/-- Two peers have said HELLO; the second one is not touched by what the first says next. -/
theorem spared_hello : Spared greetedNode
    (final (Node.step (sampleEnv 0) (sampleInput 2 sampleHello) greetedNode)) (sampleUuid 2).str
    (Msg.recv ((1 :: (sampleUuid 2).data) :: sampleHello.frames)).msg (sampleUuid 1).str :=
  have hok : Node.step (sampleEnv 0) (sampleInput 2 sampleHello) greetedNode = .ok ⟨⟩ _ :=
    step_eq_of_isOk (by decide +kernel)
  recvPeer_spared (by decide) hok (by decide)

end Node

end Zyre
