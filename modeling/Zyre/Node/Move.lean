import Zyre.Node.Rules

/-!
# What elections and traffic do to a node

Most programs on a node only send to live peers, change the election and the leader of a group, and
put on the outbox events that are not about the session of a peer. `Move` lists these changes, and
every such program is shown once to be a sequence of moves (`Moves`); whatever a move keeps, all of
them keep. A program of this kind that stops has a `Cause` in the state it stops in: a group lists a
peer that is gone.
-/

namespace Zyre

/-- The peer whose session the event belongs to. The other events tell of timers, elections and
the node itself. -/
def Event.session : Event → Option CStr
  | .enter identity .. | .exit identity _ | .join identity .. | .leave identity .. |
    .whisper identity .. | .shout identity .. => some identity
  | .evasive .. | .silent .. | .leader .. | .stop .. => none

/-- An election has a father unless the wave is the node's own. -/
def Election.Fathered (self : CStr) (e : Election) : Prop :=
  ∀ caw, e.caw = some caw → caw ≠ self → e.father.isSome

namespace Node

/-- The pointer points to an object. -/
def Live (n : Node) (r : PeerRef) : Prop := (n.deref r).isSome

/-- A pointer that can be followed is live. -/
theorem live_of_deref {n : Node} {r : PeerRef} {p : Peer} (h : n.deref r = some p) : n.Live r := by
  simp [Live, h]

/-- A live pointer can be followed. -/
theorem Live.exists {n : Node} {r : PeerRef} (h : n.Live r) : ∃ p, n.deref r = some p :=
  Option.isSome_iff_exists.mp h

/-- A pointer dangles if it cannot be followed. -/
theorem not_live {n : Node} {r : PeerRef} : ¬n.Live r ↔ n.deref r = none := by
  simp [Live]

/-- What the node knows about itself: its state without the tables, the count of peer objects and
the output. -/
def own (n : Node) : Node :=
  { n with peers := ∅, peerGroups := ∅, serial := 0, outbox := [], mail := [] }

/-! ### Moves -/

/-- A change of a group that keeps its members: the election and the leader may change, but they
do not come to point to peers that are not there. -/
structure Tame (n : Node) (g g' : Group) : Prop where
  peers : g'.peers = g.peers
  contest : g'.contest = g.contest
  leader : ∀ r, g'.leader = some r → g.leader = some r ∨ n.Live r
  father : ∀ e r, g'.election = some e → e.father = some r →
    (∃ e₀, g.election = some e₀ ∧ e₀.father = some r) ∨ n.Live r
  fathered : (∀ e, g.election = some e → e.Fathered n.identity) →
    ∀ e, g'.election = some e → e.Fathered n.identity

/-- One change made by the programs of this module; `K` are the commands they send. -/
inductive Move (K : Set MsgId) (n : Node) : Node → Prop
  | send (r : PeerRef) (p : Peer) (msg : Msg) (hr : n.deref r = some p)
      (hc : p.connected = true) (hid : msg.id ∈ K) : Move K n (n.posted r p msg)
  | group (name : CStr) (f : Group → Group)
      (hf : ∀ g, n.peerGroups.lookup name = some g → n.Tame g (f g)) :
      Move K n { n with peerGroups := n.peerGroups.modify name f }
  | addGroup (name : CStr) : Move K n { n with peerGroups := n.peerGroups.insertNew name .new }
  | emit (e : Event) (he : e.session = none) : Move K n { n with outbox := n.outbox ++ [e] }

/-- Any number of moves. -/
abbrev Moves (K : Set MsgId) : Node → Node → Prop := Relation.ReflTransGen (Move K)

/-- A message sent, the groups left as they are. -/
inductive Send (K : Set MsgId) (n : Node) : Node → Prop
  | mk (r : PeerRef) (p : Peer) (msg : Msg) (hr : n.deref r = some p)
      (hc : p.connected = true) (hid : msg.id ∈ K) : Send K n (n.posted r p msg)

/-- Any number of messages sent. -/
abbrev Sends (K : Set MsgId) : Node → Node → Prop := Relation.ReflTransGen (Send K)

variable {K K' : Set MsgId} {n n' : Node} {r : PeerRef} {p : Peer} {name : CStr}

/-- More commands may be sent. -/
theorem Move.mono (h : Move K n n') (hK : K ⊆ K') : Move K' n n' := by
  cases h with
  | send r p msg hr hc hid => exact .send r p msg hr hc (hK hid)
  | group name f hf => exact .group name f hf
  | addGroup name => exact .addGroup name
  | emit e he => exact .emit e he

theorem Moves.mono (h : Moves K n n') (hK : K ⊆ K') : Moves K' n n' :=
  Relation.ReflTransGen.mono (fun _ _ h => h.mono hK) _ _ h

/-- What only sends is a move. -/
theorem Sends.moves (h : Sends K n n') : Moves K n n' :=
  Relation.ReflTransGen.mono (fun _ _ ⟨r, p, msg, hr, hc, hid⟩ => .send r p msg hr hc hid) _ _ h

/-- Everything a move keeps, moves keep. -/
theorem Moves.keep {γ : Type*} {f : Node → γ} (hf : ∀ n n', Move K n n' → f n' = f n)
    (h : Moves K n n') : f n' = f n := by
  induction h with
  | refl => rfl
  | tail _ hmove ih => exact (hf _ _ hmove).trans ih

/-- What is not changed by one message is not by many. -/
theorem Sends.keep {γ : Type*} {f : Node → γ} (hf : ∀ n n', Send K n n' → f n' = f n)
    (h : Sends K n n') : f n' = f n := by
  induction h with
  | refl => rfl
  | tail _ hsend ih => exact (hf _ _ hsend).trans ih

theorem Sends.peerGroups (h : Sends K n n') : n'.peerGroups = n.peerGroups :=
  Sends.keep (fun _ _ ⟨_, _, _, _, _, _⟩ => rfl) h

/-! ### What moves keep -/

/-- Moves leave what is the node's own: its name, its endpoints and keys, its groups. -/
theorem Moves.own (h : Moves K n n') : n'.own = n.own :=
  Moves.keep (fun _ _ hmove => by cases hmove <;> rfl) h

theorem Moves.identity (h : Moves K n n') : n'.identity = n.identity :=
  (congrArg Node.identity h.own :)

theorem Moves.ownGroups (h : Moves K n n') : n'.ownGroups = n.ownGroups :=
  (congrArg Node.ownGroups h.own :)

theorem Moves.serial (h : Moves K n n') : n'.serial = n.serial :=
  Moves.keep (fun _ _ hmove => by cases hmove <;> rfl) h

/-- A message that is posted moves the counter of its receiver. -/
theorem deref_posted (r' : PeerRef) (msg : Msg) :
    (n.posted r p msg).deref r' = (n.deref r').map fun q =>
      if r'.identity = r.identity then { q with sentSequence := q.sentSequence + 1 } else q := by
  simp only [deref, posted, AList.lookup_modify]
  split_ifs with h
  · cases hq : n.peers.lookup r'.identity with
    | none => rfl
    | some q => by_cases hs : q.serial = r'.serial <;> simp [Option.filter, hs]
  · simp

/-- Posting a message frees nobody. -/
theorem live_posted {r' : PeerRef} {msg : Msg} : (n.posted r p msg).Live r' ↔ n.Live r' := by
  simp [Live, deref_posted]

/-- A move frees nobody, and brings nobody back. -/
theorem Move.live (h : Move K n n') (r : PeerRef) : n'.Live r = n.Live r := by
  cases h with
  | send r' p msg hr hc hid => exact propext live_posted
  | group name f hf => rfl
  | addGroup name => rfl
  | emit e he => rfl

theorem Moves.live (h : Moves K n n') (r : PeerRef) : n'.Live r ↔ n.Live r :=
  iff_of_eq (Moves.keep (f := fun n => n.Live r) (fun _ _ hmove => hmove.live r) h)

theorem Sends.live (h : Sends K n n') (r : PeerRef) : n'.Live r ↔ n.Live r :=
  h.moves.live r

/-- A move leaves the peers that are known. -/
theorem Move.peerKeys (h : Move K n n') : n'.peers.keys = n.peers.keys := by
  cases h with
  | send r' p msg hr hc hid => exact AList.keys_modify ..
  | group name f hf => rfl
  | addGroup name => rfl
  | emit e he => rfl

theorem Moves.mem_peers (h : Moves K n n') (identity : CStr) :
    identity ∈ n'.peers ↔ identity ∈ n.peers := by
  have hkeys := Moves.keep (f := fun n => n.peers.keys) (fun _ _ hmove => hmove.peerKeys) h
  rw [AList.mem_keys, AList.mem_keys, hkeys]

/-- A group that changes otherwise has the members it had. -/
theorem members_modify {f : Group → Group}
    (hf : ∀ g, n.peerGroups.lookup name = some g → (f g).peers = g.peers) :
    members { n with peerGroups := n.peerGroups.modify name f } = n.members := by
  funext name'
  simp only [members, AList.lookup_modify]
  split_ifs with h
  · subst h
    cases hg : n.peerGroups.lookup name' with
    | none => rfl
    | some g => exact hf g hg
  · rfl

/-- A group that is made has no members. -/
theorem members_insertNew :
    members { n with peerGroups := n.peerGroups.insertNew name .new } = n.members := by
  funext name'
  simp only [members, AList.lookup_insertNew]
  split_ifs with h
  · subst h; rfl
  · rfl

/-- A move leaves the members of every group. -/
theorem Move.members (h : Move K n n') : n'.members = n.members := by
  cases h with
  | send r' p msg hr hc hid => rfl
  | group name f hf => exact members_modify fun g hg => (hf g hg).peers
  | addGroup name => exact members_insertNew
  | emit e he => rfl

theorem Moves.members (h : Moves K n n') : n'.members = n.members :=
  Moves.keep (fun _ _ hmove => hmove.members) h

/-- Whether the group is contested. -/
def contested (n : Node) (name : CStr) : Bool := ((n.peerGroups.lookup name).getD .new).contest

/-- A move does not change which groups are contested. -/
theorem Move.contested (h : Move K n n') : n'.contested = n.contested := by
  funext name'
  cases h with
  | send r' p msg hr hc hid => rfl
  | group name f hf =>
    simp only [Node.contested, AList.lookup_modify]
    split_ifs with h
    · subst h
      cases hg : n.peerGroups.lookup name' with
      | none => rfl
      | some g => exact (hf g hg).contest
    · rfl
  | addGroup name =>
    simp only [Node.contested, AList.lookup_insertNew]
    split_ifs with h
    · subst h; rfl
    · rfl
  | emit e he => rfl

theorem Moves.contested (h : Moves K n n') : n'.contested = n.contested :=
  Moves.keep (fun _ _ hmove => hmove.contested) h

/-! ### Why a program stops -/

/-- Some group lists a peer that is not there. -/
def DeadMember (n : Node) : Prop :=
  ∃ name g identity r, n.peerGroups.lookup name = some g ∧
    g.peers.lookup identity = some r ∧ ¬n.Live r

/-- Some group lists an identity that is not in the peers table. -/
def UnknownMember (n : Node) : Prop :=
  ∃ name g, n.peerGroups.lookup name = some g ∧ ∃ identity ∈ g.peers, identity ∉ n.peers

/-- What is behind a fault of the programs of this module: a group lists a peer that is gone. -/
def Cause : Fault → Node → Prop
  | .dangling, n => n.DeadMember
  | .assertion, n => n.UnknownMember
  | .nullContainer, _ | .serverKey, _ => False

/-! ### Sending -/

/-- A message to one peer, which may be freed. -/
theorem peerSend_keeps {msg : Msg} (hid : msg.id ∈ K) (hdead : ¬n.Live r → Cause .dangling n) :
    (peerSend r msg).Keeps (Sends K) Cause n := by
  refine wp_peerSend.mpr ⟨fun p hp hc => ?_, fun _ _ _ => .refl, fun hnone => ?_⟩
  · exact .single ⟨r, p, msg, hp, hc, hid⟩
  · exact ⟨.refl, hdead (not_live.mpr hnone)⟩

/-- A message to a peer that is there. -/
theorem peerSend_keeps_of_live {msg : Msg} (hid : msg.id ∈ K) (hr : n.Live r) :
    (peerSend r msg).Keeps (Sends K) Cause n :=
  peerSend_keeps hid fun hdead => absurd hr hdead

/-- A message to the members of a group, one after the other; one of them may be freed. -/
theorem groupSend_keeps {msg : Msg} (hid : msg.id ∈ K) :
    (groupSend name msg).Keeps (Sends K) Cause n := by
  refine keeps_getGroup (.forM fun e he n' hn' => peerSend_keeps hid fun hdead => ?_)
  cases hg : n.peerGroups.lookup name with
  | none => simp [hg, Group.new, EmptyCollection.emptyCollection] at he
  | some g =>
    rw [hg, Option.getD_some] at he
    exact ⟨name, g, e.1, e.2, by rw [hn'.peerGroups, hg], AList.mem_lookup_iff.mpr he, hdead⟩

/-- A message to all peers in the table. -/
theorem sendPeers_keeps {msg : Msg} (hid : msg.id ∈ K) :
    (sendPeers msg).Keeps (Sends K) Cause n := by
  refine .get (.forM fun e he n' hn' => peerSend_keeps_of_live hid ?_)
  exact (hn'.live _).mpr (live_of_deref (deref_of_lookup (AList.mem_lookup_iff.mpr he)))

/-! ### Elections -/

/-- A change to a group that is tame. -/
theorem modifyGroup_keeps {f : Group → Group}
    (hf : ∀ g, n.peerGroups.lookup name = some g → n.Tame g (f g)) :
    (modifyGroup name f).Keeps (Moves K) Cause n :=
  Relation.ReflTransGen.single (.group name f hf)

/-- No election, or one without a wave or with the node's own, is a tame change. -/
theorem Tame.setElection {g : Group} {election : Option Election}
    (h : ∀ e, election = some e → e.father = none ∧ ∀ caw, e.caw = some caw → caw = n.identity) :
    n.Tame g { g with election := election } where
  peers := rfl
  contest := rfl
  leader _ hr := Or.inl hr
  father e _ he hr := by simp [(h e he).1] at hr
  fathered _ e he caw hcaw hne := absurd ((h e he).2 caw hcaw) hne

/-- The leader may be set to a peer that is there, or to none. -/
theorem Tame.setLeader {g : Group} {leader : Option PeerRef} (h : ∀ r, leader = some r → n.Live r) :
    n.Tame g { g with leader := leader } where
  peers := rfl
  contest := rfl
  leader r hr := Or.inr (h r hr)
  father e _ he hr := Or.inl ⟨e, he, hr⟩
  fathered h := h

/-- An election that is started sends ELECT. -/
theorem startElection_keeps (hK : .elect ∈ K) : (startElection name).Keeps (Moves K) Cause n := by
  refine .get (.bind (modifyGroup_keeps fun g _ => .setElection fun e he => ?_) fun _ n₁ _ => ?_)
  · cases he
    exact ⟨rfl, fun caw hcaw => (Option.some_inj.mp hcaw).symm⟩
  refine .bind (modifyGroup_keeps fun g _ => .setLeader fun r hr => nomatch hr) fun _ n₂ _ => ?_
  exact .pure_bind ((groupSend_keeps (K := K) hK).mono fun _ => Sends.moves)

/-- A node that leads alone sends nothing. -/
theorem leadAlone_keeps : (leadAlone name).Keeps (Moves K) Cause n := by
  refine .bind (modifyGroup_keeps fun g _ => .setLeader fun r hr => nomatch hr) fun _ n₁ _ => ?_
  exact .get (.get (Relation.ReflTransGen.single (.emit _ rfl)))

/-- ELECT carries the challenger, if there is one. -/
theorem buildElectMsg_of_caw {e : Election} {caw : CStr} (h : e.caw = some caw) :
    buildElectMsg e name = pure (((Msg.new .elect).setChallengerId caw).setGroup name) := by
  simp [buildElectMsg, h]

/-- And so does LEADER. -/
theorem buildLeaderMsg_of_caw {e : Election} {caw : CStr} (h : e.caw = some caw) :
    buildLeaderMsg e name = pure (((Msg.new .leader).setLeaderId caw).setGroup name) := by
  simp [buildLeaderMsg, h]

end Node

end Zyre
