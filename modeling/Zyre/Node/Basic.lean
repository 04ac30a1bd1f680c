import Zyre.ForMathlib.EStateM
import Zyre.Group

/-!
# The node

`Node` is the state behind a `zyre_node_t`, from the moment its inbox is bound (before that the
source polls neither the inbox nor the discovery services, and `endpoint` is null). Two fields
stand for what leaves the node: `outbox` lists every event put on the outbox, `mail` every message
handed to a peer's mailbox, in order. Programs on nodes run in `NodeM` and can stop with a
`Fault`; the state at that moment is kept.

A pointer to a peer is followed with `readPeer` and written through with `modifyPeer`; both stop
with `Fault.dangling` if the object it pointed to has been destroyed.
-/

namespace Zyre

/-- What the application reads from the outbox. -/
inductive Event
  | enter (identity name : CStr) (headers : Option Headers) (endpoint : CStr)
  | evasive (identity name : CStr)
  | silent (identity name : CStr)
  | exit (identity name : CStr)
  | join (identity name group : CStr)
  | leave (identity name group : CStr)
  | whisper (identity name : CStr) (content : Option (List Frame))
  | shout (identity name group : CStr) (content : Option (List Frame))
  | leader (identity name group : CStr)
  | stop (identity name : CStr)
deriving DecidableEq

/-- How a program on a node can stop. -/
inductive Fault
  /-- An `assert` of the program fails. -/
  | assertion
  /-- CZMQ aborts on a null container. -/
  | nullContainer
  /-- CZMQ aborts because the server key given to `zsock_set_curve_serverkey` is invalid. -/
  | serverKey
  /-- A pointer to a destroyed peer is followed. -/
  | dangling
deriving DecidableEq

/-- The answers of the surroundings during one step: the clock, whether a new mailbox can be
connected to an endpoint, which CURVE server keys libzmq takes, and the CZMQ settings. -/
structure Env where
  now : Int64
  connects : CStr → Bool
  serverKeyOk : CStr → Bool
  ipv6 : Bool
  interface : CStr

/-- `struct _zyre_node_t`. `serial` is the number of the next peer object. -/
structure Node where
  uuid : Uuid
  name : CStr
  endpoint : CStr
  advertisedEndpoint : Option CStr
  beaconPort : Int32
  beaconVersion : UInt8
  beacon : Bool
  gossip : Bool
  evasiveTimeout : UInt64
  expiredTimeout : UInt64
  status : UInt8
  peers : AList fun _ : CStr => Peer
  peerGroups : AList fun _ : CStr => Group
  ownGroups : List CStr
  headers : Headers
  publicKey : Option CStr
  secretKey : Option CStr
  serial : ℕ
  outbox : List Event
  mail : List (PeerRef × Msg)

/-- A program on a node. -/
abbrev NodeM := EStateM Fault Node

namespace Node

/-- `zuuid_str (self->uuid)`. -/
def identity (n : Node) : CStr := n.uuid.str

/-- The object a pointer points to, if it still exists. -/
def deref (n : Node) (peer : PeerRef) : Option Peer :=
  (n.peers.lookup peer.identity).filter fun p => p.serial = peer.serial

/-- The members of the group called `name`. -/
def members (n : Node) (name : CStr) : AList fun _ : CStr => PeerRef :=
  ((n.peerGroups.lookup name).getD .new).peers

/-! ### Primitives -/

/-- `assert (c)`. -/
def assert (c : Bool) : NodeM Unit := unless c do throw .assertion

/-- Put an event on the outbox. -/
def emit (e : Event) : NodeM Unit := modify fun n => { n with outbox := n.outbox ++ [e] }

/-- `zhash_lookup (self->peers, identity)`. -/
def lookupPeer (identity : CStr) : NodeM (Option PeerRef) := do
  pure (((← get).peers.lookup identity).map fun p => ⟨identity, p.serial⟩)

/-- Follow a pointer. -/
def readPeer (peer : PeerRef) : NodeM Peer := do
  match (← get).deref peer with
  | some p => pure p
  | none => throw .dangling

/-- Write through a pointer. -/
def modifyPeer (peer : PeerRef) (f : Peer → Peer) : NodeM Unit := do
  let _ ← readPeer peer
  modify fun n => { n with peers := n.peers.modify peer.identity f }

/-- `zhash_delete (self->peers, zyre_peer_identity (peer))`, which destroys the object. -/
def deletePeer (peer : PeerRef) : NodeM Unit :=
  modify fun n => { n with peers := n.peers.erase peer.identity }

/-- The group called `name`; callers have just required it. -/
def getGroup (name : CStr) : NodeM Group := do
  pure (((← get).peerGroups.lookup name).getD .new)

/-- Write to the group called `name`. -/
def modifyGroup (name : CStr) (f : Group → Group) : NodeM Unit :=
  modify fun n => { n with peerGroups := n.peerGroups.modify name f }

/-- `zyre_node_require_peer_group`. -/
def requirePeerGroup (name : CStr) : NodeM Unit :=
  modify fun n => { n with peerGroups := n.peerGroups.insertNew name .new }

/-! ### Sending -/

/-- `zyre_peer_send`. Whether the mailbox queues the message or refuses it is not visible to the
node (`Peer.send_eq`); `mail` records that it was offered. -/
def peerSend (peer : PeerRef) (msg : Msg) : NodeM Unit := do
  let p ← readPeer peer
  let sent := (p.send msg .empty).2.1
  modifyPeer peer fun _ => sent
  if p.connected then
    modify fun n => { n with mail := n.mail ++ [(peer, msg.setSequence sent.sentSequence)] }

/-- `zyre_group_send`. -/
def groupSend (name : CStr) (msg : Msg) : NodeM Unit := do
  let group ← getGroup name
  forM group.peers.entries fun e => peerSend e.2 msg

/-- The loop over `self->peers` that calls `zyre_node_send_peer`. -/
def sendPeers (msg : Msg) : NodeM Unit := do
  let peers := (← get).peers.entries
  forM peers fun e => peerSend ⟨e.1, e.2.serial⟩ msg

/-! ### Groups -/

/-- `zyre_group_join`: a duplicate join does not change the table, but counts. -/
def groupJoin (name : CStr) (peer : PeerRef) : NodeM Unit := do
  modifyGroup name (·.join peer)
  modifyPeer peer fun p => { p with status := p.status + 1 }

/-- `zyre_group_leave`. -/
def groupLeave (name : CStr) (peer : PeerRef) : NodeM Unit := do
  modifyGroup name (·.leave peer)
  modifyPeer peer fun p => { p with status := p.status + 1 }

/-- `zyre_node_join_peer_group`. -/
def joinPeerGroup (peer : PeerRef) (name : CStr) : NodeM Unit := do
  requirePeerGroup name
  groupJoin name peer
  emit (.join peer.identity (← readPeer peer).nameStr name)

/-- `zyre_node_leave_peer_group`. -/
def leavePeerGroup (peer : PeerRef) (name : CStr) : NodeM Unit := do
  requirePeerGroup name
  groupLeave name peer
  emit (.leave peer.identity (← readPeer peer).nameStr name)

/-! ### Elections -/

/-- `zyre_group_set_election`. -/
def setElection (name : CStr) (election : Option Election) : NodeM Unit :=
  modifyGroup name fun g => { g with election := election }

/-- `zyre_group_set_leader`. -/
def setLeader (name : CStr) (leader : Option PeerRef) : NodeM Unit :=
  modifyGroup name fun g => { g with leader := leader }

/-- `zyre_election_build_elect_msg`, with the group set on it. `zre_msg_set_challenger_id`
asserts that there is a wave. -/
def buildElectMsg (election : Election) (name : CStr) : NodeM Msg :=
  match election.caw with
  | some caw => pure (((Msg.new .elect).setChallengerId caw).setGroup name)
  | none => throw .assertion

/-- `zyre_election_build_leader_msg`, with the group set on it. -/
def buildLeaderMsg (election : Election) (name : CStr) : NodeM Msg :=
  match election.caw with
  | some caw => pure (((Msg.new .leader).setLeaderId caw).setGroup name)
  | none => throw .assertion

/-- The block that starts an election with the node's own challenge, repeated in the source at
each of its four places: a new election, no leader, and ELECT to every member. -/
def startElection (name : CStr) : NodeM Unit := do
  let election := Election.new.setCaw (← get).identity
  setElection name (some election)
  setLeader name none
  let electionMsg ← buildElectMsg election name
  groupSend name electionMsg

/-- `zyre_node_leader_peer_group`. -/
def leaderPeerGroup (identity name group : CStr) : NodeM Unit :=
  emit (.leader identity name group)

/-- The block that settles a group in which the node is alone: no leader peer, and a LEADER event
that names the node itself. -/
def leadAlone (name : CStr) : NodeM Unit := do
  setLeader name none
  leaderPeerGroup (← get).identity (← get).name name

end Node

end Zyre
