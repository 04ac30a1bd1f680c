import Zyre.Msg.Recv
import Zyre.Node.Discovery

/-!
# Handling a message from a peer

`recvPeer` is `zyre_node_recv_peer`. Its parts follow the source: `helloGate` looks the sender up
and, on HELLO, requires it; `recvMsg` drops what comes from a peer that is not ready, checks the
sequence number and hands the message to the branch of its command.
-/

namespace Zyre

namespace Node

/-! ### The gate -/

/-- The header that carries a node's CURVE public key. -/
def xPublickey : CStr := CStr.ofChars "X-PUBLICKEY".toList

/-- The second half of the HELLO gate: find or create the sender's entry. In secure mode a HELLO
without a public key does not get one. -/
def helloRequire (env : Env) (uuid : Uuid) (msg : Msg) : NodeM (Option PeerRef) := do
  match (← get).secretKey with
  | none => requirePeer env uuid msg.endpoint none
  | some _ =>
    match msg.headers with
    | none => throw .nullContainer
    | some headers =>
      match headers.lookup xPublickey with
      | some publicKey => do
        assert (decide (publicKey ≠ ∅))
        requirePeer env uuid msg.endpoint (some publicKey)
      | none => pure none

/-- `zyre_peer_set_ready` on the sender, if there is one. -/
def setReady : Option PeerRef → NodeM (Option PeerRef)
  | none => pure none
  | some peer => do
    modifyPeer peer fun p => { p with ready := true }
    pure (some peer)

/-- The sender is required and marked ready. -/
def helloAdmit (env : Env) (uuid : Uuid) (msg : Msg) : NodeM (Option PeerRef) := do
  setReady (← helloRequire env uuid msg)

/-- The HELLO gate: remove an obsolete peer, ignore a peer on the node's own endpoint, require
the sender and mark it ready. -/
def helloGate (env : Env) (uuid : Uuid) (msg : Msg) : NodeM (Option PeerRef) := do
  let ignored ← match ← lookupPeer uuid.str with
    | none => pure false
    | some peer => do
      let p ← readPeer peer
      if p.ready then do
        removePeer peer
        assert (← lookupPeer uuid.str).isNone
        pure false
      else
        pure (decide (p.endpointStr = (← get).endpoint))
  if ignored then pure none else helloAdmit env uuid msg

/-- The sender's entry: on HELLO it may be created, on other commands it must already exist. -/
def senderGate (env : Env) (uuid : Uuid) (msg : Msg) : NodeM (Option PeerRef) :=
  if msg.id = .hello then helloGate env uuid msg else lookupPeer uuid.str

/-! ### The commands -/

/-- One round of the loop over the groups listed in HELLO. -/
def helloGroup (peer : PeerRef) (name : CStr) : NodeM Unit := do
  joinPeerGroup peer name
  if (← getGroup name).contest then startElection name

/-- HELLO. -/
def recvHello (peer : PeerRef) (msg : Msg) : NodeM Unit := do
  modifyPeer peer fun p => { p with name := some msg.name, headers := msg.headers }
  emit (.enter peer.identity msg.name msg.headers msg.endpoint)
  match msg.groups with
  | none => throw .nullContainer
  | some groups => forM groups (helloGroup peer)
  modifyPeer peer fun p => { p with status := msg.status }

/-- WHISPER. -/
def recvWhisper (peer : PeerRef) (msg : Msg) : NodeM Unit := do
  emit (.whisper peer.identity (← readPeer peer).nameStr msg.content)

/-- SHOUT. -/
def recvShout (peer : PeerRef) (msg : Msg) : NodeM Unit := do
  emit (.shout peer.identity (← readPeer peer).nameStr msg.group msg.content)

/-- PING. -/
def recvPing (peer : PeerRef) : NodeM Unit := peerSend peer (Msg.new .pingOk)

/-- JOIN. -/
def recvJoin (peer : PeerRef) (msg : Msg) : NodeM Unit := do
  joinPeerGroup peer msg.group
  assert (decide (msg.status = (← readPeer peer).status))
  if msg.group ∈ (← get).ownGroups then do
    if (← getGroup msg.group).contest then startElection msg.group

/-- LEAVE. -/
def recvLeave (peer : PeerRef) (msg : Msg) : NodeM Unit := do
  leavePeerGroup peer msg.group
  assert (decide (msg.status = (← readPeer peer).status))
  if msg.group ∈ (← get).ownGroups then do
    let group ← getGroup msg.group
    if group.contest then
      match group.leader with
      | none => pure ()
      | some groupLeader => do
        let _ ← readPeer groupLeader
        if groupLeader.identity = peer.identity then do
          setElection msg.group none
          if group.size = 0 then leadAlone msg.group else startElection msg.group

/-- ELECT, first half: a superior challenger takes over, and its wave is passed on to every member
but the sender. The members are looked up again by identity. -/
def followChallenger (peer : PeerRef) (msg : Msg) : NodeM Unit := do
  let election := (Election.new.setCaw msg.challengerId).setFather peer
  setElection msg.group (some election)
  let electionMsg ← buildElectMsg election msg.group
  forM (← getGroup msg.group).peers.keys fun groupPeer => do
    if groupPeer ≠ peer.identity then
      match ← lookupPeer groupPeer with
      | none => throw .assertion
      | some receiver => peerSend receiver electionMsg

/-- ELECT, second half: count the echo of the wave the node is in, and when every member has
answered decide (the node's own wave) or echo to the father. `zyre_peer_send` asserts that there
is a father. -/
def supportChallenger (msg : Msg) (election : Election) : NodeM Unit := do
  let election := election.incrementErec
  setElection msg.group (some election)
  if election.erecComplete (← getGroup msg.group) then
    if election.caw = some (← get).identity then do
      let leaderMsg ← buildLeaderMsg election msg.group
      groupSend msg.group leaderMsg
    else do
      let electionMsg ← buildElectMsg election msg.group
      match election.father with
      | none => throw .assertion
      | some father => peerSend father electionMsg

/-- ELECT. -/
def recvElect (peer : PeerRef) (msg : Msg) : NodeM Unit := do
  requirePeerGroup msg.group
  modifyGroup msg.group (·.requireElection)
  let election := (← getGroup msg.group).election.getD .new
  if election.challengerSuperior msg.challengerId then followChallenger peer msg
  let election := (← getGroup msg.group).election.getD .new
  -- `zyre_election_supporting_challenger` asserts that there is a wave.
  assert election.caw.isSome
  if election.caw = some msg.challengerId then supportChallenger msg election

/-- LEADER, once it has been counted: if every member has sent it the election is over, and the
application is told unless the leader is a peer the node does not know. -/
def finishElection (msg : Msg) (election : Election) : NodeM Unit := do
  if election.lrecComplete (← getGroup msg.group) then do
    if msg.leaderId = (← get).identity then
      leaderPeerGroup (← get).identity (← get).name msg.group
    else
      match ← lookupPeer msg.leaderId with
      | none => pure ()
      | some leaderPeer => do
        setLeader msg.group (some leaderPeer)
        leaderPeerGroup leaderPeer.identity (← readPeer leaderPeer).nameStr msg.group
    setElection msg.group none

/-- LEADER. Without a wave the message only leaves an empty election behind. -/
def recvLeader (msg : Msg) : NodeM Unit := do
  requirePeerGroup msg.group
  modifyGroup msg.group (·.requireElection)
  let election := (← getGroup msg.group).election.getD .new
  if election.caw.isSome then do
    if (← get).identity ≠ msg.leaderId ∧ ¬election.lrecStarted then do
      let leaderMsg ← buildLeaderMsg election msg.group
      groupSend msg.group leaderMsg
    let election := election.incrementLrec.setLeader msg.leaderId
    setElection msg.group (some election)
    finishElection msg election

/-- The branches over the command; the answer says whether the peer is still there. -/
def dispatch (peer : PeerRef) (msg : Msg) : NodeM Bool :=
  match msg.id with
  | .hello => do recvHello peer msg; pure true
  | .whisper => do recvWhisper peer msg; pure true
  | .shout => do recvShout peer msg; pure true
  | .ping => do recvPing peer; pure true
  | .join => do recvJoin peer msg; pure true
  | .leave => do recvLeave peer msg; pure true
  | .elect => do recvElect peer msg; pure true
  | .leader => do recvLeader msg; pure true
  | .goodbye => do
    if (← get).gossip then do
      removePeer peer
      pure false
    else pure true
  | .pingOk | .unset => pure true

/-! ### `zyre_node_recv_peer` -/

/-- The peer is ready: check the sequence number, process the command, and restart the timers of a
peer that is still there. -/
def acceptMsg (env : Env) (peer : PeerRef) (msg : Msg) : NodeM Unit := do
  let (lost, counted) := (← readPeer peer).messagesLost msg
  modifyPeer peer fun _ => counted
  if lost then removePeer peer
  else
    if ← dispatch peer msg then do
      let n ← get
      modifyPeer peer (·.refresh env.now n.evasiveTimeout n.expiredTimeout)

/-- What `zyre_node_recv_peer` does with a message whose sender is `uuid`. -/
def recvMsg (env : Env) (uuid : Uuid) (msg : Msg) : NodeM Unit := do
  match ← senderGate env uuid msg with
  | none => pure ()
  | some peer =>
    if (← readPeer peer).ready then acceptMsg env peer msg

/-- `zyre_node_recv_peer`, on a multipart message. The identity must be one byte followed by a
UUID. -/
def recvPeer (env : Env) (frames : List Frame) : NodeM Unit :=
  let r := Msg.recv frames
  if r.rc ≠ 0 then pure ()
  else if h : r.routingId.length = zuuidLen + 1 then
    recvMsg env ⟨r.routingId.drop 1, by simp [h]⟩ r.msg
  else pure ()

end Node

end Zyre
