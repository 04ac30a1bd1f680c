import Zyre.Node.Basic

/-!
# Finding, connecting and removing peers

`requirePeer` finds or creates the entry of a UUID: it purges earlier peers on the endpoint,
creates the object, connects its mailbox and sends HELLO as the first message on it. `removePeer`
is the only way an entry that had been connected goes away again: it reports EXIT, restarts the
elections the peer mattered to, and takes the peer out of every group.
-/

namespace Zyre

/-! ### Endpoints -/

/-- A decimal digit, `\d`. -/
def isDigit (b : UInt8) : Bool := 48 ≤ b && b ≤ 57

/-- The two groups matched by `^tcp://(fe80[^%]+)(:\d+)$`, if the endpoint matches. The port is
what follows the last colon. -/
def linkLocal? (endpoint : CStr) : Option (List UInt8 × List UInt8) :=
  let back := endpoint.bytes.reverse
  let digits := back.takeWhile isDigit
  let front := ((back.dropWhile isDigit).drop 1).reverse
  let scheme := (CStr.ofChars "tcp://".toList).bytes
  let hostname := front.drop scheme.length
  let fe80 := (CStr.ofChars "fe80".toList).bytes
  if digits ≠ [] ∧ (back.dropWhile isDigit).head? = some 58 ∧ scheme <+: front ∧
      fe80 <+: hostname ∧ fe80.length < hostname.length ∧ 37 ∉ hostname then
    some (hostname, 58 :: digits.reverse)
  else none

/-- The endpoint `zyre_peer_connect` connects to: a link-local IPv6 address without interface gets
the configured interface, if that names one. -/
def Env.endpointIface (env : Env) (endpoint : CStr) : CStr :=
  if env.ipv6 ∧ env.interface ≠ ∅ ∧ env.interface ≠ CStr.ofChars ['*'] then
    match linkLocal? endpoint with
    | some (hostname, port) =>
      CStr.ofBytes ((CStr.ofChars "tcp://".toList).bytes ++ hostname ++ [37] ++
        env.interface.bytes ++ port)
    | none => endpoint
  else endpoint

/-- An endpoint without its interface name: the `memmove` from the last colon to the first percent
sign. -/
def stripIface (endpoint : CStr) : CStr :=
  let port := (endpoint.bytes.reverse.takeWhile (· != 58)).reverse
  CStr.ofBytes (endpoint.bytes.takeWhile (· != 37) ++ 58 :: port)

/-! ### Connecting -/

namespace Node

/-- `zyre_node_purge_peer`. -/
def purgePeer (endpoint : CStr) (p : Peer) : Peer :=
  if p.endpointStr = endpoint then p.disconnect else p

/-- `zyre_peer_new` into the peers table. -/
def newPeer (identity : CStr) : NodeM PeerRef := do
  let n ← get
  assert (n.peers.lookup identity).isNone
  set { n with
    peers := n.peers.insert identity (Peer.new n.serial)
    serial := n.serial + 1 }
  pure ⟨identity, n.serial⟩

/-- `zyre_peer_connect`. -/
def peerConnect (env : Env) (peer : PeerRef) (endpoint : CStr) : NodeM Int := do
  let p ← readPeer peer
  assert !p.connected
  let endpointIface := env.endpointIface endpoint
  match p.serverKey with
  | some serverKey => do
    assert p.publicKey.isSome
    assert p.secretKey.isSome
    unless env.serverKeyOk serverKey do throw .serverKey
  | none => pure ()
  if env.connects endpointIface then do
    modifyPeer peer fun p =>
      { p with endpoint := endpointIface, connected := true, ready := false }
    pure 0
  else
    pure (-1)

/-- The HELLO a node sends as the first message on a new mailbox. -/
def helloMsg (env : Env) (n : Node) : Msg :=
  let msg := Msg.new .hello
  let msg :=
    if env.ipv6 ∧ 37 ∈ n.endpoint.bytes then msg.setEndpoint (stripIface n.endpoint)
    else msg.setEndpoint (n.advertisedEndpoint.getD n.endpoint)
  { msg.setName n.name with
    groups := some n.ownGroups
    status := n.status
    headers := some n.headers }

@[simp] theorem helloMsg_id (env : Env) (n : Node) : (helloMsg env n).id = .hello := by
  simp only [helloMsg]
  split_ifs <;> rfl

/-- `zyre_node_require_peer`. -/
def requirePeer (env : Env) (uuid : Uuid) (endpoint : CStr) (publicKey : Option CStr) :
    NodeM (Option PeerRef) := do
  match ← lookupPeer uuid.str with
  | some peer => pure (some peer)
  | none => do
    modify fun n => { n with peers := n.peers.mapValues fun _ => purgePeer endpoint }
    let peer ← newPeer uuid.str
    let n ← get
    if n.publicKey.isSome && n.secretKey.isSome then do
      assert publicKey.isSome
      modifyPeer peer fun p =>
        { p with publicKey := n.publicKey, secretKey := n.secretKey, serverKey := publicKey }
    let rc ← peerConnect env peer endpoint
    if rc ≠ 0 then do
      deletePeer peer
      pure none
    else do
      peerSend peer (helloMsg env n)
      modifyPeer peer (·.refresh env.now n.evasiveTimeout n.expiredTimeout)
      pure (some peer)

/-! ### Removal -/

/-- The body of the loop over `own_groups` in `zyre_node_remove_peer`: restart the election of a
contested group if one is running there or if the leaving peer was its leader. -/
def leaveElection (peer : PeerRef) (name : CStr) : NodeM Unit := do
  requirePeerGroup name
  let group ← getGroup name
  if group.contest then do
    let leaderLeft ← match group.leader with
      | none => pure false
      | some groupLeader => do
        let _ ← readPeer groupLeader
        pure (decide (groupLeader.identity = peer.identity))
    let running := group.election.any fun e => !e.lrecComplete group
    if running || leaderLeft then do
      setElection name none
      if group.size = 1 then leadAlone name else startElection name

/-- `zyre_node_remove_peer`. -/
def removePeer (peer : PeerRef) : NodeM Unit := do
  emit (.exit peer.identity (← readPeer peer).nameStr)
  forM (← get).ownGroups (leaveElection peer)
  forM (← get).peerGroups.keys fun name => groupLeave name peer
  deletePeer peer

end Node

end Zyre
