import Zyre.Node.RecvPeer

/-!
# Commands of the application

`recvApi` is `zyre_node_recv_api` on a command that has been read off the pipe. The commands that
only answer a question leave the node as it is and are not modelled, nor are those that set fields
no function here reads (verbosity, the beacon interval, the ephemeral port, the ZAP domain, the
gossip endpoints beyond starting the gossip service).
-/

namespace Zyre

/-- A command with its arguments. Numbers are what `atoi` makes of the text, `setEndpoint` carries
the endpoint the inbox is bound to afterwards, if binding succeeds, and `requirePeer` the UUID that
`zuuid_set_str` leaves. -/
inductive Command
  | setName (name : CStr)
  | setHeader (name value : CStr)
  | setPort (value : Int32)
  | setEvasiveTimeout (value : Int32)
  | setExpiredTimeout (value : Int32)
  | setContest (group : CStr)
  | setAdvertisedEndpoint (endpoint : CStr)
  | setEndpoint (bound : Option CStr)
  | setPublickey (key : CStr)
  | setSecretkey (key : CStr)
  | gossipBind
  | gossipConnect
  | start
  | stop
  | whisper (identity : CStr) (content : List Frame)
  | shout (group : CStr) (content : List Frame)
  | join (group : CStr)
  | leave (group : CStr)
  | requirePeer (uuid : Uuid) (endpoint : CStr) (publicKey : Option CStr)
  | peerName (identity : CStr)

namespace Node

/-- `BEACON_VERSION_V3`. -/
def beaconVersionV3 : UInt8 := 3

/-- `zyre_node_gossip_start`. -/
def gossipStart : NodeM Unit :=
  modify fun n => if n.gossip then n else { n with beaconPort := 0, gossip := true }

/-- `zyre_node_start`. -/
def start : NodeM Unit := do
  let n ← get
  if n.secretKey.isSome then assert n.publicKey.isSome
  if n.beaconPort ≠ 0 then do
    assert !n.beacon
    set { n with
      beaconVersion := if n.secretKey.isSome then beaconVersionV3 else n.beaconVersion
      beacon := true }
  else assert n.gossip

/-- `zyre_node_stop`. -/
def stop : NodeM Unit := do
  if (← get).gossip then sendPeers (Msg.new .goodbye)
  modify fun n => { n with beacon := false }
  let n ← get
  emit (.stop n.identity n.name)

/-- WHISPER. -/
def apiWhisper (identity : CStr) (content : List Frame) : NodeM Unit := do
  match ← lookupPeer identity with
  | none => pure ()
  | some peer => peerSend peer { Msg.new .whisper with content := some content }

/-- SHOUT. -/
def apiShout (name : CStr) (content : List Frame) : NodeM Unit := do
  if ((← get).peerGroups.lookup name).isSome then
    groupSend name { (Msg.new .shout).setGroup name with content := some content }

/-- JOIN. -/
def apiJoin (name : CStr) : NodeM Unit := do
  if name ∉ (← get).ownGroups then do
    modify fun n => { n with ownGroups := n.ownGroups ++ [name], status := n.status + 1 }
    sendPeers { (Msg.new .join).setGroup name with status := (← get).status }

/-- LEAVE. -/
def apiLeave (name : CStr) : NodeM Unit := do
  if name ∈ (← get).ownGroups then do
    modify fun n => { n with status := n.status + 1 }
    sendPeers { (Msg.new .leave).setGroup name with status := (← get).status }
    modify fun n => { n with ownGroups := n.ownGroups.erase name }

/-- REQUIRE PEER. -/
def apiRequirePeer (env : Env) (uuid : Uuid) (endpoint : CStr) (publicKey : Option CStr) :
    NodeM Unit := do
  if endpoint ≠ (← get).endpoint then do
    let _ ← requirePeer env uuid endpoint publicKey

/-- `zyre_node_recv_api`. -/
def recvApi (env : Env) : Command → NodeM Unit
  | .setName name => modify fun n => { n with name := name }
  | .setHeader name value => modify fun n => { n with headers := n.headers.insert name value }
  | .setPort value => modify fun n => { n with beaconPort := value }
  | .setEvasiveTimeout value =>
    modify fun n => { n with evasiveTimeout := value.toInt64.toUInt64 }
  | .setExpiredTimeout value =>
    modify fun n => { n with expiredTimeout := value.toInt64.toUInt64 }
  | .setContest group => do
    requirePeerGroup group
    modifyGroup group fun g => { g with contest := true }
  | .setAdvertisedEndpoint endpoint =>
    modify fun n => { n with advertisedEndpoint := some endpoint }
  | .setEndpoint bound => do
    gossipStart
    modify fun n => { n with endpoint := bound.getD n.endpoint }
  | .setPublickey key =>
    modify fun n => { n with
      publicKey := some key
      headers := n.headers.insert xPublickey key }
  | .setSecretkey key => modify fun n => { n with secretKey := some key }
  | .gossipBind | .gossipConnect => gossipStart
  | .start => start
  | .stop => stop
  | .whisper identity content => apiWhisper identity content
  | .shout group content => apiShout group content
  | .join group => apiJoin group
  | .leave group => apiLeave group
  | .requirePeer uuid endpoint publicKey => apiRequirePeer env uuid endpoint publicKey
  | .peerName identity => do assert (← lookupPeer identity).isSome

end Node

end Zyre
