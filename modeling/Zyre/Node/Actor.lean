import Zyre.Node.RecvApi

/-!
# The node's other inputs, and its runs

Beacons, gossip deliveries and reap passes, and the step function `step` over everything the actor
loop can be woken by. `Reachable` collects the states a node can be in after any sequence of inputs
in any surroundings.
-/

namespace Zyre

/-- What the actor loop handles in one iteration. A beacon comes as the address of its sender and
its frame; `publicKey` is the Z85 form libzmq computes of the 32 key bytes. A gossip delivery comes
as the UUID `zuuid_set_str` leaves and the published service. A reap pass comes as the identities
the iteration over the hash table visits, in its order. -/
inductive Input
  | inbox (frames : List Frame)
  | api (command : Command)
  | beacon (ipaddress : CStr) (frame : Frame) (publicKey : CStr)
  | gossip (uuid : Uuid) (service : CStr)
  | reap (visited : List CStr)

/-- `sprintf ("%d")` of a port number. -/
def CStr.ofNat (n : ℕ) : CStr := CStr.ofChars (Nat.toDigits 10 n)

namespace Node

/-! ### Beacons -/

/-- `beacon_t` as `memcpy` fills it: zero behind the end of the frame, and all zero if the frame
has neither of the two sizes. -/
def beaconBytes (frame : Frame) : List UInt8 :=
  if frame.length = 22 ∨ frame.length = 54 then frame ++ List.replicate (54 - frame.length) 0
  else List.replicate 54 0

/-- The UUID in a beacon. -/
def beaconUuid (frame : Frame) : Uuid :=
  ⟨((beaconBytes frame).drop 4).take zuuidLen, by
    have hlen : (beaconBytes frame).length = 54 := by
      unfold beaconBytes
      split_ifs with h
      · rcases h with h | h <;> simp [h]
      · simp
    simp [hlen, zuuidLen]⟩

/-- `zyre_node_recv_beacon`. -/
def recvBeacon (env : Env) (ipaddress : CStr) (frame : Frame) (publicKey : CStr) :
    NodeM Unit := do
  let bytes := beaconBytes frame
  let version := bytes.getD 3 0
  let port := numberOf ((bytes.drop 20).take 2)
  let n ← get
  if version ≠ n.beaconVersion then pure ()
  else if n.secretKey.isSome ∧ bytes.getD 22 0 = 0 then pure ()
  else if port ≠ 0 then do
    let endpoint := CStr.ofChars "tcp://".toList ++ ipaddress ++ CStr.ofChars [':'] ++ .ofNat port
    let key := if version = beaconVersionV3 then some publicKey else none
    let _ ← requirePeer env (beaconUuid frame) endpoint key
  else
    match ← lookupPeer (beaconUuid frame).str with
    | none => pure ()
    | some peer => removePeer peer

/-! ### Gossip -/

/-- `zyre_node_recv_gossip`: the service is an endpoint, with a public key behind a bar if there is
one. -/
def recvGossip (env : Env) (uuid : Uuid) (service : CStr) : NodeM Unit := do
  let endpoint := CStr.ofBytes (service.bytes.takeWhile (· != 124))
  let publicKey :=
    if 124 ∈ service.bytes then
      some (CStr.ofBytes ((service.bytes.dropWhile (· != 124)).drop 1))
    else none
  let n ← get
  if endpoint ≠ n.endpoint ∧ some endpoint ≠ n.advertisedEndpoint then do
    let _ ← requirePeer env uuid endpoint publicKey

/-! ### Reaping -/

/-- `s_reap_interval`. -/
def reapInterval (n : Node) : UInt64 := min (min n.evasiveTimeout n.expiredTimeout) 1000

/-- `zyre_node_ping_peer`. -/
def pingPeer (env : Env) (peer : PeerRef) : NodeM Unit := do
  let p ← readPeer peer
  if p.expiredAt.toInt64 ≤ env.now then removePeer peer
  else if p.evasiveAt.toInt64 ≤ env.now then do
    peerSend peer (Msg.new .ping)
    emit (.evasive peer.identity p.nameStr)
    let silentAt := p.evasiveAt + reapInterval (← get)
    if silentAt.toInt64 ≤ env.now then emit (.silent peer.identity p.nameStr)

/-- The reap loop of `zyre_node_actor`, over the entries its iteration visits. -/
def reap (env : Env) (visited : List CStr) : NodeM Unit :=
  forM visited fun identity => do
    match ← lookupPeer identity with
    | none => pure ()
    | some peer => pingPeer env peer

/-! ### Runs -/

/-- One iteration of the actor loop. -/
def step (env : Env) : Input → NodeM Unit
  | .inbox frames => recvPeer env frames
  | .api command => recvApi env command
  | .beacon ipaddress frame publicKey => recvBeacon env ipaddress frame publicKey
  | .gossip uuid service => recvGossip env uuid service
  | .reap visited => reap env visited

/-- `zyre_node_new`, with the inbox bound to `endpoint`. The default name is the first six
characters of the UUID. -/
def new (uuid : Uuid) (endpoint : CStr) : Node where
  uuid := uuid
  name := uuid.str.truncate 6
  endpoint := endpoint
  advertisedEndpoint := none
  beaconPort := 5670
  beaconVersion := 1
  beacon := false
  gossip := false
  evasiveTimeout := 5000
  expiredTimeout := 30000
  status := 0
  peers := ∅
  peerGroups := ∅
  ownGroups := []
  headers := ∅
  publicKey := none
  secretKey := none
  serial := 0
  outbox := []
  mail := []

/-- The states a node can be in. -/
inductive Reachable : Node → Prop
  | new (uuid : Uuid) (endpoint : CStr) : Reachable (Node.new uuid endpoint)
  | step {n n' : Node} (env : Env) (input : Input) (hn : Reachable n)
      (h : Node.step env input n = .ok ⟨⟩ n') : Reachable n'

/-- Handle the inputs one after the other; `none` if one of them stops the program. -/
def play : List (Env × Input) → Node → Option Node
  | [], n => some n
  | (env, input) :: rest, n =>
    match step env input n with
    | .ok _ n' => play rest n'
    | .error _ _ => none

theorem reachable_of_play {inputs : List (Env × Input)} {n n' : Node} (hn : Reachable n)
    (h : play inputs n = some n') : Reachable n' := by
  induction inputs generalizing n with
  | nil => exact Option.some_inj.mp h ▸ hn
  | cons input rest ih =>
    obtain ⟨env, input⟩ := input
    simp only [play] at h
    split at h
    · next n₁ hstep => exact ih (.step env input hn hstep) h
    · cases h

theorem Reachable.play (hn : Reachable n) (inputs : List (Env × Input)) :
    Reachable ((play inputs n).getD n) := by
  cases h : Node.play inputs n with
  | none => exact hn
  | some n' => exact reachable_of_play hn h

end Node

end Zyre
