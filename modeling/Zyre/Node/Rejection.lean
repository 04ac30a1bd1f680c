import Zyre.Node.Endpoints
import Zyre.Node.Entries
import Zyre.Node.Malformed

/-!
# Discoveries that are rejected

A discovery can fail at four places: the sender of a HELLO is on the node's own endpoint, a secure
node finds no key in the HELLO, or the mailbox cannot be connected, for a HELLO or for any of the other
three ways to hear of a peer. By then the node may already have removed the entry the peer had, and
disconnected the peers on its endpoint. `undisturbed_iff` says when it has done neither.
-/

namespace Zyre

namespace Node

variable {n n' : Node} {X : CStr} {p : Peer} {env : Env} {uuid : Uuid} {msg : Msg} {input : Input}
  {endpoint : CStr} {key : Option CStr}

/-! ### The rejections -/

/-- The entry of the sender is not ready, and on the node's own endpoint. -/
def OnOwnEndpoint (n : Node) (X : CStr) : Prop :=
  ∃ p, n.peers.lookup X = some p ∧ p.ready = false ∧ p.endpointStr = n.endpoint

/-- The inputs a discovery ends with: nothing comes of them. -/
inductive Rejects (env : Env) (n : Node) (input : Input) : Prop
  | ownEndpoint (uuid : Uuid) (msg : Msg) (hinput : Hello input uuid msg)
      (hown : n.OnOwnEndpoint uuid.str)
  | keyless (uuid : Uuid) (msg : Msg) (hinput : Hello input uuid msg)
      (hown : ¬n.OnOwnEndpoint uuid.str) (hkeyless : Keyless n msg)
  | unconnected (uuid : Uuid) (msg : Msg) (hinput : Hello input uuid msg)
      (hnew : ∀ p, n.peers.lookup uuid.str = some p → p.ready = true) (hkeyed : Keyed env n msg)
      (hconnects : env.connects (env.endpointIface msg.endpoint) = false)
  | unanswered (uuid : Uuid) (endpoint : CStr) (key : Option CStr)
      (hinput : Asks n input uuid endpoint key) (hnew : n.peers.lookup uuid.str = none)
      (hkey : KeyOk env n key) (hconnects : env.connects (env.endpointIface endpoint) = false)

/-- The program runs to its end and leaves the peers, the groups with their members and elections, and
the outbox as they are. -/
def Undisturbed (x : NodeM Unit) (n : Node) : Prop :=
  ∃ n', x n = .ok ⟨⟩ n' ∧ n'.peers = n.peers ∧ n'.peerGroups = n.peerGroups ∧ n'.outbox = n.outbox

/-- No peer is connected to the endpoint. -/
def Vacant (n : Node) (endpoint : CStr) : Prop :=
  ∀ Y q, n.peers.lookup Y = some q → q.connected = true → q.endpoint ≠ endpoint

/-- The sender of a HELLO has no entry that is ready, and where a mailbox is to be connected no peer is
connected to the endpoint that is announced. -/
def Unclaimed (env : Env) (n : Node) (input : Input) : Prop :=
  (∀ uuid msg, Hello input uuid msg → (∀ p, n.peers.lookup uuid.str = some p → p.ready = false) ∧
    (n.peers.lookup uuid.str = none → Keyed env n msg → n.Vacant msg.endpoint)) ∧
  ∀ uuid endpoint key, Asks n input uuid endpoint key → n.Vacant endpoint

/-! ### HELLO -/

theorem Inert.undisturbed {x : NodeM Unit} (h : Inert x n) : Undisturbed x n := by
  obtain ⟨n', hok, hpeers, hgroups, houtbox, -⟩ := h
  exact ⟨n', hok, hpeers, hgroups, houtbox⟩

/-- A HELLO from a peer that is ready tells of its EXIT. -/
theorem not_undisturbed_of_ready (hid : msg.id = .hello) (hp : n.peers.lookup uuid.str = some p)
    (hready : p.ready = true) : ¬Undisturbed (recvMsg env uuid msg) n := by
  rintro ⟨n', hok, -, -, houtbox⟩
  obtain ⟨v, harrival, hreaches⟩ := EStateM.wp_of_ok hok recvMsg_spec
  have hentry : (n.view uuid.str).entry = some p.still := by simp [hp]
  have hlog : v.log = (n.view uuid.str).log := by
    rw [← hreaches.view]
    simp only [view_log, log, houtbox]
  cases harrival with
  | ignored h =>
    have hnot : p.ready = false := h p.still hentry
    rw [hready] at hnot
    cases hnot
  | refused p' _ he hr => exact PeerView.log_exit_ne (List.prefix_refl _) hlog
  | lostHello w _ hw hseq => exact PeerView.log_exit_ne hw.log_prefix hlog
  | greeted w _ hw hseq => exact PeerView.log_greet_ne (w := w.count 1) hw.log_prefix hlog
  | lost p' hid' => exact absurd hid hid'
  | bye p' hid' => cases hid.symm.trans hid'
  | taken p' hid' => exact absurd hid hid'

/-- Where the mailbox of a HELLO can not be connected, the tables are disturbed if a peer is on the
endpoint. -/
theorem undisturbed_hello_of_none (hid : msg.id = .hello) (hlook : n.peers.lookup uuid.str = none)
    (hkeyed : Keyed env n msg) (hconnects : env.connects (env.endpointIface msg.endpoint) = false) :
    Undisturbed (recvMsg env uuid msg) n ↔ n.Vacant msg.endpoint := by
  constructor
  · rintro ⟨n', hok, hpeers, -⟩
    obtain rfl := EStateM.wp_of_ok hok (recvMsg_unconnected hid hlook hkeyed hconnects)
    exact purged_peers_iff.mp hpeers
  · intro h
    exact ((inert_hello_of_keyed hid hlook hkeyed).mpr ⟨hconnects, h⟩).undisturbed

theorem Hello.step (h : Hello input uuid msg) : Node.step env input = recvMsg env uuid msg := by
  obtain ⟨frames, rfl, hsender, rfl, -⟩ := h
  exact recvPeer_of_sender hsender

theorem Hello.id (h : Hello input uuid msg) : msg.id = .hello := by
  obtain ⟨-, -, -, -, hid⟩ := h
  exact hid

/-- The sender and the message of a HELLO. -/
theorem Hello.unique {uuid' : Uuid} {msg' : Msg} (h : Hello input uuid msg)
    (h' : Hello input uuid' msg') : uuid' = uuid ∧ msg' = msg := by
  obtain ⟨frames, rfl, hsender, rfl, -⟩ := h
  obtain ⟨frames', hframes, hsender', rfl, -⟩ := h'
  obtain rfl := Input.inbox.inj hframes
  exact ⟨(Option.some_inj.mp (hsender.symm.trans hsender')).symm, rfl⟩

theorem Hello.not_asks (h : Hello input uuid msg) {uuid' : Uuid} : ¬Asks n input uuid' endpoint key := by
  obtain ⟨frames, rfl, -⟩ := h
  rintro ⟨⟩

/-- A HELLO keeps to the condition if its sender is not ready and the endpoint is free. -/
theorem Hello.unclaimed_iff (h : Hello input uuid msg) : Unclaimed env n input ↔
    (∀ p, n.peers.lookup uuid.str = some p → p.ready = false) ∧
      (n.peers.lookup uuid.str = none → Keyed env n msg → n.Vacant msg.endpoint) := by
  constructor
  · intro hunclaimed
    exact hunclaimed.1 uuid msg h
  · intro hcond
    refine ⟨fun uuid' msg' h' => ?_, fun uuid' endpoint key hasks => absurd hasks h.not_asks⟩
    obtain ⟨rfl, rfl⟩ := h.unique h'
    exact hcond

/-! ### The other inputs -/

/-- What such an input comes to. -/
theorem Asks.step (h : Asks n input uuid endpoint key) :
    Node.step env input n = (do let _ ← requirePeer env uuid endpoint key : NodeM Unit) n := by
  cases h with
  | api uuid endpoint key hother =>
    show (if endpoint ≠ n.endpoint then _ else pure ⟨⟩ : NodeM Unit) n = _
    rw [if_pos hother]
  | beacon ipaddress frame publicKey hversion hkey hport =>
    show (if (beaconBytes frame).getD 3 0 ≠ n.beaconVersion then pure ⟨⟩
      else if n.secretKey.isSome ∧ (beaconBytes frame).getD 22 0 = 0 then pure ⟨⟩
      else if numberOf (((beaconBytes frame).drop 20).take 2) ≠ 0 then _ else _ : NodeM Unit) n = _
    rw [if_neg (not_not.mpr hversion), if_neg hkey, if_pos hport]
    rfl
  | gossip uuid service hother hadvertised =>
    show (if gossipEndpoint service ≠ n.endpoint ∧ some (gossipEndpoint service) ≠ n.advertisedEndpoint
      then _ else pure ⟨⟩ : NodeM Unit) n = _
    rw [if_pos ⟨hother, hadvertised⟩]
    rfl

theorem Asks.unique {uuid' : Uuid} {endpoint' : CStr} {key' : Option CStr}
    (h : Asks n input uuid endpoint key) (h' : Asks n input uuid' endpoint' key') :
    endpoint' = endpoint := by
  cases h <;> cases h' <;> rfl

theorem Asks.unclaimed_iff (h : Asks n input uuid endpoint key) :
    Unclaimed env n input ↔ n.Vacant endpoint := by
  constructor
  · intro hunclaimed
    exact hunclaimed.2 uuid endpoint key h
  · intro hvacant
    refine ⟨fun uuid' msg' h' => absurd h h'.not_asks, fun uuid' endpoint' key' h' => ?_⟩
    obtain rfl := h.unique h'
    exact hvacant

theorem undisturbed_requirePeer (hnew : n.peers.lookup uuid.str = none) (hkey : KeyOk env n key)
    (hconnects : env.connects (env.endpointIface endpoint) = false) :
    Undisturbed (do let _ ← requirePeer env uuid endpoint key) n ↔ n.Vacant endpoint := by
  have hrun : (do let _ ← requirePeer env uuid endpoint key : NodeM Unit).wp
      (fun _ n' => n' = { n.purged endpoint with serial := n.serial + 1 }) (fun _ _ => False) n := by
    rw [EStateM.wp_bind, wp_requirePeer_of_none hnew hkey, if_neg (by simp [hconnects])]
    rfl
  constructor
  · rintro ⟨n', hok, hpeers, -⟩
    obtain rfl := EStateM.wp_of_ok hok hrun
    exact purged_peers_iff.mp hpeers
  · intro h
    have hpurged : (n.purged endpoint).peers = n.peers := purged_peers_iff.mpr h
    refine (inert_of_wp (EStateM.wp_mono hrun ?_ fun _ _ h => h)).undisturbed
    rintro _ n' rfl
    exact ⟨hpurged, rfl, rfl, rfl⟩

/-! ### Every rejection -/

/-- **Rejected discovery.** A discovery that is rejected leaves the node as it was exactly if the sender of
a HELLO has no entry that is ready and, where a mailbox was to be connected, no peer is connected to the
endpoint. Both are given up before it is known whether the discovery succeeds: the ready entry is removed,
with its EXIT, and the other peer is disconnected. -/
theorem undisturbed_iff (h : Rejects env n input) :
    Undisturbed (Node.step env input) n ↔ Unclaimed env n input := by
  cases h with
  | ownEndpoint uuid msg hinput hown =>
    obtain ⟨p, hp, hready, hend⟩ := hown
    rw [hinput.step, hinput.unclaimed_iff]
    refine iff_of_true ((inert_hello_of_some hinput.id hp hready).mpr (Or.inl hend)).undisturbed ?_
    refine ⟨fun q hq => ?_, fun hnone => nomatch hp.symm.trans hnone⟩
    obtain rfl := Option.some_inj.mp (hp.symm.trans hq)
    exact hready
  | keyless uuid msg hinput hown hkeyless =>
    rw [hinput.step, hinput.unclaimed_iff]
    have hkeyed : ¬Keyed env n msg := by
      intro h
      obtain ⟨k, hk, -⟩ := h hkeyless.1
      exact nomatch hkeyless.2.2.symm.trans hk
    cases hlook : n.peers.lookup uuid.str with
    | none =>
      refine iff_of_true ((inert_hello_of_none hinput.id hlook).mpr (Or.inl hkeyless)).undisturbed ?_
      exact ⟨nofun, fun _ h => absurd h hkeyed⟩
    | some p =>
      cases hready : p.ready with
      | true =>
        refine iff_of_false (not_undisturbed_of_ready hinput.id hlook hready) fun h => ?_
        exact nomatch hready.symm.trans (h.1 p rfl)
      | false =>
        refine iff_of_true ?_ ⟨fun q hq => ?_, nofun⟩
        · exact ((inert_hello_of_some hinput.id hlook hready).mpr (Or.inr hkeyless)).undisturbed
        · obtain rfl := Option.some_inj.mp hq
          exact hready
  | unconnected uuid msg hinput hnew hkeyed hconnects =>
    rw [hinput.step, hinput.unclaimed_iff]
    cases hlook : n.peers.lookup uuid.str with
    | none =>
      rw [undisturbed_hello_of_none hinput.id hlook hkeyed hconnects]
      exact ⟨fun h => ⟨nofun, fun _ _ => h⟩, fun h => h.2 rfl hkeyed⟩
    | some p =>
      have hready := hnew p hlook
      refine iff_of_false (not_undisturbed_of_ready hinput.id hlook hready) fun h => ?_
      exact nomatch hready.symm.trans (h.1 p rfl)
  | unanswered uuid endpoint key hinput hnew hkey hconnects =>
    have hstep : Undisturbed (Node.step env input) n ↔
        Undisturbed (do let _ ← requirePeer env uuid endpoint key) n := by
      simp only [Undisturbed, hinput.step]
    rw [hstep, hinput.unclaimed_iff, undisturbed_requirePeer hnew hkey hconnects]

/-- Nothing can be connected. -/
def deafEnv : Env := ⟨0, fun _ => false, fun _ => true, false, ∅⟩

/-- A node that knows a peer, which is in a group, is asked for another one that it can not connect to. -/
theorem undisturbed_requirePeer_deaf : Undisturbed (Node.step deafEnv
    (.api (.requirePeer (sampleUuid 2) (sampleEndpoint 'q') none))) greetedNode := by
  have hasks : Asks greetedNode (.api (.requirePeer (sampleUuid 2) (sampleEndpoint 'q') none))
      (sampleUuid 2) (sampleEndpoint 'q') none := .api _ _ _ (by decide)
  have hvacant : greetedNode.Vacant (sampleEndpoint 'q') := by
    intro Y q hq _
    have hall : ∀ e ∈ greetedNode.peers.entries, e.2.endpoint ≠ sampleEndpoint 'q' := by decide +kernel
    exact hall _ (AList.mem_lookup_iff.mp hq)
  have hrejects : Rejects deafEnv greetedNode (.api (.requirePeer (sampleUuid 2) (sampleEndpoint 'q') none)) :=
    .unanswered _ _ _ hasks (by decide +kernel) (fun hsecure => absurd hsecure (by decide)) rfl
  exact (undisturbed_iff hrejects).mpr (hasks.unclaimed_iff.mpr hvacant)

/-- A peer that is ready says HELLO again and can not be connected: its EXIT is told. -/
theorem not_undisturbed_of_exit :
    ¬∀ env n input, Reachable n → Rejects env n input → Undisturbed (Node.step env input) n := by
  intro h
  have hready : ∀ p, greetedNode.peers.lookup (sampleUuid 1).str = some p → p.ready = true := by
    have hmap : (greetedNode.peers.lookup (sampleUuid 1).str).map (·.ready) = some true := by decide
    intro p hp
    rw [hp] at hmap
    exact Option.some_inj.mp hmap
  have hrejects : Rejects deafEnv greetedNode (sampleInput 1 sampleHello) :=
    .unconnected (sampleUuid 1) _ ⟨_, rfl, by decide, rfl, by decide⟩ hready
      (fun hsecret => nomatch hsecret) rfl
  obtain ⟨n', hok, -, -, houtbox⟩ := h deafEnv greetedNode _ reachable_greetedNode hrejects
  have htold : (final (Node.step deafEnv (sampleInput 1 sampleHello) greetedNode)).outbox.length =
      greetedNode.outbox.length + 1 := by
    decide +kernel
  rw [hok] at htold
  simp only [final, houtbox] at htold
  omega

end Node

end Zyre
