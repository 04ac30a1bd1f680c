import Zyre.Node.Secure

/-!
# The endpoints of connected peers

Requiring a new peer first disconnects the peers on its endpoint, so that no two connected peers are on
the same one. The endpoints compared are the one announced and those the mailboxes were connected to;
where the two differ, because the connection was made through an interface, the rule holds only as
long as the endpoint with the interface is not in use.
-/

namespace Zyre

namespace Node

variable {n n' : Node} {X Y e name : CStr} {r : PeerRef} {p : Peer} {msg : Msg} {env : Env}
  {uuid : Uuid} {endpoint : CStr} {key : Option CStr} {K : Set MsgId}

/-! ### Connections -/

/-- The peer is connected to the endpoint. -/
def ConnectedTo (n : Node) (X e : CStr) : Prop :=
  ∃ p, n.peers.lookup X = some p ∧ p.connected = true ∧ p.endpoint = e

/-- No two connected peers are on one endpoint. -/
def EndpointsDiffer (n : Node) : Prop :=
  ∀ X Y e, n.ConnectedTo X e → n.ConnectedTo Y e → X = Y

/-- No connection is new. -/
def Narrows (n n' : Node) : Prop := ∀ X e, n'.ConnectedTo X e → n.ConnectedTo X e

instance : Std.Refl Narrows := ⟨fun _ _ _ h => h⟩

instance : IsTrans Node Narrows := ⟨fun _ _ _ h h' X e hX => h X e (h' X e hX)⟩

/-- Fewer connections are different as well. -/
theorem EndpointsDiffer.narrows (hn : n.EndpointsDiffer) (h : Narrows n n') : n'.EndpointsDiffer :=
  fun X Y e hX hY => hn X Y e (h X e hX) (h Y e hY)

theorem Inherits.narrows (h : Inherits (fun p => (p.connected, p.endpoint)) n n') :
    Narrows n n' := by
  rintro X e ⟨p', hp', hconn, hendpoint⟩
  obtain ⟨p, hp, hsame⟩ := h X p' hp'
  obtain ⟨hconn', hendpoint'⟩ := Prod.mk.inj hsame
  exact ⟨p, hp, hconn'.trans hconn, hendpoint'.trans hendpoint⟩

/-- Sending connects nobody. -/
theorem Moves.narrows (h : Moves K n n') : Narrows n n' := (h.inherits fun _ _ => rfl).narrows

/-- A removal connects nobody. -/
theorem removePeer_narrows : (removePeer r).Keeps Narrows (fun _ _ => True) n :=
  (removePeer_inherits (fun _ _ => rfl) fun _ _ => rfl).mono fun _ h => h.narrows

/-- Connections can be seen in the views. -/
theorem connectedTo_iff_view :
    n.ConnectedTo X e ↔ ∃ q, (n.view X).entry = some q ∧ q.connected = true ∧ q.endpoint = e := by
  constructor
  · rintro ⟨p, hp, hconn, hendpoint⟩
    exact ⟨p.still, by simp [hp], hconn, hendpoint⟩
  · rintro ⟨q, hq, hconn, hendpoint⟩
    obtain ⟨p, hp, rfl⟩ := Option.map_eq_some_iff.mp hq
    exact ⟨p, hp, hconn, hendpoint⟩

/-- The same views show the same connections. -/
theorem narrows_of_view (h : n'.view = n.view) : Narrows n n' := by
  intro X e hX
  rw [connectedTo_iff_view, h] at hX
  exact connectedTo_iff_view.mpr hX

/-! ### A message from a peer that is ready -/

/-- What a message does to the view of its sender makes no connection. -/
theorem Accepted.connection {gossip : Bool} {v w : PeerView} (h : Accepted gossip X msg v w) :
    w.entry = none ∨ w.entry.map (fun p => (p.connected, p.endpoint)) =
      v.entry.map fun p => (p.connected, p.endpoint) := by
  cases h with
  | lost p he hseq => exact Or.inl rfl
  | bye p hid he hseq hg => exact Or.inl rfl
  | greeted hid hseq => exact Or.inr (by simp [PeerView.greet, PeerView.count, Function.comp_def])
  | taken p hid he hseq hg =>
    refine Or.inr ?_
    unfold PeerView.take
    split <;> simp [PeerView.count, PeerView.join, PeerView.leave, Function.comp_def]

/-- The commands connect nobody: only the gate does. -/
theorem acceptMsg_narrows (hp : n.deref r = some p) :
    (acceptMsg env r msg).wp (fun _ n' => Narrows n n') (fun _ _ => True) n := by
  refine EStateM.wp_mono (acceptMsg_spec hp) ?_ fun _ _ _ => trivial
  rintro _ n' ⟨w, haccepted, hbecomes⟩ X e hX
  obtain ⟨q, hq, hconn, hendpoint⟩ := connectedTo_iff_view.mp hX
  rw [hbecomes.view] at hq
  refine connectedTo_iff_view.mpr ?_
  by_cases hXr : X = r.identity
  · subst hXr
    rw [Views.at_self] at hq
    rcases haccepted.connection with hnone | hsame
    · exact nomatch hnone.symm.trans hq
    · rw [hq, Option.map_some] at hsame
      obtain ⟨q₀, hq₀, hpair⟩ := Option.map_eq_some_iff.mp hsame.symm
      obtain ⟨hconn₀, hendpoint₀⟩ := Prod.mk.inj hpair
      exact ⟨q₀, hq₀, hconn₀.trans hconn, hendpoint₀.trans hendpoint⟩
  · rw [Views.at_ne hXr] at hq
    exact ⟨q, hq, hconn, hendpoint⟩

/-! ### Requiring a peer -/

/-- Whatever peer gets a mailbox on the endpoint, it is the only one there: either the endpoint is
connected to as it is, or no other peer is connected to what it is turned into. -/
def Exclusive (env : Env) (n : Node) (X endpoint : CStr) : Prop :=
  env.endpointIface endpoint = endpoint ∨
    ∀ Y, n.ConnectedTo Y (env.endpointIface endpoint) → Y = X

/-- An endpoint that is free stays so when connections go. -/
theorem Exclusive.narrows (h : Exclusive env n X endpoint) (hn : Narrows n n') :
    Exclusive env n' X endpoint :=
  h.imp_right fun hY Y hconn => hY Y (hn Y _ hconn)

/-- A purged node has no peer on the endpoint. -/
theorem connectedTo_purged (h : (n.purged endpoint).ConnectedTo X e) :
    n.ConnectedTo X e ∧ e ≠ endpoint := by
  obtain ⟨p', hp', hconn, hendpoint⟩ := h
  simp only [purged, AList.lookup_mapValues] at hp'
  obtain ⟨p, hp, rfl⟩ := Option.map_eq_some_iff.mp hp'
  by_cases hon : p.endpointStr = endpoint
  · rw [purgePeer, if_pos hon] at hconn
    simp at hconn
  · rw [purgePeer, if_neg hon] at hconn hendpoint
    refine ⟨⟨p, hp, hconn, hendpoint⟩, ?_⟩
    rintro rfl
    exact hon (by simp [Peer.endpointStr, hconn, hendpoint])

/-- The purge connects nobody. -/
theorem narrows_purged : Narrows n (n.purged endpoint) := fun _ _ h => (connectedTo_purged h).1

/-- A new peer is on the endpoint its mailbox was connected to; the others have left the one that was
announced. -/
theorem connectedTo_greeting (h : (greeting env n X endpoint key).ConnectedTo Y e) :
    Y = X ∧ e = env.endpointIface endpoint ∨ n.ConnectedTo Y e ∧ e ≠ endpoint := by
  obtain ⟨p, hp, hconn, hendpoint⟩ := h
  simp only [greeting, opening] at hp
  by_cases hY : Y = X
  · subst hY
    rw [AList.lookup_insert] at hp
    obtain rfl := Option.some_inj.mp hp
    exact Or.inl ⟨rfl, hendpoint.symm⟩
  · rw [AList.lookup_insert_ne hY] at hp
    exact Or.inr (connectedTo_purged ⟨p, hp, hconn, hendpoint⟩)

/-- **A new connection** keeps the endpoints different if no other peer is on what the endpoint is turned
into. -/
theorem EndpointsDiffer.greeting (hn : n.EndpointsDiffer) (hX : n.peers.lookup X = none)
    (h : Exclusive env n X endpoint) : (greeting env n X endpoint key).EndpointsDiffer := by
  -- A peer that was there before is not on the endpoint of the new one.
  have hother : ∀ Y, n.ConnectedTo Y (env.endpointIface endpoint) →
      env.endpointIface endpoint ≠ endpoint → False := by
    intro Y hY hne
    rcases h with h | h
    · exact hne h
    · obtain ⟨p, hp, -⟩ := h Y hY ▸ hY
      exact nomatch hX.symm.trans hp
  intro Y Z e hY hZ
  rcases connectedTo_greeting hY with ⟨hYX, rfl⟩ | ⟨hY₀, hne⟩
  · rcases connectedTo_greeting hZ with ⟨hZX, -⟩ | ⟨hZ₀, hne⟩
    · exact hYX.trans hZX.symm
    · exact (hother Z hZ₀ hne).elim
  · rcases connectedTo_greeting hZ with ⟨-, rfl⟩ | ⟨hZ₀, -⟩
    · exact (hother Y hY₀ hne).elim
    · exact hn Y Z e hY₀ hZ₀

/-- Requiring a peer keeps them different under the same condition, asked only where a mailbox is made. -/
theorem requirePeer_differ (h : n.peers.lookup uuid.str = none → KeyOk env n key →
    env.connects (env.endpointIface endpoint) = true → Exclusive env n uuid.str endpoint) :
    (requirePeer env uuid endpoint key).Maintains EndpointsDiffer n := by
  intro hn
  cases hnew : n.peers.lookup uuid.str with
  | some p => exact (wp_requirePeer_of_some hnew).mpr hn
  | none =>
    by_cases hkey : KeyOk env n key
    · rw [wp_requirePeer_of_none hnew hkey]
      split_ifs with hconnects
      · exact hn.greeting hnew (h hnew hkey hconnects)
      · exact hn.narrows narrows_purged
    · exact wp_requirePeer_of_not_keyOk hnew hkey fun _ _ _ _ => trivial

/-! ### The gate -/

/-- So does the HELLO that requires one. -/
theorem helloRequire_differ
    (h : n.peers.lookup uuid.str = none → Invites env n msg → Exclusive env n uuid.str msg.endpoint) :
    (helloRequire env uuid msg).Maintains EndpointsDiffer n := by
  intro hn
  simp only [helloRequire, EStateM.wp_bind, EStateM.wp_get]
  cases hsecret : n.secretKey with
  | none =>
    refine requirePeer_differ (fun hnew _ hconnects => h hnew ⟨hconnects, fun hsome => ?_⟩) hn
    rw [hsecret] at hsome
    cases hsome
  | some secret =>
    cases hheaders : msg.headers with
    | none => trivial
    | some headers =>
      cases hkey : headers.lookup xPublickey with
      | none =>
        simp only [hkey, EStateM.wp_pure]
        exact hn
      | some k =>
        simp only [hkey, EStateM.wp_bind, wp_assert, decide_eq_true_eq]
        refine ⟨fun hne => ?_, fun _ => trivial⟩
        refine requirePeer_differ (fun hnew hok hconnects => h hnew ⟨hconnects, fun _ => ?_⟩) hn
        refine ⟨k, by simp [publicKeyOf, hheaders, hkey], hne, fun hpublic => ?_⟩
        obtain ⟨k', hk', hserver⟩ := hok (by simp [secure, hsecret, hpublic])
        rwa [Option.mem_some_iff.mp hk']

/-- And the gate that makes the peer ready. -/
theorem helloAdmit_differ
    (h : n.peers.lookup uuid.str = none → Invites env n msg → Exclusive env n uuid.str msg.endpoint) :
    (helloAdmit env uuid msg).Maintains EndpointsDiffer n := by
  refine .bind (helloRequire_differ h) fun o n₁ => ?_
  cases o with
  | none => exact .pure _
  | some r =>
    refine .bind (fun hn => ?_) fun _ _ => .pure _
    refine wp_modifyPeer.mpr ⟨fun p hp => hn.narrows (Inherits.narrows (.modify fun _ _ => rfl)),
      fun _ => trivial⟩

/-- The HELLO gate makes a connection only for a sender that has no entry, or one that is ready, and only
if the mailbox can be connected. -/
theorem helloGate_differ (h : (∀ p, n.peers.lookup uuid.str = some p → p.ready = true) →
    Invites env n msg → Exclusive env n uuid.str msg.endpoint) :
    (helloGate env uuid msg).Maintains EndpointsDiffer n := by
  intro hn
  refine EStateM.wp_bind .. |>.mpr (wp_lookupPeer.mpr ?_)
  cases hlook : n.peers.lookup uuid.str with
  | none =>
    rw [hlook] at h
    exact helloAdmit_differ (fun _ => h fun _ hp => nomatch hp) hn
  | some p =>
    refine EStateM.wp_bind .. |>.mpr (wp_readPeer.mpr ⟨fun q hq => ?_, fun _ => trivial⟩)
    obtain rfl := Option.some_inj.mp ((deref_of_lookup hlook).symm.trans hq)
    refine EStateM.wp_ite .. |>.mpr ⟨fun hready => ?_, fun hready => ?_⟩
    · have hremove := EStateM.wp_and (removePeer_narrows (n := n))
        (removePeer_spec (r := ⟨uuid.str, p.serial⟩) (deref_of_lookup hlook))
      refine EStateM.wp_bind .. |>.mpr (EStateM.wp_mono hremove ?_ fun _ _ _ => trivial)
      rintro _ n₁ ⟨hn₁, hremoved⟩
      have hexclusive : Invites env n₁ msg → Exclusive env n₁ uuid.str msg.endpoint := by
        intro hinvites
        refine (h (fun q hq => ?_) ((invites_congr hremoved.own).mp hinvites)).narrows hn₁
        obtain rfl := Option.some_inj.mp (hlook.symm.trans hq)
        exact hready
      refine EStateM.wp_bind .. |>.mpr (wp_lookupPeer.mpr ?_)
      refine EStateM.wp_bind .. |>.mpr (wp_assert.mpr ⟨fun _ => ?_, fun _ => trivial⟩)
      exact helloAdmit_differ (fun _ => hexclusive) (hn.narrows hn₁)
    · refine EStateM.wp_bind .. |>.mpr (EStateM.wp_get.mpr ?_)
      refine EStateM.wp_ite .. |>.mpr ⟨fun _ => hn, fun _ => ?_⟩
      exact helloAdmit_differ (fun hnone => nomatch hlook.symm.trans hnone) hn

/-- **A message** makes a mailbox only if it is an invited HELLO. -/
theorem recvMsg_differ (h : msg.id = .hello →
    (∀ p, n.peers.lookup uuid.str = some p → p.ready = true) → Invites env n msg →
      Exclusive env n uuid.str msg.endpoint) :
    (recvMsg env uuid msg).Maintains EndpointsDiffer n := by
  intro hn
  have hgate : (senderGate env uuid msg).wp (fun _ n₁ => n₁.EndpointsDiffer) (fun _ _ => True) n := by
    unfold senderGate
    exact EStateM.wp_ite .. |>.mpr ⟨fun hid => helloGate_differ (h hid) hn, fun _ => hn⟩
  refine EStateM.wp_bind .. |>.mpr (EStateM.wp_mono hgate (fun o n₁ hn₁ => ?_) fun _ _ h => h)
  cases o with
  | none => exact hn₁
  | some r =>
    refine EStateM.wp_bind .. |>.mpr (wp_readPeer.mpr ⟨fun p hp => ?_, fun _ => trivial⟩)
    refine EStateM.wp_ite .. |>.mpr ⟨fun _ => ?_, fun _ => hn₁⟩
    exact EStateM.wp_mono (acceptMsg_narrows hp) (fun _ n' h => hn₁.narrows h) fun _ _ h => h

/-! ### One iteration -/

/-- A pass connects nobody. -/
theorem reap_narrows {visited : List CStr} :
    (reap env visited).Keeps Narrows (fun _ _ => True) n := by
  refine .forM fun X _ n₁ _ => keeps_lookupPeer ?_
  cases hlook : n₁.peers.lookup X with
  | none => exact .pure _
  | some p =>
    have hderef := deref_of_lookup hlook
    by_cases hexpired : p.expiredAt.toInt64 ≤ env.now
    · refine keeps_readPeer (fun q hq => .ite (fun _ => removePeer_narrows) fun h => ?_)
        fun _ => trivial
      obtain rfl := Option.some_inj.mp (hderef.symm.trans hq)
      exact absurd hexpired h
    · exact EStateM.wp_mono (pingPeer_keeps hderef hexpired) (fun _ _ h => h.narrows)
        fun _ _ h => ⟨h.1.narrows, trivial⟩

/-- The endpoint `zyre_node_recv_beacon` makes of the address and the port of a beacon. -/
def beaconEndpoint (ipaddress : CStr) (frame : Frame) : CStr :=
  CStr.ofChars "tcp://".toList ++ ipaddress ++ CStr.ofChars [':'] ++
    .ofNat (numberOf (((beaconBytes frame).drop 20).take 2))

/-- Apart from HELLO, the inputs that make a node require a peer. -/
inductive Asks (n : Node) : Input → Uuid → CStr → Option CStr → Prop
  | api (uuid : Uuid) (endpoint : CStr) (key : Option CStr) (hother : endpoint ≠ n.endpoint) :
      Asks n (.api (.requirePeer uuid endpoint key)) uuid endpoint key
  | beacon (ipaddress : CStr) (frame : Frame) (publicKey : CStr)
      (hversion : (beaconBytes frame).getD 3 0 = n.beaconVersion)
      (hkey : ¬(n.secretKey.isSome ∧ (beaconBytes frame).getD 22 0 = 0))
      (hport : numberOf (((beaconBytes frame).drop 20).take 2) ≠ 0) :
      Asks n (.beacon ipaddress frame publicKey) (beaconUuid frame) (beaconEndpoint ipaddress frame)
        (if (beaconBytes frame).getD 3 0 = beaconVersionV3 then some publicKey else none)
  | gossip (uuid : Uuid) (service : CStr) (hother : gossipEndpoint service ≠ n.endpoint)
      (hadvertised : some (gossipEndpoint service) ≠ n.advertisedEndpoint) :
      Asks n (.gossip uuid service) uuid (gossipEndpoint service) (gossipKey service)

/-- The input is a HELLO. -/
def Hello (input : Input) (uuid : Uuid) (msg : Msg) : Prop :=
  ∃ frames, input = .inbox frames ∧ senderOf frames = some uuid ∧ (Msg.recv frames).msg = msg ∧
    msg.id = .hello

/-- The input makes the node connect a new mailbox through the endpoint, for a peer that has no entry, or
by a HELLO for one that is ready and gives way. -/
inductive Connects (env : Env) (n : Node) (input : Input) : CStr → CStr → Prop
  | hello (uuid : Uuid) (msg : Msg) (hinput : Hello input uuid msg)
      (hnew : ∀ p, n.peers.lookup uuid.str = some p → p.ready = true) (hinvites : Invites env n msg) :
      Connects env n input uuid.str msg.endpoint
  | asks (uuid : Uuid) (endpoint : CStr) (key : Option CStr) (hinput : Asks n input uuid endpoint key)
      (hnew : n.peers.lookup uuid.str = none) (hkey : KeyOk env n key)
      (hconnects : env.connects (env.endpointIface endpoint) = true) :
      Connects env n input uuid.str endpoint

/-- Where the input makes the node connect a new mailbox, its endpoint is exclusive. -/
def Unshared (env : Env) (n : Node) (input : Input) : Prop :=
  ∀ X endpoint, Connects env n input X endpoint → Exclusive env n X endpoint

/-- One iteration that connects no mailbox to an endpoint that is taken. -/
theorem step_differ {input : Input} (h : Unshared env n input) :
    (Node.step env input).Maintains EndpointsDiffer n := by
  cases input with
  | inbox frames =>
    show (recvPeer env frames).Maintains EndpointsDiffer n
    cases hsender : senderOf frames with
    | none => rw [recvPeer_of_none hsender]; exact .pure _
    | some uuid =>
      rw [recvPeer_of_sender hsender]
      exact recvMsg_differ fun hid hnew hinvites =>
        h _ _ (.hello uuid _ ⟨frames, rfl, hsender, rfl, hid⟩ hnew hinvites)
  | api command =>
    by_cases hc : ∃ uuid endpoint key, command = .requirePeer uuid endpoint key
    · obtain ⟨uuid, endpoint, key, rfl⟩ := hc
      refine .get (.ite (fun hother => .bind (requirePeer_differ fun hnew hkey hconnects => ?_)
        fun _ _ => .pure _) fun _ => .pure _)
      exact h _ _ (.asks uuid endpoint key (.api uuid endpoint key hother) hnew hkey hconnects)
    · refine .of_keeps (recvApi_sameViews fun uuid endpoint key h => hc ⟨uuid, endpoint, key, h⟩) ?_
      exact fun n' hview hn => hn.narrows (narrows_of_view hview)
  | beacon ipaddress frame publicKey =>
    refine .get (.ite (fun _ => .pure _) fun hversion => .ite (fun _ => .pure _) fun hkeyed =>
      .ite (fun hport => ?_) fun _ => ?_)
    · refine .bind (requirePeer_differ fun hnew hkey hconnects => ?_) fun _ _ => .pure _
      exact h _ _ (.asks _ _ _ (.beacon ipaddress frame publicKey (not_not.mp hversion) hkeyed hport) hnew
        hkey hconnects)
    · intro hn
      refine EStateM.wp_bind .. |>.mpr (wp_lookupPeer.mpr ?_)
      cases n.peers.lookup (beaconUuid frame).str with
      | none => exact hn
      | some p =>
        exact EStateM.wp_mono removePeer_narrows (fun _ n' h => hn.narrows h) fun _ _ _ => trivial
  | gossip uuid service =>
    refine .get (.ite (fun hother => .bind (requirePeer_differ fun hnew hkey hconnects => ?_)
      fun _ _ => .pure _) fun _ => .pure _)
    exact h _ _ (.asks uuid _ _ (.gossip uuid service hother.1 hother.2) hnew hkey hconnects)
  | reap visited => exact .of_keeps reap_narrows fun _ h hn => hn.narrows h

/-- **One peer on an endpoint.** No two connected peers are on one endpoint, in a run in which no new
mailbox is connected through the interface to what another peer is connected to already. The purge looks for
the endpoint that was announced, and the mailbox is connected to that endpoint with the interface put in, so
that it may miss a peer it means. -/
theorem endpointsDiffer_of_run (h : Run Unshared n) : n.EndpointsDiffer := by
  induction h with
  | new uuid endpoint => exact fun X Y e ⟨p, hp, _⟩ => nomatch hp
  | step env input hn hc h ih => exact (EStateM.wp_of_ok h (step_differ hc ih) :)

/-- IPv6 is on and an interface is configured. -/
def ipv6Env : Env := { sampleEnv 0 with ipv6 := true, interface := CStr.ofChars "eth0".toList }

/-- A link-local endpoint. -/
def linkLocal : CStr := CStr.ofChars "tcp://fe80::1:5670".toList

/-- The node has found one peer there. -/
def linkedNode : Node :=
  final (Node.step ipv6Env (.api (.requirePeer (sampleUuid 1) linkLocal none)) sampleNode)

/-- Another link-local endpoint. -/
def linkLocal' : CStr := CStr.ofChars "tcp://fe80::2:5670".toList

/-- A second peer is found on another link-local endpoint, and both stay connected. -/
theorem endpointsDiffer_linkLocal : EndpointsDiffer (final (Node.step ipv6Env
    (.api (.requirePeer (sampleUuid 2) linkLocal' none)) linkedNode)) := by
  have hfirst : Unshared ipv6Env sampleNode (.api (.requirePeer (sampleUuid 1) linkLocal none)) :=
    fun X endpoint _ => Or.inr fun Y ⟨p, hp, _⟩ => nomatch hp
  have hsecond : Unshared ipv6Env linkedNode (.api (.requirePeer (sampleUuid 2) linkLocal' none)) := by
    have hother : ∀ e ∈ linkedNode.peers.entries,
        e.2.endpoint ≠ ipv6Env.endpointIface linkLocal' := by decide +kernel
    rintro X endpoint (⟨uuid, msg, ⟨_, ⟨⟩, _⟩, hnew, hinvites⟩ | ⟨_, _, _, hinput, hnew, hkey, hconnects⟩)
    cases hinput with
    | api uuid endpoint key h =>
      exact Or.inr fun Y ⟨p, hp, _, hendpoint⟩ => absurd hendpoint (hother _ (AList.mem_lookup_iff.mp hp))
  have hlinked : Run Unshared linkedNode :=
    .step _ _ (.new _ _) hfirst (step_eq_of_isOk (by decide +kernel))
  exact endpointsDiffer_of_run (.step _ _ hlinked hsecond (step_eq_of_isOk (by decide +kernel)))

/-- Two peers are discovered on one link-local endpoint: both are connected, to one endpoint. -/
theorem not_endpointsDiffer_of_interface : ¬∀ n, Reachable n → n.EndpointsDiffer := by
  intro h
  let inputs : List (Env × Input) :=
    [(ipv6Env, .api (.requirePeer (sampleUuid 1) linkLocal none)),
      (ipv6Env, .api (.requirePeer (sampleUuid 2) linkLocal none))]
  let seen : Node → List (Option (Bool × CStr)) := fun n =>
    [sampleUuid 1, sampleUuid 2].map fun uuid =>
      (n.peers.lookup uuid.str).map fun p => (p.connected, p.endpoint)
  have hplay : (play inputs sampleNode).map seen =
      some [some (true, ipv6Env.endpointIface linkLocal),
        some (true, ipv6Env.endpointIface linkLocal)] := by
    decide +kernel
  obtain ⟨n, hn, hseen⟩ := Option.map_eq_some_iff.mp hplay
  obtain ⟨h₁, h₂⟩ : (n.peers.lookup (sampleUuid 1).str).map (fun p => (p.connected, p.endpoint)) =
      some (true, ipv6Env.endpointIface linkLocal) ∧
      (n.peers.lookup (sampleUuid 2).str).map (fun p => (p.connected, p.endpoint)) =
      some (true, ipv6Env.endpointIface linkLocal) := by
    simpa [seen] using hseen
  have hconn : ∀ {X : CStr}, (n.peers.lookup X).map (fun p => (p.connected, p.endpoint)) =
      some (true, ipv6Env.endpointIface linkLocal) →
      n.ConnectedTo X (ipv6Env.endpointIface linkLocal) := by
    intro X hX
    obtain ⟨p, hp, hpair⟩ := Option.map_eq_some_iff.mp hX
    exact ⟨p, hp, (Prod.mk.inj hpair).1, (Prod.mk.inj hpair).2⟩
  have hsame := h n (reachable_of_play (.new _ _) hn) _ _ _ (hconn h₁) (hconn h₂)
  exact absurd hsame (by decide)

end Node

end Zyre
