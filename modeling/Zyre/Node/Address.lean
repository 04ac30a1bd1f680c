import Zyre.Node.Handling
import Zyre.Node.Rejection

/-!
# The address of a peer that enters

ENTER tells the application the endpoint that stands in HELLO, while `zyre_peer_address` answers with
the endpoint the mailbox of the peer is connected to. `addressed_iff` says for which HELLO the two are
the same.
-/

namespace Zyre

/-- The peer and the endpoint an ENTER tells of. -/
def Event.address : Event → Option (CStr × CStr)
  | .enter X _ _ endpoint => some (X, endpoint)
  | _ => none

section

variable {e : Event} {X Y endpoint : CStr} {msg : Msg} {v w : PeerView} {R : Set CStr} {gossip : Bool}

theorem Event.session_of_address (h : e.address = some (X, endpoint)) : e.session = some X := by
  cases e with
  | enter Y name headers endpoint' =>
    obtain ⟨rfl, -⟩ := Prod.mk.inj (Option.some_inj.mp h)
    rfl
  | _ => exact nomatch h

/-- `w` has the events of `v` and others; each ENTER among them satisfies `P`. -/
def PeerView.Enters (P : CStr × CStr → Prop) (v w : PeerView) : Prop :=
  ∃ es, w.log = v.log ++ es ∧ ∀ a ∈ es.filterMap Event.address, P a

variable {P : CStr × CStr → Prop}

theorem PeerView.Enters.of_eq (h : w.log = v.log) : v.Enters P w := ⟨[], by simp [h], by simp⟩

theorem PeerView.enters_exit : v.Enters P (v.exit X) :=
  ⟨[.exit X v.nameStr], rfl, by simp [Event.address]⟩

theorem PeerView.Enters.trans {u : PeerView} (h : v.Enters P w) (h' : w.Enters P u) :
    v.Enters P u := by
  obtain ⟨es, hes, hP⟩ := h
  obtain ⟨es', hes', hP'⟩ := h'
  refine ⟨es ++ es', by rw [hes', hes, List.append_assoc], fun a ha => ?_⟩
  rw [List.filterMap_append, List.mem_append] at ha
  rcases ha with ha | ha
  · exact hP a ha
  · exact hP' a ha

theorem Aside.enters (h : Aside R X v w) : v.Enters P w := by
  cases h with
  | same => exact .of_eq rfl
  | purged endpoint => exact .of_eq rfl
  | discovered q he hq => exact .of_eq rfl
  | removed p he hX => exact PeerView.enters_exit

theorem Declined.enters (h : Declined X v w) : v.Enters P w := by
  cases h with
  | same h => exact .of_eq rfl
  | exited p he hr => exact PeerView.enters_exit

theorem Opened.enters (h : Opened X v w) : v.Enters P w := by
  cases h with
  | kept p he hr => exact .of_eq rfl
  | fresh q he hq => exact .of_eq rfl
  | renewed p q he hr hq => exact PeerView.enters_exit (X := X)

/-- HELLO is told with the endpoint that stands in it. -/
theorem PeerView.enters_greet (h : P (X, msg.endpoint)) : v.Enters P (v.greet X msg) := by
  refine ⟨_, rfl, fun a ha => ?_⟩
  have hjoin : ((msg.groups.getD []).map (Event.join X msg.name)).filterMap Event.address = [] := by
    simp [List.filterMap_map, Function.comp_def, Event.address]
  have hself : (Event.enter X msg.name msg.headers msg.endpoint).address = some (X, msg.endpoint) := rfl
  rw [List.filterMap_cons_some hself, hjoin, List.mem_singleton] at ha
  rwa [ha]

theorem PeerView.enters_take : v.Enters P (v.take X msg) := by
  unfold PeerView.take
  split
  · exact ⟨_, rfl, by simp [Event.address]⟩
  · exact ⟨_, rfl, by simp [Event.address]⟩
  · exact ⟨_, rfl, by simp [Event.address]⟩
  · exact ⟨_, rfl, by simp [Event.address]⟩
  · exact .of_eq rfl

/-- Only a HELLO numbered 1 makes a peer enter. -/
theorem Arrival.enters (h : Arrival gossip X msg v w)
    (hP : msg.id = .hello → msg.sequence = 1 → P (X, msg.endpoint)) : v.Enters P w := by
  cases h with
  | ignored h => exact .of_eq rfl
  | refused p hid he hr => exact PeerView.enters_exit
  | lostHello u hid hu hseq => exact hu.enters.trans PeerView.enters_exit
  | greeted u hid hu hseq =>
    exact (hu.enters.trans (.of_eq rfl)).trans (PeerView.enters_greet (v := u.count 1) (hP hid hseq))
  | lost p hid he hr hseq => exact PeerView.enters_exit
  | bye p hid he hr hseq hg => exact PeerView.enters_exit
  | taken p hid he hr hseq hg =>
    exact .trans (.of_eq rfl) (PeerView.enters_take (v := v.count msg.sequence))

end

namespace Node

variable {n n' : Node} {X Y e name : CStr} {r : PeerRef} {p : Peer} {msg : Msg} {env : Env}
  {uuid : Uuid} {endpoint : CStr} {key : Option CStr} {input : Input}

/-! ### The answer of the API -/

/-- PEER ENDPOINT, as `zyre_node_recv_api` answers `zyre_peer_address`. -/
def peerEndpoint (n : Node) (X : CStr) : CStr :=
  match n.peers.lookup X with
  | some p => p.endpointStr
  | none => ∅

theorem peerEndpoint_of_lookup (h : n.peers.lookup X = some p) : n.peerEndpoint X = p.endpointStr := by
  rw [peerEndpoint, h]

/-- The answer depends on the connection alone. -/
theorem peerEndpoint_congr (h : (n'.view X).entry.map (fun p => (p.connected, p.endpoint)) =
    (n.view X).entry.map fun p => (p.connected, p.endpoint)) : n'.peerEndpoint X = n.peerEndpoint X := by
  simp only [view_entry, Option.map_map] at h
  simp only [peerEndpoint]
  cases hlook : n.peers.lookup X with
  | none =>
    rw [hlook, Option.map_none, Option.map_eq_none_iff] at h
    rw [h]
  | some p =>
    rw [hlook, Option.map_some] at h
    obtain ⟨p', hp', hsame⟩ := Option.map_eq_some_iff.mp h
    obtain ⟨hconn, hendpoint⟩ := Prod.mk.inj hsame
    have hconn' : p'.connected = p.connected := hconn
    have hendpoint' : p'.endpoint = p.endpoint := hendpoint
    rw [hp']
    simp only [Peer.endpointStr, hconn', hendpoint']

/-- The endpoint a peer is on once its HELLO has passed the gate: an entry that was not ready is
kept, with the mailbox it has, and otherwise a mailbox is connected to the endpoint of the HELLO. -/
def greetEndpoint (env : Env) (n : Node) (X : CStr) (msg : Msg) : CStr :=
  match n.peers.lookup X with
  | some p => if p.ready then env.endpointIface msg.endpoint else p.endpointStr
  | none => env.endpointIface msg.endpoint

/-! ### The gate -/

theorem requirePeer_endpoint (hnew : n.peers.lookup uuid.str = none) :
    (requirePeer env uuid endpoint key).wp
      (fun o n' => o.isSome → n'.peerEndpoint uuid.str = env.endpointIface endpoint)
      (fun _ _ => True) n := by
  by_cases hkey : KeyOk env n key
  · rw [wp_requirePeer_of_none hnew hkey]
    split_ifs
    · intro _
      have hentry : (greeting env n uuid.str endpoint key).peers.lookup uuid.str =
          some (greeter env n endpoint key) := by
        simp [greeting, opening]
      rw [peerEndpoint_of_lookup hentry]
      rfl
    · intro h
      cases h
  · exact wp_requirePeer_of_not_keyOk hnew hkey fun _ _ _ _ => trivial

/-- The sender is required, and found where it was or on the endpoint of the HELLO. -/
theorem helloRequire_endpoint {e : CStr}
    (hsome : ∀ p, n.peers.lookup uuid.str = some p → e = p.endpointStr)
    (hnone : n.peers.lookup uuid.str = none → e = env.endpointIface msg.endpoint) :
    (helloRequire env uuid msg).wp
      (fun o n' => o.isSome → n'.peerEndpoint uuid.str = e) (fun _ _ => True) n := by
  refine wp_helloRequire (fun key => ?_) nofun trivial trivial
  cases hlook : n.peers.lookup uuid.str with
  | some p =>
    refine (wp_requirePeer_of_some hlook).mpr fun _ => ?_
    rw [peerEndpoint_of_lookup hlook, hsome p hlook]
  | none =>
    rw [hnone hlook]
    exact requirePeer_endpoint hlook

theorem helloAdmit_endpoint {e : CStr}
    (hsome : ∀ p, n.peers.lookup uuid.str = some p → e = p.endpointStr)
    (hnone : n.peers.lookup uuid.str = none → e = env.endpointIface msg.endpoint) :
    (helloAdmit env uuid msg).wp
      (fun o n' => o.isSome → n'.peerEndpoint uuid.str = e) (fun _ _ => True) n := by
  refine EStateM.wp_bind .. |>.mpr
    (EStateM.wp_mono (helloRequire_endpoint hsome hnone) (fun o n₁ h => ?_) fun _ _ h => h)
  cases o with
  | none => exact nofun
  | some r =>
    refine EStateM.wp_bind .. |>.mpr (wp_modifyPeer.mpr ⟨fun p hp _ => ?_, fun _ => trivial⟩)
    rw [← h rfl]
    refine peerEndpoint_congr ?_
    rw [view_modifyPeer]
    by_cases hX : uuid.str = r.identity
    · rw [hX, Views.at_self, view_entry, lookup_of_deref hp]
      rfl
    · rw [Views.at_ne hX]

/-- The HELLO gate lets a sender in that is on the endpoint `greetEndpoint` says. -/
theorem helloGate_endpoint :
    (helloGate env uuid msg).wp
      (fun o n' => o.isSome → n'.peerEndpoint uuid.str = greetEndpoint env n uuid.str msg)
      (fun _ _ => True) n := by
  refine EStateM.wp_bind .. |>.mpr (wp_lookupPeer.mpr ?_)
  cases hlook : n.peers.lookup uuid.str with
  | none =>
    refine helloAdmit_endpoint (fun p hp => nomatch hlook.symm.trans hp) fun _ => ?_
    rw [greetEndpoint, hlook]
  | some p =>
    refine EStateM.wp_bind .. |>.mpr (wp_readPeer.mpr ⟨fun q hq => ?_, fun _ => trivial⟩)
    obtain rfl := Option.some_inj.mp ((deref_of_lookup hlook).symm.trans hq)
    refine EStateM.wp_ite .. |>.mpr ⟨fun hready => ?_, fun hready => ?_⟩
    · have hgreet : greetEndpoint env n uuid.str msg = env.endpointIface msg.endpoint := by
        rw [greetEndpoint, hlook]
        exact if_pos hready
      refine EStateM.wp_bind .. |>.mpr (EStateM.wp_mono (removePeer_spec (deref_of_lookup hlook))
        (fun _ n₁ h => ?_) fun _ _ _ => trivial)
      have hgone : n₁.peers.lookup uuid.str = none := by
        have hentry : (n₁.view uuid.str).entry = none := by
          rw [h.view, Views.at_self]
          rfl
        exact Option.map_eq_none_iff.mp hentry
      refine EStateM.wp_bind .. |>.mpr (wp_lookupPeer.mpr ?_)
      refine EStateM.wp_bind .. |>.mpr (wp_assert.mpr ⟨fun _ => ?_, fun _ => trivial⟩)
      exact helloAdmit_endpoint (fun p hp => nomatch hgone.symm.trans hp) fun _ => hgreet
    · have hgreet : greetEndpoint env n uuid.str msg = p.endpointStr := by
        rw [greetEndpoint, hlook]
        exact if_neg hready
      refine EStateM.wp_bind .. |>.mpr (EStateM.wp_get.mpr ?_)
      refine EStateM.wp_ite .. |>.mpr ⟨fun _ => nofun, fun _ => ?_⟩
      refine helloAdmit_endpoint (fun p hp => ?_) fun hnone => nomatch hlook.symm.trans hnone
      rw [hgreet, Option.some_inj.mp (hlook.symm.trans hp)]

/-- A HELLO numbered 1 leaves its sender on that endpoint, if it passes the gate. -/
theorem recvMsg_endpoint (hid : msg.id = .hello) (hadmits : Admits env n uuid.str msg)
    (hseq : msg.sequence = 1) :
    (recvMsg env uuid msg).wp
      (fun _ n' => n'.peerEndpoint uuid.str = greetEndpoint env n uuid.str msg)
      (fun _ _ => True) n := by
  have hend : (helloGate env uuid msg).wp
      (fun o n' => o.isSome → n'.peerEndpoint uuid.str = greetEndpoint env n uuid.str msg)
      (fun _ _ => True) n := helloGate_endpoint
  have hgate := EStateM.wp_and (EStateM.wp_and helloGate_spec helloGate_admits) hend
  refine EStateM.wp_bind .. |>.mpr ?_
  rw [senderGate, if_pos hid]
  refine EStateM.wp_mono hgate ?_ fun _ _ _ => trivial
  rintro (_ | r) n₁ ⟨⟨hspec, hiff⟩, hendpoint⟩
  · exact absurd (hiff.mpr hadmits) (by simp)
  · obtain ⟨v, q, -, -, -, rfl, -⟩ := hspec
    refine EStateM.wp_bind .. |>.mpr (wp_readPeer.mpr ⟨fun p hp => ?_, fun _ => trivial⟩)
    refine EStateM.wp_ite .. |>.mpr ⟨fun _ => ?_, fun _ => hendpoint rfl⟩
    refine EStateM.wp_mono (acceptMsg_spec hp) ?_ fun _ _ _ => trivial
    rintro _ n₂ ⟨w, haccepted, hbecomes⟩
    have hview : n₂.view uuid.str = w := by rw [hbecomes.view, Views.at_self]
    rw [← hendpoint rfl]
    refine peerEndpoint_congr ?_
    -- The message is HELLO, and it has the right number: the peer is still there.
    cases haccepted with
    | lost p' he hlost =>
      rw [if_pos hid] at hlost
      exact absurd hseq.symm hlost
    | greeted hid' hseq' =>
      rw [hview]
      simp [PeerView.greet, PeerView.count, Function.comp_def]
    | bye p' hid' => cases hid.symm.trans hid'
    | taken p' hid' => exact absurd hid hid'

/-! ### The events of an iteration -/

/-- Every ENTER put on the outbox between `n` and `n'` tells of the endpoint the peer is on. -/
def Addressed (n n' : Node) : Prop :=
  ∀ es, n'.outbox = n.outbox ++ es → ∀ X endpoint, (X, endpoint) ∈ es.filterMap Event.address →
    endpoint = n'.peerEndpoint X

/-- A new ENTER comes from a HELLO the node takes. -/
theorem hello_of_enter {es : List Event} (h : Node.step env input n = .ok ⟨⟩ n')
    (hes : n'.outbox = n.outbox ++ es) (henter : (X, e) ∈ es.filterMap Event.address) :
    ∃ uuid msg, Hello input uuid msg ∧ Takes env n uuid.str msg ∧ uuid.str = X ∧ msg.endpoint = e := by
  set P : CStr × CStr → Prop := fun a => ∃ uuid msg, Hello input uuid msg ∧ Takes env n uuid.str msg ∧
    uuid.str = a.1 ∧ msg.endpoint = a.2 with hP
  have henters : (n.view X).Enters P (n'.view X) := by
    rcases (EStateM.wp_of_ok h (step_view X) :) with ⟨frames, uuid, rfl, hsender, rfl, harrival⟩ | haside
    · by_cases hadmits : (Msg.recv frames).msg.id = .hello ∧ ¬Admits env n uuid.str (Msg.recv frames).msg
      · have hrun : recvMsg env uuid (Msg.recv frames).msg n = .ok ⟨⟩ n' := recvPeer_of_sender hsender ▸ h
        exact (EStateM.wp_of_ok hrun (recvMsg_declined hadmits.1 hadmits.2) :).enters
      · refine harrival.enters fun hid hseq => ?_
        have hadmits : Admits env n uuid.str (Msg.recv frames).msg := by
          by_contra hnot
          exact hadmits ⟨hid, hnot⟩
        refine ⟨uuid, _, ⟨frames, rfl, hsender, rfl, hid⟩, ?_, rfl, rfl⟩
        rw [Takes, if_pos hid]
        exact ⟨hadmits, hseq⟩
    · exact haside.enters
  obtain ⟨es', hes', hall⟩ := henters
  -- The events of the view are those of the outbox that are about the peer.
  have hsame : es' = es.filter fun e => e.session = some X := by
    have hlog : n'.log X = n.log X ++ es.filter fun e => e.session = some X := by
      rw [log, hes, List.filter_append]
      rfl
    exact List.append_cancel_left (hes'.symm.trans hlog)
  obtain ⟨enter, hmem, haddress⟩ := List.mem_filterMap.mp henter
  refine hall (X, e) (List.mem_filterMap.mpr ⟨enter, ?_, haddress⟩)
  rw [hsame, List.mem_filter]
  exact ⟨hmem, by simpa using Event.session_of_address haddress⟩

/-- A HELLO the node takes is told with its endpoint. -/
theorem enter_of_hello {es : List Event} (h : Node.step env input n = .ok ⟨⟩ n')
    (hes : n'.outbox = n.outbox ++ es) (hinput : Hello input uuid msg) (htakes : Takes env n uuid.str msg) :
    (uuid.str, msg.endpoint) ∈ es.filterMap Event.address := by
  rw [Takes, if_pos hinput.id] at htakes
  obtain ⟨hadmits, hseq⟩ := htakes
  rw [hinput.step] at h
  obtain ⟨w, hopened, hview⟩ := (EStateM.wp_of_ok h (recvMsg_greeted hinput.id hadmits hseq) :)
  have hlog : n'.log uuid.str = n.log uuid.str ++ es.filter fun e => e.session = some uuid.str := by
    rw [log, hes, List.filter_append]
    rfl
  obtain ⟨es₀, hes₀⟩ := hopened.log_prefix
  have hgreet : n'.log uuid.str = w.log ++ .enter uuid.str msg.name msg.headers msg.endpoint ::
      (msg.groups.getD []).map (.join uuid.str msg.name) := by
    rw [← view_log, hview]
    rfl
  rw [← hes₀, hlog, view_log, List.append_assoc] at hgreet
  have hfilter := List.append_cancel_left hgreet
  have hmem : Event.enter uuid.str msg.name msg.headers msg.endpoint ∈
      es.filter fun e => e.session = some uuid.str := by
    rw [hfilter]
    exact List.mem_append_right _ List.mem_cons_self
  exact List.mem_filterMap.mpr ⟨_, (List.mem_filter.mp hmem).1, rfl⟩

/-- **Addresses.** ENTER tells of the address of the peer exactly if the HELLO the node takes gives the
endpoint its mailbox is connected to. The event has the endpoint of the entry, into which the interface may
have been put; an entry that a beacon, gossip or REQUIRE PEER has made is on the endpoint these gave. -/
theorem addressed_iff (h : Node.step env input n = .ok ⟨⟩ n') : Addressed n n' ↔
    ∀ uuid msg, Hello input uuid msg → Takes env n uuid.str msg →
      greetEndpoint env n uuid.str msg = msg.endpoint := by
  obtain ⟨es, hes, -⟩ := (Leaves.deeds (Or.inl ⟨_, h⟩)).outbox
  -- Where a HELLO that is taken leaves its sender.
  have hend : ∀ uuid msg, Hello input uuid msg → Takes env n uuid.str msg →
      n'.peerEndpoint uuid.str = greetEndpoint env n uuid.str msg := by
    intro uuid msg hinput htakes
    rw [Takes, if_pos hinput.id] at htakes
    have hrun : recvMsg env uuid msg n = .ok ⟨⟩ n' := hinput.step ▸ h
    exact (EStateM.wp_of_ok hrun (recvMsg_endpoint hinput.id htakes.1 htakes.2) :)
  constructor
  · intro haddressed uuid msg hinput htakes
    rw [← hend uuid msg hinput htakes]
    exact (haddressed es hes _ _ (enter_of_hello h hes hinput htakes)).symm
  · intro hcond es' hes' X e henter
    obtain ⟨uuid, msg, hinput, htakes, rfl, rfl⟩ := hello_of_enter h hes' henter
    rw [hend uuid msg hinput htakes, hcond uuid msg hinput htakes]

/-- A HELLO from an unknown peer, without an interface in play. -/
theorem addressed_greetedNode : Addressed sampleNode greetedNode :=
  (addressed_iff (step_eq_of_isOk (by decide +kernel))).mpr fun uuid msg hinput _ => by
    obtain ⟨frames, hframes, -, rfl, -⟩ := hinput
    obtain rfl := Input.inbox.inj hframes
    rfl

/-- A peer is required on one endpoint and says HELLO from another: the application is told the other,
and the mailbox stays where it is. -/
theorem not_addressed_of_alias : ¬∀ env input n n', Reachable n →
    Node.step env input n = .ok ⟨⟩ n' → Addressed n n' := by
  intro h
  set command : Command := .requirePeer (sampleUuid 1) (sampleEndpoint 'e') none with hcommand
  set n : Node := final (Node.step (sampleEnv 0) (.api command) sampleNode) with hn
  have hreachable : Reachable n := .step _ _ (.new _ _) (step_eq_of_isOk (by decide +kernel))
  have hstep : Node.step (sampleEnv 0) (sampleInput 1 sampleHello) n = .ok ⟨⟩
      (final (Node.step (sampleEnv 0) (sampleInput 1 sampleHello) n)) :=
    step_eq_of_isOk (by decide +kernel)
  have hnone : n.outbox = [] := by decide +kernel
  have henter : ((sampleUuid 1).str, sampleEndpoint 'p') ∈
      (final (Node.step (sampleEnv 0) (sampleInput 1 sampleHello) n)).outbox.filterMap Event.address := by
    decide +kernel
  have hsame := h _ _ _ _ hreachable hstep _ (by rw [hnone]; rfl) _ _ henter
  exact absurd hsame (by decide +kernel)

end Node

end Zyre
