import Zyre.Msg.RoundTrip
import Zyre.Node.Post
import Zyre.Node.Waiting

/-!
# A node and itself

A node takes itself for a peer when it is asked for a peer that has its own UUID, on an endpoint it does
not recognise as its own: REQUIRE PEER compares with the bound endpoint alone, gossip with that and the
advertised one, and none of them compares UUIDs. From then on it answers its own HELLO.
`unmet_of_run` says that nothing else leads there.
-/

namespace Zyre

/-- Without an entry, only a HELLO comes to something. -/
theorem Arrival.eq_of_none {gossip : Bool} {X : CStr} {msg : Msg} {v w : PeerView} (he : v.entry = none)
    (hid : msg.id ≠ .hello) (h : Arrival gossip X msg v w) : w = v := by
  cases h with
  | ignored h => rfl
  | refused p hid' => exact absurd hid' hid
  | lostHello u hid' => exact absurd hid' hid
  | greeted u hid' => exact absurd hid' hid
  | lost p hid' he' => exact nomatch he.symm.trans he'
  | bye p hid' he' => exact nomatch he.symm.trans he'
  | taken p hid' he' => exact nomatch he.symm.trans he'

namespace Node

variable {n n' : Node} {X : CStr} {env : Env} {uuid : Uuid} {endpoint : CStr} {key : Option CStr}
  {input : Input} {msg : Msg}

/-- The node has told of no peer that is itself. -/
def Unmet (n : Node) : Prop :=
  ∀ name headers endpoint, Event.enter n.identity name headers endpoint ∉ n.outbox

/-- What a node receives under its own UUID is what it has sent to it, and its own beacons do not come
back. -/
structure Genuine (n : Node) (input : Input) : Prop where
  mail : ∀ frames, input = .inbox frames → senderOf frames = some n.uuid →
    ∃ m ∈ n.mailTo n.identity, Carries m.2 (Msg.recv frames).msg
  beacon : ∀ ipaddress frame publicKey, input = .beacon ipaddress frame publicKey →
    beaconUuid frame ≠ n.uuid

/-- Where a discovery of the node's own UUID passes the comparison of endpoints, no mailbox can be
connected. -/
def Shuns (env : Env) (n : Node) (input : Input) : Prop :=
  ∀ endpoint key, Asks n input n.uuid endpoint key → env.connects (env.endpointIface endpoint) = false

/-- The view of a peer nothing was ever known of. -/
def blank : PeerView := ⟨none, ∅, [], 0⟩

/-! ### One iteration -/

/-- A peer nothing is known of was sent no HELLO. -/
theorem hello_notMem_mailTo (h : n.view X = blank) {m : PeerRef × Msg} (hm : m ∈ n.mailTo X) :
    m.2.id ≠ .hello := by
  intro hid
  have hnone : n.hellosTo X = 0 := congrArg PeerView.hellos h
  obtain ⟨hmail, hX⟩ := List.mem_filter.mp hm
  refine absurd hnone (List.countP_pos_iff.mpr ⟨m, hmail, ?_⟩).ne'
  simpa [hid] using hX

/-- A discovery that comes to nothing for want of a connection. -/
theorem requirePeer_blank (hX : n.view uuid.str = blank)
    (hconnects : env.connects (env.endpointIface endpoint) = false) :
    (requirePeer env uuid endpoint key).wp (fun _ n' => n'.view uuid.str = blank)
      (fun _ n' => n'.log uuid.str = []) n := by
  have hlook : n.peers.lookup uuid.str = none := by
    have hentry : (n.view uuid.str).entry = none := by rw [hX]; rfl
    exact Option.map_eq_none_iff.mp hentry
  have hlog : n.log uuid.str = [] := congrArg PeerView.log hX
  by_cases hkey : KeyOk env n key
  · rw [wp_requirePeer_of_none hlook hkey, if_neg (by simp [hconnects])]
    have hentry : ((n.purged endpoint).peers.lookup uuid.str).map Peer.still = none := by
      simp [purged, hlook]
    rw [← hX]
    have hnone : (n.view uuid.str).entry = none := by rw [hX]; rfl
    exact PeerView.ext (hentry.trans hnone.symm) rfl rfl rfl
  · exact wp_requirePeer_of_not_keyOk hlook hkey fun _ _ _ _ => hlog

/-- A message leaves the node a stranger to itself. -/
theorem recvPeer_blank {frames : List Frame} (hgenuine : Genuine n (.inbox frames))
    (hself : n.view n.identity = blank) :
    (recvPeer env frames).wp (fun _ n' => n'.view n.identity = blank)
      (fun _ n' => n'.log n.identity = []) n := by
  have hnone : (n.view n.identity).entry = none := by rw [hself]; rfl
  have hlog : (n.view n.identity).log = [] := by rw [hself]; rfl
  cases hsender : senderOf frames with
  | none =>
    rw [recvPeer_of_none hsender]
    exact hself
  | some uuid =>
    rw [recvPeer_of_sender hsender]
    by_cases hX : n.identity = uuid.str
    · -- A message under the node's own UUID: it has sent no HELLO there.
      have huuid : uuid = n.uuid := Uuid.str_injective hX.symm
      obtain ⟨m, hm, hcarries⟩ := hgenuine.mail frames rfl (hsender.trans (by rw [huuid]))
      have hid : (Msg.recv frames).msg.id ≠ .hello := by
        rw [hcarries.id]
        exact hello_notMem_mailTo hself hm
      refine EStateM.wp_mono recvMsg_spec ?_ ?_
      · rintro _ n' ⟨v, harrival, hreaches⟩
        rw [hX, hreaches.view, ← hself, hX]
        exact harrival.eq_of_none (hX ▸ hnone) hid
      · rintro _ n' ⟨v, harrival, hwithin⟩
        have hpre := hwithin uuid.str
        rw [Views.at_self, harrival.eq_of_none (hX ▸ hnone) hid, ← hX, hlog] at hpre
        exact List.prefix_nil.mp hpre
    · refine EStateM.wp_mono recvMsg_spec ?_ ?_
      · rintro _ n' ⟨v, -, hreaches⟩
        rcases hreaches.other hX with h | h
        · rw [h, hself]
        · rw [h, PeerView.purge_of_entry_eq_none hnone, hself]
      · rintro _ n' ⟨v, -, hwithin⟩
        have hpre := hwithin n.identity
        rw [Views.at_ne hX, hlog] at hpre
        exact List.prefix_nil.mp hpre

/-- One iteration that does not ask for the node itself, or in vain, leaves it a stranger to itself. -/
theorem step_blank (hgenuine : Genuine n input) (hshuns : Shuns env n input)
    (hself : n.view n.identity = blank) :
    (Node.step env input).wp (fun _ n' => n'.view n.identity = blank)
      (fun _ n' => n'.log n.identity = []) n := by
  have hnone : (n.view n.identity).entry = none := by rw [hself]; rfl
  have hlog : (n.view n.identity).log = [] := by rw [hself]; rfl
  by_cases hinbox : ∃ frames, input = .inbox frames
  · obtain ⟨frames, rfl⟩ := hinbox
    exact recvPeer_blank hgenuine hself
  by_cases hasks : ∃ endpoint key, Asks n input n.uuid endpoint key
  · obtain ⟨endpoint, key, hasks⟩ := hasks
    refine (EStateM.wp_congr hasks.step).mpr (EStateM.wp_bind .. |>.mpr ?_)
    exact requirePeer_blank hself (hshuns endpoint key hasks)
  have hinput : ∀ frames, input ≠ .inbox frames := fun frames h => hinbox ⟨frames, h⟩
  have hsender : ∀ uuid, Sender input uuid → uuid.str ≠ n.identity := by
    rintro uuid ⟨frames, hframes, -⟩
    exact absurd hframes (hinput frames)
  refine EStateM.wp_mono (EStateM.wp_and (step_drops hinput) (step_aside hsender)) ?_ ?_
  · rintro _ n' ⟨hdrops | ⟨uuid, endpoint, key, hasks', -, hfinds⟩, -⟩
    · rcases hdrops n.identity with h | ⟨p, he, -, -⟩
      · rw [h, hself]
      · exact nomatch hnone.symm.trans he
    · rcases hfinds n.identity with h | ⟨hX, -⟩
      · rw [h, PeerView.purge_of_entry_eq_none hnone, hself]
      · obtain rfl : n.uuid = uuid := Uuid.str_injective hX
        exact absurd ⟨endpoint, key, hasks'⟩ hasks
  · rintro _ n' ⟨-, v, haside, hpre⟩
    have hv : v.log = [] := by
      cases haside with
      | removed p he => exact nomatch hnone.symm.trans he
      | _ => exact hlog
    rw [hv] at hpre
    exact List.prefix_nil.mp hpre

/-! ### Runs -/

/-- The condition on one iteration. -/
def Aloof (env : Env) (n : Node) (input : Input) : Prop := Genuine n input ∧ Shuns env n input

theorem blank_of_run (h : Run Aloof n) : n.view n.identity = blank := by
  induction h with
  | new uuid endpoint => exact PeerView.ext rfl (Set.eq_empty_of_forall_notMem fun _ => nofun) rfl rfl
  | step env input hn hc h ih =>
    have hidentity := congrArg Uuid.str (EStateM.wp_of_ok h step_uuid :)
    rw [Node.identity, hidentity]
    exact (EStateM.wp_of_ok h (step_blank hc.1 hc.2 ih) :)

theorem unmet_of_log (h : n.log n.identity = []) : n.Unmet := by
  intro name headers endpoint henter
  have hmem : Event.enter n.identity name headers endpoint ∈ n.log n.identity :=
    List.mem_filter.mpr ⟨henter, by simp [Event.session]⟩
  rw [h] at hmem
  cases hmem

/-- **A node does not meet itself.** In a run in which no discovery of the node's own UUID gets a mailbox,
the node never tells that it has met itself, even in an iteration that stops half way. Only the endpoint is
compared with the node's own, so that a message with the own UUID is handled like that of any other peer
once there is an entry. -/
theorem unmet_of_run (h : Run Aloof n) (hc : Aloof env n input) (hleaves : Leaves (Node.step env input) n n') :
    n'.Unmet := by
  have hlog : n'.log n.identity = [] := by
    refine hleaves.of_wp (P := fun n' => n'.log n.identity = []) (EStateM.wp_mono (step_blank hc.1 hc.2
      (blank_of_run h)) (fun _ n' h => ?_) fun _ _ h => h)
    exact congrArg PeerView.log h
  refine unmet_of_log ?_
  rw [Node.identity, (Leaves.deeds hleaves).uuid]
  exact hlog

/-- REQUIRE PEER with the UUID of `sampleNode`. -/
def selfDiscovery (endpoint : CStr) : Input := .api (.requirePeer (sampleUuid 0) endpoint none)

theorem genuine_selfDiscovery : Genuine n (selfDiscovery endpoint) := ⟨nofun, nofun⟩

/-- A node is asked for itself on the endpoint it is bound to. -/
theorem unmet_ownEndpoint :
    Unmet (final (Node.step (sampleEnv 0) (selfDiscovery sampleNode.endpoint) sampleNode)) := by
  have hshuns : Shuns (sampleEnv 0) sampleNode (selfDiscovery sampleNode.endpoint) := by
    rintro _ _ ⟨⟩
    exact absurd rfl ‹_›
  exact unmet_of_run (.new _ _) ⟨genuine_selfDiscovery, hshuns⟩ (leaves_final _ _)

/-! ### A node that is asked for itself under another name -/

/-- The node asked for itself. -/
def selfNode : Node := final (Node.step (sampleEnv 0) (selfDiscovery (sampleEndpoint 'm')) sampleNode)

/-- The HELLO it has sent to itself. -/
def selfHello : Msg := (helloMsg (sampleEnv 0) sampleNode).setSequence 1

/-- It meets itself. -/
theorem not_unmet_of_alias : ¬∀ n, Run (fun _ n input => Genuine n input) n → n.Unmet := by
  intro h
  have hself : Run (fun _ n input => Genuine n input) selfNode :=
    .step (sampleEnv 0) _ (.new _ _) genuine_selfDiscovery (step_eq_of_isOk (by decide +kernel))
  have hfits : selfHello.Fits :=
    ⟨by decide, fun _ => by decide, fun _ => ⟨[], rfl, by decide, fun _ h => by cases h⟩, by decide⟩
  have hmail : (⟨(sampleUuid 0).str, 0⟩, selfHello) ∈ selfNode.mailTo selfNode.identity :=
    List.mem_filter.mpr ⟨List.mem_singleton_self _, by decide⟩
  have hgenuine : Genuine selfNode (sampleInput 0 selfHello) := by
    refine ⟨fun frames hframes _ => ?_, fun _ _ _ h => by cases h⟩
    obtain rfl := Input.inbox.inj hframes
    exact ⟨_, hmail, (carries_recv hfits _).2.2⟩
  have hrun := hself.step (sampleEnv 0) _ hgenuine (step_eq_of_isOk (by decide +kernel))
  set n := final (Node.step (sampleEnv 0) (sampleInput 0 selfHello) selfNode) with hn
  obtain ⟨e, he, hmark⟩ : ∃ e ∈ n.outbox, e.mark n.identity = some true := by decide +kernel
  obtain ⟨name, headers, endpoint, rfl⟩ := Event.eq_enter_of_mark hmark
  exact h n hrun name headers endpoint he

end Node

end Zyre
