import Zyre.Node.Inputs

/-!
# What the peers table promises

Two things the rest of the program takes for granted of the peers table. A member of a group is the
object the table holds under its identity, so a message to a group finds its receivers. And a peer
that is ready should be connected: that holds as long as no HELLO takes up again an entry that was
disconnected by another peer on its endpoint.
-/

namespace Zyre

section

variable {X : CStr} {v w : PeerView} {msg : Msg} {gossip : Bool} {R : Set CStr} {p : Peer}

/-- An entry that is ready is connected. -/
def PeerView.Attached (v : PeerView) : Prop :=
  ∀ p, v.entry = some p → p.ready = true → p.connected = true

theorem PeerView.attached_exit : (v.exit X).Attached := fun _ hp => nomatch hp

theorem PeerView.Attached.take (h : v.Attached) : ((v.count msg.sequence).take X msg).Attached := by
  have hentry : ∀ u : PeerView, (u.take X msg).entry.map (fun p => (p.ready, p.connected)) =
      u.entry.map fun p => (p.ready, p.connected) := by
    intro u
    unfold PeerView.take
    split <;> simp [join, leave, Function.comp_def]
  intro q hq hready
  have hmap := hentry (v.count msg.sequence)
  rw [hq, count, Option.map_map, Option.map_some] at hmap
  obtain ⟨p, hp, heq⟩ := Option.map_eq_some_iff.mp hmap.symm
  obtain ⟨hr, hc⟩ := Prod.mk.inj heq
  exact hc ▸ h p hp (hr ▸ hready)

/-- The gate opens to a connected peer, unless it takes up an entry that is not. -/
theorem Opened.attached (h : Opened X v w)
    (hkept : ∀ p, v.entry = some p → p.ready = false → p.connected = true) : w.Attached := by
  rcases h with ⟨p, he, hr⟩ | ⟨q, -, hq⟩ | ⟨p, q, -, -, hq⟩
  · rintro _ ⟨⟩ -
    exact hkept p he hr
  · rintro _ ⟨⟩ -
    exact hq.connected
  · rintro _ ⟨⟩ -
    exact hq.connected

theorem PeerView.Attached.greet (h : w.Attached) : ((w.count 1).greet X msg).Attached := by
  intro q hq hready
  obtain ⟨q', hq', rfl⟩ := Option.map_eq_some_iff.mp hq
  obtain ⟨p, hp, rfl⟩ := Option.map_eq_some_iff.mp hq'
  exact h p hp hready

theorem PeerView.Attached.arrival (h : v.Attached) (harrival : Arrival gossip X msg v w)
    (hkept : msg.id = .hello → msg.sequence = 1 →
      ∀ p, v.entry = some p → p.ready = false → p.connected = true) : w.Attached := by
  rcases harrival with - | - | - | ⟨w, hid, hw, hseq⟩ | - | - | -
  · exact h
  · exact attached_exit
  · exact attached_exit
  · exact (hw.attached (hkept hid hseq)).greet
  · exact attached_exit
  · exact attached_exit
  · exact h.take

theorem PeerView.Attached.declined (h : v.Attached) (hdeclined : Declined X v w) : w.Attached := by
  rcases hdeclined with - | -
  · exact h
  · exact attached_exit

theorem PeerView.Attached.aside (h : v.Attached) (haside : Aside R X v w) : w.Attached := by
  rcases haside with - | ⟨endpoint⟩ | ⟨q, -, hq⟩ | -
  · exact h
  · intro p hp hready
    obtain ⟨p₀, hp₀, rfl⟩ := Option.map_eq_some_iff.mp hp
    unfold Node.purgePeer at hready ⊢
    split_ifs at hready ⊢ with hend
    · unfold Peer.disconnect at hready ⊢
      split_ifs at hready ⊢ with hc
      exact absurd (h p₀ hp₀ hready) hc
    · exact h p₀ hp₀ hready
  · rintro _ ⟨⟩ hready
    exact hq.connected
  · exact attached_exit

end

namespace Node

variable {n n' : Node} {env : Env} {input : Input} {X : CStr}

/-! ### Members -/

/-- **Members are entries.** In every reachable state each member of a group is the object the peers table
holds under its identity, and a peer that is not in the table is a member of no group. So a message to a
group, and an ELECT that is passed on, find every receiver: neither uses a peer that has been freed. -/
theorem listed_of_reachable (hn : Reachable n) :
    (∀ name X r, (n.members name).lookup X = some r →
      r.identity = X ∧ ∃ p, n.peers.lookup X = some p ∧ p.serial = r.serial) ∧
    (∀ X, n.peers.lookup X = none → ∀ name, X ∉ n.members name) ∧
    (∀ name msg, (groupSend name msg).wp (fun _ _ => True) (fun _ _ => False) n) ∧
    ∀ r msg, n.Live r → (followChallenger r msg).wp (fun _ _ => True) (fun _ _ => False) n := by
  have hsturdy := sturdy_of_reachable hn
  have hlisted : ∀ name X r, (n.members name).lookup X = some r →
      r.identity = X ∧ ∃ p, n.peers.lookup X = some p ∧ p.serial = r.serial := by
    intro name X r hr
    obtain ⟨rfl, hlive⟩ := hsturdy.members name X r hr
    exact ⟨rfl, live_iff.mp hlive⟩
  refine ⟨hlisted, fun X hX name hmem => ?_, fun name msg => ?_, fun r msg hr => ?_⟩
  · obtain ⟨r, hr⟩ := Option.isSome_iff_exists.mp (AList.lookup_isSome.mpr hmem)
    obtain ⟨-, p, hp, -⟩ := hlisted name X r hr
    exact nomatch hX.symm.trans hp
  · refine EStateM.wp_mono (groupSend_keeps (Set.mem_univ msg.id)) (fun _ _ _ => trivial) ?_
    exact fun f n' h => (hsturdy.moves h.1.moves).not_cause f h.2
  · refine EStateM.wp_mono (followChallenger_spec (K := Set.univ) trivial hr) (fun _ _ _ => trivial) ?_
    exact fun f n' h => (hsturdy.moves h.1).not_cause f h.2

theorem reachable_greetedNode : Reachable greetedNode :=
  .step (sampleEnv 0) (sampleInput 1 sampleHello) (.new _ _) (step_eq_of_isOk (by decide))

/-- The members of the groups of a node that a peer has said HELLO to. -/
theorem listed_greeted :
    (∀ name X r, (greetedNode.members name).lookup X = some r →
      r.identity = X ∧ ∃ p, greetedNode.peers.lookup X = some p ∧ p.serial = r.serial) ∧
    (∀ X, greetedNode.peers.lookup X = none → ∀ name, X ∉ greetedNode.members name) ∧
    (∀ name msg, (groupSend name msg).wp (fun _ _ => True) (fun _ _ => False) greetedNode) ∧
    ∀ r msg, greetedNode.Live r →
      (followChallenger r msg).wp (fun _ _ => True) (fun _ _ => False) greetedNode :=
  listed_of_reachable reachable_greetedNode

/-! ### Ready and connected -/

/-- A HELLO numbered 1 that the gate lets in does not find an entry that is not ready and not
connected. -/
def Attended (env : Env) (n : Node) (input : Input) : Prop :=
  ∀ frames uuid p, input = .inbox frames → senderOf frames = some uuid →
    (Msg.recv frames).msg.id = .hello → (Msg.recv frames).msg.sequence = 1 →
    Admits env n uuid.str (Msg.recv frames).msg → n.peers.lookup uuid.str = some p →
    p.ready = false → p.connected = true

/-- One iteration keeps every ready entry connected. -/
theorem step_attached (hattended : Attended env n input) (h : (n.view X).Attached) :
    (Node.step env input).wp (fun _ n' => (n'.view X).Attached) (fun _ _ => True) n := by
  by_cases hX : ∃ uuid, Sender input uuid ∧ uuid.str = X
  · obtain ⟨uuid, ⟨frames, rfl, hsender⟩, rfl⟩ := hX
    simp only [Node.step, recvPeer_of_sender hsender]
    by_cases hpass : (Msg.recv frames).msg.id = .hello → Admits env n uuid.str (Msg.recv frames).msg
    · refine EStateM.wp_mono recvMsg_spec ?_ fun _ _ _ => trivial
      rintro _ n' ⟨v, harrival, hreaches⟩
      rw [hreaches.view]
      refine h.arrival harrival fun hid hseq q hq hready => ?_
      obtain ⟨p, hp, rfl⟩ := Option.map_eq_some_iff.mp hq
      exact hattended frames uuid p rfl hsender hid hseq (hpass hid) hp hready
    · obtain ⟨hid, hnot⟩ := Classical.not_imp.mp hpass
      exact EStateM.wp_mono (recvMsg_declined hid hnot) (fun _ n' hd => h.declined hd)
        fun _ _ _ => trivial
  · have hne : ∀ uuid, Sender input uuid → uuid.str ≠ X := fun uuid hs h => hX ⟨uuid, hs, h⟩
    exact EStateM.wp_mono (step_aside hne) (fun _ n' ha => h.aside ha) fun _ _ _ => trivial

/-- Every peer that is ready is connected. -/
def ReadyConnected (n : Node) : Prop :=
  ∀ X p, n.peers.lookup X = some p → p.ready = true → p.connected = true

/-- **Ready peers are connected.** In a run in which every HELLO that takes up an entry finds it connected,
every peer that is ready is connected. The gate of HELLO makes an entry ready without looking at its
mailbox, which a purge may have closed before; any other step keeps `PeerView.Attached`. -/
theorem readyConnected_of_run (h : Run Attended n) : n.ReadyConnected := by
  have hattached : ∀ X, (n.view X).Attached := by
    intro X
    induction h with
    | new uuid endpoint => exact fun _ hp => nomatch hp
    | step env input hn hc h ih => exact (EStateM.wp_of_ok h (step_attached hc ih) :)
  exact fun X p hp hready => hattached X p.still (by simp [hp]) hready

/-- A peer has been discovered. -/
def discoveredNode : Node :=
  final (Node.step (sampleEnv 0) (.api (.requirePeer (sampleUuid 1) (sampleEndpoint 'p') none)) sampleNode)

/-- The peer says HELLO, which takes up the entry that discovery has made: it is ready, and connected. -/
theorem readyConnected_greeted : ∃ p,
    (final (Node.step (sampleEnv 0) (sampleInput 1 sampleHello) discoveredNode)).peers.lookup (sampleUuid 1).str =
      some p ∧ p.ready = true ∧ p.connected = true := by
  set n' := final (Node.step (sampleEnv 0) (sampleInput 1 sampleHello) discoveredNode)
  have hapi : ∀ c, Attended (sampleEnv 0) sampleNode (.api c) := fun _ _ _ _ hinput => nomatch hinput
  have hdiscovered : Run Attended discoveredNode :=
    .step _ _ (.new _ _) (hapi _) (step_eq_of_isOk (by decide))
  have hattended : Attended (sampleEnv 0) discoveredNode (sampleInput 1 sampleHello) := by
    intro frames uuid p hinput hsender _ _ _ hp _
    obtain rfl : (1 :: (sampleUuid 1).data) :: sampleHello.frames = frames := Input.inbox.inj hinput
    obtain rfl : sampleUuid 1 = uuid := Option.some.inj hsender
    have hall : ∀ e ∈ discoveredNode.peers.entries, e.2.connected = true := by decide +kernel
    exact hall _ (AList.mem_lookup_iff.mp hp)
  have hready : (n'.peers.lookup (sampleUuid 1).str).map (·.ready) = some true := by decide +kernel
  obtain ⟨p, hp, hr⟩ := Option.map_eq_some_iff.mp hready
  have hrun : Run Attended n' := .step _ _ hdiscovered hattended (step_eq_of_isOk (by decide +kernel))
  exact ⟨p, hp, hr, readyConnected_of_run hrun _ p hp hr⟩

/-- A peer is discovered, another one is discovered on its endpoint, and the first one says HELLO: it
is ready and not connected. -/
theorem not_readyConnected_of_purge : ¬∀ n, Reachable n → n.ReadyConnected := by
  intro h
  let inputs : List (Env × Input) :=
    [(sampleEnv 0, .api (.requirePeer (sampleUuid 1) (sampleEndpoint 'p') none)),
      (sampleEnv 0, .api (.requirePeer (sampleUuid 2) (sampleEndpoint 'p') none)),
      (sampleEnv 0, sampleInput 1 sampleHello)]
  have hplay : (play inputs sampleNode).map (fun n =>
      (n.peers.lookup (sampleUuid 1).str).map fun p => (p.ready, p.connected)) =
        some (some (true, false)) := by
    decide +kernel
  obtain ⟨n, hn, hout⟩ := Option.map_eq_some_iff.mp hplay
  obtain ⟨p, hp, hflags⟩ := Option.map_eq_some_iff.mp hout
  obtain ⟨hready, hconn⟩ := Prod.mk.inj hflags
  have hconn' := h n (reachable_of_play (.new _ _) hn) _ p hp hready
  rw [hconn] at hconn'
  cases hconn'

end Node

end Zyre
