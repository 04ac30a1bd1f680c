import Zyre.ForMathlib.Reading
import Zyre.Node.Arrival

/-!
# Which messages a node accepts

`accepted` runs `zyre_node_recv_peer` up to the point where the command of a message is handled. A
`Reception` is what the rest does to the view of the sender, once for a message that got that far and
once for one that did not.
-/

namespace Zyre

/-- What a message does to the view of its sender, and whether its command is handled. -/
inductive Reception (X : CStr) (msg : Msg) (v : PeerView) : Bool → PeerView → Prop
  | ignored (h : ∀ p, v.entry = some p → p.ready = false) : Reception X msg v false v
  | dropped {v' : PeerView} (he : v'.entry = none) : Reception X msg v false v'
  | greeted (w : PeerView) (hid : msg.id = .hello) (hw : Opened X v w) (hseq : msg.sequence = 1) :
      Reception X msg v true ((w.count 1).greet X msg)
  | bye {v' : PeerView} (p : Peer) (hid : msg.id = .goodbye) (he : v.entry = some p)
      (hr : p.ready = true) (hseq : p.wantSequence + 1 = msg.sequence) (hgone : v'.entry = none) :
      Reception X msg v true v'
  | taken (p : Peer) (hid : msg.id ≠ .hello) (he : v.entry = some p) (hr : p.ready = true)
      (hseq : p.wantSequence + 1 = msg.sequence) :
      Reception X msg v true ((v.count msg.sequence).take X msg)

namespace Node

variable {n n' : Node} {env : Env} {uuid : Uuid} {msg : Msg}

/-- The checks behind the gate: the peer is there and ready, and no message was lost. -/
def passes (msg : Msg) : Option PeerRef → NodeM Bool
  | none => pure false
  | some peer => do
    let p ← readPeer peer
    pure (p.ready && !(p.messagesLost msg).1)

/-- `zyre_node_recv_peer` up to the handling of the command. -/
def accepts (env : Env) (uuid : Uuid) (msg : Msg) : NodeM Bool := do
  passes msg (← senderGate env uuid msg)

/-- The node gets as far as the command of the message. -/
def accepted (env : Env) (uuid : Uuid) (msg : Msg) (n : Node) : Bool :=
  match accepts env uuid msg n with
  | .ok b _ => b
  | .error .. => false

theorem readPeer_ok {r : PeerRef} {p : Peer} {n' : Node} (h : readPeer r n = .ok p n') :
    n' = n ∧ n.deref r = some p := by
  have hwp : (readPeer r).wp (fun p n' => n' = n ∧ n.deref r = some p) (fun _ _ => True) n :=
    wp_readPeer.mpr ⟨fun _ hp => ⟨rfl, hp⟩, fun _ => trivial⟩
  exact (EStateM.wp_of_ok h hwp :)

/-- A message counts as lost if it does not have the number the peer's count asks for. -/
theorem messagesLost_eq (p : Peer) : (p.messagesLost msg).1 =
    decide ((if msg.id = .hello then 1 else p.wantSequence + 1) ≠ msg.sequence) :=
  rfl

/-- HELLO behind the gate. -/
theorem Accepted.reception_of_opened {v w w' : PeerView} {p : Peer} {X : CStr} {gossip : Bool}
    (h : Accepted gossip X msg w w') (hid : msg.id = .hello) (hw : Opened X v w) :
    Reception X msg v (!(p.messagesLost msg).1) w' := by
  rw [messagesLost_eq, if_pos hid]
  rcases h with ⟨q, he, hseq⟩ | ⟨-, hseq⟩ | ⟨q, hid', -⟩ | ⟨q, hid', -⟩
  · rw [if_pos hid] at hseq
    rw [decide_eq_true hseq]
    exact .dropped rfl
  · rw [decide_eq_false (not_not.mpr hseq)]
    exact .greeted w hid hw hseq.symm
  · rw [hid] at hid'
    cases hid'
  · exact absurd hid hid'

/-- Another command from a peer that is ready. -/
theorem Accepted.reception_of_ready {v w : PeerView} {p : Peer} {X : CStr} {gossip : Bool}
    (h : Accepted gossip X msg v w) (hid : msg.id ≠ .hello) (hp : v.entry = some p.still)
    (hready : p.ready = true) : Reception X msg v (!(p.messagesLost msg).1) w := by
  rw [messagesLost_eq, if_neg hid]
  rcases h with ⟨q, he, hseq⟩ | ⟨hid', -⟩ | ⟨q, hid', he, hseq, -⟩ | ⟨q, -, he, hseq, -⟩
  · rw [if_neg hid] at hseq
    obtain rfl := Option.some_inj.mp (hp.symm.trans he)
    have hseq : p.wantSequence + 1 ≠ msg.sequence := hseq
    rw [decide_eq_true hseq]
    exact .dropped rfl
  · exact absurd hid' hid
  · obtain rfl := Option.some_inj.mp (hp.symm.trans he)
    have hseq : p.wantSequence + 1 = msg.sequence := hseq
    rw [decide_eq_false (not_not.mpr hseq)]
    exact .bye p.still hid' hp hready hseq rfl
  · obtain rfl := Option.some_inj.mp (hp.symm.trans he)
    have hseq : p.wantSequence + 1 = msg.sequence := hseq
    rw [decide_eq_false (not_not.mpr hseq)]
    exact .taken p.still hid hp hready hseq

theorem lookupPeer_of_senderGate {o : Option PeerRef} (hid : msg.id ≠ .hello)
    (h : senderGate env uuid msg n = .ok o n') :
    n' = n ∧ o = (n.peers.lookup uuid.str).map fun p => ⟨uuid.str, p.serial⟩ := by
  rw [senderGate, if_neg hid] at h
  have hwp : (lookupPeer uuid.str).wp (fun o n' => n' = n ∧ o = (n.peers.lookup uuid.str).map
      fun p => ⟨uuid.str, p.serial⟩) (fun _ _ => True) n := wp_lookupPeer.mpr ⟨rfl, rfl⟩
  exact (EStateM.wp_of_ok h hwp :)

/-- The next message of a peer that is ready. -/
theorem accepted_of_ready {p : Peer} (hid : msg.id ≠ .hello) (hp : n.peers.lookup uuid.str = some p)
    (hready : p.ready = true) (hseq : p.wantSequence + 1 = msg.sequence) :
    accepted env uuid msg n = true := by
  have hgate : senderGate env uuid msg n = .ok (some ⟨uuid.str, p.serial⟩) n := by
    show (if msg.id = .hello then helloGate env uuid msg else lookupPeer uuid.str) n = _
    rw [if_neg hid]
    show EStateM.Result.ok ((n.peers.lookup uuid.str).map fun p => (⟨uuid.str, p.serial⟩ : PeerRef)) n = _
    rw [hp]
    rfl
  have hread : readPeer ⟨uuid.str, p.serial⟩ n = .ok p n := by
    obtain ⟨q, n', hok, rfl, hq⟩ := EStateM.exists_of_wp (Q := fun q n' => n' = n ∧ q = p) (s := n)
      (wp_readPeer.mpr ⟨fun q hq => ⟨rfl, Option.some_inj.mp (hq.symm.trans (deref_of_lookup hp))⟩,
        fun h => nomatch h.symm.trans (deref_of_lookup hp)⟩)
    rw [hok, hq]
  have hlost : (p.messagesLost msg).1 = false := by
    rw [messagesLost_eq, if_neg hid]
    exact decide_eq_false (not_not.mpr hseq)
  have hpasses : passes msg (some ⟨uuid.str, p.serial⟩) n = .ok true n := by
    rw [passes, EStateM.bind_of_ok hread, hready, hlost]
    rfl
  have haccepts : accepts env uuid msg n = .ok true n :=
    (EStateM.bind_of_ok hgate).trans hpasses
  rw [accepted, haccepts]

/-- A message that does not stop the node. -/
theorem reception (h : recvMsg env uuid msg n = .ok ⟨⟩ n') :
    Reception uuid.str msg (n.view uuid.str) (accepted env uuid msg n) (n'.view uuid.str) := by
  obtain ⟨o, n₁, hgate, hrest⟩ := EStateM.bind_ok h
  have haccepts : accepts env uuid msg n = passes msg o n₁ := EStateM.bind_of_ok hgate
  cases o with
  | none =>
    have hfalse : accepted env uuid msg n = false := by rw [accepted, haccepts]; rfl
    obtain rfl : n₁ = n' := by cases hrest; rfl
    rw [hfalse]
    by_cases hid : msg.id = .hello
    · rw [senderGate, if_pos hid] at hgate
      obtain ⟨v, hdeclined, hreaches⟩ := EStateM.wp_of_ok hgate helloGate_spec
      rw [hreaches.view]
      rcases hdeclined with h | ⟨p, he, hr⟩
      · exact .ignored h
      · exact .dropped rfl
    · obtain ⟨hsame, hnone⟩ := lookupPeer_of_senderGate hid hgate
      rw [hsame]
      refine .ignored fun p hp => ?_
      rw [view_entry, Option.map_eq_none_iff.mp hnone.symm] at hp
      cases hp
  | some r =>
    obtain ⟨p, n₂, hread, haccept⟩ := EStateM.bind_ok hrest
    obtain ⟨rfl, hp⟩ := readPeer_ok hread
    have hbool : accepted env uuid msg n = (p.ready && !(p.messagesLost msg).1) := by
      rw [accepted, haccepts, passes, EStateM.bind_of_ok hread]
      rfl
    have hentry := view_entry_of_deref hp
    rw [hbool]
    by_cases hid : msg.id = .hello
    · rw [senderGate, if_pos hid] at hgate
      obtain ⟨w, q, hw, hq, hready, rfl, hreaches⟩ := EStateM.wp_of_ok hgate helloGate_spec
      have hview := hreaches.view
      have hstill : q = p.still := Option.some_inj.mp (hq.symm.trans (hview ▸ hentry))
      have hready' : p.ready = true := by rw [hstill] at hready; exact hready
      rw [if_pos hready'] at haccept
      obtain ⟨v, haccepted, hbecomes⟩ := EStateM.wp_of_ok haccept (acceptMsg_spec hp)
      rw [hbecomes.view, Views.at_self, hready', Bool.true_and]
      rw [hview] at haccepted
      exact haccepted.reception_of_opened hid hw
    · obtain ⟨rfl, hr⟩ := lookupPeer_of_senderGate hid hgate
      have hidentity : r.identity = uuid.str := by
        obtain ⟨q, -, hq⟩ := Option.map_eq_some_iff.mp hr.symm
        rw [← hq]
      rw [hidentity] at hentry
      cases hready : p.ready with
      | false =>
        rw [if_neg (by rw [hready]; exact Bool.false_ne_true)] at haccept
        cases haccept
        refine .ignored fun q hq => ?_
        obtain rfl := Option.some_inj.mp (hentry.symm.trans hq)
        exact hready
      | true =>
        rw [if_pos hready] at haccept
        obtain ⟨v, haccepted, hbecomes⟩ := EStateM.wp_of_ok haccept (acceptMsg_spec hp)
        rw [hbecomes.view, hidentity, Views.at_self, Bool.true_and]
        rw [hidentity] at haccepted
        exact haccepted.reception_of_ready hid hentry hready

end Node

end Zyre
