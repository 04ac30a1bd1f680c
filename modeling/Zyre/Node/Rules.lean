import Zyre.Node.Actor

/-!
# Rules for the primitives of a node

One weakest-precondition equation for each primitive of `NodeM`, so that `simp` runs a program up to
its next call, and the facts about pointers that the rules lead to.
-/

namespace Zyre

namespace Node

variable {n : Node} {r : PeerRef} {p : Peer}

/-! ### Pointers -/

/-- A pointer leads to the entry under its identity if that entry is the very one it was taken from. -/
theorem deref_eq_some : n.deref r = some p ↔ n.peers.lookup r.identity = some p ∧
    p.serial = r.serial := by
  simp [deref, Option.filter_eq_some_iff]

/-- What a pointer leads to is in the table. -/
theorem lookup_of_deref (h : n.deref r = some p) : n.peers.lookup r.identity = some p :=
  (deref_eq_some.mp h).1

/-- What a pointer leads to is the object the pointer was taken from. -/
theorem serial_of_deref (h : n.deref r = some p) : p.serial = r.serial :=
  (deref_eq_some.mp h).2

/-- The pointer to the entry of `identity`. -/
theorem deref_of_lookup {identity : CStr} (h : n.peers.lookup identity = some p) :
    n.deref ⟨identity, p.serial⟩ = some p :=
  deref_eq_some.mpr ⟨h, rfl⟩

/-- Two pointers to live objects are the same when their identities are. -/
theorem ref_eq_of_deref {r' : PeerRef} {p' : Peer} (h : n.deref r = some p)
    (h' : n.deref r' = some p') (hid : r.identity = r'.identity) : r = r' := by
  have hp : p = p' := Option.some_inj.mp <| by
    rw [← lookup_of_deref h, ← lookup_of_deref h', hid]
  have hs : r.serial = r'.serial := by rw [← serial_of_deref h, ← serial_of_deref h', hp]
  cases r; cases r'; simp_all

/-- Pointers lead to the same entries in nodes with the same table. -/
theorem deref_congr {n' : Node} (h : n'.peers = n.peers) (r : PeerRef) :
    n'.deref r = n.deref r := by
  simp only [deref, h]

/-! ### One equation for each primitive -/

section

variable {α : Type} {E : Fault → Node → Prop} {c : Bool} {e : Event} {name identity : CStr}

/-- A failed assertion ends the program. -/
@[simp]
theorem wp_assert {Q : Unit → Node → Prop} :
    (assert c).wp Q E n ↔ (c = true → Q ⟨⟩ n) ∧ (c = false → E .assertion n) := by
  cases c <;> simp [assert]

/-- An event is put behind those in the outbox. -/
@[simp]
theorem wp_emit {Q : Unit → Node → Prop} :
    (emit e).wp Q E n ↔ Q ⟨⟩ { n with outbox := n.outbox ++ [e] } :=
  Iff.rfl

/-- `zhash_lookup` on the table of peers returns a pointer to the entry, or nothing. -/
@[simp]
theorem wp_lookupPeer {Q : Option PeerRef → Node → Prop} :
    (lookupPeer identity).wp Q E n ↔
      Q ((n.peers.lookup identity).map fun p => ⟨identity, p.serial⟩) n :=
  Iff.rfl

/-- Reading a field through a pointer needs the entry to be there; a freed one is a fault. -/
@[simp]
theorem wp_readPeer {Q : Peer → Node → Prop} :
    (readPeer r).wp Q E n ↔
      (∀ p, n.deref r = some p → Q p n) ∧ (n.deref r = none → E .dangling n) := by
  simp only [readPeer, EStateM.wp_bind, EStateM.wp_get]
  cases h : n.deref r <;> simp

/-- Writing a field through a pointer needs the entry to be there as well. -/
@[simp]
theorem wp_modifyPeer {Q : Unit → Node → Prop} {f : Peer → Peer} :
    (modifyPeer r f).wp Q E n ↔
      (∀ p, n.deref r = some p → Q ⟨⟩ { n with peers := n.peers.modify r.identity f }) ∧
        (n.deref r = none → E .dangling n) := by
  simp [modifyPeer]

/-- `zhash_delete` on the table of peers. -/
@[simp]
theorem wp_deletePeer {Q : Unit → Node → Prop} :
    (deletePeer r).wp Q E n ↔ Q ⟨⟩ { n with peers := n.peers.erase r.identity } :=
  Iff.rfl

/-- The group under a name, or a new one where there is none. -/
@[simp]
theorem wp_getGroup {Q : Group → Node → Prop} :
    (getGroup name).wp Q E n ↔ Q ((n.peerGroups.lookup name).getD .new) n :=
  Iff.rfl

/-- A write to the group under a name. -/
@[simp]
theorem wp_modifyGroup {Q : Unit → Node → Prop} {f : Group → Group} :
    (modifyGroup name f).wp Q E n ↔
      Q ⟨⟩ { n with peerGroups := n.peerGroups.modify name f } :=
  Iff.rfl

/-- `zyre_node_require_peer_group` makes the group if it is not there. -/
@[simp]
theorem wp_requirePeerGroup {Q : Unit → Node → Prop} :
    (requirePeerGroup name).wp Q E n ↔
      Q ⟨⟩ { n with peerGroups := n.peerGroups.insertNew name .new } :=
  Iff.rfl

/-- The election of a group is stored or taken away. -/
@[simp]
theorem wp_setElection {Q : Unit → Node → Prop} {election : Option Election} :
    (setElection name election).wp Q E n ↔
      Q ⟨⟩ { n with
        peerGroups := n.peerGroups.modify name fun g => { g with election := election } } :=
  Iff.rfl

/-- The leader of a group is stored or taken away. -/
@[simp]
theorem wp_setLeader {Q : Unit → Node → Prop} {leader : Option PeerRef} :
    (setLeader name leader).wp Q E n ↔
      Q ⟨⟩ { n with
        peerGroups := n.peerGroups.modify name fun g => { g with leader := leader } } :=
  Iff.rfl

/-- `zyre_node_leader_peer_group` tells the application of a leader. -/
@[simp]
theorem wp_leaderPeerGroup {Q : Unit → Node → Prop} {leaderName : CStr} :
    (leaderPeerGroup identity leaderName name).wp Q E n ↔
      Q ⟨⟩ { n with outbox := n.outbox ++ [.leader identity leaderName name] } :=
  Iff.rfl

end

/-! ### The same for programs that move along a preorder -/

section

variable {α : Type} {R : Node → Node → Prop} {B : Fault → Node → Prop} [Std.Refl R]

/-- What the rest keeps is kept behind an assertion. -/
theorem keeps_assert {c : Bool} {f : Unit → NodeM α} (h : c = true → (f ⟨⟩).Keeps R B n)
    (hB : c = false → B .assertion n) : (assert c >>= f).Keeps R B n :=
  EStateM.wp_bind .. |>.mpr (wp_assert.mpr ⟨h, fun hc => ⟨Std.Refl.refl n, hB hc⟩⟩)

omit [Std.Refl R] in
/-- What the rest keeps is kept behind a lookup. -/
theorem keeps_lookupPeer {identity : CStr} {f : Option PeerRef → NodeM α}
    (h : (f ((n.peers.lookup identity).map fun p => ⟨identity, p.serial⟩)).Keeps R B n) :
    (lookupPeer identity >>= f).Keeps R B n :=
  h

/-- What the rest keeps is kept behind a reading, on the condition that a fault keeps it too. -/
theorem keeps_readPeer {f : Peer → NodeM α} (h : ∀ p, n.deref r = some p → (f p).Keeps R B n)
    (hB : n.deref r = none → B .dangling n) : (readPeer r >>= f).Keeps R B n :=
  EStateM.wp_bind .. |>.mpr (wp_readPeer.mpr ⟨h, fun hr => ⟨Std.Refl.refl n, hB hr⟩⟩)

omit [Std.Refl R] in
/-- What the rest keeps is kept behind a lookup of a group. -/
theorem keeps_getGroup {name : CStr} {f : Group → NodeM α}
    (h : (f ((n.peerGroups.lookup name).getD .new)).Keeps R B n) :
    (getGroup name >>= f).Keeps R B n :=
  h

end

/-! ### Sending to one peer -/

/-- The node after a message was offered to the mailbox of a connected peer. -/
def posted (n : Node) (r : PeerRef) (p : Peer) (msg : Msg) : Node :=
  { n with
    peers := n.peers.modify r.identity fun p => { p with sentSequence := p.sentSequence + 1 }
    mail := n.mail ++ [(r, msg.setSequence (p.sentSequence + 1))] }

/-- `zyre_peer_send`: a message goes out to a connected peer and is dropped at one that is not. -/
theorem wp_peerSend {E : Fault → Node → Prop} {Q : Unit → Node → Prop} {msg : Msg} :
    (peerSend r msg).wp Q E n ↔
      (∀ p, n.deref r = some p → p.connected = true → Q ⟨⟩ (n.posted r p msg)) ∧
      (∀ p, n.deref r = some p → p.connected = false → Q ⟨⟩ n) ∧
      (n.deref r = none → E .dangling n) := by
  cases hr : n.deref r with
  | none => simp [peerSend, hr]
  | some p =>
    have hlook := lookup_of_deref hr
    have hsend := p.send_eq msg .empty
    cases hc : p.connected with
    | true =>
      have hmod : n.peers.modify r.identity (fun _ => (p.send msg .empty).2.1) =
          n.peers.modify r.identity fun p => { p with sentSequence := p.sentSequence + 1 } :=
        AList.modify_congr hlook (by simp [hsend, hc])
      have hseq : (p.send msg .empty).2.1.sentSequence = p.sentSequence + 1 := by
        simp [hsend, hc]
      simp [peerSend, hr, hc, posted, hmod, hseq]
    | false =>
      have hmod : n.peers.modify r.identity (fun _ => (p.send msg .empty).2.1) = n.peers :=
        AList.modify_id hlook (by simp [hsend, hc])
      simp [peerSend, hr, hc, hmod]

end Node

end Zyre
