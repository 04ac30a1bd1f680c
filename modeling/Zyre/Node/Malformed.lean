import Zyre.Msg.Fill
import Zyre.Node.Alternation

/-!
# Frames that are not a command

A frame that is not the complete encoding of a command ought to leave the node as it is (`Inert`). A
frame that is rejected does. One that is too short is handed on with the fields read so far, because
the decoder returns 0 for it; `Harmless` says when the node then happens to do nothing.
-/

namespace Zyre

section

variable {X : CStr} {msg : Msg} {v w : PeerView}

theorem PeerView.log_exit_ne (h : v.log <+: w.log) : (w.exit X).log ≠ v.log := by
  intro heq
  have hlength := h.length_le
  have := congrArg List.length heq
  simp only [PeerView.exit, List.length_append, List.length_cons, List.length_nil] at this
  omega

theorem PeerView.log_greet_ne (h : v.log <+: w.log) : (w.greet X msg).log ≠ v.log := by
  intro heq
  have hlength := h.length_le
  have := congrArg List.length heq
  simp only [PeerView.greet, List.length_append, List.length_cons] at this
  omega

theorem Opened.log_prefix (h : Opened X v w) : v.log <+: w.log := by
  cases h with
  | kept p he hr => exact List.prefix_refl _
  | fresh q he hq => exact List.prefix_refl _
  | renewed p q he hr hq => exact List.prefix_append _ _

end

namespace Node

variable {n n' : Node} {X : CStr} {p : Peer} {env : Env} {uuid : Uuid} {msg : Msg}

/-- The program runs to its end and leaves the peers, the groups and their elections, the outbox and
the mailboxes as they are. -/
def Inert (x : NodeM Unit) (n : Node) : Prop :=
  ∃ n', x n = .ok ⟨⟩ n' ∧ n'.peers = n.peers ∧ n'.peerGroups = n.peerGroups ∧
    n'.outbox = n.outbox ∧ n'.mail = n.mail

/-- The node is secure and the headers have no public key: the HELLO gate ignores the sender. -/
def Keyless (n : Node) (msg : Msg) : Prop :=
  n.secretKey.isSome ∧ msg.headers ≠ none ∧ publicKeyOf msg = none

/-- The keys allow to connect a mailbox: there is no need of one, or it is not empty and libzmq takes
it where it is used. -/
def Keyed (env : Env) (n : Node) (msg : Msg) : Prop :=
  n.secretKey.isSome → ∃ k, publicKeyOf msg = some k ∧ k ≠ ∅ ∧
    (n.publicKey.isSome → env.serverKeyOk k = true)

/-- The fields that were read make the node do nothing. Other commands than HELLO need a peer that
is ready. HELLO is ignored for want of a key, where the entry of its sender is at the node's own
endpoint, or where its endpoint can not be connected and no mailbox is connected to it. -/
def Harmless (env : Env) (n : Node) (X : CStr) (msg : Msg) : Prop :=
  if msg.id = .hello then
    match n.peers.lookup X with
    | some p => p.ready = false ∧ (p.endpointStr = n.endpoint ∨ Keyless n msg)
    | none => Keyless n msg ∨ Keyed env n msg ∧
        env.connects (env.endpointIface msg.endpoint) = false ∧
        ∀ Y q, n.peers.lookup Y = some q → q.connected = true → q.endpoint ≠ msg.endpoint
  else ∀ p, n.peers.lookup X = some p → p.ready = false

theorem view_congr (hpeers : n'.peers = n.peers) (hgroups : n'.peerGroups = n.peerGroups)
    (houtbox : n'.outbox = n.outbox) (hmail : n'.mail = n.mail) : n'.view = n.view := by
  funext X
  simp only [view, groupsOf, members, log, hellosTo, hpeers, hgroups, houtbox, hmail]

theorem inert_of_wp {x : NodeM Unit} (h : x.wp (fun _ n' => n'.peers = n.peers ∧
    n'.peerGroups = n.peerGroups ∧ n'.outbox = n.outbox ∧ n'.mail = n.mail) (fun _ _ => False) n) :
    Inert x n := by
  unfold EStateM.wp at h
  cases hx : x n with
  | ok a n' => rw [hx] at h; exact ⟨n', hx, h⟩
  | error f n' => rw [hx] at h; exact h.elim

theorem not_inert_of_wp {x : NodeM Unit}
    (h : x.wp (fun _ n' => (n'.view X).log ≠ (n.view X).log) (fun _ _ => True) n) : ¬Inert x n := by
  rintro ⟨n', hx, hpeers, hgroups, houtbox, hmail⟩
  refine EStateM.wp_of_ok hx h ?_
  rw [view_congr hpeers hgroups houtbox hmail]

/-! ### Where the node does something -/

/-- A HELLO that is let in is told, as ENTER or as EXIT. -/
theorem not_inert_of_admitted (hid : msg.id = .hello)
    (h : (helloGate env uuid msg).wp (fun o _ => o.isSome) (fun _ _ => True) n) :
    ¬Inert (recvMsg env uuid msg) n := by
  refine not_inert_of_wp (X := uuid.str) ?_
  simp only [recvMsg, senderGate, EStateM.wp_bind, if_pos hid]
  refine EStateM.wp_mono (EStateM.wp_and helloGate_spec h) ?_ fun _ _ _ => trivial
  rintro (_ | r) n₁ ⟨hgate, hsome⟩
  · cases hsome
  · obtain ⟨v, q, hopened, hq, hready, rfl, hreaches⟩ := hgate
    obtain ⟨p, hp, rfl⟩ := deref_of_view (n := n₁) (X := uuid.str) (q := q)
      (by rw [hreaches.view]; exact hq)
    refine EStateM.wp_bind .. |>.mpr (wp_readPeer.mpr ⟨fun p' hp' => ?_, fun _ => trivial⟩)
    cases hp.symm.trans hp'
    have hready : p.ready = true := hready
    rw [if_pos hready]
    refine EStateM.wp_mono (acceptMsg_spec hp) ?_ fun _ _ _ => trivial
    rintro _ n₂ ⟨w, haccepted, hbecomes⟩
    rw [hbecomes.view, Views.at_self]
    rw [hreaches.view] at haccepted
    rcases haccepted with ⟨p', he, hseq⟩ | ⟨-, hseq⟩ | ⟨p', hid', -⟩ | ⟨p', hid', -⟩
    · exact PeerView.log_exit_ne hopened.log_prefix
    · exact PeerView.log_greet_ne (w := v.count 1) hopened.log_prefix
    · rw [hid] at hid'; cases hid'
    · exact absurd hid hid'

/-- A message from a peer that is ready is counted, or ends the session. -/
theorem not_inert_of_ready (hp : n.peers.lookup X = some p) (hready : p.ready = true)
    (hX : uuid.str = X) : ¬Inert (recvMsg env uuid msg) n := by
  subst hX
  rintro ⟨n', hok, hpeers, hgroups, houtbox, hmail⟩
  obtain ⟨v, harrival, hreaches⟩ := EStateM.wp_of_ok hok recvMsg_spec
  have hview : v = n.view uuid.str := by
    rw [← hreaches.view, view_congr hpeers hgroups houtbox hmail]
  have hentry : (n.view uuid.str).entry = some p.still := by simp [hp]
  have hlog : v.log = (n.view uuid.str).log := by rw [hview]
  rcases harrival with h | - | ⟨w, -, hw, -⟩ | ⟨w, -, hw, -⟩ | - | - | ⟨q, -, he, -, hseq, -⟩
  · have hnot := h p.still hentry
    have hstill : p.still.ready = p.ready := rfl
    rw [hstill, hready] at hnot
    cases hnot
  · exact PeerView.log_exit_ne (List.prefix_refl _) hlog
  · exact PeerView.log_exit_ne hw.log_prefix hlog
  · exact PeerView.log_greet_ne (w := w.count 1) hw.log_prefix hlog
  · exact PeerView.log_exit_ne (List.prefix_refl _) hlog
  · exact PeerView.log_exit_ne (List.prefix_refl _) hlog
  · -- The count has moved on, whatever else the message did.
    have hcounted : q.wantSequence = msg.sequence :=
      PeerView.wantSequence_take (by rw [hview]; exact he)
    rw [← hcounted] at hseq
    simp at hseq

/-! ### Where the HELLO gate does nothing -/

theorem keyed_iff_keyOk {k : CStr} (hsecret : n.secretKey.isSome) (hk : publicKeyOf msg = some k) :
    Keyed env n msg ↔ k ≠ ∅ ∧ KeyOk env n (some k) := by
  have hsecure : n.secure = n.publicKey.isSome := by simp [secure, hsecret]
  constructor
  · intro h
    obtain ⟨k', hk', hne, hok⟩ := h hsecret
    obtain rfl := Option.some_inj.mp (hk.symm.trans hk')
    exact ⟨hne, fun hsec => ⟨k, rfl, hok (hsecure ▸ hsec)⟩⟩
  · rintro ⟨hne, hok⟩ -
    refine ⟨k, hk, hne, fun hpublic => ?_⟩
    obtain ⟨k', hk', h⟩ := hok (hsecure.trans hpublic)
    obtain rfl := Option.some_inj.mp hk'
    exact h

theorem purged_peers_iff {endpoint : CStr} : (n.purged endpoint).peers = n.peers ↔
    ∀ Y q, n.peers.lookup Y = some q → q.connected = true → q.endpoint ≠ endpoint := by
  constructor
  · intro h Y q hq hconn hend
    have hlook : (n.purged endpoint).peers.lookup Y = some (purgePeer endpoint q) := by
      simp [purged, hq]
    rw [h, hq] at hlook
    have hpurge : purgePeer endpoint q = q.disconnect := by
      simp [purgePeer, Peer.endpointStr, hconn, hend]
    have hconn' := congrArg Peer.connected (Option.some_inj.mp hlook)
    rw [hpurge, Peer.disconnect_connected, hconn] at hconn'
    cases hconn'
  · intro h
    refine AList.ext ((List.map_congr_left fun e he => ?_).trans (List.map_id _))
    have hlook := h e.1 e.2 (AList.mem_lookup_iff.mpr he)
    have hpurge : purgePeer endpoint e.2 = e.2 := by
      unfold purgePeer Peer.endpointStr Peer.disconnect
      cases hconn : e.2.connected with
      | false => simp
      | true => simp [hlook hconn]
    simp [Sigma.map, hpurge]

/-- The gate decides that there is no sender. -/
theorem inert_of_gate (hid : msg.id = .hello)
    (h : (helloGate env uuid msg).wp (fun o n' => o = none ∧ n'.peers = n.peers ∧
      n'.peerGroups = n.peerGroups ∧ n'.outbox = n.outbox ∧ n'.mail = n.mail) (fun _ _ => False) n) :
    Inert (recvMsg env uuid msg) n := by
  refine inert_of_wp ?_
  simp only [recvMsg, senderGate, EStateM.wp_bind, if_pos hid]
  refine EStateM.wp_mono h ?_ fun _ _ h => h
  rintro _ n' ⟨rfl, hsame⟩
  exact hsame

/-- The peer is required with a key and marked ready. -/
private def admitWith (env : Env) (uuid : Uuid) (endpoint : CStr) (key : Option CStr) :
    NodeM (Option PeerRef) := do
  setReady (← requirePeer env uuid endpoint key)

section

variable {Q : Option PeerRef → Node → Prop} {E : Fault → Node → Prop}

private theorem wp_helloAdmit : (helloAdmit env uuid msg).wp Q E n ↔
    if n.secretKey.isSome then
      if msg.headers = none then E .nullContainer n
      else match publicKeyOf msg with
        | none => Q none n
        | some k => if k = ∅ then E .assertion n
          else (admitWith env uuid msg.endpoint (some k)).wp Q E n
    else (admitWith env uuid msg.endpoint none).wp Q E n := by
  simp only [helloAdmit, helloRequire, admitWith, EStateM.wp_bind, EStateM.wp_get]
  cases n.secretKey with
  | none => simp
  | some secret =>
    cases hheaders : msg.headers with
    | none => simp
    | some headers =>
      have hkey : publicKeyOf msg = headers.lookup xPublickey := by simp [publicKeyOf, hheaders]
      cases hlook : headers.lookup xPublickey with
      | none => simp [hkey, hlook, setReady]
      | some k => by_cases hk : k = ∅ <;> simp [hkey, hlook, hk]

/-- The gate on a peer whose entry is not ready. -/
private theorem wp_helloGate_of_some (hlook : n.peers.lookup uuid.str = some p)
    (hready : p.ready = false) :
    (helloGate env uuid msg).wp Q E n ↔
      if p.endpointStr = n.endpoint then Q none n else (helloAdmit env uuid msg).wp Q E n := by
  have hderef := deref_of_lookup hlook
  simp only [helloGate, EStateM.wp_bind, wp_lookupPeer, hlook, Option.map_some, wp_readPeer, hderef,
    Option.some_inj, forall_eq', hready, Bool.false_eq_true, if_false, EStateM.wp_get,
    EStateM.wp_pure]
  by_cases hend : p.endpointStr = n.endpoint <;> simp [hend]

/-- The gate on a peer without an entry. -/
private theorem wp_helloGate_of_none (hlook : n.peers.lookup uuid.str = none) :
    (helloGate env uuid msg).wp Q E n ↔ (helloAdmit env uuid msg).wp Q E n := by
  simp [helloGate, hlook]

end

/-- HELLO of a peer whose entry is not ready. -/
theorem inert_hello_of_some (hid : msg.id = .hello) (hlook : n.peers.lookup uuid.str = some p)
    (hready : p.ready = false) :
    Inert (recvMsg env uuid msg) n ↔ p.endpointStr = n.endpoint ∨ Keyless n msg := by
  by_cases hend : p.endpointStr = n.endpoint
  · refine iff_of_true (inert_of_gate hid ?_) (Or.inl hend)
    rw [wp_helloGate_of_some hlook hready, if_pos hend]
    exact ⟨rfl, rfl, rfl, rfl, rfl⟩
  refine Iff.trans ?_ (or_iff_right hend).symm
  have hadmitted : ∀ key, (admitWith env uuid msg.endpoint key).wp (fun o _ => o.isSome)
      (fun _ _ => True) n := by
    intro key
    refine EStateM.wp_bind .. |>.mpr ((wp_requirePeer_of_some hlook).mpr ?_)
    exact EStateM.wp_bind .. |>.mpr (wp_modifyPeer.mpr ⟨fun _ _ => rfl, fun _ => trivial⟩)
  by_cases hkeyless : Keyless n msg
  · refine iff_of_true (inert_of_gate hid ?_) hkeyless
    obtain ⟨hsecret, hheaders, hkey⟩ := hkeyless
    rw [wp_helloGate_of_some hlook hready, if_neg hend, wp_helloAdmit, if_pos hsecret,
      if_neg hheaders, hkey]
    exact ⟨rfl, rfl, rfl, rfl, rfl⟩
  · refine iff_of_false (not_inert_of_admitted hid ?_) hkeyless
    rw [wp_helloGate_of_some hlook hready, if_neg hend, wp_helloAdmit]
    by_cases hsecret : n.secretKey.isSome
    · rw [if_pos hsecret]
      by_cases hheaders : msg.headers = none
      · rw [if_pos hheaders]
        trivial
      · rw [if_neg hheaders]
        cases hkey : publicKeyOf msg with
        | none => exact absurd ⟨hsecret, hheaders, hkey⟩ hkeyless
        | some k =>
          by_cases hk : k = ∅
          · exact (if_pos hk).mpr trivial
          · exact (if_neg hk).mpr (hadmitted _)
    · rw [if_neg hsecret]
      exact hadmitted _

/-- With a key that will do, the gate requires the peer. -/
private theorem helloAdmit_of_keyed (uuid : Uuid) (h : Keyed env n msg) : ∃ key, KeyOk env n key ∧ ∀ Q E,
    (helloAdmit env uuid msg).wp Q E n ↔ (admitWith env uuid msg.endpoint key).wp Q E n := by
  by_cases hsecret : n.secretKey.isSome
  · obtain ⟨k, hk, hne, hok⟩ := h hsecret
    have hheaders : msg.headers ≠ none := fun hnone => by simp [publicKeyOf, hnone] at hk
    refine ⟨some k, ((keyed_iff_keyOk hsecret hk).mp h).2, fun Q E => ?_⟩
    rw [wp_helloAdmit, if_pos hsecret, if_neg hheaders, hk]
    exact iff_of_eq (if_neg hne)
  · refine ⟨none, fun hsec => ?_, fun Q E => by rw [wp_helloAdmit, if_neg hsecret]⟩
    simp only [secure, Bool.and_eq_true] at hsec
    exact absurd hsec.2 hsecret

/-- HELLO of a peer without an entry, with a key that will do and an endpoint that can not be
connected. -/
theorem recvMsg_unconnected (hid : msg.id = .hello) (hlook : n.peers.lookup uuid.str = none)
    (hkeyed : Keyed env n msg) (hconnects : env.connects (env.endpointIface msg.endpoint) = false) :
    (recvMsg env uuid msg).wp (fun _ n' => n' =
      { n.purged msg.endpoint with serial := n.serial + 1 }) (fun _ _ => False) n := by
  obtain ⟨key, hkey, hgate⟩ := helloAdmit_of_keyed uuid hkeyed
  simp only [recvMsg, senderGate, EStateM.wp_bind, if_pos hid]
  rw [wp_helloGate_of_none hlook, hgate, admitWith, EStateM.wp_bind,
    wp_requirePeer_of_none hlook hkey, if_neg (by simp [hconnects])]
  rfl

/-- HELLO of a peer without an entry, with a key that will do. -/
theorem inert_hello_of_keyed (hid : msg.id = .hello) (hlook : n.peers.lookup uuid.str = none)
    (hkeyed : Keyed env n msg) :
    Inert (recvMsg env uuid msg) n ↔ env.connects (env.endpointIface msg.endpoint) = false ∧
      ∀ Y q, n.peers.lookup Y = some q → q.connected = true → q.endpoint ≠ msg.endpoint := by
  cases hconnects : env.connects (env.endpointIface msg.endpoint) with
  | true =>
    obtain ⟨key, hkey, hgate⟩ := helloAdmit_of_keyed uuid hkeyed
    refine iff_of_false (not_inert_of_admitted hid ?_) fun h => nomatch h.1
    rw [wp_helloGate_of_none hlook, hgate, admitWith, EStateM.wp_bind,
      wp_requirePeer_of_none hlook hkey, if_pos hconnects]
    exact EStateM.wp_bind .. |>.mpr (wp_modifyPeer.mpr ⟨fun _ _ => rfl, fun _ => trivial⟩)
  | false =>
    have hrun := recvMsg_unconnected hid hlook hkeyed hconnects
    rw [← purged_peers_iff]
    refine ⟨?_, fun ⟨_, h⟩ => inert_of_wp (EStateM.wp_mono hrun ?_ fun _ _ h => h)⟩
    · rintro ⟨n', hok, hpeers, -⟩
      obtain rfl := EStateM.wp_of_ok hok hrun
      exact ⟨rfl, hpeers⟩
    · rintro _ n' rfl
      exact ⟨h, rfl, rfl, rfl⟩

/-- HELLO of a peer without an entry. -/
theorem inert_hello_of_none (hid : msg.id = .hello) (hlook : n.peers.lookup uuid.str = none) :
    Inert (recvMsg env uuid msg) n ↔ Keyless n msg ∨ Keyed env n msg ∧
      env.connects (env.endpointIface msg.endpoint) = false ∧
      ∀ Y q, n.peers.lookup Y = some q → q.connected = true → q.endpoint ≠ msg.endpoint := by
  by_cases hkeyed : Keyed env n msg
  · have hkeyless : ¬Keyless n msg := by
      rintro ⟨hsecret, -, hnone⟩
      obtain ⟨k, hk, -⟩ := hkeyed hsecret
      exact nomatch hnone.symm.trans hk
    rw [or_iff_right hkeyless, and_iff_right hkeyed]
    exact inert_hello_of_keyed hid hlook hkeyed
  have hsecret : n.secretKey.isSome := by_contra fun h => hkeyed fun h' => absurd h' h
  refine Iff.trans ?_ (or_iff_left fun h => hkeyed h.1).symm
  by_cases hkeyless : Keyless n msg
  · refine iff_of_true (inert_of_gate hid ?_) hkeyless
    rw [wp_helloGate_of_none hlook, wp_helloAdmit, if_pos hsecret, if_neg hkeyless.2.1, hkeyless.2.2]
    exact ⟨rfl, rfl, rfl, rfl, rfl⟩
  · -- The gate stops: there are no headers, the key is empty, or libzmq does not take it.
    refine iff_of_false (not_inert_of_admitted hid ?_) hkeyless
    rw [wp_helloGate_of_none hlook, wp_helloAdmit, if_pos hsecret]
    split_ifs with hheaders
    cases hk : publicKeyOf msg with
    | none => exact absurd ⟨hsecret, hheaders, hk⟩ hkeyless
    | some k =>
      by_cases hempty : k = ∅
      · exact (if_pos hempty).mpr trivial
      · have hbad : ¬KeyOk env n (some k) := fun h =>
          hkeyed ((keyed_iff_keyOk hsecret hk).mpr ⟨hempty, h⟩)
        refine (if_neg hempty).mpr (EStateM.wp_bind .. |>.mpr ?_)
        exact wp_requirePeer_of_not_keyOk hlook hbad fun _ _ _ _ => trivial

/-- Exactly the harmless messages leave the node as it is. -/
theorem inert_recvMsg_iff : Inert (recvMsg env uuid msg) n ↔ Harmless env n uuid.str msg := by
  rw [Harmless]
  split_ifs with hid
  · cases hlook : n.peers.lookup uuid.str with
    | none => exact inert_hello_of_none hid hlook
    | some p =>
      cases hready : p.ready with
      | true =>
        exact iff_of_false (not_inert_of_ready hlook hready rfl) fun h => by cases hready.symm.trans h.1
      | false => exact (inert_hello_of_some hid hlook hready).trans (and_iff_right hready).symm
  · constructor
    · intro h p hp
      by_contra hready
      exact not_inert_of_ready hp (by simpa using hready) rfl h
    · intro h
      refine inert_of_wp ?_
      simp only [recvMsg, senderGate, EStateM.wp_bind, if_neg hid, wp_lookupPeer]
      cases hlook : n.peers.lookup uuid.str with
      | none => exact ⟨rfl, rfl, rfl, rfl⟩
      | some p =>
        have hderef := deref_of_lookup hlook
        simp only [Option.map_some, EStateM.wp_bind, wp_readPeer, hderef, Option.some_inj,
          forall_eq', h p hlook, Bool.false_eq_true, if_false]
        exact ⟨⟨rfl, rfl, rfl, rfl⟩, fun h => by cases h⟩

/-- What the node does with a frame that is too short. -/
theorem recvPeer_of_truncated {b : UInt8} {frame : Frame} {rest : List Frame} {r : Reader}
    (h : Decoder.getMessage ⟨Msg.new .unset, frame, rest⟩ = .error .truncated r) :
    recvPeer env ((b :: uuid.data) :: frame :: rest) = recvMsg env uuid r.msg := by
  have hrecv : Msg.recv ((b :: uuid.data) :: frame :: rest) = ⟨0, b :: uuid.data, r.msg, r.rest⟩ := by
    simp only [Msg.recv, h]
  have hlen : (b :: uuid.data).length = zuuidLen + 1 := by simp [uuid.size]
  simp only [recvPeer, hrecv, ne_eq, not_true_eq_false, hlen, dif_pos, if_false, List.drop_one,
    List.tail_cons]

theorem recvPeer_of_rejected {b : UInt8} {frame : Frame} {rest : List Frame} {r : Reader}
    (h : Decoder.getMessage ⟨Msg.new .unset, frame, rest⟩ = .error .rejected r) :
    recvPeer env ((b :: uuid.data) :: frame :: rest) = pure ⟨⟩ := by
  have hrecv : Msg.recv ((b :: uuid.data) :: frame :: rest) =
      ⟨-2, b :: uuid.data, r.msg, r.rest⟩ := by
    simp only [Msg.recv, h]
  simp [recvPeer, hrecv]

/-- **Malformed messages.** A message whose first frame is not a complete command leaves the node as it is
if and only if the frame is rejected for its signature, id or version, or it is too short and the fields
read before the end are harmless. When a `GET_` macro finds too little left, `zre_msg_recv` returns 0 all
the same, so that the node goes on with the fields there are: `Harmless` says for which of them nothing
happens. -/
theorem inert_iff_of_incomplete (env : Env) (n : Node) (uuid : Uuid) (b : UInt8) (frame : Frame)
    (rest : List Frame) (h : ¬Complete frame) :
    Inert (recvPeer env ((b :: uuid.data) :: frame :: rest)) n ↔
      Rejected frame ∨ ∃ r, Decoder.getMessage ⟨Msg.new .unset, frame, rest⟩ = .error .truncated r ∧
        Harmless env n uuid.str r.msg := by
  rcases Decoder.getMessage_cases frame (Msg.new .unset) rest with
    ⟨hcomplete, -⟩ | ⟨-, hrejected, r, hr⟩ | ⟨-, hnot, r, hr⟩
  · exact absurd hcomplete h
  · refine iff_of_true ?_ (Or.inl hrejected)
    rw [recvPeer_of_rejected hr]
    exact ⟨n, rfl, rfl, rfl, rfl, rfl⟩
  · rw [recvPeer_of_truncated hr, inert_recvMsg_iff, or_iff_right hnot]
    refine ⟨fun h => ⟨r, hr, h⟩, ?_⟩
    rintro ⟨r', hr', h⟩
    cases hr.symm.trans hr'
    exact h

/-- A frame that the decoder does not read to its end is not a complete command. -/
theorem not_complete_of_error {frame : Frame} {r : Reader}
    (h : Decoder.getMessage ⟨Msg.new .unset, frame, []⟩ = .error .truncated r) : ¬Complete frame := by
  intro hcomplete
  obtain ⟨-, -, r', -, hok, -⟩ := Decoder.getMessage_of_complete hcomplete (Msg.new .unset) []
  cases h.symm.trans hok

/-- PING cut within its sequence number, from a peer the node does not know. -/
theorem inert_cut_ping :
    Inert (recvPeer (sampleEnv 0) [1 :: (sampleUuid 1).data, [0xAA, 0xA1, 6, 2, 0]]) sampleNode :=
  (inert_iff_of_incomplete (sampleEnv 0) sampleNode (sampleUuid 1) 1 [0xAA, 0xA1, 6, 2, 0] []
    (not_complete_of_error (r := ⟨{ Msg.new .unset with id := .ping }, [0], []⟩) rfl)).mpr
    (Or.inr ⟨⟨{ Msg.new .unset with id := .ping }, [0], []⟩, rfl,
      (if_neg (by decide)).mpr fun p hp => nomatch hp⟩)

/-- HELLO with sequence number 1 and the endpoint `inproc://p`, which says that one group follows and
ends there. -/
def cutHello : Frame :=
  [0xAA, 0xA1, 1, 2, 0, 1, 10, 105, 110, 112, 114, 111, 99, 58, 47, 47, 112, 0, 0, 0, 1]

/-- The node connects to the sender of a HELLO that is cut within its groups, greets it, and tells of its
ENTER. -/
theorem not_inert_of_cut_hello :
    ¬∀ n, Reachable n → ∀ (env : Env) (uuid : Uuid) (b : UInt8) (frame : Frame) (rest : List Frame),
      ¬Complete frame → Inert (recvPeer env ((b :: uuid.data) :: frame :: rest)) n := by
  intro h
  have hcut : ¬Complete cutHello :=
    not_complete_of_error (r := ⟨{ Msg.new .unset with
      id := .hello, sequence := 1, endpoint := sampleEndpoint 'p', groups := some [] }, [], []⟩) rfl
  obtain ⟨n', hok, -, -, houtbox, -⟩ := h sampleNode (.new _ _) (sampleEnv 0) (sampleUuid 1) 1
    cutHello [] hcut
  have htold : (final (recvPeer (sampleEnv 0) [1 :: (sampleUuid 1).data, cutHello]
      sampleNode)).outbox = [.enter (sampleUuid 1).str ∅ none (sampleEndpoint 'p')] := by
    decide
  rw [hok] at htold
  exact nomatch houtbox.symm.trans htold

end Node

end Zyre
