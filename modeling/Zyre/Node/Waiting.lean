import Zyre.Node.Handling
import Zyre.Node.Rejection

/-!
# Waiting for a HELLO

An entry that is connected and not ready waits for a HELLO of its peer. When such an entry is new, HELLO
has been sent to the peer, and when a HELLO comes and is let in, the entry either has waited for it or
HELLO is sent back.
-/

namespace Zyre

namespace PeerView

variable {X : CStr} {v w : PeerView} {msg : Msg} {R : Set CStr} {gossip : Bool}

/-- One if the entry is connected and not ready. -/
def awaits (v : PeerView) : ℕ := (v.entry.any fun p => p.connected && !p.ready).toNat

/-- A peer has one entry, so at most one waits. -/
theorem awaits_le_one : v.awaits ≤ 1 := Bool.toNat_le _

/-- A connected entry that is ready waits for nothing. -/
theorem awaits_of_ready (h : ∀ p, v.entry = some p → p.connected = true → p.ready = true) : v.awaits = 0 := by
  unfold awaits
  cases he : v.entry with
  | none => rfl
  | some p =>
    have hp := h p he
    cases hc : p.connected <;> simp_all

/-- A connected entry that waits for nothing is ready. -/
theorem ready_of_awaits {p : Peer} (h : v.awaits = 0) (he : v.entry = some p) (hconn : p.connected = true) :
    p.ready = true := by
  unfold awaits at h
  simpa [he, hconn] using h

theorem awaits_of_all_ready (h : ∀ p, v.entry = some p → p.ready = true) : v.awaits = 0 :=
  awaits_of_ready fun p hp _ => h p hp

theorem awaits_of_entry (h : v.entry = none) : v.awaits = 0 :=
  awaits_of_ready fun _ hp => nomatch h.symm.trans hp

/-- A purge can only end the waiting. -/
theorem awaits_purge_le (endpoint : CStr) : (v.purge endpoint).awaits ≤ v.awaits := by
  unfold awaits purge
  cases v.entry with
  | none => exact le_rfl
  | some p =>
    simp only [Option.map_some, Option.any_some, Node.purgePeer]
    split_ifs
    · simp
    · exact le_rfl

end PeerView

variable {X : CStr} {v w : PeerView} {msg : Msg} {R : Set CStr} {gossip : Bool}

/-- Whatever else happens, an entry that begins to wait is one to whose peer HELLO is sent. -/
theorem Aside.awaits (h : Aside R X v w) : w.awaits + v.hellos ≤ v.awaits + w.hellos := by
  cases h with
  | same => exact le_rfl
  | purged endpoint => exact Nat.add_le_add_right (PeerView.awaits_purge_le endpoint) _
  | discovered q he hq =>
    have hone := PeerView.awaits_le_one (v := { v with entry := some q, hellos := v.hellos + 1 })
    show _ + v.hellos ≤ v.awaits + (v.hellos + 1)
    omega
  | removed p he hX =>
    have hzero : (v.exit X).awaits = 0 := PeerView.awaits_of_entry rfl
    have hhellos : (v.exit X).hellos = v.hellos := rfl
    omega

/-- The entry of a peer that is let in does not wait any more, or another HELLO is sent. -/
theorem Opened.awaits (h : Opened X v w) : w.awaits = 0 ∧ v.hellos ≤ w.hellos ∧
    ((∀ p, v.entry = some p → p.ready = false → p.connected = true) →
      v.hellos + 1 = v.awaits + w.hellos) := by
  cases h with
  | kept p he hr =>
    refine ⟨PeerView.awaits_of_ready ?_, le_rfl, fun hconn => ?_⟩
    · rintro _ ⟨⟩ _
      rfl
    · have hone : v.awaits = 1 := by simp [PeerView.awaits, he, hr, hconn p he hr]
      show v.hellos + 1 = v.awaits + v.hellos
      omega
  | fresh q he hq =>
    refine ⟨PeerView.awaits_of_ready ?_, Nat.le_succ _, fun _ => ?_⟩
    · rintro _ ⟨⟩ _
      rfl
    · rw [PeerView.awaits_of_entry he, Nat.zero_add]
  | renewed p q he hr hq =>
    refine ⟨PeerView.awaits_of_ready ?_, Nat.le_succ _, fun _ => ?_⟩
    · rintro _ ⟨⟩ _
      rfl
    · have hzero : v.awaits = 0 := PeerView.awaits_of_all_ready fun q hq => by
        obtain rfl := Option.some_inj.mp (he.symm.trans hq)
        exact hr
      rw [hzero, Nat.zero_add]

/-- The flags of an entry are not touched by the command of a message. -/
theorem PeerView.awaits_take (k : UInt16) : ((v.count k).take X msg).awaits = v.awaits := by
  unfold take awaits
  cases he : v.entry <;> split <;> simp [count, join, leave, he]

/-- A message taken is not answered by a HELLO. -/
theorem PeerView.hellos_take (k : UInt16) : ((v.count k).take X msg).hellos = v.hellos := by
  unfold take
  split <;> rfl

/-- After a greeting the entry is ready. -/
theorem PeerView.awaits_greet (k : UInt16) : ((v.count k).greet X msg).awaits = v.awaits := by
  unfold awaits
  cases he : v.entry <;> simp [count, greet, he]

/-- **Whatever arrives**, an entry begins to wait only if a HELLO is sent to its peer. -/
theorem Arrival.awaits (h : Arrival gossip X msg v w) : w.awaits + v.hellos ≤ v.awaits + w.hellos := by
  have hexit : ∀ u : PeerView, v.hellos ≤ u.hellos → (u.exit X).awaits + v.hellos ≤
      v.awaits + (u.exit X).hellos := by
    intro u hu
    have hzero : (u.exit X).awaits = 0 := PeerView.awaits_of_entry rfl
    have hhellos : (u.exit X).hellos = u.hellos := rfl
    omega
  cases h with
  | ignored h => exact le_rfl
  | refused p hid he hr => exact hexit v le_rfl
  | lostHello u hid hu hseq => exact hexit u hu.awaits.2.1
  | greeted u hid hu hseq =>
    obtain ⟨hzero, hle, -⟩ := hu.awaits
    rw [PeerView.awaits_greet, hzero]
    show 0 + v.hellos ≤ v.awaits + u.hellos
    omega
  | lost p hid he hr hseq => exact hexit v le_rfl
  | bye p hid he hr hseq hg => exact hexit v le_rfl
  | taken p hid he hr hseq hg =>
    rw [PeerView.awaits_take, PeerView.hellos_take]

/-- Nor is more than one HELLO sent for a HELLO. -/
theorem Opened.hellos_le (h : Opened X v w) : v.awaits + w.hellos ≤ v.hellos + 1 := by
  have hone := v.awaits_le_one
  cases h with
  | kept p he hr =>
    show v.awaits + v.hellos ≤ v.hellos + 1
    omega
  | fresh q he hq =>
    rw [PeerView.awaits_of_entry he, Nat.zero_add]
  | renewed p q he hr hq =>
    rw [PeerView.awaits_of_all_ready fun p' hp' => Option.some_inj.mp (hp'.symm.trans he) ▸ hr, Nat.zero_add]

/-- A message from a peer that is let in sends HELLO only if it is one. -/
theorem Arrival.hellos_le (h : Arrival gossip X msg v w) :
    v.awaits + w.hellos ≤ w.awaits + v.hellos + if msg.id = .hello then 1 else 0 := by
  have hready : ∀ {p : Peer}, v.entry = some p → p.ready = true → v.awaits = 0 := fun he hr =>
    PeerView.awaits_of_all_ready fun p' hp' => Option.some_inj.mp (hp'.symm.trans he) ▸ hr
  cases h with
  | ignored h => omega
  | refused p hid he hr =>
    rw [hready he hr]
    show 0 + v.hellos ≤ _
    omega
  | lostHello u hid hu hseq =>
    have hle := hu.hellos_le
    rw [if_pos hid]
    show v.awaits + u.hellos ≤ _
    omega
  | greeted u hid hu hseq =>
    have hle := hu.hellos_le
    rw [if_pos hid]
    show v.awaits + u.hellos ≤ _
    omega
  | lost p hid he hr hseq =>
    rw [hready he hr]
    show 0 + v.hellos ≤ _
    omega
  | bye p hid he hr hseq hg =>
    rw [hready he hr]
    show 0 + v.hellos ≤ _
    omega
  | taken p hid he hr hseq hg =>
    rw [hready he hr, PeerView.hellos_take]
    show 0 + v.hellos ≤ _
    omega

/-- After a HELLO the entry does not wait, or nothing has come of it. -/
theorem Arrival.settles (hid : msg.id = .hello) (h : Arrival gossip X msg v w) :
    w.awaits = 0 ∨ w.hellos = v.hellos := by
  cases h with
  | ignored h => exact Or.inr rfl
  | refused p _ he hr => exact Or.inr rfl
  | lostHello u _ hu hseq => exact Or.inl (PeerView.awaits_of_entry rfl)
  | greeted u _ hu hseq =>
    rw [PeerView.awaits_greet]
    exact Or.inl hu.awaits.1
  | lost p hnot he hr hseq => exact absurd hid hnot
  | bye p hbye he hr hseq hg => exact Or.inr rfl
  | taken p hnot he hr hseq hg => exact absurd hid hnot

namespace Node

variable {n n' : Node} {env : Env} {input : Input} {frames : List Frame} {uuid : Uuid} {endpoint : CStr}
  {key : Option CStr}

/-! ### Messages -/

/-- A HELLO comes to nothing: the gate ignores it, or it is taken by an entry that has lost its
mailbox. -/
def Wastes (env : Env) (n : Node) (X : CStr) (msg : Msg) : Prop :=
  msg.id = .hello ∧ (Admits env n X msg →
    ∃ p, n.peers.lookup X = some p ∧ p.ready = false ∧ p.connected = false)

/-- An input from the inbox is handled by `zyre_node_recv_peer`. -/
theorem recvMsg_of_step (hsender : senderOf frames = some uuid)
    (h : Node.step env (.inbox frames) n = .ok ⟨⟩ n') :
    recvMsg env uuid (Msg.recv frames).msg n = .ok ⟨⟩ n' := by
  rw [← recvPeer_of_sender hsender]
  exact h

/-- An input that does not come from the peer lets an entry wait only for a HELLO it has sent. -/
theorem step_awaits (hX : ∀ uuid, Sender input uuid → uuid.str ≠ X)
    (h : Node.step env input n = .ok ⟨⟩ n') :
    (n'.view X).awaits + (n.view X).hellos ≤ (n.view X).awaits + (n'.view X).hellos :=
  (EStateM.wp_of_ok h (step_aside hX) :).awaits

/-- Nor does a message of the peer itself. -/
theorem step_awaits_of_sender (hsender : senderOf frames = some uuid)
    (h : Node.step env (.inbox frames) n = .ok ⟨⟩ n') :
    (n'.view uuid.str).awaits + (n.view uuid.str).hellos ≤
      (n.view uuid.str).awaits + (n'.view uuid.str).hellos := by
  obtain ⟨v, harrival, hreaches⟩ := EStateM.wp_of_ok (recvMsg_of_step hsender h) recvMsg_spec
  rw [hreaches.view]
  exact harrival.awaits

/-- A HELLO that is not wasted is answered, or one that the entry has waited for. -/
theorem step_awaits_of_hello (hsender : senderOf frames = some uuid)
    (hid : (Msg.recv frames).msg.id = .hello) (hseq : (Msg.recv frames).msg.sequence = 1)
    (hwastes : ¬Wastes env n uuid.str (Msg.recv frames).msg)
    (h : Node.step env (.inbox frames) n = .ok ⟨⟩ n') :
    (n'.view uuid.str).awaits + (n.view uuid.str).hellos + 1 =
      (n.view uuid.str).awaits + (n'.view uuid.str).hellos := by
  simp only [Wastes, hid, true_and, Classical.not_imp, not_exists, not_and] at hwastes
  obtain ⟨hadmits, hconn⟩ := hwastes
  obtain ⟨w, hw, hview⟩ := EStateM.wp_of_ok (recvMsg_of_step hsender h) (recvMsg_greeted hid hadmits hseq)
  obtain ⟨hzero, -, hopened⟩ := hw.awaits
  rw [hview, PeerView.awaits_greet, hzero, Nat.zero_add]
  refine hopened fun p hp hready => ?_
  obtain ⟨q, hq, rfl⟩ := Option.map_eq_some_iff.mp hp
  have hq : q.connected = true := by simpa using hconn q hq hready
  exact hq

/-- A message is answered by a HELLO only if it is one, and then by one at most. -/
theorem step_hellos_le (hsender : senderOf frames = some uuid)
    (h : Node.step env (.inbox frames) n = .ok ⟨⟩ n') :
    (n.view uuid.str).awaits + (n'.view uuid.str).hellos ≤ (n'.view uuid.str).awaits +
      (n.view uuid.str).hellos + if (Msg.recv frames).msg.id = .hello then 1 else 0 := by
  obtain ⟨v, harrival, hreaches⟩ := EStateM.wp_of_ok (recvMsg_of_step hsender h) recvMsg_spec
  rw [hreaches.view]
  exact harrival.hellos_le

/-- After a HELLO the entry waits for nothing, or no HELLO has been sent in answer. -/
theorem step_settles (hsender : senderOf frames = some uuid) (hid : (Msg.recv frames).msg.id = .hello)
    (h : Node.step env (.inbox frames) n = .ok ⟨⟩ n') :
    (n'.view uuid.str).awaits = 0 ∨ (n'.view uuid.str).hellos = (n.view uuid.str).hellos := by
  obtain ⟨v, harrival, hreaches⟩ := EStateM.wp_of_ok (recvMsg_of_step hsender h) recvMsg_spec
  rw [hreaches.view]
  exact harrival.settles hid

/-- What a message makes a node send is among the answers to it. -/
theorem step_answers (hsender : senderOf frames = some uuid)
    (h : Node.step env (.inbox frames) n = .ok ⟨⟩ n') :
    Grows (n.answers (Msg.recv frames).msg) n n' := by
  obtain ⟨v, -, V, -, hbecomes⟩ := EStateM.wp_of_ok (recvMsg_of_step hsender h) recvMsg_spec
  exact hbecomes.grows

/-! ### Other inputs -/

/-- A new peer has been looked for: the peers on its endpoint are purged, and it may have an entry. -/
def Finds (uuid : Uuid) (endpoint : CStr) (n n' : Node) : Prop :=
  n.peers.lookup uuid.str = none ∧ ∀ X, n'.view X = (n.view X).purge endpoint ∨
    X = uuid.str ∧ ∃ q : Peer, q.Fresh ∧
      n'.view X = { n.view X with entry := some q, hellos := (n.view X).hellos + 1 }

/-- Requiring a peer finds it and greets it, or shows nothing new. -/
theorem requirePeer_finds : (requirePeer env uuid endpoint key).wp
    (fun _ n' => n'.view = n.view ∨ Finds uuid endpoint n n') (fun _ _ => True) n := by
  cases hlook : n.peers.lookup uuid.str with
  | some p => exact (wp_requirePeer_of_some hlook).mpr (Or.inl rfl)
  | none =>
    refine EStateM.wp_mono (requirePeer_spec hlook) (fun o n' h => Or.inr ⟨hlook, fun X => ?_⟩)
      fun _ _ _ => trivial
    have hnone : (n.view uuid.str).entry = none := by simp [hlook]
    cases o with
    | none =>
      rw [h.view]
      exact Or.inl rfl
    | some r =>
      obtain ⟨q, hq, -, hbecomes⟩ := h
      rw [hbecomes.view]
      by_cases hX : X = uuid.str
      · subst hX
        rw [Views.at_self, Views.purge, PeerView.purge_of_entry_eq_none hnone]
        exact Or.inr ⟨rfl, q, hq, rfl⟩
      · rw [Views.at_ne hX]
        exact Or.inl rfl

/-- An input that is no message removes peers or has one looked for. -/
theorem step_drops (hinput : ∀ frames, input ≠ .inbox frames) : (Node.step env input).wp
    (fun _ n' => Drops (removes env n input) n n' ∨
      ∃ uuid endpoint key, Asks n input uuid endpoint key ∧ Finds uuid endpoint n n')
    (fun _ _ => True) n := by
  have hsame : ∀ {n' : Node}, n'.view = n.view → Drops (removes env n input) n n' := fun h X =>
    Or.inl (congrFun h X)
  by_cases hasks : ∃ uuid endpoint key, Asks n input uuid endpoint key
  · obtain ⟨uuid, endpoint, key, hasks⟩ := hasks
    refine (EStateM.wp_congr hasks.step).mpr (EStateM.wp_bind .. |>.mpr ?_)
    refine EStateM.wp_mono requirePeer_finds (fun _ n' h => ?_) fun _ _ _ => trivial
    exact h.imp hsame fun h => ⟨uuid, endpoint, key, hasks, h⟩
  · refine EStateM.wp_mono ?_ (fun _ _ h => Or.inl h) fun _ _ h => h
    cases input with
    | inbox frames => exact absurd rfl (hinput frames)
    | api command =>
      by_cases hc : ∃ uuid endpoint key, command = .requirePeer uuid endpoint key
      · obtain ⟨uuid, endpoint, key, rfl⟩ := hc
        have hown : endpoint = n.endpoint := by
          by_contra hother
          exact hasks ⟨uuid, endpoint, key, .api uuid endpoint key hother⟩
        refine EStateM.wp_bind .. |>.mpr (EStateM.wp_get.mpr (EStateM.wp_ite .. |>.mpr
          ⟨fun hother => absurd hown hother, fun _ => hsame rfl⟩))
      · refine EStateM.wp_mono (recvApi_sameViews fun uuid endpoint key h => hc ⟨uuid, endpoint, key, h⟩)
          (fun _ _ h => hsame h) fun _ _ _ => trivial
    | beacon ipaddress frame publicKey =>
      simp only [Node.step, recvBeacon, EStateM.wp_bind, EStateM.wp_get]
      refine EStateM.wp_ite .. |>.mpr ⟨fun _ => hsame rfl, fun hversion => ?_⟩
      refine EStateM.wp_ite .. |>.mpr ⟨fun _ => hsame rfl, fun hsecret => ?_⟩
      refine EStateM.wp_ite .. |>.mpr ⟨fun hport => ?_, fun hport => ?_⟩
      · exact absurd ⟨_, _, _, .beacon _ frame publicKey (not_not.mp hversion) hsecret hport⟩ hasks
      · refine EStateM.wp_bind .. |>.mpr (wp_lookupPeer.mpr ?_)
        cases hlook : n.peers.lookup (beaconUuid frame).str with
        | none => exact hsame rfl
        | some p =>
          have hr := deref_of_lookup hlook
          refine EStateM.wp_mono (removePeer_spec hr) (fun _ n' h X => ?_) fun _ _ _ => trivial
          rw [h.view]
          by_cases hX : X = (beaconUuid frame).str
          · subst hX
            rw [Views.at_self]
            exact Or.inr ⟨_, view_entry_of_deref hr, ⟨rfl, not_not.mp hversion, hsecret, not_not.mp hport⟩, rfl⟩
          · rw [Views.at_ne hX]
            exact Or.inl rfl
    | gossip uuid service =>
      simp only [Node.step, recvGossip, EStateM.wp_bind, EStateM.wp_get]
      refine EStateM.wp_ite .. |>.mpr ⟨fun hother => ?_, fun _ => hsame rfl⟩
      exact absurd ⟨_, _, _, .gossip uuid service hother.1 hother.2⟩ hasks
    | reap visited => exact EStateM.wp_mono (reap_drops visited) (fun _ _ h => h) fun _ _ _ => trivial

/-- The entry of `X` waits, and the input takes it away or another peer is looked for on its endpoint. -/
def Forsakes (env : Env) (n : Node) (input : Input) (X : CStr) : Prop :=
  ∃ p, n.peers.lookup X = some p ∧ p.connected = true ∧ p.ready = false ∧
    (X ∈ removes env n input ∨ ∃ uuid endpoint key, Asks n input uuid endpoint key ∧
      n.peers.lookup uuid.str = none ∧ p.endpointStr = endpoint)

/-- An entry that waits is forsaken if it is removed or purged. -/
theorem awaits_eq_zero_of_kept {X : CStr} (hkept : ∀ p, n.peers.lookup X = some p → p.connected = true →
    p.ready = false → False) : (n.view X).awaits = 0 := by
  refine PeerView.awaits_of_ready fun q hq hconn => ?_
  obtain ⟨p, hp, rfl⟩ := Option.map_eq_some_iff.mp hq
  cases hr : p.ready with
  | false => exact (hkept p hp hconn hr).elim
  | true => exact hr

/-- Whoever HELLO is sent to has an entry that waits, and no other entry has stopped to. -/
theorem step_hellos_aside (hinput : ∀ frames, input ≠ .inbox frames)
    (h : Node.step env input n = .ok ⟨⟩ n') (X : CStr) :
    (n'.view X).hellos ≤ (n'.view X).awaits + (n.view X).hellos ∧
      (¬Forsakes env n input X →
        (n.view X).awaits + (n'.view X).hellos ≤ (n'.view X).awaits + (n.view X).hellos) := by
  rcases EStateM.wp_of_ok h (step_drops hinput) with hdrops | ⟨uuid, endpoint, key, hasks, hnew, hfinds⟩
  · rcases hdrops X with hsame | ⟨p, he, hX, hexit⟩
    · rw [hsame]
      exact ⟨Nat.le_add_left _ _, fun _ => le_rfl⟩
    · rw [hexit]
      refine ⟨Nat.le_add_left _ _, fun hkept => ?_⟩
      rw [awaits_eq_zero_of_kept fun p hp hconn hr => hkept ⟨p, hp, hconn, hr, Or.inl hX⟩, Nat.zero_add]
      exact Nat.le_add_left _ _
  · rcases hfinds X with hpurged | ⟨rfl, q, hq, hfound⟩
    · rw [hpurged]
      refine ⟨Nat.le_add_left _ _, fun hkept => ?_⟩
      have hawaits : (n.view X).awaits ≤ ((n.view X).purge endpoint).awaits := by
        cases hlook : n.peers.lookup X with
        | none =>
          rw [PeerView.awaits_of_entry (by simp [hlook])]
          exact Nat.zero_le _
        | some p =>
          by_cases hon : p.endpointStr = endpoint
          · rw [awaits_eq_zero_of_kept fun p' hp' hconn hr => hkept ⟨p', hp', hconn, hr, Or.inr
              ⟨uuid, endpoint, key, hasks, hnew, Option.some_inj.mp (hlook.symm.trans hp') ▸ hon⟩⟩]
            exact Nat.zero_le _
          · have hpurge : (n.view X).purge endpoint = n.view X := by
              refine PeerView.ext ?_ rfl rfl rfl
              have hstill : purgePeer endpoint p.still = p.still := if_neg hon
              simp [PeerView.purge, hlook, hstill]
            rw [hpurge]
      exact Nat.add_le_add_right hawaits _
    · have hnone : (n.view uuid.str).awaits = 0 := PeerView.awaits_of_entry (by simp [hnew])
      have hone : (n'.view uuid.str).awaits = 1 := by
        rw [hfound]
        simp [PeerView.awaits, hq.connected, hq.ready]
      have hhellos : (n'.view uuid.str).hellos = (n.view uuid.str).hellos + 1 := by rw [hfound]
      omega

/-! ### Without elections -/

/-- No group is contested. -/
def Uncontested (n : Node) : Prop := ∀ name, n.contested name = false

/-- Without a contested group, what a node does in answer to anything but ELECT and LEADER is no part of
an election. -/
theorem Uncontested.deeds (hn : n.Uncontested) (hinput : ∀ name, input ≠ .api (.setContest name))
    (hmsg : ∀ frames uuid, input = .inbox frames → senderOf frames = some uuid →
      (Msg.recv frames).msg.id.elects = false) (h : Node.step env input n = .ok ⟨⟩ n') :
    Deeds (inputScope ∅ n input) n n' := by
  have hcontests : ∀ name, name ∉ (inputScope ∅ n input).contests := fun name hname =>
    hinput name (contests_inputScope hname)
  have hresumable : Resumable (inputScope ∅ n input) n := by
    intro n₁ hdeeds name _ hcontested
    rw [Deeds.contested hdeeds (hcontests name), hn name] at hcontested
    cases hcontested
  refine (step_deeds (fun _ => hresumable) fun frames uuid hframes hsender _ name hengages => ?_).of_ok h
  have helects := hmsg frames uuid hframes hsender
  unfold Engages at hengages
  split at hengages
  · exact nomatch (hn name).symm.trans hengages.2
  · exact nomatch (hn name).symm.trans hengages.2.2
  all_goals simp_all [MsgId.elects]

/-- Without SET CONTEST and without elections of others a node stays out of all elections, and sends no
message of one. -/
theorem Uncontested.step (hn : n.Uncontested) (hinput : ∀ name, input ≠ .api (.setContest name))
    (hmsg : ∀ frames uuid, input = .inbox frames → senderOf frames = some uuid →
      (Msg.recv frames).msg.id.elects = false) (h : Node.step env input n = .ok ⟨⟩ n') :
    n'.Uncontested ∧ ∃ ms, n'.mail = n.mail ++ ms ∧ ∀ m ∈ ms, m.2.id.elects = false := by
  have hdeeds := hn.deeds hinput hmsg h
  have hnone : ∀ name, name ∉ (inputScope ∅ n input).groups := by
    intro name hname
    by_cases hapi : ∃ command, input = .api command
    · obtain ⟨command, rfl⟩ := hapi
      exact Set.notMem_empty name hname
    · obtain ⟨hgroups, -⟩ := inputScope_of_ne_api fun command hc => hapi ⟨command, hc⟩
      rw [hgroups] at hname
      exact Set.notMem_empty name hname
  refine ⟨fun name => ?_, ?_⟩
  · rw [Deeds.contested hdeeds fun hname => hinput name (contests_inputScope hname)]
    exact hn name
  · obtain ⟨ms, hms, hsends⟩ := Deeds.mail hdeeds
    refine ⟨ms, hms, fun m hm => Bool.eq_false_iff.mpr fun helects => ?_⟩
    obtain ⟨name, hname, -⟩ := hsends m hm helects
    exact hnone name hname

/-- Such a node answers HELLO by HELLO, PING by PING-OK, and nothing else. -/
theorem Uncontested.answers {msg : Msg} {id : MsgId} (hn : n.Uncontested) (hmsg : msg.id.elects = false)
    (hid : id ∈ n.answers msg) : id = .hello ∧ msg.id = .hello ∨ id = .pingOk ∧ msg.id = .ping := by
  rcases hid with ⟨-, name, hname⟩ | h | ⟨-, h⟩ | ⟨-, h | h⟩ | h
  · exact nomatch (hn name).symm.trans hname
  · exact Or.inl h
  · exact nomatch hmsg.symm.trans (congrArg MsgId.elects h)
  · exact nomatch hmsg.symm.trans (congrArg MsgId.elects h)
  · exact nomatch hmsg.symm.trans (congrArg MsgId.elects h)
  · exact Or.inr h

end Node

end Zyre
