import Zyre.Node.Arrival

/-!
# What one iteration of the actor loop does to a session

A message changes the view of its sender by an `Arrival`. Every other effect of an iteration on a
view is one of those in `Aside`: the peer may be disconnected, discovered, or removed because it has
expired or has said so in a beacon.
-/

namespace Zyre

/-- What an iteration can do to the view of a peer that did not send the message it handles;
`removes` are the peers it may remove. -/
inductive Aside (removes : Set CStr) (X : CStr) (v : PeerView) : PeerView → Prop
  | same : Aside removes X v v
  | purged (endpoint : CStr) : Aside removes X v (v.purge endpoint)
  | discovered (q : Peer) (he : v.entry = none) (hq : q.Fresh) :
      Aside removes X v { v with entry := some q, hellos := v.hellos + 1 }
  | removed (p : Peer) (he : v.entry = some p) (hX : X ∈ removes) :
      Aside removes X v (v.exit X)

namespace Node

variable {n n' : Node} {X Y : CStr} {r : PeerRef} {p q : Peer} {K : Set MsgId} {env : Env}
  {uuid : Uuid} {endpoint : CStr} {key : Option CStr} {R : Set CStr}

/-- Every view has changed by an `Aside`. -/
def Sidelong (R : Set CStr) (n n' : Node) : Prop := ∀ X, Aside R X (n.view X) (n'.view X)

/-- The events of every view are the beginning of those after an `Aside`. -/
def SidelongWithin (R : Set CStr) (n n' : Node) : Prop :=
  ∀ X, ∃ v, Aside R X (n.view X) v ∧ n'.log X <+: v.log

/-- If no view has changed, nothing has happened aside either. -/
theorem Sidelong.of_eq (h : n'.view = n.view) : Sidelong R n n' := fun X => by
  rw [h]; exact .same

/-- A computation that was stopped among views that had not changed. -/
theorem SidelongWithin.of_within (h : Within n.view n') : SidelongWithin R n n' :=
  fun X => ⟨_, .same, h X⟩

/-! ### Requiring and removing a peer -/

/-- Requiring a peer opens an entry and purges others at its endpoint, and nothing else is seen from the
side. -/
theorem requirePeer_sidelong :
    (requirePeer env uuid endpoint key).wp (fun _ n' => Sidelong R n n')
      (fun _ n' => SidelongWithin R n n') n := by
  cases hlook : n.peers.lookup uuid.str with
  | some p => exact (wp_requirePeer_of_some hlook).mpr (.of_eq rfl)
  | none =>
    refine EStateM.wp_mono (requirePeer_spec hlook) (fun o n' h X => ?_)
      fun _ _ h => .of_within h
    have hnone : (n.view uuid.str).entry = none := by simp [hlook]
    cases o with
    | none =>
      rw [h.view]
      exact .purged endpoint
    | some r =>
      obtain ⟨q, hq, -, hbecomes⟩ := h
      rw [hbecomes.view]
      by_cases hX : X = uuid.str
      · subst hX
        rw [Views.at_self, Views.purge, PeerView.purge_of_entry_eq_none hnone]
        exact .discovered q hnone hq
      · rw [Views.at_ne hX]
        exact .purged endpoint

/-- A removal takes a peer in `R` from the views. -/
theorem removePeer_sidelong (hp : n.deref r = some p) (hR : r.identity ∈ R) :
    (removePeer r).wp (fun _ n' => Sidelong R n n') (fun _ n' => SidelongWithin R n n') n := by
  have hexit : ∀ X, Aside R X (n.view X) (n.view.at r.identity (·.exit r.identity) X) := by
    intro X
    by_cases hX : X = r.identity
    · subst hX
      rw [Views.at_self]
      exact .removed _ (view_entry_of_deref hp) hR
    · rw [Views.at_ne hX]
      exact .same
  refine EStateM.wp_mono (removePeer_spec hp) (fun _ n' h X => ?_) fun _ n' h X => ⟨_, hexit X, h X⟩
  rw [h.view]
  exact hexit X

/-! ### Reaping -/

/-- No entry is new, and what `g` reads off those still there is as it was. -/
def Inherits {α : Type} (g : Peer → α) (n n' : Node) : Prop :=
  ∀ X p', n'.peers.lookup X = some p' → ∃ p, n.peers.lookup X = some p ∧ g p = g p'

section

variable {α : Type} {g : Peer → α}

instance : Std.Refl (Inherits g) := ⟨fun _ _ p' h => ⟨p', h, rfl⟩⟩

instance : IsTrans Node (Inherits g) := ⟨fun _ _ _ h h' X p'' hp'' => by
  obtain ⟨p', hp', hg'⟩ := h' X p'' hp''
  obtain ⟨p, hp, hg⟩ := h X p' hp'
  exact ⟨p, hp, hg.trans hg'⟩⟩

/-- The same table inherits everything. -/
theorem Inherits.of_eq (h : n'.peers = n.peers) : Inherits g n n' :=
  fun _ p' hp' => ⟨p', h ▸ hp', rfl⟩

/-- An update of one entry inherits what it does not touch in that entry. -/
theorem Inherits.modify {f : Peer → Peer}
    (hg : ∀ p, n.peers.lookup X = some p → g (f p) = g p) :
    Inherits g n { n with peers := n.peers.modify X f } := by
  intro Y p' hp'
  simp only [AList.lookup_modify] at hp'
  split_ifs at hp' with hY
  · subst hY
    obtain ⟨p, hp, rfl⟩ := Option.map_eq_some_iff.mp hp'
    exact ⟨p, hp, (hg p hp).symm⟩
  · exact ⟨p', hp', rfl⟩

/-- Dropping an entry inherits everything of the others. -/
theorem Inherits.erase : Inherits g n { n with peers := n.peers.erase X } := by
  intro Y p' hp'
  rw [AList.lookup_erase'] at hp'
  split_ifs at hp'
  exact ⟨p', hp', rfl⟩

/-- A move changes the count of what was sent and no other field of an entry. -/
theorem Moves.inherits (hsent : ∀ p k, g { p with sentSequence := k } = g p) (h : Moves K n n') :
    Inherits g n n' := by
  induction h with
  | refl => exact Std.Refl.refl n
  | tail _ hmove ih =>
    refine IsTrans.trans _ _ _ ih ?_
    cases hmove with
    | send r p msg hr hc hid => exact .modify fun _ _ => hsent _ _
    | group name f hf => exact .of_eq rfl
    | addGroup name => exact .of_eq rfl
    | emit e he => exact .of_eq rfl

/-- A removal inherits from the entries it leaves. -/
theorem removePeer_inherits (hsent : ∀ p k, g { p with sentSequence := k } = g p)
    (hstatus : ∀ p k, g { p with status := k } = g p) :
    (removePeer r).Keeps (Inherits g) (fun _ _ => True) n := by
  have hloop : ∀ n, (forM n.ownGroups (leaveElection r) : NodeM Unit).Keeps (Inherits g)
      (fun _ _ => True) n := fun n =>
    EStateM.wp_mono (leaveElections_keeps (K := Set.univ) n fun _ _ _ => trivial)
      (fun _ _ h => h.inherits hsent) fun _ _ h => ⟨h.1.inherits hsent, trivial⟩
  refine keeps_readPeer (fun p hp => ?_) fun _ => trivial
  refine .bind_of_wp (show Inherits g n
    { n with outbox := n.outbox ++ [.exit r.identity p.nameStr] } from .of_eq rfl)
    (wp_emit.mpr ⟨rfl, ?_⟩)
  refine .get (.bind (hloop _) fun _ n₁ _ => ?_)
  refine .get (.bind (.forM fun name _ n₂ _ => ?_) fun _ n₂ _ => ?_)
  · refine .bind_of_wp (show Inherits g n₂ { n₂ with
      peerGroups := n₂.peerGroups.modify name (·.leave r) } from .of_eq rfl)
      (wp_modifyGroup.mpr ⟨rfl, ?_⟩)
    exact wp_modifyPeer.mpr ⟨fun _ _ => .modify fun _ _ => hstatus _ _,
      fun _ => ⟨Std.Refl.refl _, trivial⟩⟩
  · exact wp_deletePeer.mpr .erase

end

/-- No entry is new, and those still there are the objects they were and expire when they did. -/
def Timed (n n' : Node) : Prop :=
  ∀ X p', n'.peers.lookup X = some p' → ∃ p, n.peers.lookup X = some p ∧
    p.expiredAt = p'.expiredAt ∧ p.serial = p'.serial

/-- Keeping the deadlines is inheriting `expired_at` entry by entry. -/
theorem timed_iff : Timed n n' ↔ Inherits (fun p => (p.expiredAt, p.serial)) n n' := by
  simp only [Timed, Inherits, Prod.mk.injEq]

instance : Std.Refl Timed := ⟨fun n => timed_iff.mpr (Std.Refl.refl n)⟩

instance : IsTrans Node Timed := ⟨fun _ _ _ h h' =>
  timed_iff.mpr (IsTrans.trans _ _ _ (timed_iff.mp h) (timed_iff.mp h'))⟩

/-- Sending changes no deadline. -/
theorem Moves.timed (h : Moves K n n') : Timed n n' := timed_iff.mpr (h.inherits fun _ _ => rfl)

/-- Removing one peer changes no deadline of another. -/
theorem removePeer_timed : (removePeer r).Keeps Timed (fun _ _ => True) n :=
  (removePeer_inherits (fun _ _ => rfl) fun _ _ => rfl).mono fun _ h => timed_iff.mpr h

/-- The peers a reap pass removes: those it visits that have expired. -/
def expired (env : Env) (n : Node) (visited : List CStr) : Set CStr :=
  {X | X ∈ visited ∧ ∃ p, n.peers.lookup X = some p ∧ p.expiredAt.toInt64 ≤ env.now}

/-- A pass over a peer whose deadline has not come sends it a PING at most. -/
theorem pingPeer_keeps (hr : n.deref r = some p) (hexpired : ¬p.expiredAt.toInt64 ≤ env.now) :
    (pingPeer env r).Keeps (Moves {.ping}) Cause n := by
  refine keeps_readPeer (fun p' hp' => ?_) fun hnone => nomatch hr.symm.trans hnone
  cases hr.symm.trans hp'
  rw [if_neg hexpired]
  refine .ite (fun _ => ?_) fun _ => .pure _
  refine .bind ((peerSend_keeps_of_live (K := {.ping}) rfl (live_of_deref hr)).mono
    fun _ => Sends.moves) fun _ n₁ _ => ?_
  refine .bind (Relation.ReflTransGen.single (.emit _ rfl)) fun _ n₂ _ => .get ?_
  exact .ite (fun _ => Relation.ReflTransGen.single (.emit _ rfl)) fun _ => .pure _

/-- A pass over a peer that has not expired changes no deadline. -/
theorem pingPeer_timed (hr : n.deref r = some p) (hexpired : ¬p.expiredAt.toInt64 ≤ env.now) :
    (pingPeer env r).wp (fun _ n' => Timed n n') (fun _ _ => True) n :=
  EStateM.wp_mono (pingPeer_keeps hr hexpired) (fun _ _ h => h.timed) fun _ _ _ => trivial

/-- Every view is as it was, or that of a peer in `R` that has been removed. -/
def Drops (R : Set CStr) (n n' : Node) : Prop :=
  ∀ X, n'.view X = n.view X ∨
    ∃ p, (n.view X).entry = some p ∧ X ∈ R ∧ n'.view X = (n.view X).exit X

/-- A view of which entries were dropped has changed aside only. -/
theorem Drops.aside (h : Drops R n n') (X : CStr) : Aside R X (n.view X) (n'.view X) := by
  rcases h X with h | ⟨p, he, hX, h⟩
  · rw [h]
    exact .same
  · rw [h]
    exact .removed p he hX

/-- A reap pass removes the peers it visits that have expired, and changes no other session. -/
theorem reap_drops (visited : List CStr) :
    (reap env visited).wp (fun _ n' => Drops (expired env n visited) n n')
      (fun _ n' => SidelongWithin (expired env n visited) n n') n := by
  set R := expired env n visited with hR
  refine EStateM.wp_forM (fun n' => Timed n n' ∧ Drops R n n')
    ⟨Std.Refl.refl n, fun X => Or.inl rfl⟩ ?_ fun n' h => h.2
  rintro identity hvisited n₁ ⟨htimed, hviews⟩
  refine EStateM.wp_bind .. |>.mpr (wp_lookupPeer.mpr ?_)
  cases hlook : n₁.peers.lookup identity with
  | none => exact ⟨htimed, hviews⟩
  | some p₁ =>
    have hr := deref_of_lookup hlook
    by_cases hexpired : p₁.expiredAt.toInt64 ≤ env.now
    · obtain ⟨p, hp, hpp₁, -⟩ := htimed identity p₁ hlook
      have hmem : identity ∈ R := ⟨hvisited, p, hp, by rwa [hpp₁]⟩
      have hview : n₁.view identity = n.view identity := by
        rcases hviews identity with h | ⟨_, _, _, h⟩
        · exact h
        · have hentry : (n₁.view identity).entry = none := by rw [h]; rfl
          simp [hlook] at hentry
      have hentry : (n.view identity).entry = some p.still := by simp [hp]
      have hboth := EStateM.wp_and (removePeer_spec hr) (removePeer_timed (n := n₁))
      simp only [Option.map_some, pingPeer, EStateM.wp_bind, wp_readPeer, hr, Option.some_inj,
        forall_eq', hexpired, if_true]
      refine ⟨EStateM.wp_mono hboth ?_ ?_, fun h => by cases h⟩
      · rintro _ n₂ ⟨hbecomes, htimed₂⟩
        refine ⟨IsTrans.trans _ _ _ htimed htimed₂, fun X => ?_⟩
        rw [hbecomes.view]
        by_cases hX : X = identity
        · subst hX
          rw [Views.at_self, hview]
          exact Or.inr ⟨_, hentry, hmem, rfl⟩
        · rw [Views.at_ne hX]
          exact hviews X
      · rintro _ n₂ ⟨hwithin, -⟩ X
        have hX := hwithin X
        by_cases hX' : X = identity
        · subst hX'
          rw [Views.at_self, hview] at hX
          exact ⟨_, .removed _ hentry hmem, hX⟩
        · rw [Views.at_ne hX'] at hX
          exact ⟨_, Drops.aside hviews X, hX⟩
    · have hkeeps := becomes_of_keeps (by simp) (pingPeer_keeps hr hexpired)
      have hboth := EStateM.wp_and hkeeps (pingPeer_timed hr hexpired)
      refine EStateM.wp_mono hboth ?_ ?_
      · rintro _ n₂ ⟨hbecomes, htimed₂⟩
        refine ⟨IsTrans.trans _ _ _ htimed htimed₂, fun X => ?_⟩
        rw [hbecomes.view]
        exact hviews X
      · rintro _ n₂ ⟨hwithin, -⟩ X
        exact ⟨_, Drops.aside hviews X, hwithin X⟩

/-- **The pass over the table** removes expired peers only; every other view changes aside at most. -/
theorem reap_sidelong (visited : List CStr) :
    (reap env visited).wp (fun _ n' => Sidelong (expired env n visited) n n')
      (fun _ n' => SidelongWithin (expired env n visited) n n') n :=
  EStateM.wp_mono (reap_drops visited) (fun _ _ h => h.aside) fun _ _ h => h

/-! ### Commands of the application -/

/-- The views are the same. -/
def SameViews (n n' : Node) : Prop := n'.view = n.view

instance : Std.Refl SameViews := ⟨fun _ => rfl⟩

instance : IsTrans Node SameViews := ⟨fun _ _ _ h h' => h'.trans h⟩

/-- A computation that sends anything but HELLO leaves every view. -/
theorem sameViews_of_moves {α : Type} {x : NodeM α} (hK : .hello ∉ K)
    (h : x.Keeps (Moves K) Cause n) : x.Keeps SameViews (fun _ _ => True) n :=
  EStateM.wp_mono h (fun _ _ h => h.view hK) fun _ _ h => ⟨h.1.view hK, trivial⟩

/-- `zyre_node_send_peer` over the whole table, for any message but HELLO. -/
theorem sendPeers_sameViews {msg : Msg} (hid : msg.id ≠ .hello) :
    (sendPeers msg).Keeps SameViews (fun _ _ => True) n :=
  sameViews_of_moves (K := {msg.id}) (by simpa using Ne.symm hid)
    ((sendPeers_keeps (K := {msg.id}) rfl).mono fun _ => Sends.moves)

/-- An update of the node that leaves the views leaves them. -/
theorem modify_sameViews {f : Node → Node} (h : (f n).view = n.view) :
    (modify f : NodeM Unit).Keeps SameViews (fun _ _ => True) n := h

/-- To leave all views is to change them aside. -/
theorem sidelong_of_sameViews {x : NodeM Unit} (h : x.Keeps SameViews (fun _ _ => True) n) :
    x.wp (fun _ n' => Sidelong R n n') (fun _ n' => SidelongWithin R n n') n :=
  EStateM.wp_mono h (fun _ _ h => .of_eq h) fun _ n' h => .of_within fun Y => by
    rw [← h.1]; exact List.prefix_refl _

/-- The commands other than REQUIRE PEER leave the sessions alone. -/
theorem recvApi_sameViews {command : Command}
    (hc : ∀ uuid endpoint key, command ≠ .requirePeer uuid endpoint key) :
    (recvApi env command).Keeps SameViews (fun _ _ => True) n := by
  have hgossip : ∀ n : Node, gossipStart.Keeps SameViews (fun _ _ => True) n := by
    intro n
    refine modify_sameViews ?_
    split_ifs <;> rfl
  cases command with
  | setName name => exact modify_sameViews rfl
  | setHeader name value => exact modify_sameViews rfl
  | setPort value => exact modify_sameViews rfl
  | setEvasiveTimeout value => exact modify_sameViews rfl
  | setExpiredTimeout value => exact modify_sameViews rfl
  | setContest group =>
    refine .bind (view_of_members members_insertNew) fun _ n₁ _ => ?_
    exact view_of_members (members_modify fun _ _ => rfl)
  | setAdvertisedEndpoint endpoint => exact modify_sameViews rfl
  | setEndpoint bound =>
    exact .bind (hgossip n) fun _ n₁ _ => modify_sameViews rfl
  | setPublickey key => exact modify_sameViews rfl
  | setSecretkey key => exact modify_sameViews rfl
  | gossipBind => exact hgossip n
  | gossipConnect => exact hgossip n
  | start =>
    refine .get ?_
    have hrest : EStateM.Keeps SameViews (fun _ _ => True)
        (if n.beaconPort ≠ 0 then do
          assert !n.beacon
          set { n with
            beaconVersion := if n.secretKey.isSome then beaconVersionV3 else n.beaconVersion
            beacon := true }
        else assert n.gossip) n := by
      refine .ite (fun _ => keeps_assert (fun _ => ?_) fun _ => trivial) fun _ => ?_
      · exact (rfl : SameViews n _)
      · exact wp_assert.mpr ⟨fun _ => rfl, fun _ => ⟨rfl, trivial⟩⟩
    exact .ite (fun _ => keeps_assert (fun _ => hrest) fun _ => trivial) fun _ => hrest
  | stop =>
    refine .get ?_
    have hrest : ∀ n : Node, EStateM.Keeps SameViews (fun _ _ => True)
        (do
          modify fun n => { n with beacon := false }
          let n ← get
          emit (.stop n.identity n.name)) n := by
      intro n
      refine .bind (modify_sameViews rfl) fun _ n₁ _ => .get ?_
      exact view_emit (n := n₁) (.stop n₁.identity n₁.name)
    exact .ite (fun _ => .bind (sendPeers_sameViews (by simp [Msg.new])) fun _ n₁ _ => hrest n₁)
      fun _ => hrest n
  | whisper identity content =>
    refine keeps_lookupPeer ?_
    cases hlook : n.peers.lookup identity with
    | none => exact .pure _
    | some p =>
      refine sameViews_of_moves (K := {.whisper}) (by simp) ?_
      exact (peerSend_keeps_of_live (K := {.whisper}) rfl
        (live_of_deref (deref_of_lookup hlook))).mono fun _ => Sends.moves
  | shout group content =>
    refine .get (.ite (fun _ => ?_) fun _ => .pure _)
    refine sameViews_of_moves (K := {.shout}) (by simp) ?_
    exact (groupSend_keeps (K := {.shout}) rfl).mono fun _ => Sends.moves
  | join group =>
    refine .get (.ite (fun _ => ?_) fun _ => .pure _)
    refine .bind (modify_sameViews rfl) fun _ n₁ _ => .get ?_
    exact sendPeers_sameViews (by simp [Msg.new])
  | leave group =>
    refine .get (.ite (fun _ => ?_) fun _ => .pure _)
    refine .bind (modify_sameViews rfl) fun _ n₁ _ => .get ?_
    exact .bind (sendPeers_sameViews (by simp [Msg.new])) fun _ n₂ _ => modify_sameViews rfl
  | requirePeer uuid endpoint publicKey => exact absurd rfl (hc uuid endpoint publicKey)
  | peerName identity =>
    refine keeps_lookupPeer ?_
    exact wp_assert.mpr ⟨fun _ => rfl, fun _ => ⟨rfl, trivial⟩⟩

/-- **No command of the application** changes a view other than aside. -/
theorem recvApi_sidelong (command : Command) :
    (recvApi env command).wp (fun _ n' => Sidelong ∅ n n') (fun _ n' => SidelongWithin ∅ n n') n := by
  by_cases hc : ∃ uuid endpoint key, command = .requirePeer uuid endpoint key
  · obtain ⟨uuid, endpoint, key, rfl⟩ := hc
    refine EStateM.wp_bind .. |>.mpr (EStateM.wp_get.mpr (EStateM.wp_ite .. |>.mpr
      ⟨fun _ => ?_, fun _ => .of_eq rfl⟩))
    exact EStateM.wp_bind .. |>.mpr (EStateM.wp_mono requirePeer_sidelong (fun _ _ h => h)
      fun _ _ h => h)
  · exact sidelong_of_sameViews
      (recvApi_sameViews fun uuid endpoint key h => hc ⟨uuid, endpoint, key, h⟩)

/-! ### One iteration -/

/-- The sender of a multipart message, if it has the frames of one and its identity is well
formed. -/
def senderOf (frames : List Frame) : Option Uuid :=
  if h : (Msg.recv frames).rc = 0 ∧ (Msg.recv frames).routingId.length = zuuidLen + 1 then
    some ⟨(Msg.recv frames).routingId.drop 1, by simp [h.2]⟩
  else none

/-- A decoded message has the sender its routing id names. -/
theorem senderOf_of_recv {frames : List Frame} (hrc : (Msg.recv frames).rc = 0)
    (hidentity : (Msg.recv frames).routingId = 1 :: uuid.data) : senderOf frames = some uuid := by
  have hlength : (Msg.recv frames).rc = 0 ∧ (Msg.recv frames).routingId.length = zuuidLen + 1 :=
    ⟨hrc, by rw [hidentity, List.length_cons, uuid.size]⟩
  rw [senderOf, dif_pos hlength]
  simp only [hidentity, List.drop_one, List.tail_cons]

/-- `recvPeer` on frames from a sender. -/
theorem recvPeer_of_sender {frames : List Frame} (h : senderOf frames = some uuid) :
    recvPeer env frames = recvMsg env uuid (Msg.recv frames).msg := by
  unfold senderOf at h
  split_ifs at h with hc
  cases h
  simp [recvPeer, hc.1, hc.2]

/-- `recvPeer` on frames without a sender does nothing. -/
theorem lookupPeer_eq {X : CStr} : lookupPeer X n =
    .ok ((n.peers.lookup X).map fun p => ⟨X, p.serial⟩) n := rfl

/-- Reading through a pointer that leads to an entry returns that entry. -/
theorem readPeer_eq {r : PeerRef} {p : Peer} (h : n.deref r = some p) : readPeer r n = .ok p n := by
  refine (EStateM.bind_of_ok (x := get) rfl).trans ?_
  rw [h]
  rfl

/-- A message other than HELLO from a peer that is ready is accepted. -/
theorem recvMsg_of_ready {p : Peer} (hp : n.peers.lookup uuid.str = some p) (hready : p.ready = true)
    (hid : msg.id ≠ .hello) :
    recvMsg env uuid msg n = acceptMsg env ⟨uuid.str, p.serial⟩ msg n := by
  rw [recvMsg, senderGate, if_neg hid]
  refine (EStateM.bind_of_ok lookupPeer_eq).trans ?_
  rw [hp, Option.map_some]
  refine (EStateM.bind_of_ok (readPeer_eq (deref_of_lookup hp))).trans ?_
  rw [if_pos hready]

/-- Without a sender `zyre_node_recv_peer` returns at once. -/
theorem recvPeer_of_none {frames : List Frame} (h : senderOf frames = none) :
    recvPeer env frames = pure ⟨⟩ := by
  unfold senderOf at h
  split_ifs at h with hc
  simp only [recvPeer]
  split_ifs with hrc hlen
  · rfl
  · exact absurd ⟨not_not.mp hrc, hlen⟩ hc
  · rfl

/-- The sender of the message an iteration handles. -/
def Sender (input : Input) (uuid : Uuid) : Prop :=
  ∃ frames, input = .inbox frames ∧ senderOf frames = some uuid

/-- A beacon that says the peer with the UUID in it has left is heeded: it has the node's version,
in secure mode a key, and port 0. -/
def BeaconLeft (n : Node) (frame : Frame) : Prop :=
  (beaconBytes frame).getD 3 0 = n.beaconVersion ∧
    ¬(n.secretKey.isSome ∧ (beaconBytes frame).getD 22 0 = 0) ∧
    numberOf (((beaconBytes frame).drop 20).take 2) = 0

/-- The peers an iteration may remove although they sent nothing. -/
def removes (env : Env) (n : Node) : Input → Set CStr
  | .beacon _ frame _ => {X | X = (beaconUuid frame).str ∧ n.BeaconLeft frame}
  | .reap visited => expired env n visited
  | .inbox _ | .api _ | .gossip .. => ∅

/-- A peer that did not send the message handled in an iteration is at most disconnected,
discovered, or removed. -/
theorem step_aside {input : Input} (hX : ∀ uuid, Sender input uuid → uuid.str ≠ X) :
    (Node.step env input).wp (fun _ n' => Aside (removes env n input) X (n.view X) (n'.view X))
      (fun _ n' => ∃ v, Aside (removes env n input) X (n.view X) v ∧ n'.log X <+: v.log) n := by
  have hall : ∀ {x : NodeM Unit} {R : Set CStr},
      x.wp (fun _ n' => Sidelong R n n') (fun _ n' => SidelongWithin R n n') n →
      x.wp (fun _ n' => Aside R X (n.view X) (n'.view X))
        (fun _ n' => ∃ v, Aside R X (n.view X) v ∧ n'.log X <+: v.log) n :=
    fun h => EStateM.wp_mono h (fun _ _ h => h X) fun _ _ h => h X
  cases input with
  | inbox frames =>
    simp only [Node.step]
    cases hsender : senderOf frames with
    | none =>
      rw [recvPeer_of_none hsender]
      exact .same
    | some uuid =>
      have hne : X ≠ uuid.str := fun h => hX uuid ⟨frames, rfl, hsender⟩ h.symm
      rw [recvPeer_of_sender hsender]
      refine EStateM.wp_mono recvMsg_spec ?_ ?_
      · rintro _ n' ⟨v, -, hreaches⟩
        rcases hreaches.other hne with h | h <;> rw [h]
        · exact .same
        · exact .purged _
      · rintro _ n' ⟨v, -, hwithin⟩
        have h := hwithin X
        rw [Views.at_ne hne] at h
        exact ⟨_, .same, h⟩
  | api command => exact hall (recvApi_sidelong command)
  | beacon ipaddress frame publicKey =>
    refine hall ?_
    simp only [Node.step, recvBeacon, EStateM.wp_bind, EStateM.wp_get]
    refine EStateM.wp_ite .. |>.mpr ⟨fun _ => .of_eq rfl, fun hversion => ?_⟩
    refine EStateM.wp_ite .. |>.mpr ⟨fun _ => .of_eq rfl, fun hsecret => ?_⟩
    refine EStateM.wp_ite .. |>.mpr ⟨fun _ => ?_, fun hport => ?_⟩
    · exact EStateM.wp_bind .. |>.mpr (EStateM.wp_mono requirePeer_sidelong (fun _ _ h => h)
        fun _ _ h => h)
    · refine EStateM.wp_bind .. |>.mpr (wp_lookupPeer.mpr ?_)
      cases hlook : n.peers.lookup (beaconUuid frame).str with
      | none => exact .of_eq rfl
      | some p =>
        exact removePeer_sidelong (deref_of_lookup hlook)
          ⟨rfl, not_not.mp hversion, hsecret, not_not.mp hport⟩
  | gossip uuid service =>
    refine hall ?_
    simp only [Node.step, recvGossip, EStateM.wp_bind, EStateM.wp_get]
    refine EStateM.wp_ite .. |>.mpr ⟨fun _ => ?_, fun _ => .of_eq rfl⟩
    exact EStateM.wp_bind .. |>.mpr (EStateM.wp_mono requirePeer_sidelong (fun _ _ h => h)
      fun _ _ h => h)
  | reap visited => exact hall (reap_sidelong visited)

end Node

end Zyre
