import Zyre.Node.Require
import Zyre.Node.View

/-!
# Opening and closing a session

What joining and leaving a group, removing a peer and requiring a peer do to the views: each changes
the view of the peer it is about, and only `requirePeer` may disconnect others, which it does when
they are on the endpoint of the new peer.
-/

namespace Zyre

/-! ### Changes of one view -/

namespace PeerView

variable {v : PeerView} {X : CStr}

/-- The name the entry carries. -/
def nameStr (v : PeerView) : CStr := (v.entry.map Peer.nameStr).getD ∅

/-- The peer joins a group. -/
def join (X name : CStr) (v : PeerView) : PeerView :=
  { v with
    entry := v.entry.map fun p => { p with status := p.status + 1 }
    groups := insert name v.groups
    log := v.log ++ [.join X v.nameStr name] }

/-- The peer leaves a group. -/
def leave (X name : CStr) (v : PeerView) : PeerView :=
  { v with
    entry := v.entry.map fun p => { p with status := p.status + 1 }
    groups := v.groups \ {name}
    log := v.log ++ [.leave X v.nameStr name] }

/-- The peer is removed. -/
def exit (X : CStr) (v : PeerView) : PeerView :=
  { v with entry := none, groups := ∅, log := v.log ++ [.exit X v.nameStr] }

/-- The peer is disconnected if it is on this endpoint. -/
def purge (endpoint : CStr) (v : PeerView) : PeerView :=
  { v with entry := v.entry.map (Node.purgePeer endpoint) }

/-- Without an entry there is nothing to purge. -/
theorem purge_of_entry_eq_none {endpoint : CStr} (h : v.entry = none) : v.purge endpoint = v := by
  ext1 <;> simp [purge, h]

end PeerView

/-- Disconnect every peer on this endpoint. -/
def Views.purge (endpoint : CStr) (V : Views) : Views := fun Y => (V Y).purge endpoint

/-- A peer object whose mailbox has just been connected. -/
structure Peer.Fresh (p : Peer) : Prop where
  connected : p.connected = true
  ready : p.ready = false
  name : p.name = none
  status : p.status = 0
  wantSequence : p.wantSequence = 0

@[simp] theorem Peer.still_nameStr (p : Peer) : p.still.nameStr = p.nameStr := rfl

@[simp] theorem Peer.still_serial (p : Peer) : p.still.serial = p.serial := rfl

theorem Peer.still_purgePeer (endpoint : CStr) (p : Peer) :
    (Node.purgePeer endpoint p).still = Node.purgePeer endpoint p.still := by
  unfold Node.purgePeer Peer.endpointStr Peer.disconnect
  cases hc : p.connected <;> simp only [hc, Peer.still] <;> split_ifs <;> simp_all

namespace Node

variable {n n' : Node} {X Y name : CStr} {r : PeerRef} {p q : Peer} {K : Set MsgId}

/-- The entry a view shows, behind its pointer. -/
theorem deref_of_view (h : (n.view X).entry = some q) :
    ∃ p, n.deref ⟨X, q.serial⟩ = some p ∧ p.still = q := by
  obtain ⟨p, hp, rfl⟩ := Option.map_eq_some_iff.mp h
  exact ⟨p, deref_of_lookup hp, rfl⟩

/-- The name in the view is that of the entry. -/
theorem view_nameStr (h : n.deref r = some p) : (n.view r.identity).nameStr = p.nameStr := by
  simp [PeerView.nameStr, lookup_of_deref h]

/-- The commands that restart elections: ELECT, if there is a contested group. -/
def electing (n : Node) : Set MsgId := {id | id = .elect ∧ ∃ name, n.contested name = true}

/-- Elections send no HELLO. -/
theorem hello_notMem_electing : MsgId.hello ∉ n.electing := fun h => nomatch h.1

/-- What elections may send depends on the contested groups alone. -/
theorem electing_congr (h : n'.contested = n.contested) : n'.electing = n.electing := by
  simp only [electing, h]

/-! ### Joining and leaving groups -/

/-- A group keeps its contest flag under any update that does. -/
theorem contested_modify {f : Group → Group} (hf : ∀ g, (f g).contest = g.contest) :
    contested { n with peerGroups := n.peerGroups.modify name f } = n.contested := by
  funext name'
  simp only [contested, AList.lookup_modify]
  split_ifs with h
  · subst h
    cases n.peerGroups.lookup name' with
    | none => rfl
    | some g => exact hf g
  · rfl

/-- A new group is not contested. -/
theorem contested_insertNew :
    contested { n with peerGroups := n.peerGroups.insertNew name .new } = n.contested :=
  (Move.addGroup (K := ∅) (n := n) name).contested

/-- The status of a peer counts one up. -/
theorem view_countStatus (hr : n.deref r = some p) :
    view { n with peers := n.peers.modify r.identity fun p => { p with status := p.status + 1 } } =
      n.view.at r.identity fun v =>
        { v with entry := v.entry.map fun p => { p with status := p.status + 1 } } := by
  rw [view_modifyPeer]
  refine Views.at_congr (PeerView.ext ?_ rfl rfl rfl)
  simp [lookup_of_deref hr, Peer.still]

/-- The pointer leads to the entry as it has been updated. -/
theorem deref_modify_self {f : Peer → Peer} (hr : n.deref r = some p)
    (hf : (f p).serial = p.serial) :
    deref { n with peers := n.peers.modify r.identity f } r = some (f p) := by
  refine deref_eq_some.mpr ⟨by simp [lookup_of_deref hr], hf.trans (serial_of_deref hr)⟩

/-- The common part of joining and leaving: `f` changes the table of the group, `G` says what that
means for the groups of the peer, and `e` is the event. -/
private theorem changeGroup_spec (name : CStr) {f : Group → Group} {G : Set CStr → Set CStr}
    {e : CStr → Event} (hr : n.deref r = some p) (hf : ∀ g, (f g).contest = g.contest)
    (he : ∀ nm, (e nm).session = some r.identity)
    (hG : ∀ n : Node, name ∈ n.peerGroups →
      view { n with peerGroups := n.peerGroups.modify name f } =
        n.view.at r.identity fun v => { v with groups := G v.groups }) :
    (do
      requirePeerGroup name
      modifyGroup name f
      modifyPeer r fun p => { p with status := p.status + 1 }
      emit (e (← readPeer r).nameStr) : NodeM Unit).wp
      (fun _ n' => Becomes K n (n.view.at r.identity fun v =>
        { v with
          entry := v.entry.map fun p => { p with status := p.status + 1 }
          groups := G v.groups
          log := v.log ++ [e v.nameStr] }) n')
      (fun _ _ => False) n := by
  set n₁ : Node := { n with peerGroups := n.peerGroups.insertNew name .new }
  set n₂ : Node := { n₁ with peerGroups := n₁.peerGroups.modify name f }
  set n₃ : Node := { n₂ with
    peers := n₂.peers.modify r.identity fun p => { p with status := p.status + 1 } } with hn₃
  have hr₂ : n₂.deref r = some p := hr
  have hr₃ : n₃.deref r = some { p with status := p.status + 1 } := deref_modify_self hr₂ rfl
  have hview : n₃.view = n.view.at r.identity fun v =>
      { v with
        entry := v.entry.map fun p => { p with status := p.status + 1 }
        groups := G v.groups } := by
    rw [hn₃, view_countStatus hr₂, hG n₁ (by simp [n₁]), view_of_members members_insertNew,
      Views.at_at]
    rfl
  have hcontested : n₂.contested = n.contested :=
    (contested_modify (n := n₁) hf).trans contested_insertNew
  simp only [EStateM.wp_bind, wp_requirePeerGroup, wp_modifyGroup, wp_modifyPeer, wp_readPeer,
    wp_emit]
  show (∀ q, n₂.deref r = some q → (∀ q, n₃.deref r = some q → Becomes K n _
    { n₃ with outbox := n₃.outbox ++ [e q.nameStr] }) ∧ _) ∧ _
  rw [hr₂, hr₃]
  refine ⟨fun _ _ => ⟨fun q hq => ?_, fun h => by cases h⟩, fun h => by cases h⟩
  refine ⟨(view_emit (n := n₃) _).trans ?_, rfl, hcontested, .of_eq rfl⟩
  simp only [he, hview, Views.at_at]
  refine Views.at_congr (PeerView.ext rfl rfl ?_ rfl)
  simp [view_nameStr hr, ← Option.some_inj.mp hq, Peer.nameStr]

/-- `zyre_node_join_peer_group` changes the view of the peer by one membership and one event. -/
theorem joinPeerGroup_spec (hr : n.deref r = some p) :
    (joinPeerGroup r name).wp
      (fun _ n' => Becomes K n (n.view.at r.identity (·.join r.identity name)) n')
      (fun _ _ => False) n := by
  have h := changeGroup_spec (K := K) name (f := (·.join r)) (G := (insert name ·))
    (e := fun nm => .join r.identity nm name) hr (fun _ => rfl) (fun _ => rfl)
    fun _ hname => view_join hname
  simp only [joinPeerGroup, groupJoin, EStateM.wp_bind] at h ⊢
  exact h

/-- `zyre_node_leave_peer_group` takes the membership away and tells of it. -/
theorem leavePeerGroup_spec (hr : n.deref r = some p) :
    (leavePeerGroup r name).wp
      (fun _ n' => Becomes K n (n.view.at r.identity (·.leave r.identity name)) n')
      (fun _ _ => False) n := by
  have h := changeGroup_spec (K := K) name (f := (·.leave r)) (G := (· \ {name}))
    (e := fun nm => .leave r.identity nm name) hr (fun _ => rfl) (fun _ => rfl)
    fun _ _ => view_leave
  simp only [leavePeerGroup, groupLeave, EStateM.wp_bind] at h ⊢
  exact h

/-! ### Removing a peer -/

/-- One round of the loop that takes a peer out of every group. -/
theorem groupLeave_spec (hr : n.deref r = some p) :
    (groupLeave name r).wp
      (fun _ n' => Becomes K n (n.view.at r.identity fun v =>
          { v with
            entry := v.entry.map fun p => { p with status := p.status + 1 }
            groups := v.groups \ {name} }) n' ∧ n'.Live r)
      (fun _ _ => False) n := by
  set n₂ : Node := { n with peerGroups := n.peerGroups.modify name (·.leave r) }
  set n₃ : Node := { n₂ with
    peers := n₂.peers.modify r.identity fun p => { p with status := p.status + 1 } } with hn₃
  have hr₂ : n₂.deref r = some p := hr
  simp only [groupLeave, EStateM.wp_bind, wp_modifyGroup, wp_modifyPeer]
  show (∀ q, n₂.deref r = some q → Becomes K n _ n₃ ∧ _) ∧ _
  rw [hr₂]
  refine ⟨fun _ _ => ⟨⟨?_, rfl, contested_modify fun _ => rfl, .of_eq rfl⟩,
    live_of_deref (deref_modify_self hr₂ rfl)⟩, fun h => by cases h⟩
  rw [hn₃, view_countStatus hr₂, view_leave, Views.at_at]
  rfl

/-- Removing a peer tells EXIT, takes it out of every group and drops its entry. If the loop over
the groups stops, the events so far are no more than that. -/
theorem removePeer_spec (hr : n.deref r = some p) :
    (removePeer r).wp
      (fun _ n' => Becomes n.electing n (n.view.at r.identity (·.exit r.identity)) n')
      (fun _ n' => Within (n.view.at r.identity (·.exit r.identity)) n') n := by
  set V := n.view.at r.identity (·.exit r.identity) with hV
  set n₁ : Node := { n with outbox := n.outbox ++ [.exit r.identity p.nameStr] } with hn₁
  have hview₁ : n₁.view = n.view.at r.identity fun v =>
      { v with log := v.log ++ [.exit r.identity v.nameStr] } := by
    rw [hn₁, view_emit]
    exact Views.at_congr (by rw [view_nameStr hr])
  have hlog₁ : ∀ Y, (n₁.view Y).log = (V Y).log := by
    intro Y
    rw [hview₁, hV]
    by_cases hY : Y = r.identity
    · subst hY; simp [PeerView.exit]
    · simp [hY]
  have hr₁ : n₁.Live r := live_of_deref (p := p) hr
  -- The loop over the node's own groups moves, so it keeps all views.
  have hloop₁ : (forM n₁.ownGroups (leaveElection r) : NodeM Unit).Keeps (Moves n.electing) _ n₁ :=
    leaveElections_keeps n₁ fun name _ hc => ⟨rfl, name, hc⟩
  -- The loop over all groups takes the peer out of each of them.
  have hloop₂ : ∀ n₂, Moves n.electing n₁ n₂ → EStateM.wp (forM n₂.peerGroups.keys fun name => groupLeave name r)
      (fun _ n₃ => n₃.own = n.own ∧ n₃.contested = n.contested ∧ Grows n.electing n n₃ ∧
        ∃ e, n₃.view = n₁.view.at r.identity fun v => { v with entry := e, groups := ∅ })
      (fun _ _ => False) n₂ := by
    intro n₂ hn₂
    have hview₂ := hn₂.view hello_notMem_electing
    refine EStateM.wp_forM_done (fun done n₃ => n₃.Live r ∧ n₃.own = n.own ∧
      n₃.contested = n.contested ∧ Grows n.electing n n₃ ∧
      ∃ e, n₃.view = n₁.view.at r.identity fun v =>
        { v with entry := e, groups := v.groups \ {name | name ∈ done} }) ?_ ?_ ?_
    · refine ⟨(hn₂.live r).mpr hr₁, hn₂.own, hn₂.contested, hn₂.grows, (n₁.view r.identity).entry, ?_⟩
      rw [hview₂, Views.at_id]
      exact PeerView.ext rfl (by simp) rfl rfl
    · rintro done name - - n₃ ⟨hlive, hown, hcontested, hgrows, e, hview⟩
      obtain ⟨q, hq⟩ := hlive.exists
      refine EStateM.wp_mono (groupLeave_spec (K := n.electing) hq) ?_ fun _ _ h => h
      rintro _ n₄ ⟨hbecomes, hlive₄⟩
      refine ⟨hlive₄, hbecomes.own.trans hown, hbecomes.contested.trans hcontested,
        hgrows.trans hbecomes.grows, e.map fun p => { p with status := p.status + 1 }, ?_⟩
      rw [hbecomes.view, hview, Views.at_at]
      refine Views.at_congr (PeerView.ext rfl ?_ rfl rfl)
      ext g
      simp only [Function.comp_apply, Set.mem_sdiff, Set.mem_ofPred_eq, List.mem_append,
        Set.mem_singleton_iff, List.mem_singleton]
      tauto
    · rintro n₃ ⟨-, hown, hcontested, hgrows, e, hview⟩
      refine ⟨hown, hcontested, hgrows, e, hview.trans (Views.at_congr (PeerView.ext rfl ?_ rfl rfl))⟩
      rw [← hview₂]
      refine Set.sdiff_eq_empty.mpr fun name hname => ?_
      obtain ⟨g, hg, -⟩ := mem_members_iff.mp hname
      exact AList.lookup_isSome.mp (by simp [hg])
  simp only [removePeer, EStateM.wp_bind, wp_readPeer, wp_emit, EStateM.wp_get, hr]
  refine ⟨fun q hq => ?_, fun h => by cases h⟩
  obtain rfl := Option.some_inj.mp hq
  refine EStateM.wp_mono hloop₁ (fun _ n₂ hn₂ => ?_) fun _ n₂ hn₂ Y => ?_
  · refine EStateM.wp_mono (hloop₂ n₂ hn₂) ?_ fun _ _ h => h.elim
    rintro _ n₃ ⟨hown, hcontested, hgrows, e, hview⟩
    refine wp_deletePeer.mpr ⟨?_, hown, hcontested, hgrows⟩
    rw [view_erase, hview, hview₁, Views.at_at, Views.at_at]
    rfl
  · rw [← hlog₁, ← hn₂.1.view hello_notMem_electing]
    exact List.prefix_refl _

/-! ### Requiring a peer -/

/-- The purge, seen as views. -/
theorem view_purged (endpoint : CStr) : (n.purged endpoint).view = n.view.purge endpoint := by
  funext Y
  refine PeerView.ext ?_ rfl rfl rfl
  show (((n.peers.mapValues fun _ => purgePeer endpoint).lookup Y).map Peer.still) =
    ((n.peers.lookup Y).map Peer.still).map (purgePeer endpoint)
  rw [AList.lookup_mapValues, Option.map_map, Option.map_map]
  exact congrArg (Option.map · _) (funext fun p => Peer.still_purgePeer endpoint p)

/-- An entry is opened, seen as views. -/
theorem view_opening (ms : List (PeerRef × Msg)) :
    (n.opening X q ms).view = (view { n with mail := n.mail ++ ms }).at X fun v =>
      { v with entry := some q.still } :=
  view_insert (n := { n with mail := n.mail ++ ms }) (n.serial + 1)

variable {env : Env} {uuid : Uuid} {endpoint : CStr} {key : Option CStr}

/-- The entry of a peer just required is a fresh one: neither ready nor named. -/
theorem greeter_fresh : (greeter env n endpoint key).still.Fresh := by
  have h : (n.newborn key).name = none ∧ (n.newborn key).status = 0 ∧
      (n.newborn key).wantSequence = 0 := by
    unfold newborn; split_ifs <;> exact ⟨rfl, rfl, rfl⟩
  exact ⟨rfl, rfl, h.1, h.2.1, h.2.2⟩

/-- **Requiring a peer**, seen as views: the endpoint is purged, the entry opened and a HELLO sent. -/
theorem greeting_becomes : Becomes {.hello} n ((n.view.purge endpoint).at X fun v =>
      { v with
        entry := some (greeter env n endpoint key).still
        hellos := v.hellos + 1 }) (greeting env n X endpoint key) := by
  refine ⟨?_, rfl, rfl, ⟨_, rfl, by simp⟩⟩
  have hid : ((helloMsg env n).setSequence 1).id = .hello := by
    rw [Msg.setSequence_id, helloMsg_id]
  rw [greeting, view_opening, ← view_purged]
  have hmail := view_mail (n := n.purged endpoint) (⟨X, n.serial⟩, (helloMsg env n).setSequence 1)
  rw [if_pos hid] at hmail
  rw [hmail, Views.at_at]
  rfl

/-- Requiring a peer that has no entry: it gets a fresh one and a HELLO, or nothing if the mailbox
cannot be connected. Either way the other peers on the endpoint are disconnected. -/
theorem requirePeer_spec (hnew : n.peers.lookup uuid.str = none) :
    (requirePeer env uuid endpoint key).wp
      (fun o n' => match o with
        | none => Becomes {.hello} n (n.view.purge endpoint) n'
        | some r => ∃ q : Peer, q.Fresh ∧ r = ⟨uuid.str, q.serial⟩ ∧
          Becomes {.hello} n ((n.view.purge endpoint).at uuid.str fun v =>
            { v with entry := some q, hellos := v.hellos + 1 }) n')
      (fun _ n' => Within n.view n') n := by
  by_cases hkey : KeyOk env n key
  · rw [wp_requirePeer_of_none hnew hkey]
    split_ifs with hconnects
    · exact ⟨(greeter env n endpoint key).still, greeter_fresh,
        by simp [greeter, newborn_serial], greeting_becomes⟩
    · exact ⟨view_purged endpoint, rfl, rfl, .of_eq rfl⟩
  · exact wp_requirePeer_of_not_keyOk hnew hkey fun _ _ _ _ _ => List.prefix_refl _

end Node

end Zyre
