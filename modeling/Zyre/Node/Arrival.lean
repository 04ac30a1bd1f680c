import Zyre.Node.Session

/-!
# What a message does to the session of its sender

`Arrival` lists everything that can happen to the view of a peer when a message from it is handled;
`recvMsg_spec` shows that `recvMsg` does nothing else, and that it leaves the views of the other
peers alone, up to disconnecting those on the endpoint a HELLO gives. It also holds of a call that
stops half way, as far as the events go.
-/

namespace Zyre

/-! ### The changes -/

namespace PeerView

/-- The sequence number expected next counts from `k`. -/
def count (k : UInt16) (v : PeerView) : PeerView :=
  { v with entry := v.entry.map fun p => { p with wantSequence := k } }

/-- HELLO is processed. -/
def greet (X : CStr) (msg : Msg) (v : PeerView) : PeerView :=
  { v with
    entry := v.entry.map fun p =>
      { p with name := some msg.name, headers := msg.headers, status := msg.status }
    groups := v.groups ∪ {name | name ∈ msg.groups.getD []}
    log := v.log ++ .enter X msg.name msg.headers msg.endpoint ::
      (msg.groups.getD []).map (.join X msg.name) }

/-- A command other than HELLO is processed. -/
def take (X : CStr) (msg : Msg) (v : PeerView) : PeerView :=
  match msg.id with
  | .whisper => { v with log := v.log ++ [.whisper X v.nameStr msg.content] }
  | .shout => { v with log := v.log ++ [.shout X v.nameStr msg.group msg.content] }
  | .join => v.join X msg.group
  | .leave => v.leave X msg.group
  | _ => v

/-- Counting a message leaves the identity of the entry. -/
@[simp]
theorem map_serial_count (k : UInt16) (v : PeerView) :
    (v.count k).entry.map Peer.serial = v.entry.map Peer.serial := by
  simp [count, Function.comp_def]

/-- A greeting leaves the identity of the entry. -/
@[simp]
theorem map_serial_greet (X : CStr) (msg : Msg) (v : PeerView) :
    (v.greet X msg).entry.map Peer.serial = v.entry.map Peer.serial := by
  simp [greet, Function.comp_def]

/-- A message taken leaves the identity of the entry. -/
@[simp]
theorem map_serial_take (X : CStr) (msg : Msg) (v : PeerView) :
    (v.take X msg).entry.map Peer.serial = v.entry.map Peer.serial := by
  unfold take
  split <;> simp [join, leave, Function.comp_def]

/-- The count stays where the message has moved it. -/
theorem wantSequence_take {X : CStr} {msg : Msg} {k : UInt16} {v : PeerView} {p : Peer}
    (h : ((v.count k).take X msg).entry = some p) : p.wantSequence = k := by
  have hmap : ∀ u : PeerView, (u.take X msg).entry.map Peer.wantSequence =
      u.entry.map Peer.wantSequence := by
    intro u
    unfold take
    split <;> simp [join, leave, Function.comp_def]
  have hp := hmap (v.count k)
  rw [h, Option.map_some] at hp
  obtain ⟨q, hq, hqp⟩ := Option.map_eq_some_iff.mp hp.symm
  obtain ⟨q₀, -, rfl⟩ := Option.map_eq_some_iff.mp hq
  exact hqp.symm

/-- Counting changes nothing of what a removal would say. -/
theorem exit_count (X : CStr) (k : UInt16) (v : PeerView) : (v.count k).exit X = v.exit X := by
  refine PeerView.ext rfl rfl ?_ rfl
  simp only [exit, count, nameStr, Option.map_map]
  rfl

end PeerView

/-- The HELLO gate lets the sender in: its entry was there and is now ready, or it is new, or it is
new and replaces one that was ready. -/
inductive Opened (X : CStr) (v : PeerView) : PeerView → Prop
  | kept (p : Peer) (he : v.entry = some p) (hr : p.ready = false) :
      Opened X v { v with entry := some { p with ready := true } }
  | fresh (q : Peer) (he : v.entry = none) (hq : q.Fresh) :
      Opened X v { v with entry := some { q with ready := true }, hellos := v.hellos + 1 }
  | renewed (p q : Peer) (he : v.entry = some p) (hr : p.ready = true) (hq : q.Fresh) :
      Opened X v { v.exit X with
        entry := some { q with ready := true }, hellos := v.hellos + 1 }

/-- The HELLO gate does not let the sender in; an entry that was ready is gone. -/
inductive Declined (X : CStr) (v : PeerView) : PeerView → Prop
  | same (h : ∀ p, v.entry = some p → p.ready = false) : Declined X v v
  | exited (p : Peer) (he : v.entry = some p) (hr : p.ready = true) : Declined X v (v.exit X)

/-- What a message can do to the view of its sender. -/
inductive Arrival (gossip : Bool) (X : CStr) (msg : Msg) (v : PeerView) : PeerView → Prop
  | ignored (h : ∀ p, v.entry = some p → p.ready = false) : Arrival gossip X msg v v
  | refused (p : Peer) (hid : msg.id = .hello) (he : v.entry = some p) (hr : p.ready = true) :
      Arrival gossip X msg v (v.exit X)
  | lostHello (w : PeerView) (hid : msg.id = .hello) (hw : Opened X v w) (hseq : msg.sequence ≠ 1) :
      Arrival gossip X msg v (w.exit X)
  | greeted (w : PeerView) (hid : msg.id = .hello) (hw : Opened X v w) (hseq : msg.sequence = 1) :
      Arrival gossip X msg v ((w.count 1).greet X msg)
  | lost (p : Peer) (hid : msg.id ≠ .hello) (he : v.entry = some p) (hr : p.ready = true)
      (hseq : p.wantSequence + 1 ≠ msg.sequence) : Arrival gossip X msg v (v.exit X)
  | bye (p : Peer) (hid : msg.id = .goodbye) (he : v.entry = some p) (hr : p.ready = true)
      (hseq : p.wantSequence + 1 = msg.sequence) (hg : gossip = true) :
      Arrival gossip X msg v (v.exit X)
  | taken (p : Peer) (hid : msg.id ≠ .hello) (he : v.entry = some p) (hr : p.ready = true)
      (hseq : p.wantSequence + 1 = msg.sequence) (hg : msg.id = .goodbye → gossip = false) :
      Arrival gossip X msg v ((v.count msg.sequence).take X msg)

/-- A HELLO that is declined is an arrival too: it is ignored or refused. -/
theorem Declined.arrival {gossip : Bool} {X : CStr} {msg : Msg} {v v' : PeerView}
    (h : Declined X v v') (hid : msg.id = .hello) : Arrival gossip X msg v v' := by
  rcases h with h | ⟨p, he, hr⟩
  · exact .ignored h
  · exact .refused p hid he hr

namespace Node

variable {n n' : Node} {X Y name : CStr} {r : PeerRef} {p q : Peer} {K K' : Set MsgId} {env : Env}
  {uuid : Uuid} {msg : Msg} {endpoint : CStr} {v v' : PeerView}

/-- `n'` shows `v` for the peer `X` and otherwise what `n` does, up to disconnecting the peers on an
endpoint. -/
def Reaches (K : Set MsgId) (n : Node) (X endpoint : CStr) (v : PeerView) (n' : Node) : Prop :=
  ∃ V, (V = n.view ∨ V = n.view.purge endpoint) ∧ Becomes K n (V.at X fun _ => v) n'

/-- What a step reaches is the view of `X` afterwards. -/
theorem Reaches.view (h : Reaches K n X endpoint v n') : n'.view X = v := by
  obtain ⟨V, -, hbecomes⟩ := h
  rw [hbecomes.view, Views.at_self]

/-- The node's own part stays. -/
theorem Reaches.own (h : Reaches K n X endpoint v n') : n'.own = n.own := by
  obtain ⟨V, -, hbecomes⟩ := h
  exact hbecomes.own

/-- The view of another peer stays, or its endpoint is purged. -/
theorem Reaches.other (h : Reaches K n X endpoint v n') (hY : Y ≠ X) :
    n'.view Y = n.view Y ∨ n'.view Y = (n.view Y).purge endpoint := by
  obtain ⟨V, rfl | rfl, hbecomes⟩ := h
  · rw [hbecomes.view, Views.at_ne hY]; exact Or.inl rfl
  · rw [hbecomes.view, Views.at_ne hY]; exact Or.inr rfl

/-- A node becomes itself. -/
theorem Becomes.refl : Becomes K n n.view n := ⟨rfl, rfl, rfl, .refl⟩

/-- A node reaches the view it has. -/
theorem Reaches.refl : Reaches K n X endpoint (n.view X) n := by
  refine ⟨_, Or.inl rfl, ?_⟩
  rw [Views.at_id rfl]
  exact .refl

/-- A step that changes the view of `X` only reaches it without a purge. -/
theorem Becomes.reaches {f : PeerView → PeerView} (h : Becomes K n (n.view.at X f) n') :
    Reaches K n X endpoint (f (n.view X)) n' :=
  ⟨n.view, Or.inl rfl, h⟩

/-- What happens next, seen from a state with the same views. -/
theorem Reaches.trans {n'' : Node} {f : PeerView → PeerView} (h : Reaches K n X endpoint v n')
    (h' : Becomes K n' (n'.view.at X f) n'') : Reaches K n X endpoint (f v) n'' := by
  obtain ⟨V, hV, hbecomes⟩ := h
  refine ⟨V, hV, hbecomes.trans ?_⟩
  rw [hbecomes.view, Views.at_at] at h'
  exact h'

/-- More kinds of messages sent are allowed, not fewer. -/
theorem Reaches.mono (h : Reaches K n X endpoint v n') (hK : K ⊆ K') :
    Reaches K' n X endpoint v n' := by
  obtain ⟨V, hV, hbecomes⟩ := h
  exact ⟨V, hV, hbecomes.mono hK⟩

/-- The events after a state reached: those of the other peers are as they were. -/
theorem Reaches.within {n'' : Node} {f : PeerView → PeerView} (h : Reaches K n X endpoint v n')
    (h' : Within (n'.view.at X f) n'') : Within (n.view.at X fun _ => f v) n'' := by
  obtain ⟨V, hV, hbecomes⟩ := h
  refine h'.mono fun Y => ?_
  rw [hbecomes.view]
  by_cases hY : Y = X
  · subst hY; simp
  · rcases hV with rfl | rfl <;> simp [hY, Views.purge, PeerView.purge]

/-- What happens next, after a change of the same view. -/
theorem Becomes.reaches_after {n'' : Node} {f : PeerView → PeerView}
    (h : Becomes K n (n.view.at X f) n') (h' : Reaches K n' X endpoint v n'') :
    Reaches K n X endpoint v n'' := by
  obtain ⟨V, hV, hbecomes⟩ := h'
  have hother : ∀ Y ≠ X, n'.view Y = n.view Y := fun Y hY => by rw [h.view, Views.at_ne hY]
  rcases hV with rfl | rfl
  · refine ⟨n.view, Or.inl rfl, h.trans ?_⟩
    rwa [h.view, Views.at_at] at hbecomes
  · refine ⟨n.view.purge endpoint, Or.inr rfl, h.trans ?_⟩
    convert hbecomes using 1
    refine Views.eq_at (by simp) fun Y hY => ?_
    rw [Views.at_ne hY]
    simp only [Views.purge, hother Y hY]

/-! ### The gate -/

/-- The commands a node may send in answer to a message: HELLO to a new peer, PING-OK, and what
elections bring. -/
def answers (n : Node) (msg : Msg) : Set MsgId :=
  n.electing ∪ {id | id = .hello ∧ msg.id = .hello ∨ id = .elect ∧ msg.id = .elect ∨
    id = .leader ∧ (msg.id = .elect ∨ msg.id = .leader) ∨ id = .pingOk ∧ msg.id = .ping}

/-- What elections bring is among the answers to any message. -/
theorem electing_subset : n.electing ⊆ n.answers msg := Set.subset_union_left

/-- Only a HELLO is answered by a HELLO. -/
theorem hello_mem_answers : .hello ∈ n.answers msg ↔ msg.id = .hello := by
  simp [answers, electing]

/-- The sender has no entry. -/
theorem helloRequire_spec_of_none (hnew : n.peers.lookup uuid.str = none) :
    (helloRequire env uuid msg).wp
      (fun o n' => match o with
        | none => Reaches {.hello} n uuid.str msg.endpoint (n.view uuid.str) n'
        | some r => ∃ q : Peer, q.Fresh ∧ r = ⟨uuid.str, q.serial⟩ ∧
          Reaches {.hello} n uuid.str msg.endpoint
            { n.view uuid.str with
              entry := some q, hellos := (n.view uuid.str).hellos + 1 } n')
      (fun _ n' => Within n.view n') n := by
  have hsame : Within n.view n := fun Y => List.prefix_refl _
  have hnone : (n.view uuid.str).entry = none := by simp [hnew]
  have hrequire : ∀ key, (requirePeer env uuid msg.endpoint key).wp
      (fun o n' => match o with
        | none => Reaches {.hello} n uuid.str msg.endpoint (n.view uuid.str) n'
        | some r => ∃ q : Peer, q.Fresh ∧ r = ⟨uuid.str, q.serial⟩ ∧
          Reaches {.hello} n uuid.str msg.endpoint
            { n.view uuid.str with
              entry := some q, hellos := (n.view uuid.str).hellos + 1 } n')
      (fun _ n' => Within n.view n') n := by
    intro key
    refine EStateM.wp_mono (requirePeer_spec hnew) (fun o n' h => ?_) fun _ _ h => h
    cases o with
    | none =>
      refine ⟨_, Or.inr rfl, ?_⟩
      rw [Views.at_id]
      · exact h
      · exact (PeerView.purge_of_entry_eq_none hnone).symm
    | some r =>
      obtain ⟨q, hq, hr, hbecomes⟩ := h
      refine ⟨q, hq, hr, _, Or.inr rfl, ?_⟩
      rw [Views.at_congr (g := fun v => { v with entry := some q, hellos := v.hellos + 1 })]
      · exact hbecomes
      · simp [Views.purge, PeerView.purge]
  exact wp_helloRequire hrequire .refl hsame hsame

/-- The sender has an entry: it is found, unless the node is secure and the HELLO has no key. -/
theorem helloRequire_spec_of_some (hp : n.peers.lookup uuid.str = some p) :
    (helloRequire env uuid msg).wp
      (fun o n' => n' = n ∧ (o = none ∨ o = some ⟨uuid.str, p.serial⟩)) (fun _ n' => n' = n) n :=
  wp_helloRequire (fun _ => (wp_requirePeer_of_some hp).mpr ⟨rfl, Or.inr rfl⟩) ⟨rfl, Or.inl rfl⟩ rfl rfl

/-- Marking an entry ready. -/
theorem markReady_spec (hr : n.deref r = some p) :
    (modifyPeer r fun p => { p with ready := true }).wp
      (fun _ n' => Becomes K n (n.view.at r.identity fun v =>
        { v with entry := some { p.still with ready := true } }) n') (fun _ _ => False) n := by
  refine wp_modifyPeer.mpr ⟨fun q hq => ⟨?_, rfl, rfl, .of_eq rfl⟩, fun h => nomatch hr.symm.trans h⟩
  rw [view_modifyPeer, lookup_of_deref hr]
  rfl

/-- The HELLO gate. -/
theorem helloGate_spec :
    (helloGate env uuid msg).wp
      (fun o n' => match o with
        | none => ∃ v, Declined uuid.str (n.view uuid.str) v ∧
          Reaches (insert .hello n.electing) n uuid.str msg.endpoint v n'
        | some r => ∃ v q, Opened uuid.str (n.view uuid.str) v ∧ v.entry = some q ∧
          q.ready = true ∧ r = ⟨uuid.str, q.serial⟩ ∧
          Reaches (insert .hello n.electing) n uuid.str msg.endpoint v n')
      (fun _ n' => ∃ v, Declined uuid.str (n.view uuid.str) v ∧
        Within (n.view.at uuid.str fun _ => v) n') n := by
  set K := insert MsgId.hello n.electing with hK
  -- The second half of the gate, on a node where the sender has no entry.
  have hnew : ∀ v n₁, Declined uuid.str (n.view uuid.str) v → v.entry = none →
      (∀ q : Peer, q.Fresh → Opened uuid.str (n.view uuid.str)
        { v with entry := some { q with ready := true }, hellos := v.hellos + 1 }) →
      Becomes K n (n.view.at uuid.str fun _ => v) n₁ →
      (helloAdmit env uuid msg).wp
      (fun o n' => match o with
        | none => ∃ v, Declined uuid.str (n.view uuid.str) v ∧
          Reaches K n uuid.str msg.endpoint v n'
        | some r => ∃ v q, Opened uuid.str (n.view uuid.str) v ∧ v.entry = some q ∧
          q.ready = true ∧ r = ⟨uuid.str, q.serial⟩ ∧ Reaches K n uuid.str msg.endpoint v n')
      (fun _ n' => ∃ v, Declined uuid.str (n.view uuid.str) v ∧
        Within (n.view.at uuid.str fun _ => v) n') n₁ := by
    intro v n₁ hdeclined hentry hopened hbecomes
    have hview : n₁.view uuid.str = v := by rw [hbecomes.view, Views.at_self]
    have hlook : n₁.peers.lookup uuid.str = none := by
      rw [← hview, view_entry] at hentry
      exact Option.map_eq_none_iff.mp hentry
    refine EStateM.wp_bind .. |>.mpr
      (EStateM.wp_mono (helloRequire_spec_of_none hlook) (fun o n₂ h => ?_) fun _ n₂ h => ?_)
    · cases o with
      | none =>
        rw [hview] at h
        exact ⟨v, hdeclined, hbecomes.reaches_after (h.mono (by simp [hK]))⟩
      | some r =>
        obtain ⟨q, hq, rfl, hreaches⟩ := h
        rw [hview] at hreaches
        have hreaches := hbecomes.reaches_after (hreaches.mono (by simp [hK] : _ ⊆ K))
        obtain ⟨p, hp, rfl⟩ := deref_of_view (n := n₂) (X := uuid.str) (q := q)
          (by rw [hreaches.view])
        refine EStateM.wp_bind .. |>.mpr
          (EStateM.wp_mono (markReady_spec (K := K) hp) (fun _ n₃ h => ?_) fun _ _ h => h.elim)
        exact ⟨_, { p.still with ready := true }, hopened p.still hq, rfl, rfl, rfl,
          hreaches.trans h⟩
    · refine ⟨v, hdeclined, h.mono fun Y => ?_⟩
      rw [hbecomes.view]
  simp only [helloGate, EStateM.wp_bind, wp_lookupPeer]
  cases hlook : n.peers.lookup uuid.str with
  | none =>
    have hnone : (n.view uuid.str).entry = none := by simp [hlook]
    refine hnew _ n (.same fun p hp => by cases hnone.symm.trans hp) hnone
      (fun q hq => .fresh q hnone hq) ?_
    rw [Views.at_id rfl]
    exact .refl
  | some p =>
    have hsome : (n.view uuid.str).entry = some p.still := by simp [hlook]
    have hderef := deref_of_lookup hlook
    simp only [Option.map_some, EStateM.wp_bind, wp_readPeer, hderef, Option.some_inj, forall_eq']
    refine ⟨?_, fun h => by cases h⟩
    by_cases hready : p.ready = true
    · simp only [hready, if_true, EStateM.wp_bind]
      have hdeclined : Declined uuid.str (n.view uuid.str) ((n.view uuid.str).exit uuid.str) :=
        .exited _ hsome hready
      refine EStateM.wp_mono (removePeer_spec hderef) (fun _ n₁ h => ?_) fun _ n₁ h => ?_
      · have hgone : n₁.peers.lookup uuid.str = none := by
          have hentry : (n₁.view uuid.str).entry = none := by
            rw [h.view, Views.at_self]; rfl
          exact Option.map_eq_none_iff.mp hentry
        simp only [wp_lookupPeer, wp_assert, EStateM.wp_pure, hgone]
        refine ⟨fun _ => hnew _ n₁ hdeclined rfl (fun q hq => .renewed _ q hsome hready hq) ?_, fun h => by cases h⟩
        exact h.mono (Set.subset_insert _ _)
      · exact ⟨_, hdeclined, h⟩
    · have hnot : p.ready = false := by simpa using hready
      have hdeclined : Declined uuid.str (n.view uuid.str) (n.view uuid.str) :=
        .same fun q hq => by rw [hsome] at hq; cases hq; exact hnot
      simp only [hnot, Bool.false_eq_true, if_false, EStateM.wp_bind, EStateM.wp_get,
        EStateM.wp_pure, EStateM.wp_ite]
      refine ⟨fun _ => ⟨_, hdeclined, .refl⟩, fun _ => ?_⟩
      refine EStateM.wp_bind .. |>.mpr (EStateM.wp_mono (helloRequire_spec_of_some hlook) ?_ ?_)
      · rintro o n₁ ⟨rfl, rfl | rfl⟩
        · exact ⟨_, hdeclined, .refl⟩
        · refine EStateM.wp_bind .. |>.mpr
            (EStateM.wp_mono (markReady_spec (K := K) hderef) (fun _ n₂ h => ?_) fun _ _ h => h.elim)
          exact ⟨_, { p.still with ready := true }, .kept p.still hsome hnot, rfl, rfl, rfl,
            h.reaches⟩
      · rintro _ n₁ rfl
        refine ⟨_, hdeclined, fun Y => ?_⟩
        rw [Views.at_id rfl]
        exact List.prefix_refl _

/-! ### The commands -/

/-- The loop over the groups of HELLO. -/
theorem helloGroups_spec {groups : List CStr} (hp : n.deref r = some p) :
    (forM groups (helloGroup r) : NodeM Unit).wp
      (fun _ n' => ∃ k, Becomes n.electing n (n.view.at r.identity fun v =>
        { v with
          entry := some { p.still with status := k }
          groups := v.groups ∪ {name | name ∈ groups}
          log := v.log ++ groups.map (.join r.identity p.nameStr) }) n')
      (fun _ n' => Within (n.view.at r.identity fun v =>
        { v with log := v.log ++ groups.map (.join r.identity p.nameStr) }) n') n := by
  have hentry := view_entry_of_deref hp
  refine EStateM.wp_forM_done (fun done n' => ∃ k, Becomes n.electing n
    (n.view.at r.identity fun v =>
      { v with
        entry := some { p.still with status := k }
        groups := v.groups ∪ {name | name ∈ done}
        log := v.log ++ done.map (.join r.identity p.nameStr) }) n') ?_ ?_ fun n' h => h
  · refine ⟨p.still.status, ?_⟩
    rw [Views.at_id]
    · exact .refl
    · exact PeerView.ext hentry.symm (by simp) (by simp) rfl
  · rintro done name rest rfl n₁ ⟨k, h₁⟩
    obtain ⟨p₁, hp₁, hstill⟩ := deref_of_view (n := n₁) (X := r.identity)
      (q := { p.still with status := k }) (by rw [h₁.view, Views.at_self])
    have hr : (⟨r.identity, p.serial⟩ : PeerRef) = r := by rw [serial_of_deref hp]
    rw [Peer.still_serial, hr] at hp₁
    refine EStateM.wp_bind .. |>.mpr
      (EStateM.wp_mono (joinPeerGroup_spec (K := n.electing) hp₁) (fun _ n₂ h₂ => ?_)
        fun _ _ h => h.elim)
    have hjoined : Becomes n.electing n (n.view.at r.identity fun v =>
        { v with
          entry := some { p.still with status := k + 1 }
          groups := v.groups ∪ {name' | name' ∈ done ++ [name]}
          log := v.log ++ (done ++ [name]).map (.join r.identity p.nameStr) }) n₂ := by
      refine h₁.trans ?_
      rw [h₁.view, Views.at_at] at h₂
      convert h₂ using 1
      refine Views.at_congr (PeerView.ext rfl ?_ ?_ rfl)
      · ext g
        simp [PeerView.join, or_comm, or_assoc]
      · simp [PeerView.join, PeerView.nameStr, Peer.nameStr, Peer.still]
    refine EStateM.wp_bind .. |>.mpr (wp_getGroup.mpr (EStateM.wp_ite .. |>.mpr ⟨fun hc => ?_,
      fun _ => ⟨_, hjoined⟩⟩))
    have hmem : MsgId.elect ∈ n.electing := ⟨rfl, name, by rw [← hjoined.contested]; exact hc⟩
    rw [← electing_congr hjoined.contested] at hmem
    refine EStateM.wp_mono (becomes_of_keeps hello_notMem_electing (startElection_keeps hmem))
      (fun _ n₃ h₃ => ⟨k + 1, ?_⟩) fun _ n₃ h₃ => h₃.mono fun Y => ?_
    · have h := hjoined.trans (h₃.mono (electing_congr hjoined.contested).subset)
      rwa [hjoined.view] at h
    · rw [hjoined.view]
      by_cases hY : Y = r.identity
      · subst hY
        simp only [Views.at_self, List.map_append, List.map_cons, List.prefix_append_right_inj,
          List.map_nil]
        exact ⟨rest.map (.join r.identity p.nameStr), by simp⟩
      · simp [hY]

/-- HELLO. -/
theorem recvHello_spec (hp : n.deref r = some p) :
    (recvHello r msg).wp
      (fun _ n' => Becomes n.electing n (n.view.at r.identity (·.greet r.identity msg)) n')
      (fun _ n' => Within (n.view.at r.identity (·.greet r.identity msg)) n') n := by
  set f : Peer → Peer := fun p => { p with name := some msg.name, headers := msg.headers }
  set n₁ : Node := { n with peers := n.peers.modify r.identity f } with hn₁
  set n₂ : Node := { n₁ with
    outbox := n₁.outbox ++ [.enter r.identity msg.name msg.headers msg.endpoint] } with hn₂
  have hp₂ : n₂.deref r = some (f p) := deref_modify_self (n := n) hp rfl
  have hview : n₂.view = n.view.at r.identity fun v =>
      { v with
        entry := some (f p).still
        log := v.log ++ [.enter r.identity msg.name msg.headers msg.endpoint] } := by
    rw [hn₂, view_emit (n := n₁), hn₁]
    simp only [Event.session]
    rw [view_modifyPeer, lookup_of_deref hp, Views.at_at]
    rfl
  have hgreet : ∀ Y, (n₂.view Y).log <+:
      ((n.view.at r.identity (·.greet r.identity msg)) Y).log := by
    intro Y
    rw [hview]
    by_cases hY : Y = r.identity
    · subst hY
      simp only [Views.at_self, PeerView.greet, List.prefix_append_right_inj]
      exact ⟨_, rfl⟩
    · simp [hY]
  simp only [recvHello, EStateM.wp_bind, wp_modifyPeer, wp_emit]
  refine ⟨fun _ _ => ?_, fun h => by cases hp.symm.trans h⟩
  cases hgroups : msg.groups with
  | none => exact fun Y => hgreet Y
  | some groups =>
    refine EStateM.wp_bind .. |>.mpr
      (EStateM.wp_mono (helloGroups_spec hp₂) (fun _ n₃ h₃ => ?_) fun _ n₃ h₃ => ?_)
    · obtain ⟨k, h₃⟩ := h₃
      obtain ⟨p₃, hp₃, hstill⟩ := deref_of_view (n := n₃) (X := r.identity)
        (q := { (f p).still with status := k }) (by rw [h₃.view, Views.at_self])
      have hr : (⟨r.identity, p.serial⟩ : PeerRef) = r := by rw [serial_of_deref hp]
      have hp₃ : n₃.deref r = some p₃ := by rw [← hr]; exact hp₃
      refine wp_modifyPeer.mpr ⟨fun _ _ => ?_, fun h => by cases hp₃.symm.trans h⟩
      · refine ⟨?_, h₃.own, h₃.contested, h₃.grows⟩
        rw [view_modifyPeer, h₃.view, hview, Views.at_at, Views.at_at]
        refine Views.at_congr (PeerView.ext ?_ ?_ ?_ rfl)
        · have hstatus : ({ p₃ with status := msg.status } : Peer).still =
              { p₃.still with status := msg.status } := rfl
          rw [lookup_of_deref hp₃, Option.map_some, Option.map_some, hstatus, hstill]
          simp [PeerView.greet, lookup_of_deref hp, f, Peer.still]
        · simp [PeerView.greet, hgroups]
        · simp [PeerView.greet, hgroups, f, Peer.nameStr]
    · refine h₃.mono fun Y => ?_
      rw [hview]
      by_cases hY : Y = r.identity
      · subst hY
        simp [PeerView.greet, hgroups, f, Peer.nameStr]
      · simp [hY]

/-- An election started in a contested group, after a change of views. -/
theorem restart_spec {f : PeerView → PeerView} {c : Bool} (hc : c = true → n'.contested name = true)
    (h : Becomes n.electing n (n.view.at X f) n') :
    (if c then startElection name else pure ()).wp
      (fun _ n'' => Becomes n.electing n (n.view.at X f) n'')
      (fun _ n'' => Within (n.view.at X f) n'') n' := by
  refine EStateM.wp_ite .. |>.mpr ⟨fun hc' => ?_, fun _ => h⟩
  have hK := electing_congr h.contested
  refine EStateM.wp_mono (becomes_of_keeps (hello_notMem_electing (n := n))
    (startElection_keeps (hK ▸ ⟨rfl, name, hc hc'⟩))) (fun _ n₂ h₂ => ?_) fun _ n₂ h₂ => ?_
  · rw [h.view] at h₂
    exact h.trans h₂
  · rwa [h.view] at h₂

/-- JOIN. -/
theorem recvJoin_spec (hp : n.deref r = some p) :
    (recvJoin r msg).wp
      (fun _ n' => Becomes n.electing n (n.view.at r.identity (·.join r.identity msg.group)) n')
      (fun _ n' => Within (n.view.at r.identity (·.join r.identity msg.group)) n') n := by
  refine EStateM.wp_bind .. |>.mpr
    (EStateM.wp_mono (joinPeerGroup_spec (K := n.electing) hp) (fun _ n₁ h => ?_) fun _ _ h => h.elim)
  simp only [EStateM.wp_bind, wp_readPeer, wp_assert, EStateM.wp_get]
  refine ⟨fun _ _ => ⟨fun _ => ?_, fun _ => h.within⟩, fun _ => h.within⟩
  exact EStateM.wp_ite .. |>.mpr ⟨fun _ => restart_spec (fun hc => hc) h, fun _ => h⟩

/-- LEAVE. -/
theorem recvLeave_spec (hp : n.deref r = some p) :
    (recvLeave r msg).wp
      (fun _ n' => Becomes n.electing n (n.view.at r.identity (·.leave r.identity msg.group)) n')
      (fun _ n' => Within (n.view.at r.identity (·.leave r.identity msg.group)) n') n := by
  refine EStateM.wp_bind .. |>.mpr
    (EStateM.wp_mono (leavePeerGroup_spec (K := n.electing) hp) (fun _ n₁ h => ?_) fun _ _ h => h.elim)
  simp only [EStateM.wp_bind, wp_readPeer, wp_assert, EStateM.wp_get]
  refine ⟨fun _ _ => ⟨fun _ => ?_, fun _ => h.within⟩, fun _ => h.within⟩
  refine EStateM.wp_ite .. |>.mpr ⟨fun _ => EStateM.wp_bind .. |>.mpr (wp_getGroup.mpr ?_), fun _ => h⟩
  refine EStateM.wp_ite .. |>.mpr ⟨fun hc => ?_, fun _ => h⟩
  cases hleader : ((n₁.peerGroups.lookup msg.group).getD .new).leader with
  | none => exact h
  | some groupLeader =>
    refine EStateM.wp_bind .. |>.mpr (wp_readPeer.mpr ⟨fun _ _ => ?_, fun _ => h.within⟩)
    refine EStateM.wp_ite .. |>.mpr ⟨fun _ => ?_, fun _ => h⟩
    have hK := electing_congr h.contested
    have hmem : MsgId.elect ∈ n.electing := hK ▸ ⟨rfl, msg.group, hc⟩
    refine EStateM.wp_mono (becomes_of_keeps (B := Cause) (hello_notMem_electing (n := n)) ?_)
      (fun _ n₂ h₂ => ?_) fun _ n₂ h₂ => ?_
    · refine .bind (modifyGroup_keeps fun g _ => .setElection fun e he => by cases he)
        fun _ n₂ _ => .ite (fun _ => leadAlone_keeps) fun _ => startElection_keeps hmem
    · rw [h.view] at h₂
      exact h.trans h₂
    · rwa [h.view] at h₂

/-- What a message does once its sender is known to be ready. -/
inductive Accepted (gossip : Bool) (X : CStr) (msg : Msg) (v : PeerView) : PeerView → Prop
  | lost (p : Peer) (he : v.entry = some p)
      (hseq : (if msg.id = .hello then 1 else p.wantSequence + 1) ≠ msg.sequence) :
      Accepted gossip X msg v (v.exit X)
  | greeted (hid : msg.id = .hello) (hseq : 1 = msg.sequence) :
      Accepted gossip X msg v ((v.count 1).greet X msg)
  | bye (p : Peer) (hid : msg.id = .goodbye) (he : v.entry = some p)
      (hseq : p.wantSequence + 1 = msg.sequence) (hg : gossip = true) :
      Accepted gossip X msg v (v.exit X)
  | taken (p : Peer) (hid : msg.id ≠ .hello) (he : v.entry = some p)
      (hseq : p.wantSequence + 1 = msg.sequence) (hg : msg.id = .goodbye → gossip = false) :
      Accepted gossip X msg v ((v.count msg.sequence).take X msg)

/-- No other message is answered by a HELLO. -/
theorem hello_notMem_answers (hid : msg.id ≠ .hello) : .hello ∉ n.answers msg :=
  fun h => hid (hello_mem_answers.mp h)

/-- The commands other than HELLO and a GOODBYE that removes the peer. -/
theorem dispatch_spec (hp : n.deref r = some p) (hid : msg.id ≠ .hello)
    (hbye : msg.id = .goodbye → n.gossip = false) :
    (dispatch r msg).wp
      (fun b n' => b = true ∧
        Becomes (n.answers msg) n (n.view.at r.identity (·.take r.identity msg)) n')
      (fun _ n' => Within (n.view.at r.identity (·.take r.identity msg)) n') n := by
  have hK := hello_notMem_answers (n := n) hid
  -- The commands that take nothing off the session.
  have hquiet : ∀ {x : NodeM Unit} {B : Fault → Node → Prop},
      (∀ v, PeerView.take r.identity msg v = v) → x.Keeps (Moves (n.answers msg)) B n →
      (do x; pure true : NodeM Bool).wp
        (fun b n' => b = true ∧
          Becomes (n.answers msg) n (n.view.at r.identity (·.take r.identity msg)) n')
        (fun _ n' => Within (n.view.at r.identity (·.take r.identity msg)) n') n := by
    intro x B htake hx
    rw [Views.at_id (htake _)]
    exact EStateM.wp_bind .. |>.mpr
      (EStateM.wp_mono (becomes_of_keeps hK hx) (fun _ _ h => ⟨rfl, h⟩) fun _ _ h => h)
  have hsent : ∀ e : Event, e.session = some r.identity →
      (∀ v, PeerView.take r.identity msg v = { v with log := v.log ++ [e] }) →
      Becomes (n.answers msg) n (n.view.at r.identity (·.take r.identity msg))
        { n with outbox := n.outbox ++ [e] } := by
    intro e he htake
    refine ⟨?_, rfl, rfl, .of_eq rfl⟩
    rw [view_emit, he]
    exact Views.at_congr (htake _).symm
  have hemit : ∀ e : CStr → Event, (e p.nameStr).session = some r.identity →
      (∀ v, PeerView.take r.identity msg v = { v with log := v.log ++ [e v.nameStr] }) →
      (do emit (e (← readPeer r).nameStr); pure true : NodeM Bool).wp
        (fun b n' => b = true ∧
          Becomes (n.answers msg) n (n.view.at r.identity (·.take r.identity msg)) n')
        (fun _ n' => Within (n.view.at r.identity (·.take r.identity msg)) n') n := by
    intro e he htake
    simp only [EStateM.wp_bind, wp_readPeer, wp_emit, EStateM.wp_pure, hp, Option.some_inj,
      forall_eq']
    refine ⟨⟨trivial, ?_, rfl, rfl, .of_eq rfl⟩, fun h => by cases h⟩
    rw [view_emit, he]
    refine Views.at_congr ?_
    rw [htake, view_nameStr hp]
  have hlive := live_of_deref hp
  have htake : ∀ v, msg.id ≠ .whisper → msg.id ≠ .shout → msg.id ≠ .join → msg.id ≠ .leave →
      PeerView.take r.identity msg v = v := by
    intro v h₁ h₂ h₃ h₄
    unfold PeerView.take
    split <;> first | rfl | contradiction
  cases hmsg : msg.id with
  | unset =>
    simp only [dispatch, hmsg]
    rw [Views.at_id (htake _ (by simp [hmsg]) (by simp [hmsg]) (by simp [hmsg]) (by simp [hmsg]))]
    exact ⟨rfl, .refl⟩
  | hello => exact absurd hmsg hid
  | whisper =>
    simp only [dispatch, hmsg, recvWhisper]
    have := hemit (fun nm => .whisper r.identity nm msg.content) rfl fun v => by
      simp [PeerView.take, hmsg]
    simp only [EStateM.wp_bind] at this ⊢
    exact this
  | shout =>
    simp only [dispatch, hmsg, recvShout]
    have := hemit (fun nm => .shout r.identity nm msg.group msg.content) rfl fun v => by
      simp [PeerView.take, hmsg]
    simp only [EStateM.wp_bind] at this ⊢
    exact this
  | join =>
    have htake : PeerView.take r.identity msg = PeerView.join r.identity msg.group := by
      funext v; simp [PeerView.take, hmsg]
    simp only [dispatch, hmsg, htake]
    exact EStateM.wp_bind .. |>.mpr (EStateM.wp_mono (recvJoin_spec hp)
      (fun _ _ h => ⟨rfl, h.mono electing_subset⟩) fun _ _ h => h)
  | leave =>
    have htake : PeerView.take r.identity msg = PeerView.leave r.identity msg.group := by
      funext v; simp [PeerView.take, hmsg]
    simp only [dispatch, hmsg, htake]
    exact EStateM.wp_bind .. |>.mpr (EStateM.wp_mono (recvLeave_spec hp)
      (fun _ _ h => ⟨rfl, h.mono electing_subset⟩) fun _ _ h => h)
  | ping =>
    simp only [dispatch, hmsg]
    refine hquiet (B := Cause) (fun v => htake v (by simp [hmsg]) (by simp [hmsg])
      (by simp [hmsg]) (by simp [hmsg])) ?_
    exact (peerSend_keeps_of_live (Or.inr (by simp [hmsg, Msg.new])) hlive).mono
      fun _ => Sends.moves
  | pingOk =>
    simp only [dispatch, hmsg]
    rw [Views.at_id (htake _ (by simp [hmsg]) (by simp [hmsg]) (by simp [hmsg]) (by simp [hmsg]))]
    exact ⟨rfl, .refl⟩
  | elect =>
    simp only [dispatch, hmsg]
    refine hquiet (fun v => htake v (by simp [hmsg]) (by simp [hmsg]) (by simp [hmsg])
      (by simp [hmsg])) (recvElect_keeps ?_ hlive)
    rintro id (rfl | rfl) <;> exact Or.inr (by simp [hmsg])
  | leader =>
    simp only [dispatch, hmsg]
    exact hquiet (fun v => htake v (by simp [hmsg]) (by simp [hmsg]) (by simp [hmsg])
      (by simp [hmsg])) (recvLeader_keeps (Or.inr (by simp [hmsg])))
  | goodbye =>
    simp only [dispatch, hmsg, EStateM.wp_bind, EStateM.wp_get, hbye hmsg]
    rw [Views.at_id (htake _ (by simp [hmsg]) (by simp [hmsg]) (by simp [hmsg]) (by simp [hmsg]))]
    exact ⟨rfl, .refl⟩

/-- A message from a peer that is ready: the sequence number counts, then the message. -/
theorem acceptMsg_spec (hp : n.deref r = some p) :
    (acceptMsg env r msg).wp
      (fun _ n' => ∃ w, Accepted n.gossip r.identity msg (n.view r.identity) w ∧
        Becomes (n.answers msg) n (n.view.at r.identity fun _ => w) n')
      (fun _ n' => ∃ w, Accepted n.gossip r.identity msg (n.view r.identity) w ∧
        Within (n.view.at r.identity fun _ => w) n') n := by
  have hentry := view_entry_of_deref hp
  set k : UInt16 := if msg.id = .hello then 1 else p.wantSequence + 1 with hk
  set n₁ : Node := { n with
    peers := n.peers.modify r.identity fun _ => { p with wantSequence := k } } with hn₁
  have hp₁ : n₁.deref r = some { p with wantSequence := k } := deref_modify_self hp rfl
  have hview : n₁.view = n.view.at r.identity (·.count k) := by
    rw [hn₁, view_modifyPeer, lookup_of_deref hp]
    refine Views.at_congr (PeerView.ext ?_ rfl rfl rfl)
    simp [PeerView.count, lookup_of_deref hp, Peer.still]
  -- What happens from `n₁` on, in terms of `n`.
  have hlift : ∀ {α : Type} {x : NodeM α} {f : PeerView → PeerView} {P : α → Prop},
      x.wp (fun a n' => P a ∧ Becomes (n.answers msg) n₁ (n₁.view.at r.identity f) n')
        (fun _ n' => Within (n₁.view.at r.identity f) n') n₁ →
      x.wp (fun a n' => P a ∧ Becomes (n.answers msg) n
          (n.view.at r.identity fun _ => f ((n.view r.identity).count k)) n')
        (fun _ n' => Within (n.view.at r.identity fun _ => f ((n.view r.identity).count k)) n')
        n₁ := by
    intro α x f P hx
    rw [hview, Views.at_at, Views.at_congr (g := fun _ => f ((n.view r.identity).count k)) rfl] at hx
    exact EStateM.wp_mono hx
      (fun _ n' h => ⟨h.1, h.2.view, h.2.own, h.2.contested, h.2.grows⟩) fun _ _ h => h
  have hrefresh : ∀ {n' : Node} {V : Views}, Becomes (n.answers msg) n V n' → n'.Live r →
      (do
        let n'' ← get
        modifyPeer r (·.refresh env.now n''.evasiveTimeout n''.expiredTimeout) : NodeM Unit).wp
        (fun _ n' => Becomes (n.answers msg) n V n') (fun _ _ => False) n' := by
    intro n' V h hlive
    obtain ⟨q, hq⟩ := hlive.exists
    simp only [EStateM.wp_bind, EStateM.wp_get, wp_modifyPeer]
    refine ⟨fun _ _ => ⟨?_, h.own, h.contested, h.grows⟩, fun hnone => by cases hq.symm.trans hnone⟩
    rw [view_modifyPeer, ← h.view, Views.at_id]
    refine PeerView.ext ?_ rfl rfl rfl
    simp [lookup_of_deref hq, Peer.refresh, Peer.still]
  have hfinish : ∀ {f : PeerView → PeerView},
      Accepted n.gossip r.identity msg (n.view r.identity) (f ((n.view r.identity).count k)) →
      (∀ v, (f v).entry.map Peer.serial = v.entry.map Peer.serial) →
      (dispatch r msg).wp
        (fun b n' => b = true ∧ Becomes (n.answers msg) n₁ (n₁.view.at r.identity f) n')
        (fun _ n' => Within (n₁.view.at r.identity f) n') n₁ →
      (do
        if ← dispatch r msg then do
          let n'' ← get
          modifyPeer r (·.refresh env.now n''.evasiveTimeout n''.expiredTimeout) : NodeM Unit).wp
        (fun _ n' => ∃ w, Accepted n.gossip r.identity msg (n.view r.identity) w ∧
          Becomes (n.answers msg) n (n.view.at r.identity fun _ => w) n')
        (fun _ n' => ∃ w, Accepted n.gossip r.identity msg (n.view r.identity) w ∧
          Within (n.view.at r.identity fun _ => w) n') n₁ := by
    intro f haccepted hserial hdispatch
    refine EStateM.wp_bind .. |>.mpr (EStateM.wp_mono (hlift hdispatch) ?_
      fun _ n' h => ⟨_, haccepted, h⟩)
    rintro _ n' ⟨rfl, h⟩
    have hlive : n'.Live r := by
      have hmap : (n'.view r.identity).entry.map Peer.serial = some p.serial := by
        rw [h.view, Views.at_self, hserial, PeerView.map_serial_count, hentry]
        rfl
      obtain ⟨q, hq, hqp⟩ := Option.map_eq_some_iff.mp hmap
      obtain ⟨p', hp', -⟩ := deref_of_view hq
      rw [hqp, serial_of_deref hp] at hp'
      exact live_of_deref hp'
    exact EStateM.wp_mono (hrefresh h hlive) (fun _ n'' h => ⟨_, haccepted, h⟩) fun _ _ h => h.elim
  simp only [acceptMsg, EStateM.wp_bind, wp_readPeer, hp, Option.some_inj, forall_eq',
    Peer.messagesLost, wp_modifyPeer, ← hk]
  refine ⟨⟨?_, fun h => by cases h⟩, fun h => by cases h⟩
  show EStateM.wp _ _ _ n₁
  by_cases hseq : k = msg.sequence
  · simp only [hseq, ne_eq, not_true_eq_false, decide_false, Bool.false_eq_true, if_false]
    by_cases hid : msg.id = .hello
    · have hk₁ : k = 1 := by rw [hk, if_pos hid]
      refine hfinish (f := (·.greet r.identity msg))
        (by rw [hk₁]; exact .greeted hid (hk₁ ▸ hseq)) (by simp) ?_
      simp only [dispatch, hid]
      refine EStateM.wp_bind .. |>.mpr (EStateM.wp_mono (recvHello_spec hp₁)
        (fun _ _ h => ⟨rfl, h.mono electing_subset⟩) fun _ _ h => h)
    · have hwant : p.still.wantSequence + 1 = msg.sequence := by
        rw [← hseq, hk, if_neg hid]; rfl
      by_cases hbye : msg.id = .goodbye ∧ n.gossip = true
      · have haccepted : Accepted n.gossip r.identity msg (n.view r.identity)
            ((n.view r.identity).exit r.identity) := .bye p.still hbye.1 hentry hwant hbye.2
        rw [← PeerView.exit_count r.identity k] at haccepted
        have hgossip : n₁.gossip = true := hbye.2
        simp only [dispatch, hbye.1, EStateM.wp_bind, EStateM.wp_get, hgossip, if_true]
        refine EStateM.wp_mono (hlift (P := fun _ => True) (f := (·.exit r.identity))
          (EStateM.wp_mono (removePeer_spec hp₁) (fun _ n' h => ⟨trivial, ?_⟩) fun _ _ h => h))
          (fun _ n' h => ?_) fun _ n' h => ⟨_, haccepted, h⟩
        · exact h.mono electing_subset
        · simp only [EStateM.wp_pure, Bool.false_eq_true, if_false]
          exact ⟨_, haccepted, h.2⟩
      · have hnot : msg.id = .goodbye → n.gossip = false := by simpa using hbye
        exact hfinish (f := (·.take r.identity msg))
          (by rw [hseq]; exact .taken p.still hid hentry hwant hnot) (by simp)
          (dispatch_spec hp₁ hid hnot)
  · simp only [ne_eq, hseq, not_false_eq_true, decide_true, if_true]
    have hlost : Accepted n.gossip r.identity msg (n.view r.identity)
        ((n.view r.identity).exit r.identity) := .lost p.still hentry hseq
    rw [← PeerView.exit_count r.identity k] at hlost
    refine EStateM.wp_mono (hlift (P := fun _ => True) (f := (·.exit r.identity))
      (EStateM.wp_mono (removePeer_spec hp₁) (fun _ n' h => ⟨trivial, ?_⟩) fun _ _ h => h))
      (fun _ n' h => ⟨_, hlost, h.2⟩) fun _ n' h => ⟨_, hlost, h⟩
    exact h.mono electing_subset

/-! ### Every message -/

/-- A HELLO accepted at an entry just opened is the arrival of a peer. -/
theorem Accepted.arrival_of_opened {gossip : Bool} {w : PeerView} (h : Accepted gossip X msg v w)
    (hid : msg.id = .hello) (hopened : Opened X v' v) : Arrival gossip X msg v' w := by
  rcases h with ⟨p, he, hseq⟩ | ⟨-, hseq⟩ | ⟨p, hid', -⟩ | ⟨p, hid', -⟩
  · exact .lostHello v hid hopened fun heq => hseq (by rw [if_pos hid, heq])
  · exact .greeted v hid hopened hseq.symm
  · rw [hid] at hid'; cases hid'
  · exact absurd hid hid'

/-- A message accepted at a ready entry is an arrival of its kind. -/
theorem Accepted.arrival_of_ready {gossip : Bool} {w : PeerView} (h : Accepted gossip X msg v w)
    (hid : msg.id ≠ .hello) (he : v.entry = some p) (hr : p.ready = true) :
    Arrival gossip X msg v w := by
  rcases h with ⟨p', he', hseq⟩ | ⟨hid', -⟩ | ⟨p', hid', he', hseq, hg⟩ | ⟨p', -, he', hseq, hg⟩
  · cases he.symm.trans he'
    exact .lost p hid he hr fun heq => hseq (by rw [if_neg hid, heq])
  · exact absurd hid' hid
  · cases he.symm.trans he'
    exact .bye p hid' he hr hseq hg
  · cases he.symm.trans he'
    exact .taken p hid he hr hseq hg

/-- The groups that hold elections are the same afterwards. -/
theorem Reaches.contested (h : Reaches K n X endpoint v n') : n'.contested = n.contested := by
  obtain ⟨V, -, hbecomes⟩ := h
  exact hbecomes.contested

/-- So are the kinds of answers it may give. -/
theorem answers_congr (h : n'.contested = n.contested) : n'.answers msg = n.answers msg := by
  simp only [answers, electing_congr h]

/-- Whatever message comes, its sender's view changes as `Arrival` says, and the other views stay,
up to the peers on a shared endpoint. Where `recvMsg` stops, the events are the beginning of those
of such a change. -/
theorem recvMsg_spec :
    (recvMsg env uuid msg).wp
      (fun _ n' => ∃ v, Arrival n.gossip uuid.str msg (n.view uuid.str) v ∧
        Reaches (n.answers msg) n uuid.str msg.endpoint v n')
      (fun _ n' => ∃ v, Arrival n.gossip uuid.str msg (n.view uuid.str) v ∧
        Within (n.view.at uuid.str fun _ => v) n') n := by
  have hignored : (∀ p, (n.view uuid.str).entry = some p → p.ready = false) →
      ∃ v, Arrival n.gossip uuid.str msg (n.view uuid.str) v ∧
        Reaches (n.answers msg) n uuid.str msg.endpoint v n :=
    fun h => ⟨_, .ignored h, .refl⟩
  simp only [recvMsg, senderGate, EStateM.wp_bind]
  by_cases hid : msg.id = .hello
  · have hK : insert .hello n.electing ⊆ n.answers msg :=
      Set.insert_subset (hello_mem_answers.mpr hid) electing_subset
    rw [if_pos hid]
    refine EStateM.wp_mono helloGate_spec (fun o n₁ h => ?_) fun _ n₁ h => ?_
    · cases o with
      | none =>
        obtain ⟨v, hdeclined, hreaches⟩ := h
        exact ⟨v, hdeclined.arrival hid, hreaches.mono hK⟩
      | some r =>
        obtain ⟨v, q, hopened, hq, hready, rfl, hreaches⟩ := h
        obtain ⟨p, hp, rfl⟩ := deref_of_view (n := n₁) (X := uuid.str) (q := q)
          (by rw [hreaches.view]; exact hq)
        have hgossip : n₁.gossip = n.gossip := (congrArg Node.gossip hreaches.own :)
        refine EStateM.wp_bind .. |>.mpr (wp_readPeer.mpr ⟨fun p' hp' => ?_,
          fun h => by cases hp.symm.trans h⟩)
        cases hp.symm.trans hp'
        have hready : p.ready = true := hready
        rw [if_pos hready]
        refine EStateM.wp_mono (acceptMsg_spec hp) ?_ ?_
        · rintro _ n₂ ⟨w, haccepted, h⟩
          rw [hreaches.view, hgossip] at haccepted
          rw [answers_congr hreaches.contested] at h
          exact ⟨w, haccepted.arrival_of_opened hid hopened, (hreaches.mono hK).trans h⟩
        · rintro _ n₂ ⟨w, haccepted, h⟩
          rw [hreaches.view, hgossip] at haccepted
          exact ⟨w, haccepted.arrival_of_opened hid hopened, hreaches.within h⟩
    · obtain ⟨v, hdeclined, h⟩ := h
      exact ⟨v, hdeclined.arrival hid, h⟩
  · rw [if_neg hid, wp_lookupPeer]
    cases hlook : n.peers.lookup uuid.str with
    | none => exact hignored fun p hp => by simp [hlook] at hp
    | some p =>
      have hp := deref_of_lookup hlook
      have hentry : (n.view uuid.str).entry = some p.still := by simp [hlook]
      refine EStateM.wp_bind .. |>.mpr (wp_readPeer.mpr ⟨fun p' hp' => ?_,
        fun h => by cases hp.symm.trans h⟩)
      cases hp.symm.trans hp'
      refine EStateM.wp_ite .. |>.mpr ⟨fun hready => ?_, fun hready => hignored fun q hq => ?_⟩
      · refine EStateM.wp_mono (acceptMsg_spec hp) ?_ ?_
        · rintro _ n₂ ⟨w, haccepted, h⟩
          exact ⟨w, haccepted.arrival_of_ready hid hentry hready, h.reaches⟩
        · rintro _ n₂ ⟨w, haccepted, h⟩
          exact ⟨w, haccepted.arrival_of_ready hid hentry hready, h⟩
      · cases hentry.symm.trans hq
        exact Bool.eq_false_iff.mpr hready

end Node

end Zyre
