import Zyre.Node.Handling

/-!
# When deadlines restart

The two deadlines of a peer are set when its entry is made and at the end of `zyre_node_recv_peer`,
for every message that is accepted and leaves the peer in the table. Nothing else in the program
touches them: `step_deadlines` says so of every input.
-/

namespace Zyre

/-- The number of a peer object and its two deadlines. -/
def Peer.times (p : Peer) : ℕ × UInt64 × UInt64 := (p.serial, p.evasiveAt, p.expiredAt)

/-- Purging a peer takes its endpoint away, not the times it was last heard and asked. -/
theorem times_purgePeer {endpoint : CStr} {p : Peer} :
    (Node.purgePeer endpoint p).times = p.times := by
  rw [Node.purgePeer]
  split_ifs
  · rw [Peer.disconnect]
    split_ifs <;> rfl
  · rfl

namespace Node

variable {n n' : Node} {X Y name : CStr} {r : PeerRef} {p p' : Peer} {msg : Msg} {env : Env}
  {uuid : Uuid} {endpoint : CStr} {key : Option CStr} {K : Set MsgId} {input : Input}

/-! ### Programs that leave the deadlines alone -/

/-- No entry is new, and those still there are the objects they were, with the deadlines they had. -/
abbrev Ages : Node → Node → Prop := Inherits Peer.times

/-- A move on an entry's counters and queue leaves every time stamp as it was. -/
theorem Moves.ages (h : Moves K n n') : Ages n n' := h.inherits fun _ _ => rfl

/-- A computation that only moves messages leaves the time stamps alone on both of its ends, returned and
stopped. -/
theorem leads_of_moves {α : Type} {x : NodeM α} {B : Fault → Node → Prop} (h : x.Keeps (Moves K) B n) :
    x.Leads Ages n :=
  EStateM.wp_mono h (fun _ _ h => h.ages) fun _ _ h => ⟨h.1.ages, trivial⟩

/-- A field update that leaves the time stamps of a peer leaves those of the node. -/
theorem modifyPeer_ages {f : Peer → Peer} (hf : ∀ p, (f p).times = p.times) :
    (modifyPeer r f).Leads Ages n :=
  wp_modifyPeer.mpr ⟨fun _ _ => Inherits.modify fun p _ => hf p, fun _ => ⟨Std.Refl.refl _, trivial⟩⟩

/-- An event changes no time stamp. -/
theorem emit_ages (e : Event) : (emit e).Leads Ages n := Inherits.of_eq rfl

/-- Behind a reading of an entry it is enough to look at the entry read. -/
theorem readPeer_ages {α : Type} {f : Peer → NodeM α} (h : ∀ p, n.deref r = some p → (f p).Leads Ages n) :
    (readPeer r >>= f).Leads Ages n :=
  keeps_readPeer h fun _ => trivial

/-- Sending counts a message and changes no time stamp. -/
theorem peerSend_ages : (peerSend r msg).Leads Ages n := by
  have hself : Ages n n := Std.Refl.refl n
  refine wp_peerSend.mpr ⟨fun p _ _ => ?_, fun _ _ _ => hself, fun _ => ⟨hself, trivial⟩⟩
  exact Inherits.modify fun _ _ => rfl

/-- A loop of sends changes no time stamp, whichever peers it goes over. -/
theorem forM_peerSend_ages {α : Type} {es : List α} (f : α → PeerRef) :
    (forM es fun e => peerSend (f e) msg : NodeM Unit).Leads Ages n :=
  .forM fun _ _ _ _ => peerSend_ages

theorem groupSend_ages : (groupSend name msg).Leads Ages n :=
  keeps_getGroup (forM_peerSend_ages _)

theorem sendPeers_ages : (sendPeers msg).Leads Ages n :=
  .get (forM_peerSend_ages _)

theorem startElection_ages : (startElection name).Leads Ages n := by
  refine .get (.bind (Inherits.of_eq rfl) fun _ n₁ _ => .bind (Inherits.of_eq rfl) fun _ n₂ _ => ?_)
  exact .pure_bind groupSend_ages

/-- Joining or leaving moves the status of the peer on. -/
theorem countStatus_ages {f : Group → Group} :
    (do modifyGroup name f; modifyPeer r fun p => { p with status := p.status + 1 } : NodeM Unit).Leads
      Ages n :=
  .bind (Inherits.of_eq rfl) fun _ _ _ => modifyPeer_ages fun _ => rfl

theorem joinPeerGroup_ages : (joinPeerGroup r name).Leads Ages n :=
  .bind (Inherits.of_eq rfl) fun _ _ _ => .bind countStatus_ages fun _ _ _ =>
    readPeer_ages fun _ _ => emit_ages _

theorem leavePeerGroup_ages : (leavePeerGroup r name).Leads Ages n :=
  .bind (Inherits.of_eq rfl) fun _ _ _ => .bind countStatus_ages fun _ _ _ =>
    readPeer_ages fun _ _ => emit_ages _

theorem assert_ages {α : Type} {c : Bool} {f : Unit → NodeM α} (h : (f ⟨⟩).Leads Ages n) :
    (assert c >>= f).Leads Ages n :=
  keeps_assert (fun _ => h) fun _ => trivial

/-- A removal drops the entry and its times; the other entries keep theirs. -/
theorem removePeer_ages : (removePeer r).Leads Ages n :=
  removePeer_inherits (fun _ _ => rfl) fun _ _ => rfl

/-! ### The commands -/

/-- The body of a HELLO fills in name, headers and groups, none of which is a time. -/
theorem recvHello_ages : (recvHello r msg).Leads Ages n := by
  refine .bind (modifyPeer_ages fun _ => rfl) fun _ n₁ _ => .bind (emit_ages _) fun _ n₂ _ => ?_
  have hstatus : ∀ n : Node, (modifyPeer r fun p => { p with status := msg.status }).Leads Ages n :=
    fun n => modifyPeer_ages fun _ => rfl
  cases msg.groups with
  | none => exact .throw _ trivial
  | some groups =>
    refine .bind (.forM fun name _ n₃ _ => ?_) fun _ n₃ _ => hstatus n₃
    refine .bind joinPeerGroup_ages fun _ n₄ _ => keeps_getGroup ?_
    exact .ite (fun _ => startElection_ages) fun _ => .pure _

theorem recvJoin_ages : (recvJoin r msg).Leads Ages n := by
  refine .bind joinPeerGroup_ages fun _ n₁ _ => readPeer_ages fun _ _ => assert_ages (.get ?_)
  refine .ite (fun _ => keeps_getGroup ?_) fun _ => .pure _
  exact .ite (fun _ => startElection_ages) fun _ => .pure _

theorem recvLeave_ages : (recvLeave r msg).Leads Ages n := by
  refine .bind leavePeerGroup_ages fun _ n₁ _ => readPeer_ages fun _ _ => assert_ages (.get ?_)
  refine .ite (fun _ => keeps_getGroup (.ite (fun _ => ?_) fun _ => .pure _)) fun _ => .pure _
  cases ((n₁.peerGroups.lookup msg.group).getD .new).leader with
  | none => exact .pure _
  | some groupLeader =>
    refine readPeer_ages fun _ _ => .ite (fun _ => .bind (Inherits.of_eq rfl) fun _ n₂ _ => ?_)
      fun _ => .pure _
    refine .ite (fun _ => ?_) fun _ => startElection_ages
    exact .bind (Inherits.of_eq rfl) fun _ n₃ _ => .get (.get (emit_ages _))

/-- No command touches the deadlines. -/
theorem dispatch_ages (hr : n.Live r) : (dispatch r msg).Leads Ages n := by
  have hdone : ∀ {x : NodeM Unit}, x.Leads Ages n → (do x; pure true : NodeM Bool).Leads Ages n :=
    fun hx => .bind hx fun _ _ _ => .pure _
  rw [dispatch]
  cases msg.id with
  | hello => exact hdone recvHello_ages
  | whisper => exact hdone (readPeer_ages fun _ _ => emit_ages _)
  | shout => exact hdone (readPeer_ages fun _ _ => emit_ages _)
  | ping => exact hdone peerSend_ages
  | join => exact hdone recvJoin_ages
  | leave => exact hdone recvLeave_ages
  | elect => exact hdone (leads_of_moves (recvElect_keeps (Set.subset_univ _) hr))
  | leader => exact hdone (leads_of_moves (recvLeader_keeps (Set.mem_univ _)))
  | goodbye => exact .get (.ite (fun _ => .bind removePeer_ages fun _ _ _ => .pure _) fun _ => .pure _)
  | pingOk => exact .pure _
  | unset => exact .pure _

/-! ### Where they restart -/

/-- The entry of `X`, if it is still there, is the object it was, with the deadlines it had. -/
def AgesAt (X : CStr) (n n' : Node) : Prop :=
  ∀ p', n'.peers.lookup X = some p' → ∃ p, n.peers.lookup X = some p ∧ p.times = p'.times

/-- What holds of all entries holds of the one of `X`. -/
theorem Inherits.at (h : Ages n n') (X : CStr) : AgesAt X n n' := h X

theorem AgesAt.refl : AgesAt X n n := fun p' hp' => ⟨p', hp', rfl⟩

theorem AgesAt.trans {n'' : Node} (h : AgesAt X n n') (h' : AgesAt X n' n'') : AgesAt X n n'' := by
  intro p'' hp''
  obtain ⟨p', hp', htimes'⟩ := h' p'' hp''
  obtain ⟨p, hp, htimes⟩ := h p' hp'
  exact ⟨p, hp, htimes.trans htimes'⟩

/-- The deadlines count from the clock, by the timeouts of the node. -/
def Refreshed (env : Env) (n : Node) (p : Peer) : Prop :=
  p.evasiveAt = env.now.toUInt64 + n.evasiveTimeout ∧
    p.expiredAt = env.now.toUInt64 + n.expiredTimeout

/-- The purge in front of a new entry changes no time stamp. -/
theorem ages_purged : Ages n (n.purged endpoint) := by
  intro X p' hp'
  simp only [purged, AList.lookup_mapValues] at hp'
  obtain ⟨p, hp, rfl⟩ := Option.map_eq_some_iff.mp hp'
  exact ⟨p, hp, times_purgePeer.symm⟩

/-- A peer that is required keeps the deadlines it has, or it is new and gets its first ones. -/
theorem requirePeer_times :
    (requirePeer env uuid endpoint key).wp
      (fun o n' => (∀ Y ≠ uuid.str, AgesAt Y n n') ∧ (o = none → AgesAt uuid.str n n') ∧
        (AgesAt uuid.str n n' ∨ n.peers.lookup uuid.str = none ∧
          ∀ p', n'.peers.lookup uuid.str = some p' → Refreshed env n p')) (fun _ _ => True) n := by
  cases hlook : n.peers.lookup uuid.str with
  | some p =>
    exact (wp_requirePeer_of_some hlook).mpr ⟨fun _ _ => .refl, nofun, Or.inl .refl⟩
  | none =>
    by_cases hkey : KeyOk env n key
    · rw [wp_requirePeer_of_none hlook hkey]
      split_ifs
      · refine ⟨fun Y hY p' hp' => ?_, nofun, Or.inr ⟨rfl, fun p' hp' => ?_⟩⟩
        · simp only [greeting, opening, AList.lookup_insert_ne hY] at hp'
          exact ages_purged Y p' hp'
        · simp only [greeting, opening, AList.lookup_insert] at hp'
          rw [← Option.some_inj.mp hp']
          exact ⟨rfl, rfl⟩
      · exact ⟨fun Y _ => ages_purged Y, fun _ => ages_purged _, Or.inl (ages_purged _)⟩
    · exact wp_requirePeer_of_not_keyOk hlook hkey fun _ _ _ _ => trivial

/-- The second half of the gate. -/
theorem helloAdmit_times :
    (helloAdmit env uuid msg).wp
      (fun o n' => (∀ Y ≠ uuid.str, AgesAt Y n n') ∧ (o = none → AgesAt uuid.str n n'))
      (fun _ _ => True) n := by
  have hrequire : (helloRequire env uuid msg).wp
      (fun o n' => (∀ Y ≠ uuid.str, AgesAt Y n n') ∧ (o = none → AgesAt uuid.str n n'))
      (fun _ _ => True) n := by
    refine wp_helloRequire (fun key => ?_) ⟨fun _ _ => .refl, fun _ => .refl⟩ trivial trivial
    exact EStateM.wp_mono requirePeer_times (fun _ _ h => ⟨h.1, h.2.1⟩) fun _ _ h => h
  refine EStateM.wp_bind .. |>.mpr (EStateM.wp_mono hrequire (fun o n₁ h => ?_) fun _ _ h => h)
  cases o with
  | none => exact h
  | some r =>
    refine EStateM.wp_bind .. |>.mpr (wp_modifyPeer.mpr ⟨fun p _ => ⟨fun Y hY => ?_, nofun⟩,
      fun _ => trivial⟩)
    have hready : Ages n₁ { n₁ with peers := n₁.peers.modify r.identity fun p =>
        { p with ready := true } } := Inherits.modify fun _ _ => rfl
    exact (h.1 Y hY).trans (hready Y)

/-- The gate touches no deadline but that of a sender it lets in. -/
theorem helloGate_times :
    (helloGate env uuid msg).wp
      (fun o n' => (∀ Y ≠ uuid.str, AgesAt Y n n') ∧ (o = none → AgesAt uuid.str n n'))
      (fun _ _ => True) n := by
  refine EStateM.wp_bind .. |>.mpr (wp_lookupPeer.mpr ?_)
  cases n.peers.lookup uuid.str with
  | none => exact helloAdmit_times
  | some p =>
    refine EStateM.wp_bind .. |>.mpr (wp_readPeer.mpr ⟨fun q _ => ?_, fun _ => trivial⟩)
    refine EStateM.wp_ite .. |>.mpr ⟨fun _ => ?_, fun _ => ?_⟩
    · refine EStateM.wp_bind .. |>.mpr (EStateM.wp_mono removePeer_ages (fun _ n₁ hn₁ => ?_)
        fun _ _ _ => trivial)
      refine EStateM.wp_bind .. |>.mpr (wp_lookupPeer.mpr ?_)
      refine EStateM.wp_bind .. |>.mpr (wp_assert.mpr ⟨fun _ => ?_, fun _ => trivial⟩)
      refine EStateM.wp_mono helloAdmit_times (fun o n₂ h => ?_) fun _ _ h => h
      exact ⟨fun Y hY => .trans (hn₁ Y) (h.1 Y hY), fun ho => .trans (hn₁ _) (h.2 ho)⟩
    · refine EStateM.wp_bind .. |>.mpr (EStateM.wp_get.mpr ?_)
      refine EStateM.wp_ite .. |>.mpr ⟨fun _ => ⟨fun _ _ => .refl, fun _ => .refl⟩, fun _ => ?_⟩
      exact helloAdmit_times

/-- Only GOODBYE takes the sender away. -/
theorem dispatch_gone (hp : n.deref r = some p) : (dispatch r msg).wp
    (fun b n' => b = false → n'.peers.lookup r.identity = none) (fun _ _ => True) n := by
  have hstays : ∀ {x : NodeM Unit}, (do x; pure true : NodeM Bool).wp
      (fun b n' => b = false → n'.peers.lookup r.identity = none) (fun _ _ => True) n := by
    intro x
    refine EStateM.wp_bind .. |>.mpr ?_
    rw [EStateM.wp]
    cases x n with
    | ok _ n' => exact nofun
    | error _ n' => trivial
  rw [dispatch]
  cases msg.id with
  | goodbye =>
    refine EStateM.wp_bind .. |>.mpr (EStateM.wp_get.mpr (EStateM.wp_ite .. |>.mpr ⟨fun _ => ?_,
      fun _ => nofun⟩))
    refine EStateM.wp_bind .. |>.mpr (EStateM.wp_mono (removePeer_spec hp) ?_ fun _ _ _ => trivial)
    intro _ n' hbecomes _
    have hentry : (n'.view r.identity).entry = none := by
      rw [hbecomes.view, Views.at_self]
      rfl
    exact Option.map_eq_none_iff.mp hentry
  | pingOk => exact nofun
  | unset => exact nofun
  | _ => exact hstays

/-- The peer is ready. If it is still there in the end, its message has been accepted, and the
deadlines have been restarted, by the timeouts the node has in the end. -/
theorem acceptMsg_times (hp : n.deref r = some p) :
    (acceptMsg env r msg).wp
      (fun _ n' => (∀ Y ≠ r.identity, AgesAt Y n n') ∧ ∀ p', n'.peers.lookup r.identity = some p' →
        (p.messagesLost msg).1 = false ∧ Refreshed env n' p') (fun _ _ => True) n := by
  refine EStateM.wp_bind .. |>.mpr (wp_readPeer.mpr ⟨fun q hq => ?_, fun _ => trivial⟩)
  obtain rfl := Option.some_inj.mp (hp.symm.trans hq)
  set n₁ : Node := { n with peers := n.peers.modify r.identity fun _ => (p.messagesLost msg).2 } with hn₁
  have hlook : n.peers.lookup r.identity = some p := lookup_of_deref hp
  have hages₁ : Ages n n₁ := by
    refine Inherits.modify fun q hq => ?_
    obtain rfl := Option.some_inj.mp (hlook.symm.trans hq)
    rfl
  have hp₁ : n₁.deref r = some (p.messagesLost msg).2 := deref_modify_self hp rfl
  refine EStateM.wp_bind .. |>.mpr (wp_modifyPeer.mpr ⟨fun _ _ => ?_, fun _ => trivial⟩)
  refine EStateM.wp_ite .. |>.mpr ⟨fun hlost => ?_, fun hcounts => ?_⟩
  · have hboth := EStateM.wp_and (removePeer_spec hp₁) removePeer_ages
    refine EStateM.wp_mono hboth ?_ fun _ _ _ => trivial
    rintro _ n₂ ⟨hbecomes, hages₂⟩
    refine ⟨fun Y _ => .trans (hages₁ Y) (hages₂ Y), fun p' hp' => ?_⟩
    have hentry : (n₂.view r.identity).entry = none := by
      rw [hbecomes.view, Views.at_self]
      rfl
    rw [view_entry, hp'] at hentry
    cases hentry
  · have hcounts : (p.messagesLost msg).1 = false := Bool.eq_false_iff.mpr hcounts
    have hboth := EStateM.wp_and (x := dispatch r msg) (dispatch_ages (live_of_deref hp₁)) (dispatch_gone hp₁)
    refine EStateM.wp_bind .. |>.mpr (EStateM.wp_mono hboth ?_ fun _ _ _ => trivial)
    rintro b n₂ ⟨hages₂, hgone⟩
    refine EStateM.wp_ite .. |>.mpr ⟨fun _ => ?_, fun hb => ⟨fun Y _ => .trans (hages₁ Y) (hages₂ Y),
      fun p' hp' => ?_⟩⟩
    · refine EStateM.wp_bind .. |>.mpr (EStateM.wp_get.mpr (wp_modifyPeer.mpr ⟨fun p₂ hp₂ =>
        ⟨fun Y hY p' hp' => ?_, fun p' hp' => ⟨hcounts, ?_⟩⟩, fun _ => trivial⟩))
      · simp only [AList.lookup_modify, if_neg hY] at hp'
        exact AgesAt.trans (hages₁ Y) (hages₂ Y) p' hp'
      · simp only [AList.lookup_modify, if_true, lookup_of_deref hp₂, Option.map_some,
          Option.some_inj] at hp'
        subst hp'
        exact ⟨rfl, rfl⟩
    · rw [hgone (Bool.eq_false_iff.mpr hb)] at hp'
      cases hp'

/-- A message restarts the deadlines of its sender, if it is taken and the sender is still there in the
end, and touches no others. -/
theorem recvMsg_times :
    (recvMsg env uuid msg).wp
      (fun _ n' => (∀ Y ≠ uuid.str, AgesAt Y n n') ∧ (¬Takes env n uuid.str msg → AgesAt uuid.str n n') ∧
        (Takes env n uuid.str msg → ∀ p', n'.peers.lookup uuid.str = some p' → Refreshed env n' p'))
      (fun _ _ => True) n := by
  -- Once the sender is known to be ready.
  have haccept : ∀ {n₁ : Node} {p₁ : Peer} {k : ℕ}, n₁.deref ⟨uuid.str, k⟩ = some p₁ →
      (∀ Y ≠ uuid.str, AgesAt Y n n₁) → ((p₁.messagesLost msg).1 = false → Takes env n uuid.str msg) →
      (acceptMsg env ⟨uuid.str, k⟩ msg).wp
        (fun _ n' => (∀ Y ≠ uuid.str, AgesAt Y n n') ∧
          (¬Takes env n uuid.str msg → AgesAt uuid.str n n') ∧
          (Takes env n uuid.str msg → ∀ p', n'.peers.lookup uuid.str = some p' → Refreshed env n' p'))
        (fun _ _ => True) n₁ := by
    intro n₁ p₁ k hp₁ hothers htakes
    refine EStateM.wp_mono (acceptMsg_times hp₁) (fun _ n' h => ?_) fun _ _ _ => trivial
    refine ⟨fun Y hY => (hothers Y hY).trans (h.1 Y hY), fun hnot p' hp' => ?_, fun _ p' hp' => ?_⟩
    · exact absurd (htakes (h.2 p' hp').1) hnot
    · exact (h.2 p' hp').2
  refine EStateM.wp_bind .. |>.mpr ?_
  rw [senderGate]
  by_cases hid : msg.id = .hello
  · rw [if_pos hid]
    refine EStateM.wp_mono (EStateM.wp_and (EStateM.wp_and helloGate_spec helloGate_admits)
      helloGate_times) ?_ fun _ _ _ => trivial
    rintro (_ | r) n₁ ⟨⟨hspec, hiff⟩, hothers, hself⟩
    · refine ⟨hothers, fun _ => hself rfl, fun htakes => ?_⟩
      rw [Takes, if_pos hid] at htakes
      exact absurd (hiff.mpr htakes.1) (by simp)
    · obtain ⟨v, q, -, hq, hready, rfl, hreaches⟩ := hspec
      obtain ⟨p, hp, rfl⟩ := deref_of_view (n := n₁) (X := uuid.str) (q := q)
        (by rw [hreaches.view]; exact hq)
      refine EStateM.wp_bind .. |>.mpr (wp_readPeer.mpr ⟨fun p' hp' => ?_, fun _ => trivial⟩)
      obtain rfl := Option.some_inj.mp (hp.symm.trans hp')
      have hready : p.ready = true := hready
      rw [if_pos hready]
      refine haccept hp hothers fun hcounts => ?_
      rw [Peer.messagesLost, if_pos hid] at hcounts
      rw [Takes, if_pos hid]
      exact ⟨hiff.mp rfl, (not_not.mp (of_decide_eq_false hcounts)).symm⟩
  · rw [if_neg hid]
    refine wp_lookupPeer.mpr ?_
    have hsame : ∀ Y ≠ uuid.str, AgesAt Y n n := fun _ _ => .refl
    cases hlook : n.peers.lookup uuid.str with
    | none =>
      refine ⟨hsame, fun _ => .refl, fun _ p' hp' => ?_⟩
      cases hlook.symm.trans hp'
    | some p =>
      refine EStateM.wp_bind .. |>.mpr (wp_readPeer.mpr ⟨fun q hq => ?_, fun _ => trivial⟩)
      obtain rfl := Option.some_inj.mp ((deref_of_lookup hlook).symm.trans hq)
      refine EStateM.wp_ite .. |>.mpr ⟨fun hready => ?_, fun hready => ?_⟩
      · refine haccept hq hsame fun hcounts => ?_
        rw [Peer.messagesLost, if_neg hid] at hcounts
        rw [Takes, if_neg hid]
        exact ⟨p, hlook, hready, not_not.mp (of_decide_eq_false hcounts)⟩
      · refine ⟨hsame, fun _ => .refl, fun htakes => ?_⟩
        rw [Takes, if_neg hid] at htakes
        obtain ⟨p', hp', hready', -⟩ := htakes
        obtain rfl := Option.some_inj.mp (hlook.symm.trans hp')
        exact absurd hready' hready

/-! ### One iteration -/

/-- **No command but REQUIRE PEER makes an entry**, and none writes a time stamp of one that is there. -/
theorem recvApi_ages {command : Command}
    (hc : ∀ uuid endpoint key, command ≠ .requirePeer uuid endpoint key) :
    (recvApi env command).Leads Ages n := by
  have hgossip : ∀ n : Node, gossipStart.Leads Ages n := by
    intro n
    refine Inherits.of_eq ?_
    show (if n.gossip = true then _ else _ : Node).peers = n.peers
    split_ifs <;> rfl
  cases command with
  | setName name => exact Inherits.of_eq rfl
  | setHeader name value => exact Inherits.of_eq rfl
  | setPort value => exact Inherits.of_eq rfl
  | setEvasiveTimeout value => exact Inherits.of_eq rfl
  | setExpiredTimeout value => exact Inherits.of_eq rfl
  | setContest group => exact .bind (Inherits.of_eq rfl) fun _ n₁ _ => Inherits.of_eq rfl
  | setAdvertisedEndpoint endpoint => exact Inherits.of_eq rfl
  | setEndpoint bound => exact .bind (hgossip n) fun _ n₁ _ => Inherits.of_eq rfl
  | setPublickey key => exact Inherits.of_eq rfl
  | setSecretkey key => exact Inherits.of_eq rfl
  | gossipBind => exact hgossip n
  | gossipConnect => exact hgossip n
  | start =>
    have hrest : EStateM.Leads Ages
        (if n.beaconPort ≠ 0 then do
          assert !n.beacon
          set { n with
            beaconVersion := if n.secretKey.isSome then beaconVersionV3 else n.beaconVersion
            beacon := true }
        else assert n.gossip) n := by
      refine .ite (fun _ => assert_ages (Inherits.of_eq rfl)) fun _ => ?_
      exact wp_assert.mpr ⟨fun _ => Inherits.of_eq rfl, fun _ => ⟨Inherits.of_eq rfl, trivial⟩⟩
    exact .get (.ite (fun _ => assert_ages hrest) fun _ => hrest)
  | stop =>
    have hrest : ∀ n : Node, EStateM.Leads Ages
        (do
          modify fun n => { n with beacon := false }
          let n ← get
          emit (.stop n.identity n.name)) n :=
      fun n => .bind (Inherits.of_eq rfl) fun _ n₁ _ => .get (emit_ages _)
    exact .get (.ite (fun _ => .bind sendPeers_ages fun _ n₁ _ => hrest n₁) fun _ => hrest n)
  | whisper identity content =>
    refine keeps_lookupPeer ?_
    cases n.peers.lookup identity with
    | none => exact .pure _
    | some p => exact peerSend_ages
  | shout group content => exact .get (.ite (fun _ => groupSend_ages) fun _ => .pure _)
  | join group =>
    refine .get (.ite (fun _ => .bind (Inherits.of_eq rfl) fun _ n₁ _ => .get ?_) fun _ => .pure _)
    exact sendPeers_ages
  | leave group =>
    refine .get (.ite (fun _ => .bind (Inherits.of_eq rfl) fun _ n₁ _ => .get ?_) fun _ => .pure _)
    exact .bind sendPeers_ages fun _ n₂ _ => Inherits.of_eq rfl
  | requirePeer uuid endpoint publicKey => exact absurd rfl (hc uuid endpoint publicKey)
  | peerName identity =>
    exact wp_assert.mpr ⟨fun _ => Inherits.of_eq rfl, fun _ => ⟨Inherits.of_eq rfl, trivial⟩⟩

/-- The pass writes no time stamp: it sends the PING, reports and removes, and the times are written by
`zyre_peer_refresh` alone. -/
theorem pingPeer_ages : (pingPeer env r).Leads Ages n := by
  refine readPeer_ages fun p _ => .ite (fun _ => removePeer_ages) fun _ => .ite (fun _ => ?_)
    fun _ => .pure _
  refine .bind peerSend_ages fun _ n₁ _ => .bind (emit_ages _) fun _ n₂ _ => .get ?_
  exact .ite (fun _ => emit_ages _) fun _ => .pure _

/-- A whole pass over the table leaves the times of the entries that stay. -/
theorem reap_ages {visited : List CStr} : (reap env visited).Leads Ages n := by
  refine .forM fun X _ n₁ _ => keeps_lookupPeer ?_
  cases n₁.peers.lookup X with
  | none => exact .pure _
  | some p => exact pingPeer_ages

/-- The input is a message from `X` that the node takes. -/
def Heard (env : Env) (n : Node) (input : Input) (X : CStr) : Prop :=
  ∃ frames uuid, input = .inbox frames ∧ senderOf frames = some uuid ∧ uuid.str = X ∧
    Takes env n X (Msg.recv frames).msg

/-- The entry of `X` is an object that was not there before. -/
def Created (n n' : Node) (X : CStr) : Prop :=
  ∃ p', n'.peers.lookup X = some p' ∧ ∀ p, n.peers.lookup X = some p → p.serial ≠ p'.serial

/-- Something is heard of `X`: its entry is made, or it sends a message that is taken. -/
def Active (env : Env) (n : Node) (input : Input) (n' : Node) (X : CStr) : Prop :=
  Heard env n input X ∨ Created n n' X

/-- An entry that has kept its times is not a new one. -/
theorem AgesAt.not_created (h : AgesAt X n n') : ¬Created n n' X := by
  rintro ⟨p', hp', hnew⟩
  obtain ⟨p, hp, htimes⟩ := h p' hp'
  exact hnew p hp (congrArg Prod.fst htimes)

/-- An input other than a message makes entries, with their first deadlines, or leaves the deadlines
alone. -/
theorem step_times_of_quiet (hinput : ∀ frames, input ≠ .inbox frames) :
    (Node.step env input).wp (fun _ n' => ∀ X, AgesAt X n n' ∨ n.peers.lookup X = none ∧
      ∀ p', n'.peers.lookup X = some p' → Refreshed env n p') (fun _ _ => True) n := by
  have hrequire : ∀ uuid endpoint key, (requirePeer env uuid endpoint key).wp
      (fun _ n' => ∀ X, AgesAt X n n' ∨ n.peers.lookup X = none ∧
        ∀ p', n'.peers.lookup X = some p' → Refreshed env n p') (fun _ _ => True) n := by
    intro uuid endpoint key
    refine EStateM.wp_mono requirePeer_times (fun _ n' h X => ?_) fun _ _ h => h
    by_cases hX : X = uuid.str
    · exact hX ▸ h.2.2
    · exact Or.inl (h.1 X hX)
  have hages : ∀ {x : NodeM Unit}, x.Leads Ages n → x.wp (fun _ n' => ∀ X, AgesAt X n n' ∨
      n.peers.lookup X = none ∧ ∀ p', n'.peers.lookup X = some p' → Refreshed env n p')
      (fun _ _ => True) n :=
    fun h => EStateM.wp_mono h (fun _ _ h X => Or.inl (h X)) fun _ _ _ => trivial
  have hsame : ∀ X, AgesAt X n n ∨ n.peers.lookup X = none ∧
      ∀ p', n.peers.lookup X = some p' → Refreshed env n p' := fun _ => Or.inl .refl
  cases input with
  | inbox frames => exact absurd rfl (hinput frames)
  | api command =>
    by_cases hc : ∃ uuid endpoint key, command = .requirePeer uuid endpoint key
    · obtain ⟨uuid, endpoint, key, rfl⟩ := hc
      refine EStateM.wp_bind .. |>.mpr (EStateM.wp_get.mpr (EStateM.wp_ite .. |>.mpr
        ⟨fun _ => EStateM.wp_bind .. |>.mpr (hrequire uuid endpoint key), fun _ => hsame⟩))
    · exact hages (recvApi_ages fun uuid endpoint key h => hc ⟨uuid, endpoint, key, h⟩)
  | beacon ipaddress frame publicKey =>
    refine EStateM.wp_bind .. |>.mpr (EStateM.wp_get.mpr (EStateM.wp_ite .. |>.mpr
      ⟨fun _ => hsame, fun _ => EStateM.wp_ite .. |>.mpr ⟨fun _ => hsame, fun _ =>
        EStateM.wp_ite .. |>.mpr ⟨fun _ => ?_, fun _ => ?_⟩⟩⟩))
    · exact EStateM.wp_bind .. |>.mpr (hrequire _ _ _)
    · refine EStateM.wp_bind .. |>.mpr (wp_lookupPeer.mpr ?_)
      cases n.peers.lookup (beaconUuid frame).str with
      | none => exact hsame
      | some p => exact hages removePeer_ages
  | gossip uuid service =>
    exact EStateM.wp_bind .. |>.mpr (EStateM.wp_get.mpr (EStateM.wp_ite .. |>.mpr
      ⟨fun _ => EStateM.wp_bind .. |>.mpr (hrequire _ _ _), fun _ => hsame⟩))
  | reap visited => exact hages reap_ages

/-- In one iteration the deadlines of a peer restart exactly if something is heard of it. -/
theorem step_deadlines (h : Node.step env input n = .ok ⟨⟩ n') (X : CStr) :
    (Active env n input n' X → ∀ p', n'.peers.lookup X = some p' → Refreshed env n p') ∧
      (¬Active env n input n' X → AgesAt X n n') := by
  -- A view that has aged is that of a peer nothing is heard of, unless it has been heard.
  have haged : AgesAt X n n' → ¬Heard env n input X →
      (Active env n input n' X → ∀ p', n'.peers.lookup X = some p' → Refreshed env n p') ∧
        (¬Active env n input n' X → AgesAt X n n') := by
    intro hages hnot
    refine ⟨fun hactive => ?_, fun _ => hages⟩
    rcases hactive with hheard | hcreated
    · exact absurd hheard hnot
    · exact absurd hcreated hages.not_created
  by_cases hinput : ∃ frames, input = .inbox frames
  · obtain ⟨frames, rfl⟩ := hinput
    cases hsender : senderOf frames with
    | none =>
      have hrun : recvPeer env frames n = .ok ⟨⟩ n' := h
      rw [recvPeer_of_none hsender] at hrun
      obtain rfl := EStateM.wp_of_ok (E := fun _ _ => True) (Q := fun _ n' => n = n') hrun rfl
      refine haged .refl ?_
      rintro ⟨frames', uuid, hframes, hsender', -⟩
      obtain rfl := Input.inbox.inj hframes
      exact nomatch hsender.symm.trans hsender'
    | some uuid =>
      have hrun : recvMsg env uuid (Msg.recv frames).msg n = .ok ⟨⟩ n' := recvPeer_of_sender hsender ▸ h
      obtain ⟨hothers, hnot, htakes⟩ := (EStateM.wp_of_ok hrun recvMsg_times :)
      have hheard : Heard env n (.inbox frames) X → X = uuid.str ∧
          Takes env n X (Msg.recv frames).msg := by
        rintro ⟨frames', uuid', hframes, hsender', hX, htakes'⟩
        obtain rfl := Input.inbox.inj hframes
        obtain rfl := Option.some_inj.mp (hsender.symm.trans hsender')
        exact ⟨hX.symm, htakes'⟩
      by_cases hX : X = uuid.str
      · subst hX
        by_cases htaken : Takes env n uuid.str (Msg.recv frames).msg
        · obtain ⟨v, -, hreaches⟩ := (EStateM.wp_of_ok hrun recvMsg_spec :)
          have hevasive : n'.evasiveTimeout = n.evasiveTimeout :=
            (congrArg Node.evasiveTimeout hreaches.own :)
          have hexpired : n'.expiredTimeout = n.expiredTimeout :=
            (congrArg Node.expiredTimeout hreaches.own :)
          refine ⟨fun _ p' hp' => ?_, fun hquiet => ?_⟩
          · have hrefreshed := htakes htaken p' hp'
            rwa [Refreshed, hevasive, hexpired] at hrefreshed
          · exact absurd (Or.inl ⟨frames, uuid, rfl, hsender, rfl, htaken⟩) hquiet
        · exact haged (hnot htaken) fun hheard' => htaken (hheard hheard').2
      · exact haged (hothers X hX) fun hheard' => hX (hheard hheard').1
  · have hquiet : ∀ frames, input ≠ .inbox frames := fun frames hframes => hinput ⟨frames, hframes⟩
    have hnot : ¬Heard env n input X := by
      rintro ⟨frames, -, hframes, -⟩
      exact hquiet frames hframes
    rcases (EStateM.wp_of_ok h (step_times_of_quiet hquiet) :) X with hages | ⟨hnone, hrefreshed⟩
    · exact haged hages hnot
    · refine ⟨fun _ => hrefreshed, fun hinactive p' hp' => ?_⟩
      exact absurd (Or.inr ⟨p', hp', fun p hp => nomatch hnone.symm.trans hp⟩) hinactive

end Node

end Zyre
