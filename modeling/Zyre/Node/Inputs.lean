import Zyre.Node.Hazard

/-!
# Every iteration of the actor loop as changes

With the exception of JOIN and LEAVE by the application, which alone change the node's own groups,
an iteration is a sequence of changes. So every reachable state is sturdy.
-/

namespace Zyre

/-- The commands that change the node's own groups. -/
def Command.regroups : Command → Bool
  | .join _ | .leave _ => true
  | _ => false

namespace Node

variable {n n' : Node} {r : PeerRef} {p : Peer} {name X : CStr} {msg : Msg} {env : Env}
  {uuid : Uuid} {D : Set CStr} {B : Prop}

/-! ### Commands of the application -/

theorem sendPeers_changes (hid : msg.id ∈ talk) :
    (sendPeers msg).Keeps (Changes D) (Blame B) n :=
  keeps_of_moves ((sendPeers_keeps hid).mono fun _ => Sends.moves) fun _ _ => Or.inl

theorem gossipStart_changes : gossipStart.Keeps (Changes D) (Blame B) n := by
  refine modify_changes ?_
  split_ifs
  · exact .know rfl rfl rfl rfl rfl rfl rfl
  · exact .know rfl rfl rfl rfl rfl rfl rfl

/-- Starting the node may fail an assertion and changes no entry. -/
theorem start_changes : start.Keeps (Changes D) (Blame True) n := by
  refine .get ?_
  have hblame : ∀ f n', Blame True f n' := fun _ _ => Or.inr (Or.inr trivial)
  have hrest : EStateM.Keeps (Changes D) (Blame True)
      (if n.beaconPort ≠ 0 then do
        assert !n.beacon
        set { n with
          beaconVersion := if n.secretKey.isSome then beaconVersionV3 else n.beaconVersion
          beacon := true }
      else assert n.gossip) n := by
    refine .ite (fun _ => keeps_assert (fun _ => ?_) fun _ => hblame _ _) fun _ => ?_
    · exact Relation.ReflTransGen.single (.know rfl rfl rfl rfl rfl rfl rfl)
    · exact wp_assert.mpr ⟨fun _ => .refl, fun _ => ⟨.refl, hblame _ _⟩⟩
  exact .ite (fun _ => keeps_assert (fun _ => hrest) fun _ => hblame _ _) fun _ => hrest

/-- Stopping the node removes nobody. -/
theorem stop_changes : stop.Keeps (Changes D) (Blame B) n := by
  have hrest : ∀ n : Node, EStateM.Keeps (Changes D) (Blame B)
      (do
        modify fun n => { n with beacon := false }
        let n ← get
        emit (.stop n.identity n.name)) n :=
    fun n => .bind (modify_changes (.know rfl rfl rfl rfl rfl rfl rfl)) fun _ n₁ _ =>
      .get (emit_changes _)
  refine .get (.ite (fun _ => ?_) fun _ => hrest n)
  exact .bind (sendPeers_changes (by simp [talk, Msg.new])) fun _ n₁ _ => hrest n₁

/-- A command that leaves the node's own groups as they are. -/
theorem recvApi_changes {command : Command} (h : command.regroups = false) :
    (recvApi env command).Keeps (Changes ∅) (Blame True) n := by
  cases command with
  | setName name => exact modify_changes (.know rfl rfl rfl rfl rfl rfl rfl)
  | setHeader name value => exact modify_changes (.know rfl rfl rfl rfl rfl rfl rfl)
  | setPort value => exact modify_changes (.know rfl rfl rfl rfl rfl rfl rfl)
  | setEvasiveTimeout value => exact modify_changes (.know rfl rfl rfl rfl rfl rfl rfl)
  | setExpiredTimeout value => exact modify_changes (.know rfl rfl rfl rfl rfl rfl rfl)
  | setContest group =>
    exact .bind requirePeerGroup_changes fun _ n₁ _ => modify_changes (.contest group)
  | setAdvertisedEndpoint endpoint => exact modify_changes (.know rfl rfl rfl rfl rfl rfl rfl)
  | setEndpoint bound =>
    exact .bind gossipStart_changes fun _ n₁ _ =>
      modify_changes (.know rfl rfl rfl rfl rfl rfl rfl)
  | setPublickey key => exact modify_changes (.know rfl rfl rfl rfl rfl rfl rfl)
  | setSecretkey key => exact modify_changes (.know rfl rfl rfl rfl rfl rfl rfl)
  | gossipBind => exact gossipStart_changes
  | gossipConnect => exact gossipStart_changes
  | start => exact start_changes
  | stop => exact stop_changes
  | whisper identity content =>
    refine keeps_lookupPeer ?_
    cases hlook : n.peers.lookup identity with
    | none => exact .pure _
    | some p =>
      exact peerSend_changes (by simp [talk, Msg.new]) (live_of_deref (deref_of_lookup hlook))
  | shout group content =>
    refine .get (.ite (fun _ => ?_) fun _ => .pure _)
    refine keeps_of_moves ((groupSend_keeps ?_).mono fun _ => Sends.moves) fun _ _ => Or.inl
    simp [talk, Msg.setGroup, Msg.new]
  | join group => cases h
  | leave group => cases h
  | requirePeer uuid endpoint publicKey =>
    exact .get (.ite (fun _ => .bind requirePeer_any fun _ _ _ => .pure _) fun _ => .pure _)
  | peerName identity =>
    refine keeps_lookupPeer (wp_assert.mpr ⟨fun _ => .refl, fun _ => ⟨.refl, ?_⟩⟩)
    exact Or.inr (Or.inr trivial)

/-! ### Beacons, gossip and the timer -/

theorem removePeer_any (hr : n.Live r) :
    (removePeer r).Keeps (Changes Set.univ) (Blame True) n :=
  removePeer_changes hr (Set.mem_univ _) fun _ => trivial

/-- A beacon may add an entry or remove one. -/
theorem recvBeacon_changes {ipaddress : CStr} {frame : Frame} {publicKey : CStr} :
    (recvBeacon env ipaddress frame publicKey).Keeps (Changes Set.univ) (Blame True) n := by
  refine .get (.ite (fun _ => .pure _) fun _ => .ite (fun _ => .pure _) fun _ => ?_)
  refine .ite (fun _ => .bind requirePeer_any fun _ _ _ => .pure _) fun _ => keeps_lookupPeer ?_
  cases hlook : n.peers.lookup (beaconUuid frame).str with
  | none => exact .pure _
  | some p => exact removePeer_any (live_of_deref (deref_of_lookup hlook))

/-- A gossip announcement removes nobody. -/
theorem recvGossip_changes {service : CStr} :
    (recvGossip env uuid service).Keeps (Changes ∅) (Blame True) n :=
  .get (.ite (fun _ => .bind requirePeer_any fun _ _ _ => .pure _) fun _ => .pure _)

/-- A pass over a peer that has not expired removes nobody. -/
theorem pingPeer_changes (hp : n.deref r = some p) (hexpired : ¬p.expiredAt.toInt64 ≤ env.now) :
    (pingPeer env r).Keeps (Changes D) (Blame B) n :=
  keeps_of_moves ((pingPeer_keeps hp hexpired).mono fun _ h => h.mono (by simp [talk]))
    fun _ _ => Or.inl

/-- A pass may remove any peer. -/
theorem reap_changes {visited : List CStr} :
    (reap env visited).Keeps (Changes Set.univ) (Blame True) n := by
  refine .forM fun X _ n₁ _ => keeps_lookupPeer ?_
  cases hlook : n₁.peers.lookup X with
  | none => exact .pure _
  | some p =>
    have hderef := deref_of_lookup hlook
    by_cases hexpired : p.expiredAt.toInt64 ≤ env.now
    · refine keeps_readPeer_of_live (live_of_deref hderef) fun q hq => .ite (fun _ => ?_) fun h => ?_
      · exact removePeer_any (live_of_deref hderef)
      · cases hderef.symm.trans hq
        exact absurd hexpired h
    · exact pingPeer_changes hderef hexpired

/-! ### One iteration -/

/-- **Whatever the input**, the node changes as `Changes` says, commands that change its groups aside. -/
theorem step_changes {input : Input} (h : ∀ c, input = .api c → c.regroups = false) :
    (Node.step env input).Keeps (Changes Set.univ) (Blame True) n := by
  have huniv : ∀ {D : Set CStr} {x : NodeM Unit}, x.Keeps (Changes D) (Blame True) n →
      x.Keeps (Changes Set.univ) (Blame True) n :=
    fun hx => hx.mono fun _ h => h.mono (Set.subset_univ _)
  cases input with
  | inbox frames =>
    simp only [Node.step]
    cases hsender : senderOf frames with
    | none =>
      rw [recvPeer_of_none hsender]
      exact .pure _
    | some uuid =>
      rw [recvPeer_of_sender hsender]
      exact recvMsg_changes (fun _ => Set.mem_univ _) (fun _ => trivial) fun _ => trivial
  | api command => exact huniv (recvApi_changes (h command rfl))
  | beacon ipaddress frame publicKey => exact recvBeacon_changes
  | gossip uuid service => exact huniv recvGossip_changes
  | reap visited => exact reap_changes

/-- The node before and after a command that changes its own groups, in between the messages. -/
theorem recvApi_regroups {command : Command} (h : command.regroups = true) :
    (recvApi env command).wp
      (fun _ n' => ∃ own status own' n₁, Moves Set.univ { n with ownGroups := own, status := status } n₁ ∧
        n' = { n₁ with ownGroups := own' }) (fun _ _ => True) n := by
  have hdone : ∃ own status own' n₁,
      Moves Set.univ { n with ownGroups := own, status := status } n₁ ∧
        n = { n₁ with ownGroups := own' } := ⟨n.ownGroups, n.status, n.ownGroups, n, .refl, rfl⟩
  have hsend : ∀ (n : Node) (msg : Msg),
      (sendPeers msg).wp (fun _ n' => Moves Set.univ n n') (fun _ _ => True) n :=
    fun n msg => EStateM.wp_mono (sendPeers_keeps (Set.mem_univ _)) (fun _ _ h => h.moves)
      fun _ _ _ => trivial
  cases command with
  | join group =>
    simp only [recvApi, apiJoin, EStateM.wp_bind, EStateM.wp_get, EStateM.wp_ite, EStateM.wp_modify,
      EStateM.wp_pure]
    refine ⟨fun _ => ?_, fun _ => hdone⟩
    refine EStateM.wp_mono (hsend _ _) (fun _ n₁ h => ?_) fun _ _ _ => trivial
    exact ⟨_, _, n₁.ownGroups, n₁, h, rfl⟩
  | leave group =>
    simp only [recvApi, apiLeave, EStateM.wp_bind, EStateM.wp_get, EStateM.wp_ite, EStateM.wp_modify,
      EStateM.wp_pure]
    refine ⟨fun _ => ?_, fun _ => hdone⟩
    refine EStateM.wp_mono (hsend _ _) (fun _ n₁ h => ?_) fun _ _ _ => trivial
    exact ⟨_, _, _, n₁, h, rfl⟩
  | _ => cases h

/-- A node keeps its UUID. -/
theorem step_uuid {input : Input} :
    (Node.step env input).wp (fun _ n' => n'.uuid = n.uuid) (fun _ _ => True) n := by
  by_cases h : ∃ c, input = .api c ∧ c.regroups = true
  · obtain ⟨c, rfl, hc⟩ := h
    refine EStateM.wp_mono (recvApi_regroups hc) ?_ fun _ _ h => h
    rintro _ n' ⟨own, status, own', n₁, hmoves, rfl⟩
    exact (congrArg Node.uuid hmoves.own :)
  · have hc : ∀ c, input = .api c → c.regroups = false := by
      intro c hinput
      by_contra hregroups
      exact h ⟨c, hinput, by simpa using hregroups⟩
    exact EStateM.wp_mono (step_changes hc) (fun _ _ h => h.uuid) fun _ _ _ => trivial

/-! ### Every reachable state is sturdy -/

/-- **One step** keeps the node sturdy, whatever the input, if it returns. -/
theorem Sturdy.step {input : Input} (hn : n.Sturdy) :
    (Node.step env input).wp (fun _ n' => n'.Sturdy) (fun _ _ => True) n := by
  by_cases h : ∃ c, input = .api c ∧ c.regroups = true
  · obtain ⟨c, rfl, hc⟩ := h
    refine EStateM.wp_mono (recvApi_regroups hc) ?_ fun _ _ h => h
    rintro _ n' ⟨own, status, own', n₁, hmoves, rfl⟩
    have hn₀ : Sturdy { n with ownGroups := own, status := status } := hn.congr rfl rfl rfl rfl
    exact (hn₀.moves hmoves).congr rfl rfl rfl rfl
  · have hc : ∀ c, input = .api c → c.regroups = false := by
      intro c hinput
      by_contra hregroups
      exact h ⟨c, hinput, by simpa using hregroups⟩
    exact EStateM.wp_mono (step_changes hc) (fun _ _ h => hn.changes h) fun _ _ _ => trivial

/-- So every reachable node is. -/
theorem sturdy_of_reachable (h : Reachable n) : n.Sturdy := by
  induction h with
  | new uuid endpoint =>
    refine ⟨fun name X r hr => ?_, ?_, fun X p hp => ?_⟩
    · cases hr
    · rintro ⟨name, g, e, hg, -⟩
      cases hg
    · cases hp
  | step env input hn h ih => exact (EStateM.wp_of_ok h ih.step :)

end Node

end Zyre
