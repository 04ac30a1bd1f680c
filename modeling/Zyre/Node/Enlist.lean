import Zyre.Node.Ballot

/-!
# Joining a group and contesting it

The commands SET CONTEST and JOIN send JOIN at most (`step_setContest`, `step_join`). The node that receives
JOIN lists the sender as a member, and starts an election if it is a member itself and contests the group
(`step_enlists`).
-/

namespace Zyre

open Echo

/-- The JOIN that a node with this status sends. -/
def joinMsg (g : CStr) (status : UInt8) : Msg := { (Msg.new .join).setGroup g with status := status }

namespace Node

variable {n n₁ n' : Node} {g X Y Z : CStr} {e : Option Election} {out : CStr → List Msg} {r : PeerRef}
  {p : Peer} {msg : Msg} {heard : UInt16} {status : UInt8}

/-- The node is a member of the group and contests it. -/
def Keen (n : Node) (g : CStr) : Prop := g ∈ n.ownGroups ∧ n.contested g = true

theorem keen_congr (hown : n'.ownGroups = n.ownGroups) (hcontested : n'.contested g = n.contested g) :
    n'.Keen g ↔ n.Keen g := by
  rw [Keen, hown, hcontested, Keen]

instance : Decidable (n.Keen g) := inferInstanceAs (Decidable (_ ∧ _))

/-! ### The commands -/

theorem Fathered.congr (hn : n.Fathered g) (helection : n'.groupElection g = n.groupElection g)
    (hlive : ∀ f, n.Live f → n'.Live f) : n'.Fathered g := by
  intro f hf
  rw [Fathers, helection] at hf
  exact hlive f (hn f hf)

/-- The node has sent `out`, and takes the same part in the group's election. -/
structure Speaks (g : CStr) (out : CStr → List Msg) (n n' : Node) : Prop where
  uuid : n'.uuid = n.uuid
  members : n'.members = n.members
  election : n'.groupElection g = n.groupElection g
  fathered : n.Fathered g → n'.Fathered g
  outbox : n'.outbox = n.outbox
  converses : ∀ Y, Converses Y 0 0 out n n'

theorem Speaks.voters (h : Speaks g out n n') : n'.voters g = n.voters g := voters_congr h.members

theorem Speaks.identity (h : Speaks g out n n') : n'.identity = n.identity := congrArg Uuid.str h.uuid

/-- SET CONTEST. -/
theorem step_setContest (env : Env) : ∃ n', Node.step env (.api (.setContest g)) n = .ok ⟨⟩ n' ∧
    n'.contested g = true ∧ n'.own = n.own ∧ Speaks g (fun _ => []) n n' := by
  set n' : Node := { n with peerGroups := (n.peerGroups.insertNew g .new).modify g fun group =>
    { group with contest := true } } with hn'
  have helection : n'.groupElection g = n.groupElection g := by
    simp only [hn', groupElection, AList.lookup_modify_self, lookup_insertNew_self]
    cases n.peerGroups.lookup g <;> rfl
  refine ⟨n', rfl, by simp [hn', contested, lookup_insertNew_self], rfl, ?_⟩
  exact {
    uuid := rfl
    members := (members_modify (f := fun group => { group with contest := true }) fun _ _ => rfl).trans
      members_insertNew
    election := helection
    fathered := fun hn => hn.congr helection fun _ hf => hf
    outbox := rfl
    converses := fun Y => .of_posts rfl fun _ => .of_eq rfl rfl }

/-- JOIN of a group the node is in. -/
theorem step_join_of_mem (env : Env) (hg : g ∈ n.ownGroups) :
    Node.step env (.api (.join g)) n = .ok ⟨⟩ n :=
  apiJoin_of_mem hg

/-- A message to all peers always gets away. -/
theorem sendPeers_sends {K : Set MsgId} (hid : msg.id ∈ K) :
    (sendPeers msg).Keeps (Sends K) (fun _ _ => False) n := by
  refine .get (.forM fun e he n' hn' => ?_)
  have hlive := (hn'.live _).mpr (live_of_deref (deref_of_lookup (AList.mem_lookup_iff.mpr he)))
  exact wp_peerSend.mpr ⟨fun p hp hc => .single ⟨_, p, msg, hp, hc, hid⟩, fun _ _ _ => .refl,
    fun hnone => absurd hlive (not_live.mpr hnone)⟩

/-- JOIN of a group the node is not in. -/
theorem step_join (env : Env) (hg : g ∉ n.ownGroups) : ∃ n', Node.step env (.api (.join g)) n = .ok ⟨⟩ n' ∧
    n'.ownGroups = n.ownGroups ++ [g] ∧ n'.status = n.status + 1 ∧ n'.contested = n.contested ∧
    Speaks g (fun Z => if Z ∈ n.peers then [joinMsg g (n.status + 1)] else []) n n' := by
  set n₁ : Node := { n with ownGroups := n.ownGroups ++ [g], status := n.status + 1 } with hn₁
  -- The group and the status are set before JOIN is sent, which bears the new status.
  have hwp : (apiJoin g).wp (fun _ n' => Mailing (fun Z => if Z ∈ n.peers then [joinMsg g (n.status + 1)] else [])
      n₁ n' ∧ Sends {.join} n₁ n') (fun _ _ => False) n := by
    refine EStateM.wp_bind .. |>.mpr (EStateM.wp_get.mpr (EStateM.wp_ite .. |>.mpr
      ⟨fun _ => ?_, fun h => absurd hg h⟩))
    refine EStateM.wp_bind .. |>.mpr (EStateM.wp_modify _ |>.mpr (EStateM.wp_bind .. |>.mpr
      (EStateM.wp_get.mpr ?_)))
    show (sendPeers (joinMsg g (n.status + 1))).wp _ _ n₁
    exact EStateM.wp_mono (EStateM.wp_and sendPeers_mailing (sendPeers_sends (K := {.join}) rfl))
      (fun _ _ h => h) fun _ _ h => h.2.2
  obtain ⟨_, n', hok, hmailing, hsends⟩ := EStateM.exists_of_wp hwp
  have hgroups : n'.peerGroups = n.peerGroups := hmailing.peerGroups
  have helection : n'.groupElection g = n.groupElection g := by simp only [groupElection, hgroups]
  refine ⟨n', hok, (congrArg Node.ownGroups hmailing.own :), (congrArg Node.status hmailing.own :), ?_, ?_⟩
  · funext name
    simp only [contested, hgroups]
  · exact {
      uuid := (congrArg Node.uuid hmailing.own :)
      members := hmailing.members
      election := helection
      fathered := fun hn => hn.congr helection fun f hf => (hsends.live f).mpr hf
      outbox := hmailing.outbox
      converses := fun Y => .of_posts hmailing.keys fun Z => hmailing.posts Z }

/-! ### JOIN from another node -/

/-- No message changes which groups a node contests. -/
theorem contested_of_inbox {env : Env} {frames : List Frame}
    (h : Node.step env (.inbox frames) n = .ok ⟨⟩ n') : n'.contested g = n.contested g :=
  Deeds.contested (Leaves.deeds (Or.inl ⟨_, h⟩)) fun hname => by cases contests_inputScope hname

/-- The election a node starts. -/
theorem startElection_votes (hgroup : (n.peerGroups.lookup g).isSome = true) (hnamed : n.Named g) :
    (startElection g).wp (fun _ n' => Votes g (some (Election.new.setCaw n.identity))
      (fun Z => if Z ∈ n.voters g then [ballot g (.elect n.identity)] else []) [] n n') (fun _ _ => True) n := by
  obtain ⟨group, hgroup⟩ := Option.isSome_iff_exists.mp hgroup
  refine EStateM.wp_bind .. |>.mpr (EStateM.wp_get.mpr (EStateM.wp_bind .. |>.mpr (wp_setElection.mpr ?_)))
  have hset := votes_modify (n := n) (g := g)
    (f := fun group => { group with election := some (Election.new.setCaw n.identity) }) fun _ => rfl
  rw [hgroup] at hset
  refine EStateM.wp_bind .. |>.mpr (wp_setLeader_votes fun n₂ hunseat => ?_)
  have hn₂ := hset.after (hset.election ▸ hunseat)
  rw [buildElectMsg_of_caw (e := Election.new.setCaw n.identity) rfl]
  refine EStateM.wp_bind .. |>.mpr (EStateM.wp_pure .. |>.mpr ?_)
  refine EStateM.wp_mono (groupSend_mailing (hnamed.congr hn₂.members)) (fun _ n' h => ?_) fun _ _ h => h
  refine (hn₂.after (hn₂.election ▸ h.votes)).congr fun Z => ?_
  rw [hn₂.members]
  exact if_congr mem_voters.symm rfl rfl

/-- `Y` has been listed in the group, and the node holds the election `e` and has sent `out`. -/
structure Enlists (Y g : CStr) (heard : UInt16) (e : Option Election) (out : CStr → List Msg) (n n' : Node) :
    Prop where
  own : n'.own = n.own
  voters : n'.voters g = insert Y (n.voters g)
  election : n'.groupElection g = e
  leaders : leadersIn g n'.outbox = leadersIn g n.outbox
  converses : Converses Y heard 1 out n n'

/-- The sender is listed. -/
theorem wp_joinPeerGroup_enlists {Q : Unit → Node → Prop} (hnamed : n.Named g)
    (h : ∀ n₁, (n₁.peerGroups.lookup g).isSome = true → n₁.Named g → n₁.contested = n.contested →
      Enlists r.identity g 0 (n.groupElection g) (fun _ => []) n n₁ → Q ⟨⟩ n₁) :
    (joinPeerGroup r g).wp Q (fun _ _ => True) n := by
  refine EStateM.wp_bind .. |>.mpr (wp_requirePeerGroup.mpr (EStateM.wp_bind .. |>.mpr
    (EStateM.wp_bind .. |>.mpr (wp_modifyGroup.mpr (wp_modifyPeer.mpr ⟨fun p hp => ?_, fun _ => trivial⟩)))))
  refine EStateM.wp_bind .. |>.mpr (wp_readPeer.mpr ⟨fun q hq => wp_emit.mpr ?_, fun _ => trivial⟩)
  set groups := (n.peerGroups.insertNew g .new).modify g (·.join r) with hgroups
  have hlookup : groups.lookup g = some (((n.peerGroups.lookup g).getD .new).join r) := by
    rw [hgroups, AList.lookup_modify_self, lookup_insertNew_self, Option.map_some]
  have hmembers : members { n with peerGroups := groups } g = (n.members g).insertNew r.identity r := by
    simp only [members, hlookup]
    rfl
  have hcount : Converses r.identity 0 1 (fun _ => []) n { n with
      peers := n.peers.modify r.identity fun p => { p with status := p.status + 1 } } :=
    .modify fun p _ => ⟨rfl, rfl, rfl, (UInt16.add_zero _).symm, (UInt16.add_zero _).symm⟩
  refine h _ ?_ (fun e he => ?_) ?_ ?_
  · exact Option.isSome_iff_exists.mpr ⟨_, hlookup⟩
  · have he : e ∈ (members { n with peerGroups := groups } g).entries := he
    rw [hmembers] at he
    have hlookup' := AList.mem_lookup_iff.mpr he
    -- `zyre_group_join` keeps the entry of a peer that is a member already.
    rw [AList.lookup_insertNew] at hlookup'
    split_ifs at hlookup' with hkey
    · rw [hkey, ← Option.some_inj.mp hlookup']
      cases hr : (n.members g).lookup r.identity with
      | none => rfl
      | some r' => exact hnamed ⟨r.identity, r'⟩ (AList.mem_lookup_iff.mp hr)
    · exact hnamed e (AList.mem_lookup_iff.mp hlookup')
  · exact (contested_modify (f := (·.join r)) fun _ => rfl).trans contested_insertNew
  · exact {
      own := rfl
      voters := by
        show voters { n with peerGroups := groups } g = _
        ext Z
        rw [mem_voters, hmembers, AList.mem_insertNew, Finset.mem_insert, mem_voters]
      election := by
        show groupElection { n with peerGroups := groups } g = _
        simp only [groupElection, hlookup]
        cases n.peerGroups.lookup g <;> rfl
      leaders := by
        show leadersIn g (n.outbox ++ [_]) = _
        rw [leadersIn_append]
        exact List.append_nil _
      converses := ⟨hcount.keys, hcount.progress, hcount.outgoing⟩ }

/-- JOIN starts an election where the node is a member that contests the group. -/
theorem recvJoin_enlists (hnamed : n.Named msg.group) :
    (recvJoin r msg).wp (fun _ n' => Enlists r.identity msg.group 0
      (if n.Keen msg.group then some (Election.new.setCaw n.identity) else n.groupElection msg.group)
      (fun Z => if n.Keen msg.group ∧ Z ∈ insert r.identity (n.voters msg.group) then
        [ballot msg.group (.elect n.identity)] else []) n n') (fun _ _ => True) n := by
  refine EStateM.wp_bind .. |>.mpr (wp_joinPeerGroup_enlists hnamed fun n₁ hgroup hnamed₁ hcontested hn₁ => ?_)
  refine EStateM.wp_bind .. |>.mpr (wp_readPeer.mpr ⟨fun p _ => ?_, fun _ => trivial⟩)
  refine EStateM.wp_bind .. |>.mpr (wp_assert.mpr ⟨fun _ => ?_, fun _ => trivial⟩)
  have hown : n₁.ownGroups = n.ownGroups := (congrArg Node.ownGroups hn₁.own :)
  have hidentity : n₁.identity = n.identity := (congrArg Node.identity hn₁.own :)
  have hkeen : n₁.Keen msg.group ↔ n.Keen msg.group := keen_congr hown (congrFun hcontested _)
  -- The two ways out without an election: not a member, or not contesting the group.
  have hnot : ¬n₁.Keen msg.group → Enlists r.identity msg.group 0
      (if n.Keen msg.group then some (Election.new.setCaw n.identity) else n.groupElection msg.group)
      (fun Z => if n.Keen msg.group ∧ Z ∈ insert r.identity (n.voters msg.group) then
        [ballot msg.group (.elect n.identity)] else []) n n₁ := by
    intro hnot
    rw [hkeen] at hnot
    simpa only [hnot, if_false, false_and] using hn₁
  refine EStateM.wp_bind .. |>.mpr (EStateM.wp_get.mpr (EStateM.wp_ite .. |>.mpr ⟨fun hmem => ?_, fun hmem =>
    hnot fun h => hmem h.1⟩))
  refine EStateM.wp_bind .. |>.mpr (wp_getGroup.mpr (EStateM.wp_ite .. |>.mpr ⟨fun hcontest => ?_,
    fun hcontest => hnot fun h => hcontest h.2⟩))
  refine EStateM.wp_mono (startElection_votes hgroup hnamed₁) (fun _ n' hvotes => ?_) fun _ _ h => h
  rw [hidentity, hn₁.voters] at hvotes
  have hkeen' : n.Keen msg.group := hkeen.mp ⟨hmem, hcontest⟩
  have hconverses := hn₁.converses.trans (hvotes.converses r.identity)
  simp only [hkeen', if_true, true_and]
  exact {
    own := hvotes.own.trans hn₁.own
    voters := hvotes.voters.trans hn₁.voters
    election := hvotes.election
    leaders := by rw [hvotes.leaders, List.append_nil, hn₁.leaders]
    converses := by simpa using hconverses }

/-- So does the whole message. -/
theorem acceptMsg_enlists (env : Env) (hp : n.deref r = some p) (hsequence : msg.sequence = p.wantSequence + 1)
    (hid : msg.id = .join) (hgroup : msg.group = g) (hnamed : n.Named g) :
    (acceptMsg env r msg).wp (fun _ n' => Enlists r.identity g 1
      (if n.Keen g then some (Election.new.setCaw n.identity) else n.groupElection g)
      (fun Z => if n.Keen g ∧ Z ∈ insert r.identity (n.voters g) then
        [ballot g (.elect n.identity)] else []) n n') (fun _ _ => True) n := by
  subst hgroup
  refine wp_acceptMsg_notes hp hsequence (by rw [hid]; exact MsgId.noConfusion) fun n₁ hn₁ => ?_
  simp only [dispatch, hid]
  refine EStateM.wp_bind .. |>.mpr (EStateM.wp_mono (recvJoin_enlists (hnamed.congr hn₁.members))
    (fun _ n₂ hn₂ => ?_) fun _ _ h => h)
  refine ⟨rfl, fun n' hn' => ?_⟩
  have hown : n₁.ownGroups = n.ownGroups := (congrArg Node.ownGroups hn₁.own :)
  have hkeen : n₁.Keen msg.group ↔ n.Keen msg.group :=
    keen_congr hown (by rw [contested, hn₁.peerGroups, contested])
  simp only [hkeen, hn₁.identity, hn₁.voters, hn₁.groupElection] at hn₂
  have hconverses := (hn₁.converses.trans hn₂.converses).trans hn'.converses
  exact {
    own := hn'.own.trans (hn₂.own.trans hn₁.own)
    voters := hn'.voters.trans (hn₂.voters.trans (by rw [hn₁.voters]))
    election := hn'.groupElection.trans hn₂.election
    leaders := by rw [hn'.outbox, hn₂.leaders, hn₁.outbox]
    converses := by simpa using hconverses }

theorem fits_joinMsg (g : CStr) (status : UInt8) (k : UInt16) : ((joinMsg g status).setSequence k).Fits := by
  constructor
  · exact MsgId.noConfusion
  · exact fun h => by cases h
  · exact fun h => by cases h
  · exact fun _ => Nat.lt_succ_of_le (CStr.length_truncate_le _ _)

/-- Nothing goes wrong when a node receives JOIN with the status it expects. -/
theorem step_enlists (env : Env) (uuid : Uuid) (hn : n.Sturdy) (hfathered : n.Fathered g)
    (hp : n.peers.lookup uuid.str = some p) (hready : p.ready = true) (hg : g.length ≤ Msg.fieldSize)
    (hstatus : status = p.status + 1) :
    ∃ n', Node.step env (.inbox ((1 :: uuid.data) ::
        ((joinMsg g status).setSequence (p.wantSequence + 1)).frames)) n = .ok ⟨⟩ n' ∧ n'.Fathered g ∧
      Enlists uuid.str g 1
        (if n.Keen g then some (Election.new.setCaw n.identity) else n.groupElection g)
        (fun Z => if n.Keen g ∧ Z ∈ insert uuid.str (n.voters g) then
          [ballot g (.elect n.identity)] else []) n n' := by
  obtain ⟨hrc, hidentity, hcarries⟩ := carries_recv (fits_joinMsg g status (p.wantSequence + 1)) (1 :: uuid.data)
  have hid : _ = MsgId.join := hcarries.id
  have hsequence := hcarries.sequence
  obtain ⟨hgroup, hstatus'⟩ := hcarries.group (Or.inl rfl)
  have hgroup : _ = g := hgroup.trans (CStr.truncate_of_length_le hg)
  have hstatus' : _ = p.status + 1 := hstatus'.trans hstatus
  have hsender := senderOf_of_recv hrc hidentity
  rw [Node.step, recvPeer_of_sender hsender]
  generalize (Msg.recv ((1 :: uuid.data) ::
    ((joinMsg g status).setSequence (p.wantSequence + 1)).frames)).msg = msg at *
  have hderef := deref_of_lookup hp
  have hne : msg.id ≠ .hello := by rw [hid]; exact MsgId.noConfusion
  -- The sequence number and the status are the expected ones, so that no assertion can fail.
  have hchanges : (acceptMsg env ⟨uuid.str, p.serial⟩ msg).Keeps (Changes ∅) (Blame False) n := by
    refine acceptMsg_changes hderef (fun h => ?_) fun _ => ⟨fun h => absurd h hne, fun _ h => h hstatus',
      fun h => ?_, fun h => ?_⟩
    · rw [if_neg hne] at h
      rcases h with hlost | ⟨h, -⟩
      · exact absurd hsequence.symm hlost
      · cases hid.symm.trans h
    · cases hid.symm.trans h
    · cases hid.symm.trans h
  have hboth := EStateM.wp_and (acceptMsg_enlists env hderef hsequence hid hgroup (hn.named g))
    (hn.wp_of_keeps hchanges)
  obtain ⟨_, n', hok, henlists, hn'⟩ := EStateM.exists_of_wp (EStateM.wp_mono hboth (fun _ _ h => h)
    fun _ _ h => h.2)
  exact ⟨n', (recvMsg_of_ready hp hready hne).trans hok, hfathered.changes hn', henlists⟩

end Node

end Zyre
