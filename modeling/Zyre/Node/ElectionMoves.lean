import Zyre.Node.Move

/-!
# The election handlers as moves

ELECT, LEADER and the restart of an election when a peer leaves are sequences of moves. They follow
the pointers kept as leader and father of a group, so there are more reasons why they stop.
-/

namespace Zyre

namespace Node

variable {K : Set MsgId} {n : Node} {peer : PeerRef} {name : CStr} {msg : Msg}

/-! ### Why the handlers stop -/

/-- The group is contested, and its leader is not there. -/
def DeadLeader (n : Node) (name : CStr) : Prop :=
  ∃ g r, n.peerGroups.lookup name = some g ∧ g.contest = true ∧ g.leader = some r ∧ ¬n.Live r

/-- ELECT would be the last answer the election of another node's wave waits for, and the father to
be told is not there. -/
def DeadFather (n : Node) (msg : Msg) : Prop :=
  ∃ g e r, n.peerGroups.lookup msg.group = some g ∧ g.election = some e ∧
    e.caw = some msg.challengerId ∧ msg.challengerId ≠ n.identity ∧
    e.incrementErec.erecComplete g = true ∧ e.father = some r ∧ ¬n.Live r

/-- An election of another node's wave has no father. -/
def Orphan (n : Node) : Prop :=
  ∃ name g e, n.peerGroups.lookup name = some g ∧ g.election = some e ∧ ¬e.Fathered n.identity

/-- What is behind a fault when a peer leaves: `D` is a dead leader. -/
def LeaveCause (D : Prop) (f : Fault) (n : Node) : Prop := Cause f n ∨ f = .dangling ∧ D

/-- What is behind a fault when ELECT comes: `D` is a dead father. -/
def ElectCause (D : Prop) (f : Fault) (n : Node) : Prop :=
  Cause f n ∨ f = .dangling ∧ D ∨ f = .assertion ∧ n.Orphan

theorem Move.deadLeader {n' : Node} (h : Move K n n') (hdead : n'.DeadLeader name) :
    n.DeadLeader name := by
  obtain ⟨g', r, hg', hcontest, hleader, hr⟩ := hdead
  rw [h.live] at hr
  cases h with
  | send r' p msg hr' hc hid => exact ⟨g', r, hg', hcontest, hleader, hr⟩
  | group name' f hf =>
    simp only [AList.lookup_modify] at hg'
    split_ifs at hg' with hname
    · subst hname
      obtain ⟨g, hg, rfl⟩ := Option.map_eq_some_iff.mp hg'
      have htame := hf g hg
      rcases htame.leader r hleader with hleader | hlive
      · exact ⟨g, r, hg, htame.contest ▸ hcontest, hleader, hr⟩
      · exact absurd hlive hr
    · exact ⟨g', r, hg', hcontest, hleader, hr⟩
  | addGroup name' =>
    simp only [AList.lookup_insertNew] at hg'
    split_ifs at hg' with hname
    · subst hname
      cases hg : n.peerGroups.lookup name with
      | none =>
        rw [hg] at hg'
        cases hg'
        cases hleader
      | some g =>
        rw [hg] at hg'
        cases hg'
        exact ⟨_, r, hg, hcontest, hleader, hr⟩
    · exact ⟨g', r, hg', hcontest, hleader, hr⟩
  | emit e he => exact ⟨g', r, hg', hcontest, hleader, hr⟩

theorem Moves.deadLeader {n' : Node} (h : Moves K n n') (hdead : n'.DeadLeader name) :
    n.DeadLeader name := by
  induction h with
  | refl => exact hdead
  | tail _ hmove ih => exact ih (hmove.deadLeader hdead)

/-! ### The handlers -/

theorem addGroup_moves : Moves K n { n with peerGroups := n.peerGroups.insertNew name .new } :=
  .single (.addGroup name)

theorem lookup_insertNew_self (s : AList fun _ : CStr => Group) :
    (s.insertNew name .new).lookup name = some ((s.lookup name).getD .new) := by
  simp [AList.lookup_insertNew]

/-- Restarting the elections when a peer leaves. ELECT goes out only in a contested group. -/
theorem leaveElection_keeps (hK : n.contested name = true → .elect ∈ K) :
    (leaveElection peer name).Keeps (Moves K) (LeaveCause (n.DeadLeader name)) n := by
  have hlook : (n.peerGroups.insertNew name .new).lookup name = _ := lookup_insertNew_self n.peerGroups
  set n₁ : Node := { n with peerGroups := n.peerGroups.insertNew name .new }
  refine .bind_of_wp addGroup_moves (wp_requirePeerGroup.mpr ⟨rfl, keeps_getGroup ?_⟩)
  rw [hlook, Option.getD_some]
  set g := (n.peerGroups.lookup name).getD .new
  refine .ite (fun hcontest => ?_) fun _ => .pure _
  have hsend : MsgId.elect ∈ K := hK hcontest
  have hrest : ∀ leaderLeft n₂, Moves K n₁ n₂ →
      EStateM.Keeps (Moves K) (LeaveCause (n.DeadLeader name))
      (do
        if (g.election.any fun e => !e.lrecComplete g) || leaderLeft then do
          setElection name none
          if g.size = 1 then leadAlone name else startElection name) n₂ := by
    intro leaderLeft n₂ _
    refine .ite (fun _ => .weaken (B := Cause) ?_ fun _ _ => Or.inl) fun _ => .pure _
    refine .bind (modifyGroup_keeps fun g _ => .setElection fun e he => nomatch he)
      fun _ n₃ _ => ?_
    exact .ite (fun _ => leadAlone_keeps) fun _ => startElection_keeps hsend
  cases hleader : g.leader with
  | none => exact .pure_bind (hrest _ _ .refl)
  | some groupLeader =>
    refine keeps_readPeer (fun _ _ => .pure_bind (hrest _ _ .refl)) fun hdead => ?_
    have hdead₁ : n₁.DeadLeader name :=
      ⟨g, groupLeader, hlook, hcontest, hleader, not_live.mpr hdead⟩
    exact Or.inr ⟨rfl, (addGroup_moves (K := K)).deadLeader hdead₁⟩

/-- The loop over the node's own groups when a peer leaves. -/
theorem leaveElections_keeps (n : Node)
    (hK : ∀ name ∈ n.ownGroups, n.contested name = true → .elect ∈ K) :
    (forM n.ownGroups (leaveElection peer) : NodeM Unit).Keeps (Moves K)
      (LeaveCause (∃ name ∈ n.ownGroups, n.DeadLeader name)) n := by
  refine .forM fun name hname n₁ hn₁ => .weaken (leaveElection_keeps fun hc => ?_) fun f n₂ h => ?_
  · exact hK name hname (by rw [← hc, hn₁.contested])
  · exact h.imp_right fun ⟨hf, hdead⟩ => ⟨hf, name, hname, hn₁.deadLeader hdead⟩

/-- A superior challenger: the election is its wave, with the sender as father. -/
theorem followChallenger_spec (hK : .elect ∈ K) (hpeer : n.Live peer) :
    (followChallenger peer msg).wp
      (fun _ n' => Moves K n n' ∧ n'.peerGroups = n.peerGroups.modify msg.group fun g =>
        { g with election := some ((Election.new.setCaw msg.challengerId).setFather peer) })
      (fun f n' => Moves K n n' ∧ Cause f n') n := by
  set e := (Election.new.setCaw msg.challengerId).setFather peer
  set n₁ : Node := { n with peerGroups := n.peerGroups.modify msg.group fun g =>
    { g with election := some e } } with hn₁
  have hmove : Moves K n n₁ := .single <| .group _ _ fun g _ =>
    { peers := rfl
      contest := rfl
      leader := fun _ hr => Or.inl hr
      father := fun e' r he hr => by
        cases he
        exact Or.inr (Option.some_inj.mp hr ▸ hpeer)
      fathered := fun _ e' he caw _ _ => by cases he; rfl }
  refine EStateM.wp_bind .. |>.mpr (wp_setElection.mpr ?_)
  rw [buildElectMsg_of_caw (e := e) rfl]
  refine EStateM.wp_mono (EStateM.Keeps.forM (R := Sends K) (B := Cause)
    fun key hkey n₂ hn₂ => .ite (fun _ => keeps_lookupPeer ?_) fun _ => .pure _)
    (fun _ n₂ hn₂ => ?_) fun _ n₂ hn₂ => ?_
  · change key ∈ ((n₁.peerGroups.lookup msg.group).getD .new).peers.keys at hkey
    change Sends K n₁ n₂ at hn₂
    cases hlook : n₂.peers.lookup key with
    | none =>
      refine ⟨.refl, ?_⟩
      cases hg : n₁.peerGroups.lookup msg.group with
      | none => simp [hg, Group.new, EmptyCollection.emptyCollection, AList.keys] at hkey
      | some g =>
        rw [hg, Option.getD_some] at hkey
        exact ⟨msg.group, g, by rw [hn₂.peerGroups, hg], key, hkey,
          AList.lookup_eq_none.mp hlook⟩
    | some p => exact peerSend_keeps_of_live (K := K) hK (live_of_deref (deref_of_lookup hlook))
  · exact ⟨hmove.trans hn₂.moves, hn₂.peerGroups⟩
  · exact ⟨hmove.trans hn₂.1.moves, hn₂.2⟩

/-- Counting an answer keeps the wave and the father. -/
theorem Tame.count {g : Group} {e e' : Election} (he : g.election = some e)
    (hcaw : e'.caw = e.caw) (hfather : e'.father = e.father) :
    n.Tame g { g with election := some e' } where
  peers := rfl
  contest := rfl
  leader _ hr := Or.inl hr
  father e₁ r he₁ hr := by
    cases he₁
    exact Or.inl ⟨e, he, hfather ▸ hr⟩
  fathered h e₁ he₁ caw hc hne := by
    cases he₁
    rw [hfather]
    exact h e he caw (hcaw ▸ hc) hne

theorem supportChallenger_keeps {g : Group} {e : Election} {D : Prop}
    (hK : {.elect, .leader} ⊆ K) (hg : n.peerGroups.lookup msg.group = some g)
    (he : g.election = some e) (hcaw : e.caw.isSome)
    (hD : e.caw ≠ some n.identity → e.incrementErec.erecComplete g = true →
      ∀ r, e.father = some r → ¬n.Live r → D) :
    (supportChallenger msg e).Keeps (Moves K) (ElectCause D) n := by
  obtain ⟨caw, hcaw⟩ := Option.isSome_iff_exists.mp hcaw
  set n₁ : Node := { n with peerGroups := n.peerGroups.modify msg.group fun g =>
    { g with election := some e.incrementErec } }
  have hmove : Moves K n n₁ := .single <| .group _ _ fun g' hg' => by
    cases hg.symm.trans hg'
    exact .count he rfl rfl
  have hg₁ : n₁.peerGroups.lookup msg.group = some { g with election := some e.incrementErec } := by
    simp [n₁, hg]
  refine .bind_of_wp hmove (wp_setElection.mpr ⟨rfl, keeps_getGroup ?_⟩)
  simp only [hg₁, Option.getD_some]
  refine .ite (fun hcomplete => .get ?_) fun _ => .pure _
  refine .ite (fun _ => ?_) fun hother => ?_
  · rw [buildLeaderMsg_of_caw (e := e.incrementErec) hcaw]
    exact .pure_bind (((groupSend_keeps (hK (by simp [Msg.setLeaderId, Msg.new]))).mono
      fun _ => Sends.moves).weaken fun _ _ => Or.inl)
  · rw [buildElectMsg_of_caw (e := e.incrementErec) hcaw]
    refine .pure_bind ?_
    have hother' : e.incrementErec.caw ≠ some n₁.identity := hother
    cases hfather : e.father with
    | none =>
      simp only [Election.incrementErec, hfather]
      refine ⟨.refl, Or.inr (Or.inr ⟨rfl, msg.group, _, _, hg₁, rfl, fun h => ?_⟩)⟩
      have := h caw hcaw fun hid => hother' (hid ▸ hcaw)
      simp [Election.incrementErec, hfather] at this
    | some father =>
      simp only [Election.incrementErec, hfather]
      by_cases hlive : n₁.Live father
      · exact ((peerSend_keeps_of_live (hK (by simp [Msg.setChallengerId, Msg.new])) hlive).mono
          fun _ => Sends.moves).weaken fun _ _ => Or.inl
      · refine wp_peerSend.mpr ⟨fun p hp => absurd (live_of_deref hp) hlive,
          fun p hp => absurd (live_of_deref hp) hlive, fun _ => ⟨.refl, Or.inr (Or.inl ?_)⟩⟩
        exact ⟨rfl, hD hother' hcomplete father hfather hlive⟩

/-- `zyre_group_require_election` on a group just required. -/
theorem requireElection_spec (K : Set MsgId) {n : Node} {g : Group}
    (hg : n.peerGroups.lookup name = some g) :
    Moves K n { n with peerGroups := n.peerGroups.modify name (·.requireElection) } ∧
      (n.peerGroups.modify name (·.requireElection)).lookup name = some g.requireElection ∧
      g.requireElection.election = some (g.election.getD .new) := by
  refine ⟨.single (.group name _ fun g' hg' => ?_), by simp [hg], rfl⟩
  refine ⟨rfl, rfl, fun _ hr => Or.inl hr, fun e r he hr => Or.inl ?_, fun h e he => ?_⟩
  · cases hge : g'.election with
    | none => simp only [Group.requireElection, hge] at he; cases he; cases hr
    | some e₀ => simp only [Group.requireElection, hge] at he; cases he; exact ⟨_, rfl, hr⟩
  · cases hge : g'.election with
    | none => simp only [Group.requireElection, hge] at he; cases he; rintro caw ⟨⟩
    | some e₀ => simp only [Group.requireElection, hge] at he; cases he; exact h _ hge

theorem recvElect_keeps (hK : {.elect, .leader} ⊆ K) (hpeer : n.Live peer) :
    (recvElect peer msg).Keeps (Moves K) (ElectCause (n.DeadFather msg)) n := by
  set n₀ : Node := { n with peerGroups := n.peerGroups.insertNew msg.group .new }
  obtain ⟨hmove, hg, he⟩ := requireElection_spec K (n := n₀) (lookup_insertNew_self n.peerGroups)
  set g := ((n.peerGroups.lookup msg.group).getD .new).requireElection
  set e := ((n.peerGroups.lookup msg.group).getD .new).election.getD .new
  set n₁ : Node := { n₀ with
    peerGroups := n₀.peerGroups.modify msg.group (·.requireElection) }
  have hg₁ : n₁.peerGroups.lookup msg.group = some g := hg
  have hrest : ∀ n₂ g₂ e₂, Moves K n₁ n₂ → n₂.peerGroups.lookup msg.group = some g₂ →
      g₂.election = some e₂ → e₂.caw.isSome →
      (e₂.caw = some msg.challengerId → e₂.caw ≠ some n₂.identity →
        e₂.incrementErec.erecComplete g₂ = true → ∀ r, e₂.father = some r → ¬n₂.Live r →
        n.DeadFather msg) →
      EStateM.Keeps (Moves K) (ElectCause (n.DeadFather msg))
      (do
        let election := (← getGroup msg.group).election.getD .new
        assert election.caw.isSome
        if election.caw = some msg.challengerId then supportChallenger msg election) n₂ := by
    intro n₂ g₂ e₂ _ hg₂ he₂ hcaw hD
    refine keeps_getGroup ?_
    simp only [hg₂, Option.getD_some, he₂]
    refine keeps_assert (fun _ => ?_) fun h => ?_
    · exact .ite (fun hwave => supportChallenger_keeps hK hg₂ he₂ hcaw (hD hwave)) fun _ => .pure _
    · rw [hcaw] at h; cases h
  refine .bind_of_wp addGroup_moves (wp_requirePeerGroup.mpr ⟨rfl, ?_⟩)
  refine .bind_of_wp hmove (wp_modifyGroup.mpr ⟨rfl, keeps_getGroup ?_⟩)
  simp only [hg₁, Option.getD_some, he]
  by_cases hsup : e.challengerSuperior msg.challengerId = true
  · simp only [hsup, if_true]
    refine .bind' (EStateM.wp_mono
      (followChallenger_spec (hK (by simp)) ((hmove.live peer).mpr hpeer)) (fun _ _ h => h)
      fun _ _ h => ⟨h.1, Or.inl h.2⟩)
      fun _ n₂ hn₂ hgroups => ?_
    have hg₂ : n₂.peerGroups.lookup msg.group = some { g with
        election := some ((Election.new.setCaw msg.challengerId).setFather peer) } := by
      rw [hgroups, AList.lookup_modify_self, hg₁, Option.map_some]
    refine hrest n₂ _ _ hn₂ hg₂ rfl rfl fun _ _ _ r hr hdead => ?_
    cases hr
    exact absurd ((hn₂.live peer).mpr ((hmove.live peer).mpr hpeer)) hdead
  · simp only [hsup]
    refine hrest n₁ g e .refl hg₁ he ?_ fun hwave hother hcomplete r hr hdead => ?_
    · cases hcaw : e.caw with
      | none => simp [Election.challengerSuperior, hcaw] at hsup
      | some caw => rfl
    · -- An election with a father was there before.
      have hne : msg.challengerId ≠ n.identity := fun h => hother (hwave.trans (h ▸ rfl))
      cases hg₀ : n.peerGroups.lookup msg.group with
      | none => simp [e, hg₀, Group.new, Election.new] at hr
      | some g₀ =>
        cases he₀ : g₀.election with
        | none => simp [e, hg₀, he₀, Election.new] at hr
        | some e₀ =>
          have hee₀ : e = e₀ := by simp [e, hg₀, he₀]
          have hpeers : g.peers = g₀.peers := by simp [g, hg₀, Group.requireElection]
          refine ⟨g₀, e₀, r, hg₀, he₀, hee₀ ▸ hwave, hne, ?_, hee₀ ▸ hr, hdead⟩
          rw [← hee₀]
          have hsize := of_decide_eq_true hcomplete
          exact decide_eq_true (by simpa only [Group.size, hpeers] using hsize)

theorem finishElection_keeps {e : Election} :
    (finishElection msg e).Keeps (Moves K) Cause n := by
  refine keeps_getGroup (.ite (fun _ => .get ?_) fun _ => .pure _)
  have hclear : ∀ n', EStateM.Keeps (Moves K) Cause (setElection msg.group none) n' :=
    fun n' => modifyGroup_keeps fun g _ => .setElection fun e he => nomatch he
  refine .ite (fun _ => ?_) fun _ => keeps_lookupPeer ?_
  · exact .get (.get (.bind (Relation.ReflTransGen.single (.emit _ rfl)) fun _ n' _ => hclear n'))
  · cases hlook : n.peers.lookup msg.leaderId with
    | none => exact hclear n
    | some p =>
      have hlive := live_of_deref (deref_of_lookup hlook)
      refine .bind (modifyGroup_keeps fun g _ => .setLeader fun r hr => ?_) fun _ n₁ hn₁ => ?_
      · cases hr; exact hlive
      · refine keeps_readPeer (fun _ _ => ?_) fun hdead => ?_
        · exact .bind (Relation.ReflTransGen.single (.emit _ rfl)) fun _ n' _ => hclear n'
        · exact absurd ((hn₁.live _).mpr hlive) (not_live.mpr hdead)

theorem recvLeader_keeps (hK : .leader ∈ K) : (recvLeader msg).Keeps (Moves K) Cause n := by
  set n₀ : Node := { n with peerGroups := n.peerGroups.insertNew msg.group .new }
  obtain ⟨hmove, hg, he⟩ := requireElection_spec K (n := n₀) (lookup_insertNew_self n.peerGroups)
  set g := ((n.peerGroups.lookup msg.group).getD .new).requireElection
  set e := ((n.peerGroups.lookup msg.group).getD .new).election.getD .new
  set n₁ : Node := { n₀ with
    peerGroups := n₀.peerGroups.modify msg.group (·.requireElection) }
  have hg₁ : n₁.peerGroups.lookup msg.group = some g := hg
  refine .bind_of_wp addGroup_moves (wp_requirePeerGroup.mpr ⟨rfl, ?_⟩)
  refine .bind_of_wp hmove (wp_modifyGroup.mpr ⟨rfl, keeps_getGroup ?_⟩)
  simp only [hg₁, Option.getD_some, he]
  refine .ite (fun hcaw => .get ?_) fun _ => .pure _
  obtain ⟨caw, hcaw⟩ := Option.isSome_iff_exists.mp hcaw
  have hrest : ∀ n₂, Moves K n₁ n₂ → n₂.peerGroups = n₁.peerGroups → EStateM.Keeps (Moves K) Cause
      (do
        setElection msg.group (some (e.incrementLrec.setLeader msg.leaderId))
        finishElection msg (e.incrementLrec.setLeader msg.leaderId)) n₂ := by
    intro n₂ _ hgroups
    refine .bind (modifyGroup_keeps fun g₂ hg₂ => ?_) fun _ _ _ => finishElection_keeps
    rw [hgroups, hg₁] at hg₂
    cases hg₂
    exact .count he rfl rfl
  by_cases hecho : n₁.identity ≠ msg.leaderId ∧ ¬e.lrecStarted
  · rw [if_pos hecho, buildLeaderMsg_of_caw hcaw]
    refine .pure_bind (.bind' (P := fun _ n₂ => n₂.peerGroups = n₁.peerGroups) ?_
      fun _ n₂ hn₂ hgroups => hrest n₂ hn₂ hgroups)
    exact EStateM.wp_mono (groupSend_keeps (K := K) hK)
      (fun _ n₂ hn₂ => ⟨hn₂.moves, hn₂.peerGroups⟩) fun _ n₂ hn₂ => ⟨hn₂.1.moves, hn₂.2⟩
  · rw [if_neg hecho]
    exact hrest n₁ .refl rfl

end Node

end Zyre
