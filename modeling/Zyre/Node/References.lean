import Zyre.Node.Change

/-!
# Pointers kept in groups

A group points to its leader and an election to its father. Both are written by ELECT and LEADER in
any group; they are taken back when a peer is removed only in the node's own, contested groups, and
there only if the election restarts. `removePeer_groups` is what a removal makes of each group, and
`removePeer_sound` says when no pointer to the removed peer is left.
-/

namespace Zyre

namespace Group

/-- The group points to `r`, as its leader or as the father of its election. -/
def RefersTo (g : Group) (r : PeerRef) : Prop :=
  g.leader = some r ∨ ∃ e, g.election = some e ∧ e.father = some r

/-- The election of the group is restarted when `r` is removed, if the group is one of the node's
own. -/
def restarts (g : Group) (r : PeerRef) : Bool :=
  g.contest && ((g.election.any fun e => !e.lrecComplete g) ||
    g.leader.any fun l => decide (l.identity = r.identity))

/-- The group after a restart: without a leader, and with the node's own challenge unless the peer
that leaves is the only member. -/
def restart (self : CStr) (g : Group) : Group :=
  { g with
    leader := none
    election := if g.size = 1 then none else some (Election.new.setCaw self) }

/-- A group whose election has been restarted points to nobody. -/
theorem not_refersTo_restart {self : CStr} {g : Group} {r : PeerRef} :
    ¬(g.restart self).RefersTo r := by
  rintro (h | ⟨e, he, hr⟩)
  · cases h
  · simp only [restart] at he
    split_ifs at he
    cases he
    cases hr

/-- Nor does a new group. -/
theorem not_refersTo_new {r : PeerRef} : ¬new.RefersTo r := by
  rintro (h | ⟨e, he, -⟩)
  · cases h
  · cases he

end Group

namespace Node

variable {n n' : Node} {r r' : PeerRef} {p : Peer} {name X : CStr} {D : Set CStr} {K : Set MsgId}

/-- Some group points to `r`. -/
def Refers (n : Node) (r : PeerRef) : Prop :=
  ∃ name g, n.peerGroups.lookup name = some g ∧ g.RefersTo r

/-- Whatever a group points to is there. -/
def Sound (n : Node) : Prop := ∀ r, n.Refers r → n.Live r

/-- Every group that points to `r` is one of the node's own, and its election restarts when `r` is
removed. -/
def Clean (n : Node) (r : PeerRef) : Prop :=
  ∀ name g, n.peerGroups.lookup name = some g → g.RefersTo r →
    name ∈ n.ownGroups ∧ g.restarts r = true

/-- A peer that no group points to can be removed cleanly. -/
theorem clean_of_not_refers (h : ¬n.Refers r) : n.Clean r :=
  fun name g hg hr => absurd ⟨name, g, hg, hr⟩ h

theorem clean_congr (hgroups : n'.peerGroups = n.peerGroups) (hown : n'.ownGroups = n.ownGroups) :
    n'.Clean r ↔ n.Clean r := by
  simp only [Clean, hgroups, hown]

theorem refers_congr (hgroups : n'.peerGroups = n.peerGroups) : n'.Refers r ↔ n.Refers r := by
  simp only [Refers, hgroups]

/-! ### Changes make no pointer to a peer that is not there -/

/-- An update that adds no pointer adds none to the node. -/
theorem refers_modify {f : Group → Group} (hf : ∀ g, (f g).RefersTo r → g.RefersTo r)
    (h : Refers { n with peerGroups := n.peerGroups.modify name f } r) : n.Refers r := by
  obtain ⟨name', g', hg', hr⟩ := h
  simp only [AList.lookup_modify] at hg'
  split_ifs at hg'
  · obtain ⟨g, hg, rfl⟩ := Option.map_eq_some_iff.mp hg'
    exact ⟨name', g, hg, hf g hr⟩
  · exact ⟨name', g', hg', hr⟩

/-- A new group adds no pointer. -/
theorem refers_insertNew (h : Refers { n with peerGroups := n.peerGroups.insertNew name .new } r) :
    n.Refers r := by
  obtain ⟨name', g', hg', hr⟩ := h
  simp only [AList.lookup_insertNew] at hg'
  split_ifs at hg'
  · cases hg : n.peerGroups.lookup name with
    | none =>
      rw [hg] at hg'
      cases hg'
      exact absurd hr Group.not_refersTo_new
    | some g =>
      rw [hg] at hg'
      cases hg'
      exact ⟨name, g, hg, hr⟩
  · exact ⟨name', g', hg', hr⟩

/-- **A move** adds pointers only to peers that are there. -/
theorem Move.refers (h : Move K n n') (hr : n'.Refers r) : n.Refers r ∨ n'.Live r := by
  cases h with
  | group name f hf =>
    obtain ⟨name', g', hg', hr⟩ := hr
    simp only [AList.lookup_modify] at hg'
    split_ifs at hg' with hname
    · subst hname
      obtain ⟨g, hg, rfl⟩ := Option.map_eq_some_iff.mp hg'
      rcases hr with hr | ⟨e, he, hr⟩
      · exact ((hf g hg).leader r hr).imp_left fun h => ⟨_, g, hg, Or.inl h⟩
      · exact ((hf g hg).father e r he hr).imp_left fun h => ⟨_, g, hg, Or.inr h⟩
    · exact Or.inl ⟨name', g', hg', hr⟩
  | addGroup name => exact Or.inl (refers_insertNew hr)
  | send r p msg hr' hc hid => exact Or.inl hr
  | emit e he => exact Or.inl hr

/-- **A change** adds pointers only to peers that are there. -/
theorem Change.refers (h : Change D n n') (hr : n'.Refers r) : n.Refers r ∨ n'.Live r := by
  cases h with
  | move h => exact h.refers hr
  | join name r hr' => exact Or.inl (refers_modify (f := (·.join r)) (fun _ h => h) hr)
  | leave name r => exact Or.inl (refers_modify (f := (·.leave r)) (fun _ h => h) hr)
  | contest name =>
    exact Or.inl (refers_modify (f := fun g => { g with contest := true }) (fun _ h => h) hr)
  | know hpeers hgroups hserial hmail huuid hown hstatus => exact Or.inl ((refers_congr hgroups).mp hr)
  | _ => exact Or.inl hr

/-- Changes that remove no peer keep the pointers sound. -/
theorem Sound.changes (hn : n.Sound) (h : Changes ∅ n n') : n'.Sound := by
  refine h.invariant (I := Sound) (fun n n' h hn r hr => ?_) hn
  rcases h.refers hr with hr | hr
  · exact h.live (hn r hr) (Set.notMem_empty _)
  · exact hr

/-! ### Restarting elections -/

/-- A group with a new election of the node's own. -/
def challenged (self : CStr) (g : Group) : Group :=
  { g with leader := none, election := some (Election.new.setCaw self) }

/-- What `startElection` does apart from sending ELECT. -/
theorem startElection_spec :
    (startElection name).wp
      (fun _ n' => n'.peerGroups = n.peerGroups.modify name (challenged n.identity) ∧
        n'.outbox = n.outbox ∧ n'.own = n.own)
      (fun _ _ => True) n := by
  have hmodify : (n.peerGroups.modify name fun g =>
        { g with election := some (Election.new.setCaw n.identity) }).modify name
          (fun g => { g with leader := none }) = n.peerGroups.modify name (challenged n.identity) := by
    refine AList.ext ?_
    simp only [AList.modify, AList.mapValues, List.map_map]
    refine List.map_congr_left fun e _ => ?_
    by_cases he : e.1 = name <;> simp [he, Sigma.map, challenged]
  have hbuild : buildElectMsg (Election.new.setCaw n.identity) name = _ := buildElectMsg_of_caw rfl
  simp only [startElection, EStateM.wp_bind, EStateM.wp_get, wp_setElection, wp_setLeader, hbuild,
    EStateM.wp_pure, hmodify]
  refine EStateM.wp_mono (groupSend_keeps (K := Set.univ) trivial) (fun _ n' h => ?_) fun _ _ _ => trivial
  have houtbox := Sends.keep (f := Node.outbox) (fun _ _ h => by cases h; rfl) h
  exact ⟨h.peerGroups, houtbox, h.moves.own⟩

/-- The block that settles the election of a group somebody left: `c` is that the node is alone. -/
theorem settle_spec {c : Prop} [Decidable c] {g : Group} (hg : n.peerGroups.lookup name = some g) :
    (do setElection name none
        if c then leadAlone name else startElection name : NodeM Unit).wp
      (fun _ n' => (∀ name', n'.peerGroups.lookup name' =
          if name' = name then some (if c then { g with leader := none, election := none }
            else challenged n.identity g)
          else n.peerGroups.lookup name') ∧
        n'.outbox = n.outbox ++ (if c then [.leader n.identity n.name name] else []) ∧ n'.own = n.own)
      (fun _ _ => True) n := by
  simp only [EStateM.wp_bind, wp_setElection]
  refine EStateM.wp_ite .. |>.mpr ⟨fun hc => ?_, fun hc => ?_⟩
  · simp only [leadAlone, EStateM.wp_bind, wp_setLeader, EStateM.wp_get, wp_leaderPeerGroup]
    refine ⟨fun name' => ?_, by rw [if_pos hc]; rfl, rfl⟩
    by_cases hname : name' = name
    · subst hname
      simp [hg, hc]
    · simp [hname]
  · refine EStateM.wp_mono startElection_spec (fun _ n' h => ?_) fun _ _ h => h
    obtain ⟨hgroups, houtbox, hown⟩ := h
    refine ⟨fun name' => ?_, by simp [houtbox, hc], hown⟩
    rw [hgroups]
    by_cases hname : name' = name
    · subst hname
      simp [hg, hc, challenged]
      rfl
    · simp [hname]

/-- One round of the loop over the node's own groups when `r` is removed. -/
theorem leaveElection_wp {Q : Unit → Node → Prop} {E : Fault → Node → Prop} {g : Group} {n₁ : Node}
    (hg : (n.peerGroups.lookup name).getD .new = g)
    (hn₁ : { n with peerGroups := n.peerGroups.insertNew name .new } = n₁)
    (hsettle : g.restarts r = true → (do
      setElection name none
      if g.size = 1 then leadAlone name else startElection name : NodeM Unit).wp Q E n₁)
    (hstay : g.restarts r = false → Q ⟨⟩ n₁) (hdead : n.DeadLeader name → E .dangling n₁) :
    (leaveElection r name).wp Q E n := by
  have hlook : (n.peerGroups.insertNew name .new).lookup name = some g :=
    hg ▸ lookup_insertNew_self n.peerGroups
  simp only [leaveElection, EStateM.wp_bind, wp_requirePeerGroup, wp_getGroup, hlook,
    Option.getD_some]
  rw [hn₁]
  refine EStateM.wp_ite .. |>.mpr ⟨fun hcontest => ?_, fun hcontest => hstay ?_⟩
  · have hrest : (do
        if (g.election.any fun e => !e.lrecComplete g) ||
            g.leader.any fun l => decide (l.identity = r.identity) then do
          setElection name none
          if g.size = 1 then leadAlone name else startElection name : NodeM Unit).wp Q E n₁ := by
      have hrestarts : g.restarts r = ((g.election.any fun e => !e.lrecComplete g) ||
          g.leader.any fun l => decide (l.identity = r.identity)) := by
        simp [Group.restarts, hcontest]
      rw [← hrestarts]
      exact EStateM.wp_ite .. |>.mpr ⟨hsettle, fun h => hstay (by simpa using h)⟩
    cases hleader : g.leader with
    | none => simpa [hleader] using hrest
    | some l =>
      refine EStateM.wp_bind .. |>.mpr (EStateM.wp_bind .. |>.mpr (wp_readPeer.mpr
        ⟨fun _ _ => by simpa [hleader] using hrest, fun hnot => hdead ?_⟩))
      subst hn₁
      cases hlookup : n.peerGroups.lookup name with
      | none => simp [hlookup] at hg; subst hg; cases hleader
      | some g₀ =>
        rw [hlookup, Option.getD_some] at hg
        exact ⟨g, l, hg ▸ hlookup, hcontest, hleader, not_live.mpr hnot⟩
  · simp [Group.restarts, hcontest]

/-- What one round of the loop over the node's own groups does. -/
theorem leaveElection_spec {g : Group} (hg : (n.peerGroups.lookup name).getD .new = g) :
    (leaveElection r name).wp
      (fun _ n' => (∀ name', n'.peerGroups.lookup name' =
          if name' = name then some (if g.restarts r then g.restart n.identity else g)
          else n.peerGroups.lookup name') ∧
        n'.outbox = n.outbox ++
          (if g.restarts r = true ∧ g.size = 1 then [.leader n.identity n.name name] else []) ∧
        n'.own = n.own)
      (fun _ _ => True) n := by
  set n₁ : Node := { n with peerGroups := n.peerGroups.insertNew name .new } with hn₁
  have hlook : n₁.peerGroups.lookup name = some g := hg ▸ lookup_insertNew_self n.peerGroups
  refine leaveElection_wp hg rfl (fun hrestarts => ?_) (fun hstays => ?_) fun _ => trivial
  · refine EStateM.wp_mono (settle_spec hlook) (fun _ n' h => ?_) fun _ _ h => h
    obtain ⟨hgroups, houtbox, hown⟩ := h
    refine ⟨fun name' => ?_, by simp only [hrestarts, true_and]; exact houtbox, hown⟩
    rw [hgroups]
    by_cases hname : name' = name
    · rw [if_pos hname, if_pos hname, if_pos hrestarts, Group.restart]
      split_ifs <;> rfl
    · rw [if_neg hname, if_neg hname]
      simp [AList.lookup_insertNew, hname]
  · refine ⟨fun name' => ?_, by simp [hstays], rfl⟩
    by_cases hname : name' = name
    · rw [if_pos hname, hname, hlook]
      simp [hstays]
    · simp [AList.lookup_insertNew, hname]

/-- What one round makes of the groups. -/
theorem leaveElection_groups :
    (leaveElection r name).wp
      (fun _ n' => ∀ name', n'.peerGroups.lookup name' =
        if name' = name then
          let g := (n.peerGroups.lookup name).getD .new
          some (if g.restarts r then g.restart n.identity else g)
        else n.peerGroups.lookup name')
      (fun _ _ => True) n :=
  EStateM.wp_mono (leaveElection_spec rfl) (fun _ _ h => h.1) fun _ _ h => h

/-- What the removal of `r` makes of the groups: each is restarted or, if it is not to be, points
where it did. -/
def Restarted (own : Set CStr) (r : PeerRef) (n n' : Node) : Prop :=
  ∀ name g', n'.peerGroups.lookup name = some g' →
    (∃ g, n.peerGroups.lookup name = some g ∧ g'.contest = g.contest ∧ g'.leader = g.leader ∧
      g'.election = g.election ∧ (name ∈ own → g.restarts r = false)) ∨ ∀ r', ¬g'.RefersTo r'

/-- The loop over the node's own groups restarts those that `restarts` says, and leaves the others. -/
theorem leaveElections_groups :
    (forM n.ownGroups (leaveElection r) : NodeM Unit).wp
      (fun _ n' => Restarted {name | name ∈ n.ownGroups} r n n') (fun _ _ => True) n := by
  refine EStateM.wp_forM_done (fun done n' => ∀ name g', n'.peerGroups.lookup name = some g' →
    (n.peerGroups.lookup name = some g' ∧ (name ∈ done → g'.restarts r = false)) ∨
      ∀ r', ¬g'.RefersTo r') (fun name g' hg' => Or.inl ⟨hg', by simp⟩) ?_ ?_
  · rintro done name - - n₁ hn₁
    refine EStateM.wp_mono leaveElection_groups (fun _ n₂ h₂ name' g' hg' => ?_) fun _ _ h => h
    rw [h₂] at hg'
    split_ifs at hg' with hname
    · subst hname
      have hg' := (Option.some_inj.mp hg').symm
      split_ifs at hg' with hrestarts
      · exact Or.inr fun r' => hg' ▸ Group.not_refersTo_restart
      · cases hg : n₁.peerGroups.lookup name' with
        | none =>
          rw [hg] at hg'
          exact Or.inr fun r' => hg' ▸ Group.not_refersTo_new
        | some g =>
          rw [hg, Option.getD_some] at hg' hrestarts
          rw [hg']
          exact (hn₁ name' g hg).imp_left fun h => ⟨h.1, fun _ => by simpa using hrestarts⟩
    · refine (hn₁ name' g' hg').imp_left fun h => ⟨h.1, fun hmem => ?_⟩
      rcases List.mem_append.mp hmem with hmem | hmem
      · exact h.2 hmem
      · exact absurd (List.mem_singleton.mp hmem) hname
  · intro n' h name g' hg'
    exact (h name g' hg').imp_left fun h => ⟨g', h.1, rfl, rfl, rfl, h.2⟩

/-- What a removal makes of the groups. -/
theorem removePeer_groups :
    (removePeer r).wp (fun _ n' => Restarted {name | name ∈ n.ownGroups} r n n')
      (fun _ _ => True) n := by
  simp only [removePeer, EStateM.wp_bind, wp_readPeer, wp_emit, EStateM.wp_get]
  refine ⟨fun p hp => ?_, fun _ => trivial⟩
  set n₀ : Node := { n with outbox := n.outbox ++ [.exit r.identity p.nameStr] }
  refine EStateM.wp_mono (leaveElections_groups (n := n₀)) (fun _ n₁ hn₁ => ?_) fun _ _ h => h
  refine EStateM.wp_forM (Restarted {name | name ∈ n.ownGroups} r n) hn₁
    (fun name _ n₂ hn₂ => ?_) fun _ h => wp_deletePeer.mpr h
  simp only [groupLeave, EStateM.wp_bind, wp_modifyGroup, wp_modifyPeer]
  refine ⟨fun _ _ name' g' hg' => ?_, fun _ => trivial⟩
  simp only [AList.lookup_modify] at hg'
  split_ifs at hg'
  · obtain ⟨g, hg, rfl⟩ := Option.map_eq_some_iff.mp hg'
    exact hn₂ name' g hg
  · exact hn₂ name' g' hg'

/-! ### Soundness over a removal -/

/-- A restart adds no pointer. -/
theorem Restarted.refers {own : Set CStr} (h : Restarted own r n n') (hr : n'.Refers r') :
    n.Refers r' := by
  obtain ⟨name, g', hg', hr⟩ := hr
  rcases h name g' hg' with ⟨g, hg, -, hleader, helection, -⟩ | hnone
  · exact ⟨name, g, hg, by rwa [Group.RefersTo, hleader, helection] at hr⟩
  · exact absurd hr (hnone r')

/-- A removed peer is not pointed to any more if the groups that point to it are to be
restarted. -/
theorem Restarted.not_refers (h : Restarted {name | name ∈ n.ownGroups} r n n')
    (hclean : n.Clean r) : ¬n'.Refers r := by
  rintro ⟨name, g', hg', hr⟩
  rcases h name g' hg' with ⟨g, hg, -, hleader, helection, hnot⟩ | hnone
  · rw [Group.RefersTo, hleader, helection] at hr
    obtain ⟨hown, hrestarts⟩ := hclean name g hg hr
    rw [hnot hown] at hrestarts
    cases hrestarts
  · exact hnone r hr

/-- The other peers that could be removed still can. -/
theorem Restarted.clean (h : Restarted {name | name ∈ n.ownGroups} r n n')
    (hown : n'.ownGroups = n.ownGroups) (hclean : n.Clean r') : n'.Clean r' := by
  intro name g' hg' hr
  rcases h name g' hg' with ⟨g, hg, hcontest, hleader, helection, hnot⟩ | hnone
  · have hr₀ : g.RefersTo r' := by rwa [Group.RefersTo, hleader, helection] at hr
    obtain ⟨hname, hrestarts⟩ := hclean name g hg hr₀
    refine ⟨hown ▸ hname, ?_⟩
    -- No election is running here, or the group would have been restarted.
    have hidle := hnot hname
    simp only [Group.restarts, Bool.and_eq_true, Bool.or_eq_true, Bool.and_eq_false_iff,
      Bool.or_eq_false_iff] at hidle hrestarts ⊢
    rcases hidle with hidle | ⟨hidle, -⟩
    · rw [hidle] at hrestarts
      cases hrestarts.1
    · rw [hidle] at hrestarts
      exact ⟨hcontest ▸ hrestarts.1, Or.inr (hleader ▸ hrestarts.2.resolve_left nofun)⟩
  · exact absurd hr (hnone r')

/-- Removing a peer keeps the pointers sound if the groups that point to it are restarted. -/
theorem Restarted.sound (h : Restarted {name | name ∈ n.ownGroups} r n n') (hn : n.Sound)
    (hr : n.Live r) (hclean : n.Clean r) (hchanges : Changes {r.identity} n n') : n'.Sound := by
  intro r' hr'
  have hlive := hn r' (h.refers hr')
  refine hchanges.live hlive fun hid => h.not_refers hclean ?_
  obtain ⟨p, hp⟩ := hr.exists
  obtain ⟨p', hp'⟩ := hlive.exists
  exact ref_eq_of_deref hp hp' (Set.mem_singleton_iff.mp hid).symm ▸ hr'

/-- The leaders of the node's own groups are there, as far as the groups are contested. -/
def LeadersLive (n : Node) : Prop := ∀ name ∈ n.ownGroups, ¬n.DeadLeader name

/-- After the removal with its restarts every leader is there. -/
theorem Restarted.leadersLive (h : Restarted {name | name ∈ n.ownGroups} r n n')
    (hn : n.LeadersLive) (hown : n'.ownGroups = n.ownGroups)
    (hchanges : Changes {r.identity} n n') : n'.LeadersLive := by
  rintro name hname ⟨g', l, hg', hcontest, hleader, hdead⟩
  rw [hown] at hname
  rcases h name g' hg' with ⟨g, hg, hcontest', hleader', -, hnot⟩ | hnone
  · have hlive : n.Live l := by
      by_contra hdead'
      exact hn name hname ⟨g, l, hg, hcontest' ▸ hcontest, hleader' ▸ hleader, hdead'⟩
    refine hdead (hchanges.live hlive fun hid => ?_)
    have hrestarts : g.restarts r = true := by
      simp [Group.restarts, ← hcontest', hcontest, ← hleader', hleader,
        Set.mem_singleton_iff.mp hid]
    rw [hnot hname] at hrestarts
    cases hrestarts
  · exact hnone l (Or.inl hleader)

end Node

end Zyre
