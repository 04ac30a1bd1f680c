import Zyre.Node.Events
import Zyre.Node.References

/-!
# What a departure makes of an election

A peer leaves a group by a LEAVE, or all of them when it is removed. In both cases the node may have to
hold the election of a contested group again, or leads it because it is alone. The two paths decide this
with different conditions: a removal counts the members while the peer is still one, if it ever was, and
goes by any election that is running; a LEAVE counts what is left, and goes by the leader alone.

`leadsAlone_iff` and `partsAlike_iff` say when the two agree with what is left of the group, and with each
other.
-/

namespace Zyre

namespace Group

variable {self : CStr} {g : Group} {r : PeerRef}

/-- The group once its election has been restarted for the removal of `r`, if it is to be. -/
def settled (self : CStr) (r : PeerRef) (g : Group) : Group :=
  if g.restarts r then g.restart self else g

@[simp]
theorem size_restart : (g.restart self).size = g.size := rfl

@[simp]
theorem peers_settled : (g.settled self r).peers = g.peers := by
  unfold settled
  split_ifs <;> rfl

theorem size_settled : (g.settled self r).size = g.size := by
  rw [size, peers_settled, size]

/-- A group of one member is not restarted twice. -/
theorem not_restarts_settled (hsize : g.size = 1) : (g.settled self r).restarts r = false := by
  unfold settled
  split_ifs with h
  · simp [restart, hsize, restarts]
  · simpa using h

/-- To restart again makes no difference. -/
theorem settled_settled : (g.settled self r).settled self r = g.settled self r := by
  have htwice : (g.restart self).restart self = g.restart self := rfl
  by_cases h : g.restarts r = true
  · have hsettled : g.settled self r = g.restart self := if_pos h
    rw [hsettled, settled, htwice, ite_self]
  · have hsettled : g.settled self r = g := if_neg h
    rw [hsettled, hsettled]

/-- The leader of the group is the peer `r`. -/
def ledBy (g : Group) (r : PeerRef) : Bool := g.leader.any fun l => decide (l.identity = r.identity)

theorem restarts_of_ledBy (hcontest : g.contest = true) (h : g.ledBy r = true) :
    g.restarts r = true := by
  rw [ledBy] at h
  simp [restarts, hcontest, h]

/-- The last member leaves. -/
theorem size_leave (h : r.identity ∈ g.peers) : (g.leave r).size = 0 ↔ g.size = 1 := by
  have hkeys : r.identity ∈ g.peers.keys := h
  have hpos := List.length_pos_of_mem hkeys
  simp only [size, leave, AList.keys_erase, List.length_erase_of_mem hkeys]
  omega

@[simp]
theorem leave_leave : (g.leave r).leave r = g.leave r := by
  have hnot : r.identity ∉ (g.peers.erase r.identity).keys := by
    rw [AList.keys_erase]
    exact (g.peers.keys_nodup).not_mem_erase
  simp only [leave]
  congr 1
  refine AList.ext ?_
  exact List.kerase_of_notMem_keys hnot

end Group

namespace Node

variable {n n' n₁ n₂ : Node} {r : PeerRef} {p : Peer} {name : CStr} {msg : Msg} {g : Group}

/-- The node has told that it leads the group. -/
def Proclaims (n n' : Node) (name : CStr) : Prop :=
  ∃ es leaderName, n'.outbox = n.outbox ++ es ∧ .leader n.identity leaderName name ∈ es

/-! ### A removal -/

/-- What the loop over the node's own groups does when `r` is removed. -/
theorem leaveElections_spec (l : List CStr) :
    (forM l (leaveElection r) : NodeM Unit).wp
      (fun _ n' => (∀ name, n'.peerGroups.lookup name =
          if name ∈ l then some (((n.peerGroups.lookup name).getD .new).settled n.identity r)
          else n.peerGroups.lookup name) ∧
        (∃ es, n'.outbox = n.outbox ++ es ∧ ∀ e, e ∈ es ↔ ∃ name ∈ l,
          ((n.peerGroups.lookup name).getD .new).restarts r = true ∧
            ((n.peerGroups.lookup name).getD .new).size = 1 ∧ e = .leader n.identity n.name name) ∧
        n'.own = n.own)
      (fun _ _ => True) n := by
  set G : CStr → Group := fun name => (n.peerGroups.lookup name).getD .new with hG
  refine EStateM.wp_forM_done (fun done n' => (∀ name, n'.peerGroups.lookup name =
        if name ∈ done then some ((G name).settled n.identity r) else n.peerGroups.lookup name) ∧
      (∃ es, n'.outbox = n.outbox ++ es ∧ ∀ e, e ∈ es ↔ ∃ name ∈ done,
        (G name).restarts r = true ∧ (G name).size = 1 ∧ e = .leader n.identity n.name name) ∧
      n'.own = n.own) ⟨fun name => by simp, ⟨[], by simp, by simp⟩, rfl⟩ ?_ fun _ h => h
  rintro done name - - n₁ ⟨hgroups, ⟨es, hes, hmem⟩, hown⟩
  have hidentity : n₁.identity = n.identity := (congrArg Node.identity hown :)
  have hname : n₁.name = n.name := (congrArg Node.name hown :)
  refine EStateM.wp_mono (leaveElection_spec rfl) (fun _ n₂ h₂ => ?_) fun _ _ h => h
  obtain ⟨hgroups₂, houtbox₂, hown₂⟩ := h₂
  -- The group as it is now: it may have been settled before.
  have hcases : (n₁.peerGroups.lookup name).getD .new = (G name).settled n.identity r ∧ name ∈ done ∨
      (n₁.peerGroups.lookup name).getD .new = G name := by
    rw [hgroups]
    by_cases hdone : name ∈ done
    · exact Or.inl ⟨by rw [if_pos hdone, Option.getD_some], hdone⟩
    · exact Or.inr (by rw [if_neg hdone])
  have hsettled : ((n₁.peerGroups.lookup name).getD .new).settled n.identity r =
      (G name).settled n.identity r := by
    rcases hcases with ⟨h, -⟩ | h
    · rw [h, Group.settled_settled]
    · rw [h]
  refine ⟨fun name' => ?_, ?_, hown₂.trans hown⟩
  · rw [hgroups₂, hidentity]
    by_cases hsame : name' = name
    · subst hsame
      rw [if_pos rfl, if_pos (show name' ∈ done ++ [name'] by simp), ← hsettled, Group.settled]
    · rw [if_neg hsame, hgroups]
      simp [hsame]
  · refine ⟨_, by rw [houtbox₂, hes, List.append_assoc], fun e => ?_⟩
    rw [List.mem_append, hmem, hidentity, hname]
    rcases hcases with ⟨h, hdone⟩ | h
    · -- What there is to tell of the group has been told before.
      have hnot : ¬(((G name).settled n.identity r).restarts r = true ∧
          ((G name).settled n.identity r).size = 1) := by
        rintro ⟨hrestarts, hsize⟩
        rw [Group.size_settled] at hsize
        rw [Group.not_restarts_settled hsize] at hrestarts
        cases hrestarts
      rw [h, if_neg hnot]
      constructor
      · rintro (⟨name', hname', he⟩ | he)
        · exact ⟨name', List.mem_append_left _ hname', he⟩
        · exact nomatch he
      · rintro ⟨name', hname', he⟩
        rcases List.mem_append.mp hname' with hname' | hname'
        · exact Or.inl ⟨name', hname', he⟩
        · obtain rfl := List.mem_singleton.mp hname'
          exact Or.inl ⟨_, hdone, he⟩
    · rw [h]
      constructor
      · rintro (⟨name', hname', h⟩ | h)
        · exact ⟨name', List.mem_append_left _ hname', h⟩
        · split_ifs at h with htell
          · exact ⟨name, by simp, htell.1, htell.2, List.mem_singleton.mp h⟩
          · exact nomatch h
      · rintro ⟨name', hname', hrestarts, hsize, he⟩
        rcases List.mem_append.mp hname' with hname' | hname'
        · exact Or.inl ⟨name', hname', hrestarts, hsize, he⟩
        · obtain rfl := List.mem_singleton.mp hname'
          exact Or.inr (by simp [hrestarts, hsize, he])

/-- What leaving all groups does. -/
theorem groupLeaves_groups :
    (forM n.peerGroups.keys (fun name => groupLeave name r) : NodeM Unit).wp
      (fun _ n' => (∀ name, n'.peerGroups.lookup name = (n.peerGroups.lookup name).map (·.leave r)) ∧
        n'.outbox = n.outbox)
      (fun _ _ => True) n := by
  refine EStateM.wp_forM_done (fun done n' => (∀ name, n'.peerGroups.lookup name =
      if name ∈ done then (n.peerGroups.lookup name).map (·.leave r) else n.peerGroups.lookup name) ∧
    n'.outbox = n.outbox) ⟨fun name => by simp, rfl⟩ ?_ ?_
  · rintro done name - - n₁ ⟨hgroups, houtbox⟩
    simp only [groupLeave, EStateM.wp_bind, wp_modifyGroup, wp_modifyPeer]
    refine ⟨fun _ _ => ⟨fun name' => ?_, houtbox⟩, fun _ => trivial⟩
    rw [AList.lookup_modify, hgroups]
    by_cases hdone : name' ∈ done
    · by_cases hsame : name' = name
      · rw [if_pos hsame, if_pos hdone, if_pos (List.mem_append_left _ hdone), Option.map_map]
        congr 1
        exact funext fun _ => Group.leave_leave
      · rw [if_neg hsame, if_pos hdone, if_pos (List.mem_append_left _ hdone)]
    · by_cases hsame : name' = name
      · rw [if_pos hsame, if_neg hdone, if_pos (by simp [hsame])]
      · rw [if_neg hsame, if_neg hdone, if_neg (by simp [hdone, hsame])]
  · rintro n' ⟨hgroups, houtbox⟩
    refine ⟨fun name => ?_, houtbox⟩
    rw [hgroups]
    split_ifs with hname
    · rfl
    · have hnone : n.peerGroups.lookup name = none := AList.lookup_eq_none.mpr hname
      rw [hnone, Option.map_none]

/-- What a removal makes of the groups, and what it tells. -/
theorem removePeer_alone :
    (removePeer r).wp
      (fun _ n' => (∀ name, n'.peerGroups.lookup name =
          (if name ∈ n.ownGroups then some (((n.peerGroups.lookup name).getD .new).settled n.identity r)
            else n.peerGroups.lookup name).map (·.leave r)) ∧
        ∀ name, n.Proclaims n' name ↔ name ∈ n.ownGroups ∧
          ((n.peerGroups.lookup name).getD .new).restarts r = true ∧
            ((n.peerGroups.lookup name).getD .new).size = 1)
      (fun _ _ => True) n := by
  simp only [removePeer, EStateM.wp_bind, wp_readPeer, wp_emit, EStateM.wp_get]
  refine ⟨fun p hp => ?_, fun _ => trivial⟩
  set n₀ : Node := { n with outbox := n.outbox ++ [.exit r.identity p.nameStr] }
  refine EStateM.wp_mono (leaveElections_spec (n := n₀) n.ownGroups) (fun _ n₁ h₁ => ?_) fun _ _ h => h
  obtain ⟨hgroups, ⟨es, hes, hmem⟩, -⟩ := h₁
  have houtbox₁ : n₁.outbox = n.outbox ++ (.exit r.identity p.nameStr :: es) := by
    rw [hes, List.append_assoc]
    rfl
  refine EStateM.wp_mono groupLeaves_groups (fun _ n₂ h₂ => wp_deletePeer.mpr ?_) fun _ _ h => h
  obtain ⟨hgroups₂, houtbox₂⟩ := h₂
  refine ⟨fun name => by rw [hgroups₂, hgroups]; rfl, fun name => ?_⟩
  constructor
  · rintro ⟨es', leaderName, hes', hleader⟩
    have houtbox : n₂.outbox = n.outbox ++ es' := hes'
    rw [houtbox₂, houtbox₁, List.append_cancel_left_eq] at houtbox
    rw [← houtbox] at hleader
    rcases List.mem_cons.mp hleader with h | h
    · cases h
    · obtain ⟨name', hname', hrestarts, hsize, he⟩ := (hmem _).mp h
      obtain ⟨-, -, rfl⟩ := Event.leader.inj he
      exact ⟨hname', hrestarts, hsize⟩
  · rintro ⟨hname, hrestarts, hsize⟩
    refine ⟨_, n.name, houtbox₂.trans houtbox₁, List.mem_cons_of_mem _ ?_⟩
    exact (hmem _).mpr ⟨name, hname, hrestarts, hsize, rfl⟩

/-! ### A LEAVE -/

theorem leavePeerGroup_alone (hg : (n.peerGroups.lookup name).getD .new = g) :
    (leavePeerGroup r name).wp
      (fun _ n' => n'.peerGroups.lookup name = some (g.leave r) ∧
        (∃ peerName, n'.outbox = n.outbox ++ [.leave r.identity peerName name]) ∧ n'.own = n.own)
      (fun _ _ => True) n := by
  have hlook : (n.peerGroups.insertNew name .new).lookup name = some g :=
    hg ▸ lookup_insertNew_self n.peerGroups
  simp only [leavePeerGroup, groupLeave, EStateM.wp_bind, wp_requirePeerGroup, wp_modifyGroup,
    wp_modifyPeer, wp_readPeer, wp_emit]
  refine ⟨fun _ _ => ⟨fun q _ => ⟨?_, ⟨q.nameStr, rfl⟩, rfl⟩, fun _ => trivial⟩, fun _ => trivial⟩
  rw [AList.lookup_modify_self, hlook, Option.map_some]

/-- What a LEAVE makes of its group, and what it tells. -/
theorem recvLeave_alone (hg : (n.peerGroups.lookup msg.group).getD .new = g) :
    (recvLeave r msg).wp
      (fun _ n' => n'.peerGroups.lookup msg.group =
          some (if msg.group ∈ n.ownGroups ∧ g.contest = true ∧ g.ledBy r = true then
            { g.leave r with
              leader := none
              election := if (g.leave r).size = 0 then none else some (Election.new.setCaw n.identity) }
            else g.leave r) ∧
        ∀ name, n.Proclaims n' name ↔ name = msg.group ∧ msg.group ∈ n.ownGroups ∧ g.contest = true ∧
          g.ledBy r = true ∧ (g.leave r).size = 0)
      (fun _ _ => True) n := by
  refine EStateM.wp_bind .. |>.mpr (EStateM.wp_mono (leavePeerGroup_alone hg) (fun _ n₁ h₁ => ?_)
    fun _ _ h => h)
  obtain ⟨hlook, ⟨peerName, houtbox⟩, hown⟩ := h₁
  have hgroups : n₁.ownGroups = n.ownGroups := (congrArg Node.ownGroups hown :)
  have hidentity : n₁.identity = n.identity := (congrArg Node.identity hown :)
  -- Where nothing is settled the group is left, and nothing is told but that.
  have hstay : ∀ {c : Prop} [Decidable c] {g' : Group} {P : CStr → Prop}, ¬c → (∀ name, ¬P name) →
      n₁.peerGroups.lookup msg.group = some (if c then g' else g.leave r) ∧
        ∀ name, n.Proclaims n₁ name ↔ P name := by
    intro c _ g' P hc hP
    refine ⟨by rw [hlook, if_neg hc], fun name => iff_of_false ?_ (hP name)⟩
    rintro ⟨es, leaderName, hes, hmem⟩
    rw [houtbox, List.append_cancel_left_eq] at hes
    rw [← hes] at hmem
    cases List.mem_singleton.mp hmem
  simp only [EStateM.wp_bind, wp_readPeer, wp_assert, EStateM.wp_get]
  refine ⟨fun _ _ => ⟨fun _ => EStateM.wp_ite .. |>.mpr ⟨fun hmem => ?_, fun hmem => ?_⟩,
    fun _ => trivial⟩, fun _ => trivial⟩
  swap
  · rw [hgroups] at hmem
    exact hstay (fun h => hmem h.1) fun _ h => hmem h.2.1
  rw [hgroups] at hmem
  simp only [EStateM.wp_bind, wp_getGroup, hlook, Option.getD_some]
  refine EStateM.wp_ite .. |>.mpr ⟨fun hcontest => ?_, fun hcontest => ?_⟩
  swap
  · exact hstay (fun h => hcontest h.2.1) fun _ h => hcontest h.2.2.1
  have hcontest : g.contest = true := hcontest
  cases hleader : g.leader with
  | none =>
    have hled : ¬g.ledBy r = true := by simp [Group.ledBy, hleader]
    have hleader' : (g.leave r).leader = none := hleader
    simp only [hleader']
    exact hstay (fun h => hled h.2.2) fun _ h => hled h.2.2.2.1
  | some l =>
    have hleader' : (g.leave r).leader = some l := hleader
    simp only [hleader', EStateM.wp_bind, wp_readPeer]
    refine ⟨fun _ _ => EStateM.wp_ite .. |>.mpr ⟨fun hid => ?_, fun hid => ?_⟩, fun _ => trivial⟩
    swap
    · have hled : ¬g.ledBy r = true := by simp [Group.ledBy, hleader, hid]
      exact hstay (fun h => hled h.2.2) fun _ h => hled h.2.2.2.1
    have hled : g.ledBy r = true := by simp [Group.ledBy, hleader, hid]
    refine EStateM.wp_mono (settle_spec hlook) (fun _ n₂ h₂ => ?_) fun _ _ h => h
    obtain ⟨hgroups₂, houtbox₂, -⟩ := h₂
    constructor
    · have hsettles : msg.group ∈ n.ownGroups ∧ g.contest = true ∧ g.ledBy r = true :=
        ⟨hmem, hcontest, hled⟩
      rw [hgroups₂, if_pos (Eq.refl msg.group), if_pos hsettles, hidentity]
      split_ifs <;> rfl
    · intro name
      have houtbox₂ : n₂.outbox = n.outbox ++ (.leave r.identity peerName msg.group ::
          if (g.leave r).size = 0 then [.leader n₁.identity n₁.name msg.group] else []) := by
        rw [houtbox₂, houtbox, List.append_assoc]
        rfl
      constructor
      · rintro ⟨es, leaderName, hes, htold⟩
        rw [houtbox₂, List.append_cancel_left_eq] at hes
        rw [← hes] at htold
        rcases List.mem_cons.mp htold with h | h
        · cases h
        · split_ifs at h with hsize
          · obtain ⟨-, -, rfl⟩ := Event.leader.inj (List.mem_singleton.mp h)
            exact ⟨rfl, hmem, hcontest, hled, hsize⟩
          · cases h
      · rintro ⟨rfl, -, -, -, hsize⟩
        refine ⟨_, n₁.name, houtbox₂, List.mem_cons_of_mem _ ?_⟩
        rw [if_pos hsize, hidentity]
        exact List.mem_singleton_self _

/-! ### Alone -/

/-- Where the node has told that it leads a group, nobody but itself is in it. -/
def LeadsAlone (n n' : Node) : Prop := ∀ name, n.Proclaims n' name → ∀ Y ∈ n'.members name, Y = n.identity

/-- Where the node would be alone without a member, that member is `r`, or the node itself. -/
def SoleMember (n : Node) (r : PeerRef) : Prop :=
  ∀ name ∈ n.ownGroups, ∀ g, n.peerGroups.lookup name = some g → g.restarts r = true → g.size = 1 →
    r.identity ∈ g.peers ∨ n.identity ∈ g.peers

theorem not_mem_of_size {g : Group} (h : g.size = 0) (Y : CStr) : Y ∉ g.peers := by
  intro hY
  have hkeys : g.peers.keys = [] := List.eq_nil_of_length_eq_zero h
  have hmem : Y ∈ g.peers.keys := hY
  rw [hkeys] at hmem
  exact nomatch hmem

/-- A group of size one has one member. -/
theorem eq_of_size {g : Group} (h : g.size = 1) {X Y : CStr} (hX : X ∈ g.peers) (hY : Y ∈ g.peers) : X = Y := by
  obtain ⟨Z, hkeys⟩ := List.length_eq_one_iff.mp h
  have hX : X ∈ g.peers.keys := hX
  have hY : Y ∈ g.peers.keys := hY
  rw [hkeys, List.mem_singleton] at hX hY
  exact hX.trans hY.symm

theorem leadsAlone_removePeer (hok : removePeer r n = .ok ⟨⟩ n') : LeadsAlone n n' ↔ SoleMember n r := by
  obtain ⟨hgroups, hproclaims⟩ := EStateM.wp_of_ok hok removePeer_alone
  have hmembers : ∀ name ∈ n.ownGroups, ∀ g, n.peerGroups.lookup name = some g →
      n'.members name = (g.leave r).peers := by
    intro name hname g hg
    rw [members, hgroups, if_pos hname, hg]
    simp [Group.leave]
  constructor
  · intro h name hname g hg hrestarts hone
    by_contra! hnot
    -- The one member is another peer, which stays.
    obtain ⟨Y, hY⟩ := List.length_eq_one_iff.mp hone
    have hpeer : Y ∈ g.peers := (hY ▸ List.mem_singleton_self Y : Y ∈ g.peers.keys)
    have hne : Y ≠ r.identity := fun heq => hnot.1 (heq ▸ hpeer)
    have hlook : (n.peerGroups.lookup name).getD .new = g := by rw [hg, Option.getD_some]
    have hproclaim := (hproclaims name).mpr ⟨hname, hlook.symm ▸ hrestarts, hlook.symm ▸ hone⟩
    have hstays : Y ∈ n'.members name := hmembers name hname g hg ▸ AList.mem_erase.mpr ⟨hne, hpeer⟩
    exact hnot.2 (h name hproclaim Y hstays ▸ hpeer)
  · intro h name hproclaim Y hY
    obtain ⟨hname, hrestarts, hone⟩ := (hproclaims name).mp hproclaim
    cases hg : n.peerGroups.lookup name with
    | none => simp [hg, Group.restarts, Group.new] at hrestarts
    | some g =>
      rw [hg, Option.getD_some] at hrestarts hone
      rw [hmembers name hname g hg] at hY
      rcases h name hname g hg hrestarts hone with hmember | hself
      · exact absurd hY (not_mem_of_size ((Group.size_leave hmember).mpr hone) Y)
      · exact eq_of_size hone (AList.mem_erase.mp hY).2 hself

theorem leadsAlone_recvLeave (hok : recvLeave r msg n = .ok ⟨⟩ n') : LeadsAlone n n' := by
  obtain ⟨hlook, hproclaims⟩ := EStateM.wp_of_ok hok (recvLeave_alone rfl)
  intro name hproclaim Y hY
  obtain ⟨rfl, hown, hcontest, hled, hsize⟩ := (hproclaims name).mp hproclaim
  rw [members, hlook, Option.getD_some, if_pos ⟨hown, hcontest, hled⟩] at hY
  exact absurd hY (not_mem_of_size (g := Group.leave _ r) hsize Y)

/-- **Alone.** A node that tells it leads a group because it is alone is alone: always on a LEAVE, and on a
removal exactly if the peer, or the node itself, was the member of each group that is down to one. A removal
counts the members of every own group before the peer is taken out, whether it is a member or not. -/
theorem leadsAlone_iff (n : Node) (r : PeerRef) :
    (∀ n', removePeer r n = .ok ⟨⟩ n' → (LeadsAlone n n' ↔ SoleMember n r)) ∧
      ∀ msg n', recvLeave r msg n = .ok ⟨⟩ n' → LeadsAlone n n' :=
  ⟨fun _ hok => leadsAlone_removePeer hok, fun _ _ hok => leadsAlone_recvLeave hok⟩

theorem reachable_soleNode : Reachable soleNode :=
  .step _ _ (.step _ _ (.step _ _ (.new _ _) (step_eq_of_isOk (by decide +kernel)))
    (step_eq_of_isOk (by decide +kernel))) (step_eq_of_isOk (by decide +kernel))

/-- It is removed, and the node leads alone. -/
theorem leadsAlone_soleNode :
    LeadsAlone soleNode (final (removePeer ⟨(sampleUuid 1).str, 0⟩ soleNode)) := by
  have hok := eq_of_isOk (x := removePeer ⟨(sampleUuid 1).str, 0⟩) (n := soleNode) (by decide +kernel)
  refine ((leadsAlone_iff soleNode _).1 _ hok).mpr fun name hname g hg _ _ => ?_
  have hown : soleNode.ownGroups = [sampleGroup] := by decide +kernel
  rw [hown] at hname
  obtain rfl := List.mem_singleton.mp hname
  have hmember : (soleNode.peerGroups.lookup sampleGroup).any
      (fun g => (sampleUuid 1).str ∈ g.peers.keys) = true := by decide +kernel
  rw [hg] at hmember
  have hmem : (sampleUuid 1).str ∈ g.peers.keys := by simpa using hmember
  exact Or.inl hmem

/-- Another peer is known, that is in no group, and it is removed: the node tells that it leads the group,
in which the first one still is. -/
theorem not_leadsAlone_of_stranger :
    ¬∀ n r n', Reachable n → removePeer r n = .ok ⟨⟩ n' → LeadsAlone n n' := by
  intro h
  set n := final (Node.step (sampleEnv 0)
    (.api (.requirePeer (sampleUuid 2) (sampleEndpoint 'q') none)) soleNode) with hn
  have hreachable : Reachable n := .step _ _ reachable_soleNode (step_eq_of_isOk (by decide +kernel))
  have hok := eq_of_isOk (x := removePeer ⟨(sampleUuid 2).str, 1⟩) (n := n) (by decide +kernel)
  have hsole := leadsAlone_removePeer hok |>.mp (h n _ _ hreachable hok)
  have hgroup : (n.peerGroups.lookup sampleGroup).any (fun g =>
      g.restarts ⟨(sampleUuid 2).str, 1⟩ && decide (g.size = 1) &&
        !decide ((sampleUuid 2).str ∈ g.peers.keys ∨ n.identity ∈ g.peers.keys)) = true := by decide +kernel
  obtain ⟨g, hg, hgroup⟩ := (Option.any_eq_true _ _).mp hgroup
  simp only [Bool.and_eq_true, decide_eq_true_eq, Bool.not_eq_true', decide_eq_false_iff_not] at hgroup
  exact hgroup.2 (hsole sampleGroup (by decide +kernel) g hg hgroup.1.1 hgroup.1.2)

/-! ### Alike -/

/-- The group and what is told of it are the same after both. -/
structure PartsAlike (n n₁ n₂ : Node) (name : CStr) : Prop where
  group : n₁.peerGroups.lookup name = n₂.peerGroups.lookup name
  told : n.Proclaims n₁ name ↔ n.Proclaims n₂ name

theorem leave_settled_iff {self : CStr} :
    (g.settled self r).leave r = g.leave r ↔ g.settled self r = g := by
  refine ⟨fun h => ?_, fun h => by rw [h]⟩
  have hcontest : (g.settled self r).contest = g.contest := (congrArg Group.contest h :)
  have hleader : (g.settled self r).leader = g.leader := (congrArg Group.leader h :)
  have helection : (g.settled self r).election = g.election := (congrArg Group.election h :)
  calc g.settled self r
      = ⟨(g.settled self r).peers, (g.settled self r).contest, (g.settled self r).leader,
          (g.settled self r).election⟩ := rfl
    _ = g := by rw [Group.peers_settled, hcontest, hleader, helection]

/-- **Two ways to go.** A LEAVE of a member and its removal do the same to a contested group, its members,
leader and election and what the node tells of it, exactly if the member is its leader, or a removal leaves
the election as it is. A removal discards an election that is running, and a LEAVE lets it run on. -/
theorem partsAlike_iff (hown : msg.group ∈ n.ownGroups) (hg : n.peerGroups.lookup msg.group = some g)
    (hcontest : g.contest = true) (hmember : r.identity ∈ g.peers)
    (hleave : recvLeave r msg n = .ok ⟨⟩ n₁) (hremove : removePeer r n = .ok ⟨⟩ n₂) :
    PartsAlike n n₁ n₂ msg.group ↔ g.ledBy r = true ∨ g.settled n.identity r = g := by
  have hget : (n.peerGroups.lookup msg.group).getD .new = g := by rw [hg, Option.getD_some]
  obtain ⟨hlook₁, htold₁⟩ := EStateM.wp_of_ok hleave (recvLeave_alone hget)
  obtain ⟨hlook₂, htold₂⟩ := EStateM.wp_of_ok hremove removePeer_alone
  have hlook₂ : n₂.peerGroups.lookup msg.group = some ((g.settled n.identity r).leave r) := by
    rw [hlook₂, if_pos hown, hget, Option.map_some]
  have htold₂ : n.Proclaims n₂ msg.group ↔ g.restarts r = true ∧ g.size = 1 := by
    rw [htold₂, hget]
    exact ⟨fun h => h.2, fun h => ⟨hown, h⟩⟩
  by_cases hled : g.ledBy r = true
  · refine iff_of_true ⟨?_, ?_⟩ (Or.inl hled)
    · have hrestarts := Group.restarts_of_ledBy hcontest hled
      rw [hlook₁, hlook₂, if_pos ⟨hown, hcontest, hled⟩, Group.settled, if_pos hrestarts]
      simp only [Group.size_leave hmember]
      rfl
    · rw [htold₁, htold₂]
      constructor
      · rintro ⟨-, -, -, -, hsize⟩
        exact ⟨Group.restarts_of_ledBy hcontest hled, (Group.size_leave hmember).mp hsize⟩
      · rintro ⟨-, hsize⟩
        exact ⟨rfl, hown, hcontest, hled, (Group.size_leave hmember).mpr hsize⟩
  · have hlook₁ : n₁.peerGroups.lookup msg.group = some (g.leave r) := by
      rw [hlook₁, if_neg fun h => hled h.2.2]
    constructor
    · intro h
      have hsame := h.group
      rw [hlook₁, hlook₂] at hsame
      exact Or.inr (leave_settled_iff.mp (Option.some_inj.mp hsame).symm)
    · intro h
      have hsettled := h.resolve_left hled
      refine ⟨by rw [hlook₁, hlook₂, hsettled], ?_⟩
      rw [htold₁, htold₂]
      refine iff_of_false (fun h => hled h.2.2.2.1) fun ⟨hrestarts, hsize⟩ => ?_
      have hnot : (g.settled n.identity r).restarts r = false := Group.not_restarts_settled hsize
      rw [hsettled, hrestarts] at hnot
      cases hnot

/-- The LEAVE of the peer that has said HELLO. -/
def sampleLeave : Msg := { (Msg.new .leave).setGroup sampleGroup with status := 1 }

/-- Two peers are in the group of the node, and the election that the node has held with them is over: the
first one leads. -/
def ledNode : Node :=
  let n := final
    (Node.step (sampleEnv 0) (sampleInput 2 { sampleHello with endpoint := sampleEndpoint 'q' }) soleNode)
  let n := final (Node.step (sampleEnv 0) (sampleInput 1 sampleLeader) n)
  final (Node.step (sampleEnv 0) (sampleInput 2 sampleLeader) n)

/-- The leader leaves, or is removed: either way the node holds an election with the one that is left. -/
theorem partsAlike_ledNode : PartsAlike ledNode
    (final (recvLeave ⟨(sampleUuid 1).str, 0⟩ sampleLeave ledNode))
    (final (removePeer ⟨(sampleUuid 1).str, 0⟩ ledNode)) sampleGroup := by
  have hleave := eq_of_isOk (x := recvLeave ⟨(sampleUuid 1).str, 0⟩ sampleLeave) (n := ledNode)
    (by decide +kernel)
  have hremove := eq_of_isOk (x := removePeer ⟨(sampleUuid 1).str, 0⟩) (n := ledNode)
    (by decide +kernel)
  have hgroup : (ledNode.peerGroups.lookup sampleGroup).any (fun g => g.contest &&
      decide ((sampleUuid 1).str ∈ g.peers.keys) && g.ledBy ⟨(sampleUuid 1).str, 0⟩) = true := by
    decide +kernel
  obtain ⟨g, hg, hgroup⟩ := (Option.any_eq_true _ _).mp hgroup
  simp only [Bool.and_eq_true, decide_eq_true_eq] at hgroup
  have hown : sampleLeave.group ∈ ledNode.ownGroups := by decide +kernel
  exact (partsAlike_iff hown hg hgroup.1.1 hgroup.1.2 hleave hremove).mpr (Or.inl hgroup.2)

/-- An election is running, and a member leaves that is not the leader: a LEAVE lets it run on, a removal
ends it. -/
theorem not_partsAlike_of_running : ¬∀ n n₁ n₂ r (msg : Msg) (g : Group), Reachable n →
    msg.group ∈ n.ownGroups → n.peerGroups.lookup msg.group = some g → g.contest = true →
      r.identity ∈ g.peers → recvLeave r msg n = .ok ⟨⟩ n₁ → removePeer r n = .ok ⟨⟩ n₂ →
        PartsAlike n n₁ n₂ msg.group := by
  intro h
  have hleave := eq_of_isOk (x := recvLeave ⟨(sampleUuid 1).str, 0⟩ sampleLeave) (n := soleNode)
    (by decide +kernel)
  have hremove := eq_of_isOk (x := removePeer ⟨(sampleUuid 1).str, 0⟩) (n := soleNode)
    (by decide +kernel)
  have hgroup : (soleNode.peerGroups.lookup sampleGroup).any (fun g => g.contest &&
      decide ((sampleUuid 1).str ∈ g.peers.keys)) = true := by decide +kernel
  obtain ⟨g, hg, hgroup⟩ := (Option.any_eq_true _ _).mp hgroup
  simp only [Bool.and_eq_true, decide_eq_true_eq] at hgroup
  have hsame := (h _ _ _ _ sampleLeave g reachable_soleNode (by decide +kernel) hg hgroup.1 hgroup.2
    hleave hremove).group
  have hruns : ((final (recvLeave ⟨(sampleUuid 1).str, 0⟩ sampleLeave soleNode)).peerGroups.lookup
      sampleGroup).any (·.election.isSome) = true := by decide +kernel
  have hends : ((final (removePeer ⟨(sampleUuid 1).str, 0⟩ soleNode)).peerGroups.lookup
      sampleGroup).any (·.election.isSome) = false := by decide +kernel
  have hname : sampleLeave.group = sampleGroup := by decide
  rw [hname] at hsame
  rw [hsame, hends] at hruns
  cases hruns

end Node

end Zyre
