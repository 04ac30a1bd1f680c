import Zyre.ForMathlib.Echo.Basic
import Zyre.Msg.RoundTrip
import Zyre.Node.Lifetime
import Zyre.Node.Mailing

/-!
# A node as a site of the echo algorithm

In one group ELECT and LEADER do what the echo algorithm does at a site: `recvElect_votes` and
`recvLeader_votes` say that the wave a node is in, the leaders it tells of and what it sends to its peers
are those of `Echo.Site.handle`. The counters of a site are natural numbers and those of an election are
`unsigned int`, so this needs a group with fewer than 2^32 other members.
-/

namespace Zyre

open Echo

/-- The message that carries a token. -/
def ballot (g : CStr) : Token CStr → Msg
  | .elect r => ((Msg.new .elect).setChallengerId r).setGroup g
  | .leader r => ((Msg.new .leader).setLeaderId r).setGroup g

/-- What the election is about, as a site sees it. -/
def Election.toWave (e : Election) : Option (Wave CStr) :=
  e.caw.map fun caw => ⟨caw, e.father.map PeerRef.identity, e.erec.toNat, e.lrec.toNat⟩

/-- An election that supports a challenger is in a wave, with the counters read as numbers. -/
theorem Election.toWave_of_caw {e : Election} {caw : CStr} (h : e.caw = some caw) :
    e.toWave = some ⟨caw, e.father.map PeerRef.identity, e.erec.toNat, e.lrec.toNat⟩ := by
  rw [toWave, h, Option.map_some]

/-- Below 2^32 the counter of ELECT messages goes up by one. -/
theorem Election.toNat_incrementErec {e : Election} (h : e.erec.toNat + 1 < 2 ^ 32) :
    e.incrementErec.erec.toNat = e.erec.toNat + 1 := by
  show (e.erec + 1).toNat = _
  rw [UInt32.toNat_add]
  exact Nat.mod_eq_of_lt h

/-- So does the counter of LEADER messages. -/
theorem Election.toNat_incrementLrec {e : Election} (h : e.lrec.toNat + 1 < 2 ^ 32) :
    e.incrementLrec.lrec.toNat = e.lrec.toNat + 1 := by
  show (e.lrec + 1).toNat = _
  rw [UInt32.toNat_add]
  exact Nat.mod_eq_of_lt h

/-- The election of the site's wave. -/
def Holds (e : Option Election) (w : Option (Wave CStr)) : Prop := e.map Election.toWave = w.map some

/-- One ballot for each member. -/
theorem map_toAll {F : Finset CStr} {t : Token CStr} {g Z : CStr} :
    (toAll F t Z).map (ballot g) = if Z ∈ F then [ballot g t] else [] := by
  unfold toAll
  split_ifs <;> rfl

/-- The leaders of the group that the events tell of. -/
def leadersIn (g : CStr) (log : List Event) : List CStr :=
  log.filterMap fun
    | .leader identity _ group => if group = g then some identity else none
    | _ => none

/-- The leaders told of are those told before, and those since. -/
theorem leadersIn_append {g : CStr} {log log' : List Event} :
    leadersIn g (log ++ log') = leadersIn g log ++ leadersIn g log' := List.filterMap_append ..

namespace Node

variable {n n₁ n' : Node} {g Z : CStr} {e e' : Option Election} {out out' : CStr → List Msg}
  {told told' : List CStr} {r : PeerRef} {msg : Msg} {s : Site CStr}

/-- The other members of the group. -/
def voters (n : Node) (g : CStr) : Finset CStr := (n.members g).keys.toFinset

/-- The voters are the members of the group. -/
theorem mem_voters : Z ∈ n.voters g ↔ Z ∈ n.members g := by
  rw [voters, List.mem_toFinset, AList.mem_keys]

/-- There are as many voters as the group has members: what ELECT and LEADER are counted against. -/
theorem card_voters : (n.voters g).card = ((n.peerGroups.lookup g).getD .new).size :=
  List.toFinset_card_of_nodup (n.members g).nodupKeys

theorem voters_congr (h : n'.members = n.members) : n'.voters g = n.voters g := by
  rw [voters, h, voters]

/-- The node holds the election `e`, has told of `told` and has sent `out`, and is the same otherwise. -/
structure Votes (g : CStr) (e : Option Election) (out : CStr → List Msg) (told : List CStr)
    (n n' : Node) : Prop where
  own : n'.own = n.own
  members : n'.members = n.members
  election : n'.groupElection g = e
  leaders : leadersIn g n'.outbox = leadersIn g n.outbox ++ told
  keys : n'.peers.keys = n.peers.keys
  posts : ∀ Z, Posts Z (out Z) n n'

namespace Votes

theorem trans (h : Votes g e out told n n₁) (h' : Votes g e' out' told' n₁ n') :
    Votes g e' (fun Z => out Z ++ out' Z) (told ++ told') n n' where
  own := h'.own.trans h.own
  members := h'.members.trans h.members
  election := h'.election
  leaders := by rw [h'.leaders, h.leaders, List.append_assoc]
  keys := h'.keys.trans h.keys
  posts Z := (h.posts Z).trans (h'.posts Z)

theorem congr (h : Votes g e out told n n') (hout : ∀ Z, out Z = out' Z) : Votes g e out' told n n' :=
  funext hout ▸ h

/-- Nothing is sent first. -/
theorem after (h : Votes g e (fun _ => []) [] n n₁) (h' : Votes g e' out told n₁ n') :
    Votes g e' out told n n' :=
  (h.trans h').congr fun _ => List.nil_append _

/-- Nothing is sent afterwards. -/
theorem before (h : Votes g e out told n n₁) (h' : Votes g e' (fun _ => []) told' n₁ n') :
    Votes g e' out (told ++ told') n n' :=
  (h.trans h').congr fun _ => List.append_nil _

theorem identity (h : Votes g e out told n n') : n'.identity = n.identity :=
  (congrArg Node.identity h.own :)

theorem voters (h : Votes g e out told n n') : n'.voters g = n.voters g := voters_congr h.members

theorem mem_peers (h : Votes g e out told n n') : Z ∈ n'.peers ↔ Z ∈ n.peers := by
  rw [AList.mem_keys, h.keys, AList.mem_keys]

end Votes

/-! ### The primitives -/

/-- What is only sent leaves the election. -/
theorem Mailing.votes (h : Mailing out n n') : Votes g (n.groupElection g) out [] n n' where
  own := h.own
  members := h.members
  election := by rw [groupElection, h.peerGroups, groupElection]
  leaders := by rw [h.outbox, List.append_nil]
  keys := h.keys
  posts := h.posts

/-- The election of a group that is there is changed. -/
theorem votes_modify {f : Group → Group} (hpeers : ∀ group, (f group).peers = group.peers) :
    Votes g ((n.peerGroups.lookup g).bind fun group => (f group).election) (fun _ => []) [] n
      { n with peerGroups := n.peerGroups.modify g f } where
  own := rfl
  members := members_modify fun group _ => hpeers group
  election := by rw [groupElection_modify, if_pos rfl]
  leaders := (List.append_nil _).symm
  keys := rfl
  posts _ := .of_eq rfl rfl

/-- A group that has just been made has no election. -/
theorem votes_addGroup : Votes g (n.groupElection g) (fun _ => []) [] n
    { n with peerGroups := n.peerGroups.insertNew g .new } where
  own := rfl
  members := members_insertNew
  election := by rw [groupElection_insertNew]
  leaders := (List.append_nil _).symm
  keys := rfl
  posts _ := .of_eq rfl rfl

/-- The node tells of a leader, and nothing else. -/
theorem votes_emit {identity name : CStr} : Votes g (n.groupElection g) (fun _ => []) [identity] n
    { n with outbox := n.outbox ++ [.leader identity name g] } where
  own := rfl
  members := rfl
  election := rfl
  leaders := by rw [leadersIn_append]; simp [leadersIn]
  keys := rfl
  posts _ := .of_eq rfl rfl

/-- `zyre_group_set_election` where there is an election. -/
theorem wp_setElection_votes {e₀ : Election} {E : Fault → Node → Prop} {Q : Unit → Node → Prop}
    (he : n.groupElection g = some e₀) (h : ∀ n₁, Votes g e (fun _ => []) [] n n₁ → Q ⟨⟩ n₁) :
    (setElection g e).wp Q E n := by
  obtain ⟨group, hgroup, -⟩ := Option.bind_eq_some_iff.mp he
  have hmodify := votes_modify (n := n) (g := g) (f := fun group => { group with election := e })
    fun _ => rfl
  rw [hgroup] at hmodify
  exact wp_setElection.mpr (h _ hmodify)

/-- `zyre_group_set_leader`. -/
theorem wp_setLeader_votes {leader : Option PeerRef} {E : Fault → Node → Prop} {Q : Unit → Node → Prop}
    (h : ∀ n₁, Votes g (n.groupElection g) (fun _ => []) [] n n₁ → Q ⟨⟩ n₁) :
    (setLeader g leader).wp Q E n :=
  wp_setLeader.mpr (h _ (votes_modify (f := fun group => { group with leader := leader }) fun _ => rfl))

/-- `zyre_node_require_peer_group` and `zyre_group_require_election` come first. -/
theorem wp_requireElection {x : NodeM Unit} {E : Fault → Node → Prop} {Q : Unit → Node → Prop}
    (h : ∀ n₁, Votes g (some (n.electionOf g)) (fun _ => []) [] n n₁ → x.wp Q E n₁) :
    (do requirePeerGroup g; modifyGroup g (·.requireElection); x).wp Q E n := by
  have hadd := votes_addGroup (n := n) (g := g)
  have hmodify := votes_modify (n := { n with peerGroups := n.peerGroups.insertNew g .new }) (g := g)
    (f := (·.requireElection)) fun _ => rfl
  rw [lookup_insertNew_self] at hmodify
  refine EStateM.wp_bind .. |>.mpr (wp_requirePeerGroup.mpr ?_)
  exact EStateM.wp_bind .. |>.mpr (wp_modifyGroup.mpr (h _ (hadd.after hmodify)))

/-! ### ELECT -/

/-- One more member has sent the wave the node is in. -/
theorem supportChallenger_votes {e : Election} {w : Wave CStr} (he : n.groupElection msg.group = some e)
    (hw : e.toWave = some w) (hroom : w.erec + 1 < 2 ^ 32) (hnamed : n.Named msg.group) :
    (supportChallenger msg e).wp (fun _ n' => Votes msg.group (some e.incrementErec)
      (fun Z => ((s.support (n.voters msg.group) n.identity w).2 Z).map (ballot msg.group)) [] n n')
      (fun _ _ => True) n := by
  obtain ⟨caw, hcaw, rfl⟩ := Option.map_eq_some_iff.mp hw
  have hcaw' : e.incrementErec.caw = some caw := hcaw
  refine EStateM.wp_bind .. |>.mpr (wp_setElection_votes he fun n₁ hset => ?_)
  refine EStateM.wp_bind .. |>.mpr (wp_getGroup.mpr ?_)
  have hcard : e.incrementErec.erecComplete ((n₁.peerGroups.lookup msg.group).getD .new) =
      decide (e.erec.toNat + 1 = (n.voters msg.group).card) := by
    rw [← hset.voters, card_voters, ← Election.toNat_incrementErec hroom]
    rfl
  have hsend : ∀ {out n'}, Mailing out n₁ n' → Votes msg.group (some e.incrementErec) out [] n n' :=
    fun h => hset.after (hset.election ▸ h.votes)
  rw [hcard, EStateM.wp_ite, decide_eq_true_eq]
  refine ⟨fun hall => ?_, fun hnot => ?_⟩
  · refine EStateM.wp_bind .. |>.mpr (EStateM.wp_get.mpr (EStateM.wp_ite .. |>.mpr
      ⟨fun hown => ?_, fun hother => ?_⟩))
    · have hcaw₁ : caw = n.identity := by
        rw [← hset.identity]
        exact Option.some_inj.mp (hcaw'.symm.trans hown)
      rw [buildLeaderMsg_of_caw hcaw', hcaw₁]
      refine EStateM.wp_mono (groupSend_mailing (hnamed.congr hset.members)) (fun _ n' h => ?_) fun _ _ h => h
      refine (hsend h).congr fun Z => ?_
      simp only [Site.support, hall, if_true, map_toAll, mem_voters, hset.members]
      rfl
    · have hcaw₁ : caw ≠ n.identity := by
        rw [← hset.identity]
        exact fun h => hother (hcaw'.trans (congrArg some h))
      rw [buildElectMsg_of_caw hcaw']
      refine EStateM.wp_bind .. |>.mpr (EStateM.wp_pure .. |>.mpr ?_)
      cases hfather : e.incrementErec.father with
      | none => trivial
      | some father =>
        refine EStateM.wp_mono peerSend_mailing (fun _ n' h => ?_) fun _ _ h => h
        refine (hsend h).congr fun Z => ?_
        have hfather' : e.father = some father := hfather
        simp [Site.support, hall, hcaw₁, map_toAll, hfather', ballot]
  · refine (hsend (.refl _)).congr fun Z => ?_
    simp [Site.support, hnot]

/-- The wave of the message is taken over from its sender, and passed on to the other members. -/
theorem followChallenger_votes {e₀ : Election} (he : n.groupElection msg.group = some e₀) :
    (followChallenger r msg).wp (fun _ n' => Votes msg.group
      (some ((Election.new.setCaw msg.challengerId).setFather r))
      (fun Z => if Z ≠ r.identity ∧ Z ∈ n.voters msg.group then
        [ballot msg.group (.elect msg.challengerId)] else []) [] n n') (fun _ _ => True) n := by
  refine EStateM.wp_bind .. |>.mpr (wp_setElection_votes he fun n₁ hset => ?_)
  rw [buildElectMsg_of_caw (e := (Election.new.setCaw msg.challengerId).setFather r) rfl]
  refine EStateM.wp_bind .. |>.mpr (EStateM.wp_pure .. |>.mpr ?_)
  refine EStateM.wp_bind .. |>.mpr (wp_getGroup.mpr ?_)
  refine EStateM.wp_mono (forM_mailing (ballot msg.group (.elect msg.challengerId)) id (· ≠ r.identity) ?_
    fun key _ n₂ => ?_) (fun _ n' h => ?_) fun _ _ h => h
  · rw [List.map_id]
    exact (n₁.members msg.group).nodupKeys
  · refine EStateM.wp_ite .. |>.mpr ⟨fun hne => ?_, fun heq => ?_⟩
    · refine EStateM.wp_bind .. |>.mpr (wp_lookupPeer.mpr ?_)
      cases n₂.peers.lookup key with
      | none => trivial
      | some p =>
        refine EStateM.wp_mono peerSend_mailing (fun _ n₃ h => h.congr fun Z => ?_) fun _ _ h => h
        simp [hne, ballot]
    · exact (Mailing.refl n₂).congr fun Z => by simp [heq]
  · refine (hset.after (hset.election ▸ h.votes)).congr fun Z => ?_
    have hmem : Z ∈ n.voters msg.group ↔ Z ∈ (n₁.members msg.group).keys := by
      rw [mem_voters, hset.members, AList.mem_keys]
    refine if_congr ⟨?_, ?_⟩ rfl rfl
    · rintro ⟨_, hkey, rfl, hne⟩
      exact ⟨hne, hmem.mpr hkey⟩
    · rintro ⟨hne, hkey⟩
      exact ⟨Z, hmem.mp hkey, rfl, hne⟩

/-- An election holds the wave it stands for. -/
theorem holds_some {e : Election} {w : Wave CStr} (h : e.toWave = some w) : Holds (some e) (some w) :=
  congrArg some h

/-- The second half of ELECT, in the wave `w`. -/
theorem supportElect_votes {e : Election} {w : Wave CStr} (he : n.groupElection msg.group = some e)
    (hw : e.toWave = some w) (hroom : w.caw = msg.challengerId → w.erec + 1 < 2 ^ 32)
    (hnamed : n.Named msg.group) :
    (do
      let election := (← getGroup msg.group).election.getD .new
      assert election.caw.isSome
      if election.caw = some msg.challengerId then supportChallenger msg election).wp
      (fun _ n' => Votes msg.group (some (if w.caw = msg.challengerId then e.incrementErec else e))
        (fun X => if w.caw = msg.challengerId then
          ((s.support (n.voters msg.group) n.identity w).2 X).map (ballot msg.group) else []) [] n n')
      (fun _ _ => True) n := by
  refine EStateM.wp_bind .. |>.mpr (wp_getGroup.mpr ?_)
  rw [election_getGroup, he, Option.getD_some]
  obtain ⟨caw, hcaw, rfl⟩ := Option.map_eq_some_iff.mp hw
  refine EStateM.wp_bind .. |>.mpr (wp_assert.mpr ⟨fun _ => ?_, fun _ => trivial⟩)
  refine EStateM.wp_ite .. |>.mpr ⟨fun hsame => ?_, fun hne => ?_⟩
  · obtain rfl := Option.some_inj.mp (hcaw.symm.trans hsame)
    simp only [if_true]
    exact supportChallenger_votes he hw (hroom rfl) hnamed
  · have hne' : caw ≠ msg.challengerId := fun h => hne (hcaw.trans (congrArg some h))
    simp only [hne', if_false]
    exact he ▸ (Mailing.refl n).votes

/-- ELECT does to the wave of the node what it does at a site. -/
theorem recvElect_votes (hsite : Holds (n.groupElection msg.group) s.wave)
    (hcount : s.Counting (n.voters msg.group) (.elect msg.challengerId))
    (hfew : (n.voters msg.group).card < 2 ^ 32) (hnamed : n.Named msg.group) :
    (recvElect r msg).wp (fun _ n' => ∃ e,
      Holds e (s.elect (n.voters msg.group) n.identity r.identity msg.challengerId).1.wave ∧
      Votes msg.group e (fun X => ((s.elect (n.voters msg.group) n.identity r.identity
        msg.challengerId).2 X).map (ballot msg.group)) [] n n')
      (fun _ _ => True) n := by
  refine wp_requireElection fun n₁ hreq => ?_
  refine EStateM.wp_bind .. |>.mpr (wp_getGroup.mpr ?_)
  rw [election_getGroup, hreq.election, Option.getD_some]
  have hnamed₁ := hnamed.congr hreq.members
  rw [← hreq.voters, ← hreq.identity]
  rw [Holds] at hsite
  by_cases hsup : (n.electionOf msg.group).challengerSuperior msg.challengerId = true
  · -- The site follows the challenger, which is then counted.
    have hfollow : ∀ w, s.wave = some w → msg.challengerId < w.caw := by
      intro w hw
      rw [hw] at hsite
      obtain ⟨e, he, hwave⟩ := Option.map_eq_some_iff.mp hsite
      obtain ⟨caw, hcaw, rfl⟩ := Option.map_eq_some_iff.mp hwave
      rw [electionOf_of_some he] at hsup
      exact Election.challengerSuperior_iff.mp hsup caw hcaw
    rw [Site.elect_of_lt hfollow]
    simp only [hsup, if_true]
    refine EStateM.wp_bind .. |>.mpr (EStateM.wp_mono (followChallenger_votes hreq.election)
      (fun _ n₂ hn₂ => ?_) fun _ _ h => h)
    refine EStateM.wp_mono (supportElect_votes (s := s.adopt r.identity msg.challengerId)
      (w := ⟨msg.challengerId, some r.identity, 0, 0⟩) hn₂.election rfl (fun _ => Nat.one_lt_two_pow (by decide))
      (hnamed₁.congr hn₂.members))
      (fun _ n' hn' => ⟨_, ?_, ((hreq.after hn₂).trans hn').congr fun X => ?_⟩) fun _ _ h => h
    · simp only [if_true]
      rfl
    · simp only [if_true, hn₂.voters, hn₂.identity, Site.follow, List.map_append, map_toAll,
        Finset.mem_erase]
  · -- It stays in its wave, and counts the message if it is about that.
    have hsome : ∃ w, s.wave = some w := by
      by_contra hnone
      have hwave := Option.eq_none_iff_forall_not_mem.mpr fun w hw => hnone ⟨w, hw⟩
      rw [hwave, Option.map_none, Option.map_eq_none_iff] at hsite
      exact hsup (by rw [electionOf, election_getGroup, hsite]; rfl)
    obtain ⟨w, hw⟩ := hsome
    rw [hw] at hsite
    obtain ⟨e, he, hwave⟩ := Option.map_eq_some_iff.mp hsite
    rw [electionOf_of_some he] at hsup hreq ⊢
    obtain ⟨caw, hcaw, rfl⟩ := Option.map_eq_some_iff.mp hwave
    have hlt : ¬msg.challengerId < caw := fun hlt => hsup (Election.challengerSuperior_iff.mpr
      fun caw' hcaw' => Option.some_inj.mp (hcaw.symm.trans hcaw') ▸ hlt)
    have hroom : caw = msg.challengerId → e.erec.toNat + 1 < 2 ^ 32 := fun hsame =>
      (Nat.succ_le_of_lt ((hcount _ hw).1 (congrArg Token.elect hsame.symm))).trans_lt hfew
    rw [Site.elect_of_not_lt hw hlt]
    simp only [hsup]
    refine EStateM.wp_mono (supportElect_votes (s := s) hreq.election hwave hroom hnamed₁)
      (fun _ n' hn' => ⟨_, ?_, (hreq.after hn').congr fun X => ?_⟩) fun _ _ h => h
    · by_cases hsame : caw = msg.challengerId
      · subst hsame
        simp only [if_true]
        have hcounted := Election.toNat_incrementErec (hroom rfl)
        exact holds_some ((Election.toWave_of_caw (e := e.incrementErec) hcaw).trans (by rw [hcounted]; rfl))
      · simp only [hsame, if_false, hw]
        exact holds_some hwave
    · by_cases hsame : caw = msg.challengerId
      · simp only [hsame, if_true]
      · simp only [hsame, if_false, List.map_nil]

/-! ### LEADER -/

/-- LEADER once it has been counted: the last one ends the election, and its leader is told of. -/
theorem finishElection_votes {e : Election} (he : n.groupElection msg.group = some e)
    (hknown : msg.leaderId = n.identity ∨ msg.leaderId ∈ n.peers) :
    (finishElection msg e).wp (fun _ n' => Votes msg.group
      (if e.lrec.toNat = (n.voters msg.group).card then none else some e) (fun _ => [])
      (if e.lrec.toNat = (n.voters msg.group).card then [msg.leaderId] else []) n n') (fun _ _ => True) n := by
  have hcard : e.lrecComplete ((n.peerGroups.lookup msg.group).getD .new) =
      decide (e.lrec.toNat = (n.voters msg.group).card) := by
    rw [card_voters]
    rfl
  -- The leader is told, and then the election is cleared.
  have hclear : ∀ {n₁ : Node}, Votes msg.group (some e) (fun _ => []) [msg.leaderId] n n₁ →
      (setElection msg.group none).wp
        (fun _ n' => Votes msg.group none (fun _ => []) [msg.leaderId] n n') (fun _ _ => True) n₁ :=
    fun h => wp_setElection_votes h.election fun _ h' => h.before h'
  refine EStateM.wp_bind .. |>.mpr (wp_getGroup.mpr ?_)
  rw [hcard, EStateM.wp_ite, decide_eq_true_eq]
  refine ⟨fun hall => ?_, fun hnot => ?_⟩
  · simp only [hall, if_true]
    refine EStateM.wp_bind .. |>.mpr (EStateM.wp_get.mpr (EStateM.wp_ite .. |>.mpr
      ⟨fun hself => ?_, fun hother => ?_⟩))
    · refine EStateM.wp_bind .. |>.mpr (EStateM.wp_get.mpr (EStateM.wp_bind .. |>.mpr (EStateM.wp_get.mpr
        (EStateM.wp_bind .. |>.mpr (wp_leaderPeerGroup.mpr (hclear ?_))))))
      rw [hself]
      exact he ▸ votes_emit
    · obtain ⟨p, hp⟩ := Option.isSome_iff_exists.mp (AList.lookup_isSome.mpr (hknown.resolve_left hother))
      refine EStateM.wp_bind .. |>.mpr (wp_lookupPeer.mpr ?_)
      rw [hp, Option.map_some]
      refine EStateM.wp_bind .. |>.mpr (wp_setLeader_votes fun n₁ hset => ?_)
      rw [he] at hset
      refine EStateM.wp_bind .. |>.mpr (wp_readPeer.mpr ⟨fun q hq => ?_, fun _ => trivial⟩)
      refine EStateM.wp_bind .. |>.mpr (wp_leaderPeerGroup.mpr (hclear ?_))
      exact hset.after (hset.election ▸ votes_emit)
  · simp only [hnot, if_false]
    exact he ▸ (Mailing.refl n).votes

/-- LEADER does to the wave of the node what it does at a site. -/
theorem recvLeader_votes {w : Wave CStr} (hsite : Holds (n.groupElection msg.group) (some w))
    (hw : s.wave = some w) (hcount : s.Counting (n.voters msg.group) (.leader msg.leaderId))
    (hfew : (n.voters msg.group).card < 2 ^ 32) (hnamed : n.Named msg.group)
    (hknown : msg.leaderId = n.identity ∨ msg.leaderId ∈ n.peers) :
    (recvLeader msg).wp (fun _ n' => ∃ e told,
      Holds e (s.leader (n.voters msg.group) n.identity msg.leaderId).1.wave ∧
      (s.leader (n.voters msg.group) n.identity msg.leaderId).1.told = s.told ++ told ∧
      Votes msg.group e (fun X => ((s.leader (n.voters msg.group) n.identity msg.leaderId).2 X).map
        (ballot msg.group)) told n n')
      (fun _ _ => True) n := by
  obtain ⟨e, he, hwave⟩ := Option.map_eq_some_iff.mp hsite
  obtain ⟨caw, hcaw, rfl⟩ := Option.map_eq_some_iff.mp hwave
  refine wp_requireElection fun n₁ hreq => ?_
  rw [electionOf_of_some he] at hreq
  refine EStateM.wp_bind .. |>.mpr (wp_getGroup.mpr ?_)
  rw [election_getGroup, hreq.election, Option.getD_some, EStateM.wp_ite]
  refine ⟨fun _ => ?_, fun hnone => absurd (by simp [hcaw]) hnone⟩
  have hstarted : ¬e.lrecStarted ↔ e.lrec.toNat = 0 := by
    simp [Election.lrecStarted, UInt32.lt_iff_toNat_lt]
  have hroom : e.lrec.toNat + 1 < 2 ^ 32 := (Nat.succ_le_of_lt ((hcount _ hw).2 _ rfl)).trans_lt hfew
  have hcounted : (e.incrementLrec.setLeader msg.leaderId).lrec.toNat = e.lrec.toNat + 1 :=
    Election.toNat_incrementLrec hroom
  -- The message is counted once the others have been told of the wave.
  have hrest : ∀ {out n₂}, Votes msg.group (some e) out [] n n₂ →
      (do
        setElection msg.group (some (e.incrementLrec.setLeader msg.leaderId))
        finishElection msg (e.incrementLrec.setLeader msg.leaderId)).wp
        (fun _ n' => ∃ e' told,
          Holds e' (s.leader (n.voters msg.group) n.identity msg.leaderId).1.wave ∧
          (s.leader (n.voters msg.group) n.identity msg.leaderId).1.told = s.told ++ told ∧
          Votes msg.group e' out told n n') (fun _ _ => True) n₂ := by
    intro out n₂ hn₂
    refine EStateM.wp_bind .. |>.mpr (wp_setElection_votes hn₂.election fun n₃ hset => ?_)
    have hn₃ := hn₂.before hset
    refine EStateM.wp_mono (finishElection_votes hset.election ?_) (fun _ n' hn' => ⟨_, _, ?_, ?_,
      hn₃.before hn'⟩) fun _ _ h => h
    · rwa [hn₃.identity, hn₃.mem_peers]
    · rw [hn₃.voters, hcounted]
      by_cases hall : e.lrec.toNat + 1 = (n.voters msg.group).card
      · simp [Site.leader, hw, hall, Holds]
      · simp only [Site.leader, hw, hall, if_false]
        refine holds_some ((Election.toWave_of_caw (e := e.incrementLrec.setLeader msg.leaderId) hcaw).trans ?_)
        rw [hcounted]
        rfl
    · rw [hn₃.voters, hcounted]
      by_cases hall : e.lrec.toNat + 1 = (n.voters msg.group).card
      · simp [Site.leader, hw, hall]
      · simp [Site.leader, hw, hall]
  refine EStateM.wp_bind .. |>.mpr (EStateM.wp_get.mpr (EStateM.wp_ite .. |>.mpr
    ⟨fun hfirst => ?_, fun hlater => ?_⟩))
  · rw [buildLeaderMsg_of_caw hcaw]
    refine EStateM.wp_bind .. |>.mpr (EStateM.wp_pure .. |>.mpr (EStateM.wp_bind .. |>.mpr
      (EStateM.wp_mono (groupSend_mailing (hnamed.congr hreq.members)) (fun _ n₂ h => ?_) fun _ _ h => h)))
    refine EStateM.wp_mono (hrest (hreq.after (hreq.election ▸ h.votes))) (fun _ n' hn' => ?_) fun _ _ h => h
    obtain ⟨e', told, hholds, htold, hvotes⟩ := hn'
    refine ⟨e', told, hholds, htold, hvotes.congr fun X => ?_⟩
    rw [hstarted, hreq.identity] at hfirst
    simp only [Site.leader, hw]
    rw [if_pos hfirst, map_toAll, hreq.members]
    exact if_congr mem_voters.symm rfl rfl
  · refine EStateM.wp_mono (hrest hreq) (fun _ n' hn' => ?_) fun _ _ h => h
    obtain ⟨e', told, hholds, htold, hvotes⟩ := hn'
    refine ⟨e', told, hholds, htold, hvotes.congr fun X => ?_⟩
    rw [hstarted, hreq.identity] at hlater
    simp only [Site.leader, hw]
    rw [if_neg hlater, List.map_nil]

/-! ### The message that carries a token -/

/-- The message brings the token. -/
structure Brings (g : CStr) (t : Token CStr) (msg : Msg) : Prop where
  id : msg.id = (ballot g t).id
  group : msg.group = g
  elect : ∀ r, t = .elect r → msg.challengerId = r
  leader : ∀ r, t = .leader r → msg.leaderId = r

/-- A ballot is no HELLO. -/
theorem Brings.ne_hello {t : Token CStr} (h : Brings g t msg) : msg.id ≠ .hello := by
  rw [h.id]
  cases t <;> exact MsgId.noConfusion

/-- A token arrives as it was sent, if the name of the group and that of the initiator fit. -/
theorem brings_recv {t : Token CStr} (hg : g.length ≤ Msg.fieldSize) (ht : t.initiator.length ≤ Msg.fieldSize)
    (k : UInt16) (identity : Frame) :
    Brings g t (Msg.recv (identity :: ((ballot g t).setSequence k).frames)).msg := by
  have hcut := CStr.truncate_of_length_le hg
  have hcut' := CStr.truncate_of_length_le ht
  have hid := id_recv ((ballot g t).setSequence k) identity
  cases t with
  | elect wave =>
    have hgroup : ((ballot g (.elect wave)).setSequence k).group = g := hcut
    have hwave : ((ballot g (.elect wave)).setSequence k).challengerId = wave := hcut'
    obtain ⟨hg', hr'⟩ := elect_recv (m := (ballot g (.elect wave)).setSequence k) rfl
      (by rw [hgroup]; exact Nat.lt_succ_of_le hg) (by rw [hwave]; exact Nat.lt_succ_of_le ht) identity
    exact {
      id := hid
      group := hg'.trans hgroup
      elect := fun r hr => hr'.trans (hwave.trans (Token.elect.inj hr))
      leader := fun r hr => by cases hr }
  | leader wave =>
    have hgroup : ((ballot g (.leader wave)).setSequence k).group = g := hcut
    have hwave : ((ballot g (.leader wave)).setSequence k).leaderId = wave := hcut'
    obtain ⟨hg', hr'⟩ := leader_recv (m := (ballot g (.leader wave)).setSequence k) rfl
      (by rw [hgroup]; exact Nat.lt_succ_of_le hg) (by rw [hwave]; exact Nat.lt_succ_of_le ht) identity
    exact {
      id := hid
      group := hg'.trans hgroup
      elect := fun r hr => by cases hr
      leader := fun r hr => hr'.trans (hwave.trans (Token.leader.inj hr)) }

/-- A ballot can be sent and read. -/
theorem fits_ballot {t : Token CStr} {k : UInt16} : ((ballot g t).setSequence k).Fits := by
  constructor
  · cases t <;> exact MsgId.noConfusion
  · intro h
    cases t <;> cases h
  · intro h
    cases t <;> cases h
  · intro h
    cases t <;> rcases h with h | h <;> cases h

/-- The site can take the token: an announcement finds it in a wave, and is of somebody it knows. -/
def Ready (n : Node) (s : Site CStr) (t : Token CStr) : Prop :=
  ∀ r, t = .leader r → s.wave.isSome ∧ (r = n.identity ∨ r ∈ n.peers)

/-- The message of a token does to the node what the token does at a site. -/
theorem dispatch_votes {t : Token CStr} (hmsg : Brings g t msg) (hsite : Holds (n.groupElection g) s.wave)
    (hcount : s.Counting (n.voters g) t) (hfew : (n.voters g).card < 2 ^ 32) (hnamed : n.Named g)
    (hready : n.Ready s t) :
    (dispatch r msg).wp (fun b n' => b = true ∧ ∃ e told,
      Holds e (s.handle (n.voters g) n.identity r.identity t).1.wave ∧
      (s.handle (n.voters g) n.identity r.identity t).1.told = s.told ++ told ∧
      Votes g e (fun X => ((s.handle (n.voters g) n.identity r.identity t).2 X).map (ballot g)) told n n')
      (fun _ _ => True) n := by
  obtain ⟨hid, rfl, helect, hleader⟩ := hmsg
  cases t with
  | elect wave =>
    obtain rfl := helect wave rfl
    have hid : msg.id = .elect := hid
    simp only [dispatch, hid]
    refine EStateM.wp_bind .. |>.mpr (EStateM.wp_mono (recvElect_votes hsite hcount hfew hnamed)
      (fun _ n' hn' => ?_) fun _ _ h => h)
    obtain ⟨e, hholds, hvotes⟩ := hn'
    refine ⟨rfl, e, [], hholds, ?_, hvotes⟩
    rw [List.append_nil]
    exact Site.told_elect
  | leader wave =>
    obtain rfl := hleader wave rfl
    obtain ⟨hwave, hknown⟩ := hready _ rfl
    obtain ⟨w, hw⟩ := Option.isSome_iff_exists.mp hwave
    have hid : msg.id = .leader := hid
    simp only [dispatch, hid]
    exact EStateM.wp_bind .. |>.mpr (EStateM.wp_mono
      (recvLeader_votes (hw ▸ hsite) hw hcount hfew hnamed hknown) (fun _ n' hn' => ⟨rfl, hn'⟩) fun _ _ h => h)

/-! ### What a message leaves at the peers -/

/-- The record of a peer after it has been heard `heard` times, has joined or left `changed` groups, and has
been sent `said` messages. -/
structure Progress (heard : UInt16) (changed : UInt8) (said : ℕ) (p p' : Peer) : Prop where
  connected : p'.connected = p.connected
  ready : p'.ready = p.ready
  status : p'.status = p.status + changed
  want : p'.wantSequence = p.wantSequence + heard
  sent : p'.sentSequence = p.sentSequence + UInt16.ofNat said

/-- `Y` has been heard, and every connected peer has been sent what `out` says. -/
structure Converses (Y : CStr) (heard : UInt16) (changed : UInt8) (out : CStr → List Msg) (n n' : Node) :
    Prop where
  keys : n'.peers.keys = n.peers.keys
  progress : ∀ Z p, n.peers.lookup Z = some p → p.connected = true → ∃ p', n'.peers.lookup Z = some p' ∧
    Progress (if Z = Y then heard else 0) (if Z = Y then changed else 0) (out Z).length p p'
  outgoing : ∀ Z p, n.peers.lookup Z = some p → p.connected = true →
    n'.outgoing Z = n.outgoing Z ++ Msg.stamped p.sentSequence (out Z)

variable {Y : CStr} {heard heard' : UInt16} {changed changed' : UInt8} {p : Peer} {env : Env}

namespace Converses

theorem trans (h : Converses Y heard changed out n n₁) (h' : Converses Y heard' changed' out' n₁ n') :
    Converses Y (heard + heard') (changed + changed') (fun Z => out Z ++ out' Z) n n' where
  keys := h'.keys.trans h.keys
  progress Z p hp hconn := by
    obtain ⟨p₁, hp₁, hpr⟩ := h.progress Z p hp hconn
    obtain ⟨p', hp', hpr'⟩ := h'.progress Z p₁ hp₁ (hpr.connected.trans hconn)
    refine ⟨p', hp', ?_⟩
    constructor
    · exact hpr'.connected.trans hpr.connected
    · exact hpr'.ready.trans hpr.ready
    · rw [hpr'.status, hpr.status, UInt8.add_assoc]
      split_ifs <;> rfl
    · rw [hpr'.want, hpr.want, UInt16.add_assoc]
      split_ifs <;> rfl
    · rw [hpr'.sent, hpr.sent, UInt16.add_assoc, List.length_append, UInt16.ofNat_add]
  outgoing Z p hp hconn := by
    obtain ⟨p₁, hp₁, hpr⟩ := h.progress Z p hp hconn
    rw [h'.outgoing Z p₁ hp₁ (hpr.connected.trans hconn), h.outgoing Z p hp hconn, hpr.sent,
      Msg.stamped_append, List.append_assoc]

/-- Only messages have been sent. -/
theorem of_posts (hkeys : n'.peers.keys = n.peers.keys) (hposts : ∀ Z, Posts Z (out Z) n n') :
    Converses Y 0 0 out n n' where
  keys := hkeys
  progress Z p hp hconn := by
    refine ⟨_, (hposts Z p hp hconn).1, rfl, rfl, ?_, ?_, rfl⟩
    · simp
    · simp
  outgoing Z p hp hconn := (hposts Z p hp hconn).2

/-- The entry of `Y` is changed. -/
theorem modify {f : Peer → Peer} (h : ∀ p, n.peers.lookup Y = some p → Progress heard changed 0 p (f p)) :
    Converses Y heard changed (fun _ => []) n { n with peers := n.peers.modify Y f } where
  keys := AList.keys_modify ..
  progress Z p hp _ := by
    by_cases hZ : Z = Y
    · subst hZ
      refine ⟨f p, by rw [AList.lookup_modify_self, hp, Option.map_some], ?_⟩
      simpa using h p hp
    · refine ⟨p, by rw [AList.lookup_modify_ne hZ, hp], ?_⟩
      simp only [hZ, if_false]
      exact ⟨rfl, rfl, (UInt8.add_zero _).symm, (UInt16.add_zero _).symm, (UInt16.add_zero _).symm⟩
  outgoing _ _ _ _ := (List.append_nil _).symm

end Converses

/-- Who votes has heard nothing more. -/
theorem Votes.converses (h : Votes g e out told n n') (Y : CStr) : Converses Y 0 0 out n n' :=
  .of_posts h.keys h.posts

/-! ### A message that is taken -/

/-- The node has noted something about `Y`, and nothing else has changed. -/
structure Notes (Y : CStr) (heard : UInt16) (n n' : Node) : Prop where
  own : n'.own = n.own
  peerGroups : n'.peerGroups = n.peerGroups
  outbox : n'.outbox = n.outbox
  converses : Converses Y heard 0 (fun _ => []) n n'

/-- The entry of the sender takes note of what is heard. -/
theorem wp_modifyPeer_notes (heard : UInt16) {f : Peer → Peer} {Q : Unit → Node → Prop}
    (hf : ∀ p, n.deref r = some p → Progress heard 0 0 p (f p))
    (h : ∀ n₁, Notes r.identity heard n n₁ → Q ⟨⟩ n₁) : (modifyPeer r f).wp Q (fun _ _ => True) n := by
  refine wp_modifyPeer.mpr ⟨fun p hp => h _ ⟨rfl, rfl, rfl, .modify fun q hq => ?_⟩, fun _ => trivial⟩
  obtain rfl := Option.some_inj.mp ((lookup_of_deref hp).symm.trans hq)
  exact hf p hp

/-- A message other than HELLO that comes in its turn is counted, handled, and the timers of the sender
start again. -/
theorem wp_acceptMsg_notes {Q : Node → Prop} (hp : n.deref r = some p)
    (hsequence : msg.sequence = p.wantSequence + 1) (hid : msg.id ≠ .hello)
    (h : ∀ n₁, Notes r.identity 1 n n₁ → (dispatch r msg).wp
      (fun b n₂ => b = true ∧ ∀ n', Notes r.identity 0 n₂ n' → Q n') (fun _ _ => True) n₁) :
    (acceptMsg env r msg).wp (fun _ => Q) (fun _ _ => True) n := by
  refine EStateM.wp_bind .. |>.mpr (wp_readPeer.mpr ⟨fun q hq => ?_, fun _ => trivial⟩)
  obtain rfl := Option.some_inj.mp (hp.symm.trans hq)
  have hcounts : p.messagesLost msg = (false, { p with wantSequence := p.wantSequence + 1 }) := by
    simp [Peer.messagesLost, hid, hsequence]
  rw [hcounts]
  refine EStateM.wp_bind .. |>.mpr (wp_modifyPeer_notes 1 (fun q hq => ?_) fun n₁ hn₁ => ?_)
  · obtain rfl := Option.some_inj.mp (hp.symm.trans hq)
    exact ⟨rfl, rfl, (UInt8.add_zero _).symm, rfl, (UInt16.add_zero _).symm⟩
  · refine EStateM.wp_ite .. |>.mpr ⟨fun hlost => (by cases hlost), fun _ => ?_⟩
    refine EStateM.wp_bind .. |>.mpr (EStateM.wp_mono (h n₁ hn₁) (fun b n₂ hb => ?_) fun _ _ h => h)
    obtain ⟨rfl, hQ⟩ := hb
    refine EStateM.wp_ite .. |>.mpr ⟨fun _ => ?_, fun hstop => absurd rfl hstop⟩
    refine EStateM.wp_bind .. |>.mpr (EStateM.wp_get.mpr (wp_modifyPeer_notes 0 (fun q _ => ?_) hQ))
    exact ⟨rfl, rfl, (UInt8.add_zero _).symm, (UInt16.add_zero _).symm, (UInt16.add_zero _).symm⟩

namespace Notes

theorem members (h : Notes Y heard n n') : n'.members = n.members := by
  funext name
  rw [Node.members, h.peerGroups, Node.members]

theorem voters (h : Notes Y heard n n') : n'.voters g = n.voters g := voters_congr h.members

theorem groupElection (h : Notes Y heard n n') : n'.groupElection g = n.groupElection g := by
  rw [Node.groupElection, h.peerGroups, Node.groupElection]

theorem identity (h : Notes Y heard n n') : n'.identity = n.identity :=
  (congrArg Node.identity h.own :)

theorem mem_peers (h : Notes Y heard n n') : Z ∈ n'.peers ↔ Z ∈ n.peers := by
  rw [AList.mem_keys, h.converses.keys, AList.mem_keys]

end Notes

/-- The node has taken a message of `Y`: it holds the election `e`, has told of `told` and sent `out`. -/
structure Answers (Y g : CStr) (e : Option Election) (out : CStr → List Msg) (told : List CStr)
    (n n' : Node) : Prop where
  own : n'.own = n.own
  members : n'.members = n.members
  election : n'.groupElection g = e
  leaders : leadersIn g n'.outbox = leadersIn g n.outbox ++ told
  converses : Converses Y 1 0 out n n'

/-! ### Fathers -/

/-- `f` is the father of the election of the group. -/
def Fathers (n : Node) (g : CStr) (f : PeerRef) : Prop :=
  ∃ e, n.groupElection g = some e ∧ e.father = some f

/-- Fathers come with elections, not with anything else of a group. -/
theorem fathers_modify {h : Group → Group} {name : CStr} {f : PeerRef}
    (hh : ∀ group, (h group).election = group.election)
    (hf : Fathers { n with peerGroups := n.peerGroups.modify name h } g f) : n.Fathers g f := by
  obtain ⟨e, he, hfather⟩ := hf
  rw [groupElection_modify] at he
  split_ifs at he with hg
  · simp only [hh] at he
    exact ⟨e, hg ▸ he, hfather⟩
  · exact ⟨e, he, hfather⟩

/-- A father was there before, or is a peer that is. -/
theorem Move.fathers {K : Set MsgId} {f : PeerRef} (h : Move K n n') (hf : n'.Fathers g f) :
    n.Fathers g f ∨ n'.Live f := by
  cases h with
  | send r p msg hr hc hid => exact Or.inl hf
  | emit e he => exact Or.inl hf
  | addGroup name =>
    obtain ⟨e, he, hfather⟩ := hf
    rw [groupElection_insertNew] at he
    exact Or.inl ⟨e, he, hfather⟩
  | group name h htame =>
    obtain ⟨e, he, hfather⟩ := hf
    rw [groupElection_modify] at he
    split_ifs at he with hg
    · obtain ⟨group, hgroup, he⟩ := Option.bind_eq_some_iff.mp he
      refine ((htame group hgroup).father e f he hfather).imp_left fun hbefore => ?_
      obtain ⟨e₀, he₀, hfather₀⟩ := hbefore
      exact ⟨e₀, by rw [groupElection, hg, hgroup]; exact he₀, hfather₀⟩
    · exact Or.inl ⟨e, he, hfather⟩

/-- And so it is for every change. -/
theorem Change.fathers {D : Set CStr} {f : PeerRef} (h : Change D n n') (hf : n'.Fathers g f) :
    n.Fathers g f ∨ n'.Live f := by
  cases h with
  | move h => exact h.fathers hf
  | join name r hr => exact Or.inl (fathers_modify (h := (·.join r)) (fun _ => rfl) hf)
  | leave name r => exact Or.inl (fathers_modify (h := (·.leave r)) (fun _ => rfl) hf)
  | contest name =>
    exact Or.inl (fathers_modify (h := fun group => { group with contest := true }) (fun _ => rfl) hf)
  | know hpeers hgroups hserial hmail huuid hown hstatus =>
    obtain ⟨e, he, hfather⟩ := hf
    exact Or.inl ⟨e, by rwa [groupElection, ← hgroups], hfather⟩
  | _ => exact Or.inl hf

/-- The father of the group's election is there. -/
def Fathered (n : Node) (g : CStr) : Prop := ∀ f, n.Fathers g f → n.Live f

/-- Fathers stay in the table as long as nobody is removed. -/
theorem Fathered.changes (hn : n.Fathered g) (h : Changes ∅ n n') : n'.Fathered g := by
  refine h.invariant (I := (·.Fathered g)) (fun m m' hchange hm f hf => ?_) hn
  rcases hchange.fathers hf with hf | hf
  · exact hchange.live (hm f hf) (Set.notMem_empty _)
  · exact hf

/-! ### One message -/

/-- The message of a token that comes in its turn does to the node what the token does at a site. -/
theorem acceptMsg_answers {t : Token CStr} (env : Env) (hp : n.deref r = some p)
    (hsequence : msg.sequence = p.wantSequence + 1) (hmsg : Brings g t msg)
    (hsite : Holds (n.groupElection g) s.wave) (hcount : s.Counting (n.voters g) t)
    (hfew : (n.voters g).card < 2 ^ 32) (hnamed : n.Named g) (hready : n.Ready s t) :
    (acceptMsg env r msg).wp (fun _ n' => ∃ e told,
      Holds e (s.handle (n.voters g) n.identity r.identity t).1.wave ∧
      (s.handle (n.voters g) n.identity r.identity t).1.told = s.told ++ told ∧
      Answers r.identity g e (fun X => ((s.handle (n.voters g) n.identity r.identity t).2 X).map (ballot g))
        told n n') (fun _ _ => True) n := by
  refine wp_acceptMsg_notes hp hsequence hmsg.ne_hello fun n₁ hn₁ => ?_
  have hready₁ : n₁.Ready s t := by
    intro w hw
    rw [hn₁.identity, hn₁.mem_peers]
    exact hready w hw
  refine EStateM.wp_mono (dispatch_votes hmsg (hn₁.groupElection ▸ hsite) (hn₁.voters ▸ hcount)
    (hn₁.voters ▸ hfew) (hnamed.congr hn₁.members) hready₁) (fun b n₂ hn₂ => ?_) fun _ _ h => h
  obtain ⟨hb, e, told, hholds, htold, hvotes⟩ := hn₂
  rw [hn₁.voters, hn₁.identity] at hholds htold hvotes
  refine ⟨hb, fun n' hn' => ⟨e, told, hholds, htold, ?_⟩⟩
  have hconverses := (hn₁.converses.trans (hvotes.converses r.identity)).trans hn'.converses
  refine {
    own := hn'.own.trans (hvotes.own.trans hn₁.own)
    members := hn'.members.trans (hvotes.members.trans hn₁.members)
    election := hn'.groupElection.trans hvotes.election
    leaders := by rw [hn'.outbox, hvotes.leaders, hn₁.outbox]
    converses := ?_ }
  simpa using hconverses

/-- An election whose father is there has no dead one. -/
theorem not_deadFather (hn : n.Fathered msg.group) : ¬n.DeadFather msg := by
  rintro ⟨group, e, f, hgroup, he, -, -, -, hf, hdead⟩
  exact hdead (hn f ⟨e, by rw [groupElection, hgroup]; exact he, hf⟩)

/-- Nothing goes wrong when a node takes a token, and it does what the token does at a site. -/
theorem step_token {t : Token CStr} (env : Env) (uuid : Uuid) (hn : n.Sturdy) (hfathered : n.Fathered g)
    (hp : n.peers.lookup uuid.str = some p) (hpready : p.ready = true) (hg : g.length ≤ Msg.fieldSize)
    (ht : t.initiator.length ≤ Msg.fieldSize) (hsite : Holds (n.groupElection g) s.wave)
    (hcount : s.Counting (n.voters g) t) (hfew : (n.voters g).card < 2 ^ 32) (hready : n.Ready s t) :
    ∃ n', Node.step env (.inbox ((1 :: uuid.data) ::
        ((ballot g t).setSequence (p.wantSequence + 1)).frames)) n = .ok ⟨⟩ n' ∧ n'.Fathered g ∧ ∃ e told,
      Holds e (s.handle (n.voters g) n.identity uuid.str t).1.wave ∧
      (s.handle (n.voters g) n.identity uuid.str t).1.told = s.told ++ told ∧
      Answers uuid.str g e (fun X => ((s.handle (n.voters g) n.identity uuid.str t).2 X).map (ballot g))
        told n n' := by
  have hfits := fits_ballot (g := g) (t := t) (k := p.wantSequence + 1)
  obtain ⟨hrc, hidentity, hcarries⟩ := carries_recv hfits (1 :: uuid.data)
  have hmsg := brings_recv hg ht (p.wantSequence + 1) (1 :: uuid.data)
  have hsequence := hcarries.sequence
  have hsender := senderOf_of_recv hrc hidentity
  rw [Node.step, recvPeer_of_sender hsender]
  generalize (Msg.recv ((1 :: uuid.data) ::
    ((ballot g t).setSequence (p.wantSequence + 1)).frames)).msg = msg at hmsg hsequence
  have hderef := deref_of_lookup hp
  have hchanges : (acceptMsg env ⟨uuid.str, p.serial⟩ msg).Keeps (Changes ∅) (Blame False) n := by
    have hid := hmsg.id
    refine acceptMsg_changes hderef (fun h => ?_) fun _ => ⟨fun h => absurd h hmsg.ne_hello, fun h => ?_,
      fun h => ?_, fun _ hdead => not_deadFather (hmsg.group ▸ hfathered) hdead⟩
    · rw [if_neg hmsg.ne_hello] at h
      rcases h with hlost | ⟨h, -⟩
      · exact absurd hsequence.symm hlost
      · cases t <;> cases hid.symm.trans h
    · cases t <;> rcases h with h | h <;> cases hid.symm.trans h
    · cases t <;> cases hid.symm.trans h
  have hboth := EStateM.wp_and (acceptMsg_answers env hderef hsequence hmsg hsite hcount hfew
    (hn.named g) hready)
    (hn.wp_of_keeps hchanges)
  obtain ⟨_, n', hok, ⟨hanswers, hn'⟩⟩ := EStateM.exists_of_wp (EStateM.wp_mono hboth (fun _ _ h => h)
    fun _ _ h => h.2)
  refine ⟨n', ?_, hfathered.changes hn', hanswers⟩
  exact (recvMsg_of_ready hp hpready hmsg.ne_hello).trans hok

end Node

end Zyre
