import Zyre.Node.Additions
import Zyre.Node.Waiting
import Zyre.Node.Entries

/-!
# The groups known through peers

PEER GROUPS answers with the keys of the table of groups. A group gets into the table when something
about it is asked for, and never leaves it; the members of a group come and go. So the answer is the
groups that some peer is in as long as no group is asked for before a peer is in it, and none is left
by the last one.
-/

namespace Zyre

/-! ### Views -/

section

variable {X name : CStr} {v w : PeerView} {msg : Msg} {R : Set CStr} {gossip : Bool}

/-- A peer that is not removed, and did not send the message, stays in its groups. -/
theorem Aside.groups (h : Aside R X v w) (hX : X ∉ R) : w.groups = v.groups := by
  cases h with
  | same => rfl
  | purged endpoint => rfl
  | discovered q he hq => rfl
  | removed p he hremoved => exact absurd hremoved hX

/-- A command takes its sender out of a group only if it is LEAVE. -/
theorem PeerView.mem_groups_take {k : UInt16} (h : name ∈ v.groups)
    (hleave : msg.id = .leave → msg.group ≠ name) : name ∈ ((v.count k).take X msg).groups := by
  unfold take
  split
  case h_4 hid => exact ⟨h, fun heq => hleave hid heq.symm⟩
  case h_3 => exact Set.mem_insert_of_mem _ h
  all_goals exact h

/-- The gate keeps the groups of a sender whose entry it does not renew. -/
theorem Opened.groups_of_unready (h : Opened X v w) (hready : ∀ p, v.entry = some p → p.ready = false) :
    w.groups = v.groups := by
  cases h with
  | kept p he hr => rfl
  | fresh q he hq => rfl
  | renewed p q he hr hq => exact nomatch hr.symm.trans (hready p he)

end

namespace Node

variable {n n' : Node} {X Y name : CStr} {env : Env} {input : Input} {frames : List Frame} {uuid : Uuid}
  {msg : Msg}

/-! ### Members -/

theorem takes_iff_of_ne (hid : msg.id ≠ .hello) : Takes env n X msg ↔
    ∃ p, (n.view X).entry = some p ∧ p.ready = true ∧ p.wantSequence + 1 = msg.sequence := by
  rw [Takes, if_neg hid]
  constructor
  · rintro ⟨p, hp, hready, hseq⟩
    exact ⟨p.still, by rw [view_entry, hp]; rfl, hready, hseq⟩
  · rintro ⟨q, hq, hready, hseq⟩
    obtain ⟨p, hp, rfl⟩ := Option.map_eq_some_iff.mp hq
    exact ⟨p, hp, hready, hseq⟩

/-- A message that is taken, other than GOODBYE, does not remove its sender, unless it is HELLO. -/
theorem Takes.not_removes (h : Takes env n X msg) (hid : msg.id ≠ .hello) (hbye : msg.id ≠ .goodbye) :
    ¬Removes env n X msg := by
  rw [Takes, if_neg hid] at h
  rw [Removes, if_neg hid]
  obtain ⟨p, hp, -, hseq⟩ := h
  rintro ⟨q, hq, -, hbad⟩
  obtain rfl := Option.some_inj.mp (hp.symm.trans hq)
  rcases hbad with hbad | ⟨hid', -⟩
  · exact hbad hseq
  · exact hbye hid'

/-- The sender of a message that does not remove it stays in its groups, unless it leaves one. -/
theorem recvMsg_stays (hremoves : ¬Removes env n uuid.str msg) (hname : name ∈ n.groupsOf uuid.str)
    (hleave : Takes env n uuid.str msg → msg.id = .leave → msg.group ≠ name) :
    (recvMsg env uuid msg).wp (fun _ n' => name ∈ n'.groupsOf uuid.str) (fun _ _ => True) n := by
  have hentry : ∀ {q : Peer}, (n.view uuid.str).entry = some q →
      ∃ p, n.peers.lookup uuid.str = some p ∧ p.still = q := Option.map_eq_some_iff.mp
  by_cases hid : msg.id = .hello
  · rw [Removes, if_pos hid, not_or] at hremoves
    obtain ⟨hready, hseq⟩ := hremoves
    have hnot : ∀ q, (n.view uuid.str).entry = some q → q.ready = false := by
      intro q hq
      obtain ⟨p, hp, rfl⟩ := hentry hq
      exact Bool.eq_false_iff.mpr fun hr => hready ⟨p, hp, hr⟩
    by_cases hadmits : Admits env n uuid.str msg
    · have hone : msg.sequence = 1 := not_not.mp fun h => hseq ⟨hadmits, h⟩
      refine EStateM.wp_mono (recvMsg_greeted hid hadmits hone) ?_ fun _ _ _ => trivial
      rintro _ n' ⟨w, hopened, hview⟩
      show name ∈ (n'.view uuid.str).groups
      rw [hview]
      exact Or.inl ((hopened.groups_of_unready hnot).symm ▸ hname)
    · refine EStateM.wp_mono (recvMsg_declined hid hadmits) ?_ fun _ _ _ => trivial
      intro _ n' hdeclined
      show name ∈ (n'.view uuid.str).groups
      generalize n'.view uuid.str = v at hdeclined
      cases hdeclined with
      | same h => exact hname
      | exited p he hr => cases hr.symm.trans (hnot p he)
  · rw [Removes, if_neg hid] at hremoves
    have hbad : ∀ q, (n.view uuid.str).entry = some q → q.ready = true →
        (q.wantSequence + 1 ≠ msg.sequence ∨ msg.id = .goodbye ∧ n.gossip = true) → False := by
      intro q hq hr h
      obtain ⟨p, hp, rfl⟩ := hentry hq
      exact hremoves ⟨p, hp, hr, h⟩
    refine EStateM.wp_mono recvMsg_spec ?_ fun _ _ _ => trivial
    rintro _ n' ⟨v, harrival, hreaches⟩
    show name ∈ (n'.view uuid.str).groups
    rw [hreaches.view]
    cases harrival with
    | ignored h => exact hname
    | refused p hhello he hr => exact absurd hhello hid
    | lostHello w hhello hw hseq => exact absurd hhello hid
    | greeted w hhello hw hseq => exact absurd hhello hid
    | lost p _ he hr hseq => exact (hbad p he hr (Or.inl hseq)).elim
    | bye p hbye he hr hseq hg => exact (hbad p he hr (Or.inr ⟨hbye, hg⟩)).elim
    | taken p _ he hr hseq hg =>
      exact PeerView.mem_groups_take hname (hleave ((takes_iff_of_ne hid).mpr ⟨p, he, hr, hseq⟩))

/-- A message that is taken puts its sender into the groups it says the sender is in. -/
theorem recvMsg_enrolls (htakes : Takes env n uuid.str msg) (hname : name ∈ msg.lists) :
    (recvMsg env uuid msg).wp (fun _ n' => name ∈ n'.groupsOf uuid.str) (fun _ _ => True) n := by
  rcases Msg.mem_lists_iff.mp hname with ⟨hid, hlisted⟩ | ⟨hid, rfl⟩
  · rw [Takes, if_pos hid] at htakes
    refine EStateM.wp_mono (recvMsg_greeted hid htakes.1 htakes.2) ?_ fun _ _ _ => trivial
    rintro _ n' ⟨w, -, hview⟩
    show name ∈ (n'.view uuid.str).groups
    rw [hview]
    exact Or.inr hlisted
  · have hne : msg.id ≠ .hello := by simp [hid]
    obtain ⟨q, hq, hready, hseq⟩ := (takes_iff_of_ne hne).mp htakes
    refine EStateM.wp_mono recvMsg_spec ?_ fun _ _ _ => trivial
    rintro _ n' ⟨v, harrival, hreaches⟩
    show msg.group ∈ (n'.view uuid.str).groups
    rw [hreaches.view]
    cases harrival with
    | ignored h => cases hready.symm.trans (h q hq)
    | refused p hhello he hr => exact absurd hhello hne
    | lostHello w hhello hw hlost => exact absurd hhello hne
    | greeted w hhello hw hone => exact absurd hhello hne
    | lost p _ he hr hlost =>
      obtain rfl := Option.some_inj.mp (hq.symm.trans he)
      exact absurd hseq hlost
    | bye p hbye he hr _ hg => cases hid.symm.trans hbye
    | taken p _ he hr _ hg =>
      unfold PeerView.take
      rw [hid]
      exact Set.mem_insert _ _

/-- The peer that sent the message of an iteration has left the group. -/
def TakesLeave (env : Env) (n : Node) (input : Input) (X name : CStr) : Prop :=
  ∃ frames uuid, input = .inbox frames ∧ senderOf frames = some uuid ∧ uuid.str = X ∧
    Takes env n X (Msg.recv frames).msg ∧ (Msg.recv frames).msg.id = .leave ∧
    (Msg.recv frames).msg.group = name

/-- A member that neither is removed nor leaves is still one after the iteration. -/
theorem step_stays (hY : Y ∈ n.members name) (hremoved : Y ∉ removed env n input)
    (hleave : ¬TakesLeave env n input Y name) (h : Node.step env input n = .ok ⟨⟩ n') :
    Y ∈ n'.members name := by
  by_cases hsender : ∃ uuid, Sender input uuid ∧ uuid.str = Y
  · obtain ⟨uuid, ⟨frames, rfl, hsender⟩, rfl⟩ := hsender
    have hremoves : ¬Removes env n uuid.str (Msg.recv frames).msg := fun hremoves =>
      hremoved (Or.inr ⟨frames, uuid, rfl, hsender, rfl, hremoves⟩)
    have hstays := recvMsg_stays hremoves hY fun htakes hid heq =>
      hleave ⟨frames, uuid, rfl, hsender, rfl, htakes, hid, heq⟩
    exact (EStateM.wp_of_ok (recvMsg_of_step hsender h) hstays :)
  · have hne : ∀ uuid, Sender input uuid → uuid.str ≠ Y := fun uuid hs h => hsender ⟨uuid, hs, h⟩
    have haside := (EStateM.wp_of_ok h (step_aside hne) :)
    show name ∈ (n'.view Y).groups
    rw [haside.groups fun hY => hremoved (Or.inl hY)]
    exact hY

theorem Enrolls.member (henrolls : Enrolls env n input X name) (h : Node.step env input n = .ok ⟨⟩ n') :
    X ∈ n'.members name := by
  obtain ⟨frames, uuid, rfl, hsender, rfl, htakes, hname⟩ := henrolls
  exact (EStateM.wp_of_ok (recvMsg_of_step hsender h) (recvMsg_enrolls htakes hname) :)

/-- A member has an entry. -/
theorem Sturdy.mem_peers (hn : n.Sturdy) (h : X ∈ n.members name) : X ∈ n.peers := by
  obtain ⟨r, hr⟩ := Option.isSome_iff_exists.mp (AList.lookup_isSome.mpr h)
  obtain ⟨rfl, hlive⟩ := hn.members name X r hr
  obtain ⟨p, hp, -⟩ := live_iff.mp hlive
  exact AList.lookup_isSome.mp (by rw [hp]; rfl)

/-! ### Runs -/

/-- The answer to PEER GROUPS, the keys of the table, is the groups that some peer in the peers table is
in. -/
def Populated (n : Node) : Prop :=
  ∀ name, name ∈ n.peerGroups.keys ↔ ∃ X ∈ n.peers, X ∈ n.members name

/-- The iteration asks for no group that no peer is in, and takes no group its last member. -/
structure Stocked (env : Env) (n : Node) (input : Input) : Prop where
  /-- SET CONTEST is for a group that is known. -/
  contest : ∀ name, input = .api (.setContest name) → name ∈ n.peerGroups
  /-- And so is an ELECT or LEADER. -/
  elect : ∀ frames uuid, input = .inbox frames → senderOf frames = some uuid →
    Takes env n uuid.str (Msg.recv frames).msg →
    (Msg.recv frames).msg.id = .elect ∨ (Msg.recv frames).msg.id = .leader →
    (Msg.recv frames).msg.group ∈ n.peerGroups
  /-- Who leaves a group leaves another member behind. -/
  leave : ∀ X name, TakesLeave env n input X name → ∃ Y ∈ n.members name, Y ≠ X
  /-- When a peer is removed, every group that is known, or the node's own, keeps a member or gets one by
  the same message. -/
  parts : Parts env n input → ∀ name, name ∈ n.peerGroups ∨ name ∈ n.ownGroups →
    (∃ X, Enrolls env n input X name) ∨ ∃ Y ∈ n.members name, Y ∉ removed env n input

/-- A LEAVE that is taken removes no peer. -/
theorem TakesLeave.not_parts (h : TakesLeave env n input X name) : ¬Parts env n input := by
  obtain ⟨frames, uuid, rfl, hsender, rfl, htakes, hid, -⟩ := h
  rintro (⟨Y, hY, -⟩ | ⟨frames', uuid', heq, hsender', hremoves⟩)
  · exact hY
  · obtain rfl := Input.inbox.inj heq
    obtain rfl := Option.some_inj.mp (hsender.symm.trans hsender')
    exact htakes.not_removes (by simp [hid]) (by simp [hid]) hremoves

/-- An iteration handles one message. -/
theorem TakesLeave.sender_eq {X' name' : CStr} (h : TakesLeave env n input X name)
    (h' : TakesLeave env n input X' name') : X = X' := by
  obtain ⟨frames, uuid, rfl, hsender, rfl, -⟩ := h
  obtain ⟨frames', uuid', heq, hsender', rfl, -⟩ := h'
  obtain rfl := Input.inbox.inj heq
  exact congrArg Uuid.str (Option.some_inj.mp (hsender.symm.trans hsender'))

/-- Who is removed takes part in the removal. -/
theorem parts_of_removed (hX : X ∈ removed env n input) (hpeer : X ∈ n.peers) : Parts env n input := by
  rcases hX with hX | ⟨frames, uuid, hinput, hsender, rfl, hremoves⟩
  · exact Or.inl ⟨X, hX, hpeer⟩
  · exact Or.inr ⟨frames, uuid, hinput, hsender, hremoves⟩

/-- Members a peer removal spares are members afterwards. -/
theorem Stocked.member_of_parts (hc : Stocked env n input) (hparts : Parts env n input)
    (hname : name ∈ n.peerGroups ∨ name ∈ n.ownGroups) (h : Node.step env input n = .ok ⟨⟩ n') :
    ∃ Y, Y ∈ n'.members name := by
  rcases hc.parts hparts name hname with ⟨X, henrolls⟩ | ⟨Y, hY, hspared⟩
  · exact ⟨X, henrolls.member h⟩
  · exact ⟨Y, step_stays hY hspared (fun hleave => hleave.not_parts hparts) h⟩

/-- A group that was known and had a member has one after the iteration. -/
theorem Stocked.member_of_known (hc : Stocked env n input) (hn : n.Sturdy) (hpopulated : n.Populated)
    (hname : name ∈ n.peerGroups) (h : Node.step env input n = .ok ⟨⟩ n') :
    ∃ Y, Y ∈ n'.members name := by
  by_cases hparts : Parts env n input
  · exact hc.member_of_parts hparts (Or.inl hname) h
  · obtain ⟨X, hX, hmember⟩ := (hpopulated name).mp hname
    have hspared : ∀ {Y}, Y ∈ n.members name → Y ∉ removed env n input := fun hY hremoved =>
      hparts (parts_of_removed hremoved (hn.mem_peers hY))
    by_cases hleave : TakesLeave env n input X name
    · obtain ⟨Y, hY, hne⟩ := hc.leave X name hleave
      refine ⟨Y, step_stays hY (hspared hY) (fun hleave' => hne ?_) h⟩
      exact hleave'.sender_eq hleave
    · exact ⟨X, step_stays hmember (hspared hmember) hleave h⟩

/-- A group that an iteration adds has a member after it. -/
theorem Stocked.member_of_added (hc : Stocked env n input) (hn : n.Sturdy) (hpopulated : n.Populated)
    (hname : name ∈ additions env n input) (h : Node.step env input n = .ok ⟨⟩ n') :
    ∃ Y, Y ∈ n'.members name := by
  have hknown : name ∈ n.peerGroups → ∃ Y, Y ∈ n'.members name := fun hknown =>
    hc.member_of_known hn hpopulated hknown h
  rcases hname with ⟨frames, uuid, rfl, hsender, htakes, hmentions⟩ | hcontest | ⟨hown, hparts⟩
  · have helect := hc.elect frames uuid rfl hsender htakes
    have hlists : name ∈ (Msg.recv frames).msg.lists → ∃ Y, Y ∈ n'.members name := fun hlists =>
      ⟨uuid.str, Enrolls.member ⟨frames, uuid, rfl, hsender, rfl, htakes, hlists⟩ h⟩
    rw [Msg.mentions] at hmentions
    cases hid : (Msg.recv frames).msg.id <;> simp only [hid, List.mem_singleton, List.not_mem_nil] at hmentions
    case hello => exact hlists (Msg.mem_lists_iff.mpr (Or.inl ⟨hid, hmentions⟩))
    case join => exact hlists (Msg.mem_lists_iff.mpr (Or.inr ⟨hid, hmentions⟩))
    case leave =>
      -- The group has a member, so it was known.
      obtain ⟨Y, hY, -⟩ := hc.leave uuid.str name ⟨frames, uuid, rfl, hsender, rfl, htakes, hid, hmentions.symm⟩
      exact hknown ((hpopulated name).mpr ⟨Y, hn.mem_peers hY, hY⟩)
    case elect => exact hknown (hmentions ▸ helect (Or.inl hid))
    case leader => exact hknown (hmentions ▸ helect (Or.inr hid))
  · exact hknown (hc.contest name hcontest)
  · exact hc.member_of_parts hparts (Or.inr hown) h

/-- One iteration keeps the answer right. -/
theorem Stocked.populated (hc : Stocked env n input) (hn : n.Sturdy) (hpopulated : n.Populated)
    (h : Node.step env input n = .ok ⟨⟩ n') : n'.Populated := by
  have hn' : n'.Sturdy := (EStateM.wp_of_ok h hn.step :)
  refine fun name => ⟨fun hname => ?_, ?_⟩
  · have hmember : ∃ Y, Y ∈ n'.members name := by
      rcases (step_adds.of_ok h).1 name hname with hname | hname
      · exact hc.member_of_known hn hpopulated hname h
      · exact hc.member_of_added hn hpopulated hname h
    obtain ⟨Y, hY⟩ := hmember
    exact ⟨Y, hn'.mem_peers hY, hY⟩
  · rintro ⟨Y, -, hY⟩
    obtain ⟨g, hg, -⟩ := mem_members_iff.mp hY
    exact AList.lookup_isSome.mp (by rw [hg]; rfl)

/-- **Known groups.** In a run whose steps are all stocked, the groups that PEER GROUPS lists are those that
some peer is in. A group is made by the first peer that joins and never taken out of the table, so that a
step is stocked if no group loses its last peer by it, and none is made without one. -/
theorem populated_of_run (h : Run Stocked n) : n.Populated := by
  induction h with
  | new uuid endpoint =>
    refine fun name => ⟨fun hname => (nomatch hname), ?_⟩
    rintro ⟨X, hX, -⟩
    exact nomatch hX
  | step env input hn hc h ih => exact hc.populated (sturdy_of_reachable hn.reachable) ih h

/-- A first HELLO is stocked whatever groups it lists. -/
theorem stocked_hello : Stocked (sampleEnv 0) sampleNode (sampleInput 1 sampleHello) := by
  have hframes : ∀ {frames}, sampleInput 1 sampleHello = .inbox frames →
      (Msg.recv frames).msg.id = .hello ∧ (Msg.recv frames).msg.sequence = 1 := by
    rintro frames hinput
    obtain rfl : (1 :: (sampleUuid 1).data) :: sampleHello.frames = frames := Input.inbox.inj hinput
    decide
  refine ⟨fun name h => (by cases h), fun frames uuid h _ _ helect => ?_, ?_, ?_⟩
  · rw [(hframes h).1] at helect
    rcases helect with helect | helect <;> cases helect
  · rintro X name ⟨frames, uuid, h, -, -, -, hid, -⟩
    cases (hframes h).1.symm.trans hid
  · rintro (⟨X, -, hX⟩ | ⟨frames, uuid, h, -, hremoves⟩)
    · cases hX
    · rw [Removes, if_pos (hframes h).1] at hremoves
      rcases hremoves with ⟨p, hp, -⟩ | ⟨-, hseq⟩
      · cases hp
      · exact absurd (hframes h).2 hseq

/-- The group that a peer has listed in its HELLO is known, and the peer is in it. -/
theorem populated_greeted : sampleGroup ∈ greetedNode.peerGroups.keys ∧ greetedNode.Populated :=
  ⟨by decide, populated_of_run (.step (sampleEnv 0) (sampleInput 1 sampleHello) (.new _ _) stocked_hello
    (step_eq_of_isOk (by decide)))⟩

/-- The only member of a group leaves it, and the group is still known. -/
theorem not_populated_of_leave : ¬∀ n, Reachable n → n.Populated := by
  intro h
  let leave : Msg := { ((Msg.new .leave).setGroup sampleGroup).setSequence 2 with status := 1 }
  let inputs : List (Env × Input) :=
    [(sampleEnv 0, sampleInput 1 sampleHello), (sampleEnv 0, sampleInput 1 leave)]
  have hplay : (play inputs sampleNode).map (fun n =>
      (n.peerGroups.keys, (n.members sampleGroup).keys)) = some ([sampleGroup], []) := by
    decide +kernel
  obtain ⟨n, hn, hout⟩ := Option.map_eq_some_iff.mp hplay
  obtain ⟨hkeys, hmembers⟩ := Prod.mk.inj hout
  have hknown : sampleGroup ∈ n.peerGroups.keys := hkeys ▸ List.mem_singleton_self _
  obtain ⟨X, -, hX⟩ := (h n (reachable_of_play (.new _ _) hn) sampleGroup).mp hknown
  have hnil : X ∈ ([] : List CStr) := hmembers ▸ AList.mem_keys.mp hX
  exact nomatch hnil

end Node

end Zyre
