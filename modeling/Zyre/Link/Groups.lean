import Zyre.Link.Delivery

/-!
# The groups one node lists another in

While `b` holds `a` ready it lists `a` in the groups `a` was in when it posted the last letter accepted,
unless a HELLO has come to an entry that is there but not ready (`lists_of_run`): there the groups in the
HELLO are added to those `a` is still listed in, where an entry that is ready would have been removed
first.
-/

namespace Zyre

/-! ### The groups in a view -/

namespace PeerView

theorem groups_take (X : CStr) (msg : Msg) (v : PeerView) (k : UInt16) :
    ((v.count k).take X msg).groups =
      match msg.id with
      | .join => insert msg.group v.groups
      | .leave => v.groups \ {msg.group}
      | _ => v.groups := by
  unfold take
  split <;> simp_all [join, leave, count]

end PeerView

/-- The gate leaves no groups, except to an entry it keeps. -/
theorem Opened.groups {X : CStr} {v w : PeerView} (h : Opened X v w) (hnone : v.entry = none → v.groups = ∅) :
    w.groups = ∅ ∨ w.groups = v.groups ∧ ∃ p, v.entry = some p ∧ p.ready = false := by
  cases h with
  | kept p he hr => exact Or.inr ⟨rfl, p, he, hr⟩
  | fresh q he hq => exact Or.inl (hnone he)
  | renewed p q he hr hq => exact Or.inl rfl

/-- A peer without an entry is in no group. -/
theorem Node.Sturdy.groupsOf_eq_empty {n : Node} {X : CStr} (hn : n.Sturdy)
    (h : n.peers.lookup X = none) : n.groupsOf X = ∅ := by
  refine Set.eq_empty_of_forall_notMem fun name hname => ?_
  obtain ⟨r, hr⟩ := Option.isSome_iff_exists.mp (AList.lookup_isSome.mpr hname)
  obtain ⟨rfl, hlive⟩ := hn.members name X r hr
  obtain ⟨p, hp⟩ := Option.isSome_iff_exists.mp hlive
  exact absurd (h.symm.trans (lookup_of_deref hp)) (by simp)

/-! ### A node's own groups -/

/-- A list of groups without repetition, whose names fit into a message. -/
structure ProperGroups (groups : List CStr) : Prop where
  nodup : groups.Nodup
  short : ∀ name ∈ groups, name.length ≤ Msg.fieldSize

theorem ProperGroups.erase {groups : List CStr} (h : ProperGroups groups) (name : CStr) :
    ProperGroups (groups.erase name) :=
  ⟨h.nodup.erase name, fun _ hname' => h.short _ (List.mem_of_mem_erase hname')⟩

theorem ProperGroups.append {groups : List CStr} {name : CStr} (h : ProperGroups groups)
    (hname : name ∉ groups) (hshort : name.length ≤ Msg.fieldSize) : ProperGroups (groups ++ [name]) := by
  refine ⟨h.nodup.append (List.nodup_singleton name) ?_, fun name' hname' => ?_⟩
  · exact List.disjoint_singleton.mpr hname
  · rcases List.mem_append.mp hname' with hname' | hname'
    · exact h.short name' hname'
    · exact List.mem_singleton.mp hname' ▸ hshort

/-- The groups change by what JOIN and LEAVE say. -/
theorem Letter.groups_of_regroups {m m' : Letter} (h : m.Regroups m') (hm : ProperGroups m.groups)
    (hm' : ProperGroups m'.groups) :
    {name | name ∈ m'.groups} =
      match m'.msg.id with
      | .join => insert m'.msg.group {name | name ∈ m.groups}
      | .leave => {name | name ∈ m.groups} \ {m'.msg.group}
      | _ => {name | name ∈ m.groups} := by
  unfold Regroups at h
  generalize m'.msg.id = id at h ⊢
  cases id
  case join =>
    obtain ⟨name, -, hgroup, hgroups, -⟩ := h
    have hshort : name.length ≤ Msg.fieldSize := hm'.short name (by simp [hgroups])
    rw [CStr.truncate_of_length_le hshort] at hgroup
    ext name'
    simp [hgroups, hgroup, or_comm]
  case leave =>
    obtain ⟨name, hname, hgroup, hgroups, -⟩ := h
    rw [CStr.truncate_of_length_le (hm.short name hname)] at hgroup
    ext name'
    simp [hgroups, hgroup, hm.nodup.mem_erase_iff, and_comm]
  all_goals
    show _ = {name | name ∈ m.groups}
    rw [h.1]

namespace Node

variable {n : Node} {env : Env} {input : Input}

/-- JOIN adds a group that is not there, LEAVE removes one, and nothing else changes them. -/
theorem step_ownGroups :
    (Node.step env input).wp
      (fun _ n' => n'.ownGroups = n.ownGroups ∨ (∃ name, n'.ownGroups = n.ownGroups.erase name) ∨
        ∃ name ∉ n.ownGroups, input = .api (.join name) ∧ n'.ownGroups = n.ownGroups ++ [name])
      (fun _ _ => True) n := by
  by_cases h : ∃ c, input = .api c ∧ c.regroups = true
  · obtain ⟨c, rfl, hc⟩ := h
    cases c with
    | join name =>
      by_cases hname : name ∈ n.ownGroups
      · unfold EStateM.wp
        rw [Node.step, recvApi, apiJoin_of_mem hname]
        exact Or.inl rfl
      refine EStateM.wp_mono (apiJoin_mailed hname ∅) (fun _ n' hmailed => ?_) fun _ _ _ => trivial
      exact Or.inr (Or.inr ⟨name, hname, rfl, (congrArg Node.ownGroups hmailed.own :)⟩)
    | leave name =>
      by_cases hname : name ∈ n.ownGroups
      · refine EStateM.wp_mono (apiLeave_mailed hname ∅) (fun _ n' hleft => ?_) fun _ _ _ => trivial
        obtain ⟨n₁, -, rfl⟩ := hleft
        exact Or.inr (Or.inl ⟨name, rfl⟩)
      unfold EStateM.wp
      rw [Node.step, recvApi, apiLeave_of_not_mem hname]
      exact Or.inl rfl
    | _ => cases hc
  · have hc : ∀ c, input = .api c → c.regroups = false := by
      intro c hinput
      by_contra hregroups
      exact h ⟨c, hinput, by simpa using hregroups⟩
    exact EStateM.wp_mono (step_changes hc) (fun _ _ h => Or.inl h.ownGroups) fun _ _ _ => trivial

end Node

namespace Link

variable {gap : ℕ} {l l' : Link} {action : Action} {j : ℕ} {letter : Letter} {msg : Msg}

/-- `b` lists `a` in the groups `a` was in when it had posted the last letter that `b` has accepted. -/
def Lists (l : Link) : Prop :=
  ∀ p, l.b.peers.lookup l.a.identity = some p → p.ready = true →
    ∃ i letter, l.accepted.getLast? = some i ∧ l.sent[i]? = some letter ∧
      l.b.groupsOf l.a.identity = {name | name ∈ letter.groups}

/-- `a` joins no group whose name does not fit into a message. -/
def Short (action : Action) : Prop :=
  ∀ env name, action = .sender env (.api (.join name)) → name.length ≤ Msg.fieldSize

/-- A HELLO that comes to an entry that is not ready names the groups `a` is still listed in. -/
def Covers (l : Link) (action : Action) : Prop :=
  ∀ env j frames p, action = .deliver env j frames → (Msg.recv frames).msg.id = .hello →
    l.b.peers.lookup l.a.identity = some p → p.ready = false →
      ∀ name ∈ l.b.groupsOf l.a.identity, name ∈ (Msg.recv frames).msg.groups.getD []

/-- What holds of a link whose steps meet both. -/
structure Grouped (l : Link) : Prop where
  sturdy : l.b.Sturdy
  own : ProperGroups l.a.ownGroups
  letters : ∀ m ∈ l.sent, ProperGroups m.groups
  groups : ∀ p i letter, (l.b.view l.a.identity).entry = some p → p.ready = true → l.Held p i letter →
    (l.b.view l.a.identity).groups = {name | name ∈ letter.groups}

theorem Step.sturdy (h : Step gap l action l') (hb : l.b.Sturdy) : l'.b.Sturdy := by
  cases h with
  | sender h => exact hb
  | receiver hinput h => exact (EStateM.wp_of_ok h hb.step :)
  | deliver hj hletter hsender hmsg h => exact (EStateM.wp_of_ok h hb.step :)

/-- What holds of a list of groups whatever is joined or left holds of the groups of the letters. -/
theorem Step.groups {Q : List CStr → Prop} (h : Step gap l action l') (hposted : l.a.Posted l.b.identity l.sent)
    (herase : ∀ groups name, Q groups → Q (groups.erase name))
    (hjoin : ∀ env name groups, action = .sender env (.api (.join name)) → name ∉ groups → Q groups →
      Q (groups ++ [name]))
    (hown : Q l.a.ownGroups) (hletters : ∀ m ∈ l.sent, Q m.groups) :
    Q l'.a.ownGroups ∧ ∀ m ∈ l'.sent, Q m.groups := by
  cases h with
  | @sender env input a' h =>
    have hown' : Q a'.ownGroups := by
      rcases (EStateM.wp_of_ok h Node.step_ownGroups :) with hsame | hleft | hjoined
      · rwa [hsame]
      · obtain ⟨name, hleft⟩ := hleft
        rw [hleft]
        exact herase _ name hown
      · obtain ⟨name, hname, rfl, hjoined⟩ := hjoined
        rw [hjoined]
        exact hjoin env name _ rfl hname hown
    obtain ⟨ls, hposted', hstamped⟩ := EStateM.wp_of_ok h hposted.step
    refine ⟨hown', fun m hm => ?_⟩
    rw [posts_eq hposted' hstamped] at hm
    rcases List.mem_append.mp hm with hm | hm
    · exact hletters m hm
    · rw [(hstamped m hm).2]
      exact hown'
  | receiver hinput h => exact ⟨hown, hletters⟩
  | deliver hj hletter hsender hmsg h => exact ⟨hown, hletters⟩

/-- The groups of the letters stay proper. -/
theorem Step.properGroups (h : Step gap l action l') (hposted : l.a.Posted l.b.identity l.sent)
    (hshort : Short action) (hown : ProperGroups l.a.ownGroups)
    (hletters : ∀ m ∈ l.sent, ProperGroups m.groups) :
    ProperGroups l'.a.ownGroups ∧ ∀ m ∈ l'.sent, ProperGroups m.groups :=
  h.groups hposted (fun _ name hgroups => hgroups.erase name)
    (fun env name _ haction hname hgroups => hgroups.append hname (hshort env name haction)) hown hletters

/-- After a letter is delivered the groups are those it says. -/
theorem Grouped.delivered (hl : l.Grouped) (hletter : l.sent[j]? = some letter)
    (hmsg : Carries letter.msg msg)
    (hcovers : msg.id = .hello → ∀ p, (l.b.view l.a.identity).entry = some p → p.ready = false →
      ∀ name ∈ l.b.groupsOf l.a.identity, name ∈ msg.groups.getD [])
    {v' : PeerView} {accepted : List ℕ} (h : Delivered l j letter msg v' accepted) {p : Peer}
    (hp : v'.entry = some p) (hready : p.ready = true) : v'.groups = {name | name ∈ letter.groups} := by
  rcases h with h | ⟨w, -, hopens, hid, hw, hv⟩ | ⟨_, _, _, -, hv⟩ | ⟨q, i, last, hcomes, hv⟩
  · exact absurd ((h p hp).symm.trans hready) Bool.false_ne_true
  · have hgroups : msg.groups.getD [] = letter.groups := by
      rw [(hmsg.hello hopens.id).1, hopens.groups, Option.getD_some]
    have hgreet : v'.groups = w.groups ∪ {name | name ∈ msg.groups.getD []} := by rw [hv]; rfl
    rw [hgreet, hgroups]
    refine Set.union_eq_right.mpr fun name hname => ?_
    have hnone : (l.b.view l.a.identity).entry = none → (l.b.view l.a.identity).groups = ∅ :=
      fun h => hl.sturdy.groupsOf_eq_empty (Option.map_eq_none_iff.mp h)
    rcases hw.groups hnone with hempty | ⟨hsame, q, hq, hr⟩
    · rw [hempty] at hname
      cases hname
    · rw [hsame] at hname
      rw [← hgroups]
      exact hcovers hid q hq hr name hname
  · exact absurd (hv.symm.trans hp) (by simp)
  · have hlast := List.mem_of_getElem? hcomes.held.sent
    rw [hv, PeerView.groups_take, hl.groups q i last hcomes.entry hcomes.ready hcomes.held,
      Letter.groups_of_regroups hcomes.regroups (hl.letters last hlast)
        (hl.letters letter (List.mem_of_getElem? hletter)), hmsg.id]
    by_cases hchange : letter.msg.id = .join ∨ letter.msg.id = .leave
    · rw [(hmsg.group hchange).1]
    · obtain ⟨hjoin, hleave⟩ := not_or.mp hchange
      split <;> first | contradiction | rfl

theorem Run.grouped (hgap : gap < 65536) (h : Run gap (fun l action => Short action ∧ l.Covers action) l) :
    l.Grouped := by
  induction h with
  | new uuid uuid' endpoint endpoint' =>
    refine ⟨Node.sturdy_of_reachable (.new _ _), ⟨List.nodup_nil, nofun⟩, nofun, ?_⟩
    rintro p i letter ⟨⟩
  | @step l l' action hl hc h ih =>
    obtain ⟨hown, hletters⟩ := h.properGroups hl.posted hc.1 ih.own ih.letters
    refine ⟨h.sturdy ih.sturdy, hown, hletters, fun p i letter hp hready hheld => ?_⟩
    have hidentity : l'.a.identity = l.a.identity := congrArg Uuid.str h.identity.1
    rw [hidentity] at hp ⊢
    by_cases haction : ∃ env j frames, action = .deliver env j frames
    · obtain ⟨env, j, frames, rfl⟩ := haction
      obtain ⟨m, hm, hmsg, hnext, -, hsent, hdelivered⟩ := h.delivered hgap hl.posted (hl.faithful hgap)
      obtain rfl : i = j := by
        have := hheld.next
        omega
      obtain rfl := Option.some_inj.mp ((hsent ▸ hm).symm.trans hheld.sent)
      refine ih.delivered hm hmsg (fun hid p hp hr => ?_) hdelivered hp hready
      obtain ⟨q, hq, rfl⟩ := Option.map_eq_some_iff.mp hp
      exact hc.2 env i frames q rfl hid hq hr
    · have haction : ∀ env j frames, action ≠ .deliver env j frames := fun env j frames h =>
        haction ⟨env, j, frames, h⟩
      obtain ⟨hp, hgroups, hnext, haccepted⟩ := ready_of_step h haction hp hready
      obtain ⟨i', letter', hheld'⟩ := hl.faithful hgap p hp hready
      obtain rfl : i' = i := by
        have h₁ := hheld'.next
        have h₂ := hheld.next
        omega
      obtain rfl := Option.some_inj.mp ((h.sent hheld'.sent).symm.trans hheld.sent)
      rw [hgroups]
      exact ih.groups p i' letter' hp hready hheld'

theorem Run.groups (h : Run 0 (fun l action => Short action ∧ l.Covers action) l) {p : Peer}
    (hp : l.b.peers.lookup l.a.identity = some p) (hready : p.ready = true) : ∃ i letter,
      l.accepted.getLast? = some i ∧ l.sent[i]? = some letter ∧
        l.b.groupsOf l.a.identity = {name | name ∈ letter.groups} := by
  have hview : (l.b.view l.a.identity).entry = some p.still := by simp [Node.view, hp]
  obtain ⟨i, letter, hheld⟩ := h.faithful (by decide) p.still hview hready
  exact ⟨i, letter, hheld.accepted, hheld.sent,
    (h.grouped (by decide)).groups p.still i letter hview hready hheld⟩

/-- **Group lists.** In every run `b` lists `a`, while it holds it ready, in exactly the groups that `a` was
in when it posted the last letter that `b` has accepted, if the HELLO messages that come to an entry that is
not ready cover the groups listed there. Such an entry has kept the groups of the session before, and HELLO
only adds to them: a group that `a` has left since would stay. -/
theorem lists_of_run (h : Run 0 (fun l action => Short action ∧ l.Covers action) l) : l.Lists := by
  intro p hp hready
  exact h.groups hp hready

/-! ### Two runs -/

/-- A HELLO to a node without an entry for the sender, or another message, meets the condition. -/
theorem covers_of_lookup {env : Env} {frames : List Frame}
    (h : (Msg.recv frames).msg.id = .hello → l.b.peers.lookup l.a.identity = none) :
    Short (.deliver env j frames) ∧ l.Covers (.deliver env j frames) := by
  refine ⟨fun _ _ => nofun, ?_⟩
  rintro env j frames p ⟨⟩ hid hp
  exact absurd ((h hid).symm.trans hp) (by simp)

theorem covers_of_send {env : Env} {input : Input}
    (h : ∀ name, input = .api (.join name) → name.length ≤ Msg.fieldSize) :
    Short (.sender env input) ∧ l.Covers (.sender env input) := by
  refine ⟨?_, fun _ _ _ _ => nofun⟩
  rintro env name ⟨⟩
  exact h name rfl

/-- HELLO and JOIN are delivered. -/
theorem lists_joined :
    (sampleLink |>.deliver (Node.sampleEnv 0) 0 |>.deliver (Node.sampleEnv 0) 1).Lists := by
  have hknown : Run 0 (fun l action => Short action ∧ l.Covers action)
      (sampleStart.send (Node.sampleEnv 0) (Node.sampleInput 1 Node.sampleHello)) :=
    run_sampleStart.send (covers_of_send fun _ => nofun) (by decide)
  have hjoined : Run 0 (fun l action => Short action ∧ l.Covers action) sampleLink :=
    hknown.send (covers_of_send (by rintro name ⟨⟩; decide)) (by decide)
  have hnone : sampleLink.b.peers.lookup sampleLink.a.identity = none :=
    Option.isNone_iff_eq_none.mp (by decide +kernel)
  have hgreeted : Run 0 (fun l action => Short action ∧ l.Covers action)
      (sampleLink.deliver (Node.sampleEnv 0) 0) :=
    hjoined.deliver ⟨le_rfl, .inl nofun⟩ (by decide +kernel) (fun _ _ => covers_of_lookup fun _ => hnone)
      (by decide +kernel)
  have hjoin : ∀ m ∈ (sampleLink.deliver (Node.sampleEnv 0) 0).sent[1]?,
      (Msg.recv ((sampleLink.deliver (Node.sampleEnv 0) 0).frames m)).msg.id ≠ .hello := by
    decide +kernel
  exact lists_of_run (hgreeted.deliver ⟨le_rfl, .inr ⟨0, by decide +kernel⟩⟩ (by decide +kernel)
    (fun m hm => covers_of_lookup fun hid => absurd hid (hjoin m hm)) (by decide +kernel))

/-- `a` says HELLO to `b` while it is in a group. -/
def sampleGreeting : Link :=
  sampleStart
    |>.send (Node.sampleEnv 0) (.api (.join (CStr.ofChars ['g'])))
    |>.send (Node.sampleEnv 0) (.api (.requirePeer (Node.sampleUuid 1) (Node.sampleEndpoint 'p') none))
    |>.deliver (Node.sampleEnv 0) 0

/-- Another node comes up on the endpoint of `a`, so `b` purges `a`. -/
def samplePurged : Link :=
  sampleGreeting.receive (Node.sampleEnv 0)
    (.api (.requirePeer (Node.sampleUuid 2) (Node.sampleEndpoint 'n') none))

/-- Meanwhile `a` gives `b` up and leaves the group, -/
def sampleParted : Link :=
  samplePurged
    |>.send (Node.sampleEnv 40000) (.reap [(Node.sampleUuid 1).str])
    |>.send (Node.sampleEnv 40000) (.api (.leave (CStr.ofChars ['g'])))

/-- and says HELLO again. -/
def sampleStale : Link :=
  sampleParted
    |>.send (Node.sampleEnv 40000) (.api (.requirePeer (Node.sampleUuid 1) (Node.sampleEndpoint 'p') none))
    |>.deliver (Node.sampleEnv 40000) 1

theorem run_sampleStale : Run 0 (fun _ action => Short action) sampleStale := by
  have hjoined : Run 0 (fun _ action => Short action)
      (sampleStart.send (Node.sampleEnv 0) (.api (.join (CStr.ofChars ['g'])))) :=
    run_sampleStart.send (by rintro _ name ⟨⟩; decide) (by decide)
  have hgreeting : Run 0 (fun _ action => Short action) sampleGreeting :=
    (hjoined.send (by rintro _ _ ⟨⟩) (by decide)).deliver ⟨le_rfl, .inl nofun⟩ (by decide +kernel)
      (fun _ _ _ _ => nofun) (by decide +kernel)
  have hpurged : Run 0 (fun _ action => Short action) samplePurged :=
    hgreeting.receive (by rintro _ _ ⟨⟩) nofun (by decide +kernel)
  have hparted : Run 0 (fun _ action => Short action) sampleParted :=
    (hpurged.send (by rintro _ _ ⟨⟩) (by decide +kernel)).send (by rintro _ _ ⟨⟩) (by decide +kernel)
  exact (hparted.send (by rintro _ _ ⟨⟩) (by decide +kernel)).deliver
    ⟨by decide +kernel, .inl (by decide +kernel)⟩ (by decide +kernel) (fun _ _ _ _ => nofun)
    (by decide +kernel)

/-- `b` goes on listing `a` in the group. -/
theorem not_lists_of_stale : ∃ l, Run 0 (fun _ action => Short action) l ∧ ¬l.Lists := by
  refine ⟨sampleStale, run_sampleStale, fun h => ?_⟩
  have hready : ∃ p ∈ sampleStale.b.peers.lookup sampleStale.a.identity, p.ready = true := by
    decide +kernel
  obtain ⟨p, hp, hr⟩ := hready
  obtain ⟨i, letter, hi, hletter, hgroups⟩ := h p hp hr
  have hlisted : CStr.ofChars ['g'] ∈ sampleStale.b.groupsOf sampleStale.a.identity := by
    have h : sampleStale.a.identity ∈ sampleStale.b.members (CStr.ofChars ['g']) := by decide +kernel
    exact h
  rw [hgroups] at hlisted
  have hnone : ∀ i ∈ sampleStale.accepted.getLast?, ∀ letter ∈ sampleStale.sent[i]?,
      CStr.ofChars ['g'] ∉ letter.groups := by decide +kernel
  exact hnone i hi letter hletter hlisted

end Link

end Zyre
