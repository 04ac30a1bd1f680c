import Zyre.Msg.RoundTrip
import Zyre.Node.Handling

/-!
# Elections in the node's own groups

A node looks up its own groups before it starts an election on JOIN, and when a peer leaves it or the
network. It does not on HELLO, and an ELECT or LEADER makes it take part whatever its group. So it takes
part in elections of its own groups only, as long as these three engage it there only (`AtHome`).

ELECT and LEADER hold the first 255 bytes of a name. A longer one is not what they name, and an election
of its group is not started either while no HELLO brings one about (`Terse`).
-/

namespace Zyre

namespace Node

variable {S : Scope} {n n' : Node} {env : Env} {input : Input} {name : CStr}

/-! ### Long names -/

/-- No election has begun in a group whose name does not fit the field of ELECT and LEADER. -/
def Terse (n : Node) : Prop := ∀ name, Msg.fieldSize < name.length → ¬n.Elective name

theorem terse_new (uuid : Uuid) (endpoint : CStr) : (Node.new uuid endpoint).Terse := by
  intro name _ h
  rcases h with h | h <;> exact nomatch h

/-- What happens to one group makes it elective only if it is named in the scope, or heard of. -/
theorem Terse.modify {f : Group → Group} (hn : n.Terse)
    (hf : Msg.fieldSize < name.length → ∀ g, n.peerGroups.lookup name = some g →
      (f g).election.isSome ∨ (f g).leader.isSome → g.election.isSome ∨ g.leader.isSome) :
    Terse { n with peerGroups := n.peerGroups.modify name f } := by
  intro name' hlong helective
  by_cases hname : name' = name
  · subst hname
    refine hn name' hlong ?_
    cases hg : n.peerGroups.lookup name' with
    | none => simp [Elective, hg, Group.new] at helective
    | some g =>
      have h : (f g).election.isSome ∨ (f g).leader.isSome := by simpa [Elective, hg] using helective
      simpa [Elective, hg] using hf hlong g hg h
  · refine hn name' hlong ?_
    simpa [Elective, AList.lookup_modify_ne hname] using helective

theorem Terse.congr (hn : n.Terse) (hgroups : n'.peerGroups = n.peerGroups) : n'.Terse := by
  intro name hlong helective
  refine hn name hlong ?_
  rwa [Elective, hgroups] at helective

/-- A deed begins an election only in a group of its scope, or one it has heard of. -/
theorem Deed.terse (hgroups : ∀ name ∈ S.groups, name.length ≤ Msg.fieldSize)
    (hhears : ∀ msg, S.hears msg → msg.group.length ≤ Msg.fieldSize) (h : Deed S n n')
    (hn : n.Terse) : n'.Terse := by
  have hheard : ∀ {name}, S.HearsOf name → ¬Msg.fieldSize < name.length := by
    rintro name ⟨msg, hmsg, rfl⟩
    exact not_lt.mpr (hhears msg hmsg)
  cases h with
  | join name r hr => exact hn.modify fun _ _ _ h => h
  | leave name r hr => exact hn.modify fun _ _ _ h => h
  | addGroup name =>
    intro name' hlong helective
    refine hn name' hlong ?_
    by_cases hname : name' = name
    · subst hname
      simpa [Elective, lookup_insertNew_self] using helective
    · simpa [Elective, AList.lookup_insertNew, hname] using helective
  | start name hname hcontest =>
    exact hn.modify fun hlong => absurd hlong (not_lt.mpr (hgroups name hname))
  | follow r msg hmsg hid hname =>
    exact hn.modify fun hlong => absurd hlong (not_lt.mpr (hhears msg hmsg))
  | count name f hf hsome =>
    refine hn.modify fun hlong g _ h => h.imp_left fun h => ?_
    exact (hsome g h).resolve_right fun hhears => hheard hhears hlong
  | setLeader name leader hleader =>
    refine hn.modify fun hlong g _ h => h.imp_right fun h => ?_
    exact absurd hlong (hheard (hleader h))
  | contest name hname => exact hn.modify fun _ _ _ h => h
  | know hpeers hgroups hserial houtbox hmail huuid hown => exact hn.congr hgroups
  | _ => exact hn.congr rfl

theorem Deeds.terse (hgroups : ∀ name ∈ S.groups, name.length ≤ Msg.fieldSize)
    (hhears : ∀ msg, S.hears msg → msg.group.length ≤ Msg.fieldSize) (h : Deeds S n n')
    (hn : n.Terse) : n'.Terse :=
  h.invariant (fun _ _ h => h.terse hgroups hhears) hn

/-! ### Steps -/

/-- The message of an input, if it is one that can be handled, engages the node in elections of its own
groups only, and a HELLO not in one with a name that is too long. -/
def AtHome (env : Env) (n : Node) (input : Input) : Prop :=
  ∀ frames uuid, input = .inbox frames → senderOf frames = some uuid →
    Takes env n uuid.str (Msg.recv frames).msg → ∀ name, Engages n (Msg.recv frames).msg name →
      name ∈ n.ownGroups ∧ ((Msg.recv frames).msg.id = .hello → name.length ≤ Msg.fieldSize)

/-- The ELECT and LEADER messages sent, and the LEADER events told, name groups the node is in. -/
structure ElectsOwn (n n' : Node) : Prop where
  mail : ∃ ms, n'.mail = n.mail ++ ms ∧ ∀ m ∈ ms, m.2.id.elects = true →
    m.2.group ∈ n.ownGroups ∧ m.2.group ∈ n'.ownGroups
  outbox : ∃ es, n'.outbox = n.outbox ++ es ∧ ∀ identity leaderName group,
    .leader identity leaderName group ∈ es → group ∈ n.ownGroups ∧ group ∈ n'.ownGroups

/-- The groups of a node whose names fit the fields of a message. -/
def ownShort (n : Node) : Set CStr := {name | name ∈ n.ownGroups ∧ name.length ≤ Msg.fieldSize}

/-- A group the command of a message engages a node in is that of the message, HELLO aside. -/
theorem Engages.length_le {frames : List Frame} (h : Engages n (Msg.recv frames).msg name)
    (hhello : (Msg.recv frames).msg.id = .hello → name.length ≤ Msg.fieldSize) :
    name.length ≤ Msg.fieldSize := by
  have hgroup := group_length_recv frames
  unfold Engages at h
  split at h
  · exact hhello ‹_›
  · exact h.1 ▸ hgroup
  · exact h.1 ▸ hgroup
  · exact h.1 ▸ hgroup
  · exact h.elim

theorem hears_length {groups : Set CStr} {msg : Msg} (h : (inputScope groups n input).hears msg) :
    msg.group.length ≤ Msg.fieldSize := by
  obtain ⟨frames, -, rfl⟩ := hears_inputScope h
  exact group_length_recv frames

/-- Deeds in groups with short names send and tell those names. -/
theorem Deeds.electsOwn (hgroups : ∀ name ∈ S.groups, name ∈ n.ownShort)
    (hown : S.groups.Nonempty → n'.ownGroups = n.ownGroups) (h : Deeds S n n') : ElectsOwn n n' := by
  have hboth : ∀ name ∈ S.groups, name ∈ n.ownGroups ∧ name ∈ n'.ownGroups := by
    intro name hname
    rw [hown ⟨name, hname⟩]
    exact ⟨(hgroups name hname).1, (hgroups name hname).1⟩
  obtain ⟨ms, hms, hsends⟩ := Deeds.mail h
  obtain ⟨es, hes, htells⟩ := Deeds.outbox h
  refine ⟨⟨ms, hms, fun m hm helects => ?_⟩, ⟨es, hes, fun identity leaderName group hmem => ?_⟩⟩
  · obtain ⟨name, hname, hgroup⟩ := hsends m hm helects
    rw [hgroup, CStr.truncate_of_length_le (hgroups name hname).2]
    exact hboth name hname
  · rcases htells _ hmem with ⟨helects, -⟩ | ⟨_, _, name, hname, heq⟩
    · exact nomatch helects
    · obtain ⟨-, -, rfl⟩ := Event.leader.inj heq
      exact hboth _ hname

/-- A step that engages the node at home only. -/
theorem step_electsOwn (hn : n.Terse) (hc : AtHome env n input) :
    (Node.step env input).Leads (fun n n' => ElectsOwn n n' ∧ n'.Terse) n := by
  by_cases hapi : ∃ command, input = .api command
  · obtain ⟨command, rfl⟩ := hapi
    refine (recvApi_deeds command).mono fun n' h => ⟨Deeds.electsOwn ?_ ?_ h, ?_⟩
    · exact fun name hname => absurd hname (Set.notMem_empty name)
    · exact fun ⟨name, hname⟩ => absurd hname (Set.notMem_empty name)
    · exact Deeds.terse (fun name hname => absurd hname (Set.notMem_empty name))
        (fun msg (h : False) => h.elim) h hn
  · obtain ⟨hgroups, hregroups⟩ :=
      (inputScope_of_ne_api fun command h => hapi ⟨command, h⟩ :
        (inputScope n.ownShort n input).groups = n.ownShort ∧ _)
    have hterse : ∀ n', Deeds (inputScope n.ownShort n input) n n' → n'.Terse := fun n' h =>
      Deeds.terse (fun name hname => (hgroups ▸ hname : name ∈ n.ownShort).2)
        (fun _ => hears_length) h hn
    have hresumable : Resumable (inputScope n.ownShort n input) n := by
      intro n' h name hname _ helective
      rw [hgroups]
      rw [Deeds.ownGroups hregroups h] at hname
      exact ⟨hname, not_lt.mp fun hlong => hterse n' h name hlong helective⟩
    refine (step_deeds (fun _ => hresumable) fun frames uuid hinput hsender htakes name hname => ?_).mono
      fun n' h => ⟨Deeds.electsOwn ?_ ?_ h, hterse n' h⟩
    · have hhome := hc frames uuid hinput hsender htakes name hname
      exact ⟨hhome.1, hname.length_le hhome.2⟩
    · rw [hgroups]
      exact fun name hname => hname
    · exact fun _ => Deeds.ownGroups hregroups h

/-! ### Runs -/

theorem terse_of_run (h : Run AtHome n) : n.Terse := by
  induction h with
  | new uuid endpoint => exact terse_new uuid endpoint
  | step env input hn hc h ih => exact ((step_electsOwn ih hc).of_ok h).2

/-- **Elections at home.** In a run whose messages engage the node at home only, it sends ELECT and LEADER,
and tells LEADER, in its own groups only, also where the last step stops half way. The branches for ELECT
and LEADER do not look whether the node is in the group, unlike those for JOIN and LEAVE and the removal of
a peer, which do. -/
theorem electsOwn_of_run (hn : Run AtHome n) (hc : AtHome env n input)
    (h : Leaves (Node.step env input) n n') : ElectsOwn n n' := by
  refine (h.of_wp (P := fun n' => ElectsOwn n n' ∧ n'.Terse) ?_).1
  exact EStateM.wp_mono (step_electsOwn (terse_of_run hn) hc) (fun _ _ h => h) fun _ _ h => h.1

theorem atHome_api (command : Command) : AtHome env n (.api command) := fun _ _ h => nomatch h

theorem run_contestingNode : Run AtHome contestingNode :=
  .step _ _ (.step _ _ (.new _ _) (atHome_api _) (step_eq_of_isOk (by decide +kernel)))
    (atHome_api _) (step_eq_of_isOk (by decide +kernel))

/-- A peer in the group says HELLO to the node, and it starts an election. -/
theorem electsOwn_contestingNode : ElectsOwn contestingNode
    (final (Node.step (sampleEnv 0) (sampleInput 1 sampleHello) contestingNode)) := by
  have hhome : AtHome (sampleEnv 0) contestingNode (sampleInput 1 sampleHello) := by
    intro frames uuid hinput _ _ name hname
    obtain rfl : (1 :: (sampleUuid 1).data) :: sampleHello.frames = frames := Input.inbox.inj hinput
    have hmsg : (Msg.recv ((1 :: (sampleUuid 1).data) :: sampleHello.frames)).msg.id = .hello ∧
        (Msg.recv ((1 :: (sampleUuid 1).data) :: sampleHello.frames)).msg.groups =
          some [sampleGroup] := by decide +kernel
    simp only [Engages, hmsg.1, hmsg.2, Option.getD_some, List.mem_singleton] at hname
    obtain ⟨rfl, -⟩ := hname
    exact ⟨by decide +kernel, fun _ => by decide⟩
  exact electsOwn_of_run run_contestingNode hhome (leaves_final _ _)

/-- The node contests the group but has not joined it: it starts an election all the same. -/
theorem not_electsOwn_of_hello : ¬∀ n n' env input, Reachable n →
    Leaves (Node.step env input) n n' → ElectsOwn n n' := by
  intro h
  set n := final (Node.step (sampleEnv 0) (.api (.setContest sampleGroup)) sampleNode) with hn
  have hreachable : Reachable n := .step _ _ (.new _ _) (step_eq_of_isOk (by decide +kernel))
  obtain ⟨ms, hms, hown⟩ := (h n _ (sampleEnv 0) (sampleInput 1 sampleHello) hreachable
    (leaves_final _ _)).mail
  have hmail : (final (Node.step (sampleEnv 0) (sampleInput 1 sampleHello) n)).mail.any
      fun m => m.2.id.elects = true := by decide +kernel
  have hnone : n.mail = [] ∧ n.ownGroups = [] := by decide +kernel
  rw [hms, hnone.1, List.nil_append] at hmail
  obtain ⟨m, hm, helects⟩ := List.any_eq_true.mp hmail
  have hgroup := (hown m hm (of_decide_eq_true helects)).1
  rw [hnone.2] at hgroup
  exact List.not_mem_nil hgroup

end Node

end Zyre
