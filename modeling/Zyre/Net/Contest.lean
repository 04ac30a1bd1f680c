import Zyre.Net.Basic
import Zyre.Node.Participation

/-!
# Only contesting nodes are elected

Who leads a group comes from an election, and an election is about a wave: the challenger it was started
by. A node starts one under its own identity, in a group it contests, and otherwise takes the challenger
from an ELECT it has received. So every wave a node is in, every challenger and leader it sends, and every
leader it tells of, is a node that has set contest in the group (`Vouched`), provided that the name of the
group fits the field of the message.
-/

namespace Zyre

/-- The challenger of an ELECT, and the leader of a LEADER, are vouched for. -/
def Vouches (C : CStr → CStr → Prop) (msg : Msg) : Prop :=
  (msg.id = .elect → C msg.challengerId msg.group) ∧ (msg.id = .leader → C msg.leaderId msg.group)

namespace Node

variable {C : CStr → CStr → Prop} {S : Scope} {n n' : Node} {name : CStr} {msg : Msg}

/-- `C` holds of the node in the groups it contests, of the wave of each of its elections, and of every
challenger and leader it has sent or told of. -/
structure Vouched (C : CStr → CStr → Prop) (n : Node) : Prop where
  contests : ∀ name, n.contested name = true → C n.identity name
  waves : ∀ name g e caw, n.peerGroups.lookup name = some g → g.election = some e → e.caw = some caw →
    C caw name
  mail : ∀ m ∈ n.mail, Vouches C m.2
  told : ∀ identity leaderName group, .leader identity leaderName group ∈ n.outbox → C identity group

theorem vouches_of_not_elects (h : msg.id.elects = false) : Vouches C msg := by
  refine ⟨fun hid => ?_, fun hid => ?_⟩
  · rw [hid] at h
    cases h
  · rw [hid] at h
    cases h

theorem vouched_new (uuid : Uuid) (endpoint : CStr) : Vouched C (Node.new uuid endpoint) where
  contests _ h := nomatch h
  waves _ _ _ _ hg := nomatch hg
  mail _ hm := nomatch hm
  told _ _ _ h := nomatch h

theorem Vouched.mono {D : CStr → CStr → Prop} (h : Vouched C n) (hCD : ∀ c g, C c g → D c g) :
    Vouched D n where
  contests name hname := hCD _ _ (h.contests name hname)
  waves name g e caw hg he hcaw := hCD _ _ (h.waves name g e caw hg he hcaw)
  mail m hm := ⟨fun hid => hCD _ _ ((h.mail m hm).1 hid), fun hid => hCD _ _ ((h.mail m hm).2 hid)⟩
  told identity leaderName group hmem := hCD _ _ (h.told identity leaderName group hmem)

/-! ### Deeds -/

/-- The message of a wave names its challenger and its group, if both fit their fields. -/
theorem Waves.vouches (h : Waves n name msg) (hn : Vouched C n)
    (hshort : ∀ c g, C c g → c.length ≤ Msg.fieldSize ∧ g.length ≤ Msg.fieldSize) :
    Vouches C msg := by
  obtain ⟨g, e, caw, hg, he, hcaw, hmsg⟩ := h
  have hC := hn.waves name g e caw hg he hcaw
  have hcawShort := CStr.truncate_of_length_le (hshort _ _ hC).1
  have hnameShort := CStr.truncate_of_length_le (hshort _ _ hC).2
  rcases hmsg with rfl | rfl
  · refine ⟨fun _ => ?_, fun hid => (by cases hid)⟩
    simpa only [Msg.setGroup, Msg.setChallengerId, hcawShort, hnameShort] using hC
  · refine ⟨fun hid => (by cases hid), fun _ => ?_⟩
    simpa only [Msg.setGroup, Msg.setLeaderId, hcawShort, hnameShort] using hC

/-- The waves of a node once one of its groups has changed. -/
theorem Vouched.waves_modify {f : Group → Group} {name' : CStr} {g : Group} {e : Election} {caw : CStr}
    (hn : Vouched C n) (hg : (n.peerGroups.modify name f).lookup name' = some g)
    (he : g.election = some e) (hcaw : e.caw = some caw)
    (hf : ∀ g e caw, n.peerGroups.lookup name = some g → (f g).election = some e → e.caw = some caw →
      C caw name) : C caw name' := by
  rcases eq_or_ne name' name with rfl | hne
  · rw [AList.lookup_modify_self] at hg
    obtain ⟨g₀, hg₀, rfl⟩ := Option.map_eq_some_iff.mp hg
    exact hf g₀ e caw hg₀ he hcaw
  · rw [AList.lookup_modify_ne hne] at hg
    exact hn.waves name' g e caw hg he hcaw

theorem Deed.waves (hhears : ∀ msg, S.hears msg → Vouches C msg) (h : Deed S n n') (hn : Vouched C n)
    (name : CStr) (g : Group) (e : Election) (caw : CStr) (hg : n'.peerGroups.lookup name = some g)
    (he : g.election = some e) (hcaw : e.caw = some caw) : C caw name := by
  cases h with
  | join name' r hr => exact hn.waves_modify hg he hcaw fun g e caw => hn.waves name' g e caw
  | leave name' r hr => exact hn.waves_modify hg he hcaw fun g e caw => hn.waves name' g e caw
  | addGroup name' =>
    rw [AList.lookup_insertNew] at hg
    split_ifs at hg with hname
    · cases hlook : n.peerGroups.lookup name' with
      | none =>
        rw [hlook, Option.getD_none] at hg
        obtain rfl := Option.some_inj.mp hg
        cases he
      | some g₀ =>
        rw [hlook, Option.getD_some] at hg
        obtain rfl := Option.some_inj.mp hg
        exact hname ▸ hn.waves name' g₀ e caw hlook he hcaw
    · exact hn.waves name g e caw hg he hcaw
  | start name' hname' hcontest =>
    refine hn.waves_modify hg he hcaw fun g e caw _ he hcaw => ?_
    obtain rfl := Option.some_inj.mp he
    obtain rfl := Option.some_inj.mp hcaw
    exact hn.contests name' hcontest
  | follow r msg hmsg hid hname' =>
    refine hn.waves_modify hg he hcaw fun g e caw _ he hcaw => ?_
    obtain rfl := Option.some_inj.mp he
    obtain rfl := Option.some_inj.mp hcaw
    exact (hhears msg hmsg).1 hid
  | count name' f hf hsome =>
    refine hn.waves_modify hg he hcaw fun g e caw hg he hcaw => ?_
    obtain ⟨e₀, he₀, hcaw₀⟩ := hf g hg e he caw hcaw
    exact hn.waves name' g e₀ caw hg he₀ hcaw₀
  | setLeader name' leader hleader =>
    exact hn.waves_modify hg he hcaw fun g e caw => hn.waves name' g e caw
  | contest name' hname' => exact hn.waves_modify hg he hcaw fun g e caw => hn.waves name' g e caw
  | know hpeers hgroups hserial houtbox hmail huuid hown =>
    exact hn.waves name g e caw (hgroups ▸ hg) he hcaw
  | _ => exact hn.waves name g e caw hg he hcaw

theorem Deed.vouches_mail (hshort : ∀ c g, C c g → c.length ≤ Msg.fieldSize ∧ g.length ≤ Msg.fieldSize)
    (h : Deed S n n') (hn : Vouched C n) : ∀ m ∈ n'.mail, Vouches C m.2 := by
  have hone : ∀ m, Vouches C m.2 → ∀ m' ∈ n.mail ++ [m], Vouches C m'.2 := by
    intro m hm m' hm'
    rcases List.mem_append.mp hm' with hm' | hm'
    · exact hn.mail m' hm'
    · exact List.mem_singleton.mp hm' ▸ hm
  cases h with
  | send r p msg hr hid => exact hone _ (vouches_of_not_elects hid)
  | pass r p msg name hr hname hwave => exact hone _ (hwave.vouches hn hshort)
  | greet env X endpoint key hX hgreets hnew =>
    refine hone _ (vouches_of_not_elects ?_)
    rw [Msg.setSequence_id, helloMsg_id]
    rfl
  | enroll X endpoint p hX hgreets => simpa [opening, purged] using hn.mail
  | know hpeers hgroups hserial houtbox hmail huuid hown => exact hmail ▸ hn.mail
  | _ => exact hn.mail

theorem Deed.vouches_told (hhears : ∀ msg, S.hears msg → Vouches C msg) (h : Deed S n n')
    (hn : Vouched C n) (identity leaderName group : CStr)
    (hmem : .leader identity leaderName group ∈ n'.outbox) : C identity group := by
  have hone : ∀ e, (.leader identity leaderName group = e → C identity group) →
      .leader identity leaderName group ∈ n.outbox ++ [e] → C identity group := by
    intro e he hmem
    rcases List.mem_append.mp hmem with hmem | hmem
    · exact hn.told identity leaderName group hmem
    · exact he (List.mem_singleton.mp hmem)
  cases h with
  | tell e hX he => exact hone e (fun h => by subst h; cases he) hmem
  | alone name hname hcontest =>
    refine hone _ (fun h => ?_) hmem
    obtain ⟨rfl, -, rfl⟩ := Event.leader.inj h
    exact hn.contests _ hcontest
  | elect msg leaderName hmsg hid hname =>
    refine hone _ (fun h => ?_) hmem
    obtain ⟨rfl, -, rfl⟩ := Event.leader.inj h
    exact (hhears msg hmsg).2 hid
  | know hpeers hgroups hserial houtbox hmail huuid hown =>
    exact hn.told identity leaderName group (houtbox ▸ hmem)
  | _ => exact hn.told identity leaderName group hmem

/-- What a node does is vouched for if what it hears is. -/
theorem Deed.vouched (hshort : ∀ c g, C c g → c.length ≤ Msg.fieldSize ∧ g.length ≤ Msg.fieldSize)
    (hcontests : ∀ name ∈ S.contests, C n.identity name)
    (hhears : ∀ msg, S.hears msg → Vouches C msg) (h : Deed S n n') (hn : Vouched C n) :
    Vouched C n' where
  contests name hname := by
    have hidentity : n'.identity = n.identity := congrArg Uuid.str h.uuid
    rw [hidentity]
    by_cases hS : name ∈ S.contests
    · exact hcontests name hS
    · exact hn.contests name (h.contested hS ▸ hname)
  waves := h.waves hhears hn
  mail := h.vouches_mail hshort hn
  told := h.vouches_told hhears hn

theorem Deeds.vouched (hshort : ∀ c g, C c g → c.length ≤ Msg.fieldSize ∧ g.length ≤ Msg.fieldSize)
    (hcontests : ∀ name ∈ S.contests, C n.identity name)
    (hhears : ∀ msg, S.hears msg → Vouches C msg) (h : Deeds S n n') (hn : Vouched C n) :
    Vouched C n' := by
  refine (h.invariant (I := fun m => m.identity = n.identity ∧ Vouched C m) ?_ ⟨rfl, hn⟩).2
  rintro m m' hdeed ⟨hidentity, hm⟩
  refine ⟨(congrArg Uuid.str hdeed.uuid).trans hidentity, ?_⟩
  exact hdeed.vouched hshort (fun name hname => hidentity ▸ hcontests name hname) hhears hm

end Node

namespace Net

variable {net : Net} {u v : Uuid} {input : Input} {trace : List (Uuid × Input)}

/-- A node of this identity has set contest in the group. -/
def HasContested (trace : List (Uuid × Input)) (identity group : CStr) : Prop :=
  ∃ v, v.str = identity ∧ (v, .api (.setContest group)) ∈ trace

/-- The names of the groups a node contests fit the field of a message. -/
def ContestsShort (input : Input) : Prop :=
  ∀ group, input = .api (.setContest group) → group.length ≤ Msg.fieldSize

/-- What a contesting node is called, and the group, fit the fields of a message. -/
theorem Run.short (h : Run ContestsShort trace net) {c g : CStr} (hc : HasContested trace c g) :
    c.length ≤ Msg.fieldSize ∧ g.length ≤ Msg.fieldSize := by
  obtain ⟨v, rfl, hmem⟩ := hc
  have hgroup : g.length ≤ Msg.fieldSize := by
    induction h with
    | start endpoint => exact absurd hmem List.not_mem_nil
    | step u env input n' hrun hoffers hinput hstep ih =>
      rcases List.mem_append.mp hmem with hmem | hmem
      · exact ih hmem
      · exact hinput g (Prod.mk.inj (List.mem_singleton.mp hmem)).2.symm
  refine ⟨?_, hgroup⟩
  rw [Uuid.length_str]
  decide

/-- What a message of a vouched node brings is what it sent. -/
theorem vouches_recv {C : CStr → CStr → Prop} {msg : Msg} (h : Vouches C msg)
    (hshort : ∀ c g, C c g → c.length ≤ Msg.fieldSize ∧ g.length ≤ Msg.fieldSize) (identity : Frame) :
    Vouches C (Msg.recv (identity :: msg.frames)).msg := by
  have hid := id_recv msg identity
  refine ⟨fun helect => ?_, fun hleader => ?_⟩
  · rw [hid] at helect
    have hC := h.1 helect
    obtain ⟨hchallenger, hgroup⟩ := hshort _ _ hC
    obtain ⟨hg, hc⟩ := elect_recv helect (Nat.lt_succ_of_le hgroup) (Nat.lt_succ_of_le hchallenger) identity
    rwa [hg, hc]
  · rw [hid] at hleader
    have hC := h.2 hleader
    obtain ⟨hleaderId, hgroup⟩ := hshort _ _ hC
    obtain ⟨hg, hc⟩ := leader_recv hleader (Nat.lt_succ_of_le hgroup) (Nat.lt_succ_of_le hleaderId) identity
    rwa [hg, hc]

theorem vouched_of_run (h : Run ContestsShort trace net) (u : Uuid) :
    (net u).Vouched (HasContested trace) := by
  induction h generalizing u with
  | start endpoint => exact Node.vouched_new u (endpoint u)
  | @step trace net w env input n' hrun hoffers hinput hstep ih =>
    have hmono : ∀ c g, HasContested trace c g → HasContested (trace ++ [(w, input)]) c g :=
      fun c g ⟨v, hv, hmem⟩ => ⟨v, hv, List.mem_append_left _ hmem⟩
    rcases eq_or_ne u w with rfl | hne
    swap
    · rw [Function.update_of_ne hne]
      exact (ih u).mono hmono
    rw [Function.update_self]
    have hshort : ∀ c g, HasContested (trace ++ [(u, input)]) c g →
        c.length ≤ Msg.fieldSize ∧ g.length ≤ Msg.fieldSize :=
      fun c g => (Run.step u env input n' hrun hoffers hinput hstep).short
    have hcontests : ∀ name ∈ (Node.inputScope Set.univ (net u) input).contests,
        HasContested (trace ++ [(u, input)]) (net u).identity name := by
      intro name hname
      obtain rfl := Node.contests_inputScope hname
      refine ⟨u, ?_, by simp⟩
      rw [Node.identity, hrun.uuid]
    have hhears : ∀ msg, (Node.inputScope Set.univ (net u) input).hears msg →
        Vouches (HasContested (trace ++ [(u, input)])) msg := by
      intro msg hmsg
      obtain ⟨frames, rfl, rfl⟩ := Node.hears_inputScope hmsg
      obtain ⟨v, sent, ⟨r, hsent, -⟩, rfl⟩ := hoffers.sent
      exact vouches_recv (((ih v).mono hmono).mail _ hsent) hshort _
    exact Node.Deeds.vouched hshort hcontests hhears hstep.deeds ((ih u).mono hmono)

/-- **Leaders have contested.** Whoever any node tells is the leader of a group has set contest in it, over
any number of nodes and any delay, loss and repetition of messages. A challenge is made only by a node that
contests the group (`Deeds`), and what is passed on of it is what was received. -/
theorem contested_of_leader (h : Run ContestsShort trace net) {leader leaderName group : CStr}
    (htold : .leader leader leaderName group ∈ (net u).outbox) : HasContested trace leader group :=
  (vouched_of_run h u).told leader leaderName group htold

/-- A node that contests a group, and a peer in it that says HELLO to the node. -/
def sampleNet : Net :=
  let u := Node.sampleUuid 0
  let v := Node.sampleUuid 1
  let env := Node.sampleEnv 0
  ((((Net.after (fun u => Node.new u (Node.sampleEndpoint 'n')) u env (.api (.join Node.sampleGroup))).after
    u env (.api (.setContest Node.sampleGroup))).after
    v env (.api (.setEndpoint (some (Node.sampleEndpoint 'p'))))).after
    v env (.api (.join Node.sampleGroup))).after
    v env (.api (.requirePeer u (Node.sampleEndpoint 'n') none))

/-- The HELLO is handled, and the peer expires. -/
def deserted : Net :=
  (sampleNet.after (Node.sampleUuid 0) (Node.sampleEnv 0)
    (.inbox ((1 :: (Node.sampleUuid 1).data) :: (sampleNet.firstMail (Node.sampleUuid 1)).2.frames))).after
    (Node.sampleUuid 0) (Node.sampleEnv 100000) (.reap [(Node.sampleUuid 1).str])

theorem run_deserted : ∃ trace, Run ContestsShort trace deserted := by
  have hother : ∀ input, (∀ group, input ≠ .api (.setContest group)) → ContestsShort input :=
    fun input h group hinput => absurd hinput (h group)
  have hshort : ContestsShort (.api (.setContest Node.sampleGroup)) := by
    intro group h
    obtain rfl := Command.setContest.inj (Input.api.inj h)
    decide
  have hsample : ∃ trace, Run ContestsShort trace sampleNet :=
    ⟨_, (((((Run.start _).after _ (.api (.join _)) (hother _ fun _ h => by cases h)).after _ (.api _)
      hshort).after _ (.api (.setEndpoint _)) (hother _ fun _ h => by cases h)).after _ (.api (.join _))
      (hother _ fun _ h => by cases h)).after _ (.api (.requirePeer _ _ _)) (hother _ fun _ h => by cases h)⟩
  obtain ⟨trace, hrun⟩ := hsample
  have hheard := hrun.after (Node.sampleEnv 0) (Offers.first (u := Node.sampleUuid 0)
    (v := Node.sampleUuid 1) (by decide +kernel) (by decide +kernel)) (hother _ fun _ h => by cases h)
  exact ⟨_, hheard.after _ (.reap _) (hother _ fun _ h => by cases h)⟩

/-- The node is alone in the group and tells that it leads: it has set contest. -/
theorem contested_deserted : ∃ trace, Run ContestsShort trace deserted ∧
    HasContested trace (Node.sampleUuid 0).str Node.sampleGroup := by
  obtain ⟨trace, hrun⟩ := run_deserted
  have htold : Event.leader (Node.sampleUuid 0).str ((Node.sampleUuid 0).str.truncate 6)
      Node.sampleGroup ∈ (deserted (Node.sampleUuid 0)).outbox := by decide +kernel
  exact ⟨trace, hrun, contested_of_leader hrun htold⟩

end Net

end Zyre
