import Mathlib.Order.WithBot
import Zyre.Node.Handling

/-!
# The life of an election

An election object is made by JOIN, LEAVE, HELLO and removals with the node's own challenge, or by the
first ELECT or LEADER of its group, and lives until one of these replaces it or its last LEADER ends it.
While it lives only ELECT and LEADER of its group touch it: each takes one `Turn`. So its wave goes down
in the order of `strcmp` (`wave_le_of_life`), and a wave that is not the node's own comes with a father.

`Renews` is what every other input does to the elections, and `Polled` what an ELECT or LEADER does.
-/

namespace Zyre

namespace Election

variable {self r : CStr} {e e' : Election}

/-- The wave, in the order it goes down in: no wave is above every other. -/
def wave (e : Election) : WithTop CStr := e.caw

/-- What an ELECT or LEADER makes of a standing election. A superior challenger takes it over, and is
counted by the same message. -/
inductive Turn (e : Election) : Election → Prop
  | stay : Turn e e
  | count : Turn e e.incrementErec
  | hear (leader : CStr) : Turn e (e.incrementLrec.setLeader leader)
  | follow (r : CStr) (father : PeerRef) (hr : e.challengerSuperior r = true) :
      Turn e ((e.reset.setCaw r).setFather father)
  | support (r : CStr) (father : PeerRef) (hr : e.challengerSuperior r = true) :
      Turn e ((e.reset.setCaw r).setFather father).incrementErec

/-- The wave has given way to a smaller one. Both counters went to zero, and then the message that
brought the new wave may have been counted. -/
def Yields (e e' : Election) : Prop :=
  ∃ r e₁, (∀ caw, e.caw = some caw → r < caw) ∧ e₁.caw = some r ∧ e₁.erec = 0 ∧ e₁.lrec = 0 ∧
    (e' = e₁ ∨ e' = e₁.incrementErec)

/-- A challenger is superior if it is below the one the election supports, if there is one. -/
theorem challengerSuperior_iff :
    e.challengerSuperior r = true ↔ ∀ caw, e.caw = some caw → r < caw := by
  rw [challengerSuperior]
  cases e.caw with
  | none => simp
  | some caw => simp

/-- The wave goes down when a challenger is supported that is below the one before, or the first one. -/
theorem wave_lt_iff : e'.wave < e.wave ↔ ∃ r, e'.caw = some r ∧ ∀ caw, e.caw = some caw → r < caw :=
  WithTop.lt_iff_exists

theorem Yields.wave_lt (h : e.Yields e') : e'.wave < e.wave := by
  obtain ⟨r, e₁, hr, hcaw, -, -, rfl | rfl⟩ := h
  · exact wave_lt_iff.mpr ⟨r, hcaw, hr⟩
  · exact wave_lt_iff.mpr ⟨r, hcaw, hr⟩

/-- One ELECT or LEADER keeps the challenger, or gives way to a smaller one. -/
theorem Turn.yields (h : e.Turn e') : e'.caw = e.caw ∨ e.Yields e' := by
  cases h with
  | stay => exact Or.inl rfl
  | count => exact Or.inl rfl
  | hear leader => exact Or.inl rfl
  | follow r father hr =>
    exact Or.inr ⟨r, _, challengerSuperior_iff.mp hr, rfl, rfl, rfl, Or.inl rfl⟩
  | support r father hr =>
    exact Or.inr ⟨r, _, challengerSuperior_iff.mp hr, rfl, rfl, rfl, Or.inr rfl⟩

/-- The wave never goes up within the life of an election. -/
theorem Turn.wave_le (h : e.Turn e') : e'.wave ≤ e.wave := by
  rcases h.yields with h | h
  · exact le_of_eq h
  · exact h.wave_lt.le

/-- A wave that is taken over comes with a father. -/
theorem Turn.fathered (h : e.Turn e') (he : e.Fathered self) : e'.Fathered self := by
  cases h with
  | stay => exact he
  | count => exact he
  | hear leader => exact he
  | follow r father hr => exact fun _ _ _ => rfl
  | support r father hr => exact fun _ _ _ => rfl

theorem fathered_new : new.Fathered self := nofun

/-- The wave is unset, the node's own, or has a father. -/
theorem fathered_iff : e.Fathered self ↔ e.caw = none ∨ e.caw = some self ∨ e.father.isSome := by
  rw [Fathered]
  cases e.caw with
  | none => simp
  | some caw => simp [or_iff_not_imp_left]

end Election

namespace Node

variable {n n' n₁ n₂ : Node} {X name : CStr} {r : PeerRef} {p : Peer} {msg : Msg} {env : Env} {uuid : Uuid}
  {endpoint : CStr} {key : Option CStr} {input : Input} {e e' : Election} {P Q : Election → Prop}

/-- `zyre_group_election` of the group called `name`, if the node has that group. -/
def groupElection (n : Node) (name : CStr) : Option Election :=
  (n.peerGroups.lookup name).bind (·.election)

/-- The election of a group after a change to one group. -/
theorem groupElection_modify {f : Group → Group} :
    groupElection { n with peerGroups := n.peerGroups.modify name f } X =
      if X = name then (n.peerGroups.lookup name).bind fun g => (f g).election
      else n.groupElection X := by
  simp only [groupElection, AList.lookup_modify]
  split_ifs with h
  · subst h
    cases n.peerGroups.lookup X <;> rfl
  · rfl

/-- A group that has just been made has no election. -/
theorem groupElection_insertNew :
    groupElection { n with peerGroups := n.peerGroups.insertNew name .new } = n.groupElection := by
  funext X
  simp only [groupElection, AList.lookup_insertNew]
  split_ifs with h
  · subst h
    cases n.peerGroups.lookup X <;> rfl
  · rfl

/-- A group that is not known has no election. -/
theorem election_getGroup : ((n.peerGroups.lookup name).getD .new).election = n.groupElection name := by
  rw [groupElection]
  cases n.peerGroups.lookup name <;> rfl

/-- An election that is there is the one an ELECT or LEADER goes on with. -/
theorem electionOf_of_some (h : n.groupElection name = some e) : n.electionOf name = e := by
  rw [electionOf, election_getGroup, h, Option.getD_some]

/-- No election is an orphan if each is fathered. -/
theorem not_orphan_iff_groupElection :
    ¬n.Orphan ↔ ∀ name e, n.groupElection name = some e → e.Fathered n.identity := by
  refine not_orphan_iff.trans ⟨fun h name e he => ?_, fun h name g e hg he => ?_⟩
  · obtain ⟨g, hg, he⟩ := Option.bind_eq_some_iff.mp he
    exact h name g e hg he
  · exact h name e (by rw [groupElection, hg]; exact he)

/-! ### Programs that leave the groups alone -/

/-- The groups are as they were. -/
def SameGroups (n n' : Node) : Prop := n'.peerGroups = n.peerGroups ∧ n'.uuid = n.uuid

instance : Std.Refl SameGroups := ⟨fun _ => ⟨rfl, rfl⟩⟩

instance : IsTrans Node SameGroups := ⟨fun _ _ _ h h' => ⟨h'.1.trans h.1, h'.2.trans h.2⟩⟩

/-- What is done to a peer leaves the groups alone, and so does what is sent. -/
theorem modifyPeer_sameGroups {f : Peer → Peer} : (modifyPeer r f).Leads SameGroups n :=
  wp_modifyPeer.mpr ⟨fun _ _ => ⟨rfl, rfl⟩, fun _ => ⟨⟨rfl, rfl⟩, trivial⟩⟩

theorem peerSend_sameGroups : (peerSend r msg).Leads SameGroups n :=
  wp_peerSend.mpr ⟨fun _ _ _ => ⟨rfl, rfl⟩, fun _ _ _ => ⟨rfl, rfl⟩, fun _ => ⟨⟨rfl, rfl⟩, trivial⟩⟩

theorem groupSend_sameGroups : (groupSend name msg).Leads SameGroups n :=
  keeps_getGroup (.forM fun _ _ _ _ => peerSend_sameGroups)

theorem sendPeers_sameGroups : (sendPeers msg).Leads SameGroups n :=
  .get (.forM fun _ _ _ _ => peerSend_sameGroups)

/-- Discovery touches the peers only. -/
theorem requirePeer_sameGroups : (requirePeer env uuid endpoint key).Leads SameGroups n := by
  cases hnew : n.peers.lookup uuid.str with
  | some p => exact (wp_requirePeer_of_some hnew).mpr ⟨rfl, rfl⟩
  | none =>
    by_cases hkey : KeyOk env n key
    · rw [EStateM.Leads, EStateM.Keeps, wp_requirePeer_of_none hnew hkey]
      split_ifs <;> exact ⟨rfl, rfl⟩
    · exact wp_requirePeer_of_not_keyOk hnew hkey fun _ _ _ _ => ⟨⟨rfl, rfl⟩, trivial⟩

/-- Building the message reads the election; an assertion may fail. -/
theorem buildElectMsg_sameGroups : (buildElectMsg e name).Leads SameGroups n := by
  rw [buildElectMsg]
  cases e.caw with
  | none => exact EStateM.Keeps.throw _ trivial
  | some caw => exact .pure _

theorem buildLeaderMsg_sameGroups : (buildLeaderMsg e name).Leads SameGroups n := by
  rw [buildLeaderMsg]
  cases e.caw with
  | none => exact EStateM.Keeps.throw _ trivial
  | some caw => exact .pure _

/-! ### ELECT and LEADER -/

/-- Of the elections only the one of `X` has changed, and what is there now satisfies `P`. -/
structure Polled (X : CStr) (P : Election → Prop) (n n' : Node) : Prop where
  identity : n'.identity = n.identity
  elsewhere : ∀ name, name ≠ X → n'.groupElection name = n.groupElection name
  here : ∀ e, n'.groupElection X = some e → P e

/-- Less may be said of the election that is left. -/
theorem Polled.mono (h : Polled X P n n') (hPQ : ∀ e, P e → Q e) : Polled X Q n n' :=
  ⟨h.identity, h.elsewhere, fun e he => hPQ e (h.here e he)⟩

/-- Only the last of two changes to one election counts. -/
theorem Polled.trans (h : Polled X P n n₁) (h' : Polled X Q n₁ n₂) : Polled X Q n n₂ where
  identity := h'.identity.trans h.identity
  elsewhere name hname := (h'.elsewhere name hname).trans (h.elsewhere name hname)
  here := h'.here

/-- An election that is not touched is left as it is. -/
theorem SameGroups.polled (h : SameGroups n n') : Polled X (n.groupElection X = some ·) n n' where
  identity := congrArg Uuid.str h.2
  elsewhere name _ := by rw [groupElection, h.1, groupElection]
  here e he := by rwa [groupElection, h.1] at he

/-- Setting the election of a group is all that happens to the elections. -/
theorem polled_setElection {election : Option Election} : Polled X (election = some ·) n
    { n with peerGroups := n.peerGroups.modify X fun g => { g with election := election } } where
  identity := rfl
  elsewhere name hname := by rw [groupElection_modify, if_neg hname]
  here e he := by
    rw [groupElection_modify, if_pos rfl] at he
    obtain ⟨_, _, he⟩ := Option.bind_eq_some_iff.mp he
    exact he

/-- A first program after which the election has `Q`, and a second from any such state. -/
theorem polled_bind {α β : Type} {x : NodeM β} {f : β → NodeM α} (hx : x.Leads (Polled X Q) n)
    (hQP : ∀ e, Q e → P e) (hf : ∀ b n₁, Polled X Q n n₁ → (f b).Leads (Polled X P) n₁) :
    (x >>= f).Leads (Polled X P) n := by
  refine EStateM.wp_bind .. |>.mpr (EStateM.wp_mono hx (fun b n₁ hn₁ => ?_)
    fun _ _ h => ⟨h.1.mono hQP, trivial⟩)
  exact EStateM.wp_mono (hf b n₁ hn₁) (fun _ _ h => hn₁.trans h) fun _ _ h => ⟨hn₁.trans h.1, trivial⟩

/-- The same groups have the same elections. -/
theorem SameGroups.groupElection_eq (h : SameGroups n n') : n'.groupElection = n.groupElection := by
  funext name
  rw [groupElection, h.1, groupElection]

/-- A first program that leaves the groups alone. -/
theorem polled_bind_sameGroups {α β : Type} {x : NodeM β} {f : β → NodeM α} (hx : x.Leads SameGroups n)
    (hP : ∀ e, n.groupElection X = some e → P e)
    (hf : ∀ b n₁, SameGroups n n₁ → (f b).Leads (Polled X P) n₁) : (x >>= f).Leads (Polled X P) n := by
  refine EStateM.wp_bind .. |>.mpr (EStateM.wp_mono hx (fun b n₁ hn₁ => ?_)
    fun _ _ h => ⟨h.1.polled.mono hP, trivial⟩)
  exact EStateM.wp_mono (hf b n₁ hn₁) (fun _ _ h => hn₁.polled.trans h)
    fun _ _ h => ⟨hn₁.polled.trans h.1, trivial⟩

/-- The election is set, and then only messages are sent. -/
theorem setElection_polled {f : Unit → NodeM Unit} (h : ∀ n₁, (f ⟨⟩).Leads SameGroups n₁) :
    (setElection X (some e) >>= f).Leads (Polled X (· = e)) n := by
  refine polled_bind (Q := (some e = some ·)) polled_setElection (fun e' he => (Option.some_inj.mp he).symm)
    fun _ n₁ hn₁ => (h n₁).mono fun n₂ h₂ => h₂.polled.mono fun e' he => ?_
  exact (Option.some_inj.mp (hn₁.here e' he)).symm

/-- Following a challenger begins a new election, of which the sender is the father. -/
theorem followChallenger_polled : (followChallenger r msg).Leads
    (Polled msg.group (· = (Election.new.setCaw msg.challengerId).setFather r)) n := by
  refine setElection_polled fun n₁ => .bind buildElectMsg_sameGroups fun m _ _ => keeps_getGroup ?_
  refine .forM fun Y _ n₂ _ => .ite (fun _ => keeps_lookupPeer ?_) fun _ => .pure _
  cases n₂.peers.lookup Y with
  | none => exact .throw _ trivial
  | some p => exact peerSend_sameGroups

/-- Supporting the challenger counts one more ELECT. -/
theorem supportChallenger_polled :
    (supportChallenger msg e).Leads (Polled msg.group (· = e.incrementErec)) n := by
  refine setElection_polled fun n₁ => keeps_getGroup (.ite (fun _ => .get ?_) fun _ => .pure _)
  refine .ite (fun _ => .bind buildLeaderMsg_sameGroups fun m _ _ => groupSend_sameGroups)
    fun _ => .bind buildElectMsg_sameGroups fun m _ _ => ?_
  cases e.incrementErec.father with
  | none => exact .throw _ trivial
  | some father => exact peerSend_sameGroups

/-- The group and its election are there once they are required. -/
theorem requireElection_polled {x : NodeM Unit} (hP : P (n.electionOf X))
    (h : ∀ n₁, n₁.groupElection X = some (n.electionOf X) → x.Leads (Polled X P) n₁) :
    (do requirePeerGroup X; modifyGroup X (·.requireElection); x : NodeM Unit).Leads (Polled X P) n := by
  set n₀ : Node := { n with peerGroups := n.peerGroups.insertNew X .new } with hn₀
  set n₁ : Node := { n₀ with peerGroups := n₀.peerGroups.modify X (·.requireElection) } with hn₁
  have hsame : n₀.groupElection = n.groupElection := groupElection_insertNew
  have hhere : n₁.groupElection X = some (n.electionOf X) := by
    rw [hn₁, groupElection_modify, if_pos rfl, hn₀, lookup_insertNew_self, Option.bind_some,
      Group.requireElection]
    rfl
  have hpolled : Polled X P n n₁ := by
    refine ⟨rfl, fun name hname => ?_, fun e he => ?_⟩
    · rw [hn₁, groupElection_modify, if_neg hname, hsame]
    · obtain rfl := Option.some_inj.mp (hhere.symm.trans he)
      exact hP
  simp only [EStateM.Leads, EStateM.Keeps, EStateM.wp_bind, wp_requirePeerGroup, wp_modifyGroup]
  exact EStateM.wp_mono (h n₁ hhere) (fun _ _ h => hpolled.trans h)
    fun _ _ h => ⟨hpolled.trans h.1, trivial⟩

/-- ELECT takes a turn of the election, which may be the first. -/
theorem recvElect_polled :
    (recvElect r msg).Leads (Polled msg.group (n.electionOf msg.group).Turn) n := by
  set e := n.electionOf msg.group
  -- The second half counts the message, if the wave is that of the challenger.
  have hrest : ∀ n₂ : Node,
      (∀ e', n₂.groupElection msg.group = some e' → e.Turn e' ∧ e.Turn e'.incrementErec) →
      EStateM.Leads (Polled msg.group e.Turn) (do
        let election := (← getGroup msg.group).election.getD .new
        assert election.caw.isSome
        if election.caw = some msg.challengerId then supportChallenger msg election) n₂ := by
    intro n₂ hn₂
    have hself : Polled msg.group e.Turn n₂ n₂ := ⟨rfl, fun _ _ => rfl, fun e' he' => (hn₂ e' he').1⟩
    refine keeps_getGroup ?_
    rw [election_getGroup]
    refine EStateM.wp_bind .. |>.mpr (wp_assert.mpr ⟨fun hcaw => ?_, fun _ => ⟨hself, trivial⟩⟩)
    refine EStateM.wp_ite .. |>.mpr ⟨fun _ => ?_, fun _ => hself⟩
    cases he' : n₂.groupElection msg.group with
    | none => rw [he'] at hcaw; cases hcaw
    | some e' =>
      refine supportChallenger_polled.mono fun _ h => h.mono ?_
      rintro _ rfl
      exact (hn₂ e' he').2
  refine requireElection_polled .stay fun n₁ hn₁ => keeps_getGroup ?_
  rw [election_getGroup, hn₁, Option.getD_some]
  refine EStateM.Keeps.ite (fun hsup => ?_) fun _ => ?_
  · refine polled_bind followChallenger_polled ?_ fun _ n₂ hn₂ => hrest n₂ fun e' he' => ?_
    · rintro _ rfl
      exact .follow _ r hsup
    · obtain rfl := hn₂.here e' he'
      exact ⟨.follow _ r hsup, .support _ r hsup⟩
  · refine .pure_bind (hrest n₁ fun e' he' => ?_)
    obtain rfl := Option.some_inj.mp (hn₁.symm.trans he')
    exact ⟨.stay, .count⟩

/-- The end of an election: it stays as it is, or is gone. -/
theorem finishElection_polled :
    (finishElection msg e).Leads (Polled msg.group (n.groupElection msg.group = some ·)) n := by
  have hself : ∀ n : Node, Polled msg.group (n.groupElection msg.group = some ·) n n :=
    fun n => ⟨rfl, fun _ _ => rfl, fun _ h => h⟩
  have hclear : ∀ n : Node, (setElection msg.group none).Leads (Polled msg.group fun _ => False) n :=
    fun n => polled_setElection.mono fun _ => nofun
  -- The leader is told, and the election is cleared.
  have htell : ∀ (n : Node) (event : Event), EStateM.Leads
      (Polled msg.group (n.groupElection msg.group = some ·))
      (do emit event; setElection msg.group none) n := by
    intro n event
    refine polled_bind (Q := (n.groupElection msg.group = some ·)) ?_ (fun _ h => h) fun _ n₁ _ => ?_
    · have hsame : SameGroups n { n with outbox := n.outbox ++ [event] } := ⟨rfl, rfl⟩
      exact hsame.polled
    · exact (hclear n₁).mono fun _ h => h.mono fun _ => False.elim
  refine keeps_getGroup (EStateM.wp_ite .. |>.mpr ⟨fun _ => ?_, fun _ => hself n⟩)
  refine EStateM.Keeps.get (.ite (fun _ => htell n _) fun _ => keeps_lookupPeer ?_)
  cases n.peers.lookup msg.leaderId with
  | none => exact (hclear n).mono fun _ h => h.mono fun _ => False.elim
  | some p =>
    set n₁ : Node := { n with peerGroups := n.peerGroups.modify msg.group fun g =>
      { g with leader := some ⟨msg.leaderId, p.serial⟩ } } with hn₁
    have hsame : n₁.groupElection = n.groupElection := by
      funext X
      rw [hn₁, groupElection_modify]
      split_ifs with h
      · rw [h, groupElection]
      · rfl
    have hpolled : Polled msg.group (n.groupElection msg.group = some ·) n n₁ :=
      ⟨rfl, fun _ _ => by rw [hsame], fun _ h => by rwa [hsame] at h⟩
    refine polled_bind hpolled (fun _ h => h) fun _ n₂ hn₂ => ?_
    refine EStateM.wp_bind .. |>.mpr (wp_readPeer.mpr ⟨fun q _ => ?_, fun _ => ⟨?_, trivial⟩⟩)
    · exact (htell n₂ _).mono fun _ h => h.mono fun e he => hn₂.here e he
    · exact ⟨rfl, fun _ _ => rfl, hn₂.here⟩

/-- LEADER takes a turn of the election, unless it ends it. -/
theorem recvLeader_polled :
    (recvLeader msg).Leads (Polled msg.group (n.electionOf msg.group).Turn) n := by
  set e := n.electionOf msg.group
  refine requireElection_polled .stay fun n₁ hn₁ => keeps_getGroup ?_
  rw [election_getGroup, hn₁, Option.getD_some]
  have hstay : ∀ e', n₁.groupElection msg.group = some e' → e.Turn e' := fun e' he' => by
    obtain rfl := Option.some_inj.mp (hn₁.symm.trans he')
    exact .stay
  refine EStateM.wp_ite .. |>.mpr ⟨fun _ => ?_, fun _ => ⟨rfl, fun _ _ => rfl, hstay⟩⟩
  have hrest : ∀ n₂ : Node, EStateM.Leads (Polled msg.group e.Turn) (do
      setElection msg.group (some (e.incrementLrec.setLeader msg.leaderId))
      finishElection msg (e.incrementLrec.setLeader msg.leaderId)) n₂ := by
    intro n₂
    have hhear : ∀ e', some (e.incrementLrec.setLeader msg.leaderId) = some e' → e.Turn e' := by
      rintro _ ⟨⟩
      exact .hear _
    refine polled_bind polled_setElection hhear fun _ n₃ hn₃ => ?_
    exact finishElection_polled.mono fun _ h => h.mono fun e' he' => hhear e' (hn₃.here e' he')
  refine EStateM.Keeps.get (EStateM.Keeps.ite (fun _ => ?_) fun _ => .pure_bind (hrest n₁))
  refine polled_bind_sameGroups buildLeaderMsg_sameGroups hstay fun m n₂ hn₂ => ?_
  refine polled_bind_sameGroups groupSend_sameGroups (fun e' he' => ?_) fun _ n₃ _ => hrest n₃
  exact hstay e' (hn₂.groupElection_eq ▸ he')

/-! ### Every other input -/

/-- Every election is as it was, is gone, or has been made with the node's own challenge. -/
structure Renews (n n' : Node) : Prop where
  identity : n'.identity = n.identity
  election : ∀ name, n'.groupElection name = n.groupElection name ∨ n'.groupElection name = none ∨
    n'.groupElection name = some (Election.new.setCaw n.identity)

/-- Where no election changes, nothing is renewed. -/
theorem Renews.of_eq (hid : n'.identity = n.identity) (h : n'.groupElection = n.groupElection) :
    Renews n n' := ⟨hid, fun name => Or.inl (congrFun h name)⟩

instance : Std.Refl Renews := ⟨fun _ => .of_eq rfl rfl⟩

instance : IsTrans Node Renews where
  trans n n₁ n₂ h h' := by
    refine ⟨h'.identity.trans h.identity, fun name => ?_⟩
    rcases h'.election name with h'' | h'' | h''
    · exact h'' ▸ h.election name
    · exact Or.inr (Or.inl h'')
    · exact Or.inr (Or.inr (h.identity ▸ h''))

/-- The same groups have the same elections. -/
theorem SameGroups.renews (h : SameGroups n n') : Renews n n' :=
  .of_eq (congrArg Uuid.str h.2) h.groupElection_eq

/-- A program that leaves the groups alone. -/
theorem renews_of_sameGroups {α : Type} {x : NodeM α} (h : x.Leads SameGroups n) : x.Leads Renews n :=
  h.mono fun _ h => h.renews

/-- Events leave the elections alone. -/
theorem emit_renews {event : Event} : (emit event).Leads Renews n :=
  SameGroups.renews ⟨rfl, rfl⟩

/-- So does a change to the node outside its groups. -/
theorem modify_renews {f : Node → Node} (h : SameGroups n (f n)) :
    (modify f : NodeM Unit).Leads Renews n := h.renews

theorem modifyPeer_renews {f : Peer → Peer} : (modifyPeer r f).Leads Renews n :=
  renews_of_sameGroups modifyPeer_sameGroups

theorem readPeer_renews {α : Type} {f : Peer → NodeM α} (h : ∀ p, n.deref r = some p → (f p).Leads Renews n) :
    (readPeer r >>= f).Leads Renews n :=
  keeps_readPeer h fun _ => trivial

theorem assert_renews {α : Type} {c : Bool} {f : Unit → NodeM α} (h : (f ⟨⟩).Leads Renews n) :
    (assert c >>= f).Leads Renews n :=
  keeps_assert (fun _ => h) fun _ => trivial

/-- A group that is made has no election. -/
theorem requirePeerGroup_renews : (requirePeerGroup name).Leads Renews n :=
  Renews.of_eq rfl groupElection_insertNew

/-- A change of a group that is not about its election. -/
theorem modifyGroup_renews {f : Group → Group} (hf : ∀ g, (f g).election = g.election) :
    (modifyGroup name f).Leads Renews n := by
  refine Renews.of_eq rfl ?_
  funext X
  simp only [groupElection_modify, hf]
  split_ifs with h
  · rw [h, groupElection]
  · rfl

/-- An election may be set to none, or to a new one with the node's own challenge. -/
theorem setElection_renews {election : Option Election}
    (h : ∀ e, election = some e → e = Election.new.setCaw n.identity) :
    (setElection name election).Leads Renews n := by
  have hpolled : Polled name (election = some ·) n
    { n with peerGroups := n.peerGroups.modify name fun g => { g with election := election } } :=
    polled_setElection
  refine ⟨rfl, fun X => ?_⟩
  by_cases hX : X = name
  · subst hX
    cases he : groupElection { n with
        peerGroups := n.peerGroups.modify X fun g => { g with election := election } } X with
    | none => exact Or.inr (Or.inl rfl)
    | some e => exact Or.inr (Or.inr (congrArg some (h e (hpolled.here e he))))
  · exact Or.inl (hpolled.elsewhere X hX)

/-- An election that is started is a new one with the node's own challenge. -/
theorem startElection_renews : (startElection name).Leads Renews n := by
  refine .get (.bind (setElection_renews fun e he => (Option.some_inj.mp he).symm) fun _ n₁ _ =>
    .bind (modifyGroup_renews fun _ => rfl) fun _ n₂ _ => ?_)
  exact .pure_bind (renews_of_sameGroups groupSend_sameGroups)

/-- A node that leads alone ends the election. -/
theorem leadAlone_renews : (leadAlone name).Leads Renews n :=
  .bind (modifyGroup_renews fun _ => rfl) fun _ _ _ => .get (.get emit_renews)

/-- The block that settles the election of a group somebody left. -/
theorem settle_renews {c : Prop} [Decidable c] :
    (do setElection name none
        if c then leadAlone name else startElection name : NodeM Unit).Leads Renews n :=
  .bind (setElection_renews nofun) fun _ _ _ => .ite (fun _ => leadAlone_renews) fun _ => startElection_renews

/-- The removal of a peer ends the election of a group, or starts it anew. -/
theorem leaveElection_renews : (leaveElection r name).Leads Renews n := by
  have hgroup : Renews n { n with peerGroups := n.peerGroups.insertNew name .new } :=
    .of_eq rfl groupElection_insertNew
  refine leaveElection_wp rfl rfl (fun _ => ?_) (fun _ => hgroup) fun _ => ⟨hgroup, trivial⟩
  exact EStateM.Keeps.after hgroup settle_renews

theorem groupLeave_renews : (groupLeave name r).Leads Renews n :=
  .bind (modifyGroup_renews fun _ => rfl) fun _ _ _ => modifyPeer_renews

/-- It does so for every own group, and leaves the other ones alone. -/
theorem removePeer_renews : (removePeer r).Leads Renews n := by
  refine readPeer_renews fun p _ => .bind emit_renews fun _ n₁ _ => .get ?_
  refine .bind (.forM fun _ _ _ _ => leaveElection_renews) fun _ n₂ _ => .get ?_
  refine .bind (.forM fun _ _ _ _ => groupLeave_renews) fun _ n₃ _ => ?_
  exact modify_renews ⟨rfl, rfl⟩

/-- A peer that joins lets the node start an election if it contests the group. -/
theorem joinPeerGroup_renews : (joinPeerGroup r name).Leads Renews n := by
  refine .bind requirePeerGroup_renews fun _ n₁ _ => .bind ?_ fun _ n₂ _ => readPeer_renews fun _ _ => emit_renews
  exact .bind (modifyGroup_renews fun _ => rfl) fun _ _ _ => modifyPeer_renews

/-- A peer that leaves is taken out of the members. -/
theorem leavePeerGroup_renews : (leavePeerGroup r name).Leads Renews n :=
  .bind requirePeerGroup_renews fun _ _ _ => .bind groupLeave_renews fun _ _ _ =>
    readPeer_renews fun _ _ => emit_renews

theorem requirePeer_renews : (requirePeer env uuid endpoint key).Leads Renews n :=
  renews_of_sameGroups requirePeer_sameGroups

/-- An entry that is taken up leaves the elections alone. -/
theorem helloAdmit_renews : (helloAdmit env uuid msg).Leads Renews n := by
  have hself : Renews n n := Std.Refl.refl n
  have hrequire : (helloRequire env uuid msg).Leads Renews n :=
    wp_helloRequire (fun _ => renews_of_sameGroups requirePeer_sameGroups) hself ⟨hself, trivial⟩ ⟨hself, trivial⟩
  refine .bind hrequire fun o n₁ _ => ?_
  cases o with
  | none => exact .pure _
  | some r => exact .bind modifyPeer_renews fun _ _ _ => .pure _

/-- The gate may remove the entry that was there. -/
theorem helloGate_renews : (helloGate env uuid msg).Leads Renews n := by
  refine keeps_lookupPeer ?_
  cases n.peers.lookup uuid.str with
  | none => exact helloAdmit_renews
  | some p =>
    refine readPeer_renews fun q _ => .ite (fun _ => ?_) fun _ => .get (.ite (fun _ => .pure _)
      fun _ => helloAdmit_renews)
    exact .bind removePeer_renews fun _ n₁ _ => keeps_lookupPeer (assert_renews helloAdmit_renews)

/-- HELLO joins the groups it lists. -/
theorem recvHello_renews : (recvHello r msg).Leads Renews n := by
  refine .bind modifyPeer_renews fun _ n₁ _ => .bind emit_renews fun _ n₂ _ => ?_
  cases msg.groups with
  | none => exact .throw _ trivial
  | some groups =>
    refine .bind (.forM fun name _ n₃ _ => ?_) fun _ n₃ _ => modifyPeer_renews
    refine .bind joinPeerGroup_renews fun _ n₄ _ => keeps_getGroup ?_
    exact .ite (fun _ => startElection_renews) fun _ => .pure _

theorem recvJoin_renews : (recvJoin r msg).Leads Renews n := by
  refine .bind joinPeerGroup_renews fun _ n₁ _ => readPeer_renews fun _ _ => assert_renews (.get ?_)
  refine .ite (fun _ => keeps_getGroup ?_) fun _ => .pure _
  exact .ite (fun _ => startElection_renews) fun _ => .pure _

/-- A LEAVE of the leader ends the election, or starts it anew. -/
theorem recvLeave_renews : (recvLeave r msg).Leads Renews n := by
  refine .bind leavePeerGroup_renews fun _ n₁ _ => readPeer_renews fun _ _ => assert_renews (.get ?_)
  refine .ite (fun _ => keeps_getGroup (.ite (fun _ => ?_) fun _ => .pure _)) fun _ => .pure _
  cases ((n₁.peerGroups.lookup msg.group).getD .new).leader with
  | none => exact .pure _
  | some groupLeader =>
    exact readPeer_renews fun _ _ => .ite (fun _ => settle_renews) fun _ => .pure _

/-- Every command but ELECT and LEADER. -/
theorem dispatch_renews (hid : msg.id.elects = false) : (dispatch r msg).Leads Renews n := by
  have hdone : ∀ {x : NodeM Unit}, x.Leads Renews n → (do x; pure true : NodeM Bool).Leads Renews n :=
    fun hx => .bind hx fun _ _ _ => .pure _
  rw [dispatch]
  split
  case h_1 => exact hdone recvHello_renews
  case h_2 => exact hdone (readPeer_renews fun _ _ => emit_renews)
  case h_3 => exact hdone (readPeer_renews fun _ _ => emit_renews)
  case h_4 => exact hdone (renews_of_sameGroups peerSend_sameGroups)
  case h_5 => exact hdone recvJoin_renews
  case h_6 => exact hdone recvLeave_renews
  case h_7 h => rw [h] at hid; cases hid
  case h_8 h => rw [h] at hid; cases hid
  case h_9 => exact .get (.ite (fun _ => .bind removePeer_renews fun _ _ _ => .pure _) fun _ => .pure _)
  case h_10 => exact .pure _
  case h_11 => exact .pure _

/-- A message that is taken, other than ELECT and LEADER, or one that shows that others are lost. -/
theorem acceptMsg_renews (hp : n.deref r = some p)
    (hid : (p.messagesLost msg).1 = false → msg.id.elects = false) :
    (acceptMsg env r msg).Leads Renews n := by
  refine readPeer_renews fun q hq => .bind modifyPeer_renews fun _ n₁ _ => ?_
  obtain rfl := Option.some_inj.mp (hp.symm.trans hq)
  refine .ite (fun _ => removePeer_renews) fun hcounts => ?_
  refine .bind (dispatch_renews (hid (Bool.eq_false_iff.mpr hcounts))) fun b n₂ _ => ?_
  exact .ite (fun _ => .get modifyPeer_renews) fun _ => .pure _

/-- A message the node does not take as an ELECT or LEADER. -/
theorem recvMsg_renews (h : Takes env n uuid.str msg → msg.id.elects = false) :
    (recvMsg env uuid msg).Leads Renews n := by
  rw [recvMsg, senderGate]
  by_cases hid : msg.id = .hello
  · rw [if_pos hid]
    refine .bind helloGate_renews fun o n₁ _ => ?_
    cases o with
    | none => exact .pure _
    | some r =>
      refine readPeer_renews fun p hp => .ite (fun _ => acceptMsg_renews hp fun _ => ?_) fun _ => .pure _
      rw [hid]
      rfl
  · rw [if_neg hid]
    refine keeps_lookupPeer ?_
    cases hlook : n.peers.lookup uuid.str with
    | none => exact .pure _
    | some p =>
      refine readPeer_renews fun q hq => .ite (fun hready => ?_) fun _ => .pure _
      obtain rfl := Option.some_inj.mp ((deref_of_lookup hlook).symm.trans hq)
      refine acceptMsg_renews hq fun hcounts => h ?_
      rw [Peer.messagesLost, if_neg hid] at hcounts
      rw [Takes, if_neg hid]
      exact ⟨p, hlook, hready, not_not.mp (of_decide_eq_false hcounts)⟩

/-- Of the commands of the application only SET CONTEST touches the groups, by which one is made. -/
theorem recvApi_sameGroups {command : Command} (h : ∀ name, command ≠ .setContest name) :
    (recvApi env command).Leads SameGroups n := by
  have hmodify : ∀ {f : Node → Node} {n : Node}, SameGroups n (f n) →
      (modify f : NodeM Unit).Leads SameGroups n := fun h => h
  have hassert : ∀ {c : Bool} {x : NodeM Unit} {n : Node}, x.Leads SameGroups n →
      (do assert c; x : NodeM Unit).Leads SameGroups n := fun h => keeps_assert (fun _ => h) fun _ => trivial
  have hcheck : ∀ {c : Bool} {n : Node}, (assert c).Leads SameGroups n := fun {c n} =>
    wp_assert.mpr ⟨fun _ => ⟨rfl, rfl⟩, fun _ => ⟨⟨rfl, rfl⟩, trivial⟩⟩
  have hgossip : ∀ n : Node, gossipStart.Leads SameGroups n := by
    intro n
    refine hmodify ?_
    split_ifs
    · exact ⟨rfl, rfl⟩
    · exact ⟨rfl, rfl⟩
  cases command with
  | setName name => exact hmodify ⟨rfl, rfl⟩
  | setHeader name value => exact hmodify ⟨rfl, rfl⟩
  | setPort value => exact hmodify ⟨rfl, rfl⟩
  | setEvasiveTimeout value => exact hmodify ⟨rfl, rfl⟩
  | setExpiredTimeout value => exact hmodify ⟨rfl, rfl⟩
  | setContest group => exact absurd rfl (h group)
  | setAdvertisedEndpoint endpoint => exact hmodify ⟨rfl, rfl⟩
  | setEndpoint bound => exact .bind (hgossip n) fun _ _ _ => hmodify ⟨rfl, rfl⟩
  | setPublickey key => exact hmodify ⟨rfl, rfl⟩
  | setSecretkey key => exact hmodify ⟨rfl, rfl⟩
  | gossipBind => exact hgossip n
  | gossipConnect => exact hgossip n
  | start =>
    have hrest : EStateM.Leads SameGroups
        (if n.beaconPort ≠ 0 then do
          assert !n.beacon
          set { n with
            beaconVersion := if n.secretKey.isSome then beaconVersionV3 else n.beaconVersion
            beacon := true }
        else assert n.gossip) n :=
      .ite (fun _ => hassert ⟨rfl, rfl⟩) fun _ => hcheck
    exact .get (.ite (fun _ => hassert hrest) fun _ => hrest)
  | stop =>
    have hrest : ∀ n : Node, EStateM.Leads SameGroups
        (do
          modify fun n => { n with beacon := false }
          let n ← get
          emit (.stop n.identity n.name)) n := fun n => ⟨rfl, rfl⟩
    exact .get (.ite (fun _ => .bind sendPeers_sameGroups fun _ n₁ _ => hrest n₁) fun _ => hrest n)
  | whisper identity content =>
    refine keeps_lookupPeer ?_
    cases n.peers.lookup identity with
    | none => exact .pure _
    | some p => exact peerSend_sameGroups
  | shout group content => exact .get (.ite (fun _ => groupSend_sameGroups) fun _ => .pure _)
  | join group =>
    exact .get (.ite (fun _ => .bind (hmodify ⟨rfl, rfl⟩) fun _ n₁ _ => .get sendPeers_sameGroups)
      fun _ => .pure _)
  | leave group =>
    exact .get (.ite (fun _ => .bind (hmodify ⟨rfl, rfl⟩) fun _ n₁ _ => .get
      (.bind sendPeers_sameGroups fun _ n₂ _ => hmodify ⟨rfl, rfl⟩)) fun _ => .pure _)
  | requirePeer uuid endpoint publicKey =>
    exact .get (.ite (fun _ => .bind requirePeer_sameGroups fun _ _ _ => .pure _) fun _ => .pure _)
  | peerName identity => exact hcheck

/-- A pass removes peers, and pings them. -/
theorem pingPeer_renews : (pingPeer env r).Leads Renews n := by
  refine readPeer_renews fun p _ => .ite (fun _ => removePeer_renews) fun _ => .ite (fun _ => ?_) fun _ => .pure _
  refine .bind (renews_of_sameGroups peerSend_sameGroups) fun _ n₁ _ => .bind emit_renews fun _ n₂ _ => .get ?_
  exact .ite (fun _ => emit_renews) fun _ => .pure _

/-! ### One iteration -/

/-- The input is an ELECT or LEADER of the group that the node takes. -/
def Ballot (env : Env) (n : Node) (input : Input) (name : CStr) : Prop :=
  ∃ frames uuid, input = .inbox frames ∧ senderOf frames = some uuid ∧
    Takes env n uuid.str (Msg.recv frames).msg ∧ (Msg.recv frames).msg.id.elects = true ∧
    (Msg.recv frames).msg.group = name

/-- Every iteration that handles no ELECT or LEADER. -/
theorem step_renews (h : ∀ name, ¬Ballot env n input name) : (Node.step env input).Leads Renews n := by
  cases input with
  | inbox frames =>
    rw [Node.step]
    cases hsender : senderOf frames with
    | none =>
      rw [recvPeer_of_none hsender]
      exact .pure _
    | some uuid =>
      rw [recvPeer_of_sender hsender]
      refine recvMsg_renews fun htakes => Bool.eq_false_iff.mpr fun helects => ?_
      exact h _ ⟨frames, uuid, rfl, hsender, htakes, helects, rfl⟩
  | api command =>
    by_cases hcontest : ∃ name, command = .setContest name
    · obtain ⟨name, rfl⟩ := hcontest
      exact .bind requirePeerGroup_renews fun _ _ _ => modifyGroup_renews fun _ => rfl
    · exact renews_of_sameGroups (recvApi_sameGroups fun name hname => hcontest ⟨name, hname⟩)
  | beacon ipaddress frame publicKey =>
    refine .get (.ite (fun _ => .pure _) fun _ => .ite (fun _ => .pure _) fun _ =>
      .ite (fun _ => .bind requirePeer_renews fun _ _ _ => .pure _) fun _ => keeps_lookupPeer ?_)
    cases n.peers.lookup (beaconUuid frame).str with
    | none => exact .pure _
    | some p => exact removePeer_renews
  | gossip uuid service =>
    exact .get (.ite (fun _ => .bind requirePeer_renews fun _ _ _ => .pure _) fun _ => .pure _)
  | reap visited =>
    refine .forM fun X _ n₁ _ => keeps_lookupPeer ?_
    cases n₁.peers.lookup X with
    | none => exact .pure _
    | some p => exact pingPeer_renews

/-- An ELECT or LEADER that is taken. -/
theorem acceptMsg_polled (hp : n.deref r = some p) (hcounts : (p.messagesLost msg).1 = false)
    (hid : msg.id.elects = true) :
    (acceptMsg env r msg).Leads (Polled msg.group (n.electionOf msg.group).Turn) n := by
  have hstay : ∀ n₁ : Node, ∀ e, n₁.groupElection msg.group = some e →
      (n₁.electionOf msg.group).Turn e := by
    intro n₁ e he
    rw [electionOf_of_some he]
    exact .stay
  have hdispatch : ∀ n₁ : Node, (dispatch r msg).Leads
      (Polled msg.group (n₁.electionOf msg.group).Turn) n₁ := by
    intro n₁
    have hdone : ∀ {x : NodeM Unit}, x.Leads (Polled msg.group (n₁.electionOf msg.group).Turn) n₁ →
        (do x; pure true : NodeM Bool).Leads
          (Polled msg.group (n₁.electionOf msg.group).Turn) n₁ :=
      fun hx => polled_bind hx (fun _ h => h) fun _ n₂ hn₂ => ⟨rfl, fun _ _ => rfl, hn₂.here⟩
    rw [dispatch]
    split
    case h_7 => exact hdone recvElect_polled
    case h_8 => exact hdone recvLeader_polled
    all_goals
      rename_i h
      rw [h] at hid
      cases hid
  refine EStateM.wp_bind .. |>.mpr (wp_readPeer.mpr ⟨fun q hq => ?_,
    fun _ => ⟨⟨rfl, fun _ _ => rfl, hstay n⟩, trivial⟩⟩)
  obtain rfl := Option.some_inj.mp (hp.symm.trans hq)
  refine polled_bind_sameGroups modifyPeer_sameGroups (hstay n) fun _ n₁ hn₁ => ?_
  refine EStateM.Keeps.ite (fun hlost => absurd (hcounts.symm.trans hlost) Bool.false_ne_true) fun _ => ?_
  have hsame : n.electionOf msg.group = n₁.electionOf msg.group := by rw [electionOf, electionOf, hn₁.1]
  rw [hsame]
  refine polled_bind (hdispatch n₁) (fun _ h => h) fun b n₂ hn₂ => ?_
  refine EStateM.wp_ite .. |>.mpr ⟨fun _ => ?_, fun _ => ⟨rfl, fun _ _ => rfl, hn₂.here⟩⟩
  exact EStateM.Keeps.get (modifyPeer_sameGroups.mono fun _ h => h.polled.mono hn₂.here)

/-- A message that is taken, other than HELLO, is accepted from a peer that is ready. -/
theorem recvMsg_of_takes {Q : Unit → Node → Prop} {E : Fault → Node → Prop}
    (htakes : Takes env n uuid.str msg) (hid : msg.id ≠ .hello)
    (h : ∀ r p, n.deref r = some p → (p.messagesLost msg).1 = false → (acceptMsg env r msg).wp Q E n) :
    (recvMsg env uuid msg).wp Q E n := by
  rw [Takes, if_neg hid] at htakes
  obtain ⟨p, hp, hready, hseq⟩ := htakes
  have hderef := deref_of_lookup hp
  rw [recvMsg, senderGate, if_neg hid]
  simp only [EStateM.wp_bind, wp_lookupPeer, hp, Option.map_some, wp_readPeer, hderef, Option.some_inj,
    forall_eq', hready, if_true]
  refine ⟨h _ p hderef ?_, nofun⟩
  rw [Peer.messagesLost, if_neg hid]
  exact decide_eq_false (not_not.mpr hseq)

/-- HELLO is no ballot. -/
theorem ne_hello_of_elects (h : msg.id.elects = true) : msg.id ≠ .hello := by
  intro hid
  rw [hid] at h
  cases h

/-- An ELECT or LEADER of the group is one turn of its election, if the election is still there. -/
theorem step_polled (h : Ballot env n input name) :
    (Node.step env input).Leads (Polled name (n.electionOf name).Turn) n := by
  obtain ⟨frames, uuid, rfl, hsender, htakes, helects, rfl⟩ := h
  rw [Node.step, recvPeer_of_sender hsender]
  exact recvMsg_of_takes htakes (ne_hello_of_elects helects) fun r p hp hcounts =>
    acceptMsg_polled hp hcounts helects

/-- A ballot takes one turn of the election of its group, also if it stops half way. -/
theorem Leaves.polled (h : Leaves (Node.step env input) n n') (hballot : Ballot env n input name) :
    Polled name (n.electionOf name).Turn n n' :=
  h.of_wp (P := Polled name _ n) (EStateM.wp_mono (step_polled hballot) (fun _ _ h => h) fun _ _ h => h.1)

/-- What an input that is no ELECT or LEADER of the group makes of its election. -/
theorem Leaves.renewed (h : Leaves (Node.step env input) n n') (hballot : ¬Ballot env n input name) :
    n'.groupElection name = n.groupElection name ∨ n'.groupElection name = none ∨
      n'.groupElection name = some (Election.new.setCaw n.identity) := by
  by_cases hother : ∃ name', Ballot env n input name'
  · obtain ⟨name', hname'⟩ := hother
    exact Or.inl ((h.polled hname').elsewhere name fun heq => hballot (heq ▸ hname'))
  · have hrenews : Renews n n' := h.of_wp (P := Renews n)
      (EStateM.wp_mono (step_renews fun name' h' => hother ⟨name', h'⟩) (fun _ _ h => h) fun _ _ h => h.1)
    exact hrenews.election name

/-- A wave that is not the node's own has a father, after an iteration as before it. -/
theorem not_orphan_of_leaves (hn : ¬n.Orphan) (h : Leaves (Node.step env input) n n') : ¬n'.Orphan := by
  rw [not_orphan_iff_groupElection] at hn ⊢
  intro name e he
  rw [Deeds.identity h.deeds]
  by_cases hballot : Ballot env n input name
  · refine ((h.polled hballot).here e he).fathered ?_
    cases hold : n.groupElection name with
    | none =>
      rw [electionOf, election_getGroup, hold]
      exact Election.fathered_new
    | some e₀ =>
      rw [electionOf_of_some hold]
      exact hn name e₀ hold
  · rcases h.renewed hballot with h' | h' | h'
    · exact hn name e (h' ▸ he)
    · cases h'.symm.trans he
    · obtain rfl := Option.some_inj.mp (h'.symm.trans he)
      exact Election.fathered_iff.mpr (Or.inr (Or.inl rfl))

/-! ### Faults -/

/-- ELECT fails no assertion: where it stops it follows a pointer to a freed peer. -/
theorem recvElect_dangling (hn : n.Sturdy) (hr : n.Live r) :
    (recvElect r msg).wp (fun _ _ => True) (fun f _ => f = .dangling) n := by
  refine EStateM.wp_mono (recvElect_keeps subset_rfl hr) (fun _ _ _ => trivial) ?_
  rintro f n' ⟨hmoves, hcause | ⟨hf, -⟩ | ⟨-, horphan⟩⟩
  · exact absurd hcause ((hn.moves hmoves).not_cause f)
  · exact hf
  · exact absurd horphan (hn.moves hmoves).fathered

/-- And neither does LEADER. -/
theorem recvLeader_dangling (hn : n.Sturdy) :
    (recvLeader msg).wp (fun _ _ => True) (fun f _ => f = .dangling) n := by
  refine EStateM.wp_mono (recvLeader_keeps (Set.mem_singleton _)) (fun _ _ _ => trivial) ?_
  exact fun f _ h => absurd h.2 ((hn.moves h.1).not_cause f)

/-- Nor what stands around them, if no message is lost. -/
theorem acceptMsg_dangling (hn : n.Sturdy) (hp : n.deref r = some p)
    (hcounts : (p.messagesLost msg).1 = false) (hid : msg.id.elects = true) :
    (acceptMsg env r msg).wp (fun _ _ => True) (fun f _ => f = .dangling) n := by
  set n₁ : Node := { n with peers := n.peers.modify r.identity fun _ => (p.messagesLost msg).2 } with hn₁
  have hsturdy : n₁.Sturdy := hn.change (D := ∅) (.peer _ p _ (lookup_of_deref hp) rfl rfl rfl)
  have hr : n₁.Live r := live_of_deref (deref_modify_self hp rfl)
  have hdispatch : (dispatch r msg).wp (fun _ _ => True) (fun f _ => f = .dangling) n₁ := by
    rw [dispatch]
    split
    case h_7 => exact EStateM.wp_bind .. |>.mpr (recvElect_dangling hsturdy hr)
    case h_8 => exact EStateM.wp_bind .. |>.mpr (recvLeader_dangling hsturdy)
    all_goals
      rename_i h
      rw [h] at hid
      cases hid
  simp only [acceptMsg, EStateM.wp_bind, wp_readPeer, hp, Option.some_inj, forall_eq', hcounts, wp_modifyPeer,
    Bool.false_eq_true, if_false]
  refine ⟨⟨EStateM.wp_mono hdispatch (fun b n₂ _ => ?_) fun _ _ h => h, fun h => ?_⟩, fun h => ?_⟩
  · refine EStateM.wp_ite .. |>.mpr ⟨fun _ => ?_, fun _ => trivial⟩
    exact EStateM.wp_bind .. |>.mpr (wp_modifyPeer.mpr ⟨fun _ _ => trivial, fun _ => rfl⟩)
  · cases h
  · cases h

/-- What stops a node that takes an ELECT or LEADER is a pointer to a peer that is gone. -/
theorem step_dangling (hn : n.Sturdy) (h : Ballot env n input name) :
    (Node.step env input).wp (fun _ _ => True) (fun f _ => f = .dangling) n := by
  obtain ⟨frames, uuid, rfl, hsender, htakes, helects, rfl⟩ := h
  rw [Node.step, recvPeer_of_sender hsender]
  exact recvMsg_of_takes htakes (ne_hello_of_elects helects) fun r p hp hcounts =>
    acceptMsg_dangling hn hp hcounts helects

/-! ### Lives -/

/-- An election object of the group outlives an iteration: ELECT and LEADER of the group find it, or
nothing has come near it. Whatever else changes the election has put another object in its place. -/
inductive Outlives (name : CStr) : Node × Election → Node × Election → Prop
  | step (env : Env) (input : Input) {n n' : Node} {e e' : Election} (h : Leaves (Node.step env input) n n')
      (he : n.groupElection name = some e) (he' : n'.groupElection name = some e')
      (hsame : Ballot env n input name ∨ e' = e) : Outlives name (n, e) (n', e')

/-- From one moment in the life of an election object of the group to a later one. -/
abbrev Life (name : CStr) : Node × Election → Node × Election → Prop := Relation.ReflTransGen (Outlives name)

/-- From one moment of an election's life to a later one its wave has gone down or stayed. -/
theorem Outlives.turn {s s' : Node × Election} (h : Outlives name s s') : s.2.Turn s'.2 := by
  obtain ⟨env, input, h, he, he', hballot | rfl⟩ := h
  · have hturn := (h.polled hballot).here _ he'
    rwa [electionOf_of_some he] at hturn
  · exact .stay

/-- The wave goes down while the election object lives. -/
theorem wave_le_of_life {s s' : Node × Election} (h : Life name s s') : s'.2.wave ≤ s.2.wave := by
  induction h with
  | refl => exact le_rfl
  | tail _ hstep ih => exact hstep.turn.wave_le.trans ih

/-- What holds of the elections of a node. -/
structure Waved (n : Node) : Prop where
  /-- The wave of an election is unset, or the node's own, or comes with a father. -/
  accompanied : ∀ name e, n.groupElection name = some e →
    e.caw = none ∨ e.caw = some n.identity ∨ e.father.isSome
  /-- So it is after the next iteration, also if that stops the node. -/
  stays : ∀ env input n', Leaves (Node.step env input) n n' → ∀ name e, n'.groupElection name = some e →
    e.caw = none ∨ e.caw = some n'.identity ∨ e.father.isSome
  /-- Only ELECT and LEADER of a group change an election in place. -/
  renewed : ∀ env input n' name, Leaves (Node.step env input) n n' → ¬Ballot env n input name →
    n'.groupElection name = n.groupElection name ∨ n'.groupElection name = none ∨
      n'.groupElection name = some (Election.new.setCaw n.identity)
  /-- An iteration that changes the wave of an election object brings a smaller one, and sets both
  counters to zero. -/
  yields : ∀ name e n' e', Outlives name (n, e) (n', e') → e'.caw = e.caw ∨ e.Yields e'
  /-- At any later moment in its life the election object has the wave it had or a smaller one. -/
  sinks : ∀ name e n' e', Life name (n, e) (n', e') → e'.caw = e.caw ∨
    ∃ r, e'.caw = some r ∧ ∀ caw, e.caw = some caw → r < caw
  /-- ELECT and LEADER meet no assertion. -/
  asserts : ∀ env input name f n', Ballot env n input name → Node.step env input n = .error f n' →
    f = .dangling

/-- **The wave of an election.** In every state a node can be in, the wave of an election is unset, its own,
or has a father, and it only goes down while the election object lives; ELECT and LEADER never find it
missing, so that the assertions of `zyre_election.c` hold. `Polled` is what these two do to the elections,
and `Renews` what every other input does. -/
theorem waved_of_reachable (hn : Reachable n) : Waved n where
  accompanied name e he := Election.fathered_iff.mp
    (not_orphan_iff_groupElection.mp (sturdy_of_reachable hn).fathered name e he)
  stays env input n' h name e he := Election.fathered_iff.mp
    (not_orphan_iff_groupElection.mp (not_orphan_of_leaves (sturdy_of_reachable hn).fathered h) name e he)
  renewed env input n' name h hballot := h.renewed hballot
  yields name e n' e' h := h.turn.yields
  sinks name e n' e' h := by
    rcases (wave_le_of_life h).eq_or_lt with h | h
    · exact Or.inl h
    · exact Or.inr (Election.wave_lt_iff.mp h)
  asserts env input name f n' hballot h :=
    (EStateM.wp_of_error h (step_dangling (sturdy_of_reachable hn) hballot) :)

/-- The election a peer's ELECT has started. -/
theorem waved_elect : Waved (final (Node.step (sampleEnv 0) (sampleInput 1 sampleElect) greetedNode)) :=
  waved_of_reachable (.step _ _ (.step _ _ (.new _ _) (step_eq_of_isOk (by decide)))
    (step_eq_of_isOk (by decide +kernel)))

end Node

end Zyre
