import Zyre.Node.Alternation
import Zyre.Node.Deed

/-!
# Every input as deeds

What a message entitles a node to is its `msgScope`: it is about the entry of its sender, and hands over
an ELECT or LEADER. `Engages` says in which groups its command makes the node take part in an election.
`step_deeds` shows for every input that handling it is a sequence of deeds within the input's scope, with
elections in any groups that hold those its command engages the node in and those a removal resumes.
-/

namespace Zyre

namespace Node

variable {S : Scope} {n n' : Node} {r : PeerRef} {p : Peer} {X name : CStr} {msg : Msg} {env : Env}
  {uuid : Uuid}

/-- The election of a group, or one that has not begun. -/
def electionOf (n : Node) (name : CStr) : Election :=
  ((n.peerGroups.lookup name).getD .new).election.getD .new

/-- The command of the message makes the node take part in an election of the group: it starts one, or
the wave of an ELECT is at least as good as the one it is in, or a LEADER ends the one it is in. -/
def Engages (n : Node) (msg : Msg) (name : CStr) : Prop :=
  match msg.id with
  | .hello => name ∈ msg.groups.getD [] ∧ n.contested name = true
  | .join => name = msg.group ∧ name ∈ n.ownGroups ∧ n.contested name = true
  | .elect => name = msg.group ∧ ((n.electionOf name).challengerSuperior msg.challengerId = true ∨
      (n.electionOf name).caw = some msg.challengerId)
  | .leader => name = msg.group ∧ (n.electionOf name).caw.isSome
  | _ => False

/-- The node gets as far as the command of the message: the gate lets it in, and it has the number that
the count of the sender asks for. -/
def Takes (env : Env) (n : Node) (X : CStr) (msg : Msg) : Prop :=
  if msg.id = .hello then Admits env n X msg ∧ msg.sequence = 1
  else ∃ p, n.peers.lookup X = some p ∧ p.ready = true ∧ p.wantSequence + 1 = msg.sequence

/-- The scope lets the node handle the message, elections aside. -/
structure Permits (S : Scope) (n : Node) (X : CStr) (msg : Msg) : Prop where
  about : X ∈ S.about
  resumable : Resumable S n
  hears : msg.id.elects = true → S.hears msg
  contests : S.contests = ∅
  regroups : ¬S.regroups

/-- It does so all the way. -/
theorem Permits.deeds (h : Permits S n X msg) (hn : Deeds S n n') : Permits S n' X msg :=
  { h with resumable := h.resumable.deeds hn }

/-- The groups that hold elections are the ones that did when the message was permitted. -/
theorem Permits.contested (h : Permits S n X msg) (hn : Deeds S n n') (name : CStr) :
    n'.contested name = n.contested name :=
  Deeds.contested hn (by simp [h.contests])

/-! ### The commands -/

/-- One turn of the loop over the groups of a HELLO: the peer joins, and an election starts only in a group
the scope names. -/
theorem helloGroup_deeds (h : Permits S n r.identity msg)
    (hname : n.contested name = true → name ∈ S.groups) : (helloGroup r name).Leads (Deeds S) n := by
  refine .bind (joinPeerGroup_deeds h.about) fun _ n₁ hn₁ => ?_
  refine EStateM.wp_bind .. |>.mpr (wp_getGroup.mpr (EStateM.Keeps.ite (fun hcontest => ?_)
    fun _ => .pure _))
  have hcontested : n₁.contested name = true := hcontest
  exact startElection_deeds (hname (h.contested hn₁ name ▸ hcontested)) hcontest

/-- The branch for HELLO does what the scope allows. -/
theorem recvHello_deeds (h : Permits S n r.identity msg) (hid : msg.id = .hello)
    (hgroups : ∀ name, Engages n msg name → name ∈ S.groups) :
    (recvHello r msg).Leads (Deeds S) n := by
  refine .bind (modifyPeer_deeds h.about) fun _ n₁ hn₁ => .bind (emit_deeds h.about rfl) fun _ n₂ hn₂ => ?_
  have hn₂ : Deeds S n n₂ := hn₁.trans hn₂
  cases hlist : msg.groups with
  | none => exact .throw _ trivial
  | some groups =>
    refine .bind (.forM fun name hname n₃ hn₃ => ?_) fun _ n₃ _ => modifyPeer_deeds h.about
    refine helloGroup_deeds (h.deeds (hn₂.trans hn₃)) fun hcontest => hgroups name ?_
    rw [h.contested (hn₂.trans hn₃)] at hcontest
    simpa [Engages, hid, hlist] using And.intro hname hcontest

/-- The branch for JOIN, with the election it may begin. -/
theorem recvJoin_deeds (h : Permits S n r.identity msg) (hid : msg.id = .join)
    (hgroups : ∀ name, Engages n msg name → name ∈ S.groups) :
    (recvJoin r msg).Leads (Deeds S) n := by
  refine .bind (joinPeerGroup_deeds h.about) fun _ n₁ hn₁ => leads_readPeer fun _ _ =>
    leads_assert fun _ => .get (.ite (fun hown => ?_) fun _ => .pure _)
  refine EStateM.wp_bind .. |>.mpr (wp_getGroup.mpr (EStateM.Keeps.ite (fun hcontest => ?_)
    fun _ => .pure _))
  refine startElection_deeds (hgroups _ ?_) hcontest
  have hcontested : n₁.contested msg.group = true := hcontest
  rw [Deeds.ownGroups h.regroups hn₁] at hown
  rw [h.contested hn₁] at hcontested
  simp [Engages, hid, hown, hcontested]

/-- The branch for LEAVE. -/
theorem recvLeave_deeds (h : Permits S n r.identity msg) : (recvLeave r msg).Leads (Deeds S) n := by
  refine .bind (leavePeerGroup_deeds h.about) fun _ n₁ hn₁ => leads_readPeer fun _ _ =>
    leads_assert fun _ => .get (.ite (fun hown => ?_) fun _ => .pure _)
  refine EStateM.wp_bind .. |>.mpr (wp_getGroup.mpr (EStateM.Keeps.ite (fun hcontest => ?_)
    fun _ => .pure _))
  cases hleader : ((n₁.peerGroups.lookup msg.group).getD .new).leader with
  | none => exact .pure _
  | some groupLeader =>
    have hname := h.resumable n₁ hn₁ _ hown hcontest (Or.inr (by simp [hleader]))
    refine leads_readPeer fun _ _ => .ite (fun _ => ?_) fun _ => .pure _
    set n₂ : Node := { n₁ with
      peerGroups := n₁.peerGroups.modify msg.group fun g => { g with election := none } }
    have hcontest₂ : n₂.contested msg.group = true := by
      rw [← hcontest]
      exact congrFun (contested_modify (f := fun g => { g with election := none }) fun _ => rfl) _
    refine .bind_of_wp (show Deeds S n₁ n₂ from .single (.clear msg.group))
      (wp_setElection.mpr ⟨rfl, .ite (fun _ => ?_) fun _ => ?_⟩)
    · exact leadAlone_deeds hname hcontest₂
    · exact startElection_deeds hname hcontest₂

/-- The election of a group just required is there, with the wave it had. -/
theorem requireElection_deeds (hhears : S.HearsOf name) :
    Deeds S n { n with peerGroups := n.peerGroups.modify name (·.requireElection) } := by
  refine .single (.count name (fun g => some (g.election.getD .new)) (fun g _ e he caw hcaw => ?_)
    fun _ _ => Or.inr hhears)
  obtain rfl := Option.some_inj.mp he
  cases hg : g.election with
  | none => simp [hg, Election.new] at hcaw
  | some e₀ => exact ⟨e₀, rfl, by simpa [hg] using hcaw⟩

/-- An ELECT with a smaller challenger makes its sender the father, under a caw the scope has heard of. -/
theorem followChallenger_deeds (hhears : S.hears msg) (hid : msg.id = .elect)
    (hname : msg.group ∈ S.groups) :
    (followChallenger r msg).wp (fun _ n' => Deeds S n n' ∧
      n'.peerGroups = n.peerGroups.modify msg.group fun g =>
        { g with election := some ((Election.new.setCaw msg.challengerId).setFather r) })
      (fun _ n' => Deeds S n n' ∧ True) n := by
  set e := (Election.new.setCaw msg.challengerId).setFather r with he
  set n₁ : Node := { n with peerGroups := n.peerGroups.modify msg.group fun g =>
    { g with election := some e } } with hn₁
  have hfollow : Deeds S n n₁ := .single (.follow r msg hhears hid hname)
  refine EStateM.wp_bind .. |>.mpr (wp_setElection.mpr ?_)
  rw [buildElectMsg_of_caw (e := e) rfl]
  cases hg : n.peerGroups.lookup msg.group with
  | none =>
    -- Without the group there is no member to pass the wave on to.
    have hkeys : ((n₁.peerGroups.lookup msg.group).getD .new).peers.keys = [] := by
      simp [hn₁, hg, Group.new, AList.keys, EmptyCollection.emptyCollection]
    show EStateM.wp (forM ((n₁.peerGroups.lookup msg.group).getD .new).peers.keys _) _ _ n₁
    rw [hkeys]
    exact ⟨hfollow, rfl⟩
  | some g =>
    have hwaves : Waves n₁ msg.group (((Msg.new .elect).setChallengerId msg.challengerId).setGroup
        msg.group) := ⟨{ g with election := some e }, e, msg.challengerId, by simp [hn₁, hg], rfl, rfl,
      Or.inl rfl⟩
    refine EStateM.wp_mono (forM_deeds (S := S) fun X _ n₂ hn₂ => ?_)
      (fun _ n₂ h => ⟨hfollow.trans h.1, h.2⟩) fun _ _ h => ⟨hfollow.trans h.1, trivial⟩
    refine EStateM.wp_ite .. |>.mpr ⟨fun _ => ?_, fun _ => ⟨.refl, rfl⟩⟩
    refine EStateM.wp_bind .. |>.mpr (wp_lookupPeer.mpr ?_)
    cases n₂.peers.lookup X with
    | none => exact ⟨.refl, trivial⟩
    | some q => exact peerSend_deeds ((hwaves.sendable hname).congr hn₂)

/-- An ELECT with the same challenger is counted, and may finish the wave. -/
theorem supportChallenger_deeds {g : Group} {e : Election} (hhears : S.hears msg)
    (hname : msg.group ∈ S.groups) (hg : n.peerGroups.lookup msg.group = some g)
    (he : g.election = some e) (hcaw : e.caw.isSome) :
    (supportChallenger msg e).Leads (Deeds S) n := by
  obtain ⟨caw, hcaw⟩ := Option.isSome_iff_exists.mp hcaw
  have hcaw' : e.incrementErec.caw = some caw := hcaw
  set n₁ : Node := { n with peerGroups := n.peerGroups.modify msg.group fun g =>
    { g with election := some e.incrementErec } } with hn₁
  have hcount : Deeds S n n₁ := by
    refine .single (.count msg.group (fun _ => some e.incrementErec) (fun g' hg' e' he' c hc => ?_)
      fun _ _ => Or.inr ⟨msg, hhears, rfl⟩)
    obtain rfl := Option.some_inj.mp he'
    obtain rfl := Option.some_inj.mp (hg.symm.trans hg')
    exact ⟨e, he, hc⟩
  have hwaves : ∀ msg', (msg' = ((Msg.new .elect).setChallengerId caw).setGroup msg.group ∨
      msg' = ((Msg.new .leader).setLeaderId caw).setGroup msg.group) → Waves n₁ msg.group msg' :=
    fun msg' hmsg => ⟨{ g with election := some e.incrementErec }, e.incrementErec, caw,
      by simp [hn₁, hg], rfl, hcaw', hmsg⟩
  refine .bind_of_wp hcount (wp_setElection.mpr ⟨rfl, ?_⟩)
  refine EStateM.wp_bind .. |>.mpr (wp_getGroup.mpr (EStateM.Keeps.ite (fun _ => .get ?_) fun _ => .pure _))
  refine .ite (fun _ => ?_) fun _ => ?_
  · rw [buildLeaderMsg_of_caw hcaw']
    exact .pure_bind (EStateM.wp_mono (groupSend_deeds ((hwaves _ (Or.inr rfl)).sendable hname))
      (fun _ _ h => h.1) fun _ _ h => h)
  · rw [buildElectMsg_of_caw hcaw']
    refine .pure_bind ?_
    cases e.incrementErec.father with
    | none => exact .throw _ trivial
    | some father =>
      exact EStateM.wp_mono (peerSend_deeds ((hwaves _ (Or.inl rfl)).sendable hname))
        (fun _ _ h => h.1) fun _ _ h => h

/-- A group that has been required, and its election, are what they were or new. -/
theorem lookup_requireElection (name : CStr) :
    ((n.peerGroups.insertNew name .new).modify name (·.requireElection)).lookup name =
      some ((n.peerGroups.lookup name).getD .new).requireElection := by
  simp [lookup_insertNew_self]

/-- The branch for ELECT: a superior challenger, the one followed, or neither. -/
theorem recvElect_deeds (h : Permits S n X msg) (hid : msg.id = .elect)
    (hgroups : ∀ name, Engages n msg name → name ∈ S.groups) :
    (recvElect r msg).Leads (Deeds S) n := by
  have hhears : S.hears msg := h.hears (by simp [hid, MsgId.elects])
  have hengages : ((n.electionOf msg.group).challengerSuperior msg.challengerId = true ∨
      (n.electionOf msg.group).caw = some msg.challengerId) → msg.group ∈ S.groups := by
    intro h
    refine hgroups _ ?_
    simpa [Engages, hid] using h
  set n₀ : Node := { n with peerGroups := n.peerGroups.insertNew msg.group .new }
  set n₁ : Node := { n₀ with
    peerGroups := n₀.peerGroups.modify msg.group (·.requireElection) } with hn₁
  have hg₁ : n₁.peerGroups.lookup msg.group =
      some ((n.peerGroups.lookup msg.group).getD .new).requireElection := lookup_requireElection _
  have hrest : ∀ n₂ g₂, n₂.peerGroups.lookup msg.group = some g₂ → g₂.election.isSome →
      ((g₂.election.getD .new).caw = some msg.challengerId → msg.group ∈ S.groups) →
      EStateM.Leads (Deeds S)
      (do
        let election := (← getGroup msg.group).election.getD .new
        assert election.caw.isSome
        if election.caw = some msg.challengerId then supportChallenger msg election) n₂ := by
    intro n₂ g₂ hg₂ he₂ hname
    obtain ⟨e₂, he₂⟩ := Option.isSome_iff_exists.mp he₂
    refine EStateM.wp_bind .. |>.mpr (wp_getGroup.mpr (leads_assert fun hcaw => .ite (fun hsame => ?_)
      fun _ => .pure _))
    simp only [hg₂, Option.getD_some, he₂] at hcaw hname hsame ⊢
    exact supportChallenger_deeds hhears (hname hsame) hg₂ he₂ hcaw
  refine .bind_of_wp (show Deeds S n n₀ from .single (.addGroup msg.group))
    (wp_requirePeerGroup.mpr ⟨rfl, ?_⟩)
  refine .bind_of_wp (show Deeds S n₀ n₁ from requireElection_deeds ⟨msg, hhears, rfl⟩)
    (wp_modifyGroup.mpr ⟨rfl, ?_⟩)
  refine EStateM.wp_bind .. |>.mpr (wp_getGroup.mpr ?_)
  have helection : ((n₁.peerGroups.lookup msg.group).getD .new).election.getD .new =
      n.electionOf msg.group := by rw [hg₁]; rfl
  rw [helection]
  refine EStateM.Keeps.ite (fun hsuperior => ?_) fun _ => hrest n₁ _ hg₁ rfl fun hsame =>
    hengages (Or.inr hsame)
  have hname := hengages (Or.inl hsuperior)
  refine .bind' (followChallenger_deeds hhears hid hname) fun _ n₂ _ hfollowed => ?_
  exact hrest n₂ _ (by rw [hfollowed, AList.lookup_modify_self, hg₁, Option.map_some]) rfl fun _ => hname

/-- The last LEADER of a wave ends the election and names the leader, to the application too. -/
theorem finishElection_deeds {e : Election} (hhears : S.hears msg) (hid : msg.id = .leader)
    (hname : msg.group ∈ S.groups) : (finishElection msg e).Leads (Deeds S) n := by
  have htell : ∀ (n : Node) (leaderName : CStr),
      (leaderPeerGroup msg.leaderId leaderName msg.group).Leads (Deeds S) n := fun n leaderName =>
    Relation.ReflTransGen.single (.elect msg leaderName hhears hid hname)
  refine EStateM.wp_bind .. |>.mpr (wp_getGroup.mpr (EStateM.Keeps.ite (fun _ => .get ?_) fun _ => .pure _))
  refine .ite (fun hself => ?_) fun _ => ?_
  · refine .get (.get (.bind ?_ fun _ _ _ => clearElection_deeds))
    rw [← hself]
    exact htell n n.name
  · refine EStateM.wp_bind .. |>.mpr (wp_lookupPeer.mpr ?_)
    cases n.peers.lookup msg.leaderId with
    | none => exact clearElection_deeds
    | some q =>
      have hleads : (setLeader msg.group (some ⟨msg.leaderId, q.serial⟩)).Leads (Deeds S) n :=
        Relation.ReflTransGen.single (.setLeader _ _ fun _ => ⟨msg, hhears, rfl⟩)
      exact EStateM.Keeps.bind hleads fun _ n₁ _ => leads_readPeer fun _ _ =>
        .bind (htell n₁ _) fun _ _ _ => clearElection_deeds

/-- The branch for LEADER. -/
theorem recvLeader_deeds (h : Permits S n X msg) (hid : msg.id = .leader)
    (hgroups : ∀ name, Engages n msg name → name ∈ S.groups) :
    (recvLeader msg).Leads (Deeds S) n := by
  have hhears : S.hears msg := h.hears (by simp [hid, MsgId.elects])
  set n₀ : Node := { n with peerGroups := n.peerGroups.insertNew msg.group .new }
  set n₁ : Node := { n₀ with
    peerGroups := n₀.peerGroups.modify msg.group (·.requireElection) } with hn₁
  set g := ((n.peerGroups.lookup msg.group).getD .new).requireElection with hg
  have hg₁ : n₁.peerGroups.lookup msg.group = some g := lookup_requireElection _
  obtain ⟨e, he⟩ : ∃ e, g.election = some e := ⟨_, rfl⟩
  refine .bind_of_wp (show Deeds S n n₀ from .single (.addGroup msg.group))
    (wp_requirePeerGroup.mpr ⟨rfl, ?_⟩)
  refine .bind_of_wp (show Deeds S n₀ n₁ from requireElection_deeds ⟨msg, hhears, rfl⟩)
    (wp_modifyGroup.mpr ⟨rfl, ?_⟩)
  refine EStateM.wp_bind .. |>.mpr (wp_getGroup.mpr ?_)
  simp only [hg₁, Option.getD_some, he]
  refine EStateM.Keeps.ite (fun hcaw => .get ?_) fun _ => .pure _
  have hname : msg.group ∈ S.groups := by
    refine hgroups _ ?_
    have helection : n.electionOf msg.group = e := Option.some_inj.mp he
    simpa [Engages, hid, helection] using hcaw
  obtain ⟨caw, hcaw⟩ := Option.isSome_iff_exists.mp hcaw
  have hrest : ∀ n₂, n₂.peerGroups = n₁.peerGroups → EStateM.Leads (Deeds S)
      (do
        setElection msg.group (some (e.incrementLrec.setLeader msg.leaderId))
        finishElection msg (e.incrementLrec.setLeader msg.leaderId)) n₂ := by
    intro n₂ hgroups
    refine .bind ?_ fun _ _ _ => finishElection_deeds hhears hid hname
    refine Relation.ReflTransGen.single (.count msg.group
      (fun _ => some (e.incrementLrec.setLeader msg.leaderId)) (fun g' hg' e' he' c hc => ?_)
      fun _ _ => Or.inr ⟨msg, hhears, rfl⟩)
    obtain rfl := Option.some_inj.mp he'
    rw [hgroups, hg₁] at hg'
    obtain rfl := Option.some_inj.mp hg'
    exact ⟨e, he, hc⟩
  refine .ite (fun _ => ?_) fun _ => hrest n₁ rfl
  rw [buildLeaderMsg_of_caw hcaw]
  have hwaves : Waves n₁ msg.group (((Msg.new .leader).setLeaderId caw).setGroup msg.group) :=
    ⟨g, e, caw, hg₁, he, hcaw, Or.inr rfl⟩
  exact .pure_bind (.bind' (groupSend_deeds (hwaves.sendable hname)) fun _ n₂ _ hgroups =>
    hrest n₂ hgroups)

/-! ### A message from a peer that is ready -/

/-- **The dispatch on the command** stays within the scope, whichever command it is. -/
theorem dispatch_deeds (h : Permits S n r.identity msg)
    (hgroups : ∀ name, Engages n msg name → name ∈ S.groups) :
    (dispatch r msg).Leads (Deeds S) n := by
  have hdo : ∀ {x : NodeM Unit}, x.Leads (Deeds S) n →
      (do x; pure true : NodeM Bool).Leads (Deeds S) n :=
    fun hx => .bind hx fun _ _ _ => .pure _
  have htell : ∀ e : CStr → Event, (∀ nm, (e nm).identity = r.identity) →
      (∀ nm, (e nm).elects = false) →
      (do emit (e (← readPeer r).nameStr) : NodeM Unit).Leads (Deeds S) n :=
    fun e hX he => leads_readPeer fun p _ => emit_deeds (by rw [hX]; exact h.about) (he _)
  cases hid : msg.id with
  | hello =>
    simp only [dispatch, hid]
    exact hdo (recvHello_deeds h hid hgroups)
  | whisper =>
    simp only [dispatch, hid]
    exact hdo (htell (fun nm => .whisper r.identity nm msg.content) (fun _ => rfl) fun _ => rfl)
  | shout =>
    simp only [dispatch, hid]
    exact hdo (htell (fun nm => .shout r.identity nm msg.group msg.content) (fun _ => rfl) fun _ => rfl)
  | ping =>
    simp only [dispatch, hid]
    refine hdo (EStateM.wp_mono (peerSend_deeds (sendable_of_not_elects rfl)) (fun _ _ h => h.1)
      fun _ _ h => h)
  | join =>
    simp only [dispatch, hid]
    exact hdo (recvJoin_deeds h hid hgroups)
  | leave =>
    simp only [dispatch, hid]
    exact hdo (recvLeave_deeds h)
  | elect =>
    simp only [dispatch, hid]
    exact hdo (recvElect_deeds h hid hgroups)
  | leader =>
    simp only [dispatch, hid]
    exact hdo (recvLeader_deeds h hid hgroups)
  | goodbye =>
    simp only [dispatch, hid]
    refine .get (.ite (fun _ => ?_) fun _ => .pure _)
    exact .bind (removePeer_deeds h.regroups h.about h.resumable) fun _ _ _ => .pure _
  | pingOk =>
    simp only [dispatch, hid]
    exact .pure _
  | unset =>
    simp only [dispatch, hid]
    exact .pure _

/-- What a command does with the groups depends on the groups alone. -/
theorem engages_congr (hgroups : n'.peerGroups = n.peerGroups) (hown : n'.ownGroups = n.ownGroups) :
    Engages n' msg name ↔ Engages n msg name := by
  simp only [Engages, electionOf, contested, hgroups, hown]

/-- The rest of `zyre_node_recv_peer` behind the ready check: refresh, sequence check and dispatch. A
message out of sequence removes its sender and reaches no branch. -/
theorem acceptMsg_deeds (h : Permits S n r.identity msg)
    (hgroups : ∀ p, n.deref r = some p → (p.messagesLost msg).1 = false →
      ∀ name, Engages n msg name → name ∈ S.groups) :
    (acceptMsg env r msg).Leads (Deeds S) n := by
  refine leads_readPeer fun p hp => ?_
  set n₁ : Node := { n with peers := n.peers.modify r.identity fun _ => (p.messagesLost msg).2 } with hn₁
  have hdeeds : Deeds S n n₁ := .single (.peer _ _ h.about)
  refine .bind_of_wp hdeeds (wp_modifyPeer.mpr ⟨fun _ _ => ⟨rfl, ?_⟩, fun _ => ⟨.refl, trivial⟩⟩)
  refine .ite (fun _ => removePeer_deeds h.regroups h.about (h.deeds hdeeds).resumable) fun hcounts => ?_
  refine .bind (dispatch_deeds (h.deeds hdeeds) fun name hname => ?_) fun b n₂ _ => .ite (fun _ => ?_)
    fun _ => .pure _
  · exact hgroups p hp (Bool.eq_false_iff.mpr hcounts) name ((engages_congr rfl rfl).mp hname)
  · exact .get (modifyPeer_deeds h.about)

/-! ### The gate -/

/-- A HELLO requires a peer at the endpoint it announces, which greets it if there is no entry. -/
theorem helloRequire_deeds (hX : uuid.str ∈ S.about)
    (hgreets : n.peers.lookup uuid.str = none → msg.endpoint ∈ S.greets) :
    (helloRequire env uuid msg).Leads (Deeds S) n :=
  wp_helloRequire (fun _ => requirePeer_deeds hX hgreets) .refl ⟨.refl, trivial⟩ ⟨.refl, trivial⟩

/-- A HELLO the gate lets in makes the peer ready as well. -/
theorem helloAdmit_deeds (hX : uuid.str ∈ S.about)
    (hgreets : n.peers.lookup uuid.str = none → msg.endpoint ∈ S.greets) :
    (helloAdmit env uuid msg).Leads (Deeds S) n := by
  refine .bind' (EStateM.wp_mono (EStateM.wp_and (x := helloRequire env uuid msg)
    (helloRequire_deeds hX hgreets) helloRequire_found) (fun _ _ h => h) fun _ _ h => h.1)
    fun o n₁ _ hfound => ?_
  cases o with
  | none => exact .pure _
  | some r =>
    obtain ⟨hr, -⟩ := hfound r rfl
    exact .bind (modifyPeer_deeds (hr ▸ hX)) fun _ _ _ => .pure _

/-- The gate removes a sender that is ready, and requires one that then has no entry. -/
theorem helloGate_deeds (h : Permits S n uuid.str msg)
    (hgreets : (∀ p, n.peers.lookup uuid.str = some p → p.ready = true) → msg.endpoint ∈ S.greets) :
    (helloGate env uuid msg).Leads (Deeds S) n := by
  refine EStateM.wp_bind .. |>.mpr (wp_lookupPeer.mpr ?_)
  cases hlook : n.peers.lookup uuid.str with
  | none =>
    refine EStateM.Keeps.pure_bind (helloAdmit_deeds h.about fun _ => hgreets ?_)
    exact fun p hp => nomatch hlook.symm.trans hp
  | some p =>
    refine leads_readPeer fun q hq => .ite (fun hready => ?_) fun _ => .get (.pure_bind ?_)
    · obtain rfl := Option.some_inj.mp ((deref_of_lookup hlook).symm.trans hq)
      have hendpoint : msg.endpoint ∈ S.greets := hgreets fun p' hp' => by
        obtain rfl := Option.some_inj.mp (hlook.symm.trans hp')
        exact hready
      refine .bind (removePeer_deeds h.regroups h.about h.resumable) fun _ n₁ _ => ?_
      refine EStateM.wp_bind .. |>.mpr (wp_lookupPeer.mpr (leads_assert fun _ => .pure_bind ?_))
      exact helloAdmit_deeds h.about fun _ => hendpoint
    · refine .ite (fun _ => .pure _) fun _ => helloAdmit_deeds h.about fun hnone => ?_
      exact nomatch hlook.symm.trans hnone

/-! ### Every message -/

/-- The whole of `zyre_node_recv_peer` for a decoded message. -/
theorem recvMsg_deeds (h : Permits S n uuid.str msg)
    (hgreets : msg.id = .hello → (∀ p, n.peers.lookup uuid.str = some p → p.ready = true) →
      msg.endpoint ∈ S.greets)
    (hgroups : Takes env n uuid.str msg → ∀ name, Engages n msg name → name ∈ S.groups) :
    (recvMsg env uuid msg).Leads (Deeds S) n := by
  have haccept : ∀ (r : PeerRef) n₁, r.identity = uuid.str → Deeds S n n₁ →
      (∀ p, n₁.deref r = some p → p.ready = true → (p.messagesLost msg).1 = false →
        ∀ name, Engages n₁ msg name → name ∈ S.groups) →
      (do if (← readPeer r).ready then acceptMsg env r msg : NodeM Unit).Leads (Deeds S) n₁ := by
    intro r n₁ hr hn₁ hgroups
    refine leads_readPeer fun p hp => .ite (fun hready => ?_) fun _ => .pure _
    refine acceptMsg_deeds (hr ▸ h.deeds hn₁) fun q hq => ?_
    obtain rfl := Option.some_inj.mp (hp.symm.trans hq)
    exact hgroups p hp hready
  unfold recvMsg senderGate
  by_cases hid : msg.id = .hello
  · rw [if_pos hid]
    refine .bind' (EStateM.wp_mono (EStateM.wp_and (x := helloGate env uuid msg)
      (EStateM.wp_and (x := helloGate env uuid msg) (helloGate_deeds h (hgreets hid)) helloGate_spec)
      helloGate_admits) (fun o n₁ h => ?_) fun _ _ h => h.1.1)
      (P := fun o _ => ∀ r, o = some r → r.identity = uuid.str ∧ Admits env n uuid.str msg)
      fun o n₁ hn₁ hr => ?_
    · refine ⟨h.1.1, fun r hr => ?_⟩
      subst hr
      obtain ⟨v, q, -, -, -, hrid, -⟩ := h.1.2
      exact ⟨by rw [hrid], h.2.mp rfl⟩
    · cases o with
      | none => exact .pure _
      | some r =>
        obtain ⟨hrid, hadmits⟩ := hr r rfl
        refine haccept r n₁ hrid hn₁ fun p _ _ hcounts name hname => ?_
        have hsequence : msg.sequence = 1 := by
          rw [Peer.messagesLost, if_pos hid] at hcounts
          exact (not_not.mp (of_decide_eq_false hcounts)).symm
        refine hgroups (by rw [Takes, if_pos hid]; exact ⟨hadmits, hsequence⟩) name ?_
        simp only [Engages, hid] at hname ⊢
        rwa [h.contested hn₁] at hname
  · rw [if_neg hid]
    refine EStateM.wp_bind .. |>.mpr (wp_lookupPeer.mpr ?_)
    cases hlook : n.peers.lookup uuid.str with
    | none => exact .refl
    | some p =>
      refine haccept _ n rfl .refl fun q hq hready hcounts => hgroups ?_
      obtain rfl := Option.some_inj.mp ((deref_of_lookup hlook).symm.trans hq)
      rw [Peer.messagesLost, if_neg hid] at hcounts
      rw [Takes, if_neg hid]
      exact ⟨p, hlook, hready, not_not.mp (of_decide_eq_false hcounts)⟩

variable {groups : Set CStr}

/-- What a message entitles a node to that may take part in the elections of these groups. -/
def msgScope (groups : Set CStr) (n : Node) (X : CStr) (msg : Msg) : Scope where
  about := {X}
  greets := {endpoint | msg.id = .hello ∧ endpoint = msg.endpoint ∧
    ∀ p, n.peers.lookup X = some p → p.ready = true}
  groups := groups
  hears m := m = msg
  contests := ∅
  regroups := False

/-- Handling a message is a sequence of deeds within its scope. -/
theorem recvMsg_leads (hresumable : Resumable (msgScope groups n uuid.str msg) n)
    (hgroups : Takes env n uuid.str msg → ∀ name, Engages n msg name → name ∈ groups) :
    (recvMsg env uuid msg).Leads (Deeds (msgScope groups n uuid.str msg)) n :=
  recvMsg_deeds ⟨rfl, hresumable, fun _ => rfl, rfl, id⟩ (fun hid hready => ⟨hid, rfl, hready⟩) hgroups

/-! ### The other inputs -/

/-- What a beacon, gossip and the timer entitle a node to. -/
def timeScope (groups : Set CStr) : Scope where
  about := Set.univ
  greets := Set.univ
  groups := groups
  hears _ := False
  contests := ∅
  regroups := False

/-- What a command of the application entitles a node to. -/
def apiScope (command : Command) : Scope where
  about := Set.univ
  greets := Set.univ
  groups := ∅
  hears _ := False
  contests := {group | ∃ name, command = .setContest name ∧ group = name}
  regroups := command.regroups = true

/-- What an input entitles a node to. -/
def inputScope (groups : Set CStr) (n : Node) : Input → Scope
  | .inbox frames =>
    match senderOf frames with
    | some uuid => msgScope groups n uuid.str (Msg.recv frames).msg
    | none => timeScope groups
  | .api command => apiScope command
  | .beacon .. | .gossip .. | .reap _ => timeScope groups

/-- Only commands of the application change the groups a scope speaks of. -/
theorem inputScope_of_ne_api {input : Input} (h : ∀ command, input ≠ .api command) :
    (inputScope groups n input).groups = groups ∧ ¬(inputScope groups n input).regroups := by
  cases input with
  | inbox frames =>
    cases hsender : senderOf frames with
    | none => simp only [inputScope, hsender]; exact ⟨rfl, id⟩
    | some uuid => simp only [inputScope, hsender]; exact ⟨rfl, id⟩
  | api command => exact absurd rfl (h command)
  | _ => exact ⟨rfl, id⟩

/-- Only SET CONTEST makes a group contested. -/
theorem contests_inputScope {input : Input} (h : name ∈ (inputScope groups n input).contests) :
    input = .api (.setContest name) := by
  cases input with
  | inbox frames =>
    cases hsender : senderOf frames with
    | none =>
      simp only [inputScope, hsender] at h
      exact h.elim
    | some uuid =>
      simp only [inputScope, hsender] at h
      exact h.elim
  | api command =>
    obtain ⟨name', rfl, rfl⟩ := h
    rfl
  | _ => exact h.elim

/-- Only a message of the inbox is heard. -/
theorem hears_inputScope {input : Input} (h : (inputScope groups n input).hears msg) :
    ∃ frames, input = .inbox frames ∧ msg = (Msg.recv frames).msg := by
  cases input with
  | inbox frames =>
    cases hsender : senderOf frames with
    | none =>
      simp only [inputScope, hsender] at h
      exact h.elim
    | some uuid =>
      simp only [inputScope, hsender] at h
      exact ⟨frames, rfl, h⟩
  | _ => exact h.elim

theorem modify_deeds {f : Node → Node} (h : Deed S n (f n)) :
    (modify f : NodeM Unit).Leads (Deeds S) n :=
  Relation.ReflTransGen.single h

/-- A removal for time, with the elections it begins again. -/
theorem removePeer_timely (h : Resumable (timeScope groups) n) :
    (removePeer r).Leads (Deeds (timeScope groups)) n :=
  removePeer_deeds id (Set.mem_univ _) h

theorem gossipStart_deeds : gossipStart.Leads (Deeds S) n := by
  refine modify_deeds ?_
  split_ifs
  · exact .know rfl rfl rfl rfl rfl rfl rfl
  · exact .know rfl rfl rfl rfl rfl rfl rfl

/-- Starting the node concerns no peer. -/
theorem start_deeds : start.Leads (Deeds S) n := by
  have hrest : EStateM.Leads (Deeds S)
      (if n.beaconPort ≠ 0 then do
        assert !n.beacon
        set { n with
          beaconVersion := if n.secretKey.isSome then beaconVersionV3 else n.beaconVersion
          beacon := true }
      else assert n.gossip) n := by
    refine .ite (fun _ => leads_assert fun _ => ?_) fun _ => ?_
    · exact Relation.ReflTransGen.single (.know rfl rfl rfl rfl rfl rfl rfl)
    · exact wp_assert.mpr ⟨fun _ => .refl, fun _ => ⟨.refl, trivial⟩⟩
  exact .get (.ite (fun _ => leads_assert fun _ => hrest) fun _ => hrest)

/-- Stopping it tells of the node itself only. -/
theorem stop_deeds (hX : n.identity ∈ S.about) : stop.Leads (Deeds S) n := by
  have hrest : ∀ n' : Node, n'.identity = n.identity → EStateM.Leads (Deeds S)
      (do
        modify fun n => { n with beacon := false }
        let n ← get
        emit (.stop n.identity n.name)) n' := by
    intro n' hn'
    refine .bind_of_wp (show Deeds S n' { n' with beacon := false } from
      .single (.know rfl rfl rfl rfl rfl rfl rfl)) (EStateM.wp_modify _ |>.mpr ⟨rfl, .get ?_⟩)
    exact emit_deeds (by rw [Event.identity]; exact hn' ▸ hX) rfl
  refine .get (.ite (fun _ => ?_) fun _ => hrest n rfl)
  exact .bind (sendPeers_deeds (sendable_of_not_elects rfl)) fun _ n₁ hn₁ =>
    hrest n₁ (Deeds.identity hn₁)

/-- `zyre_node_recv_api`: every command stays within the scope named after it. -/
theorem recvApi_deeds (command : Command) :
    (recvApi env command).Leads (Deeds (apiScope command)) n := by
  cases command with
  | setName name => exact modify_deeds (.know rfl rfl rfl rfl rfl rfl rfl)
  | setHeader name value => exact modify_deeds (.know rfl rfl rfl rfl rfl rfl rfl)
  | setPort value => exact modify_deeds (.know rfl rfl rfl rfl rfl rfl rfl)
  | setEvasiveTimeout value => exact modify_deeds (.know rfl rfl rfl rfl rfl rfl rfl)
  | setExpiredTimeout value => exact modify_deeds (.know rfl rfl rfl rfl rfl rfl rfl)
  | setContest group =>
    exact .bind requirePeerGroup_deeds fun _ n₁ _ => modify_deeds (.contest group ⟨group, rfl, rfl⟩)
  | setAdvertisedEndpoint endpoint => exact modify_deeds (.know rfl rfl rfl rfl rfl rfl rfl)
  | setEndpoint bound =>
    exact .bind gossipStart_deeds fun _ n₁ _ => modify_deeds (.know rfl rfl rfl rfl rfl rfl rfl)
  | setPublickey key => exact modify_deeds (.know rfl rfl rfl rfl rfl rfl rfl)
  | setSecretkey key => exact modify_deeds (.know rfl rfl rfl rfl rfl rfl rfl)
  | gossipBind => exact gossipStart_deeds
  | gossipConnect => exact gossipStart_deeds
  | start => exact start_deeds
  | stop => exact stop_deeds (Set.mem_univ _)
  | whisper identity content =>
    refine EStateM.wp_bind .. |>.mpr (wp_lookupPeer.mpr ?_)
    cases n.peers.lookup identity with
    | none => exact .refl
    | some p =>
      exact EStateM.wp_mono (peerSend_deeds (sendable_of_not_elects rfl)) (fun _ _ h => h.1)
        fun _ _ h => h
  | shout group content =>
    refine .get (.ite (fun _ => ?_) fun _ => .pure _)
    exact EStateM.wp_mono (groupSend_deeds (sendable_of_not_elects rfl)) (fun _ _ h => h.1)
      fun _ _ h => h
  | join group =>
    refine .get (.ite (fun _ => .bind (modify_deeds ?_) fun _ n₁ _ => .get ?_) fun _ => .pure _)
    · exact .regroup _ _ rfl
    · exact sendPeers_deeds (sendable_of_not_elects rfl)
  | leave group =>
    refine .get (.ite (fun _ => .bind (modify_deeds ?_) fun _ n₁ _ => .get ?_) fun _ => .pure _)
    · exact .regroup n.ownGroups _ rfl
    · refine .bind (sendPeers_deeds (sendable_of_not_elects rfl)) fun _ n₂ _ => modify_deeds ?_
      exact .regroup _ n₂.status rfl
  | requirePeer uuid endpoint publicKey =>
    refine .get (.ite (fun _ => .bind ?_ fun _ _ _ => .pure _) fun _ => .pure _)
    exact requirePeer_deeds (Set.mem_univ _) fun _ => Set.mem_univ _
  | peerName identity =>
    refine EStateM.wp_bind .. |>.mpr (wp_lookupPeer.mpr ?_)
    exact wp_assert.mpr ⟨fun _ => .refl, fun _ => ⟨.refl, trivial⟩⟩

/-- `zyre_node_ping_peer`, which may remove the peer it looks at. -/
theorem pingPeer_deeds (h : Resumable (timeScope groups) n) :
    (pingPeer env r).Leads (Deeds (timeScope groups)) n := by
  refine leads_readPeer fun p _ => .ite (fun _ => removePeer_timely h) fun _ => .ite (fun _ => ?_)
    fun _ => .pure _
  refine .bind (EStateM.wp_mono (peerSend_deeds (sendable_of_not_elects rfl)) (fun _ _ h => h.1)
    fun _ _ h => h) fun _ n₁ _ => .bind (emit_deeds (Set.mem_univ _) rfl) fun _ n₂ _ => .get ?_
  exact .ite (fun _ => emit_deeds (Set.mem_univ _) rfl) fun _ => .pure _

/-- Every iteration of the actor loop is a sequence of deeds within the scope of its input. -/
theorem step_deeds {input : Input}
    (hresumable : (∀ command, input ≠ .api command) → Resumable (inputScope groups n input) n)
    (hgroups : ∀ frames uuid, input = .inbox frames → senderOf frames = some uuid →
      Takes env n uuid.str (Msg.recv frames).msg → ∀ name, Engages n (Msg.recv frames).msg name →
        name ∈ groups) :
    (Node.step env input).Leads (Deeds (inputScope groups n input)) n := by
  cases input with
  | inbox frames =>
    simp only [Node.step, inputScope] at hresumable ⊢
    cases hsender : senderOf frames with
    | none => rw [recvPeer_of_none hsender]; exact .pure _
    | some uuid =>
      rw [recvPeer_of_sender hsender]
      rw [hsender] at hresumable
      exact recvMsg_leads (hresumable fun _ h => by cases h) (hgroups frames uuid rfl hsender)
  | api command => exact recvApi_deeds command
  | beacon ipaddress frame publicKey =>
    refine .get (.ite (fun _ => .pure _) fun _ => .ite (fun _ => .pure _) fun _ => .ite (fun _ => ?_)
      fun _ => ?_)
    · exact .bind (requirePeer_deeds (Set.mem_univ _) fun _ => Set.mem_univ _) fun _ _ _ => .pure _
    · refine EStateM.wp_bind .. |>.mpr (wp_lookupPeer.mpr ?_)
      cases n.peers.lookup (beaconUuid frame).str with
      | none => exact .refl
      | some p => exact removePeer_timely (hresumable fun _ h => by cases h)
  | gossip uuid service =>
    refine .get (.ite (fun _ => ?_) fun _ => .pure _)
    exact .bind (requirePeer_deeds (Set.mem_univ _) fun _ => Set.mem_univ _) fun _ _ _ => .pure _
  | reap visited =>
    refine .forM fun X _ n₁ hn₁ => EStateM.wp_bind .. |>.mpr (wp_lookupPeer.mpr ?_)
    cases n₁.peers.lookup X with
    | none => exact .refl
    | some p => exact pingPeer_deeds ((hresumable fun _ h => by cases h).deeds hn₁)

/-- It is one whatever groups its elections are in. -/
theorem step_leads (env : Env) (input : Input) :
    (Node.step env input).Leads (Deeds (inputScope Set.univ n input)) n := by
  refine step_deeds (fun hapi n' _ name _ _ _ => ?_) fun _ _ _ _ _ _ _ => trivial
  rw [(inputScope_of_ne_api hapi).1]
  trivial

/-- **Whatever the input**, and whether the step returned or was stopped half way, it did no more than the
scope of the input allows. -/
theorem Leaves.deeds {input : Input} (h : Leaves (Node.step env input) n n') :
    Deeds (inputScope Set.univ n input) n n' :=
  h.of_wp (P := Deeds (inputScope Set.univ n input) n)
    (EStateM.wp_mono (step_leads env input) (fun _ _ h => h) fun _ _ h => h.1)

end Node

end Zyre
