import Zyre.Node.Soundness

/-!
# What an input lets a node do

`Deed S` is one thing a node does while it handles an input, as far as the input entitles it: `S` is the
`Scope` of the input, which says whose entries it may touch, in which groups the node may take part in
an election, and what it may have heard of one. Every program is a sequence of deeds (`Deeds`), with
messages and events as they are sent and told, so that what no deed within a scope does no handler does.
-/

namespace Zyre

/-- The peer an event names, or the node itself. -/
def Event.identity : Event → CStr
  | .enter identity .. | .evasive identity _ | .silent identity _ | .exit identity _ |
    .join identity .. | .leave identity .. | .whisper identity .. | .shout identity .. |
    .leader identity .. | .stop identity _ => identity

/-- The event tells of a leader. -/
def Event.elects : Event → Bool
  | .leader .. => true
  | _ => false

/-- The message belongs to an election. -/
def MsgId.elects : MsgId → Bool
  | .elect | .leader => true
  | _ => false

/-- What an input entitles a node to: the peers it is about, the endpoints it may require a new peer at,
the groups in which the node may take part in an election, the messages of an election it hands over,
the groups it makes contested, and whether it changes the node's own groups. -/
structure Scope where
  about : Set CStr
  greets : Set CStr
  groups : Set CStr
  hears : Msg → Prop
  contests : Set CStr
  regroups : Prop

/-- The event is one a scope allows: it is about a peer of the scope, or it tells of a leader in one of
its groups. -/
def Scope.Tells (S : Scope) (e : Event) : Prop :=
  e.elects = false ∧ e.identity ∈ S.about ∨
    ∃ identity leaderName, ∃ name ∈ S.groups, e = .leader identity leaderName name

/-- An ELECT or LEADER is sent in one of the groups of the scope. -/
def Scope.Sends (S : Scope) (msg : Msg) : Prop :=
  msg.id.elects = true → ∃ name ∈ S.groups, msg.group = name.truncate Msg.fieldSize

/-- A message of an election of the group is handed over. -/
def Scope.HearsOf (S : Scope) (name : CStr) : Prop := ∃ msg, S.hears msg ∧ msg.group = name

namespace Node

variable {S : Scope} {n n' : Node} {r : PeerRef} {p : Peer} {X name : CStr} {msg : Msg}

/-- An election of the group is running, or one has found its leader. -/
def Elective (n : Node) (name : CStr) : Prop :=
  ((n.peerGroups.lookup name).getD .new).election.isSome ∨
    ((n.peerGroups.lookup name).getD .new).leader.isSome

/-- The message is ELECT or LEADER with the wave the node is in. -/
def Waves (n : Node) (name : CStr) (msg : Msg) : Prop :=
  ∃ g e caw, n.peerGroups.lookup name = some g ∧ g.election = some e ∧ e.caw = some caw ∧
    (msg = ((Msg.new .elect).setChallengerId caw).setGroup name ∨
      msg = ((Msg.new .leader).setLeaderId caw).setGroup name)

/-- One thing a node does. -/
inductive Deed (S : Scope) (n : Node) : Node → Prop
  | send (r : PeerRef) (p : Peer) (msg : Msg) (hr : n.deref r = some p)
      (hid : msg.id.elects = false) : Deed S n (n.posted r p msg)
  | pass (r : PeerRef) (p : Peer) (msg : Msg) (name : CStr) (hr : n.deref r = some p)
      (hname : name ∈ S.groups) (hwave : Waves n name msg) : Deed S n (n.posted r p msg)
  | peer (X : CStr) (f : Peer → Peer) (hX : X ∈ S.about) :
      Deed S n { n with peers := n.peers.modify X f }
  | join (name : CStr) (r : PeerRef) (hr : r.identity ∈ S.about) :
      Deed S n { n with peerGroups := n.peerGroups.modify name (·.join r) }
  | leave (name : CStr) (r : PeerRef) (hr : r.identity ∈ S.about) :
      Deed S n { n with peerGroups := n.peerGroups.modify name (·.leave r) }
  | addGroup (name : CStr) : Deed S n { n with peerGroups := n.peerGroups.insertNew name .new }
  | start (name : CStr) (hname : name ∈ S.groups) (hcontest : n.contested name = true) :
      Deed S n { n with peerGroups := n.peerGroups.modify name fun g =>
        { g with election := some (Election.new.setCaw n.identity) } }
  | follow (r : PeerRef) (msg : Msg) (hmsg : S.hears msg) (hid : msg.id = .elect)
      (hname : msg.group ∈ S.groups) :
      Deed S n { n with peerGroups := n.peerGroups.modify msg.group fun g =>
        { g with election := some ((Election.new.setCaw msg.challengerId).setFather r) } }
  | count (name : CStr) (f : Group → Option Election)
      (hf : ∀ g, n.peerGroups.lookup name = some g → ∀ e, f g = some e → ∀ caw, e.caw = some caw →
        ∃ e₀, g.election = some e₀ ∧ e₀.caw = some caw)
      (hsome : ∀ g, (f g).isSome → g.election.isSome ∨ S.HearsOf name) :
      Deed S n { n with peerGroups := n.peerGroups.modify name fun g => { g with election := f g } }
  | setLeader (name : CStr) (leader : Option PeerRef) (hleader : leader.isSome → S.HearsOf name) :
      Deed S n { n with peerGroups := n.peerGroups.modify name fun g => { g with leader := leader } }
  | contest (name : CStr) (hname : name ∈ S.contests) :
      Deed S n { n with
        peerGroups := n.peerGroups.modify name fun g => { g with contest := true } }
  | tell (e : Event) (hX : e.identity ∈ S.about) (he : e.elects = false) :
      Deed S n { n with outbox := n.outbox ++ [e] }
  | alone (name : CStr) (hname : name ∈ S.groups) (hcontest : n.contested name = true) :
      Deed S n { n with outbox := n.outbox ++ [.leader n.identity n.name name] }
  | elect (msg : Msg) (leaderName : CStr) (hmsg : S.hears msg) (hid : msg.id = .leader)
      (hname : msg.group ∈ S.groups) :
      Deed S n { n with outbox := n.outbox ++ [.leader msg.leaderId leaderName msg.group] }
  | remove (X : CStr) (hX : X ∈ S.about) : Deed S n { n with peers := n.peers.erase X }
  | greet (env : Env) (X endpoint : CStr) (key : Option CStr) (hX : X ∈ S.about)
      (hgreets : endpoint ∈ S.greets) (hnew : n.peers.lookup X = none) :
      Deed S n (greeting env n X endpoint key)
  | enroll (X endpoint : CStr) (p : Peer) (hX : X ∈ S.about) (hgreets : endpoint ∈ S.greets) :
      Deed S n ((n.purged endpoint).opening X p [])
  | refuse (endpoint : CStr) (hgreets : endpoint ∈ S.greets) :
      Deed S n { n.purged endpoint with serial := n.serial + 1 }
  | know {n' : Node} (hpeers : n'.peers = n.peers) (hgroups : n'.peerGroups = n.peerGroups)
      (hserial : n'.serial = n.serial) (houtbox : n'.outbox = n.outbox) (hmail : n'.mail = n.mail)
      (huuid : n'.uuid = n.uuid) (hown : n'.ownGroups = n.ownGroups) : Deed S n n'
  | regroup (own : List CStr) (status : UInt8) (h : S.regroups) :
      Deed S n { n with ownGroups := own, status := status }

/-- Any number of deeds. -/
abbrev Deeds (S : Scope) : Node → Node → Prop := Relation.ReflTransGen (Deed S)

/-- What every deed keeps, deeds keep. -/
theorem Deeds.invariant {I : Node → Prop} (hstep : ∀ n n', Deed S n n' → I n → I n')
    (h : Deeds S n n') (hn : I n) : I n' := by
  induction h with
  | refl => exact hn
  | tail _ hdeed ih => exact hstep _ _ hdeed ih

/-- An election is ended. -/
theorem Deed.clear (name : CStr) : Deed S n { n with
    peerGroups := n.peerGroups.modify name fun g => { g with election := none } } :=
  .count name (fun _ => none) (fun _ _ _ he => nomatch he) fun _ h => nomatch h

/-- Any leader of a group is forgotten. -/
theorem Deed.unseat (name : CStr) : Deed S n { n with
    peerGroups := n.peerGroups.modify name fun g => { g with leader := none } } :=
  .setLeader name none nofun

/-! ### What deeds keep -/

/-- No deed changes the UUID. -/
theorem Deed.uuid (h : Deed S n n') : n'.uuid = n.uuid := by
  cases h with
  | know hpeers hgroups hserial houtbox hmail huuid hown => exact huuid
  | _ => rfl

theorem Deeds.uuid (h : Deeds S n n') : n'.uuid = n.uuid :=
  h.invariant (I := fun m => m.uuid = n.uuid) (fun _ _ h hi => h.uuid.trans hi) rfl

theorem Deeds.identity (h : Deeds S n n') : n'.identity = n.identity :=
  congrArg Uuid.str (Deeds.uuid h)

/-- The own groups change only by JOIN and LEAVE of the application. -/
theorem Deeds.ownGroups (hS : ¬S.regroups) (h : Deeds S n n') : n'.ownGroups = n.ownGroups := by
  refine h.invariant (I := fun m => m.ownGroups = n.ownGroups) (fun m m' h hi => ?_) rfl
  cases h with
  | know hpeers hgroups hserial houtbox hmail huuid hown => exact hown.trans hi
  | regroup own status h => exact absurd h hS
  | _ => exact hi

/-- Only the groups an input makes contested become so, and none ceases to be. -/
theorem Deed.contested (h : Deed S n n') (hname : name ∉ S.contests) :
    n'.contested name = n.contested name := by
  have hkeep : ∀ (name' : CStr) (f : Group → Group), (∀ g, (f g).contest = g.contest) →
      Node.contested { n with peerGroups := n.peerGroups.modify name' f } name = n.contested name :=
    fun name' f hf => congrFun (contested_modify hf) name
  cases h with
  | join name' r hr => exact hkeep name' _ fun _ => rfl
  | leave name' r hr => exact hkeep name' _ fun _ => rfl
  | addGroup name' => exact congrFun contested_insertNew name
  | start name' hname' hcontest => exact hkeep name' _ fun _ => rfl
  | follow r msg hmsg hid hname' => exact hkeep msg.group _ fun _ => rfl
  | count name' f hf hsome => exact hkeep name' _ fun _ => rfl
  | setLeader name' leader hleader => exact hkeep name' _ fun _ => rfl
  | contest name' hname' =>
    have hne : name ≠ name' := fun h => hname (h ▸ hname')
    simp [Node.contested, AList.lookup_modify_ne hne]
  | know hpeers hgroups hserial houtbox hmail huuid hown => simp only [Node.contested, hgroups]
  | _ => rfl

/-- A group is contested only by SET CONTEST. -/
theorem Deeds.contested (h : Deeds S n n') (hname : name ∉ S.contests) :
    n'.contested name = n.contested name :=
  h.invariant (I := fun m => m.contested name = n.contested name)
    (fun _ _ h hi => (h.contested hname).trans hi) rfl

/-- A contested group is in the table. -/
theorem lookup_of_contested (h : n.contested name = true) :
    ∃ g, n.peerGroups.lookup name = some g ∧ g.contest = true := by
  unfold Node.contested at h
  cases hg : n.peerGroups.lookup name with
  | none => simp [hg, Group.new] at h
  | some g => exact ⟨g, rfl, by simpa [hg] using h⟩

/-- The number of entries made only grows. -/
theorem Deed.serial_le (h : Deed S n n') : n.serial ≤ n'.serial := by
  cases h with
  | greet env X endpoint key hX hgreets hnew => exact Nat.le_succ _
  | enroll X endpoint p hX hgreets => exact Nat.le_succ _
  | refuse endpoint hgreets => exact Nat.le_succ _
  | know hpeers hgroups hserial houtbox hmail huuid hown => exact hserial.ge
  | _ => exact le_rfl

/-! ### What deeds send and tell -/

/-- Events are added behind those told, and are within the scope. -/
theorem Deed.outbox (h : Deed S n n') :
    ∃ es, n'.outbox = n.outbox ++ es ∧ ∀ e ∈ es, S.Tells e := by
  have hsame : ∀ {m : Node}, m.outbox = n.outbox →
      ∃ es, m.outbox = n.outbox ++ es ∧ ∀ e ∈ es, S.Tells e := fun h => ⟨[], by simp [h], by simp⟩
  have hone : ∀ e, S.Tells e → ∃ es, n.outbox ++ [e] = n.outbox ++ es ∧ ∀ e ∈ es, S.Tells e :=
    fun e he => ⟨[e], rfl, fun e' he' => List.mem_singleton.mp he' ▸ he⟩
  cases h with
  | tell e hX he => exact hone e (Or.inl ⟨he, hX⟩)
  | alone name hname hcontest => exact hone _ (Or.inr ⟨_, _, name, hname, rfl⟩)
  | elect msg leaderName hmsg hid hname => exact hone _ (Or.inr ⟨_, _, msg.group, hname, rfl⟩)
  | know hpeers hgroups hserial houtbox hmail huuid hown => exact hsame houtbox
  | _ => exact hsame rfl

/-- What every deed appends to a list, deeds append. -/
theorem Deeds.appends {α : Type} {f : Node → List α} {P : α → Prop}
    (hstep : ∀ m m', Deed S m m' → ∃ l, f m' = f m ++ l ∧ ∀ a ∈ l, P a) (h : Deeds S n n') :
    ∃ l, f n' = f n ++ l ∧ ∀ a ∈ l, P a := by
  induction h with
  | refl => exact ⟨[], by simp, by simp⟩
  | tail _ hdeed ih =>
    obtain ⟨l, hl, hP⟩ := ih
    obtain ⟨l', hl', hP'⟩ := hstep _ _ hdeed
    refine ⟨l ++ l', by rw [hl', hl, List.append_assoc], fun a ha => ?_⟩
    rcases List.mem_append.mp ha with ha | ha
    · exact hP a ha
    · exact hP' a ha

/-- All events of a program are. -/
theorem Deeds.outbox (h : Deeds S n n') :
    ∃ es, n'.outbox = n.outbox ++ es ∧ ∀ e ∈ es, S.Tells e :=
  Deeds.appends (fun _ _ h => h.outbox) h

/-- Messages are added behind those sent, and are within the scope. -/
theorem Deed.mail (h : Deed S n n') :
    ∃ ms, n'.mail = n.mail ++ ms ∧ ∀ m ∈ ms, S.Sends m.2 := by
  have hsame : ∀ {m : Node}, m.mail = n.mail →
      ∃ ms, m.mail = n.mail ++ ms ∧ ∀ m ∈ ms, S.Sends m.2 := fun h => ⟨[], by simp [h], by simp⟩
  have hone : ∀ m, S.Sends m.2 → ∃ ms, n.mail ++ [m] = n.mail ++ ms ∧ ∀ m ∈ ms, S.Sends m.2 :=
    fun m hm => ⟨[m], rfl, fun m' hm' => List.mem_singleton.mp hm' ▸ hm⟩
  cases h with
  | send r p msg hr hid => exact hone _ fun h => nomatch hid.symm.trans h
  | pass r p msg name hr hname hwave =>
    obtain ⟨g, e, caw, hg, he, hcaw, rfl | rfl⟩ := hwave
    · exact hone _ fun _ => ⟨name, hname, rfl⟩
    · exact hone _ fun _ => ⟨name, hname, rfl⟩
  | greet env X endpoint key hX hgreets hnew =>
    refine hone _ fun h => ?_
    simp [MsgId.elects] at h
  | enroll X endpoint p hX hgreets => exact hsame (List.append_nil _)
  | know hpeers hgroups hserial houtbox hmail huuid hown => exact hsame hmail
  | _ => exact hsame rfl

/-- All messages of a program are. -/
theorem Deeds.mail (h : Deeds S n n') :
    ∃ ms, n'.mail = n.mail ++ ms ∧ ∀ m ∈ ms, S.Sends m.2 :=
  Deeds.appends (fun _ _ h => h.mail) h

/-! ### Sending -/

/-- To send this message to any peer is a deed, as long as the groups stay. -/
def Sendable (S : Scope) (n : Node) (msg : Msg) : Prop :=
  ∀ n', n'.peerGroups = n.peerGroups → ∀ r p, n'.deref r = some p → Deed S n' (n'.posted r p msg)

/-- A message other than ELECT and LEADER may be sent to whom it is meant for. -/
theorem sendable_of_not_elects (h : msg.id.elects = false) : Sendable S n msg :=
  fun _ _ r p hr => .send r p msg hr h

/-- A ballot may be sent if its group is in the scope. -/
theorem Waves.sendable (h : Waves n name msg) (hname : name ∈ S.groups) : Sendable S n msg := by
  intro n' hgroups r p hr
  obtain ⟨g, e, caw, hg, hwave⟩ := h
  exact .pass r p msg name hr hname ⟨g, e, caw, hgroups ▸ hg, hwave⟩

/-- A message to one peer; no group changes, which the next message to the group needs. -/
theorem peerSend_deeds (h : Sendable S n msg) :
    (peerSend r msg).wp (fun _ n' => Deeds S n n' ∧ n'.peerGroups = n.peerGroups)
      (fun _ n' => Deeds S n n' ∧ True) n :=
  wp_peerSend.mpr ⟨fun p hp _ => ⟨.single (h n rfl r p hp), rfl⟩, fun _ _ _ => ⟨.refl, rfl⟩,
    fun _ => ⟨.refl, trivial⟩⟩

/-- A loop whose rounds send the message at most. -/
theorem forM_deeds {α : Type} {l : List α} {f : α → NodeM Unit}
    (h : ∀ a ∈ l, ∀ n', n'.peerGroups = n.peerGroups → (f a).wp
      (fun _ n'' => Deeds S n' n'' ∧ n''.peerGroups = n'.peerGroups)
      (fun _ n'' => Deeds S n' n'' ∧ True) n') :
    (forM l f : NodeM Unit).wp (fun _ n' => Deeds S n n' ∧ n'.peerGroups = n.peerGroups)
      (fun _ n' => Deeds S n n' ∧ True) n := by
  refine EStateM.wp_forM (fun n' => Deeds S n n' ∧ n'.peerGroups = n.peerGroups) ⟨.refl, rfl⟩
    ?_ fun _ h => h
  rintro a ha n' ⟨hn', hgroups⟩
  refine EStateM.wp_mono (h a ha n' hgroups) (fun _ n'' h => ?_) fun _ _ h => ⟨hn'.trans h.1, trivial⟩
  exact ⟨hn'.trans h.1, h.2.trans hgroups⟩

/-- Whether a ballot may be sent depends on the groups alone. -/
theorem Sendable.congr (h : Sendable S n msg) (hgroups : n'.peerGroups = n.peerGroups) :
    Sendable S n' msg := fun m hm => h m (hm.trans hgroups)

/-- A message to the members of a group. -/
theorem groupSend_deeds (h : Sendable S n msg) :
    (groupSend name msg).wp (fun _ n' => Deeds S n n' ∧ n'.peerGroups = n.peerGroups)
      (fun _ n' => Deeds S n n' ∧ True) n :=
  EStateM.wp_bind .. |>.mpr (wp_getGroup.mpr (forM_deeds fun _ _ _ hgroups =>
    peerSend_deeds (h.congr hgroups)))

/-- A message to all peers. -/
theorem sendPeers_deeds (h : Sendable S n msg) : (sendPeers msg).Leads (Deeds S) n :=
  .get (EStateM.wp_mono (forM_deeds fun _ _ _ hgroups => peerSend_deeds (h.congr hgroups))
    (fun _ _ h => h.1) fun _ _ h => h)

/-! ### Primitives -/

/-- A peer that is read is there, or the program stops. -/
theorem leads_readPeer {α : Type} {f : Peer → NodeM α}
    (h : ∀ p, n.deref r = some p → (f p).Leads (Deeds S) n) :
    (readPeer r >>= f).Leads (Deeds S) n :=
  EStateM.wp_bind .. |>.mpr (wp_readPeer.mpr ⟨h, fun _ => ⟨.refl, trivial⟩⟩)

/-- Behind an assertion it holds. -/
theorem leads_assert {α : Type} {c : Bool} {f : Unit → NodeM α}
    (h : c = true → (f ⟨⟩).Leads (Deeds S) n) : (assert c >>= f).Leads (Deeds S) n :=
  EStateM.wp_bind .. |>.mpr (wp_assert.mpr ⟨h, fun _ => ⟨.refl, trivial⟩⟩)

/-- What is changed is an entry the scope is about. -/
theorem modifyPeer_deeds {f : Peer → Peer} (hr : r.identity ∈ S.about) :
    (modifyPeer r f).Leads (Deeds S) n :=
  wp_modifyPeer.mpr ⟨fun _ _ => .single (.peer _ f hr), fun _ => ⟨.refl, trivial⟩⟩

/-- An event is about a peer of the scope. -/
theorem emit_deeds {e : Event} (hX : e.identity ∈ S.about) (he : e.elects = false) :
    (emit e).Leads (Deeds S) n :=
  Relation.ReflTransGen.single (.tell e hX he)

/-- A group that is made is as one that is not known. -/
theorem requirePeerGroup_deeds : (requirePeerGroup name).Leads (Deeds S) n :=
  Relation.ReflTransGen.single (.addGroup name)

/-- An election may be ended. -/
theorem clearElection_deeds : (setElection name none).Leads (Deeds S) n :=
  Relation.ReflTransGen.single (.clear name)

/-! ### Groups -/

/-- A peer of the scope joins. -/
theorem groupJoin_deeds (hr : r.identity ∈ S.about) : (groupJoin name r).Leads (Deeds S) n :=
  .bind (show EStateM.Leads _ (modifyGroup name (·.join r)) n from .single (.join name r hr))
    fun _ _ _ => modifyPeer_deeds hr

/-- A peer of the scope leaves. -/
theorem groupLeave_deeds (hr : r.identity ∈ S.about) : (groupLeave name r).Leads (Deeds S) n :=
  .bind (show EStateM.Leads _ (modifyGroup name (·.leave r)) n from .single (.leave name r hr))
    fun _ _ _ => modifyPeer_deeds hr

/-- A peer of the scope joins, and JOIN is told. -/
theorem joinPeerGroup_deeds (hr : r.identity ∈ S.about) :
    (joinPeerGroup r name).Leads (Deeds S) n :=
  .bind requirePeerGroup_deeds fun _ _ _ => .bind (groupJoin_deeds hr) fun _ _ _ =>
    leads_readPeer fun _ _ => emit_deeds hr rfl

/-- A peer of the scope leaves, and LEAVE is told. -/
theorem leavePeerGroup_deeds (hr : r.identity ∈ S.about) :
    (leavePeerGroup r name).Leads (Deeds S) n :=
  .bind requirePeerGroup_deeds fun _ _ _ => .bind (groupLeave_deeds hr) fun _ _ _ =>
    leads_readPeer fun _ _ => emit_deeds hr rfl

/-! ### Elections -/

/-- An election is started only in a contested group, with the node's own challenge. -/
theorem startElection_deeds (hname : name ∈ S.groups) (hcontest : n.contested name = true) :
    (startElection name).Leads (Deeds S) n := by
  obtain ⟨g, hg, -⟩ := lookup_of_contested hcontest
  set e := Election.new.setCaw n.identity with he
  set n₁ : Node := { n with
    peerGroups := n.peerGroups.modify name fun g => { g with election := some e } } with hn₁
  set n₂ : Node := { n₁ with
    peerGroups := n₁.peerGroups.modify name fun g => { g with leader := none } } with hn₂
  have hwaves : Waves n₂ name (((Msg.new .elect).setChallengerId n.identity).setGroup name) := by
    refine ⟨{ g with election := some e, leader := none }, e, n.identity, ?_, rfl, rfl, Or.inl rfl⟩
    simp [hn₂, hn₁, hg]
  refine .get (.bind_of_wp (.single (.start name hname hcontest)) (wp_setElection.mpr ⟨rfl, ?_⟩))
  refine .bind_of_wp (.single (.unseat name)) (wp_setLeader.mpr ⟨rfl, ?_⟩)
  rw [buildElectMsg_of_caw (e := e) rfl]
  exact .pure_bind (EStateM.wp_mono (groupSend_deeds (hwaves.sendable hname)) (fun _ _ h => h.1)
    fun _ _ h => h)

/-- The node leads alone only in a contested group. -/
theorem leadAlone_deeds (hname : name ∈ S.groups) (hcontest : n.contested name = true) :
    (leadAlone name).Leads (Deeds S) n := by
  set n₁ : Node := { n with
    peerGroups := n.peerGroups.modify name fun g => { g with leader := none } }
  refine .bind_of_wp (show Deeds S n n₁ from .single (.unseat name))
    (wp_setLeader.mpr ⟨rfl, .get (.get ?_)⟩)
  refine Relation.ReflTransGen.single (.alone name hname ?_)
  rw [← hcontest]
  exact congrFun (contested_modify (f := fun g => { g with leader := none }) fun _ => rfl) name

/-- The removal of a peer settles the election of an own group; it starts one anew only where the group is
contested and elective. -/
theorem leaveElection_deeds
    (hname : n.contested name = true → n.Elective name → name ∈ S.groups) :
    (leaveElection r name).Leads (Deeds S) n := by
  have hlook : (n.peerGroups.insertNew name .new).lookup name = _ := lookup_insertNew_self n.peerGroups
  set n₁ : Node := { n with peerGroups := n.peerGroups.insertNew name .new } with hn₁
  refine .bind_of_wp (show Deeds S n n₁ from .single (.addGroup name))
    (wp_requirePeerGroup.mpr ⟨rfl, ?_⟩)
  set g := (n.peerGroups.lookup name).getD .new with hg
  have hgroup : (n₁.peerGroups.lookup name).getD .new = g := by rw [hlook, Option.getD_some]
  show EStateM.Leads _ (if ((n₁.peerGroups.lookup name).getD .new).contest then _ else _ : NodeM Unit) n₁
  rw [hgroup]
  refine .ite (fun hcontest => ?_) fun _ => .pure _
  have hcontest₁ : n₁.contested name = true := by rw [Node.contested, hgroup, hcontest]
  -- The decision is made on the group as it was; the election is cleared first.
  have hrest : ∀ leaderLeft, (leaderLeft = true → g.leader.isSome) → EStateM.Leads (Deeds S)
      (do
        if (g.election.any fun e => !e.lrecComplete g) || leaderLeft then do
          setElection name none
          if g.size = 1 then leadAlone name else startElection name) n₁ := by
    intro leaderLeft hleader
    refine .ite (fun hrestart => ?_) fun _ => .pure _
    have hname : name ∈ S.groups := by
      refine hname hcontest ?_
      rcases Bool.or_eq_true_iff.mp hrestart with h | h
      · obtain ⟨e, he, -⟩ := Option.any_eq_true _ _ |>.mp h
        exact Or.inl (Option.isSome_iff_exists.mpr ⟨e, he⟩)
      · exact Or.inr (hleader h)
    set n₂ : Node := { n₁ with
      peerGroups := n₁.peerGroups.modify name fun g => { g with election := none } }
    have hcontest₂ : n₂.contested name = true := by
      rw [← hcontest₁]
      exact congrFun (contested_modify (f := fun g => { g with election := none }) fun _ => rfl) name
    refine .bind_of_wp (show Deeds S n₁ n₂ from .single (.clear name))
      (wp_setElection.mpr ⟨rfl, .ite (fun _ => ?_) fun _ => ?_⟩)
    · exact leadAlone_deeds hname hcontest₂
    · exact startElection_deeds hname hcontest₂
  cases hleader : g.leader with
  | none => exact .pure_bind (hrest _ fun h => by cases h)
  | some groupLeader => exact leads_readPeer fun _ _ => .pure_bind (hrest _ fun _ => by simp [hleader])

/-! ### Removing and requiring a peer -/

/-- An election a removal would start anew is in a group of the scope. -/
def Resumable (S : Scope) (n : Node) : Prop :=
  ∀ n', Deeds S n n' → ∀ name ∈ n'.ownGroups, n'.contested name = true → n'.Elective name →
    name ∈ S.groups

/-- What is resumable stays so. -/
theorem Resumable.deeds (h : Resumable S n) (hn : Deeds S n n') : Resumable S n' :=
  fun _ hn' => h _ (hn.trans hn')

/-- A removal tells EXIT, and settles the elections of the own groups. -/
theorem removePeer_deeds (hS : ¬S.regroups) (hr : r.identity ∈ S.about) (h : Resumable S n) :
    (removePeer r).Leads (Deeds S) n := by
  refine leads_readPeer fun p _ => .bind (emit_deeds hr rfl) fun _ n₁ hn₁ => .get ?_
  refine .bind (.forM fun name hname n₂ hn₂ => leaveElection_deeds ?_) fun _ n₂ _ => .get ?_
  · refine h n₂ (hn₁.trans hn₂) name ?_
    rw [Deeds.ownGroups hS hn₂]
    exact hname
  · refine .bind (.forM fun name _ _ _ => groupLeave_deeds hr) fun _ n₃ _ => ?_
    exact wp_deletePeer.mpr (.single (.remove _ hr))

variable {env : Env} {uuid : Uuid} {endpoint : CStr} {key : Option CStr}

/-- Discovery makes an entry; the endpoint it greets is in the scope. -/
theorem requirePeer_deeds (hX : uuid.str ∈ S.about)
    (hgreets : n.peers.lookup uuid.str = none → endpoint ∈ S.greets) :
    (requirePeer env uuid endpoint key).Leads (Deeds S) n := by
  cases hnew : n.peers.lookup uuid.str with
  | some p => exact (wp_requirePeer_of_some hnew).mpr .refl
  | none =>
    by_cases hkey : KeyOk env n key
    · refine (wp_requirePeer_of_none hnew hkey).mpr ?_
      split_ifs
      · exact .single (.greet env uuid.str endpoint key hX (hgreets hnew) hnew)
      · exact .single (.refuse endpoint (hgreets hnew))
    · exact wp_requirePeer_of_not_keyOk hnew hkey fun _ q _ _ =>
        ⟨.single (.enroll uuid.str endpoint q hX (hgreets hnew)), trivial⟩

end Node

end Zyre
