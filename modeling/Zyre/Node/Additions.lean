import Zyre.Node.Soundness
import Zyre.Node.Deadlines

/-!
# What an iteration adds

Groups come into the table of a node, members into groups, and events on its outbox, one way only: by
what the input of the iteration names. `Act S` is one thing a node does as far as a `Supply` allows it,
and every iteration is a sequence of acts within the supply that is read off the input and the state
before (`step_acts`). Of the events only SHOUT and SILENT are told apart here, the two whose causes the
other modules do not follow, and of the messages those that speak of groups.
-/

namespace Zyre

/-- The event is neither SHOUT nor SILENT. -/
def Event.common : Event → Bool
  | .shout .. | .silent .. => false
  | _ => true

/-- The message speaks of the groups its sender or its receiver is in. -/
def MsgId.speaks : MsgId → Bool
  | .hello | .join | .shout => true
  | _ => false

/-- The groups a message asks its receiver to have. -/
def Msg.mentions (msg : Msg) : List CStr :=
  match msg.id with
  | .hello => msg.groups.getD []
  | .join | .leave | .elect | .leader => [msg.group]
  | _ => []

/-- The groups a message says that its sender is in. -/
def Msg.lists (msg : Msg) : List CStr :=
  match msg.id with
  | .hello => msg.groups.getD []
  | .join => [msg.group]
  | _ => []

/-- HELLO lists groups, and JOIN one. -/
theorem Msg.mem_lists_iff {msg : Msg} {name : CStr} : name ∈ msg.lists ↔
    msg.id = .hello ∧ name ∈ msg.groups.getD [] ∨ msg.id = .join ∧ name = msg.group := by
  unfold Msg.lists
  cases msg.id <;> simp

/-- What the input of an iteration brings: the groups it asks for, the SHOUT and SILENT events it leads to,
who is a member of what by it, the groups the application joins, leaves and sends SHOUT to, and whether it
sets the address of the node. -/
structure Supply where
  groups : Set CStr
  events : Set Event
  members : Set (CStr × CStr)
  joins : Set CStr
  leaves : Set CStr
  shouts : Set CStr
  address : Prop

namespace Node

variable {n n' : Node} {X name : CStr} {r : PeerRef} {p : Peer} {msg : Msg} {env : Env} {uuid : Uuid}
  {endpoint : CStr} {key : Option CStr} {input : Input} {S : Supply} {G : Set CStr} {E : Set Event}

/-! ### Acts -/

/-- What the message says of groups: a JOIN is of a group the application joins, and a SHOUT is to a member
of the group the application sends it to. HELLO is sent in another way. -/
def Says (S : Supply) (n : Node) (r : PeerRef) (msg : Msg) : Prop :=
  match msg.id with
  | .hello => False
  | .join => ∃ name ∈ S.joins, msg.group = name.truncate Msg.fieldSize
  | .shout => ∃ name ∈ S.shouts, ∃ X, (n.members name).lookup X = some r ∧
      msg.group = name.truncate Msg.fieldSize
  | _ => True

/-- One thing a node does. -/
inductive Act (S : Supply) (n : Node) : Node → Prop
  | addGroup (name : CStr) (hname : name ∈ S.groups) :
      Act S n { n with peerGroups := n.peerGroups.insertNew name .new }
  | group (name : CStr) (f : Group → Group) (hf : ∀ g, (f g).peers = g.peers) :
      Act S n { n with peerGroups := n.peerGroups.modify name f }
  | join (name : CStr) (r : PeerRef) (hr : (r.identity, name) ∈ S.members) :
      Act S n { n with peerGroups := n.peerGroups.modify name (·.join r) }
  | leave (name : CStr) (r : PeerRef) :
      Act S n { n with peerGroups := n.peerGroups.modify name (·.leave r) }
  | tell (e : Event) (he : e.common = true ∨ e ∈ S.events) : Act S n { n with outbox := n.outbox ++ [e] }
  | send (r : PeerRef) (p : Peer) (msg : Msg) (hmsg : Says S n r msg) : Act S n (n.posted r p msg)
  | greet (env : Env) (X endpoint : CStr) (key : Option CStr) : Act S n (greeting env n X endpoint key)
  | know {n' : Node} (hgroups : n'.peerGroups = n.peerGroups) (houtbox : n'.outbox = n.outbox)
      (hmail : n'.mail = n.mail) (huuid : n'.uuid = n.uuid) (hown : n'.ownGroups = n.ownGroups)
      (hendpoint : n'.endpoint = n.endpoint) (hadvertised : n'.advertisedEndpoint = n.advertisedEndpoint) :
      Act S n n'
  | move (endpoint : CStr) (advertised : Option CStr) (haddress : S.address) :
      Act S n { n with endpoint := endpoint, advertisedEndpoint := advertised }
  | regroup (own : List CStr) (status : UInt8)
      (hown : ∀ name ∈ own, name ∈ n.ownGroups ∨ name ∈ S.joins)
      (hkept : ∀ name ∈ n.ownGroups, name ∈ own ∨ name ∈ S.leaves) :
      Act S n { n with ownGroups := own, status := status }

/-- Any number of acts. -/
abbrev Acts (S : Supply) : Node → Node → Prop := Relation.ReflTransGen (Act S)

/-- The peers and most of the node's own settings are free to change. -/
theorem Acts.know (hgroups : n'.peerGroups = n.peerGroups) (houtbox : n'.outbox = n.outbox)
    (hmail : n'.mail = n.mail) (huuid : n'.uuid = n.uuid) (hown : n'.ownGroups = n.ownGroups)
    (hendpoint : n'.endpoint = n.endpoint) (hadvertised : n'.advertisedEndpoint = n.advertisedEndpoint) :
    Acts S n n' := .single (.know hgroups houtbox hmail huuid hown hendpoint hadvertised)

/-- No group is new but those in `G`, and no SHOUT or SILENT but those in `E`. -/
def Adds (G : Set CStr) (E : Set Event) (n n' : Node) : Prop :=
  (∀ name ∈ n'.peerGroups, name ∈ n.peerGroups ∨ name ∈ G) ∧
    ∃ es, n'.outbox = n.outbox ++ es ∧ ∀ e ∈ es, e.common = true ∨ e ∈ E

/-- Where no group is made and no event told, nothing is added. -/
theorem Adds.of_keys (hkeys : n'.peerGroups.keys = n.peerGroups.keys) (houtbox : n'.outbox = n.outbox) :
    Adds G E n n' := by
  refine ⟨fun name hname => Or.inl ?_, [], by rw [houtbox, List.append_nil], List.forall_mem_nil _⟩
  exact AList.mem_keys.mpr (hkeys ▸ AList.mem_keys.mp hname)

theorem Adds.trans {n'' : Node} (h : Adds G E n n') (h' : Adds G E n' n'') : Adds G E n n'' := by
  obtain ⟨hgroups, es, hes, htold⟩ := h
  obtain ⟨hgroups', es', hes', htold'⟩ := h'
  refine ⟨fun name hname => ?_, es ++ es', by rw [hes', hes, List.append_assoc], fun e he => ?_⟩
  · rcases hgroups' name hname with hname | hname
    · exact hgroups name hname
    · exact Or.inr hname
  · rcases List.mem_append.mp he with he | he
    · exact htold e he
    · exact htold' e he

/-- Each act adds what it is allowed to. -/
theorem Act.adds (h : Act S n n') : Adds S.groups S.events n n' := by
  cases h with
  | addGroup name hname =>
    refine ⟨fun name' hname' => ?_, [], (List.append_nil _).symm, List.forall_mem_nil _⟩
    rcases AList.mem_insertNew.mp hname' with rfl | h
    · exact Or.inr hname
    · exact Or.inl h
  | group name f hf => exact .of_keys (AList.keys_modify ..) rfl
  | join name r hr => exact .of_keys (AList.keys_modify ..) rfl
  | leave name r => exact .of_keys (AList.keys_modify ..) rfl
  | tell e he => exact ⟨fun _ => Or.inl, [e], rfl, List.forall_mem_singleton.mpr he⟩
  | send r p msg hmsg => exact .of_keys rfl rfl
  | greet env X endpoint key => exact .of_keys rfl rfl
  | know hgroups houtbox hmail huuid hown hendpoint hadvertised =>
    exact .of_keys (congrArg AList.keys hgroups) houtbox
  | move endpoint advertised haddress => exact .of_keys rfl rfl
  | regroup own status hown hkept => exact .of_keys rfl rfl

/-- Acts add only what their supply names. -/
theorem Acts.adds (h : Acts S n n') : Adds S.groups S.events n n' := by
  induction h with
  | refl => exact .of_keys rfl rfl
  | tail _ hact ih => exact ih.trans hact.adds

/-- No act changes the UUID. -/
theorem Act.uuid_eq (h : Act S n n') : n'.uuid = n.uuid := by
  cases h with
  | know hgroups houtbox hmail huuid hown hendpoint hadvertised => exact huuid
  | _ => rfl

/-- The groups the node stays in. -/
theorem Acts.keeps_own (h : Acts S n n') (hname : name ∈ n.ownGroups) (hleaves : name ∉ S.leaves) :
    name ∈ n'.ownGroups := by
  induction h with
  | refl => exact hname
  | tail _ hact ih =>
    cases hact with
    | know hgroups houtbox hmail huuid hown hendpoint hadvertised => exact hown ▸ ih
    | regroup own status hown hkept => exact (hkept name ih).resolve_right hleaves
    | _ => exact ih

/-- Who is a member of a group was one before, or is one by the supply. -/
theorem Acts.members (h : Acts S n n') (hr : (n'.members name).lookup X = some r) :
    (n.members name).lookup X = some r ∨ r.identity = X ∧ (X, name) ∈ S.members := by
  induction h with
  | refl => exact Or.inl hr
  | tail _ hact ih =>
    cases hact with
    | addGroup name' hname' => exact ih (by rwa [members_insertNew] at hr)
    | group name' f hf => exact ih (by rwa [members_modify fun g _ => hf g] at hr)
    | join name' r' hr' =>
      rcases lookup_members_join hr with hr | ⟨rfl, rfl, rfl⟩
      · exact ih hr
      · exact Or.inr ⟨rfl, hr'⟩
    | leave name' r' => exact ih (lookup_members_leave hr)
    | know hgroups houtbox hmail huuid hown hendpoint hadvertised =>
      refine ih ?_
      unfold Node.members at hr ⊢
      rwa [hgroups] at hr
    | _ => exact ih hr

/-- A SHOUT goes to those who are members of its group, by the name that fits the format. -/
theorem Acts.shouts (h : Acts S n n') : ∃ ms, n'.mail = n.mail ++ ms ∧ ∀ m ∈ ms, m.2.id = .shout →
    ∃ name ∈ S.shouts, m.2.group = name.truncate Msg.fieldSize ∧
      ∃ X, (n.members name).lookup X = some m.1 ∨ m.1.identity = X ∧ (X, name) ∈ S.members := by
  induction h with
  | refl => exact ⟨[], (List.append_nil _).symm, List.forall_mem_nil _⟩
  | @tail n₁ n₂ hacts hact ih =>
    obtain ⟨ms, hms, hshouts⟩ := ih
    -- One more message, which is a SHOUT only if it says so of a member.
    have hone : ∀ m : PeerRef × Msg, (m.2.id = .shout → ∃ name ∈ S.shouts, ∃ X,
        (n₁.members name).lookup X = some m.1 ∧ m.2.group = name.truncate Msg.fieldSize) →
        ∀ m' ∈ ms ++ [m], m'.2.id = .shout → ∃ name ∈ S.shouts,
          m'.2.group = name.truncate Msg.fieldSize ∧
            ∃ X, (n.members name).lookup X = some m'.1 ∨ m'.1.identity = X ∧ (X, name) ∈ S.members := by
      intro m hm m' hm' hid
      rcases List.mem_append.mp hm' with hm' | hm'
      · exact hshouts m' hm' hid
      · obtain rfl := List.mem_singleton.mp hm'
        obtain ⟨name, hname, X, hr, hcut⟩ := hm hid
        exact ⟨name, hname, hcut, X, Acts.members hacts hr⟩
    cases hact with
    | send r p msg hmsg =>
      refine ⟨ms ++ [(r, msg.setSequence (p.sentSequence + 1))], by simp only [posted, hms, List.append_assoc],
        hone _ fun hid => ?_⟩
      rw [Msg.setSequence_id] at hid
      unfold Says at hmsg
      rwa [hid] at hmsg
    | greet env X endpoint key =>
      refine ⟨ms ++ [(⟨X, n₁.serial⟩, (helloMsg env n₁).setSequence 1)],
        by simp only [greeting, opening, purged, hms, List.append_assoc], hone _ fun hid => ?_⟩
      rw [Msg.setSequence_id, helloMsg_id] at hid
      cases hid
    | know hgroups houtbox hmail huuid hown hendpoint hadvertised => exact ⟨ms, hmail.trans hms, hshouts⟩
    | _ => exact ⟨ms, hms, hshouts⟩

/-- The endpoint in HELLO depends on the two endpoints of the node alone. -/
theorem helloMsg_endpoint_congr (env : Env) (hendpoint : n'.endpoint = n.endpoint)
    (hadvertised : n'.advertisedEndpoint = n.advertisedEndpoint) :
    (helloMsg env n').endpoint = (helloMsg env n).endpoint := by
  simp only [helloMsg, hendpoint, hadvertised]
  split_ifs <;> rfl

/-- A node keeps its address if nobody sets it, and every HELLO it sends names that address. -/
theorem Acts.hello_endpoint (h : Acts S n n') (haddress : ¬S.address) :
    (n'.endpoint = n.endpoint ∧ n'.advertisedEndpoint = n.advertisedEndpoint) ∧
      ∃ ms, n'.mail = n.mail ++ ms ∧
        ∀ m ∈ ms, m.2.id = .hello → ∃ env, m.2.endpoint = (helloMsg env n).endpoint := by
  induction h with
  | refl => exact ⟨⟨rfl, rfl⟩, [], (List.append_nil _).symm, List.forall_mem_nil _⟩
  | tail _ hact ih =>
    obtain ⟨⟨hendpoint, hadvertised⟩, ms, hms, hhellos⟩ := ih
    cases hact with
    | send r p msg hmsg =>
      refine ⟨⟨hendpoint, hadvertised⟩, ms ++ [(r, msg.setSequence (p.sentSequence + 1))],
        by simp only [posted, hms, List.append_assoc], fun m hm hid => ?_⟩
      rcases List.mem_append.mp hm with hm | hm
      · exact hhellos m hm hid
      · obtain rfl := List.mem_singleton.mp hm
        rw [Msg.setSequence_id] at hid
        unfold Says at hmsg
        rw [hid] at hmsg
        exact hmsg.elim
    | greet env X endpoint key =>
      refine ⟨⟨hendpoint, hadvertised⟩, ms ++ [(⟨X, Node.serial _⟩, (helloMsg env _).setSequence 1)],
        by simp only [greeting, opening, purged, hms, List.append_assoc]; rfl, fun m hm hid => ?_⟩
      rcases List.mem_append.mp hm with hm | hm
      · exact hhellos m hm hid
      · obtain rfl := List.mem_singleton.mp hm
        exact ⟨env, helloMsg_endpoint_congr env hendpoint hadvertised⟩
    | know hgroups houtbox hmail huuid hown hendpoint' hadvertised' =>
      exact ⟨⟨hendpoint'.trans hendpoint, hadvertised'.trans hadvertised⟩, ms, hmail.trans hms, hhellos⟩
    | move endpoint advertised h => exact absurd h haddress
    | _ => exact ⟨⟨hendpoint, hadvertised⟩, ms, hms, hhellos⟩

/-! ### Programs -/

/-- An event is of the common kind or one that is allowed. -/
theorem emit_acts {e : Event} (he : e.common = true ∨ e ∈ S.events) : (emit e).Leads (Acts S) n :=
  Relation.ReflTransGen.single (.tell e he)

/-- A group is made only if it is allowed. -/
theorem requirePeerGroup_acts (hname : name ∈ S.groups) : (requirePeerGroup name).Leads (Acts S) n :=
  Relation.ReflTransGen.single (.addGroup name hname)

/-- A change of a group that keeps its members. -/
theorem modifyGroup_acts {f : Group → Group} (hf : ∀ g, (f g).peers = g.peers) :
    (modifyGroup name f).Leads (Acts S) n :=
  Relation.ReflTransGen.single (.group name f hf)

theorem setElection_acts {election : Option Election} : (setElection name election).Leads (Acts S) n :=
  modifyGroup_acts fun _ => rfl

theorem setLeader_acts {leader : Option PeerRef} : (setLeader name leader).Leads (Acts S) n :=
  modifyGroup_acts fun _ => rfl

theorem requireElection_acts : (modifyGroup name (·.requireElection)).Leads (Acts S) n :=
  modifyGroup_acts fun g => by cases he : g.election <;> simp [Group.requireElection, he]

/-- A peer that is read is there. -/
theorem readPeer_acts {α : Type} {f : Peer → NodeM α}
    (h : ∀ p, n.deref r = some p → (f p).Leads (Acts S) n) : (readPeer r >>= f).Leads (Acts S) n :=
  keeps_readPeer h fun _ => trivial

theorem assert_acts {α : Type} {c : Bool} {f : Unit → NodeM α} (h : (f ⟨⟩).Leads (Acts S) n) :
    (assert c >>= f).Leads (Acts S) n :=
  keeps_assert (fun _ => h) fun _ => trivial

theorem modifyPeer_acts {f : Peer → Peer} : (modifyPeer r f).Leads (Acts S) n :=
  wp_modifyPeer.mpr ⟨fun _ _ => .know rfl rfl rfl rfl rfl rfl rfl, fun _ => ⟨.refl, trivial⟩⟩

theorem modify_acts {f : Node → Node} (h : Acts S n (f n)) : (modify f : NodeM Unit).Leads (Acts S) n := h

/-! ### Sending -/

/-- Only the commands that carry something of the node's own are checked. -/
theorem says_of_id (h : msg.id.speaks = false) : Says S n r msg := by
  unfold Says
  split
  case h_4 => trivial
  all_goals
    rename_i hid
    rw [hid] at h
    cases h

theorem peerSend_acts (h : Says S n r msg) : (peerSend r msg).Leads (Acts S) n :=
  wp_peerSend.mpr ⟨fun p _ _ => .single (.send r p msg h), fun _ _ _ => .refl, fun _ => ⟨.refl, trivial⟩⟩

/-- A message to several peers, which leaves the groups as they are. -/
theorem forM_peerSend_acts {α : Type} {es : List α} {f : α → PeerRef}
    (h : ∀ e ∈ es, ∀ n', n'.peerGroups = n.peerGroups → Says S n' (f e) msg) :
    (forM es fun e => peerSend (f e) msg : NodeM Unit).Leads (Acts S) n := by
  refine EStateM.wp_forM (fun n' => Acts S n n' ∧ n'.peerGroups = n.peerGroups) ⟨.refl, rfl⟩ ?_
    fun _ h => h.1
  rintro e he n' ⟨hacts, hgroups⟩
  refine wp_peerSend.mpr ⟨fun p _ _ => ⟨hacts.tail (.send _ p msg (h e he n' hgroups)), hgroups⟩,
    fun _ _ _ => ⟨hacts, hgroups⟩, fun _ => ⟨hacts, trivial⟩⟩

theorem groupSend_acts (h : msg.id.speaks = false) : (groupSend name msg).Leads (Acts S) n :=
  keeps_getGroup (forM_peerSend_acts fun _ _ _ _ => says_of_id h)

/-- What is sent to all peers may be said to each of them. -/
theorem sendPeers_acts (h : ∀ n' r, Says S n' r msg) : (sendPeers msg).Leads (Acts S) n :=
  .get (forM_peerSend_acts fun _ _ n' _ => h n' _)

/-! ### Elections -/

/-- An election that is started sends ELECT to the members of the group. -/
theorem startElection_acts : (startElection name).Leads (Acts S) n := by
  refine .get (.bind setElection_acts fun _ n₁ _ => .bind setLeader_acts fun _ n₂ _ => ?_)
  exact .pure_bind (groupSend_acts rfl)

/-- A node that leads alone tells so, which is a common event. -/
theorem leadAlone_acts : (leadAlone name).Leads (Acts S) n :=
  .bind setLeader_acts fun _ _ _ => .get (.get (emit_acts (Or.inl rfl)))

/-- A group somebody has left is settled. -/
theorem settle_acts {c : Prop} [Decidable c] :
    (do setElection name none
        if c then leadAlone name else startElection name : NodeM Unit).Leads (Acts S) n :=
  .bind setElection_acts fun _ _ _ => .ite (fun _ => leadAlone_acts) fun _ => startElection_acts

/-- What the removal of a peer does to one of the node's own groups. -/
theorem leaveElection_acts (hname : name ∈ S.groups) : (leaveElection r name).Leads (Acts S) n := by
  have hgroup : Acts S n { n with peerGroups := n.peerGroups.insertNew name .new } :=
    .single (.addGroup name hname)
  refine leaveElection_wp rfl rfl (fun _ => ?_) (fun _ => hgroup) fun _ => ⟨hgroup, trivial⟩
  exact EStateM.Keeps.after hgroup settle_acts

theorem groupLeave_acts : (groupLeave name r).Leads (Acts S) n :=
  .bind (Relation.ReflTransGen.single (.leave name r)) fun _ _ _ => modifyPeer_acts

/-- A removal requires every own group. -/
theorem removePeer_acts (hown : ∀ name ∈ n.ownGroups, name ∈ S.groups) :
    (removePeer r).Leads (Acts S) n := by
  refine readPeer_acts fun p _ => .bind_of_wp (show Acts S n
    { n with outbox := n.outbox ++ [.exit r.identity p.nameStr] } from emit_acts (Or.inl rfl))
    (wp_emit.mpr ⟨rfl, .get (.bind (.forM fun name hname _ _ => ?_) fun _ n₁ _ => .get ?_)⟩)
  · exact leaveElection_acts (hown name hname)
  · exact .bind (.forM fun _ _ _ _ => groupLeave_acts) fun _ n₂ _ => Acts.know rfl rfl rfl rfl rfl rfl rfl

/-! ### Joining and leaving -/

/-- Joining a group makes it, and its member. -/
theorem joinPeerGroup_acts (hname : name ∈ S.groups) (hr : (r.identity, name) ∈ S.members) :
    (joinPeerGroup r name).Leads (Acts S) n := by
  have hjoin : ∀ n : Node, (groupJoin name r).Leads (Acts S) n := fun n =>
    .bind (Relation.ReflTransGen.single (.join name r hr)) fun _ _ _ => modifyPeer_acts
  exact .bind (requirePeerGroup_acts hname) fun _ n₁ _ => .bind (hjoin n₁) fun _ _ _ =>
    readPeer_acts fun _ _ => emit_acts (Or.inl rfl)

/-- Leaving a group makes it, if it was not known. -/
theorem leavePeerGroup_acts (hname : name ∈ S.groups) : (leavePeerGroup r name).Leads (Acts S) n :=
  .bind (requirePeerGroup_acts hname) fun _ _ _ => .bind groupLeave_acts fun _ _ _ =>
    readPeer_acts fun _ _ => emit_acts (Or.inl rfl)

/-- Discovery makes no group; the HELLO it sends has the node's endpoint and groups. -/
theorem requirePeer_acts : (requirePeer env uuid endpoint key).Leads (Acts S) n := by
  cases hnew : n.peers.lookup uuid.str with
  | some p => exact (wp_requirePeer_of_some hnew).mpr .refl
  | none =>
    by_cases hkey : KeyOk env n key
    · rw [EStateM.Leads, EStateM.Keeps, wp_requirePeer_of_none hnew hkey]
      split_ifs
      · exact .single (.greet env uuid.str endpoint key)
      · exact .know rfl rfl rfl rfl rfl rfl rfl
    · refine wp_requirePeer_of_not_keyOk hnew hkey fun _ _ _ _ => ⟨?_, trivial⟩
      exact .know rfl rfl (List.append_nil _) rfl rfl rfl rfl

/-! ### The gate -/

/-- An entry that is taken up makes no group. -/
theorem helloAdmit_acts : (helloAdmit env uuid msg).Leads (Acts S) n := by
  have hrequire : (helloRequire env uuid msg).Leads (Acts S) n :=
    wp_helloRequire (fun _ => requirePeer_acts) .refl ⟨.refl, trivial⟩ ⟨.refl, trivial⟩
  refine .bind hrequire fun o n₁ _ => ?_
  cases o with
  | none => exact .pure _
  | some r => exact .bind modifyPeer_acts fun _ _ _ => .pure _

/-- The gate adds the node's own groups if it removes the sender. -/
theorem helloGate_acts (hid : msg.id = .hello)
    (hremoves : Removes env n uuid.str msg → ∀ name ∈ n.ownGroups, name ∈ S.groups) :
    (helloGate env uuid msg).Leads (Acts S) n := by
  refine keeps_lookupPeer ?_
  cases hlook : n.peers.lookup uuid.str with
  | none => exact helloAdmit_acts
  | some p =>
    refine readPeer_acts fun q hq => .ite (fun hready => ?_) fun _ => .get (.ite (fun _ => .pure _)
      fun _ => helloAdmit_acts)
    obtain rfl := Option.some_inj.mp ((deref_of_lookup hlook).symm.trans hq)
    refine .bind (removePeer_acts (hremoves ?_)) fun _ n₁ _ => keeps_lookupPeer (assert_acts ?_)
    · rw [Removes, if_pos hid]
      exact Or.inl ⟨p, hlook, hready⟩
    · exact helloAdmit_acts

/-! ### The commands -/

/-- HELLO joins the groups it lists. -/
theorem recvHello_acts (hgroups : ∀ name ∈ msg.groups.getD [], name ∈ S.groups)
    (hmembers : ∀ name ∈ msg.groups.getD [], (r.identity, name) ∈ S.members) :
    (recvHello r msg).Leads (Acts S) n := by
  refine .bind modifyPeer_acts fun _ n₁ _ => .bind (emit_acts (Or.inl rfl)) fun _ n₂ _ => ?_
  cases hmsg : msg.groups with
  | none => exact .throw _ trivial
  | some groups =>
    rw [hmsg] at hgroups hmembers
    refine .bind (.forM fun name hname n₃ _ => ?_) fun _ n₃ _ => modifyPeer_acts
    refine .bind (joinPeerGroup_acts (hgroups name hname) (hmembers name hname)) fun _ n₄ _ =>
      keeps_getGroup ?_
    exact .ite (fun _ => startElection_acts) fun _ => .pure _

/-- JOIN joins the group it names. -/
theorem recvJoin_acts (hgroup : msg.group ∈ S.groups) (hmember : (r.identity, msg.group) ∈ S.members) :
    (recvJoin r msg).Leads (Acts S) n := by
  refine .bind (joinPeerGroup_acts hgroup hmember) fun _ n₁ _ => readPeer_acts fun _ _ =>
    assert_acts (.get ?_)
  refine .ite (fun _ => keeps_getGroup ?_) fun _ => .pure _
  exact .ite (fun _ => startElection_acts) fun _ => .pure _

/-- LEAVE requires the group it names. -/
theorem recvLeave_acts (hgroup : msg.group ∈ S.groups) : (recvLeave r msg).Leads (Acts S) n := by
  refine .bind (leavePeerGroup_acts hgroup) fun _ n₁ _ => readPeer_acts fun _ _ => assert_acts (.get ?_)
  refine .ite (fun _ => keeps_getGroup (.ite (fun _ => ?_) fun _ => .pure _)) fun _ => .pure _
  cases ((n₁.peerGroups.lookup msg.group).getD .new).leader with
  | none => exact .pure _
  | some groupLeader =>
    refine readPeer_acts fun _ _ => .ite (fun _ => .bind setElection_acts fun _ n₂ _ => ?_)
      fun _ => .pure _
    exact .ite (fun _ => leadAlone_acts) fun _ => startElection_acts

theorem buildElectMsg_acts {α : Type} {e : Election} {f : Msg → NodeM α}
    (h : ∀ m, m.id.speaks = false → (f m).Leads (Acts S) n) : (buildElectMsg e name >>= f).Leads (Acts S) n := by
  rw [buildElectMsg]
  cases e.caw with
  | none => exact EStateM.Keeps.throw _ trivial
  | some caw => exact .pure_bind (h _ rfl)

theorem buildLeaderMsg_acts {α : Type} {e : Election} {f : Msg → NodeM α}
    (h : ∀ m, m.id.speaks = false → (f m).Leads (Acts S) n) :
    (buildLeaderMsg e name >>= f).Leads (Acts S) n := by
  rw [buildLeaderMsg]
  cases e.caw with
  | none => exact EStateM.Keeps.throw _ trivial
  | some caw => exact .pure_bind (h _ rfl)

/-- ELECT is passed on to the members of the group. -/
theorem followChallenger_acts : (followChallenger r msg).Leads (Acts S) n := by
  refine .bind (modifyGroup_acts fun _ => rfl) fun _ n₁ _ => buildElectMsg_acts fun m hm =>
    keeps_getGroup ?_
  refine .forM fun Y _ n₂ _ => .ite (fun _ => keeps_lookupPeer ?_) fun _ => .pure _
  cases n₂.peers.lookup Y with
  | none => exact .throw _ trivial
  | some p => exact peerSend_acts (says_of_id hm)

/-- ELECT is answered, or LEADER is told to the members. -/
theorem supportChallenger_acts {e : Election} : (supportChallenger msg e).Leads (Acts S) n := by
  refine .bind setElection_acts fun _ n₁ _ => keeps_getGroup (.ite (fun _ => .get ?_) fun _ => .pure _)
  refine .ite (fun _ => buildLeaderMsg_acts fun m hm => ?_) fun _ => buildElectMsg_acts fun m hm => ?_
  · exact groupSend_acts hm
  · cases e.incrementErec.father with
    | none => exact .throw _ trivial
    | some father => exact peerSend_acts (says_of_id hm)

/-- ELECT requires the group it names. -/
theorem recvElect_acts (hgroup : msg.group ∈ S.groups) : (recvElect r msg).Leads (Acts S) n := by
  refine .bind (requirePeerGroup_acts hgroup) fun _ n₁ _ => .bind requireElection_acts fun _ n₂ _ =>
    keeps_getGroup ?_
  have hrest : ∀ n : Node, EStateM.Leads (Acts S) (do
      let election := (← getGroup msg.group).election.getD .new
      assert election.caw.isSome
      if election.caw = some msg.challengerId then supportChallenger msg election) n :=
    fun n => keeps_getGroup (assert_acts (.ite (fun _ => supportChallenger_acts) fun _ => .pure _))
  refine EStateM.Keeps.ite (fun _ => ?_) fun _ => ?_
  · exact .bind followChallenger_acts fun _ n₃ _ => hrest n₃
  · exact .pure_bind (hrest n₂)

/-- The end of an election tells of the leader, which is a common event. -/
theorem finishElection_acts {e : Election} : (finishElection msg e).Leads (Acts S) n := by
  refine keeps_getGroup (.ite (fun _ => .get ?_) fun _ => .pure _)
  refine .ite (fun _ => .get (.get (.bind (emit_acts (Or.inl rfl)) fun _ _ _ => setElection_acts)))
    fun _ => keeps_lookupPeer ?_
  cases n.peers.lookup msg.leaderId with
  | none => exact .pure_bind setElection_acts
  | some p =>
    refine .bind setLeader_acts fun _ n₁ _ => readPeer_acts fun _ _ => ?_
    exact .bind (emit_acts (Or.inl rfl)) fun _ _ _ => setElection_acts

/-- LEADER requires the group it names. -/
theorem recvLeader_acts (hgroup : msg.group ∈ S.groups) : (recvLeader msg).Leads (Acts S) n := by
  refine .bind (requirePeerGroup_acts hgroup) fun _ n₁ _ => .bind requireElection_acts fun _ n₂ _ =>
    keeps_getGroup (.ite (fun _ => .get ?_) fun _ => .pure _)
  have hrest : ∀ (e : Election) (n : Node), EStateM.Leads (Acts S) (do
      setElection msg.group (some e)
      finishElection msg e) n :=
    fun e n => .bind setElection_acts fun _ _ _ => finishElection_acts
  refine EStateM.Keeps.ite (fun _ => ?_) fun _ => ?_
  · exact buildLeaderMsg_acts fun m hm => .bind (groupSend_acts hm) fun _ n₃ _ => hrest _ n₃
  · exact .pure_bind (hrest _ n₂)

/-- The supply has what a message brings when it is handled. -/
structure Handles (S : Supply) (X : CStr) (msg : Msg) : Prop where
  groups : ∀ name ∈ msg.mentions, name ∈ S.groups
  members : ∀ name ∈ msg.lists, (X, name) ∈ S.members
  shout : msg.id = .shout → ∀ name, .shout X name msg.group msg.content ∈ S.events

/-- Every command, with what it may add; GOODBYE removes the peer where gossip is used. -/
theorem dispatch_acts (h : Handles S r.identity msg)
    (hbye : msg.id = .goodbye → n.gossip = true → ∀ name ∈ n.ownGroups, name ∈ S.groups) :
    (dispatch r msg).Leads (Acts S) n := by
  have hdone : ∀ {x : NodeM Unit}, x.Leads (Acts S) n →
      (do x; pure true : NodeM Bool).Leads (Acts S) n :=
    fun hx => .bind hx fun _ _ _ => .pure _
  obtain ⟨hgroups, hmembers, hshout⟩ := h
  rw [Msg.mentions] at hgroups
  rw [Msg.lists] at hmembers
  rw [dispatch]
  cases hid : msg.id <;> simp only [hid] at hgroups hmembers ⊢
  case hello => exact hdone (recvHello_acts hgroups hmembers)
  case whisper => exact hdone (readPeer_acts fun _ _ => emit_acts (Or.inl rfl))
  case shout => exact hdone (readPeer_acts fun _ _ => emit_acts (Or.inr (hshout hid _)))
  case ping => exact hdone (peerSend_acts (says_of_id rfl))
  case join => exact hdone (recvJoin_acts (hgroups _ List.mem_cons_self) (hmembers _ List.mem_cons_self))
  case leave => exact hdone (recvLeave_acts (hgroups _ List.mem_cons_self))
  case elect => exact hdone (recvElect_acts (hgroups _ List.mem_cons_self))
  case leader => exact hdone (recvLeader_acts (hgroups _ List.mem_cons_self))
  case goodbye =>
    refine .get (.ite (fun hgossip => ?_) fun _ => .pure _)
    exact .bind (removePeer_acts (hbye hid hgossip)) fun _ _ _ => .pure _
  case pingOk => exact .pure _
  case unset => exact .pure _

/-- A message that is taken, or one that shows that others are lost and removes the peer. -/
theorem acceptMsg_acts (hp : n.deref r = some p)
    (hhandles : (p.messagesLost msg).1 = false → Handles S r.identity msg)
    (hremoves : (p.messagesLost msg).1 = true ∨ msg.id = .goodbye ∧ n.gossip = true →
      ∀ name ∈ n.ownGroups, name ∈ S.groups) : (acceptMsg env r msg).Leads (Acts S) n := by
  refine readPeer_acts fun q hq => ?_
  obtain rfl := Option.some_inj.mp (hp.symm.trans hq)
  set n₁ : Node := { n with peers := n.peers.modify r.identity fun _ => (p.messagesLost msg).2 } with hn₁
  refine .bind_of_wp (show Acts S n n₁ from .know rfl rfl rfl rfl rfl rfl rfl) (wp_modifyPeer.mpr
    ⟨fun _ _ => ⟨rfl, ?_⟩, fun h => nomatch hp.symm.trans h⟩)
  refine .ite (fun hlost => removePeer_acts (hremoves (Or.inl hlost))) fun hcounts => ?_
  refine .bind (dispatch_acts (hhandles (Bool.eq_false_iff.mpr hcounts)) fun hbye hgossip =>
    hremoves (Or.inr ⟨hbye, hgossip⟩)) fun b n₂ _ => ?_
  exact .ite (fun _ => .get modifyPeer_acts) fun _ => .pure _

/-- A message adds what it brings if it is taken, and the node's own groups if it removes the sender. -/
theorem recvMsg_acts (hhandles : Takes env n uuid.str msg → Handles S uuid.str msg)
    (hremoves : Removes env n uuid.str msg → ∀ name ∈ n.ownGroups, name ∈ S.groups) :
    (recvMsg env uuid msg).Leads (Acts S) n := by
  rw [recvMsg, senderGate]
  by_cases hid : msg.id = .hello
  · rw [if_pos hid]
    have hadmit : (helloGate env uuid msg).wp _ _ n := helloGate_admits
    have hgate := EStateM.wp_and (EStateM.wp_and (helloGate_acts hid hremoves) helloGate_spec) hadmit
    refine EStateM.wp_bind .. |>.mpr (EStateM.wp_mono hgate ?_ fun _ _ h => h.1.1)
    rintro (_ | r) n₁ ⟨⟨hacts, hspec⟩, hiff⟩
    · exact hacts
    · obtain ⟨v, q, -, hq, hready, rfl, hreaches⟩ := hspec
      have hadmits : Admits env n uuid.str msg := hiff.mp rfl
      have hown : n₁.ownGroups = n.ownGroups := (congrArg Node.ownGroups hreaches.own :)
      refine EStateM.Keeps.after hacts (readPeer_acts fun p hp => .ite (fun _ => ?_) fun _ => .pure _)
      refine acceptMsg_acts hp (fun hcounts => hhandles ?_) fun hlost => hown ▸ hremoves ?_
      · rw [Peer.messagesLost, if_pos hid] at hcounts
        rw [Takes, if_pos hid]
        exact ⟨hadmits, (not_not.mp (of_decide_eq_false hcounts)).symm⟩
      · rw [Removes, if_pos hid]
        rcases hlost with hlost | ⟨hbye, -⟩
        · rw [Peer.messagesLost, if_pos hid] at hlost
          exact Or.inr ⟨hadmits, (of_decide_eq_true hlost).symm⟩
        · cases hid.symm.trans hbye
  · rw [if_neg hid]
    refine keeps_lookupPeer ?_
    cases hlook : n.peers.lookup uuid.str with
    | none => exact .pure _
    | some p =>
      refine readPeer_acts fun q hq => .ite (fun hready => ?_) fun _ => .pure _
      obtain rfl := Option.some_inj.mp ((deref_of_lookup hlook).symm.trans hq)
      refine acceptMsg_acts hq (fun hcounts => hhandles ?_) fun hlost => hremoves ?_
      · rw [Peer.messagesLost, if_neg hid] at hcounts
        rw [Takes, if_neg hid]
        exact ⟨p, hlook, hready, not_not.mp (of_decide_eq_false hcounts)⟩
      · rw [Removes, if_neg hid]
        refine ⟨p, hlook, hready, hlost.imp_left fun hlost => ?_⟩
        rw [Peer.messagesLost, if_neg hid] at hlost
        exact of_decide_eq_true hlost

/-! ### One iteration -/

/-- SHOUT is sent to the members of its group. -/
theorem apiShout_acts {content : List Frame} (hname : name ∈ S.shouts) :
    (apiShout name content).Leads (Acts S) n := by
  refine .get (.ite (fun _ => keeps_getGroup (forM_peerSend_acts fun e he n' hgroups => ?_))
    fun _ => .pure _)
  refine ⟨name, hname, e.1, ?_, rfl⟩
  have hmembers : n'.members name = n.members name := by rw [members, hgroups, members]
  rw [hmembers]
  exact AList.mem_lookup_iff.mpr he

/-- The application joins a group. -/
theorem apiJoin_acts (hname : name ∈ S.joins) : (apiJoin name).Leads (Acts S) n := by
  refine .get (.ite (fun _ => .bind (modify_acts (.single (.regroup _ _ (fun name' hname' => ?_)
    fun name' hname' => Or.inl (List.mem_append_left _ hname')))) fun _ n₁ _ => .get (sendPeers_acts
      fun _ _ => ⟨name, hname, rfl⟩)) fun _ => .pure _)
  rcases List.mem_append.mp hname' with hname' | hname'
  · exact Or.inl hname'
  · exact Or.inr (List.mem_singleton.mp hname' ▸ hname)

/-- The application leaves a group. -/
theorem apiLeave_acts (hname : name ∈ S.leaves) : (apiLeave name).Leads (Acts S) n := by
  refine .get (.ite (fun _ => .bind (modify_acts (.know rfl rfl rfl rfl rfl rfl rfl)) fun _ n₁ _ => .get
    (.bind (sendPeers_acts fun _ _ => says_of_id rfl) fun _ n₂ _ => modify_acts (.single ?_)))
    fun _ => .pure _)
  refine .regroup _ n₂.status (fun name' hname' => Or.inl (List.mem_of_mem_erase hname')) ?_
  intro name' hname'
  by_cases heq : name' = name
  · exact Or.inr (heq ▸ hname)
  · exact Or.inl ((List.mem_erase_of_ne heq).mpr hname')

/-- Every command of the application, with what it may add. -/
theorem recvApi_acts {command : Command} (hcontest : ∀ name, command = .setContest name → name ∈ S.groups)
    (hjoin : ∀ name, command = .join name → name ∈ S.joins)
    (hleave : ∀ name, command = .leave name → name ∈ S.leaves)
    (hshout : ∀ name content, command = .shout name content → name ∈ S.shouts)
    (haddress : (∃ bound, command = .setEndpoint bound) ∨
      (∃ endpoint, command = .setAdvertisedEndpoint endpoint) → S.address) :
    (recvApi env command).Leads (Acts S) n := by
  have hgossip : ∀ n : Node, gossipStart.Leads (Acts S) n := by
    intro n
    have hstart : Acts S n (if n.gossip then n else { n with beaconPort := 0, gossip := true }) := by
      split_ifs
      · exact .refl
      · exact .know rfl rfl rfl rfl rfl rfl rfl
    exact hstart
  cases command with
  | setName name => exact modify_acts (.know rfl rfl rfl rfl rfl rfl rfl)
  | setHeader name value => exact modify_acts (.know rfl rfl rfl rfl rfl rfl rfl)
  | setPort value => exact modify_acts (.know rfl rfl rfl rfl rfl rfl rfl)
  | setEvasiveTimeout value => exact modify_acts (.know rfl rfl rfl rfl rfl rfl rfl)
  | setExpiredTimeout value => exact modify_acts (.know rfl rfl rfl rfl rfl rfl rfl)
  | setContest group =>
    exact .bind (requirePeerGroup_acts (hcontest group rfl)) fun _ _ _ => modifyGroup_acts fun _ => rfl
  | setAdvertisedEndpoint endpoint =>
    exact modify_acts (.single (.move n.endpoint (some endpoint) (haddress (Or.inr ⟨endpoint, rfl⟩))))
  | setEndpoint bound =>
    exact .bind (hgossip n) fun _ n₁ _ => modify_acts (.single (.move _ n₁.advertisedEndpoint
      (haddress (Or.inl ⟨bound, rfl⟩))))
  | setPublickey key => exact modify_acts (.know rfl rfl rfl rfl rfl rfl rfl)
  | setSecretkey key => exact modify_acts (.know rfl rfl rfl rfl rfl rfl rfl)
  | gossipBind => exact hgossip n
  | gossipConnect => exact hgossip n
  | start =>
    have hrest : EStateM.Leads (Acts S)
        (if n.beaconPort ≠ 0 then do
          assert !n.beacon
          set { n with
            beaconVersion := if n.secretKey.isSome then beaconVersionV3 else n.beaconVersion
            beacon := true }
        else assert n.gossip) n := by
      refine .ite (fun _ => assert_acts (Acts.know rfl rfl rfl rfl rfl rfl rfl)) fun _ => ?_
      exact wp_assert.mpr ⟨fun _ => .refl, fun _ => ⟨.refl, trivial⟩⟩
    exact .get (.ite (fun _ => assert_acts hrest) fun _ => hrest)
  | stop =>
    have hrest : ∀ n : Node, EStateM.Leads (Acts S)
        (do
          modify fun n => { n with beacon := false }
          let n ← get
          emit (.stop n.identity n.name)) n :=
      fun n => .bind (modify_acts (.know rfl rfl rfl rfl rfl rfl rfl)) fun _ n₁ _ => .get (emit_acts (Or.inl rfl))
    refine .get (.ite (fun _ => .bind ?_ fun _ n₁ _ => hrest n₁) fun _ => hrest n)
    exact sendPeers_acts fun _ _ => says_of_id rfl
  | whisper identity content =>
    refine keeps_lookupPeer ?_
    cases n.peers.lookup identity with
    | none => exact .pure _
    | some p => exact peerSend_acts (says_of_id rfl)
  | shout group content => exact apiShout_acts (hshout group content rfl)
  | join group => exact apiJoin_acts (hjoin group rfl)
  | leave group => exact apiLeave_acts (hleave group rfl)
  | requirePeer uuid endpoint publicKey =>
    exact .get (.ite (fun _ => .bind requirePeer_acts fun _ _ _ => .pure _) fun _ => .pure _)
  | peerName identity => exact wp_assert.mpr ⟨fun _ => .refl, fun _ => ⟨.refl, trivial⟩⟩

/-- A pass over `visited` finds the peer evasive for a reap interval. -/
def Overdue (env : Env) (n : Node) (visited : List CStr) (X : CStr) : Prop :=
  X ∈ visited ∧ ∃ p, n.peers.lookup X = some p ∧ ¬p.expiredAt.toInt64 ≤ env.now ∧
    p.evasiveAt.toInt64 ≤ env.now ∧ (p.evasiveAt + reapInterval n).toInt64 ≤ env.now

/-- One visit of a pass keeps what the node knows about itself. -/
theorem pingPeer_own (hp : n.deref r = some p) :
    (pingPeer env r).wp (fun _ n' => n'.own = n.own) (fun _ _ => True) n := by
  by_cases hexpired : p.expiredAt.toInt64 ≤ env.now
  · refine EStateM.wp_bind .. |>.mpr (wp_readPeer.mpr ⟨fun q hq => ?_, fun _ => trivial⟩)
    obtain rfl := Option.some_inj.mp (hp.symm.trans hq)
    rw [if_pos hexpired]
    exact EStateM.wp_mono (removePeer_spec hp) (fun _ _ h => h.own) fun _ _ _ => trivial
  · exact EStateM.wp_mono (pingPeer_keeps hp hexpired) (fun _ _ h => h.own) fun _ _ _ => trivial

/-- A pass on one peer: it is removed, or pinged, and is called silent if it is overdue. -/
theorem pingPeer_acts (hp : n.deref r = some p)
    (hexpired : p.expiredAt.toInt64 ≤ env.now → ∀ name ∈ n.ownGroups, name ∈ S.groups)
    (hsilent : ¬p.expiredAt.toInt64 ≤ env.now → p.evasiveAt.toInt64 ≤ env.now →
      (p.evasiveAt + reapInterval n).toInt64 ≤ env.now → .silent r.identity p.nameStr ∈ S.events) :
    (pingPeer env r).Leads (Acts S) n := by
  refine readPeer_acts fun q hq => ?_
  obtain rfl := Option.some_inj.mp (hp.symm.trans hq)
  refine .ite (fun h => removePeer_acts (hexpired h)) fun hnot => .ite (fun hevasive => ?_)
    fun _ => .pure _
  -- The interval is read again once the PING is on its way.
  have hsend : (peerSend r (Msg.new .ping)).wp
      (fun _ n' => Acts S n n' ∧ reapInterval n' = reapInterval n)
      (fun _ n' => Acts S n n' ∧ True) n := by
    refine wp_peerSend.mpr ⟨fun _ _ _ => ⟨?_, rfl⟩, fun _ _ _ => ⟨.refl, rfl⟩, fun _ => ⟨.refl, trivial⟩⟩
    exact .single (.send r _ _ (says_of_id rfl))
  refine .bind' hsend fun _ n₁ _ hinterval => ?_
  refine .bind_of_wp (show Acts S n₁
    { n₁ with outbox := n₁.outbox ++ [.evasive r.identity p.nameStr] } from emit_acts (Or.inl rfl))
    (wp_emit.mpr ⟨rfl, .get (.ite (fun h => ?_) fun _ => .pure _)⟩)
  refine emit_acts (Or.inr (hsilent hnot hevasive ?_))
  rwa [← hinterval]

/-- The pass over all peers it visits. -/
theorem reap_acts {visited : List CStr}
    (hexpired : (∃ X, X ∈ expired env n visited) → ∀ name ∈ n.ownGroups, name ∈ S.groups)
    (hsilent : ∀ X name, Overdue env n visited X → .silent X name ∈ S.events) :
    (reap env visited).Leads (Acts S) n := by
  refine EStateM.wp_forM (fun n₁ => Acts S n n₁ ∧ Ages n n₁ ∧ n₁.own = n.own)
    ⟨.refl, Std.Refl.refl n, rfl⟩ ?_ fun _ h => h.1
  rintro X hX n₁ ⟨hacts, hages, hown⟩
  refine EStateM.wp_bind .. |>.mpr (wp_lookupPeer.mpr ?_)
  cases hlook : n₁.peers.lookup X with
  | none => exact ⟨hacts, hages, hown⟩
  | some p₁ =>
    obtain ⟨p, hp, htimes⟩ := hages X p₁ hlook
    obtain ⟨-, hboth⟩ := Prod.mk.inj htimes
    obtain ⟨hevasiveAt, hexpiredAt⟩ := Prod.mk.inj hboth
    have hgroups : n₁.ownGroups = n.ownGroups := (congrArg Node.ownGroups hown :)
    have hinterval : reapInterval n₁ = reapInterval n := (congrArg reapInterval hown :)
    have hp₁ := deref_of_lookup hlook
    have hvisit : (pingPeer env ⟨X, p₁.serial⟩).Leads (Acts S) n₁ := by
      refine pingPeer_acts hp₁ (fun hexp => hgroups ▸ hexpired ⟨X, hX, p, hp, hexpiredAt ▸ hexp⟩) ?_
      intro hnot hevasive hinterval'
      rw [hinterval, ← hevasiveAt] at hinterval'
      exact hsilent X _ ⟨hX, p, hp, hexpiredAt ▸ hnot, hevasiveAt ▸ hevasive, hinterval'⟩
    refine EStateM.wp_mono (EStateM.wp_and (EStateM.wp_and hvisit pingPeer_ages) (pingPeer_own hp₁))
      ?_ fun _ _ h => ⟨hacts.trans h.1.1.1, trivial⟩
    rintro _ n₂ ⟨⟨hacts₂, hages₂⟩, hown₂⟩
    exact ⟨hacts.trans hacts₂, IsTrans.trans _ _ _ hages hages₂, hown₂.trans hown⟩

/-- The iteration removes a peer. -/
def Parts (env : Env) (n : Node) (input : Input) : Prop :=
  (∃ X ∈ removes env n input, X ∈ n.peers) ∨ ∃ frames uuid, input = .inbox frames ∧
    senderOf frames = some uuid ∧ Removes env n uuid.str (Msg.recv frames).msg

/-- The groups an iteration may add: those mentioned in a message it takes, the one of SET CONTEST, and
the node's own if it removes a peer. -/
def additions (env : Env) (n : Node) (input : Input) : Set CStr :=
  {name | (∃ frames uuid, input = .inbox frames ∧ senderOf frames = some uuid ∧
      Takes env n uuid.str (Msg.recv frames).msg ∧ name ∈ (Msg.recv frames).msg.mentions) ∨
    input = .api (.setContest name) ∨ name ∈ n.ownGroups ∧ Parts env n input}

/-- The SHOUT and SILENT events an iteration may put out. -/
def told (env : Env) (n : Node) (input : Input) : Set Event :=
  {e | (∃ frames uuid name, input = .inbox frames ∧ senderOf frames = some uuid ∧
      Takes env n uuid.str (Msg.recv frames).msg ∧ (Msg.recv frames).msg.id = .shout ∧
      e = .shout uuid.str name (Msg.recv frames).msg.group (Msg.recv frames).msg.content) ∨
    ∃ visited X name, input = .reap visited ∧ Overdue env n visited X ∧ e = .silent X name}

/-- A message that the iteration takes says that its sender `X` is in the group. -/
def Enrolls (env : Env) (n : Node) (input : Input) (X name : CStr) : Prop :=
  ∃ frames uuid, input = .inbox frames ∧ senderOf frames = some uuid ∧ uuid.str = X ∧
    Takes env n X (Msg.recv frames).msg ∧ name ∈ (Msg.recv frames).msg.lists

/-- What the input of an iteration supplies. -/
def supply (env : Env) (n : Node) (input : Input) : Supply where
  groups := additions env n input
  events := told env n input
  members := {m | Enrolls env n input m.1 m.2}
  joins := {name | input = .api (.join name)}
  leaves := {name | input = .api (.leave name)}
  shouts := {name | ∃ content, input = .api (.shout name content)}
  address := (∃ bound, input = .api (.setEndpoint bound)) ∨
    ∃ endpoint, input = .api (.setAdvertisedEndpoint endpoint)

/-- Every iteration is a sequence of acts within its supply. -/
theorem step_acts : (Node.step env input).Leads (Acts (supply env n input)) n := by
  cases input with
  | inbox frames =>
    rw [Node.step]
    cases hsender : senderOf frames with
    | none =>
      rw [recvPeer_of_none hsender]
      exact .pure _
    | some uuid =>
      rw [recvPeer_of_sender hsender]
      refine recvMsg_acts (fun htakes => ⟨fun name hname => ?_, fun name hname => ?_, fun hid name => ?_⟩)
        fun hremoves name hname => ?_
      · exact Or.inl ⟨frames, uuid, rfl, hsender, htakes, hname⟩
      · exact ⟨frames, uuid, rfl, hsender, rfl, htakes, hname⟩
      · exact Or.inl ⟨frames, uuid, name, rfl, hsender, htakes, hid, rfl⟩
      · exact Or.inr (Or.inr ⟨hname, Or.inr ⟨frames, uuid, rfl, hsender, hremoves⟩⟩)
  | api command =>
    refine recvApi_acts (fun name hname => ?_) (fun name hname => congrArg Input.api hname)
      (fun name hname => congrArg Input.api hname) (fun name content h => ⟨content, congrArg Input.api h⟩)
      (Or.imp (Exists.imp fun _ => congrArg Input.api) (Exists.imp fun _ => congrArg Input.api))
    exact Or.inr (Or.inl (congrArg Input.api hname))
  | beacon ipaddress frame publicKey =>
    refine .get (.ite (fun _ => .pure _) fun hversion => .ite (fun _ => .pure _) fun hkey =>
      .ite (fun _ => .bind requirePeer_acts fun _ _ _ => .pure _) fun hport => keeps_lookupPeer ?_)
    cases hlook : n.peers.lookup (beaconUuid frame).str with
    | none => exact .pure _
    | some p =>
      refine removePeer_acts fun name hname => Or.inr (Or.inr ⟨hname, Or.inl ⟨_, ⟨rfl, ?_⟩, ?_⟩⟩)
      · exact ⟨not_not.mp hversion, hkey, not_not.mp hport⟩
      · exact AList.lookup_isSome.mp (by rw [hlook]; rfl)
  | gossip uuid service =>
    exact .get (.ite (fun _ => .bind requirePeer_acts fun _ _ _ => .pure _) fun _ => .pure _)
  | reap visited =>
    refine reap_acts ?_ fun X name hoverdue => Or.inr ⟨visited, X, name, rfl, hoverdue, rfl⟩
    rintro ⟨X, hX⟩ name hname
    refine Or.inr (Or.inr ⟨hname, Or.inl ⟨X, hX, ?_⟩⟩)
    obtain ⟨-, p, hp, -⟩ := hX
    exact AList.lookup_isSome.mp (by rw [hp]; rfl)

/-- An iteration does what its input supplies, also if it stops half way. -/
theorem Leaves.acts (h : Leaves (Node.step env input) n n') : Acts (supply env n input) n n' :=
  h.of_wp (P := Acts (supply env n input) n) (EStateM.wp_mono step_acts (fun _ _ h => h) fun _ _ h => h.1)

/-- An iteration adds only what its input names. -/
theorem step_adds : (Node.step env input).Leads (Adds (additions env n input) (told env n input)) n :=
  EStateM.wp_mono step_acts (fun _ _ h => h.adds) fun _ _ h => ⟨h.1.adds, trivial⟩

end Node

end Zyre
