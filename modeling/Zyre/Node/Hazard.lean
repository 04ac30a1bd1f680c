import Zyre.Node.Alternation
import Zyre.Node.References

/-!
# Why a node stops

The programs of a node are sequences of changes, and a program that stops in a sturdy state has met
one of the few things the source takes for granted of a message or of its own pointers. `Safe` lists
them for one message, in terms of the state before it.
-/

namespace Zyre

namespace Node

variable {n n' : Node} {r : PeerRef} {p : Peer} {name X : CStr} {msg : Msg} {env : Env}
  {uuid : Uuid} {endpoint : CStr} {key : Option CStr} {D : Set CStr} {B : Prop}

/-- What is behind a fault: the state is not sturdy, or `B`. -/
def Blame (B : Prop) (f : Fault) (n : Node) : Prop := Cause f n ∨ n.Orphan ∨ B

/-- More may be to blame. -/
theorem Blame.mono {B' : Prop} {f : Fault} (hB : B → B') (h : Blame B f n) : Blame B' f n :=
  h.imp_right (Or.imp_right hB)

/-- In a sturdy state `B` is behind every fault. -/
theorem Sturdy.of_blame {f : Fault} (hn : n.Sturdy) (h : Blame B f n) : B := by
  rcases h with h | h | h
  · exact absurd h (hn.not_cause f)
  · exact absurd h hn.fathered
  · exact h

/-- A program of changes, started in a sturdy state. -/
theorem Sturdy.wp_of_keeps {α : Type} {x : NodeM α} (hn : n.Sturdy)
    (h : x.Keeps (Changes D) (Blame B) n) :
    x.wp (fun _ n' => Changes D n n') (fun _ _ => B) n :=
  EStateM.wp_mono h (fun _ _ h => h) fun _ _ h => (hn.changes h.1).of_blame h.2

/-! ### Primitives -/

/-- A move is a change, and blames nobody. -/
theorem keeps_of_moves {α : Type} {x : NodeM α} {C : Fault → Node → Prop}
    (h : x.Keeps (Moves talk) C n) (hC : ∀ f n', C f n' → Blame B f n') :
    x.Keeps (Changes D) (Blame B) n :=
  EStateM.wp_mono h (fun _ _ h => h.changes) fun f n' h => ⟨h.1.changes, hC f n' h.2⟩

/-- An event is no change to what is at stake. -/
theorem emit_changes (e : Event) : (emit e).Keeps (Changes D) (Blame B) n :=
  Relation.ReflTransGen.single (.know rfl rfl rfl rfl rfl rfl rfl)

theorem requirePeerGroup_changes : (requirePeerGroup name).Keeps (Changes D) (Blame B) n :=
  Relation.ReflTransGen.single (.move (.addGroup name))

/-- An entry that is changed otherwise keeps its object, its mailbox and its counter. -/
theorem modifyPeer_changes {f : Peer → Peer} (hr : n.deref r = some p)
    (hserial : (f p).serial = p.serial) (hconn : (f p).connected = p.connected)
    (hsent : (f p).sentSequence = p.sentSequence) :
    (modifyPeer r f).Keeps (Changes D) (Blame B) n :=
  wp_modifyPeer.mpr ⟨fun _ _ => .single (.peer _ p f (lookup_of_deref hr) hserial hconn hsent),
    fun h => nomatch hr.symm.trans h⟩

/-- A pointer to a live peer is followed. -/
theorem keeps_readPeer_of_live {α : Type} {f : Peer → NodeM α} (hr : n.Live r)
    (h : ∀ p, n.deref r = some p → (f p).Keeps (Changes D) (Blame B) n) :
    (readPeer r >>= f).Keeps (Changes D) (Blame B) n :=
  keeps_readPeer h fun hnone => absurd hr (not_live.mpr hnone)

/-! ### Joining and leaving groups -/

/-- The status of a peer is counted. -/
theorem countStatus_changes (hr : n.Live r) :
    (modifyPeer r fun p => { p with status := p.status + 1 }).Keeps (Changes D) (Blame B) n := by
  obtain ⟨p, hp⟩ := hr.exists
  exact modifyPeer_changes hp rfl rfl rfl

/-- A peer that is there joins. -/
theorem joinPeerGroup_changes (hr : n.Live r) :
    (joinPeerGroup r name).Keeps (Changes ∅) (Blame B) n := by
  refine .bind requirePeerGroup_changes fun _ _ hn₁ => .bind (.bind ?_ fun _ _ hn₂ => ?_)
    fun _ n₃ hn₃ => ?_
  · exact Relation.ReflTransGen.single (.join name r (hn₁.live hr (Set.notMem_empty _)))
  · exact countStatus_changes (hn₂.live (hn₁.live hr (Set.notMem_empty _)) (Set.notMem_empty _))
  · exact keeps_readPeer_of_live (hn₃.live (hn₁.live hr (Set.notMem_empty _)) (Set.notMem_empty _))
      fun p _ => emit_changes _

/-- A peer that is there leaves. -/
theorem groupLeave_changes (hr : n.Live r) :
    (groupLeave name r).Keeps (Changes ∅) (Blame B) n :=
  .bind (Relation.ReflTransGen.single (.leave name r)) fun _ _ hn₁ =>
    countStatus_changes (hn₁.live hr (Set.notMem_empty _))

/-- And LEAVE is told. -/
theorem leavePeerGroup_changes (hr : n.Live r) :
    (leavePeerGroup r name).Keeps (Changes ∅) (Blame B) n := by
  refine .bind requirePeerGroup_changes fun _ _ hn₁ => .bind
    (groupLeave_changes (hn₁.live hr (Set.notMem_empty _))) fun _ n₂ hn₂ => ?_
  exact keeps_readPeer_of_live (hn₂.live (hn₁.live hr (Set.notMem_empty _)) (Set.notMem_empty _))
    fun p _ => emit_changes _

theorem startElection_changes : (startElection name).Keeps (Changes D) (Blame B) n :=
  keeps_of_moves (startElection_keeps (by simp [talk])) fun _ _ => Or.inl

theorem leadAlone_changes : (leadAlone name).Keeps (Changes D) (Blame B) n :=
  keeps_of_moves leadAlone_keeps fun _ _ => Or.inl

/-! ### Removing a peer -/

/-- The loop that takes a peer out of every group. -/
theorem groupLeaves_spec (hr : n.Live r) :
    (forM n.peerGroups.keys fun name => groupLeave name r : NodeM Unit).wp
      (fun _ n' => Changes ∅ n n' ∧ ∀ name, r.identity ∉ n'.members name) (fun _ _ => False) n := by
  refine EStateM.wp_forM_done (fun done n' => Changes ∅ n n' ∧
    (∀ name, r.identity ∈ n'.members name → r.identity ∈ n.members name) ∧
      ∀ name ∈ done, r.identity ∉ n'.members name) ⟨.refl, fun _ h => h, by simp⟩ ?_ ?_
  · rintro done name - - n₁ ⟨hn₁, hsub, hdone⟩
    have hr₁ := hn₁.live hr (Set.notMem_empty _)
    have hmem : ∀ name', r.identity ∈ members { n₁ with
        peerGroups := n₁.peerGroups.modify name (·.leave r) } name' →
        r.identity ∈ n₁.members name' ∧ name' ≠ name := by
      intro name' h
      refine ⟨AList.lookup_isSome.mp ?_, ?_⟩
      · obtain ⟨r', hr'⟩ := Option.isSome_iff_exists.mp (AList.lookup_isSome.mpr h)
        exact Option.isSome_of_mem (lookup_members_leave hr')
      · rintro rfl
        rw [mem_members_modify] at h
        cases hg : n₁.peerGroups.lookup name' with
        | none => simp [hg, Group.new, AList.notMem_empty] at h
        | some g => simp [hg, Group.leave, AList.mem_erase] at h
    obtain ⟨q, hq⟩ := hr₁.exists
    simp only [groupLeave, EStateM.wp_bind, wp_modifyGroup, wp_modifyPeer]
    refine ⟨fun _ _ => ⟨(hn₁.tail (.leave name r)).tail ?_, fun name' h => hsub name' (hmem name' h).1,
      fun name' hname' h => ?_⟩, fun h => nomatch hq.symm.trans h⟩
    · exact .peer _ q _ (lookup_of_deref hq) rfl rfl rfl
    · rcases List.mem_append.mp hname' with hname' | hname'
      · exact hdone name' hname' (hmem name' h).1
      · exact (hmem name' h).2 (List.mem_singleton.mp hname')
  · rintro n' ⟨hn', hsub, hdone⟩
    refine ⟨hn', fun name h => hdone name ?_ h⟩
    obtain ⟨g, hg, -⟩ := mem_members_iff.mp (hsub name h)
    exact AList.lookup_isSome.mp (Option.isSome_of_mem hg)

/-- A removal frees the peer; to blame is a leader of an own group that is not there. -/
theorem removePeer_changes (hr : n.Live r) (hD : r.identity ∈ D) (hB : ¬n.LeadersLive → B) :
    (removePeer r).Keeps (Changes D) (Blame B) n := by
  refine keeps_readPeer_of_live hr fun p hp => ?_
  set n₀ : Node := { n with outbox := n.outbox ++ [.exit r.identity p.nameStr] }
  refine .bind_of_wp (show Changes D n n₀ from .single (.know rfl rfl rfl rfl rfl rfl rfl))
    (wp_emit.mpr ⟨rfl, .get (.bind' (P := fun _ n₁ => n₁.Live r) ?_ fun _ n₁ _ hr₁ => .get ?_)⟩)
  · refine EStateM.wp_mono (leaveElections_keeps (K := talk) n₀ fun _ _ _ => by simp [talk])
      (fun _ n₁ h => ⟨h.changes, (h.live r).mpr hr⟩) fun f n₁ h => ⟨h.1.changes, ?_⟩
    refine h.2.imp_right fun ⟨_, name, hname, hdead⟩ => Or.inr (hB fun hlive => ?_)
    exact hlive name hname hdead
  · refine .bind' (P := fun _ n₂ => ∀ name, r.identity ∉ n₂.members name) ?_ fun _ n₂ _ hgone => ?_
    · exact EStateM.wp_mono (groupLeaves_spec hr₁)
        (fun _ _ h => ⟨h.1.mono (Set.empty_subset _), h.2⟩) fun _ _ h => h.elim
    · exact wp_deletePeer.mpr (.single (.remove _ hD hgone))

/-! ### Requiring a peer -/

/-- Discovery frees nobody; to blame is a key that is not there. -/
theorem requirePeer_changes
    (hB : n.peers.lookup uuid.str = none → ¬KeyOk env n key → B) :
    (requirePeer env uuid endpoint key).Keeps (Changes ∅) (Blame B) n := by
  cases hnew : n.peers.lookup uuid.str with
  | some p => exact (wp_requirePeer_of_some hnew).mpr .refl
  | none =>
    have hpurged : Changes ∅ n (n.purged endpoint) := .single (.purge endpoint)
    have hnew' : (n.purged endpoint).peers.lookup uuid.str = none := by simp [purged, hnew]
    by_cases hkey : KeyOk env n key
    · refine (wp_requirePeer_of_none hnew hkey).mpr ?_
      split_ifs with hconnects
      · refine hpurged.tail (.greet _ _ _ hnew' newborn_serial rfl rfl ?_ ?_ ?_ ?_ ?_)
        · rw [Msg.setSequence_id, helloMsg_id]
        · rfl
        · simp only [helloMsg, Msg.setSequence]; rfl
        · simp only [helloMsg, Msg.setSequence]; rfl
        · simp only [helloMsg, Msg.setSequence]; split_ifs <;> exact CStr.length_truncate_le _ _
      · exact hpurged.tail .count
    · refine wp_requirePeer_of_not_keyOk hnew hkey fun _ _ hserial hconn => ?_
      exact ⟨hpurged.tail (.create _ _ hnew' hserial hconn), Or.inr (Or.inr (hB hnew hkey))⟩

/-! ### The commands -/

/-- HELLO joins its groups one by one. -/
theorem helloGroups_changes {groups : List CStr} (hr : n.Live r) :
    (forM groups (helloGroup r) : NodeM Unit).Keeps (Changes ∅) (Blame B) n := by
  refine .forM fun name _ n₁ hn₁ => .bind
    (joinPeerGroup_changes (hn₁.live hr (Set.notMem_empty _))) fun _ n₂ _ => keeps_getGroup ?_
  exact .ite (fun _ => startElection_changes) fun _ => .pure _

/-- To blame for HELLO is a list of groups that is missing. -/
theorem recvHello_changes (hr : n.Live r) (hB : msg.groups = none → B) :
    (recvHello r msg).Keeps (Changes ∅) (Blame B) n := by
  obtain ⟨p, hp⟩ := hr.exists
  refine .bind (modifyPeer_changes hp rfl rfl rfl) fun _ n₁ hn₁ => .bind (emit_changes _)
    fun _ n₂ hn₂ => ?_
  have hr₂ := hn₂.live (hn₁.live hr (Set.notMem_empty _)) (Set.notMem_empty _)
  cases hgroups : msg.groups with
  | none => exact ⟨.refl, Or.inr (Or.inr (hB hgroups))⟩
  | some groups =>
    refine .bind (helloGroups_changes hr₂) fun _ n₃ hn₃ => ?_
    obtain ⟨p₃, hp₃⟩ := (hn₃.live hr₂ (Set.notMem_empty _)).exists
    exact modifyPeer_changes hp₃ rfl rfl rfl

/-- The status of a peer that joins or leaves a group, as the views have it. -/
theorem status_of_view {n₁ : Node} {f : PeerView → PeerView} {p₁ : Peer} (hp : n.deref r = some p)
    (hview : n₁.view = n.view.at r.identity f)
    (hf : ∀ v, (f v).entry = v.entry.map fun p => { p with status := p.status + 1 })
    (hp₁ : n₁.deref r = some p₁) : p₁.status = p.status + 1 := by
  have h := view_entry_of_deref hp₁
  rw [hview, Views.at_self, hf, view_entry_of_deref hp] at h
  exact congrArg Peer.status (Option.some_inj.mp h).symm

/-- To blame for JOIN is a status that is not the next one. -/
theorem recvJoin_changes (hp : n.deref r = some p) (hB : msg.status ≠ p.status + 1 → B) :
    (recvJoin r msg).Keeps (Changes ∅) (Blame B) n := by
  have hr := live_of_deref hp
  refine .bind' (P := fun _ n₁ => n₁.view = n.view.at r.identity (·.join r.identity msg.group))
    ?_ fun _ n₁ hn₁ hview => ?_
  · exact EStateM.wp_mono (EStateM.wp_and (joinPeerGroup_changes (B := B) hr)
      (joinPeerGroup_spec (K := ∅) hp)) (fun _ _ h => ⟨h.1, h.2.view⟩) fun _ _ h => h.2.elim
  · refine keeps_readPeer_of_live (hn₁.live hr (Set.notMem_empty _)) fun p₁ hp₁ =>
      keeps_assert (fun _ => .get ?_) fun hstatus => Or.inr (Or.inr (hB ?_))
    · refine .ite (fun _ => keeps_getGroup ?_) fun _ => .pure _
      exact .ite (fun _ => startElection_changes) fun _ => .pure _
    · rw [← status_of_view hp hview (fun _ => rfl) hp₁]
      exact of_decide_eq_false hstatus

/-- Leaving a group keeps its leader and whether it is contested. -/
theorem deadLeader_of_leavePeerGroup (hr : n.Live r) :
    (leavePeerGroup r name).wp (fun _ n' => n'.DeadLeader name → n.DeadLeader name)
      (fun _ _ => True) n := by
  set n₀ : Node := { n with peerGroups := n.peerGroups.insertNew name .new } with hn₀
  set n₁ : Node := { n₀ with peerGroups := n₀.peerGroups.modify name (·.leave r) } with hn₁
  have hdead₁ : n₁.DeadLeader name → n.DeadLeader name := by
    rintro ⟨g, l, hg, hcontest, hleader, hdead⟩
    refine Moves.deadLeader (show Moves ∅ n n₀ from addGroup_moves) ?_
    rw [hn₁, AList.lookup_modify_self] at hg
    obtain ⟨g₀, hg₀, rfl⟩ := Option.map_eq_some_iff.mp hg
    exact ⟨g₀, l, hg₀, hcontest, hleader, hdead⟩
  obtain ⟨p, hp⟩ := hr.exists
  simp only [leavePeerGroup, groupLeave, EStateM.wp_bind, wp_requirePeerGroup, wp_modifyGroup,
    wp_modifyPeer, wp_readPeer, wp_emit]
  refine ⟨fun _ _ => ⟨fun _ _ => ?_, fun _ => trivial⟩, fun _ => trivial⟩
  rintro ⟨g, l, hg, hcontest, hleader, hdead⟩
  refine hdead₁ ⟨g, l, hg, hcontest, hleader, fun hlive => hdead ?_⟩
  exact (live_modify (n := n₁) (lookup_of_deref hp) rfl).mpr hlive

/-- To blame for LEAVE is the status, or a leader that is not there. -/
theorem recvLeave_changes (hp : n.deref r = some p) (hB : msg.status ≠ p.status + 1 → B)
    (hB' : msg.group ∈ n.ownGroups → n.DeadLeader msg.group → B) :
    (recvLeave r msg).Keeps (Changes ∅) (Blame B) n := by
  have hr := live_of_deref hp
  refine .bind' (P := fun _ n₁ => n₁.view = n.view.at r.identity (·.leave r.identity msg.group) ∧
    (n₁.DeadLeader msg.group → n.DeadLeader msg.group)) ?_ fun _ n₁ hn₁ h => ?_
  · exact EStateM.wp_mono (EStateM.wp_and (EStateM.wp_and (leavePeerGroup_changes (B := B) hr)
      (leavePeerGroup_spec (K := ∅) hp)) (deadLeader_of_leavePeerGroup hr))
      (fun _ _ h => ⟨h.1.1, h.1.2.view, h.2⟩) fun _ _ h => h.1.2.elim
  · obtain ⟨hview, hleader⟩ := h
    refine keeps_readPeer_of_live (hn₁.live hr (Set.notMem_empty _)) fun p₁ hp₁ =>
      keeps_assert (fun _ => .get ?_) fun hstatus => Or.inr (Or.inr (hB ?_))
    · refine .ite (fun hown => keeps_getGroup (.ite (fun hcontest => ?_) fun _ => .pure _))
        fun _ => .pure _
      cases hg : n₁.peerGroups.lookup msg.group with
      | none => simp [hg, Group.new] at hcontest
      | some g =>
        rw [hg, Option.getD_some] at hcontest
        simp only [Option.getD_some]
        cases hgl : g.leader with
        | none => exact .pure _
        | some l =>
          refine keeps_readPeer (fun _ _ => .ite (fun _ => ?_) fun _ => .pure _) fun hdead => ?_
          · refine .bind (keeps_of_moves (modifyGroup_keeps fun g _ => .setElection
              fun e he => by cases he) fun _ _ => Or.inl) fun _ n₂ _ => ?_
            exact .ite (fun _ => leadAlone_changes) fun _ => startElection_changes
          · refine Or.inr (Or.inr (hB' (hn₁.ownGroups ▸ hown) (hleader ?_)))
            exact ⟨g, l, hg, hcontest, hgl, not_live.mpr hdead⟩
    · rw [← status_of_view hp hview (fun _ => rfl) hp₁]
      exact of_decide_eq_false hstatus

/-- To blame for ELECT is a father that is not there. -/
theorem recvElect_changes (hr : n.Live r) (hB : n.DeadFather msg → B) :
    (recvElect r msg).Keeps (Changes D) (Blame B) n := by
  refine keeps_of_moves (recvElect_keeps ?_ hr) fun f n' h => ?_
  · rintro id (rfl | rfl) <;> simp [talk]
  · rcases h with h | ⟨-, h⟩ | ⟨-, h⟩
    · exact Or.inl h
    · exact Or.inr (Or.inr (hB h))
    · exact Or.inr (Or.inl h)

/-- LEADER reads no pointer but those that are live. -/
theorem recvLeader_changes : (recvLeader msg).Keeps (Changes D) (Blame B) n :=
  keeps_of_moves (recvLeader_keeps (by simp [talk])) fun _ _ => Or.inl

theorem peerSend_changes (hid : msg.id ∈ talk) (hr : n.Live r) :
    (peerSend r msg).Keeps (Changes D) (Blame B) n :=
  keeps_of_moves ((peerSend_keeps_of_live hid hr).mono fun _ => Sends.moves) fun _ _ => Or.inl

/-! ### The gate -/

/-- The message makes the node remove the sender: HELLO from a peer that is ready or numbered other
than 1, any other message out of sequence, or GOODBYE if the node listens to gossip. -/
def Removes (env : Env) (n : Node) (X : CStr) (msg : Msg) : Prop :=
  if msg.id = .hello then
    (∃ p, n.peers.lookup X = some p ∧ p.ready = true) ∨ Admits env n X msg ∧ msg.sequence ≠ 1
  else
    ∃ p, n.peers.lookup X = some p ∧ p.ready = true ∧
      (p.wantSequence + 1 ≠ msg.sequence ∨ msg.id = .goodbye ∧ n.gossip = true)

/-- The message is the next one of a peer that is ready. -/
def Next (n : Node) (X : CStr) (msg : Msg) (p : Peer) : Prop :=
  n.peers.lookup X = some p ∧ p.ready = true ∧ p.wantSequence + 1 = msg.sequence

/-- What the node takes for granted of a message. -/
structure Safe (env : Env) (n : Node) (X : CStr) (msg : Msg) : Prop where
  /-- The key in a HELLO is not empty, unless the peer is on the node's own endpoint. -/
  key : msg.id = .hello → n.secretKey.isSome →
    (∀ p, n.peers.lookup X = some p → p.ready = false → p.endpointStr ≠ n.endpoint) →
    publicKeyOf msg ≠ some ∅
  /-- The key in a HELLO that leads to a new mailbox is one libzmq takes. -/
  serverKey : msg.id = .hello → n.secure = true →
    (∀ p, n.peers.lookup X = some p → p.ready = true) →
    ∀ k, publicKeyOf msg = some k → env.serverKeyOk k = true
  /-- The status in JOIN and LEAVE is the count the node keeps. -/
  status : msg.id = .join ∨ msg.id = .leave → ∀ p, Next n X msg p → msg.status = p.status + 1
  /-- When a peer is removed the leaders of the node's own contested groups are there. -/
  leaders : Removes env n X msg → n.LeadersLive
  /-- When a peer leaves one of the node's own contested groups its leader is there. -/
  leader : msg.id = .leave → ∀ p, Next n X msg p → msg.group ∈ n.ownGroups →
    ¬n.DeadLeader msg.group
  /-- When the last answer to another node's challenge comes the father is there. -/
  father : msg.id = .elect → ∀ p, Next n X msg p → ¬n.DeadFather msg

/-- A HELLO has the lists every HELLO comes with. -/
def Listed (msg : Msg) : Prop := msg.id = .hello → msg.groups ≠ none ∧ msg.headers ≠ none

/-- A HELLO has the lists the node looks into. -/
def Suffices (n : Node) (msg : Msg) : Prop :=
  msg.id = .hello → msg.groups ≠ none ∧ (n.secretKey.isSome → msg.headers ≠ none)

/-- A message with its lists has what is read of it. -/
theorem Listed.suffices (h : Listed msg) : n.Suffices msg := fun hid => ⟨(h hid).1, fun _ => (h hid).2⟩

/-- The second half of the gate, where the sender has no entry. -/
theorem helloRequire_changes (hheaders : n.secretKey.isSome → msg.headers = none → B)
    (hempty : n.secretKey.isSome → publicKeyOf msg = some ∅ → B)
    (hkey : n.secure = true → n.peers.lookup uuid.str = none → ∀ k, publicKeyOf msg = some k →
      env.serverKeyOk k = false → B) :
    (helloRequire env uuid msg).Keeps (Changes ∅) (Blame B) n := by
  refine .get ?_
  cases hsecret : n.secretKey with
  | none =>
    refine requirePeer_changes fun _ hbad => absurd (fun hsec : n.secure = true => ?_) hbad
    simp [secure, hsecret] at hsec
  | some secret =>
    cases hmsg : msg.headers with
    | none => exact ⟨.refl, Or.inr (Or.inr (hheaders (by simp [hsecret]) hmsg))⟩
    | some headers =>
      cases hlook : headers.lookup xPublickey with
      | none =>
        simp only [hlook]
        exact .pure _
      | some k =>
        simp only [hlook]
        have hk : publicKeyOf msg = some k := by simp [publicKeyOf, hmsg, hlook]
        refine keeps_assert (fun _ => requirePeer_changes fun hnew hbad => ?_) fun h => ?_
        · refine hkey ?_ hnew k hk ?_
          · by_contra hsec
            exact hbad fun h => absurd h hsec
          · by_contra hok
            exact hbad fun _ => ⟨k, rfl, by simpa using hok⟩
        · obtain rfl := not_not.mp (of_decide_eq_false h)
          exact Or.inr (Or.inr (hempty (by simp [hsecret]) hk))

theorem markReady_changes (hr : n.Live r) :
    (modifyPeer r fun p => { p with ready := true }).Keeps (Changes D) (Blame B) n := by
  obtain ⟨p, hp⟩ := hr.exists
  exact modifyPeer_changes hp rfl rfl rfl

/-- Removing a peer keeps the leaders of the other groups. -/
theorem removePeer_leaders (hr : n.Live r) :
    (removePeer r).wp (fun _ n' => n.LeadersLive → n'.LeadersLive) (fun _ _ => True) n := by
  refine EStateM.wp_mono (EStateM.wp_and (removePeer_changes (D := {r.identity})
    (B := True) hr rfl fun _ => trivial)
    removePeer_groups) (fun _ n' h hlive => ?_) fun _ _ _ => trivial
  exact h.2.leadersLive hlive h.1.ownGroups h.1

/-- Whether leaders are there depends on the groups and the peers. -/
theorem leadersLive_congr (hgroups : n'.peerGroups = n.peerGroups)
    (hown : n'.ownGroups = n.ownGroups) (hlive : ∀ r, n.Live r → n'.Live r)
    (h : n.LeadersLive) : n'.LeadersLive := by
  rintro name hname ⟨g, l, hg, hcontest, hleader, hdead⟩
  rw [hown] at hname
  rw [hgroups] at hg
  exact h name hname ⟨g, l, hg, hcontest, hleader, fun hl => hdead (hlive l hl)⟩

/-- Requiring a peer leaves the groups as they are. -/
theorem requirePeer_groups :
    (requirePeer env uuid endpoint key).wp (fun _ n' => n'.peerGroups = n.peerGroups)
      (fun _ _ => True) n := by
  cases hnew : n.peers.lookup uuid.str with
  | some p => exact (wp_requirePeer_of_some hnew).mpr rfl
  | none =>
    by_cases hkey : KeyOk env n key
    · rw [wp_requirePeer_of_none hnew hkey]
      split_ifs <;> rfl
    · exact wp_requirePeer_of_not_keyOk hnew hkey fun _ _ _ _ => trivial

/-- The gate of HELLO leaves the groups alone. -/
theorem helloRequire_groups :
    (helloRequire env uuid msg).wp (fun _ n' => n'.peerGroups = n.peerGroups)
      (fun _ _ => True) n :=
  wp_helloRequire (fun _ => requirePeer_groups) rfl trivial trivial

/-- The peer found or created is there. -/
theorem helloRequire_found :
    (helloRequire env uuid msg).wp
      (fun o n' => ∀ r, o = some r → r.identity = uuid.str ∧ n'.Live r) (fun _ _ => True) n := by
  cases hlook : n.peers.lookup uuid.str with
  | some p =>
    refine EStateM.wp_mono (helloRequire_spec_of_some hlook) ?_ fun _ _ _ => trivial
    rintro o n' ⟨rfl, rfl | rfl⟩ r hr
    · cases hr
    · obtain rfl := Option.some_inj.mp hr
      exact ⟨rfl, live_of_deref (deref_of_lookup hlook)⟩
  | none =>
    refine EStateM.wp_mono (helloRequire_spec_of_none hlook) (fun o n' h r hr => ?_)
      fun _ _ _ => trivial
    subst hr
    obtain ⟨q, -, rfl, hreaches⟩ := h
    obtain ⟨p, hp, -⟩ := deref_of_view (n := n') (X := uuid.str) (q := q) (by rw [hreaches.view])
    exact ⟨rfl, live_of_deref hp⟩

theorem markReady_groups (hr : n.Live r) :
    (modifyPeer r fun p => { p with ready := true }).wp
      (fun _ n' => n'.peerGroups = n.peerGroups) (fun _ _ => False) n :=
  wp_modifyPeer.mpr ⟨fun _ _ => rfl, fun h => not_live.mpr h hr⟩

/-- The HELLO gate. -/
theorem helloGate_changes (hD : Removes env n uuid.str msg → uuid.str ∈ D)
    (hB : ¬Safe env n uuid.str msg → B) (hlists : ¬n.Suffices msg → B) (hid : msg.id = .hello) :
    (helloGate env uuid msg).wp
      (fun o n' => Changes D n n' ∧
        ∀ r, o = some r → r.identity = uuid.str ∧ n'.Live r ∧ (n.LeadersLive → n'.LeadersLive))
      (fun f n' => Changes D n n' ∧ Blame B f n') n := by
  have hsafe : (Safe env n uuid.str msg → B) → B := fun h =>
    (Classical.em (Safe env n uuid.str msg)).elim h hB
  have hheaders : n.secretKey.isSome → msg.headers = none → B := fun hsec h =>
    hlists fun hl => (hl hid).2 hsec h
  -- The second half, on a node that has come from `n`.
  have hrest : ∀ n₁ : Node, Changes D n n₁ → n₁.secretKey = n.secretKey →
      (n.LeadersLive → n₁.LeadersLive) →
      (n₁.secretKey.isSome → publicKeyOf msg = some ∅ → B) →
      (n₁.secure = true → n₁.peers.lookup uuid.str = none → ∀ k, publicKeyOf msg = some k →
        env.serverKeyOk k = false → B) →
      (helloAdmit env uuid msg).wp
      (fun o n' => Changes D n n' ∧
        ∀ r, o = some r → r.identity = uuid.str ∧ n'.Live r ∧ (n.LeadersLive → n'.LeadersLive))
      (fun f n' => Changes D n n' ∧ Blame B f n') n₁ := by
    intro n₁ hn₁ hsecret hlead₁ hempty hkey
    have hboth := EStateM.wp_and (x := helloRequire env uuid msg) (s := n₁)
      (EStateM.wp_and (helloRequire_changes (hsecret ▸ hheaders) hempty hkey) helloRequire_groups)
      helloRequire_found
    refine EStateM.wp_bind .. |>.mpr (EStateM.wp_mono hboth ?_ ?_)
    · rintro o n₂ ⟨⟨hn₂, hgroups⟩, hfound⟩
      have hn₂' := hn₁.trans (hn₂.mono (Set.empty_subset _))
      cases o with
      | none => exact ⟨hn₂', fun _ h => by cases h⟩
      | some r =>
        obtain ⟨hrid, hr⟩ := hfound r rfl
        refine EStateM.wp_bind .. |>.mpr (EStateM.wp_mono (EStateM.wp_and
          (markReady_changes (D := ∅) (B := B) hr) (markReady_groups hr)) ?_ fun f n₃ h => h.2.elim)
        rintro _ n₃ ⟨hn₃, hgroups₃⟩
        refine ⟨hn₂'.trans (hn₃.mono (Set.empty_subset _)), fun r' hr' => ?_⟩
        obtain rfl := Option.some_inj.mp hr'
        refine ⟨hrid, hn₃.live hr (Set.notMem_empty _), fun hlead => ?_⟩
        have hn₁₃ : Changes ∅ n₁ n₃ := hn₂.trans hn₃
        exact leadersLive_congr (hgroups₃.trans hgroups) hn₁₃.ownGroups
          (fun l hl => hn₁₃.live hl (Set.notMem_empty _)) (hlead₁ hlead)
    · rintro f n₂ ⟨⟨⟨hn₂, hblame⟩, -⟩, -⟩
      exact ⟨hn₁.trans (hn₂.mono (Set.empty_subset _)), hblame⟩
  simp only [helloGate, EStateM.wp_bind, wp_lookupPeer]
  cases hlook : n.peers.lookup uuid.str with
  | none =>
    refine hrest n .refl rfl id (fun hsec hk => hsafe fun h => absurd hk (h.key hid hsec ?_))
      (fun hsec _ k hk hok => hsafe fun h => ?_)
    · simp [hlook]
    · have := h.serverKey hid hsec (by simp [hlook]) k hk
      rw [hok] at this
      cases this
  | some p =>
    have hderef := deref_of_lookup hlook
    simp only [Option.map_some, EStateM.wp_bind, wp_readPeer, hderef, Option.some_inj, forall_eq']
    refine ⟨?_, fun h => by cases h⟩
    by_cases hready : p.ready = true
    · have hall : ∀ q, n.peers.lookup uuid.str = some q → q.ready = true := fun q hq => by
        cases hlook.symm.trans hq; exact hready
      have hremoves : Removes env n uuid.str msg := by
        rw [Removes, if_pos hid]; exact Or.inl ⟨p, hlook, hready⟩
      simp only [hready, if_true, EStateM.wp_bind]
      have hr := live_of_deref hderef
      refine EStateM.wp_mono (EStateM.wp_and (EStateM.wp_and (removePeer_changes hr (hD hremoves) fun hlead =>
        hsafe fun h => absurd (h.leaders hremoves) hlead) (removePeer_leaders hr))
        (removePeer_spec hderef)) ?_ fun f n₁ h => ⟨h.1.1.1, h.1.1.2⟩
      rintro _ n₁ ⟨⟨hn₁, hlead₁⟩, hbecomes⟩
      have hgone : n₁.peers.lookup uuid.str = none := by
        have hentry : (n₁.view uuid.str).entry = none := by
          rw [hbecomes.view, Views.at_self]; rfl
        exact Option.map_eq_none_iff.mp hentry
      have hsecret : n₁.secretKey = n.secretKey := (congrArg Node.secretKey hbecomes.own :)
      have hpublic : n₁.publicKey = n.publicKey := (congrArg Node.publicKey hbecomes.own :)
      simp only [wp_lookupPeer, wp_assert, EStateM.wp_pure, hgone]
      refine ⟨fun _ => hrest n₁ hn₁ hsecret hlead₁ (fun hsec hk => hsafe fun h => ?_)
        fun hsec _ k hk hok => hsafe fun h => ?_, fun h => by cases h⟩
      · exact absurd hk (h.key hid (hsecret ▸ hsec) fun q hq hnot => by rw [hall q hq] at hnot; cases hnot)
      · have := h.serverKey hid (by rwa [secure, hsecret, hpublic] at hsec) hall k hk
        rw [hok] at this
        cases this
    · simp only [hready, if_false, EStateM.wp_bind, EStateM.wp_get, EStateM.wp_pure,
        EStateM.wp_ite, Bool.false_eq_true]
      refine ⟨fun _ => ⟨.refl, fun _ h => by cases h⟩, fun hend => ?_⟩
      refine hrest n .refl rfl id (fun hsec hk => hsafe fun h => absurd hk (h.key hid hsec ?_))
        fun _ hnone => by cases hlook.symm.trans hnone
      intro q hq _
      cases hlook.symm.trans hq
      simpa using hend

/-! ### A message from a peer that is ready -/

/-- Whether a father is there depends on the groups and the peers. -/
theorem deadFather_congr (hgroups : n'.peerGroups = n.peerGroups) (hid : n'.identity = n.identity)
    (hlive : ∀ r, n'.Live r ↔ n.Live r) : n'.DeadFather msg ↔ n.DeadFather msg := by
  simp only [DeadFather, hgroups, hid, hlive]

/-- Whether a leader is there does, too. -/
theorem deadLeader_congr (hgroups : n'.peerGroups = n.peerGroups)
    (hlive : ∀ r, n'.Live r ↔ n.Live r) : n'.DeadLeader name ↔ n.DeadLeader name := by
  simp only [DeadLeader, hgroups, hlive]

/-- A message the peer's entry is ready for: it is counted, and processed unless one before it was
lost. -/
theorem acceptMsg_changes (hp : n.deref r = some p)
    (hremoves : (if msg.id = .hello then 1 else p.wantSequence + 1) ≠ msg.sequence ∨
      msg.id = .goodbye ∧ n.gossip = true → r.identity ∈ D ∧ (¬n.LeadersLive → B))
    (hnext : (if msg.id = .hello then 1 else p.wantSequence + 1) = msg.sequence →
      (msg.id = .hello → msg.groups = none → B) ∧
      (msg.id = .join ∨ msg.id = .leave → msg.status ≠ p.status + 1 → B) ∧
      (msg.id = .leave → msg.group ∈ n.ownGroups → n.DeadLeader msg.group → B) ∧
      (msg.id = .elect → n.DeadFather msg → B)) :
    (acceptMsg env r msg).Keeps (Changes D) (Blame B) n := by
  have hr := live_of_deref hp
  set k : UInt16 := if msg.id = .hello then 1 else p.wantSequence + 1 with hk
  set n₁ : Node := { n with
    peers := n.peers.modify r.identity fun _ => { p with wantSequence := k } } with hn₁
  have hlive₁ : ∀ r', n₁.Live r' ↔ n.Live r' := fun r' => live_modify (lookup_of_deref hp) rfl
  have hp₁ : n₁.deref r = some { p with wantSequence := k } := deref_modify_self hp rfl
  have hr₁ := live_of_deref hp₁
  have hempty : ∅ ⊆ D := Set.empty_subset _
  refine keeps_readPeer_of_live hr fun q hq => ?_
  cases hp.symm.trans hq
  refine .bind_of_wp (show Changes D n n₁ from .single (.peer _ p _ (lookup_of_deref hp) rfl rfl rfl))
    (wp_modifyPeer.mpr ⟨fun _ _ => ⟨rfl, ?_⟩, fun h => nomatch hp.symm.trans h⟩)
  have hremove : ((if msg.id = .hello then 1 else p.wantSequence + 1) ≠ msg.sequence ∨
      msg.id = .goodbye ∧ n.gossip = true) →
      (removePeer r).Keeps (Changes D) (Blame B) n₁ := by
    refine fun h => removePeer_changes hr₁ (hremoves h).1 fun hlead => (hremoves h).2 fun hl => hlead ?_
    exact leadersLive_congr (n := n) rfl rfl (fun l hl => (hlive₁ l).mpr hl) hl
  refine .ite (fun hlost => hremove (Or.inl (of_decide_eq_true hlost))) fun hkept => ?_
  have hseq : k = msg.sequence := by simpa [Peer.messagesLost, hk] using hkept
  obtain ⟨hhello, hstatus, hleader, hfather⟩ := hnext hseq
  -- What is left to do for a command that keeps the peer.
  have hrest : ∀ {x : NodeM Bool}, x.Keeps (Changes ∅) (Blame B) n₁ →
      (do
        if ← x then do
          let n'' ← get
          modifyPeer r (·.refresh env.now n''.evasiveTimeout n''.expiredTimeout) : NodeM Unit).Keeps
        (Changes D) (Blame B) n₁ := by
    intro x hx
    refine .mono (R := Changes ∅) (.bind hx fun b n₂ hn₂ => .ite (fun _ => .get ?_) fun _ => .pure _)
      fun _ h => h.mono hempty
    obtain ⟨q, hq⟩ := (hn₂.live hr₁ (Set.notMem_empty _)).exists
    exact modifyPeer_changes hq rfl rfl rfl
  have hdo : ∀ {x : NodeM Unit} {b : Bool}, x.Keeps (Changes ∅) (Blame B) n₁ →
      (do x; pure b : NodeM Bool).Keeps (Changes ∅) (Blame B) n₁ :=
    fun hx => .bind hx fun _ _ _ => .pure _
  cases hid : msg.id with
  | hello =>
    simp only [dispatch, hid]
    exact hrest (hdo (recvHello_changes hr₁ (hhello hid)))
  | whisper =>
    simp only [dispatch, hid]
    exact hrest (hdo (keeps_readPeer_of_live hr₁ fun _ _ => emit_changes _))
  | shout =>
    simp only [dispatch, hid]
    exact hrest (hdo (keeps_readPeer_of_live hr₁ fun _ _ => emit_changes _))
  | join =>
    simp only [dispatch, hid]
    exact hrest (hdo (recvJoin_changes hp₁ (hstatus (Or.inl hid))))
  | leave =>
    simp only [dispatch, hid]
    refine hrest (hdo (recvLeave_changes hp₁ (hstatus (Or.inr hid)) fun hown hdead => ?_))
    exact hleader hid hown ((deadLeader_congr (by rfl) hlive₁).mp hdead)
  | ping =>
    simp only [dispatch, hid]
    exact hrest (hdo (peerSend_changes (by simp [talk, Msg.new]) hr₁))
  | pingOk =>
    simp only [dispatch, hid]
    exact hrest (.pure _)
  | unset =>
    simp only [dispatch, hid]
    exact hrest (.pure _)
  | elect =>
    simp only [dispatch, hid]
    refine hrest (hdo (recvElect_changes hr₁ fun hdead => hfather hid ?_))
    exact (deadFather_congr (by rfl) (by rfl) hlive₁).mp hdead
  | leader =>
    simp only [dispatch, hid]
    exact hrest (hdo recvLeader_changes)
  | goodbye =>
    by_cases hg : n.gossip = true
    · simp only [dispatch, hid, EStateM.Keeps, EStateM.wp_bind, EStateM.wp_get]
      rw [if_pos hg]
      refine EStateM.wp_bind .. |>.mpr (EStateM.wp_mono (hremove (Or.inr ⟨hid, hg⟩))
        (fun _ n₂ h => ?_) fun _ _ h => h)
      simpa using h
    · simp only [dispatch, hid]
      exact hrest (.get (.ite (fun hg' => absurd hg' hg) fun _ => .pure _))

/-! ### Every message -/

/-- A message is a sequence of changes. It stops the node only in a state that is not sturdy, or if
it is not safe. -/
theorem recvMsg_changes (hD : Removes env n uuid.str msg → uuid.str ∈ D)
    (hB : ¬Safe env n uuid.str msg → B) (hlists : ¬n.Suffices msg → B) :
    (recvMsg env uuid msg).Keeps (Changes D) (Blame B) n := by
  have hsafe : (Safe env n uuid.str msg → B) → B := fun h =>
    (Classical.em (Safe env n uuid.str msg)).elim h hB
  simp only [recvMsg, senderGate]
  by_cases hid : msg.id = .hello
  · rw [if_pos hid]
    have hgate := EStateM.wp_and (x := helloGate env uuid msg) (s := n) (EStateM.wp_and
      (helloGate_changes hD hB hlists hid) helloGate_admits) helloGate_spec
    refine EStateM.wp_bind .. |>.mpr (EStateM.wp_mono hgate ?_ fun _ _ h => h.1.1)
    rintro o n₁ ⟨⟨⟨hn₁, hfound⟩, hadmits⟩, hspec⟩
    cases o with
    | none => exact hn₁
    | some r =>
      obtain ⟨hrid, hr, hlead⟩ := hfound r rfl
      refine EStateM.Keeps.after hn₁ (keeps_readPeer_of_live hr fun p hp => .ite (fun _ => ?_)
        fun _ => .pure _)
      refine acceptMsg_changes hp (fun h => ?_) fun _ => ⟨?_, ?_, ?_, ?_⟩
      · have hremoves : Removes env n uuid.str msg := by
          rw [Removes, if_pos hid]
          rcases h with h | ⟨h, -⟩
          · rw [if_pos hid] at h
            exact Or.inr ⟨hadmits.mp rfl, Ne.symm h⟩
          · rw [hid] at h; cases h
        refine ⟨hrid ▸ hD hremoves, fun hleaders => hsafe fun hs => ?_⟩
        exact absurd (hlead (hs.leaders hremoves)) hleaders
      · exact fun _ hgroups => hlists fun h => (h hid).1 hgroups
      · rw [hid]; rintro (h | h) <;> cases h
      · rw [hid]
        intro h
        cases h
      · rw [hid]
        intro h
        cases h
  · rw [if_neg hid]
    refine keeps_lookupPeer ?_
    cases hlook : n.peers.lookup uuid.str with
    | none => exact .pure _
    | some p =>
      have hderef := deref_of_lookup hlook
      refine keeps_readPeer_of_live (live_of_deref hderef) fun q hq => .ite (fun hready => ?_)
        fun _ => .pure _
      cases hderef.symm.trans hq
      refine acceptMsg_changes hderef (fun h => ?_) fun hseq => ?_
      · have hremoves : Removes env n uuid.str msg := by
          rw [if_neg hid] at h
          rw [Removes, if_neg hid]
          exact ⟨p, hlook, hready, h⟩
        refine ⟨hD hremoves, fun hleaders => hsafe fun hs => ?_⟩
        exact absurd (hs.leaders hremoves) hleaders
      · rw [if_neg hid] at hseq
        have hnext : Next n uuid.str msg p := ⟨hlook, hready, hseq⟩
        refine ⟨fun h => absurd h hid, fun h hstatus => hsafe fun hs => ?_,
          fun h hown hdead => hsafe fun hs => ?_, fun h hdead => hsafe fun hs => ?_⟩
        · exact absurd (hs.status h p hnext) hstatus
        · exact absurd hdead (hs.leader h p hnext hown)
        · exact absurd hdead (hs.father h p hnext)

/-! ### The other inputs -/

/-- Discovery, when anything may be to blame. -/
theorem requirePeer_any : (requirePeer env uuid endpoint key).Keeps (Changes D) (Blame True) n :=
  (requirePeer_changes fun _ _ => trivial).mono fun _ h => h.mono (Set.empty_subset _)

theorem modify_changes {f : Node → Node} (h : Change D n (f n)) :
    (modify f : NodeM Unit).Keeps (Changes D) (Blame B) n :=
  Relation.ReflTransGen.single h

end Node

end Zyre
