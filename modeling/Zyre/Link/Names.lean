import Mathlib.Data.Set.Card
import Zyre.Link.Groups
import Zyre.Node.Survival

/-!
# The names of groups

A peer that has learned the groups of a node from its HELLO and one that has learned them as they were
joined and left agree on them if all names fit into a message and the groups can be counted, and only
then (`namesAgree_iff`): JOIN and LEAVE cut off a name behind 255 bytes, HELLO does not, and 2^32 groups
count as none in it.
-/

namespace Zyre

/-! ### SHOUT -/

namespace Node

variable {n : Node} {name : CStr}

/-- Without the group there are no members. -/
theorem notMem_members_of_none {X : CStr} (h : n.peerGroups.lookup name = none) : X ∉ n.members name := by
  rw [members, h]
  exact AList.notMem_empty X

/-- SHOUT goes to the members of the group. -/
theorem Sturdy.shout (hn : n.Sturdy) (env : Env) (name : CStr) (content : List Frame) (X : CStr) :
    ∃ n', Node.step env (.api (.shout name content)) n = .ok ⟨⟩ n' ∧ (X ∈ n.members name →
      Mailed { (Msg.new .shout).setGroup name with content := some content } X n n') ∧
    (X ∉ n.members name → n'.mailTo X = n.mailTo X) := by
  have hwp : (apiShout name content).wp (fun _ n' =>
      (X ∈ n.members name →
        Mailed { (Msg.new .shout).setGroup name with content := some content } X n n') ∧
      (X ∉ n.members name → n'.mailTo X = n.mailTo X)) (fun _ _ => False) n := by
    refine EStateM.wp_bind .. |>.mpr (EStateM.wp_get.mpr (EStateM.wp_ite .. |>.mpr
      ⟨fun _ => groupSend_mailed hn name _ X, fun hnone => ⟨fun hX => ?_, fun _ => rfl⟩⟩))
    exact absurd hX (notMem_members_of_none (Option.not_isSome_iff_eq_none.mp hnone))
  obtain ⟨_, n', hok, hmailed⟩ := EStateM.exists_of_wp hwp
  exact ⟨n', hok, hmailed⟩

/-- JOIN goes to every peer. -/
theorem Sturdy.join (hn : n.Sturdy) (hname : name ∉ n.ownGroups) (env : Env) (X : CStr) :
    ∃ n', Node.step env (.api (.join name)) n = .ok ⟨⟩ n' ∧
      Mailed { (Msg.new .join).setGroup name with status := n.status + 1 } X
        { n with ownGroups := n.ownGroups ++ [name], status := n.status + 1 } n' := by
  have hsafe : (apiJoin name).wp (fun _ _ => True) (fun _ _ => False) n := by
    refine EStateM.wp_bind .. |>.mpr (EStateM.wp_get.mpr (EStateM.wp_ite .. |>.mpr
      ⟨fun _ => ?_, fun _ => trivial⟩))
    refine EStateM.wp_bind .. |>.mpr (EStateM.wp_modify _ |>.mpr (EStateM.wp_bind .. |>.mpr
      (EStateM.wp_get.mpr ?_)))
    refine EStateM.wp_mono (sendPeers_keeps (Set.mem_univ _)) (fun _ _ _ => trivial) fun f n' h => ?_
    have hn : Sturdy { n with ownGroups := n.ownGroups ++ [name], status := n.status + 1 } :=
      hn.congr rfl rfl rfl rfl
    exact (hn.moves h.1.moves).not_cause f h.2
  obtain ⟨_, n', hok, -, hmailed⟩ := EStateM.exists_of_wp (EStateM.wp_mono
    (EStateM.wp_and hsafe (apiJoin_mailed hname X)) (fun _ _ h => h) fun _ _ h => h.1)
  exact ⟨n', hok, hmailed⟩

end Node

namespace Link

variable {l l' : Link} {action : Action} {S : Set CStr} {letter : Letter}

/-! ### Letters in their frames -/

/-- One step of a link on which letters arrive in the frames they are sent in. -/
inductive Transfer (l : Link) : Action → Link → Prop
  | sender {env : Env} {input : Input} {a' : Node} (h : Node.step env input l.a = .ok ⟨⟩ a') :
      Transfer l (.sender env input)
        { l with a := a', sent := l.sent ++ posts l.sent a' l.b.identity }
  | receiver {env : Env} {input : Input} {b' : Node}
      (hinput : ∀ uuid, Node.Sender input uuid → uuid ≠ l.a.uuid)
      (h : Node.step env input l.b = .ok ⟨⟩ b') : Transfer l (.receiver env input) { l with b := b' }
  | deliver {env : Env} {j : ℕ} {letter : Letter} {b' : Node} (hj : Deliverable 0 l j)
      (hletter : l.sent[j]? = some letter)
      (h : Node.step env (.inbox (l.frames letter)) l.b = .ok ⟨⟩ b') :
      Transfer l (.deliver env j (l.frames letter))
        { l with
          b := b'
          delivered := l.delivered ++ [j]
          accepted := if Node.accepted env l.a.uuid (Msg.recv (l.frames letter)).msg l.b then
            l.accepted ++ [j] else l.accepted }

/-- The application of `a` joins groups of `S` only, and a HELLO that comes to an entry that is not ready
names the groups `a` is still listed in. -/
structure Learns (S : Set CStr) (l : Link) (action : Action) : Prop where
  join : ∀ env name, action = .sender env (.api (.join name)) → name ∈ S
  covers : l.Covers action

/-- The links on which `b` learns of the groups of `a`, joined from `S` and left in any order. -/
inductive Story (S : Set CStr) : Link → Prop
  | new (uuid uuid' : Uuid) (endpoint endpoint' : CStr) :
      Story S ⟨Node.new uuid endpoint, Node.new uuid' endpoint', [], [], []⟩
  | step {l l' : Link} {action : Action} (hl : Story S l) (hc : Learns S l action)
      (h : Transfer l action l') : Story S l'

theorem Transfer.step (h : Transfer l action l') (hfits : ∀ m ∈ l.sent, m.msg.Fits) :
    Step 0 l action l' := by
  cases h with
  | sender h => exact .sender h
  | receiver hinput h => exact .receiver hinput h
  | deliver hj hletter h =>
    have hfits := hfits _ (List.mem_of_getElem? hletter)
    exact .deliver hj hletter (senderOf_frames hfits) (carries_recv hfits _).2.2 h

/-- Groups of `S`, none of them twice. -/
def GroupsOf (S : Set CStr) (groups : List CStr) : Prop := groups.Nodup ∧ ∀ name ∈ groups, name ∈ S

/-- There are no more of them than `S` has. -/
theorem GroupsOf.length_lt {groups : List CStr} (h : GroupsOf S groups) (hcount : S.encard < 2 ^ 32) :
    groups.length < 2 ^ 32 := by
  have hsub : ((groups.toFinset : Finset CStr) : Set CStr) ⊆ S := fun name hname =>
    h.2 name (List.mem_toFinset.mp hname)
  have hcard := (Set.encard_le_encard hsub).trans_lt hcount
  rw [Set.encard_coe_eq_coe_finsetCard, List.toFinset_card_of_nodup h.1] at hcard
  exact_mod_cast hcard

/-- If the names are short and can be counted, all letters arrive as they were sent. -/
theorem Story.run (hshort : ∀ name ∈ S, name.length ≤ Msg.fieldSize) (hcount : S.encard < 2 ^ 32)
    (h : Story S l) : Run 0 (fun l action => Short action ∧ l.Covers action) l ∧
      GroupsOf S l.a.ownGroups ∧ ∀ m ∈ l.sent, GroupsOf S m.groups := by
  induction h with
  | new uuid uuid' endpoint endpoint' => exact ⟨.new _ _ _ _, ⟨List.nodup_nil, nofun⟩, nofun⟩
  | @step l l' action hl hc h ih =>
    obtain ⟨hrun, hown, hletters⟩ := ih
    have hroom : Msg.fieldSize < 2 ^ 32 := by decide
    have hfits : ∀ m ∈ l.sent, m.msg.Fits := fun m hm =>
      fits_of_posted hrun.posted hm ((hletters m hm).length_lt hcount) fun name hname =>
        (hshort name ((hletters m hm).2 name hname)).trans_lt hroom
    have hstep := h.step hfits
    refine ⟨hrun.step ⟨fun env name haction => hshort name (hc.join env name haction), hc.covers⟩ hstep,
      hstep.groups hrun.posted ?_ ?_ hown hletters⟩
    · exact fun groups name hgroups =>
        ⟨hgroups.1.erase name, fun _ hname' => hgroups.2 _ (List.mem_of_mem_erase hname')⟩
    · intro env name groups haction hname hgroups
      refine ⟨hgroups.1.append (List.nodup_singleton name) (List.disjoint_singleton.mpr hname), ?_⟩
      intro name' hname'
      rcases List.mem_append.mp hname' with hname' | hname'
      · exact hgroups.2 name' hname'
      · exact List.mem_singleton.mp hname' ▸ hc.join env name haction

/-! ### What two peers know -/

/-- `b` holds `a` ready, and `letter` is the last one it has accepted. -/
structure Knows (l : Link) (letter : Letter) : Prop where
  entry : ∃ p, l.b.peers.lookup l.a.identity = some p ∧ p.ready = true
  last : ∃ i, l.accepted.getLast? = some i ∧ l.sent[i]? = some letter

/-- `b` has a mailbox for `a`. -/
def Reaches (l : Link) : Prop := ∃ p, l.b.peers.lookup l.a.identity = some p ∧ p.connected = true

/-- A SHOUT to the group by the application of `b` is addressed to `a`. -/
def Addresses (l : Link) (name : CStr) : Prop :=
  ∀ env content, ∃ b' m, Node.step env (.api (.shout name content)) l.b = .ok ⟨⟩ b' ∧
    b'.mailTo l.a.identity = l.b.mailTo l.a.identity ++ [m] ∧ m.2.id = .shout ∧
      m.2.content = some content

/-- Two peers have recorded the node in the same groups, as many as it is in, and address it by SHOUT to
each of them as long as they have a mailbox for it. -/
structure Alike (l l' : Link) (groups : List CStr) : Prop where
  same : l.b.groupsOf l.a.identity = l'.b.groupsOf l'.a.identity
  distinct : (l.b.groupsOf l.a.identity).ncard = groups.length
  shout : l.Reaches → ∀ name ∈ groups, l.Addresses name
  shout' : l'.Reaches → ∀ name ∈ groups, l'.Addresses name

/-- Two peers that have heard of the same groups of a node, one in its HELLO, say, and one as they were
joined and left, agree on them. -/
def NamesAgree (S : Set CStr) : Prop :=
  ∀ l l' letter letter', Story S l → Story S l' → l.a.uuid = l'.a.uuid → l.Knows letter →
    l'.Knows letter' → (∀ name, name ∈ letter.groups ↔ name ∈ letter'.groups) →
      l.Alike l' letter.groups

theorem Reaches.addresses (h : l.Reaches) (hb : l.b.Sturdy) {name : CStr}
    (hname : name ∈ l.b.groupsOf l.a.identity) : l.Addresses name := by
  intro env content
  obtain ⟨p, hp, hconn⟩ := h
  obtain ⟨b', hok, hmailed, -⟩ := hb.shout env name content l.a.identity
  obtain ⟨hmail, -⟩ := (hmailed hname).connected p hp hconn
  exact ⟨b', _, hok, hmail, rfl, rfl⟩

/-- What a peer knows if the names are short and can be counted. -/
theorem Story.groups (hshort : ∀ name ∈ S, name.length ≤ Msg.fieldSize) (hcount : S.encard < 2 ^ 32)
    (h : Story S l) (hknows : l.Knows letter) :
    l.b.groupsOf l.a.identity = {name | name ∈ letter.groups} ∧ letter.groups.Nodup ∧ l.b.Sturdy := by
  obtain ⟨hrun, -, hletters⟩ := h.run hshort hcount
  obtain ⟨p, hp, hready⟩ := hknows.entry
  obtain ⟨i, hi, hletter⟩ := hknows.last
  obtain ⟨i', letter', hi', hletter', hgroups⟩ := hrun.groups hp hready
  obtain rfl := Option.some_inj.mp (hi.symm.trans hi')
  obtain rfl := Option.some_inj.mp (hletter.symm.trans hletter')
  exact ⟨hgroups, (hletters letter (List.mem_of_getElem? hletter)).1, (hrun.grouped (by decide)).sturdy⟩

theorem namesAgree_of_short (hshort : ∀ name ∈ S, name.length ≤ Msg.fieldSize)
    (hcount : S.encard < 2 ^ 32) : NamesAgree S := by
  intro l l' letter letter' hl hl' _ hknows hknows' hsame
  obtain ⟨hgroups, hnodup, hb⟩ := hl.groups hshort hcount hknows
  obtain ⟨hgroups', -, hb'⟩ := hl'.groups hshort hcount hknows'
  refine ⟨?_, ?_, fun hreaches name hname => ?_, fun hreaches name hname => ?_⟩
  · rw [hgroups, hgroups']
    ext name
    exact hsame name
  · rw [hgroups, ← List.coe_toFinset, Set.ncard_coe_finset, List.toFinset_card_of_nodup hnodup]
  · exact hreaches.addresses hb (by rw [hgroups]; exact hname)
  · exact hreaches.addresses hb' (by rw [hgroups']; exact (hsame name).mp hname)

/-! ### A name that is too long -/

theorem Story.reachable (h : Story S l) : Node.Reachable l.a ∧ Node.Reachable l.b := by
  induction h with
  | new uuid uuid' endpoint endpoint' => exact ⟨.new _ _, .new _ _⟩
  | step hl hc h ih =>
    cases h with
    | sender h => exact ⟨.step _ _ ih.1 h, ih.2⟩
    | receiver hinput h => exact ⟨ih.1, .step _ _ ih.2 h⟩
    | deliver hj hletter h => exact ⟨ih.1, .step _ _ ih.2 h⟩

theorem not_addresses (hb : l.b.Sturdy) {name : CStr} (hname : name ∉ l.b.groupsOf l.a.identity) :
    ¬l.Addresses name := by
  intro h
  obtain ⟨b', m, hok, hmail, -⟩ := h (Node.sampleEnv 0) []
  obtain ⟨b'', hok', -, hsame⟩ := hb.shout (Node.sampleEnv 0) name [] l.a.identity
  obtain rfl : b' = b'' := by
    rw [hok] at hok'
    cases hok'
    rfl
  rw [hsame hname] at hmail
  exact absurd (congrArg List.length hmail) (by simp)

end Link

namespace Node

variable {n : Node} {uuid : Uuid} {frames : List Frame} {p : Peer}

theorem groupsOf_of_keys {X : CStr} (h : n.peerGroups.keys = []) : n.groupsOf X = ∅ := by
  refine Set.eq_empty_of_forall_notMem fun name hname => ?_
  refine notMem_members_of_none ?_ hname
  rw [AList.lookup_eq_none, AList.mem_keys, h]
  exact List.not_mem_nil

/-- The next message of a peer that is ready is a JOIN, and the node is in no group. -/
theorem Reachable.join_taken (hn : Reachable n) (env : Env) (hown : n.ownGroups = [])
    (hsender : senderOf frames = some uuid) (hid : (Msg.recv frames).msg.id = .join)
    (hp : n.peers.lookup uuid.str = some p) (hready : p.ready = true)
    (hseq : p.wantSequence + 1 = (Msg.recv frames).msg.sequence)
    (hstatus : (Msg.recv frames).msg.status = p.status + 1) :
    ∃ n', Node.step env (.inbox frames) n = .ok ⟨⟩ n' ∧
      accepted env uuid (Msg.recv frames).msg n = true ∧
      n'.groupsOf uuid.str = insert (Msg.recv frames).msg.group (n.groupsOf uuid.str) ∧
      ∃ p', n'.peers.lookup uuid.str = some p' ∧ p'.ready = true ∧ p'.connected = p.connected := by
  have hne : ∀ id, id ≠ .join → (Msg.recv frames).msg.id ≠ id := fun id h h' => h (h'.symm.trans hid)
  have hsafe : ∀ uuid, senderOf frames = some uuid → Safe env n uuid.str (Msg.recv frames).msg := by
    intro uuid' huuid
    obtain rfl := Option.some_inj.mp (hsender.symm.trans huuid)
    refine ⟨?_, ?_, fun _ q hq => ?_, fun _ name hname => ?_, ?_, ?_⟩
    · exact fun h => absurd h (hne _ (by decide))
    · exact fun h => absurd h (hne _ (by decide))
    · obtain rfl := Option.some_inj.mp (hq.1.symm.trans hp)
      exact hstatus
    · rw [hown] at hname
      cases hname
    · exact fun h => absurd h (hne _ (by decide))
    · exact fun h => absurd h (hne _ (by decide))
  obtain ⟨n', hok⟩ := step_ok_of_suffices hn (fun h => absurd h (hne _ (by decide))) hsafe
  have haccepted : accepted env uuid (Msg.recv frames).msg n = true :=
    accepted_of_ready (hne _ (by decide)) hp hready hseq
  have hrecv : recvMsg env uuid (Msg.recv frames).msg n = .ok ⟨⟩ n' := by
    rw [← recvPeer_of_sender hsender]
    exact hok
  have hreception := reception hrecv
  rw [haccepted] at hreception
  generalize hv : n'.view uuid.str = v at hreception
  cases hreception with
  | greeted w hhello hw hseq => exact absurd hhello (hne _ (by decide))
  | bye q hbye he hr hseq hgone => exact absurd hbye (hne _ (by decide))
  | taken q hhello he hr hseq =>
    refine ⟨n', hok, haccepted, ?_, ?_⟩
    · have hgroups : (n'.view uuid.str).groups = _ := congrArg PeerView.groups hv
      rw [PeerView.groups_take, hid] at hgroups
      exact hgroups
    · have hentry : (n'.peers.lookup uuid.str).map Peer.still = _ := congrArg PeerView.entry hv
      have hq : p.still = q := Option.some_inj.mp (by rw [← he, view_entry, hp]; rfl)
      simp only [PeerView.take, hid, PeerView.join, PeerView.count, he, Option.map_some] at hentry
      obtain ⟨p', hp', hstill⟩ := Option.map_eq_some_iff.mp hentry
      rw [← hq] at hstill
      have hconn : p'.still.connected = p.still.connected := by rw [hstill]
      exact ⟨p', hp', (congrArg Peer.ready hstill).trans hready, hconn⟩

end Node

namespace Link

variable {l l' : Link} {S : Set CStr} {letter : Letter}

/-- `a` says HELLO to `b` while it is in no group. -/
def sampleKnown : Link :=
  sampleStart
    |>.send (Node.sampleEnv 0) (.api (.requirePeer (Node.sampleUuid 1) (Node.sampleEndpoint 'p') none))
    |>.deliver (Node.sampleEnv 0) 0

/-- A letter comes to a node that does not know the sender. -/
theorem Story.deliver {env : Env} {j : ℕ} (hl : Story S l) (hj : l.Deliverable 0 j)
    (hnone : l.b.peers.lookup l.a.identity = none)
    (hok : ∀ m ∈ l.sent[j]?, (Node.step env (.inbox (l.frames m)) l.b matches .ok ..) = true) :
    Story S (l.deliver env j) := by
  unfold Link.deliver
  cases hletter : l.sent[j]? with
  | none => exact hl
  | some m =>
    refine hl.step ⟨by rintro _ _ ⟨⟩, fun _ _ _ p _ _ hp => ?_⟩
      (.deliver hj hletter (Node.step_eq_of_isOk (hok m hletter)))
    exact absurd (hnone.symm.trans hp) (by simp)

theorem story_sampleKnown : Story S sampleKnown := by
  have hsent : Story S (sampleStart.send (Node.sampleEnv 0)
      (.api (.requirePeer (Node.sampleUuid 1) (Node.sampleEndpoint 'p') none))) :=
    (Story.new _ _ _ _).step ⟨by rintro _ _ ⟨⟩, by rintro _ _ _ _ ⟨⟩⟩
      (.sender (Node.step_eq_of_isOk (by decide)))
  exact hsent.deliver ⟨le_rfl, .inl nofun⟩ rfl (by decide +kernel)

/-- `b` knows `a` under the identity `a` has, ready and connected, and has counted one letter. -/
theorem sampleKnown_entry : ∃ p, sampleKnown.b.peers.lookup sampleKnown.a.identity = some p ∧
    p.ready = true ∧ p.connected = true ∧ p.wantSequence = 1 ∧ p.status = 0 := by
  have h : (sampleKnown.b.peers.lookup sampleKnown.a.identity).any (fun p => p.ready && p.connected &&
      p.wantSequence == 1 && p.status == 0) = true := by decide +kernel
  obtain ⟨p, hp, h⟩ := (Option.any_eq_true _ _).mp h
  simp only [Bool.and_eq_true, beq_iff_eq] at h
  exact ⟨p, hp, h.1.1.1, h.1.1.2, h.1.2, h.2⟩

/-- The letter that a JOIN of `name` posts on a link whose nodes know each other. -/
theorem sampleKnown_join (name : CStr) : ∃ a' letter,
    Node.step (Node.sampleEnv 0) (.api (.join name)) sampleKnown.a = .ok ⟨⟩ a' ∧
      posts sampleKnown.sent a' sampleKnown.b.identity = [letter] ∧
      (sampleKnown.sent[0]?).map Letter.box = some letter.box ∧
      letter.msg = ({ (Msg.new .join).setGroup name with status := 1 } : Msg).setSequence 2 ∧
      letter.groups = [name] ∧ a'.uuid = sampleKnown.a.uuid := by
  have hreach := (story_sampleKnown (S := ∅)).reachable.1
  have hcalm : sampleKnown.a.ownGroups = [] ∧ sampleKnown.a.status = 0 ∧
      (sampleKnown.a.mailTo sampleKnown.b.identity).length = sampleKnown.sent.length := by
    decide +kernel
  have hbox : (sampleKnown.a.peers.lookup sampleKnown.b.identity).any (fun p => p.connected &&
      p.sentSequence == 1 && decide ((sampleKnown.sent[0]?).map Letter.box =
        some ⟨sampleKnown.b.identity, p.serial⟩)) = true := by
    decide +kernel
  obtain ⟨hown, hstatus, hlength⟩ := hcalm
  obtain ⟨p, hp, hbox⟩ := (Option.any_eq_true _ _).mp hbox
  simp only [Bool.and_eq_true, beq_iff_eq, decide_eq_true_eq] at hbox
  obtain ⟨⟨hconn, hsequence⟩, hbox⟩ := hbox
  have hfresh : name ∉ sampleKnown.a.ownGroups := by
    rw [hown]
    exact List.not_mem_nil
  obtain ⟨a', hok, hmailed⟩ := (Node.sturdy_of_reachable hreach).join hfresh (Node.sampleEnv 0)
    sampleKnown.b.identity
  obtain ⟨hmail, -⟩ := hmailed.connected p hp hconn
  have hgroups : a'.ownGroups = [name] := by
    have h : a'.ownGroups = sampleKnown.a.ownGroups ++ [name] := (congrArg Node.ownGroups hmailed.own :)
    rw [h, hown]
    rfl
  rw [hstatus, hsequence] at hmail
  have hmail : a'.mailTo sampleKnown.b.identity = sampleKnown.a.mailTo sampleKnown.b.identity ++
      [(⟨sampleKnown.b.identity, p.serial⟩,
        ({ (Msg.new .join).setGroup name with status := 1 } : Msg).setSequence 2)] := hmail
  refine ⟨a', ⟨⟨sampleKnown.b.identity, p.serial⟩, _, a'.status, a'.ownGroups⟩, hok, ?_, hbox, rfl,
    hgroups, (congrArg Node.uuid hmailed.own :)⟩
  rw [posts, hmail, List.drop_left' hlength]
  rfl

theorem not_namesAgree_of_long {name : CStr} (hname : name ∈ S) (hlong : Msg.fieldSize < name.length) :
    ¬NamesAgree S := by
  obtain ⟨a', letter, hjoin, hposts, hbox, hmsg, hgroups, huuid⟩ := sampleKnown_join name
  have hknown : sampleKnown.sent.length = 1 ∧ sampleKnown.delivered = [0] ∧
      sampleKnown.b.ownGroups = [] ∧ sampleKnown.b.peerGroups.keys = [] := by decide +kernel
  obtain ⟨hsent, hdelivered, hown, hkeys⟩ := hknown
  obtain ⟨p, hp, hready, hconn, hseq, hstatus⟩ := sampleKnown_entry
  -- `a` joins the group.
  let l : Link := { sampleKnown with a := a', sent := sampleKnown.sent ++ [letter] }
  have hl : Story S l := by
    have hlearns : Learns S sampleKnown (.sender (Node.sampleEnv 0) (.api (.join name))) :=
      ⟨by rintro _ _ ⟨⟩; exact hname, by rintro _ _ _ _ ⟨⟩⟩
    have hstep := story_sampleKnown.step hlearns (.sender hjoin)
    rwa [hposts] at hstep
  have hletter : l.sent[1]? = some letter := by
    rw [← hsent]
    exact List.getElem?_concat_length
  have hidentity : l.a.identity = sampleKnown.a.identity := congrArg Uuid.str huuid
  rw [← hidentity] at hp
  have hj : l.Deliverable 0 1 := by
    have hnext : l.next = 0 + 1 := next_of_delivered (show l.delivered = [] ++ [0] from hdelivered)
    refine ⟨hnext.le, .inr ⟨0, hnext, ?_, by rw [hnext]⟩⟩
    rw [hletter, List.getElem?_append_left (by rw [hsent]; exact Nat.one_pos), hbox]
    rfl
  have hfits : letter.msg.Fits := by
    rw [hmsg]
    exact ⟨nofun, nofun, nofun, fun _ => Nat.lt_succ_of_le (CStr.length_truncate_le _ _)⟩
  have hcarries : Carries letter.msg (Msg.recv (l.frames letter)).msg :=
    (carries_recv hfits (1 :: l.a.uuid.data)).2.2
  have hgroup := hcarries.group (Or.inl (by rw [hmsg]; rfl))
  have hid : (Msg.recv (l.frames letter)).msg.id = .join := hcarries.id.trans (by rw [hmsg]; rfl)
  -- `b` takes the JOIN.
  obtain ⟨b', hok, htaken, hlisted, p', hp', hready', hconn'⟩ := hl.reachable.2.join_taken
    (Node.sampleEnv 0) hown (l.senderOf_frames hfits) hid hp hready
    (by rw [hseq, hcarries.sequence, hmsg]; rfl) (by rw [hstatus, hgroup.2, hmsg]; rfl)
  let l' : Link := { l with
    b := b'
    delivered := l.delivered ++ [1]
    accepted := l.accepted ++ [1] }
  have hl' : Story S l' := by
    have hlearns : Learns S l (.deliver (Node.sampleEnv 0) 1 (l.frames letter)) := by
      refine ⟨by rintro _ _ ⟨⟩, ?_⟩
      rintro _ _ _ q ⟨⟩ hhello
      exact absurd (hid.symm.trans hhello) (by decide)
    have hstep := hl.step hlearns (.deliver hj hletter hok)
    rwa [if_pos htaken] at hstep
  have hknows : l'.Knows letter := ⟨⟨p', hp', hready'⟩, 1, List.getLast?_concat, hletter⟩
  have hreaches : l'.Reaches := ⟨p', hp', hconn'.trans hconn⟩
  have hlisted' : name ∉ l'.b.groupsOf l'.a.identity := by
    have hgroups' : l'.b.groupsOf l'.a.identity = insert (Msg.recv (l.frames letter)).msg.group
      (sampleKnown.b.groupsOf l.a.identity) := hlisted
    rw [hgroups', Node.groupsOf_of_keys hkeys, hgroup.1, hmsg]
    rintro (h | h)
    · have hlength := CStr.length_truncate_le Msg.fieldSize name
      have h : name = name.truncate Msg.fieldSize := h
      rw [← h] at hlength
      omega
    · cases h
  intro hagree
  have halike := hagree l' l' letter letter hl' hl' rfl hknows hknows fun _ => Iff.rfl
  exact not_addresses (Node.sturdy_of_reachable hl'.reachable.2) hlisted'
    (halike.shout hreaches name (by rw [hgroups]; exact List.mem_singleton_self name))

/-! ### More names than can be counted -/

/-- `a` has joined the groups before it knows any peer. -/
def sampleJoined (groups : List CStr) (status : UInt8) : Link :=
  { sampleStart with a := { Node.sampleNode with ownGroups := groups, status := status } }

theorem story_sampleJoined {groups : List CStr} (h : GroupsOf S groups) :
    ∃ status, Story S (sampleJoined groups status) := by
  induction groups using List.reverseRecOn with
  | nil => exact ⟨0, .new _ _ _ _⟩
  | append_singleton groups name ih =>
    obtain ⟨hnodup, -, hfresh⟩ := List.nodup_append.mp h.1
    obtain ⟨status, hl⟩ := ih ⟨hnodup, fun name' hname' => h.2 name' (List.mem_append_left _ hname')⟩
    have hname : name ∉ groups := fun hmem => hfresh name hmem name (List.mem_singleton_self name) rfl
    have hjoin : Node.step (Node.sampleEnv 0) (.api (.join name)) (sampleJoined groups status).a =
        .ok ⟨⟩ (sampleJoined (groups ++ [name]) (status + 1)).a := by
      show (if name ∉ groups then _ else _ : NodeM Unit) _ = _
      rw [if_pos hname]
      rfl
    have hlearns : Learns S (sampleJoined groups status)
        (.sender (Node.sampleEnv 0) (.api (.join name))) := by
      refine ⟨?_, by rintro _ _ _ _ ⟨⟩⟩
      rintro _ _ ⟨⟩
      exact h.2 name (List.mem_append_right _ (List.mem_singleton_self name))
    exact ⟨status + 1, hl.step hlearns (.sender hjoin)⟩

/-- and says HELLO to `b` then. -/
def sampleCrowd (groups : List CStr) (status : UInt8) : Link :=
  (sampleJoined groups status).send (Node.sampleEnv 0)
    (.api (.requirePeer (Node.sampleUuid 1) (Node.sampleEndpoint 'p') none))

theorem sampleCrowd_sent (groups : List CStr) (status : UInt8) : ∃ letter,
    (sampleCrowd groups status).sent = [letter] ∧ letter.msg.id = .hello ∧ letter.msg.sequence = 1 ∧
      letter.msg.endpoint = Node.sampleEndpoint 'n' ∧ letter.msg.groups = some groups ∧ letter.groups = groups :=
  ⟨_, rfl, rfl, rfl, rfl, rfl, rfl⟩

/-- `b` takes a HELLO without groups. -/
theorem sampleStart_greeted (headers : Headers) :
    let msg : Msg := { Msg.new .hello with
      sequence := 1, endpoint := Node.sampleEndpoint 'n', groups := some [], status := 0, name := ∅,
      headers := some headers }
    ∃ b', Node.recvMsg (Node.sampleEnv 0) Node.sampleNode.uuid msg sampleStart.b = .ok ⟨⟩ b' ∧
      Node.accepted (Node.sampleEnv 0) Node.sampleNode.uuid msg sampleStart.b = true ∧
      b'.peerGroups.keys = [] ∧ ∃ p, b'.peers.lookup Node.sampleNode.identity = some p ∧
        p.ready = true ∧ p.connected = true :=
  ⟨_, rfl, rfl, rfl, _, rfl, rfl, rfl⟩

theorem not_namesAgree_of_many (hshort : ∀ name ∈ S, name.length ≤ Msg.fieldSize)
    (hmany : 2 ^ 32 ≤ S.encard) : ¬NamesAgree S := by
  -- 2^32 of the names.
  obtain ⟨T, hT, hcard⟩ := Set.exists_subset_encard_eq hmany
  have hfinite : T.Finite := Set.finite_of_encard_eq_coe (k := 2 ^ 32) (by exact_mod_cast hcard)
  have hlength : hfinite.toFinset.toList.length = 2 ^ 32 := by
    rw [Finset.length_toList, ← Set.ncard_eq_toFinset_card T hfinite, Set.ncard, hcard]
    rfl
  have hgroups : GroupsOf S hfinite.toFinset.toList :=
    ⟨Finset.nodup_toList _, fun name hname => hT (by simpa using hname)⟩
  generalize hfinite.toFinset.toList = groups at hlength hgroups
  obtain ⟨status, hjoined⟩ := story_sampleJoined hgroups
  have hl : Story S (sampleCrowd groups status) :=
    hjoined.step ⟨by rintro _ _ ⟨⟩, by rintro _ _ _ _ ⟨⟩⟩ (.sender (Node.step_eq_of_isOk rfl))
  obtain ⟨letter, hsent, hid, hsequence, hendpoint, hnames, hletter⟩ := sampleCrowd_sent groups status
  -- The HELLO arrives without groups.
  obtain ⟨hrc, hidentity, headers, hmsg⟩ := wrapped_recv hid (by rw [hendpoint]; decide) hnames hlength
    (fun name hname => hshort name (hgroups.2 name hname)) (1 :: (sampleCrowd groups status).a.uuid.data)
  rw [hsequence, hendpoint] at hmsg
  have hsender : Node.senderOf ((sampleCrowd groups status).frames letter) =
      some Node.sampleNode.uuid := Node.senderOf_of_recv hrc hidentity
  obtain ⟨b', hrecv, haccepted, hkeys, p, hp, hready, hconn⟩ := sampleStart_greeted headers
  rw [← hmsg] at hrecv haccepted
  have hfirst : (sampleCrowd groups status).sent[0]? = some letter := by
    rw [hsent]
    rfl
  have hok : Node.step (Node.sampleEnv 0) (.inbox ((sampleCrowd groups status).frames letter))
      (sampleCrowd groups status).b = .ok ⟨⟩ b' :=
    (congrFun (Node.recvPeer_of_sender hsender) _).trans hrecv
  let l : Link := { sampleCrowd groups status with
    b := b'
    delivered := [0]
    accepted := [0] }
  have hl' : Story S l := by
    have hlearns : Learns S (sampleCrowd groups status) (.deliver (Node.sampleEnv 0) 0
        ((sampleCrowd groups status).frames letter)) := by
      refine ⟨by rintro _ _ ⟨⟩, fun _ _ _ q _ _ hq => ?_⟩
      have hnone : (sampleCrowd groups status).b.peers.lookup (sampleCrowd groups status).a.identity =
        none := rfl
      exact absurd (hnone.symm.trans hq) (by simp)
    have haccepted : Node.accepted (Node.sampleEnv 0) (sampleCrowd groups status).a.uuid
      (Msg.recv ((sampleCrowd groups status).frames letter)).msg (sampleCrowd groups status).b = true :=
        haccepted
    have hstep := hl.step hlearns (.deliver ⟨le_rfl, .inl nofun⟩ hfirst hok)
    rwa [if_pos haccepted] at hstep
  have hknows : l.Knows letter := ⟨⟨p, hp, hready⟩, 0, rfl, hfirst⟩
  have hreaches : l.Reaches := ⟨p, hp, hconn⟩
  intro hagree
  have halike := hagree l l letter letter hl' hl' rfl hknows hknows fun _ => Iff.rfl
  match groups, hlength with
  | name :: rest, _ =>
  have hlisted : name ∉ l.b.groupsOf l.a.identity := by
    rw [Node.groupsOf_of_keys hkeys]
    exact Set.notMem_empty name
  exact not_addresses (Node.sturdy_of_reachable hl'.reachable.2) hlisted
    (halike.shout hreaches name (by rw [hletter]; exact List.mem_cons_self))

/-- **Names that are carried.** Two nodes whose groups have names in `S` agree on these names, whatever they
send each other, exactly when the names are at most 255 bytes long and there are fewer than 2^32 of them.
The names of HELLO have a size of four bytes and a count of four bytes, those of JOIN, LEAVE, SHOUT, ELECT
and LEADER a field of 255 bytes. The runs are those in which lists agree at all (`lists_of_run`), and a
SHOUT is compared only where it reaches the peer. -/
theorem namesAgree_iff (S : Set CStr) :
    NamesAgree S ↔ (∀ name ∈ S, name.length ≤ Msg.fieldSize) ∧ S.encard < 2 ^ 32 := by
  constructor
  · intro h
    have hshort : ∀ name ∈ S, name.length ≤ Msg.fieldSize := by
      intro name hname
      by_contra hlong
      exact not_namesAgree_of_long hname (not_le.mp hlong) h
    refine ⟨hshort, ?_⟩
    by_contra hmany
    exact not_namesAgree_of_many hshort (not_lt.mp hmany) h
  · rintro ⟨hshort, hcount⟩
    exact namesAgree_of_short hshort hcount

/-- A name of 256 bytes. -/
theorem not_namesAgree_of_longer :
    ¬∀ S : Set CStr, NamesAgree S := by
  intro h
  have hlong : Msg.fieldSize < (CStr.ofChars (List.replicate 256 'x')).length := by decide +kernel
  exact not_namesAgree_of_long (Set.mem_singleton _) hlong (h {CStr.ofChars (List.replicate 256 'x')})

end Link

end Zyre
