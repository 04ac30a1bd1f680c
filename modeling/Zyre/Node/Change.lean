import Zyre.Node.Session

/-!
# What a node does, change by change

`Change` lists everything a program on a node can do to its tables, one entry at a time. The programs
are sequences of changes (`Changes`), so what every change keeps holds in every state a node comes
to; `Sturdy` is the first invariant of this kind: a group lists only peers that are there, an
election of another node's wave has a father, and the numbers of the peer objects are used up.
-/

namespace Zyre

namespace Node

/-- The commands other than the three that tell of a node and its groups. -/
def talk : Set MsgId := {id | id ≠ .hello ∧ id ≠ .join ∧ id ≠ .leave ∧ id ≠ .unset}

/-- One change; `D` are the peers that may be removed. -/
inductive Change (D : Set CStr) (n : Node) : Node → Prop
  | move {n' : Node} (h : Move talk n n') : Change D n n'
  | peer (X : CStr) (p : Peer) (f : Peer → Peer) (hX : n.peers.lookup X = some p)
      (hserial : (f p).serial = p.serial) (hconn : (f p).connected = p.connected)
      (hsent : (f p).sentSequence = p.sentSequence) :
      Change D n { n with peers := n.peers.modify X f }
  | join (name : CStr) (r : PeerRef) (hr : n.Live r) :
      Change D n { n with peerGroups := n.peerGroups.modify name (·.join r) }
  | leave (name : CStr) (r : PeerRef) :
      Change D n { n with peerGroups := n.peerGroups.modify name (·.leave r) }
  | contest (name : CStr) :
      Change D n { n with
        peerGroups := n.peerGroups.modify name fun g => { g with contest := true } }
  | purge (endpoint : CStr) : Change D n (n.purged endpoint)
  | count : Change D n { n with serial := n.serial + 1 }
  | create (X : CStr) (q : Peer) (hX : n.peers.lookup X = none) (hserial : q.serial = n.serial)
      (hconn : q.connected = false) : Change D n (n.opening X q [])
  | greet (X : CStr) (q : Peer) (msg : Msg) (hX : n.peers.lookup X = none)
      (hserial : q.serial = n.serial) (hconn : q.connected = true) (hsent : q.sentSequence = 1)
      (hid : msg.id = .hello) (hseq : msg.sequence = 1) (hgroups : msg.groups = some n.ownGroups)
      (hstatus : msg.status = n.status) (hendpoint : msg.endpoint.length ≤ Msg.fieldSize) :
      Change D n (n.opening X q [(⟨X, n.serial⟩, msg)])
  | remove (X : CStr) (hX : X ∈ D) (hgone : ∀ name, X ∉ n.members name) :
      Change D n { n with peers := n.peers.erase X }
  | know {n' : Node} (hpeers : n'.peers = n.peers) (hgroups : n'.peerGroups = n.peerGroups)
      (hserial : n'.serial = n.serial) (hmail : n'.mail = n.mail) (huuid : n'.uuid = n.uuid)
      (hown : n'.ownGroups = n.ownGroups) (hstatus : n'.status = n.status) : Change D n n'

/-- Any number of changes. -/
abbrev Changes (D : Set CStr) : Node → Node → Prop := Relation.ReflTransGen (Change D)

variable {D D' : Set CStr} {n n' : Node} {r : PeerRef} {X name : CStr} {p : Peer}

/-- More peers may be freed. -/
theorem Change.mono (h : Change D n n') (hD : D ⊆ D') : Change D' n n' := by
  cases h with
  | move h => exact .move h
  | peer X p f hX hserial hconn hsent => exact .peer X p f hX hserial hconn hsent
  | join name r hr => exact .join name r hr
  | leave name r => exact .leave name r
  | contest name => exact .contest name
  | purge endpoint => exact .purge endpoint
  | count => exact .count
  | create X q hX hserial hconn => exact .create X q hX hserial hconn
  | greet X q msg hX hserial hconn hsent hid hseq hgroups hstatus hendpoint =>
    exact .greet X q msg hX hserial hconn hsent hid hseq hgroups hstatus hendpoint
  | remove X hX hgone => exact .remove X (hD hX) hgone
  | know hpeers hgroups hserial hmail huuid hown hstatus =>
    exact .know hpeers hgroups hserial hmail huuid hown hstatus

/-- More peers may be freed. -/
theorem Changes.mono (h : Changes D n n') (hD : D ⊆ D') : Changes D' n n' :=
  Relation.ReflTransGen.mono (fun _ _ h => h.mono hD) _ _ h

/-- What every change keeps, changes keep. -/
theorem Changes.invariant {I : Node → Prop} (hstep : ∀ n n', Change D n n' → I n → I n')
    (h : Changes D n n') (hn : I n) : I n' := by
  induction h with
  | refl => exact hn
  | tail _ hchange ih => exact hstep _ _ hchange ih

/-- Moves are changes that free nobody. -/
theorem Moves.changes (h : Moves talk n n') : Changes D n n' :=
  Relation.ReflTransGen.mono (fun _ _ h => .move h) _ _ h

/-- No change touches the UUID, the own groups or the status. -/
theorem Change.uuid (h : Change D n n') : n'.uuid = n.uuid := by
  cases h with
  | move h => cases h <;> rfl
  | know hpeers hgroups hserial hmail huuid hown hstatus => exact huuid
  | _ => rfl

theorem Change.identity (h : Change D n n') : n'.identity = n.identity :=
  congrArg Uuid.str h.uuid

theorem Change.ownGroups (h : Change D n n') : n'.ownGroups = n.ownGroups := by
  cases h with
  | move h => cases h <;> rfl
  | know hpeers hgroups hserial hmail huuid hown hstatus => exact hown
  | _ => rfl

theorem Change.status (h : Change D n n') : n'.status = n.status := by
  cases h with
  | move h => cases h <;> rfl
  | know hpeers hgroups hserial hmail huuid hown hstatus => exact hstatus
  | _ => rfl

theorem Changes.uuid (h : Changes D n n') : n'.uuid = n.uuid :=
  h.invariant (I := fun m => m.uuid = n.uuid) (fun _ _ h hi => h.uuid.trans hi) rfl

theorem Changes.identity (h : Changes D n n') : n'.identity = n.identity :=
  h.invariant (I := fun m => m.identity = n.identity) (fun _ _ h hi => h.identity.trans hi) rfl

theorem Changes.ownGroups (h : Changes D n n') : n'.ownGroups = n.ownGroups :=
  h.invariant (I := fun m => m.ownGroups = n.ownGroups) (fun _ _ h hi => h.ownGroups.trans hi) rfl

theorem Changes.status (h : Changes D n n') : n'.status = n.status :=
  h.invariant (I := fun m => m.status = n.status) (fun _ _ h hi => h.status.trans hi) rfl

/-! ### Live pointers -/

/-- A pointer is live if the table has the object it was made for. -/
theorem live_iff : n.Live r ↔ ∃ p, n.peers.lookup r.identity = some p ∧ p.serial = r.serial := by
  simp only [Live, Option.isSome_iff_exists, deref_eq_some]

/-- A change to an entry keeps its object. -/
theorem live_modify {f : Peer → Peer} (hX : n.peers.lookup X = some p)
    (hserial : (f p).serial = p.serial) :
    Live { n with peers := n.peers.modify X f } r ↔ n.Live r := by
  simp only [live_iff, AList.lookup_modify]
  split_ifs with h
  · subst h; simp [hX, hserial]
  · rfl

/-- A purge frees nobody. -/
theorem live_purged {endpoint : CStr} : (n.purged endpoint).Live r ↔ n.Live r := by
  have hserial : ∀ p, (purgePeer endpoint p).serial = p.serial := by
    intro p
    unfold purgePeer
    split_ifs <;> simp
  simp [live_iff, purged, hserial]

/-- An entry that is made frees nobody. -/
theorem live_opening {q : Peer} {ms : List (PeerRef × Msg)} (hX : n.peers.lookup X = none)
    (hr : n.Live r) : (n.opening X q ms).Live r := by
  obtain ⟨p, hp, hserial⟩ := live_iff.mp hr
  refine live_iff.mpr ⟨p, ?_, hserial⟩
  have hne : r.identity ≠ X := fun h => by rw [h, hX] at hp; cases hp
  simp [opening, AList.lookup_insert_ne hne, hp]

/-- A change keeps the peers that are not removed. -/
theorem Change.live (h : Change D n n') (hr : n.Live r) (hD : r.identity ∉ D) : n'.Live r := by
  cases h with
  | move h => exact (h.live r).mpr hr
  | peer X p f hX hserial hconn hsent => exact (live_modify hX hserial).mpr hr
  | purge endpoint => exact live_purged.mpr hr
  | create X q hX hserial hconn => exact live_opening hX hr
  | greet X q msg hX hserial hconn hsent hid hseq hgroups hstatus hendpoint => exact live_opening hX hr
  | remove X hX hgone =>
    have hne : r.identity ≠ X := fun h => hD (h ▸ hX)
    simpa [live_iff, AList.lookup_erase_ne hne] using live_iff.mp hr
  | know hpeers hgroups hserial hmail huuid hown hstatus =>
    simpa only [Live, deref_congr hpeers] using hr
  | _ => exact hr

/-- A peer that is not among those freed stays. -/
theorem Changes.live (h : Changes D n n') (hr : n.Live r) (hD : r.identity ∉ D) : n'.Live r :=
  h.invariant (I := fun m => m.Live r) (fun _ _ h hi => h.live hi hD) hr

/-! ### What holds in every state -/

/-- The groups list peers that are there, elections of other waves have a father, and the numbers
of peer objects are below the next one. -/
structure Sturdy (n : Node) : Prop where
  members : ∀ name X r, (n.members name).lookup X = some r → r.identity = X ∧ n.Live r
  fathered : ¬n.Orphan
  serials : ∀ X p, n.peers.lookup X = some p → p.serial < n.serial

/-- No election is an orphan if each is fathered. -/
theorem not_orphan_iff : ¬n.Orphan ↔ ∀ name g e, n.peerGroups.lookup name = some g →
    g.election = some e → e.Fathered n.identity := by
  simp only [Orphan, not_exists, not_and, not_not]

/-- Changing a group in a way that keeps its election keeps the elections fathered. -/
theorem not_orphan_modify {f : Group → Group} (hf : ∀ g, (f g).election = g.election)
    (h : ¬n.Orphan) : ¬Orphan { n with peerGroups := n.peerGroups.modify name f } := by
  rw [not_orphan_iff] at h ⊢
  intro name' g' e hg' he
  simp only [AList.lookup_modify] at hg'
  split_ifs at hg'
  · obtain ⟨g, hg, rfl⟩ := Option.map_eq_some_iff.mp hg'
    exact h name' g e hg (hf g ▸ he)
  · exact h name' g' e hg' he

/-- A member after a change to one group. -/
theorem lookup_members_modify {name' : CStr} {f : Group → Group} :
    (members { n with peerGroups := n.peerGroups.modify name f } name').lookup X =
      ((((n.peerGroups.lookup name').map
        fun g => if name' = name then f g else g).getD .new).peers).lookup X := by
  simp only [members, AList.lookup_modify]
  split_ifs with h <;> simp

/-- A member after a peer has joined was one before, or is the peer. -/
theorem lookup_members_join {name' : CStr} {r' : PeerRef}
    (h : (members { n with peerGroups := n.peerGroups.modify name (·.join r) } name').lookup X =
      some r') : (n.members name').lookup X = some r' ∨ name' = name ∧ X = r.identity ∧ r' = r := by
  rw [lookup_members_modify] at h
  cases hg : n.peerGroups.lookup name' with
  | none => simp [hg, Group.new, AList.lookup_empty] at h
  | some g =>
    simp only [hg, Option.map_some, Option.getD_some, members] at h ⊢
    split_ifs at h
    · simp only [Group.join, AList.lookup_insertNew] at h
      split_ifs at h with hX
      · subst hX
        cases hlook : g.peers.lookup r.identity <;> simp_all
      · exact Or.inl h
    · exact Or.inl h

/-- A member after a peer has left was one before, and is another one. -/
theorem lookup_members_leave {name' : CStr} {r' : PeerRef}
    (h : (members { n with peerGroups := n.peerGroups.modify name (·.leave r) } name').lookup X =
      some r') : (n.members name').lookup X = some r' := by
  rw [lookup_members_modify] at h
  cases hg : n.peerGroups.lookup name' with
  | none => simp [hg, Group.new, AList.lookup_empty] at h
  | some g =>
    simp only [hg, Option.map_some, Option.getD_some, members] at h ⊢
    split_ifs at h
    · simp only [Group.leave, AList.lookup_erase'] at h
      split_ifs at h
      exact h
    · exact h

/-- A move makes no orphan. -/
theorem Move.not_orphan {K : Set MsgId} (h : Move K n n') (hn : ¬n.Orphan) : ¬n'.Orphan := by
  rw [not_orphan_iff] at hn ⊢
  cases h with
  | group name f hf =>
    intro name' g' e hg' he
    simp only [AList.lookup_modify] at hg'
    split_ifs at hg' with hname
    · subst hname
      obtain ⟨g, hg, rfl⟩ := Option.map_eq_some_iff.mp hg'
      exact (hf g hg).fathered (fun e he => hn name' g e hg he) e he
    · exact hn name' g' e hg' he
  | addGroup name =>
    intro name' g' e hg' he
    simp only [AList.lookup_insertNew] at hg'
    split_ifs at hg' with hname
    · cases hg : n.peerGroups.lookup name with
      | none => rw [hg] at hg'; cases hg'; cases he
      | some g => rw [hg] at hg'; cases hg'; exact hn name g e hg he
    · exact hn name' g' e hg' he
  | send r p msg hr hc hid => exact hn
  | emit e he => exact hn

/-- A change to an entry keeps its number below the next one. -/
theorem serials_modify {f : Peer → Peer} (hserial : ∀ p, n.peers.lookup X = some p →
    (f p).serial = p.serial) (h : ∀ Y p, n.peers.lookup Y = some p → p.serial < n.serial) :
    ∀ Y p, (n.peers.modify X f).lookup Y = some p → p.serial < n.serial := by
  intro Y p hp
  simp only [AList.lookup_modify] at hp
  split_ifs at hp with hY
  · subst hY
    obtain ⟨q, hq, rfl⟩ := Option.map_eq_some_iff.mp hp
    exact hserial q hq ▸ h Y q hq
  · exact h Y p hp

/-- So does a move. -/
theorem Move.serials {K : Set MsgId} (h : Move K n n')
    (hn : ∀ X p, n.peers.lookup X = some p → p.serial < n.serial) :
    ∀ X p, n'.peers.lookup X = some p → p.serial < n'.serial := by
  cases h with
  | send r p msg hr hc hid => exact serials_modify (fun _ _ => rfl) hn
  | _ => exact hn

/-- A move keeps what is sturdy. -/
theorem Sturdy.move {K : Set MsgId} (hn : n.Sturdy) (h : Move K n n') : n'.Sturdy where
  members name X r hr := by
    rw [h.members] at hr
    exact ⟨(hn.members name X r hr).1, (h.live r).mpr (hn.members name X r hr).2⟩
  fathered := h.not_orphan hn.fathered
  serials := h.serials hn.serials

/-- And so do many. -/
theorem Sturdy.moves {K : Set MsgId} (hn : n.Sturdy) (h : Moves K n n') : n'.Sturdy := by
  induction h with
  | refl => exact hn
  | tail _ hmove ih => exact ih.move hmove

/-- A new object under an unused identity. -/
theorem Sturdy.opening (hn : n.Sturdy) {q : Peer} {ms : List (PeerRef × Msg)}
    (hX : n.peers.lookup X = none) (hserial : q.serial = n.serial) :
    (n.opening X q ms).Sturdy where
  members name Y r hr := ⟨(hn.members name Y r hr).1, live_opening hX (hn.members name Y r hr).2⟩
  fathered := hn.fathered
  serials Y p hp := by
    simp only [Node.opening, AList.lookup_insert'] at hp ⊢
    split_ifs at hp
    · cases hp; omega
    · exact (hn.serials Y p hp).trans (Nat.lt_succ_self _)

/-- Only the tables and the identity matter. -/
theorem Sturdy.congr (hn : n.Sturdy) (hpeers : n'.peers = n.peers)
    (hgroups : n'.peerGroups = n.peerGroups) (hserial : n'.serial = n.serial)
    (huuid : n'.uuid = n.uuid) : n'.Sturdy where
  members name X r hr := by
    rw [Node.members, hgroups] at hr
    simpa only [Live, deref_congr hpeers] using hn.members name X r hr
  fathered := by
    have hfathered := not_orphan_iff.mp hn.fathered
    rw [not_orphan_iff, hgroups, identity, huuid]
    exact hfathered
  serials := by rw [hpeers, hserial]; exact hn.serials

/-- Every change does, also one that frees peers. -/
theorem Sturdy.change (hn : n.Sturdy) (h : Change D n n') : n'.Sturdy := by
  cases h with
  | move h => exact hn.move h
  | peer X p f hX hserial hconn hsent =>
    refine ⟨fun name Y r hr => ?_, hn.fathered, serials_modify (fun q hq => ?_) hn.serials⟩
    · exact ⟨(hn.members name Y r hr).1, (live_modify hX hserial).mpr (hn.members name Y r hr).2⟩
    · cases hX.symm.trans hq; exact hserial
  | join name r hr =>
    refine ⟨fun name' X r' hr' => ?_, not_orphan_modify (fun _ => rfl) hn.fathered, hn.serials⟩
    rcases lookup_members_join hr' with h | ⟨-, rfl, rfl⟩
    · exact hn.members name' X r' h
    · exact ⟨rfl, hr⟩
  | leave name r =>
    refine ⟨fun name' X r' hr' => ?_, not_orphan_modify (fun _ => rfl) hn.fathered, hn.serials⟩
    exact hn.members name' X r' (lookup_members_leave hr')
  | contest name =>
    refine ⟨fun name' X r' hr' => ?_, not_orphan_modify (fun _ => rfl) hn.fathered, hn.serials⟩
    rw [members_modify (f := fun g => { g with contest := true }) fun _ _ => rfl] at hr'
    exact hn.members name' X r' hr'
  | purge endpoint =>
    refine ⟨fun name X r hr => ?_, hn.fathered, fun X p hp => ?_⟩
    · exact ⟨(hn.members name X r hr).1, live_purged.mpr (hn.members name X r hr).2⟩
    · obtain ⟨q, hq, rfl⟩ := Option.map_eq_some_iff.mp ((AList.lookup_mapValues ..).symm.trans hp)
      have hserial : (purgePeer endpoint q).serial = q.serial := by
        unfold purgePeer; split_ifs <;> simp
      exact hserial ▸ hn.serials X q hq
  | count =>
    exact ⟨hn.members, hn.fathered, fun X p hp => (hn.serials X p hp).trans (Nat.lt_succ_self _)⟩
  | create X q hX hserial hconn => exact hn.opening hX hserial
  | greet X q msg hX hserial hconn hsent hid hseq hgroups hstatus hendpoint => exact hn.opening hX hserial
  | remove X hX hgone =>
    refine ⟨fun name Y r hr => ?_, hn.fathered, fun Y p hp => ?_⟩
    · obtain ⟨hid, hlive⟩ := hn.members name Y r hr
      refine ⟨hid, ?_⟩
      have hlisted : Y ∈ n.members name := AList.lookup_isSome.mp (Option.isSome_of_mem hr)
      have hne : r.identity ≠ X := fun h => hgone name (h ▸ hid ▸ hlisted)
      simpa [live_iff, AList.lookup_erase_ne hne] using live_iff.mp hlive
    · rw [AList.lookup_erase'] at hp
      split_ifs at hp
      exact hn.serials Y p hp
  | know hpeers hgroups hserial hmail huuid hown hstatus => exact hn.congr hpeers hgroups hserial huuid

/-- And so do many. -/
theorem Sturdy.changes (hn : n.Sturdy) (h : Changes D n n') : n'.Sturdy :=
  h.invariant (fun _ _ h hi => hi.change h) hn

/-- In a sturdy state there is no cause for the faults of moves. -/
theorem Sturdy.not_cause (hn : n.Sturdy) (f : Fault) : ¬Cause f n := by
  have hmember : ∀ name g X r, n.peerGroups.lookup name = some g → g.peers.lookup X = some r →
      r.identity = X ∧ n.Live r := by
    intro name g X r hg hr
    exact hn.members name X r (by rw [Node.members, hg]; exact hr)
  cases f with
  | dangling =>
    rintro ⟨name, g, X, r, hg, hr, hdead⟩
    exact hdead (hmember name g X r hg hr).2
  | assertion =>
    rintro ⟨name, g, hg, X, hX, hunknown⟩
    obtain ⟨r, hr⟩ := Option.isSome_iff_exists.mp (AList.lookup_isSome.mpr hX)
    obtain ⟨rfl, hlive⟩ := hmember name g X r hg hr
    obtain ⟨p, hp, -⟩ := live_iff.mp hlive
    exact hunknown (AList.lookup_isSome.mp (by rw [hp]; rfl))
  | nullContainer => exact id
  | serverKey => exact id

end Node

end Zyre
