import Zyre.Node.Inputs

/-!
# Which runs leave no dangling pointer

A leader or a father stays behind when its peer is removed, unless every group that points to it is
one of the node's own and restarts its election. `Tidy` says this of the peers a step removes, in
terms of the state before it; along tidy steps everything a group points to is there.
-/

namespace Zyre

namespace Node

variable {n n' : Node} {r : PeerRef} {p : Peer} {name X : CStr} {msg : Msg} {env : Env}
  {uuid : Uuid} {input : Input}

/-! ### Removals that leave nothing behind -/

/-- **A clean removal** leaves no pointer to the peer removed. -/
theorem removePeer_sound (hn : n.Sound) (hr : n.Live r) (hclean : n.Clean r) :
    (removePeer r).wp (fun _ n' => n'.Sound) (fun _ _ => True) n := by
  refine EStateM.wp_mono (EStateM.wp_and (removePeer_changes (D := {r.identity}) (B := True) hr rfl
    fun _ => trivial) removePeer_groups) (fun _ n' h => ?_) fun _ _ _ => trivial
  exact h.2.sound hn hr hclean h.1

/-- Changes that remove no peer. -/
theorem sound_of_keeps {α : Type} {x : NodeM α} {B : Prop} (hn : n.Sound)
    (h : x.Keeps (Changes ∅) (Blame B) n) :
    x.wp (fun _ n' => n'.Sound) (fun _ _ => True) n :=
  EStateM.wp_mono h (fun _ _ h => hn.changes h) fun _ _ _ => trivial

/-- The same pointers into a table that has lost nothing. -/
theorem Sound.congr (hn : n.Sound) (hgroups : n'.peerGroups = n.peerGroups)
    (hlive : ∀ r, n.Live r → n'.Live r) : n'.Sound :=
  fun r hr => hlive r (hn r ((refers_congr hgroups).mp hr))

/-- The second half of the HELLO gate on a node where the sender has no entry: the entry it makes is
not pointed to. -/
theorem helloRequire_sound (hn : n.Sound) (hnew : n.peers.lookup uuid.str = none) :
    (helloRequire env uuid msg).wp
      (fun o n' => n'.Sound ∧ ∀ r, o = some r → n'.Live r ∧ ¬n'.Refers r) (fun _ _ => True) n := by
  have hboth := EStateM.wp_and (x := helloRequire env uuid msg) (s := n) (EStateM.wp_and
    (helloRequire_changes (B := True) (fun _ _ => trivial) (fun _ _ => trivial)
      fun _ _ _ _ _ => trivial) helloRequire_groups) helloRequire_found
  refine EStateM.wp_mono hboth ?_ fun _ _ _ => trivial
  rintro o n' ⟨⟨hchanges, hgroups⟩, hfound⟩
  refine ⟨hn.changes hchanges, fun r ho => ⟨(hfound r ho).2, fun hr => ?_⟩⟩
  obtain ⟨p, hp, -⟩ := live_iff.mp (hn r ((refers_congr hgroups).mp hr))
  rw [(hfound r ho).1, hnew] at hp
  cases hp

/-- Making a peer ready moves no pointer. -/
theorem markReady_sound (hn : n.Sound) (hr : n.Live r) :
    (modifyPeer r fun p => { p with ready := true }).wp
      (fun _ n' => n'.Sound ∧ n'.peerGroups = n.peerGroups ∧ n'.ownGroups = n.ownGroups ∧ n'.Live r)
      (fun _ _ => False) n := by
  obtain ⟨p, hp⟩ := hr.exists
  refine wp_modifyPeer.mpr ⟨fun _ _ => ?_, fun h => nomatch hp.symm.trans h⟩
  have hlive : ∀ r', Live { n with peers := n.peers.modify r.identity fun p =>
      { p with ready := true } } r' ↔ n.Live r' := fun r' => live_modify (lookup_of_deref hp) rfl
  exact ⟨hn.congr rfl fun r' h => (hlive r').mpr h, rfl, rfl, (hlive r).mpr hr⟩

/-- The HELLO gate: what it lets in can be removed again. -/
theorem helloGate_sound (hn : n.Sound)
    (hclean : ∀ p, n.peers.lookup uuid.str = some p → Removes env n uuid.str msg →
      n.Clean ⟨uuid.str, p.serial⟩) (hid : msg.id = .hello) :
    (helloGate env uuid msg).wp
      (fun o n' => n'.Sound ∧ ∀ r, o = some r → n'.Live r ∧ (msg.sequence ≠ 1 → n'.Clean r))
      (fun _ _ => True) n := by
  -- The second half, on a node without an entry.
  have hrest : ∀ n₁ : Node, n₁.Sound → n₁.peers.lookup uuid.str = none →
      (helloAdmit env uuid msg).wp
      (fun o n' => n'.Sound ∧ ∀ r, o = some r → n'.Live r ∧ (msg.sequence ≠ 1 → n'.Clean r))
      (fun _ _ => True) n₁ := by
    intro n₁ hn₁ hnew
    refine EStateM.wp_bind .. |>.mpr (EStateM.wp_mono (helloRequire_sound hn₁ hnew) ?_
      fun _ _ h => h)
    rintro o n₂ ⟨hn₂, hfound⟩
    cases o with
    | none => exact ⟨hn₂, fun _ h => by cases h⟩
    | some r =>
      obtain ⟨hr, hnot⟩ := hfound r rfl
      refine EStateM.wp_bind .. |>.mpr (EStateM.wp_mono (markReady_sound hn₂ hr) ?_
        fun _ _ h => h.elim)
      rintro _ n₃ ⟨hn₃, hgroups, -, hr₃⟩
      refine ⟨hn₃, fun r' hr' => ?_⟩
      obtain rfl := Option.some_inj.mp hr'
      exact ⟨hr₃, fun _ => clean_of_not_refers fun h => hnot ((refers_congr hgroups).mp h)⟩
  have hadmits : (helloGate env uuid msg).wp _ _ n := helloGate_admits
  revert hadmits
  simp only [helloGate, EStateM.wp_bind, wp_lookupPeer]
  cases hlook : n.peers.lookup uuid.str with
  | none => exact fun _ => hrest n hn hlook
  | some p =>
    have hderef := deref_of_lookup hlook
    simp only [Option.map_some, EStateM.wp_bind, wp_readPeer, hderef, Option.some_inj, forall_eq']
    rintro ⟨hadmits, -⟩
    refine ⟨?_, fun h => by cases h⟩
    revert hadmits
    by_cases hready : p.ready = true
    · intro _
      simp only [hready, if_true, EStateM.wp_bind]
      have hremoves : Removes env n uuid.str msg := by
        rw [Removes, if_pos hid]; exact Or.inl ⟨p, hlook, hready⟩
      refine EStateM.wp_mono (EStateM.wp_and (removePeer_sound hn (live_of_deref hderef)
        (hclean p hlook hremoves)) (removePeer_spec hderef)) ?_ fun _ _ _ => trivial
      rintro _ n₁ ⟨hn₁, hbecomes⟩
      have hgone : n₁.peers.lookup uuid.str = none := by
        have hentry : (n₁.view uuid.str).entry = none := by
          rw [hbecomes.view, Views.at_self]; rfl
        exact Option.map_eq_none_iff.mp hentry
      simp only [wp_lookupPeer, wp_assert, EStateM.wp_pure, hgone]
      exact ⟨fun _ => hrest n₁ hn₁ hgone, fun h => by cases h⟩
    · simp only [hready, if_false, EStateM.wp_bind, EStateM.wp_get, EStateM.wp_pure,
        EStateM.wp_ite, Bool.false_eq_true]
      rintro ⟨-, hadmits⟩
      refine ⟨fun _ => ⟨hn, fun _ h => by cases h⟩, fun hend => ?_⟩
      have hadmits := EStateM.wp_bind .. |>.mp (hadmits hend)
      refine EStateM.wp_bind .. |>.mpr (EStateM.wp_mono (EStateM.wp_and
        (helloRequire_spec_of_some hlook) hadmits) ?_ fun _ _ _ => trivial)
      rintro o n₁ ⟨⟨rfl, rfl | rfl⟩, hadmits⟩
      · exact ⟨hn, fun _ h => by cases h⟩
      · have hr := live_of_deref hderef
        refine EStateM.wp_bind .. |>.mpr (EStateM.wp_mono (EStateM.wp_and (markReady_sound hn hr)
          (EStateM.wp_bind .. |>.mp hadmits)) ?_ fun _ _ h => h.1.elim)
        rintro _ n₂ ⟨⟨hn₂, hgroups, hown, hr₂⟩, hadmits⟩
        refine ⟨hn₂, fun r' hr' => ?_⟩
        obtain rfl := Option.some_inj.mp hr'
        refine ⟨hr₂, fun hseq => (clean_congr hgroups hown).mpr (hclean p hlook ?_)⟩
        rw [Removes, if_pos hid]
        exact Or.inr ⟨(EStateM.wp_pure _ |>.mp hadmits).mp rfl, hseq⟩

/-- A message removes its sender only when it is out of sequence or says good-bye, and then cleanly. -/
theorem acceptMsg_sound (hn : n.Sound) (hp : n.deref r = some p)
    (hclean : (if msg.id = .hello then 1 else p.wantSequence + 1) ≠ msg.sequence ∨
      msg.id = .goodbye ∧ n.gossip = true → n.Clean r) :
    (acceptMsg env r msg).wp (fun _ n' => n'.Sound) (fun _ _ => True) n := by
  set k : UInt16 := if msg.id = .hello then 1 else p.wantSequence + 1 with hk
  by_cases hremoves : k ≠ msg.sequence ∨ msg.id = .goodbye ∧ n.gossip = true
  · set n₁ : Node := { n with
      peers := n.peers.modify r.identity fun _ => { p with wantSequence := k } } with hn₁
    have hlive₁ : ∀ r', n₁.Live r' ↔ n.Live r' := fun r' => live_modify (lookup_of_deref hp) rfl
    have hr₁ : n₁.Live r := (hlive₁ r).mpr (live_of_deref hp)
    have hremove := removePeer_sound (n := n₁) (hn.congr rfl fun r' h => (hlive₁ r').mpr h) hr₁
      ((clean_congr rfl rfl).mpr (hclean hremoves))
    simp only [acceptMsg, EStateM.wp_bind, wp_readPeer, hp, Option.some_inj, forall_eq',
      Peer.messagesLost, wp_modifyPeer, ← hk]
    refine ⟨⟨?_, fun h => by cases h⟩, fun h => by cases h⟩
    show EStateM.wp _ _ _ n₁
    by_cases hlost : k = msg.sequence
    · obtain ⟨hbye, hgossip⟩ := hremoves.resolve_left (not_not.mpr hlost)
      have hgossip₁ : n₁.gossip = true := hgossip
      simp only [hlost, ne_eq, not_true_eq_false, decide_false, Bool.false_eq_true, if_false,
        dispatch, hbye, EStateM.wp_bind, EStateM.wp_get, hgossip₁, if_true]
      refine EStateM.wp_mono hremove (fun _ n' h => ?_) fun _ _ h => h
      simpa using h
    · simp only [ne_eq, hlost, not_false_eq_true, decide_true, if_true]
      exact hremove
  · exact sound_of_keeps hn (acceptMsg_changes (B := True) hp (fun h => absurd h hremoves)
      fun _ => ⟨fun _ _ => trivial, fun _ _ => trivial, fun _ _ _ => trivial, fun _ _ => trivial⟩)

/-- **A message** keeps the pointers sound if the removals it brings are clean. -/
theorem recvMsg_sound (hn : n.Sound)
    (hclean : ∀ p, n.peers.lookup uuid.str = some p → Removes env n uuid.str msg →
      n.Clean ⟨uuid.str, p.serial⟩) :
    (recvMsg env uuid msg).wp (fun _ n' => n'.Sound) (fun _ _ => True) n := by
  simp only [recvMsg, senderGate, EStateM.wp_bind]
  by_cases hid : msg.id = .hello
  · rw [if_pos hid]
    refine EStateM.wp_mono (helloGate_sound hn hclean hid) ?_ fun _ _ _ => trivial
    rintro o n₁ ⟨hn₁, hgate⟩
    cases o with
    | none => exact hn₁
    | some r =>
      obtain ⟨hr, hseq⟩ := hgate r rfl
      obtain ⟨p, hp⟩ := hr.exists
      simp only [EStateM.wp_bind, wp_readPeer, hp, Option.some_inj, forall_eq']
      refine ⟨EStateM.wp_ite .. |>.mpr ⟨fun _ => ?_, fun _ => hn₁⟩, nofun⟩
      refine acceptMsg_sound hn₁ hp fun h => hseq fun heq => ?_
      rcases h with h | ⟨h, -⟩
      · rw [if_pos hid] at h; exact h heq.symm
      · rw [hid] at h; cases h
  · rw [if_neg hid, wp_lookupPeer]
    cases hlook : n.peers.lookup uuid.str with
    | none => exact hn
    | some p =>
      have hp := deref_of_lookup hlook
      simp only [Option.map_some, EStateM.wp_bind, wp_readPeer, hp, Option.some_inj, forall_eq']
      refine ⟨EStateM.wp_ite .. |>.mpr ⟨fun hready => ?_, fun _ => hn⟩, nofun⟩
      refine acceptMsg_sound hn hp fun h => hclean p hlook ?_
      rw [if_neg hid] at h
      rw [Removes, if_neg hid]
      exact ⟨p, hlook, hready, h⟩

/-! ### Reaping -/

/-- A pass over a peer that has not expired leaves the groups. -/
theorem pingPeer_groups (hp : n.deref r = some p) (hexpired : ¬p.expiredAt.toInt64 ≤ env.now) :
    (pingPeer env r).wp (fun _ n' => n'.peerGroups = n.peerGroups) (fun _ _ => True) n := by
  have hsend : (peerSend r (Msg.new .ping)).Keeps (Sends {.ping}) _ n :=
    peerSend_keeps_of_live rfl (live_of_deref hp)
  simp only [pingPeer, EStateM.wp_bind, wp_readPeer, hp, Option.some_inj, forall_eq', if_neg hexpired]
  refine ⟨EStateM.wp_ite .. |>.mpr ⟨fun _ => ?_, fun _ => rfl⟩, fun h => by cases h⟩
  refine EStateM.wp_bind .. |>.mpr (EStateM.wp_mono hsend (fun _ n₁ h => ?_) fun _ _ _ => trivial)
  simp only [EStateM.wp_bind, wp_emit, EStateM.wp_get, EStateM.wp_ite, EStateM.wp_pure]
  exact ⟨fun _ => h.peerGroups, fun _ => h.peerGroups⟩

/-- **A pass** keeps the pointers sound if the peers it removes can be removed cleanly. -/
theorem reap_sound {visited : List CStr} (hn : n.Sound)
    (hclean : ∀ X ∈ expired env n visited, ∀ p, n.peers.lookup X = some p →
      n.Clean ⟨X, p.serial⟩) :
    (reap env visited).wp (fun _ n' => n'.Sound) (fun _ _ => True) n := by
  refine EStateM.wp_forM (fun n₁ => n₁.Sound ∧ Timed n n₁ ∧ n₁.ownGroups = n.ownGroups ∧
    ∀ X ∈ expired env n visited, ∀ p, n.peers.lookup X = some p → n₁.Clean ⟨X, p.serial⟩)
    ⟨hn, Std.Refl.refl n, rfl, hclean⟩ ?_ fun _ h => h.1
  rintro X hvisited n₁ ⟨hn₁, htimed, hown, hclean₁⟩
  refine EStateM.wp_bind .. |>.mpr (wp_lookupPeer.mpr ?_)
  cases hlook : n₁.peers.lookup X with
  | none => exact ⟨hn₁, htimed, hown, hclean₁⟩
  | some p₁ =>
    have hderef := deref_of_lookup hlook
    have hr := live_of_deref hderef
    by_cases hexpired : p₁.expiredAt.toInt64 ≤ env.now
    · obtain ⟨p, hp, hpp₁, hserial⟩ := htimed X p₁ hlook
      have hmem : X ∈ expired env n visited := ⟨hvisited, p, hp, by rwa [hpp₁]⟩
      have hcleanX : n₁.Clean ⟨X, p₁.serial⟩ := hserial ▸ hclean₁ X hmem p hp
      have hboth := EStateM.wp_and (EStateM.wp_and (removePeer_changes (D := {X}) (B := True) hr rfl
        fun _ => trivial) removePeer_groups) (removePeer_timed (n := n₁))
      simp only [Option.map_some, pingPeer, EStateM.wp_bind, wp_readPeer, hderef, Option.some_inj,
        forall_eq', hexpired, if_true]
      refine ⟨EStateM.wp_mono hboth ?_ fun _ _ _ => trivial, fun h => by cases h⟩
      rintro _ n₂ ⟨⟨hchanges, hgroups⟩, htimed₂⟩
      refine ⟨hgroups.sound hn₁ hr hcleanX hchanges, IsTrans.trans _ _ _ htimed htimed₂,
        hchanges.ownGroups.trans hown, fun Y hY q hq => ?_⟩
      exact hgroups.clean hchanges.ownGroups (hclean₁ Y hY q hq)
    · have hboth := EStateM.wp_and (EStateM.wp_and (pingPeer_changes (D := ∅) (B := True) hderef
        hexpired) (pingPeer_groups hderef hexpired)) (pingPeer_timed hderef hexpired)
      refine EStateM.wp_mono hboth ?_ fun _ _ _ => trivial
      rintro _ n₂ ⟨⟨hchanges, hgroups⟩, htimed₂⟩
      refine ⟨hn₁.changes hchanges, IsTrans.trans _ _ _ htimed htimed₂,
        hchanges.ownGroups.trans hown, fun Y hY q hq => ?_⟩
      exact (clean_congr hgroups hchanges.ownGroups).mpr (hclean₁ Y hY q hq)

/-! ### Tidy steps -/

/-- The peers an iteration removes. -/
def removed (env : Env) (n : Node) (input : Input) : Set CStr :=
  removes env n input ∪ {X | ∃ frames uuid, input = .inbox frames ∧ senderOf frames = some uuid ∧
    X = uuid.str ∧ Removes env n X (Msg.recv frames).msg}

/-- Every group that points to a peer the iteration removes is one of the node's own, contested, and
its election is running or led by the peer. -/
def Tidy (env : Env) (n : Node) (input : Input) : Prop :=
  ∀ X ∈ removed env n input, ∀ p, n.peers.lookup X = some p → n.Clean ⟨X, p.serial⟩

/-- Moves keep the pointers sound. -/
theorem Sound.moves {K : Set MsgId} (hn : n.Sound) (h : Moves K n n') : n'.Sound := by
  induction h with
  | refl => exact hn
  | tail _ hmove ih =>
    intro r hr
    rcases hmove.refers hr with hr | hr
    · exact (hmove.live r).mpr (ih r hr)
    · exact hr

/-- One tidy step keeps the pointers sound. -/
theorem Sound.step (hn : n.Sound) (htidy : Tidy env n input) :
    (Node.step env input).wp (fun _ n' => n'.Sound) (fun _ _ => True) n := by
  have hremoves : ∀ X ∈ removes env n input, ∀ p, n.peers.lookup X = some p →
      n.Clean ⟨X, p.serial⟩ := fun X hX => htidy X (Or.inl hX)
  cases input with
  | inbox frames =>
    simp only [Node.step]
    cases hsender : senderOf frames with
    | none =>
      rw [recvPeer_of_none hsender]
      exact hn
    | some uuid =>
      rw [recvPeer_of_sender hsender]
      exact recvMsg_sound hn fun p hp h =>
        htidy uuid.str (Or.inr ⟨frames, uuid, rfl, hsender, rfl, h⟩) p hp
  | api command =>
    cases hc : command.regroups with
    | false => exact sound_of_keeps hn (recvApi_changes hc)
    | true =>
      refine EStateM.wp_mono (recvApi_regroups hc) ?_ fun _ _ h => h
      rintro _ n' ⟨own, status, own', n₁, hmoves, rfl⟩
      have hn₀ : Sound { n with ownGroups := own, status := status } := hn.congr rfl fun _ h => h
      exact (hn₀.moves hmoves).congr rfl fun _ h => h
  | beacon ipaddress frame publicKey =>
    simp only [Node.step, recvBeacon, EStateM.wp_bind, EStateM.wp_get]
    refine EStateM.wp_ite .. |>.mpr ⟨fun _ => hn, fun hversion => ?_⟩
    refine EStateM.wp_ite .. |>.mpr ⟨fun _ => hn, fun hsecret => ?_⟩
    refine EStateM.wp_ite .. |>.mpr ⟨fun _ => ?_, fun hport => ?_⟩
    · exact EStateM.wp_bind .. |>.mpr (EStateM.wp_mono (sound_of_keeps hn requirePeer_any)
        (fun _ _ h => h) fun _ _ h => h)
    · refine EStateM.wp_bind .. |>.mpr (wp_lookupPeer.mpr ?_)
      cases hlook : n.peers.lookup (beaconUuid frame).str with
      | none => exact hn
      | some p =>
        refine removePeer_sound hn (live_of_deref (deref_of_lookup hlook)) (hremoves _ ?_ p hlook)
        exact ⟨rfl, not_not.mp hversion, hsecret, not_not.mp hport⟩
  | gossip uuid service => exact sound_of_keeps hn recvGossip_changes
  | reap visited => exact reap_sound hn hremoves

/-- **No dangling pointers.** In a run of tidy steps every leader and every father of an election is a live
entry of the peers table. Pointers are made only to the sender of the message, which is live
(`Sound.moves`); a removal takes them out of the groups it restarts, and tidy says that there are no others.
-/
theorem sound_of_run (h : Run Tidy n) : n.Sound := by
  induction h with
  | new uuid endpoint =>
    rintro r ⟨name, g, hg, -⟩
    cases hg
  | step env input hn hc h ih => exact (EStateM.wp_of_ok h (ih.step hc) :)

/-- A message that removes nobody is tidy. -/
theorem tidy_inbox {frames : List Frame}
    (h : ∀ uuid, senderOf frames = some uuid → ¬Removes env n uuid.str (Msg.recv frames).msg) :
    Tidy env n (.inbox frames) := by
  rintro X (hX | ⟨_, uuid, hinput, hsender, rfl, hremoves⟩)
  · exact absurd hX (Set.notMem_empty X)
  · cases hinput
    exact absurd hremoves (h uuid hsender)

/-- No command of the application removes a peer. -/
theorem tidy_api (c : Command) : Tidy env n (.api c) := by
  rintro X (hX | ⟨_, _, hinput, -⟩)
  · exact absurd hX (Set.notMem_empty X)
  · cases hinput

/-- A first HELLO of a peer that is not known removes nobody. -/
theorem not_removes_hello (hid : msg.id = .hello) (hseq : msg.sequence = 1) (h : n.peers.lookup X = none) :
    ¬Removes env n X msg := by
  rw [Removes, if_pos hid]
  rintro (⟨p, hp, -⟩ | ⟨-, hne⟩)
  · cases h.symm.trans hp
  · exact hne hseq

/-- Nor does another message that comes next, unless it is GOODBYE. -/
theorem not_removes_next (hid : msg.id ≠ .hello) (hbye : msg.id ≠ .goodbye)
    (hp : n.peers.lookup X = some p) (hseq : p.wantSequence + 1 = msg.sequence) : ¬Removes env n X msg := by
  rw [Removes, if_neg hid]
  rintro ⟨q, hq, -, hlost | ⟨hgoodbye, -⟩⟩
  · cases hp.symm.trans hq
    exact hlost hseq
  · exact hbye hgoodbye

/-- The one peer in the contested group leads it. -/
def ledBySole : Node := final (Node.step (sampleEnv 0) (sampleInput 1 sampleLeader) soleNode)

theorem run_soleNode : Run Tidy soleNode := by
  have hcontesting : Run Tidy contestingNode :=
    .step _ _ (.step _ _ (.new _ _) (tidy_api _) (step_eq_of_isOk (by decide))) (tidy_api _)
      (step_eq_of_isOk (by decide +kernel))
  have hsender : senderOf ((1 :: (sampleUuid 1).data) :: sampleHello.frames) = some (sampleUuid 1) := by decide
  refine .step _ _ hcontesting (tidy_inbox fun uuid huuid => ?_) (step_eq_of_isOk (by decide +kernel))
  obtain rfl := Option.some_inj.mp (hsender.symm.trans huuid)
  exact not_removes_hello (by decide) (by decide) (by decide +kernel)

theorem run_ledBySole : Run Tidy ledBySole := by
  have hwant : (soleNode.peers.lookup (sampleUuid 1).str).map (·.wantSequence) = some 1 := by
    decide +kernel
  have hsender : senderOf ((1 :: (sampleUuid 1).data) :: sampleLeader.frames) = some (sampleUuid 1) := by
    decide
  obtain ⟨p, hp, hw⟩ := Option.map_eq_some_iff.mp hwant
  refine .step _ _ run_soleNode (tidy_inbox fun uuid huuid => ?_) (step_eq_of_isOk (by decide +kernel))
  obtain rfl := Option.some_inj.mp (hsender.symm.trans huuid)
  exact not_removes_next (by decide) (by decide) hp (by rw [hw]; decide +kernel)

/-- The leader of a contested group expires, and no pointer to it is left. -/
theorem sound_expiry :
    Sound (final (Node.step (sampleEnv 100000) (.reap [(sampleUuid 1).str]) ledBySole)) := by
  refine sound_of_run (.step _ _ run_ledBySole ?_ (step_eq_of_isOk (by decide +kernel)))
  rintro X (⟨hX, -⟩ | ⟨_, _, hinput, -⟩) p hp name g hg -
  · obtain rfl := List.mem_singleton.mp hX
    have hserial : (ledBySole.peers.lookup (sampleUuid 1).str).map (·.serial) = some 0 := by decide +kernel
    rw [hp] at hserial
    have hserial : p.serial = 0 := Option.some_inj.mp hserial
    have hall : ∀ e ∈ ledBySole.peerGroups.entries, e.1 ∈ ledBySole.ownGroups ∧
        e.2.restarts ⟨(sampleUuid 1).str, 0⟩ = true := by decide +kernel
    rw [hserial]
    exact hall _ (AList.mem_lookup_iff.mp hg)
  · cases hinput

/-- An ELECT with the peer's own challenge. -/
def sampleElect : Msg :=
  { (Msg.new .elect).setSequence 2 with
    group := CStr.ofChars ['g'], challengerId := (sampleUuid 1).str }

/-- The father of an election in a group that is not contested stays behind when its peer
expires. -/
theorem not_sound_of_expiry : ¬∀ n, Reachable n → n.Sound := by
  intro h
  let father : Node → Option PeerRef := fun n =>
    ((n.peerGroups.lookup (CStr.ofChars ['g'])).bind (·.election)).bind (·.father)
  let inputs : List (Env × Input) :=
    [(sampleEnv 0, sampleInput 1 sampleHello), (sampleEnv 0, sampleInput 1 sampleElect),
      (sampleEnv 100000, .reap [(sampleUuid 1).str])]
  have hplay : (play inputs sampleNode).map (fun n => (father n, n.peers.lookup (sampleUuid 1).str)) =
      some (some ⟨(sampleUuid 1).str, 0⟩, none) := by
    decide +kernel
  obtain ⟨n, hn, hout⟩ := Option.map_eq_some_iff.mp hplay
  obtain ⟨hfather, hgone⟩ := Prod.mk.inj hout
  obtain ⟨e, he, hfather⟩ := Option.bind_eq_some_iff.mp hfather
  obtain ⟨g, hg, he⟩ := Option.bind_eq_some_iff.mp he
  have hlive := h n (reachable_of_play (.new _ _) hn) ⟨(sampleUuid 1).str, 0⟩
    ⟨_, g, hg, Or.inr ⟨e, he, hfather⟩⟩
  obtain ⟨p, hp, -⟩ := live_iff.mp hlive
  rw [hgone] at hp
  cases hp

end Node

end Zyre
