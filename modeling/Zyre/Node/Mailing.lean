import Zyre.Node.Post

/-!
# What a node sends, peer by peer

`Mailing out n n'` says that from `n` to `n'` every connected peer has been sent what `out` says, numbered
on from the last message, and that nothing else has happened. It is what one message does, and what the
loops over the members of a group and over all peers do.
-/

namespace Zyre

namespace Msg

/-- Messages numbered from `last + 1` on. -/
def stamped : UInt16 → List Msg → List Msg
  | _, [] => []
  | last, m :: ms => m.setSequence (last + 1) :: stamped (last + 1) ms

/-- The count after one message more. -/
theorem ofNat_length_cons {α : Type} (last : UInt16) (a : α) (as : List α) :
    last + UInt16.ofNat (a :: as).length = last + 1 + UInt16.ofNat as.length := by
  rw [List.length_cons, UInt16.ofNat_add, UInt16.add_assoc, UInt16.add_comm (UInt16.ofNat _)]
  rfl

/-- Numbering goes on where it stopped. -/
theorem stamped_append (last : UInt16) (ms ms' : List Msg) :
    stamped last (ms ++ ms') = stamped last ms ++ stamped (last + UInt16.ofNat ms.length) ms' := by
  induction ms generalizing last with
  | nil => simp [stamped]
  | cons m ms ih => rw [List.cons_append, stamped, stamped, ih, ofNat_length_cons, List.cons_append]

end Msg

namespace Node

variable {n n₁ n' : Node} {r : PeerRef} {p : Peer} {msg : Msg} {name Z : CStr} {ms ms' : List Msg}
  {out out' : CStr → List Msg}

/-- All messages ever handed to the mailboxes of a peer. -/
def outgoing (n : Node) (Z : CStr) : List Msg := (n.mailTo Z).map Prod.snd

/-- The messages are sent to `Z`, if its mailbox is connected. -/
def Posts (Z : CStr) (ms : List Msg) (n n' : Node) : Prop :=
  ∀ p, n.peers.lookup Z = some p → p.connected = true →
    n'.peers.lookup Z = some { p with sentSequence := p.sentSequence + UInt16.ofNat ms.length } ∧
      n'.outgoing Z = n.outgoing Z ++ Msg.stamped p.sentSequence ms

theorem Posts.of_eq (hpeers : n'.peers.lookup Z = n.peers.lookup Z) (hmail : n'.mailTo Z = n.mailTo Z) :
    Posts Z [] n n' := by
  intro p hp _
  refine ⟨hpeers.trans (hp.trans ?_), ?_⟩
  · simp
  · rw [outgoing, hmail, Msg.stamped, List.append_nil, outgoing]

/-- What is sent twice is sent one behind the other. -/
theorem Posts.trans (h : Posts Z ms n n₁) (h' : Posts Z ms' n₁ n') : Posts Z (ms ++ ms') n n' := by
  intro p hp hconn
  obtain ⟨hp₁, hout₁⟩ := h p hp hconn
  obtain ⟨hp', hout'⟩ := h' _ hp₁ hconn
  refine ⟨hp'.trans ?_, ?_⟩
  · rw [List.length_append, UInt16.ofNat_add, ← UInt16.add_assoc]
  · rw [hout', hout₁, List.append_assoc, Msg.stamped_append]

/-- Every connected peer has been sent what `out` says. -/
structure Mailing (out : CStr → List Msg) (n n' : Node) : Prop where
  own : n'.own = n.own
  peerGroups : n'.peerGroups = n.peerGroups
  outbox : n'.outbox = n.outbox
  keys : n'.peers.keys = n.peers.keys
  posts : ∀ Z, Posts Z (out Z) n n'

namespace Mailing

theorem refl (n : Node) : Mailing (fun _ => []) n n := ⟨rfl, rfl, rfl, rfl, fun _ => .of_eq rfl rfl⟩

theorem trans (h : Mailing out n n₁) (h' : Mailing out' n₁ n') :
    Mailing (fun Z => out Z ++ out' Z) n n' where
  own := h'.own.trans h.own
  peerGroups := h'.peerGroups.trans h.peerGroups
  outbox := h'.outbox.trans h.outbox
  keys := h'.keys.trans h.keys
  posts Z := (h.posts Z).trans (h'.posts Z)

theorem congr (h : Mailing out n n') (hout : ∀ Z, out Z = out' Z) : Mailing out' n n' :=
  funext hout ▸ h

theorem members (h : Mailing out n n') : n'.members = n.members := by
  funext name
  rw [Node.members, h.peerGroups, Node.members]

theorem identity (h : Mailing out n n') : n'.identity = n.identity :=
  (congrArg Node.identity h.own :)

end Mailing

/-! ### One message -/

/-- `zyre_peer_send` sends to one peer. -/
theorem peerSend_mailing : (peerSend r msg).wp
    (fun _ n' => Mailing (fun Z => if Z = r.identity then [msg] else []) n n') (fun _ _ => True) n := by
  refine wp_peerSend.mpr ⟨fun p hp hc => ⟨rfl, rfl, rfl, AList.keys_modify .., fun Z => ?_⟩, fun p hp hc =>
    ⟨rfl, rfl, rfl, rfl, fun Z => ?_⟩, fun _ => trivial⟩
  · have hmail : (n.posted r p msg).mailTo Z = _ := mailTo_append (n := n) (X := Z) _
    by_cases hZ : Z = r.identity
    · subst hZ
      rw [if_pos rfl]
      intro q hq _
      obtain rfl := Option.some_inj.mp ((lookup_of_deref hp).symm.trans hq)
      rw [if_pos rfl] at hmail
      refine ⟨by simp [Node.posted, hq], ?_⟩
      rw [outgoing, hmail, List.map_append]
      rfl
    · rw [if_neg hZ]
      rw [if_neg (Ne.symm hZ), List.append_nil] at hmail
      exact .of_eq (by simp [Node.posted, AList.lookup_modify_ne hZ]) hmail
  · -- The mailbox is closed, so the peer is none of the connected ones.
    by_cases hZ : Z = r.identity
    · subst hZ
      intro q hq hconn
      obtain rfl := Option.some_inj.mp ((lookup_of_deref hp).symm.trans hq)
      exact absurd (hc.symm.trans hconn) Bool.false_ne_true
    · rw [if_neg hZ]
      exact .of_eq rfl rfl

/-! ### Loops -/

/-- A loop whose rounds send the same message to different peers, or to none. -/
theorem forM_mailing {β : Type} {l : List β} {f : β → NodeM Unit} (msg : Msg) (key : β → CStr)
    (sel : β → Prop) [DecidablePred sel] (hnodup : (l.map key).Nodup)
    (hf : ∀ b ∈ l, ∀ n₁, (f b).wp
      (fun _ n₂ => Mailing (fun Z => if Z = key b ∧ sel b then [msg] else []) n₁ n₂) (fun _ _ => True) n₁) :
    (forM l f : NodeM Unit).wp
      (fun _ n' => Mailing (fun Z => if ∃ b ∈ l, key b = Z ∧ sel b then [msg] else []) n n')
      (fun _ _ => True) n := by
  refine EStateM.wp_forM_done
    (fun done n₁ => Mailing (fun Z => if ∃ b ∈ done, key b = Z ∧ sel b then [msg] else []) n n₁) ?_ ?_
    fun _ h => h
  · exact (Mailing.refl n).congr fun Z => by simp
  · intro done b rest hl n₁ hn₁
    refine EStateM.wp_mono (hf b (by rw [← hl]; simp) n₁) (fun _ n₂ hn₂ => ?_) fun _ _ h => h
    refine (hn₁.trans hn₂).congr fun Z => ?_
    -- The peer of this round is none of those before.
    have hfresh : ∀ b' ∈ done, key b' ≠ key b := by
      rw [← hl, List.map_append, List.map_cons, List.nodup_append] at hnodup
      exact fun b' hb' => hnodup.2.2 _ (List.mem_map_of_mem hb') _ List.mem_cons_self
    by_cases hdone : ∃ b' ∈ done, key b' = Z ∧ sel b'
    · obtain ⟨b', hb', rfl, hsel⟩ := hdone
      rw [if_pos ⟨b', hb', rfl, hsel⟩, if_neg fun h => hfresh b' hb' h.1,
        if_pos ⟨b', List.mem_append_left _ hb', rfl, hsel⟩, List.append_nil]
    · rw [if_neg hdone, List.nil_append]
      refine if_congr ?_ rfl rfl
      constructor
      · rintro ⟨rfl, hsel⟩
        exact ⟨b, by simp, rfl, hsel⟩
      · rintro ⟨b', hb', hkey, hsel⟩
        rcases List.mem_append.mp hb' with hb' | hb'
        · exact absurd ⟨b', hb', hkey, hsel⟩ hdone
        · obtain rfl := List.mem_singleton.mp hb'
          exact ⟨hkey.symm, hsel⟩

/-- The members of the group are listed under their identities. -/
def Named (n : Node) (name : CStr) : Prop := ∀ e ∈ (n.members name).entries, e.2.identity = e.1

theorem Sturdy.named (hn : n.Sturdy) (name : CStr) : n.Named name := fun e he =>
  (hn.members name e.1 e.2 (AList.mem_lookup_iff.mpr he)).1

theorem Named.congr (h : n.Named name) (hmembers : n'.members = n.members) : n'.Named name := by
  rwa [Named, hmembers]

/-- A message to the group goes to every member. -/
theorem groupSend_mailing (hn : n.Named name) :
    (groupSend name msg).wp
      (fun _ n' => Mailing (fun Z => if Z ∈ n.members name then [msg] else []) n n')
      (fun _ _ => True) n := by
  have hkeys : ((n.members name).entries.map fun e => e.2.identity) = (n.members name).keys :=
    List.map_congr_left hn
  refine EStateM.wp_bind .. |>.mpr (wp_getGroup.mpr ?_)
  show (forM (n.members name).entries fun e => peerSend e.2 msg : NodeM Unit).wp _ _ n
  refine EStateM.wp_mono (forM_mailing msg (fun e => e.2.identity) (fun _ => True)
    (hkeys ▸ (n.members name).nodupKeys) fun e _ n₁ => ?_) (fun _ n' hn' => hn'.congr fun Z => ?_)
    fun _ _ h => h
  · exact EStateM.wp_mono peerSend_mailing (fun _ n₂ hn₂ => hn₂.congr fun Z => by simp only [and_true])
      fun _ _ h => h
  · refine if_congr ?_ rfl rfl
    rw [AList.mem_keys, ← hkeys, List.mem_map]
    simp only [and_true]

/-- A message to all peers. -/
theorem sendPeers_mailing :
    (sendPeers msg).wp (fun _ n' => Mailing (fun Z => if Z ∈ n.peers then [msg] else []) n n')
      (fun _ _ => True) n := by
  refine EStateM.wp_bind .. |>.mpr (EStateM.wp_get.mpr ?_)
  refine EStateM.wp_mono (forM_mailing msg Sigma.fst (fun _ => True) n.peers.nodupKeys
    fun e _ n₁ => ?_) (fun _ n' hn' => hn'.congr fun Z => ?_) fun _ _ h => h
  · exact EStateM.wp_mono peerSend_mailing (fun _ n₂ hn₂ => hn₂.congr fun Z => by simp only [and_true])
      fun _ _ h => h
  · refine if_congr ?_ rfl rfl
    rw [AList.mem_keys, AList.keys, List.keys, List.mem_map]
    simp only [and_true]

end Node

end Zyre
