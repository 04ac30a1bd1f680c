import Zyre.Node.Steps

/-!
# The asserts on the status

JOIN and LEAVE compare the status in the message with the count the node keeps. A message that is the
next one of its peer and one ahead of that count fails no assert.
-/

namespace Zyre

namespace Node

variable {n n' : Node} {r : PeerRef} {p : Peer} {name : CStr} {msg : Msg} {env : Env} {uuid : Uuid}

/-- No assert fails when the program is started in `n`. -/
abbrev Asserts {α : Type} (x : NodeM α) (n : Node) : Prop :=
  x.wp (fun _ _ => True) (fun f _ => f ≠ .assertion) n

theorem Asserts.bind {α β : Type} {x : NodeM β} {f : β → NodeM α} (hx : Asserts x n)
    (hf : ∀ b n', Asserts (f b) n') : Asserts (x >>= f) n :=
  EStateM.wp_bind .. |>.mpr (EStateM.wp_mono hx (fun b n' _ => hf b n') fun _ _ h => h)

theorem Asserts.ite {α : Type} {c : Prop} [Decidable c] {x y : NodeM α} (hx : Asserts x n)
    (hy : Asserts y n) : Asserts (if c then x else y) n :=
  EStateM.wp_ite .. |>.mpr ⟨fun _ => hx, fun _ => hy⟩

theorem readPeer_asserts : Asserts (readPeer r) n :=
  wp_readPeer.mpr ⟨fun _ _ => trivial, fun _ => nofun⟩

theorem modifyPeer_asserts {f : Peer → Peer} : Asserts (modifyPeer r f) n :=
  wp_modifyPeer.mpr ⟨fun _ _ => trivial, fun _ => nofun⟩

theorem peerSend_asserts : Asserts (peerSend r msg) n :=
  wp_peerSend.mpr ⟨fun _ _ _ => trivial, fun _ _ _ => trivial, fun _ => nofun⟩

theorem startElection_asserts : Asserts (startElection name) n := by
  refine .bind (x := get) trivial fun n₁ n₂ => .bind (x := setElection name _) trivial fun _ n₃ => ?_
  refine .bind (x := setLeader name none) trivial fun _ n₄ => ?_
  have hbuild : buildElectMsg (Election.new.setCaw n₁.identity) name = pure _ :=
    buildElectMsg_of_caw rfl
  rw [hbuild]
  refine .bind (x := pure _) trivial fun electionMsg n₅ => .bind (x := getGroup name) trivial
    fun g n₆ => ?_
  exact EStateM.wp_forM (fun _ => True) trivial (fun e _ n' _ => peerSend_asserts) fun _ _ => trivial

theorem restart_asserts : Asserts (do if (← getGroup name).contest then startElection name) n :=
  .bind (x := getGroup name) trivial fun _ _ => .ite startElection_asserts trivial

/-- The status of a peer, from its view. -/
theorem status_eq_of_view {v : PeerView} {q : Peer} (hv : n.view r.identity = v)
    (he : v.entry = some q) (hp : n.deref r = some p) : p.status = q.status := by
  have hentry := view_entry_of_deref hp
  rw [hv] at hentry
  obtain rfl := Option.some_inj.mp (he.symm.trans hentry)
  rfl

/-- Once the peer has joined or left the group its count is the status in the message. -/
theorem assert_status_asserts {α : Type} {x : NodeM α} {f : PeerView → PeerView}
    (hbecomes : Becomes ∅ n (n.view.at r.identity f) n') (hp : n.deref r = some p)
    (hf : ∀ v q, v.entry = some q → (f v).entry = some { q with status := q.status + 1 })
    (hstatus : msg.status = p.status + 1) (hx : Asserts x n') :
    Asserts (do assert (decide (msg.status = (← readPeer r).status)); x) n' := by
  have hview : n'.view r.identity = f (n.view r.identity) := by rw [hbecomes.view, Views.at_self]
  refine EStateM.wp_bind .. |>.mpr (wp_readPeer.mpr ⟨fun q hq => ?_, fun _ => nofun⟩)
  have hq : q.status = p.status + 1 :=
    status_eq_of_view hview (hf _ _ (view_entry_of_deref hp)) hq
  refine EStateM.wp_bind .. |>.mpr (wp_assert.mpr ⟨fun _ => hx, fun hne => ?_⟩)
  exact absurd (hstatus.trans hq.symm) (of_decide_eq_false hne)

theorem recvJoin_asserts (hp : n.deref r = some p) (hstatus : msg.status = p.status + 1) :
    Asserts (recvJoin r msg) n := by
  have hjoin : (joinPeerGroup r msg.group).wp (fun _ n' =>
      Becomes ∅ n (n.view.at r.identity (·.join r.identity msg.group)) n') (fun _ _ => False) n :=
    joinPeerGroup_spec hp
  refine EStateM.wp_bind .. |>.mpr (EStateM.wp_mono hjoin (fun _ n₁ h => ?_) fun _ _ h => h.elim)
  refine assert_status_asserts h hp (fun v q hq => ?_) hstatus ?_
  · simp [PeerView.join, hq]
  · exact Asserts.bind (x := get) trivial fun _ _ => .ite restart_asserts trivial

theorem recvLeave_asserts (hp : n.deref r = some p) (hstatus : msg.status = p.status + 1) :
    Asserts (recvLeave r msg) n := by
  have hleave : (leavePeerGroup r msg.group).wp (fun _ n' =>
      Becomes ∅ n (n.view.at r.identity (·.leave r.identity msg.group)) n') (fun _ _ => False) n :=
    leavePeerGroup_spec hp
  refine EStateM.wp_bind .. |>.mpr (EStateM.wp_mono hleave (fun _ n₁ h => ?_) fun _ _ h => h.elim)
  refine assert_status_asserts h hp (fun v q hq => ?_) hstatus ?_
  · simp [PeerView.leave, hq]
  · refine Asserts.bind (x := get) trivial fun _ _ => .ite ?_ trivial
    refine Asserts.bind (x := getGroup msg.group) trivial fun g n₂ => .ite ?_ trivial
    cases g.leader with
    | none => trivial
    | some groupLeader =>
      refine Asserts.bind readPeer_asserts fun _ n₃ => .ite ?_ trivial
      refine Asserts.bind (x := setElection msg.group none) trivial fun _ n₄ => .ite ?_ ?_
      · exact Asserts.bind (x := setLeader msg.group none) trivial fun _ _ => trivial
      · exact startElection_asserts

/-- JOIN or LEAVE, the next message of a peer and one ahead of the count the node keeps of it. -/
theorem recvMsg_asserts (hid : msg.id = .join ∨ msg.id = .leave)
    (hnext : ∀ p, n.peers.lookup uuid.str = some p → p.ready = true →
      p.wantSequence + 1 = msg.sequence ∧ msg.status = p.status + 1) :
    Asserts (recvMsg env uuid msg) n := by
  have hhello : msg.id ≠ .hello := by rcases hid with h | h <;> simp [h]
  simp only [recvMsg, senderGate, if_neg hhello]
  refine EStateM.wp_bind .. |>.mpr (wp_lookupPeer.mpr ?_)
  cases hlook : n.peers.lookup uuid.str with
  | none => trivial
  | some p =>
    have hp := deref_of_lookup hlook
    refine EStateM.wp_bind .. |>.mpr (wp_readPeer.mpr ⟨fun q hq => EStateM.wp_ite .. |>.mpr
      ⟨fun hready => ?_, fun _ => trivial⟩, fun _ h => by cases h⟩)
    obtain rfl := Option.some_inj.mp (hp.symm.trans hq)
    obtain ⟨hseq, hstatus⟩ := hnext p hlook hready
    refine EStateM.wp_bind .. |>.mpr (wp_readPeer.mpr ⟨fun q hq => ?_, fun _ h => by cases h⟩)
    obtain rfl := Option.some_inj.mp (hp.symm.trans hq)
    refine EStateM.wp_bind .. |>.mpr (wp_modifyPeer.mpr ⟨fun _ _ => ?_, fun _ h => by cases h⟩)
    refine EStateM.wp_ite .. |>.mpr ⟨fun hlost => absurd hlost (by simp [hhello, hseq]), fun _ => ?_⟩
    set n₁ : Node := { n with peers := n.peers.modify uuid.str fun _ => (p.messagesLost msg).2 }
    have hp₁ : n₁.deref ⟨uuid.str, p.serial⟩ = some (p.messagesLost msg).2 := deref_modify_self hp rfl
    have hdispatch : Asserts (dispatch ⟨uuid.str, p.serial⟩ msg) n₁ := by
      rcases hid with hid | hid
      · rw [show dispatch ⟨uuid.str, p.serial⟩ msg = (do recvJoin ⟨uuid.str, p.serial⟩ msg; pure true) by
          simp only [dispatch, hid]]
        exact .bind (recvJoin_asserts hp₁ hstatus) fun _ _ => trivial
      · rw [show dispatch ⟨uuid.str, p.serial⟩ msg = (do recvLeave ⟨uuid.str, p.serial⟩ msg; pure true) by
          simp only [dispatch, hid]]
        exact .bind (recvLeave_asserts hp₁ hstatus) fun _ _ => trivial
    exact Asserts.bind hdispatch fun b n₂ => .ite (.bind (x := get) trivial fun _ _ =>
      modifyPeer_asserts) trivial

end Node

end Zyre
