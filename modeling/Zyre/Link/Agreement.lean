import Zyre.Link.Delivery
import Zyre.Link.Asserts

/-!
# The two status counters

A node counts the changes of its own groups, and its peers count them again for every JOIN and LEAVE.
While `b` holds `a` ready the two counts are those of the same letter, and the asserts that compare them
hold.
-/

namespace Zyre

/-- The message has the count in it. -/
theorem Letter.status_of_changes {l l' : Letter} (h : l.Regroups l')
    (hid : l'.msg.id = .join ∨ l'.msg.id = .leave) : l'.msg.status = l'.status := by
  unfold Regroups at h
  split at h
  case h_1 =>
    obtain ⟨-, -, -, -, -, hmsg⟩ := h
    exact hmsg
  case h_2 =>
    obtain ⟨-, -, -, -, -, hmsg⟩ := h
    exact hmsg
  case h_3 hjoin hleave => exact absurd hid (by tauto)

namespace Link

variable {gap : ℕ} {l : Link} {j : ℕ} {letter : Letter} {msg : Msg} {p : Peer}

/-- The two status counters agree: what `b` has for `a` while it holds it ready is the status `a` had
when it posted the last letter accepted, and no JOIN or LEAVE from `a` that may come next fails an
assert. -/
structure Agrees (l : Link) : Prop where
  status : ∀ p, l.b.peers.lookup l.a.identity = some p → p.ready = true →
    ∃ i letter, l.accepted.getLast? = some i ∧ l.sent[i]? = some letter ∧ p.status = letter.status
  asserts : ∀ env j letter frames f b', l.Deliverable 0 j → l.sent[j]? = some letter →
    Node.senderOf frames = some l.a.uuid → Carries letter.msg (Msg.recv frames).msg →
      letter.msg.id = .join ∨ letter.msg.id = .leave →
        Node.step env (.inbox frames) l.b = .error f b' → f ≠ .assertion

/-- The letter behind the last one accepted has the number and the status that come next. -/
theorem Faithful.next_of_arrives (hfaithful : l.Faithful) (harrives : l.Arrives 0 j letter)
    (hid : letter.msg.id = .join ∨ letter.msg.id = .leave) (hmsg : Carries letter.msg msg)
    (hp : l.b.peers.lookup l.a.identity = some p) (hready : p.ready = true) :
    p.wantSequence + 1 = msg.sequence ∧ msg.status = p.status + 1 := by
  rcases harrives with ⟨-, hopens⟩ | ⟨i, k, last, hnext, hlast, -, hk, -, -, hseq, hregroups⟩
  · rw [hopens.id] at hid
    exact absurd hid (by decide)
  · obtain rfl : k = 0 := Nat.le_zero.mp hk
    obtain ⟨i', last', hheld⟩ := hfaithful p.still (by simp [Node.view, hp]) hready
    obtain rfl : i' = i := by
      have := hheld.next
      omega
    obtain rfl := Option.some_inj.mp (hheld.sent.symm.trans hlast)
    refine ⟨?_, ?_⟩
    · rw [hmsg.sequence, hseq, ← hheld.wantSequence]
      rfl
    · have hstatus := Letter.status_of_regroups (hregroups rfl)
      rw [if_pos hid, ← hheld.status] at hstatus
      rw [(hmsg.group hid).2, Letter.status_of_changes (hregroups rfl) hid, hstatus]
      rfl

/-- **Counters agree.** Over mailboxes that lose no letter of their own the status counters of the two nodes
agree, whatever the two nodes do besides: what `b` has for `a` while it holds it ready is the status `a` had
when it posted the last letter accepted, and no JOIN or LEAVE that may come next fails an assertion. -/
theorem agrees_of_run (h : Run 0 (fun _ _ => True) l) : l.Agrees where
  status p hp hready := by
    have hview : (l.b.view l.a.identity).entry = some p.still := by simp [Node.view, hp]
    obtain ⟨i, letter, hheld⟩ := h.faithful (by decide) p.still hview hready
    exact ⟨i, letter, hheld.accepted, hheld.sent, hheld.status⟩
  asserts env j letter frames f b' hj hletter hsender hmsg hid hstep := by
    have hfaithful : l.Faithful := h.faithful (by decide)
    have harrives := hj.arrives h.posted hletter
    have hasserts : Node.Asserts (Node.recvMsg env l.a.uuid (Msg.recv frames).msg) l.b :=
      Node.recvMsg_asserts (hmsg.id ▸ hid) fun p hp hready =>
        hfaithful.next_of_arrives harrives hid hmsg hp hready
    rw [← Node.recvPeer_of_sender hsender] at hasserts
    exact (EStateM.wp_of_error hstep hasserts :)

/-- Two nodes, of which the first has joined a group: HELLO and JOIN are delivered. -/
theorem agrees_joining :
    (Link.deliver (Node.sampleEnv 0) 1 (Link.deliver (Node.sampleEnv 0) 0 sampleLink)).Agrees := by
  have hgreeted : Run 0 (fun _ _ => True) (Link.deliver (Node.sampleEnv 0) 0 sampleLink) :=
    run_sampleLink.deliver ⟨le_rfl, .inl nofun⟩ (by decide +kernel) (fun _ _ => trivial) (by decide +kernel)
  exact agrees_of_run (hgreeted.deliver ⟨le_rfl, .inr ⟨0, by decide +kernel⟩⟩ (by decide +kernel)
    (fun _ _ => trivial) (by decide +kernel))

end Link

end Zyre
