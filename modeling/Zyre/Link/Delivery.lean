import Zyre.Link.Order
import Zyre.Node.Steps

/-!
# What becomes of a letter

Once `b` holds `a` ready, its count and its status for `a` are those of the letter it has accepted last:
`Run.faithful`, for mailboxes that lose fewer than 65536 letters in a row. So a letter delivered then is
the one behind it, or `b` drops `a`, or the letter opens a new mailbox.
-/

namespace Zyre

/-! ### The status in a view -/

namespace PeerView

variable {v : PeerView} {X : CStr} {msg : Msg} {p q : Peer} {k : UInt16}

/-- JOIN and LEAVE count the status up. -/
theorem status_take (hq : v.entry = some q) (h : ((v.count k).take X msg).entry = some p) :
    p.status = if msg.id = .join ∨ msg.id = .leave then q.status + 1 else q.status := by
  have hcount : (v.count k).entry = some { q with wantSequence := k } := by simp [count, hq]
  unfold take at h
  split at h
  case h_3 hid =>
    simp only [join, hcount, Option.map_some, Option.some_inj] at h
    rw [if_pos (Or.inl hid), ← h]
  case h_4 hid =>
    simp only [leave, hcount, Option.map_some, Option.some_inj] at h
    rw [if_pos (Or.inr hid), ← h]
  case h_5 hjoin hleave =>
    rw [hcount] at h
    obtain rfl := Option.some_inj.mp h
    rw [if_neg (by tauto)]
  all_goals
    rename_i hid
    have h : (v.count k).entry = some p := h
    rw [hcount] at h
    obtain rfl := Option.some_inj.mp h
    rw [if_neg (by rw [hid]; simp)]

end PeerView

/-- An entry that is ready afterwards has not been touched. -/
theorem Aside.ready {R : Set CStr} {X : CStr} {v v' : PeerView} {p : Peer} (h : Aside R X v v')
    (hp : v'.entry = some p) (hready : p.ready = true) : v.entry = some p ∧ v'.groups = v.groups := by
  cases h with
  | same => exact ⟨hp, rfl⟩
  | purged endpoint =>
    obtain ⟨q, hq, rfl⟩ := Option.map_eq_some_iff.mp hp
    refine ⟨?_, rfl⟩
    unfold Node.purgePeer Peer.disconnect at hready ⊢
    split_ifs at hready ⊢ <;> exact hq
  | discovered q he hq =>
    obtain rfl := Option.some_inj.mp hp
    exact absurd (hq.ready.symm.trans hready) Bool.false_ne_true
  | removed q he hX => cases hp

/-- The status counts the changes of the groups. -/
theorem Letter.status_of_regroups {l l' : Letter} (h : l.Regroups l') :
    l'.status = if l'.msg.id = .join ∨ l'.msg.id = .leave then l.status + 1 else l.status := by
  unfold Regroups at h
  split at h
  case h_1 hid =>
    obtain ⟨-, -, -, -, hstatus, -⟩ := h
    rw [if_pos (Or.inl hid), hstatus]
  case h_2 hid =>
    obtain ⟨-, -, -, -, hstatus, -⟩ := h
    rw [if_pos (Or.inr hid), hstatus]
  case h_3 hjoin hleave =>
    rw [if_neg (by tauto), h.2]

namespace Link

variable {gap : ℕ} {C : Link → Action → Prop} {l l' : Link} {action : Action} {X : CStr}

/-- The entry `b` has for `a` is as letter `i`, the last one delivered and accepted, has left it. -/
structure Held (l : Link) (p : Peer) (i : ℕ) (letter : Letter) : Prop where
  next : l.next = i + 1
  accepted : l.accepted.getLast? = some i
  sent : l.sent[i]? = some letter
  wantSequence : p.wantSequence = letter.msg.sequence
  status : p.status = letter.status

/-- If `b` holds `a` ready, its entry is as the last letter has left it. -/
def Faithful (l : Link) : Prop :=
  ∀ p, (l.b.view l.a.identity).entry = some p → p.ready = true → ∃ i letter, l.Held p i letter

variable {j : ℕ} {letter : Letter} {msg : Msg} {p q : Peer} {i : ℕ}

theorem Held.of_sent (h : l.Held p i letter) (hb : l'.next = l.next) (haccepted : l'.accepted = l.accepted)
    (hsent : ∀ m, l.sent[i]? = some m → l'.sent[i]? = some m) : l'.Held p i letter :=
  ⟨hb.trans h.next, haccepted ▸ h.accepted, hsent _ h.sent, h.wantSequence, h.status⟩

/-- Letter `j` comes right behind the last one `b` has accepted, while it holds `a` ready. -/
structure Comes (l : Link) (j : ℕ) (letter : Letter) (q : Peer) (i : ℕ) (last : Letter) : Prop where
  entry : (l.b.view l.a.identity).entry = some q
  ready : q.ready = true
  held : l.Held q i last
  index : j = i + 1
  box : letter.box = last.box
  id : letter.msg.id ≠ .hello
  sequence : letter.msg.sequence = last.msg.sequence + 1
  regroups : last.Regroups letter

/-- What becomes of a letter from `a`: `b` does not accept it and does not hold `a` ready afterwards, or
the letter opens a mailbox and `b` greets `a`, or it comes right behind the last one accepted, and `b`
removes `a` or takes the letter. -/
inductive Delivered (l : Link) (j : ℕ) (letter : Letter) (msg : Msg) (v' : PeerView) : List ℕ → Prop
  | idle (h : ∀ p, v'.entry = some p → p.ready = false) : Delivered l j letter msg v' l.accepted
  | greeted (w : PeerView) (hfirst : IsFirst l.sent j) (hopens : letter.Opens) (hid : msg.id = .hello)
      (hw : Opened l.a.identity (l.b.view l.a.identity) w)
      (hv : v' = (w.count 1).greet l.a.identity msg) :
      Delivered l j letter msg v' (l.accepted ++ [j])
  | bye (q : Peer) (i : ℕ) (last : Letter) (hcomes : l.Comes j letter q i last) (hv : v'.entry = none) :
      Delivered l j letter msg v' (l.accepted ++ [j])
  | taken (q : Peer) (i : ℕ) (last : Letter) (hcomes : l.Comes j letter q i last)
      (hv : v' = ((l.b.view l.a.identity).count msg.sequence).take l.a.identity msg) :
      Delivered l j letter msg v' (l.accepted ++ [j])

/-- A count of fewer than 65536 is zero if it leaves a number as it is. -/
theorem eq_zero_of_sequence {s : UInt16} {k : ℕ} (hk : k < 65536)
    (h : s + 1 = s + UInt16.ofNat (k + 1)) : k = 0 := by
  have h := congrArg UInt16.toNat h
  have hs := s.toNat_lt
  simp only [UInt16.toNat_add, UInt16.toNat_ofNat', UInt16.toNat_one] at h
  omega

/-- A letter with the number asked for comes right behind the last one accepted. -/
theorem Deliverable.comes (hgap : gap < 65536) (hposted : l.a.Posted X l.sent) (hfaithful : l.Faithful)
    (hj : l.Deliverable gap j) (hletter : l.sent[j]? = some letter) (hid : letter.msg.id ≠ .hello)
    (hq : (l.b.view l.a.identity).entry = some q) (hready : q.ready = true)
    (hseq : q.wantSequence + 1 = letter.msg.sequence) : ∃ i last, l.Comes j letter q i last := by
  rcases hj.arrives hposted hletter with
    ⟨-, hopens⟩ | ⟨i, k, last, hnext, hlast, rfl, hk, hbox, -, hnumber, hregroups⟩
  · exact absurd hopens.id hid
  · obtain ⟨i', last', hheld⟩ := hfaithful q hq hready
    obtain rfl : i' = i := by
      have := hheld.next
      omega
    obtain rfl := Option.some_inj.mp (hheld.sent.symm.trans hlast)
    -- The number is `k + 1` ahead of the one asked for.
    rw [hnumber, hheld.wantSequence] at hseq
    obtain rfl := eq_zero_of_sequence (by omega) hseq
    exact ⟨i', last', hq, hready, hheld, rfl, hbox, hid, hnumber, hregroups rfl⟩

theorem Deliverable.delivered (hgap : gap < 65536) (hposted : l.a.Posted X l.sent)
    (hfaithful : l.Faithful) (hj : l.Deliverable gap j) (hletter : l.sent[j]? = some letter)
    (hmsg : Carries letter.msg msg) {v' : PeerView} {b : Bool}
    (h : Reception l.a.identity msg (l.b.view l.a.identity) b v') :
    Delivered l j letter msg v' (if b then l.accepted ++ [j] else l.accepted) := by
  cases h with
  | ignored h => exact .idle h
  | dropped he => exact .idle fun p hp => nomatch he.symm.trans hp
  | greeted w hid hw hseq =>
    rw [if_pos rfl]
    rcases hj.arrives hposted hletter with ⟨hfirst, hopens⟩ | ⟨_, _, _, _, _, _, _, _, hid', _⟩
    · exact .greeted w hfirst hopens hid hw rfl
    · exact absurd (hmsg.id.symm.trans hid) hid'
  | bye q hid he hr hseq hgone =>
    rw [if_pos rfl]
    have hid : letter.msg.id ≠ .hello := by
      rw [← hmsg.id, hid]
      decide
    obtain ⟨i, last, hcomes⟩ := hj.comes hgap hposted hfaithful hletter hid he hr
      (hseq.trans hmsg.sequence)
    exact .bye q i last hcomes hgone
  | taken q hid he hr hseq =>
    rw [if_pos rfl]
    obtain ⟨i, last, hcomes⟩ := hj.comes hgap hposted hfaithful hletter
      (fun h => hid (hmsg.id.trans h)) he hr (hseq.trans hmsg.sequence)
    exact .taken q i last hcomes rfl

/-! ### Runs -/

/-- The letters on a link stay where they are. -/
theorem Step.sent (h : Step gap l action l') {m : Letter} (hm : l.sent[i]? = some m) :
    l'.sent[i]? = some m := by
  cases h with
  | sender h =>
    obtain ⟨hlt, -⟩ := List.getElem?_eq_some_iff.mp hm
    exact (List.getElem?_append_left hlt).trans hm
  | receiver hinput h => exact hm
  | deliver hj hletter hsender hmsg h => exact hm

/-- What a step leaves of an entry that is ready, unless it delivers a letter. -/
theorem ready_of_step (h : Step gap l action l') (haction : ∀ env j frames, action ≠ .deliver env j frames)
    (hp : (l'.b.view l.a.identity).entry = some p) (hready : p.ready = true) :
    (l.b.view l.a.identity).entry = some p ∧
      (l'.b.view l.a.identity).groups = (l.b.view l.a.identity).groups ∧ l'.next = l.next ∧
        l'.accepted = l.accepted := by
  cases h with
  | sender h => exact ⟨hp, rfl, rfl, rfl⟩
  | @receiver env input b' hinput h =>
    have hX : ∀ uuid, Node.Sender input uuid → uuid.str ≠ l.a.identity := fun uuid huuid heq =>
      hinput uuid huuid (Uuid.str_injective heq)
    have haside := EStateM.wp_of_ok h (Node.step_aside hX)
    obtain ⟨hentry, hgroups⟩ := haside.ready hp hready
    exact ⟨hentry, hgroups, rfl, rfl⟩
  | deliver hj hletter hsender hmsg h => exact absurd rfl (haction _ _ _)

/-- A letter that `b` is given. -/
theorem Step.delivered (hgap : gap < 65536) (hposted : l.a.Posted X l.sent) (hfaithful : l.Faithful)
    {env : Env} {frames : List Frame} (h : Step gap l (.deliver env j frames) l') :
    ∃ letter, l.sent[j]? = some letter ∧ Carries letter.msg (Msg.recv frames).msg ∧ l'.next = j + 1 ∧
      l'.a = l.a ∧ l'.sent = l.sent ∧ Delivered l j letter (Msg.recv frames).msg
        (l'.b.view l.a.identity) l'.accepted := by
  cases h with
  | @deliver _ _ _ letter b' hj hletter hsender hmsg h =>
    refine ⟨letter, hletter, hmsg, next_of_delivered rfl, rfl, rfl, ?_⟩
    have hrecv : Node.recvMsg env l.a.uuid (Msg.recv frames).msg l.b = .ok ⟨⟩ b' := by
      rw [← Node.recvPeer_of_sender hsender]
      exact h
    exact hj.delivered hgap hposted hfaithful hletter hmsg (Node.reception hrecv)

/-- Whenever `b` holds `a` ready, its entry is as the last letter has left it. -/
theorem Run.faithful (hgap : gap < 65536) (h : Run gap C l) : l.Faithful := by
  induction h with
  | new uuid uuid' endpoint endpoint' => rintro p ⟨⟩
  | @step l l' action hl hc h ih =>
    intro p hp hready
    have hidentity : l'.a.identity = l.a.identity := congrArg Uuid.str h.identity.1
    rw [hidentity] at hp
    by_cases haction : ∃ env j frames, action = .deliver env j frames
    · obtain ⟨env, j, frames, rfl⟩ := haction
      obtain ⟨letter, hletter, hmsg, hnext, -, hsent, hdelivered⟩ := h.delivered hgap hl.posted ih
      rw [← hsent] at hletter
      refine ⟨j, letter, ?_⟩
      generalize haccepted : l'.accepted = accepted at hdelivered
      generalize hv' : l'.b.view l.a.identity = v' at hp hdelivered
      rcases hdelivered with h | ⟨w, -, hopens, hid, hw, hv⟩ | ⟨_, _, _, -, hv⟩ | ⟨q, i, last, hcomes, hv⟩
      · exact absurd ((h p hp).symm.trans hready) Bool.false_ne_true
      · -- A HELLO sets both counts.
        rw [hv] at hp
        obtain ⟨q, hq, rfl⟩ := Option.map_eq_some_iff.mp hp
        obtain ⟨q₀, -, rfl⟩ := Option.map_eq_some_iff.mp hq
        refine ⟨hnext, ?_, hletter, hopens.sequence.symm, ?_⟩
        · rw [haccepted, List.getLast?_concat]
        · exact (hmsg.hello hopens.id).2.trans hopens.status
      · exact absurd (hv.symm.trans hp) (by simp)
      · -- Any other command moves both on.
        rw [hv] at hp
        refine ⟨hnext, ?_, hletter, ?_, ?_⟩
        · rw [haccepted, List.getLast?_concat]
        · exact (PeerView.wantSequence_take hp).trans hmsg.sequence
        · rw [PeerView.status_take hcomes.entry hp, hmsg.id, hcomes.held.status]
          exact (Letter.status_of_regroups hcomes.regroups).symm
    · have haction : ∀ env j frames, action ≠ .deliver env j frames := fun env j frames h =>
        haction ⟨env, j, frames, h⟩
      obtain ⟨hp, -, hnext, haccepted⟩ := ready_of_step h haction hp hready
      obtain ⟨i, letter, hheld⟩ := ih p hp hready
      exact ⟨i, letter, hheld.of_sent hnext haccepted fun m hm => h.sent hm⟩

end Link

end Zyre
