import Zyre.Link.Delivery

/-!
# Which losses are noticed

The numbers of messages wrap at 65536, so a mailbox that loses that many in a row would hide it. One that
loses fewer does not: `zyre_peer_messages_lost` answers exactly whether a letter is missing
(`detects_of_run`). So what `b` accepts falls into sessions, each the first letters of one mailbox from its
HELLO on, without a gap.
-/

namespace Zyre

namespace Link

variable {gap : ℕ} {C : Link → Action → Prop} {l l' : Link} {action : Action} {X : CStr}
  {i j k s : ℕ} {letter : Letter} {msg : Msg} {p q : Peer} {sent sent' : List Letter}

/-- Letter `k` is on the mailbox of letter `j`, behind the last letter accepted, and once letter `j` is
delivered it is lost. -/
def Loses (l : Link) (j k : ℕ) : Prop :=
  k < j ∧ (l.sent[k]?).map Letter.box = (l.sent[j]?).map Letter.box ∧ k ∉ l.delivered ∧
    ∀ i ∈ l.accepted.getLast?, i < k

/-- The first `k` letters of a mailbox, of which letter `s` is the first: a HELLO and others, numbered
from 1 on. -/
structure Session (sent : List Letter) (s k : ℕ) : Prop where
  first : IsFirst sent s
  started : 0 < k
  letters : ∀ i < k, ∃ m, sent[s + i]? = some m ∧ (sent[s]?).map Letter.box = some m.box ∧
    m.msg.sequence = UInt16.ofNat (i + 1) ∧ (m.msg.id = .hello ↔ i = 0)

/-- Losses are noticed, and nothing else is: about a letter that `b` is given while it holds `a` ready, or
a HELLO, the count of the peer says that messages are lost exactly if a letter is. What `b` has accepted
are sessions. -/
structure Detects (gap : ℕ) (l : Link) : Prop where
  lost_iff : ∀ j letter msg p, l.Deliverable gap j → l.sent[j]? = some letter →
    Carries letter.msg msg →
      letter.msg.id = .hello ∨ l.b.peers.lookup l.a.identity = some p ∧ p.ready = true →
        ((p.messagesLost msg).1 = true ↔ ∃ k, l.Loses j k)
  sessions : ∃ ss : List (ℕ × ℕ), l.accepted = ss.flatMap (fun s => List.range' s.1 s.2) ∧
    ∀ s ∈ ss, Session l.sent s.1 s.2

/-! ### The answer about one letter -/

/-- Everything delivered is before the next letter. -/
theorem Run.delivered_lt (h : Run gap C l) : ∀ d ∈ l.delivered, d < l.next := by
  induction h with
  | new => nofun
  | step hl hc h ih =>
    cases h with
    | sender h => exact ih
    | receiver hinput h => exact ih
    | deliver hj hletter hsender hmsg h =>
      intro d hd
      rw [next_of_delivered rfl]
      rcases List.mem_append.mp hd with hd | hd
      · exact Nat.lt_succ_of_lt ((ih d hd).trans_le hj.1)
      · exact List.mem_singleton.mp hd ▸ Nat.lt_succ_self _

/-- Nothing is missing before the first letter of a mailbox. -/
theorem not_loses_of_isFirst (h : IsFirst l.sent j) : ¬∃ k, l.Loses j k := by
  rintro ⟨k, hk, hbox, -⟩
  exact h k hk hbox

/-- The letter `k` behind the one that comes next has the number asked for exactly if `k` is zero. -/
theorem sequence_eq_iff {s : UInt16} (hk : k < 65536) : s + 1 = s + UInt16.ofNat (k + 1) ↔ k = 0 := by
  refine ⟨eq_zero_of_sequence hk, ?_⟩
  rintro rfl
  rfl

/-- A letter that is not the next one leaves out the one that is. -/
theorem loses_iff (hposted : l.a.Posted X l.sent) (hlt : ∀ d ∈ l.delivered, d < l.next) {last : Letter}
    (hnext : l.next = i + 1) (haccepted : l.accepted.getLast? = some i)
    (hlast : l.sent[i]? = some last) (hletter : l.sent[i + 1 + k]? = some letter)
    (hbox : letter.box = last.box) : (∃ m, l.Loses (i + 1 + k) m) ↔ k ≠ 0 := by
  constructor
  · rintro ⟨m, hm, -, -, hbehind⟩
    have him : i < m := hbehind i haccepted
    omega
  · intro hk
    obtain ⟨hlen, -⟩ := List.getElem?_eq_some_iff.mp hletter
    have hlen' : i + 1 < l.sent.length := by omega
    have hskipped : l.sent[i + 1]? = some l.sent[i + 1] := List.getElem?_eq_getElem hlen'
    have hbox' : l.sent[i + 1].box = last.box :=
      Letter.box_of_between hposted.chain hlast hletter hbox (Nat.le_succ i) (Nat.le_add_right _ k) hskipped
    refine ⟨i + 1, by omega, ?_, fun hd => ?_, fun i' hi' => ?_⟩
    · rw [hskipped, hletter, Option.map_some, Option.map_some, hbox', hbox]
    · have hlt' := hlt _ hd
      omega
    · obtain rfl := Option.some_inj.mp (haccepted.symm.trans hi')
      exact Nat.lt_succ_self i

theorem Run.lost_iff (hgap : gap < 65536) (h : Run gap C l) (hj : l.Deliverable gap j)
    (hletter : l.sent[j]? = some letter) (hmsg : Carries letter.msg msg)
    (hp : letter.msg.id = .hello ∨ l.b.peers.lookup l.a.identity = some p ∧ p.ready = true) :
    (p.messagesLost msg).1 = true ↔ ∃ k, l.Loses j k := by
  rw [Node.messagesLost_eq, decide_eq_true_iff, hmsg.id, hmsg.sequence]
  rcases hj.arrives h.posted hletter with
    ⟨hfirst, hopens⟩ | ⟨i, k, last, hnext, hlast, rfl, hk, hbox, hid, hseq, -⟩
  · -- HELLO asks for number 1, and has it.
    rw [if_pos hopens.id, hopens.sequence]
    exact iff_of_false (fun h => h rfl) (not_loses_of_isFirst hfirst)
  · obtain ⟨hp, hready⟩ := hp.resolve_left hid
    obtain ⟨i', last', hheld⟩ := h.faithful hgap p.still (by simp [Node.view, hp]) hready
    obtain rfl : i' = i := by
      have := hheld.next
      omega
    obtain rfl := Option.some_inj.mp (hheld.sent.symm.trans hlast)
    have hwant : p.wantSequence = last'.msg.sequence := hheld.wantSequence
    rw [if_neg hid, hseq, hwant, loses_iff h.posted h.delivered_lt hnext hheld.accepted hlast hletter hbox]
    exact not_congr (sequence_eq_iff (by omega))

/-! ### Sessions -/

theorem Session.mono (h : Session sent s k) (hsent : ∀ (i : ℕ) m, sent[i]? = some m → sent'[i]? = some m) :
    Session sent' s k := by
  obtain ⟨m₀, hm₀, -⟩ := h.letters 0 h.started
  obtain ⟨hlen, -⟩ := List.getElem?_eq_some_iff.mp hm₀
  have hsame : ∀ i ≤ s, sent'[i]? = sent[i]? := fun i hi => by
    have hi : i < sent.length := by omega
    have hget : sent[i]? = some sent[i] := List.getElem?_eq_getElem hi
    rw [hget, hsent i _ hget]
  refine ⟨fun i hi => ?_, h.started, fun i hi => ?_⟩
  · rw [hsame i hi.le, hsame s le_rfl]
    exact h.first i hi
  · obtain ⟨m, hm, hrest⟩ := h.letters i hi
    rw [hsame s le_rfl]
    exact ⟨m, hsent _ _ hm, hrest⟩

/-- A session starts with a HELLO. -/
theorem Session.start (hfirst : IsFirst sent j) (hletter : sent[j]? = some letter) (hopens : letter.Opens) :
    Session sent j 1 := by
  refine ⟨hfirst, Nat.one_pos, fun i hi => ?_⟩
  obtain rfl : i = 0 := by omega
  exact ⟨letter, hletter, by rw [hletter]; rfl, hopens.sequence, iff_of_true hopens.id rfl⟩

/-- It goes on with the letter that comes next. -/
theorem Session.next (h : Session l.sent s k) (hi : s + k = i + 1) {last : Letter}
    (hcomes : l.Comes j letter q i last) (hletter : l.sent[j]? = some letter) :
    Session l.sent s (k + 1) := by
  refine ⟨h.first, Nat.succ_pos k, fun i' hi' => ?_⟩
  obtain hlt | rfl : i' < k ∨ i' = k := by omega
  · exact h.letters i' hlt
  · have hpos := h.started
    obtain ⟨m, hm, hbox, hseq, -⟩ := h.letters (i' - 1) (by omega)
    have hlast : s + (i' - 1) = i := by omega
    obtain rfl := Option.some_inj.mp ((hlast ▸ hm).symm.trans hcomes.held.sent)
    refine ⟨letter, ?_, ?_, ?_, ?_⟩
    · rw [hi, ← hcomes.index]
      exact hletter
    · rw [hbox, hcomes.box]
    · rw [hcomes.sequence, hseq, Nat.sub_add_cancel hpos, UInt16.ofNat_add]
      rfl
    · exact iff_of_false hcomes.id hpos.ne'

/-- What is accepted are sessions. -/
def InSessions (sent : List Letter) (accepted : List ℕ) : Prop :=
  ∃ ss : List (ℕ × ℕ), accepted = ss.flatMap (fun s => List.range' s.1 s.2) ∧
    ∀ s ∈ ss, Session sent s.1 s.2

theorem InSessions.start {accepted : List ℕ} (h : InSessions sent accepted) (hj : Session sent j 1) :
    InSessions sent (accepted ++ [j]) := by
  obtain ⟨ss, rfl, hss⟩ := h
  refine ⟨ss ++ [(j, 1)], by simp, fun s hs => ?_⟩
  rcases List.mem_append.mp hs with hs | hs
  · exact hss s hs
  · exact List.mem_singleton.mp hs ▸ hj

theorem getLast?_sessions (ss : List (ℕ × ℕ)) (s k : ℕ) :
    ((ss ++ [(s, k + 1)]).flatMap fun s => List.range' s.1 s.2).getLast? = some (s + k) := by
  rw [List.flatMap_append, List.flatMap_singleton, List.range'_concat, ← List.append_assoc,
    List.getLast?_concat, Nat.one_mul]

theorem InSessions.next (h : InSessions l.sent l.accepted) {last : Letter}
    (hcomes : l.Comes j letter q i last) (hletter : l.sent[j]? = some letter) :
    InSessions l.sent (l.accepted ++ [j]) := by
  obtain ⟨ss, haccepted, hss⟩ := h
  have hlast := hcomes.held.accepted
  rw [haccepted] at hlast
  rcases List.eq_nil_or_concat ss with rfl | ⟨ss, ⟨s, k⟩, rfl⟩
  · cases hlast
  · rw [List.concat_eq_append] at hlast haccepted hss
    have hsession : Session l.sent s k := hss (s, k) (by simp)
    obtain ⟨k, rfl⟩ := Nat.exists_eq_succ_of_ne_zero hsession.started.ne'
    -- The last session ends with letter `i`.
    rw [getLast?_sessions] at hlast
    obtain rfl := Option.some_inj.mp hlast
    refine ⟨ss ++ [(s, k + 1 + 1)], ?_, fun s' hs' => ?_⟩
    · rw [haccepted, hcomes.index, List.flatMap_append, List.flatMap_append, List.flatMap_singleton,
        List.flatMap_singleton, List.range'_concat (n := k + 1), Nat.one_mul, List.append_assoc]
      rfl
    · rcases List.mem_append.mp hs' with hs' | hs'
      · exact hss s' (List.mem_append_left _ hs')
      · exact List.mem_singleton.mp hs' ▸ hsession.next rfl hcomes hletter

theorem Run.inSessions (hgap : gap < 65536) (h : Run gap C l) : InSessions l.sent l.accepted := by
  induction h with
  | new => exact ⟨[], rfl, nofun⟩
  | @step l l' action hl hc h ih =>
    have hmono : ∀ {accepted}, InSessions l.sent accepted → InSessions l'.sent accepted := by
      rintro accepted ⟨ss, haccepted, hss⟩
      exact ⟨ss, haccepted, fun s hs => (hss s hs).mono fun i m hm => h.sent hm⟩
    by_cases haction : ∃ env j frames, action = .deliver env j frames
    · obtain ⟨env, j, frames, rfl⟩ := haction
      obtain ⟨letter, hletter, -, -, -, -, hdelivered⟩ := h.delivered hgap hl.posted (hl.faithful hgap)
      generalize l'.accepted = accepted at hdelivered
      refine hmono ?_
      rcases hdelivered with - | ⟨w, hfirst, hopens, -⟩ | ⟨q, i, last, hcomes, -⟩ | ⟨q, i, last, hcomes, -⟩
      · exact ih
      · exact ih.start (.start hfirst hletter hopens)
      · exact ih.next hcomes hletter
      · exact ih.next hcomes hletter
    · cases h with
      | sender h => exact hmono ih
      | receiver hinput h => exact ih
      | deliver hj hletter hsender hmsg h => exact absurd ⟨_, _, _, rfl⟩ haction

/-- **Loss.** A node notices exactly what its mailboxes lose, if they never lose 65536 letters in a row nor
the first: `lost_iff` is the answer of `zyre_peer_messages_lost` for every letter that may come next
(`Run.lost_iff`), and `sessions` says that what has been accepted falls into sessions without a gap
(`Run.inSessions`). -/
theorem detects_of_run (hgap : gap < 65536) (h : Run gap (fun _ _ => True) l) : l.Detects gap where
  lost_iff _ _ _ _ hj hletter hmsg hp := h.lost_iff hgap hj hletter hmsg hp
  sessions := h.inSessions hgap

theorem detects_greeted : (Link.deliver (Node.sampleEnv 0) 0 sampleLink).Detects 65535 :=
  detects_of_run (by decide) (run_sampleLink.deliver ⟨le_rfl, .inl nofun⟩ (by decide +kernel)
    (fun _ _ => trivial) (by decide +kernel))

end Link

end Zyre
