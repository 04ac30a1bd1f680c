import Mathlib.Data.Prod.Lex
import Zyre.Link.Handshake
import Zyre.Node.Additions

/-!
# Whether the exchange of HELLO messages ends

A HELLO is answered by another one unless the entry of its receiver has waited for it. So the exchange
ends as long as no more HELLO messages are in flight than entries wait (`Pair.Tight`). A discovery keeps
to that, since it sends HELLO and makes an entry that waits, and so does a delivery. What does not is to
give an entry up that waits while its HELLO is in flight: then the two nodes answer each other for ever.
-/

namespace Zyre

/-! ### What is sent -/

namespace Link

variable {l l' : Link} {env : Env} {input : Input} {frames : List Frame} {uuid : Uuid} {K : Set MsgId}

/-- What becomes of a link whose sender handles an input. -/
theorem step_of_sender {gap : ℕ} (h : Step gap l (.sender env input) l') :
    Node.step env input l.a = .ok ⟨⟩ l'.a ∧ l'.b = l.b ∧
      l'.sent = l.sent ++ posts l.sent l'.a l.b.identity ∧ l'.next = l.next := by
  cases h with
  | sender h => exact ⟨h, rfl, rfl, rfl⟩

/-- A letter carries the groups its sender was in when it was posted. -/
theorem groups_of_posts {sent : List Letter} {n : Node} {X : CStr} {m : Letter} (hm : m ∈ posts sent n X) :
    m.groups = n.ownGroups := by
  obtain ⟨m', -, rfl⟩ := List.mem_map.mp hm
  rfl

/-- The letters a node posts to one peer are among what it sends to all of them. -/
theorem sent_of_mail (hl : Run 0 (fun _ _ => True) l) (h : Step 0 l (.sender env input) l')
    {ms : List (PeerRef × Msg)} (hms : l'.a.mail = l.a.mail ++ ms) :
    ∃ ls, l'.sent = l.sent ++ ls ∧ ∀ m ∈ ls, (m.box, m.msg) ∈ ms := by
  have hposted := hl.posted
  have hposted' := (hl.step trivial h).posted
  have hb : l'.b = l.b := by cases h with | sender h => rfl
  obtain ⟨ls, hls⟩ : ∃ ls, l'.sent = l.sent ++ ls := by cases h with | sender h => exact ⟨_, rfl⟩
  refine ⟨ls, hls, fun m hm => ?_⟩
  have hmail := hposted'.mail
  rw [hb, Node.mailTo, hms, List.filter_append, hls, List.map_append] at hmail
  have hnew := List.append_cancel_left ((congrArg (· ++ _) hposted.mail.symm).trans hmail)
  have hmem : (m.box, m.msg) ∈ ms.filter _ := hnew ▸ List.mem_map_of_mem hm
  exact List.mem_of_mem_filter hmem

/-- What a node sends to all the peers bounds what it posts to one. -/
theorem sent_of_grows (hl : Run 0 (fun _ _ => True) l) (h : Step 0 l (.sender env input) l')
    (hgrows : Node.Grows K l.a l'.a) : ∃ ls, l'.sent = l.sent ++ ls ∧ ∀ m ∈ ls, m.msg.id ∈ K := by
  obtain ⟨ms, hms, hids⟩ := hgrows
  obtain ⟨ls, hls, hmem⟩ := sent_of_mail hl h hms
  exact ⟨ls, hls, fun m hm => hids _ (hmem m hm)⟩

/-- The sender takes no part in elections: it contests no group, and has sent no ELECT or LEADER. -/
structure Plain (l : Link) : Prop where
  uncontested : l.a.Uncontested
  letters : ∀ m ∈ l.sent, m.msg.id.elects = false

/-- A link that carries no message of an election goes on doing so if nobody contests a group. -/
theorem Plain.send (hl : Run 0 (fun _ _ => True) l) (hplain : l.Plain)
    (h : Step 0 l (.sender env input) l') (hinput : ∀ name, input ≠ .api (.setContest name))
    (hmsg : ∀ frames uuid, input = .inbox frames → Node.senderOf frames = some uuid →
      (Msg.recv frames).msg.id.elects = false) : l'.Plain := by
  obtain ⟨huncontested, hgrows⟩ : l'.a.Uncontested ∧ Node.Grows {id | id.elects = false} l.a l'.a := by
    cases h with
    | sender h => exact hplain.uncontested.step hinput hmsg h
  obtain ⟨ls, hls, hids⟩ := sent_of_grows hl h hgrows
  refine ⟨huncontested, fun m hm => ?_⟩
  rw [hls] at hm
  exact (List.mem_append.mp hm).elim (hplain.letters m) (hids m)

/-- What is sent in answer to a message. -/
theorem step_answers (hl : Run 0 (fun _ _ => True) l) (h : Step 0 l (.sender env (.inbox frames)) l')
    (hsender : Node.senderOf frames = some uuid) :
    ∃ ls, l'.inFlight = l.inFlight ++ ls ∧ ∀ m ∈ ls, m.msg.id ∈ l.a.answers (Msg.recv frames).msg := by
  obtain ⟨hgrows, hnext⟩ : Node.Grows (l.a.answers (Msg.recv frames).msg) l.a l'.a ∧ l'.next = l.next := by
    cases h with
    | sender h => exact ⟨Node.step_answers hsender h, rfl⟩
  obtain ⟨ls, hls, hids⟩ := sent_of_grows hl h hgrows
  refine ⟨ls, ?_, hids⟩
  rw [inFlight, hls, hnext, List.drop_append_of_le_length hl.next_le, inFlight]

/-- How many of the letters are PING messages. -/
def pings (letters : List Letter) : ℕ := letters.countP fun m => m.msg.id = .ping

theorem pings_append (letters letters' : List Letter) :
    pings (letters ++ letters') = pings letters + pings letters' := List.countP_append ..

theorem pings_cons (letter : Letter) (letters : List Letter) :
    pings (letter :: letters) = pings letters + if letter.msg.id = .ping then 1 else 0 := by
  simp [pings, List.countP_cons]

end Link

namespace Pair

variable {P P' : Pair} {env : Env} {input : Input} {frames : List Frame} {j : ℕ} {action : Action}

/-! ### Deliveries -/

/-- A message is delivered. -/
def Delivers (P P' : Pair) : Prop :=
  ∃ env j frames, Step P P' (.toRight env j frames) ∨ Step P P' (.toLeft env j frames)

/-- Every sequence of deliveries is finite. -/
def Terminates (P : Pair) : Prop := ∀ Q : ℕ → Pair, Q 0 = P → ¬∀ k, Delivers (Q k) (Q (k + 1))

/-- There are only the two nodes, and neither makes a group contested. -/
def Peaceful : Action → Prop
  | .left _ input | .right _ input =>
    (∀ frames, input ≠ .inbox frames) ∧ ∀ name, input ≠ .api (.setContest name)
  | .toRight .. | .toLeft .. => True

/-- No entry that waits is given up, unless fewer HELLO messages are in flight than entries wait. -/
def Retains (P : Pair) : Action → Prop
  | .left env input => P.there.a.Forsakes env input P.there.b.identity →
    Link.hellos P.there.inFlight + Link.hellos P.back.inFlight < P.waiting
  | .right env input => P.back.a.Forsakes env input P.back.b.identity →
    Link.hellos P.there.inFlight + Link.hellos P.back.inFlight < P.waiting
  | .toRight .. | .toLeft .. => True

/-- No HELLO is in flight that no entry waits for. -/
def Tight (P : Pair) : Prop := Link.hellos P.there.inFlight + Link.hellos P.back.inFlight ≤ P.waiting

/-- What the condition keeps. -/
structure Calm (P : Pair) : Prop where
  there : Link.Run 0 (fun _ _ => True) P.there
  back : Link.Run 0 (fun _ _ => True) P.back
  plainThere : P.there.Plain
  plainBack : P.back.Plain
  tight : P.Tight

/-- Calm does not depend on which node is called left. -/
theorem Calm.swap (h : P.Calm) : P.swap.Calm := by
  refine ⟨h.back, h.there, h.plainBack, h.plainThere, ?_⟩
  have htight := h.tight
  unfold Tight waiting at htight ⊢
  show Link.hellos P.back.inFlight + Link.hellos P.there.inFlight ≤ P.back.waits + P.there.waits
  omega

/-! ### What a delivery takes away -/

/-- Twice the HELLO messages in flight, and those once more whose receivers do not wait for them. -/
def load (P : Pair) : ℕ :=
  2 * (Link.hellos P.there.inFlight + Link.hellos P.back.inFlight) +
    (if P.back.waits = 0 then Link.hellos P.there.inFlight else 0) +
    if P.there.waits = 0 then Link.hellos P.back.inFlight else 0

/-- The load, the PING messages, and all messages in flight. -/
def measure (P : Pair) : Lex (ℕ × Lex (ℕ × ℕ)) :=
  toLex (P.load, toLex (Link.pings P.there.inFlight + Link.pings P.back.inFlight,
    P.there.inFlight.length + P.back.inFlight.length))

theorem measure_swap : P.swap.measure = P.measure := by
  have hload : P.swap.load = P.load := by
    simp only [load, swap, Nat.add_comm (Link.hellos P.back.inFlight)]
    exact Nat.add_right_comm ..
  unfold measure
  rw [hload]
  unfold swap
  rw [Nat.add_comm (Link.pings P.back.inFlight), Nat.add_comm P.back.inFlight.length]

/-- A delivery leaves the letters of its link as they are. -/
theorem Calm.plain_deliver (h : Link.Step 0 P.there (.deliver env j frames) P'.there)
    (hplain : P.there.Plain) : P'.there.Plain := by
  generalize P'.there = there' at h
  cases h with
  | deliver hj hletter hsender hmsg h => exact ⟨hplain.uncontested, hplain.letters⟩

/-- A letter is delivered to the right. -/
theorem Calm.deliver (hP : P.Calm) (h : Step P P' (.toRight env j frames)) :
    P'.Calm ∧ P'.measure < P.measure := by
  cases h with
  | toRight h h' =>
  obtain ⟨hthere, hback, hplain, hplain', htight⟩ := hP
  obtain ⟨letter, -, hj, hletter, hsender, hid, hseq, -⟩ := arrives_of_step hthere h h'
  obtain ⟨hwaits, hflight⟩ := Link.step_waits_of_deliver h
  obtain ⟨b', hstep, hwaits', hhellos⟩ := Link.step_waits_of_sender hback h'
  obtain ⟨ls, hls, hids⟩ := Link.step_answers hback h' hsender
  obtain ⟨hall, hbehind⟩ := Link.inFlight_of_deliver hj hletter
  have helects : (Msg.recv frames).msg.id.elects = false :=
    hid ▸ hplain.letters letter (List.mem_of_getElem? hletter)
  have hanswers : ∀ m ∈ ls, m.msg.id = .hello ∧ letter.msg.id = .hello ∨
      m.msg.id = .pingOk ∧ letter.msg.id = .ping := fun m hm =>
    hid ▸ hplain'.uncontested.answers helects (hids m hm)
  -- How many HELLO messages are in flight before and after, and what the right node waits for.
  have hT : Link.hellos P.there.inFlight = Link.hellos (P.there.dropped j) +
      (Link.hellos P'.there.inFlight + if letter.msg.id = .hello then 1 else 0) := by
    rw [hall, hbehind, hflight, Link.hellos_append, Link.hellos_cons]
  have hB : Link.hellos P'.back.inFlight = Link.hellos P.back.inFlight + Link.hellos ls := by
    rw [hls, Link.hellos_append]
  unfold Node.identity at hwaits' hhellos
  have hle := Node.step_hellos_le hsender hstep
  rw [hid] at hle
  have hnow : P.back.waits = (P.back.a.view P.back.b.uuid.str).awaits := rfl
  have hone : P.back.waits ≤ 1 := PeerView.awaits_le_one
  have hone' : P.there.waits ≤ 1 := PeerView.awaits_le_one
  have htight' : P'.Tight := by
    unfold Tight waiting at *
    omega
  refine ⟨⟨hthere.step trivial h, hback.step trivial h', plain_deliver h hplain,
    hplain'.send hback h' nofun fun _ _ heq _ => Input.inbox.inj heq ▸ helects, htight'⟩, ?_⟩
  unfold measure
  by_cases hhello : letter.msg.id = .hello
  · refine Prod.Lex.toLex_lt_toLex.mpr (Or.inl ?_)
    have hsettles := Node.step_settles hsender (hid.trans hhello) hstep
    rw [if_pos hhello] at hT hle
    unfold Tight waiting at htight
    show P'.load < P.load
    unfold load
    split_ifs <;> omega
  · have hnone : Link.hellos ls = 0 := by
      refine List.countP_eq_zero.mpr fun m hm => ?_
      rcases hanswers m hm with ⟨-, h⟩ | ⟨h, -⟩
      · exact absurd h hhello
      · simp [h]
    rw [if_neg hhello] at hT hle
    have hload : P'.load ≤ P.load := by
      unfold load
      split_ifs <;> omega
    refine Prod.Lex.toLex_lt_toLex'.mpr ⟨hload, fun _ => ?_⟩
    have hpings : Link.pings ls = 0 := by
      refine List.countP_eq_zero.mpr fun m hm => ?_
      rcases hanswers m hm with ⟨h, -⟩ | ⟨h, -⟩ <;> simp [h]
    have hthere : Link.pings P.there.inFlight = Link.pings (P.there.dropped j) +
        (Link.pings P'.there.inFlight + if letter.msg.id = .ping then 1 else 0) := by
      rw [hall, hbehind, hflight, Link.pings_append, Link.pings_cons]
    have hback : Link.pings P'.back.inFlight = Link.pings P.back.inFlight := by
      rw [hls, Link.pings_append, hpings, Nat.add_zero]
    by_cases hping : letter.msg.id = .ping
    · rw [if_pos hping] at hthere
      refine Prod.Lex.toLex_lt_toLex.mpr (Or.inl ?_)
      show Link.pings P'.there.inFlight + Link.pings P'.back.inFlight <
        Link.pings P.there.inFlight + Link.pings P.back.inFlight
      omega
    · have hls' : ls = [] := by
        refine List.eq_nil_iff_forall_not_mem.mpr fun m hm => ?_
        rcases hanswers m hm with ⟨-, h⟩ | ⟨-, h⟩
        · exact hhello h
        · exact hping h
      have hlength : P'.there.inFlight.length < P.there.inFlight.length := by
        rw [hall, hbehind, hflight, List.length_append, List.length_cons]
        omega
      have hlength' : P'.back.inFlight.length = P.back.inFlight.length := by
        rw [hls, hls', List.append_nil]
      refine Prod.Lex.toLex_lt_toLex'.mpr ⟨?_, fun _ => ?_⟩
      · show Link.pings P'.there.inFlight + Link.pings P'.back.inFlight ≤
          Link.pings P.there.inFlight + Link.pings P.back.inFlight
        omega
      · show P'.there.inFlight.length + P'.back.inFlight.length <
          P.there.inFlight.length + P.back.inFlight.length
        omega

/-- Nor does delivering. -/
theorem Delivers.swap (h : P.Delivers P') : P.swap.Delivers P'.swap := by
  obtain ⟨env, j, frames, h | h⟩ := h
  · exact ⟨env, j, frames, Or.inr h.swap⟩
  · exact ⟨env, j, frames, Or.inl h.swap⟩

/-- A message is delivered. -/
theorem Calm.delivers (hP : P.Calm) (h : P.Delivers P') : P'.Calm ∧ P'.measure < P.measure := by
  obtain ⟨env, j, frames, h | h⟩ := h
  · exact hP.deliver h
  · obtain ⟨hcalm, hless⟩ := hP.swap.deliver h.swap
    rw [measure_swap, measure_swap] at hless
    exact ⟨hcalm.swap, hless⟩

/-- So no sequence of deliveries goes on for ever. -/
theorem Calm.terminates (hP : P.Calm) : P.Terminates := by
  rintro Q rfl hQ
  have hcalm : ∀ k, (Q k).Calm := by
    intro k
    induction k with
    | zero => exact hP
    | succ k ih => exact (ih.delivers (hQ k)).1
  obtain ⟨k, hk⟩ := WellFounded.not_rel_apply_succ (r := (· < ·)) fun k => (Q k).measure
  exact hk ((hcalm k).delivers (hQ k)).2

/-! ### What keeps to that -/

/-- Nor does the condition on giving up an entry. -/
theorem Retains.swap (h : P.Retains action) : P.swap.Retains action.swap := by
  have hmirror : ∀ {C : Prop}, (C → Link.hellos P.there.inFlight + Link.hellos P.back.inFlight < P.waiting) →
      C → Link.hellos P.back.inFlight + Link.hellos P.there.inFlight < P.back.waits + P.there.waits := by
    intro C h hC
    have hroom := h hC
    unfold waiting at hroom
    omega
  cases action with
  | left env input => exact hmirror h
  | right env input => exact hmirror h
  | toRight env j frames => trivial
  | toLeft env j frames => trivial

/-- The left node handles an input that is no message. -/
theorem Calm.send (hP : P.Calm) (hpeaceful : Peaceful (.left env input)) (hretains : P.Retains (.left env input))
    (h : Link.Step 0 P.there (.sender env input) P'.there)
    (h' : Link.Step 0 P.back (.receiver env input) P'.back) : P'.Calm := by
  obtain ⟨hthere, hback, hplain, hplain', htight⟩ := hP
  obtain ⟨hinput, hcontest⟩ := hpeaceful
  obtain ⟨a', hstep, hwaits, hhellos⟩ := Link.step_waits_of_sender hthere h
  obtain ⟨hwaits', hflight⟩ := Link.step_waits_of_receiver h'
  obtain ⟨hsent, hkept⟩ := Node.step_hellos_aside hinput hstep P.there.b.identity
  refine ⟨hthere.step trivial h, hback.step trivial h',
    hplain.send hthere h hcontest fun frames _ heq _ => absurd heq (hinput frames), ?_, ?_⟩
  · generalize P'.back = back' at h'
    cases h' with
    | receiver hinput h' => exact ⟨hplain'.uncontested, hplain'.letters⟩
  · have hnow : P.there.waits = (P.there.a.view P.there.b.identity).awaits := rfl
    have hone : P.there.waits ≤ 1 := PeerView.awaits_le_one
    have hflight : Link.hellos P'.back.inFlight = _ := congrArg Link.hellos hflight
    unfold Tight waiting at *
    by_cases hforsakes : P.there.a.Forsakes env input P.there.b.identity
    · have hroom := hretains hforsakes
      unfold waiting at hroom
      omega
    · have hkept := hkept hforsakes
      omega

/-- No contest, no third node, and no entry that waits is given up while a HELLO is in flight for each. -/
theorem Run.calm (h : Run (fun P action => Peaceful action ∧ P.Retains action) P) : P.Calm := by
  induction h with
  | new uuid uuid' endpoint endpoint' =>
    have hplain : ∀ {l : Link} {uuid : Uuid} {endpoint : CStr}, l.a = Node.new uuid endpoint →
        l.sent = [] → l.Plain := by
      intro l uuid endpoint ha hsent
      refine ⟨?_, fun m hm => ?_⟩
      · rw [ha]
        exact fun _ => rfl
      · rw [hsent] at hm
        cases hm
    exact ⟨.new _ _ _ _, .new _ _ _ _, hplain rfl rfl, hplain rfl rfl, le_rfl⟩
  | @step P P' action hP hc h ih =>
    obtain ⟨hpeaceful, hretains⟩ := hc
    cases h with
    | left h h' => exact ih.send hpeaceful hretains h h'
    | right h h' => exact Calm.swap (P := P'.swap) (ih.swap.send hpeaceful hretains.swap h' h)
    | toRight h h' => exact (ih.deliver (.toRight h h')).1
    | toLeft h h' => exact (ih.delivers ⟨_, _, _, Or.inr (.toLeft h h')⟩).1

end Pair

/-! ### HELLO for HELLO -/

namespace Link

variable {C : Link → Action → Prop}

/-- Both nodes of a link are reachable. -/
theorem Run.reachable {gap : ℕ} (h : Run gap C l) : Node.Reachable l.a ∧ Node.Reachable l.b := by
  induction h with
  | new uuid uuid' endpoint endpoint' => exact ⟨.new _ _, .new _ _⟩
  | step hl hc h ih =>
    cases h with
    | sender h => exact ⟨.step _ _ ih.1 h, ih.2⟩
    | receiver hinput h => exact ⟨ih.1, .step _ _ ih.2 h⟩
    | deliver hj hletter hsender hmsg h => exact ⟨ih.1, .step _ _ ih.2 h⟩

/-- A HELLO is the first letter on its mailbox. -/
theorem isFirst_of_hello {n : Node} {X : CStr} {sent : List Letter} {m : Letter} (h : n.Posted X sent)
    (hm : sent[j]? = some m) (hid : m.msg.id = .hello) : IsFirst sent j := by
  intro i hi hbox
  rw [hm, Option.map_some] at hbox
  obtain ⟨m', hm', hbox⟩ := Option.map_eq_some_iff.mp hbox
  obtain ⟨k, rfl⟩ := Nat.exists_eq_add_of_lt hi
  rcases Letter.since_of_chain (k := k + 1) h.chain hm' hm with hserial | ⟨-, -, hnot⟩
  · exact hserial.ne (congrArg PeerRef.serial hbox)
  · exact hnot (Nat.succ_pos k) hid

end Link

namespace Node

variable {n n' : Node} {env : Env} {frames : List Frame} {uuid : Uuid}

/-- The node has no groups and no keys, and its HELLO names an endpoint that can be connected to. -/
structure Bare (n : Node) : Prop where
  uncontested : n.Uncontested
  groups : n.ownGroups = []
  secret : n.secretKey = none
  address : ∀ env, [58, 47, 47] <:+: (helloMsg env n).endpoint.bytes

/-- Its entry of `X`, if there is one, is ready. -/
def Met (n : Node) (X : CStr) : Prop := ∀ p, n.peers.lookup X = some p → p.ready = true

/-- A HELLO is answered by another one. -/
theorem Bare.answer (hn : Reachable n) (hbare : n.Bare) (hmet : n.Met uuid.str)
    (hsender : senderOf frames = some uuid) (hid : (Msg.recv frames).msg.id = .hello)
    (hseq : (Msg.recv frames).msg.sequence = 1) (hgroups : (Msg.recv frames).msg.groups ≠ none)
    (hendpoint : [58, 47, 47] <:+: (Msg.recv frames).msg.endpoint.bytes) :
    ∃ n', Node.step (sampleEnv 0) (.inbox frames) n = .ok ⟨⟩ n' ∧ n'.Bare ∧ n'.Met uuid.str ∧
      (n'.view uuid.str).hellos = (n.view uuid.str).hellos + 1 ∧
      ∃ ms, n'.mail = n.mail ++ ms ∧
        ∀ m ∈ ms, m.2.id = .hello → [58, 47, 47] <:+: m.2.endpoint.bytes := by
  have hnot : ∀ id, id ≠ .hello → (Msg.recv frames).msg.id ≠ id := fun id h h' => h (h'.symm.trans hid)
  have hsafe : ∀ uuid, senderOf frames = some uuid →
      Safe (sampleEnv 0) n uuid.str (Msg.recv frames).msg := by
    intro uuid' _
    refine ⟨fun _ hsec => ?_, fun _ hsec => ?_, fun h => ?_, fun _ name hname => ?_, fun h => ?_, fun h => ?_⟩
    · rw [hbare.secret] at hsec
      cases hsec
    · simp [secure, hbare.secret] at hsec
    · rcases h with h | h <;> exact absurd h (hnot _ (by decide))
    · rw [hbare.groups] at hname
      cases hname
    · exact absurd h (hnot _ (by decide))
    · exact absurd h (hnot _ (by decide))
  obtain ⟨n', hok⟩ := step_ok_of_suffices hn (fun _ => ⟨hgroups, fun hsec => by simp [hbare.secret] at hsec⟩) hsafe
  have hadmits : Admits (sampleEnv 0) n uuid.str (Msg.recv frames).msg := by
    have hinvites : Invites (sampleEnv 0) n (Msg.recv frames).msg :=
      ⟨decide_eq_true hendpoint, fun hsec => by simp [hbare.secret] at hsec⟩
    unfold Admits
    cases hp : n.peers.lookup uuid.str with
    | none => exact hinvites
    | some p => exact (if_pos (hmet p hp)).mpr hinvites
  have hrecv := recvMsg_of_step hsender hok
  obtain ⟨v, -, hreaches⟩ := EStateM.wp_of_ok hrecv recvMsg_spec
  obtain ⟨w, hw, hview⟩ := EStateM.wp_of_ok hrecv (recvMsg_greeted hid hadmits hseq)
  have hgroups' : n'.ownGroups = n.ownGroups := (congrArg Node.ownGroups hreaches.own :)
  have hsecret' : n'.secretKey = n.secretKey := (congrArg Node.secretKey hreaches.own :)
  have huncontested := (hbare.uncontested.step (fun _ h => by cases h) (fun _ _ heq _ =>
    Input.inbox.inj heq ▸ congrArg MsgId.elects hid) hok).1
  obtain ⟨⟨hendpoint', hadvertised⟩, ms, hms, hhellos⟩ :=
    (Leaves.acts (Or.inl ⟨_, hok⟩)).hello_endpoint (by rintro (⟨_, ⟨⟩⟩ | ⟨_, ⟨⟩⟩))
  have hbare' : n'.Bare := ⟨huncontested, hgroups'.trans hbare.groups, hsecret'.trans hbare.secret,
    fun env => (helloMsg_endpoint_congr env hendpoint' hadvertised).symm ▸ hbare.address env⟩
  refine ⟨n', hok, hbare', ?_, ?_, ms, hms, fun m hm hid => ?_⟩
  rotate_right
  · obtain ⟨env, hnames⟩ := hhellos m hm hid
    exact hnames ▸ hbare.address env
  · intro p hp
    have hentry : (n'.view uuid.str).entry = some p.still := by simp [hp]
    rw [hview] at hentry
    cases hw <;> exact (congrArg Peer.ready (Option.some_inj.mp hentry)).symm
  · have hwastes : ¬Wastes (sampleEnv 0) n uuid.str (Msg.recv frames).msg := by
      rintro ⟨-, hwastes⟩
      obtain ⟨p, hp, hready, -⟩ := hwastes hadmits
      exact absurd ((hmet p hp).symm.trans hready) (by decide)
    have hsum := step_awaits_of_hello hsender hid hseq hwastes hok
    have hzero : (n.view uuid.str).awaits = 0 := awaits_eq_zero_of_kept fun p hp _ hready =>
      absurd ((hmet p hp).symm.trans hready) (by decide)
    have hzero' : (n'.view uuid.str).awaits = 0 := by
      rw [hview, PeerView.awaits_greet]
      exact hw.awaits.1
    omega

end Node

namespace Pair

variable {P : Pair}

theorem Peaceful.swap {action : Action} (h : Peaceful action) : Peaceful action.swap := by
  cases action <;> exact h

/-- A HELLO is on its way to the right that nobody waits for. -/
structure Volley (P : Pair) : Prop where
  run : Run (fun _ => Peaceful) P
  bare : P.there.a.Bare
  bare' : P.there.b.Bare
  met : P.there.a.Met P.there.b.identity
  met' : P.there.b.Met P.there.a.identity
  hello : ∃ ls m, P.there.sent = ls ++ [m] ∧ m.msg.id = .hello ∧ m.groups = [] ∧
    [58, 47, 47] <:+: m.msg.endpoint.bytes ∧ P.there.next ≤ ls.length

/-- It is answered by another one, which nobody waits for either. -/
theorem Volley.answered (hP : P.Volley) : ∃ P', P.Delivers P' ∧ P'.swap.Volley := by
  obtain ⟨hrun, hbare, hbare', hmet, hmet', ls, m, hsent, hid, hgroups, hendpoint, hnext⟩ := hP
  obtain ⟨hthere, hback⟩ := hrun.links
  have hletter : P.there.sent[ls.length]? = some m := by simp [hsent]
  have hmem : m ∈ P.there.sent := List.mem_of_getElem? hletter
  have hshort : m.groups.length < 2 ^ 32 ∧ ∀ name ∈ m.groups, name.length < 2 ^ 32 := by simp [hgroups]
  have hfits := Link.fits_of_posted hthere.posted hmem hshort.1 hshort.2
  obtain ⟨-, -, hcarries⟩ := carries_recv hfits (1 :: P.there.a.uuid.data)
  have hsender : Node.senderOf (P.there.frames m) = some P.there.a.uuid := Link.senderOf_frames hfits
  have hopens : m.Opens := by
    rcases Link.opens_or_regroups hthere.posted hmem with hopens | ⟨hnot, -⟩
    · exact hopens
    · exact absurd hid hnot
  have hlists : (Msg.recv (P.there.frames m)).msg.groups ≠ none := by
    obtain ⟨groups, hgroups, -⟩ := hfits.groups hid
    rw [show (Msg.recv (P.there.frames m)).msg.groups = m.msg.groups from (hcarries.hello hid).1, hgroups]
    exact Option.some_ne_none _
  have hrecv : (Msg.recv (P.there.frames m)).msg.id = .hello := hcarries.id.trans hid
  have hnamed : (Msg.recv (P.there.frames m)).msg.endpoint = m.msg.endpoint :=
    endpoint_recv hid (hfits.endpoint hid) _
  obtain ⟨b', hok, hbare₁, hmet₁, hhellos, ms, hms, hnames⟩ := hbare'.answer hthere.reachable.2 hmet'
    hsender hrecv (hcarries.sequence.trans hopens.sequence) hlists (hnamed ▸ hendpoint)
  have hdeliverable : P.there.Deliverable 0 ls.length :=
    ⟨hnext, Or.inl (Link.isFirst_of_hello hthere.posted hletter hid)⟩
  have hstep := step_deliver hdeliverable hletter hfits (by rw [hok])
  refine ⟨_, ⟨_, _, _, Or.inl hstep⟩, ?_⟩
  have hrun' : Run (fun _ => Peaceful) _ := hrun.step (by trivial) hstep
  generalize P.deliver (Node.sampleEnv 0) ls.length = P' at hstep hrun'
  cases hstep with
  | toRight h h' =>
  obtain ⟨hok', hb, hsent', hnext'⟩ := Link.step_of_sender h'
  rw [P.right] at hok'
  obtain rfl := (EStateM.Result.ok.inj (hok.symm.trans hok')).2
  obtain ⟨ms', hms', hanswers⟩ := Node.step_answers hsender hok
  obtain rfl := List.append_cancel_left (hms'.symm.trans hms)
  rw [← P.right] at hms
  obtain ⟨ls', hls, hmail⟩ := Link.sent_of_mail hback h' hms
  have hids : ∀ m' ∈ ls', m'.msg.id ∈ P.there.b.answers (Msg.recv (P.there.frames m)).msg :=
    fun m' hm' => hanswers _ (hmail m' hm')
  rw [P.left] at hb hsent'
  have hposts : ls' = Link.posts P.back.sent P'.back.a P.there.a.identity :=
    List.append_cancel_left (hls.symm.trans hsent')
  have hhello : ∀ m' ∈ ls', m'.msg.id = .hello := fun m' hm' => by
    rcases hbare'.uncontested.answers (congrArg MsgId.elects hrecv) (hids m' hm') with ⟨h, -⟩ | ⟨-, h⟩
    · exact h
    · cases hrecv.symm.trans h
  have hne : ls' ≠ [] := by
    rintro rfl
    have hposted := Link.hellos_of_posted hback.posted
    have hposted' := Link.hellos_of_posted hrun'.links.2.posted
    rw [List.append_nil] at hls
    rw [hls, hb] at hposted'
    rw [P.left, P.right] at hposted
    have hsame := hposted.symm.trans hposted'
    unfold Node.identity at hsame
    omega
  obtain ⟨init, m', rfl⟩ := (List.eq_nil_or_concat ls').resolve_left hne
  have hidentity : P'.back.a.identity = P.there.b.identity :=
    congrArg Uuid.str (h'.identity.1.trans (congrArg Node.uuid P.right))
  refine ⟨hrun'.swap fun _ _ => Peaceful.swap, hbare₁, ?_, ?_, ?_, P.back.sent ++ init, m', ?_, ?_, ?_, ?_, ?_⟩
  · show P'.back.b.Bare
    rw [hb]
    exact hbare
  · show P'.back.a.Met P'.back.b.identity
    rw [hb]
    exact hmet₁
  · show P'.back.b.Met P'.back.a.identity
    rw [hb, hidentity]
    exact hmet
  · show P'.back.sent = _
    rw [hls, List.concat_eq_append, List.append_assoc]
  · exact hhello m' (by simp)
  · have hm' : m' ∈ Link.posts P.back.sent P'.back.a P.there.a.identity := hposts ▸ by simp
    exact (Link.groups_of_posts hm').trans hbare₁.groups
  · exact hnames _ (hmail m' (by simp)) (hhello m' (by simp))
  · show P'.back.next ≤ _
    rw [hnext', List.length_append]
    exact hback.next_le.trans (Nat.le_add_right ..)

/-- So it goes on for ever. -/
theorem Volley.not_terminates (hP : P.Volley) : ¬P.Terminates := by
  intro hend
  have hnext : ∀ P : Pair, P.Volley ∨ P.swap.Volley → ∃ P', P.Delivers P' ∧ (P'.Volley ∨ P'.swap.Volley) := by
    rintro P (hP | hP)
    · obtain ⟨P', hdelivers, hP'⟩ := hP.answered
      exact ⟨P', hdelivers, Or.inr hP'⟩
    · obtain ⟨P', hdelivers, hP'⟩ := hP.answered
      exact ⟨P'.swap, hdelivers.swap, Or.inl hP'⟩
  choose! f hf using hnext
  refine hend (fun k => f^[k] P) rfl fun k => ?_
  have hk : (f^[k] P).Volley ∨ (f^[k] P).swap.Volley := by
    induction k with
    | zero => exact Or.inl hP
    | succ k ih =>
      rw [Function.iterate_succ_apply']
      exact (hf _ ih).2
  rw [Function.iterate_succ_apply']
  exact (hf _ hk).1

/-! ### Whether it ends -/

/-- **Termination.** Of two nodes that contest no group every exchange ends, if neither gives up an entry
that waits for a HELLO while one is in flight for every entry that waits. Each delivery makes `measure`
smaller, in lexicographic order: the load of HELLO messages, the PING messages in flight, all messages in
flight. Without the condition a HELLO may be answered by another one for ever. -/
theorem terminates_of_run (h : Run (fun P action => Peaceful action ∧ P.Retains action) P) :
    P.Terminates :=
  h.calm.terminates

/-- **An example**: after the discovery all exchanges end. -/
theorem terminates_found : sampleFound.Terminates := by
  have hnone : sampleApart.there.a.peers.lookup sampleApart.there.b.identity = none :=
    Option.isNone_iff_eq_none.mp (by decide)
  refine terminates_of_run (run_sampleApart.send ⟨⟨nofun, nofun⟩, ?_⟩ nofun (by decide))
  rintro ⟨p, hp, -⟩
  exact nomatch hnone.symm.trans hp

/-- The left node gives the right one up while its HELLO is on the way. -/
def sampleLost : Pair :=
  sampleFound.send (Node.sampleEnv 40000) (.reap [(Node.sampleUuid 1).str])

theorem run_sampleLost : Run (fun _ => Peaceful) sampleLost := by
  have hfound : Run (fun _ => Peaceful) sampleFound :=
    run_sampleApart.send ⟨nofun, nofun⟩ nofun (by decide)
  exact hfound.send ⟨nofun, nofun⟩ (by rintro _ ⟨_, ⟨⟩, _⟩) (by decide +kernel)

/-- The HELLO of a sample node names its endpoint. -/
theorem address_sample {n : Node} (hendpoint : n.endpoint ∈ [Node.sampleEndpoint 'n', Node.sampleEndpoint 'p'])
    (hadvertised : n.advertisedEndpoint = none) (env : Env) :
    [58, 47, 47] <:+: (Node.helloMsg env n).endpoint.bytes := by
  have hplain : ∀ endpoint ∈ [Node.sampleEndpoint 'n', Node.sampleEndpoint 'p'],
      37 ∉ endpoint.bytes ∧ [58, 47, 47] <:+: (endpoint.truncate Msg.fieldSize).bytes := by decide +kernel
  obtain ⟨hiface, hnames⟩ := hplain _ hendpoint
  have hhello : (Node.helloMsg env n).endpoint = n.endpoint.truncate Msg.fieldSize := by
    simp [Node.helloMsg, hiface, hadvertised, Msg.setEndpoint, Msg.setName]
  exact hhello ▸ hnames

theorem volley_sampleLost : sampleLost.Volley := by
  have hbare : ∀ n ∈ [sampleLost.there.a, sampleLost.there.b], n.Bare := by
    have hfields : ∀ n ∈ [sampleLost.there.a, sampleLost.there.b], n.peerGroups.entries.isEmpty = true ∧
        n.ownGroups = [] ∧ n.secretKey = none ∧ n.advertisedEndpoint = none ∧
        n.endpoint ∈ [Node.sampleEndpoint 'n', Node.sampleEndpoint 'p'] := by decide +kernel
    intro n hn
    obtain ⟨hentries, hown, hsecret, hadvertised, hendpoint⟩ := hfields n hn
    have hempty : n.peerGroups = ∅ := AList.ext (List.isEmpty_iff.mp hentries)
    exact ⟨fun name => by rw [Node.contested, hempty]; rfl, hown, hsecret,
      address_sample hendpoint hadvertised⟩
  have hmet : ∀ {n : Node} {X : CStr}, (n.peers.lookup X).isNone = true → n.Met X := by
    intro n X hnone p hp
    rw [hp] at hnone
    cases hnone
  obtain ⟨m, hm⟩ : ∃ m, sampleLost.there.sent = [m] := List.length_eq_one_iff.mp (by decide +kernel)
  have hletters : ∀ m ∈ sampleLost.there.sent, m.msg.id = .hello ∧ m.groups = [] ∧
      [58, 47, 47] <:+: m.msg.endpoint.bytes := by decide +kernel
  obtain ⟨hid, hgroups, hendpoint⟩ := hletters m (by simp [hm])
  exact ⟨run_sampleLost, hbare _ (by simp), hbare _ (by simp), hmet (by decide +kernel),
    hmet (by decide +kernel), [], m, hm, hid, hgroups, hendpoint, by decide +kernel⟩

/-- The right node answers the HELLO, and the left one, which does not wait for the answer, answers that. -/
theorem not_terminates_of_run : ¬∀ P, Run (fun _ => Peaceful) P → P.Terminates := fun h =>
  volley_sampleLost.not_terminates (h sampleLost volley_sampleLost.run)

end Pair

end Zyre
