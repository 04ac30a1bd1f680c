import Zyre.Msg.RoundTrip
import Zyre.Node.Post
import Zyre.Node.Waiting

/-!
# What applications say to each other

The content of WHISPER and SHOUT is handed through: a call of the application puts at most one message with it
into the mailbox of a peer, nothing else the node does puts any there (`step_said`), and what a message says
arrives (`speech_recv`).
-/

namespace Zyre

/-- What one application says to another one, by itself or to a whole group. -/
inductive Speech
  | whisper (content : List Frame)
  | shout (group : CStr) (content : List Frame)
deriving DecidableEq

/-- What a message says. -/
def Msg.speech (msg : Msg) : Option Speech :=
  match msg.id with
  | .whisper => some (.whisper msg.contentFrames)
  | .shout => some (.shout msg.group msg.contentFrames)
  | _ => none

/-- What an event says that `X` has said. -/
def Event.speech (X : CStr) : Event → Option Speech
  | .whisper identity _ (some content) => if identity = X then some (.whisper content) else none
  | .shout identity _ group (some content) => if identity = X then some (.shout group content) else none
  | _ => none

/-- What an input asks the node to say to `X`, if `X` is in the group of a SHOUT. The name of the group is
cut on the wire. -/
def Input.speech (X : CStr) : Input → List Speech
  | .api (.whisper identity content) => if identity = X then [.whisper content] else []
  | .api (.shout group content) => [.shout (group.truncate Msg.fieldSize) content]
  | _ => []

/-- The commands without words. -/
def wordless : Set MsgId := {id | id ≠ .whisper ∧ id ≠ .shout}

/-- Only WHISPER and SHOUT say anything. -/
theorem Msg.speech_of_wordless {msg : Msg} (h : msg.id ∈ wordless) : msg.speech = none := by
  obtain ⟨hwhisper, hshout⟩ := h
  unfold speech
  split <;> first | contradiction | rfl

@[simp]
theorem Msg.speech_setSequence (msg : Msg) (k : UInt16) : (msg.setSequence k).speech = msg.speech := rfl

/-! ### On the wire -/

namespace Decoder

/-- The content of a WHISPER or SHOUT is all frames that are left. -/
theorem getContent_wp {r : Reader} {P : Msg → Prop} (h : P { r.msg with content := some r.rest }) :
    getContent.wp (fun _ r' => P r'.msg) (fun _ r' => P r'.msg) r := h

end Decoder

/-- What a message says arrives. -/
theorem speech_recv {msg : Msg} (hgroup : msg.id = .shout → msg.group.length < 256) (identity : Frame) :
    (Msg.recv (identity :: msg.frames)).msg.speech = msg.speech ∧
      ((Msg.recv (identity :: msg.frames)).msg.speech ≠ none → (Msg.recv (identity :: msg.frames)).msg.content =
        some (Msg.recv (identity :: msg.frames)).msg.contentFrames) := by
  have hframes : ∀ m : Msg, m.id = .whisper ∨ m.id = .shout → m.content = some msg.contentFrames →
      m.contentFrames = msg.contentFrames := by
    rintro m (hid | hid) hcontent <;> rw [Msg.contentFrames, hid, hcontent] <;> rfl
  by_cases hwords : msg.id = .whisper ∨ msg.id = .shout
  · rcases hwords with hid | hid
    · obtain ⟨-, -, hid', hcontent⟩ := recv_of_body (m := msg)
        (P := fun m => m.id = .whisper ∧ m.content = some msg.contentFrames) (by rw [hid]; decide) (by
          rw [hid, Msg.encodeBody, hid]
          exact (Decoder.getSequence_yields msg.sequence).wp_bind (Decoder.getContent_wp
            (P := fun m => m.id = .whisper ∧ m.content = some msg.contentFrames) ⟨rfl, rfl⟩)) identity
      have hsame := hframes _ (Or.inl hid') hcontent
      refine ⟨?_, fun _ => by rw [hcontent, hsame]⟩
      rw [Msg.speech, Msg.speech, hid, hid', hsame]
    · have hbody : msg.encodeBody = putNumber2 msg.sequence.toNat ++ (putString msg.group ++ []) := by
        rw [Msg.encodeBody, hid, List.append_nil]
      obtain ⟨-, -, hid', hgroup', hcontent⟩ := recv_of_body (m := msg)
        (P := fun m => m.id = .shout ∧ m.group = msg.group ∧ m.content = some msg.contentFrames)
        (by rw [hid]; decide) (by
          rw [hid, hbody]
          exact (Decoder.getSequence_yields msg.sequence).wp_bind ((Decoder.getGroup_yields (hgroup hid)).wp_bind
            (Decoder.getContent_wp (P := fun m => m.id = .shout ∧ m.group = msg.group ∧
              m.content = some msg.contentFrames) ⟨rfl, rfl, rfl⟩))) identity
      have hsame := hframes _ (Or.inr hid') hcontent
      refine ⟨?_, fun _ => by rw [hcontent, hsame]⟩
      rw [Msg.speech, Msg.speech, hid, hid', hsame, hgroup']
  · have hwordless : msg.id ∈ wordless := not_or.mp hwords
    have hrecv : (Msg.recv (identity :: msg.frames)).msg.speech = none :=
      Msg.speech_of_wordless (id_recv msg identity ▸ hwordless)
    exact ⟨hrecv.trans (Msg.speech_of_wordless hwordless).symm, fun h => absurd hrecv h⟩

namespace Node

variable {n n' : Node} {X : CStr} {env : Env} {input : Input} {msg : Msg} {uuid : Uuid} {r : PeerRef} {p : Peer}
  {content : List Frame}

/-! ### Saying -/

/-- What the node has said to `X`. -/
def said (n : Node) (X : CStr) : List Speech := (n.mailTo X).filterMap fun m => m.2.speech

theorem said_congr (h : n'.mailTo X = n.mailTo X) : n'.said X = n.said X := congrArg _ h

theorem said_append (m : PeerRef × Msg) : said { n with mail := n.mail ++ [m] } X =
    n.said X ++ if m.1.identity = X then m.2.speech.toList else [] := by
  have hone : [m].filterMap (fun m => m.2.speech) = m.2.speech.toList := by
    cases hm : m.2.speech <;> simp [hm]
  rw [said, mailTo_append, List.filterMap_append, said]
  split_ifs
  · rw [hone]
  · rw [List.filterMap_nil]

/-- Messages without words say nothing. -/
theorem said_of_grows (h : Grows wordless n n') : n'.said X = n.said X := by
  obtain ⟨ms, hms, hwordless⟩ := h
  have hnone : (ms.filter fun m => m.1.identity = X).filterMap (fun m => m.2.speech) = [] := by
    refine List.filterMap_eq_nil_iff.mpr fun m hm => ?_
    exact Msg.speech_of_wordless (hwordless m (List.mem_of_mem_filter hm))
  rw [said, mailTo, hms, List.filter_append, List.filterMap_append, hnone, List.append_nil]
  rfl

/-- A program says nothing if its messages have no words. -/
theorem grows_of_moves {α : Type} {x : NodeM α} {B : Fault → Node → Prop} (h : x.Keeps (Moves wordless) B n) :
    x.wp (fun _ n' => Grows wordless n n') (fun _ _ => True) n :=
  EStateM.wp_mono h (fun _ _ h => h.grows) fun _ _ _ => trivial

/-- Requiring a peer says nothing to it. -/
theorem requirePeer_grows {endpoint : CStr} {key : Option CStr} :
    (requirePeer env uuid endpoint key).wp (fun _ n' => Grows wordless n n') (fun _ _ => True) n := by
  have hhello : ({.hello} : Set MsgId) ⊆ wordless := by simp [wordless]
  cases hlook : n.peers.lookup uuid.str with
  | some p => exact (wp_requirePeer_of_some hlook).mpr .refl
  | none =>
    refine EStateM.wp_mono (requirePeer_spec hlook) (fun o n' h => ?_) fun _ _ _ => trivial
    cases o with
    | none => exact h.grows.mono hhello
    | some r =>
      obtain ⟨q, -, -, hbecomes⟩ := h
      exact hbecomes.grows.mono hhello

/-- Nor do elections. -/
theorem electing_wordless : n.electing ⊆ wordless := by
  rintro id ⟨rfl, -⟩
  simp [wordless]

/-- Nor do answers. -/
theorem answers_wordless : n.answers msg ⊆ wordless := by
  rintro id (hid | ⟨rfl, -⟩ | ⟨rfl, -⟩ | ⟨rfl, -⟩ | ⟨rfl, -⟩)
  · exact electing_wordless hid
  all_goals simp [wordless]

/-- A removal says nothing to anybody. -/
theorem removePeer_grows (hr : n.deref r = some p) :
    (removePeer r).wp (fun _ n' => Grows wordless n n') (fun _ _ => True) n :=
  EStateM.wp_mono (removePeer_spec hr) (fun _ _ h => h.grows.mono electing_wordless) fun _ _ _ => trivial

/-- A pass says nothing to anybody. -/
theorem reap_grows {visited : List CStr} :
    (reap env visited).wp (fun _ n' => Grows wordless n n') (fun _ _ => True) n := by
  refine EStateM.wp_forM (fun n₁ => Grows wordless n n₁) .refl (fun Y _ n₁ hn₁ => ?_) fun _ h => h
  refine EStateM.wp_bind .. |>.mpr (wp_lookupPeer.mpr ?_)
  cases hlook : n₁.peers.lookup Y with
  | none => exact hn₁
  | some p =>
    have hderef := deref_of_lookup hlook
    have hvisit : (pingPeer env ⟨Y, p.serial⟩).wp (fun _ n' => Grows wordless n₁ n') (fun _ _ => True) n₁ := by
      by_cases hexpired : p.expiredAt.toInt64 ≤ env.now
      · refine EStateM.wp_bind .. |>.mpr (wp_readPeer.mpr ⟨fun q hq => ?_, fun _ => trivial⟩)
        obtain rfl := Option.some_inj.mp (hderef.symm.trans hq)
        rw [if_pos hexpired]
        exact removePeer_grows hderef
      · refine EStateM.wp_mono (pingPeer_keeps hderef hexpired) (fun _ _ h => ?_) fun _ _ _ => trivial
        exact h.grows.mono (by simp [wordless])
    exact EStateM.wp_mono hvisit (fun _ _ h => hn₁.trans h) fun _ _ h => h

theorem sendPeers_grows (hid : msg.id ∈ wordless) :
    (sendPeers msg).wp (fun _ n' => Grows wordless n n') (fun _ _ => True) n :=
  grows_of_moves ((sendPeers_keeps hid).mono fun _ => Sends.moves)

/-- A command other than WHISPER and SHOUT says nothing. -/
theorem recvApi_grows {command : Command} (hwhisper : ∀ identity content, command ≠ .whisper identity content)
    (hshout : ∀ group content, command ≠ .shout group content) :
    (recvApi env command).wp (fun _ n' => Grows wordless n n') (fun _ _ => True) n := by
  have hsame : ∀ {f : Node → Node}, (f n).mail = n.mail →
      (modify f : NodeM Unit).wp (fun _ n' => Grows wordless n n') (fun _ _ => True) n := fun h => .of_eq h
  have hgossip : gossipStart.wp (fun _ n' => Grows wordless n n') (fun _ _ => True) n := by
    refine hsame ?_
    split_ifs <;> rfl
  have hsend : ∀ {msg : Msg} {n₀ : Node} {f : Node → Node}, msg.id ∈ wordless → n₀.mail = n.mail →
      (∀ n, (f n).mail = n.mail) →
        (sendPeers msg).wp (fun _ n' => Grows wordless n (f n')) (fun _ _ => True) n₀ := by
    intro msg n₀ f hid hmail hf
    refine EStateM.wp_mono (sendPeers_grows hid) (fun _ n' h => ?_) fun _ _ h => h
    exact (Grows.of_eq hmail).trans (h.trans (.of_eq (hf n')))
  cases command with
  | whisper identity content => exact absurd rfl (hwhisper identity content)
  | shout group content => exact absurd rfl (hshout group content)
  | setContest group => exact .of_eq rfl
  | setEndpoint bound =>
    refine EStateM.wp_bind .. |>.mpr (EStateM.wp_mono hgossip (fun _ n₁ h => ?_) fun _ _ h => h)
    exact h.trans (.of_eq rfl)
  | gossipBind | gossipConnect => exact hgossip
  | start =>
    have hsettings : ∀ n' : Node, n'.mail = n.mail → Grows wordless n n' := fun n' h => .of_eq h
    simp only [recvApi, start, EStateM.wp_bind, EStateM.wp_get, EStateM.wp_ite, wp_assert]
    split_ifs <;> simp [EStateM.wp_set, Grows.refl, hsettings]
  | stop =>
    refine EStateM.wp_bind .. |>.mpr (EStateM.wp_get.mpr (EStateM.wp_ite .. |>.mpr ⟨fun _ => ?_, fun _ => ?_⟩))
    · exact EStateM.wp_bind .. |>.mpr (hsend (f := fun n₁ => { n₁ with
        beacon := false, outbox := n₁.outbox ++ [.stop n₁.identity n₁.name] }) (by simp [wordless, Msg.new]) rfl
          fun _ => rfl)
    · exact Grows.of_eq rfl
  | join group =>
    refine EStateM.wp_bind .. |>.mpr (EStateM.wp_get.mpr (EStateM.wp_ite .. |>.mpr ⟨fun _ => ?_, fun _ => .refl⟩))
    exact EStateM.wp_bind .. |>.mpr (EStateM.wp_modify _ |>.mpr (EStateM.wp_bind .. |>.mpr
      (EStateM.wp_get.mpr (hsend (f := id) (by simp [wordless, Msg.new, Msg.setGroup]) rfl fun _ => rfl))))
  | leave group =>
    refine EStateM.wp_bind .. |>.mpr (EStateM.wp_get.mpr (EStateM.wp_ite .. |>.mpr ⟨fun _ => ?_, fun _ => .refl⟩))
    refine EStateM.wp_bind .. |>.mpr (EStateM.wp_modify _ |>.mpr (EStateM.wp_bind .. |>.mpr
      (EStateM.wp_get.mpr (EStateM.wp_bind .. |>.mpr ?_))))
    exact hsend (f := fun n₁ => { n₁ with ownGroups := n₁.ownGroups.erase group })
      (by simp [wordless, Msg.new, Msg.setGroup]) rfl fun _ => rfl
  | requirePeer uuid endpoint publicKey =>
    refine EStateM.wp_bind .. |>.mpr (EStateM.wp_get.mpr (EStateM.wp_ite .. |>.mpr ⟨fun _ => ?_, fun _ => .refl⟩))
    exact EStateM.wp_bind .. |>.mpr requirePeer_grows
  | peerName identity => exact wp_assert.mpr ⟨fun _ => .refl, fun _ => trivial⟩
  | _ => exact hsame rfl

/-- An input that does not ask for it makes the node say nothing. -/
theorem step_grows (hwhisper : ∀ identity content, input ≠ .api (.whisper identity content))
    (hshout : ∀ group content, input ≠ .api (.shout group content)) :
    (Node.step env input).wp (fun _ n' => Grows wordless n n') (fun _ _ => True) n := by
  cases input with
  | inbox frames =>
    cases hsender : senderOf frames with
    | none =>
      simp only [Node.step, recvPeer_of_none hsender]
      exact .refl
    | some uuid =>
      simp only [Node.step, recvPeer_of_sender hsender]
      refine EStateM.wp_mono recvMsg_spec ?_ fun _ _ _ => trivial
      rintro _ n' ⟨v, -, V, -, hbecomes⟩
      exact hbecomes.grows.mono answers_wordless
  | api command =>
    exact recvApi_grows (fun identity content h => hwhisper identity content (congrArg Input.api h))
      fun group content h => hshout group content (congrArg Input.api h)
  | beacon ipaddress frame publicKey =>
    refine EStateM.wp_bind .. |>.mpr (EStateM.wp_get.mpr (EStateM.wp_ite .. |>.mpr ⟨fun _ => .refl, fun _ => ?_⟩))
    refine EStateM.wp_ite .. |>.mpr ⟨fun _ => .refl, fun _ => EStateM.wp_ite .. |>.mpr ⟨fun _ => ?_, fun _ => ?_⟩⟩
    · exact EStateM.wp_bind .. |>.mpr requirePeer_grows
    · refine EStateM.wp_bind .. |>.mpr (wp_lookupPeer.mpr ?_)
      cases hlook : n.peers.lookup (beaconUuid frame).str with
      | none => exact .refl
      | some p => exact removePeer_grows (deref_of_lookup hlook)
  | gossip uuid service =>
    refine EStateM.wp_bind .. |>.mpr (EStateM.wp_get.mpr (EStateM.wp_ite .. |>.mpr ⟨fun _ => ?_, fun _ => .refl⟩))
    exact EStateM.wp_bind .. |>.mpr requirePeer_grows
  | reap visited => exact reap_grows

/-- WHISPER says it to the peer it is for, if that has a connected mailbox, and to nobody else. -/
theorem apiWhisper_said (identity : CStr) : (apiWhisper identity content).wp
    (fun _ n' => ∃ words, n'.said X = n.said X ++ words ∧
      words.Sublist (if identity = X then [.whisper content] else [])) (fun _ _ => True) n := by
  refine EStateM.wp_bind .. |>.mpr (wp_lookupPeer.mpr ?_)
  have hsame : ∃ words, n.said X = n.said X ++ words ∧
      words.Sublist (if identity = X then [.whisper content] else []) :=
    ⟨[], (List.append_nil _).symm, List.nil_sublist _⟩
  cases hlook : n.peers.lookup identity with
  | none => exact hsame
  | some p =>
    refine wp_peerSend.mpr ⟨fun q _ _ => ⟨_, said_append _, ?_⟩, fun _ _ _ => hsame, fun _ => trivial⟩
    split_ifs <;> exact List.Sublist.refl _

/-- SHOUT says it to every member that has a connected mailbox, once. -/
theorem apiShout_said (hn : n.Sturdy) (name : CStr) : (apiShout name content).wp
    (fun _ n' => ∃ words, n'.said X = n.said X ++ words ∧
      words.Sublist [.shout (name.truncate Msg.fieldSize) content]) (fun _ _ => True) n := by
  have hsame : ∀ n' : Node, n'.mailTo X = n.mailTo X → ∃ words, n'.said X = n.said X ++ words ∧
      words.Sublist [.shout (name.truncate Msg.fieldSize) content] := fun n' h =>
    ⟨[], by rw [said_congr h, List.append_nil], List.nil_sublist _⟩
  refine EStateM.wp_bind .. |>.mpr (EStateM.wp_get.mpr (EStateM.wp_ite .. |>.mpr
    ⟨fun _ => ?_, fun _ => hsame n rfl⟩))
  refine EStateM.wp_mono (groupSend_mailed hn name _ X) ?_ fun _ _ _ => trivial
  rintro _ n' ⟨hmember, hother⟩
  -- A member is sent the message once, if its mailbox is connected; nobody else is sent anything.
  by_cases hX : X ∈ n.members name
  · have hmailed := hmember hX
    by_cases hconn : ∃ p, n.peers.lookup X = some p ∧ p.connected = true
    · obtain ⟨p, hp, hc⟩ := hconn
      refine ⟨[.shout (name.truncate Msg.fieldSize) content], ?_, List.Sublist.refl _⟩
      rw [said, (hmailed.connected p hp hc).1, List.filterMap_append]
      rfl
    · refine hsame n' (hmailed.closed fun p hp => ?_).1
      exact Bool.eq_false_iff.mpr fun hc => hconn ⟨p, hp, hc⟩
  · exact hsame n' (hother hX)

/-- In one iteration the node says to a peer what the input asks for, or nothing. -/
theorem step_said (hn : n.Sturdy) : (Node.step env input).wp
    (fun _ n' => ∃ words, n'.said X = n.said X ++ words ∧ words.Sublist (input.speech X)) (fun _ _ => True)
    n := by
  by_cases hwhisper : ∃ identity content, input = .api (.whisper identity content)
  · obtain ⟨identity, content, rfl⟩ := hwhisper
    exact apiWhisper_said identity
  · by_cases hshout : ∃ group content, input = .api (.shout group content)
    · obtain ⟨group, content, rfl⟩ := hshout
      exact apiShout_said hn group
    · refine EStateM.wp_mono (step_grows (fun identity content h => hwhisper ⟨identity, content, h⟩)
        fun group content h => hshout ⟨group, content, h⟩) (fun _ n' h => ?_) fun _ _ h => h
      exact ⟨[], by rw [said_of_grows h, List.append_nil], List.nil_sublist _⟩

/-! ### Hearing -/

/-- What the application has heard of `X`. -/
def heard (n : Node) (X : CStr) : List Speech := n.outbox.filterMap (Event.speech X)

end Node

/-- An event of another session is no speech of this peer. -/
theorem Event.speech_of_session {X : CStr} {e : Event} (h : e.session ≠ some X) : e.speech X = none := by
  have hne : ∀ {identity : CStr}, e.session = some identity → identity ≠ X := fun heq hX => h (hX ▸ heq)
  unfold speech
  split
  · exact if_neg (hne rfl)
  · exact if_neg (hne rfl)
  · rfl

/-- The words of `X` are in the log of its session. -/
theorem Node.heard_eq_log (n : Node) (X : CStr) : n.heard X = (n.log X).filterMap (Event.speech X) := by
  rw [heard, log]
  induction n.outbox with
  | nil => rfl
  | cons e log ih =>
    by_cases h : e.session = some X
    · rw [List.filter_cons_of_pos (by simpa using h), List.filterMap_cons, List.filterMap_cons, ih]
    · rw [List.filter_cons_of_neg (by simpa using h), List.filterMap_cons_none (Event.speech_of_session h), ih]

end Zyre
