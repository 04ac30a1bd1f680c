import Zyre.Msg.Fill
import Zyre.Node.Inputs

/-!
# Which messages a node survives

In every state a node can be in, a complete message that is safe leaves it running. So a node
survives every sequence of complete messages that are safe when they come.
-/

namespace Zyre

namespace Node

variable {n n' : Node} {env : Env} {uuid : Uuid} {frames : List Frame}

/-- A multipart message whose first frame behind the identity is a complete command. -/
def WellFormed (frames : List Frame) : Prop :=
  ∃ identity frame rest, frames = identity :: frame :: rest ∧ Complete frame

theorem listed_of_wellFormed (h : WellFormed frames) : Listed (Msg.recv frames).msg := by
  obtain ⟨identity, frame, rest, rfl, hcomplete⟩ := h
  obtain ⟨id, body, r, -, hr, hbody⟩ :=
    Decoder.getMessage_of_complete hcomplete (Msg.new .unset) rest
  have hrecv : (Msg.recv (identity :: frame :: rest)).msg = r.msg := by simp only [Msg.recv, hr]
  rw [hrecv]
  intro hid
  by_cases hhello : id = .hello
  · subst hhello
    exact (EStateM.wp_of_ok hbody (Decoder.getBody_hello _) :)
  · have hkept : r.msg.id = id := by
      by_cases hcontent : id.hasContent
      · exact (EStateM.wp_of_ok hbody (Decoder.getBody_content hcontent _) :).1
      · exact (EStateM.wp_of_ok hbody (Decoder.filling_getBody hcontent _) :).1
    exact absurd (hkept.symm.trans hid) hhello

/-- Decoding tells. -/
theorem wellFormed_of_isOk {identity frame : Frame} {rest : List Frame}
    (h : (Decoder.getMessage ⟨Msg.new .unset, frame, rest⟩ matches .ok ..) = true) :
    WellFormed (identity :: frame :: rest) := by
  refine ⟨identity, frame, rest, rfl, ?_⟩
  rcases Decoder.getMessage_cases frame (Msg.new .unset) rest with ⟨h', -⟩ | ⟨-, -, r, hr⟩ | ⟨-, -, r, hr⟩
  · exact h'
  · rw [hr] at h; cases h
  · rw [hr] at h; cases h

/-- One safe message that has the lists the node looks into. -/
theorem step_ok_of_suffices (hn : Reachable n) (hlists : n.Suffices (Msg.recv frames).msg)
    (hsafe : ∀ uuid, senderOf frames = some uuid → Safe env n uuid.str (Msg.recv frames).msg) :
    ∃ n', Node.step env (.inbox frames) n = .ok ⟨⟩ n' := by
  have hwp : (Node.step env (.inbox frames)).wp (fun _ _ => True) (fun _ _ => False) n := by
    simp only [Node.step]
    cases hsender : senderOf frames with
    | none =>
      rw [recvPeer_of_none hsender]
      trivial
    | some uuid =>
      rw [recvPeer_of_sender hsender]
      refine EStateM.wp_mono ((sturdy_of_reachable hn).wp_of_keeps (recvMsg_changes (D := Set.univ)
        (fun _ => trivial) (fun h => ?_) fun h => ?_)) (fun _ _ _ => trivial) fun _ _ h => h
      · exact h (hsafe uuid hsender)
      · exact h hlists
  obtain ⟨_, n', hok, -⟩ := EStateM.exists_of_wp hwp
  exact ⟨n', hok⟩

/-- One safe message. -/
theorem step_ok_of_safe (hn : Reachable n) (hframes : WellFormed frames)
    (hsafe : ∀ uuid, senderOf frames = some uuid → Safe env n uuid.str (Msg.recv frames).msg) :
    ∃ n', Node.step env (.inbox frames) n = .ok ⟨⟩ n' :=
  step_ok_of_suffices hn (listed_of_wellFormed hframes).suffices hsafe

/-- Each of the messages is complete, and safe in the state it comes in. -/
def SafeRun : List (Env × List Frame) → Node → Prop
  | [], _ => True
  | (env, frames) :: rest, n => WellFormed frames ∧
      (∀ uuid, senderOf frames = some uuid → Safe env n uuid.str (Msg.recv frames).msg) ∧
      ∀ n', Node.step env (.inbox frames) n = .ok ⟨⟩ n' → SafeRun rest n'

/-- **Survival.** From every state it can reach, a node handles every sequence of complete messages to the
end, without an assertion that fails and without the use of a freed peer, if each message is safe when it
comes. `Safe` is what the code takes for granted of the sender's entry, its status and the election the
message is about; one message is `step_ok_of_safe`, and the run is by induction on the messages. -/
theorem survives_of_safe (hn : Reachable n) {messages : List (Env × List Frame)}
    (h : SafeRun messages n) :
    ∃ n', play (messages.map fun m => (m.1, .inbox m.2)) n = some n' := by
  induction messages generalizing n with
  | nil => exact ⟨n, rfl⟩
  | cons message rest ih =>
    obtain ⟨env, frames⟩ := message
    obtain ⟨hframes, hsafe, hrest⟩ := h
    obtain ⟨n₁, hstep⟩ := step_ok_of_safe hn hframes hsafe
    obtain ⟨n', hplay⟩ := ih (.step env _ hn hstep) (hrest n₁ hstep)
    refine ⟨n', ?_⟩
    rw [List.map_cons, play, hstep]
    exact hplay

/-- The HELLO of a peer the node does not know. -/
theorem survives_hello :
    ∃ n', play [(sampleEnv 0, sampleInput 1 sampleHello)] sampleNode = some n' := by
  have hframes : WellFormed ((1 :: (sampleUuid 1).data) :: sampleHello.frames) :=
    wellFormed_of_isOk (by decide)
  have hsecret : sampleNode.secretKey.isSome → False := by decide
  refine @survives_of_safe _ (.new _ _) [(sampleEnv 0, _)]
    ⟨hframes, fun uuid _ => ?_, fun _ _ => trivial⟩
  have hid : (Msg.recv ((1 :: (sampleUuid 1).data) :: sampleHello.frames)).msg.id = .hello := by decide
  have hnone : ∀ p, ¬Next sampleNode uuid.str
      (Msg.recv ((1 :: (sampleUuid 1).data) :: sampleHello.frames)).msg p := fun p hp => nomatch hp.1
  exact {
    key := fun _ hkey => absurd hkey hsecret
    serverKey := fun _ hkey => absurd hkey (by decide)
    status := fun _ p hp => absurd hp (hnone p)
    leaders := fun _ name hname => nomatch hname
    leader := fun _ p hp => absurd hp (hnone p)
    father := fun _ p hp => absurd hp (hnone p) }

/-- A JOIN whose status is not the count the node keeps. -/
def sampleJoin : Msg :=
  { (Msg.new .join).setSequence 2 with group := CStr.ofChars ['h'], status := 7 }

/-- A JOIN with another status stops the node. -/
theorem not_survives_join :
    ¬∀ n, Reachable n → ∀ messages : List (Env × List Frame), (∀ m ∈ messages, WellFormed m.2) →
      ∃ n', play (messages.map fun m => (m.1, .inbox m.2)) n = some n' := by
  intro h
  let inputs : List (Env × Input) :=
    [(sampleEnv 0, sampleInput 1 sampleHello), (sampleEnv 0, sampleInput 1 sampleJoin)]
  have hplay : (play inputs sampleNode).isNone = true := by
    decide +kernel
  obtain ⟨n', hn'⟩ := h sampleNode (.new _ _)
    [(sampleEnv 0, (1 :: (sampleUuid 1).data) :: sampleHello.frames),
      (sampleEnv 0, (1 :: (sampleUuid 1).data) :: sampleJoin.frames)] (by
    intro m hm
    rcases List.mem_cons.mp hm with rfl | hm
    · exact wellFormed_of_isOk (by decide)
    · obtain rfl := List.mem_singleton.mp hm
      exact wellFormed_of_isOk (by decide))
  have hn' : play inputs sampleNode = some n' := hn'
  rw [hn'] at hplay
  cases hplay

end Node

end Zyre
