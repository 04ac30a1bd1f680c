import Zyre.Api
import Zyre.Event
import Zyre.Link.Speech

/-!
# From application to application

The application of `a` makes calls, the node of `a` reads commands from its pipe, the nodes exchange
messages, the node of `b` writes events on its outbox, and the application of `b` reads those. If every
WHISPER and SHOUT has content, the application of `b` hears of `a` only what the application of `a` has
called for, in order, nothing altered and nothing twice (`hears_calls`): neither a command nor an event
is taken for another on the way.
-/

namespace Zyre

/-! ### Calls -/

/-- What the application says to `X` with a call. -/
def Call.speech (X : CStr) : Call → List Speech
  | .whisper peer msg => if peer = X then [.whisper msg] else []
  | .whispers peer string => if peer = X then [.whisper [string.bytes]] else []
  | .shout group msg => [.shout (group.truncate Msg.fieldSize) msg]
  | .shouts group string => [.shout (group.truncate Msg.fieldSize) [string.bytes]]
  | _ => []

namespace Request

/-- What the branches of `zyre_node_recv_api` do for a request: none for the questions, and for settings that
are not read. `uuid` is what `zuuid_set_str` makes of its text, and `bound` what the inbox is bound to. -/
def command (uuid : Uuid) (bound : Option CStr) : Request → Option Command
  | .setName text => some (.setName text)
  | .setHeader key value => some (.setHeader key value)
  | .setPort value => some (.setPort value)
  | .setEvasiveTimeout value | .setSilentTimeout value => some (.setEvasiveTimeout value)
  | .setExpiredTimeout value => some (.setExpiredTimeout value)
  | .setContest group => some (.setContest group)
  | .setAdvertisedEndpoint endpoint => some (.setAdvertisedEndpoint endpoint)
  | .setEndpoint _ => some (.setEndpoint bound)
  | .setPublickey key => some (.setPublickey key)
  | .setSecretkey key => some (.setSecretkey key)
  | .gossipBind _ => some .gossipBind
  | .gossipConnect _ _ => some .gossipConnect
  | .start => some .start
  | .stop => some .stop
  | .whisper identity content => some (.whisper identity content)
  | .shout group content => some (.shout group content)
  | .join group => some (.join group)
  | .leave group => some (.leave group)
  | .requirePeer _ endpoint publicKey => some (.requirePeer uuid endpoint (some publicKey))
  | .peerName identity => some (.peerName identity)
  | .uuid | .name | .setVerbose | .setEphemeralPort _ | .setInterval _ | .zapDomain _ | .gossipUnpublish _
  | .peers | .groupPeers _ | .peerEndpoint _ | .peerHeader _ _ | .peerGroups | .ownGroups | .dump => none

/-- What a request asks the node to say to `X`. -/
def speech (X : CStr) : Request → List Speech
  | .whisper identity content => if identity = X then [.whisper content] else []
  | .shout group content => [.shout (group.truncate Msg.fieldSize) content]
  | _ => []

variable {uuid : Uuid} {bound : Option CStr} {r : Request} {X : CStr}

/-- A request that becomes a command says what the request says. -/
theorem speech_of_command {c : Command} (h : r.command uuid bound = some c) :
    Input.speech X (.api c) = r.speech X := by
  cases r <;> cases h <;> rfl

/-- A request the actor drops says nothing. -/
theorem speech_of_none (h : r.command uuid bound = none) : r.speech X = [] := by
  cases r <;> first | rfl | cases h

end Request

/-- A call says what its requests say. -/
theorem Call.speech_requests (X : CStr) (c : Call) : c.requests.flatMap (Request.speech X) = c.speech X := by
  cases c <;> simp [requests, Request.speech, speech]

/-- The frames of what is said. -/
def Speech.content : Speech → List Frame
  | .whisper content | .shout _ content => content

/-- What is said has content if no call is given a message without frames. -/
theorem content_of_calls {calls : List Call} {X : CStr} {s : Speech} (h : ∀ c ∈ calls, c.message ≠ some [])
    (hs : s ∈ calls.flatMap (Call.speech X)) : s.content ≠ [] := by
  obtain ⟨c, hc, hs⟩ := List.mem_flatMap.mp hs
  have hmessage := h c hc
  cases c <;> simp only [Call.speech] at hs <;> try split_ifs at hs
  all_goals first
  | cases List.mem_singleton.mp hs; exact fun hnil => hmessage (congrArg some hnil)
  | cases List.mem_singleton.mp hs; exact List.cons_ne_nil _ _
  | cases hs

/-- The node reads the requests that the calls stand for. -/
theorem received_of_calls {calls : List Call} (h : ∀ c ∈ calls, c.message ≠ some []) :
    received calls = (calls.flatMap Call.requests).map some := by
  have hsend : calls.flatMap Call.send =
      (calls.flatMap Call.requests).flatMap fun r => Multipart.more r.head ++ Multipart.mark r.body := by
    rw [List.flatMap_assoc]
    exact List.flatMap_congr fun c _ => c.send_eq
  have hbody : ∀ r ∈ calls.flatMap Call.requests, r.body ≠ [] := by
    intro r hr
    obtain ⟨c, hc, hr⟩ := List.mem_flatMap.mp hr
    exact c.body_ne_nil_iff.mpr (h c hc) r hr
  rw [received, hsend, Multipart.messages_flatMap hbody, List.map_map]
  exact List.map_congr_left fun r _ => r.read_frames

/-! ### Events -/

/-- What an event that was read says that `X` has said. -/
def ZyreEvent.speech (X : CStr) (self : ZyreEvent) : Option Speech :=
  if self.peerUuid = some X then
    match self.type.bind EventType.parse with
    | some .whisper => self.msg.map Speech.whisper
    | some .shout => self.group.bind fun group => self.msg.map (Speech.shout group)
    | _ => none
  else none

/-- Content that ends an event. -/
theorem content_of_ended {content : Option (List Frame)} (h : content.getD [] ≠ []) :
    ∃ f fs, content = some (f :: fs) := by
  cases content with
  | none => exact absurd rfl h
  | some frames =>
    obtain ⟨f, fs, hframes⟩ := List.exists_cons_of_ne_nil h
    exact ⟨f, fs, congrArg some hframes⟩

/-- An event that is ended says what it said, whatever the headers of an ENTER become. -/
theorem Event.speech_read (pack : Headers → Frame) (unpack : Frame → Headers) (X : CStr) {e : Event}
    (h : e.body ≠ []) : (zyreEventNew unpack (e.head pack ++ e.body)).speech X = e.speech X := by
  cases e with
  | whisper identity name content =>
    obtain ⟨f, fs, rfl⟩ := content_of_ended h
    simp [zyreEventNew, head, body, EventType.parse_text, EventType.told, ZyreEvent.speech, speech]
  | shout identity name group content =>
    obtain ⟨f, fs, rfl⟩ := content_of_ended h
    simp [zyreEventNew, head, body, EventType.parse_text, EventType.told, ZyreEvent.speech, speech]
  | _ => simp [zyreEventNew, head, body, EventType.parse_text, EventType.told, ZyreEvent.speech, speech]

/-- If every event is ended, the application reads each of them from its own frames. -/
theorem heard_of_ended (pack : Headers → Frame) (unpack : Frame → Headers) {events : List Event}
    (h : ∀ e ∈ events, e.body ≠ []) :
    heard pack unpack events = events.map fun e => zyreEventNew unpack (e.head pack ++ e.body) := by
  have hmessages := @Multipart.messages_flatMap _ _ (Event.head pack) Event.body events h
  show (Multipart.messages
    (events.flatMap fun e => Multipart.more (e.head pack) ++ Multipart.mark e.body)).map _ = _
  rw [hmessages, List.map_map]
  rfl

/-- The application hears what the events say, if every one is ended. -/
theorem speech_heard (pack : Headers → Frame) (unpack : Frame → Headers) (X : CStr) {events : List Event}
    (h : ∀ e ∈ events, e.body ≠ []) :
    (heard pack unpack events).filterMap (ZyreEvent.speech X) = events.filterMap (Event.speech X) := by
  rw [heard_of_ended pack unpack h, List.filterMap_map]
  exact List.filterMap_congr fun e he => e.speech_read pack unpack X (h e he)

/-! ### Events that are ended -/

/-- A WHISPER or SHOUT has come with content. -/
def Msg.Worded (msg : Msg) : Prop := msg.id = .whisper ∨ msg.id = .shout → ∃ f fs, msg.content = some (f :: fs)

/-- A message with words has content if its words have. -/
theorem Msg.worded_of_speech {msg : Msg} (hcontent : msg.speech ≠ none → msg.content = some msg.contentFrames)
    (h : ∀ s, msg.speech = some s → s.content ≠ []) : msg.Worded := by
  have hframes : ∀ s, msg.speech = some s → s.content = msg.contentFrames →
      ∃ f fs, msg.content = some (f :: fs) := by
    intro s hs heq
    obtain ⟨f, fs, hcons⟩ := List.exists_cons_of_ne_nil (heq ▸ h s hs)
    exact ⟨f, fs, (hcontent (hs ▸ Option.some_ne_none s)).trans (congrArg some hcons)⟩
  rintro (hid | hid)
  · exact hframes (.whisper msg.contentFrames) (by rw [speech, hid]) rfl
  · exact hframes (.shout msg.group msg.contentFrames) (by rw [speech, hid]) rfl

namespace PeerView

variable {X : CStr} {v w : PeerView} {msg : Msg}

/-- Every event of the session is ended. -/
def Ended (v : PeerView) : Prop := ∀ e ∈ v.log, e.body ≠ []

/-- Events are added that are ended themselves. -/
theorem Ended.append {es : List Event} (h : v.Ended) (hlog : w.log = v.log ++ es)
    (hes : ∀ e ∈ es, e.body ≠ []) : w.Ended := fun e he => by
  rcases List.mem_append.mp (hlog ▸ he) with he | he
  · exact h e he
  · exact hes e he

/-- EXIT ends an event as it is. -/
theorem Ended.exit (h : v.Ended) : (v.exit X).Ended :=
  h.append rfl (List.forall_mem_singleton.mpr (List.cons_ne_nil _ _))

theorem Ended.opened (h : v.Ended) (hw : Opened X v w) : w.Ended := by
  rcases hw with - | - | -
  · exact h
  · exact h
  · exact h.exit

/-- So do ENTER and the JOIN events of a HELLO. -/
theorem Ended.greet (h : v.Ended) : ((v.count 1).greet X msg).Ended := by
  refine h.append rfl fun e he => ?_
  rcases List.mem_cons.mp he with rfl | he
  · exact List.cons_ne_nil _ _
  · obtain ⟨name, -, rfl⟩ := List.mem_map.mp he
    exact List.cons_ne_nil _ _

/-- A message that is taken leads to ended events if it has content where it should. -/
theorem Ended.take {k : UInt16} (h : v.Ended) (hmsg : msg.Worded) : ((v.count k).take X msg).Ended := by
  have hone : ∀ {w : PeerView} {e : Event}, w.log = v.log ++ [e] → e.body ≠ [] → w.Ended := fun hlog he =>
    h.append hlog (List.forall_mem_singleton.mpr he)
  unfold PeerView.take
  split
  · next hid =>
    obtain ⟨f, fs, hcontent⟩ := hmsg (Or.inl hid)
    exact hone rfl (by rw [hcontent]; exact List.cons_ne_nil f fs)
  · next hid =>
    obtain ⟨f, fs, hcontent⟩ := hmsg (Or.inr hid)
    exact hone rfl (by rw [hcontent]; exact List.cons_ne_nil f fs)
  · exact hone rfl (List.cons_ne_nil _ _)
  · exact hone rfl (List.cons_ne_nil _ _)
  · exact h

end PeerView

namespace Node

variable {n n' : Node} {env : Env} {input : Input} {X : CStr} {v : PeerView}

/-- The messages the node receives have content. -/
def Worded (input : Input) : Prop :=
  ∀ frames, input = .inbox frames → (senderOf frames).isSome → (Msg.recv frames).msg.Worded

/-- **One step** leads from ended events to ended events if the messages have content. -/
theorem Turns.ended (hturns : Turns env n input X v) (hworded : Worded input) (h : (n.view X).Ended) :
    v.Ended := by
  rcases hturns with ⟨frames, uuid, rfl, hsender, -, harrival⟩ | haside
  · rcases harrival with - | - | ⟨w, -, hw, -⟩ | ⟨w, -, hw, -⟩ | - | - | -
    · exact h
    · exact h.exit
    · exact (h.opened hw).exit
    · exact (h.opened hw).greet
    · exact h.exit
    · exact h.exit
    · exact h.take (hworded frames rfl (by rw [hsender]; rfl))
  · rcases haside with - | - | - | -
    · exact h
    · exact h
    · exact h
    · exact h.exit

/-- An iteration ends its events. -/
theorem step_ended (h : Node.step env input n = .ok ⟨⟩ n') (hworded : Worded input)
    (hn : ∀ X, (n.view X).Ended) (X : CStr) : (n'.view X).Ended :=
  (EStateM.wp_of_ok h (step_view X) :).ended hworded (hn X)

/-- Only WHISPER and SHOUT may have nothing to end them. -/
theorem ended_outbox (h : ∀ X, (n.view X).Ended) : ∀ e ∈ n.outbox, e.body ≠ [] := by
  intro e he
  cases hsession : e.session with
  | some X => exact h X e (List.mem_filter.mpr ⟨he, by simp [hsession]⟩)
  | none => cases e <;> first | exact List.cons_ne_nil _ _ | cases hsession

end Node

namespace Link

variable {gap : ℕ} {l l' : Link} {action : Action} {requests : List Request}

/-! ### Runs in which the application makes calls -/

/-- A letter arrives in the frames it was posted in, and what else the receiver receives has content. -/
def Heeds (l : Link) : Action → Prop
  | .receiver _ input => Node.Worded input
  | action => l.Verbatim action

/-- The links of runs in which `a` has read the requests from its pipe. -/
inductive Called (gap : ℕ) : List Request → Link → Prop
  | new (uuid uuid' : Uuid) (endpoint endpoint' : CStr) :
      Called gap [] ⟨Node.new uuid endpoint, Node.new uuid' endpoint', [], [], []⟩
  | answer {requests : List Request} {l : Link} {r : Request} (hl : Called gap requests l)
      (hr : ∀ uuid bound, r.command uuid bound = none) : Called gap (requests ++ [r]) l
  | command {requests : List Request} {l l' : Link} {r : Request} {uuid : Uuid} {bound : Option CStr}
      {c : Command} {env : Env} (hl : Called gap requests l) (hr : r.command uuid bound = some c)
      (h : Step gap l (.sender env (.api c)) l') : Called gap (requests ++ [r]) l'
  | other {requests : List Request} {l l' : Link} {action : Action} (hl : Called gap requests l)
      (hapi : ∀ env c, action ≠ .sender env (.api c)) (hc : l.Heeds action) (h : Step gap l action l') :
      Called gap requests l'

/-- What the requests have said is what has been spoken on the link. -/
theorem Called.spoken (h : Called gap requests l) :
    Spoken gap (requests.flatMap (Request.speech l.b.identity)) l := by
  induction h with
  | new uuid uuid' endpoint endpoint' => exact .new uuid uuid' endpoint endpoint'
  | @answer requests l r hl hr ih =>
    have hnone : r.speech l.b.identity = [] := Request.speech_of_none (hr l.a.uuid none)
    rwa [List.flatMap_append, List.flatMap_singleton, hnone, List.append_nil]
  | @command requests l l' r uuid bound c env hl hr h ih =>
    have hidentity : l'.b.identity = l.b.identity := congrArg Uuid.str h.identity.2
    have hverbatim : l.Verbatim (.sender env (.api c)) := trivial
    rw [hidentity, List.flatMap_append, List.flatMap_singleton, ← Request.speech_of_command hr]
    exact ih.step hverbatim h
  | @other requests l l' action hl hapi hc h ih =>
    have hidentity : l'.b.identity = l.b.identity := congrArg Uuid.str h.identity.2
    have hverbatim : l.Verbatim action := by
      cases action with
      | receiver env input => trivial
      | _ => exact hc
    -- Nothing but a call makes `a` say something.
    have hquiet : action.speech l.b.identity = [] := by
      cases action with
      | sender env input =>
        cases input with
        | api c => exact absurd rfl (hapi env c)
        | _ => rfl
      | _ => rfl
    have hstep := ih.step hverbatim h
    rwa [hquiet, List.append_nil, ← hidentity] at hstep

/-- `b` ends all of its events if what `a` is asked to say has content. -/
theorem Called.ended (h : Called gap requests l)
    (hcontent : ∀ s ∈ requests.flatMap (Request.speech l.b.identity), s.content ≠ []) (X : CStr) :
    (l.b.view X).Ended := by
  induction h generalizing X with
  | new => exact fun e he => absurd he List.not_mem_nil
  | answer hl hr ih =>
    exact ih (fun s hs => hcontent s (by rw [List.flatMap_append]; exact List.mem_append_left _ hs)) X
  | @command requests l l' r uuid bound c env hl hr h ih =>
    have hidentity : l'.b.identity = l.b.identity := congrArg Uuid.str h.identity.2
    rw [hidentity, List.flatMap_append] at hcontent
    have hb := ih fun s hs => hcontent s (List.mem_append_left _ hs)
    cases h with
    | sender h => exact hb X
  | @other requests l l' action hl hapi hc h ih =>
    have hidentity : l'.b.identity = l.b.identity := congrArg Uuid.str h.identity.2
    rw [hidentity] at hcontent
    have hb := ih hcontent
    cases h with
    | sender h => exact hb X
    | receiver hinput h => exact Node.step_ended h hc hb X
    | @deliver env j frames letter b' hj hletter hsender hmsg h =>
      obtain ⟨letter', hletter', rfl⟩ := hc
      obtain rfl := Option.some_inj.mp (hletter.symm.trans hletter')
      have hmem := List.mem_of_getElem? hletter
      obtain ⟨hspeech, harrives⟩ := speech_recv (hl.spoken.fits hmem) (1 :: l.a.uuid.data)
      -- What the letter says is what `a` was asked to say, which has content.
      have hwords : ∀ s, (Msg.recv (l.frames letter)).msg.speech = some s → s.content ≠ [] := by
        intro s hs
        have hsaid : letter.speech = some s := hspeech.symm.trans hs
        exact hcontent s (hl.spoken.said_sublist.subset (List.mem_filterMap.mpr ⟨letter, hmem, hsaid⟩))
      refine Node.step_ended h ?_ hb X
      rintro _ ⟨⟩ -
      exact Msg.worded_of_speech harrives hwords

/-- **From application to application.** If no call gives a WHISPER or SHOUT without frames, the application
of `b` reads only what the application of `a` has called for, in order, nothing altered and nothing twice.
On the way the node of `a` reads from its pipe the requests the calls stand for and nothing else, and the
application of `b` reads one event for each that its node has written, from that event's frames. -/
theorem hears_calls {calls : List Call} (h : Called gap requests l)
    (hpipe : requests.map some <+: received calls) (hcalls : ∀ c ∈ calls, c.message ≠ some [])
    (pack : Headers → Frame) (unpack : Frame → Headers) :
    received calls = (calls.flatMap Call.requests).map some ∧
    heard pack unpack l.b.outbox = l.b.outbox.map (fun e => zyreEventNew unpack (e.head pack ++ e.body)) ∧
    ((heard pack unpack l.b.outbox).filterMap (ZyreEvent.speech l.a.identity)).Sublist
      (calls.flatMap (Call.speech l.b.identity)) := by
  -- The pipe hands over the requests the calls stand for.
  have hprefix : requests <+: calls.flatMap Call.requests := by
    rw [received_of_calls hcalls] at hpipe
    exact (List.prefix_map_iff_of_injective (Option.some_injective _)).mp hpipe
  have hspeech : requests.flatMap (Request.speech l.b.identity) <+:
      calls.flatMap (Call.speech l.b.identity) := by
    have hsame : calls.flatMap (fun c => c.requests.flatMap (Request.speech l.b.identity)) =
        calls.flatMap (Call.speech l.b.identity) := List.flatMap_congr fun c _ => c.speech_requests l.b.identity
    have hall := hprefix.flatMap (Request.speech l.b.identity)
    rwa [List.flatMap_assoc, hsame] at hall
  have hcontent : ∀ s ∈ requests.flatMap (Request.speech l.b.identity), s.content ≠ [] := fun s hs =>
    content_of_calls hcalls (hspeech.subset hs)
  have hended := Node.ended_outbox (h.ended hcontent)
  refine ⟨received_of_calls hcalls, heard_of_ended pack unpack hended, ?_⟩
  rw [speech_heard pack unpack _ hended]
  have hheard : l.b.outbox.filterMap (Event.speech l.a.identity) = l.words := h.spoken.heard_eq
  rw [hheard]
  exact h.spoken.words_sublist.trans hspeech.sublist

/-! ### Calls that are heard -/

/-- A run of calls goes on by a request. -/
theorem Called.request (h : Called gap requests l) (env : Env) {c : Command} (uuid : Uuid) (bound : Option CStr)
    {r : Request} (hr : r.command uuid bound = some c)
    (hok : (Node.step env (.api c) l.a matches .ok ..) = true) :
    Called gap (requests ++ [r]) (l.send env (.api c)) :=
  h.command hr (.sender (Node.step_eq_of_isOk hok))

/-- It goes on by any other input of the sender. -/
theorem Called.input (h : Called gap requests l) (env : Env) {input : Input} (hinput : ∀ c, input ≠ .api c)
    (hok : (Node.step env input l.a matches .ok ..) = true) : Called gap requests (l.send env input) := by
  have hheeds : l.Heeds (.sender env input) := trivial
  exact h.other (fun _ c heq => hinput c (by cases heq; rfl)) hheeds (.sender (Node.step_eq_of_isOk hok))

/-- It goes on by a delivery. -/
theorem Called.deliver (h : Called gap requests l) (env : Env) (j : ℕ) (hj : l.Deliverable gap j)
    (hfits : ∀ m ∈ l.sent[j]?, m.groups.length < 2 ^ 32 ∧ ∀ name ∈ m.groups, name.length < 2 ^ 32)
    (hok : ∀ m ∈ l.sent[j]?, (Node.step env (.inbox (l.frames m)) l.b matches .ok ..) = true) :
    Called gap requests (l.deliver env j) := by
  cases hletter : l.sent[j]? with
  | none =>
    unfold Link.deliver
    rwa [hletter]
  | some m =>
    obtain ⟨hgroups, hnames⟩ := hfits m hletter
    have hm := fits_of_posted h.spoken.run.posted (List.mem_of_getElem? hletter) hgroups hnames
    have hheeds : l.Heeds (.deliver env j (l.frames m)) := ⟨m, hletter, rfl⟩
    exact h.other (fun _ _ heq => by cases heq) hheeds (step_deliver hj hletter hm (hok m hletter))

theorem called_sampleHeard : Called 65535
    [.join (CStr.ofChars ['g']), .whisper (Node.sampleUuid 1).str [[1, 2], []]] sampleHeard := by
  have hstart : Called 65535 [] sampleStart := .new _ _ _ _
  have hmet : Called 65535 [] (sampleStart.send (Node.sampleEnv 0) (Node.sampleInput 1 Node.sampleHello)) :=
    hstart.input _ (fun _ h => by cases h) (by decide +kernel)
  have hlink : Called 65535 [.join (CStr.ofChars ['g'])] sampleLink :=
    hmet.request (Node.sampleEnv 0) (Node.sampleUuid 0) none rfl (by decide +kernel)
  have hsaid : Called 65535 (_ ++ [.whisper (Node.sampleUuid 1).str [[1, 2], []]]) _ :=
    hlink.request (Node.sampleEnv 0) (Node.sampleUuid 0) none rfl (by decide +kernel)
  have hfirst := hsaid.deliver (Node.sampleEnv 0) 0 ⟨by decide +kernel, Or.inl (by decide +kernel)⟩
    (by decide +kernel) (by decide +kernel)
  have hsecond := hfirst.deliver (Node.sampleEnv 0) 1
    ⟨by decide +kernel, Or.inr ⟨0, by decide +kernel, by decide +kernel, by decide +kernel⟩⟩ (by decide +kernel)
    (by decide +kernel)
  exact hsecond.deliver _ 2 ⟨by decide +kernel, Or.inr ⟨1, by decide +kernel, by decide +kernel,
    by decide +kernel⟩⟩ (by decide +kernel) (by decide +kernel)

/-- What the application of the first node calls. -/
def sampleCalls : List Call :=
  [.join (CStr.ofChars ['g']), .whisper (Node.sampleUuid 1).str [[1, 2], []],
    .whisper (Node.sampleUuid 1).str [[3]], .whisper (Node.sampleUuid 1).str [[4]],
    .whisper (Node.sampleUuid 1).str [[5]]]

theorem called_sampleSpoken : Called 65535 (sampleCalls.flatMap Call.requests) sampleSpoken := by
  have hthird : Called 65535 (_ ++ [.whisper (Node.sampleUuid 1).str [[3]]]) _ :=
    called_sampleHeard.request (Node.sampleEnv 0) (Node.sampleUuid 0) none rfl (by decide +kernel)
  have hfourth : Called 65535 (_ ++ [.whisper (Node.sampleUuid 1).str [[4]]]) _ :=
    hthird.request (Node.sampleEnv 0) (Node.sampleUuid 0) none rfl (by decide +kernel)
  have hbroken : Called 65535 _ sampleBroken :=
    hfourth.deliver _ 4 ⟨by decide +kernel, Or.inr ⟨2, by decide +kernel, by decide +kernel, by decide +kernel⟩⟩
      (by decide +kernel) (by decide +kernel)
  have hleft : Called 65535 _ (Link.send _ (Node.sampleInput 1 sampleGoodbye) _) :=
    hbroken.input (Node.sampleEnv 0) (fun _ h => by cases h) (by decide +kernel)
  have hmet : Called 65535 _ (Link.send _ (Node.sampleInput 1 Node.sampleHello) _) :=
    hleft.input (Node.sampleEnv 0) (fun _ h => by cases h) (by decide +kernel)
  have hsaid : Called 65535 (_ ++ [.whisper (Node.sampleUuid 1).str [[5]]]) _ :=
    hmet.request (Node.sampleEnv 0) (Node.sampleUuid 0) none rfl (by decide +kernel)
  have hfirst := hsaid.deliver (Node.sampleEnv 0) 5 ⟨by decide +kernel, Or.inl (by decide +kernel)⟩
    (by decide +kernel) (by decide +kernel)
  exact hfirst.deliver _ 6 ⟨by decide +kernel, Or.inr ⟨5, by decide +kernel, by decide +kernel,
    by decide +kernel⟩⟩ (by decide +kernel) (by decide +kernel)

theorem hears_calls_sampleSpoken :
    received sampleCalls = (sampleCalls.flatMap Call.requests).map some ∧
    heard Node.zhashPack Node.zhashUnpack sampleSpoken.b.outbox =
      sampleSpoken.b.outbox.map (fun e => zyreEventNew Node.zhashUnpack (e.head Node.zhashPack ++ e.body)) ∧
    ((heard Node.zhashPack Node.zhashUnpack sampleSpoken.b.outbox).filterMap
      (ZyreEvent.speech sampleSpoken.a.identity)).Sublist
        (sampleCalls.flatMap (Call.speech sampleSpoken.b.identity)) := by
  refine hears_calls called_sampleSpoken ⟨[], ?_⟩ (by decide) _ _
  decide

end Link

end Zyre
