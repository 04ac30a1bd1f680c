import Zyre.ForMathlib.Multipart
import Zyre.Node.Survival

/-!
# What the application hears

The node writes an event on its outbox frame by frame, and `zyre_event_new` reads one whole multipart
message and takes its frames off by position. The last of the calls that write a WHISPER or SHOUT
event writes the content of the message, and writes nothing when there are no frames in it: the event
is then not ended.

So the application hears exactly the events of the node as long as every WHISPER and SHOUT the node
takes has content.
-/

namespace Zyre

open Multipart

/-- The content of a complete WHISPER or SHOUT. -/
theorem content_of_wellFormed {frames : List Frame} (h : Node.WellFormed frames)
    (hid : (Msg.recv frames).msg.id.hasContent) :
    (Msg.recv frames).msg.content = some (frames.drop 2) := by
  obtain ⟨identity, frame, rest, rfl, hcomplete⟩ := h
  obtain ⟨id, body, r, -, hr, hbody⟩ :=
    Decoder.getMessage_of_complete hcomplete (Msg.new .unset) rest
  have hrecv : (Msg.recv (identity :: frame :: rest)).msg = r.msg := by simp only [Msg.recv, hr]
  rw [hrecv] at hid ⊢
  by_cases hcontent : id.hasContent
  · exact (EStateM.wp_of_ok hbody (Decoder.getBody_content hcontent _) :).2.1
  · have hkept : r.msg.id = id := (EStateM.wp_of_ok hbody (Decoder.filling_getBody hcontent _) :).1
    exact absurd (hkept ▸ hid) hcontent

/-! ### `zyre_event_new` -/

/-- `struct _zyre_event_t`. -/
structure ZyreEvent where
  type : Option CStr
  peerUuid : Option CStr
  peerName : Option CStr
  peerAddr : Option CStr
  headers : Option Headers
  group : Option CStr
  msg : Option (List Frame)
deriving DecidableEq

/-- The first frame of an event. -/
inductive EventType
  | enter | evasive | silent | exit | join | leave | whisper | shout | leader | stop
deriving DecidableEq

namespace EventType

/-- The text of the type. -/
def text : EventType → CStr
  | enter => .ofChars "ENTER".toList
  | evasive => .ofChars "EVASIVE".toList
  | silent => .ofChars "SILENT".toList
  | exit => .ofChars "EXIT".toList
  | join => .ofChars "JOIN".toList
  | leave => .ofChars "LEAVE".toList
  | whisper => .ofChars "WHISPER".toList
  | shout => .ofChars "SHOUT".toList
  | leader => .ofChars "LEADER".toList
  | stop => .ofChars "STOP".toList

/-- The types `zyre_event_new` tells apart, in the order of its comparisons. -/
def told : List EventType := [enter, join, leave, whisper, shout, leader]

/-- The chain of `streq` over the type. -/
def parse (type : CStr) : Option EventType := told.find? fun t => decide (type = t.text)

/-- The type is read back from its text if `zyre_event_type` knows it. -/
theorem parse_text (t : EventType) : parse t.text = if t ∈ told then some t else none := by
  cases t <;> decide

end EventType

section

variable (pack : Headers → Frame) (unpack : Frame → Headers)

/-- `zyre_event_new`, on a message from the outbox. -/
def zyreEventNew (frames : List Frame) : ZyreEvent :=
  let popstr (i : ℕ) : Option CStr := frames[i]?.map .ofBytes
  let self : ZyreEvent := ⟨popstr 0, popstr 1, popstr 2, none, none, none, none⟩
  match self.type.bind EventType.parse with
  | some .enter => { self with headers := frames[3]?.map unpack, peerAddr := popstr 4 }
  | some .join | some .leave | some .leader => { self with group := popstr 3 }
  | some .whisper => { self with msg := frames.drop 3 }
  | some .shout => { self with group := popstr 3, msg := frames.drop 4 }
  | _ => self

/-! ### Writing events -/

namespace Event

/-- What the node writes with `zstr_sendm` and `ZFRAME_MORE`. -/
def head : Event → List Frame
  | .enter identity name headers _ =>
    [EventType.enter.text.bytes, identity.bytes, name.bytes] ++ (headers.map pack).toList
  | .evasive identity _ => [EventType.evasive.text.bytes, identity.bytes]
  | .silent identity _ => [EventType.silent.text.bytes, identity.bytes]
  | .exit identity _ => [EventType.exit.text.bytes, identity.bytes]
  | .join identity name _ => [EventType.join.text.bytes, identity.bytes, name.bytes]
  | .leave identity name _ => [EventType.leave.text.bytes, identity.bytes, name.bytes]
  | .whisper identity name _ => [EventType.whisper.text.bytes, identity.bytes, name.bytes]
  | .shout identity name group _ =>
    [EventType.shout.text.bytes, identity.bytes, name.bytes, group.bytes]
  | .leader identity name _ => [EventType.leader.text.bytes, identity.bytes, name.bytes]
  | .stop identity _ => [EventType.stop.text.bytes, identity.bytes]

/-- What the last call writes: a string with `zstr_send`, or the content with `zmsg_send`. -/
def body : Event → List Frame
  | .enter _ _ _ endpoint => [endpoint.bytes]
  | .evasive _ name | .silent _ name | .exit _ name | .stop _ name => [name.bytes]
  | .join _ _ group | .leave _ _ group | .leader _ _ group => [group.bytes]
  | .whisper _ _ content | .shout _ _ _ content => content.getD []

/-- The frames an event puts on the outbox. -/
def send (e : Event) : List (Frame × Bool) := more (e.head pack) ++ Multipart.mark e.body

/-- What `zyre_event_new` is to return for an event. -/
def record : Event → ZyreEvent
  | .enter identity name headers endpoint =>
    ⟨EventType.enter.text, identity, name, endpoint, headers, none, none⟩
  | .evasive identity name => ⟨EventType.evasive.text, identity, name, none, none, none, none⟩
  | .silent identity name => ⟨EventType.silent.text, identity, name, none, none, none, none⟩
  | .exit identity name => ⟨EventType.exit.text, identity, name, none, none, none, none⟩
  | .join identity name group => ⟨EventType.join.text, identity, name, none, none, group, none⟩
  | .leave identity name group => ⟨EventType.leave.text, identity, name, none, none, group, none⟩
  | .whisper identity name content =>
    ⟨EventType.whisper.text, identity, name, none, none, none, content⟩
  | .shout identity name group content =>
    ⟨EventType.shout.text, identity, name, none, none, group, content⟩
  | .leader identity name group => ⟨EventType.leader.text, identity, name, none, none, group, none⟩
  | .stop identity name => ⟨EventType.stop.text, identity, name, none, none, none, none⟩

/-- ENTER has headers, and WHISPER and SHOUT have content. -/
def Legible : Event → Prop
  | .enter _ _ headers _ => headers ≠ none
  | .whisper _ _ content | .shout _ _ _ content => ∃ f fs, content = some (f :: fs)
  | _ => True

/-- The headers in an event. -/
def headers? : Event → Option Headers
  | .enter _ _ headers _ => headers
  | _ => none

variable {pack unpack}

/-- A legible event has frames behind its head. -/
theorem Legible.body_ne_nil {e : Event} (h : e.Legible) : e.body ≠ [] := by
  cases e with
  | whisper identity name content => obtain ⟨f, fs, rfl⟩ := h; exact List.cons_ne_nil f fs
  | shout identity name group content => obtain ⟨f, fs, rfl⟩ := h; exact List.cons_ne_nil f fs
  | _ => exact List.cons_ne_nil _ _

/-- A legible event is read as it was written. -/
theorem Legible.read {e : Event} (h : e.Legible)
    (hpack : ∀ hs, e.headers? = some hs → unpack (pack hs) = hs) :
    zyreEventNew unpack (e.head pack ++ e.body) = e.record := by
  cases e with
  | enter identity name headers endpoint =>
    obtain ⟨hs, rfl⟩ := Option.ne_none_iff_exists'.mp h
    simp [zyreEventNew, head, body, record, EventType.parse_text, EventType.told, hpack hs rfl]
  | whisper identity name content =>
    obtain ⟨f, fs, rfl⟩ := h
    simp [zyreEventNew, head, body, record, EventType.parse_text, EventType.told]
  | shout identity name group content =>
    obtain ⟨f, fs, rfl⟩ := h
    simp [zyreEventNew, head, body, record, EventType.parse_text, EventType.told]
  | _ => simp [zyreEventNew, head, body, record, EventType.parse_text, EventType.told]

end Event

/-- What successive calls of `zyre_event_new` return once the node has put the events on its
outbox. -/
def heard (events : List Event) : List ZyreEvent :=
  (messages (events.flatMap (Event.send pack))).map (zyreEventNew unpack)

/-- **The application** reads legible events as they were put out, if the headers survive their packing. -/
theorem heard_of_legible {events : List Event} (h : ∀ e ∈ events, e.Legible)
    (hpack : ∀ e ∈ events, ∀ hs, e.headers? = some hs → unpack (pack hs) = hs) :
    heard pack unpack events = events.map Event.record := by
  have hmessages := @messages_flatMap _ _ (Event.head pack) Event.body events
    fun e he => (h e he).body_ne_nil
  show (messages (events.flatMap fun e => more (e.head pack) ++ Multipart.mark e.body)).map _ = _
  rw [hmessages, List.map_map]
  exact List.map_congr_left fun e he => (h e he).read (hpack e he)

end

/-! ### What a node puts on its outbox -/

/-- Events about no session are legible. -/
theorem legible_of_session {e : Event} (h : e.session = none) : e.Legible := by
  cases e <;> first | exact trivial | exact nomatch h

/-- The events of a session are legible. -/
def PeerView.Legible (v : PeerView) : Prop := ∀ e ∈ v.log, e.Legible

namespace PeerView

variable {X : CStr} {v w : PeerView} {msg : Msg} {gossip : Bool} {R : Set CStr}

/-- A legible event is added. -/
theorem Legible.append {log : List Event} {e : Event} (h : ∀ e ∈ log, e.Legible)
    (he : e.Legible) : ∀ e' ∈ log ++ [e], e'.Legible := by
  intro e' he'
  rcases List.mem_append.mp he' with h' | h'
  · exact h e' h'
  · rw [List.mem_singleton.mp h']
    exact he

/-- EXIT is legible. -/
theorem Legible.exit (h : v.Legible) : (v.exit X).Legible := Legible.append h trivial

/-- To open an entry is to put out nothing. -/
theorem Legible.opened (h : v.Legible) (hopened : Opened X v w) : w.Legible := by
  rcases hopened with - | - | ⟨p, q, -, -, -⟩
  · exact h
  · exact h
  · exact h.exit (X := X)

/-- ENTER is legible if the HELLO has headers. -/
theorem Legible.greet (h : w.Legible) (hheaders : msg.headers ≠ none) :
    ((w.count 1).greet X msg).Legible := by
  intro e he
  simp only [PeerView.greet, count, List.mem_append, List.mem_cons, List.mem_map] at he
  rcases he with he | rfl | ⟨name, -, rfl⟩
  · exact h e he
  · exact hheaders
  · trivial

/-- WHISPER and SHOUT are legible if they have content. -/
theorem Legible.take (h : v.Legible) (hcontent : msg.id = .whisper ∨ msg.id = .shout →
    ∃ f fs, msg.content = some (f :: fs)) : ((v.count msg.sequence).take X msg).Legible := by
  unfold PeerView.take
  split
  · next hid => exact Legible.append h (hcontent (Or.inl hid))
  · next hid => exact Legible.append h (hcontent (Or.inr hid))
  · exact Legible.append h trivial
  · exact Legible.append h trivial
  · exact h

/-- What happens aside is legible. -/
theorem Legible.aside (h : v.Legible) (haside : Aside R X v w) : w.Legible := by
  rcases haside with - | - | - | -
  · exact h
  · exact h
  · exact h
  · exact h.exit

end PeerView

namespace Node

variable {n n' : Node} {env : Env} {input : Input} {X : CStr}

/-- A WHISPER or SHOUT that the node takes has at least one frame of content. -/
def Filled (_env : Env) (n : Node) (input : Input) : Prop :=
  ∀ frames uuid p, input = .inbox frames → senderOf frames = some uuid →
    (Msg.recv frames).msg.id = .whisper ∨ (Msg.recv frames).msg.id = .shout →
    n.peers.lookup uuid.str = some p → p.ready = true →
    p.wantSequence + 1 = (Msg.recv frames).msg.sequence → frames.drop 2 ≠ []

/-- The inbox delivers complete commands only. -/
def Decodes (_env : Env) (_n : Node) (input : Input) : Prop :=
  ∀ frames, input = .inbox frames → WellFormed frames

/-- **One step** puts out legible events if what it decodes is filled. -/
theorem Turns.legible {v : PeerView} (hdecodes : Decodes env n input) (hfilled : Filled env n input)
    (hturns : Turns env n input X v) (h : (n.view X).Legible) : v.Legible := by
  rcases hturns with ⟨frames, uuid, rfl, hsender, rfl, harrival⟩ | haside
  · have hframes := hdecodes frames rfl
    rcases harrival with - | - | ⟨w, -, hw, -⟩ | ⟨w, hid, hw, -⟩ | - | - | ⟨p, -, he, hr, hseq, -⟩
    · exact h
    · exact h.exit
    · exact (h.opened hw).exit
    · exact (h.opened hw).greet (listed_of_wellFormed hframes hid).2
    · exact h.exit
    · exact h.exit
    · refine h.take fun hid => ?_
      obtain ⟨q, hq, rfl⟩ := Option.map_eq_some_iff.mp he
      rw [content_of_wellFormed hframes hid]
      obtain ⟨f, fs, hdrop⟩ := List.exists_cons_of_ne_nil
        (hfilled frames uuid q rfl hsender hid hq hr hseq)
      exact ⟨f, fs, by rw [hdrop]⟩
  · exact h.aside haside

/-- The outbox is legible if the log of every peer is. -/
theorem legible_outbox (h : ∀ X, ∀ e ∈ n.log X, e.Legible) : ∀ e ∈ n.outbox, e.Legible := by
  intro e he
  cases hsession : e.session with
  | none => exact legible_of_session hsession
  | some X => exact h X e (List.mem_filter.mpr ⟨he, by simp [hsession]⟩)

/-- **Every run** over filled messages puts out legible events only. -/
theorem legible_of_run (h : Run (fun env n input => Decodes env n input ∧ Filled env n input) n)
    (X : CStr) : (n.view X).Legible := by
  induction h with
  | new uuid endpoint => exact fun e he => nomatch he
  | step env input hn hc h ih => exact (EStateM.wp_of_ok h (step_view X) :).legible hc.1 hc.2 ih

/-- **The outbox.** In a run over complete commands in which every WHISPER and SHOUT that is taken has
content, the application hears the events the node emitted, one for one, each with the type, the peer and
the data it was emitted with, whatever the last step leaves behind. `zhash_pack` and `zhash_unpack` are
parameters, of which it is assumed that the headers of the ENTER events survive them. -/
theorem heard_of_run {pack : Headers → Frame} {unpack : Frame → Headers}
    (hn : Run (fun env n input => Decodes env n input ∧ Filled env n input) n)
    (hdecodes : Decodes env n input) (hfilled : Filled env n input)
    (h : Leaves (Node.step env input) n n')
    (hpack : ∀ e ∈ n'.outbox, ∀ hs, e.headers? = some hs → unpack (pack hs) = hs) :
    heard pack unpack n'.outbox = n'.outbox.map Event.record := by
  have hlegible : ∀ X, ∀ e ∈ n'.log X, e.Legible := by
    intro X
    refine h.of_wp (P := fun n' => ∀ e ∈ n'.log X, e.Legible) (EStateM.wp_mono (step_view X) ?_ ?_)
    · exact fun _ n₁ hturns => hturns.legible hdecodes hfilled (legible_of_run hn X)
    · rintro _ n₁ ⟨v, hturns, hlog⟩ e he
      exact hturns.legible hdecodes hfilled (legible_of_run hn X) e (hlog.subset he)
  exact heard_of_legible pack unpack (legible_outbox hlegible) hpack

/-- `zhash_pack` lays a dictionary out as HELLO does. -/
def zhashPack (hs : Headers) : Frame := Msg.putHeaders hs

/-- `zhash_unpack`. -/
def zhashUnpack (frame : Frame) : Headers :=
  let decoder : Decoder Unit := do
    let size ← Decoder.getNumber4
    Decoder.assign fun m => { m with headers := some ∅ }
    Decoder.getHeaderList size
  match decoder ⟨Msg.new .unset, frame, []⟩ with
  | .ok _ r | .error _ r => r.msg.headers.getD ∅

/-- A HELLO with a header. -/
def titledHello : Msg :=
  { sampleHello with headers := some (AList.insert (CStr.ofChars ['k']) (CStr.ofChars ['v']) ∅) }

/-- The ENTER and JOIN of a HELLO are heard. -/
theorem heard_titledHello :
    let n := final (Node.step (sampleEnv 0) (sampleInput 1 titledHello) sampleNode)
    heard zhashPack zhashUnpack n.outbox = n.outbox.map Event.record := by
  have hpack : ∀ e ∈ (final (Node.step (sampleEnv 0) (sampleInput 1 titledHello) sampleNode)).outbox,
      e.headers?.map (fun hs => (zhashUnpack (zhashPack hs)).entries) = e.headers?.map (·.entries) := by
    decide +kernel
  refine heard_of_run (n := sampleNode) (.new _ _) ?_ ?_ (leaves_final _ _) ?_
  · rintro _ ⟨⟩
    exact wellFormed_of_isOk (by decide +kernel)
  · exact fun frames uuid p _ _ _ hp => nomatch hp
  · intro e he hs hhs
    have h := hpack e he
    rw [hhs] at h
    exact AList.ext (Option.some_inj.mp h)

/-- A WHISPER numbered `k` with the given content. -/
def sampleWhisper (k : UInt16) (content : List Frame) : Input :=
  sampleInput 1 { (Msg.new .whisper).setSequence k with content := some content }

/-- A WHISPER without frames: its event is not ended, so the application hears one event less than
the node emitted. -/
theorem not_heard_of_empty : ∃ n, Run Decodes n ∧ ∀ pack unpack,
    heard pack unpack n.outbox ≠ n.outbox.map Event.record := by
  have hdecodes : ∀ n, Decodes (sampleEnv 0) n (sampleWhisper 2 []) := by
    rintro n _ ⟨⟩
    exact wellFormed_of_isOk (by decide)
  have hhello : Decodes (sampleEnv 0) sampleNode (sampleInput 1 sampleHello) := by
    rintro _ ⟨⟩
    exact wellFormed_of_isOk (by decide)
  refine ⟨final (Node.step (sampleEnv 0) (sampleWhisper 2 []) greetedNode), ?_, ?_⟩
  · refine .step _ _ (.step _ _ (.new _ _) hhello (step_eq_of_isOk ?_)) (hdecodes _) (step_eq_of_isOk ?_)
    · decide
    · decide
  · intro pack unpack hheard
    have hlength := congrArg List.length hheard
    rw [heard, List.length_map, List.length_map] at hlength
    have hbody := (@length_messages_flatMap_iff _ _ (Event.head pack) Event.body _).mp hlength
    revert hbody
    decide

end Node

end Zyre
