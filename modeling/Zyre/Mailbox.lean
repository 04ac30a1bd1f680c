import Zyre.Peer

/-!
# What a mailbox queues

A run of `zyre_peer_send` calls on one connected peer, against a mailbox that refuses some of the
frames offered to it. `SendsMeet` is what the callers of `zyre_peer_send` rely on, call by call, and
`Reliable` adds what follows for the mailbox as a whole. The code delivers both exactly when the
mailbox refuses no frame (`reliable_iff`): `zre_msg_send` drops the outcome of every frame, so
`zyre_peer_send` never sees a refusal.
-/

namespace Zyre

/-! ### Offering frames -/

namespace Mailbox

theorem length_offer_le (box : Mailbox) (frame : Frame × Bool) :
    (box.offer frame).queue.length ≤ box.queue.length + 1 := by
  rcases box with ⟨queue, _ | ⟨_ | _, _⟩⟩ <;> simp [offer]

theorem length_foldl_offer_le (fs : List (Frame × Bool)) (box : Mailbox) :
    (fs.foldl offer box).queue.length ≤ box.queue.length + fs.length := by
  induction fs generalizing box with
  | nil => simp
  | cons f fs ih =>
    have hone := box.length_offer_le f
    have hrest := ih (box.offer f)
    simp only [List.foldl_cons, List.length_cons]
    omega

/-- Each frame offered takes one answer of the mailbox. -/
theorem refusals_foldl_offer (fs : List (Frame × Bool)) (box : Mailbox) :
    (fs.foldl offer box).refusals = box.refusals.drop fs.length := by
  induction fs generalizing box with
  | nil => simp
  | cons f fs ih =>
    rw [List.foldl_cons, ih]
    rcases box with ⟨queue, _ | ⟨_ | _, _⟩⟩ <;> simp [offer]

/-- The frames are queued as a whole exactly when none of them is refused. -/
theorem queue_foldl_offer_iff (fs : List (Frame × Bool)) (box : Mailbox) :
    (fs.foldl offer box).queue = box.queue ++ fs ↔
      ∀ refused ∈ box.refusals.take fs.length, refused = false := by
  induction fs generalizing box with
  | nil => simp
  | cons f fs ih =>
    rw [List.foldl_cons]
    rcases box with ⟨queue, _ | ⟨_ | _, answers⟩⟩
    · have := ih ⟨queue ++ [f], []⟩
      simpa [offer] using this
    · have := ih ⟨queue ++ [f], answers⟩
      simpa [offer] using this
    · refine iff_of_false (fun heq => ?_) (by simp)
      -- A refused frame leaves the queue too short for the others to make up for it.
      have hlen := length_foldl_offer_le fs ⟨queue, answers⟩
      have hall := congrArg List.length heq
      simp only [offer, List.length_append, List.length_cons] at hlen hall
      omega

end Mailbox

/-! ### Messages as frames -/

namespace Msg

theorem length_marked (fs : List Frame) : (marked fs).length = fs.length := by
  induction fs using marked.induct with
  | case1 => rfl
  | case2 f => rfl
  | case3 f fs hfs ih => rw [marked]; simp [ih]; exact hfs

theorem length_frames_setSequence (m : Msg) (k : UInt16) :
    (m.setSequence k).frames.length = m.frames.length := rfl

/-- The frames of messages numbered from `last + 1` on, as they stand on a mailbox. -/
def numbered : UInt16 → List Msg → List (Frame × Bool)
  | _, [] => []
  | last, m :: ms => marked (m.setSequence (last + 1)).frames ++ numbered (last + 1) ms

/-- The number of frames of a list of messages. -/
def frameCount (ms : List Msg) : ℕ := (ms.map fun m => m.frames.length).sum

theorem length_numbered (last : UInt16) (ms : List Msg) :
    (numbered last ms).length = frameCount ms := by
  induction ms generalizing last with
  | nil => rfl
  | cons m ms ih =>
    simp [numbered, ih, length_marked, length_frames_setSequence, frameCount]

end Msg

/-! ### Runs of `zyre_peer_send` -/

namespace Peer

/-- The peer and its mailbox after a call for each of the messages. -/
def sendAll (p : Peer) (box : Mailbox) : List Msg → Peer × Mailbox
  | [] => (p, box)
  | msg :: msgs => sendAll (p.send msg box).2.1 (p.send msg box).2.2 msgs

/-- The call queues the whole message, numbered `last + 1`, and returns 0. -/
def Queues (p : Peer) (msg : Msg) (box : Mailbox) (last : UInt16) : Prop :=
  (p.send msg box).1 = 0 ∧
    (p.send msg box).2.2.queue = box.queue ++ Msg.marked (msg.setSequence (last + 1)).frames

/-- The call queues nothing, leaves the peer disconnected and not ready, and returns -1. -/
def Refuses (p : Peer) (msg : Msg) (box : Mailbox) : Prop :=
  (p.send msg box).1 = -1 ∧ (p.send msg box).2.2.queue = box.queue ∧
    (p.send msg box).2.1.connected = false ∧ (p.send msg box).2.1.ready = false

/-- Every call of the run that finds the peer connected queues its message or refuses it; `last`
is the number of the message queued before. -/
def SendsMeet (last : UInt16) (p : Peer) (box : Mailbox) : List Msg → Prop
  | [] => True
  | msg :: msgs => p.connected = true →
    (p.Queues msg box last ∧ SendsMeet (last + 1) (p.send msg box).2.1 (p.send msg box).2.2 msgs) ∨
      (p.Refuses msg box ∧ SendsMeet last (p.send msg box).2.1 (p.send msg box).2.2 msgs)

/-- What the calls promise: each of them meets its contract, and the messages queued are the first
ones, numbered without a gap, all of them while the peer still counts as connected. -/
structure Reliable (p : Peer) (box : Mailbox) (msgs : List Msg) : Prop where
  calls : SendsMeet p.sentSequence p box msgs
  queued : ∃ k, (p.sendAll box msgs).2.queue =
      box.queue ++ Msg.numbered p.sentSequence (msgs.take k) ∧
    ((p.sendAll box msgs).1.connected = true → msgs.length ≤ k)

/-- One call on a connected peer: it returns 0 and moves the number on, whatever the mailbox
does. -/
theorem send_of_connected {p : Peer} (hp : p.connected = true) (msg : Msg) (box : Mailbox) :
    p.send msg box = (0, { p with sentSequence := p.sentSequence + 1 },
      (Msg.marked (msg.setSequence (p.sentSequence + 1)).frames).foldl Mailbox.offer box) := by
  simp [send_eq, hp, Msg.send]

theorem sendAll_cons_of_connected {p : Peer} (hp : p.connected = true) (msg : Msg)
    (msgs : List Msg) (box : Mailbox) :
    p.sendAll box (msg :: msgs) =
      sendAll { p with sentSequence := p.sentSequence + 1 }
        ((Msg.marked (msg.setSequence (p.sentSequence + 1)).frames).foldl Mailbox.offer box)
        msgs := by
  rw [sendAll, send_of_connected hp]

/-- The run offers the mailbox all messages, numbered from the next number on. -/
theorem sendAll_of_connected {p : Peer} (hp : p.connected = true) (box : Mailbox)
    (msgs : List Msg) :
    (p.sendAll box msgs).1.connected = true ∧
      (p.sendAll box msgs).2 = (Msg.numbered p.sentSequence msgs).foldl Mailbox.offer box := by
  induction msgs generalizing p box with
  | nil => exact ⟨hp, rfl⟩
  | cons msg msgs ih =>
    rw [sendAll_cons_of_connected hp]
    obtain ⟨hconn, hbox⟩ := ih (p := { p with sentSequence := p.sentSequence + 1 }) hp
      ((Msg.marked (msg.setSequence (p.sentSequence + 1)).frames).foldl Mailbox.offer box)
    exact ⟨hconn, by rw [hbox, Msg.numbered, List.foldl_append]⟩

/-- A run without a refusal meets every call's contract. -/
theorem sendsMeet_of_no_refusal {p : Peer} (hp : p.connected = true) (box : Mailbox)
    (msgs : List Msg)
    (h : ∀ refused ∈ box.refusals.take (Msg.frameCount msgs), refused = false) :
    SendsMeet p.sentSequence p box msgs := by
  induction msgs generalizing p box with
  | nil => trivial
  | cons msg msgs ih =>
    intro _
    have hlen : (Msg.marked (msg.setSequence (p.sentSequence + 1)).frames).length =
        msg.frames.length := Msg.length_marked _
    have hcount : Msg.frameCount (msg :: msgs) = msg.frames.length + Msg.frameCount msgs := rfl
    rw [hcount, List.take_add] at h
    refine Or.inl ⟨⟨by rw [send_of_connected hp], ?_⟩, ?_⟩
    · rw [send_of_connected hp]
      refine (Mailbox.queue_foldl_offer_iff _ box).mpr fun refused hmem => ?_
      exact h refused (List.mem_append_left _ (hlen ▸ hmem))
    · rw [send_of_connected hp]
      refine ih (p := { p with sentSequence := p.sentSequence + 1 }) hp _ fun refused hmem => ?_
      rw [Mailbox.refusals_foldl_offer, hlen] at hmem
      exact h refused (List.mem_append_right _ hmem)

/-- **Reliable sending.** The calls on a connected peer are reliable, that is, each of them meets its
contract and the messages queued are the first ones, numbered without a gap, exactly when the mailbox
refuses none of the frames they offer to it. `zre_msg_send` ignores what the socket answers and returns 0,
so that a frame that is refused is missing from its message and nobody notices. -/
theorem reliable_iff {p : Peer} (hp : p.connected = true) (box : Mailbox) (msgs : List Msg) :
    p.Reliable box msgs ↔
      ∀ refused ∈ box.refusals.take (Msg.frameCount msgs), refused = false := by
  obtain ⟨hconn, hbox⟩ := sendAll_of_connected hp box msgs
  have hqueue := Mailbox.queue_foldl_offer_iff (Msg.numbered p.sentSequence msgs) box
  rw [← hbox, Msg.length_numbered] at hqueue
  constructor
  · rintro ⟨-, k, hk, hall⟩
    rw [List.take_of_length_le (hall hconn)] at hk
    exact hqueue.mp hk
  · intro h
    refine ⟨sendsMeet_of_no_refusal hp box msgs h, msgs.length, ?_, fun _ => le_rfl⟩
    rw [List.take_length]
    exact hqueue.mpr h

/-- A peer just connected. -/
def fresh : Peer := { Peer.new 0 with connected := true }

/-- Two pings to a fresh peer, the mailbox taking all of them. -/
theorem reliable_fresh_iff :
    fresh.Reliable .empty [.new .ping, .new .ping] ↔
      ∀ refused ∈ Mailbox.empty.refusals.take (Msg.frameCount [.new .ping, .new .ping]),
        refused = false :=
  reliable_iff rfl .empty [.new .ping, .new .ping]

/-- A mailbox at its high-water mark loses a ping, and the call reports success. -/
theorem not_reliable_of_refusal : ¬fresh.Reliable ⟨[], [true]⟩ [.new .ping] := by
  rintro ⟨hcalls, -⟩
  rcases hcalls rfl with ⟨⟨-, hqueue⟩, -⟩ | ⟨⟨hrc, -⟩, -⟩
  · exact absurd hqueue (by decide)
  · exact absurd hrc (by decide)

end Peer

end Zyre
