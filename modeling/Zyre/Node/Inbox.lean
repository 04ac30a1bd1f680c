import Zyre.ForMathlib.List
import Zyre.Msg.Fill
import Zyre.Node.Events

/-!
# Receives on the inbox

`zre_msg_recv` reads the identity, one frame, and behind a complete WHISPER or SHOUT its content.
Whatever else a multipart message has is left in the socket, and the next call of `zyre_node_recv_peer`
starts in the middle of the message: it takes a frame its sender has chosen for the identity.

`separate_iff` says for which messages that goes unnoticed, that is, the commands the node handles are
those that begin the messages, each from the identity the router put in front of it.
-/

namespace Zyre

namespace Node

open Decoder

/-! ### Receives -/

/-- The frames that `k` calls of `zyre_node_recv_peer` find in the socket, over one message. -/
def readsFrom : ℕ → List Frame → List (List Frame)
  | 0, _ => []
  | _, [] => []
  | k + 1, frames => frames :: readsFrom k (Msg.recv frames).rest

/-- What the calls of `zyre_node_recv_peer` find in the socket until it is empty. -/
def receives (queue : List (List Frame)) : List (List Frame) :=
  queue.flatMap fun message => readsFrom message.length message

/-- The command that a call handles, with its sender. -/
def command (frames : List Frame) : Option (Uuid × Msg) :=
  (senderOf frames).map fun uuid => (uuid, (Msg.recv frames).msg)

/-- The commands the node handles, with their senders. -/
def handled (queue : List (List Frame)) : List (Uuid × Msg) := (receives queue).filterMap command

/-- Each message is handled as the command it begins with, if at all, and only what the router put in
front of a message is taken as an identity. -/
structure Separate (queue : List (List Frame)) : Prop where
  commands : handled queue = queue.filterMap command
  identities : ∀ frames ∈ receives queue, (senderOf frames).isSome → frames ∈ queue

variable {frames : List Frame} {queue : List (List Frame)} {env : Env}

/-- The node on the frames it receives. -/
theorem forM_recvPeer (q : List (List Frame)) :
    forM q (recvPeer env) = forM (q.filterMap command) fun c => recvMsg env c.1 c.2 := by
  induction q with
  | nil => rfl
  | cons frames q ih =>
    rw [List.forM_cons, ih]
    cases hsender : senderOf frames with
    | none =>
      have hcommand : command frames = none := by rw [command, hsender]; rfl
      rw [recvPeer_of_none hsender, List.filterMap_cons_none hcommand]
      rfl
    | some uuid =>
      have hcommand : command frames = some (uuid, (Msg.recv frames).msg) := by
        rw [command, hsender]; rfl
      rw [recvPeer_of_sender hsender, List.filterMap_cons_some hcommand]
      rfl

/-- Where the messages stay separate, the node does what it does when every message comes alone. -/
theorem Separate.forM_recvPeer_receives (h : Separate queue) :
    forM (receives queue) (recvPeer env) = forM queue (recvPeer env) := by
  have hcommands : (receives queue).filterMap command = queue.filterMap command := h.commands
  rw [forM_recvPeer, forM_recvPeer, hcommands]

/-! ### Frames left behind -/

/-- Frames read two by two, up to a complete WHISPER or SHOUT: no two of them are taken for an
identity and a command. -/
def Unheeded : List Frame → Prop
  | identity :: frame :: rest =>
    ¬(identity.length = zuuidLen + 1 ∧ ¬Rejected frame) ∧ (Grabs frame ∨ Unheeded rest)
  | _ => True

/-- The frames behind the command of a message are its content or go unheeded. -/
def Contained : List Frame → Prop
  | _ :: frame :: rest => Grabs frame ∨ Unheeded rest
  | _ => True

theorem recv_rc (identity frame : Frame) (rest : List Frame) :
    (Msg.recv (identity :: frame :: rest)).rc = 0 ↔ ¬Rejected frame := by
  rcases getMessage_cases frame (Msg.new .unset) rest with ⟨hcomplete, r, hr⟩ | ⟨-, h, r, hr⟩ |
    ⟨-, h, r, hr⟩
  · simp [Msg.recv, hr, Complete.not_rejected hcomplete]
  · simp [Msg.recv, hr, h]
  · simp [Msg.recv, hr, h]

theorem recv_routingId (identity frame : Frame) (rest : List Frame) :
    (Msg.recv (identity :: frame :: rest)).routingId = identity := by
  simp only [Msg.recv]
  split <;> rfl

theorem isSome_command (frames : List Frame) :
    (command frames).isSome = (senderOf frames).isSome := Option.isSome_map

theorem isSome_senderOf (identity frame : Frame) (rest : List Frame) :
    (senderOf (identity :: frame :: rest)).isSome ↔
      identity.length = zuuidLen + 1 ∧ ¬Rejected frame := by
  have hid := recv_routingId identity frame rest
  rw [← recv_rc identity frame rest, senderOf]
  split_ifs with h
  · exact iff_of_true rfl ⟨hid ▸ h.2, h.1⟩
  · exact iff_of_false Bool.false_ne_true fun h' => h ⟨h'.2, hid.symm ▸ h'.1⟩

@[simp]
theorem readsFrom_nil (k : ℕ) : readsFrom k [] = [] := by
  cases k <;> rfl

/-- The calls after the first one find nothing to handle just when the frames they find go
unheeded. -/
theorem filterMap_readsFrom_eq_nil {k : ℕ} (hk : frames.length ≤ k) :
    (readsFrom k frames).filterMap command = [] ↔ Unheeded frames := by
  induction frames using Unheeded.induct generalizing k with
  | case1 identity frame rest ih =>
    obtain ⟨k, rfl⟩ : ∃ j, k = j + 1 := ⟨k - 1, by simp at hk; omega⟩
    have hrest : rest.length ≤ k := by simp at hk; omega
    have htail : (readsFrom k (Msg.recv (identity :: frame :: rest)).rest).filterMap command = [] ↔
        Grabs frame ∨ Unheeded rest := by
      obtain ⟨hgrabs, hleaves⟩ := Msg.recv_rest identity frame rest
      by_cases h : Grabs frame
      · simp [hgrabs h, h]
      · rw [hleaves h, ih hrest]
        simp [h]
    rw [Unheeded, ← htail, ← isSome_senderOf identity frame rest, ← isSome_command]
    show ((identity :: frame :: rest) :: readsFrom k _).filterMap command = [] ↔ _
    cases hcommand : command (identity :: frame :: rest) with
    | none => rw [List.filterMap_cons_none hcommand]; simp
    | some c => rw [List.filterMap_cons_some hcommand]; simp
  | case2 frames hshort =>
    rcases frames with _ | ⟨identity, _ | ⟨frame, rest⟩⟩
    · simp [Unheeded]
    · cases k <;> simp [readsFrom, Msg.recv, command, senderOf, Unheeded]
    · exact absurd rfl (hshort identity frame rest)

/-- The commands over one message are that of its beginning and those over what it leaves. -/
theorem filterMap_reads (message : List Frame) :
    ∃ later, (readsFrom message.length message).filterMap command =
      (command message).toList ++ later ∧ (later = [] ↔ Contained message) ∧
      (later = [] → ∀ frames ∈ readsFrom message.length message, (senderOf frames).isSome →
        frames = message) := by
  rcases message with _ | ⟨identity, _ | ⟨frame, rest⟩⟩
  · exact ⟨[], rfl, by simp [Contained], by simp⟩
  · refine ⟨[], by simp [readsFrom, Msg.recv, command, senderOf], by simp [Contained], fun _ => ?_⟩
    simp [readsFrom, Msg.recv, senderOf]
  · obtain ⟨hgrabs, hleaves⟩ := Msg.recv_rest identity frame rest
    set left := (Msg.recv (identity :: frame :: rest)).rest with hleft
    have hreads : readsFrom (identity :: frame :: rest).length (identity :: frame :: rest) =
        (identity :: frame :: rest) :: readsFrom (rest.length + 1) left := rfl
    refine ⟨(readsFrom (rest.length + 1) left).filterMap command, ?_, ?_, fun hnil frames hmem hsome => ?_⟩
    · rw [hreads]
      cases hcommand : command (identity :: frame :: rest) with
      | none => rw [List.filterMap_cons_none hcommand]; rfl
      | some c => rw [List.filterMap_cons_some hcommand]; rfl
    · rw [Contained]
      by_cases h : Grabs frame
      · simp [hgrabs h, h]
      · rw [hleaves h, filterMap_readsFrom_eq_nil (Nat.le_succ _)]
        simp [h]
    · rw [hreads] at hmem
      rcases List.mem_cons.mp hmem with rfl | hmem
      · rfl
      · have hnone := List.filterMap_eq_nil_iff.mp hnil frames hmem
        rw [← isSome_command, hnone] at hsome
        cases hsome

/-- **Separate messages.** The messages of a queue are handled separately, each from the identity the router
put in front of it, just when none has frames behind its command that are taken for an identity and a
command. What `zre_msg_recv` leaves of a message is read by the next call as if it were a message of its own
(`filterMap_reads`). -/
theorem separate_iff (queue : List (List Frame)) :
    Separate queue ↔ ∀ message ∈ queue, Contained message := by
  choose later hlater hcontained honly using filterMap_reads
  have hhandled : handled queue = queue.flatMap fun m => (command m).toList ++ later m := by
    rw [handled, receives, List.filterMap_flatMap]
    exact List.flatMap_congr fun m _ => hlater m
  have hfilter : queue.filterMap command = queue.flatMap fun m => (command m).toList := by
    rw [List.filterMap_eq_flatMap_toList]
  have hnil : handled queue = queue.filterMap command ↔ ∀ m ∈ queue, later m = [] := by
    rw [hhandled, hfilter, List.flatMap_append_eq_iff]
  constructor
  · intro h m hm
    exact (hcontained m).mp (hnil.mp h.commands m hm)
  · intro h
    refine ⟨hnil.mpr fun m hm => (hcontained m).mpr (h m hm), fun frames hmem hsome => ?_⟩
    obtain ⟨m, hm, hmem⟩ := List.mem_flatMap.mp hmem
    exact honly m ((hcontained m).mpr (h m hm)) frames hmem hsome ▸ hm

/-- A PING with two more frames: they are handled as a HELLO of the peer that the first one names. -/
theorem not_separate_of_trailing : ¬∀ queue, Separate queue := by
  intro h
  have hcommands := (h [[1 :: (sampleUuid 1).data, (Msg.new .ping).encode, 1 :: (sampleUuid 2).data,
    sampleHello.encode]]).commands
  have hlength := congrArg List.length hcommands
  revert hlength
  decide

end Node

end Zyre
