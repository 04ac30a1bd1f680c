import Zyre.Msg.Basic

/-!
# Sending a ZRE message

`Msg.encode` lays out the first frame of a command as `zre_msg_send` writes it, and `Msg.send`
hands that frame and the content frames to a mailbox. A `Mailbox` is a DEALER socket with a send
timeout of zero: each frame offered to it is either queued or refused with `EAGAIN`, and which of
the two happens is the environment's choice. `zre_msg_send` discards the outcome of every frame
it offers and returns zero.
-/

namespace Zyre

/-! ### The `PUT_` macros -/

/-- `PUT_NUMBER1` of a size: only its low byte. -/
def putNumber1 (n : ℕ) : List UInt8 := [n.toUInt8]

/-- `PUT_NUMBER2`. -/
def putNumber2 (n : ℕ) : List UInt8 := [(n / 256).toUInt8, n.toUInt8]

/-- `PUT_NUMBER4`. -/
def putNumber4 (n : ℕ) : List UInt8 :=
  [(n / 16777216).toUInt8, (n / 65536).toUInt8, (n / 256).toUInt8, n.toUInt8]

/-- `PUT_STRING`: one size byte, then the whole string. -/
def putString (s : CStr) : List UInt8 := putNumber1 s.length ++ s.bytes

/-- `PUT_LONGSTR`. -/
def putLongstr (s : CStr) : List UInt8 := putNumber4 s.length ++ s.bytes

namespace Msg

/-- The list of group names; a null list is written as an empty one. -/
def putGroups (groups : Option (List CStr)) : List UInt8 :=
  let groups := groups.getD []
  putNumber4 groups.length ++ groups.flatMap putLongstr

/-- The header dictionary; a null dictionary is written as an empty one. -/
def putHeaders (headers : Option Headers) : List UInt8 :=
  let entries := (headers.getD ∅).entries
  putNumber4 entries.length ++ entries.flatMap fun e => putString e.1 ++ putLongstr e.2

/-- The fields of each command, after the version. -/
def encodeBody (m : Msg) : List UInt8 :=
  putNumber2 m.sequence.toNat ++
  match m.id with
  | .hello =>
    putString m.endpoint ++ putGroups m.groups ++ putNumber1 m.status.toNat ++
      putString m.name ++ putHeaders m.headers
  | .shout => putString m.group
  | .join | .leave => putString m.group ++ putNumber1 m.status.toNat
  | .elect => putString m.group ++ putString m.challengerId
  | .leader => putString m.group ++ putString m.leaderId
  | .whisper | .ping | .pingOk | .goodbye | .unset => []

/-- The first frame: signature, id, version, fields. -/
def encode (m : Msg) : Frame :=
  putNumber2 0xAAA1 ++ [m.id.toByte] ++ putNumber1 2 ++ m.encodeBody

/-- The frames that follow the first one: the content of WHISPER and SHOUT, or one empty frame
where there is no content. -/
def contentFrames (m : Msg) : List Frame :=
  match m.id with
  | .whisper | .shout => m.content.getD [[]]
  | _ => []

/-- All frames of the message, in order. -/
def frames (m : Msg) : List Frame := m.encode :: m.contentFrames

end Msg

/-! ### Mailboxes -/

/-- A DEALER socket: the frames it has queued, each with its continuation mark, and the answers
it will give to the sends to come, `true` for a refusal with `EAGAIN` (with no answer left it
queues). -/
structure Mailbox where
  queue : List (Frame × Bool)
  refusals : List Bool

namespace Mailbox

/-- A new socket that refuses nothing. -/
def empty : Mailbox := ⟨[], []⟩

/-- `zmq_msg_send` of one frame. -/
def offer (box : Mailbox) (frame : Frame × Bool) : Mailbox :=
  match box.refusals with
  | true :: refusals => { box with refusals := refusals }
  | _ :: refusals => ⟨box.queue ++ [frame], refusals⟩
  | [] => { box with queue := box.queue ++ [frame] }

end Mailbox

namespace Msg

/-- The frames with their continuation marks: every frame but the last has more to follow. -/
def marked : List Frame → List (Frame × Bool)
  | [] => []
  | [f] => [(f, false)]
  | f :: fs => (f, true) :: marked fs

/-- `zre_msg_send`. -/
def send (m : Msg) (box : Mailbox) : Int × Mailbox :=
  (0, (marked m.frames).foldl Mailbox.offer box)

end Msg

end Zyre
