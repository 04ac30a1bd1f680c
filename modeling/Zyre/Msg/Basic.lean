import Zyre.ForMathlib.AList
import Zyre.CStr

/-!
# ZRE messages

`Msg` is the record behind a `zre_msg_t`, whatever the command: every command reads and writes
its own part of the fields. The counted fields keep the difference between a list that has not
been read (`none`, a null pointer) and an empty one, because the receive path dereferences them.
The setters for the fixed 256-byte fields truncate as `strncpy` does.
-/

namespace Zyre

/-- A frame of a multipart message. -/
abbrev Frame := List UInt8

/-- A header dictionary (`zhash_t` with string values). -/
abbrev Headers := AList fun _ : CStr => CStr

/-- The `id` field: `unset` is the zero `zre_msg_new` leaves, the others are `ZRE_MSG_HELLO` (1)
to `ZRE_MSG_GOODBYE` (10). -/
inductive MsgId
  | unset | hello | whisper | shout | join | leave | ping | pingOk | elect | leader | goodbye
deriving DecidableEq

namespace MsgId

/-- The command a message id byte stands for, if any. -/
def ofByte? : UInt8 → Option MsgId
  | 1 => some hello
  | 2 => some whisper
  | 3 => some shout
  | 4 => some join
  | 5 => some leave
  | 6 => some ping
  | 7 => some pingOk
  | 8 => some elect
  | 9 => some leader
  | 10 => some goodbye
  | _ => none

/-- The byte `zre_msg_send` writes for the id. -/
def toByte : MsgId → UInt8
  | unset => 0
  | hello => 1
  | whisper => 2
  | shout => 3
  | join => 4
  | leave => 5
  | ping => 6
  | pingOk => 7
  | elect => 8
  | leader => 9
  | goodbye => 10

theorem ofByte?_toByte {id : MsgId} (h : id ≠ unset) : ofByte? id.toByte = some id := by
  cases id <;> first | rfl | exact absurd rfl h

theorem ofByte?_eq_some {b : UInt8} {id : MsgId} (h : ofByte? b = some id) :
    b = id.toByte ∧ id ≠ unset := by
  unfold ofByte? at h
  split at h <;> first | (cases h; exact ⟨rfl, by decide⟩) | cases h

end MsgId

/-- `struct _zre_msg_t`, without the routing id and the read pointers. -/
structure Msg where
  id : MsgId
  sequence : UInt16
  endpoint : CStr
  groups : Option (List CStr)
  status : UInt8
  name : CStr
  headers : Option Headers
  content : Option (List Frame)
  group : CStr
  challengerId : CStr
  leaderId : CStr
deriving DecidableEq

namespace Msg

/-- `zre_msg_new`: everything zero, with the id the caller sets next. -/
def new (id : MsgId) : Msg where
  id := id
  sequence := 0
  endpoint := ∅
  groups := none
  status := 0
  name := ∅
  headers := none
  content := none
  group := ∅
  challengerId := ∅
  leaderId := ∅

instance : Inhabited Msg := ⟨new .unset⟩

/-- Room for text in the fixed string fields, all of type `char [256]`. -/
def fieldSize : ℕ := 255

/-- `zre_msg_set_endpoint`. -/
def setEndpoint (m : Msg) (value : CStr) : Msg := { m with endpoint := value.truncate fieldSize }

/-- `zre_msg_set_name`. -/
def setName (m : Msg) (value : CStr) : Msg := { m with name := value.truncate fieldSize }

/-- `zre_msg_set_group`. -/
def setGroup (m : Msg) (value : CStr) : Msg := { m with group := value.truncate fieldSize }

/-- `zre_msg_set_challenger_id`. -/
def setChallengerId (m : Msg) (value : CStr) : Msg :=
  { m with challengerId := value.truncate fieldSize }

/-- `zre_msg_set_leader_id`. -/
def setLeaderId (m : Msg) (value : CStr) : Msg := { m with leaderId := value.truncate fieldSize }

/-- `zre_msg_set_sequence`. -/
def setSequence (m : Msg) (sequence : UInt16) : Msg := { m with sequence := sequence }

@[simp] theorem setSequence_sequence (m : Msg) (k : UInt16) : (m.setSequence k).sequence = k := rfl

@[simp] theorem setSequence_id (m : Msg) (k : UInt16) : (m.setSequence k).id = m.id := rfl

@[simp] theorem setGroup_id (m : Msg) (g : CStr) : (m.setGroup g).id = m.id := rfl

end Msg

end Zyre
