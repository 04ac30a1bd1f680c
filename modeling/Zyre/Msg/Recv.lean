import Zyre.ForMathlib.EStateM
import Zyre.Msg.Basic

/-!
# Receiving a ZRE message

The decoder `zre_msg_recv`, field by field. A `Reader` is the message being filled in, the unread
part of its first frame and the frames behind it. A decoder stops in one of two ways, and the
message keeps the fields read so far in both:

* `rejected`: the signature, the message id or the version is wrong, `rc` is set to `-2`;
* `truncated`: a `GET_` macro found the frame too short and jumped to `malformed`, which leaves
  `rc` as it was, zero.
-/

namespace Zyre

/-- How decoding stops early. -/
inductive Malformed
  | truncated
  | rejected
deriving DecidableEq

/-- What `zre_msg_recv` works on: `self`, the bytes from `needle` to `ceiling`, and the frames of
the message that are still in the socket. -/
structure Reader where
  msg : Msg
  needle : List UInt8
  rest : List Frame

/-- A step of `zre_msg_recv`. -/
abbrev Decoder := EStateM Malformed Reader

/-- The value of octets in network order, as `GET_NUMBER2` and `GET_NUMBER4` assemble it. -/
def numberOf (bs : List UInt8) : ℕ := bs.foldl (fun acc b => acc * 256 + b.toNat) 0

namespace Decoder

/-! ### The `GET_` macros -/

/-- `GET_OCTETS`. -/
def getOctets (size : ℕ) : Decoder (List UInt8) := do
  let needle := (← get).needle
  if needle.length < size then throw .truncated
  modify fun r => { r with needle := r.needle.drop size }
  pure (needle.take size)

/-- `GET_NUMBER1`. -/
def getNumber1 : Decoder UInt8 := do
  pure ((← getOctets 1).headD 0)

/-- `GET_NUMBER2`. -/
def getNumber2 : Decoder UInt16 := do
  pure (UInt16.ofNat (numberOf (← getOctets 2)))

/-- `GET_NUMBER4`. -/
def getNumber4 : Decoder ℕ := do
  pure (numberOf (← getOctets 4))

/-- `GET_STRING`. -/
def getString : Decoder CStr := do
  let size ← getNumber1
  pure (CStr.ofBytes (← getOctets size.toNat))

/-- `GET_LONGSTR`. -/
def getLongstr : Decoder CStr := do
  let size ← getNumber4
  pure (CStr.ofBytes (← getOctets size))

/-- Assign to a field of the message. -/
def assign (f : Msg → Msg) : Decoder Unit :=
  modify fun r => { r with msg := f r.msg }

/-! ### The body of each command -/

/-- The version check every case starts with. -/
def getVersion : Decoder Unit := do
  let version ← getNumber1
  if version ≠ 2 then throw .rejected

def getSequence : Decoder Unit := do
  let sequence ← getNumber2
  assign fun m => { m with sequence := sequence }

def getStatus : Decoder Unit := do
  let status ← getNumber1
  assign fun m => { m with status := status }

def getGroup : Decoder Unit := do
  let group ← getString
  assign fun m => { m with group := group }

/-- `while (list_size--)`: read that many group names. -/
def getGroupList : ℕ → Decoder Unit
  | 0 => pure ()
  | listSize + 1 => do
    let string ← getLongstr
    assign fun m => { m with groups := m.groups.map (· ++ [string]) }
    getGroupList listSize

/-- `while (hash_size--)`: read that many headers; `zhash_insert` keeps the first of two equal
keys. -/
def getHeaderList : ℕ → Decoder Unit
  | 0 => pure ()
  | hashSize + 1 => do
    let key ← getString
    let value ← getLongstr
    assign fun m => { m with headers := m.headers.map (·.insertNew key value) }
    getHeaderList hashSize

/-- `GET zero or more remaining frames`. -/
def getContent : Decoder Unit :=
  modify fun r => { r with msg := { r.msg with content := some r.rest }, rest := [] }

/-- The cases of the `switch` over the message id, after the version check. -/
def getBody : MsgId → Decoder Unit
  | .hello => do
    getSequence
    let endpoint ← getString
    assign fun m => { m with endpoint := endpoint }
    let listSize ← getNumber4
    assign fun m => { m with groups := some [] }
    getGroupList listSize
    getStatus
    let name ← getString
    assign fun m => { m with name := name }
    let hashSize ← getNumber4
    assign fun m => { m with headers := some ∅ }
    getHeaderList hashSize
  | .whisper => do
    getSequence
    getContent
  | .shout => do
    getSequence
    getGroup
    getContent
  | .join | .leave => do
    getSequence
    getGroup
    getStatus
  | .ping | .pingOk | .goodbye => getSequence
  | .elect => do
    getSequence
    getGroup
    let challengerId ← getString
    assign fun m => { m with challengerId := challengerId }
  | .leader => do
    getSequence
    getGroup
    let leaderId ← getString
    assign fun m => { m with leaderId := leaderId }
  | .unset => pure ()

/-- The first frame: signature, id, and the fields of that command. -/
def getMessage : Decoder Unit := do
  let signature ← getNumber2
  if signature ≠ 0xAAA1 then throw .rejected
  let byte ← getNumber1
  match MsgId.ofByte? byte with
  | none => throw .rejected
  | some id => do
    assign fun m => { m with id := id }
    getVersion
    getBody id

end Decoder

/-! ### `zre_msg_recv` -/

/-- What `zre_msg_recv` on the ROUTER inbox leaves behind: its return code, the identity frame,
the message with the fields it could read, and the frames it left in the socket. -/
structure Received where
  rc : Int
  routingId : Frame
  msg : Msg
  rest : List Frame

/-- `zre_msg_recv` on a socket that holds the given frames of one multipart message. Without an
identity and a further frame it reports an interruption, `-1`. Every jump to `malformed` out of a
`GET_` macro returns the `rc` it found, `0`. -/
def Msg.recv : List Frame → Received
  | identity :: frame :: rest =>
    match Decoder.getMessage ⟨Msg.new .unset, frame, rest⟩ with
    | .ok _ r => ⟨0, identity, r.msg, r.rest⟩
    | .error .truncated r => ⟨0, identity, r.msg, r.rest⟩
    | .error .rejected r => ⟨-2, identity, r.msg, r.rest⟩
  | identity => ⟨-1, identity.headD [], Msg.new .unset, []⟩

end Zyre
