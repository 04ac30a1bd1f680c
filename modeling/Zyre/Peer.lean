import Zyre.Msg.Send

/-!
# Peers

`Peer` is the object behind a `zyre_peer_t`. The program holds peers by pointer: the peers table
owns the object, while groups and elections keep a copy of the pointer. A pointer is modelled by
a `PeerRef`, the identity the object was created for (it never changes) together with the number
of its creation, so that a pointer kept across the destruction of its object does not denote the
object later created for the same identity.
-/

namespace Zyre

/-- A `zyre_peer_t *`. -/
structure PeerRef where
  identity : CStr
  serial : ℕ
deriving DecidableEq

/-- `struct _zyre_peer_t`. The `endpoint` is null, here `∅`, while the peer is not connected. -/
structure Peer where
  serial : ℕ
  endpoint : CStr
  name : Option CStr
  evasiveAt : UInt64
  expiredAt : UInt64
  connected : Bool
  ready : Bool
  status : UInt8
  sentSequence : UInt16
  wantSequence : UInt16
  headers : Option Headers
  publicKey : Option CStr
  secretKey : Option CStr
  serverKey : Option CStr
deriving DecidableEq

namespace Peer

/-- `zyre_peer_new`, as the object with the given creation number. -/
def new (serial : ℕ) : Peer where
  serial := serial
  endpoint := ∅
  name := none
  evasiveAt := 0
  expiredAt := 0
  connected := false
  ready := false
  status := 0
  sentSequence := 0
  wantSequence := 0
  headers := none
  publicKey := none
  secretKey := none
  serverKey := none

/-- `zyre_peer_disconnect`. -/
def disconnect (p : Peer) : Peer :=
  if p.connected then { p with endpoint := ∅, connected := false, ready := false } else p

/-- `zyre_peer_endpoint`. -/
def endpointStr (p : Peer) : CStr := if p.connected then p.endpoint else ∅

/-- `zyre_peer_name`. -/
def nameStr (p : Peer) : CStr := p.name.getD ∅

/-- `zyre_peer_refresh`, at clock `now`. -/
def refresh (p : Peer) (now : Int64) (evasiveTimeout expiredTimeout : UInt64) : Peer :=
  { p with
    evasiveAt := now.toUInt64 + evasiveTimeout
    expiredAt := now.toUInt64 + expiredTimeout }

/-- `zyre_peer_send`: the return code, the peer and its mailbox afterwards. -/
def send (p : Peer) (msg : Msg) (box : Mailbox) : Int × Peer × Mailbox :=
  if p.connected then
    let p := { p with sentSequence := p.sentSequence + 1 }
    let (rc, box) := (msg.setSequence p.sentSequence).send box
    if rc ≠ 0 then (-1, p.disconnect, box) else (0, p, box)
  else (0, p, box)

/-- `zyre_peer_messages_lost`: the answer, and the peer with its count moved on. -/
def messagesLost (p : Peer) (msg : Msg) : Bool × Peer :=
  let want := if msg.id = .hello then 1 else p.wantSequence + 1
  (want ≠ msg.sequence, { p with wantSequence := want })

/-! ### What the operations leave alone -/

@[simp]
theorem disconnect_serial (p : Peer) : p.disconnect.serial = p.serial := by
  unfold disconnect; split <;> rfl

@[simp]
theorem disconnect_connected (p : Peer) : p.disconnect.connected = false := by
  cases h : p.connected <;> simp [disconnect, h]

/-- The sending peer does not depend on its mailbox: `zre_msg_send` never reports a failure. -/
theorem send_eq (p : Peer) (msg : Msg) (box : Mailbox) :
    p.send msg box =
      if p.connected then
        (0, { p with sentSequence := p.sentSequence + 1 },
          ((msg.setSequence (p.sentSequence + 1)).send box).2)
      else (0, p, box) := by
  simp [send, Msg.send]

end Peer

end Zyre
