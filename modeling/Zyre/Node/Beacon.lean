import Zyre.ForMathlib.Z85
import Zyre.Node.Events

/-!
# The beacon from node to node

What `zyre_node_actor` and `zyre_node_stop` publish, and what `zyre_node_recv_beacon` of another node
makes of it. `heeded_iff`: a node's beacons are understood by every other node in the same mode
if and only if it has no CURVE keys or its public key does not begin with a zero byte, which the
receiver takes for a missing key.

libzmq's Z85 codec is a parameter.
-/

namespace Zyre

namespace Node

variable (z85Encode : List UInt8 → CStr) (z85Decode : CStr → List UInt8)

/-! ### Publishing -/

/-- The beacon that `zyre_node_actor` publishes with the port the inbox is bound to, and
`zyre_node_stop` with port 0. Without a public key nothing is written to the field of the key; it is
not published then. -/
def beaconFrame (n : Node) (port : UInt16) : Frame :=
  let beacon : List UInt8 := [90, 82, 69, n.beaconVersion] ++ n.uuid.data ++ putNumber2 port.toNat ++
    (n.publicKey.map z85Decode).getD (List.replicate 32 0)
  beacon.take (if n.beaconVersion = 1 then 22 else 54)

/-- `zyre_node_recv_beacon`, with libzmq's Z85 form of the key. -/
def hearBeacon (env : Env) (ipaddress : CStr) (frame : Frame) : NodeM Unit :=
  recvBeacon env ipaddress frame (z85Encode ((beaconBytes frame).drop 22))

/-- A node after START: with both CURVE keys, of which `key` is the public one, or with none. -/
structure Mode (key : Option (List UInt8)) (n : Node) : Prop where
  publicKey : n.publicKey = key.map z85Encode
  secretKey : n.secretKey.isSome = key.isSome
  beaconVersion : n.beaconVersion = if key.isSome then beaconVersionV3 else 1

/-- A peer leaves: it is removed if there is an entry for it. -/
def departs (uuid : Uuid) : NodeM Unit := do
  match ← lookupPeer uuid.str with
  | none => pure ()
  | some peer => removePeer peer

/-- Every other node in the same mode requires the node that publishes the beacon at its port, with its
public key, and takes a beacon with port 0 for its departure. -/
def Heeded (m : Node) (key : Option (List UInt8)) : Prop :=
  ∀ (n : Node) (key' : Option (List UInt8)) (env : Env) (ipaddress : CStr), n.uuid ≠ m.uuid →
    Mode z85Encode key' n → key'.isSome = key.isSome →
    (∀ port : UInt16, port ≠ 0 → hearBeacon z85Encode env ipaddress (beaconFrame z85Decode m port) n =
      (do
        let endpoint := CStr.ofChars "tcp://".toList ++ ipaddress ++ CStr.ofChars [':'] ++
          .ofNat port.toNat
        let _ ← requirePeer env m.uuid endpoint (key.map z85Encode) : NodeM Unit) n) ∧
    hearBeacon z85Encode env ipaddress (beaconFrame z85Decode m 0) n = departs m.uuid n

/-- The key is not one the receiver takes for a missing key. -/
def Visible (key : Option (List UInt8)) : Prop := ∀ bs ∈ key, bs.head? ≠ some 0

variable {z85Encode z85Decode} {m n : Node} {key : Option (List UInt8)} {port : UInt16} {env : Env}

/-! ### The bytes of a beacon -/

theorem numberOf_putNumber2 (port : UInt16) : numberOf (putNumber2 port.toNat) = port.toNat := by
  have h := port.toNat_lt
  simp only [putNumber2, numberOf, List.foldl_cons, List.foldl_nil, zero_mul, zero_add,
    Nat.toUInt8_eq, UInt8.toNat_ofNat']
  omega

/-- The part of a beacon before the key. -/
def beaconHead (m : Node) (port : UInt16) : List UInt8 :=
  [90, 82, 69, m.beaconVersion] ++ m.uuid.data ++ putNumber2 port.toNat

theorem length_beaconHead : (beaconHead m port).length = 22 := by
  have huuid : m.uuid.data.length = 16 := m.uuid.size
  simp [beaconHead, putNumber2, huuid]

/-- The beacon as the receiver has it. -/
theorem beaconBytes_beaconFrame (hm : Mode z85Encode key m)
    (hkey : ∀ bs ∈ key, bs.length = 32 ∧ z85Decode (z85Encode bs) = bs) :
    beaconBytes (beaconFrame z85Decode m port) =
      beaconHead m port ++ key.getD (List.replicate 32 0) := by
  have hhead : (beaconHead m port).length = 22 := length_beaconHead
  have hframe : beaconFrame z85Decode m port = (beaconHead m port ++
      (m.publicKey.map z85Decode).getD (List.replicate 32 0)).take
        (if m.beaconVersion = 1 then 22 else 54) := rfl
  have hversion := hm.beaconVersion
  rw [hm.publicKey] at hframe
  cases key with
  | none =>
    have hone : m.beaconVersion = 1 := hversion
    rw [if_pos hone, List.take_left' hhead] at hframe
    rw [hframe, beaconBytes, if_pos (Or.inl hhead), hhead]
    rfl
  | some bs =>
    obtain ⟨hlen, hdecode⟩ := hkey bs rfl
    have hthree : ¬m.beaconVersion = 1 := by
      rw [show m.beaconVersion = 3 from hversion]
      decide
    have hall : (beaconHead m port ++ bs).length = 54 := by
      rw [List.length_append, hhead, hlen]
    simp only [Option.map_some, hdecode, Option.getD_some, if_neg hthree] at hframe
    rw [List.take_of_length_le hall.le] at hframe
    rw [hframe, beaconBytes, if_pos (Or.inr hall), hall]
    simp

theorem beaconUuid_eq {frame : Frame} {ks : List UInt8}
    (h : beaconBytes frame = beaconHead m port ++ ks) : beaconUuid frame = m.uuid := by
  have hdrop : (beaconBytes frame).drop 4 = m.uuid.data ++ (putNumber2 port.toNat ++ ks) := by
    rw [h, beaconHead, List.append_assoc, List.append_assoc]
    rfl
  have hdata : (beaconUuid frame).data = m.uuid.data := by
    show ((beaconBytes frame).drop 4).take zuuidLen = m.uuid.data
    rw [hdrop, List.take_left' m.uuid.size]
  cases hu : beaconUuid frame
  cases hv : m.uuid
  rw [hu, hv] at hdata
  simpa using hdata

theorem beaconPort_eq {ks : List UInt8} :
    numberOf (((beaconHead m port ++ ks).drop 20).take 2) = port.toNat := by
  have huuid : ([90, 82, 69, m.beaconVersion] ++ m.uuid.data).length = 20 := by
    have hsize : m.uuid.data.length = 16 := m.uuid.size
    simp [hsize]
  have htwo : (putNumber2 port.toNat ++ ks).take 2 = putNumber2 port.toNat := rfl
  rw [beaconHead, List.append_assoc, List.drop_left' huuid, htwo, numberOf_putNumber2]

/-- The byte by which the receiver tells whether there is a key. -/
theorem beaconKey_eq {ks : List UInt8} (h : ks ≠ []) :
    (beaconHead m port ++ ks).getD 22 0 = 0 ↔ ks.head? = some 0 := by
  have hget : (beaconHead m port ++ ks).getD 22 0 = ks.getD 0 0 := by
    rw [List.getD_eq_getElem?_getD, List.getElem?_append_right length_beaconHead.le, length_beaconHead,
      List.getD_eq_getElem?_getD]
  obtain ⟨b, bs, rfl⟩ := List.exists_cons_of_ne_nil h
  rw [hget]
  simp

/-! ### Hearing a beacon -/

/-- What another node in the same mode makes of a beacon. -/
theorem hearBeacon_eq {key' : Option (List UInt8)} {ipaddress : CStr} (hm : Mode z85Encode key m)
    (hn : Mode z85Encode key' n) (hmode : key'.isSome = key.isSome)
    (hkey : ∀ bs ∈ key, bs.length = 32 ∧ z85Decode (z85Encode bs) = bs) :
    hearBeacon z85Encode env ipaddress (beaconFrame z85Decode m port) n =
      (if ∃ bs ∈ key, bs.head? = some 0 then pure ()
      else if port ≠ 0 then do
        let endpoint := CStr.ofChars "tcp://".toList ++ ipaddress ++ CStr.ofChars [':'] ++
          .ofNat port.toNat
        let _ ← requirePeer env m.uuid endpoint (key.map z85Encode)
      else departs m.uuid : NodeM Unit) n := by
  set frame := beaconFrame z85Decode m port with hframe
  have hbytes : beaconBytes frame = beaconHead m port ++ key.getD (List.replicate 32 0) :=
    beaconBytes_beaconFrame hm hkey
  have hversion : ¬(beaconBytes frame).getD 3 0 ≠ n.beaconVersion := by
    have hthird : (beaconBytes frame).getD 3 0 = m.beaconVersion := by rw [hbytes]; rfl
    rw [hthird, hm.beaconVersion, hn.beaconVersion, hmode]
    exact not_not_intro rfl
  have hport : numberOf (((beaconBytes frame).drop 20).take 2) = port.toNat := by
    rw [hbytes, beaconPort_eq]
  have hmissing : (n.secretKey.isSome ∧ (beaconBytes frame).getD 22 0 = 0) ↔
      ∃ bs ∈ key, bs.head? = some 0 := by
    rw [hn.secretKey, hmode]
    cases key with
    | none => simp
    | some bs =>
      have hne : bs ≠ [] := List.ne_nil_of_length_pos (by rw [(hkey bs rfl).1]; decide)
      rw [hbytes, Option.getD_some, beaconKey_eq hne]
      simp
  have hencode : (if (beaconBytes frame).getD 3 0 = beaconVersionV3 then
      some (z85Encode ((beaconBytes frame).drop 22)) else none) = key.map z85Encode := by
    rw [not_not.mp hversion, hn.beaconVersion, hmode]
    cases key with
    | none => rfl
    | some bs =>
      rw [hbytes, List.drop_left' length_beaconHead]
      rfl
  have hzero : numberOf (((beaconBytes frame).drop 20).take 2) ≠ 0 ↔ port ≠ 0 := by
    rw [hport, ne_eq, ne_eq, ← UInt16.toNat_inj]
    rfl
  show (if (beaconBytes frame).getD 3 0 ≠ n.beaconVersion then pure ()
    else if n.secretKey.isSome ∧ (beaconBytes frame).getD 22 0 = 0 then pure ()
    else if numberOf (((beaconBytes frame).drop 20).take 2) ≠ 0 then do
      let _ ← requirePeer env (beaconUuid frame) (CStr.ofChars "tcp://".toList ++ ipaddress ++
        CStr.ofChars [':'] ++ .ofNat (numberOf (((beaconBytes frame).drop 20).take 2)))
        (if (beaconBytes frame).getD 3 0 = beaconVersionV3 then
          some (z85Encode ((beaconBytes frame).drop 22)) else none)
    else departs (beaconUuid frame) : NodeM Unit) n = _
  rw [if_neg hversion, if_congr hmissing rfl (if_congr hzero rfl rfl), hencode, hport,
    beaconUuid_eq hbytes]

/-- A node in secure mode that knows no peers. -/
private def listener (uuid : Uuid) (key : CStr) : Node :=
  { Node.new uuid ∅ with publicKey := some key, secretKey := some key, beaconVersion := beaconVersionV3 }

/-- Requiring a peer it does not know changes a node. -/
private theorem requirePeer_ne {uuid : Uuid} {endpoint : CStr} {k : Option CStr}
    (hnew : n.peers.lookup uuid.str = none) (hk : KeyOk env n k) :
    (requirePeer env uuid endpoint k >>= fun _ => pure ⟨⟩ : NodeM Unit) n ≠ .ok ⟨⟩ n := by
  intro h
  have hserial : (requirePeer env uuid endpoint k >>= fun _ => pure ⟨⟩ : NodeM Unit).wp
      (fun _ n' => n'.serial = n.serial + 1) (fun _ _ => True) n := by
    rw [EStateM.wp_bind, wp_requirePeer_of_none hnew hk]
    split_ifs
    · rfl
    · rfl
  have hsame := EStateM.wp_of_ok h hserial
  omega

/-- The beacon of a node whose key begins with a zero byte is not heeded. -/
theorem not_heeded_of_zero {bs : List UInt8} (hm : Mode z85Encode (some bs) m)
    (hlen : bs.length = 32) (hdecode : z85Decode (z85Encode bs) = bs) (hzero : bs.head? = some 0) :
    ¬Heeded z85Encode z85Decode m (some bs) := by
  intro h
  obtain ⟨uuid, huuid⟩ : ∃ uuid : Uuid, uuid ≠ m.uuid := by
    by_cases h0 : sampleUuid 0 = m.uuid
    · refine ⟨sampleUuid 1, fun h1 => ?_⟩
      have hsame : sampleUuid 0 = sampleUuid 1 := h0.trans h1.symm
      revert hsame
      decide
    · exact ⟨sampleUuid 0, h0⟩
  have hn : Mode z85Encode (some bs) (listener uuid (z85Encode bs)) := ⟨rfl, rfl, rfl⟩
  obtain ⟨hrequires, -⟩ := h _ _ (sampleEnv 0) ∅ huuid hn rfl
  have hrequired := hrequires 1 (by decide)
  have hkey : ∀ bs' ∈ some bs, bs'.length = 32 ∧ z85Decode (z85Encode bs') = bs' := by
    rintro _ ⟨⟩
    exact ⟨hlen, hdecode⟩
  rw [hearBeacon_eq hm hn rfl hkey, if_pos ⟨bs, rfl, hzero⟩] at hrequired
  exact requirePeer_ne rfl (fun _ => ⟨z85Encode bs, rfl, rfl⟩) hrequired.symm

/-- **Beacons in secure mode.** The beacon that a node publishes is heeded by every other node in the same
mode if and only if its key does not look like a missing one: `zyre_node_recv_beacon` takes a first byte 0
of the public key for no key at all. The Z85 codec is a parameter, which is assumed to give back the 32
bytes of the key. -/
theorem heeded_iff (m : Node) (key : Option (List UInt8)) (hm : Mode z85Encode key m)
    (hkey : ∀ bs ∈ key, bs.length = 32 ∧ z85Decode (z85Encode bs) = bs) :
    Heeded z85Encode z85Decode m key ↔ Visible key := by
  constructor
  · intro h bs hbs hzero
    obtain rfl := Option.mem_def.mp hbs
    exact not_heeded_of_zero hm (hkey bs rfl).1 (hkey bs rfl).2 hzero h
  · rintro hvisible n key' env ipaddress - hn hmode
    have hnone : ¬∃ bs ∈ key, bs.head? = some 0 := fun ⟨bs, hbs, hzero⟩ => hvisible bs hbs hzero
    refine ⟨fun port hport => ?_, ?_⟩
    · rw [hearBeacon_eq hm hn hmode hkey, if_neg hnone, if_pos hport]
    · rw [hearBeacon_eq hm hn hmode hkey, if_neg hnone, if_neg (not_not_intro rfl)]

/-- `zmq_z85_encode`. -/
def zmqEncode (bs : List UInt8) : CStr := ⟨Z85.encode bs, Z85.zero_notMem_encode bs⟩

/-- `zmq_z85_decode`. -/
def zmqDecode (key : CStr) : List UInt8 := Z85.decode key.bytes

theorem zmqDecode_zmqEncode {bs : List UInt8} (h : bs.length = 32) :
    zmqDecode (zmqEncode bs) = bs :=
  Z85.decode_encode (by rw [h]; decide)

/-- A key whose bytes are all 1. -/
theorem heeded_listener : Heeded zmqEncode zmqDecode
    (listener (sampleUuid 1) (zmqEncode (List.replicate 32 1))) (some (List.replicate 32 1)) := by
  refine (heeded_iff _ _ ⟨rfl, rfl, rfl⟩ ?_).mpr ?_
  · rintro _ ⟨⟩
    exact ⟨List.length_replicate, zmqDecode_zmqEncode List.length_replicate⟩
  · rintro _ ⟨⟩
    decide

/-- A key that begins with a zero byte: no other node requires the peer. -/
theorem not_heeded_of_zeroKey : ¬∀ (encode : List UInt8 → CStr) (decode : CStr → List UInt8),
    (∀ bs, bs.length = 32 → decode (encode bs) = bs) → ∀ (m : Node) (key : Option (List UInt8)),
    Mode encode key m → (∀ bs ∈ key, bs.length = 32) → Heeded encode decode m key := by
  intro h
  have hlen : (0 :: List.replicate 31 1 : List UInt8).length = 32 := by decide
  refine not_heeded_of_zero (m := listener (sampleUuid 1) (zmqEncode (0 :: List.replicate 31 1)))
    ⟨rfl, rfl, rfl⟩ hlen (zmqDecode_zmqEncode hlen) rfl (h zmqEncode zmqDecode
      (fun bs => zmqDecode_zmqEncode) _ _ ⟨rfl, rfl, rfl⟩ ?_)
  rintro _ ⟨⟩
  exact hlen

end Node

end Zyre
