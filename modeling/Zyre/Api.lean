import Zyre.ForMathlib.Multipart
import Zyre.Node.RecvApi

/-!
# The calls of the application and the commands the node reads

Each function of the `zyre` class that concerns the node writes a command on the pipe, frame by frame,
and the node reads one whole multipart message at a time and takes its frames off by position. `Call`
is a call with its arguments, `Call.send` the frames it writes, and `Request.read` what
`zyre_node_recv_api` makes of the frames of one message.

The two sides agree on every sequence of calls if and only if no WHISPER or SHOUT is given a message
without frames: `zmsg_send` writes nothing for it, and the command is not ended.
-/

namespace Zyre

open Multipart

/-! ### Numbers as text -/

namespace CStr

/-- `"%d"` and `"%zd"`. -/
def decimal (i : ℤ) : CStr :=
  ofChars (if i < 0 then '-' :: Nat.toDigits 10 i.natAbs else Nat.toDigits 10 i.natAbs)

/-- The value of the digits at the start. -/
def digitsValue (bs : List UInt8) : ℕ :=
  (bs.takeWhile fun b => 48 ≤ b && b ≤ 57).foldl (fun acc b => 10 * acc + (b.toNat - 48)) 0

/-- The number `atoi` and `atol` read: white space, a sign, digits. -/
def toInt (s : CStr) : ℤ :=
  match s.bytes.dropWhile fun b => b == 32 || (9 ≤ b && b ≤ 13) with
  | 45 :: bs => -digitsValue bs
  | 43 :: bs => digitsValue bs
  | bs => digitsValue bs

theorem digitChar_bounds {c : Char} (h : c.isDigit = true) :
    48 ≤ c.toNat ∧ c.toNat ≤ 57 ∧ c.toUInt8.toNat = c.toNat := by
  simp only [Char.isDigit, Bool.and_eq_true, decide_eq_true_eq] at h
  have h₁ : 48 ≤ c.toNat := h.1
  have h₂ : c.toNat ≤ 57 := h.2
  refine ⟨h₁, h₂, ?_⟩
  have hval : c.toUInt8.toNat = c.toNat % 256 := rfl
  rw [hval, Nat.mod_eq_of_lt (by omega)]

theorem bytes_ofChars_digits {cs : List Char} (h : ∀ c ∈ cs, c.isDigit = true) :
    (ofChars cs).bytes = cs.map Char.toUInt8 := by
  refine List.takeWhile_eq_self_iff.mpr fun b hb => ?_
  obtain ⟨c, hc, rfl⟩ := List.mem_map.mp hb
  obtain ⟨hlow, -, hval⟩ := digitChar_bounds (h c hc)
  have hne : c.toUInt8 ≠ 0 := fun h0 => by rw [h0] at hval; simp at hval; omega
  simpa using hne

theorem digitsValue_map {cs : List Char} (h : ∀ c ∈ cs, c.isDigit = true) :
    digitsValue (cs.map Char.toUInt8) = Nat.ofDigitChars 10 cs 0 := by
  have hall : (cs.map Char.toUInt8).takeWhile (fun b => 48 ≤ b && b ≤ 57) =
      cs.map Char.toUInt8 := by
    refine List.takeWhile_eq_self_iff.mpr fun b hb => ?_
    obtain ⟨c, hc, rfl⟩ := List.mem_map.mp hb
    obtain ⟨hlow, hhigh, hval⟩ := digitChar_bounds (h c hc)
    simp only [Bool.and_eq_true, decide_eq_true_eq, UInt8.le_iff_toNat_le, hval]
    exact ⟨hlow, hhigh⟩
  have hfold : ∀ acc, (cs.map Char.toUInt8).foldl (fun acc b => 10 * acc + (b.toNat - 48)) acc =
      cs.foldl (fun acc c => 10 * acc + (c.toNat - 48)) acc := by
    clear hall
    induction cs with
    | nil => exact fun _ => rfl
    | cons c cs ih =>
      intro acc
      rw [List.map_cons, List.foldl_cons, List.foldl_cons, ih fun d hd => h d (by simp [hd]),
        (digitChar_bounds (h c (by simp))).2.2]
  rw [digitsValue, hall, hfold, Nat.ofDigitChars_eq_foldl]
  rfl

/-- Reading a printed number gives it back. -/
@[simp]
theorem toInt_decimal (i : ℤ) : (decimal i).toInt = i := by
  have hdigits : ∀ n : ℕ, ∀ c ∈ Nat.toDigits 10 n, c.isDigit = true := fun n c hc =>
    Nat.isDigit_of_mem_toDigits (by decide) (by decide) hc
  have hvalue : ∀ n : ℕ, digitsValue ((Nat.toDigits 10 n).map Char.toUInt8) = n := fun n => by
    rw [digitsValue_map (hdigits n), Nat.ofDigitChars_ten_toDigits]
  by_cases hneg : i < 0
  · have hbytes : (decimal i).bytes = 45 :: (Nat.toDigits 10 i.natAbs).map Char.toUInt8 := by
      have h := bytes_ofChars_digits (hdigits i.natAbs)
      simp only [decimal, if_pos hneg, ofChars, ofBytes, List.map_cons] at h ⊢
      rw [List.takeWhile_cons_of_pos (by decide), h]
      rfl
    rw [toInt, hbytes, List.dropWhile_cons_of_neg (by decide)]
    show -(digitsValue _ : ℤ) = i
    rw [hvalue]
    omega
  · rw [toInt, decimal, if_neg hneg, bytes_ofChars_digits (hdigits i.natAbs)]
    obtain ⟨c, cs, hcs⟩ := List.exists_cons_of_ne_nil (Nat.toDigits_ne_nil (n := i.natAbs) (b := 10))
    have hc := hdigits i.natAbs c (by rw [hcs]; simp)
    obtain ⟨hlow, hhigh, hval⟩ := digitChar_bounds hc
    have hv := hvalue i.natAbs
    rw [hcs, List.map_cons] at hv ⊢
    have hspace : ¬(c.toUInt8 == 32 || (9 ≤ c.toUInt8 && c.toUInt8 ≤ 13)) = true := by
      simp only [Bool.or_eq_true, Bool.and_eq_true, decide_eq_true_eq, beq_iff_eq,
        UInt8.le_iff_toNat_le, ← UInt8.toNat_inj, hval]
      simp
      omega
    rw [List.dropWhile_cons_of_neg (p := fun b : UInt8 => b == 32 || (9 ≤ b && b ≤ 13)) hspace]
    have hminus : c.toUInt8 ≠ 45 := fun h => by rw [h] at hval; simp at hval; omega
    have hplus : c.toUInt8 ≠ 43 := fun h => by rw [h] at hval; simp at hval; omega
    split
    · next h => exact absurd (List.cons.inj h).1 hminus
    · next h => exact absurd (List.cons.inj h).1 hplus
    · rw [hv]
      omega

end CStr

/-! ### Commands -/

/-- The first frame of a command. -/
inductive Verb
  | uuid | name | setName | setHeader | setVerbose | setPort | setEphemeralPort
  | setEvasiveTimeout | setSilentTimeout | setExpiredTimeout | setInterval | setContest
  | setAdvertisedEndpoint | setEndpoint | setPublickey | setSecretkey | zapDomain | gossipBind
  | gossipConnect | gossipUnpublish | start | stop | whisper | shout | join | leave | peers
  | requirePeer | groupPeers | peerEndpoint | peerName | peerHeader | peerGroups | ownGroups | dump
deriving DecidableEq

namespace Verb

/-- The text of the command. -/
def text : Verb → CStr
  | uuid => .ofChars "UUID".toList
  | name => .ofChars "NAME".toList
  | setName => .ofChars "SET NAME".toList
  | setHeader => .ofChars "SET HEADER".toList
  | setVerbose => .ofChars "SET VERBOSE".toList
  | setPort => .ofChars "SET PORT".toList
  | setEphemeralPort => .ofChars "SET EPHEMERAL PORT".toList
  | setEvasiveTimeout => .ofChars "SET EVASIVE TIMEOUT".toList
  | setSilentTimeout => .ofChars "SET SILENT TIMEOUT".toList
  | setExpiredTimeout => .ofChars "SET EXPIRED TIMEOUT".toList
  | setInterval => .ofChars "SET INTERVAL".toList
  | setContest => .ofChars "SET CONTEST".toList
  | setAdvertisedEndpoint => .ofChars "SET ADVERTISED ENDPOINT".toList
  | setEndpoint => .ofChars "SET ENDPOINT".toList
  | setPublickey => .ofChars "SET PUBLICKEY".toList
  | setSecretkey => .ofChars "SET SECRETKEY".toList
  | zapDomain => .ofChars "ZAP DOMAIN".toList
  | gossipBind => .ofChars "GOSSIP BIND".toList
  | gossipConnect => .ofChars "GOSSIP CONNECT".toList
  | gossipUnpublish => .ofChars "GOSSIP UNPUBLISH".toList
  | start => .ofChars "START".toList
  | stop => .ofChars "STOP".toList
  | whisper => .ofChars "WHISPER".toList
  | shout => .ofChars "SHOUT".toList
  | join => .ofChars "JOIN".toList
  | leave => .ofChars "LEAVE".toList
  | peers => .ofChars "PEERS".toList
  | requirePeer => .ofChars "REQUIRE PEER".toList
  | groupPeers => .ofChars "GROUP PEERS".toList
  | peerEndpoint => .ofChars "PEER ENDPOINT".toList
  | peerName => .ofChars "PEER NAME".toList
  | peerHeader => .ofChars "PEER HEADER".toList
  | peerGroups => .ofChars "PEER GROUPS".toList
  | ownGroups => .ofChars "OWN GROUPS".toList
  | dump => .ofChars "DUMP".toList

/-- The commands in the order `zyre_node_recv_api` compares them. -/
def all : List Verb :=
  [uuid, name, setName, setHeader, setVerbose, setPort, setEphemeralPort, setEvasiveTimeout,
    setSilentTimeout, setExpiredTimeout, setInterval, setContest, setAdvertisedEndpoint,
    setEndpoint, setPublickey, setSecretkey, zapDomain, gossipBind, gossipConnect,
    gossipUnpublish, start, stop, whisper, shout, join, leave, peers, requirePeer, groupPeers,
    peerEndpoint, peerName, peerHeader, peerGroups, ownGroups, dump]

/-- The chain of `streq` over the command. -/
def parse (command : CStr) : Option Verb := all.find? fun v => decide (command = v.text)

theorem parse_text (v : Verb) : parse v.text = some v := by
  cases v <;> decide

end Verb

/-- A command as the node understands it. A string stays the text it was sent as, a number is what
`atoi` or `atol` makes of its text. -/
inductive Request
  | uuid
  | name
  | setName (name : CStr)
  | setHeader (name value : CStr)
  | setVerbose
  | setPort (value : Int32)
  | setEphemeralPort (port : CStr)
  | setEvasiveTimeout (value : Int32)
  | setSilentTimeout (value : Int32)
  | setExpiredTimeout (value : Int32)
  | setInterval (value : UInt64)
  | setContest (group : CStr)
  | setAdvertisedEndpoint (endpoint : CStr)
  | setEndpoint (endpoint : CStr)
  | setPublickey (key : CStr)
  | setSecretkey (key : CStr)
  | zapDomain (domain : CStr)
  | gossipBind (endpoint : CStr)
  | gossipConnect (endpoint : CStr) (publicKey : Option CStr)
  | gossipUnpublish (node : CStr)
  | start
  | stop
  | whisper (identity : CStr) (content : List Frame)
  | shout (group : CStr) (content : List Frame)
  | join (group : CStr)
  | leave (group : CStr)
  | peers
  | requirePeer (uuid endpoint publicKey : CStr)
  | groupPeers (group : CStr)
  | peerEndpoint (identity : CStr)
  | peerName (identity : CStr)
  | peerHeader (identity key : CStr)
  | peerGroups
  | ownGroups
  | dump
deriving DecidableEq

namespace Request

/-- How `zyre_node_recv_api` takes the frames of a command off the message; `none` where it would use
a frame that is not there, or does not know the command. -/
def read : List Frame → Option Request
  | [] => none
  | command :: frames =>
    let popstr (i : ℕ) : Option CStr := frames[i]?.map .ofBytes
    let popint (i : ℕ) : Option Int32 := (popstr i).map fun s => .ofInt s.toInt
    match Verb.parse (.ofBytes command) with
    | none => none
    | some .uuid => some uuid
    | some .name => some name
    | some .setName => (popstr 0).map setName
    | some .setHeader => (popstr 0).bind fun name => (popstr 1).map (setHeader name)
    | some .setVerbose => some setVerbose
    | some .setPort => (popint 0).map setPort
    | some .setEphemeralPort => (popstr 0).map setEphemeralPort
    | some .setEvasiveTimeout => (popint 0).map setEvasiveTimeout
    | some .setSilentTimeout => (popint 0).map setSilentTimeout
    | some .setExpiredTimeout => (popint 0).map setExpiredTimeout
    | some .setInterval => (popstr 0).map fun s => setInterval (Int64.ofInt s.toInt).toUInt64
    | some .setContest => (popstr 0).map setContest
    | some .setAdvertisedEndpoint => (popstr 0).map setAdvertisedEndpoint
    | some .setEndpoint => (popstr 0).map setEndpoint
    | some .setPublickey => (popstr 0).map setPublickey
    | some .setSecretkey => (popstr 0).map setSecretkey
    | some .zapDomain => (popstr 0).map zapDomain
    | some .gossipBind => (popstr 0).map gossipBind
    | some .gossipConnect => (popstr 0).map fun endpoint => gossipConnect endpoint (popstr 1)
    | some .gossipUnpublish => (popstr 0).map gossipUnpublish
    | some .start => some start
    | some .stop => some stop
    | some .whisper => (popstr 0).map fun identity => whisper identity (frames.drop 1)
    | some .shout => (popstr 0).map fun group => shout group (frames.drop 1)
    | some .join => (popstr 0).map join
    | some .leave => (popstr 0).map leave
    | some .peers => some peers
    | some .requirePeer => (popstr 0).bind fun uuid => (popstr 1).bind fun endpoint =>
        (popstr 2).map (requirePeer uuid endpoint)
    | some .groupPeers => (popstr 0).map groupPeers
    | some .peerEndpoint => (popstr 0).map peerEndpoint
    | some .peerName => (popstr 0).map peerName
    | some .peerHeader => (popstr 0).bind fun identity => (popstr 1).map (peerHeader identity)
    | some .peerGroups => some peerGroups
    | some .ownGroups => some ownGroups
    | some .dump => some dump

/-- What the application writes before the last of the calls that write a command. -/
def head : Request → List Frame
  | .setName _ => [Verb.setName.text.bytes]
  | .setHeader key _ => [Verb.setHeader.text.bytes, key.bytes]
  | .setVerbose => [Verb.setVerbose.text.bytes]
  | .setPort _ => [Verb.setPort.text.bytes]
  | .setEphemeralPort _ => [Verb.setEphemeralPort.text.bytes]
  | .setEvasiveTimeout _ => [Verb.setEvasiveTimeout.text.bytes]
  | .setSilentTimeout _ => [Verb.setSilentTimeout.text.bytes]
  | .setExpiredTimeout _ => [Verb.setExpiredTimeout.text.bytes]
  | .setInterval _ => [Verb.setInterval.text.bytes]
  | .setContest _ => [Verb.setContest.text.bytes]
  | .setAdvertisedEndpoint _ => [Verb.setAdvertisedEndpoint.text.bytes]
  | .setEndpoint _ => [Verb.setEndpoint.text.bytes]
  | .setPublickey _ => [Verb.setPublickey.text.bytes]
  | .setSecretkey _ => [Verb.setSecretkey.text.bytes]
  | .zapDomain _ => [Verb.zapDomain.text.bytes]
  | .gossipBind _ => [Verb.gossipBind.text.bytes]
  | .gossipConnect _ none => [Verb.gossipConnect.text.bytes]
  | .gossipConnect endpoint (some _) => [Verb.gossipConnect.text.bytes, endpoint.bytes]
  | .gossipUnpublish _ => [Verb.gossipUnpublish.text.bytes]
  | .whisper identity _ => [Verb.whisper.text.bytes, identity.bytes]
  | .shout group _ => [Verb.shout.text.bytes, group.bytes]
  | .join _ => [Verb.join.text.bytes]
  | .leave _ => [Verb.leave.text.bytes]
  | .requirePeer peer endpoint _ => [Verb.requirePeer.text.bytes, peer.bytes, endpoint.bytes]
  | .groupPeers _ => [Verb.groupPeers.text.bytes]
  | .peerEndpoint _ => [Verb.peerEndpoint.text.bytes]
  | .peerName _ => [Verb.peerName.text.bytes]
  | .peerHeader identity _ => [Verb.peerHeader.text.bytes, identity.bytes]
  | .uuid | .name | .start | .stop | .peers | .peerGroups | .ownGroups | .dump => []

/-- What the last of the calls that write a command writes. -/
def body : Request → List Frame
  | .uuid => [Verb.uuid.text.bytes]
  | .name => [Verb.name.text.bytes]
  | .setName text => [text.bytes]
  | .setHeader _ value => [value.bytes]
  | .setVerbose => [(CStr.ofChars ['1']).bytes]
  | .setPort value | .setEvasiveTimeout value | .setSilentTimeout value | .setExpiredTimeout value =>
    [(CStr.decimal value.toInt).bytes]
  | .setEphemeralPort port => [port.bytes]
  | .setInterval value => [(CStr.decimal value.toInt64.toInt).bytes]
  | .setContest text | .setAdvertisedEndpoint text | .setEndpoint text | .setPublickey text
  | .setSecretkey text | .zapDomain text | .gossipBind text | .gossipUnpublish text | .join text
  | .leave text | .groupPeers text | .peerEndpoint text | .peerName text => [text.bytes]
  | .gossipConnect endpoint none => [endpoint.bytes]
  | .gossipConnect _ (some publicKey) => [publicKey.bytes]
  | .whisper _ content | .shout _ content => content
  | .requirePeer _ _ publicKey => [publicKey.bytes]
  | .peerHeader _ key => [key.bytes]
  | .start => [Verb.start.text.bytes]
  | .stop => [Verb.stop.text.bytes]
  | .peers => [Verb.peers.text.bytes]
  | .peerGroups => [Verb.peerGroups.text.bytes]
  | .ownGroups => [Verb.ownGroups.text.bytes]
  | .dump => [Verb.dump.text.bytes]

/-- The node reads off the frames of a command what the application wrote. -/
theorem read_frames (r : Request) : read (r.head ++ r.body) = some r := by
  cases r
  case gossipConnect endpoint publicKey =>
    cases publicKey <;> simp [read, head, body, Verb.parse_text]
  all_goals simp [read, head, body, Verb.parse_text]

end Request

/-! ### Calls -/

/-- `zstr_sendx`. -/
def zstrSendx (strings : List CStr) : List (Frame × Bool) := mark (strings.map CStr.bytes)

/-- `zstr_sendm`. -/
def zstrSendm (s : CStr) : List (Frame × Bool) := more [s.bytes]

/-- `zstr_send`. -/
def zstrSend (s : CStr) : List (Frame × Bool) := mark [s.bytes]

/-- `zmsg_send`, which writes nothing for a message without frames. -/
def zmsgSend (frames : List Frame) : List (Frame × Bool) := mark frames

/-- A call of the `zyre` class on one handle, with its arguments. A format and its values are given as
the text `zsys_vprintf` makes of them. -/
inductive Call
  | uuid
  | name
  | setName (name : CStr)
  | setHeader (name value : CStr)
  | setVerbose
  | setPort (port : Int32)
  | setBeaconPeerPort (port : Int32)
  | setEvasiveTimeout (interval : Int32)
  | setSilentTimeout (interval : Int32)
  | setExpiredTimeout (interval : Int32)
  | setInterval (interval : UInt64)
  | setInterface (value : CStr)
  | setEndpoint (endpoint : CStr)
  | setContestInGroup (group : CStr)
  | setAdvertisedEndpoint (endpoint : CStr)
  | setZcert (publicTxt secretTxt : CStr)
  | setZapDomain (domain : CStr)
  | requirePeer (uuid endpoint publicKey : CStr)
  | gossipBind (endpoint : CStr)
  | gossipConnect (endpoint : CStr)
  | gossipConnectCurve (publicKey endpoint : CStr)
  | gossipUnpublish (node : CStr)
  | start
  | stop
  | join (group : CStr)
  | leave (group : CStr)
  | whisper (peer : CStr) (msg : List Frame)
  | shout (group : CStr) (msg : List Frame)
  | whispers (peer string : CStr)
  | shouts (group string : CStr)
  | peers
  | peersByGroup (group : CStr)
  | peerAddress (peer : CStr)
  | peerHeaderValue (peer name : CStr)
  | ownGroups
  | peerGroups
  | print

namespace Call

/-- The frames the call writes on the pipe. -/
def send : Call → List (Frame × Bool)
  | .uuid => zstrSendx [Verb.uuid.text]
  | .name => zstrSendx [Verb.name.text]
  | .setName text => zstrSendx [Verb.setName.text, text]
  | .setHeader key value => zstrSendx [Verb.setHeader.text, key, value]
  | .setVerbose => zstrSendx [Verb.setVerbose.text, .ofChars ['1']]
  | .setPort port => zstrSendm Verb.setPort.text ++ zstrSend (.decimal port.toInt)
  | .setBeaconPeerPort port =>
    zstrSendm Verb.setEphemeralPort.text ++ zstrSend (.decimal port.toInt)
  | .setEvasiveTimeout interval =>
    zstrSendm Verb.setEvasiveTimeout.text ++ zstrSend (.decimal interval.toInt)
  | .setSilentTimeout interval =>
    zstrSendm Verb.setSilentTimeout.text ++ zstrSend (.decimal interval.toInt)
  | .setExpiredTimeout interval =>
    zstrSendm Verb.setExpiredTimeout.text ++ zstrSend (.decimal interval.toInt)
  | .setInterval interval =>
    zstrSendm Verb.setInterval.text ++ zstrSend (.decimal interval.toInt64.toInt)
  | .setInterface _ => []
  | .setEndpoint endpoint => zstrSendx [Verb.setEndpoint.text, endpoint]
  | .setContestInGroup group => zstrSendx [Verb.setContest.text, group]
  | .setAdvertisedEndpoint endpoint => zstrSendx [Verb.setAdvertisedEndpoint.text, endpoint]
  | .setZcert publicTxt secretTxt =>
    zstrSendx [Verb.setPublickey.text, publicTxt] ++ zstrSendx [Verb.setSecretkey.text, secretTxt]
  | .setZapDomain domain => zstrSendx [Verb.zapDomain.text, domain]
  | .requirePeer peer endpoint publicKey =>
    zstrSendx [Verb.requirePeer.text, peer, endpoint, publicKey]
  | .gossipBind endpoint => zstrSendx [Verb.gossipBind.text, endpoint]
  | .gossipConnect endpoint => zstrSendx [Verb.gossipConnect.text, endpoint]
  | .gossipConnectCurve publicKey endpoint =>
    zstrSendx [Verb.gossipConnect.text, endpoint, publicKey]
  | .gossipUnpublish node => zstrSendx [Verb.gossipUnpublish.text, node]
  | .start => zstrSendx [Verb.start.text]
  | .stop => zstrSendx [Verb.stop.text]
  | .join group => zstrSendx [Verb.join.text, group]
  | .leave group => zstrSendx [Verb.leave.text, group]
  | .whisper peer msg => zstrSendm Verb.whisper.text ++ zstrSendm peer ++ zmsgSend msg
  | .shout group msg => zstrSendm Verb.shout.text ++ zstrSendm group ++ zmsgSend msg
  | .whispers peer string => zstrSendm Verb.whisper.text ++ zstrSendm peer ++ zstrSend string
  | .shouts group string => zstrSendm Verb.shout.text ++ zstrSendm group ++ zstrSend string
  | .peers => zstrSend Verb.peers.text
  | .peersByGroup group => zstrSendm Verb.groupPeers.text ++ zstrSend group
  | .peerAddress peer => zstrSendm Verb.peerEndpoint.text ++ zstrSend peer
  | .peerHeaderValue peer key =>
    zstrSendm Verb.peerHeader.text ++ zstrSendm peer ++ zstrSend key
  | .ownGroups => zstrSend Verb.ownGroups.text
  | .peerGroups => zstrSend Verb.peerGroups.text
  | .print => zstrSend Verb.dump.text

/-- The commands the call stands for. It is one, except that the interface is set without the node,
and that a certificate is handed over in two. -/
def requests : Call → List Request
  | .uuid => [.uuid]
  | .name => [.name]
  | .setName text => [.setName text]
  | .setHeader key value => [.setHeader key value]
  | .setVerbose => [.setVerbose]
  | .setPort port => [.setPort port]
  | .setBeaconPeerPort port => [.setEphemeralPort (.decimal port.toInt)]
  | .setEvasiveTimeout interval => [.setEvasiveTimeout interval]
  | .setSilentTimeout interval => [.setSilentTimeout interval]
  | .setExpiredTimeout interval => [.setExpiredTimeout interval]
  | .setInterval interval => [.setInterval interval]
  | .setInterface _ => []
  | .setEndpoint endpoint => [.setEndpoint endpoint]
  | .setContestInGroup group => [.setContest group]
  | .setAdvertisedEndpoint endpoint => [.setAdvertisedEndpoint endpoint]
  | .setZcert publicTxt secretTxt => [.setPublickey publicTxt, .setSecretkey secretTxt]
  | .setZapDomain domain => [.zapDomain domain]
  | .requirePeer peer endpoint publicKey => [.requirePeer peer endpoint publicKey]
  | .gossipBind endpoint => [.gossipBind endpoint]
  | .gossipConnect endpoint => [.gossipConnect endpoint none]
  | .gossipConnectCurve publicKey endpoint => [.gossipConnect endpoint (some publicKey)]
  | .gossipUnpublish node => [.gossipUnpublish node]
  | .start => [.start]
  | .stop => [.stop]
  | .join group => [.join group]
  | .leave group => [.leave group]
  | .whisper peer msg => [.whisper peer msg]
  | .shout group msg => [.shout group msg]
  | .whispers peer string => [.whisper peer [string.bytes]]
  | .shouts group string => [.shout group [string.bytes]]
  | .peers => [.peers]
  | .peersByGroup group => [.groupPeers group]
  | .peerAddress peer => [.peerEndpoint peer]
  | .peerHeaderValue peer key => [.peerHeader peer key]
  | .ownGroups => [.ownGroups]
  | .peerGroups => [.peerGroups]
  | .print => [.dump]

/-- The message the call hands over, for the two that take one. -/
def message : Call → Option (List Frame)
  | .whisper _ msg | .shout _ msg => some msg
  | _ => none

theorem send_eq (c : Call) :
    c.send = c.requests.flatMap fun r => more r.head ++ mark r.body := by
  cases c <;> simp [send, requests, zstrSendx, zstrSendm, zstrSend, zmsgSend, more, mark,
    Request.head, Request.body]

theorem body_ne_nil_iff (c : Call) : (∀ r ∈ c.requests, r.body ≠ []) ↔ c.message ≠ some [] := by
  cases c <;> simp [requests, Request.body, message]

end Call

/-- What the node reads from its pipe once the calls have been made. -/
def received (calls : List Call) : List (Option Request) :=
  (messages (calls.flatMap Call.send)).map Request.read

/-- **The pipe.** The node reads exactly the commands of the calls, in their order and with their arguments,
if and only if no WHISPER or SHOUT is given a message without frames. Such a message leaves the command on
the pipe unfinished, and the frames of the next call are read as its content. -/
theorem received_iff (calls : List Call) :
    received calls = (calls.flatMap Call.requests).map some ↔
      ∀ c ∈ calls, c.message ≠ some [] := by
  have hsend : calls.flatMap Call.send =
      (calls.flatMap Call.requests).flatMap fun r => more r.head ++ mark r.body := by
    rw [List.flatMap_assoc]
    exact List.flatMap_congr fun c _ => c.send_eq
  rw [received, hsend, map_messages_iff Request.read_frames]
  simp only [List.forall_mem_flatMap, Call.body_ne_nil_iff]

/-- A WHISPER without frames and the JOIN after it are read as one WHISPER. -/
theorem not_received_of_empty :
    ¬∀ calls, received calls = (calls.flatMap Call.requests).map some := by
  intro h
  have hread := h [.whisper (.ofChars ['p']) [], .join (.ofChars ['g'])]
  revert hread
  decide

end Zyre
