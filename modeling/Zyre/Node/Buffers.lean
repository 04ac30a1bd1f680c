import Zyre.Node.Rejection

/-!
# Fixed buffers

`zyre_peer_connect` and `zyre_node_require_peer` put strings together in buffers of `NI_MAXHOST` bytes.
Here each write is recorded with the room it takes. `inBounds_iff` says for every call, whatever it comes
from, when the writes stay within the buffers: HELLO and beacons bound the endpoint, gossip and REQUIRE
PEER do not, and the interface is added on top of it.
-/

namespace Zyre

/-- `NI_MAXHOST`. -/
def niMaxhost : ℕ := 1025

/-- A buffer: the string in it, and the bytes that each string took that was left in it by a write, the
terminator included. -/
structure Buffer where
  content : CStr
  sizes : List ℕ

namespace Buffer

/-- `= {0}`. -/
def zeroed : Buffer := ⟨∅, []⟩

/-- A write after which the buffer holds `s`. -/
def put (b : Buffer) (s : CStr) : Buffer := ⟨s, b.sizes ++ [s.length + 1]⟩

/-- `strcat`. -/
def strcat (b : Buffer) (s : CStr) : Buffer := b.put (b.content ++ s)

@[simp]
theorem strcat_content (b : Buffer) (s : CStr) : (b.strcat s).content = b.content ++ s := rfl

/-- Every write has stayed within `NI_MAXHOST` bytes. -/
def Within (b : Buffer) : Prop := ∀ size ∈ b.sizes, size ≤ niMaxhost

variable {b : Buffer} {s t : CStr}

theorem length_append : (s ++ t).length = s.length + t.length := List.length_append

theorem within_zeroed : zeroed.Within := List.forall_mem_nil _

theorem within_put : (b.put s).Within ↔ b.Within ∧ s.length < niMaxhost := by
  rw [Within, put, List.forall_mem_append, List.forall_mem_singleton]
  rfl

/-- What is written to the end is within if it is within in the end. -/
theorem within_strcat : (b.strcat s).Within ↔ b.Within ∧ b.content.length + s.length < niMaxhost := by
  rw [strcat, within_put, length_append]

end Buffer

/-- `endpoint_iface` in `zyre_peer_connect`. -/
def Env.connectBuffer (env : Env) (endpoint : CStr) : Buffer :=
  if env.ipv6 ∧ env.interface ≠ ∅ ∧ env.interface ≠ CStr.ofChars ['*'] then
    match linkLocal? endpoint with
    | some (hostname, port) =>
      ((((Buffer.zeroed.strcat (CStr.ofChars "tcp://".toList)).strcat (CStr.ofBytes hostname)).strcat
        (CStr.ofChars ['%'])).strcat env.interface).strcat (CStr.ofBytes port)
    | none => Buffer.zeroed.strcat endpoint
  else Buffer.zeroed.strcat endpoint

/-- `endpoint_iface` in `zyre_node_require_peer`, which is written only if the node's own endpoint has an
interface to leave out. -/
def Node.helloBuffer (env : Env) (n : Node) : Buffer :=
  if env.ipv6 ∧ 37 ∈ n.endpoint.bytes then (Buffer.zeroed.strcat n.endpoint).put (stripIface n.endpoint)
  else Buffer.zeroed

/-! ### What the buffers hold -/

variable {env : Env} {endpoint : CStr} {hostname port : List UInt8}

/-- The two groups are what lies between the scheme and the port, and the port. -/
theorem bytes_of_linkLocal (h : linkLocal? endpoint = some (hostname, port)) :
    endpoint.bytes = (CStr.ofChars "tcp://".toList).bytes ++ hostname ++ port := by
  unfold linkLocal? at h
  simp only at h
  split_ifs at h with hmatch
  obtain ⟨-, hcolon, ⟨hostname', hscheme⟩, -⟩ := hmatch
  obtain ⟨rfl, rfl⟩ := Prod.mk.inj (Option.some_inj.mp h)
  set back := endpoint.bytes.reverse with hback
  -- Read backwards, the endpoint is the digits, a colon, and the rest.
  have hdrop : back.dropWhile isDigit = 58 :: (back.dropWhile isDigit).drop 1 := by
    cases hd : back.dropWhile isDigit with
    | nil => simp [hd] at hcolon
    | cons b rest =>
      rw [hd] at hcolon
      obtain rfl := Option.some_inj.mp hcolon
      rfl
  have hsplit : back = back.takeWhile isDigit ++ 58 :: (back.dropWhile isDigit).drop 1 := by
    rw [← hdrop, List.takeWhile_append_dropWhile]
  have hfront : endpoint.bytes =
      ((back.dropWhile isDigit).drop 1).reverse ++ 58 :: (back.takeWhile isDigit).reverse := by
    have hreverse := congrArg List.reverse hsplit
    rw [hback, List.reverse_reverse] at hreverse
    rw [hreverse, ← hback]
    simp
  rw [hfront, ← hscheme, List.drop_left]

theorem ofBytes_of_notMem {bs : List UInt8} (h : 0 ∉ bs) : (CStr.ofBytes bs).bytes = bs :=
  congrArg CStr.bytes (CStr.ofBytes_bytes ⟨bs, h⟩)

theorem notMem_of_linkLocal (h : linkLocal? endpoint = some (hostname, port)) :
    0 ∉ hostname ∧ 0 ∉ port := by
  have hnul := endpoint.noNul
  rw [bytes_of_linkLocal h, List.mem_append, List.mem_append] at hnul
  exact ⟨fun hmem => hnul (Or.inl (Or.inr hmem)), fun hmem => hnul (Or.inr hmem)⟩

/-- What `zyre_peer_connect` connects to is what it has put together. -/
theorem connectBuffer_content : (env.connectBuffer endpoint).content = env.endpointIface endpoint := by
  rw [Env.connectBuffer, Env.endpointIface]
  split_ifs with hiface
  · cases hmatch : linkLocal? endpoint with
    | none => exact CStr.ext rfl
    | some groups =>
      obtain ⟨hostname, port⟩ := groups
      obtain ⟨hhostname, hport⟩ := notMem_of_linkLocal hmatch
      have hnul : 0 ∉ (CStr.ofChars "tcp://".toList).bytes ++ hostname ++ [37] ++ env.interface.bytes ++
          port := by
        have hinterface := env.interface.noNul
        have hscheme := (CStr.ofChars "tcp://".toList).noNul
        simp only [List.mem_append, List.mem_singleton]
        rintro ((((h | h) | h) | h) | h)
        · exact hscheme h
        · exact hhostname h
        · cases h
        · exact hinterface h
        · exact hport h
      refine CStr.ext ?_
      change ((((([] ++ (CStr.ofChars "tcp://".toList).bytes) ++ (CStr.ofBytes hostname).bytes) ++ [37]) ++
        env.interface.bytes) ++ (CStr.ofBytes port).bytes) = _
      rw [ofBytes_of_notMem hhostname, ofBytes_of_notMem hport, ofBytes_of_notMem hnul, List.nil_append]
  · exact CStr.ext rfl

/-- The interface is put into the endpoint. -/
def Env.inserts (env : Env) (endpoint : CStr) : Prop :=
  (env.ipv6 ∧ env.interface ≠ ∅ ∧ env.interface ≠ CStr.ofChars ['*']) ∧ (linkLocal? endpoint).isSome

instance (endpoint : CStr) : Decidable (env.inserts endpoint) := inferInstanceAs (Decidable (_ ∧ _))

/-- The writes of `zyre_peer_connect` stay within its buffer if the endpoint does, with the interface and
its percent sign where they are put in. -/
theorem within_connectBuffer : (env.connectBuffer endpoint).Within ↔
    endpoint.length + (if env.inserts endpoint then 1 + env.interface.length else 0) < niMaxhost := by
  have hplain : (Buffer.zeroed.strcat endpoint).Within ↔ endpoint.length + 0 < niMaxhost := by
    rw [Buffer.within_strcat, and_iff_right Buffer.within_zeroed, add_zero]
    exact iff_of_eq (congrArg (· < niMaxhost) (Nat.zero_add _))
  rw [Env.connectBuffer]
  by_cases hiface : env.ipv6 ∧ env.interface ≠ ∅ ∧ env.interface ≠ CStr.ofChars ['*']
  · rw [if_pos hiface]
    cases hmatch : linkLocal? endpoint with
    | none =>
      have hnot : ¬env.inserts endpoint := by
        rintro ⟨-, hsome⟩
        rw [hmatch] at hsome
        cases hsome
      rw [if_neg hnot]
      exact hplain
    | some groups =>
      obtain ⟨hostname, port⟩ := groups
      obtain ⟨hhostname, hport⟩ := notMem_of_linkLocal hmatch
      have hinserts : env.inserts endpoint := ⟨hiface, by rw [hmatch]; rfl⟩
      have hlength : endpoint.length = 6 + hostname.length + port.length := by
        rw [CStr.length, bytes_of_linkLocal hmatch, List.length_append, List.length_append]
        rfl
      have hhostnameLength : (CStr.ofBytes hostname).length = hostname.length :=
        congrArg List.length (ofBytes_of_notMem hhostname)
      have hportLength : (CStr.ofBytes port).length = port.length :=
        congrArg List.length (ofBytes_of_notMem hport)
      rw [if_pos hinserts]
      have hscheme : (CStr.ofChars "tcp://".toList).length = 6 := by decide
      have hpercent : (CStr.ofChars ['%']).length = 1 := by decide
      have hzero : Buffer.zeroed.content.length = 0 := rfl
      simp only [Buffer.within_strcat, Buffer.strcat_content, Buffer.length_append, hhostnameLength,
        hportLength, hlength, hscheme, hpercent, hzero, Buffer.within_zeroed, true_and]
      omega
  · have hnot : ¬env.inserts endpoint := fun h => hiface h.1
    rw [if_neg hiface, if_neg hnot]
    exact hplain

/-- The bytes before the interface of an endpoint. -/
def beforeIface (endpoint : CStr) : ℕ := (endpoint.bytes.takeWhile (· != 37)).length

/-- The bytes behind its last colon. -/
def behindColon (endpoint : CStr) : ℕ := (endpoint.bytes.reverse.takeWhile (· != 58)).length

theorem length_stripIface : (stripIface endpoint).length = beforeIface endpoint + 1 + behindColon endpoint := by
  have hnul : 0 ∉ endpoint.bytes.takeWhile (· != 37) ++
      58 :: (endpoint.bytes.reverse.takeWhile (· != 58)).reverse := by
    intro h
    rcases List.mem_append.mp h with h | h
    · exact endpoint.noNul ((List.takeWhile_prefix _).subset h)
    · rcases List.mem_cons.mp h with h | h
      · cases h
      · have hmem := (List.takeWhile_prefix _).subset (List.mem_reverse.mp h)
        exact endpoint.noNul (List.mem_reverse.mp hmem)
  rw [CStr.length, stripIface, ofBytes_of_notMem hnul, List.length_append, List.length_cons,
    List.length_reverse, beforeIface, behindColon]
  omega

namespace Node

variable {n n₁ : Node} {input : Input} {uuid : Uuid} {key : Option CStr} {msg : Msg}

/-- HELLO says what is left in the buffer, if the node's own endpoint has an interface. -/
theorem helloBuffer_content (h : env.ipv6 ∧ 37 ∈ n.endpoint.bytes) :
    (helloMsg env n).endpoint = (helloBuffer env n).content.truncate Msg.fieldSize := by
  rw [helloBuffer, if_pos h, helloMsg]
  simp only [if_pos h]
  rfl

theorem within_helloBuffer : (helloBuffer env n).Within ↔
    (env.ipv6 ∧ 37 ∈ n.endpoint.bytes → n.endpoint.length < niMaxhost ∧
      beforeIface n.endpoint + 1 + behindColon n.endpoint < niMaxhost) := by
  rw [helloBuffer]
  split_ifs with hiface
  · rw [Buffer.within_put, Buffer.within_strcat, and_iff_right Buffer.within_zeroed, length_stripIface]
    have hzero : Buffer.zeroed.content.length + n.endpoint.length = n.endpoint.length := Nat.zero_add _
    rw [hzero]
    exact ⟨fun h _ => h, fun h => h hiface⟩
  · exact iff_of_true Buffer.within_zeroed fun h => absurd h hiface

/-! ### The calls -/

/-- `key` is what the HELLO branch hands on: nothing, or in secure mode the key in the headers. -/
def Hands (n : Node) (msg : Msg) (key : Option CStr) : Prop :=
  if n.secretKey.isSome then ∃ headers k, msg.headers = some headers ∧
    headers.lookup xPublickey = some k ∧ k ≠ ∅ ∧ key = some k
  else key = none

/-- The input makes `zyre_node_require_peer` run in the state `n₁`. -/
inductive Calls (env : Env) (n : Node) (input : Input) (uuid : Uuid) :
    CStr → Option CStr → Node → Prop
  | asks (endpoint : CStr) (key : Option CStr) (h : Asks n input uuid endpoint key) :
    Calls env n input uuid endpoint key n
  | hello (msg : Msg) (key : Option CStr) (hinput : Hello input uuid msg)
    (hready : ∀ p, n.peers.lookup uuid.str = some p → p.ready = false)
    (hown : ¬n.OnOwnEndpoint uuid.str) (hkey : Hands n msg key) :
    Calls env n input uuid msg.endpoint key n
  | renewed (msg : Msg) (key : Option CStr) (p : Peer) (n₁ : Node) (hinput : Hello input uuid msg)
    (hp : n.peers.lookup uuid.str = some p) (hready : p.ready = true)
    (hremove : removePeer ⟨uuid.str, p.serial⟩ n = .ok ⟨⟩ n₁) (hkey : Hands n₁ msg key) :
    Calls env n input uuid msg.endpoint key n₁

theorem helloRequire_of_hands (h : Hands n msg key) :
    helloRequire env uuid msg n = requirePeer env uuid msg.endpoint key n := by
  refine (EStateM.bind_of_ok (x := get) rfl).trans ?_
  rw [Hands] at h
  cases hsecret : n.secretKey with
  | none =>
    rw [hsecret, if_neg (by simp)] at h
    rw [h]
  | some secret =>
    rw [hsecret, if_pos Option.isSome_some] at h
    obtain ⟨headers, k, hheaders, hk, hne, rfl⟩ := h
    simp only [hheaders, hk, decide_eq_true hne]
    rfl

/-- The gate lets a sender pass that is not on the node's own endpoint. -/
theorem helloGate_of_not_ready (hready : ∀ p, n.peers.lookup uuid.str = some p → p.ready = false)
    (hown : ¬n.OnOwnEndpoint uuid.str) : helloGate env uuid msg n = helloAdmit env uuid msg n := by
  rw [helloGate]
  refine (EStateM.bind_of_ok lookupPeer_eq).trans ?_
  cases hlook : n.peers.lookup uuid.str with
  | none => rfl
  | some p =>
    have hendpoint : p.endpointStr ≠ n.endpoint := fun h => hown ⟨p, hlook, hready p hlook, h⟩
    refine (EStateM.bind_of_ok (readPeer_eq (deref_of_lookup hlook))).trans ?_
    rw [hready p hlook]
    change (if decide (p.endpointStr = n.endpoint) = true then pure none
      else helloAdmit env uuid msg : NodeM (Option PeerRef)) n = _
    rw [if_neg (by simpa using hendpoint)]

/-- It makes room for a sender that is ready. -/
theorem helloGate_of_ready {p : Peer} (hp : n.peers.lookup uuid.str = some p) (hready : p.ready = true)
    (hremove : removePeer ⟨uuid.str, p.serial⟩ n = .ok ⟨⟩ n₁) :
    helloGate env uuid msg n = helloAdmit env uuid msg n₁ := by
  have hgone : n₁.peers.lookup uuid.str = none := by
    have hbecomes := (EStateM.wp_of_ok hremove (removePeer_spec (deref_of_lookup hp)) :)
    have hentry : (n₁.view uuid.str).entry = none := by
      rw [hbecomes.view, Views.at_self]
      rfl
    exact Option.map_eq_none_iff.mp hentry
  rw [helloGate]
  refine (EStateM.bind_of_ok lookupPeer_eq).trans ?_
  rw [hp]
  refine (EStateM.bind_of_ok (readPeer_eq (deref_of_lookup hp))).trans ?_
  rw [if_pos hready]
  refine (EStateM.bind_of_ok hremove).trans ((EStateM.bind_of_ok lookupPeer_eq).trans ?_)
  rw [hgone]
  rfl

/-- What runs in such a state is `requirePeer`, and then the rest. -/
theorem Calls.step {endpoint : CStr} (h : Calls env n input uuid endpoint key n₁) :
    ∃ rest : Option PeerRef → NodeM Unit,
      Node.step env input n = (requirePeer env uuid endpoint key >>= rest) n₁ := by
  -- Behind the gate the message is handled as the rest of the gate and the command say.
  have hgate : ∀ (msg : Msg), Hello input uuid msg → helloGate env uuid msg n =
      helloAdmit env uuid msg n₁ → Hands n₁ msg key → ∃ rest : Option PeerRef → NodeM Unit,
      Node.step env input n = (requirePeer env uuid msg.endpoint key >>= rest) n₁ := by
    rintro msg ⟨frames, rfl, hsender, rfl, hid⟩ hadmit hkey
    rw [Node.step, recvPeer_of_sender hsender, recvMsg, senderGate, if_pos hid]
    apply Exists.intro
    refine (EStateM.bind_congr hadmit).trans ?_
    rw [helloAdmit, bind_assoc]
    exact EStateM.bind_congr (helloRequire_of_hands hkey)
  cases h with
  | asks endpoint key h => exact ⟨fun _ => pure ⟨⟩, h.step⟩
  | hello msg key hinput hready hown hkey =>
    exact hgate msg hinput (helloGate_of_not_ready hready hown) hkey
  | renewed msg key p n₁ hinput hp hready hremove hkey =>
    exact hgate msg hinput (helloGate_of_ready hp hready hremove) hkey

/-- In secure mode a call goes on with a key that libzmq takes. -/
def keyed (env : Env) (n : Node) (key : Option CStr) : Bool := !n.secure || key.any env.serverKeyOk

/-- The buffers that a call of `zyre_node_require_peer` fills: none for a peer that has an entry, or where
a key is missing, and the second one when the mailbox has been connected. -/
def buffers (env : Env) (n : Node) (uuid : Uuid) (endpoint : CStr) (key : Option CStr) : List Buffer :=
  if (n.peers.lookup uuid.str).isSome || n.secure && key.isNone then []
  else if keyed env n key && env.connects (env.endpointIface endpoint) then
    [env.connectBuffer endpoint, helloBuffer env n]
  else [env.connectBuffer endpoint]

/-- Every write that the input leads to stays within its buffer. -/
def InBounds (env : Env) (n : Node) (input : Input) : Prop :=
  ∀ uuid endpoint key n₁, Calls env n input uuid endpoint key n₁ →
    ∀ b ∈ buffers env n₁ uuid endpoint key, b.Within

/-- Of a peer that has no entry, in secure mode with a key, the endpoint is short enough, with the
interface if it is put in. The node's own endpoint is, and what is left of it without an interface, if a
mailbox can be connected. -/
structure Short (env : Env) (n : Node) (uuid : Uuid) (endpoint : CStr) (key : Option CStr) : Prop where
  peer : endpoint.length + (if env.inserts endpoint then 1 + env.interface.length else 0) < niMaxhost
  own : keyed env n key = true → env.connects (env.endpointIface endpoint) = true →
    env.ipv6 ∧ 37 ∈ n.endpoint.bytes → n.endpoint.length < niMaxhost ∧
      beforeIface n.endpoint + 1 + behindColon n.endpoint < niMaxhost

theorem within_buffers {endpoint : CStr} : (∀ b ∈ buffers env n uuid endpoint key, b.Within) ↔
    (n.peers.lookup uuid.str = none → (n.secure = true → key.isSome = true) →
      Short env n uuid endpoint key) := by
  rw [buffers]
  by_cases hstop : ((n.peers.lookup uuid.str).isSome || n.secure && key.isNone) = true
  · rw [if_pos hstop]
    refine iff_of_true (List.forall_mem_nil _) fun hnew hkey => ?_
    rw [hnew, Option.isSome_none, Bool.false_or, Bool.and_eq_true] at hstop
    have hsome := hkey hstop.1
    rw [Option.isNone_iff_eq_none.mp hstop.2] at hsome
    cases hsome
  · rw [if_neg hstop]
    have hgoes : n.peers.lookup uuid.str = none ∧ (n.secure = true → key.isSome = true) := by
      rw [Bool.or_eq_true, not_or] at hstop
      refine ⟨Option.not_isSome_iff_eq_none.mp hstop.1, fun hsecure => ?_⟩
      cases key with
      | none => exact absurd (by rw [hsecure]; rfl) hstop.2
      | some k => rfl
    have hshort : (n.peers.lookup uuid.str = none → (n.secure = true → key.isSome = true) →
        Short env n uuid endpoint key) ↔ Short env n uuid endpoint key :=
      ⟨fun h => h hgoes.1 hgoes.2, fun h _ _ => h⟩
    rw [hshort]
    by_cases hconnects : (keyed env n key && env.connects (env.endpointIface endpoint)) = true
    · rw [if_pos hconnects, List.forall_mem_cons, List.forall_mem_singleton, within_connectBuffer,
        within_helloBuffer]
      exact ⟨fun h => ⟨h.1, fun _ _ => h.2⟩, fun h => ⟨h.peer,
        h.own (Bool.and_eq_true_iff.mp hconnects).1 (Bool.and_eq_true_iff.mp hconnects).2⟩⟩
    · rw [if_neg hconnects, List.forall_mem_singleton, within_connectBuffer]
      refine ⟨fun h => ⟨h, fun hkeyed hconn => absurd ?_ hconnects⟩, fun h => h.peer⟩
      exact Bool.and_eq_true_iff.mpr ⟨hkeyed, hconn⟩

/-- **Buffers.** The writes of an iteration stay within `endpoint_iface` and the other buffers of fixed size
exactly if the strings that come together there are short enough in every call of `zyre_node_require_peer`
that it leads to. `helloBuffer_content` and `connectBuffer_content` tie what is counted to what is written.
-/
theorem inBounds_iff : InBounds env n input ↔ ∀ uuid endpoint key n₁,
    Calls env n input uuid endpoint key n₁ → n₁.peers.lookup uuid.str = none →
      (n₁.secure = true → key.isSome = true) → Short env n₁ uuid endpoint key :=
  forall₄_congr fun _ _ _ _ => imp_congr_right fun _ => within_buffers

/-- A service that some node has published to gossip. -/
def longService : CStr := CStr.ofChars (List.replicate 1025 'e')

/-- It does not fit. -/
theorem not_inBounds_of_gossip : ¬∀ env n input, Reachable n → InBounds env n input := by
  intro h
  have hcalls : Calls (sampleEnv 0) sampleNode (.gossip (sampleUuid 1) longService) (sampleUuid 1)
      (gossipEndpoint longService) (gossipKey longService) sampleNode :=
    .asks _ _ (.gossip _ _ (by decide +kernel) (by decide +kernel))
  have hshort := within_buffers.mp (h (sampleEnv 0) sampleNode _ (.new _ _) _ _ _ _ hcalls) rfl
    fun hsecure => by cases hsecure
  exact absurd hshort.peer (by decide +kernel)

end Node

end Zyre
