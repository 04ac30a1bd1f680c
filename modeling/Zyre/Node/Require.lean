import Zyre.Node.Rules

/-!
# Requiring a peer, exactly

`requirePeer` on a UUID without an entry ends in one of four ways, and `wp_requirePeer_of_none` gives
the state in each of them.
-/

namespace Zyre

namespace Node

variable {n : Node} {X : CStr} {p q : Peer} {env : Env} {uuid : Uuid} {endpoint : CStr}
  {key : Option CStr} {E : Fault → Node → Prop}

/-- Every peer on the endpoint is disconnected. -/
def purged (n : Node) (endpoint : CStr) : Node :=
  { n with peers := n.peers.mapValues fun _ => purgePeer endpoint }

/-- The object `q` has been put into the peers table under `X`, and sent `ms`. -/
def opening (n : Node) (X : CStr) (q : Peer) (ms : List (PeerRef × Msg)) : Node :=
  { n with
    peers := n.peers.insert X q
    serial := n.serial + 1
    mail := n.mail ++ ms }

section

variable {ms : List (PeerRef × Msg)} {k : ℕ} {Q : Unit → Node → Prop}

/-- The pointer to a new entry leads to it. -/
theorem deref_opening (hk : q.serial = k) : (n.opening X q ms).deref ⟨X, k⟩ = some q :=
  hk ▸ deref_of_lookup (by simp [opening])

theorem wp_readPeer_opening {Q : Peer → Node → Prop} (hk : q.serial = k) :
    (readPeer ⟨X, k⟩).wp Q E (n.opening X q ms) ↔ Q q (n.opening X q ms) := by
  simp [deref_opening hk]

theorem wp_modifyPeer_opening {f : Peer → Peer} (hk : q.serial = k) :
    (modifyPeer ⟨X, k⟩ f).wp Q E (n.opening X q ms) ↔ Q ⟨⟩ (n.opening X (f q) ms) := by
  rw [wp_modifyPeer, deref_opening hk]
  simp [opening, AList.modify_insert]

theorem wp_peerSend_opening {msg : Msg} (hk : q.serial = k) (hconn : q.connected = true) :
    (peerSend ⟨X, k⟩ msg).wp Q E (n.opening X q []) ↔
      Q ⟨⟩ (n.opening X { q with sentSequence := q.sentSequence + 1 }
        [(⟨X, k⟩, msg.setSequence (q.sentSequence + 1))]) := by
  have hposted : (n.opening X q []).posted ⟨X, k⟩ q msg =
      n.opening X { q with sentSequence := q.sentSequence + 1 }
        [(⟨X, k⟩, msg.setSequence (q.sentSequence + 1))] := by
    simp [posted, opening, AList.modify_insert]
  simp [wp_peerSend, deref_opening hk, hconn, hposted]

theorem wp_deletePeer_opening (hX : n.peers.lookup X = none) :
    (deletePeer ⟨X, k⟩).wp Q E (n.opening X q []) ↔ Q ⟨⟩ { n with serial := n.serial + 1 } := by
  simp [opening, AList.erase_insert_of_notMem (AList.lookup_eq_none.mp hX)]

end

/-- `zyre_peer_connect` on the new object. -/
theorem wp_peerConnect {Q : Int → Node → Prop} {k : ℕ} (hk : q.serial = k)
    (hconn : q.connected = false)
    (hkeys : q.serverKey.isSome → q.publicKey.isSome ∧ q.secretKey.isSome)
    (hok : ∀ key, q.serverKey = some key → env.serverKeyOk key = true) :
    (peerConnect env ⟨X, k⟩ endpoint).wp Q E (n.opening X q []) ↔
      if env.connects (env.endpointIface endpoint) then
        Q 0 (n.opening X
          { q with endpoint := env.endpointIface endpoint, connected := true, ready := false } [])
      else Q (-1) (n.opening X q []) := by
  cases hserver : q.serverKey with
  | none =>
    by_cases h : env.connects (env.endpointIface endpoint) <;>
      simp [-wp_readPeer, -wp_modifyPeer, peerConnect, wp_readPeer_opening hk,
        wp_modifyPeer_opening hk, hconn, hserver, h]
  | some key =>
    obtain ⟨hpublic, hsecret⟩ := hkeys (by simp [hserver])
    by_cases h : env.connects (env.endpointIface endpoint) <;>
      simp [-wp_readPeer, -wp_modifyPeer, peerConnect, wp_readPeer_opening hk,
        wp_modifyPeer_opening hk, hconn, hserver, h, hpublic, hsecret, hok key hserver]

/-- A server key libzmq does not take stops the program. -/
theorem wp_peerConnect_of_invalid {Q : Int → Node → Prop} {k : ℕ} {key : CStr} (hk : q.serial = k)
    (hconn : q.connected = false)
    (hkeys : q.serverKey.isSome → q.publicKey.isSome ∧ q.secretKey.isSome)
    (hserver : q.serverKey = some key) (hok : env.serverKeyOk key = false) :
    (peerConnect env ⟨X, k⟩ endpoint).wp Q E (n.opening X q []) ↔
      E .serverKey (n.opening X q []) := by
  obtain ⟨hpublic, hsecret⟩ := hkeys (by simp [hserver])
  simp [-wp_readPeer, peerConnect, wp_readPeer_opening hk, hconn, hserver, hpublic, hsecret, hok]

/-- The node requires CURVE keys of its peers. -/
def secure (n : Node) : Bool := n.publicKey.isSome && n.secretKey.isSome

/-- In secure mode a new object carries the keys of the node and that of the peer. -/
def newborn (n : Node) (key : Option CStr) : Peer :=
  if n.secure then
    { Peer.new n.serial with publicKey := n.publicKey, secretKey := n.secretKey, serverKey := key }
  else Peer.new n.serial

/-- In secure mode a new peer has the keys of both sides. -/
theorem newborn_of_secure (h : n.secure = true) : n.newborn key = { Peer.new n.serial with
    publicKey := n.publicKey, secretKey := n.secretKey, serverKey := key } :=
  if_pos h

/-- Otherwise it has none. -/
theorem newborn_of_not_secure (h : n.secure = false) : n.newborn key = Peer.new n.serial :=
  if_neg (by simp [h])

theorem newborn_serial : (n.newborn key).serial = n.serial := by
  unfold newborn; split_ifs <;> rfl

/-- A new peer is not connected yet. -/
theorem newborn_connected : (n.newborn key).connected = false := by
  unfold newborn; split_ifs <;> rfl

/-- A peer with a server key has the keys of the node as well, which `zyre_peer_connect` asserts. -/
theorem newborn_keys : (n.newborn key).serverKey.isSome →
    (n.newborn key).publicKey.isSome ∧ (n.newborn key).secretKey.isSome := by
  unfold newborn
  split_ifs with h
  · simpa [secure] using fun _ => h
  · simp [Peer.new]

/-- The new object once its mailbox is connected and HELLO has gone out. -/
def greeter (env : Env) (n : Node) (endpoint : CStr) (key : Option CStr) : Peer :=
  { n.newborn key with
    endpoint := env.endpointIface endpoint
    connected := true
    ready := false
    sentSequence := 1
    evasiveAt := env.now.toUInt64 + n.evasiveTimeout
    expiredAt := env.now.toUInt64 + n.expiredTimeout }

/-- The node with the new object in place and HELLO in its mailbox. -/
def greeting (env : Env) (n : Node) (X endpoint : CStr) (key : Option CStr) : Node :=
  (n.purged endpoint).opening X (greeter env n endpoint key)
    [(⟨X, n.serial⟩, (helloMsg env n).setSequence 1)]

/-- The key given to `requirePeer` is one a mailbox can be connected with. -/
def KeyOk (env : Env) (n : Node) (key : Option CStr) : Prop :=
  n.secure = true → ∃ k ∈ key, env.serverKeyOk k = true

/-- Requiring a peer that has an entry finds it. -/
theorem wp_requirePeer_of_some {Q : Option PeerRef → Node → Prop}
    (h : n.peers.lookup uuid.str = some p) :
    (requirePeer env uuid endpoint key).wp Q E n ↔ Q (some ⟨uuid.str, p.serial⟩) n := by
  simp [requirePeer, h]

/-- The new object is in the table, with its keys: what is left to do. -/
private def connectNew (env : Env) (n : Node) (uuid : Uuid) (endpoint : CStr) :
    NodeM (Option PeerRef) := do
  let rc ← peerConnect env ⟨uuid.str, n.serial⟩ endpoint
  if rc ≠ 0 then do
    deletePeer ⟨uuid.str, n.serial⟩
    pure none
  else do
    peerSend ⟨uuid.str, n.serial⟩ (helloMsg env n)
    modifyPeer ⟨uuid.str, n.serial⟩ (·.refresh env.now n.evasiveTimeout n.expiredTimeout)
    pure (some ⟨uuid.str, n.serial⟩)

private theorem wp_connectNew {Q : Option PeerRef → Node → Prop}
    (hnew : (n.purged endpoint).peers.lookup uuid.str = none)
    (hok : ∀ k, (n.newborn key).serverKey = some k → env.serverKeyOk k = true) :
    (connectNew env n uuid endpoint).wp Q E
      ((n.purged endpoint).opening uuid.str (n.newborn key) []) ↔
    if env.connects (env.endpointIface endpoint) then
      Q (some ⟨uuid.str, n.serial⟩) (greeting env n uuid.str endpoint key)
    else Q none { n.purged endpoint with serial := n.serial + 1 } := by
  have hserial : (n.newborn key).serial = n.serial := newborn_serial
  have hsent : (n.newborn key).sentSequence = 0 := by
    unfold newborn; split_ifs <;> rfl
  rw [connectNew, EStateM.wp_bind, wp_peerConnect hserial newborn_connected newborn_keys hok]
  by_cases hconnects : env.connects (env.endpointIface endpoint)
  · set q : Peer := { n.newborn key with
      endpoint := env.endpointIface endpoint, connected := true, ready := false } with hq
    have hq₁ : q.sentSequence + 1 = 1 := by rw [hq, hsent]; rfl
    simp only [hconnects, if_true, ne_eq, not_true_eq_false, if_false, EStateM.wp_bind,
      wp_peerSend_opening (q := q) hserial rfl, hq₁]
    rw [wp_modifyPeer_opening (by exact hserial)]
    rfl
  · simp only [hconnects, if_false, ne_eq, reduceCtorEq, not_false_eq_true, if_true,
      EStateM.wp_bind, EStateM.wp_pure]
    exact wp_deletePeer_opening hnew

private theorem wp_requirePeer_new {Q : Option PeerRef → Node → Prop}
    (hnew : (n.purged endpoint).peers.lookup uuid.str = none) :
    (requirePeer env uuid endpoint key).wp Q E n ↔
      if n.secure = true ∧ key = none then
        E .assertion ((n.purged endpoint).opening uuid.str (Peer.new n.serial) [])
      else (connectNew env n uuid endpoint).wp Q E
        ((n.purged endpoint).opening uuid.str (n.newborn key) []) := by
  have hnone : n.peers.lookup uuid.str = none := by
    simpa [purged] using hnew
  set n₁ := (n.purged endpoint).opening uuid.str (Peer.new n.serial) [] with hn₁
  have hstart : (requirePeer env uuid endpoint key).wp Q E n ↔
      (do
        if n.secure then do
          assert key.isSome
          modifyPeer ⟨uuid.str, n.serial⟩ fun p =>
            { p with publicKey := n.publicKey, secretKey := n.secretKey, serverKey := key }
        connectNew env n uuid endpoint : NodeM (Option PeerRef)).wp Q E n₁ := by
    simp only [requirePeer, EStateM.wp_bind, wp_lookupPeer, hnone, Option.map_none,
      EStateM.wp_modify, newPeer, EStateM.wp_get, wp_assert, EStateM.wp_set, EStateM.wp_pure]
    have hfalse : (Option.isNone ((n.purged endpoint).peers.lookup uuid.str)) = true := by
      simp [hnew]
    refine Iff.trans (and_iff_left fun h => ?_) ((forall_prop_of_true hfalse).trans ?_)
    · cases hfalse.symm.trans h
    · simp only [hn₁, opening, purged, List.append_nil]
      rfl
  rw [hstart]
  cases hsec : n.secure with
  | false =>
    simp [newborn_of_not_secure hsec, hn₁]
  | true =>
    cases key with
    | none => simp
    | some k =>
      simp only [if_true, EStateM.wp_bind, wp_assert, hn₁, newborn_of_secure hsec,
        wp_modifyPeer_opening (q := Peer.new n.serial) (k := n.serial) rfl]
      simp

/-- Requiring a peer that has no entry, in secure mode with a key that will do. -/
theorem wp_requirePeer_of_none {Q : Option PeerRef → Node → Prop}
    (hnew : n.peers.lookup uuid.str = none) (hkey : KeyOk env n key) :
    (requirePeer env uuid endpoint key).wp Q E n ↔
      if env.connects (env.endpointIface endpoint) then
        Q (some ⟨uuid.str, n.serial⟩) (greeting env n uuid.str endpoint key)
      else Q none { n.purged endpoint with serial := n.serial + 1 } := by
  have hnew' : (n.purged endpoint).peers.lookup uuid.str = none := by simp [purged, hnew]
  rw [wp_requirePeer_new hnew', if_neg, wp_connectNew hnew']
  · intro k hk
    unfold newborn at hk
    split_ifs at hk with hsec
    · obtain ⟨k', hk', hok⟩ := hkey hsec
      rwa [Option.some_inj.mp (hk.symm.trans hk')]
    · simp [Peer.new] at hk
  · rintro ⟨hsec, rfl⟩
    obtain ⟨_, hk, -⟩ := hkey hsec
    cases hk

/-- In secure mode, without a key that will do, requiring a peer that has no entry stops. -/
theorem wp_requirePeer_of_badKey {Q : Option PeerRef → Node → Prop}
    (hnew : n.peers.lookup uuid.str = none) (hsec : n.secure = true)
    (hkey : ∀ k ∈ key, env.serverKeyOk k = false) :
    (requirePeer env uuid endpoint key).wp Q E n ↔
      match key with
      | none => E .assertion ((n.purged endpoint).opening uuid.str (Peer.new n.serial) [])
      | some _ => E .serverKey ((n.purged endpoint).opening uuid.str (n.newborn key) []) := by
  have hnew' : (n.purged endpoint).peers.lookup uuid.str = none := by simp [purged, hnew]
  rw [wp_requirePeer_new hnew']
  cases key with
  | none => simp [hsec]
  | some k =>
    have hserver : (n.newborn (some k)).serverKey = some k := by rw [newborn_of_secure hsec]
    rw [if_neg (by simp), connectNew, EStateM.wp_bind, wp_peerConnect_of_invalid newborn_serial
      newborn_connected newborn_keys hserver (hkey k rfl)]

/-- Requiring a new peer without a valid key stops the program once its entry is made. -/
theorem wp_requirePeer_of_not_keyOk {Q : Option PeerRef → Node → Prop}
    (hnew : n.peers.lookup uuid.str = none) (hkey : ¬KeyOk env n key)
    (hE : ∀ fault q, q.serial = n.serial → q.connected = false →
      E fault ((n.purged endpoint).opening uuid.str q [])) :
    (requirePeer env uuid endpoint key).wp Q E n := by
  have hsec : n.secure = true := by
    by_contra h
    exact hkey fun h' => absurd h' h
  have hbad : ∀ k ∈ key, env.serverKeyOk k = false := by
    intro k hk
    by_contra hok
    exact hkey fun _ => ⟨k, hk, by simpa using hok⟩
  rw [wp_requirePeer_of_badKey hnew hsec hbad]
  cases key with
  | none => exact hE _ _ rfl rfl
  | some k => exact hE _ _ newborn_serial newborn_connected

/-! ### The HELLO gate -/

/-- The HELLO gate requires the sender with some key, or none, or finds that the HELLO lacks what it
looks for. -/
theorem wp_helloRequire {Q : Option PeerRef → Node → Prop} {msg : Msg}
    (hrequire : ∀ key, (requirePeer env uuid msg.endpoint key).wp Q E n) (hkeyless : Q none n)
    (hnull : E .nullContainer n) (hempty : E .assertion n) :
    (helloRequire env uuid msg).wp Q E n := by
  refine EStateM.wp_bind .. |>.mpr (EStateM.wp_get.mpr ?_)
  cases n.secretKey with
  | none => exact hrequire none
  | some secret =>
    cases msg.headers with
    | none => exact hnull
    | some headers =>
      cases hkey : headers.lookup xPublickey with
      | none =>
        simp only [hkey]
        exact hkeyless
      | some key =>
        simp only [hkey]
        exact EStateM.wp_bind .. |>.mpr (wp_assert.mpr ⟨fun _ => hrequire _, fun _ => hempty⟩)

end Node

end Zyre
