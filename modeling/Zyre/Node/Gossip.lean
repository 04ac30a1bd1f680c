import Zyre.Node.Secure

/-!
# The service a node publishes

`zyre_node_start` publishes an endpoint on gossip, with the node's public key behind a bar if it has
one, and `zyre_node_recv_gossip` cuts what it is delivered at the first bar. The two agree exactly if
there is no bar in the endpoint.
-/

namespace Zyre

namespace Node

variable {n : Node} {env : Env} {uuid : Uuid} {endpoint : CStr} {key : Option CStr}

/-! ### Publishing -/

/-- The endpoint `zyre_node_start` publishes: the advertised one, if there is one. -/
def publishedEndpoint (n : Node) : CStr := n.advertisedEndpoint.getD n.endpoint

/-- An endpoint with a public key behind a bar, if there is one. -/
def service (endpoint : CStr) : Option CStr → CStr
  | some publicKey => endpoint ++ CStr.ofChars ['|'] ++ publicKey
  | none => endpoint

/-- The value `zyre_node_start` sends to gossip with PUBLISH, under the node's UUID. -/
def publishedService (n : Node) : CStr := service n.publishedEndpoint n.publicKey

/-! ### Splitting -/

/-- What `zyre_node_recv_gossip` does with the two parts of a service: it requires the peer, unless
the endpoint is one of the node's own. -/
def gossipRequire (env : Env) (uuid : Uuid) (endpoint : CStr) (publicKey : Option CStr) :
    NodeM Unit := do
  let n ← get
  if endpoint ≠ n.endpoint ∧ some endpoint ≠ n.advertisedEndpoint then do
    let _ ← requirePeer env uuid endpoint publicKey

theorem recvGossip_eq (env : Env) (uuid : Uuid) (s : CStr) :
    recvGossip env uuid s = gossipRequire env uuid (gossipEndpoint s) (gossipKey s) :=
  rfl

theorem bytes_service : (service endpoint key).bytes =
    endpoint.bytes ++ (key.map fun k => 124 :: k.bytes).getD [] := by
  cases key with
  | none => simp [service]
  | some k =>
    show endpoint.bytes ++ (CStr.ofChars ['|']).bytes ++ k.bytes = _
    have hbar : (CStr.ofChars ['|']).bytes = [124] := by decide
    simp [hbar]

theorem takeWhile_eq_self_of_bar (h : 124 ∉ endpoint.bytes) :
    endpoint.bytes.takeWhile (· != 124) = endpoint.bytes := by
  refine List.takeWhile_eq_self_iff.mpr fun b hb => ?_
  have hne : b ≠ 124 := by
    rintro rfl
    exact h hb
  simpa using hne

/-- An endpoint without a bar comes back. -/
theorem gossipEndpoint_service (h : 124 ∉ endpoint.bytes) :
    gossipEndpoint (service endpoint key) = endpoint := by
  have hself := takeWhile_eq_self_of_bar h
  have htake : (service endpoint key).bytes.takeWhile (· != 124) = endpoint.bytes := by
    rw [bytes_service, List.takeWhile_append, if_pos (by rw [hself])]
    cases key <;> simp
  rw [gossipEndpoint, htake, CStr.ofBytes_bytes]

/-- So does the key behind it. -/
theorem gossipKey_service (h : 124 ∉ endpoint.bytes) :
    gossipKey (service endpoint key) = key := by
  cases key with
  | none => simp [gossipKey, service, h]
  | some k =>
    have hself := takeWhile_eq_self_of_bar h
    have hdrop : endpoint.bytes.dropWhile (· != 124) = [] := by
      have happend := List.takeWhile_append_dropWhile (p := (· != 124)) (l := endpoint.bytes)
      rwa [hself, List.append_right_eq_self] at happend
    have hmem : 124 ∈ (service endpoint (some k)).bytes := by simp [bytes_service]
    rw [gossipKey, if_pos hmem, bytes_service, List.dropWhile_append, hdrop]
    simp

/-- An endpoint with a bar does not come back. -/
theorem gossipEndpoint_service_ne (h : 124 ∈ endpoint.bytes) :
    gossipEndpoint (service endpoint key) ≠ endpoint := by
  intro heq
  rw [← heq] at h
  have hsub := (List.takeWhile_prefix (· != 0)).subset h
  simpa using List.mem_takeWhile_imp hsub

/-! ### Gossip between nodes -/

/-- What a node publishes is cut into its endpoint and its key by every node, and the node takes it
for its own as long as it has the endpoints it had. -/
structure Relayed (n : Node) : Prop where
  parts : ∀ env uuid, recvGossip env uuid n.publishedService =
    gossipRequire env uuid n.publishedEndpoint n.publicKey
  own : ∀ env uuid n', n'.endpoint = n.endpoint → n'.advertisedEndpoint = n.advertisedEndpoint →
    recvGossip env uuid n.publishedService n' = .ok ⟨⟩ n'

/-- On one of the node's own endpoints no peer is required. -/
theorem gossipRequire_own (h : endpoint = n.endpoint ∨ some endpoint = n.advertisedEndpoint) :
    gossipRequire env uuid endpoint key n = .ok ⟨⟩ n := by
  have hcond : ¬(endpoint ≠ n.endpoint ∧ some endpoint ≠ n.advertisedEndpoint) := by
    rintro ⟨hne, hne'⟩
    rcases h with h | h
    · exact hne h
    · exact hne' h
  show (if endpoint ≠ n.endpoint ∧ some endpoint ≠ n.advertisedEndpoint then _ else pure ⟨⟩ :
    NodeM Unit) n = _
  rw [if_neg hcond]
  rfl

theorem publishedEndpoint_own : n.publishedEndpoint = n.endpoint ∨
    some n.publishedEndpoint = n.advertisedEndpoint := by
  cases h : n.advertisedEndpoint with
  | none => exact Or.inl (by simp [publishedEndpoint, h])
  | some advertised => exact Or.inr (by simp [publishedEndpoint, h])

/-- **Gossip.** What a node publishes on gossip is cut into its endpoint and its key by every node, and
taken for its own by the node itself, exactly if the endpoint has no bar (`|`, 124) in it: the endpoint is
what stands before the first bar. -/
theorem relayed_iff (n : Node) : n.Relayed ↔ 124 ∉ n.publishedEndpoint.bytes := by
  constructor
  · intro h hbar
    -- A node on the endpoint the service is cut to ignores it, and should not.
    set cut := gossipEndpoint n.publishedService with hcut
    set other := Node.new n.uuid cut with hother
    set env : Env := ⟨0, fun _ => true, fun _ => true, false, ∅⟩
    have hignored : recvGossip env n.uuid n.publishedService other = .ok ⟨⟩ other := by
      rw [recvGossip_eq]
      exact gossipRequire_own (Or.inl hcut.symm)
    have hne : n.publishedEndpoint ≠ other.endpoint := (gossipEndpoint_service_ne hbar).symm
    have hrequired : (gossipRequire env n.uuid n.publishedEndpoint n.publicKey).wp
        (fun _ n' => n'.peers.lookup n.uuid.str ≠ none) (fun _ _ => True) other := by
      refine EStateM.wp_ite .. |>.mpr ⟨fun _ => EStateM.wp_bind .. |>.mpr ?_, fun hcond => ?_⟩
      · have hkey : KeyOk env other n.publicKey := fun hsecure => by cases hsecure
        refine (wp_requirePeer_of_none rfl hkey).mpr ?_
        simp [env, greeting, opening]
      · exact absurd ⟨hne, fun h => by cases h⟩ hcond
    exact EStateM.wp_of_ok (h.parts env n.uuid ▸ hignored) hrequired rfl
  · intro hbar
    have hparts : ∀ env uuid, recvGossip env uuid n.publishedService =
        gossipRequire env uuid n.publishedEndpoint n.publicKey := by
      intro env uuid
      rw [recvGossip_eq, publishedService, gossipEndpoint_service hbar, gossipKey_service hbar]
    refine ⟨hparts, fun env uuid n' hendpoint hadvertised => ?_⟩
    rw [hparts]
    refine gossipRequire_own ?_
    rw [hendpoint, hadvertised]
    exact publishedEndpoint_own

/-- A node bound to `inproc://a|b` publishes a service that it takes for another node's. -/
theorem not_relayed_of_bar : ¬∀ n, Reachable n → n.Relayed := by
  intro h
  set command : Command := .setEndpoint (some (CStr.ofChars "inproc://a|b".toList))
  have hreachable : Reachable (final (Node.step (sampleEnv 0) (.api command) sampleNode)) :=
    .step _ _ (.new _ _) (step_eq_of_isOk rfl)
  have hown := (h _ hreachable).own (sampleEnv 0) (sampleUuid 0) _ rfl rfl
  have hrequired : (final (recvGossip (sampleEnv 0) (sampleUuid 0)
      (final (Node.step (sampleEnv 0) (.api command) sampleNode)).publishedService
      (final (Node.step (sampleEnv 0) (.api command) sampleNode)))).peers.entries.length = 1 := by
    decide +kernel
  rw [hown] at hrequired
  exact absurd hrequired (by decide)

end Node

end Zyre
