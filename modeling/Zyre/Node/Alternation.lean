import Zyre.Node.Events

/-!
# When ENTER and EXIT alternate

EXIT is told whenever an entry is removed, ENTER whenever a HELLO numbered 1 passes the gate. So the
two alternate as long as no step removes an entry whose peer has not entered, and lets no HELLO pass
that finds an entry whose peer has. `Civil` states this of a step in terms of the state before it.
-/

namespace Zyre

namespace Node

variable {n n' : Node} {env : Env} {uuid : Uuid} {msg : Msg} {input : Input} {X : CStr} {p : Peer}

/-! ### Which HELLO passes the gate -/

/-- The public key in the headers of a message. -/
def publicKeyOf (msg : Msg) : Option CStr := msg.headers.bind (·.lookup xPublickey)

/-- A HELLO of a peer without an entry gets one: its endpoint can be connected, in secure mode with
its key. -/
def Invites (env : Env) (n : Node) (msg : Msg) : Prop :=
  env.connects (env.endpointIface msg.endpoint) = true ∧
    (n.secretKey.isSome → ∃ k, publicKeyOf msg = some k ∧ k ≠ ∅ ∧
      (n.publicKey.isSome → env.serverKeyOk k = true))

/-- A HELLO passes the gate: a ready entry is replaced, one that is not ready is taken up again
unless it is on the node's own endpoint. -/
def Admits (env : Env) (n : Node) (X : CStr) (msg : Msg) : Prop :=
  match n.peers.lookup X with
  | none => Invites env n msg
  | some p =>
    if p.ready then Invites env n msg
    else p.endpointStr ≠ n.endpoint ∧ (n.secretKey.isSome → ∃ k, publicKeyOf msg = some k ∧ k ≠ ∅)

/-- Whether a HELLO is invited depends on the node's own part. -/
theorem invites_congr (h : n'.own = n.own) : Invites env n' msg ↔ Invites env n msg := by
  have hsecret : n'.secretKey = n.secretKey := (congrArg Node.secretKey h :)
  have hpublic : n'.publicKey = n.publicKey := (congrArg Node.publicKey h :)
  simp only [Invites, hsecret, hpublic]

/-- `zyre_node_require_peer` returns a peer exactly if the endpoint can be connected with its key. -/
theorem requirePeer_invites {endpoint : CStr} {key : Option CStr}
    (hnew : n.peers.lookup uuid.str = none) :
    (requirePeer env uuid endpoint key).wp
      (fun o _ => o.isSome ↔ env.connects (env.endpointIface endpoint) = true ∧ KeyOk env n key)
      (fun _ _ => True) n := by
  by_cases hkey : KeyOk env n key
  · rw [wp_requirePeer_of_none hnew hkey]
    split_ifs with hconnects
    · exact iff_of_true rfl ⟨hconnects, hkey⟩
    · exact iff_of_false (fun h => nomatch h) fun h => hconnects h.1
  · exact wp_requirePeer_of_not_keyOk hnew hkey fun _ _ _ _ => trivial

/-- So it does for a HELLO. -/
theorem helloRequire_invites (hnew : n.peers.lookup uuid.str = none) :
    (helloRequire env uuid msg).wp (fun o _ => o.isSome ↔ Invites env n msg)
      (fun _ _ => True) n := by
  simp only [helloRequire, EStateM.wp_bind, EStateM.wp_get]
  cases hsecret : n.secretKey with
  | none =>
    refine EStateM.wp_mono (requirePeer_invites hnew) (fun o _ h => ?_) fun _ _ h => h
    simp [h, Invites, KeyOk, secure, hsecret]
  | some secret =>
    cases hheaders : msg.headers with
    | none => trivial
    | some headers =>
      cases hkey : headers.lookup xPublickey with
      | none =>
        simp only [hkey, EStateM.wp_pure]
        simp [Invites, publicKeyOf, hsecret, hheaders, hkey]
      | some k =>
        simp only [hkey, EStateM.wp_bind, wp_assert, decide_eq_true_eq]
        refine ⟨fun hne => ?_, fun _ => trivial⟩
        refine EStateM.wp_mono (requirePeer_invites hnew) (fun o _ h => ?_) fun _ _ h => h
        simp [h, Invites, KeyOk, secure, publicKeyOf, hsecret, hheaders, hkey, hne]

/-- **The HELLO gate** lets a HELLO in exactly as `Admits` says. -/
theorem helloGate_admits :
    (helloGate env uuid msg).wp (fun o _ => o.isSome ↔ Admits env n uuid.str msg)
      (fun _ _ => True) n := by
  -- The second half of the gate on a node without an entry.
  have hnew : ∀ n₁ : Node, n₁.peers.lookup uuid.str = none → n₁.own = n.own →
      (helloAdmit env uuid msg).wp
      (fun o _ => o.isSome ↔ Invites env n msg) (fun _ _ => True) n₁ := by
    intro n₁ hlook hown
    refine EStateM.wp_bind .. |>.mpr
      (EStateM.wp_mono (helloRequire_invites hlook) (fun o n₂ h => ?_) fun _ _ h => h)
    rw [invites_congr hown] at h
    cases o with
    | none => exact h
    | some r => exact EStateM.wp_bind .. |>.mpr (wp_modifyPeer.mpr ⟨fun _ _ => h, fun _ => trivial⟩)
  simp only [helloGate, EStateM.wp_bind, wp_lookupPeer]
  cases hlook : n.peers.lookup uuid.str with
  | none =>
    simp only [Admits, hlook]
    exact hnew n hlook rfl
  | some p =>
    have hderef := deref_of_lookup hlook
    simp only [Option.map_some, EStateM.wp_bind, wp_readPeer, hderef, Option.some_inj, forall_eq',
      Admits, hlook]
    refine ⟨?_, fun h => by cases h⟩
    by_cases hready : p.ready = true
    · simp only [hready, if_true, EStateM.wp_bind]
      refine EStateM.wp_mono (removePeer_spec hderef) (fun _ n₁ h => ?_) fun _ _ _ => trivial
      have hentry : (n₁.view uuid.str).entry = none := by
        rw [h.view, Views.at_self]; rfl
      simp only [wp_lookupPeer, wp_assert, EStateM.wp_pure]
      exact ⟨fun _ => hnew n₁ (Option.map_eq_none_iff.mp hentry) h.own, fun _ => trivial⟩
    · simp only [hready, if_false, EStateM.wp_bind, EStateM.wp_get, EStateM.wp_pure,
        EStateM.wp_ite, Bool.false_eq_true]
      refine ⟨fun hend => ?_, fun hend => ?_⟩
      · have hend : p.endpointStr = n.endpoint := by simpa using hend
        exact iff_of_false (fun h => by cases h) fun h => h.1 hend
      have hend : p.endpointStr ≠ n.endpoint := by simpa using hend
      simp only [helloAdmit, helloRequire, EStateM.wp_bind, EStateM.wp_get]
      cases hsecret : n.secretKey with
      | none =>
        refine (wp_requirePeer_of_some hlook).mpr (EStateM.wp_bind .. |>.mpr ?_)
        exact wp_modifyPeer.mpr ⟨fun _ _ => iff_of_true rfl ⟨hend, by simp⟩, fun _ => trivial⟩
      | some secret =>
        cases hheaders : msg.headers with
        | none => trivial
        | some headers =>
          cases hkey : headers.lookup xPublickey with
          | none =>
            simp only [hkey, EStateM.wp_pure]
            refine iff_of_false (fun h => by cases h) fun h => ?_
            obtain ⟨k, hk, -⟩ := h.2 rfl
            simp [publicKeyOf, hheaders, hkey] at hk
          | some k =>
            simp only [hkey, EStateM.wp_bind, wp_assert, decide_eq_true_eq]
            refine ⟨fun hne => ?_, fun _ => trivial⟩
            refine (wp_requirePeer_of_some hlook).mpr (EStateM.wp_bind .. |>.mpr ?_)
            exact wp_modifyPeer.mpr ⟨fun _ _ => iff_of_true rfl ⟨hend, fun _ =>
              ⟨k, by simp [publicKeyOf, hheaders, hkey], hne⟩⟩, fun _ => trivial⟩

/-- A HELLO numbered 1 that passes the gate is greeted. -/
theorem recvMsg_greeted (hid : msg.id = .hello) (hadmits : Admits env n uuid.str msg)
    (hseq : msg.sequence = 1) :
    (recvMsg env uuid msg).wp
      (fun _ n' => ∃ w, Opened uuid.str (n.view uuid.str) w ∧
        n'.view uuid.str = (w.count 1).greet uuid.str msg) (fun _ _ => True) n := by
  simp only [recvMsg, senderGate, EStateM.wp_bind, if_pos hid]
  refine EStateM.wp_mono (EStateM.wp_and helloGate_spec helloGate_admits) ?_ fun _ _ _ => trivial
  rintro (_ | r) n₁ ⟨hgate, hiff⟩
  · exact absurd (hiff.mpr hadmits) (by simp)
  · obtain ⟨v, q, hopened, hq, hready, rfl, hreaches⟩ := hgate
    obtain ⟨p, hp, rfl⟩ := deref_of_view (n := n₁) (X := uuid.str) (q := q)
      (by rw [hreaches.view]; exact hq)
    refine EStateM.wp_bind .. |>.mpr (wp_readPeer.mpr ⟨fun p' hp' => ?_, fun _ => trivial⟩)
    cases hp.symm.trans hp'
    have hready : p.ready = true := hready
    rw [if_pos hready]
    refine EStateM.wp_mono (acceptMsg_spec hp) ?_ fun _ _ _ => trivial
    rintro _ n₂ ⟨w, haccepted, hbecomes⟩
    rw [hbecomes.view, Views.at_self]
    rw [hreaches.view] at haccepted
    rcases haccepted with ⟨p', he, hlost⟩ | ⟨-, -⟩ | ⟨p', hid', -⟩ | ⟨p', hid', -⟩
    · rw [if_pos hid] at hlost
      exact absurd hseq.symm hlost
    · exact ⟨v, hopened, rfl⟩
    · rw [hid] at hid'
      cases hid'
    · exact absurd hid hid'

/-- A HELLO that does not pass the gate. -/
theorem recvMsg_declined (hid : msg.id = .hello) (hnot : ¬Admits env n uuid.str msg) :
    (recvMsg env uuid msg).wp
      (fun _ n' => Declined uuid.str (n.view uuid.str) (n'.view uuid.str))
      (fun _ n' => ∃ v, Declined uuid.str (n.view uuid.str) v ∧ n'.log uuid.str <+: v.log) n := by
  simp only [recvMsg, senderGate, EStateM.wp_bind, if_pos hid]
  refine EStateM.wp_mono (EStateM.wp_and helloGate_spec helloGate_admits) ?_ ?_
  · rintro (_ | r) n₁ ⟨h, hadmits⟩
    · obtain ⟨v, hdeclined, hreaches⟩ := h
      rw [← hreaches.view] at hdeclined
      exact hdeclined
    · exact absurd (hadmits.mp rfl) hnot
  · rintro _ n₁ ⟨⟨v, hdeclined, hwithin⟩, -⟩
    have h := hwithin uuid.str
    rw [Views.at_self] at h
    exact ⟨v, hdeclined, h⟩

/-! ### Civil steps -/

/-- The peer has entered and lost its mailbox since: a new HELLO would take the entry up again. -/
def Resumes (n : Node) (X : CStr) : Prop :=
  ∃ p, n.peers.lookup X = some p ∧ p.ready = false ∧ p.name.isSome

/-- No entry is removed whose peer has not entered, and no HELLO passes the gate that is numbered
other than 1 or would take up the entry of a peer that has entered, except both at once. -/
structure Civil (env : Env) (n : Node) (input : Input) : Prop where
  removed : ∀ X ∈ removes env n input, ∀ p, n.peers.lookup X = some p → p.name.isSome
  hello : ∀ frames uuid, input = .inbox frames → senderOf frames = some uuid →
    (Msg.recv frames).msg.id = .hello → Admits env n uuid.str (Msg.recv frames).msg →
    ((Msg.recv frames).msg.sequence = 1 ↔ ¬Resumes n uuid.str)

/-- A run of steps that satisfy `C`. -/
inductive Run (C : Env → Node → Input → Prop) : Node → Prop
  | new (uuid : Uuid) (endpoint : CStr) : Run C (Node.new uuid endpoint)
  | step {n n' : Node} (env : Env) (input : Input) (hn : Run C n) (hc : C env n input)
      (h : Node.step env input n = .ok ⟨⟩ n') : Run C n'

/-- A run leads to reachable states. -/
theorem Run.reachable {C : Env → Node → Input → Prop} (h : Run C n) : Reachable n := by
  induction h with
  | new uuid endpoint => exact .new uuid endpoint
  | step env input hn hc h ih => exact .step env input ih h

end Node

/-- ENTER and EXIT have alternated so far, and the peer is in a session when its entry has a
name. -/
structure PeerView.Alternating (X : CStr) (v : PeerView) : Prop where
  alternate : Alternate X v.log
  inside : InSession X v.log ↔ ∃ p, v.entry = some p ∧ p.name.isSome

variable {X : CStr} {v w : PeerView} {msg : Msg} {gossip : Bool} {R : Set CStr}

/-- A removal of a peer that has entered puts EXIT behind its ENTER. -/
theorem PeerView.Alternating.exit (h : v.Alternating X)
    (hname : ∃ p, v.entry = some p ∧ p.name.isSome) : (v.exit X).Alternating X where
  alternate := h.alternate.append_singleton (b := false) (by simp [Event.mark])
    (by simpa using h.inside.mpr hname)
  inside := by
    have hmark : (Event.exit X v.nameStr).mark X = some false := by simp [Event.mark]
    have hnot : ¬InSession X (v.exit X).log := fun hin => by
      simpa using (inSession_append_mark hmark).mp hin
    refine iff_of_false hnot ?_
    rintro ⟨p, hp, -⟩
    cases hp

/-- A greeting outside a session begins one. -/
theorem PeerView.Alternating.greet (halternate : Alternate X w.log) (hnot : ¬InSession X w.log)
    (hentry : ∃ p, w.entry = some p) : ((w.count 1).greet X msg).Alternating X := by
  have henter : (Event.enter X msg.name msg.headers msg.endpoint).mark X = some true := by
    simp [Event.mark]
  have hjoins : ∀ e ∈ (msg.groups.getD []).map (Event.join X msg.name), e.mark X = none := by
    simp [Event.mark]
  have hlog : ((w.count 1).greet X msg).log =
      w.log ++ [.enter X msg.name msg.headers msg.endpoint] ++
        (msg.groups.getD []).map (Event.join X msg.name) := by
    simp [PeerView.greet, count]
  obtain ⟨p, hp⟩ := hentry
  refine ⟨?_, iff_of_true ?_ ⟨_, by simp [PeerView.greet, count, hp]; rfl, rfl⟩⟩
  · rw [hlog]
    exact (halternate.append_singleton henter (by simpa using hnot)).append_of_none hjoins
  · rw [hlog]
    exact (inSession_append_of_none hjoins).mpr ((inSession_append_mark henter).mpr rfl)

/-- A message taken does not change whether the entry has a name. -/
theorem PeerView.take_count_isSome {k : UInt16} :
    (∃ p, ((v.count k).take X msg).entry = some p ∧ p.name.isSome) ↔
      ∃ p, v.entry = some p ∧ p.name.isSome := by
  constructor
  · rintro ⟨p, hp, hname⟩
    obtain ⟨p₀, hp₀, hname₀, -⟩ := take_entry hp
    exact ⟨p₀, hp₀, hname₀ ▸ hname⟩
  · rintro ⟨p₀, hp₀, hname⟩
    have hmap := map_serial_take X msg (v.count k)
    rw [map_serial_count, hp₀] at hmap
    obtain ⟨p, hp, -⟩ := Option.map_eq_some_iff.mp hmap
    obtain ⟨p₁, hp₁, hname₁, -⟩ := take_entry hp
    cases hp₀.symm.trans hp₁
    exact ⟨p, hp, hname₁ ▸ hname⟩

/-- A message taken begins and ends no session. -/
theorem PeerView.Alternating.take {k : UInt16} (h : v.Alternating X) :
    ((v.count k).take X msg).Alternating X := by
  obtain ⟨es, hlog, -, hes⟩ := take_log X msg (v.count k)
  refine ⟨?_, ?_⟩
  · rw [hlog]
    exact h.alternate.append_of_none hes
  · rw [hlog, take_count_isSome, ← h.inside]
    exact inSession_append_of_none hes

/-- A gate that does not let the sender in removes at most a ready entry, which has a name. -/
theorem PeerView.Alternating.declined (h : v.Alternating X) (hgating : v.Gating X)
    (hdeclined : Declined X v w) : w.Alternating X := by
  rcases hdeclined with - | ⟨p, he, hr⟩
  · exact h
  · exact h.exit ⟨p, he, hgating.ready p he hr⟩

/-- What the gate lets in: either an entry taken up again, whose peer has entered or not, or a new
one outside a session. -/
theorem PeerView.Alternating.opened (h : v.Alternating X) (hgating : v.Gating X)
    (hopened : Opened X v w) :
    (∃ p, v.entry = some p ∧ p.ready = false ∧ w.Alternating X ∧
      ∃ q, w.entry = some q ∧ q.name = p.name) ∨
    (∀ p, v.entry = some p → p.ready = true) ∧ Alternate X w.log ∧ ¬InSession X w.log := by
  rcases hopened with ⟨p, he, hr⟩ | ⟨q, he, hq⟩ | ⟨p, q, he, hr, hq⟩
  · refine Or.inl ⟨p, he, hr, ⟨h.alternate, ?_⟩, _, rfl, rfl⟩
    rw [h.inside, he]
    simp
  · refine Or.inr ⟨fun p hp => ?_, h.alternate, fun hin => ?_⟩
    · rw [he] at hp; cases hp
    · obtain ⟨p, hp, -⟩ := h.inside.mp hin
      rw [he] at hp
      cases hp
  · have hexit := h.exit ⟨p, he, hgating.ready p he hr⟩
    refine Or.inr ⟨fun p' hp' => ?_, hexit.alternate, fun hin => ?_⟩
    · cases he.symm.trans hp'; exact hr
    · obtain ⟨p', hp', -⟩ := hexit.inside.mp hin
      cases hp'

/-- **Whatever arrives**, ENTER and EXIT go on alternating if a HELLO greets no entry that has its name
already. -/
theorem PeerView.Alternating.arrival (h : v.Alternating X) (hgating : v.Gating X)
    (hcivil : msg.id = .hello → (msg.sequence = 1 ↔
      ¬∃ p, v.entry = some p ∧ p.ready = false ∧ p.name.isSome))
    (harrival : Arrival gossip X msg v w) : w.Alternating X := by
  rcases harrival with - | ⟨p, -, he, hr⟩ | ⟨w, hid, hw, hseq⟩ | ⟨w, hid, hw, hseq⟩ |
    ⟨p, -, he, hr, -⟩ | ⟨p, -, he, hr, -, -⟩ | ⟨p, -, he, hr, -, -⟩
  · exact h
  · exact h.exit ⟨p, he, hgating.ready p he hr⟩
  · have hresumes := not_not.mp (mt (hcivil hid).mpr hseq)
    obtain ⟨p, hp, hr, hname⟩ := hresumes
    rcases h.opened hgating hw with ⟨p', hp', -, hw', q, hq, hqname⟩ | ⟨hready, -, -⟩
    · cases hp.symm.trans hp'
      exact hw'.exit ⟨q, hq, hqname ▸ hname⟩
    · exact absurd (hready p hp) (by simp [hr])
  · have hnot := (hcivil hid).mp hseq
    have hentry : ∃ p, w.entry = some p := by cases hw <;> exact ⟨_, rfl⟩
    rcases h.opened hgating hw with ⟨p, hp, hr, hw', q, hq, hqname⟩ | ⟨-, halternate, hout⟩
    · refine .greet hw'.alternate (fun hin => hnot ⟨p, hp, hr, ?_⟩) hentry
      obtain ⟨q', hq', hname⟩ := hw'.inside.mp hin
      cases hq.symm.trans hq'
      exact hqname ▸ hname
    · exact .greet halternate hout hentry
  · exact h.exit ⟨p, he, hgating.ready p he hr⟩
  · exact h.exit ⟨p, he, hgating.ready p he hr⟩
  · exact h.take

/-- What happens aside keeps the alternation, if the peers it removes have entered. -/
theorem PeerView.Alternating.aside (h : v.Alternating X)
    (hremoved : X ∈ R → ∀ p, v.entry = some p → p.name.isSome) (haside : Aside R X v w) :
    w.Alternating X := by
  rcases haside with - | ⟨endpoint⟩ | ⟨q, he, hq⟩ | ⟨p, he, hX⟩
  · exact h
  · refine ⟨h.alternate, h.inside.trans ⟨?_, ?_⟩⟩
    · rintro ⟨p, hp, hname⟩
      refine ⟨Node.purgePeer endpoint p, by simp [purge, hp], ?_⟩
      obtain ⟨p₀, hp₀, hname₀, -⟩ := purge_entry (v := v)
        (p := Node.purgePeer endpoint p) (show (v.purge endpoint).entry = _ by simp [purge, hp])
      cases hp.symm.trans hp₀
      exact hname₀ ▸ hname
    · rintro ⟨p, hp, hname⟩
      obtain ⟨p₀, hp₀, hname₀, -⟩ := purge_entry hp
      exact ⟨p₀, hp₀, hname₀ ▸ hname⟩
  · refine ⟨h.alternate, h.inside.trans (iff_of_false ?_ ?_)⟩
    · rintro ⟨p, hp, -⟩
      rw [he] at hp
      cases hp
    · rintro ⟨p, hp, hname⟩
      cases hp
      rw [hq.name] at hname
      cases hname
  · exact h.exit ⟨p, he, hremoved hX p he⟩

namespace Node

variable {n n' : Node} {env : Env} {input : Input}

/-- One civil step keeps the alternation. -/
theorem step_alternating (hcivil : Civil env n input) (hgating : (n.view X).Gating X)
    (halternating : (n.view X).Alternating X) :
    (Node.step env input).wp (fun _ n' => (n'.view X).Alternating X)
      (fun _ n' => Alternate X (n'.log X)) n := by
  by_cases hX : ∃ uuid, Sender input uuid ∧ uuid.str = X
  · obtain ⟨uuid, ⟨frames, rfl, hsender⟩, rfl⟩ := hX
    simp only [Node.step, recvPeer_of_sender hsender]
    set msg := (Msg.recv frames).msg with hmsg
    by_cases hpass : msg.id = .hello → Admits env n uuid.str msg
    · have hresumes : msg.id = .hello → (msg.sequence = 1 ↔
          ¬∃ p, (n.view uuid.str).entry = some p ∧ p.ready = false ∧ p.name.isSome) := by
        intro hid
        rw [hcivil.hello frames uuid rfl hsender hid (hpass hid)]
        refine not_congr ⟨?_, ?_⟩
        · rintro ⟨p, hp, hr, hname⟩
          exact ⟨p.still, by simp [hp], hr, hname⟩
        · rintro ⟨q, hq, hr, hname⟩
          obtain ⟨p, hp, rfl⟩ := Option.map_eq_some_iff.mp hq
          exact ⟨p, hp, hr, hname⟩
      refine EStateM.wp_mono recvMsg_spec ?_ ?_
      · rintro _ n' ⟨v, harrival, hreaches⟩
        rw [hreaches.view]
        exact halternating.arrival hgating hresumes harrival
      · rintro _ n' ⟨v, harrival, hwithin⟩
        have h := hwithin uuid.str
        rw [Views.at_self] at h
        exact (halternating.arrival hgating hresumes harrival).alternate.of_prefix h
    · obtain ⟨hid, hnot⟩ := Classical.not_imp.mp hpass
      refine EStateM.wp_mono (recvMsg_declined hid hnot) ?_ ?_
      · exact fun _ n' h => halternating.declined hgating h
      · rintro _ n' ⟨v, h, hlog⟩
        exact (halternating.declined hgating h).alternate.of_prefix hlog
  · have hne : ∀ uuid, Sender input uuid → uuid.str ≠ X := fun uuid hs h => hX ⟨uuid, hs, h⟩
    have hremoved : X ∈ removes env n input → ∀ p, (n.view X).entry = some p → p.name.isSome := by
      intro hmem q hq
      obtain ⟨p, hp, rfl⟩ := Option.map_eq_some_iff.mp hq
      exact hcivil.removed X hmem p hp
    refine EStateM.wp_mono (step_aside hne) ?_ ?_
    · exact fun _ n' h => halternating.aside hremoved h
    · rintro _ n' ⟨v, h, hlog⟩
      exact (halternating.aside hremoved h).alternate.of_prefix hlog

/-- **Every run of civil steps** keeps the alternation of each peer. -/
theorem alternating_of_run (h : Run Civil n) (X : CStr) : (n.view X).Alternating X := by
  induction h with
  | new uuid endpoint =>
    exact ⟨alternate_nil, iff_of_false (by simp [InSession, marks, log, Node.new])
      fun ⟨_, hp, _⟩ => nomatch hp⟩
  | step env input hn hc h ih =>
    exact (EStateM.wp_of_ok h (step_alternating hc (gating_of_reachable hn.reachable X) ih) :)

/-- The alternation in a view is that of the outbox. -/
theorem alternate_outbox (h : Alternate X (n.log X)) : Alternate X n.outbox := by
  unfold Alternate at h ⊢
  rwa [log, marks_filter] at h

/-- **Alternation.** In a run of civil steps the ENTER and EXIT events of every peer alternate and begin
with ENTER, whatever the last step leaves behind. The invariant `Alternating` ties the last of the two
events to the entry: the session is open just when the entry has its name. A step that is not civil breaks
one of the two ways round, by an EXIT of a peer that has sent no HELLO, or a second ENTER. -/
theorem alternate_of_run {n n' : Node} {env : Env} {input : Input} (hn : Run Civil n)
    (hc : Civil env n input) (h : Leaves (Node.step env input) n n') (X : CStr) :
    Alternate X n'.outbox := by
  refine alternate_outbox (h.of_wp (P := fun n' => Alternate X (n'.log X)) ?_)
  exact EStateM.wp_mono (step_alternating hc (gating_of_reachable hn.reachable X)
    (alternating_of_run hn X)) (fun _ _ h => h.alternate) fun _ _ h => h

theorem civil_hello {n : Node} (h : n.peers.lookup (sampleUuid 1).str = none) :
    Civil (sampleEnv 0) n (sampleInput 1 sampleHello) where
  removed X hX := absurd hX (Set.notMem_empty X)
  hello frames uuid hinput hsender _ _ := by
    obtain rfl : (1 :: (sampleUuid 1).data) :: sampleHello.frames = frames := Input.inbox.inj hinput
    obtain rfl : sampleUuid 1 = uuid := Option.some.inj hsender
    refine iff_of_true (by decide) ?_
    rintro ⟨p, hp, -⟩
    exact nomatch h.symm.trans hp

/-- The peer that has said HELLO has expired. -/
def lapsedNode : Node := final (Node.step (sampleEnv 100000) (.reap [(sampleUuid 1).str]) greetedNode)

theorem run_lapsedNode : Run Civil lapsedNode := by
  have hgreeted : Run Civil greetedNode := .step _ _ (.new _ _) (civil_hello rfl) (step_eq_of_isOk (by decide))
  have hall : ∀ e ∈ greetedNode.peers.entries, e.2.name.isSome = true := by decide +kernel
  have hreap : Civil (sampleEnv 100000) greetedNode (.reap [(sampleUuid 1).str]) :=
    ⟨fun X _ p hp => hall _ (AList.mem_lookup_iff.mp hp), fun _ _ hinput => nomatch hinput⟩
  exact .step _ _ hgreeted hreap (step_eq_of_isOk (by decide +kernel))

/-- The peer is told as ENTER, as EXIT when it expires, and as ENTER once more when it says HELLO again. -/
theorem alternate_hello :
    Alternate (sampleUuid 1).str
      (final (Node.step (sampleEnv 0) (sampleInput 1 sampleHello) lapsedNode)).outbox ∧
    marks (sampleUuid 1).str
      (final (Node.step (sampleEnv 0) (sampleInput 1 sampleHello) lapsedNode)).outbox = [true, false, true] :=
  ⟨alternate_of_run run_lapsedNode (civil_hello (by decide +kernel)) (leaves_final _ _) _, by decide +kernel⟩

/-- A peer that was discovered, never sent a HELLO and expires is told as EXIT. -/
theorem not_alternate_of_silent_peer :
    ¬∀ n, Reachable n → ∀ X, Alternate X n.outbox := by
  intro h
  let inputs : List (Env × Input) :=
    [(sampleEnv 0, .api (.requirePeer (sampleUuid 1) (sampleEndpoint 'p') none)),
      (sampleEnv 100000, .reap [(sampleUuid 1).str])]
  have hplay : (play inputs sampleNode).map (·.outbox) = some [.exit (sampleUuid 1).str ∅] := by
    decide
  obtain ⟨n, hn, hout⟩ := Option.map_eq_some_iff.mp hplay
  have halternate := h n (reachable_of_play (.new _ _) hn) (sampleUuid 1).str
  rw [hout] at halternate
  exact halternate.2 (by decide)

end Node

end Zyre
