import Zyre.ForMathlib.Bucket
import Zyre.Node.Expiry

/-!
# One reap pass

A pass removes every peer it visits that has expired, and sends one PING to every other that is evasive
and connected (`reap_visits`). Which peers it visits is up to the iteration over the hash table, which
goes on at the next bucket when the entry just visited has been deleted. `handled_iff` says when nothing
is passed over.
-/

namespace Zyre

/-- What a visit goes by. -/
def Peer.stamp (p : Peer) : ℕ × UInt64 × UInt64 × Bool :=
  (p.serial, p.evasiveAt, p.expiredAt, p.connected)

namespace Node

variable {n n' : Node} {X Y : CStr} {r : PeerRef} {p : Peer} {env : Env} {visited : List CStr}
  {buckets : List (List CStr)} {K : Set MsgId}

/-- The PINGs handed to mailboxes of `X`. -/
def pingsTo (n : Node) (X : CStr) : ℕ :=
  n.mail.countP fun m => m.1.identity = X ∧ m.2.id = .ping

/-- The expiry deadline of the peer has passed. -/
def expires (env : Env) (n : Node) (X : CStr) : Bool :=
  (n.peers.lookup X).any fun p => p.expiredAt.toInt64 ≤ env.now

/-- The evasive deadline of the peer has passed, and the other has not. -/
def evades (env : Env) (n : Node) (X : CStr) : Bool :=
  (n.peers.lookup X).any fun p => ¬p.expiredAt.toInt64 ≤ env.now ∧ p.evasiveAt.toInt64 ≤ env.now

/-- A PING to the peer has a mailbox to go to. -/
def reaches (n : Node) (X : CStr) : Bool := (n.peers.lookup X).any fun p => p.connected

/-! ### What a pass goes by -/

/-- The stamps of the entries that are still there are what they were. -/
theorem stamp_of_inherits (env : Env) (h : Inherits Peer.stamp n n') (hX : X ∈ n'.peers) :
    expires env n' X = expires env n X ∧ evades env n' X = evades env n X ∧
      n'.reaches X = n.reaches X := by
  obtain ⟨p', hp'⟩ := Option.isSome_iff_exists.mp (AList.lookup_isSome.mpr hX)
  obtain ⟨p, hp, hstamp⟩ := h X p' hp'
  obtain ⟨-, hboth⟩ := Prod.mk.inj hstamp
  obtain ⟨hevasive, hboth⟩ := Prod.mk.inj hboth
  obtain ⟨hexpired, hconnected⟩ := Prod.mk.inj hboth
  simp only [expires, evades, reaches, hp, hp', Option.any_some, hevasive, hexpired, hconnected,
    and_self]

theorem pingsTo_of_grows (h : Grows K n n') (hK : .ping ∉ K) : n'.pingsTo X = n.pingsTo X := by
  obtain ⟨ms, hms, hids⟩ := h
  have hnone : ms.countP (fun m => m.1.identity = X ∧ m.2.id = .ping) = 0 := by
    refine List.countP_eq_zero.mpr fun m hm => ?_
    have hne : m.2.id ≠ .ping := fun hid => hK (hid ▸ hids m hm)
    simp [hne]
  rw [pingsTo, hms, List.countP_append, hnone]
  rfl

/-! ### One visit -/

/-- A visit to `X` leaves every other entry as it is, removes `X` if it has expired, and sends it a PING
if it is evasive and there is a mailbox. -/
structure Visits (env : Env) (n : Node) (done : List CStr) (n' : Node) : Prop where
  stamp : Inherits Peer.stamp n n'
  own : n'.own = n.own
  mem : ∀ Y, Y ∈ n'.peers ↔ Y ∈ n.peers ∧ ¬(Y ∈ done ∧ expires env n Y = true)
  pings : ∀ Y, n'.pingsTo Y = n.pingsTo Y +
    if evades env n Y && n.reaches Y then done.count Y else 0

theorem mem_peers_iff_view : X ∈ n.peers ↔ (n.view X).entry.isSome = true := by
  rw [view_entry, Option.isSome_map, AList.lookup_isSome]

theorem Visits.refl : Visits env n [] n where
  stamp := Std.Refl.refl n
  own := rfl
  mem Y := by simp
  pings Y := by simp

/-- Visits to entries that are there. -/
theorem Visits.append {done later : List CStr} {n₁ : Node} (h : Visits env n done n₁)
    (hlater : ∀ X ∈ later, X ∈ n₁.peers) (h' : Visits env n₁ later n') :
    Visits env n (done ++ later) n' where
  stamp := IsTrans.trans _ _ _ h.stamp h'.stamp
  own := h'.own.trans h.own
  mem Y := by
    rw [h'.mem, h.mem, List.mem_append]
    by_cases hY : Y ∈ n₁.peers
    · obtain ⟨hexpires, -, -⟩ := stamp_of_inherits env h.stamp hY
      rw [hexpires]
      tauto
    · have hnot := mt (h.mem Y).mpr hY
      tauto
  pings Y := by
    rw [h'.pings, h.pings, List.count_append]
    by_cases hY : Y ∈ later
    · obtain ⟨-, hevades, hreaches⟩ := stamp_of_inherits env h.stamp (hlater Y hY)
      rw [hevades, hreaches]
      split_ifs <;> omega
    · rw [List.count_eq_zero.mpr hY]
      split_ifs <;> omega

/-- A visit to an entry that is not there any more, or never was. -/
theorem Visits.skip {done : List CStr} {n₁ : Node} (h : Visits env n done n₁) (hX : X ∉ n₁.peers) :
    Visits env n (done ++ [X]) n₁ where
  stamp := h.stamp
  own := h.own
  mem Y := by
    have hgone := mt (h.mem X).mpr hX
    rw [h.mem, List.mem_append, List.mem_singleton]
    constructor
    · rintro ⟨hY, hnot⟩
      refine ⟨hY, ?_⟩
      rintro ⟨hdone | rfl, hexpires⟩
      · exact hnot ⟨hdone, hexpires⟩
      · exact hgone ⟨hY, hnot⟩
    · rintro ⟨hY, hnot⟩
      exact ⟨hY, fun hdone => hnot ⟨Or.inl hdone.1, hdone.2⟩⟩
  pings Y := by
    rw [h.pings, List.count_append]
    by_cases hY : Y = X
    · subst hY
      have hevades : evades env n Y = false := by
        by_contra hevades
        have hgone := mt (h.mem Y).mpr hX
        refine hgone ⟨?_, ?_⟩
        · cases hlook : n.peers.lookup Y with
          | none => simp [evades, hlook] at hevades
          | some p => exact AList.lookup_isSome.mp (by rw [hlook]; rfl)
        · rintro ⟨-, hexpires⟩
          cases hlook : n.peers.lookup Y with
          | none => simp [evades, hlook] at hevades
          | some p =>
            simp only [expires, evades, hlook, Option.any_some, decide_eq_true_eq,
              Bool.not_eq_false] at hexpires hevades
            exact hevades.1 hexpires
      rw [hevades]
      simp
    · have hzero : [X].count Y = 0 := List.count_eq_zero.mpr (by simpa using hY)
      rw [hzero]
      rfl

theorem Visits.congr {done : List CStr} {n₁ : Node} (h : Visits env n done n₁)
    (hpeers : n'.peers = n₁.peers) (hmail : n'.mail = n₁.mail) (hown : n'.own = n₁.own) :
    Visits env n done n' where
  stamp := IsTrans.trans _ _ _ h.stamp (.of_eq hpeers)
  own := hown.trans h.own
  mem Y := by rw [hpeers, h.mem]
  pings Y := by
    rw [← h.pings, pingsTo, hmail]
    rfl

/-- One visit. -/
theorem pingPeer_visits (hp : n.peers.lookup X = some p) :
    (pingPeer env ⟨X, p.serial⟩).wp (fun _ n' => Visits env n [X] n') (fun _ _ => True) n := by
  have hr := deref_of_lookup hp
  have hX : X ∈ n.peers := AList.lookup_isSome.mp (by rw [hp]; rfl)
  by_cases hexpired : p.expiredAt.toInt64 ≤ env.now
  · have hexpires : expires env n X = true := by simp [expires, hp, hexpired]
    have hevades : evades env n X = false := by simp [evades, hp, hexpired]
    refine EStateM.wp_bind .. |>.mpr (wp_readPeer.mpr ⟨fun q hq => ?_, fun _ => trivial⟩)
    obtain rfl := Option.some_inj.mp (hr.symm.trans hq)
    rw [if_pos hexpired]
    have hboth := EStateM.wp_and (removePeer_spec hr)
      (removePeer_inherits (g := Peer.stamp) (n := n) (fun _ _ => rfl) fun _ _ => rfl)
    refine EStateM.wp_mono hboth ?_ fun _ _ _ => trivial
    rintro _ n' ⟨hbecomes, hstamp⟩
    refine ⟨hstamp, hbecomes.own, fun Y => ?_, fun Y => ?_⟩
    · rw [mem_peers_iff_view, hbecomes.view, mem_peers_iff_view, List.mem_singleton]
      by_cases hY : Y = X
      · subst hY
        rw [Views.at_self]
        exact iff_of_false nofun fun h => h.2 ⟨rfl, hexpires⟩
      · rw [Views.at_ne hY]
        exact ⟨fun h => ⟨h, fun h => hY h.1⟩, fun h => h.1⟩
    · rw [pingsTo_of_grows hbecomes.grows fun h => nomatch h.1]
      by_cases hY : Y = X
      · subst hY
        simp [hevades]
      · have hzero : [X].count Y = 0 := List.count_eq_zero.mpr (by simpa using hY)
        simp [hzero]
  · have hexpires : expires env n X = false := by simp [expires, hp, hexpired]
    have hstay : ∀ Y, Y ∈ n.peers ↔ Y ∈ n.peers ∧ ¬(Y ∈ [X] ∧ expires env n Y = true) := by
      intro Y
      refine (and_iff_left ?_).symm
      rintro ⟨hY, htrue⟩
      rw [List.mem_singleton.mp hY, hexpires] at htrue
      cases htrue
    -- A visit that posts nothing.
    have hquiet : (evades env n X && n.reaches X) = false → Visits env n [X] n := by
      intro hnone
      refine ⟨Std.Refl.refl n, rfl, hstay, fun Y => ?_⟩
      by_cases hY : Y = X
      · rw [hY, hnone]
        rfl
      · simp [List.count_eq_zero.mpr (show Y ∉ [X] by simpa using hY)]
    refine EStateM.wp_bind .. |>.mpr (wp_readPeer.mpr ⟨fun q hq => ?_, fun _ => trivial⟩)
    obtain rfl := Option.some_inj.mp (hr.symm.trans hq)
    rw [if_neg hexpired]
    refine EStateM.wp_ite .. |>.mpr ⟨fun hevasive => ?_, fun hevasive => ?_⟩
    · have hevades : evades env n X = true := by
        rw [evades, hp]
        exact decide_eq_true ⟨hexpired, hevasive⟩
      have hsend : (peerSend ⟨X, p.serial⟩ (Msg.new .ping)).wp (fun _ n' => Visits env n [X] n')
          (fun _ _ => True) n := by
        refine wp_peerSend.mpr ⟨fun q hq hconn => ?_, fun q hq hconn => ?_, fun _ => trivial⟩
        · obtain rfl := Option.some_inj.mp (hr.symm.trans hq)
          have hreaches : n.reaches X = true := by simp [reaches, hp, hconn]
          refine ⟨.modify fun _ _ => rfl, rfl, fun Y => ?_, fun Y => ?_⟩
          · rw [← hstay]
            have hmove : Moves {.ping} n (n.posted ⟨X, p.serial⟩ p (Msg.new .ping)) :=
              .single (.send _ p _ hr hconn rfl)
            exact hmove.mem_peers Y
          · rw [pingsTo, posted, List.countP_append]
            by_cases hY : X = Y
            · subst hY
              simp [hevades, hreaches, pingsTo, Msg.setSequence, Msg.new]
            · have hzero : [X].count Y = 0 := List.count_eq_zero.mpr (by simpa using Ne.symm hY)
              simp [hY, hzero, pingsTo]
        · obtain rfl := Option.some_inj.mp (hr.symm.trans hq)
          refine hquiet ?_
          simp [reaches, hp, hconn]
      refine EStateM.wp_bind .. |>.mpr (EStateM.wp_mono hsend (fun _ n₁ h => ?_) fun _ _ h => h)
      refine EStateM.wp_bind .. |>.mpr (wp_emit.mpr (EStateM.wp_bind .. |>.mpr (EStateM.wp_get.mpr ?_)))
      refine EStateM.wp_ite .. |>.mpr ⟨fun _ => wp_emit.mpr ?_, fun _ => ?_⟩
      · exact h.congr rfl rfl rfl
      · exact h.congr rfl rfl rfl
    · refine hquiet ?_
      simp [evades, hp, hevasive]

/-- A pass over a list of entries. -/
theorem reap_visits : (reap env visited).wp (fun _ n' => Visits env n visited n') (fun _ _ => True) n := by
  refine EStateM.wp_forM_done (Visits env n) .refl ?_ fun _ h => h
  intro done X rest _ n₁ h
  refine EStateM.wp_bind .. |>.mpr (wp_lookupPeer.mpr ?_)
  cases hlook : n₁.peers.lookup X with
  | none =>
    refine h.skip fun hX => ?_
    rw [← AList.lookup_isSome, hlook] at hX
    cases hX
  | some p =>
    refine EStateM.wp_mono (pingPeer_visits hlook) (fun _ n₂ h₂ => ?_) fun _ _ h => h
    refine h.append (fun Y hY => ?_) h₂
    rw [List.mem_singleton.mp hY]
    exact AList.lookup_isSome.mp (by rw [hlook]; rfl)

/-! ### The iteration over the table -/

/-- The iteration over the entries of one bucket. Behind an entry that its visit has deleted, the rest
of the bucket is passed over. -/
def reapBucket (env : Env) : List CStr → NodeM Unit
  | [] => pure ⟨⟩
  | identity :: rest => do
    match ← lookupPeer identity with
    | none => pure ⟨⟩
    | some peer => do
      pingPeer env peer
      if (← lookupPeer identity).isSome then reapBucket env rest

/-- The reap loop of `zyre_node_actor` over a table with these buckets. -/
def reapBuckets (env : Env) (buckets : List (List CStr)) : NodeM Unit :=
  forM buckets (reapBucket env)

/-- The entries the iteration comes to. -/
def visits (env : Env) (n : Node) (buckets : List (List CStr)) : List CStr :=
  buckets.flatMap (List.upTo fun X => expires env n X = true)

/-- The buckets hold the entries of the table. -/
def Places (n : Node) (buckets : List (List CStr)) : Prop := buckets.flatten.Perm n.peers.keys

theorem nodup_of_places (h : n.Places buckets) : buckets.flatten.Nodup :=
  h.nodup_iff.mpr n.peers.keys_nodup

theorem mem_flatten_of_places (h : n.Places buckets) : X ∈ buckets.flatten ↔ X ∈ n.peers :=
  h.mem_iff.trans AList.mem_keys.symm

/-- A pass that begins with an entry of the table. -/
theorem reap_cons (hp : n.peers.lookup X = some p) :
    reap env (X :: visited) n = (do pingPeer env ⟨X, p.serial⟩; reap env visited : NodeM Unit) n := by
  have hvisit : (do
      match ← lookupPeer X with
      | none => pure ⟨⟩
      | some peer => pingPeer env peer : NodeM Unit) n = pingPeer env ⟨X, p.serial⟩ n := by
    change (match (n.peers.lookup X).map fun p => (⟨X, p.serial⟩ : PeerRef) with
      | none => pure ⟨⟩
      | some peer => pingPeer env peer : NodeM Unit) n = _
    rw [hp]
    rfl
  rw [reap, List.forM_cons]
  exact EStateM.bind_congr hvisit

theorem reapBucket_cons {rest : List CStr} (hp : n.peers.lookup X = some p) :
    reapBucket env (X :: rest) n = (do
      pingPeer env ⟨X, p.serial⟩
      if (← lookupPeer X).isSome then reapBucket env rest : NodeM Unit) n := by
  rw [reapBucket]
  change (match (n.peers.lookup X).map fun p => (⟨X, p.serial⟩ : PeerRef) with
    | none => pure ⟨⟩
    | some peer => (do
      pingPeer env peer
      if (← lookupPeer X).isSome then reapBucket env rest) : NodeM Unit) n = _
  rw [hp]
  rfl

/-- Of a bucket the iteration visits what comes up to the first entry that has expired. -/
theorem reapBucket_eq {n₁ : Node} {done bucket : List CStr} (h : Visits env n done n₁)
    (hbucket : ∀ X ∈ bucket, X ∈ n₁.peers) (hnodup : bucket.Nodup) :
    reapBucket env bucket n₁ = reap env (bucket.upTo fun X => expires env n X = true) n₁ := by
  induction bucket generalizing done n₁ with
  | nil => rfl
  | cons X rest ih =>
    obtain ⟨hnot, hrest⟩ := List.nodup_cons.mp hnodup
    have hX := hbucket X List.mem_cons_self
    obtain ⟨p, hp⟩ := Option.isSome_iff_exists.mp (AList.lookup_isSome.mpr hX)
    have hupTo : ∃ l, (X :: rest).upTo (fun X => expires env n X = true) = X :: l ∧
        l = if expires env n X then [] else rest.upTo fun X => expires env n X = true := by
      rw [List.upTo]
      split_ifs <;> exact ⟨_, rfl, rfl⟩
    obtain ⟨l, hcons, hl⟩ := hupTo
    rw [reapBucket_cons hp, hcons, reap_cons hp]
    cases hrun : pingPeer env ⟨X, p.serial⟩ n₁ with
    | error fault n₂ => rw [EStateM.bind_of_error hrun, EStateM.bind_of_error hrun]
    | ok u n₂ =>
      rw [EStateM.bind_of_ok hrun, EStateM.bind_of_ok hrun]
      change (if ((n₂.peers.lookup X).map fun p => (⟨X, p.serial⟩ : PeerRef)).isSome then
        reapBucket env rest else pure ⟨⟩ : NodeM Unit) n₂ = _
      have hvisit : Visits env n₁ [X] n₂ := (EStateM.wp_of_ok hrun (pingPeer_visits hp) :)
      obtain ⟨hexpires, -, -⟩ := stamp_of_inherits env h.stamp hX
      have hgone : X ∈ n₂.peers ↔ expires env n X = false := by
        rw [hvisit.mem, hexpires]
        simp [hX]
      rw [Option.isSome_map]
      by_cases hexp : expires env n X = true
      · -- The entry is gone, and the rest of its bucket is passed over.
        have hlook : n₂.peers.lookup X = none := AList.lookup_eq_none.mpr fun hmem => by
          rw [hgone.mp hmem] at hexp
          cases hexp
        rw [hl, hexp, hlook]
        rfl
      · have hlook := AList.lookup_isSome.mpr (hgone.mpr (Bool.eq_false_iff.mpr hexp))
        rw [hl, if_neg hexp, if_pos hlook]
        have hsingle : ∀ Y ∈ [X], Y ∈ n₁.peers := by
          intro Y hY
          rwa [List.mem_singleton.mp hY]
        refine ih (h.append hsingle hvisit) (fun Y hY => ?_) hrest
        refine (hvisit.mem Y).mpr ⟨hbucket Y (List.mem_cons_of_mem X hY), fun hsame => ?_⟩
        rw [List.mem_singleton] at hsame
        exact hnot (hsame.1 ▸ hY)

/-- The loop over the table is the pass over what the iteration visits. -/
theorem reapBuckets_eq (h : n.Places buckets) :
    reapBuckets env buckets n = reap env (visits env n buckets) n := by
  have hnodup := nodup_of_places h
  have hmem : ∀ X ∈ buckets.flatten, X ∈ n.peers := fun X => (mem_flatten_of_places h).mp
  -- Over some of the buckets, with those before them done.
  have hrest : ∀ (ls : List (List CStr)) (done : List CStr) (n₁ : Node), (done ++ ls.flatten).Nodup →
      (∀ X ∈ ls.flatten, X ∈ n.peers) → Visits env n done n₁ →
      reapBuckets env ls n₁ = reap env (visits env n ls) n₁ := by
    intro ls
    induction ls with
    | nil => intro done n₁ _ _ _; rfl
    | cons bucket ls ih =>
      intro done n₁ hall hpeers hvisits
      rw [List.flatten_cons] at hall hpeers
      have hdone : ∀ X ∈ bucket ++ ls.flatten, X ∈ n₁.peers := by
        intro X hX
        refine (hvisits.mem X).mpr ⟨hpeers X hX, fun hbefore => ?_⟩
        exact List.disjoint_of_nodup_append hall hbefore.1 hX
      have hbucket : bucket.Nodup := (List.nodup_append.mp (List.nodup_append.mp hall).2.1).1
      have heq := reapBucket_eq hvisits (fun X hX => hdone X (List.mem_append_left _ hX)) hbucket
      rw [reapBuckets, List.forM_cons, visits, List.flatMap_cons, reap, List.forM_append]
      refine (EStateM.bind_congr heq).trans ?_
      cases hrun : reap env (bucket.upTo fun X => expires env n X = true) n₁ with
      | error fault n₂ =>
        rw [EStateM.bind_of_error hrun]
        exact (EStateM.bind_of_error hrun).symm
      | ok u n₂ =>
        rw [EStateM.bind_of_ok hrun]
        refine Eq.trans ?_ (EStateM.bind_of_ok hrun).symm
        have hafter : Visits env n₁ (bucket.upTo fun X => expires env n X = true) n₂ :=
          (EStateM.wp_of_ok hrun reap_visits :)
        refine ih _ n₂ (hall.sublist ?_) (fun X hX => hpeers X (List.mem_append_right _ hX))
          (hvisits.append (fun X hX => hdone X ?_) hafter)
        · rw [List.append_assoc]
          exact (List.Sublist.refl done).append (List.upTo_sublist.append (.refl _))
        · exact List.mem_append_left _ (List.mem_of_mem_upTo hX)
  exact hrest buckets [] n hnodup hmem .refl

/-! ### What a pass passes over -/

/-- The pass from `n` to `n'` has handled every peer: those that had expired are gone, and every other
that was evasive was sent one PING. -/
structure Handled (env : Env) (n n' : Node) : Prop where
  gone : ∀ X p, n.peers.lookup X = some p → p.expiredAt.toInt64 ≤ env.now → X ∉ n'.peers
  pinged : ∀ X p, n.peers.lookup X = some p → ¬p.expiredAt.toInt64 ≤ env.now →
    p.evasiveAt.toInt64 ≤ env.now → n'.pingsTo X = n.pingsTo X + 1

/-- No peer that has expired stands in its bucket before another that has, or that is evasive. -/
def Unobstructed (env : Env) (n : Node) (buckets : List (List CStr)) : Prop :=
  ∀ bucket ∈ buckets, bucket.Pairwise fun X Y =>
    expires env n X = true → ¬(expires env n Y = true ∨ evades env n Y = true)

theorem expires_iff : expires env n X = true ↔
    ∃ p, n.peers.lookup X = some p ∧ p.expiredAt.toInt64 ≤ env.now := by
  simp [expires, Option.any_eq_true]

theorem evades_iff : evades env n X = true ↔ ∃ p, n.peers.lookup X = some p ∧
    ¬p.expiredAt.toInt64 ≤ env.now ∧ p.evasiveAt.toInt64 ≤ env.now := by
  simp [evades, Option.any_eq_true]

/-- A pass handles every peer exactly if the iteration comes to all those that have expired or are
evasive, and the latter have mailboxes. -/
theorem handled_iff_visits (hnodup : visited.Nodup) (h : Visits env n visited n') :
    Handled env n n' ↔ (∀ X, expires env n X = true ∨ evades env n X = true → X ∈ visited) ∧
      ∀ X, evades env n X = true → n.reaches X = true := by
  have hpings : ∀ X, evades env n X = true →
      (n'.pingsTo X = n.pingsTo X + 1 ↔ X ∈ visited ∧ n.reaches X = true) := by
    intro X hevades
    have hcount : visited.count X ≤ 1 := List.nodup_iff_count_le_one.mp hnodup X
    have hmem : X ∈ visited ↔ 0 < visited.count X := List.count_pos_iff.symm
    rw [h.pings, hevades, Bool.true_and, hmem]
    split_ifs with hreaches
    · simp only [hreaches, and_true]
      omega
    · simp [hreaches]
  constructor
  · rintro ⟨hgone, hpinged⟩
    have hall : ∀ X, evades env n X = true → X ∈ visited ∧ n.reaches X = true := by
      intro X hevades
      obtain ⟨p, hp, hnot, hevasive⟩ := evades_iff.mp hevades
      exact (hpings X hevades).mp (hpinged X p hp hnot hevasive)
    refine ⟨fun X hX => ?_, fun X hX => (hall X hX).2⟩
    rcases hX with hexpires | hevades
    · obtain ⟨p, hp, hexpired⟩ := expires_iff.mp hexpires
      by_contra hnot
      refine hgone X p hp hexpired ((h.mem X).mpr ⟨?_, fun hdone => hnot hdone.1⟩)
      exact AList.lookup_isSome.mp (by rw [hp]; rfl)
    · exact (hall X hevades).1
  · rintro ⟨hvisited, hreaches⟩
    constructor
    · intro X p hp hexpired hX
      have hexpires := expires_iff.mpr ⟨p, hp, hexpired⟩
      exact ((h.mem X).mp hX).2 ⟨hvisited X (Or.inl hexpires), hexpires⟩
    · intro X p hp hnot hevasive
      have hevades := evades_iff.mpr ⟨p, hp, hnot, hevasive⟩
      exact (hpings X hevades).mpr ⟨hvisited X (Or.inr hevades), hreaches X hevades⟩

/-- **A pass.** The loop over the table handles every peer, that is, removes those that have expired and
pings those that are evasive, exactly if none is obstructed and those that are evasive have mailboxes. A
peer that has expired obstructs those behind it in its bucket that are to be removed or pinged: its entry is
deleted while the loop stands on it, and the rest of the bucket is skipped. The table may have any number of
buckets, filled in any way. -/
theorem handled_iff (hplaces : n.Places buckets) (h : reapBuckets env buckets n = .ok ⟨⟩ n') :
    Handled env n n' ↔ Unobstructed env n buckets ∧
      ∀ X, evades env n X = true → n.reaches X = true := by
  have hnodup := nodup_of_places hplaces
  have hvisits : Visits env n (visits env n buckets) n' := by
    rw [reapBuckets_eq hplaces] at h
    exact (EStateM.wp_of_ok h reap_visits :)
  rw [handled_iff_visits (List.flatMap_upTo_sublist.nodup hnodup) hvisits, Unobstructed,
    ← List.forall_mem_flatMap_upTo hnodup]
  refine and_congr_left fun _ => ⟨fun hall X _ hX => hall X hX, fun hall X hX => hall X ?_ hX⟩
  refine (mem_flatten_of_places hplaces).mpr ?_
  rcases hX with hexpires | hevades
  · obtain ⟨p, hp, -⟩ := expires_iff.mp hexpires
    exact AList.lookup_isSome.mp (by rw [hp]; rfl)
  · obtain ⟨p, hp, -⟩ := evades_iff.mp hevades
    exact AList.lookup_isSome.mp (by rw [hp]; rfl)

/-- The node once it has discovered a second peer. -/
def pairNode : Node :=
  final (Node.step (sampleEnv 0) (.api (.requirePeer (sampleUuid 2) (sampleEndpoint 'q') none))
    (momentAt 0 sampleDiscovery sampleNode).after)

/-- The pass over its table at a clock. -/
def pairPass (now : Int64) (buckets : List (List CStr)) : Node :=
  final (reapBuckets (sampleEnv now) buckets pairNode)

/-- Both peers expire, in two buckets. -/
theorem handled_pairNode : Handled (sampleEnv 30000) pairNode
    (pairPass 30000 [[(sampleUuid 1).str], [(sampleUuid 2).str]]) := by
  have hplaces : pairNode.Places [[(sampleUuid 1).str], [(sampleUuid 2).str]] :=
    List.isPerm_iff.mp (by decide +kernel)
  refine (handled_iff hplaces (eq_of_isOk (by decide +kernel))).mpr ⟨?_, fun X hX => ?_⟩
  · intro bucket hbucket
    simp only [List.mem_cons, List.not_mem_nil, or_false] at hbucket
    rcases hbucket with rfl | rfl
    · exact List.pairwise_singleton _ _
    · exact List.pairwise_singleton _ _
  · obtain ⟨p, hp, -⟩ := evades_iff.mp hX
    have hall : ∀ Y ∈ pairNode.peers.keys, evades (sampleEnv 30000) pairNode Y = true →
        pairNode.reaches Y = true := by
      decide +kernel
    exact hall X (AList.mem_keys.mp (AList.lookup_isSome.mp (by rw [hp]; rfl))) hX

/-- In one bucket the first is removed, and the second passed over. -/
theorem not_handled_of_bucket : ¬∀ (env : Env) (n n' : Node) (buckets : List (List CStr)),
    n.Places buckets → reapBuckets env buckets n = .ok ⟨⟩ n' → Handled env n n' := by
  intro h
  have hplaces : pairNode.Places [[(sampleUuid 1).str, (sampleUuid 2).str]] :=
    List.isPerm_iff.mp (by decide +kernel)
  have hhandled := h (sampleEnv 30000) _ _ _ hplaces (eq_of_isOk (by decide +kernel))
  obtain ⟨p, hp, hexpired⟩ : ∃ p, pairNode.peers.lookup (sampleUuid 2).str = some p ∧
      p.expiredAt.toInt64 ≤ (sampleEnv 30000).now :=
    expires_iff.mp (by decide +kernel)
  exact hhandled.gone _ p hp hexpired (AList.lookup_isSome.mp (by decide +kernel))

end Node

end Zyre
