import Zyre.Node.Inputs

/-!
# What a node posts to one peer

Every mailbox carries a HELLO with number 1 and behind it messages numbered one up, none of them a
HELLO, and the mailboxes to one peer follow each other: `Posted` says so of all the messages a node has
ever handed to mailboxes of the peer, with what the node's status and groups were when it did.
`Posted.step` shows that no input breaks it.
-/

namespace Zyre

/-- A message on its way: the mailbox, and what the status and the groups of the sender were right
after the step that posted it. -/
structure Letter where
  box : PeerRef
  msg : Msg
  status : UInt8
  groups : List CStr

namespace Letter

/-- A letter that opens a mailbox: a HELLO with number 1, the sender's status and its groups. -/
structure Opens (l : Letter) : Prop where
  id : l.msg.id = .hello
  sequence : l.msg.sequence = 1
  status : l.msg.status = l.status
  groups : l.msg.groups = some l.groups
  endpoint : l.msg.endpoint.length ≤ Msg.fieldSize

/-- From one letter to the next the sender's groups change by what the letter says. -/
def Regroups (l l' : Letter) : Prop :=
  match l'.msg.id with
  | .join => ∃ name ∉ l.groups, l'.msg.group = name.truncate Msg.fieldSize ∧
      l'.groups = l.groups ++ [name] ∧ l'.status = l.status + 1 ∧ l'.msg.status = l'.status
  | .leave => ∃ name ∈ l.groups, l'.msg.group = name.truncate Msg.fieldSize ∧
      l'.groups = l.groups.erase name ∧ l'.status = l.status + 1 ∧ l'.msg.status = l'.status
  | _ => l'.groups = l.groups ∧ l'.status = l.status

/-- How a letter follows the one before: on the same mailbox, numbered one up, or as the first on a
later one. -/
inductive Follows (l l' : Letter) : Prop
  | next (hbox : l'.box = l.box) (hid : l'.msg.id ≠ .hello) (hset : l'.msg.id ≠ .unset)
      (hseq : l'.msg.sequence = l.msg.sequence + 1) (hregroups : l.Regroups l')
  | renewed (hbox : l.box.serial < l'.box.serial) (hopens : l'.Opens)

/-- JOIN and LEAVE carry the name as far as there is room for it. -/
theorem Regroups.group {l l' : Letter} (h : l.Regroups l') (hid : l'.msg.id = .join ∨ l'.msg.id = .leave) :
    ∃ name : CStr, l'.msg.group = name.truncate Msg.fieldSize := by
  unfold Regroups at h
  split at h
  case h_1 =>
    obtain ⟨name, -, hname, -⟩ := h
    exact ⟨name, hname⟩
  case h_2 =>
    obtain ⟨name, -, hname, -⟩ := h
    exact ⟨name, hname⟩
  case h_3 hjoin hleave => exact absurd hid (by tauto)

theorem regroups_of_talk {l l' : Letter} (hid : l'.msg.id ∈ Node.talk) (hgroups : l'.groups = l.groups)
    (hstatus : l'.status = l.status) : l.Regroups l' := by
  obtain ⟨-, hjoin, hleave, -⟩ := hid
  unfold Regroups
  split
  · contradiction
  · contradiction
  · exact ⟨hgroups, hstatus⟩

end Letter

namespace Node

variable {n n' : Node} {X : CStr} {sent : List Letter} {D : Set CStr}

/-- The messages handed to mailboxes of `X`. -/
def mailTo (n : Node) (X : CStr) : List (PeerRef × Msg) := n.mail.filter fun m => m.1.identity = X

/-- `sent` are the letters the node has posted to `X`. -/
structure Posted (n : Node) (X : CStr) (sent : List Letter) : Prop where
  mail : n.mailTo X = sent.map fun l => (l.box, l.msg)
  chain : sent.IsChain Letter.Follows
  head : ∀ l ∈ sent.head?, l.Opens
  serials : ∀ l ∈ sent, l.box.serial < n.serial
  /-- The mailbox of the entry, if it is connected, is the one of the last letter. -/
  last : ∀ p, n.peers.lookup X = some p → p.connected = true → ∃ l ∈ sent.getLast?,
    l.box = ⟨X, p.serial⟩ ∧ l.msg.sequence = p.sentSequence ∧ l.status = n.status ∧
      l.groups = n.ownGroups

/-- Letters that carry the node's status and groups as they are. -/
def Stamped (n : Node) (ls : List Letter) : Prop :=
  ∀ l ∈ ls, l.status = n.status ∧ l.groups = n.ownGroups

/-! ### One change -/

/-- Nothing is posted to `X`, and its mailbox is the one it was, or closed. -/
theorem Posted.same (h : n.Posted X sent) (hmail : n'.mailTo X = n.mailTo X)
    (hserial : n.serial ≤ n'.serial) (hstatus : n'.status = n.status)
    (hgroups : n'.ownGroups = n.ownGroups)
    (hentry : ∀ p', n'.peers.lookup X = some p' → p'.connected = true → ∃ p,
      n.peers.lookup X = some p ∧ p.connected = true ∧ p'.serial = p.serial ∧
        p'.sentSequence = p.sentSequence) : n'.Posted X sent where
  mail := hmail.trans h.mail
  chain := h.chain
  head := h.head
  serials l hl := (h.serials l hl).trans_le hserial
  last p' hp' hconn' := by
    obtain ⟨p, hp, hconn, hser, hsent⟩ := hentry p' hp' hconn'
    obtain ⟨l, hl, hbox, hseq, hst, hgr⟩ := h.last p hp hconn
    exact ⟨l, hl, hser ▸ hbox, hsent ▸ hseq, hst.trans hstatus.symm, hgr.trans hgroups.symm⟩

/-- One more letter, on the mailbox of the entry. -/
theorem Posted.append (h : n.Posted X sent) {l : Letter}
    (hmail : n'.mailTo X = n.mailTo X ++ [(l.box, l.msg)])
    (hfollows : ∀ l₀ ∈ sent.getLast?, l₀.Follows l) (hopens : sent = [] → l.Opens)
    (hserial : n.serial ≤ n'.serial) (hbox : l.box.serial < n'.serial)
    (hlast : ∀ p, n'.peers.lookup X = some p → p.connected = true →
      l.box = ⟨X, p.serial⟩ ∧ l.msg.sequence = p.sentSequence ∧ l.status = n'.status ∧
        l.groups = n'.ownGroups) : n'.Posted X (sent ++ [l]) where
  mail := by rw [hmail, h.mail, List.map_append]; rfl
  chain := by
    refine List.isChain_append.mpr ⟨h.chain, .singleton l, fun l₀ hl₀ l' hl' => ?_⟩
    obtain rfl := Option.some_inj.mp hl'
    exact hfollows l₀ hl₀
  head := by
    intro l' hl'
    cases hsent : sent with
    | nil =>
      rw [hsent] at hl'
      obtain rfl := Option.some_inj.mp hl'
      exact hopens hsent
    | cons l₀ rest =>
      rw [hsent] at hl'
      refine h.head l' ?_
      rw [hsent]
      exact hl'
  serials l' hl' := by
    rcases List.mem_append.mp hl' with hl' | hl'
    · exact (h.serials l' hl').trans_le hserial
    · exact List.mem_singleton.mp hl' ▸ hbox
  last p hp hconn := ⟨l, by simp, hlast p hp hconn⟩

theorem mailTo_append (m : PeerRef × Msg) :
    mailTo { n with mail := n.mail ++ [m] } X =
      n.mailTo X ++ if m.1.identity = X then [m] else [] := by
  simp only [mailTo, List.filter_append]
  split_ifs with h <;> simp [h]

theorem connected_purgePeer {endpoint : CStr} {p : Peer}
    (h : (purgePeer endpoint p).connected = true) : purgePeer endpoint p = p := by
  unfold purgePeer at h ⊢
  split_ifs at h ⊢ with hend
  · rw [Peer.disconnect_connected] at h
    cases h
  · rfl

/-- A message to `X` on the mailbox of its entry. -/
theorem Posted.posted (h : n.Posted X sent) {r : PeerRef} {p : Peer} {msg : Msg}
    (hr : n.deref r = some p) (hc : p.connected = true) (hX : r.identity = X)
    (hid : msg.id ≠ .hello) (hset : msg.id ≠ .unset) {l : Letter}
    (hl : l.box = r ∧ l.msg = msg.setSequence (p.sentSequence + 1))
    (hregroups : ∀ l₀ ∈ sent.getLast?, l₀.status = n.status → l₀.groups = n.ownGroups →
      l₀.Regroups l)
    (hmail : n'.mailTo X = n.mailTo X ++ [(l.box, l.msg)]) (hserial : n'.serial = n.serial)
    (hentry : n'.peers.lookup X = some { p with sentSequence := p.sentSequence + 1 })
    (hstatus : l.status = n'.status) (hgroups : l.groups = n'.ownGroups) :
    n'.Posted X (sent ++ [l]) := by
  subst hX
  obtain ⟨hbox, hmsg⟩ := hl
  have hser := serial_of_deref hr
  obtain ⟨l₀, hl₀, hbox₀, hseq₀, hst₀, hgr₀⟩ := h.last p (lookup_of_deref hr) hc
  have hr' : l.box = ⟨r.identity, p.serial⟩ := by rw [hbox, hser]
  refine h.append hmail ?_ ?_ hserial.ge ?_ ?_
  · intro l₁ hl₁
    obtain rfl := Option.some_inj.mp (hl₀.symm.trans hl₁)
    refine .next (hr'.trans hbox₀.symm) ?_ ?_ ?_ (hregroups l₀ hl₀ hst₀ hgr₀)
    · rw [hmsg]; exact hid
    · rw [hmsg]; exact hset
    · rw [hmsg, hseq₀]; rfl
  · rintro rfl
    cases hl₀
  · have hlt := h.serials l₀ (List.mem_of_getLast? hl₀)
    rw [hbox₀] at hlt
    rw [hr', hserial]
    exact hlt
  · intro q hq _
    obtain rfl := Option.some_inj.mp (hentry.symm.trans hq)
    exact ⟨hr', by rw [hmsg]; rfl, hstatus, hgroups⟩

theorem Posted.move (h : n.Posted X sent) (hmove : Move talk n n') :
    ∃ ls, n'.Posted X (sent ++ ls) ∧ n'.Stamped ls := by
  have hsame : n'.Posted X sent → ∃ ls, n'.Posted X (sent ++ ls) ∧ n'.Stamped ls :=
    fun h => ⟨[], by rwa [List.append_nil], nofun⟩
  cases hmove with
  | send r p msg hr hc hid =>
    by_cases hX : r.identity = X
    · refine ⟨[⟨r, msg.setSequence (p.sentSequence + 1), n.status, n.ownGroups⟩], ?_, ?_⟩
      · refine h.posted hr hc hX hid.1 hid.2.2.2 ⟨rfl, rfl⟩ ?_ ?_ rfl ?_ rfl rfl
        · intro l₀ _ hst hgr
          exact Letter.regroups_of_talk hid hgr.symm hst.symm
        · refine (mailTo_append _).trans ?_
          rw [if_pos hX]
        · subst hX
          simp [Node.posted, lookup_of_deref hr]
      · intro l hl
        obtain rfl := List.mem_singleton.mp hl
        exact ⟨rfl, rfl⟩
    · refine hsame (h.same ?_ le_rfl rfl rfl fun p' hp' hconn' => ?_)
      · refine (mailTo_append _).trans ?_
        rw [if_neg hX, List.append_nil]
      · refine ⟨p', ?_, hconn', rfl, rfl⟩
        simpa [Node.posted, AList.lookup_modify_ne (Ne.symm hX)] using hp'
  | group name f hf => exact hsame (h.same rfl le_rfl rfl rfl fun p' hp' hc => ⟨p', hp', hc, rfl, rfl⟩)
  | addGroup name => exact hsame (h.same rfl le_rfl rfl rfl fun p' hp' hc => ⟨p', hp', hc, rfl, rfl⟩)
  | emit e he => exact hsame (h.same rfl le_rfl rfl rfl fun p' hp' hc => ⟨p', hp', hc, rfl, rfl⟩)

/-- A change posts letters with the node's status and groups. -/
theorem Posted.change (h : n.Posted X sent) (hchange : Change D n n') :
    ∃ ls, n'.Posted X (sent ++ ls) ∧ n'.Stamped ls := by
  have hsame : n'.Posted X sent → ∃ ls, n'.Posted X (sent ++ ls) ∧ n'.Stamped ls :=
    fun h => ⟨[], by rwa [List.append_nil], nofun⟩
  have hkept : n'.mailTo X = n.mailTo X → n.serial ≤ n'.serial →
      (∀ p', n'.peers.lookup X = some p' → p'.connected = true → ∃ p,
        n.peers.lookup X = some p ∧ p.connected = true ∧ p'.serial = p.serial ∧
          p'.sentSequence = p.sentSequence) →
      ∃ ls, n'.Posted X (sent ++ ls) ∧ n'.Stamped ls := fun hmail hserial hentry =>
    hsame (h.same hmail hserial hchange.status hchange.ownGroups hentry)
  cases hchange with
  | move hmove => exact h.move hmove
  | peer Y p f hY hserial hconn hsent =>
    refine hkept rfl le_rfl fun p' hp' hc' => ?_
    simp only [AList.lookup_modify] at hp'
    split_ifs at hp' with hXY
    · subst hXY
      rw [hY] at hp'
      obtain rfl := Option.some_inj.mp hp'
      exact ⟨p, hY, hconn ▸ hc', hserial, hsent⟩
    · exact ⟨p', hp', hc', rfl, rfl⟩
  | join name r hr => exact hkept rfl le_rfl fun p' hp' hc => ⟨p', hp', hc, rfl, rfl⟩
  | leave name r => exact hkept rfl le_rfl fun p' hp' hc => ⟨p', hp', hc, rfl, rfl⟩
  | contest name => exact hkept rfl le_rfl fun p' hp' hc => ⟨p', hp', hc, rfl, rfl⟩
  | purge endpoint =>
    refine hkept rfl le_rfl fun p' hp' hc' => ?_
    simp only [purged, AList.lookup_mapValues] at hp'
    obtain ⟨p, hp, rfl⟩ := Option.map_eq_some_iff.mp hp'
    have hpurged := connected_purgePeer hc'
    rw [hpurged] at hc' ⊢
    exact ⟨p, hp, hc', rfl, rfl⟩
  | count => exact hkept rfl (Nat.le_succ _) fun p' hp' hc => ⟨p', hp', hc, rfl, rfl⟩
  | create Y q hY hserial hconn =>
    refine hkept ?_ (Nat.le_succ _) fun p' hp' hc' => ?_
    · simp [mailTo, opening]
    · simp only [opening, AList.lookup_insert'] at hp'
      split_ifs at hp' with hXY
      · obtain rfl := Option.some_inj.mp hp'
        exact absurd (hconn.symm.trans hc') Bool.false_ne_true
      · exact ⟨p', hp', hc', rfl, rfl⟩
  | greet Y q msg hY hserial hconn hsent hid hseq hgroups hstatus hendpoint =>
    have hmail : (n.opening Y q [(⟨Y, n.serial⟩, msg)]).mailTo X =
        n.mailTo X ++ if Y = X then [(⟨Y, n.serial⟩, msg)] else [] := mailTo_append (n := n) _
    by_cases hXY : Y = X
    · subst hXY
      rw [if_pos rfl] at hmail
      have hopens : Letter.Opens ⟨⟨Y, n.serial⟩, msg, n.status, n.ownGroups⟩ :=
        ⟨hid, hseq, hstatus, hgroups, hendpoint⟩
      refine ⟨[⟨⟨Y, n.serial⟩, msg, n.status, n.ownGroups⟩], h.append hmail ?_ ?_ ?_ ?_ ?_, ?_⟩
      · exact fun l₀ hl₀ => .renewed (h.serials l₀ (List.mem_of_getLast? hl₀)) hopens
      · exact fun _ => hopens
      · exact Nat.le_succ _
      · exact Nat.lt_succ_self _
      · intro p hp _
        simp only [opening, AList.lookup_insert] at hp
        obtain rfl := Option.some_inj.mp hp
        exact ⟨by rw [hserial], hseq.trans hsent.symm, rfl, rfl⟩
      · intro l hl
        obtain rfl := List.mem_singleton.mp hl
        exact ⟨rfl, rfl⟩
    · rw [if_neg hXY, List.append_nil] at hmail
      refine hkept hmail (Nat.le_succ _) fun p' hp' hc' => ?_
      simp only [opening, AList.lookup_insert_ne (Ne.symm hXY)] at hp'
      exact ⟨p', hp', hc', rfl, rfl⟩
  | remove Y hY hgone =>
    refine hkept rfl le_rfl fun p' hp' hc' => ?_
    rw [AList.lookup_erase'] at hp'
    split_ifs at hp'
    exact ⟨p', hp', hc', rfl, rfl⟩
  | know hpeers hgroups hserial hmail huuid hown hstatus =>
    refine hkept (by rw [mailTo, hmail]; rfl) hserial.ge fun p' hp' hc' => ?_
    rw [hpeers] at hp'
    exact ⟨p', hp', hc', rfl, rfl⟩

theorem Posted.changes (h : n.Posted X sent) (hchanges : Changes D n n') :
    ∃ ls, n'.Posted X (sent ++ ls) ∧ n'.Stamped ls := by
  induction hchanges with
  | refl => exact ⟨[], by rwa [List.append_nil], nofun⟩
  | tail _ hchange ih =>
    obtain ⟨ls, hposted, hstamped⟩ := ih
    obtain ⟨ls', hposted', hstamped'⟩ := hposted.change hchange
    refine ⟨ls ++ ls', by rwa [← List.append_assoc], fun l hl => ?_⟩
    rcases List.mem_append.mp hl with hl | hl
    · obtain ⟨hst, hgr⟩ := hstamped l hl
      exact ⟨hst.trans hchange.status.symm, hgr.trans hchange.ownGroups.symm⟩
    · exact hstamped' l hl

/-! ### JOIN and LEAVE -/

/-- `msg` has been posted to `X`, if its mailbox is connected. -/
structure Mailed (msg : Msg) (X : CStr) (n n' : Node) : Prop where
  own : n'.own = n.own
  serial : n'.serial = n.serial
  connected : ∀ p, n.peers.lookup X = some p → p.connected = true →
    n'.mailTo X = n.mailTo X ++ [(⟨X, p.serial⟩, msg.setSequence (p.sentSequence + 1))] ∧
      n'.peers.lookup X = some { p with sentSequence := p.sentSequence + 1 }
  closed : (∀ p, n.peers.lookup X = some p → p.connected = false) →
    n'.mailTo X = n.mailTo X ∧ n'.peers.lookup X = n.peers.lookup X

/-- A loop that sends the message to different peers reaches every one of them once. -/
theorem forM_peerSend_mailed {α : Type} {f : α → PeerRef} {es : List α} (msg : Msg) (X : CStr)
    (hnodup : (es.map fun e => (f e).identity).Nodup) (hlive : ∀ e ∈ es, n.Live (f e)) :
    (forM es fun e => peerSend (f e) msg : NodeM Unit).wp
      (fun _ n' => n'.own = n.own ∧ n'.serial = n.serial ∧
        (X ∈ es.map (fun e => (f e).identity) → Mailed msg X n n') ∧
        (X ∉ es.map (fun e => (f e).identity) →
          n'.mailTo X = n.mailTo X ∧ n'.peers.lookup X = n.peers.lookup X)) (fun _ _ => True) n := by
  refine EStateM.wp_forM_done (fun done n₁ => n₁.own = n.own ∧ n₁.serial = n.serial ∧
    (X ∈ done.map (fun e => (f e).identity) → Mailed msg X n n₁) ∧
    (X ∉ done.map (fun e => (f e).identity) →
      n₁.mailTo X = n.mailTo X ∧ n₁.peers.lookup X = n.peers.lookup X))
    ⟨rfl, rfl, nofun, fun _ => ⟨rfl, rfl⟩⟩ ?_ fun _ h => h
  rintro done e rest hes n₁ ⟨hown, hserial, hdone, hnot⟩
  obtain ⟨q, hq⟩ := (hlive e (by rw [← hes]; simp)).exists
  have hfresh : (f e).identity ∉ done.map fun e => (f e).identity := by
    rw [← hes, List.map_append, List.map_cons, List.nodup_append] at hnodup
    exact fun h => hnodup.2.2 _ h _ List.mem_cons_self rfl
  by_cases hX : (f e).identity = X
  · -- The round that is about `X`.
    subst hX
    obtain ⟨hmail, hlook⟩ := hnot hfresh
    have hq₁ : n₁.deref (f e) = some q := by rw [deref, hlook]; exact hq
    have hlookup := lookup_of_deref hq
    have href : f e = ⟨(f e).identity, q.serial⟩ := by rw [serial_of_deref hq]
    have hmem : (f e).identity ∈ (done ++ [e]).map fun e => (f e).identity := by simp
    refine wp_peerSend.mpr ⟨fun p hp hc => ?_, fun p hp hc => ?_, fun _ => trivial⟩
    · obtain rfl := Option.some_inj.mp (hq₁.symm.trans hp)
      have hmailed : Mailed msg (f e).identity n (n₁.posted (f e) q msg) := {
        own := hown
        serial := hserial
        connected := fun p' hp' _ => by
          obtain rfl := Option.some_inj.mp (hlookup.symm.trans hp')
          refine ⟨?_, ?_⟩
          · rw [← href]
            refine (mailTo_append _).trans ?_
            rw [if_pos rfl]
            exact congrArg (· ++ _) hmail
          · simp [Node.posted, hlook, hlookup]
        closed := fun h => absurd ((h q hlookup).symm.trans hc) Bool.false_ne_true }
      exact ⟨hown, hserial, fun _ => hmailed, fun h => absurd hmem h⟩
    · obtain rfl := Option.some_inj.mp (hq₁.symm.trans hp)
      have hmailed : Mailed msg (f e).identity n n₁ := {
        own := hown
        serial := hserial
        connected := fun p' hp' hc' => by
          obtain rfl := Option.some_inj.mp (hlookup.symm.trans hp')
          exact absurd (hc.symm.trans hc') Bool.false_ne_true
        closed := fun _ => ⟨hmail, hlook⟩ }
      exact ⟨hown, hserial, fun _ => hmailed, fun h => absurd hmem h⟩
  · -- The other rounds change nothing about `X`.
    have hmem : X ∈ (done ++ [e]).map (fun e => (f e).identity) ↔
        X ∈ done.map fun e => (f e).identity := by simp [Ne.symm hX]
    simp only [hmem]
    refine wp_peerSend.mpr ⟨fun p hp hc => ?_, fun _ _ _ => ⟨hown, hserial, hdone, hnot⟩,
      fun _ => trivial⟩
    have hmail : (n₁.posted (f e) p msg).mailTo X = n₁.mailTo X := by
      refine (mailTo_append _).trans ?_
      rw [if_neg hX, List.append_nil]
    have hlook : (n₁.posted (f e) p msg).peers.lookup X = n₁.peers.lookup X := by
      simp [Node.posted, AList.lookup_modify_ne (Ne.symm hX)]
    refine ⟨hown, hserial, fun h => ?_, fun h => ?_⟩
    · obtain ⟨hown', hserial', hconnected, hclosed⟩ := hdone h
      rw [← hmail, ← hlook] at hconnected hclosed
      exact ⟨hown', hserial', hconnected, hclosed⟩
    · rw [hmail, hlook]
      exact hnot h

/-- The loop over the peers. -/
theorem sendPeers_mailed (msg : Msg) (X : CStr) :
    (sendPeers msg).wp (fun _ n' => Mailed msg X n n') (fun _ _ => True) n := by
  refine EStateM.wp_bind .. |>.mpr (EStateM.wp_get.mpr ?_)
  have hnodup : (n.peers.entries.map Sigma.fst).Nodup := n.peers.nodupKeys
  have hlive : ∀ e ∈ n.peers.entries, n.Live ⟨e.1, e.2.serial⟩ := fun e he =>
    live_of_deref (deref_of_lookup (AList.mem_lookup_iff.mpr he))
  refine EStateM.wp_mono (forM_peerSend_mailed
    (f := fun e : Sigma fun _ : CStr => Peer => ⟨e.1, e.2.serial⟩) msg X hnodup hlive)
    (fun _ n' h => ?_) fun _ _ h => h
  obtain ⟨hown, hserial, hmem, hnot⟩ := h
  by_cases hX : X ∈ n.peers.entries.map Sigma.fst
  · exact hmem hX
  · have hnone : n.peers.lookup X = none := AList.lookup_eq_none.mpr hX
    exact ⟨hown, hserial, (fun p hp => nomatch hnone.symm.trans hp), fun _ => hnot hX⟩

/-- The loop over the members of a group. -/
theorem groupSend_mailed (hn : n.Sturdy) (name : CStr) (msg : Msg) (X : CStr) :
    (groupSend name msg).wp (fun _ n' => (X ∈ n.members name → Mailed msg X n n') ∧
      (X ∉ n.members name → n'.mailTo X = n.mailTo X)) (fun _ _ => False) n := by
  have hmember : ∀ e ∈ (n.members name).entries, e.2.identity = e.1 ∧ n.Live e.2 := fun e he =>
    hn.members name e.1 e.2 (AList.mem_lookup_iff.mpr he)
  have hkeys : ((n.members name).entries.map fun e => e.2.identity) = (n.members name).keys :=
    List.map_congr_left fun e he => (hmember e he).1
  have hloop := forM_peerSend_mailed (f := fun e : Sigma fun _ : CStr => PeerRef => e.2) msg X
    (hkeys ▸ (n.members name).nodupKeys) fun e he => (hmember e he).2
  have hsafe : (groupSend name msg).wp (fun _ _ => True) (fun _ _ => False) n :=
    EStateM.wp_mono (groupSend_keeps (Set.mem_univ msg.id)) (fun _ _ _ => trivial)
      fun f n' h => (hn.moves h.1.moves).not_cause f h.2
  have hrun : (groupSend name msg).wp (fun _ n' => (X ∈ n.members name → Mailed msg X n n') ∧
      (X ∉ n.members name → n'.mailTo X = n.mailTo X)) (fun _ _ => True) n := by
    refine EStateM.wp_bind .. |>.mpr (wp_getGroup.mpr
      (EStateM.wp_mono hloop (fun _ n' h => ?_) fun _ _ h => h))
    rw [hkeys] at h
    exact ⟨fun hX => h.2.2.1 hX, fun hX => (h.2.2.2 hX).1⟩
  exact EStateM.wp_mono (EStateM.wp_and hrun hsafe) (fun _ _ h => h.1) fun _ _ h => h.2

/-- A command that counts the status up and tells every peer. -/
theorem Posted.regroup (h : n.Posted X sent) {msg : Msg} {own own' : List CStr}
    (hid : msg.id ≠ .hello) (hset : msg.id ≠ .unset)
    (hregroups : ∀ (l₀ : Letter) box k, l₀.status = n.status → l₀.groups = n.ownGroups →
      l₀.Regroups ⟨box, msg.setSequence k, n.status + 1, own'⟩)
    (hmailed : Mailed msg X { n with ownGroups := own, status := n.status + 1 } n') :
    ∃ ls, Posted { n' with ownGroups := own' } X (sent ++ ls) ∧
      Stamped { n' with ownGroups := own' } ls := by
  have hstatus : n'.status = n.status + 1 := (congrArg Node.status hmailed.own :)
  by_cases hconn : ∃ p, n.peers.lookup X = some p ∧ p.connected = true
  · obtain ⟨p, hp, hc⟩ := hconn
    obtain ⟨hmail, hentry⟩ := hmailed.connected p hp hc
    refine ⟨[⟨⟨X, p.serial⟩, msg.setSequence (p.sentSequence + 1), n.status + 1, own'⟩], ?_, ?_⟩
    · exact h.posted (deref_of_lookup hp) hc rfl hid hset ⟨rfl, rfl⟩
        (fun l₀ _ hst hgr => hregroups l₀ _ _ hst hgr) hmail hmailed.serial hentry hstatus.symm rfl
    · intro l hl
      obtain rfl := List.mem_singleton.mp hl
      exact ⟨hstatus.symm, rfl⟩
  · have hclosed : ∀ p, n.peers.lookup X = some p → p.connected = false := fun p hp => by
      by_contra hc
      exact hconn ⟨p, hp, by simpa using hc⟩
    obtain ⟨hmail, hentry⟩ := hmailed.closed hclosed
    refine ⟨[], ?_, nofun⟩
    rw [List.append_nil]
    refine ⟨hmail.trans h.mail, h.chain, h.head, fun l hl => ?_, fun p hp hc => ?_⟩
    · exact (h.serials l hl).trans_eq hmailed.serial.symm
    · have hp' : n.peers.lookup X = some p := hentry.symm.trans hp
      exact absurd ((hclosed p hp').symm.trans hc) Bool.false_ne_true

/-- JOIN of a group the node is not in. -/
theorem apiJoin_mailed {name : CStr} (hname : name ∉ n.ownGroups) (X : CStr) :
    (apiJoin name).wp (fun _ n' => Mailed { (Msg.new .join).setGroup name with status := n.status + 1 } X
      { n with ownGroups := n.ownGroups ++ [name], status := n.status + 1 } n') (fun _ _ => True) n := by
  refine EStateM.wp_bind .. |>.mpr (EStateM.wp_get.mpr (EStateM.wp_ite .. |>.mpr
    ⟨fun _ => ?_, fun h => absurd hname h⟩))
  exact EStateM.wp_bind .. |>.mpr (EStateM.wp_modify _ |>.mpr (EStateM.wp_bind .. |>.mpr
    (EStateM.wp_get.mpr (sendPeers_mailed _ X))))

/-- LEAVE of a group the node is in. -/
theorem apiLeave_mailed {name : CStr} (hname : name ∈ n.ownGroups) (X : CStr) :
    (apiLeave name).wp (fun _ n' => ∃ n₁, Mailed { (Msg.new .leave).setGroup name with
      status := n.status + 1 } X { n with status := n.status + 1 } n₁ ∧
        n' = { n₁ with ownGroups := n.ownGroups.erase name }) (fun _ _ => True) n := by
  refine EStateM.wp_bind .. |>.mpr (EStateM.wp_get.mpr (EStateM.wp_ite .. |>.mpr
    ⟨fun _ => ?_, fun h => absurd hname h⟩))
  refine EStateM.wp_bind .. |>.mpr (EStateM.wp_modify _ |>.mpr (EStateM.wp_bind .. |>.mpr
    (EStateM.wp_get.mpr (EStateM.wp_bind .. |>.mpr ?_))))
  refine EStateM.wp_mono (sendPeers_mailed _ X) (fun _ n₁ hmailed => ?_) fun _ _ _ => trivial
  refine EStateM.wp_modify _ |>.mpr ⟨n₁, hmailed, ?_⟩
  have hown : n₁.ownGroups = n.ownGroups := (congrArg Node.ownGroups hmailed.own :)
  rw [hown]

/-- A group the node is already in, or is not in. -/
theorem apiJoin_of_mem {name : CStr} (hname : name ∈ n.ownGroups) : apiJoin name n = .ok ⟨⟩ n := by
  show (if name ∉ n.ownGroups then _ else _ : NodeM Unit) n = _
  rw [if_neg (not_not.mpr hname)]
  rfl

theorem apiLeave_of_not_mem {name : CStr} (hname : name ∉ n.ownGroups) : apiLeave name n = .ok ⟨⟩ n := by
  show (if name ∈ n.ownGroups then _ else _ : NodeM Unit) n = _
  rw [if_neg hname]
  rfl

theorem Posted.join (name : CStr) (h : n.Posted X sent) :
    (apiJoin name).wp (fun _ n' => ∃ ls, n'.Posted X (sent ++ ls) ∧ n'.Stamped ls)
      (fun _ _ => True) n := by
  by_cases hname : name ∈ n.ownGroups
  · unfold EStateM.wp
    rw [apiJoin_of_mem hname]
    exact ⟨[], by rwa [List.append_nil], nofun⟩
  refine EStateM.wp_mono (apiJoin_mailed hname X) (fun _ n' hmailed => ?_) fun _ _ _ => trivial
  have hown : n'.ownGroups = n.ownGroups ++ [name] := (congrArg Node.ownGroups hmailed.own :)
  have hsame : n' = { n' with ownGroups := n.ownGroups ++ [name] } := by rw [← hown]
  rw [hsame]
  refine h.regroup (by simp [Msg.new]) (by simp [Msg.new]) (fun l₀ box k hst hgr => ?_) hmailed
  exact ⟨name, hgr ▸ hname, rfl, by rw [hgr], by rw [hst], rfl⟩

theorem Posted.leave (name : CStr) (h : n.Posted X sent) :
    (apiLeave name).wp (fun _ n' => ∃ ls, n'.Posted X (sent ++ ls) ∧ n'.Stamped ls)
      (fun _ _ => True) n := by
  by_cases hname : name ∈ n.ownGroups
  · refine EStateM.wp_mono (apiLeave_mailed hname X) (fun _ n' hleft => ?_) fun _ _ _ => trivial
    obtain ⟨n₁, hmailed, rfl⟩ := hleft
    have hmailed : Mailed _ X { n with ownGroups := n.ownGroups, status := n.status + 1 } n₁ := hmailed
    refine h.regroup (by simp [Msg.new]) (by simp [Msg.new]) (fun l₀ box k hst hgr => ?_) hmailed
    exact ⟨name, hgr ▸ hname, rfl, by rw [hgr], by rw [hst], rfl⟩
  · unfold EStateM.wp
    rw [apiLeave_of_not_mem hname]
    exact ⟨[], by rwa [List.append_nil], fun _ h => absurd h List.not_mem_nil⟩

/-! ### One iteration -/

/-- Whatever a node handles, what it posts to `X` goes on as before, and the letters carry the status
and the groups the node has afterwards. -/
theorem Posted.step {env : Env} {input : Input} (h : n.Posted X sent) :
    (Node.step env input).wp (fun _ n' => ∃ ls, n'.Posted X (sent ++ ls) ∧ n'.Stamped ls)
      (fun _ _ => True) n := by
  by_cases hregroups : ∃ c, input = .api c ∧ c.regroups = true
  · obtain ⟨c, rfl, hc⟩ := hregroups
    cases c with
    | join name => exact h.join name
    | leave name => exact h.leave name
    | _ => cases hc
  · have hc : ∀ c, input = .api c → c.regroups = false := by
      intro c hinput
      by_contra hc
      exact hregroups ⟨c, hinput, by simpa using hc⟩
    exact EStateM.wp_mono (step_changes hc) (fun _ _ hchanges => h.changes hchanges)
      fun _ _ _ => trivial

end Node

end Zyre
