import Zyre.Node.Entries
import Zyre.Node.Post

/-!
# What the node answers and what its events say

An application that replays the events knows for every peer whether it has entered, under which name
and with which headers, and which groups it is in: its `Standing`. The tables of the node say the same
in every state (`styled_of_reachable`), so the commands that query them answer what the replay gives, and
the events themselves bear the names it gives. OWN GROUPS answers what replaying the calls gives.
-/

namespace Zyre

/-! ### Queries -/

/-- The commands that are answered with what the tables hold. -/
inductive Query
  | uuid
  | name
  | peers
  | groupPeers (group : CStr)
  | peerEndpoint (identity : CStr)
  | peerName (identity : CStr)
  | peerHeader (identity key : CStr)
  | peerGroups
  | ownGroups

/-- An answer on the pipe: a string, or a pointer to a list, which may be null. -/
inductive Reply
  | text (s : CStr)
  | list (items : Option (List CStr))
deriving DecidableEq

/-- `zyre_peer_header`. -/
def Peer.header (p : Peer) (key : CStr) (default : Option CStr) : Option CStr :=
  (p.headers.bind fun headers => headers.lookup key) <|> default

/-- The branches of `zyre_node_recv_api` that answer. A null string is sent as the empty one. -/
def Node.query : Query → NodeM Reply
  | .uuid => do pure (.text (← get).identity)
  | .name => do pure (.text (← get).name)
  | .peers => do pure (.list (some (← get).peers.keys))
  | .groupPeers name => do
    match (← get).peerGroups.lookup name with
    | some group => pure (.list (some group.peers.keys))
    | none => pure (.list none)
  | .peerEndpoint identity => do
    match ← lookupPeer identity with
    | some peer => pure (.text (← readPeer peer).endpointStr)
    | none => pure (.text ∅)
  | .peerName identity => do
    match ← lookupPeer identity with
    | some peer => pure (.text (← readPeer peer).nameStr)
    | none => throw .assertion
  | .peerHeader identity key => do
    match ← lookupPeer identity with
    | some peer => pure (.text (((← readPeer peer).header key none).getD ∅))
    | none => pure (.text ∅)
  | .peerGroups => do pure (.list (some (← get).peerGroups.keys))
  | .ownGroups => do pure (.list (some (← get).ownGroups))

/-! ### Replaying events -/

/-- What events say about one peer: the name and headers it has entered with, and its groups. -/
@[ext]
structure Standing where
  entered : Option (CStr × Option Headers)
  groups : Set CStr

namespace Standing

/-- Nothing has been said. -/
def unknown : Standing := ⟨none, ∅⟩

/-- What one more event says about `X`. -/
def hear (X : CStr) (s : Standing) : Event → Standing
  | .enter identity name headers _ =>
    if identity = X then { s with entered := some (name, headers) } else s
  | .exit identity _ => if identity = X then unknown else s
  | .join identity _ group =>
    if identity = X then { s with groups := insert group s.groups } else s
  | .leave identity _ group =>
    if identity = X then { s with groups := s.groups \ {group} } else s
  | _ => s

/-- What the events say about `X` together. -/
def after (X : CStr) (log : List Event) : Standing := log.foldl (hear X) unknown

/-- The name a peer is known by. -/
def nameStr (s : Standing) : CStr := (s.entered.map Prod.fst).getD ∅

variable {X : CStr} {s : Standing} {log es : List Event} {e : Event}

/-- Events are heard one after the other. -/
theorem after_append : after X (log ++ es) = es.foldl (hear X) (after X log) := List.foldl_append

/-- An event of another session changes nothing. -/
theorem hear_of_session (h : e.session ≠ some X) : hear X s e = s := by
  cases e with
  | enter identity | exit identity | join identity | leave identity =>
    exact if_neg fun hX => h (congrArg some hX)
  | _ => rfl

/-- Events about other peers say nothing. -/
theorem after_filter : after X (log.filter fun e => e.session = some X) = after X log := by
  induction log using List.reverseRecOn with
  | nil => rfl
  | append_singleton log e ih =>
    rw [List.filter_append, after_append, after_append, ih]
    by_cases he : e.session = some X
    · simp [he]
    · simp [he, hear_of_session he]

/-- Every JOIN adds its group. -/
theorem foldl_hear_join {name : CStr} {names : List CStr} :
    (names.map (Event.join X name)).foldl (hear X) s =
      { s with groups := s.groups ∪ {g | g ∈ names} } := by
  induction names generalizing s with
  | nil => simp
  | cons g names ih =>
    rw [List.map_cons, List.foldl_cons, ih]
    ext1
    · simp [hear]
    · ext g'
      simp only [hear, if_true, Set.mem_union, Set.mem_insert_iff, Set.mem_ofPred_eq, List.mem_cons]
      tauto

end Standing

/-- The name in an event about `X`, other than ENTER. -/
def Event.title (X : CStr) : Event → Option CStr
  | .exit identity name | .join identity name _ | .leave identity name _ |
    .whisper identity name _ | .shout identity name _ _ => if identity = X then some name else none
  | _ => none

/-- Every event about `X` bears the name `X` has entered with, and none if it has not entered. -/
def Titled (X : CStr) (log : List Event) : Prop :=
  ∀ before e after, log = before ++ e :: after → ∀ name ∈ e.title X,
    name = (Standing.after X before).nameStr

section

variable {X : CStr} {log log' es : List Event} {e : Event}

/-- No event bears a wrong name where there is none. -/
theorem titled_nil : Titled X [] := by
  intro before e after h
  simp at h

/-- Earlier events bear the names they bore. -/
theorem Titled.of_prefix (h : Titled X log) (hpre : log' <+: log) : Titled X log' := by
  obtain ⟨rest, rfl⟩ := hpre
  rintro before e after rfl name hname
  exact h before e (after ++ rest) (by simp) name hname

/-- One more event, with the name its peer has entered with. -/
theorem Titled.append_singleton (h : Titled X log)
    (he : ∀ name ∈ e.title X, name = (Standing.after X log).nameStr) : Titled X (log ++ [e]) := by
  intro before e' after heq name hname
  rcases List.eq_nil_or_concat after with rfl | ⟨after, last, rfl⟩
  · obtain ⟨rfl, hlast⟩ := List.append_inj' heq rfl
    obtain rfl := List.singleton_inj.mp hlast
    exact he name hname
  · have happend : log ++ [e] = (before ++ e' :: after) ++ [last] := by simpa using heq
    exact h before e' after (List.append_inj' happend rfl).1 name hname

/-- JOIN events with the name of the peer can follow. -/
theorem Titled.append_join {name : CStr} {names : List CStr} (h : Titled X log)
    (hname : (Standing.after X log).nameStr = name) :
    Titled X (log ++ names.map (Event.join X name)) := by
  -- From the end: the name is still the standing one after the events before.
  induction names using List.reverseRecOn with
  | nil => simpa using h
  | append_singleton names g ih =>
    rw [List.map_append, ← List.append_assoc]
    refine ih.append_singleton fun nm hnm => ?_
    rw [Standing.after_append, Standing.foldl_hear_join]
    simp only [Event.title, if_true, Option.mem_some] at hnm
    exact hnm.symm.trans hname.symm

/-- An event of another session bears no name of this peer. -/
theorem title_of_session (h : e.session ≠ some X) : e.title X = none := by
  cases e with
  | exit identity | join identity | leave identity | whisper identity | shout identity =>
    exact if_neg fun hX => h (congrArg some hX)
  | _ => rfl

/-- Events about other peers bear no name of `X`. -/
theorem titled_filter (h : Titled X (log.filter fun e => e.session = some X)) : Titled X log := by
  rintro before e after rfl name hname
  have hsession : e.session = some X := by
    by_contra hne
    rw [title_of_session hne] at hname
    cases hname
  rw [← Standing.after_filter]
  refine h _ e (after.filter fun e => e.session = some X) ?_ name hname
  simp [hsession]

end

/-! ### The tables say what the events say -/

namespace PeerView

/-- What the tables say about a peer. -/
def standing (v : PeerView) : Standing where
  entered := v.entry.bind fun p => p.name.map fun name => (name, p.headers)
  groups := v.groups

/-- The events say about `X` what the tables do. -/
def Told (X : CStr) (v : PeerView) : Prop := Standing.after X v.log = v.standing

variable {X : CStr} {v w : PeerView} {msg : Msg} {gossip : Bool} {R : Set CStr}

/-- The name in the table is that of the standing. -/
theorem nameStr_standing : v.standing.nameStr = v.nameStr := by
  rcases he : v.entry with - | p
  · simp [Standing.nameStr, standing, nameStr, he]
  · cases hname : p.name <;> simp [Standing.nameStr, standing, nameStr, Peer.nameStr, he, hname]

/-- The name that the events give is the one in the table. -/
theorem Told.nameStr (h : v.Told X) : (Standing.after X v.log).nameStr = v.nameStr := by
  rw [h, nameStr_standing]

/-- A change of the entry that keeps name and headers. -/
theorem Told.entry {f : Peer → Peer} (h : v.Told X)
    (hf : ∀ p, v.entry = some p → (f p).name = p.name ∧ (f p).headers = p.headers) :
    Told X { v with entry := v.entry.map f } := by
  refine h.trans ?_
  rcases he : v.entry with - | p
  · simp [standing, he]
  · simp [standing, he, hf p he]

/-- A peer that has not entered gets an entry. -/
theorem Told.create {q : Peer} {k : ℕ} (h : v.Told X) (he : v.entry = none) (hq : q.name = none) :
    Told X { v with entry := some q, hellos := k } :=
  h.trans (by simp [standing, he, hq])

/-- After EXIT nothing is known of the peer, and there is no entry. -/
theorem Told.exit : (v.exit X).Told X := by
  simp [Told, PeerView.exit, Standing.after_append, Standing.hear, standing, Standing.unknown]

/-- The gate of HELLO keeps what is told, or removes the entry with an EXIT. -/
theorem Told.opened (h : v.Told X) (hw : Opened X v w) : w.Told X := by
  rcases hw with ⟨p, he, -⟩ | ⟨q, he, hq⟩ | ⟨p, q, -, -, hq⟩
  · have hkept := h.entry (f := fun p => { p with ready := true }) fun _ _ => ⟨rfl, rfl⟩
    rw [he] at hkept
    exact hkept
  · exact h.create he hq.name
  · exact (Told.exit (v := v)).create rfl hq.name

/-- A message that is counted tells nothing. -/
theorem Told.count {k : UInt16} (h : v.Told X) : (v.count k).Told X :=
  h.entry fun _ _ => ⟨rfl, rfl⟩

/-- HELLO gives the entry its name and headers, and ENTER and JOIN tell of them. -/
theorem Told.greet (h : v.Told X) (hentry : ∃ p, v.entry = some p) : (v.greet X msg).Told X := by
  obtain ⟨p, he⟩ := hentry
  have hlog : Standing.after X (v.greet X msg).log =
      { Standing.after X v.log with
        entered := some (msg.name, msg.headers)
        groups := v.groups ∪ {name | name ∈ msg.groups.getD []} } := by
    rw [PeerView.greet, Standing.after_append, List.foldl_cons, Standing.foldl_hear_join, h]
    simp [Standing.hear, standing]
  rw [Told, hlog]
  simp [standing, PeerView.greet, he]

/-- JOIN is told as the group gets its member. -/
theorem Told.join {name : CStr} (h : v.Told X) : (v.join X name).Told X := by
  have hentry : Told X { v with entry := v.entry.map fun p => { p with status := p.status + 1 } } :=
    h.entry fun _ _ => ⟨rfl, rfl⟩
  refine Standing.after_append.trans ?_
  rw [show Standing.after X v.log = _ from hentry]
  simp [Standing.hear, standing, PeerView.join]

/-- LEAVE is told as the group loses it. -/
theorem Told.leave {name : CStr} (h : v.Told X) : (v.leave X name).Told X := by
  have hentry : Told X { v with entry := v.entry.map fun p => { p with status := p.status + 1 } } :=
    h.entry fun _ _ => ⟨rfl, rfl⟩
  refine Standing.after_append.trans ?_
  rw [show Standing.after X v.log = _ from hentry]
  simp [Standing.hear, standing, PeerView.leave]

/-- Every command but HELLO. -/
theorem Told.take (h : v.Told X) : (v.take X msg).Told X := by
  unfold PeerView.take
  split
  · exact Standing.after_append.trans h
  · exact Standing.after_append.trans h
  · exact h.join
  · exact h.leave
  · exact h

/-- A message that arrives, whatever becomes of it. -/
theorem Told.arrival (h : v.Told X) (harrival : Arrival gossip X msg v w) : w.Told X := by
  rcases harrival with - | - | - | ⟨w, -, hw, -⟩ | - | - | -
  · exact h
  · exact .exit
  · exact .exit
  · have hentry : ∃ p, (w.count 1).entry = some p := by cases hw <;> exact ⟨_, rfl⟩
    exact (h.opened hw).count.greet hentry
  · exact .exit
  · exact .exit
  · exact h.count.take

/-- What happens to a peer that has not sent the message. -/
theorem Told.aside (h : v.Told X) (haside : Aside R X v w) : w.Told X := by
  rcases haside with - | endpoint | ⟨q, he, hq⟩ | -
  · exact h
  · refine h.entry fun p _ => ?_
    unfold Node.purgePeer Peer.disconnect
    split_ifs <;> exact ⟨rfl, rfl⟩
  · exact h.create he hq.name
  · exact .exit

/-- The events so far bear the right names, and the tables say what they do. -/
structure Styled (X : CStr) (v : PeerView) : Prop where
  told : v.Told X
  titled : Titled X v.log

/-- EXIT bears the name of the entry that is removed. -/
theorem Styled.exit (h : v.Styled X) : (v.exit X).Styled X where
  told := .exit
  titled := h.titled.append_singleton fun name hname => by
    simp only [Event.title, if_true, Option.mem_some] at hname
    rw [h.told.nameStr, hname]

theorem Styled.opened (h : v.Styled X) (hw : Opened X v w) : w.Styled X where
  told := h.told.opened hw
  titled := by
    rcases hw with - | - | -
    · exact h.titled
    · exact h.titled
    · exact h.exit.titled

/-- The events of HELLO bear the name it gives. -/
theorem Styled.greet (h : v.Styled X) (hentry : ∃ p, v.entry = some p) : (v.greet X msg).Styled X where
  told := h.told.greet hentry
  titled := by
    -- ENTER bears no title; the JOIN events after it bear the name it has brought.
    have henter : Titled X (v.log ++ [.enter X msg.name msg.headers msg.endpoint]) :=
      h.titled.append_singleton fun name hname => by cases hname
    have hname : (Standing.after X (v.log ++ [.enter X msg.name msg.headers msg.endpoint])).nameStr = msg.name := by
      simp [Standing.after_append, Standing.hear, Standing.nameStr]
    have hjoins : Titled X (_ ++ (msg.groups.getD []).map (Event.join X msg.name)) := henter.append_join hname
    rw [List.append_assoc, List.singleton_append] at hjoins
    exact hjoins

/-- The events of every other command bear the name of the entry. -/
theorem Styled.take (h : v.Styled X) : (v.take X msg).Styled X where
  told := h.told.take
  titled := by
    have hsay : ∀ e : Event, e.title X = some v.nameStr → Titled X (v.log ++ [e]) := by
      intro e he
      refine h.titled.append_singleton fun name hname => ?_
      rw [he, Option.mem_some] at hname
      rw [h.told.nameStr, hname]
    unfold PeerView.take
    split
    · exact hsay _ (if_pos rfl)
    · exact hsay _ (if_pos rfl)
    · exact hsay _ (if_pos rfl)
    · exact hsay _ (if_pos rfl)
    · exact h.titled

/-- A message that arrives, whatever becomes of it. -/
theorem Styled.arrival (h : v.Styled X) (harrival : Arrival gossip X msg v w) : w.Styled X := by
  refine ⟨h.told.arrival harrival, ?_⟩
  have hcount : ∀ {u : PeerView} {k : UInt16}, u.Styled X → (u.count k).Styled X :=
    fun hu => ⟨hu.told.count, hu.titled⟩
  rcases harrival with - | - | ⟨w, -, hw, -⟩ | ⟨w, -, hw, -⟩ | - | - | -
  · exact h.titled
  · exact h.exit.titled
  · exact (h.opened hw).exit.titled
  · have hentry : ∃ p, (w.count 1).entry = some p := by cases hw <;> exact ⟨_, rfl⟩
    exact ((hcount (h.opened hw)).greet hentry).titled
  · exact h.exit.titled
  · exact h.exit.titled
  · exact (hcount h).take.titled

/-- A peer that is removed without a message of its own. -/
theorem Styled.aside (h : v.Styled X) (haside : Aside R X v w) : w.Styled X := by
  refine ⟨h.told.aside haside, ?_⟩
  rcases haside with - | - | - | -
  · exact h.titled
  · exact h.titled
  · exact h.titled
  · exact h.exit.titled

end PeerView

namespace Node

variable {n n' : Node} {env : Env} {input : Input} {X Y name : CStr}

/-- In every reachable state the tables and the events say the same, and every event bears its peer's name.
-/
theorem styled_of_reachable (h : Reachable n) (X : CStr) : (n.view X).Styled X := by
  induction h with
  | new uuid endpoint =>
    refine ⟨Standing.ext rfl (Set.ext fun _ => ?_), titled_nil⟩
    simp [PeerView.standing, groupsOf, members, Node.new, Group.new, Standing.after, Standing.unknown, log,
      AList.notMem_empty]
  | step env input hn h ih =>
    rcases EStateM.wp_of_ok h (step_view X) with ⟨frames, uuid, -, -, -, harrival⟩ | haside
    · exact ih.arrival harrival
    · exact ih.aside haside

/-- In every state the events on the outbox say about a peer what the tables do. -/
theorem after_outbox (h : Reachable n) (X : CStr) :
    Standing.after X n.outbox = (n.view X).standing := by
  rw [← (styled_of_reachable h X).told]
  exact Standing.after_filter.symm

/-- **Names in events.** Whatever an iteration leaves behind, also one that stops half way, every EXIT,
JOIN, LEAVE, WHISPER and SHOUT event bears the name its peer has entered with, and no name if it has not
entered. -/
theorem titled_of_reachable (hn : Reachable n) (h : Leaves (Node.step env input) n n') (X : CStr) :
    Titled X n'.outbox := by
  refine titled_filter (h.of_wp (P := fun n' => Titled X (n'.log X)) ?_)
  have hstyled := styled_of_reachable hn X
  refine EStateM.wp_mono (step_view X) ?_ ?_
  · rintro _ n₁ (⟨frames, uuid, -, -, -, harrival⟩ | haside)
    · exact (hstyled.arrival harrival).titled
    · exact (hstyled.aside haside).titled
  · rintro _ n₁ ⟨v, (⟨frames, uuid, -, -, -, harrival⟩ | haside), hlog⟩
    · exact (hstyled.arrival harrival).titled.of_prefix hlog
    · exact (hstyled.aside haside).titled.of_prefix hlog

theorem titled_hello : Titled (sampleUuid 1).str
    (final (Node.step (sampleEnv 0) (sampleInput 1 sampleHello) sampleNode)).outbox :=
  titled_of_reachable (.new _ _) (leaves_final _ _) _

/-! ### Answers -/

/-- A peer that has entered is in the table, under the name and with the headers of its ENTER. -/
theorem lookup_of_entered {headers : Option Headers} (h : Reachable n)
    (hX : (Standing.after X n.outbox).entered = some (name, headers)) :
    ∃ p, n.peers.lookup X = some p ∧ p.name = some name ∧ p.headers = headers := by
  rw [after_outbox h, PeerView.standing, view_entry] at hX
  obtain ⟨q, hq, hname⟩ := Option.bind_eq_some_iff.mp hX
  obtain ⟨p, hp, rfl⟩ := Option.map_eq_some_iff.mp hq
  obtain ⟨nm, hnm, hpair⟩ := Option.map_eq_some_iff.mp hname
  obtain ⟨rfl, rfl⟩ := Prod.mk.inj hpair
  exact ⟨p, hp, hnm, rfl⟩

/-- **GROUP PEERS.** It lists, once each, the peers that are in the group by the events the application has
read: those whose last event about the group is JOIN, in a session that is still open. `Standing` is what an
application makes of the outbox. -/
theorem groupPeers_of_reachable (h : Reachable n) (name : CStr) :
    ∃ items, query (.groupPeers name) n = .ok (.list items) n ∧ (items.getD []).Nodup ∧
      ∀ X, X ∈ items.getD [] ↔ name ∈ (Standing.after X n.outbox).groups := by
  have hgroups : ∀ X, name ∈ (Standing.after X n.outbox).groups ↔ X ∈ n.members name := by
    intro X
    rw [after_outbox h]
    exact Iff.rfl
  simp only [hgroups, members]
  cases hg : n.peerGroups.lookup name with
  | none =>
    refine ⟨none, EStateM.bind_of_ok (x := get) rfl |>.trans (by rw [hg]; rfl), List.nodup_nil, fun X => ?_⟩
    simp [Group.new, AList.notMem_empty]
  | some g =>
    refine ⟨some g.peers.keys, EStateM.bind_of_ok (x := get) rfl |>.trans (by rw [hg]; rfl), g.peers.keys_nodup,
      fun X => ?_⟩
    exact AList.mem_keys

/-- The peer is listed in the group its HELLO names. -/
theorem groupPeers_greetedNode : ∃ items,
    query (.groupPeers sampleGroup) greetedNode = .ok (.list items) greetedNode ∧ (items.getD []).Nodup ∧
      ∀ X, X ∈ items.getD [] ↔ sampleGroup ∈ (Standing.after X greetedNode.outbox).groups :=
  groupPeers_of_reachable reachable_greetedNode sampleGroup

/-- **PEERS, PEER NAME and PEER HEADER.** A peer that has entered, and not left since, is listed by PEERS,
once, and PEER NAME and PEER HEADER answer what its last ENTER event carried; a header it has not carried is
answered by the empty string. -/
theorem peer_of_entered {headers : Option Headers} (h : Reachable n)
    (hX : (Standing.after X n.outbox).entered = some (name, headers)) :
    (∃ items, query .peers n = .ok (.list (some items)) n ∧ items.Nodup ∧ X ∈ items) ∧
      query (.peerName X) n = .ok (.text name) n ∧
      ∀ key, query (.peerHeader X key) n = .ok (.text ((headers.bind (·.lookup key)).getD ∅)) n := by
  obtain ⟨p, hp, hname, rfl⟩ := lookup_of_entered h hX
  have hread : readPeer ⟨X, p.serial⟩ n = .ok p n := readPeer_eq (deref_of_lookup hp)
  refine ⟨⟨n.peers.keys, rfl, n.peers.keys_nodup, ?_⟩, ?_, fun key => ?_⟩
  · exact AList.mem_keys.mpr (AList.lookup_isSome.mp (by rw [hp]; rfl))
  · refine (EStateM.bind_of_ok lookupPeer_eq).trans ?_
    rw [hp]
    refine (EStateM.bind_of_ok hread).trans ?_
    rw [Peer.nameStr, hname]
    rfl
  · refine (EStateM.bind_of_ok lookupPeer_eq).trans ?_
    rw [hp]
    refine (EStateM.bind_of_ok hread).trans ?_
    simp only [Peer.header, Option.orElse_eq_orElse]
    cases p.headers.bind fun headers => headers.lookup key <;> rfl

theorem peer_greetedNode :
    (∃ items, query .peers greetedNode = .ok (.list (some items)) greetedNode ∧ items.Nodup ∧
      (sampleUuid 1).str ∈ items) ∧
      query (.peerName (sampleUuid 1).str) greetedNode = .ok (.text (CStr.ofChars ['p'])) greetedNode ∧
      ∀ key, query (.peerHeader (sampleUuid 1).str key) greetedNode =
        .ok (.text (((∅ : Headers).lookup key).getD ∅)) greetedNode :=
  peer_of_entered reachable_greetedNode
    (show _ = some (CStr.ofChars ['p'], some (∅ : Headers)) from rfl)

/-! ### The node's own groups -/

/-- What JOIN and LEAVE make of the list of groups. -/
def Input.regroup : Input → List CStr → List CStr
  | .api (.join name), own => if name ∈ own then own else own ++ [name]
  | .api (.leave name), own => own.erase name
  | _, own => own

/-- The calls that are about one group: JOIN, as `true`, and LEAVE, as `false`. -/
def Input.call (name : CStr) : Input → Option Bool
  | .api (.join name') => if name' = name then some true else none
  | .api (.leave name') => if name' = name then some false else none
  | _ => none

/-- The last of these calls. -/
def lastCall (name : CStr) (inputs : List (Env × Input)) : Option Bool :=
  (inputs.filterMap fun i => Input.call name i.2).getLast?

/-- An iteration changes the own groups by JOIN and LEAVE of the application only. -/
theorem step_regroup :
    (Node.step env input).wp (fun _ n' => n'.ownGroups = Input.regroup input n.ownGroups)
      (fun _ _ => True) n := by
  -- JOIN and LEAVE are the calls that touch the list; JOIN of a group in it and LEAVE of another do nothing.
  by_cases h : ∃ c, input = .api c ∧ c.regroups = true
  · obtain ⟨c, rfl, hc⟩ := h
    cases c with
    | join name =>
      by_cases hname : name ∈ n.ownGroups
      · unfold EStateM.wp
        rw [Node.step, recvApi, apiJoin_of_mem hname]
        exact (if_pos hname).symm
      refine EStateM.wp_mono (apiJoin_mailed hname ∅) (fun _ n' hmailed => ?_) fun _ _ _ => trivial
      exact (congrArg Node.ownGroups hmailed.own :).trans (if_neg hname).symm
    | leave name =>
      by_cases hname : name ∈ n.ownGroups
      · refine EStateM.wp_mono (apiLeave_mailed hname ∅) (fun _ n' hleft => ?_) fun _ _ _ => trivial
        obtain ⟨n₁, -, rfl⟩ := hleft
        rfl
      unfold EStateM.wp
      rw [Node.step, recvApi, apiLeave_of_not_mem hname]
      exact (List.erase_of_not_mem hname).symm
    | _ => cases hc
  · have hc : ∀ c, input = .api c → c.regroups = false := by
      intro c hinput
      by_contra hregroups
      exact h ⟨c, hinput, by simpa using hregroups⟩
    refine EStateM.wp_mono (step_changes hc) (fun _ _ h => h.ownGroups.trans ?_) fun _ _ _ => trivial
    cases input with
    | api c =>
      have := hc c rfl
      cases c <;> first | rfl | cases this
    | _ => rfl

/-- A group is joined once. -/
theorem nodup_regroup {own : List CStr} (h : own.Nodup) : (Input.regroup input own).Nodup := by
  unfold Input.regroup
  split
  · split_ifs with hname
    · exact h
    · exact h.append (List.nodup_singleton _) (List.disjoint_singleton.mpr hname)
  · exact h.erase _
  · exact h

/-- A call about a group decides whether it is in the list. -/
theorem mem_regroup {own : List CStr} (h : own.Nodup) :
    name ∈ Input.regroup input own ↔ (Input.call name input).getD (name ∈ own) := by
  cases input with
  | api c =>
    cases c with
    | join name' =>
      simp only [Input.regroup, Input.call]
      by_cases hcall : name' = name
      · subst hcall
        by_cases hname : name' ∈ own <;> simp [hname]
      · split_ifs <;> simp [Ne.symm hcall]
    | leave name' =>
      simp only [Input.regroup, Input.call, h.mem_erase_iff]
      by_cases hcall : name' = name
      · simp [hcall]
      · simp [hcall, Ne.symm hcall]
    | _ => simp [Input.regroup, Input.call]
  | _ => simp [Input.regroup, Input.call]

theorem lastCall_cons {i : Env × Input} {inputs : List (Env × Input)} :
    lastCall name (i :: inputs) = (lastCall name inputs).or (Input.call name i.2) := by
  unfold lastCall
  cases hcall : Input.call name i.2 with
  | none => simp [hcall]
  | some b => simp [hcall, List.getLast?_cons, Option.or_some]

/-- A run changes the list of groups by its calls. -/
theorem ownGroups_of_play {inputs : List (Env × Input)} (h : play inputs n = some n')
    (hn : n.ownGroups.Nodup) : n'.ownGroups.Nodup ∧
      (name ∈ n'.ownGroups ↔ (lastCall name inputs).getD (name ∈ n.ownGroups)) := by
  induction inputs generalizing n with
  | nil =>
    obtain rfl := Option.some_inj.mp h
    exact ⟨hn, by simp [lastCall]⟩
  | cons i rest ih =>
    obtain ⟨env, input⟩ := i
    simp only [play] at h
    split at h
    · next n₁ hstep =>
      have hown : n₁.ownGroups = Input.regroup input n.ownGroups := (EStateM.wp_of_ok hstep step_regroup :)
      obtain ⟨hnodup, hmem⟩ := ih h (hown ▸ nodup_regroup hn)
      refine ⟨hnodup, hmem.trans ?_⟩
      -- A call in the rest decides; otherwise the first input does.
      rw [lastCall_cons]
      cases lastCall name rest with
      | some b => simp
      | none => simpa [hown] using mem_regroup hn
    · cases h

/-- **OWN GROUPS.** It lists, once each, the groups whose last JOIN or LEAVE call was JOIN, whatever the
node has received and done in between: no message and no discovery changes the node's own groups. -/
theorem ownGroups_of_run {inputs : List (Env × Input)} {uuid : Uuid} {endpoint : CStr}
    (h : play inputs (Node.new uuid endpoint) = some n) :
    ∃ items, query .ownGroups n = .ok (.list (some items)) n ∧ items.Nodup ∧
      ∀ name, name ∈ items ↔ lastCall name inputs = some true := by
  have hown : ∀ name, _ ∧ (name ∈ n.ownGroups ↔ _) := fun name => ownGroups_of_play h List.nodup_nil
  refine ⟨n.ownGroups, rfl, (hown ∅).1, fun name => (hown name).2.trans ?_⟩
  cases lastCall name inputs <;> simp [Node.new]

theorem ownGroups_joinedNode : ∃ items,
    query .ownGroups joinedNode = .ok (.list (some items)) joinedNode ∧ items.Nodup ∧ ∀ name,
      name ∈ items ↔ lastCall name [(sampleEnv 0, .api (.join sampleGroup))] = some true :=
  ownGroups_of_run (show play _ (Node.new (sampleUuid 0) (sampleEndpoint 'n')) = some joinedNode by
    simp only [play]
    rw [step_eq_of_isOk (by decide)]
    rfl)

end Node

end Zyre
