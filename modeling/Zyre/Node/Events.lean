import Mathlib.Data.List.Chain
import Zyre.Node.Steps

/-!
# What the application hears about a session

Every JOIN, LEAVE, WHISPER and SHOUT event of a peer comes between its ENTER and its EXIT
(`gated_of_reachable`). ENTER and EXIT themselves alternate as long as no entry is removed that never
sent a HELLO, and no HELLO is numbered other than 1 or finds an entry that has been disconnected
(`alternate_of_run`).
-/

namespace Zyre

/-! ### Logs -/

/-- ENTER and EXIT of a peer, as `true` and `false`. -/
def Event.mark (X : CStr) : Event → Option Bool
  | .enter identity .. => if identity = X then some true else none
  | .exit identity _ => if identity = X then some false else none
  | _ => none

/-- The events that belong inside a session. -/
def Event.inside (X : CStr) : Event → Bool
  | .join identity .. | .leave identity .. | .whisper identity .. | .shout identity .. =>
    identity = X
  | _ => false

/-- The ENTER and EXIT events of a peer, in order. -/
def marks (X : CStr) (log : List Event) : List Bool := log.filterMap (Event.mark X)

/-- The last event of the two kinds was ENTER. -/
def InSession (X : CStr) (log : List Event) : Prop := (marks X log).getLast? = some true

/-- Every event of the session of `X` comes after an ENTER with no EXIT in between. -/
def Gated (X : CStr) (log : List Event) : Prop :=
  ∀ before e after, log = before ++ e :: after → e.inside X = true →
    ∃ earlier enter later, before = earlier ++ enter :: later ∧ enter.mark X = some true ∧
      ∀ e' ∈ later, e'.mark X ≠ some false

/-- The ENTER and EXIT events of `X` alternate and begin with ENTER. -/
def Alternate (X : CStr) (log : List Event) : Prop :=
  (marks X log).IsChain (· ≠ ·) ∧ (marks X log).head? ≠ some false

variable {X : CStr} {log log' es : List Event} {e : Event}

/-- A mark that opens a session is ENTER. -/
theorem Event.eq_enter_of_mark (h : e.mark X = some true) :
    ∃ name headers endpoint, e = .enter X name headers endpoint := by
  cases e with
  | enter identity name headers endpoint =>
    simp only [Event.mark, ite_eq_left_iff, reduceCtorEq, imp_false, not_not] at h
    exact ⟨name, headers, endpoint, by rw [h]⟩
  | exit => simp [Event.mark] at h
  | _ => cases h

/-- The marks of a log are those of its parts. -/
theorem marks_append : marks X (log ++ es) = marks X log ++ marks X es := List.filterMap_append ..

theorem marks_eq_nil (h : ∀ e ∈ es, e.mark X = none) : marks X es = [] :=
  List.filterMap_eq_nil_iff.mpr h

/-- Events other than ENTER and EXIT leave the session as it is. -/
theorem inSession_append_of_none (h : ∀ e ∈ es, e.mark X = none) :
    InSession X (log ++ es) ↔ InSession X log := by
  simp [InSession, marks_append, marks_eq_nil h]

/-- ENTER opens the session, and EXIT ends it. -/
theorem inSession_append_mark {b : Bool} (h : e.mark X = some b) :
    InSession X (log ++ [e]) ↔ b = true := by
  simp [InSession, marks, h]

/-- A session goes on until EXIT. -/
theorem InSession.append (h : InSession X log) (hes : ∀ e ∈ es, e.mark X ≠ some false) :
    InSession X (log ++ es) := by
  induction es using List.reverseRecOn with
  | nil => simpa using h
  | append_singleton es e ih =>
    have hin := ih fun e he => hes e (List.mem_append_left _ he)
    rw [← List.append_assoc]
    cases he : e.mark X with
    | none => exact (inSession_append_of_none (by simpa using he)).mpr hin
    | some b =>
      have hb : b ≠ false := fun hb => hes e (by simp) (hb ▸ he)
      exact (inSession_append_mark he).mpr (by simpa using hb)

/-- In a session there has been an ENTER with no EXIT since. -/
theorem InSession.exists_enter (h : InSession X log) : ∃ earlier enter later,
    log = earlier ++ enter :: later ∧ enter.mark X = some true ∧
      ∀ e' ∈ later, e'.mark X ≠ some false := by
  induction log using List.reverseRecOn with
  | nil => simp [InSession, marks] at h
  | append_singleton log e ih =>
    cases he : e.mark X with
    | none =>
      rw [inSession_append_of_none (by simpa using he)] at h
      obtain ⟨earlier, enter, later, rfl, henter, hlater⟩ := ih h
      refine ⟨earlier, enter, later ++ [e], by simp, henter, fun e' he' => ?_⟩
      rcases List.mem_append.mp he' with he' | he'
      · exact hlater e' he'
      · rw [List.mem_singleton.mp he', he]; simp
    | some b =>
      rw [inSession_append_mark he] at h
      exact ⟨log, e, [], rfl, by rw [he, h], by simp⟩

theorem gated_nil : Gated X [] := by
  intro before e after h
  simp at h

/-- What holds of a log holds of its beginning. -/
theorem Gated.of_prefix (h : Gated X log) (hpre : log' <+: log) : Gated X log' := by
  obtain ⟨rest, rfl⟩ := hpre
  rintro before e after rfl he
  exact h before e (after ++ rest) (by simp) he

/-- Appending events that are inside a session only when there is one. -/
theorem Gated.append_singleton (h : Gated X log) (he : e.inside X = true → InSession X log) :
    Gated X (log ++ [e]) := by
  intro before e' after heq he'
  rcases List.eq_nil_or_concat after with rfl | ⟨after, last, rfl⟩
  · obtain ⟨rfl, hlast⟩ := List.append_inj' heq rfl
    obtain rfl := List.singleton_inj.mp hlast
    exact (he he').exists_enter
  · have happend : log ++ [e] = (before ++ e' :: after) ++ [last] := by simpa using heq
    exact h before e' after (List.append_inj' happend rfl).1 he'

/-- Events inside a session that is open. -/
theorem Gated.append_inside (h : Gated X log) (hin : InSession X log)
    (hes : ∀ e ∈ es, e.mark X = none) : Gated X (log ++ es) := by
  induction es using List.reverseRecOn with
  | nil => simpa using h
  | append_singleton es e ih =>
    have hes' : ∀ e ∈ es, e.mark X = none := fun e he => hes e (List.mem_append_left _ he)
    rw [← List.append_assoc]
    exact (ih hes').append_singleton fun _ => (inSession_append_of_none hes').mpr hin

theorem alternate_nil : Alternate X [] := ⟨.nil, by simp [marks]⟩

/-- What alternates does so from the beginning on. -/
theorem Alternate.of_prefix (h : Alternate X log) (hpre : log' <+: log) : Alternate X log' := by
  obtain ⟨rest, rfl⟩ := hpre
  simp only [Alternate, marks_append] at h
  refine ⟨h.1.left_of_append, fun hhead => h.2 ?_⟩
  rw [List.head?_append, hhead]
  rfl

/-- Events other than ENTER and EXIT do not count. -/
theorem Alternate.append_of_none (h : Alternate X log) (hes : ∀ e ∈ es, e.mark X = none) :
    Alternate X (log ++ es) := by
  simpa [Alternate, marks_append, marks_eq_nil hes] using h

/-- ENTER may follow outside a session, EXIT inside one. -/
theorem Alternate.append_singleton {b : Bool} (h : Alternate X log) (he : e.mark X = some b)
    (hb : b = true ↔ ¬InSession X log) : Alternate X (log ++ [e]) := by
  have hmarks : marks X [e] = [b] := by simp [marks, he]
  rw [Alternate, marks_append, hmarks]
  rcases List.eq_nil_or_concat (marks X log) with hnil | ⟨bs, last, hlast⟩
  · have : b = true := hb.mpr (by simp [InSession, hnil])
    simp [hnil, this]
  · rw [List.concat_eq_append] at hlast
    have hne : last ≠ b := by
      simp only [InSession, hlast, List.getLast?_append, List.getLast?_singleton] at hb
      cases last <;> cases b <;> simp_all
    refine ⟨List.isChain_append.mpr ⟨h.1, .singleton _, ?_⟩, ?_⟩
    · simpa [hlast] using hne
    · have hhead := h.2
      rw [hlast] at hhead ⊢
      cases bs <;> simpa using hhead

/-- What belongs to the session of `X` is all that counts. -/
theorem mark_of_session (h : e.session ≠ some X) : e.mark X = none := by
  cases e <;> first | rfl | (simp only [Event.session, ne_eq, Option.some_inj] at h; simp [Event.mark, h])

/-- An event of another session is not inside this one. -/
theorem inside_of_session (h : e.session ≠ some X) : e.inside X = false := by
  cases e <;> first | rfl | (simp only [Event.session, ne_eq, Option.some_inj] at h; simp [Event.inside, h])

/-- The marks are in the session's own log. -/
theorem marks_filter : marks X (log.filter fun e => e.session = some X) = marks X log := by
  induction log with
  | nil => rfl
  | cons e log ih =>
    by_cases h : e.session = some X
    · simp only [List.filter_cons, h, decide_true, if_true, marks, List.filterMap_cons] at ih ⊢
      rw [ih]
    · simp only [List.filter_cons, h, decide_false, marks, List.filterMap_cons, mark_of_session h]
        at ih ⊢
      exact ih

/-- It is enough to look at the session's own log. -/
theorem gated_filter (h : Gated X (log.filter fun e => e.session = some X)) : Gated X log := by
  induction log using List.reverseRecOn with
  | nil => exact gated_nil
  | append_singleton log e ih =>
    rw [List.filter_append] at h
    have hlog := ih (h.of_prefix (List.prefix_append _ _))
    refine hlog.append_singleton fun he => ?_
    have hsession : e.session = some X := by
      by_contra hne
      rw [inside_of_session hne] at he
      cases he
    obtain ⟨earlier, enter, later, heq, henter, hlater⟩ := h (log.filter fun e => e.session = some X) e []
      (by simp [hsession]) he
    have hin : InSession X (earlier ++ [enter] ++ later) :=
      ((inSession_append_mark henter).mpr rfl).append hlater
    rw [List.append_assoc, List.singleton_append] at hin
    rw [← heq] at hin
    unfold InSession at hin ⊢
    rwa [marks_filter] at hin

/-! ### Sessions are gated -/

/-- The events of the session are gated, and an entry that is ready has a name, which it only has
inside a session. -/
structure PeerView.Gating (X : CStr) (v : PeerView) : Prop where
  gated : Gated X v.log
  named : ∀ p, v.entry = some p → p.name.isSome → InSession X v.log
  ready : ∀ p, v.entry = some p → p.ready = true → p.name.isSome

variable {v w : PeerView} {msg : Msg} {gossip : Bool} {R : Set CStr}

/-- EXIT ends the session, and the entry is gone. -/
theorem PeerView.gating_exit (h : Gated X v.log) : (v.exit X).Gating X where
  gated := h.append_singleton fun he => nomatch he
  named _ hp := nomatch hp
  ready _ hp := nomatch hp

/-- The gate of HELLO leaves the log, or ends it with EXIT. -/
theorem Opened.gated (hw : Opened X v w) (h : v.Gating X) : Gated X w.log := by
  rcases hw with ⟨p, he, hr⟩ | ⟨q, he, hq⟩ | ⟨p, q, he, hr, hq⟩
  · exact h.gated
  · exact h.gated
  · exact (PeerView.gating_exit h.gated).gated

/-- HELLO opens the session, and the JOIN events follow. -/
theorem PeerView.gating_greet (h : Gated X w.log) : ((w.count 1).greet X msg).Gating X := by
  have henter : (Event.enter X msg.name msg.headers msg.endpoint).mark X = some true := by
    simp [Event.mark]
  have hin : InSession X (w.log ++ [.enter X msg.name msg.headers msg.endpoint]) :=
    (inSession_append_mark henter).mpr rfl
  have hgated : Gated X (w.log ++ [.enter X msg.name msg.headers msg.endpoint]) :=
    h.append_singleton fun he => nomatch he
  have hjoins : ∀ e ∈ (msg.groups.getD []).map (Event.join X msg.name), e.mark X = none := by
    simp [Event.mark]
  have hlog : ((w.count 1).greet X msg).log =
      w.log ++ [.enter X msg.name msg.headers msg.endpoint] ++
        (msg.groups.getD []).map (Event.join X msg.name) := by
    simp [greet, count]
  refine ⟨?_, fun _ _ _ => ?_, fun p hp _ => ?_⟩
  · rw [hlog]
    exact hgated.append_inside hin hjoins
  · rw [hlog]
    exact (inSession_append_of_none hjoins).mpr hin
  · obtain ⟨p', -, rfl⟩ := Option.map_eq_some_iff.mp hp
    rfl

/-- Handling a command adds at most one event, which is inside the session. -/
theorem PeerView.take_log (X : CStr) (msg : Msg) (v : PeerView) :
    ∃ es, (v.take X msg).log = v.log ++ es ∧ es.length ≤ 1 ∧ ∀ e ∈ es, e.mark X = none := by
  unfold take
  split
  · exact ⟨_, rfl, le_rfl, by simp [Event.mark]⟩
  · exact ⟨_, rfl, le_rfl, by simp [Event.mark]⟩
  · exact ⟨_, rfl, le_rfl, by simp [Event.mark]⟩
  · exact ⟨_, rfl, le_rfl, by simp [Event.mark]⟩
  · exact ⟨[], by simp⟩

/-- Handling a command keeps the name and the readiness of the entry. -/
theorem PeerView.take_entry {k : UInt16} {p : Peer} (hp : ((v.count k).take X msg).entry = some p) :
    ∃ p₀, v.entry = some p₀ ∧ p.name = p₀.name ∧ p.ready = p₀.ready := by
  have hmap : ∀ u : PeerView, (u.take X msg).entry.map (fun p => (p.name, p.ready)) =
      u.entry.map fun p => (p.name, p.ready) := by
    intro u
    unfold take
    split <;> simp [join, leave, Function.comp_def]
  have hboth : v.entry.map (fun p => (p.name, p.ready)) = some (p.name, p.ready) := by
    rw [← Option.map_some (f := fun p : Peer => (p.name, p.ready)), ← hp, hmap]
    simp [count, Function.comp_def]
  obtain ⟨p₀, hp₀, heq⟩ := Option.map_eq_some_iff.mp hboth
  simp only [Prod.mk.injEq] at heq
  exact ⟨p₀, hp₀, heq.1.symm, heq.2.symm⟩

/-- A message that arrives, whatever becomes of it. -/
theorem PeerView.Gating.arrival (h : v.Gating X) (harrival : Arrival gossip X msg v w) :
    w.Gating X := by
  rcases harrival with - | - | ⟨w, -, hw, -⟩ | ⟨w, -, hw, -⟩ | - | - | ⟨p, -, he, hr, -, -⟩
  · exact h
  · exact gating_exit h.gated
  · exact gating_exit (hw.gated h)
  · exact gating_greet (hw.gated h)
  · exact gating_exit h.gated
  · exact gating_exit h.gated
  · have hin : InSession X v.log := h.named p he (h.ready p he hr)
    obtain ⟨es, hlog, -, hes⟩ := take_log X msg (v.count msg.sequence)
    refine ⟨?_, fun _ _ _ => ?_, fun q hq hqr => ?_⟩
    · rw [hlog]
      exact h.gated.append_inside hin hes
    · rw [hlog]
      exact (inSession_append_of_none hes).mpr hin
    · obtain ⟨p₀, hp₀, hname, hready⟩ := take_entry hq
      rw [hname]
      exact h.ready p₀ hp₀ (hready ▸ hqr)

/-- A purge leaves the name, and makes no entry ready. -/
theorem PeerView.purge_entry {endpoint : CStr} {p : Peer} (hp : (v.purge endpoint).entry = some p) :
    ∃ p₀, v.entry = some p₀ ∧ p.name = p₀.name ∧ (p.ready = true → p₀.ready = true) := by
  obtain ⟨p₀, hp₀, rfl⟩ := Option.map_eq_some_iff.mp hp
  refine ⟨p₀, hp₀, ?_, ?_⟩
  · unfold Node.purgePeer Peer.disconnect
    split_ifs <;> rfl
  · unfold Node.purgePeer Peer.disconnect
    split_ifs <;> simp

/-- What happens to a peer that has not sent the message. -/
theorem PeerView.Gating.aside (h : v.Gating X) (haside : Aside R X v w) : w.Gating X := by
  rcases haside with - | ⟨endpoint⟩ | ⟨q, he, hq⟩ | -
  · exact h
  · refine ⟨h.gated, fun p hp hname => ?_, fun p hp hready => ?_⟩
    · obtain ⟨p₀, hp₀, hname₀, -⟩ := purge_entry hp
      exact h.named p₀ hp₀ (hname₀ ▸ hname)
    · obtain ⟨p₀, hp₀, hname₀, hready₀⟩ := purge_entry hp
      exact hname₀ ▸ h.ready p₀ hp₀ (hready₀ hready)
  · refine ⟨h.gated, fun p hp hname => ?_, fun p hp hready => ?_⟩
    · cases hp
      rw [hq.name] at hname
      cases hname
    · cases hp
      rw [hq.ready] at hready
      cases hready
  · exact gating_exit h.gated

namespace Node

variable {n n' : Node} {env : Env} {input : Input}

/-- `x`, started in `n`, leaves `n'` behind, whether it returns or stops. -/
def Leaves {α : Type} (x : NodeM α) (n n' : Node) : Prop :=
  (∃ a, x n = .ok a n') ∨ ∃ f, x n = .error f n'

/-- What holds wherever a program ends or stops holds of what it leaves behind. -/
theorem Leaves.of_wp {α : Type} {x : NodeM α} {P : Node → Prop} (h : Leaves x n n')
    (hx : x.wp (fun _ => P) (fun _ => P) n) : P n' := by
  rcases h with ⟨a, h⟩ | ⟨f, h⟩
  · exact EStateM.wp_of_ok h hx
  · exact EStateM.wp_of_error h hx

/-- A program that returns leaves nothing else behind. -/
theorem Leaves.eq_of_ok {α : Type} {x : NodeM α} {a : α} {n₁ : Node} (h : Leaves x n n') (hok : x n = .ok a n₁) :
    n' = n₁ := by
  rcases h with ⟨_, h⟩ | ⟨f, h⟩
  · exact (EStateM.Result.ok.inj (h.symm.trans hok)).2
  · cases h.symm.trans hok

/-- A view after an iteration: a message from the peer has arrived, or there was none. -/
def Turns (env : Env) (n : Node) (input : Input) (X : CStr) (v : PeerView) : Prop :=
  (∃ frames uuid, input = .inbox frames ∧ senderOf frames = some uuid ∧ uuid.str = X ∧
    Arrival n.gossip X (Msg.recv frames).msg (n.view X) v) ∨
  Aside (removes env n input) X (n.view X) v

/-- In one iteration every view changes by an arrival or aside. -/
theorem step_view (X : CStr) :
    (Node.step env input).wp (fun _ n' => Turns env n input X (n'.view X))
      (fun _ n' => ∃ v, Turns env n input X v ∧ n'.log X <+: v.log) n := by
  by_cases hX : ∃ uuid, Sender input uuid ∧ uuid.str = X
  · obtain ⟨uuid, ⟨frames, rfl, hsender⟩, rfl⟩ := hX
    simp only [Node.step, recvPeer_of_sender hsender]
    refine EStateM.wp_mono recvMsg_spec ?_ ?_
    · rintro _ n' ⟨v, harrival, hreaches⟩
      rw [hreaches.view]
      exact Or.inl ⟨frames, uuid, rfl, hsender, rfl, harrival⟩
    · rintro _ n' ⟨v, harrival, hwithin⟩
      have h := hwithin uuid.str
      rw [Views.at_self] at h
      exact ⟨v, Or.inl ⟨frames, uuid, rfl, hsender, rfl, harrival⟩, h⟩
  · have hne : ∀ uuid, Sender input uuid → uuid.str ≠ X := fun uuid hs h => hX ⟨uuid, hs, h⟩
    refine EStateM.wp_mono (step_aside hne) (fun _ _ h => Or.inr h) ?_
    rintro _ _ ⟨v, h, hlog⟩
    exact ⟨v, Or.inr h, hlog⟩

/-- The invariant holds of every peer in every reachable state. -/
theorem gating_of_reachable (h : Reachable n) (X : CStr) : (n.view X).Gating X := by
  induction h with
  | new uuid endpoint => exact ⟨gated_nil, fun _ hp => (nomatch hp), fun _ hp => (nomatch hp)⟩
  | step env input hn h ih =>
    rcases EStateM.wp_of_ok h (step_view X) with ⟨frames, uuid, -, -, -, harrival⟩ | haside
    · exact ih.arrival harrival
    · exact ih.aside haside

/-- **Events within sessions.** Whatever an iteration leaves behind, also one that stops half way, each
JOIN, LEAVE, WHISPER and SHOUT event comes after an ENTER of its peer with no EXIT in between. The invariant
`PeerView.Gating` holds in every reachable state (`gating_of_reachable`), and what one more iteration does
to a peer is `step_view`. -/
theorem gated_of_reachable {n n' : Node} {env : Env} {input : Input} (hn : Reachable n)
    (h : Leaves (Node.step env input) n n') (X : CStr) : Gated X n'.outbox := by
  refine gated_filter (h.of_wp (P := fun n' => Gated X (n'.log X)) ?_)
  have hgating := gating_of_reachable hn X
  refine EStateM.wp_mono (step_view X) ?_ ?_
  · rintro _ n₁ (⟨frames, uuid, -, -, -, harrival⟩ | haside)
    · exact (hgating.arrival harrival).gated
    · exact (hgating.aside haside).gated
  · rintro _ n₁ ⟨v, (⟨frames, uuid, -, -, -, harrival⟩ | haside), hlog⟩
    · exact (hgating.arrival harrival).gated.of_prefix hlog
    · exact (hgating.aside haside).gated.of_prefix hlog

/-- The node after a program has returned or stopped. -/
def final {α : Type} : EStateM.Result Fault Node α → Node
  | .ok _ n | .error _ n => n

theorem leaves_final {α : Type} (x : NodeM α) (n : Node) : Leaves x n (final (x n)) := by
  cases h : x n with
  | ok a n' => exact Or.inl ⟨a, h⟩
  | error f n' => exact Or.inr ⟨f, h⟩

/-- A program that is seen to end ends in its final state. -/
theorem eq_of_isOk {x : NodeM Unit} (h : (x n matches .ok ..) = true) :
    x n = .ok ⟨⟩ (final (x n)) := by
  cases hx : x n with
  | ok a n' => rfl
  | error f n' => rw [hx] at h; cases h

/-- And so does an iteration. -/
theorem step_eq_of_isOk (h : (Node.step env input n matches .ok ..) = true) :
    Node.step env input n = .ok ⟨⟩ (final (Node.step env input n)) :=
  eq_of_isOk h

/-- The UUID whose bytes are all `b`. -/
def sampleUuid (b : UInt8) : Uuid := ⟨List.replicate zuuidLen b, by simp⟩

/-- An endpoint within the process. -/
def sampleEndpoint (c : Char) : CStr := CStr.ofChars ['i', 'n', 'p', 'r', 'o', 'c', ':', '/', '/', c]

/-- Surroundings in which a mailbox can be connected to every endpoint that names a transport. -/
def sampleEnv (now : Int64) : Env :=
  ⟨now, fun endpoint => decide ([58, 47, 47] <:+: endpoint.bytes), fun _ => true, false, ∅⟩

/-- A node just started. -/
def sampleNode : Node := Node.new (sampleUuid 0) (sampleEndpoint 'n')

/-- A message from the peer with UUID `sampleUuid b`. -/
def sampleInput (b : UInt8) (msg : Msg) : Input :=
  .inbox ((1 :: (sampleUuid b).data) :: msg.frames)

/-- A HELLO from a peer in one group. -/
def sampleHello : Msg :=
  { (Msg.new .hello).setSequence 1 with
    endpoint := sampleEndpoint 'p', name := CStr.ofChars ['p'], groups := some [CStr.ofChars ['g']] }

/-- The node once the peer has said HELLO. -/
def greetedNode : Node := final (Node.step (sampleEnv 0) (sampleInput 1 sampleHello) sampleNode)

/-- The group of `sampleHello`. -/
def sampleGroup : CStr := CStr.ofChars ['g']

/-- A node that has joined the group. -/
def joinedNode : Node := final (Node.step (sampleEnv 0) (.api (.join sampleGroup)) sampleNode)

/-- A node that has joined the group and contests it. -/
def contestingNode : Node :=
  final (Node.step (sampleEnv 0) (.api (.setContest sampleGroup)) joinedNode)

/-- The only peer in a group of the node, which contests it, while an election is running. -/
def soleNode : Node := final (Node.step (sampleEnv 0) (sampleInput 1 sampleHello) contestingNode)

/-- A peer tells that the first one leads the group. -/
def sampleLeader : Msg :=
  { ((Msg.new .leader).setSequence 2).setGroup sampleGroup with leaderId := (sampleUuid 1).str }

theorem gated_hello : Gated (sampleUuid 1).str
    (final (Node.step (sampleEnv 0) (sampleInput 1 sampleHello) sampleNode)).outbox :=
  gated_of_reachable (.new _ _) (leaves_final _ _) _

end Node

end Zyre
