import Mathlib.Algebra.BigOperators.Group.Finset.Piecewise
import Mathlib.Algebra.Order.BigOperators.Group.Finset
import Zyre.ForMathlib.Echo.Parts
import Zyre.Node.Ballot

/-!
# A group whose members do not change

The members of an assembly know each other, and their mailboxes neither lose nor reorder anything. Nothing
happens but that messages are delivered, in any order that keeps the mailboxes in theirs. An election in it
is one run of the echo algorithm (`Run.simulates`), so it ends, and every member tells its application once
who leads: the smallest of those that contest the group (`Assembled.elects_smallest`).
-/

namespace Zyre

open Echo

/-- Nodes by their identities, and how many of the messages of the one to the other have been delivered. -/
structure Assembly where
  node : CStr → Node
  taken : CStr → CStr → ℕ

namespace Assembly

variable {g X Y Z : CStr} {S : Finset CStr} {A A' A₀ : Assembly} {env : Env} {msg : Msg} {ms ms' rest : List Msg}
  {n' : Node} {k : ℕ} {s : State CStr}

/-- The messages from `Y` to `X` that are still on their way, the oldest first. -/
def queue (A : Assembly) (Y X : CStr) : List Msg := ((A.node Y).outgoing X).drop (A.taken Y X)

/-- The frames a message of `Y` arrives in: the identity of the mailbox it was sent on, and its own. -/
def frames (A : Assembly) (Y : CStr) (msg : Msg) : List Frame := (1 :: (A.node Y).uuid.data) :: msg.frames

/-- The first message from `Y` to `X` has been delivered, and `X` is `n'` then. -/
def deliver (A : Assembly) (Y X : CStr) (n' : Node) : Assembly where
  node := Function.update A.node X n'
  taken a b := if a = Y ∧ b = X then A.taken a b + 1 else A.taken a b

/-- One delivery between two of the nodes. A node that stops has handled the message too. -/
inductive Delivers (S : Finset CStr) (A : Assembly) : Assembly → Prop
  | mk (Y X : CStr) (hY : Y ∈ S) (hX : X ∈ S) (hne : Y ≠ X) (env : Env) (msg : Msg) (rest : List Msg)
      (hqueue : A.queue Y X = msg :: rest) (n' : Node)
      (h : Node.Leaves (Node.step env (.inbox (A.frames Y msg))) (A.node X) n') :
      Delivers S A (A.deliver Y X n')

/-- The assemblies that `k` deliveries lead to. -/
inductive Run (S : Finset CStr) (A₀ : Assembly) : ℕ → Assembly → Prop
  | start : Run S A₀ 0 A₀
  | step {k : ℕ} {A A' : Assembly} (hA : Run S A₀ k A) (h : Delivers S A A') : Run S A₀ (k + 1) A'

/-- `X` and `Y` are connected and ready, and `ms` is what is on its way from `X` to `Y`: the next messages
that `Y` waits for. -/
structure Linked (A : Assembly) (X Y : CStr) (ms : List Msg) : Prop where
  taken : A.taken X Y ≤ ((A.node X).outgoing Y).length
  peers : ∃ p q, (A.node X).peers.lookup Y = some p ∧ (A.node Y).peers.lookup X = some q ∧
    p.connected = true ∧ p.ready = true ∧ p.sentSequence = q.wantSequence + UInt16.ofNat ms.length ∧
    A.queue X Y = Msg.stamped q.wantSequence ms

/-- The nodes of `S` are the members of the group `g` and know each other. Those that contest it have each
started an election, and nothing else is on its way. -/
structure Assembled (g : CStr) (S : Finset CStr) (A : Assembly) : Prop where
  two : 2 ≤ S.card
  few : S.card ≤ 2 ^ 32
  short : g.length ≤ Msg.fieldSize
  identity : ∀ X ∈ S, (A.node X).identity = X
  reachable : ∀ X ∈ S, Node.Reachable (A.node X)
  members : ∀ X ∈ S, ∀ Y, Y ∈ (A.node X).members g ↔ Y ∈ S ∧ Y ≠ X
  contested : ∃ X ∈ S, (A.node X).contested g = true
  election : ∀ X ∈ S, (A.node X).groupElection g =
    if (A.node X).contested g then some (Election.new.setCaw X) else none
  linked : ∀ X ∈ S, ∀ Y ∈ S, X ≠ Y →
    A.Linked X Y (if (A.node X).contested g then [ballot g (.elect X)] else [])

/-- The applications of `X` have been told of these leaders since `A₀`. -/
def Told (A₀ A : Assembly) (g X : CStr) (told : List CStr) : Prop :=
  leadersIn g (A.node X).outbox = leadersIn g (A₀.node X).outbox ++ told

/-! ### What a delivery does to a link -/

/-- An entry of a linked peer is connected and ready. -/
theorem Linked.entry {p : Peer} (h : A.Linked X Y ms) (hp : (A.node X).peers.lookup Y = some p) :
    p.connected = true ∧ p.ready = true := by
  obtain ⟨-, p', q, hp', -, hconn, hready, -, -⟩ := h
  obtain rfl := Option.some_inj.mp (hp.symm.trans hp')
  exact ⟨hconn, hready⟩

/-- The first message on its way is the first that is listed. -/
theorem Linked.first (h : A.Linked Y X ms) (hqueue : A.queue Y X = msg :: rest) :
    ∃ q m ms', (A.node X).peers.lookup Y = some q ∧ ms = m :: ms' ∧ msg = m.setSequence (q.wantSequence + 1) := by
  obtain ⟨-, p, q, -, hq, -, -, -, hstamped⟩ := h
  rw [hqueue] at hstamped
  cases ms with
  | nil => cases hstamped
  | cons m ms' => exact ⟨q, m, ms', hq, rfl, (List.cons.inj hstamped).1⟩

section

variable {out : CStr → List Msg} {heard : UInt16} {changed : UInt8} {Z' : CStr}

/-- The link from a node takes in what the node has sent. -/
theorem Linked.post (h : A.Linked X Z ms) (hconverses : Node.Converses Y heard changed out (A.node X) (A'.node X))
    (hZ : A'.node Z = A.node Z) (htaken' : A'.taken X Z = A.taken X Z) : A'.Linked X Z (ms ++ out Z) := by
  obtain ⟨htaken, p, q, hp, hq, hconn, hready, hsent, hqueue⟩ := h
  have houtgoing := hconverses.outgoing Z p hp hconn
  obtain ⟨p', hp', hprogress⟩ := hconverses.progress Z p hp hconn
  refine ⟨?_, p', q, hp', by rw [hZ, hq], hprogress.connected.trans hconn, hprogress.ready.trans hready, ?_, ?_⟩
  · rw [htaken', houtgoing, List.length_append]
    exact Nat.le_add_right_of_le htaken
  · rw [hprogress.sent, hsent, List.length_append, UInt16.ofNat_add, UInt16.add_assoc]
  · rw [queue, htaken', houtgoing, List.drop_append_of_le_length htaken, Msg.stamped_append, ← hsent]
    exact congrArg (· ++ _) hqueue

/-- The links to it stay as they are, but for the one it has heard something on. -/
theorem Linked.hold (h : A.Linked Z X ms) (hconverses : Node.Converses Y heard changed out (A.node X) (A'.node X))
    (hback : ∀ q, (A.node X).peers.lookup Z = some q → q.connected = true) (hheard : Z = Y → heard = 0)
    (hZ : A'.node Z = A.node Z) (htaken' : A'.taken Z X = A.taken Z X) : A'.Linked Z X ms := by
  obtain ⟨htaken, p, q, hp, hq, hconn, hready, hsent, hqueue⟩ := h
  obtain ⟨q', hq', hprogress⟩ := hconverses.progress Z q hq (hback q hq)
  have hwant : q'.wantSequence = q.wantSequence := by
    rw [hprogress.want]
    split_ifs with hZY
    · rw [hheard hZY, UInt16.add_zero]
    · rw [UInt16.add_zero]
  refine ⟨by rwa [htaken', hZ], p, q', by rw [hZ, hp], hq', hconn, hready, by rw [hsent, hwant], ?_⟩
  rw [queue, htaken', hZ, hwant]
  exact hqueue

/-- So do the links between others. -/
theorem Linked.aside (h : A.Linked Z Z' ms) (hZ : A'.node Z = A.node Z) (hZ' : A'.node Z' = A.node Z')
    (htaken : A'.taken Z Z' = A.taken Z Z') : A'.Linked Z Z' ms := by
  obtain ⟨htaken', hpeers⟩ := h
  refine ⟨by rwa [htaken, hZ], ?_⟩
  rw [queue, htaken, hZ, hZ']
  exact hpeers

theorem node_deliver_self : (A.deliver Y X n').node X = n' := Function.update_self ..

theorem node_deliver_ne (h : Z ≠ X) : (A.deliver Y X n').node Z = A.node Z := Function.update_of_ne h ..

theorem taken_deliver_ne (a b : CStr) (h : ¬(a = Y ∧ b = X)) : (A.deliver Y X n').taken a b = A.taken a b :=
  if_neg h

/-- The link from the sender loses the message. -/
theorem Linked.take {m : Msg} (h : A.Linked Y X (m :: ms)) (hYX : Y ≠ X)
    (hback : ∀ q, (A.node X).peers.lookup Y = some q → q.connected = true)
    (hconverses : Node.Converses Y 1 changed out (A.node X) n') : (A.deliver Y X n').Linked Y X ms := by
  obtain ⟨htaken, p, q, hp, hq, hconn, hready, hsent, hqueue⟩ := h
  have htaken' : (A.deliver Y X n').taken Y X = A.taken Y X + 1 := if_pos ⟨rfl, rfl⟩
  obtain ⟨q', hq', hprogress⟩ := hconverses.progress Y q hq (hback q hq)
  have hwant : q'.wantSequence = q.wantSequence + 1 := by rw [hprogress.want, if_pos rfl]
  rw [Msg.stamped] at hqueue
  have hlt : A.taken Y X < ((A.node Y).outgoing X).length := by
    refine lt_of_not_ge fun hge => ?_
    rw [queue, List.drop_eq_nil_of_le hge] at hqueue
    cases hqueue
  refine ⟨?_, p, q', ?_, ?_, hconn, hready, ?_, ?_⟩
  · rw [htaken', node_deliver_ne hYX]
    exact hlt
  · rw [node_deliver_ne hYX, hp]
  · rw [node_deliver_self, hq']
  · rw [hsent, hwant, Msg.ofNat_length_cons]
  · rw [queue, htaken', node_deliver_ne hYX, hwant, ← List.drop_drop]
    exact congrArg (List.drop 1) hqueue

/-- What a delivery from `Y` to `X` does to the links: `X` has sent `out`, and the first message from `Y` is
gone. -/
theorem Linked.deliver {a b : CStr} (h : A.Linked a b ms) (hab : a ≠ b) (hYX : Y ≠ X)
    (hback : b = X → ∀ q, (A.node X).peers.lookup a = some q → q.connected = true)
    (hconverses : Node.Converses Y 1 changed out (A.node X) n')
    (hms' : ms' = (if a = Y ∧ b = X then ms.drop 1 else ms) ++ if a = X then out b else [])
    (hfirst : a = Y → b = X → ms ≠ []) : (A.deliver Y X n').Linked a b ms' := by
  have hconverses' : Node.Converses Y 1 changed out (A.node X) ((A.deliver Y X n').node X) := by
    rwa [node_deliver_self]
  by_cases haX : a = X
  · subst haX
    have htaken : (A.deliver Y a n').taken a b = A.taken a b := taken_deliver_ne _ _ fun h => hYX h.1.symm
    rw [if_neg fun h => hYX h.1.symm, if_pos rfl] at hms'
    exact hms' ▸ h.post hconverses' (node_deliver_ne hab.symm) htaken
  · rw [if_neg haX, List.append_nil] at hms'
    by_cases hbX : b = X
    · subst hbX
      by_cases haY : a = Y
      · subst haY
        rw [if_pos ⟨rfl, rfl⟩] at hms'
        obtain ⟨m, rest, rfl⟩ := List.exists_cons_of_ne_nil (hfirst rfl rfl)
        exact hms' ▸ h.take hYX (hback rfl) hconverses
      · rw [if_neg fun h => haY h.1] at hms'
        exact hms' ▸ h.hold hconverses' (hback rfl) (fun h => absurd h haY) (node_deliver_ne haX)
          (taken_deliver_ne _ _ fun h => haY h.1)
    · rw [if_neg fun h => hbX h.2] at hms'
      exact hms' ▸ h.aside (node_deliver_ne haX) (node_deliver_ne hbX) (taken_deliver_ne _ _ fun h => hbX h.2)

end

/-! ### The election that runs in an assembly -/

/-- The members that contest the group. -/
def contestants (A : Assembly) (g : CStr) (S : Finset CStr) : Finset CStr :=
  S.filter fun X => (A.node X).contested g

/-- The assembly is in the state `s` of the election. -/
structure Simulates (g : CStr) (S : Finset CStr) (A₀ : Assembly) (k : ℕ) (A : Assembly) (s : State CStr) :
    Prop where
  identity : ∀ X ∈ S, (A.node X).identity = X
  reachable : ∀ X ∈ S, Node.Reachable (A.node X)
  members : ∀ X ∈ S, ∀ Y, Y ∈ (A.node X).members g ↔ Y ∈ S ∧ Y ≠ X
  fathered : ∀ X ∈ S, (A.node X).Fathered g
  holds : ∀ X ∈ S, Holds ((A.node X).groupElection g) (s.site X).wave
  told : ∀ X ∈ S, Told A₀ A g X (s.site X).told
  linked : ∀ X ∈ S, ∀ Y ∈ S, X ≠ Y → A.Linked X Y ((s.queue X Y).map (ballot g))
  outside : ∀ Y, Y ∉ S → ∀ X, s.queue Y X = []
  count : k = ∑ a ∈ S ×ˢ S, (s.done a.1 a.2).length

/-- If the members are known the voters of a node are the others. -/
theorem voters_eq (h : ∀ Y, Y ∈ (A.node X).members g ↔ Y ∈ S ∧ Y ≠ X) : (A.node X).voters g = S.erase X := by
  ext Y
  rw [Node.mem_voters, h Y, Finset.mem_erase, and_comm]

/-- A member has fewer than 2^32 others. -/
theorem card_voters_lt (hfew : S.card ≤ 2 ^ 32) (hX : X ∈ S) (h : (A.node X).voters g ⊆ S.erase X) :
    ((A.node X).voters g).card < 2 ^ 32 :=
  ((Finset.card_le_card h).trans_lt (Finset.card_erase_lt_of_mem hX)).trans_le hfew

/-- The contestants are the members that contest the group. -/
theorem mem_contestants : X ∈ A.contestants g S ↔ X ∈ S ∧ (A.node X).contested g = true := Finset.mem_filter

/-- The election begins with the contestants in a wave of their own. -/
theorem Assembled.simulates (hA : Assembled g S A) :
    Simulates g S A 0 A (Echo.start S.erase (A.contestants g S)) where
  identity := hA.identity
  reachable := hA.reachable
  members := hA.members
  fathered X hX f hf := by
    obtain ⟨e, he, hfather⟩ := hf
    rw [hA.election X hX] at he
    split_ifs at he
    obtain rfl := Option.some_inj.mp he
    cases hfather
  holds X hX := by
    rw [hA.election X hX, Holds]
    by_cases hcontested : (A.node X).contested g = true
    · simp [Echo.start, mem_contestants, hX, hcontested, Election.toWave, Election.setCaw, Election.new]
    · simp [Echo.start, mem_contestants, hcontested]
  told X hX := (List.append_nil _).symm
  linked X hX Y hY hne := by
    have h := hA.linked X hX Y hY hne
    by_cases hcontested : (A.node X).contested g = true
    · simpa [Echo.start, mem_contestants, hX, hY, hne.symm, hcontested, map_toAll] using h
    · simpa [Echo.start, mem_contestants, hX, hcontested] using h
  outside Y hY X := if_neg fun hmem => hY (mem_contestants.mp hmem).1
  count := by simp [Echo.start]

/-- A delivery is one of the election. -/
theorem Simulates.deliver {I : Finset CStr} (env : Env) (h : Simulates g S A₀ k A s) (hg : g.length ≤ Msg.fieldSize)
    (hfew : S.card ≤ 2 ^ 32) (hI : I ⊆ S) {verdict : CStr → Option CStr}
    (hparts : Parts S.erase I verdict s) (hY : Y ∈ S) (hX : X ∈ S)
    (hne : Y ≠ X) (hqueue : A.queue Y X = msg :: rest) :
    ∃ n' s', Node.step env (.inbox (A.frames Y msg)) (A.node X) = .ok ⟨⟩ n' ∧ Echo.Step S.erase s s' ∧
      Simulates g S A₀ (k + 1) (A.deliver Y X n') s' := by
  obtain ⟨q, m, ms', hq, hms, rfl⟩ := (h.linked Y hY X hX hne).first hqueue
  obtain ⟨t, rest', hs, rfl, rfl⟩ := List.map_eq_cons_iff.mp hms
  have hnbr : Y ∈ S.erase X := Finset.mem_erase.mpr ⟨hne, hY⟩
  have hinitiator : t.initiator ∈ S := hI (hparts.of_queue (hs ▸ List.mem_cons_self)).2
  have hshort : ∀ Z ∈ S, Z.length ≤ Msg.fieldSize := by
    intro Z hZ
    rw [← h.identity Z hZ, Node.identity, Uuid.length_str]
    decide
  have hready : (A.node X).Ready (s.site X) t := by
    rintro r rfl
    refine ⟨hparts.wave_isSome hs hnbr, ?_⟩
    by_cases hr : r = X
    · exact Or.inl (hr.trans (h.identity X hX).symm)
    · obtain ⟨-, p, -, hp, -⟩ := h.linked X hX r hinitiator (Ne.symm hr)
      exact Or.inr (AList.lookup_isSome.mp (Option.isSome_iff_exists.mpr ⟨p, hp⟩))
  have hvoters := voters_eq (h.members X hX)
  have hcount : (s.site X).Counting ((A.node X).voters g) t := hvoters ▸ hparts.counting hs hnbr
  have hstr : (A.node Y).uuid.str = Y := h.identity Y hY
  have hlink := h.linked X hX Y hY hne.symm
  obtain ⟨n', hok, hfathered, e, told, hholds, htold, hanswers⟩ := Node.step_token (t := t) env
    (A.node Y).uuid (Node.sturdy_of_reachable (h.reachable X hX)) (h.fathered X hX) (hstr.symm ▸ hq)
    (hlink.entry hq).2 hg (hshort _ hinitiator) (h.holds X hX) hcount (card_voters_lt hfew hX hvoters.le) hready
  rw [hstr, hvoters, h.identity X hX] at hholds htold hanswers
  have hstep := Echo.Step.deliver Y X t rest' hs hnbr
  set site := ((s.site X).handle (S.erase X) X Y t).1
  set out := ((s.site X).handle (S.erase X) X Y t).2
  have hfrom := hanswers.converses
  refine ⟨n', _, hok, hstep, {
    identity := fun Z hZ => ?_
    reachable := fun Z hZ => ?_
    members := fun Z hZ => ?_
    fathered := fun Z hZ => ?_
    holds := fun Z hZ => ?_
    told := fun Z hZ => ?_
    linked := fun a ha b hb hab => ?_
    outside := fun Z hZ b => ?_
    count := ?_ }⟩
  · by_cases hZX : Z = X
    · subst hZX
      rw [node_deliver_self]
      exact (congrArg Node.identity hanswers.own).trans (h.identity Z hZ)
    · rw [node_deliver_ne hZX]
      exact h.identity Z hZ
  · by_cases hZX : Z = X
    · subst hZX
      rw [node_deliver_self]
      exact .step env _ (h.reachable Z hZ) hok
    · rw [node_deliver_ne hZX]
      exact h.reachable Z hZ
  · by_cases hZX : Z = X
    · subst hZX
      rw [node_deliver_self, hanswers.members]
      exact h.members Z hZ
    · rw [node_deliver_ne hZX]
      exact h.members Z hZ
  · by_cases hZX : Z = X
    · subst hZX
      rw [node_deliver_self]
      exact hfathered
    · rw [node_deliver_ne hZX]
      exact h.fathered Z hZ
  · by_cases hZX : Z = X
    · subst hZX
      rw [node_deliver_self, hanswers.election]
      rwa [State.site_next_self]
    · rw [node_deliver_ne hZX, State.site_next_ne hZX]
      exact h.holds Z hZ
  · by_cases hZX : Z = X
    · subst hZX
      rw [Told, node_deliver_self, hanswers.leaders, h.told Z hZ]
      rw [State.site_next_self, htold, List.append_assoc]
    · rw [Told, node_deliver_ne hZX, State.site_next_ne hZX]
      exact h.told Z hZ
  · have hconn : ∀ Z ∈ S, Z ≠ X → ∀ q, (A.node X).peers.lookup Z = some q → q.connected = true :=
      fun Z hZ hZX q hq => ((h.linked X hX Z hZ hZX.symm).entry hq).1
    refine (h.linked a ha b hb hab).deliver hab hne (fun hbX => ?_) hfrom ?_ fun haY hbX => ?_
    · exact hconn a ha (hbX ▸ hab)
    · simp only [State.next, List.map_append, apply_ite (List.map (ballot g)), List.map_drop, List.map_nil]
    · rw [haY, hbX, hs]
      exact List.cons_ne_nil _ _
  · have hZX : Z ≠ X := fun hZX => hZ (hZX ▸ hX)
    have hZY : Z ≠ Y := fun hZY => hZ (hZY ▸ hY)
    simp [State.next, hZX, hZY, h.outside Z hZ b]
  · have hdone : ∀ a ∈ S ×ˢ S, ((s.next Y X site out).done a.1 a.2).length =
        (s.done a.1 a.2).length + if a = (Y, X) then 1 else 0 := by
      intro a _
      rw [State.done_next hs, List.length_append]
      by_cases ha : a = (Y, X)
      · simp [ha]
      · rw [if_neg ha, if_neg fun h => ha (Prod.ext h.1 h.2)]
        rfl
    rw [Finset.sum_congr rfl hdone, Finset.sum_add_distrib, ← h.count, Finset.sum_ite_eq',
      if_pos (Finset.mk_mem_product hY hX)]

/-! ### Runs -/

/-- Every member knows every other one. -/
theorem graph_erase : Graph S.erase S where
  irrefl x := Finset.notMem_erase x S
  inside x := Finset.erase_subset x S

/-- From any member there is a way to any other. -/
theorem path_erase (a b : CStr) (hb : b ∈ S) : Relation.ReflTransGen (fun a b => b ∈ S.erase a) a b := by
  by_cases hab : b = a
  · rw [hab]
  · exact .single (Finset.mem_erase.mpr ⟨hab, hb⟩)

/-- Nobody is alone. -/
theorem Assembled.nonempty (hA : Assembled g S A) (X : CStr) : (S.erase X).Nonempty := by
  rw [← Finset.card_pos]
  have hcard := Finset.pred_card_le_card_erase (s := S) (a := X)
  have htwo := hA.two
  omega

/-- Every run of an assembly is a run of the election. -/
theorem Run.simulates (hA : Assembled g S A₀) (h : Run S A₀ k A) :
    ∃ s, Echo.Run S.erase (A₀.contestants g S) s ∧ Simulates g S A₀ k A s := by
  induction h with
  | start => exact ⟨_, .start, hA.simulates⟩
  | step hA' h ih =>
    obtain ⟨s, hs, hsim⟩ := ih
    obtain ⟨verdict, hparts⟩ := hs.parts graph_erase fun X _ => hA.nonempty X
    obtain ⟨Y, X, hY, hX, hne, env, msg, rest, hqueue, n', hleaves⟩ := h
    obtain ⟨n'', s', hok, hstep, hsim'⟩ := hsim.deliver env hA.short hA.few (Finset.filter_subset _ _) hparts hY hX
      hne hqueue
    obtain rfl := hleaves.eq_of_ok hok
    exact ⟨s', hs.step hstep, hsim'⟩

/-- What is listed as on its way is on its way. -/
theorem Linked.eq_nil (h : A.Linked X Y ms) (hquiet : A.queue X Y = []) : ms = [] := by
  obtain ⟨-, p, q, -, -, -, -, -, hqueue⟩ := h
  rw [hquiet] at hqueue
  cases ms with
  | nil => rfl
  | cons m ms => cases hqueue

/-- When nothing is under way between the members nothing is in the queues of the waves. -/
theorem Simulates.quiet (h : Simulates g S A₀ k A s) {I : Finset CStr} {verdict : CStr → Option CStr}
    (hparts : Parts S.erase I verdict s) (hquiet : ∀ Y ∈ S, ∀ X ∈ S, Y ≠ X → A.queue Y X = []) (Y X : CStr) :
    s.queue Y X = [] := by
  by_cases hY : Y ∈ S
  · refine List.eq_nil_iff_forall_not_mem.mpr fun t ht => ?_
    have hX := Finset.mem_erase.mp (hparts.of_queue ht).1
    have hnil := (h.linked Y hY X hX.2 hX.1.symm).eq_nil (hquiet Y hY X hX.2 hX.1.symm)
    rw [List.map_eq_nil_iff.mp hnil] at ht
    cases ht
  · exact h.outside Y hY X

/-- **Election.** The members of a group know each other, and each of them that contests the group has
started an election. Then every run of deliveries ends (after at most `S.card * S.card * (S.card + 1)` of
them); in any run every member tells of at most one leader, which is the smallest of those that contest the
group; no delivery stops a node; and when nothing is on its way any more, every member has told of the
leader and is done with the election. A run of the nodes is one of the echo algorithm with extinction
(`Run.simulates`), of which the library proves the rest. -/
theorem Assembled.elects_smallest (hA : Assembled g S A₀) :
    ∃ m ∈ A₀.contestants g S, (∀ i ∈ A₀.contestants g S, m ≤ i) ∧ ∀ k A, Run S A₀ k A →
      k ≤ S.card * S.card * (S.card + 1) ∧
      (∀ X ∈ S, A₀.Told A g X [] ∨ A₀.Told A g X [m]) ∧
      (∀ Y ∈ S, ∀ X ∈ S, Y ≠ X → ∀ msg rest, A.queue Y X = msg :: rest →
        ∀ env, ∃ n', Node.step env (.inbox (A.frames Y msg)) (A.node X) = .ok ⟨⟩ n') ∧
      ((∀ Y ∈ S, ∀ X ∈ S, Y ≠ X → A.queue Y X = []) →
        ∀ X ∈ S, A₀.Told A g X [m] ∧ (A.node X).groupElection g = none) := by
  have hnonempty : (A₀.contestants g S).Nonempty := by
    obtain ⟨X, hX, hcontested⟩ := hA.contested
    exact ⟨X, mem_contestants.mpr ⟨hX, hcontested⟩⟩
  have hI : A₀.contestants g S ⊆ S := Finset.filter_subset _ _
  have hneighbour : ∀ i ∈ A₀.contestants g S, (S.erase i).Nonempty := fun i _ => hA.nonempty i
  have hpath : ∀ a ∈ S, ∀ b ∈ S, Relation.ReflTransGen (fun a b => b ∈ S.erase a) a b :=
    fun a _ b hb => path_erase a b hb
  have hm := Finset.min'_mem _ hnonempty
  have hmin : ∀ i ∈ A₀.contestants g S, (A₀.contestants g S).min' hnonempty ≤ i :=
    fun i hi => Finset.min'_le _ i hi
  refine ⟨_, hm, hmin, fun k A hrun => ?_⟩
  obtain ⟨s, hs, hsim⟩ := hrun.simulates hA
  obtain ⟨verdict, hparts⟩ := hs.parts graph_erase hneighbour
  refine ⟨?_, fun X hX => ?_, fun Y hY X hX hne msg rest hqueue env => ?_, fun hquiet X hX => ?_⟩
  · have hfew : ∀ a ∈ S ×ˢ S, (s.done a.1 a.2).length ≤ S.card + 1 := by
      intro a _
      have hsent : (s.done a.1 a.2).length ≤ (s.sent a.1 a.2).length := by
        rw [State.sent, List.length_append]
        exact Nat.le_add_right _ _
      exact hsent.trans ((hparts.length_le a.1 a.2).trans (Nat.succ_le_succ (Finset.card_le_card hI)))
    calc k = ∑ a ∈ S ×ˢ S, (s.done a.1 a.2).length := hsim.count
      _ ≤ (S ×ˢ S).card • (S.card + 1) := Finset.sum_le_card_nsmul _ _ _ hfew
      _ = S.card * S.card * (S.card + 1) := by rw [Finset.card_product, Nat.nsmul_eq_mul]
  · rcases hs.told graph_erase hI hneighbour hpath hm hmin hX with htold | htold
    · exact Or.inl (htold ▸ hsim.told X hX)
    · exact Or.inr (htold ▸ hsim.told X hX)
  · obtain ⟨n', s', hok, -⟩ := hsim.deliver env hA.short hA.few hI hparts hY hX hne hqueue
    exact ⟨n', hok⟩
  · obtain ⟨hwave, htold⟩ := hs.finished graph_erase hI hneighbour hpath hm hmin (hsim.quiet hparts hquiet) hX
    refine ⟨htold ▸ hsim.told X hX, ?_⟩
    have hholds := hsim.holds X hX
    rw [hwave, Holds, Option.map_none, Option.map_eq_none_iff] at hholds
    exact hholds

/-! ### Two nodes to try things on -/

open Node

/-- A node just started, on an endpoint of its own. -/
def sampleStart (b : UInt8) : Node := Node.new (sampleUuid b) (sampleEndpoint (Char.ofNat (97 + b.toNat)))

/-- The HELLO it sends to everybody. -/
def sampleGreeting (b : UInt8) : Msg := (helloMsg (sampleEnv 0) (sampleStart b)).setSequence 1

/-- The node once it and the others have said HELLO to each other. -/
def sampleMet (b : UInt8) (others : List UInt8) : Node :=
  (play (others.flatMap fun c =>
    [(sampleEnv 0, .api (.requirePeer (sampleUuid c) (sampleStart c).endpoint none)),
      (sampleEnv 0, sampleInput c (sampleGreeting c))]) (sampleStart b)).getD (sampleStart b)

/-- The JOIN it sends next. -/
def sampleJoin : Msg := { (Msg.new .join).setGroup sampleGroup with status := 1 }.setSequence 2

/-- The first node contests the group and joins it, and then the second one joins. -/
def samplePair : Assembly where
  node X :=
    if X = (sampleUuid 0).str then
      (play [(sampleEnv 0, .api (.setContest sampleGroup)), (sampleEnv 0, .api (.join sampleGroup)),
        (sampleEnv 0, sampleInput 1 sampleJoin)] (sampleMet 0 [1])).getD (sampleMet 0 [1])
    else
      (play [(sampleEnv 0, sampleInput 0 sampleJoin), (sampleEnv 0, .api (.join sampleGroup))]
        (sampleMet 1 [0])).getD (sampleMet 1 [0])
  taken _ _ := 2

/-- Their identities. -/
def sampleMembers : Finset CStr := {(sampleUuid 0).str, (sampleUuid 1).str}

theorem reachable_sampleMet (b : UInt8) (others : List UInt8) : Reachable (sampleMet b others) :=
  .play (.new _ _) _

/-- The entry that a node has of `Y`. -/
def entry (A : Assembly) (X Y : CStr) : Peer := ((A.node X).peers.lookup Y).getD (.new 0)

/-- A link, read off the entries the two have of each other. -/
abbrev Entered (A : Assembly) (X Y : CStr) (ms : List Msg) : Prop :=
  A.taken X Y ≤ ((A.node X).outgoing Y).length ∧ ((A.node X).peers.lookup Y).isSome = true ∧
    ((A.node Y).peers.lookup X).isSome = true ∧ (A.entry X Y).connected = true ∧ (A.entry X Y).ready = true ∧
    (A.entry X Y).sentSequence = (A.entry Y X).wantSequence + UInt16.ofNat ms.length ∧
    A.queue X Y = Msg.stamped (A.entry Y X).wantSequence ms

/-- The entry of a peer that is there. -/
theorem lookup_entry (h : ((A.node X).peers.lookup Y).isSome = true) :
    (A.node X).peers.lookup Y = some (A.entry X Y) := by
  obtain ⟨p, hp⟩ := Option.isSome_iff_exists.mp h
  rw [entry, hp, Option.getD_some]

/-- A peer that has entered is linked. -/
theorem linked_of_entered (h : A.Entered X Y ms) : A.Linked X Y ms :=
  ⟨h.1, _, _, lookup_entry h.2.1, lookup_entry h.2.2.1, h.2.2.2⟩

theorem assembled_samplePair : Assembled sampleGroup sampleMembers samplePair where
  two := by decide +kernel
  few := by decide +kernel
  short := by decide
  identity := by decide +kernel
  reachable X hX := by
    unfold samplePair
    dsimp only
    split_ifs
    · exact (reachable_sampleMet 0 [1]).play _
    · exact (reachable_sampleMet 1 [0]).play _
  members X hX Y := by
    have hvoters : ∀ X ∈ sampleMembers, (samplePair.node X).voters sampleGroup = sampleMembers.erase X := by
      decide +kernel
    rw [← mem_voters, hvoters X hX, Finset.mem_erase, and_comm]
  contested := by decide +kernel
  election := by decide +kernel
  linked X hX Y hY hne := by
    have hentry : ∀ X ∈ sampleMembers, ∀ Y ∈ sampleMembers, X ≠ Y →
        samplePair.Entered X Y (if (samplePair.node X).contested sampleGroup then
          [ballot sampleGroup (.elect X)] else []) := by
      decide +kernel
    exact linked_of_entered (hentry X hX Y hY hne)

/-- The first node is the only one that contests the group, so it leads both. -/
theorem elects_smallest_samplePair :
    samplePair.contestants sampleGroup sampleMembers = {(sampleUuid 0).str} ∧
      ∀ k A, Run sampleMembers samplePair k A → k ≤ 12 ∧
        ((∀ Y ∈ sampleMembers, ∀ X ∈ sampleMembers, Y ≠ X → A.queue Y X = []) →
          ∀ X ∈ sampleMembers, samplePair.Told A sampleGroup X [(sampleUuid 0).str] ∧
            (A.node X).groupElection sampleGroup = none) := by
  have hcontestants : samplePair.contestants sampleGroup sampleMembers = {(sampleUuid 0).str} := by
    decide +kernel
  have hcard : sampleMembers.card * sampleMembers.card * (sampleMembers.card + 1) = 12 := by
    decide +kernel
  refine ⟨hcontestants, fun k A hrun => ?_⟩
  obtain ⟨m, hm, -, hall⟩ := assembled_samplePair.elects_smallest
  obtain rfl := Finset.mem_singleton.mp (hcontestants ▸ hm)
  obtain ⟨hfew, -, -, hquiet⟩ := hall k A hrun
  exact ⟨hcard ▸ hfew, hquiet⟩

end Assembly

end Zyre
