import Zyre.ForMathlib.Echo.Growth
import Zyre.Net.Assembly
import Zyre.Node.Enlist

/-!
# A group whose members come one after the other

Nodes that know each other join a group and contest it whenever their applications say so, while messages are
delivered in any order that keeps the mailboxes in theirs (`Course`). As long as a member is told of another
one only while it is in no election and no LEADER is on its way (`Unoccupied`), the elections are those of a
mesh (`Course.embeds`). Then all members that have told of a leader have told of the same one last, when
nothing is on its way (`Course.agree`), and they have told of one if and only if JOIN has reached a member that
contests the group (`Course.told_iff`).
-/

namespace Zyre

open Echo

namespace Assembly

variable {g X Y Z : CStr} {S : Finset CStr} {A A' A₀ : Assembly} {M M' : Mesh CStr} {msg : Msg}
  {ms ms' rest : List Msg} {n₀ n n' : Node} {begun : Bool} {calls hears : Assembly → CStr → Prop}

/-- `X` has been called, and is `n'` then. -/
def call (A : Assembly) (X : CStr) (n' : Node) : Assembly where
  node := Function.update A.node X n'
  taken := A.taken

/-- The nodes of `S` know each other and have nothing to say. None of them is in the group, knows a member of
it or takes part in an election of it. -/
structure Acquainted (g : CStr) (S : Finset CStr) (A : Assembly) : Prop where
  few : S.card ≤ 2 ^ 32
  short : g.length ≤ Msg.fieldSize
  identity : ∀ X ∈ S, (A.node X).identity = X
  reachable : ∀ X ∈ S, Node.Reachable (A.node X)
  ownGroups : ∀ X ∈ S, g ∉ (A.node X).ownGroups
  voters : ∀ X ∈ S, (A.node X).voters g = ∅
  election : ∀ X ∈ S, (A.node X).groupElection g = none
  status : ∀ X ∈ S, ∀ Y ∈ S, X ≠ Y → ∀ q, (A.node Y).peers.lookup X = some q → q.status = (A.node X).status
  linked : ∀ X ∈ S, ∀ Y ∈ S, X ≠ Y → A.Linked X Y []

/-- Nodes are called with SET CONTEST and JOIN and messages are delivered, in any order. `calls` is what must
hold of a node that is to contest the group, and `hears` of one that JOIN is delivered to. `begun` tells
whether JOIN has been delivered to a member that contests the group. -/
inductive Course (calls hears : Assembly → CStr → Prop) (g : CStr) (S : Finset CStr) (A₀ : Assembly) :
    Bool → Assembly → Prop
  | start : Course calls hears g S A₀ false A₀
  | contest {begun : Bool} {A : Assembly} (hA : Course calls hears g S A₀ begun A) (X : CStr) (hX : X ∈ S)
      (hcalls : calls A X) (env : Env) (n' : Node)
      (h : Node.Leaves (Node.step env (.api (.setContest g))) (A.node X) n') :
      Course calls hears g S A₀ begun (A.call X n')
  | join {begun : Bool} {A : Assembly} (hA : Course calls hears g S A₀ begun A) (X : CStr) (hX : X ∈ S)
      (env : Env) (n' : Node) (h : Node.Leaves (Node.step env (.api (.join g))) (A.node X) n') :
      Course calls hears g S A₀ begun (A.call X n')
  | deliver {begun : Bool} {A : Assembly} (hA : Course calls hears g S A₀ begun A) (Y X : CStr) (hY : Y ∈ S)
      (hX : X ∈ S) (hne : Y ≠ X) (env : Env) (msg : Msg) (rest : List Msg) (hqueue : A.queue Y X = msg :: rest)
      (hhears : msg.id = .join → hears A X) (n' : Node)
      (h : Node.Leaves (Node.step env (.inbox (A.frames Y msg))) (A.node X) n') :
      Course calls hears g S A₀ (begun || decide (msg.id = .join ∧ (A.node X).Keen g)) (A.deliver Y X n')

/-- If `X` is in the group it takes part in no election of it, and no LEADER is on its way. -/
def Unoccupied (g : CStr) (S : Finset CStr) (A : Assembly) (X : CStr) : Prop :=
  g ∈ (A.node X).ownGroups → (A.node X).groupElection g = none ∧
    ∀ a ∈ S, ∀ b ∈ S, a ≠ b → ∀ msg ∈ A.queue a b, msg.id ≠ .leader

/-- The leaders of the group that `X` has told of since `A₀`, the latest last. -/
def leadersSince (A₀ A : Assembly) (g X : CStr) : List CStr :=
  (leadersIn g (A.node X).outbox).drop (leadersIn g (A₀.node X).outbox).length

/-! ### The mesh that runs in a course -/

/-- The node is the site `X` of the mesh. -/
structure Mirrors (g : CStr) (n₀ n : Node) (M : Mesh CStr) (X : CStr) : Prop where
  identity : n.identity = X
  reachable : Node.Reachable n
  fathered : n.Fathered g
  voters : n.voters g = M.nbr X
  keen : X ∈ M.keen ↔ n.Keen g
  holds : Holds (n.groupElection g) (M.state.site X).wave
  told : leadersIn g n.outbox = leadersIn g n₀.outbox ++ (M.state.site X).told

/-- A node mirrors a site that has not changed. -/
theorem Mirrors.congr (h : Mirrors g n₀ n M X) (hnbr : M'.nbr X = M.nbr X) (hkeen : X ∈ M'.keen ↔ X ∈ M.keen)
    (hsite : M'.state.site X = M.state.site X) : Mirrors g n₀ n M' X where
  identity := h.identity
  reachable := h.reachable
  fathered := h.fathered
  voters := h.voters.trans hnbr.symm
  keen := hkeen.trans h.keen
  holds := hsite ▸ h.holds
  told := hsite ▸ h.told

/-- The JOIN of `X` that is on its way to `Y`: there is one if `X` has joined and `Y` does not know it yet. -/
inductive Applies (g : CStr) (A : Assembly) (M : Mesh CStr) (X Y : CStr) : List Msg → Prop
  | known (hknown : g ∈ (A.node X).ownGroups → X ∈ M.nbr Y)
      (hstatus : ∀ q, (A.node Y).peers.lookup X = some q → q.status = (A.node X).status) : Applies g A M X Y []
  | unknown (hown : g ∈ (A.node X).ownGroups) (hnew : X ∉ M.nbr Y)
      (hstatus : ∀ q, (A.node Y).peers.lookup X = some q → q.status + 1 = (A.node X).status) :
      Applies g A M X Y [joinMsg g (A.node X).status]

/-- The assembly is the mesh: what is on its way are the messages of the elections, and JOIN before them. -/
structure Embeds (g : CStr) (S : Finset CStr) (A₀ : Assembly) (begun : Bool) (A : Assembly) (M : Mesh CStr) :
    Prop where
  mirrors : ∀ X ∈ S, Mirrors g (A₀.node X) (A.node X) M X
  keen : M.keen ⊆ S
  joined : ∀ X Y, Y ∈ M.nbr X → g ∈ (A.node Y).ownGroups
  sends : ∀ X Y, M.state.queue X Y ≠ [] → X ∈ S ∧ g ∈ (A.node X).ownGroups
  linked : ∀ X ∈ S, ∀ Y ∈ S, X ≠ Y → ∃ ms, Applies g A M X Y ms ∧
    A.Linked X Y (ms ++ (M.state.queue X Y).map (ballot g))
  begun : begun = M.latest.isSome

/-- **The beginning**: nodes that have met and have no election running mirror the empty graph. -/
theorem Acquainted.embeds (hA : Acquainted g S A) : Embeds g S A false A Mesh.empty where
  mirrors X hX := {
    identity := hA.identity X hX
    reachable := hA.reachable X hX
    fathered := fun f hf => by
      obtain ⟨e, he, -⟩ := hf
      cases (hA.election X hX).symm.trans he
    voters := hA.voters X hX
    keen := iff_of_false (Finset.notMem_empty X) fun h => hA.ownGroups X hX h.1
    holds := by
      rw [hA.election X hX]
      rfl
    told := (List.append_nil _).symm }
  keen := Finset.empty_subset S
  joined X Y hY := absurd hY (Finset.notMem_empty Y)
  sends X Y h := absurd rfl h
  linked X hX Y hY hne := by
    refine ⟨[], .known (fun h => absurd h (hA.ownGroups X hX)) (hA.status X hX Y hY hne), ?_⟩
    exact hA.linked X hX Y hY hne
  begun := rfl

/-- A JOIN stays on its way. -/
theorem Applies.congr (h : Applies g A M X Y ms) (hown : (A'.node X).ownGroups = (A.node X).ownGroups)
    (hstatus : (A'.node X).status = (A.node X).status) (hnbr : X ∈ M'.nbr Y ↔ X ∈ M.nbr Y)
    (hentry : ∀ q', (A'.node Y).peers.lookup X = some q' →
      ∃ q, (A.node Y).peers.lookup X = some q ∧ q'.status = q.status) : Applies g A' M' X Y ms := by
  cases h with
  | known hknown hagreed =>
    refine .known (fun h => hnbr.mpr (hknown (hown ▸ h))) fun q' hq' => ?_
    obtain ⟨q, hq, heq⟩ := hentry q' hq'
    rw [heq, hstatus, hagreed q hq]
  | unknown hjoined hnew hagreed =>
    rw [← hstatus]
    refine .unknown (hown ▸ hjoined) (mt hnbr.mp hnew) fun q' hq' => ?_
    obtain ⟨q, hq, heq⟩ := hentry q' hq'
    rw [heq, hstatus, hagreed q hq]

/-- What becomes of an entry of a connected peer. -/
theorem status_of_converses {heard : UInt16} {changed : UInt8} {out : CStr → List Msg} {p p' : Peer}
    (hconverses : Node.Converses Y heard changed out n n') (hp : n.peers.lookup Z = some p)
    (hconn : p.connected = true) (hp' : n'.peers.lookup Z = some p') :
    p'.status = p.status + if Z = Y then changed else 0 := by
  obtain ⟨p₁, hp₁, hprogress⟩ := hconverses.progress Z p hp hconn
  obtain rfl := Option.some_inj.mp (hp'.symm.trans hp₁)
  exact hprogress.status

/-- Any two members have each other as a ready, connected peer. -/
theorem Embeds.entry (h : Embeds g S A₀ begun A M) (hX : X ∈ S) (hY : Y ∈ S) (hne : X ≠ Y) :
    ∃ p, (A.node X).peers.lookup Y = some p ∧ p.connected = true ∧ p.ready = true := by
  obtain ⟨ms, -, -, p, -, hp, -, hconn, hready, -⟩ := h.linked X hX Y hY hne
  exact ⟨p, hp, hconn, hready⟩

/-- Whatever entry one member has of another is connected. -/
theorem Embeds.connected (h : Embeds g S A₀ begun A M) (hX : X ∈ S) (hY : Y ∈ S) (hne : X ≠ Y) (q : Peer)
    (hq : (A.node X).peers.lookup Y = some q) : q.connected = true := by
  obtain ⟨p, hp, hconn, -⟩ := h.entry hX hY hne
  obtain rfl := Option.some_inj.mp (hq.symm.trans hp)
  exact hconn

/-! ### Calls -/

theorem node_call_self : (A.call X n').node X = n' := Function.update_self ..

theorem node_call_ne (h : Z ≠ X) : (A.call X n').node Z = A.node Z := Function.update_of_ne h ..

/-- What a call of `X` does to the links: `X` has sent `out`. -/
theorem Linked.call {a b : CStr} {out : CStr → List Msg} (h : A.Linked a b ms) (hab : a ≠ b)
    (hback : b = X → ∀ q, (A.node X).peers.lookup a = some q → q.connected = true)
    (hconverses : ∀ Y, Node.Converses Y 0 0 out (A.node X) n')
    (hms' : ms' = ms ++ if a = X then out b else []) : (A.call X n').Linked a b ms' := by
  have hconverses' : ∀ Y, Node.Converses Y 0 0 out (A.node X) ((A.call X n').node X) := by
    rwa [node_call_self]
  -- The caller sends on this link, receives on it, or is at neither end.
  by_cases haX : a = X
  · subst haX
    rw [if_pos rfl] at hms'
    exact hms' ▸ h.post (hconverses' a) (node_call_ne hab.symm) rfl
  · rw [if_neg haX, List.append_nil] at hms'
    by_cases hbX : b = X
    · subst hbX
      exact hms' ▸ h.hold (hconverses' a) (hback rfl) (fun _ => rfl) (node_call_ne haX) rfl
    · exact hms' ▸ h.aside (node_call_ne haX) (node_call_ne hbX) rfl

/-- `X` has been called: it may have become keen, and it may have sent JOIN. -/
theorem Embeds.call {out : CStr → List Msg} (h : Embeds g S A₀ begun A M) (hX : X ∈ S)
    (hreachable : Node.Reachable n') (hspeaks : Node.Speaks g out (A.node X) n')
    (hkeen : (A.node X).Keen g → n'.Keen g) (hown : g ∈ (A.node X).ownGroups → g ∈ n'.ownGroups)
    (happlies : ∀ b ∈ S, X ≠ b → ∀ ms, Applies g A M X b ms → ∃ ms', Applies g (A.call X n') M X b ms' ∧
      ms' ++ (M.state.queue X b).map (ballot g) = ms ++ (M.state.queue X b).map (ballot g) ++ out b)
    (hM' : M' = if n'.Keen g then M.rouse X else M) :
    Embeds g S A₀ begun (A.call X n') M' := by
  have hnbr : M'.nbr = M.nbr := by rw [hM']; split_ifs <;> rfl
  have hstate : M'.state = M.state := by rw [hM']; split_ifs <;> rfl
  have hlatest : M'.latest = M.latest := by rw [hM']; split_ifs <;> rfl
  have hkeen' : ∀ Z, Z ∈ M'.keen ↔ Z ∈ M.keen ∨ Z = X ∧ n'.Keen g := by
    intro Z
    rw [hM']
    split_ifs with hn'
    · simp [hn', Mesh.mem_keen_rouse, or_comm]
    · simp [hn']
  have hmirrors := h.mirrors X hX
  refine {
    mirrors := fun Z hZ => ?_
    keen := fun Z hZ => ?_
    joined := fun a b hb => ?_
    sends := fun a b hqueue => ?_
    linked := fun a ha b hb hab => ?_
    begun := h.begun.trans (by rw [hlatest]) }
  · by_cases hZX : Z = X
    · subst hZX
      rw [node_call_self]
      exact {
        identity := hspeaks.identity.trans hmirrors.identity
        reachable := hreachable
        fathered := hspeaks.fathered hmirrors.fathered
        voters := by rw [hspeaks.voters, hmirrors.voters, hnbr]
        keen := by
          rw [hkeen', hmirrors.keen]
          exact ⟨fun hZ => hZ.elim hkeen And.right, fun hn' => Or.inr ⟨rfl, hn'⟩⟩
        holds := by
          rw [hspeaks.election, hstate]
          exact hmirrors.holds
        told := by rw [hspeaks.outbox, hmirrors.told, hstate] }
    · rw [node_call_ne hZX]
      refine (h.mirrors Z hZ).congr (by rw [hnbr]) ?_ (by rw [hstate])
      rw [hkeen']
      exact or_iff_left fun h => hZX h.1
  · rcases (hkeen' Z).mp hZ with hZ | ⟨rfl, -⟩
    · exact h.keen hZ
    · exact hX
  · rw [hnbr] at hb
    have hjoined := h.joined a b hb
    by_cases hbX : b = X
    · subst hbX
      rw [node_call_self]
      exact hown hjoined
    · rwa [node_call_ne hbX]
  · rw [hstate] at hqueue
    obtain ⟨haS, hjoined⟩ := h.sends a b hqueue
    refine ⟨haS, ?_⟩
    by_cases haX : a = X
    · subst haX
      rw [node_call_self]
      exact hown hjoined
    · rwa [node_call_ne haX]
  · obtain ⟨ms, hms, hlinked⟩ := h.linked a ha b hb hab
    have hback : b = X → ∀ q, (A.node X).peers.lookup a = some q → q.connected = true := by
      rintro rfl
      exact h.connected hb ha hab.symm
    by_cases haX : a = X
    · subst haX
      obtain ⟨ms', hms', hout⟩ := happlies b hb hab ms hms
      refine ⟨ms', hms'.congr rfl rfl (by rw [hnbr]) fun q hq => ⟨q, hq, rfl⟩, ?_⟩
      rw [hstate]
      exact hlinked.call hab hback hspeaks.converses (by rw [if_pos rfl, hout])
    · refine ⟨ms, hms.congr (by rw [node_call_ne haX]) (by rw [node_call_ne haX]) (by rw [hnbr])
        fun q' hq' => ?_, ?_⟩
      · by_cases hbX : b = X
        · subst hbX
          rw [node_call_self] at hq'
          obtain ⟨q, hq, hconn, -⟩ := h.entry hb ha hab.symm
          refine ⟨q, hq, ?_⟩
          rw [status_of_converses (hspeaks.converses b) hq hconn hq', ite_self, UInt8.add_zero]
        · rw [node_call_ne hbX] at hq'
          exact ⟨q', hq', rfl⟩
      · rw [hstate]
        exact hlinked.call hab hback hspeaks.converses (by rw [if_neg haX, List.append_nil])

/-- A node that becomes keen is roused in the mesh. -/
theorem run_rouse {c : Prop} [Decidable c] (hM : Mesh.Run S M) :
    Mesh.Run S (if c then M.rouse X else M) := by
  split_ifs
  · exact hM.step (.rouse X)
  · exact hM

/-- **SET CONTEST** makes the site keen; nothing is sent. -/
theorem Embeds.contest {env : Env} (h : Embeds g S A₀ begun A M) (hM : Mesh.Run S M) (hX : X ∈ S)
    (hleaves : Node.Leaves (Node.step env (.api (.setContest g))) (A.node X) n') :
    ∃ M', Mesh.Run S M' ∧ Embeds g S A₀ begun (A.call X n') M' := by
  obtain ⟨n₁, hok, hcontested, hown, hspeaks⟩ := Node.step_setContest (g := g) (n := A.node X) env
  obtain rfl := hleaves.eq_of_ok hok
  have hgroups : n'.ownGroups = (A.node X).ownGroups := (congrArg Node.ownGroups hown :)
  have hstatus : n'.status = (A.node X).status := (congrArg Node.status hown :)
  refine ⟨_, run_rouse hM, h.call hX (.step env _ (h.mirrors X hX).reachable hok) hspeaks
    (fun hkeen => ⟨hgroups ▸ hkeen.1, hcontested⟩) (fun hmem => hgroups ▸ hmem) (fun b hb hXb ms hms => ?_) rfl⟩
  refine ⟨ms, hms.congr ?_ ?_ Iff.rfl fun q hq => ?_, (List.append_nil _).symm⟩
  · rw [node_call_self, hgroups]
  · rw [node_call_self, hstatus]
  · rw [node_call_ne hXb.symm] at hq
    exact ⟨q, hq, rfl⟩

/-- **JOIN** sends a message to each other member; what they make of it comes with its delivery. -/
theorem Embeds.join {env : Env} (h : Embeds g S A₀ begun A M) (hM : Mesh.Run S M) (hX : X ∈ S)
    (hleaves : Node.Leaves (Node.step env (.api (.join g))) (A.node X) n') :
    ∃ M', Mesh.Run S M' ∧ Embeds g S A₀ begun (A.call X n') M' := by
  by_cases hg : g ∈ (A.node X).ownGroups
  · obtain rfl := hleaves.eq_of_ok (Node.step_join_of_mem env hg)
    refine ⟨M, hM, ?_⟩
    have hcall : A.call X (A.node X) = A := by rw [Assembly.call, Function.update_eq_self]
    rwa [hcall]
  · obtain ⟨n₁, hok, hown, hstatus, hcontested, hspeaks⟩ := Node.step_join env hg
    obtain rfl := hleaves.eq_of_ok hok
    refine ⟨_, run_rouse hM, h.call hX (.step env _ (h.mirrors X hX).reachable hok) hspeaks
      (fun hkeen => absurd hkeen.1 hg) (fun hmem => absurd hmem hg) (fun b hb hXb ms hms => ?_) rfl⟩
    -- Nobody lists a node that is not a member, and it has sent no vote: JOIN goes before any vote.
    have hnew : X ∉ M.nbr b := fun hX => hg (h.joined b X hX)
    have hqueue : M.state.queue X b = [] := by
      by_contra hne
      exact hg (h.sends X b hne).2
    have hpeer : b ∈ (A.node X).peers := by
      obtain ⟨p, hp, -⟩ := h.entry hX hb hXb
      exact AList.lookup_isSome.mp (Option.isSome_iff_exists.mpr ⟨p, hp⟩)
    cases hms with
    | unknown hjoined => exact absurd hjoined hg
    | known hknown hagreed =>
      refine ⟨_, .unknown ?_ hnew fun q hq => ?_, ?_⟩
      · rw [node_call_self, hown]
        exact List.mem_append_right _ List.mem_cons_self
      · rw [node_call_ne hXb.symm] at hq
        rw [node_call_self, hstatus, hagreed q hq]
      · rw [node_call_self, hstatus, hqueue, if_pos hpeer]
        rfl

/-! ### Deliveries -/

/-- `X` has handled the first message from `Y`, which it knows now, and has sent `out`. -/
theorem Embeds.hear {changed : UInt8} {out : CStr → List Msg} {begun' : Bool} {m : Msg}
    (h : Embeds g S A₀ begun A M) (hY : Y ∈ S) (hX : X ∈ S) (hne : Y ≠ X)
    (hmirrors : Mirrors g (A₀.node X) n' M' X) (hown : n'.own = (A.node X).own)
    (hconverses : Node.Converses Y 1 changed out (A.node X) n') (hjoined : g ∈ (A.node Y).ownGroups)
    (hstatus : ∀ q, (A.node X).peers.lookup Y = some q → q.status + changed = (A.node Y).status)
    (hfirst : A.Linked Y X (m :: (M'.state.queue Y X).map (ballot g)))
    (hnbr : ∀ Z, Z ≠ X → M'.nbr Z = M.nbr Z) (hnbrX : ∀ Z, Z ∈ M'.nbr X ↔ Z = Y ∨ Z ∈ M.nbr X)
    (hkeen : M'.keen = M.keen) (hsite : ∀ Z, Z ≠ X → M'.state.site Z = M.state.site Z)
    (hqueue : ∀ a b, a ≠ X → ¬(a = Y ∧ b = X) → M'.state.queue a b = M.state.queue a b)
    (hqueueX : ∀ b, (M'.state.queue X b).map (ballot g) = (M.state.queue X b).map (ballot g) ++ out b)
    (hsends : ∀ b, M'.state.queue X b ≠ [] → g ∈ (A.node X).ownGroups)
    (hbegun : begun' = M'.latest.isSome) : Embeds g S A₀ begun' (A.deliver Y X n') M' := by
  have hgroups : ∀ Z, ((A.deliver Y X n').node Z).ownGroups = (A.node Z).ownGroups := by
    intro Z
    by_cases hZX : Z = X
    · subst hZX
      rw [node_deliver_self]
      exact (congrArg Node.ownGroups hown :)
    · rw [node_deliver_ne hZX]
  have hstatuses : ∀ Z, ((A.deliver Y X n').node Z).status = (A.node Z).status := by
    intro Z
    by_cases hZX : Z = X
    · subst hZX
      rw [node_deliver_self]
      exact (congrArg Node.status hown :)
    · rw [node_deliver_ne hZX]
  refine {
    mirrors := fun Z hZ => ?_
    keen := hkeen ▸ h.keen
    joined := fun a b hb => ?_
    sends := fun a b hne' => ?_
    linked := fun a ha b hb hab => ?_
    begun := hbegun }
  · by_cases hZX : Z = X
    · subst hZX
      rwa [node_deliver_self]
    · rw [node_deliver_ne hZX]
      exact (h.mirrors Z hZ).congr (hnbr Z hZX) (by rw [hkeen]) (hsite Z hZX)
  · rw [hgroups]
    by_cases haX : a = X
    · subst haX
      rcases (hnbrX b).mp hb with rfl | hb
      · exact hjoined
      · exact h.joined a b hb
    · rw [hnbr a haX] at hb
      exact h.joined a b hb
  · rw [hgroups]
    by_cases haX : a = X
    · subst haX
      exact ⟨hX, hsends b hne'⟩
    · by_cases hfrom : a = Y ∧ b = X
      · exact ⟨hfrom.1 ▸ hY, hfrom.1 ▸ hjoined⟩
      · rw [hqueue a b haX hfrom] at hne'
        exact h.sends a b hne'
  · have hback : b = X → ∀ q, (A.node X).peers.lookup a = some q → q.connected = true := by
      rintro rfl
      exact h.connected hb ha hab.symm
    by_cases hfrom : a = Y ∧ b = X
    -- The link the message came by: from now on the receiver lists the sender.
    · obtain ⟨rfl, rfl⟩ := hfrom
      refine ⟨[], .known (fun _ => (hnbrX a).mpr (Or.inl rfl)) fun q' hq' => ?_, ?_⟩
      · rw [node_deliver_self] at hq'
        obtain ⟨q, hq, hconn, -⟩ := h.entry hb ha hab.symm
        rw [status_of_converses hconverses hq hconn hq', if_pos rfl, hstatuses, hstatus q hq]
      · refine hfirst.deliver hab hne hback hconverses ?_ fun _ _ => List.cons_ne_nil _ _
        rw [if_pos ⟨rfl, rfl⟩, if_neg hab, List.append_nil]
        rfl
    · obtain ⟨ms, hms, hlinked⟩ := h.linked a ha b hb hab
      refine ⟨ms, hms.congr (hgroups a) (hstatuses a) ?_ fun q' hq' => ?_, ?_⟩
      · by_cases hbX : b = X
        · subst hbX
          rw [hnbrX]
          exact or_iff_right fun haY => hfrom ⟨haY, rfl⟩
        · rw [hnbr b hbX]
      · by_cases hbX : b = X
        · subst hbX
          rw [node_deliver_self] at hq'
          obtain ⟨q, hq, hconn, -⟩ := h.entry hb ha hab.symm
          refine ⟨q, hq, ?_⟩
          rw [status_of_converses hconverses hq hconn hq', if_neg fun haY => hfrom ⟨haY, rfl⟩, UInt8.add_zero]
        · rw [node_deliver_ne hbX] at hq'
          exact ⟨q', hq', rfl⟩
      · refine hlinked.deliver hab hne hback hconverses ?_ fun haY hbX => absurd ⟨haY, hbX⟩ hfrom
        rw [if_neg hfrom]
        by_cases haX : a = X
        · subst haX
          rw [if_pos rfl, hqueueX, List.append_assoc]
        · rw [if_neg haX, hqueue a b haX hfrom, List.append_nil]

/-- JOIN is delivered: the receiver comes to know the sender. -/
theorem Embeds.enlist (env : Env) {q : Peer} (h : Embeds g S A₀ begun A M) (hg : g.length ≤ Msg.fieldSize)
    (hY : Y ∈ S) (hX : X ∈ S) (hne : Y ≠ X) (hjoined : g ∈ (A.node Y).ownGroups)
    (hstatus : ∀ q, (A.node X).peers.lookup Y = some q → q.status + 1 = (A.node Y).status)
    (hlinked : A.Linked Y X (joinMsg g (A.node Y).status :: (M.state.queue Y X).map (ballot g)))
    (hq : (A.node X).peers.lookup Y = some q) :
    ∃ n', Node.step env (.inbox (A.frames Y ((joinMsg g (A.node Y).status).setSequence (q.wantSequence + 1))))
        (A.node X) = .ok ⟨⟩ n' ∧
      Embeds g S A₀ (begun || decide ((A.node X).Keen g)) (A.deliver Y X n') (M.meet X Y) := by
  have hstr : (A.node Y).uuid.str = Y := (h.mirrors Y hY).identity
  have hmirrors := h.mirrors X hX
  obtain ⟨p, hp, -, hready⟩ := h.entry hX hY hne.symm
  obtain rfl := Option.some_inj.mp (hq.symm.trans hp)
  obtain ⟨n', hok, hfathered, henlists⟩ := Node.step_enlists env (A.node Y).uuid
    (Node.sturdy_of_reachable hmirrors.reachable) hmirrors.fathered (hstr.symm ▸ hq) hready hg (hstatus q hq).symm
  rw [hstr, hmirrors.identity, hmirrors.voters] at henlists
  have hgroups : n'.ownGroups = (A.node X).ownGroups := (congrArg Node.ownGroups henlists.own :)
  have hkeen : n'.Keen g ↔ (A.node X).Keen g := Node.keen_congr hgroups (Node.contested_of_inbox hok)
  refine ⟨n', hok, h.hear (m := joinMsg g (A.node Y).status) hY hX hne ?_ henlists.own henlists.converses hjoined
    hstatus ?_ (fun Z hZ => Mesh.nbr_meet_ne hZ) (fun Z => Mesh.mem_nbr_meet_self) rfl
    (fun Z hZ => Mesh.site_meet_ne hZ) (fun a b haX _ => ?_) (fun b => ?_) (fun b hb => ?_) ?_⟩
  · constructor
    · exact (congrArg Node.identity henlists.own :).trans hmirrors.identity
    · exact .step env _ hmirrors.reachable hok
    · exact hfathered
    · ext Z
      rw [henlists.voters, hmirrors.voters, Finset.mem_insert, Mesh.mem_nbr_meet_self]
    · exact hmirrors.keen.trans hkeen.symm
    · rw [henlists.election, Mesh.site_meet_self]
      by_cases hX' : (A.node X).Keen g
      · rw [if_pos hX', if_pos (hmirrors.keen.mpr hX')]
        rfl
      · rw [if_neg hX', if_neg (mt hmirrors.keen.mp hX')]
        exact hmirrors.holds
    · rw [henlists.leaders, hmirrors.told, Mesh.site_meet_self]
      split_ifs <;> rfl
  · rw [Mesh.queue_meet, if_neg hne, List.append_nil]
    exact hlinked
  · rw [Mesh.queue_meet, if_neg haX, List.append_nil]
  · rw [Mesh.queue_meet, if_pos rfl, List.map_append]
    refine congrArg (_ ++ ·) ?_
    by_cases hX' : (A.node X).Keen g
    · rw [if_pos (hmirrors.keen.mpr hX'), map_toAll]
      refine if_congr ?_ rfl rfl
      rw [and_iff_right hX', Finset.mem_insert, Mesh.mem_nbr_meet_self]
    · rw [if_neg (mt hmirrors.keen.mp hX'), if_neg fun h => hX' h.1]
      rfl
  -- A node that is not a member starts no election, and has sent no vote before.
  · by_contra hg'
    have hqueue : M.state.queue X b = [] := by
      by_contra hne
      exact hg' (h.sends X b hne).2
    rw [Mesh.queue_meet, hqueue, if_neg (fun hX' => hg' (hmirrors.keen.mp hX').1), ite_self] at hb
    exact hb rfl
  · rw [Mesh.isSome_latest_meet, h.begun, decide_eq_decide.mpr hmirrors.keen]

/-- A message of an election is delivered. -/
theorem Embeds.token (env : Env) {q : Peer} {t : Token CStr} {toks : List (Token CStr)}
    (h : Embeds g S A₀ begun A M) (hM : Mesh.Run S M) (hfew : S.card ≤ 2 ^ 32) (hg : g.length ≤ Msg.fieldSize)
    (hY : Y ∈ S) (hX : X ∈ S) (hne : Y ≠ X) (hjoined : g ∈ (A.node Y).ownGroups) (hknown : Y ∈ M.nbr X)
    (hstatus : ∀ q, (A.node X).peers.lookup Y = some q → q.status = (A.node Y).status)
    (hqueue : M.state.queue Y X = t :: toks)
    (hlinked : A.Linked Y X ((M.state.queue Y X).map (ballot g))) (hq : (A.node X).peers.lookup Y = some q) :
    ∃ n', Node.step env (.inbox (A.frames Y ((ballot g t).setSequence (q.wantSequence + 1)))) (A.node X) =
        .ok ⟨⟩ n' ∧
      Embeds g S A₀ begun (A.deliver Y X n') { M with
        state := M.state.next Y X ((M.state.site X).handle (M.nbr X) X Y t).1
          ((M.state.site X).handle (M.nbr X) X Y t).2 } := by
  have hstr : (A.node Y).uuid.str = Y := (h.mirrors Y hY).identity
  have hmirrors := h.mirrors X hX
  obtain ⟨p, hp, -, hpready⟩ := h.entry hX hY hne.symm
  obtain rfl := Option.some_inj.mp (hq.symm.trans hp)
  obtain ⟨hXY, hinitiator⟩ := hM.of_queue (t := t) (y := Y) (x := X) (by rw [hqueue]; exact List.mem_cons_self)
  have hshort : t.initiator.length ≤ Msg.fieldSize := by
    rw [← (h.mirrors _ hinitiator).identity, Node.identity, Uuid.length_str]
    decide
  -- LEADER comes in an election the receiver holds, about itself or about a peer it knows.
  have hready : (A.node X).Ready (M.state.site X) t := by
    rintro r rfl
    refine ⟨hM.wave_isSome hqueue hknown, ?_⟩
    by_cases hr : r = X
    · exact Or.inl (hr.trans hmirrors.identity.symm)
    · obtain ⟨p, hp, -⟩ := h.entry hX hinitiator (Ne.symm hr)
      exact Or.inr (AList.lookup_isSome.mp (Option.isSome_iff_exists.mpr ⟨p, hp⟩))
  have hothers : (A.node X).voters g ⊆ S.erase X := fun Z hZ => by
    rw [hmirrors.voters] at hZ
    exact Finset.mem_erase.mpr ⟨fun hZX => hM.graph.irrefl X (hZX ▸ hZ), hM.graph.inside X hZ⟩
  have hcount : (M.state.site X).Counting ((A.node X).voters g) t :=
    hmirrors.voters.symm ▸ hM.counting hqueue hknown
  obtain ⟨n', hok, hfathered, e, told, hholds, htold, hanswers⟩ := Node.step_token (t := t) env (A.node Y).uuid
    (Node.sturdy_of_reachable hmirrors.reachable) hmirrors.fathered (hstr.symm ▸ hq) hpready hg hshort hmirrors.holds
    hcount (card_voters_lt hfew hX hothers) hready
  rw [hstr, hmirrors.voters, hmirrors.identity] at hholds htold hanswers
  have hgroups : n'.ownGroups = (A.node X).ownGroups := (congrArg Node.ownGroups hanswers.own :)
  have hkeen : n'.Keen g ↔ (A.node X).Keen g := Node.keen_congr hgroups (Node.contested_of_inbox hok)
  set site := ((M.state.site X).handle (M.nbr X) X Y t).1
  set out := ((M.state.site X).handle (M.nbr X) X Y t).2
  refine ⟨n', hok, h.hear (m := ballot g t) hY hX hne ?_ hanswers.own hanswers.converses hjoined (fun q hq => ?_) ?_
    (fun Z _ => rfl) (fun Z => ?_) rfl (fun Z hZ => State.site_next_ne hZ) (fun a b haX hfrom => ?_) (fun b => ?_)
    (fun b _ => ?_) h.begun⟩
  · constructor
    · exact (congrArg Node.identity hanswers.own :).trans hmirrors.identity
    · exact .step env _ hmirrors.reachable hok
    · exact hfathered
    · rw [Node.voters_congr hanswers.members, hmirrors.voters]
    · exact hmirrors.keen.trans hkeen.symm
    · rw [hanswers.election]
      show Holds e ((M.state.next Y X site out).site X).wave
      rwa [State.site_next_self]
    · rw [hanswers.leaders, hmirrors.told]
      show _ = _ ++ ((M.state.next Y X site out).site X).told
      rw [State.site_next_self, htold, List.append_assoc]
  · rw [hstatus q hq, UInt8.add_zero]
  · rw [hqueue, List.map_cons] at hlinked
    have hrest : (M.state.next Y X site out).queue Y X = toks := by simp [State.next, hqueue, hne]
    show A.Linked Y X (_ :: ((M.state.next Y X site out).queue Y X).map (ballot g))
    rw [hrest]
    exact hlinked
  · exact ⟨Or.inr, fun hZ => hZ.elim (fun hZY => hZY ▸ hknown) id⟩
  · show (M.state.next Y X site out).queue a b = _
    simp [State.next, hfrom, haX]
  · show ((M.state.next Y X site out).queue X b).map (ballot g) = _
    simp [State.next, hne.symm]
  · exact h.joined Y X hXY

/-! ### Courses -/

/-- A message of a numbered sequence is one of the messages with a number. -/
theorem mem_stamped {k : UInt16} {m : Msg} (hm : m ∈ ms) : ∃ j, m.setSequence j ∈ Msg.stamped k ms := by
  induction ms generalizing k with
  | nil => cases hm
  | cons m' ms ih =>
    rcases List.mem_cons.mp hm with rfl | hm
    · exact ⟨k + 1, List.mem_cons_self⟩
    · obtain ⟨j, hj⟩ := ih hm (k := k + 1)
      exact ⟨j, List.mem_cons_of_mem _ hj⟩

/-- What is on its way in the mesh is on its way between the nodes. -/
theorem Embeds.mem_queue (h : Embeds g S A₀ begun A M) (hM : Mesh.Run S M) {t : Token CStr}
    (ht : t ∈ M.state.queue X Y) : X ∈ S ∧ Y ∈ S ∧ X ≠ Y ∧ ∃ k, (ballot g t).setSequence k ∈ A.queue X Y := by
  have hX := (h.sends X Y (List.ne_nil_of_mem ht)).1
  have hXY := (hM.of_queue ht).1
  have hY := hM.graph.inside X hXY
  have hne : X ≠ Y := fun heq => hM.graph.irrefl X (heq ▸ hXY)
  refine ⟨hX, hY, hne, ?_⟩
  obtain ⟨ms, -, -, p, q, -, -, -, -, -, hqueue⟩ := h.linked X hX Y hY hne
  rw [hqueue]
  exact mem_stamped (List.mem_append_right _ (List.mem_map_of_mem ht))

/-- A member that may be told of another one is at rest in the mesh, and anybody else is apart. -/
theorem Embeds.calm (h : Embeds g S A₀ begun A M) (hM : Mesh.Run S M) (hX : X ∈ S)
    (hfree : Unoccupied g S A X) : M.Calm X ∨ M.Apart X := by
  have hmirrors := h.mirrors X hX
  by_cases hg : g ∈ (A.node X).ownGroups
  · obtain ⟨hnone, hquiet⟩ := hfree hg
    refine Or.inl ⟨?_, fun a b r hr => ?_⟩
    · have hholds := hmirrors.holds
      rw [hnone, Holds, Option.map_none] at hholds
      exact Option.map_eq_none_iff.mp hholds.symm
    · obtain ⟨ha, hb, hab, k, hk⟩ := h.mem_queue hM hr
      exact hquiet a ha b hb hab _ hk rfl
  · exact Or.inr ⟨fun hkeen => hg (hmirrors.keen.mp hkeen).1, fun a ha => hg (h.joined a X ha)⟩

/-- The messages of elections are no JOIN. -/
theorem ballot_id_ne {t : Token CStr} : (ballot g t).id ≠ .join := by
  cases t <;> exact MsgId.noConfusion

/-- No delivery stops a node, and every one is a step of the mesh. -/
theorem Embeds.deliver (env : Env) (h : Embeds g S A₀ begun A M) (hM : Mesh.Run S M)
    (hfew : S.card ≤ 2 ^ 32) (hg : g.length ≤ Msg.fieldSize) (hY : Y ∈ S) (hX : X ∈ S) (hne : Y ≠ X)
    (hqueue : A.queue Y X = msg :: rest) (hfree : msg.id = .join → Unoccupied g S A X) :
    ∃ n', Node.step env (.inbox (A.frames Y msg)) (A.node X) = .ok ⟨⟩ n' ∧
      ∃ M', Mesh.Run S M' ∧ Embeds g S A₀ (begun || decide (msg.id = .join ∧ (A.node X).Keen g))
        (A.deliver Y X n') M' := by
  obtain ⟨ms, hms, hlinked⟩ := h.linked Y hY X hX hne
  obtain ⟨q, m, ms', hq, hfirst, rfl⟩ := hlinked.first hqueue
  cases hms with
  -- The receiver does not list the sender yet: the mesh learns of an edge.
  | unknown hown hnew hstatus =>
    obtain ⟨rfl, rfl⟩ := List.cons.inj hfirst
    have hjoin := hM.step (.meet X Y hX hY hne (h.calm hM hX (hfree rfl)))
    obtain ⟨n', hok, henlists⟩ := h.enlist env hg hY hX hne hown hstatus hlinked hq
    refine ⟨n', hok, _, hjoin, ?_⟩
    have hid : ((joinMsg g (A.node Y).status).setSequence (q.wantSequence + 1)).id = .join := rfl
    simp only [hid, true_and]
    exact henlists
  -- It does: the message is one that the mesh has on its way.
  | known hknown hstatus =>
    obtain ⟨t, toks, htoks, rfl, rfl⟩ := List.map_eq_cons_iff.mp hfirst
    have hjoined := (h.sends Y X (by rw [htoks]; exact List.cons_ne_nil _ _)).2
    obtain ⟨n', hok, hanswers⟩ := h.token env hM hfew hg hY hX hne hjoined (hknown hjoined) hstatus
      htoks hlinked hq
    refine ⟨n', hok, _, hM.step (.deliver Y X t toks htoks (hknown hjoined)), ?_⟩
    have hid : ¬((ballot g t).setSequence (q.wantSequence + 1)).id = .join := ballot_id_ne
    simp only [hid, false_and, decide_false, Bool.or_false]
    exact hanswers

/-- A course is a run of a mesh, as long as members are told of others only while they are unoccupied. -/
theorem Course.embeds (hA : Acquainted g S A₀) (h : Course calls (Unoccupied g S) g S A₀ begun A) :
    ∃ M, Mesh.Run S M ∧ Embeds g S A₀ begun A M := by
  induction h with
  | start => exact ⟨_, .empty, hA.embeds⟩
  | contest _ X hX _ env n' hleaves ih =>
    obtain ⟨M, hM, h⟩ := ih
    exact h.contest hM hX hleaves
  | join _ X hX env n' hleaves ih =>
    obtain ⟨M, hM, h⟩ := ih
    exact h.join hM hX hleaves
  | deliver _ Y X hY hX hne env msg rest hqueue hfree n' hleaves ih =>
    obtain ⟨M, hM, h⟩ := ih
    obtain ⟨n₁, hok, hstep⟩ := h.deliver env hM hA.few hA.short hY hX hne hqueue hfree
    obtain rfl := hleaves.eq_of_ok hok
    exact hstep

/-- **The LEADER events** that a member has put out for the group are what its site has been told. -/
theorem Embeds.leadersSince (h : Embeds g S A₀ begun A M) (hX : X ∈ S) :
    leadersSince A₀ A g X = (M.state.site X).told := by
  rw [Assembly.leadersSince, (h.mirrors X hX).told, List.drop_left]

/-- When nothing is on its way any more, the members are the site that started an election last, if any, and
those that it knows. -/
theorem Embeds.mem_of_quiet (h : Embeds g S A₀ begun A M)
    (hquiet : ∀ Y ∈ S, ∀ X ∈ S, Y ≠ X → A.queue Y X = []) {a : CStr} (ha : a ∈ S) (hX : X ∈ S)
    (hjoined : g ∈ (A.node X).ownGroups) : X = a ∨ X ∈ M.nbr a := by
  by_cases hXa : X = a
  · exact Or.inl hXa
  · obtain ⟨ms, hms, hlinked⟩ := h.linked X hX a ha hXa
    have hnil := hlinked.eq_nil (hquiet X hX a ha hXa)
    cases hms with
    | unknown hown hnew hstatus => cases hnil
    | known hknown hstatus => exact Or.inr (hknown hjoined)

/-- When nothing is under way between the members nothing is in the queues of the graph. -/
theorem Embeds.queue_eq_nil (h : Embeds g S A₀ begun A M) (hM : Mesh.Run S M)
    (hquiet : ∀ Y ∈ S, ∀ X ∈ S, Y ≠ X → A.queue Y X = []) (a b : CStr) : M.state.queue a b = [] := by
  refine List.eq_nil_iff_forall_not_mem.mpr fun t ht => ?_
  obtain ⟨ha, hb, hab, k, hk⟩ := h.mem_queue hM ht
  rw [hquiet a ha b hb hab] at hk
  cases hk

/-- When nothing is on its way any more and an election has begun, all members have told of the same leader
last. -/
theorem Embeds.settled (h : Embeds g S A₀ true A M) (hM : Mesh.Run S M)
    (hquiet : ∀ Y ∈ S, ∀ X ∈ S, Y ≠ X → A.queue Y X = []) : ∃ m, ∀ X ∈ S, g ∈ (A.node X).ownGroups →
      (Assembly.leadersSince A₀ A g X).getLast? = some m := by
  obtain ⟨a, ha⟩ := Option.isSome_iff_exists.mp h.begun.symm
  obtain ⟨m, hm⟩ := hM.settled (h.queue_eq_nil hM hquiet) ha
  refine ⟨m, fun X hX hjoined => ?_⟩
  rw [h.leadersSince hX]
  refine hm X ?_
  exact h.mem_of_quiet hquiet (h.keen (hM.latest_mem ha)) hX hjoined

/-- Before an election has begun nobody has told of a leader. -/
theorem Embeds.untold (h : Embeds g S A₀ false A M) (hM : Mesh.Run S M) (hX : X ∈ S) :
    Assembly.leadersSince A₀ A g X = [] := by
  rw [h.leadersSince hX]
  refine hM.told_eq_nil ?_ X
  by_contra hne
  obtain ⟨a, ha⟩ := Option.ne_none_iff_exists'.mp hne
  have hbegun := h.begun
  rw [ha] at hbegun
  cases hbegun

/-- **Nothing stops.** In every state of a course SET CONTEST and JOIN of the application, and the next
message of any mailbox, are handled without stopping the node: no assertion fails, and no peer is used that
has been freed. -/
theorem Course.goes_on (hA : Acquainted g S A₀) (h : Course calls (Unoccupied g S) g S A₀ begun A) (env : Env) :
    (∀ X ∈ S, ∃ n', Node.step env (.api (.setContest g)) (A.node X) = .ok ⟨⟩ n') ∧
      (∀ X ∈ S, ∃ n', Node.step env (.api (.join g)) (A.node X) = .ok ⟨⟩ n') ∧
      ∀ Y ∈ S, ∀ X ∈ S, Y ≠ X → ∀ msg rest, A.queue Y X = msg :: rest → (msg.id = .join → Unoccupied g S A X) →
        ∃ n', Node.step env (.inbox (A.frames Y msg)) (A.node X) = .ok ⟨⟩ n' := by
  refine ⟨fun X _ => ?_, fun X _ => ?_, fun Y hY X hX hne msg rest hqueue hfree => ?_⟩
  · obtain ⟨n', hok, -⟩ := Node.step_setContest (g := g) (n := A.node X) env
    exact ⟨n', hok⟩
  · by_cases hg : g ∈ (A.node X).ownGroups
    · exact ⟨_, Node.step_join_of_mem env hg⟩
    · obtain ⟨n', hok, -⟩ := Node.step_join env hg
      exact ⟨n', hok⟩
  · obtain ⟨M, hM, hembeds⟩ := h.embeds hA
    obtain ⟨n', hok, -⟩ := hembeds.deliver env hM hA.few hA.short hY hX hne hqueue hfree
    exact ⟨n', hok⟩

/-- **Agreement in a growing group.** Nodes join a group and come to contest it at any time, while messages
are delivered in any order. When nothing is on its way, all members have told of the same leader last, or of
none. The nodes run the library's mesh, which grows by joining sites, and the mesh agrees once it is quiet
(`Embeds.settled`). -/
theorem Course.agree (hA : Acquainted g S A₀) (h : Course calls (Unoccupied g S) g S A₀ begun A)
    (hquiet : ∀ Y ∈ S, ∀ X ∈ S, Y ≠ X → A.queue Y X = []) (hX : X ∈ S) (hY : Y ∈ S)
    (hXg : g ∈ (A.node X).ownGroups) (hYg : g ∈ (A.node Y).ownGroups) :
    (leadersSince A₀ A g X).getLast? = (leadersSince A₀ A g Y).getLast? := by
  obtain ⟨M, hM, hembeds⟩ := h.embeds hA
  cases begun with
  | false => rw [hembeds.untold hM hX, hembeds.untold hM hY]
  | true =>
    obtain ⟨m, hm⟩ := hembeds.settled hM hquiet
    rw [hm X hX hXg, hm Y hY hYg]

/-- **A leader is told.** When nothing is on its way, every member has told of a leader if JOIN has been
delivered to a member that contests the group, and none has otherwise. An election begins with a JOIN and
not with SET CONTEST: a group whose members come to contest it later has no leader. -/
theorem Course.told_iff (hA : Acquainted g S A₀) (h : Course calls (Unoccupied g S) g S A₀ begun A)
    (hquiet : ∀ Y ∈ S, ∀ X ∈ S, Y ≠ X → A.queue Y X = []) (hX : X ∈ S) (hXg : g ∈ (A.node X).ownGroups) :
    leadersSince A₀ A g X ≠ [] ↔ begun = true := by
  obtain ⟨M, hM, hembeds⟩ := h.embeds hA
  cases begun with
  | false => exact iff_of_false (not_not.mpr (hembeds.untold hM hX)) Bool.false_ne_true
  | true =>
    obtain ⟨m, hm⟩ := hembeds.settled hM hquiet
    refine iff_of_true (fun hnil => ?_) rfl
    have hlast := hm X hX hXg
    rw [hnil] at hlast
    cases hlast

/-! ### Two nodes to try things on -/

open Node

instance : Decidable (Unoccupied g S A X) :=
  inferInstanceAs (Decidable (_ → _ ∧ ∀ a ∈ S, ∀ b ∈ S, a ≠ b → ∀ msg ∈ A.queue a b, msg.id ≠ .leader))

/-- What happens next in a course. -/
inductive Turn
  | contest (X : CStr)
  | join (X : CStr)
  | deliver (Y X : CStr)

/-- What comes of it, if it can happen. -/
def turn (g : CStr) (S : Finset CStr) : Bool × Assembly → Turn → Option (Bool × Assembly)
  | (begun, A), .contest X =>
    if X ∈ S then some (begun, A.call X (final (Node.step (sampleEnv 0) (.api (.setContest g)) (A.node X))))
    else none
  | (begun, A), .join X =>
    if X ∈ S then some (begun, A.call X (final (Node.step (sampleEnv 0) (.api (.join g)) (A.node X)))) else none
  | (begun, A), .deliver Y X =>
    match A.queue Y X with
    | [] => none
    | msg :: _ =>
      if Y ∈ S ∧ X ∈ S ∧ Y ≠ X ∧ (msg.id = .join → Unoccupied g S A X) then
        some (begun || decide (msg.id = .join ∧ (A.node X).Keen g),
          A.deliver Y X (final (Node.step (sampleEnv 0) (.inbox (A.frames Y msg)) (A.node X))))
      else none

/-- One turn of a sample goes on with its course. -/
theorem Course.turn {t : Turn} (h : Course (fun _ _ => True) (Unoccupied g S) g S A₀ begun A)
    (ht : Assembly.turn g S (begun, A) t = some (begun', A')) :
    Course (fun _ _ => True) (Unoccupied g S) g S A₀ begun' A' := by
  cases t with
  | contest X =>
    obtain ⟨hX, heq⟩ := Option.ite_none_right_eq_some.mp ht
    obtain ⟨rfl, rfl⟩ := Prod.mk.inj (Option.some.inj heq)
    exact h.contest X hX trivial (sampleEnv 0) _ (leaves_final _ _)
  | join X =>
    obtain ⟨hX, heq⟩ := Option.ite_none_right_eq_some.mp ht
    obtain ⟨rfl, rfl⟩ := Prod.mk.inj (Option.some.inj heq)
    exact h.join X hX (sampleEnv 0) _ (leaves_final _ _)
  | deliver Y X =>
    unfold Assembly.turn at ht
    dsimp only at ht
    split at ht
    · cases ht
    · rename_i msg rest hqueue
      obtain ⟨⟨hY, hX, hne, hfree⟩, heq⟩ := Option.ite_none_right_eq_some.mp ht
      obtain ⟨rfl, rfl⟩ := Prod.mk.inj (Option.some.inj heq)
      exact h.deliver Y X hY hX hne (sampleEnv 0) msg rest hqueue hfree _ (leaves_final _ _)

/-- So do several. -/
theorem Course.turns {ts : List Turn} {a : Bool × Assembly}
    (h : Course (fun _ _ => True) (Unoccupied g S) g S A₀ begun A)
    (ht : ts.foldlM (Assembly.turn g S) (begun, A) = some a) :
    Course (fun _ _ => True) (Unoccupied g S) g S A₀ a.1 a.2 := by
  induction ts generalizing begun A with
  | nil =>
    obtain rfl := Option.some.inj ht
    exact h
  | cons t ts ih =>
    rw [List.foldlM_cons] at ht
    obtain ⟨⟨begun', A'⟩, hfirst, hrest⟩ := Option.bind_eq_some_iff.mp ht
    exact ih (h.turn hfirst) hrest

/-- Two nodes that have said HELLO to each other. -/
def sampleAcquainted : Assembly where
  node X := if X = (sampleUuid 0).str then sampleMet 0 [1] else sampleMet 1 [0]
  taken _ _ := 1

theorem acquainted_sample : Acquainted sampleGroup sampleMembers sampleAcquainted where
  few := by decide +kernel
  short := by decide
  identity := by decide +kernel
  reachable X hX := by
    unfold sampleAcquainted
    dsimp only
    split_ifs
    · exact reachable_sampleMet 0 [1]
    · exact reachable_sampleMet 1 [0]
  ownGroups := by decide +kernel
  voters := by decide +kernel
  election := by decide +kernel
  status X hX Y hY hne q hq := by
    have hentry : ∀ X ∈ sampleMembers, ∀ Y ∈ sampleMembers, X ≠ Y →
        ((sampleAcquainted.node Y).peers.lookup X).isSome = true ∧
          (sampleAcquainted.entry Y X).status = (sampleAcquainted.node X).status := by
      decide +kernel
    obtain ⟨hsome, hstatus⟩ := hentry X hX Y hY hne
    obtain rfl := Option.some.inj ((lookup_entry hsome).symm.trans hq)
    exact hstatus
  linked X hX Y hY hne := by
    have hentry : ∀ X ∈ sampleMembers, ∀ Y ∈ sampleMembers, X ≠ Y → sampleAcquainted.Entered X Y [] := by
      decide +kernel
    exact linked_of_entered (hentry X hX Y hY hne)

/-- The first one contests the group and both join it. JOIN of the second starts an election, which ends. -/
def sampleTurns : List Turn :=
  [.contest (sampleUuid 0).str, .join (sampleUuid 0).str, .deliver (sampleUuid 0).str (sampleUuid 1).str,
    .join (sampleUuid 1).str, .deliver (sampleUuid 1).str (sampleUuid 0).str,
    .deliver (sampleUuid 0).str (sampleUuid 1).str, .deliver (sampleUuid 1).str (sampleUuid 0).str,
    .deliver (sampleUuid 0).str (sampleUuid 1).str, .deliver (sampleUuid 1).str (sampleUuid 0).str]

/-- What the first `k` of it lead to. -/
def sampleAfter (k : ℕ) : Bool × Assembly :=
  ((sampleTurns.take k).foldlM (turn sampleGroup sampleMembers) (false, sampleAcquainted)).getD
    (false, sampleAcquainted)

theorem course_sampleAfter (k : ℕ) : Course (fun _ _ => True) (Unoccupied sampleGroup sampleMembers) sampleGroup
    sampleMembers sampleAcquainted (sampleAfter k).1 (sampleAfter k).2 := by
  unfold sampleAfter
  cases h : (sampleTurns.take k).foldlM (turn sampleGroup sampleMembers) (false, sampleAcquainted) with
  | none => exact .start
  | some a => exact Course.start.turns h

/-- The first one has started an election, and its ELECT does not stop the second one. -/
theorem goes_on_sampleAfter : ∃ msg rest,
    (sampleAfter 5).2.queue (sampleUuid 0).str (sampleUuid 1).str = msg :: rest ∧ msg.id = .elect ∧
      ∃ n', Node.step (sampleEnv 0) (.inbox ((sampleAfter 5).2.frames (sampleUuid 0).str msg))
        ((sampleAfter 5).2.node (sampleUuid 1).str) = .ok ⟨⟩ n' := by
  have hid : (((sampleAfter 5).2.queue (sampleUuid 0).str (sampleUuid 1).str).head?.map Msg.id) = some .elect := by
    decide +kernel
  obtain ⟨msg, hhead, hid⟩ := Option.map_eq_some_iff.mp hid
  obtain ⟨rest, hqueue⟩ := List.head?_eq_some_iff.mp hhead
  refine ⟨msg, rest, hqueue, hid, ?_⟩
  refine ((course_sampleAfter 5).goes_on acquainted_sample (sampleEnv 0)).2.2 _ (by decide +kernel) _
    (by decide +kernel) (by decide +kernel) msg rest hqueue fun hjoin => ?_
  cases hid.symm.trans hjoin

theorem quiet_sampleAfter : ∀ Y ∈ sampleMembers, ∀ X ∈ sampleMembers, Y ≠ X →
    (sampleAfter 9).2.queue Y X = [] := by
  decide +kernel

theorem joined_sampleAfter : ∀ X ∈ sampleMembers, sampleGroup ∈ ((sampleAfter 9).2.node X).ownGroups := by
  decide +kernel

/-- The first one has told of itself, so the second one has too. -/
theorem agree_sampleAfter :
    leadersSince sampleAcquainted (sampleAfter 9).2 sampleGroup (sampleUuid 0).str = [(sampleUuid 0).str] ∧
      (leadersSince sampleAcquainted (sampleAfter 9).2 sampleGroup (sampleUuid 1).str).getLast? =
        (leadersSince sampleAcquainted (sampleAfter 9).2 sampleGroup (sampleUuid 0).str).getLast? :=
  ⟨by decide +kernel, (course_sampleAfter 9).agree acquainted_sample quiet_sampleAfter (by decide +kernel)
    (by decide +kernel) (joined_sampleAfter _ (by decide +kernel)) (joined_sampleAfter _ (by decide +kernel))⟩

/-- JOIN has reached a member that contests the group, so both have told of a leader. -/
theorem told_iff_sampleAfter : (sampleAfter 9).1 = true ∧
    ∀ X ∈ sampleMembers, leadersSince sampleAcquainted (sampleAfter 9).2 sampleGroup X ≠ [] := by
  have hbegun : (sampleAfter 9).1 = true := by decide +kernel
  refine ⟨hbegun, fun X hX => ?_⟩
  exact ((course_sampleAfter 9).told_iff acquainted_sample quiet_sampleAfter hX
    (joined_sampleAfter X hX)).mpr hbegun

end Assembly

end Zyre
