import Zyre.Node.Expiry

/-!
# The actor loop

`iterate` is one iteration of `zyre_node_actor`: the poller answers, and either an input is handled or,
if the poller has waited in vain and the reap interval is over, a pass is made. A pass is made only when
nothing is ready. `reaps_iff` says so of whole runs: an iteration that begins when a pass is due makes it
exactly if it finds nothing to read.
-/

namespace Zyre

/-- The state of `zyre_node_actor`. `passes` counts the reap passes that have been made. -/
structure Loop where
  node : Node
  lastReapedAt : Int64
  ended : Bool
  passes : ℕ

/-- The answer of the poller: what is ready, with what is read there, or why it stopped waiting. The
pipe is read without a command when it carries `$TERM`. -/
inductive Wake
  | pipe (command : Option Command)
  | inbox (frames : List Frame)
  | beacon (ipaddress : CStr) (frame : Frame) (publicKey : CStr)
  | gossip (uuid : Uuid) (service : CStr)
  | interrupted
  | expired (visited : List CStr)

/-- The loop is left. -/
def Wake.ends : Wake → Bool
  | .pipe none | .interrupted => true
  | _ => false

/-- The poller has waited in vain. -/
def Wake.idle : Wake → Bool
  | .expired _ => true
  | _ => false

namespace Loop

/-- The clock from which a pass is due. -/
def dueAt (l : Loop) : Int64 := l.lastReapedAt + (Node.reapInterval l.node).toInt64

/-- Run a program on the node. -/
def onNode (x : NodeM Unit) : EStateM Fault Loop Unit := fun l =>
  match x l.node with
  | .ok _ n => .ok ⟨⟩ { l with node := n }
  | .error fault n => .error fault { l with node := n }

/-- One iteration of the loop of `zyre_node_actor`. -/
def iterate (env : Env) : Wake → EStateM Fault Loop Unit
  | .pipe (some command) => onNode (Node.recvApi env command)
  | .pipe none | .interrupted => modify fun l => { l with ended := true }
  | .inbox frames => onNode (Node.recvPeer env frames)
  | .beacon ipaddress frame publicKey => onNode (Node.recvBeacon env ipaddress frame publicKey)
  | .gossip uuid service => onNode (Node.recvGossip env uuid service)
  | .expired visited => do
    if (← get).dueAt ≤ env.now then do
      modify fun l => { l with lastReapedAt := env.now, passes := l.passes + 1 }
      onNode (Node.reap env visited)

/-- One iteration of a run: the clock when its timeout was computed, the surroundings once the poller
had answered, and the states before and after it. -/
structure Turn where
  begun : Int64
  env : Env
  wake : Wake
  before : Loop
  after : Loop

/-- The runs of the loop, under a clock that does not go back. -/
inductive Runs : List Turn → Loop → Prop
  | new (uuid : Uuid) (endpoint : CStr) (now : Int64) :
    Runs [] ⟨Node.new uuid endpoint, now, false, 0⟩
  | turn {ts : List Turn} {l l' : Loop} (begun : Int64) (env : Env) (wake : Wake) (hrun : Runs ts l)
      (hon : l.ended = false) (hreaped : l.lastReapedAt ≤ begun) (hpast : ∀ t ∈ ts, t.env.now ≤ begun)
      (hnow : begun ≤ env.now) (h : iterate env wake l = .ok ⟨⟩ l') :
    Runs (ts ++ [⟨begun, env, wake, l, l'⟩]) l'

/-- A pass is due when the iteration begins. -/
def Turn.Due (t : Turn) : Prop := t.before.dueAt ≤ t.begun

/-- The iteration makes a pass. -/
def Turn.Reaps (t : Turn) : Prop := t.after.passes = t.before.passes + 1

instance (t : Turn) : Decidable t.Due := inferInstanceAs (Decidable (_ ≤ _))

instance (t : Turn) : Decidable t.Reaps := inferInstanceAs (Decidable (_ = _))

variable {l l' : Loop} {ts : List Turn} {env : Env} {wake : Wake} {x : NodeM Unit} {begun : Int64}

/-! ### One iteration -/

theorem onNode_ok (h : onNode x l = .ok ⟨⟩ l') :
    ∃ n, x l.node = .ok ⟨⟩ n ∧ l' = { l with node := n } := by
  rw [onNode] at h
  cases hx : x l.node with
  | ok u n =>
    rw [hx] at h
    exact ⟨n, rfl, (EStateM.Result.ok.inj h).2.symm⟩
  | error fault n =>
    rw [hx] at h
    cases h

/-- An iteration makes a pass exactly if the poller has waited in vain until one was due. -/
theorem iterate_passes (h : iterate env wake l = .ok ⟨⟩ l') :
    l'.passes = l.passes + (if wake.idle = true ∧ l.dueAt ≤ env.now then 1 else 0) := by
  have hnode : ∀ {y : NodeM Unit}, onNode y l = .ok ⟨⟩ l' → l'.passes = l.passes := by
    intro y hy
    obtain ⟨n, -, rfl⟩ := onNode_ok hy
    rfl
  cases wake with
  | pipe command =>
    cases command with
    | none =>
      obtain rfl := (EStateM.Result.ok.inj h).2
      rfl
    | some command => exact hnode h
  | inbox frames => exact hnode h
  | beacon ipaddress frame publicKey => exact hnode h
  | gossip uuid service => exact hnode h
  | interrupted =>
    obtain rfl := (EStateM.Result.ok.inj h).2
    rfl
  | expired visited =>
    change (if l.dueAt ≤ env.now then do
      modify fun l => { l with lastReapedAt := env.now, passes := l.passes + 1 }
      onNode (Node.reap env visited) else pure ⟨⟩ : EStateM Fault Loop Unit) l = _ at h
    by_cases hdue : l.dueAt ≤ env.now
    · rw [if_pos hdue] at h
      obtain ⟨n, -, rfl⟩ := onNode_ok h
      rw [if_pos ⟨rfl, hdue⟩]
    · rw [if_neg hdue] at h
      obtain rfl := (EStateM.Result.ok.inj h).2
      rw [if_neg fun hboth => hdue hboth.2]
      rfl

/-- What the node does in an iteration is a step of the node, or nothing. -/
theorem iterate_node (h : iterate env wake l = .ok ⟨⟩ l') :
    l'.node = l.node ∨ ∃ input, Node.step env input l.node = .ok ⟨⟩ l'.node := by
  have hnode : ∀ input, onNode (Node.step env input) l = .ok ⟨⟩ l' →
      l'.node = l.node ∨ ∃ input, Node.step env input l.node = .ok ⟨⟩ l'.node := by
    intro input hy
    obtain ⟨n, hn, rfl⟩ := onNode_ok hy
    exact Or.inr ⟨input, hn⟩
  cases wake with
  | pipe command =>
    cases command with
    | none =>
      obtain rfl := (EStateM.Result.ok.inj h).2
      exact Or.inl rfl
    | some command => exact hnode (.api command) h
  | inbox frames => exact hnode (.inbox frames) h
  | beacon ipaddress frame publicKey => exact hnode (.beacon ipaddress frame publicKey) h
  | gossip uuid service => exact hnode (.gossip uuid service) h
  | interrupted =>
    obtain rfl := (EStateM.Result.ok.inj h).2
    exact Or.inl rfl
  | expired visited =>
    change (if l.dueAt ≤ env.now then do
      modify fun l => { l with lastReapedAt := env.now, passes := l.passes + 1 }
      onNode (Node.reap env visited) else pure ⟨⟩ : EStateM Fault Loop Unit) l = _ at h
    by_cases hdue : l.dueAt ≤ env.now
    · rw [if_pos hdue] at h
      obtain ⟨n, hn, rfl⟩ := onNode_ok h
      exact Or.inr ⟨.reap visited, hn⟩
    · rw [if_neg hdue] at h
      obtain rfl := (EStateM.Result.ok.inj h).2
      exact Or.inl rfl

/-! ### Runs -/

/-- The node goes through states that the model of the node can reach. -/
theorem Runs.reachable (h : Runs ts l) : Node.Reachable l.node := by
  induction h with
  | new uuid endpoint now => exact .new uuid endpoint
  | turn begun env wake hrun hon hreaped hpast hnow h ih =>
    rcases iterate_node h with hsame | ⟨input, hstep⟩
    · rwa [hsame]
    · exact .step env input ih hstep

/-- The iterations of a run. -/
theorem Runs.turns (h : Runs ts l) : ∀ t ∈ ts, t.before.lastReapedAt ≤ t.begun ∧
    t.begun ≤ t.env.now ∧ iterate t.env t.wake t.before = .ok ⟨⟩ t.after := by
  induction h with
  | new uuid endpoint now => exact List.forall_mem_nil _
  | turn begun env wake hrun hon hreaped hpast hnow h ih =>
    intro t ht
    rcases List.mem_append.mp ht with ht | ht
    · exact ih t ht
    · rw [List.mem_singleton.mp ht]
      exact ⟨hreaped, hnow, h⟩

/-- **Passes in time.** In a run, the iterations that begin when a pass is due, and are not the last, make
it exactly if the poller has waited in vain in each of them: the pass is in the branch for an expired
poller, and a socket that always has something keeps the loop from it. -/
theorem reaps_iff (h : Runs ts l) : (∀ t ∈ ts, t.Due → t.wake.ends = false → t.Reaps) ↔
    ∀ t ∈ ts, t.Due → t.wake.ends = false → t.wake.idle = true := by
  refine forall₂_congr fun t ht => ?_
  obtain ⟨-, hclock, hiterate⟩ := h.turns t ht
  refine imp_congr_right fun hdue => imp_congr_right fun _ => ?_
  have hnow : t.before.dueAt ≤ t.env.now := Int64.le_trans hdue hclock
  rw [Turn.Reaps, iterate_passes hiterate]
  by_cases hidle : t.wake.idle = true
  · simp [hidle, hnow]
  · simp [hidle]

/-- The poller has waited as long as it was told to. -/
def Turn.Waits (t : Turn) : Prop :=
  t.begun.toInt + (t.before.node.pollTimeout t.before.lastReapedAt t.begun).toInt ≤ t.env.now.toInt

/-- An iteration in which nothing becomes ready makes a pass, whether one was due when it began or not:
the poller is told to wait until then. -/
theorem reaps_of_idle (h : Runs ts l) : ∀ t ∈ ts, t.wake.idle = true → t.Waits →
    0 ≤ t.before.lastReapedAt.toInt → t.before.lastReapedAt.toInt + 1000 < 2 ^ 63 → t.Reaps := by
  intro t ht hidle hwaits hlow hhigh
  obtain ⟨hreaped, hclock, hiterate⟩ := h.turns t ht
  have hinterval : t.before.node.reapInterval.toNat ≤ 1000 := by
    rw [Node.toNat_reapInterval]
    exact min_le_right _ _
  have hdueAt : t.before.dueAt.toInt = t.before.lastReapedAt.toInt + t.before.node.reapInterval.toNat := by
    rw [dueAt, Int64.toInt_add, Node.toInt_reapInterval]
    exact Int.bmod_eq_of_le (by omega) (by omega)
  have hreaped := Int64.le_iff_toInt_le.mp hreaped
  have hclock := Int64.le_iff_toInt_le.mp hclock
  have hnow : t.before.dueAt ≤ t.env.now := by
    refine Int64.le_iff_toInt_le.mpr ?_
    by_cases hdue : t.before.dueAt.toInt ≤ t.begun.toInt
    · omega
    · -- The rest of the interval is positive, and small enough for the poller.
      have hrest : (t.before.node.pollTimeout t.before.lastReapedAt t.begun).toInt =
          t.before.dueAt.toInt - t.begun.toInt := by
        have hvalue := Node.toInt_rest t.before.node t.before.lastReapedAt t.begun
        rw [Int.bmod_eq_of_le (by omega) (by omega)] at hvalue
        have hnonneg : ¬(t.before.lastReapedAt + t.before.node.reapInterval.toInt64 - t.begun).toInt32 <
            0 := by
          intro hneg
          have hlt := Int32.lt_iff_toInt_lt.mp hneg
          rw [hvalue, Int32.toInt_zero] at hlt
          omega
        simp only [Node.pollTimeout, if_neg hnonneg, hvalue, hdueAt]
      rw [Turn.Waits, hrest] at hwaits
      omega
  rw [Turn.Reaps, iterate_passes hiterate, if_pos ⟨hidle, hnow⟩]

/-! ### A loop that is kept busy -/

theorem onNode_eq {n : Node} (h : x l.node = .ok ⟨⟩ n) : onNode x l = .ok ⟨⟩ { l with node := n } := by
  rw [onNode, h]

/-- A peer is discovered. -/
def sampleWake : Wake :=
  .pipe (some (.requirePeer (Node.sampleUuid 1) (Node.sampleEndpoint 'p') none))

/-- The loop after that. -/
def sampleLoop : Loop := ⟨(Node.momentAt 0 Node.sampleDiscovery Node.sampleNode).after, 0, false, 0⟩

/-- The first iteration. -/
def sampleTurn : Turn := ⟨0, Node.sampleEnv 0, sampleWake, ⟨Node.sampleNode, 0, false, 0⟩, sampleLoop⟩

theorem runs_sampleTurn : Runs [sampleTurn] sampleLoop := by
  have hrun : Runs [] ⟨Node.sampleNode, 0, false, 0⟩ := .new _ _ 0
  have hstep : Node.step (Node.sampleEnv 0) Node.sampleDiscovery Node.sampleNode =
      .ok ⟨⟩ sampleLoop.node := Node.step_eq_of_isOk (by decide +kernel)
  exact .turn 0 (Node.sampleEnv 0) sampleWake hrun rfl (Int64.le_refl 0) (List.forall_mem_nil _)
    (Int64.le_refl 0) (onNode_eq (l := ⟨Node.sampleNode, 0, false, 0⟩) hstep)

/-- The loop after 31 seconds in which nothing was ready. -/
def reapedLoop : Loop :=
  ⟨Node.final (Node.step (Node.sampleEnv 31000) Node.samplePass sampleLoop.node), 31000, false, 1⟩

/-- The second iteration. -/
def idleTurn : Turn :=
  ⟨31000, Node.sampleEnv 31000, .expired [(Node.sampleUuid 1).str], sampleLoop, reapedLoop⟩

/-- After 31 seconds a pass is due, and made. -/
theorem reaps_sample : idleTurn.Due ∧
    ∀ t ∈ [sampleTurn, idleTurn], t.Due → t.wake.ends = false → t.Reaps := by
  have hstep : Node.reap (Node.sampleEnv 31000) [(Node.sampleUuid 1).str] sampleLoop.node =
      .ok ⟨⟩ reapedLoop.node := Node.eq_of_isOk (by decide +kernel)
  have hreap : iterate (Node.sampleEnv 31000) (.expired [(Node.sampleUuid 1).str]) sampleLoop =
      .ok ⟨⟩ reapedLoop := onNode_eq (l := { sampleLoop with lastReapedAt := 31000, passes := 1 }) hstep
  have hrun : Runs [sampleTurn, idleTurn] reapedLoop :=
    runs_sampleTurn.turn 31000 _ _ rfl (by decide) (List.forall_mem_singleton.mpr (by decide))
      (Int64.le_refl _) hreap
  refine ⟨by decide, (reaps_iff hrun).mpr fun t ht hdue _ => ?_⟩
  rcases List.mem_cons.mp ht with rfl | ht
  · exact absurd hdue (by decide)
  · rw [List.mem_singleton.mp ht]
    rfl

/-- The loop is kept from the pass by noise in the inbox. -/
theorem not_reaps_of_noise : ¬∀ ts l, Runs ts l → ∀ t ∈ ts, t.Due → t.wake.ends = false → t.Reaps := by
  intro h
  have hrun := runs_sampleTurn.turn 31000 (Node.sampleEnv 31000) (.inbox [1 :: (Node.sampleUuid 1).data, [0]])
    rfl (by decide) (List.forall_mem_singleton.mpr (by decide)) (Int64.le_refl _)
    (onNode_eq (n := sampleLoop.node) (l := sampleLoop) rfl)
  have hmem := List.mem_append_right [sampleTurn] (List.mem_singleton_self
    (⟨31000, Node.sampleEnv 31000, .inbox [1 :: (Node.sampleUuid 1).data, [0]], sampleLoop, sampleLoop⟩ : Turn))
  exact absurd (h _ _ hrun _ hmem (by decide) rfl) (by decide)

end Loop

end Zyre
