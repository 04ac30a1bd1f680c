import Zyre.Node.Deadlines
import Zyre.Node.Timers

/-!
# Which peers a reap pass removes

The history of a run tells when something was last heard of a peer. A reap pass removes a peer only when
the timeout that was in force then has passed, as long as the deadlines stay in the range of the clock
(`expirySound_of_history`).
-/

namespace Zyre

/-- One iteration of a run, with the states before and after it. -/
structure Moment where
  env : Env
  input : Input
  before : Node
  after : Node

/-- Something is heard of the peer. -/
def Moment.Active (m : Moment) (X : CStr) : Prop := Node.Active m.env m.before m.input m.after X

namespace Node

variable {n n' : Node} {X : CStr} {p p' : Peer} {env : Env} {input : Input} {past : List Moment}
  {C : List Moment → Moment → Prop}

/-- The histories of runs whose iterations satisfy `C`, with the state each ends in. -/
inductive History (C : List Moment → Moment → Prop) : List Moment → Node → Prop
  | new (uuid : Uuid) (endpoint : CStr) : History C [] (Node.new uuid endpoint)
  | step {past : List Moment} {n n' : Node} (env : Env) (input : Input) (hn : History C past n)
      (h : Node.step env input n = .ok ⟨⟩ n') (hc : C past ⟨env, input, n, n'⟩) :
      History C (past ++ [⟨env, input, n, n'⟩]) n'

/-- `m` is the last moment of the past at which something was heard of the peer. -/
def LastActive (past : List Moment) (X : CStr) (m : Moment) : Prop :=
  ∃ earlier later, past = earlier ++ m :: later ∧ m.Active X ∧ ∀ m' ∈ later, ¬m'.Active X

/-- The deadlines of a peer count from the last moment something was heard of it. -/
theorem refreshed_of_history (h : History C past n) (hp : n.peers.lookup X = some p) :
    ∃ m, LastActive past X m ∧ Refreshed m.env m.before p := by
  induction h generalizing p with
  | new uuid endpoint => exact nomatch hp
  | @step past n n' env input hn h hc ih =>
    obtain ⟨hactive, hquiet⟩ := step_deadlines h X
    by_cases hX : Active env n input n' X
    · exact ⟨_, ⟨past, [], rfl, hX, List.forall_mem_nil _⟩, hactive hX p hp⟩
    · obtain ⟨p₀, hp₀, htimes⟩ := hquiet hX p hp
      obtain ⟨m, ⟨earlier, later, hpast, hm, hlater⟩, hrefreshed⟩ := ih hp₀
      obtain ⟨-, hboth⟩ := Prod.mk.inj htimes
      obtain ⟨hevasive, hexpired⟩ := Prod.mk.inj hboth
      refine ⟨m, ⟨earlier, later ++ [_], by rw [hpast, List.append_assoc]; rfl, hm, ?_⟩, ?_⟩
      · intro m' hm'
        rcases List.mem_append.mp hm' with hm' | hm'
        · exact hlater m' hm'
        · rw [List.mem_singleton.mp hm']
          exact hX
      · rwa [Refreshed, ← hevasive, ← hexpired]

/-- `P` holds of every iteration of a history, in view of its past. -/
def Throughout (P : List Moment → Moment → Prop) (past : List Moment) : Prop :=
  ∀ earlier m later, past = earlier ++ m :: later → P earlier m

/-- An iteration of a history starts where the history before it ends. -/
theorem History.throughout (h : History C past n) : Throughout (fun earlier m =>
    History C earlier m.before ∧ Node.step m.env m.input m.before = .ok ⟨⟩ m.after ∧ C earlier m)
    past := by
  induction h with
  | new uuid endpoint =>
    intro earlier m later hpast
    exact absurd hpast.symm (by simp)
  | @step past n n' env input hn h hc ih =>
    intro earlier m later hpast
    rcases List.eq_nil_or_concat later with rfl | ⟨later, last, rfl⟩
    · obtain ⟨rfl, hm⟩ := List.append_inj' hpast rfl
      obtain rfl := (List.cons.inj hm).1
      exact ⟨hn, h, hc⟩
    · rw [List.concat_eq_append, ← List.cons_append, ← List.append_assoc] at hpast
      exact ih earlier m later (List.append_inj' hpast rfl).1

/-- A reap pass removes a peer only if the expiry timeout that was in force when something was last
heard of the peer has passed since. -/
def RemovesLate (past : List Moment) (m : Moment) : Prop :=
  ∀ visited X p, m.input = .reap visited → m.before.peers.lookup X = some p →
    m.after.peers.lookup X = none → ∃ m₀, LastActive past X m₀ ∧
      m₀.env.now.toInt + m₀.before.expiredTimeout.toNat ≤ m.env.now.toInt

/-- A message that is taken and leaves its sender in the table restarts both deadlines, whatever its
command. -/
def Restarts (m : Moment) : Prop :=
  ∀ X p, Heard m.env m.before m.input X → m.after.peers.lookup X = some p → Refreshed m.env m.before p

/-- Where something is heard of a peer, the clock and the expiry timeout add up to less than
`2 ^ 63`. -/
def Fits (_ : List Moment) (m : Moment) : Prop :=
  (∃ X, m.Active X) → m.env.now.toInt + m.before.expiredTimeout.toNat < 2 ^ 63

/-- Within the range of the clock the deadline is the sum. -/
theorem toInt_expiredAt {now : Int64} {d : UInt64} (h : now.toInt + d.toNat < 2 ^ 63) :
    (now.toUInt64 + d).toInt64.toInt = now.toInt + d.toNat := by
  have hle := now.le_toInt
  have hlt := now.toInt_lt
  have hd : d.toInt64.toInt = (d.toNat : ℤ).bmod (2 ^ 64) := toInt_toInt64 d
  rw [UInt64.toInt64_add, Int64.toInt64_toUInt64, Int64.toInt_add, hd, Int.add_bmod_bmod]
  exact Int.bmod_eq_of_le (by omega) (by omega)

/-- A peer that a pass removes has expired. -/
theorem expired_of_removed {visited : List CStr} (h : Node.step env (.reap visited) n = .ok ⟨⟩ n')
    (hp : n.peers.lookup X = some p) (hgone : n'.peers.lookup X = none) :
    p.expiredAt.toInt64 ≤ env.now := by
  rcases (EStateM.wp_of_ok h (reap_drops visited) :) X with hview | ⟨q, -, hX, -⟩
  · have hentry : (n'.view X).entry = none := by simp [hgone]
    rw [hview, view_entry, hp] at hentry
    cases hentry
  · obtain ⟨-, p', hp', hle⟩ := hX
    rwa [Option.some_inj.mp (hp.symm.trans hp')]

/-- **Expiry is sound.** In every run whose deadlines stay in the range of the clock, a pass removes a peer
only if its entry was made, and the last message taken from it was handled, at least as long before as the
expiry timeout in force at that time; and every message that is taken and leaves the peer in the table
starts both deadlines anew. The invariant ties the deadline of every entry to the moment it was last active.
-/
theorem expirySound_of_history (h : History Fits past n) :
    Throughout (fun earlier m => RemovesLate earlier m ∧ Restarts m) past := by
  intro earlier m later hpast
  obtain ⟨hbefore, hstep, -⟩ := h.throughout earlier m later hpast
  constructor
  · intro visited X p hinput hp hgone
    obtain ⟨m₀, hlast, hrefreshed⟩ := refreshed_of_history hbefore hp
    refine ⟨m₀, hlast, ?_⟩
    obtain ⟨first, rest, hearlier, hactive, -⟩ := hlast
    obtain ⟨-, -, hfits⟩ := hbefore.throughout first m₀ rest hearlier
    have hsum := toInt_expiredAt (hfits ⟨X, hactive⟩)
    rw [← hsum, ← hrefreshed.2]
    rw [hinput] at hstep
    exact Int64.le_iff_toInt_le.mp (expired_of_removed hstep hp hgone)
  · intro X p hheard hp
    exact (step_deadlines hstep X).1 (Or.inl hheard) p hp

/-! ### A peer that is discovered and expires -/

/-- The iteration on an input at a clock. -/
def momentAt (now : Int64) (input : Input) (n : Node) : Moment :=
  ⟨sampleEnv now, input, n, final (Node.step (sampleEnv now) input n)⟩

/-- A peer is discovered. -/
def sampleDiscovery : Input := .api (.requirePeer (sampleUuid 1) (sampleEndpoint 'p') none)

/-- A pass that visits it. -/
def samplePass : Input := .reap [(sampleUuid 1).str]

/-- The discovery, and a pass later. -/
def sampleHistory (now later : Int64) : List Moment :=
  let m := momentAt now sampleDiscovery sampleNode
  [m, momentAt later samplePass m.after]

theorem history_sample {now later : Int64}
    (hdiscovery : (Node.step (sampleEnv now) sampleDiscovery sampleNode matches .ok ..) = true)
    (hpass : (Node.step (sampleEnv later) samplePass
      (momentAt now sampleDiscovery sampleNode).after matches .ok ..) = true)
    (hc : ∀ earlier m rest, sampleHistory now later = earlier ++ m :: rest → C earlier m) :
    History C (sampleHistory now later)
      (momentAt later samplePass (momentAt now sampleDiscovery sampleNode).after).after :=
  .step _ _ (.step _ _ (.new _ _) (step_eq_of_isOk hdiscovery) (hc [] _ _ rfl))
    (step_eq_of_isOk hpass) (hc [_] _ [] rfl)

/-- The peer is removed after 30 seconds. -/
theorem expirySound_sample : Throughout (fun earlier m => RemovesLate earlier m ∧ Restarts m)
    (sampleHistory 0 30000) := by
  refine expirySound_of_history (history_sample (by decide +kernel) (by decide +kernel) ?_)
  intro earlier m rest hpast _
  have hmem : m ∈ sampleHistory 0 30000 := by
    rw [hpast]
    exact List.mem_append_right _ List.mem_cons_self
  simp only [sampleHistory, List.mem_cons, List.not_mem_nil, or_false] at hmem
  rcases hmem with rfl | rfl
  · decide +kernel
  · decide +kernel

/-- The clock does not go back, and no timeout is set to a negative value. -/
def Paced (past : List Moment) (m : Moment) : Prop :=
  (∀ m' ∈ past, m'.env.now ≤ m.env.now) ∧
    (∀ value, m.input = .api (.setEvasiveTimeout value) → 0 ≤ value) ∧
    ∀ value, m.input = .api (.setExpiredTimeout value) → 0 ≤ value

/-- Near the end of its range the clock and the timeout add up to a negative deadline: the peer is
removed at once. -/
theorem not_expirySound_of_overflow : ¬∀ past n, History Paced past n →
    Throughout (fun earlier m => RemovesLate earlier m ∧ Restarts m) past := by
  intro h
  set now : Int64 := 9223372036854774808 with hnow
  set discovery := momentAt now sampleDiscovery sampleNode with hdiscovery
  have hpaced : ∀ earlier m rest, sampleHistory now now = earlier ++ m :: rest → Paced earlier m := by
    intro earlier m rest hpast
    have hclock : ∀ m' ∈ sampleHistory now now, m'.env.now = now ∧ ∀ value,
        m'.input ≠ .api (.setEvasiveTimeout value) ∧ m'.input ≠ .api (.setExpiredTimeout value) := by
      intro m' hm'
      simp only [sampleHistory, List.mem_cons, List.not_mem_nil, or_false] at hm'
      rcases hm' with rfl | rfl
      · exact ⟨rfl, fun _ => ⟨fun h => (by cases h), fun h => (by cases h)⟩⟩
      · exact ⟨rfl, fun _ => ⟨fun h => (by cases h), fun h => (by cases h)⟩⟩
    rw [hpast] at hclock
    obtain ⟨hm, hinput⟩ := hclock m (List.mem_append_right _ List.mem_cons_self)
    refine ⟨fun m' hm' => ?_, fun v hv => absurd hv (hinput v).1, fun v hv => absurd hv (hinput v).2⟩
    rw [hm, (hclock m' (List.mem_append_left _ hm')).1]
    exact Int64.le_refl now
  have hhistory := history_sample (by decide +kernel) (by decide +kernel) hpaced
  obtain ⟨hlate, -⟩ := h _ _ hhistory [discovery] _ [] rfl
  obtain ⟨p, hp⟩ : ∃ p, discovery.after.peers.lookup (sampleUuid 1).str = some p :=
    Option.isSome_iff_exists.mp (by decide +kernel)
  obtain ⟨m₀, ⟨earlier, later, hpast, -, -⟩, hle⟩ := hlate _ _ p rfl hp (by decide +kernel)
  have hm₀ : m₀ ∈ [discovery] := by
    rw [hpast]
    exact List.mem_append_right _ List.mem_cons_self
  rw [List.mem_singleton.mp hm₀] at hle
  exact absurd hle (by decide +kernel)

end Node

end Zyre
