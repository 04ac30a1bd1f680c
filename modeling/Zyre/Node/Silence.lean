import Zyre.Node.Additions
import Zyre.Node.Pass

/-!
# When a peer is called silent

A pass puts SILENT out of a peer that has been evasive for a reap interval. Whether it was ever sent a
PING does not matter: the first pass after the evasive deadline may come late enough to do both at once.
`unanswered_of_history` says that a PING comes before, and stays unanswered, if the pass before came after
the deadline and the peer had its mailbox then.
-/

namespace Zyre

/-- The iteration is a pass that sends the peer a PING. -/
def Moment.Pings (m : Moment) (X : CStr) : Prop :=
  (∃ visited, m.input = .reap visited) ∧ m.before.pingsTo X < m.after.pingsTo X

namespace Node

variable {n n' : Node} {X : CStr} {p p' : Peer} {env : Env} {input : Input}
  {past earlier later : List Moment} {m : Moment} {C : List Moment → Moment → Prop}

/-- A pass has sent the peer a PING, and no message of it has been taken since. -/
def Unanswered (past : List Moment) (X : CStr) : Prop :=
  ∃ earlier m later, past = earlier ++ m :: later ∧ m.Pings X ∧
    ∀ m' ∈ later, ¬Heard m'.env m'.before m'.input X

/-- Only peers that have left a PING unanswered are called silent. -/
def SilentUnanswered (past : List Moment) (m : Moment) : Prop :=
  ∀ es X name, m.after.outbox = m.before.outbox ++ es → .silent X name ∈ es → Unanswered past X

/-- The last pass of the past came at the time or later, and found the peer with a mailbox. -/
def PassedAt (past : List Moment) (X : CStr) (time : Int64) : Prop :=
  ∃ earlier m₁ later visited₁, past = earlier ++ m₁ :: later ∧ m₁.input = .reap visited₁ ∧
    (∀ m' ∈ later, ∀ visited, m'.input ≠ .reap visited) ∧ time ≤ m₁.env.now ∧
      X ∈ visited₁ ∧ m₁.before.reaches X = true

/-- The clock does not go back, the evasive timeout is not zero and within the range of the clock where
something is heard of a peer, and no pass that finds a peer evasive for a reap interval is the first one
since its evasive deadline. -/
structure Punctual (past : List Moment) (m : Moment) : Prop where
  clock : ∀ m' ∈ past, m'.env.now ≤ m.env.now
  timeout : (∃ X, m.Active X) → 0 < m.before.evasiveTimeout.toNat ∧
    m.env.now.toInt + m.before.evasiveTimeout.toNat < 2 ^ 63
  passed : ∀ visited X p, m.input = .reap visited → Overdue m.env m.before visited X →
    m.before.peers.lookup X = some p → PassedAt past X p.evasiveAt.toInt64

/-- Since an iteration after which nothing is heard of a peer, its deadlines are what they were. -/
theorem History.ages (h : History C past n) (hpast : past = earlier ++ m :: later)
    (hquiet : ∀ m' ∈ later, ¬m'.Active X) : AgesAt X m.after n := by
  induction h generalizing later with
  | new uuid endpoint => exact absurd hpast.symm (by simp)
  | @step past n n' env input hn h hc ih =>
    rcases List.eq_nil_or_concat later with rfl | ⟨later, last, rfl⟩
    · obtain ⟨-, hm⟩ := List.append_inj' hpast rfl
      obtain rfl := (List.cons.inj hm).1
      exact .refl
    · rw [List.concat_eq_append] at hquiet
      rw [List.concat_eq_append, ← List.cons_append, ← List.append_assoc] at hpast
      obtain ⟨hearlier, hlast⟩ := List.append_inj' hpast rfl
      obtain rfl := (List.cons.inj hlast).1
      have hages := ih hearlier fun m' hm' => hquiet m' (List.mem_append_left _ hm')
      refine hages.trans ((step_deadlines h X).2 ?_)
      exact hquiet _ (List.mem_append_right _ (List.mem_singleton_self _))

/-- A visit after the evasive deadline sends a PING to a peer that has not expired. -/
theorem pings_of_visit {visited : List CStr} (h : Node.step env (.reap visited) n = .ok ⟨⟩ n')
    (hX : X ∈ visited) (hp : n.peers.lookup X = some p) (hconn : p.connected = true)
    (hevasive : p.evasiveAt.toInt64 ≤ env.now) (hstays : X ∈ n'.peers) :
    n.pingsTo X < n'.pingsTo X := by
  have hvisits : Visits env n visited n' := (EStateM.wp_of_ok h reap_visits :)
  have hnot : ¬p.expiredAt.toInt64 ≤ env.now := by
    intro hexpired
    exact ((hvisits.mem X).mp hstays).2 ⟨hX, expires_iff.mpr ⟨p, hp, hexpired⟩⟩
  have hevades : evades env n X = true := evades_iff.mpr ⟨p, hp, hnot, hevasive⟩
  have hreaches : n.reaches X = true := by rw [reaches, hp, Option.any_some, hconn]
  have hcount : 0 < visited.count X := List.count_pos_iff.mpr hX
  rw [hvisits.pings, hevades, hreaches]
  simp only [Bool.and_self, if_true]
  omega

/-- Nothing is heard of a peer once its evasive deadline has passed: that would have put it off. -/
theorem quiet_of_passed (h : History Punctual past n) (hp : n.peers.lookup X = some p)
    (hpast : past = earlier ++ m :: later) (htime : p.evasiveAt.toInt64 ≤ m.env.now) :
    ∀ m' ∈ later, ¬m'.Active X := by
  obtain ⟨m₀, ⟨earlier₀, later₀, hpast₀, hactive, hquiet⟩, hrefreshed⟩ := refreshed_of_history h hp
  obtain ⟨-, -, hpunctual⟩ := h.throughout earlier₀ m₀ later₀ hpast₀
  obtain ⟨hpos, hrange⟩ := hpunctual.timeout ⟨X, hactive⟩
  -- The deadline was set later than anything before it, so the iteration is not among that.
  have hlate : ¬m.env.now ≤ m₀.env.now := by
    intro hle
    have hsum := toInt_expiredAt hrange
    rw [hrefreshed.1, Int64.le_iff_toInt_le, hsum] at htime
    have := Int64.le_iff_toInt_le.mp hle
    omega
  rcases List.append_eq_append_iff.mp (hpast.symm.trans hpast₀) with ⟨between, hearlier, hrest⟩ |
    ⟨between, -, hrest⟩
  · cases between with
    | nil => exact absurd (List.cons.inj hrest).1 fun heq => hlate (heq ▸ Int64.le_refl _)
    | cons m' between =>
      obtain rfl := (List.cons.inj hrest).1
      exact absurd (hpunctual.clock m (by simp [hearlier])) hlate
  · cases between with
    | nil => exact absurd (List.cons.inj hrest).1 fun heq => hlate (heq ▸ Int64.le_refl _)
    | cons m' between =>
      intro m'' hm''
      refine hquiet m'' ?_
      rw [(List.cons.inj hrest).2]
      exact List.mem_append_right _ (List.mem_cons_of_mem _ hm'')

/-- **Silence.** A peer is called silent only if it has left a PING unanswered, in every history in which
the pass before the one that calls it so came after the peer's evasive deadline and found it with a mailbox.
Then that pass has sent a PING, and a message since would have moved the deadlines. A loop that is late may
make no such pass. -/
theorem unanswered_of_history (h : History Punctual past n) : Throughout SilentUnanswered past := by
  intro earlier m later hpast es X name hes hsilent
  obtain ⟨hbefore, hstep, hpunctual⟩ := h.throughout earlier m later hpast
  -- SILENT comes from a pass that finds the peer overdue.
  obtain ⟨-, es', hes', htold⟩ := step_adds.of_ok hstep
  obtain rfl := List.append_cancel_left (hes.symm.trans hes')
  rcases htold _ hsilent with hcommon | ⟨_, _, _, _, _, _, _, heq⟩ | ⟨visited, Y, _, hinput, hdue, heq⟩
  · cases hcommon
  · cases heq
  obtain rfl := (Event.silent.inj heq).1
  obtain ⟨p, hp, -⟩ := hdue.2
  obtain ⟨earlier₁, m₁, later₁, visited₁, hearlier, hinput₁, -, hevasive, hvisited, hreaches⟩ :=
    hpunctual.passed visited X p hinput hdue hp
  have hquiet := quiet_of_passed hbefore hp hearlier hevasive
  obtain ⟨-, hstep₁, -⟩ := hbefore.throughout earlier₁ m₁ later₁ hearlier
  rw [hinput₁] at hstep₁
  -- The peer that was visited is the one that is overdue, with the deadlines it has now.
  obtain ⟨p', hp', htimes'⟩ := hbefore.ages hearlier hquiet p hp
  obtain ⟨q, hq, htimes⟩ := reap_ages.of_ok hstep₁ X p' hp'
  have hevasive₁ : q.evasiveAt.toInt64 ≤ m₁.env.now := by
    have hsame : q.times = p.times := htimes.trans htimes'
    rw [(Prod.mk.inj (Prod.mk.inj hsame).2).1]
    exact hevasive
  have hconn : q.connected = true := by rwa [reaches, hq, Option.any_some] at hreaches
  refine ⟨earlier₁, m₁, later₁, hearlier, ⟨⟨visited₁, hinput₁⟩, ?_⟩, fun m' hm' hheard => ?_⟩
  · exact pings_of_visit hstep₁ hvisited hq hconn hevasive₁
      (AList.lookup_isSome.mp (by rw [hp']; rfl))
  · exact hquiet m' hm' (Or.inl hheard)

/-! ### A peer that falls silent -/

/-- The peer is discovered. -/
def discovered : Moment := momentAt 0 sampleDiscovery sampleNode

/-- It is visited. -/
def visitedAt (now : Int64) : Moment := momentAt now samplePass discovered.after

/-- It is visited again a second after its evasive deadline. -/
def overdueAfter (now : Int64) : Moment := momentAt 6000 samplePass (visitedAt now).after

theorem history_overdue {now : Int64}
    (hvisit : (Node.step (sampleEnv now) samplePass discovered.after matches .ok ..) = true)
    (hlast : (Node.step (sampleEnv 6000) samplePass (visitedAt now).after matches .ok ..) = true)
    (hc : C [] discovered) (hc₁ : C [discovered] (visitedAt now))
    (hc₂ : C [discovered, visitedAt now] (overdueAfter now)) :
    History C [discovered, visitedAt now, overdueAfter now] (overdueAfter now).after :=
  .step _ _ (.step _ _ (.step _ _ (.new _ _) (step_eq_of_isOk (by decide +kernel)) hc)
    (step_eq_of_isOk hvisit) hc₁) (step_eq_of_isOk hlast) hc₂

/-- Visited at its evasive deadline, the peer leaves a PING unanswered and is called silent. -/
theorem unanswered_sample :
    Throughout SilentUnanswered [discovered, visitedAt 5000, overdueAfter 5000] := by
  refine unanswered_of_history (history_overdue (by decide +kernel) (by decide +kernel) ?_ ?_ ?_)
  · refine ⟨List.forall_mem_nil _, fun _ => by decide +kernel, ?_⟩
    rintro visited X p ⟨⟩
  · refine ⟨List.forall_mem_singleton.mpr (by decide +kernel), fun _ => by decide +kernel,
      fun visited X p hinput hdue hp => ?_⟩
    obtain rfl := Input.reap.inj hinput
    obtain ⟨hX, q, hq, -, -, hsilent⟩ := hdue
    obtain rfl := List.mem_singleton.mp hX
    have hearly : (discovered.after.peers.lookup (sampleUuid 1).str).all (fun q =>
        ¬(q.evasiveAt + reapInterval discovered.after).toInt64 ≤ 5000) = true := by
      decide +kernel
    exact absurd hsilent (of_decide_eq_true ((Option.all_eq_true _ _).mp hearly q hq))
  · refine ⟨List.forall_mem_cons.mpr ⟨by decide +kernel, List.forall_mem_singleton.mpr (by decide +kernel)⟩,
      fun _ => by decide +kernel, fun visited X p hinput hdue hp => ?_⟩
    obtain rfl := Input.reap.inj hinput
    obtain rfl := List.mem_singleton.mp hdue.1
    have hevasive : ((visitedAt 5000).after.peers.lookup (sampleUuid 1).str).all (fun q =>
        q.evasiveAt.toInt64 ≤ 5000) = true := by
      decide +kernel
    exact ⟨[discovered], visitedAt 5000, [], _, rfl, rfl, List.forall_mem_nil _,
      of_decide_eq_true ((Option.all_eq_true _ _).mp hevasive p hp), List.mem_singleton_self _,
      by decide +kernel⟩

/-- The clock does not go back, and from one pass to the next there is at least a reap interval. -/
def Spaced (past : List Moment) (m : Moment) : Prop :=
  (∀ m' ∈ past, m'.env.now ≤ m.env.now) ∧ ∀ visited visited', m.input = .reap visited →
    ∀ m' ∈ past, m'.input = .reap visited' →
      m'.env.now + (reapInterval m.before).toInt64 ≤ m.env.now

/-- Visited half a second before its evasive deadline and then a second and a half later, it is called
silent by the pass that sends it the first PING. -/
theorem not_unanswered_of_late : ¬∀ past n, History Spaced past n → Throughout SilentUnanswered past := by
  intro h
  have hhistory : History Spaced [discovered, visitedAt 4500, overdueAfter 4500]
      (overdueAfter 4500).after := by
    refine history_overdue (by decide +kernel) (by decide +kernel) ?_ ?_ ?_
    · exact ⟨List.forall_mem_nil _, fun _ _ _ => List.forall_mem_nil _⟩
    · refine ⟨List.forall_mem_singleton.mpr (by decide +kernel), fun _ _ _ => ?_⟩
      exact List.forall_mem_singleton.mpr nofun
    · refine ⟨List.forall_mem_cons.mpr ⟨by decide +kernel, List.forall_mem_singleton.mpr
        (by decide +kernel)⟩, fun _ _ _ => ?_⟩
      exact List.forall_mem_cons.mpr ⟨nofun, List.forall_mem_singleton.mpr fun _ => by decide +kernel⟩
  have hsilent : .silent (sampleUuid 1).str ∅ ∈ (overdueAfter 4500).after.outbox := by decide +kernel
  obtain ⟨earlier, m, later, hpast, hpings, -⟩ :=
    h _ _ hhistory [discovered, visitedAt 4500] _ [] rfl _ _ _ rfl hsilent
  have hm : m ∈ [discovered, visitedAt 4500] := by
    rw [hpast]
    exact List.mem_append_right _ List.mem_cons_self
  rcases List.mem_cons.mp hm with rfl | hm
  · obtain ⟨visited, hvisited⟩ := hpings.1
    cases hvisited
  · rw [List.mem_singleton.mp hm] at hpings
    exact absurd hpings.2 (by decide +kernel)

end Node

end Zyre
