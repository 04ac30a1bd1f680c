import Mathlib.Data.Finset.Max
import Mathlib.Data.List.Pairwise
import Mathlib.Tactic.Tauto
import Zyre.ForMathlib.Echo.Basic

/-!
# Before the election is decided

`Waving` is what holds as long as no initiator has won: every token on its way is that of a wave its
sender has joined, a site supports the smallest wave it has heard of, and it echoes a wave only when all
its neighbours have sent it. So an initiator that has heard its token from all its neighbours has it from
every site (`Waving.complete`), and if all messages are delivered the smallest one has
(`Waving.complete_of_quiet`).
-/

namespace Echo

variable {V : Type} [LinearOrder V]

/-! ### One delivery -/

namespace State

variable {s : State V} {x y a b : V} {t t' : Token V} {rest : List (Token V)} {site : Site V} {out : Mail V}

@[simp]
theorem site_next_self : (s.next y x site out).site x = site := Function.update_self ..

@[simp]
theorem site_next_ne (h : a ≠ x) : (s.next y x site out).site a = s.site a := Function.update_of_ne h ..

/-- What has been sent after a step: the answers of the site that took it are added. -/
theorem sent_next : (s.next y x site out).sent a b = s.sent a b ++ if a = x then out b else [] := by
  simp only [sent, next]
  by_cases h : a = y ∧ b = x
  · rw [if_pos h, if_pos h, ← List.append_assoc, List.append_assoc (s.done a b), List.take_append_drop]
  · rw [if_neg h, if_neg h, List.append_assoc]

/-- What has been handled after a step: the message at the head of the queue is added. -/
theorem done_next (hqueue : s.queue y x = t :: rest) :
    (s.next y x site out).done a b = s.done a b ++ if a = y ∧ b = x then [t] else [] := by
  simp only [next]
  split_ifs with h
  · rw [h.1, h.2, hqueue]
    rfl
  · rw [List.append_nil]

theorem mem_sent_next : t' ∈ (s.next y x site out).sent a b ↔ t' ∈ s.sent a b ∨ a = x ∧ t' ∈ out b := by
  rw [sent_next, List.mem_append]
  split_ifs with h <;> simp [h]

theorem mem_done_next (hqueue : s.queue y x = t :: rest) :
    t' ∈ (s.next y x site out).done a b ↔ t' ∈ s.done a b ∨ (a = y ∧ b = x) ∧ t' = t := by
  rw [done_next hqueue, List.mem_append]
  split_ifs with h <;> simp [h]

omit [LinearOrder V] in
/-- What has been handled has been sent. -/
theorem sent_of_done (h : t ∈ s.done a b) : t ∈ s.sent a b := List.mem_append_left _ h

omit [LinearOrder V] in
/-- What is under way has been sent. -/
theorem sent_of_queue (hqueue : s.queue y x = t :: rest) : t ∈ s.sent y x :=
  List.mem_append_right _ (hqueue ▸ List.mem_cons_self)

/-- The site takes over a wave, before the message it was told so with counts. -/
def adopt (s : State V) (nbrs : Finset V) (x y r : V) : State V where
  site := Function.update s.site x ((s.site x).adopt y r)
  done := s.done
  queue a b := s.queue a b ++ if a = x then toAll (nbrs.erase y) (.elect r) b else []

/-- To adopt a wave and then answer is one step whose messages are those of both. -/
theorem next_adopt {nbrs : Finset V} {r : V} (hne : y ≠ x) :
    (s.adopt nbrs x y r).next y x site out =
      s.next y x site fun z => toAll (nbrs.erase y) (.elect r) z ++ out z := by
  simp only [adopt, next, Function.update_idem, mk.injEq, true_and]
  constructor
  · funext a b
    by_cases ha : a = x
    · have h : ¬(a = y ∧ b = x) := fun h => hne (h.1.symm.trans ha)
      rw [if_neg h, if_neg h]
    · rw [if_neg ha, List.append_nil]
  · funext a b
    by_cases ha : a = x
    · have h : ¬(a = y ∧ b = x) := fun h => hne (h.1.symm.trans ha)
      rw [if_neg h, if_neg h, if_pos ha, if_pos ha, if_pos ha, List.append_assoc]
    · simp only [if_neg ha, List.append_nil]

@[simp]
theorem done_adopt {nbrs : Finset V} {r : V} : (s.adopt nbrs x y r).done = s.done := rfl

@[simp]
theorem site_adopt_self {nbrs : Finset V} {r : V} : (s.adopt nbrs x y r).site x = (s.site x).adopt y r :=
  Function.update_self ..

@[simp]
theorem site_adopt_ne {nbrs : Finset V} {r : V} (h : a ≠ x) : (s.adopt nbrs x y r).site a = s.site a :=
  Function.update_of_ne h ..

/-- A site that adopts a wave sends it on to all its neighbours but the one it came from. -/
theorem sent_adopt {nbrs : Finset V} {r : V} :
    (s.adopt nbrs x y r).sent a b = s.sent a b ++ if a = x then toAll (nbrs.erase y) (.elect r) b else [] :=
  (List.append_assoc ..).symm

theorem mem_sent_adopt {nbrs : Finset V} {r : V} :
    t ∈ (s.adopt nbrs x y r).sent a b ↔ t ∈ s.sent a b ∨ a = x ∧ b ∈ nbrs.erase y ∧ t = .elect r := by
  rw [sent_adopt, List.mem_append, toAll]
  split_ifs with h₁ h₂ <;> simp_all

end State

/-! ### The invariant -/

variable (nbr : V → Finset V) (I : Finset V)

/-- The site has joined the wave of `w`. -/
def State.Joined (s : State V) (x w : V) : Prop := w ∈ I ∧ (x = w ∨ (s.site x).past w ≠ none)

/-- All neighbours have sent the site the token of `w`. -/
def State.Complete (s : State V) (x w : V) : Prop := ∀ y ∈ nbr x, .elect w ∈ s.done y x

/-- What holds as long as nobody has won. -/
structure Waving (s : State V) : Prop where
  elects : ∀ {y x t}, t ∈ s.sent y x → ∃ w, t = .elect w ∧ s.Joined I y w ∧ x ∈ nbr y
  known : ∀ {y x t}, t ∈ s.done y x → y ∈ nbr x
  le_self : ∀ {x w}, x ∈ I → s.Joined I x w → w ≤ x
  current : ∀ {x c}, (s.site x).wave = some c → s.Joined I x c.caw ∧ c.father = (s.site x).past c.caw ∧
    c.lrec = 0 ∧ c.erec = ((nbr x).filter fun y => .elect c.caw ∈ s.done y x).card
  lowest : ∀ {x w}, s.Joined I x w → ∃ c, (s.site x).wave = some c ∧ c.caw ≤ w
  heard : ∀ {y x w}, .elect w ∈ s.done y x → ∃ c, (s.site x).wave = some c ∧ c.caw ≤ w
  told : ∀ x, (s.site x).told = []
  /-- The tokens from one site to another get smaller. -/
  decreasing : ∀ y x, (s.sent y x).Pairwise fun t t' => ∀ w w', t = .elect w → t' = .elect w' → w' < w
  parent : ∀ {x w f}, (s.site x).past w = some f → f ∈ nbr x ∧ .elect w ∈ s.sent f x
  forward : ∀ {x w z}, s.Joined I x w → z ∈ nbr x → (s.site x).past w ≠ some z → .elect w ∈ s.sent x z
  /-- What has been echoed was complete, and a wave that is complete has been echoed. -/
  echoed : ∀ {x w f}, (s.site x).past w = some f → .elect w ∈ s.sent x f → s.Complete nbr x w
  echo : ∀ {x c f}, (s.site x).wave = some c → (s.site x).past c.caw = some f → c.caw ≠ x →
    s.Complete nbr x c.caw → .elect c.caw ∈ s.sent x f
  own : ∀ {x}, x ∈ I → (s.site x).past x = none
  ranked : ∃ rank : V → V → ℕ, ∀ x w f, (s.site x).past w = some f → rank f w < rank x w

variable {nbr I} {s : State V} {x y r : V} {rest : List (Token V)} {c : Wave V}

/-- At the start only the initiators have joined a wave, each its own. -/
theorem joined_start {w : V} : (start nbr I).Joined I x w ↔ w ∈ I ∧ x = w := by
  simp [State.Joined, start]

/-- At the start each initiator has sent its wave to its neighbours. -/
theorem mem_sent_start {t : Token V} :
    t ∈ (start nbr I).sent y x ↔ y ∈ I ∧ x ∈ nbr y ∧ t = .elect y := by
  simp only [State.sent, start, List.nil_append, toAll]
  split_ifs <;> simp_all

/-- The start is a state of waves. -/
theorem waving_start : Waving nbr I (start nbr I) where
  elects ht := by
    obtain ⟨hy, hx, rfl⟩ := mem_sent_start.mp ht
    exact ⟨_, rfl, joined_start.mpr ⟨hy, rfl⟩, hx⟩
  known ht := nomatch ht
  le_self _ hw := (joined_start.mp hw).2.ge
  current {x c} hc := by
    by_cases hx : x ∈ I
    · simp only [start, if_pos hx, Option.some_inj] at hc
      subst hc
      exact ⟨joined_start.mpr ⟨hx, rfl⟩, rfl, rfl, by simp [start]⟩
    · simp [start, hx] at hc
  lowest {x w} hw := by
    obtain ⟨hx, rfl⟩ := joined_start.mp hw
    exact ⟨⟨x, none, 0, 0⟩, by simp [start, hx], le_rfl⟩
  heard hw := nomatch hw
  told _ := rfl
  decreasing y x := by
    simp only [State.sent, start, List.nil_append, toAll]
    split_ifs <;> simp
  parent hf := nomatch hf
  forward hw hz _ := by
    obtain ⟨hx, rfl⟩ := joined_start.mp hw
    exact mem_sent_start.mpr ⟨hx, hz, rfl⟩
  echoed hf := nomatch hf
  echo _ hf := nomatch hf
  own _ := rfl
  ranked := ⟨fun _ _ => 0, fun _ _ _ hf => nomatch hf⟩

namespace Waving

/-- The token of a wave the site has not reached is new to it. -/
theorem not_joined (h : Waving nbr I s) (hnew : ∀ c, (s.site x).wave = some c → r < c.caw) :
    ¬s.Joined I x r := by
  intro hjoined
  obtain ⟨c, hc, hle⟩ := h.lowest hjoined
  exact absurd (hnew c hc) (not_lt.mpr hle)

/-- A site in no wave, or in one larger than `r`, has handled no token of `r`. -/
theorem not_heard (h : Waving nbr I s) (hnew : ∀ c, (s.site x).wave = some c → r < c.caw) (z : V) :
    .elect r ∉ s.done z x := by
  intro hdone
  obtain ⟨c, hc, hle⟩ := h.heard hdone
  exact absurd (hnew c hc) (not_lt.mpr hle)

/-- A token is delivered once. -/
theorem not_done (h : Waving nbr I s) (hqueue : s.queue y x = .elect r :: rest) :
    .elect r ∉ s.done y x := by
  intro hdone
  have hdecreasing := h.decreasing y x
  rw [State.sent, hqueue] at hdecreasing
  have hlt := (List.pairwise_append.mp hdecreasing).2.2 _ hdone _ List.mem_cons_self r r rfl rfl
  exact lt_irrefl r hlt

/-- A site that takes a wave over is not the initiator of it. -/
theorem not_own (h : Waving nbr I s) (hnew : ∀ c, (s.site x).wave = some c → r < c.caw)
    (hx : x ∈ I) : r < x := by
  obtain ⟨c, hc, hle⟩ := h.lowest (x := x) ⟨hx, Or.inl rfl⟩
  exact (hnew c hc).trans_le hle

/-- A site may take a smaller wave over. -/
theorem adopt (h : Waving nbr I s) (hsent : .elect r ∈ s.sent y x) (hy : y ∈ nbr x) (hne : y ≠ x)
    (hnew : ∀ c, (s.site x).wave = some c → r < c.caw) : Waving nbr I (s.adopt (nbr x) x y r) := by
  obtain ⟨_, ⟨⟩, hjoined, -⟩ := h.elects hsent
  have hr : r ∈ I := hjoined.1
  have hnot : ¬s.Joined I x r := h.not_joined hnew
  have hpast : ∀ {a w}, ((s.adopt (nbr x) x y r).site a).past w =
      if a = x ∧ w = r then some y else (s.site a).past w := by
    intro a w
    by_cases ha : a = x
    · subst ha
      rw [State.site_adopt_self]
      simp [Site.adopt, Function.update_apply]
    · rw [State.site_adopt_ne ha, if_neg fun h => ha h.1]
  have hjoined' : ∀ {a w}, (s.adopt (nbr x) x y r).Joined I a w ↔ s.Joined I a w ∨ a = x ∧ w = r := by
    intro a w
    simp only [State.Joined, hpast]
    split_ifs with haw
    · simp [haw, hr]
    · simp [haw]
  have hmono : ∀ {a b t}, t ∈ s.sent a b → t ∈ (s.adopt (nbr x) x y r).sent a b := fun ht =>
    State.mem_sent_adopt.mpr (Or.inl ht)
  have hlower : ∀ {w}, s.Joined I x w → r < w := by
    intro w hw
    obtain ⟨c, hc, hle⟩ := h.lowest hw
    exact (hnew c hc).trans_le hle
  have hwave : ((s.adopt (nbr x) x y r).site x).wave = some ⟨r, some y, 0, 0⟩ := by
    rw [State.site_adopt_self]
    rfl
  refine {
    elects := fun {a b t} ht => ?_
    known := h.known
    le_self := fun {a w} ha hw => ?_
    current := fun {a c} hc => ?_
    lowest := fun {a w} hw => ?_
    heard := fun {b a w} hw => ?_
    told := fun a => ?_
    decreasing := fun a b => ?_
    parent := fun {a w f} hf => ?_
    forward := fun {a w z} hw hz hf => ?_
    echoed := fun {a w f} hf ht => ?_
    echo := fun {a c f} hc hf hca hcomplete => ?_
    own := fun {a} ha => ?_
    ranked := ?_ }
  · rcases State.mem_sent_adopt.mp ht with ht | ⟨rfl, hb, rfl⟩
    · obtain ⟨w, rfl, hw, hb⟩ := h.elects ht
      exact ⟨w, rfl, hjoined'.mpr (Or.inl hw), hb⟩
    · exact ⟨r, rfl, hjoined'.mpr (Or.inr ⟨rfl, rfl⟩), Finset.mem_of_mem_erase hb⟩
  · rcases hjoined'.mp hw with hw | ⟨rfl, rfl⟩
    · exact h.le_self ha hw
    · exact (h.not_own hnew ha).le
  · by_cases ha : a = x
    · subst ha
      obtain rfl := Option.some_inj.mp (hwave.symm.trans hc)
      refine ⟨hjoined'.mpr (Or.inr ⟨rfl, rfl⟩), by rw [hpast, if_pos ⟨rfl, rfl⟩], rfl, ?_⟩
      have hnone : ((nbr a).filter fun z => .elect r ∈ s.done z a) = ∅ :=
        Finset.filter_false_of_mem fun z _ => h.not_heard hnew z
      exact (congrArg Finset.card hnone).symm
    · rw [State.site_adopt_ne ha] at hc ⊢
      obtain ⟨hw, hrest⟩ := h.current hc
      exact ⟨hjoined'.mpr (Or.inl hw), hrest⟩
  · rcases hjoined'.mp hw with hold | ⟨rfl, rfl⟩
    · by_cases ha : a = x
      · subst ha
        exact ⟨_, hwave, (hlower hold).le⟩
      · rw [State.site_adopt_ne ha]
        exact h.lowest hold
    · exact ⟨_, hwave, le_rfl⟩
  · by_cases ha : a = x
    · subst ha
      obtain ⟨c, hc, hle⟩ := h.heard hw
      exact ⟨_, hwave, ((hnew c hc).trans_le hle).le⟩
    · rw [State.site_adopt_ne ha]
      exact h.heard hw
  · by_cases ha : a = x
    · subst ha
      rw [State.site_adopt_self]
      exact h.told a
    · rw [State.site_adopt_ne ha]
      exact h.told a
  · rw [State.sent_adopt, toAll]
    split_ifs with ha hb
    · subst ha
      refine List.pairwise_append.mpr ⟨h.decreasing a b, List.pairwise_singleton .., ?_⟩
      rintro t ht t' ht' w w' rfl rfl
      obtain ⟨_, ⟨⟩, hw, -⟩ := h.elects ht
      obtain ⟨rfl⟩ := List.mem_singleton.mp ht'
      exact hlower hw
    · exact (List.append_nil _).symm ▸ h.decreasing a b
    · exact (List.append_nil _).symm ▸ h.decreasing a b
  · rw [hpast] at hf
    split_ifs at hf with haw
    · obtain rfl := Option.some_inj.mp hf
      rw [haw.1, haw.2]
      exact ⟨hy, hmono hsent⟩
    · exact ⟨(h.parent hf).1, hmono (h.parent hf).2⟩
  · rcases hjoined'.mp hw with hw | ⟨rfl, rfl⟩
    · have haw : ¬(a = x ∧ w = r) := fun haw => hnot (haw.1 ▸ haw.2 ▸ hw)
      rw [hpast, if_neg haw] at hf
      exact hmono (h.forward hw hz hf)
    · rw [hpast, if_pos ⟨rfl, rfl⟩] at hf
      refine State.mem_sent_adopt.mpr (Or.inr ⟨rfl, Finset.mem_erase.mpr ⟨?_, hz⟩, rfl⟩)
      rintro rfl
      exact hf rfl
  · rw [hpast] at hf
    split_ifs at hf with haw
    · obtain rfl := Option.some_inj.mp hf
      obtain ⟨rfl, rfl⟩ := haw
      rcases State.mem_sent_adopt.mp ht with ht | ⟨-, hb, -⟩
      · obtain ⟨_, ⟨⟩, hw, -⟩ := h.elects ht
        exact absurd hw hnot
      · exact absurd rfl (Finset.ne_of_mem_erase hb)
    · rcases State.mem_sent_adopt.mp ht with ht | ⟨rfl, -, ⟨⟩⟩
      · exact h.echoed hf ht
      · exact absurd ⟨rfl, rfl⟩ haw
  · by_cases ha : a = x
    · subst ha
      obtain rfl := Option.some_inj.mp (hwave.symm.trans hc)
      exact absurd (hcomplete y hy) (h.not_heard hnew y)
    · rw [State.site_adopt_ne ha] at hc hf
      exact hmono (h.echo hc hf hca hcomplete)
  · rw [hpast, if_neg]
    · exact h.own ha
    · rintro ⟨rfl, rfl⟩
      exact lt_irrefl _ (h.not_own hnew ha)
  · obtain ⟨rank, hrank⟩ := h.ranked
    refine ⟨fun a w => if a = x ∧ w = r then rank y r + 1 else rank a w, fun a w f hf => ?_⟩
    rw [hpast] at hf
    split_ifs at hf with haw
    · obtain rfl := Option.some_inj.mp hf
      show (if y = x ∧ w = r then _ else rank y w) < if a = x ∧ w = r then _ else _
      rw [if_neg fun h => hne h.1, if_pos haw, haw.2]
      exact Nat.lt_succ_self _
    · -- No site has the wave from `x`, which has not joined it before.
      have hfw : ¬(f = x ∧ w = r) := by
        rintro ⟨rfl, rfl⟩
        obtain ⟨_, ⟨⟩, hw, -⟩ := h.elects (h.parent hf).2
        exact hnot hw
      show (if f = x ∧ w = r then _ else rank f w) < if a = x ∧ w = r then _ else rank a w
      rw [if_neg hfw, if_neg haw]
      exact hrank a w f hf

/-- The token of a wave that is not smaller is counted if it is that of the wave the site supports, and the
last one is echoed. -/
theorem receive (h : Waving nbr I s) (hqueue : s.queue y x = .elect r :: rest) (hy : y ∈ nbr x)
    (hc : (s.site x).wave = some c) (hle : c.caw ≤ r) {site : Site V} {out : Mail V}
    (hwave : site.wave = some { c with erec := if c.caw = r then c.erec + 1 else c.erec })
    (hpast : site.past = (s.site x).past) (htold : site.told = (s.site x).told)
    (hout : ∀ b t, t ∈ out b ↔ (c.caw = r ∧ r ≠ x ∧ (s.site x).past r = some b ∧
      c.erec + 1 = (nbr x).card) ∧ t = .elect r)
    (honce : ∀ b, (out b).length ≤ 1) : Waving nbr I (s.next y x site out) := by
  have hdone : .elect r ∉ s.done y x := h.not_done hqueue
  have hpast' : ∀ {a}, ((s.next y x site out).site a).past = (s.site a).past := by
    intro a
    by_cases ha : a = x
    · rw [ha, State.site_next_self, hpast]
    · rw [State.site_next_ne ha]
  have hjoined' : ∀ {a w}, (s.next y x site out).Joined I a w ↔ s.Joined I a w := by
    intro a w
    simp only [State.Joined, hpast']
  have hmono : ∀ {a b t}, t ∈ s.sent a b → t ∈ (s.next y x site out).sent a b := fun ht =>
    State.mem_sent_next.mpr (Or.inl ht)
  have hmono' : ∀ {a b t}, t ∈ s.done a b → t ∈ (s.next y x site out).done a b := fun ht =>
    (State.mem_done_next hqueue).mpr (Or.inl ht)
  -- Elsewhere nothing is delivered.
  have hdone' : ∀ {a b t}, b ≠ x → (t ∈ (s.next y x site out).done a b ↔ t ∈ s.done a b) := by
    intro a b t hb
    rw [State.mem_done_next hqueue]
    exact or_iff_left fun h => hb h.1.2
  obtain ⟨hjoined, hfather, hlrec, herec⟩ := h.current hc
  have hmem : ∀ {z w}, .elect w ∈ (s.next y x site out).done z x ↔
      .elect w ∈ s.done z x ∨ z = y ∧ w = r := by
    intro z w
    rw [State.mem_done_next hqueue]
    simp
  have hcount : (if c.caw = r then c.erec + 1 else c.erec) =
      ((nbr x).filter fun z => .elect c.caw ∈ (s.next y x site out).done z x).card := by
    simp only [hmem]
    split_ifs with hcr
    · have hinsert : ((nbr x).filter fun z => .elect c.caw ∈ s.done z x ∨ z = y ∧ c.caw = r) =
          insert y ((nbr x).filter fun z => .elect c.caw ∈ s.done z x) := by
        ext z
        simp only [Finset.mem_filter, Finset.mem_insert]
        grind
      rw [hinsert, Finset.card_insert_of_notMem, herec]
      rw [hcr]
      exact fun hz => hdone (Finset.mem_filter.mp hz).2
    · rw [herec]
      exact congrArg Finset.card (Finset.filter_congr fun z _ => by simp [hcr])
  have hcomplete : c.caw = r → (c.erec + 1 = (nbr x).card ↔ (s.next y x site out).Complete nbr x r) := by
    rintro rfl
    rw [if_pos rfl] at hcount
    rw [hcount, Finset.card_filter_eq_iff]
    rfl
  refine {
    elects := fun {a b t} ht => ?_
    known := fun {a b t} ht => ?_
    le_self := fun {a w} ha hw => h.le_self ha (hjoined'.mp hw)
    current := fun {a c₁} hc₁ => ?_
    lowest := fun {a w} hw => ?_
    heard := fun {b a w} hw => ?_
    told := fun a => ?_
    decreasing := fun a b => ?_
    parent := fun {a w f} hf => ?_
    forward := fun {a w z} hw hz hf => ?_
    echoed := fun {a w f} hf ht => ?_
    echo := fun {a c₁ f} hc₁ hf hca hall => ?_
    own := fun {a} ha => ?_
    ranked := ?_ }
  · rcases State.mem_sent_next.mp ht with hold | ⟨rfl, hecho⟩
    · obtain ⟨w, rfl, hw, hb⟩ := h.elects hold
      exact ⟨w, rfl, hjoined'.mpr hw, hb⟩
    · obtain ⟨⟨rfl, hne, hf, -⟩, rfl⟩ := (hout b t).mp hecho
      exact ⟨_, rfl, hjoined'.mpr hjoined, (h.parent hf).1⟩
  · rcases (State.mem_done_next hqueue).mp ht with ht | ⟨⟨rfl, rfl⟩, -⟩
    · exact h.known ht
    · exact hy
  · by_cases ha : a = x
    · subst ha
      rw [State.site_next_self, hwave] at hc₁
      obtain rfl := Option.some_inj.mp hc₁
      exact ⟨hjoined'.mpr hjoined, by rw [hpast']; exact hfather, hlrec, hcount⟩
    · rw [State.site_next_ne ha] at hc₁
      obtain ⟨hw, hf, hl, he⟩ := h.current hc₁
      refine ⟨hjoined'.mpr hw, by rw [hpast']; exact hf, hl, ?_⟩
      simp only [hdone' ha]
      exact he
  · obtain ⟨c₁, hc₁, hle₁⟩ := h.lowest (hjoined'.mp hw)
    by_cases ha : a = x
    · subst ha
      obtain rfl := Option.some_inj.mp (hc.symm.trans hc₁)
      rw [State.site_next_self]
      exact ⟨_, hwave, hle₁⟩
    · rw [State.site_next_ne ha]
      exact ⟨c₁, hc₁, hle₁⟩
  · by_cases ha : a = x
    · subst ha
      rw [State.site_next_self]
      refine ⟨_, hwave, ?_⟩
      rcases hmem.mp hw with hw | ⟨-, rfl⟩
      · obtain ⟨c₁, hc₁, hle₁⟩ := h.heard hw
        obtain rfl := Option.some_inj.mp (hc.symm.trans hc₁)
        exact hle₁
      · exact hle
    · rw [State.site_next_ne ha]
      exact h.heard ((hdone' ha).mp hw)
  · by_cases ha : a = x
    · subst ha
      rw [State.site_next_self, htold]
      exact h.told a
    · rw [State.site_next_ne ha]
      exact h.told a
  · rw [State.sent_next]
    split_ifs with ha
    · subst ha
      refine List.pairwise_append.mpr ⟨h.decreasing a b, ?_, ?_⟩
      · have hlen := honce b
        match out b, hlen with
        | [], _ => exact .nil
        | [t], _ => exact List.pairwise_singleton ..
      · rintro t ht t' ht' w w' rfl rfl
        obtain ⟨⟨rfl, hne, hf, -⟩, ⟨rfl⟩⟩ := (hout b _).mp ht'
        obtain ⟨_, ⟨⟩, hw, -⟩ := h.elects ht
        obtain ⟨c₁, hc₁, hle₁⟩ := h.lowest hw
        obtain rfl := Option.some_inj.mp (hc.symm.trans hc₁)
        refine lt_of_le_of_ne hle₁ ?_
        -- What has been echoed would have been complete before.
        rintro rfl
        exact hdone (h.echoed hf ht y hy)
    · rw [List.append_nil]
      exact h.decreasing a b
  · rw [hpast'] at hf
    exact ⟨(h.parent hf).1, hmono (h.parent hf).2⟩
  · rw [hpast'] at hf
    exact hmono (h.forward (hjoined'.mp hw) hz hf)
  · rw [hpast'] at hf
    rcases State.mem_sent_next.mp ht with hold | ⟨rfl, hecho⟩
    · exact fun z hz => hmono' (h.echoed hf hold z hz)
    · obtain ⟨⟨hcr, -, -, hcard⟩, ⟨rfl⟩⟩ := (hout f _).mp hecho
      exact (hcomplete hcr).mp hcard
  · rw [hpast'] at hf
    by_cases ha : a = x
    · subst ha
      rw [State.site_next_self, hwave] at hc₁
      obtain rfl := Option.some_inj.mp hc₁
      by_cases hcr : c.caw = r
      · refine State.mem_sent_next.mpr (Or.inr ⟨rfl, (hout f _).mpr ⟨⟨hcr, ?_, ?_, ?_⟩, ?_⟩⟩)
        · exact hcr ▸ hca
        · exact hcr ▸ hf
        · exact (hcomplete hcr).mpr (hcr ▸ hall)
        · rw [← hcr]
      · refine hmono (h.echo (c := c) hc hf hca fun z hz => ?_)
        exact (hmem.mp (hall z hz)).resolve_right fun h => hcr h.2
    · rw [State.site_next_ne ha] at hc₁
      exact hmono (h.echo hc₁ hf hca fun z hz => (hdone' ha).mp (hall z hz))
  · rw [hpast']
    exact h.own ha
  · obtain ⟨rank, hrank⟩ := h.ranked
    refine ⟨rank, fun a w f hf => hrank a w f ?_⟩
    rwa [hpast'] at hf

/-! ### What follows when a wave is complete -/

/-- A wave whose initiator has heard its token from all its neighbours has been completed by every site
that has joined it. -/
theorem complete (h : Waving nbr I s) {w a : V} (hw : s.Complete nbr w w) (ha : s.Joined I a w) :
    s.Complete nbr a w := by
  obtain ⟨rank, hrank⟩ := h.ranked
  -- By induction on the rank: the father has the token of the site, so the site has echoed it.
  induction hk : rank a w using Nat.strong_induction_on generalizing a with
  | _ k ih =>
    rcases ha.2 with rfl | hpast
    · exact hw
    · obtain ⟨f, hf⟩ := Option.ne_none_iff_exists'.mp hpast
      obtain ⟨_, ⟨⟩, hjoined, hedge⟩ := h.elects (h.parent hf).2
      have hfather : s.Complete nbr f w := ih (rank f w) (hk ▸ hrank a w f hf) hjoined rfl
      exact h.echoed hf (State.sent_of_done (hfather a hedge))

/-- A site that has joined a wave is on a path from its initiator. -/
theorem path (h : Waving nbr I s) {w a : V} (ha : s.Joined I a w) :
    Relation.ReflTransGen (fun a b => b ∈ nbr a) w a := by
  obtain ⟨rank, hrank⟩ := h.ranked
  induction hk : rank a w using Nat.strong_induction_on generalizing a with
  | _ k ih =>
    rcases ha.2 with rfl | hpast
    · exact .refl
    · obtain ⟨f, hf⟩ := Option.ne_none_iff_exists'.mp hpast
      obtain ⟨_, ⟨⟩, hjoined, hedge⟩ := h.elects (h.parent hf).2
      exact (ih (rank f w) (hk ▸ hrank a w f hf) hjoined rfl).tail hedge

/-- If everything is delivered the smallest wave is complete at its initiator. -/
theorem complete_of_quiet (h : Waving nbr I s) {S : Finset V} {m : V}
    (hinside : ∀ {a}, s.Joined I a m → a ∈ S) (hm : m ∈ I) (hmin : ∀ i ∈ I, m ≤ i)
    (hquiet : ∀ y x, s.queue y x = []) : s.Complete nbr m m := by
  classical
  have hdone : ∀ {a b t}, t ∈ s.sent a b → t ∈ s.done a b := by
    intro a b t ht
    rwa [State.sent, hquiet, List.append_nil] at ht
  have hwave : ∀ {a}, s.Joined I a m → ∃ c, (s.site a).wave = some c ∧ c.caw = m := by
    intro a ha
    obtain ⟨c, hc, hle⟩ := h.lowest ha
    exact ⟨c, hc, le_antisymm hle (hmin _ (h.current hc).1.1)⟩
  by_contra hnot
  obtain ⟨rank, hrank⟩ := h.ranked
  -- Of the sites that have joined the wave but not completed it take the one of the greatest rank.
  obtain ⟨a, ha, hmax⟩ := (S.filter fun a => s.Joined I a m ∧ ¬s.Complete nbr a m).exists_max_image
    (rank · m) ⟨m, Finset.mem_filter.mpr ⟨hinside ⟨hm, Or.inl rfl⟩, ⟨hm, Or.inl rfl⟩, hnot⟩⟩
  obtain ⟨-, hjoined, hincomplete⟩ := Finset.mem_filter.mp ha
  obtain ⟨b, hb, hmissing⟩ := not_forall₂.mp hincomplete
  have hback : .elect m ∈ s.done a b := by
    refine hdone (h.forward hjoined hb fun hf => ?_)
    exact hmissing (hdone (h.parent hf).2)
  obtain ⟨c, hc, hle⟩ := h.heard hback
  have hcaw : c.caw = m := le_antisymm hle (hmin _ (h.current hc).1.1)
  have hjoined' : s.Joined I b m := hcaw ▸ (h.current hc).1
  -- The site that is missing has its token from it.
  have hpast : (s.site b).past m = some a := by
    by_contra hne
    exact hmissing (hdone (h.forward hjoined' (h.known hback) hne))
  have hbm : b ≠ m := by
    rintro rfl
    exact absurd ((h.own hm).symm.trans hpast) (by simp)
  have hcomplete : s.Complete nbr b m := by
    by_contra hb'
    have hlt := hrank b m a hpast
    exact absurd (hmax b (Finset.mem_filter.mpr ⟨hinside hjoined', hjoined', hb'⟩)) (not_le.mpr hlt)
  refine hmissing (hdone ?_)
  have hecho := h.echo hc (hcaw ▸ hpast) (hcaw ▸ hbm.symm) (hcaw ▸ hcomplete)
  rwa [hcaw] at hecho

/-- There are no more messages on a way than initiators. -/
theorem length_le (h : Waving nbr I s) (y x : V) : (s.sent y x).length ≤ I.card := by
  have hmap : ∀ t ∈ s.sent y x, ∃ w ∈ I, t = .elect w := by
    intro t ht
    obtain ⟨w, rfl, hw, -⟩ := h.elects ht
    exact ⟨w, hw.1, rfl⟩
  have hnodup : (s.sent y x).Nodup := by
    refine (h.decreasing y x).imp_of_mem fun {t t'} ht ht' hlt heq => ?_
    obtain ⟨w, -, rfl⟩ := hmap t ht
    exact lt_irrefl w (hlt w w rfl heq.symm)
  have hsub : (s.sent y x).toFinset ⊆ I.image .elect := by
    intro t ht
    obtain ⟨w, hw, rfl⟩ := hmap t (List.mem_toFinset.mp ht)
    exact Finset.mem_image_of_mem _ hw
  rw [← List.toFinset_card_of_nodup hnodup]
  exact (Finset.card_le_card hsub).trans Finset.card_image_le

end Waving

end Echo
