import Zyre.ForMathlib.Echo.Waves

/-!
# After the election is decided

An initiator that has heard its token from all its neighbours has won, and says so (`Won`). The sites that
have joined its wave are then cut off from the others: they have each other for neighbours, and no token
is on its way from any of them. From there each of them passes the announcement on once, and is done when
all neighbours have sent it: `Leading`. When nothing is on its way any more all of them have been told of
the winner (`Leading.finished`).
-/

namespace Echo

variable {V : Type} [LinearOrder V]

variable (nbr : V → Finset V) (I : Finset V) (K : Set V) (m : V)

/-- No initiator has heard its own token from all its neighbours. -/
def Undecided (s : State V) : Prop :=
  ∀ x c, (s.site x).wave = some c → c.caw = x → ¬s.Complete nbr x x

/-- `m` has heard its token from all its neighbours, and now announces that it has won. -/
inductive Won (s : State V) : Prop
  | intro (s₀ : State V) (waving : Waving nbr I s₀) (mem : m ∈ I) (complete : s₀.Complete nbr m m)
      (others : ∀ x c, x ≠ m → (s₀.site x).wave = some c → c.caw = x → ¬s₀.Complete nbr x x)
      (site : s.site = s₀.site) (done : s.done = s₀.done)
      (queue : ∀ a b, s.queue a b = s₀.queue a b ++ if a = m then toAll (nbr m) (.leader m) b else [])

/-- A site that waits for the announcement of some neighbours, or one that is done. -/
inductive Heard (s : State V) (x : V) : Prop
  | waits (c : Wave V) (hwave : (s.site x).wave = some c) (hcaw : c.caw = m)
      (hlrec : c.lrec = ((nbr x).filter fun y => .leader m ∈ s.done y x).card)
      (hlt : c.lrec < (nbr x).card) (htold : (s.site x).told = [])
  | finished (hwave : (s.site x).wave = none) (hall : ∀ y ∈ nbr x, .leader m ∈ s.done y x)
      (htold : (s.site x).told = [m])

/-- What holds of the sites `K` that have joined the wave of `m` once it has won. -/
structure Leading (s : State V) : Prop where
  mem : m ∈ K
  closed : ∀ {x y}, x ∈ K → y ∈ nbr x → y ∈ K ∧ x ∈ nbr y
  path : ∀ {x}, x ∈ K → Relation.ReflTransGen (fun a b => b ∈ nbr a) m x
  edge : ∀ {y x t}, y ∈ K → t ∈ s.sent y x → x ∈ nbr y
  queued : ∀ {y x t}, y ∈ K → t ∈ s.queue y x → t = .leader m
  once : ∀ {y}, y ∈ K → ∀ x, (s.sent y x).count (.leader m) ≤ 1
  few : ∀ {y}, y ∈ K → ∀ x, (s.sent y x).countP (· ≠ .leader m) ≤ I.card
  heard : ∀ {x}, x ∈ K → Heard nbr m s x
  sends : ∀ {x z}, x ∈ K → z ∈ nbr x →
    (.leader m ∈ s.sent x z ↔ x = m ∨ ∃ y ∈ nbr x, .leader m ∈ s.done y x)

variable {nbr I K m} {s s' : State V} {x y r : V} {t : Token V} {rest : List (Token V)} {c : Wave V}

/-! ### The decision -/

theorem mem_toAll {receivers : Finset V} {z : V} {t' : Token V} :
    t' ∈ toAll receivers t z ↔ z ∈ receivers ∧ t' = t := by
  unfold toAll
  split_ifs with h <;> simp [h]

theorem length_toAll {receivers : Finset V} {z : V} : (toAll receivers t z).length ≤ 1 := by
  unfold toAll
  split_ifs <;> simp

/-- Sites that have a wave only from each other have only waves of each other. -/
theorem Waving.initiator_mem (h : Waving nbr I s) {U : Set V}
    (hpast : ∀ {x w f}, (s.site x).past w = some f → x ∈ U → f ∈ U) {w : V} (hx : s.Joined I x w)
    (hxU : x ∈ U) : w ∈ U := by
  obtain ⟨rank, hrank⟩ := h.ranked
  induction hk : rank x w using Nat.strong_induction_on generalizing x with
  | _ k ih =>
    rcases hx.2 with rfl | hne
    · exact hxU
    · obtain ⟨f, hf⟩ := Option.ne_none_iff_exists'.mp hne
      obtain ⟨_, ⟨⟩, hjoined, -⟩ := h.elects (h.parent hf).2
      exact ih (rank f w) (hk ▸ hrank x w f hf) hjoined (hpast hf hxU) rfl

/-- Between sites that have joined a complete wave and sites that have not nothing has been delivered. -/
theorem Waving.joined_iff_of_done (h : Waving nbr I s) (hcomplete : s.Complete nbr m m)
    (ht : t ∈ s.done y x) : s.Joined I y m ↔ s.Joined I x m := by
  obtain ⟨_, -, -, hedge⟩ := h.elects (State.sent_of_done ht)
  have hback := h.known ht
  constructor
  · intro hy
    obtain ⟨_, ⟨⟩, hx, -⟩ := h.elects (State.sent_of_done (h.complete hcomplete hy x hedge))
    exact hx
  · intro hx
    obtain ⟨_, ⟨⟩, hy, -⟩ := h.elects (State.sent_of_done (h.complete hcomplete hx y hback))
    exact hy

theorem Waving.joined_iff_of_past (h : Waving nbr I s) (hcomplete : s.Complete nbr m m) {w f : V}
    (hf : (s.site x).past w = some f) : s.Joined I f m ↔ s.Joined I x m := by
  obtain ⟨hback, hsent⟩ := h.parent hf
  obtain ⟨_, -, -, hedge⟩ := h.elects hsent
  constructor
  · intro hf
    obtain ⟨_, ⟨⟩, hx, -⟩ := h.elects (State.sent_of_done (h.complete hcomplete hf x hedge))
    exact hx
  · intro hx
    obtain ⟨_, ⟨⟩, hf, -⟩ := h.elects (State.sent_of_done (h.complete hcomplete hx f hback))
    exact hf

/-- The waves of a site that has joined a complete one are not smaller. -/
theorem Waving.le_of_joined (h : Waving nbr I s) (hcomplete : s.Complete nbr m m) {w : V}
    (hm : s.Joined I x m) (hw : s.Joined I x w) : m ≤ w := by
  have hmem : w ∈ {a | s.Joined I a m} :=
    h.initiator_mem (fun hf ha => (h.joined_iff_of_past hcomplete hf).mpr ha) hw hm
  exact h.le_self hw.1 hmem

/-- No token is on its way from a site that has joined a complete wave. -/
theorem Waving.queue_eq_nil (h : Waving nbr I s) (hcomplete : s.Complete nbr m m)
    (hy : s.Joined I y m) (x : V) : s.queue y x = [] := by
  refine List.eq_nil_iff_forall_not_mem.mpr fun t ht => ?_
  have hsent : t ∈ s.sent y x := List.mem_append_right _ ht
  obtain ⟨v, rfl, hv, hedge⟩ := h.elects hsent
  have hback : .elect m ∈ s.done x y := h.complete hcomplete hy x hedge
  obtain ⟨_, ⟨⟩, hx, hedge'⟩ := h.elects (State.sent_of_done hback)
  have hdone : .elect m ∈ s.done y x := h.complete hcomplete hx y hedge'
  have hlt := (List.pairwise_append.mp (h.decreasing y x)).2.2 _ hdone _ ht m v rfl rfl
  exact absurd (h.le_of_joined hcomplete hy hv) (not_le.mpr hlt)

/-- The sites that have joined the wave of the winner, when it announces that it has won. -/
theorem Waving.leading (h : Waving nbr I s) (hm : m ∈ I) (hcomplete : s.Complete nbr m m)
    (hnonempty : ∀ i ∈ I, (nbr i).Nonempty) (hsite : s'.site = s.site) (hdone : s'.done = s.done)
    (hqueue : ∀ a b, s'.queue a b = s.queue a b ++ if a = m then toAll (nbr m) (.leader m) b else []) :
    Leading nbr I {x | s.Joined I x m} m s' := by
  have hstart : s.Joined I m m := ⟨hm, Or.inl rfl⟩
  have hqueue' : ∀ {a b t}, s.Joined I a m →
      (t ∈ s'.queue a b ↔ a = m ∧ b ∈ nbr m ∧ t = .leader m) := by
    intro a b t ha
    rw [hqueue, h.queue_eq_nil hcomplete ha, List.nil_append]
    split_ifs with ham
    · rw [mem_toAll]
      simp [ham]
    · simp [ham]
  have hsent : ∀ a b, s'.sent a b = s.sent a b ++ if a = m then toAll (nbr m) (.leader m) b else [] := by
    intro a b
    rw [State.sent, State.sent, hdone, hqueue, List.append_assoc]
  have hsent' : ∀ {a b t}, t ∈ s'.sent a b ↔ t ∈ s.sent a b ∨ a = m ∧ b ∈ nbr m ∧ t = .leader m := by
    intro a b t
    rw [hsent, List.mem_append]
    split_ifs with ham
    · rw [mem_toAll]
      simp [ham]
    · simp [ham]
  have hnone : ∀ {a b}, .leader m ∉ s.sent a b := by
    intro a b ht
    obtain ⟨w, ⟨⟩, -⟩ := h.elects ht
  have hnone' : ∀ {a b}, .leader m ∉ s'.done a b := fun ht =>
    hnone (State.sent_of_done (hdone ▸ ht))
  refine {
    mem := hstart
    closed := fun {x y} hx hy => ?_
    path := fun hx => h.path hx
    edge := fun {y x t} hy ht => ?_
    queued := fun hy ht => ((hqueue' hy).mp ht).2.2
    once := fun {y} _ x => ?_
    few := fun {y} _ x => ?_
    heard := fun {x} hx => ?_
    sends := fun {x z} _ hz => ?_ }
  · obtain ⟨_, ⟨⟩, hjoined, hedge⟩ := h.elects (State.sent_of_done (h.complete hcomplete hx y hy))
    exact ⟨hjoined, hedge⟩
  · rcases hsent'.mp ht with ht | ⟨rfl, hx, -⟩
    · obtain ⟨w, -, -, hx⟩ := h.elects ht
      exact hx
    · exact hx
  · rw [hsent, List.count_append, List.count_eq_zero.mpr hnone, Nat.zero_add]
    split_ifs
    · exact List.count_le_length.trans length_toAll
    · exact Nat.zero_le _
  · have hrest : (if y = m then toAll (nbr m) (.leader m) x else []).countP (· ≠ .leader m) = 0 := by
      refine List.countP_eq_zero.mpr fun t ht => ?_
      split_ifs at ht
      · simp [(mem_toAll.mp ht).2]
      · cases ht
    rw [hsent, List.countP_append, hrest, Nat.add_zero]
    exact List.countP_le_length.trans (h.length_le y x)
  · obtain ⟨c, hc, hle⟩ := h.lowest hx
    obtain ⟨hw, -, hlrec, -⟩ := h.current hc
    have hcaw : c.caw = m := le_antisymm hle (h.le_of_joined hcomplete hx hw)
    have hzero : ((nbr x).filter fun y => .leader m ∈ s'.done y x) = ∅ :=
      Finset.filter_false_of_mem fun _ _ => hnone'
    have hpos : (nbr x).Nonempty := by
      rcases hx.2 with rfl | hpast
      · exact hnonempty _ hm
      · obtain ⟨f, hf⟩ := Option.ne_none_iff_exists'.mp hpast
        exact ⟨f, (h.parent hf).1⟩
    refine .waits c (hsite ▸ hc) hcaw ?_ ?_ (hsite ▸ h.told x)
    · rw [hzero, hlrec, Finset.card_empty]
    · rw [hlrec]
      exact hpos.card_pos
  · rw [hsent']
    constructor
    · rintro (ht | ⟨rfl, -⟩)
      · exact absurd ht hnone
      · exact Or.inl rfl
    · rintro (rfl | ⟨y, -, hy⟩)
      · exact Or.inr ⟨rfl, hz, rfl⟩
      · exact absurd hy hnone'

/-! ### The announcement -/

/-- It is delivered on every way once. -/
theorem Leading.not_done (h : Leading nbr I K m s) (hy : y ∈ K)
    (hqueue : s.queue y x = .leader m :: rest) : .leader m ∉ s.done y x := by
  intro hdone
  have honce := h.once hy x
  rw [State.sent, hqueue, List.count_append, List.count_cons_self] at honce
  have hpos := List.count_pos_iff.mpr hdone
  omega

theorem Leading.step (h : Leading nbr I K m s) (hxK : x ∈ K) (hqueue : s.queue y x = .leader m :: rest)
    (hy : y ∈ nbr x) :
    Leading nbr I K m (s.next y x ((s.site x).leader (nbr x) x m).1 ((s.site x).leader (nbr x) x m).2) := by
  have hyK : y ∈ K := (h.closed hxK hy).1
  have hdone : .leader m ∉ s.done y x := h.not_done hyK hqueue
  obtain ⟨c, hwave, hcaw, hlrec, hlt, htold⟩ | ⟨-, hall, -⟩ := h.heard hxK
  swap
  · exact absurd (hall y hy) hdone
  have hleader : (s.site x).leader (nbr x) x m =
      (if c.lrec + 1 = (nbr x).card then { s.site x with wave := none, told := [m] }
        else { s.site x with wave := some { c with lrec := c.lrec + 1 } },
        if x ≠ m ∧ c.lrec = 0 then toAll (nbr x) (.leader m) else fun _ => []) := by
    simp only [Site.leader, hwave, hcaw, htold, List.nil_append]
  rw [hleader]
  generalize hout : (if x ≠ m ∧ c.lrec = 0 then toAll (nbr x) (.leader m) else fun _ => []) = out
  generalize hsite : (if c.lrec + 1 = (nbr x).card then { s.site x with wave := none, told := [m] }
    else { s.site x with wave := some { c with lrec := c.lrec + 1 } }) = site
  have hmem : ∀ {b t}, t ∈ out b ↔ (x ≠ m ∧ c.lrec = 0) ∧ b ∈ nbr x ∧ t = .leader m := by
    intro b t
    rw [← hout]
    split_ifs with hfirst
    · rw [mem_toAll]
      exact (and_iff_right hfirst).symm
    · simp [hfirst]
  have hfirst : c.lrec = 0 ↔ ∀ z ∈ nbr x, .leader m ∉ s.done z x := by
    rw [hlrec, Finset.card_eq_zero, Finset.filter_eq_empty_iff]
  have hcount : c.lrec + 1 =
      ((nbr x).filter fun z => .leader m ∈ (s.next y x site out).done z x).card := by
    have hinsert : ((nbr x).filter fun z => .leader m ∈ (s.next y x site out).done z x) =
        insert y ((nbr x).filter fun z => .leader m ∈ s.done z x) := by
      ext z
      simp only [Finset.mem_filter, Finset.mem_insert, State.mem_done_next hqueue]
      grind
    rw [hinsert, Finset.card_insert_of_notMem, hlrec]
    exact fun hz => hdone (Finset.mem_filter.mp hz).2
  have hdone' : ∀ {a b t}, b ≠ x → (t ∈ (s.next y x site out).done a b ↔ t ∈ s.done a b) := by
    intro a b t hb
    rw [State.mem_done_next hqueue]
    exact or_iff_left fun h => hb h.1.2
  refine {
    mem := h.mem
    closed := h.closed
    path := h.path
    edge := fun {a b t} ha ht => ?_
    queued := fun {a b t} ha ht => ?_
    once := fun {a} ha b => ?_
    few := fun {a} ha b => ?_
    heard := fun {a} ha => ?_
    sends := fun {a z} ha hz => ?_ }
  · rcases State.mem_sent_next.mp ht with hold | ⟨rfl, hnew⟩
    · exact h.edge ha hold
    · exact (hmem.mp hnew).2.1
  · rcases List.mem_append.mp ht with hold | hnew
    · refine h.queued (y := a) (x := b) ha ?_
      split_ifs at hold
      · exact List.mem_of_mem_drop hold
      · exact hold
    · split_ifs at hnew
      · exact (hmem.mp hnew).2.2
      · cases hnew
  · rw [State.sent_next, List.count_append]
    split_ifs with hax
    · subst hax
      by_cases hb : .leader m ∈ out b
      · obtain ⟨⟨hxm, hzero⟩, hb, -⟩ := hmem.mp hb
        have hnot : .leader m ∉ s.sent a b := by
          rw [h.sends ha hb]
          rintro (rfl | ⟨z, hz, hzdone⟩)
          · exact hxm rfl
          · exact hfirst.mp hzero z hz hzdone
        rw [List.count_eq_zero.mpr hnot, Nat.zero_add, ← hout]
        split_ifs
        · exact List.count_le_length.trans length_toAll
        · exact Nat.zero_le _
      · rw [List.count_eq_zero.mpr hb, Nat.add_zero]
        exact h.once ha b
    · exact h.once ha b
  · have hrest : (if a = x then out b else []).countP (· ≠ .leader m) = 0 := by
      refine List.countP_eq_zero.mpr fun t ht => ?_
      split_ifs at ht
      · simp [(hmem.mp ht).2.2]
      · cases ht
    rw [State.sent_next, List.countP_append, hrest, Nat.add_zero]
    exact h.few ha b
  · by_cases hax : a = x
    · subst hax
      by_cases hlast : c.lrec + 1 = (nbr a).card
      · rw [if_pos hlast] at hsite
        have hall : ∀ z ∈ nbr a, .leader m ∈ (s.next y a site out).done z a :=
          Finset.card_filter_eq_iff.mp (hcount.symm.trans hlast)
        exact .finished (by rw [State.site_next_self, ← hsite]) hall (by rw [State.site_next_self, ← hsite])
      · rw [if_neg hlast] at hsite
        refine .waits { c with lrec := c.lrec + 1 } ?_ hcaw hcount (by simp only; omega) ?_
        · rw [State.site_next_self, ← hsite]
        · rw [State.site_next_self, ← hsite]
          exact htold
    · rcases h.heard ha with ⟨c', hwave', hcaw', hlrec', hlt', htold'⟩ | ⟨hwave', hall', htold'⟩
      · refine .waits c' ?_ hcaw' ?_ hlt' ?_
        · rw [State.site_next_ne hax, hwave']
        · simp only [hdone' hax]
          exact hlrec'
        · rw [State.site_next_ne hax, htold']
      · refine .finished ?_ (fun z hz => (hdone' hax).mpr (hall' z hz)) ?_
        · rw [State.site_next_ne hax, hwave']
        · rw [State.site_next_ne hax, htold']
  · rw [State.mem_sent_next]
    by_cases hax : a = x
    · subst hax
      refine iff_of_true ?_ (Or.inr ⟨y, hy, (State.mem_done_next hqueue).mpr (Or.inr ⟨⟨rfl, rfl⟩, rfl⟩)⟩)
      by_cases hnew : a ≠ m ∧ c.lrec = 0
      · exact Or.inr ⟨rfl, hmem.mpr ⟨hnew, hz, rfl⟩⟩
      · refine Or.inl ((h.sends ha hz).mpr ?_)
        by_contra hnot
        obtain ⟨ham, hnone⟩ := not_or.mp hnot
        exact hnew ⟨ham, hfirst.mpr fun z hz hzdone => hnone ⟨z, hz, hzdone⟩⟩
    · simp only [hdone' hax, hax, false_and, or_false]
      exact h.sends ha hz

/-- When nothing is on its way from these sites any more, they are done. -/
theorem Leading.finished (h : Leading nbr I K m s) (hquiet : ∀ y ∈ K, ∀ x, s.queue y x = [])
    (hx : x ∈ K) : (s.site x).wave = none ∧ (s.site x).told = [m] := by
  have hdone : ∀ {a b t}, a ∈ K → t ∈ s.sent a b → t ∈ s.done a b := by
    intro a b t ha ht
    rwa [State.sent, hquiet a ha, List.append_nil] at ht
  -- The announcement has reached every site, along the path from the winner.
  have hreached : ∀ {a}, a ∈ K → a = m ∨ ∃ y ∈ nbr a, .leader m ∈ s.done y a := by
    intro a ha
    have hpath := h.path ha
    suffices hall : a ∈ K ∧ (a = m ∨ ∃ y ∈ nbr a, .leader m ∈ s.done y a) from hall.2
    clear ha
    induction hpath with
    | refl => exact ⟨h.mem, Or.inl rfl⟩
    | @tail b a hpath hedge ih =>
      obtain ⟨hb, hb'⟩ := ih
      obtain ⟨ha, hback⟩ := h.closed hb hedge
      exact ⟨ha, Or.inr ⟨b, hback, hdone hb ((h.sends hb hedge).mpr hb')⟩⟩
  have hall : ∀ y ∈ nbr x, .leader m ∈ s.done y x := by
    intro y hy
    obtain ⟨hyK, hxy⟩ := h.closed hx hy
    exact hdone hyK ((h.sends hyK hxy).mpr (hreached hyK))
  rcases h.heard hx with ⟨c, -, -, hlrec, hlt, -⟩ | ⟨hwave, -, htold⟩
  · rw [hlrec, Finset.card_filter_eq_iff.mpr hall] at hlt
    exact absurd hlt (lt_irrefl _)
  · exact ⟨hwave, htold⟩

theorem Leading.mono (h : Leading nbr I K m s) {I' : Finset V} (hI : I ⊆ I') : Leading nbr I' K m s :=
  { h with few := fun hy x => (h.few hy x).trans (Finset.card_le_card hI) }

/-- Only these sites matter. -/
theorem Leading.congr (h : Leading nbr I K m s) (hsite : ∀ x ∈ K, s'.site x = s.site x)
    (hdone : ∀ y ∈ K, ∀ x, s'.done y x = s.done y x) (hqueue : ∀ y ∈ K, ∀ x, s'.queue y x = s.queue y x) :
    Leading nbr I K m s' := by
  have hsent : ∀ {y x}, y ∈ K → s'.sent y x = s.sent y x := by
    intro y x hy
    rw [State.sent, State.sent, hdone y hy, hqueue y hy]
  have hdone' : ∀ {x y}, x ∈ K → y ∈ nbr x → s'.done y x = s.done y x := fun hx hy =>
    hdone _ (h.closed hx hy).1 _
  refine {
    mem := h.mem
    closed := h.closed
    path := h.path
    edge := fun hy ht => h.edge hy (hsent hy ▸ ht)
    queued := fun {y x t} hy ht => h.queued (y := y) (x := x) hy (hqueue y hy x ▸ ht)
    once := fun {y} hy x => (hsent (x := x) hy).symm ▸ h.once hy x
    few := fun {y} hy x => (hsent (x := x) hy).symm ▸ h.few hy x
    heard := fun {x} hx => ?_
    sends := fun {x z} hx hz => ?_ }
  · rcases h.heard hx with ⟨c, hwave, hcaw, hlrec, hlt, htold⟩ | ⟨hwave, hall, htold⟩
    · refine .waits c ((hsite x hx).symm ▸ hwave) hcaw ?_ hlt ((hsite x hx).symm ▸ htold)
      rw [hlrec]
      exact congrArg Finset.card (Finset.filter_congr fun y hy => by rw [hdone' hx hy])
    · refine .finished ((hsite x hx).symm ▸ hwave) (fun y hy => ?_) ((hsite x hx).symm ▸ htold)
      rw [hdone' hx hy]
      exact hall y hy
  · rw [hsent hx, h.sends hx hz]
    refine or_congr_right (exists_congr fun y => and_congr_right fun hy => ?_)
    rw [hdone' hx hy]

/-! ### One delivery -/

/-- One more neighbour has sent the token of the wave the site is in. -/
theorem Waving.support (h : Waving nbr I s) (hundecided : Undecided nbr s)
    (hqueue : s.queue y x = .elect r :: rest) (hy : y ∈ nbr x) (hc : (s.site x).wave = some c)
    (hcaw : c.caw = r) {site : Site V} {out : Mail V}
    (hsupport : (s.site x).support (nbr x) x c = (site, out)) :
    (Waving nbr I (s.next y x site out) ∧ Undecided nbr (s.next y x site out)) ∨
      Won nbr I x (s.next y x site out) := by
  obtain ⟨rfl, rfl⟩ := Prod.mk.inj hsupport
  subst hcaw
  obtain ⟨hjoined, hfather, -, -⟩ := h.current hc
  set site : Site V := { s.site x with wave := some { c with erec := c.erec + 1 } } with hsite
  -- Once the message is counted, all neighbours have sent the token if the count says so.
  have hcomplete : ∀ {out : Mail V}, Waving nbr I (s.next y x site out) →
      (c.erec + 1 = (nbr x).card ↔ (s.next y x site out).Complete nbr x c.caw) := by
    intro out h'
    have hwave : ((s.next y x site out).site x).wave = some { c with erec := c.erec + 1 } := by
      rw [State.site_next_self]
    obtain ⟨-, -, -, herec⟩ := h'.current hwave
    have herec : c.erec + 1 = _ := herec
    rw [herec, Finset.card_filter_eq_iff]
    rfl
  have hothers : ∀ {out : Mail V} a c', a ≠ x → ((s.next y x site out).site a).wave = some c' →
      c'.caw = a → ¬(s.next y x site out).Complete nbr a a := by
    intro out a c' hax hc' hca hall
    rw [State.site_next_ne hax] at hc'
    refine hundecided a c' hc' hca fun z hz => ?_
    exact ((State.mem_done_next hqueue).mp (hall z hz)).resolve_right fun h => hax h.1.2
  have hwave : site.wave = some { c with erec := if c.caw = c.caw then c.erec + 1 else c.erec } := by
    rw [if_pos rfl]
  by_cases hwon : c.erec + 1 = (nbr x).card ∧ c.caw = x
  · -- The initiator has won.
    obtain ⟨hcard, hcx⟩ := hwon
    have hsilent : Waving nbr I (s.next y x site fun _ => []) := by
      refine h.receive hqueue hy hc le_rfl hwave rfl rfl (fun b t => ?_) fun _ => Nat.zero_le _
      refine iff_of_false List.not_mem_nil ?_
      rintro ⟨⟨-, hne, -⟩, -⟩
      exact hne hcx
    have hall := (hcomplete hsilent).mp hcard
    rw [hcx] at hall
    refine Or.inr (.intro _ hsilent (hcx ▸ hjoined.1) hall hothers rfl rfl fun a b => ?_)
    rw [if_pos hcard, if_pos hcx]
    simp only [State.next]
    split_ifs <;> simp
  · refine Or.inl ?_
    have hout : ∀ b t, t ∈ (if c.erec + 1 = (nbr x).card then
        if c.caw = x then toAll (nbr x) (.leader x) else toAll c.father.toFinset (.elect c.caw)
        else fun _ => []) b ↔ (c.caw = c.caw ∧ c.caw ≠ x ∧ (s.site x).past c.caw = some b ∧
          c.erec + 1 = (nbr x).card) ∧ t = .elect c.caw := by
      intro b t
      split_ifs with hcard hcx
      · exact absurd ⟨hcard, hcx⟩ hwon
      · rw [mem_toAll, Option.mem_toFinset, hfather, Option.mem_def]
        simp [hcard, hcx]
      · simp [hcard]
    have hwaving := h.receive hqueue hy hc le_rfl hwave rfl rfl hout fun b => by
      split_ifs
      · exact length_toAll
      · exact length_toAll
      · exact Nat.zero_le _
    refine ⟨hwaving, fun a c' hc' hca hall => ?_⟩
    by_cases hax : a = x
    · subst hax
      rw [State.site_next_self] at hc'
      obtain rfl := Option.some_inj.mp hc'
      have hca : c.caw = a := hca
      exact hwon ⟨(hcomplete hwaving).mpr (hca.symm ▸ hall), hca⟩
    · exact hothers a c' hax hc' hca hall

/-- A site takes a wave over. -/
theorem Waving.follow (h : Waving nbr I s) (hundecided : Undecided nbr s)
    (hqueue : s.queue y x = .elect r :: rest) (hy : y ∈ nbr x) (hne : y ≠ x)
    (hnew : ∀ c, (s.site x).wave = some c → r < c.caw) {site : Site V} {out : Mail V}
    (hfollow : (s.site x).follow (nbr x) x y r = (site, out)) :
    (Waving nbr I (s.next y x site out) ∧ Undecided nbr (s.next y x site out)) ∨
      Won nbr I x (s.next y x site out) := by
  have hadopted := h.adopt (State.sent_of_queue hqueue) hy hne hnew
  have hundecided' : Undecided nbr (s.adopt (nbr x) x y r) := by
    intro a c hc hca hall
    by_cases hax : a = x
    · subst hax
      rw [State.site_adopt_self] at hc
      obtain rfl := Option.some_inj.mp hc
      exact h.not_heard hnew y (hca ▸ hall y hy)
    · rw [State.site_adopt_ne hax] at hc
      exact hundecided a c hc hca hall
  have hqueue' : (s.adopt (nbr x) x y r).queue y x = .elect r :: rest := by
    simp only [State.adopt, if_neg hne, List.append_nil, hqueue]
  have hc : ((s.adopt (nbr x) x y r).site x).wave = some ⟨r, some y, 0, 0⟩ := by
    rw [State.site_adopt_self]
    rfl
  cases hsupport : ((s.adopt (nbr x) x y r).site x).support (nbr x) x ⟨r, some y, 0, 0⟩ with
  | mk site' out' =>
    have hresult := hadopted.support hundecided' hqueue' hy hc rfl hsupport
    rw [State.site_adopt_self] at hsupport
    simp only [Site.follow, hsupport, Prod.mk.injEq] at hfollow
    obtain ⟨rfl, rfl⟩ := hfollow
    rwa [State.next_adopt hne] at hresult

/-- A token is delivered when nobody has won. -/
theorem Waving.step (h : Waving nbr I s) (hundecided : Undecided nbr s)
    (hqueue : s.queue y x = .elect r :: rest) (hy : y ∈ nbr x) (hne : y ≠ x) {site : Site V}
    {out : Mail V} (helect : (s.site x).elect (nbr x) x y r = (site, out)) :
    (Waving nbr I (s.next y x site out) ∧ Undecided nbr (s.next y x site out)) ∨
      Won nbr I x (s.next y x site out) := by
  unfold Site.elect at helect
  split at helect
  case h_1 hnone =>
    refine h.follow hundecided hqueue hy hne (fun c hc => ?_) helect
    rw [hnone] at hc
    cases hc
  case h_2 c hc =>
    split_ifs at helect with hlt hcaw
    · refine h.follow hundecided hqueue hy hne (fun c' hc' => ?_) helect
      obtain rfl := Option.some_inj.mp (hc.symm.trans hc')
      exact hlt
    · exact h.support hundecided hqueue hy hc hcaw helect
    · -- The wave is not as small as the one the site is in.
      obtain ⟨rfl, rfl⟩ := Prod.mk.inj helect
      refine Or.inl ⟨?_, fun a c' hc' hca hall => ?_⟩
      · refine h.receive hqueue hy hc (not_lt.mp hlt) ?_ rfl rfl (fun b t => ?_) fun _ => Nat.zero_le _
        · rw [if_neg hcaw, hc]
        · exact iff_of_false List.not_mem_nil fun ht => hcaw ht.1.1
      · have hsame : ∀ {a}, ((s.next y x (s.site x) fun _ => []).site a) = s.site a := by
          intro a
          by_cases hax : a = x
          · rw [hax, State.site_next_self]
          · rw [State.site_next_ne hax]
        rw [hsame] at hc'
        refine hundecided a c' hc' hca fun z hz => ?_
        refine ((State.mem_done_next hqueue).mp (hall z hz)).resolve_right ?_
        rintro ⟨⟨-, rfl⟩, ⟨rfl⟩⟩
        obtain rfl := Option.some_inj.mp (hc.symm.trans hc')
        exact hcaw hca

end Echo
