import Zyre.ForMathlib.Echo.Victory

/-!
# Elections in the parts of a graph

Where the graph is not connected its parts decide at different times. `Parts` is what then holds of the
whole: the sites for which nobody has won yet are as if they were alone, and those for which `m` has won
follow its announcement. No delivery breaks it (`Parts.deliver`), so it holds in every run (`Run.parts`).
In a graph whose sites are all neighbours of each other there is one part only, and what a run leads to
can be said of all sites at once (`Run.told`, `Run.finished`, `Run.length_le`).
-/

namespace Echo

variable {V : Type}

/-- A graph on the sites `S`. -/
structure Graph (nbr : V → Finset V) (S : Finset V) : Prop where
  irrefl : ∀ x, x ∉ nbr x
  inside : ∀ x, nbr x ⊆ S

/-! ### A part of the sites -/

open Classical in
/-- The sites of `U`, as if the others had never said a word. -/
noncomputable def State.part (s : State V) (U : Set V) : State V where
  site x := if x ∈ U then s.site x else ⟨none, [], fun _ => none⟩
  done y x := if y ∈ U then s.done y x else []
  queue y x := if y ∈ U then s.queue y x else []

namespace State

variable {s : State V} {U U' : Set V} {x y : V} {site : Site V} {out : Mail V}

theorem site_part (h : x ∈ U) : (s.part U).site x = s.site x := if_pos h

theorem site_part_of_notMem (h : x ∉ U) : (s.part U).site x = ⟨none, [], fun _ => none⟩ := if_neg h

theorem done_part (h : y ∈ U) : (s.part U).done y x = s.done y x := if_pos h

theorem queue_part (h : y ∈ U) : (s.part U).queue y x = s.queue y x := if_pos h

theorem sent_part (h : y ∈ U) : (s.part U).sent y x = s.sent y x := by
  rw [sent, sent, done_part h, queue_part h]

theorem sent_part_of_notMem (h : y ∉ U) : (s.part U).sent y x = [] := by
  simp [sent, part, h]

theorem done_part_of_notMem (h : y ∉ U) : (s.part U).done y x = [] := if_neg h

/-- The part with all sites is the whole. -/
theorem part_of_forall (h : ∀ x, x ∈ U) : s.part U = s := by
  simp [part, h]

/-- A part of a part is a part. -/
theorem part_part (h : U' ⊆ U) : (s.part U).part U' = s.part U' := by
  simp only [part, mk.injEq]
  refine ⟨?_, ?_, ?_⟩
  · funext x
    split_ifs with hU' hU
    · rfl
    · exact absurd (h hU') hU
    · rfl
  · funext y x
    split_ifs with hU' hU
    · rfl
    · exact absurd (h hU') hU
    · rfl
  · funext y x
    split_ifs with hU' hU
    · rfl
    · exact absurd (h hU') hU
    · rfl

/-- Only these sites matter to the part. -/
theorem part_congr {s' : State V} (hsite : ∀ x ∈ U, s'.site x = s.site x)
    (hdone : ∀ y ∈ U, ∀ x, s'.done y x = s.done y x) (hqueue : ∀ y ∈ U, ∀ x, s'.queue y x = s.queue y x) :
    s'.part U = s.part U := by
  simp only [part, mk.injEq]
  refine ⟨?_, ?_, ?_⟩
  · funext x
    split_ifs with hx
    · exact hsite x hx
    · rfl
  · funext y x
    split_ifs with hy
    · exact hdone y hy x
    · rfl
  · funext y x
    split_ifs with hy
    · exact hqueue y hy x
    · rfl

variable [LinearOrder V]

/-- A delivery within the part. -/
theorem part_next (hy : y ∈ U) (hx : x ∈ U) :
    (s.next y x site out).part U = (s.part U).next y x site out := by
  simp only [part, next, mk.injEq]
  refine ⟨?_, ?_, ?_⟩
  · funext a
    by_cases ha : a = x
    · subst ha
      simp [hx]
    · simp [Function.update_of_ne ha]
  · funext a b
    by_cases h : a = y ∧ b = x
    · simp [h.1, h.2, hy]
    · simp [h]
  · funext a b
    by_cases ha : a ∈ U
    · simp [ha]
    · have hay : ¬(a = y ∧ b = x) := fun h => ha (h.1 ▸ hy)
      have hax : a ≠ x := fun h => ha (h ▸ hx)
      simp [ha, hay, hax]

/-- A delivery elsewhere. -/
theorem site_next_of_mem (hx : x ∉ U) {a : V} (ha : a ∈ U) : (s.next y x site out).site a = s.site a :=
  site_next_ne fun h => hx (h ▸ ha)

/-- What happens outside `U` changes nothing of what has been handled of sites in `U`. -/
theorem done_next_of_mem (hy : y ∉ U) {a b : V} (ha : a ∈ U) :
    (s.next y x site out).done a b = s.done a b := by
  have hay : ¬(a = y ∧ b = x) := fun h => hy (h.1 ▸ ha)
  simp only [next, if_neg hay]

/-- Nor does it change what they have under way. -/
theorem queue_next_of_mem (hy : y ∉ U) (hx : x ∉ U) {a b : V} (ha : a ∈ U) :
    (s.next y x site out).queue a b = s.queue a b := by
  have hay : ¬(a = y ∧ b = x) := fun h => hy (h.1 ▸ ha)
  have hax : a ≠ x := fun h => hx (h ▸ ha)
  simp only [next, if_neg hay, if_neg hax, List.append_nil]

end State

variable [LinearOrder V]

variable {nbr : V → Finset V} {I S : Finset V} {s s' : State V} {x y r m : V} {t : Token V}
  {rest : List (Token V)} {U : Set V}

/-- Where nothing has been delivered across its border, a part by itself is as it should be. -/
theorem Waving.part (h : Waving nbr I s) {I' : Finset V} (hI : ∀ i, i ∈ I' ↔ i ∈ I ∧ i ∈ U)
    (hdone : ∀ {y x t}, t ∈ s.done y x → (y ∈ U ↔ x ∈ U))
    (hpast : ∀ {x w f}, (s.site x).past w = some f → (f ∈ U ↔ x ∈ U)) : Waving nbr I' (s.part U) := by
  have hsite : ∀ {x c}, ((s.part U).site x).wave = some c → x ∈ U ∧ (s.site x).wave = some c := by
    intro x c hc
    by_cases hx : x ∈ U
    · exact ⟨hx, State.site_part hx ▸ hc⟩
    · rw [State.site_part_of_notMem hx] at hc
      cases hc
  have hpast' : ∀ {x w f}, ((s.part U).site x).past w = some f → x ∈ U ∧ (s.site x).past w = some f := by
    intro x w f hf
    by_cases hx : x ∈ U
    · exact ⟨hx, State.site_part hx ▸ hf⟩
    · rw [State.site_part_of_notMem hx] at hf
      cases hf
  have hsent : ∀ {y x t}, t ∈ (s.part U).sent y x → y ∈ U ∧ t ∈ s.sent y x := by
    intro y x t ht
    by_cases hy : y ∈ U
    · exact ⟨hy, State.sent_part hy ▸ ht⟩
    · rw [State.sent_part_of_notMem hy] at ht
      cases ht
  have hdone' : ∀ {y x t}, t ∈ (s.part U).done y x ↔ y ∈ U ∧ t ∈ s.done y x := by
    intro y x t
    by_cases hy : y ∈ U
    · rw [State.done_part hy, and_iff_right hy]
    · rw [State.done_part_of_notMem hy]
      simp [hy]
  have hjoined : ∀ {x w}, (s.part U).Joined I' x w → x ∈ U ∧ s.Joined I x w := by
    rintro x w ⟨hw, hor⟩
    obtain ⟨hwI, hwU⟩ := (hI w).mp hw
    rcases hor with rfl | hne
    · exact ⟨hwU, hwI, Or.inl rfl⟩
    · obtain ⟨f, hf⟩ := Option.ne_none_iff_exists'.mp hne
      obtain ⟨hx, hf⟩ := hpast' hf
      exact ⟨hx, hwI, Or.inr (by rw [hf]; exact Option.some_ne_none f)⟩
  have hjoined' : ∀ {x w}, x ∈ U → s.Joined I x w → (s.part U).Joined I' x w := by
    intro x w hx hw
    have hwU : w ∈ U := h.initiator_mem (fun hf hx => (hpast hf).mpr hx) hw hx
    exact ⟨(hI w).mpr ⟨hw.1, hwU⟩, by rw [State.site_part hx]; exact hw.2⟩
  have hcomplete : ∀ {x w}, x ∈ U → ((s.part U).Complete nbr x w ↔ s.Complete nbr x w) := by
    intro x w hx
    refine forall₂_congr fun y _ => ?_
    rw [hdone']
    exact and_iff_right_of_imp fun ht => (hdone ht).mpr hx
  refine {
    elects := fun {y x t} ht => ?_
    known := fun ht => h.known (hdone'.mp ht).2
    le_self := fun {x w} hx hw => h.le_self ((hI x).mp hx).1 (hjoined hw).2
    current := fun {x c} hc => ?_
    lowest := fun {x w} hw => ?_
    heard := fun {y x w} hw => ?_
    told := fun x => ?_
    decreasing := fun y x => ?_
    parent := fun {x w f} hf => ?_
    forward := fun {x w z} hw hz hf => ?_
    echoed := fun {x w f} hf ht => ?_
    echo := fun {x c f} hc hf hcx hall => ?_
    own := fun {x} hx => ?_
    ranked := ?_ }
  · obtain ⟨hy, ht⟩ := hsent ht
    obtain ⟨w, rfl, hw, hx⟩ := h.elects ht
    exact ⟨w, rfl, hjoined' hy hw, hx⟩
  · obtain ⟨hx, hc⟩ := hsite hc
    obtain ⟨hw, hfather, hlrec, herec⟩ := h.current hc
    refine ⟨hjoined' hx hw, by rw [State.site_part hx]; exact hfather, hlrec, ?_⟩
    rw [herec]
    refine congrArg Finset.card (Finset.filter_congr fun y _ => ?_)
    rw [hdone']
    exact (and_iff_right_of_imp fun ht => (hdone ht).mpr hx).symm
  · obtain ⟨hx, hw⟩ := hjoined hw
    rw [State.site_part hx]
    exact h.lowest hw
  · obtain ⟨hy, hw⟩ := hdone'.mp hw
    rw [State.site_part ((hdone hw).mp hy)]
    exact h.heard hw
  · by_cases hx : x ∈ U
    · rw [State.site_part hx]
      exact h.told x
    · rw [State.site_part_of_notMem hx]
  · by_cases hy : y ∈ U
    · rw [State.sent_part hy]
      exact h.decreasing y x
    · rw [State.sent_part_of_notMem hy]
      exact .nil
  · obtain ⟨hx, hf⟩ := hpast' hf
    rw [State.sent_part ((hpast hf).mpr hx)]
    exact h.parent hf
  · obtain ⟨hx, hw⟩ := hjoined hw
    rw [State.site_part hx] at hf
    rw [State.sent_part hx]
    exact h.forward hw hz hf
  · obtain ⟨hx, hf⟩ := hpast' hf
    exact (hcomplete hx).mpr (h.echoed hf (hsent ht).2)
  · obtain ⟨hx, hc⟩ := hsite hc
    rw [State.sent_part hx]
    exact h.echo hc (hpast' hf).2 hcx ((hcomplete hx).mp hall)
  · by_cases hxU : x ∈ U
    · rw [State.site_part hxU]
      exact h.own ((hI x).mp hx).1
    · rw [State.site_part_of_notMem hxU]
  · obtain ⟨rank, hrank⟩ := h.ranked
    exact ⟨rank, fun x w f hf => hrank x w f (hpast' hf).2⟩

/-! ### The parts -/

/-- The parts of the graph: `verdict` says for which sites somebody has won, and who. -/
structure Parts (nbr : V → Finset V) (I : Finset V) (verdict : V → Option V) (s : State V) : Prop where
  waving : Waving nbr (I.filter fun i => verdict i = none) (s.part {x | verdict x = none})
  undecided : Undecided nbr (s.part {x | verdict x = none})
  leading : ∀ {x m}, verdict x = some m → Leading nbr I {a | verdict a = some m} m s
  least : ∀ {x m}, verdict x = some m → m ∈ I ∧ ∀ i ∈ I, verdict i = some m → m ≤ i

variable {verdict : V → Option V}

/-- Nobody has won. -/
theorem parts_none_iff : Parts nbr I (fun _ => none) s ↔ Waving nbr I s ∧ Undecided nbr s := by
  have hpart : s.part {x : V | (none : Option V) = none} = s := State.part_of_forall fun _ => rfl
  have hfilter : (I.filter fun _ => (none : Option V) = none) = I := Finset.filter_true_of_mem fun _ _ => rfl
  constructor
  · rintro ⟨hwaving, hundecided, -, -⟩
    exact ⟨hpart ▸ hfilter ▸ hwaving, hpart ▸ hundecided⟩
  · rintro ⟨hwaving, hundecided⟩
    exact ⟨hpart.symm ▸ hfilter.symm ▸ hwaving, hpart.symm ▸ hundecided, nofun, nofun⟩

/-- A site knows only sites of its own part, and they know it. -/
theorem Parts.neighbour (h : Parts nbr I verdict s) (hx : verdict x = some m) (hy : y ∈ nbr x) :
    verdict y = some m ∧ x ∈ nbr y :=
  (h.leading hx).closed hx hy

/-- What comes to a site of the part that is still running comes from that part. -/
theorem Parts.none_of_queue (h : Parts nbr I verdict s) (hqueue : s.queue y x = t :: rest)
    (hx : verdict x = none) : verdict y = none := by
  by_contra hne
  obtain ⟨m, hym⟩ := Option.ne_none_iff_exists'.mp hne
  have hxy := (h.leading hym).edge hym (State.sent_of_queue hqueue)
  exact nomatch hx.symm.trans (h.neighbour hym hxy).1

/-- A site for which nobody has won is sent tokens only. -/
theorem Parts.elect_of_none (h : Parts nbr I verdict s) (hqueue : s.queue y x = t :: rest)
    (hx : verdict x = none) : ∃ r, t = .elect r := by
  have hyU : y ∈ {a | verdict a = none} := h.none_of_queue hqueue hx
  have hqueue' : (s.part {a | verdict a = none}).queue y x = t :: rest := by
    rw [State.queue_part hyU, hqueue]
  obtain ⟨r, rfl, -⟩ := h.waving.elects (State.sent_of_queue hqueue')
  exact ⟨r, rfl⟩

/-- The announcement is delivered. -/
theorem Parts.announce (h : Parts nbr I verdict s) (hqueue : s.queue y x = t :: rest) (hy : y ∈ nbr x)
    (hx : verdict x = some m) : Parts nbr I verdict
      (s.next y x ((s.site x).handle (nbr x) x y t).1 ((s.site x).handle (nbr x) x y t).2) := by
  have hym : verdict y = some m := (h.neighbour hx hy).1
  obtain rfl := (h.leading hx).queued (y := y) (x := x) hym (hqueue ▸ List.mem_cons_self)
  have hother : ∀ {U : Set V}, y ∉ U → x ∉ U → ∀ site out,
      (∀ a ∈ U, (s.next y x site out).site a = s.site a) ∧
      (∀ a ∈ U, ∀ b, (s.next y x site out).done a b = s.done a b) ∧
      ∀ a ∈ U, ∀ b, (s.next y x site out).queue a b = s.queue a b := fun hyU hxU site out =>
    ⟨fun _ ha => State.site_next_of_mem hxU ha, fun _ ha _ => State.done_next_of_mem hyU ha,
      fun _ ha _ => State.queue_next_of_mem hyU hxU ha⟩
  have hpart : ∀ site out, (s.next y x site out).part {a | verdict a = none} =
      s.part {a | verdict a = none} := by
    intro site out
    obtain ⟨hsite, hdone, hqueue⟩ := hother (U := {a | verdict a = none})
      (fun h => nomatch hym.symm.trans h)
      (fun h => nomatch hx.symm.trans h) site out
    exact State.part_congr hsite hdone hqueue
  refine ⟨?_, ?_, fun {a k} ha => ?_, h.least⟩
  · rw [hpart]
    exact h.waving
  · rw [hpart]
    exact h.undecided
  · by_cases hkm : k = m
    · subst hkm
      exact (h.leading hx).step hx hqueue hy
    · obtain ⟨hsite, hdone, hqueue⟩ := hother (U := {a | verdict a = some k})
        (fun h => hkm (Option.some_inj.mp (h.symm.trans hym)))
        (fun h => hkm (Option.some_inj.mp (h.symm.trans hx))) _ _
      exact (h.leading ha).congr hsite hdone hqueue

/-- A token is delivered, and nobody wins. -/
theorem Parts.proceed (h : Parts nbr I verdict s) {site : Site V} {out : Mail V} (hy : verdict y = none)
    (hx : verdict x = none)
    (hwaving : Waving nbr (I.filter fun i => verdict i = none)
      ((s.part {a | verdict a = none}).next y x site out))
    (hundecided : Undecided nbr ((s.part {a | verdict a = none}).next y x site out)) :
    Parts nbr I verdict (s.next y x site out) := by
  have hpart : (s.next y x site out).part {a | verdict a = none} = _ := State.part_next hy hx
  refine ⟨hpart ▸ hwaving, hpart ▸ hundecided, fun {a k} ha => ?_, h.least⟩
  have hyk : y ∉ {a | verdict a = some k} := fun h => nomatch hy.symm.trans h
  have hxk : x ∉ {a | verdict a = some k} := fun h => nomatch hx.symm.trans h
  exact (h.leading ha).congr (fun _ ha => State.site_next_of_mem hxk ha)
    (fun _ ha _ => State.done_next_of_mem hyk ha) fun _ ha _ => State.queue_next_of_mem hyk hxk ha

/-- A token is delivered, and the site has won. Those that have joined its wave become a part of their
own. -/
theorem Parts.separate (h : Parts nbr I verdict s) (hnonempty : ∀ i ∈ I, (nbr i).Nonempty) {site : Site V}
    {out : Mail V} (hy : verdict y = none) (hx : verdict x = none)
    (hwon : Won nbr (I.filter fun i => verdict i = none) x
      ((s.part {a | verdict a = none}).next y x site out)) :
    ∃ verdict', (∀ a m, verdict a = some m → verdict' a = some m) ∧
      Parts nbr I verdict' (s.next y x site out) := by
  have hpart : (s.next y x site out).part {a | verdict a = none} = _ := State.part_next hy hx
  rw [← hpart] at hwon
  obtain ⟨s₀, hwaving, hmem, hcomplete, hothers, hsite, hdone, hqueue⟩ := hwon
  set s' := s.next y x site out
  set I₀ := I.filter fun i => verdict i = none with hI₀
  set U := {a | verdict a = none} with hU
  set K := {a | s₀.Joined I₀ a x} with hK
  have hmemI₀ : ∀ {i}, i ∈ I₀ → i ∈ I ∧ verdict i = none := fun hi => Finset.mem_filter.mp hi
  have hxK : x ∈ K := ⟨hmem, Or.inl rfl⟩
  have hpast : ∀ {a w f}, (s₀.site a).past w = some f → a ∈ U := by
    intro a w f hf
    by_contra ha
    rw [← hsite, State.site_part_of_notMem ha] at hf
    cases hf
  have hKU : K ⊆ U := by
    rintro a ⟨-, rfl | hne⟩
    · exact hx
    · obtain ⟨f, hf⟩ := Option.ne_none_iff_exists'.mp hne
      exact hpast hf
  -- The sites that have been decided before have neighbours of their own kind only.
  have hneighbour : ∀ {a b}, a ∈ U → a ∈ nbr b → b ∈ U := by
    intro a b ha hab
    by_contra hb
    obtain ⟨m, hb⟩ := Option.ne_none_iff_exists'.mp hb
    exact nomatch (show verdict a = none from ha).symm.trans (h.neighbour hb hab).1
  obtain ⟨verdict', hwinner, hsame⟩ : ∃ verdict' : V → Option V, (∀ a ∈ K, verdict' a = some x) ∧
      ∀ a ∉ K, verdict' a = verdict a := by
    classical
    exact ⟨fun a => if a ∈ K then some x else verdict a, fun a ha => if_pos ha, fun a ha => if_neg ha⟩
  have hnew : ∀ {a m}, verdict' a = some m ↔ m = x ∧ a ∈ K ∨ m ≠ x ∧ verdict a = some m := by
    intro a m
    by_cases ha : a ∈ K
    · have hnone : verdict a = none := hKU ha
      rw [hwinner a ha, hnone]
      simp [ha, eq_comm]
    · rw [hsame a ha]
      by_cases hmx : m = x
      · subst hmx
        simp only [ha, and_false, ne_eq, not_true_eq_false, false_and, or_self, iff_false]
        intro hverdict
        exact nomatch hx.symm.trans (h.leading hverdict).mem
      · simp [hmx]
  have hnone : ∀ {a}, verdict' a = none ↔ a ∈ U ∧ a ∉ K := by
    intro a
    by_cases ha : a ∈ K
    · simp [hwinner a ha, ha]
    · rw [hsame a ha]
      exact (and_iff_left ha).symm
  have hset : {a | verdict' a = none} = U \ K := Set.ext fun a => hnone
  have hpart' : s'.part (U \ K) = s₀.part (U \ K) := by
    rw [← State.part_part Set.sdiff_subset]
    refine State.part_congr (fun a _ => congrFun hsite a) (fun a _ b => congrFun₂ hdone a b)
      fun a ha b => ?_
    have hax : a ≠ x := fun h => ha.2 (h ▸ hxK)
    rw [hqueue, if_neg hax, List.append_nil]
  refine ⟨verdict', fun a m ha => ?_, ?_, ?_, fun {a m} ha => ?_, fun {a m} ha => ?_⟩
  · rw [hsame a fun haK => nomatch (show verdict a = none from hKU haK).symm.trans ha]
    exact ha
  · rw [hset, hpart']
    refine hwaving.part (fun i => ?_) (fun {b a t} ht => ?_) fun {a w f} hf => ?_
    · rw [Finset.mem_filter, Finset.mem_filter, hnone, Set.mem_sdiff]
      exact ⟨fun h => ⟨⟨h.1, h.2.1⟩, h.2⟩, fun h => ⟨h.1.1, h.2⟩⟩
    · obtain ⟨_, -, -, hab⟩ := hwaving.elects (State.sent_of_done ht)
      have hiff : b ∈ U ↔ a ∈ U := ⟨fun hb => hneighbour hb (hwaving.known ht), fun ha => hneighbour ha hab⟩
      rw [Set.mem_sdiff, Set.mem_sdiff, hiff]
      exact and_congr_right fun _ => not_congr (hwaving.joined_iff_of_done hcomplete ht)
    · obtain ⟨hfa, hsent⟩ := hwaving.parent hf
      obtain ⟨_, -, -, haf⟩ := hwaving.elects hsent
      have hiff : f ∈ U ↔ a ∈ U := ⟨fun hf => hneighbour hf hfa, fun ha => hneighbour ha haf⟩
      rw [Set.mem_sdiff, Set.mem_sdiff, hiff]
      exact and_congr_right fun _ => not_congr (hwaving.joined_iff_of_past hcomplete hf)
  · rw [hset, hpart']
    intro a c hc hca hall
    by_cases ha : a ∈ U \ K
    · rw [State.site_part ha] at hc
      refine hothers a c (fun hax => ha.2 (hax ▸ hxK)) hc hca fun b hb => ?_
      have hb := hall b hb
      by_cases hbU : b ∈ U \ K
      · rwa [State.done_part hbU] at hb
      · rw [State.done_part_of_notMem hbU] at hb
        cases hb
    · rw [State.site_part_of_notMem ha] at hc
      cases hc
  · rcases hnew.mp ha with ⟨rfl, -⟩ | ⟨hmx, ha⟩
    · have hset : {a | verdict' a = some m} = K := Set.ext fun a => hnew.trans (by simp)
      have hsub : I₀ ⊆ I := Finset.filter_subset ..
      rw [hset]
      refine ((hwaving.leading hmem hcomplete (fun i hi => hnonempty i (hsub hi)) hsite hdone
        hqueue).mono hsub).congr ?_ ?_ ?_
      · exact fun a ha => (State.site_part (hKU ha)).symm
      · exact fun a ha _ => (State.done_part (hKU ha)).symm
      · exact fun a ha _ => (State.queue_part (hKU ha)).symm
    · have hset : {a | verdict' a = some m} = {a | verdict a = some m} :=
        Set.ext fun a => hnew.trans (by simp [hmx])
      have hym : y ∉ {a | verdict a = some m} := fun h => nomatch hy.symm.trans h
      have hxm : x ∉ {a | verdict a = some m} := fun h => nomatch hx.symm.trans h
      rw [hset]
      exact (h.leading ha).congr (fun _ ha => State.site_next_of_mem hxm ha)
        (fun _ ha _ => State.done_next_of_mem hym ha) fun _ ha _ => State.queue_next_of_mem hym hxm ha
  · rcases hnew.mp ha with ⟨rfl, -⟩ | ⟨hmx, ha⟩
    · refine ⟨(hmemI₀ hmem).1, fun i hi hverdict => ?_⟩
      rcases hnew.mp hverdict with ⟨-, hiK⟩ | ⟨hne, -⟩
      · exact hwaving.le_self (Finset.mem_filter.mpr ⟨hi, hKU hiK⟩) hiK
      · exact absurd rfl hne
    · obtain ⟨hm, hle⟩ := h.least ha
      refine ⟨hm, fun i hi hverdict => ?_⟩
      rcases hnew.mp hverdict with ⟨rfl, -⟩ | ⟨-, hverdict⟩
      · exact absurd rfl hmx
      · exact hle i hi hverdict

/-- A delivery. -/
theorem Parts.deliver (h : Parts nbr I verdict s) (hgraph : Graph nbr S)
    (hnonempty : ∀ i ∈ I, (nbr i).Nonempty) (hqueue : s.queue y x = t :: rest) (hy : y ∈ nbr x) :
    ∃ verdict', (∀ a m, verdict a = some m → verdict' a = some m) ∧ Parts nbr I verdict'
      (s.next y x ((s.site x).handle (nbr x) x y t).1 ((s.site x).handle (nbr x) x y t).2) := by
  cases hx : verdict x with
  | some m => exact ⟨verdict, fun _ _ h => h, h.announce hqueue hy hx⟩
  | none =>
    have hyU : verdict y = none := h.none_of_queue hqueue hx
    have hne : y ≠ x := by
      rintro rfl
      exact hgraph.irrefl y hy
    have hqueue' : (s.part {a | verdict a = none}).queue y x = t :: rest := by
      rw [State.queue_part (show y ∈ {a | verdict a = none} from hyU), hqueue]
    have hsite : (s.part {a | verdict a = none}).site x = s.site x :=
      State.site_part (show x ∈ {a | verdict a = none} from hx)
    obtain ⟨r, rfl⟩ := h.elect_of_none hqueue hx
    cases helect : (s.site x).elect (nbr x) x y r with
    | mk site out =>
      rw [← hsite] at helect
      rw [Site.handle, ← hsite, helect]
      rcases h.waving.step h.undecided hqueue' hy hne helect with ⟨hwaving, hundecided⟩ | hwon
      · exact ⟨verdict, fun _ _ h => h, h.proceed hyU hx hwaving hundecided⟩
      · exact h.separate hnonempty hyU hx hwon

/-! ### What follows -/

/-- **The parts are closed**: whoever can be reached from a part that somebody has won belongs to it. -/
theorem Parts.verdict_of_path (h : Parts nbr I verdict s)
    (hpath : Relation.ReflTransGen (fun a b => b ∈ nbr a) x y) (hx : verdict x = some m) :
    verdict y = some m := by
  induction hpath with
  | refl => exact hx
  | tail _ hedge ih => exact (h.neighbour ih hedge).1

/-- What is on its way is about an initiator, and goes to a neighbour. -/
theorem Parts.of_queue (h : Parts nbr I verdict s) (ht : t ∈ s.queue y x) : x ∈ nbr y ∧ t.initiator ∈ I := by
  cases hy : verdict y with
  | some m =>
    obtain rfl := (h.leading hy).queued (y := y) (x := x) hy ht
    exact ⟨(h.leading hy).edge hy (List.mem_append_right _ ht), (h.least hy).1⟩
  | none =>
    have hyU : y ∈ {a | verdict a = none} := hy
    have ht' : t ∈ (s.part {a | verdict a = none}).sent y x :=
      List.mem_append_right _ (by rwa [State.queue_part hyU])
    obtain ⟨w, rfl, hw, hx⟩ := h.waving.elects ht'
    exact ⟨hx, Finset.filter_subset _ _ hw.1⟩

/-- An announcement is delivered only to a site that waits for it. -/
theorem Parts.wave_isSome (h : Parts nbr I verdict s) (hqueue : s.queue y x = .leader r :: rest)
    (hy : y ∈ nbr x) : (s.site x).wave.isSome := by
  cases hx : verdict x with
  | some m =>
    have hym : verdict y = some m := (h.neighbour hx hy).1
    have hleading := h.leading hx
    obtain ⟨⟩ := hleading.queued (y := y) (x := x) hym (hqueue ▸ List.mem_cons_self)
    rcases hleading.heard hx with ⟨c, hwave, -⟩ | ⟨-, hall, -⟩
    · rw [hwave]
      rfl
    · exact absurd (hall y hy) (hleading.not_done hym hqueue)
  | none =>
    obtain ⟨_, ⟨⟩⟩ := h.elect_of_none hqueue hx

/-- What is delivered is the first message of its kind from that neighbour, so the site has counted fewer than
all of its neighbours. -/
theorem Parts.counting (h : Parts nbr I verdict s) (hqueue : s.queue y x = t :: rest) (hy : y ∈ nbr x) :
    (s.site x).Counting (nbr x) t := by
  intro w hw
  cases hx : verdict x with
  | some m =>
    have hym : verdict y = some m := (h.neighbour hx hy).1
    obtain rfl := (h.leading hx).queued (y := y) (x := x) hym (hqueue ▸ List.mem_cons_self)
    refine ⟨nofun, fun r _ => ?_⟩
    rcases (h.leading hx).heard hx with ⟨c, hwave, -, -, hlt, -⟩ | ⟨hwave, -, -⟩
    · obtain rfl := Option.some_inj.mp (hw.symm.trans hwave)
      exact hlt
    · cases hw.symm.trans hwave
  | none =>
    have hxU : x ∈ {a | verdict a = none} := hx
    have hyU : y ∈ {a | verdict a = none} := h.none_of_queue hqueue hx
    obtain ⟨r, rfl⟩ := h.elect_of_none hqueue hx
    refine ⟨fun hr => ?_, nofun⟩
    obtain rfl := Token.elect.inj hr
    rw [← State.queue_part hyU] at hqueue
    rw [← State.site_part hxU] at hw
    have herec := (h.waving.current hw).2.2.2
    rw [herec]
    exact Finset.card_lt_card (Finset.filter_ssubset.mpr ⟨y, hy, h.waving.not_done hqueue⟩)

/-- When no announcement is on its way any more, the sites for which somebody has won are done. -/
theorem Parts.finished (h : Parts nbr I verdict s) (hquiet : ∀ a b r, .leader r ∉ s.queue a b)
    (hx : verdict x = some m) : (s.site x).wave = none ∧ (s.site x).told = [m] := by
  refine (h.leading hx).finished (fun a ha b => ?_) hx
  refine List.eq_nil_iff_forall_not_mem.mpr fun t ht => ?_
  obtain rfl := (h.leading hx).queued (y := a) (x := b) ha ht
  exact hquiet a b m ht

/-- Where nobody has won, nobody has been told of a winner. -/
theorem Parts.told_of_none (h : Parts nbr I verdict s) (hx : verdict x = none) :
    (s.site x).told = [] := by
  have hx : x ∈ {a | verdict a = none} := hx
  rw [← State.site_part hx]
  exact h.waving.told x

/-- When nothing is on its way any more, no site is in a wave. -/
theorem Parts.wave_eq_none (h : Parts nbr I verdict s) (hgraph : Graph nbr S) (hI : I ⊆ S)
    (hquiet : ∀ a b, s.queue a b = []) (x : V) : (s.site x).wave = none := by
  cases hx : verdict x with
  | some m =>
    refine (h.finished (fun a b r ht => ?_) hx).1
    rw [hquiet] at ht
    cases ht
  | none =>
    have hxU : x ∈ {a | verdict a = none} := hx
    by_contra hne
    obtain ⟨c, hc⟩ := Option.ne_none_iff_exists'.mp hne
    rw [← State.site_part hxU] at hc
    set I₀ := I.filter fun i => verdict i = none
    -- The smallest initiator for whose sites nobody has won would have won by now.
    obtain ⟨m, hm, hmin⟩ := I₀.exists_min_image id ⟨_, (h.waving.current hc).1.1⟩
    have hquiet' : ∀ a b, (s.part {a | verdict a = none}).queue a b = [] := by
      intro a b
      by_cases ha : a ∈ {a | verdict a = none}
      · rw [State.queue_part ha, hquiet]
      · exact if_neg ha
    have hinside : ∀ {a}, (s.part {a | verdict a = none}).Joined I₀ a m → a ∈ S := by
      intro a ha
      have hpath := h.waving.path ha
      rcases Relation.ReflTransGen.cases_tail hpath with rfl | ⟨b, -, hb⟩
      · exact hI (Finset.filter_subset _ _ hm)
      · exact hgraph.inside b hb
    have hcomplete := h.waving.complete_of_quiet hinside hm hmin hquiet'
    obtain ⟨c, hc, hle⟩ := h.waving.lowest (x := m) ⟨hm, Or.inl rfl⟩
    have hcaw : c.caw = m := le_antisymm hle (hmin _ (h.waving.current hc).1.1)
    exact h.undecided m c hc hcaw hcomplete

/-- A site sends another one at most one token for each initiator, and one announcement. -/
theorem Parts.length_le (h : Parts nbr I verdict s) (y x : V) : (s.sent y x).length ≤ I.card + 1 := by
  cases hy : verdict y with
  | none =>
    have hyU : y ∈ {a | verdict a = none} := hy
    rw [← State.sent_part hyU]
    exact ((h.waving.length_le y x).trans (Finset.card_filter_le _ _)).trans (Nat.le_succ _)
  | some m =>
    have hfew := (h.leading hy).few hy x
    have honce := (h.leading hy).once hy x
    have hsum : (s.sent y x).length = _ := List.length_eq_countP_add_countP (· ≠ Token.leader m)
    have hcount : (s.sent y x).countP (fun t => decide ¬decide (t ≠ Token.leader m) = true) =
        (s.sent y x).count (.leader m) :=
      List.countP_congr fun t _ => by simp
    omega

/-! ### Runs -/

/-- At the start nobody has won. -/
theorem undecided_start (hnonempty : ∀ i ∈ I, (nbr i).Nonempty) : Undecided nbr (start nbr I) := by
  intro x c hc _ hcomplete
  by_cases hx : x ∈ I
  · obtain ⟨y, hy⟩ := hnonempty x hx
    exact absurd (hcomplete y hy) List.not_mem_nil
  · simp [start, hx] at hc

/-- **Every run of the algorithm** splits into parts: one that is still running and one for each site that
has won. -/
theorem Run.parts (hgraph : Graph nbr S) (hnonempty : ∀ i ∈ I, (nbr i).Nonempty) (h : Run nbr I s) :
    ∃ verdict, Parts nbr I verdict s := by
  induction h with
  | start => exact ⟨_, parts_none_iff.mpr ⟨waving_start, undecided_start hnonempty⟩⟩
  | step hs h ih =>
    obtain ⟨verdict, hparts⟩ := ih
    obtain ⟨y, x, t, rest, hqueue, hy⟩ := h
    obtain ⟨verdict', -, hparts'⟩ := hparts.deliver hgraph hnonempty hqueue hy
    exact ⟨verdict', hparts'⟩

section

variable (hgraph : Graph nbr S) (hI : I ⊆ S) (hnonempty : ∀ i ∈ I, (nbr i).Nonempty)
  (hpath : ∀ a ∈ S, ∀ b ∈ S, Relation.ReflTransGen (fun a b => b ∈ nbr a) a b)
  (hm : m ∈ I) (hmin : ∀ i ∈ I, m ≤ i)

include hI hpath hm hmin in
/-- Where every site reaches all others only the smallest initiator can win. -/
theorem Parts.eq_min (h : Parts nbr I verdict s) (hx : x ∈ S) (hr : verdict x = some r) : r = m := by
  obtain ⟨hrI, hle⟩ := h.least hr
  refine le_antisymm (hle m hm ?_) (hmin r hrI)
  exact h.verdict_of_path (hpath x hx m (hI hm)) hr

include hgraph hI hnonempty hpath hm hmin

/-- A site is told of the smallest initiator only, and of that once. -/
theorem Run.told (h : Run nbr I s) (hx : x ∈ S) :
    (s.site x).told = [] ∨ (s.site x).told = [m] := by
  obtain ⟨verdict, hparts⟩ := h.parts hgraph hnonempty
  cases hr : verdict x with
  | none => exact Or.inl (hparts.told_of_none hr)
  | some r =>
    obtain rfl := hparts.eq_min hI hpath hm hmin hx hr
    rcases (hparts.leading hr).heard hr with ⟨-, -, -, -, -, htold⟩ | ⟨-, -, htold⟩
    · exact Or.inl htold
    · exact Or.inr htold

/-- When nothing is on its way any more, every site has been told and is done. -/
theorem Run.finished (h : Run nbr I s) (hquiet : ∀ y x, s.queue y x = []) (hx : x ∈ S) :
    (s.site x).wave = none ∧ (s.site x).told = [m] := by
  obtain ⟨verdict, hparts⟩ := h.parts hgraph hnonempty
  cases hr : verdict m with
  | none =>
    -- The smallest initiator would still be in a wave.
    have hmU : m ∈ {a | verdict a = none} := hr
    have hmI : m ∈ I.filter fun i => verdict i = none := Finset.mem_filter.mpr ⟨hm, hr⟩
    obtain ⟨c, hc, -⟩ := hparts.waving.lowest (x := m) ⟨hmI, Or.inl rfl⟩
    rw [State.site_part hmU, hparts.wave_eq_none hgraph hI hquiet m] at hc
    cases hc
  | some r =>
    obtain rfl := hparts.eq_min hI hpath hm hmin (hI hm) hr
    refine hparts.finished (fun a b k ht => ?_) (hparts.verdict_of_path (hpath r (hI hm) x hx) hr)
    rw [hquiet] at ht
    cases ht

end

end Echo
