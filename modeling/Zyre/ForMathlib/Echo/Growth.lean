import Zyre.ForMathlib.Echo.Parts

/-!
# Sites that come to know each other

The graph grows while elections run on it: a site comes to know another one, and if it is keen it starts an
election. When a site that others know does so only while it is in no wave and no announcement is on its way
(`Mesh.Calm`), the elections do not disturb each other (`Mesh.Growing`), and once everything has been
delivered the site that started one last and all its neighbours have last been told of the same winner
(`Mesh.Run.settled`).
-/

namespace Echo

variable {V : Type} [LinearOrder V]

/-- A graph that grows, and the election on it. `keen` are the sites that start an election whenever they
come to know another one, `latest` is the one that did so last. -/
structure Mesh (V : Type) where
  nbr : V → Finset V
  state : State V
  keen : Finset V
  latest : Option V

namespace State

/-- The site supports its own wave and sends its token to all its neighbours. -/
def initiate (s : State V) (nbrs : Finset V) (x : V) : State V where
  site := Function.update s.site x { s.site x with wave := some ⟨x, none, 0, 0⟩ }
  done := s.done
  queue a b := s.queue a b ++ if a = x then toAll nbrs (.elect x) b else []

end State

namespace Mesh

/-- Nobody knows anybody. -/
def empty : Mesh V where
  nbr _ := ∅
  state := ⟨fun _ => ⟨none, [], fun _ => none⟩, fun _ _ => [], fun _ _ => []⟩
  keen := ∅
  latest := none

/-- `x` comes to know `y`. -/
def meet (M : Mesh V) (x y : V) : Mesh V :=
  let nbrs := insert y (M.nbr x)
  { M with
    nbr := Function.update M.nbr x nbrs
    state := if x ∈ M.keen then M.state.initiate nbrs x else M.state
    latest := if x ∈ M.keen then some x else M.latest }

/-- `x` is keen from now on. -/
def rouse (M : Mesh V) (x : V) : Mesh V := { M with keen := insert x M.keen }

/-- The site is in no wave, and no announcement is on its way. -/
def Calm (M : Mesh V) (x : V) : Prop := (M.state.site x).wave = none ∧ ∀ a b r, .leader r ∉ M.state.queue a b

/-- The site is not keen, and nobody knows it. -/
def Apart (M : Mesh V) (x : V) : Prop := x ∉ M.keen ∧ ∀ a, x ∉ M.nbr a

/-- One step: a message is delivered, a site comes to know another one, or it becomes keen. -/
inductive Step (S : Finset V) (M : Mesh V) : Mesh V → Prop
  | deliver (y x : V) (t : Token V) (rest : List (Token V)) (hqueue : M.state.queue y x = t :: rest)
      (hknown : y ∈ M.nbr x) : Step S M { M with
        state := M.state.next y x ((M.state.site x).handle (M.nbr x) x y t).1
          ((M.state.site x).handle (M.nbr x) x y t).2 }
  | meet (x y : V) (hx : x ∈ S) (hy : y ∈ S) (hne : y ≠ x) (hcalm : M.Calm x ∨ M.Apart x) :
      Step S M (M.meet x y)
  | rouse (x : V) : Step S M (M.rouse x)

/-- The meshes steps lead to. -/
inductive Run (S : Finset V) : Mesh V → Prop
  | empty : Run S empty
  | step {M M' : Mesh V} (hM : Run S M) (h : Step S M M') : Run S M'

end Mesh

variable {nbr : V → Finset V} {I S : Finset V} {s s' : State V} {x y : V} {t : Token V}
  {rest : List (Token V)} {verdict : V → Option V}

/-! ### A site that is in no wave -/

namespace Waving

variable (h : Waving nbr I s) (hidle : (s.site x).wave = none)

include h hidle

/-- A site that is in no wave has joined none. -/
theorem not_joined_of_idle (w : V) : ¬s.Joined I x w := by
  intro hw
  obtain ⟨c, hc, -⟩ := h.lowest hw
  rw [hidle] at hc
  cases hc

/-- It has sent nothing to anybody. -/
theorem sent_eq_nil_of_idle (z : V) : s.sent x z = [] := by
  refine List.eq_nil_iff_forall_not_mem.mpr fun t ht => ?_
  obtain ⟨w, -, hw, -⟩ := h.elects ht
  exact h.not_joined_of_idle hidle w hw

/-- It has handled nothing from anybody. -/
theorem done_eq_nil_of_idle (y : V) : s.done y x = [] := by
  refine List.eq_nil_iff_forall_not_mem.mpr fun t ht => ?_
  obtain ⟨w, rfl, -, -⟩ := h.elects (State.sent_of_done ht)
  obtain ⟨c, hc, -⟩ := h.heard ht
  rw [hidle] at hc
  cases hc

/-- It remembers no father of a former wave. -/
theorem past_eq_none_of_idle (w : V) : (s.site x).past w = none := by
  by_contra hne
  obtain ⟨f, hf⟩ := Option.ne_none_iff_exists'.mp hne
  obtain ⟨_, ⟨⟩, hw, -⟩ := h.elects (h.parent hf).2
  exact h.not_joined_of_idle hidle w ⟨hw.1, Or.inr hne⟩

/-- It may come to know others. -/
theorem grow {nbrs : Finset V} (hsub : nbr x ⊆ nbrs) :
    Waving (Function.update nbr x nbrs) I s := by
  have hnbr : ∀ {a}, a ≠ x → Function.update nbr x nbrs a = nbr a := fun ha => Function.update_of_ne ha ..
  have hmem : ∀ {a b}, b ∈ nbr a → b ∈ Function.update nbr x nbrs a := by
    intro a b hb
    by_cases ha : a = x
    · subst ha
      rw [Function.update_self]
      exact hsub hb
    · rwa [hnbr ha]
  have hwave : ∀ {a c}, (s.site a).wave = some c → a ≠ x := by
    rintro a c hc rfl
    rw [hidle] at hc
    cases hc
  have hjoined : ∀ {a w}, s.Joined I a w → a ≠ x := by
    rintro a w hw rfl
    exact h.not_joined_of_idle hidle w hw
  have hpast : ∀ {a w f}, (s.site a).past w = some f → a ≠ x := by
    rintro a w f hf rfl
    rw [h.past_eq_none_of_idle hidle] at hf
    cases hf
  refine { h with
    elects := fun {b a t} ht => ?_
    known := fun ht => hmem (h.known ht)
    current := fun {a c} hc => ?_
    parent := fun {a w f} hf => ⟨hmem (h.parent hf).1, (h.parent hf).2⟩
    forward := fun {a w z} hw hz hf => ?_
    echoed := fun {a w f} hf ht => ?_
    echo := fun {a c f} hc hf hca hall => ?_ }
  · obtain ⟨w, rfl, hw, ha⟩ := h.elects ht
    exact ⟨w, rfl, hw, hmem ha⟩
  · rw [hnbr (hwave hc)]
    exact h.current hc
  · rw [hnbr (hjoined hw)] at hz
    exact h.forward hw hz hf
  · have hcomplete := h.echoed hf ht
    rwa [State.Complete, hnbr (hpast hf)]
  · rw [State.Complete, hnbr (hwave hc)] at hall
    exact h.echo hc hf hca hall

/-- It may start an election. -/
theorem initiate : Waving nbr (insert x I) (s.initiate (nbr x) x) := by
  have hnot := h.not_joined_of_idle hidle
  have hxI : x ∉ I := fun hx => hnot x ⟨hx, Or.inl rfl⟩
  have hpastx : ∀ a, (s.site a).past x = none := by
    intro a
    by_contra hne
    obtain ⟨f, hf⟩ := Option.ne_none_iff_exists'.mp hne
    obtain ⟨_, ⟨⟩, hw, -⟩ := h.elects (h.parent hf).2
    exact hxI hw.1
  have hsite : ∀ {a}, a ≠ x → (s.initiate (nbr x) x).site a = s.site a := fun ha =>
    Function.update_of_ne ha ..
  have hself : (s.initiate (nbr x) x).site x = { s.site x with wave := some ⟨x, none, 0, 0⟩ } :=
    Function.update_self ..
  have hpast : ∀ {a}, ((s.initiate (nbr x) x).site a).past = (s.site a).past := by
    intro a
    by_cases ha : a = x
    · rw [ha, hself]
    · rw [hsite ha]
  have hjoined : ∀ {a w}, (s.initiate (nbr x) x).Joined (insert x I) a w ↔
      s.Joined I a w ∨ a = x ∧ w = x := by
    intro a w
    simp only [State.Joined, hpast, Finset.mem_insert]
    constructor
    · rintro ⟨rfl | hw, hor⟩
      · exact Or.inr ⟨hor.resolve_right fun hne => hne (hpastx a), rfl⟩
      · exact Or.inl ⟨hw, hor⟩
    · rintro (⟨hw, hor⟩ | ⟨rfl, rfl⟩)
      · exact ⟨Or.inr hw, hor⟩
      · exact ⟨Or.inl rfl, Or.inl rfl⟩
  have hsent : ∀ {a b}, (s.initiate (nbr x) x).sent a b =
      s.sent a b ++ if a = x then toAll (nbr x) (.elect x) b else [] := (List.append_assoc ..).symm
  have hmono : ∀ {a b t}, t ∈ s.sent a b → t ∈ (s.initiate (nbr x) x).sent a b := fun ht => by
    rw [hsent]
    exact List.mem_append_left _ ht
  have hmem : ∀ {a b t}, t ∈ (s.initiate (nbr x) x).sent a b ↔
      t ∈ s.sent a b ∨ a = x ∧ b ∈ nbr x ∧ t = .elect x := by
    intro a b t
    rw [hsent, List.mem_append]
    split_ifs with ha
    · rw [mem_toAll, and_iff_right ha]
    · simp [ha]
  have hwave : ∀ {a c}, ((s.initiate (nbr x) x).site a).wave = some c → a ≠ x →
      (s.site a).wave = some c := fun hc ha => hsite ha ▸ hc
  refine {
    elects := fun {b a t} ht => ?_
    known := h.known
    le_self := fun {a w} ha hw => ?_
    current := fun {a c} hc => ?_
    lowest := fun {a w} hw => ?_
    heard := fun {b a w} hw => ?_
    told := fun a => ?_
    decreasing := fun a b => ?_
    parent := fun {a w f} hf => ?_
    forward := fun {a w z} hw hz hf => ?_
    echoed := fun {a w f} hf ht => ?_
    echo := fun {a c f} hc hf hca hall => ?_
    own := fun {a} ha => ?_
    ranked := ?_ }
  · rcases hmem.mp ht with ht | ⟨rfl, ha, rfl⟩
    · obtain ⟨w, rfl, hw, ha⟩ := h.elects ht
      exact ⟨w, rfl, hjoined.mpr (Or.inl hw), ha⟩
    · exact ⟨b, rfl, hjoined.mpr (Or.inr ⟨rfl, rfl⟩), ha⟩
  · rcases hjoined.mp hw with hold | ⟨rfl, rfl⟩
    · rcases Finset.mem_insert.mp ha with rfl | ha
      · exact absurd hold (hnot w)
      · exact h.le_self ha hold
    · exact le_rfl
  · by_cases ha : a = x
    · subst ha
      rw [hself] at hc
      obtain rfl := Option.some_inj.mp hc
      refine ⟨hjoined.mpr (Or.inr ⟨rfl, rfl⟩), ?_, rfl, ?_⟩
      · rw [hpast]
        exact (hpastx a).symm
      · have hnone : ((nbr a).filter fun b => .elect a ∈ s.done b a) = ∅ := by
          refine Finset.filter_false_of_mem fun b _ => ?_
          rw [h.done_eq_nil_of_idle hidle]
          exact List.not_mem_nil
        exact (congrArg Finset.card hnone).symm
    · obtain ⟨hw, hrest⟩ := h.current (hwave hc ha)
      rw [hpast]
      exact ⟨hjoined.mpr (Or.inl hw), hrest⟩
  · rcases hjoined.mp hw with hw | ⟨rfl, rfl⟩
    · rw [hsite fun ha => hnot w (ha ▸ hw)]
      exact h.lowest hw
    · exact ⟨_, by rw [hself], le_rfl⟩
  · have ha : a ≠ x := by
      rintro rfl
      have hdone : .elect w ∈ s.done b a := hw
      rw [h.done_eq_nil_of_idle hidle] at hdone
      cases hdone
    rw [hsite ha]
    exact h.heard hw
  · by_cases ha : a = x
    · rw [ha, hself]
      exact h.told x
    · rw [hsite ha]
      exact h.told a
  · rw [hsent]
    split_ifs with ha
    · rw [ha, h.sent_eq_nil_of_idle hidle, List.nil_append, toAll]
      split_ifs
      · exact List.pairwise_singleton ..
      · exact .nil
    · rw [List.append_nil]
      exact h.decreasing a b
  · rw [hpast] at hf
    exact ⟨(h.parent hf).1, hmono (h.parent hf).2⟩
  · rw [hpast] at hf
    rcases hjoined.mp hw with hw | ⟨rfl, rfl⟩
    · exact hmono (h.forward hw hz hf)
    · exact hmem.mpr (Or.inr ⟨rfl, hz, rfl⟩)
  · rw [hpast] at hf
    rcases hmem.mp ht with ht | ⟨-, -, ⟨⟩⟩
    · exact h.echoed hf ht
    · rw [hpastx] at hf
      cases hf
  · rw [hpast] at hf
    have ha : a ≠ x := by
      rintro rfl
      rw [h.past_eq_none_of_idle hidle] at hf
      cases hf
    exact hmono (h.echo (hwave hc ha) hf hca hall)
  · rw [hpast]
    rcases Finset.mem_insert.mp ha with rfl | ha
    · exact hpastx a
    · exact h.own ha
  · obtain ⟨rank, hrank⟩ := h.ranked
    refine ⟨rank, fun a w f hf => hrank a w f ?_⟩
    rwa [hpast] at hf

end Waving

variable {K : Set V} {m : V} {nbrs : Finset V}

/-- A site elsewhere comes to know others. -/
theorem Leading.grow (h : Leading nbr I K m s) (hx : x ∉ K) : Leading (Function.update nbr x nbrs) I K m s := by
  have hnbr : ∀ {a}, a ∈ K → Function.update nbr x nbrs a = nbr a := fun {a} ha =>
    Function.update_of_ne (fun hax : a = x => hx (hax ▸ ha)) ..
  refine {
    mem := h.mem
    closed := fun {a b} ha hb => ?_
    path := fun {a} ha => ?_
    edge := fun {b a t} hb ht => (hnbr hb).symm ▸ h.edge hb ht
    queued := h.queued
    once := h.once
    few := h.few
    heard := fun {a} ha => ?_
    sends := fun {a z} ha hz => ?_ }
  · rw [hnbr ha] at hb
    obtain ⟨hbK, hab⟩ := h.closed ha hb
    exact ⟨hbK, (hnbr hbK).symm ▸ hab⟩
  · -- The path leads through these sites only.
    have hpath : ∀ {b}, Relation.ReflTransGen (fun a b => b ∈ nbr a) m b →
        Relation.ReflTransGen (fun a b => b ∈ Function.update nbr x nbrs a) m b ∧ b ∈ K := by
      intro b hb
      induction hb with
      | refl => exact ⟨.refl, h.mem⟩
      | tail _ hedge ih => exact ⟨ih.1.tail ((hnbr ih.2).symm ▸ hedge), (h.closed ih.2 hedge).1⟩
    exact (hpath (h.path ha)).1
  · rcases h.heard ha with ⟨c, hwave, hcaw, hlrec, hlt, htold⟩ | ⟨hwave, hall, htold⟩
    · exact .waits c hwave hcaw ((hnbr ha).symm ▸ hlrec) ((hnbr ha).symm ▸ hlt) htold
    · exact .finished hwave ((hnbr ha).symm ▸ hall) htold
  · rw [hnbr ha] at hz ⊢
    exact h.sends ha hz

/-- A site for which nobody has won comes to know others while it is in no wave. -/
theorem Parts.grow (h : Parts nbr I verdict s) (hverdict : verdict x = none)
    (hidle : (s.site x).wave = none) (hsub : nbr x ⊆ nbrs) : Parts (Function.update nbr x nbrs) I verdict s where
  waving := by
    have hxU : x ∈ {a | verdict a = none} := hverdict
    exact h.waving.grow (by rw [State.site_part hxU, hidle]) hsub
  undecided a c hc hca hall := by
    refine h.undecided a c hc hca fun b hb => hall b ?_
    by_cases hax : a = x
    · subst hax
      rw [Function.update_self]
      exact hsub hb
    · rwa [Function.update_of_ne hax]
  leading {a k} ha := (h.leading ha).grow fun hx => by
    cases hverdict.symm.trans hx
  least := h.least

/-- A site that nobody knows and that has started no election takes no part in any. -/
theorem Parts.aside (h : Parts nbr I verdict s) (hxI : x ∉ I) (hunknown : ∀ a, x ∉ nbr a) :
    verdict x = none ∧ (s.site x).wave = none := by
  have hverdict : verdict x = none := by
    by_contra hne
    obtain ⟨m, hm⟩ := Option.ne_none_iff_exists'.mp hne
    rcases Relation.ReflTransGen.cases_tail ((h.leading hm).path hm) with heq | ⟨b, -, hb⟩
    · exact hxI (heq ▸ (h.least hm).1)
    · exact hunknown b hb
  refine ⟨hverdict, ?_⟩
  by_contra hne
  obtain ⟨c, hc⟩ := Option.ne_none_iff_exists'.mp hne
  have hxU : x ∈ {a | verdict a = none} := hverdict
  rw [← State.site_part hxU] at hc
  obtain ⟨hcI, heq | hpast⟩ := (h.waving.current hc).1
  · exact hxI (heq ▸ Finset.filter_subset _ _ hcI)
  · obtain ⟨f, hf⟩ := Option.ne_none_iff_exists'.mp hpast
    obtain ⟨_, -, -, hedge⟩ := h.waving.elects (h.waving.parent hf).2
    exact hunknown f hedge

/-! ### What a site was told before -/

/-- The same site, with the winners it was told of before. -/
structure Site.After (before : List V) (site site' : Site V) : Prop where
  wave : site'.wave = site.wave
  told : site'.told = before ++ site.told

/-- They do not matter to what it does. -/
theorem Site.After.handle {before : List V} {site site' : Site V} (h : Site.After before site site')
    (nbrs : Finset V) (x y : V) (t : Token V) :
    Site.After before (site.handle nbrs x y t).1 (site'.handle nbrs x y t).1 ∧
      (site'.handle nbrs x y t).2 = (site.handle nbrs x y t).2 := by
  obtain ⟨hwave, htold⟩ := h
  cases t with
  | elect r =>
    simp only [Site.handle, Site.elect, hwave]
    cases site.wave with
    | none => exact ⟨⟨rfl, htold⟩, rfl⟩
    | some w =>
      simp only
      split_ifs
      · exact ⟨⟨rfl, htold⟩, rfl⟩
      · exact ⟨⟨rfl, htold⟩, rfl⟩
      · exact ⟨⟨hwave, htold⟩, rfl⟩
  | leader r =>
    simp only [Site.handle, Site.leader, hwave]
    cases site.wave with
    | none => exact ⟨⟨hwave, htold⟩, rfl⟩
    | some w =>
      refine ⟨?_, rfl⟩
      simp only
      split_ifs
      · exact ⟨rfl, by rw [htold, List.append_assoc]⟩
      · exact ⟨rfl, htold⟩

/-- After an ELECT the site is in a wave, its own or the one that came. -/
theorem Site.wave_elect {nbrs : Finset V} {x y r : V} {site : Site V} :
    (site.elect nbrs x y r).1.wave.isSome := by
  unfold Site.elect
  cases hwave : site.wave with
  | none => rfl
  | some w =>
    simp only
    split_ifs
    · rfl
    · rfl
    · rw [hwave]
      rfl

/-! ### The history of the elections that are running -/

namespace Mesh

/-- The site that started an election last is in one that nobody has won, or in one that somebody has won,
or all its neighbours have been told of the same winner since. -/
inductive Traced (nbr : V → Finset V) (s : State V) (before : V → List V) (verdict : V → Option V)
    (A : V) : Prop
  | running (hverdict : verdict A = none) (hwave : (s.site A).wave.isSome)
  | won (m : V) (hverdict : verdict A = some m)
  | over (hverdict : verdict A = none) (m : V) (hback : ∀ v ∈ nbr A, A ∈ nbr v)
      (htold : ∀ v ∈ insert A (nbr A), (before v).getLast? = some m)

/-- `s` is a history of the elections that are running, `before` are the winners of those that are over. -/
structure History (S : Finset V) (M : Mesh V) (s : State V) (before : V → List V) (I : Finset V)
    (verdict : V → Option V) : Prop where
  graph : Graph M.nbr S
  inside : I ⊆ S
  nonempty : ∀ i ∈ I, (M.nbr i).Nonempty
  parts : Parts M.nbr I verdict s
  queue : s.queue = M.state.queue
  after : ∀ x, Site.After (before x) (s.site x) (M.state.site x)
  initiators : I ⊆ M.keen
  keen : ∀ A, M.latest = some A → A ∈ M.keen
  fresh : M.latest = none → I = ∅ ∧ ∀ x, before x = []
  traced : ∀ A, M.latest = some A → Traced M.nbr s before verdict A

/-- The elections that are running have a history. -/
def Growing (S : Finset V) (M : Mesh V) : Prop := ∃ s before I verdict, History S M s before I verdict

variable {M M' : Mesh V} {before : V → List V}

/-- The empty graph has the empty history. -/
theorem growing_empty : Growing S (empty : Mesh V) := by
  refine ⟨start (fun _ => ∅) ∅, fun _ => [], ∅, fun _ => none, ?_⟩
  refine {
    graph := ⟨fun _ => Finset.notMem_empty _, fun _ => Finset.empty_subset S⟩
    inside := Finset.empty_subset S
    nonempty := fun i hi => absurd hi (Finset.notMem_empty i)
    parts := parts_none_iff.mpr ⟨waving_start, undecided_start fun i hi => absurd hi (Finset.notMem_empty i)⟩
    queue := rfl
    after := fun x => ⟨rfl, rfl⟩
    initiators := Finset.empty_subset _
    keen := nofun
    fresh := fun _ => ⟨rfl, fun _ => rfl⟩
    traced := nofun }

/-- **One delivery** goes on with the history: the message at the head of a queue is handled in the record
as it is in the mesh, and the answers are put behind what is under way. -/
theorem History.deliver (h : History S M s before I verdict) (hqueue : M.state.queue y x = t :: rest)
    (hy : y ∈ M.nbr x) : Growing S { M with
      state := M.state.next y x ((M.state.site x).handle (M.nbr x) x y t).1
        ((M.state.site x).handle (M.nbr x) x y t).2 } := by
  have hqueue' : s.queue y x = t :: rest := by rw [h.queue, hqueue]
  obtain ⟨hafter, hout⟩ := (h.after x).handle (M.nbr x) x y t
  obtain ⟨verdict', hextends, hparts⟩ := h.parts.deliver h.graph h.nonempty hqueue' hy
  refine ⟨_, before, I, verdict', {
    graph := h.graph
    inside := h.inside
    nonempty := h.nonempty
    parts := hparts
    queue := ?_
    after := fun a => ?_
    initiators := h.initiators
    keen := h.keen
    fresh := h.fresh
    traced := fun A hA => ?_ }⟩
  · funext a b
    simp only [State.next, h.queue, hout]
  · by_cases ha : a = x
    · subst ha
      simp only [State.site_next_self]
      exact hafter
    · simp only [State.site_next_ne ha]
      exact h.after a
  · cases hverdict' : verdict' A with
    | some m => exact .won m hverdict'
    | none =>
      have hverdict : verdict A = none := by
        by_contra hne
        obtain ⟨m, hm⟩ := Option.ne_none_iff_exists'.mp hne
        cases hverdict'.symm.trans (hextends A m hm)
      by_cases hAx : A = x
      · subst hAx
        obtain ⟨r, rfl⟩ := h.parts.elect_of_none hqueue' hverdict
        refine .running hverdict' ?_
        rw [State.site_next_self]
        exact Site.wave_elect
      · rcases h.traced A hA with ⟨-, hwave⟩ | ⟨m, hm⟩ | ⟨-, m, hback, htold⟩
        · refine .running hverdict' ?_
          rwa [State.site_next_ne hAx]
        · cases hverdict.symm.trans hm
        · exact .over hverdict' m hback htold

/-- When no announcement is on its way the elections that somebody has won are over. -/
theorem History.forget (h : History S M s before I verdict)
    (hquiet : ∀ a b r, .leader r ∉ M.state.queue a b) :
    History S M (s.part {a | verdict a = none}) (fun a => (M.state.site a).told)
      (I.filter fun i => verdict i = none) fun _ => none := by
  have hquiet' : ∀ a b r, .leader r ∉ s.queue a b := by rwa [h.queue]
  have hnotU : ∀ {a}, a ∉ {a | verdict a = none} → ∃ m, verdict a = some m := fun ha =>
    Option.ne_none_iff_exists'.mp ha
  refine {
    graph := h.graph
    inside := (Finset.filter_subset _ _).trans h.inside
    nonempty := fun i hi => h.nonempty i (Finset.filter_subset _ _ hi)
    parts := parts_none_iff.mpr ⟨h.parts.waving, h.parts.undecided⟩
    queue := ?_
    after := fun a => ?_
    initiators := (Finset.filter_subset _ _).trans h.initiators
    keen := h.keen
    fresh := fun hlatest => ?_
    traced := fun A hA => ?_ }
  · rw [← h.queue]
    funext a b
    by_cases ha : a ∈ {a | verdict a = none}
    · exact State.queue_part ha
    · obtain ⟨m, hm⟩ := hnotU ha
      refine (if_neg ha).trans (List.eq_nil_iff_forall_not_mem.mpr fun t ht => ?_).symm
      obtain rfl := (h.parts.leading hm).queued (y := a) (x := b) hm ht
      exact hquiet' a b m ht
  · obtain ⟨hwave, htold⟩ := h.after a
    by_cases ha : a ∈ {a | verdict a = none}
    · rw [State.site_part ha]
      exact ⟨hwave, by rw [h.parts.told_of_none ha, List.append_nil]⟩
    · obtain ⟨m, hm⟩ := hnotU ha
      rw [State.site_part_of_notMem ha]
      exact ⟨hwave.trans (h.parts.finished hquiet' hm).1, (List.append_nil _).symm⟩
  · obtain ⟨hI, hbefore⟩ := h.fresh hlatest
    refine ⟨by rw [hI, Finset.filter_empty], fun a => ?_⟩
    have hverdict : verdict a = none := by
      by_contra hne
      obtain ⟨m, hm⟩ := Option.ne_none_iff_exists'.mp hne
      have hmI := (h.parts.least hm).1
      rw [hI] at hmI
      exact Finset.notMem_empty m hmI
    rw [(h.after a).told, hbefore, h.parts.told_of_none hverdict, List.append_nil]
  · have htotal : ∀ {v}, verdict v = none → (M.state.site v).told = before v := by
      intro v hv
      rw [(h.after v).told, h.parts.told_of_none hv, List.append_nil]
    rcases h.traced A hA with ⟨hverdict, hwave⟩ | ⟨m, hm⟩ | ⟨hverdict, m, hback, htold⟩
    · have hAU : A ∈ {a | verdict a = none} := hverdict
      refine .running rfl ?_
      rwa [State.site_part hAU]
    · refine .over rfl m (fun v hv => (h.parts.neighbour hm hv).2) fun v hv => ?_
      have hv : verdict v = some m := by
        rcases Finset.mem_insert.mp hv with rfl | hv
        · exact hm
        · exact (h.parts.neighbour hm hv).1
      rw [(h.after v).told, (h.parts.finished hquiet' hv).2, List.getLast?_concat]
    · refine .over rfl m hback fun v hv => ?_
      -- A neighbour that were in a part of its own would have this site in it.
      have hv' : verdict v = none := by
        by_contra hne
        obtain ⟨k, hk⟩ := Option.ne_none_iff_exists'.mp hne
        rcases Finset.mem_insert.mp hv with rfl | hv
        · exact hne hverdict
        · cases hverdict.symm.trans (h.parts.neighbour hk (hback v hv)).1
      rw [htotal hv']
      exact htold v hv

/-- The keen sites after one more has become keen. -/
theorem mem_keen_rouse {a : V} : a ∈ (M.rouse x).keen ↔ a = x ∨ a ∈ M.keen := Finset.mem_insert

/-- A site that comes to know another one leaves the other sites as they are. -/
theorem site_meet_ne {a : V} (ha : a ≠ x) : (M.meet x y).state.site a = M.state.site a := by
  by_cases hkeen : x ∈ M.keen
  · simp only [meet, if_pos hkeen, State.initiate]
    exact Function.update_of_ne ha ..
  · simp only [meet, if_neg hkeen]

/-- A site that comes to know another one starts its own wave if it is keen. -/
theorem site_meet_self : (M.meet x y).state.site x =
    if x ∈ M.keen then { M.state.site x with wave := some ⟨x, none, 0, 0⟩ } else M.state.site x := by
  by_cases hkeen : x ∈ M.keen
  · simp only [meet, if_pos hkeen, State.initiate]
    exact Function.update_self ..
  · simp only [meet, if_neg hkeen]

/-- A keen site tells all its neighbours of its wave, the new one among them. -/
theorem queue_meet {a b : V} : (M.meet x y).state.queue a b = M.state.queue a b ++
    if a = x then if x ∈ M.keen then toAll ((M.meet x y).nbr x) (.elect x) b else [] else [] := by
  by_cases hkeen : x ∈ M.keen
  · simp only [meet, if_pos hkeen, State.initiate, Function.update_self]
  · simp only [meet, if_neg hkeen, ite_self, List.append_nil]

/-- Somebody has started an election if somebody had before, or the site is keen. -/
theorem isSome_latest_meet : (M.meet x y).latest.isSome = (M.latest.isSome || decide (x ∈ M.keen)) := by
  by_cases hkeen : x ∈ M.keen
  · simp [meet, hkeen]
  · simp [meet, hkeen]

/-- The new neighbour is one more. -/
theorem nbr_meet_self : (M.meet x y).nbr x = insert y (M.nbr x) := Function.update_self ..

theorem mem_nbr_meet_self {a : V} : a ∈ (M.meet x y).nbr x ↔ a = y ∨ a ∈ M.nbr x := by
  rw [nbr_meet_self, Finset.mem_insert]

/-- The neighbours of the others stay. -/
theorem nbr_meet_ne {a : V} (ha : a ≠ x) : (M.meet x y).nbr a = M.nbr a := Function.update_of_ne ha ..

/-- No neighbour is lost by a meeting. -/
theorem nbr_subset_meet (a : V) : M.nbr a ⊆ (M.meet x y).nbr a := by
  by_cases ha : a = x
  · rw [ha, nbr_meet_self]
    exact Finset.subset_insert y _
  · rw [nbr_meet_ne ha]

/-- The graph stays one on the sites if the new neighbour is another one of them. -/
theorem graph_meet (h : Graph M.nbr S) (hy : y ∈ S) (hne : y ≠ x) : Graph (M.meet x y).nbr S := by
  refine ⟨fun a => ?_, fun a => ?_⟩
  · by_cases ha : a = x
    · rw [ha, nbr_meet_self, Finset.mem_insert]
      rintro (heq | hmem)
      · exact hne heq.symm
      · exact h.irrefl x hmem
    · rw [nbr_meet_ne ha]
      exact h.irrefl a
  · by_cases ha : a = x
    · rw [ha, nbr_meet_self]
      exact Finset.insert_subset hy (h.inside x)
    · rw [nbr_meet_ne ha]
      exact h.inside a

/-- A site that is not keen comes to know another one. -/
theorem History.meet_aside (h : History S M s before I verdict) (hy : y ∈ S) (hne : y ≠ x)
    (hkeen : x ∉ M.keen) (hverdict : verdict x = none) (hidle : (s.site x).wave = none) :
    Growing S (M.meet x y) := by
  have hstate : (M.meet x y).state = M.state := if_neg hkeen
  have hlatest : (M.meet x y).latest = M.latest := if_neg hkeen
  refine ⟨s, before, I, verdict, {
    graph := graph_meet h.graph hy hne
    inside := h.inside
    nonempty := fun i hi => (h.nonempty i hi).mono (nbr_subset_meet i)
    parts := h.parts.grow hverdict hidle (Finset.subset_insert y _)
    queue := by rw [hstate]; exact h.queue
    after := by rw [hstate]; exact h.after
    initiators := h.initiators
    keen := by rw [hlatest]; exact h.keen
    fresh := by rw [hlatest]; exact h.fresh
    traced := fun A hA => ?_ }⟩
  rw [hlatest] at hA
  have hAx : A ≠ x := fun hAx => hkeen (hAx ▸ h.keen A hA)
  rcases h.traced A hA with ⟨hverdict, hwave⟩ | ⟨m, hm⟩ | ⟨hverdict, m, hback, htold⟩
  · exact .running hverdict hwave
  · exact .won m hm
  · refine .over hverdict m (fun v hv => ?_) fun v hv => ?_
    · rw [nbr_meet_ne hAx] at hv
      exact nbr_subset_meet v (hback v hv)
    · rw [nbr_meet_ne hAx] at hv
      exact htold v hv

/-- A keen site comes to know another one and starts an election. -/
theorem History.meet_keen (h : History S M s before I fun _ => none) (hx : x ∈ S) (hy : y ∈ S) (hne : y ≠ x)
    (hkeen : x ∈ M.keen) (hidle : (s.site x).wave = none) : Growing S (M.meet x y) := by
  obtain ⟨hwaving, hundecided⟩ := parts_none_iff.mp (h.parts.grow rfl hidle (Finset.subset_insert y (M.nbr x)))
  have hinitiated := hwaving.initiate hidle
  rw [Function.update_self] at hinitiated
  have hstate : (M.meet x y).state = M.state.initiate (insert y (M.nbr x)) x := if_pos hkeen
  have hlatest : (M.meet x y).latest = some x := if_pos hkeen
  have hsite : ∀ {a}, a ≠ x → (s.initiate (insert y (M.nbr x)) x).site a = s.site a := fun ha =>
    Function.update_of_ne ha ..
  have hself : (s.initiate (insert y (M.nbr x)) x).site x =
      { s.site x with wave := some ⟨x, none, 0, 0⟩ } := Function.update_self ..
  have hundecided' : Undecided (M.meet x y).nbr (s.initiate (insert y (M.nbr x)) x) := by
    intro a c hc hca hall
    by_cases ha : a = x
    · subst ha
      have hdone : .elect a ∈ s.done y a := hall y (by rw [nbr_meet_self]; exact Finset.mem_insert_self ..)
      rw [hwaving.done_eq_nil_of_idle hidle] at hdone
      cases hdone
    · rw [hsite ha] at hc
      exact hundecided a c hc hca hall
  refine ⟨_, before, insert x I, fun _ => none, {
    graph := graph_meet h.graph hy hne
    inside := Finset.insert_subset hx h.inside
    nonempty := fun i hi => ?_
    parts := parts_none_iff.mpr ⟨hinitiated, hundecided'⟩
    queue := ?_
    after := fun a => ?_
    initiators := Finset.insert_subset hkeen h.initiators
    keen := fun A hA => ?_
    fresh := fun hnone => ?_
    traced := fun A hA => ?_ }⟩
  · rcases Finset.mem_insert.mp hi with rfl | hi
    · rw [nbr_meet_self]
      exact Finset.insert_nonempty ..
    · exact (h.nonempty i hi).mono (nbr_subset_meet i)
  · rw [hstate]
    funext a b
    simp only [State.initiate, h.queue]
  · rw [hstate]
    by_cases ha : a = x
    · subst ha
      rw [hself]
      simp only [State.initiate, Function.update_self]
      exact ⟨rfl, (h.after a).told⟩
    · rw [hsite ha]
      simp only [State.initiate, Function.update_of_ne ha]
      exact h.after a
  · rw [hlatest] at hA
    obtain rfl := Option.some_inj.mp hA
    exact hkeen
  · rw [hlatest] at hnone
    cases hnone
  · rw [hlatest] at hA
    obtain rfl := Option.some_inj.mp hA
    refine .running rfl ?_
    rw [hself]
    rfl

/-- **One more neighbour** keeps the history, provided the site is calm or stands apart: what is asked of
the moment at which a neighbour is added. -/
theorem History.meet (h : History S M s before I verdict) (hx : x ∈ S) (hy : y ∈ S) (hne : y ≠ x)
    (hcalm : M.Calm x ∨ M.Apart x) : Growing S (M.meet x y) := by
  rcases hcalm with ⟨hidle, hquiet⟩ | ⟨hkeen, hunknown⟩
  · have hforgotten := h.forget hquiet
    have hidle' := (hforgotten.after x).wave.symm.trans hidle
    by_cases hkeen : x ∈ M.keen
    · exact hforgotten.meet_keen hx hy hne hkeen hidle'
    · exact hforgotten.meet_aside hy hne hkeen rfl hidle'
  · obtain ⟨hverdict, hidle⟩ := h.parts.aside (fun hxI => hkeen (h.initiators hxI)) hunknown
    exact h.meet_aside hy hne hkeen hverdict hidle

/-- One step goes on with the history, whichever it is. -/
theorem Step.growing (hM : Growing S M) (h : Step S M M') : Growing S M' := by
  obtain ⟨s, before, I, verdict, hhistory⟩ := hM
  cases h with
  | deliver y x t rest hqueue hknown => exact hhistory.deliver hqueue hknown
  | meet x y hx hy hne hcalm => exact hhistory.meet hx hy hne hcalm
  | rouse x =>
    exact ⟨s, before, I, verdict, { hhistory with
      initiators := hhistory.initiators.trans (Finset.subset_insert _ _)
      keen := fun A hA => Finset.mem_insert_of_mem (hhistory.keen A hA) }⟩

/-- **Every run has a history**: at each of its meshes the elections that are running are waves of the echo
algorithm, so that what is known of these can be used. -/
theorem Run.growing (h : Run S M) : Growing S M := by
  induction h with
  | empty => exact growing_empty
  | step _ h ih => exact h.growing ih

/-! ### What runs lead to -/

/-- An announcement is delivered only to a site that waits for it. -/
theorem Run.wave_isSome (h : Run S M) {r : V} (hqueue : M.state.queue y x = .leader r :: rest)
    (hy : y ∈ M.nbr x) : (M.state.site x).wave.isSome := by
  obtain ⟨s, before, I, verdict, hhistory⟩ := h.growing
  rw [(hhistory.after x).wave]
  rw [← hhistory.queue] at hqueue
  exact hhistory.parts.wave_isSome hqueue hy

/-- A site has counted fewer than all of its neighbours when it takes a message that it counts. -/
theorem Run.counting (h : Run S M) (hqueue : M.state.queue y x = t :: rest) (hy : y ∈ M.nbr x) :
    (M.state.site x).Counting (M.nbr x) t := by
  obtain ⟨s, before, I, verdict, hhistory⟩ := h.growing
  rw [← hhistory.queue] at hqueue
  intro w hw
  rw [(hhistory.after x).wave] at hw
  exact hhistory.parts.counting hqueue hy w hw

/-- What is on its way is about one of the sites, and goes to a neighbour. -/
theorem Run.of_queue (h : Run S M) (ht : t ∈ M.state.queue y x) : x ∈ M.nbr y ∧ t.initiator ∈ S := by
  obtain ⟨s, before, I, verdict, hhistory⟩ := h.growing
  rw [← hhistory.queue] at ht
  obtain ⟨hx, hinitiator⟩ := hhistory.parts.of_queue ht
  exact ⟨hx, hhistory.inside hinitiator⟩

/-- The neighbourhoods of a run form a graph on the sites. -/
theorem Run.graph (h : Run S M) : Graph M.nbr S := by
  obtain ⟨s, before, I, verdict, hhistory⟩ := h.growing
  exact hhistory.graph

/-- The latest election was started by a keen site. -/
theorem Run.latest_mem (h : Run S M) {A : V} (hA : M.latest = some A) : A ∈ M.keen := by
  obtain ⟨s, before, I, verdict, hhistory⟩ := h.growing
  exact hhistory.keen A hA

/-- As long as no election has been started nobody is told of a winner. -/
theorem Run.told_eq_nil (h : Run S M) (hlatest : M.latest = none) (x : V) :
    (M.state.site x).told = [] := by
  obtain ⟨s, before, I, verdict, hhistory⟩ := h.growing
  obtain ⟨rfl, hbefore⟩ := hhistory.fresh hlatest
  have hverdict : verdict x = none := by
    by_contra hne
    obtain ⟨m, hm⟩ := Option.ne_none_iff_exists'.mp hne
    exact Finset.notMem_empty m (hhistory.parts.least hm).1
  rw [(hhistory.after x).told, hbefore, hhistory.parts.told_of_none hverdict, List.append_nil]

/-- When everything has been delivered, the site that started an election last and all its neighbours have
last been told of the same winner. -/
theorem Run.settled (h : Run S M) (hquiet : ∀ a b, M.state.queue a b = []) {A : V}
    (hA : M.latest = some A) :
    ∃ m, ∀ v, v = A ∨ v ∈ M.nbr A → (M.state.site v).told.getLast? = some m := by
  obtain ⟨s, before, I, verdict, hhistory⟩ := h.growing
  have hforgotten := hhistory.forget fun a b r ht => by
    rw [hquiet] at ht
    cases ht
  rcases hforgotten.traced A hA with ⟨-, hwave⟩ | ⟨m, ⟨⟩⟩ | ⟨-, m, -, htold⟩
  · have hquiet' : ∀ a b, (s.part {a | verdict a = none}).queue a b = [] := by
      intro a b
      rw [hforgotten.queue, hquiet]
    rw [hforgotten.parts.wave_eq_none hforgotten.graph hforgotten.inside hquiet'] at hwave
    cases hwave
  · exact ⟨m, fun v hv => htold v (Finset.mem_insert.mpr hv)⟩

end Mesh

end Echo
