import Mathlib.Data.Finset.Card
import Mathlib.Data.Finset.Option
import Mathlib.Logic.Function.Basic
import Mathlib.Logic.Relation
import Mathlib.Order.Basic

/-!
# The echo algorithm with extinction

The sites of a graph elect a leader. Some of them, the initiators, send their own token to every
neighbour. A site that hears of a smaller initiator than the one it supports takes that wave over: it
passes the token on to its other neighbours, waits until all of them have sent it too, and then echoes it
to the one it had it from. The initiator to whom all neighbours have echoed has won; it says so to its
neighbours, and every site that hears so says so once to its own and is done when all have.

The messages between two sites are delivered in their order. Edges need not go both ways, but a message
is only delivered to a site that has the sender for a neighbour.
-/

namespace Echo

/-- A message: the token of an initiator, or the announcement that it has won. -/
inductive Token (V : Type)
  | elect (wave : V)
  | leader (wave : V)
deriving DecidableEq

/-- The initiator a message is about. -/
def Token.initiator {V : Type} : Token V → V
  | .elect wave => wave
  | .leader wave => wave

/-- The wave a site supports: its initiator, the neighbour it came from, and how many neighbours have
sent its token and announced its victory. -/
structure Wave (V : Type) where
  caw : V
  father : Option V
  erec : ℕ
  lrec : ℕ

/-- A site: the wave it supports and the winners it has been told of. `past` records for every wave
the site has ever taken over which neighbour it came from. -/
structure Site (V : Type) where
  wave : Option (Wave V)
  told : List V
  past : V → Option V

/-- The sites, and the messages from one to the other: those delivered and those on their way. -/
structure State (V : Type) where
  site : V → Site V
  done : V → V → List (Token V)
  queue : V → V → List (Token V)

variable {V : Type} [LinearOrder V]

/-! ### What a site does -/

/-- Messages of a site: to whom, and which. -/
abbrev Mail (V : Type) := V → List (Token V)

/-- The same message to all of them. -/
def toAll (receivers : Finset V) (t : Token V) : Mail V := fun z => if z ∈ receivers then [t] else []

namespace Site

/-- One more neighbour has sent the token of the wave. If it was the last one the site echoes the token,
or has won. -/
def support (nbrs : Finset V) (x : V) (w : Wave V) (site : Site V) : Site V × Mail V :=
  let w' := { w with erec := w.erec + 1 }
  ({ site with wave := some w' },
    if w'.erec = nbrs.card then
      if w.caw = x then toAll nbrs (.leader x) else toAll w.father.toFinset (.elect w.caw)
    else fun _ => [])

/-- The wave of `r` is taken over from `y`. -/
def adopt (y r : V) (site : Site V) : Site V :=
  { site with wave := some ⟨r, some y, 0, 0⟩, past := Function.update site.past r (some y) }

/-- The site takes over the wave `r` that neighbour `y` has told it of. -/
def follow (nbrs : Finset V) (x y r : V) (site : Site V) : Site V × Mail V :=
  let (site', out) := support nbrs x ⟨r, some y, 0, 0⟩ (site.adopt y r)
  (site', fun z => toAll (nbrs.erase y) (.elect r) z ++ out z)

/-- What the token of `r` does. -/
def elect (nbrs : Finset V) (x y r : V) (site : Site V) : Site V × Mail V :=
  match site.wave with
  | none => follow nbrs x y r site
  | some w =>
    if r < w.caw then follow nbrs x y r site
    else if w.caw = r then support nbrs x w site
    else (site, fun _ => [])

theorem elect_of_lt {nbrs : Finset V} {x y r : V} {site : Site V} (h : ∀ w, site.wave = some w → r < w.caw) :
    site.elect nbrs x y r = site.follow nbrs x y r := by
  unfold elect
  cases hw : site.wave with
  | none => rfl
  | some w => exact if_pos (h w hw)

theorem elect_of_not_lt {nbrs : Finset V} {x y r : V} {site : Site V} {w : Wave V} (hw : site.wave = some w)
    (h : ¬r < w.caw) : site.elect nbrs x y r =
      if w.caw = r then site.support nbrs x w else (site, fun _ => []) := by
  unfold elect
  rw [hw]
  exact if_neg h

/-- What the announcement that `r` has won does. -/
def leader (nbrs : Finset V) (x r : V) (site : Site V) : Site V × Mail V :=
  match site.wave with
  | none => (site, fun _ => [])
  | some w =>
    (if w.lrec + 1 = nbrs.card then { site with wave := none, told := site.told ++ [r] }
      else { site with wave := some { w with lrec := w.lrec + 1 } },
      if x ≠ r ∧ w.lrec = 0 then toAll nbrs (.leader w.caw) else fun _ => [])

/-- Nobody is told of a winner by a token. -/
theorem told_elect {nbrs : Finset V} {x y r : V} {site : Site V} :
    (site.elect nbrs x y r).1.told = site.told := by
  unfold elect
  cases site.wave with
  | none => rfl
  | some w =>
    dsimp only
    split_ifs <;> rfl

/-- When the site takes the token, not all neighbours have been counted yet. -/
def Counting (nbrs : Finset V) (t : Token V) (site : Site V) : Prop :=
  ∀ w, site.wave = some w →
    (t = .elect w.caw → w.erec < nbrs.card) ∧ ∀ r, t = .leader r → w.lrec < nbrs.card

/-- What a message does. -/
def handle (nbrs : Finset V) (x y : V) (t : Token V) (site : Site V) : Site V × Mail V :=
  match t with
  | .elect r => elect nbrs x y r site
  | .leader r => leader nbrs x r site

end Site

/-! ### Runs -/

variable (nbr : V → Finset V) (I : Finset V)

/-- The initiators have sent their tokens. -/
def start : State V where
  site x := ⟨if x ∈ I then some ⟨x, none, 0, 0⟩ else none, [], fun _ => none⟩
  done _ _ := []
  queue x z := if x ∈ I then toAll (nbr x) (.elect x) z else []

namespace State

/-- The first message from `y` to `x` is delivered: `x` changes to `site` and sends `out`. -/
def next (s : State V) (y x : V) (site : Site V) (out : Mail V) : State V where
  site := Function.update s.site x site
  done a b := if a = y ∧ b = x then s.done a b ++ (s.queue a b).take 1 else s.done a b
  queue a b := (if a = y ∧ b = x then (s.queue a b).drop 1 else s.queue a b) ++ if a = x then out b else []

/-- All messages ever sent. -/
def sent (s : State V) (y x : V) : List (Token V) := s.done y x ++ s.queue y x

end State

/-- One delivery. -/
inductive Step (s : State V) : State V → Prop
  | deliver (y x : V) (t : Token V) (rest : List (Token V)) (hqueue : s.queue y x = t :: rest)
      (hknown : y ∈ nbr x) :
      Step s (s.next y x ((s.site x).handle (nbr x) x y t).1 ((s.site x).handle (nbr x) x y t).2)

/-- The states that deliveries lead to. -/
inductive Run : State V → Prop
  | start : Run (start nbr I)
  | step {s s' : State V} (hs : Run s) (h : Step nbr s s') : Run s'

end Echo
