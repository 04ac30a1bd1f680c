import Zyre.Link.Delivery
import Zyre.Node.Waiting

/-!
# The handshake

Two nodes say HELLO to each other. An entry that is connected and not ready waits for a HELLO, and as
long as there are as many HELLO messages in flight as entries that wait (`Pair.Balanced`) none of them
waits in vain: once nothing is in flight both entries are ready (`symmetric_of_run`). Every step keeps the
balance except a delivery that drops a HELLO of a mailbox that was destroyed, or whose HELLO comes to
nothing; such a delivery keeps it exactly if enough of the others are left.
-/

namespace Zyre

variable {X : CStr}

/-! ### HELLO messages in flight -/

namespace Link

variable {l l' : Link} {env : Env} {input : Input} {frames : List Frame} {j : ℕ}

/-- How many of the letters are HELLO messages. -/
def hellos (letters : List Letter) : ℕ := letters.countP fun m => m.msg.id = .hello

/-- The letters that have neither been delivered nor been passed over. -/
def inFlight (l : Link) : List Letter := l.sent.drop l.next

/-- The letters that are dropped when letter `j` is delivered. -/
def dropped (l : Link) (j : ℕ) : List Letter := l.inFlight.take (j - l.next)

theorem hellos_append (letters letters' : List Letter) :
    hellos (letters ++ letters') = hellos letters + hellos letters' := List.countP_append ..

theorem hellos_cons (letter : Letter) (letters : List Letter) :
    hellos (letter :: letters) = hellos letters + if letter.msg.id = .hello then 1 else 0 := by
  simp [hellos, List.countP_cons]

/-- The letters posted count the HELLO messages sent. -/
theorem hellos_of_posted {n : Node} {sent : List Letter} (h : n.Posted X sent) :
    hellos sent = (n.view X).hellos := by
  have hmail : (n.mailTo X).countP (fun m => m.2.id = .hello) = hellos sent := by
    rw [h.mail, List.countP_map]
    rfl
  rw [← hmail, Node.mailTo, List.countP_filter, Node.view_hellos, Node.hellosTo]
  refine List.countP_congr fun m _ => ?_
  simp [and_comm]

/-- What the sender posts is in flight. -/
theorem hellos_inFlight_send (hposted : l.a.Posted X l.sent) (hposted' : l'.a.Posted X l'.sent)
    (hnext : l.next ≤ l.sent.length) (hnext' : l'.next = l.next)
    (hsent : ∃ ls, l'.sent = l.sent ++ ls) :
    hellos l'.inFlight + (l.a.view X).hellos = hellos l.inFlight + (l'.a.view X).hellos := by
  obtain ⟨ls, hls⟩ := hsent
  rw [← hellos_of_posted hposted, ← hellos_of_posted hposted', inFlight, inFlight, hnext', hls,
    List.drop_append_of_le_length hnext, hellos_append, hellos_append]
  omega

/-- What comes next has been sent. -/
theorem Run.next_le {gap : ℕ} {C : Link → Action → Prop} (h : Run gap C l) : l.next ≤ l.sent.length := by
  induction h with
  | new uuid uuid' endpoint endpoint' => exact le_rfl
  | step hl hc h ih =>
    cases h with
    | sender h => exact ih.trans (by simp)
    | receiver hinput h => exact ih
    | deliver hj hletter hsender hmsg h =>
      obtain ⟨hlt, -⟩ := List.getElem?_eq_some_iff.mp hletter
      exact (next_of_delivered rfl).trans_le hlt

/-! ### One step of a link -/

/-- One if the sender's entry of the receiver waits for a HELLO. -/
def waits (l : Link) : ℕ := (l.a.view l.b.identity).awaits

/-- The sender handles an input, and the HELLO messages it sends are in flight. -/
theorem step_waits_of_sender (hl : Run 0 (fun _ _ => True) l) (h : Step 0 l (.sender env input) l') :
    ∃ a', Node.step env input l.a = .ok ⟨⟩ a' ∧ l'.waits = (a'.view l.b.identity).awaits ∧
      hellos l'.inFlight + (l.a.view l.b.identity).hellos =
        hellos l.inFlight + (a'.view l.b.identity).hellos := by
  have hposted' := (hl.step trivial h).posted
  obtain ⟨a', h, hnext, hsent, rfl, hb⟩ : ∃ a', Node.step env input l.a = .ok ⟨⟩ a' ∧ l'.next = l.next ∧
      (∃ ls, l'.sent = l.sent ++ ls) ∧ l'.a = a' ∧ l'.b = l.b := by
    cases h with
    | sender h => exact ⟨_, h, rfl, ⟨_, rfl⟩, rfl, rfl⟩
  rw [hb] at hposted'
  refine ⟨l'.a, h, by rw [waits, hb], ?_⟩
  exact hellos_inFlight_send hl.posted hposted' hl.next_le hnext hsent

/-- The receiver handles an input of its own. -/
theorem step_waits_of_receiver (h : Step 0 l (.receiver env input) l') :
    l'.waits = l.waits ∧ l'.inFlight = l.inFlight := by
  have hidentity : l'.b.identity = l.b.identity := congrArg Uuid.str h.identity.2
  unfold waits
  rw [hidentity]
  cases h with
  | receiver hinput h => exact ⟨rfl, rfl⟩

/-- A delivery takes the letters up to the one delivered out of the flight. -/
theorem step_waits_of_deliver (h : Step 0 l (.deliver env j frames) l') :
    l'.waits = l.waits ∧ l'.inFlight = l.sent.drop (j + 1) := by
  have hidentity : l'.b.identity = l.b.identity := congrArg Uuid.str h.identity.2
  unfold waits
  rw [hidentity]
  cases h with
  | deliver hj hletter hsender hmsg h => exact ⟨rfl, by rw [inFlight, next_of_delivered rfl]⟩

/-- In flight were the letters dropped, the one delivered, and those behind it. -/
theorem inFlight_of_deliver {letter : Letter} (hj : l.next ≤ j) (hletter : l.sent[j]? = some letter) :
    l.inFlight = l.dropped j ++ l.sent.drop j ∧ l.sent.drop j = letter :: l.sent.drop (j + 1) := by
  obtain ⟨hlt, hget⟩ := List.getElem?_eq_some_iff.mp hletter
  constructor
  · have hdrop : l.sent.drop j = l.inFlight.drop (j - l.next) := by
      rw [inFlight, List.drop_drop]
      congr 1
      omega
    rw [hdrop, dropped, List.take_append_drop]
  · rw [List.drop_eq_getElem_cons hlt, hget]

end Link

/-! ### Two links -/

/-- Two nodes with the letters from one to the other, and those back. -/
structure Pair where
  there : Link
  back : Link
  left : back.b = there.a
  right : back.a = there.b

namespace Pair

/-- The pair seen from the other side. -/
def swap (P : Pair) : Pair := ⟨P.back, P.there, P.right.symm, P.left.symm⟩

/-- What happens between two nodes: one of them handles an input that is no message from the other, or a
letter is delivered. -/
inductive Action
  | left (env : Env) (input : Input)
  | right (env : Env) (input : Input)
  | toRight (env : Env) (j : ℕ) (frames : List Frame)
  | toLeft (env : Env) (j : ℕ) (frames : List Frame)

def Action.swap : Action → Action
  | .left env input => .right env input
  | .right env input => .left env input
  | .toRight env j frames => .toLeft env j frames
  | .toLeft env j frames => .toRight env j frames

/-- What the two links make of it. A letter that is delivered on one of them is an input on the other. -/
inductive Step (P P' : Pair) : Action → Prop
  | left {env : Env} {input : Input} (h : Link.Step 0 P.there (.sender env input) P'.there)
      (h' : Link.Step 0 P.back (.receiver env input) P'.back) : Step P P' (.left env input)
  | right {env : Env} {input : Input} (h : Link.Step 0 P.there (.receiver env input) P'.there)
      (h' : Link.Step 0 P.back (.sender env input) P'.back) : Step P P' (.right env input)
  | toRight {env : Env} {j : ℕ} {frames : List Frame}
      (h : Link.Step 0 P.there (.deliver env j frames) P'.there)
      (h' : Link.Step 0 P.back (.sender env (.inbox frames)) P'.back) :
      Step P P' (.toRight env j frames)
  | toLeft {env : Env} {j : ℕ} {frames : List Frame}
      (h : Link.Step 0 P.there (.sender env (.inbox frames)) P'.there)
      (h' : Link.Step 0 P.back (.deliver env j frames) P'.back) :
      Step P P' (.toLeft env j frames)

/-- The pairs that steps meeting `C` lead to, from two nodes just created. -/
inductive Run (C : Pair → Action → Prop) : Pair → Prop
  | new (uuid uuid' : Uuid) (endpoint endpoint' : CStr) :
      Run C ⟨⟨Node.new uuid endpoint, Node.new uuid' endpoint', [], [], []⟩,
        ⟨Node.new uuid' endpoint', Node.new uuid endpoint, [], [], []⟩, rfl, rfl⟩
  | step {P P' : Pair} {action : Action} (hP : Run C P) (hc : C P action) (h : Step P P' action) :
      Run C P'

/-- How many of the two entries are connected and not ready. -/
def waiting (P : Pair) : ℕ := P.there.waits + P.back.waits

/-- No entry waits in vain. -/
def Balanced (P : Pair) : Prop :=
  P.waiting ≤ Link.hellos P.there.inFlight + Link.hellos P.back.inFlight

/-- A letter is delivered to the right. If that drops a HELLO, or if the letter is one that comes to
nothing, as many of the others are in flight as entries wait. -/
structure Saves (P : Pair) (env : Env) (j : ℕ) (frames : List Frame) : Prop where
  dropped : Link.hellos (P.there.dropped j) = 0 ∨
    P.waiting ≤ Link.hellos (P.there.sent.drop j) + Link.hellos P.back.inFlight
  wasted : P.there.b.Wastes env P.there.a.identity (Msg.recv frames).msg →
    P.waiting ≤ Link.hellos (P.there.sent.drop (j + 1)) + Link.hellos P.back.inFlight

/-- No delivery takes away a HELLO that an entry is waiting for. -/
def Spares (P : Pair) : Action → Prop
  | .toRight env j frames => P.Saves env j frames
  | .toLeft env j frames => P.swap.Saves env j frames
  | _ => True

/-- If nothing is in flight and each node holds the other connected, either both entries are ready or
none is. -/
def Symmetric (P : Pair) : Prop :=
  P.there.inFlight = [] → P.back.inFlight = [] → ∀ p q,
    P.there.a.peers.lookup P.there.b.identity = some p → p.connected = true →
      P.there.b.peers.lookup P.there.a.identity = some q → q.connected = true →
        (p.ready = true ↔ q.ready = true)

variable {P P' : Pair} {C : Pair → Action → Prop} {action : Action}

/-! ### Every step keeps the balance -/

/-- The balance does not depend on which node is called left. -/
theorem swap_balanced : P.swap.Balanced ↔ P.Balanced := by
  unfold Balanced waiting swap
  rw [Nat.add_comm P.back.waits, Nat.add_comm (Link.hellos P.back.inFlight)]

/-- Each of the two links runs. -/
theorem Run.links (h : Run C P) :
    Link.Run 0 (fun _ _ => True) P.there ∧ Link.Run 0 (fun _ _ => True) P.back := by
  induction h with
  | new uuid uuid' endpoint endpoint' => exact ⟨.new _ _ _ _, .new _ _ _ _⟩
  | step hP hc h ih =>
    cases h with
    | left h h' => exact ⟨ih.1.step trivial h, ih.2.step trivial h'⟩
    | right h h' => exact ⟨ih.1.step trivial h, ih.2.step trivial h'⟩
    | toRight h h' => exact ⟨ih.1.step trivial h, ih.2.step trivial h'⟩
    | toLeft h h' => exact ⟨ih.1.step trivial h, ih.2.step trivial h'⟩

variable {env : Env} {input : Input} {frames : List Frame} {j : ℕ}

/-- The left node handles an input that is no message from the right one. -/
theorem Balanced.send (hP : P.Balanced) (hthere : Link.Run 0 (fun _ _ => True) P.there)
    (h : Link.Step 0 P.there (.sender env input) P'.there)
    (h' : Link.Step 0 P.back (.receiver env input) P'.back) : P'.Balanced := by
  have hX : ∀ uuid, Node.Sender input uuid → uuid.str ≠ P.there.b.identity := by
    intro uuid huuid heq
    have hne : uuid ≠ P.back.a.uuid := by
      generalize P'.back = back' at h'
      cases h' with
      | receiver hinput h' => exact hinput uuid huuid
    exact hne ((Uuid.str_injective heq).trans (congrArg Node.uuid P.right.symm))
  obtain ⟨a', hstep, hwaits, hhellos⟩ := Link.step_waits_of_sender hthere h
  obtain ⟨hwaits', hflight⟩ := Link.step_waits_of_receiver h'
  have hawaits := Node.step_awaits hX hstep
  have hnow : P.there.waits = (P.there.a.view P.there.b.identity).awaits := rfl
  unfold Balanced waiting at *
  rw [hwaits', hflight]
  omega

/-- What comes with a letter that is delivered to the right, and what the right node makes of it. -/
theorem arrives_of_step (hthere : Link.Run 0 (fun _ _ => True) P.there)
    (h : Link.Step 0 P.there (.deliver env j frames) P'.there)
    (h' : Link.Step 0 P.back (.sender env (.inbox frames)) P'.back) :
    ∃ letter b', P.there.next ≤ j ∧ P.there.sent[j]? = some letter ∧
      Node.senderOf frames = some P.back.b.uuid ∧ (Msg.recv frames).msg.id = letter.msg.id ∧
      (letter.msg.id = .hello → (Msg.recv frames).msg.sequence = 1) ∧
      Node.step env (.inbox frames) P.back.a = .ok ⟨⟩ b' := by
  generalize P'.there = there' at h
  generalize P'.back = back' at h'
  cases h with
  | @deliver _ _ _ letter _ hj hletter hsender hmsg _ =>
    cases h' with
    | @sender _ _ b' h' =>
      refine ⟨letter, b', hj.1, hletter, hsender.trans (by rw [P.left]), hmsg.id, fun hhello => ?_, h'⟩
      rcases Link.opens_or_regroups hthere.posted (List.mem_of_getElem? hletter) with hopens | ⟨hnot, -⟩
      · exact hmsg.sequence.trans hopens.sequence
      · exact absurd hhello hnot

/-- A letter is delivered to the right. -/
theorem Balanced.deliver (hP : P.Balanced) (hthere : Link.Run 0 (fun _ _ => True) P.there)
    (hback : Link.Run 0 (fun _ _ => True) P.back) (hsaves : P.Saves env j frames)
    (h : Link.Step 0 P.there (.deliver env j frames) P'.there)
    (h' : Link.Step 0 P.back (.sender env (.inbox frames)) P'.back) : P'.Balanced := by
  obtain ⟨letter, -, hj, hletter, hsender, hid, hseq, -⟩ := arrives_of_step hthere h h'
  obtain ⟨hwaits, hflight⟩ := Link.step_waits_of_deliver h
  obtain ⟨b', hstep, hwaits', hhellos⟩ := Link.step_waits_of_sender hback h'
  obtain ⟨hall, hbehind⟩ := Link.inFlight_of_deliver hj hletter
  have hall : Link.hellos P.there.inFlight = _ := (congrArg Link.hellos hall).trans (Link.hellos_append ..)
  have hone : Link.hellos (P.there.sent.drop j) = _ := (congrArg Link.hellos hbehind).trans (Link.hellos_cons ..)
  unfold Node.identity at hwaits' hhellos
  have hawaits := Node.step_awaits_of_sender hsender hstep
  have hnow : P.back.waits = (P.back.a.view P.back.b.uuid.str).awaits := rfl
  obtain ⟨hdropped, hwasted⟩ := hsaves
  unfold Balanced waiting at *
  rw [hwaits, hflight]
  by_cases hhello : letter.msg.id = .hello
  · rw [if_pos hhello] at hone
    by_cases hwastes : P.there.b.Wastes env P.there.a.identity (Msg.recv frames).msg
    · have hleft := hwasted hwastes
      omega
    · -- The HELLO is answered, or it is the one that the entry of the right node has waited for.
      rw [← P.right, ← P.left] at hwastes
      have hanswered := Node.step_awaits_of_hello hsender (hid.trans hhello) (hseq hhello) hwastes hstep
      omega
  · rw [if_neg hhello] at hone
    omega

/-- No delivery that is spared takes the balance away. -/
theorem Run.balanced (h : Run Spares P) : P.Balanced := by
  induction h with
  | new uuid uuid' endpoint endpoint' => exact le_rfl
  | step hP hc h ih =>
    obtain ⟨hthere, hback⟩ := hP.links
    have hih := swap_balanced.mpr ih
    cases h with
    | left h h' => exact ih.send hthere h h'
    | right h h' => exact swap_balanced.mp (hih.send hback h' h)
    | toRight h h' => exact ih.deliver hthere hback hc h h'
    | toLeft h h' => exact swap_balanced.mp (hih.deliver hback hthere hc h' h)

/-- A node whose entry of the other does not wait has a session with it, if the mailbox is there. -/
theorem ready_of_waits {l : Link} {p : Peer} (h : l.waits = 0)
    (hp : l.a.peers.lookup l.b.identity = some p) (hconn : p.connected = true) : p.ready = true := by
  have he : (l.a.view l.b.identity).entry = some p.still := by
    rw [Node.view_entry, hp]
    rfl
  exact PeerView.ready_of_awaits (p := p.still) h he hconn

/-! ### Running a pair -/

/-- The pair once the left node has handled an input. -/
def send (env : Env) (input : Input) (P : Pair) : Pair where
  there := P.there.send env input
  back := P.back.receive env input
  left := by simp [Link.send, Link.receive, P.left]
  right := P.right

/-- The pair once letter `j` has been delivered to the right, if there is one. -/
def deliver (env : Env) (j : ℕ) (P : Pair) : Pair :=
  match hletter : P.there.sent[j]? with
  | some letter => {
      there := P.there.deliver env j
      back := P.back.send env (.inbox (P.there.frames letter))
      left := by simp [Link.deliver, Link.send, hletter, P.left]
      right := by simp [Link.deliver, Link.send, hletter, P.right] }
  | none => P

/-- A run goes on by an input of the left node. -/
theorem Run.send {C : Pair → Action → Prop} (hP : Run C P) (hc : C P (.left env input))
    (hinput : ∀ uuid, Node.Sender input uuid → uuid ≠ P.there.b.uuid)
    (hok : (Node.step env input P.there.a matches .ok ..) = true) : Run C (P.send env input) := by
  have hstep := Node.step_eq_of_isOk hok
  refine hP.step hc (.left (.sender hstep) (.receiver ?_ ?_))
  · rw [P.right]
    exact hinput
  · rw [P.left]
    exact hstep

/-- A letter is delivered as it was posted, if it fits the format. -/
theorem step_deliver {m : Letter} (hj : P.there.Deliverable 0 j) (hletter : P.there.sent[j]? = some m)
    (hfits : m.msg.Fits)
    (hok : (Node.step env (.inbox (P.there.frames m)) P.there.b matches .ok ..) = true) :
    Step P (P.deliver env j) (.toRight env j (P.there.frames m)) := by
  unfold Pair.deliver
  split
  next m' hletter' =>
    obtain rfl := Option.some_inj.mp (hletter'.symm.trans hletter)
    refine .toRight (Link.step_deliver hj hletter' hfits hok) (.sender ?_)
    rw [P.right]
    exact Node.step_eq_of_isOk hok
  next hnone => exact nomatch hnone.symm.trans hletter

/-- It goes on by a delivery to the right. -/
theorem Run.deliver (hP : Run C P) (hj : P.there.Deliverable 0 j)
    (hfits : ∀ m ∈ P.there.sent[j]?, m.groups.length < 2 ^ 32 ∧ ∀ name ∈ m.groups, name.length < 2 ^ 32)
    (hc : ∀ m ∈ P.there.sent[j]?, C P (.toRight env j (P.there.frames m)))
    (hok : ∀ m ∈ P.there.sent[j]?,
      (Node.step env (.inbox (P.there.frames m)) P.there.b matches .ok ..) = true) :
    Run C (P.deliver env j) := by
  cases hletter : P.there.sent[j]? with
  | none =>
    unfold Pair.deliver
    split
    next m hm => exact nomatch hletter.symm.trans hm
    next => exact hP
  | some m =>
    obtain ⟨hgroups, hnames⟩ := hfits m hletter
    have hfits := Link.fits_of_posted hP.links.1.posted (List.mem_of_getElem? hletter) hgroups hnames
    exact hP.step (hc m hletter) (step_deliver hj hletter hfits (hok m hletter))

/-- Seen from the other side a step is the same step. -/
theorem Step.swap (h : Step P P' action) : Step P.swap P'.swap action.swap := by
  cases h with
  | left h h' => exact .right h' h
  | right h h' => exact .left h' h
  | toRight h h' => exact .toLeft h' h
  | toLeft h h' => exact .toRight h' h

/-- A run is one from the other side too. -/
theorem Run.swap (hswap : ∀ P action, C P action → C P.swap action.swap) (hP : Run C P) : Run C P.swap := by
  induction hP with
  | new uuid uuid' endpoint endpoint' => exact .new uuid' uuid endpoint' endpoint
  | step hP hc h ih => exact ih.step (hswap _ _ hc) h.swap

/-- So is the condition on it. -/
theorem Spares.swap (P : Pair) (action : Action) (h : Spares P action) : Spares P.swap action.swap := by
  cases action <;> exact h

/-! ### Pairs to try things on -/

/-- Two nodes that do not know of each other. -/
def sampleApart : Pair := ⟨Link.sampleStart, ⟨Link.sampleStart.b, Link.sampleStart.a, [], [], []⟩, rfl, rfl⟩

theorem run_sampleApart : Run C sampleApart := .new _ _ _ _

/-- The left node finds the right one and says HELLO. -/
def sampleFound : Pair :=
  sampleApart.send (Node.sampleEnv 0) (.api (.requirePeer (Node.sampleUuid 1) (Node.sampleEndpoint 'p') none))

theorem run_sampleFound (hc : ∀ P env command, C P (.left env (.api command))) : Run C sampleFound :=
  run_sampleApart.send (hc _ _ _) nofun (by decide)

/-- The right node says HELLO back. -/
def sampleAnswered : Pair := sampleFound.deliver (Node.sampleEnv 0) 0

theorem sampleAnswered_spares : ∀ m ∈ sampleFound.there.sent[0]?,
    Spares sampleFound (.toRight (Node.sampleEnv 0) 0 (sampleFound.there.frames m)) := by
  intro m hm
  refine ⟨Or.inl (by decide +kernel), fun ⟨_, hwastes⟩ => ?_⟩
  have hnone : sampleFound.there.b.peers.lookup sampleFound.there.a.identity = none :=
    Option.isNone_iff_eq_none.mp (by decide +kernel)
  have hconnects : ∀ m ∈ sampleFound.there.sent[0]?, (Node.sampleEnv 0).connects
      ((Node.sampleEnv 0).endpointIface (Msg.recv (sampleFound.there.frames m)).msg.endpoint) = true := by
    decide +kernel
  have hadmits : Node.Admits (Node.sampleEnv 0) sampleFound.there.b sampleFound.there.a.identity
      (Msg.recv (sampleFound.there.frames m)).msg := by
    unfold Node.Admits
    rw [hnone]
    exact ⟨hconnects m hm, fun hsecure => absurd hsecure (by decide)⟩
  obtain ⟨p, hp, -⟩ := hwastes hadmits
  exact absurd (hnone.symm.trans hp) (by simp)

/-- The handshake is complete. -/
def sampleGreeted : Pair := sampleAnswered.swap.deliver (Node.sampleEnv 0) 0

theorem sampleGreeted_spares : ∀ m ∈ sampleAnswered.swap.there.sent[0]?,
    Spares sampleAnswered.swap (.toRight (Node.sampleEnv 0) 0 (sampleAnswered.swap.there.frames m)) := by
  intro m hm
  refine ⟨Or.inl (by decide +kernel), fun ⟨_, hwastes⟩ => ?_⟩
  have hentry : ∃ p ∈ sampleAnswered.swap.there.b.peers.lookup sampleAnswered.swap.there.a.identity,
      p.ready = false ∧ p.connected = true ∧ p.endpointStr ≠ sampleAnswered.swap.there.b.endpoint := by
    decide +kernel
  obtain ⟨p, hp, hready, hconn, hendpoint⟩ := hentry
  have hadmits : Node.Admits (Node.sampleEnv 0) sampleAnswered.swap.there.b
      sampleAnswered.swap.there.a.identity (Msg.recv (sampleAnswered.swap.there.frames m)).msg := by
    unfold Node.Admits
    rw [hp]
    simp only [hready, Bool.false_eq_true, if_false]
    exact ⟨hendpoint, fun hsecure => absurd hsecure (by decide)⟩
  obtain ⟨q, hq, -, hnot⟩ := hwastes hadmits
  obtain rfl := Option.some_inj.mp (Eq.trans hp.symm hq)
  exact absurd (hconn.symm.trans hnot) (by decide)

/-- The right node gives the left one up while its HELLO is on the way, and finds it again. The mailbox is
gone with that HELLO, and the next one is delivered to a node that does not answer it. -/
def sampleHalfOpen : Pair :=
  sampleAnswered.swap
    |>.send (Node.sampleEnv 40000) (.reap [(Node.sampleUuid 0).str])
    |>.send (Node.sampleEnv 40000) (.api (.requirePeer (Node.sampleUuid 0) (Node.sampleEndpoint 'n') none))
    |>.deliver (Node.sampleEnv 40000) 1

theorem run_sampleHalfOpen : Run (fun _ _ => True) sampleHalfOpen := by
  have hanswered : Run (fun _ _ => True) sampleAnswered :=
    (run_sampleFound fun _ _ _ => trivial).deliver ⟨le_rfl, .inl nofun⟩ (by decide +kernel)
      (fun _ _ => trivial) (by decide +kernel)
  have hgone : Run (fun _ _ => True)
      (sampleAnswered.swap.send (Node.sampleEnv 40000) (.reap [(Node.sampleUuid 0).str])) :=
    (hanswered.swap fun _ _ h => h).send trivial (by rintro _ ⟨_, ⟨⟩, _⟩) (by decide +kernel)
  exact (hgone.send trivial (by rintro _ ⟨_, ⟨⟩, _⟩) (by decide +kernel)).deliver
    ⟨by decide +kernel, .inl (by decide +kernel)⟩ (by decide +kernel)
    (fun _ _ => trivial) (by decide +kernel)

/-! ### No session is half open -/

/-- **No half-open session.** Once nothing is in flight, two nodes that have connected mailboxes to each
other hold each other ready, or neither does, if no delivery has taken away a HELLO that an entry was
waiting for. At least as many HELLO messages are in flight as entries wait for one (`Balanced`), so that
none waits when there are none. -/
theorem symmetric_of_run (h : Run Spares P) : P.Symmetric := by
  intro hthere hback p q hp hpconn hq hqconn
  have hbalanced := h.balanced
  have hnone : P.waiting = 0 := by
    unfold Balanced at hbalanced
    rw [hthere, hback] at hbalanced
    exact Nat.le_zero.mp hbalanced
  obtain ⟨hwaits, hwaits'⟩ := Nat.add_eq_zero_iff.mp hnone
  have hpready := ready_of_waits hwaits hp hpconn
  rw [← P.right, ← P.left] at hq
  have hqready := ready_of_waits hwaits' hq hqconn
  exact ⟨fun _ => hqready, fun _ => hpready⟩

/-- **Two nodes that have greeted each other** hold each other ready. -/
theorem symmetric_greeted : sampleGreeted.Symmetric := by
  have hfound : Run Spares sampleFound := run_sampleFound fun _ _ _ => trivial
  have hanswered : Run Spares sampleAnswered :=
    hfound.deliver ⟨le_rfl, .inl nofun⟩ (by decide +kernel) sampleAnswered_spares (by decide +kernel)
  exact symmetric_of_run ((hanswered.swap Spares.swap).deliver ⟨le_rfl, .inl nofun⟩ (by decide +kernel)
    sampleGreeted_spares (by decide +kernel))

/-- One node has told of ENTER, the other ignores its messages, and nothing is in flight. -/
theorem not_symmetric_of_run : ¬∀ P, Run (fun _ _ => True) P → P.Symmetric := by
  intro h
  have hwaits : ∃ p ∈ sampleHalfOpen.there.a.peers.lookup sampleHalfOpen.there.b.identity,
      p.connected = true ∧ p.ready = false := by decide +kernel
  have hready : ∃ q ∈ sampleHalfOpen.there.b.peers.lookup sampleHalfOpen.there.a.identity,
      q.connected = true ∧ q.ready = true := by decide +kernel
  obtain ⟨p, hp, hpconn, hpready⟩ := hwaits
  obtain ⟨q, hq, hqconn, hqready⟩ := hready
  have hthere : sampleHalfOpen.there.inFlight = [] :=
    List.length_eq_zero_iff.mp (by decide +kernel)
  have hback : sampleHalfOpen.back.inFlight = [] :=
    List.length_eq_zero_iff.mp (by decide +kernel)
  have hboth := h sampleHalfOpen run_sampleHalfOpen hthere hback p q hp hpconn hq hqconn
  exact absurd (hboth.mpr hqready) (by simp [hpready])

end Pair

end Zyre
