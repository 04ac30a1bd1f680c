import Zyre.Link.Reception
import Zyre.Msg.RoundTrip
import Zyre.Node.Post

/-!
# Two nodes and the mailboxes from one to the other

A `Link` is a node `a`, a node `b`, and the letters on their way from `a` to `b`. Both nodes may handle
any inputs, but what `b` receives from `a` are the letters: those on one mailbox in their order, and once
the first letter of a mailbox has come none of an older one. A mailbox that is destroyed may drop what is
still in it; `gap` is how many letters in a row a mailbox may lose otherwise, none if it is lossless.
-/

namespace Zyre

/-- Two nodes, the letters `a` has posted to `b`, those of them that have been delivered, and those that
`b` has accepted. -/
structure Link where
  a : Node
  b : Node
  sent : List Letter
  delivered : List ℕ
  accepted : List ℕ

namespace Link

/-- The letter behind the last one delivered. -/
def next (l : Link) : ℕ :=
  match l.delivered.getLast? with
  | some i => i + 1
  | none => 0

/-- No earlier letter is on the mailbox of letter `j`. -/
def IsFirst (sent : List Letter) (j : ℕ) : Prop :=
  ∀ i < j, (sent[i]?).map Letter.box ≠ (sent[j]?).map Letter.box

/-- Letter `j` may be delivered next: it is the first on its mailbox, or on the mailbox of the letter
delivered before and no more than `gap` letters behind it are lost. -/
def Deliverable (gap : ℕ) (l : Link) (j : ℕ) : Prop :=
  l.next ≤ j ∧ (IsFirst l.sent j ∨
    ∃ i, l.next = i + 1 ∧ (l.sent[i]?).map Letter.box = (l.sent[j]?).map Letter.box ∧ j ≤ l.next + gap)

/-- What happens on a link. -/
inductive Action
  | sender (env : Env) (input : Input)
  | receiver (env : Env) (input : Input)
  | deliver (env : Env) (j : ℕ) (frames : List Frame)

/-- The letters `a'` has posted to `X` beyond those in `sent`. -/
def posts (sent : List Letter) (a' : Node) (X : CStr) : List Letter :=
  ((a'.mailTo X).drop sent.length).map fun m => ⟨m.1, m.2, a'.status, a'.ownGroups⟩

/-- One step: `a` handles an input, `b` handles one that is not a message from `a`, or a letter is
delivered to `b`. -/
inductive Step (gap : ℕ) (l : Link) : Action → Link → Prop
  | sender {env : Env} {input : Input} {a' : Node} (h : Node.step env input l.a = .ok ⟨⟩ a') :
      Step gap l (.sender env input)
        { l with a := a', sent := l.sent ++ posts l.sent a' l.b.identity }
  | receiver {env : Env} {input : Input} {b' : Node}
      (hinput : ∀ uuid, Node.Sender input uuid → uuid ≠ l.a.uuid)
      (h : Node.step env input l.b = .ok ⟨⟩ b') : Step gap l (.receiver env input) { l with b := b' }
  | deliver {env : Env} {j : ℕ} {frames : List Frame} {letter : Letter} {b' : Node}
      (hj : Deliverable gap l j) (hletter : l.sent[j]? = some letter)
      (hsender : Node.senderOf frames = some l.a.uuid)
      (hmsg : Carries letter.msg (Msg.recv frames).msg)
      (h : Node.step env (.inbox frames) l.b = .ok ⟨⟩ b') :
      Step gap l (.deliver env j frames)
        { l with
          b := b'
          delivered := l.delivered ++ [j]
          accepted := if Node.accepted env l.a.uuid (Msg.recv frames).msg l.b then l.accepted ++ [j]
            else l.accepted }

/-- The links that steps meeting `C` lead to, from two nodes just created. -/
inductive Run (gap : ℕ) (C : Link → Action → Prop) : Link → Prop
  | new (uuid uuid' : Uuid) (endpoint endpoint' : CStr) :
      Run gap C ⟨Node.new uuid endpoint, Node.new uuid' endpoint', [], [], []⟩
  | step {l l' : Link} {action : Action} (hl : Run gap C l) (hc : C l action)
      (h : Step gap l action l') : Run gap C l'

variable {gap : ℕ} {C : Link → Action → Prop} {l l' : Link} {action : Action}

theorem next_of_delivered {j : ℕ} {ds : List ℕ} (h : l.delivered = ds ++ [j]) : l.next = j + 1 := by
  rw [next, h, List.getLast?_concat]

/-! ### The sender's side -/

theorem posts_eq {n : Node} {X : CStr} {sent ls : List Letter} (h : n.Posted X (sent ++ ls))
    (hstamped : n.Stamped ls) : posts sent n X = ls := by
  have hlen : (sent.map fun l => (l.box, l.msg)).length = sent.length := List.length_map ..
  rw [posts, h.mail, List.map_append, List.drop_left' hlen, List.map_map]
  refine (List.map_congr_left fun l hl => ?_).trans (List.map_id ls)
  obtain ⟨hstatus, hgroups⟩ := hstamped l hl
  cases l
  simp_all

theorem posted_new {uuid : Uuid} {endpoint : CStr} {X : CStr} :
    (Node.new uuid endpoint).Posted X [] :=
  ⟨rfl, .nil, nofun, nofun, nofun⟩

theorem Step.identity (h : Step gap l action l') :
    l'.a.uuid = l.a.uuid ∧ l'.b.uuid = l.b.uuid := by
  cases h with
  | sender h => exact ⟨(EStateM.wp_of_ok h Node.step_uuid :), rfl⟩
  | receiver hinput h => exact ⟨rfl, (EStateM.wp_of_ok h Node.step_uuid :)⟩
  | deliver hj hletter hsender hmsg h => exact ⟨rfl, (EStateM.wp_of_ok h Node.step_uuid :)⟩

/-- The letters of a link are all that its sender has posted. -/
theorem Run.posted (h : Run gap C l) : l.a.Posted l.b.identity l.sent := by
  induction h with
  | new uuid uuid' endpoint endpoint' => exact posted_new
  | @step l l' action hl hc h ih =>
    have hidentity : l'.b.identity = l.b.identity := congrArg Uuid.str h.identity.2
    rw [hidentity]
    cases h with
    | sender h =>
      obtain ⟨ls, hposted, hstamped⟩ := EStateM.wp_of_ok h ih.step
      have hposts := posts_eq hposted hstamped
      show Node.Posted _ _ (l.sent ++ posts l.sent _ l.b.identity)
      rwa [hposts]
    | receiver hinput h => exact ih
    | deliver hj hletter hsender hmsg h => exact ih

/-! ### What arrives -/

/-- A letter opens its mailbox or follows another letter on it. -/
theorem opens_or_regroups {n : Node} {X : CStr} {sent : List Letter} (h : n.Posted X sent) {m : Letter}
    (hm : m ∈ sent) :
    m.Opens ∨ m.msg.id ≠ .hello ∧ m.msg.id ≠ .unset ∧ ∃ m₀ : Letter, m₀.Regroups m := by
  obtain ⟨j, hj⟩ := List.mem_iff_getElem?.mp hm
  cases j with
  | zero => exact Or.inl (h.head m (by rw [List.head?_eq_getElem?]; exact hj))
  | succ i =>
    obtain ⟨hlt, rfl⟩ := List.getElem?_eq_some_iff.mp hj
    rcases h.chain.getElem i hlt with ⟨-, hid, hset, -, hregroups⟩ | ⟨-, hopens⟩
    · exact Or.inr ⟨hid, hset, _, hregroups⟩
    · exact Or.inl hopens

/-- What a node posts fits the format, if its groups do, and so arrives. -/
theorem fits_of_posted {n : Node} {X : CStr} {sent : List Letter} (h : n.Posted X sent) {m : Letter}
    (hm : m ∈ sent) (hgroups : m.groups.length < 2 ^ 32)
    (hnames : ∀ name ∈ m.groups, name.length < 2 ^ 32) : m.msg.Fits := by
  have hroom : ∀ {k : ℕ}, k ≤ Msg.fieldSize → k < 256 := fun h => Nat.lt_succ_of_le h
  rcases opens_or_regroups h hm with hopens | ⟨hid, hset, m₀, hregroups⟩
  · have hnot : ¬(m.msg.id = .join ∨ m.msg.id = .leave) := by rw [hopens.id]; decide
    exact ⟨by rw [hopens.id]; decide, fun _ => hroom hopens.endpoint,
      fun _ => ⟨m.groups, hopens.groups, hgroups, hnames⟩, fun h => absurd h hnot⟩
  · refine ⟨hset, fun h => absurd h hid, fun h => absurd h hid, fun hchange => hroom ?_⟩
    obtain ⟨name, hname⟩ := hregroups.group hchange
    rw [hname]
    exact CStr.length_truncate_le _ _

/-! ### Running a link -/

/-- The frames a letter arrives in: the identity of the mailbox it was sent on, and those of the
message. -/
def frames (l : Link) (letter : Letter) : List Frame := (1 :: l.a.uuid.data) :: letter.msg.frames

theorem senderOf_frames {letter : Letter} (h : letter.msg.Fits) :
    Node.senderOf (l.frames letter) = some l.a.uuid := by
  obtain ⟨hrc, hidentity, -⟩ := carries_recv h (1 :: l.a.uuid.data)
  exact Node.senderOf_of_recv hrc hidentity

/-- The link once `a` has handled an input. -/
def send (env : Env) (input : Input) (l : Link) : Link :=
  let a' := Node.final (Node.step env input l.a)
  { l with a := a', sent := l.sent ++ posts l.sent a' l.b.identity }

/-- The link once `b` has handled an input. -/
def receive (env : Env) (input : Input) (l : Link) : Link :=
  { l with b := Node.final (Node.step env input l.b) }

/-- The link once letter `j` has been delivered, if there is one. -/
def deliver (env : Env) (j : ℕ) (l : Link) : Link :=
  match l.sent[j]? with
  | some letter =>
    { l with
      b := Node.final (Node.step env (.inbox (l.frames letter)) l.b)
      delivered := l.delivered ++ [j]
      accepted := if Node.accepted env l.a.uuid (Msg.recv (l.frames letter)).msg l.b then
        l.accepted ++ [j] else l.accepted }
  | none => l

theorem Run.send {env : Env} {input : Input} (hl : Run gap C l) (hc : C l (.sender env input))
    (hok : (Node.step env input l.a matches .ok ..) = true) : Run gap C (l.send env input) :=
  hl.step hc (.sender (Node.step_eq_of_isOk hok))

theorem Run.receive {env : Env} {input : Input} (hl : Run gap C l) (hc : C l (.receiver env input))
    (hinput : ∀ uuid, Node.Sender input uuid → uuid ≠ l.a.uuid)
    (hok : (Node.step env input l.b matches .ok ..) = true) : Run gap C (l.receive env input) :=
  hl.step hc (.receiver hinput (Node.step_eq_of_isOk hok))

/-- A letter is delivered as it was posted, if it fits the format. -/
theorem step_deliver {env : Env} {j : ℕ} {m : Letter} (hj : l.Deliverable gap j)
    (hletter : l.sent[j]? = some m) (hfits : m.msg.Fits)
    (hok : (Node.step env (.inbox (l.frames m)) l.b matches .ok ..) = true) :
    Step gap l (.deliver env j (l.frames m)) (l.deliver env j) := by
  unfold Link.deliver
  rw [hletter]
  exact .deliver hj hletter (senderOf_frames hfits) (carries_recv hfits _).2.2 (Node.step_eq_of_isOk hok)

theorem Run.deliver {env : Env} {j : ℕ} (hl : Run gap C l) (hj : l.Deliverable gap j)
    (hfits : ∀ m ∈ l.sent[j]?, m.groups.length < 2 ^ 32 ∧ ∀ name ∈ m.groups, name.length < 2 ^ 32)
    (hc : ∀ m ∈ l.sent[j]?, C l (.deliver env j (l.frames m)))
    (hok : ∀ m ∈ l.sent[j]?, (Node.step env (.inbox (l.frames m)) l.b matches .ok ..) = true) :
    Run gap C (l.deliver env j) := by
  cases hletter : l.sent[j]? with
  | none =>
    unfold Link.deliver
    rwa [hletter]
  | some m =>
    obtain ⟨hgroups, hnames⟩ := hfits m hletter
    have hfits := fits_of_posted hl.posted (List.mem_of_getElem? hletter) hgroups hnames
    exact hl.step (hc m hletter) (step_deliver hj hletter hfits (hok m hletter))

/-! ### Links to try things on -/

instance {sent : List Letter} {j : ℕ} : Decidable (IsFirst sent j) :=
  inferInstanceAs (Decidable (∀ i < j, _))

/-- Two nodes that do not know of each other. -/
def sampleStart : Link :=
  ⟨Node.sampleNode, Node.new (Node.sampleUuid 1) (Node.sampleEndpoint 'p'), [], [], []⟩

theorem run_sampleStart : Run gap C sampleStart := .new _ _ _ _

/-- The first has learned of the second and joined a group. -/
def sampleLink : Link :=
  sampleStart
    |>.send (Node.sampleEnv 0) (Node.sampleInput 1 Node.sampleHello)
    |>.send (Node.sampleEnv 0) (.api (.join (CStr.ofChars ['g'])))

theorem run_sampleLink : Run gap (fun _ _ => True) sampleLink :=
  (run_sampleStart.send trivial (by decide)).send trivial (by decide)

end Link

end Zyre
