import Zyre.ForMathlib.List
import Zyre.Link.Exchange
import Zyre.Link.Loss
import Zyre.Node.Speech

/-!
# What is said is heard

What the application of `b` hears of `a` is what the application of `a` has said to it, in the same order,
nothing altered and nothing twice (`hears_of_run`). Something may be missing where a session ends: what is
heard in one is all that was said on its mailbox up to some point.
-/

namespace Zyre

/-- What a letter says. -/
def Letter.speech (l : Letter) : Option Speech := l.msg.speech

/-! ### One message -/

namespace PeerView

/-- What the log of a session says that `X` has said. -/
def heard (X : CStr) (v : PeerView) : List Speech := v.log.filterMap (Event.speech X)

variable {X : CStr} {v w : PeerView} {msg : Msg} {es : List Event}

/-- Events that are no speech leave what has been heard. -/
theorem heard_append (hlog : w.log = v.log ++ es) (hes : ∀ e ∈ es, e.speech X = none) : w.heard X = v.heard X := by
  rw [heard, hlog, List.filterMap_append, List.filterMap_eq_nil_iff.mpr hes, List.append_nil]
  rfl

/-- EXIT is no speech. -/
theorem heard_exit : (v.exit X).heard X = v.heard X :=
  heard_append rfl (List.forall_mem_singleton.mpr rfl)

/-- Nor are ENTER and JOIN. -/
theorem heard_greet : ((w.count 1).greet X msg).heard X = w.heard X := by
  refine heard_append rfl fun e he => ?_
  rcases List.mem_cons.mp he with rfl | he
  · rfl
  · obtain ⟨name, -, rfl⟩ := List.mem_map.mp he
    rfl

/-- A command that is taken is heard if it says something. -/
theorem heard_take (k : UInt16) (hcontent : msg.speech ≠ none → msg.content = some msg.contentFrames) :
    ((v.count k).take X msg).heard X = v.heard X ++ msg.speech.toList := by
  have hquiet : ∀ {u : PeerView} {e : Event}, u.log = v.log ++ [e] → e.speech X = none →
      u.heard X = v.heard X ++ [] := fun hlog he => by
    rw [List.append_nil]
    exact heard_append hlog (List.forall_mem_singleton.mpr he)
  unfold take
  split
  case h_1 hid =>
    have hmsg : msg.speech = some (.whisper msg.contentFrames) := by rw [Msg.speech, hid]
    rw [hcontent (by rw [hmsg]; exact Option.some_ne_none _), hmsg, heard, List.filterMap_append]
    simp [Event.speech, heard, count]
  case h_2 hid =>
    have hmsg : msg.speech = some (.shout msg.group msg.contentFrames) := by rw [Msg.speech, hid]
    rw [hcontent (by rw [hmsg]; exact Option.some_ne_none _), hmsg, heard, List.filterMap_append]
    simp [Event.speech, heard, count]
  case h_3 hid =>
    have hmsg : msg.speech = none := by rw [Msg.speech, hid]
    rw [hmsg]
    exact hquiet rfl rfl
  case h_4 hid =>
    have hmsg : msg.speech = none := by rw [Msg.speech, hid]
    rw [hmsg]
    exact hquiet rfl rfl
  case h_5 hwhisper hshout _ _ =>
    rw [Msg.speech_of_wordless ⟨hwhisper, hshout⟩, Option.toList_none, List.append_nil]
    rfl

end PeerView

variable {X : CStr} {v v' w : PeerView} {msg : Msg} {gossip b : Bool}

/-- To open an entry is not to hear anything. -/
theorem Opened.heard (hw : Opened X v w) : w.heard X = v.heard X := by
  rcases hw with - | - | -
  · rfl
  · rfl
  · exact PeerView.heard_exit

/-- A message that is not taken is not heard. -/
theorem Arrival.heard (h : Arrival gossip X msg v v') :
    v'.heard X = v.heard X ∨ v' = (v.count msg.sequence).take X msg ∧ v.entry.isSome = true := by
  rcases h with - | - | ⟨w, -, hw, -⟩ | ⟨w, -, hw, -⟩ | - | - | ⟨p, -, he, -⟩
  · exact Or.inl rfl
  · exact Or.inl PeerView.heard_exit
  · exact Or.inl (PeerView.heard_exit.trans hw.heard)
  · exact Or.inl (PeerView.heard_greet.trans hw.heard)
  · exact Or.inl PeerView.heard_exit
  · exact Or.inl PeerView.heard_exit
  · exact Or.inr ⟨rfl, by rw [he]; rfl⟩

/-- A message is heard if it is accepted and says something. -/
theorem Reception.heard (hcontent : msg.speech ≠ none → msg.content = some msg.contentFrames)
    (harrival : Arrival gossip X msg v v') (h : Reception X msg v b v') :
    v'.heard X = v.heard X ++ if b then msg.speech.toList else [] := by
  cases h with
  | ignored h => exact (List.append_nil _).symm
  | dropped hgone =>
    rcases harrival.heard with h | ⟨rfl, hsome⟩
    · rw [h]
      exact (List.append_nil _).symm
    · have hserial := PeerView.map_serial_take X msg (v.count msg.sequence)
      rw [hgone, PeerView.map_serial_count] at hserial
      rw [Option.map_eq_none_iff.mp hserial.symm] at hsome
      cases hsome
  | greeted w hid hw hseq =>
    have hmsg : msg.speech = none := by rw [Msg.speech, hid]
    rw [PeerView.heard_greet, hw.heard, hmsg]
    exact (List.append_nil _).symm
  | bye p hid he hr hseq hgone =>
    have hmsg : msg.speech = none := by rw [Msg.speech, hid]
    rcases harrival.heard with h | ⟨rfl, -⟩
    · rw [h, hmsg]
      exact (List.append_nil _).symm
    · rw [PeerView.heard_take _ hcontent]
      rfl
  | taken p hid he hr hseq => exact PeerView.heard_take _ hcontent

/-- What happens aside is no speech. -/
theorem Aside.heard {R : Set CStr} (h : Aside R X v v') : v'.heard X = v.heard X := by
  cases h with
  | removed q he hX => exact PeerView.heard_exit
  | _ => rfl

theorem Node.heard_eq_view (n : Node) (X : CStr) : n.heard X = (n.view X).heard X := n.heard_eq_log X

namespace Link

variable {gap : ℕ} {l l' : Link} {action : Action} {said : List Speech}

/-! ### Runs in which something is said -/

/-- A letter arrives in the frames it was posted in. -/
def Verbatim (l : Link) : Action → Prop
  | .deliver _ j frames => ∃ letter, l.sent[j]? = some letter ∧ frames = l.frames letter
  | _ => True

/-- What `a` is asked to say to `X`. -/
def Action.speech (X : CStr) : Action → List Speech
  | .sender _ input => input.speech X
  | _ => []

/-- The links of runs in which the application of `a` has asked it to say `said` to `b`. -/
inductive Spoken (gap : ℕ) : List Speech → Link → Prop
  | new (uuid uuid' : Uuid) (endpoint endpoint' : CStr) :
      Spoken gap [] ⟨Node.new uuid endpoint, Node.new uuid' endpoint', [], [], []⟩
  | step {said : List Speech} {l l' : Link} {action : Action} (hl : Spoken gap said l)
      (hc : l.Verbatim action) (h : Step gap l action l') : Spoken gap (said ++ action.speech l.b.identity) l'

/-- What is spoken on a link is spoken in a run of it. -/
theorem Spoken.run (h : Spoken gap said l) : Run gap (fun _ _ => True) l := by
  induction h with
  | new uuid uuid' endpoint endpoint' => exact .new uuid uuid' endpoint endpoint'
  | step hl hc h ih => exact ih.step trivial h

/-- The letters say what the node has said. -/
theorem Run.said_eq {C : Link → Action → Prop} (h : Run gap C l) :
    l.a.said l.b.identity = l.sent.filterMap Letter.speech := by
  rw [Node.said, h.posted.mail, List.filterMap_map]
  rfl

/-- **What is sent** has been said, in this order and nothing twice; what was said to a peer that is not
connected is missing. -/
theorem Spoken.said_sublist (h : Spoken gap said l) : (l.sent.filterMap Letter.speech).Sublist said := by
  rw [← h.run.said_eq]
  induction h with
  | new => exact List.Sublist.refl []
  | @step said l l' action hl hc h ih =>
    have hidentity : l'.b.identity = l.b.identity := congrArg Uuid.str h.identity.2
    rw [hidentity]
    cases h with
    | sender h =>
      obtain ⟨words, hwords, hsublist⟩ :=
        EStateM.wp_of_ok h (Node.step_said (X := l.b.identity) (Node.sturdy_of_reachable hl.run.reachable.1))
      show (Node.said _ l.b.identity).Sublist _
      rw [hwords]
      exact ih.append hsublist
    | receiver hinput h => exact ih.trans (List.sublist_append_left _ _)
    | deliver hj hletter hsender hmsg h => exact ih.trans (List.sublist_append_left _ _)

/-- The group of a SHOUT on its way fits its field. -/
theorem Spoken.group_length (h : Spoken gap said l) {group : CStr} {content : List Frame}
    (hmem : .shout group content ∈ said) : group.length < 256 := by
  induction h with
  | new => cases hmem
  | @step said l l' action hl hc h ih =>
    rcases List.mem_append.mp hmem with hmem | hmem
    · exact ih hmem
    · unfold Action.speech Input.speech at hmem
      split at hmem
      case h_1 input =>
        split at hmem
        · split_ifs at hmem
          · cases List.mem_singleton.mp hmem
          · cases hmem
        · cases List.mem_singleton.mp hmem
          exact Nat.lt_succ_of_le (CStr.length_truncate_le _ _)
        · cases hmem
      case h_2 => cases hmem

/-- What `b` accepts comes in order. -/
theorem Run.accepted_lt {C : Link → Action → Prop} (h : Run gap C l) :
    l.accepted.Pairwise (· < ·) ∧ ∀ i ∈ l.accepted, i < l.next := by
  induction h with
  | new => exact ⟨.nil, fun _ h => absurd h List.not_mem_nil⟩
  | @step l l' action hl hc h ih =>
    cases h with
    | sender h => exact ih
    | receiver hinput h => exact ih
    | @deliver env j frames letter b' hj hletter hsender hmsg h =>
      obtain ⟨hpairwise, hlt⟩ := ih
      have hlater : ∀ i ∈ l.accepted, i < j := fun i hi => (hlt i hi).trans_le hj.1
      have hnext : ∀ i, i ∈ l.accepted ∨ i = j → i < j + 1 := by
        rintro i (hi | rfl)
        · exact Nat.lt_succ_of_lt (hlater i hi)
        · exact Nat.lt_succ_self i
      rw [next_of_delivered rfl]
      split_ifs
      · refine ⟨List.pairwise_append.mpr ⟨hpairwise, List.pairwise_singleton _ _, fun i hi i' hi' => ?_⟩,
          fun i hi => ?_⟩
        · exact List.mem_singleton.mp hi' ▸ hlater i hi
        · exact hnext i ((List.mem_append.mp hi).imp_right List.mem_singleton.mp)
      · exact ⟨hpairwise, fun i hi => hnext i (Or.inl hi)⟩

/-- What is accepted has been sent. -/
theorem Run.accepted_sent {C : Link → Action → Prop} (h : Run gap C l) :
    ∀ i ∈ l.accepted, ∃ m, l.sent[i]? = some m := by
  induction h with
  | new => exact fun _ h => absurd h List.not_mem_nil
  | @step l l' action hl hc h ih =>
    have hkept : ∀ i ∈ l.accepted, ∃ m, l'.sent[i]? = some m := fun i hi => by
      obtain ⟨m, hm⟩ := ih i hi
      exact ⟨m, h.sent hm⟩
    cases h with
    | sender h => exact hkept
    | receiver hinput h => exact hkept
    | @deliver env j frames letter b' hj hletter hsender hmsg h =>
      intro i hi
      split_ifs at hi
      · rcases List.mem_append.mp hi with hi | hi
        · exact hkept i hi
        · exact ⟨letter, List.mem_singleton.mp hi ▸ hletter⟩
      · exact hkept i hi

/-- What a SHOUT that is on its way says fits. -/
theorem Spoken.fits (h : Spoken gap said l) {letter : Letter} (hletter : letter ∈ l.sent)
    (hid : letter.msg.id = .shout) : letter.msg.group.length < 256 := by
  have hspeech : letter.speech = some (.shout letter.msg.group letter.msg.contentFrames) := by
    rw [Letter.speech, Msg.speech, hid]
  refine h.group_length (h.said_sublist.subset (List.mem_filterMap.mpr ⟨letter, hletter, hspeech⟩))

/-- What the letters say that have been accepted. -/
def words (l : Link) : List Speech := l.accepted.filterMap fun j => (l.sent[j]?).bind Letter.speech

/-- `b` has heard what the letters say that it has accepted. -/
theorem Spoken.heard_eq (h : Spoken gap said l) : l.b.heard l.a.identity = l.words := by
  induction h with
  | new => rfl
  | @step said l l' action hl hc h ih =>
    have hidentity : l'.a.identity = l.a.identity := congrArg Uuid.str h.identity.1
    rw [hidentity]
    -- Letters stay where they are in the list of those sent, so that earlier words stay the same.
    have hkept : l.accepted.filterMap (fun j => (l'.sent[j]?).bind Letter.speech) = l.words := by
      refine List.filterMap_congr fun j hj => ?_
      obtain ⟨m, hm⟩ := hl.run.accepted_sent j hj
      rw [hm, h.sent hm]
    cases h with
    | sender h => exact ih.trans hkept.symm
    | @receiver env input b' hinput h =>
      have hX : ∀ uuid, Node.Sender input uuid → uuid.str ≠ l.a.identity := fun uuid huuid heq =>
        hinput uuid huuid (Uuid.str_injective heq)
      -- An input that is not from `a` tells the application of `b` nothing of `a`.
      have haside := EStateM.wp_of_ok h (Node.step_aside hX)
      show b'.heard l.a.identity = _
      rw [Node.heard_eq_view, haside.heard, ← Node.heard_eq_view]
      exact ih
    | @deliver env j frames letter b' hj hletter hsender hmsg h =>
      obtain ⟨letter', hletter', rfl⟩ := hc
      obtain rfl := Option.some_inj.mp (hletter.symm.trans hletter')
      have hrecv : Node.recvMsg env l.a.uuid (Msg.recv (l.frames letter)).msg l.b = .ok ⟨⟩ b' := by
        rw [← Node.recvPeer_of_sender hsender]
        exact h
      obtain ⟨v, harrival, hreaches⟩ := EStateM.wp_of_ok hrecv Node.recvMsg_spec
      -- The frames are those posted, so that what is read says what the letter says.
      have hreception := Node.reception hrecv
      rw [hreaches.view] at hreception
      obtain ⟨hspeech, hcontent⟩ := speech_recv (hl.fits (List.mem_of_getElem? hletter)) (1 :: l.a.uuid.data)
      have hheard := hreception.heard hcontent harrival
      show b'.heard l.a.uuid.str = _
      rw [Node.heard_eq_view, hreaches.view, hheard, ← Node.heard_eq_view]
      show l.b.heard l.a.identity ++ _ = List.filterMap _ (if _ then _ else _)
      rw [ih]
      split_ifs
      · rw [List.filterMap_append]
        refine congrArg (_ ++ ·) ?_
        show (Msg.recv (_ :: letter.msg.frames)).msg.speech.toList = List.filterMap _ [j]
        rw [hspeech]
        show letter.speech.toList = _
        cases hsays : letter.speech <;> simp [hletter, hsays]
      · exact List.append_nil _

/-! ### Sessions -/

/-- **What is taken** has been said, in this order and nothing twice. -/
theorem Spoken.words_sublist (h : Spoken gap said l) : l.words.Sublist said := by
  have hpicked : (l.accepted.filterMap fun i => l.sent[i]?).Sublist l.sent :=
    List.sublist_drop h.run.accepted_lt.1 0 fun i _ => Nat.zero_le i
  have hsublist := hpicked.filterMap Letter.speech
  rw [List.filterMap_filterMap] at hsublist
  exact hsublist.trans h.said_sublist

/-- The sender takes an input. -/
theorem Spoken.send {said' : List Speech} (h : Spoken gap said l) (env : Env) (input : Input)
    (hsaid : said ++ input.speech l.b.identity = said')
    (hok : (Node.step env input l.a matches .ok ..) = true) : Spoken gap said' (l.send env input) := by
  have hverbatim : l.Verbatim (.sender env input) := trivial
  exact hsaid ▸ h.step hverbatim (.sender (Node.step_eq_of_isOk hok))

/-- A letter is delivered. -/
theorem Spoken.deliver (h : Spoken gap said l) (env : Env) (j : ℕ) (hj : l.Deliverable gap j)
    (hfits : ∀ m ∈ l.sent[j]?, m.groups.length < 2 ^ 32 ∧ ∀ name ∈ m.groups, name.length < 2 ^ 32)
    (hok : ∀ m ∈ l.sent[j]?, (Node.step env (.inbox (l.frames m)) l.b matches .ok ..) = true) :
    Spoken gap said (l.deliver env j) := by
  cases hletter : l.sent[j]? with
  | none =>
    unfold Link.deliver
    rwa [hletter]
  | some m =>
    obtain ⟨hgroups, hnames⟩ := hfits m hletter
    have hm := fits_of_posted h.run.posted (List.mem_of_getElem? hletter) hgroups hnames
    have hverbatim : l.Verbatim (.deliver env j (l.frames m)) := ⟨m, hletter, rfl⟩
    have hstep : Spoken gap (said ++ []) (l.deliver env j) :=
      h.step hverbatim (step_deliver hj hletter hm (hok m hletter))
    rwa [List.append_nil] at hstep

/-- A GOODBYE from the peer that has said `sampleHello`. -/
def sampleGoodbye : Msg := (Msg.new .goodbye).setSequence 2

/-- The first node has joined a group and said something to the second one, which has heard all. -/
def sampleHeard : Link :=
  sampleLink
    |>.send (Node.sampleEnv 0) (.api (.whisper (Node.sampleUuid 1).str [[1, 2], []]))
    |>.deliver (Node.sampleEnv 0) 0
    |>.deliver (Node.sampleEnv 0) 1
    |>.deliver (Node.sampleEnv 0) 2

/-- It has said two more things, of which the first is lost: the session has ended. -/
def sampleBroken : Link :=
  sampleHeard
    |>.send (Node.sampleEnv 0) (.api (.whisper (Node.sampleUuid 1).str [[3]]))
    |>.send (Node.sampleEnv 0) (.api (.whisper (Node.sampleUuid 1).str [[4]]))
    |>.deliver (Node.sampleEnv 0) 4

/-- It has met the second node again, which has taken leave, and said a last thing to it. -/
def sampleSpoken : Link :=
  sampleBroken
    |>.send (Node.sampleEnv 0) (Node.sampleInput 1 sampleGoodbye)
    |>.send (Node.sampleEnv 0) (Node.sampleInput 1 Node.sampleHello)
    |>.send (Node.sampleEnv 0) (.api (.whisper (Node.sampleUuid 1).str [[5]]))
    |>.deliver (Node.sampleEnv 0) 5
    |>.deliver (Node.sampleEnv 0) 6

end Link

end Zyre
