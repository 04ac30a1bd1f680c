import Zyre.Msg.Layout

/-!
# What decoding fills in and leaves behind

Once a decoder has filled in the id or a list, it stays filled in, and what comes behind the first frame
stays in the socket. Only a complete WHISPER or SHOUT takes that as its content, all of it: every
other command, and every frame that is not complete, leaves it to the next receive (`Msg.recv_rest`).
-/

namespace Zyre

/-- WHISPER and SHOUT. -/
def MsgId.hasContent (id : MsgId) : Prop := id = .whisper ∨ id = .shout

namespace Decoder

/-! ### What a decoder has filled in stays -/

/-- The message keeps its id and the lists it has, and the frames behind the first one are still in the
socket. -/
def Fills (r r' : Reader) : Prop :=
  r'.msg.id = r.msg.id ∧ (r.msg.groups ≠ none → r'.msg.groups ≠ none) ∧
    (r.msg.headers ≠ none → r'.msg.headers ≠ none) ∧ r'.rest = r.rest

instance : Std.Refl Fills := ⟨fun _ => ⟨rfl, id, id, rfl⟩⟩

instance : IsTrans Reader Fills := ⟨fun _ _ _ h h' =>
  ⟨h'.1.trans h.1, h'.2.1 ∘ h.2.1, h'.2.2.1 ∘ h.2.2.1, h'.2.2.2.trans h.2.2.2⟩⟩

/-- A decoder that only fills in. -/
abbrev Filling {α : Type} (x : Decoder α) : Prop := ∀ r, x.Keeps Fills (fun _ _ => True) r

variable {α β : Type} {f : Msg → Msg}

/-- Two decoders that only fill in, one behind the other, only fill in. -/
theorem filling_bind {x : Decoder α} {g : α → Decoder β} (hx : Filling x)
    (hg : ∀ a, Filling (g a)) : Filling (x >>= g) :=
  fun r => .bind (hx r) fun a r' _ => hg a r'

theorem filling_pure (a : α) : Filling (pure a : Decoder α) := fun _ => .pure a

/-- A store only fills in if it leaves the id and empties no table. -/
theorem filling_assign (hid : ∀ m, (f m).id = m.id)
    (hgroups : ∀ m, m.groups ≠ none → (f m).groups ≠ none)
    (hheaders : ∀ m, m.headers ≠ none → (f m).headers ≠ none) : Filling (assign f) :=
  fun r => ⟨hid r.msg, hgroups r.msg, hheaders r.msg, rfl⟩

/-- Reading bytes stores nothing in the message. -/
theorem filling_getOctets (size : ℕ) : Filling (getOctets size) := by
  intro r
  unfold EStateM.Keeps EStateM.wp
  rw [getOctets_eq]
  split_ifs
  · exact ⟨⟨rfl, id, id, rfl⟩, trivial⟩
  · exact ⟨rfl, id, id, rfl⟩

theorem filling_getNumber1 : Filling getNumber1 :=
  filling_bind (filling_getOctets 1) fun _ => filling_pure _

theorem filling_getNumber2 : Filling getNumber2 :=
  filling_bind (filling_getOctets 2) fun _ => filling_pure _

theorem filling_getNumber4 : Filling getNumber4 :=
  filling_bind (filling_getOctets 4) fun _ => filling_pure _

theorem filling_getString : Filling getString :=
  filling_bind filling_getNumber1 fun _ => filling_bind (filling_getOctets _) fun _ => filling_pure _

theorem filling_getLongstr : Filling getLongstr :=
  filling_bind filling_getNumber4 fun _ => filling_bind (filling_getOctets _) fun _ => filling_pure _

theorem filling_getSequence : Filling getSequence :=
  filling_bind filling_getNumber2 fun _ =>
    filling_assign (fun _ => rfl) (fun _ h => h) fun _ h => h

theorem filling_getStatus : Filling getStatus :=
  filling_bind filling_getNumber1 fun _ =>
    filling_assign (fun _ => rfl) (fun _ h => h) fun _ h => h

theorem filling_getGroup : Filling getGroup :=
  filling_bind filling_getString fun _ =>
    filling_assign (fun _ => rfl) (fun _ h => h) fun _ h => h

/-- The loop over the groups appends to the list that is there. -/
theorem filling_getGroupList (listSize : ℕ) : Filling (getGroupList listSize) := by
  induction listSize with
  | zero => exact filling_pure _
  | succ listSize ih =>
    exact filling_bind filling_getLongstr fun _ => filling_bind
      (filling_assign (fun _ => rfl) (fun _ h => by simpa using h) fun _ h => h) fun _ => ih

/-- The loop over the headers inserts into the table that is there. -/
theorem filling_getHeaderList (hashSize : ℕ) : Filling (getHeaderList hashSize) := by
  induction hashSize with
  | zero => exact filling_pure _
  | succ hashSize ih =>
    exact filling_bind filling_getString fun _ => filling_bind filling_getLongstr fun _ =>
      filling_bind (filling_assign (fun _ => rfl) (fun _ h => h) fun _ h => by simpa using h)
        fun _ => ih

theorem filling_string (g : CStr → Msg → Msg) (hid : ∀ s m, (g s m).id = m.id)
    (hgroups : ∀ s m, (g s m).groups = m.groups) (hheaders : ∀ s m, (g s m).headers = m.headers) :
    Filling (do assign (g (← getString))) :=
  filling_bind filling_getString fun s => filling_assign (hid s)
    (fun m h => by rwa [hgroups]) fun m h => by rwa [hheaders]

/-- The fields of HELLO: both lists are there at the end. -/
theorem getBody_hello (r : Reader) :
    (getBody .hello).wp (fun _ r' => r'.msg.groups ≠ none ∧ r'.msg.headers ≠ none)
      (fun _ _ => True) r := by
  -- One more decoder that only fills in, before the rest.
  have hthen : ∀ {α : Type} {x : Decoder α} {g : α → Decoder Unit} {P : Reader → Prop} {r : Reader},
      Filling x → (∀ r r', Fills r r' → P r → P r') → P r →
      (∀ a r, P r → (g a).wp (fun _ r' => r'.msg.groups ≠ none ∧ r'.msg.headers ≠ none)
        (fun _ _ => True) r) →
      (x >>= g).wp (fun _ r' => r'.msg.groups ≠ none ∧ r'.msg.headers ≠ none) (fun _ _ => True) r := by
    intro α x g P r hx hmono hP hg
    exact EStateM.wp_bind .. |>.mpr (EStateM.wp_mono (hx r)
      (fun a r' hr' => hg a r' (hmono r r' hr' hP)) fun _ _ _ => trivial)
  have htrue : ∀ r r', Fills r r' → True → True := fun _ _ _ h => h
  have hgroups : ∀ r r', Fills r r' → r.msg.groups ≠ none → r'.msg.groups ≠ none :=
    fun _ _ h => h.2.1
  refine hthen filling_getSequence htrue trivial fun _ r _ => hthen filling_getString htrue trivial
    fun endpoint r _ => hthen (filling_assign (fun _ => rfl) (fun _ h => h) fun _ h => h) htrue trivial
    fun _ r _ => hthen filling_getNumber4 htrue trivial fun listSize r _ => ?_
  refine EStateM.wp_bind .. |>.mpr (EStateM.wp_modify .. |>.mpr ?_)
  refine hthen (filling_getGroupList _) hgroups (by simp) fun _ r hr =>
    hthen filling_getStatus hgroups hr fun _ r hr => hthen filling_getString hgroups hr
    fun name r hr => hthen (filling_assign (fun _ => rfl) (fun _ h => h) fun _ h => h) hgroups hr
    fun _ r hr => hthen filling_getNumber4 hgroups hr fun hashSize r hr => ?_
  refine EStateM.wp_bind .. |>.mpr (EStateM.wp_modify .. |>.mpr ?_)
  refine EStateM.wp_mono (filling_getHeaderList _ _) (fun _ r' hr' => ?_) fun _ _ _ => trivial
  exact ⟨hr'.2.1 hr, hr'.2.2.1 (by simp)⟩

/-- The fields of the commands without content. -/
theorem filling_getBody {id : MsgId} (hid : ¬id.hasContent) : Filling (getBody id) := by
  have hgroup := filling_getGroup
  have hfield : ∀ f : Msg → Msg, (∀ m, (f m).id = m.id) → (∀ m, (f m).groups = m.groups) →
      (∀ m, (f m).headers = m.headers) → Filling (assign f) := fun f hid hgroups hheaders =>
    filling_assign hid (fun m h => by rwa [hgroups]) fun m h => by rwa [hheaders]
  cases id with
  | hello =>
    refine filling_bind filling_getSequence fun _ => filling_bind filling_getString fun _ =>
      filling_bind (hfield _ (fun _ => rfl) (fun _ => rfl) fun _ => rfl) fun _ => ?_
    refine filling_bind filling_getNumber4 fun _ => filling_bind
      (filling_assign (fun _ => rfl) (fun _ _ => by simp) fun _ h => h) fun _ => ?_
    refine filling_bind (filling_getGroupList _) fun _ => filling_bind filling_getStatus fun _ =>
      filling_bind filling_getString fun _ => ?_
    refine filling_bind (hfield _ (fun _ => rfl) (fun _ => rfl) fun _ => rfl) fun _ => ?_
    exact filling_bind filling_getNumber4 fun _ => filling_bind
      (filling_assign (fun _ => rfl) (fun _ h => h) fun _ _ => by simp) fun _ =>
        filling_getHeaderList _
  | unset => exact filling_pure _
  | whisper => exact absurd (Or.inl rfl) hid
  | shout => exact absurd (Or.inr rfl) hid
  | join =>
    exact filling_bind filling_getSequence fun _ => filling_bind hgroup fun _ => filling_getStatus
  | leave =>
    exact filling_bind filling_getSequence fun _ => filling_bind hgroup fun _ => filling_getStatus
  | ping => exact filling_getSequence
  | pingOk => exact filling_getSequence
  | goodbye => exact filling_getSequence
  | elect =>
    exact filling_bind filling_getSequence fun _ => filling_bind hgroup fun _ =>
      filling_string _ (fun _ _ => rfl) (fun _ _ => rfl) fun _ _ => rfl
  | leader =>
    exact filling_bind filling_getSequence fun _ => filling_bind hgroup fun _ =>
      filling_string _ (fun _ _ => rfl) (fun _ _ => rfl) fun _ _ => rfl

/-- The fields before the content, and the content: all frames behind the first one. -/
theorem getBody_content {id : MsgId} (hid : id.hasContent) (r : Reader) :
    (getBody id).wp (fun _ r' => r'.msg.id = r.msg.id ∧ r'.msg.content = some r.rest ∧ r'.rest = [])
      (fun _ r' => r'.rest = r.rest) r := by
  have hlast : ∀ {x : Decoder Unit}, Filling x → (x >>= fun _ => getContent).wp
      (fun _ r' => r'.msg.id = r.msg.id ∧ r'.msg.content = some r.rest ∧ r'.rest = [])
      (fun _ r' => r'.rest = r.rest) r := by
    intro x hx
    refine EStateM.wp_bind .. |>.mpr (EStateM.wp_mono (hx r) (fun _ r₁ h => ?_) fun _ _ h => h.1.2.2.2)
    exact ⟨h.1, congrArg some h.2.2.2, rfl⟩
  rcases hid with rfl | rfl
  · exact hlast filling_getSequence
  · have h := hlast (filling_bind filling_getSequence fun _ => filling_getGroup)
    simp only [EStateM.wp_bind] at h
    simpa only [getBody, EStateM.wp_bind] using h

theorem filling_getVersion : Filling getVersion :=
  filling_bind filling_getNumber1 fun version r => by
    by_cases h : version = 2
    · rw [if_neg (not_not_intro h)]; exact .pure _
    · rw [if_pos h]; exact ⟨refl r, trivial⟩

/-! ### The frames left in the socket -/

/-- A complete WHISPER or SHOUT, which takes all frames behind it. -/
def Grabs (frame : Frame) : Prop :=
  ∃ id : MsgId, id.hasContent ∧ ∃ body, frame = 0xAA :: 0xA1 :: id.toByte :: 2 :: body ∧
    ∃ w ∈ layout id, w <+: body

theorem ne_unset_of_hasContent {id : MsgId} (hid : id.hasContent) : id ≠ .unset := by
  rcases hid with rfl | rfl <;> decide

/-- A frame that takes all frames behind it is complete. -/
theorem Grabs.complete {frame : Frame} (h : Grabs frame) : Complete frame := by
  obtain ⟨id, hid, body, hframe, hw⟩ := h
  exact complete_iff.mpr ⟨id, ne_unset_of_hasContent hid, body, hframe, hw⟩

/-- A complete command is read to its end, by the decoder of its id. -/
theorem getMessage_of_complete {frame : Frame} (h : Complete frame) (m : Msg) (rest : List Frame) :
    ∃ (id : MsgId) (body : List UInt8) (r : Reader), (id.hasContent ↔ Grabs frame) ∧
      getMessage ⟨m, frame, rest⟩ = .ok ⟨⟩ r ∧
      getBody id ⟨{ m with id := id }, body, rest⟩ = .ok ⟨⟩ r := by
  obtain ⟨id, hid, body, rfl, hw⟩ := complete_iff.mp h
  have hheader : getMessage ⟨m, 0xAA :: 0xA1 :: id.toByte :: 2 :: body, rest⟩ =
      getBody id ⟨{ m with id := id }, body, rest⟩ := getMessage_header m id hid 2 body rest
  obtain ⟨⟨⟩, r, hr⟩ := ((getBody_reads id).ok_iff (s := ⟨{ m with id := id }, body, rest⟩)).mpr hw
  refine ⟨id, body, r, ⟨fun hcontent => ⟨id, hcontent, body, rfl, hw⟩, ?_⟩, hheader.trans hr, hr⟩
  rintro ⟨id', hcontent, body', hframe, -⟩
  simp only [List.cons.injEq, true_and] at hframe
  exact toByte_inj hframe.1 ▸ hcontent

/-- What a decoder that stops early leaves in the socket. -/
theorem getMessage_error (r : Reader) :
    getMessage.wp (fun _ _ => True) (fun _ r' => r'.rest = r.rest) r := by
  refine EStateM.wp_bind .. |>.mpr (EStateM.wp_mono (filling_getNumber2 r) (fun _ r₁ h₁ => ?_)
    fun _ _ h => h.1.2.2.2)
  rw [← h₁.2.2.2, EStateM.wp_ite]
  refine ⟨fun _ => rfl, fun _ => ?_⟩
  refine EStateM.wp_bind .. |>.mpr (EStateM.wp_mono (filling_getNumber1 r₁) (fun byte r₂ h₂ => ?_)
    fun _ _ h => h.1.2.2.2)
  rw [← h₂.2.2.2]
  cases MsgId.ofByte? byte with
  | none => exact rfl
  | some id =>
    refine EStateM.wp_bind .. |>.mpr (EStateM.wp_modify .. |>.mpr ?_)
    refine EStateM.wp_bind .. |>.mpr (EStateM.wp_mono (filling_getVersion _) (fun _ r₃ h₃ => ?_)
      fun _ _ h => h.1.2.2.2)
    have hrest : r₃.rest = r₂.rest := h₃.2.2.2
    rw [← hrest]
    by_cases hid : id.hasContent
    · exact EStateM.wp_mono (getBody_content hid r₃) (fun _ _ _ => trivial) fun _ _ h => h
    · exact EStateM.wp_mono (filling_getBody hid r₃) (fun _ _ _ => trivial) fun _ _ h => h.1.2.2.2

end Decoder

open Decoder in
/-- The frames of a message that one receive leaves in the socket. -/
theorem Msg.recv_rest (identity frame : Frame) (rest : List Frame) :
    (Grabs frame → (Msg.recv (identity :: frame :: rest)).rest = []) ∧
      (¬Grabs frame → (Msg.recv (identity :: frame :: rest)).rest = rest) := by
  have herror : ∀ {e r}, getMessage ⟨Msg.new .unset, frame, rest⟩ = .error e r → r.rest = rest :=
    fun h => (EStateM.wp_of_error h (getMessage_error _) :)
  rcases getMessage_cases frame (Msg.new .unset) rest with ⟨hcomplete, -⟩ | ⟨hnot, -, r, hr⟩ |
    ⟨hnot, -, r, hr⟩
  · obtain ⟨id, body, r, hgrabs, hr, hbody⟩ := getMessage_of_complete hcomplete (Msg.new .unset) rest
    simp only [Msg.recv, hr, ← hgrabs]
    refine ⟨fun hid => ?_, fun hid => ?_⟩
    · exact (EStateM.wp_of_ok hbody (getBody_content hid _) :).2.2
    · exact (EStateM.wp_of_ok hbody (filling_getBody hid _) :).2.2.2
  · simp only [Msg.recv, hr]
    exact ⟨fun h => absurd h.complete hnot, fun _ => herror hr⟩
  · simp only [Msg.recv, hr]
    exact ⟨fun h => absurd h.complete hnot, fun _ => herror hr⟩

end Zyre
