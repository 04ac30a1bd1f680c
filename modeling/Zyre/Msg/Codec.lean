import Zyre.Msg.RoundTrip

/-!
# The round trip of a message

`zre_msg_recv` gives back what `zre_msg_send` was given, for every command and all of its fields
(`recv_frames`), as long as the lists, the dictionary and the texts in them can be counted in the bytes
the format has for it (`Msg.Whole`). And whatever arrives can be sent on: it is received once more as it
was (`recv_recv`). A dictionary is given back up to the order of its entries.
-/

namespace Zyre

namespace Msg

/-- What can be counted in the bytes of the format. The fixed fields are of type `char [256]`. -/
structure Whole (m : Msg) : Prop where
  id : m.id ≠ .unset
  endpoint : m.endpoint.length ≤ fieldSize
  name : m.name.length ≤ fieldSize
  group : m.group.length ≤ fieldSize
  challengerId : m.challengerId.length ≤ fieldSize
  leaderId : m.leaderId.length ≤ fieldSize
  groupCount : (m.groups.getD []).length < 2 ^ 32
  groups : ∀ name ∈ m.groups.getD [], name.length < 2 ^ 32
  headerCount : (m.headers.getD ∅).entries.length < 2 ^ 32
  headers : ∀ e ∈ (m.headers.getD ∅).entries, e.1.length < 256 ∧ e.2.length < 2 ^ 32

/-- The fields of the command. Where there is no list, no dictionary or no content, `zre_msg_send` sends
an empty list, an empty dictionary or one empty frame. -/
def carried (m : Msg) : Msg :=
  let new := (Msg.new m.id).setSequence m.sequence
  match m.id with
  | .hello => { new with
      endpoint := m.endpoint
      groups := some (m.groups.getD [])
      status := m.status
      name := m.name
      headers := some (m.headers.getD ∅) }
  | .whisper => { new with content := some (m.content.getD [[]]) }
  | .shout => { new with group := m.group, content := some (m.content.getD [[]]) }
  | .join | .leave => { new with group := m.group, status := m.status }
  | .elect => { new with group := m.group, challengerId := m.challengerId }
  | .leader => { new with group := m.group, leaderId := m.leaderId }
  | .ping | .pingOk | .goodbye | .unset => new

/-- Two messages are the same up to the order of the headers. -/
structure Alike (m m' : Msg) : Prop where
  fields : { m with headers := none } = { m' with headers := none }
  headers : ∀ key, m.headers.map (·.lookup key) = m'.headers.map (·.lookup key)

/-- A message is like itself. -/
theorem Alike.refl (m : Msg) : m.Alike m := ⟨rfl, fun _ => rfl⟩

end Msg

variable {m : Msg}

namespace Decoder

variable {β γ : Type} {x : Decoder γ} {y : γ → Decoder β} {c : γ} {b : β} {w w' : List UInt8} {f' : Msg → Msg}

/-- A field that is read and assigned before the rest. -/
theorem Yields.field {h : γ → Msg → Msg} (hx : Yields x w c id) (hy : Yields (y c) w' b f') :
    Yields (do
      let c ← x
      Decoder.assign (h c)
      y c) (w ++ w') b (f' ∘ h c) :=
  hx.bind (g := fun c => do
    Decoder.assign (h c)
    y c) (assign_yields.bind (g := fun _ => y c) hy)

/-- The loop over the headers reads back the entries that `zre_msg_send` has put there, one by one. -/
theorem getHeaderList_yields {entries : List (Sigma fun _ : CStr => CStr)}
    (h : ∀ e ∈ entries, e.1.length < 256 ∧ e.2.length < 2 ^ 32) :
    Yields (getHeaderList entries.length) (entries.flatMap fun e => putString e.1 ++ putLongstr e.2) ⟨⟩
      fun m => { m with
        headers := m.headers.map fun t => entries.foldl (fun t e => t.insertNew e.1 e.2) t } := by
  induction entries with
  | nil =>
    intro m tail rest
    cases m with
    | mk id sequence endpoint groups status name headers => cases headers <;> rfl
  | cons e entries ih =>
    have hrest := ih fun e' he' => h e' (List.mem_cons_of_mem _ he')
    obtain ⟨hkey, hvalue⟩ := h e List.mem_cons_self
    have hvalue : Yields (do
        let value ← getLongstr
        assign fun m => { m with headers := m.headers.map (·.insertNew e.1 value) }
        getHeaderList entries.length) _ ⟨⟩ _ := (getLongstr_yields hvalue).field hrest
    have hall : Yields (getHeaderList (e :: entries).length) _ ⟨⟩ _ := (getString_yields hkey).bind hvalue
    intro m tail rest
    refine Eq.trans ?_ ((hall m tail rest).trans ?_)
    · simp
    · simp [Option.map_map, Function.comp_def]

/-- The dictionary that the receiver of the entries builds. -/
def rebuilt (headers : Headers) : Headers :=
  headers.entries.foldl (fun t e => t.insertNew e.1 e.2) ∅

/-- The table that is filled again from its entries answers as the old one does. -/
theorem lookup_rebuilt (headers : Headers) (key : CStr) :
    (rebuilt headers).lookup key = headers.lookup key := by
  rw [rebuilt, AList.lookup_foldl_insertNew, AList.lookup_empty, Option.none_or]
  rfl

/-- **The HELLO**, with its groups and headers, is read as it was written. -/
theorem getBody_hello_yields (hm : m.Whole) : Yields (getBody .hello)
    (putNumber2 m.sequence.toNat ++ (putString m.endpoint ++ (putNumber4 (m.groups.getD []).length ++
      ((m.groups.getD []).flatMap putLongstr ++ (putNumber1 m.status.toNat ++ (putString m.name ++
        (putNumber4 (m.headers.getD ∅).entries.length ++
          (m.headers.getD ∅).entries.flatMap fun e => putString e.1 ++ putLongstr e.2)))))))
    ⟨⟩ fun m₀ => { m₀ with
      sequence := m.sequence
      endpoint := m.endpoint
      groups := some (m.groups.getD [])
      status := m.status
      name := m.name
      headers := some (rebuilt (m.headers.getD ∅)) } := by
  have h : Yields (getBody .hello) _ ⟨⟩ _ :=
    (getSequence_yields m.sequence).bind <|
    (getString_yields (Nat.lt_succ_iff.mpr hm.endpoint)).field <|
    (getNumber4_yields hm.groupCount).field <|
    (getGroupList_yields hm.groups).bind <|
    (getStatus_yields m.status).bind <|
    (getString_yields (Nat.lt_succ_iff.mpr hm.name)).field <|
    (getNumber4_yields hm.headerCount).field (getHeaderList_yields hm.headers)
  intro m₀ tail rest
  exact h m₀ tail rest

/-- The first frame is read to its end, and the content behind it is taken. -/
theorem getBody_frames (hm : m.Whole) : ∃ m', m'.Alike m.carried ∧
    getBody m.id ⟨{ Msg.new .unset with id := m.id }, m.encodeBody, m.contentFrames⟩ =
      .ok ⟨⟩ ⟨m', [], []⟩ := by
  have hsequence := getSequence_yields m.sequence
  have hgroup := getGroup_yields (Nat.lt_succ_iff.mpr hm.group)
  have hstatus := getStatus_yields m.status
  -- The commands whose fields are all in the first frame, except HELLO.
  have hplain : m.carried.headers = none → m.contentFrames = [] →
      (∃ f, Yields (getBody m.id) m.encodeBody ⟨⟩ f ∧
        f { Msg.new .unset with id := m.id } = m.carried) →
      ∃ m', m'.Alike m.carried ∧
        getBody m.id ⟨{ Msg.new .unset with id := m.id }, m.encodeBody, m.contentFrames⟩ =
          .ok ⟨⟩ ⟨m', [], []⟩ := by
    rintro - hcontent ⟨f, hf, hcarried⟩
    refine ⟨m.carried, .refl _, ?_⟩
    rw [hcontent, ← hcarried]
    simpa using hf { Msg.new .unset with id := m.id } [] []
  cases hid : m.id with
  | unset => exact absurd hid hm.id
  | hello =>
    have h := getBody_hello_yields hm { Msg.new .unset with id := .hello } [] []
    refine ⟨{ m.carried with headers := some (rebuilt (m.headers.getD ∅)) }, ⟨rfl, fun key => ?_⟩, ?_⟩
    · simp [Msg.carried, hid, lookup_rebuilt]
    · rw [Msg.encodeBody, Msg.contentFrames, hid]
      simpa [Msg.putGroups, Msg.putHeaders, Msg.carried, hid, Msg.new, Msg.setSequence] using h
  | whisper =>
    refine ⟨m.carried, .refl _, ?_⟩
    rw [Msg.encodeBody, Msg.contentFrames, Msg.carried, hid]
    exact (EStateM.bind_of_ok (hsequence _ [] _)).trans rfl
  | shout =>
    refine ⟨m.carried, .refl _, ?_⟩
    rw [Msg.encodeBody, Msg.contentFrames, Msg.carried, hid]
    refine (EStateM.bind_of_ok (hsequence _ (putString m.group) _)).trans ?_
    have h := hgroup { Msg.new .unset with id := .shout, sequence := m.sequence } [] (m.content.getD [[]])
    rw [List.append_nil] at h
    exact (EStateM.bind_of_ok h).trans rfl
  | join | leave =>
    rw [← hid]
    refine hplain (by simp [Msg.carried, hid, Msg.new, Msg.setSequence]) (by simp [Msg.contentFrames, hid]) ?_
    rw [Msg.encodeBody, Msg.carried, hid]
    exact ⟨_, hsequence.bind (hgroup.bind hstatus), rfl⟩
  | ping | pingOk | goodbye =>
    rw [← hid]
    refine hplain (by simp [Msg.carried, hid, Msg.new, Msg.setSequence]) (by simp [Msg.contentFrames, hid]) ?_
    rw [Msg.encodeBody, Msg.carried, hid, List.append_nil]
    exact ⟨_, hsequence, rfl⟩
  | elect =>
    rw [← hid]
    refine hplain (by simp [Msg.carried, hid, Msg.new, Msg.setSequence]) (by simp [Msg.contentFrames, hid]) ?_
    rw [Msg.encodeBody, Msg.carried, hid]
    exact ⟨_, hsequence.bind (hgroup.bind
      ((getString_yields (Nat.lt_succ_iff.mpr hm.challengerId)).assign)), rfl⟩
  | leader =>
    rw [← hid]
    refine hplain (by simp [Msg.carried, hid, Msg.new, Msg.setSequence]) (by simp [Msg.contentFrames, hid]) ?_
    rw [Msg.encodeBody, Msg.carried, hid]
    exact ⟨_, hsequence.bind (hgroup.bind
      ((getString_yields (Nat.lt_succ_iff.mpr hm.leaderId)).assign)), rfl⟩

/-! ### What is read can be written -/

/-- A decoder that leaves the message and the frames behind alone and returns something with `P`. -/
def Finds (P : γ → Prop) (x : Decoder γ) : Prop :=
  ∀ r, x.wp (fun c r' => P c ∧ r'.msg = r.msg ∧ r'.rest = r.rest) (fun _ _ => True) r

/-- What two decoders find one behind the other. -/
theorem Finds.bind {P : γ → Prop} {P' : β → Prop} (hx : Finds P x) (hy : ∀ c, P c → Finds P' (y c)) :
    Finds P' (x >>= y) := fun r => by
  refine EStateM.wp_bind .. |>.mpr (EStateM.wp_mono (hx r) (fun c r₁ h => ?_) fun _ _ _ => trivial)
  refine EStateM.wp_mono (hy c h.1 r₁) (fun b r₂ h' => ?_) fun _ _ _ => trivial
  exact ⟨h'.1, h'.2.1.trans h.2.1, h'.2.2.trans h.2.2⟩

theorem Finds.pure {P : γ → Prop} (hc : P c) : Finds P (Pure.pure c : Decoder γ) :=
  fun _ => ⟨hc, rfl, rfl⟩

/-- As many bytes as were asked for. -/
theorem getOctets_finds (size : ℕ) : Finds (fun bs => bs.length = size) (getOctets size) := fun r => by
  unfold EStateM.wp
  rw [getOctets_eq]
  split_ifs with h
  · trivial
  · exact ⟨List.length_take_of_le (not_lt.mp h), rfl, rfl⟩

/-- A number is below the bound its bytes allow. -/
theorem numberOf_lt (bs : List UInt8) : numberOf bs < 256 ^ bs.length := by
  induction bs using List.reverseRecOn with
  | nil => simp [numberOf]
  | append_singleton bs b ih =>
    have hb := b.toNat_lt
    simp only [numberOf, List.foldl_append, List.foldl_cons, List.foldl_nil, List.length_append,
      List.length_singleton, pow_succ] at ih ⊢
    omega

/-- Four bytes hold a number below 2^32. -/
theorem getNumber4_finds : Finds (· < 2 ^ 32) getNumber4 :=
  (getOctets_finds 4).bind fun bs hbs => .pure (by
    have h := numberOf_lt bs
    rwa [hbs] at h)

/-- A string ends at its first NUL, so it may be shorter than the bytes read. -/
theorem length_ofBytes_le (bs : List UInt8) : (CStr.ofBytes bs).length ≤ bs.length :=
  (List.takeWhile_prefix _).length_le

/-- A string that has been read fits the field it would be written to. -/
theorem getString_finds : Finds (fun s => s.length ≤ Msg.fieldSize) getString := by
  have hsize : Finds (fun _ : UInt8 => True) getNumber1 := (getOctets_finds 1).bind fun _ _ => .pure trivial
  refine hsize.bind fun size _ => (getOctets_finds size.toNat).bind fun bs hbs => .pure ?_
  have hsize := size.toNat_lt
  exact (length_ofBytes_le bs).trans (hbs.le.trans (Nat.lt_succ_iff.mp hsize))

/-- A long string that has been read fits as well. -/
theorem getLongstr_finds : Finds (fun s => s.length < 2 ^ 32) getLongstr :=
  getNumber4_finds.bind fun size hsize => (getOctets_finds size).bind fun bs hbs =>
    .pure ((length_ofBytes_le bs).trans_lt (hbs.trans_lt hsize))

variable {P : γ → Prop} {Q : β → Reader → Prop} {h : γ → Msg → Msg} {m₀ : Msg} {needle : List UInt8}
  {rest : List Frame}

/-- A field that is read and assigned, and the rest. -/
theorem Finds.wp_field (hx : Finds P x)
    (hy : ∀ c needle, P c → (y c).wp Q (fun _ _ => True) ⟨h c m₀, needle, rest⟩) :
    (x >>= fun c => assign (h c) >>= fun _ => y c).wp Q (fun _ _ => True) ⟨m₀, needle, rest⟩ := by
  refine EStateM.wp_bind .. |>.mpr (EStateM.wp_mono (hx _) (fun c r hr => ?_) fun _ _ _ => trivial)
  obtain ⟨hc, hmsg, hrest⟩ := hr
  refine EStateM.wp_bind .. |>.mpr (EStateM.wp_modify .. |>.mpr ?_)
  obtain ⟨_, needle', _⟩ := r
  obtain rfl := hmsg
  obtain rfl := hrest
  exact hy c needle' hc

/-- The field read last. -/
theorem Finds.wp_last {Q : Unit → Reader → Prop} (hx : Finds P x)
    (hQ : ∀ c needle, P c → Q ⟨⟩ ⟨h c m₀, needle, rest⟩) :
    (x >>= fun c => assign (h c)).wp Q (fun _ _ => True) ⟨m₀, needle, rest⟩ := by
  refine EStateM.wp_bind .. |>.mpr (EStateM.wp_mono (hx _) (fun c r hr => ?_) fun _ _ _ => trivial)
  obtain ⟨hc, hmsg, hrest⟩ := hr
  refine EStateM.wp_modify .. |>.mpr ?_
  obtain ⟨_, needle', _⟩ := r
  obtain rfl := hmsg
  obtain rfl := hrest
  exact hQ c needle' hc

/-- A field that is read by a decoder of its own, and the rest. -/
theorem Finds.wp_then {z : Decoder β} (hx : Finds P x)
    (hz : ∀ c needle, P c → z.wp Q (fun _ _ => True) ⟨h c m₀, needle, rest⟩) :
    ((x >>= fun c => assign (h c)) >>= fun _ => z).wp Q (fun _ _ => True) ⟨m₀, needle, rest⟩ :=
  EStateM.wp_bind .. |>.mpr (hx.wp_last hz)

/-- The groups of a HELLO are as many as its count says, and each can be written again. -/
theorem getGroupList_wp (listSize : ℕ) {groups : List CStr} (hm₀ : m₀.groups = some groups) :
    (getGroupList listSize).wp (fun _ r => ∃ more needle', more.length = listSize ∧
      (∀ name ∈ more, name.length < 2 ^ 32) ∧
        r = ⟨{ m₀ with groups := some (groups ++ more) }, needle', rest⟩)
      (fun _ _ => True) ⟨m₀, needle, rest⟩ := by
  induction listSize generalizing m₀ groups needle with
  | zero => exact ⟨[], needle, rfl, by simp, by rw [List.append_nil, ← hm₀]⟩
  | succ listSize ih =>
    refine getLongstr_finds.wp_field fun string needle hstring => ?_
    have hgroups : Option.map (· ++ [string]) m₀.groups = some (groups ++ [string]) := by simp [hm₀]
    refine EStateM.wp_mono (ih hgroups) ?_ fun _ _ _ => trivial
    rintro _ r ⟨more, needle', hlength, hmore, rfl⟩
    refine ⟨string :: more, needle', by rw [List.length_cons, hlength], ?_, by simp⟩
    exact List.forall_mem_cons.mpr ⟨hstring, hmore⟩

/-- So are the headers, each with a name and a value that can be written again. -/
theorem getHeaderList_wp (hashSize : ℕ) {headers : Headers} (hm₀ : m₀.headers = some headers) :
    (getHeaderList hashSize).wp (fun _ r => ∃ (more : List (Sigma fun _ : CStr => CStr)) (needle' : _),
      more.length = hashSize ∧ (∀ e ∈ more, e.1.length < 256 ∧ e.2.length < 2 ^ 32) ∧
        r = ⟨{ m₀ with headers := some (more.foldl (fun t e => t.insertNew e.1 e.2) headers) }, needle', rest⟩)
      (fun _ _ => True) ⟨m₀, needle, rest⟩ := by
  induction hashSize generalizing m₀ headers needle with
  | zero => exact ⟨[], needle, rfl, by simp, by rw [List.foldl_nil, ← hm₀]⟩
  | succ hashSize ih =>
    refine EStateM.wp_bind .. |>.mpr (EStateM.wp_mono (getString_finds _) ?_ fun _ _ _ => trivial)
    rintro key ⟨_, needle', _⟩ ⟨hkey, rfl, rfl⟩
    refine getLongstr_finds.wp_field fun value needle hvalue => ?_
    refine EStateM.wp_mono (ih (congrArg (Option.map (·.insertNew key value)) hm₀)) ?_
      fun _ _ _ => trivial
    rintro _ r ⟨more, needle', hlength, hmore, rfl⟩
    refine ⟨⟨key, value⟩ :: more, needle', by rw [List.length_cons, hlength], ?_, by simp⟩
    exact List.forall_mem_cons.mpr ⟨⟨Nat.lt_succ_iff.mpr hkey, hvalue⟩, hmore⟩

/-- A message as it is written: all of it can be counted, and it has no field that its command does not
carry. -/
def Written (m : Msg) : Prop := m.Whole ∧ m.carried = m

/-- A body that is read to its end leaves a message that can be written. -/
theorem getBody_written {id : MsgId} (hid : id ≠ .unset) (needle : List UInt8) (rest : List Frame) :
    (getBody id).wp (fun _ r => Written r.msg) (fun _ _ => True)
      ⟨{ Msg.new .unset with id := id }, needle, rest⟩ := by
  have hsequence : Finds (fun _ : UInt16 => True) getNumber2 := (getOctets_finds 2).bind fun _ _ => .pure trivial
  have hstatus : Finds (fun _ : UInt8 => True) getNumber1 := (getOctets_finds 1).bind fun _ _ => .pure trivial
  have hempty : (∅ : CStr).length ≤ Msg.fieldSize := Nat.zero_le _
  have hshort : ∀ m : Msg, m.id ≠ .unset → m.endpoint = ∅ → m.name = ∅ → m.groups = none → m.headers = none →
      m.group.length ≤ Msg.fieldSize → m.challengerId.length ≤ Msg.fieldSize →
      m.leaderId.length ≤ Msg.fieldSize → m.Whole := by
    intro m hid hendpoint hname hgroups hheaders hgroup hchallenger hleader
    refine ⟨hid, ?_, ?_, hgroup, hchallenger, hleader, ?_, ?_, ?_, ?_⟩ <;>
      simp [hendpoint, hname, hgroups, hheaders, hempty]
  cases id with
  | unset => exact absurd rfl hid
  | hello =>
    refine hsequence.wp_then fun sequence needle _ => ?_
    refine getString_finds.wp_field fun endpoint needle hendpoint => ?_
    refine getNumber4_finds.wp_field fun listSize needle hlistSize => ?_
    refine EStateM.wp_bind .. |>.mpr (EStateM.wp_mono (getGroupList_wp listSize rfl) ?_ fun _ _ _ => trivial)
    rintro _ r ⟨groups, needle, rfl, hgroups, rfl⟩
    refine hstatus.wp_then fun status needle _ => ?_
    refine getString_finds.wp_field fun name needle hname => ?_
    refine getNumber4_finds.wp_field fun hashSize needle hhashSize => ?_
    refine EStateM.wp_mono (getHeaderList_wp hashSize rfl) ?_ fun _ _ _ => trivial
    rintro _ r ⟨entries, needle, rfl, hentries, rfl⟩
    have hsub := AList.foldl_insertNew_sublist entries (∅ : Headers)
    refine ⟨⟨hid, hendpoint, hname, hempty, hempty, hempty, hlistSize, hgroups, ?_, ?_⟩, rfl⟩
    · exact hsub.length_le.trans_lt (by simpa using hhashSize)
    · intro e he
      exact hentries e (by simpa using hsub.subset he)
  | whisper =>
    refine hsequence.wp_then fun sequence needle _ => ?_
    exact EStateM.wp_modify .. |>.mpr ⟨hshort _ hid rfl rfl rfl rfl hempty hempty hempty, rfl⟩
  | shout =>
    refine hsequence.wp_then fun sequence needle _ => ?_
    refine getString_finds.wp_then fun group needle hgroup => ?_
    exact EStateM.wp_modify .. |>.mpr ⟨hshort _ hid rfl rfl rfl rfl hgroup hempty hempty, rfl⟩
  | join | leave =>
    refine hsequence.wp_then fun sequence needle _ => ?_
    refine getString_finds.wp_then fun group needle hgroup => ?_
    refine hstatus.wp_last fun status needle _ => ?_
    exact ⟨hshort _ hid rfl rfl rfl rfl hgroup hempty hempty, rfl⟩
  | ping | pingOk | goodbye =>
    refine hsequence.wp_last fun sequence needle _ => ?_
    exact ⟨hshort _ hid rfl rfl rfl rfl hempty hempty hempty, rfl⟩
  | elect =>
    refine hsequence.wp_then fun sequence needle _ => ?_
    refine getString_finds.wp_then fun group needle hgroup => ?_
    refine getString_finds.wp_last fun challengerId needle hchallenger => ?_
    exact ⟨hshort _ hid rfl rfl rfl rfl hgroup hchallenger hempty, rfl⟩
  | leader =>
    refine hsequence.wp_then fun sequence needle _ => ?_
    refine getString_finds.wp_then fun group needle hgroup => ?_
    refine getString_finds.wp_last fun leaderId needle hleader => ?_
    exact ⟨hshort _ hid rfl rfl rfl rfl hgroup hempty hleader, rfl⟩

end Decoder

/-! ### Whole messages -/

/-- A HELLO with a group and a header. -/
def greeting : Msg := { (Msg.new .hello).setSequence 1 with
  endpoint := CStr.ofChars ['p'], groups := some [CStr.ofChars ['g']], status := 1
  name := CStr.ofChars ['n'], headers := some (AList.insert (CStr.ofChars ['k']) (CStr.ofChars ['v']) ∅) }

theorem whole_greeting : greeting.Whole :=
  ⟨by decide, by decide, by decide, by decide, by decide, by decide, by decide, by decide, by decide, by decide⟩

/-- **Round trip.** A message arrives as it was sent, whatever it is received by, and nothing of it is left
in the socket, if what it has can be counted in the bytes of the format. The headers are alike as
dictionaries, since they are sent in the order of the table and inserted in that order. -/
theorem recv_frames (hm : m.Whole) (identity : Frame) :
    ∃ m', m'.Alike m.carried ∧ Msg.recv (identity :: m.frames) = ⟨0, identity, m', []⟩ := by
  obtain ⟨m', halike, hbody⟩ := Decoder.getBody_frames hm
  refine ⟨m', halike, ?_⟩
  simp only [Msg.recv, Msg.frames, getMessage_frames hm.id, hbody]

theorem recv_greeting : ∃ m', m'.Alike greeting.carried ∧
    Msg.recv ([1] :: greeting.frames) = ⟨0, [1], m', []⟩ :=
  recv_frames whole_greeting [1]

/-- What is sent is complete. -/
theorem complete_encode (hm : m.Whole) : Complete m.encode := by
  obtain ⟨m', -, hbody⟩ := Decoder.getBody_frames hm
  obtain ⟨w, hw, happend⟩ := (Decoder.getBody_reads m.id).ok hbody
  exact Decoder.complete_iff.mpr ⟨m.id, hm.id, m.encodeBody, rfl, w, hw, _, happend⟩

/-- The message of a complete command can be written. -/
theorem written_of_complete {frame : Frame} (h : Complete frame) (identity : Frame) (rest : List Frame) :
    Decoder.Written (Msg.recv (identity :: frame :: rest)).msg := by
  obtain ⟨id, hid, body, rfl, hw⟩ := Decoder.complete_iff.mp h
  have hheader : Decoder.getMessage ⟨Msg.new .unset, 0xAA :: 0xA1 :: id.toByte :: 2 :: body, rest⟩ =
      Decoder.getBody id ⟨{ Msg.new .unset with id := id }, body, rest⟩ :=
    Decoder.getMessage_header _ id hid 2 body rest
  obtain ⟨⟨⟩, r, hr⟩ :=
    ((Decoder.getBody_reads id).ok_iff (s := ⟨{ Msg.new .unset with id := id }, body, rest⟩)).mpr hw
  have hwritten := Decoder.getBody_written hid body rest
  unfold EStateM.wp at hwritten
  rw [hr] at hwritten
  simp only [Msg.recv, hheader, hr]
  exact hwritten

/-- **Round trip, the other way.** What has been received can be sent on: from every complete frame the
message that was received is sent, and received, as it was. -/
theorem recv_recv {frame : Frame} (h : Complete frame) (identity identity' : Frame) (rest : List Frame) :
    let m := (Msg.recv (identity :: frame :: rest)).msg
    ∃ m', m'.Alike m ∧ Msg.recv (identity' :: m.frames) = ⟨0, identity', m', []⟩ := by
  intro m
  have hwritten : Decoder.Written m := written_of_complete h identity rest
  obtain ⟨m', halike, hbody⟩ := Decoder.getBody_frames hwritten.1
  rw [hwritten.2] at halike
  refine ⟨m', halike, ?_⟩
  simp only [Msg.recv, Msg.frames, getMessage_frames hwritten.1.id, hbody]

theorem recv_recv_greeting :
    let m := (Msg.recv [[1], greeting.encode]).msg
    ∃ m', m'.Alike m ∧ Msg.recv ([2] :: m.frames) = ⟨0, [2], m', []⟩ :=
  recv_recv (complete_encode whole_greeting) [1] [2] []

/-- A command that is cut short is not complete. -/
theorem not_complete_of_cut {p : Frame} (hm : m.Whole) (hp : p <+: m.encode) (hne : p ≠ m.encode) :
    ¬Complete p := by
  rintro ⟨id, hid, w, hw, hprefix⟩
  have hencode : m.encode = 0xAA :: 0xA1 :: m.id.toByte :: 2 :: m.encodeBody := rfl
  obtain ⟨t, ht⟩ := hprefix.trans hp
  rw [hencode, List.append_assoc] at ht
  simp only [List.cons_append, List.nil_append, List.cons.injEq, true_and] at ht
  obtain ⟨hbyte, hbody⟩ := ht
  obtain rfl := Decoder.toByte_inj hbyte
  -- The decoder stops where the fields end, and that is at the end of the frame.
  obtain ⟨_, r, hr, hneedle⟩ := (Decoder.getBody_reads m.id).of_append
    (s := ⟨{ Msg.new .unset with id := m.id }, m.encodeBody, m.contentFrames⟩) hw hbody
  obtain ⟨m', -, hframes⟩ := Decoder.getBody_frames hm
  obtain rfl := (EStateM.Result.ok.inj (hr.symm.trans hframes)).2
  obtain rfl : [] = t := hneedle
  rw [List.append_nil] at hbody
  refine hne (hp.eq_of_length_le ?_)
  rw [hencode, ← hbody]
  exact hprefix.length_le

/-- **Cut commands.** No proper part of a command from its beginning is a command: a macro finds that there
is not enough left. The return code stays 0, and the command is taken with the fields that are there. -/
theorem truncated_of_cut {p : Frame} (hm : m.Whole) (hp : p <+: m.encode) (hne : p ≠ m.encode)
    (identity : Frame) (rest : List Frame) :
    ∃ r, Decoder.getMessage ⟨Msg.new .unset, p, rest⟩ = .error .truncated r ∧
      Msg.recv (identity :: p :: rest) = ⟨0, identity, r.msg, r.rest⟩ := by
  have hencode : m.encode = 0xAA :: 0xA1 :: m.id.toByte :: 2 :: m.encodeBody := rfl
  rcases Decoder.getMessage_cases p (Msg.new .unset) rest with ⟨h, -⟩ | ⟨-, h, -⟩ | ⟨-, -, r, hr⟩
  · exact absurd h (not_complete_of_cut hm hp hne)
  · -- What there is of the signature, the id and the version is right.
    rw [hencode] at hp
    cases h with
    | signature h =>
      simp only [List.cons_prefix_cons] at hp
      exact absurd ⟨hp.1, hp.2.1⟩ h
    | id h =>
      have hid := MsgId.ofByte?_toByte hm.id
      simp only [List.cons_prefix_cons, true_and] at hp
      rw [hp.1, hid] at h
      cases h
    | version hid h =>
      simp only [List.cons_prefix_cons, true_and] at hp
      exact absurd hp.2.1 h
  · exact ⟨r, hr, by simp only [Msg.recv, hr]⟩

theorem truncated_dropLast : ∃ r,
    Decoder.getMessage ⟨Msg.new .unset, greeting.encode.dropLast, []⟩ = .error .truncated r ∧
      Msg.recv [[1], greeting.encode.dropLast] = ⟨0, [1], r.msg, r.rest⟩ :=
  truncated_of_cut whole_greeting (List.dropLast_prefix _) (by decide) [1] []

end Zyre
