import Zyre.Msg.Fill
import Zyre.Msg.Send

/-!
# What arrives of a message

Decoding the frames of a message gives back its command, its number and, for HELLO, JOIN and LEAVE, the
groups and the status in it, as far as they fit the format (`carries_recv`). It does so for a HELLO whatever
headers it has: those stand behind.
-/

namespace Zyre

/-- What has to arrive of a message: its command, its number, and what it says about the groups of the
sender. -/
structure Carries (sent msg : Msg) : Prop where
  id : msg.id = sent.id
  sequence : msg.sequence = sent.sequence
  hello : sent.id = .hello → msg.groups = sent.groups ∧ msg.status = sent.status
  group : sent.id = .join ∨ sent.id = .leave → msg.group = sent.group ∧ msg.status = sent.status

/-- The fields that say so fit the format. -/
structure Msg.Fits (m : Msg) : Prop where
  id : m.id ≠ .unset
  endpoint : m.id = .hello → m.endpoint.length < 256
  groups : m.id = .hello → ∃ groups, m.groups = some groups ∧ groups.length < 2 ^ 32 ∧
    ∀ name ∈ groups, name.length < 2 ^ 32
  group : m.id = .join ∨ m.id = .leave → m.group.length < 256

/-! ### Numbers -/

/-- A number of two bytes is read back. -/
theorem numberOf_putNumber2 {k : ℕ} (h : k < 2 ^ 16) : numberOf (putNumber2 k) = k := by
  simp only [numberOf, putNumber2, List.foldl_cons, List.foldl_nil, UInt8.toNat_ofNat', Nat.toUInt8_eq]
  omega

/-- Of a number in four bytes the part above 2^32 is lost. -/
theorem numberOf_putNumber4_mod (k : ℕ) : numberOf (putNumber4 k) = k % 2 ^ 32 := by
  simp only [numberOf, putNumber4, List.foldl_cons, List.foldl_nil, UInt8.toNat_ofNat', Nat.toUInt8_eq]
  omega

namespace Decoder

variable {α β : Type} {x : Decoder α} {g : α → Decoder β} {a : α} {b : β} {w w' : List UInt8}
  {f f' : Msg → Msg}

/-! ### Decoders on the words they read -/

/-- On a frame that goes on with `w` the decoder takes it, returns `a` and changes the message by
`f`. -/
def Yields (x : Decoder α) (w : List UInt8) (a : α) (f : Msg → Msg) : Prop :=
  ∀ m tail rest, x ⟨m, w ++ tail, rest⟩ = .ok a ⟨f m, tail, rest⟩

/-- What is read by two decoders, one behind the other, is their words one behind the other. -/
theorem Yields.bind (hx : Yields x w a f) (hg : Yields (g a) w' b f') :
    Yields (x >>= g) (w ++ w') b (f' ∘ f) := fun m tail rest => by
  rw [List.append_assoc]
  exact (EStateM.bind_of_ok (hx m _ rest)).trans (hg (f m) tail rest)

/-- A result that is computed from what was read. -/
theorem Yields.map (hx : Yields x w a f) (h : α → β) :
    Yields (do pure (h (← x))) w (h a) f := fun m tail rest =>
  EStateM.bind_of_ok (hx m tail rest)

/-- An assignment reads nothing. -/
theorem assign_yields : Yields (assign f) [] ⟨⟩ f := fun _ _ _ => rfl

/-- A field that is read and then assigned. -/
theorem Yields.assign {h : α → Msg → Msg} (hx : Yields x w a id) :
    Yields (do assign (h (← x))) w ⟨⟩ (h a) := fun m tail rest =>
  EStateM.bind_of_ok (hx m tail rest)

/-- Octets are read as they are. -/
theorem getOctets_yields (w : List UInt8) : Yields (getOctets w.length) w w id := fun m tail rest => by
  rw [getOctets_eq, if_neg (by simp), List.take_left, List.drop_left]
  rfl

/-- A number of one byte. -/
theorem getNumber1_yields (b : UInt8) : Yields getNumber1 [b] b id :=
  (getOctets_yields [b]).map fun u => u.headD 0

/-- A number of two bytes. -/
theorem getNumber2_yields (k : UInt16) : Yields getNumber2 (putNumber2 k.toNat) k id := by
  have h := (getOctets_yields (putNumber2 k.toNat)).map fun u => UInt16.ofNat (numberOf u)
  rw [numberOf_putNumber2 k.toNat_lt, UInt16.ofNat_toNat] at h
  exact h

/-- A number that does not fit four bytes is read modulo 2^32. -/
theorem getNumber4_yields_mod (k : ℕ) : Yields getNumber4 (putNumber4 k) (k % 2 ^ 32) id := by
  have h := (getOctets_yields (putNumber4 k)).map numberOf
  rw [numberOf_putNumber4_mod] at h
  exact h

/-- A number of four bytes. -/
theorem getNumber4_yields {k : ℕ} (hk : k < 2 ^ 32) : Yields getNumber4 (putNumber4 k) k id := by
  have h := getNumber4_yields_mod k
  rwa [Nat.mod_eq_of_lt hk] at h

/-- A string is read back if its size fits one byte. -/
theorem getString_yields {s : CStr} (hs : s.length < 256) : Yields getString (putString s) s id := by
  have hlen : s.length.toUInt8.toNat = s.bytes.length := by
    rw [Nat.toUInt8_eq, UInt8.toNat_ofNat', Nat.mod_eq_of_lt hs]
    rfl
  have h := (getOctets_yields s.bytes).map CStr.ofBytes
  rw [CStr.ofBytes_bytes, ← hlen] at h
  exact (getNumber1_yields s.length.toUInt8).bind (g := fun size => do
    pure (CStr.ofBytes (← getOctets size.toNat))) h

/-- A long string is read back if its size fits four bytes. -/
theorem getLongstr_yields {s : CStr} (hs : s.length < 2 ^ 32) :
    Yields getLongstr (putLongstr s) s id := by
  have h := (getOctets_yields s.bytes).map CStr.ofBytes
  rw [CStr.ofBytes_bytes] at h
  exact (getNumber4_yields hs).bind (g := fun size => do
    pure (CStr.ofBytes (← getOctets size))) h

/-- The groups are read one by one, and appended to those that are there. -/
theorem getGroupList_yields {groups : List CStr} (h : ∀ name ∈ groups, name.length < 2 ^ 32) :
    Yields (getGroupList groups.length) (groups.flatMap putLongstr) ⟨⟩
      fun m => { m with groups := m.groups.map (· ++ groups) } := by
  induction groups with
  | nil =>
    intro m tail rest
    cases m with
    | mk id sequence endpoint groups => cases groups <;> simp [getGroupList, Option.map] <;> rfl
  | cons name groups ih =>
    have hrest := ih fun name' hname => h name' (List.mem_cons_of_mem _ hname)
    have hname := getLongstr_yields (h name List.mem_cons_self)
    have hall := hname.bind (g := fun string => do
      assign fun m => { m with groups := m.groups.map (· ++ [string]) }
      getGroupList groups.length) ((assign_yields (f := fun m =>
        { m with groups := m.groups.map (· ++ [name]) })).bind (g := fun _ => getGroupList groups.length)
        hrest)
    intro m tail rest
    refine (hall m tail rest).trans ?_
    simp [Option.map_map, Function.comp_def]

/-- The sequence number of every command. -/
theorem getSequence_yields (k : UInt16) :
    Yields getSequence (putNumber2 k.toNat) ⟨⟩ fun m => { m with sequence := k } :=
  (getNumber2_yields k).assign

/-- The status of HELLO, JOIN and LEAVE. -/
theorem getStatus_yields (k : UInt8) :
    Yields getStatus (putNumber1 k.toNat) ⟨⟩ fun m => { m with status := k } := by
  have h := (getNumber1_yields k).assign (h := fun status m => { m with status := status })
  have hput : putNumber1 k.toNat = [k] := by simp [putNumber1]
  rw [hput]
  exact h

/-- The group of a command, within the room of its field. -/
theorem getGroup_yields {s : CStr} (hs : s.length < 256) :
    Yields getGroup (putString s) ⟨⟩ fun m => { m with group := s } :=
  (getString_yields hs).assign

/-! ### Decoders that keep what has been read -/

/-- What `h` reads off the message stays as it is. -/
def Same {γ : Type} (h : Msg → γ) (r r' : Reader) : Prop := h r'.msg = h r.msg

variable {γ : Type} {h : Msg → γ}

instance : Std.Refl (Same h) := ⟨fun _ => rfl⟩

instance : IsTrans Reader (Same h) := ⟨fun _ _ _ h₁ h₂ => h₂.trans h₁⟩

/-- A decoder that leaves alone what `h` reads. -/
abbrev Keeping (h : Msg → γ) (x : Decoder α) : Prop := ∀ r, x.Keeps (Same h) (fun _ _ => True) r

/-- A field is kept by two decoders if it is by each. -/
theorem Keeping.bind (hx : Keeping h x) (hg : ∀ a, Keeping h (g a)) : Keeping h (x >>= g) :=
  fun r => EStateM.Keeps.bind (hx r) fun a r' _ => hg a r'

theorem Keeping.pure (a : α) : Keeping h (pure a : Decoder α) := fun _ => EStateM.Keeps.pure a

/-- A field is kept by an assignment to another one. -/
theorem assign_keeping (hf : ∀ m, h (f m) = h m) : Keeping h (assign f) := fun r => hf r.msg

/-- Reading alone keeps every field. -/
theorem getOctets_keeping (size : ℕ) : Keeping h (getOctets size) := by
  intro r
  unfold EStateM.Keeps EStateM.wp
  rw [getOctets_eq]
  split_ifs
  · exact ⟨rfl, trivial⟩
  · rfl

theorem getString_keeping : Keeping h getString :=
  ((getOctets_keeping 1).bind fun _ => .pure _).bind fun _ => (getOctets_keeping _).bind fun _ => .pure _

theorem getLongstr_keeping : Keeping h getLongstr :=
  ((getOctets_keeping 4).bind fun _ => .pure _).bind fun _ => (getOctets_keeping _).bind fun _ => .pure _

/-- The loop over the groups keeps every other field. -/
theorem getGroupList_keeping (hf : ∀ m groups, h { m with groups := groups } = h m) (listSize : ℕ) :
    Keeping h (getGroupList listSize) := by
  induction listSize with
  | zero => exact .pure _
  | succ listSize ih =>
    exact .bind getLongstr_keeping fun _ => .bind (assign_keeping fun m => hf m _) fun _ => ih

/-- The loop over the headers keeps every other field. -/
theorem getHeaderList_keeping (hf : ∀ m key value,
    h { m with headers := m.headers.map (·.insertNew key value) } = h m) (hashSize : ℕ) :
    Keeping h (getHeaderList hashSize) := by
  induction hashSize with
  | zero => exact .pure _
  | succ hashSize ih =>
    exact getString_keeping.bind fun key => getLongstr_keeping.bind fun value =>
      (assign_keeping fun m => hf m key value).bind fun _ => ih

/-! ### Commands -/

/-- A decoder on a frame that goes on with the word it reads. -/
theorem Yields.wp_bind {Q : β → Reader → Prop} {E : Malformed → Reader → Prop} {m : Msg}
    {tail : List UInt8} {rest : List Frame} (hx : Yields x w a f)
    (hg : (g a).wp Q E ⟨f m, tail, rest⟩) : (x >>= g).wp Q E ⟨m, w ++ tail, rest⟩ := by
  refine EStateM.wp_bind .. |>.mpr ?_
  unfold EStateM.wp
  rw [hx m tail rest]
  exact hg

/-- A decoder in front of the word it reads, as a step of a proof about a program. -/
theorem Yields.wp {Q : α → Reader → Prop} {E : Malformed → Reader → Prop} {m : Msg}
    {tail : List UInt8} {rest : List Frame} (hx : Yields x w a f)
    (hQ : Q a ⟨f m, tail, rest⟩) : x.wp Q E ⟨m, w ++ tail, rest⟩ := by
  unfold EStateM.wp
  rw [hx m tail rest]
  exact hQ

/-- A field that is kept has what it had, also where the decoder stops. -/
theorem Keeping.wp (hx : Keeping h x) (r : Reader) {P : γ → Prop} (hP : P (h r.msg)) :
    x.wp (fun _ r' => P (h r'.msg)) (fun _ r' => P (h r'.msg)) r := by
  refine EStateM.wp_mono (hx r) (fun _ r' hr' => ?_) fun _ r' hr' => ?_
  · exact (show h r'.msg = h r.msg from hr') ▸ hP
  · exact (show h r'.msg = h r.msg from hr'.1) ▸ hP

/-- Whether decoding goes on to the end of the frame or finds it too short, what has to arrive has
arrived. -/
theorem getBody_carries {m m₀ : Msg} (hm : m.Fits) (hid : m₀.id = m.id) (rest : List Frame) :
    (getBody m.id).wp (fun _ r' => Carries m r'.msg) (fun _ r' => Carries m r'.msg)
      ⟨m₀, m.encodeBody, rest⟩ := by
  have hshort : ∀ {x : Decoder Unit} {tail : List UInt8}, m.id ≠ .hello →
      ¬(m.id = .join ∨ m.id = .leave) → Keeping (fun m => (m.id, m.sequence)) x →
      x.wp (fun _ r' => Carries m r'.msg) (fun _ r' => Carries m r'.msg)
        ⟨{ m₀ with sequence := m.sequence }, tail, rest⟩ := by
    intro x tail hhello hgroup hx
    have hcarries : ∀ m' : Msg, (m'.id, m'.sequence) = (m.id, m.sequence) → Carries m m' :=
      fun m' h => ⟨(Prod.mk.inj h).1, (Prod.mk.inj h).2, fun h => absurd h hhello,
        fun h => absurd h hgroup⟩
    refine EStateM.wp_mono (hx.wp ⟨{ m₀ with sequence := m.sequence }, tail, rest⟩
      (P := fun q => q = (m.id, m.sequence)) (by rw [hid])) (fun _ r' h => hcarries _ h)
      fun _ r' h => hcarries _ h
  have hbody : m.encodeBody = putNumber2 m.sequence.toNat ++ _ := rfl
  rw [hbody]
  have hgroup : ∀ id, m.id = id → id = .join ∨ id = .leave →
      (getBody id).wp (fun _ r' => Carries m r'.msg) (fun _ r' => Carries m r'.msg)
        ⟨m₀, putNumber2 m.sequence.toNat ++ (putString m.group ++ (putNumber1 m.status.toNat ++ [])),
          rest⟩ := by
    intro id hmid hor
    have hgetBody : getBody id = (do getSequence; getGroup; getStatus) := by
      rcases hor with rfl | rfl <;> rfl
    rw [hgetBody]
    refine (getSequence_yields m.sequence).wp_bind ((getGroup_yields
      (hm.group (hmid ▸ hor))).wp_bind ((getStatus_yields m.status).wp ?_))
    refine ⟨hid, rfl, fun hhello => ?_, fun _ => ⟨rfl, rfl⟩⟩
    rw [hmid] at hhello
    rcases hor with rfl | rfl <;> cases hhello
  cases hmid : m.id with
  | hello =>
    obtain ⟨groups, hgroups, hcount, hnames⟩ := hm.groups hmid
    simp only [Msg.putGroups, hgroups, Option.getD_some, List.append_assoc]
    refine (getSequence_yields m.sequence).wp_bind ((getString_yields (hm.endpoint hmid)).wp_bind
      (EStateM.wp_bind .. |>.mpr ((getNumber4_yields hcount).wp_bind (EStateM.wp_bind .. |>.mpr
        ((getGroupList_yields hnames).wp_bind ((getStatus_yields m.status).wp_bind ?_))))))
    have htail : Keeping (fun m => (m.id, m.sequence, m.groups, m.status)) (do
        let name ← getString
        assign fun m => { m with name := name }
        let hashSize ← getNumber4
        assign fun m => { m with headers := some ∅ }
        getHeaderList hashSize) := by
      refine Keeping.bind getString_keeping fun name => Keeping.bind (assign_keeping fun _ => rfl)
        fun _ => Keeping.bind ?_ fun hashSize => Keeping.bind (assign_keeping fun _ => rfl) fun _ => ?_
      · exact Keeping.bind (getOctets_keeping 4) fun _ => .pure _
      · exact getHeaderList_keeping (fun _ _ _ => rfl) hashSize
    have hcarries : ∀ m' : Msg, (m'.id, m'.sequence, m'.groups, m'.status) =
        (m.id, m.sequence, m.groups, m.status) → Carries m m' := by
      intro m' h
      obtain ⟨hid', hseq', hgroups', hstatus'⟩ := by simpa only [Prod.mk.injEq] using h
      refine ⟨hid', hseq', fun _ => ⟨hgroups', hstatus'⟩, fun h => ?_⟩
      rw [hmid] at h
      rcases h with h | h <;> cases h
    refine EStateM.wp_mono (htail.wp _ (P := fun q => q = (m.id, m.sequence, m.groups, m.status)) ?_)
      (fun _ r' h => hcarries _ h) fun _ r' h => hcarries _ h
    simp [hid, hgroups]
  | join =>
    have h := hgroup _ hmid (Or.inl rfl)
    simpa only [List.append_nil] using h
  | leave =>
    have h := hgroup _ hmid (Or.inr rfl)
    simpa only [List.append_nil] using h
  | unset => exact absurd hmid hm.id
  | whisper =>
    refine (getSequence_yields m.sequence).wp_bind (hshort (by simp [hmid]) (by simp [hmid]) ?_)
    exact fun r => rfl
  | shout =>
    refine (getSequence_yields m.sequence).wp_bind (hshort (by simp [hmid]) (by simp [hmid]) ?_)
    exact Keeping.bind (Keeping.bind getString_keeping fun _ => assign_keeping fun _ => rfl) fun _ r => rfl
  | ping | pingOk | goodbye =>
    refine (getSequence_yields m.sequence).wp ?_
    exact ⟨hid, rfl, by simp [hmid], by simp [hmid]⟩
  | elect | leader =>
    refine (getSequence_yields m.sequence).wp_bind (hshort (by simp [hmid]) (by simp [hmid]) ?_)
    refine Keeping.bind (Keeping.bind getString_keeping fun _ => assign_keeping fun _ => rfl) fun _ => ?_
    exact Keeping.bind getString_keeping fun _ => assign_keeping fun _ => rfl

/-! ### The command -/

/-- Decoders that only fill in fields keep the id. -/
theorem Keeping.of_filling (hx : Filling x) : Keeping Msg.id x := fun r => (hx r).mono fun _ h => h.1

/-- The body of a command does not change its id. -/
theorem getBody_keeping_id (id : MsgId) : Keeping Msg.id (getBody id) := by
  have hcontent : Keeping Msg.id getContent := fun _ => rfl
  by_cases hid : id.hasContent
  · rcases hid with rfl | rfl
    · exact Keeping.bind (.of_filling filling_getSequence) fun _ => hcontent
    · exact Keeping.bind (.of_filling filling_getSequence) fun _ =>
        Keeping.bind (.of_filling filling_getGroup) fun _ => hcontent
  · exact .of_filling (filling_getBody hid)

/-- ELECT is read back, with what is in front of its fields. -/
theorem getBody_elect {m m₀ : Msg} (hgroup : m.group.length < 256)
    (hchallenger : m.challengerId.length < 256) (rest : List Frame) :
    getBody .elect ⟨m₀, putNumber2 m.sequence.toNat ++ (putString m.group ++ putString m.challengerId),
        rest⟩ =
      .ok ⟨⟩ ⟨{ m₀ with sequence := m.sequence, group := m.group, challengerId := m.challengerId }, [],
        rest⟩ := by
  have htail : Yields
      (do
        getGroup
        let challengerId ← getString
        assign fun m => { m with challengerId := challengerId })
      (putString m.group ++ putString m.challengerId) ⟨⟩ _ :=
    (getGroup_yields hgroup).bind ((getString_yields hchallenger).assign)
  have h : Yields (getBody .elect) _ ⟨⟩ _ := (getSequence_yields m.sequence).bind htail
  simpa using h m₀ [] rest

/-- And so is LEADER. -/
theorem getBody_leader {m m₀ : Msg} (hgroup : m.group.length < 256)
    (hleader : m.leaderId.length < 256) (rest : List Frame) :
    getBody .leader ⟨m₀, putNumber2 m.sequence.toNat ++ (putString m.group ++ putString m.leaderId),
        rest⟩ =
      .ok ⟨⟩ ⟨{ m₀ with sequence := m.sequence, group := m.group, leaderId := m.leaderId }, [],
        rest⟩ := by
  have htail : Yields
      (do
        getGroup
        let leaderId ← getString
        assign fun m => { m with leaderId := leaderId })
      (putString m.group ++ putString m.leaderId) ⟨⟩ _ :=
    (getGroup_yields hgroup).bind ((getString_yields hleader).assign)
  have h : Yields (getBody .leader) _ ⟨⟩ _ := (getSequence_yields m.sequence).bind htail
  simpa using h m₀ [] rest

/-- Of SHOUT the group is read back, whatever the content. -/
theorem getBody_shout {m m₀ : Msg} (hid : m.id = .shout) (hgroup : m.group.length < 256)
    (rest : List Frame) :
    (getBody .shout).wp (fun _ r => r.msg.group = m.group) (fun _ r => r.msg.group = m.group)
      ⟨m₀, m.encodeBody, rest⟩ := by
  have hbody : m.encodeBody = putNumber2 m.sequence.toNat ++ (putString m.group ++ []) := by
    rw [Msg.encodeBody, hid, List.append_nil]
  rw [hbody]
  exact (getSequence_yields m.sequence).wp_bind ((getGroup_yields hgroup).wp_bind rfl)

/-- The endpoint of a HELLO is read, whatever comes behind it. -/
theorem getBody_hello_endpoint {m m₀ : Msg} (hid : m.id = .hello) (hendpoint : m.endpoint.length < 256)
    (rest : List Frame) :
    (getBody .hello).wp (fun _ r => r.msg.endpoint = m.endpoint) (fun _ r => r.msg.endpoint = m.endpoint)
      ⟨m₀, m.encodeBody, rest⟩ := by
  have hbody : m.encodeBody = putNumber2 m.sequence.toNat ++ (putString m.endpoint ++
      (Msg.putGroups m.groups ++ putNumber1 m.status.toNat ++ putString m.name ++ Msg.putHeaders m.headers)) := by
    rw [Msg.encodeBody, hid]
    simp only [List.append_assoc]
  rw [hbody]
  refine (getSequence_yields m.sequence).wp_bind ((getString_yields hendpoint).wp_bind
    (EStateM.wp_bind .. |>.mpr (EStateM.wp_modify _ |>.mpr ?_)))
  have htail : Keeping Msg.endpoint (do
      let listSize ← getNumber4
      assign fun m => { m with groups := some [] }
      getGroupList listSize
      getStatus
      let name ← getString
      assign fun m => { m with name := name }
      let hashSize ← getNumber4
      assign fun m => { m with headers := some ∅ }
      getHeaderList hashSize) := by
    refine Keeping.bind ?_ fun _ => Keeping.bind (assign_keeping fun _ => rfl) fun _ =>
      Keeping.bind ?_ fun _ => Keeping.bind ?_ fun _ =>
        Keeping.bind getString_keeping fun name => Keeping.bind (assign_keeping fun _ => rfl) fun _ =>
          Keeping.bind ?_ fun hashSize => Keeping.bind (assign_keeping fun _ => rfl) fun _ => ?_
    · exact Keeping.bind (getOctets_keeping 4) fun _ => .pure _
    · exact getGroupList_keeping (fun _ _ => rfl) _
    · exact Keeping.bind (Keeping.bind (getOctets_keeping 1) fun _ => .pure _) fun _ => assign_keeping fun _ => rfl
    · exact Keeping.bind (getOctets_keeping 4) fun _ => .pure _
    · exact getHeaderList_keeping (fun _ _ _ => rfl) hashSize
  exact htail.wp _ (P := fun endpoint => endpoint = m.endpoint) rfl

/-- The groups of a HELLO are read as far as their count goes. -/
theorem getBody_hello_groups {m m₀ : Msg} {groups : List CStr} (hid : m.id = .hello)
    (hendpoint : m.endpoint.length < 256) (hgroups : m.groups = some groups)
    (hnames : ∀ name ∈ groups, name.length < 2 ^ 32) (rest : List Frame) :
    (getBody .hello).wp (fun _ r => r.msg.groups = some (groups.take (groups.length % 2 ^ 32)))
      (fun _ r => r.msg.groups = some (groups.take (groups.length % 2 ^ 32)))
      ⟨m₀, m.encodeBody, rest⟩ := by
  set k := groups.length % 2 ^ 32 with hk
  have hlength : (groups.take k).length = k := List.length_take_of_le (Nat.mod_le _ _)
  have htake : Yields (getGroupList k) _ ⟨⟩ _ :=
    hlength ▸ getGroupList_yields fun name hname => hnames name (List.mem_of_mem_take hname)
  have hbody : m.encodeBody = putNumber2 m.sequence.toNat ++ (putString m.endpoint ++
      (putNumber4 groups.length ++ ((groups.take k).flatMap putLongstr ++ ((groups.drop k).flatMap putLongstr ++
        (putNumber1 m.status.toNat ++ (putString m.name ++ Msg.putHeaders m.headers)))))) := by
    rw [Msg.encodeBody, hid]
    simp only [Msg.putGroups, hgroups, Option.getD_some, List.append_assoc]
    rw [← List.append_assoc ((groups.take k).flatMap putLongstr), ← List.flatMap_append,
      List.take_append_drop]
  rw [hbody]
  refine (getSequence_yields m.sequence).wp_bind ((getString_yields hendpoint).wp_bind
    (EStateM.wp_bind .. |>.mpr ((getNumber4_yields_mod _).wp_bind (EStateM.wp_bind .. |>.mpr
      (htake.wp_bind ?_)))))
  have htail : Keeping Msg.groups (do
      getStatus
      let name ← getString
      assign fun m => { m with name := name }
      let hashSize ← getNumber4
      assign fun m => { m with headers := some ∅ }
      getHeaderList hashSize) := by
    refine Keeping.bind (Keeping.bind ?_ fun _ => assign_keeping fun _ => rfl) fun _ =>
      Keeping.bind getString_keeping fun name => Keeping.bind (assign_keeping fun _ => rfl) fun _ =>
        Keeping.bind ?_ fun hashSize => Keeping.bind (assign_keeping fun _ => rfl) fun _ => ?_
    · exact Keeping.bind (getOctets_keeping 1) fun _ => .pure _
    · exact Keeping.bind (getOctets_keeping 4) fun _ => .pure _
    · exact getHeaderList_keeping (fun _ _ _ => rfl) hashSize
  exact htail.wp _ (P := fun groups' => groups' = some (groups.take k)) rfl

/-! ### More groups than can be counted -/

/-- Where there is room for four bytes, a number is read. -/
theorem getNumber4_of_room {r : Reader} (h : 4 ≤ r.needle.length) :
    getNumber4.wp (fun _ r' => r'.msg = r.msg) (fun _ _ => False) r := by
  refine EStateM.wp_bind .. |>.mpr ?_
  unfold EStateM.wp
  rw [getOctets_eq, if_neg (by omega)]
  rfl

/-- A HELLO that has lost its groups. -/
def Wrapped (m m₀ m' : Msg) : Prop :=
  ∃ headers, m' = { m₀ with
    sequence := m.sequence, endpoint := m.endpoint, groups := some [], status := 0, name := ∅,
    headers := some headers }

/-- The count of 2^32 groups is written as zero, so the groups of such a HELLO are read as its status, its
name and its headers. -/
theorem getBody_wrapped {m m₀ : Msg} {groups : List CStr} (hid : m.id = .hello)
    (hendpoint : m.endpoint.length < 256) (hgroups : m.groups = some groups)
    (hcount : groups.length = 2 ^ 32) (hshort : ∀ name ∈ groups, name.length ≤ Msg.fieldSize)
    (rest : List Frame) :
    (getBody .hello).wp (fun _ r => Wrapped m m₀ r.msg) (fun _ r => Wrapped m m₀ r.msg)
      ⟨m₀, m.encodeBody, rest⟩ := by
  match groups, hcount, hshort with
  | first :: second :: others, hcount, hshort =>
    have hlength : first.length ≤ 255 := hshort first List.mem_cons_self
    have hzero : putNumber4 (2 ^ 32) = putNumber4 0 := by decide
    have hfirst : putNumber4 first.length = putNumber1 0 ++ (putString ∅ ++ [0, first.length.toUInt8]) := by
      have h₁ : first.length / 16777216 = 0 := by omega
      have h₂ : first.length / 65536 = 0 := by omega
      have h₃ : first.length / 256 = 0 := by omega
      rw [putNumber4, h₁, h₂, h₃]
      rfl
    have hbody : m.encodeBody = putNumber2 m.sequence.toNat ++ (putString m.endpoint ++ (putNumber4 0 ++
        (putNumber1 0 ++ (putString ∅ ++ ([0, first.length.toUInt8] ++ (first.bytes ++
          (putNumber4 second.length ++ (second.bytes ++ (others.flatMap putLongstr ++
            (putNumber1 m.status.toNat ++ putString m.name ++ Msg.putHeaders m.headers)))))))))) := by
      rw [Msg.encodeBody, hid]
      simp only [Msg.putGroups, hgroups, Option.getD_some, hcount, hzero, List.flatMap_cons, putLongstr,
        hfirst, List.append_assoc]
    have hnumber : Yields getNumber4 (putNumber4 0) 0 id := getNumber4_yields (by decide)
    have hname : Yields getString (putString ∅) ∅ id := getString_yields (by decide)
    rw [hbody]
    refine (getSequence_yields m.sequence).wp_bind ((getString_yields hendpoint).wp_bind
      (EStateM.wp_bind .. |>.mpr (EStateM.wp_modify _ |>.mpr (hnumber.wp_bind
        (EStateM.wp_bind .. |>.mpr (EStateM.wp_modify _ |>.mpr ?_))))))
    refine EStateM.wp_bind .. |>.mpr ((EStateM.wp_pure _).mpr ((getStatus_yields 0).wp_bind
      (hname.wp_bind (EStateM.wp_bind .. |>.mpr (EStateM.wp_modify _ |>.mpr ?_)))))
    refine EStateM.wp_bind .. |>.mpr (EStateM.wp_mono (getNumber4_of_room ?_) (fun hashSize r hr => ?_)
      fun _ _ h => h.elim)
    · simp only [putNumber4, List.length_append, List.length_cons, List.length_nil]
      omega
    · refine EStateM.wp_bind .. |>.mpr (EStateM.wp_modify _ |>.mpr ?_)
      have hlist : Keeping (fun m => ({ m with headers := none }, m.headers.isSome))
          (getHeaderList hashSize) :=
        getHeaderList_keeping (fun m _ _ => by cases m.headers <;> rfl) hashSize
      have hwrapped : ∀ m' : Msg, ({ m' with headers := none }, m'.headers.isSome) =
          ({ r.msg with headers := none }, true) → Wrapped m m₀ m' := by
        intro m' h
        obtain ⟨hsame, hsome⟩ := Prod.mk.inj h
        obtain ⟨headers, hheaders⟩ := Option.isSome_iff_exists.mp hsome
        refine ⟨headers, ?_⟩
        rw [hr] at hsame
        cases m'
        simp_all
      exact EStateM.wp_mono (hlist.wp _ (P := fun q => q = ({ r.msg with headers := none }, true)) rfl)
        (fun _ r' h => hwrapped _ h) fun _ r' h => hwrapped _ h

/-! ### The group of a message fits its field -/

/-- If the group of the message fits its field, it still does. -/
def Fit (r r' : Reader) : Prop :=
  r.msg.group.length ≤ Msg.fieldSize → r'.msg.group.length ≤ Msg.fieldSize

instance : Std.Refl Fit := ⟨fun _ h => h⟩

instance : IsTrans Reader Fit := ⟨fun _ _ _ h h' => h' ∘ h⟩

abbrev Fitting (x : Decoder α) : Prop := ∀ r, x.Keeps Fit (fun _ _ => True) r

/-- A decoder that keeps the group keeps it within its field. -/
theorem Keeping.fitting (hx : Keeping Msg.group x) : Fitting x := fun r =>
  (hx r).mono fun r' h => by
    have hgroup : r'.msg.group = r.msg.group := h
    rw [Fit, hgroup]
    exact fun h => h

/-- Two decoders one behind the other. -/
theorem Fitting.bind (hx : Fitting x) (hg : ∀ a, Fitting (g a)) : Fitting (x >>= g) :=
  fun r => EStateM.Keeps.bind (hx r) fun a r' _ => hg a r'

theorem getSequence_fitting : Fitting getSequence :=
  .bind (Keeping.fitting ((getOctets_keeping 2).bind fun _ => .pure _)) fun _ =>
    (assign_keeping fun _ => rfl).fitting

/-- The length of a string is read from one byte, and a NUL byte in it can only make it shorter. -/
theorem getString_length (r : Reader) :
    getString.wp (fun s r' => s.length ≤ Msg.fieldSize ∧ r'.msg = r.msg) (fun _ r' => r'.msg = r.msg)
      r := by
  have hlength : ∀ bs : List UInt8, (CStr.ofBytes bs).length ≤ bs.length := fun bs =>
    (List.takeWhile_prefix _).length_le
  have hoctets : ∀ (size : ℕ) r', r'.msg = r.msg → (getOctets size).wp
      (fun bs r'' => bs.length ≤ size ∧ r''.msg = r.msg) (fun _ r'' => r''.msg = r.msg) r' := by
    intro size r' hr'
    unfold EStateM.wp
    rw [getOctets_eq]
    split_ifs
    · exact hr'
    · exact ⟨by simp, hr'⟩
  have hnumber : getNumber1.wp (fun _ r' => r'.msg = r.msg) (fun _ r' => r'.msg = r.msg) r := by
    refine EStateM.wp_bind .. |>.mpr (EStateM.wp_mono (hoctets 1 r rfl) (fun _ _ h => ?_) fun _ _ h => h)
    exact h.2
  refine EStateM.wp_bind .. |>.mpr (EStateM.wp_mono hnumber (fun size r' hr' => ?_) fun _ _ h => h)
  refine EStateM.wp_bind .. |>.mpr
    (EStateM.wp_mono (hoctets size.toNat r' hr') (fun bs r'' h => ?_) fun _ _ h => h)
  refine ⟨(hlength bs).trans (h.1.trans ?_), h.2⟩
  exact Nat.lt_succ_iff.mp size.toNat_lt

/-- The group that is read fits its field: a string has a size of one byte. -/
theorem getGroup_fitting : Fitting getGroup := fun r =>
  EStateM.wp_bind .. |>.mpr (EStateM.wp_mono (getString_length r) (fun _ _ h _ => h.1)
    fun _ r' h => ⟨by rw [Fit, h]; exact fun h => h, trivial⟩)

/-- The group is within its field after every command. -/
theorem getBody_fitting (id : MsgId) : Fitting (getBody id) := by
  have hnumber1 : Keeping Msg.group getNumber1 := (getOctets_keeping 1).bind fun _ => .pure _
  have hnumber4 : Keeping Msg.group getNumber4 := (getOctets_keeping 4).bind fun _ => .pure _
  have hstatus : Keeping Msg.group getStatus := Keeping.bind hnumber1 fun _ => assign_keeping fun _ => rfl
  have hstring : ∀ f : CStr → Msg → Msg, (∀ s m, (f s m).group = m.group) →
      Fitting (do assign (f (← getString))) := fun f hf =>
    (getString_keeping.bind fun s => assign_keeping (hf s)).fitting
  have hcontent : Fitting getContent := fun r h => h
  cases id with
  | hello =>
    have hlist : ∀ k, Keeping Msg.group (getGroupList k) := by
      intro k
      induction k with
      | zero => exact .pure _
      | succ k ih =>
        exact Keeping.bind getLongstr_keeping fun _ => Keeping.bind (assign_keeping fun _ => rfl) fun _ => ih
    refine getSequence_fitting.bind fun _ => Keeping.fitting ?_
    refine Keeping.bind getString_keeping fun _ => Keeping.bind (assign_keeping fun _ => rfl) fun _ => ?_
    refine Keeping.bind hnumber4 fun k => Keeping.bind (assign_keeping fun _ => rfl) fun _ => ?_
    refine Keeping.bind (hlist k) fun _ => Keeping.bind hstatus fun _ => ?_
    refine Keeping.bind getString_keeping fun _ => Keeping.bind (assign_keeping fun _ => rfl) fun _ => ?_
    refine Keeping.bind hnumber4 fun k => Keeping.bind (assign_keeping fun _ => rfl) fun _ => ?_
    exact getHeaderList_keeping (fun _ _ _ => rfl) k
  | whisper => exact getSequence_fitting.bind fun _ => hcontent
  | shout => exact getSequence_fitting.bind fun _ => getGroup_fitting.bind fun _ => hcontent
  | join | leave => exact getSequence_fitting.bind fun _ => getGroup_fitting.bind fun _ => hstatus.fitting
  | ping | pingOk | goodbye => exact getSequence_fitting
  | elect | leader =>
    exact getSequence_fitting.bind fun _ => getGroup_fitting.bind fun _ => hstring _ fun _ _ => rfl
  | unset => exact Keeping.fitting (Keeping.pure _)

/-- And so it is after every message, also one that is cut. -/
theorem getMessage_fitting : Fitting getMessage := by
  have hnumber1 : Fitting getNumber1 := ((getOctets_keeping 1).bind fun _ => .pure _).fitting
  have hnumber2 : Fitting getNumber2 := ((getOctets_keeping 2).bind fun _ => .pure _).fitting
  refine hnumber2.bind fun signature r => ?_
  refine EStateM.Keeps.ite (fun _ => ?_) fun _ => ?_
  · exact EStateM.Keeps.throw _ trivial
  · refine hnumber1.bind (fun byte => ?_) r
    cases MsgId.ofByte? byte with
    | none => exact fun r => EStateM.Keeps.throw _ trivial
    | some id =>
      refine Fitting.bind (Keeping.fitting (assign_keeping fun _ => rfl)) fun _ => ?_
      refine Fitting.bind (hnumber1.bind fun version r => ?_) fun _ => getBody_fitting id
      exact EStateM.Keeps.ite (fun _ => EStateM.Keeps.throw _ trivial) fun _ => EStateM.Keeps.pure _

end Decoder

/-- The group of a message that was received fits its field, whatever came in. -/
theorem group_length_recv (frames : List Frame) :
    (Msg.recv frames).msg.group.length ≤ Msg.fieldSize := by
  have hnew : (Msg.new .unset).group.length ≤ Msg.fieldSize := Nat.zero_le _
  match frames with
  | [] | [_] => exact hnew
  | identity :: frame :: rest =>
    have h := Decoder.getMessage_fitting ⟨Msg.new .unset, frame, rest⟩
    unfold EStateM.Keeps EStateM.wp at h
    simp only [Msg.recv]
    cases hrun : Decoder.getMessage ⟨Msg.new .unset, frame, rest⟩ with
    | ok _ r => rw [hrun] at h; exact h hnew
    | error e r =>
      rw [hrun] at h
      cases e with
      | truncated => exact h.1 hnew
      | rejected => exact h.1 hnew

/-- In front of the body of a message that was sent are its signature, its id and its version. -/
theorem getMessage_frames {m : Msg} (hid : m.id ≠ .unset) :
    Decoder.getMessage ⟨Msg.new .unset, m.encode, m.contentFrames⟩ =
      Decoder.getBody m.id ⟨{ Msg.new .unset with id := m.id }, m.encodeBody, m.contentFrames⟩ :=
  (Decoder.getMessage_header _ m.id hid 2 m.encodeBody m.contentFrames).trans (if_pos rfl)

/-- A message arrives as the command it was sent as. -/
theorem id_recv (m : Msg) (identity : Frame) : (Msg.recv (identity :: m.frames)).msg.id = m.id := by
  by_cases hid : m.id = .unset
  · have hencode : m.encode = 0xAA :: 0xA1 :: MsgId.unset.toByte :: 2 :: m.encodeBody := by
      rw [Msg.encode, hid]
      rfl
    simp only [Msg.recv, Msg.frames, hencode, Decoder.getMessage_unset, hid]
    rfl
  · have hkeep := Decoder.getBody_keeping_id m.id
      ⟨{ Msg.new .unset with id := m.id }, m.encodeBody, m.contentFrames⟩
    unfold EStateM.Keeps EStateM.wp at hkeep
    simp only [Msg.recv, Msg.frames, getMessage_frames hid]
    cases hrun : Decoder.getBody m.id
        ⟨{ Msg.new .unset with id := m.id }, m.encodeBody, m.contentFrames⟩ with
    | ok _ r => rw [hrun] at hkeep; exact hkeep
    | error e r =>
      rw [hrun] at hkeep
      cases e with
      | truncated => exact hkeep.1
      | rejected => exact hkeep.1

/-- An ELECT arrives with its group and its challenger. -/
theorem elect_recv {m : Msg} (hid : m.id = .elect) (hgroup : m.group.length < 256)
    (hchallenger : m.challengerId.length < 256) (identity : Frame) :
    (Msg.recv (identity :: m.frames)).msg.group = m.group ∧
      (Msg.recv (identity :: m.frames)).msg.challengerId = m.challengerId := by
  have hmessage := getMessage_frames (m := m) (by simp [hid])
  rw [hid, Msg.encodeBody, hid, Decoder.getBody_elect hgroup hchallenger] at hmessage
  simp only [Msg.recv, Msg.frames, hmessage, and_self]

/-- A LEADER arrives with its group and its leader. -/
theorem leader_recv {m : Msg} (hid : m.id = .leader) (hgroup : m.group.length < 256)
    (hleader : m.leaderId.length < 256) (identity : Frame) :
    (Msg.recv (identity :: m.frames)).msg.group = m.group ∧
      (Msg.recv (identity :: m.frames)).msg.leaderId = m.leaderId := by
  have hmessage := getMessage_frames (m := m) (by simp [hid])
  rw [hid, Msg.encodeBody, hid, Decoder.getBody_leader hgroup hleader] at hmessage
  simp only [Msg.recv, Msg.frames, hmessage, and_self]

/-- What holds of a message once its body has been read, to the end or not. -/
theorem recv_of_body {m : Msg} {P : Msg → Prop} (hid : m.id ≠ .unset)
    (hbody : (Decoder.getBody m.id).wp (fun _ r => P r.msg) (fun _ r => P r.msg)
      ⟨{ Msg.new .unset with id := m.id }, m.encodeBody, m.contentFrames⟩) (identity : Frame) :
    (Msg.recv (identity :: m.frames)).rc = 0 ∧
      (Msg.recv (identity :: m.frames)).routingId = identity ∧
      P (Msg.recv (identity :: m.frames)).msg := by
  simp only [Msg.recv, Msg.frames, getMessage_frames hid]
  unfold EStateM.wp at hbody
  cases hrun : Decoder.getBody m.id
      ⟨{ Msg.new .unset with id := m.id }, m.encodeBody, m.contentFrames⟩ with
  | ok _ r =>
    rw [hrun] at hbody
    exact ⟨rfl, rfl, hbody⟩
  | error e r =>
    rw [hrun] at hbody
    obtain rfl := (Decoder.getBody_reads m.id).error hrun
    exact ⟨rfl, rfl, hbody⟩

/-- What a node receives of the frames of a message. -/
theorem carries_recv {m : Msg} (hm : m.Fits) (identity : Frame) :
    (Msg.recv (identity :: m.frames)).rc = 0 ∧
      (Msg.recv (identity :: m.frames)).routingId = identity ∧
      Carries m (Msg.recv (identity :: m.frames)).msg := by
  have hid : ({ Msg.new .unset with id := m.id } : Msg).id = m.id := rfl
  exact recv_of_body hm.id (Decoder.getBody_carries hm hid m.contentFrames) identity

/-- A SHOUT arrives with its group. -/
theorem shout_recv {m : Msg} (hid : m.id = .shout) (hgroup : m.group.length < 256) (identity : Frame) :
    (Msg.recv (identity :: m.frames)).msg.group = m.group := by
  refine (recv_of_body (P := fun m' => m'.group = m.group) (by rw [hid]; decide) ?_ identity).2.2
  rw [hid]
  exact Decoder.getBody_shout hid hgroup m.contentFrames

/-- A HELLO arrives with some of its groups. -/
theorem hello_recv {m : Msg} {groups : List CStr} (hid : m.id = .hello)
    (hendpoint : m.endpoint.length < 256) (hgroups : m.groups = some groups)
    (hnames : ∀ name ∈ groups, name.length < 2 ^ 32) (identity : Frame) {name : CStr}
    (hname : name ∈ (Msg.recv (identity :: m.frames)).msg.groups.getD []) : name ∈ groups := by
  have hrecv := (recv_of_body (P := fun m' => m'.groups = some (groups.take (groups.length % 2 ^ 32)))
    (by rw [hid]; decide) (hid ▸ Decoder.getBody_hello_groups hid hendpoint hgroups hnames
      m.contentFrames) identity).2.2
  rw [hrecv] at hname
  exact List.mem_of_mem_take hname

/-- A HELLO arrives with its endpoint. -/
theorem endpoint_recv {m : Msg} (hid : m.id = .hello) (hendpoint : m.endpoint.length < 256)
    (identity : Frame) : (Msg.recv (identity :: m.frames)).msg.endpoint = m.endpoint := by
  refine (recv_of_body (P := fun m' => m'.endpoint = m.endpoint) (by rw [hid]; decide) ?_ identity).2.2
  rw [hid]
  exact Decoder.getBody_hello_endpoint hid hendpoint m.contentFrames

/-- A HELLO with 2^32 groups arrives without any. -/
theorem wrapped_recv {m : Msg} {groups : List CStr} (hid : m.id = .hello)
    (hendpoint : m.endpoint.length < 256) (hgroups : m.groups = some groups)
    (hcount : groups.length = 2 ^ 32) (hshort : ∀ name ∈ groups, name.length ≤ Msg.fieldSize)
    (identity : Frame) :
    (Msg.recv (identity :: m.frames)).rc = 0 ∧
      (Msg.recv (identity :: m.frames)).routingId = identity ∧
      Decoder.Wrapped m (Msg.new .hello) (Msg.recv (identity :: m.frames)).msg := by
  refine recv_of_body (by rw [hid]; decide) ?_ identity
  rw [hid]
  exact Decoder.getBody_wrapped hid hendpoint hgroups hcount hshort m.contentFrames

end Zyre
