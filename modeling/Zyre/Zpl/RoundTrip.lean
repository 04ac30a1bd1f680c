import Zyre.Msg.Codec
import Zyre.Zpl.Tree

/-!
# The round trip through a configuration

What `zre_msg_zpl` lays out is read back by `zre_msg_new_zpl`, except that the key of a header is taken for
a path: the round trip succeeds if and only if no key contains a slash (`newZpl_zpl_iff`). What
`zre_msg_new_zpl` accepts can be laid out and read once more (`zpl_of_newZpl`). Both hold whatever tree
`zconfig` builds, by what its documentation says of it.
-/

namespace Zyre

/-! ### The sections -/

theorem decimal_injective : Function.Injective fun k : ℕ => CStr.decimal k := fun a b h => by
  simpa using congrArg CStr.toInt h

theorem notMem_decimal (k : ℕ) : 47 ∉ (CStr.decimal k).bytes := fun h => by
  have hdigit := digit_of_mem_decimal h
  simp at hdigit

namespace Zconfig.Lawful

variable {Z : Zconfig} (hZ : Z.Lawful)

include hZ

theorem name_groupSection (groups : List CStr) : Z.name (groupSection Z groups) = Entry.groups.text :=
  (hZ.name_foldl_put (fun g : CStr × ℕ => .decimal g.2) Prod.fst _).trans (hZ.name_new _)

theorem name_headerSection (headers : Headers) : Z.name (headerSection Z headers) = Entry.headers.text :=
  (hZ.name_foldl_put (fun e : Sigma fun _ : CStr => CStr => e.1) (fun e => e.2) _).trans (hZ.name_new _)

/-- The section lists the groups in order. -/
theorem children_groupSection (groups : List CStr) :
    (Z.children (groupSection Z groups)).map Z.value = groups := by
  have hnodup : (groups.zipIdx.map fun g => CStr.decimal g.2).Nodup := by
    have h := (List.nodup_range' (s := 0) (n := groups.length)).map decimal_injective
    rwa [← List.zipIdx_map_snd, List.map_map] at h
  rw [groupSection, hZ.children_foldl_put (fun g : CStr × ℕ => .decimal g.2) Prod.fst
    (fun g _ => notMem_decimal g.2) hnodup (by simp [names, hZ.children_new]), hZ.children_new, List.nil_append,
    List.map_map]
  exact (List.map_congr_left fun g _ => hZ.value_leaf).trans (List.zipIdx_map_fst 0 groups)

/-- Where no key has a slash the section lists the entries in order. -/
theorem children_headerSection {headers : Headers} (h : ∀ key ∈ headers, 47 ∉ key.bytes) :
    Z.children (headerSection Z headers) = headers.entries.map fun e => Z.leaf e.1 e.2 := by
  rw [headerSection, hZ.children_foldl_put (fun e : Sigma fun _ : CStr => CStr => e.1) (fun e => e.2)
    (fun e he => h e.1 (List.mem_keys_of_mem he)) headers.nodupKeys (by simp [names, hZ.children_new]),
    hZ.children_new, List.nil_append]

/-- No name in the section has a slash. -/
theorem notMem_headerSection {headers : Headers} {name : CStr}
    (h : name ∈ Z.names (headerSection Z headers)) : 47 ∉ name.bytes := by
  have hall : ∀ (l : List (Sigma fun _ : CStr => CStr)) (t : Z.Item),
      (∀ name ∈ Z.names t, 47 ∉ name.bytes) →
      ∀ name ∈ Z.names (l.foldl (fun hash e => Z.put hash e.1 e.2) t), 47 ∉ name.bytes := by
    intro l
    induction l with
    | nil => exact fun _ ht => ht
    | cons e l ih =>
      exact fun t ht => ih _ fun name hname => (hZ.names_put _ _ _ name hname).elim (ht name) id
  exact hall _ _ (by simp [names, hZ.children_new]) name h

end Zconfig.Lawful

/-! ### Reading a message back -/

/-- The fields of the command. -/
def Msg.exported (m : Msg) : Msg :=
  let new := (Msg.new m.id).setSequence m.sequence
  match m.id with
  | .hello => { new with
      endpoint := m.endpoint, groups := m.groups, status := m.status, name := m.name, headers := m.headers }
  | .whisper => { new with content := m.content }
  | .shout => { new with group := m.group, content := m.content }
  | .join | .leave => { new with group := m.group, status := m.status }
  | .elect => { new with group := m.group, challengerId := m.challengerId }
  | .leader => { new with group := m.group, leaderId := m.leaderId }
  | .ping | .pingOk | .goodbye | .unset => new

/-- Only HELLO has headers. -/
theorem Msg.headers_exported_of_ne {m : Msg} (hid : m.id ≠ .hello) : m.exported.headers = none := by
  unfold exported
  cases h : m.id <;> first | exact absurd h hid | rfl

section

variable {Z : Zconfig} (hZ : Z.Lawful) {zmsgEncode : List Frame → Frame}
  {zmsgDecode : Frame → Option (List Frame)} {m : Msg} {c : Z.Item} {e : Entry}

include hZ

theorem need_eq {t : Z.Item} (h : Z.locate c e.text = some t) : need Z c e = .ok (Z.value t) := by
  rw [need, hZ.get_eq, h]
  rfl

theorem need_leaf {value : CStr} (h : Z.locate c e.text = some (Z.leaf e.text value)) :
    need Z c e = .ok value := by
  rw [need_eq hZ h, hZ.value_leaf]

theorem needNumber_eq {k : ℕ} (hk : k < 2 ^ 63) (h : Z.locate c e.text = some (Z.leaf e.text (.decimal k))) :
    needNumber Z c e = .ok (.ofInt k) := by
  simp [needNumber, need_leaf hZ h, strtoll_decimal hk, bind, Except.bind, pure, Except.pure]

omit hZ in
/-- Casting a number that was printed. -/
theorem ofInt_natCast {k : ℕ} (hk : k < 2 ^ 63) : (UInt64.ofInt k).toNat = k := by
  have hmod : ((k : ℤ) % 2 ^ 64).toNat = k := by omega
  rw [UInt64.ofInt, hmod, UInt64.toNat_ofNat']
  omega

omit hZ in
theorem toUInt16_ofInt (k : UInt16) : (UInt64.ofInt k.toNat).toUInt16 = k := by
  have hk := k.toNat_lt
  refine UInt16.toNat_inj.mp ?_
  rw [UInt64.toNat_toUInt16, ofInt_natCast (by omega)]
  omega

omit hZ in
theorem toUInt8_ofInt (k : UInt8) : (UInt64.ofInt k.toNat).toUInt8 = k := by
  have hk := k.toNat_lt
  refine UInt8.toNat_inj.mp ?_
  rw [UInt64.toNat_toUInt8, ofInt_natCast (by omega)]
  omega

theorem needSequence_eq {k : UInt16} {self : Msg}
    (h : Z.locate c Entry.sequence.text = some (Z.leaf Entry.sequence.text (.decimal k.toNat))) :
    needSequence Z c self = .ok { self with sequence := k } := by
  have hk := k.toNat_lt
  rw [needSequence, needNumber_eq hZ (by omega) h]
  show Except.ok _ = _
  rw [toUInt16_ofInt]

theorem needStatus_eq {k : UInt8} {self : Msg}
    (h : Z.locate c Entry.status.text = some (Z.leaf Entry.status.text (.decimal k.toNat))) :
    needStatus Z c self = .ok { self with status := k } := by
  have hk := k.toNat_lt
  rw [needStatus, needNumber_eq hZ (by omega) h]
  show Except.ok _ = _
  rw [toUInt8_ofInt]

theorem needContent_eq {frames : List Frame} {self : Msg}
    (hdecode : zmsgDecode (zmsgEncode frames) = some frames)
    (h : Z.locate c Entry.content.text =
      some (Z.leaf Entry.content.text (.ofBytes (strFromBytes (zmsgEncode frames))))) :
    needContent Z zmsgDecode c self = .ok { self with content := some frames } := by
  simp [needContent, need_leaf hZ h, bytesFromStr_strFromBytes, hdecode, bind, Except.bind, pure, Except.pure]

theorem needGroup_eq {group : CStr} {self : Msg} (hgroup : group.length ≤ Msg.fieldSize)
    (h : Z.locate c Entry.group.text = some (Z.leaf Entry.group.text group)) :
    needGroup Z c self = .ok { self with group := group } := by
  simp [needGroup, need_leaf hZ h, Msg.setGroup, CStr.truncate_of_length_le hgroup, bind, Except.bind, pure,
    Except.pure]

/-- A new entry goes behind the others. -/
theorem children_put_of_eq (e : Entry) (value : CStr) {fields : List Z.Item} (hc : Z.children c = fields)
    (h : e.text ∉ fields.map Z.name) :
    Z.children (Z.put c e.text value) = fields ++ [Z.leaf e.text value] := by
  subst hc
  exact hZ.children_put_text h

theorem locate_of_children {fields : List Z.Item} (hc : Z.children c = fields) :
    Z.locate c e.text = fields.find? fun child => decide (Z.name child = e.text) := by
  rw [hZ.locate_text, hc]

/-- The section begins with the version and the number. -/
theorem children_contentSection (k : ℕ) :
    Z.children (Z.put (Z.put (Z.new Entry.content.text) Entry.version.text (.ofChars ['2']))
      Entry.sequence.text (.decimal k)) =
      [Z.leaf Entry.version.text (.ofChars ['2']), Z.leaf Entry.sequence.text (.decimal k)] := by
  have hversion : Z.children (Z.put (Z.new Entry.content.text) Entry.version.text (.ofChars ['2'])) =
      [Z.leaf Entry.version.text (.ofChars ['2'])] :=
    children_put_of_eq hZ .version _ (hZ.children_new _) (by simp)
  exact children_put_of_eq hZ .sequence _ hversion (by simp [hZ.name_leaf])

/-- Where the command has a group, the group comes next, and one more entry behind it. -/
theorem children_groupPut (e : Entry) (group value : CStr) (k : ℕ)
    (h : e ≠ .version ∧ e ≠ .sequence ∧ e ≠ .group) :
    Z.children (Z.put (Z.put (Z.put (Z.put (Z.new Entry.content.text) Entry.version.text (.ofChars ['2']))
      Entry.sequence.text (.decimal k)) Entry.group.text group) e.text value) =
      [Z.leaf Entry.version.text (.ofChars ['2']), Z.leaf Entry.sequence.text (.decimal k)] ++
        [Z.leaf Entry.group.text group, Z.leaf e.text value] := by
  have hgroup := children_put_of_eq hZ .group group (children_contentSection hZ k) (by simp [hZ.name_leaf])
  have hc := children_put_of_eq hZ e value hgroup (by simp [hZ.name_leaf, h])
  rwa [List.append_assoc] at hc

/-- A section of its own goes behind the others, if there is one. -/
theorem children_match {α : Type*} {o : Option α} {f : α → Z.Item} {fields : List Z.Item}
    (hc : Z.children c = fields) :
    Z.children (match o with | some a => Z.add c (f a) | none => c) = fields ++ (o.map f).toList := by
  cases o <;> simp [hc, hZ.children_add]

theorem contentSection_hello (hid : m.id = .hello) : ∃ c, contentSection Z zmsgEncode m = .ok c ∧
    Z.name c = Entry.content.text ∧ Z.children c = [Z.leaf Entry.version.text (.ofChars ['2']),
      Z.leaf Entry.sequence.text (.decimal m.sequence.toNat), Z.leaf Entry.endpoint.text m.endpoint] ++
      (m.groups.map (groupSection Z)).toList ++ [Z.leaf Entry.status.text (.decimal m.status.toNat)] ++
      [Z.leaf Entry.name.text m.name] ++ (m.headers.map (headerSection Z)).toList := by
  have hendpoint := children_put_of_eq hZ .endpoint m.endpoint
    (children_contentSection hZ m.sequence.toNat) (by simp [hZ.name_leaf])
  have hgroups := children_match hZ (o := m.groups) (f := groupSection Z) hendpoint
  have hstatus := children_put_of_eq hZ .status (.decimal m.status.toNat) hgroups
    (by cases m.groups <;> simp [hZ.name_leaf, hZ.name_groupSection])
  have hname := children_put_of_eq hZ .name m.name hstatus
    (by cases m.groups <;> simp [hZ.name_leaf, hZ.name_groupSection])
  have hheaders := children_match hZ (o := m.headers) (f := headerSection Z) hname
  refine ⟨_, ?_, ?_, hheaders⟩
  · rw [contentSection, hid]
    cases m.groups <;> cases m.headers <;> rfl
  · cases m.groups <;> cases m.headers <;> simp [hZ.name_put, hZ.name_add, hZ.name_new]

/-- The dictionary that is read from the section. -/
def reread (Z : Zconfig) (headers : Headers) : Headers :=
  (Z.children (headerSection Z headers)).foldl (fun hash child => hash.insert (Z.name child) (Z.value child)) ∅

variable (zmsgEncode zmsgDecode) in
theorem readContent_hello (hid : m.id = .hello) (hendpoint : m.endpoint.length ≤ Msg.fieldSize)
    (hname : m.name.length ≤ Msg.fieldSize) : ∃ c, contentSection Z zmsgEncode m = .ok c ∧
      Z.name c = Entry.content.text ∧ readContent Z zmsgDecode c (Msg.new .hello) =
        .ok { m.exported with headers := m.headers.map (reread Z) } := by
  obtain ⟨c, hsection, hcontent, hchildren⟩ := @contentSection_hello Z hZ zmsgEncode m hid
  refine ⟨c, hsection, hcontent, ?_⟩
  have hlocate := fun e : Entry => locate_of_children hZ (e := e) hchildren
  have hsequence : ∀ self, needSequence Z c self = .ok { self with sequence := m.sequence } := fun self =>
    needSequence_eq hZ (by rw [hlocate]; simp [hZ.name_leaf])
  have hendpoint' : need Z c .endpoint = .ok m.endpoint :=
    need_leaf hZ (by rw [hlocate]; simp [hZ.name_leaf])
  have hgroups : ∀ self, self.groups = none → readGroups Z c self = { self with groups := m.groups } := by
    intro self hself
    have hself' : { self with groups := none } = self := by rw [← hself]
    rw [readGroups, hlocate]
    cases hgroups : m.groups <;> cases hheaders : m.headers <;>
      simp [hZ.name_leaf, hZ.name_groupSection, hZ.name_headerSection, hZ.children_groupSection, hself']
  have hstatus : ∀ self, needStatus Z c self = .ok { self with status := m.status } := fun self =>
    needStatus_eq hZ (by
      rw [hlocate]
      cases hgroups : m.groups <;> simp [hZ.name_leaf, hZ.name_groupSection])
  have hname' : need Z c .name = .ok m.name := need_leaf hZ (by
    rw [hlocate]
    cases hgroups : m.groups <;> simp [hZ.name_leaf, hZ.name_groupSection])
  have hheaders : ∀ self, self.headers = none →
      readHeaders Z c self = { self with headers := m.headers.map (reread Z) } := by
    intro self hself
    have hself' : { self with headers := none } = self := by rw [← hself]
    rw [readHeaders, hlocate]
    cases hgroups : m.groups <;> cases hheaders : m.headers <;>
      simp [hZ.name_leaf, hZ.name_groupSection, hZ.name_headerSection, reread, hself']
  simp only [readContent, hsequence, bind, Except.bind, Msg.new, hendpoint', Msg.setEndpoint,
    CStr.truncate_of_length_le hendpoint, hgroups, hstatus, hname', Msg.setName,
    CStr.truncate_of_length_le hname, hheaders, pure, Except.pure]
  simp [Msg.exported, hid, Msg.new, Msg.setSequence]

/-- What `zre_msg_zpl` can lay out: the fixed fields are of type `char [256]`, and WHISPER and SHOUT have
content, which `zmsg_decode` gives back. -/
structure Exportable (zmsgEncode : List Frame → Frame) (zmsgDecode : Frame → Option (List Frame)) (m : Msg) :
    Prop where
  id : m.id ≠ .unset
  endpoint : m.endpoint.length ≤ Msg.fieldSize
  name : m.name.length ≤ Msg.fieldSize
  group : m.group.length ≤ Msg.fieldSize
  challengerId : m.challengerId.length ≤ Msg.fieldSize
  leaderId : m.leaderId.length ≤ Msg.fieldSize
  content : m.id.hasContent → ∃ frames, m.content = some frames ∧
    zmsgDecode (zmsgEncode frames) = some frames

/-- The number is read first. -/
theorem needSequence_cons {fields : List Z.Item} {k : UInt16} (hc : Z.children c =
    [Z.leaf Entry.version.text (.ofChars ['2']), Z.leaf Entry.sequence.text (.decimal k.toNat)] ++ fields)
    (self : Msg) : needSequence Z c self = .ok { self with sequence := k } :=
  needSequence_eq hZ (by rw [locate_of_children hZ hc]; simp [hZ.name_leaf])

/-- The fields of the other commands are read back. -/
theorem readContent_exported (hm : Exportable zmsgEncode zmsgDecode m) (hid : m.id ≠ .hello) :
    ∃ c, contentSection Z zmsgEncode m = .ok c ∧ Z.name c = Entry.content.text ∧
      readContent Z zmsgDecode c (Msg.new m.id) = .ok m.exported := by
  have hbase := children_contentSection hZ m.sequence.toNat
  have hcontent : ∀ {frames : List Frame}, m.content = some frames → ∀ config : Z.Item,
      putContent Z zmsgEncode m config =
        .ok (Z.put config Entry.content.text (.ofBytes (strFromBytes (zmsgEncode frames)))) := by
    intro frames hframes config
    rw [putContent, hframes]
    rfl
  cases hcase : m.id with
  | unset => exact absurd hcase hm.id
  | hello => exact absurd hcase hid
  | whisper =>
    obtain ⟨frames, hframes, hdecode⟩ := hm.content (Or.inl hcase)
    have hc := children_put_of_eq hZ .content (.ofBytes (strFromBytes (zmsgEncode frames))) hbase
      (by simp [hZ.name_leaf])
    refine ⟨_, by rw [contentSection, hcase]; exact hcontent hframes _, by simp [hZ.name_put, hZ.name_new], ?_⟩
    simp only [readContent, needSequence_cons hZ hc, bind, Except.bind, Msg.new]
    rw [needContent_eq hZ hdecode (by rw [locate_of_children hZ hc]; simp [hZ.name_leaf])]
    simp [Msg.exported, hcase, Msg.new, Msg.setSequence, hframes]
  | shout =>
    obtain ⟨frames, hframes, hdecode⟩ := hm.content (Or.inr hcase)
    have hc := children_groupPut hZ .content m.group (.ofBytes (strFromBytes (zmsgEncode frames)))
      m.sequence.toNat (by decide)
    refine ⟨_, by rw [contentSection, hcase]; exact hcontent hframes _, by simp [hZ.name_put, hZ.name_new], ?_⟩
    simp only [readContent, needSequence_cons hZ hc, bind, Except.bind, Msg.new]
    rw [needGroup_eq hZ hm.group (by rw [locate_of_children hZ hc]; simp [hZ.name_leaf])]
    simp only []
    rw [needContent_eq hZ hdecode (by rw [locate_of_children hZ hc]; simp [hZ.name_leaf])]
    simp [Msg.exported, hcase, Msg.new, Msg.setSequence, hframes]
  | join | leave =>
    have hc := children_groupPut hZ .status m.group (.decimal m.status.toNat)
      m.sequence.toNat (by decide)
    refine ⟨_, by rw [contentSection, hcase]; rfl, by simp [hZ.name_put, hZ.name_new], ?_⟩
    simp only [readContent, needSequence_cons hZ hc, bind, Except.bind, Msg.new]
    rw [needGroup_eq hZ hm.group (by rw [locate_of_children hZ hc]; simp [hZ.name_leaf])]
    simp only []
    rw [needStatus_eq hZ (k := m.status) (by rw [locate_of_children hZ hc]; simp [hZ.name_leaf])]
    simp [Msg.exported, hcase, Msg.new, Msg.setSequence]
  | elect =>
    have hc := children_groupPut hZ .challengerId m.group m.challengerId m.sequence.toNat (by decide)
    refine ⟨_, by rw [contentSection, hcase]; rfl, by simp [hZ.name_put, hZ.name_new], ?_⟩
    simp only [readContent, needSequence_cons hZ hc, bind, Except.bind, Msg.new]
    rw [needGroup_eq hZ hm.group (by rw [locate_of_children hZ hc]; simp [hZ.name_leaf])]
    simp only []
    rw [(need_leaf hZ (by rw [locate_of_children hZ hc]; simp [hZ.name_leaf]) :
      need Z _ .challengerId = .ok m.challengerId)]
    simp [Msg.exported, hcase, Msg.new, Msg.setSequence, Msg.setChallengerId,
      CStr.truncate_of_length_le hm.challengerId, pure, Except.pure]
  | leader =>
    have hc := children_groupPut hZ .leaderId m.group m.leaderId m.sequence.toNat (by decide)
    refine ⟨_, by rw [contentSection, hcase]; rfl, by simp [hZ.name_put, hZ.name_new], ?_⟩
    simp only [readContent, needSequence_cons hZ hc, bind, Except.bind, Msg.new]
    rw [needGroup_eq hZ hm.group (by rw [locate_of_children hZ hc]; simp [hZ.name_leaf])]
    simp only []
    rw [(need_leaf hZ (by rw [locate_of_children hZ hc]; simp [hZ.name_leaf]) :
      need Z _ .leaderId = .ok m.leaderId)]
    simp [Msg.exported, hcase, Msg.new, Msg.setSequence, Msg.setLeaderId,
      CStr.truncate_of_length_le hm.leaderId, pure, Except.pure]
  | ping | pingOk | goodbye =>
    have hc := hbase.trans (List.append_nil _).symm
    refine ⟨_, by rw [contentSection, hcase]; rfl, by simp [hZ.name_put, hZ.name_new], ?_⟩
    simp only [readContent, needSequence_cons hZ hc, bind, Except.bind, Msg.new]
    simp [Msg.exported, hcase, Msg.new, Msg.setSequence, pure, Except.pure]

/-- Where no key has a slash, every header is read back. -/
theorem lookup_reread {headers : Headers} (h : ∀ key ∈ headers, 47 ∉ key.bytes) (key : CStr) :
    (reread Z headers).lookup key = headers.lookup key := by
  rw [reread, hZ.children_headerSection h, List.foldl_map]
  simp only [hZ.name_leaf, hZ.value_leaf]
  refine (AList.lookup_foldl_insert key headers.nodupKeys ∅).trans ?_
  rw [AList.lookup_empty, Option.or_none]
  rfl

/-- No key that is read has a slash. -/
theorem notMem_of_mem_reread {headers : Headers} {key : CStr} (h : key ∈ reread Z headers) :
    47 ∉ key.bytes := by
  have hall : ∀ (l : List Z.Item) (s : Headers),
      key ∈ l.foldl (fun hash child => hash.insert (Z.name child) (Z.value child)) s →
        key ∈ l.map Z.name ∨ key ∈ s := by
    intro l
    induction l with
    | nil => exact fun s hs => .inr hs
    | cons child l ih =>
      intro s hs
      rcases ih _ hs with hl | hs
      · exact .inl (List.mem_cons_of_mem _ hl)
      · rcases (AList.mem_insert s).mp hs with rfl | hs
        · exact .inl List.mem_cons_self
        · exact .inr hs
  rcases hall _ _ h with hname | hempty
  · exact hZ.notMem_headerSection hname
  · exact absurd hempty (AList.notMem_empty key)

/-! ### The round trip -/

/-- A tree with the name of the command, the routing id if there is one, and a section that is read. -/
theorem newZpl_eq {id : MsgId} {config : Z.Item} {routingId : Option Frame} (hid : id ≠ .unset)
    (hmessage : Z.locate config Entry.message.text = some (Z.leaf Entry.message.text id.text))
    (hroutingId : Z.locate config Entry.routingId.text =
      routingId.map fun mem => Z.leaf Entry.routingId.text (.ofBytes (strFromBytes mem)))
    (hcontent : Z.locate config Entry.content.text = some c)
    (hread : readContent Z zmsgDecode c (Msg.new id) = .ok m) :
    newZpl Z zmsgDecode config = .ok ⟨routingId, m⟩ := by
  rw [newZpl, need_leaf hZ hmessage, hZ.get_eq, hroutingId, hcontent]
  cases routingId <;>
    simp [MsgId.parse_text hid, hread, hZ.value_leaf, bytesFromStr_strFromBytes, bind, Except.bind, pure,
      Except.pure]

/-- The tree of a message is read: the routing id and the fields are those of the message, and the headers
what the section keeps of them. -/
theorem newZpl_zpl_eq {self : Routed} (hm : Exportable zmsgEncode zmsgDecode self.msg) :
    ∃ config, zpl Z zmsgEncode self = .ok config ∧ newZpl Z zmsgDecode config =
      .ok ⟨self.routingId, { self.msg.exported with headers := self.msg.exported.headers.map (reread Z) }⟩ := by
  obtain ⟨c, hsection, hname, hread⟩ : ∃ c, contentSection Z zmsgEncode self.msg = .ok c ∧
      Z.name c = Entry.content.text ∧ readContent Z zmsgDecode c (Msg.new self.msg.id) =
        .ok { self.msg.exported with headers := self.msg.exported.headers.map (reread Z) } := by
    by_cases hid : self.msg.id = .hello
    · obtain ⟨c, hsection, hname, hread⟩ := readContent_hello hZ zmsgEncode zmsgDecode hid hm.endpoint hm.name
      refine ⟨c, hsection, hname, ?_⟩
      rw [hid, hread]
      simp [Msg.exported, hid]
    · obtain ⟨c, hsection, hname, hread⟩ := readContent_exported hZ hm hid
      refine ⟨c, hsection, hname, hread.trans ?_⟩
      rw [Msg.headers_exported_of_ne hid, Option.map_none, ← Msg.headers_exported_of_ne hid]
  refine ⟨_, by rw [zpl, if_neg hm.id, hsection]; rfl, ?_⟩
  have hmessage := children_put_of_eq hZ .message self.msg.id.text
    (hZ.children_new (.ofChars "zre_msg".toList)) (by simp)
  cases hrouting : self.routingId with
  | none =>
    have hlocate := fun e : Entry => locate_of_children hZ (e := e)
      ((hZ.children_add _ c).trans (congrArg (· ++ [c]) hmessage))
    exact newZpl_eq hZ hm.id ((hlocate _).trans (by simp [hZ.name_leaf]))
      ((hlocate _).trans (by simp [hZ.name_leaf, hname]))
      ((hlocate _).trans (by simp [hZ.name_leaf, hname])) hread
  | some routingId =>
    have hroutingId := children_put_of_eq hZ .routingId (.ofBytes (strFromBytes routingId))
      hmessage (by simp [hZ.name_leaf])
    have hlocate := fun e : Entry => locate_of_children hZ (e := e)
      ((hZ.children_add _ c).trans (congrArg (· ++ [c]) hroutingId))
    exact newZpl_eq hZ hm.id ((hlocate _).trans (by simp [hZ.name_leaf]))
      ((hlocate _).trans (by simp [hZ.name_leaf]))
      ((hlocate _).trans (by simp [hZ.name_leaf, hname])) hread

/-- `zmsg_encode` on frames of at most 254 bytes: each behind its size. -/
def encodeShort (frames : List Frame) : Frame := frames.flatMap fun frame => frame.length.toUInt8 :: frame

/-- `zmsg_decode` on at most `n` such frames. -/
def decodeShort : ℕ → Frame → Option (List Frame)
  | _, [] => some []
  | 0, _ :: _ => none
  | n + 1, size :: data =>
    if size.toNat ≤ data.length then
      (decodeShort n (data.drop size.toNat)).map (data.take size.toNat :: ·)
    else none

/-- **Round trip through a tree.** What is laid out is read back, the routing id and all fields, and the
headers of HELLO if and only if no key has a slash. `zconfig_put` takes the key of a header for a path, and
makes an item for each of the names that the slashes separate, so that another key is read. -/
theorem newZpl_zpl_iff {self : Routed} (hm : Exportable zmsgEncode zmsgDecode self.msg) :
    ∃ config self', zpl Z zmsgEncode self = .ok config ∧ newZpl Z zmsgDecode config = .ok self' ∧
      self'.routingId = self.routingId ∧
      { self'.msg with headers := none } = { self.msg.exported with headers := none } ∧
      (self'.msg.Alike self.msg.exported ↔
        (self.msg.id = .hello → ∀ key ∈ self.msg.headers.getD ∅, 47 ∉ key.bytes)) := by
  obtain ⟨config, hzpl, hnew⟩ := newZpl_zpl_eq hZ hm
  refine ⟨config, _, hzpl, hnew, rfl, rfl, fun halike hid key hkey => ?_, fun h => ⟨rfl, fun key => ?_⟩⟩
  · -- A key that is found in the headers has been read, and what is read has no slash.
    have hexported : self.msg.exported.headers = self.msg.headers := by rw [Msg.exported, hid]
    cases hheaders : self.msg.headers with
    | none =>
      rw [hheaders] at hkey
      exact absurd hkey (AList.notMem_empty key)
    | some headers =>
      have hlookup := halike.headers key
      rw [hexported, hheaders] at hlookup
      have hread : (reread Z headers).lookup key = headers.lookup key := Option.some.inj hlookup
      rw [hheaders] at hkey
      exact notMem_of_mem_reread hZ (AList.lookup_isSome.mp (hread ▸ AList.lookup_isSome.mpr hkey))
  · by_cases hid : self.msg.id = .hello
    · have hexported : self.msg.exported.headers = self.msg.headers := by rw [Msg.exported, hid]
      rw [hexported]
      cases hheaders : self.msg.headers with
      | none => rfl
      | some headers =>
        have hkeys := h hid
        rw [hheaders] at hkeys
        exact congrArg some (lookup_reread hZ hkeys key)
    · rw [Msg.headers_exported_of_ne hid]
      rfl

/-- A header under the key `a/b`. -/
def slashed : Msg := { Msg.new .hello with headers := some ((∅ : Headers).insert (.ofChars ['a', '/', 'b']) ∅) }

omit hZ in
theorem newZpl_zpl_slashed : ∃ config self', zpl Config.zconfig encodeShort ⟨none, slashed⟩ = .ok config ∧
    newZpl Config.zconfig (decodeShort 1) config = .ok self' ∧ ¬self'.msg.Alike slashed.exported := by
  have hempty : (∅ : CStr).length ≤ Msg.fieldSize := by decide
  have hm : Exportable encodeShort (decodeShort 1) slashed :=
    ⟨by decide, hempty, hempty, hempty, hempty, hempty, fun hid => by rcases hid with hid | hid <;> cases hid⟩
  obtain ⟨config, self', hzpl, hnew, -, -, halike⟩ :=
    @newZpl_zpl_iff _ Config.lawful_zconfig _ _ ⟨none, slashed⟩ hm
  refine ⟨config, self', hzpl, hnew, fun h => halike.mp h rfl (.ofChars ['a', '/', 'b']) ?_ (by decide)⟩
  exact (AList.mem_insert _).mpr (.inl rfl)

end

/-! ### What is accepted -/

/-- A message that was read from a tree: the fixed fields are cut, and a field that the command does not have
is empty. -/
structure Imported (m : Msg) : Prop where
  id : m.id ≠ .unset
  exported : m.exported = m
  endpoint : m.endpoint.length ≤ Msg.fieldSize
  name : m.name.length ≤ Msg.fieldSize
  group : m.group.length ≤ Msg.fieldSize
  challengerId : m.challengerId.length ≤ Msg.fieldSize
  leaderId : m.leaderId.length ≤ Msg.fieldSize

section

variable {Z : Zconfig} {zmsgEncode : List Frame → Frame} {zmsgDecode : Frame → Option (List Frame)}
  {c : Z.Item} {self self' : Msg}

/-- If a computation succeeds, its first step does, and then the rest. -/
theorem bind_eq_ok {α β : Type} {x : Except Halt α} {f : α → Except Halt β} {b : β} (h : x >>= f = .ok b) :
    ∃ a, x = .ok a ∧ f a = .ok b := by
  cases x with
  | error e => cases h
  | ok a => exact ⟨a, rfl, h⟩

theorem sequence_of_needSequence (h : needSequence Z c self = .ok self') :
    ∃ k, self' = { self with sequence := k } := by
  obtain ⟨uvalue, -, huvalue⟩ := bind_eq_ok h
  exact ⟨_, (Except.ok.inj huvalue).symm⟩

theorem status_of_needStatus (h : needStatus Z c self = .ok self') : ∃ k, self' = { self with status := k } := by
  obtain ⟨uvalue, -, huvalue⟩ := bind_eq_ok h
  exact ⟨_, (Except.ok.inj huvalue).symm⟩

theorem group_of_needGroup (h : needGroup Z c self = .ok self') :
    ∃ group : CStr, group.length ≤ Msg.fieldSize ∧ self' = { self with group := group } := by
  obtain ⟨s, -, hs⟩ := bind_eq_ok h
  exact ⟨_, CStr.length_truncate_le _ s, (Except.ok.inj hs).symm⟩

theorem content_of_needContent (h : needContent Z zmsgDecode c self = .ok self') :
    ∃ content, self' = { self with content := content } := by
  obtain ⟨s, -, hs⟩ := bind_eq_ok h
  obtain ⟨bvalue, -, hbvalue⟩ := bind_eq_ok hs
  exact ⟨_, (Except.ok.inj hbvalue).symm⟩

theorem readGroups_eq (c : Z.Item) (self : Msg) :
    ∃ groups, readGroups Z c self = { self with groups := groups } := by
  unfold readGroups
  split <;> exact ⟨_, rfl⟩

theorem readHeaders_eq (c : Z.Item) (self : Msg) :
    ∃ headers, readHeaders Z c self = { self with headers := headers } := by
  unfold readHeaders
  split <;> exact ⟨_, rfl⟩

theorem imported_of_readContent {id : MsgId} (hid : id ≠ .unset)
    (h : readContent Z zmsgDecode c (Msg.new id) = .ok self) : Imported self := by
  obtain ⟨m, hsequence, h⟩ := bind_eq_ok h
  obtain ⟨k, rfl⟩ := sequence_of_needSequence hsequence
  have hempty : (∅ : CStr).length ≤ Msg.fieldSize := by decide
  cases id with
  | unset => exact absurd rfl hid
  | hello =>
    obtain ⟨endpoint, -, h⟩ := bind_eq_ok h
    obtain ⟨groups, hgroups⟩ := readGroups_eq c (({ Msg.new .hello with sequence := k }).setEndpoint endpoint)
    simp only [Msg.new] at h hgroups
    rw [hgroups] at h
    obtain ⟨m, hstatus, h⟩ := bind_eq_ok h
    obtain ⟨status, rfl⟩ := status_of_needStatus hstatus
    obtain ⟨name, -, h⟩ := bind_eq_ok h
    obtain ⟨headers, hheaders⟩ := readHeaders_eq c (Msg.setName _ name)
    obtain rfl := (Except.ok.inj h).symm.trans hheaders
    exact ⟨hid, rfl, CStr.length_truncate_le _ _, CStr.length_truncate_le _ _, hempty, hempty, hempty⟩
  | whisper =>
    obtain ⟨content, rfl⟩ := content_of_needContent h
    exact ⟨hid, rfl, hempty, hempty, hempty, hempty, hempty⟩
  | shout =>
    obtain ⟨m, hgroup, h⟩ := bind_eq_ok h
    obtain ⟨group, hlength, rfl⟩ := group_of_needGroup hgroup
    obtain ⟨content, rfl⟩ := content_of_needContent h
    exact ⟨hid, rfl, hempty, hempty, hlength, hempty, hempty⟩
  | join | leave =>
    obtain ⟨m, hgroup, h⟩ := bind_eq_ok h
    obtain ⟨group, hlength, rfl⟩ := group_of_needGroup hgroup
    obtain ⟨status, rfl⟩ := status_of_needStatus h
    exact ⟨hid, rfl, hempty, hempty, hlength, hempty, hempty⟩
  | elect =>
    obtain ⟨m, hgroup, h⟩ := bind_eq_ok h
    obtain ⟨group, hlength, rfl⟩ := group_of_needGroup hgroup
    obtain ⟨challengerId, -, h⟩ := bind_eq_ok h
    obtain rfl := Except.ok.inj h
    exact ⟨hid, rfl, hempty, hempty, hlength, CStr.length_truncate_le _ _, hempty⟩
  | leader =>
    obtain ⟨m, hgroup, h⟩ := bind_eq_ok h
    obtain ⟨group, hlength, rfl⟩ := group_of_needGroup hgroup
    obtain ⟨leaderId, -, h⟩ := bind_eq_ok h
    obtain rfl := Except.ok.inj h
    exact ⟨hid, rfl, hempty, hempty, hlength, hempty, CStr.length_truncate_le _ _⟩
  | ping | pingOk | goodbye =>
    obtain rfl := Except.ok.inj h
    exact ⟨hid, rfl, hempty, hempty, hempty, hempty, hempty⟩

theorem imported_of_newZpl {config : Z.Item} {self : Routed} (h : newZpl Z zmsgDecode config = .ok self) :
    Imported self.msg := by
  obtain ⟨message, -, h⟩ := bind_eq_ok h
  cases hid : MsgId.parse message with
  | none => rw [hid] at h; cases h
  | some id =>
    rw [hid] at h
    have hunset : id ≠ .unset := fun hunset => by
      have hmem := List.mem_of_find?_eq_some hid
      rw [hunset] at hmem
      exact absurd hmem (by decide)
    cases hrouting : Z.get config Entry.routingId.text <;> rw [hrouting] at h <;>
      obtain ⟨routingId, -, h⟩ := bind_eq_ok h <;>
      cases hcontent : Z.locate config Entry.content.text <;> rw [hcontent] at h
    all_goals first
    | cases h
    | obtain ⟨msg, hread, h⟩ := bind_eq_ok h
      obtain rfl := Except.ok.inj h
      exact imported_of_readContent hunset hread

/-- **What is accepted can be laid out.** A message that was read from a tree can be laid out again, and is
read once more as it was, except for headers whose keys have a slash. But content that `zmsg_decode` refuses
is accepted: the message is then without content, and laying it out ends in an assertion. -/
theorem zpl_of_newZpl (hZ : Z.Lawful) {config : Z.Item} {self : Routed} (h : newZpl Z zmsgDecode config = .ok self)
    (hcodec : ∀ frames, self.msg.content = some frames → zmsgDecode (zmsgEncode frames) = some frames) :
    self.msg.id.hasContent ∧ self.msg.content = none ∧ zpl Z zmsgEncode self = .error .assertion ∨
    ∃ config' self', zpl Z zmsgEncode self = .ok config' ∧ newZpl Z zmsgDecode config' = .ok self' ∧
      self'.routingId = self.routingId ∧
      (self'.msg.Alike self.msg ↔ ∀ key ∈ self.msg.headers.getD ∅, 47 ∉ key.bytes) := by
  have himported := imported_of_newZpl h
  -- `zmsg_encode` asserts that there is content; `zmsg_decode` may have left none.
  by_cases hnone : self.msg.id.hasContent ∧ self.msg.content = none
  · refine .inl ⟨hnone.1, hnone.2, ?_⟩
    obtain ⟨hid | hid, hcontent⟩ := hnone <;>
      simp [zpl, contentSection, putContent, hid, hcontent, bind, Except.bind, throw, throwThe,
        MonadExceptOf.throw]
  · have hm : Exportable zmsgEncode zmsgDecode self.msg :=
      { himported with
        content := fun hid => by
          obtain ⟨frames, hframes⟩ := Option.ne_none_iff_exists'.mp fun hcontent => hnone ⟨hid, hcontent⟩
          exact ⟨frames, hframes, hcodec frames hframes⟩ }
    obtain ⟨config', self', hzpl, hnew, hrouting, -, halike⟩ := newZpl_zpl_iff hZ hm
    rw [himported.exported] at halike
    refine .inr ⟨config', self', hzpl, hnew, hrouting,
      halike.trans ⟨fun hkeys key hkey => ?_, fun hkeys _ => hkeys⟩⟩
    by_cases hid : self.msg.id = .hello
    · exact hkeys hid key hkey
    · rw [← himported.exported, Msg.headers_exported_of_ne hid] at hkey
      exact absurd hkey (AList.notMem_empty key)

/-- A SHOUT with one frame. -/
def laidOut : Routed where
  routingId := some [1, 2]
  msg := { Msg.new .shout with group := .ofChars "CHAT".toList, content := some [[72, 105]] }

theorem zpl_of_newZpl_laidOut :
    laidOut.msg.id.hasContent ∧ laidOut.msg.content = none ∧
        zpl Config.zconfig encodeShort laidOut = .error .assertion ∨
    ∃ config' self', zpl Config.zconfig encodeShort laidOut = .ok config' ∧
      newZpl Config.zconfig (decodeShort 1) config' = .ok self' ∧
      self'.routingId = laidOut.routingId ∧
      (self'.msg.Alike laidOut.msg ↔ ∀ key ∈ laidOut.msg.headers.getD ∅, 47 ∉ key.bytes) := by
  have hempty : (∅ : CStr).length ≤ Msg.fieldSize := by decide
  have hcodec : ∀ frames, laidOut.msg.content = some frames →
      decodeShort 1 (encodeShort frames) = some frames := by
    intro frames hframes
    obtain rfl := Option.some.inj hframes
    rfl
  have hm : Exportable encodeShort (decodeShort 1) laidOut.msg :=
    ⟨by decide, hempty, hempty, by decide, hempty, hempty, fun _ => ⟨_, rfl, rfl⟩⟩
  obtain ⟨config, -, hnew⟩ := newZpl_zpl_eq Config.lawful_zconfig hm
  have hnew : newZpl Config.zconfig (decodeShort 1) config = .ok laidOut := hnew
  exact zpl_of_newZpl Config.lawful_zconfig hnew hcodec

end

end Zyre
