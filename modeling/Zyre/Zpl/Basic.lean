import Zyre.Api

/-!
# Messages as configuration

`zre_msg_zpl` lays a message out as a tree of properties (`zpl`), and `zre_msg_new_zpl` builds a message
from such a tree (`newZpl`). Numbers are decimal text, the routing id and the content hexadecimal text,
a list and a dictionary are sections of their own, which are there only if the field is not null. Text of
either kind is read back (`strtoll_decimal`, `bytesFromStr_strFromBytes`).

The tree itself belongs to `zconfig`, which is not part of the program. Its functions are a parameter
(`Zconfig`), and what is relied on of them is `Zconfig.Lawful`.
-/

namespace Zyre

/-! ### `zconfig` -/

/-- The functions of `zconfig`. -/
structure Zconfig where
  /-- A `zconfig_t`, with what is below it. -/
  Item : Type
  /-- `zconfig_new`, without a parent. -/
  new : CStr → Item
  /-- `zconfig_new`, with a parent. The second item is the new one as it is when the program is done with
  it: the program leaves the parent alone until then. -/
  add : Item → Item → Item
  /-- `zconfig_name`. -/
  name : Item → CStr
  /-- `zconfig_value`. -/
  value : Item → CStr
  /-- `zconfig_set_value`. -/
  setValue : Item → CStr → Item
  /-- `zconfig_child`, and `zconfig_next` from there. -/
  children : Item → List Item
  /-- `zconfig_put`, and `zconfig_putf` with the formatted value. -/
  put : Item → CStr → CStr → Item
  /-- `zconfig_locate`. -/
  locate : Item → CStr → Option Item
  /-- `zconfig_get`, without a default. -/
  get : Item → CStr → Option CStr

namespace Zconfig

/-- An item with a value. -/
def leaf (Z : Zconfig) (name value : CStr) : Z.Item := Z.setValue (Z.new name) value

/-- The names of the children. -/
def names (Z : Zconfig) (self : Z.Item) : List CStr := (Z.children self).map Z.name

/-- What the documentation of `zconfig` says. -/
structure Lawful (Z : Zconfig) : Prop where
  /-- A new item has the name it is given, -/
  name_new : ∀ name, Z.name (Z.new name) = name
  /-- and nothing below it. -/
  children_new : ∀ name, Z.children (Z.new name) = []
  /-- Setting the value keeps the name. -/
  name_setValue : ∀ self value, Z.name (Z.setValue self value) = Z.name self
  /-- The value is the one that was set. -/
  value_setValue : ∀ self value, Z.value (Z.setValue self value) = value
  /-- A parent keeps its name. -/
  name_add : ∀ self item, Z.name (Z.add self item) = Z.name self
  /-- A new item is the last child of its parent. -/
  children_add : ∀ self item, Z.children (Z.add self item) = Z.children self ++ [item]
  /-- `zconfig_put` changes what is below the item, not its name. -/
  name_put : ∀ self path value, Z.name (Z.put self path value) = Z.name self
  /-- A key that is not there is inserted. -/
  children_put : ∀ self path value, 47 ∉ path.bytes → path ∉ Z.names self →
    Z.children (Z.put self path value) = Z.children self ++ [Z.leaf path value]
  /-- In a path the slashes stand between the names: a name that `zconfig_put` makes has none. -/
  names_put : ∀ self path value, ∀ name ∈ Z.names (Z.put self path value),
    name ∈ Z.names self ∨ 47 ∉ name.bytes
  /-- A path without a slash leads to the first child of that name. -/
  locate_eq : ∀ self path, 47 ∉ path.bytes →
    Z.locate self path = (Z.children self).find? fun child => decide (Z.name child = path)
  /-- `zconfig_get` gives the value of the item on the path. -/
  get_eq : ∀ self path, Z.get self path = (Z.locate self path).map Z.value

end Zconfig

/-- The names in the tree that the program writes and reads. -/
inductive Entry
  | message | routingId | content | version | sequence | endpoint | groups | status | name | headers | group
  | challengerId | leaderId
deriving DecidableEq

/-- The text of the name. -/
def Entry.text : Entry → CStr
  | message => .ofChars "message".toList
  | routingId => .ofChars "routing_id".toList
  | content => .ofChars "content".toList
  | version => .ofChars "version".toList
  | sequence => .ofChars "sequence".toList
  | endpoint => .ofChars "endpoint".toList
  | groups => .ofChars "groups".toList
  | status => .ofChars "status".toList
  | name => .ofChars "name".toList
  | headers => .ofChars "headers".toList
  | group => .ofChars "group".toList
  | challengerId => .ofChars "challenger_id".toList
  | leaderId => .ofChars "leader_id".toList

/-- The value of `message`; `unset` has none. -/
def MsgId.text : MsgId → CStr
  | unset => ∅
  | hello => .ofChars "ZRE_MSG_HELLO".toList
  | whisper => .ofChars "ZRE_MSG_WHISPER".toList
  | shout => .ofChars "ZRE_MSG_SHOUT".toList
  | join => .ofChars "ZRE_MSG_JOIN".toList
  | leave => .ofChars "ZRE_MSG_LEAVE".toList
  | ping => .ofChars "ZRE_MSG_PING".toList
  | pingOk => .ofChars "ZRE_MSG_PING_OK".toList
  | elect => .ofChars "ZRE_MSG_ELECT".toList
  | leader => .ofChars "ZRE_MSG_LEADER".toList
  | goodbye => .ofChars "ZRE_MSG_GOODBYE".toList

/-- The chain of `streq` over the value of `message`. -/
def MsgId.parse (message : CStr) : Option MsgId :=
  [hello, whisper, shout, join, leave, ping, pingOk, elect, leader, goodbye].find? fun id =>
    decide (id.text = message)

/-! ### Text -/

/-- How the two functions stop early. -/
inductive Halt
  /-- `zre_msg_new_zpl` returns null. -/
  | null
  /-- An `assert` fails. -/
  | assertion
  /-- `uint` is read although `sscanf` has stored nothing in it. -/
  | indeterminate
deriving DecidableEq

/-- A digit of `"%02x"`. -/
def hexDigit (n : ℕ) : UInt8 := if n < 10 then (48 + n).toUInt8 else (87 + n).toUInt8

/-- `STR_FROM_BYTES`. -/
def strFromBytes (mem : List UInt8) : List UInt8 :=
  mem.flatMap fun b => [hexDigit (b.toNat / 16), hexDigit (b.toNat % 16)]

/-- The value of a hexadecimal digit. -/
def hexValue (b : UInt8) : Option ℕ :=
  if 48 ≤ b && b ≤ 57 then some (b.toNat - 48)
  else if 65 ≤ b && b ≤ 70 then some (b.toNat - 55)
  else if 97 ≤ b && b ≤ 102 then some (b.toNat - 87)
  else none

/-- `sscanf (buff, "%x", &uint)` on two characters: what it stores in `uint`, if anything. White space is
skipped, a sign is taken, and `0x` alone is no number. -/
def sscanfHex (a b : UInt8) : Option UInt32 :=
  match hexValue a, hexValue b with
  | some h, some l => some (16 * h + l).toUInt32
  | some h, none => if h = 0 ∧ (b = 120 ∨ b = 88) then none else some h.toUInt32
  | none, some l =>
    if a = 43 ∨ a = 32 ∨ (9 ≤ a && a ≤ 13) then some l.toUInt32
    else if a = 45 then some (-l.toUInt32) else none
  | none, none => none

/-- The loop of `BYTES_FROM_STR`. -/
def bytesFromPairs : List UInt8 → Except Halt (List UInt8)
  | a :: b :: str => do
    match sscanfHex a b with
    | none => throw .indeterminate
    | some uint => do
      if uint > 0xff then throw .assertion
      let mem ← bytesFromPairs str
      pure (uint.toUInt8 :: mem)
  | _ => pure []

/-- `BYTES_FROM_STR`. -/
def bytesFromStr (str : CStr) : Except Halt (List UInt8) := do
  if str.length % 2 ≠ 0 then throw .null
  bytesFromPairs str.bytes

/-- A sign is taken. -/
def skipSign : List UInt8 → List UInt8
  | 45 :: bytes | 43 :: bytes => bytes
  | bytes => bytes

/-- `strtoll (s, &es, 10)`: the number, and the text from `es`. -/
def strtoll (s : CStr) : ℤ × List UInt8 :=
  let digits := skipSign (s.bytes.dropWhile fun b => b == 32 || (9 ≤ b && b ≤ 13))
  if (digits.takeWhile fun b => 48 ≤ b && b ≤ 57) = [] then (0, s.bytes)
  else (max (-2 ^ 63) (min (2 ^ 63 - 1) s.toInt), digits.dropWhile fun b => 48 ≤ b && b ≤ 57)

/-! ### `zre_msg_zpl` -/

/-- A message with its routing id. -/
structure Routed where
  routingId : Option Frame
  msg : Msg

section

variable (Z : Zconfig) (zmsgEncode : List Frame → Frame) (zmsgDecode : Frame → Option (List Frame))

/-- The content of WHISPER and SHOUT in the tree; `zmsg_encode` asserts that it is there. -/
def putContent (self : Msg) (config : Z.Item) : Except Halt Z.Item :=
  match self.content with
  | some content => pure (Z.put config Entry.content.text (.ofBytes (strFromBytes (zmsgEncode content))))
  | none => throw .assertion

/-- The section of the groups. -/
def groupSection (groups : List CStr) : Z.Item :=
  groups.zipIdx.foldl (fun strings g => Z.put strings (.decimal g.2) g.1) (Z.new Entry.groups.text)

/-- The section of the headers. -/
def headerSection (headers : Headers) : Z.Item :=
  headers.entries.foldl (fun hash e => Z.put hash e.1 e.2) (Z.new Entry.headers.text)

/-- The section with the fields of the command. -/
def contentSection (self : Msg) : Except Halt Z.Item :=
  let config := Z.new Entry.content.text
  let config := Z.put config Entry.version.text (.ofChars ['2'])
  let config := Z.put config Entry.sequence.text (.decimal self.sequence.toNat)
  match self.id with
  | .hello =>
    let config := Z.put config Entry.endpoint.text self.endpoint
    let config := match self.groups with
      | some groups => Z.add config (groupSection Z groups)
      | none => config
    let config := Z.put config Entry.status.text (.decimal self.status.toNat)
    let config := Z.put config Entry.name.text self.name
    match self.headers with
    | some headers => pure (Z.add config (headerSection Z headers))
    | none => pure config
  | .whisper => putContent Z zmsgEncode self config
  | .shout => putContent Z zmsgEncode self (Z.put config Entry.group.text self.group)
  | .join | .leave =>
    let config := Z.put config Entry.group.text self.group
    pure (Z.put config Entry.status.text (.decimal self.status.toNat))
  | .elect =>
    let config := Z.put config Entry.group.text self.group
    pure (Z.put config Entry.challengerId.text self.challengerId)
  | .leader =>
    let config := Z.put config Entry.group.text self.group
    pure (Z.put config Entry.leaderId.text self.leaderId)
  | .ping | .pingOk | .goodbye | .unset => pure config

/-- `zre_msg_zpl`, without a parent. -/
def zpl (self : Routed) : Except Halt Z.Item := do
  let root := Z.new (.ofChars "zre_msg".toList)
  if self.msg.id = .unset then return root
  let root := Z.put root Entry.message.text self.msg.id.text
  let root := match self.routingId with
    | some routingId => Z.put root Entry.routingId.text (.ofBytes (strFromBytes routingId))
    | none => root
  let config ← contentSection Z zmsgEncode self.msg
  return Z.add root config

/-! ### `zre_msg_new_zpl` -/

/-- A value that has to be there. -/
def need (content : Z.Item) (entry : Entry) : Except Halt CStr :=
  match Z.get content entry.text with
  | some s => pure s
  | none => throw .null

/-- A number that has to be there, with nothing behind it. -/
def needNumber (content : Z.Item) (entry : Entry) : Except Halt UInt64 := do
  let s ← need Z content entry
  if (strtoll s).2 ≠ [] then throw .null
  pure (.ofInt (strtoll s).1)

def needSequence (content : Z.Item) (self : Msg) : Except Halt Msg := do
  let uvalue ← needNumber Z content .sequence
  pure { self with sequence := uvalue.toUInt16 }

def needStatus (content : Z.Item) (self : Msg) : Except Halt Msg := do
  let uvalue ← needNumber Z content .status
  pure { self with status := uvalue.toUInt8 }

def needGroup (content : Z.Item) (self : Msg) : Except Halt Msg := do
  pure (self.setGroup (← need Z content .group))

def needContent (content : Z.Item) (self : Msg) : Except Halt Msg := do
  let bvalue ← bytesFromStr (← need Z content .content)
  pure { self with content := zmsgDecode bvalue }

/-- The groups, if there is a section. -/
def readGroups (content : Z.Item) (self : Msg) : Msg :=
  match Z.locate content Entry.groups.text with
  | some zstrings => { self with groups := some ((Z.children zstrings).map Z.value) }
  | none => self

/-- The headers, if there is a section: `zhash_update` for every child. -/
def readHeaders (content : Z.Item) (self : Msg) : Msg :=
  match Z.locate content Entry.headers.text with
  | some zhash => { self with
      headers := some ((Z.children zhash).foldl
        (fun hash child => hash.insert (Z.name child) (Z.value child)) ∅) }
  | none => self

/-- The cases of the `switch` over the id. -/
def readContent (content : Z.Item) (self : Msg) : Except Halt Msg := do
  let self ← needSequence Z content self
  match self.id with
  | .hello => do
    let self := self.setEndpoint (← need Z content .endpoint)
    let self := readGroups Z content self
    let self ← needStatus Z content self
    let self := self.setName (← need Z content .name)
    pure (readHeaders Z content self)
  | .whisper => needContent Z zmsgDecode content self
  | .shout => do
    let self ← needGroup Z content self
    needContent Z zmsgDecode content self
  | .join | .leave => do
    let self ← needGroup Z content self
    needStatus Z content self
  | .elect => do
    let self ← needGroup Z content self
    pure (self.setChallengerId (← need Z content .challengerId))
  | .leader => do
    let self ← needGroup Z content self
    pure (self.setLeaderId (← need Z content .leaderId))
  | .ping | .pingOk | .goodbye | .unset => pure self

/-- `zre_msg_new_zpl`. -/
def newZpl (config : Z.Item) : Except Halt Routed := do
  let message ← need Z config .message
  match MsgId.parse message with
  | none => throw .null
  | some id => do
    let routingId ← match Z.get config Entry.routingId.text with
      | some s => some <$> bytesFromStr s
      | none => pure none
    match Z.locate config Entry.content.text with
    | none => throw .null
    | some content => do
      let msg ← readContent Z zmsgDecode content (Msg.new id)
      pure ⟨routingId, msg⟩

end

/-! ### Text that is read back -/

@[simp]
theorem Entry.text_inj {e e' : Entry} : e.text = e'.text ↔ e = e' := by
  refine ⟨fun h => ?_, congrArg Entry.text⟩
  cases e <;> cases e' <;> first | rfl | exact absurd h (by decide)

theorem MsgId.parse_text {id : MsgId} (hid : id ≠ .unset) : MsgId.parse id.text = some id := by
  cases id <;> first | exact absurd rfl hid | decide

theorem Entry.notMem_text (e : Entry) : 47 ∉ e.text.bytes := by
  cases e <;> decide

namespace Zconfig.Lawful

variable {Z : Zconfig} (hZ : Z.Lawful) {self : Z.Item} {name value : CStr} {e : Entry}

include hZ

theorem name_leaf : Z.name (Z.leaf name value) = name := by
  rw [leaf, hZ.name_setValue, hZ.name_new]

theorem value_leaf : Z.value (Z.leaf name value) = value := hZ.value_setValue _ _

/-- A new entry goes behind the others. -/
theorem children_put_text (h : e.text ∉ Z.names self) :
    Z.children (Z.put self e.text value) = Z.children self ++ [Z.leaf e.text value] :=
  hZ.children_put _ _ _ e.notMem_text h

theorem locate_text : Z.locate self e.text = (Z.children self).find? fun c => decide (Z.name c = e.text) :=
  hZ.locate_eq _ _ e.notMem_text

/-- Putting keys that are not there, all different and without a slash, inserts them in order. -/
theorem children_foldl_put {α : Type*} (f g : α → CStr) {as : List α} (hslash : ∀ a ∈ as, 47 ∉ (f a).bytes)
    (hnodup : (as.map f).Nodup) (h : ∀ a ∈ as, f a ∉ Z.names self) :
    Z.children (as.foldl (fun t a => Z.put t (f a) (g a)) self) =
      Z.children self ++ as.map fun a => Z.leaf (f a) (g a) := by
  induction as generalizing self with
  | nil => simp
  | cons a as ih =>
    rw [List.map_cons, List.nodup_cons] at hnodup
    have hput := hZ.children_put self (f a) (g a) (hslash a List.mem_cons_self) (h a List.mem_cons_self)
    rw [List.foldl_cons, ih (fun a' ha' => hslash a' (List.mem_cons_of_mem _ ha')) hnodup.2, hput]
    · simp
    · intro a' ha' hmem
      have hne : f a' ≠ f a := fun heq => hnodup.1 (heq ▸ List.mem_map_of_mem ha')
      rw [names, hput, List.map_append, List.mem_append, List.map_singleton, List.mem_singleton,
        hZ.name_leaf] at hmem
      exact hmem.elim (h a' (List.mem_cons_of_mem _ ha')) hne

theorem name_foldl_put {α : Type*} (f g : α → CStr) (as : List α) :
    Z.name (as.foldl (fun t a => Z.put t (f a) (g a)) self) = Z.name self := by
  induction as generalizing self with
  | nil => rfl
  | cons a as ih => exact ih.trans (hZ.name_put _ _ _)

end Zconfig.Lawful

/-- Hexadecimal text is read back. -/
theorem bytesFromPairs_strFromBytes (mem : List UInt8) : bytesFromPairs (strFromBytes mem) = .ok mem := by
  have hbyte : ∀ b : UInt8, sscanfHex (hexDigit (b.toNat / 16)) (hexDigit (b.toNat % 16)) =
      some b.toUInt32 := by
    intro b
    -- The two digits are the quotient and the remainder by 16.
    have hvalue : ∀ n < 16, hexValue (hexDigit n) = some n := by decide
    have hb := b.toNat_lt
    rw [sscanfHex, hvalue _ (by omega), hvalue _ (by omega)]
    have hsum : 16 * (b.toNat / 16) + b.toNat % 16 = b.toNat := Nat.div_add_mod _ _
    simp only [hsum, Option.some.injEq]
    refine UInt32.toNat_inj.mp ?_
    rw [Nat.toUInt32_eq, UInt32.toNat_ofNat', UInt8.toNat_toUInt32]
    omega
  induction mem with
  | nil => rfl
  | cons b mem ih =>
    have hle : ¬b.toUInt32 > 0xff := by
      have hb := b.toNat_lt
      rw [gt_iff_lt, UInt32.lt_iff_toNat_lt]
      simp
      omega
    show bytesFromPairs (hexDigit (b.toNat / 16) :: hexDigit (b.toNat % 16) :: strFromBytes mem) = _
    simp only [bytesFromPairs, hbyte, ih, if_neg hle]
    simp [bind, Except.bind, pure, Except.pure]

theorem bytesFromStr_strFromBytes (mem : List UInt8) :
    bytesFromStr (.ofBytes (strFromBytes mem)) = .ok mem := by
  have hdigit : ∀ n < 16, hexDigit n ≠ 0 := by decide
  have hbytes : (CStr.ofBytes (strFromBytes mem)).bytes = strFromBytes mem := by
    refine List.takeWhile_eq_self_iff.mpr fun c hc => ?_
    obtain ⟨b, -, hc⟩ := List.mem_flatMap.mp hc
    have hb := b.toNat_lt
    have hne : c ≠ 0 := by
      rcases List.mem_cons.mp hc with rfl | hc
      · exact hdigit _ (by omega)
      · rw [List.mem_singleton.mp hc]
        exact hdigit _ (by omega)
    simpa using hne
  have heven : (CStr.ofBytes (strFromBytes mem)).length % 2 = 0 := by
    rw [CStr.length, hbytes, strFromBytes, List.length_flatMap]
    simp
  rw [bytesFromStr, heven, hbytes, bytesFromPairs_strFromBytes]
  rfl

theorem bytes_decimal (k : ℕ) : (CStr.decimal k).bytes = (Nat.toDigits 10 k).map Char.toUInt8 := by
  rw [CStr.decimal, if_neg (by omega)]
  exact CStr.bytes_ofChars_digits fun c hc => Nat.isDigit_of_mem_toDigits (by decide) (by decide) hc

theorem digit_of_mem_decimal {k : ℕ} {b : UInt8} (h : b ∈ (CStr.decimal k).bytes) :
    48 ≤ b.toNat ∧ b.toNat ≤ 57 := by
  rw [bytes_decimal] at h
  obtain ⟨c, hc, rfl⟩ := List.mem_map.mp h
  obtain ⟨hlow, hhigh, hval⟩ :=
    CStr.digitChar_bounds (Nat.isDigit_of_mem_toDigits (by decide) (by decide) hc)
  exact ⟨hval ▸ hlow, hval ▸ hhigh⟩

/-- A printed number is read to its end. -/
theorem strtoll_decimal {k : ℕ} (hk : k < 2 ^ 63) : strtoll (.decimal k) = ((k : ℤ), []) := by
  obtain ⟨b, bs, hbs⟩ : ∃ b bs, (CStr.decimal k).bytes = b :: bs := by
    refine List.exists_cons_of_ne_nil ?_
    rw [bytes_decimal]
    simp [Nat.toDigits_ne_nil]
  have hall : ∀ c ∈ b :: bs, (48 ≤ c && c ≤ 57) = true := by
    intro c hc
    have h := digit_of_mem_decimal (hbs ▸ hc)
    simpa [UInt8.le_iff_toNat_le] using h
  have hb := digit_of_mem_decimal (k := k) (b := b) (hbs ▸ List.mem_cons_self)
  -- Neither space nor a sign is skipped, and no byte is left behind the digits.
  have hspace : ¬(b == 32 || (9 ≤ b && b ≤ 13)) = true := by
    simp only [Bool.or_eq_true, Bool.and_eq_true, decide_eq_true_eq, beq_iff_eq, UInt8.le_iff_toNat_le,
      ← UInt8.toNat_inj]
    simp
    omega
  have hsign : skipSign (b :: bs) = b :: bs := by
    unfold skipSign
    split
    · next h => obtain rfl := (List.cons.inj h).1; simp at hb
    · next h => obtain rfl := (List.cons.inj h).1; simp at hb
    · rfl
  rw [strtoll, hbs, List.dropWhile_cons_of_neg (p := fun b : UInt8 => b == 32 || (9 ≤ b && b ≤ 13)) hspace]
  simp only [hsign, List.takeWhile_eq_self_iff.mpr hall, List.dropWhile_eq_nil_iff.mpr hall,
    CStr.toInt_decimal]
  rw [if_neg (List.cons_ne_nil _ _)]
  refine Prod.ext ?_ rfl
  show max _ (min _ _) = _
  omega

end Zyre
