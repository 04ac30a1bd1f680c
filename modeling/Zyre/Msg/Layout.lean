import Zyre.ForMathlib.Reading
import Zyre.Msg.Recv

/-!
# The layout of the ten commands

`layout id` is the language of the field octets of a command, written down from the grammar and not
from the decoder, and `Complete` says of a frame that it begins with the header and all fields of
some command. The decoder gets through exactly the complete frames; of the others it rejects those
with a wrong signature, id or version and finds the rest too short.
-/

namespace Zyre

open Language

/-! ### The grammar -/

/-- A fixed number of octets. -/
abbrev octets (k : ℕ) : Language UInt8 := letters k

/-- A size octet and as many octets. -/
def string : Language UInt8 := sized 1 fun u => octets (u.headD 0).toNat

/-- A size of four octets and as many octets. -/
def longstr : Language UInt8 := sized 4 fun u => octets (numberOf u)

/-- A count of four octets and as many items. -/
def counted (item : Language UInt8) : Language UInt8 := sized 4 fun u => item ^ numberOf u

/-- The fields of a command, after the version. -/
def layout : MsgId → Language UInt8
  | .hello =>
    octets 2 * string * counted longstr * octets 1 * string * counted (string * longstr)
  | .whisper => octets 2
  | .shout => octets 2 * string
  | .join | .leave => octets 2 * string * octets 1
  | .ping | .pingOk | .goodbye => octets 2
  | .elect | .leader => octets 2 * string * string
  | .unset => 1

/-- The frame begins with the signature, the id, the version and all fields of a command. -/
def Complete (frame : Frame) : Prop :=
  ∃ id, id ≠ .unset ∧ ∃ body ∈ layout id, [0xAA, 0xA1, id.toByte, 2] ++ body <+: frame

/-- The frame is long enough to tell that its signature, id or version is wrong. -/
inductive Rejected : Frame → Prop
  | signature {a b : UInt8} {tail : List UInt8} (h : ¬(a = 0xAA ∧ b = 0xA1)) :
      Rejected (a :: b :: tail)
  | id {c : UInt8} {tail : List UInt8} (h : MsgId.ofByte? c = none) :
      Rejected (0xAA :: 0xA1 :: c :: tail)
  | version {id : MsgId} {v : UInt8} {tail : List UInt8} (hid : id ≠ .unset) (h : v ≠ 2) :
      Rejected (0xAA :: 0xA1 :: id.toByte :: v :: tail)

/-- A sized field followed by another field is one sized field whose contents are followed by it. -/
theorem sized_mul {k : ℕ} {M : List UInt8 → Language UInt8} {R : Language UInt8} :
    sized k M * R = sized k fun u => M u * R := by
  ext w
  constructor
  · rintro ⟨_, ⟨u, v, hu, hv, rfl⟩, x, hx, rfl⟩
    exact ⟨u, v ++ x, hu, append_mem_mul hv hx, by simp⟩
  · rintro ⟨u, _, hu, ⟨v, hv, x, hx, rfl⟩, rfl⟩
    exact ⟨u ++ v, ⟨u, v, hu, hv, rfl⟩, x, hx, by simp⟩

namespace Decoder

/-- A decoder of these reads a word of the language, and can only find the frame too short. -/
abbrev Reads {α : Type} (x : Decoder α) (L : Language UInt8) : Prop :=
  EStateM.Reads Reader.needle .truncated x L

/-! ### The `GET_` macros read their formats -/

/-- `GET_OCTETS` fails exactly when fewer bytes than asked for are left. -/
theorem getOctets_eq (size : ℕ) (r : Reader) :
    getOctets size r = if r.needle.length < size then .error .truncated r
      else .ok (r.needle.take size) { r with needle := r.needle.drop size } := by
  have hstart : getOctets size r = (do
      if r.needle.length < size then throw .truncated
      modify fun r => { r with needle := r.needle.drop size }
      pure (r.needle.take size) : Decoder (List UInt8)) r := rfl
  rw [hstart]
  by_cases h : r.needle.length < size
  · simp only [if_pos h]
    rfl
  · simp only [if_neg h]
    rfl

/-- `GET_OCTETS` takes its bytes off the front of the needle. -/
theorem getOctets_takes (size : ℕ) :
    EStateM.Takes Reader.needle .truncated (getOctets size) size id where
  ok {r bs r'} h := by
    rw [getOctets_eq] at h
    split_ifs at h with hlt
    cases h
    exact ⟨r.needle.take size, List.length_take_of_le (not_lt.mp hlt),
      List.take_append_drop size r.needle, rfl⟩
  of_append {r w t} hw happend := by
    have hnot : ¬r.needle.length < size := by rw [← happend, List.length_append]; omega
    refine ⟨{ r with needle := t }, ?_, rfl⟩
    rw [getOctets_eq, if_neg hnot, ← happend, ← hw, List.take_left, List.drop_left]
    rfl
  error {r e r'} h := by
    rw [getOctets_eq] at h
    split_ifs at h with hlt
    cases h
    rfl

/-- `GET_NUMBER1` takes one byte. -/
theorem getNumber1_takes :
    EStateM.Takes Reader.needle .truncated getNumber1 1 fun u => u.headD 0 :=
  (getOctets_takes 1).map fun u => u.headD 0

/-- `GET_NUMBER4` takes four bytes and reads them as a big-endian number. -/
theorem getNumber4_takes : EStateM.Takes Reader.needle .truncated getNumber4 4 numberOf :=
  (getOctets_takes 4).map numberOf

/-- `GET_NUMBER2` reads two bytes, whatever they are. -/
theorem getNumber2_reads : Reads getNumber2 (octets 2) :=
  ((getOctets_takes 2).map fun u => UInt16.ofNat (numberOf u)).reads

/-- `GET_STRING` reads a byte of length and as many bytes of text. -/
theorem getString_reads : Reads getString string :=
  getNumber1_takes.bind fun _ => ((getOctets_takes _).map CStr.ofBytes).reads

/-- `GET_LONGSTR` reads four bytes of length and as many bytes of text. -/
theorem getLongstr_reads : Reads getLongstr longstr :=
  getNumber4_takes.bind fun _ => ((getOctets_takes _).map CStr.ofBytes).reads

variable {α : Type} {f : Msg → Msg} {L M : Language UInt8}

/-- Storing a field of the message reads nothing. -/
theorem assign_reads : Reads (assign f) 1 := .modify fun _ => rfl

/-- A field that is read and then assigned. -/
theorem reads_assign {x : Decoder α} {g : α → Msg → Msg} (hx : Reads x L) :
    Reads (do assign (g (← x))) L := by
  have h := hx.bind fun b => assign_reads (f := g b)
  rwa [mul_one] at h

/-- A store in front of a decoder leaves the language the decoder reads. -/
theorem reads_assign_bind {y : Unit → Decoder α} (hy : Reads (y ⟨⟩) L) :
    Reads (assign f >>= y) L := by
  have h := (assign_reads (f := f)).bind fun _ => hy
  rwa [one_mul] at h

theorem getSequence_reads : Reads getSequence (octets 2) := reads_assign getNumber2_reads

theorem getStatus_reads : Reads getStatus (octets 1) := reads_assign getNumber1_takes.reads

theorem getGroup_reads : Reads getGroup string := reads_assign getString_reads

/-- The loop over the groups of a HELLO reads as many long strings as its count says. -/
theorem getGroupList_reads (listSize : ℕ) : Reads (getGroupList listSize) (longstr ^ listSize) := by
  induction listSize with
  | zero =>
    rw [pow_zero]
    exact .pure _
  | succ listSize ih =>
    rw [pow_succ']
    exact getLongstr_reads.bind fun _ => reads_assign_bind ih

/-- The loop over the headers of a HELLO reads as many pairs of a string and a long string as its count
says. -/
theorem getHeaderList_reads (hashSize : ℕ) :
    Reads (getHeaderList hashSize) ((string * longstr) ^ hashSize) := by
  induction hashSize with
  | zero =>
    rw [pow_zero]
    exact .pure _
  | succ hashSize ih =>
    rw [pow_succ', mul_assoc]
    exact getString_reads.bind fun _ => getLongstr_reads.bind fun _ => reads_assign_bind ih

/-! ### The decoder reads the layouts -/

/-- Every command reads its layout. -/
theorem getBody_reads (id : MsgId) : Reads (getBody id) (layout id) := by
  have hcontent : Reads getContent 1 := .modify fun _ => rfl
  cases id with
  | unset => exact .pure _
  | hello =>
    simp only [layout, mul_assoc]
    refine getSequence_reads.bind fun _ => getString_reads.bind fun _ => reads_assign_bind ?_
    rw [counted, sized_mul]
    refine getNumber4_takes.bind fun u => reads_assign_bind ?_
    refine (getGroupList_reads _).bind fun _ => getStatus_reads.bind fun _ => ?_
    refine getString_reads.bind fun _ => reads_assign_bind ?_
    exact getNumber4_takes.bind fun v => reads_assign_bind (getHeaderList_reads _)
  | whisper =>
    have h := getSequence_reads.bind fun _ => hcontent
    rwa [mul_one] at h
  | shout =>
    have h := getSequence_reads.bind fun _ => getGroup_reads.bind fun _ => hcontent
    rwa [mul_one] at h
  | join =>
    simp only [layout, mul_assoc]
    exact getSequence_reads.bind fun _ => getGroup_reads.bind fun _ => getStatus_reads
  | leave =>
    simp only [layout, mul_assoc]
    exact getSequence_reads.bind fun _ => getGroup_reads.bind fun _ => getStatus_reads
  | ping => exact getSequence_reads
  | pingOk => exact getSequence_reads
  | goodbye => exact getSequence_reads
  | elect =>
    simp only [layout, mul_assoc]
    exact getSequence_reads.bind fun _ => getGroup_reads.bind fun _ => reads_assign getString_reads
  | leader =>
    simp only [layout, mul_assoc]
    exact getSequence_reads.bind fun _ => getGroup_reads.bind fun _ => reads_assign getString_reads

/-! ### The header -/

theorem getNumber1_cons (m : Msg) (b : UInt8) (tail : List UInt8) (rest : List Frame) :
    getNumber1 ⟨m, b :: tail, rest⟩ = .ok b ⟨m, tail, rest⟩ := by
  refine (EStateM.bind_of_ok (t := ⟨m, tail, rest⟩) (b := [b]) ?_).trans rfl
  simp [getOctets_eq]

theorem getNumber2_cons (m : Msg) (a b : UInt8) (tail : List UInt8) (rest : List Frame) :
    getNumber2 ⟨m, a :: b :: tail, rest⟩ =
      .ok (UInt16.ofNat (numberOf [a, b])) ⟨m, tail, rest⟩ := by
  refine (EStateM.bind_of_ok (t := ⟨m, tail, rest⟩) (b := [a, b]) ?_).trans rfl
  simp [getOctets_eq]

/-- The two bytes of the signature, as the decoder reads them, are AA and A1. -/
theorem signature_eq_iff (a b : UInt8) :
    UInt16.ofNat (numberOf [a, b]) = 0xAAA1 ↔ a = 0xAA ∧ b = 0xA1 := by
  have ha := a.toNat_lt
  have hb := b.toNat_lt
  rw [← UInt16.toNat_inj, ← UInt8.toNat_inj, ← UInt8.toNat_inj, UInt16.toNat_ofNat']
  simp only [numberOf, List.foldl_cons, List.foldl_nil, zero_mul, zero_add]
  have hlt : a.toNat * 256 + b.toNat < 2 ^ 16 := by omega
  rw [Nat.mod_eq_of_lt hlt]
  show a.toNat * 256 + b.toNat = 43681 ↔ a.toNat = 170 ∧ b.toNat = 161
  omega

/-- What follows the signature. -/
private def getCommand : Decoder Unit := do
  let byte ← getNumber1
  match MsgId.ofByte? byte with
  | none => throw .rejected
  | some id => do
    assign fun m => { m with id := id }
    getVersion
    getBody id

/-- `zre_msg_recv` looks at the signature before anything else. -/
private theorem getMessage_cons (m : Msg) (a b : UInt8) (tail : List UInt8) (rest : List Frame) :
    getMessage ⟨m, a :: b :: tail, rest⟩ = if a = 0xAA ∧ b = 0xA1 then getCommand ⟨m, tail, rest⟩
      else .error .rejected ⟨m, tail, rest⟩ := by
  refine (EStateM.bind_of_ok (getNumber2_cons m a b tail rest)).trans ?_
  by_cases h : a = 0xAA ∧ b = 0xA1
  · simp only [if_pos h, (signature_eq_iff a b).mpr h, ne_eq, not_true_eq_false, if_false]
    rfl
  · simp only [if_neg h, ne_eq, mt (signature_eq_iff a b).mp h, not_false_eq_true, if_true]
    rfl

/-- Behind the signature come the id of the command and its version, which must be 2. -/
private theorem getCommand_cons (m : Msg) (id : MsgId) (hid : id ≠ .unset) (v : UInt8)
    (body : List UInt8) (rest : List Frame) :
    getCommand ⟨m, id.toByte :: v :: body, rest⟩ =
      if v = 2 then getBody id ⟨{ m with id := id }, body, rest⟩
      else .error .rejected ⟨{ m with id := id }, body, rest⟩ := by
  refine (EStateM.bind_of_ok (getNumber1_cons m id.toByte (v :: body) rest)).trans ?_
  rw [MsgId.ofByte?_toByte hid]
  refine (EStateM.bind_of_ok (x := assign fun m => { m with id := id })
    (t := ⟨{ m with id := id }, v :: body, rest⟩) rfl).trans ?_
  by_cases h : v = 2
  · subst h
    have hversion : getVersion ⟨{ m with id := id }, 2 :: body, rest⟩ =
        .ok ⟨⟩ ⟨{ m with id := id }, body, rest⟩ :=
      (EStateM.bind_of_ok (getNumber1_cons _ 2 body rest)).trans rfl
    rw [if_pos rfl]
    exact EStateM.bind_of_ok hversion
  · have hversion : getVersion ⟨{ m with id := id }, v :: body, rest⟩ =
        .error .rejected ⟨{ m with id := id }, body, rest⟩ := by
      refine (EStateM.bind_of_ok (getNumber1_cons _ v body rest)).trans ?_
      simp only [ne_eq, h, not_false_eq_true, if_true]
      rfl
    rw [if_neg h]
    exact EStateM.bind_of_error hversion

/-- A frame with the right signature and a known id. -/
theorem getMessage_header (m : Msg) (id : MsgId) (hid : id ≠ .unset) (v : UInt8) (body : List UInt8)
    (rest : List Frame) :
    getMessage ⟨m, 0xAA :: 0xA1 :: id.toByte :: v :: body, rest⟩ =
      if v = 2 then getBody id ⟨{ m with id := id }, body, rest⟩
      else .error .rejected ⟨{ m with id := id }, body, rest⟩ := by
  rw [getMessage_cons, if_pos ⟨rfl, rfl⟩, getCommand_cons m id hid]

/-- A frame with no command in it is rejected. -/
theorem getMessage_unset (m : Msg) (body : List UInt8) (rest : List Frame) :
    getMessage ⟨m, 0xAA :: 0xA1 :: MsgId.unset.toByte :: body, rest⟩ =
      .error .rejected ⟨m, body, rest⟩ := by
  rw [getMessage_cons, if_pos ⟨rfl, rfl⟩]
  exact (EStateM.bind_of_ok (getNumber1_cons m MsgId.unset.toByte body rest)).trans rfl

/-- **A complete frame** is the signature, a known id, version 2 and a body that starts with a word of the
layout of that id: the source checks nothing behind the last field. -/
theorem complete_iff {frame : Frame} : Complete frame ↔ ∃ id, id ≠ .unset ∧ ∃ body,
    frame = 0xAA :: 0xA1 :: id.toByte :: 2 :: body ∧ ∃ w ∈ layout id, w <+: body := by
  constructor
  · rintro ⟨id, hid, w, hw, t, rfl⟩
    exact ⟨id, hid, w ++ t, by simp, w, hw, t, rfl⟩
  · rintro ⟨id, hid, body, rfl, w, hw, t, rfl⟩
    exact ⟨id, hid, w, hw, t, by simp⟩

/-- Different commands have different id bytes. -/
theorem toByte_inj {id id' : MsgId} (h : id.toByte = id'.toByte) : id = id' := by
  cases id <;> cases id' <;> first | rfl | exact absurd h (by decide)

/-- A frame with a good header is not among those the decoder rejects before the body. -/
theorem not_rejected_header {id : MsgId} (hid : id ≠ .unset) {body : List UInt8} :
    ¬Rejected (0xAA :: 0xA1 :: id.toByte :: 2 :: body) := by
  intro h
  generalize hframe : 0xAA :: 0xA1 :: id.toByte :: 2 :: body = frame at h
  cases h with
  | signature h => cases hframe; exact h ⟨rfl, rfl⟩
  | id h =>
    cases hframe
    rw [MsgId.ofByte?_toByte hid] at h
    cases h
  | version hid' h =>
    simp only [List.cons.injEq, true_and] at hframe
    exact h hframe.2.1.symm

/-- A complete frame is not rejected. -/
theorem Complete.not_rejected {frame : Frame} (h : Complete frame) : ¬Rejected frame := by
  obtain ⟨id, hid, body, rfl, -⟩ := complete_iff.mp h
  exact not_rejected_header hid

/-- A frame that ends within the header. -/
private theorem getMessage_short {frame : Frame} (m : Msg) (rest : List Frame)
    (h : frame.length < 2 ∨ frame = [0xAA, 0xA1] ∨
      ∃ id, id ≠ .unset ∧ frame = [0xAA, 0xA1, MsgId.toByte id]) :
    ∃ r, getMessage ⟨m, frame, rest⟩ = .error .truncated r := by
  have hempty : ∀ m, getNumber1 ⟨m, [], rest⟩ = .error .truncated ⟨m, [], rest⟩ :=
    fun m => EStateM.bind_of_error (by simp [getOctets_eq])
  rcases h with h | rfl | ⟨id, hid, rfl⟩
  · have hshort : getNumber2 ⟨m, frame, rest⟩ = .error .truncated ⟨m, frame, rest⟩ :=
      EStateM.bind_of_error (by simp [getOctets_eq, h])
    exact ⟨_, EStateM.bind_of_error hshort⟩
  · refine ⟨⟨m, [], rest⟩, ?_⟩
    rw [getMessage_cons, if_pos ⟨rfl, rfl⟩]
    exact EStateM.bind_of_error (hempty m)
  · refine ⟨⟨{ m with id := id }, [], rest⟩, ?_⟩
    rw [getMessage_cons, if_pos ⟨rfl, rfl⟩]
    refine (EStateM.bind_of_ok (getNumber1_cons m id.toByte [] rest)).trans ?_
    rw [MsgId.ofByte?_toByte hid]
    refine (EStateM.bind_of_ok (x := assign fun m => { m with id := id })
      (t := ⟨{ m with id := id }, [], rest⟩) rfl).trans ?_
    exact EStateM.bind_of_error (EStateM.bind_of_error (hempty _))

/-- The decoder gets to the end of a frame, rejects it, or finds it too short, and the grammar tells
which. -/
theorem getMessage_cases (frame : Frame) (m : Msg) (rest : List Frame) :
    (Complete frame ∧ ∃ r, getMessage ⟨m, frame, rest⟩ = .ok ⟨⟩ r) ∨
    (¬Complete frame ∧ Rejected frame ∧ ∃ r, getMessage ⟨m, frame, rest⟩ = .error .rejected r) ∨
    (¬Complete frame ∧ ¬Rejected frame ∧
      ∃ r, getMessage ⟨m, frame, rest⟩ = .error .truncated r) := by
  match frame with
  | [] | [_] =>
    refine Or.inr (Or.inr ⟨fun h => ?_, nofun, getMessage_short m rest (Or.inl (by simp))⟩)
    obtain ⟨id, -, body, hframe, -⟩ := complete_iff.mp h
    cases hframe
  | a :: b :: tail =>
    by_cases hsig : a = 0xAA ∧ b = 0xA1
    swap
    · refine Or.inr (Or.inl ⟨fun h => ?_, .signature hsig, ⟨m, tail, rest⟩, ?_⟩)
      · obtain ⟨id, -, body, hframe, -⟩ := complete_iff.mp h
        cases hframe
        exact hsig ⟨rfl, rfl⟩
      · rw [getMessage_cons, if_neg hsig]
    obtain ⟨rfl, rfl⟩ := hsig
    match tail with
    | [] =>
      refine Or.inr (Or.inr ⟨fun h => ?_, ?_, getMessage_short m rest (Or.inr (Or.inl rfl))⟩)
      · obtain ⟨id, -, body, hframe, -⟩ := complete_iff.mp h
        cases hframe
      · rintro (h | _ | _)
        exact h ⟨rfl, rfl⟩
    | c :: tail =>
      cases hc : MsgId.ofByte? c with
      | none =>
        refine Or.inr (Or.inl ⟨fun h => ?_, .id hc, ⟨m, tail, rest⟩, ?_⟩)
        · obtain ⟨id, hid, body, hframe, -⟩ := complete_iff.mp h
          cases hframe
          rw [MsgId.ofByte?_toByte hid] at hc
          cases hc
        · rw [getMessage_cons, if_pos ⟨rfl, rfl⟩]
          refine (EStateM.bind_of_ok (getNumber1_cons m c tail rest)).trans ?_
          rw [hc]
          rfl
      | some id =>
        obtain ⟨rfl, hid⟩ := MsgId.ofByte?_eq_some hc
        match tail with
        | [] =>
          refine Or.inr (Or.inr ⟨fun h => ?_, ?_,
            getMessage_short m rest (Or.inr (Or.inr ⟨id, hid, rfl⟩))⟩)
          · obtain ⟨id', -, body, hframe, -⟩ := complete_iff.mp h
            simp only [List.cons.injEq, true_and] at hframe
            cases hframe.2
          · intro h
            generalize hframe : [0xAA, 0xA1, id.toByte] = frame at h
            cases h with
            | signature h => cases hframe; exact h ⟨rfl, rfl⟩
            | id h => cases hframe; rw [hc] at h; cases h
            | version hid' h =>
              simp only [List.cons.injEq, true_and] at hframe
              cases hframe.2
        | v :: body =>
          have hmessage := getMessage_header m id hid v body rest
          by_cases hv : v = 2
          swap
          · refine Or.inr (Or.inl ⟨fun h => ?_, .version hid hv,
              ⟨⟨{ m with id := id }, body, rest⟩, by rw [hmessage, if_neg hv]⟩⟩)
            obtain ⟨id', -, body', hframe, -⟩ := complete_iff.mp h
            simp only [List.cons.injEq, true_and] at hframe
            exact hv hframe.2.1
          subst hv
          rw [if_pos rfl] at hmessage
          have hreads := getBody_reads id
          have hiff : Complete (0xAA :: 0xA1 :: id.toByte :: 2 :: body) ↔
              ∃ w ∈ layout id, w <+: body := by
            refine complete_iff.trans ⟨?_, fun h => ⟨id, hid, body, rfl, h⟩⟩
            rintro ⟨id', -, body', hframe, h⟩
            simp only [List.cons.injEq, true_and] at hframe
            obtain rfl := toByte_inj hframe.1
            obtain rfl := hframe.2
            exact h
          have hok := hreads.ok_iff (s := ⟨{ m with id := id }, body, rest⟩)
          cases hbody : getBody id ⟨{ m with id := id }, body, rest⟩ with
          | ok a r =>
            refine Or.inl ⟨hiff.mpr (hok.mp ⟨a, r, hbody⟩), r, ?_⟩
            rw [hmessage, hbody]
          | error e r =>
            obtain rfl := hreads.error hbody
            refine Or.inr (Or.inr ⟨fun h => ?_, not_rejected_header hid, r, by rw [hmessage, hbody]⟩)
            obtain ⟨a, r', h⟩ := hok.mpr (hiff.mp h)
            rw [hbody] at h
            cases h

end Decoder

end Zyre
