import Mathlib.Data.List.Lex
import Mathlib.Data.List.TakeWhile
import Mathlib.Data.UInt

/-!
# C strings and UUIDs

The two kinds of names the program works with. A `CStr` is what a `char *` denotes: the bytes
before the terminating zero, compared by `strcmp` as unsigned bytes, shorter first (the lexicographic
order of `codes`). A `Uuid` is the 16 bytes of a `zuuid_t`, and `Uuid.str` its
printed form, 32 upper-case hexadecimal digits, which is what the hash tables are keyed by.
-/

namespace Zyre

/-! ### C strings -/

/-- A C string: the bytes before its terminating zero. -/
structure CStr where
  bytes : List UInt8
  noNul : 0 ∉ bytes
deriving DecidableEq

namespace CStr

@[ext]
theorem ext {s t : CStr} (h : s.bytes = t.bytes) : s = t := by
  cases s; cases t; cases h; rfl

/-- The string at the start of a buffer: `strlen` stops at the first zero byte. -/
def ofBytes (bs : List UInt8) : CStr where
  bytes := bs.takeWhile (· != 0)
  noNul h := by simpa using List.mem_takeWhile_imp h

/-- The empty string `""`. -/
def empty : CStr := ⟨[], by simp⟩

instance : EmptyCollection CStr := ⟨empty⟩

instance : Inhabited CStr := ⟨empty⟩

/-- A string constant of the source, given by its characters. -/
def ofChars (cs : List Char) : CStr := ofBytes (cs.map Char.toUInt8)

/-- Concatenation, as `strcat` and `"%s%s"` do it. -/
def append (s t : CStr) : CStr :=
  ⟨s.bytes ++ t.bytes, by simpa using ⟨s.noNul, t.noNul⟩⟩

instance : Append CStr := ⟨append⟩

/-- `strncpy` into a field of `n + 1` bytes whose last one is then set to zero. -/
def truncate (n : ℕ) (s : CStr) : CStr :=
  ⟨s.bytes.take n, fun h => s.noNul (List.mem_of_mem_take h)⟩

/-- `strlen`. -/
def length (s : CStr) : ℕ := s.bytes.length

@[simp]
theorem ofBytes_bytes (s : CStr) : ofBytes s.bytes = s := by
  refine ext (List.takeWhile_eq_self_iff.mpr fun b hb => ?_)
  have hne : b ≠ 0 := fun h => s.noNul (h ▸ hb)
  simpa using hne

@[simp]
theorem truncate_of_length_le {n : ℕ} {s : CStr} (h : s.length ≤ n) : s.truncate n = s :=
  ext (List.take_of_length_le h)

theorem length_truncate_le (n : ℕ) (s : CStr) : (s.truncate n).length ≤ n :=
  List.length_take_le n s.bytes

/-! ### `strcmp` -/

/-- The bytes as the numbers `strcmp` compares. -/
def codes (s : CStr) : List ℕ := s.bytes.map UInt8.toNat

theorem codes_injective : Function.Injective codes := fun _ _ h =>
  ext (List.map_injective_iff.mpr (fun _ _ h => UInt8.toNat_inj.mp h) h)

/-- `strcmp (s, t) < 0` is `s < t`. -/
instance : LinearOrder CStr := LinearOrder.lift' codes codes_injective

end CStr

/-! ### UUIDs -/

/-- `ZUUID_LEN`. -/
def zuuidLen : ℕ := 16

/-- The value of a `zuuid_t`. -/
structure Uuid where
  data : List UInt8
  size : data.length = zuuidLen
deriving DecidableEq

namespace Uuid

/-- One hexadecimal digit of `zuuid_str`. -/
def hexChar (n : ℕ) : UInt8 := if n < 10 then (48 + n).toUInt8 else (55 + n).toUInt8

/-- The two digits of a byte. -/
def hexByte (b : UInt8) : List UInt8 := [hexChar (b.toNat / 16), hexChar (b.toNat % 16)]

theorem hexChar_ne_zero {n : ℕ} (h : n < 16) : hexChar n ≠ 0 := by
  revert n; decide

theorem hexChar_inj {m n : ℕ} (hm : m < 16) (hn : n < 16) (h : hexChar m = hexChar n) :
    m = n := by
  have hall : ∀ m < 16, ∀ n < 16, hexChar m = hexChar n → m = n := by decide
  exact hall m hm n hn h

theorem hexByte_injective : Function.Injective hexByte := by
  intro a b h
  have ha := a.toNat_lt
  have hb := b.toNat_lt
  simp only [hexByte, List.cons.injEq, and_true] at h
  have hdiv := hexChar_inj (by omega) (by omega) h.1
  have hmod := hexChar_inj (by omega) (by omega) h.2
  exact UInt8.toNat_inj.mp (by omega)

/-- `zuuid_str`: the printable form of a UUID. -/
def str (u : Uuid) : CStr where
  bytes := u.data.flatMap hexByte
  noNul h := by
    obtain ⟨b, -, hb⟩ := List.mem_flatMap.mp h
    have hlt := b.toNat_lt
    simp only [hexByte, List.mem_cons, List.not_mem_nil, or_false] at hb
    rcases hb with hb | hb <;> exact hexChar_ne_zero (by omega) hb.symm

theorem length_str (u : Uuid) : u.str.length = 32 := by
  have hall : ∀ l : List UInt8, (l.flatMap hexByte).length = 2 * l.length := fun l => by
    induction l with
    | nil => rfl
    | cons b l ih => simp only [List.flatMap_cons, List.length_append, List.length_cons, ih,
        hexByte, List.length_nil]; omega
  have hsize := u.size
  simp only [CStr.length, str, hall, zuuidLen] at hsize ⊢
  omega

/-- Distinct UUIDs print differently, so the tables may be keyed by the printed form. -/
theorem str_injective : Function.Injective str := by
  intro u v h
  have hbytes : u.data.flatMap hexByte = v.data.flatMap hexByte := congrArg CStr.bytes h
  have hall : ∀ l m : List UInt8, l.flatMap hexByte = m.flatMap hexByte → l = m := by
    intro l
    induction l with
    | nil =>
      intro m hm
      cases m with
      | nil => rfl
      | cons b m => simp [hexByte] at hm
    | cons a l ih =>
      intro m hm
      cases m with
      | nil => simp [hexByte] at hm
      | cons b m =>
        have hsplit := List.append_inj (by simpa using hm) (by simp [hexByte])
        rw [hexByte_injective hsplit.1, ih m hsplit.2]
  cases u; cases v
  simp only [mk.injEq]
  exact hall _ _ hbytes

end Uuid

end Zyre
