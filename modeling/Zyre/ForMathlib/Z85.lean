import Mathlib.Data.List.Basic
import Mathlib.Data.UInt

/-!
# The Z85 text form of binary data

Four bytes, read as a number in network order, are written as five digits of base 85.
`decode_encode` states that decoding undoes encoding.
-/

namespace Z85

/-- The digits, from 0 to 84. -/
def alphabet : List UInt8 :=
  "0123456789abcdefghijklmnopqrstuvwxyzABCDEFGHIJKLMNOPQRSTUVWXYZ.-:+=^!/*?&<>()[]\x7b\x7d@%$#".toList.map
    Char.toUInt8

/-- The character of a digit. -/
def digit (d : ℕ) : UInt8 := alphabet.getD d 0

/-- The digit of a character. -/
def value (c : UInt8) : ℕ := alphabet.idxOf c

/-- Four bytes for every five. -/
def encode : List UInt8 → List UInt8
  | a :: b :: c :: d :: bs =>
    let k := ((a.toNat * 256 + b.toNat) * 256 + c.toNat) * 256 + d.toNat
    digit (k / 52200625 % 85) :: digit (k / 614125 % 85) :: digit (k / 7225 % 85) ::
      digit (k / 85 % 85) :: digit (k % 85) :: encode bs
  | _ => []

/-- Five characters for every four bytes. -/
def decode : List UInt8 → List UInt8
  | a :: b :: c :: d :: e :: cs =>
    let k := (((value a * 85 + value b) * 85 + value c) * 85 + value d) * 85 + value e
    (k / 16777216).toUInt8 :: (k / 65536).toUInt8 :: (k / 256).toUInt8 :: k.toUInt8 :: decode cs
  | _ => []

theorem digit_ne_zero {d : ℕ} (h : d < 85) : digit d ≠ 0 := by
  revert h
  have hall : ∀ d < 85, digit d ≠ 0 := by decide +kernel
  exact hall d

theorem value_digit {d : ℕ} (h : d < 85) : value (digit d) = d := by
  have hall : ∀ d < 85, value (digit d) = d := by decide +kernel
  exact hall d h

theorem zero_notMem_encode (bs : List UInt8) : 0 ∉ encode bs := by
  induction bs using encode.induct with
  | case1 a b c d bs ih =>
    have hdigit : ∀ j, (0 : UInt8) ≠ digit (j % 85) :=
      fun j => (digit_ne_zero (Nat.mod_lt j (by decide))).symm
    simp only [encode, List.mem_cons, not_or]
    exact ⟨hdigit _, hdigit _, hdigit _, hdigit _, hdigit _, ih⟩
  | case2 bs h =>
    have hnil : encode bs = [] := by
      unfold encode
      split
      · next a b c d bs => exact absurd rfl (h a b c d bs)
      · rfl
    simp [hnil]

/-- The five digits make up the number. -/
theorem digits_sum {k : ℕ} (h : k < 4294967296) :
    (((k / 52200625 % 85 * 85 + k / 614125 % 85) * 85 + k / 7225 % 85) * 85 + k / 85 % 85) * 85 +
      k % 85 = k := by
  omega

theorem decode_encode {bs : List UInt8} (h : 4 ∣ bs.length) : decode (encode bs) = bs := by
  induction bs using encode.induct with
  | case1 a b c d bs ih =>
    have hrest : 4 ∣ bs.length := by
      simp only [List.length_cons] at h
      omega
    have ha := a.toNat_lt
    have hb := b.toNat_lt
    have hc := c.toNat_lt
    have hd := d.toNat_lt
    obtain ⟨k, hk⟩ : ∃ k, k = ((a.toNat * 256 + b.toNat) * 256 + c.toNat) * 256 + d.toNat := ⟨_, rfl⟩
    have hlt : k < 4294967296 := by omega
    have hvalue : ∀ j, value (digit (j % 85)) = j % 85 :=
      fun j => value_digit (Nat.mod_lt j (by decide))
    have hbyte : ∀ (x : UInt8) (j : ℕ), j % 256 = x.toNat → j.toUInt8 = x := by
      intro x j hj
      refine UInt8.toNat_inj.mp ?_
      rw [Nat.toUInt8_eq, UInt8.toNat_ofNat']
      exact hj
    simp only [encode, ← hk, decode, hvalue, digits_sum hlt, ih hrest]
    rw [hbyte a _ (by omega), hbyte b _ (by omega), hbyte c _ (by omega), hbyte d _ (by omega)]
  | case2 bs hshort =>
    rcases bs with _ | ⟨a, _ | ⟨b, _ | ⟨c, _ | ⟨d, bs⟩⟩⟩⟩
    · rfl
    · simp at h
    · simp at h
    · simp at h
    · exact absurd rfl (hshort a b c d bs)

end Z85
