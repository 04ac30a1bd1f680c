import Zyre.Link.Basic

/-!
# The order of letters

Letters on one mailbox are numbered without a gap, and a letter that may be delivered is a HELLO that
opens its mailbox, or comes some number of letters behind the last one delivered on its mailbox.
-/

namespace Zyre

namespace Letter

variable {l l' l'' : Letter} {sent : List Letter} {i j k : ℕ}

/-- `l'` is on a later mailbox than `l`, or comes `k` letters after it on the same one. -/
def Since (k : ℕ) (l l' : Letter) : Prop :=
  l.box.serial < l'.box.serial ∨
    l'.box = l.box ∧ l'.msg.sequence = l.msg.sequence + UInt16.ofNat k ∧
      (0 < k → l'.msg.id ≠ .hello)

theorem Since.refl : l.Since 0 l := Or.inr ⟨rfl, (UInt16.add_zero _).symm, nofun⟩

theorem Since.serial (h : l.Since k l') : l.box.serial ≤ l'.box.serial := by
  rcases h with h | ⟨h, -⟩
  · exact h.le
  · exact (congrArg PeerRef.serial h).ge

theorem Since.follows (h : l.Since k l') (h' : l'.Follows l'') : l.Since (k + 1) l'' := by
  rcases h' with ⟨hbox', hid, -, hseq', -⟩ | ⟨hbox', -⟩
  · rcases h with h | ⟨hbox, hseq, -⟩
    · exact Or.inl (hbox' ▸ h)
    · refine Or.inr ⟨hbox'.trans hbox, ?_, fun _ => hid⟩
      rw [hseq', hseq, UInt16.add_assoc, UInt16.ofNat_add]
      rfl
  · exact Or.inl (h.serial.trans_lt hbox')

/-- In what a node has posted every letter is followed so. -/
theorem since_of_chain (hchain : sent.IsChain Follows) (hi : sent[i]? = some l)
    (hj : sent[i + k]? = some l') : l.Since k l' := by
  induction k generalizing l' with
  | zero =>
    obtain rfl := Option.some_inj.mp (hi.symm.trans hj)
    exact .refl
  | succ k ih =>
    obtain ⟨hlt, hget⟩ := List.getElem?_eq_some_iff.mp hj
    have hlt' : i + k < sent.length := by omega
    have hfollows := hchain.getElem (i + k) hlt
    rw [show sent[i + k + 1] = l' from hget] at hfollows
    exact (ih (List.getElem?_eq_getElem hlt')).follows hfollows

/-- Between two letters on one mailbox all letters are on it. -/
theorem box_of_between (hchain : sent.IsChain Follows) (hi : sent[i]? = some l)
    (hj : sent[j]? = some l'') (hbox : l''.box = l.box) {m : ℕ} (him : i ≤ m) (hmj : m ≤ j)
    (hm : sent[m]? = some l') : l'.box = l.box := by
  obtain ⟨k, rfl⟩ := Nat.exists_eq_add_of_le him
  obtain ⟨k', rfl⟩ := Nat.exists_eq_add_of_le hmj
  rcases since_of_chain hchain hi hm with h | ⟨h, -⟩
  · have hle := (since_of_chain hchain hm hj).serial
    rw [hbox] at hle
    omega
  · exact h

/-- The first letter on a mailbox opens it. -/
theorem opens_of_isFirst (hchain : sent.IsChain Follows) (hhead : ∀ l ∈ sent.head?, l.Opens)
    (hfirst : Link.IsFirst sent j) (hj : sent[j]? = some l) : l.Opens := by
  cases j with
  | zero => exact hhead l (by rw [List.head?_eq_getElem?]; exact hj)
  | succ i =>
    obtain ⟨hlt, hget⟩ := List.getElem?_eq_some_iff.mp hj
    have hlt' : i < sent.length := Nat.lt_of_succ_lt hlt
    have hi : sent[i]? = some sent[i] := List.getElem?_eq_getElem hlt'
    have hfollows := hchain.getElem i hlt
    rw [hget] at hfollows
    rcases hfollows with ⟨hbox, -⟩ | ⟨-, hopens⟩
    · refine absurd ?_ (hfirst i (Nat.lt_succ_self i))
      rw [hi, hj, Option.map_some, Option.map_some, hbox]
    · exact hopens

end Letter

namespace Link

variable {gap j : ℕ} {l : Link} {letter : Letter} {X : CStr}

/-- The letter that may be delivered next opens a mailbox, or comes `k` letters behind the next one of
the mailbox delivered from before. -/
inductive Arrives (gap : ℕ) (l : Link) (j : ℕ) (letter : Letter) : Prop
  | first (hfirst : IsFirst l.sent j) (hopens : letter.Opens)
  | next (i k : ℕ) (last : Letter) (hnext : l.next = i + 1) (hlast : l.sent[i]? = some last)
      (hj : j = i + 1 + k) (hk : k ≤ gap) (hbox : letter.box = last.box)
      (hid : letter.msg.id ≠ .hello)
      (hseq : letter.msg.sequence = last.msg.sequence + UInt16.ofNat (k + 1))
      (hregroups : k = 0 → last.Regroups letter)

theorem Deliverable.arrives (hposted : l.a.Posted X l.sent) (hj : l.Deliverable gap j)
    (hletter : l.sent[j]? = some letter) : l.Arrives gap j letter := by
  obtain ⟨hle, hfirst | ⟨i, hnext, hbox, hgap⟩⟩ := hj
  · exact .first hfirst (Letter.opens_of_isFirst hposted.chain hposted.head hfirst hletter)
  · obtain ⟨k, rfl⟩ := Nat.exists_eq_add_of_le hle
    rw [hletter, Option.map_some] at hbox
    obtain ⟨last, hlast, hbox⟩ := Option.map_eq_some_iff.mp hbox
    rw [hnext] at hletter hgap hle
    have hsum : i + 1 + k = i + (k + 1) := by omega
    have hsince := Letter.since_of_chain hposted.chain hlast (hsum ▸ hletter)
    rcases hsince with h | ⟨hbox', hseq, hid⟩
    · rw [hbox] at h
      exact absurd h (lt_irrefl _)
    · refine .next i k last hnext hlast (by rw [hnext]) (by omega) hbox' (hid (Nat.succ_pos k)) hseq ?_
      rintro rfl
      obtain ⟨hlt, hget⟩ := List.getElem?_eq_some_iff.mp hletter
      obtain ⟨hlt', hget'⟩ := List.getElem?_eq_some_iff.mp hlast
      have hfollows := hposted.chain.getElem i hlt
      rw [hget', show l.sent[i + 1] = letter from hget] at hfollows
      rcases hfollows with ⟨-, -, -, -, hregroups⟩ | ⟨hserial, -⟩
      · exact hregroups
      · rw [hbox'] at hserial
        exact absurd hserial (lt_irrefl _)

end Link

end Zyre
