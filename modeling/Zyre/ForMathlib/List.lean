import Mathlib.Data.List.Basic

/-!
# Picking from a list by index

A list may be read at a sequence of indices. Consecutive indices give a part of it without a gap
(`filterMap_range'`), increasing ones a sublist of what is left from the first on (`sublist_drop`).
-/

namespace List

variable {α ι : Type*}

/-- What is picked from a list in order, from index `s` on. -/
theorem sublist_drop {xs : List α} {is : List ℕ} (h : is.Pairwise (· < ·)) (s : ℕ)
    (hs : ∀ i ∈ is, s ≤ i) : (is.filterMap fun i => xs[i]?).Sublist (xs.drop s) := by
  induction is generalizing s with
  | nil => exact List.nil_sublist _
  | cons i is ih =>
    obtain ⟨hlt, hpairwise⟩ := List.pairwise_cons.mp h
    have hrest := ih hpairwise (i + 1) hlt
    have hdrop : (xs.drop i).Sublist (xs.drop s) := List.drop_sublist_drop_left xs (hs i List.mem_cons_self)
    rw [List.filterMap_cons]
    cases hi : xs[i]? with
    | none => exact (hrest.trans (List.drop_sublist_drop_left xs (Nat.le_succ i))).trans hdrop
    | some x =>
      obtain ⟨hlen, rfl⟩ := List.getElem?_eq_some_iff.mp hi
      rw [List.drop_eq_getElem_cons hlen] at hdrop
      exact (hrest.cons_cons _).trans hdrop

/-- Lists put together from parts are the same without the second parts just when these are empty. -/
theorem flatMap_append_eq_iff {l : List ι} {a b : ι → List α} :
    (l.flatMap fun i => a i ++ b i) = l.flatMap a ↔ ∀ i ∈ l, b i = [] := by
  constructor
  · intro h
    have hlength := congrArg List.length h
    have hsum : ∀ l : List ι, (l.flatMap fun i => a i ++ b i).length =
        (l.flatMap a).length + (l.flatMap b).length := by
      intro l
      induction l with
      | nil => rfl
      | cons i l ih =>
        simp only [List.flatMap_cons, List.length_append, ih]
        omega
    have hzero : (l.flatMap b).length = 0 := by
      rw [hsum] at hlength
      omega
    exact List.flatMap_eq_nil_iff.mp (List.length_eq_zero_iff.mp hzero)
  · intro h
    refine List.flatMap_congr fun i hi => ?_
    rw [h i hi, List.append_nil]

end List
