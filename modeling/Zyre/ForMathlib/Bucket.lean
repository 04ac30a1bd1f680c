import Mathlib.Data.List.Nodup
import Mathlib.Data.List.Pairwise

/-!
# Iterating over buckets that lose entries

An iteration over a hash table that is resumed at the next bucket whenever the entry just visited has
been deleted sees of every bucket the beginning, up to the first entry that is deleted. `List.upTo` is
that beginning, and `forall_mem_flatMap_upTo` says when nothing of interest lies behind it.
-/

namespace List

variable {α : Type*} {p q : α → Prop} [DecidablePred p] {a b : α} {l : List α} {ls : List (List α)}

/-- The list up to the first element with `p`, which belongs to it. -/
def upTo (p : α → Prop) [DecidablePred p] : List α → List α
  | [] => []
  | a :: l => if p a then [a] else a :: upTo p l

theorem upTo_sublist : (l.upTo p).Sublist l := by
  induction l with
  | nil => exact .slnil
  | cons a l ih =>
    rw [upTo]
    split_ifs
    · exact (List.nil_sublist l).cons_cons a
    · exact ih.cons_cons a

theorem mem_of_mem_upTo (h : a ∈ l.upTo p) : a ∈ l := upTo_sublist.subset h

theorem flatMap_upTo_sublist : (ls.flatMap (upTo p)).Sublist ls.flatten := by
  induction ls with
  | nil => exact .slnil
  | cons l ls ih => exact upTo_sublist.append ih

/-- Everything with `q` is found if nothing with `q` comes behind an element with `p`, and only then. -/
theorem forall_mem_upTo (h : l.Nodup) :
    (∀ a ∈ l, q a → a ∈ l.upTo p) ↔ l.Pairwise fun a b => p a → ¬q b := by
  induction l with
  | nil => exact iff_of_true (List.forall_mem_nil _) .nil
  | cons a l ih =>
    obtain ⟨hnot, hl⟩ := List.nodup_cons.mp h
    rw [List.pairwise_cons, upTo]
    by_cases ha : p a
    · rw [if_pos ha]
      constructor
      · intro hall
        have hbehind : ∀ b ∈ l, ¬q b := by
          intro b hb hq
          have hmem := List.mem_singleton.mp (hall b (List.mem_cons_of_mem a hb) hq)
          exact hnot (hmem ▸ hb)
        refine ⟨fun b hb _ => hbehind b hb, ?_⟩
        exact List.pairwise_of_forall_mem_list fun _ _ b hb _ => hbehind b hb
      · rintro ⟨hbehind, -⟩ b hb hq
        rcases List.mem_cons.mp hb with rfl | hb
        · exact List.mem_singleton_self b
        · exact absurd hq (hbehind b hb ha)
    · rw [if_neg ha]
      constructor
      · intro hall
        refine ⟨fun _ _ hp => absurd hp ha, (ih hl).mp fun b hb hq => ?_⟩
        rcases List.mem_cons.mp (hall b (List.mem_cons_of_mem a hb) hq) with rfl | hmem
        · exact absurd hb hnot
        · exact hmem
      · rintro ⟨-, hpairwise⟩ b hb hq
        rcases List.mem_cons.mp hb with rfl | hb
        · exact List.mem_cons_self
        · exact List.mem_cons_of_mem a ((ih hl).mpr hpairwise b hb hq)

/-- What an iteration sees of a bucket is seen of no other. -/
theorem mem_upTo_of_mem_flatMap (h : ls.flatten.Nodup) (hl : l ∈ ls) (ha : a ∈ l)
    (hmem : a ∈ ls.flatMap (upTo p)) : a ∈ l.upTo p := by
  obtain ⟨l', hl', ha'⟩ := List.mem_flatMap.mp hmem
  obtain ⟨-, hdisjoint⟩ := List.nodup_flatten.mp h
  by_contra hnot
  have hne : l ≠ l' := by
    rintro rfl
    exact hnot ha'
  have hsymm : Std.Symm (List.Disjoint : List α → List α → Prop) := ⟨fun _ _ h _ ha hb => h hb ha⟩
  exact hdisjoint.forall hl hl' hne ha (mem_of_mem_upTo ha')

/-- The same over all the buckets. -/
theorem forall_mem_flatMap_upTo (h : ls.flatten.Nodup) :
    (∀ a ∈ ls.flatten, q a → a ∈ ls.flatMap (upTo p)) ↔
      ∀ l ∈ ls, l.Pairwise fun a b => p a → ¬q b := by
  have hnodup := (List.nodup_flatten.mp h).1
  constructor
  · intro hall l hl
    refine (forall_mem_upTo (hnodup l hl)).mp fun a ha hq => ?_
    exact mem_upTo_of_mem_flatMap h hl ha (hall a (List.mem_flatten_of_mem hl ha) hq)
  · intro hpairwise a ha hq
    obtain ⟨l, hl, ha⟩ := List.mem_flatten.mp ha
    exact List.mem_flatMap.mpr ⟨l, hl, (forall_mem_upTo (hnodup l hl)).mpr (hpairwise l hl) a ha hq⟩

end List
