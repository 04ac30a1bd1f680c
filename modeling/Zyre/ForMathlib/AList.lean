import Mathlib.Data.List.AList

/-!
# Association lists as hash tables

Mathlib's `AList` gives lookup, replacing insertion and erasure. A hash table that hands out
pointers to its values needs three more operations: insertion that ignores a key already
present (`insertNew`), update of a value in place (`modify`), and the same update of every
value (`mapValues`). Each comes with its `lookup` and its `keys` equation, so that a client
reasons about tables through `lookup` alone.
-/

namespace AList

variable {α : Type*} {β : Type*} [DecidableEq α]

/-! ### Updating in place -/

/-- Apply `f` to every value, with its key. -/
def mapValues (f : α → β → β) (s : AList fun _ : α => β) : AList fun _ : α => β where
  entries := s.entries.map (Sigma.map id f)
  nodupKeys := List.NodupKeys.map₂ f s.entries s.nodupKeys

omit [DecidableEq α] in
@[simp]
theorem keys_mapValues (f : α → β → β) (s : AList fun _ : α => β) :
    (s.mapValues f).keys = s.keys := by
  simp [mapValues, keys, List.keys, Function.comp_def, Sigma.map]

@[simp]
theorem lookup_mapValues (f : α → β → β) (s : AList fun _ : α => β) (a : α) :
    (s.mapValues f).lookup a = (s.lookup a).map (f a) :=
  List.dlookup_map₂ a

/-- Apply `f` to the value under `a`, if there is one. -/
def modify (a : α) (f : β → β) (s : AList fun _ : α => β) : AList fun _ : α => β :=
  s.mapValues fun a' b => if a' = a then f b else b

@[simp]
theorem keys_modify (a : α) (f : β → β) (s : AList fun _ : α => β) :
    (s.modify a f).keys = s.keys :=
  keys_mapValues _ s

@[simp]
theorem lookup_modify_self (a : α) (f : β → β) (s : AList fun _ : α => β) :
    (s.modify a f).lookup a = (s.lookup a).map f := by
  simp [modify]

@[simp]
theorem lookup_modify_ne {a a' : α} (h : a' ≠ a) (f : β → β) (s : AList fun _ : α => β) :
    (s.modify a f).lookup a' = s.lookup a' := by
  simp [modify, h]

theorem lookup_modify (a a' : α) (f : β → β) (s : AList fun _ : α => β) :
    (s.modify a f).lookup a' = if a' = a then (s.lookup a').map f else s.lookup a' := by
  split_ifs with h
  · subst h; exact lookup_modify_self _ f s
  · exact lookup_modify_ne h f s

/-- Only the value under `a` matters to an update there. -/
theorem modify_congr {a : α} {b : β} {s : AList fun _ : α => β} (h : s.lookup a = some b)
    {f g : β → β} (hfg : f b = g b) : s.modify a f = s.modify a g := by
  refine AList.ext (List.map_congr_left fun e he => ?_)
  by_cases hid : e.1 = a
  · have he' : s.lookup e.1 = some e.2 := mem_lookup_iff.mpr he
    rw [hid, h] at he'
    simp [Sigma.map, hid, ← Option.some_inj.mp he', hfg]
  · simp [Sigma.map, hid]

theorem modify_id {a : α} {b : β} {s : AList fun _ : α => β} (h : s.lookup a = some b)
    {f : β → β} (hf : f b = b) : s.modify a f = s := by
  rw [modify_congr (g := id) h hf]
  refine AList.ext ((List.map_congr_left fun e _ => ?_).trans (List.map_id _))
  simp [Sigma.map]

/-! ### Insertion that ignores duplicates -/

/-- Insert `b` under `a` unless `a` is already a key. -/
def insertNew (a : α) (b : β) (s : AList fun _ : α => β) : AList fun _ : α => β :=
  if a ∈ s then s else s.insert a b

theorem lookup_insertNew (a a' : α) (b : β) (s : AList fun _ : α => β) :
    (s.insertNew a b).lookup a' =
      if a' = a then some ((s.lookup a).getD b) else s.lookup a' := by
  unfold insertNew
  by_cases hmem : a ∈ s
  · obtain ⟨c, hc⟩ := Option.isSome_iff_exists.mp (lookup_isSome.mpr hmem)
    split_ifs with h
    · subst h; simp [hc]
    · rfl
  · have hnone : s.lookup a = none := lookup_eq_none.mpr hmem
    rw [if_neg hmem]
    split_ifs with h
    · subst h; simp [hnone]
    · exact lookup_insert_ne h

@[simp]
theorem mem_insertNew {a a' : α} {b : β} {s : AList fun _ : α => β} :
    a' ∈ s.insertNew a b ↔ a' = a ∨ a' ∈ s := by
  rw [← lookup_isSome, ← lookup_isSome, lookup_insertNew]
  split_ifs with h <;> simp [h]

/-- Inserting one entry after the other, where a key that is there already is ignored: the first entry of
a key counts, and those of the table come before. -/
theorem lookup_foldl_insertNew (a : α) (l : List (Sigma fun _ : α => β)) (s : AList fun _ : α => β) :
    (l.foldl (fun t e => t.insertNew e.1 e.2) s).lookup a = (s.lookup a).or (l.dlookup a) := by
  induction l generalizing s with
  | nil => simp
  | cons e l ih =>
    rw [List.foldl_cons, ih, lookup_insertNew]
    obtain ⟨k, b⟩ := e
    by_cases h : a = k
    · subst h
      cases hs : s.lookup a <;> simp
    · rw [if_neg h, List.dlookup_cons_ne l ⟨k, b⟩ h]

theorem foldl_insertNew_sublist (l : List (Sigma fun _ : α => β)) (s : AList fun _ : α => β) :
    (l.foldl (fun t e => t.insertNew e.1 e.2) s).entries.Sublist (l.reverse ++ s.entries) := by
  induction l generalizing s with
  | nil => exact List.Sublist.refl _
  | cons e l ih =>
    rw [List.foldl_cons, List.reverse_cons, List.append_assoc]
    refine (ih _).trans (List.Sublist.append_left ?_ _)
    unfold insertNew
    split_ifs with h
    · exact List.sublist_cons_self e s.entries
    · rw [entries_insert_of_notMem h]
      exact List.Sublist.refl _

/-! ### Erasure -/

theorem lookup_erase' (a a' : α) (s : AList fun _ : α => β) :
    (s.erase a).lookup a' = if a' = a then none else s.lookup a' := by
  split_ifs with h
  · subst h; exact lookup_erase _ s
  · exact lookup_erase_ne h

theorem lookup_insert' (a a' : α) (b : β) (s : AList fun _ : α => β) :
    (s.insert a b).lookup a' = if a' = a then some b else s.lookup a' := by
  split_ifs with h
  · subst h; exact lookup_insert s
  · exact lookup_insert_ne h

/-- Inserting entries of different keys one after the other. -/
theorem lookup_foldl_insert (a : α) {l : List (Sigma fun _ : α => β)} (hl : l.NodupKeys)
    (s : AList fun _ : α => β) :
    (l.foldl (fun t e => t.insert e.1 e.2) s).lookup a = (l.dlookup a).or (s.lookup a) := by
  induction l generalizing s with
  | nil => simp
  | cons e l ih =>
    obtain ⟨hnot, hl⟩ := List.nodupKeys_cons.mp hl
    rw [List.foldl_cons, ih hl, lookup_insert']
    obtain ⟨k, b⟩ := e
    by_cases h : a = k
    · subst h
      simp [List.dlookup_eq_none.mpr hnot]
    · rw [if_neg h, List.dlookup_cons_ne l ⟨k, b⟩ h]

/-- Updating the value just inserted inserts the updated value. -/
theorem modify_insert (a : α) (b : β) (f : β → β) (s : AList fun _ : α => β) :
    (s.insert a b).modify a f = s.insert a (f b) := by
  refine AList.ext ?_
  show ((s.insert a b).entries.map _ : List _) = _
  rw [entries_insert, entries_insert, List.map_cons]
  refine congrArg₂ List.cons (by simp [Sigma.map]) ?_
  refine (List.map_congr_left fun e he => ?_).trans (List.map_id _)
  have hne : e.1 ≠ a := by
    rintro rfl
    exact List.notMem_keys_kerase _ s.nodupKeys (List.mem_keys_of_mem he)
  simp [Sigma.map, hne]

/-- Erasing a key that was just inserted gives the table back. -/
theorem erase_insert_of_notMem {a : α} {b : β} {s : AList fun _ : α => β} (h : a ∉ s) :
    (s.insert a b).erase a = s := by
  refine AList.ext ?_
  show List.kerase a (s.insert a b).entries = s.entries
  rw [entries_insert_of_notMem h]
  exact List.kerase_cons_eq rfl

end AList
