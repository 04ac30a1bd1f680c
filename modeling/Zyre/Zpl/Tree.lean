import Zyre.ForMathlib.PropertyTree
import Zyre.Zpl.Basic

/-!
# A `zconfig`

An implementation of `zconfig` over property trees, as its documentation has it: a path is split at the
slashes, and a leading slash is ignored.
-/

namespace Zyre

namespace Config

/-- A leading slash is ignored. -/
def skipSlash : List UInt8 → List UInt8
  | 47 :: bytes => bytes
  | bytes => bytes

/-- The items a path goes through. -/
def segments (path : CStr) : List CStr := ((skipSlash path.bytes).splitOn 47).map .ofBytes

/-- An item without value has the empty string. -/
def valueStr (self : PropertyTree CStr CStr) : CStr := self.value.getD ∅

/-- The functions over property trees. -/
def zconfig : Zconfig where
  Item := PropertyTree CStr CStr
  new := .new
  add := .add
  name := PropertyTree.name
  value := valueStr
  setValue self value := self.set [] value
  children := PropertyTree.children
  put self path value := self.set (segments path) value
  locate self path := self.find (segments path)
  get self path := (self.find (segments path)).map valueStr

variable {self : PropertyTree CStr CStr} {path name value : CStr}

/-- A path without a slash is one name. -/
theorem segments_of_notMem (h : 47 ∉ path.bytes) : segments path = [path] := by
  have hbytes : skipSlash path.bytes = path.bytes := by
    unfold skipSlash
    split
    · next bytes heq => exact absurd (heq ▸ List.mem_cons_self) h
    · rfl
  rw [segments, hbytes, List.splitOn_eq_singleton h, List.map_singleton, CStr.ofBytes_bytes]

/-- The names a path goes through have no slash. -/
theorem notMem_of_mem_segments (h : name ∈ segments path) : 47 ∉ name.bytes := by
  have hall : ∀ bytes : List UInt8, ∀ seg ∈ bytes.splitOn 47, (47 : UInt8) ∉ seg := by
    intro bytes
    induction bytes with
    | nil => simp
    | cons b bytes ih =>
      intro seg hseg
      rw [List.splitOn_cons_eq_if_modifyHead] at hseg
      split_ifs at hseg with hb
      · rcases List.mem_cons.mp hseg with rfl | hseg
        · simp
        · exact ih seg hseg
      · obtain ⟨first, rest, hsplit⟩ := List.exists_cons_of_ne_nil (List.splitOn_ne_nil 47 bytes)
        rw [hsplit] at hseg ih
        rcases List.mem_cons.mp hseg with rfl | hseg
        · have hne : (47 : UInt8) ≠ b := fun heq => hb (by simp [heq])
          simpa [hne] using ih first List.mem_cons_self
        · exact ih seg (List.mem_cons_of_mem _ hseg)
  obtain ⟨seg, hseg, rfl⟩ := List.mem_map.mp h
  exact fun hmem => hall _ seg hseg ((List.takeWhile_prefix _).subset hmem)

theorem segments_ne_nil (path : CStr) : segments path ≠ [] := by
  simp [segments]

/-- A key that is not there is inserted. -/
theorem children_set_segments (hslash : 47 ∉ path.bytes) (h : path ∉ self.children.map PropertyTree.name) :
    (self.set (segments path) value).children = self.children ++ [.leaf path value] := by
  rw [segments_of_notMem hslash, PropertyTree.set_of_notMem h, PropertyTree.children_add]

/-- At most one child is added, named by the first part of the path. -/
theorem mem_names_set_segments (h : name ∈ (self.set (segments path) value).children.map PropertyTree.name) :
    name ∈ self.children.map PropertyTree.name ∨ 47 ∉ name.bytes := by
  obtain ⟨first, rest, hsegments⟩ := List.exists_cons_of_ne_nil (segments_ne_nil path)
  have hfirst : first ∈ segments path := hsegments ▸ List.mem_cons_self
  rw [hsegments, PropertyTree.mem_names_set] at h
  rcases h with rfl | h
  · exact .inr (notMem_of_mem_segments hfirst)
  · exact .inl h

theorem find_segments (hslash : 47 ∉ path.bytes) :
    self.find (segments path) = self.children.find? (·.name = path) := by
  rw [segments_of_notMem hslash, PropertyTree.find_singleton]

/-- The functions do what the documentation says. -/
theorem lawful_zconfig : zconfig.Lawful where
  name_new _ := rfl
  children_new _ := rfl
  name_setValue _ _ := rfl
  value_setValue _ _ := rfl
  name_add _ _ := rfl
  children_add _ _ := rfl
  name_put _ _ _ := PropertyTree.name_set
  children_put _ _ _ := children_set_segments
  names_put _ _ _ _ := mem_names_set_segments
  locate_eq _ _ := find_segments
  get_eq _ _ := rfl

end Config

end Zyre
