import Mathlib.Data.List.Basic

/-!
# Trees of named properties

A property tree is an item with a name, perhaps a value, and children, as configuration formats have
them. A path names an item by the names on the way to it; of children with equal names the first counts.
`set` sets the value of an item and creates the items on the way that are not there, behind their
siblings.
-/

/-- An item with its children. -/
structure PropertyTree (κ ν : Type*) where
  name : κ
  value : Option ν
  children : List (PropertyTree κ ν)

namespace PropertyTree

variable {κ ν : Type*}

/-- An item without value and children. -/
def new (name : κ) : PropertyTree κ ν := ⟨name, none, []⟩

/-- An item without children. -/
def leaf (name : κ) (value : ν) : PropertyTree κ ν := ⟨name, some value, []⟩

/-- Add a child behind the others. -/
def add (t child : PropertyTree κ ν) : PropertyTree κ ν := { t with children := t.children ++ [child] }

@[simp] theorem children_new (name : κ) : (new name : PropertyTree κ ν).children = [] := rfl

@[simp] theorem name_leaf (name : κ) (value : ν) : (leaf name value).name = name := rfl

@[simp] theorem children_add (t child : PropertyTree κ ν) : (t.add child).children = t.children ++ [child] :=
  rfl

variable [DecidableEq κ]

/-- The item on a path. -/
def find : List κ → PropertyTree κ ν → Option (PropertyTree κ ν)
  | [], t => some t
  | name :: path, t => (t.children.find? (·.name = name)).bind (find path)

/-- Set the value of the item on a path. -/
def set : List κ → ν → PropertyTree κ ν → PropertyTree κ ν
  | [], value, t => { t with value := some value }
  | name :: path, value, t =>
    if t.children.any (·.name = name) then
      { t with children := t.children.modify (t.children.findIdx (·.name = name)) (set path value) }
    else t.add (set path value (new name))

variable {t u : PropertyTree κ ν} {name key : κ} {path : List κ} {value : ν}

@[simp] theorem name_set : (t.set path value).name = t.name := by
  cases path with
  | nil => rfl
  | cons name path => unfold set; split_ifs <;> rfl

/-- Setting a child that is not there adds it. -/
theorem set_of_notMem (h : name ∉ t.children.map PropertyTree.name) :
    t.set [name] value = t.add (leaf name value) := by
  have hany : ¬t.children.any (·.name = name) = true := by simpa using h
  unfold set
  rw [if_neg hany]
  rfl

/-- The names of the children after `set`: that of the path is among them, and no other is new. -/
theorem mem_names_set {key : κ} : key ∈ (t.set (name :: path) value).children.map PropertyTree.name ↔
    key = name ∨ key ∈ t.children.map PropertyTree.name := by
  unfold set
  split_ifs with h
  · have hnames : (t.children.modify (t.children.findIdx (·.name = name)) (set path value)).map
        PropertyTree.name = t.children.map PropertyTree.name := by
      refine List.ext_getElem? fun i => ?_
      rw [List.getElem?_map, List.getElem?_map, List.getElem?_modify]
      split_ifs <;> cases t.children[i]? <;> simp
    rw [hnames, or_iff_right_of_imp]
    rintro rfl
    simpa using h
  · simp [add, new, or_comm]

theorem find_singleton : t.find [name] = t.children.find? (·.name = name) := by
  simp [find]

end PropertyTree
