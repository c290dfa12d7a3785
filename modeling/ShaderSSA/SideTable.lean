import ShaderSSA.Ident

/-! Dense tables keyed by the ids of an arena. Writing past the end fills the gap with the
default entry. -/

namespace ShaderSSA

structure SideTable (e : Entity) (α : Type) where
  entries : Array α

namespace SideTable

variable {e : Entity} {α : Type}

def empty : SideTable e α := ⟨#[]⟩

def ofSize [Inhabited α] (n : Nat) : SideTable e α := ⟨Array.replicate n default⟩

def size (t : SideTable e α) : Nat := t.entries.size

def get? (t : SideTable e α) (k : Id e) : Option α := t.entries[k.index]?

/-- Changes an entry that is already there, and nothing otherwise. -/
def replace (t : SideTable e α) (k : Id e) (x : α) : SideTable e α :=
  ⟨t.entries.setIfInBounds k.index x⟩

/-- The entries, with defaults added up to the one keyed by `k`. -/
def reserve [Inhabited α] (t : SideTable e α) (k : Id e) : SideTable e α :=
  ⟨t.entries ++ Array.replicate (k.index + 1 - t.size) default⟩

def set [Inhabited α] (t : SideTable e α) (k : Id e) (x : α) : SideTable e α :=
  (t.reserve k).replace k x

/-- Reading a table whose entries may be missing. -/
def find? (t : SideTable e (Option α)) (k : Id e) : Option α := (t.get? k).join

theorem size_set [Inhabited α] (t : SideTable e α) (k : Id e) (x : α) :
    (t.set k x).size = max t.size (k.index + 1) := by
  simp only [set, replace, reserve, size, Array.size_setIfInBounds, Array.size_append,
    Array.size_replicate]
  omega

theorem get?_set_self [Inhabited α] (t : SideTable e α) (k : Id e) (x : α) :
    (t.set k x).get? k = some x := by
  have h : k.index < (t.entries ++ Array.replicate (k.index + 1 - t.size) (default : α)).size := by
    simp only [size, Array.size_append, Array.size_replicate]
    omega
  simp only [set, replace, reserve, get?]
  rw [Array.getElem?_setIfInBounds_self_of_lt h]

theorem getD_set [Inhabited α] {d : α} (hd : d = default) (t : SideTable e α) (k j : Id e)
    (x : α) : ((t.set k x).get? j).getD d = if j = k then x else (t.get? j).getD d := by
  by_cases h : j = k
  · subst h
    simp [get?_set_self]
  · have hi : k.index ≠ j.index := fun hh => h (by cases j; cases k; simp_all)
    simp only [h, if_false, get?, set, replace, reserve]
    rw [Array.getElem?_setIfInBounds_ne hi, Array.getElem?_append]
    split
    · rfl
    · rename_i hlt
      rw [Array.getElem?_replicate, Array.getElem?_eq_none (by omega), hd]
      split <;> rfl

theorem getD_ofSize [Inhabited α] {d : α} (hd : d = default) (n : Nat) (k : Id e) :
    ((ofSize n : SideTable e α).get? k).getD d = d := by
  simp only [get?, ofSize, Array.getElem?_replicate, hd]
  split <;> rfl

theorem find?_set (t : SideTable e (Option α)) (k j : Id e) (x : α) :
    (t.set k (some x)).find? j = if j = k then some x else t.find? j := by
  have hjoin : ∀ t : SideTable e (Option α), t.find? j = (t.get? j).getD none := fun t => by
    cases h : t.get? j <;> simp [find?, h]
  rw [hjoin, hjoin, getD_set (d := none) rfl]

end SideTable

end ShaderSSA
