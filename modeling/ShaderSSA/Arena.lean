import ShaderSSA.Ident

/-! Append-only storage. An item keeps its place for ever, so an id once handed out goes on
naming the same item; what is dropped is marked by its owner and stays readable. -/

namespace ShaderSSA

structure Arena (e : Entity) (α : Type) where
  items : Array α

namespace Arena

variable {e : Entity} {α : Type}

def empty : Arena e α := ⟨#[]⟩

def size (a : Arena e α) : Nat := a.items.size

def get? (a : Arena e α) (i : Id e) : Option α := a.items[i.index]?

def alloc (a : Arena e α) (x : α) : Id e × Arena e α := (⟨a.size⟩, ⟨a.items.push x⟩)

/-- Changes the item named `i`; an unknown id changes nothing. -/
def modify (a : Arena e α) (i : Id e) (f : α → α) : Arena e α := ⟨a.items.modify i.index f⟩

def ids (a : Arena e α) : List (Id e) := (List.range a.size).map Id.mk

def toList (a : Arena e α) : List (Id e × α) := a.ids.zip a.items.toList

@[simp] theorem size_modify (a : Arena e α) (i : Id e) (f : α → α) :
    (a.modify i f).size = a.size := by
  simp [size, modify]

theorem get?_modify (a : Arena e α) (i j : Id e) (f : α → α) :
    (a.modify i f).get? j = if i = j then (a.get? j).map f else a.get? j := by
  simp only [get?, modify, Array.getElem?_modify]
  by_cases h : i = j
  · simp [h]
  · have : i.index ≠ j.index := fun h' => h (by cases i; cases j; simp_all)
    simp [h, this]

@[simp] theorem size_alloc (a : Arena e α) (x : α) : (a.alloc x).2.size = a.size + 1 := by
  simp [size, alloc]

theorem get?_alloc (a : Arena e α) (x : α) (j : Id e) :
    (a.alloc x).2.get? j = if j = (a.alloc x).1 then some x else a.get? j := by
  simp only [get?, alloc, size, Array.getElem?_push]
  by_cases h : j.index = a.items.size
  · have : j = ⟨a.items.size⟩ := by cases j; simp_all
    simp [this]
  · have : j ≠ ⟨a.items.size⟩ := fun h' => h (by simp [h'])
    simp [h, this]

theorem get?_eq_none_iff (a : Arena e α) (i : Id e) : a.get? i = none ↔ a.size ≤ i.index := by
  simp [get?, size]

theorem mem_ids (a : Arena e α) (i : Id e) : i ∈ a.ids ↔ i.index < a.size := by
  constructor
  · intro h
    obtain ⟨n, hn, rfl⟩ := List.mem_map.mp h
    exact List.mem_range.mp hn
  · intro h
    exact List.mem_map.mpr ⟨i.index, List.mem_range.mpr h, rfl⟩

end Arena

end ShaderSSA
