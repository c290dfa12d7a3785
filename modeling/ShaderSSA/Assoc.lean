/-! Finite maps as lists of pairs with each key once. -/

namespace ShaderSSA.Assoc

variable {κ α : Type} [DecidableEq κ]

def get? : List (κ × α) → κ → Option α
  | [], _ => none
  | (k, a) :: rest, key => if key = k then some a else get? rest key

def set (key : κ) (x : α) : List (κ × α) → List (κ × α)
  | [] => [(key, x)]
  | (k, a) :: rest => if key = k then (key, x) :: rest else (k, a) :: set key x rest

def erase (key : κ) : List (κ × α) → List (κ × α)
  | [] => []
  | (k, a) :: rest => if key = k then erase key rest else (k, a) :: erase key rest

theorem get?_set (m : List (κ × α)) (k j : κ) (x : α) :
    get? (set k x m) j = if j = k then some x else get? m j := by
  induction m with
  | nil => rfl
  | cons e m ih =>
    obtain ⟨l, a⟩ := e
    by_cases h : k = l
    · subst h
      by_cases hj : j = k <;> simp [set, get?, hj]
    · by_cases hj : j = l
      · subst hj
        simp [set, get?, h, Ne.symm h]
      · simp [set, get?, h, hj, ih]

theorem get?_erase (m : List (κ × α)) (k j : κ) :
    get? (erase k m) j = if j = k then none else get? m j := by
  induction m with
  | nil => simp [erase, get?]
  | cons e m ih =>
    obtain ⟨l, a⟩ := e
    by_cases h : k = l
    · subst h
      rw [erase, if_pos rfl, ih]
      by_cases hj : j = k <;> simp [get?, hj]
    · by_cases hj : j = l
      · subst hj
        simp [erase, get?, h, Ne.symm h]
      · simp [erase, get?, h, hj, ih]

end ShaderSSA.Assoc
