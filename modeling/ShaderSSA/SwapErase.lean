/-! Erasing from an unordered list: the last element takes the place of the one that goes. -/

namespace ShaderSSA

variable {α : Type}

def lastFirst (l : List α) : List α :=
  match l.getLast? with
  | some x => x :: l.dropLast
  | none => []

/-- Erases the first element that satisfies `p`, if there is one. -/
def swapErase? (p : α → Bool) : List α → Option (List α)
  | [] => none
  | x :: xs => if p x then some (lastFirst xs) else (swapErase? p xs).map (x :: ·)

theorem lastFirst_perm (l : List α) : (lastFirst l).Perm l := by
  cases h : l.getLast? with
  | none => simp [List.getLast?_eq_none_iff.mp h, lastFirst]
  | some x =>
    obtain ⟨p, rfl⟩ := List.getLast?_eq_some_iff.mp h
    simpa [lastFirst] using (List.perm_append_singleton x p).symm

theorem swapErase?_perm {p : α → Bool} {l r : List α} (h : swapErase? p l = some r) :
    ∃ x, p x = true ∧ l.Perm (x :: r) := by
  induction l generalizing r with
  | nil => simp [swapErase?] at h
  | cons a l ih =>
    by_cases ha : p a = true
    · simp only [swapErase?, ha, if_true, Option.some.injEq] at h
      subst h
      exact ⟨a, ha, (lastFirst_perm l).symm.cons a⟩
    · simp only [swapErase?, ha, Bool.false_eq_true, if_false, Option.map_eq_some_iff] at h
      obtain ⟨r', hr, rfl⟩ := h
      obtain ⟨x, hx, hp⟩ := ih hr
      exact ⟨x, hx, (hp.cons a).trans (List.Perm.swap x a r')⟩

theorem swapErase?_eq_none_iff {p : α → Bool} {l : List α} :
    swapErase? p l = none ↔ ∀ x ∈ l, p x = false := by
  induction l with
  | nil => simp [swapErase?]
  | cons a l ih => by_cases ha : p a = true <;> simp [swapErase?, ha, ih]

end ShaderSSA
