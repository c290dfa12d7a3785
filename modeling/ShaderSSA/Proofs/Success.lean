import Mathlib
import ShaderSSA.Fault

/-! When a checked computation succeeds: each of its steps does, in turn. When it fails, one step
does after all before it have succeeded. Later modules open computations through these equivalences
and not by unfolding. -/

namespace ShaderSSA

theorem bind_eq_ok {ε α β : Type} {x : Except ε α} {f : α → Except ε β} {b : β} :
    (x >>= f) = .ok b ↔ ∃ a, x = .ok a ∧ f a = .ok b := by
  cases x <;> simp [bind, Except.bind]

theorem bind_eq_error {ε α β : Type} {x : Except ε α} {f : α → Except ε β} {e : ε} :
    (x >>= f) = .error e ↔ x = .error e ∨ ∃ a, x = .ok a ∧ f a = .error e := by
  cases x <;> simp [bind, Except.bind]

@[simp] theorem pure_eq_ok {ε α : Type} {a b : α} : (pure a : Except ε α) = .ok b ↔ a = b := by
  simp [pure, Except.pure]

@[simp] theorem ok_bind {ε α β : Type} (a : α) (f : α → Except ε β) :
    ((Except.ok a : Except ε α) >>= f) = f a := rfl

@[simp] theorem throw_ne_ok {ε α : Type} {e : ε} {a : α} : (throw e : Except ε α) ≠ .ok a := by
  simp [throw, throwThe, MonadExceptOf.throw]

theorem isOk_iff {ε α : Type} {x : Except ε α} : x.isOk = true ↔ ∃ a, x = .ok a := by
  cases x <;> simp [Except.isOk, Except.toBool]

namespace Checked

@[simp] theorem require_eq_ok {p : Bool} {b : Breach} {u : Unit} :
    require p b = .ok u ↔ p = true := by
  cases p <;> simp [require, breach]

@[simp] theorem orElse_eq_ok {α : Type} {b : Breach} {o : Option α} {a : α} :
    orElse b o = .ok a ↔ o = some a := by
  cases o <;> simp [orElse, breach]

@[simp] theorem inBounds_eq_ok {α : Type} {o : Option α} {a : α} :
    inBounds o = .ok a ↔ o = some a := by
  cases o <;> simp [inBounds]

@[simp] theorem noOverflow_eq_ok {α : Type} {o : Option α} {a : α} :
    noOverflow o = .ok a ↔ o = some a := by
  cases o <;> simp [noOverflow]

@[simp] theorem fit_eq_ok {bits n m : Nat} : fit bits n = .ok m ↔ n < 1 <<< bits ∧ n = m := by
  unfold fit
  split <;> simp_all

@[simp] theorem breach_ne_ok {α : Type} {b : Breach} {a : α} : breach b ≠ .ok a := by
  simp [breach]

variable {α β : Type} {lax : Prop} {x : Checked α} {Q : α → Prop}

/-- A result with the property, or a fault where faults are allowed. -/
def Gives (lax : Prop) (x : Checked α) (Q : α → Prop) : Prop :=
  match x with
  | .ok a => Q a
  | .error _ => lax

theorem Gives.bind {k : α → Checked β} {R : β → Prop} (hx : Gives lax x Q)
    (hk : ∀ a, Q a → Gives lax (k a) R) : Gives lax (x >>= k) R := by
  cases x with
  | ok a => exact hk a hx
  | error e => exact hx

theorem Gives.imp {R : α → Prop} (hx : Gives lax x Q) (h : ∀ a, Q a → R a) : Gives lax x R := by
  cases x with
  | ok a => exact h a hx
  | error e => exact hx

theorem Gives.of_eq {a : α} (hx : x = .ok a) (h : Q a) : Gives lax x Q := by
  rw [hx]
  exact h

theorem Gives.of_forall (h : ∀ a, x = .ok a → Q a) : Gives True x Q := by
  cases x with
  | ok a => exact h a rfl
  | error e => exact trivial

theorem Gives.exists (h : Gives False x Q) : ∃ a, x = .ok a ∧ Q a := by
  cases x with
  | ok a => exact ⟨a, rfl, h⟩
  | error e => exact h.elim

theorem Gives.of_ok {a : α} (h : Gives lax x Q) (hx : x = .ok a) : Q a := by
  rw [hx] at h
  exact h

end Checked

end ShaderSSA
