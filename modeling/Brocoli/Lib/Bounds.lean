/-
Programs that say which parts of their arrays they touch.

A `Traced` computation has the value of the plain one and the accesses made on the way.  An
access is to the front of an array, as far as it reaches: storing at index `i` reaches
`i + 1`, handing over the first `n` bytes reaches `n`.  The program is safe when no access
reaches further than its array is long.  Leaving the accesses out gives the plain program
back, so what is proved about that one need not be proved again.
-/
import Mathlib.Data.List.Basic
import Mathlib.Tactic.Common

namespace Bounds

/-- The front of an array of `size` elements, up to `reach`. -/
structure Access where
  reach : Nat
  size : Nat
deriving DecidableEq

def Access.Within (a : Access) : Prop := a.reach ≤ a.size

structure Traced (α : Type) where
  val : α
  accesses : List Access

namespace Traced

variable {α β : Type}

instance : Monad Traced where
  pure a := ⟨a, []⟩
  bind x f := ⟨(f x.val).val, x.accesses ++ (f x.val).accesses⟩

/-- The elements up to `reach` of an array of `size` are touched. -/
def access (reach size : Nat) : Traced Unit := ⟨(), [⟨reach, size⟩]⟩

/-- No access leaves its array. -/
def Safe (x : Traced α) : Prop := ∀ a ∈ x.accesses, a.Within

/-! ### The value -/

@[simp] theorem val_pure (a : α) : (pure a : Traced α).val = a := rfl

@[simp] theorem val_bind (x : Traced α) (f : α → Traced β) : (x >>= f).val = (f x.val).val := rfl

@[simp] theorem val_ite (c : Prop) [Decidable c] (x y : Traced α) :
    (if c then x else y).val = if c then x.val else y.val := by
  split <;> rfl

/-! ### The accesses -/

@[simp] theorem safe_pure (a : α) : (pure a : Traced α).Safe := by
  intro x hx
  simp [pure] at hx

@[simp] theorem safe_access_iff (reach size : Nat) :
    (access reach size).Safe ↔ reach ≤ size := by
  simp [Safe, access, Access.Within]

@[simp] theorem safe_bind_iff (x : Traced α) (f : α → Traced β) :
    (x >>= f).Safe ↔ x.Safe ∧ (f x.val).Safe := by
  show (∀ a ∈ x.accesses ++ (f x.val).accesses, a.Within) ↔ _
  simp [Safe, or_imp, forall_and]

/-- An access that stays inside its array can be left out. -/
theorem safe_access_bind {reach size : Nat} (h : reach ≤ size) (x : Traced α) :
    (access reach size >>= fun _ => x).Safe ↔ x.Safe := by
  rw [safe_bind_iff, safe_access_iff]
  exact and_iff_right h

/-- Nor does storing as much as there is room for leave it. -/
theorem safe_stored_bind (n size : Nat) (x : Traced α) :
    (access (min n size) size >>= fun _ => x).Safe ↔ x.Safe :=
  safe_access_bind (Nat.min_le_right _ _) x

end Traced

end Bounds
