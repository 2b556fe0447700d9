/-
Doing something again for as long as it is interrupted.

An action is tried on a machine, which answers with an error or without one and goes into its
next state.  One of the errors only says that the action was interrupted, and then it is tried
again.  That comes to an end if the machine interrupts finitely often, whatever is tried on it.

A list of actions that is gone through in this way either goes through, or the first that fails
has a place in the list.
-/
import Mathlib.Data.List.Basic
import Mathlib.Tactic.Common

namespace Retry

variable {S A E : Type} {act : S → A → Option E × S} {intr : E}

/-- The action is tried until it is not interrupted, and then that is the answer. -/
inductive Settles (act : S → A → Option E × S) (intr : E) (a : A) : S → Option E → S → Prop
  | answered {s : S} (h : (act s a).1 ≠ some intr) :
      Settles act intr a s (act s a).1 (act s a).2
  | again {s s' : S} {r : Option E} (h : (act s a).1 = some intr)
      (rest : Settles act intr a (act s a).2 r s') : Settles act intr a s r s'

/-- All actions of the list go through. -/
inductive Passes (act : S → A → Option E × S) (intr : E) : S → List A → S → Prop
  | nil {s : S} : Passes act intr s [] s
  | cons {s s₁ s' : S} {a : A} {as : List A} (h : Settles act intr a s none s₁)
      (rest : Passes act intr s₁ as s') : Passes act intr s (a :: as) s'

/-- The action at place `i` is the first of the list that fails, and it fails with `e`. -/
inductive FailsAt (act : S → A → Option E × S) (intr : E) : S → List A → Nat → E → S → Prop
  | here {s s' : S} {a : A} {as : List A} {e : E} (h : Settles act intr a s (some e) s') :
      FailsAt act intr s (a :: as) 0 e s'
  | later {s s₁ s' : S} {a : A} {as : List A} {i : Nat} {e : E}
      (h : Settles act intr a s none s₁) (rest : FailsAt act intr s₁ as i e s') :
      FailsAt act intr s (a :: as) (i + 1) e s'

/-- Trying comes to one answer only. -/
theorem Settles.unique {a : A} {s s' : S} {r : Option E} (h : Settles act intr a s r s') :
    ∀ {q : Option E} {t : S}, Settles act intr a s q t → q = r ∧ t = s' := by
  induction h with
  | answered h =>
      intro q t h'
      cases h' with
      | answered _ => exact ⟨rfl, rfl⟩
      | again h' _ => exact absurd h' h
  | again h _ ih =>
      intro q t h'
      cases h' with
      | answered h' => exact absurd h h'
      | again _ rest => exact ih rest

/-! ### Finitely many interruptions -/

/-- The machine when the first `k` actions of a sequence have been tried on it. -/
def after (act : S → A → Option E × S) (s : S) (f : Nat → A) : Nat → S
  | 0 => s
  | k + 1 => after act (act s (f 0)).2 (fun j => f (j + 1)) k

/-- Whatever is tried on the machine, one action after the other, the interruptions end. -/
def FinitelyInterrupted (act : S → A → Option E × S) (intr : E) (s : S) : Prop :=
  ∀ f : Nat → A, ∃ n, ∀ k, n ≤ k → (act (after act s f k) (f k)).1 ≠ some intr

theorem after_add (s : S) (f : Nat → A) (j k : Nat) :
    after act s f (j + k) = after act (after act s f j) (fun i => f (j + i)) k := by
  induction j generalizing s f with
  | zero => simp only [Nat.zero_add, after]
  | succ j ih =>
      rw [Nat.succ_add, after, after, ih]
      simp only [Nat.succ_add]

namespace FinitelyInterrupted

variable {s s' : S} {a : A} {as : List A} {r : Option E}

theorem next (h : FinitelyInterrupted act intr s) (a : A) :
    FinitelyInterrupted act intr (act s a).2 := by
  intro f
  obtain ⟨n, hn⟩ := h fun k => k.casesOn a f
  exact ⟨n, fun k hk => hn (k + 1) (Nat.le_succ_of_le hk)⟩

theorem settles (h : FinitelyInterrupted act intr s) (hsettles : Settles act intr a s r s') :
    FinitelyInterrupted act intr s' := by
  induction hsettles with
  | answered _ => exact h.next a
  | again _ _ ih => exact ih (h.next a)

theorem passes (h : FinitelyInterrupted act intr s) (hpasses : Passes act intr s as s') :
    FinitelyInterrupted act intr s' := by
  induction hpasses with
  | nil => exact h
  | cons hsettles _ ih => exact ih (h.settles hsettles)

theorem failsAt {i : Nat} {e : E} (h : FinitelyInterrupted act intr s)
    (hfails : FailsAt act intr s as i e s') : FinitelyInterrupted act intr s' := by
  induction hfails with
  | here hsettles => exact h.settles hsettles
  | later hsettles _ ih => exact ih (h.settles hsettles)

/-- **Trying again comes to an end.** -/
theorem exists_settles (h : FinitelyInterrupted act intr s) (a : A) :
    ∃ r s', Settles act intr a s r s' := by
  obtain ⟨n, hn⟩ := h fun _ => a
  -- the same action again and again: after `n` tries none is interrupted
  induction n generalizing s with
  | zero => exact ⟨_, _, .answered (hn 0 (Nat.le_refl 0))⟩
  | succ n ih =>
      by_cases hintr : (act s a).1 = some intr
      · obtain ⟨r, s', hsettles⟩ := ih (h.next a) fun k hk => hn (k + 1) (Nat.succ_le_succ hk)
        exact ⟨r, s', .again hintr hsettles⟩
      · exact ⟨_, _, .answered hintr⟩

/-- **A list goes through, or there is a first that fails.** -/
theorem passes_or_failsAt (h : FinitelyInterrupted act intr s) (as : List A) :
    (∃ s', Passes act intr s as s') ∨ ∃ i e s', FailsAt act intr s as i e s' := by
  induction as generalizing s with
  | nil => exact Or.inl ⟨s, .nil⟩
  | cons a as ih =>
      obtain ⟨r, s₁, hsettles⟩ := h.exists_settles a
      cases r with
      | some e => exact Or.inr ⟨0, e, s₁, .here hsettles⟩
      | none =>
          rcases ih (h.settles hsettles) with ⟨s', hrest⟩ | ⟨i, e, s', hrest⟩
          · exact Or.inl ⟨s', .cons hsettles hrest⟩
          · exact Or.inr ⟨i + 1, e, s', .later hsettles hrest⟩

end FinitelyInterrupted

theorem left_after_le {left : S → Nat} (hstep : ∀ s a, left (act s a).2 ≤ left s) (s : S)
    (f : Nat → A) (k : Nat) : left (after act s f k) ≤ left s := by
  induction k generalizing s f with
  | zero => exact Nat.le_refl _
  | succ k ih => exact Nat.le_trans (ih _ _) (hstep s (f 0))

/-- A machine with so many interruptions left, whatever its state. -/
theorem finitelyInterrupted_measure (left : S → Nat)
    (hstep : ∀ s a, left (act s a).2 ≤ left s)
    (hintr : ∀ s a, (act s a).1 = some intr → left (act s a).2 < left s) (s : S) :
    FinitelyInterrupted act intr s := by
  intro f
  induction hleft : left s using Nat.strongRecOn generalizing s f with
  | ind m ih =>
      by_cases hnone : ∀ k, (act (after act s f k) (f k)).1 ≠ some intr
      · exact ⟨0, fun k _ => hnone k⟩
      · -- behind the interruption at `j` there are fewer left
        obtain ⟨j, hj⟩ := not_forall.mp hnone
        have hless : left (after act s f (j + 1)) < m := by
          have hlt := hintr _ _ (not_not.mp hj)
          have hle := left_after_le hstep s f j
          rw [after_add s f j 1, ← hleft]
          exact Nat.lt_of_lt_of_le hlt hle
        obtain ⟨n, hn⟩ := ih _ hless _ (fun i => f (j + 1 + i)) rfl
        refine ⟨j + 1 + n, fun k hk => ?_⟩
        obtain ⟨i, rfl⟩ := Nat.exists_eq_add_of_le (Nat.le_of_add_right_le hk)
        rw [after_add]
        exact hn i (by omega)

/-- What answers by a fixed pattern, in which the interruptions end. -/
theorem finitelyInterrupted_pattern {answer : Nat → Option E} {n : Nat}
    (h : ∀ k, n ≤ k → answer k ≠ some intr) (k : Nat) :
    FinitelyInterrupted (fun k (_ : A) => (answer k, k + 1)) intr k := by
  intro f
  have hafter : ∀ j, after (fun k (_ : A) => (answer k, k + 1)) k f j = k + j := by
    intro j
    induction j generalizing k f with
    | zero => rfl
    | succ j ih =>
        rw [after, ih]
        omega
  refine ⟨n, fun j hj => ?_⟩
  rw [hafter]
  exact h (k + j) (Nat.le_add_left_of_le hj)

end Retry
