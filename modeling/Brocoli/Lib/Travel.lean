/-
Things under way.

A thing under way makes a hop, and others, or none, are under way in its place; which one
hops next, and what the world is like when it does, is not for it to choose.  `trail` are the
things that have hopped so far.

How often something happens on the way is bounded by a budget: `w x` is what the thing `x` may
still cost, `q x` what its own hop costs, and a hop never leaves more than is paid for.
-/
import Brocoli.Lib.Runs
import Mathlib.Algebra.Order.BigOperators.Group.List
import Mathlib.Algebra.Order.Ring.Nat

namespace Travel

open Runs

variable {X E : Type}

structure Journey (X : Type) where
  items : List X
  trail : List X

/-- The `i`-th thing makes a hop, unless it has ended. -/
def step (hop : E → X → List X) (ended : X → Bool) (s : Journey X) (e : Nat × E) : Journey X :=
  match s.items[e.1]? with
  | none => s
  | some x =>
      if ended x then s else ⟨s.items.eraseIdx e.1 ++ hop e.2 x, s.trail ++ [x]⟩

/-- What is so of everything there ever was. -/
def All (P : X → Prop) (s : Journey X) : Prop := ∀ x ∈ s.trail ++ s.items, P x

/-- What was paid for the hops so far, and what the things under way may still cost. -/
def spent (q w : X → Nat) (s : Journey X) : Nat := (s.trail.map q).sum + (s.items.map w).sum

variable {hop : E → X → List X} {ended : X → Bool} {P : X → Prop} {Ok : E → Prop} {q w : X → Nat}

/-- A step is no step, or the hop of one thing. -/
theorem step_cases (s : Journey X) (e : Nat × E) :
    step hop ended s e = s ∨
      ∃ x, s.items[e.1]? = some x ∧ ended x = false ∧
        step hop ended s e = ⟨s.items.eraseIdx e.1 ++ hop e.2 x, s.trail ++ [x]⟩ := by
  unfold step
  cases hx : s.items[e.1]? with
  | none => exact Or.inl rfl
  | some x =>
      by_cases hended : ended x = true
      · simp [hended]
      · exact Or.inr ⟨x, rfl, by simpa using hended, by simp [hended]⟩

/-- A thing that has not ended can hop. -/
theorem length_trail_step {s : Journey X} {i : Nat} {x : X} (hx : s.items[i]? = some x)
    (hended : ended x = false) (e : E) :
    (step hop ended s (i, e)).trail.length = s.trail.length + 1 := by
  simp [step, hx, hended]

theorem perm_eraseIdx {i : Nat} {l : List X} {x : X} (hx : l[i]? = some x) :
    l.Perm (x :: l.eraseIdx i) := by
  obtain ⟨hi, rfl⟩ := List.getElem?_eq_some_iff.mp hx
  exact (List.getElem_cons_eraseIdx_perm hi).symm

theorem all_step (hhop : ∀ x, P x → ended x = false → ∀ e, Ok e → ∀ y ∈ hop e x, P y)
    (s : Journey X) {e : Nat × E} (he : Ok e.2) (h : All P s) : All P (step hop ended s e) := by
  rcases step_cases s e with heq | ⟨x, hx, hended, heq⟩
  · rw [heq]
    exact h
  · have hmem : x ∈ s.items := List.mem_of_getElem? hx
    rw [heq]
    intro y hy
    simp only [List.mem_append, List.mem_singleton] at hy
    rcases hy with (hy | rfl) | hy | hy
    · exact h y (by simp [hy])
    · exact h y (by simp [hmem])
    · exact h y (List.mem_append_right _ (List.mem_of_mem_eraseIdx hy))
    · exact hhop x (h x (by simp [hmem])) hended e.2 he y hy

theorem spent_step
    (hpay : ∀ x, P x → ended x = false → ∀ e, Ok e → q x + ((hop e x).map w).sum ≤ w x)
    {s : Journey X} (h : All P s) {e : Nat × E} (he : Ok e.2) :
    spent q w (step hop ended s e) ≤ spent q w s := by
  rcases step_cases s e with heq | ⟨x, hx, hended, heq⟩
  · exact Nat.le_of_eq (congrArg (spent q w) heq)
  · have hmem : x ∈ s.items := List.mem_of_getElem? hx
    have hpaid := hpay x (h x (by simp [hmem])) hended e.2 he
    have hsum := ((perm_eraseIdx hx).map w).sum_eq
    rw [List.map_cons, List.sum_cons] at hsum
    rw [heq]
    simp only [spent, List.map_append, List.sum_append, List.map_cons, List.map_nil, List.sum_cons,
      List.sum_nil]
    omega

/-- **Nothing is ever spent that was not in the budget at the start**, as long as the world is
`Ok`. -/
theorem spent_le (hhop : ∀ x, P x → ended x = false → ∀ e, Ok e → ∀ y ∈ hop e x, P y)
    (hpay : ∀ x, P x → ended x = false → ∀ e, Ok e → q x + ((hop e x).map w).sum ≤ w x)
    {s : Journey X} (h : All P s) {es : List (Nat × E)} (hes : ∀ e ∈ es, Ok e.2) :
    ∀ t ∈ states (step hop ended) s es, All P t ∧ spent q w t ≤ spent q w s := by
  have hsteps : AllSteps (step hop ended) (fun _ e => Ok e.2) s es := AllSteps.of_forall hes s
  refine states_inv (fun t e ht he => ?_) es ⟨h, Nat.le_refl _⟩ hsteps
  exact ⟨all_step hhop t he ht.1, Nat.le_trans (spent_step hpay ht.1 he) ht.2⟩

theorem countP_le_sum {p : X → Bool} {f : X → Nat} : ∀ {l : List X},
    (∀ x ∈ l, p x = true → 1 ≤ f x) → l.countP p ≤ (l.map f).sum := by
  intro l
  induction l with
  | nil => intro _; simp
  | cons x l ih =>
      intro h
      have hl := ih fun y hy => h y (by simp [hy])
      by_cases hp : p x = true
      · have hx := h x (by simp) hp
        rw [List.countP_cons_of_pos hp, List.map_cons, List.sum_cons]
        omega
      · rw [List.countP_cons_of_neg hp, List.map_cons, List.sum_cons]
        omega

/-- What costs something happens no more often than is paid for. -/
theorem countP_le_spent {p : X → Bool} (hq : ∀ x, P x → p x = true → 1 ≤ q x)
    (hw : ∀ x, P x → p x = true → 1 ≤ w x) {s : Journey X} (h : All P s) :
    (s.trail ++ s.items).countP p ≤ spent q w s := by
  have htrail := countP_le_sum (l := s.trail) fun x hx => hq x (h x (by simp [hx]))
  have hitems := countP_le_sum (l := s.items) fun x hx => hw x (h x (by simp [hx]))
  rw [List.countP_append, spent]
  omega

end Travel
