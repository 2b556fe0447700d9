/-
Reading a list from its front until nothing is left.

A reader that takes something off whenever there is something goes through lists that get
shorter and shorter.  So it comes to a list that is not empty once at most, after fewer calls
than the list it started with is long.
-/
import Mathlib.Data.List.Iterate
import Mathlib.Tactic.Common

namespace Drains

variable {α : Type} {read : List α → List α}

/-- What the reader leaves is shorter. -/
structure Shrinks (read : List α → List α) : Prop where
  nil : read [] = []
  lt : ∀ q, q ≠ [] → (read q).length < q.length

/-- The reader comes from `q` to `s`. -/
def Reaches (read : List α → List α) (q s : List α) : Prop := ∃ k, read^[k] q = s

namespace Reaches

theorem refl (q : List α) : Reaches read q q := ⟨0, rfl⟩

theorem step {q s : List α} (h : Reaches read (read q) s) : Reaches read q s := by
  obtain ⟨k, hk⟩ := h
  exact ⟨k + 1, hk⟩

theorem trans {q r s : List α} (h : Reaches read q r) (h' : Reaches read r s) :
    Reaches read q s := by
  obtain ⟨k, rfl⟩ := h
  obtain ⟨l, rfl⟩ := h'
  exact ⟨l + k, Function.iterate_add_apply read l k q⟩

/-- What is reached and not the start is reached from the next list. -/
theorem next {q s : List α} (h : Reaches read q s) (hne : s ≠ q) : Reaches read (read q) s := by
  obtain ⟨k, hk⟩ := h
  cases k with
  | zero => exact absurd hk.symm hne
  | succ k => exact ⟨k, hk⟩

end Reaches

/-- Every call on the way to a list takes something off. -/
theorem Shrinks.le_length (h : Shrinks read) {s : List α} (hs : s ≠ []) :
    ∀ {k : Nat} {q : List α}, read^[k] q = s → k + s.length ≤ q.length := by
  intro k
  induction k with
  | zero =>
      intro q hk
      rw [← hk]
      simp
  | succ k ih =>
      intro q hk
      have hrest : k + s.length ≤ (read q).length := ih hk
      by_cases hq : q = []
      · have hpos := List.length_pos_iff.mpr hs
        rw [hq, h.nil, List.length_nil] at hrest
        omega
      · have := h.lt q hq
        omega

theorem Reaches.length_le (h : Shrinks read) {q s : List α} (hreach : Reaches read q s) :
    s.length ≤ q.length := by
  by_cases hs : s = []
  · simp [hs]
  · obtain ⟨k, hk⟩ := hreach
    have := h.le_length hs hk
    omega

/-- The lists before the calls are those that are reached, when there are enough calls. -/
theorem mem_iterate_iff (h : Shrinks read) {q s : List α} (hs : s ≠ []) {n : Nat}
    (hn : q.length ≤ n) : s ∈ List.iterate read q n ↔ Reaches read q s := by
  rw [List.mem_iterate]
  constructor
  · rintro ⟨k, -, hk⟩
    exact ⟨k, hk.symm⟩
  · rintro ⟨k, hk⟩
    have hle := h.le_length hs hk
    have hpos := List.length_pos_iff.mpr hs
    exact ⟨k, by omega, hk.symm⟩

/-- **A list that is not empty is met once.** -/
theorem notMem_of_iterate (h : Shrinks read) {s : List α} (hs : s ≠ []) : ∀ {as : List (List α)}
    {q : List α} {n : Nat} {bs : List (List α)}, List.iterate read q n = as ++ s :: bs →
    s ∉ as ∧ s ∉ bs := by
  intro as
  induction as with
  | nil =>
      intro q n bs heq
      cases n with
      | zero => simp at heq
      | succ n =>
          rw [List.iterate, List.nil_append, List.cons.injEq] at heq
          obtain ⟨rfl, rfl⟩ := heq
          refine ⟨List.not_mem_nil, fun hmem => ?_⟩
          obtain ⟨k, -, hk⟩ := List.mem_iterate.mp hmem
          have hle := h.le_length hs hk.symm
          have hlt := h.lt q hs
          omega
  | cons a as ih =>
      intro q n bs heq
      cases n with
      | zero => simp at heq
      | succ n =>
          rw [List.iterate, List.cons_append, List.cons.injEq] at heq
          obtain ⟨rfl, hrest⟩ := heq
          obtain ⟨has, hbs⟩ := ih hrest
          refine ⟨fun hmem => ?_, hbs⟩
          rcases List.mem_cons.mp hmem with rfl | hmem
          · have hlater : s ∈ List.iterate read (read s) n := by
              rw [hrest]
              simp
            obtain ⟨k, -, hk⟩ := List.mem_iterate.mp hlater
            have hle := h.le_length hs hk.symm
            have hlt := h.lt s hs
            omega
          · exact has hmem

end Drains
