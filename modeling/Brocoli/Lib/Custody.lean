/-
Items that are passed from hand to hand.

Items are told apart by their numbers, in the order they come into being.  `Placed items
held` says that each of them is held in exactly one place, and nothing else is held anywhere.
It is kept when a new item is put somewhere, and when items go from one place to another.
-/
import Mathlib.Data.List.Nodup
import Mathlib.Data.List.Perm.Basic
import Mathlib.Logic.Function.Basic
import Mathlib.Tactic.Common

namespace Custody

variable {P α : Type}

/-- Each item is in one place, once. -/
structure Placed (items : List α) (held : P → List (Nat × α)) : Prop where
  nodup : ∀ p, (held p).Nodup
  entry : ∀ p, ∀ x ∈ held p, items[x.1]? = some x.2
  somewhere : ∀ x : Nat × α, items[x.1]? = some x.2 → ∃ p, x ∈ held p
  apart : ∀ x p q, x ∈ held p → x ∈ held q → p = q

namespace Placed

variable {items : List α} {held : P → List (Nat × α)}

theorem unique (h : Placed items held) {k : Nat} {a : α} (hk : items[k]? = some a) :
    ∃! p, (k, a) ∈ held p := by
  obtain ⟨p, hp⟩ := h.somewhere (k, a) hk
  exact ⟨p, hp, fun q hq => h.apart _ q p hq hp⟩

theorem empty : Placed [] fun _ : P => ([] : List (Nat × α)) :=
  ⟨by simp, by simp, by simp, by simp⟩

/-- The number of a new item is not in use. -/
theorem new_not_mem (h : Placed items held) (a : α) (p : P) : (items.length, a) ∉ held p := by
  intro hp
  have hentry := h.entry p _ hp
  simp at hentry

variable [DecidableEq P]

/-- The places after a new item was put behind the others of one. -/
def added (held : P → List (Nat × α)) (p : P) (x : Nat × α) : P → List (Nat × α) :=
  Function.update held p (held p ++ [x])

/-- The places after items `xs` have gone from `p`, where `rest` is left, to `q`. -/
def moved (held : P → List (Nat × α)) (p q : P) (xs rest : List (Nat × α)) :
    P → List (Nat × α) :=
  Function.update (Function.update held p rest) q (held q ++ xs)

theorem added_self (held : P → List (Nat × α)) (p : P) (x : Nat × α) :
    added held p x p = held p ++ [x] := by
  simp [added]

theorem added_of_ne (held : P → List (Nat × α)) {p q : P} (hq : q ≠ p) (x : Nat × α) :
    added held p x q = held q := by
  simp [added, hq]

theorem moved_of_ne (held : P → List (Nat × α)) {p q r : P} (hp : r ≠ p) (hq : r ≠ q)
    (xs rest : List (Nat × α)) : moved held p q xs rest r = held r := by
  simp [moved, hp, hq]

theorem mem_added {p : P} {x : Nat × α} (y : Nat × α) (q : P) :
    y ∈ added held p x q ↔ y ∈ held q ∨ (q = p ∧ y = x) := by
  by_cases hq : q = p
  · subst hq
    simp [added]
  · simp [added, hq]

theorem nodup_added (h : Placed items held) (p : P) (a : α) (q : P) :
    (added held p (items.length, a) q).Nodup := by
  by_cases hq : q = p
  · rw [hq, added_self]
    refine List.nodup_append.mpr ⟨h.nodup p, List.nodup_singleton _, fun x hx y hy hxy => ?_⟩
    rw [List.mem_singleton.mp hy] at hxy
    exact h.new_not_mem a p (hxy ▸ hx)
  · rw [added_of_ne held hq]
    exact h.nodup q

/-- **A new item is in one place, and the others stay in theirs.** -/
theorem add (h : Placed items held) (p : P) (a : α) :
    Placed (items ++ [a]) (added held p (items.length, a)) := by
  refine ⟨h.nodup_added p a, ?_, ?_, ?_⟩
  · intro q x hx
    rcases (mem_added x q).mp hx with hx | ⟨-, rfl⟩
    · have hentry := h.entry q x hx
      rw [List.getElem?_append_left (List.getElem?_eq_some_iff.mp hentry).1]
      exact hentry
    · simp
  · intro x hx
    by_cases hlt : x.1 < items.length
    · rw [List.getElem?_append_left hlt] at hx
      obtain ⟨q, hq⟩ := h.somewhere x hx
      exact ⟨q, (mem_added x q).mpr (Or.inl hq)⟩
    · rw [List.getElem?_append_right (by omega)] at hx
      obtain ⟨hk, ha⟩ := List.getElem?_eq_some_iff.mp hx
      simp only [List.length_singleton] at hk
      refine ⟨p, (mem_added x p).mpr (Or.inr ⟨rfl, ?_⟩)⟩
      refine Prod.ext (by omega) ?_
      simpa using ha.symm
  · intro x q r hq hr
    rcases (mem_added x q).mp hq with hq' | ⟨hqp, rfl⟩
    · rcases (mem_added x r).mp hr with hr' | ⟨-, rfl⟩
      · exact h.apart x q r hq' hr'
      · exact absurd hq' (h.new_not_mem a q)
    · rcases (mem_added _ r).mp hr with hr' | ⟨hrp, -⟩
      · exact absurd hr' (h.new_not_mem a r)
      · rw [hqp, hrp]

/-- What is where after the move. -/
theorem mem_moved {p q : P} (hpq : p ≠ q) {xs rest : List (Nat × α)} (x : Nat × α) (r : P) :
    x ∈ moved held p q xs rest r ↔
      (r ≠ p ∧ x ∈ held r) ∨ (r = p ∧ x ∈ rest) ∨ (r = q ∧ x ∈ xs) := by
  by_cases hr : r = q
  · subst hr
    simp [moved, hpq.symm]
  · by_cases hrp : r = p
    · subst hrp
      simp [moved, hr]
    · simp [moved, hr, hrp]

theorem nodup_moved (h : Placed items held) {p q : P} (hpq : p ≠ q) {xs rest : List (Nat × α)}
    (hperm : (held p).Perm (xs ++ rest)) (r : P) : (moved held p q xs rest r).Nodup := by
  have hnodup := List.nodup_append.mp (hperm.nodup_iff.mp (h.nodup p))
  by_cases hr : r = q
  · subst hr
    simp only [moved, Function.update_self]
    refine List.nodup_append.mpr ⟨h.nodup r, hnodup.1, fun a ha b hb hab => ?_⟩
    exact hpq (h.apart a p r (hperm.mem_iff.mpr (List.mem_append_left _ (hab ▸ hb))) ha)
  · by_cases hrp : r = p
    · subst hrp
      simpa [moved, hr] using hnodup.2.1
    · simpa [moved, hr, hrp] using h.nodup r

/-- **Items that go from one place to another are still in one place each.** -/
theorem move (h : Placed items held) {p q : P} (hpq : p ≠ q) {xs rest : List (Nat × α)}
    (hperm : (held p).Perm (xs ++ rest)) : Placed items (moved held p q xs rest) := by
  have hp : ∀ x, x ∈ held p ↔ x ∈ xs ∨ x ∈ rest := fun x => by
    rw [hperm.mem_iff, List.mem_append]
  have hdisjoint := (List.nodup_append.mp (hperm.nodup_iff.mp (h.nodup p))).2.2
  have hmem : ∀ x r, x ∈ moved held p q xs rest r ↔ _ := mem_moved hpq
  have hin : ∀ {x}, x ∈ xs → x ∈ held p := fun hx => (hp _).mpr (Or.inl hx)
  have hout : ∀ {x}, x ∈ rest → x ∈ held p := fun hx => (hp _).mpr (Or.inr hx)
  refine ⟨nodup_moved h hpq hperm, ?_, ?_, ?_⟩
  · intro r x hx
    rcases (hmem x r).mp hx with ⟨-, hx⟩ | ⟨-, hx⟩ | ⟨-, hx⟩
    · exact h.entry r x hx
    · exact h.entry p x (hout hx)
    · exact h.entry p x (hin hx)
  · intro x hx
    obtain ⟨r, hr⟩ := h.somewhere x hx
    by_cases hrp : r = p
    · subst hrp
      rcases (hp x).mp hr with hx | hx
      · exact ⟨q, (hmem x q).mpr (Or.inr (Or.inr ⟨rfl, hx⟩))⟩
      · exact ⟨r, (hmem x r).mpr (Or.inr (Or.inl ⟨rfl, hx⟩))⟩
    · exact ⟨r, (hmem x r).mpr (Or.inl ⟨hrp, hr⟩)⟩
  · intro x r r' hr hr'
    rcases (hmem x r).mp hr with ⟨hne, h1⟩ | ⟨rfl, h1⟩ | ⟨rfl, h1⟩
    · rcases (hmem x r').mp hr' with ⟨-, h2⟩ | ⟨rfl, h2⟩ | ⟨-, h2⟩
      · exact h.apart x r r' h1 h2
      · exact absurd (h.apart x r r' h1 (hout h2)) hne
      · exact absurd (h.apart x r p h1 (hin h2)) hne
    · rcases (hmem x r').mp hr' with ⟨hne, h2⟩ | ⟨rfl, -⟩ | ⟨-, h2⟩
      · exact absurd (h.apart x r' r h2 (hout h1)) hne
      · rfl
      · exact absurd rfl (hdisjoint x h2 x h1)
    · rcases (hmem x r').mp hr' with ⟨hne, h2⟩ | ⟨rfl, h2⟩ | ⟨rfl, -⟩
      · exact absurd (h.apart x r' p h2 (hin h1)) hne
      · exact absurd rfl (hdisjoint x h1 x h2)
      · rfl

end Placed

end Custody
