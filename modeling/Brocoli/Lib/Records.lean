/-
Records one behind the other.

When no record is empty and none is the beginning of another, a stream of records can be
taken apart in one way only.  So whoever knows a part of the records at the front of a
stream knows what is behind them, and two readers that have taken equally much off a stream
have taken the same records.
-/
import Mathlib.Data.List.Basic
import Mathlib.Data.List.Infix
import Mathlib.Tactic.Common

namespace Records

variable {α β : Type} {enc : α → List β} {valid : α → Prop}

/-- No record is empty, and what begins with a record begins with no other. -/
structure Separable (enc : α → List β) (valid : α → Prop) : Prop where
  nonempty : ∀ {a}, valid a → enc a ≠ []
  eq : ∀ {a b x y}, valid a → valid b → enc a ++ x = enc b ++ y → a = b

/-- **The records at the front of a stream are the first it is made of.** -/
theorem split (h : Separable enc valid) : ∀ {as bs : List α} {d : List β}, (∀ a ∈ as, valid a) →
    (∀ b ∈ bs, valid b) → as.flatMap enc ++ d = bs.flatMap enc →
    ∃ cs, bs = as ++ cs ∧ d = cs.flatMap enc := by
  intro as
  induction as with
  | nil => intro bs d _ _ heq; exact ⟨bs, rfl, heq⟩
  | cons a as ih =>
      intro bs d has hbs heq
      obtain ⟨ha, has⟩ := List.forall_mem_cons.mp has
      rw [List.flatMap_cons, List.append_assoc] at heq
      cases bs with
      | nil =>
          have hnil := List.append_eq_nil_iff.mp heq
          exact absurd hnil.1 (h.nonempty ha)
      | cons b bs =>
          obtain ⟨hb, hrest⟩ := List.forall_mem_cons.mp hbs
          rw [List.flatMap_cons] at heq
          obtain rfl := h.eq ha hb heq
          have htail : as.flatMap enc ++ d = bs.flatMap enc := List.append_cancel_left heq
          obtain ⟨cs, rfl, hd⟩ := ih has hrest htail
          exact ⟨cs, rfl, hd⟩

theorem flatMap_eq_nil (h : Separable enc valid) {as : List α} (has : ∀ a ∈ as, valid a)
    (hnil : as.flatMap enc = []) : as = [] := by
  cases as with
  | nil => rfl
  | cons a as =>
      rw [List.flatMap_cons] at hnil
      exact absurd (List.append_eq_nil_iff.mp hnil).1 (h.nonempty (has a (by simp)))

/-- **What a reader takes off the stream between two boundaries is records.** -/
theorem between (h : Separable enc valid) {front back front' back' : List α}
    (hvalid : ∀ a ∈ front' ++ back', valid a) (hsame : front ++ back = front' ++ back')
    {taken : List β} (htaken : back.flatMap enc = taken ++ back'.flatMap enc) :
    ∃ mid, front' = front ++ mid ∧ back = mid ++ back' ∧ taken = mid.flatMap enc := by
  rcases List.append_eq_append_iff.mp hsame with ⟨mid, hfront, hback⟩ | ⟨mid, hfront, hback⟩
  · refine ⟨mid, hfront, hback, ?_⟩
    rw [hback, List.flatMap_append] at htaken
    exact (List.append_cancel_right htaken).symm
  · have hlen := congrArg List.length htaken
    rw [hback, List.flatMap_append, List.length_append, List.length_append] at hlen
    have hmid : mid.flatMap enc = [] := List.eq_nil_of_length_eq_zero (by omega)
    have hall : ∀ a ∈ mid, valid a := fun a ha =>
      hvalid a (List.mem_append.mpr (Or.inr (by simp [hback, ha])))
    obtain rfl := flatMap_eq_nil h hall hmid
    refine ⟨[], by simpa using hfront.symm, by simpa using hback.symm, ?_⟩
    rw [hmid] at hlen
    exact List.eq_nil_of_length_eq_zero (by simpa using hlen)

end Records
