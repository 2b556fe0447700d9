/-
Maps that are built from news.

Whoever keeps such a map looks each piece of news up by its key and stores what comes of the
old entry and the news.  So what is under a key depends on the news with that key alone, in
their order.
-/
import Mathlib.Data.List.Induction
import Mathlib.Logic.Function.Basic
import Mathlib.Tactic.Common

namespace Keyed

variable {κ α β V : Type} [DecidableEq κ] {key : α → κ} {f : Option V → α → V}

/-- The map after one piece of news. -/
def put (key : α → κ) (f : Option V → α → V) (m : κ → Option V) (x : α) : κ → Option V :=
  Function.update m (key x) (some (f (m (key x)) x))

/-- The map that is built from nothing. -/
def build (key : α → κ) (f : Option V → α → V) (xs : List α) : κ → Option V :=
  xs.foldl (put key f) fun _ => none

/-- The news with a key. -/
def about (key : α → κ) (k : κ) (xs : List α) : List α := xs.filter fun x => key x = k

/-- What comes of the news with one key. -/
def entry (f : Option V → α → V) (o : Option V) (xs : List α) : Option V :=
  xs.foldl (fun o x => some (f o x)) o

theorem put_self (m : κ → Option V) (x : α) :
    put key f m x (key x) = some (f (m (key x)) x) := Function.update_self _ _ _

theorem put_other (m : κ → Option V) {x : α} {k : κ} (h : k ≠ key x) : put key f m x k = m k :=
  Function.update_of_ne h _ _

theorem build_append_singleton (xs : List α) (x : α) :
    build key f (xs ++ [x]) = put key f (build key f xs) x := by
  rw [build, List.foldl_append]
  rfl

theorem mem_about {k : κ} {xs : List α} {x : α} : x ∈ about key k xs ↔ x ∈ xs ∧ key x = k := by
  simp [about]

theorem about_cons (k : κ) (x : α) (xs : List α) :
    about key k (x :: xs) = if key x = k then x :: about key k xs else about key k xs := by
  simp [about, List.filter_cons]

/-- News with the key comes last. -/
theorem about_append_self {x : α} {k : κ} (h : key x = k) (xs : List α) :
    about key k (xs ++ [x]) = about key k xs ++ [x] := by
  simp [about, h]

/-- Other news does not count. -/
theorem about_append_other {x : α} {k : κ} (h : key x ≠ k) (xs : List α) :
    about key k (xs ++ [x]) = about key k xs := by
  simp [about, h]

/-- Neighbours with different keys may change places. -/
theorem about_swap {x y : α} (h : key x ≠ key y) (k : κ) (xs : List α) :
    about key k (x :: y :: xs) = about key k (y :: x :: xs) := by
  simp only [about_cons]
  by_cases hx : key x = k
  · have hy : key y ≠ k := fun hy => h (hx.trans hy.symm)
    rw [if_neg hy, if_neg hy]
  · rw [if_neg hx, if_neg hx]

theorem about_perm {xs ys : List α} (h : xs.Perm ys) (k : κ) :
    (about key k xs).Perm (about key k ys) := h.filter _

/-- **What is under a key comes of the news with that key.** -/
theorem foldl_put (k : κ) : ∀ (xs : List α) (m : κ → Option V),
    xs.foldl (put key f) m k = entry f (m k) (about key k xs) := by
  intro xs
  induction xs with
  | nil => intro m; rfl
  | cons x xs ih =>
      intro m
      rw [List.foldl_cons, ih, about_cons]
      by_cases hk : key x = k
      · rw [if_pos hk, ← hk, put_self]
        rfl
      · rw [if_neg hk, put_other m fun h => hk h.symm]

theorem build_apply (xs : List α) (k : κ) :
    build key f xs k = entry f none (about key k xs) := foldl_put k xs _

theorem entry_append_singleton (o : Option V) (xs : List α) (x : α) :
    entry f o (xs ++ [x]) = some (f (entry f o xs) x) := by
  rw [entry, List.foldl_append]
  rfl

theorem entry_none : ∀ {xs : List α}, entry f none xs = none ↔ xs = [] := by
  intro xs
  induction xs using List.reverseRecOn with
  | nil => simp [entry]
  | append_singleton xs x _ => simp [entry_append_singleton]

/-- There is an entry under a key once there was news with the key. -/
theorem build_none {xs : List α} {k : κ} : build key f xs k = none ↔ about key k xs = [] := by
  rw [build_apply, entry_none]

/-- What an entry has of the last piece of news only. -/
theorem map_entry_last {g : V → β} {h : α → β} (hlast : ∀ o x, g (f o x) = h x) (xs : List α) :
    (entry f none xs).map g = xs.getLast?.map h := by
  induction xs using List.reverseRecOn with
  | nil => rfl
  | append_singleton xs x _ => simp [entry_append_singleton, hlast]

end Keyed
