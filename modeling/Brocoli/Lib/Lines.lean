/-
The order of what is carried.

A path is a list of places, the last one first, and the line of a path is what is held along
it, of the items that count.  An item that goes from the front of a place to the end of the
next stays where it is in the line, and one that leaves the path only makes a gap.  So when
new items enter at the beginning of the path no item overtakes another: the line is part of
the items there are, in their order.
-/
import Brocoli.Lib.Carriage
import Mathlib.Data.List.Sublists

namespace Carriage

open Custody Multipart

variable {P α : Type}

/-- The items with their numbers. -/
def numbered (items : List α) : List (Nat × α) := items.mapIdx fun i a => (i, a)

@[simp] theorem numbered_nil : numbered ([] : List α) = [] := rfl

theorem numbered_concat (items : List α) (a : α) :
    numbered (items ++ [a]) = numbered items ++ [(items.length, a)] := List.mapIdx_concat

theorem mem_numbered {items : List α} {x : Nat × α} :
    x ∈ numbered items ↔ items[x.1]? = some x.2 := by
  obtain ⟨k, a⟩ := x
  rw [numbered, List.mem_mapIdx]
  constructor
  · rintro ⟨i, hi, heq⟩
    obtain ⟨rfl, rfl⟩ := Prod.mk.inj heq
    exact List.getElem?_eq_getElem hi
  · intro hk
    obtain ⟨hlt, ha⟩ := List.getElem?_eq_some_iff.mp hk
    exact ⟨k, hlt, by rw [ha]⟩

theorem pairwise_numbered (items : List α) : (numbered items).Pairwise fun x y => x.1 < y.1 := by
  induction items using List.reverseRecOn with
  | nil => exact List.Pairwise.nil
  | append_singleton items a ih =>
      rw [numbered_concat]
      refine List.pairwise_append.mpr ⟨ih, List.pairwise_singleton _ _, fun x hx y hy => ?_⟩
      obtain rfl := List.mem_singleton.mp hy
      exact (List.getElem?_eq_some_iff.mp (mem_numbered.mp hx)).1

/-- What is held along a path, the last place first, of the items that count. -/
def line (held : P → List (Nat × α)) (path : List P) (mine : Nat × α → Bool) : List (Nat × α) :=
  path.flatMap fun p => (held p).filter mine

section Line

variable {held : P → List (Nat × α)} {path : List P} {mine : Nat × α → Bool}

theorem mem_line {x : Nat × α} :
    x ∈ line held path mine ↔ (∃ p ∈ path, x ∈ held p) ∧ mine x = true := by
  simp only [line, List.mem_flatMap, List.mem_filter]
  constructor
  · rintro ⟨p, hp, hx, hmine⟩
    exact ⟨⟨p, hp, hx⟩, hmine⟩
  · rintro ⟨⟨p, hp, hx⟩, hmine⟩
    exact ⟨p, hp, hx, hmine⟩

theorem line_congr {held' : P → List (Nat × α)}
    (h : ∀ p ∈ path, (held' p).filter mine = (held p).filter mine) :
    line held' path mine = line held path mine := List.flatMap_congr h

theorem line_append (held : P → List (Nat × α)) (l r : List P) (mine : Nat × α → Bool) :
    line held (l ++ r) mine = line held l mine ++ line held r mine := List.flatMap_append

theorem line_cons (held : P → List (Nat × α)) (p : P) (l : List P) (mine : Nat × α → Bool) :
    line held (p :: l) mine = (held p).filter mine ++ line held l mine := List.flatMap_cons

variable [DecidableEq P]

/-- An item that enters at the beginning of the path is the last of the line. -/
theorem line_added {p : P} (hlast : [p] <:+ path) (hnodup : path.Nodup) (x : Nat × α) :
    line (Placed.added held p x) path mine = line held path mine ++ [x].filter mine := by
  obtain ⟨l, rfl⟩ := hlast
  have hl : line (Placed.added held p x) l mine = line held l mine := by
    refine line_congr fun q hq => ?_
    rw [Placed.added_of_ne held]
    exact (List.nodup_append.mp hnodup).2.2 q hq p (by simp)
  rw [line_append, line_append, hl, line_cons, line_cons, Placed.added_self, List.filter_append]
  simp [line]

theorem line_added_other {x : Nat × α} (hx : mine x = false) (p : P) :
    line (Placed.added held p x) path mine = line held path mine := by
  refine line_congr fun q _ => ?_
  by_cases hq : q = p
  · subst hq
    rw [Placed.added_self, List.filter_append]
    simp [hx]
  · rw [Placed.added_of_ne held hq]

variable {p q : P} {xs rest : List (Nat × α)} {dest : Nat × α → P}

/-- Where nothing that counts arrives the line has what it had. -/
theorem filter_spread_of_ne {r : P} (hr : r ≠ p) (h : ∀ x ∈ xs, mine x = true → dest x ≠ r) :
    (spread held p xs rest dest r).filter mine = (held r).filter mine := by
  have hnone : (xs.filter fun x => dest x = r).filter mine = [] := by
    rw [List.filter_filter]
    refine List.filter_eq_nil_iff.mpr fun x hx hboth => ?_
    rw [Bool.and_eq_true] at hboth
    exact h x hx hboth.1 (by simpa using hboth.2)
  rw [spread, if_neg hr, List.filter_append, hnone, List.append_nil]

/-- Items that do not count move as they like. -/
theorem line_spread_other (hrest : rest.filter mine = (held p).filter mine)
    (h : ∀ x ∈ xs, mine x = false) :
    line (spread held p xs rest dest) path mine = line held path mine := by
  refine line_congr fun r _ => ?_
  by_cases hr : r = p
  · subst hr
    have hnone : (xs.filter fun x => dest x = r).filter mine = [] :=
      List.filter_eq_nil_iff.mpr fun x hx => by
        simpa using h x (List.mem_filter.mp hx).1
    rw [spread, if_pos rfl, List.filter_append, hnone, List.append_nil, hrest]
  · exact filter_spread_of_ne hr fun x hx hmine => absurd hmine (by simp [h x hx])

/-- **What goes from a place to the next one on the path keeps its position, and what leaves
the path makes a gap.** -/
theorem line_spread_sublist (hnext : [q, p] <:+: path) (hnodup : path.Nodup)
    (hfirst : (held p).filter mine = xs.filter mine ++ rest.filter mine)
    (hdest : ∀ x ∈ xs, mine x = true → dest x = q ∨ dest x ∉ path) :
    (line (spread held p xs rest dest) path mine).Sublist (line held path mine) := by
  obtain ⟨l, r, hpath⟩ := hnext
  obtain rfl : path = l ++ q :: p :: r := by rw [← hpath]; simp
  have hpq : q ≠ p := fun heq => by
    have hsub := (List.nodup_append.mp hnodup).2.1
    exact absurd (by rw [heq]; simp) (List.nodup_cons.mp hsub).1
  -- of what counts nothing arrives anywhere else on the path
  have hother : ∀ s ∈ l ++ q :: p :: r, s ≠ q → ∀ x ∈ xs, mine x = true → dest x ≠ s := by
    intro s hs hsq x hx hmine heq
    rcases hdest x hx hmine with hq | hout
    · exact hsq (heq.symm.trans hq)
    · exact hout (heq ▸ hs)
  have hl : line (spread held p xs rest dest) l mine = line held l mine := by
    refine line_congr fun s hs => ?_
    have hdisjoint := (List.nodup_append.mp hnodup).2.2 s hs
    have hsq : s ≠ q := hdisjoint q (by simp)
    have hsp : s ≠ p := hdisjoint p (by simp)
    exact filter_spread_of_ne hsp (hother s (by simp [hs]) hsq)
  have hr : line (spread held p xs rest dest) r mine = line held r mine := by
    refine line_congr fun s hs => ?_
    have htail := (List.nodup_cons.mp (List.nodup_append.mp hnodup).2.1)
    have hsq : s ≠ q := fun heq => htail.1 (by rw [← heq]; simp [hs])
    have hsp : s ≠ p := fun heq => (List.nodup_cons.mp htail.2).1 (heq ▸ hs)
    exact filter_spread_of_ne hsp (hother s (by simp [hs]) hsq)
  have hp : (spread held p xs rest dest p).filter mine = rest.filter mine := by
    have hnone : (xs.filter fun x => dest x = p).filter mine = [] := by
      rw [List.filter_filter]
      refine List.filter_eq_nil_iff.mpr fun x hx hboth => ?_
      rw [Bool.and_eq_true] at hboth
      exact hother p (by simp) hpq.symm x hx hboth.1 (by simpa using hboth.2)
    rw [spread, if_pos rfl, List.filter_append, hnone, List.append_nil]
  have hq : ((spread held p xs rest dest q).filter mine).Sublist
      ((held q).filter mine ++ xs.filter mine) := by
    rw [spread, if_neg hpq, List.filter_append]
    exact (List.Sublist.refl _).append (List.filter_sublist.filter mine)
  simp only [line_append, line_cons, hl, hr, hp, hfirst]
  refine (List.Sublist.refl _).append ?_
  rw [← List.append_assoc, ← List.append_assoc, ← List.append_assoc]
  exact (hq.append (List.Sublist.refl _)).append (List.Sublist.refl _)

theorem line_shift_other {n : Nat} (h : ∀ x ∈ (held p).take n, mine x = false) :
    line (shift held p n dest) path mine = line held path mine := by
  refine line_spread_other ?_ h
  have hnone : ((held p).take n).filter mine = [] :=
    List.filter_eq_nil_iff.mpr fun x hx => by simpa using h x hx
  conv_rhs => rw [← List.take_append_drop n (held p), List.filter_append, hnone, List.nil_append]

theorem line_shift_sublist (hnext : [q, p] <:+: path) (hnodup : path.Nodup) {n : Nat}
    (hdest : ∀ x ∈ (held p).take n, mine x = true → dest x = q ∨ dest x ∉ path) :
    (line (shift held p n dest) path mine).Sublist (line held path mine) := by
  refine line_spread_sublist hnext hnodup ?_ hdest
  rw [← List.filter_append, List.take_append_drop]

omit [DecidableEq P] in
/-- What is found, and what is left without it. -/
theorem find_split {l : List (Nat × α)} {wanted : Nat × α → Bool} {x : Nat × α}
    (h : l.find? wanted = some x) :
    ∃ a b, l = a ++ x :: b ∧ l.eraseP wanted = a ++ b ∧ ∀ y ∈ a, ¬ wanted y = true := by
  obtain ⟨hx, a, b, hab, ha⟩ := List.find?_eq_some_iff_append.mp h
  have hnone : ∀ y ∈ a, ¬ wanted y = true := fun y hy => by simpa using ha y hy
  refine ⟨a, b, hab, ?_, hnone⟩
  rw [hab, List.eraseP_append_right _ hnone, List.eraseP_cons_of_pos hx]

omit [DecidableEq P] in
theorem filter_find_erase {wanted : Nat × α → Bool}
    (h : ∀ x ∈ held p, mine x = true → wanted x = true) :
    (held p).filter mine
      = ((held p).find? wanted).toList.filter mine ++ ((held p).eraseP wanted).filter mine := by
  cases hfind : (held p).find? wanted with
  | none => rw [List.eraseP_of_forall_not (List.find?_eq_none.mp hfind)]; rfl
  | some x =>
      obtain ⟨a, b, hab, herase, ha⟩ := find_split hfind
      -- nothing in front of what is picked counts
      have hfront : a.filter mine = [] := by
        refine List.filter_eq_nil_iff.mpr fun y hy hmine => ?_
        exact ha y hy (h y (by rw [hab]; simp [hy]) hmine)
      rw [herase, hab, List.filter_append, List.filter_append, hfront, List.nil_append,
        List.nil_append, Option.toList_some, ← List.filter_append, List.singleton_append]

/-- What is picked goes to the next place on the path. -/
theorem line_pick_sublist (hnext : [q, p] <:+: path) (hnodup : path.Nodup)
    {wanted : Nat × α → Bool} (h : ∀ x ∈ held p, mine x = true → wanted x = true) :
    (line (pick held p wanted fun _ => q) path mine).Sublist (line held path mine) :=
  line_spread_sublist hnext hnodup (filter_find_erase h) fun _ _ _ => Or.inl rfl

theorem line_pick_other {wanted : Nat × α → Bool}
    (h : ∀ x ∈ held p, wanted x = true → mine x = false) :
    line (pick held p wanted dest) path mine = line held path mine := by
  cases hfind : (held p).find? wanted with
  | none => rw [pick_of_none hfind]
  | some x =>
      have hmine := h x (List.mem_of_find?_eq_some hfind) (List.find?_some hfind)
      obtain ⟨a, b, hab, herase, -⟩ := find_split hfind
      refine line_spread_other ?_ fun y hy => ?_
      · rw [herase, hab, List.filter_append, List.filter_append,
          List.filter_cons_of_neg (by simp [hmine])]
      · rw [hfind] at hy
        obtain rfl : y = x := by simpa using hy
        exact hmine

omit [DecidableEq P] in
/-- A line in which nothing is missing is all there is, in order. -/
theorem line_eq {items : List α} (h : (line held path mine).Sublist ((numbered items).filter mine))
    (hall : ∀ x, items[x.1]? = some x.2 → mine x = true → ∃ p ∈ path, x ∈ held p) :
    line held path mine = (numbered items).filter mine := by
  have hnodup : ((numbered items).filter mine).Nodup := by
    refine ((pairwise_numbered items).imp fun {x y} hlt heq => ?_).filter mine
    exact Nat.lt_irrefl _ (heq ▸ hlt)
  have hsub : (numbered items).filter mine ⊆ line held path mine := by
    intro x hx
    obtain ⟨hx, hmine⟩ := List.mem_filter.mp hx
    exact mem_line.mpr ⟨hall x (mem_numbered.mp hx) hmine, hmine⟩
  exact h.eq_of_length_le (List.subperm_of_subset hnodup hsub).length_le

end Line

/-! ### Lanes -/

section Lane

variable [DecidableEq P]

/-- What a queue that several share holds for one of them. -/
def lane (p : P) (l : List (P × α)) : List α := (l.filter fun z => z.1 = p).map Prod.snd

@[simp] theorem lane_nil (p : P) : lane p ([] : List (P × α)) = [] := rfl

@[simp] theorem lane_append (p : P) (l r : List (P × α)) :
    lane p (l ++ r) = lane p l ++ lane p r := by
  simp [lane]

theorem lane_cons (p : P) (z : P × α) (l : List (P × α)) :
    lane p (z :: l) = (if z.1 = p then [z.2] else []) ++ lane p l := by
  by_cases h : z.1 = p <;> simp [lane, h]

theorem mem_lane {p : P} {a : α} {l : List (P × α)} : a ∈ lane p l ↔ (p, a) ∈ l := by
  simp [lane]

theorem lane_map {β : Type} (g : P → α → β) (p : P) (l : List (P × α)) :
    lane p (l.map fun z => (z.1, g z.1 z.2)) = (lane p l).map (g p) := by
  induction l with
  | nil => rfl
  | cons z l ih =>
      rw [List.map_cons, lane_cons, lane_cons, ih, List.map_append]
      by_cases h : z.1 = p <;> simp [h]

end Lane

/-! ### One place of many

What is so of all places is so after one of them has changed.
-/

section Update

variable [DecidableEq P] {γ δ : Type} {f : P → γ} {g : P → δ} {p : P} {v : γ} {w : δ}

theorem all_update {Q : P → γ → Prop} (h : ∀ q, Q q (f q)) (hv : Q p v) :
    ∀ q, Q q (Function.update f p v q) :=
  (Function.forall_update_iff f Q).mpr ⟨hv, fun q _ => h q⟩

theorem all_update₂ {Q : P → γ → δ → Prop} (h : ∀ q, Q q (f q) (g q)) (hvw : Q p v w) :
    ∀ q, Q q (Function.update f p v q) (Function.update g p w q) := by
  intro q
  by_cases hq : q = p
  · subst hq
    rw [Function.update_self, Function.update_self]
    exact hvw
  · rw [Function.update_of_ne hq, Function.update_of_ne hq]
    exact h q

end Update

end Carriage
