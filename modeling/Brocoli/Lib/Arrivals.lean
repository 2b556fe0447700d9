/-
Lists in order of arrival.

An entry is looked for from the front, and added at the back when it is not there; and now
and then entries are dropped.  Then whatever is in the list comes in the order in which it
arrived, the time since it was dropped last counting, and is there once.  So a search from
the front finds the entry that has been there longest.
-/
import Mathlib.Data.List.Induction
import Mathlib.Data.List.Nodup
import Mathlib.Tactic.Common

namespace Arrivals

variable {κ β S E : Type}

/-! ### Finding or adding -/

/-- The first entry that is looked for is changed; if there is none, a fresh one is added. -/
def findOrAdd (same : β → Bool) (found : β → β) (fresh : β) : List β → List β
  | [] => [fresh]
  | x :: xs => if same x then found x :: xs else x :: findOrAdd same found fresh xs

theorem findOrAdd_found {same : β → Bool} (found : β → β) (fresh : β) {x : β} {b : List β} :
    ∀ {a : List β}, (∀ y ∈ a, same y = false) → same x = true →
      findOrAdd same found fresh (a ++ x :: b) = a ++ found x :: b := by
  intro a
  induction a with
  | nil => intro _ hx; rw [List.nil_append, findOrAdd, if_pos hx, List.nil_append]
  | cons y a ih =>
      intro ha hx
      obtain ⟨hy, ha⟩ := List.forall_mem_cons.mp ha
      rw [List.cons_append, findOrAdd, if_neg (by simp [hy]), ih ha hx, List.cons_append]

theorem findOrAdd_fresh {same : β → Bool} (found : β → β) (fresh : β) : ∀ {l : List β},
    (∀ y ∈ l, same y = false) → findOrAdd same found fresh l = l ++ [fresh] := by
  intro l
  induction l with
  | nil => intro _; rfl
  | cons y l ih =>
      intro hl
      obtain ⟨hy, hl⟩ := List.forall_mem_cons.mp hl
      rw [findOrAdd, if_neg (by simp [hy]), ih hl, List.cons_append]

/-- The first entry that is looked for, if there is one. -/
theorem first_cases (same : β → Bool) : ∀ l : List β,
    (∃ a x b, l = a ++ x :: b ∧ (∀ y ∈ a, same y = false) ∧ same x = true) ∨
      ∀ y ∈ l, same y = false := by
  intro l
  induction l with
  | nil => exact Or.inr (by simp)
  | cons x l ih =>
      cases hx : same x with
      | true => exact Or.inl ⟨[], x, l, rfl, by simp, hx⟩
      | false =>
          rcases ih with ⟨a, y, b, rfl, ha, hy⟩ | hall
          · exact Or.inl ⟨x :: a, y, b, rfl, List.forall_mem_cons.mpr ⟨hx, ha⟩, hy⟩
          · exact Or.inr (List.forall_mem_cons.mpr ⟨hx, hall⟩)

/-- An entry afterwards is one there was, the changed one or the fresh one. -/
theorem mem_findOrAdd {same : β → Bool} {found : β → β} {fresh x : β} {l : List β}
    (h : x ∈ findOrAdd same found fresh l) :
    x ∈ l ∨ (∃ c ∈ l, same c = true ∧ x = found c) ∨ x = fresh := by
  rcases first_cases same l with ⟨a, y, b, rfl, ha, hy⟩ | hall
  · rw [findOrAdd_found found fresh ha hy] at h
    rcases List.mem_append.mp h with hx | hx
    · exact Or.inl (List.mem_append_left _ hx)
    · rcases List.mem_cons.mp hx with rfl | hx
      · exact Or.inr (Or.inl ⟨y, by simp, hy, rfl⟩)
      · exact Or.inl (List.mem_append_right _ (List.mem_cons_of_mem _ hx))
  · rw [findOrAdd_fresh found fresh hall] at h
    rcases List.mem_append.mp h with hx | hx
    · exact Or.inl hx
    · exact Or.inr (Or.inr (List.mem_singleton.mp hx))

/-- An entry there was is there afterwards, as it was or changed. -/
theorem mem_findOrAdd_of_mem {same : β → Bool} {found : β → β} {fresh x : β} {l : List β}
    (h : x ∈ l) : x ∈ findOrAdd same found fresh l ∨
      (same x = true ∧ found x ∈ findOrAdd same found fresh l) := by
  rcases first_cases same l with ⟨a, y, b, rfl, ha, hy⟩ | hall
  · rw [findOrAdd_found found fresh ha hy]
    rcases List.mem_append.mp h with hx | hx
    · exact Or.inl (List.mem_append_left _ hx)
    · rcases List.mem_cons.mp hx with rfl | hx
      · exact Or.inr ⟨hy, by simp⟩
      · exact Or.inl (List.mem_append_right _ (List.mem_cons_of_mem _ hx))
  · rw [findOrAdd_fresh found fresh hall]
    exact Or.inl (List.mem_append_left _ h)

/-- What was looked for is there. -/
theorem exists_findOrAdd (same : β → Bool) (found : β → β) (fresh : β) (l : List β) :
    (∃ x ∈ l, same x = true ∧ found x ∈ findOrAdd same found fresh l) ∨
      fresh ∈ findOrAdd same found fresh l := by
  rcases first_cases same l with ⟨a, y, b, rfl, ha, hy⟩ | hall
  · rw [findOrAdd_found found fresh ha hy]
    exact Or.inl ⟨y, by simp, hy, by simp⟩
  · rw [findOrAdd_fresh found fresh hall]
    exact Or.inr (by simp)

/-- When no two entries have a key in common, those that are left as they were have another. -/
theorem mem_findOrAdd_key [BEq κ] [LawfulBEq κ] {key : β → κ} {k : κ} {found : β → β}
    {fresh x : β} {l : List β} (hn : (l.map key).Nodup)
    (h : x ∈ findOrAdd (fun x => key x == k) found fresh l) :
    (x ∈ l ∧ key x ≠ k) ∨ (∃ c ∈ l, key c = k ∧ x = found c) ∨ x = fresh := by
  rcases first_cases (fun x => key x == k) l with ⟨a, y, b, rfl, ha, hy⟩ | hall
  · have hk : key y = k := by simpa using hy
    rw [findOrAdd_found found fresh ha hy] at h
    rcases List.mem_append.mp h with hx | hx
    · exact Or.inl ⟨List.mem_append_left _ hx, by simpa using ha x hx⟩
    · rcases List.mem_cons.mp hx with rfl | hx
      · exact Or.inr (Or.inl ⟨y, by simp, hk, rfl⟩)
      · refine Or.inl ⟨List.mem_append_right _ (List.mem_cons_of_mem _ hx), fun hxk => ?_⟩
        rw [List.map_append, List.map_cons] at hn
        have hnot := (List.nodup_cons.mp hn.of_append_right).1
        exact hnot (hk ▸ hxk ▸ List.mem_map_of_mem hx)
  · rw [findOrAdd_fresh found fresh hall] at h
    rcases List.mem_append.mp h with hx | hx
    · exact Or.inl ⟨hx, by simpa using hall x hx⟩
    · exact Or.inr (Or.inr (List.mem_singleton.mp hx))

/-- Some of the keys stay, in place, or a new key comes last. -/
def Queued (ks ks' : List κ) : Prop := ks'.Sublist ks ∨ ∃ k, k ∉ ks ∧ ks' = ks ++ [k]

theorem Queued.nodup {ks ks' : List κ} (h : Queued ks ks') (hn : ks.Nodup) : ks'.Nodup := by
  rcases h with hsub | ⟨k, hk, rfl⟩
  · exact hn.sublist hsub
  · exact hn.append (List.nodup_singleton k) fun x hx hxk => hk (List.mem_singleton.mp hxk ▸ hx)

/-- An entry is found or added by its key. -/
theorem queued_findOrAdd [BEq κ] [LawfulBEq κ] {key : β → κ} {k : κ} {found : β → β}
    {fresh : β} (hfound : ∀ x, key (found x) = key x) (hfresh : key fresh = k) (l : List β) :
    Queued (l.map key) ((findOrAdd (fun x => key x == k) found fresh l).map key) := by
  rcases first_cases (fun x => key x == k) l with ⟨a, x, b, rfl, ha, hx⟩ | hall
  · rw [findOrAdd_found found fresh ha hx, List.map_append, List.map_append, List.map_cons,
      List.map_cons, hfound]
    exact Or.inl (List.Sublist.refl _)
  · rw [findOrAdd_fresh found fresh hall, List.map_append, List.map_singleton, hfresh]
    refine Or.inr ⟨k, fun hk => ?_, rfl⟩
    obtain ⟨x, hx, hxk⟩ := List.mem_map.mp hk
    exact absurd (hall x hx) (by simp [hxk])

/-! ### The order of arrival -/

variable {step : S → E → S} {keys : S → List κ} {s : S}

/-- The key came with the `i`-th step, and has been there since. -/
structure Arrived (step : S → E → S) (keys : S → List κ) (s : S) (es : List E) (k : κ)
    (i : Nat) : Prop where
  before : i < es.length
  absent : k ∉ keys ((es.take i).foldl step s)
  since : ∀ j, i < j → j ≤ es.length → k ∈ keys ((es.take j).foldl step s)

theorem Arrived.stay {es : List E} {e : E} {k : κ} {i : Nat} (h : Arrived step keys s es k i)
    (hk : k ∈ keys ((es ++ [e]).foldl step s)) : Arrived step keys s (es ++ [e]) k i := by
  have hi := h.before
  refine ⟨by simp; omega, ?_, fun j hij hj => ?_⟩
  · rw [List.take_append_of_le_length (Nat.le_of_lt hi)]
    exact h.absent
  · rw [List.length_append, List.length_singleton] at hj
    by_cases hlast : j = es.length + 1
    · rw [hlast, List.take_of_length_le (by simp)]
      exact hk
    · rw [List.take_append_of_le_length (by omega)]
      exact h.since j hij (by omega)

theorem arrived_new {es : List E} {e : E} {k : κ} (hnot : k ∉ keys (es.foldl step s))
    (hk : k ∈ keys ((es ++ [e]).foldl step s)) : Arrived step keys s (es ++ [e]) k es.length := by
  refine ⟨by simp, ?_, fun j hij hj => ?_⟩
  · rw [List.take_left]
    exact hnot
  · rw [List.take_of_length_le (by rw [List.length_append]; exact hij)]
    exact hk

/-- What was there before the last step came with an earlier one. -/
theorem Arrived.old {es : List E} {e : E} {k : κ} {i : Nat}
    (h : Arrived step keys s (es ++ [e]) k i) (hk : k ∈ keys (es.foldl step s)) :
    Arrived step keys s es k i := by
  have hi := h.before
  rw [List.length_append, List.length_singleton] at hi
  have hne : i ≠ es.length := by
    rintro rfl
    have habsent := h.absent
    rw [List.take_left] at habsent
    exact habsent hk
  refine ⟨by omega, ?_, fun j hij hj => ?_⟩
  · have habsent := h.absent
    rwa [List.take_append_of_le_length (by omega)] at habsent
  · have hsince := h.since j hij (by rw [List.length_append]; omega)
    rwa [List.take_append_of_le_length hj] at hsince

/-- What was not there came with the last step. -/
theorem Arrived.last {es : List E} {e : E} {k : κ} {i : Nat}
    (h : Arrived step keys s (es ++ [e]) k i) (hk : k ∉ keys (es.foldl step s)) :
    i = es.length := by
  have hi := h.before
  rw [List.length_append, List.length_singleton] at hi
  by_contra hne
  have hsince := h.since es.length (by omega) (by simp)
  rw [List.take_left] at hsince
  exact hk hsince

/-- The first of two keys came before the second. -/
def Before (step : S → E → S) (keys : S → List κ) (s : S) (es : List E) (k l : κ) : Prop :=
  ∀ i j, Arrived step keys s es k i → Arrived step keys s es l j → i < j

theorem nodup_run (hstep : ∀ s e, Queued (keys s) (keys (step s e))) (hs : keys s = []) :
    ∀ es : List E, (keys (es.foldl step s)).Nodup := by
  intro es
  induction es using List.reverseRecOn with
  | nil => simp [hs]
  | append_singleton es e ih =>
      rw [List.foldl_append]
      exact (hstep _ e).nodup ih

/-- Everything has arrived. -/
theorem arrived_run (hs : keys s = []) : ∀ {es : List E} {k : κ}, k ∈ keys (es.foldl step s) →
    ∃ i, Arrived step keys s es k i := by
  intro es
  induction es using List.reverseRecOn with
  | nil => intro k hk; exact absurd hk (by simp [hs])
  | append_singleton es e ih =>
      intro k hk
      by_cases hold : k ∈ keys (es.foldl step s)
      · obtain ⟨i, hi⟩ := ih hold
        exact ⟨i, hi.stay hk⟩
      · exact ⟨es.length, arrived_new hold hk⟩

/-- **The list is in order of arrival.** -/
theorem before_run (hstep : ∀ s e, Queued (keys s) (keys (step s e))) (hs : keys s = []) :
    ∀ es : List E, (keys (es.foldl step s)).Pairwise (Before step keys s es) := by
  intro es
  induction es using List.reverseRecOn with
  | nil => simp [hs]
  | append_singleton es e ih =>
      -- between keys that were there before the step
      have hold : ∀ {k l : κ}, k ∈ keys (es.foldl step s) → l ∈ keys (es.foldl step s) →
          Before step keys s es k l → Before step keys s (es ++ [e]) k l :=
        fun hk hl h i j hi hj => h i j (hi.old hk) (hj.old hl)
      have hfold : (es ++ [e]).foldl step s = step (es.foldl step s) e := by
        rw [List.foldl_append]
        rfl
      rw [hfold]
      rcases hstep (es.foldl step s) e with hsub | ⟨n, hn, hkeys⟩
      · exact (ih.sublist hsub).imp_of_mem fun hk hl h =>
          hold (hsub.subset hk) (hsub.subset hl) h
      · rw [hkeys, List.pairwise_append]
        refine ⟨ih.imp_of_mem fun hk hl h => hold hk hl h, List.pairwise_singleton _ _, ?_⟩
        intro k hk l hl i j hi hj
        obtain rfl := List.mem_singleton.mp hl
        rw [hj.last hn]
        exact (hi.old hk).before

end Arrivals
