/-
What happens in the end.

A run that never stops is followed from point to point.  `ComesTo P Q` says that wherever `P`
holds `Q` holds there or later; `Recurs A` that `A` happens again and again.

To show that something happens one measures how far it is away.  No step makes the distance
grow, and some step that recurs makes it smaller; which step that is may depend on the
distance.
-/
import Mathlib.Data.Nat.Basic
import Mathlib.Tactic.Common

namespace Progress

/-- Wherever `P` holds, `Q` holds there or later. -/
def ComesTo (P Q : Nat → Prop) : Prop := ∀ n, P n → ∃ m, n ≤ m ∧ Q m

/-- `A` happens again and again. -/
def Recurs (A : Nat → Prop) : Prop := ∀ n, ∃ m, n ≤ m ∧ A m

theorem Recurs.mono {A B : Nat → Prop} (h : Recurs A) (hab : ∀ n, A n → B n) : Recurs B := by
  intro n
  obtain ⟨m, hm, ha⟩ := h n
  exact ⟨m, hm, hab m ha⟩

/-- What has its turn on a list that is gone through again and again recurs. -/
theorem Recurs.of_turns {α : Type} {l : List α} {a : α} (ha : a ∈ l) :
    Recurs fun n => l[n % l.length]? = some a := by
  intro n
  obtain ⟨i, hi, rfl⟩ := List.mem_iff_getElem.mp ha
  have hpos : 0 < l.length := Nat.zero_lt_of_lt hi
  refine ⟨i + l.length * n, ?_, ?_⟩
  · exact Nat.le_trans (Nat.le_mul_of_pos_left n hpos) (Nat.le_add_left _ _)
  · show l[(i + l.length * n) % l.length]? = some l[i]
    rw [Nat.add_mul_mod_self_left, Nat.mod_eq_of_lt hi]
    exact List.getElem?_eq_getElem hi

/-- What can be gone on with from wherever it has got to can be gone on with for ever. -/
theorem exists_endless {S : Type} {P : Nat → S → Prop} {R : Nat → S → S → Prop} {s : S}
    (hstart : P 0 s) (hnext : ∀ n s, P n s → ∃ t, P (n + 1) t ∧ R n s t) :
    ∃ f : Nat → S, f 0 = s ∧ ∀ n, P n (f n) ∧ R n (f n) (f (n + 1)) := by
  have hnonempty : Nonempty S := ⟨s⟩
  choose! next hgood hrelated using hnext
  let f : Nat → S := fun n => Nat.rec s next n
  have hall : ∀ n, P n (f n) := by
    intro n
    induction n with
    | zero => exact hstart
    | succ n ih => exact hgood n _ ih
  exact ⟨f, rfl, fun n => ⟨hall n, hrelated n _ (hall n)⟩⟩

namespace ComesTo

variable {P Q R : Nat → Prop}

theorem of_imp (h : ∀ n, P n → Q n) : ComesTo P Q := fun n hn => ⟨n, Nat.le_refl n, h n hn⟩

theorem trans (h : ComesTo P Q) (h' : ComesTo Q R) : ComesTo P R := by
  intro n hn
  obtain ⟨m, hm, hq⟩ := h n hn
  obtain ⟨l, hl, hr⟩ := h' m hq
  exact ⟨l, Nat.le_trans hm hl, hr⟩

theorem exists_left {α : Type} {P : α → Nat → Prop} (h : ∀ a, ComesTo (P a) Q) :
    ComesTo (fun n => ∃ a, P a n) Q := fun n ⟨a, ha⟩ => h a n ha

/-- What is so until a step is made is so when it is made, or has led on before. -/
theorem until_step {A : Nat → Prop} (hrecurs : Recurs A)
    (hstay : ∀ n, P n → Q (n + 1) ∨ P (n + 1)) :
    ∀ n, P n → (∃ m, n ≤ m ∧ Q m) ∨ ∃ m, n ≤ m ∧ P m ∧ A m := by
  intro n hn
  obtain ⟨m, hm, ha⟩ := hrecurs n
  -- by induction on how far away the step is
  obtain ⟨d, rfl⟩ : ∃ d, m = n + d := ⟨m - n, by omega⟩
  clear hm
  induction d generalizing n with
  | zero => exact Or.inr ⟨n, Nat.le_refl n, hn, ha⟩
  | succ d ih =>
      rcases hstay n hn with hq | hp
      · exact Or.inl ⟨n + 1, Nat.le_succ n, hq⟩
      · have hlater : n + 1 + d = n + (d + 1) := by omega
        rcases ih (n + 1) hp (by rw [hlater]; exact ha) with ⟨l, hl, hq⟩ | ⟨l, hl, hpa⟩
        · exact Or.inl ⟨l, by omega, hq⟩
        · exact Or.inr ⟨l, by omega, hpa⟩

/-- **What is measured by a distance that never grows, and that a step which recurs makes
smaller, happens.** -/
theorem of_distance {P : Nat → Nat → Prop} (helps : Nat → Nat → Prop)
    (hrecurs : ∀ k, Recurs (helps k))
    (hstay : ∀ k n, P k n → Q (n + 1) ∨ ∃ j, j ≤ k ∧ P j (n + 1))
    (hhelp : ∀ k n, P k n → helps k n → Q (n + 1) ∨ ∃ j, j < k ∧ P j (n + 1)) :
    ComesTo (fun n => ∃ k, P k n) Q := by
  refine exists_left fun k => ?_
  induction k using Nat.strong_induction_on with
  | h k ih =>
      intro n hn
      -- until the step that helps the distance is `k`, or has become smaller
      have hnext : ∀ n, P k n → (Q (n + 1) ∨ ∃ j, j < k ∧ P j (n + 1)) ∨ P k (n + 1) := by
        intro n hn
        rcases hstay k n hn with hq | ⟨j, hj, hp⟩
        · exact Or.inl (Or.inl hq)
        · rcases Nat.lt_or_eq_of_le hj with hlt | rfl
          · exact Or.inl (Or.inr ⟨j, hlt, hp⟩)
          · exact Or.inr hp
      have hless : ComesTo (fun m => Q m ∨ ∃ j, j < k ∧ P j m) Q := by
        intro m hm
        rcases hm with hq | ⟨j, hj, hp⟩
        · exact ⟨m, Nat.le_refl m, hq⟩
        · exact ih j hj m hp
      rcases until_step (Q := fun m => Q m ∨ ∃ j, j < k ∧ P j m) (hrecurs k) hnext n hn with
        ⟨m, hm, hq⟩ | ⟨m, hm, hp, ha⟩
      · obtain ⟨l, hl, hql⟩ := hless m hq
        exact ⟨l, Nat.le_trans hm hl, hql⟩
      · obtain ⟨l, hl, hql⟩ := hless (m + 1) (hhelp k m hp ha)
        exact ⟨l, by omega, hql⟩

/-- **Taking in turn.**  What is taken must be ready, and something that recurs makes it ready;
then it stays so until it is taken, which brings what waits one place further. -/
theorem of_ready (W : Nat → Nat → Prop) (ready : Nat → Prop) {prepares takes : Nat → Prop}
    (hprepares : Recurs prepares) (htakes : Recurs takes)
    (hwait : ∀ k n, W k n → ¬ takes n ∨ ¬ ready n → W k (n + 1))
    (hready : ∀ n, ready n → ¬ takes n → ready (n + 1))
    (hprepare : ∀ k n, W k n → prepares n → ready (n + 1) ∧ ¬ takes n)
    (htake : ∀ k n, W k n → takes n → ready n → Q (n + 1) ∨ ∃ j, j < k ∧ W j (n + 1)) :
    ComesTo (fun n => ∃ k, W k n) Q := by
  -- half a place for being ready
  let P : Nat → Nat → Prop := fun d n => ∃ k, W k n ∧ (d = 2 * k + 1 ∨ (d = 2 * k ∧ ready n))
  have hstep : ∀ d n, P d n → Q (n + 1) ∨ ∃ j, j ≤ d ∧ P j (n + 1) := by
    rintro d n ⟨k, hk, hd⟩
    by_cases hboth : takes n ∧ ready n
    · rcases htake k n hk hboth.1 hboth.2 with hq | ⟨j, hj, hw⟩
      · exact Or.inl hq
      · exact Or.inr ⟨2 * j + 1, by omega, j, hw, Or.inl rfl⟩
    · have hw := hwait k n hk (not_and_or.mp hboth)
      rcases hd with rfl | ⟨rfl, hr⟩
      · exact Or.inr ⟨2 * k + 1, Nat.le_refl _, k, hw, Or.inl rfl⟩
      · have hnot : ¬ takes n := fun ht => hboth ⟨ht, hr⟩
        exact Or.inr ⟨2 * k, Nat.le_refl _, k, hw, Or.inr ⟨rfl, hready n hr hnot⟩⟩
  have hless : ComesTo (fun n => ∃ d, P d n) Q := by
    refine of_distance (fun d n => if d % 2 = 1 then prepares n else takes n)
      (fun d => ?_) hstep ?_
    · by_cases hd : d % 2 = 1
      · simpa only [if_pos hd] using hprepares
      · simpa only [if_neg hd] using htakes
    · rintro d n ⟨k, hk, hd⟩ hhelp
      rcases hd with rfl | ⟨rfl, hr⟩
      · rw [if_pos (by omega)] at hhelp
        obtain ⟨hr, hnot⟩ := hprepare k n hk hhelp
        exact Or.inr ⟨2 * k, by omega, k, hwait k n hk (Or.inl hnot), Or.inr ⟨rfl, hr⟩⟩
      · rw [if_neg (by omega)] at hhelp
        rcases htake k n hk hhelp hr with hq | ⟨j, hj, hw⟩
        · exact Or.inl hq
        · exact Or.inr ⟨2 * j + 1, by omega, j, hw, Or.inl rfl⟩
  exact (of_imp fun n ⟨k, hk⟩ => ⟨2 * k + 1, k, hk, Or.inl rfl⟩).trans hless

end ComesTo

/-! ### Queues

What goes into a queue and what comes out of it are lists that grow, one the first part of the
other.
-/

section Queues

variable {α : Type} {l : Nat → List α}

theorem prefix_later (h : ∀ n, l n <+: l (n + 1)) {n m : Nat} (hm : n ≤ m) : l n <+: l m := by
  induction m, hm using Nat.le_induction with
  | base => exact List.prefix_refl _
  | succ m _ ih => exact ih.trans (h m)

/-- **What goes into a queue comes out of it**, when something is taken again and again as
long as there is something. -/
theorem comes_out {entered out : Nat → List α} {takes : Nat → Prop} (htakes : Recurs takes)
    (hentered : ∀ n, entered n <+: entered (n + 1)) (hout : ∀ n, out n <+: out (n + 1))
    (hpart : ∀ n, out n <+: entered n)
    (htake : ∀ n, takes n → out n ≠ entered n → out n ≠ out (n + 1)) (n : Nat) :
    ∃ m, n ≤ m ∧ ∀ k, m ≤ k → entered n <+: out k := by
  have hstay : ∀ m, (out m).length ≤ (out (m + 1)).length := fun m => (hout m).length_le
  -- the distance is what is still to come out of what went in before
  have hcomes : ComesTo (fun m => ∃ k, n ≤ m ∧ (entered n).length ≤ (out m).length + k)
      (fun m => n ≤ m ∧ (entered n).length ≤ (out m).length) := by
    refine ComesTo.of_distance (fun _ => takes) (fun _ => htakes) ?_ ?_
    · rintro k m ⟨hm, hk⟩
      have hgrown := hstay m
      exact Or.inr ⟨k, Nat.le_refl k, by omega, by omega⟩
    · rintro k m ⟨hm, hk⟩ ht
      have hgrown := hstay m
      by_cases hall : out m = entered m
      · have hlength := (prefix_later hentered hm).length_le
        rw [← hall] at hlength
        exact Or.inl ⟨by omega, by omega⟩
      · have hmore : (out m).length < (out (m + 1)).length := by
          refine Nat.lt_of_le_of_ne hgrown fun heq => htake m ht hall ?_
          exact (hout m).eq_of_length heq
        by_cases hdone : (entered n).length ≤ (out (m + 1)).length
        · exact Or.inl ⟨by omega, hdone⟩
        · exact Or.inr ⟨k - 1, by omega, by omega, by omega⟩
  obtain ⟨m, -, hm, hlength⟩ := hcomes n ⟨_, Nat.le_refl n, Nat.le_add_left _ _⟩
  refine ⟨m, hm, fun k hk => ?_⟩
  have hpast : out m <+: entered k := (prefix_later hout hk).trans (hpart k)
  exact (List.prefix_of_prefix_length_le (prefix_later hentered (Nat.le_trans hm hk)) hpast
    hlength).trans (prefix_later hout hk)

end Queues

end Progress
