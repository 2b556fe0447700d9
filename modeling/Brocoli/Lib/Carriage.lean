/-
Items that travel as messages.

Every place remembers a stream of parts.  `Carried` says that it is the stream of the items
held there, each in the form it has in that place, and that every item is held where it
belongs.  `spread` is what one step does with them: some items leave a place, each for the
place it is for, and join the end of what is held there.

An item has so many others in front of it.  In the place it waits in these only get fewer.
-/
import Brocoli.Lib.Custody
import Brocoli.Lib.Multipart

namespace Carriage

open Custody Multipart

variable {P α : Type} [DecidableEq P]

/-- The places after the items `xs` have left `p`, where `rest` is left, each for the place it
is for. -/
def spread (held : P → List (Nat × α)) (p : P) (xs rest : List (Nat × α))
    (dest : Nat × α → P) : P → List (Nat × α) :=
  fun q => (if q = p then rest else held q) ++ xs.filter fun x => dest x = q

/-- The first `n` items leave `p`. -/
def shift (held : P → List (Nat × α)) (p : P) (n : Nat) (dest : Nat × α → P) :
    P → List (Nat × α) :=
  spread held p ((held p).take n) ((held p).drop n) dest

/-- The first item that is `wanted` leaves `p`. -/
def pick (held : P → List (Nat × α)) (p : P) (wanted : Nat × α → Bool) (dest : Nat × α → P) :
    P → List (Nat × α) :=
  spread held p ((held p).find? wanted).toList ((held p).eraseP wanted) dest

section Spread

variable {held : P → List (Nat × α)} {p q : P} {xs rest : List (Nat × α)} {dest : Nat × α → P}

/-- Nothing changes where nothing goes. -/
theorem spread_of_ne (hp : q ≠ p) (hdest : ∀ x ∈ xs, dest x ≠ q) :
    spread held p xs rest dest q = held q := by
  have hnone : xs.filter (fun x => dest x = q) = [] :=
    List.filter_eq_nil_iff.mpr fun x hx => by simpa using hdest x hx
  rw [spread, if_neg hp, hnone, List.append_nil]

theorem shift_of_ne (hp : q ≠ p) (hdest : ∀ x, dest x ≠ q) (n : Nat) :
    shift held p n dest q = held q := spread_of_ne hp fun x _ => hdest x

theorem pick_of_ne (hp : q ≠ p) (hdest : ∀ x, dest x ≠ q) (wanted : Nat × α → Bool) :
    pick held p wanted dest q = held q := spread_of_ne hp fun x _ => hdest x

/-- The first item is behind what was in the place it goes to. -/
theorem shift_first_self {x : Nat × α} (hheld : held p = x :: rest) (hq : q ≠ p) :
    shift held p 1 (fun _ => q) q = held q ++ [x] := by
  simp [shift, spread, hq, hheld]

/-- Nothing leaves an empty place. -/
theorem shift_of_empty (h : held p = []) (n : Nat) : shift held p n dest = held := by
  funext q
  by_cases hq : q = p
  · simp [shift, spread, hq, h]
  · simp [shift, spread, hq, h]

/-- Nothing leaves a place in which nothing is wanted. -/
theorem pick_of_none {wanted : Nat × α → Bool} (h : (held p).find? wanted = none) :
    pick held p wanted dest = held := by
  have hnone : ∀ x ∈ held p, ¬ wanted x = true := List.find?_eq_none.mp h
  funext q
  by_cases hq : q = p
  · simp [pick, spread, hq, h, List.eraseP_of_forall_not hnone]
  · simp [pick, spread, hq, h]

end Spread

section Placed

variable {items : List α} {held : P → List (Nat × α)} {p : P} {xs rest : List (Nat × α)}
  {dest : Nat × α → P}

theorem mem_spread (x : Nat × α) (q : P) :
    x ∈ spread held p xs rest dest q ↔
      (q = p ∧ x ∈ rest) ∨ (q ≠ p ∧ x ∈ held q) ∨ (x ∈ xs ∧ dest x = q) := by
  by_cases hq : q = p <;> simp [spread, hq]

/-- **Items that go each to its own place are still in one place each.** -/
theorem placed_spread (h : Placed items held) (hperm : (held p).Perm (xs ++ rest))
    (hdest : ∀ x ∈ xs, dest x ≠ p) : Placed items (spread held p xs rest dest) := by
  have hp : ∀ x, x ∈ held p ↔ x ∈ xs ∨ x ∈ rest := fun x => by
    rw [hperm.mem_iff, List.mem_append]
  have hnodup := List.nodup_append.mp (hperm.nodup_iff.mp (h.nodup p))
  have hin : ∀ {x}, x ∈ xs → x ∈ held p := fun hx => (hp _).mpr (Or.inl hx)
  have hout : ∀ {x}, x ∈ rest → x ∈ held p := fun hx => (hp _).mpr (Or.inr hx)
  refine ⟨fun q => ?_, fun q x hx => ?_, fun x hx => ?_, fun x q r hq hr => ?_⟩
  · refine List.nodup_append.mpr ⟨?_, hnodup.1.filter _, fun a ha b hb hab => ?_⟩
    · by_cases hq : q = p
      · rw [if_pos hq]
        exact hnodup.2.1
      · rw [if_neg hq]
        exact h.nodup q
    · obtain ⟨hb, hdb⟩ := List.mem_filter.mp hb
      have hdb : dest b = q := by simpa using hdb
      by_cases hq : q = p
      · exact absurd (hdb.trans hq) (hdest b hb)
      · rw [if_neg hq] at ha
        exact hq (h.apart a q p ha (hin (hab ▸ hb)))
  · rcases (mem_spread x q).mp hx with ⟨-, hx⟩ | ⟨-, hx⟩ | ⟨hx, -⟩
    · exact h.entry p x (hout hx)
    · exact h.entry q x hx
    · exact h.entry p x (hin hx)
  · obtain ⟨q, hq⟩ := h.somewhere x hx
    by_cases hqp : q = p
    · subst hqp
      rcases (hp x).mp hq with hx | hx
      · exact ⟨dest x, (mem_spread x _).mpr (Or.inr (Or.inr ⟨hx, rfl⟩))⟩
      · exact ⟨q, (mem_spread x q).mpr (Or.inl ⟨rfl, hx⟩)⟩
    · exact ⟨q, (mem_spread x q).mpr (Or.inr (Or.inl ⟨hqp, hq⟩))⟩
  · rcases (mem_spread x q).mp hq with ⟨rfl, h1⟩ | ⟨hne, h1⟩ | ⟨h1, hd1⟩
    · rcases (mem_spread x r).mp hr with ⟨rfl, -⟩ | ⟨hne', h2⟩ | ⟨h2, -⟩
      · rfl
      · exact h.apart x q r (hout h1) h2
      · exact absurd rfl (hnodup.2.2 x h2 x h1)
    · rcases (mem_spread x r).mp hr with ⟨rfl, h2⟩ | ⟨-, h2⟩ | ⟨h2, -⟩
      · exact h.apart x q r h1 (hout h2)
      · exact h.apart x q r h1 h2
      · exact absurd (h.apart x q p h1 (hin h2)) hne
    · rcases (mem_spread x r).mp hr with ⟨rfl, h2⟩ | ⟨hne', h2⟩ | ⟨-, hd2⟩
      · exact absurd rfl (hnodup.2.2 x h1 x h2)
      · exact absurd (h.apart x r p h2 (hin h1)) hne'
      · exact hd1.symm.trans hd2

end Placed

/-! ### Messages -/

/-- What is held in a place, in the form it has there. -/
def cargo (frames : P → α → Msg) (p : P) (xs : List (Nat × α)) : List Part :=
  stream (xs.map fun x => frames p x.2)

omit [DecidableEq P] in
theorem cargo_append (frames : P → α → Msg) (p : P) (xs ys : List (Nat × α)) :
    cargo frames p (xs ++ ys) = cargo frames p xs ++ cargo frames p ys := by
  rw [cargo, List.map_append, stream_append]
  rfl

omit [DecidableEq P] in
@[simp] theorem cargo_nil (frames : P → α → Msg) (p : P) : cargo frames p [] = [] := rfl

omit [DecidableEq P] in
@[simp] theorem cargo_one (frames : P → α → Msg) (p : P) (x : Nat × α) :
    cargo frames p [x] = parts (frames p x.2) := by
  simp [cargo]

/-- The items held are all there are, each in one place where it belongs, and what the places
remember is their streams. -/
structure Carried (frames : P → α → Msg) (belongs : P → α → Prop) (items : List α)
    (memory : P → List Part) (held : P → List (Nat × α)) : Prop where
  placed : Placed items held
  memory : ∀ p, memory p = cargo frames p (held p)
  belongs : ∀ p, ∀ x ∈ held p, belongs p x.2

namespace Carried

variable {frames : P → α → Msg} {belongs : P → α → Prop} {items : List α}
  {memory memory' : P → List Part} {held : P → List (Nat × α)} {p : P}

omit [DecidableEq P] in
/-- What a place holds is an item there is. -/
theorem mem_items (h : Carried frames belongs items memory held) {x : Nat × α}
    (hx : x ∈ held p) : x.2 ∈ items := List.mem_of_getElem? (h.placed.entry p x hx)

omit [DecidableEq P] in
theorem same (h : Carried frames belongs items memory held) (hm : ∀ q, memory' q = memory q) :
    Carried frames belongs items memory' held :=
  ⟨h.placed, fun q => (hm q).trans (h.memory q), h.belongs⟩

/-- A new item is put behind the others of a place. -/
theorem add (h : Carried frames belongs items memory held) {a : α}
    (hp : memory' p = memory p ++ parts (frames p a)) (hother : ∀ q, q ≠ p → memory' q = memory q)
    (hb : belongs p a) :
    Carried frames belongs (items ++ [a]) memory' (Placed.added held p (items.length, a)) where
  placed := h.placed.add p a
  memory q := by
    by_cases hq : q = p
    · rw [hq, hp, h.memory, Placed.added_self, cargo_append, cargo_one]
    · rw [hother q hq, h.memory, Placed.added_of_ne held hq]
  belongs q x hx := by
    rcases (Placed.mem_added x q).mp hx with hstay | ⟨rfl, rfl⟩
    · exact h.belongs q x hstay
    · exact hb

variable {xs rest : List (Nat × α)} {dest : Nat × α → P}

/-- **Items leave a place, each for the place it is for.** -/
theorem spread (h : Carried frames belongs items memory held)
    (hperm : (held p).Perm (xs ++ rest)) (hdest : ∀ x ∈ xs, dest x ≠ p)
    (hp : memory' p = cargo frames p rest)
    (hother : ∀ q, q ≠ p →
      memory' q = memory q ++ cargo frames q (xs.filter fun x => dest x = q))
    (hb : ∀ x ∈ xs, belongs (dest x) x.2) :
    Carried frames belongs items memory' (Carriage.spread held p xs rest dest) where
  placed := placed_spread h.placed hperm hdest
  memory q := by
    by_cases hq : q = p
    · subst hq
      have hnone : xs.filter (fun x => dest x = q) = [] :=
        List.filter_eq_nil_iff.mpr fun x hx => by simpa using hdest x hx
      rw [hp, Carriage.spread, if_pos rfl, hnone, List.append_nil]
    · rw [hother q hq, Carriage.spread, if_neg hq, cargo_append, h.memory]
  belongs q x hx := by
    rcases (mem_spread x q).mp hx with ⟨rfl, hrest⟩ | ⟨-, hstay⟩ | ⟨hgo, rfl⟩
    · exact h.belongs q x (hperm.mem_iff.mpr (List.mem_append_right _ hrest))
    · exact h.belongs q x hstay
    · exact hb x hgo

/-- The first `n` items of a place leave it. -/
theorem shift (h : Carried frames belongs items memory held) (n : Nat)
    (hdest : ∀ x ∈ (held p).take n, dest x ≠ p)
    (hp : memory' p = cargo frames p ((held p).drop n))
    (hother : ∀ q, q ≠ p → memory' q
      = memory q ++ cargo frames q (((held p).take n).filter fun x => dest x = q))
    (hb : ∀ x ∈ (held p).take n, belongs (dest x) x.2) :
    Carried frames belongs items memory' (Carriage.shift held p n dest) :=
  h.spread (List.Perm.of_eq (List.take_append_drop n _).symm) hdest hp hother hb

/-- The first item that is wanted, if there is one, leaves its place for another. -/
theorem pick (h : Carried frames belongs items memory held) {wanted : Nat × α → Bool}
    {x : Nat × α} (hx : (held p).find? wanted = some x) {q : P} (hpq : p ≠ q)
    (hp : memory' p = cargo frames p ((held p).eraseP wanted))
    (hq : memory' q = memory q ++ parts (frames q x.2))
    (hother : ∀ r, r ≠ p → r ≠ q → memory' r = memory r) (hb : belongs q x.2) :
    Carried frames belongs items memory' (Carriage.pick held p wanted fun _ => q) := by
  have hperm : (held p).Perm ([x] ++ (held p).eraseP wanted) := perm_cons_of_find hx
  rw [Carriage.pick, hx]
  refine h.spread hperm (fun _ _ => hpq.symm) hp (fun r hr => ?_) (by simpa using hb)
  by_cases hrq : r = q
  · subst hrq
    rw [hq]
    simp
  · have hnone : ¬ q = r := fun hqr => hrq hqr.symm
    rw [hother r hr hrq]
    simp [hnone]

/-- The first item of a place goes to another. -/
theorem shift_first (h : Carried frames belongs items memory held) {x : Nat × α}
    (hheld : held p = x :: rest) {q : P} (hpq : p ≠ q) (hp : memory' p = cargo frames p rest)
    (hq : memory' q = memory q ++ parts (frames q x.2))
    (hother : ∀ r, r ≠ p → r ≠ q → memory' r = memory r) (hb : belongs q x.2) :
    Carried frames belongs items memory' (Carriage.shift held p 1 fun _ => q) := by
  have htake : (held p).take 1 = [x] := by rw [hheld]; rfl
  refine h.shift 1 (fun _ _ => hpq.symm) ?_ (fun r hr => ?_) ?_
  · rw [hheld]
    exact hp
  · by_cases hrq : r = q
    · subst hrq
      rw [hq, htake]
      simp
    · have hnone : ¬ q = r := fun hqr => hrq hqr.symm
      rw [hother r hr hrq]
      simp [hnone]
  · rw [htake]
    simpa using hb

end Carried

/-! ### Waiting -/

/-- The item waits in the place with `n` others in front of it. -/
def Waits (held : P → List (Nat × α)) (x : Nat × α) (p : P) (n : Nat) : Prop :=
  ∃ a b, held p = a ++ x :: b ∧ a.length = n

section Waits

variable {held : P → List (Nat × α)} {x : Nat × α} {p q : P} {n : Nat}

omit [DecidableEq P] in
theorem Waits.mem (h : Waits held x p n) : x ∈ held p := by
  obtain ⟨a, b, hp, -⟩ := h
  rw [hp]
  simp

omit [DecidableEq P] in
theorem waits_of_mem (h : x ∈ held p) : ∃ n, Waits held x p n := by
  obtain ⟨a, b, hp⟩ := List.append_of_mem h
  exact ⟨a.length, a, b, hp, rfl⟩

omit [DecidableEq P] in
/-- Others that join the end of a place are not in front of what is there. -/
theorem Waits.append {held' : P → List (Nat × α)} (h : Waits held x p n) {new : List (Nat × α)}
    (hp : held' p = held p ++ new) : Waits held' x p n := by
  obtain ⟨a, b, hab, hn⟩ := h
  exact ⟨a, b ++ new, by rw [hp, hab]; simp, hn⟩

theorem Waits.added (h : Waits held x p n) (q : P) (y : Nat × α) :
    Waits (Placed.added held q y) x p n := by
  by_cases hp : p = q
  · subst hp
    exact h.append (Placed.added_self held p y)
  · have hsame : Placed.added held q y p = held p ++ [] := by
      rw [Placed.added_of_ne held hp, List.append_nil]
    exact h.append hsame

variable {xs rest : List (Nat × α)} {dest : Nat × α → P}

/-- What leaves another place is not in front either. -/
theorem Waits.spread_of_ne (h : Waits held x p n) (hp : p ≠ q) :
    Waits (spread held q xs rest dest) x p n :=
  h.append (by rw [spread, if_neg hp])

/-- What leaves a place waits in the one it is for. -/
theorem waits_spread (hx : x ∈ xs) : ∃ m, Waits (spread held q xs rest dest) x (dest x) m :=
  waits_of_mem ((mem_spread x _).mpr (Or.inr (Or.inr ⟨hx, rfl⟩)))

/-- What is among the first to leave leaves, and the others move up. -/
theorem Waits.shift_self (h : Waits held x p n) (dest : Nat × α → P) (k : Nat) :
    (n < k ∧ ∃ m, Waits (shift held p k dest) x (dest x) m) ∨
      (k ≤ n ∧ Waits (shift held p k dest) x p (n - k)) := by
  obtain ⟨a, b, hab, rfl⟩ := h
  by_cases hk : a.length < k
  · refine Or.inl ⟨hk, waits_spread ?_⟩
    obtain ⟨j, rfl⟩ : ∃ j, k = a.length + (j + 1) := ⟨k - a.length - 1, by omega⟩
    rw [hab, List.take_length_add_append, List.take_succ_cons]
    simp
  · have hle : k ≤ a.length := Nat.not_lt.mp hk
    refine Or.inr ⟨hle, a.drop k, b ++ ((held p).take k).filter (fun y => dest y = p), ?_, ?_⟩
    · rw [shift, spread, if_pos rfl, hab, List.drop_append_of_le_length hle]
      simp
    · rw [List.length_drop]

/-- What is picked leaves; picking one of those in front moves the item up, and picking one
behind it changes nothing. -/
theorem Waits.pick_self (h : Waits held x p n) (dest : Nat × α → P)
    (wanted : Nat × α → Bool) :
    (wanted x = true ∧ ∃ m, Waits (pick held p wanted dest) x (dest x) m) ∨
      (∃ m, m ≤ n ∧ Waits (pick held p wanted dest) x p m ∧ (wanted x = true → m < n)) := by
  obtain ⟨a, b, hab, rfl⟩ := h
  by_cases ha : ∃ y ∈ a, wanted y = true
  · obtain ⟨y, hy, hwanted⟩ := ha
    have herase : (held p).eraseP wanted = a.eraseP wanted ++ x :: b := by
      rw [hab, List.eraseP_append_left hwanted _ hy]
    have hlen : (a.eraseP wanted).length + 1 = a.length := by
      rw [List.length_eraseP_of_mem hy hwanted]
      have := List.length_pos_of_mem hy
      omega
    refine Or.inr ⟨(a.eraseP wanted).length, by omega, ?_, fun _ => by omega⟩
    refine ⟨a.eraseP wanted, b ++ ((held p).find? wanted).toList.filter (fun y => dest y = p), ?_,
      rfl⟩
    rw [pick, spread, if_pos rfl, herase]
    simp
  · have hnone : ∀ y ∈ a, ¬ wanted y = true := fun y hy hwanted => ha ⟨y, hy, hwanted⟩
    by_cases hx : wanted x = true
    · have hfind : (held p).find? wanted = some x := by
        rw [hab, List.find?_append, List.find?_eq_none.mpr hnone, List.find?_cons_of_pos hx]
        rfl
      refine Or.inl ⟨hx, waits_spread ?_⟩
      rw [hfind]
      simp
    · have herase : (held p).eraseP wanted = a ++ x :: b.eraseP wanted := by
        rw [hab, List.eraseP_append_right _ hnone, List.eraseP_cons_of_neg hx]
      refine Or.inr ⟨a.length, Nat.le_refl _, ?_, fun h => absurd h hx⟩
      refine ⟨a, b.eraseP wanted ++ ((held p).find? wanted).toList.filter (fun y => dest y = p), ?_,
        rfl⟩
      rw [pick, spread, if_pos rfl, herase]
      simp

end Waits

end Carriage
