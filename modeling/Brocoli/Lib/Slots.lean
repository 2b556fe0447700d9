/-
Slots and their owners.

A table has slots in use.  A slot is taken by an owner, who holds it; when the owner goes
the slot is waiting, and it is free again only once it is released.  Nothing is lost as
long as every slot in use is either held or waiting: then whoever waits for the owners to
go and the releases to happen gets all of them back.

The stronger statement that goes through the steps is that held and waiting together list
the slots in use, each once.  It breaks in one way only: a slot is taken and no one
remembers that it was.
-/
import Mathlib.Data.List.Basic
import Mathlib.Data.List.Perm.Basic
import Mathlib.Data.List.Nodup
import Mathlib.Tactic.Common

namespace Slots

variable {ι : Type} {used used' : ι → Prop} {held held' waiting waiting' : List ι}

/-- Every slot in use can still be given back. -/
def Covered (used : ι → Prop) (held waiting : List ι) : Prop :=
  ∀ i, used i → i ∈ held ∨ i ∈ waiting

/-- Held and waiting list the slots in use, each once. -/
structure Balanced (used : ι → Prop) (held waiting : List ι) : Prop where
  nodup : (held ++ waiting).Nodup
  mem : ∀ i, used i ↔ i ∈ held ++ waiting

theorem Balanced.covered (h : Balanced used held waiting) : Covered used held waiting :=
  fun i hi => List.mem_append.mp ((h.mem i).mp hi)

/-- Only what the two lists hold together matters. -/
theorem Balanced.perm (h : Balanced used held waiting)
    (hp : (held ++ waiting).Perm (held' ++ waiting')) : Balanced used held' waiting' where
  nodup := hp.nodup_iff.mp h.nodup
  mem i := by rw [h.mem i, hp.mem_iff]

theorem Balanced.congr (h : Balanced used held waiting) (hu : ∀ i, used' i ↔ used i) :
    Balanced used' held waiting where
  nodup := h.nodup
  mem i := by rw [hu i, h.mem i]

/-- A free slot is taken and held. -/
theorem Balanced.take (h : Balanced used held waiting) {i : ι} (hi : ¬ used i)
    (hu : ∀ j, used' j ↔ j = i ∨ used j) (hh : held'.Perm (i :: held)) :
    Balanced used' held' waiting := by
  have hp : (held' ++ waiting).Perm (i :: (held ++ waiting)) := hh.append_right waiting
  refine ⟨?_, fun j => ?_⟩
  · rw [hp.nodup_iff, List.nodup_cons]
    exact ⟨fun hmem => hi ((h.mem i).mpr hmem), h.nodup⟩
  · rw [hu j, hp.mem_iff, List.mem_cons, h.mem j]

/-- A waiting slot is released. -/
theorem Balanced.release (h : Balanced used held waiting) {i : ι}
    (hw : waiting.Perm (i :: waiting')) (hu : ∀ j, used' j ↔ used j ∧ j ≠ i) :
    Balanced used' held waiting' := by
  have hp : (held ++ waiting).Perm (i :: (held ++ waiting')) :=
    (hw.append_left held).trans List.perm_middle
  have hn := hp.nodup_iff.mp h.nodup
  rw [List.nodup_cons] at hn
  refine ⟨hn.2, fun j => ?_⟩
  rw [hu j, h.mem j, hp.mem_iff, List.mem_cons]
  constructor
  · rintro ⟨hj | hj, hne⟩
    · exact absurd hj hne
    · exact hj
  · intro hj
    exact ⟨Or.inr hj, fun heq => hn.1 (heq ▸ hj)⟩

/-- A free slot that is taken and not held is lost. -/
theorem Balanced.lost (h : Balanced used held waiting) {i : ι} (hi : ¬ used i) (hu : used' i) :
    ¬ Covered used' held waiting := by
  intro hc
  exact hi ((h.mem i).mpr (List.mem_append.mpr (hc i hu)))

/-! ### Slots that may be lost

What still holds when slots can be lost: the lists name slots in use, none of them twice.
-/

structure Tracked (used : ι → Prop) (held waiting : List ι) : Prop where
  nodup : (held ++ waiting).Nodup
  used : ∀ i ∈ held ++ waiting, used i

theorem Tracked.perm (h : Tracked used held waiting)
    (hp : (held ++ waiting).Perm (held' ++ waiting')) : Tracked used held' waiting' where
  nodup := hp.nodup_iff.mp h.nodup
  used i hi := h.used i (hp.mem_iff.mpr hi)

/-- More slots may come into use. -/
theorem Tracked.mono (h : Tracked used held waiting) (hu : ∀ i, used i → used' i) :
    Tracked used' held waiting where
  nodup := h.nodup
  used i hi := hu i (h.used i hi)

/-- A free slot is taken and held. -/
theorem Tracked.take (h : Tracked used held waiting) {i : ι} (hi : ¬ used i)
    (hu : ∀ j, used' j ↔ j = i ∨ used j) (hh : held'.Perm (i :: held)) :
    Tracked used' held' waiting := by
  have hp : (held' ++ waiting).Perm (i :: (held ++ waiting)) := hh.append_right waiting
  refine ⟨?_, fun j hj => ?_⟩
  · rw [hp.nodup_iff, List.nodup_cons]
    exact ⟨fun hmem => hi (h.used i hmem), h.nodup⟩
  · rcases List.mem_cons.mp (hp.mem_iff.mp hj) with rfl | hj
    · exact (hu j).mpr (Or.inl rfl)
    · exact (hu j).mpr (Or.inr (h.used j hj))

/-- A waiting slot is released, and on neither list any more. -/
theorem Tracked.release (h : Tracked used held waiting) {i : ι}
    (hw : waiting.Perm (i :: waiting')) (hu : ∀ j, used j → j ≠ i → used' j) :
    Tracked used' held waiting' ∧ i ∉ held ++ waiting' := by
  have hp : (held ++ waiting).Perm (i :: (held ++ waiting')) :=
    (hw.append_left held).trans List.perm_middle
  have hn := hp.nodup_iff.mp h.nodup
  rw [List.nodup_cons] at hn
  refine ⟨⟨hn.2, fun j hj => ?_⟩, hn.1⟩
  have hne : j ≠ i := fun heq => hn.1 (heq ▸ hj)
  exact hu j (h.used j (hp.mem_iff.mpr (List.mem_cons_of_mem _ hj))) hne

/-- No slot is both held and waiting. -/
theorem Tracked.not_both (h : Tracked used held waiting) {i : ι} (hh : i ∈ held) : i ∉ waiting :=
  fun hw => (List.nodup_append.mp h.nodup).2.2 i hh i hw rfl

/-- The slot is in use, and no one can give it back. -/
def Lost (used : ι → Prop) (held waiting : List ι) (i : ι) : Prop :=
  used i ∧ i ∉ held ∧ i ∉ waiting

theorem covered_iff_none_lost : Covered used held waiting ↔ ∀ i, ¬ Lost used held waiting i := by
  constructor
  · rintro h i ⟨hi, hheld, hwait⟩
    exact (h i hi).elim hheld hwait
  · intro h i hi
    by_contra hno
    exact h i ⟨hi, fun hheld => hno (Or.inl hheld), fun hwait => hno (Or.inr hwait)⟩

/-- Only what the two lists hold together matters. -/
theorem lost_perm (hp : (held ++ waiting).Perm (held' ++ waiting')) (i : ι) :
    Lost used held' waiting' i ↔ Lost used held waiting i := by
  rw [Lost, Lost, ← not_or, ← not_or, ← List.mem_append, ← List.mem_append, hp.mem_iff]

/-- A release gives back a slot that was not lost, and the others stay what they are. -/
theorem lost_release {i : ι}
    (hw : waiting.Perm (i :: waiting')) (hu : ∀ j, used' j ↔ used j ∧ j ≠ i) (j : ι) :
    Lost used' held waiting' j ↔ Lost used held waiting j := by
  have hmem : ∀ k, k ∈ waiting ↔ k = i ∨ k ∈ waiting' := fun k => by
    rw [hw.mem_iff, List.mem_cons]
  constructor
  · rintro ⟨hj, hheld, hwait⟩
    obtain ⟨hj, hne⟩ := (hu j).mp hj
    exact ⟨hj, hheld, fun hin => ((hmem j).mp hin).elim hne hwait⟩
  · rintro ⟨hj, hheld, hwait⟩
    have hne : j ≠ i := fun heq => hwait ((hmem j).mpr (Or.inl heq))
    exact ⟨(hu j).mpr ⟨hj, hne⟩, hheld, fun hin => hwait ((hmem j).mpr (Or.inr hin))⟩

/-- When no one holds a slot or waits for one, those in use are lost. -/
theorem lost_none_left (i : ι) : Lost used [] [] i ↔ used i := by
  simp [Lost]

/-! ### The life of a slot

A slot is taken under a name and opened later.  Who holds it lets it go, and then it waits
for its release; or no one ever held it.
-/

inductive Owner where
  | held
  | waiting
  | lost
deriving DecidableEq

inductive Life (κ : Type) where
  | free
  | taken (name : κ) (opened : Bool) (owner : Owner)

/-- What can happen next to a slot.  It is released only when it has been opened and is
waiting, and keeps its name until then. -/
inductive Life.Next {κ : Type} : Life κ → Life κ → Prop where
  | stay (l : Life κ) : Next l l
  | take (name : κ) {owner : Owner} (h : owner ≠ .waiting) : Next .free (.taken name false owner)
  | open (name : κ) (owner : Owner) : Next (.taken name false owner) (.taken name true owner)
  | leave (name : κ) (opened : Bool) : Next (.taken name opened .held) (.taken name opened .waiting)
  | release (name : κ) : Next (.taken name true .waiting) .free

/-! ### Keys

Slots are looked up by what is written in them.
-/

section Keys

variable {κ : Type} {key key' : ι → κ}

/-- The slots in use carry different keys. -/
def Apart (used : ι → Prop) (key : ι → κ) : Prop :=
  ∀ i j, used i → used j → key i = key j → i = j

/-- Nothing comes into use and no key is changed. -/
theorem Apart.anti (h : Apart used key) (hu : ∀ i, used' i → used i ∧ key' i = key i) :
    Apart used' key' := by
  intro i j hi hj heq
  obtain ⟨hui, hki⟩ := hu i hi
  obtain ⟨huj, hkj⟩ := hu j hj
  exact h i j hui huj (by rw [← hki, ← hkj, heq])

/-- A slot is taken under a key that no slot in use carries. -/
theorem Apart.take (h : Apart used key) {i : ι} (hu : ∀ j, used' j → j = i ∨ used j)
    (hkey : ∀ j, j ≠ i → key' j = key j) (hnew : ∀ j, used j → key j ≠ key' i) :
    Apart used' key' := by
  intro a b ha hb heq
  by_cases hai : a = i
  · by_cases hbi : b = i
    · rw [hai, hbi]
    · have hub : used b := (hu b hb).resolve_left hbi
      rw [hai, hkey b hbi] at heq
      exact absurd heq.symm (hnew b hub)
  · have hua : used a := (hu a ha).resolve_left hai
    by_cases hbi : b = i
    · rw [hbi, hkey a hai] at heq
      exact absurd heq (hnew a hua)
    · have hub : used b := (hu b hb).resolve_left hbi
      rw [hkey a hai, hkey b hbi] at heq
      exact h a b hua hub heq

/-- A slot is taken under a key that another carries. -/
theorem not_apart {i j : ι} (hi : used i) (hj : used j) (hne : i ≠ j) (hkey : key i = key j) :
    ¬ Apart used key := fun h => hne (h i j hi hj hkey)

end Keys

end Slots
