/-
Trees with any number of ordered children.

A registry keeps the children of a node sorted by a key: an entry is looked up by running
through them up to the first that is not smaller, and either found there or put in front
of it.  From time to time the tree is swept: a node that is dead goes with everything
below it, and if it refers to a resource, the reference is handed on.

The references of such a tree sit on the children of its root.  Then a sweep loses none:
what the tree referred to before is what it refers to after and what was handed on.
-/
import Mathlib.Data.List.Basic
import Mathlib.Data.List.Perm.Basic
import Mathlib.Data.List.Infix
import Mathlib.Tactic.Common

namespace NTree

inductive Node (α : Type) where
  | mk (data : α) (children : List (Node α))

variable {α ρ σ κ : Type}

def Node.data : Node α → α
  | mk d _ => d

def Node.children : Node α → List (Node α)
  | mk _ cs => cs

@[simp] theorem data_mk (d : α) (cs : List (Node α)) : (Node.mk d cs).data = d := rfl

@[simp] theorem children_mk (d : α) (cs : List (Node α)) : (Node.mk d cs).children = cs := rfl

theorem mk_data_children (n : Node α) : Node.mk n.data n.children = n := by
  cases n
  rfl

/-- `g_node_new` -/
def Node.leaf (d : α) : Node α := ⟨d, []⟩

/-- `g_node_children_foreach`; the callback is told the position of the child. -/
def foreachFrom (f : Nat → Node α → σ → σ) : Nat → List (Node α) → σ → σ
  | _, [], s => s
  | i, c :: cs, s => foreachFrom f (i + 1) cs (f i c s)

def Node.foreach (n : Node α) (f : Nat → Node α → σ → σ) (s : σ) : σ := foreachFrom f 0 n.children s

/-- `g_node_insert_before`: at the end when no brother is given. -/
def Node.insertBefore (n : Node α) (brother : Option Nat) (c : Node α) : Node α :=
  match brother with
  | some i => ⟨n.data, n.children.insertIdx i c⟩
  | none => ⟨n.data, n.children ++ [c]⟩

/-- The tree with one child changed. -/
def Node.modifyChild (n : Node α) (i : Nat) (f : Node α → Node α) : Node α :=
  ⟨n.data, n.children.modify i f⟩

def Node.mapData (n : Node α) (f : α → α) : Node α := ⟨f n.data, n.children⟩

mutual

/-- The data of all nodes, parents first. -/
def Node.flatten : Node α → List α
  | .mk d cs => d :: flattenAll cs

def flattenAll : List (Node α) → List α
  | [] => []
  | c :: cs => c.flatten ++ flattenAll cs

end

/-! ### Sweeping -/

mutual

/-- What is left of one child: nothing when it is dead, else itself with its children
swept. -/
def sweepNode (dead : α → Bool) (ref : α → Option ρ) : Node α → List (Node α) × List ρ
  | .mk d cs =>
      if dead d then ([], (ref d).toList)
      else ([.mk d (sweepAll dead ref cs).1], (sweepAll dead ref cs).2)

/-- The children that are left, and the references that were dropped. -/
def sweepAll (dead : α → Bool) (ref : α → Option ρ) : List (Node α) → List (Node α) × List ρ
  | [] => ([], [])
  | c :: cs =>
      ((sweepNode dead ref c).1 ++ (sweepAll dead ref cs).1,
        (sweepNode dead ref c).2 ++ (sweepAll dead ref cs).2)

end

def Node.sweep (dead : α → Bool) (ref : α → Option ρ) (n : Node α) : Node α × List ρ :=
  (⟨n.data, (sweepAll dead ref n.children).1⟩, (sweepAll dead ref n.children).2)

/-! ### References -/

/-- The references in a tree. -/
def Node.refs (ref : α → Option ρ) (n : Node α) : List ρ := n.flatten.filterMap ref

def NoRefs (ref : α → Option ρ) (cs : List (Node α)) : Prop := ∀ d ∈ flattenAll cs, ref d = none

/-- Only the children of the root refer to anything. -/
structure Shallow (ref : α → Option ρ) (n : Node α) : Prop where
  root : ref n.data = none
  below : ∀ c ∈ n.children, NoRefs ref c.children

theorem mem_refs {ref : α → Option ρ} {n : Node α} {r : ρ} :
    r ∈ n.refs ref ↔ ∃ d ∈ n.flatten, ref d = some r := List.mem_filterMap

@[simp] theorem flatten_mk (d : α) (cs : List (Node α)) :
    (Node.mk d cs).flatten = d :: flattenAll cs := by rw [Node.flatten]

@[simp] theorem flattenAll_nil : flattenAll ([] : List (Node α)) = [] := by rw [flattenAll]

@[simp] theorem flattenAll_cons (c : Node α) (cs : List (Node α)) :
    flattenAll (c :: cs) = c.flatten ++ flattenAll cs := by rw [flattenAll]

theorem flattenAll_append (cs ds : List (Node α)) :
    flattenAll (cs ++ ds) = flattenAll cs ++ flattenAll ds := by
  induction cs with
  | nil => simp
  | cons c cs ih => simp [ih]

theorem noRefs_nil (ref : α → Option ρ) : NoRefs ref ([] : List (Node α)) := by
  simp [NoRefs]

theorem noRefs_cons {ref : α → Option ρ} {c : Node α} {cs : List (Node α)} :
    NoRefs ref (c :: cs) ↔ ref c.data = none ∧ NoRefs ref c.children ∧ NoRefs ref cs := by
  cases c with
  | mk d ds =>
      simp only [NoRefs, flattenAll_cons, flatten_mk, List.cons_append, List.mem_cons,
        List.mem_append, data_mk, children_mk]
      constructor
      · intro h
        exact ⟨h d (Or.inl rfl), fun x hx => h x (Or.inr (Or.inl hx)),
          fun x hx => h x (Or.inr (Or.inr hx))⟩
      · rintro ⟨hd, hds, hcs⟩ x (rfl | hx | hx)
        · exact hd
        · exact hds x hx
        · exact hcs x hx

theorem noRefs_append {ref : α → Option ρ} {cs ds : List (Node α)} :
    NoRefs ref (cs ++ ds) ↔ NoRefs ref cs ∧ NoRefs ref ds := by
  simp only [NoRefs, flattenAll_append, List.mem_append]
  constructor
  · intro h
    exact ⟨fun x hx => h x (Or.inl hx), fun x hx => h x (Or.inr hx)⟩
  · rintro ⟨hc, hd⟩ x (hx | hx)
    · exact hc x hx
    · exact hd x hx

/-- What the children of a root refer to themselves. -/
def childRefs (ref : α → Option ρ) (cs : List (Node α)) : List ρ :=
  cs.filterMap fun c => ref c.data

theorem filterMap_flattenAll {ref : α → Option ρ} {cs : List (Node α)}
    (h : ∀ c ∈ cs, NoRefs ref c.children) : (flattenAll cs).filterMap ref = childRefs ref cs := by
  induction cs with
  | nil => simp [childRefs]
  | cons c cs ih =>
      have hc := h c (by simp)
      have hcs := ih fun x hx => h x (by simp [hx])
      cases c with
      | mk d ds =>
          have hnone : (flattenAll ds).filterMap ref = [] :=
            List.filterMap_eq_nil_iff.mpr fun x hx => hc x hx
          rw [flattenAll_cons, flatten_mk, List.filterMap_append, hcs, List.filterMap_cons, hnone]
          cases hr : ref d <;> simp [childRefs, hr]

/-- **A shallow tree refers to what the children of its root refer to.** -/
theorem refs_shallow {ref : α → Option ρ} {n : Node α} (h : Shallow ref n) :
    n.refs ref = childRefs ref n.children := by
  cases n with
  | mk d cs =>
      have hroot : ref d = none := h.root
      have hcs : (flattenAll cs).filterMap ref = childRefs ref cs := filterMap_flattenAll h.below
      rw [Node.refs, flatten_mk, List.filterMap_cons, hroot, hcs]
      rfl

/-- A node of a shallow tree that refers to something is a child of the root. -/
theorem mem_flatten_shallow {ref : α → Option ρ} {n : Node α} (h : Shallow ref n) {d : α} {r : ρ}
    (hd : d ∈ n.flatten) (hr : ref d = some r) : ∃ c ∈ n.children, c.data = d := by
  cases n with
  | mk e cs =>
      have hall : ∀ {cs : List (Node α)}, (∀ c ∈ cs, NoRefs ref c.children) → d ∈ flattenAll cs →
          ∃ c ∈ cs, c.data = d := by
        intro cs
        induction cs with
        | nil => intro _ hd; exact absurd hd (by simp)
        | cons c cs ih =>
            intro hcs hd
            rw [flattenAll_cons, ← mk_data_children c, flatten_mk] at hd
            rcases List.mem_append.mp hd with hd | hd
            · rcases List.mem_cons.mp hd with rfl | hd
              · exact ⟨c, by simp, rfl⟩
              · have hnone : ref d = none := hcs c (by simp) d hd
                rw [hnone] at hr
                exact absurd hr (by simp)
            · obtain ⟨x, hx, rfl⟩ := ih (fun x hx => hcs x (by simp [hx])) hd
              exact ⟨x, by simp [hx], rfl⟩
      rcases List.mem_cons.mp (by simpa using hd) with rfl | hd
      · have hnone : ref d = none := h.root
        rw [hnone] at hr
        exact absurd hr (by simp)
      · exact hall h.below hd

/-! ### What a sweep does -/

theorem sweepAll_nil (dead : α → Bool) (ref : α → Option ρ) :
    sweepAll dead ref [] = ([], []) := by rw [sweepAll]

/-- A dead child goes. -/
theorem sweepAll_dead {dead : α → Bool} {ref : α → Option ρ} {c : Node α} (h : dead c.data = true)
    (cs : List (Node α)) :
    sweepAll dead ref (c :: cs)
      = ((sweepAll dead ref cs).1, (ref c.data).toList ++ (sweepAll dead ref cs).2) := by
  cases c with
  | mk d ds =>
      have hd : dead d = true := h
      rw [sweepAll, sweepNode, if_pos hd]
      rfl

/-- A child that is alive stays, its own children swept. -/
theorem sweepAll_alive {dead : α → Bool} {ref : α → Option ρ} {c : Node α} (h : dead c.data = false)
    (cs : List (Node α)) :
    sweepAll dead ref (c :: cs)
      = (⟨c.data, (sweepAll dead ref c.children).1⟩ :: (sweepAll dead ref cs).1,
          (sweepAll dead ref c.children).2 ++ (sweepAll dead ref cs).2) := by
  cases c with
  | mk d ds =>
      have hd : ¬ dead d = true := by simpa using h
      rw [sweepAll, sweepNode, if_neg hd]
      rfl

/-- The children that are left are some of those there were, in order. -/
theorem sweepAll_sublist (dead : α → Bool) (ref : α → Option ρ) : ∀ cs : List (Node α),
    ((sweepAll dead ref cs).1.map Node.data).Sublist (cs.map Node.data) := by
  intro cs
  induction cs with
  | nil => rw [sweepAll_nil]
  | cons c cs ih =>
      by_cases h : dead c.data = true
      · rw [sweepAll_dead h]
        exact ih.cons _
      · rw [sweepAll_alive (by simpa using h)]
        exact ih.cons_cons _

/-- When all are dead none is left. -/
theorem sweepAll_all_dead {dead : α → Bool} {ref : α → Option ρ} : ∀ {cs : List (Node α)},
    (∀ c ∈ cs, dead c.data = true) → (sweepAll dead ref cs).1 = [] := by
  intro cs
  induction cs with
  | nil => intro _; rw [sweepAll_nil]
  | cons c cs ih =>
      intro h
      obtain ⟨hc, hcs⟩ := List.forall_mem_cons.mp h
      rw [sweepAll_dead hc]
      exact ih hcs

mutual

theorem sweepNode_noRefs (dead : α → Bool) {ref : α → Option ρ} : ∀ {n : Node α},
    NoRefs ref [n] → NoRefs ref (sweepNode dead ref n).1 ∧ (sweepNode dead ref n).2 = []
  | .mk d cs, h => by
      have hc := noRefs_cons.mp h
      have ih := sweepAll_noRefs dead hc.2.1
      rw [sweepNode]
      by_cases hd : dead d = true
      · rw [if_pos hd]
        have hnone : ref d = none := hc.1
        exact ⟨noRefs_nil ref, by rw [hnone]; rfl⟩
      · rw [if_neg hd]
        exact ⟨noRefs_cons.mpr ⟨hc.1, ih.1, noRefs_nil ref⟩, ih.2⟩

/-- Where nothing refers to anything a sweep hands nothing on. -/
theorem sweepAll_noRefs (dead : α → Bool) {ref : α → Option ρ} : ∀ {cs : List (Node α)},
    NoRefs ref cs → NoRefs ref (sweepAll dead ref cs).1 ∧ (sweepAll dead ref cs).2 = []
  | [], h => by
      rw [sweepAll]
      exact ⟨h, rfl⟩
  | c :: cs, h => by
      have hc := noRefs_cons.mp h
      have hn := sweepNode_noRefs dead (noRefs_cons.mpr ⟨hc.1, hc.2.1, noRefs_nil ref⟩)
      have ih := sweepAll_noRefs dead hc.2.2
      rw [sweepAll]
      exact ⟨noRefs_append.mpr ⟨hn.1, ih.1⟩, by rw [hn.2, ih.2]; rfl⟩

end

theorem childRefs_cons (ref : α → Option ρ) (c : Node α) (cs : List (Node α)) :
    childRefs ref (c :: cs) = (ref c.data).toList ++ childRefs ref cs := by
  cases h : ref c.data <;> simp [childRefs, h]

theorem childRefs_append (ref : α → Option ρ) (cs ds : List (Node α)) :
    childRefs ref (cs ++ ds) = childRefs ref cs ++ childRefs ref ds := List.filterMap_append

theorem sweepAll_refs (dead : α → Bool) {ref : α → Option ρ} : ∀ {cs : List (Node α)},
    (∀ c ∈ cs, NoRefs ref c.children) →
      (childRefs ref cs).Perm
        (childRefs ref (sweepAll dead ref cs).1 ++ (sweepAll dead ref cs).2) := by
  intro cs
  induction cs with
  | nil => intro _; simp [sweepAll_nil, childRefs]
  | cons c cs ih =>
      intro h
      have hrest := ih fun x hx => h x (by simp [hx])
      rw [childRefs_cons]
      by_cases hd : dead c.data = true
      · rw [sweepAll_dead hd]
        refine (hrest.append_left _).trans ?_
        rw [← List.append_assoc, ← List.append_assoc]
        exact List.perm_append_comm.append_right _
      · rw [sweepAll_alive (by simpa using hd), childRefs_cons,
          (sweepAll_noRefs dead (h c (by simp))).2,
          List.nil_append, List.append_assoc]
        exact hrest.append_left _

theorem sweepAll_below (dead : α → Bool) {ref : α → Option ρ} : ∀ {cs : List (Node α)},
    (∀ c ∈ cs, NoRefs ref c.children) →
      ∀ c ∈ (sweepAll dead ref cs).1, NoRefs ref c.children := by
  intro cs
  induction cs with
  | nil => intro _ c hc; simp [sweepAll_nil] at hc
  | cons c cs ih =>
      intro h x hx
      have hrest := ih fun x hx => h x (by simp [hx])
      by_cases hd : dead c.data = true
      · rw [sweepAll_dead hd] at hx
        exact hrest x hx
      · rw [sweepAll_alive (by simpa using hd)] at hx
        rcases List.mem_cons.mp hx with rfl | hx
        · exact (sweepAll_noRefs dead (h c (by simp))).1
        · exact hrest x hx

theorem shallow_sweep {ref : α → Option ρ} {n : Node α} (h : Shallow ref n) (dead : α → Bool) :
    Shallow ref (n.sweep dead ref).1 := ⟨h.root, sweepAll_below dead h.below⟩

/-- **A sweep of a shallow tree loses no reference.** -/
theorem refs_sweep {ref : α → Option ρ} {n : Node α} (h : Shallow ref n) (dead : α → Bool) :
    (n.refs ref).Perm ((n.sweep dead ref).1.refs ref ++ (n.sweep dead ref).2) := by
  rw [refs_shallow h, refs_shallow (shallow_sweep h dead)]
  exact sweepAll_refs dead h.below

/-! ### Sorted children -/

section Sorted

variable [Ord κ]

/-- The children up to the first that is not smaller; there the node that was looked for is
changed, or a fresh one put in. -/
def enterAll (key : α → κ) (k : κ) (found : Node α → Node α) (fresh : Node α) :
    List (Node α) → List (Node α)
  | [] => [fresh]
  | c :: cs =>
      match compare (key c.data) k with
      | .lt => c :: enterAll key k found fresh cs
      | .eq => found c :: cs
      | .gt => fresh :: c :: cs

/-- The children up to the first that is not smaller; there the entry is updated, or a new
one put in. -/
def upsertAll (key : α → κ) (k : κ) (upd : α → α) (new : α) : List (Node α) → List (Node α)
  | [] => [.leaf new]
  | c :: cs =>
      match compare (key c.data) k with
      | .lt => c :: upsertAll key k upd new cs
      | .eq => c.mapData upd :: cs
      | .gt => .leaf new :: c :: cs

def Node.upsert (key : α → κ) (k : κ) (upd : α → α) (new : α) (n : Node α) : Node α :=
  ⟨n.data, upsertAll key k upd new n.children⟩

/-- The keys of the children are strictly increasing. -/
def SortedBy (key : α → κ) (cs : List (Node α)) : Prop :=
  (cs.map Node.data).Pairwise fun d e => compare (key d) (key e) = .lt

variable {key : α → κ} {k : κ} {upd : α → α} {new : α} {ref : α → Option ρ}

theorem sortedBy_of_data {cs ds : List (Node α)} (h : SortedBy key cs)
    (hd : ds.map Node.data = cs.map Node.data) : SortedBy key ds := by
  unfold SortedBy
  rw [hd]
  exact h

theorem sortedBy_sweep {cs : List (Node α)} (h : SortedBy key cs) (dead : α → Bool)
    (ref : α → Option ρ) : SortedBy key (sweepAll dead ref cs).1 :=
  h.sublist (sweepAll_sublist dead ref cs)

theorem noRefs_upsertAll : ∀ {cs : List (Node α)}, NoRefs ref cs → (∀ d, ref (upd d) = ref d) →
    ref new = none → NoRefs ref (upsertAll key k upd new cs) := by
  intro cs h hupd hnew
  have hleaf : ∀ {ds : List (Node α)}, NoRefs ref ds → NoRefs ref (.leaf new :: ds) := fun hd =>
    noRefs_cons.mpr ⟨hnew, noRefs_nil ref, hd⟩
  induction cs with
  | nil => exact hleaf h
  | cons c cs ih =>
      obtain ⟨hc, hds, hcs⟩ := noRefs_cons.mp h
      rw [upsertAll]
      cases compare (key c.data) k with
      | lt => exact noRefs_cons.mpr ⟨hc, hds, ih hcs⟩
      | eq => exact noRefs_cons.mpr ⟨(hupd _).trans hc, hds, hcs⟩
      | gt => exact hleaf h

theorem shallow_upsert {n : Node α} (h : Shallow ref n) :
    Shallow ref (n.upsert key k upd new) := by
  have hall : ∀ {cs : List (Node α)}, (∀ c ∈ cs, NoRefs ref c.children) →
      ∀ c ∈ upsertAll key k upd new cs, NoRefs ref c.children := by
    intro cs
    induction cs with
    | nil =>
        intro _ c hc
        obtain rfl := List.mem_singleton.mp hc
        exact noRefs_nil ref
    | cons c cs ih =>
        intro hcs x hx
        have hrest := ih fun y hy => hcs y (by simp [hy])
        have hc := hcs c (by simp)
        rw [upsertAll] at hx
        cases hcmp : compare (key c.data) k with
        | lt =>
            simp only [hcmp] at hx
            rcases List.mem_cons.mp hx with rfl | hx
            · exact hc
            · exact hrest x hx
        | eq =>
            simp only [hcmp] at hx
            rcases List.mem_cons.mp hx with rfl | hx
            · exact hc
            · exact hcs x (by simp [hx])
        | gt =>
            simp only [hcmp] at hx
            rcases List.mem_cons.mp hx with rfl | hx
            · exact noRefs_nil ref
            · exact hcs x hx
  exact ⟨h.root, hall h.below⟩

theorem upsertAll_eq (k : κ) (upd : α → α) (new : α) (cs : List (Node α)) :
    upsertAll key k upd new cs = enterAll key k (fun c => c.mapData upd) (.leaf new) cs := by
  induction cs with
  | nil => rfl
  | cons c cs ih => rw [upsertAll, enterAll, ih]

theorem ne_of_lt [Std.LawfulEqOrd κ] {a b : κ} (h : compare a b = .lt) : a ≠ b := by
  rintro rfl
  have hself : compare a a = .eq := Std.ReflCmp.compare_self
  rw [hself] at h
  exact absurd h (by decide)

theorem enterAll_found [Std.LawfulEqOrd κ] {k : κ} {found : Node α → Node α}
    {fresh c : Node α} {b : List (Node α)} (hc : key c.data = k) : ∀ {a : List (Node α)},
    (∀ x ∈ a, compare (key x.data) k = .lt) →
      enterAll key k found fresh (a ++ c :: b) = a ++ found c :: b := by
  intro a
  induction a with
  | nil =>
      intro _
      have hself : compare (key c.data) k = .eq := by
        rw [hc]
        exact Std.ReflCmp.compare_self
      rw [List.nil_append, enterAll, hself]
      rfl
  | cons x a ih =>
      intro ha
      obtain ⟨hx, ha⟩ := List.forall_mem_cons.mp ha
      rw [List.cons_append, enterAll, hx]
      exact congrArg (x :: ·) (ih ha)

theorem enterAll_fresh [Std.TransOrd κ] {k : κ} {found : Node α → Node α} {fresh : Node α}
    {b : List (Node α)} (hb : ∀ x ∈ b, compare k (key x.data) = .lt) :
    ∀ {a : List (Node α)}, (∀ x ∈ a, compare (key x.data) k = .lt) →
    enterAll key k found fresh (a ++ b) = a ++ fresh :: b := by
  intro a
  induction a with
  | nil =>
      intro _
      cases b with
      | nil => rfl
      | cons x b =>
          have hx : compare (key x.data) k = .gt :=
            Std.OrientedCmp.gt_iff_lt.mpr (hb x List.mem_cons_self)
          rw [List.nil_append, enterAll, hx]
          rfl
  | cons x a ih =>
      intro ha
      obtain ⟨hx, ha⟩ := List.forall_mem_cons.mp ha
      rw [List.cons_append, enterAll, hx]
      exact congrArg (x :: ·) (ih ha)

variable [Std.TransOrd κ] [Std.LawfulEqOrd κ]

/-- Sorted children split at a key: those before it, the one that has it if there is one, and
those behind. -/
theorem sorted_split (k : κ) : ∀ {cs : List (Node α)}, SortedBy key cs →
    (∃ a c b, cs = a ++ c :: b ∧ key c.data = k ∧ ∀ x ∈ a, compare (key x.data) k = .lt) ∨
    ∃ a b, cs = a ++ b ∧ (∀ x ∈ a, compare (key x.data) k = .lt) ∧
      ∀ x ∈ b, compare k (key x.data) = .lt := by
  intro cs
  induction cs with
  | nil => intro _; exact Or.inr ⟨[], [], rfl, by simp, by simp⟩
  | cons c cs ih =>
      intro hs
      have hs' : SortedBy key cs := (List.pairwise_cons.mp hs).2
      have hlt : ∀ x ∈ cs, compare (key c.data) (key x.data) = .lt := fun x hx =>
        (List.pairwise_cons.mp hs).1 x.data (List.mem_map_of_mem hx)
      cases hc : compare (key c.data) k with
      | lt =>
          rcases ih hs' with ⟨a, x, b, rfl, hx, ha⟩ | ⟨a, b, rfl, ha, hb⟩
          · exact Or.inl ⟨c :: a, x, b, rfl, hx, List.forall_mem_cons.mpr ⟨hc, ha⟩⟩
          · exact Or.inr ⟨c :: a, b, rfl, List.forall_mem_cons.mpr ⟨hc, ha⟩, hb⟩
      | eq => exact Or.inl ⟨[], c, cs, rfl, Std.LawfulEqCmp.eq_of_compare hc, by simp⟩
      | gt =>
          have hk : compare k (key c.data) = .lt := by
            rw [← Std.OrientedCmp.gt_iff_lt]
            exact hc
          refine Or.inr ⟨[], c :: cs, rfl, by simp, List.forall_mem_cons.mpr ⟨hk, fun x hx => ?_⟩⟩
          exact Std.TransCmp.lt_trans hk (hlt x hx)

/-- **A node that is there is changed, one that is not is put in**, and nothing else
changes. -/
theorem enterAll_cases (k : κ) (found : Node α → Node α) (fresh : Node α) {cs : List (Node α)}
    (h : SortedBy key cs) :
    (∃ a c b, cs = a ++ c :: b ∧ key c.data = k ∧
      enterAll key k found fresh cs = a ++ found c :: b) ∨
    ((∀ c ∈ cs, key c.data ≠ k) ∧
      ∃ a b, cs = a ++ b ∧ enterAll key k found fresh cs = a ++ fresh :: b ∧
        (∀ c ∈ a, compare (key c.data) k = .lt) ∧ (∀ c ∈ b, compare k (key c.data) = .lt)) := by
  rcases sorted_split k h with ⟨a, c, b, rfl, hc, ha⟩ | ⟨a, b, rfl, ha, hb⟩
  · exact Or.inl ⟨a, c, b, rfl, hc, enterAll_found hc ha⟩
  · refine Or.inr ⟨fun x hx => ?_, a, b, rfl, enterAll_fresh hb ha, ha, hb⟩
    rcases List.mem_append.mp hx with hx | hx
    · exact ne_of_lt (ha x hx)
    · exact (ne_of_lt (hb x hx)).symm

/-- **An entry that is there is updated, one that is not is put in**, and nothing else
changes. -/
theorem upsertAll_cases (k : κ) (upd : α → α) (new : α) {cs : List (Node α)}
    (h : SortedBy key cs) :
    (∃ a c b, cs = a ++ c :: b ∧ key c.data = k ∧
      upsertAll key k upd new cs = a ++ c.mapData upd :: b) ∨
    ((∀ c ∈ cs, key c.data ≠ k) ∧
      ∃ a b, cs = a ++ b ∧ upsertAll key k upd new cs = a ++ .leaf new :: b ∧
        (∀ c ∈ a, compare (key c.data) k = .lt) ∧ (∀ c ∈ b, compare k (key c.data) = .lt)) := by
  rw [upsertAll_eq]
  exact enterAll_cases k (fun c => c.mapData upd) (.leaf new) h

/-- A child afterwards is one there was, updated perhaps, or the one that was put in. -/
theorem mem_upsertAll {cs : List (Node α)} (h : SortedBy key cs) {x : Node α}
    (hx : x ∈ upsertAll key k upd new cs) :
    (∃ c ∈ cs, x = c ∨ x = c.mapData upd) ∨ ((∀ c ∈ cs, key c.data ≠ k) ∧ x = .leaf new) := by
  rcases upsertAll_cases k upd new h with ⟨a, c, b, rfl, -, hup⟩ | ⟨hnone, a, b, rfl, hup, -, -⟩
  · rw [hup] at hx
    left
    rcases List.mem_append.mp hx with hx | hx
    · exact ⟨x, List.mem_append_left _ hx, Or.inl rfl⟩
    · rcases List.mem_cons.mp hx with rfl | hx
      · exact ⟨c, by simp, Or.inr rfl⟩
      · exact ⟨x, by simp [hx], Or.inl rfl⟩
  · rw [hup] at hx
    rcases List.mem_append.mp hx with hx | hx
    · exact Or.inl ⟨x, List.mem_append_left _ hx, Or.inl rfl⟩
    · rcases List.mem_cons.mp hx with rfl | hx
      · exact Or.inr ⟨hnone, rfl⟩
      · exact Or.inl ⟨x, List.mem_append_right _ hx, Or.inl rfl⟩

theorem sortedBy_enterAll {found : Node α → Node α} {fresh : Node α} {cs : List (Node α)}
    (h : SortedBy key cs) (hfound : ∀ c, key (found c).data = key c.data)
    (hfresh : key fresh.data = k) : SortedBy key (enterAll key k found fresh cs) := by
  rcases enterAll_cases k found fresh h with
    ⟨a, c, b, rfl, -, hup⟩ | ⟨-, a, b, rfl, hup, ha, hb⟩
  · rw [hup]
    simp only [SortedBy, List.map_append, List.map_cons, List.pairwise_append, List.pairwise_cons,
      List.mem_cons, forall_eq_or_imp, hfound] at h ⊢
    exact h
  · rw [hup]
    simp only [SortedBy, List.map_append, List.map_cons, List.pairwise_append, List.pairwise_cons,
      List.mem_cons, forall_eq_or_imp, hfresh, List.mem_map, forall_exists_index, and_imp,
      forall_apply_eq_imp_iff₂] at h ⊢
    exact ⟨h.1, ⟨hb, h.2.1⟩, fun x hx => ⟨ha x hx, h.2.2 x hx⟩⟩

theorem sortedBy_upsertAll {cs : List (Node α)} (h : SortedBy key cs)
    (hupd : ∀ d, key (upd d) = key d) (hnew : key new = k) :
    SortedBy key (upsertAll key k upd new cs) := by
  rw [upsertAll_eq]
  exact sortedBy_enterAll h (fun c => hupd c.data) hnew

/-! ### References of sorted children -/

/-- Updating an entry keeps the references. -/
theorem refs_upsert_of_mem {n : Node α} (h : Shallow ref n) (hs : SortedBy key n.children)
    (hupd : ∀ d, ref (upd d) = ref d) (hmem : ∃ c ∈ n.children, key c.data = k) :
    (n.upsert key k upd new).refs ref = n.refs ref := by
  rw [refs_shallow h, refs_shallow (shallow_upsert h)]
  obtain ⟨x, hx, hk⟩ := hmem
  rcases upsertAll_cases k upd new hs with
    ⟨a, c, b, hcs, -, hup⟩ | ⟨hnone, -⟩
  · show childRefs ref (upsertAll key k upd new n.children) = _
    rw [hup, hcs, childRefs_append, childRefs_append, childRefs_cons, childRefs_cons]
    simp only [Node.mapData, data_mk, hupd]
  · exact absurd hk (hnone x hx)

/-- Putting an entry in adds its reference. -/
theorem refs_upsert_of_notMem {n : Node α} (h : Shallow ref n) (hs : SortedBy key n.children)
    (hnot : ∀ c ∈ n.children, key c.data ≠ k) :
    ((n.upsert key k upd new).refs ref).Perm ((ref new).toList ++ n.refs ref) := by
  rw [refs_shallow h, refs_shallow (shallow_upsert h)]
  rcases upsertAll_cases k upd new hs with
    ⟨a, c, b, hcs, hk, -⟩ | ⟨-, a, b, hcs, hup, -, -⟩
  · exact absurd hk (hnot c (by simp [hcs]))
  · show (childRefs ref (upsertAll key k upd new n.children)).Perm _
    rw [hup, hcs, childRefs_append, childRefs_append, childRefs_cons, ← List.append_assoc,
      ← List.append_assoc]
    exact List.perm_append_comm.append_right _

end Sorted

/-! ### Changes below the children of the root -/

/-- A change below a child of the root that brings no reference keeps the tree shallow and
its references. -/
theorem shallow_modifyChild {ref : α → Option ρ} {n : Node α} (h : Shallow ref n) (i : Nat)
    {f : Node α → Node α} (hdata : ∀ c, (f c).data = c.data)
    (hbelow : ∀ c, NoRefs ref c.children → NoRefs ref (f c).children) :
    Shallow ref (n.modifyChild i f) ∧ (n.modifyChild i f).refs ref = n.refs ref := by
  have hall : ∀ {cs : List (Node α)} (i : Nat), (∀ c ∈ cs, NoRefs ref c.children) →
      (∀ c ∈ cs.modify i f, NoRefs ref c.children) ∧
        childRefs ref (cs.modify i f) = childRefs ref cs := by
    intro cs
    induction cs with
    | nil => intro i _; simp
    | cons c cs ih =>
        intro i hcs
        have hc := hcs c (by simp)
        cases i with
        | zero =>
            refine ⟨?_, by simp [childRefs_cons, hdata]⟩
            intro x hx
            rcases List.mem_cons.mp (by simpa using hx) with rfl | hx
            · exact hbelow c hc
            · exact hcs x (by simp [hx])
        | succ i =>
            obtain ⟨hb, hr⟩ := ih i fun y hy => hcs y (by simp [hy])
            refine ⟨?_, by simp [childRefs_cons, hr]⟩
            intro x hx
            rcases List.mem_cons.mp (by simpa using hx) with rfl | hx
            · exact hc
            · exact hb x hx
  obtain ⟨hb, hr⟩ := hall i h.below
  have hsh : Shallow ref (n.modifyChild i f) := ⟨h.root, hb⟩
  refine ⟨hsh, ?_⟩
  rw [refs_shallow h, refs_shallow hsh]
  exact hr

theorem noRefs_modify {ref : α → Option ρ} {f : Node α → Node α}
    (hf : ∀ c, NoRefs ref [c] → NoRefs ref [f c]) : ∀ {cs : List (Node α)} (i : Nat),
    NoRefs ref cs → NoRefs ref (cs.modify i f) := by
  intro cs
  induction cs with
  | nil => intro i h; simpa using h
  | cons c cs ih =>
      intro i h
      have hc : NoRefs ref [c] ∧ NoRefs ref cs := noRefs_append.mp h
      cases i with
      | zero => exact noRefs_append.mpr ⟨hf c hc.1, hc.2⟩
      | succ i => exact noRefs_append.mpr ⟨hc.1, ih i hc.2⟩

theorem map_data_modify {f : Node α → Node α} (hdata : ∀ c, (f c).data = c.data) :
    ∀ (cs : List (Node α)) (i : Nat), (cs.modify i f).map Node.data = cs.map Node.data := by
  intro cs
  induction cs with
  | nil => intro i; simp
  | cons c cs ih =>
      intro i
      cases i with
      | zero => simp [hdata]
      | succ i => simp [ih]

end NTree
