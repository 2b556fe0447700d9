/-
Looking up a registry: `chk_tree_callback` and the end of `chk_tree`.

Both programs keep what is registered in a tree whose children are sorted by name.  An
entry is looked up with a callback over the children of a node, which stops looking at the
first name that is not smaller and notes whether it is the one; `chk_tree` then updates the
entry or inserts a new one in front of the noted one.
-/
import Brocoli.Wire
import Brocoli.Lib.Paths

namespace Brocoli

open CMem NTree

variable {α : Type}

/-- `strcmp`, which compares unsigned bytes. -/
def strcmp (a b : Str) : Ordering := compare a b

/-- What a search leaves in its `chk_tree_arg_t`; the node found is given by its position
among the children. -/
structure ChkTreeArg where
  find : Bool
  sameNodeExist : Bool
  insertBeforeThis : Bool
  findNode : Option Nat
deriving DecidableEq

def ChkTreeArg.zero : ChkTreeArg := ⟨false, false, false, none⟩

/-- `chk_tree_callback` once it has chosen the name to compare with. -/
def chkName (name : α → Str) (compareName : Str) (i : Nat) (node : Node α)
    (arg : ChkTreeArg) : ChkTreeArg :=
  if arg.find then arg
  else
    match strcmp (name node.data) compareName with
    | .lt => arg
    | .eq => { arg with find := true, findNode := some i, sameNodeExist := true }
    | .gt => { arg with find := true, findNode := some i, insertBeforeThis := true }

/-- The end of `chk_tree`: update the entry that was found, or insert a new one. -/
def placeNode (result : ChkTreeArg) (update : α → α) (new : α) (base : Node α) : Node α :=
  match result.findNode with
  | some i =>
      if result.sameNodeExist then base.modifyChild i fun n => n.mapData update
      else base.insertBefore (if result.insertBeforeThis then some i else none) (.leaf new)
  | none => base.insertBefore none (.leaf new)

theorem foreachFrom_found (name : α → Str) (k : Str) {arg : ChkTreeArg} (h : arg.find = true) :
    ∀ (cs : List (Node α)) (i : Nat), foreachFrom (chkName name k) i cs arg = arg := by
  intro cs
  induction cs with
  | nil => intro i; rfl
  | cons c cs ih =>
      intro i
      have hc : chkName name k i c arg = arg := by rw [chkName, if_pos h]
      rw [foreachFrom, hc]
      exact ih (i + 1)

theorem modify_append {β : Type} (f : β → β) (x : β) (post : List β) : ∀ pre : List β,
    (pre ++ x :: post).modify pre.length f = pre ++ f x :: post
  | [] => rfl
  | y :: pre => by simpa using modify_append f x post pre

theorem insertIdx_append {β : Type} (x : β) (post : List β) : ∀ pre : List β,
    (pre ++ post).insertIdx pre.length x = pre ++ x :: post
  | [] => rfl
  | y :: pre => by simpa using insertIdx_append x post pre

/-- **Searching and placing is inserting by name order**, or updating what is there. -/
theorem placeNode_foreach (name : α → Str) (k : Str) (update : α → α) (new : α) (base : Node α) :
    placeNode (base.foreach (chkName name k) ChkTreeArg.zero) update new base
      = base.upsert name k update new := by
  -- with the children the search has passed in front
  have hfrom : ∀ (cs pre : List (Node α)) (d : α),
      placeNode (foreachFrom (chkName name k) pre.length cs ChkTreeArg.zero) update new
          ⟨d, pre ++ cs⟩
        = ⟨d, pre ++ upsertAll name k update new cs⟩ := by
    intro cs
    induction cs with
    | nil =>
        intro pre d
        simp [foreachFrom, placeNode, ChkTreeArg.zero, Node.insertBefore, upsertAll]
    | cons c cs ih =>
        intro pre d
        have hfound : ∀ arg : ChkTreeArg, arg.find = true →
            foreachFrom (chkName name k) (pre.length + 1) cs arg = arg := fun _ h =>
          foreachFrom_found name k h cs _
        rw [foreachFrom, upsertAll]
        cases hc : compare (name c.data) k with
        | lt =>
            have hskip : chkName name k pre.length c ChkTreeArg.zero = ChkTreeArg.zero := by
              simp [chkName, ChkTreeArg.zero, strcmp, hc]
            have hnext := ih (pre ++ [c]) d
            rw [List.length_append, List.append_assoc] at hnext
            rw [hskip]
            exact hnext.trans (by simp)
        | eq =>
            have hsame : chkName name k pre.length c ChkTreeArg.zero
                = ⟨true, true, false, some pre.length⟩ := by
              simp [chkName, ChkTreeArg.zero, strcmp, hc]
            rw [hsame, hfound _ rfl]
            simp only [placeNode, if_true, Node.modifyChild, data_mk, children_mk, modify_append]
        | gt =>
            have hgreater : chkName name k pre.length c ChkTreeArg.zero
                = ⟨true, false, true, some pre.length⟩ := by
              simp [chkName, ChkTreeArg.zero, strcmp, hc]
            rw [hgreater, hfound _ rfl]
            simp [placeNode, Node.insertBefore, insertIdx_append]
  have hbase := hfrom base.children [] base.data
  rw [List.nil_append, List.nil_append, mk_data_children] at hbase
  exact hbase

/-- The node below which an entry is placed stays what it is. -/
theorem placeNode_data (result : ChkTreeArg) (update : α → α) (new : α) (base : Node α) :
    (placeNode result update new base).data = base.data := by
  unfold placeNode
  split
  · split
    · rfl
    · cases (if result.insertBeforeThis = true then some _ else none) <;> rfl
  · rfl

/-- An entry that refers to nothing is placed among others that refer to nothing, whether
they were searched or not. -/
theorem noRefs_placeNode {ρ : Type} {ref : α → Option ρ} {name : α → Str} {k : Str}
    {update : α → α} {new : α} {base : Node α} (search : Bool) (h : NoRefs ref base.children)
    (hupdate : ∀ d, ref (update d) = ref d) (hnew : ref new = none) :
    NoRefs ref (placeNode
      (if search then base.foreach (chkName name k) ChkTreeArg.zero else ChkTreeArg.zero)
      update new base).children := by
  cases search with
  | true =>
      rw [if_pos rfl, placeNode_foreach]
      exact noRefs_upsertAll h hupdate hnew
  | false => exact noRefs_append.mpr ⟨h, noRefs_cons.mpr ⟨hnew, noRefs_nil _, noRefs_nil _⟩⟩

/-! ### Searching for what has been entered -/

/-- The search stops at the node that has the name, when those before it are smaller. -/
theorem foreach_split {name : α → Str} {k : Str} {x : Node α} {b : List (Node α)} (d : α)
    (hx : name x.data = k) {a : List (Node α)}
    (ha : ∀ y ∈ a, compare (name y.data) k = .lt) :
    (Node.mk d (a ++ x :: b)).foreach (chkName name k) ChkTreeArg.zero
      = ⟨true, true, false, some a.length⟩ := by
  have hfrom : ∀ (a : List (Node α)) (i : Nat), (∀ y ∈ a, compare (name y.data) k = .lt) →
      foreachFrom (chkName name k) i (a ++ x :: b) ChkTreeArg.zero
        = ⟨true, true, false, some (i + a.length)⟩ := by
    intro a
    induction a with
    | nil =>
        intro i _
        have hself : strcmp (name x.data) k = .eq := by
          rw [hx]
          show compare k k = .eq
          exact Std.ReflCmp.compare_self
        have hfound : chkName name k i x ChkTreeArg.zero = ⟨true, true, false, some i⟩ := by
          simp [chkName, ChkTreeArg.zero, hself]
        rw [List.nil_append, foreachFrom, hfound, foreachFrom_found name k rfl]
        rfl
    | cons y a ih =>
        intro i ha
        obtain ⟨hy, ha⟩ := List.forall_mem_cons.mp ha
        have hskip : chkName name k i y ChkTreeArg.zero = ChkTreeArg.zero := by
          simp [chkName, ChkTreeArg.zero, strcmp, hy]
        rw [List.cons_append, foreachFrom, hskip, ih (i + 1) ha, List.length_cons]
        congr 2
        omega
  have hzero := hfrom a 0 ha
  rw [Nat.zero_add] at hzero
  exact hzero

/-- The search below a node finds the child that has the name, and not one to insert before. -/
def FindsOwn (name : α → Str) (k : Str) (base x : Node α) : Prop :=
  name x.data = k ∧ ∃ i, base.children[i]? = some x ∧
    base.foreach (chkName name k) ChkTreeArg.zero = ⟨true, true, false, some i⟩

/-- **A node that has just been entered is found**, and what is then done below it extends the
path. -/
theorem foreach_entered {name : α → Str} {n : Node α} (hs : SortedBy name n.children)
    {e : Entry Str α} (hnew : name e.new = e.key) (hupd : ∀ d, name (e.update d) = name d)
    (path : List (Entry Str α)) :
    ∃ i, (enter name (e :: path) n).foreach (chkName name e.key) ChkTreeArg.zero
        = ⟨true, true, false, some i⟩ ∧
      (∃ x, FindsOwn name e.key (enter name (e :: path) n) x ∧
        ((∃ c ∈ n.children, x = enter name path (c.mapData e.update)) ∨
          x = enter name path (.leaf e.new))) ∧
      ∀ (f : Node α → Node α) (path' : List (Entry Str α)),
        (∀ c ∈ n.children, f (enter name path (c.mapData e.update))
          = enter name path' (c.mapData e.update)) →
        f (enter name path (.leaf e.new)) = enter name path' (.leaf e.new) →
        (enter name (e :: path) n).modifyChild i f = enter name (e :: path') n := by
  obtain ⟨a, x, b, hchildren, ha, hx, hfrom, hextend⟩ := enter_split hs hnew hupd path
  have hnode : enter name (e :: path) n = ⟨n.data, a ++ x :: b⟩ := by
    rw [← mk_data_children (enter name (e :: path) n), hchildren, enter_data]
  rw [hnode]
  have hsearch := foreach_split n.data hx ha (b := b)
  refine ⟨a.length, hsearch, ⟨x, ⟨hx, a.length, by simp, hsearch⟩, hfrom⟩,
    fun f path' hfound hfresh => ?_⟩
  rw [hextend f path' hfound hfresh, Node.modifyChild, data_mk, children_mk, modify_append]

end Brocoli
