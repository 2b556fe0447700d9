/-
Paths in a tree with sorted children.

An entry is made along a path from the root: on each level the node is looked up among the
sorted children, updated or put in, and the rest of the path goes below it.  So a tree that
has only seen such entries is well placed: on each level the nodes are of one kind, and
sorted, and a node is where its path says.

With a clock it is in order of age, too.  Everything on the path gets the time of the entry,
so no node is older than one below it.  That is what a sweep needs, which takes a dead node
with everything below: what it takes was dead as well.
-/
import Brocoli.Lib.NTree
import Brocoli.Lib.Runs

namespace NTree

variable {α ρ τ κ β : Type}

/-! ### Looking up a path -/

section Lookup

variable [DecidableEq κ] {key : α → κ}

/-- The first child that has the key. -/
def child (key : α → κ) (k : κ) (n : Node α) : Option (Node α) :=
  n.children.find? fun c => key c.data = k

/-- The node at the end of a path of keys. -/
def lookup (key : α → κ) : List κ → Node α → Option (Node α)
  | [], n => some n
  | k :: ks, n => (child key k n).bind (lookup key ks)

theorem child_some {k : κ} {n c : Node α} (h : child key k n = some c) :
    c ∈ n.children ∧ key c.data = k :=
  ⟨List.mem_of_find?_eq_some h, by simpa using List.find?_some h⟩

theorem child_none {k : κ} {n : Node α} :
    child key k n = none ↔ ∀ c ∈ n.children, key c.data ≠ k := by
  simp [child]

theorem find?_split {k : κ} {a b : List (Node α)} {x : Node α}
    (ha : ∀ y ∈ a, key y.data ≠ k) (hx : key x.data = k) :
    (a ++ x :: b).find? (fun c => key c.data = k) = some x := by
  have hnone : a.find? (fun c => key c.data = k) = none := by simpa using ha
  rw [List.find?_append, hnone, Option.none_or, List.find?_cons_of_pos (by simpa using hx)]

theorem find?_other {k : κ} {a b : List (Node α)} {x : Node α} (hx : key x.data ≠ k) :
    (a ++ x :: b).find? (fun c => key c.data = k) = (a ++ b).find? fun c => key c.data = k := by
  rw [List.find?_append, List.find?_cons_of_neg (by simpa using hx), ← List.find?_append]

/-- Only the children count. -/
theorem lookup_of_children {n m : Node α} (hc : m.children = n.children) (ks : List κ) :
    (lookup key ks m).isSome = (lookup key ks n).isSome := by
  cases ks with
  | nil => rfl
  | cons k ks => rw [lookup, lookup, child, child, hc]

/-- There is nothing below a leaf. -/
theorem lookup_leaf (d : α) (ks : List κ) :
    (lookup key ks (.leaf d)).isSome = true ↔ ks = [] := by
  cases ks with
  | nil => simp [lookup]
  | cons k ks => simp [lookup, child, Node.leaf]

end Lookup

/-! ### Entering a path -/

/-- One level of a path: the key, what is done to the node that has it, and the data of a new
one. -/
structure Entry (κ α : Type) where
  key : κ
  update : α → α
  new : α

section Enter

variable [Ord κ] {key : α → κ}

/-- The tree with a path entered below the root. -/
def enter (key : α → κ) : List (Entry κ α) → Node α → Node α
  | [], n => n
  | e :: path, n =>
      ⟨n.data, enterAll key e.key (fun c => enter key path (c.mapData e.update))
        (enter key path (.leaf e.new)) n.children⟩

@[simp] theorem enter_data (path : List (Entry κ α)) (n : Node α) :
    (enter key path n).data = n.data := by
  cases path <;> rfl

theorem upsert_eq_enter (n : Node α) (e : Entry κ α) :
    n.upsert key e.key e.update e.new = enter key [e] n := by
  rw [Node.upsert, upsertAll_eq]
  rfl

/-- A child afterwards is one there was, the changed one or the fresh one. -/
theorem mem_enterAll {k : κ} {found : Node α → Node α} {fresh x : Node α} : ∀ {cs : List (Node α)},
    x ∈ enterAll key k found fresh cs → x ∈ cs ∨ (∃ c ∈ cs, x = found c) ∨ x = fresh := by
  intro cs
  induction cs with
  | nil => intro h; exact Or.inr (Or.inr (List.mem_singleton.mp h))
  | cons c cs ih =>
      intro h
      rw [enterAll] at h
      cases hc : compare (key c.data) k with
      | lt =>
          simp only [hc] at h
          rcases List.mem_cons.mp h with rfl | h
          · exact Or.inl List.mem_cons_self
          · rcases ih h with hx | ⟨d, hd, hx⟩ | hx
            · exact Or.inl (List.mem_cons_of_mem _ hx)
            · exact Or.inr (Or.inl ⟨d, List.mem_cons_of_mem _ hd, hx⟩)
            · exact Or.inr (Or.inr hx)
      | eq =>
          simp only [hc] at h
          rcases List.mem_cons.mp h with rfl | h
          · exact Or.inr (Or.inl ⟨c, List.mem_cons_self, rfl⟩)
          · exact Or.inl (List.mem_cons_of_mem _ h)
      | gt =>
          simp only [hc] at h
          rcases List.mem_cons.mp h with rfl | h
          · exact Or.inr (Or.inr rfl)
          · exact Or.inl h

/-! ### Levels -/

/-- The nodes below the root are of these kinds, level by level, and the children of every
node are sorted. -/
def Ranked (key : α → κ) (kind : α → τ) : List τ → Node α → Prop
  | [], n => n.children = []
  | t :: kinds, n =>
      SortedBy key n.children ∧ ∀ c ∈ n.children, kind c.data = t ∧ Ranked key kind kinds c

/-- An entry for a level: it has its key and its kind, and keeps those of a node it finds. -/
structure Entry.Suits (key : α → κ) (kind : α → τ) (t : τ) (e : Entry κ α) : Prop where
  newKey : key e.new = e.key
  newKind : kind e.new = t
  updKey : ∀ d, key (e.update d) = key d
  updKind : ∀ d, kind (e.update d) = kind d

/-- A path that goes down the levels. -/
def Descends (key : α → κ) (kind : α → τ) : List τ → List (Entry κ α) → Prop
  | _, [] => True
  | [], _ :: _ => False
  | t :: kinds, e :: path => e.Suits key kind t ∧ Descends key kind kinds path

variable {kind : α → τ}

theorem ranked_leaf (kinds : List τ) (d : α) : Ranked key kind kinds (.leaf d) := by
  cases kinds with
  | nil => rfl
  | cons t kinds => exact ⟨List.Pairwise.nil, fun c hc => absurd hc List.not_mem_nil⟩

/-- Only the children count. -/
theorem ranked_of_children {n m : Node α} (hc : m.children = n.children) : ∀ {kinds : List τ},
    Ranked key kind kinds n → Ranked key kind kinds m := by
  intro kinds h
  cases kinds with
  | nil => exact hc.trans h
  | cons t kinds =>
      rw [Ranked, hc]
      exact h

theorem mem_flattenAll {d : α} : ∀ {cs : List (Node α)},
    d ∈ flattenAll cs ↔ ∃ c ∈ cs, d = c.data ∨ d ∈ flattenAll c.children := by
  intro cs
  induction cs with
  | nil => simp
  | cons c cs ih =>
      rw [flattenAll_cons, ← mk_data_children c, flatten_mk]
      simp [ih, or_assoc]

/-- Where no kind of node refers to anything, nothing does. -/
theorem noRefs_of_ranked {ref : α → Option ρ} : ∀ {kinds : List τ} {n : Node α},
    Ranked key kind kinds n → (∀ d, kind d ∈ kinds → ref d = none) → NoRefs ref n.children := by
  intro kinds
  induction kinds with
  | nil =>
      intro n h _
      have hnone : n.children = [] := h
      rw [hnone]
      exact noRefs_nil ref
  | cons t kinds ih =>
      intro n h href d hd
      obtain ⟨c, hc, rfl | hd⟩ := mem_flattenAll.mp hd
      · exact href c.data (by rw [(h.2 c hc).1]; exact List.mem_cons_self)
      · exact ih (h.2 c hc).2 (fun d hd => href d (List.mem_cons_of_mem _ hd)) d hd

/-- A tree is shallow when only the nodes right below the root are of a kind that refers. -/
theorem shallow_of_ranked {ref : α → Option ρ} {t : τ} {kinds : List τ} {n : Node α}
    (h : Ranked key kind (t :: kinds) n) (hroot : ref n.data = none)
    (href : ∀ d, kind d ∈ kinds → ref d = none) : Shallow ref n :=
  ⟨hroot, fun c hc => noRefs_of_ranked (h.2 c hc).2 href⟩

/-- **A path that goes down the levels keeps them.** -/
theorem ranked_enter [Std.TransOrd κ] [Std.LawfulEqOrd κ] : ∀ {path : List (Entry κ α)}
    {kinds : List τ} {n : Node α}, Ranked key kind kinds n → Descends key kind kinds path →
    Ranked key kind kinds (enter key path n) := by
  intro path
  induction path with
  | nil => intro kinds n h _; exact h
  | cons e path ih =>
      intro kinds n h hpath
      cases kinds with
      | nil => exact absurd hpath id
      | cons t kinds =>
          obtain ⟨he, hrest⟩ := hpath
          have hfound : ∀ c : Node α,
              key (enter key path (c.mapData e.update)).data = key c.data := by
            intro c
            rw [enter_data]
            exact he.updKey c.data
          have hfresh : key (enter key path (.leaf e.new)).data = e.key := by
            rw [enter_data]
            exact he.newKey
          refine ⟨sortedBy_enterAll h.1 hfound hfresh, fun x hx => ?_⟩
          rcases mem_enterAll hx with hx | ⟨c, hc, rfl⟩ | rfl
          · exact h.2 x hx
          · have hsame : (c.mapData e.update).children = c.children := rfl
            refine ⟨?_, ih (ranked_of_children hsame (h.2 c hc).2) hrest⟩
            rw [enter_data]
            exact (he.updKind c.data).trans (h.2 c hc).1
          · refine ⟨?_, ih (ranked_leaf kinds e.new) hrest⟩
            rw [enter_data]
            exact he.newKind

/-- What is in the tree afterwards was there, was updated, or is new. -/
theorem mem_flattenAll_enter {d : α} : ∀ {path : List (Entry κ α)} {n : Node α},
    d ∈ flattenAll (enter key path n).children → d ∈ flattenAll n.children ∨
      ∃ e ∈ path, d = e.new ∨ ∃ x ∈ flattenAll n.children, d = e.update x := by
  intro path
  induction path with
  | nil => intro n h; exact Or.inl h
  | cons e path ih =>
      intro n h
      obtain ⟨x, hx, hd⟩ := mem_flattenAll.mp h
      rcases mem_enterAll hx with hx | ⟨c, hc, rfl⟩ | rfl
      · exact Or.inl (mem_flattenAll.mpr ⟨x, hx, hd⟩)
      · have hchild : c.data ∈ flattenAll n.children := mem_flattenAll.mpr ⟨c, hc, Or.inl rfl⟩
        have hbelow : ∀ {y}, y ∈ flattenAll (c.mapData e.update).children →
            y ∈ flattenAll n.children := fun hy => mem_flattenAll.mpr ⟨c, hc, Or.inr hy⟩
        rcases hd with rfl | hd
        · rw [enter_data]
          exact Or.inr ⟨e, List.mem_cons_self, Or.inr ⟨c.data, hchild, rfl⟩⟩
        · rcases ih hd with hd | ⟨e', he', rfl | ⟨y, hy, rfl⟩⟩
          · exact Or.inl (hbelow hd)
          · exact Or.inr ⟨e', List.mem_cons_of_mem _ he', Or.inl rfl⟩
          · exact Or.inr ⟨e', List.mem_cons_of_mem _ he', Or.inr ⟨y, hbelow hy, rfl⟩⟩
      · rcases hd with rfl | hd
        · rw [enter_data]
          exact Or.inr ⟨e, List.mem_cons_self, Or.inl rfl⟩
        · rcases ih hd with hd | ⟨e', he', rfl | ⟨y, hy, rfl⟩⟩
          · exact absurd hd (by simp [Node.leaf])
          · exact Or.inr ⟨e', List.mem_cons_of_mem _ he', Or.inl rfl⟩
          · exact absurd hy (by simp [Node.leaf])

/-! ### Going down to an entry

Who has entered a path finds the child it goes through again, and what it then does below
that child it might as well have entered with the rest.
-/

theorem enter_split [Std.TransOrd κ] [Std.LawfulEqOrd κ] {n : Node α}
    (hs : SortedBy key n.children) {e : Entry κ α} (hnew : key e.new = e.key)
    (hupd : ∀ d, key (e.update d) = key d) (path : List (Entry κ α)) :
    ∃ a x b, (enter key (e :: path) n).children = a ++ x :: b ∧
      (∀ y ∈ a, compare (key y.data) e.key = .lt) ∧ key x.data = e.key ∧
      ((∃ c ∈ n.children, x = enter key path (c.mapData e.update)) ∨
        x = enter key path (.leaf e.new)) ∧
      ∀ (f : Node α → Node α) (path' : List (Entry κ α)),
        (∀ c ∈ n.children, f (enter key path (c.mapData e.update))
          = enter key path' (c.mapData e.update)) →
        f (enter key path (.leaf e.new)) = enter key path' (.leaf e.new) →
        enter key (e :: path') n = ⟨n.data, a ++ f x :: b⟩ := by
  rcases sorted_split e.key hs with ⟨a, c, b, hcs, hc, ha⟩ | ⟨a, b, hcs, ha, hb⟩
  · have hmem : c ∈ n.children := by simp [hcs]
    refine ⟨a, enter key path (c.mapData e.update), b, ?_, ha, ?_, Or.inl ⟨c, hmem, rfl⟩,
      fun f path' hf _ => ?_⟩
    · show enterAll key e.key _ _ n.children = _
      rw [hcs, enterAll_found hc ha]
    · rw [enter_data]
      exact (hupd c.data).trans hc
    · rw [hf c hmem, enter, hcs, enterAll_found hc ha]
  · refine ⟨a, enter key path (.leaf e.new), b, ?_, ha, ?_, Or.inr rfl, fun f path' _ hf => ?_⟩
    · show enterAll key e.key _ _ n.children = _
      rw [hcs, enterAll_fresh hb ha]
    · rw [enter_data]
      exact hnew
    · rw [hf, enter, hcs, enterAll_fresh hb ha]

/-! ### Looking up an entry -/

section Lookup

variable [DecidableEq κ] [Std.TransOrd κ] [Std.LawfulEqOrd κ]

/-- **The child a path is entered through** is the one there was, updated, or a new one, with
the rest of the path below. -/
theorem child_enter_self {n : Node α} (hs : SortedBy key n.children) {e : Entry κ α}
    (hnew : key e.new = e.key) (hupd : ∀ d, key (e.update d) = key d) (path : List (Entry κ α)) :
    child key e.key (enter key (e :: path) n) = some (match child key e.key n with
      | some c => enter key path (c.mapData e.update)
      | none => enter key path (.leaf e.new)) := by
  have hbefore : ∀ {a : List (Node α)}, (∀ x ∈ a, compare (key x.data) e.key = .lt) →
      ∀ x ∈ a, key x.data ≠ e.key := fun ha x hx => ne_of_lt (ha x hx)
  rcases sorted_split e.key hs with ⟨a, c, b, hcs, hc, ha⟩ | ⟨a, b, hcs, ha, hb⟩
  · have hold : child key e.key n = some c := by
      rw [child, hcs]
      exact find?_split (hbefore ha) hc
    have hkey : key (enter key path (c.mapData e.update)).data = e.key := by
      rw [enter_data]
      exact (hupd c.data).trans hc
    rw [hold, child, enter, children_mk, hcs, enterAll_found hc ha]
    exact find?_split (hbefore ha) hkey
  · have hold : child key e.key n = none := by
      rw [child_none, hcs]
      intro x hx
      rcases List.mem_append.mp hx with hx | hx
      · exact ne_of_lt (ha x hx)
      · exact (ne_of_lt (hb x hx)).symm
    have hkey : key (enter key path (.leaf e.new)).data = e.key := by
      rw [enter_data]
      exact hnew
    rw [hold, child, enter, children_mk, hcs, enterAll_fresh hb ha]
    exact find?_split (hbefore ha) hkey

theorem child_enter_found {n c : Node α} (hs : SortedBy key n.children) {e : Entry κ α}
    (hnew : key e.new = e.key) (hupd : ∀ d, key (e.update d) = key d) (path : List (Entry κ α))
    (h : child key e.key n = some c) :
    child key e.key (enter key (e :: path) n) = some (enter key path (c.mapData e.update)) := by
  rw [child_enter_self hs hnew hupd, h]

theorem child_enter_fresh {n : Node α} (hs : SortedBy key n.children) {e : Entry κ α}
    (hnew : key e.new = e.key) (hupd : ∀ d, key (e.update d) = key d) (path : List (Entry κ α))
    (h : child key e.key n = none) :
    child key e.key (enter key (e :: path) n) = some (enter key path (.leaf e.new)) := by
  rw [child_enter_self hs hnew hupd, h]

/-- **The other children stay.** -/
theorem child_enter_other {n : Node α} (hs : SortedBy key n.children) {e : Entry κ α}
    (hnew : key e.new = e.key) (hupd : ∀ d, key (e.update d) = key d) (path : List (Entry κ α))
    {k : κ} (hk : k ≠ e.key) : child key k (enter key (e :: path) n) = child key k n := by
  rcases sorted_split e.key hs with ⟨a, c, b, hcs, hc, ha⟩ | ⟨a, b, hcs, ha, hb⟩
  · have hkey : key (enter key path (c.mapData e.update)).data ≠ k := by
      rw [enter_data]
      exact fun h => hk (h.symm.trans ((hupd c.data).trans hc))
    have hold : key c.data ≠ k := fun h => hk (h.symm.trans hc)
    rw [child, child, enter, children_mk, hcs, enterAll_found hc ha, find?_other hkey,
      find?_other hold]
  · have hkey : key (enter key path (.leaf e.new)).data ≠ k := by
      rw [enter_data]
      exact fun h => hk (h.symm.trans hnew)
    rw [child, child, enter, children_mk, hcs, enterAll_fresh hb ha, find?_other hkey]

variable {kind : α → τ}

/-- **A path that is entered is there from then on, up to each of its nodes**, and no other. -/
theorem lookup_enter : ∀ {path : List (Entry κ α)} {kinds : List τ} {n : Node α},
    Ranked key kind kinds n → Descends key kind kinds path → ∀ ks : List κ,
    (lookup key ks (enter key path n)).isSome = true ↔
      (lookup key ks n).isSome = true ∨ ks <+: path.map Entry.key := by
  intro path
  induction path with
  | nil =>
      intro kinds n _ _ ks
      rw [enter, List.map_nil, List.prefix_nil]
      constructor
      · exact Or.inl
      · rintro (h | rfl)
        · exact h
        · rfl
  | cons e path ih =>
      intro kinds n h hpath ks
      cases kinds with
      | nil => exact absurd hpath id
      | cons t kinds =>
          obtain ⟨he, hrest⟩ := hpath
          cases ks with
          | nil => simp [lookup]
          | cons k ks =>
              rw [lookup, lookup, List.map_cons, List.cons_prefix_cons]
              by_cases hk : k = e.key
              · rw [hk, child_enter_self h.1 he.newKey he.updKey]
                simp only [true_and]
                cases hc : child key e.key n with
                | some c =>
                    have hkids : (c.mapData e.update).children = c.children := rfl
                    have hranked : Ranked key kind kinds (c.mapData e.update) :=
                      ranked_of_children hkids (h.2 c (child_some hc).1).2
                    have hsame : (lookup key ks (c.mapData e.update)).isSome
                        = (lookup key ks c).isSome := lookup_of_children hkids ks
                    rw [Option.bind_some, Option.bind_some, ih hranked hrest, hsame]
                | none =>
                    rw [Option.bind_some, Option.bind_none, ih (ranked_leaf kinds e.new) hrest,
                      lookup_leaf]
                    simp only [Option.isSome_none, Bool.false_eq_true, false_or]
                    constructor
                    · rintro (rfl | hks)
                      · exact List.nil_prefix
                      · exact hks
                    · exact Or.inr
              · rw [child_enter_other h.1 he.newKey he.updKey path hk]
                simp [hk]

end Lookup

end Enter

/-- A child that is left is one that was alive, swept itself. -/
theorem mem_sweepAll {dead : α → Bool} {ref : α → Option ρ} {x : Node α} : ∀ {cs : List (Node α)},
    x ∈ (sweepAll dead ref cs).1 ↔
      ∃ c ∈ cs, dead c.data = false ∧ x = ⟨c.data, (sweepAll dead ref c.children).1⟩ := by
  intro cs
  induction cs with
  | nil => simp [sweepAll_nil]
  | cons c cs ih =>
      cases hd : dead c.data with
      | true => rw [sweepAll_dead hd, ih]; simp [hd]
      | false => rw [sweepAll_alive hd, List.mem_cons, ih]; simp [hd]

mutual

theorem mem_flattenAll_sweepNode {dead : α → Bool} {ref : α → Option ρ} {d : α} : ∀ {n : Node α},
    d ∈ flattenAll (sweepNode dead ref n).1 → d ∈ n.flatten
  | .mk x cs, h => by
      rw [sweepNode] at h
      split at h
      · exact absurd h (by simp)
      · rw [flattenAll_cons, flatten_mk, flattenAll_nil, List.append_nil] at h
        rw [flatten_mk]
        rcases List.mem_cons.mp h with rfl | h
        · exact List.mem_cons_self
        · exact List.mem_cons_of_mem _ (mem_flattenAll_sweep h)

/-- A sweep brings nothing. -/
theorem mem_flattenAll_sweep {dead : α → Bool} {ref : α → Option ρ} {d : α} :
    ∀ {cs : List (Node α)}, d ∈ flattenAll (sweepAll dead ref cs).1 → d ∈ flattenAll cs
  | [], h => by rwa [sweepAll] at h
  | c :: cs, h => by
      rw [sweepAll, flattenAll_append] at h
      rw [flattenAll_cons]
      rcases List.mem_append.mp h with h | h
      · exact List.mem_append_left _ (mem_flattenAll_sweepNode h)
      · exact List.mem_append_right _ (mem_flattenAll_sweep h)

end

/-- **A sweep keeps the levels.** -/
theorem ranked_sweep [Ord κ] {key : α → κ} {kind : α → τ} (dead : α → Bool) (ref : α → Option ρ) :
    ∀ {kinds : List τ} {n : Node α}, Ranked key kind kinds n →
      Ranked key kind kinds ⟨n.data, (sweepAll dead ref n.children).1⟩ := by
  intro kinds
  induction kinds with
  | nil =>
      intro n h
      have hnone : n.children = [] := h
      show (sweepAll dead ref n.children).1 = []
      rw [hnone, sweepAll_nil]
  | cons t kinds ih =>
      intro n h
      refine ⟨sortedBy_sweep h.1 dead ref, fun x hx => ?_⟩
      obtain ⟨c, hc, -, rfl⟩ := mem_sweepAll.mp hx
      exact ⟨(h.2 c hc).1, ih (h.2 c hc).2⟩

/-- Sorted children have a key once. -/
theorem child_of_mem [Ord κ] [DecidableEq κ] [Std.LawfulEqOrd κ] {key : α → κ} {n c : Node α}
    (hs : SortedBy key n.children) (hc : c ∈ n.children) :
    child key (key c.data) n = some c := by
  obtain ⟨a, b, hcs⟩ := List.append_of_mem hc
  rw [child, hcs]
  refine find?_split (fun y hy => ?_) rfl
  rw [hcs, SortedBy, List.map_append, List.map_cons, List.pairwise_append] at hs
  exact ne_of_lt (hs.2.2 y.data (List.mem_map_of_mem hy) c.data List.mem_cons_self)

theorem nodup_keys [Ord κ] [Std.LawfulEqOrd κ] {key : α → κ} {cs : List (Node α)}
    (hs : SortedBy key cs) : (cs.map fun c => key c.data).Nodup := by
  rw [SortedBy, List.pairwise_map] at hs
  rw [List.nodup_iff_pairwise_ne, List.pairwise_map]
  exact hs.imp fun hlt => ne_of_lt hlt

/-- A sweep brings no node. -/
theorem lookup_sweep [Ord κ] [DecidableEq κ] [Std.LawfulEqOrd κ] {key : α → κ} {kind : α → τ}
    (dead : α → Bool) (ref : α → Option ρ) : ∀ {ks : List κ} {kinds : List τ} {n : Node α},
    Ranked key kind kinds n →
    (lookup key ks ⟨n.data, (sweepAll dead ref n.children).1⟩).isSome = true →
    (lookup key ks n).isSome = true := by
  intro ks
  induction ks with
  | nil => intro kinds n _ _; rfl
  | cons k ks ih =>
      intro kinds n h hsome
      cases kinds with
      | nil =>
          have hnone : n.children = [] := h
          rw [hnone, sweepAll_nil] at hsome
          exact absurd hsome (by simp [lookup, child])
      | cons t kinds =>
          rw [lookup] at hsome
          cases hx : child key k ⟨n.data, (sweepAll dead ref n.children).1⟩ with
          | none =>
              rw [hx] at hsome
              exact absurd hsome (by simp)
          | some x =>
              obtain ⟨hmem, hk⟩ := child_some hx
              obtain ⟨c, hc, -, rfl⟩ := mem_sweepAll.mp hmem
              have hck : key c.data = k := hk
              rw [hx, Option.bind_some] at hsome
              rw [lookup, ← hck, child_of_mem h.1 hc, Option.bind_some]
              exact ih (h.2 c hc).2 hsome

/-! ### Ages -/

section Age

variable [LE β] {time : α → β}

/-- No node is later than the bound, nor than the node above it. -/
inductive Within (time : α → β) : β → Node α → Prop where
  | mk {t : β} {n : Node α} (top : time n.data ≤ t)
      (below : ∀ c ∈ n.children, Within time (time n.data) c) : Within time t n

theorem Within.top {t : β} {n : Node α} (h : Within time t n) : time n.data ≤ t := by
  cases h with
  | mk top below => exact top

theorem Within.under {t : β} {n : Node α} (h : Within time t n) :
    ∀ c ∈ n.children, Within time (time n.data) c := by
  cases h with
  | mk top below => exact below

/-- The nodes below the root are in order of age, and none is later than `t`. -/
def Aged (time : α → β) (t : β) (n : Node α) : Prop := ∀ c ∈ n.children, Within time t c

theorem aged_leaf (t : β) (d : α) : Aged time t (.leaf d) := fun _ hc => absurd hc List.not_mem_nil

/-- Every entry of the path is made at `t`. -/
def Stamped (time : α → β) (t : β) (path : List (Entry κ α)) : Prop :=
  ∀ e ∈ path, time e.new = t ∧ ∀ d, time (e.update d) = t

/-- **A sweep keeps the order of age.** -/
theorem aged_sweep (dead : α → Bool) (ref : α → Option ρ) {t : β} {n : Node α}
    (h : Aged time t n) : Aged time t (n.sweep dead ref).1 := by
  have hwithin : ∀ {t : β} {m : Node α}, Within time t m →
      Within time t ⟨m.data, (sweepAll dead ref m.children).1⟩ := by
    intro t m hm
    induction hm with
    | mk top below ih =>
        refine .mk top fun x hx => ?_
        obtain ⟨c, hc, -, rfl⟩ := mem_sweepAll.mp hx
        exact ih c hc
  intro x hx
  obtain ⟨c, hc, -, rfl⟩ := mem_sweepAll.mp hx
  exact hwithin (h c hc)

variable [Std.IsPreorder β]

theorem Within.mono {t t' : β} {n : Node α} (h : Within time t n) (ht : t ≤ t') :
    Within time t' n := .mk (Std.le_trans h.top ht) h.under

theorem Aged.mono {t t' : β} {n : Node α} (h : Aged time t n) (ht : t ≤ t') : Aged time t' n :=
  fun c hc => (h c hc).mono ht

/-- **A path that is entered at a later time keeps the order of age.** -/
theorem aged_enter [Ord κ] {key : α → κ} {t' : β} : ∀ {path : List (Entry κ α)} {t : β}
    {n : Node α}, Aged time t n → t ≤ t' → Stamped time t' path →
    Aged time t' (enter key path n) := by
  intro path
  induction path with
  | nil => intro t n h ht _ c hc; exact (h c hc).mono ht
  | cons e path ih =>
      intro t n h ht hpath x hx
      obtain ⟨⟨hnew, hupd⟩, hrest⟩ := List.forall_mem_cons.mp hpath
      rcases mem_enterAll hx with hx | ⟨c, hc, rfl⟩ | rfl
      · exact (h x hx).mono ht
      · have htime : time (enter key path (c.mapData e.update)).data = t' := by
          rw [enter_data]
          exact hupd c.data
        have hbelow : Aged time (time c.data) (c.mapData e.update) := (h c hc).under
        refine .mk (Std.le_of_eq htime) ?_
        rw [htime]
        exact ih hbelow (Std.le_trans (h c hc).top ht) hrest
      · have htime : time (enter key path (.leaf e.new)).data = t' := by
          rw [enter_data]
          exact hnew
        refine .mk (Std.le_of_eq htime) ?_
        rw [htime]
        exact ih (aged_leaf t' e.new) (Std.le_refl t') hrest

end Age

/-! ### Branches -/

mutual

/-- The nodes, parents first, each with the data of those above it. -/
def Node.branches (up : List α) : Node α → List (List α × α)
  | .mk d cs => (up, d) :: branchesAll (up ++ [d]) cs

def branchesAll (up : List α) : List (Node α) → List (List α × α)
  | [] => []
  | c :: cs => c.branches up ++ branchesAll up cs

end

/-- The nodes below the root. -/
def Node.nodes (n : Node α) : List (List α × α) := branchesAll [] n.children

@[simp] theorem branchesAll_nil (up : List α) : branchesAll up [] = [] := by rw [branchesAll]

@[simp] theorem branchesAll_cons (up : List α) (c : Node α) (cs : List (Node α)) :
    branchesAll up (c :: cs) = c.branches up ++ branchesAll up cs := by rw [branchesAll]

theorem branchesAll_append (up : List α) (cs ds : List (Node α)) :
    branchesAll up (cs ++ ds) = branchesAll up cs ++ branchesAll up ds := by
  induction cs with
  | nil => simp
  | cons c cs ih => simp [ih]

theorem branches_eq (up : List α) (n : Node α) :
    n.branches up = (up, n.data) :: branchesAll (up ++ [n.data]) n.children := by
  cases n
  rw [Node.branches]
  rfl

theorem mem_branchesAll {up : List α} {l : List α × α} : ∀ {cs : List (Node α)},
    l ∈ branchesAll up cs ↔ ∃ c ∈ cs, l ∈ c.branches up := by
  intro cs
  induction cs with
  | nil => simp
  | cons c cs ih => simp [ih]

mutual

theorem map_snd_branches : ∀ (n : Node α) (up : List α), (n.branches up).map Prod.snd = n.flatten
  | .mk d cs, up => by
      rw [Node.branches, List.map_cons, map_snd_branchesAll cs, flatten_mk]

theorem map_snd_branchesAll : ∀ (cs : List (Node α)) (up : List α),
    (branchesAll up cs).map Prod.snd = flattenAll cs
  | [], _ => by rw [branchesAll_nil, flattenAll_nil, List.map_nil]
  | c :: cs, up => by
      rw [branchesAll_cons, List.map_append, map_snd_branches c, map_snd_branchesAll cs,
        flattenAll_cons]

end

/-- Sweeping the children one by one. -/
theorem branchesAll_sweepAll {dead : α → Bool} {ref : α → Option ρ} {up : List α} :
    ∀ {cs : List (Node α)},
    (∀ c ∈ cs, branchesAll up (sweepNode dead ref c).1
      = (c.branches up).filter fun l => !dead l.2) →
    branchesAll up (sweepAll dead ref cs).1 = (branchesAll up cs).filter fun l => !dead l.2 := by
  intro cs
  induction cs with
  | nil => intro _; simp [sweepAll_nil]
  | cons c cs ih =>
      intro h
      obtain ⟨hc, hcs⟩ := List.forall_mem_cons.mp h
      rw [sweepAll, branchesAll_append, hc, ih hcs, branchesAll_cons, List.filter_append]

section Age

variable [LE β] {time : α → β}

/-- What is not later than something dead is dead. -/
def Perishing (time : α → β) (dead : α → Bool) : Prop :=
  ∀ a b, time a ≤ time b → dead b = true → dead a = true

/-- To be dead is to be older than some limit. -/
theorem perishing_limit (time : α → Int) (limit now : Int) :
    Perishing time fun d => limit < now - time d := by
  intro a b hab hb
  have hb : limit < now - time b := of_decide_eq_true hb
  exact decide_eq_true (by omega)

variable [Std.IsPreorder β]

theorem Within.branches_le {t : β} {n : Node α} (h : Within time t n) :
    ∀ up : List α, ∀ l ∈ n.branches up, time l.2 ≤ t := by
  induction h with
  | @mk t n top below ih =>
      intro up l hl
      rw [branches_eq] at hl
      rcases List.mem_cons.mp hl with rfl | hl
      · exact top
      · obtain ⟨c, hc, hl⟩ := mem_branchesAll.mp hl
        exact Std.le_trans (ih c hc _ l hl) top

theorem Within.branches_up {t : β} {n : Node α} (h : Within time t n) : ∀ up : List α,
    (∀ a ∈ up, t ≤ time a) → ∀ l ∈ n.branches up, ∀ a ∈ l.1, time l.2 ≤ time a := by
  induction h with
  | @mk t n top below ih =>
      intro up hup l hl
      rw [branches_eq] at hl
      rcases List.mem_cons.mp hl with rfl | hl
      · exact fun a ha => Std.le_trans top (hup a ha)
      · obtain ⟨c, hc, hl⟩ := mem_branchesAll.mp hl
        refine ih c hc _ (fun a ha => ?_) l hl
        rcases List.mem_append.mp ha with ha | ha
        · exact Std.le_trans top (hup a ha)
        · have hself : a = n.data := List.mem_singleton.mp ha
          exact Std.le_of_eq (congrArg time hself.symm)

/-- **No node is later than one above it.** -/
theorem Aged.up {t : β} {n : Node α} (h : Aged time t n) :
    ∀ l ∈ n.nodes, ∀ a ∈ l.1, time l.2 ≤ time a := by
  intro l hl
  obtain ⟨c, hc, hl⟩ := mem_branchesAll.mp hl
  exact (h c hc).branches_up [] (by simp) l hl

theorem Within.branches_sweep {dead : α → Bool} (hdead : Perishing time dead) (ref : α → Option ρ)
    {t : β} {n : Node α} (h : Within time t n) : ∀ up : List α,
    branchesAll up (sweepNode dead ref n).1 = (n.branches up).filter fun l => !dead l.2 := by
  induction h with
  | @mk t n top below ih =>
      intro up
      rw [branches_eq, ← mk_data_children n, sweepNode, data_mk, children_mk]
      by_cases hd : dead n.data = true
      · -- everything below goes as well, and was dead
        have hall : ∀ l ∈ (up, n.data) :: branchesAll (up ++ [n.data]) n.children,
            ¬ (!dead l.2) = true := by
          refine List.forall_mem_cons.mpr ⟨by simp [hd], fun l hl => ?_⟩
          obtain ⟨c, hc, hl⟩ := mem_branchesAll.mp hl
          have hle := (below c hc).branches_le _ l hl
          simp [hdead _ _ hle hd]
        rw [if_pos hd, branchesAll_nil, List.filter_eq_nil_iff.mpr hall]
      · have hchildren := branchesAll_sweepAll fun c hc => ih c hc (up ++ [n.data])
        rw [if_neg hd, branchesAll_cons, branchesAll_nil, List.append_nil, branches_eq, data_mk,
          children_mk, hchildren, List.filter_cons_of_pos (by simpa using hd)]

/-- **A sweep takes the dead nodes and no other**, and leaves the rest in place. -/
theorem nodes_sweep {dead : α → Bool} (hdead : Perishing time dead) (ref : α → Option ρ) {t : β}
    {n : Node α} (h : Aged time t n) :
    (n.sweep dead ref).1.nodes = n.nodes.filter fun l => !dead l.2 :=
  branchesAll_sweepAll fun c hc => (h c hc).branches_sweep hdead ref []

end Age

/-- **It hands on the references of the nodes it takes**, each once. -/
theorem refs_of_sweep (dead : α → Bool) {ref : α → Option ρ} {n : Node α} (h : Shallow ref n) :
    (n.sweep dead ref).2 = (n.nodes.filter fun l => dead l.2).filterMap fun l => ref l.2 := by
  have hnone : ∀ {cs : List (Node α)} {up : List α}, NoRefs ref cs →
      ((branchesAll up cs).filter fun l => dead l.2).filterMap (fun l => ref l.2) = [] := by
    intro cs up hcs
    refine List.filterMap_eq_nil_iff.mpr fun l hl => ?_
    have hmem : l.2 ∈ (branchesAll up cs).map Prod.snd :=
      List.mem_map_of_mem (List.mem_filter.mp hl).1
    rw [map_snd_branchesAll] at hmem
    exact hcs l.2 hmem
  have hall : ∀ {cs : List (Node α)}, (∀ c ∈ cs, NoRefs ref c.children) →
      (sweepAll dead ref cs).2
        = ((branchesAll [] cs).filter fun l => dead l.2).filterMap fun l => ref l.2 := by
    intro cs
    induction cs with
    | nil => intro _; simp [sweepAll_nil]
    | cons c cs ih =>
        intro hcs
        obtain ⟨hc, hcs⟩ := List.forall_mem_cons.mp hcs
        rw [branchesAll_cons, branches_eq, List.filter_append, List.filterMap_append, ← ih hcs]
        cases hd : dead c.data with
        | true =>
            rw [sweepAll_dead hd, List.filter_cons_of_pos (by simpa using hd),
              List.filterMap_cons, hnone hc]
            cases ref c.data <;> rfl
        | false =>
            rw [sweepAll_alive hd, List.filter_cons_of_neg (by simpa using hd), hnone hc,
              (sweepAll_noRefs dead hc).2]
  exact hall h.below

/-! ### What happens to a tree -/

/-- A path is entered, or the dead are swept out. -/
inductive Change (κ α : Type) where
  | entered (path : List (Entry κ α))
  | swept (dead : α → Bool)

namespace Change

variable [Ord κ] {key : α → κ} {kind : α → τ} {ref : α → Option ρ}

def apply (key : α → κ) (ref : α → Option ρ) : Change κ α → Node α → Node α
  | entered path, n => enter key path n
  | swept dead, n => (n.sweep dead ref).1

/-- A path that is entered goes down the levels. -/
def Legal (key : α → κ) (kind : α → τ) (kinds : List τ) : Change κ α → Prop
  | entered path => Descends key kind kinds path
  | swept _ => True

/-- What is entered meets a condition, which updates keep. -/
def Respects (P : α → Prop) : Change κ α → Prop
  | entered path => ∀ e ∈ path, P e.new ∧ ∀ d, P d → P (e.update d)
  | swept _ => True

/-- A path that is entered gets this time. -/
def MadeAt {β : Type} (time : α → β) (t : β) : Change κ α → Prop
  | entered path => Stamped time t path
  | swept _ => True

@[simp] theorem apply_data (c : Change κ α) (n : Node α) : (c.apply key ref n).data = n.data := by
  cases c with
  | entered path => exact enter_data path n
  | swept dead => rfl

theorem ranked_apply [Std.TransOrd κ] [Std.LawfulEqOrd κ] {kinds : List τ} {n : Node α}
    {c : Change κ α} (h : Ranked key kind kinds n) (hc : c.Legal key kind kinds) :
    Ranked key kind kinds (c.apply key ref n) := by
  cases c with
  | entered path => exact ranked_enter h hc
  | swept dead => exact ranked_sweep dead ref h

theorem every_apply {P : α → Prop} {n : Node α} {c : Change κ α}
    (h : ∀ d ∈ flattenAll n.children, P d) (hc : c.Respects P) :
    ∀ d ∈ flattenAll (c.apply key ref n).children, P d := by
  intro d hd
  cases c with
  | swept dead => exact h d (mem_flattenAll_sweep hd)
  | entered path =>
      rcases mem_flattenAll_enter hd with hd | ⟨e, he, rfl | ⟨x, hx, rfl⟩⟩
      · exact h d hd
      · exact (hc e he).1
      · exact (hc e he).2 x (h x hx)

theorem aged_apply {β : Type} [LE β] [Std.IsPreorder β] {time : α → β} {t u : β} {n : Node α}
    {c : Change κ α} (h : Aged time t n) (htu : t ≤ u) (hc : c.MadeAt time u) :
    Aged time u (c.apply key ref n) := by
  cases c with
  | entered path => exact aged_enter h htu hc
  | swept dead => exact (aged_sweep dead ref h).mono htu

end Change

/-! ### Runs of a machine that keeps such a tree -/

section Machine

variable [Ord κ] {S E β : Type} [LE β] [Std.IsPreorder β] {step : S → E → S} {tree : S → Node α}
  {key : α → κ} {ref : α → Option ρ} {time : α → β} {clock : E → Option β} {cond : E → Prop}
  {Inv : S → Prop}

/-- **In a run whose clock only moves forwards the tree stays in order of age**, when what a
step enters gets the time of the step, and steps without a time change nothing. -/
theorem aged_run [Nonempty β] (hinv : ∀ s e, Inv s → Inv (step s e))
    (htick : ∀ s e u, Inv s → cond e → clock e = some u →
      ∃ c : Change κ α, tree (step s e) = c.apply key ref (tree s) ∧ c.MadeAt time u)
    (hquiet : ∀ s e, Inv s → clock e = none → tree (step s e) = tree s)
    {es : List E} {s : S} (hs : Inv s) (hstart : ∀ t, Aged time t (tree s))
    (hcond : ∀ e ∈ es, cond e) (hclock : Runs.Clocked clock es) :
    ∀ s' ∈ Runs.states step s es, ∃ t, Aged time t (tree s') := by
  have hup : ∀ t s e u, Inv s ∧ Aged time t (tree s) → cond e → clock e = some u → t ≤ u →
      Inv (step s e) ∧ Aged time u (tree (step s e)) := by
    rintro t s e u ⟨hs, haged⟩ he htime htu
    obtain ⟨c, htree, hc⟩ := htick s e u hs he htime
    exact ⟨hinv s e hs, htree ▸ Change.aged_apply haged htu hc⟩
  have hstay : ∀ t s e, Inv s ∧ Aged time t (tree s) → cond e → clock e = none →
      Inv (step s e) ∧ Aged time t (tree (step s e)) := by
    rintro t s e ⟨hs, haged⟩ - htime
    exact ⟨hinv s e hs, (hquiet s e hs htime).symm ▸ haged⟩
  intro s' hs'
  obtain ⟨t, -, ht⟩ := Runs.states_clocked_of_start hup hstay Std.le_refl (fun t => ⟨hs, hstart t⟩)
    hcond hclock s' hs'
  exact ⟨t, ht⟩

end Machine

end NTree
