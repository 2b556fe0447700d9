/-
The timer of a hub thread gets rid of what has expired, one node at a time.

It runs through the brokers and their services by position, destroys the first node that has
expired, with what is below it, and returns.  As in the trees of the registries no node is
later than the one above it, so whatever goes with a broker had expired as well.  Each call
leaves fewer expired nodes, and after as many calls as there were none is left.
-/
import Mathlib.Logic.Function.Iterate
import Brocoli.Proofs.Directory

namespace Brocoli

open CMem Multipart NTree Runs Arrivals Hub

namespace TreeStep

def time : TreeStep → Option Time
  | regi _ now _ => some now
  | sweep current => some current

/-- The clock does not move while a registration is handled. -/
def Steady : TreeStep → Prop
  | regi _ now now' => now = now'
  | sweep _ => True

end TreeStep

/-- The clock of the thread moves between the steps, and only forwards. -/
structure Punctual (es : List TreeStep) : Prop where
  steady : ∀ e ∈ es, e.Steady
  clocked : Clocked TreeStep.time es

namespace Hub

/-! ### The loops -/

/-- The inner loop from one position on, with the number of iterations that are left.  It fails
where there is no node at the position; else it says what is left of the broker when a service
was destroyed. -/
def svcLoop (current : Time) (nthBroker : Node NodeDataSmall) :
    Nat → Nat → Option (Option (Node NodeDataSmall))
  | 0, _ => some none
  | num + 1, jjj =>
      match nthBroker.children[jjj]? with
      | none => none
      | some nthSvc =>
          if expired current nthSvc.data then
            some (some ⟨nthBroker.data, nthBroker.children.eraseIdx jjj⟩)
          else svcLoop current nthBroker num (jjj + 1)

/-- The outer loop, likewise. -/
def brokerLoop (current : Time) (rootNode : Node NodeDataSmall) :
    Nat → Nat → Option (Option (Node NodeDataSmall))
  | 0, _ => some none
  | num + 1, iii =>
      match rootNode.children[iii]? with
      | none => none
      | some nthBroker =>
          if expired current nthBroker.data then
            some (some ⟨rootNode.data, rootNode.children.eraseIdx iii⟩)
          else
            match svcLoop current nthBroker nthBroker.children.length 0 with
            | none => none
            | some (some left) => some (some (rootNode.modifyChild iii fun _ => left))
            | some none => brokerLoop current rootNode num (iii + 1)

/-- `remove_smalltree_callback` with its loops, and the counts taken in advance. -/
def removeSmalltreeLoops (rootNode : Node NodeDataSmall) (current : Time) :
    Option (Node NodeDataSmall) :=
  (brokerLoop current rootNode rootNode.children.length 0).map fun left => left.getD rootNode

theorem eraseIdx_append {β : Type} (x : β) (post : List β) : ∀ pre : List β,
    (pre ++ x :: post).eraseIdx pre.length = pre ++ post
  | [] => rfl
  | y :: pre => by simpa using eraseIdx_append x post pre

theorem svcLoop_eq (current : Time) (d : NodeDataSmall) :
    ∀ (cs pre : List (Node NodeDataSmall)),
    svcLoop current ⟨d, pre ++ cs⟩ cs.length pre.length
      = some (if cs.any fun c => expired current c.data then
          some ⟨d, pre ++ cs.eraseP fun c => expired current c.data⟩ else none) := by
  intro cs
  induction cs with
  | nil => intro pre; rfl
  | cons c cs ih =>
      intro pre
      rw [List.length_cons, svcLoop, children_mk, List.getElem?_append_right (Nat.le_refl _),
        Nat.sub_self, List.getElem?_cons_zero]
      simp only
      cases hc : expired current c.data with
      | true =>
          have herase : ((c :: cs).eraseP fun c => expired current c.data) = cs :=
            List.eraseP_cons_of_pos hc
          rw [if_pos rfl, eraseIdx_append, List.any_cons, hc, herase]
          rfl
      | false =>
          have hnot : ¬ expired current c.data = true := by simp [hc]
          have herase : ((c :: cs).eraseP fun c => expired current c.data)
              = c :: cs.eraseP fun c => expired current c.data := List.eraseP_cons_of_neg hnot
          have hnext := ih (pre ++ [c])
          rw [List.length_append, List.append_assoc, List.append_assoc] at hnext
          rw [if_neg Bool.false_ne_true, List.any_cons, hc, Bool.false_or, herase]
          exact hnext

theorem brokerLoop_eq (current : Time) (d : NodeDataSmall) :
    ∀ (cs pre : List (Node NodeDataSmall)),
    (brokerLoop current ⟨d, pre ++ cs⟩ cs.length pre.length).map
      (fun left => left.getD ⟨d, pre ++ cs⟩) = some ⟨d, pre ++ removeFirst current cs⟩ := by
  intro cs
  induction cs with
  | nil => intro pre; rfl
  | cons b cs ih =>
      intro pre
      have hsvcs := svcLoop_eq current b.data b.children []
      rw [List.nil_append, mk_data_children, List.length_nil] at hsvcs
      rw [List.length_cons, brokerLoop, children_mk, List.getElem?_append_right (Nat.le_refl _),
        Nat.sub_self, List.getElem?_cons_zero, removeFirst]
      simp only [hsvcs]
      by_cases hb : expired current b.data = true
      · rw [if_pos hb, if_pos hb, eraseIdx_append]
        rfl
      · rw [if_neg hb, if_neg hb]
        by_cases hsvc : (b.children.any fun c => expired current c.data) = true
        · rw [if_pos hsvc, if_pos hsvc]
          simp only [Node.modifyChild, data_mk, children_mk, modify_append]
          rfl
        · have hnext := ih (pre ++ [b])
          rw [List.length_append, List.append_assoc, List.append_assoc] at hnext
          rw [if_neg hsvc, if_neg hsvc]
          exact hnext

/-- **The loops do not leave the children**, and do what is said of the callback. -/
theorem removeSmalltreeLoops_eq (rootNode : Node NodeDataSmall) (current : Time) :
    removeSmalltreeLoops rootNode current = some (removeSmalltreeCallback rootNode current) := by
  have h := brokerLoop_eq current rootNode.data rootNode.children []
  rw [List.nil_append, mk_data_children] at h
  exact h

/-! ### The age of the nodes -/

theorem perishing_expired (current : Time) :
    Perishing NodeDataSmall.hbRcvTime (expired current) :=
  perishing_limit NodeDataSmall.hbRcvTime tmchkBrokerSvc current

/-- There is nothing below a service. -/
def TwoLevels (rootNode : Node NodeDataSmall) : Prop :=
  ∀ b ∈ rootNode.children, ∀ c ∈ b.children, c.children = []

/-- A broker that is heard of, with its service, at one time. -/
theorem within_touch {t now : Time} {b : Node NodeDataSmall}
    (h : Aged NodeDataSmall.hbRcvTime t b) (ht : t ≤ now) (hb : b.data.hbRcvTime = now)
    (same : NodeDataSmall → Bool) (svcRegi : MqRegi) :
    Within NodeDataSmall.hbRcvTime now (touch same (newNodeSmall svcRegi .svc now) b) := by
  refine .mk (by rw [touch_data]; exact Std.le_of_eq hb) fun x hx => ?_
  rw [touch_data, hb]
  rw [touch_eq] at hx
  rcases mem_findOrAdd hx with hx | ⟨c, hc, -, rfl⟩ | rfl
  · exact (h x hx).mono ht
  · exact .mk (Std.le_refl now) fun y hy => ((h c hc).under y hy).mono
      (Std.le_trans (h c hc).top ht)
  · exact .mk (Std.le_refl now) fun y hy => absurd hy List.not_mem_nil

theorem aged_removeSmalltree {t : Time} {rootNode : Node NodeDataSmall}
    (h : Aged NodeDataSmall.hbRcvTime t rootNode) (current : Time) :
    Aged NodeDataSmall.hbRcvTime t (removeSmalltreeCallback rootNode current) := by
  intro x hx
  obtain ⟨d, hd, hdata, hsub⟩ := mem_removeFirst hx
  refine .mk (hdata ▸ (h d hd).top) fun y hy => ?_
  rw [hdata]
  exact (h d hd).under y (hsub.subset hy)

/-- **One step keeps the order of age.** -/
theorem aged_treeStep {t u : Time} {rootNode : Node NodeDataSmall}
    (h : Aged NodeDataSmall.hbRcvTime t rootNode) {e : TreeStep} (he : e.Steady)
    (htime : e.time = some u) (htu : t ≤ u) :
    Aged NodeDataSmall.hbRcvTime u (treeStep rootNode e) := by
  cases e with
  | sweep current => exact (aged_removeSmalltree h current).mono htu
  | regi svcRegi now now' =>
      intro x hx
      obtain rfl : now = now' := he
      obtain rfl : now = u := Option.some.inj htime
      rw [treeStep, chkSmallTree_eq] at hx
      rcases mem_findOrAdd hx with hx | ⟨b, hb, -, rfl⟩ | rfl
      · exact (h x hx).mono htu
      · have hbelow : Aged NodeDataSmall.hbRcvTime t (b.mapData (NodeDataSmall.heardAt now)) :=
          fun c hc => ((h b hb).under c hc).mono (h b hb).top
        exact within_touch hbelow htu rfl _ svcRegi
      · exact within_touch (aged_leaf now _) (Std.le_refl now) rfl _ svcRegi

theorem twoLevels_treeStep {rootNode : Node NodeDataSmall} (h : TwoLevels rootNode)
    (e : TreeStep) : TwoLevels (treeStep rootNode e) := by
  have htouch : ∀ {same : NodeDataSmall → Bool} {new : NodeDataSmall} {b : Node NodeDataSmall},
      (∀ c ∈ b.children, c.children = []) → ∀ c ∈ (touch same new b).children, c.children = [] := by
    intro same new b hb c hc
    rw [touch_eq] at hc
    rcases mem_findOrAdd hc with hc | ⟨d, hd, -, rfl⟩ | rfl
    · exact hb c hc
    · exact hb d hd
    · rfl
  intro b hb
  cases e with
  | sweep current =>
      obtain ⟨d, hd, -, hsub⟩ := mem_removeFirst hb
      exact fun c hc => h d hd c (hsub.subset hc)
  | regi svcRegi now now' =>
      rw [treeStep, chkSmallTree_eq] at hb
      rcases mem_findOrAdd hb with hb | ⟨d, hd, -, rfl⟩ | rfl
      · exact h b hb
      · exact htouch (h d hd)
      · exact htouch fun x hx => absurd hx List.not_mem_nil

/-! ### One call -/

/-- One subtree is gone, and all its nodes had expired. -/
structure TakesOne (current : Time) (t t' : Node NodeDataSmall) : Prop where
  root : t'.data = t.data
  subtree : ∃ pre up post, ∃ x : Node NodeDataSmall, t.nodes = pre ++ x.branches up ++ post ∧
    t'.nodes = pre ++ post ∧ ∀ l ∈ x.branches up, expired current l.2 = true

theorem expired_branches {current t : Time} {x : Node NodeDataSmall}
    (h : Within NodeDataSmall.hbRcvTime t x) (hexp : expired current x.data = true)
    (up : List NodeDataSmall) : ∀ l ∈ x.branches up, expired current l.2 = true := by
  intro l hl
  have hself : Within NodeDataSmall.hbRcvTime x.data.hbRcvTime x := .mk (Std.le_refl _) h.under
  exact perishing_expired current _ _ (hself.branches_le up l hl) hexp

/-- **A call takes one subtree, or there is nothing to take.** -/
theorem removeSmalltreeCallback_cases {t : Time} {rootNode : Node NodeDataSmall}
    (h : Aged NodeDataSmall.hbRcvTime t rootNode) (htwo : TwoLevels rootNode) (current : Time) :
    TakesOne current rootNode (removeSmalltreeCallback rootNode current) ∨
      ((∀ l ∈ rootNode.nodes, expired current l.2 = false) ∧
        removeSmalltreeCallback rootNode current = rootNode) := by
  have hnodes : (removeSmalltreeCallback rootNode current).nodes
      = branchesAll [] (removeFirst current rootNode.children) := rfl
  rcases removeFirst_cases current rootNode.children with ⟨a, b, c, hcs, hexp, hrem⟩ |
    ⟨a, b, c, d, x, e, hcs, hsvcs, hexp, hrem⟩ | ⟨hall, hrem⟩
  · have hb : Within NodeDataSmall.hbRcvTime t b := h b (by simp [hcs])
    refine Or.inl ⟨rfl, branchesAll [] a, [], branchesAll [] c, b, ?_, ?_,
      expired_branches hb hexp []⟩
    · rw [Node.nodes, hcs, branchesAll_append, branchesAll_cons, List.append_assoc]
    · rw [hnodes, hrem, branchesAll_append]
  · have hb : Within NodeDataSmall.hbRcvTime t b := h b (by simp [hcs])
    have hx : Within NodeDataSmall.hbRcvTime b.data.hbRcvTime x := hb.under x (by simp [hsvcs])
    refine Or.inl ⟨rfl, branchesAll [] a ++ ([], b.data) :: branchesAll [b.data] d, [b.data],
      branchesAll [b.data] e ++ branchesAll [] c, x, ?_, ?_, expired_branches hx hexp _⟩
    · rw [Node.nodes, hcs, branchesAll_append, branchesAll_cons, branches_eq, hsvcs,
        branchesAll_append, branchesAll_cons]
      simp
    · rw [hnodes, hrem, branchesAll_append, branchesAll_cons, branches_eq, data_mk, children_mk,
        branchesAll_append]
      simp
  · refine Or.inr ⟨fun l hl => ?_, ?_⟩
    · obtain ⟨b, hb, hl⟩ := mem_branchesAll.mp hl
      rw [branches_eq] at hl
      rcases List.mem_cons.mp hl with rfl | hl
      · exact (hall b hb).1
      · obtain ⟨c, hc, hl⟩ := mem_branchesAll.mp hl
        rw [branches_eq, htwo b hb c hc, branchesAll_nil, List.mem_singleton] at hl
        rw [hl]
        exact (hall b hb).2 c hc
    · rw [removeSmalltreeCallback, hrem, mk_data_children]

/-! ### Any number of calls -/

/-- What the timer leaves when it is due `n` times. -/
def sweeps (current : Time) (n : Nat) (rootNode : Node NodeDataSmall) : Node NodeDataSmall :=
  (fun t => removeSmalltreeCallback t current)^[n] rootNode

def countExpired (current : Time) (rootNode : Node NodeDataSmall) : Nat :=
  rootNode.nodes.countP fun l => expired current l.2

/-- **Each call takes at least one expired node and no other.** -/
theorem TakesOne.progress {current : Time} {t t' : Node NodeDataSmall}
    (h : TakesOne current t t') : countExpired current t' < countExpired current t ∧
      t'.nodes.filter (fun l => !expired current l.2)
        = t.nodes.filter fun l => !expired current l.2 := by
  obtain ⟨pre, up, post, x, ht, ht', hexp⟩ := h.subtree
  have hnone : (x.branches up).filter (fun l => !expired current l.2) = [] :=
    List.filter_eq_nil_iff.mpr fun l hl => by simp [hexp l hl]
  have hcount : (x.branches up).countP (fun l => expired current l.2) = (x.branches up).length :=
    List.countP_eq_length.mpr hexp
  have hpos : 0 < (x.branches up).length := by
    rw [branches_eq]
    exact Nat.succ_pos _
  refine ⟨?_, ?_⟩
  · rw [countExpired, countExpired, ht, ht', List.countP_append, List.countP_append,
      List.countP_append, hcount]
    omega
  · rw [ht, ht', List.filter_append, List.filter_append, List.filter_append, hnone,
      List.append_nil]

/-- After as many calls as there are expired nodes the others are left. -/
theorem nodes_sweeps {t : Time} (current : Time) : ∀ (n : Nat) {rootNode : Node NodeDataSmall},
    Aged NodeDataSmall.hbRcvTime t rootNode → TwoLevels rootNode →
    countExpired current rootNode ≤ n →
    (sweeps current n rootNode).nodes = rootNode.nodes.filter fun l => !expired current l.2 := by
  intro n
  induction n with
  | zero =>
      intro rootNode _ _ hcount
      have hnone := List.countP_eq_zero.mp (Nat.le_zero.mp hcount)
      exact (List.filter_eq_self.mpr fun l hl => by simpa using hnone l hl).symm
  | succ n ih =>
      intro rootNode haged htwo hcount
      have haged' := aged_removeSmalltree haged current
      have htwo' : TwoLevels (removeSmalltreeCallback rootNode current) :=
        twoLevels_treeStep htwo (.sweep current)
      rw [sweeps, Function.iterate_succ_apply]
      rcases removeSmalltreeCallback_cases haged htwo current with htakes | ⟨hnone, hsame⟩
      · obtain ⟨hless, hkeep⟩ := htakes.progress
        rw [← hkeep]
        exact ih haged' htwo' (by omega)
      · have hzero : countExpired current rootNode = 0 :=
          List.countP_eq_zero.mpr fun l hl => by simp [hnone l hl]
        rw [hsame]
        exact ih haged htwo (by omega)

theorem timely_run (root : NodeDataSmall) {es : List TreeStep} (h : Punctual es) :
    ∀ s ∈ states treeStep (.leaf root) es,
      ∃ t, Aged NodeDataSmall.hbRcvTime t s ∧ TwoLevels s := by
  have htick : ∀ (t : Time) s (e : TreeStep) u, Aged NodeDataSmall.hbRcvTime t s ∧ TwoLevels s →
      e.Steady → e.time = some u → t ≤ u →
      Aged NodeDataSmall.hbRcvTime u (treeStep s e) ∧ TwoLevels (treeStep s e) :=
    fun _ _ e _ hs he htime htu =>
      ⟨aged_treeStep hs.1 he htime htu, twoLevels_treeStep hs.2 e⟩
  have hquiet : ∀ (t : Time) s (e : TreeStep),
      Aged NodeDataSmall.hbRcvTime t s ∧ TwoLevels s → e.Steady → e.time = none →
      Aged NodeDataSmall.hbRcvTime t (treeStep s e) ∧ TwoLevels (treeStep s e) := by
    intro t s e _ _ htime
    cases e <;> exact absurd htime (by simp [TreeStep.time])
  exact states_clocked_of_start htick hquiet Std.le_refl
    (fun t => ⟨aged_leaf t root, fun _ hb => absurd hb List.not_mem_nil⟩) h.steady h.clocked

/-- What the timer does to a tree, at any time: it keeps to the children, a call takes a subtree
of expired nodes if there are any, and as many calls as there are leave exactly the others, so
that only brokers that were heard of are found. -/
structure Clears (rootNode : Node NodeDataSmall) : Prop where
  positions : ∀ current, removeSmalltreeLoops rootNode current
    = some (removeSmalltreeCallback rootNode current)
  progress : ∀ current, (∃ l ∈ rootNode.nodes, expired current l.2 = true) →
    TakesOne current rootNode (removeSmalltreeCallback rootNode current)
  idle : ∀ current, (∀ l ∈ rootNode.nodes, expired current l.2 = false) →
    removeSmalltreeCallback rootNode current = rootNode
  cleared : ∀ current n, countExpired current rootNode ≤ n →
    (sweeps current n rootNode).nodes = rootNode.nodes.filter fun l => !expired current l.2
  found : ∀ current n, countExpired current rootNode ≤ n → ∀ t : BrokerThread,
    t.rootNode = sweeps current n rootNode → ∀ svcName id,
      findSvcExistTree t svcName = some id → ∃ b ∈ t.rootNode.children, b.data.brokerId = id ∧
        current - b.data.hbRcvTime ≤ tmchkBrokerSvc

theorem clears {t : Time} {rootNode : Node NodeDataSmall}
    (h : Aged NodeDataSmall.hbRcvTime t rootNode) (htwo : TwoLevels rootNode) :
    Clears rootNode := by
  have hcases := removeSmalltreeCallback_cases h htwo
  refine ⟨removeSmalltreeLoops_eq rootNode, fun current hsome => ?_, fun current hnone => ?_,
    fun current n hn => nodes_sweeps current n h htwo hn,
    fun current n hn th hroot svcName id hfind => ?_⟩
  · rcases hcases current with htakes | ⟨hnone, -⟩
    · exact htakes
    · obtain ⟨l, hl, hexp⟩ := hsome
      exact absurd hexp (by simp [hnone l hl])
  · rcases hcases current with htakes | ⟨-, hsame⟩
    · have hzero : countExpired current rootNode = 0 :=
        List.countP_eq_zero.mpr fun l hl => by simp [hnone l hl]
      have hless := htakes.progress.1
      omega
    · exact hsame
  · obtain ⟨b, hb, rfl⟩ := Option.map_eq_some_iff.mp hfind
    have hmem : b ∈ th.rootNode.children := List.mem_of_find?_eq_some hb
    have hnode : ([], b.data) ∈ th.rootNode.nodes :=
      mem_branchesAll.mpr ⟨b, hmem, by rw [branches_eq]; exact List.mem_cons_self⟩
    rw [hroot, nodes_sweeps current n h htwo hn] at hnode
    have halive : expired current b.data = false := by
      simpa using (List.mem_filter.mp hnode).2
    exact ⟨b, hmem, rfl, Int.not_lt.mp (of_decide_eq_false halive)⟩

/-- **The timer makes progress and spares what is alive**, in every tree that a thread's
registrations and earlier ticks lead to. -/
theorem directory_clears (root : NodeDataSmall) {es : List TreeStep} (h : Punctual es) :
    ∀ s ∈ states treeStep (.leaf root) es, Clears s := by
  intro s hs
  obtain ⟨t, haged, htwo⟩ := timely_run root h s hs
  exact clears haged htwo

/-- The root of a small tree when the thread starts. -/
def smallRoot (now : Time) : NodeDataSmall := ⟨.interhub, [], [], now⟩

/-- Two services of a broker, one heard of later than the other. -/
def twoSvcs : List TreeStep :=
  [.regi ((MqRegi.zero.setBrokerHost (lit "10.0.0.1")).setTagSvc (lit "AHIF")) 100 100,
    .regi ((MqRegi.zero.setBrokerHost (lit "10.0.0.1")).setTagSvc (lit "SMSI")) 102 102,
    .sweep 103]

theorem directory_clears_two_svcs : Clears (twoSvcs.foldl treeStep (.leaf (smallRoot 99))) := by
  have htimes : ([100, 102, 103] : List Time).Pairwise (· ≤ ·) := by decide
  have hpunctual : Punctual twoSvcs := ⟨by simp [twoSvcs, TreeStep.Steady], htimes⟩
  exact directory_clears (smallRoot 99) hpunctual _ (foldl_mem_states _ _)

end Hub

end Brocoli
