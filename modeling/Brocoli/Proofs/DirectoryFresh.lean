/-
The directory is what was heard of in the last three seconds.

A registration is heard once a second, and the timer drops what was not heard of for more
than three.  So a service that was heard of in that time is in the tree, whatever else the
thread has heard and dropped, and it stays there; and once the timer has had its turns
nothing else is.
-/
import Brocoli.Proofs.DirectorySweep

namespace Brocoli

open CMem Multipart NTree Runs Arrivals Keyed Hub

namespace Hub

/-- The service was heard of, from the broker, in the last three seconds. -/
def Recent (es : List TreeStep) (current : Time) (svcName id : Str) : Prop :=
  ∃ n ∈ notices es, n.place = (id, svcName) ∧ current - n.now' ≤ tmchkBrokerSvc

/-- Nothing in the run is later. -/
def Past (es : List TreeStep) (current : Time) : Prop :=
  ∀ e ∈ es, ∀ u, e.time = some u → u ≤ current

/-- The broker is in the tree, and the service below it, and both were heard of at that time or
later. -/
def Lists (rootNode : Node NodeDataSmall) (n : Notice) : Prop :=
  ∃ b ∈ rootNode.children, b.data.brokerId = n.broker ∧ n.now' ≤ b.data.hbRcvTime ∧
    ∃ c ∈ b.children, c.data.svcExist = n.svc ∧ n.now' ≤ c.data.hbRcvTime

/-! ### One step -/

section Step

variable {rootNode : Node NodeDataSmall} {n : Notice}

/-- The service of a registration is below its broker, with its time. -/
theorem exists_touch {svcRegi : MqRegi} {now : Time} (b : Node NodeDataSmall) :
    ∃ c ∈ (touch (fun d => d.svcExist == svcRegi.tagSvc) (newNodeSmall svcRegi .svc now) b).children,
      c.data.svcExist = svcRegi.tagSvc ∧ c.data.hbRcvTime = now := by
  rw [touch_eq, children_mk]
  rcases exists_findOrAdd (fun c : Node NodeDataSmall => c.data.svcExist == svcRegi.tagSvc)
    (fun c => c.mapData (NodeDataSmall.heardAt now)) (.leaf (newNodeSmall svcRegi .svc now))
    b.children with ⟨x, -, hsame, hx⟩ | hrecent
  · exact ⟨_, hx, beq_iff_eq.mp hsame, rfl⟩
  · exact ⟨_, hrecent, rfl, rfl⟩

/-- A service that is there is there afterwards, and was not heard of earlier. -/
theorem mem_touch (same : NodeDataSmall → Bool) (new : NodeDataSmall) {b c : Node NodeDataSmall}
    (hc : c ∈ b.children) {t : Time} (ht : t ≤ c.data.hbRcvTime) (hnew : t ≤ new.hbRcvTime) :
    ∃ d ∈ (touch same new b).children,
      d.data.svcExist = c.data.svcExist ∧ t ≤ d.data.hbRcvTime := by
  rw [touch_eq, children_mk]
  rcases mem_findOrAdd_of_mem hc with hd | ⟨-, hd⟩
  · exact ⟨_, hd, rfl, ht⟩
  · exact ⟨_, hd, rfl, hnew⟩

theorem lists_regi (h : Lists rootNode n) {svcRegi : MqRegi} {now : Time} (hnow : n.now' ≤ now) :
    Lists (chkSmallTree rootNode svcRegi now now) n := by
  obtain ⟨b, hb, hid, hbt, c, hc, hsvc, hct⟩ := h
  rw [chkSmallTree_eq]
  rcases mem_findOrAdd_of_mem hb with hmem | ⟨-, hmem⟩
  · exact ⟨b, hmem, hid, hbt, c, hc, hsvc, hct⟩
  · obtain ⟨d, hd, hdsvc, hdt⟩ : ∃ d ∈ (touch (fun d => d.svcExist == svcRegi.tagSvc)
        (newNodeSmall svcRegi .svc now) (b.mapData (NodeDataSmall.heardAt now))).children,
        d.data.svcExist = c.data.svcExist ∧ n.now' ≤ d.data.hbRcvTime :=
      mem_touch _ _ (by exact hc) hct hnow
    refine ⟨_, hmem, ?_, ?_, d, hd, hdsvc.trans hsvc, hdt⟩
    · rw [touch_data]
      exact hid
    · rw [touch_data]
      exact hnow

theorem lists_new (rootNode : Node NodeDataSmall) (svcRegi : MqRegi) (now : Time) :
    Lists (chkSmallTree rootNode svcRegi now now) ⟨svcRegi, now, now⟩ := by
  rw [chkSmallTree_eq]
  rcases exists_findOrAdd (fun b : Node NodeDataSmall => b.data.brokerId == brokerIdOf svcRegi)
    (fun b => touch (fun d => d.svcExist == svcRegi.tagSvc) (newNodeSmall svcRegi .svc now)
      (b.mapData (NodeDataSmall.heardAt now)))
    (touch (fun d => d.svcExist == svcRegi.tagSvc) (newNodeSmall svcRegi .svc now)
      (.leaf (newNodeSmall svcRegi .broker now))) rootNode.children with ⟨x, -, hsame, hx⟩ | hrecent
  · obtain ⟨c, hc, hsvc, htime⟩ := exists_touch (x.mapData (NodeDataSmall.heardAt now))
    refine ⟨_, hx, ?_, ?_, c, hc, hsvc, Std.le_of_eq htime.symm⟩
    · rw [touch_data]
      exact beq_iff_eq.mp hsame
    · rw [touch_data]
      exact Std.le_refl now
  · obtain ⟨c, hc, hsvc, htime⟩ := exists_touch (.leaf (newNodeSmall svcRegi .broker now))
    refine ⟨_, hrecent, ?_, ?_, c, hc, hsvc, Std.le_of_eq htime.symm⟩
    · rw [touch_data]
      rfl
    · rw [touch_data]
      exact Std.le_refl now

/-- **The timer leaves what was heard of in time.** -/
theorem lists_sweep (h : Lists rootNode n) {current : Time}
    (htime : current - n.now' ≤ tmchkBrokerSvc) :
    Lists (removeSmalltreeCallback rootNode current) n := by
  obtain ⟨b, hb, hid, hbt, c, hc, hsvc, hct⟩ := h
  have hlate : ∀ d : NodeDataSmall, n.now' ≤ d.hbRcvTime → ¬ expired current d = true := by
    intro d hd hexp
    have hage : current - d.hbRcvTime ≤ tmchkBrokerSvc :=
      Int.le_trans (Int.sub_le_sub_left hd current) htime
    exact Int.not_lt.mpr hage (of_decide_eq_true hexp)
  have hstay : b ∈ (removeSmalltreeCallback rootNode current).children ∨
      ∃ svcs, ⟨b.data, svcs⟩ ∈ (removeSmalltreeCallback rootNode current).children ∧ c ∈ svcs := by
    rw [removeSmalltreeCallback, children_mk]
    rcases removeFirst_cases current rootNode.children with ⟨pre, x, post, hcs, hexp, hrem⟩ |
      ⟨pre, x, post, svcs, y, svcs', hcs, hbelow, hexp, hrem⟩ | ⟨-, hrem⟩
    · rw [hrem]
      rw [hcs] at hb
      rcases List.mem_append.mp hb with hb | hb
      · exact Or.inl (List.mem_append_left _ hb)
      · rcases List.mem_cons.mp hb with rfl | hb
        · exact absurd hexp (hlate _ hbt)
        · exact Or.inl (List.mem_append_right _ hb)
    · rw [hrem]
      rw [hcs] at hb
      rcases List.mem_append.mp hb with hb | hb
      · exact Or.inl (List.mem_append_left _ hb)
      · rcases List.mem_cons.mp hb with rfl | hb
        · refine Or.inr ⟨svcs ++ svcs', by simp, ?_⟩
          rw [hbelow] at hc
          rcases List.mem_append.mp hc with hc | hc
          · exact List.mem_append_left _ hc
          · rcases List.mem_cons.mp hc with rfl | hc
            · exact absurd hexp (hlate _ hct)
            · exact List.mem_append_right _ hc
        · exact Or.inl (List.mem_append_right _ (List.mem_cons_of_mem _ hb))
    · rw [hrem]
      exact Or.inl hb
  rcases hstay with hmem | ⟨svcs, hmem, hsvcs⟩
  · exact ⟨b, hmem, hid, hbt, c, hc, hsvc, hct⟩
  · exact ⟨_, hmem, hid, hbt, c, hsvcs, hsvc, hct⟩

end Step

/-! ### Runs -/

theorem past_append {es : List TreeStep} {e : TreeStep} {current : Time}
    (h : Past (es ++ [e]) current) :
    Past es current ∧ ∀ u, e.time = some u → u ≤ current :=
  ⟨fun d hd => h d (List.mem_append_left _ hd), h e (by simp)⟩

/-- The steps before one are not later. -/
theorem punctual_split {es : List TreeStep} {e : TreeStep} (h : Punctual (es ++ [e])) :
    Punctual es ∧ e.Steady ∧ ∀ u, e.time = some u → Past es u := by
  have hclock := h.clocked
  rw [Clocked, List.filterMap_append, List.pairwise_append] at hclock
  refine ⟨⟨fun d hd => h.steady d (List.mem_append_left _ hd), hclock.1⟩, h.steady e (by simp),
    fun u hu d hd v hv => ?_⟩
  exact hclock.2.2 v (List.mem_filterMap.mpr ⟨d, hd, hv⟩) u (by simp [hu])

/-- What was heard of was not heard of later than the last step. -/
theorem Past.notice {es : List TreeStep} {u : Time} (h : Past es u) (hsteady : ∀ e ∈ es, e.Steady)
    {n : Notice} (hn : n ∈ notices es) : n.now' ≤ u := by
  obtain ⟨e, he, hnotice⟩ := List.mem_filterMap.mp hn
  cases e with
  | regi svcRegi now now' =>
      obtain rfl := Option.some.inj hnotice
      have htime : now = now' := hsteady _ he
      exact h _ he now' (congrArg some htime)
  | sweep current => cases hnotice

/-- **What was heard of in the last three seconds is listed**, by induction on the run: the
timer was never more than three seconds later. -/
theorem lists_run (root : NodeDataSmall) {es : List TreeStep} (h : Punctual es) {current : Time}
    (hlast : Past es current) {n : Notice} (hn : n ∈ notices es)
    (htime : current - n.now' ≤ tmchkBrokerSvc) : Lists (es.foldl treeStep (.leaf root)) n := by
  induction es using List.reverseRecOn with
  | nil => exact absurd hn List.not_mem_nil
  | append_singleton es e ih =>
      obtain ⟨hbefore, hsteady, hpast⟩ := punctual_split h
      obtain ⟨hearlier, hnow⟩ := past_append hlast
      rw [List.foldl_append]
      cases e with
      | regi svcRegi now now' =>
          obtain rfl : now = now' := hsteady
          rw [notices_regi] at hn
          rcases List.mem_append.mp hn with hn | hn
          · exact lists_regi (ih hbefore hearlier hn) ((hpast now rfl).notice hbefore.steady hn)
          · obtain rfl := List.mem_singleton.mp hn
            exact lists_new _ svcRegi now
      | sweep time =>
          rw [notices_sweep] at hn
          have hsweep : time - n.now' ≤ tmchkBrokerSvc :=
            Int.le_trans (Int.sub_le_sub_right (hnow time rfl) _) htime
          exact lists_sweep (ih hbefore hearlier hn) hsweep

theorem lists_sweeps {rootNode : Node NodeDataSmall} {n : Notice} {current : Time}
    (htime : current - n.now' ≤ tmchkBrokerSvc) (h : Lists rootNode n) (k : Nat) :
    Lists (sweeps current k rootNode) n := by
  induction k generalizing rootNode with
  | zero => exact h
  | succ k ih =>
      rw [sweeps, Function.iterate_succ_apply]
      exact ih (lists_sweep h htime)

/-- The timer's turns as steps. -/
theorem sweeps_eq (current : Time) (k : Nat) (rootNode : Node NodeDataSmall) :
    sweeps current k rootNode = (List.replicate k (TreeStep.sweep current)).foldl treeStep
      rootNode := by
  induction k generalizing rootNode with
  | zero => rfl
  | succ k ih =>
      rw [sweeps, Function.iterate_succ_apply, List.replicate_succ, List.foldl_cons]
      exact ih _

theorem notices_sweeps (es : List TreeStep) (current : Time) (k : Nat) :
    notices (es ++ List.replicate k (.sweep current)) = notices es := by
  induction k with
  | zero => rw [List.replicate_zero, List.append_nil]
  | succ k ih => rw [List.replicate_succ', ← List.append_assoc, notices_sweep, ih]

/-! ### The directory -/

/-- The thread's directory at a time, after so many turns of the timer. -/
def directoryAt (t : BrokerThread) (root : NodeDataSmall) (es : List TreeStep) (current : Time)
    (k : Nat) : BrokerThread :=
  { t with rootNode := sweeps current k (es.foldl treeStep (.leaf root)) }

theorem offers_of_recent {t : BrokerThread} {root : NodeDataSmall} {es : List TreeStep}
    (h : Punctual es) {current : Time} (hlast : Past es current) {svcName id : Str}
    (hrecent : Recent es current svcName id) (hid : id ≠ t.brokerId) (k : Nat) :
    Offers (directoryAt t root es current k) svcName id := by
  obtain ⟨n, hn, hplace, htime⟩ := hrecent
  obtain ⟨b, hb, hbid, -, c, hc, hsvc, -⟩ :=
    lists_sweeps htime (lists_run root h hlast hn htime) k
  obtain ⟨rfl, rfl⟩ := Prod.mk.inj hplace
  exact ⟨hid, b, hb, hbid, c, hc, hsvc⟩

/-- Nothing else is left when the timer has had its turns. -/
theorem recent_of_offers {t : BrokerThread} {root : NodeDataSmall} {es : List TreeStep}
    (h : Punctual es) {current : Time} {k : Nat}
    (hk : countExpired current (es.foldl treeStep (.leaf root)) ≤ k) {svcName id : Str}
    (hoffers : Offers (directoryAt t root es current k) svcName id) :
    Recent es current svcName id := by
  obtain ⟨-, b, hb, rfl, c, hc, rfl⟩ := hoffers
  have hclears := directory_clears root h _ (foldl_mem_states es _)
  have hnode : ([b.data], c.data) ∈ (sweeps current k (es.foldl treeStep (.leaf root))).nodes := by
    refine mem_branchesAll.mpr ⟨b, hb, ?_⟩
    rw [branches_eq]
    refine List.mem_cons_of_mem _ (mem_branchesAll.mpr ⟨c, hc, ?_⟩)
    rw [branches_eq]
    exact List.mem_cons_self
  rw [hclears.cleared current k hk] at hnode
  have halive : expired current c.data = false := by simpa using (List.mem_filter.mp hnode).2
  have hnoted := noted_run root (es ++ List.replicate k (.sweep current)) b
    (by rw [List.foldl_append, ← sweeps_eq]; exact hb)
  have hlast := hnoted.svcs.time c hc
  rw [notices_sweeps] at hlast
  obtain ⟨n, hn, hnow⟩ := Option.map_eq_some_iff.mp hlast
  obtain ⟨hmem, hplace⟩ := mem_about.mp (List.mem_of_getLast? hn)
  refine ⟨n, hmem, hplace, ?_⟩
  rw [hnow]
  exact Int.not_lt.mp (of_decide_eq_false halive)

/-- The directory and what was heard of in the last three seconds. -/
structure Tracks (t : BrokerThread) (root : NodeDataSmall) (es : List TreeStep) (current : Time) :
    Prop where
  kept : ∀ k svcName id, Recent es current svcName id → id ≠ t.brokerId →
    Offers (directoryAt t root es current k) svcName id
  exact : ∀ k, countExpired current (es.foldl treeStep (.leaf root)) ≤ k → ∀ svcName id,
    Offers (directoryAt t root es current k) svcName id ↔
      Recent es current svcName id ∧ id ≠ t.brokerId
  found : ∀ k svcName, (∃ id, id ≠ t.brokerId ∧ Recent es current svcName id) →
    findSvcExistTree (directoryAt t root es current k) svcName ≠ none
  refused : ∀ k, countExpired current (es.foldl treeStep (.leaf root)) ≤ k → ∀ svcName,
    findSvcExistTree (directoryAt t root es current k) svcName = none ↔
      ∀ id, id ≠ t.brokerId → ¬ Recent es current svcName id

/-- **No peer that was heard of in the last three seconds is lost from the directory**, however
many turns the timer takes; and after as many as there are expired nodes the directory lists
those, and a service is refused when none of them has it. -/
theorem directory_fresh (t : BrokerThread) (root : NodeDataSmall) {es : List TreeStep}
    (h : Punctual es) {current : Time} (hlast : Past es current) : Tracks t root es current := by
  have hkept : ∀ k svcName id, Recent es current svcName id → id ≠ t.brokerId →
      Offers (directoryAt t root es current k) svcName id :=
    fun k _ _ hrecent hid => offers_of_recent h hlast hrecent hid k
  have hexact : ∀ k, countExpired current (es.foldl treeStep (.leaf root)) ≤ k → ∀ svcName id,
      Offers (directoryAt t root es current k) svcName id ↔
        Recent es current svcName id ∧ id ≠ t.brokerId :=
    fun k hk svcName id => ⟨fun hoffers => ⟨recent_of_offers h hk hoffers, hoffers.1⟩,
      fun hboth => hkept k svcName id hboth.1 hboth.2⟩
  refine ⟨hkept, hexact, fun k svcName hpeer hnone => ?_, fun k hk svcName => ?_⟩
  · obtain ⟨id, hid, hrecent⟩ := hpeer
    exact (findSvcExistTree_none _ _).mp hnone id (hkept k svcName id hrecent hid)
  · rw [findSvcExistTree_none]
    refine forall_congr' fun id => ?_
    rw [hexact k hk]
    exact ⟨fun hnot hid hrecent => hnot ⟨hrecent, hid⟩, fun hall hboth => hall hboth.2 hboth.1⟩

/-- One of the two services was last heard of too long ago, and the other was not. -/
theorem directory_fresh_two_svcs :
    let t : BrokerThread := ⟨lit "10.0.0.2_broker_1", .leaf (smallRoot 99), In.holding [],
      ⟨.pipe, [], []⟩, ⟨.pub, [], []⟩, In.holding [], 0⟩
    Tracks t (smallRoot 99) twoSvcs 104 ∧
      findSvcExistTree (directoryAt t (smallRoot 99) twoSvcs 104 0) (lit "AHIF") ≠ none ∧
      findSvcExistTree (directoryAt t (smallRoot 99) twoSvcs 104 1) (lit "AHIF") = none ∧
      findSvcExistTree (directoryAt t (smallRoot 99) twoSvcs 104 1) (lit "SMSI")
        = some (lit "10.0.0.1_") := by
  have htimes : ([100, 102, 103] : List Time).Pairwise (· ≤ ·) := by decide
  have hpunctual : Punctual twoSvcs := ⟨by simp [twoSvcs, TreeStep.Steady], htimes⟩
  have hlast : Past twoSvcs 104 := by
    intro e he u hu
    simp only [twoSvcs, List.mem_cons, List.not_mem_nil, or_false] at he
    rcases he with rfl | rfl | rfl <;> cases hu <;> decide
  intro t
  exact ⟨directory_fresh t (smallRoot 99) hpunctual hlast, by decide +kernel, by decide +kernel,
    by decide +kernel⟩

end Hub

end Brocoli
