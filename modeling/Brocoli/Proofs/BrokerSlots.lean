/-
The slots of the hub are not lost.

The argument is the one for the slots of a broker.  A slot is taken for a host and
remembered by a node that is named after the broker, so it is lost when the hub already has
a node of that name: the node of another host's broker, or one that outlived its slot.
-/
import Brocoli.Lib.Runs
import Brocoli.Lib.Slots
import Brocoli.HubRegistry

namespace Brocoli.Hub

open CMem NTree Slots Runs

/-! ### Runs -/

/-- What happens at the hub: a registration is handled, the tree is swept, the thread of a
slot that was told to end ends. -/
inductive Step where
  | regi (svcRegi : MqRegi) (clock : Nat → Time)
  | sweep (current : Time)
  | threadEnd (brokerCtx : BrokerRef)

def step (s : Registry) : Step → Registry
  | .regi svcRegi clock => (chkSvcBroker s svcRegi clock).2
  | .sweep current => removetreeCallback s current
  | .threadEnd i => brokerThreadEnd s i

/-- Every slot in use is the slot of a broker node or is being released. -/
def NoOrphan (s : Registry) : Prop :=
  ∀ i, (s.brokerCtx i).used = true →
    (∃ d ∈ s.rootNode.flatten, d.nodeType = .broker ∧ d.brokerCtx = some i) ∨ i ∈ s.releasing

/-- A registration that would take a slot (its host has none and a slot is left) is from a
broker whose name has no node. -/
def Fresh (s : Registry) : Step → Prop
  | .regi svcRegi _ =>
      (∀ i, (s.brokerCtx i).used = true → (s.brokerCtx i).brokerHost ≠ svcRegi.brokerHost) →
      (∃ i, (s.brokerCtx i).used = false) →
      ∀ c ∈ s.rootNode.children, c.data.name ≠ svcRegi.brokerName
  | _ => True

/-! ### The invariant -/

def Used (s : Registry) (i : BrokerRef) : Prop := (s.brokerCtx i).used = true

theorem Takes.not_used {s : Registry} {svcRegi : MqRegi} {i : BrokerRef} (h : Takes s svcRegi i) :
    ¬ Used s i := by simp [Used, h.free]

/-- The broker nodes, sorted by name, refer to the slots in use that are not being
released. -/
structure Owned (s : Registry) : Prop where
  shallow : Shallow NodeData.releases s.rootNode
  sorted : SortedBy NodeData.name s.rootNode.children
  balanced : Balanced (Used s) (s.rootNode.refs NodeData.releases) s.releasing

theorem releases_eq_some {d : NodeData} {i : BrokerRef} :
    d.releases = some i ↔ d.nodeType = .broker ∧ d.brokerCtx = some i := by
  unfold NodeData.releases
  by_cases h : d.nodeType = .broker
  · simp [h]
  · simp [h]

theorem noOrphan_iff_covered (s : Registry) :
    NoOrphan s ↔ Covered (Used s) (s.rootNode.refs NodeData.releases) s.releasing := by
  simp only [NoOrphan, Covered, Used, mem_refs, releases_eq_some]

theorem Owned.noOrphan {s : Registry} (h : Owned s) : NoOrphan s :=
  (noOrphan_iff_covered s).mpr h.balanced.covered

theorem owned_init (now : Time) : Owned (initRegistry now) where
  shallow := ⟨rfl, by intro c hc; exact absurd hc (by simp [initRegistry, Node.leaf])⟩
  sorted := List.Pairwise.nil
  balanced := by
    have hrefs : (initRegistry now).rootNode.refs NodeData.releases = [] := by
      simp [initRegistry, Node.refs, Node.leaf, NodeData.releases, newNode]
    rw [hrefs]
    exact ⟨List.nodup_nil, fun i => by simp [Used, initRegistry, BrokerCtx.zero]⟩

/-! ### The tree -/

theorem releases_updateNodeInfo (svcRegi : MqRegi) (now : Time) (d : NodeData) :
    (updateNodeInfo svcRegi now d).releases = d.releases := rfl

theorem name_updateNodeInfo (svcRegi : MqRegi) (now : Time) (d : NodeData) :
    (updateNodeInfo svcRegi now d).name = d.name := rfl

/-- A broker node is found by name and updated, or inserted; a slot given for it is referred
to only when it is inserted. -/
theorem chkTree_broker {rootNode : Node NodeData} (h : Shallow NodeData.releases rootNode)
    (hs : SortedBy NodeData.name rootNode.children) (svcRegi : MqRegi)
    (newBroker : Option BrokerRef) (now : Time) :
    Shallow NodeData.releases (chkTree rootNode svcRegi .broker newBroker now) ∧
      SortedBy NodeData.name (chkTree rootNode svcRegi .broker newBroker now).children ∧
      ((∃ c ∈ rootNode.children, c.data.name = svcRegi.brokerName) →
        (chkTree rootNode svcRegi .broker newBroker now).refs NodeData.releases
          = rootNode.refs NodeData.releases) ∧
      ((∀ c ∈ rootNode.children, c.data.name ≠ svcRegi.brokerName) →
        ((chkTree rootNode svcRegi .broker newBroker now).refs NodeData.releases).Perm
          (newBroker.toList ++ rootNode.refs NodeData.releases)) := by
  have htree : chkTree rootNode svcRegi .broker newBroker now
      = rootNode.upsert NodeData.name svcRegi.brokerName (updateNodeInfo svcRegi now)
          (newNode .broker svcRegi newBroker now) := placeNode_foreach _ _ _ _ _
  have hupd := releases_updateNodeInfo svcRegi now
  rw [htree]
  refine ⟨shallow_upsert h, ?_, refs_upsert_of_mem h hs hupd, refs_upsert_of_notMem h hs⟩
  exact sortedBy_upsertAll hs (name_updateNodeInfo svcRegi now) rfl

theorem noRefs_placeSvc (findBroker : ChkTreeArg) (svcRegi : MqRegi) (now : Time)
    {brokerNode : Node NodeData} (h : NoRefs NodeData.releases brokerNode.children) :
    NoRefs NodeData.releases
      (placeSvc findBroker svcRegi (newNode .svc svcRegi none now) now brokerNode).children :=
  noRefs_placeNode findBroker.sameNodeExist h (releases_updateNodeInfo svcRegi now) rfl

theorem placeProc_data (findBroker : ChkTreeArg) (svcRegi : MqRegi) (new : NodeData) (now : Time)
    (brokerNode : Node NodeData) :
    (placeProc findBroker svcRegi new now brokerNode).data = brokerNode.data := by
  simp only [placeProc]
  cases (searchBelow svcRegi .svc findBroker brokerNode).findNode <;> rfl

theorem noRefs_placeProc (findBroker : ChkTreeArg) (svcRegi : MqRegi) (now : Time)
    {brokerNode : Node NodeData} (h : NoRefs NodeData.releases brokerNode.children) :
    NoRefs NodeData.releases
      (placeProc findBroker svcRegi (newNode .proc svcRegi none now) now brokerNode).children := by
  simp only [placeProc]
  set findSvc := searchBelow svcRegi .svc findBroker brokerNode
  cases findSvc.findNode with
  | none => exact h
  | some j =>
      refine noRefs_modify (fun c hc => ?_) j h
      obtain ⟨hdata, hbelow, -⟩ := noRefs_cons.mp hc
      refine noRefs_cons.mpr ⟨?_, ?_, noRefs_nil _⟩
      · rw [placeNode_data]
        exact hdata
      · exact noRefs_placeNode findSvc.sameNodeExist hbelow
          (releases_updateNodeInfo svcRegi now) rfl

/-- Service and process nodes go below a broker node, and the broker nodes stay what they
are. -/
theorem chkTree_below {rootNode : Node NodeData} (h : Shallow NodeData.releases rootNode)
    (svcRegi : MqRegi) {type : NodeType} (htype : type = .svc ∨ type = .proc) (now : Time) :
    Shallow NodeData.releases (chkTree rootNode svcRegi type none now) ∧
      (chkTree rootNode svcRegi type none now).refs NodeData.releases
        = rootNode.refs NodeData.releases ∧
      (chkTree rootNode svcRegi type none now).children.map Node.data
        = rootNode.children.map Node.data := by
  simp only [chkTree]
  set findBroker := rootNode.foreach (chkTreeCallback svcRegi .broker) ChkTreeArg.zero
  rcases htype with rfl | rfl
  · cases findBroker.findNode with
    | none => exact ⟨h, rfl, rfl⟩
    | some i =>
        have hdata : ∀ c, (placeSvc findBroker svcRegi (newNode .svc svcRegi none now) now c).data
            = c.data := fun c => placeNode_data _ _ _ c
        obtain ⟨hshallow, hrefs⟩ := shallow_modifyChild h i hdata fun c hc =>
          noRefs_placeSvc findBroker svcRegi now hc
        exact ⟨hshallow, hrefs, map_data_modify hdata rootNode.children i⟩
  · cases findBroker.findNode with
    | none => exact ⟨h, rfl, rfl⟩
    | some i =>
        have hdata := placeProc_data findBroker svcRegi (newNode .proc svcRegi none now) now
        obtain ⟨hshallow, hrefs⟩ := shallow_modifyChild h i hdata fun c hc =>
          noRefs_placeProc findBroker svcRegi now hc
        exact ⟨hshallow, hrefs, map_data_modify hdata rootNode.children i⟩

/-! ### The slots -/

/-- A slot that is taken is in use from then on. -/
theorem used_afterTake (s : Registry) (svcRegi : MqRegi) (clock : Nat → Time) (i j : BrokerRef) :
    Used (afterTake s svcRegi clock i) j ↔ j = i ∨ Used s j := by
  by_cases hj : j = i
  · simp [Used, afterTake, hj, setBrokerSlot]
  · simp [Used, afterTake, hj]

/-- A slot whose thread has ended is not in use, and the others stay what they are. -/
theorem used_brokerThreadEnd {s : Registry} {i j : BrokerRef} (hj : Used (brokerThreadEnd s i) j) :
    Used s j ∧ (brokerThreadEnd s i).brokerCtx j = s.brokerCtx j := by
  unfold brokerThreadEnd at hj ⊢
  by_cases hi : i ∈ s.releasing
  · rw [if_pos hi] at hj ⊢
    by_cases hji : j = i
    · exact absurd hj (by simp [Used, hji, BrokerCtx.zero])
    · exact ⟨by simpa [Used, hji] using hj, by simp [hji]⟩
  · rw [if_neg hi] at hj ⊢
    exact ⟨hj, rfl⟩

/-- A registration that takes no slot is fresh. -/
theorem fresh_of_served {s : Registry} {svcRegi : MqRegi} {i : BrokerRef}
    (hserves : Serves s svcRegi i) (clock : Nat → Time) : Fresh s (.regi svcRegi clock) :=
  fun hnone => absurd hserves.2 (hnone i hserves.1)

/-! ### What one step preserves -/

/-- A registration for a slot that is there changes no reference. -/
theorem owned_hit {s : Registry} (h : Owned s) (svcRegi : MqRegi) (clock : Nat → Time) :
    Owned (afterHit s svcRegi clock) := by
  obtain ⟨hshallow, hsorted, hmem, hnot⟩ :=
    chkTree_broker h.shallow h.sorted svcRegi none (clock 0)
  obtain ⟨hshallow', hrefs, hdata⟩ := chkTree_below hshallow svcRegi (Or.inl rfl) (clock 1)
  obtain ⟨hshallow'', hrefs', hdata'⟩ := chkTree_below hshallow' svcRegi (Or.inr rfl) (clock 2)
  refine ⟨hshallow'', sortedBy_of_data hsorted (hdata'.trans hdata), ?_⟩
  show Balanced (Used s) _ s.releasing
  rw [afterHit, hrefs', hrefs]
  by_cases hname : ∃ c ∈ s.rootNode.children, c.data.name = svcRegi.brokerName
  · rw [hmem hname]
    exact h.balanced
  · have hperm := hnot fun c hc heq => hname ⟨c, hc, heq⟩
    exact h.balanced.perm (hperm.symm.append_right _)

/-- A slot taken for a broker whose name has no node is referred to by its new node. -/
theorem owned_take {s : Registry} (h : Owned s) {svcRegi : MqRegi} {i : BrokerRef}
    (htakes : Takes s svcRegi i)
    (hfresh : ∀ c ∈ s.rootNode.children, c.data.name ≠ svcRegi.brokerName)
    (clock : Nat → Time) : Owned (afterTake s svcRegi clock i) := by
  obtain ⟨hshallow, hsorted, -, hnot⟩ :=
    chkTree_broker h.shallow h.sorted svcRegi (some i) (clock 0)
  refine ⟨hshallow, hsorted, ?_⟩
  exact h.balanced.take htakes.not_used (used_afterTake s svcRegi clock i) (hnot hfresh)

/-- A slot taken for a broker whose name has a node is lost. -/
theorem orphan_take {s : Registry} (h : Owned s) {svcRegi : MqRegi} {i : BrokerRef}
    (htakes : Takes s svcRegi i)
    (hstale : ∃ c ∈ s.rootNode.children, c.data.name = svcRegi.brokerName)
    (clock : Nat → Time) : ¬ NoOrphan (afterTake s svcRegi clock i) := by
  obtain ⟨-, -, hmem, -⟩ := chkTree_broker h.shallow h.sorted svcRegi (some i) (clock 0)
  have hused := (used_afterTake s svcRegi clock i i).mpr (Or.inl rfl)
  rw [noOrphan_iff_covered]
  show ¬ Covered _ ((chkTree s.rootNode svcRegi .broker (some i) (clock 0)).refs _) s.releasing
  rw [hmem hstale]
  exact h.balanced.lost htakes.not_used hused

/-- The references of the nodes a sweep removes are the slots it has released. -/
theorem owned_sweep {s : Registry} (h : Owned s) (current : Time) :
    Owned (removetreeCallback s current) := by
  set dead : NodeData → Bool := fun d => tmchkNoresp < current - d.hbRcvTime with hdead
  have hperm := (refs_sweep h.shallow dead).append_right s.releasing
  refine ⟨shallow_sweep h.shallow dead, sortedBy_sweep h.sorted dead _, ?_⟩
  refine h.balanced.perm (hperm.trans ?_)
  rw [List.append_assoc]
  exact List.perm_append_comm.append_left _

theorem owned_threadEnd {s : Registry} (h : Owned s) (i : BrokerRef) :
    Owned (brokerThreadEnd s i) := by
  unfold brokerThreadEnd
  by_cases hi : i ∈ s.releasing
  · rw [if_pos hi]
    refine ⟨h.shallow, h.sorted, h.balanced.release (List.perm_cons_erase hi) fun j => ?_⟩
    by_cases hj : j = i
    · simp [Used, BrokerCtx.zero, hj]
    · simp [Used, hj]
  · rw [if_neg hi]
    exact h

/-! ### Runs -/

/-- **One step keeps the invariant when it is fresh, and loses a slot when it is not.** -/
theorem step_owned {s : Registry} (h : Owned s) (e : Step) :
    (Fresh s e → Owned (step s e)) ∧ (¬ Fresh s e → ¬ NoOrphan (step s e)) := by
  cases e with
  | sweep current => exact ⟨fun _ => owned_sweep h current, fun hn => absurd trivial hn⟩
  | threadEnd i => exact ⟨fun _ => owned_threadEnd h i, fun hn => absurd trivial hn⟩
  | regi svcRegi clock =>
      rw [step]
      rcases chkSvcBroker_cases s svcRegi clock with ⟨i, htakes, heq⟩ | ⟨i, hhits, heq⟩ |
        ⟨hrefused, heq⟩
      · rw [heq]
        refine ⟨fun hfresh => ?_, fun hstale => ?_⟩
        · exact owned_take h htakes (hfresh htakes.host ⟨i, htakes.free⟩) clock
        · refine orphan_take h htakes ?_ clock
          by_contra hno
          exact hstale fun _ _ c hc hname => hno ⟨c, hc, hname⟩
      · have hfresh := fresh_of_served hhits.serves clock
        rw [heq]
        exact ⟨fun _ => owned_hit h svcRegi clock, fun hstale => absurd hfresh hstale⟩
      · have hfresh : Fresh s (.regi svcRegi clock) := by
          rcases hrefused with ⟨i, hserves⟩ | hall
          · exact fresh_of_served hserves clock
          · rintro - ⟨i, hi⟩
            exact absurd (hall i) (by simp [hi])
        rw [heq]
        exact ⟨fun _ => h, fun hstale => absurd hfresh hstale⟩

/-- **Starting from an empty hub, no slot is ever lost exactly when every registration that
takes a slot is from a broker whose name has no node.** -/
theorem broker_slots_iff (now : Time) (es : List Step) :
    (∀ t ∈ states step (initRegistry now) es, NoOrphan t) ↔
      AllSteps step Fresh (initRegistry now) es := by
  have hgood : ∀ s, Owned s → NoOrphan s := fun _ h => h.noOrphan
  exact states_good_iff hgood (fun _ e h => step_owned h e) es (owned_init now)

/-! ### One slot a host -/

/-- The slots in use have different hosts. -/
def HostsApart (s : Registry) : Prop :=
  ∀ i j, Used s i → Used s j → (s.brokerCtx i).brokerHost = (s.brokerCtx j).brokerHost → i = j

/-- The names of the broker fit their arrays. -/
def Step.Fits : Step → Prop
  | .regi svcRegi _ => svcRegi.brokerHost.length < 24 ∧ svcRegi.brokerName.length < 48
  | _ => True

theorem brokerHost_setBrokerSlot {svcRegi : MqRegi} (hhost : svcRegi.brokerHost.length < 24)
    (hname : svcRegi.brokerName.length < 48) (id : Nat) (b : BrokerCtx) :
    (setBrokerSlot id svcRegi b).brokerHost = svcRegi.brokerHost := by
  have hsize := b.names.size
  have hid := length_brokerIdOf svcRegi
  show cstr ((store (store (store b.names.mem 96 (svcRegi.brokerHost ++ [0])) 48
    (svcRegi.brokerName ++ [0])) 0 (brokerIdOf svcRegi ++ [0])).drop 96) = _
  rw [drop_store (by simp [hid]; omega) (by simp [hid, hsize]; omega),
    drop_store (by simp; omega) (by simp [hsize]; omega)]
  exact cstr_drop_store (zero_notMem_cstr _) (by rw [hsize]; omega)

theorem hostsApart_step {s : Registry} (h : HostsApart s) {e : Step} (he : e.Fits) :
    HostsApart (step s e) := by
  cases e with
  | sweep current => exact h
  | threadEnd k =>
      refine Apart.anti h fun i hi => ?_
      obtain ⟨hused, hsame⟩ := used_brokerThreadEnd hi
      exact ⟨hused, congrArg BrokerCtx.brokerHost hsame⟩
  | regi svcRegi clock =>
      rw [step]
      rcases chkSvcBroker_cases s svcRegi clock with ⟨k, htakes, heq⟩ | ⟨k, -, heq⟩ | ⟨-, heq⟩
      · have hnew := brokerHost_setBrokerSlot he.1 he.2 k (s.brokerCtx k)
        rw [heq]
        refine Apart.take h (fun j => (used_afterTake s svcRegi clock k j).mp) (fun j hj => ?_)
          fun j hj => ?_
        · simp [afterTake, hj]
        · simp only [afterTake, Function.update_self, hnew]
          exact htakes.host j hj
      · rw [heq]
        exact h
      · rw [heq]
        exact h

/-- **No two threads of the hub are for brokers with the same address.** -/
theorem hosts_apart (now : Time) {es : List Step} (h : ∀ e ∈ es, e.Fits) :
    ∀ s ∈ states step (initRegistry now) es, HostsApart s := by
  have hsteps : AllSteps step (fun _ e => e.Fits) (initRegistry now) es := AllSteps.of_forall h _
  refine states_inv (fun s e hs he => hostsApart_step hs he) es ?_ hsteps
  intro i j hi
  exact absurd hi (by simp [Used, initRegistry, BrokerCtx.zero])

/-! ### A slot that is lost -/

/-- A slot in use that is neither referred to nor being released is an orphan. -/
theorem not_noOrphan {s : Registry} {i : BrokerRef} (hused : (s.brokerCtx i).used = true)
    (hnode : ∀ d ∈ s.rootNode.flatten, d.brokerCtx ≠ some i) (hrel : i ∉ s.releasing) :
    ¬ NoOrphan s := by
  intro h
  rcases h i hused with ⟨d, hd, -, hi⟩ | hreleasing
  · exact hnode d hd hi
  · exact hrel hreleasing

/-- A registration of the broker `broker_77` on this host. -/
def brokerAt (host : Str) : MqRegi :=
  (MqRegi.zero.setBrokerHost host).setBrokerName (lit "broker_77")

/-- Two hosts run a broker as process 77; the slot of the second is in use, but the node of
that name refers to the slot of the first and nothing is being released. -/
theorem slot_lost_second_host :
    ¬ ∀ t ∈ states step (initRegistry 0)
        [.regi (brokerAt (lit "10.0.0.1")) fun _ => 0,
          .regi (brokerAt (lit "10.0.0.2")) fun _ => 0], NoOrphan t := by
  intro h
  refine not_noOrphan (i := ⟨1, by decide⟩) ?_ ?_ ?_
    (h _ (List.mem_cons_of_mem _ (List.mem_cons_of_mem _ List.mem_cons_self)))
  · decide +kernel
  · decide +kernel
  · decide +kernel

end Brocoli.Hub
