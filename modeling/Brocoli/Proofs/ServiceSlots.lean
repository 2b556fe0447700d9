/-
The slots of a broker are not lost.

A slot in use is given back by the service thread once the node that refers to it has been
swept.  So it is lost when no node refers to it and no release of it is posted.  Sweeps and
releases never do that; a registration does, when it takes a slot for a service that
already has a node, because `chk_tree` then updates the node and drops the new slot.
-/
import Brocoli.Lib.Runs
import Brocoli.Lib.Slots
import Brocoli.Registry

namespace Brocoli.Broker

open CMem NTree Slots Runs

/-! ### Runs -/

/-- What happens at a broker: a registration is handled, the tree is swept, the service
thread runs a callback. -/
inductive Step where
  | regi (svcRegi : MqRegi) (clock : Nat → Time)
  | sweep (current : Time)
  | deferred

def step (s : Registry) : Step → Registry
  | .regi svcRegi clock => chkSvcDealer s svcRegi clock
  | .sweep current => removetreeCallback s current
  | .deferred => runDeferred s

/-- Every slot in use is the slot of a service node or has its release posted. -/
def NoOrphan (s : Registry) : Prop :=
  ∀ i, (s.svcCtx i).used = true →
    (∃ d ∈ s.rootNode.flatten, d.nodeType = .svc ∧ d.svcCtx = some i) ∨ .svcRelease i ∈ s.evbase

/-- A registration that would take a slot (its port is not served and a slot is left) is for
a service that has no node. -/
def Fresh (s : Registry) : Step → Prop
  | .regi svcRegi _ =>
      (∀ i, (s.svcCtx i).used = true →
        (s.svcCtx i).svcStartPort ≠ toShort (svcRegi.port.tdiv 10 * 10)) →
      (∃ i, (s.svcCtx i).used = false) →
      ∀ c ∈ s.rootNode.children, c.data.name ≠ svcRegi.tagSvc
  | _ => True

/-! ### The invariant -/

def Used (s : Registry) (i : SvcRef) : Prop := (s.svcCtx i).used = true

theorem Takes.not_used {s : Registry} {svcRegi : MqRegi} {i : SvcRef} (h : Takes s svcRegi i) :
    ¬ Used s i := by simp [Used, h.free]

def Deferred.releases : Deferred → Option SvcRef
  | .svcRelease i => some i
  | .startSvcPolling _ => none

/-- The slots whose release is posted. -/
def waiting (s : Registry) : List SvcRef := s.evbase.filterMap Deferred.releases

/-- The service nodes, sorted by name, refer to the slots in use that are not waiting for
their release. -/
structure Owned (s : Registry) : Prop where
  shallow : Shallow NodeData.releases s.rootNode
  sorted : SortedBy NodeData.name s.rootNode.children
  balanced : Balanced (Used s) (s.rootNode.refs NodeData.releases) (waiting s)

theorem releases_eq_some {d : NodeData} {i : SvcRef} :
    d.releases = some i ↔ d.nodeType = .svc ∧ d.svcCtx = some i := by
  unfold NodeData.releases
  by_cases h : d.nodeType = .svc
  · simp [h]
  · simp [h]

theorem mem_waiting {s : Registry} {i : SvcRef} : i ∈ waiting s ↔ .svcRelease i ∈ s.evbase := by
  rw [waiting, List.mem_filterMap]
  constructor
  · rintro ⟨d, hd, hi⟩
    cases d with
    | startSvcPolling j => exact absurd hi (by simp [Deferred.releases])
    | svcRelease j =>
        have hj : j = i := by simpa [Deferred.releases] using hi
        exact hj ▸ hd
  · intro h
    exact ⟨_, h, rfl⟩

/-- The statement about nodes and callbacks is the one about held and waiting slots. -/
theorem noOrphan_iff_covered (s : Registry) :
    NoOrphan s ↔ Covered (Used s) (s.rootNode.refs NodeData.releases) (waiting s) := by
  simp only [NoOrphan, Covered, Used, mem_refs, releases_eq_some, mem_waiting]

theorem Owned.noOrphan {s : Registry} (h : Owned s) : NoOrphan s :=
  (noOrphan_iff_covered s).mpr h.balanced.covered

theorem owned_init (hostname : Str) (now : Time) : Owned (initRegistry hostname now) where
  shallow := ⟨rfl, by intro c hc; exact absurd hc (by simp [initRegistry, Node.leaf])⟩
  sorted := List.Pairwise.nil
  balanced := by
    have hrefs : (initRegistry hostname now).rootNode.refs NodeData.releases = [] := by
      simp [initRegistry, Node.refs, Node.leaf, NodeData.releases, newNode]
    rw [hrefs]
    exact ⟨List.nodup_nil, fun i => by simp [Used, initRegistry, SvcCtx.zero, waiting]⟩

/-! ### The tree -/

theorem releases_updateNodeInfo (svcRegi : MqRegi) (now : Time) (d : NodeData) :
    (updateNodeInfo svcRegi now d).releases = d.releases := rfl

theorem name_updateNodeInfo (svcRegi : MqRegi) (now : Time) (d : NodeData) :
    (updateNodeInfo svcRegi now d).name = d.name := rfl

/-- A service node is found by name and updated, or inserted; a slot given for it is
referred to only when it is inserted. -/
theorem chkTree_svc {rootNode : Node NodeData} (h : Shallow NodeData.releases rootNode)
    (hs : SortedBy NodeData.name rootNode.children) (svcRegi : MqRegi) (newSvc : Option SvcRef)
    (now : Time) :
    Shallow NodeData.releases (chkTree rootNode svcRegi .svc newSvc now) ∧
      SortedBy NodeData.name (chkTree rootNode svcRegi .svc newSvc now).children ∧
      ((∃ c ∈ rootNode.children, c.data.name = svcRegi.tagSvc) →
        (chkTree rootNode svcRegi .svc newSvc now).refs NodeData.releases
          = rootNode.refs NodeData.releases) ∧
      ((∀ c ∈ rootNode.children, c.data.name ≠ svcRegi.tagSvc) →
        ((chkTree rootNode svcRegi .svc newSvc now).refs NodeData.releases).Perm
          (newSvc.toList ++ rootNode.refs NodeData.releases)) := by
  have htree : chkTree rootNode svcRegi .svc newSvc now
      = rootNode.upsert NodeData.name svcRegi.tagSvc (updateNodeInfo svcRegi now)
          (newNode .svc svcRegi newSvc now) := placeNode_foreach _ _ _ _ _
  have hupd := releases_updateNodeInfo svcRegi now
  rw [htree]
  refine ⟨shallow_upsert h, ?_, refs_upsert_of_mem h hs hupd, refs_upsert_of_notMem h hs⟩
  exact sortedBy_upsertAll hs (name_updateNodeInfo svcRegi now) rfl

/-- A process node goes below a service node, and the service nodes stay what they are. -/
theorem chkTree_proc {rootNode : Node NodeData} (h : Shallow NodeData.releases rootNode)
    (svcRegi : MqRegi) (now : Time) :
    Shallow NodeData.releases (chkTree rootNode svcRegi .proc none now) ∧
      (chkTree rootNode svcRegi .proc none now).refs NodeData.releases
        = rootNode.refs NodeData.releases ∧
      (chkTree rootNode svcRegi .proc none now).children.map Node.data
        = rootNode.children.map Node.data := by
  simp only [chkTree]
  set findSvc := rootNode.foreach (chkTreeCallback svcRegi .svc) ChkTreeArg.zero
  cases findSvc.findNode with
  | none => exact ⟨h, rfl, rfl⟩
  | some i =>
      have hdata : ∀ c, (placeProc findSvc svcRegi (newNode .proc svcRegi none now) now c).data
          = c.data := fun c => placeNode_data _ _ _ c
      have hbelow : ∀ c : Node NodeData, NoRefs NodeData.releases c.children →
          NoRefs NodeData.releases
            (placeProc findSvc svcRegi (newNode .proc svcRegi none now) now c).children :=
        fun c hc => noRefs_placeNode findSvc.sameNodeExist hc
          (releases_updateNodeInfo svcRegi now) rfl
      obtain ⟨hshallow, hrefs⟩ := shallow_modifyChild h i hdata hbelow
      exact ⟨hshallow, hrefs, map_data_modify hdata rootNode.children i⟩

/-! ### The slots -/

/-- A slot that is taken is in use from then on. -/
theorem used_afterTake (s : Registry) (svcRegi : MqRegi) (clock : Nat → Time) (i j : SvcRef) :
    Used (afterTake s svcRegi clock i) j ↔ j = i ∨ Used s j := by
  by_cases hj : j = i
  · simp [Used, hj, setSvcSlot]
  · simp [Used, afterTake_other s svcRegi clock hj, hj]

/-- What is posted with it is no release. -/
theorem waiting_afterTake (s : Registry) (svcRegi : MqRegi) (clock : Nat → Time) (i : SvcRef) :
    waiting (afterTake s svcRegi clock i) = waiting s := by
  simp [waiting, afterTake, Deferred.releases]

/-- A registration that takes no slot is fresh. -/
theorem fresh_of_served {s : Registry} {svcRegi : MqRegi} {i : SvcRef}
    (hused : (s.svcCtx i).used = true) (hport : (s.svcCtx i).svcStartPort = targetPort svcRegi)
    (clock : Nat → Time) : Fresh s (.regi svcRegi clock) :=
  fun hnone => absurd hport (hnone i hused)

/-! ### What one step preserves -/

/-- A registration for a slot that is there changes no reference. -/
theorem owned_hit {s : Registry} (h : Owned s) (svcRegi : MqRegi) (clock : Nat → Time) :
    Owned (afterHit s svcRegi clock) := by
  obtain ⟨hshallow, hsorted, hmem, hnot⟩ := chkTree_svc h.shallow h.sorted svcRegi none (clock 0)
  obtain ⟨hshallow', hrefs, hdata⟩ := chkTree_proc hshallow svcRegi (clock 1)
  refine ⟨hshallow', sortedBy_of_data hsorted hdata, ?_⟩
  show Balanced (Used s) _ (waiting s)
  rw [afterHit, hrefs]
  by_cases hname : ∃ c ∈ s.rootNode.children, c.data.name = svcRegi.tagSvc
  · rw [hmem hname]
    exact h.balanced
  · have hperm := hnot fun c hc heq => hname ⟨c, hc, heq⟩
    exact h.balanced.perm (hperm.symm.append_right _)

/-- A slot taken for a service without a node is referred to by its new node. -/
theorem owned_take {s : Registry} (h : Owned s) {svcRegi : MqRegi} {i : SvcRef}
    (htakes : Takes s svcRegi i)
    (hfresh : ∀ c ∈ s.rootNode.children, c.data.name ≠ svcRegi.tagSvc) (clock : Nat → Time) :
    Owned (afterTake s svcRegi clock i) := by
  obtain ⟨hshallow, hsorted, -, hnot⟩ := chkTree_svc h.shallow h.sorted svcRegi (some i) (clock 0)
  refine ⟨hshallow, hsorted, ?_⟩
  rw [waiting_afterTake]
  exact h.balanced.take htakes.not_used (used_afterTake s svcRegi clock i) (hnot hfresh)

/-- A slot taken for a service that has a node is lost. -/
theorem orphan_take {s : Registry} (h : Owned s) {svcRegi : MqRegi} {i : SvcRef}
    (htakes : Takes s svcRegi i)
    (hstale : ∃ c ∈ s.rootNode.children, c.data.name = svcRegi.tagSvc) (clock : Nat → Time) :
    ¬ NoOrphan (afterTake s svcRegi clock i) := by
  obtain ⟨-, -, hmem, -⟩ := chkTree_svc h.shallow h.sorted svcRegi (some i) (clock 0)
  have hused := (used_afterTake s svcRegi clock i i).mpr (Or.inl rfl)
  rw [noOrphan_iff_covered, waiting_afterTake]
  show ¬ Covered _ ((chkTree s.rootNode svcRegi .svc (some i) (clock 0)).refs _) _
  rw [hmem hstale]
  exact h.balanced.lost htakes.not_used hused

/-- The references of the nodes a sweep removes are the releases it posts. -/
theorem owned_sweep {s : Registry} (h : Owned s) (current : Time) :
    Owned (removetreeCallback s current) := by
  set dead : NodeData → Bool := fun d => tmchkNoresp < current - d.hbRcvTime with hdead
  have hwait : waiting (removetreeCallback s current)
      = waiting s ++ (s.rootNode.sweep dead NodeData.releases).2 := by
    simp [waiting, removetreeCallback, List.filterMap_append, List.filterMap_map,
      Function.comp_def, Deferred.releases, hdead]
  have hperm := (refs_sweep h.shallow dead).append_right (waiting s)
  refine ⟨shallow_sweep h.shallow dead, sortedBy_sweep h.sorted dead _, ?_⟩
  show Balanced (Used s) _ _
  rw [hwait]
  refine h.balanced.perm (hperm.trans ?_)
  rw [List.append_assoc]
  exact List.perm_append_comm.append_left _

theorem owned_deferred {s : Registry} (h : Owned s) : Owned (runDeferred s) := by
  unfold runDeferred
  cases hq : s.evbase with
  | nil => exact h
  | cons d rest =>
      have hb := h.balanced
      cases d with
      | startSvcPolling i =>
          have hwait : waiting s = rest.filterMap Deferred.releases := by
            rw [waiting, hq]
            rfl
          rw [hwait] at hb
          refine ⟨h.shallow, h.sorted, hb.congr fun j => ?_⟩
          by_cases hj : j = i
          · simp [Used, startSvcPolling, hj]
          · simp [Used, startSvcPolling, hj]
      | svcRelease i =>
          have hwait : waiting s = i :: rest.filterMap Deferred.releases := by
            rw [waiting, hq]
            rfl
          refine ⟨h.shallow, h.sorted, hb.release (by rw [hwait]; rfl) fun j => ?_⟩
          by_cases hj : j = i
          · simp [Used, svcRelease, SvcCtx.zero, hj]
          · simp [Used, svcRelease, hj]

/-! ### Runs -/

/-- **One step keeps the invariant when it is fresh, and loses a slot when it is not.** -/
theorem step_owned {s : Registry} (h : Owned s) (e : Step) :
    (Fresh s e → Owned (step s e)) ∧ (¬ Fresh s e → ¬ NoOrphan (step s e)) := by
  cases e with
  | sweep current => exact ⟨fun _ => owned_sweep h current, fun hn => absurd trivial hn⟩
  | deferred => exact ⟨fun _ => owned_deferred h, fun hn => absurd trivial hn⟩
  | regi svcRegi clock =>
      rw [step]
      rcases chkSvcDealer_cases s svcRegi clock with ⟨i, htakes, heq⟩ | ⟨i, hhits, heq⟩ |
        ⟨hrefused, heq⟩
      · rw [heq]
        refine ⟨fun hfresh => ?_, fun hstale => ?_⟩
        · exact owned_take h htakes (hfresh htakes.port ⟨i, htakes.free⟩) clock
        · refine orphan_take h htakes ?_ clock
          by_contra hno
          exact hstale fun _ _ c hc hname => hno ⟨c, hc, hname⟩
      · have hfresh := fresh_of_served hhits.used hhits.port clock
        rw [heq]
        exact ⟨fun _ => owned_hit h svcRegi clock, fun hstale => absurd hfresh hstale⟩
      · have hfresh : Fresh s (.regi svcRegi clock) := by
          rcases hrefused with ⟨i, hused, hport, -⟩ | ⟨-, hall⟩
          · exact fresh_of_served hused hport clock
          · rintro - ⟨i, hi⟩
            exact absurd (hall i) (by simp [hi])
        rw [heq]
        exact ⟨fun _ => h, fun hstale => absurd hfresh hstale⟩

/-- **Starting from an empty broker, no slot is ever lost exactly when every registration
that takes a slot is for a service without a node.** -/
theorem service_slots_iff (hostname : Str) (now : Time) (es : List Step) :
    (∀ t ∈ states step (initRegistry hostname now) es, NoOrphan t) ↔
      AllSteps step Fresh (initRegistry hostname now) es := by
  have hgood : ∀ s, Owned s → NoOrphan s := fun _ h => h.noOrphan
  exact states_good_iff hgood (fun _ e h => step_owned h e) es (owned_init hostname now)

/-- A slot in use that is neither referred to nor waiting is an orphan. -/
theorem not_noOrphan {s : Registry} {i : SvcRef} (hused : (s.svcCtx i).used = true)
    (hnode : ∀ d ∈ s.rootNode.flatten, d.svcCtx ≠ some i) (hwait : .svcRelease i ∉ s.evbase) :
    ¬ NoOrphan s := by
  intro h
  rcases h i hused with ⟨d, hd, -, hi⟩ | hposted
  · exact hnode d hd hi
  · exact hwait hposted

/-- A process of the service `AHIF` with this port. -/
def ahifAt (port : Int) : MqRegi :=
  ((MqRegi.zero.setTagSvc (lit "AHIF")).setTagName (lit "ahif_12")).setPort port

/-- Slot 1, taken for the second port of `AHIF`, is in use, but the node of `AHIF` refers to
slot 0 and no release is posted. -/
theorem slot_lost_second_port :
    ¬ ∀ t ∈ states step (initRegistry (lit "host") 0)
        [.regi (ahifAt 5000) fun _ => 0, .regi (ahifAt 6000) fun _ => 0], NoOrphan t := by
  intro h
  refine not_noOrphan (i := ⟨1, by decide⟩) ?_ ?_ ?_
    (h _ (List.mem_cons_of_mem _ (List.mem_cons_of_mem _ List.mem_cons_self)))
  · decide +kernel
  · decide +kernel
  · decide +kernel

end Brocoli.Broker
