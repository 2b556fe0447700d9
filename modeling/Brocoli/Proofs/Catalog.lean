/-
The tree of the broker is a map of registrations.

A service has what its last registration says, and each of its processes what the last one
of the process says.  But the first registration of a service is about the service alone:
it takes a slot, and the process it comes from has to register again to be listed.  And the
first one of a process makes its node, the counters are only taken over when it is updated.

So of the order of registrations it only matters, for the names, which one came first for
each service.
-/
import Mathlib.Data.List.Dedup
import Brocoli.Lib.Keyed
import Brocoli.Proofs.ServicePorts
import Brocoli.Proofs.TreeOrder

namespace Brocoli.Broker

open CMem NTree Slots Runs Keyed

/-- A registration and the time it is handled at. -/
structure Heard where
  svcRegi : MqRegi
  now : Time

namespace Heard

def svc (r : Heard) : Str := r.svcRegi.tagSvc
def proc (r : Heard) : Str := r.svcRegi.tagName

end Heard

/-- A registration is handled while the clock stands still. -/
def hear (s : Registry) (r : Heard) : Registry := chkSvcDealer s r.svcRegi fun _ => r.now

/-! ### What the registrations say -/

structure ProcRecord where
  hbRcvTime : Time
  sndrcv : MqSndrcv

structure SvcRecord where
  hbRcvTime : Time
  procs : Str → Option ProcRecord

def procRecord (old : Option ProcRecord) (r : Heard) : ProcRecord where
  hbRcvTime := r.now
  sndrcv :=
    match old with
    | none => MqSndrcv.zero
    | some _ => r.svcRegi.sndrcv

def svcRecord (old : Option SvcRecord) (r : Heard) : SvcRecord where
  hbRcvTime := r.now
  procs :=
    match old with
    | none => fun _ => none
    | some v => put Heard.proc procRecord v.procs r

/-- The map of services, each with the map of its processes. -/
def catalog (rs : List Heard) : Str → Option SvcRecord := build Heard.svc svcRecord rs

def viewProc (procNode : Node NodeData) : ProcRecord :=
  ⟨procNode.data.hbRcvTime, procNode.data.sndrcv⟩

/-- What a tree has of a service. -/
def viewSvc (svcNode : Node NodeData) : SvcRecord where
  hbRcvTime := svcNode.data.hbRcvTime
  procs p := (child NodeData.name p svcNode).map viewProc

def view (rootNode : Node NodeData) (s : Str) : Option SvcRecord :=
  (child NodeData.name s rootNode).map viewSvc

/-- A service that is not there yet gets a node and no process. -/
theorem view_take {rootNode : Node NodeData} (hs : SortedBy NodeData.name rootNode.children)
    {r : Heard} (hnew : view rootNode r.svc = none) (newSvc : Option SvcRef) :
    view (enter NodeData.name [svcEntry r.svcRegi newSvc r.now] rootNode)
      = put Heard.svc svcRecord (view rootNode) r := by
  have hnone : child NodeData.name r.svc rootNode = none := Option.map_eq_none_iff.mp hnew
  funext s
  by_cases hsvc : s = r.svc
  · have hself := child_enter_fresh (e := svcEntry r.svcRegi newSvc r.now) hs rfl (fun _ => rfl)
      [] hnone
    rw [hsvc, put_self, hnew]
    exact congrArg (Option.map viewSvc) hself
  · rw [put_other _ hsvc]
    exact congrArg (Option.map viewSvc) (child_enter_other hs rfl (fun _ => rfl) [] hsvc)

/-- The process of a registration is listed below its service, or updated there. -/
theorem viewSvc_enter {svcNode : Node NodeData} (hs : SortedBy NodeData.name svcNode.children)
    (r : Heard) :
    viewSvc (enter NodeData.name [procEntry r.svcRegi r.now]
        (svcNode.mapData (updateNodeInfo r.svcRegi r.now)))
      = svcRecord (some (viewSvc svcNode)) r := by
  have hprocs : (viewSvc (enter NodeData.name [procEntry r.svcRegi r.now]
        (svcNode.mapData (updateNodeInfo r.svcRegi r.now)))).procs
      = put Heard.proc procRecord (viewSvc svcNode).procs r := by
    funext p
    by_cases hp : p = r.proc
    · rw [hp, put_self]
      cases hchild : child NodeData.name r.proc svcNode with
      | none =>
          have hself := child_enter_fresh (e := procEntry r.svcRegi r.now)
            (n := svcNode.mapData (updateNodeInfo r.svcRegi r.now)) hs rfl (fun _ => rfl) [] hchild
          simp only [viewSvc, hchild]
          exact congrArg (Option.map _) hself
      | some procNode =>
          have hself := child_enter_found (e := procEntry r.svcRegi r.now)
            (n := svcNode.mapData (updateNodeInfo r.svcRegi r.now)) hs rfl (fun _ => rfl) [] hchild
          simp only [viewSvc, hchild]
          exact congrArg (Option.map _) hself
    · rw [put_other _ hp]
      exact congrArg (Option.map _) (child_enter_other (e := procEntry r.svcRegi r.now)
        (n := svcNode.mapData (updateNodeInfo r.svcRegi r.now)) hs rfl (fun _ => rfl) [] hp)
  rw [svcRecord, ← hprocs]
  rfl

theorem viewSvc_procs (svcNode : Node NodeData) (p : Str) :
    (viewSvc svcNode).procs p = (child NodeData.name p svcNode).map viewProc := rfl

theorem view_hit {rootNode : Node NodeData}
    (hbelow : Ranked NodeData.name NodeData.nodeType levels rootNode) {r : Heard}
    (hold : view rootNode r.svc ≠ none) :
    view (enter NodeData.name [svcEntry r.svcRegi none r.now, procEntry r.svcRegi r.now] rootNode)
      = put Heard.svc svcRecord (view rootNode) r := by
  obtain ⟨v, hv⟩ := Option.ne_none_iff_exists'.mp hold
  obtain ⟨c, hc, rfl⟩ := Option.map_eq_some_iff.mp hv
  funext s
  by_cases hsvc : s = r.svc
  · have hself := child_enter_found (e := svcEntry r.svcRegi none r.now) hbelow.1 rfl
      (fun _ => rfl) [procEntry r.svcRegi r.now] hc
    have hsorted : SortedBy NodeData.name c.children := (hbelow.2 c (child_some hc).1).2.1
    rw [hsvc, put_self, hv, ← viewSvc_enter hsorted]
    exact congrArg (Option.map viewSvc) hself
  · rw [put_other _ hsvc]
    exact congrArg (Option.map viewSvc) (child_enter_other hbelow.1 rfl (fun _ => rfl) _ hsvc)

/-! ### What the slots say -/

/-- Each service uses one decade of ports of its own, and there is a slot for each. -/
structure Regular (rs : List Heard) : Prop where
  decade : ∀ r ∈ rs, ∀ r' ∈ rs,
    r.svc = r'.svc ↔ r.svcRegi.port.tdiv 10 = r'.svcRegi.port.tdiv 10
  few : (rs.map Heard.svc).dedup.length ≤ maxSvcNum

theorem Regular.targetPort_iff {rs : List Heard} (h : Regular rs) {r r' : Heard} (hr : r ∈ rs)
    (hr' : r' ∈ rs) : targetPort r.svcRegi = targetPort r'.svcRegi ↔ r.svc = r'.svc := by
  rw [targetPort_eq, targetPort_eq, h.decade r hr r' hr']
  omega

theorem length_dedup_le_of_subset {xs ys : List Str} (hn : xs.Nodup) (h : xs ⊆ ys) :
    xs.length ≤ ys.dedup.length := by
  have hsub : xs ⊆ ys.dedup := fun x hx => List.mem_dedup.mpr (h hx)
  exact (List.subperm_of_subset hn hsub).length_le

theorem Regular.subset {rs rs' : List Heard} (h : Regular rs) (hsub : rs' ⊆ rs) : Regular rs' where
  decade r hr r' hr' := h.decade r (hsub hr) r' (hsub hr')
  few := by
    have hmap : (rs'.map Heard.svc).dedup ⊆ rs.map Heard.svc := fun x hx =>
      List.map_subset _ hsub (List.mem_dedup.mp hx)
    exact (length_dedup_le_of_subset (List.nodup_dedup _) hmap).trans h.few

/-- The registry is what has been heard: each service has a slot, with its port, and there
are no other slots in use; and the tree is the map. -/
structure Keeps (rs : List Heard) (s : Registry) : Prop where
  ordered : Ordered s
  ports : PortsApart s
  slot : ∀ r ∈ rs, ∃ i, Hits s r.svcRegi i
  heard : ∀ i, Used s i → ∃ r ∈ rs, Hits s r.svcRegi i
  tree : view s.rootNode = catalog rs

theorem keeps_init (hostname : Str) (now : Time) : Keeps [] (initRegistry hostname now) where
  ordered := ordered_init hostname now
  ports := portsApart_init hostname now
  slot _ hr := absurd hr List.not_mem_nil
  heard i hi := absurd hi (by simp [Used, initRegistry, SvcCtx.zero])
  tree := rfl

theorem hits_congr {s s' : Registry} {svcRegi : MqRegi} {i : SvcRef}
    (h : s'.svcCtx i = s.svcCtx i) (hits : Hits s svcRegi i) : Hits s' svcRegi i :=
  ⟨h ▸ hits.used, h ▸ hits.port, h ▸ hits.name⟩

/-- Two services are not in one slot. -/
theorem svc_of_hits {s : Registry} {r r' : Heard} {i : SvcRef} (h : Hits s r.svcRegi i)
    (h' : Hits s r'.svcRegi i) : r.svc = r'.svc := h.name.symm.trans h'.name

/-- **When all slots are in use each is that of another service**, so there is none to come. -/
theorem Keeps.full {rs : List Heard} {s : Registry} (h : Keeps rs s) (hall : ∀ i, Used s i)
    {r : Heard} (hreg : Regular (rs ++ [r])) : ∃ r' ∈ rs, r'.svc = r.svc := by
  by_contra hnot
  have hnone : ∀ r' ∈ rs, r'.svc ≠ r.svc := fun r' hr' hsvc => hnot ⟨r', hr', hsvc⟩
  choose f hmem hits using fun i => h.heard i (hall i)
  have hinj : Function.Injective fun i => (f i).svc := by
    intro i j hij
    have hport := (hreg.targetPort_iff (List.mem_append_left _ (hmem i))
      (List.mem_append_left _ (hmem j))).mpr hij
    exact h.ports.apart i j (hall i) (hall j) ((hits i).port.trans (hport.trans (hits j).port.symm))
  have hnodup : (r.svc :: (List.finRange maxSvcNum).map fun i => (f i).svc).Nodup := by
    refine List.nodup_cons.mpr ⟨fun hr => ?_, (List.nodup_finRange _).map hinj⟩
    obtain ⟨i, -, hi⟩ := List.mem_map.mp hr
    exact hnone (f i) (hmem i) hi
  have hsub : r.svc :: ((List.finRange maxSvcNum).map fun i => (f i).svc)
      ⊆ (rs ++ [r]).map Heard.svc := by
    refine List.cons_subset.mpr ⟨by simp, fun x hx => ?_⟩
    obtain ⟨i, -, rfl⟩ := List.mem_map.mp hx
    exact List.mem_map_of_mem (List.mem_append_left _ (hmem i))
  have hle := (length_dedup_le_of_subset hnodup hsub).trans hreg.few
  rw [List.length_cons, List.length_map, List.length_finRange] at hle
  omega

/-- A service is in the map once it was heard of. -/
theorem catalog_ne_none {rs : List Heard} {s : Str} :
    catalog rs s ≠ none ↔ ∃ r ∈ rs, r.svc = s := by
  rw [catalog, Ne, build_none]
  constructor
  · intro h
    obtain ⟨r, hr⟩ := List.exists_mem_of_ne_nil _ h
    exact ⟨r, mem_about.mp hr⟩
  · rintro ⟨r, hr⟩ hnil
    exact List.not_mem_nil (hnil ▸ mem_about.mpr hr)

/-- A service that was heard of has its slot, under the port of the registration. -/
theorem Keeps.hits {rs : List Heard} {s : Registry} (h : Keeps rs s) {r r' : Heard}
    (hreg : Regular (rs ++ [r])) (hr' : r' ∈ rs) (hsvc : r'.svc = r.svc) :
    ∃ j, Hits s r.svcRegi j := by
  obtain ⟨j, hj⟩ := h.slot r' hr'
  have hport : targetPort r'.svcRegi = targetPort r.svcRegi :=
    (hreg.targetPort_iff (List.mem_append_left _ hr') (by simp)).mpr hsvc
  exact ⟨j, hj.used, hj.port.trans hport, hj.name.trans hsvc⟩

/-- No registration is refused. -/
theorem Keeps.not_refused {rs : List Heard} {s : Registry} (h : Keeps rs s) {r : Heard}
    (hreg : Regular (rs ++ [r])) : ¬ Refused s r.svcRegi := by
  rintro (⟨i, hused, hport, hname⟩ | ⟨hnone, hall⟩)
  · obtain ⟨r', hr', hhits⟩ := h.heard i hused
    have hsvc : r'.svc = r.svc := (hreg.targetPort_iff (List.mem_append_left _ hr') (by simp)).mp
      (hhits.port.symm.trans hport)
    exact hname (hhits.name.trans hsvc)
  · obtain ⟨r', hr', hsvc⟩ := h.full hall hreg
    obtain ⟨j, hj⟩ := h.hits hreg hr' hsvc
    exact hnone j hj.used hj.port

/-- Nobody has the port, so nothing was heard of the service. -/
theorem Keeps.view_none {rs : List Heard} {s : Registry} (h : Keeps rs s) {r : Heard}
    (hreg : Regular (rs ++ [r])) {i : SvcRef} (htakes : Takes s r.svcRegi i) :
    view s.rootNode r.svc = none := by
  by_contra hold
  rw [h.tree] at hold
  obtain ⟨r', hr', hsvc⟩ := catalog_ne_none.mp hold
  obtain ⟨j, hj⟩ := h.hits hreg hr' hsvc
  exact htakes.port j hj.used hj.port

/-- The slot with the port is that of the service, which was heard of. -/
theorem Keeps.view_some {rs : List Heard} {s : Registry} (h : Keeps rs s) {r : Heard}
    {i : SvcRef} (hhits : Hits s r.svcRegi i) : view s.rootNode r.svc ≠ none := by
  obtain ⟨r', hr', hhits'⟩ := h.heard i hhits.used
  rw [h.tree]
  exact catalog_ne_none.mpr ⟨r', hr', svc_of_hits hhits' hhits⟩

theorem keeps_take {rs : List Heard} {s : Registry} (h : Keeps rs s) {r : Heard}
    (hreg : Regular (rs ++ [r])) {i : SvcRef} (htakes : Takes s r.svcRegi i)
    (heq : hear s r = afterTake s r.svcRegi (fun _ => r.now) i) : Keeps (rs ++ [r]) (hear s r) := by
  have hself : Hits (hear s r) r.svcRegi i := by
    rw [heq]
    exact ⟨by simp [setSvcSlot], by simp [setSvcSlot, targetPort], by simp [setSvcSlot]⟩
  have hother : ∀ {j : SvcRef}, j ≠ i → (hear s r).svcCtx j = s.svcCtx j := by
    intro j hj
    rw [heq]
    exact afterTake_other s r.svcRegi _ hj
  refine ⟨ordered_step h.ordered (.regi r.svcRegi fun _ => r.now),
    portsApart_step h.ports (.regi r.svcRegi fun _ => r.now), fun r' hr' => ?_, fun j hj => ?_, ?_⟩
  · rcases List.mem_append.mp hr' with hr' | hr'
    · obtain ⟨j, hj⟩ := h.slot r' hr'
      have hji : j ≠ i := by
        rintro rfl
        exact absurd hj.used (by simp [htakes.free])
      exact ⟨j, hits_congr (hother hji) hj⟩
    · rw [List.mem_singleton.mp hr']
      exact ⟨i, hself⟩
  · by_cases hji : j = i
    · exact ⟨r, by simp, hji ▸ hself⟩
    · have hused : Used s j := by rwa [Used, ← hother hji]
      obtain ⟨r', hr', hhits⟩ := h.heard j hused
      exact ⟨r', List.mem_append_left _ hr', hits_congr (hother hji) hhits⟩
  · rw [heq, afterTake_rootNode, takePath, catalog, build_append_singleton, ← catalog, ← h.tree]
    exact view_take h.ordered.below.1 (h.view_none hreg htakes) (some i)

theorem keeps_hit {rs : List Heard} {s : Registry} (h : Keeps rs s) {r : Heard} {i : SvcRef}
    (hhits : Hits s r.svcRegi i) (heq : hear s r = afterHit s r.svcRegi fun _ => r.now) :
    Keeps (rs ++ [r]) (hear s r) := by
  have hslots : ∀ j, (hear s r).svcCtx j = s.svcCtx j := by
    intro j
    rw [heq]
    rfl
  refine ⟨ordered_step h.ordered (.regi r.svcRegi fun _ => r.now),
    portsApart_step h.ports (.regi r.svcRegi fun _ => r.now), fun r' hr' => ?_, fun j hj => ?_, ?_⟩
  · rcases List.mem_append.mp hr' with hr' | hr'
    · obtain ⟨j, hj⟩ := h.slot r' hr'
      exact ⟨j, hits_congr (hslots j) hj⟩
    · rw [List.mem_singleton.mp hr']
      exact ⟨i, hits_congr (hslots i) hhits⟩
  · have hused : Used s j := by rwa [Used, ← hslots j]
    obtain ⟨r', hr', hj'⟩ := h.heard j hused
    exact ⟨r', List.mem_append_left _ hr', hits_congr (hslots j) hj'⟩
  · rw [heq, afterHit_rootNode h.ordered, hitPath, catalog, build_append_singleton, ← catalog,
      ← h.tree]
    exact view_hit h.ordered.below (h.view_some hhits)

/-- **One registration.** -/
theorem keeps_hear {rs : List Heard} {s : Registry} (h : Keeps rs s) {r : Heard}
    (hreg : Regular (rs ++ [r])) : Keeps (rs ++ [r]) (hear s r) := by
  rcases chkSvcDealer_cases s r.svcRegi fun _ => r.now with
    ⟨i, htakes, heq⟩ | ⟨i, hhits, heq⟩ | ⟨hrefused, -⟩
  · exact keeps_take h hreg htakes heq
  · exact keeps_hit h hhits heq
  · exact absurd hrefused (h.not_refused hreg)

/-- **The tree refines the map**, in every run. -/
theorem keeps_run (hostname : Str) (now : Time) {rs : List Heard} (h : Regular rs) :
    Keeps rs (rs.foldl hear (initRegistry hostname now)) := by
  induction rs using List.reverseRecOn with
  | nil => exact keeps_init hostname now
  | append_singleton rs r ih =>
      rw [List.foldl_append]
      exact keeps_hear (ih (h.subset (List.subset_append_left _ _))) h

/-! ### What the tree lists -/

/-- The registrations of a service. -/
def forSvc (rs : List Heard) (s : Str) : List Heard := about Heard.svc s rs

/-- The registrations of a process, after the first one of its service. -/
def forProc (rs : List Heard) (s p : Str) : List Heard := about Heard.proc p (forSvc rs s).tail

/-- The counters of the last registration, if that is not the only one. -/
def lastCounters (rs : List Heard) : MqSndrcv :=
  match rs.tail.getLast? with
  | none => MqSndrcv.zero
  | some r => r.svcRegi.sndrcv

/-- The tree lists the registrations: which services and processes there are, each once, when
they were last heard of, and what their counters were then. -/
structure Listed (rs : List Heard) (rootNode : Node NodeData) : Prop where
  services : ∀ s, (∃ c ∈ rootNode.children, c.data.name = s) ↔ ∃ r ∈ rs, r.svc = s
  services_once : (rootNode.children.map fun c => c.data.name).Nodup
  svcTime : ∀ c ∈ rootNode.children,
    (forSvc rs c.data.name).getLast?.map Heard.now = some c.data.hbRcvTime
  procs : ∀ c ∈ rootNode.children, ∀ p,
    (∃ q ∈ c.children, q.data.name = p) ↔ ∃ r ∈ (forSvc rs c.data.name).tail, r.proc = p
  procs_once : ∀ c ∈ rootNode.children, (c.children.map fun q => q.data.name).Nodup
  procTime : ∀ c ∈ rootNode.children, ∀ q ∈ c.children,
    (forProc rs c.data.name q.data.name).getLast?.map Heard.now = some q.data.hbRcvTime
  counters : ∀ c ∈ rootNode.children, ∀ q ∈ c.children,
    q.data.sndrcv = lastCounters (forProc rs c.data.name q.data.name)
  leaves : ∀ c ∈ rootNode.children, ∀ q ∈ c.children, q.children = []

theorem tail_append_singleton {rs : List Heard} (h : rs ≠ []) (r : Heard) :
    (rs ++ [r]).tail = rs.tail ++ [r] := List.tail_append_of_ne_nil h

/-- The processes of a service are built from its registrations after the first. -/
theorem procs_entry : ∀ {rs : List Heard} {v : SvcRecord}, entry svcRecord none rs = some v →
    v.procs = build Heard.proc procRecord rs.tail := by
  intro rs
  induction rs using List.reverseRecOn with
  | nil => intro v h; exact absurd h (by simp [entry])
  | append_singleton rs r ih =>
      intro v h
      rw [entry_append_singleton] at h
      obtain rfl := Option.some.inj h
      cases hrs : entry svcRecord none rs with
      | none =>
          obtain rfl := entry_none.mp hrs
          rfl
      | some w =>
          have hne : rs ≠ [] := by
            rintro rfl
            exact absurd hrs (by simp [entry])
          rw [tail_append_singleton hne, build_append_singleton, ← ih hrs]
          rfl

theorem counters_entry : ∀ {rs : List Heard} {v : ProcRecord},
    entry procRecord none rs = some v → v.sndrcv = lastCounters rs := by
  intro rs
  induction rs using List.reverseRecOn with
  | nil => intro v h; exact absurd h (by simp [entry])
  | append_singleton rs r _ =>
      intro v h
      rw [entry_append_singleton] at h
      obtain rfl := Option.some.inj h
      cases hrs : entry procRecord none rs with
      | none =>
          obtain rfl := entry_none.mp hrs
          rfl
      | some w =>
          have hne : rs ≠ [] := by
            rintro rfl
            exact absurd hrs (by simp [entry])
          simp [procRecord, lastCounters, tail_append_singleton hne]

theorem listed {rs : List Heard} {s : Registry} (h : Keeps rs s) : Listed rs s.rootNode := by
  have hsorted := h.ordered.below.1
  have hbelow : ∀ c ∈ s.rootNode.children, SortedBy NodeData.name c.children := fun c hc =>
    (h.ordered.below.2 c hc).2.1
  have hsvc : ∀ c ∈ s.rootNode.children,
      entry svcRecord none (forSvc rs c.data.name) = some (viewSvc c) := by
    intro c hc
    rw [forSvc, ← build_apply, ← catalog, ← h.tree, view, child_of_mem hsorted hc]
    rfl
  have hprocs : ∀ c ∈ s.rootNode.children, ∀ p,
      entry procRecord none (forProc rs c.data.name p) = (viewSvc c).procs p := by
    intro c hc p
    rw [procs_entry (hsvc c hc), build_apply, forProc]
  have hproc : ∀ c ∈ s.rootNode.children, ∀ q ∈ c.children,
      entry procRecord none (forProc rs c.data.name q.data.name) = some (viewProc q) := by
    intro c hc q hq
    rw [hprocs c hc, viewSvc_procs, child_of_mem (hbelow c hc) hq]
    rfl
  refine ⟨fun x => ?_, nodup_keys hsorted, fun c hc => ?_, fun c hc p => ?_,
    fun c hc => nodup_keys (hbelow c hc), fun c hc q hq => ?_, fun c hc q hq => ?_,
    fun c hc q hq => ((h.ordered.below.2 c hc).2.2 q hq).2⟩
  · rw [← catalog_ne_none, ← h.tree, view, Ne, Option.map_eq_none_iff, child_none]
    push Not
    rfl
  · rw [← map_entry_last (f := svcRecord) (g := SvcRecord.hbRcvTime) (fun _ _ => rfl), hsvc c hc]
    rfl
  · have hiff : (viewSvc c).procs p ≠ none ↔ ∃ r ∈ (forSvc rs c.data.name).tail, r.proc = p := by
      rw [← hprocs c hc p, Ne, entry_none, forProc]
      constructor
      · intro hne
        obtain ⟨r, hr⟩ := List.exists_mem_of_ne_nil _ hne
        exact ⟨r, mem_about.mp hr⟩
      · rintro ⟨r, hr⟩ hnil
        exact List.not_mem_nil (hnil ▸ mem_about.mpr hr)
    rw [← hiff, viewSvc_procs, Ne, Option.map_eq_none_iff, child_none]
    push Not
    rfl
  · rw [← map_entry_last (f := procRecord) (g := ProcRecord.hbRcvTime) (fun _ _ => rfl),
      hproc c hc q hq]
    rfl
  · exact counters_entry (hproc c hc q hq)

/-! ### The order of registrations -/

/-- The process the first registration of a service comes from. -/
def firstProc (rs : List Heard) (s : Str) : Option Str := (forSvc rs s).head?.map Heard.proc

/-- Two trees have the same services, and below them the same processes. -/
structure SameNames (t t' : Node NodeData) : Prop where
  services : ∀ s, (∃ c ∈ t.children, c.data.name = s) ↔ ∃ c ∈ t'.children, c.data.name = s
  procs : ∀ s p, (∃ c ∈ t.children, c.data.name = s ∧ ∃ q ∈ c.children, q.data.name = p) ↔
    ∃ c ∈ t'.children, c.data.name = s ∧ ∃ q ∈ c.children, q.data.name = p

theorem Listed.proc_iff {rs : List Heard} {t : Node NodeData} (h : Listed rs t) (s p : Str) :
    (∃ c ∈ t.children, c.data.name = s ∧ ∃ q ∈ c.children, q.data.name = p) ↔
      p ∈ (forSvc rs s).tail.map Heard.proc := by
  rw [List.mem_map]
  constructor
  · rintro ⟨c, hc, rfl, hq⟩
    exact (h.procs c hc p).mp hq
  · rintro ⟨r, hr, hp⟩
    have hmem : ∃ r ∈ rs, r.svc = s := ⟨r, mem_about.mp (List.mem_of_mem_tail hr)⟩
    obtain ⟨c, hc, rfl⟩ := (h.services s).mpr hmem
    exact ⟨c, hc, rfl, (h.procs c hc p).mpr ⟨r, hr, hp⟩⟩

theorem tail_procs_perm {l l' : List Heard} (h : l.Perm l')
    (hfirst : l'.head?.map Heard.proc = l.head?.map Heard.proc) :
    (l.tail.map Heard.proc).Perm (l'.tail.map Heard.proc) := by
  cases l with
  | nil =>
      obtain rfl := List.nil_perm.mp h
      exact List.Perm.nil
  | cons r l =>
      cases l' with
      | nil => exact absurd h.length_eq (by simp)
      | cons r' l' =>
          have hsame : r'.proc = r.proc := Option.some.inj hfirst
          have hmap := h.map Heard.proc
          rw [List.map_cons, List.map_cons, hsame] at hmap
          exact hmap.cons_inv

theorem sameNames_of_perm {rs rs' : List Heard} {t t' : Node NodeData} (h : Listed rs t)
    (h' : Listed rs' t') (hperm : rs.Perm rs') (hfirst : ∀ s, firstProc rs' s = firstProc rs s) :
    SameNames t t' where
  services s := by
    rw [h.services, h'.services]
    exact exists_congr fun r => and_congr_left fun _ => hperm.mem_iff
  procs s p := by
    rw [h.proc_iff, h'.proc_iff]
    exact (tail_procs_perm (about_perm hperm s) (hfirst s)).mem_iff

/-- **The tree lists what was registered**, and as far as the names go it depends on the order
only through the process that registered first for each service. -/
theorem tree_lists_registrations (hostname : Str) (now : Time) {rs : List Heard}
    (h : Regular rs) :
    Listed rs (rs.foldl hear (initRegistry hostname now)).rootNode ∧
      ∀ rs' : List Heard, rs.Perm rs' → (∀ s, firstProc rs' s = firstProc rs s) →
        SameNames (rs.foldl hear (initRegistry hostname now)).rootNode
          (rs'.foldl hear (initRegistry hostname now)).rootNode := by
  have hlisted := listed (keeps_run hostname now h)
  refine ⟨hlisted, fun rs' hperm hfirst => ?_⟩
  have h' : Regular rs' := h.subset hperm.symm.subset
  exact sameNames_of_perm hlisted (listed (keeps_run hostname now h')) hperm hfirst

/-- `AHIF` twice and `SMSI` in between. -/
def twoServices : List Heard :=
  [⟨ahifAt 5003, 100⟩, ⟨smsiAt 6001, 101⟩, ⟨ahifAt 5004, 103⟩]

/-- It does not matter for the names that `SMSI` comes before `AHIF`. -/
theorem tree_lists_two_services :
    Listed twoServices (twoServices.foldl hear (initRegistry (lit "host") 99)).rootNode ∧
      SameNames (twoServices.foldl hear (initRegistry (lit "host") 99)).rootNode
        ([⟨smsiAt 6001, 101⟩, ⟨ahifAt 5003, 100⟩, ⟨ahifAt 5004, 103⟩].foldl hear
          (initRegistry (lit "host") 99)).rootNode := by
  have hregular : Regular twoServices := ⟨by decide +kernel, by decide +kernel⟩
  have h := tree_lists_registrations (lit "host") 99 hregular
  refine ⟨h.1, h.2 _ (List.Perm.swap _ _ _) fun s => ?_⟩
  have hne : Heard.svc ⟨smsiAt 6001, 101⟩ ≠ Heard.svc ⟨ahifAt 5003, 100⟩ := by decide +kernel
  rw [firstProc, firstProc, forSvc, forSvc, twoServices, about_swap hne]

end Brocoli.Broker
