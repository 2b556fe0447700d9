/-
The small tree of a hub thread is a directory of who serves what.

A registration finds its broker, or adds it behind the others, and does the same with its
service below the broker; the timer drops what has expired.  So a broker is in the tree once,
and a service below it once, each with the time it was last heard of; and as nothing ever
changes places, a search from the front finds the broker that has been there longest.
-/
import Brocoli.Lib.Keyed
import Brocoli.HubThread

namespace Brocoli

open CMem Multipart NTree Runs Arrivals Keyed Hub

/-- What changes a small tree: a registration is heard, or the thread's timer is due. -/
inductive TreeStep where
  | regi (svcRegi : MqRegi) (now now' : Time)
  | sweep (current : Time)

def treeStep (rootNode : Node NodeDataSmall) : TreeStep → Node NodeDataSmall
  | .regi svcRegi now now' => chkSmallTree rootNode svcRegi now now'
  | .sweep current => removeSmalltreeCallback rootNode current

namespace Hub

/-- A registration, and the clock when it gets to the broker and to the service. -/
structure Notice where
  svcRegi : MqRegi
  now : Time
  now' : Time

namespace Notice

def broker (n : Notice) : Str := brokerIdOf n.svcRegi
def svc (n : Notice) : Str := n.svcRegi.tagSvc

/-- The service, with the broker. -/
def place (n : Notice) : Str × Str := (n.broker, n.svc)

end Notice

def notice? : TreeStep → Option Notice
  | .regi svcRegi now now' => some ⟨svcRegi, now, now'⟩
  | .sweep _ => none

/-- The registrations that have been heard. -/
def notices (es : List TreeStep) : List Notice := es.filterMap notice?

def brokerIds (rootNode : Node NodeDataSmall) : List Str :=
  rootNode.children.map fun b => b.data.brokerId

def svcNames (brokerNode : Node NodeDataSmall) : List Str :=
  brokerNode.children.map fun c => c.data.svcExist

/-- **In the order of brokers nothing changes places.** -/
theorem queued_treeStep (rootNode : Node NodeDataSmall) (e : TreeStep) :
    Queued (brokerIds rootNode) (brokerIds (treeStep rootNode e)) := by
  cases e with
  | regi svcRegi now now' =>
      rw [treeStep, chkSmallTree_eq, brokerIds, brokerIds, children_mk]
      apply queued_findOrAdd
      · intro b
        rw [touch_data]
        rfl
      · rw [touch_data]
        rfl
  | sweep current =>
      have hsub := (removeFirst_sublist current rootNode.children).map NodeDataSmall.brokerId
      rw [List.map_map, List.map_map] at hsub
      exact Or.inl hsub

/-! ### Times -/

/-- The services below a broker are there once, with the time of their last registration. -/
structure SvcsNoted (ns : List Notice) (brokerNode : Node NodeDataSmall) : Prop where
  once : (svcNames brokerNode).Nodup
  time : ∀ c ∈ brokerNode.children,
    (about Notice.place (brokerNode.data.brokerId, c.data.svcExist) ns).getLast?.map Notice.now'
      = some c.data.hbRcvTime

/-- A broker has the time of its last registration, and so have its services. -/
structure Noted (ns : List Notice) (brokerNode : Node NodeDataSmall) : Prop where
  time : (about Notice.broker brokerNode.data.brokerId ns).getLast?.map Notice.now
    = some brokerNode.data.hbRcvTime
  svcs : SvcsNoted ns brokerNode

theorem notices_regi (es : List TreeStep) (svcRegi : MqRegi) (now now' : Time) :
    notices (es ++ [.regi svcRegi now now']) = notices es ++ [⟨svcRegi, now, now'⟩] := by
  rw [notices, List.filterMap_append]
  rfl

theorem notices_sweep (es : List TreeStep) (current : Time) :
    notices (es ++ [.sweep current]) = notices es := by
  rw [notices, List.filterMap_append]
  exact List.append_nil _

/-- A registration of another broker changes nothing. -/
theorem Noted.other {ns : List Notice} {b : Node NodeDataSmall} (h : Noted ns b) {n : Notice}
    (hne : b.data.brokerId ≠ n.broker) : Noted (ns ++ [n]) b where
  time := by
    rw [about_append_other fun heq => hne heq.symm]
    exact h.time
  svcs := by
    refine ⟨h.svcs.once, fun c hc => ?_⟩
    have hplace : n.place ≠ (b.data.brokerId, c.data.svcExist) := fun heq =>
      hne (congrArg Prod.fst heq).symm
    rw [about_append_other hplace]
    exact h.svcs.time c hc

/-- A registration of the broker gives it, and its service, the time. -/
theorem noted_touch {ns : List Notice} {b : Node NodeDataSmall} (h : SvcsNoted ns b) {n : Notice}
    (hid : b.data.brokerId = n.broker) (htime : b.data.hbRcvTime = n.now) :
    Noted (ns ++ [n]) (touch (fun d => d.svcExist == n.svc) (newNodeSmall n.svcRegi .svc n.now')
      b) := by
  refine ⟨?_, ?_, fun c hc => ?_⟩
  · rw [touch_data, about_append_self hid.symm, htime]
    simp
  · rw [svcNames, touch_eq, children_mk]
    refine Queued.nodup ?_ h.once
    apply queued_findOrAdd
    · exact fun _ => rfl
    · rfl
  · rw [touch_data]
    rw [touch_eq] at hc
    have hself : ∀ c : Node NodeDataSmall, c.data.svcExist = n.svc → c.data.hbRcvTime = n.now' →
        (about Notice.place (b.data.brokerId, c.data.svcExist) (ns ++ [n])).getLast?.map
          Notice.now' = some c.data.hbRcvTime := by
      intro c hsvc hnow
      have hplace : n.place = (b.data.brokerId, c.data.svcExist) := by
        rw [Notice.place, hid, hsvc]
      rw [about_append_self hplace, hnow]
      simp
    rcases mem_findOrAdd_key h.once hc with ⟨hc, hne⟩ | ⟨d, hd, hsvc, rfl⟩ | rfl
    · have hother : n.place ≠ (b.data.brokerId, c.data.svcExist) := fun heq =>
        hne (congrArg Prod.snd heq).symm
      rw [about_append_other hother]
      exact h.time c hc
    · exact hself _ hsvc rfl
    · exact hself _ rfl rfl

theorem svcsNoted_leaf (ns : List Notice) (d : NodeDataSmall) : SvcsNoted ns (.leaf d) :=
  ⟨List.nodup_nil, fun _ hc => absurd hc List.not_mem_nil⟩

/-- The time of the broker itself does not matter. -/
theorem SvcsNoted.heardAt {ns : List Notice} {b : Node NodeDataSmall} (h : SvcsNoted ns b)
    {now : Time} : SvcsNoted ns (b.mapData (NodeDataSmall.heardAt now)) := ⟨h.once, h.time⟩

/-- **One step keeps the times.** -/
theorem noted_treeStep {es : List TreeStep} {rootNode : Node NodeDataSmall}
    (honce : (brokerIds rootNode).Nodup) (h : ∀ b ∈ rootNode.children, Noted (notices es) b)
    (e : TreeStep) : ∀ b ∈ (treeStep rootNode e).children, Noted (notices (es ++ [e])) b := by
  intro b hb
  cases e with
  | regi svcRegi now now' =>
      rw [notices_regi]
      rw [treeStep, chkSmallTree_eq, children_mk] at hb
      rcases mem_findOrAdd_key honce hb with ⟨hb, hne⟩ | ⟨d, hd, hid, rfl⟩ | rfl
      · exact (h b hb).other hne
      · exact noted_touch (h d hd).svcs.heardAt hid rfl
      · exact noted_touch (svcsNoted_leaf _ _) rfl rfl
  | sweep current =>
      rw [notices_sweep]
      obtain ⟨d, hd, hdata, hsub⟩ := mem_removeFirst hb
      have hnoted := h d hd
      refine ⟨hdata ▸ hnoted.time, ?_, fun c hc => ?_⟩
      · exact hnoted.svcs.once.sublist (hsub.map _)
      · rw [hdata]
        exact hnoted.svcs.time c (hsub.subset hc)

theorem noted_run (root : NodeDataSmall) (es : List TreeStep) :
    ∀ b ∈ (es.foldl treeStep (.leaf root)).children, Noted (notices es) b := by
  induction es using List.reverseRecOn with
  | nil => exact fun b hb => absurd hb List.not_mem_nil
  | append_singleton es e ih =>
      rw [List.foldl_append]
      exact noted_treeStep (nodup_run queued_treeStep rfl es) ih e

/-! ### Looking a service up -/

/-- A broker other than the thread's own has the service. -/
def Offers (t : BrokerThread) (svcName id : Str) : Prop :=
  id ≠ t.brokerId ∧ ∃ b ∈ t.rootNode.children, b.data.brokerId = id ∧
    ∃ c ∈ b.children, c.data.svcExist = svcName

/-- The test of the loops. -/
theorem offers_iff {t : BrokerThread} {svcName id : Str} : Offers t svcName id ↔
    ∃ b ∈ t.rootNode.children, b.data.brokerId = id ∧
      (b.data.brokerId != t.brokerId && b.children.any fun c => svcName == c.data.svcExist)
        = true := by
  constructor
  · rintro ⟨hne, b, hb, rfl, c, hc, rfl⟩
    refine ⟨b, hb, rfl, ?_⟩
    rw [Bool.and_eq_true, bne_iff_ne, List.any_eq_true]
    exact ⟨hne, c, hc, beq_self_eq_true _⟩
  · rintro ⟨b, hb, rfl, htest⟩
    rw [Bool.and_eq_true, bne_iff_ne, List.any_eq_true] at htest
    obtain ⟨hne, c, hc, hsvc⟩ := htest
    exact ⟨hne, b, hb, rfl, c, hc, (beq_iff_eq.mp hsvc).symm⟩

theorem findSvcExistTree_none (t : BrokerThread) (svcName : Str) :
    findSvcExistTree t svcName = none ↔ ∀ id, ¬ Offers t svcName id := by
  rw [findSvcExistTree, Option.map_eq_none_iff, List.find?_eq_none]
  constructor
  · intro h id hoffers
    obtain ⟨b, hb, -, htest⟩ := offers_iff.mp hoffers
    exact h b hb htest
  · intro h b hb htest
    exact h b.data.brokerId (offers_iff.mpr ⟨b, hb, rfl, htest⟩)

/-- **What is found comes first** among the brokers that have the service. -/
theorem findSvcExistTree_first {t : BrokerThread} {R : Str → Str → Prop}
    (h : (brokerIds t.rootNode).Pairwise R) {svcName id : Str}
    (hfind : findSvcExistTree t svcName = some id) :
    Offers t svcName id ∧ ∀ id', Offers t svcName id' → id' ≠ id → R id id' := by
  obtain ⟨b, hb, rfl⟩ := Option.map_eq_some_iff.mp hfind
  obtain ⟨htest, a, rest, hcs, ha⟩ := List.find?_eq_some_iff_append.mp hb
  refine ⟨offers_iff.mpr ⟨b, List.mem_of_find?_eq_some hb, rfl, htest⟩, fun id' hoffers hne => ?_⟩
  obtain ⟨b', hb', rfl, htest'⟩ := offers_iff.mp hoffers
  rw [brokerIds, hcs, List.map_append, List.map_cons, List.pairwise_append] at h
  rw [hcs] at hb'
  rcases List.mem_append.mp hb' with hb' | hb'
  · have hnot := ha b' hb'
    rw [htest'] at hnot
    exact absurd hnot (by decide)
  · rcases List.mem_cons.mp hb' with rfl | hb'
    · exact absurd rfl hne
    · exact (List.pairwise_cons.mp h.2.1).1 _ (List.mem_map_of_mem hb')

/-! ### The directory -/

/-- The tree of a thread after some registrations and ticks.  A node is made by a registration
that names it, so the last one of all is the last since. -/
structure Exact (root : NodeDataSmall) (es : List TreeStep) (t : BrokerThread) : Prop where
  brokers_once : (brokerIds t.rootNode).Nodup
  svcs_once : ∀ b ∈ t.rootNode.children, (svcNames b).Nodup
  brokerTime : ∀ b ∈ t.rootNode.children,
    (about Notice.broker b.data.brokerId (notices es)).getLast?.map Notice.now
      = some b.data.hbRcvTime
  svcTime : ∀ b ∈ t.rootNode.children, ∀ c ∈ b.children,
    (about Notice.place (b.data.brokerId, c.data.svcExist) (notices es)).getLast?.map Notice.now'
      = some c.data.hbRcvTime
  inserted : ∀ b ∈ t.rootNode.children,
    ∃ i, Arrived treeStep brokerIds (.leaf root) es b.data.brokerId i
  nothing : ∀ svcName, findSvcExistTree t svcName = none ↔ ∀ id, ¬ Offers t svcName id
  earliest : ∀ svcName id, findSvcExistTree t svcName = some id → Offers t svcName id ∧
    ∀ id', Offers t svcName id' → id' ≠ id → Before treeStep brokerIds (.leaf root) es id id'

/-- **The directory is exact**, whatever a thread hears and drops: nodes are there once, with
the time of their last registration, and a service is looked up at another broker, the one
that has been there longest, if there is any. -/
theorem directory_exact (t : BrokerThread) (root : NodeDataSmall) (es : List TreeStep) :
    Exact root es { t with rootNode := es.foldl treeStep (.leaf root) } where
  brokers_once := nodup_run queued_treeStep rfl es
  svcs_once b hb := (noted_run root es b hb).svcs.once
  brokerTime b hb := (noted_run root es b hb).time
  svcTime b hb := (noted_run root es b hb).svcs.time
  inserted _ hb := arrived_run rfl (List.mem_map_of_mem hb)
  nothing svcName := findSvcExistTree_none _ svcName
  earliest _ _ hfind := findSvcExistTree_first (before_run queued_treeStep rfl es) hfind

end Hub

end Brocoli
