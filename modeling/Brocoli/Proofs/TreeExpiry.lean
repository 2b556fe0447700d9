/-
A sweep takes the nodes that were silent too long, and no other.

It looks at a node and, if that is silent, destroys it with everything below.  So it would
take a node that has just been heard of with one above it that was not.  That does not
happen, because a registration stamps every node on its path: no node is later than the one
above it.  The clock must not run backwards for that, nor move while a registration is
handled, as the nodes of a path are stamped from the top.
-/
import Brocoli.Proofs.TreeOrder

namespace Brocoli

open CMem NTree Slots Runs

/-! ### The broker -/

namespace Broker

/-- A run whose clock moves between its steps, and only forwards. -/
structure Timely (es : List Step) : Prop where
  steady : ∀ e ∈ es, e.Steady
  clocked : Clocked Step.time es

/-- The node has not been heard of for too long. -/
def silent (now : Time) (d : NodeData) : Bool := tmchkNoresp < now - d.hbRcvTime

theorem perishing_silent (now : Time) : Perishing NodeData.hbRcvTime (silent now) :=
  perishing_limit NodeData.hbRcvTime tmchkNoresp now

theorem step_quiet {s : Registry} {e : Step} (htime : e.time = none) :
    (step s e).rootNode = s.rootNode := by
  cases e with
  | sweep current => exact absurd htime (by simp [Step.time])
  | regi svcRegi clock => exact absurd htime (by simp [Step.time])
  | deferred => exact runDeferred_rootNode s

theorem aged_run (hostname : Str) (now : Time) {es : List Step} (h : Timely es) :
    ∀ s ∈ states step (initRegistry hostname now) es,
      ∃ t, Aged NodeData.hbRcvTime t s.rootNode := by
  have hkeep : ∀ s e, Ordered s → Ordered (step s e) := fun _ e hs => ordered_step hs e
  have htick : ∀ s (e : Step) u, Ordered s → e.Steady → e.time = some u →
      ∃ c : Change Str NodeData,
        (step s e).rootNode = c.apply NodeData.name NodeData.releases s.rootNode ∧
          c.MadeAt NodeData.hbRcvTime u := by
    intro s e u hs he hu
    obtain ⟨c, hc, -, -, hmade⟩ := step_change hs e
    exact ⟨c, hc, hmade u he hu⟩
  exact NTree.aged_run hkeep htick (fun _ _ _ hu => step_quiet hu) (ordered_init hostname now)
    (fun t => aged_leaf t _) h.steady h.clocked

/-- A node refers to a slot if it is of the type that does. -/
def SlotsByType (s : Registry) : Prop :=
  ∀ d ∈ flattenAll s.rootNode.children, d.releases = d.svcCtx

theorem slotsByType_run (hostname : Str) (now : Time) (es : List Step) :
    ∀ s ∈ states step (initRegistry hostname now) es, SlotsByType s := by
  have hkeep : ∀ s e, Ordered s ∧ SlotsByType s → Ordered (step s e) ∧ SlotsByType (step s e) := by
    intro s e h
    obtain ⟨c, hc, -, hrespects, -⟩ := step_change h.1 e
    refine ⟨ordered_step h.1 e, ?_⟩
    rw [SlotsByType, hc]
    exact Change.every_apply h.2 hrespects
  have hinit : SlotsByType (initRegistry hostname now) := fun d hd => absurd hd List.not_mem_nil
  exact fun s hs => (states_always hkeep es ⟨ordered_init hostname now, hinit⟩ s hs).2

/-- A sweep at any time takes the silent nodes and leaves the others in place, and posts a
release for each node it takes that has a slot; and no node is later than one above it. -/
structure SweepsExactly (s : Registry) : Prop where
  nodes : ∀ now, (removetreeCallback s now).rootNode.nodes
    = s.rootNode.nodes.filter fun l => !silent now l.2
  root : ∀ now, (removetreeCallback s now).rootNode.data = s.rootNode.data
  released : ∀ now, (removetreeCallback s now).evbase
    = s.evbase ++ ((s.rootNode.nodes.filter fun l => silent now l.2).filterMap
        fun l => l.2.svcCtx).map .svcRelease
  slots : ∀ now, (removetreeCallback s now).svcCtx = s.svcCtx
  aged : ∀ l ∈ s.rootNode.nodes, ∀ a ∈ l.1, l.2.hbRcvTime ≤ a.hbRcvTime

theorem Ordered.shallow {s : Registry} (h : Ordered s) :
    Shallow NodeData.releases s.rootNode := by
  refine shallow_of_ranked h.below ?_ fun d hd => ?_
  · simp [NodeData.releases, h.root]
  · have hproc : d.nodeType = .proc := by simpa using hd
    simp [NodeData.releases, hproc]

/-- A sweep hands on the slots of the nodes it takes. -/
theorem releases_of_sweep {s : Registry} (h : Ordered s) (hslots : SlotsByType s) (now : Time) :
    (s.rootNode.sweep (silent now) NodeData.releases).2
      = (s.rootNode.nodes.filter fun l => silent now l.2).filterMap fun l => l.2.svcCtx := by
  rw [refs_of_sweep (silent now) h.shallow]
  refine List.filterMap_congr fun l hl => hslots l.2 ?_
  rw [← map_snd_branchesAll s.rootNode.children []]
  exact List.mem_map_of_mem (List.mem_filter.mp hl).1

theorem sweepsExactly {t : Time} {s : Registry} (h : Ordered s)
    (haged : Aged NodeData.hbRcvTime t s.rootNode) (hslots : SlotsByType s) :
    SweepsExactly s where
  nodes now := nodes_sweep (perishing_silent now) NodeData.releases haged
  root _ := rfl
  released now := congrArg (fun l : List SvcRef => s.evbase ++ l.map Deferred.svcRelease)
    (releases_of_sweep h hslots now)
  slots _ := rfl
  aged := haged.up

end Broker

/-! ### The hub -/

namespace Hub

/-- A run whose clock moves between its steps, and only forwards. -/
structure Timely (es : List Step) : Prop where
  steady : ∀ e ∈ es, e.Steady
  clocked : Clocked Step.time es

/-- The node has not been heard of for too long. -/
def silent (now : Time) (d : NodeData) : Bool := tmchkNoresp < now - d.hbRcvTime

theorem perishing_silent (now : Time) : Perishing NodeData.hbRcvTime (silent now) :=
  perishing_limit NodeData.hbRcvTime tmchkNoresp now

theorem step_quiet {s : Registry} {e : Step} (htime : e.time = none) :
    (step s e).rootNode = s.rootNode := by
  cases e with
  | sweep current => exact absurd htime (by simp [Step.time])
  | regi svcRegi clock => exact absurd htime (by simp [Step.time])
  | threadEnd i => exact brokerThreadEnd_rootNode s i

theorem aged_run (now : Time) {es : List Step} (h : Timely es) :
    ∀ s ∈ states step (initRegistry now) es, ∃ t, Aged NodeData.hbRcvTime t s.rootNode := by
  have hkeep : ∀ s e, Ordered s → Ordered (step s e) := fun _ e hs => ordered_step hs e
  have htick : ∀ s (e : Step) u, Ordered s → e.Steady → e.time = some u →
      ∃ c : Change Str NodeData,
        (step s e).rootNode = c.apply NodeData.name NodeData.releases s.rootNode ∧
          c.MadeAt NodeData.hbRcvTime u := by
    intro s e u hs he hu
    obtain ⟨c, hc, -, -, hmade⟩ := step_change hs e
    exact ⟨c, hc, hmade u he hu⟩
  exact NTree.aged_run hkeep htick (fun _ _ _ hu => step_quiet hu) (ordered_init now)
    (fun t => aged_leaf t _) h.steady h.clocked

/-- A node refers to a slot if it is of the type that does. -/
def SlotsByType (s : Registry) : Prop :=
  ∀ d ∈ flattenAll s.rootNode.children, d.releases = d.brokerCtx

theorem slotsByType_run (now : Time) (es : List Step) :
    ∀ s ∈ states step (initRegistry now) es, SlotsByType s := by
  have hkeep : ∀ s e, Ordered s ∧ SlotsByType s → Ordered (step s e) ∧ SlotsByType (step s e) := by
    intro s e h
    obtain ⟨c, hc, -, hrespects, -⟩ := step_change h.1 e
    refine ⟨ordered_step h.1 e, ?_⟩
    rw [SlotsByType, hc]
    exact Change.every_apply h.2 hrespects
  have hinit : SlotsByType (initRegistry now) := fun d hd => absurd hd List.not_mem_nil
  exact fun s hs => (states_always hkeep es ⟨ordered_init now, hinit⟩ s hs).2

/-- A sweep at any time takes the silent nodes and leaves the others in place, and has the slot
of each node it takes released; and no node is later than one above it. -/
structure SweepsExactly (s : Registry) : Prop where
  nodes : ∀ now, (removetreeCallback s now).rootNode.nodes
    = s.rootNode.nodes.filter fun l => !silent now l.2
  root : ∀ now, (removetreeCallback s now).rootNode.data = s.rootNode.data
  released : ∀ now, (removetreeCallback s now).releasing
    = s.releasing ++ (s.rootNode.nodes.filter fun l => silent now l.2).filterMap
        fun l => l.2.brokerCtx
  slots : ∀ now, (removetreeCallback s now).brokerCtx = s.brokerCtx
  aged : ∀ l ∈ s.rootNode.nodes, ∀ a ∈ l.1, l.2.hbRcvTime ≤ a.hbRcvTime

theorem Ordered.shallow {s : Registry} (h : Ordered s) :
    Shallow NodeData.releases s.rootNode := by
  refine shallow_of_ranked h.below ?_ fun d hd => ?_
  · simp [NodeData.releases, h.root]
  · have hbelow : d.nodeType = .svc ∨ d.nodeType = .proc := by simpa using hd
    have hno : d.nodeType ≠ .broker := by
      rcases hbelow with hsvc | hproc
      · simp [hsvc]
      · simp [hproc]
    simp [NodeData.releases, hno]

/-- A sweep hands on the slots of the nodes it takes. -/
theorem releases_of_sweep {s : Registry} (h : Ordered s) (hslots : SlotsByType s) (now : Time) :
    (s.rootNode.sweep (silent now) NodeData.releases).2
      = (s.rootNode.nodes.filter fun l => silent now l.2).filterMap fun l => l.2.brokerCtx := by
  rw [refs_of_sweep (silent now) h.shallow]
  refine List.filterMap_congr fun l hl => hslots l.2 ?_
  rw [← map_snd_branchesAll s.rootNode.children []]
  exact List.mem_map_of_mem (List.mem_filter.mp hl).1

theorem sweepsExactly {t : Time} {s : Registry} (h : Ordered s)
    (haged : Aged NodeData.hbRcvTime t s.rootNode) (hslots : SlotsByType s) :
    SweepsExactly s where
  nodes now := nodes_sweep (perishing_silent now) NodeData.releases haged
  root _ := rfl
  released now := congrArg (s.releasing ++ ·) (releases_of_sweep h hslots now)
  slots _ := rfl
  aged := haged.up

end Hub

/-! ### Both -/

/-- **The sweeps of broker and hub take exactly the silent nodes**, in every state that
registrations and earlier sweeps lead to. -/
theorem sweeps_take_silent (hostname : Str) (now : Time) {es : List Broker.Step}
    (h : Broker.Timely es) {es' : List Hub.Step} (h' : Hub.Timely es') :
    (∀ s ∈ states Broker.step (Broker.initRegistry hostname now) es, Broker.SweepsExactly s) ∧
      ∀ s ∈ states Hub.step (Hub.initRegistry now) es', Hub.SweepsExactly s := by
  refine ⟨fun s hs => ?_, fun s hs => ?_⟩
  · obtain ⟨t, ht⟩ := Broker.aged_run hostname now h s hs
    exact Broker.sweepsExactly (Broker.ordered_run hostname now es s hs) ht
      (Broker.slotsByType_run hostname now es s hs)
  · obtain ⟨t, ht⟩ := Hub.aged_run now h' s hs
    exact Hub.sweepsExactly (Hub.ordered_run now es' s hs) ht (Hub.slotsByType_run now es' s hs)

/-- A service that is heard of twice and swept while alive, and a broker that is swept when
it has been silent for six seconds. -/
theorem sweeps_take_silent_once :
    Broker.SweepsExactly ([Broker.Step.regi (Broker.ahifAt 5003) fun _ => 100, .deferred,
        .regi (Broker.ahifAt 5003) fun _ => 102, .sweep 106].foldl Broker.step
          (Broker.initRegistry (lit "host") 100)) ∧
      Hub.SweepsExactly ([Hub.Step.regi (Hub.brokerAt (lit "10.0.0.1")) fun _ => 100,
        .sweep 106].foldl Hub.step (Hub.initRegistry 100)) := by
  have htimes : ([100, 102, 106] : List Time).Pairwise (· ≤ ·) := by decide
  have htimes' : ([100, 106] : List Time).Pairwise (· ≤ ·) := by decide
  have hbroker : Broker.Timely [.regi (Broker.ahifAt 5003) fun _ => 100, .deferred,
      .regi (Broker.ahifAt 5003) fun _ => 102, .sweep 106] :=
    ⟨by simp [Broker.Step.Steady], htimes⟩
  have hhub : Hub.Timely [.regi (Hub.brokerAt (lit "10.0.0.1")) fun _ => 100, .sweep 106] :=
    ⟨by simp [Hub.Step.Steady], htimes'⟩
  have h := sweeps_take_silent (lit "host") 100 hbroker hhub
  exact ⟨h.1 _ (foldl_mem_states _ _), h.2 _ (foldl_mem_states _ _)⟩

end Brocoli
