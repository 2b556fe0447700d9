/-
The registries stay sorted, and every node is where its registration says.

`chk_tree` notes one node for two purposes: the one that has the name, and the one to insert
before.  It goes down through that node without looking which it was.  That is right only
because whoever asks for a lower level has just asked for the levels above it, so that the
search finds the node that has the name.  Then a registration is a path that is entered,
and what `Paths` says of entries holds of the trees.
-/
import Brocoli.Proofs.ServiceSlots
import Brocoli.Proofs.BrokerSlots

namespace Brocoli

open CMem NTree Slots Runs

/-- The path of names leads to a node. -/
def NodeAt {α : Type} (name : α → Str) (path : List Str) (rootNode : Node α) : Prop :=
  (lookup name path rootNode).isSome = true

/-! ### The broker -/

namespace Broker

/-- The kinds of nodes below the root, level by level. -/
def levels : List NodeType := [.svc, .proc]

/-- Children are sorted by name, and a node is as deep as its type says. -/
structure Ordered (s : Registry) : Prop where
  root : s.rootNode.data.nodeType = .broker
  below : Ranked NodeData.name NodeData.nodeType levels s.rootNode

theorem svcEntry_suits (svcRegi : MqRegi) (newSvc : Option SvcRef) (now : Time) :
    (svcEntry svcRegi newSvc now).Suits NodeData.name NodeData.nodeType .svc :=
  ⟨rfl, rfl, fun _ => rfl, fun _ => rfl⟩

theorem procEntry_suits (svcRegi : MqRegi) (now : Time) :
    (procEntry svcRegi now).Suits NodeData.name NodeData.nodeType .proc :=
  ⟨rfl, rfl, fun _ => rfl, fun _ => rfl⟩

/-- The path a registration enters when it takes a slot. -/
def takePath (svcRegi : MqRegi) (i : SvcRef) (clock : Nat → Time) : List (Entry Str NodeData) :=
  [svcEntry svcRegi (some i) (clock 0)]

/-- The path it enters when it has one. -/
def hitPath (svcRegi : MqRegi) (clock : Nat → Time) : List (Entry Str NodeData) :=
  [svcEntry svcRegi none (clock 0), procEntry svcRegi (clock 1)]

theorem descends_takePath (svcRegi : MqRegi) (i : SvcRef) (clock : Nat → Time) :
    Descends NodeData.name NodeData.nodeType levels (takePath svcRegi i clock) :=
  ⟨svcEntry_suits svcRegi (some i) (clock 0), trivial⟩

theorem descends_hitPath (svcRegi : MqRegi) (clock : Nat → Time) :
    Descends NodeData.name NodeData.nodeType levels (hitPath svcRegi clock) :=
  ⟨svcEntry_suits svcRegi none (clock 0), procEntry_suits svcRegi (clock 1), trivial⟩

theorem afterTake_rootNode (s : Registry) (svcRegi : MqRegi) (clock : Nat → Time) (i : SvcRef) :
    (afterTake s svcRegi clock i).rootNode
      = enter NodeData.name (takePath svcRegi i clock) s.rootNode :=
  chkTree_svc_enter _ _ _ _

theorem afterHit_rootNode {s : Registry} (h : Ordered s) (svcRegi : MqRegi) (clock : Nat → Time) :
    (afterHit s svcRegi clock).rootNode
      = enter NodeData.name (hitPath svcRegi clock) s.rootNode :=
  chkTree_proc_enter h.below.1 svcRegi (clock 0) (clock 1)

/-- What an entry says that a registration makes at readings of its clock: whether a node
refers to a slot goes by its type. -/
structure EnteredBy (clock : Nat → Time) (e : Entry Str NodeData) : Prop where
  time : ∃ k, e.new.hbRcvTime = clock k ∧ ∀ d, (e.update d).hbRcvTime = clock k
  newSlot : e.new.releases = e.new.svcCtx
  updSlot : ∀ d, d.releases = d.svcCtx → (e.update d).releases = (e.update d).svcCtx

theorem svcEntry_enteredBy (svcRegi : MqRegi) (newSvc : Option SvcRef) (clock : Nat → Time)
    (k : Nat) : EnteredBy clock (svcEntry svcRegi newSvc (clock k)) :=
  ⟨⟨k, rfl, fun _ => rfl⟩, rfl, fun _ h => h⟩

theorem procEntry_enteredBy (svcRegi : MqRegi) (clock : Nat → Time) (k : Nat) :
    EnteredBy clock (procEntry svcRegi (clock k)) :=
  ⟨⟨k, rfl, fun _ => rfl⟩, rfl, fun _ h => h⟩

/-- **What a registration does to the tree**: it enters a path of its own names, or nothing. -/
theorem regi_rootNode {s : Registry} (h : Ordered s) (svcRegi : MqRegi) (clock : Nat → Time) :
    ∃ path, (step s (.regi svcRegi clock)).rootNode = enter NodeData.name path s.rootNode ∧
      Descends NodeData.name NodeData.nodeType levels path ∧
      path.map Entry.key <+: [svcRegi.tagSvc, svcRegi.tagName] ∧
      ∀ e ∈ path, EnteredBy clock e := by
  rw [step]
  rcases chkSvcDealer_cases s svcRegi clock with ⟨i, -, heq⟩ | ⟨i, -, heq⟩ | ⟨-, heq⟩
  · rw [heq]
    refine ⟨_, afterTake_rootNode s svcRegi clock i, descends_takePath svcRegi i clock,
      ⟨[svcRegi.tagName], rfl⟩, ?_⟩
    exact List.forall_mem_singleton.mpr (svcEntry_enteredBy svcRegi (some i) clock 0)
  · rw [heq]
    refine ⟨_, afterHit_rootNode h svcRegi clock, descends_hitPath svcRegi clock,
      List.prefix_rfl, ?_⟩
    exact List.forall_mem_cons.mpr ⟨svcEntry_enteredBy svcRegi none clock 0,
      List.forall_mem_singleton.mpr (procEntry_enteredBy svcRegi clock 1)⟩
  · rw [heq]
    exact ⟨[], rfl, trivial, List.nil_prefix, by simp⟩

theorem runDeferred_rootNode (s : Registry) : (runDeferred s).rootNode = s.rootNode := by
  rcases hq : s.evbase with _ | ⟨d, rest⟩
  · rw [runDeferred_nil hq]
  · cases d with
    | startSvcPolling i => rw [runDeferred_start hq]; rfl
    | svcRelease i => rw [runDeferred_release hq]; rfl

/-- The clock while a step is handled. -/
def Step.time : Step → Option Time
  | .regi _ clock => some (clock 0)
  | .sweep current => some current
  | .deferred => none

/-- The clock does not move while a registration is handled. -/
def Step.Steady : Step → Prop
  | .regi _ clock => ∀ k, clock k = clock 0
  | _ => True

/-- **What a step does to the tree**: it enters a path down the levels or sweeps, at the time of
the step, and new nodes refer to a slot if they are of the type that does. -/
theorem step_change {s : Registry} (h : Ordered s) (e : Step) : ∃ c : Change Str NodeData,
    (step s e).rootNode = c.apply NodeData.name NodeData.releases s.rootNode ∧
      c.Legal NodeData.name NodeData.nodeType levels ∧
      c.Respects (fun d => d.releases = d.svcCtx) ∧
      ∀ u, e.Steady → e.time = some u → c.MadeAt NodeData.hbRcvTime u := by
  cases e with
  | sweep current => exact ⟨.swept _, rfl, trivial, trivial, fun _ _ _ => trivial⟩
  | deferred =>
      refine ⟨.entered [], runDeferred_rootNode s, trivial, ?_, fun u _ hu => ?_⟩
      · exact fun e he => absurd he List.not_mem_nil
      · exact absurd hu (by simp [Step.time])
  | regi svcRegi clock =>
      obtain ⟨path, hroot, hdescends, -, hpath⟩ := regi_rootNode h svcRegi clock
      refine ⟨.entered path, hroot, hdescends, fun d hd => ?_, fun u hsteady htime d hd => ?_⟩
      · exact ⟨(hpath d hd).newSlot, (hpath d hd).updSlot⟩
      · obtain ⟨k, hnew, hupd⟩ := (hpath d hd).time
        have hk : clock k = u := (hsteady k).trans (Option.some.inj htime)
        exact ⟨hnew.trans hk, fun x => (hupd x).trans hk⟩

/-- **One step keeps the order.** -/
theorem ordered_step {s : Registry} (h : Ordered s) (e : Step) : Ordered (step s e) := by
  obtain ⟨c, hc, hlegal, -, -⟩ := step_change h e
  refine ⟨?_, ?_⟩
  · rw [hc, Change.apply_data]
    exact h.root
  · rw [hc]
    exact Change.ranked_apply h.below hlegal

theorem ordered_init (hostname : Str) (now : Time) : Ordered (initRegistry hostname now) :=
  ⟨rfl, ranked_leaf levels _⟩

/-- What a step does to the places: a registration brings those on its own path at most and
takes none away, and the other steps bring none. -/
def KeepsPlaces (s : Registry) : Step → Prop
  | .regi svcRegi clock => ∀ path,
      (NodeAt NodeData.name path s.rootNode →
        NodeAt NodeData.name path (step s (.regi svcRegi clock)).rootNode) ∧
      (NodeAt NodeData.name path (step s (.regi svcRegi clock)).rootNode →
        NodeAt NodeData.name path s.rootNode ∨ path <+: [svcRegi.tagSvc, svcRegi.tagName])
  | .sweep current => ∀ path, NodeAt NodeData.name path (removetreeCallback s current).rootNode →
      NodeAt NodeData.name path s.rootNode
  | .deferred => (runDeferred s).rootNode = s.rootNode

theorem keepsPlaces {s : Registry} (h : Ordered s) (e : Step) : KeepsPlaces s e := by
  cases e with
  | sweep current => exact fun path hpath => lookup_sweep _ _ h.below hpath
  | deferred => exact runDeferred_rootNode s
  | regi svcRegi clock =>
      intro path
      obtain ⟨entries, hroot, hdescends, hkeys, -⟩ := regi_rootNode h svcRegi clock
      have hplaced := lookup_enter h.below hdescends path
      rw [NodeAt, NodeAt, hroot]
      refine ⟨fun hp => hplaced.mpr (Or.inl hp), fun hp => ?_⟩
      exact (hplaced.mp hp).imp_right fun hpre => hpre.trans hkeys

/-- When the process of a registration is looked for, the search for its service finds the
node of the service: neither a neighbour, nor nothing. -/
def SearchesOwn (s : Registry) : Prop :=
  ∀ svcRegi now, ∃ svcNode, FindsOwn NodeData.name svcRegi.tagSvc
    (chkTree s.rootNode svcRegi .svc none now) svcNode

theorem searchesOwn {s : Registry} (h : Ordered s) : SearchesOwn s := by
  intro svcRegi now
  obtain ⟨-, -, ⟨x, hx, -⟩, -⟩ := foreach_entered (e := svcEntry svcRegi none now) h.below.1 rfl
    (fun _ => rfl) []
  rw [chkTree_svc_enter]
  exact ⟨x, hx⟩

theorem ordered_run (hostname : Str) (now : Time) (es : List Step) :
    ∀ t ∈ states step (initRegistry hostname now) es, Ordered t :=
  states_always (fun _ e h => ordered_step h e) es (ordered_init hostname now)

end Broker

/-! ### The hub -/

namespace Hub

def levels : List NodeType := [.broker, .svc, .proc]

/-- Children are sorted by name, and a node is as deep as its type says. -/
structure Ordered (s : Registry) : Prop where
  root : s.rootNode.data.nodeType = .interhub
  below : Ranked NodeData.name NodeData.nodeType levels s.rootNode

theorem brokerEntry_suits (svcRegi : MqRegi) (newBroker : Option BrokerRef) (now : Time) :
    (brokerEntry svcRegi newBroker now).Suits NodeData.name NodeData.nodeType .broker :=
  ⟨rfl, rfl, fun _ => rfl, fun _ => rfl⟩

theorem svcEntry_suits (svcRegi : MqRegi) (now : Time) :
    (svcEntry svcRegi now).Suits NodeData.name NodeData.nodeType .svc :=
  ⟨rfl, rfl, fun _ => rfl, fun _ => rfl⟩

theorem procEntry_suits (svcRegi : MqRegi) (now : Time) :
    (procEntry svcRegi now).Suits NodeData.name NodeData.nodeType .proc :=
  ⟨rfl, rfl, fun _ => rfl, fun _ => rfl⟩

/-- The path a registration enters when it takes a slot. -/
def takePath (svcRegi : MqRegi) (i : BrokerRef) (clock : Nat → Time) :
    List (Entry Str NodeData) := [brokerEntry svcRegi (some i) (clock 0)]

/-- The path it enters when it has one. -/
def hitPath (svcRegi : MqRegi) (clock : Nat → Time) : List (Entry Str NodeData) :=
  [brokerEntry svcRegi none (clock 0), svcEntry svcRegi (clock 1), procEntry svcRegi (clock 2)]

theorem descends_takePath (svcRegi : MqRegi) (i : BrokerRef) (clock : Nat → Time) :
    Descends NodeData.name NodeData.nodeType levels (takePath svcRegi i clock) :=
  ⟨brokerEntry_suits svcRegi (some i) (clock 0), trivial⟩

theorem descends_hitPath (svcRegi : MqRegi) (clock : Nat → Time) :
    Descends NodeData.name NodeData.nodeType levels (hitPath svcRegi clock) :=
  ⟨brokerEntry_suits svcRegi none (clock 0), svcEntry_suits svcRegi (clock 1),
    procEntry_suits svcRegi (clock 2), trivial⟩

theorem afterTake_rootNode (s : Registry) (svcRegi : MqRegi) (clock : Nat → Time)
    (i : BrokerRef) :
    (afterTake s svcRegi clock i).rootNode
      = enter NodeData.name (takePath svcRegi i clock) s.rootNode :=
  chkTree_broker_enter _ _ _ _

theorem afterHit_rootNode {s : Registry} (h : Ordered s) (svcRegi : MqRegi) (clock : Nat → Time) :
    (afterHit s svcRegi clock).rootNode
      = enter NodeData.name (hitPath svcRegi clock) s.rootNode := by
  have hbelow : ∀ c ∈ s.rootNode.children, SortedBy NodeData.name c.children := fun c hc =>
    (h.below.2 c hc).2.1
  rw [afterHit, hitPath, ← chkTree_proc_enter h.below.1 hbelow,
    ← chkTree_svc_enter h.below.1, ← chkTree_broker_enter]

/-- What an entry says that a registration makes at readings of its clock: whether a node
refers to a slot goes by its type. -/
structure EnteredBy (clock : Nat → Time) (e : Entry Str NodeData) : Prop where
  time : ∃ k, e.new.hbRcvTime = clock k ∧ ∀ d, (e.update d).hbRcvTime = clock k
  newSlot : e.new.releases = e.new.brokerCtx
  updSlot : ∀ d, d.releases = d.brokerCtx → (e.update d).releases = (e.update d).brokerCtx

theorem brokerEntry_enteredBy (svcRegi : MqRegi) (newBroker : Option BrokerRef)
    (clock : Nat → Time) (k : Nat) : EnteredBy clock (brokerEntry svcRegi newBroker (clock k)) :=
  ⟨⟨k, rfl, fun _ => rfl⟩, rfl, fun _ h => h⟩

theorem svcEntry_enteredBy (svcRegi : MqRegi) (clock : Nat → Time) (k : Nat) :
    EnteredBy clock (svcEntry svcRegi (clock k)) :=
  ⟨⟨k, rfl, fun _ => rfl⟩, rfl, fun _ h => h⟩

theorem procEntry_enteredBy (svcRegi : MqRegi) (clock : Nat → Time) (k : Nat) :
    EnteredBy clock (procEntry svcRegi (clock k)) :=
  ⟨⟨k, rfl, fun _ => rfl⟩, rfl, fun _ h => h⟩

/-- **What a registration does to the tree**: it enters a path of its own names, or nothing. -/
theorem regi_rootNode {s : Registry} (h : Ordered s) (svcRegi : MqRegi) (clock : Nat → Time) :
    ∃ path, (step s (.regi svcRegi clock)).rootNode = enter NodeData.name path s.rootNode ∧
      Descends NodeData.name NodeData.nodeType levels path ∧
      path.map Entry.key <+: [svcRegi.brokerName, svcRegi.tagSvc, svcRegi.tagName] ∧
      ∀ e ∈ path, EnteredBy clock e := by
  rw [step]
  rcases chkSvcBroker_cases s svcRegi clock with ⟨i, -, heq⟩ | ⟨i, -, heq⟩ | ⟨-, heq⟩
  · rw [heq]
    refine ⟨_, afterTake_rootNode s svcRegi clock i, descends_takePath svcRegi i clock,
      ⟨[svcRegi.tagSvc, svcRegi.tagName], rfl⟩, ?_⟩
    exact List.forall_mem_singleton.mpr (brokerEntry_enteredBy svcRegi (some i) clock 0)
  · rw [heq]
    refine ⟨_, afterHit_rootNode h svcRegi clock, descends_hitPath svcRegi clock,
      List.prefix_rfl, ?_⟩
    exact List.forall_mem_cons.mpr ⟨brokerEntry_enteredBy svcRegi none clock 0,
      List.forall_mem_cons.mpr ⟨svcEntry_enteredBy svcRegi clock 1,
        List.forall_mem_singleton.mpr (procEntry_enteredBy svcRegi clock 2)⟩⟩
  · rw [heq]
    exact ⟨[], rfl, trivial, List.nil_prefix, by simp⟩

theorem brokerThreadEnd_rootNode (s : Registry) (i : BrokerRef) :
    (brokerThreadEnd s i).rootNode = s.rootNode := by
  unfold brokerThreadEnd
  split
  · rfl
  · rfl

/-- The clock while a step is handled. -/
def Step.time : Step → Option Time
  | .regi _ clock => some (clock 0)
  | .sweep current => some current
  | .threadEnd _ => none

/-- The clock does not move while a registration is handled. -/
def Step.Steady : Step → Prop
  | .regi _ clock => ∀ k, clock k = clock 0
  | _ => True

/-- **What a step does to the tree**: it enters a path down the levels or sweeps, at the time of
the step, and new nodes refer to a slot if they are of the type that does. -/
theorem step_change {s : Registry} (h : Ordered s) (e : Step) : ∃ c : Change Str NodeData,
    (step s e).rootNode = c.apply NodeData.name NodeData.releases s.rootNode ∧
      c.Legal NodeData.name NodeData.nodeType levels ∧
      c.Respects (fun d => d.releases = d.brokerCtx) ∧
      ∀ u, e.Steady → e.time = some u → c.MadeAt NodeData.hbRcvTime u := by
  cases e with
  | sweep current => exact ⟨.swept _, rfl, trivial, trivial, fun _ _ _ => trivial⟩
  | threadEnd i =>
      refine ⟨.entered [], brokerThreadEnd_rootNode s i, trivial, ?_, fun u _ hu => ?_⟩
      · exact fun e he => absurd he List.not_mem_nil
      · exact absurd hu (by simp [Step.time])
  | regi svcRegi clock =>
      obtain ⟨path, hroot, hdescends, -, hpath⟩ := regi_rootNode h svcRegi clock
      refine ⟨.entered path, hroot, hdescends, fun d hd => ?_, fun u hsteady htime d hd => ?_⟩
      · exact ⟨(hpath d hd).newSlot, (hpath d hd).updSlot⟩
      · obtain ⟨k, hnew, hupd⟩ := (hpath d hd).time
        have hk : clock k = u := (hsteady k).trans (Option.some.inj htime)
        exact ⟨hnew.trans hk, fun x => (hupd x).trans hk⟩

/-- **One step keeps the order.** -/
theorem ordered_step {s : Registry} (h : Ordered s) (e : Step) : Ordered (step s e) := by
  obtain ⟨c, hc, hlegal, -, -⟩ := step_change h e
  refine ⟨?_, ?_⟩
  · rw [hc, Change.apply_data]
    exact h.root
  · rw [hc]
    exact Change.ranked_apply h.below hlegal

theorem ordered_init (now : Time) : Ordered (initRegistry now) := ⟨rfl, ranked_leaf levels _⟩

/-- What a step does to the places: a registration brings those on its own path at most and
takes none away, and the other steps bring none. -/
def KeepsPlaces (s : Registry) : Step → Prop
  | .regi svcRegi clock => ∀ path,
      (NodeAt NodeData.name path s.rootNode →
        NodeAt NodeData.name path (step s (.regi svcRegi clock)).rootNode) ∧
      (NodeAt NodeData.name path (step s (.regi svcRegi clock)).rootNode →
        NodeAt NodeData.name path s.rootNode ∨
          path <+: [svcRegi.brokerName, svcRegi.tagSvc, svcRegi.tagName])
  | .sweep current => ∀ path, NodeAt NodeData.name path (removetreeCallback s current).rootNode →
      NodeAt NodeData.name path s.rootNode
  | .threadEnd i => (brokerThreadEnd s i).rootNode = s.rootNode

theorem keepsPlaces {s : Registry} (h : Ordered s) (e : Step) : KeepsPlaces s e := by
  cases e with
  | sweep current => exact fun path hpath => lookup_sweep _ _ h.below hpath
  | threadEnd i => exact brokerThreadEnd_rootNode s i
  | regi svcRegi clock =>
      intro path
      obtain ⟨entries, hroot, hdescends, hkeys, -⟩ := regi_rootNode h svcRegi clock
      have hplaced := lookup_enter h.below hdescends path
      rw [NodeAt, NodeAt, hroot]
      refine ⟨fun hp => hplaced.mpr (Or.inl hp), fun hp => ?_⟩
      exact (hplaced.mp hp).imp_right fun hpre => hpre.trans hkeys

/-- When a service of a registration is looked for, the search for its broker finds the node
of the broker, and when a process is, the search for its service finds the node of the
service below that: neither a neighbour, nor nothing. -/
def SearchesOwn (s : Registry) : Prop :=
  ∀ svcRegi now now',
    let forSvc := chkTree s.rootNode svcRegi .broker none now
    let forProc := chkTree forSvc svcRegi .svc none now'
    (∃ brokerNode, FindsOwn NodeData.name svcRegi.brokerName forSvc brokerNode) ∧
      ∃ brokerNode, FindsOwn NodeData.name svcRegi.brokerName forProc brokerNode ∧
        ∃ svcNode, FindsOwn NodeData.name svcRegi.tagSvc brokerNode svcNode

theorem searchesOwn {s : Registry} (h : Ordered s) : SearchesOwn s := by
  intro svcRegi now now'
  have hbroker := foreach_entered (e := brokerEntry svcRegi none now) h.below.1 rfl (fun _ => rfl)
  simp only
  rw [chkTree_broker_enter, chkTree_svc_enter h.below.1]
  obtain ⟨-, -, ⟨x, hx, -⟩, -⟩ := hbroker []
  obtain ⟨-, -, ⟨b, hb, hfrom⟩, -⟩ := hbroker [svcEntry svcRegi now']
  refine ⟨⟨x, hx⟩, b, hb, ?_⟩
  have hsvc : ∀ n : Node NodeData, SortedBy NodeData.name n.children →
      ∃ svcNode, FindsOwn NodeData.name svcRegi.tagSvc
        (enter NodeData.name [svcEntry svcRegi now'] n) svcNode := by
    intro n hn
    obtain ⟨-, -, ⟨c, hc, -⟩, -⟩ := foreach_entered (e := svcEntry svcRegi now') hn rfl
      (fun _ => rfl) []
    exact ⟨c, hc⟩
  rcases hfrom with ⟨c, hc, rfl⟩ | rfl
  · exact hsvc _ (h.below.2 c hc).2.1
  · exact hsvc _ List.Pairwise.nil

theorem ordered_run (now : Time) (es : List Step) :
    ∀ t ∈ states step (initRegistry now) es, Ordered t :=
  states_always (fun _ e h => ordered_step h e) es (ordered_init now)

end Hub

/-! ### Both -/

/-- **The registries of broker and hub stay sorted and well placed**, whatever is registered,
swept and released, and in whatever order: no search that goes down stops at a neighbour, a
registration brings nodes on its own path only, and every step keeps the order. -/
theorem registries_ordered :
    (∀ hostname now es,
      (∀ t ∈ states Broker.step (Broker.initRegistry hostname now) es,
        Broker.Ordered t ∧ Broker.SearchesOwn t) ∧
      AllSteps Broker.step Broker.KeepsPlaces (Broker.initRegistry hostname now) es) ∧
    ∀ now es,
      (∀ t ∈ states Hub.step (Hub.initRegistry now) es, Hub.Ordered t ∧ Hub.SearchesOwn t) ∧
      AllSteps Hub.step Hub.KeepsPlaces (Hub.initRegistry now) es := by
  refine ⟨fun hostname now es => ⟨fun t ht => ?_, ?_⟩, fun now es => ⟨fun t ht => ?_, ?_⟩⟩
  · have hordered := Broker.ordered_run hostname now es t ht
    exact ⟨hordered, Broker.searchesOwn hordered⟩
  · exact allSteps_always (fun _ e h => Broker.ordered_step h e)
      (fun _ e h => Broker.keepsPlaces h e) es (Broker.ordered_init hostname now)
  · have hordered := Hub.ordered_run now es t ht
    exact ⟨hordered, Hub.searchesOwn hordered⟩
  · exact allSteps_always (fun _ e h => Hub.ordered_step h e) (fun _ e h => Hub.keepsPlaces h e)
      es (Hub.ordered_init now)

end Brocoli
