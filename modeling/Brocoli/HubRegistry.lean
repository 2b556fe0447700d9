/-
What is registered at the hub: `chk_tree`, `chk_svc_broker` and `regi_action` in `hub.c`.

A slot of the hub belongs to a host: it is looked up by the address the registration came
from and refuses a second broker name from there.  The node of the broker is looked up by
its name.  A slot is given back when its thread has ended, which happens some time after
`broker_release` was posted to it, and to different threads in any order.

The three names of a slot are neighbours in `broker_ctx_t`, and `sprintf` does not stop at
the end of the first.  So they are kept as the memory they occupy:

    0 broker_id[48]   48 broker_name[48]   96 broker_host[24]
-/
import Mathlib.Logic.Function.Basic
import Brocoli.Tree
import Brocoli.Wrapper

namespace Brocoli.Hub

open CMem Multipart NTree

/-- A `broker_ctx_t *` into the table of slots. -/
abbrev BrokerRef := Fin maxBrokerNum

/-- `broker_ctx_t`, without what belongs to its thread. -/
structure BrokerCtx where
  id : Nat
  used : Bool
  names : Buf 120
deriving DecidableEq

namespace BrokerCtx

/-- `memset(broker_ctx, 0x00, sizeof(broker_ctx_t))` -/
def zero : BrokerCtx := ⟨0, false, Buf.zero 120⟩

def brokerId (b : BrokerCtx) : Str := cstr b.names.mem
def brokerName (b : BrokerCtx) : Str := cstr (b.names.mem.drop 48)
def brokerHost (b : BrokerCtx) : Str := cstr (b.names.mem.drop 96)

end BrokerCtx

/-- `node_data_t` -/
structure NodeData where
  nodeType : NodeType
  host : Str
  name : Str
  hbRcvTime : Time
  sndrcv : MqSndrcv
  brokerCtx : Option BrokerRef
deriving DecidableEq

/-- The tree, the slots, and the slots whose thread has been told to end and has not yet. -/
structure Registry where
  rootNode : Node NodeData
  brokerCtx : BrokerRef → BrokerCtx
  releasing : List BrokerRef

/-! ### Nodes -/

def newNode (reqType : NodeType) (svcRegi : MqRegi) (newBroker : Option BrokerRef) (now : Time) :
    NodeData where
  nodeType := reqType
  host := if reqType = .broker ∨ reqType = .svc then svcRegi.brokerHost else svcRegi.svcHost
  name :=
    match reqType with
    | .interhub => interhubName
    | .broker => svcRegi.brokerName
    | .svc => svcRegi.tagSvc
    | .proc => svcRegi.tagName
  hbRcvTime := now
  sndrcv := MqSndrcv.zero
  brokerCtx := if reqType = .broker then newBroker else none

def updateNodeInfo (svcRegi : MqRegi) (now : Time) (nodeData : NodeData) : NodeData :=
  { nodeData with
    hbRcvTime := now
    sndrcv := if nodeData.nodeType = .proc then svcRegi.sndrcv else nodeData.sndrcv }

/-- The name a node of this type is looked up by; `none` where `chk_tree_callback` returns. -/
def compareName (svcRegi : MqRegi) : NodeType → Option Str
  | .broker => some svcRegi.brokerName
  | .svc => some svcRegi.tagSvc
  | .proc => some svcRegi.tagName
  | .interhub => none

def chkTreeCallback (svcRegi : MqRegi) (type : NodeType) (i : Nat) (node : Node NodeData)
    (arg : ChkTreeArg) : ChkTreeArg :=
  match compareName svcRegi type with
  | none => arg
  | some k => chkName NodeData.name k i node arg

/-- A search below a node, if the node is the one looked for. -/
def searchBelow (svcRegi : MqRegi) (type : NodeType) (find : ChkTreeArg) (node : Node NodeData) :
    ChkTreeArg :=
  if find.sameNodeExist then node.foreach (chkTreeCallback svcRegi type) ChkTreeArg.zero
  else ChkTreeArg.zero

def placeSvc (findBroker : ChkTreeArg) (svcRegi : MqRegi) (new : NodeData) (now : Time)
    (brokerNode : Node NodeData) : Node NodeData :=
  placeNode (searchBelow svcRegi .svc findBroker brokerNode) (updateNodeInfo svcRegi now) new
    brokerNode

def placeProc (findBroker : ChkTreeArg) (svcRegi : MqRegi) (new : NodeData) (now : Time)
    (brokerNode : Node NodeData) : Node NodeData :=
  let findSvc := searchBelow svcRegi .svc findBroker brokerNode
  match findSvc.findNode with
  | none => brokerNode -- no base node, the new one is not linked
  | some j =>
      brokerNode.modifyChild j fun svcNode =>
        placeNode (searchBelow svcRegi .proc findSvc svcNode) (updateNodeInfo svcRegi now) new
          svcNode

def chkTree (rootNode : Node NodeData) (svcRegi : MqRegi) (reqType : NodeType)
    (newBroker : Option BrokerRef) (now : Time) : Node NodeData :=
  let new := newNode reqType svcRegi newBroker now
  let findBroker := rootNode.foreach (chkTreeCallback svcRegi .broker) ChkTreeArg.zero
  match reqType, findBroker.findNode with
  | .broker, _ => placeNode findBroker (updateNodeInfo svcRegi now) new rootNode
  | .svc, some i => rootNode.modifyChild i (placeSvc findBroker svcRegi new now)
  | .proc, some i => rootNode.modifyChild i (placeProc findBroker svcRegi new now)
  | _, _ => rootNode -- no base node, or a type that is not handled

/-- What a registration does on the level of the brokers. -/
def brokerEntry (svcRegi : MqRegi) (newBroker : Option BrokerRef) (now : Time) :
    Entry Str NodeData where
  key := svcRegi.brokerName
  update := updateNodeInfo svcRegi now
  new := newNode .broker svcRegi newBroker now

/-- What it does on the level of the services. -/
def svcEntry (svcRegi : MqRegi) (now : Time) : Entry Str NodeData where
  key := svcRegi.tagSvc
  update := updateNodeInfo svcRegi now
  new := newNode .svc svcRegi none now

/-- What it does on the level of the processes. -/
def procEntry (svcRegi : MqRegi) (now : Time) : Entry Str NodeData where
  key := svcRegi.tagName
  update := updateNodeInfo svcRegi now
  new := newNode .proc svcRegi none now

theorem chkTree_broker_enter (rootNode : Node NodeData) (svcRegi : MqRegi)
    (newBroker : Option BrokerRef) (now : Time) :
    chkTree rootNode svcRegi .broker newBroker now
      = enter NodeData.name [brokerEntry svcRegi newBroker now] rootNode :=
  (placeNode_foreach _ _ _ _ _).trans (upsert_eq_enter rootNode (brokerEntry svcRegi newBroker now))

theorem searchBelow_found {find : ChkTreeArg} (h : find.sameNodeExist = true) (svcRegi : MqRegi)
    (type : NodeType) (node : Node NodeData) :
    searchBelow svcRegi type find node
      = node.foreach (chkTreeCallback svcRegi type) ChkTreeArg.zero := if_pos h

theorem placeSvc_enter {findBroker : ChkTreeArg} (h : findBroker.sameNodeExist = true)
    (svcRegi : MqRegi) (now : Time) (brokerNode : Node NodeData) :
    placeSvc findBroker svcRegi (newNode .svc svcRegi none now) now brokerNode
      = enter NodeData.name [svcEntry svcRegi now] brokerNode := by
  rw [placeSvc, searchBelow_found h]
  exact (placeNode_foreach _ _ _ _ _).trans (upsert_eq_enter brokerNode (svcEntry svcRegi now))

/-- **Once the broker has its node, the service goes below it.** -/
theorem chkTree_svc_enter {rootNode : Node NodeData}
    (hs : SortedBy NodeData.name rootNode.children) (svcRegi : MqRegi)
    (newBroker : Option BrokerRef) (now now' : Time) :
    chkTree (enter NodeData.name [brokerEntry svcRegi newBroker now] rootNode) svcRegi .svc none
        now'
      = enter NodeData.name [brokerEntry svcRegi newBroker now, svcEntry svcRegi now']
        rootNode := by
  obtain ⟨i, hfind, -, hextend⟩ := foreach_entered (e := brokerEntry svcRegi newBroker now) hs rfl
    (fun _ => rfl) []
  have hsearch : (enter NodeData.name [brokerEntry svcRegi newBroker now] rootNode).foreach
      (chkTreeCallback svcRegi .broker) ChkTreeArg.zero = ⟨true, true, false, some i⟩ := hfind
  simp only [chkTree, hsearch]
  refine hextend _ _ (fun c _ => ?_) ?_
  · exact placeSvc_enter rfl svcRegi now' _
  · exact placeSvc_enter rfl svcRegi now' _

/-- Once the service has its node below the broker, the process goes below that. -/
theorem placeProc_enter {findBroker : ChkTreeArg} (h : findBroker.sameNodeExist = true)
    {brokerNode : Node NodeData} (hs : SortedBy NodeData.name brokerNode.children)
    (svcRegi : MqRegi) (now now' : Time) :
    placeProc findBroker svcRegi (newNode .proc svcRegi none now') now'
        (enter NodeData.name [svcEntry svcRegi now] brokerNode)
      = enter NodeData.name [svcEntry svcRegi now, procEntry svcRegi now'] brokerNode := by
  obtain ⟨j, hfind, -, hextend⟩ := foreach_entered (e := svcEntry svcRegi now) hs rfl
    (fun _ => rfl) []
  have hsearch : searchBelow svcRegi .svc findBroker
      (enter NodeData.name [svcEntry svcRegi now] brokerNode) = ⟨true, true, false, some j⟩ := by
    rw [searchBelow_found h]
    exact hfind
  have hplace : ∀ svcNode : Node NodeData,
      placeNode (searchBelow svcRegi .proc ⟨true, true, false, some j⟩ svcNode)
          (updateNodeInfo svcRegi now') (newNode .proc svcRegi none now') svcNode
        = enter NodeData.name [procEntry svcRegi now'] svcNode := by
    intro svcNode
    rw [searchBelow_found rfl]
    exact (placeNode_foreach _ _ _ _ _).trans (upsert_eq_enter svcNode (procEntry svcRegi now'))
  rw [placeProc]
  simp only [hsearch]
  refine hextend _ _ (fun c _ => ?_) ?_
  · exact hplace _
  · exact hplace _

/-- **Once broker and service have their nodes, the process goes below them.** -/
theorem chkTree_proc_enter {rootNode : Node NodeData}
    (hs : SortedBy NodeData.name rootNode.children)
    (hbelow : ∀ c ∈ rootNode.children, SortedBy NodeData.name c.children) (svcRegi : MqRegi)
    (newBroker : Option BrokerRef) (now now' now'' : Time) :
    chkTree (enter NodeData.name [brokerEntry svcRegi newBroker now, svcEntry svcRegi now']
        rootNode) svcRegi .proc none now''
      = enter NodeData.name [brokerEntry svcRegi newBroker now, svcEntry svcRegi now',
          procEntry svcRegi now''] rootNode := by
  obtain ⟨i, hfind, -, hextend⟩ := foreach_entered (e := brokerEntry svcRegi newBroker now) hs rfl
    (fun _ => rfl) [svcEntry svcRegi now']
  have hsearch : (enter NodeData.name [brokerEntry svcRegi newBroker now, svcEntry svcRegi now']
      rootNode).foreach (chkTreeCallback svcRegi .broker) ChkTreeArg.zero
        = ⟨true, true, false, some i⟩ := hfind
  simp only [chkTree, hsearch]
  refine hextend _ _ (fun c hc => ?_) ?_
  · refine placeProc_enter ?_ ?_ svcRegi now' now''
    · rfl
    · exact hbelow c hc
  · refine placeProc_enter ?_ ?_ svcRegi now' now''
    · rfl
    · exact List.Pairwise.nil

/-! ### Slots -/

/-- `sprintf(broker_id, "%s_%s", broker_host, broker_name)` -/
def brokerIdOf (svcRegi : MqRegi) : Str := svcRegi.brokerHost ++ lit "_" ++ svcRegi.brokerName

theorem length_brokerIdOf (svcRegi : MqRegi) :
    (brokerIdOf svcRegi).length = svcRegi.brokerHost.length + 1 + svcRegi.brokerName.length := by
  have h : (lit "_").length = 1 := by decide
  rw [brokerIdOf, List.length_append, List.length_append, h]

theorem zero_notMem_brokerIdOf (svcRegi : MqRegi) : (0 : Byte) ∉ brokerIdOf svcRegi := by
  have hunderscore : (0 : Byte) ∉ lit "_" := by decide
  simp only [brokerIdOf, List.mem_append, not_or]
  exact ⟨⟨zero_notMem_cstr _, hunderscore⟩, zero_notMem_cstr _⟩

/-- A host without an underscore is what comes before the first one. -/
theorem host_of_prefix {host name id : Str} (h : (95 : Byte) ∉ host)
    (hp : host ++ lit "_" ++ name <+: id) : id.takeWhile (· ≠ 95) = host := by
  obtain ⟨rest, rfl⟩ := hp
  have hplain : ∀ x ∈ host, decide (x ≠ 95) = true := fun x hx => by
    simpa using fun heq : x = 95 => h (heq ▸ hx)
  have hunderscore : lit "_" = [95] := by decide
  rw [hunderscore, List.append_assoc, List.append_assoc, List.takeWhile_append_of_pos hplain]
  simp

def setBrokerSlot (id : Nat) (svcRegi : MqRegi) (brokerCtx : BrokerCtx) : BrokerCtx :=
  let names := brokerCtx.names.put 96 (svcRegi.brokerHost ++ [0])
  let names := names.put 48 (svcRegi.brokerName ++ [0])
  ⟨id, true, names.put 0 (brokerIdOf svcRegi ++ [0])⟩

/-- The first slot that is not in use is set up; its thread is started elsewhere. -/
def createNewBroker (s : Registry) (svcRegi : MqRegi) : Option BrokerRef × Registry :=
  match (List.finRange maxBrokerNum).find? fun i => !(s.brokerCtx i).used with
  | none => (none, s)
  | some i =>
      (some i, { s with
        brokerCtx := Function.update s.brokerCtx i (setBrokerSlot i svcRegi (s.brokerCtx i)) })

/-- The loop of `chk_svc_broker`: `none` when it returns because a slot in use has the host
under another name, else whether one has it under the same. -/
def scanBrokers (s : Registry) (svcRegi : MqRegi) : List BrokerRef → Bool → Option Bool
  | [], alreadyServiced => some alreadyServiced
  | i :: rest, alreadyServiced =>
      if (s.brokerCtx i).used && svcRegi.brokerHost == (s.brokerCtx i).brokerHost then
        if svcRegi.brokerName ≠ (s.brokerCtx i).brokerName then none
        else scanBrokers s svcRegi rest true
      else scanBrokers s svcRegi rest alreadyServiced

/-- `clock` gives the readings of `time`, in the order they are taken. -/
def chkSvcBroker (s : Registry) (svcRegi : MqRegi) (clock : Nat → Time) : Int × Registry :=
  match scanBrokers s svcRegi (List.finRange maxBrokerNum) false with
  | none => (0, s)
  | some true =>
      let brokerNode := chkTree s.rootNode svcRegi .broker none (clock 0)
      let svcNode := chkTree brokerNode svcRegi .svc none (clock 1)
      (1, { s with rootNode := chkTree svcNode svcRegi .proc none (clock 2) })
  | some false =>
      match createNewBroker s svcRegi with
      | (none, s) => (1, s)
      | (some newBroker, s) =>
          (1, { s with rootNode := chkTree s.rootNode svcRegi .broker (some newBroker) (clock 0) })

/-- The slot answers for the host of the registration. -/
def Serves (s : Registry) (svcRegi : MqRegi) (i : BrokerRef) : Prop :=
  (s.brokerCtx i).used = true ∧ (s.brokerCtx i).brokerHost = svcRegi.brokerHost

theorem serves_iff {s : Registry} {svcRegi : MqRegi} {i : BrokerRef} :
    ((s.brokerCtx i).used && svcRegi.brokerHost == (s.brokerCtx i).brokerHost) = true ↔
      Serves s svcRegi i := by
  rw [Bool.and_eq_true, beq_iff_eq, Serves]
  exact ⟨fun h => ⟨h.1, h.2.symm⟩, fun h => ⟨h.1, h.2.symm⟩⟩

/-- The scan says that the host has no slot exactly when no slot serves it. -/
theorem scanBrokers_false {s : Registry} {svcRegi : MqRegi} :
    ∀ {is : List BrokerRef} {found : Bool},
    scanBrokers s svcRegi is found = some false ↔
      found = false ∧ ∀ i ∈ is, ¬ Serves s svcRegi i := by
  intro is
  induction is with
  | nil => intro found; simp [scanBrokers]
  | cons i is ih =>
      intro found
      rw [scanBrokers]
      by_cases h : ((s.brokerCtx i).used && svcRegi.brokerHost == (s.brokerCtx i).brokerHost) = true
      · have hi := serves_iff.mp h
        rw [if_pos h]
        have hno : ¬ (found = false ∧ ∀ j ∈ i :: is, ¬ Serves s svcRegi j) :=
          fun hall => hall.2 i (by simp) hi
        by_cases hname : svcRegi.brokerName ≠ (s.brokerCtx i).brokerName
        · rw [if_pos hname]
          simp only [reduceCtorEq, false_iff]
          exact hno
        · rw [if_neg hname, ih]
          simp only [Bool.true_eq_false, false_and, false_iff]
          exact hno
      · have hi : ¬ Serves s svcRegi i := fun hs => h (serves_iff.mpr hs)
        rw [if_neg h, ih]
        simp [hi]

/-- The scan finds the slot of the host, under the name of the registration. -/
theorem scanBrokers_true {s : Registry} {svcRegi : MqRegi} : ∀ {is : List BrokerRef} {found : Bool},
    scanBrokers s svcRegi is found = some true → found = true ∨
      ∃ i ∈ is, Serves s svcRegi i ∧ (s.brokerCtx i).brokerName = svcRegi.brokerName := by
  intro is
  induction is with
  | nil => intro found h; simpa [scanBrokers] using h
  | cons i is ih =>
      intro found h
      rw [scanBrokers] at h
      by_cases hhost :
          ((s.brokerCtx i).used && svcRegi.brokerHost == (s.brokerCtx i).brokerHost) = true
      · rw [if_pos hhost] at h
        by_cases hname : svcRegi.brokerName ≠ (s.brokerCtx i).brokerName
        · rw [if_pos hname] at h
          exact absurd h (by simp)
        · exact Or.inr ⟨i, by simp, serves_iff.mp hhost, (not_not.mp hname).symm⟩
      · rw [if_neg hhost] at h
        rcases ih h with hfound | ⟨j, hj, hserves⟩
        · exact Or.inl hfound
        · exact Or.inr ⟨j, by simp [hj], hserves⟩

/-- A slot that is taken was free. -/
theorem createNewBroker_some {s s' : Registry} {svcRegi : MqRegi} {i : BrokerRef}
    (h : createNewBroker s svcRegi = (some i, s')) :
    (s.brokerCtx i).used = false ∧ s' = { s with
      brokerCtx := Function.update s.brokerCtx i (setBrokerSlot i svcRegi (s.brokerCtx i)) } := by
  unfold createNewBroker at h
  cases hfind : (List.finRange maxBrokerNum).find? fun i => !(s.brokerCtx i).used with
  | none => simp [hfind] at h
  | some k =>
      simp only [hfind, Prod.mk.injEq, Option.some.injEq] at h
      obtain ⟨rfl, rfl⟩ := h
      have hfree := List.find?_some hfind
      exact ⟨by simpa using hfree, rfl⟩

/-- No slot is taken only when all are in use. -/
theorem createNewBroker_none {s s' : Registry} {svcRegi : MqRegi}
    (h : createNewBroker s svcRegi = (none, s')) : s' = s ∧ ∀ i, (s.brokerCtx i).used = true := by
  unfold createNewBroker at h
  cases hfind : (List.finRange maxBrokerNum).find? fun i => !(s.brokerCtx i).used with
  | none =>
      simp only [hfind, Prod.mk.injEq, true_and] at h
      refine ⟨h.symm, fun i => ?_⟩
      have := List.find?_eq_none.mp hfind i (List.mem_finRange i)
      simpa using this
  | some k => simp [hfind] at h

/-- The registration takes this slot: no slot in use has its host, and this one is free. -/
structure Takes (s : Registry) (svcRegi : MqRegi) (i : BrokerRef) : Prop where
  host : ∀ j, (s.brokerCtx j).used = true → (s.brokerCtx j).brokerHost ≠ svcRegi.brokerHost
  free : (s.brokerCtx i).used = false

/-- The slot in use with the host of the registration is this one, under its name. -/
structure Hits (s : Registry) (svcRegi : MqRegi) (i : BrokerRef) : Prop where
  serves : Serves s svcRegi i
  name : (s.brokerCtx i).brokerName = svcRegi.brokerName

/-- The registration is turned away: its host has a slot, under another name, or it needs one
and none is left. -/
def Refused (s : Registry) (svcRegi : MqRegi) : Prop :=
  (∃ i, Serves s svcRegi i) ∨ ∀ j, (s.brokerCtx j).used = true

/-- The registry after a registration that takes the slot. -/
def afterTake (s : Registry) (svcRegi : MqRegi) (clock : Nat → Time) (i : BrokerRef) :
    Registry where
  rootNode := chkTree s.rootNode svcRegi .broker (some i) (clock 0)
  brokerCtx := Function.update s.brokerCtx i (setBrokerSlot i svcRegi (s.brokerCtx i))
  releasing := s.releasing

/-- The registry after a registration for a slot that is there. -/
def afterHit (s : Registry) (svcRegi : MqRegi) (clock : Nat → Time) : Registry :=
  let brokerNode := chkTree s.rootNode svcRegi .broker none (clock 0)
  let svcNode := chkTree brokerNode svcRegi .svc none (clock 1)
  { s with rootNode := chkTree svcNode svcRegi .proc none (clock 2) }

/-- **What a registration does**: it takes a slot, or finds its own, or changes nothing. -/
theorem chkSvcBroker_cases (s : Registry) (svcRegi : MqRegi) (clock : Nat → Time) :
    (∃ i, Takes s svcRegi i ∧ (chkSvcBroker s svcRegi clock).2 = afterTake s svcRegi clock i) ∨
    (∃ i, Hits s svcRegi i ∧ (chkSvcBroker s svcRegi clock).2 = afterHit s svcRegi clock) ∨
    (Refused s svcRegi ∧ (chkSvcBroker s svcRegi clock).2 = s) := by
  simp only [chkSvcBroker]
  rcases hscan : scanBrokers s svcRegi (List.finRange maxBrokerNum) false with _ | _ | _
  · refine Or.inr (Or.inr ⟨Or.inl ?_, rfl⟩)
    by_contra hno
    have hnone := scanBrokers_false.mpr ⟨rfl, fun i (_ : i ∈ List.finRange maxBrokerNum) hi =>
      hno ⟨i, hi⟩⟩
    rw [hscan] at hnone
    exact absurd hnone (by simp)
  · have hnone := (scanBrokers_false.mp hscan).2
    simp only
    rcases hc : createNewBroker s svcRegi with ⟨_ | i, s'⟩
    · obtain ⟨rfl, hall⟩ := createNewBroker_none hc
      exact Or.inr (Or.inr ⟨Or.inr hall, rfl⟩)
    · obtain ⟨hfree, rfl⟩ := createNewBroker_some hc
      refine Or.inl ⟨i, ⟨fun j hj heq => ?_, hfree⟩, rfl⟩
      exact hnone j (List.mem_finRange j) ⟨hj, heq⟩
  · rcases scanBrokers_true hscan with hfalse | ⟨i, -, hserves, hname⟩
    · exact absurd hfalse (by simp)
    · exact Or.inr (Or.inl ⟨i, ⟨hserves, hname⟩, rfl⟩)

/-! ### Sweeping and releasing -/

def tmchkNoresp : Time := 5

/-- The slot `RemoveNode` has released. -/
def NodeData.releases (d : NodeData) : Option BrokerRef :=
  if d.nodeType = .broker then d.brokerCtx else none

def removetreeCallback (s : Registry) (current : Time) : Registry :=
  let swept := s.rootNode.sweep (fun d => tmchkNoresp < current - d.hbRcvTime) NodeData.releases
  { s with rootNode := swept.1, releasing := s.releasing ++ swept.2 }

/-- The end of the `broker_thread` of a slot that was told to end. -/
def brokerThreadEnd (s : Registry) (i : BrokerRef) : Registry :=
  if i ∈ s.releasing then
    { s with
      brokerCtx := Function.update s.brokerCtx i BrokerCtx.zero
      releasing := s.releasing.erase i }
  else s

/-! ### The registration thread -/

/-- What `regi_action` uses of `main_ctx_t`. -/
structure RegiCtx where
  zmqSubFromBroker : In
  zmqPubToXsub : Out
  registry : Registry

def regiAction (ctx : RegiCtx) (action peerAddress : Str) (clock : Nat → Time) : Int × RegiCtx :=
  if action = mqReg then
    match ctx.zmqSubFromBroker.recv with
    | none => (-1, ctx)
    | some (f, sub) =>
        let svcRegi := (MqRegi.zero.recv f).setBrokerHost peerAddress
        let result := chkSvcBroker ctx.registry svcRegi clock
        (result.1, ⟨sub, sendRegi ctx.zmqPubToXsub svcRegi, result.2⟩)
  else (0, ctx)

/-- The registry `initialize` creates. -/
def initRegistry (now : Time) : Registry where
  rootNode := .leaf (newNode .interhub MqRegi.zero none now)
  brokerCtx _ := BrokerCtx.zero
  releasing := []

end Brocoli.Hub
