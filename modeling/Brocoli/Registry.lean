/-
What is registered at a broker: `chk_tree`, `chk_svc_dealer` and `regi_action` in
`broker.c`, and what the service thread does for them.

The registration thread looks a service up twice.  Its slot is found by port, in a table,
and its node by name, in a tree; the node refers to the slot.  The service thread opens and
closes the sockets of a slot when it is told to, one callback after the other in the order
they were posted, so a slot whose node is gone stays in use until `svc_release` has run.
-/
import Mathlib.Logic.Function.Basic
import Brocoli.Tree
import Brocoli.Client

namespace Brocoli.Broker

open CMem Multipart NTree

/-- A `service_ctx_t *` into the table of slots. -/
abbrev SvcRef := Fin maxSvcNum

/-- `service_ctx_t` -/
structure SvcCtx where
  id : Nat
  used : Bool
  svcName : Str
  svcStartPort : Int
  /-- The sockets and events `start_svc_polling` creates are there. -/
  polling : Bool
deriving DecidableEq

/-- `memset(svc_ctx, 0x00, sizeof(service_ctx_t))` -/
def SvcCtx.zero : SvcCtx := ⟨0, false, [], 0, false⟩

/-- `node_data_t` -/
structure NodeData where
  nodeType : NodeType
  host : Str
  name : Str
  svcStartPort : Int
  viaType : Int
  hbRcvTime : Time
  sndrcv : MqSndrcv
  svcCtx : Option SvcRef
deriving DecidableEq

/-- A callback posted to the service thread with `event_base_once`. -/
inductive Deferred where
  | startSvcPolling (svcCtx : SvcRef)
  | svcRelease (svcCtx : SvcRef)
deriving DecidableEq

/-- The tree, the slots and the callbacks the service thread has not run yet. -/
structure Registry where
  rootNode : Node NodeData
  svcCtx : SvcRef → SvcCtx
  evbase : List Deferred

/-! ### Nodes -/

def newNode (reqType : NodeType) (svcRegi : MqRegi) (newSvc : Option SvcRef) (now : Time) :
    NodeData where
  nodeType := reqType
  host := svcRegi.svcHost
  name := if reqType = .svc then svcRegi.tagSvc else svcRegi.tagName
  svcStartPort := if reqType = .svc then toShort ((svcRegi.port * 10).tdiv 10) else 0
  viaType := svcRegi.connType
  hbRcvTime := now
  sndrcv := MqSndrcv.zero
  svcCtx := if reqType = .svc then newSvc else none

def updateNodeInfo (svcRegi : MqRegi) (now : Time) (nodeData : NodeData) : NodeData :=
  { nodeData with hbRcvTime := now, sndrcv := svcRegi.sndrcv }

/-- The name a node of this type is looked up by; `none` where `chk_tree_callback` returns. -/
def compareName (svcRegi : MqRegi) : NodeType → Option Str
  | .svc => some svcRegi.tagSvc
  | .proc => some svcRegi.tagName
  | _ => none

def chkTreeCallback (svcRegi : MqRegi) (type : NodeType) (i : Nat) (node : Node NodeData)
    (arg : ChkTreeArg) : ChkTreeArg :=
  match compareName svcRegi type with
  | none => arg
  | some k => chkName NodeData.name k i node arg

/-- The process is looked for below the service node when that is the service's own. -/
def placeProc (findSvc : ChkTreeArg) (svcRegi : MqRegi) (new : NodeData) (now : Time)
    (svcNode : Node NodeData) : Node NodeData :=
  let findProc :=
    if findSvc.sameNodeExist then svcNode.foreach (chkTreeCallback svcRegi .proc) ChkTreeArg.zero
    else ChkTreeArg.zero
  placeNode findProc (updateNodeInfo svcRegi now) new svcNode

def chkTree (rootNode : Node NodeData) (svcRegi : MqRegi) (reqType : NodeType)
    (newSvc : Option SvcRef) (now : Time) : Node NodeData :=
  let new := newNode reqType svcRegi newSvc now
  let findSvc := rootNode.foreach (chkTreeCallback svcRegi .svc) ChkTreeArg.zero
  match reqType with
  | .svc => placeNode findSvc (updateNodeInfo svcRegi now) new rootNode
  | .proc =>
      match findSvc.findNode with
      | none => rootNode -- no base node, the new one is not linked
      | some i => rootNode.modifyChild i (placeProc findSvc svcRegi new now)
  | _ => rootNode

/-- What a registration does on the level of the services. -/
def svcEntry (svcRegi : MqRegi) (newSvc : Option SvcRef) (now : Time) : Entry Str NodeData where
  key := svcRegi.tagSvc
  update := updateNodeInfo svcRegi now
  new := newNode .svc svcRegi newSvc now

/-- What it does on the level of the processes. -/
def procEntry (svcRegi : MqRegi) (now : Time) : Entry Str NodeData where
  key := svcRegi.tagName
  update := updateNodeInfo svcRegi now
  new := newNode .proc svcRegi none now

theorem chkTree_svc_enter (rootNode : Node NodeData) (svcRegi : MqRegi) (newSvc : Option SvcRef)
    (now : Time) :
    chkTree rootNode svcRegi .svc newSvc now
      = enter NodeData.name [svcEntry svcRegi newSvc now] rootNode :=
  (placeNode_foreach _ _ _ _ _).trans (upsert_eq_enter rootNode (svcEntry svcRegi newSvc now))

theorem placeProc_enter {findSvc : ChkTreeArg} (h : findSvc.sameNodeExist = true)
    (svcRegi : MqRegi) (now : Time) (svcNode : Node NodeData) :
    placeProc findSvc svcRegi (newNode .proc svcRegi none now) now svcNode
      = enter NodeData.name [procEntry svcRegi now] svcNode := by
  rw [placeProc, if_pos h]
  exact (placeNode_foreach _ _ _ _ _).trans (upsert_eq_enter svcNode (procEntry svcRegi now))

/-- **Once the service has its node, the process goes below it.** -/
theorem chkTree_proc_enter {rootNode : Node NodeData}
    (hs : SortedBy NodeData.name rootNode.children) (svcRegi : MqRegi) (now now' : Time) :
    chkTree (chkTree rootNode svcRegi .svc none now) svcRegi .proc none now'
      = enter NodeData.name [svcEntry svcRegi none now, procEntry svcRegi now'] rootNode := by
  obtain ⟨i, hfind, -, hextend⟩ := foreach_entered (e := svcEntry svcRegi none now) hs rfl
    (fun _ => rfl) []
  have hsearch : (enter NodeData.name [svcEntry svcRegi none now] rootNode).foreach
      (chkTreeCallback svcRegi .svc) ChkTreeArg.zero = ⟨true, true, false, some i⟩ := hfind
  rw [chkTree_svc_enter, chkTree]
  simp only [hsearch]
  refine hextend _ _ (fun c _ => ?_) ?_
  · exact placeProc_enter rfl svcRegi now' _
  · exact placeProc_enter rfl svcRegi now' _

/-! ### Slots -/

def setSvcSlot (id : Nat) (svcRegi : MqRegi) (svcCtx : SvcCtx) : SvcCtx :=
  { svcCtx with
    id := id
    used := true
    svcName := svcRegi.tagSvc
    svcStartPort := toShort (svcRegi.port.tdiv 10 * 10) }

/-- What `connect_svc_slot` binds a socket of a slot to: a TCP port, and an ipc name. -/
def boundAddrs (svcCtx : SvcCtx) (offset : Int) (suffix : String) : List Str :=
  [tcpAddr (lit "*") (svcCtx.svcStartPort + offset), ipcAddr svcCtx.svcName suffix]

def pubAddrs (svcCtx : SvcCtx) : List Str := boundAddrs svcCtx 0 "_PUBL.ipc"
def pushAddrs (svcCtx : SvcCtx) : List Str := boundAddrs svcCtx 1 "_PUSH.ipc"
def pullAddrs (svcCtx : SvcCtx) : List Str := boundAddrs svcCtx 2 "_PULL.ipc"

/-- The first slot that is not in use is set up, and its sockets are left to the service
thread. -/
def createNewDealer (s : Registry) (svcRegi : MqRegi) : Option SvcRef × Registry :=
  match (List.finRange maxSvcNum).find? fun i => !(s.svcCtx i).used with
  | none => (none, s)
  | some i =>
      (some i, { s with
        svcCtx := Function.update s.svcCtx i (setSvcSlot i svcRegi (s.svcCtx i))
        evbase := s.evbase ++ [.startSvcPolling i] })

/-- The slot the loop of `chk_svc_dealer` stops at: the first in use with that port. -/
def findPort (s : Registry) (targetPort : Int) : Option SvcRef :=
  (List.finRange maxSvcNum).find? fun i =>
    (s.svcCtx i).used && (s.svcCtx i).svcStartPort == targetPort

/-- `clock` gives the readings of `time`, in the order they are taken. -/
def chkSvcDealer (s : Registry) (svcRegi : MqRegi) (clock : Nat → Time) : Registry :=
  let targetPort := toShort (svcRegi.port.tdiv 10 * 10)
  match findPort s targetPort with
  | some i =>
      if svcRegi.tagSvc ≠ (s.svcCtx i).svcName then s
      else
        let svcNode := chkTree s.rootNode svcRegi .svc none (clock 0)
        { s with rootNode := chkTree svcNode svcRegi .proc none (clock 1) }
  | none =>
      match createNewDealer s svcRegi with
      | (none, s) => s
      | (some newSvc, s) =>
          { s with rootNode := chkTree s.rootNode svcRegi .svc (some newSvc) (clock 0) }

theorem findPort_none {s : Registry} {targetPort : Int} :
    findPort s targetPort = none ↔
      ∀ i, (s.svcCtx i).used = true → (s.svcCtx i).svcStartPort ≠ targetPort := by
  simp [findPort]

theorem findPort_some {s : Registry} {targetPort : Int} {i : SvcRef}
    (h : findPort s targetPort = some i) :
    (s.svcCtx i).used = true ∧ (s.svcCtx i).svcStartPort = targetPort := by
  have hi := List.find?_some h
  simpa using hi

/-- A slot that is taken was free. -/
theorem createNewDealer_some {s s' : Registry} {svcRegi : MqRegi} {i : SvcRef}
    (h : createNewDealer s svcRegi = (some i, s')) :
    (s.svcCtx i).used = false ∧ s' = { s with
      svcCtx := Function.update s.svcCtx i (setSvcSlot i svcRegi (s.svcCtx i))
      evbase := s.evbase ++ [.startSvcPolling i] } := by
  unfold createNewDealer at h
  cases hfind : (List.finRange maxSvcNum).find? fun i => !(s.svcCtx i).used with
  | none => simp [hfind] at h
  | some k =>
      simp only [hfind, Prod.mk.injEq, Option.some.injEq] at h
      obtain ⟨rfl, rfl⟩ := h
      have hfree := List.find?_some hfind
      exact ⟨by simpa using hfree, rfl⟩

/-- No slot is taken only when all are in use. -/
theorem createNewDealer_none {s s' : Registry} {svcRegi : MqRegi}
    (h : createNewDealer s svcRegi = (none, s')) : s' = s ∧ ∀ i, (s.svcCtx i).used = true := by
  unfold createNewDealer at h
  cases hfind : (List.finRange maxSvcNum).find? fun i => !(s.svcCtx i).used with
  | none =>
      simp only [hfind, Prod.mk.injEq, true_and] at h
      refine ⟨h.symm, fun i => ?_⟩
      have := List.find?_eq_none.mp hfind i (List.mem_finRange i)
      simpa using this
  | some k => simp [hfind] at h

/-- The port `chk_svc_dealer` looks for. -/
def targetPort (svcRegi : MqRegi) : Int := toShort (svcRegi.port.tdiv 10 * 10)

/-- The registration takes this slot: no slot in use has its port, and this one is free. -/
structure Takes (s : Registry) (svcRegi : MqRegi) (i : SvcRef) : Prop where
  port : ∀ j, (s.svcCtx j).used = true → (s.svcCtx j).svcStartPort ≠ targetPort svcRegi
  free : (s.svcCtx i).used = false

/-- The slot in use with the port of the registration is this one. -/
structure Hits (s : Registry) (svcRegi : MqRegi) (i : SvcRef) : Prop where
  used : (s.svcCtx i).used = true
  port : (s.svcCtx i).svcStartPort = targetPort svcRegi
  name : (s.svcCtx i).svcName = svcRegi.tagSvc

/-- The registration is turned away: its port is served under another name, or it needs a
slot and none is left. -/
def Refused (s : Registry) (svcRegi : MqRegi) : Prop :=
  (∃ i, (s.svcCtx i).used = true ∧ (s.svcCtx i).svcStartPort = targetPort svcRegi ∧
    (s.svcCtx i).svcName ≠ svcRegi.tagSvc) ∨
  ((∀ j, (s.svcCtx j).used = true → (s.svcCtx j).svcStartPort ≠ targetPort svcRegi) ∧
    ∀ j, (s.svcCtx j).used = true)

theorem Hits.not_takes {s : Registry} {svcRegi : MqRegi} {i : SvcRef} (h : Hits s svcRegi i)
    (j : SvcRef) : ¬ Takes s svcRegi j := fun ht => ht.port i h.used h.port

theorem Refused.not_takes {s : Registry} {svcRegi : MqRegi} (h : Refused s svcRegi) (j : SvcRef) :
    ¬ Takes s svcRegi j := by
  intro ht
  rcases h with ⟨i, hused, hport, -⟩ | ⟨-, hfull⟩
  · exact ht.port i hused hport
  · exact absurd (hfull j) (by simp [ht.free])

/-- The registry after a registration that takes the slot. -/
def afterTake (s : Registry) (svcRegi : MqRegi) (clock : Nat → Time) (i : SvcRef) : Registry where
  rootNode := chkTree s.rootNode svcRegi .svc (some i) (clock 0)
  svcCtx := Function.update s.svcCtx i (setSvcSlot i svcRegi (s.svcCtx i))
  evbase := s.evbase ++ [.startSvcPolling i]

@[simp] theorem afterTake_self (s : Registry) (svcRegi : MqRegi) (clock : Nat → Time)
    (i : SvcRef) : (afterTake s svcRegi clock i).svcCtx i = setSvcSlot i svcRegi (s.svcCtx i) :=
  Function.update_self _ _ _

/-- The other slots stay what they are. -/
theorem afterTake_other (s : Registry) (svcRegi : MqRegi) (clock : Nat → Time) {i j : SvcRef}
    (h : j ≠ i) : (afterTake s svcRegi clock i).svcCtx j = s.svcCtx j :=
  Function.update_of_ne h _ _

/-- The registry after a registration for a slot that is there. -/
def afterHit (s : Registry) (svcRegi : MqRegi) (clock : Nat → Time) : Registry :=
  { s with
    rootNode :=
      chkTree (chkTree s.rootNode svcRegi .svc none (clock 0)) svcRegi .proc none (clock 1) }

/-- **What a registration does**: it takes a slot, or finds its own, or changes nothing. -/
theorem chkSvcDealer_cases (s : Registry) (svcRegi : MqRegi) (clock : Nat → Time) :
    (∃ i, Takes s svcRegi i ∧ chkSvcDealer s svcRegi clock = afterTake s svcRegi clock i) ∨
    (∃ i, Hits s svcRegi i ∧ chkSvcDealer s svcRegi clock = afterHit s svcRegi clock) ∨
    (Refused s svcRegi ∧ chkSvcDealer s svcRegi clock = s) := by
  simp only [chkSvcDealer]
  cases hport : findPort s (toShort (svcRegi.port.tdiv 10 * 10)) with
  | some i =>
      obtain ⟨hused, hi⟩ := findPort_some hport
      simp only
      by_cases hname : svcRegi.tagSvc ≠ (s.svcCtx i).svcName
      · rw [if_pos hname]
        exact Or.inr (Or.inr ⟨Or.inl ⟨i, hused, hi, hname.symm⟩, rfl⟩)
      · rw [if_neg hname]
        exact Or.inr (Or.inl ⟨i, ⟨hused, hi, (not_not.mp hname).symm⟩, rfl⟩)
  | none =>
      have hnone := findPort_none.mp hport
      rcases hc : createNewDealer s svcRegi with ⟨_ | i, s'⟩
      · obtain ⟨rfl, hall⟩ := createNewDealer_none hc
        exact Or.inr (Or.inr ⟨Or.inr ⟨hnone, hall⟩, rfl⟩)
      · obtain ⟨hfree, rfl⟩ := createNewDealer_some hc
        exact Or.inl ⟨i, ⟨hnone, hfree⟩, rfl⟩

/-! ### Sweeping -/

def tmchkNoresp : Time := 5

/-- The slot `RemoveNode` has released. -/
def NodeData.releases (d : NodeData) : Option SvcRef :=
  if d.nodeType = .svc then d.svcCtx else none

def removetreeCallback (s : Registry) (current : Time) : Registry :=
  let swept := s.rootNode.sweep (fun d => tmchkNoresp < current - d.hbRcvTime) NodeData.releases
  { s with rootNode := swept.1, evbase := s.evbase ++ swept.2.map .svcRelease }

/-! ### The service thread -/

def startSvcPolling (s : Registry) (i : SvcRef) : Registry :=
  { s with svcCtx := Function.update s.svcCtx i { s.svcCtx i with polling := true } }

def svcRelease (s : Registry) (i : SvcRef) : Registry :=
  { s with svcCtx := Function.update s.svcCtx i SvcCtx.zero }

/-- The service thread runs the callback that was posted first. -/
def runDeferred (s : Registry) : Registry :=
  match s.evbase with
  | [] => s
  | .startSvcPolling i :: rest => startSvcPolling { s with evbase := rest } i
  | .svcRelease i :: rest => svcRelease { s with evbase := rest } i

theorem runDeferred_nil {s : Registry} (h : s.evbase = []) : runDeferred s = s := by
  rw [runDeferred, h]

theorem runDeferred_start {s : Registry} {i : SvcRef} {rest : List Deferred}
    (h : s.evbase = .startSvcPolling i :: rest) :
    runDeferred s = startSvcPolling { s with evbase := rest } i := by
  rw [runDeferred, h]

theorem runDeferred_release {s : Registry} {i : SvcRef} {rest : List Deferred}
    (h : s.evbase = .svcRelease i :: rest) :
    runDeferred s = svcRelease { s with evbase := rest } i := by
  rw [runDeferred, h]

/-! ### The registration thread -/

def localdomain : Str := lit "localdomain"

/-- What `regi_action` uses of `main_ctx_t`. -/
structure RegiCtx where
  zmqSub : In
  /-- `none` when the broker runs without a hub. -/
  zmqPubToInterhub : Option Out
  registry : Registry

/-- The registration with where it came from filled in. -/
def addPeer (svcRegi : MqRegi) (peerAddress : Str) : MqRegi :=
  if svcRegi.connType ≠ connIpc then svcRegi.setSvcHost peerAddress
  else svcRegi.setSvcHost localdomain

/-- `progname` and `pid` name the broker. -/
def regiAction (progname : Str) (pid : Nat) (ctx : RegiCtx) (action peerAddress : Str)
    (clock : Nat → Time) : Int × RegiCtx :=
  if action = mqReg then
    match ctx.zmqSub.recv with
    | none => (-1, ctx)
    | some (f, sub) =>
        let svcRegi := addPeer (MqRegi.zero.recv f) peerAddress
        match ctx.zmqPubToInterhub with
        | none =>
            (1, { ctx with zmqSub := sub, registry := chkSvcDealer ctx.registry svcRegi clock })
        | some pub =>
            let svcRegi := svcRegi.setBrokerName (resTagName progname pid)
            (1, {
              zmqSub := sub
              zmqPubToInterhub := some (sendRegi pub svcRegi)
              registry := chkSvcDealer ctx.registry svcRegi clock })
  else (0, ctx)

/-- What `initialize` creates on a host of this name. -/
def initRegistry (hostname : Str) (now : Time) : Registry where
  rootNode := .leaf (newNode .broker
    ((MqRegi.zero.setSvcHost hostname).setTagName (lit "Broker")) none now)
  svcCtx _ := SvcCtx.zero
  evbase := []

end Brocoli.Broker
