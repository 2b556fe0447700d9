/-
The thread the hub runs for a broker: the callbacks of `broker_thread` in `hub.c`.

The thread subscribes to the registrations of all brokers, from which it keeps a small tree
of who serves what, and to what the other threads publish under the id of its broker.  Its
dealer is a peer of the broker's router: what comes from there is published to the thread
of the broker that serves it, and what comes from the other threads is sent there.

Both callbacks receive into a buffer that outlives the message, and compare it as a string.
-/
import Brocoli.Lib.Arrivals
import Brocoli.Lib.Runs
import Brocoli.HubRegistry
import Brocoli.Relay

namespace Brocoli.Hub

open CMem Multipart NTree Runs Arrivals

/-- `node_data_small_t` -/
structure NodeDataSmall where
  nodeType : NodeType
  brokerId : Str
  svcExist : Str
  hbRcvTime : Time
deriving DecidableEq

/-- What a thread uses of its `broker_ctx_t`.  `ticks` counts its readings of the clock. -/
structure BrokerThread where
  brokerId : Str
  rootNode : Node NodeDataSmall
  zmqDealerIn : In
  zmqDealerOut : Out
  zmqPub : Out
  zmqSub : In
  ticks : Nat

/-! ### The small tree -/

/-- `NewNodeSmall` of the registration. -/
def newNodeSmall (svcRegi : MqRegi) (nodeType : NodeType) (now : Time) : NodeDataSmall where
  nodeType := nodeType
  brokerId := brokerIdOf svcRegi
  svcExist := svcRegi.tagSvc
  hbRcvTime := now

/-- The entry that is there is updated, one that is not is added behind the others. -/
def touch (same : NodeDataSmall → Bool) (new : NodeDataSmall) (n : Node NodeDataSmall) :
    Node NodeDataSmall :=
  match n.children.findIdx? fun c => same c.data with
  | some i => n.modifyChild i fun c => c.mapData fun d => { d with hbRcvTime := new.hbRcvTime }
  | none => n.insertBefore none (.leaf new)

/-- The position of an entry that `touch` has just dealt with. -/
def position (same : NodeDataSmall → Bool) (n : Node NodeDataSmall) : Nat :=
  (n.children.findIdx? fun c => same c.data).getD n.children.length

/-- The clock is read once for the broker and once for the service. -/
def chkSmallTree (rootNode : Node NodeDataSmall) (svcRegi : MqRegi) (now now' : Time) :
    Node NodeDataSmall :=
  let brokerSame := fun d : NodeDataSmall => d.brokerId == brokerIdOf svcRegi
  let svcSame := fun d : NodeDataSmall => d.svcExist == svcRegi.tagSvc
  let withBroker := touch brokerSame (newNodeSmall svcRegi .broker now) rootNode
  withBroker.modifyChild (position brokerSame rootNode) fun findBroker =>
    touch svcSame (newNodeSmall svcRegi .svc now') findBroker

/-- An entry that is found gets the time of the registration. -/
def NodeDataSmall.heardAt (now : Time) (d : NodeDataSmall) : NodeDataSmall :=
  { d with hbRcvTime := now }

theorem findIdx?_split {p : Node NodeDataSmall → Bool} {x : Node NodeDataSmall}
    {a b : List (Node NodeDataSmall)} (ha : ∀ y ∈ a, p y = false) (hx : p x = true) :
    (a ++ x :: b).findIdx? p = some a.length := by
  have hnone : a.findIdx? p = none := List.findIdx?_eq_none_iff.mpr ha
  rw [List.findIdx?_append, hnone, List.findIdx?_cons, if_pos hx]
  simp

theorem touch_eq (same : NodeDataSmall → Bool) (new : NodeDataSmall) (n : Node NodeDataSmall) :
    touch same new n = ⟨n.data, findOrAdd (fun c => same c.data)
      (fun c => c.mapData (NodeDataSmall.heardAt new.hbRcvTime)) (.leaf new) n.children⟩ := by
  rw [touch]
  rcases first_cases (fun c => same c.data) n.children with ⟨a, x, b, hcs, ha, hx⟩ | hall
  · rw [hcs, findIdx?_split ha hx, findOrAdd_found _ _ ha hx]
    simp only [Node.modifyChild, hcs, modify_append]
    rfl
  · rw [List.findIdx?_eq_none_iff.mpr hall, findOrAdd_fresh _ _ hall]
    rfl

@[simp] theorem touch_data (same : NodeDataSmall → Bool) (new : NodeDataSmall)
    (n : Node NodeDataSmall) : (touch same new n).data = n.data := by
  rw [touch_eq, data_mk]

/-- **A registration finds or adds its broker, and below that its service.** -/
theorem chkSmallTree_eq (rootNode : Node NodeDataSmall) (svcRegi : MqRegi) (now now' : Time) :
    chkSmallTree rootNode svcRegi now now' = ⟨rootNode.data,
      findOrAdd (fun b => b.data.brokerId == brokerIdOf svcRegi)
        (fun b => touch (fun d => d.svcExist == svcRegi.tagSvc) (newNodeSmall svcRegi .svc now')
          (b.mapData (NodeDataSmall.heardAt now)))
        (touch (fun d => d.svcExist == svcRegi.tagSvc) (newNodeSmall svcRegi .svc now')
          (.leaf (newNodeSmall svcRegi .broker now)))
        rootNode.children⟩ := by
  rw [chkSmallTree, touch_eq, Node.modifyChild, data_mk, children_mk, position]
  rcases first_cases (fun b : Node NodeDataSmall => b.data.brokerId == brokerIdOf svcRegi)
    rootNode.children with ⟨a, x, b, hcs, ha, hx⟩ | hall
  · rw [hcs, findIdx?_split ha hx, findOrAdd_found _ _ ha hx, findOrAdd_found _ _ ha hx,
      Option.getD_some, modify_append]
    rfl
  · rw [List.findIdx?_eq_none_iff.mpr hall, findOrAdd_fresh _ _ hall, findOrAdd_fresh _ _ hall,
      Option.getD_none, modify_append]

/-- Everything the tree says about who serves what is so. -/
def Entries (P : Str → Str → Prop) (rootNode : Node NodeDataSmall) : Prop :=
  ∀ b ∈ rootNode.children, ∀ c ∈ b.children, P b.data.brokerId c.data.svcExist

/-- A registration enters its broker with its service, and nothing else. -/
theorem entries_chkSmallTree {P : Str → Str → Prop} {rootNode : Node NodeDataSmall}
    (h : Entries P rootNode) {svcRegi : MqRegi} (hnew : P (brokerIdOf svcRegi) svcRegi.tagSvc)
    (now now' : Time) : Entries P (chkSmallTree rootNode svcRegi now now') := by
  -- the broker has the services it had, and the one of the registration
  have hbelow : ∀ b : Node NodeDataSmall, b.data.brokerId = brokerIdOf svcRegi →
      (∀ c ∈ b.children, P b.data.brokerId c.data.svcExist) →
      ∀ c ∈ (touch (fun d => d.svcExist == svcRegi.tagSvc) (newNodeSmall svcRegi .svc now')
        b).children, P b.data.brokerId c.data.svcExist := by
    intro b hid hb c hc
    rw [touch_eq] at hc
    rcases mem_findOrAdd hc with hc | ⟨d, hd, -, rfl⟩ | rfl
    · exact hb c hc
    · exact hb d hd
    · rw [hid]
      exact hnew
  intro b hb c hc
  rw [chkSmallTree_eq] at hb
  rcases mem_findOrAdd hb with hb | ⟨d, hd, hsame, rfl⟩ | rfl
  · exact h b hb c hc
  · have hid : d.data.brokerId = brokerIdOf svcRegi := by simpa using hsame
    rw [touch_data]
    exact hbelow (d.mapData (NodeDataSmall.heardAt now)) hid (h d hd) c hc
  · rw [touch_data]
    exact hbelow (.leaf (newNodeSmall svcRegi .broker now)) rfl
      (fun x hx => absurd hx List.not_mem_nil) c hc

def tmchkBrokerSvc : Time := 3

def expired (current : Time) (d : NodeDataSmall) : Bool := tmchkBrokerSvc < current - d.hbRcvTime

/-- The loops of `remove_smalltree_callback`: the first node that has expired goes, and the
rest is left for the next tick. -/
def removeFirst (current : Time) : List (Node NodeDataSmall) → List (Node NodeDataSmall)
  | [] => []
  | b :: rest =>
      if expired current b.data then rest
      else if b.children.any fun c => expired current c.data then
        ⟨b.data, b.children.eraseP fun c => expired current c.data⟩ :: rest
      else b :: removeFirst current rest

def removeSmalltreeCallback (rootNode : Node NodeDataSmall) (current : Time) :
    Node NodeDataSmall := ⟨rootNode.data, removeFirst current rootNode.children⟩

/-- **What the timer does**: a broker that has expired goes, or a service that has, or nothing
has expired. -/
theorem removeFirst_cases (current : Time) : ∀ l : List (Node NodeDataSmall),
    (∃ a b c, l = a ++ b :: c ∧ expired current b.data = true ∧
      removeFirst current l = a ++ c) ∨
    (∃ a b c d x e, l = a ++ b :: c ∧ b.children = d ++ x :: e ∧
      expired current x.data = true ∧ removeFirst current l = a ++ ⟨b.data, d ++ e⟩ :: c) ∨
    ((∀ b ∈ l, expired current b.data = false ∧
      ∀ x ∈ b.children, expired current x.data = false) ∧ removeFirst current l = l) := by
  intro l
  induction l with
  | nil => exact Or.inr (Or.inr ⟨by simp, rfl⟩)
  | cons b l ih =>
      rw [removeFirst]
      by_cases hbroker : expired current b.data = true
      · rw [if_pos hbroker]
        exact Or.inl ⟨[], b, l, rfl, hbroker, rfl⟩
      · rw [if_neg hbroker]
        by_cases hsvc : (b.children.any fun c => expired current c.data) = true
        · obtain ⟨y, hy, hexp⟩ := List.any_eq_true.mp hsvc
          obtain ⟨x, d, e, -, hx, hcs, herase⟩ :=
            List.exists_of_eraseP (p := fun c => expired current c.data) hy hexp
          rw [if_pos hsvc]
          exact Or.inr (Or.inl ⟨[], b, l, d, x, e, rfl, hcs, hx, by rw [herase, List.nil_append]⟩)
        · have hnone : expired current b.data = false ∧
              ∀ x ∈ b.children, expired current x.data = false := by
            refine ⟨by simpa using hbroker, fun x hx => ?_⟩
            by_contra hexp
            exact hsvc (List.any_eq_true.mpr ⟨x, hx, by simpa using hexp⟩)
          rw [if_neg hsvc]
          rcases ih with ⟨a, x, c, rfl, hexp, hrem⟩ | ⟨a, x, c, d, y, e, rfl, hcs, hexp, hrem⟩ |
            ⟨hall, hrem⟩
          · exact Or.inl ⟨b :: a, x, c, rfl, hexp, by rw [hrem, List.cons_append]⟩
          · exact Or.inr (Or.inl
              ⟨b :: a, x, c, d, y, e, rfl, hcs, hexp, by rw [hrem, List.cons_append]⟩)
          · exact Or.inr (Or.inr ⟨List.forall_mem_cons.mpr ⟨hnone, hall⟩, by rw [hrem]⟩)

/-- A node that is left has its name, and some of its children. -/
theorem mem_removeFirst {current : Time} {b : Node NodeDataSmall} {l : List (Node NodeDataSmall)}
    (h : b ∈ removeFirst current l) : ∃ d ∈ l, b.data = d.data ∧ b.children.Sublist d.children := by
  rcases removeFirst_cases current l with ⟨a, x, c, rfl, -, hrem⟩ |
    ⟨a, x, c, d, y, e, rfl, hcs, -, hrem⟩ | ⟨-, hrem⟩
  · rw [hrem] at h
    refine ⟨b, ?_, rfl, List.Sublist.refl _⟩
    rcases List.mem_append.mp h with h | h
    · exact List.mem_append_left _ h
    · exact List.mem_append_right _ (List.mem_cons_of_mem _ h)
  · rw [hrem] at h
    rcases List.mem_append.mp h with h | h
    · exact ⟨b, List.mem_append_left _ h, rfl, List.Sublist.refl _⟩
    · rcases List.mem_cons.mp h with rfl | h
      · refine ⟨x, by simp, rfl, ?_⟩
        rw [hcs, children_mk]
        exact (List.sublist_cons_self y e).append_left d
      · exact ⟨b, List.mem_append_right _ (List.mem_cons_of_mem _ h), rfl, List.Sublist.refl _⟩
  · rw [hrem] at h
    exact ⟨b, h, rfl, List.Sublist.refl _⟩

/-- The nodes that are left are in their order. -/
theorem removeFirst_sublist (current : Time) (l : List (Node NodeDataSmall)) :
    ((removeFirst current l).map Node.data).Sublist (l.map Node.data) := by
  rcases removeFirst_cases current l with ⟨a, x, c, rfl, -, hrem⟩ |
    ⟨a, x, c, d, y, e, rfl, -, -, hrem⟩ | ⟨-, hrem⟩
  · rw [hrem, List.map_append, List.map_append, List.map_cons]
    exact (List.sublist_cons_self _ _).append_left _
  · rw [hrem, List.map_append, List.map_append, List.map_cons, List.map_cons]
    exact List.Sublist.refl _
  · rw [hrem]

/-- The timer enters nothing. -/
theorem entries_removeSmalltreeCallback {P : Str → Str → Prop} {rootNode : Node NodeDataSmall}
    (h : Entries P rootNode) (current : Time) :
    Entries P (removeSmalltreeCallback rootNode current) := by
  intro b hb c hc
  obtain ⟨d, hd, hdata, hsub⟩ := mem_removeFirst hb
  rw [hdata]
  exact h d hd c (hsub.subset hc)

/-- The first broker other than the thread's own that has the service. -/
def findSvcExistTree (t : BrokerThread) (svcName : Str) : Option Str :=
  (t.rootNode.children.find? fun b =>
    b.data.brokerId != t.brokerId && b.children.any fun c => svcName == c.data.svcExist).map
      fun b => b.data.brokerId

/-- What is found is another broker, which the tree says has the service. -/
theorem findSvcExistTree_some {P : Str → Str → Prop} {t : BrokerThread}
    (h : Entries P t.rootNode) {svcName id : Str} (hfind : findSvcExistTree t svcName = some id) :
    id ≠ t.brokerId ∧ P id svcName := by
  unfold findSvcExistTree at hfind
  obtain ⟨b, hb, rfl⟩ := Option.map_eq_some_iff.mp hfind
  have hpred := List.find?_some hb
  simp only [Bool.and_eq_true, bne_iff_ne, ne_eq, List.any_eq_true, beq_iff_eq] at hpred
  obtain ⟨hne, c, hc, rfl⟩ := hpred
  exact ⟨hne, h b (List.mem_of_find?_eq_some hb) c hc⟩

/-! ### From the broker to the other threads -/

def findSvcAndRelay (t : BrokerThread) : BrokerThread :=
  match t.zmqDealerIn.recv with
  | none => t
  | some (f, src) =>
      let tgsvcName := ((Buf.zero 128).recv f).str
      match findSvcExistTree t tgsvcName with
      | none => { t with zmqDealerIn := src }
      | some brokerId =>
          match src.recv with
          | none => { t with zmqDealerIn := src }
          | some (g, src) =>
              let fromTag := (MqTag.zero.recv g).setBroker t.brokerId
              match t.zmqPub.sendWhile (fun _ => true)
                [brokerId, mqReqInterhub, tgsvcName, fromTag.mem] with
              | (true, pub) =>
                  let r := relaySndMore src pub none
                  { t with zmqDealerIn := r.src, zmqPub := r.dst }
              | (false, pub) => { t with zmqDealerIn := src, zmqPub := pub }

def findBrokerAndRelay (t : BrokerThread) : BrokerThread :=
  match t.zmqDealerIn.recv with
  | none => t
  | some (f, src) =>
      let brokerId := ((Buf.zero 128).recv f).str
      match t.zmqPub.sendWhile (fun _ => true) [brokerId, mqResInterhub] with
      | (true, pub) =>
          let r := relaySndMore src pub none
          { t with zmqDealerIn := r.src, zmqPub := r.dst }
      | (false, pub) => { t with zmqDealerIn := src, zmqPub := pub }

/-- The dispatch on the message type. -/
def interhubBody (t : BrokerThread) (msgType : Str) : BrokerThread :=
  if msgType = mqReq then findSvcAndRelay t
  else if msgType = mqResInterhub then findBrokerAndRelay t
  else if msgType = mqLog then
    match t.zmqDealerIn.recv with
    | none => t
    | some (_, src) => { t with zmqDealerIn := src }
  else t

/-- One evaluation of the condition of `interhub_callback` and, when something was received,
the body.  The state is the thread and the `msg_type` buffer. -/
def interhubIter (s : BrokerThread × Buf 128) : Option (BrokerThread × Buf 128) :=
  match s.1.zmqDealerIn.recv with
  | none => none
  | some (f, src) =>
      -- the NUL is not written: what is left of a longer type stays
      let msgType := s.2.recv f
      some (interhubBody { s.1 with zmqDealerIn := src } msgType.str, msgType)

/-- Every iteration takes a frame off the dealer, so there are no more of them than frames
waiting there. -/
def interhubCallback (t : BrokerThread) : BrokerThread :=
  (whileSome interhubIter t.zmqDealerIn.queue.length (t, Buf.zero 128)).1

/-! ### From the other threads to the broker -/

def relayToBroker (t : BrokerThread) (msgType : Str) : BrokerThread :=
  match t.zmqSub.recv with
  | none => t
  | some (f, src) =>
      match src.recv with
      | none => { t with zmqSub := src }
      | some (g, src) =>
          let tgsvcName := ((Buf.zero 128).recv f).str
          let fromTag := MqTag.zero.recv g
          match t.zmqDealerOut.sendWhile (fun _ => true) [msgType, tgsvcName, fromTag.mem] with
          | (true, dealer) =>
              let r := relaySndMore src dealer none
              { t with zmqSub := r.src, zmqDealerOut := r.dst }
          | (false, dealer) => { t with zmqSub := src, zmqDealerOut := dealer }

/-- `time k` is what the clock shows when the thread reads it for the `k`-th time. -/
def brokerSubBody (time : Nat → Time) (t : BrokerThread) (action : Str) : BrokerThread :=
  match t.zmqSub.recv with
  | none => t
  | some (f, src) =>
      let t := { t with zmqSub := src }
      if action = mqReg then
        { t with
          rootNode :=
            chkSmallTree t.rootNode (MqRegi.zero.recv f) (time t.ticks) (time (t.ticks + 1))
          ticks := t.ticks + 2 }
      else
        let msgType := ((Buf.zero 128).recv f).str
        -- a plain request, or response, for the router
        if msgType = mqReqInterhub then relayToBroker t mqReq
        else if msgType = mqResInterhub then relayToBroker t mqRes
        else t

/-- One iteration of `broker_sub_callback`; the state is the thread and the `action`
buffer. -/
def brokerSubIter (time : Nat → Time) (s : BrokerThread × Buf 1024) :
    Option (BrokerThread × Buf 1024) :=
  match s.1.zmqSub.recv with
  | none => none
  | some (f, src) =>
      -- the NUL is not written: what is left of a longer topic stays
      let action := s.2.recv f
      some (brokerSubBody time { s.1 with zmqSub := src } action.str, action)

def brokerSubCallback (time : Nat → Time) (t : BrokerThread) : BrokerThread :=
  (whileSome (brokerSubIter time) t.zmqSub.queue.length (t, Buf.zero 1024)).1

end Brocoli.Hub
