/-
Brokers and their hub.

The router of a broker is where the two meet.  What a process of the broker sends comes to it
from the slot of its service, and it goes to another slot, to the publisher, or to the hub;
and what the hub's thread for the broker sends comes to it as the messages of one more peer.
So a request for a service the broker does not have goes from its router through the hub to
the router of another broker, and the response comes back that way.

What the processes have sent is remembered, and what the routers have passed to the slots and
published.
-/
import Brocoli.Switch
import Brocoli.Router

namespace Brocoli

open CMem Multipart NTree Carriage Hub

/-- What a slot passes to the router for a process: `mq_send_req`, `mq_send_res` with a tag of
this broker and with one of another, and `mq_send_log`. -/
inductive ProcessMsg where
  | req (svc : Frame) (tag : MqTag) (body : Frame)
  | res (svc name body : Frame)
  | resInterhub (broker svc name body : Frame)
  | log (text : Frame)

namespace ProcessMsg

def type : ProcessMsg → Str
  | req .. => mqReq
  | res .. => mqRes
  | resInterhub .. => mqResInterhub
  | log _ => mqLog

/-- The frames behind the type. -/
def rest : ProcessMsg → Msg
  | req svc tag body => [svc, tag.mem, body]
  | res svc name body => [svc, name, body]
  | resInterhub broker svc name body => [broker, svc, name, body]
  | log text => [text]

def frames (m : ProcessMsg) : Msg := m.type :: m.rest

end ProcessMsg

/-- A message on the dealer, read as one of those a router can send. -/
def Hub.DealerMsg.ofFrames : Msg → Option DealerMsg
  | [ty, text] => if ty = mqLog then some (.log text) else none
  | [ty, svc, tag, body] => if ty = mqReq then some (.req svc (MqTag.zero.recv tag) body) else none
  | [ty, broker, svc, name, body] =>
      if ty = mqResInterhub then some (.resInterhub broker svc name body) else none
  | _ => none

/-- The hub with the routers of the brokers `β`, and the pipes between them. -/
structure Cluster (β : Type) where
  hub : Switch β
  ctx : β → RouterCtx
  /-- From the router of a broker to the dealer of its thread. -/
  toHub : β → List Msg
  /-- From the dealer of a thread to the router of its broker. -/
  toBroker : β → List Msg
  sent : β → List ProcessMsg
  /-- What the router has passed to the slots. -/
  handed : β → List Msg
  answered : β → List Msg

inductive ClusterStep (β : Type) where
  | send (a : β) (svc : Str) (m : ProcessMsg)
  | router (a : β)
  | toHub (a : β)
  | toBroker (b : β)
  | hub (e : SwitchStep β)

namespace Cluster

variable {β : Type} [DecidableEq β]

def setCtx (x : Cluster β) (a : β) (ctx : RouterCtx) : Cluster β :=
  { x with ctx := Function.update x.ctx a ctx }

/-- `time b` is the clock of the thread of `b`. -/
def step (time : β → Nat → Time) (x : Cluster β) : ClusterStep β → Cluster β
  | .send a svc m =>
      let ctx := x.ctx a
      { x.setCtx a { ctx with routerIn := ctx.routerIn.arrive (fromPeer svc m.frames) } with
        sent := Function.update x.sent a (x.sent a ++ [m]) }
  | .router a =>
      let ctx := routerCallback (x.ctx a)
      let out := (x.ctx a).routerOut.since ctx.routerOut
      { x.setCtx a ctx with
        toHub := Function.update x.toHub a (x.toHub a ++ routedTo interhubName out)
        handed := Function.update x.handed a
          (x.handed a ++ out.filter fun m => m.headD [] != interhubName)
        answered := Function.update x.answered a
          (x.answered a ++ (x.ctx a).zmqPub.since ctx.zmqPub) }
  | .toHub a =>
      match x.toHub a with
      | [] => x
      | m :: ms =>
          match DealerMsg.ofFrames m with
          | none => x
          | some d =>
              { x with
                hub := x.hub.step time (.arrive a d)
                toHub := Function.update x.toHub a ms }
  | .toBroker b =>
      match x.toBroker b with
      | [] => x
      | m :: ms =>
          let ctx := x.ctx b
          { x.setCtx b { ctx with routerIn := ctx.routerIn.arrive (fromPeer interhubName m) } with
            toBroker := Function.update x.toBroker b ms }
  | .hub e =>
      let hub := x.hub.step time e
      { x with
        hub := hub
        toBroker := fun b => x.toBroker b ++
          (x.hub.thread b).zmqDealerOut.since (hub.thread b).zmqDealerOut }

end Cluster

/-- The peers of a router: the hub, and the slots of the services. -/
def knows (services : List Str) (f : Frame) : Bool := f == interhubName || services.contains f

section Cluster

variable {β : Type} (id : β → Str) (services : β → List Str)

/-- The broker `b` with the slots of `services b`. -/
def Cluster.start (now : Time) : Cluster β where
  hub := Switch.start id now
  ctx b := ⟨In.holding [], ⟨.router (knows (services b)), [], []⟩, ⟨.pub, [], []⟩, true⟩
  toHub _ := []
  toBroker _ := []
  sent _ := []
  handed _ := []
  answered _ := []

/-! ### What may come -/

/-- A message of a process: a request that has not been at the hub, a response to a process
of the broker, or one to a process of another that is there. -/
def ProcessMsg.Valid : ProcessMsg → Prop
  | .req svc tag body => IsName 24 svc ∧ svc ≠ interhubName ∧ tag.viaInterhub = false ∧
      body.length ≤ maxBuffSize
  | .res svc name body => Relayable [svc, name, body]
  | .resInterhub broker svc name body => (DealerMsg.resInterhub broker svc name body).Valid id
  | .log _ => True

/-- A broker registers the services it has slots of. -/
def Offered (svcRegi : MqRegi) : Prop :=
  ∀ b, brokerIdOf svcRegi = id b → svcRegi.tagSvc ∈ services b

/-- What comes to the dealer of a thread comes from the router. -/
def Inside : SwitchStep β → Prop
  | .arrive .. => False
  | .announce svcRegi => Offered id services svcRegi
  | _ => True

def ClusterStep.Valid (x : Cluster β) : ClusterStep β → Prop
  | .send _ _ m => m.Valid id
  | .hub e => e.Valid id x.hub ∧ Inside id services e
  | _ => True

end Cluster

/-! ### What goes from router to router -/

/-- What is at a router: a message of a process, with the service of its slot, or one of
another broker. -/
inductive Incoming (β : Type) where
  | sent (svc : Str) (m : ProcessMsg)
  | relay (origin : β) (r : Relay)

namespace Incoming

variable {β : Type}

def sent? : Incoming β → Option ProcessMsg
  | sent _ m => some m
  | relay .. => none

/-- The message of another broker, with that broker. -/
def relay? : Incoming β → Option (β × Relay)
  | sent .. => none
  | relay origin r => some (origin, r)

def identity : Incoming β → Str
  | sent svc _ => svc
  | relay .. => interhubName

def type : Incoming β → Str
  | sent _ m => m.type
  | relay _ r => if r.response then mqRes else mqReq

/-- The frames behind the identity and the type. -/
def rest : Incoming β → Msg
  | sent _ m => m.rest
  | relay _ r => [cstr r.svc, (MqTag.zero.recv r.tagOrName).mem, r.body]

def frames (m : Incoming β) : Msg := m.identity :: m.type :: m.rest

/-- What goes to the slots for it. -/
def slots (services : List Str) : Incoming β → List Msg
  | sent _ (.req svc tag body) => if svc ∈ services then [[svc, tag.mem, body]] else []
  | relay _ r =>
      if r.response then [] else [[cstr r.svc, (MqTag.zero.recv r.tagOrName).mem, r.body]]
  | _ => []

/-- What is published for it. -/
def published : Incoming β → List Msg
  | sent _ (.res svc name body) => [[svc, name, body]]
  | relay _ r =>
      if r.response then [[cstr r.svc, (MqTag.zero.recv r.tagOrName).mem, r.body]] else []
  | _ => []

/-- What goes to the hub for it. -/
def upward (services : List Str) : Incoming β → List DealerMsg
  | sent _ (.req svc tag body) =>
      if svc ∈ services then []
      else [.log (unroutableLog tag.setViaInterhub svc), .req svc tag.setViaInterhub body]
  | sent _ (.resInterhub broker svc name body) => [.resInterhub broker svc name body]
  | _ => []

/-- What the router sends to its peers for a message. -/
def routed (services : List Str) : Incoming β → List Msg
  | sent _ (.req svc tag body) =>
      if svc ∈ services then [[svc, tag.mem, body]] else toInterhub tag svc body
  | sent _ (.resInterhub broker svc name body) =>
      [[interhubName, mqResInterhub, broker, svc, name, body]]
  | relay _ r =>
      if r.response then [] else [[cstr r.svc, (MqTag.zero.recv r.tagOrName).mem, r.body]]
  | _ => []

/-- It is what a process may send, or a request that another broker has sent because this one
has the service. -/
def Valid (id : β → Str) (services : List Str) : Incoming β → Prop
  | sent _ m => m.Valid id
  | relay _ r => r.toSub.Fits ∧ (r.response = false → cstr r.svc ∈ services)

end Incoming

/-- What is at the routers, what they have handled, and what is in the pipes to the hub and
from it. -/
structure ClusterFlow (β : Type) where
  hub : Flow β
  waiting : β → List (Incoming β)
  taken : β → List (Incoming β)
  toHub : β → List DealerMsg
  toBroker : β → List (β × Relay)

section Flow

variable {β : Type}

def ClusterFlow.start : ClusterFlow β where
  hub := Flow.start
  waiting _ := []
  taken _ := []
  toHub _ := []
  toBroker _ := []

/-- What comes out of the hub with a step. -/
def comesOut [DecidableEq β] (f : Flow β) : SwitchStep β → β → List (β × Relay)
  | .sub b => Function.update (fun _ => []) b ((f.sub b).filterMap Item.sent?)
  | _ => fun _ => []

def ClusterFlow.step [DecidableEq β] (services : β → List Str) (f : ClusterFlow β)
    (zs : List (β × Relay)) : ClusterStep β → ClusterFlow β
  | .send a svc m =>
      { f with waiting := Function.update f.waiting a (f.waiting a ++ [.sent svc m]) }
  | .router a =>
      let ms := (f.waiting a).take 1000
      { f with
        waiting := Function.update f.waiting a ((f.waiting a).drop 1000)
        taken := Function.update f.taken a (f.taken a ++ ms)
        toHub := Function.update f.toHub a
          (f.toHub a ++ ms.flatMap (Incoming.upward (services a))) }
  | .toHub a =>
      match f.toHub a with
      | [] => f
      | _ :: rest => { f with toHub := Function.update f.toHub a rest }
  | .toBroker b =>
      match f.toBroker b with
      | [] => f
      | z :: rest =>
          { f with
            toBroker := Function.update f.toBroker b rest
            waiting := Function.update f.waiting b (f.waiting b ++ [.relay z.1 z.2]) }
  | .hub e =>
      { f with
        hub := f.hub.step zs e
        toBroker := fun b => f.toBroker b ++ comesOut f.hub e b }

end Flow

section Delivery

variable {β : Type}

/-- It is for another broker. -/
def ProcessMsg.leaves (services : List Str) : ProcessMsg → Bool
  | .req svc _ _ => !services.contains svc
  | .resInterhub .. => true
  | _ => false

/-- What a message for another broker is when it comes to the router there: a request, marked
and with the id of the broker it is from, to a broker that has registered the service, or a
response, to the broker it names. -/
inductive Crosses (id : β → Str) (registered : List MqRegi) (a : β) :
    ProcessMsg → β × Relay → Prop
  | req {svc : Frame} {tag : MqTag} {body : Frame} {b : β} {svcRegi : MqRegi} (hother : b ≠ a)
      (hregi : svcRegi ∈ registered) (hbroker : brokerIdOf svcRegi = id b)
      (hsvc : svcRegi.tagSvc = svc) :
      Crosses id registered a (.req svc tag body)
        (b, ⟨false, svc, (tag.setViaInterhub.setBroker (id a)).mem, body⟩)
  | resInterhub {broker svc name body : Frame} {b : β} (hbroker : cstr broker = id b) :
      Crosses id registered a (.resInterhub broker svc name body) (b, ⟨true, svc, name, body⟩)

/-- Nothing is on its way. -/
structure Cluster.Quiet (x : Cluster β) : Prop where
  hub : x.hub.Quiet
  dealer : ∀ a, (x.hub.thread a).zmqDealerIn.queue = []
  router : ∀ a, (x.ctx a).routerIn.queue = []
  toHub : ∀ a, x.toHub a = []
  toBroker : ∀ b, x.toBroker b = []

/-- What `taken` says the routers have taken from their processes and from the hub, and what
`passed` says they have sent to each other. -/
structure EndToEnd [DecidableEq β] (id : β → Str) (services : β → List Str) (x : Cluster β)
    (taken : β → List (Incoming β)) (passed : β → List (β × Relay)) : Prop where
  sent : ∀ a, (taken a).filterMap Incoming.sent? <+: x.sent a
  crossed : ∀ a, ∃ left,
    left <+: ((taken a).filterMap Incoming.sent?).filter (ProcessMsg.leaves (services a)) ∧
      List.Forall₂ (Crosses id x.hub.registered a) left (passed a)
  order : ∀ a b, lane a ((taken b).filterMap Incoming.relay?) <+: lane b (passed a)
  handed : ∀ a, x.handed a = (taken a).flatMap (Incoming.slots (services a))
  answered : ∀ a, x.answered a = (taken a).flatMap Incoming.published
  all : x.Quiet → ∀ a, (taken a).filterMap Incoming.sent? = x.sent a ∧
    List.Forall₂ (Crosses id x.hub.registered a)
      ((x.sent a).filter (ProcessMsg.leaves (services a))) (passed a) ∧
    ∀ b, lane a ((taken b).filterMap Incoming.relay?) = lane b (passed a)

end Delivery

end Brocoli
