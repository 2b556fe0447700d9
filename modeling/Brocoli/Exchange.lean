/-
Requests and responses inside one broker.

The way of a request is that of `Net`.  A response goes up the same way to the router, which
publishes it under the service of the process it is for; the slot of that service publishes
it once more, without the service, under the name of the process.  A publisher copies what it
takes into a pipe for every subscriber that has a topic for it, at once, and the pipes carry
the copies at any time.

So processes send requests and responses, both kinds mixed on the sockets on the way up, and
pipes and callbacks run in any order.
-/
import Brocoli.Lib.Carriage
import Brocoli.Proofs.Delivery

namespace Brocoli

open CMem Multipart Custody Carriage

/-- A response, as a process has sent it: with the tag of the process it is for. -/
structure Response (ι : Type) where
  sender : ι
  asker : ι
  tag : MqTag
  body : Frame

/-- What a process sends. -/
inductive Parcel (ι : Type) where
  | req (r : Request ι)
  | res (a : Response ι)

/-- What a process was given by `mq_recv_res`: the buffer it passed, and what it got. -/
structure Replied where
  into : List Byte
  buf : List Byte

/-- A broker with its processes: what `Net` has, the pipes of the publishers, and what was
sent and received in all. -/
structure Exchange (ι : Type) where
  net : Net ι
  /-- From the broker's publisher to the subscriber of a slot. -/
  published : Str → List Msg
  /-- From the publisher of its slot to a process. -/
  relayed : ι → List Msg
  sent : List (Parcel ι)
  replied : ι → List Replied

/-- What happens besides the steps of `Net`. -/
inductive ExchangeStep (ι : Type) where
  | net (e : NetStep ι)
  | respond (a : Response ι)
  | toSub (s : Str)
  | subToPub (s : Str)
  | toSubscriber (p : ι)
  | recvRes (p : ι) (buf : List Byte)

section System

variable {ι : Type} [DecidableEq ι] (svc name : ι → Str) (services : List Str)

namespace Exchange

def setNet (x : Exchange ι) (net : Net ι) : Exchange ι := { x with net := net }

/-- `svc p` and `name p` are the service of the process `p` and the name it subscribes to;
the slots are those of `services`. -/
def step (x : Exchange ι) : ExchangeStep ι → Exchange ι
  | .net e =>
      let net := x.net.step svc e
      { x with
        net := net
        sent := x.sent ++ (net.sent.drop x.net.sent.length).map .req
        published := fun s => x.published s ++
          if services.contains s then
            subscribed [(x.net.slot s).svcName] (x.net.ctx.zmqPub.since net.ctx.zmqPub)
          else [] }
  | .respond a =>
      let out := mqSendRes (x.net.client a.sender) a.tag a.body
      { x with
        net := x.net.setClient a.sender out.2
        sent := if out.1 = 0 then x.sent ++ [.res a] else x.sent }
  | .toSub s =>
      match x.published s with
      | [] => x
      | m :: ms =>
          { x with
            net := x.net.setSlot s { x.net.slot s with sub := (x.net.slot s).sub.arrive m }
            published := Function.update x.published s ms }
  | .subToPub s =>
      let slot := (x.net.slot s).subToPub
      { x with
        net := x.net.setSlot s slot
        relayed := fun p => x.relayed p ++
          if svc p = s then subscribed [name p] ((x.net.slot s).pub.since slot.pub) else [] }
  | .toSubscriber p =>
      match x.relayed p with
      | [] => x
      | m :: ms =>
          { x with
            net := x.net.setClient p
              { x.net.client p with zmqSub := (x.net.client p).zmqSub.arrive m }
            relayed := Function.update x.relayed p ms }
  | .recvRes p buf =>
      let r := mqRecvRes (x.net.client p) buf
      { x with
        net := x.net.setClient p r.sock
        replied :=
          if r.rc = 0 then Function.update x.replied p (x.replied p ++ [⟨buf, r.buf⟩])
          else x.replied }

def start (interhub : Bool) (conn : ι → Int × Bool × Str) : Exchange ι where
  net := Net.start services interhub conn
  published _ := []
  relayed _ := []
  sent := []
  replied _ := []

end Exchange

/-! ### Addresses -/

/-- The processes have addresses of their own: no service and no name of a process of the
same service is the beginning of another. -/
structure Apart : Prop where
  service : ∀ p, svc p ∈ services
  proper : ∀ s ∈ services, IsName 24 s
  prefixes : ∀ s ∈ services, ∀ t ∈ services, s <+: t → s = t
  named : ∀ p, name p ≠ []
  names : ∀ p q, svc p = svc q → name p <+: name q → p = q

/-- A response to a process of this broker. -/
structure Response.Valid (a : Response ι) : Prop where
  via : a.tag.viaInterhub = false
  tagSvc : a.tag.svc = svc a.asker
  tagName : a.tag.name = name a.asker
  nonempty : a.body ≠ []
  fits : a.body.length ≤ maxBuffSize

def Parcel.Valid : Parcel ι → Prop
  | .req r => r.Valid services
  | .res a => a.Valid svc name

def ExchangeStep.Valid : ExchangeStep ι → Prop
  | .net e => e.Valid services
  | .respond a => a.Valid svc name
  | _ => True

/-! ### Places -/

/-- Where a request or a response can be. -/
inductive Spot (ι : Type) where
  | push (p : ι)
  | slotUp (s : Str)
  | routerIn
  | routerOut
  | slotDown (s : Str)
  | pull (p : ι)
  | handed (p : ι)
  | published (s : Str)
  | slotSub (s : Str)
  | relayed (p : ι)
  | sub (p : ι)
  | replied (p : ι)
deriving DecidableEq

/-- The parcel has been received. -/
def Spot.isFinal : Spot ι → Bool
  | .handed _ | .replied _ => true
  | _ => false

def Exchange.memory (x : Exchange ι) : Spot ι → List Part
  | .push p => (x.net.client p).zmqPush.sent
  | .slotUp s => (x.net.slot s).dealerOut.sent ++ (x.net.slot s).pull.queue
  | .routerIn => x.net.ctx.routerIn.queue
  | .routerOut => x.net.ctx.routerOut.sent
  | .slotDown s => (x.net.slot s).push.sent ++ (x.net.slot s).dealerIn.queue
  | .pull p => (x.net.client p).zmqPull.queue
  | .published s => stream (x.published s)
  | .slotSub s => (x.net.slot s).sub.queue
  | .relayed p => stream (x.relayed p)
  | .sub p => (x.net.client p).zmqSub.queue
  | .handed _ | .replied _ => []

namespace Parcel

def sender : Parcel ι → ι
  | .req r => r.sender
  | .res a => a.sender

/-- The message the sender puts on its socket. -/
def message : Parcel ι → Msg
  | .req r => [mqReq, r.tgsvc, r.tag.mem, r.body]
  | .res a => [mqRes, a.tag.svc, a.tag.name, a.body]

def isReq : Parcel ι → Bool
  | .req _ => true
  | .res _ => false

/-- The service it is for. -/
def tgsvc : Parcel ι → Str
  | .req r => r.tgsvc
  | .res a => a.tag.svc

end Parcel

/-- The form a parcel has in a place. -/
def spotFrames : Spot ι → Parcel ι → Msg
  | .push _, z | .slotUp _, z => z.message
  | .routerIn, z => svc z.sender :: z.message
  | .routerOut, z | .published _, z | .slotSub _, z => z.message.tail
  | .slotDown _, z | .pull _, z | .relayed _, z | .sub _, z => z.message.drop 2
  | .handed _, _ | .replied _, _ => []

/-- The parcel can be in the place. -/
def Suits : Spot ι → Parcel ι → Prop
  | .push p, z => z.sender = p
  | .slotUp s, z => svc z.sender = s
  | .routerIn, _ => True
  | .routerOut, z => z.isReq = true
  | .slotDown s, z => z.isReq = true ∧ z.tgsvc = s
  | .pull p, z | .handed p, z => z.isReq = true ∧ z.tgsvc = svc p
  | .published s, z | .slotSub s, z => z.isReq = false ∧ z.tgsvc = s
  | .relayed p, z | .sub p, z | .replied p, z => ∃ a, z = .res a ∧ a.asker = p

/-- The process has received the parcel. -/
def Handed.Matches (h : Handed) (z : Parcel ι) : Prop := ∃ r, z = .req r ∧ h.Is r

/-- The process has received the response: its body, as a string of the buffer. -/
def Replied.Matches (h : Replied) (z : Parcel ι) : Prop :=
  ∃ a, z = .res a ∧ h.buf = makeEof (store h.into 0 a.body) a.body.length

/-- **The parcels held in the places are all that were sent, each in one place where it
belongs, and are what the places remember.** -/
structure Balanced (x : Exchange ι) (held : Spot ι → List (Nat × Parcel ι)) : Prop where
  carried : Carried (spotFrames svc) (Suits svc) x.sent x.memory held
  handed : ∀ p, List.Forall₂ Handed.Matches (x.net.handed p) ((held (.handed p)).map Prod.snd)
  replied : ∀ p, List.Forall₂ Replied.Matches (x.replied p) ((held (.replied p)).map Prod.snd)

/-- The parcel was received where it was sent to: a request by a process of the service, a
response by the process it is for. -/
def Received (held : Spot ι → List (Nat × Parcel ι)) (k : Nat) : Parcel ι → Prop
  | .req r => ∃ p, svc p = r.tgsvc ∧ (k, .req r) ∈ held (.handed p)
  | .res a => (k, .res a) ∈ held (.replied a.asker)

/-- Nothing is on the way. -/
def Exchange.Drained (x : Exchange ι) : Prop := ∀ p, x.memory p = []

/-- The sockets are what they are created as, no send fails, and what is in a pipe is a
message. -/
structure Exchange.Working (x : Exchange ι) : Prop where
  push : ∀ p, (x.net.client p).zmqPush.Steady
  pull : ∀ p, (x.net.client p).zmqPull.more = false
  sub : ∀ p, (x.net.client p).zmqSub.more = false
  slot : ∀ s, (x.net.slot s).Ready
  slotSub : ∀ s, (x.net.slot s).sub.more = false
  called : ∀ s, (x.net.slot s).svcName = s
  router : x.net.ctx.routerOut.kind = .router fun s => services.contains s
  results : x.net.ctx.routerOut.results = []
  pub : x.net.ctx.zmqPub.kind = .pub
  routerIn : x.net.ctx.routerIn.more = false
  published : ∀ s, ∀ m ∈ x.published s, m ≠ []
  relayed : ∀ p, ∀ m ∈ x.relayed p, m ≠ []
  valid : ∀ z ∈ x.sent, z.Valid svc name services

/-! ### What a step does with what is held -/

/-- Where the router sends a parcel. -/
def behindRouter (z : Nat × Parcel ι) : Spot ι :=
  if z.2.isReq then .routerOut else .published z.2.tgsvc

/-- Where the publisher of a slot sends a response. -/
def behindSlot : Nat × Parcel ι → Spot ι
  | (_, .res a) => .relayed a.asker
  | (_, .req r) => .push r.sender

/-- What is held after a step.  A pipe behind a relay that can stop inside a message carries
the first one only once it is whole. -/
def holds (x : Exchange ι) (held : Spot ι → List (Nat × Parcel ι)) :
    ExchangeStep ι → Spot ι → List (Nat × Parcel ι)
  | .net (.send r) => Placed.added held (.push r.sender) (x.sent.length, .req r)
  | .net (.toSlot p) => shift held (.push p) 1 fun _ => .slotUp (svc p)
  | .net (.pullToDealer _) | .net (.dealerToPush _) => held
  | .net (.toRouter s) =>
      match (x.net.slot s).dealerOut.deliver with
      | none => held
      | some _ => shift held (.slotUp s) 1 fun _ => .routerIn
  | .net .router => shift held .routerIn 1000 behindRouter
  | .net (.toDealer s) => pick held .routerOut (fun z => z.2.tgsvc == s) fun _ => .slotDown s
  | .net (.toProcess p) =>
      match (x.net.slot (svc p)).push.deliver with
      | none => held
      | some _ => shift held (.slotDown (svc p)) 1 fun _ => .pull p
  | .net (.recv p _ _) => shift held (.pull p) 1 fun _ => .handed p
  | .respond a => Placed.added held (.push a.sender) (x.sent.length, .res a)
  | .toSub s => shift held (.published s) 1 fun _ => .slotSub s
  | .subToPub s => shift held (.slotSub s) 1000 behindSlot
  | .toSubscriber p => shift held (.relayed p) 1 fun _ => .sub p
  | .recvRes p _ => shift held (.sub p) 1 fun _ => .replied p

end System

end Brocoli
