/-
The hub as a switch between brokers.

A thread publishes what it takes from its dealer, and the main thread publishes every
registration.  The proxy takes the messages of these publishers in any order and copies each
to the subscribers that have a topic for it: those of all threads for a registration, that of
one for a request or a response.  So what a broker sends crosses three pipes and two callbacks
on its way to the router of another, and all of them run in any order.

What has come from the brokers and what has been registered is remembered.
-/
import Brocoli.Lib.Lines
import Brocoli.Proofs.HubDealer
import Brocoli.Proofs.HubSub

namespace Brocoli.Hub

open CMem Multipart NTree Carriage

/-- The hub with the threads of the brokers `β` and the pipes between them. -/
structure Switch (β : Type) where
  thread : β → BrokerThread
  zmqPubToXsub : Out
  /-- From the publisher of the main thread to the proxy. -/
  announced : List Msg
  /-- From the publisher of a thread to the proxy. -/
  published : β → List Msg
  /-- From the proxy to the subscriber of a thread. -/
  relayed : β → List Msg
  registered : List MqRegi
  arrived : β → List DealerMsg
  /-- Those that wait on the dealer. -/
  waiting : β → List DealerMsg

inductive SwitchStep (β : Type) where
  | arrive (a : β) (m : DealerMsg)
  | interhub (a : β)
  | announce (svcRegi : MqRegi)
  | proxyMain
  | proxy (a : β)
  | toSub (b : β)
  | sub (b : β)
  | removeSmalltree (b : β) (current : Time)

namespace Switch

variable {β : Type} [DecidableEq β]

def setThread (x : Switch β) (b : β) (t : BrokerThread) : Switch β :=
  { x with thread := Function.update x.thread b t }

omit [DecidableEq β] in
/-- What the subscriber of a thread gets of a message: `broker_thread` subscribes to the
registrations and to the id of the broker. -/
def copies (x : Switch β) (m : Msg) (b : β) : List Msg :=
  subscribed [mqReg, (x.thread b).brokerId] [m]

/-- `time b` is the clock of the thread of `b`, reading by reading. -/
def step (time : β → Nat → Time) (x : Switch β) : SwitchStep β → Switch β
  | .arrive a m =>
      let t := x.thread a
      { x.setThread a { t with zmqDealerIn := t.zmqDealerIn.arrive m.frames } with
        arrived := Function.update x.arrived a (x.arrived a ++ [m])
        waiting := Function.update x.waiting a (x.waiting a ++ [m]) }
  | .interhub a =>
      let t := interhubCallback (x.thread a)
      { x.setThread a t with
        published := Function.update x.published a
          (x.published a ++ (x.thread a).zmqPub.since t.zmqPub)
        waiting := Function.update x.waiting a [] }
  | .announce svcRegi =>
      let pub := sendRegi x.zmqPubToXsub svcRegi
      { x with
        zmqPubToXsub := pub
        announced := x.announced ++ x.zmqPubToXsub.since pub
        registered := x.registered ++ [svcRegi] }
  | .proxyMain =>
      match x.announced with
      | [] => x
      | m :: ms => { x with announced := ms, relayed := fun b => x.relayed b ++ x.copies m b }
  | .proxy a =>
      match x.published a with
      | [] => x
      | m :: ms =>
          { x with
            published := Function.update x.published a ms
            relayed := fun b => x.relayed b ++ x.copies m b }
  | .toSub b =>
      match x.relayed b with
      | [] => x
      | m :: ms =>
          let t := x.thread b
          { x.setThread b { t with zmqSub := t.zmqSub.arrive m } with
            relayed := Function.update x.relayed b ms }
  | .sub b => x.setThread b (brokerSubCallback (time b) (x.thread b))
  | .removeSmalltree b current =>
      let t := x.thread b
      x.setThread b { t with rootNode := removeSmalltreeCallback t.rootNode current }

omit [DecidableEq β] in
/-- The thread as `broker_thread` begins, with nothing in its small tree. -/
def newThread (brokerId : Str) (now : Time) : BrokerThread where
  brokerId := brokerId
  rootNode := .leaf ⟨.interhub, [], [], now⟩
  zmqDealerIn := In.holding []
  zmqDealerOut := ⟨.pipe, [], []⟩
  zmqPub := ⟨.pub, [], []⟩
  zmqSub := In.holding []
  ticks := 0

omit [DecidableEq β] in
def start (id : β → Str) (now : Time) : Switch β where
  thread b := newThread (id b) now
  zmqPubToXsub := ⟨.pub, [], []⟩
  announced := []
  published _ := []
  relayed _ := []
  registered := []
  arrived _ := []
  waiting _ := []

end Switch

/-! ### What may come -/

section Valid

variable {β : Type} (id : β → Str)

/-- The brokers have ids of their own: none is the beginning of another. -/
structure Ids : Prop where
  proper : ∀ b, IsBrokerId (id b)
  prefixes : ∀ a b, id a <+: id b → a = b

/-- A message of a broker: its frames fit the buffers of both threads, and a response is for
one of the brokers. -/
structure DealerMsg.Valid (m : DealerMsg) : Prop where
  fits : m.Fits
  response : ∀ broker svc name body, m = .resInterhub broker svc name body →
    svc.length < 128 ∧ name.length ≤ 121 ∧ ∃ b, cstr broker = id b

/-- A registration of one of the brokers. -/
structure Registration (svcRegi : MqRegi) : Prop where
  address : IsAddress svcRegi.brokerHost
  broker : ∃ b, brokerIdOf svcRegi = id b

/-- When the callback of a dealer runs, every message that waits there is one it reads as what
it is. -/
def SwitchStep.Valid (x : Switch β) : SwitchStep β → Prop
  | .arrive _ m => m.Valid id
  | .interhub a => AllReadFrom (x.thread a) false (x.waiting a)
  | .announce svcRegi => Registration id svcRegi
  | _ => True

end Valid

/-! ### What goes from thread to thread -/

/-- What one thread publishes for another. -/
structure Relay where
  response : Bool
  svc : Frame
  tagOrName : Frame
  body : Frame

namespace Relay

def toSub (r : Relay) : SubMsg := .relayed r.response r.svc r.tagOrName r.body

/-- What the other thread sends to its broker. -/
def toRouter (r : Relay) : Msg :=
  [if r.response then mqRes else mqReq, cstr r.svc, (MqTag.zero.recv r.tagOrName).mem, r.body]

end Relay

/-- What is on its way to a thread: a registration, or a message of another broker. -/
inductive Item (β : Type) where
  | regi (svcRegi : MqRegi)
  | relay (origin : β) (r : Relay)

namespace Item

variable {β : Type}

def toSub : Item β → SubMsg
  | regi svcRegi => .regi svcRegi
  | relay _ r => r.toSub

def regi? : Item β → Option MqRegi
  | regi svcRegi => some svcRegi
  | relay .. => none

def relay? : Item β → Option Relay
  | regi _ => none
  | relay _ r => some r

/-- The message, with the broker that sent it. -/
def sent? : Item β → Option (β × Relay)
  | regi _ => none
  | relay origin r => some (origin, r)

end Item

section Flow

variable {β : Type}

/-- The messages of one broker. -/
def relaysFrom [DecidableEq β] (a : β) (items : List (Item β)) : List Relay :=
  lane a (items.filterMap Item.sent?)

/-- The thread of `a` has passed the message on as it should: a request to another broker that
has registered the service, a response to the broker it names. -/
inductive Passed (id : β → Str) (registered : List MqRegi) (a : β) : DealerMsg → β × Relay → Prop
  | req {svc : Frame} {tag : MqTag} {body : Frame} {b : β} {svcRegi : MqRegi} (hother : b ≠ a)
      (hregi : svcRegi ∈ registered) (hbroker : brokerIdOf svcRegi = id b)
      (hsvc : svcRegi.tagSvc = cstr svc) :
      Passed id registered a (.req svc tag body)
        (b, ⟨false, cstr svc, (tag.setBroker (id a)).mem, body⟩)
  | resInterhub {broker svc name body : Frame} {b : β} (hbroker : cstr broker = id b) :
      Passed id registered a (.resInterhub broker svc name body) (b, ⟨true, svc, name, body⟩)

def DealerMsg.isLog : DealerMsg → Bool
  | log _ => true
  | _ => false

/-- What is in the pipes, in the subscribers and behind them, and what the proxy has taken of
each thread. -/
structure Flow (β : Type) where
  announced : List MqRegi
  published : β → List (β × Relay)
  crossed : β → List (β × Relay)
  relayed : β → List (Item β)
  sub : β → List (Item β)
  got : β → List (Item β)

def Flow.start : Flow β where
  announced := []
  published _ := []
  crossed _ := []
  relayed _ := []
  sub _ := []
  got _ := []

/-- What is where after a step; `zs` is what a thread has published for its messages. -/
def Flow.step [DecidableEq β] (f : Flow β) (zs : List (β × Relay)) : SwitchStep β → Flow β
  | .interhub a =>
      { f with published := Function.update f.published a (f.published a ++ zs) }
  | .announce svcRegi => { f with announced := f.announced ++ [svcRegi] }
  | .proxyMain =>
      match f.announced with
      | [] => f
      | r :: rest =>
          { f with announced := rest, relayed := fun b => f.relayed b ++ [.regi r] }
  | .proxy a =>
      match f.published a with
      | [] => f
      | z :: rest =>
          { f with
            published := Function.update f.published a rest
            crossed := Function.update f.crossed a (f.crossed a ++ [z])
            relayed := fun b => f.relayed b ++ if z.1 = b then [.relay a z.2] else [] }
  | .toSub b =>
      match f.relayed b with
      | [] => f
      | i :: rest =>
          { f with
            relayed := Function.update f.relayed b rest
            sub := Function.update f.sub b (f.sub b ++ [i]) }
  | .sub b =>
      { f with
        sub := Function.update f.sub b []
        got := Function.update f.got b (f.got b ++ f.sub b) }
  | .arrive .. | .removeSmalltree .. => f

/-- Everything that the thread of the broker has published for the others. -/
def Flow.passed (f : Flow β) (a : β) : List (β × Relay) := f.crossed a ++ f.published a

/-- Everything on its way to the thread that it has not sent on, behind what it has. -/
def Flow.queue (f : Flow β) (b : β) : List (Item β) := f.got b ++ f.sub b ++ f.relayed b

/-- The form of a message on the way to the thread of a broker. -/
def subFrames (id : β → Str) (b : β) (i : Item β) : Msg := i.toSub.frames (id b)

def pubFrames (id : β → Str) (z : β × Relay) : Msg := z.2.toSub.frames (id z.1)

/-- What the thread holds in its subscriber, and what it has sent to its broker. -/
structure CarriesThread (id : β → Str) (b : β) (sub got : List (Item β)) (t : BrokerThread) :
    Prop where
  sub : t.zmqSub = In.holding (sub.map (subFrames id b))
  out : t.zmqDealerOut.sent = stream ((got.filterMap Item.relay?).map Relay.toRouter)

/-- What the pipes and the sockets carry. -/
structure Carries (id : β → Str) (x : Switch β) (f : Flow β) : Prop where
  announced : x.announced = f.announced.map fun svcRegi => [mqReg, svcRegi.mem]
  published : ∀ a, x.published a = (f.published a).map (pubFrames id)
  relayed : ∀ b, x.relayed b = (f.relayed b).map (subFrames id b)
  thread : ∀ b, CarriesThread id b (f.sub b) (f.got b) (x.thread b)
  fits : ∀ a, ∀ z ∈ f.published a, z.2.toSub.Fits
  fitsRelayed : ∀ b, ∀ i ∈ f.relayed b ++ f.sub b, i.toSub.Fits

/-- Of what has come from the broker all but what still waits, and the log lines, has been
passed on. -/
def PassedOn (id : β → Str) (registered : List MqRegi) (a : β) (arrived waiting : List DealerMsg)
    (passed : List (β × Relay)) : Prop :=
  ∃ taken, arrived = taken ++ waiting ∧
    List.Forall₂ (Passed id registered a) (taken.filter fun m => !m.isLog) passed

/-- **Nothing is lost, doubled or overtaken**: what the proxy has taken of a thread for another
is what has come out there, and behind it what is in the subscriber and in the pipe to it. -/
structure InLine [DecidableEq β] (id : β → Str) (x : Switch β) (f : Flow β) : Prop where
  passed : ∀ a, PassedOn id x.registered a (x.arrived a) (x.waiting a) (f.passed a)
  relays : ∀ a b, relaysFrom a (f.queue b) = lane b (f.crossed a)
  regis : ∀ b, (f.queue b).filterMap Item.regi? ++ f.announced = x.registered

/-- The sockets of the thread are what they are created as, its small tree says only what was
registered, and its dealer holds the messages that wait. -/
structure BrokerThread.Working (id : β → Str) (b : β) (registered : List MqRegi)
    (waiting : List DealerMsg) (t : BrokerThread) : Prop where
  called : t.brokerId = id b
  pub : t.zmqPub.kind = .pub
  dealer : t.zmqDealerOut.Steady
  tree : Entries (fun broker svc => ∃ svcRegi ∈ registered,
    brokerIdOf svcRegi = broker ∧ svcRegi.tagSvc = svc) t.rootNode
  waiting : t.zmqDealerIn = In.holding (waiting.map DealerMsg.frames)

structure Switch.Working (id : β → Str) (x : Switch β) : Prop where
  thread : ∀ b, (x.thread b).Working id b x.registered (x.waiting b)
  pubToXsub : x.zmqPubToXsub.kind = .pub
  valid : ∀ a, ∀ m ∈ x.waiting a, m.Valid id
  registered : ∀ svcRegi ∈ x.registered, Registration id svcRegi

/-- Nothing is on its way. -/
structure Switch.Quiet (x : Switch β) : Prop where
  published : ∀ a, x.published a = []
  relayed : ∀ b, x.relayed b = []
  sub : ∀ b, (x.thread b).zmqSub.queue = []

end Flow

end Brocoli.Hub
