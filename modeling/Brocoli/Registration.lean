/-
From the processes to the hub: `svcregi_callback` in `broker.c` and `hub.c`.

Both programs take registrations in the same loop: the topic is received as a message, whose
data is compared as a string where it lies, and `regi_action` receives the rest.  The data has
no NUL of its own, so what is behind it in memory belongs to the string.

A broker fills in where a registration came from and its own name, and publishes it; its
publisher is connected to the subscriber of the hub, which fills in where the broker is.
-/
import Brocoli.Lib.Lines
import Brocoli.Proofs.Advertising
import Brocoli.Proofs.BrokerSlots
import Brocoli.Proofs.ServiceSlots

namespace Brocoli

open CMem Multipart NTree Runs Carriage

/-- What a topic comes with: the peer address of its message, what is behind its data, and the
clock while the registration is handled, reading by reading. -/
structure Receipt where
  peerAddress : Str
  behind : List Byte
  clock : Nat → Time

/-- `(char *)zmq_msg_data (&msg)` -/
def Receipt.action (r : Receipt) (topic : Frame) : Str := cstr (topic ++ r.behind)

/-- One iteration of the loop of `svcregi_callback` in a program with the subscriber `sub`.
The state is the context, and what the coming topics come with. -/
def svcregiIter {C : Type} (sub : C → In) (withSub : C → In → C)
    (regiAction : C → Str → Str → (Nat → Time) → Int × C) (s : C × (Nat → Receipt)) :
    Option (C × (Nat → Receipt)) :=
  match (sub s.1).recv with
  | none => none
  | some (f, src) =>
      let r := s.2 0
      some ((regiAction (withSub s.1 src) (r.action f) r.peerAddress r.clock).2,
        fun k => s.2 (k + 1))

/-- The loop: every iteration takes a frame, so there are no more of them than frames waiting. -/
def svcregiLoop {C : Type} (sub : C → In) (withSub : C → In → C)
    (regiAction : C → Str → Str → (Nat → Time) → Int × C) (c : C) (receipts : Nat → Receipt) : C :=
  (whileSome (svcregiIter sub withSub regiAction) (sub c).queue.length (c, receipts)).1

namespace Broker

def RegiCtx.withSub (ctx : RegiCtx) (sub : In) : RegiCtx := { ctx with zmqSub := sub }

def svcregiCallback (progname : Str) (pid : Nat) (ctx : RegiCtx)
    (receipts : Nat → Receipt) : RegiCtx :=
  svcregiLoop RegiCtx.zmqSub RegiCtx.withSub (regiAction progname pid) ctx receipts

end Broker

namespace Hub

def RegiCtx.withSub (ctx : RegiCtx) (sub : In) : RegiCtx := { ctx with zmqSubFromBroker := sub }

def svcregiCallback (ctx : RegiCtx) (receipts : Nat → Receipt) : RegiCtx :=
  svcregiLoop RegiCtx.zmqSubFromBroker RegiCtx.withSub regiAction ctx receipts

end Hub

/-! ### Brokers and their hub -/

/-- A registration with the address of the process it is from. -/
structure FromProcess where
  svcRegi : MqRegi
  peerAddress : Str

/-- The brokers `β` and the hub they are connected to. -/
structure Network (β : Type) where
  broker : β → Broker.RegiCtx
  hub : Hub.RegiCtx
  /-- Where the messages on the subscriber of a broker are from. -/
  peers : β → List Str
  /-- From the publisher of a broker to the subscriber of the hub. -/
  published : β → List Msg
  /-- Where the messages on the subscriber of the hub are from. -/
  hubPeers : List β
  arrived : β → List FromProcess

/-- What a callback finds in memory behind each topic, and the clock. -/
abbrev Around := Nat → List Byte × (Nat → Time)

/-- What the topics of the messages from these addresses come with. -/
def receipts (peers : List Str) (around : Around) (k : Nat) : Receipt :=
  ⟨peers.getD k [], (around k).1, (around k).2⟩

inductive NetworkStep (β : Type) where
  | arrive (b : β) (r : FromProcess)
  | svcregi (b : β) (around : Around)
  | sweep (b : β) (current : Time)
  | deferred (b : β)
  | toHub (b : β)
  | hubSvcregi (around : Around)
  | hubSweep (current : Time)
  | threadEnd (i : Hub.BrokerRef)

namespace Network

variable {β : Type} [DecidableEq β]

def setBroker (x : Network β) (b : β) (ctx : Broker.RegiCtx) : Network β :=
  { x with broker := Function.update x.broker b ctx }

/-- What a broker's context has published since it was `ctx`. -/
def since (ctx ctx' : Broker.RegiCtx) : List Msg :=
  match ctx.zmqPubToInterhub, ctx'.zmqPubToInterhub with
  | some pub, some pub' => pub.since pub'
  | _, _ => []

/-- `host b` is the address the hub sees the broker at. -/
def step (progname : Str) (pid : β → Nat) (host : β → Str) (x : Network β) :
    NetworkStep β → Network β
  | .arrive b r =>
      let ctx := x.broker b
      { x.setBroker b { ctx with zmqSub := ctx.zmqSub.arrive [mqReg, r.svcRegi.mem] } with
        peers := Function.update x.peers b (x.peers b ++ [r.peerAddress])
        arrived := Function.update x.arrived b (x.arrived b ++ [r]) }
  | .svcregi b around =>
      let ctx := Broker.svcregiCallback progname (pid b) (x.broker b)
        (receipts (x.peers b) around)
      { x.setBroker b ctx with
        peers := Function.update x.peers b []
        published := Function.update x.published b
          (x.published b ++ subscribed [mqReg] (since (x.broker b) ctx)) }
  | .sweep b current =>
      let ctx := x.broker b
      x.setBroker b { ctx with registry := Broker.removetreeCallback ctx.registry current }
  | .deferred b =>
      let ctx := x.broker b
      x.setBroker b { ctx with registry := Broker.runDeferred ctx.registry }
  | .toHub b =>
      match x.published b with
      | [] => x
      | m :: ms =>
          { x with
            hub := x.hub.withSub (x.hub.zmqSubFromBroker.arrive m)
            published := Function.update x.published b ms
            hubPeers := x.hubPeers ++ [b] }
  | .hubSvcregi around =>
      { x with
        hub := Hub.svcregiCallback x.hub (receipts (x.hubPeers.map host) around)
        hubPeers := [] }
  | .hubSweep current =>
      { x with hub := { x.hub with registry := Hub.removetreeCallback x.hub.registry current } }
  | .threadEnd i =>
      { x with hub := { x.hub with registry := Hub.brokerThreadEnd x.hub.registry i } }

omit [DecidableEq β] in
/-- Every broker on a host of its name, connected to the hub. -/
def start (hostname : β → Str) (now : Time) : Network β where
  broker b := ⟨In.holding [], some ⟨.pub, [], []⟩, Broker.initRegistry (hostname b) now⟩
  hub := ⟨In.holding [], ⟨.pub, [], []⟩, Hub.initRegistry now⟩
  peers _ := []
  published _ := []
  hubPeers := []
  arrived _ := []

end Network

/-! ### What is where -/

namespace Broker

def Step.regi? : Step → Option MqRegi
  | .regi svcRegi _ => some svcRegi
  | _ => none

/-- The registrations of a run. -/
def regisOf (es : List Step) : List MqRegi := es.filterMap Step.regi?

end Broker

namespace Hub

def Step.regi? : Step → Option MqRegi
  | .regi svcRegi _ => some svcRegi
  | _ => none

/-- The registrations of a run. -/
def regisOf (es : List Step) : List MqRegi := es.filterMap Step.regi?

end Hub

/-- The message of a registration. -/
def regiFrames (r : MqRegi) : Msg := [mqReg, r.mem]

section Flow

variable {β : Type} (progname : Str) (pid : β → Nat) (host hostname : β → Str) (now : Time)

/-- The registration as its broker handles it and publishes it. -/
def atBroker (b : β) (z : FromProcess) : MqRegi :=
  Broker.forwarded progname (pid b) z.svcRegi.mem z.peerAddress

/-- The registration of a broker as the hub handles it and publishes it. -/
def atHub (b : β) (r : MqRegi) : MqRegi := Hub.forwarded r.mem (host b)

/-- What waits at the brokers, in their pipes and at the hub, and what the hub has published,
with the broker it is from. -/
structure RegiFlow (β : Type) where
  waiting : β → List FromProcess
  published : β → List MqRegi
  hubWaiting : List (β × MqRegi)
  out : List (β × MqRegi)

def RegiFlow.start : RegiFlow β where
  waiting _ := []
  published _ := []
  hubWaiting := []
  out := []

/-- A broker: its subscriber holds what waits there, and its registry is one that can have
come of the registrations that do not. -/
structure BrokerSound (b : β) (ctx : Broker.RegiCtx) (peers : List Str)
    (waiting arrived : List FromProcess) : Prop where
  sub : ctx.zmqSub = In.holding (waiting.map fun z => regiFrames z.svcRegi)
  peers : peers = waiting.map FromProcess.peerAddress
  pub : ∃ pub, ctx.zmqPubToInterhub = some pub ∧ pub.kind = .pub
  registry : ∃ es taken, arrived = taken ++ waiting ∧
    ctx.registry = es.foldl Broker.step (Broker.initRegistry (hostname b) now) ∧
    Broker.regisOf es = taken.map (atBroker progname pid b)

/-- The hub, likewise. -/
structure HubSound (hub : Hub.RegiCtx) (hubPeers : List β) (waiting out : List (β × MqRegi)) :
    Prop where
  sub : hub.zmqSubFromBroker = In.holding (waiting.map fun z => regiFrames z.2)
  peers : hubPeers = waiting.map Prod.fst
  pub : hub.zmqPubToXsub.kind = .pub
  sent : hub.zmqPubToXsub.sent = stream (out.map fun z => regiFrames z.2)
  registry : ∃ es, hub.registry = es.foldl Hub.step (Hub.initRegistry now) ∧
    Hub.regisOf es = out.map Prod.snd

/-- **No registration is lost, doubled or overtaken on its way.** -/
structure NetworkSound [DecidableEq β] (x : Network β) (f : RegiFlow β) : Prop where
  broker : ∀ b, BrokerSound progname pid hostname now b (x.broker b) (x.peers b) (f.waiting b)
    (x.arrived b)
  published : ∀ b, x.published b = (f.published b).map regiFrames
  hub : HubSound now x.hub x.hubPeers f.hubWaiting f.out
  line : ∀ b, lane b f.out ++ (lane b f.hubWaiting ++ f.published b ++
      (f.waiting b).map (atBroker progname pid b)).map (atHub host b)
    = (x.arrived b).map fun z => atHub host b (atBroker progname pid b z)

/-- When a callback runs, every topic that waits ends where its data does. -/
def NetworkStep.Valid (x : Network β) : NetworkStep β → Prop
  | .svcregi b around => ∀ k < (x.peers b).length, cstr (around k).1 = []
  | .hubSvcregi around => ∀ k < x.hubPeers.length, cstr (around k).1 = []
  | _ => True

/-- Nothing is on its way to the hub or waits there. -/
structure Network.Quiet (x : Network β) : Prop where
  broker : ∀ b, (x.broker b).zmqSub.queue = []
  published : ∀ b, x.published b = []
  hub : x.hub.zmqSubFromBroker.queue = []

end Flow

end Brocoli
