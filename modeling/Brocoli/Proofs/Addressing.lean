/-
Who gets a response.

A response is addressed by two names, a service and a process of it, and each is looked
at once on the way: the slot's subscriber tests the service, the process's subscriber its
own name.  Both tests are the subscription test of a PUB socket, which asks whether the
topic is a prefix.  So a response also reaches every process whose two names are prefixes
of the two it is addressed to, and no other.
-/
import Brocoli.Conf
import Brocoli.Router

namespace Brocoli

open CMem Multipart

/-- The address a process registers under. -/
def MqRegi.addr (r : MqRegi) : Addr := ⟨r.tagSvc, r.tagName⟩

def MqTag.addr (t : MqTag) : Addr := ⟨t.svc, t.name⟩

/-- One broker: the sockets of its router thread and the slots of its services. -/
structure Site where
  ctx : RouterCtx
  slot : Str → SvcSlot

namespace Site

/-- The sockets are what they are created as, and no send in a slot fails. -/
structure Ready (site : Site) : Prop where
  router : RouterSockets site.ctx
  name : ∀ svc, (site.slot svc).svcName = svc
  slot : ∀ svc, (site.slot svc).Ready

/-- What the router gets when the process of `c`, of the service `svc`, responds to `tag`. -/
def atRouter (site : Site) (svc : Str) (c : ClientSock) (tag : MqTag) (body : Frame) : List Msg :=
  let sent := c.zmqPush.since (mqSendRes c tag body).2.zmqPush
  let slot := { site.slot svc with pull := In.holding sent }
  (slot.dealerOut.since slot.pullToDealer.dealerOut).map (fromPeer slot.svcName)

/-- What the broker publishes of the messages at its router. -/
def published (site : Site) (ms : List Msg) : List Msg :=
  site.ctx.zmqPub.since (routerCallback { site.ctx with routerIn := In.holding ms }).zmqPub

/-- What the slot of `svc` publishes to its processes of what the broker published. -/
def relayed (site : Site) (svc : Str) (ms : List Msg) : List Msg :=
  let slot := { site.slot svc with sub := In.holding (subscribed [(site.slot svc).svcName] ms) }
  slot.pub.since slot.subToPub.pub

/-- A broker without hub as it starts, with idle slots. -/
def idle : Site where
  ctx := ⟨In.holding [], ⟨.router fun _ => true, [], []⟩, ⟨.pub, [], []⟩, false⟩
  slot := connectSvcSlot

theorem ready_idle : idle.Ready :=
  ⟨⟨⟨_, rfl⟩, rfl⟩, fun _ => rfl, fun _ => SvcSlot.ready_connect _⟩

end Site

/-- A process reads its subscriber, which subscribes to the name it registered. -/
def received (p : MqRegi) (c : ClientSock) (ms : List Msg) (buf : List Byte) : RecvRes :=
  mqRecvRes { c with zmqSub := In.holding (subscribed [p.tagName] ms) } buf

theorem published_res {site : Site} (hsite : site.Ready) {id : Frame} {rest : Msg}
    (hrest : rest ≠ []) : site.published [id :: mqRes :: rest] = [rest.map buffered] := by
  have hctx := hsite.router.receive (In.holding [id :: mqRes :: rest])
  rw [Site.published, routerCallback_res hctx.pub hrest rfl]
  exact since_put_parts _ (by simpa using hrest)

/-- The slot passes on what is published under a topic its service is a prefix of. -/
theorem relayed_one {site : Site} (hsite : site.Ready) (svc topic : Frame) {rest : Msg}
    (hrest : rest ≠ []) :
    site.relayed svc [topic :: rest] = if svc <+: topic then [rest.map buffered] else [] := by
  have hpub := (hsite.slot svc).pub
  simp only [Site.relayed, hsite.name, subscribed_one, SvcSlot.subToPub]
  split
  · rw [mqRelayCallbackSubToPub_one hpub hrest]
    exact since_put_parts _ (by simpa using hrest)
  · rw [mqRelayCallbackSubToPub_none]
    exact since_self _

/-- A process is returned what comes under a name its own is a prefix of. -/
theorem received_one (p : MqRegi) (c : ClientSock) {name body : Frame} (hname : name ≠ [])
    (hbody : body ≠ []) (buf : List Byte) (h : p.tagName <+: name) :
    (received p c [[name, body]] buf).rc = 0 ∧
      (received p c [[name, body]] buf).buf = makeEof (store buf 0 body) body.length := by
  rw [received, subscribed_one, if_pos h, mqRecvRes_holding rfl hname hbody]
  exact ⟨rfl, rfl⟩

section Ahif

/-- The tag of the process `ahif` with this pid, of the service `AHIF`. -/
def ahifRegi (pid : Nat) : MqRegi :=
  crtResTag (lit "AHIF") (lit "ahif") pid 0 MqRegi.zero (crtCliSock 5000 true [])

def ahifTag (pid : Nat) : MqTag :=
  (MqTag.zero.setSvc (lit "AHIF")).setName (resTagName (lit "ahif") pid)

end Ahif

end Brocoli
