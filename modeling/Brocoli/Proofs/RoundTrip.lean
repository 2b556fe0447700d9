/-
A request through the hub, and its reply.

A request for a service its broker does not have goes to the hub, which publishes it for a
broker that has, and is a plain request again when it gets there.  The reply goes back by
the id the request carries in its tag.  On the way the message is taken apart and put
together nine times each way; `Station` is where that happens, the broker with the thread
the hub runs for it, and each hop is a function from the messages a component gets to those
it passes on.
-/
import Brocoli.Proofs.Addressing
import Brocoli.Proofs.HubDealer
import Brocoli.Proofs.HubSub

namespace Brocoli

open CMem Multipart Hub

/-! ### Hops -/

/-- What the router passes to its peers of the messages `ms`. -/
def RouterCtx.routed (ctx : RouterCtx) (ms : List Msg) : List Msg :=
  ctx.routerOut.since (routerCallback { ctx with routerIn := In.holding ms }).routerOut

/-- What the thread publishes of the messages on its dealer. -/
def Hub.BrokerThread.published (t : BrokerThread) (ms : List Msg) : List Msg :=
  t.zmqPub.since (interhubCallback { t with zmqDealerIn := In.holding ms }).zmqPub

/-- What its broker's router gets from the thread when the messages `ms` are published. -/
def Hub.BrokerThread.passed (time : Nat → Time) (t : BrokerThread) (ms : List Msg) : List Msg :=
  let t' := { t with zmqSub := In.holding (subscribed [mqReg, t.brokerId] ms) }
  (t.zmqDealerOut.since (brokerSubCallback time t').zmqDealerOut).map (fromPeer interhubName)

namespace Site

/-- What the router gets of the messages a process of `svc` has sent. -/
def fromProcess (site : Site) (svc : Str) (ms : List Msg) : List Msg :=
  let slot := { site.slot svc with pull := In.holding ms }
  (slot.dealerOut.since slot.pullToDealer.dealerOut).map (fromPeer slot.svcName)

/-- What a process of `svc` gets of the messages the router has passed to its slot. -/
def toProcess (site : Site) (svc : Str) (ms : List Msg) : List Msg :=
  let slot := { site.slot svc with dealerIn := In.holding ms }
  slot.push.since slot.dealerToPush.push

end Site

/-- A broker and the thread the hub runs for it. -/
structure Station where
  site : Site
  thread : BrokerThread

namespace Station

/-- The sockets are what they are created as, the hub is there, and no send fails but one to
a peer the router does not know. -/
structure Ready (p : Station) (reach : Frame → Bool) : Prop where
  site : p.site.Ready
  router : p.site.ctx.routerOut.Idle reach
  interhub : p.site.ctx.interhub = true
  hub : reach interhubName = true
  id : IsBrokerId p.thread.brokerId
  pub : p.thread.zmqPub.kind = .pub
  dealer : p.thread.zmqDealerOut.Steady

end Station

/-- What a process of `tgsvc` at `B` gets of a request for it at `A`. -/
def requested (A B : Station) (time : Nat → Time) (c : ClientSock) (tag : MqTag) (tgsvc : Str)
    (body : Frame) : List Msg :=
  let sent := c.zmqPush.since (mqSendReq c tag tgsvc body).2.zmqPush
  let atRouter := A.site.fromProcess tag.svc sent
  let atHub := routedTo interhubName (A.site.ctx.routed atRouter)
  let atOther := B.thread.passed time (A.thread.published atHub)
  B.site.toProcess tgsvc (routedTo tgsvc (B.site.ctx.routed atOther))

/-- What `A` publishes when a process of `tgsvc` at `B` replies to the tag. -/
def replied (A B : Station) (time : Nat → Time) (c : ClientSock) (tag : MqTag) (tgsvc : Str)
    (reply : Frame) : List Msg :=
  let atRouter := B.site.fromProcess tgsvc (c.zmqPush.since (mqSendRes c tag reply).2.zmqPush)
  let atHub := routedTo interhubName (B.site.ctx.routed atRouter)
  A.site.published (A.thread.passed time (B.thread.published atHub))

/-! ### One hop -/

/-- A request or a response, as far as its frames fit the relay buffer. -/
theorem fromProcess_buffered {site : Site} (hsite : site.Ready) (svc : Str) {m : Msg} (hm : m ≠ [])
    (hshort : m.length ≤ 1000) : site.fromProcess svc [m] = [svc :: m.map buffered] := by
  have hrelay := mqRelayCallback_one hshort (hsite.slot svc).dealer
  have hne : m.map buffered ≠ [] := by simpa using hm
  simp only [Site.fromProcess, SvcSlot.pullToDealer, hrelay]
  rw [since_put_parts _ hne]
  simp [fromPeer, hsite.name]

theorem fromProcess_one {site : Site} (hsite : site.Ready) (svc : Str) {m : Msg} (hm : m ≠ [])
    (hshort : m.length ≤ 1000) (hlen : Relayable m) : site.fromProcess svc [m] = [svc :: m] := by
  rw [fromProcess_buffered hsite svc hm hshort, map_buffered hlen]

theorem toProcess_one {site : Site} (hsite : site.Ready) (svc : Str) {m : Msg} (hm : m ≠ [])
    (hshort : m.length ≤ 1000) (hlen : Relayable m) : site.toProcess svc [m] = [m] := by
  have hrelay := mqRelayCallback_one hshort (hsite.slot svc).push
  simp only [Site.toProcess, SvcSlot.dealerToPush, hrelay, map_buffered hlen]
  exact since_put_parts _ hm

section Router

variable {ctx : RouterCtx} {reach : Frame → Bool}

/-- A message the router reads to its end is passed on as what it sends for it. -/
theorem routed_of_body {id ty : Frame} {rest : Msg} {ms : List Msg} (hty : ty.length < 128)
    (hms : ∀ m ∈ ms, m ≠ [])
    (hbody : routerBody { ctx with routerIn := ⟨parts rest, !rest.isEmpty⟩ } (cstr ty)
      = { ctx with routerIn := ⟨[], false⟩, routerOut := ctx.routerOut.put (stream ms) }) :
    ctx.routed [id :: ty :: rest] = ms := by
  set c : RouterCtx := { ctx with routerIn := In.holding [id :: ty :: rest] }
  have hc : routerBody { c with routerIn := ⟨parts rest, !rest.isEmpty⟩ } (cstr ty)
      = { ctx with routerIn := ⟨[], false⟩, routerOut := ctx.routerOut.put (stream ms) } := hbody
  have hone : routerCallback c = routerBody { c with routerIn := ⟨parts rest, !rest.isEmpty⟩ }
      (cstr ty) := routerCallback_one rfl hty (by rw [hc]; rfl)
  show ctx.routerOut.since (routerCallback c).routerOut = ms
  rw [hone, hc]
  exact since_of_sent hms rfl

theorem routed_known (h : ctx.routerOut.Idle reach) (id : Frame) {f : Frame} {rest : Msg}
    (hrest : rest ≠ []) (hlen : Relayable (f :: rest)) (hf : reach f = true) :
    ctx.routed [id :: mqReq :: f :: rest] = [f :: rest] := by
  have hbody := routerBody_known h hrest hlen hf []
  refine routed_of_body (by decide) (by simp) ?_
  rw [cstr_mqReq]
  simpa using hbody

theorem routed_unknown (h : ctx.routerOut.Idle reach) (hinterhub : ctx.interhub = true)
    (hhub : reach interhubName = true) (id : Frame) {svcHost : Str} (hne : svcHost ≠ [])
    (h0 : (0 : Byte) ∉ svcHost) (hhost : svcHost.length < 128) (hf : reach svcHost = false)
    {tag : MqTag} (hvia : tag.viaInterhub = false) {body : Frame}
    (hbody : body.length ≤ maxBuffSize) :
    ctx.routed [[id, mqReq, svcHost, tag.mem, body]] = toInterhub tag svcHost body := by
  have hrouter := routerBody_unknown h hinterhub hhub hne h0 hhost hf hvia hbody []
  refine routed_of_body (by decide) (by simp [toInterhub]) ?_
  rw [cstr_mqReq]
  simpa using hrouter

theorem routed_resInterhub (h : ctx.routerOut.Idle reach) (hhub : reach interhubName = true)
    (id : Frame) {rest : Msg} (hrest : rest ≠ []) (hlen : Relayable rest) :
    ctx.routed [id :: mqResInterhub :: rest] = [interhubName :: mqResInterhub :: rest] := by
  have hbody := routerBody_backToHub h hhub hrest hlen []
  have hmore : (!rest.isEmpty) = true := by simpa using hrest
  refine routed_of_body (by decide) (by simp) ?_
  rw [cstr_mqResInterhub, hmore]
  simpa using hbody

end Router

/-- A thread publishes, for the messages it reads, what is published for each. -/
theorem published_eq {t : BrokerThread} (hpub : t.zmqPub.kind = .pub) (ms : List DealerMsg)
    (hfits : ∀ m ∈ ms, m.Fits) (hall : AllReadFrom t false ms) :
    t.published (ms.map DealerMsg.frames) = ms.flatMap (answer t) :=
  publishes_eq hpub hfits hall

/-- What is published under the id of its broker the thread passes to the broker, as a plain
request or response. -/
theorem passed_one (time : Nat → Time) {t : BrokerThread} (hid : IsBrokerId t.brokerId)
    (hdealer : t.zmqDealerOut.Steady) (response : Bool) (svc tagOrName body : Frame)
    (hfits : (SubMsg.relayed response svc tagOrName body).Fits) :
    t.passed time
        [[t.brokerId, if response then mqResInterhub else mqReqInterhub, svc, tagOrName, body]]
      = [[interhubName, if response then mqRes else mqReq, cstr svc,
          (MqTag.zero.recv tagOrName).mem, body]] := by
  have halone := brokerSubCallback_alone time hid hdealer hfits
  have hsub : subscribed [mqReg, t.brokerId]
      [[t.brokerId, if response then mqResInterhub else mqReqInterhub, svc, tagOrName, body]]
      = [[t.brokerId, if response then mqResInterhub else mqReqInterhub, svc, tagOrName,
          body]] := by
    simp [subscribed]
  simp only [BrokerThread.passed, hsub]
  show (t.zmqDealerOut.since (brokerSubCallback time (subWaiting t
    [.relayed response svc tagOrName body])).zmqDealerOut).map (fromPeer interhubName) = _
  rw [halone]
  show (t.zmqDealerOut.since (t.zmqDealerOut.put (parts _))).map _ = _
  rw [since_put_parts _ (by simp)]
  rfl

/-! ### The request -/

theorem length_unroutableLog {tag : MqTag} {svcHost : Str} (hhost : svcHost.length < 128) :
    (unroutableLog tag svcHost).length < maxLogSize := by
  have hsvc : tag.svc.length ≤ 72 := by
    refine Nat.le_trans (length_cstr_le _) ?_
    rw [List.length_drop, tag.size]
  have h1 : (lit "BROKER SAY] hey~! from [").length = 24 := by decide
  have h2 : (lit "] to [").length = 6 := by decide
  have h3 : (lit "] un-routable, send it to you with label [").length = 42 := by decide
  have h4 : interhubName.length = 9 := by decide
  have h5 : (lit "]").length = 1 := by decide
  have hmax : maxLogSize = 1024 := rfl
  simp only [unroutableLog, List.length_append, h1, h2, h3, h4, h5]
  omega

/-- The tag a request has at the other broker. -/
def carried (tag : MqTag) (id : Str) : MqTag := tag.setViaInterhub.setBroker id

/-- At the broker of the sender, the request becomes a publication for the other broker. -/
theorem published_request {A : Station} {reach : Frame → Bool} (hA : A.Ready reach) {tag : MqTag}
    (hvia : tag.viaInterhub = false) {tgsvc : Str} (hname : IsName 24 tgsvc) {body : Frame}
    (hbody : body.length ≤ maxBuffSize) (hfar : reach tgsvc = false) {id : Str}
    (hfind : findSvcExistTree A.thread tgsvc = some id) :
    A.thread.published (routedTo interhubName (A.site.ctx.routed
        (A.site.fromProcess tag.svc [[mqReq, tgsvc, tag.mem, body]])))
      = [[id, mqReqInterhub, tgsvc, (carried tag A.thread.brokerId).mem, body]] := by
  have hfits := hname.fits
  have hcstr : cstr tgsvc = tgsvc := cstr_of_notMem hname.terminated
  have hshort : tgsvc.length < 128 := by omega
  have hfrom := fromProcess_one hA.site tag.svc (by simp) (by simp)
    (relayable_request tag hshort hbody)
  have hrouted := routed_unknown hA.router hA.interhub hA.hub tag.svc hname.nonempty
    hname.terminated hshort hfar hvia hbody
  set log := unroutableLog tag.setViaInterhub tgsvc with hlog
  have hto : routedTo interhubName (toInterhub tag tgsvc body)
      = [DealerMsg.log log, .req tgsvc tag.setViaInterhub body].map DealerMsg.frames := by
    simp [routedTo, toInterhub, DealerMsg.frames, DealerMsg.type, DealerMsg.rest, hlog]
  have hknown : Known A.thread (.req tgsvc tag.setViaInterhub body) := by
    show (findSvcExistTree A.thread (cstr tgsvc)).isSome = true
    rw [hcstr, hfind]
    rfl
  have hpublished := published_eq hA.pub [.log log, .req tgsvc tag.setViaInterhub body]
    (by
      intro m hm
      simp only [List.mem_cons, List.not_mem_nil, or_false] at hm
      rcases hm with rfl | rfl
      · exact length_unroutableLog hshort
      · exact ⟨hshort, hbody⟩)
    ⟨by simpa [Known] using hknown, by simp, by simp [DealerMsg.isLong]⟩
  rw [hfrom, hrouted, hto, hpublished]
  simp [answer, hcstr, hfind, carried]

/-- At the other broker, the publication becomes a request for a process of the service. -/
theorem arrived_request {B : Station} {reach : Frame → Bool} (hB : B.Ready reach) (tag : MqTag)
    {tgsvc : Str} (hname : IsName 24 tgsvc) {body : Frame} (hbody : body.length ≤ maxBuffSize)
    (hnear : reach tgsvc = true) (time : Nat → Time) :
    B.site.toProcess tgsvc (routedTo tgsvc (B.site.ctx.routed (B.thread.passed time
        [[B.thread.brokerId, mqReqInterhub, tgsvc, tag.mem, body]])))
      = [[tag.mem, body]] := by
  have hfits := hname.fits
  have hcstr : cstr tgsvc = tgsvc := cstr_of_notMem hname.terminated
  have hshort : tgsvc.length < 128 := by omega
  have hlen := relayable_tagged tag hshort hbody
  have hpassed := passed_one time hB.id hB.dealer false tgsvc tag.mem body
    ⟨hshort, by rw [tag.size], hbody⟩
  simp only [Bool.false_eq_true, if_false, hcstr, MqTag.recv_mem] at hpassed
  have hrouted := routed_known hB.router interhubName (by simp : [tag.mem, body] ≠ []) hlen hnear
  have hto : routedTo tgsvc [[tgsvc, tag.mem, body]] = [[tag.mem, body]] := by
    rw [routedTo_one, if_pos rfl]
  rw [hpassed, hrouted, hto]
  exact toProcess_one hB.site tgsvc (by simp) (by simp) fun f hf => hlen f (by simp [hf])

/-- **A request through the hub arrives as it was sent**, with the way back in its tag. -/
theorem requested_eq {A B : Station} {reachA reachB : Frame → Bool} (hA : A.Ready reachA)
    (hB : B.Ready reachB) {c : ClientSock} (hpush : c.zmqPush.Steady) {tag : MqTag}
    (hvia : tag.viaInterhub = false) {tgsvc : Str} (hname : IsName 24 tgsvc) {body : Frame}
    (hne : body ≠ []) (hbody : body.length ≤ maxBuffSize) (hfar : reachA tgsvc = false)
    (hfind : findSvcExistTree A.thread tgsvc = some B.thread.brokerId) (hnear : reachB tgsvc = true)
    (time : Nat → Time) :
    requested A B time c tag tgsvc body = [[(carried tag A.thread.brokerId).mem, body]] := by
  have hsent : c.zmqPush.since (mqSendReq c tag tgsvc body).2.zmqPush
      = [[mqReq, tgsvc, tag.mem, body]] := by
    refine sent_one hpush [mqReq, tgsvc, tag.mem] ?_ hne
    simpa using ⟨by decide, hname.nonempty, tag.mem_ne_nil⟩
  have hpublished := published_request hA hvia hname hbody hfar hfind
  have harrived := arrived_request hB (carried tag A.thread.brokerId) hname hbody hnear time
  simp only [requested, hsent, hpublished]
  exact harrived

/-! ### The reply -/

theorem nonempty_of_isBrokerId {id : Str} (h : IsBrokerId id) : id ≠ [] := by
  obtain ⟨b, rest, rfl, -⟩ := first_of_id h
  simp

/-- At the broker of the reply, the response becomes a publication for the broker it names. -/
theorem published_response {B : Station} {reach : Frame → Bool} (hB : B.Ready reach) (tgsvc : Str)
    {broker svc name reply : Frame} (hbroker : broker.length < 128)
    (hlen : Relayable [broker, svc, name, reply]) :
    B.thread.published (routedTo interhubName (B.site.ctx.routed
        (B.site.fromProcess tgsvc [[mqResInterhub, broker, svc, name, reply]])))
      = [[cstr broker, mqResInterhub, svc, name, reply]] := by
  have hfrom := fromProcess_one hB.site tgsvc
    (m := [mqResInterhub, broker, svc, name, reply]) (by simp) (by simp) (by
      intro f hf
      rcases List.mem_cons.mp hf with rfl | hf
      · decide
      · exact hlen f hf)
  have hrouted := routed_resInterhub hB.router hB.hub tgsvc
    (by simp : [broker, svc, name, reply] ≠ []) hlen
  have hto : routedTo interhubName [[interhubName, mqResInterhub, broker, svc, name, reply]]
      = [DealerMsg.resInterhub broker svc name reply].map DealerMsg.frames := by
    rw [routedTo_one, if_pos rfl]
    rfl
  have hpublished := published_eq hB.pub [.resInterhub broker svc name reply]
    (by
      intro m hm
      obtain rfl := List.mem_singleton.mp hm
      exact ⟨hbroker, fun f hf => hlen f (by simp [hf])⟩)
    ⟨by simp [Known], by simp, List.pairwise_singleton _ _⟩
  rw [hfrom, hrouted, hto, hpublished]
  rfl

/-- At the first broker, the publication becomes one for the service; the name comes in the
rest of a tag. -/
theorem arrived_response {A : Station} {reach : Frame → Bool} (hA : A.Ready reach)
    (svc name : Str) (hsvc : svc.length < 128) (hcstr : cstr svc = svc)
    (hname : name.length ≤ 121) {reply : Frame} (hreply : reply.length ≤ maxBuffSize)
    (time : Nat → Time) :
    A.site.published (A.thread.passed time
        [[A.thread.brokerId, mqResInterhub, svc, name, reply]])
      = [[svc, name ++ zeros (121 - name.length), reply]] := by
  have hpassed := passed_one time hA.id hA.dealer true svc name reply ⟨hsvc, hname, hreply⟩
  simp only [if_true, hcstr, MqTag.recv_short hname] at hpassed
  have hpad : (name ++ zeros (121 - name.length)).length ≤ maxBuffSize := by
    rw [List.length_append, length_zeros]
    simp only [maxBuffSize]
    omega
  have hbsvc : buffered svc = svc := buffered_eq (by simp only [maxBuffSize]; omega)
  rw [hpassed, published_res hA.site (by simp)]
  simp [hbsvc, buffered_eq hpad, buffered_eq hreply]

/-- **A reply through the hub is published at the first broker**, under the service and the
name in the tag. -/
theorem replied_eq {A B : Station} {reachA reachB : Frame → Bool} (hA : A.Ready reachA)
    (hB : B.Ready reachB) {c : ClientSock} (hpush : c.zmqPush.Steady) {tag : MqTag}
    (hvia : tag.viaInterhub = true) (hback : tag.broker = A.thread.brokerId) (hsvc : tag.svc ≠ [])
    (hname : tag.name ≠ []) (hfits : tag.Fits) (tgsvc : Str) {reply : Frame} (hne : reply ≠ [])
    (hreply : reply.length ≤ maxBuffSize) (time : Nat → Time) :
    replied A B time c tag tgsvc reply
      = [[tag.svc, tag.name ++ zeros (121 - tag.name.length), reply]] := by
  have hbroker := hfits.broker
  have hsvclen := hfits.svc
  have hnamelen := hfits.name
  have hid : tag.broker ≠ [] := by
    rw [hback]
    exact nonempty_of_isBrokerId hA.id
  have hlen : Relayable [tag.broker, tag.svc, tag.name, reply] := by
    refine relayable_of_short (m := [tag.broker, tag.svc, tag.name]) ?_ hreply
    intro f hf
    simp only [List.mem_cons, List.not_mem_nil, or_false] at hf
    rcases hf with rfl | rfl | rfl <;> omega
  have hsent : c.zmqPush.since (mqSendRes c tag reply).2.zmqPush
      = [[mqResInterhub, tag.broker, tag.svc, tag.name, reply]] := by
    rw [mqSendRes, if_pos hvia]
    refine sent_one hpush [mqResInterhub, tag.broker, tag.svc, tag.name] ?_ hne
    simpa using ⟨by decide, hid, hsvc, hname⟩
  have hcid : cstr tag.broker = A.thread.brokerId := by
    rw [← hback]
    exact cstr_cstr _
  have hcsvc : cstr tag.svc = tag.svc := cstr_cstr _
  have hpublished := published_response hB tgsvc (by omega) hlen
  have harrived := arrived_response hA tag.svc tag.name (by omega) hcsvc (by omega) hreply time
  rw [hcid] at hpublished
  simp only [replied, hsent, hpublished]
  exact harrived

/-! ### There and back -/

theorem carried_viaInterhub (tag : MqTag) (id : Str) : (carried tag id).viaInterhub = true := by
  simp [carried]

theorem carried_broker {id : Str} (hid : IsBrokerId id) (hlen : id.length < 48) (tag : MqTag) :
    (carried tag id).broker = id := MqTag.broker_setBroker _ hid.2.1 hlen

theorem carried_svc {id : Str} (hlen : id.length < 48) (tag : MqTag) :
    (carried tag id).svc = tag.svc := by
  rw [carried, MqTag.svc_setBroker _ hlen, MqTag.svc_setViaInterhub]

theorem carried_name {id : Str} (hlen : id.length < 48) (tag : MqTag) :
    (carried tag id).name = tag.name := by
  rw [carried, MqTag.name_setBroker _ hlen, MqTag.name_setViaInterhub]

theorem carried_fits {id : Str} (hid : IsBrokerId id) (hlen : id.length < 48) {tag : MqTag}
    (h : tag.Fits) : (carried tag id).Fits :=
  ⟨by rw [carried_broker hid hlen]; exact hlen, by rw [carried_svc hlen]; exact h.svc,
    by rw [carried_name hlen]; exact h.name⟩

/-- A response that the slot of the service has got is received by the process it names. -/
theorem received_own {A : Station} {reach : Frame → Bool} (hA : A.Ready reach) {p : MqRegi}
    {name reply : Frame} (hpre : p.tagName <+: name) (hname : name ≠ [])
    (hnamelen : name.length ≤ maxBuffSize) (hne : reply ≠ []) (hreply : reply.length ≤ maxBuffSize)
    (c : ClientSock) {buf : List Byte} (hbuf : reply.length < buf.length) :
    let ms := A.site.relayed p.tagSvc [[p.tagSvc, name, reply]]
    subscribed [p.tagName] ms ≠ [] ∧ (received p c ms buf).rc = 0 ∧
      (received p c ms buf).buf = reply ++ 0 :: buf.drop (reply.length + 1) := by
  have hrelayed : A.site.relayed p.tagSvc [[p.tagSvc, name, reply]] = [[name, reply]] := by
    rw [relayed_one hA.site _ _ (by simp), if_pos (List.prefix_refl _)]
    simp [buffered_eq hnamelen, buffered_eq hreply]
  obtain ⟨hrc, hback⟩ := received_one p c hname hne buf hpre
  intro ms
  rw [show ms = _ from hrelayed]
  refine ⟨?_, hrc, ?_⟩
  · rw [subscribed_one, if_pos hpre]
    simp
  · rw [hback]
    exact store_set_end hbuf

/-- **A request through the hub is received as it was sent, and so is the reply.**

The tag that is received differs from the one that was sent in the flag and the broker, which
lead the reply back.  The reply may be sent at any time: the brokers and threads are `A'` and
`B'` by then. -/
theorem interhub_round_trip {A B A' B' : Station} {reachA reachB reachA' reachB' : Frame → Bool}
    (hA : A.Ready reachA) (hB : B.Ready reachB) (hA' : A'.Ready reachA') (hB' : B'.Ready reachB')
    (hsame : A'.thread.brokerId = A.thread.brokerId) (hid : A.thread.brokerId.length < 48)
    {c r : ClientSock} (hc : c.zmqPush.Steady) (hr : r.zmqPush.Steady) {p : MqRegi} {tag : MqTag}
    (hp : p.addr = tag.addr) (hvia : tag.viaInterhub = false) (hfits : tag.Fits)
    (hsvc : tag.svc ≠ []) (hname : tag.name ≠ []) {tgsvc : Str} (htgsvc : IsName 24 tgsvc)
    (hfar : reachA tgsvc = false) (hnear : reachB tgsvc = true)
    (hfind : findSvcExistTree A.thread tgsvc = some B.thread.brokerId) {body : Frame}
    (hne : body ≠ []) (hbody : body.length ≤ maxBuffSize) (time : Nat → Time) (into : MqTag)
    {buf : List Byte} (hbuf : body.length < buf.length) :
    let atOther := requested A B time c tag tgsvc body
    let got := mqRecvReq { r with zmqPull := In.holding atOther } into buf
    got.rc = 0 ∧ got.buf = body ++ buf.drop body.length ∧
    got.tag = carried tag A.thread.brokerId ∧
    got.tag.viaInterhub = true ∧ got.tag.broker = A.thread.brokerId ∧ got.tag.svc = tag.svc ∧
    got.tag.name = tag.name ∧
    ∀ (reply : Frame) (time' : Nat → Time) (buf' : List Byte), reply ≠ [] →
      reply.length ≤ maxBuffSize → reply.length < buf'.length →
      let ms := replied A' B' time' r got.tag tgsvc reply
      let back := received p c (A'.site.relayed p.tagSvc ms) buf'
      (∃ n, ms = [[tag.svc, tag.name ++ zeros n, reply]]) ∧
      subscribed [p.tagName] (A'.site.relayed p.tagSvc ms) ≠ [] ∧
      back.rc = 0 ∧ back.buf = reply ++ 0 :: buf'.drop (reply.length + 1) := by
  have harrived := requested_eq hA hB hc hvia htgsvc hne hbody hfar hfind hnear time
  have hgot :
      mqRecvReq { r with zmqPull := In.holding (requested A B time c tag tgsvc body) } into buf
      = ⟨0, { r with zmqPull := In.holding [], sndrcv := countRecv r.sndrcv body.length },
          carried tag A.thread.brokerId, store buf 0 body⟩ := by
    rw [harrived]
    exact mqRecvReq_holding rfl hne buf
  have hbroker := carried_broker hA.id hid tag
  have hcsvc := carried_svc hid tag
  have hcname := carried_name hid tag
  intro atOther got
  rw [show got = _ from hgot]
  refine ⟨rfl, store_front (Nat.le_of_lt hbuf), rfl, carried_viaInterhub _ _, hbroker, hcsvc,
    hcname, ?_⟩
  intro reply time' buf' hreplyne hreply hbuf'
  have hreplied := replied_eq hA' hB' hr (carried_viaInterhub tag _) (hbroker.trans hsame.symm)
    (by rw [hcsvc]; exact hsvc) (by rw [hcname]; exact hname) (carried_fits hA.id hid hfits) tgsvc
    hreplyne hreply time'
  rw [hcsvc, hcname] at hreplied
  have hps : p.tagSvc = tag.svc := congrArg Addr.svc hp
  have hpn : p.tagName = tag.name := congrArg Addr.name hp
  have hpre : p.tagName <+: tag.name ++ zeros (121 - tag.name.length) := by
    rw [hpn]
    exact List.prefix_append _ _
  have hpad : (tag.name ++ zeros (121 - tag.name.length)).length ≤ maxBuffSize := by
    have hnamelen := hfits.name
    rw [List.length_append, length_zeros]
    simp only [maxBuffSize]
    omega
  obtain ⟨hsub, hrc, hback⟩ :=
    received_own hA' hpre (by simp [hname]) hpad hreplyne hreply c hbuf'
  rw [hps, ← hreplied, ← hps] at hsub hrc hback
  exact ⟨⟨_, hreplied⟩, hsub, hrc, hback⟩

section Psib

/-- The broker of the thread, with the services it serves. -/
def stationOf (thread : BrokerThread) (services : List Str) : Station where
  site := { Site.idle with
    ctx := ⟨In.holding [], ⟨.router fun f => (interhubName :: services).contains f, [], []⟩,
      ⟨.pub, [], []⟩, true⟩ }
  thread := thread

/-- The thread of the broker on 10.0.0.2. -/
def threadOther : BrokerThread := { threadPsib with brokerId := lit "10.0.0.2_broker_9" }

theorem ready_stationOf {thread : BrokerThread} (hid : IsBrokerId thread.brokerId)
    (hpub : thread.zmqPub.kind = .pub) (hdealer : thread.zmqDealerOut.Steady)
    (services : List Str) :
    (stationOf thread services).Ready fun f => (interhubName :: services).contains f where
  site := ⟨⟨⟨_, rfl⟩, rfl⟩, Site.ready_idle.name, Site.ready_idle.slot⟩
  router := ⟨rfl, rfl, rfl⟩
  interhub := rfl
  hub := by simp
  id := hid
  pub := hpub
  dealer := hdealer

theorem isBrokerId_threadPsib : IsBrokerId threadPsib.brokerId :=
  ⟨by decide, by decide, lit "10.0.0.1", lit "broker_7", ⟨49, lit "0.0.0.1", by decide, by decide⟩,
    by decide⟩

theorem isBrokerId_threadOther : IsBrokerId threadOther.brokerId :=
  ⟨by decide, by decide, lit "10.0.0.2", lit "broker_9", ⟨49, lit "0.0.0.2", by decide, by decide⟩,
    by decide⟩

/-- `ahif_123` asks `PSIB` on the other broker, and is answered. -/
theorem interhub_round_trip_psib :
    let A := stationOf threadPsib [lit "AHIF"]
    let B := stationOf threadOther [lit "PSIB"]
    let c := crtCliSock 5000 true []
    let r := crtCliSock 6000 true []
    let atOther := requested A B (fun _ => 0) c (ahifTag 123) (lit "PSIB") (lit "hi")
    let got := mqRecvReq { r with zmqPull := In.holding atOther } MqTag.zero (zeros 8)
    let back := received (ahifRegi 123) c (A.site.relayed (ahifRegi 123).tagSvc
      (replied A B (fun _ => 0) r got.tag (lit "PSIB") (lit "ok"))) (zeros 8)
    got.buf = lit "hi" ++ zeros 6 ∧ back.buf = lit "ok" ++ zeros 6 := by
  have hA := ready_stationOf isBrokerId_threadPsib rfl (steady_pipe rfl rfl) [lit "AHIF"]
  have hB := ready_stationOf isBrokerId_threadOther rfl (steady_pipe rfl rfl) [lit "PSIB"]
  have hpush : (crtCliSock 5000 true []).zmqPush.Steady := steady_pipe rfl rfl
  have hpush' : (crtCliSock 6000 true []).zmqPush.Steady := steady_pipe rfl rfl
  have haddr : (ahifRegi 123).addr = (ahifTag 123).addr := by decide +kernel
  have hfits : (ahifTag 123).Fits := ⟨by decide +kernel, by decide +kernel, by decide +kernel⟩
  intro A B c r atOther got back
  obtain ⟨-, hgot, -, -, -, -, -, hreply⟩ := interhub_round_trip hA hB hA hB rfl (by decide) hpush
    hpush' haddr (by decide +kernel) hfits (by decide +kernel) (by decide +kernel)
    (⟨by decide, by decide, by decide⟩ : IsName 24 (lit "PSIB")) (by decide) (by decide)
    (by decide +kernel) (by decide : lit "hi" ≠ []) (by decide) (fun _ => 0) MqTag.zero
    (by decide : (lit "hi").length < (zeros 8).length)
  obtain ⟨-, -, -, hback⟩ := hreply (lit "ok") (fun _ => 0) (zeros 8) (by decide) (by decide)
    (by decide)
  exact ⟨hgot, hback⟩

end Psib

end Brocoli
