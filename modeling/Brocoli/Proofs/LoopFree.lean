/-
No request goes in circles.

A router that cannot reach the service of a request sends it to the hub, marked; the thread
there publishes it under the id of another broker, and the thread of that broker makes a plain
request of it again, which its router must deliver or drop, as it is marked.  What the routers
and the small trees say may be wrong, and something else at every hop.

One thing must not be in a small tree, an id that begins with the topic of registrations: all
threads hear what is published under it, and pass it to their routers.  Registrations make no
such id, as the hub writes the address of its peer in front.

`hop` is what becomes of one message at one component, from what its callback sends.  A
request, and what comes of it, is always in one of the forms of `Underway`, and `Ledger` is
what each of them costs at most.
-/
import Brocoli.Lib.Travel
import Brocoli.Proofs.Directory
import Brocoli.Proofs.Framing
import Brocoli.Proofs.RoundTrip

namespace Brocoli

open CMem Multipart NTree Runs Travel Hub

/-! ### The way -/

/-- A broker the hub runs a thread for. -/
structure Broker where
  host : Str
  name : Str
  address : IsAddress host
  /-- There is no underscore in an address. -/
  plain : (95 : Byte) ∉ host

def Broker.id (b : Broker) : Str := b.host ++ lit "_" ++ b.name

/-- Where a message can be: with a router, on the dealer of a thread, published by a thread,
on the subscriber of a thread, or at the dealer of a service. -/
inductive Loc where
  | router (b : Broker)
  | hub (b : Broker)
  | bus (b : Broker)
  | sub (b : Broker)
  | dealer (b : Broker) (svc : Str)

structure Item where
  loc : Loc
  msg : Msg

/-- What the components are like when a message makes a hop: any routing tables, with sends
that fail or not, and any small trees. -/
structure Surroundings where
  ctx : Broker → RouterCtx
  thread : Broker → BrokerThread
  time : Nat → Time
  sockets : ∀ b, RouterSockets (ctx b)
  id : ∀ b, (thread b).brokerId = b.id
  pub : ∀ b, (thread b).zmqPub.kind = .pub

/-- An id that a subscription to registrations does not cover. -/
def Uncovered (id : Str) : Prop := ¬ mqReg <+: id

/-- No broker in a small tree has an id that begins with the topic of registrations. -/
def Surroundings.Uncovered (env : Surroundings) : Prop :=
  ∀ b, Entries (fun id _ => Brocoli.Uncovered id) (env.thread b).rootNode

/-- A message the router of `b` sends goes to the peer its first frame names. -/
def toPeer (b : Broker) (m : Msg) : Item :=
  ⟨if m.headD [] = interhubName then .hub b else .dealer b (m.headD []), m.tail⟩

/-- The messages a message becomes, and where they are then; `brokers` are those with a thread
at the hub. -/
def hop (brokers : List Broker) (env : Surroundings) (x : Item) : List Item :=
  match x.loc with
  | .router b => ((env.ctx b).routed [x.msg]).map (toPeer b)
  | .hub b => ((env.thread b).published [x.msg]).map fun m => ⟨.bus b, m⟩
  | .bus _ => brokers.flatMap fun c =>
      (subscribed [mqReg, c.id] [x.msg]).map fun m => ⟨.sub c, m⟩
  | .sub b => ((env.thread b).passed env.time [x.msg]).map fun m => ⟨.router b, m⟩
  | .dealer .. => []

namespace Item

/-- The message is at the dealer of a service. -/
def ended (x : Item) : Bool :=
  match x.loc with
  | .dealer .. => true
  | _ => false

def isRouted (x : Item) : Bool :=
  match x.loc with
  | .router _ => true
  | _ => false

/-- The request is at the hub. -/
def isForwarded (x : Item) : Bool :=
  match x.loc with
  | .hub _ => x.msg.head? == some mqReq
  | _ => false

end Item

/-- A request a process of `svc` has sent is with the router of its broker. -/
def sentAt (A : Broker) (site : Site) (svc : Str) (c : ClientSock) (tag : MqTag) (tgsvc : Str)
    (body : Frame) : Journey Item :=
  ⟨(site.fromProcess svc (c.zmqPush.since (mqSendReq c tag tgsvc body).2.zmqPush)).map
    fun m => ⟨.router A, m⟩, []⟩

def TreeStep.FromAddress : TreeStep → Prop
  | .regi svcRegi _ _ => IsAddress svcRegi.brokerHost
  | .sweep _ => True

/-- The id the hub makes of an address does not begin like that. -/
theorem uncovered_brokerIdOf {svcRegi : MqRegi} (h : IsAddress svcRegi.brokerHost) :
    Uncovered (brokerIdOf svcRegi) := by
  obtain ⟨b, rest, hhost, hb⟩ := h
  have hfirst : mqReg = 115 :: lit "vc_reg" := by decide
  have hid : brokerIdOf svcRegi = b :: (rest ++ lit "_" ++ svcRegi.brokerName) := by
    rw [brokerIdOf, hhost]
    rfl
  rw [Uncovered, hid, hfirst]
  intro hpre
  obtain ⟨rfl, -⟩ := List.cons_prefix_cons.mp hpre
  exact absurd hb (by decide)

/-- **Registrations from addresses, and the timer, never make such an id.** -/
theorem uncovered_run {rootNode : Node NodeDataSmall} (hnew : rootNode.children = [])
    (es : List TreeStep) (hes : ∀ e ∈ es, e.FromAddress) :
    Entries (fun id _ => Uncovered id) (es.foldl treeStep rootNode) := by
  have hstep : ∀ (s : Node NodeDataSmall) (e : TreeStep), Entries (fun id _ => Uncovered id) s →
      e.FromAddress → Entries (fun id _ => Uncovered id) (treeStep s e) := by
    intro s e hs he
    cases e with
    | regi svcRegi now now' => exact entries_chkSmallTree hs (uncovered_brokerIdOf he) now now'
    | sweep current => exact entries_removeSmalltreeCallback hs current
  have hstart : Entries (fun id _ => Uncovered id) rootNode := fun b hb =>
    absurd hb (by simp [hnew])
  have hsteps : AllSteps treeStep (fun _ e => e.FromAddress) rootNode es :=
    AllSteps.of_forall hes rootNode
  exact states_inv hstep es hstart hsteps _ (foldl_mem_states es rootNode)

/-! ### The router -/

section Router

variable {ctx : RouterCtx}

theorem relaySndMore_dry {src : In} (h : src.queue = []) (dst : Out) (host : Option (List Byte)) :
    relaySndMore src dst host = ⟨none, ⟨[], src.more⟩, dst, host⟩ := by
  rw [relaySndMore, h]
  rfl

/-- With nothing left to read, at most a message is begun. -/
theorem routerBody_dry (hin : ctx.routerIn.queue = []) (msgType : Str) :
    (routerBody ctx msgType).routerIn.queue = [] ∧
      ∃ fs : Msg, (routerBody ctx msgType).routerOut.sent
        = ctx.routerOut.sent ++ fs.map (⟨·, true⟩) := by
  unfold routerBody
  by_cases h1 : msgType = mqResInterhub
  · rw [if_pos h1, relayResToInterhub]
    obtain ⟨k, hk⟩ := sendWhile_sent (0 < ·) [interhubName, mqResInterhub] ctx.routerOut
    rcases hs : ctx.routerOut.sendWhile (0 < ·) [interhubName, mqResInterhub] with ⟨_ | _, o⟩
    · rw [hs] at hk
      exact ⟨hin, _, hk⟩
    · rw [hs] at hk
      simp only [relaySndMore_dry hin]
      exact ⟨trivial, _, hk⟩
  · rw [if_neg h1]
    by_cases h2 : msgType = mqReqInterhub ∨ msgType = mqReq
    · rw [if_pos h2]
      simp only [relaySndMore_dry hin, afterRelay]
      exact ⟨rfl, [], by simp⟩
    · rw [if_neg h2]
      by_cases h3 : msgType = mqRes
      · rw [if_pos h3]
        simp only [relaySndMore_dry hin, afterRelay]
        exact ⟨rfl, [], by simp⟩
      · rw [if_neg h3]
        by_cases h4 : msgType = mqLog
        · rw [if_pos h4, In.recv, hin]
          exact ⟨hin, [], by simp⟩
        · rw [if_neg h4]
          refine ⟨?_, [], by simp⟩
          simp only [drainLeftPartMessage, hin]
          rfl

/-- What an iteration has left of a request, two frames at most, is taken for the identity and
the type of a message, and comes to nothing. -/
theorem routerLoop_left {s : RouterLoop} (hlen : s.ctx.routerIn.queue.length ≤ 2) (n : Nat) :
    ∃ fs : Msg, (routerLoop n s).ctx.routerOut.sent
      = s.ctx.routerOut.sent ++ fs.map (⟨·, true⟩) := by
  have hempty : ∀ {r : RouterLoop} (m : Nat), r.ctx.routerIn.queue = [] → routerLoop m r = r := by
    intro r m hr
    cases m with
    | zero => rfl
    | succ m =>
        have hiter : routerIter r = (false, r) := by rw [routerIter, In.recv, hr]
        rw [routerLoop, hiter]
  cases n with
  | zero => exact ⟨[], by simp [routerLoop]⟩
  | succ n =>
      obtain ⟨ctx, fromMsg, msgType⟩ := s
      obtain ⟨⟨queue, more⟩, out, pub, interhub⟩ := ctx
      simp only at hlen
      cases queue with
      | nil => exact ⟨[], by rw [hempty _ rfl]; simp⟩
      | cons p queue =>
          cases queue with
          | nil => exact ⟨[], by simp [routerLoop, routerIter]⟩
          | cons p' queue =>
              obtain rfl : queue = [] := by simpa using hlen
              set dry : RouterCtx := ⟨⟨[], p'.more⟩, out, pub, interhub⟩
              have hin : dry.routerIn.queue = [] := rfl
              obtain ⟨hdry, fs, hfs⟩ := routerBody_dry hin
                ((msgType.recv p'.bytes).nulAt p'.bytes.length).str
              refine ⟨fs, ?_⟩
              rw [routerLoop, routerIter]
              simp only [recv_cons]
              rw [hempty n hdry]
              exact hfs

/-- The log line goes whole or not at all. -/
theorem sendUnroutableLog_sent {o : Out} {reach : Frame → Bool} (hk : o.kind = .router reach)
    (log : Frame) : ∃ ms : List Msg, ms.Sublist [[interhubName, mqLog, log]] ∧
      (sendUnroutableLog o log).sent = o.sent ++ stream ms := by
  unfold sendUnroutableLog
  cases hr : o.route interhubName with
  | some e =>
      rw [sendWhile_refused hr]
      exact ⟨[], List.nil_sublist _, by simp⟩
  | none =>
      have hfree : ((o.asked interhubName).put ([interhubName, mqLog].map (⟨·, true⟩))).Free :=
        free_put_frames ((asked_kind o interhubName).trans hk) (by simp)
      rw [sendWhile_routed hk hr _ (by decide)]
      refine ⟨[[interhubName, mqLog, log]], List.Sublist.refl _, ?_⟩
      simp only [send_free hfree, put_put, put_sent, asked_sent]
      simp

/-- The line goes whole or not at all, and then so does the request. -/
theorem relayReqToInterhub_sent {reach : Frame → Bool} (hk : ctx.routerOut.kind = .router reach)
    {tag : MqTag} (hvia : tag.viaInterhub = false) {host : Str} (hhost : host ≠ []) {body : Frame}
    (hbody : body.length ≤ maxBuffSize) (hin : ctx.routerIn = ⟨parts [tag.mem, body], true⟩) :
    (relayReqToInterhub ctx host).routerIn.queue.length ≤ 2 ∧
      ∃ ms : List Msg, ms.Sublist (toInterhub tag host body) ∧
        (relayReqToInterhub ctx host).routerOut.sent = ctx.routerOut.sent ++ stream ms := by
  set log := unroutableLog tag.setViaInterhub host with hlog
  obtain ⟨ms, hms, hsent⟩ := sendUnroutableLog_sent hk log
  have hk1 := (sendUnroutableLog_kind ctx.routerOut log).trans hk
  have hin' : ctx.routerIn = ⟨parts [tag.mem, body] ++ stream [], true⟩ := by
    rw [hin, stream_nil, List.append_nil]
  have htest := hubFrames_nonempty hhost tag.setViaInterhub
  rw [relayReqToInterhub_fresh hin' hvia]
  simp only [← hlog]
  set o := sendUnroutableLog ctx.routerOut log
  cases hr : o.route interhubName with
  | some e =>
      rw [sendWhile_refused hr]
      refine ⟨by simp, ms, hms.trans ?_, hsent⟩
      exact List.Sublist.cons_cons _ (List.nil_sublist _)
  | none =>
      have hfree : ((o.asked interhubName).put
          ([interhubName, mqReq, host, tag.setViaInterhub.mem].map (⟨·, true⟩))).Free :=
        free_put_frames ((asked_kind o interhubName).trans hk1) (by simp)
      have hrelay := relaySndMore_free (m := [body]) (by simp) (by simpa [Relayable] using hbody)
        hfree (stream []) true none
      rw [sendWhile_routed hk1 hr _ htest]
      simp only [hrelay, put_put]
      refine ⟨by simp, ms ++ [[interhubName, mqReq, host, tag.setViaInterhub.mem, body]], ?_, ?_⟩
      · exact hms.append (List.Sublist.refl _)
      · rw [put_sent, asked_sent, hsent, stream_append]
        simp

/-- What a router makes of a request: it goes to its service, or some of what the hub gets
goes there, and nothing once it is marked. -/
def Onward (tgsvc : Str) (tag : MqTag) (body : Frame) (ms : List Msg) : Prop :=
  ms = [[tgsvc, tag.mem, body]] ∨
    ms.Sublist (if tag.viaInterhub then [] else toInterhub tag tgsvc body)

theorem Onward.ne_nil {tgsvc : Str} {tag : MqTag} {body : Frame} {ms : List Msg}
    (h : Onward tgsvc tag body ms) : ∀ m ∈ ms, m ≠ [] := by
  rcases h with rfl | h
  · simp
  · intro m hm
    have hmem := h.subset hm
    by_cases hvia : tag.viaInterhub = true
    · simp [hvia] at hmem
    · simp only [hvia, Bool.false_eq_true, if_false, toInterhub, List.mem_cons, List.not_mem_nil,
        or_false] at hmem
      rcases hmem with rfl | rfl <;> simp

/-- A request for the hub: what is left of it is at most two frames, and a marked one goes no
further. -/
theorem relayReqToInterhub_request {reach : Frame → Bool} {c : RouterCtx}
    (hk : c.routerOut.kind = .router reach) {tgsvc : Str} (hname : tgsvc ≠ []) {tag : MqTag}
    {body : Frame} (hbody : body.length ≤ maxBuffSize)
    (hin : c.routerIn = ⟨parts [tag.mem, body], true⟩) :
    (relayReqToInterhub c tgsvc).routerIn.queue.length ≤ 2 ∧
      ∃ ms : List Msg, ms.Sublist (if tag.viaInterhub then [] else toInterhub tag tgsvc body) ∧
        (relayReqToInterhub c tgsvc).routerOut.sent = c.routerOut.sent ++ stream ms := by
  cases hvia : tag.viaInterhub with
  | true =>
      have hleft : c.routerIn = ⟨parts [tag.mem, body] ++ stream [], true⟩ := by
        rw [stream_nil, List.append_nil, hin]
      rw [relayReqToInterhub_looped hleft hvia]
      exact ⟨by simp, [], List.nil_sublist _, by simp⟩
  | false => exact relayReqToInterhub_sent hk hvia hname hbody hin

theorem routerBody_request (hsock : RouterSockets ctx) {tgsvc : Str} (hname : IsName 128 tgsvc)
    (tag : MqTag) {body : Frame} (hbody : body.length ≤ maxBuffSize)
    (hin : ctx.routerIn = ⟨parts [tgsvc, tag.mem, body], true⟩) :
    (routerBody ctx mqReq).routerIn.queue.length ≤ 2 ∧
      ∃ ms, Onward tgsvc tag body ms ∧
        (routerBody ctx mqReq).routerOut.sent = ctx.routerOut.sent ++ stream ms := by
  obtain ⟨reach, hk⟩ := hsock.router
  have hlen := relayable_tagged tag hname.fits hbody
  have hrest : [tag.mem, body] ≠ [] := by simp
  have hsplit : ctx = { ctx with routerIn := ⟨parts [tgsvc, tag.mem, body] ++ [], true⟩ } := by
    rw [List.append_nil, ← hin]
  rw [hsplit]
  cases hr : (settle ctx.routerOut tgsvc).route tgsvc with
  | none =>
      rw [routerBody_routed (Or.inr rfl) hrest hlen hk hr]
      exact ⟨by simp, [[tgsvc, tag.mem, body]], Or.inl rfl, by simp⟩
  | some e =>
      by_cases he : e = .EHOSTUNREACH
      · subst he
        rw [routerBody_unreachable (Or.inr rfl) hrest hname.fits hr,
          cstr_of_notMem hname.terminated, List.append_nil]
        cases hhub : ctx.interhub with
        | false =>
            refine ⟨?_, [], Or.inr (List.nil_sublist _), by simp⟩
            have hdrain := drain_rest [tag.mem, body] []
            rw [stream_nil, List.append_nil] at hdrain
            exact (congrArg (fun i : In => i.queue.length) hdrain).trans_le (by simp)
        | true =>
            rw [if_pos rfl]
            set c : RouterCtx := ⟨⟨parts [tag.mem, body], true⟩,
              (settle ctx.routerOut tgsvc).asked tgsvc, ctx.zmqPub, true⟩ with hc
            have hkind : c.routerOut.kind = .router reach := by simpa [hc] using hk
            obtain ⟨hqueue, ms, hms, hsent⟩ :=
              relayReqToInterhub_request hkind hname.nonempty hbody rfl
            refine ⟨hqueue, ms, Or.inr hms, ?_⟩
            rw [hsent]
            simp [hc]
      · rw [routerBody_refused (Or.inr rfl) hrest hname.fits hr he]
        exact ⟨by simp, [], Or.inr (List.nil_sublist _), by simp⟩

/-- **A request is sent on to its service, or to the hub, or it is dropped.** -/
theorem routed_request (hsock : RouterSockets ctx) (id : Frame) {tgsvc : Str}
    (hname : IsName 128 tgsvc) (tag : MqTag) {body : Frame} (hbody : body.length ≤ maxBuffSize) :
    Onward tgsvc tag body (ctx.routed [[id, mqReq, tgsvc, tag.mem, body]]) := by
  set c : RouterCtx :=
    { ctx with routerIn := In.holding [[id, mqReq, tgsvc, tag.mem, body]] } with hc
  obtain ⟨fm, mt, hiter⟩ := routerIter_message (s := routerEnter c) rfl (by decide)
  rw [cstr_mqReq, stream_nil, List.append_nil] at hiter
  have hsock' : RouterSockets { c with routerIn := ⟨parts [tgsvc, tag.mem, body], true⟩ } :=
    hsock.of_kinds rfl rfl
  obtain ⟨hqueue, ms, hms, hsent⟩ := routerBody_request hsock' hname tag hbody rfl
  have hcallback : routerCallback c = (routerLoop 999 ⟨routerBody { c with
      routerIn := ⟨parts [tgsvc, tag.mem, body], true⟩ } mqReq, fm, mt⟩).ctx := by
    rw [routerCallback, routerLoop, hiter]
    rfl
  obtain ⟨fs, hfs⟩ := routerLoop_left (s := ⟨routerBody { c with
      routerIn := ⟨parts [tgsvc, tag.mem, body], true⟩ } mqReq, fm, mt⟩) hqueue 999
  have hrouted : ctx.routed [[id, mqReq, tgsvc, tag.mem, body]] = ms := by
    rw [RouterCtx.routed, ← hc, hcallback]
    refine since_of_begun hms.ne_nil fs ?_
    rw [hfs, hsent, List.append_assoc]
  rw [hrouted]
  exact hms

end Router

/-! ### The hub -/

/-- The first byte of a tag is the flag. -/
def Flagged (tag : MqTag) (b : Byte) : Prop := tag.mem.headD 0 = b

theorem flagged_zero_iff {tag : MqTag} : Flagged tag 0 ↔ tag.viaInterhub = false := by
  unfold Flagged
  simp [MqTag.viaInterhub]

theorem via_of_flagged {tag : MqTag} (h : Flagged tag 1) : tag.viaInterhub = true := by
  rw [MqTag.viaInterhub, show tag.mem.headD 0 = 1 from h]
  decide

theorem flagged_setViaInterhub (tag : MqTag) : Flagged tag.setViaInterhub 1 := by
  have hsize := tag.size
  show (store tag.mem 0 [1]).headD 0 = 1
  rw [store_front (by simp [hsize])]
  rfl

theorem flagged_setBroker {tag : MqTag} {b : Byte} (h : Flagged tag b) (id : Str) :
    Flagged (tag.setBroker id) b := by
  have hsize := tag.size
  unfold Flagged at h
  cases hm : tag.mem with
  | nil => simp [hm] at hsize
  | cons c rest =>
      rw [hm] at h
      simpa [Flagged, MqTag.setBroker, store, hm] using h

/-- A tag is not read as a type, whatever was in the buffer. -/
theorem str_recv_tag {n : Nat} (buf : Buf (n + 1)) {tag : MqTag} {b : Byte} (h : Flagged tag b)
    (hb : b ≠ 115) {ty : Str} (hty : ty.headD 0 = 115) : (buf.recv tag.mem).str ≠ ty := by
  intro heq
  have hhead := buf.headD_str_recv tag.mem_ne_nil
  rw [heq, hty] at hhead
  exact hb (h.symm.trans hhead.symm)

section Thread

variable {t : BrokerThread}

theorem interhubBody_dry (hin : t.zmqDealerIn.queue = []) (msgType : Str) :
    interhubBody t msgType = t := by
  have hrecv : t.zmqDealerIn.recv = none := by rw [In.recv, hin]
  unfold interhubBody findSvcAndRelay findBrokerAndRelay
  simp only [hrecv, ite_self]

/-- A tag and a body that are left on the dealer come to nothing. -/
theorem interhub_left {tag : MqTag} {b : Byte} (h : Flagged tag b) (hb : b ≠ 115) {body : Frame}
    {more : Bool} (hin : t.zmqDealerIn = ⟨parts [tag.mem, body], more⟩) (buf : Buf 128)
    (fuel : Nat) : (whileSome interhubIter fuel (t, buf)).1.zmqPub = t.zmqPub := by
  have hstr : ∀ ty : Str, ty.headD 0 = 115 → (buf.recv tag.mem).str ≠ ty := fun _ hty =>
    str_recv_tag buf h hb hty
  have h1 : interhubIter (t, buf)
      = some ({ t with zmqDealerIn := ⟨[⟨body, false⟩], true⟩ }, buf.recv tag.mem) := by
    unfold interhubIter
    simp only [hin, parts_cons_cons, parts_singleton, recv_cons, interhubBody]
    rw [if_neg (hstr _ (by decide)), if_neg (hstr _ (by decide)), if_neg (hstr _ (by decide))]
  have h2 : ∀ buf', interhubIter ({ t with zmqDealerIn := ⟨[⟨body, false⟩], true⟩ }, buf')
      = some ({ t with zmqDealerIn := ⟨[], false⟩ }, buf'.recv body) := by
    intro buf'
    rw [interhubIter]
    simp only [recv_cons]
    rw [interhubBody_dry rfl]
  have h3 : ∀ buf', interhubIter ({ t with zmqDealerIn := ⟨[], false⟩ }, buf') = none :=
    fun _ => rfl
  cases fuel with
  | zero => rfl
  | succ n =>
      rw [whileSome_some h1]
      cases n with
      | zero => rfl
      | succ n => rw [whileSome_some (h2 _), whileSome_none (h3 _)]

/-- What the thread does with a request it publishes nothing for. -/
theorem published_left {tag : MqTag} {b : Byte} (h : Flagged tag b) (hb : b ≠ 115) (body : Frame) :
    t.published [[tag.mem, body]] = [] := by
  set c : BrokerThread := { t with zmqDealerIn := In.holding [[tag.mem, body]] } with hc
  have hin : c.zmqDealerIn = ⟨parts [tag.mem, body], false⟩ := by simp [hc, In.holding]
  rw [BrokerThread.published, ← hc, interhubCallback, interhub_left h hb hin]
  exact since_self _

/-- **A request is published under the id of another broker, or dropped.** -/
theorem published_forwarded (hpub : t.zmqPub.kind = .pub) {tgsvc : Str} (hname : IsName 128 tgsvc)
    {tag : MqTag} {b : Byte} (h : Flagged tag b) (hb : b ≠ 115) {body : Frame}
    (hbody : body.length ≤ maxBuffSize) :
    t.published [[mqReq, tgsvc, tag.mem, body]] = [] ∨
      ∃ id, findSvcExistTree t tgsvc = some id ∧ t.published [[mqReq, tgsvc, tag.mem, body]]
        = [[id, mqReqInterhub, tgsvc, (tag.setBroker t.brokerId).mem, body]] := by
  have hcstr : cstr tgsvc = tgsvc := cstr_of_notMem hname.terminated
  cases hfind : findSvcExistTree t tgsvc with
  | some id =>
      have hknown : Known t (.req tgsvc tag body) := by
        show (findSvcExistTree t (cstr tgsvc)).isSome = true
        rw [hcstr, hfind]
        rfl
      have hpublished := published_eq hpub [.req tgsvc tag body]
        (by simpa using ⟨hname.fits, hbody⟩)
        ⟨by simpa using hknown, by simp, List.pairwise_singleton _ _⟩
      refine Or.inr ⟨id, rfl, ?_⟩
      simp only [List.map_cons, List.map_nil, List.flatMap_cons, List.flatMap_nil, List.append_nil,
        answer, hcstr, hfind] at hpublished
      exact hpublished
  | none =>
      left
      set c : BrokerThread :=
        { t with zmqDealerIn := In.holding [[mqReq, tgsvc, tag.mem, body]] } with hc
      have hreq : ((Buf.zero 128).recv mqReq).str = mqReq :=
        (Buf.str_recv_zero (by decide)).trans (by decide)
      have hunknown := findSvcAndRelay_unknown (t := { c with
        zmqDealerIn := ⟨parts [tgsvc, tag.mem, body] ++ stream [], true⟩ }) (by simp) hname.fits rfl
        (by rw [hcstr]; exact hfind)
      have hiter : interhubIter (c, Buf.zero 128)
          = some ({ c with zmqDealerIn := ⟨parts [tag.mem, body] ++ stream [], true⟩ },
              (Buf.zero 128).recv mqReq) := by
        have hrecv : c.zmqDealerIn.recv
            = some (mqReq, ⟨parts [tgsvc, tag.mem, body] ++ stream [], true⟩) :=
          recv_holding_cons (by simp) mqReq []
        unfold interhubIter
        simp only [hrecv, hreq, interhubBody, if_true, hunknown]
      have hleft : (whileSome interhubIter 3 ({ c with
          zmqDealerIn := ⟨parts [tag.mem, body] ++ stream [], true⟩ },
            (Buf.zero 128).recv mqReq)).1.zmqPub = t.zmqPub := by
        rw [stream_nil, List.append_nil]
        exact interhub_left h hb rfl _ _
      have hlen : c.zmqDealerIn.queue.length = 4 := rfl
      rw [BrokerThread.published, ← hc, interhubCallback, hlen, whileSome_some hiter, hleft]
      exact since_self _

/-- `relay_to_broker` puts a whole message or none, and leaves the body at most. -/
theorem relayToBroker_sent {svc : Str} (hname : IsName 128 svc) (tag : MqTag) {body : Frame}
    (hbody : body.length ≤ maxBuffSize) (hin : t.zmqSub = ⟨parts [svc, tag.mem, body], true⟩)
    (msgType : Str) :
    (relayToBroker t msgType).zmqSub.queue.length ≤ 1 ∧
      ∃ (ms : List Msg) (fs : Msg), (ms = [] ∨ ms = [[msgType, svc, tag.mem, body]]) ∧
        (relayToBroker t msgType).zmqDealerOut.sent
          = t.zmqDealerOut.sent ++ (stream ms ++ fs.map (⟨·, true⟩)) := by
  have hcstr : cstr svc = svc := cstr_of_notMem hname.terminated
  unfold relayToBroker
  rw [hin]
  simp only [parts_cons_cons, parts_singleton, recv_cons, Buf.str_recv_zero hname.fits, hcstr,
    MqTag.recv_mem]
  rcases hs : t.zmqDealerOut.sendWhile (fun _ => true) [msgType, svc, tag.mem] with ⟨_ | _, o⟩
  · obtain ⟨k, hk⟩ := sendWhile_sent (fun _ => true) [msgType, svc, tag.mem] t.zmqDealerOut
    rw [hs] at hk
    exact ⟨by simp, [], _, Or.inl rfl, hk⟩
  · obtain ⟨-, hsent⟩ := sendWhile_ok hs
    obtain ⟨hqueue, hlast⟩ := relaySndMore_last hbody true o
    simp only [hqueue]
    refine ⟨by simp, ?_⟩
    rcases hlast with hlast | hlast
    · refine ⟨[[msgType, svc, tag.mem, body]], [], Or.inr rfl, ?_⟩
      rw [hlast, hsent]
      simp
    · refine ⟨[], [msgType, svc, tag.mem], Or.inl rfl, ?_⟩
      rw [hlast, hsent]
      simp

/-- A frame that is left on the subscriber comes to nothing. -/
theorem brokerSub_left (time : Nat → Time) (hlen : t.zmqSub.queue.length ≤ 1) (buf : Buf 1024)
    (fuel : Nat) :
    (whileSome (brokerSubIter time) fuel (t, buf)).1.zmqDealerOut = t.zmqDealerOut := by
  have hempty : ∀ (u : BrokerThread) (b : Buf 1024) (n : Nat), u.zmqSub.queue = [] →
      whileSome (brokerSubIter time) n (u, b) = (u, b) := by
    intro u b n hu
    exact whileSome_none (by rw [brokerSubIter, In.recv, hu]) n
  cases fuel with
  | zero => rfl
  | succ n =>
      cases hq : t.zmqSub.queue with
      | nil => rw [hempty t buf _ hq]
      | cons p q =>
          have hnil : q = [] := by
            rw [hq] at hlen
            simpa using hlen
          have hiter : brokerSubIter time (t, buf)
              = some ({ t with zmqSub := ⟨[], p.more⟩ }, buf.recv p.bytes) := by
            rw [brokerSubIter, In.recv, hq, hnil]
            rfl
          rw [whileSome_some hiter, hempty _ _ n rfl]

/-- A request under a topic that is not the one of registrations is relayed, whole or not
at all. -/
theorem brokerSubCallback_request (time : Nat → Time) {id : Str} (hid : Uncovered id) {svc : Str}
    (hname : IsName 128 svc) (tag : MqTag) {body : Frame}
    (hbody : body.length ≤ maxBuffSize)
    (hin : t.zmqSub = In.holding [[id, mqReqInterhub, svc, tag.mem, body]]) :
    ∃ (ms : List Msg) (fs : Msg), (ms = [] ∨ ms = [[mqReq, svc, tag.mem, body]]) ∧
      (brokerSubCallback time t).zmqDealerOut.sent
        = t.zmqDealerOut.sent ++ (stream ms ++ fs.map (⟨·, true⟩)) := by
  set t' : BrokerThread := { t with zmqSub := ⟨parts [svc, tag.mem, body], true⟩ }
  obtain ⟨hqueue, ms, fs, hms, hsent⟩ := relayToBroker_sent (t := t') hname tag hbody rfl mqReq
  have haction : ((Buf.zero 1024).recv id).str ≠ mqReg := by
    intro heq
    exact hid (heq ▸ Buf.str_recv_front id)
  have htype : ((Buf.zero 128).recv mqReqInterhub).str = mqReqInterhub :=
    (Buf.str_recv_zero (by decide)).trans (by decide)
  have hiter : brokerSubIter time (t, Buf.zero 1024)
      = some (relayToBroker t' mqReq, (Buf.zero 1024).recv id) := by
    have hrecv :
        t.zmqSub.recv = some (id, ⟨parts [mqReqInterhub, svc, tag.mem, body] ++ [], true⟩) := by
      rw [hin]
      exact recv_holding_cons (by simp) id []
    unfold brokerSubIter
    simp only [hrecv, brokerSubBody, parts_cons_cons, List.cons_append, recv_cons,
      if_neg haction, htype, if_true]
    rfl
  have hlen : t.zmqSub.queue.length = 5 := by rw [hin]; rfl
  refine ⟨ms, fs, hms, ?_⟩
  rw [brokerSubCallback, hlen, whileSome_some hiter, brokerSub_left time hqueue]
  exact hsent

/-- **What is published for a broker is passed to its router as a plain request, or dropped.** -/
theorem passed_heard (time : Nat → Time) {id : Str} (hid : Uncovered id) {svc : Str}
    (hname : IsName 128 svc) (tag : MqTag) {body : Frame}
    (hbody : body.length ≤ maxBuffSize) :
    let ms := t.passed time [[id, mqReqInterhub, svc, tag.mem, body]]
    ms = [] ∨ ms = [[interhubName, mqReq, svc, tag.mem, body]] := by
  have hmessages : subscribed [mqReg, t.brokerId] [[id, mqReqInterhub, svc, tag.mem, body]] = [] ∨
      subscribed [mqReg, t.brokerId] [[id, mqReqInterhub, svc, tag.mem, body]]
        = [[id, mqReqInterhub, svc, tag.mem, body]] := by
    simp only [subscribed, List.filter_cons, List.filter_nil]
    split
    · exact Or.inr rfl
    · exact Or.inl rfl
  set heard := subscribed [mqReg, t.brokerId] [[id, mqReqInterhub, svc, tag.mem, body]]
  set c : BrokerThread := { t with zmqSub := In.holding heard } with hc
  intro ms
  have hms : ms = (t.zmqDealerOut.since (brokerSubCallback time c).zmqDealerOut).map
      (fromPeer interhubName) := rfl
  rcases hmessages with hsub | hsub
  · left
    have hleft := brokerSub_left time (t := c) (by simp [hc, hsub]) (Buf.zero 1024)
    rw [hms, brokerSubCallback, hleft, since_self, List.map_nil]
  · obtain ⟨out, fs, hout, hsent⟩ := brokerSubCallback_request (t := c) time hid hname tag hbody
      (by rw [hc, hsub])
    rw [since_of_begun (by rcases hout with rfl | rfl <;> simp) fs hsent] at hms
    rcases hout with rfl | rfl
    · exact Or.inl hms
    · exact Or.inr hms

end Thread

/-! ### The bus -/

/-- The address ends at the first underscore. -/
theorem host_eq_of_prefix {c d : Broker} {id : Str} (hc : c.id <+: id) (hd : d.id <+: id) :
    c.host = d.host := by
  have hhost : ∀ b : Broker, b.id <+: id → id.takeWhile (· ≠ 95) = b.host := fun b hb =>
    Hub.host_of_prefix b.plain hb
  exact (hhost c hc).symm.trans (hhost d hd)

/-- **What is published for a broker is heard by one thread at most.** -/
theorem heard_one {id : Str} (hid : Uncovered id) (rest : Msg) : ∀ {brokers : List Broker},
    (brokers.map Broker.host).Nodup →
      let heard := brokers.flatMap fun c =>
        (subscribed [mqReg, c.id] [id :: rest]).map fun m => (⟨.sub c, m⟩ : Item)
      heard = [] ∨ ∃ c, c.id <+: id ∧ heard = [⟨.sub c, id :: rest⟩] := by
  have hreg : ¬ mqReg <+: id := hid
  have hsub : ∀ c : Broker, subscribed [mqReg, c.id] [id :: rest]
      = if c.id <+: id then [id :: rest] else [] := by
    intro c
    by_cases hc : c.id <+: id <;> simp [subscribed, hreg, hc]
  intro brokers
  induction brokers with
  | nil => intro _; exact Or.inl rfl
  | cons c brokers ih =>
      intro hnodup
      rw [List.map_cons, List.nodup_cons] at hnodup
      obtain ⟨hnew, hnodup⟩ := hnodup
      intro heard
      by_cases hc : c.id <+: id
      · right
        refine ⟨c, hc, ?_⟩
        have hrest : brokers.flatMap (fun d =>
            (subscribed [mqReg, d.id] [id :: rest]).map fun m => (⟨.sub d, m⟩ : Item)) = [] := by
          refine List.flatMap_eq_nil_iff.mpr fun d hd => ?_
          have hother : ¬ d.id <+: id := fun hpre =>
            hnew (List.mem_map.mpr ⟨d, hd, host_eq_of_prefix hpre hc⟩)
          rw [hsub, if_neg hother, List.map_nil]
        show (c :: brokers).flatMap _ = _
        rw [List.flatMap_cons, hrest, hsub, if_pos hc]
        rfl
      · have hheard : heard = brokers.flatMap fun d =>
            (subscribed [mqReg, d.id] [id :: rest]).map fun m => (⟨.sub d, m⟩ : Item) := by
          show (c :: brokers).flatMap _ = _
          rw [List.flatMap_cons, hsub, if_neg hc]
          rfl
        rw [hheard]
        exact ih hnodup

/-! ### The forms of a request -/

section Forms

variable (tgsvc : Str) (body : Frame)

/-- Everything a request becomes.  Once it has been sent to the hub it is marked, and stays
so. -/
inductive Underway : Item → Prop where
  | fresh (b : Broker) (id : Frame) (tag : MqTag) (h : Flagged tag 0) :
      Underway ⟨.router b, [id, mqReq, tgsvc, tag.mem, body]⟩
  | log (b : Broker) (text : Frame) (h : text.length < maxLogSize) :
      Underway ⟨.hub b, [mqLog, text]⟩
  | forwarded (b : Broker) (tag : MqTag) (h : Flagged tag 1) :
      Underway ⟨.hub b, [mqReq, tgsvc, tag.mem, body]⟩
  | published (b : Broker) (id : Str) (tag : MqTag) (h : Flagged tag 1) (hid : Uncovered id)
      (hother : id ≠ b.id) : Underway ⟨.bus b, [id, mqReqInterhub, tgsvc, tag.mem, body]⟩
  | heard (c : Broker) (id : Str) (tag : MqTag) (h : Flagged tag 1) (hid : Uncovered id) :
      Underway ⟨.sub c, [id, mqReqInterhub, tgsvc, tag.mem, body]⟩
  | returned (b : Broker) (id : Frame) (tag : MqTag) (h : Flagged tag 1) :
      Underway ⟨.router b, [id, mqReq, tgsvc, tag.mem, body]⟩
  | stray (b : Broker) (tag : MqTag) (f : Byte) (h : Flagged tag f) (hf : f ≠ 115) :
      Underway ⟨.hub b, [tag.mem, body]⟩
  | delivered (b : Broker) (tag : MqTag) : Underway ⟨.dealer b tgsvc, [tag.mem, body]⟩

end Forms

/-- A number for each form. -/
structure Ledger where
  fresh : Nat
  returned : Nat
  forwarded : Nat
  other : Nat
  published : Nat
  heard : Nat
  delivered : Nat

namespace Ledger

def of (w : Ledger) (x : Item) : Nat :=
  match x.loc with
  | .router _ => if (x.msg.getD 3 []).headD 0 = 0 then w.fresh else w.returned
  | .hub _ => if x.msg.head? = some mqReq then w.forwarded else w.other
  | .bus _ => w.published
  | .sub _ => w.heard
  | .dealer .. => w.delivered

/-- What is left in the budget `w` pays for the hop, whose cost is `q`, and for what comes of
it. -/
structure Pays (w q : Ledger) : Prop where
  forwarded : q.fresh + (w.other + w.forwarded) ≤ w.fresh
  delivered : q.fresh + w.delivered ≤ w.fresh
  published : q.forwarded + w.published ≤ w.forwarded
  heard : q.published + w.heard ≤ w.published
  returned : q.heard + w.returned ≤ w.heard
  deliveredBack : q.returned + w.delivered ≤ w.returned
  strayBack : q.returned + w.other ≤ w.returned
  other : q.other ≤ w.other

variable (w : Ledger)

@[simp] theorem of_fresh {b : Broker} {id ty tgsvc : Frame} {tag : MqTag} {body : Frame}
    (h : Flagged tag 0) : w.of ⟨.router b, [id, ty, tgsvc, tag.mem, body]⟩ = w.fresh :=
  if_pos h

@[simp] theorem of_returned {b : Broker} {id ty tgsvc : Frame} {tag : MqTag} {body : Frame}
    (h : Flagged tag 1) : w.of ⟨.router b, [id, ty, tgsvc, tag.mem, body]⟩ = w.returned :=
  if_neg fun heq => absurd (heq.symm.trans h) (by decide)

/-- What a hop from a router costs, whether or not the request is marked. -/
theorem of_router_le {w q : Ledger} {b : Broker} {id ty tgsvc : Frame} {tag : MqTag} {body : Frame}
    {f : Byte} (h : Flagged tag f) (hf : f = 0 ∨ f = 1) {k : Nat} (hfresh : q.fresh + k ≤ w.fresh)
    (hreturned : q.returned + k ≤ w.returned) :
    q.of ⟨.router b, [id, ty, tgsvc, tag.mem, body]⟩ + k
      ≤ w.of ⟨.router b, [id, ty, tgsvc, tag.mem, body]⟩ := by
  rcases hf with rfl | rfl
  · rw [of_fresh _ h, of_fresh _ h]
    exact hfresh
  · rw [of_returned _ h, of_returned _ h]
    exact hreturned

@[simp] theorem of_forwarded {b : Broker} {rest : Msg} :
    w.of ⟨.hub b, mqReq :: rest⟩ = w.forwarded := by
  simp [of]

@[simp] theorem of_log {b : Broker} {rest : Msg} : w.of ⟨.hub b, mqLog :: rest⟩ = w.other := by
  have hne : mqLog ≠ mqReq := by decide
  simp [of, hne]

@[simp] theorem of_stray {b : Broker} {tag : MqTag} {rest : Msg} :
    w.of ⟨.hub b, tag.mem :: rest⟩ = w.other := by
  have hne : tag.mem ≠ mqReq := by
    intro heq
    have hlen := congrArg List.length heq
    rw [tag.size] at hlen
    exact absurd hlen (by decide)
  simp [of, hne]

@[simp] theorem of_published {b : Broker} {m : Msg} : w.of ⟨.bus b, m⟩ = w.published := rfl

@[simp] theorem of_heard {b : Broker} {m : Msg} : w.of ⟨.sub b, m⟩ = w.heard := rfl

@[simp] theorem of_delivered {b : Broker} {svc : Str} {m : Msg} :
    w.of ⟨.dealer b svc, m⟩ = w.delivered := rfl

end Ledger

/-! ### One hop -/

section Hop

variable {tgsvc : Str} {body : Frame} {brokers : List Broker}

/-- What a hop leaves is in one of the forms, and paid for. -/
structure Accounts (tgsvc : Str) (body : Frame) (x : Item) (ys : List Item) : Prop where
  underway : ∀ y ∈ ys, Underway tgsvc body y
  paid : ∀ w q : Ledger, w.Pays q → q.of x + (ys.map w.of).sum ≤ w.of x

/-- A router that sends the request to its target, for a service or for the hub as a peer. -/
theorem accounts_target (b : Broker) (id : Frame) {tag : MqTag} {f : Byte} (h : Flagged tag f)
    (hf : f = 0 ∨ f = 1) :
    Accounts tgsvc body ⟨.router b, [id, mqReq, tgsvc, tag.mem, body]⟩
      [toPeer b [tgsvc, tag.mem, body]] := by
  have hne : f ≠ 115 := by rcases hf with rfl | rfl <;> decide
  by_cases hhub : tgsvc = interhubName
  · have hpeer : toPeer b [tgsvc, tag.mem, body] = ⟨.hub b, [tag.mem, body]⟩ := by
      simp [toPeer, hhub]
    rw [hpeer]
    refine ⟨by simpa using Underway.stray b tag f h hne, fun w q hpays => ?_⟩
    have hforwarded := hpays.forwarded
    simp only [List.map_singleton, List.sum_singleton, Ledger.of_stray]
    exact Ledger.of_router_le h hf (by omega) hpays.strayBack
  · have hpeer : toPeer b [tgsvc, tag.mem, body] = ⟨.dealer b tgsvc, [tag.mem, body]⟩ := by
      simp [toPeer, hhub]
    rw [hpeer]
    refine ⟨by simpa using Underway.delivered b tag, fun w q hpays => ?_⟩
    simp only [List.map_singleton, List.sum_singleton, Ledger.of_delivered]
    exact Ledger.of_router_le h hf hpays.delivered hpays.deliveredBack

/-- A router that sends some of what the hub gets, for a request that has not been there. -/
theorem accounts_toInterhub (hname : IsName 128 tgsvc) (b : Broker) (id : Frame) {tag : MqTag}
    (h : Flagged tag 0) {ms : List Msg} (hms : ms.Sublist (toInterhub tag tgsvc body)) :
    Accounts tgsvc body ⟨.router b, [id, mqReq, tgsvc, tag.mem, body]⟩ (ms.map (toPeer b)) := by
  have hitems := hms.map (toPeer b)
  have hpeers : (toInterhub tag tgsvc body).map (toPeer b)
      = [⟨.hub b, [mqLog, unroutableLog tag.setViaInterhub tgsvc]⟩,
        ⟨.hub b, [mqReq, tgsvc, tag.setViaInterhub.mem, body]⟩] := by
    simp [toInterhub, toPeer]
  rw [hpeers] at hitems
  refine ⟨fun y hy => ?_, fun w q hpays => ?_⟩
  · have hmem := hitems.subset hy
    simp only [List.mem_cons, List.not_mem_nil, or_false] at hmem
    rcases hmem with rfl | rfl
    · exact Underway.log b _ (length_unroutableLog hname.fits)
    · exact Underway.forwarded b _ (flagged_setViaInterhub tag)
  · have hsum := (hitems.map w.of).sum_le_sum fun _ _ => Nat.zero_le _
    simp only [List.map_cons, List.map_nil, List.sum_cons, List.sum_nil, Ledger.of_log,
      Ledger.of_forwarded] at hsum
    have hforwarded := hpays.forwarded
    rw [Ledger.of_fresh _ h, Ledger.of_fresh _ h]
    omega

theorem accounts_router (hname : IsName 128 tgsvc) (hbody : body.length ≤ maxBuffSize)
    (env : Surroundings) (b : Broker) (id : Frame) {tag : MqTag} {f : Byte} (h : Flagged tag f)
    (hf : f = 0 ∨ f = 1) :
    Accounts tgsvc body ⟨.router b, [id, mqReq, tgsvc, tag.mem, body]⟩
      (hop brokers env ⟨.router b, [id, mqReq, tgsvc, tag.mem, body]⟩) := by
  show Accounts _ _ _ (((env.ctx b).routed [[id, mqReq, tgsvc, tag.mem, body]]).map (toPeer b))
  rcases routed_request (env.sockets b) id hname tag hbody with hrouted | hrouted
  · rw [hrouted, List.map_singleton]
    exact accounts_target b id h hf
  · rcases hf with rfl | rfl
    · rw [flagged_zero_iff.mp h, if_neg (by simp)] at hrouted
      exact accounts_toInterhub hname b id h hrouted
    · -- a request that has been there is dropped
      rw [via_of_flagged h, if_pos rfl, List.sublist_nil] at hrouted
      rw [hrouted, List.map_nil]
      refine ⟨by simp, fun w q hpays => ?_⟩
      have hreturned := hpays.strayBack
      rw [Ledger.of_returned _ h, Ledger.of_returned _ h, List.map_nil, List.sum_nil]
      omega

theorem accounts_log (env : Surroundings) (b : Broker) {text : Frame}
    (h : text.length < maxLogSize) :
    Accounts tgsvc body ⟨.hub b, [mqLog, text]⟩ (hop brokers env ⟨.hub b, [mqLog, text]⟩) := by
  have hpublished := published_eq (env.pub b) [.log text] (List.forall_mem_singleton.mpr h)
    ⟨by simp [Known], by simp, List.pairwise_singleton _ _⟩
  have hhop : hop brokers env ⟨.hub b, [mqLog, text]⟩ = [] :=
    congrArg (List.map fun m => (⟨.bus b, m⟩ : Item)) hpublished
  rw [hhop]
  exact ⟨by simp, fun w q hpays => by simpa using hpays.other⟩

theorem accounts_stray (env : Surroundings) (b : Broker) {tag : MqTag} {f : Byte}
    (h : Flagged tag f) (hf : f ≠ 115) :
    Accounts tgsvc body ⟨.hub b, [tag.mem, body]⟩ (hop brokers env ⟨.hub b, [tag.mem, body]⟩) := by
  have hhop : hop brokers env ⟨.hub b, [tag.mem, body]⟩ = [] := by
    show ((env.thread b).published [[tag.mem, body]]).map _ = []
    rw [published_left h hf, List.map_nil]
  rw [hhop]
  exact ⟨by simp, fun w q hpays => by simpa using hpays.other⟩

theorem accounts_forwarded (hname : IsName 128 tgsvc) (hbody : body.length ≤ maxBuffSize)
    {env : Surroundings} (henv : env.Uncovered) (b : Broker) {tag : MqTag} (h : Flagged tag 1) :
    Accounts tgsvc body ⟨.hub b, [mqReq, tgsvc, tag.mem, body]⟩
      (hop brokers env ⟨.hub b, [mqReq, tgsvc, tag.mem, body]⟩) := by
  show Accounts _ _ _ (((env.thread b).published [[mqReq, tgsvc, tag.mem, body]]).map _)
  rcases published_forwarded (env.pub b) hname h (by decide) hbody with
    hpublished | ⟨id, hfind, hpublished⟩
  · rw [hpublished, List.map_nil]
    refine ⟨by simp, fun w q hpays => ?_⟩
    have hpaid := hpays.published
    simp only [Ledger.of_forwarded, List.map_nil, List.sum_nil]
    omega
  · obtain ⟨hother, huncovered⟩ := findSvcExistTree_some (henv b) hfind
    rw [env.id] at hother
    rw [hpublished, List.map_singleton]
    refine ⟨?_, fun w q hpays => by simpa using hpays.published⟩
    intro y hy
    obtain rfl := List.mem_singleton.mp hy
    exact Underway.published b id _ (flagged_setBroker h _) huncovered hother

theorem accounts_published (hhosts : (brokers.map Broker.host).Nodup) (env : Surroundings)
    (b : Broker) {id : Str} (hid : Uncovered id) {tag : MqTag} (h : Flagged tag 1) :
    Accounts tgsvc body ⟨.bus b, [id, mqReqInterhub, tgsvc, tag.mem, body]⟩
      (hop brokers env ⟨.bus b, [id, mqReqInterhub, tgsvc, tag.mem, body]⟩) := by
  rcases heard_one hid [mqReqInterhub, tgsvc, tag.mem, body] hhosts with hheard | ⟨c, -, hheard⟩
  · have hhop : hop brokers env ⟨.bus b, [id, mqReqInterhub, tgsvc, tag.mem, body]⟩ = [] := hheard
    rw [hhop]
    refine ⟨by simp, fun w q hpays => ?_⟩
    have hpaid := hpays.heard
    simp only [Ledger.of_published, List.map_nil, List.sum_nil]
    omega
  · have hhop : hop brokers env ⟨.bus b, [id, mqReqInterhub, tgsvc, tag.mem, body]⟩
        = [⟨.sub c, [id, mqReqInterhub, tgsvc, tag.mem, body]⟩] := hheard
    rw [hhop]
    refine ⟨?_, fun w q hpays => by simpa using hpays.heard⟩
    intro y hy
    obtain rfl := List.mem_singleton.mp hy
    exact Underway.heard c id tag h hid

theorem accounts_heard (hname : IsName 128 tgsvc) (hbody : body.length ≤ maxBuffSize)
    (env : Surroundings) (c : Broker) {id : Str} (hid : Uncovered id) {tag : MqTag}
    (h : Flagged tag 1) :
    Accounts tgsvc body ⟨.sub c, [id, mqReqInterhub, tgsvc, tag.mem, body]⟩
      (hop brokers env ⟨.sub c, [id, mqReqInterhub, tgsvc, tag.mem, body]⟩) := by
  show Accounts _ _ _ (((env.thread c).passed env.time
    [[id, mqReqInterhub, tgsvc, tag.mem, body]]).map _)
  rcases passed_heard (t := env.thread c) env.time hid hname tag hbody with
    hpassed | hpassed
  · rw [hpassed, List.map_nil]
    refine ⟨by simp, fun w q hpays => ?_⟩
    have hpaid := hpays.returned
    simp only [Ledger.of_heard, List.map_nil, List.sum_nil]
    omega
  · rw [hpassed, List.map_singleton]
    refine ⟨by simpa using Underway.returned c interhubName tag h, fun w q hpays => ?_⟩
    simpa [h] using hpays.returned

/-- **Every hop of a request, whatever the surroundings are like.** -/
theorem accounts_hop (hhosts : (brokers.map Broker.host).Nodup) (hname : IsName 128 tgsvc)
    (hbody : body.length ≤ maxBuffSize) {env : Surroundings} (henv : env.Uncovered) {x : Item}
    (h : Underway tgsvc body x) (hended : x.ended = false) :
    Accounts tgsvc body x (hop brokers env x) := by
  cases h with
  | fresh b id tag h => exact accounts_router hname hbody env b id h (Or.inl rfl)
  | log b text h => exact accounts_log env b h
  | forwarded b tag h => exact accounts_forwarded hname hbody henv b h
  | published b id tag h hid hother => exact accounts_published hhosts env b hid h
  | heard c id tag h hid => exact accounts_heard hname hbody env c hid h
  | returned b id tag h => exact accounts_router hname hbody env b id h (Or.inr rfl)
  | stray b tag f h hf => exact accounts_stray env b h hf
  | delivered b tag => exact absurd hended (by simp [Item.ended])

end Hop

/-! ### The journey -/

theorem sentAt_eq (A : Broker) {site : Site} (hsite : site.Ready) (svc : Str) {c : ClientSock}
    {tag : MqTag} {tgsvc : Str} (hlen : tgsvc.length < 128) {body : Frame}
    (hsent : (mqSendReq c tag tgsvc body).1 = 0) :
    tgsvc ≠ [] ∧ sentAt A site svc c tag tgsvc body
      = ⟨[⟨.router A, [svc, mqReq, tgsvc, tag.mem, buffered body]⟩], []⟩ := by
  obtain ⟨hne, -, hsince⟩ := sendFrames_zero hsent
  have hfrom := fromProcess_buffered hsite svc (m := [mqReq, tgsvc, tag.mem, body]) (by simp)
    (by simp)
  have hempty : ([] : Frame).length ≤ maxBuffSize := Nat.zero_le _
  have hfits := map_buffered (relayable_request tag hlen hempty)
  simp only [List.map_cons, List.map_nil, List.cons.injEq] at hfits
  simp only [List.map_cons, List.map_nil, hfits.1, hfits.2.1, hfits.2.2.1] at hfrom
  refine ⟨hne tgsvc (by simp), ?_⟩
  rw [sentAt, mqSendReq, hsince]
  exact congrArg (fun ms => (⟨ms.map fun m => ⟨.router A, m⟩, []⟩ : Journey Item)) hfrom

/-- In every state of every run everything is in one of the forms, and no more is spent than the
budget of the request. -/
theorem underway_states {brokers : List Broker} (hhosts : (brokers.map Broker.host).Nodup)
    {tgsvc : Str} (hname : IsName 128 tgsvc) {body : Frame} (hbody : body.length ≤ maxBuffSize)
    (A : Broker) (svc : Str) {tag : MqTag} (htag : Flagged tag 0) {w q : Ledger} (hpays : w.Pays q)
    {es : List (Nat × Surroundings)} (hes : ∀ e ∈ es, e.2.Uncovered) :
    ∀ j ∈ states (step (hop brokers) Item.ended)
        ⟨[⟨.router A, [svc, mqReq, tgsvc, tag.mem, body]⟩], []⟩ es,
      All (Underway tgsvc body) j ∧ spent q.of w.of j ≤ w.fresh := by
  have hspent := spent_le
    (fun x hx hended (env : Surroundings) (henv : env.Uncovered) =>
      (accounts_hop hhosts hname hbody henv hx hended).underway)
    (fun x hx hended env henv => (accounts_hop hhosts hname hbody henv hx hended).paid w q hpays)
    (s := ⟨[⟨.router A, [svc, mqReq, tgsvc, tag.mem, body]⟩], []⟩)
    (by simpa [All] using Underway.fresh A svc tag htag) hes
  simpa [spent, htag] using hspent

/-! What a request can cost, in four respects: the budget of each form, and what its hop costs. -/

/-- It is sent to the hub once at most. -/
def forwardedLedger : Ledger × Ledger := (⟨1, 0, 1, 0, 0, 0, 0⟩, ⟨0, 0, 1, 0, 0, 0, 0⟩)

/-- It is with two routers at most. -/
def routedLedger : Ledger × Ledger := (⟨2, 1, 1, 0, 1, 1, 0⟩, ⟨1, 1, 0, 0, 0, 0, 0⟩)

/-- It is delivered once at most. -/
def deliveredLedger : Ledger × Ledger := (⟨1, 1, 1, 0, 1, 1, 1⟩, ⟨0, 0, 0, 0, 0, 0, 1⟩)

/-- Together with the line for the hub's log it makes seven hops at most. -/
def hopLedger : Ledger × Ledger := (⟨7, 2, 5, 1, 4, 3, 0⟩, ⟨1, 1, 1, 1, 1, 1, 1⟩)

theorem forwardedLedger_pays : forwardedLedger.1.Pays forwardedLedger.2 := by
  constructor <;> decide

theorem routedLedger_pays : routedLedger.1.Pays routedLedger.2 := by
  constructor <;> decide

theorem deliveredLedger_pays : deliveredLedger.1.Pays deliveredLedger.2 := by
  constructor <;> decide

theorem hopLedger_pays : hopLedger.1.Pays hopLedger.2 := by
  constructor <;> decide

theorem Ledger.of_isForwarded (w : Ledger) {x : Item} (h : x.isForwarded = true) :
    w.of x = w.forwarded := by
  obtain ⟨loc, msg⟩ := x
  cases loc with
  | hub b =>
      have hhead : msg.head? = some mqReq := by simpa [Item.isForwarded] using h
      exact if_pos hhead
  | _ => simp [Item.isForwarded] at h

theorem Ledger.of_isRouted (w : Ledger) {x : Item} (h : x.isRouted = true) :
    w.of x = w.fresh ∨ w.of x = w.returned := by
  obtain ⟨loc, msg⟩ := x
  cases loc with
  | router b =>
      by_cases hflag : (msg.getD 3 []).headD 0 = 0
      · exact Or.inl (if_pos hflag)
      · exact Or.inr (if_neg hflag)
  | _ => simp [Item.isRouted] at h

theorem Ledger.of_ended (w : Ledger) {x : Item} (h : x.ended = true) : w.of x = w.delivered := by
  obtain ⟨loc, msg⟩ := x
  cases loc with
  | dealer b svc => rfl
  | _ => simp [Item.ended] at h

/-- A hop costs something whatever the form. -/
theorem one_le_hop (x : Item) : 1 ≤ hopLedger.2.of x := by
  obtain ⟨loc, msg⟩ := x
  cases loc <;> simp [Ledger.of, hopLedger]

/-! What follows for a state in which no more is spent than the budget. -/

section Spent

variable {tgsvc : Str} {body : Frame} {j : Journey Item}

theorem countP_isForwarded_le (hall : All (Underway tgsvc body) j)
    (h : spent forwardedLedger.2.of forwardedLedger.1.of j ≤ 1) :
    (j.trail ++ j.items).countP Item.isForwarded ≤ 1 := by
  refine Nat.le_trans (countP_le_spent (fun x _ hx => ?_) (fun x _ hx => ?_) hall) h
  · rw [Ledger.of_isForwarded _ hx]
    decide
  · rw [Ledger.of_isForwarded _ hx]
    decide

theorem countP_isRouted_le (hall : All (Underway tgsvc body) j)
    (h : spent routedLedger.2.of routedLedger.1.of j ≤ 2) :
    (j.trail ++ j.items).countP Item.isRouted ≤ 2 := by
  refine Nat.le_trans (countP_le_spent (fun x _ hx => ?_) (fun x _ hx => ?_) hall) h
  · rcases Ledger.of_isRouted routedLedger.2 hx with heq | heq <;> rw [heq] <;> decide
  · rcases Ledger.of_isRouted routedLedger.1 hx with heq | heq <;> rw [heq] <;> decide

theorem countP_ended_le (hall : All (Underway tgsvc body) j)
    (h : spent deliveredLedger.2.of deliveredLedger.1.of j ≤ 1) :
    (j.trail ++ j.items).countP Item.ended ≤ 1 := by
  refine Nat.le_trans (countP_le_spent (fun x _ hx => ?_) (fun x _ hx => ?_) hall) h
  · rw [Ledger.of_ended _ hx]
    decide
  · rw [Ledger.of_ended _ hx]
    decide

theorem length_trail_le (h : spent hopLedger.2.of hopLedger.1.of j ≤ 7) : j.trail.length ≤ 7 := by
  have hlen := countP_le_sum (p := fun _ => true) (f := hopLedger.2.of) (l := j.trail)
    fun x _ _ => one_le_hop x
  simp only [List.countP_true] at hlen
  exact Nat.le_trans (Nat.le_trans hlen (Nat.le_add_right _ _)) h

/-- What has come to its end and was not dropped is the request, at its service, and nothing
else. -/
theorem delivered_of_ended (hall : All (Underway tgsvc body) j)
    (h : spent deliveredLedger.2.of deliveredLedger.1.of j ≤ 1)
    (hended : ∀ x ∈ j.items, x.ended = true) :
    j.items = [] ∨
      ∃ (b : Broker) (tag' : MqTag), j.items = [⟨.dealer b tgsvc, [tag'.mem, body]⟩] := by
  have hcount := countP_ended_le hall h
  rw [List.countP_append, List.countP_eq_length.mpr hended] at hcount
  cases hitems : j.items with
  | nil => exact Or.inl rfl
  | cons x rest =>
      have hrest : rest = [] := by
        rw [hitems, List.length_cons] at hcount
        exact List.length_eq_zero_iff.mp (by omega)
      have hx : x.ended = true := hended x (by rw [hitems]; simp)
      right
      rw [hrest]
      cases hall x (List.mem_append_right _ (by rw [hitems]; simp)) with
      | delivered b tag' => exact ⟨b, tag', rfl⟩
      | _ => simp [Item.ended] at hx

end Spent

section Journey

variable {A : Broker} {site : Site} {svc tgsvc : Str} {c : ClientSock} {tag : MqTag} {body : Frame}

/-- **No request goes in circles.**

Whatever the routing tables and the small trees say at each hop, as long as these have no id that
begins with the topic of registrations (see `uncovered_run`), it is sent to the hub once at most
and is with two routers at most; no thread publishes it for its own broker; and after seven hops
at most all that was under way has been dropped, or delivered to the dealer of the service the
request is for.  The brokers with a thread have different addresses, see `hosts_apart`. -/
theorem no_routing_loop (brokers : List Broker) (hhosts : (brokers.map Broker.host).Nodup)
    (hsite : site.Ready) (hvia : tag.viaInterhub = false) (h0 : (0 : Byte) ∉ tgsvc)
    (hlen : tgsvc.length < 128) (hsent : (mqSendReq c tag tgsvc body).1 = 0)
    (es : List (Nat × Surroundings)) (hes : ∀ e ∈ es, e.2.Uncovered) :
    ∀ j ∈ states (step (hop brokers) Item.ended) (sentAt A site svc c tag tgsvc body) es,
      (j.trail ++ j.items).countP Item.isForwarded ≤ 1 ∧
      (j.trail ++ j.items).countP Item.isRouted ≤ 2 ∧
      (∀ x ∈ j.trail ++ j.items, ∀ b, x.loc = .bus b → x.msg.head? ≠ some b.id) ∧
      j.trail.length ≤ 7 ∧
      (∀ i x env, j.items[i]? = some x → x.ended = false →
        (step (hop brokers) Item.ended j (i, env)).trail.length = j.trail.length + 1) ∧
      ((∀ x ∈ j.items, x.ended = true) →
        j.items = [] ∨
          ∃ (b : Broker) (tag' : MqTag),
            j.items = [⟨.dealer b tgsvc, [tag'.mem, buffered body]⟩]) := by
  have htag : Flagged tag 0 := flagged_zero_iff.mpr hvia
  obtain ⟨hne, hstart⟩ := sentAt_eq A hsite svc hlen hsent
  have hbody : (buffered body).length ≤ maxBuffSize := List.length_take_le _ _
  have hname : IsName 128 tgsvc := ⟨hne, h0, hlen⟩
  rw [hstart]
  intro j hj
  obtain ⟨hall, hforwarded⟩ :=
    underway_states hhosts hname hbody A svc htag forwardedLedger_pays hes j hj
  obtain ⟨-, hrouted⟩ := underway_states hhosts hname hbody A svc htag routedLedger_pays hes j hj
  obtain ⟨-, hdelivered⟩ :=
    underway_states hhosts hname hbody A svc htag deliveredLedger_pays hes j hj
  obtain ⟨-, hhops⟩ := underway_states hhosts hname hbody A svc htag hopLedger_pays hes j hj
  refine ⟨countP_isForwarded_le hall hforwarded, countP_isRouted_le hall hrouted, ?_,
    length_trail_le hhops, fun i x env hx hended => length_trail_step hx hended env,
    delivered_of_ended hall hdelivered⟩
  intro x hx b hloc
  cases hall x hx with
  | published b' id tag h hid hother =>
      obtain rfl : b' = b := by simpa using hloc
      simpa using hother
  | _ => simp at hloc

end Journey

section Psib

/-- The broker on 10.0.0.1. -/
def brokerPsib : Broker :=
  ⟨lit "10.0.0.1", lit "broker_7", ⟨49, lit "0.0.0.1", by decide, by decide⟩, by decide⟩

/-- The broker on 10.0.0.2. -/
def brokerOther : Broker :=
  ⟨lit "10.0.0.2", lit "broker_9", ⟨49, lit "0.0.0.2", by decide, by decide⟩, by decide⟩

/-- Both threads know that the second broker serves `PSIB`, and its router does. -/
def surroundingsPsib : Surroundings where
  ctx b :=
    let services := if b.host = brokerOther.host then [lit "PSIB"] else [lit "AHIF"]
    ⟨In.holding [], ⟨.router fun f => (interhubName :: services).contains f, [], []⟩,
      ⟨.pub, [], []⟩, true⟩
  thread b := { threadPsib with brokerId := b.id }
  time _ := 0
  sockets _ := ⟨⟨_, rfl⟩, rfl⟩
  id _ := rfl
  pub _ := rfl

theorem uncovered_psib : surroundingsPsib.Uncovered := by
  intro _ b hb c _
  obtain rfl := List.mem_singleton.mp hb
  exact fun h => absurd (List.isPrefixOf_iff_prefix.mpr h) (by decide)

/-- The request goes by the hub, in six hops, and is delivered at the second broker. -/
theorem no_routing_loop_psib :
    let j := (List.replicate 6 (0, surroundingsPsib)).foldl
      (step (hop [brokerPsib, brokerOther]) Item.ended)
      (sentAt brokerPsib Site.idle (lit "AHIF") (crtCliSock 5000 true []) (ahifTag 123) (lit "PSIB")
        (lit "hi"))
    (j.trail ++ j.items).countP Item.isForwarded ≤ 1 ∧
      (j.trail ++ j.items).countP Item.isRouted = 2 ∧ j.trail.length = 6 ∧
      j.items.all Item.ended = true := by
  intro j
  obtain ⟨hforwarded, -⟩ := no_routing_loop [brokerPsib, brokerOther] (by decide)
    Site.ready_idle (by decide +kernel) (by decide) (by decide) (by decide +kernel)
    (List.replicate 6 (0, surroundingsPsib))
    (fun e he => (List.eq_of_mem_replicate he) ▸ uncovered_psib) j (foldl_mem_states _ _)
  exact ⟨hforwarded, by decide +kernel, by decide +kernel, by decide +kernel⟩

/-- The broker on 10.0.0.3. -/
def brokerThird : Broker :=
  ⟨lit "10.0.0.3", lit "broker_4", ⟨49, lit "0.0.0.3", by decide, by decide⟩, by decide⟩

/-- The small trees say that a broker `svc_reg_x` serves `PSIB`. -/
def surroundingsRegi : Surroundings where
  ctx := surroundingsPsib.ctx
  thread b := { surroundingsPsib.thread b with
    rootNode := ⟨⟨.interhub, [], [], 0⟩, [⟨⟨.broker, lit "svc_reg_x", lit "PSIB", 0⟩,
      [.leaf ⟨.svc, lit "svc_reg_x", lit "PSIB", 0⟩]⟩]⟩ }
  time := surroundingsPsib.time
  sockets := surroundingsPsib.sockets
  id := surroundingsPsib.id
  pub := surroundingsPsib.pub

/-- The address of the broker whose router a message is with. -/
def Item.routerHost (x : Item) : Option Str :=
  match x.loc with
  | .router b => some b.host
  | _ => none

/-- **Under an id that begins with the topic of registrations** all three threads hear the
request, and their routers get it. -/
theorem routing_spreads_svc_reg :
    let j := (List.replicate 7 (0, surroundingsRegi)).foldl
      (step (hop [brokerPsib, brokerOther, brokerThird]) Item.ended)
      (sentAt brokerPsib Site.idle (lit "AHIF") (crtCliSock 5000 true []) (ahifTag 123) (lit "PSIB")
        (lit "hi"))
    ¬ (j.trail ++ j.items).countP Item.isRouted ≤ 2 ∧
      j.items.filterMap Item.routerHost
        = [brokerPsib.host, brokerOther.host, brokerThird.host] := by
  intro j
  exact ⟨by decide +kernel, by decide +kernel⟩

end Psib

end Brocoli
