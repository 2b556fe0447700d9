/-
The broker's router thread: `router_callback` and its helpers in `broker.c`.

The ROUTER socket carries the requests and responses of every local service and the
traffic with the hub.  One callback run handles up to a thousand messages; each is
read frame by frame off the one socket by whichever helper its type selects, and the
next message starts wherever that helper stopped.
-/
import Brocoli.Relay

namespace Brocoli

open CMem Multipart

/-- What the router thread uses of `main_ctx_t`. -/
structure RouterCtx where
  /-- `zmq_router`, as it is read from and as it is written to. -/
  routerIn : In
  routerOut : Out
  zmqPub : Out
  /-- `zmq_pub_to_interhub != NULL` -/
  interhub : Bool

/-- The line sent to the hub before a request it is asked to route. -/
def unroutableLog (fromTag : MqTag) (svcHost : Str) : Frame :=
  lit "BROKER SAY] hey~! from [" ++ fromTag.svc ++ lit "] to [" ++ svcHost ++
    lit "] un-routable, send it to you with label [" ++ interhubName ++ lit "]"

/-- The log message: skipped when the hub cannot be reached. -/
def sendUnroutableLog (o : Out) (log : Frame) : Out :=
  match o.sendWhile (0 < ·) [interhubName, mqLog] with
  | (true, o') => (o'.send log false).2
  | (false, o') => o'

def relayReqToInterhub (ctx : RouterCtx) (svcHost : Str) : RouterCtx :=
  match ctx.routerIn.recv with
  | none => ctx
  | some (f, src) =>
      let fromTag := MqTag.zero.recv f
      -- a request that came through the hub once is not sent there again
      if fromTag.viaInterhub then { ctx with routerIn := src }
      else
        let fromTag := fromTag.setViaInterhub
        let o := sendUnroutableLog ctx.routerOut (unroutableLog fromTag svcHost)
        match o.sendWhile (0 < ·) [interhubName, mqReq, svcHost, fromTag.mem] with
        | (true, o') =>
            let r := relaySndMore src o' none
            { ctx with routerIn := r.src, routerOut := r.dst }
        | (false, o') => { ctx with routerIn := src, routerOut := o' }

def relayResToInterhub (ctx : RouterCtx) : RouterCtx :=
  match ctx.routerOut.sendWhile (0 < ·) [interhubName, mqResInterhub] with
  | (true, o) =>
      let r := relaySndMore ctx.routerIn o none
      { ctx with routerIn := r.src, routerOut := r.dst }
  | (false, o) => { ctx with routerOut := o }

/-- What follows a relay in `router_callback`: an unreachable host goes to the hub when
there is one. -/
def afterRelay (ctx : RouterCtx) (rc : Option Errno) (svcHost : Option (List Byte)) : RouterCtx :=
  if rc = some .EHOSTUNREACH then
    if ctx.interhub then relayReqToInterhub ctx (cstr (svcHost.getD []))
    else { ctx with routerIn := drainLeftPartMessage ctx.routerIn }
  else ctx

/-- The dispatch on the message type. -/
def routerBody (ctx : RouterCtx) (msgType : Str) : RouterCtx :=
  if msgType = mqResInterhub then relayResToInterhub ctx
  else if msgType = mqReqInterhub ∨ msgType = mqReq then
    let r := relaySndMore ctx.routerIn ctx.routerOut (some (zeros 128))
    afterRelay { ctx with routerIn := r.src, routerOut := r.dst } r.rc r.svcHost
  else if msgType = mqRes then
    let r := relaySndMore ctx.routerIn ctx.zmqPub (some (zeros 128))
    afterRelay { ctx with routerIn := r.src, zmqPub := r.dst } r.rc r.svcHost
  else if msgType = mqLog then
    match ctx.routerIn.recv with
    | none => ctx
    | some (_, src) => { ctx with routerIn := src }
  else { ctx with routerIn := drainLeftPartMessage ctx.routerIn }

/-- The state of the loop in `router_callback`. -/
structure RouterLoop where
  ctx : RouterCtx
  fromMsg : Buf 128
  msgType : Buf 128

/-- One evaluation of the loop condition, and the body when it holds. -/
def routerIter (s : RouterLoop) : Bool × RouterLoop :=
  match s.ctx.routerIn.recv with
  | none => (false, s)
  | some (f, src) =>
      match src.recv with
      | none =>
          (false, { s with ctx := { s.ctx with routerIn := src }, fromMsg := s.fromMsg.recv f })
      | some (g, src') =>
          let msgType := (s.msgType.recv g).nulAt g.length
          (true, {
            ctx := routerBody { s.ctx with routerIn := src' } msgType.str
            fromMsg := (s.fromMsg.recv f).nulAt f.length
            msgType := msgType })

/-- The loop with `n` iterations left before `relay_cnt` ends it. -/
def routerLoop : Nat → RouterLoop → RouterLoop
  | 0, s => s
  | n + 1, s =>
      match routerIter s with
      | (true, s') => routerLoop n s'
      | (false, s') => s'

/-- The states in which the loop condition is evaluated. -/
def routerHeads : Nat → RouterLoop → List RouterLoop
  | 0, s => [s]
  | n + 1, s =>
      s :: match routerIter s with
        | (true, s') => routerHeads n s'
        | (false, _) => []

def routerEnter (ctx : RouterCtx) : RouterLoop := ⟨ctx, Buf.zero 128, Buf.zero 128⟩

def routerCallback (ctx : RouterCtx) : RouterCtx := (routerLoop 1000 (routerEnter ctx)).ctx

/-! ### What the callback leaves alone

Handling a message changes what is on the sockets, not what kind of sockets they are.
-/

/-- The sockets of the router thread are what they are created as. -/
structure RouterSockets (ctx : RouterCtx) : Prop where
  router : ∃ reach, ctx.routerOut.kind = .router reach
  pub : ctx.zmqPub.kind = .pub

theorem RouterSockets.of_kinds {ctx ctx' : RouterCtx} (h : RouterSockets ctx)
    (hr : ctx'.routerOut.kind = ctx.routerOut.kind) (hp : ctx'.zmqPub.kind = ctx.zmqPub.kind) :
    RouterSockets ctx' :=
  ⟨by rw [hr]; exact h.router, by rw [hp]; exact h.pub⟩

theorem RouterSockets.receive {ctx : RouterCtx} (h : RouterSockets ctx) (src : In) :
    RouterSockets { ctx with routerIn := src } := h.of_kinds rfl rfl

theorem sendUnroutableLog_kind (o : Out) (log : Frame) :
    (sendUnroutableLog o log).kind = o.kind := by
  have hk := sendWhile_kind (0 < ·) [interhubName, mqLog] o
  unfold sendUnroutableLog
  rcases hs : o.sendWhile (0 < ·) [interhubName, mqLog] with ⟨b, o'⟩
  rw [hs] at hk
  cases b with
  | false => exact hk
  | true => exact (send_kind _ _ _).trans hk

theorem relayReqToInterhub_kinds (ctx : RouterCtx) (host : Str) :
    (relayReqToInterhub ctx host).routerOut.kind = ctx.routerOut.kind ∧
      (relayReqToInterhub ctx host).zmqPub = ctx.zmqPub := by
  unfold relayReqToInterhub
  split
  · exact ⟨rfl, rfl⟩
  · rename_i f src _
    simp only
    split
    · exact ⟨rfl, rfl⟩
    · set tag := (MqTag.zero.recv f).setViaInterhub with htag
      have hlog := sendUnroutableLog_kind ctx.routerOut (unroutableLog tag host)
      have hk := sendWhile_kind (0 < ·) [interhubName, mqReq, host, tag.mem]
        (sendUnroutableLog ctx.routerOut (unroutableLog tag host))
      rcases hs : (sendUnroutableLog ctx.routerOut (unroutableLog tag host)).sendWhile (0 < ·)
        [interhubName, mqReq, host, tag.mem] with ⟨b, o⟩
      rw [hs] at hk
      cases b with
      | false => exact ⟨hk.trans hlog, rfl⟩
      | true => exact ⟨(relaySndMore_kind _ _ _).trans (hk.trans hlog), rfl⟩

theorem relayResToInterhub_kinds (ctx : RouterCtx) :
    (relayResToInterhub ctx).routerOut.kind = ctx.routerOut.kind ∧
      (relayResToInterhub ctx).zmqPub = ctx.zmqPub := by
  have hk := sendWhile_kind (0 < ·) [interhubName, mqResInterhub] ctx.routerOut
  unfold relayResToInterhub
  rcases hs : ctx.routerOut.sendWhile (0 < ·) [interhubName, mqResInterhub] with ⟨b, o⟩
  rw [hs] at hk
  cases b with
  | false => exact ⟨hk, rfl⟩
  | true => exact ⟨(relaySndMore_kind _ _ _).trans hk, rfl⟩

theorem afterRelay_sockets {ctx : RouterCtx} (h : RouterSockets ctx) (rc : Option Errno)
    (host : Option (List Byte)) : RouterSockets (afterRelay ctx rc host) := by
  unfold afterRelay
  split
  · split
    · obtain ⟨hr, hp⟩ := relayReqToInterhub_kinds ctx (cstr (host.getD []))
      exact h.of_kinds hr (by rw [hp])
    · exact h.of_kinds rfl rfl
  · exact h

theorem routerBody_sockets {ctx : RouterCtx} (h : RouterSockets ctx) (msgType : Str) :
    RouterSockets (routerBody ctx msgType) := by
  unfold routerBody
  split
  · obtain ⟨hr, hp⟩ := relayResToInterhub_kinds ctx
    exact h.of_kinds hr (by rw [hp])
  · split
    · refine afterRelay_sockets (h.of_kinds ?_ ?_) _ _
      · exact relaySndMore_kind _ _ _
      · rfl
    · split
      · refine afterRelay_sockets (h.of_kinds ?_ ?_) _ _
        · rfl
        · exact relaySndMore_kind _ _ _
      · split
        · split
          · exact h
          · exact h.of_kinds rfl rfl
        · exact h.of_kinds rfl rfl

theorem routerIter_sockets {s : RouterLoop} (h : RouterSockets s.ctx) :
    RouterSockets (routerIter s).2.ctx := by
  unfold routerIter
  split
  · exact h
  · split
    · exact h.receive _
    · exact routerBody_sockets (h.receive _) _

/-! ### One iteration -/

/-- The two receives of the loop condition take the identity and the type. -/
theorem routerIter_message {s : RouterLoop} {id ty : Frame} {rest : Msg} {ms : List Msg}
    (hin : s.ctx.routerIn = In.holding ((id :: ty :: rest) :: ms)) (hty : ty.length < 128) :
    ∃ fm mt, routerIter s = (true, ⟨routerBody
      { s.ctx with routerIn := ⟨parts rest ++ stream ms, !rest.isEmpty⟩ } (cstr ty), fm, mt⟩) := by
  have hrecv : (⟨parts (ty :: rest) ++ stream ms, true⟩ : In).recv
      = some (ty, ⟨parts rest ++ stream ms, !rest.isEmpty⟩) := by
    cases rest with
    | nil => rfl
    | cons f rest => rw [parts_cons (by simp)]; rfl
  refine ⟨(s.fromMsg.recv id).nulAt id.length, (s.msgType.recv ty).nulAt ty.length, ?_⟩
  unfold routerIter
  rw [hin, recv_holding_cons (by simp)]
  simp only [hrecv, Buf.str_recv_nulAt _ hty]

/-- An empty socket ends the loop. -/
theorem routerIter_empty {s : RouterLoop} (hin : s.ctx.routerIn = In.holding []) :
    routerIter s = (false, s) := by
  unfold routerIter
  rw [hin, recv_holding_nil]

/-- A message that is alone on the socket and read to its end is handled by itself. -/
theorem routerCallback_one {ctx : RouterCtx} {id ty : Frame} {rest : Msg}
    (hin : ctx.routerIn = In.holding [id :: ty :: rest]) (hty : ty.length < 128)
    (hdone : (routerBody { ctx with routerIn := ⟨parts rest, !rest.isEmpty⟩ } (cstr ty)).routerIn
      = In.holding []) :
    routerCallback ctx
      = routerBody { ctx with routerIn := ⟨parts rest, !rest.isEmpty⟩ } (cstr ty) := by
  obtain ⟨fm, mt, hiter⟩ := routerIter_message (s := routerEnter ctx) hin hty
  simp only [stream_nil, List.append_nil] at hiter
  rw [routerCallback, routerLoop, hiter]
  simp only
  rw [routerLoop, routerIter_empty hdone]
  rfl

/-- **A response is published**, the type and the identity in front of it dropped. -/
theorem routerCallback_res {ctx : RouterCtx} (hpub : ctx.zmqPub.kind = .pub) {id : Frame}
    {rest : Msg} (hrest : rest ≠ []) (hin : ctx.routerIn = In.holding [id :: mqRes :: rest]) :
    (routerCallback ctx).zmqPub = ctx.zmqPub.put (parts (rest.map buffered)) := by
  have hrelay := relaySndMore_buffered hrest (steady_pub hpub).free [] (!rest.isEmpty)
    (some (zeros 128))
  rw [List.append_nil] at hrelay
  have hbody : routerBody { ctx with routerIn := ⟨parts rest, !rest.isEmpty⟩ } (cstr mqRes)
      = { ctx with
          routerIn := ⟨[], false⟩
          zmqPub := ctx.zmqPub.put (parts (rest.map buffered)) } := by
    have h1 : mqRes ≠ mqResInterhub := by decide
    have h2 : ¬ (mqRes = mqReqInterhub ∨ mqRes = mqReq) := by decide
    rw [routerBody, cstr_mqRes, if_neg h1, if_neg h2, if_pos rfl]
    simp only [hrelay, afterRelay]
    simp
  rw [routerCallback_one hin (by decide) (by rw [hbody]; rfl), hbody]

/-! ### What the target of a request answers

The two request types are handled alike: the message is tried on its target, and only
`EHOSTUNREACH` has consequences.
-/

section Target

variable {ctx : RouterCtx} {ty : Str} {f : Frame} {rest : Msg}

theorem routerBody_req_eq (hty : ty = mqReqInterhub ∨ ty = mqReq) (ctx : RouterCtx) :
    routerBody ctx ty =
      let r := relaySndMore ctx.routerIn ctx.routerOut (some (zeros 128))
      afterRelay { ctx with routerIn := r.src, routerOut := r.dst } r.rc r.svcHost := by
  have h1 : ty ≠ mqResInterhub := by rcases hty with rfl | rfl <;> decide
  rw [routerBody, if_neg h1, if_pos hty]

/-- The target takes the request. -/
theorem routerBody_routed (hty : ty = mqReqInterhub ∨ ty = mqReq) (hrest : rest ≠ [])
    (hlen : Relayable (f :: rest)) {reach : Frame → Bool}
    (hk : ctx.routerOut.kind = .router reach) (hr : (settle ctx.routerOut f).route f = none)
    (q : List Part) :
    routerBody { ctx with routerIn := ⟨parts (f :: rest) ++ q, true⟩ } ty
      = { ctx with
          routerIn := ⟨q, false⟩
          routerOut := ((settle ctx.routerOut f).asked f).put (parts (f :: rest)) } := by
  rw [routerBody_req_eq hty]
  simp only [relaySndMore_routed hrest hlen hk hr, afterRelay]
  simp

/-- `svc_host` holds the name of the target that is not there. -/
theorem svcHost_kept (hf : f.length < 128) :
    cstr (store (zeros 128) 0 (cstr f ++ [0])) = cstr f := by
  have hshort := length_cstr_le f
  refine cstr_store_terminated (zero_notMem_cstr f) ?_
  rw [length_zeros]
  omega

/-- The target is not there: the request is for the hub, or dropped. -/
theorem routerBody_unreachable (hty : ty = mqReqInterhub ∨ ty = mqReq) (hrest : rest ≠ [])
    (hf : f.length < 128) (hr : (settle ctx.routerOut f).route f = some .EHOSTUNREACH)
    (q : List Part) :
    routerBody { ctx with routerIn := ⟨parts (f :: rest) ++ q, true⟩ } ty
      = if ctx.interhub then
          relayReqToInterhub { ctx with
            routerIn := ⟨parts rest ++ q, true⟩
            routerOut := (settle ctx.routerOut f).asked f } (cstr f)
        else { ctx with
          routerIn := drainLeftPartMessage ⟨parts rest ++ q, true⟩
          routerOut := (settle ctx.routerOut f).asked f } := by
  have hshort : f.length ≤ maxBuffSize := Nat.le_trans (Nat.le_of_lt hf) (by decide)
  rw [routerBody_req_eq hty]
  simp only [relaySndMore_refused hrest hshort hr, afterRelay, if_true, Option.map_some,
    Option.getD_some, svcHost_kept hf]

/-- The target refuses: what is behind its name stays on the socket. -/
theorem routerBody_refused (hty : ty = mqReqInterhub ∨ ty = mqReq) (hrest : rest ≠ [])
    (hf : f.length < 128) {e : Errno} (hr : (settle ctx.routerOut f).route f = some e)
    (he : e ≠ .EHOSTUNREACH) (q : List Part) :
    routerBody { ctx with routerIn := ⟨parts (f :: rest) ++ q, true⟩ } ty
      = { ctx with
          routerIn := ⟨parts rest ++ q, true⟩
          routerOut := (settle ctx.routerOut f).asked f } := by
  have hshort : f.length ≤ maxBuffSize := Nat.le_trans (Nat.le_of_lt hf) (by decide)
  rw [routerBody_req_eq hty]
  simp only [relaySndMore_refused hrest hshort hr, afterRelay]
  rw [if_neg (by simpa using he)]

/-- None of the frames in front of a request for the hub is empty. -/
theorem hubFrames_nonempty {svcHost : Str} (hne : svcHost ≠ []) (tag : MqTag) :
    ∀ g ∈ [interhubName, mqReq, svcHost, tag.mem], decide (0 < g.length) = true := by
  have hpos : 0 < svcHost.length := List.length_pos_iff.mpr hne
  have hsize := tag.size
  intro g hg
  simp only [List.mem_cons, List.not_mem_nil, or_false] at hg
  rcases hg with rfl | rfl | rfl | rfl
  · decide
  · decide
  · simpa using hpos
  · simp [hsize]

end Target

/-! ### An idle router

Between two messages, and with no refusal but that of peers it does not know.
-/

section Idle

variable {ctx : RouterCtx} {reach : Frame → Bool}

/-- A request for a peer the router knows goes to it, whatever its type. -/
theorem routerBody_known (h : ctx.routerOut.Idle reach) {f : Frame} {rest : Msg}
    (hrest : rest ≠ []) (hlen : Relayable (f :: rest)) (hf : reach f = true) (q : List Part) :
    routerBody { ctx with routerIn := ⟨parts (f :: rest) ++ q, true⟩ } mqReq
      = { ctx with
          routerIn := ⟨q, false⟩
          routerOut := ctx.routerOut.put (parts (f :: rest)) } := by
  have hroute : (settle ctx.routerOut f).route f = none := by
    rw [settle_idle h]
    exact h.route_known hf
  rw [routerBody_routed (Or.inr rfl) hrest hlen h.kind hroute, settle_idle h, h.asked]

/-- **A run handles as many of the requests for known peers as the limit allows**, in their
order. -/
theorem routerLoop_known {α : Type} {id : α → Frame} {out : α → Msg} :
    ∀ (n : Nat) (ks : List α) {s : RouterLoop}, s.ctx.routerOut.Idle reach →
      (∀ k ∈ ks, ∃ f rest, out k = f :: rest ∧ rest ≠ [] ∧ Relayable (out k) ∧ reach f = true) →
      s.ctx.routerIn = In.holding (ks.map fun k => id k :: mqReq :: out k) →
      (routerLoop n s).ctx = { s.ctx with
        routerIn := In.holding ((ks.drop n).map fun k => id k :: mqReq :: out k)
        routerOut := s.ctx.routerOut.put (stream ((ks.take n).map out)) } := by
  intro n
  induction n with
  | zero =>
      intro ks s _ _ hin
      rw [routerLoop, List.drop_zero, ← hin]
      simp
  | succ n ih =>
      intro ks s hidle hks hin
      cases ks with
      | nil =>
          rw [routerLoop, routerIter_empty hin]
          simp only [List.drop_nil, List.take_nil, List.map_nil, stream_nil, put_nil]
          rw [← List.map_nil, ← hin]
      | cons k ks =>
          obtain ⟨f, rest, hout, hrest, hlen, hf⟩ := hks k (by simp)
          rw [hout] at hlen
          rw [List.map_cons, hout] at hin
          obtain ⟨fm, mt, hiter⟩ := routerIter_message hin (by decide)
          have hmore : (!(f :: rest).isEmpty) = true := rfl
          rw [cstr_mqReq, hmore, routerBody_known hidle hrest hlen hf] at hiter
          set ctx' : RouterCtx := { s.ctx with
            routerIn := In.holding (ks.map fun k => id k :: mqReq :: out k)
            routerOut := s.ctx.routerOut.put (parts (f :: rest)) }
          have hidle' : ctx'.routerOut.Idle reach := hidle.put (by simp)
          have hrun := ih ks (s := ⟨ctx', fm, mt⟩) hidle' (fun x hx => hks x (by simp [hx])) rfl
          rw [routerLoop, hiter]
          refine hrun.trans ?_
          rw [List.drop_succ_cons, List.take_succ_cons, List.map_cons, stream_cons, hout, ← put_put]

/-- A message the router reads to its end, with what it sends to its peers for it and what it
publishes. -/
structure ReadWhole (reach : Frame → Bool) (interhub : Bool) (ty : Str) (rest : Msg)
    (out pub : List Msg) : Prop where
  short : ty.length < 128
  nonempty : ∀ m ∈ out, m ≠ []
  body : ∀ (ctx : RouterCtx) (q : List Part), ctx.routerOut.Idle reach → ctx.zmqPub.kind = .pub →
    ctx.interhub = interhub →
    routerBody { ctx with routerIn := ⟨parts rest ++ q, !rest.isEmpty⟩ } (cstr ty)
      = { ctx with
          routerIn := ⟨q, false⟩
          routerOut := ctx.routerOut.put (stream out)
          zmqPub := ctx.zmqPub.put (stream pub) }

/-- **A run handles as many of the messages as the limit allows**, in their order, when each of
them is read to its end. -/
theorem routerLoop_each {α : Type} {interhub : Bool} {id ty : α → Frame} {rest : α → Msg}
    {out pub : α → List Msg} :
    ∀ (n : Nat) (ks : List α) {s : RouterLoop}, s.ctx.routerOut.Idle reach →
      s.ctx.zmqPub.kind = .pub → s.ctx.interhub = interhub →
      (∀ k ∈ ks, ReadWhole reach interhub (ty k) (rest k) (out k) (pub k)) →
      s.ctx.routerIn = In.holding (ks.map fun k => id k :: ty k :: rest k) →
      (routerLoop n s).ctx = { s.ctx with
        routerIn := In.holding ((ks.drop n).map fun k => id k :: ty k :: rest k)
        routerOut := s.ctx.routerOut.put (stream ((ks.take n).flatMap out))
        zmqPub := s.ctx.zmqPub.put (stream ((ks.take n).flatMap pub)) } := by
  intro n
  induction n with
  | zero =>
      intro ks s _ _ _ _ hin
      rw [routerLoop, List.drop_zero, ← hin]
      simp
  | succ n ih =>
      intro ks s hidle hpub hinterhub hks hin
      cases ks with
      | nil =>
          rw [routerLoop, routerIter_empty hin]
          simp only [List.drop_nil, List.take_nil, List.flatMap_nil, stream_nil, put_nil]
          rw [← hin]
      | cons k ks =>
          have hk := hks k (by simp)
          obtain ⟨fm, mt, hiter⟩ := routerIter_message hin hk.short
          rw [hk.body s.ctx _ hidle hpub hinterhub] at hiter
          have hrun := ih ks (s := ⟨{ s.ctx with
            routerIn := In.holding (ks.map fun k => id k :: ty k :: rest k)
            routerOut := s.ctx.routerOut.put (stream (out k))
            zmqPub := s.ctx.zmqPub.put (stream (pub k)) }, fm, mt⟩)
            (hidle.put_stream hk.nonempty) hpub hinterhub
            (fun x hx => hks x (List.mem_cons_of_mem k hx)) rfl
          rw [routerLoop, hiter]
          refine hrun.trans ?_
          simp only [List.drop_succ_cons, List.take_succ_cons, List.flatMap_cons, stream_append,
            put_put]

/-- The log line goes to the hub when the hub is there. -/
theorem sendUnroutableLog_idle {o : Out} (h : o.Idle reach) (hhub : reach interhubName = true)
    (log : Frame) : sendUnroutableLog o log = o.put (parts [interhubName, mqLog, log]) := by
  have hsend := h.sendWhile (0 < ·) hhub [mqLog] (by decide)
  have hfree : (o.put ([interhubName, mqLog].map (⟨·, true⟩))).Free :=
    free_put_frames h.kind (by simp)
  rw [sendUnroutableLog, hsend]
  simp only [send_free hfree]
  simp

/-- What the router sends to the hub for a request it cannot route. -/
def toInterhub (tag : MqTag) (svcHost : Str) (body : Frame) : List Msg :=
  [[interhubName, mqLog, unroutableLog tag.setViaInterhub svcHost],
    [interhubName, mqReq, svcHost, tag.setViaInterhub.mem, body]]

/-- **A request for a peer the router does not know goes to the hub**, if it has not been
there. -/
theorem routerBody_unknown (h : ctx.routerOut.Idle reach) (hinterhub : ctx.interhub = true)
    (hhub : reach interhubName = true) {svcHost : Str} (hne : svcHost ≠ [])
    (h0 : (0 : Byte) ∉ svcHost) (hhost : svcHost.length < 128) (hf : reach svcHost = false)
    {tag : MqTag} (hvia : tag.viaInterhub = false) {body : Frame}
    (hbody : body.length ≤ maxBuffSize)
    (q : List Part) :
    routerBody { ctx with routerIn := ⟨parts [svcHost, tag.mem, body] ++ q, true⟩ } mqReq
      = { ctx with
          routerIn := ⟨q, false⟩
          routerOut := ctx.routerOut.put (stream (toInterhub tag svcHost body)) } := by
  have hroute : (settle ctx.routerOut svcHost).route svcHost = some .EHOSTUNREACH := by
    rw [settle_idle h]
    exact h.route_unknown hf
  have hlen : Relayable [body] := by
    intro f hf
    obtain rfl := List.mem_singleton.mp hf
    exact hbody
  obtain ⟨o, ho⟩ : ∃ o, o = ctx.routerOut.put (parts [interhubName, mqLog,
      unroutableLog tag.setViaInterhub svcHost]) := ⟨_, rfl⟩
  have hlog : sendUnroutableLog ctx.routerOut (unroutableLog tag.setViaInterhub svcHost) = o := by
    rw [ho]
    exact sendUnroutableLog_idle h hhub _
  have hidle : o.Idle reach := by
    rw [ho]
    exact h.put (by simp)
  have hsend := hidle.sendWhile (0 < ·) hhub [mqReq, svcHost, tag.setViaInterhub.mem]
    (hubFrames_nonempty hne tag.setViaInterhub)
  have hfree :
      (o.put ([interhubName, mqReq, svcHost, tag.setViaInterhub.mem].map (⟨·, true⟩))).Free :=
    free_put_frames hidle.kind (by simp)
  rw [routerBody_unreachable (Or.inr rfl) (by simp) hhost hroute, if_pos hinterhub,
    settle_idle h, h.asked, cstr_of_notMem h0, relayReqToInterhub]
  simp only [parts_cons_cons, List.cons_append, recv_cons, MqTag.recv_mem, hvia, Bool.false_eq_true,
    if_false]
  simp only [hlog, hsend, relaySndMore_free (by simp : [body] ≠ []) hlen hfree, put_put]
  rw [ho, put_put]
  simp [toInterhub]

/-- A response for another broker goes to the hub. -/
theorem routerBody_backToHub (h : ctx.routerOut.Idle reach) (hhub : reach interhubName = true)
    {rest : Msg} (hrest : rest ≠ []) (hlen : Relayable rest) (q : List Part) :
    routerBody { ctx with routerIn := ⟨parts rest ++ q, true⟩ } mqResInterhub
      = { ctx with
          routerIn := ⟨q, false⟩
          routerOut := ctx.routerOut.put (parts (interhubName :: mqResInterhub :: rest)) } := by
  have hsend := h.sendWhile (0 < ·) hhub [mqResInterhub] (by decide)
  have hfree : (ctx.routerOut.put ([interhubName, mqResInterhub].map (⟨·, true⟩))).Free :=
    free_put_frames h.kind (by simp)
  rw [routerBody, if_pos rfl, relayResToInterhub]
  simp only [hsend, relaySndMore_free hrest hlen hfree, put_put]
  rw [← parts_append [interhubName, mqResInterhub] hrest]
  rfl

end Idle

end Brocoli
