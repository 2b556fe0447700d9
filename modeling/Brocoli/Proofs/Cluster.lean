/-
What a process sends to another broker arrives there once, and in order.

A router reads each message to its end, whoever it is from, and what it sends for one goes to
the slots, to the publisher or to the hub.  The hub is a queue between any two brokers, and
the pipes between it and the routers are queues as well.  So what a router has passed to the
hub for another broker is what that broker's router has taken from it, and behind it what is
on its way.
-/
import Brocoli.Cluster
import Brocoli.Proofs.Exchange
import Brocoli.Proofs.RoundTrip
import Brocoli.Proofs.Switch

namespace Brocoli

open CMem Multipart NTree Runs Carriage Hub

section System

variable {β : Type} {id : β → Str} {services : β → List Str} {time : β → Nat → Time}

/-! ### What a router does with a message -/

section Router

variable {s : List Str}

theorem knows_eq {f : Frame} (hf : f ≠ interhubName) : knows s f = decide (f ∈ s) := by
  have hne : (f == interhubName) = false := beq_eq_false_iff_ne.mpr hf
  rw [knows, hne, Bool.false_or]
  exact List.contains_eq_mem f s

theorem knows_mem {f : Frame} (hf : f ∈ s) : knows s f = true := by
  rw [knows, List.contains_eq_mem, decide_eq_true hf, Bool.or_true]

/-- A log line is read and dropped. -/
theorem routerBody_dropped (ctx : RouterCtx) (text : Frame) (q : List Part) :
    routerBody { ctx with routerIn := ⟨parts [text] ++ q, true⟩ } mqLog
      = { ctx with routerIn := ⟨q, false⟩ } := by
  have hinter : mqLog ≠ mqResInterhub := by decide
  have hreq : ¬ (mqLog = mqReqInterhub ∨ mqLog = mqReq) := by decide
  have hres : mqLog ≠ mqRes := by decide
  rw [routerBody, if_neg hinter, if_neg hreq, if_neg hres, if_pos rfl]
  rfl

theorem readWhole_req {svc body : Frame} {tag : MqTag} (hname : IsName 24 svc)
    (hhub : svc ≠ interhubName) (hvia : tag.viaInterhub = false)
    (hbody : body.length ≤ maxBuffSize) :
    ReadWhole (knows s) true mqReq [svc, tag.mem, body]
      (if svc ∈ s then [[svc, tag.mem, body]] else toInterhub tag svc body) [] := by
  have hshort : svc.length < 128 := Nat.lt_of_lt_of_le hname.fits (by decide)
  have hknows := knows_eq (s := s) hhub
  by_cases hs : svc ∈ s
  · rw [if_pos hs]
    refine ⟨by decide, by simp, fun ctx q hidle _ _ => ?_⟩
    have hrest : [tag.mem, body] ≠ [] := List.cons_ne_nil _ _
    have hbody := routerBody_known hidle hrest (relayable_tagged tag hshort hbody) (knows_mem hs) q
    rw [cstr_mqReq]
    simpa using hbody
  · rw [if_neg hs]
    refine ⟨by decide, by simp [toInterhub], fun ctx q hidle _ hinterhub => ?_⟩
    have hbody := routerBody_unknown hidle hinterhub rfl hname.nonempty hname.terminated hshort
      (by rw [hknows, decide_eq_false hs]) hvia hbody q
    rw [cstr_mqReq]
    simpa using hbody

theorem readWhole_resInterhub {rest : Msg} (hrest : rest ≠ []) (hlen : Relayable rest) :
    ReadWhole (knows s) true mqResInterhub rest [interhubName :: mqResInterhub :: rest] [] := by
  refine ⟨by decide, by simp, fun ctx q hidle _ _ => ?_⟩
  have hmore : (!rest.isEmpty) = true := by simpa using hrest
  have hbody := routerBody_backToHub hidle rfl hrest hlen q
  rw [cstr_mqResInterhub, hmore]
  simpa using hbody

theorem readWhole_res {rest : Msg} (hrest : rest ≠ []) (hlen : Relayable rest) :
    ReadWhole (knows s) true mqRes rest [] [rest] := by
  refine ⟨by decide, by simp, fun ctx q _ hpub _ => ?_⟩
  have hmore : (!rest.isEmpty) = true := by simpa using hrest
  have hbody := routerBody_published hpub hrest hlen q
  rw [cstr_mqRes, hmore]
  simpa using hbody

theorem readWhole_log (text : Frame) : ReadWhole (knows s) true mqLog [text] [] [] := by
  refine ⟨by decide, by simp, fun ctx q _ _ _ => ?_⟩
  have hbody := routerBody_dropped ctx text q
  have hcstr : cstr mqLog = mqLog := by decide
  rw [hcstr]
  simpa using hbody

/-- A request of another broker goes to the slot of its service, a response to the publisher. -/
theorem readWhole_relay {r : Relay} (hfits : r.toSub.Fits)
    (hknown : r.response = false → cstr r.svc ∈ s) :
    ReadWhole (knows s) true (if r.response then mqRes else mqReq)
      [cstr r.svc, (MqTag.zero.recv r.tagOrName).mem, r.body]
      (if r.response then [] else [[cstr r.svc, (MqTag.zero.recv r.tagOrName).mem, r.body]])
      (if r.response then [[cstr r.svc, (MqTag.zero.recv r.tagOrName).mem, r.body]] else []) := by
  obtain ⟨hsvc, -, hbody⟩ := hfits
  have hshort : (cstr r.svc).length < 128 := Nat.lt_of_le_of_lt (length_cstr_le _) hsvc
  have hlen := relayable_tagged (MqTag.zero.recv r.tagOrName) hshort hbody
  cases hres : r.response with
  | true => exact readWhole_res (by simp) hlen
  | false =>
      refine ⟨by decide, by simp, fun ctx q hidle _ _ => ?_⟩
      have hrest : [(MqTag.zero.recv r.tagOrName).mem, r.body] ≠ [] := List.cons_ne_nil _ _
      have hread := routerBody_known hidle hrest hlen (knows_mem (hknown hres)) q
      simp only [Bool.false_eq_true, if_false]
      rw [cstr_mqReq]
      simpa using hread

/-- **Every message is read to its end.** -/
theorem readWhole_incoming {m : Incoming β} (hm : m.Valid id s) :
    ReadWhole (knows s) true m.type m.rest (m.routed s) m.published := by
  cases m with
  | sent svc m =>
      cases m with
      | req svc tag body =>
          obtain ⟨hname, hhub, hvia, hbody⟩ := hm
          exact readWhole_req hname hhub hvia hbody
      | res svc name body => exact readWhole_res (List.cons_ne_nil _ _) hm
      | resInterhub broker svc name body =>
          have hvalid : (DealerMsg.resInterhub broker svc name body).Valid id := hm
          refine readWhole_resInterhub (List.cons_ne_nil _ _) fun f hf => ?_
          rcases List.mem_cons.mp hf with rfl | hf
          · exact Nat.le_of_lt (Nat.lt_of_lt_of_le hvalid.fits.1 (by decide))
          · exact hvalid.fits.2 f hf
      | log text => exact readWhole_log text
  | relay origin r => exact readWhole_relay hm.1 hm.2

/-- What it sends to the hub is what the thread of the broker gets. -/
theorem routedTo_routed {m : Incoming β} (hm : m.Valid id s) (hs : interhubName ∉ s) :
    routedTo interhubName (m.routed s) = (m.upward s).map DealerMsg.frames := by
  cases m with
  | sent svc m =>
      cases m with
      | req svc tag body =>
          by_cases hmem : svc ∈ s
          · have hne : svc ≠ interhubName := hm.2.1
            simp [Incoming.routed, Incoming.upward, hmem, routedTo_one, hne]
          · simp [Incoming.routed, Incoming.upward, hmem, routedTo, toInterhub, DealerMsg.frames,
              DealerMsg.type, DealerMsg.rest]
      | resInterhub broker svc name body =>
          simp [Incoming.routed, Incoming.upward, routedTo_one, DealerMsg.frames, DealerMsg.type,
            DealerMsg.rest]
      | res svc name body => rfl
      | log text => rfl
  | relay origin r =>
      cases hres : r.response with
      | true => simp [Incoming.routed, Incoming.upward, hres]
      | false =>
          have hne : cstr r.svc ≠ interhubName := fun heq => hs (heq ▸ hm.2 hres)
          simp [Incoming.routed, Incoming.upward, hres, routedTo_one, hne]

/-- And what it sends to the slots the rest. -/
theorem filter_routed {m : Incoming β} (hm : m.Valid id s) (hs : interhubName ∉ s) :
    ((m.routed s).filter fun f => f.headD [] != interhubName) = m.slots s := by
  cases m with
  | sent svc m =>
      cases m with
      | req svc tag body =>
          by_cases hmem : svc ∈ s
          · have hne : svc ≠ interhubName := hm.2.1
            simp [Incoming.routed, Incoming.slots, hmem, hne]
          · simp [Incoming.routed, Incoming.slots, hmem, toInterhub]
      | resInterhub broker svc name body => simp [Incoming.routed, Incoming.slots]
      | res svc name body => rfl
      | log text => rfl
  | relay origin r =>
      cases hres : r.response with
      | true => simp [Incoming.routed, Incoming.slots, hres]
      | false =>
          have hne : cstr r.svc ≠ interhubName := fun heq => hs (heq ▸ hm.2 hres)
          simp [Incoming.routed, Incoming.slots, hres, hne]

end Router

/-! ### A run of a router -/

/-- The sockets of the router are what they are created as, and it holds the messages that
wait. -/
structure RouterSound (id : β → Str) (s : List Str) (waiting : List (Incoming β))
    (ctx : RouterCtx) : Prop where
  routerIn : ctx.routerIn = In.holding (waiting.map Incoming.frames)
  routerOut : ctx.routerOut.Idle (knows s)
  pub : ctx.zmqPub.kind = .pub
  interhub : ctx.interhub = true
  valid : ∀ m ∈ waiting, m.Valid id s

section Callback

variable {s : List Str} {waiting : List (Incoming β)} {ctx : RouterCtx}

theorem flatMap_published_ne_nil (ms : List (Incoming β)) :
    ∀ m ∈ ms.flatMap Incoming.published, m ≠ [] := by
  intro f hf
  obtain ⟨m, -, hf⟩ := List.mem_flatMap.mp hf
  cases m with
  | sent svc m =>
      cases m with
      | res svc name body =>
          rw [List.mem_singleton.mp hf]
          exact List.cons_ne_nil _ _
      | _ => exact absurd hf List.not_mem_nil
  | relay origin r =>
      cases hres : r.response with
      | true =>
          rw [Incoming.published, if_pos hres] at hf
          rw [List.mem_singleton.mp hf]
          exact List.cons_ne_nil _ _
      | false => simp [Incoming.published, hres] at hf

/-- **A run of a router** takes as many messages as the limit allows, and sends and publishes
what it should for each. -/
theorem RouterSound.callback (h : RouterSound id s waiting ctx) (hs : interhubName ∉ s) :
    let ms := waiting.take 1000
    let ctx' := routerCallback ctx
    let out := ctx.routerOut.since ctx'.routerOut
    RouterSound id s (waiting.drop 1000) ctx' ∧
      routedTo interhubName out
        = (ms.flatMap (Incoming.upward s)).map DealerMsg.frames ∧
      (out.filter fun f => f.headD [] != interhubName) = ms.flatMap (Incoming.slots s) ∧
      ctx.zmqPub.since ctx'.zmqPub = ms.flatMap Incoming.published := by
  intro ms ctx' out
  have hvalid : ∀ m ∈ ms, m.Valid id s := fun m hm => h.valid m (List.mem_of_mem_take hm)
  have hrun : ctx' = { ctx with
      routerIn := In.holding ((waiting.drop 1000).map Incoming.frames)
      routerOut := ctx.routerOut.put (stream (ms.flatMap (Incoming.routed s)))
      zmqPub := ctx.zmqPub.put (stream (ms.flatMap Incoming.published)) } :=
    routerLoop_each (s := routerEnter ctx) 1000 waiting h.routerOut h.pub h.interhub
      (fun m hm => readWhole_incoming (h.valid m hm)) h.routerIn
  have hwhole : ∀ m ∈ ms.flatMap (Incoming.routed s), m ≠ [] := by
    intro f hf
    obtain ⟨m, hm, hf⟩ := List.mem_flatMap.mp hf
    exact (readWhole_incoming (hvalid m hm)).nonempty f hf
  have hout : out = ms.flatMap (Incoming.routed s) := by
    show ctx.routerOut.since ctx'.routerOut = _
    rw [hrun]
    exact since_of_sent hwhole rfl
  refine ⟨?_, ?_, ?_, ?_⟩
  · rw [hrun]
    exact ⟨rfl, h.routerOut.put_stream hwhole, h.pub, h.interhub,
      fun m hm => h.valid m (List.mem_of_mem_drop hm)⟩
  · rw [hout, routedTo, List.filter_flatMap, List.map_flatMap, List.map_flatMap]
    exact List.flatMap_congr fun m hm => routedTo_routed (hvalid m hm) hs
  · rw [hout, List.filter_flatMap]
    exact List.flatMap_congr fun m hm => filter_routed (hvalid m hm) hs
  · rw [hrun]
    exact since_of_sent (flatMap_published_ne_nil ms) rfl

end Callback

/-! ### Steps -/

/-- The hub works, the routers work, and nothing is lost between them: what a router has taken
and what waits there is what the processes have sent and what has come out of the hub, and
what it has taken has gone to the hub, to the slots and to the publisher. -/
structure ClusterSound [DecidableEq β] (id : β → Str) (services : β → List Str) (x : Cluster β)
    (f : ClusterFlow β) : Prop where
  hub : Hub.Sound id x.hub f.hub
  offered : ∀ svcRegi ∈ x.hub.registered, Offered id services svcRegi
  router : ∀ a, RouterSound id (services a) (f.waiting a) (x.ctx a)
  toHub : ∀ a, x.toHub a = (f.toHub a).map DealerMsg.frames
  toBroker : ∀ b, x.toBroker b = (f.toBroker b).map fun z => z.2.toRouter
  validUp : ∀ a, ∀ m ∈ f.toHub a, m.Valid id
  validDown : ∀ b, ∀ z ∈ f.toBroker b, (Incoming.relay z.1 z.2).Valid id (services b)
  valid : ∀ a, ∀ m ∈ x.sent a, m.Valid id
  sent : ∀ a, (f.taken a ++ f.waiting a).filterMap Incoming.sent? = x.sent a
  upward : ∀ a, x.hub.arrived a ++ f.toHub a = (f.taken a).flatMap (Incoming.upward (services a))
  downward : ∀ b, (f.taken b ++ f.waiting b).filterMap Incoming.relay? ++ f.toBroker b
    = (f.hub.got b).filterMap Hub.Item.sent?
  handed : ∀ a, x.handed a = (f.taken a).flatMap (Incoming.slots (services a))
  answered : ∀ a, x.answered a = (f.taken a).flatMap Incoming.published

theorem ofFrames_frames (m : DealerMsg) : DealerMsg.ofFrames m.frames = some m := by
  cases m <;> simp [DealerMsg.frames, DealerMsg.type, DealerMsg.rest, DealerMsg.ofFrames,
    MqTag.recv_mem]

/-- What goes to the hub for a message is for a broker that is there. -/
theorem valid_upward {s : List Str} {m : Incoming β} (hm : m.Valid id s) :
    ∀ d ∈ m.upward s, d.Valid id := by
  intro d hd
  cases m with
  | sent svc m =>
      cases m with
      | req svc tag body =>
          obtain ⟨hname, -, -, hbody⟩ := hm
          have hshort : svc.length < 128 := Nat.lt_of_lt_of_le hname.fits (by decide)
          by_cases hmem : svc ∈ s
          · simp [Incoming.upward, hmem] at hd
          · rw [Incoming.upward, if_neg hmem] at hd
            simp only [List.mem_cons, List.not_mem_nil, or_false] at hd
            rcases hd with rfl | rfl
            · exact ⟨length_unroutableLog hshort, fun _ _ _ _ h => absurd h (by simp)⟩
            · exact ⟨⟨hshort, hbody⟩, fun _ _ _ _ h => absurd h (by simp)⟩
      | resInterhub broker svc name body =>
          rw [List.mem_singleton.mp hd]
          exact hm
      | res svc name body => exact absurd hd List.not_mem_nil
      | log text => exact absurd hd List.not_mem_nil
  | relay origin r => exact absurd hd List.not_mem_nil

variable [DecidableEq β]

section Steps

variable {x : Cluster β} {f : ClusterFlow β}

/-- A message of a process comes to the router. -/
theorem clusterSound_send (h : ClusterSound id services x f) (a : β) (svc : Str) {m : ProcessMsg}
    (hm : m.Valid id) :
    ClusterSound id services (x.step time (.send a svc m))
      (f.step services [] (.send a svc m)) := by
  have ha := h.router a
  refine ⟨h.hub, h.offered, ?_, h.toHub, h.toBroker, h.validUp, h.validDown, ?_, ?_, h.upward, ?_,
    h.handed, h.answered⟩
  · refine all_update₂ (Q := fun b ctx (waiting : List (Incoming β)) =>
      RouterSound id (services b) waiting ctx) h.router
      ⟨?_, ha.routerOut, ha.pub, ha.interhub, fun y hy => ?_⟩
    · show (x.ctx a).routerIn.arrive _ = _
      rw [ha.routerIn, holding_arrive, List.map_append]
      rfl
    · rcases List.mem_append.mp hy with hy | hy
      · exact ha.valid y hy
      · rw [List.mem_singleton.mp hy]
        exact hm
  · refine all_update (Q := fun _ (ms : List ProcessMsg) => ∀ m ∈ ms, m.Valid id) h.valid
      fun y hy => ?_
    rcases List.mem_append.mp hy with hy | hy
    · exact h.valid a y hy
    · rw [List.mem_singleton.mp hy]
      exact hm
  · refine all_update₂ (Q := fun b (waiting : List (Incoming β)) sent =>
      (f.taken b ++ waiting).filterMap Incoming.sent? = sent) h.sent ?_
    rw [← List.append_assoc, List.filterMap_append, h.sent]
    rfl
  · refine all_update (Q := fun b (waiting : List (Incoming β)) =>
      (f.taken b ++ waiting).filterMap Incoming.relay? ++ f.toBroker b
        = (f.hub.got b).filterMap Hub.Item.sent?) h.downward ?_
    rw [← List.append_assoc, List.filterMap_append]
    exact (congrArg (· ++ f.toBroker a) (List.append_nil _)).trans (h.downward a)

/-- The router runs. -/
theorem clusterSound_router (hservices : ∀ b, interhubName ∉ services b)
    (h : ClusterSound id services x f) (a : β) :
    ClusterSound id services (x.step time (.router a)) (f.step services [] (.router a)) := by
  obtain ⟨hrouter, hhub, hslots, hpub⟩ := (h.router a).callback (hservices a)
  have hsplit : f.taken a ++ f.waiting a
      = f.taken a ++ (f.waiting a).take 1000 ++ (f.waiting a).drop 1000 := by
    rw [List.append_assoc, List.take_append_drop]
  refine ⟨h.hub, h.offered, ?_, ?_, h.toBroker, ?_, h.validDown, h.valid, ?_, ?_, ?_, ?_, ?_⟩
  · exact all_update₂ (Q := fun b ctx (waiting : List (Incoming β)) =>
      RouterSound id (services b) waiting ctx) h.router hrouter
  · refine all_update₂ (Q := fun _ (ms : List Msg) (ds : List DealerMsg) =>
      ms = ds.map DealerMsg.frames) h.toHub ?_
    rw [hhub, h.toHub, List.map_append]
  · refine all_update (Q := fun _ (ds : List DealerMsg) => ∀ d ∈ ds, d.Valid id) h.validUp
      fun d hd => ?_
    rcases List.mem_append.mp hd with hd | hd
    · exact h.validUp a d hd
    · obtain ⟨m, hm, hd⟩ := List.mem_flatMap.mp hd
      exact valid_upward ((h.router a).valid m (List.mem_of_mem_take hm)) d hd
  · refine all_update₂ (Q := fun b (waiting taken : List (Incoming β)) =>
      (taken ++ waiting).filterMap Incoming.sent? = x.sent b) h.sent ?_
    rw [← hsplit]
    exact h.sent a
  · refine all_update₂ (Q := fun b (taken : List (Incoming β)) toHub =>
      x.hub.arrived b ++ toHub = taken.flatMap (Incoming.upward (services b))) h.upward ?_
    rw [← List.append_assoc, h.upward, List.flatMap_append]
  · refine all_update₂ (Q := fun b (waiting taken : List (Incoming β)) =>
      (taken ++ waiting).filterMap Incoming.relay? ++ f.toBroker b
        = (f.hub.got b).filterMap Hub.Item.sent?) h.downward ?_
    rw [← hsplit]
    exact h.downward a
  · refine all_update₂ (Q := fun b handed (taken : List (Incoming β)) =>
      handed = taken.flatMap (Incoming.slots (services b))) h.handed ?_
    rw [hslots, h.handed, List.flatMap_append]
  · refine all_update₂ (Q := fun _ answered (taken : List (Incoming β)) =>
      answered = taken.flatMap Incoming.published) h.answered ?_
    rw [hpub, h.answered, List.flatMap_append]

/-- The pipe carries a message to the dealer. -/
theorem clusterSound_toHub (h : ClusterSound id services x f) (a : β) :
    ClusterSound id services (x.step time (.toHub a)) (f.step services [] (.toHub a)) := by
  have hpipe := h.toHub a
  cases hf : f.toHub a with
  | nil =>
      rw [hf, List.map_nil] at hpipe
      rw [Cluster.step, hpipe, ClusterFlow.step, hf]
      exact h
  | cons d rest =>
      rw [hf, List.map_cons] at hpipe
      rw [Cluster.step, hpipe, ClusterFlow.step, hf]
      simp only [ofFrames_frames]
      have hd : d.Valid id := h.validUp a d (by rw [hf]; exact List.mem_cons_self)
      have hhub : Hub.Sound id (x.hub.step time (.arrive a d)) f.hub := sound_arrive h.hub a hd
      refine ⟨hhub, h.offered, h.router, ?_, h.toBroker, ?_, h.validDown, h.valid, h.sent, ?_,
        h.downward, h.handed, h.answered⟩
      · exact all_update₂ (Q := fun _ (ms : List Msg) (ds : List DealerMsg) =>
          ms = ds.map DealerMsg.frames) h.toHub rfl
      · refine all_update (Q := fun _ (ds : List DealerMsg) => ∀ d ∈ ds, d.Valid id) h.validUp
          fun y hy => h.validUp a y ?_
        rw [hf]
        exact List.mem_cons_of_mem _ hy
      · refine all_update₂ (Q := fun b (arrived toHub : List DealerMsg) =>
          arrived ++ toHub = (f.taken b).flatMap (Incoming.upward (services b))) h.upward ?_
        rw [List.append_assoc, List.singleton_append, ← hf]
        exact h.upward a

/-- The pipe carries a message to the router. -/
theorem clusterSound_toBroker (h : ClusterSound id services x f) (b : β) :
    ClusterSound id services (x.step time (.toBroker b)) (f.step services [] (.toBroker b)) := by
  have hpipe := h.toBroker b
  cases hf : f.toBroker b with
  | nil =>
      rw [hf, List.map_nil] at hpipe
      rw [Cluster.step, hpipe, ClusterFlow.step, hf]
      exact h
  | cons z rest =>
      rw [hf, List.map_cons] at hpipe
      rw [Cluster.step, hpipe, ClusterFlow.step, hf]
      have hb := h.router b
      refine ⟨h.hub, h.offered, ?_, h.toHub, ?_, h.validUp, ?_, h.valid, ?_, h.upward, ?_,
        h.handed, h.answered⟩
      · refine all_update₂ (Q := fun c ctx (waiting : List (Incoming β)) =>
          RouterSound id (services c) waiting ctx) h.router
          ⟨?_, hb.routerOut, hb.pub, hb.interhub, fun y hy => ?_⟩
        · show (x.ctx b).routerIn.arrive _ = _
          rw [hb.routerIn, holding_arrive, List.map_append]
          rfl
        · rcases List.mem_append.mp hy with hy | hy
          · exact hb.valid y hy
          · rw [List.mem_singleton.mp hy]
            exact h.validDown b z (by rw [hf]; exact List.mem_cons_self)
      · exact all_update₂ (Q := fun _ (ms : List Msg) (zs : List (β × Relay)) =>
          ms = zs.map fun z => z.2.toRouter) h.toBroker rfl
      · refine all_update (Q := fun c (zs : List (β × Relay)) =>
          ∀ z ∈ zs, (Incoming.relay z.1 z.2).Valid id (services c)) h.validDown
          fun y hy => h.validDown b y ?_
        rw [hf]
        exact List.mem_cons_of_mem _ hy
      · refine all_update (Q := fun c (waiting : List (Incoming β)) =>
          (f.taken c ++ waiting).filterMap Incoming.sent? = x.sent c) h.sent ?_
        rw [← List.append_assoc, List.filterMap_append]
        exact (List.append_nil _).trans (h.sent b)
      · refine all_update₂ (Q := fun c (zs : List (β × Relay)) (waiting : List (Incoming β)) =>
          (f.taken c ++ waiting).filterMap Incoming.relay? ++ zs
            = (f.hub.got c).filterMap Hub.Item.sent?) h.downward ?_
        rw [← List.append_assoc, List.filterMap_append, List.append_assoc]
        refine Eq.trans ?_ (h.downward b)
        rw [hf]
        rfl

/-! ### The hub between the routers -/

omit [DecidableEq β] in
theorem exists_of_forall₂ {α γ : Type} {R : α → γ → Prop} {l : List α} {r : List γ}
    (h : List.Forall₂ R l r) {c : γ} (hc : c ∈ r) : ∃ a ∈ l, R a c := by
  induction h with
  | nil => exact absurd hc List.not_mem_nil
  | @cons a d l r hac _ ih =>
      rcases List.mem_cons.mp hc with rfl | hc
      · exact ⟨a, List.mem_cons_self, hac⟩
      · obtain ⟨a', ha', hr⟩ := ih hc
        exact ⟨a', List.mem_cons_of_mem _ ha', hr⟩

/-- A request that is on its way to a broker is for a service of it. -/
theorem queue_offered (h : ClusterSound id services x f) {b : β} {z : β × Relay}
    (hz : z ∈ (f.hub.queue b).filterMap Hub.Item.sent?) (hreq : z.2.response = false) :
    cstr z.2.svc ∈ services b := by
  obtain ⟨a, r⟩ := z
  have hcrossed : (b, r) ∈ f.hub.crossed a := by
    rw [← mem_lane, ← h.hub.line.relays a b]
    exact mem_lane.mpr hz
  obtain ⟨taken, -, hpassed⟩ := h.hub.line.passed a
  obtain ⟨m, -, hm⟩ := exists_of_forall₂ hpassed (List.mem_append_left _ hcrossed)
  cases hm with
  | req hother hregi hbroker hsvc =>
      rw [cstr_cstr, ← hsvc]
      exact h.offered _ hregi b hbroker
  | resInterhub hbroker => cases hreq

omit [DecidableEq β] in
theorem fits_of_sent {items : List (Hub.Item β)} (h : ∀ i ∈ items, i.toSub.Fits) {z : β × Relay}
    (hz : z ∈ items.filterMap Hub.Item.sent?) : z.2.toSub.Fits := by
  obtain ⟨i, hi, heq⟩ := List.mem_filterMap.mp hz
  cases i with
  | regi svcRegi => cases heq
  | relay origin r =>
      cases heq
      exact h _ hi

/-- What comes out of the hub is behind what came out before. -/
theorem got_step (g : Flow β) (zs : List (β × Relay)) (e : SwitchStep β) (b : β) :
    ((g.step zs e).got b).filterMap Hub.Item.sent?
      = (g.got b).filterMap Hub.Item.sent? ++ comesOut g e b := by
  cases e with
  | sub c =>
      show (Function.update g.got c (g.got c ++ g.sub c) b).filterMap Hub.Item.sent? = _ ++
        Function.update (fun _ => []) c ((g.sub c).filterMap Hub.Item.sent?) b
      refine all_update₂ (Q := fun b (got : List (Hub.Item β)) (new : List (β × Relay)) =>
        got.filterMap Hub.Item.sent? = (g.got b).filterMap Hub.Item.sent? ++ new) (fun b => ?_) ?_ b
      · rw [List.append_nil]
      · exact List.filterMap_append
  | proxyMain => cases hg : g.announced <;> simp [Flow.step, comesOut, hg]
  | proxy a => cases hg : g.published a <;> simp [Flow.step, comesOut, hg]
  | toSub c => cases hg : g.relayed c <;> simp [Flow.step, comesOut, hg]
  | _ => exact (List.append_nil _).symm

/-- And it is what the thread sends to its broker. -/
theorem since_step {y : Switch β} {g : Flow β} {zs : List (β × Relay)} {e : SwitchStep β}
    (h : Hub.Sound id y g) (h' : Hub.Sound id (y.step time e) (g.step zs e)) (b : β) :
    (y.thread b).zmqDealerOut.since ((y.step time e).thread b).zmqDealerOut
      = (comesOut g e b).map fun z => z.2.toRouter := by
  have hsent : ∀ items : List (Hub.Item β), (items.filterMap Hub.Item.relay?).map Relay.toRouter
      = (items.filterMap Hub.Item.sent?).map fun z => z.2.toRouter := by
    intro items
    rw [← map_sent, List.map_map]
    rfl
  refine since_of_sent (fun m hm => ?_) ?_
  · obtain ⟨z, -, rfl⟩ := List.mem_map.mp hm
    exact List.cons_ne_nil _ _
  · rw [(h'.carries.thread b).out, (h.carries.thread b).out, hsent, hsent, got_step,
      List.map_append, stream_append]

/-- What comes out has waited in the broker's subscriber. -/
theorem comesOut_mem {g : Flow β} {e : SwitchStep β} {b : β} {z : β × Relay}
    (hz : z ∈ comesOut g e b) : z ∈ (g.sub b).filterMap Hub.Item.sent? := by
  cases e with
  | sub c =>
      by_cases hc : b = c
      · subst hc
        simpa [comesOut] using hz
      · simp [comesOut, Function.update_of_ne hc] at hz
  | _ => exact absurd hz List.not_mem_nil

/-- The hub's own steps bring nothing to its dealers. -/
theorem arrived_inside {y : Switch β} {e : SwitchStep β} (he : Inside id services e) :
    (y.step time e).arrived = y.arrived := by
  rw [step_arrived]
  cases e with
  | arrive a m => exact False.elim he
  | _ => rfl

/-- And the services they announce are offered. -/
theorem registered_inside {y : Switch β} {e : SwitchStep β} (he : Inside id services e)
    {svcRegi : MqRegi} (hr : svcRegi ∈ (y.step time e).registered) :
    svcRegi ∈ y.registered ∨ Offered id services svcRegi := by
  rw [step_registered] at hr
  cases e with
  | announce r =>
      rcases List.mem_append.mp hr with hr | hr
      · exact Or.inl hr
      · rw [List.mem_singleton.mp hr]
        exact Or.inr he
  | _ => exact Or.inl hr

/-- The hub makes a step. -/
theorem clusterSound_hub (hids : Ids id) (h : ClusterSound id services x f) {e : SwitchStep β}
    (he : e.Valid id x.hub) (hinside : Inside id services e) :
    ∃ zs, ClusterSound id services (x.step time (.hub e)) (f.step services zs (.hub e)) := by
  obtain ⟨zs, hhub⟩ : ∃ zs, Hub.Sound id (x.hub.step time e) (f.hub.step zs e) :=
    sound_step hids h.hub he
  refine ⟨zs, hhub, ?_, h.router, h.toHub, fun b => ?_, h.validUp, fun b z hz => ?_, h.valid,
    h.sent, fun a => ?_, fun b => ?_, h.handed, h.answered⟩
  · exact fun svcRegi hr => (registered_inside hinside hr).elim (h.offered svcRegi) fun ho => ho
  · show x.toBroker b ++ _ = (f.toBroker b ++ _).map _
    rw [since_step h.hub hhub, h.toBroker, List.map_append]
  · rcases List.mem_append.mp hz with hz | hz
    · exact h.validDown b z hz
    · have hmem := comesOut_mem hz
      refine ⟨fits_of_sent (fun i hi => h.hub.carries.fitsRelayed b i ?_) hmem, fun hreq => ?_⟩
      · exact List.mem_append_right _ hi
      · refine queue_offered h ?_ hreq
        rw [Flow.queue, List.filterMap_append, List.filterMap_append]
        exact List.mem_append_left _ (List.mem_append_right _ hmem)
  · show (x.hub.step time e).arrived a ++ _ = _
    rw [arrived_inside hinside]
    exact h.upward a
  · show (f.taken b ++ f.waiting b).filterMap Incoming.relay? ++ (f.toBroker b ++ _)
      = ((f.hub.step zs e).got b).filterMap Hub.Item.sent?
    rw [got_step, ← h.downward b, List.append_assoc]

/-- **Every step keeps what is on its way in line.** -/
theorem clusterSound_step (hids : Ids id) (hservices : ∀ b, interhubName ∉ services b)
    (h : ClusterSound id services x f) {e : ClusterStep β} (he : e.Valid id services x) :
    ∃ zs, ClusterSound id services (x.step time e) (f.step services zs e) := by
  cases e with
  | send a svc m => exact ⟨[], clusterSound_send h a svc he⟩
  | router a => exact ⟨[], clusterSound_router hservices h a⟩
  | toHub a => exact ⟨[], clusterSound_toHub h a⟩
  | toBroker b => exact ⟨[], clusterSound_toBroker h b⟩
  | hub e => exact clusterSound_hub hids h he.1 he.2

end Steps

/-! ### From router to router -/

/-- A message for another broker, as it goes to the hub. -/
def ProcessMsg.toDealer : ProcessMsg → DealerMsg
  | .req svc tag body => .req svc tag.setViaInterhub body
  | .resInterhub broker svc name body => .resInterhub broker svc name body
  | .res .. | .log _ => .log []

omit [DecidableEq β] in
/-- What goes to the hub, log lines apart, are the messages for other brokers. -/
theorem filter_upward (s : List Str) (ms : List (Incoming β)) :
    (ms.flatMap (Incoming.upward s)).filter (fun d => !d.isLog)
      = ((ms.filterMap Incoming.sent?).filter (ProcessMsg.leaves s)).map ProcessMsg.toDealer := by
  induction ms with
  | nil => rfl
  | cons m ms ih =>
      rw [List.flatMap_cons, List.filter_append, ih]
      cases m with
      | relay origin r => rfl
      | sent svc m =>
          cases m with
          | req tgsvc tag body =>
              by_cases hs : tgsvc ∈ s
              · simp [Incoming.upward, Incoming.sent?, ProcessMsg.leaves, hs]
              · simp [Incoming.upward, Incoming.sent?, ProcessMsg.leaves, hs, DealerMsg.isLog,
                  ProcessMsg.toDealer]
          | _ => rfl

omit [DecidableEq β] in
theorem crosses_of_passed {registered : List MqRegi} {a : β} {m : ProcessMsg} {z : β × Relay}
    (hm : m.Valid id) (hz : Passed id registered a m.toDealer z) :
    Crosses id registered a m z := by
  cases m with
  | req svc tag body =>
      obtain ⟨hname, -⟩ := hm
      have hcstr : cstr svc = svc := cstr_of_notMem hname.terminated
      cases hz with
      | req hother hregi hbroker hsvc =>
          rw [hcstr] at hsvc ⊢
          exact .req hother hregi hbroker hsvc
  | resInterhub broker svc name body =>
      cases hz with
      | resInterhub hbroker => exact .resInterhub hbroker
  | res svc name body => cases hz
  | log text => cases hz

section Delivered

variable {x : Cluster β} {f : ClusterFlow β}

/-- The first of the messages for other brokers are at the other end of the hub. -/
theorem ClusterSound.passed (h : ClusterSound id services x f) (a : β) :
    ∃ left,
      left <+: ((f.taken a).filterMap Incoming.sent?).filter (ProcessMsg.leaves (services a)) ∧
      List.Forall₂ (Crosses id x.hub.registered a) left (f.hub.passed a) ∧
      (x.hub.waiting a = [] → f.toHub a = [] → left
        = ((f.taken a).filterMap Incoming.sent?).filter (ProcessMsg.leaves (services a))) := by
  obtain ⟨taken, harrived, hpassed⟩ := h.hub.line.passed a
  have hup := congrArg (List.filter fun d => !d.isLog) (h.upward a)
  rw [filter_upward, harrived, List.filter_append, List.filter_append, List.append_assoc] at hup
  set left := ((f.taken a).filterMap Incoming.sent?).filter (ProcessMsg.leaves (services a))
  obtain ⟨done, rest, hdone, htaken, hrest⟩ := List.map_eq_append_iff.mp hup.symm
  have hvalid : ∀ m ∈ done, m.Valid id := by
    intro m hm
    have hmem : m ∈ left := by
      rw [hdone]
      exact List.mem_append_left _ hm
    refine h.valid a m ?_
    rw [← h.sent a, List.filterMap_append]
    exact List.mem_append_left _ (List.mem_filter.mp hmem).1
  refine ⟨done, ⟨rest, hdone.symm⟩, ?_, fun hwaiting hto => ?_⟩
  · rw [← htaken, List.forall₂_map_left_iff] at hpassed
    have hboth := (List.forall₂_and_left _ _).mpr ⟨hvalid, hpassed⟩
    exact hboth.imp fun m z hz => crosses_of_passed hz.1 hz.2
  · rw [hwaiting, hto, List.filter_nil, List.append_nil] at hrest
    rw [hdone, List.map_eq_nil_iff.mp hrest, List.append_nil]

theorem ClusterSound.order (h : ClusterSound id services x f) (a b : β) :
    lane a ((f.taken b).filterMap Incoming.relay?) <+: lane b (f.hub.passed a) := by
  refine List.IsPrefix.trans ?_ (h.hub.delivered.order a b)
  rw [← h.downward b, List.filterMap_append, List.append_assoc, lane_append]
  exact List.prefix_append _ _

omit [DecidableEq β] in
/-- A socket with nothing on it holds no messages. -/
theorem holding_empty {α : Type} {frames : α → Msg} (hne : ∀ a, frames a ≠ []) {l : List α}
    (h : (In.holding (l.map frames)).queue = []) : l = [] := by
  have hall : ∀ m ∈ l.map frames, m ≠ [] := by
    intro m hm
    obtain ⟨a, -, rfl⟩ := List.mem_map.mp hm
    exact hne a
  have hlen := length_le_stream hall
  have hqueue : stream (l.map frames) = [] := h
  rw [hqueue, List.length_map, List.length_nil] at hlen
  exact List.length_eq_zero_iff.mp (Nat.le_zero.mp hlen)

/-- **What has been taken accounts for everything.** -/
theorem ClusterSound.endToEnd (h : ClusterSound id services x f) :
    EndToEnd id services x f.taken f.hub.passed where
  sent a := by
    rw [← h.sent a, List.filterMap_append]
    exact List.prefix_append _ _
  crossed a := by
    obtain ⟨left, hleft, hcrosses, -⟩ := h.passed a
    exact ⟨left, hleft, hcrosses⟩
  order := h.order
  handed := h.handed
  answered := h.answered
  all hquiet a := by
    have hwaiting : ∀ b, f.waiting b = [] := by
      intro b
      have hqueue := hquiet.router b
      rw [(h.router b).routerIn] at hqueue
      exact holding_empty (fun m => List.cons_ne_nil _ _) hqueue
    have hdealer : x.hub.waiting a = [] := by
      have hqueue := hquiet.dealer a
      rw [(h.hub.working.thread a).waiting] at hqueue
      exact holding_empty (fun m => List.cons_ne_nil _ _) hqueue
    have hto : f.toHub a = [] := List.map_eq_nil_iff.mp ((h.toHub a).symm.trans (hquiet.toHub a))
    have hsent : (f.taken a).filterMap Incoming.sent? = x.sent a := by
      rw [← h.sent a, hwaiting a, List.append_nil]
    obtain ⟨left, -, hcrosses, hall⟩ := h.passed a
    refine ⟨hsent, ?_, fun b => ?_⟩
    · rw [← hsent, ← hall hdealer hto]
      exact hcrosses
    · have hfrom : f.toBroker b = [] :=
        List.map_eq_nil_iff.mp ((h.toBroker b).symm.trans (hquiet.toBroker b))
      have hdown := h.downward b
      rw [hwaiting b, hfrom, List.append_nil, List.append_nil] at hdown
      rw [hdown]
      exact h.hub.quiet hquiet.hub a b

end Delivered

/-! ### Runs -/

theorem clusterSound_start (id : β → Str) (services : β → List Str) (now : Time) :
    ClusterSound id services (Cluster.start id services now) ClusterFlow.start where
  hub := sound_start id now
  offered _ hr := absurd hr List.not_mem_nil
  router _ := ⟨rfl, ⟨rfl, rfl, rfl⟩, rfl, rfl, fun _ hm => absurd hm List.not_mem_nil⟩
  toHub _ := rfl
  toBroker _ := rfl
  validUp _ _ hm := absurd hm List.not_mem_nil
  validDown _ _ hz := absurd hz List.not_mem_nil
  valid _ _ hm := absurd hm List.not_mem_nil
  sent _ := rfl
  upward _ := rfl
  downward _ := rfl
  handed _ := rfl
  answered _ := rfl

/-- **From the processes of one broker to the router of another.**  In every state of every run
of any number of brokers and their hub, each router has taken of what its processes have sent
the first, and of what came by the hub the first that each of the other routers has passed on
for it, once each, in order and unaltered but for the mark and the way back in the tag of a
request; it has given to the slots and published what it should for these, and nothing else.
What it has passed to the hub is on its way to another broker that has registered the service,
or to the broker it names, and with nothing on the way it is there. -/
theorem cluster_delivery (hids : Ids id) (hservices : ∀ b, interhubName ∉ services b)
    (time : β → Nat → Time) (now : Time) (es : List (ClusterStep β))
    (h : AllSteps (Cluster.step time) (fun x e => e.Valid id services x)
      (Cluster.start id services now) es) :
    ∀ x ∈ states (Cluster.step time) (Cluster.start id services now) es,
      ∃ taken passed, EndToEnd id services x taken passed := by
  have hinv : ∀ x ∈ states (Cluster.step time) (Cluster.start id services now) es,
      ∃ f, ClusterSound id services x f := by
    refine states_inv (fun x e hx he => ?_) es ⟨_, clusterSound_start id services now⟩ h
    obtain ⟨f, hf⟩ := hx
    obtain ⟨zs, hzs⟩ := clusterSound_step hids hservices hf he
    exact ⟨_, hzs⟩
  intro x hx
  obtain ⟨f, hf⟩ := hinv x hx
  exact ⟨_, _, hf.endToEnd⟩

end System

/-! ### A question to the other broker -/

namespace ClusterPsib

open SwitchPsib (regi tag registration)

deriving instance DecidableEq for DealerMsg

def services (b : Bool) : List Str := if b then [lit "PSIB"] else [lit "AHIF"]

def carried : MqTag := tag.setViaInterhub.setBroker (SwitchPsib.id false)

/-- A process of `AHIF` asks `PSIB` at the other broker, and is answered. -/
def steps : List (ClusterStep Bool) :=
  [.hub (.announce regi), .hub .proxyMain, .hub (.toSub false), .hub (.sub false),
    .send false (lit "AHIF") (.req (lit "PSIB") tag (lit "hi")), .router false, .toHub false,
    .toHub false, .hub (.interhub false), .hub (.proxy false), .hub (.toSub true),
    .hub (.toSub true), .hub (.sub true), .toBroker true, .router true,
    .send true (lit "PSIB") (.resInterhub carried.broker carried.svc carried.name (lit "ok")),
    .router true, .toHub true, .hub (.interhub true), .hub (.proxy true), .hub (.toSub false),
    .hub (.sub false), .toBroker false, .router false]

def run (n : Nat) : Cluster Bool :=
  (steps.take n).foldl (Cluster.step fun _ _ => 0) (Cluster.start SwitchPsib.id services 0)

/-- The request is behind its log line, and its service is known. -/
theorem read_request :
    AllReadFrom ((run 8).hub.thread false) false ((run 8).hub.waiting false) := by
  have hwaiting : (run 8).hub.waiting false
      = [.log (unroutableLog tag.setViaInterhub (lit "PSIB")),
        .req (lit "PSIB") tag.setViaInterhub (lit "hi")] := by
    decide +kernel
  rw [hwaiting]
  refine ⟨fun m hm => ?_, fun h => absurd h (by decide), by simp [DealerMsg.isLong]⟩
  simp only [List.mem_cons, List.not_mem_nil, or_false] at hm
  rcases hm with rfl | rfl
  · trivial
  · show (findSvcExistTree ((run 8).hub.thread false) (cstr (lit "PSIB"))).isSome = true
    decide +kernel

theorem read_response :
    AllReadFrom ((run 18).hub.thread true) false ((run 18).hub.waiting true) := by
  have hwaiting : (run 18).hub.waiting true
      = [.resInterhub carried.broker carried.svc carried.name (lit "ok")] := by
    decide +kernel
  rw [hwaiting]
  refine ⟨fun m hm => ?_, fun h => absurd h (by decide), List.pairwise_singleton _ _⟩
  rw [List.mem_singleton.mp hm]
  trivial

theorem offered : Offered SwitchPsib.id services regi := by
  intro b hb
  cases b with
  | false => exact absurd hb (by decide +kernel)
  | true => decide +kernel

/-- The conditions do not depend on the state, but where a thread reads its dealer. -/
theorem valid : AllSteps (Cluster.step fun _ _ => 0)
    (fun x e => e.Valid SwitchPsib.id services x) (Cluster.start SwitchPsib.id services 0)
    (steps.take 8 ++ (steps.take 18).drop 8 ++ steps.drop 18) := by
  have hreq : (ProcessMsg.req (lit "PSIB") tag (lit "hi")).Valid SwitchPsib.id :=
    ⟨⟨by decide, by decide, by decide⟩, by decide, by decide +kernel, by decide⟩
  have hres : (DealerMsg.resInterhub carried.broker carried.svc carried.name (lit "ok")).Valid
      SwitchPsib.id := by
    refine ⟨⟨by decide +kernel, by decide +kernel⟩, fun broker svc name body h => ?_⟩
    obtain ⟨rfl, rfl, rfl, rfl⟩ := DealerMsg.resInterhub.inj h
    exact ⟨by decide +kernel, by decide +kernel, false, by decide +kernel⟩
  refine (AllSteps.append ?_ ?_).append ?_
  · generalize Cluster.start SwitchPsib.id services 0 = x
    exact ⟨⟨registration, offered⟩, ⟨trivial, trivial⟩, ⟨trivial, trivial⟩, ⟨trivial, trivial⟩,
      hreq, trivial, trivial, trivial, trivial⟩
  · have hread := read_request
    rw [run] at hread
    revert hread
    generalize (steps.take 8).foldl _ _ = x
    exact fun hread => ⟨⟨hread, trivial⟩, ⟨trivial, trivial⟩, ⟨trivial, trivial⟩,
      ⟨trivial, trivial⟩, ⟨trivial, trivial⟩, trivial, trivial, hres, trivial, trivial, trivial⟩
  · have hread := read_response
    rw [run] at hread
    revert hread
    have hsplit : steps.take 8 ++ (steps.take 18).drop 8 = steps.take 18 := rfl
    rw [hsplit]
    generalize (steps.take 18).foldl _ _ = x
    exact fun hread => ⟨⟨hread, trivial⟩, ⟨trivial, trivial⟩, ⟨trivial, trivial⟩,
      ⟨trivial, trivial⟩, trivial, trivial, trivial⟩

end ClusterPsib

/-- The slot of `PSIB` gets the request with the way back in its tag, and the other broker
publishes the response under `AHIF`. -/
theorem cluster_delivery_psib :
    let x := ClusterPsib.steps.foldl (Cluster.step fun _ _ => 0)
      (Cluster.start SwitchPsib.id ClusterPsib.services 0)
    (∃ taken passed, EndToEnd SwitchPsib.id ClusterPsib.services x taken passed) ∧
      x.handed true = [[lit "PSIB", ClusterPsib.carried.mem, lit "hi"]] ∧
      (x.answered false).map (fun m => (m.headD [], m.getLast?))
        = [(lit "AHIF", some (lit "ok"))] := by
  intro x
  have hdelivered := cluster_delivery SwitchPsib.ids (by decide) (fun _ _ => 0) 0 _
    ClusterPsib.valid x (foldl_mem_states _ _)
  exact ⟨hdelivered, by decide +kernel, by decide +kernel⟩

end Brocoli
