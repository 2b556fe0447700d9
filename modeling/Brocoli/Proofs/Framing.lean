/-
Where the router stands when it turns to the next message.

A message is consumed by one iteration exactly when nothing stops its relay between
two frames.  Three things do.  The ROUTER may refuse the target of a request for
another reason than not knowing it, a request that has to go to the hub may have been
there already or find the hub out of reach, and so may a response that has to go
there.  `Clear` excludes them, message by message, in terms of the state the message
is met in; `router_framed_iff` says that this is all there is to it.
-/
import Brocoli.Router

namespace Brocoli

open CMem Multipart

/-! ### Well-formed messages -/

/-- The messages the ROUTER is meant to receive. -/
inductive RouterMsg where
  | req (id : Frame) (interhub : Bool) (target : Frame) (tag : MqTag) (body : Frame)
  | res (id svc name body : Frame)
  | resInterhub (id broker svc name body : Frame)
  | log (id text : Frame)
  | other (id ty : Frame) (rest : Msg)

namespace RouterMsg

def frames : RouterMsg → Msg
  | req id interhub target tag body =>
      [id, if interhub then mqReqInterhub else mqReq, target, tag.mem, body]
  | res id svc name body => [id, mqRes, svc, name, body]
  | resInterhub id broker svc name body => [id, mqResInterhub, broker, svc, name, body]
  | log id text => [id, mqLog, text]
  | other id ty rest => id :: ty :: rest

/-- The types `router_callback` knows. -/
def known : List Str := [mqReq, mqReqInterhub, mqRes, mqResInterhub, mqLog]

/-- Every frame is shorter than the buffer it is read into. -/
def Fits : RouterMsg → Prop
  | req id _ target _ body => id.length < 128 ∧ target.length < 128 ∧ body.length < maxBuffSize
  | res id svc name body =>
      id.length < 128 ∧ svc.length < maxBuffSize ∧ name.length < maxBuffSize ∧
        body.length < maxBuffSize
  | resInterhub id broker svc name body =>
      id.length < 128 ∧ broker.length < maxBuffSize ∧ svc.length < maxBuffSize ∧
        name.length < maxBuffSize ∧ body.length < maxBuffSize
  | log id text => id.length < 128 ∧ text.length < maxLogSize
  | other id ty rest =>
      id.length < 128 ∧ ty.length < 128 ∧ cstr ty ∉ known ∧ ∀ f ∈ rest, f.length < maxBuffSize

end RouterMsg

/-! ### When one message is consumed whole -/

/-- The hub's dealer takes the request that follows the log line: its answer is the one
after the answer to that line. -/
def HubTakes (o : Out) : Prop := (o.asked interhubName).route interhubName = none

/-- Nothing stops the relay of the message between two of its frames. -/
def Clear (ctx : RouterCtx) : RouterMsg → Prop
  | .req _ _ target tag _ =>
      match (settle ctx.routerOut target).route target with
      | none => True
      | some .EHOSTUNREACH =>
          ctx.interhub = true → tag.viaInterhub = false ∧ cstr target ≠ [] ∧
            HubTakes ((settle ctx.routerOut target).asked target)
      | some _ => False
  | .resInterhub .. => ctx.routerOut.route interhubName = none
  | _ => True

/-- The loop stands before the messages `ms`: the socket at their boundary, and no
message begun on the way out. -/
structure Before (ctx : RouterCtx) (ms : List RouterMsg) : Prop where
  routerIn : ctx.routerIn = In.holding (ms.map RouterMsg.frames)
  closed : ctx.routerOut.isOpen = false

/-- The log line costs one answer about the hub and leaves nothing open. -/
theorem sendUnroutableLog_fields {o : Out} {reach : Frame → Bool} (hk : o.kind = .router reach)
    (hclosed : o.isOpen = false) (log : Frame) :
    (sendUnroutableLog o log).kind = .router reach ∧
      (sendUnroutableLog o log).isOpen = false ∧
      (sendUnroutableLog o log).results = (o.asked interhubName).results := by
  unfold sendUnroutableLog
  cases hr : o.route interhubName with
  | some e =>
      rw [sendWhile_refused hr]
      exact ⟨hk, hclosed, rfl⟩
  | none =>
      rw [sendWhile_routed hk hr _ (by decide)]
      have hfree : ((o.asked interhubName).put ([interhubName, mqLog].map (⟨·, true⟩))).Free :=
        free_put_frames ((asked_kind o interhubName).trans hk) (by simp)
      simp only [send_free hfree]
      refine ⟨hk, ?_, rfl⟩
      rw [isOpen_put_one]

/-! ### The request that nobody here can take

`ctx` is the state in which `relay_req_to_interhub` is entered: the target is gone from
the socket, the tag and the body are still on it.
-/

section Interhub

variable {ctx : RouterCtx} {reach : Frame → Bool} {tag : MqTag} {body : Frame} {ms : List Msg}

/-- A request that came through the hub is dropped at its tag. -/
theorem relayReqToInterhub_looped
    (hin : ctx.routerIn = ⟨parts [tag.mem, body] ++ stream ms, true⟩)
    (htag : tag.viaInterhub = true) (host : Str) :
    relayReqToInterhub ctx host = { ctx with routerIn := ⟨parts [body] ++ stream ms, true⟩ } := by
  simp [relayReqToInterhub, hin, MqTag.recv_mem, htag]

/-- The request as it is offered to the hub: when all its frames but the body went. -/
theorem relayReqToInterhub_fresh
    (hin : ctx.routerIn = ⟨parts [tag.mem, body] ++ stream ms, true⟩)
    (htag : tag.viaInterhub = false) (host : Str) :
    relayReqToInterhub ctx host
      = let o := sendUnroutableLog ctx.routerOut (unroutableLog tag.setViaInterhub host)
        match o.sendWhile (0 < ·) [interhubName, mqReq, host, tag.setViaInterhub.mem] with
        | (true, o') =>
            let r := relaySndMore ⟨parts [body] ++ stream ms, true⟩ o' none
            { ctx with routerIn := r.src, routerOut := r.dst }
        | (false, o') =>
            { ctx with routerIn := ⟨parts [body] ++ stream ms, true⟩, routerOut := o' } := by
  simp only [relayReqToInterhub, hin, parts_cons_cons, List.cons_append, recv_cons,
    MqTag.recv_mem, htag]
  rfl

/-- The answer about the hub that decides on the request. -/
theorem route_after_log (hk : ctx.routerOut.kind = .router reach)
    (hclosed : ctx.routerOut.isOpen = false) (log : Frame) :
    (sendUnroutableLog ctx.routerOut log).route interhubName
      = (ctx.routerOut.asked interhubName).route interhubName := by
  obtain ⟨hk1, hc1, hr1⟩ := sendUnroutableLog_fields hk hclosed log
  refine route_congr ?_ ?_ hr1 _
  · rw [hk1, asked_kind, hk]
  · rw [hc1, asked_isOpen, hclosed]

/-- A request the hub takes is handed to it whole. -/
theorem relayReqToInterhub_taken
    (hin : ctx.routerIn = ⟨parts [tag.mem, body] ++ stream ms, true⟩)
    (hk : ctx.routerOut.kind = .router reach) (hclosed : ctx.routerOut.isOpen = false)
    (hbody : body.length ≤ maxBuffSize) (htag : tag.viaInterhub = false) {host : Str}
    (hhost : host ≠ []) (hhub : HubTakes ctx.routerOut) :
    ∃ o : Out, relayReqToInterhub ctx host = { ctx with
        routerIn := In.holding ms
        routerOut := o.put (parts [interhubName, mqReq, host, tag.setViaInterhub.mem, body]) } := by
  have htest := hubFrames_nonempty hhost tag.setViaInterhub
  set o1 := sendUnroutableLog ctx.routerOut (unroutableLog tag.setViaInterhub host) with ho1
  have hk1 : o1.kind = .router reach := (sendUnroutableLog_fields hk hclosed _).1
  have hroute : o1.route interhubName = none := (route_after_log hk hclosed _).trans hhub
  have hfree : ((o1.asked interhubName).put
      ([interhubName, mqReq, host, tag.setViaInterhub.mem].map (⟨·, true⟩))).Free :=
    free_put_frames ((asked_kind o1 interhubName).trans hk1) (by simp)
  have hrelay := relaySndMore_free (m := [body]) (by simp) (by simpa [Relayable] using hbody)
    hfree (stream ms) true none
  refine ⟨o1.asked interhubName, ?_⟩
  rw [relayReqToInterhub_fresh hin htag]
  simp only [← ho1]
  rw [sendWhile_routed hk1 hroute _ htest]
  simp only [hrelay, put_put]
  rfl

/-- A request the hub does not take leaves its body on the socket. -/
theorem relayReqToInterhub_lost
    (hin : ctx.routerIn = ⟨parts [tag.mem, body] ++ stream ms, true⟩)
    (hk : ctx.routerOut.kind = .router reach) (hclosed : ctx.routerOut.isOpen = false)
    (htag : tag.viaInterhub = false) {host : Str}
    (h : host = [] ∨ ¬ HubTakes ctx.routerOut) :
    (relayReqToInterhub ctx host).routerIn = ⟨parts [body] ++ stream ms, true⟩ := by
  rw [relayReqToInterhub_fresh hin htag]
  set o1 := sendUnroutableLog ctx.routerOut (unroutableLog tag.setViaInterhub host) with ho1
  rcases hs : o1.sendWhile (0 < ·) [interhubName, mqReq, host, tag.setViaInterhub.mem] with ⟨b, o2⟩
  cases b with
  | false => simp only [hs]
  | true =>
      exfalso
      rcases h with hhost | hhub
      · have := (sendWhile_ok hs).1 host (by simp)
        simp [hhost] at this
      · cases hr : o1.route interhubName with
        | none => exact hhub ((route_after_log hk hclosed _).symm.trans hr)
        | some e =>
            rw [sendWhile_refused hr] at hs
            simp at hs

/-- **A request for the hub is consumed whole exactly when the hub takes it.** -/
theorem relayReqToInterhub_framed
    (hin : ctx.routerIn = ⟨parts [tag.mem, body] ++ stream ms, true⟩)
    (hk : ctx.routerOut.kind = .router reach) (hclosed : ctx.routerOut.isOpen = false)
    (hbody : body.length ≤ maxBuffSize) (host : Str) :
    let after := relayReqToInterhub ctx host
    (tag.viaInterhub = false ∧ host ≠ [] ∧ HubTakes ctx.routerOut →
        after.routerIn = In.holding ms ∧ after.routerOut.isOpen = false) ∧
      (¬ (tag.viaInterhub = false ∧ host ≠ [] ∧ HubTakes ctx.routerOut) →
        after.routerIn ≠ In.holding ms) := by
  refine ⟨fun ⟨htag, hhost, hhub⟩ => ?_, fun hnot => ?_⟩
  · obtain ⟨o, heq⟩ := relayReqToInterhub_taken hin hk hclosed hbody htag hhost hhub
    rw [heq]
    exact ⟨rfl, isOpen_put_parts _ (by simp)⟩
  · cases htag : tag.viaInterhub with
    | true =>
        rw [relayReqToInterhub_looped hin htag]
        exact ne_holding_of_parts (by simp) _ _
    | false =>
        rw [relayReqToInterhub_lost hin hk hclosed htag (by tauto)]
        exact ne_holding_of_parts (by simp) _ _

end Interhub

/-! ### One iteration -/

/-- What an iteration leaves of a message: nothing when it is clear, frames of its own
otherwise. -/
structure Leaves (ctx : RouterCtx) (m : RouterMsg) (ms : List RouterMsg) (after : RouterCtx) :
    Prop where
  whole : Clear ctx m → Before after ms
  torn : ¬ Clear ctx m → after.routerIn ≠ In.holding (ms.map RouterMsg.frames)

section Body

variable {ctx : RouterCtx} {ms : List RouterMsg}

/-- What the hub leaves of a request for a target that is not known. -/
theorem relayReqToInterhub_leaves {reach : Frame → Bool}
    (hk : ctx.routerOut.kind = .router reach) (hclosed : ctx.routerOut.isOpen = false)
    (hhub : ctx.interhub = true) {id target body : Frame} {interhub : Bool} {tag : MqTag}
    (hbody : body.length ≤ maxBuffSize)
    (hr : (settle ctx.routerOut target).route target = some .EHOSTUNREACH) :
    Leaves ctx (.req id interhub target tag body) ms (relayReqToInterhub
      ⟨⟨parts [tag.mem, body] ++ stream (ms.map RouterMsg.frames), true⟩,
        (settle ctx.routerOut target).asked target, ctx.zmqPub, true⟩ (cstr target)) := by
  set o := (settle ctx.routerOut target).asked target with ho
  have hclear : Clear ctx (.req id interhub target tag body) ↔
      tag.viaInterhub = false ∧ cstr target ≠ [] ∧ HubTakes o := by
    simp [Clear, hr, hhub, ho]
  set c : RouterCtx := ⟨⟨parts [tag.mem, body] ++ stream (ms.map RouterMsg.frames), true⟩,
    o, ctx.zmqPub, true⟩ with hc
  have hin : c.routerIn
    = ⟨parts [tag.mem, body] ++ stream (ms.map RouterMsg.frames), true⟩ := rfl
  have hframed := relayReqToInterhub_framed hin (by simpa [hc, ho] using hk)
    (by simpa [hc, ho] using hclosed) hbody (cstr target)
  refine ⟨fun h => ?_, fun h => hframed.2 (fun hc => h (hclear.mpr hc))⟩
  obtain ⟨hafter, hopen⟩ := hframed.1 (hclear.mp h)
  exact ⟨hafter, hopen⟩

/-- A request whose target is taken, or not known, or refused. -/
theorem routerBody_req (hsock : RouterSockets ctx) (hclosed : ctx.routerOut.isOpen = false)
    {id target body : Frame} {interhub : Bool} {tag : MqTag}
    (hfits : (RouterMsg.req id interhub target tag body).Fits) :
    Leaves ctx (.req id interhub target tag body) ms (routerBody { ctx with
      routerIn := ⟨parts [target, tag.mem, body] ++ stream (ms.map RouterMsg.frames), true⟩ }
      (cstr (if interhub then mqReqInterhub else mqReq))) := by
  obtain ⟨⟨reach, hk⟩, hpub⟩ := hsock
  obtain ⟨-, htarget, hbody⟩ := hfits
  have hrelayable := relayable_tagged tag htarget (Nat.le_of_lt hbody)
  have hrest : [tag.mem, body] ≠ [] := by simp
  have hty : cstr (if interhub then mqReqInterhub else mqReq) = mqReqInterhub ∨
      cstr (if interhub then mqReqInterhub else mqReq) = mqReq := by
    cases interhub <;> decide
  cases hr : (settle ctx.routerOut target).route target with
  | none =>
      rw [routerBody_routed hty hrest hrelayable hk hr]
      refine ⟨fun _ => ⟨rfl, ?_⟩, fun hclear => ?_⟩
      · exact isOpen_put_parts _ (by simp)
      · simp [Clear, hr] at hclear
  | some e =>
      by_cases he : e = .EHOSTUNREACH
      · subst he
        rw [routerBody_unreachable hty hrest htarget hr]
        cases hhub : ctx.interhub with
        | false =>
            refine ⟨fun _ => ⟨drain_rest [tag.mem, body] _, ?_⟩, fun hclear => ?_⟩
            · simpa using hclosed
            · simp [Clear, hr, hhub] at hclear
        | true =>
            rw [if_pos rfl]
            exact relayReqToInterhub_leaves hk hclosed hhub (Nat.le_of_lt hbody) hr
      · rw [routerBody_refused hty hrest htarget hr he]
        refine ⟨fun hclear => ?_, fun _ => ne_holding_of_parts (by simp) _ _⟩
        simp only [Clear, hr] at hclear

/-- A response for a service here: a publisher takes all of it. -/
theorem routerBody_res (hsock : RouterSockets ctx) (hclosed : ctx.routerOut.isOpen = false)
    {id svc name body : Frame} (hfits : (RouterMsg.res id svc name body).Fits) :
    Leaves ctx (.res id svc name body) ms (routerBody { ctx with
      routerIn := ⟨parts [svc, name, body] ++ stream (ms.map RouterMsg.frames), true⟩ }
      (cstr mqRes)) := by
  obtain ⟨-, hsvc, hname, hbody⟩ := hfits
  have hfree : ctx.zmqPub.Free := by simp [Out.Free, hsock.pub]
  have hrelayable : Relayable [svc, name, body] := by
    intro f hf
    simp only [List.mem_cons, List.not_mem_nil, or_false] at hf
    rcases hf with rfl | rfl | rfl <;> omega
  unfold routerBody
  rw [if_neg (by decide), if_neg (by decide), if_pos (by decide)]
  simp only [relaySndMore_free (List.cons_ne_nil _ _) hrelayable hfree]
  refine ⟨fun _ => ⟨rfl, hclosed⟩, fun hclear => ?_⟩
  simp [Clear] at hclear

/-- A response for another broker: consumed exactly when the hub's dealer takes it. -/
theorem routerBody_resInterhub (hsock : RouterSockets ctx) {id broker svc name body : Frame}
    (hfits : (RouterMsg.resInterhub id broker svc name body).Fits) :
    Leaves ctx (.resInterhub id broker svc name body) ms (routerBody { ctx with
      routerIn := ⟨parts [broker, svc, name, body] ++ stream (ms.map RouterMsg.frames), true⟩ }
      (cstr mqResInterhub)) := by
  obtain ⟨⟨reach, hk⟩, -⟩ := hsock
  obtain ⟨-, hbroker, hsvc, hname, hbody⟩ := hfits
  have hrelayable : Relayable [broker, svc, name, body] := by
    intro f hf
    simp only [List.mem_cons, List.not_mem_nil, or_false] at hf
    rcases hf with rfl | rfl | rfl | rfl <;> omega
  unfold routerBody relayResToInterhub
  rw [if_pos (by decide)]
  cases hr : ctx.routerOut.route interhubName with
  | none =>
      have hfree : ((ctx.routerOut.asked interhubName).put
          ([interhubName, mqResInterhub].map (⟨·, true⟩))).Free :=
        free_put_frames ((asked_kind _ _).trans hk) (by simp)
      have hsend : ctx.routerOut.sendWhile (0 < ·) [interhubName, mqResInterhub]
          = (true, (ctx.routerOut.asked interhubName).put
              ([interhubName, mqResInterhub].map (⟨·, true⟩))) :=
        sendWhile_routed hk hr _ (by decide)
      simp only [hsend, relaySndMore_free (List.cons_ne_nil _ _) hrelayable hfree]
      refine ⟨fun _ => ⟨rfl, isOpen_put_parts _ (by simp)⟩, fun hclear => ?_⟩
      exact absurd hr hclear
  | some e =>
      simp only [sendWhile_refused hr]
      refine ⟨fun hclear => ?_, fun _ => ne_holding_of_parts (by simp) _ _⟩
      simp [Clear, hr] at hclear

/-- A log line is read and printed. -/
theorem routerBody_log (hclosed : ctx.routerOut.isOpen = false) {id text : Frame} :
    Leaves ctx (.log id text) ms (routerBody { ctx with
      routerIn := ⟨parts [text] ++ stream (ms.map RouterMsg.frames), true⟩ } (cstr mqLog)) := by
  unfold routerBody
  rw [if_neg (by decide), if_neg (by decide), if_neg (by decide), if_pos (by decide)]
  refine ⟨fun _ => ⟨rfl, hclosed⟩, fun hclear => ?_⟩
  simp [Clear] at hclear

/-- A message of no known type is read to its end. -/
theorem routerBody_other (hclosed : ctx.routerOut.isOpen = false) {id ty : Frame} {rest : Msg}
    (hfits : (RouterMsg.other id ty rest).Fits) :
    Leaves ctx (.other id ty rest) ms (routerBody { ctx with
      routerIn := ⟨parts rest ++ stream (ms.map RouterMsg.frames), !rest.isEmpty⟩ }
      (cstr ty)) := by
  obtain ⟨-, -, hty, -⟩ := hfits
  simp only [RouterMsg.known, List.mem_cons, List.not_mem_nil, or_false, not_or] at hty
  obtain ⟨hreq, hreqHub, hres, hresHub, hlog⟩ := hty
  unfold routerBody
  rw [if_neg hresHub, if_neg (by tauto), if_neg hres, if_neg hlog]
  refine ⟨fun _ => ⟨drain_rest rest _, hclosed⟩, fun hclear => ?_⟩
  simp [Clear] at hclear

end Body

/-- **An iteration consumes a clear message whole, and leaves frames of any other on the
socket.** -/
theorem routerIter_framed {s : RouterLoop} {m : RouterMsg} {ms : List RouterMsg}
    (hsock : RouterSockets s.ctx) (hbefore : Before s.ctx (m :: ms)) (hfits : m.Fits) :
    ∃ s', routerIter s = (true, s') ∧ RouterSockets s'.ctx ∧ Leaves s.ctx m ms s'.ctx := by
  obtain ⟨hin, hclosed⟩ := hbefore
  rw [List.map_cons] at hin
  have hnext := routerIter_sockets hsock
  cases m with
  | req id interhub target tag body =>
      have hty : (if interhub then mqReqInterhub else mqReq).length < 128 := by
        cases interhub <;> decide
      obtain ⟨fm, mt, heq⟩ := routerIter_message hin hty
      rw [heq] at hnext
      exact ⟨_, heq, hnext, routerBody_req hsock hclosed hfits⟩
  | res id svc name body =>
      obtain ⟨fm, mt, heq⟩ := routerIter_message hin (by decide)
      rw [heq] at hnext
      exact ⟨_, heq, hnext, routerBody_res hsock hclosed hfits⟩
  | resInterhub id broker svc name body =>
      obtain ⟨fm, mt, heq⟩ := routerIter_message hin (by decide)
      rw [heq] at hnext
      exact ⟨_, heq, hnext, routerBody_resInterhub hsock hfits⟩
  | log id text =>
      obtain ⟨fm, mt, heq⟩ := routerIter_message hin (by decide)
      rw [heq] at hnext
      exact ⟨_, heq, hnext, routerBody_log hclosed⟩
  | other id ty rest =>
      obtain ⟨fm, mt, heq⟩ := routerIter_message hin hfits.2.1
      rw [heq] at hnext
      exact ⟨_, heq, hnext, routerBody_other hclosed hfits⟩

/-! ### A callback run -/

/-- Every time the loop condition is evaluated, as many messages are gone as iterations
were made, no frame of one is left and none has been begun on the way out. -/
def RouterFramed (n : Nat) (s : RouterLoop) (ms : List RouterMsg) : Prop :=
  (routerHeads n s).length = min n ms.length + 1 ∧
    ∀ k s', (routerHeads n s)[k]? = some s' → Before s'.ctx (ms.drop k)

/-- Every message is clear in the state it is met in. -/
def AllClear (n : Nat) (s : RouterLoop) (ms : List RouterMsg) : Prop :=
  ∀ k s' m, k < n → (routerHeads n s)[k]? = some s' → ms[k]? = some m → Clear s'.ctx m

theorem routerHeads_zero (n : Nat) (s : RouterLoop) : (routerHeads n s)[0]? = some s := by
  cases n <;> rfl

/-- After the last iteration, and with no message there, one state is left to look at. -/
theorem routerFramed_single {n : Nat} {s : RouterLoop} {ms : List RouterMsg}
    (hheads : routerHeads n s = [s]) (hmin : min n ms.length = 0) (hbefore : Before s.ctx ms) :
    RouterFramed n s ms := by
  refine ⟨by simp [hheads, hmin], fun k s' hk => ?_⟩
  rw [hheads] at hk
  rcases k with _ | k
  · simp only [List.getElem?_cons_zero, Option.some.injEq] at hk
    subst hk
    simpa using hbefore
  · simp at hk

/-- A message that is gone after the first iteration is no matter for the others. -/
theorem routerFramed_cons {n : Nat} {s s' : RouterLoop} {m : RouterMsg} {ms : List RouterMsg}
    (hheads : routerHeads (n + 1) s = s :: routerHeads n s') (hbefore : Before s.ctx (m :: ms)) :
    RouterFramed (n + 1) s (m :: ms) ↔ RouterFramed n s' ms := by
  unfold RouterFramed
  rw [hheads]
  constructor
  · rintro ⟨hlen, h⟩
    refine ⟨?_, fun k x hk => h (k + 1) x (by simpa using hk)⟩
    simp only [List.length_cons] at hlen
    omega
  · rintro ⟨hlen, h⟩
    refine ⟨?_, fun k x hk => ?_⟩
    · simp only [List.length_cons]
      omega
    · rcases k with _ | k
      · simp only [List.getElem?_cons_zero, Option.some.injEq] at hk
        subst hk
        exact hbefore
      · exact h k x (by simpa using hk)

theorem allClear_cons {n : Nat} {s s' : RouterLoop} {m : RouterMsg} {ms : List RouterMsg}
    (hheads : routerHeads (n + 1) s = s :: routerHeads n s') (hclear : Clear s.ctx m) :
    AllClear (n + 1) s (m :: ms) ↔ AllClear n s' ms := by
  unfold AllClear
  rw [hheads]
  constructor
  · intro h k x y hk hx hy
    exact h (k + 1) x y (by omega) (by simpa using hx) (by simpa using hy)
  · intro h k x y hk hx hy
    rcases k with _ | k
    · simp only [List.getElem?_cons_zero, Option.some.injEq] at hx hy
      subst hx hy
      exact hclear
    · exact h k x y (by omega) (by simpa using hx) (by simpa using hy)

/-- The induction is on the iterations left; a message that is not clear shows at the
next evaluation of the loop condition. -/
theorem routerHeads_framed_iff : ∀ (n : Nat) (ms : List RouterMsg) (s : RouterLoop),
    RouterSockets s.ctx → Before s.ctx ms → (∀ m ∈ ms, m.Fits) →
      (RouterFramed n s ms ↔ AllClear n s ms) := by
  intro n
  induction n with
  | zero =>
      intro ms s _ hbefore _
      exact iff_of_true (routerFramed_single rfl (Nat.zero_min _) hbefore)
        fun k s' m hk => absurd hk (Nat.not_lt_zero k)
  | succ n ih =>
      intro ms s hsock hbefore hfits
      cases ms with
      | nil =>
          have hempty := routerIter_empty (s := s) (by simpa using hbefore.routerIn)
          have hheads : routerHeads (n + 1) s = [s] := by rw [routerHeads, hempty]
          exact iff_of_true (routerFramed_single hheads (by simp) hbefore)
            fun k s' m _ _ hm => absurd hm (by simp)
      | cons m ms =>
          obtain ⟨s', hiter, hsock', hleaves⟩ := routerIter_framed hsock hbefore (hfits m (by simp))
          have hheads : routerHeads (n + 1) s = s :: routerHeads n s' := by rw [routerHeads, hiter]
          by_cases hclear : Clear s.ctx m
          · rw [routerFramed_cons hheads hbefore, allClear_cons hheads hclear]
            exact ih ms s' hsock' (hleaves.whole hclear) fun x hx => hfits x (by simp [hx])
          · refine ⟨fun ⟨_, h⟩ => ?_, fun h => ?_⟩
            · have hnext := h 1 s' (by rw [hheads]; simpa using routerHeads_zero n s')
              exact absurd (by simpa using hnext.routerIn) (hleaves.torn hclear)
            · exact absurd (h 0 s m (by omega) (routerHeads_zero _ _) (by simp)) hclear

/-- The router thread with messages waiting: which peers it can reach, what it will
answer about them, and whether there is a hub. -/
def routerWaiting (reach : Frame → Bool) (results : List (Option Errno)) (interhub : Bool)
    (ms : List RouterMsg) : RouterLoop :=
  routerEnter ⟨In.holding (ms.map RouterMsg.frames), ⟨.router reach, [], results⟩,
    ⟨.pub, [], []⟩, interhub⟩

/--
**The router stays at message boundaries exactly as long as every message is clear.**

Whatever peers are reachable, whatever the sends answer and whether or not there is a
hub: each iteration of the callback consumes exactly one message, if and only if no
message meets a refusal between two of its frames.
-/
theorem router_framed_iff (reach : Frame → Bool) (results : List (Option Errno)) (interhub : Bool)
    (ms : List RouterMsg) (hfits : ∀ m ∈ ms, m.Fits) :
    RouterFramed 1000 (routerWaiting reach results interhub ms) ms ↔
      AllClear 1000 (routerWaiting reach results interhub ms) ms :=
  routerHeads_framed_iff 1000 ms _ ⟨⟨reach, rfl⟩, rfl⟩ ⟨rfl, rfl⟩ hfits

/-- A request of `AHIF` for `PSIB`. -/
def reqPsib (body : Str) : RouterMsg := .req (lit "AHIF") false (lit "PSIB") MqTag.zero body

/-- Two such requests wait, which only the hub can take. -/
def byHub : RouterLoop :=
  routerWaiting (· == interhubName) [] true [reqPsib (lit "one"), reqPsib (lit "two")]

/-- Two requests for a service of another broker, which the hub's dealer takes. -/
theorem router_framed_by_hub :
    RouterFramed 1000 byHub [reqPsib (lit "one"), reqPsib (lit "two")] := by
  have hfits : ∀ m ∈ [reqPsib (lit "one"), reqPsib (lit "two")], m.Fits := by
    intro m hm
    simp only [List.mem_cons, List.not_mem_nil, or_false] at hm
    rcases hm with rfl | rfl <;> exact ⟨by decide, by decide, by decide⟩
  -- the loop meets the second as it met the first: no route to the service, and one to the hub
  have hout : (routerHeads 1000 byHub)[1]?.map (fun s =>
      ((settle s.ctx.routerOut (lit "PSIB")).route (lit "PSIB"),
        (((settle s.ctx.routerOut (lit "PSIB")).asked (lit "PSIB")).asked interhubName).route
          interhubName)) = some (some .EHOSTUNREACH, none) := by
    decide +kernel
  refine (router_framed_iff (· == interhubName) [] true _ hfits).mpr fun k s' m _ hs hm => ?_
  rcases k with _ | _ | k
  · simp only [List.getElem?_cons_zero, Option.some.injEq] at hm
    rw [routerHeads_zero, Option.some.injEq] at hs
    subst hm hs
    exact fun _ => ⟨by decide, by decide, rfl⟩
  · simp only [Nat.zero_add, List.getElem?_cons_succ, List.getElem?_cons_zero,
      Option.some.injEq] at hm
    have hat : (routerHeads 1000 byHub)[1]? = some s' := hs
    rw [hat, Option.map_some, Option.some.injEq, Prod.mk.injEq] at hout
    obtain ⟨hroute, htakes⟩ := hout
    subst hm
    simp only [reqPsib, Clear, hroute]
    exact fun _ => ⟨by decide, by decide, htakes⟩
  · simp at hm

/-- Two requests to a service whose queue is full: the tag and the body of the first are
still there when the loop turns to the second. -/
theorem router_unframed :
    ¬ RouterFramed 1000 (routerWaiting (fun _ => true) [some .EAGAIN] false
        [.req (lit "AHIF") false (lit "PSIB") MqTag.zero (lit "one"),
          .req (lit "AHIF") false (lit "PSIB") MqTag.zero (lit "two")])
      [.req (lit "AHIF") false (lit "PSIB") MqTag.zero (lit "one"),
        .req (lit "AHIF") false (lit "PSIB") MqTag.zero (lit "two")] := by
  intro ⟨_, h⟩
  have hleft : ((routerHeads 1000 (routerWaiting (fun _ => true) [some .EAGAIN] false
      [.req (lit "AHIF") false (lit "PSIB") MqTag.zero (lit "one"),
        .req (lit "AHIF") false (lit "PSIB") MqTag.zero (lit "two")]))[1]?.map
      fun s => s.ctx.routerIn.queue.length) = some 7 := by decide +kernel
  obtain ⟨s', hs', hlen⟩ := Option.map_eq_some_iff.mp hleft
  rw [(h 1 s' hs').routerIn] at hlen
  exact absurd hlen (by decide)

end Brocoli
