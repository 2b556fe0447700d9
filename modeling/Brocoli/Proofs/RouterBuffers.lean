/-
The arrays of the router thread and of the relays, and what peers can put into them.

`zmq_recv` stores what fits and returns the length of the whole frame.  That length is then
used as an index, for the NUL behind an identity, a type or an unroutable name, and as the
length of the next send.  The functions are written out here a second time with these
accesses; nothing else differs.

Which frames do harm depends on the way they take.  The identity and the type go into arrays
of 128 bytes, every frame that is relayed through one of `MAX_BUFF_SIZE`, and a name that
cannot be routed from there into one of 128 and into a log line.
-/
import Brocoli.Router
import Brocoli.Lib.Bounds

namespace Brocoli

open CMem Multipart Bounds Traced

/-! ### The functions with their accesses -/

/-- `buffer[recv_byte] = '\0'` and `sprintf(svc_host, "%s", buffer)` -/
def copySvcHost (f : Frame) : Option (List Byte) → Traced (Option (List Byte))
  | none => return none
  | some mem => do
      access (f.length + 1) maxBuffSize
      access ((cstr (buffered f)).length + 1) mem.length
      return some (store mem 0 (cstr (buffered f) ++ [0]))

/-- The loop of `relay_snd_more`. -/
def relayPartsTraced (more : Bool) (dst : Out) (svcHost : Option (List Byte)) :
    List Part → Traced Relayed
  | [] => return ⟨none, ⟨[], more⟩, dst, svcHost⟩
  | p :: q => do
      access (min p.bytes.length maxBuffSize) maxBuffSize
      -- `recv_byte` is the length of the send
      access p.bytes.length maxBuffSize
      match sendRetry dst (buffered p.bytes) p.more with
      | (.error e, dst') => do
          let host ← if e = .EHOSTUNREACH then copySvcHost p.bytes svcHost else pure svcHost
          return ⟨some e, ⟨q, p.more⟩, dst', host⟩
      | (.ok _, dst') =>
          if p.more then relayPartsTraced p.more dst' svcHost q
          else return ⟨none, ⟨q, p.more⟩, dst', svcHost⟩

def relaySndMoreTraced (src : In) (dst : Out) (svcHost : Option (List Byte)) : Traced Relayed :=
  relayPartsTraced src.more dst svcHost src.queue

/-- The loop of `mq_relay_callback`. -/
def relayLoopTraced : Nat → In → Out → Traced (In × Out)
  | 0, src, dst => return (src, dst)
  | n + 1, src, dst =>
      match src.recv with
      | none => return (src, dst)
      | some (f, src') => do
          access (min f.length maxBuffSize) maxBuffSize
          access f.length maxBuffSize
          relayLoopTraced n src' (dst.send (buffered f) src'.more).2

def mqRelayCallbackTraced (src : In) (dst : Out) : Traced (In × Out) := relayLoopTraced 1000 src dst

/-- What `sprintf` prints into `log_buffer`.  The service is printed up to the first NUL from
its place in the tag on, in the tag or in what is behind it in memory. -/
def printedLog (stack : List Byte) (fromTag : MqTag) (svcHost : Str) : Frame :=
  lit "BROKER SAY] hey~! from [" ++ cstr (fromTag.mem.drop 49 ++ stack) ++ lit "] to [" ++ svcHost
    ++ lit "] un-routable, send it to you with label [" ++ interhubName ++ lit "]"

def relayReqToInterhubTraced (stack : List Byte) (ctx : RouterCtx) (svcHost : Str) :
    Traced RouterCtx :=
  match ctx.routerIn.recv with
  | none => return ctx
  | some (f, src) => do
      access (min f.length 121) 121
      let fromTag := MqTag.zero.recv f
      if fromTag.viaInterhub then return { ctx with routerIn := src }
      else
        let fromTag := fromTag.setViaInterhub
        access ((printedLog stack fromTag svcHost).length + 1) maxLogSize
        -- the strings in the two arrays, and the tag, are what is sent
        access (printedLog stack fromTag svcHost).length maxLogSize
        access svcHost.length 128
        access fromTag.mem.length 121
        let o := sendUnroutableLog ctx.routerOut (unroutableLog fromTag svcHost)
        match o.sendWhile (0 < ·) [interhubName, mqReq, svcHost, fromTag.mem] with
        | (true, o') => do
            let r ← relaySndMoreTraced src o' none
            return { ctx with routerIn := r.src, routerOut := r.dst }
        | (false, o') => return { ctx with routerIn := src, routerOut := o' }

def relayResToInterhubTraced (ctx : RouterCtx) : Traced RouterCtx :=
  match ctx.routerOut.sendWhile (0 < ·) [interhubName, mqResInterhub] with
  | (true, o) => do
      let r ← relaySndMoreTraced ctx.routerIn o none
      return { ctx with routerIn := r.src, routerOut := r.dst }
  | (false, o) => return { ctx with routerOut := o }

def afterRelayTraced (stack : List Byte) (ctx : RouterCtx) (rc : Option Errno)
    (svcHost : Option (List Byte)) : Traced RouterCtx :=
  if rc = some .EHOSTUNREACH then
    if ctx.interhub then relayReqToInterhubTraced stack ctx (cstr (svcHost.getD []))
    else return { ctx with routerIn := drainLeftPartMessage ctx.routerIn }
  else return ctx

/-- The dispatch of `router_callback`. -/
def routerBodyTraced (stack : List Byte) (ctx : RouterCtx) (msgType : Str) : Traced RouterCtx :=
  if msgType = mqResInterhub then relayResToInterhubTraced ctx
  else if msgType = mqReqInterhub ∨ msgType = mqReq then do
    let r ← relaySndMoreTraced ctx.routerIn ctx.routerOut (some (zeros 128))
    afterRelayTraced stack { ctx with routerIn := r.src, routerOut := r.dst } r.rc r.svcHost
  else if msgType = mqRes then do
    let r ← relaySndMoreTraced ctx.routerIn ctx.zmqPub (some (zeros 128))
    afterRelayTraced stack { ctx with routerIn := r.src, zmqPub := r.dst } r.rc r.svcHost
  else if msgType = mqLog then
    match ctx.routerIn.recv with
    | none => return ctx
    | some (f, src) => do
        access (min f.length maxLogSize) maxLogSize
        return { ctx with routerIn := src }
  else return { ctx with routerIn := drainLeftPartMessage ctx.routerIn }

def routerIterTraced (stack : List Byte) (s : RouterLoop) : Traced (Bool × RouterLoop) :=
  match s.ctx.routerIn.recv with
  | none => return (false, s)
  | some (f, src) => do
      access (min f.length 128) 128
      match src.recv with
      | none =>
          return (false, { s with
            ctx := { s.ctx with routerIn := src }
            fromMsg := s.fromMsg.recv f })
      | some (g, src') => do
          access (min g.length 128) 128
          access (f.length + 1) 128
          access (g.length + 1) 128
          let msgType := (s.msgType.recv g).nulAt g.length
          let ctx ← routerBodyTraced stack { s.ctx with routerIn := src' } msgType.str
          return (true, {
            ctx := ctx
            fromMsg := (s.fromMsg.recv f).nulAt f.length
            msgType := msgType })

def routerLoopTraced (stack : List Byte) : Nat → RouterLoop → Traced RouterLoop
  | 0, s => return s
  | n + 1, s => do
      match ← routerIterTraced stack s with
      | (true, s') => routerLoopTraced stack n s'
      | (false, s') => return s'

def routerCallbackTraced (stack : List Byte) (ctx : RouterCtx) : Traced RouterCtx := do
  let s ← routerLoopTraced stack 1000 (routerEnter ctx)
  return s.ctx

/-! ### The accesses change nothing -/

theorem copySvcHost_val (f : Frame) (svcHost : Option (List Byte)) :
    (copySvcHost f svcHost).val
      = svcHost.map fun mem => store mem 0 (cstr (buffered f) ++ [0]) := by
  cases svcHost <;> rfl

theorem relayPartsTraced_val : ∀ (q : List Part) (more : Bool) (dst : Out)
    (svcHost : Option (List Byte)),
    (relayPartsTraced more dst svcHost q).val = relayParts more dst svcHost q := by
  intro q
  induction q with
  | nil => intro more dst svcHost; rfl
  | cons p q ih =>
      intro more dst svcHost
      rw [relayPartsTraced, relayParts, val_bind, val_bind]
      rcases sendRetry dst (buffered p.bytes) p.more with ⟨e | n, dst'⟩
      · simp only [val_bind, val_ite, copySvcHost_val, val_pure]
        split <;> rfl
      · simp only [val_ite, ih, val_pure]

@[simp] theorem relaySndMoreTraced_val (src : In) (dst : Out) (svcHost : Option (List Byte)) :
    (relaySndMoreTraced src dst svcHost).val = relaySndMore src dst svcHost :=
  relayPartsTraced_val _ _ _ _

theorem relayLoopTraced_val : ∀ (n : Nat) (src : In) (dst : Out),
    (relayLoopTraced n src dst).val = relayLoop n src dst := by
  intro n
  induction n with
  | zero => intro src dst; rfl
  | succ n ih =>
      intro src dst
      rw [relayLoopTraced, relayLoop]
      cases src.recv with
      | none => rfl
      | some r => simp only [val_bind, ih]

theorem mqRelayCallbackTraced_val (src : In) (dst : Out) :
    (mqRelayCallbackTraced src dst).val = mqRelayCallback src dst := relayLoopTraced_val _ _ _

theorem relayReqToInterhubTraced_val (stack : List Byte) (ctx : RouterCtx) (svcHost : Str) :
    (relayReqToInterhubTraced stack ctx svcHost).val = relayReqToInterhub ctx svcHost := by
  unfold relayReqToInterhubTraced relayReqToInterhub
  cases ctx.routerIn.recv with
  | none => rfl
  | some r =>
      simp only [val_bind, val_ite, val_pure]
      by_cases hvia : (MqTag.zero.recv r.1).viaInterhub = true
      · simp only [if_pos hvia]
      · simp only [if_neg hvia]
        generalize (sendUnroutableLog ctx.routerOut _).sendWhile _ _ = answer
        rcases answer with ⟨_ | _, o⟩
        · rfl
        · simp only [val_bind, val_pure, relaySndMoreTraced_val]

theorem relayResToInterhubTraced_val (ctx : RouterCtx) :
    (relayResToInterhubTraced ctx).val = relayResToInterhub ctx := by
  unfold relayResToInterhubTraced relayResToInterhub
  generalize ctx.routerOut.sendWhile _ _ = answer
  rcases answer with ⟨_ | _, o⟩
  · rfl
  · simp only [val_bind, val_pure, relaySndMoreTraced_val]

theorem afterRelayTraced_val (stack : List Byte) (ctx : RouterCtx) (rc : Option Errno)
    (svcHost : Option (List Byte)) :
    (afterRelayTraced stack ctx rc svcHost).val = afterRelay ctx rc svcHost := by
  simp only [afterRelayTraced, afterRelay, val_ite, val_pure, relayReqToInterhubTraced_val]

theorem routerBodyTraced_val (stack : List Byte) (ctx : RouterCtx) (msgType : Str) :
    (routerBodyTraced stack ctx msgType).val = routerBody ctx msgType := by
  unfold routerBodyTraced routerBody
  simp only [val_ite, val_bind, val_pure, relayResToInterhubTraced_val, relaySndMoreTraced_val,
    afterRelayTraced_val]
  cases ctx.routerIn.recv <;> rfl

theorem routerIterTraced_val (stack : List Byte) (s : RouterLoop) :
    (routerIterTraced stack s).val = routerIter s := by
  unfold routerIterTraced routerIter
  cases s.ctx.routerIn.recv with
  | none => rfl
  | some r =>
      simp only [val_bind]
      cases r.2.recv with
      | none => rfl
      | some r' => simp only [val_bind, val_pure, routerBodyTraced_val]

theorem routerLoopTraced_val (stack : List Byte) : ∀ (n : Nat) (s : RouterLoop),
    (routerLoopTraced stack n s).val = routerLoop n s := by
  intro n
  induction n with
  | zero => intro s; rfl
  | succ n ih =>
      intro s
      rw [routerLoopTraced, routerLoop, val_bind, routerIterTraced_val]
      rcases routerIter s with ⟨_ | _, s'⟩
      · rfl
      · exact ih s'

theorem routerCallbackTraced_val (stack : List Byte) (ctx : RouterCtx) :
    (routerCallbackTraced stack ctx).val = routerCallback ctx := by
  rw [routerCallbackTraced, val_bind, routerLoopTraced_val]
  rfl

/-! ### Relays -/

/-- The rest of a message fits the relay buffer: every part up to the last of the message. -/
def RestFits : List Part → Prop
  | [] => True
  | p :: q => p.bytes.length ≤ maxBuffSize ∧ (p.more = true → RestFits q)

/-- Why the socket refuses a part, interruptions aside. -/
def refusal (o : Out) (p : Part) : Option Errno :=
  match (sendRetry o (buffered p.bytes) p.more).1 with
  | .ok _ => none
  | .error e => some e

/-- The first part of a relay fits: as a part of a message that is taken, or as a name that
is copied when it cannot be routed. -/
def FirstFits (o : Out) (hostSize : Nat) : List Part → Prop
  | [] => True
  | p :: q => p.bytes.length ≤ maxBuffSize ∧
      match refusal o p with
      | none => p.more = true → RestFits q
      | some e => e = .EHOSTUNREACH → p.bytes.length < maxBuffSize ∧
          (cstr p.bytes).length < hostSize

theorem copySvcHost_safe_iff (f : Frame) (mem : List Byte) :
    (copySvcHost f (some mem)).Safe ↔
      f.length < maxBuffSize ∧ (cstr f).length < mem.length := by
  simp only [copySvcHost, safe_bind_iff, safe_access_iff, safe_pure, and_true]
  refine and_congr_right fun hlen => ?_
  rw [buffered_eq (by omega)]
  exact Iff.rfl

/-- A router that has taken a part with others behind it takes these. -/
theorem free_of_sendRetry {dst dst' : Out} {reach : Frame → Bool} (hk : dst.kind = .router reach)
    {f : Frame} {n : Nat} (h : sendRetry dst f true = (.ok n, dst')) : dst'.Free := by
  rw [sendRetry_settle] at h
  cases hr : (settle dst f).route f with
  | some e => rw [send_refused hr] at h; exact absurd h (by simp)
  | none =>
      rw [send_routed hr] at h
      obtain rfl := (Prod.mk.inj h).2
      exact free_routed (by rw [settle_kind]; exact hk) f

/-- Where nothing is refused, what counts is that the message fits. -/
theorem relayPartsTraced_free_iff : ∀ (q : List Part) {dst : Out}, dst.Free → ∀ (more : Bool)
    (svcHost : Option (List Byte)),
    (relayPartsTraced more dst svcHost q).Safe ↔ RestFits q := by
  intro q
  induction q with
  | nil => intro dst _ more svcHost; simp [relayPartsTraced, RestFits]
  | cons p q ih =>
      intro dst hfree more svcHost
      rw [relayPartsTraced, safe_stored_bind, safe_bind_iff, safe_access_iff, RestFits]
      simp only [sendRetry_free hfree]
      refine and_congr_right fun _ => ?_
      by_cases hmore : p.more = true
      · have hopen : (dst.put [⟨buffered p.bytes, true⟩]).Free := free_put_more hfree _
        simp only [hmore, if_true, ih hopen, true_implies]
      · simp [hmore]

/-- A router decides on the first part. -/
theorem relayPartsTraced_router_iff {dst : Out} {reach : Frame → Bool}
    (hk : dst.kind = .router reach) (q : List Part) (more : Bool) (mem : List Byte) :
    (relayPartsTraced more dst (some mem) q).Safe ↔ FirstFits dst mem.length q := by
  cases q with
  | nil => simp [relayPartsTraced, FirstFits]
  | cons p q =>
      rw [relayPartsTraced, safe_stored_bind, safe_bind_iff, safe_access_iff, FirstFits]
      refine and_congr_right fun _ => ?_
      rw [refusal]
      rcases hs : sendRetry dst (buffered p.bytes) p.more with ⟨e | n, dst'⟩
      · by_cases he : e = .EHOSTUNREACH
        · simp only [he, if_true, safe_bind_iff, safe_pure, and_true, true_implies]
          exact copySvcHost_safe_iff _ _
        · simp [he]
      · by_cases hmore : p.more = true
        · -- the message is begun, and a router that has begun a message takes its rest
          have hfree : dst'.Free := free_of_sendRetry hk (hmore ▸ hs)
          simp only [hmore, if_true, relayPartsTraced_free_iff q hfree, true_implies]
        · simp [hmore]

/-- **The run of `mq_relay_callback` stays inside its buffer exactly when the frames it moves
fit.** -/
theorem relayLoopTraced_safe_iff : ∀ (n : Nat) (src : In) (dst : Out),
    (relayLoopTraced n src dst).Safe ↔
      ∀ p ∈ src.queue.take n, p.bytes.length ≤ maxBuffSize := by
  intro n
  induction n with
  | zero => intro src dst; simp [relayLoopTraced]
  | succ n ih =>
      intro src dst
      obtain ⟨q, more⟩ := src
      cases q with
      | nil => simp [relayLoopTraced]
      | cons p q =>
          rw [relayLoopTraced, recv_cons]
          simp only [safe_bind_iff, safe_access_iff, Nat.min_le_right, true_and, ih,
            List.take_succ_cons, List.forall_mem_cons]

/-! ### Requests for the hub -/

/-- The hub takes the frames in front of a request that is turned to it. -/
def HubTakesHead (o : Out) (fromTag : MqTag) (svcHost : Str) : Prop :=
  ((sendUnroutableLog o (unroutableLog fromTag svcHost)).sendWhile (0 < ·)
    [interhubName, mqReq, svcHost, fromTag.mem]).1 = true

/-- What is left of a request that cannot be routed here fits: a request that has not been at
the hub needs room for its log line, and its body for the relay if the hub takes it. -/
def InterhubFits (stack : List Byte) (o : Out) (svcHost : Str) : List Part → Prop
  | [] => True
  | p :: q =>
      (MqTag.zero.recv p.bytes).viaInterhub = true ∨
        (printedLog stack (MqTag.zero.recv p.bytes).setViaInterhub svcHost).length < maxLogSize ∧
        (HubTakesHead o (MqTag.zero.recv p.bytes).setViaInterhub svcHost → RestFits q)

theorem relayReqToInterhubTraced_safe_iff (stack : List Byte) {ctx : RouterCtx}
    (h : RouterSockets ctx) {svcHost : Str} (hhost : svcHost.length ≤ 128) :
    (relayReqToInterhubTraced stack ctx svcHost).Safe ↔
      InterhubFits stack ctx.routerOut svcHost ctx.routerIn.queue := by
  obtain ⟨reach, hk⟩ := h.router
  unfold relayReqToInterhubTraced In.recv
  rcases ctx.routerIn.queue with _ | ⟨p, q⟩
  · simp [InterhubFits]
  · have hmin : min p.bytes.length 121 ≤ 121 := Nat.min_le_right _ _
    simp only [safe_stored_bind, InterhubFits]
    by_cases hvia : (MqTag.zero.recv p.bytes).viaInterhub = true
    · simp [hvia]
    · simp only [hvia, if_false, false_or, Bool.false_eq_true]
      set fromTag := (MqTag.zero.recv p.bytes).setViaInterhub
      have hsize : fromTag.mem.length ≤ 121 := Nat.le_of_eq fromTag.size
      rw [safe_bind_iff, safe_access_iff]
      refine and_congr_right fun hprint => ?_
      rw [safe_access_bind (by omega), safe_access_bind hhost, safe_access_bind hsize,
        HubTakesHead]
      have hlog : (sendUnroutableLog ctx.routerOut (unroutableLog fromTag svcHost)).kind
          = .router reach := (sendUnroutableLog_kind _ _).trans hk
      rcases hs : (sendUnroutableLog ctx.routerOut (unroutableLog fromTag svcHost)).sendWhile
        (0 < ·) [interhubName, mqReq, svcHost, fromTag.mem] with ⟨_ | _, o'⟩
      · simp
      · have hfree := free_of_sendWhile hlog (by simp) hs
        simp [relaySndMoreTraced, relayPartsTraced_free_iff q hfree]

/-! ### One iteration -/

/-- A request whose target is not there fits on its way to the hub. -/
def TurnedFits (stack : List Byte) (ctx : RouterCtx) : List Part → Prop
  | [] => True
  | p :: q => refusal ctx.routerOut p = some .EHOSTUNREACH → ctx.interhub = true →
      InterhubFits stack (sendRetry ctx.routerOut (buffered p.bytes) p.more).2 (cstr p.bytes) q

/-- What is left of a message behind its type fits where the type sends it. -/
def BodyFits (stack : List Byte) (ctx : RouterCtx) (msgType : Str) : Prop :=
  if msgType = mqResInterhub then
    (ctx.routerOut.sendWhile (0 < ·) [interhubName, mqResInterhub]).1 = true →
      RestFits ctx.routerIn.queue
  else if msgType = mqReqInterhub ∨ msgType = mqReq then
    FirstFits ctx.routerOut 128 ctx.routerIn.queue ∧ TurnedFits stack ctx ctx.routerIn.queue
  else if msgType = mqRes then RestFits ctx.routerIn.queue
  else True

/-- The message the loop is in front of fits. -/
def IterFits (stack : List Byte) (ctx : RouterCtx) : Prop :=
  match ctx.routerIn.queue with
  | p :: t :: q => p.bytes.length < 128 ∧ t.bytes.length < 128 ∧
      BodyFits stack { ctx with routerIn := ⟨q, t.more⟩ } (cstr t.bytes)
  | _ => True

/-- A relay that nothing can refuse returns 0. -/
theorem relayParts_free_rc : ∀ (q : List Part) {dst : Out}, dst.Free → ∀ (more : Bool)
    (svcHost : Option (List Byte)), (relayParts more dst svcHost q).rc = none := by
  intro q
  induction q with
  | nil => intro dst _ more svcHost; rfl
  | cons p q ih =>
      intro dst hfree more svcHost
      rw [relayParts]
      simp only [sendRetry_free hfree]
      by_cases hmore : p.more = true
      · simp only [hmore, if_true]
        exact ih (free_put_more hfree _) _ _
      · simp [hmore]

/-- What a relay to a router returns is what the router said to the first part. -/
theorem relaySndMore_router {dst : Out} {reach : Frame → Bool} (hk : dst.kind = .router reach)
    (p : Part) (q : List Part) (more : Bool) (svcHost : Option (List Byte)) :
    (relaySndMore ⟨p :: q, more⟩ dst svcHost).rc = refusal dst p ∧
      ∀ e, refusal dst p = some e →
        relaySndMore ⟨p :: q, more⟩ dst svcHost
          = ⟨some e, ⟨q, p.more⟩, (sendRetry dst (buffered p.bytes) p.more).2,
              if e = .EHOSTUNREACH then
                svcHost.map fun mem => store mem 0 (cstr (buffered p.bytes) ++ [0])
              else svcHost⟩ := by
  rw [relaySndMore, relayParts, refusal]
  rcases hs : sendRetry dst (buffered p.bytes) p.more with ⟨e | n, dst'⟩
  · refine ⟨rfl, fun e' he => ?_⟩
    obtain rfl := Option.some.inj he
    rfl
  · refine ⟨?_, fun e he => absurd he (by simp)⟩
    by_cases hmore : p.more = true
    · have hfree : dst'.Free := free_of_sendRetry hk (hmore ▸ hs)
      simp only [hmore, if_true]
      exact relayParts_free_rc q hfree _ _
    · simp [hmore]

/-- What follows a relay touches nothing unless the host was unreachable. -/
theorem afterRelayTraced_safe (stack : List Byte) (ctx : RouterCtx) {rc : Option Errno}
    (h : rc ≠ some .EHOSTUNREACH) (svcHost : Option (List Byte)) :
    (afterRelayTraced stack ctx rc svcHost).Safe := by
  rw [afterRelayTraced, if_neg h]
  exact safe_pure _

/-- A request is relayed, and turned to the hub if its target is not there. -/
theorem request_safe_iff (stack : List Byte) {ctx : RouterCtx} (h : RouterSockets ctx) :
    (relaySndMoreTraced ctx.routerIn ctx.routerOut (some (zeros 128)) >>= fun r =>
      afterRelayTraced stack { ctx with routerIn := r.src, routerOut := r.dst } r.rc
        r.svcHost).Safe ↔
      FirstFits ctx.routerOut 128 ctx.routerIn.queue ∧ TurnedFits stack ctx ctx.routerIn.queue := by
  obtain ⟨reach, hk⟩ := h.router
  have hfirst := relayPartsTraced_router_iff hk ctx.routerIn.queue ctx.routerIn.more (zeros 128)
  rw [length_zeros] at hfirst
  rw [safe_bind_iff, relaySndMoreTraced_val, relaySndMoreTraced, hfirst]
  refine and_congr_right fun hfits => ?_
  rcases hin : ctx.routerIn with ⟨q, more⟩
  rw [hin] at hfits
  cases q with
  | nil =>
      have hdry : (relaySndMore ⟨[], more⟩ ctx.routerOut (some (zeros 128))).rc
          ≠ some .EHOSTUNREACH := by simp [relaySndMore, relayParts]
      simpa [TurnedFits] using afterRelayTraced_safe stack _ hdry _
  | cons p q =>
      obtain ⟨hrc, hrefused⟩ := relaySndMore_router hk p q more (some (zeros 128))
      by_cases hunreach : refusal ctx.routerOut p = some .EHOSTUNREACH
      · obtain ⟨hlen, hname⟩ : p.bytes.length < maxBuffSize ∧ (cstr p.bytes).length < 128 := by
          have := hfits.2
          rw [hunreach] at this
          exact this rfl
        have hhost : cstr (store (zeros 128) 0 (cstr (buffered p.bytes) ++ [0]))
            = cstr p.bytes := by
          rw [buffered_eq (Nat.le_of_lt hlen)]
          exact cstr_store_terminated (zero_notMem_cstr _) (by rw [length_zeros]; exact hname)
        rw [hrefused _ hunreach, afterRelayTraced, if_pos rfl]
        simp only [if_true, Option.map_some, Option.getD_some, hhost, TurnedFits, hunreach,
          true_implies]
        by_cases hhub : ctx.interhub = true
        · rw [if_pos hhub]
          have hturned : RouterSockets { ctx with
              routerIn := ⟨q, p.more⟩
              routerOut := (sendRetry ctx.routerOut (buffered p.bytes) p.more).2 } :=
            h.of_kinds (sendRetry_kind _ _ _) rfl
          have hfinal := relayReqToInterhubTraced_safe_iff stack hturned (Nat.le_of_lt hname)
          exact hfinal.trans (by simp [hhub])
        · rw [if_neg hhub]
          simp [hhub]
      · have hsafe := afterRelayTraced_safe stack
          { ctx with
            routerIn := (relaySndMore ⟨p :: q, more⟩ ctx.routerOut (some (zeros 128))).src
            routerOut := (relaySndMore ⟨p :: q, more⟩ ctx.routerOut (some (zeros 128))).dst }
          (hrc ▸ hunreach) (relaySndMore ⟨p :: q, more⟩ ctx.routerOut (some (zeros 128))).svcHost
        simp only [hsafe, TurnedFits, hunreach, false_implies]

/-- Every type sends the rest of the message where it must fit. -/
theorem routerBodyTraced_safe_iff (stack : List Byte) {ctx : RouterCtx} (h : RouterSockets ctx)
    (msgType : Str) : (routerBodyTraced stack ctx msgType).Safe ↔ BodyFits stack ctx msgType := by
  unfold routerBodyTraced BodyFits
  by_cases hres : msgType = mqResInterhub
  · obtain ⟨reach, hk⟩ := h.router
    simp only [if_pos hres, relayResToInterhubTraced]
    rcases hs : ctx.routerOut.sendWhile (0 < ·) [interhubName, mqResInterhub] with ⟨_ | _, o⟩
    · simp
    · have hfree := free_of_sendWhile hk (by simp) hs
      simp [relaySndMoreTraced, relayPartsTraced_free_iff _ hfree]
  · by_cases hreq : msgType = mqReqInterhub ∨ msgType = mqReq
    · simp only [if_neg hres, if_pos hreq]
      exact request_safe_iff stack h
    · by_cases hpub : msgType = mqRes
      · have hfree := (steady_pub h.pub).free
        have hrc := relayParts_free_rc ctx.routerIn.queue hfree ctx.routerIn.more (some (zeros 128))
        simp only [if_neg hres, if_neg hreq, if_pos hpub, safe_bind_iff, relaySndMoreTraced,
          relayPartsTraced_free_iff _ hfree, relayPartsTraced_val]
        exact and_iff_left (afterRelayTraced_safe stack _ (by rw [hrc]; simp) _)
      · simp only [if_neg hres, if_neg hreq, if_neg hpub]
        by_cases hlog : msgType = mqLog
        · simp only [if_pos hlog, iff_true]
          cases ctx.routerIn.recv with
          | none => exact safe_pure _
          | some r => exact (safe_stored_bind _ _ _).mpr (safe_pure _)
        · simp [hlog]

theorem routerIterTraced_safe_iff (stack : List Byte) {s : RouterLoop} (h : RouterSockets s.ctx) :
    (routerIterTraced stack s).Safe ↔ IterFits stack s.ctx := by
  unfold routerIterTraced IterFits In.recv
  rcases s.ctx.routerIn.queue with _ | ⟨p, _ | ⟨t, q⟩⟩
  · simp
  · simp only [safe_stored_bind, safe_pure]
  · simp only [safe_stored_bind]
    simp only [safe_bind_iff, safe_access_iff, safe_pure, and_true, Nat.succ_le_iff]
    refine and_congr_right fun _ => and_congr_right fun hty => ?_
    rw [Buf.str_recv_nulAt _ hty, routerBodyTraced_safe_iff stack (h.receive _)]

/-- The loop is safe when its iterations are. -/
theorem routerLoopTraced_safe_iff (stack : List Byte) : ∀ (n : Nat) {s : RouterLoop},
    RouterSockets s.ctx →
    ((routerLoopTraced stack (n + 1) s).Safe ↔
      ∀ t ∈ routerHeads n s, IterFits stack t.ctx) := by
  intro n
  induction n with
  | zero =>
      intro s h
      rw [routerLoopTraced, safe_bind_iff, routerIterTraced_safe_iff stack h]
      rcases (routerIterTraced stack s).val with ⟨_ | _, s'⟩
      · simp [routerHeads]
      · simp [routerHeads, routerLoopTraced]
  | succ n ih =>
      intro s h
      rw [routerLoopTraced, safe_bind_iff, routerIterTraced_safe_iff stack h, routerIterTraced_val,
        routerHeads]
      have hnext := routerIter_sockets h
      rcases hs : routerIter s with ⟨_ | _, s'⟩
      · simp
      · rw [hs] at hnext
        rw [List.forall_mem_cons]
        exact and_congr_right fun _ => ih hnext

theorem routerCallbackTraced_safe_iff (stack : List Byte) {ctx : RouterCtx}
    (h : RouterSockets ctx) :
    (routerCallbackTraced stack ctx).Safe ↔
      ∀ s ∈ routerHeads 999 (routerEnter ctx), IterFits stack s.ctx := by
  rw [routerCallbackTraced, safe_bind_iff]
  simp only [safe_pure, and_true]
  exact routerLoopTraced_safe_iff stack 999 h

/-- **The arrays of the router thread and of the relays hold what comes exactly when every
message fits where it is sent.** -/
theorem buffers_safe_iff (stack : List Byte) {ctx : RouterCtx} (h : RouterSockets ctx) (src : In)
    (dst : Out) :
    ((routerCallbackTraced stack ctx).Safe ↔
      ∀ s ∈ routerHeads 999 (routerEnter ctx), IterFits stack s.ctx) ∧
    ((mqRelayCallbackTraced src dst).Safe ↔
      ∀ p ∈ src.queue.take 1000, p.bytes.length ≤ maxBuffSize) :=
  ⟨routerCallbackTraced_safe_iff stack h, relayLoopTraced_safe_iff 1000 src dst⟩

/-! ### Two messages -/

/-- A router that reaches nobody but the hub, with a request of `AHIF` for `PSIB` on it. -/
def routerAsked : RouterCtx where
  routerIn := In.holding [[lit "AHIF", mqReq, lit "PSIB", MqTag.zero.mem, lit "hi"]]
  routerOut := ⟨.router (· == interhubName), [], []⟩
  zmqPub := ⟨.pub, [], []⟩
  interhub := true

theorem routerAsked_sockets : RouterSockets routerAsked := ⟨⟨_, rfl⟩, rfl⟩

/-- The request fits: its name as `svc_host`, its log line, and its body on the way to the hub. -/
theorem iterFits_routerAsked : IterFits [] routerAsked := by
  have htype : cstr mqReq = mqReq := by decide
  have hrefused : refusal routerAsked.routerOut ⟨lit "PSIB", true⟩ = some .EHOSTUNREACH := by
    decide +kernel
  have hfirst : FirstFits routerAsked.routerOut 128
      (parts [lit "PSIB", MqTag.zero.mem, lit "hi"]) := by
    refine ⟨by decide, ?_⟩
    rw [hrefused]
    exact fun _ => ⟨by decide, by decide⟩
  have hturned : InterhubFits [] (sendRetry routerAsked.routerOut (buffered (lit "PSIB")) true).2
      (cstr (lit "PSIB")) (parts [MqTag.zero.mem, lit "hi"]) :=
    Or.inr ⟨by decide +kernel, fun _ => ⟨by decide, nofun⟩⟩
  refine ⟨by decide, by decide, ?_⟩
  rw [htype, BodyFits, if_neg (by decide), if_pos (Or.inr rfl)]
  exact ⟨hfirst, fun _ _ => hturned⟩

/-- After a message that leaves the socket empty the loop turns once more, to nothing. -/
theorem routerHeads_one {s : RouterLoop} (hgo : (routerIter s).1 = true)
    (hqueue : (routerIter s).2.ctx.routerIn.queue = []) :
    ∀ n, ∀ x ∈ routerHeads n s, x = s ∨ x.ctx.routerIn.queue = [] := by
  have hiter : routerIter s = (true, (routerIter s).2) := Prod.ext hgo rfl
  have hempty : routerIter (routerIter s).2 = (false, (routerIter s).2) := by
    rw [routerIter, In.recv, hqueue]
  intro n x hx
  rcases n with _ | _ | n
  · exact Or.inl (List.mem_singleton.mp hx)
  · rw [routerHeads, hiter] at hx
    rcases List.mem_cons.mp hx with rfl | hx
    · exact Or.inl rfl
    · obtain rfl := List.mem_singleton.mp hx
      exact Or.inr hqueue
  · rw [routerHeads, hiter] at hx
    rcases List.mem_cons.mp hx with rfl | hx
    · exact Or.inl rfl
    · simp only [routerHeads, hempty, List.mem_singleton] at hx
      subst hx
      exact Or.inr hqueue

/-- A request that goes to the hub with a line for its log, and a frame on its way through a
slot. -/
theorem buffers_safe_psib :
    (routerCallbackTraced [] routerAsked).Safe ∧
      (mqRelayCallbackTraced (In.holding [[lit "hello"]]) ⟨.pipe, [], []⟩).Safe ∧
      (lasts (routerCallback routerAsked).routerOut.sent).length = 2 := by
  obtain ⟨hrouter, hrelay⟩ := buffers_safe_iff [] routerAsked_sockets
    (In.holding [[lit "hello"]]) ⟨.pipe, [], []⟩
  have hheads := routerHeads_one (s := routerEnter routerAsked) (by decide +kernel)
    (by decide +kernel) 999
  refine ⟨hrouter.mpr fun s hs => ?_, hrelay.mpr (by decide), by decide +kernel⟩
  rcases hheads s hs with rfl | hqueue
  · exact iterFits_routerAsked
  · rw [IterFits, hqueue]
    trivial

theorem routerHeads_start (n : Nat) (s : RouterLoop) : s ∈ routerHeads n s := by
  cases n <;> simp [routerHeads]

/-- A router between two messages, with a message of `AHIF` on it. -/
def routerWith (type body : Frame) : RouterCtx where
  routerIn := In.holding [[lit "AHIF", type, body]]
  routerOut := ⟨.router fun _ => false, [], []⟩
  zmqPub := ⟨.pub, [], []⟩
  interhub := false

theorem routerWith_sockets (type body : Frame) : RouterSockets (routerWith type body) :=
  ⟨⟨_, rfl⟩, rfl⟩

/-- A type of 128 bytes: its NUL is written behind `msg_type`. -/
theorem routerCallback_overruns :
    ¬ (routerCallbackTraced [] (routerWith (List.replicate 128 97) (lit "hello"))).Safe := by
  intro h
  have hfirst := (routerCallbackTraced_safe_iff [] (routerWith_sockets _ _)).mp h _
    (routerHeads_start 999 _)
  have htype : (List.replicate 128 (97 : Byte)).length < 128 := hfirst.2.1
  rw [List.length_replicate] at htype
  omega

end Brocoli
