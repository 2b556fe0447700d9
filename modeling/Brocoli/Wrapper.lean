/-
The client library and the relay every callback is built from: `zmq_wrapper.c`.

`relay_snd_more` moves the rest of one message from a socket to another.  Its frames
pass through a buffer of `MAX_BUFF_SIZE` bytes, so of a longer frame only the front
is there to be sent.  It gives up in the middle of the message when a send fails,
and what it has not read by then is still on the socket it reads from.

The senders and receivers of a client return 0 or -1, and `CHECK_N_RETURN` counts an
empty frame as a failure.
-/
import Brocoli.Wire

namespace Brocoli

open CMem Multipart

/-! ### `relay_snd_more` -/

/-- The part of a frame that a buffer of `MAX_BUFF_SIZE` bytes holds. -/
def buffered (f : Frame) : Frame := f.take maxBuffSize

theorem buffered_eq {f : Frame} (h : f.length ≤ maxBuffSize) : buffered f = f :=
  List.take_of_length_le h

/-- The `RETRY` loop: the same send again for as long as it is interrupted.  An
interruption is an answer used up, so there are at most `results.length` of them. -/
def retry : Nat → Out → Frame → Bool → Except Errno Nat × Out
  | 0, o, f, more => o.send f more
  | n + 1, o, f, more =>
      match o.send f more with
      | (.error .EINTR, o') => retry n o' f more
      | answer => answer

/-- `zmq_send` under the `RETRY` label. -/
def sendRetry (o : Out) (f : Frame) (more : Bool) : Except Errno Nat × Out :=
  retry o.results.length o f more

/-- What `relay_snd_more` leaves: its return value, 0 for `none` and -1 with that
`errno` otherwise, the two sockets, and the caller's `svc_host` buffer if it gave
one. -/
structure Relayed where
  rc : Option Errno
  src : In
  dst : Out
  svcHost : Option (List Byte)

/-- The loop of `relay_snd_more`, over what is left to be read. -/
def relayParts (more : Bool) (dst : Out) (svcHost : Option (List Byte)) : List Part → Relayed
  | [] => ⟨none, ⟨[], more⟩, dst, svcHost⟩
  | p :: q =>
      match sendRetry dst (buffered p.bytes) p.more with
      | (.error e, dst') =>
          -- only an unreachable host is reported back by name
          let host := if e = .EHOSTUNREACH
            then svcHost.map fun mem => store mem 0 (cstr (buffered p.bytes) ++ [0]) else svcHost
          ⟨some e, ⟨q, p.more⟩, dst', host⟩
      | (.ok _, dst') =>
          if p.more then relayParts p.more dst' svcHost q else ⟨none, ⟨q, p.more⟩, dst', svcHost⟩

def relaySndMore (src : In) (dst : Out) (svcHost : Option (List Byte)) : Relayed :=
  relayParts src.more dst svcHost src.queue

theorem retry_kind : ∀ (n : Nat) (o : Out) (f : Frame) (more : Bool),
    (retry n o f more).2.kind = o.kind := by
  intro n
  induction n with
  | zero => intro o f more; exact send_kind o f more
  | succ n ih =>
      intro o f more
      have hk := send_kind o f more
      rw [retry]
      split
      · rename_i o' heq
        rw [heq] at hk
        rw [ih, hk]
      · exact hk

@[simp] theorem sendRetry_kind (o : Out) (f : Frame) (more : Bool) :
    (sendRetry o f more).2.kind = o.kind := retry_kind _ _ _ _

theorem relayParts_kind : ∀ (q : List Part) (more : Bool) (o : Out) (host : Option (List Byte)),
    (relayParts more o host q).dst.kind = o.kind := by
  intro q
  induction q with
  | nil => intro more o host; rfl
  | cons p q ih =>
      intro more o host
      have hk := sendRetry_kind o (buffered p.bytes) p.more
      rw [relayParts]
      rcases hs : sendRetry o (buffered p.bytes) p.more with ⟨r, o'⟩
      rw [hs] at hk
      cases r with
      | error e => exact hk
      | ok n =>
          simp only at hk ⊢
          split
          · rw [ih, hk]
          · exact hk

@[simp] theorem relaySndMore_kind (src : In) (dst : Out) (host : Option (List Byte)) :
    (relaySndMore src dst host).dst.kind = dst.kind := relayParts_kind _ _ _ _

theorem sendRetry_free {o : Out} (h : o.Free) (f : Frame) (more : Bool) :
    sendRetry o f more = (.ok f.length, o.put [⟨f, more⟩]) := by
  unfold sendRetry
  cases o.results.length with
  | zero => exact send_free h f more
  | succ n => rw [retry, send_free h]

/-- Whatever the socket answers, the part goes once or not at all. -/
theorem retry_sent : ∀ (n : Nat) {o o' : Out} {f : Frame} {more : Bool} {r : Except Errno Nat},
    retry n o f more = (r, o') →
      ((∃ k, r = .ok k) ∧ o'.sent = o.sent ++ [⟨f, more⟩]) ∨
        ((∃ e, r = .error e) ∧ o'.sent = o.sent) := by
  intro n
  induction n with
  | zero =>
      intro o o' f more r h
      rw [retry] at h
      cases r with
      | ok k => exact Or.inl ⟨⟨k, rfl⟩, (send_ok h).2⟩
      | error e => exact Or.inr ⟨⟨e, rfl⟩, send_error h⟩
  | succ n ih =>
      intro o o' f more r h
      rw [retry] at h
      rcases hs : o.send f more with ⟨e | k, o1⟩
      · rw [hs] at h
        by_cases he : e = .EINTR
        · subst he
          have hsent := send_error hs
          rw [← hsent]
          exact ih h
        · have hr : (.error e, o1) = (r, o') := by
            cases e <;> first | exact h | exact absurd rfl he
          obtain ⟨rfl, rfl⟩ := Prod.mk.inj hr
          exact Or.inr ⟨⟨e, rfl⟩, send_error hs⟩
      · rw [hs] at h
        obtain ⟨rfl, rfl⟩ := Prod.mk.inj h
        exact Or.inl ⟨⟨k, rfl⟩, (send_ok hs).2⟩

/-- On a pipe the answer behind the interruptions is the one that counts. -/
theorem sendRetry_pipe (sent : List Part) (rs : List (Option Errno)) (f : Frame) (more : Bool) :
    sendRetry ⟨.pipe, sent, rs⟩ f more
      = Out.send ⟨.pipe, sent, rs.dropWhile (· == some .EINTR)⟩ f more := by
  show retry rs.length ⟨.pipe, sent, rs⟩ f more = _
  induction rs with
  | nil => rfl
  | cons r rs ih =>
      rw [List.length_cons, retry]
      cases r with
      | none => rfl
      | some e =>
          cases e with
          | EINTR => exact ih
          | _ => rfl

/-- What is relayed are the parts up to a last one, or up to one that is not taken; a message
is completed only in the first case. -/
theorem relayParts_lasts : ∀ (q : List Part) (more : Bool) (dst : Out)
    (svcHost : Option (List Byte)),
    ∃ front, q = front ++ (relayParts more dst svcHost q).src.queue ∧
      (lasts (relayParts more dst svcHost q).dst.sent = lasts dst.sent ∨
        (lasts (relayParts more dst svcHost q).dst.sent).length = (lasts dst.sent).length + 1 ∧
          ∃ x ∈ front, x.more = false) := by
  intro q
  induction q with
  | nil => intro more dst svcHost; exact ⟨[], rfl, Or.inl rfl⟩
  | cons p q ih =>
      intro more dst svcHost
      rw [relayParts]
      rcases hs : sendRetry dst (buffered p.bytes) p.more with ⟨e | n, dst'⟩
      · rcases retry_sent _ hs with ⟨⟨k, hk⟩, -⟩ | ⟨-, hsent⟩
        · exact absurd hk (by simp)
        · exact ⟨[p], rfl, Or.inl (by simp only [hsent])⟩
      · rcases retry_sent _ hs with ⟨-, hsent⟩ | ⟨⟨e, he⟩, -⟩
        · have hlasts : lasts dst'.sent = lasts dst.sent ++ lasts [⟨buffered p.bytes, p.more⟩] := by
            rw [hsent, lasts_append]
          cases hmore : p.more with
          | false =>
              refine ⟨[p], rfl, Or.inr ⟨?_, p, List.mem_singleton_self p, hmore⟩⟩
              simp only [Bool.false_eq_true, if_false]
              rw [hlasts, hmore, List.length_append]
              rfl
          | true =>
              obtain ⟨front, hq, hrest⟩ := ih true dst' svcHost
              have hopen : lasts dst'.sent = lasts dst.sent := by
                rw [hlasts, hmore]
                exact List.append_nil _
              rw [hopen] at hrest
              refine ⟨p :: front, ?_, ?_⟩
              · simp only [if_true, List.cons_append]
                rw [← hq]
              · simp only [if_true]
                exact hrest.imp_right fun ⟨hlen, x, hx, hlast⟩ =>
                  ⟨hlen, x, List.mem_cons_of_mem _ hx, hlast⟩
        · exact absurd he (by simp)

/-- The last frame of a message goes or does not. -/
theorem relaySndMore_last {f : Frame} (hf : f.length ≤ maxBuffSize) (more : Bool) (o : Out) :
    (relaySndMore ⟨[⟨f, false⟩], more⟩ o none).src.queue = [] ∧
      ((relaySndMore ⟨[⟨f, false⟩], more⟩ o none).dst.sent = o.sent ++ [⟨f, false⟩] ∨
        (relaySndMore ⟨[⟨f, false⟩], more⟩ o none).dst.sent = o.sent) := by
  rw [relaySndMore, relayParts]
  simp only [buffered_eq hf]
  rcases hs : sendRetry o f false with ⟨e | k, o'⟩
  · rcases retry_sent _ hs with ⟨⟨k, hk⟩, -⟩ | ⟨-, hsent⟩
    · exact absurd hk (by simp)
    · exact ⟨rfl, Or.inr hsent⟩
  · rcases retry_sent _ hs with ⟨-, hsent⟩ | ⟨⟨e, he⟩, -⟩
    · exact ⟨rfl, Or.inl hsent⟩
    · exact absurd he (by simp)

/-- The answer about `f` that counts: interruptions before it are used up. -/
def settleIn : Nat → Out → Frame → Out
  | 0, o, _ => o
  | n + 1, o, f => if o.route f = some .EINTR then settleIn n (o.asked f) f else o

def settle (o : Out) (f : Frame) : Out := settleIn o.results.length o f

theorem settleIn_fields : ∀ (n : Nat) (o : Out) (f : Frame),
    (settleIn n o f).kind = o.kind ∧ (settleIn n o f).sent = o.sent := by
  intro n
  induction n with
  | zero => intro o f; exact ⟨rfl, rfl⟩
  | succ n ih =>
      intro o f
      rw [settleIn]
      split
      · exact ih _ _
      · exact ⟨rfl, rfl⟩

@[simp] theorem settle_kind (o : Out) (f : Frame) : (settle o f).kind = o.kind :=
  (settleIn_fields _ o f).1

@[simp] theorem settle_sent (o : Out) (f : Frame) : (settle o f).sent = o.sent :=
  (settleIn_fields _ o f).2

@[simp] theorem settle_isOpen (o : Out) (f : Frame) : (settle o f).isOpen = o.isOpen := by
  simp [Out.isOpen]

theorem retry_settleIn : ∀ (n : Nat) (o : Out) (f : Frame),
    retry n o f true = (settleIn n o f).send f true := by
  intro n
  induction n with
  | zero => intro o f; rfl
  | succ n ih =>
      intro o f
      rw [retry, settleIn]
      cases hr : o.route f with
      | none => rw [send_routed hr, if_neg (by simp), send_routed hr]
      | some e =>
          rw [send_refused hr]
          cases e with
          | EINTR =>
              rw [if_pos rfl]
              exact ih _ _
          | EAGAIN => rw [if_neg (by simp), send_refused hr]
          | EHOSTUNREACH => rw [if_neg (by simp), send_refused hr]
          | ETERM => rw [if_neg (by simp), send_refused hr]

theorem sendRetry_settle (o : Out) (f : Frame) :
    sendRetry o f true = (settle o f).send f true := retry_settleIn _ _ _

/-- Frames that fit the relay buffer. -/
def Relayable (m : Msg) : Prop := ∀ f ∈ m, f.length ≤ maxBuffSize

instance (m : Msg) : Decidable (Relayable m) :=
  inferInstanceAs (Decidable (∀ f ∈ m, f.length ≤ maxBuffSize))

theorem map_buffered {m : Msg} (h : Relayable m) : m.map buffered = m := by
  induction m with
  | nil => rfl
  | cons f rest ih =>
      rw [List.map_cons, buffered_eq (h f (by simp)), ih fun x hx => h x (by simp [hx])]

theorem relayable_of_short {m : Msg} (h : ∀ f ∈ m, f.length < 128) {body : Frame}
    (hbody : body.length ≤ maxBuffSize) : Relayable (m ++ [body]) := by
  intro f hf
  rcases List.mem_append.mp hf with hf | hf
  · exact Nat.le_trans (Nat.le_of_lt (h f hf)) (by decide)
  · obtain rfl := List.mem_singleton.mp hf
    exact hbody

theorem relayable_tagged (tag : MqTag) {svc : Str} (hsvc : svc.length < 128) {body : Frame}
    (hbody : body.length ≤ maxBuffSize) : Relayable [svc, tag.mem, body] := by
  refine relayable_of_short (m := [svc, tag.mem]) ?_ hbody
  intro f hf
  simp only [List.mem_cons, List.not_mem_nil, or_false] at hf
  rcases hf with rfl | rfl
  · exact hsvc
  · rw [tag.size]
    decide

/-- A request as `mq_send_req` sends it. -/
theorem relayable_request (tag : MqTag) {svc : Str} (hsvc : svc.length < 128) {body : Frame}
    (hbody : body.length ≤ maxBuffSize) : Relayable [mqReq, svc, tag.mem, body] := by
  intro f hf
  rcases List.mem_cons.mp hf with rfl | hf
  · decide
  · exact relayable_tagged tag hsvc hbody f hf

/-- A socket that cannot refuse takes the rest of the message, as far as its frames fit
the buffer. -/
theorem relaySndMore_buffered {m : Msg} (hm : m ≠ []) {o : Out} (h : o.Free)
    (q : List Part) (more : Bool) (host : Option (List Byte)) :
    relaySndMore ⟨parts m ++ q, more⟩ o host
      = ⟨none, ⟨q, false⟩, o.put (parts (m.map buffered)), host⟩ := by
  show relayParts more o host (parts m ++ q) = _
  induction m generalizing o more with
  | nil => exact absurd rfl hm
  | cons f rest ih =>
      cases rest with
      | nil => simp [relayParts, sendRetry_free h]
      | cons g rest =>
          rw [parts_cons_cons, List.cons_append, relayParts]
          simp only [sendRetry_free h, if_true]
          rw [ih (by simp) (free_put_more h _)]
          simp

/-- **A socket that cannot refuse takes the rest of the message**, and the reader ends
at the boundary behind it. -/
theorem relaySndMore_free {m : Msg} (hm : m ≠ []) (hlen : Relayable m) {o : Out} (h : o.Free)
    (q : List Part) (more : Bool) (host : Option (List Byte)) :
    relaySndMore ⟨parts m ++ q, more⟩ o host = ⟨none, ⟨q, false⟩, o.put (parts m), host⟩ := by
  rw [relaySndMore_buffered hm h, map_buffered hlen]

/-- A message that is relayed behind a new head, to a socket that never refuses. -/
theorem sendWhile_relay {o : Out} (h : o.Steady) (head : Msg) {m : Msg} (hm : m ≠ [])
    (hlen : Relayable m) (q : List Part) (more : Bool) :
    o.sendWhile (fun _ => true) head = (true, o.put (head.map (⟨·, true⟩))) ∧
      relaySndMore ⟨parts m ++ q, more⟩ (o.put (head.map (⟨·, true⟩))) none
        = ⟨none, ⟨q, false⟩, o.put (parts (head ++ m)), none⟩ := by
  refine ⟨sendWhile_free h.free head fun _ _ => rfl, ?_⟩
  rw [relaySndMore_free hm hlen (h.put _).free, put_put, parts_append head hm]

/-- A router that does not know, or cannot serve, the peer named by the first frame:
only that frame is gone from the socket. -/
theorem relaySndMore_refused {f : Frame} {rest : Msg} (hrest : rest ≠ [])
    (hf : f.length ≤ maxBuffSize) {o : Out} {e : Errno} (h : (settle o f).route f = some e)
    (q : List Part) (more : Bool) (host : Option (List Byte)) :
    relaySndMore ⟨parts (f :: rest) ++ q, more⟩ o host
      = ⟨some e, ⟨parts rest ++ q, true⟩, (settle o f).asked f,
          if e = .EHOSTUNREACH then host.map fun mem => store mem 0 (cstr f ++ [0]) else host⟩ := by
  rw [relaySndMore, parts_cons hrest, List.cons_append, relayParts]
  simp only [buffered_eq hf, sendRetry_settle, send_refused h]

/-- A router that takes the first frame takes the message. -/
theorem relaySndMore_routed {f : Frame} {rest : Msg} (hrest : rest ≠ [])
    (hlen : Relayable (f :: rest)) {o : Out} {reach : Frame → Bool} (hk : o.kind = .router reach)
    (h : (settle o f).route f = none) (q : List Part) (more : Bool)
    (host : Option (List Byte)) :
    relaySndMore ⟨parts (f :: rest) ++ q, more⟩ o host
      = ⟨none, ⟨q, false⟩, ((settle o f).asked f).put (parts (f :: rest)), host⟩ := by
  rw [relaySndMore, parts_cons hrest, List.cons_append, relayParts]
  simp only [buffered_eq (hlen f (by simp)), sendRetry_settle, send_routed h, if_true]
  have hfree : (((settle o f).asked f).put [⟨f, true⟩]).Free :=
    free_routed (by rw [settle_kind]; exact hk) f
  have := relaySndMore_free hrest (fun x hx => hlen x (by simp [hx])) hfree q true host
  rw [relaySndMore] at this
  rw [this, put_put]
  rfl

theorem settle_idle {o : Out} {reach : Frame → Bool} (h : o.Idle reach) (f : Frame) :
    settle o f = o := by
  rw [settle, h.results]
  rfl

/-! ### The client -/

/-- `client_sock_t` -/
structure ClientSock where
  mySvcPort : Int
  viaIpc : Bool
  tcpAddress : Str
  sndrcv : MqSndrcv
  zmqPub : Out
  zmqSub : In
  zmqPull : In
  zmqPush : Out
  zmqConf : In

/-- The sockets `crt_cli_sock` creates; `mq_recv_res` reads the one that subscribes to
`svc_regi->tag.name`. -/
def crtCliSock (mySvcPort : Int) (viaIpc : Bool) (tcpAddress : Str) : ClientSock where
  mySvcPort := mySvcPort
  viaIpc := viaIpc
  tcpAddress := tcpAddress
  sndrcv := MqSndrcv.zero
  zmqPub := ⟨.pub, [], []⟩
  zmqSub := In.holding []
  zmqPull := In.holding []
  zmqPush := ⟨.pipe, [], []⟩
  zmqConf := In.holding []

/-- `%d` of a number that is not negative. -/
def decimal (n : Nat) : Str := (Nat.toDigits 10 n).map fun c => UInt8.ofNat c.toNat

/-- `sprintf(svc_regi->tag.name, "%s_%d", __progname, pid)` -/
def resTagName (progname : Str) (pid : Nat) : Str := progname ++ lit "_" ++ decimal pid

def crtResTag (mySvcName progname : Str) (pid : Nat) (now : Time) (svcRegi : MqRegi)
    (cliSock : ClientSock) : MqRegi :=
  ((((((svcRegi.setTagSvc mySvcName).setTagName (resTagName progname pid)).setPort
    (cliSock.mySvcPort * 10 / 10)).setConnType
    (if cliSock.viaIpc then connIpc else connTcp)).setBefore
    0).setCurrent now)

/-- The value of a send for `CHECK_N_RETURN`: the bytes taken, -1 on failure. -/
def sentBytes : Except Errno Nat → Int
  | .ok n => n
  | .error _ => -1

/-- The frames a sender puts on its push socket: all but the body must be non-empty and
accepted, then the body, whose length is counted when it is positive. -/
def sendFrames (c : ClientSock) (head : Msg) (body : Frame) : Int × ClientSock :=
  match c.zmqPush.sendWhile (0 < ·) head with
  | (false, push) => (-1, { c with zmqPush := push })
  | (true, push) =>
      match push.send body false with
      | (answer, push') =>
          if sentBytes answer ≤ 0 then (-1, { c with zmqPush := push' })
          else (0, { c with
            zmqPush := push'
            sndrcv := { c.sndrcv with
              sendByte := c.sndrcv.sendByte + sentBytes answer
              sendCnt := c.sndrcv.sendCnt + 1 } })

def mqSendReq (c : ClientSock) (tag : MqTag) (tgsvcName : Str) (buf : Frame) : Int × ClientSock :=
  sendFrames c [mqReq, tgsvcName, tag.mem] buf

/-- A response goes by the hub exactly when the tag says so; then the broker's id is
sent in front of the service. -/
def mqSendRes (c : ClientSock) (destTag : MqTag) (buf : Frame) : Int × ClientSock :=
  if destTag.viaInterhub then
    sendFrames c [mqResInterhub, destTag.broker, destTag.svc, destTag.name] buf
  else
    sendFrames c [mqRes, destTag.svc, destTag.name] buf

/-- The two sends a registration is passed on with, by a broker to its hub and by the hub to
its threads. -/
def sendRegi (o : Out) (svcRegi : MqRegi) : Out :=
  match o.send mqReg true with
  | (.ok _, o) => (o.send svcRegi.mem false).2
  | (.error _, o) => o

/-- What `mq_recv_req` leaves: its return value, the socket, and the caller's tag and
buffer. -/
structure RecvReq where
  rc : Int
  sock : ClientSock
  tag : MqTag
  buf : List Byte

def countRecv (s : MqSndrcv) (n : Nat) : MqSndrcv :=
  { s with recvByte := s.recvByte + n, recvCnt := s.recvCnt + 1 }

def mqRecvReq (c : ClientSock) (tag : MqTag) (buf : List Byte) : RecvReq :=
  match c.zmqPull.recv with
  | none => ⟨-1, c, tag, buf⟩
  | some (f, pull) =>
      if f.length = 0 then ⟨-1, { c with zmqPull := pull }, tag.recv f, buf⟩
      else if !pull.more then ⟨-1, { c with zmqPull := pull }, tag.recv f, buf⟩
      else
        match pull.recv with
        | none => ⟨-1, { c with zmqPull := pull }, tag.recv f, buf⟩
        | some (g, pull') =>
            if g.length = 0 then ⟨-1, { c with zmqPull := pull' }, tag.recv f, store buf 0 g⟩
            else ⟨0, { c with zmqPull := pull', sndrcv := countRecv c.sndrcv g.length },
              tag.recv f, store buf 0 g⟩

/-- What `mq_recv_res` leaves. -/
structure RecvRes where
  rc : Int
  sock : ClientSock
  buf : List Byte

/-- `MAKE_EOF`: the NUL goes where the received bytes end, at 0 for a failed receive. -/
def makeEof (buf : List Byte) (byte : Nat) : List Byte := buf.set byte 0

def mqRecvRes (c : ClientSock) (buf : List Byte) : RecvRes :=
  match c.zmqSub.recv with
  | none => ⟨-1, c, buf⟩
  | some (name, sub) =>
      if name.length = 0 then ⟨-1, { c with zmqSub := sub }, buf⟩
      else
        match sub.recv with
        | none => ⟨-1, { c with zmqSub := sub }, makeEof buf 0⟩
        | some (f, sub') =>
            if f.length = 0 then ⟨-1, { c with zmqSub := sub' }, makeEof (store buf 0 f) f.length⟩
            else ⟨0, { c with zmqSub := sub', sndrcv := countRecv c.sndrcv f.length },
              makeEof (store buf 0 f) f.length⟩

/-- Sending does not touch what a client receives from. -/
theorem sendFrames_pull (c : ClientSock) (head : Msg) (body : Frame) :
    (sendFrames c head body).2.zmqPull = c.zmqPull := by
  unfold sendFrames
  rcases c.zmqPush.sendWhile (0 < ·) head with ⟨_ | _, push⟩
  · rfl
  · simp only
    rcases push.send body false with ⟨answer, push'⟩
    by_cases hlen : sentBytes answer ≤ 0
    · simp only [if_pos hlen]
    · simp only [if_neg hlen]

theorem sendFrames_sub (c : ClientSock) (head : Msg) (body : Frame) :
    (sendFrames c head body).2.zmqSub = c.zmqSub := by
  unfold sendFrames
  rcases c.zmqPush.sendWhile (0 < ·) head with ⟨_ | _, push⟩
  · rfl
  · simp only
    rcases push.send body false with ⟨answer, push'⟩
    by_cases hlen : sentBytes answer ≤ 0
    · simp only [if_pos hlen]
    · simp only [if_neg hlen]

/-- A sender whose frames are all non-empty, on a socket that refuses nothing, puts one
whole message and returns 0. -/
theorem sendFrames_free {c : ClientSock} (h : c.zmqPush.Free) {head : Msg} {body : Frame}
    (hhead : ∀ f ∈ head, f ≠ []) (hbody : body ≠ []) :
    (sendFrames c head body).1 = 0 ∧
      (sendFrames c head body).2.zmqPush = c.zmqPush.put (parts (head ++ [body])) := by
  have hpos : ∀ f ∈ head, decide (0 < f.length) = true := fun f hf => by
    simpa [List.length_pos_iff] using hhead f hf
  have hfree : ∀ (l : Msg) (o : Out), o.Free → (o.put (l.map (⟨·, true⟩))).Free := by
    intro l
    induction l with
    | nil => intro o ho; simpa using ho
    | cons f rest ih =>
        intro o ho
        have := ih _ (free_put_more ho f)
        simpa using this
  have hsend := send_free (hfree head _ h) body false
  have hlen : 0 < body.length := List.length_pos_iff.mpr hbody
  have hnot : ¬ ((body.length : Int) ≤ 0) := by omega
  unfold sendFrames
  rw [sendWhile_free h head hpos]
  simp only [hsend, sentBytes, if_neg hnot, parts_append_singleton, put_put]
  simp

/-- What a sender puts on its socket when no send fails. -/
theorem sent_one {c : ClientSock} (hpush : c.zmqPush.Steady) (head : Msg) {body : Frame}
    (hhead : ∀ f ∈ head, f ≠ []) (hbody : body ≠ []) :
    c.zmqPush.since (sendFrames c head body).2.zmqPush = [head ++ [body]] := by
  rw [(sendFrames_free hpush.free hhead hbody).2]
  exact since_put_parts _ (by simp)

/-- **A sender that returns 0 has sent one whole message**, none of its frames empty. -/
theorem sendFrames_zero {c : ClientSock} {head : Msg} {body : Frame}
    (h : (sendFrames c head body).1 = 0) :
    (∀ f ∈ head, f ≠ []) ∧ body ≠ [] ∧
      c.zmqPush.since (sendFrames c head body).2.zmqPush = [head ++ [body]] := by
  unfold sendFrames at h ⊢
  rcases hs : c.zmqPush.sendWhile (0 < ·) head with ⟨_ | _, push⟩
  · rw [hs] at h
    simp at h
  · rw [hs] at h
    obtain ⟨hpos, hsent⟩ := sendWhile_ok hs
    simp only at h ⊢
    rcases hb : push.send body false with ⟨e | n, push'⟩
    · rw [hb] at h
      simp [sentBytes] at h
    · rw [hb] at h
      obtain ⟨hn, hsent'⟩ := send_ok hb
      by_cases hlen : sentBytes (.ok n) ≤ 0
      · simp only [if_pos hlen] at h
        simp at h
      · simp only [if_neg hlen]
        refine ⟨?_, ?_, ?_⟩
        · intro f hf hnil
          have := hpos f hf
          simp [hnil] at this
        · intro hnil
          simp [sentBytes, hn, hnil] at hlen
        · refine since_of_sent (by simp) ?_
          simp only [stream_cons, stream_nil, List.append_nil, parts_append_singleton, hsent',
            hsent, List.append_assoc]

theorem sendRegi_eq {o : Out} (h : o.kind = .pub) (svcRegi : MqRegi) :
    sendRegi o svcRegi = o.put (parts [mqReg, svcRegi.mem]) := by
  have hfree : o.Free := (steady_pub h).free
  rw [sendRegi, send_free hfree]
  simp only [send_free (free_put_more hfree _)]
  simp

/-- A whole request at the front of the pull socket is returned as it is, into a buffer
that is large enough. -/
theorem mqRecvReq_holding {c : ClientSock} {t tag : MqTag} {body : Frame} {ms : List Msg}
    (h : c.zmqPull = In.holding ([t.mem, body] :: ms)) (hbody : body ≠ []) (buf : List Byte) :
    mqRecvReq c tag buf
      = ⟨0, { c with zmqPull := In.holding ms, sndrcv := countRecv c.sndrcv body.length },
          t, store buf 0 body⟩ := by
  have ht : t.mem.length ≠ 0 := by rw [t.size]; omega
  have hb : body.length ≠ 0 := by simpa [List.length_eq_zero_iff] using hbody
  unfold mqRecvReq
  rw [h, recv_holding_cons (by simp)]
  simp [ht, hb, In.holding, MqTag.recv_mem]

/-- A response at the front of the subscriber: the name frame is dropped and the body
returned as a string of the caller's buffer. -/
theorem mqRecvRes_holding {c : ClientSock} {name body : Frame} {ms : List Msg}
    (h : c.zmqSub = In.holding ([name, body] :: ms)) (hname : name ≠ []) (hbody : body ≠ [])
    (buf : List Byte) :
    mqRecvRes c buf
      = ⟨0, { c with zmqSub := In.holding ms, sndrcv := countRecv c.sndrcv body.length },
          makeEof (store buf 0 body) body.length⟩ := by
  have hn : name.length ≠ 0 := by simpa [List.length_eq_zero_iff] using hname
  have hb : body.length ≠ 0 := by simpa [List.length_eq_zero_iff] using hbody
  unfold mqRecvRes
  rw [h, recv_holding_cons (by simp)]
  simp [hn, hb, In.holding]

end Brocoli
