/-
How the receivers of a client get back to the beginning of a message.

A message that is not what a receiver expects is given up somewhere in the middle, and the
next call goes on there.  What saves the reader is `RCVMORE`: `mq_recv_req` and the two
functions for configurations ask for it before they read a second frame, so no call of
theirs goes from one message to the next and every beginning is come to.  `mq_recv_res` does
not ask.  When it is called in front of the last frame of a message it takes that for the
name and the first frame of the next message for the body, and from there on the calls may
be out of step with the messages for good.

A configuration takes several calls, and `mq_recv_conf_body` does not know where it begins.
So it matters whether the caller goes on to it when `mq_recv_conf_name` has failed.
-/
import Brocoli.Lib.Drains
import Brocoli.Client

namespace Brocoli

open CMem Multipart Drains

/-! ### Sessions -/

/-- A call of a receiver: the parts that wait before and after it, what it returns, and the
memory of the caller it has written to. -/
structure ReadCall where
  before : List Part
  after : List Part
  rc : Int
  got : List (List Byte)

/-- The calls a caller makes to get one message. -/
structure Turn where
  before : List Part
  after : List Part
  calls : List ReadCall

section Session

variable {A : Type}

/-- `n` turns, one after the other, of a client that reads from `sock`; the `i`-th is made with
the arguments `args i`. -/
def session (turn : A → ClientSock → List ReadCall × ClientSock) (sock : ClientSock → In) :
    (Nat → A) → Nat → ClientSock → List Turn
  | _, 0, _ => []
  | args, n + 1, c =>
      let r := turn (args 0) c
      ⟨(sock c).queue, (sock r.2).queue, r.1⟩ :: session turn sock (fun i => args (i + 1)) n r.2

end Session

def reqTurn (arg : MqTag × List Byte) (c : ClientSock) : List ReadCall × ClientSock :=
  let r := mqRecvReq c arg.1 arg.2
  ([⟨c.zmqPull.queue, r.sock.zmqPull.queue, r.rc, [r.tag.mem, r.buf]⟩], r.sock)

def resTurn (buf : List Byte) (c : ClientSock) : List ReadCall × ClientSock :=
  let r := mqRecvRes c buf
  ([⟨c.zmqSub.queue, r.sock.zmqSub.queue, r.rc, [r.buf]⟩], r.sock)

/-- `mq_recv_conf_body` is called until it does not return 0, and at most `fuel` times before
the last. -/
def confBodies : (Nat → List Byte) → Nat → ClientSock → List ReadCall × ClientSock
  | bufs, 0, c =>
      let r := mqRecvConfBody c (bufs 0)
      ([⟨c.zmqConf.queue, r.sock.zmqConf.queue, r.rc, [r.buf]⟩], r.sock)
  | bufs, fuel + 1, c =>
      let r := mqRecvConfBody c (bufs 0)
      let call : ReadCall := ⟨c.zmqConf.queue, r.sock.zmqConf.queue, r.rc, [r.buf]⟩
      if r.rc = 0 then
        let rest := confBodies (fun i => bufs (i + 1)) fuel r.sock
        (call :: rest.1, rest.2)
      else ([call], r.sock)

/-- `mq_recv_conf_name`, and then `mq_recv_conf_body` until it does not return 0.  `regardless`
says that the caller goes on to the bodies whatever the first returned. -/
def confTurn (regardless : Bool) (bufs : Nat → List Byte) (c : ClientSock) :
    List ReadCall × ClientSock :=
  let r := mqRecvConfName c (bufs 0)
  let call : ReadCall := ⟨c.zmqConf.queue, r.sock.zmqConf.queue, r.rc, [r.buf]⟩
  if r.rc = 0 ∨ regardless = true then
    let rest := confBodies (fun i => bufs (i + 1)) r.sock.zmqConf.queue.length r.sock
    (call :: rest.1, rest.2)
  else ([call], r.sock)

/-! ### What is asked of a session -/

/-- The call reads frames of one message at most: behind none but the last of them one ends. -/
def ReadCall.OneMessage (r : ReadCall) : Prop :=
  ∃ ps, r.before = ps ++ r.after ∧ ∀ p ∈ ps.dropLast, p.more = true

/-- The last call returned something else than 0. -/
def Ended (calls : List ReadCall) : Prop := ∃ rs r, calls = rs ++ [r] ∧ r.rc ≠ 0

/-- The calls that returned 0 have got these frames. -/
def Turn.Got (t : Turn) (fs : Msg) : Prop :=
  List.Forall₂ (fun f b => f <+: b) fs ((t.calls.filter fun r => r.rc = 0).flatMap ReadCall.got)

/-- One turn, and no other, is for the message in front of `post`; it reads it to its end and
gets the frames `fs` of it. -/
def Returned (ts : List Turn) (m : Msg) (post : List Msg) (fs : Msg) : Prop :=
  ∃ us t vs, ts = us ++ t :: vs ∧ t.before = stream (m :: post) ∧ t.after = stream post ∧
    t.Got fs ∧ ∀ v ∈ us ++ vs, v.before ≠ stream (m :: post)

/-- No call goes from one message to another, and every message that is well formed is returned
once, with its contents. -/
structure Resyncs (wellFormed : Msg → Prop) (contents : Msg → Msg) (ms : List Msg)
    (ts : List Turn) : Prop where
  oneMessage : ∀ t ∈ ts, ∀ r ∈ t.calls, r.OneMessage
  returned : ∀ pre m post, ms = pre ++ m :: post → wellFormed m → Returned ts m post (contents m)

/-- What the receivers that end with `MAKE_EOF` make of the frames. -/
def terminated (fs : Msg) : Msg := fs.map (· ++ [0])

/-- Messages of any shape, for buffers of `room` bytes. -/
def Fits (room : Nat) (ms : List Msg) : Prop := ∀ m ∈ ms, m ≠ [] ∧ ∀ f ∈ m, f.length < room

/-- A tag and a body. -/
def IsReq (m : Msg) : Prop := ∃ (tag : MqTag) (body : Frame), body ≠ [] ∧ m = [tag.mem, body]

/-- A name and a body. -/
def IsRes (m : Msg) : Prop := ∃ name body : Frame, body ≠ [] ∧ m = [name, body]

/-- A name and chunks, and the empty frame behind them. -/
def IsConf (m : Msg) : Prop :=
  ∃ (name : Frame) (chunks : List Frame), m = mqConf :: name :: (chunks ++ [[]])

/-! ### The way through the queue

What a turn leaves in the queue depends on nothing but what was there.
-/

section Jumps

variable {A : Type}

/-- The turn takes from the queue what `jump` takes, whenever `inv` holds of the socket. -/
structure Jumps (turn : A → ClientSock → List ReadCall × ClientSock) (sock : ClientSock → In)
    (inv : In → Prop) (jump : List Part → List Part) : Prop where
  left : ∀ arg c, inv (sock c) → (sock (turn arg c).2).queue = jump (sock c).queue
  keeps : ∀ arg c, inv (sock c) → inv (sock (turn arg c).2)

variable {turn : A → ClientSock → List ReadCall × ClientSock} {sock : ClientSock → In}
  {inv : In → Prop} {jump : List Part → List Part}

theorem map_before_session (h : Jumps turn sock inv jump) : ∀ (n : Nat) (args : Nat → A)
    (c : ClientSock), inv (sock c) →
    (session turn sock args n c).map Turn.before = List.iterate jump (sock c).queue n := by
  intro n
  induction n with
  | zero => intro args c _; rfl
  | succ n ih =>
      intro args c hc
      simp only [session, List.map_cons, List.iterate]
      rw [ih _ _ (h.keeps _ _ hc), h.left _ _ hc]

/-- Every turn of a session is made with some of its arguments, where some turn has left the
client. -/
theorem mem_session (h : Jumps turn sock inv jump) : ∀ {n : Nat} {args : Nat → A}
    {c : ClientSock} {t : Turn}, inv (sock c) → t ∈ session turn sock args n c →
    ∃ i c', inv (sock c') ∧
      t = ⟨(sock c').queue, (sock (turn (args i) c').2).queue, (turn (args i) c').1⟩ := by
  intro n
  induction n with
  | zero => intro args c t _ ht; exact absurd ht List.not_mem_nil
  | succ n ih =>
      intro args c t hc ht
      rw [session] at ht
      rcases List.mem_cons.mp ht with rfl | ht
      · exact ⟨0, c, hc, rfl⟩
      · obtain ⟨i, c', hc', rfl⟩ := ih (h.keeps _ _ hc) ht
        exact ⟨i + 1, c', hc', rfl⟩

theorem after_session (h : Jumps turn sock inv jump) {n : Nat} {args : Nat → A} {c : ClientSock}
    {t : Turn} (hc : inv (sock c)) (ht : t ∈ session turn sock args n c) :
    t.after = jump t.before := by
  obtain ⟨i, c', hc', rfl⟩ := mem_session h hc ht
  exact h.left _ _ hc'

/-- A session comes to what is reached. -/
theorem exists_turn_iff (h : Jumps turn sock inv jump) (hshrinks : Shrinks jump) {n : Nat}
    {args : Nat → A} {c : ClientSock} (hc : inv (sock c)) (hn : (sock c).queue.length ≤ n)
    {s : List Part} (hs : s ≠ []) :
    (∃ t ∈ session turn sock args n c, t.before = s) ↔ Reaches jump (sock c).queue s := by
  rw [← mem_iterate_iff hshrinks hs hn, ← map_before_session h n args c hc, List.mem_map]

/-- If the calls of a turn stay in one message depending on what waits there, then those of a
session do if that is so at all places it comes to. -/
theorem oneMessage_session_iff (h : Jumps turn sock inv jump) (hshrinks : Shrinks jump)
    {fine : List Part → Prop} (hnil : fine [])
    (hfine : ∀ arg c, (∀ r ∈ (turn arg c).1, r.OneMessage) ↔ fine (sock c).queue) {n : Nat}
    {args : Nat → A} {c : ClientSock} (hc : inv (sock c)) (hn : (sock c).queue.length ≤ n) :
    (∀ t ∈ session turn sock args n c, ∀ r ∈ t.calls, r.OneMessage) ↔
      ∀ s, Reaches jump (sock c).queue s → fine s := by
  constructor
  · intro hone s hreach
    by_cases hs : s = []
    · rw [hs]
      exact hnil
    · obtain ⟨t, ht, hbefore⟩ := (exists_turn_iff h hshrinks hc hn hs).mpr hreach
      have hcalls := hone t ht
      obtain ⟨i, c', -, rfl⟩ := mem_session h hc ht
      rw [← hbefore]
      exact (hfine _ c').mp hcalls
  · intro hall t ht
    by_cases hs : t.before = []
    · obtain ⟨i, c', -, rfl⟩ := mem_session h hc ht
      refine (hfine _ c').mpr ?_
      rw [show (sock c').queue = [] from hs]
      exact hnil
    · have hreach := (exists_turn_iff h hshrinks hc hn hs).mp ⟨t, ht, rfl⟩
      obtain ⟨i, c', -, rfl⟩ := mem_session h hc ht
      exact (hfine _ c').mpr (hall _ hreach)

theorem stream_ne_nil {m : Msg} (hm : m ≠ []) (post : List Msg) : stream (m :: post) ≠ [] := by
  intro h
  have hlen := congrArg List.length h
  rw [stream_cons, List.length_append, length_parts, List.length_nil] at hlen
  have := List.length_pos_iff.mpr hm
  omega

/-- **A well-formed message is returned when the turns come to its beginning**, and a turn made
there returns it. -/
theorem returned_of_reaches (h : Jumps turn sock inv jump) (hshrinks : Shrinks jump) {m : Msg}
    (hm : m ≠ []) {post : List Msg} {fs : Msg} {args : Nat → A}
    (hread : ∀ i c', inv (sock c') → (sock c').queue = stream (m :: post) →
      (sock (turn (args i) c').2).queue = stream post ∧
        Turn.Got ⟨(sock c').queue, (sock (turn (args i) c').2).queue, (turn (args i) c').1⟩ fs)
    {n : Nat} {c : ClientSock} (hc : inv (sock c)) (hn : (sock c).queue.length ≤ n)
    (hreach : Reaches jump (sock c).queue (stream (m :: post))) :
    Returned (session turn sock args n c) m post fs := by
  have hne := stream_ne_nil hm post
  have hbefore := map_before_session h n args c hc
  obtain ⟨t, ht, htbefore⟩ := (exists_turn_iff h hshrinks hc hn hne).mpr hreach
  obtain ⟨us, vs, hts⟩ := List.append_of_mem ht
  obtain ⟨i, c', hc', rfl⟩ := mem_session h hc ht
  obtain ⟨hafter, hgot⟩ := hread i c' hc' htbefore
  refine ⟨us, _, vs, hts, htbefore, hafter, hgot, fun v hv heq => ?_⟩
  rw [hts, List.map_append, List.map_cons, htbefore] at hbefore
  obtain ⟨hus, hvs⟩ := notMem_of_iterate hshrinks hne hbefore.symm
  rcases List.mem_append.mp hv with hv | hv
  · exact hus (heq ▸ List.mem_map_of_mem hv)
  · exact hvs (heq ▸ List.mem_map_of_mem hv)

/-- A message that is not come to is not returned. -/
theorem reaches_of_returned (h : Jumps turn sock inv jump) (hshrinks : Shrinks jump) {m : Msg}
    (hm : m ≠ []) {post : List Msg} {fs : Msg} {args : Nat → A} {n : Nat} {c : ClientSock}
    (hc : inv (sock c)) (hn : (sock c).queue.length ≤ n)
    (hreturned : Returned (session turn sock args n c) m post fs) :
    Reaches jump (sock c).queue (stream (m :: post)) := by
  obtain ⟨us, t, vs, hts, hbefore, -⟩ := hreturned
  have ht : t ∈ session turn sock args n c := by
    rw [hts]
    simp
  exact (exists_turn_iff h hshrinks hc hn (stream_ne_nil hm post)).mp ⟨t, ht, hbefore⟩

/-- Behind messages that are each read to their end the next is come to. -/
theorem reaches_stream {pre : List Msg} (h : ∀ m ∈ pre, ∀ s, Reaches jump (parts m ++ s) s)
    (post : List Msg) : Reaches jump (stream (pre ++ post)) (stream post) := by
  induction pre with
  | nil => exact Reaches.refl _
  | cons m pre ih =>
      obtain ⟨hm, hpre⟩ := List.forall_mem_cons.mp h
      rw [List.cons_append, stream_cons]
      exact (hm _).trans (ih hpre)

end Jumps

/-! ### Two frames at a time

`mq_recv_req` and `mq_recv_res` read a frame and the one behind it.  Some frames they read
alone.
-/

section Pairs

variable {alone : Part → Prop} [DecidablePred alone]

def pairJump (alone : Part → Prop) [DecidablePred alone] : List Part → List Part
  | [] => []
  | [_] => []
  | p :: q :: rest => if alone p then q :: rest else rest

theorem shrinks_pairJump : Shrinks (pairJump alone) where
  nil := rfl
  lt s hs := by
    rcases s with _ | ⟨p, _ | ⟨q, rest⟩⟩
    · exact absurd rfl hs
    · exact Nat.zero_lt_one
    · rw [pairJump]
      split <;> simp only [List.length_cons]
      · omega
      · omega

/-- What is done with the first frame of a message that has more. -/
theorem pairJump_parts (f g : Frame) (rest : Msg) (s : List Part) :
    pairJump alone (parts (f :: g :: rest) ++ s)
      = if alone ⟨f, true⟩ then parts (g :: rest) ++ s else parts rest ++ s := by
  cases rest <;> rfl

/-- And with the last, when that is read alone. -/
theorem pairJump_last {f : Frame} {s : List Part} (h : alone ⟨f, false⟩ ∨ s = []) :
    pairJump alone (parts [f] ++ s) = s := by
  cases s with
  | nil => rfl
  | cons q s => exact if_pos (h.resolve_right (by simp))

/-- Such a call stays in one message unless it begins in front of a last frame that is not read
alone, with another behind it. -/
theorem oneMessage_pairJump_iff {r : ReadCall} (h : r.after = pairJump alone r.before) :
    r.OneMessage ↔ ∀ p q rest, r.before = p :: q :: rest → ¬ alone p → p.more = true := by
  rw [ReadCall.OneMessage, h]
  rcases r.before with _ | ⟨p, _ | ⟨q, rest⟩⟩
  · exact iff_of_true ⟨[], rfl, by simp⟩ (by simp)
  · exact iff_of_true ⟨[p], rfl, by simp⟩ (by simp)
  · rw [pairJump]
    by_cases hp : alone p
    · rw [if_pos hp]
      refine iff_of_true ⟨[p], rfl, by simp⟩ ?_
      intro x y l heq hx
      rw [List.cons.injEq] at heq
      exact absurd (heq.1 ▸ hp) hx
    · rw [if_neg hp]
      constructor
      · intro ⟨ps, hps, hmore⟩ x y l heq _
        have hps' : p :: [q] ++ rest = ps ++ rest := hps
        obtain rfl := List.append_cancel_right hps'
        rw [List.cons.injEq] at heq
        rw [← heq.1]
        exact hmore p (by simp)
      · intro h
        exact ⟨[p, q], rfl, by simpa using h p q rest rfl hp⟩

end Pairs

/-! ### Requests -/

/-- An empty frame and the last of a message are read alone. -/
def reqJump : List Part → List Part := pairJump fun p => p.bytes = [] ∨ p.more = false

theorem left_reqTurn (arg : MqTag × List Byte) (c : ClientSock) :
    (reqTurn arg c).2.zmqPull.queue = reqJump c.zmqPull.queue := by
  show (mqRecvReq c arg.1 arg.2).sock.zmqPull.queue = reqJump c.zmqPull.queue
  rcases hq : c.zmqPull.queue with _ | ⟨p, _ | ⟨q, rest⟩⟩
  · simp [mqRecvReq, In.recv, hq, reqJump, pairJump]
  · by_cases hp : p.bytes = [] <;> by_cases hmore : p.more = true <;>
      simp [mqRecvReq, In.recv, hq, hp, hmore, reqJump, pairJump]
  · by_cases hp : p.bytes = []
    · simp [mqRecvReq, In.recv, hq, hp, reqJump, pairJump]
    · by_cases hmore : p.more = true
      · by_cases hbody : q.bytes = [] <;>
          simp [mqRecvReq, In.recv, hq, hp, hmore, hbody, reqJump, pairJump]
      · simp [mqRecvReq, In.recv, hq, hp, hmore, reqJump, pairJump]

theorem jumps_reqTurn : Jumps reqTurn ClientSock.zmqPull (fun _ => True) reqJump :=
  ⟨fun arg c _ => left_reqTurn arg c, fun _ _ _ => trivial⟩

theorem oneMessage_reqTurn (arg : MqTag × List Byte) (c : ClientSock) :
    ∀ r ∈ (reqTurn arg c).1, r.OneMessage := by
  intro r hr
  obtain rfl := List.mem_singleton.mp hr
  apply (oneMessage_pairJump_iff (left_reqTurn arg c)).mpr
  intro p q rest _ hp
  rw [← Bool.not_eq_false]
  exact fun hmore => hp (Or.inr hmore)

/-- Every message is read to its end. -/
theorem reaches_req (m : Msg) (s : List Part) : Reaches reqJump (parts m ++ s) s := by
  induction m using List.twoStepInduction with
  | nil => exact Reaches.refl s
  | singleton f =>
      apply Reaches.step
      rw [reqJump, pairJump_last (Or.inl (Or.inr rfl))]
      exact Reaches.refl s
  | cons_cons f g rest ih ih' =>
      apply Reaches.step
      rw [reqJump, pairJump_parts]
      split
      · exact ih' g
      · exact ih

/-- A request is returned with its tag and its body. -/
theorem read_req {tag : MqTag} {body : Frame} (hbody : body ≠ []) {post : List Msg}
    {c : ClientSock} (hq : c.zmqPull.queue = stream ([tag.mem, body] :: post))
    {arg : MqTag × List Byte} (hroom : body.length ≤ arg.2.length) :
    (reqTurn arg c).2.zmqPull.queue = stream post ∧
      Turn.Got ⟨c.zmqPull.queue, (reqTurn arg c).2.zmqPull.queue, (reqTurn arg c).1⟩
        [tag.mem, body] := by
  have hqueue : c.zmqPull.queue = ⟨tag.mem, true⟩ :: ⟨body, false⟩ :: stream post := hq
  have hcall : mqRecvReq c arg.1 arg.2 = ⟨0, { c with
      zmqPull := ⟨stream post, false⟩
      sndrcv := countRecv c.sndrcv body.length }, tag, store arg.2 0 body⟩ := by
    simp [mqRecvReq, In.recv, hqueue, tag.mem_ne_nil, hbody, MqTag.recv_mem]
  have hstored : body <+: store arg.2 0 body := by
    rw [store_front hroom]
    exact List.prefix_append _ _
  simp only [reqTurn, hcall, Turn.Got]
  exact ⟨trivial, .cons (List.prefix_refl _) (.cons hstored .nil)⟩

theorem resyncs_req {room : Nat} {ms : List Msg} (hms : Fits room ms) {c : ClientSock}
    (hpull : c.zmqPull = In.holding ms) {args : Nat → MqTag × List Byte}
    (hargs : ∀ i, room ≤ (args i).2.length) {n : Nat} (hn : (stream ms).length ≤ n) :
    Resyncs IsReq id ms (session reqTurn ClientSock.zmqPull args n c) := by
  have hqueue : c.zmqPull.queue = stream ms := by rw [hpull, In.holding]
  constructor
  · intro t ht
    obtain ⟨i, c', -, rfl⟩ := mem_session jumps_reqTurn trivial ht
    exact oneMessage_reqTurn (args i) c'
  · rintro pre m post hms' ⟨tag, body, hbody, rfl⟩
    have hlen : body.length < room := (hms [tag.mem, body] (by simp [hms'])).2 body (by simp)
    refine returned_of_reaches jumps_reqTurn shrinks_pairJump (by simp) ?_ trivial
      (by rw [hqueue]; exact hn) ?_
    · intro i c' _ hq
      have := hargs i
      exact read_req hbody hq (by omega)
    · rw [hqueue, hms']
      exact reaches_stream (fun k _ => reaches_req k) _

/-! ### Responses -/

theorem terminated_makeEof {buf : List Byte} {f : Frame} (h : f.length < buf.length) :
    f ++ [0] <+: makeEof (store buf 0 f) f.length := by
  rw [makeEof, store_set_end h]
  exact ⟨buf.drop (f.length + 1), by simp⟩

/-- An empty frame is read alone. -/
def resJump : List Part → List Part := pairJump fun p => p.bytes = []

theorem left_resTurn (buf : List Byte) (c : ClientSock) :
    (resTurn buf c).2.zmqSub.queue = resJump c.zmqSub.queue := by
  show (mqRecvRes c buf).sock.zmqSub.queue = resJump c.zmqSub.queue
  rcases hq : c.zmqSub.queue with _ | ⟨p, _ | ⟨q, rest⟩⟩
  · simp [mqRecvRes, In.recv, hq, resJump, pairJump]
  · by_cases hp : p.bytes = [] <;> simp [mqRecvRes, In.recv, hq, hp, resJump, pairJump]
  · by_cases hp : p.bytes = []
    · simp [mqRecvRes, In.recv, hq, hp, resJump, pairJump]
    · by_cases hbody : q.bytes = [] <;> simp [mqRecvRes, In.recv, hq, hp, hbody, resJump, pairJump]

theorem jumps_resTurn : Jumps resTurn ClientSock.zmqSub (fun _ => True) resJump :=
  ⟨fun buf c _ => left_resTurn buf c, fun _ _ _ => trivial⟩

/-- Reading the message so comes to its last frame, and that is not empty: it is read with the
first of the next. -/
def Overruns : Msg → Bool
  | [] => false
  | [f] => !f.isEmpty
  | f :: g :: rest => if f = [] then Overruns (g :: rest) else Overruns rest

theorem resJump_parts (f g : Frame) (rest : Msg) (s : List Part) :
    resJump (parts (f :: g :: rest) ++ s)
      = if f = [] then parts (g :: rest) ++ s else parts rest ++ s :=
  pairJump_parts f g rest s

theorem resJump_last {f : Frame} {s : List Part} (h : f = [] ∨ s = []) :
    resJump (parts [f] ++ s) = s := pairJump_last h

/-- A message that is not overrun is read to its end. -/
theorem reaches_res {m : Msg} (s : List Part) (h : Overruns m = false) :
    Reaches resJump (parts m ++ s) s := by
  induction m using List.twoStepInduction with
  | nil => exact Reaches.refl s
  | singleton f =>
      have hf : f = [] := by simpa [Overruns] using h
      refine Reaches.step ?_
      rw [resJump_last (Or.inl hf)]
      exact Reaches.refl s
  | cons_cons f g rest ih ih' =>
      refine Reaches.step ?_
      rw [resJump_parts]
      rw [Overruns] at h
      by_cases hf : f = []
      · rw [if_pos hf] at h ⊢
        exact ih' g h
      · rw [if_neg hf] at h ⊢
        exact ih h

/-- In one that is, the reader comes to the last frame. -/
theorem reaches_last {m : Msg} (s : List Part) (h : Overruns m = true) :
    ∃ f, f ≠ [] ∧ Reaches resJump (parts m ++ s) (⟨f, false⟩ :: s) := by
  induction m using List.twoStepInduction with
  | nil => exact absurd h (by simp [Overruns])
  | singleton f => exact ⟨f, by simpa [Overruns] using h, Reaches.refl _⟩
  | cons_cons f g rest ih ih' =>
      rw [Overruns] at h
      by_cases hf : f = []
      · rw [if_pos hf] at h
        obtain ⟨x, hx, hreach⟩ := ih' g h
        refine ⟨x, hx, Reaches.step ?_⟩
        rw [resJump_parts, if_pos hf]
        exact hreach
      · rw [if_neg hf] at h
        obtain ⟨x, hx, hreach⟩ := ih h
        refine ⟨x, hx, Reaches.step ?_⟩
        rw [resJump_parts, if_neg hf]
        exact hreach

/-- In front of a last frame that is not empty nothing else waits behind it. -/
def InStep (s : List Part) : Prop :=
  ∀ p q rest, s = p :: q :: rest → p.bytes ≠ [] → p.more = true

theorem inStep_nil : InStep [] := fun _ _ _ h => absurd h (by simp)

theorem oneMessage_resTurn_iff (buf : List Byte) (c : ClientSock) :
    (∀ r ∈ (resTurn buf c).1, r.OneMessage) ↔ InStep c.zmqSub.queue := by
  rw [resTurn, List.forall_mem_singleton]
  exact oneMessage_pairJump_iff (left_resTurn buf c)

/-- Of no message but the last the reader comes to the last frame, unless that is empty. -/
def InStepBefore (ms : List Msg) : Prop := ∀ m ∈ ms.dropLast, Overruns m = false

theorem inStepBefore_cons_cons (m k : Msg) (ms : List Msg) :
    InStepBefore (m :: k :: ms) ↔ Overruns m = false ∧ InStepBefore (k :: ms) := by
  simp [InStepBefore]

theorem InStepBefore.tail {m : Msg} {ms : List Msg} (h : InStepBefore (m :: ms)) :
    InStepBefore ms := by
  cases ms with
  | nil => simp [InStepBefore]
  | cons k ms => exact ((inStepBefore_cons_cons m k ms).mp h).2

/-- A message in front can be exchanged for one that is not worse. -/
theorem InStepBefore.head {m m' : Msg} {ms : List Msg} (h : InStepBefore (m :: ms))
    (hm : Overruns m' = Overruns m) : InStepBefore (m' :: ms) := by
  cases ms with
  | nil => simp [InStepBefore]
  | cons k ms =>
      rw [inStepBefore_cons_cons] at h ⊢
      rw [hm]
      exact h

theorem InStepBefore.inStep {ms : List Msg} (h : InStepBefore ms) : InStep (stream ms) := by
  induction ms with
  | nil => exact inStep_nil
  | cons m ms ih =>
      rcases m with _ | ⟨f, _ | ⟨g, rest⟩⟩
      · exact ih h.tail
      · intro p q rest heq hp
        rw [stream_cons, parts_singleton, List.singleton_append, List.cons.injEq] at heq
        obtain ⟨rfl, hq⟩ := heq
        cases ms with
        | nil => exact absurd hq (by simp)
        | cons k ms =>
            have hfirst := ((inStepBefore_cons_cons [f] k ms).mp h).1
            exact absurd (by simpa [Overruns] using hfirst) hp
      · intro p q l heq _
        rw [stream_cons, parts_cons_cons, List.cons_append, List.cons.injEq] at heq
        rw [← heq.1]

/-- A call leaves messages, or the rest of one and messages, that are as good as those it
found. -/
theorem InStepBefore.resJump {ms : List Msg} (h : InStepBefore ms) :
    ∃ ms', resJump (stream ms) = stream ms' ∧ InStepBefore ms' := by
  induction ms with
  | nil => exact ⟨[], rfl, h⟩
  | cons m ms ih =>
      rcases m with _ | ⟨f, _ | ⟨g, rest⟩⟩
      · exact ih h.tail
      · have halone : f = [] ∨ stream ms = [] := by
          cases ms with
          | nil => exact Or.inr rfl
          | cons k ms =>
              have hfirst := ((inStepBefore_cons_cons [f] k ms).mp h).1
              exact Or.inl (by simpa [Overruns] using hfirst)
        rw [stream_cons, resJump_last halone]
        exact ⟨ms, rfl, h.tail⟩
      · rw [stream_cons, resJump_parts]
        by_cases hf : f = []
        · rw [if_pos hf]
          exact ⟨(g :: rest) :: ms, rfl, h.head (by rw [Overruns, if_pos hf])⟩
        · rw [if_neg hf]
          exact ⟨rest :: ms, rfl, h.head (by rw [Overruns, if_neg hf])⟩

/-- A response is returned with its body. -/
theorem read_res {name body : Frame} (hname : name ≠ []) (hbody : body ≠ []) {post : List Msg}
    {c : ClientSock} (hq : c.zmqSub.queue = stream ([name, body] :: post)) {buf : List Byte}
    (hroom : body.length < buf.length) :
    (resTurn buf c).2.zmqSub.queue = stream post ∧
      Turn.Got ⟨c.zmqSub.queue, (resTurn buf c).2.zmqSub.queue, (resTurn buf c).1⟩
        (terminated [body]) := by
  have hqueue : c.zmqSub.queue = ⟨name, true⟩ :: ⟨body, false⟩ :: stream post := hq
  have hcall : mqRecvRes c buf = ⟨0, { c with
      zmqSub := ⟨stream post, false⟩
      sndrcv := countRecv c.sndrcv body.length }, makeEof (store buf 0 body) body.length⟩ := by
    simp [mqRecvRes, In.recv, hqueue, hname, hbody]
  simp only [resTurn, hcall, Turn.Got]
  exact ⟨trivial, .cons (terminated_makeEof hroom) .nil⟩

/-- Messages read so are in step at every place that is come to, and only then. -/
theorem inStep_iff {ms : List Msg} (hms : ∀ m ∈ ms, m ≠ []) :
    (∀ s, Reaches resJump (stream ms) s → InStep s) ↔ InStepBefore ms := by
  constructor
  · induction ms with
    | nil => intro _; simp [InStepBefore]
    | cons m ms ih =>
        intro h
        obtain ⟨-, hrest⟩ := List.forall_mem_cons.mp hms
        cases ms with
        | nil => simp [InStepBefore]
        | cons k ms =>
            have hm : Overruns m = false := by
              rw [← Bool.not_eq_true]
              intro hover
              -- the reader comes to the last frame of `m`, and `k` waits behind it
              obtain ⟨f, hf, hreach⟩ := reaches_last (stream (k :: ms)) hover
              obtain ⟨q, rest, hq⟩ :=
                List.exists_cons_of_ne_nil (stream_ne_nil (hrest k (by simp)) ms)
              rw [hq] at hreach
              have hmore := h _ (by rw [stream_cons, hq]; exact hreach) _ q rest rfl hf
              exact absurd hmore (by simp)
            rw [inStepBefore_cons_cons]
            refine ⟨hm, ih hrest fun s hs => h s ?_⟩
            rw [stream_cons]
            exact (reaches_res _ hm).trans hs
  · rintro h s ⟨n, rfl⟩
    obtain ⟨ms', hms', h'⟩ : ∃ ms', resJump^[n] (stream ms) = stream ms' ∧ InStepBefore ms' := by
      clear hms
      induction n generalizing ms with
      | zero => exact ⟨ms, rfl, h⟩
      | succ n ih =>
          obtain ⟨ms', hms', h'⟩ := h.resJump
          rw [Function.iterate_succ_apply, hms']
          exact ih h'
    rw [hms']
    exact h'.inStep

/-- A response is overrun when it has no name. -/
theorem overruns_res_iff {name body : Frame} (hbody : body ≠ []) :
    Overruns [name, body] = true ↔ name = [] := by
  by_cases hname : name = [] <;> simp [Overruns, hname, hbody]

/-- The messages in front of one are not the last. -/
theorem InStepBefore.of_append {pre post : List Msg} (h : InStepBefore (pre ++ post))
    (hpost : post ≠ []) : (∀ m ∈ pre, Overruns m = false) ∧ InStepBefore post := by
  unfold InStepBefore at h ⊢
  rw [List.dropLast_append_of_ne_nil hpost] at h
  exact List.forall_mem_append.mp h

/-- **The receivers of responses find back to the messages unless one is overrun that has
another behind it, or is itself a response.** -/
theorem resyncs_res_iff {room : Nat} {ms : List Msg} (hms : Fits room ms) {c : ClientSock}
    (hsub : c.zmqSub = In.holding ms) {bufs : Nat → List Byte}
    (hbufs : ∀ i, room ≤ (bufs i).length) {n : Nat} (hn : (stream ms).length ≤ n) :
    Resyncs IsRes (fun m => terminated m.tail) ms (session resTurn ClientSock.zmqSub bufs n c) ↔
      InStepBefore ms ∧ ∀ m ∈ ms.getLast?, IsRes m → Overruns m = false := by
  have hqueue : c.zmqSub.queue = stream ms := by rw [hsub, In.holding]
  have hlen : c.zmqSub.queue.length ≤ n := by rw [hqueue]; exact hn
  have hone : (∀ t ∈ session resTurn ClientSock.zmqSub bufs n c, ∀ r ∈ t.calls, r.OneMessage) ↔
      ∀ s, Reaches resJump c.zmqSub.queue s → InStep s :=
    oneMessage_session_iff jumps_resTurn shrinks_pairJump inStep_nil oneMessage_resTurn_iff trivial
      hlen
  rw [hqueue, inStep_iff fun m hm => (hms m hm).1] at hone
  constructor
  · intro h
    refine ⟨hone.mp h.oneMessage, fun m hlast hres => ?_⟩
    obtain ⟨pre, hpre⟩ := List.getLast?_eq_some_iff.mp hlast
    obtain ⟨us, t, vs, hts, hbefore, hafter, -⟩ := h.returned pre m [] hpre hres
    have ht : t ∈ session resTurn ClientSock.zmqSub bufs n c := by
      rw [hts]
      simp
    have hjump : t.after = resJump t.before := after_session jumps_resTurn trivial ht
    obtain ⟨name, body, hbody, rfl⟩ := hres
    rw [← Bool.not_eq_true, overruns_res_iff hbody]
    rintro rfl
    -- without a name the turn leaves the body
    rw [hbefore, hafter] at hjump
    exact absurd hjump (by simp [resJump, pairJump])
  · rintro ⟨hbefore, hlast⟩
    refine ⟨hone.mpr hbefore, ?_⟩
    rintro pre m post hms' hres
    rw [hms'] at hbefore
    obtain ⟨hpre, hrest⟩ := hbefore.of_append (by simp)
    have hm : Overruns m = false := by
      cases post with
      | nil => exact hlast m (by simp [hms']) hres
      | cons k post => exact ((inStepBefore_cons_cons m k post).mp hrest).1
    obtain ⟨name, body, hbody, rfl⟩ := hres
    have hname : name ≠ [] := fun hname =>
      absurd ((overruns_res_iff hbody).mpr hname) (by rw [hm]; simp)
    have hroom : body.length < room := (hms [name, body] (by simp [hms'])).2 body (by simp)
    refine returned_of_reaches jumps_resTurn shrinks_pairJump (by simp) ?_ trivial hlen ?_
    · intro i c' _ hq
      exact read_res hname hbody hq (Nat.lt_of_lt_of_le hroom (hbufs i))
    · rw [hqueue, hms']
      exact reaches_stream (fun k hk s => reaches_res s (hpre k hk)) _

/-! ### Configurations -/

theorem ended_one {r : ReadCall} (h : r.rc ≠ 0) : Ended [r] := ⟨[], r, rfl, h⟩

theorem Ended.cons {rs : List ReadCall} (h : Ended rs) (r : ReadCall) : Ended (r :: rs) := by
  obtain ⟨us, x, rfl, hx⟩ := h
  exact ⟨r :: us, x, rfl, hx⟩

/-- Behind the next frame that ends a message. -/
def afterLast : List Part → List Part
  | [] => []
  | p :: q => if p.more then afterLast q else q

/-- What `mq_recv_conf_name` leaves, and `RCVMORE`. -/
def nameJump : List Part → List Part × Bool
  | [] => ([], false)
  | [p] => ([], p.more)
  | p :: q :: rest => if p.more then (rest, q.more) else (q :: rest, false)

/-- The turn goes on to the end of a message when there was more behind the name, and
otherwise, if the caller goes on regardless, to the end of the next. -/
def confJump (regardless : Bool) (s : List Part) : List Part :=
  if (nameJump s).2 = true ∨ regardless = true then afterLast (nameJump s).1 else (nameJump s).1

/-- The frame that was read last, and those that wait, end with the end of a message. -/
def Ends : Bool → List Part → Prop
  | more, [] => more = false
  | _, p :: q => Ends p.more q

/-- At the end of a message, and whole messages wait. -/
def Settled (s : In) : Prop := s.more = false ∧ Ends s.more s.queue

theorem ends_parts {m : Msg} (hm : m ≠ []) (more : Bool) (s : List Part) :
    Ends more (parts m ++ s) ↔ Ends false s := by
  induction m generalizing more with
  | nil => exact absurd rfl hm
  | cons f m ih =>
      cases m with
      | nil => rfl
      | cons g m => exact ih (by simp) true

theorem settled_holding {ms : List Msg} (hms : ∀ m ∈ ms, m ≠ []) : Settled (In.holding ms) := by
  refine ⟨rfl, ?_⟩
  show Ends false (stream ms)
  induction ms with
  | nil => rfl
  | cons m ms ih =>
      obtain ⟨hm, hrest⟩ := List.forall_mem_cons.mp hms
      rw [stream_cons, ends_parts hm]
      exact ih hrest

theorem ends_afterLast : ∀ {s : List Part} {more : Bool}, Ends more s →
    Ends false (afterLast s) := by
  intro s
  induction s with
  | nil => intro more _; rfl
  | cons p q ih =>
      intro more h
      rw [afterLast]
      by_cases hp : p.more = true
      · rw [if_pos hp]
        exact ih h
      · rw [if_neg hp]
        rw [Bool.not_eq_true] at hp
        rw [Ends, hp] at h
        exact h

theorem ends_nameJump {s : List Part} (h : Ends false s) : Ends (nameJump s).2 (nameJump s).1 := by
  rcases s with _ | ⟨p, _ | ⟨q, rest⟩⟩
  · exact h
  · exact h
  · rw [nameJump]
    by_cases hp : p.more = true
    · rw [if_pos hp]
      exact h
    · rw [if_neg hp]
      exact h

theorem mqRecvConfName_settled {c : ClientSock} (h : c.zmqConf.more = false) (buf : List Byte) :
    (mqRecvConfName c buf).rc = (if (nameJump c.zmqConf.queue).2 then 0 else -1) ∧
      (mqRecvConfName c buf).sock.zmqConf
        = ⟨(nameJump c.zmqConf.queue).1, (nameJump c.zmqConf.queue).2⟩ := by
  rcases hconf : c.zmqConf with ⟨queue, more⟩
  rw [hconf] at h
  obtain rfl : more = false := h
  unfold mqRecvConfName
  rw [hconf]
  rcases queue with _ | ⟨p, _ | ⟨q, rest⟩⟩
  · exact ⟨rfl, rfl⟩
  · by_cases hp : p.more = true <;> simp [nameJump, recvEof, hp]
  · by_cases hp : p.more = true <;> simp [nameJump, recvEof, hp]

/-- The calls for the rest of a message come to its end, and the last of them says so. -/
theorem confBodies_settles : ∀ {fuel : Nat} {bufs : Nat → List Byte} {c : ClientSock},
    Ends c.zmqConf.more c.zmqConf.queue → c.zmqConf.queue.length ≤ fuel →
    (confBodies bufs fuel c).2.zmqConf = ⟨afterLast c.zmqConf.queue, false⟩ ∧
      Ended (confBodies bufs fuel c).1 := by
  intro fuel
  induction fuel with
  | zero =>
      intro bufs c hends hfuel
      rcases hconf : c.zmqConf with ⟨queue, more⟩
      rw [hconf] at hends hfuel
      obtain rfl := List.eq_nil_of_length_eq_zero (Nat.le_zero.mp hfuel)
      obtain rfl : more = false := hends
      rw [confBodies, mqRecvConfBody_nil hconf]
      exact ⟨rfl, ended_one (by simp)⟩
  | succ fuel ih =>
      intro bufs c hends hfuel
      rcases hconf : c.zmqConf with ⟨queue, more⟩
      rw [hconf] at hends hfuel
      cases queue with
      | nil =>
          obtain rfl : more = false := hends
          rw [confBodies, mqRecvConfBody_nil hconf]
          exact ⟨rfl, ended_one (by simp)⟩
      | cons p q =>
          rw [confBodies, mqRecvConfBody_cons hconf]
          by_cases hp : p.more = true
          · obtain ⟨hsock, hlast⟩ := @ih (fun i => bufs (i + 1))
              { c with zmqConf := ⟨q, p.more⟩ } hends (Nat.le_of_succ_le_succ hfuel)
            simp only [hp, if_true, afterLast] at hsock hlast ⊢
            exact ⟨hsock, hlast.cons _⟩
          · rw [afterLast, if_neg hp]
            simp only [hp, Bool.false_eq_true, if_false, reduceCtorEq]
            exact ⟨by simp, ended_one (by simp)⟩

theorem confTurn_settles (regardless : Bool) (bufs : Nat → List Byte) {c : ClientSock}
    (h : Settled c.zmqConf) :
    (confTurn regardless bufs c).2.zmqConf = ⟨confJump regardless c.zmqConf.queue, false⟩ ∧
      Ended (confTurn regardless bufs c).1 := by
  obtain ⟨hmore, hends⟩ := h
  obtain ⟨hrc, hsock⟩ := mqRecvConfName_settled hmore (bufs 0)
  rw [hmore] at hends
  have hrc0 : (mqRecvConfName c (bufs 0)).rc = 0 ↔ (nameJump c.zmqConf.queue).2 = true := by
    rw [hrc]
    split <;> simp_all
  unfold confTurn confJump
  by_cases hgo : (nameJump c.zmqConf.queue).2 = true ∨ regardless = true
  · have hleft : Ends (mqRecvConfName c (bufs 0)).sock.zmqConf.more
        (mqRecvConfName c (bufs 0)).sock.zmqConf.queue := by
      rw [hsock]
      exact ends_nameJump hends
    have hbodies := @confBodies_settles _ (fun i => bufs (i + 1)) _ hleft (Nat.le_refl _)
    simp only [hrc0, if_pos hgo]
    refine ⟨?_, hbodies.2.cons _⟩
    rw [hbodies.1, hsock]
  · simp only [hrc0, if_neg hgo]
    have hstop : (nameJump c.zmqConf.queue).2 = false := by
      rw [← Bool.not_eq_true]
      exact fun h => hgo (Or.inl h)
    rw [hstop] at hsock hrc
    exact ⟨hsock, ended_one (by rw [hrc]; simp)⟩

theorem ends_confJump (regardless : Bool) {s : List Part} (h : Ends false s) :
    Ends false (confJump regardless s) := by
  have hname := ends_nameJump h
  unfold confJump
  by_cases hgo : (nameJump s).2 = true ∨ regardless = true
  · rw [if_pos hgo]
    exact ends_afterLast hname
  · rw [if_neg hgo]
    rw [not_or, Bool.not_eq_true] at hgo
    rw [hgo.1] at hname
    exact hname

theorem jumps_confTurn (regardless : Bool) :
    Jumps (confTurn regardless) ClientSock.zmqConf Settled (confJump regardless) where
  left bufs c h := by rw [(confTurn_settles regardless bufs h).1]
  keeps bufs c h := by
    rw [(confTurn_settles regardless bufs h).1]
    exact ⟨rfl, ends_confJump regardless (h.1 ▸ h.2)⟩

theorem length_afterLast_le : ∀ s : List Part, (afterLast s).length ≤ s.length := by
  intro s
  induction s with
  | nil => exact Nat.le_refl _
  | cons p q ih =>
      rw [afterLast, List.length_cons]
      split <;> omega

theorem length_nameJump_lt {s : List Part} (h : s ≠ []) : (nameJump s).1.length < s.length := by
  rcases s with _ | ⟨p, _ | ⟨q, rest⟩⟩
  · exact absurd rfl h
  · simp [nameJump]
  · rw [nameJump]
    split <;> simp only [List.length_cons]
    · omega
    · omega

theorem shrinks_confJump (regardless : Bool) : Shrinks (confJump regardless) where
  nil := by
    unfold confJump
    split <;> rfl
  lt s hs := by
    have hname := length_nameJump_lt hs
    have hrest := length_afterLast_le (nameJump s).1
    unfold confJump
    split <;> omega

theorem oneMessage_confBody (c : ClientSock) (buf : List Byte) :
    ReadCall.OneMessage ⟨c.zmqConf.queue, (mqRecvConfBody c buf).sock.zmqConf.queue,
      (mqRecvConfBody c buf).rc, [(mqRecvConfBody c buf).buf]⟩ := by
  rcases hconf : c.zmqConf with ⟨_ | ⟨p, q⟩, more⟩
  · rw [mqRecvConfBody_nil hconf]
    exact ⟨[], rfl, by simp⟩
  · rw [mqRecvConfBody_cons hconf]
    exact ⟨[p], rfl, by simp⟩

theorem oneMessage_confBodies : ∀ (fuel : Nat) (bufs : Nat → List Byte) (c : ClientSock),
    ∀ r ∈ (confBodies bufs fuel c).1, r.OneMessage := by
  intro fuel
  induction fuel with
  | zero =>
      intro bufs c r hr
      rw [confBodies] at hr
      obtain rfl := List.mem_singleton.mp hr
      exact oneMessage_confBody c (bufs 0)
  | succ fuel ih =>
      intro bufs c r hr
      rw [confBodies] at hr
      by_cases hrc : (mqRecvConfBody c (bufs 0)).rc = 0
      · simp only [if_pos hrc] at hr
        rcases List.mem_cons.mp hr with rfl | hr
        · exact oneMessage_confBody c (bufs 0)
        · exact ih _ _ r hr
      · simp only [if_neg hrc] at hr
        obtain rfl := List.mem_singleton.mp hr
        exact oneMessage_confBody c (bufs 0)

theorem oneMessage_confTurn (regardless : Bool) (bufs : Nat → List Byte) {c : ClientSock}
    (h : Settled c.zmqConf) : ∀ r ∈ (confTurn regardless bufs c).1, r.OneMessage := by
  have hname : ReadCall.OneMessage ⟨c.zmqConf.queue, (mqRecvConfName c (bufs 0)).sock.zmqConf.queue,
      (mqRecvConfName c (bufs 0)).rc, [(mqRecvConfName c (bufs 0)).buf]⟩ := by
    rw [ReadCall.OneMessage, (mqRecvConfName_settled h.1 (bufs 0)).2]
    rcases c.zmqConf.queue with _ | ⟨p, _ | ⟨q, rest⟩⟩
    · exact ⟨[], rfl, by simp⟩
    · exact ⟨[p], rfl, by simp⟩
    · by_cases hp : p.more = true
      · exact ⟨[p, q], by simp [nameJump, hp], by simp [hp]⟩
      · exact ⟨[p], by simp [nameJump, hp], by simp⟩
  intro r hr
  unfold confTurn at hr
  by_cases hgo : (mqRecvConfName c (bufs 0)).rc = 0 ∨ regardless = true
  · simp only [if_pos hgo] at hr
    rcases List.mem_cons.mp hr with rfl | hr
    · exact hname
    · exact oneMessage_confBodies _ _ _ r hr
  · simp only [if_neg hgo] at hr
    obtain rfl := List.mem_singleton.mp hr
    exact hname

/-- The calls for the rest of a configuration return its chunks. -/
theorem confBodies_chunks {room : Nat} {post : List Msg} : ∀ {chunks : List Frame} {fuel : Nat}
    {c : ClientSock} {bufs : Nat → List Byte}, (∀ f ∈ chunks, f.length < room) →
    (∀ i, room ≤ (bufs i).length) → c.zmqConf.queue = parts (chunks ++ [[]]) ++ stream post →
    c.zmqConf.queue.length ≤ fuel →
    List.Forall₂ (fun f b => f <+: b) (terminated chunks)
      (((confBodies bufs fuel c).1.filter fun r => r.rc = 0).flatMap ReadCall.got) := by
  intro chunks
  induction chunks with
  | nil =>
      intro fuel c bufs _ _ hqueue _
      have hconf : c.zmqConf = ⟨⟨[], false⟩ :: stream post, c.zmqConf.more⟩ := by
        rw [← show c.zmqConf.queue = ⟨[], false⟩ :: stream post from hqueue]
      have hbody := mqRecvConfBody_cons hconf (bufs 0)
      have hcalls : ((confBodies bufs fuel c).1.filter fun r => r.rc = 0) = [] := by
        cases fuel <;> simp [confBodies, hbody]
      rw [hcalls]
      exact .nil
  | cons f chunks ih =>
      intro fuel c bufs hchunks hbufs hqueue hfuel
      obtain ⟨hf, hrest⟩ := List.forall_mem_cons.mp hchunks
      rw [List.cons_append, parts_cons (by simp), List.cons_append] at hqueue
      have hconf : c.zmqConf
          = ⟨⟨f, true⟩ :: (parts (chunks ++ [[]]) ++ stream post), c.zmqConf.more⟩ := by
        rw [← hqueue]
      obtain ⟨k, rfl⟩ : ∃ k, fuel = k + 1 := by
        rw [hqueue, List.length_cons] at hfuel
        exact ⟨fuel - 1, by omega⟩
      have hbody := mqRecvConfBody_cons hconf (bufs 0)
      have hbodies := @ih k { c with zmqConf := ⟨parts (chunks ++ [[]]) ++ stream post, true⟩ }
        (fun i => bufs (i + 1)) hrest (fun i => hbufs (i + 1)) rfl (by
          rw [hqueue, List.length_cons] at hfuel
          exact Nat.le_of_succ_le_succ hfuel)
      rw [confBodies, hbody]
      exact .cons (terminated_makeEof (Nat.lt_of_lt_of_le hf (hbufs 0))) hbodies

theorem afterLast_parts {m : Msg} (hm : m ≠ []) (s : List Part) : afterLast (parts m ++ s) = s := by
  induction m with
  | nil => exact absurd rfl hm
  | cons f m ih =>
      cases m with
      | nil => rfl
      | cons g m => exact ih (by simp)

/-- Only in a message of three frames or more is there something behind the name. -/
theorem nameJump_short {m : Msg} (hm : m ≠ []) (hshort : m.length < 3) (s : List Part) :
    nameJump (parts m ++ s) = (s, false) := by
  rcases m with _ | ⟨f, _ | ⟨g, _ | ⟨h, rest⟩⟩⟩
  · exact absurd rfl hm
  · cases s <;> rfl
  · rfl
  · exact absurd hshort (by simp)

theorem confJump_parts (regardless : Bool) {m : Msg} (hm : m ≠ []) (s : List Part) :
    confJump regardless (parts m ++ s)
      = if 3 ≤ m.length ∨ regardless = false then s else afterLast s := by
  by_cases hlong : 3 ≤ m.length
  · rw [if_pos (Or.inl hlong)]
    rcases m with _ | ⟨f, _ | ⟨g, _ | ⟨h, rest⟩⟩⟩
    · exact absurd rfl hm
    · simp at hlong
    · simp at hlong
    · have hname : nameJump (parts (f :: g :: h :: rest) ++ s)
          = (parts (h :: rest) ++ s, true) := rfl
      rw [confJump, hname, if_pos (Or.inl rfl)]
      exact afterLast_parts (by simp) s
  · rw [confJump, nameJump_short hm (by omega)]
    cases regardless <;> simp [hlong]

/-- A configuration is returned with its name and its chunks. -/
theorem read_conf {room : Nat} {regardless : Bool} {name : Frame} {chunks : List Frame}
    {post : List Msg} {c : ClientSock} (hc : Settled c.zmqConf)
    (hq : c.zmqConf.queue = stream ((mqConf :: name :: (chunks ++ [[]])) :: post))
    (hfits : ∀ f ∈ name :: chunks, f.length < room) {bufs : Nat → List Byte}
    (hbufs : ∀ i, room ≤ (bufs i).length) :
    (confTurn regardless bufs c).2.zmqConf.queue = stream post ∧
      Turn.Got ⟨c.zmqConf.queue, (confTurn regardless bufs c).2.zmqConf.queue,
        (confTurn regardless bufs c).1⟩ (terminated (name :: chunks)) := by
  obtain ⟨hname, hchunks⟩ := List.forall_mem_cons.mp hfits
  constructor
  · rw [(confTurn_settles regardless bufs hc).1, hq, stream_cons, confJump_parts _ (by simp),
      if_pos (Or.inl (by simp))]
  · have hholding : c.zmqConf = In.holding ((mqConf :: name :: (chunks ++ [[]])) :: post) := by
      rw [In.holding, ← hq, ← hc.1]
    have hcall := mqRecvConfName_holding hholding (by simp) (bufs 0)
    have hbodies := @confBodies_chunks room post chunks _
      { c with zmqConf := ⟨parts (chunks ++ [[]]) ++ stream post, true⟩ } (fun i => bufs (i + 1))
      hchunks (fun i => hbufs (i + 1)) rfl (Nat.le_refl _)
    simp only [Turn.Got, confTurn, hcall, true_or, if_true]
    exact .cons (terminated_makeEof (Nat.lt_of_lt_of_le hname (hbufs 0))) hbodies

/-- A caller that goes on regardless loses the message behind one of fewer than three frames.
None of those it loses is a configuration. -/
def Undisturbed : List Msg → Prop
  | m :: k :: ms => if 3 ≤ m.length then Undisturbed (k :: ms) else ¬ IsConf k ∧ Undisturbed ms
  | _ => True

theorem confJump_true_cons {m : Msg} (hm : m ≠ []) {ms : List Msg} (hms : ∀ k ∈ ms, k ≠ []) :
    confJump true (stream (m :: ms)) = stream (if 3 ≤ m.length then ms else ms.tail) := by
  rw [stream_cons, confJump_parts true hm]
  by_cases hlong : 3 ≤ m.length
  · simp [hlong]
  · simp only [hlong, Bool.true_eq_false, or_self, if_false]
    cases ms with
    | nil => rfl
    | cons k ms => exact afterLast_parts (hms k (by simp)) _

/-- What is behind a message is shorter. -/
theorem stream_ne_of_suffix {m : Msg} (hm : m ≠ []) (pre post : List Msg) :
    stream post ≠ stream (m :: (pre ++ post)) := by
  intro h
  have hlen := congrArg List.length h
  rw [stream_cons, stream_append, List.length_append, List.length_append, length_parts] at hlen
  have := List.length_pos_iff.mpr hm
  omega

/-- Every configuration is come to by a caller that goes on regardless. -/
def ReachesConfs (ms : List Msg) : Prop :=
  ∀ pre m post, ms = pre ++ m :: post → IsConf m →
    Reaches (confJump true) (stream ms) (stream (m :: post))

theorem IsConf.ne_nil {m : Msg} (h : IsConf m) : m ≠ [] := by
  obtain ⟨name, chunks, rfl⟩ := h
  simp

/-- When a turn at a message takes others with it, these must not be configurations. -/
theorem reachesConfs_skip_iff {m : Msg} (hm : m ≠ []) {skipped rest : List Msg}
    (hjump : confJump true (stream (m :: (skipped ++ rest))) = stream rest) :
    ReachesConfs (m :: (skipped ++ rest)) ↔ (∀ k ∈ skipped, ¬ IsConf k) ∧ ReachesConfs rest := by
  constructor
  · intro h
    constructor
    · intro k hk hconf
      obtain ⟨us, vs, rfl⟩ := List.append_of_mem hk
      have hsplit : us ++ k :: vs ++ rest = us ++ k :: (vs ++ rest) := by simp
      have hreach := h (m :: us) k (vs ++ rest) (by rw [hsplit]; rfl) hconf
      have hne : stream (k :: (vs ++ rest)) ≠ stream (m :: (us ++ k :: vs ++ rest)) := by
        rw [hsplit]
        exact stream_ne_of_suffix hm us _
      -- what is left is too short for it
      have hle := (hjump ▸ hreach.next hne).length_le (shrinks_confJump true)
      have hpos := List.length_pos_iff.mpr hconf.ne_nil
      rw [stream_cons, stream_append, List.length_append, List.length_append, length_parts] at hle
      omega
    · intro pre x post heq hx
      have hsplit : skipped ++ rest = (skipped ++ pre) ++ x :: post := by
        rw [heq, List.append_assoc]
      have hreach := h (m :: (skipped ++ pre)) x post (by rw [hsplit]; rfl) hx
      rw [← hjump]
      refine hreach.next ?_
      rw [hsplit]
      exact stream_ne_of_suffix hm _ _
  · rintro ⟨hskipped, h⟩ pre x post heq hx
    rcases pre with _ | ⟨y, pre⟩
    · rw [heq]
      exact Reaches.refl _
    · rw [List.cons_append, List.cons.injEq] at heq
      refine Reaches.step ?_
      rw [hjump]
      rcases List.append_eq_append_iff.mp heq.2 with ⟨us, -, hrest⟩ | ⟨us, hus, hrest⟩
      · exact h us x post hrest hx
      · rcases us with _ | ⟨z, us⟩
        · exact h [] x post hrest.symm hx
        · rw [List.cons_append, List.cons.injEq] at hrest
          exact absurd (hrest.1 ▸ hx) (hskipped z (by simp [hus]))

theorem reachesConfs_iff {ms : List Msg} (hms : ∀ m ∈ ms, m ≠ []) :
    ReachesConfs ms ↔ Undisturbed ms := by
  induction ms using Undisturbed.induct with
  | case1 m k ms hlong ih =>
      obtain ⟨hm, hrest⟩ := List.forall_mem_cons.mp hms
      have hjump := confJump_true_cons hm hrest
      rw [if_pos hlong] at hjump
      rw [Undisturbed, if_pos hlong, ← ih hrest]
      have hskip := @reachesConfs_skip_iff m hm [] (k :: ms) hjump
      rw [List.nil_append] at hskip
      rw [hskip]
      simp
  | case2 m k ms hshort ih =>
      obtain ⟨hm, hrest⟩ := List.forall_mem_cons.mp hms
      have hjump := confJump_true_cons hm hrest
      rw [if_neg hshort, List.tail_cons] at hjump
      rw [Undisturbed, if_neg hshort, ← ih (List.forall_mem_cons.mp hrest).2]
      have hskip := @reachesConfs_skip_iff m hm [k] ms hjump
      rw [List.singleton_append] at hskip
      rw [hskip]
      simp
  | case3 ms hnot =>
      rw [Undisturbed.eq_2 ms hnot]
      refine iff_of_true ?_ trivial
      rintro pre x post rfl -
      rcases pre with _ | ⟨y, pre⟩
      · exact Reaches.refl _
      · cases pre with
        | nil => exact absurd rfl (hnot y x post)
        | cons z pre => exact absurd rfl (hnot y z (pre ++ x :: post))

section Conf

variable {room : Nat} {ms : List Msg} {c : ClientSock} {bufs : Nat → Nat → List Byte} {n : Nat}

theorem settled_conf (hms : Fits room ms) (hconf : c.zmqConf = In.holding ms) :
    Settled c.zmqConf := by
  rw [hconf]
  exact settled_holding fun m hm => (hms m hm).1

theorem oneMessage_confSession (hms : Fits room ms) (hconf : c.zmqConf = In.holding ms)
    (regardless : Bool) :
    ∀ t ∈ session (confTurn regardless) ClientSock.zmqConf bufs n c,
      (∀ r ∈ t.calls, r.OneMessage) ∧ Ended t.calls := by
  intro t ht
  obtain ⟨i, c', hc', rfl⟩ := mem_session (jumps_confTurn regardless) (settled_conf hms hconf) ht
  exact ⟨oneMessage_confTurn regardless (bufs i) hc', (confTurn_settles regardless (bufs i) hc').2⟩

/-- A configuration the caller comes to is returned. -/
theorem returned_conf (hms : Fits room ms) (hconf : c.zmqConf = In.holding ms)
    (hbufs : ∀ i j, room ≤ (bufs i j).length) (hn : (stream ms).length ≤ n) {regardless : Bool}
    {m : Msg} {post : List Msg} (hmem : m ∈ ms) (hm : IsConf m)
    (hreach : Reaches (confJump regardless) (stream ms) (stream (m :: post))) :
    Returned (session (confTurn regardless) ClientSock.zmqConf bufs n c) m post
      (terminated m.tail.dropLast) := by
  have hqueue : c.zmqConf.queue = stream ms := by rw [hconf, In.holding]
  obtain ⟨name, chunks, rfl⟩ := hm
  have hfits : ∀ f ∈ name :: chunks, f.length < room := by
    intro f hf
    refine (hms _ hmem).2 f ?_
    simp only [List.mem_cons, List.mem_append] at hf ⊢
    tauto
  have hcontents : (mqConf :: name :: (chunks ++ [[]])).tail.dropLast = name :: chunks := by
    rw [List.tail_cons, ← List.cons_append, List.dropLast_concat]
  rw [hcontents]
  refine returned_of_reaches (jumps_confTurn regardless) (shrinks_confJump regardless) (by simp) ?_
    (settled_conf hms hconf) (by rw [hqueue]; exact hn) (by rw [hqueue]; exact hreach)
  intro i c' hc' hq
  exact read_conf hc' hq hfits (hbufs i)

/-- **A caller that leaves the bodies out when `mq_recv_conf_name` fails gets every
configuration.** -/
theorem resyncs_conf (hms : Fits room ms) (hconf : c.zmqConf = In.holding ms)
    (hbufs : ∀ i j, room ≤ (bufs i j).length) (hn : (stream ms).length ≤ n) :
    Resyncs IsConf (fun m => terminated m.tail.dropLast) ms
      (session (confTurn false) ClientSock.zmqConf bufs n c) := by
  refine ⟨fun t ht => (oneMessage_confSession hms hconf false t ht).1, fun pre m post hms' hm => ?_⟩
  refine returned_conf hms hconf hbufs hn (by rw [hms']; simp) hm ?_
  rw [hms']
  refine reaches_stream (fun k hk s => Reaches.step ?_) _
  rw [confJump_parts false (hms k (by rw [hms']; simp [hk])).1, if_pos (Or.inr rfl)]
  exact Reaches.refl s

/-- **One that goes on regardless gets every configuration that is not directly behind a message
of fewer than three frames at which a turn begins.** -/
theorem resyncs_conf_regardless_iff (hms : Fits room ms) (hconf : c.zmqConf = In.holding ms)
    (hbufs : ∀ i j, room ≤ (bufs i j).length) (hn : (stream ms).length ≤ n) :
    Resyncs IsConf (fun m => terminated m.tail.dropLast) ms
      (session (confTurn true) ClientSock.zmqConf bufs n c) ↔ Undisturbed ms := by
  have hqueue : c.zmqConf.queue = stream ms := by rw [hconf, In.holding]
  have hne : ∀ m ∈ ms, m ≠ [] := fun m hm => (hms m hm).1
  rw [← reachesConfs_iff hne]
  constructor
  · intro h pre m post hms' hm
    rw [← hqueue]
    exact reaches_of_returned (jumps_confTurn true) (shrinks_confJump true)
      (hne m (by rw [hms']; simp)) (settled_conf hms hconf) (by rw [hqueue]; exact hn)
      (h.returned pre m post hms' hm)
  · intro h
    exact ⟨fun t ht => (oneMessage_confSession hms hconf true t ht).1, fun pre m post hms' hm =>
      returned_conf hms hconf hbufs hn (by rw [hms']; simp) hm (h pre m post hms' hm)⟩

end Conf

/-! ### All receivers -/

/-- **Receivers of requests find back to the messages behind any message, those of responses as
long as no message is overrun, and those of configurations unless the caller reads on when there
is no name.** -/
theorem receivers_resync_iff {room n : Nat} {reqs ress confs : List Msg} (hreqs : Fits room reqs)
    (hress : Fits room ress) (hconfs : Fits room confs) {c : ClientSock}
    (hpull : c.zmqPull = In.holding reqs) (hsub : c.zmqSub = In.holding ress)
    (hconf : c.zmqConf = In.holding confs) {reqArgs : Nat → MqTag × List Byte}
    (hreqArgs : ∀ i, room ≤ (reqArgs i).2.length) {resBufs : Nat → List Byte}
    (hresBufs : ∀ i, room ≤ (resBufs i).length) {confBufs : Nat → Nat → List Byte}
    (hconfBufs : ∀ i j, room ≤ (confBufs i j).length) (hnreq : (stream reqs).length ≤ n)
    (hnres : (stream ress).length ≤ n) (hnconf : (stream confs).length ≤ n) (regardless : Bool) :
    Resyncs IsReq id reqs (session reqTurn ClientSock.zmqPull reqArgs n c) ∧
      (Resyncs IsRes (fun m => terminated m.tail) ress
          (session resTurn ClientSock.zmqSub resBufs n c) ↔
        InStepBefore ress ∧ ∀ m ∈ ress.getLast?, IsRes m → Overruns m = false) ∧
      (Resyncs IsConf (fun m => terminated m.tail.dropLast) confs
          (session (confTurn regardless) ClientSock.zmqConf confBufs n c) ↔
        (regardless = true → Undisturbed confs)) ∧
      ∀ t ∈ session (confTurn regardless) ClientSock.zmqConf confBufs n c, Ended t.calls := by
  refine ⟨resyncs_req hreqs hpull hreqArgs hnreq, resyncs_res_iff hress hsub hresBufs hnres, ?_,
    fun t ht => (oneMessage_confSession hconfs hconf regardless t ht).2⟩
  cases regardless with
  | false =>
      exact iff_of_true (resyncs_conf hconfs hconf hconfBufs hnconf) (fun h => absurd h (by simp))
  | true =>
      rw [resyncs_conf_regardless_iff hconfs hconf hconfBufs hnconf]
      exact ⟨fun h _ => h, fun h => h rfl⟩

/-- A request behind a lone frame, a response, and a configuration behind a lone tag. -/
def queuedClient : ClientSock :=
  { crtCliSock 5000 true [] with
    zmqPull := In.holding [[lit "x"], [MqTag.zero.mem, lit "ping"]]
    zmqSub := In.holding [[lit "AHIF_7", lit "pong"]]
    zmqConf := In.holding [[mqConf], [mqConf, lit "log", lit "a=1", []]] }

theorem receivers_resync_queued :
    Resyncs IsReq id [[lit "x"], [MqTag.zero.mem, lit "ping"]]
        (session reqTurn ClientSock.zmqPull (fun _ => (MqTag.zero, zeros 1024)) 5 queuedClient) ∧
      Resyncs IsRes (fun m => terminated m.tail) [[lit "AHIF_7", lit "pong"]]
        (session resTurn ClientSock.zmqSub (fun _ => zeros 1024) 5 queuedClient) ∧
      Resyncs IsConf (fun m => terminated m.tail.dropLast)
        [[mqConf], [mqConf, lit "log", lit "a=1", []]]
        (session (confTurn false) ClientSock.zmqConf (fun _ _ => zeros 1024) 5 queuedClient) := by
  have hbuf : 1024 ≤ (zeros 1024).length := Nat.le_of_eq (length_zeros 1024).symm
  have hreqs : Fits 1024 [[lit "x"], [MqTag.zero.mem, lit "ping"]] := by
    unfold Fits
    decide +kernel
  have hress : Fits 1024 [[lit "AHIF_7", lit "pong"]] := by
    unfold Fits
    decide
  have hconfs : Fits 1024 [[mqConf], [mqConf, lit "log", lit "a=1", []]] := by
    unfold Fits
    decide
  have hstep : InStepBefore [[lit "AHIF_7", lit "pong"]] := by
    unfold InStepBefore
    decide
  obtain ⟨hreq, hres, hconf, -⟩ := @receivers_resync_iff 1024 5 _ _ _ hreqs hress hconfs
    queuedClient rfl rfl rfl (fun _ => (MqTag.zero, zeros 1024)) (fun _ => hbuf)
    (fun _ => zeros 1024) (fun _ => hbuf) (fun _ _ => zeros 1024) (fun _ _ => hbuf) (by decide)
    (by decide) (by decide) false
  refine ⟨hreq, hres.mpr ⟨hstep, ?_⟩, hconf.mpr fun h => absurd h (by simp)⟩
  rintro m hm -
  obtain rfl := Option.some.inj hm
  decide

/-- A lone frame on the subscriber of a client, and a response behind it. -/
def disturbedClient : ClientSock :=
  { crtCliSock 5000 true [] with zmqSub := In.holding [[lit "x"], [lit "AHIF_7", lit "pong"]] }

/-- The name of the response is returned as the body of the frame in front of it, and the
response is lost. -/
theorem response_lost :
    ¬ Resyncs IsRes (fun m => terminated m.tail) [[lit "x"], [lit "AHIF_7", lit "pong"]]
      (session resTurn ClientSock.zmqSub (fun _ => zeros 1024) 3 disturbedClient) := by
  have hfits : Fits 1024 [[lit "x"], [lit "AHIF_7", lit "pong"]] := by
    unfold Fits
    decide
  have hbuf : 1024 ≤ (zeros 1024).length := Nat.le_of_eq (length_zeros 1024).symm
  rw [resyncs_res_iff hfits rfl (fun _ => hbuf) (by decide)]
  rintro ⟨hbefore, -⟩
  exact absurd (hbefore [lit "x"] (by simp)) (by decide)

end Brocoli
