/-
Whether a sender tells the truth about what it has sent.

A sender puts its frames on the socket one after the other and returns at the first that is
refused, or of which no byte was taken.  What it has put by then stays there.  A frame that
is refused behind the first leaves the message open, and so does an empty one, which the
socket takes and the sender gives up like a refused one; only at the end of the message it
completes it.  So the result says what is on the socket in two cases: when the first frame
is refused, and when all frames are taken and none is empty.
-/
import Brocoli.Lib.Runs
import Brocoli.Client

namespace Brocoli

open CMem Multipart Runs

/-! ### One message -/

/-- The sends get to the end of the message: the socket takes all frames, and none in front of
the last is empty. -/
structure Completes (o : Out) (head : Msg) (body : Frame) : Prop where
  nonempty : ∀ f ∈ head, f ≠ []
  taken : o.Accepts (parts (head ++ [body]))

theorem completes_nil {o : Out} {body : Frame} :
    Completes o [] body ↔ (o.verdict body false).1 = none := by
  constructor
  · intro h
    exact h.taken.1
  · intro h
    exact ⟨fun f hf => absurd hf List.not_mem_nil, h, trivial⟩

theorem completes_cons {o : Out} {f : Frame} {head : Msg} {body : Frame} :
    Completes o (f :: head) body ↔
      f ≠ [] ∧ o.route f = none ∧ Completes (o.send f true).2 head body := by
  have hparts : parts (f :: head ++ [body]) = ⟨f, true⟩ :: parts (head ++ [body]) := by
    rw [List.cons_append, parts_cons (by simp)]
  constructor
  · intro h
    have htaken := h.taken
    rw [hparts] at htaken
    have hnonempty := List.forall_mem_cons.mp h.nonempty
    exact ⟨hnonempty.1, htaken.1, hnonempty.2, htaken.2⟩
  · rintro ⟨hf, hroute, h⟩
    refine ⟨List.forall_mem_cons.mpr ⟨hf, h.nonempty⟩, ?_⟩
    rw [hparts]
    exact ⟨hroute, h.taken⟩

theorem pushFrames_nil (o : Out) (body : Frame) :
    pushFrames o [] body
      = (if sentBytes (o.send body false).1 ≤ 0 then -1 else 0, (o.send body false).2) := rfl

/-- A frame that is taken and not empty is behind the sender. -/
theorem pushFrames_cons {o : Out} {f : Frame} (hf : f ≠ []) (h : o.route f = none) (head : Msg)
    (body : Frame) : pushFrames o (f :: head) body = pushFrames (o.send f true).2 head body := by
  have hpos : decide (0 < f.length) = true := by simpa [List.length_pos_iff] using hf
  have hans := (send_accepted h).1
  unfold pushFrames
  rw [Out.sendWhile]
  rcases hs : o.send f true with ⟨r, o'⟩
  rw [hs] at hans
  obtain rfl : r = .ok f.length := hans
  simp only [hpos, if_true]

/-- A first frame that is empty is given up when it is taken. -/
theorem pushFrames_empty {o : Out} (h : o.route [] = none) (head : Msg) (body : Frame) :
    (pushFrames o ([] :: head) body).1 = -1 ∧
      (pushFrames o ([] :: head) body).2.sent = o.sent ++ [⟨[], true⟩] := by
  obtain ⟨hans, hsent⟩ := send_accepted h
  unfold pushFrames
  rw [Out.sendWhile]
  rcases hs : o.send [] true with ⟨r, o'⟩
  rw [hs] at hans hsent
  obtain rfl : r = .ok 0 := hans
  exact ⟨rfl, hsent⟩

/-- A first frame that is refused leaves nothing behind. -/
theorem pushFrames_refused {o : Out} {f : Frame} (h : o.route f ≠ none) (head : Msg)
    (body : Frame) : (pushFrames o (f :: head) body).1 = -1 ∧
      (pushFrames o (f :: head) body).2.sent = o.sent := by
  obtain ⟨⟨e, hans⟩, hsent⟩ := send_not_accepted h
  unfold pushFrames
  rw [Out.sendWhile]
  rcases hs : o.send f true with ⟨r, o'⟩
  rw [hs] at hans hsent
  obtain rfl : r = .error e := hans
  exact ⟨rfl, hsent⟩

/-- **A message that is completed is on the socket, and counts as sent unless its body is
empty.** -/
theorem pushFrames_completes {body : Frame} : ∀ {head : Msg} {o : Out}, Completes o head body →
    (pushFrames o head body).1 = (if body = [] then -1 else 0) ∧
      (pushFrames o head body).2.sent = o.sent ++ parts (head ++ [body]) := by
  intro head
  induction head with
  | nil =>
      intro o h
      obtain ⟨hans, hsent⟩ := send_accepted (completes_nil.mp h)
      rw [pushFrames_nil]
      refine ⟨?_, hsent⟩
      simp only [hans, sentBytes]
      by_cases hbody : body = []
      · simp [hbody]
      · have hpos : 0 < body.length := List.length_pos_iff.mpr hbody
        rw [if_neg (by omega), if_neg hbody]
  | cons f head ih =>
      intro o h
      obtain ⟨hf, hroute, hrest⟩ := completes_cons.mp h
      obtain ⟨hrc, hsent⟩ := ih hrest
      rw [pushFrames_cons hf hroute]
      refine ⟨hrc, ?_⟩
      rw [hsent, (send_accepted hroute).2, List.cons_append, parts_cons (by simp)]
      simp

/-- **One that is not counts as not sent, and its first frames may be on the socket.** -/
theorem pushFrames_cut {body : Frame} : ∀ {head : Msg} {o : Out}, ¬ Completes o head body →
    (pushFrames o head body).1 = -1 ∧
      ∃ fs : Msg, (pushFrames o head body).2.sent = o.sent ++ fs.map (⟨·, true⟩) := by
  intro head
  induction head with
  | nil =>
      intro o h
      obtain ⟨⟨e, hans⟩, hsent⟩ := send_not_accepted (mt completes_nil.mpr h)
      rw [pushFrames_nil, hans]
      exact ⟨rfl, [], by simpa using hsent⟩
  | cons f head ih =>
      intro o h
      by_cases hroute : o.route f = none
      · by_cases hf : f = []
        · subst hf
          obtain ⟨hrc, hsent⟩ := pushFrames_empty hroute head body
          exact ⟨hrc, [[]], hsent⟩
        · have hrest : ¬ Completes (o.send f true).2 head body := fun hrest =>
            h (completes_cons.mpr ⟨hf, hroute, hrest⟩)
          obtain ⟨hrc, fs, hsent⟩ := ih hrest
          rw [pushFrames_cons hf hroute]
          refine ⟨hrc, f :: fs, ?_⟩
          rw [hsent, (send_accepted hroute).2]
          simp
      · obtain ⟨hrc, hsent⟩ := pushFrames_refused hroute head body
        exact ⟨hrc, [], by simpa using hsent⟩

/-- A message whose first frame is taken and that is not completed stays open. -/
theorem pushFrames_open {o : Out} {f : Frame} (hroute : o.route f = none) {head : Msg}
    {body : Frame} (h : ¬ Completes o (f :: head) body) :
    (pushFrames o (f :: head) body).2.isOpen = true := by
  by_cases hf : f = []
  · subst hf
    have hsent := (pushFrames_empty hroute head body).2
    exact isOpen_of_begun (List.cons_ne_nil [] []) hsent
  · have hrest : ¬ Completes (o.send f true).2 head body := fun hrest =>
      h (completes_cons.mpr ⟨hf, hroute, hrest⟩)
    obtain ⟨-, fs, hsent⟩ := pushFrames_cut hrest
    rw [← pushFrames_cons hf hroute, (send_accepted hroute).2, List.append_assoc] at hsent
    exact isOpen_of_begun (List.cons_ne_nil f fs) hsent

/-! ### The senders -/

/-- A call of `mq_send_req`, `mq_send_log` or `mq_send_res`. -/
inductive SendCall where
  | req (tag : MqTag) (tgsvcName : Str) (buf : Frame)
  | log (svcRegi : MqRegi) (text : Str)
  | res (destTag : MqTag) (buf : Frame)

namespace SendCall

def run (c : ClientSock) : SendCall → Int × ClientSock
  | .req tag tgsvcName buf => mqSendReq c tag tgsvcName buf
  | .log svcRegi text => mqSendLog c svcRegi text
  | .res destTag buf => mqSendRes c destTag buf

/-- What goes in front of the body. -/
def head : SendCall → Msg
  | .req tag tgsvcName _ => [mqReq, tgsvcName, tag.mem]
  | .log _ _ => [mqLog]
  | .res destTag _ =>
      if destTag.viaInterhub then [mqResInterhub, destTag.broker, destTag.svc, destTag.name]
      else [mqRes, destTag.svc, destTag.name]

def body : SendCall → Frame
  | .req _ _ buf => buf
  | .log svcRegi text => logLine svcRegi text
  | .res _ buf => buf

/-- The message of the call. -/
def frames (call : SendCall) : Msg := call.head ++ [call.body]

theorem head_eq_cons (call : SendCall) : ∃ code rest, call.head = code :: rest := by
  cases call with
  | req tag tgsvcName buf => exact ⟨_, _, rfl⟩
  | log svcRegi text => exact ⟨_, _, rfl⟩
  | res destTag buf =>
      by_cases hvia : destTag.viaInterhub = true
      · exact ⟨_, _, by rw [head, if_pos hvia]⟩
      · exact ⟨_, _, by rw [head, if_neg hvia]⟩

end SendCall

/-- The requests and responses count what they send. -/
def countSend (s : MqSndrcv) (n : Nat) : MqSndrcv :=
  { s with sendByte := s.sendByte + n, sendCnt := s.sendCnt + 1 }

/-- A request or response is sent like a log line, and counted when that returns 0. -/
theorem sendFrames_eq (c : ClientSock) (head : Msg) (body : Frame) :
    sendFrames c head body
      = ((pushFrames c.zmqPush head body).1, { c with
          zmqPush := (pushFrames c.zmqPush head body).2
          sndrcv := if (pushFrames c.zmqPush head body).1 = 0
            then countSend c.sndrcv body.length else c.sndrcv }) := by
  unfold sendFrames pushFrames
  rcases c.zmqPush.sendWhile (0 < ·) head with ⟨_ | _, push⟩
  · rfl
  · simp only
    by_cases hlen : sentBytes (push.send body false).1 ≤ 0
    · simp only [if_pos hlen]
      rfl
    · have hbytes : sentBytes (push.send body false).1 = body.length := by
        rcases hans : (push.send body false).1 with e | n
        · rw [hans] at hlen
          exact absurd (by simp [sentBytes]) hlen
        · have hsend : push.send body false = (.ok n, (push.send body false).2) :=
            Prod.ext hans rfl
          rw [(send_ok hsend).1]
          rfl
      rw [hbytes] at hlen
      simp only [hbytes, if_neg hlen, if_true]
      rfl

/-- The frames of a response depend on the tag, the way they are sent does not. -/
theorem mqSendRes_eq (c : ClientSock) (destTag : MqTag) (buf : Frame) :
    mqSendRes c destTag buf = sendFrames c (SendCall.res destTag buf).head buf := by
  by_cases hvia : destTag.viaInterhub = true
  · simp [mqSendRes, SendCall.head, hvia]
  · simp [mqSendRes, SendCall.head, hvia]

theorem SendCall.run_eq (c : ClientSock) (call : SendCall) :
    (call.run c).1 = (pushFrames c.zmqPush call.head call.body).1 ∧
      (call.run c).2.zmqPush = (pushFrames c.zmqPush call.head call.body).2 := by
  cases call with
  | req tag tgsvcName buf =>
      rw [run, mqSendReq, sendFrames_eq]
      exact ⟨rfl, rfl⟩
  | log svcRegi text => exact ⟨rfl, rfl⟩
  | res destTag buf =>
      rw [run, mqSendRes_eq, sendFrames_eq]
      exact ⟨rfl, rfl⟩

/-! ### What a call says -/

/-- The call returns 0 exactly when its message is on the socket, whole and once; when it
returns -1 no message has been completed and none is open. -/
structure Truthful (c : ClientSock) (call : SendCall) : Prop where
  zero : (call.run c).1 = 0 ↔
    (call.run c).2.zmqPush.sent = c.zmqPush.sent ++ parts call.frames
  failed : (call.run c).1 = -1 →
    c.zmqPush.since (call.run c).2.zmqPush = [] ∧ (call.run c).2.zmqPush.isOpen = false

/-- The socket refuses the first frame of the call, or it takes all of them and none is
empty. -/
def AllOrNothing (c : ClientSock) (call : SendCall) : Prop :=
  c.zmqPush.route (call.frames.headD []) ≠ none ∨
    (∀ f ∈ call.frames, f ≠ []) ∧ c.zmqPush.Accepts (parts call.frames)

/-- What the call does then. -/
theorem AllOrNothing.cases {c : ClientSock} {call : SendCall} (h : AllOrNothing c call) :
    ((call.run c).1 = 0 ∧ (call.run c).2.zmqPush.sent = c.zmqPush.sent ++ parts call.frames) ∨
      ((call.run c).1 = -1 ∧ (call.run c).2.zmqPush.sent = c.zmqPush.sent) := by
  obtain ⟨hrc, hpush⟩ := call.run_eq c
  rw [hrc, hpush]
  rcases h with hrefused | ⟨hnonempty, htaken⟩
  · obtain ⟨code, rest, hhead⟩ := call.head_eq_cons
    rw [SendCall.frames, hhead] at hrefused
    rw [hhead]
    exact Or.inr (pushFrames_refused hrefused rest call.body)
  · have hcompletes : Completes c.zmqPush call.head call.body :=
      ⟨fun f hf => hnonempty f (List.mem_append_left _ hf), htaken⟩
    have hbody : call.body ≠ [] := hnonempty _ (List.mem_append_right _ List.mem_cons_self)
    obtain ⟨hzero, hsent⟩ := pushFrames_completes hcompletes
    rw [if_neg hbody] at hzero
    exact Or.inl ⟨hzero, hsent⟩

theorem SendCall.frames_ne_nil (call : SendCall) : call.frames ≠ [] := by simp [frames]

theorem SendCall.parts_ne_nil (call : SendCall) : parts call.frames ≠ [] := by
  have hlen := length_parts call.frames
  intro hnil
  rw [hnil] at hlen
  exact call.frames_ne_nil (List.length_eq_zero_iff.mp hlen.symm)

/-- Nothing is open behind such a call when nothing was in front of it. -/
theorem AllOrNothing.closed {c : ClientSock} {call : SendCall} (h : AllOrNothing c call)
    (hclosed : c.zmqPush.isOpen = false) : (call.run c).2.zmqPush.isOpen = false := by
  rcases h.cases with ⟨-, hsent⟩ | ⟨-, hsent⟩
  · have hopen := isOpen_put_parts c.zmqPush call.frames_ne_nil
    unfold Out.isOpen at hopen ⊢
    rw [hsent]
    exact hopen
  · unfold Out.isOpen at hclosed ⊢
    rw [hsent]
    exact hclosed

/-- **A call is truthful exactly when it is all or nothing.** -/
theorem truthful_iff {c : ClientSock} (hclosed : c.zmqPush.isOpen = false) (call : SendCall) :
    Truthful c call ↔ AllOrNothing c call := by
  obtain ⟨hrc, hpush⟩ := call.run_eq c
  constructor
  · intro h
    by_contra hnot
    obtain ⟨code, rest, hhead⟩ := call.head_eq_cons
    have hroute : c.zmqPush.route code = none := by
      by_contra hroute
      refine hnot (Or.inl ?_)
      rw [SendCall.frames, hhead]
      exact hroute
    by_cases hcompletes : Completes c.zmqPush call.head call.body
    · -- only an empty body can be in the way, and then the message is complete all the same
      have hbody : call.body = [] := by
        by_contra hbody
        refine hnot (Or.inr ⟨fun f hf => ?_, hcompletes.taken⟩)
        rcases List.mem_append.mp hf with hf | hf
        · exact hcompletes.nonempty f hf
        · obtain rfl := List.mem_singleton.mp hf
          exact hbody
      obtain ⟨hminus, hsent⟩ := pushFrames_completes hcompletes
      rw [if_pos hbody, ← hrc] at hminus
      rw [← hpush] at hsent
      have hzero := h.zero.mpr hsent
      omega
    · have hminus := (pushFrames_cut hcompletes).1
      rw [hhead] at hcompletes
      have hopen := pushFrames_open hroute hcompletes
      rw [← hhead, ← hpush, (h.failed (hrc.trans hminus)).2] at hopen
      exact absurd hopen (by decide)
  · intro h
    rcases h.cases with ⟨hzero, hsent⟩ | ⟨hminus, hsent⟩
    · exact ⟨iff_of_true hzero hsent, fun hminus => by omega⟩
    · refine ⟨iff_of_false (by omega) fun hwhole => ?_, fun _ => ⟨?_, h.closed hclosed⟩⟩
      · rw [hsent] at hwhole
        exact call.parts_ne_nil (by simpa using hwhole)
      · exact since_of_sent (by simp) (by simpa using hsent)

/-! ### Sequences of calls -/

def sendStep (c : ClientSock) (call : SendCall) : ClientSock := (call.run c).2

/-- The message of a call that returned 0. -/
def reportedSent (c : ClientSock) (call : SendCall) : List Msg :=
  if (call.run c).1 = 0 then [call.frames] else []

/-- Every call is truthful, and on the socket are the messages of the calls that returned 0. -/
structure SentTruthfully (c : ClientSock) (calls : List SendCall) : Prop where
  each : AllSteps sendStep Truthful c calls
  messages : (calls.foldl sendStep c).zmqPush.sent
    = c.zmqPush.sent ++ stream (log sendStep reportedSent c calls)

theorem truthful_of_allOrNothing : ∀ {calls : List SendCall} {c : ClientSock},
    c.zmqPush.isOpen = false → AllSteps sendStep AllOrNothing c calls → SentTruthfully c calls := by
  intro calls
  induction calls with
  | nil => intro c _ _; exact ⟨trivial, by simp [log]⟩
  | cons call calls ih =>
      intro c hclosed hall
      obtain ⟨hcall, hrest⟩ := hall
      have hnext : (sendStep c call).zmqPush.isOpen = false := hcall.closed hclosed
      obtain ⟨heach, hmessages⟩ := ih hnext hrest
      have hstep : (sendStep c call).zmqPush.sent
          = c.zmqPush.sent ++ stream (reportedSent c call) := by
        rcases hcall.cases with ⟨hzero, hsent⟩ | ⟨hminus, hsent⟩
        · rw [reportedSent, if_pos hzero, stream_cons, stream_nil, List.append_nil]
          exact hsent
        · rw [reportedSent, if_neg (by omega), stream_nil, List.append_nil]
          exact hsent
      refine ⟨⟨(truthful_iff hclosed call).mpr hcall, heach⟩, ?_⟩
      rw [List.foldl_cons, hmessages, hstep, log, stream_append, List.append_assoc]

theorem allOrNothing_of_truthful : ∀ {calls : List SendCall} {c : ClientSock},
    c.zmqPush.isOpen = false → AllSteps sendStep Truthful c calls →
    AllSteps sendStep AllOrNothing c calls := by
  intro calls
  induction calls with
  | nil => intro c _ _; trivial
  | cons call calls ih =>
      intro c hclosed hall
      have hcall := (truthful_iff hclosed call).mp hall.1
      exact ⟨hcall, ih (hcall.closed hclosed) hall.2⟩

/-- **The senders tell the truth in a sequence of calls exactly when each of them is all or
nothing.** -/
theorem sends_truthful_iff {c : ClientSock} (hclosed : c.zmqPush.isOpen = false)
    (calls : List SendCall) :
    SentTruthfully c calls ↔ AllSteps sendStep AllOrNothing c calls :=
  ⟨fun h => allOrNothing_of_truthful hclosed h.each, truthful_of_allOrNothing hclosed⟩

/-! ### Two calls -/

/-- A client whose push socket has these answers ahead. -/
def pushingClient (results : List (Option Errno)) : ClientSock :=
  { crtCliSock 5000 true [] with zmqPush := ⟨.pipe, [], results⟩ }

/-- A log line that is refused, and a request. -/
def lineAndRequest : List SendCall :=
  [.log MqRegi.zero (lit "up"), .req MqTag.zero (lit "AHIF") (lit "ping")]

theorem sends_truthful_request : SentTruthfully (pushingClient [some .EAGAIN]) lineAndRequest := by
  have hline : AllOrNothing (pushingClient [some .EAGAIN]) (.log MqRegi.zero (lit "up")) :=
    Or.inl (by decide)
  have hrequest : AllOrNothing (sendStep (pushingClient [some .EAGAIN])
      (.log MqRegi.zero (lit "up"))) (.req MqTag.zero (lit "AHIF") (lit "ping")) :=
    Or.inr ⟨by decide, rfl, rfl, rfl, rfl, trivial⟩
  have hclosed : (pushingClient [some .EAGAIN]).zmqPush.isOpen = false := rfl
  exact (sends_truthful_iff hclosed lineAndRequest).mpr ⟨hline, hrequest, trivial⟩

/-- A request for a service without a name, and a log line. -/
def namelessAndLine : List SendCall :=
  [.req MqTag.zero [] (lit "ping"), .log MqRegi.zero (lit "up")]

/-- No send fails: the request is given up at the empty name and the log line, for which 0 is
returned, ends its message.  A request without a body is sent, and -1 returned. -/
theorem sends_torn :
    ¬ SentTruthfully (pushingClient []) namelessAndLine ∧
    messages (namelessAndLine.foldl sendStep (pushingClient [])).zmqPush.sent
      = [[mqReq, [], mqLog, lit "|] up"]] ∧
    (mqSendReq (pushingClient []) MqTag.zero (lit "AHIF") []).1 = -1 ∧
    (pushingClient []).zmqPush.since
        (mqSendReq (pushingClient []) MqTag.zero (lit "AHIF") []).2.zmqPush
      = [[mqReq, lit "AHIF", MqTag.zero.mem, []]] := by
  refine ⟨fun h => ?_, by decide +kernel, by decide +kernel, by decide +kernel⟩
  have hfailed := (h.each.1.failed rfl).2
  exact absurd hfailed (by decide)

end Brocoli
