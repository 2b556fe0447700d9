/-
Whether the traffic of a client is reported.

A client counts what it sends and receives, and with a heartbeat it moves the counters to
the registration and starts them again.  Whether a message is counted is decided by what the
sends and receives return, and whether it is there by the last frame of it.  The two differ
at a message that ends with an empty frame, at one that is given up where it ends, and the
counters are lost with a heartbeat that cannot be sent.
-/
import Mathlib.Algebra.BigOperators.Group.List.Basic
import Brocoli.Proofs.Sending

namespace Brocoli

open CMem Multipart Runs

/-! ### Counters

They are added up one by one.
-/

namespace MqSndrcv

theorem ext' {a b : MqSndrcv} (hsc : a.sendCnt = b.sendCnt) (hrc : a.recvCnt = b.recvCnt)
    (hsb : a.sendByte = b.sendByte) (hrb : a.recvByte = b.recvByte) : a = b := by
  cases a
  cases b
  simp_all

instance : Zero MqSndrcv := ⟨zero⟩

instance : Add MqSndrcv := ⟨fun a b =>
  ⟨a.sendCnt + b.sendCnt, a.recvCnt + b.recvCnt, a.sendByte + b.sendByte,
    a.recvByte + b.recvByte⟩⟩

instance : Neg MqSndrcv := ⟨fun a => ⟨-a.sendCnt, -a.recvCnt, -a.sendByte, -a.recvByte⟩⟩

instance : AddCommGroup MqSndrcv where
  add_assoc a b c := ext' (Int.add_assoc _ _ _) (Int.add_assoc _ _ _) (Int.add_assoc _ _ _)
    (Int.add_assoc _ _ _)
  zero_add a := ext' (Int.zero_add _) (Int.zero_add _) (Int.zero_add _) (Int.zero_add _)
  add_zero a := ext' (Int.add_zero _) (Int.add_zero _) (Int.add_zero _) (Int.add_zero _)
  add_comm a b := ext' (Int.add_comm _ _) (Int.add_comm _ _) (Int.add_comm _ _)
    (Int.add_comm _ _)
  neg_add_cancel a := ext' (Int.add_left_neg _) (Int.add_left_neg _) (Int.add_left_neg _)
    (Int.add_left_neg _)
  nsmul := nsmulRec
  zsmul := zsmulRec

/-- The counters for messages with these last frames. -/
def ofFrames (sent received : List Frame) : MqSndrcv where
  sendCnt := sent.length
  recvCnt := received.length
  sendByte := sent.flatten.length
  recvByte := received.flatten.length

theorem ofFrames_append (sent sent' received received' : List Frame) :
    ofFrames (sent ++ sent') (received ++ received')
      = ofFrames sent received + ofFrames sent' received' := by
  refine ext' ?_ ?_ ?_ ?_
  · show ((sent ++ sent').length : Int) = sent.length + sent'.length
    rw [List.length_append, Int.natCast_add]
  · show ((received ++ received').length : Int) = received.length + received'.length
    rw [List.length_append, Int.natCast_add]
  · show ((sent ++ sent').flatten.length : Int) = sent.flatten.length + sent'.flatten.length
    rw [List.flatten_append, List.length_append, Int.natCast_add]
  · show ((received ++ received').flatten.length : Int)
      = received.flatten.length + received'.flatten.length
    rw [List.flatten_append, List.length_append, Int.natCast_add]

@[simp] theorem ofFrames_nil : ofFrames [] [] = 0 := rfl

end MqSndrcv

open MqSndrcv

theorem countSend_eq (s : MqSndrcv) (f : Frame) :
    countSend s f.length = s + ofFrames [f] [] := by
  refine MqSndrcv.ext' rfl (Int.add_zero _).symm ?_ (Int.add_zero _).symm
  show s.sendByte + f.length = s.sendByte + ([f].flatten.length : Int)
  rw [List.flatten_singleton]

theorem countRecv_eq (s : MqSndrcv) (f : Frame) :
    countRecv s f.length = s + ofFrames [] [f] := by
  refine MqSndrcv.ext' (Int.add_zero _).symm rfl (Int.add_zero _).symm ?_
  show s.recvByte + f.length = s.recvByte + ([f].flatten.length : Int)
  rw [List.flatten_singleton]

/-! ### The client with its accounts -/

/-- A client, its registration, and the last frames of the messages that were completely sent
and received, and of the registrations that were. -/
structure Traffic where
  sock : ClientSock
  svcRegi : MqRegi
  sent : List Frame
  received : List Frame
  reported : List Frame

/-- A call of the client, or a message that arrives at one of its sockets. -/
inductive TrafficStep where
  | sendReq (tag : MqTag) (tgsvcName : Str) (buf : Frame)
  | sendRes (destTag : MqTag) (buf : Frame)
  | recvReq (tag : MqTag) (buf : List Byte)
  | recvRes (buf : List Byte)
  | regi (now : Time)
  | pull (m : Msg)
  | sub (m : Msg)

/-- The client and the registration after the step. -/
def TrafficStep.run (c : ClientSock) (svcRegi : MqRegi) : TrafficStep → ClientSock × MqRegi
  | .sendReq tag tgsvcName buf => ((mqSendReq c tag tgsvcName buf).2, svcRegi)
  | .sendRes destTag buf => ((mqSendRes c destTag buf).2, svcRegi)
  | .recvReq tag buf => ((mqRecvReq c tag buf).sock, svcRegi)
  | .recvRes buf => ((mqRecvRes c buf).sock, svcRegi)
  | .regi now => ((mqRegi c svcRegi now).sock, (mqRegi c svcRegi now).svcRegi)
  | .pull m => ({ c with zmqPull := c.zmqPull.arrive m }, svcRegi)
  | .sub m => ({ c with zmqSub := c.zmqSub.arrive m }, svcRegi)

/-- The accounts are kept at the sockets, whatever the calls return. -/
def trafficStep (s : Traffic) (e : TrafficStep) : Traffic where
  sock := (e.run s.sock s.svcRegi).1
  svcRegi := (e.run s.sock s.svcRegi).2
  sent := s.sent ++ lasts (s.sock.zmqPush.partsSince (e.run s.sock s.svcRegi).1.zmqPush)
  received := s.received ++ (lasts (s.sock.zmqPull.partsSince (e.run s.sock s.svcRegi).1.zmqPull)
    ++ lasts (s.sock.zmqSub.partsSince (e.run s.sock s.svcRegi).1.zmqSub))
  reported := s.reported ++ lasts (s.sock.zmqPub.partsSince (e.run s.sock s.svcRegi).1.zmqPub)

/-- The counters a registration carries, when it is received. -/
def carriedCounters (f : Frame) : MqSndrcv := (MqRegi.zero.recv f).sndrcv

/-- What was reported and what is still to be is what was sent and received. -/
def Conserved (s : Traffic) : Prop :=
  (s.reported.map carriedCounters).sum + s.sock.sndrcv = ofFrames s.sent s.received

/-! ### When a call counts what it does -/

/-- A message that is completed has a body. -/
def SendCounts (o : Out) (head : Msg) (body : Frame) : Prop := Completes o head body → body ≠ []

/-- What `mq_recv_req` finds: two frames of a message.  It ends with the second if that is
not empty; otherwise it goes on. -/
def RecvReqCounts : List Part → Prop
  | [] => True
  | [p] => p.more = true
  | p :: q :: _ => p.more = true ∧ (p.bytes = [] ∨ (q.bytes = [] ↔ q.more = true))

/-- The same for `mq_recv_res`.  It does not ask whether there is a second frame, and the
count is right too when it takes the end of one message for the name and the first frame of
the next, as long, for the body. -/
def RecvResCounts : List Part → Prop
  | [] => True
  | [p] => p.more = true
  | p :: q :: _ => (p.more = true ∧ (p.bytes = [] ∨ (q.bytes = [] ↔ q.more = true))) ∨
      (p.more = false ∧ p.bytes ≠ [] ∧ q.more = true ∧ q.bytes.length = p.bytes.length)

/-- The registration `mq_regi` sends, when it does. -/
def heartbeat (c : ClientSock) (svcRegi : MqRegi) (now : Time) : MqRegi :=
  ((svcRegi.setCurrent now).setBefore (svcRegi.setCurrent now).current).setSndrcv c.sndrcv

/-- A second has passed since the last heartbeat. -/
def Due (svcRegi : MqRegi) (now : Time) : Prop :=
  (svcRegi.setCurrent now).current - (svcRegi.setCurrent now).before ≥ 1

/-- A heartbeat that is due can be sent, or there is nothing to report. -/
def RegiCounts (c : ClientSock) (svcRegi : MqRegi) (now : Time) : Prop :=
  Due svcRegi now →
    Completes c.zmqPub [mqReg] (heartbeat c svcRegi now).mem ∨ c.sndrcv = MqSndrcv.zero

/-- The step counts what it does. -/
def TrafficStep.Counts (s : Traffic) : TrafficStep → Prop
  | .sendReq tag tgsvcName buf =>
      SendCounts s.sock.zmqPush (SendCall.req tag tgsvcName buf).head buf
  | .sendRes destTag buf => SendCounts s.sock.zmqPush (SendCall.res destTag buf).head buf
  | .recvReq _ _ => RecvReqCounts s.sock.zmqPull.queue
  | .recvRes _ => RecvResCounts s.sock.zmqSub.queue
  | .regi now => RegiCounts s.sock s.svcRegi now
  | .pull _ => True
  | .sub _ => True

/-! ### One step -/

/-- The counters of the client and those it has sent with a registration grow by what it has
sent and received. -/
def CountsAgree (c c' : ClientSock) : Prop :=
  ((lasts (c.zmqPub.partsSince c'.zmqPub)).map carriedCounters).sum + c'.sndrcv
    = c.sndrcv + ofFrames (lasts (c.zmqPush.partsSince c'.zmqPush))
      (lasts (c.zmqPull.partsSince c'.zmqPull) ++ lasts (c.zmqSub.partsSince c'.zmqSub))

theorem conserved_step_iff {s : Traffic} (h : Conserved s) (e : TrafficStep) :
    Conserved (trafficStep s e) ↔ CountsAgree s.sock (e.run s.sock s.svcRegi).1 := by
  unfold Conserved CountsAgree trafficStep
  rw [List.map_append, List.sum_append, ofFrames_append, ← h, add_assoc, add_assoc]
  exact add_right_inj _

@[simp] theorem Out.partsSince_self (o : Out) : o.partsSince o = [] :=
  Out.partsSince_of_sent (List.append_nil _).symm

@[simp] theorem In.partsSince_self (s : In) : s.partsSince s = [] :=
  In.partsSince_of_le (Nat.le_refl _)

/-- A call that only sends a message for others. -/
theorem countsAgree_push (c : ClientSock) (push : Out) (n : MqSndrcv) {ps : List Part}
    (hsent : push.sent = c.zmqPush.sent ++ ps) :
    CountsAgree c { c with zmqPush := push, sndrcv := n } ↔
      n = c.sndrcv + ofFrames (lasts ps) [] := by
  simp [CountsAgree, Out.partsSince_of_sent hsent, lasts]

/-- One that only sends a registration. -/
theorem countsAgree_pub (c : ClientSock) (pub : Out) (n : MqSndrcv) {ps : List Part}
    (hsent : pub.sent = c.zmqPub.sent ++ ps) :
    CountsAgree c { c with zmqPub := pub, sndrcv := n } ↔
      ((lasts ps).map carriedCounters).sum + n = c.sndrcv := by
  simp [CountsAgree, Out.partsSince_of_sent hsent, lasts]

/-- One that only receives requests. -/
theorem countsAgree_pull (c : ClientSock) (pull : In) (n : MqSndrcv) {ps : List Part}
    (hread : c.zmqPull.queue = ps ++ pull.queue) :
    CountsAgree c { c with zmqPull := pull, sndrcv := n } ↔
      n = c.sndrcv + ofFrames [] (lasts ps) := by
  simp [CountsAgree, In.partsSince_of_queue hread, lasts]

/-- One that only receives responses. -/
theorem countsAgree_sub (c : ClientSock) (sub : In) (n : MqSndrcv) {ps : List Part}
    (hread : c.zmqSub.queue = ps ++ sub.queue) :
    CountsAgree c { c with zmqSub := sub, sndrcv := n } ↔
      n = c.sndrcv + ofFrames [] (lasts ps) := by
  simp [CountsAgree, In.partsSince_of_queue hread, lasts]

theorem countsAgree_self (c : ClientSock) : CountsAgree c c := by simp [CountsAgree, lasts]

/-! ### Sending -/

theorem countsAgree_sendFrames (c : ClientSock) (head : Msg) (body : Frame) :
    CountsAgree c (sendFrames c head body).2 ↔ SendCounts c.zmqPush head body := by
  rw [sendFrames_eq]
  by_cases hcompletes : Completes c.zmqPush head body
  · obtain ⟨hrc, hsent⟩ := pushFrames_completes hcompletes
    rw [countsAgree_push _ _ _ hsent, lasts_parts]
    by_cases hbody : body = []
    · -- a message more on the socket, and no counter has moved
      rw [if_pos hbody] at hrc
      have huncounted : ¬ c.sndrcv = c.sndrcv + ofFrames [body] [] := by
        rw [left_eq_add]
        intro h
        have hcnt : (1 : Int) = 0 := congrArg MqSndrcv.sendCnt h
        exact absurd hcnt (by decide)
      simp only [hrc]
      exact iff_of_false huncounted fun h => h hcompletes hbody
    · rw [if_neg hbody] at hrc
      simp only [hrc, if_true, countSend_eq]
      exact iff_of_true trivial fun _ => hbody
  · obtain ⟨hrc, fs, hsent⟩ := pushFrames_cut hcompletes
    rw [countsAgree_push _ _ _ hsent, lasts_begun]
    simp only [hrc]
    exact iff_of_true (add_zero _).symm fun h => absurd h hcompletes

/-! ### Receiving -/

/-- Nothing is counted, and that is right when no message ended. -/
theorem uncounted_iff (s : MqSndrcv) (fs : List Frame) :
    s = s + ofFrames [] fs ↔ fs = [] := by
  rw [left_eq_add]
  constructor
  · intro h
    have hcnt : (fs.length : Int) = 0 := congrArg MqSndrcv.recvCnt h
    exact List.length_eq_zero_iff.mp (by omega)
  · rintro rfl
    rfl

/-- A message is counted, and that is right when one as long ended. -/
theorem counted_iff (s : MqSndrcv) (g : Frame) (fs : List Frame) :
    countRecv s g.length = s + ofFrames [] fs ↔ ∃ f, fs = [f] ∧ f.length = g.length := by
  rw [countRecv_eq, add_right_inj]
  constructor
  · intro h
    have hcnt : (1 : Int) = fs.length := congrArg MqSndrcv.recvCnt h
    obtain ⟨f, rfl⟩ := List.length_eq_one_iff.mp (by omega : fs.length = 1)
    have hbyte : ([g].flatten.length : Int) = [f].flatten.length := congrArg MqSndrcv.recvByte h
    rw [List.flatten_singleton, List.flatten_singleton] at hbyte
    exact ⟨f, rfl, by omega⟩
  · rintro ⟨f, rfl, hlen⟩
    refine MqSndrcv.ext' rfl rfl rfl ?_
    show ([g].flatten.length : Int) = [f].flatten.length
    rw [List.flatten_singleton, List.flatten_singleton, hlen]

theorem lasts_one (p : Part) : lasts [p] = if p.more then [] else [p.bytes] := by
  by_cases h : p.more = true <;> simp [lasts, h]

theorem lasts_two (p q : Part) : lasts [p, q] = lasts [p] ++ lasts [q] := lasts_append [p] [q]

theorem countsAgree_mqRecvReq (c : ClientSock) (tag : MqTag) (buf : List Byte) :
    CountsAgree c (mqRecvReq c tag buf).sock ↔ RecvReqCounts c.zmqPull.queue := by
  rcases hq : c.zmqPull.queue with _ | ⟨p, _ | ⟨q, rest⟩⟩
  · have hsock : (mqRecvReq c tag buf).sock = c := by simp [mqRecvReq, In.recv, hq]
    rw [hsock]
    exact iff_of_true (countsAgree_self c) trivial
  · have hsock : (mqRecvReq c tag buf).sock = { c with zmqPull := ⟨[], p.more⟩ } := by
      by_cases hp : p.bytes = [] <;> by_cases hmore : p.more = true <;>
        simp [mqRecvReq, In.recv, hq, hp, hmore]
    have hread : c.zmqPull.queue = [p] ++ [] := hq
    rw [hsock, countsAgree_pull _ _ _ hread, uncounted_iff, lasts_one]
    simp [RecvReqCounts]
  · by_cases hp : p.bytes = []
    · have hsock : (mqRecvReq c tag buf).sock = { c with zmqPull := ⟨q :: rest, p.more⟩ } := by
        simp [mqRecvReq, In.recv, hq, hp]
      have hread : c.zmqPull.queue = [p] ++ q :: rest := hq
      rw [hsock, countsAgree_pull _ _ _ hread, uncounted_iff, lasts_one]
      simp [RecvReqCounts, hp]
    · by_cases hmore : p.more = true
      · have hread : c.zmqPull.queue = [p, q] ++ rest := hq
        by_cases hbody : q.bytes = []
        · have hsock : (mqRecvReq c tag buf).sock = { c with zmqPull := ⟨rest, q.more⟩ } := by
            simp [mqRecvReq, In.recv, hq, hp, hmore, hbody]
          rw [hsock, countsAgree_pull _ _ _ hread, uncounted_iff, lasts_two, lasts_one, lasts_one]
          simp [RecvReqCounts, hp, hmore, hbody]
        · have hsock : (mqRecvReq c tag buf).sock = { c with
              zmqPull := ⟨rest, q.more⟩
              sndrcv := countRecv c.sndrcv q.bytes.length } := by
            simp [mqRecvReq, In.recv, hq, hp, hmore, hbody]
          rw [hsock, countsAgree_pull _ _ _ hread, counted_iff, lasts_two, lasts_one, lasts_one]
          by_cases hlast : q.more = true <;> simp [RecvReqCounts, hp, hmore, hbody, hlast]
      · have hsock : (mqRecvReq c tag buf).sock = { c with zmqPull := ⟨q :: rest, p.more⟩ } := by
          simp [mqRecvReq, In.recv, hq, hp, hmore]
        have hread : c.zmqPull.queue = [p] ++ q :: rest := hq
        rw [hsock, countsAgree_pull _ _ _ hread, uncounted_iff, lasts_one]
        simp [RecvReqCounts, hmore]

theorem countsAgree_mqRecvRes (c : ClientSock) (buf : List Byte) :
    CountsAgree c (mqRecvRes c buf).sock ↔ RecvResCounts c.zmqSub.queue := by
  rcases hq : c.zmqSub.queue with _ | ⟨p, _ | ⟨q, rest⟩⟩
  · have hsock : (mqRecvRes c buf).sock = c := by simp [mqRecvRes, In.recv, hq]
    rw [hsock]
    exact iff_of_true (countsAgree_self c) trivial
  · have hsock : (mqRecvRes c buf).sock = { c with zmqSub := ⟨[], p.more⟩ } := by
      by_cases hp : p.bytes = [] <;> simp [mqRecvRes, In.recv, hq, hp]
    have hread : c.zmqSub.queue = [p] ++ [] := hq
    rw [hsock, countsAgree_sub _ _ _ hread, uncounted_iff, lasts_one]
    simp [RecvResCounts]
  · by_cases hp : p.bytes = []
    · have hsock : (mqRecvRes c buf).sock = { c with zmqSub := ⟨q :: rest, p.more⟩ } := by
        simp [mqRecvRes, In.recv, hq, hp]
      have hread : c.zmqSub.queue = [p] ++ q :: rest := hq
      rw [hsock, countsAgree_sub _ _ _ hread, uncounted_iff, lasts_one]
      simp [RecvResCounts, hp]
    · have hread : c.zmqSub.queue = [p, q] ++ rest := hq
      by_cases hbody : q.bytes = []
      · have hsock : (mqRecvRes c buf).sock = { c with zmqSub := ⟨rest, q.more⟩ } := by
          simp [mqRecvRes, In.recv, hq, hp, hbody]
        have hpos : (0 : Nat) ≠ p.bytes.length := fun h =>
          hp (List.length_eq_zero_iff.mp h.symm)
        rw [hsock, countsAgree_sub _ _ _ hread, uncounted_iff, lasts_two, lasts_one, lasts_one]
        by_cases hmore : p.more = true <;> simp [RecvResCounts, hp, hmore, hbody, hpos]
      · have hsock : (mqRecvRes c buf).sock = { c with
            zmqSub := ⟨rest, q.more⟩
            sndrcv := countRecv c.sndrcv q.bytes.length } := by
          simp [mqRecvRes, In.recv, hq, hp, hbody]
        rw [hsock, countsAgree_sub _ _ _ hread, counted_iff, lasts_two, lasts_one, lasts_one]
        by_cases hmore : p.more = true <;> by_cases hlast : q.more = true <;>
          simp [RecvResCounts, hp, hmore, hbody, hlast, eq_comm]

/-! ### Heartbeats -/

/-- A registration is received with the counters it was sent with. -/
theorem carriedCounters_mem (svcRegi : MqRegi) : carriedCounters svcRegi.mem = svcRegi.sndrcv := by
  rw [carriedCounters, MqRegi.recv_mem]

theorem mqRegi_due {c : ClientSock} {svcRegi : MqRegi} {now : Time} (h : Due svcRegi now) :
    (mqRegi c svcRegi now).sock = { c with
      zmqPub := (pushFrames c.zmqPub [mqReg] (heartbeat c svcRegi now).mem).2
      sndrcv := MqSndrcv.zero } := by
  unfold Due at h
  rw [mqRegi]
  simp only [if_pos h]
  rfl

theorem mqRegi_not_due {c : ClientSock} {svcRegi : MqRegi} {now : Time} (h : ¬ Due svcRegi now) :
    (mqRegi c svcRegi now).sock = c := by
  unfold Due at h
  rw [mqRegi]
  simp only [if_neg h]

theorem countsAgree_mqRegi {c : ClientSock} (hrange : c.sndrcv.InRange) (svcRegi : MqRegi)
    (now : Time) :
    CountsAgree c (mqRegi c svcRegi now).sock ↔ RegiCounts c svcRegi now := by
  by_cases hdue : Due svcRegi now
  · rw [mqRegi_due hdue]
    by_cases hcompletes : Completes c.zmqPub [mqReg] (heartbeat c svcRegi now).mem
    · have hsent := (pushFrames_completes hcompletes).2
      have hcarried : carriedCounters (heartbeat c svcRegi now).mem = c.sndrcv := by
        rw [carriedCounters_mem, heartbeat]
        exact MqRegi.sndrcv_setSndrcv _ hrange
      rw [countsAgree_pub _ _ _ hsent, lasts_parts, List.map_singleton, List.sum_singleton,
        hcarried]
      exact iff_of_true (add_zero _) fun _ => Or.inl hcompletes
    · -- the counters are gone, so there must have been nothing in them
      obtain ⟨-, fs, hsent⟩ := pushFrames_cut hcompletes
      rw [countsAgree_pub _ _ _ hsent, lasts_begun, List.map_nil, List.sum_nil, zero_add]
      constructor
      · intro h _
        exact Or.inr h.symm
      · intro h
        exact ((h hdue).resolve_left hcompletes).symm
  · rw [mqRegi_not_due hdue]
    exact iff_of_true (countsAgree_self c) fun h => absurd h hdue

/-! ### Runs -/

theorem arrive_partsSince (s : In) (m : Msg) : s.partsSince (s.arrive m) = [] :=
  In.partsSince_of_le (by simp [In.arrive])

theorem countsAgree_iff_counts {s : Traffic} (hrange : s.sock.sndrcv.InRange) (e : TrafficStep) :
    CountsAgree s.sock (e.run s.sock s.svcRegi).1 ↔ e.Counts s := by
  cases e with
  | sendReq tag tgsvcName buf => exact countsAgree_sendFrames _ _ _
  | sendRes destTag buf =>
      rw [TrafficStep.run, mqSendRes_eq]
      exact countsAgree_sendFrames _ _ _
  | recvReq tag buf => exact countsAgree_mqRecvReq _ _ _
  | recvRes buf => exact countsAgree_mqRecvRes _ _
  | regi now => exact countsAgree_mqRegi hrange _ _
  | pull m =>
      refine iff_of_true ?_ trivial
      simp [CountsAgree, TrafficStep.run, arrive_partsSince, lasts]
  | sub m =>
      refine iff_of_true ?_ trivial
      simp [CountsAgree, TrafficStep.run, arrive_partsSince, lasts]

/-- A client before its first call, with any sockets and nothing counted. -/
def startTraffic (c : ClientSock) (svcRegi : MqRegi) : Traffic :=
  ⟨{ c with sndrcv := MqSndrcv.zero }, svcRegi, [], [], []⟩

theorem conserved_start (c : ClientSock) (svcRegi : MqRegi) :
    Conserved (startTraffic c svcRegi) := rfl

/-- **The traffic is conserved in a run exactly when every step counts what it does.** -/
theorem traffic_conserved_iff (c : ClientSock) (svcRegi : MqRegi) (es : List TrafficStep)
    (hrange : ∀ t ∈ states trafficStep (startTraffic c svcRegi) es, t.sock.sndrcv.InRange) :
    (∀ t ∈ states trafficStep (startTraffic c svcRegi) es, Conserved t) ↔
      AllSteps trafficStep TrafficStep.Counts (startTraffic c svcRegi) es := by
  refine states_good_iff_of_ok (fun _ h => h) (fun s e hok h => ?_) es
    (conserved_start c svcRegi) hrange
  have hstep := (conserved_step_iff h e).trans (countsAgree_iff_counts hok e)
  exact ⟨hstep.mpr, mt hstep.mp⟩

/-! ### A request and a heartbeat -/

def newClient : ClientSock := crtCliSock 5000 true []

/-- A request is sent, and reported a second later. -/
def requestAndRegi : List TrafficStep :=
  [.sendReq MqTag.zero (lit "AHIF") (lit "ping"), .regi 1]

theorem inRange_requestAndRegi :
    ∀ t ∈ states trafficStep (startTraffic newClient MqRegi.zero) requestAndRegi,
      t.sock.sndrcv.InRange := by
  have hcounters : (states trafficStep (startTraffic newClient MqRegi.zero) requestAndRegi).map
      (fun t => t.sock.sndrcv) = [⟨0, 0, 0, 0⟩, ⟨1, 0, 4, 0⟩, ⟨0, 0, 0, 0⟩] := by decide +kernel
  intro t ht
  have hmem := List.mem_map_of_mem (f := fun t : Traffic => t.sock.sndrcv) ht
  have hsmall : ∀ n : Int, 0 ≤ n → n ≤ 4 → IsInt n := fun n h0 h4 => ⟨by omega, by omega⟩
  rw [hcounters] at hmem
  simp only [List.mem_cons, List.not_mem_nil, or_false] at hmem
  rcases hmem with h | h | h
  all_goals
    rw [h]
    constructor <;> exact hsmall _ (by decide) (by decide)

theorem traffic_conserved_request :
    Conserved (requestAndRegi.foldl trafficStep (startTraffic newClient MqRegi.zero)) := by
  have hrequest : (TrafficStep.sendReq MqTag.zero (lit "AHIF") (lit "ping")).Counts
      (startTraffic newClient MqRegi.zero) := fun _ => by decide
  have hpub : (trafficStep (startTraffic newClient MqRegi.zero)
      (.sendReq MqTag.zero (lit "AHIF") (lit "ping"))).sock.zmqPub.kind = .pub := by
    simp only [trafficStep, TrafficStep.run, mqSendReq, sendFrames_eq]
    rfl
  have hregi : (TrafficStep.regi 1).Counts (trafficStep (startTraffic newClient MqRegi.zero)
      (.sendReq MqTag.zero (lit "AHIF") (lit "ping"))) :=
    fun _ => Or.inl ⟨by decide, accepts_pub hpub⟩
  exact (traffic_conserved_iff newClient MqRegi.zero requestAndRegi inRange_requestAndRegi).mpr
    ⟨hrequest, hregi, trivial⟩ _ (foldl_mem_states _ _)

/-- The client whose heartbeats are refused. -/
def unheardClient : ClientSock := { newClient with zmqPub := ⟨.pipe, [], [some .EAGAIN]⟩ }

/-- A request without a body is sent and not counted.  A request that was counted is not
reported, and no longer counted, when the heartbeat is refused. -/
theorem traffic_lost :
    ¬ Conserved (trafficStep (startTraffic newClient MqRegi.zero)
      (.sendReq MqTag.zero (lit "AHIF") [])) ∧
    ¬ Conserved (requestAndRegi.foldl trafficStep (startTraffic unheardClient MqRegi.zero)) := by
  constructor
  · unfold Conserved
    decide +kernel
  · unfold Conserved
    decide +kernel

end Brocoli
