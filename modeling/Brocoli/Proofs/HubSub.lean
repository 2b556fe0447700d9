/-
How a hub thread reads its subscriber.

`broker_sub_callback` receives the topic of every message into the same buffer and compares
it as a string.  Once the id of the broker has been there, and is longer than `svc_reg`, a
registration is no longer recognised: it is taken for a relayed message, its frame for a
type, and dropped.  `heard` says which messages that leaves, and `SubHandles.run` that the
callback does with them what it would do with each alone.

That is as long as the dealer takes what is relayed.  When it does not, `relay_to_broker`
returns inside the message, and the frame it leaves is read as a topic.  What the callback
makes of the frames from there may be anything, but `marked` bounds the messages it can still
complete, and one is missing.
-/
import Brocoli.HubThread

namespace Brocoli.Hub

open CMem Multipart NTree Runs

/-! ### Well-formed messages -/

/-- The messages a thread's subscriber gets.  A relayed request carries a tag in front of
its body, a relayed response a name. -/
inductive SubMsg where
  | regi (svcRegi : MqRegi)
  | relayed (response : Bool) (svc tagOrName body : Frame)

/-- A peer address in text begins with one of its digits, or with a colon. -/
def IsAddress (host : Str) : Prop :=
  ∃ b rest, host = b :: rest ∧ b ∈ lit "0123456789abcdefABCDEF:"

/-- The id of a broker: its address and its name. -/
def IsBrokerId (id : Str) : Prop :=
  id.length < 1024 ∧ (0 : Byte) ∉ id ∧ ∃ host name, IsAddress host ∧ id = host ++ lit "_" ++ name

namespace SubMsg

/-- The frames, for the thread of the broker `id`. -/
def frames (id : Str) : SubMsg → Msg
  | regi svcRegi => [mqReg, svcRegi.mem]
  | relayed response svc tagOrName body =>
      [id, if response then mqResInterhub else mqReqInterhub, svc, tagOrName, body]

/-- Every frame is shorter than the buffer it is read into, and a registration comes from
an address. -/
def Fits : SubMsg → Prop
  | regi svcRegi => IsAddress svcRegi.brokerHost
  | relayed _ svc tagOrName body =>
      svc.length < 128 ∧ tagOrName.length ≤ 121 ∧ body.length ≤ maxBuffSize

def isRegi : SubMsg → Bool
  | regi _ => true
  | relayed .. => false

end SubMsg

/-- What a message is for: a registration is entered in the small tree, the others are sent
to the broker's router. -/
def handle (time : Nat → Time) (t : BrokerThread) : SubMsg → BrokerThread
  | .regi svcRegi =>
      { t with
        rootNode := chkSmallTree t.rootNode svcRegi (time t.ticks) (time (t.ticks + 1))
        ticks := t.ticks + 2 }
  | .relayed response svc tagOrName body =>
      { t with zmqDealerOut := t.zmqDealerOut.put (parts
          [if response then mqRes else mqReq, cstr svc, (MqTag.zero.recv tagOrName).mem, body]) }

/-! ### The topic buffer -/

/-- Something is behind the first seven bytes. -/
def Stale (b : Buf 1024) : Prop := cstr (b.mem.drop 7) ≠ []

theorem not_stale_zero : ¬ Stale (Buf.zero 1024) := by
  show ¬ cstr ((zeros 1024).drop 7) ≠ []
  rw [drop_zeros, cstr_zeros]
  exact fun h => h rfl

theorem first_of_id {id : Str} (h : IsBrokerId id) : ∃ b rest, id = b :: rest ∧ b ≠ 115 := by
  obtain ⟨-, -, host, name, ⟨b, rest, rfl, hb⟩, rfl⟩ := h
  refine ⟨b, rest ++ lit "_" ++ name, rfl, ?_⟩
  rintro rfl
  exact absurd hb (by decide)

/-- The id of a broker is never taken for the topic of registrations. -/
theorem str_recv_id {id : Str} (h : IsBrokerId id) (b : Buf 1024) : (b.recv id).str ≠ mqReg := by
  have hsize := b.size
  rw [Buf.str_recv_stale b (Nat.le_of_lt h.1) h.2.1]
  obtain ⟨c, rest, rfl, hc⟩ := first_of_id h
  have hreg : mqReg = 115 :: lit "vc_reg" := by decide
  rw [hreg, List.cons_append]
  intro heq
  exact hc (List.cons.inj heq).1

/-- An id that is longer than the topic of registrations leaves something behind it. -/
theorem stale_recv_id {id : Str} (h : IsBrokerId id) (b : Buf 1024) :
    Stale (b.recv id) ↔ Stale b ∨ 7 < id.length := by
  have hsize := b.size
  have hlen := h.1
  by_cases hlong : 7 < id.length
  · refine iff_of_true ?_ (Or.inr hlong)
    show cstr ((store b.mem 0 id).drop 7) ≠ []
    have hnot : (0 : Byte) ∉ id.drop 7 := fun hmem => h.2.1 (List.mem_of_mem_drop hmem)
    rw [store_front (by omega), List.drop_append_of_le_length (by omega),
      cstr_append_of_notMem hnot]
    intro hnil
    have hdrop := congrArg List.length (List.append_eq_nil_iff.mp hnil).1
    rw [List.length_drop, List.length_nil] at hdrop
    omega
  · have hdrop : (b.recv id).mem.drop 7 = b.mem.drop 7 := drop_store (by omega) (by omega)
    rw [Stale, hdrop]
    simp [Stale, hlong]

/-- A registration is recognised when nothing is behind its topic. -/
theorem str_recv_mqReg (b : Buf 1024) :
    ((b.recv mqReg).str = mqReg ↔ ¬ Stale b) ∧ (Stale (b.recv mqReg) ↔ Stale b) := by
  have hsize := b.size
  have hlen : mqReg.length = 7 := by decide
  have hdrop : (b.recv mqReg).mem.drop 7 = b.mem.drop 7 := drop_store (by omega) (by omega)
  refine ⟨?_, by rw [Stale, hdrop]; exact Iff.rfl⟩
  rw [Buf.str_recv_stale b (by omega) (by decide), hlen, Stale, not_not]
  exact List.append_right_eq_self

/-! ### One message -/

/-- The thread with messages waiting on its subscriber. -/
def subWaiting (t : BrokerThread) (ms : List SubMsg) : BrokerThread :=
  { t with zmqSub := In.holding (ms.map (SubMsg.frames t.brokerId)) }

theorem brokerSubIter_empty (time : Nat → Time) (t : BrokerThread) (b : Buf 1024) :
    brokerSubIter time (subWaiting t [], b) = none := rfl

/-- The frame of a registration is not a type that is relayed. -/
theorem regi_not_type {svcRegi : MqRegi} (h : IsAddress svcRegi.brokerHost) :
    ((Buf.zero 128).recv svcRegi.mem).str ≠ mqReqInterhub ∧
      ((Buf.zero 128).recv svcRegi.mem).str ≠ mqResInterhub := by
  have hsize := svcRegi.size
  have hmem : ((Buf.zero 128).recv svcRegi.mem).mem = svcRegi.mem.take 128 :=
    (Buf.zero 128).recv_mem_long (by rw [hsize]; decide)
  obtain ⟨b, rest, hhost, hb⟩ := h
  have hs : b ≠ 115 := by
    rintro rfl
    exact absurd hb (by decide)
  have h0 : b ≠ 0 := by
    rintro rfl
    exact absurd hb (by decide)
  have hfirst : ∃ tail, svcRegi.mem = b :: tail := by
    unfold MqRegi.brokerHost at hhost
    rw [List.drop_zero] at hhost
    cases hm : svcRegi.mem with
    | nil => simp [hm] at hhost
    | cons c tail =>
        rw [hm] at hhost
        by_cases hc : c = 0
        · rw [hc, cstr_zero_cons] at hhost
          exact absurd hhost (by simp)
        · rw [cstr_cons_of_ne hc] at hhost
          exact ⟨tail, by rw [(List.cons.inj hhost).1]⟩
  obtain ⟨tail, hm⟩ := hfirst
  have hstr : ((Buf.zero 128).recv svcRegi.mem).str = b :: cstr (tail.take 127) := by
    rw [Buf.str, hmem, hm, List.take_succ_cons, cstr_cons_of_ne h0]
  have hreq : mqReqInterhub = 115 :: lit "vc_req_interhub" := by decide
  have hres : mqResInterhub = 115 :: lit "vc_res_interhub" := by decide
  rw [hstr, hreq, hres]
  exact ⟨fun heq => hs (List.cons.inj heq).1, fun heq => hs (List.cons.inj heq).1⟩

/-- What a relayed message is sent as. -/
theorem relayToBroker_eq {t : BrokerThread} (hdealer : t.zmqDealerOut.Steady) {svc : Frame}
    {tagOrName body : Frame} (hsvc : svc.length < 128) (hbody : body.length ≤ maxBuffSize)
    {ms : List Msg} (hin : t.zmqSub = ⟨parts [svc, tagOrName, body] ++ stream ms, true⟩)
    (msgType : Str) :
    relayToBroker t msgType
      = { t with
          zmqSub := In.holding ms
          zmqDealerOut := t.zmqDealerOut.put (parts
            [msgType, cstr svc, (MqTag.zero.recv tagOrName).mem, body]) } := by
  have hlen : Relayable [body] := by
    intro f hf
    obtain rfl := List.mem_singleton.mp hf
    exact hbody
  obtain ⟨hsend, hrelay⟩ := sendWhile_relay hdealer
    [msgType, cstr svc, (MqTag.zero.recv tagOrName).mem] (by simp) hlen (stream ms) true
  unfold relayToBroker
  rw [hin]
  simp only [parts_cons_cons, List.cons_append, recv_cons, Buf.str_recv_zero hsvc, hsend, hrelay]
  simp [In.holding]

@[simp] theorem handle_brokerId (time : Nat → Time) (t : BrokerThread) (m : SubMsg) :
    (handle time t m).brokerId = t.brokerId := by
  cases m <;> rfl

theorem handle_steady {time : Nat → Time} {t : BrokerThread} (h : t.zmqDealerOut.Steady)
    (m : SubMsg) : (handle time t m).zmqDealerOut.Steady := by
  cases m with
  | regi svcRegi => exact h
  | relayed response svc tagOrName body => exact h.put _

/-- The message is recognised; `stale` says that something is behind the first seven bytes
of the topic buffer. -/
def recognised (stale : Bool) (m : SubMsg) : Bool := !(stale && m.isRegi)

/-- What is behind them once the message has been read by the thread of the broker `id`. -/
def staleAfter (id : Str) (stale : Bool) (m : SubMsg) : Bool :=
  stale || (!m.isRegi && decide (7 < id.length))

/-- A registration is noted under its topic, and passed over behind any other. -/
theorem brokerSubBody_regi (time : Nat → Time) {t : BrokerThread} {svcRegi : MqRegi}
    (h : IsAddress svcRegi.brokerHost) {ms : List Msg}
    (hin : t.zmqSub = ⟨⟨svcRegi.mem, false⟩ :: stream ms, true⟩) (action : Str) :
    brokerSubBody time t action
      = if action = mqReg then handle time { t with zmqSub := In.holding ms } (.regi svcRegi)
        else { t with zmqSub := In.holding ms } := by
  obtain ⟨hreq, hres⟩ := regi_not_type h
  rw [brokerSubBody, hin]
  simp only [recv_cons, MqRegi.recv_mem, hreq, hres, if_false]
  rfl

/-- A request or a response is relayed behind any other topic. -/
theorem brokerSubBody_relayed (time : Nat → Time) {t : BrokerThread} (response : Bool)
    {svc tagOrName body : Frame} {ms : List Msg}
    (hin : t.zmqSub = ⟨parts [if response then mqResInterhub else mqReqInterhub, svc, tagOrName,
      body] ++ stream ms, true⟩) {action : Str} (haction : action ≠ mqReg) :
    brokerSubBody time t action
      = relayToBroker { t with zmqSub := ⟨parts [svc, tagOrName, body] ++ stream ms, true⟩ }
          (if response then mqRes else mqReq) := by
  rw [brokerSubBody, hin, parts_cons (by simp), List.cons_append]
  simp only [recv_cons, if_neg haction]
  cases response with
  | true =>
      have hty : ((Buf.zero 128).recv mqResInterhub).str = mqResInterhub :=
        (Buf.str_recv_zero (by decide)).trans (by decide)
      simp only [if_true, hty]
      rw [if_neg (by decide)]
  | false =>
      have hty : ((Buf.zero 128).recv mqReqInterhub).str = mqReqInterhub :=
        (Buf.str_recv_zero (by decide)).trans (by decide)
      simp only [Bool.false_eq_true, if_false, hty, if_true]

/-- **One iteration takes a registration, and notes it when it is recognised.** -/
theorem brokerSubIter_regi (time : Nat → Time) (t : BrokerThread) {svcRegi : MqRegi}
    (h : IsAddress svcRegi.brokerHost) (ms : List SubMsg) {b : Buf 1024} {stale : Bool}
    (hb : Stale b ↔ stale = true) :
    ∃ b', brokerSubIter time (subWaiting t (.regi svcRegi :: ms), b)
        = some (subWaiting (if recognised stale (.regi svcRegi) then handle time t (.regi svcRegi)
            else t) ms, b') ∧
      (Stale b' ↔ staleAfter t.brokerId stale (.regi svcRegi) = true) := by
  refine ⟨b.recv mqReg, ?_, ?_⟩
  · set t1 : BrokerThread := { t with zmqSub := ⟨⟨svcRegi.mem, false⟩ :: stream
      (ms.map (SubMsg.frames t.brokerId)), true⟩ }
    have hbody := brokerSubBody_regi time (t := t1) h rfl (b.recv mqReg).str
    show some (brokerSubBody time t1 (b.recv mqReg).str, b.recv mqReg) = _
    rw [hbody]
    by_cases hs : stale = true
    · have hne : (b.recv mqReg).str ≠ mqReg := fun heq => (str_recv_mqReg b).1.mp heq (hb.mpr hs)
      have hrec : recognised stale (.regi svcRegi) = false := by
        simp [recognised, SubMsg.isRegi, hs]
      rw [if_neg hne, hrec]
      rfl
    · have heq : (b.recv mqReg).str = mqReg := (str_recv_mqReg b).1.mpr fun h => hs (hb.mp h)
      have hrec : recognised stale (.regi svcRegi) = true := by
        simp [recognised, SubMsg.isRegi, hs]
      rw [if_pos heq, hrec]
      rfl
  · rw [(str_recv_mqReg b).2, hb]
    simp [staleAfter, SubMsg.isRegi]

/-- **One iteration hands a relayed message to `relay_to_broker`**, behind its type. -/
theorem brokerSubIter_relayed (time : Nat → Time) {t : BrokerThread} (hid : IsBrokerId t.brokerId)
    (response : Bool) (svc tagOrName body : Frame) (ms : List SubMsg) {b : Buf 1024} {stale : Bool}
    (hb : Stale b ↔ stale = true) :
    ∃ b', brokerSubIter time (subWaiting t (.relayed response svc tagOrName body :: ms), b)
        = some (relayToBroker { t with zmqSub := ⟨parts [svc, tagOrName, body] ++ stream
            (ms.map (SubMsg.frames t.brokerId)), true⟩ } (if response then mqRes else mqReq), b') ∧
      (Stale b' ↔ staleAfter t.brokerId stale (.relayed response svc tagOrName body) = true) := by
  refine ⟨b.recv t.brokerId, ?_, ?_⟩
  · set t1 : BrokerThread := { t with
      zmqSub := ⟨parts [if response then mqResInterhub else mqReqInterhub, svc, tagOrName, body]
        ++ stream (ms.map (SubMsg.frames t.brokerId)), true⟩ }
    have hbody := brokerSubBody_relayed time (t := t1) response rfl (str_recv_id hid b)
    show some (brokerSubBody time t1 (b.recv t.brokerId).str, b.recv t.brokerId) = _
    rw [hbody]
  · rw [stale_recv_id hid, hb]
    simp [staleAfter, SubMsg.isRegi]

/-! ### A run of the callback -/

/-- The messages that are recognised. -/
def heard (id : Str) : Bool → List SubMsg → List SubMsg
  | _, [] => []
  | stale, m :: ms =>
      if recognised stale m then m :: heard id (staleAfter id stale m) ms
      else heard id (staleAfter id stale m) ms

/-- `next` is what becomes of a thread when a message is handled, as long as the messages in
front of it `Go`. -/
structure SubHandles (time : Nat → Time) (next : BrokerThread → SubMsg → BrokerThread)
    (Go : BrokerThread → List SubMsg → Prop) : Prop where
  id : ∀ t m, (next t m).brokerId = t.brokerId
  regi : ∀ t svcRegi, next t (.regi svcRegi) = handle time t (.regi svcRegi)
  relay : ∀ {t response svc tagOrName body ms}, Go t (.relayed response svc tagOrName body :: ms) →
    (SubMsg.relayed response svc tagOrName body).Fits → ∀ q : List Msg,
      relayToBroker { t with zmqSub := ⟨parts [svc, tagOrName, body] ++ stream q, true⟩ }
          (if response then mqRes else mqReq)
        = { next t (.relayed response svc tagOrName body) with zmqSub := In.holding q }
  go : ∀ {t m ms}, Go t (m :: ms) → Go (next t m) ms
  missed : ∀ {t svcRegi ms}, Go t (.regi svcRegi :: ms) → Go t ms
  first : ∀ {t m ms}, Go t (m :: ms) → Go t [m]

/-- With a dealer that never refuses. -/
theorem handles_steady (time : Nat → Time) :
    SubHandles time (handle time) fun t _ => t.zmqDealerOut.Steady where
  id := handle_brokerId time
  regi _ _ := rfl
  relay := by
    intro t response svc tagOrName body ms hdealer hfits q
    set t1 : BrokerThread := { t with zmqSub := ⟨parts [svc, tagOrName, body] ++ stream q, true⟩ }
    exact relayToBroker_eq (t := t1) hdealer hfits.1 hfits.2.2 rfl _
  go h := handle_steady h _
  missed h := h
  first h := h

section Run

variable {time : Nat → Time} {next : BrokerThread → SubMsg → BrokerThread}
  {Go : BrokerThread → List SubMsg → Prop}

/-- **One iteration takes one message, and handles it when it is recognised.** -/
theorem SubHandles.iter (h : SubHandles time next Go) {t : BrokerThread}
    (hid : IsBrokerId t.brokerId) {m : SubMsg} (hfits : m.Fits) {ms : List SubMsg}
    (hgo : Go t (m :: ms)) {b : Buf 1024} {stale : Bool} (hb : Stale b ↔ stale = true) :
    ∃ b', brokerSubIter time (subWaiting t (m :: ms), b)
        = some (subWaiting (if recognised stale m then next t m else t) ms, b') ∧
      (Stale b' ↔ staleAfter t.brokerId stale m = true) := by
  cases m with
  | regi svcRegi =>
      rw [h.regi]
      exact brokerSubIter_regi time t hfits ms hb
  | relayed response svc tagOrName body =>
      obtain ⟨b', hiter, hb'⟩ := brokerSubIter_relayed time hid response svc tagOrName body ms hb
      have hrec : recognised stale (.relayed response svc tagOrName body) = true := by
        simp [recognised, SubMsg.isRegi]
      rw [h.relay hgo hfits, ← h.id t (.relayed response svc tagOrName body)] at hiter
      rw [if_pos hrec]
      exact ⟨b', hiter, hb'⟩

/-- **A run handles the messages that are recognised, in their order.** -/
theorem SubHandles.run (h : SubHandles time next Go) : ∀ (ms : List SubMsg) {t : BrokerThread}
    {b : Buf 1024} {stale : Bool} {fuel : Nat}, ms.length ≤ fuel → IsBrokerId t.brokerId →
    Go t ms → (∀ m ∈ ms, m.Fits) → (Stale b ↔ stale = true) →
    (whileSome (brokerSubIter time) fuel (subWaiting t ms, b)).1
      = subWaiting ((heard t.brokerId stale ms).foldl next t) [] := by
  intro ms
  induction ms with
  | nil =>
      intro t b stale fuel _ _ _ _ _
      rw [whileSome_none (brokerSubIter_empty time t b)]
      rfl
  | cons m ms ih =>
      intro t b stale fuel hfuel hid hgo hfits hb
      obtain ⟨fuel, rfl⟩ : ∃ k, fuel = k + 1 := ⟨fuel - 1, by simp at hfuel; omega⟩
      obtain ⟨b', hiter, hb'⟩ := h.iter hid (hfits m (by simp)) hgo hb
      have hlen : ms.length ≤ fuel := by
        simp at hfuel
        omega
      have hms : ∀ x ∈ ms, x.Fits := fun x hx => hfits x (by simp [hx])
      rw [whileSome_some hiter, heard]
      by_cases hrec : recognised stale m = true
      · simp only [if_pos hrec, List.foldl_cons]
        have hrun := ih (t := next t m) hlen (by rw [h.id]; exact hid) (h.go hgo) hms hb'
        rwa [h.id] at hrun
      · have hleft : Go t ms := by
          cases m with
          | regi svcRegi => exact h.missed hgo
          | relayed response svc tagOrName body =>
              exact absurd (by simp [recognised, SubMsg.isRegi]) hrec
        simp only [if_neg hrec]
        exact ih hlen hid hleft hms hb'

theorem length_le_subWaiting (t : BrokerThread) (ms : List SubMsg) :
    ms.length ≤ (subWaiting t ms).zmqSub.queue.length := by
  have hne : ∀ m ∈ ms.map (SubMsg.frames t.brokerId), m ≠ [] := by
    intro m hm
    obtain ⟨x, -, rfl⟩ := List.mem_map.mp hm
    cases x <;> simp [SubMsg.frames]
  have hlen := length_le_stream hne
  rw [List.length_map] at hlen
  exact hlen

theorem SubHandles.callback (h : SubHandles time next Go) {t : BrokerThread}
    (hid : IsBrokerId t.brokerId) {ms : List SubMsg} (hgo : Go t ms) (hfits : ∀ m ∈ ms, m.Fits) :
    brokerSubCallback time (subWaiting t ms)
      = subWaiting ((heard t.brokerId false ms).foldl next t) [] :=
  h.run ms (length_le_subWaiting t ms) hid hgo hfits (iff_of_false not_stale_zero (by simp))

/-- Alone, every message is handled. -/
theorem SubHandles.alone (h : SubHandles time next Go) {t : BrokerThread}
    (hid : IsBrokerId t.brokerId) {m : SubMsg} (hgo : Go t [m]) (hfits : m.Fits) :
    brokerSubCallback time (subWaiting t [m]) = subWaiting (next t m) [] := by
  rw [h.callback hid hgo (by simpa using hfits)]
  simp [heard, recognised]

end Run

theorem brokerSubCallback_eq (time : Nat → Time) {t : BrokerThread} (hid : IsBrokerId t.brokerId)
    (hdealer : t.zmqDealerOut.Steady) {ms : List SubMsg} (hfits : ∀ m ∈ ms, m.Fits) :
    brokerSubCallback time (subWaiting t ms)
      = subWaiting ((heard t.brokerId false ms).foldl (handle time) t) [] :=
  (handles_steady time).callback hid hdealer hfits

theorem brokerSubCallback_alone (time : Nat → Time) {t : BrokerThread} (hid : IsBrokerId t.brokerId)
    (hdealer : t.zmqDealerOut.Steady) {m : SubMsg} (hfits : m.Fits) :
    brokerSubCallback time (subWaiting t [m]) = subWaiting (handle time t m) [] :=
  (handles_steady time).alone hid hdealer hfits

/-! ### Which messages are recognised -/

/-- No message is missed: nothing is behind the topic of a registration, neither from the
start nor from a relayed message in front of it. -/
structure AllHeard (id : Str) (stale : Bool) (ms : List SubMsg) : Prop where
  start : stale = true → ∀ m ∈ ms, m.isRegi = false
  order : id.length ≤ 7 ∨ ms.Pairwise fun m n => m.isRegi = false → n.isRegi = false

theorem allHeard_cons {id : Str} {stale : Bool} {m : SubMsg} {ms : List SubMsg} :
    AllHeard id stale (m :: ms) ↔
      recognised stale m = true ∧ AllHeard id (staleAfter id stale m) ms := by
  have hrec : recognised stale m = true ↔ (stale = true → m.isRegi = false) := by
    cases stale <;> simp [recognised]
  have hafter : staleAfter id stale m = true ↔
      stale = true ∨ (m.isRegi = false ∧ 7 < id.length) := by
    simp [staleAfter]
  constructor
  · intro h
    refine ⟨hrec.mpr fun hs => h.start hs m (by simp), ⟨fun hs x hx => ?_, ?_⟩⟩
    · rcases hafter.mp hs with hs | ⟨hm, hlong⟩
      · exact h.start hs x (by simp [hx])
      · rcases h.order with hshort | horder
        · omega
        · exact (List.pairwise_cons.mp horder).1 x hx hm
    · exact h.order.imp_right fun horder => (List.pairwise_cons.mp horder).2
  · rintro ⟨hm, h⟩
    refine ⟨fun hs x hx => ?_, ?_⟩
    · rcases List.mem_cons.mp hx with rfl | hx
      · exact hrec.mp hm hs
      · exact h.start (hafter.mpr (Or.inl hs)) x hx
    · by_cases hshort : id.length ≤ 7
      · exact Or.inl hshort
      · refine Or.inr (List.pairwise_cons.mpr ⟨fun x hx hregi => ?_, ?_⟩)
        · exact h.start (hafter.mpr (Or.inr ⟨hregi, by omega⟩)) x hx
        · exact h.order.resolve_left hshort

theorem heard_sublist (id : Str) : ∀ (ms : List SubMsg) (stale : Bool),
    (heard id stale ms).Sublist ms := by
  intro ms
  induction ms with
  | nil => intro stale; exact List.Sublist.refl _
  | cons m ms ih =>
      intro stale
      rw [heard]
      by_cases hrec : recognised stale m = true
      · rw [if_pos hrec]
        exact (ih _).cons_cons m
      · rw [if_neg hrec]
        exact (ih _).cons m

theorem heard_eq {id : Str} : ∀ {ms : List SubMsg} {stale : Bool}, AllHeard id stale ms →
    heard id stale ms = ms := by
  intro ms
  induction ms with
  | nil => intro stale _; rfl
  | cons m ms ih =>
      intro stale h
      obtain ⟨hm, hms⟩ := allHeard_cons.mp h
      rw [heard, if_pos hm, ih hms]

/-- Only registrations are missed, so their number tells whether any message is. -/
theorem allHeard_of_count {id : Str} : ∀ {ms : List SubMsg} {stale : Bool},
    (heard id stale ms).countP SubMsg.isRegi = ms.countP SubMsg.isRegi → AllHeard id stale ms := by
  intro ms
  induction ms with
  | nil => intro stale _; exact ⟨by simp, Or.inr List.Pairwise.nil⟩
  | cons m ms ih =>
      intro stale h
      rw [heard] at h
      by_cases hrec : recognised stale m = true
      · rw [if_pos hrec, List.countP_cons, List.countP_cons, Nat.add_right_cancel_iff] at h
        exact allHeard_cons.mpr ⟨hrec, ih h⟩
      · have hle := (heard_sublist id ms (staleAfter id stale m)).countP_le (p := SubMsg.isRegi)
        have hregi : m.isRegi = true := by
          by_cases hm : m.isRegi = true
          · exact hm
          · exact absurd (by simp [recognised, hm]) hrec
        rw [if_neg hrec, List.countP_cons, if_pos hregi] at h
        omega

/-- The clock is read twice for every registration. -/
theorem foldl_handle_ticks (time : Nat → Time) : ∀ (ms : List SubMsg) (t : BrokerThread),
    (ms.foldl (handle time) t).ticks = t.ticks + 2 * ms.countP SubMsg.isRegi := by
  intro ms
  induction ms with
  | nil => intro t; rfl
  | cons m ms ih =>
      intro t
      rw [List.foldl_cons, ih, List.countP_cons]
      cases m with
      | regi svcRegi =>
          show t.ticks + 2 + _ = _
          simp [SubMsg.isRegi]
          omega
      | relayed response svc tagOrName body => simp [handle, SubMsg.isRegi]

/-! ### A dealer that refuses -/

/-- The messages that are sent to the broker's router. -/
def relays (ms : List SubMsg) : Nat := ms.countP fun m => !m.isRegi

@[simp] theorem relays_regi (svcRegi : MqRegi) (ms : List SubMsg) :
    relays (.regi svcRegi :: ms) = relays ms := by
  simp [relays, SubMsg.isRegi]

@[simp] theorem relays_relayed (response : Bool) (svc tagOrName body : Frame) (ms : List SubMsg) :
    relays (.relayed response svc tagOrName body :: ms) = relays ms + 1 := by
  simp [relays, SubMsg.isRegi]

/-- What is left of the answers once the fourth send, which is repeated while it is
interrupted, has its own in front. -/
def settled (answers : List (Option Errno)) : List (Option Errno) :=
  (answers.drop 3).dropWhile (· == some .EINTR)

/-- The answers let so many messages through: of the four sends for each none is refused. -/
def Taken : Nat → List (Option Errno) → Prop
  | 0, _ => True
  | n + 1, answers =>
      (∀ r ∈ answers.take 3, r = none) ∧ (settled answers).headD none = none ∧
        Taken n (settled answers).tail

/-- The thread with other answers ahead of its dealer. -/
def BrokerThread.withAnswers (t : BrokerThread) (answers : List (Option Errno)) : BrokerThread :=
  { t with zmqDealerOut := { t.zmqDealerOut with results := answers } }

/-- `handle`, with the answers used up. -/
def handleAnswered (time : Nat → Time) (t : BrokerThread) (m : SubMsg) : BrokerThread :=
  match m with
  | .regi _ => handle time t m
  | .relayed .. => (handle time t m).withAnswers (settled t.zmqDealerOut.results).tail

/-- The answers do not matter for what is done with a message. -/
theorem foldl_handleAnswered (time : Nat → Time) : ∀ (ms : List SubMsg) (t : BrokerThread)
    (answers : List (Option Errno)), ∃ left,
      ms.foldl (handleAnswered time) (t.withAnswers answers)
        = (ms.foldl (handle time) t).withAnswers left := by
  intro ms
  induction ms with
  | nil => intro t answers; exact ⟨answers, rfl⟩
  | cons m ms ih =>
      intro t answers
      cases m with
      | regi svcRegi => exact ih (handle time t (.regi svcRegi)) answers
      | relayed response svc tagOrName body =>
          exact ih (handle time t (.relayed response svc tagOrName body)) (settled answers).tail

section Relay

variable {t : BrokerThread} {svc tagOrName body : Frame}

/-- The last frame of a message goes when the answer behind the interruptions is no refusal. -/
theorem relaySndMore_taken (sent : List Part) {answers : List (Option Errno)}
    (h : (answers.dropWhile (· == some .EINTR)).headD none = none)
    (hbody : body.length ≤ maxBuffSize) (q : List Part) (more : Bool) :
    relaySndMore ⟨⟨body, false⟩ :: q, more⟩ ⟨.pipe, sent, answers⟩ none
      = ⟨none, ⟨q, false⟩, ⟨.pipe, sent ++ [⟨body, false⟩],
          (answers.dropWhile (· == some .EINTR)).tail⟩, none⟩ := by
  have hsend : Out.send ⟨.pipe, sent, answers.dropWhile (· == some .EINTR)⟩ body false
      = (.ok body.length, ⟨.pipe, sent ++ [⟨body, false⟩],
          (answers.dropWhile (· == some .EINTR)).tail⟩) := by
    simp only [Out.send, Out.verdict, h]
  rw [relaySndMore, relayParts, buffered_eq hbody, sendRetry_pipe, hsend]
  rfl

/-- And is gone from the subscriber when it is. -/
theorem relaySndMore_notTaken (body : Frame) (sent : List Part) {answers : List (Option Errno)}
    (h : (answers.dropWhile (· == some .EINTR)).headD none ≠ none) (q : List Part) (more : Bool) :
    (relaySndMore ⟨⟨body, false⟩ :: q, more⟩ ⟨.pipe, sent, answers⟩ none).src.queue = q ∧
      (relaySndMore ⟨⟨body, false⟩ :: q, more⟩ ⟨.pipe, sent, answers⟩ none).dst.sent = sent := by
  obtain ⟨e, he⟩ := Option.ne_none_iff_exists'.mp h
  have hsend : Out.send ⟨.pipe, sent, answers.dropWhile (· == some .EINTR)⟩ (buffered body) false
      = (.error e, ⟨.pipe, sent, (answers.dropWhile (· == some .EINTR)).tail⟩) := by
    simp only [Out.send, Out.verdict, he]
  rw [relaySndMore, relayParts, sendRetry_pipe, hsend]
  exact ⟨rfl, rfl⟩

theorem relayToBroker_taken (hkind : t.zmqDealerOut.kind = .pipe)
    (htaken : Taken 1 t.zmqDealerOut.results) (hsvc : svc.length < 128)
    (hbody : body.length ≤ maxBuffSize) {ms : List Msg}
    (hin : t.zmqSub = ⟨parts [svc, tagOrName, body] ++ stream ms, true⟩) (msgType : Str) :
    relayToBroker t msgType
      = { t with
          zmqSub := In.holding ms
          zmqDealerOut := ⟨t.zmqDealerOut.kind, t.zmqDealerOut.sent ++ parts
            [msgType, cstr svc, (MqTag.zero.recv tagOrName).mem, body],
            (settled t.zmqDealerOut.results).tail⟩ } := by
  obtain ⟨hhead, hlast, -⟩ := htaken
  have hsend := sendWhile_pipe [msgType, cstr svc, (MqTag.zero.recv tagOrName).mem] hkind hhead
  have hrelay := relaySndMore_taken (t.zmqDealerOut.sent ++
    [msgType, cstr svc, (MqTag.zero.recv tagOrName).mem].map (⟨·, true⟩)) hlast hbody (stream ms)
    true
  unfold relayToBroker
  rw [hin]
  simp only [parts_cons_cons, parts_singleton, List.cons_append, List.nil_append, recv_cons,
    Buf.str_recv_zero hsvc, hsend]
  rw [hkind, List.length_cons, List.length_cons, List.length_singleton, hrelay]
  simp [In.holding, settled]

/-- When a send is refused no message is completed, and the body is left at most. -/
theorem relayToBroker_refused (hkind : t.zmqDealerOut.kind = .pipe)
    (hrefused : ¬ Taken 1 t.zmqDealerOut.results) {q : List Part}
    (hin : t.zmqSub = ⟨parts [svc, tagOrName, body] ++ q, true⟩) (msgType : Str) :
    lasts (relayToBroker t msgType).zmqDealerOut.sent = lasts t.zmqDealerOut.sent ∧
      (relayToBroker t msgType).zmqSub.queue.tail <:+ q := by
  unfold relayToBroker
  rw [hin]
  simp only [parts_cons_cons, parts_singleton, List.cons_append, List.nil_append, recv_cons]
  set head : Msg := [msgType, ((Buf.zero 128).recv svc).str, (MqTag.zero.recv tagOrName).mem]
  by_cases hhead : ∀ r ∈ t.zmqDealerOut.results.take 3, r = none
  · have hlast : (settled t.zmqDealerOut.results).headD none ≠ none := fun h =>
      hrefused ⟨hhead, h, trivial⟩
    obtain ⟨hqueue, hsent⟩ := relaySndMore_notTaken body
      (t.zmqDealerOut.sent ++ head.map (⟨·, true⟩)) hlast q true
    have hsend := sendWhile_pipe head hkind hhead
    rw [hkind] at hsend
    simp only [hsend]
    refine ⟨?_, ?_⟩
    · show lasts (relaySndMore _ _ _).dst.sent = _
      rw [show head.length = 3 from rfl, hsent, lasts_append, lasts_begun, List.append_nil]
    · show (relaySndMore _ _ _).src.queue.tail <:+ q
      rw [show head.length = 3 from rfl, hqueue]
      exact List.tail_suffix q
  · have hfalse := sendWhile_pipe_refused head hkind hhead
    obtain ⟨k, hk⟩ := sendWhile_sent (fun _ => true) head t.zmqDealerOut
    rcases hs : t.zmqDealerOut.sendWhile (fun _ => true) head with ⟨_ | _, o⟩
    · rw [hs] at hk
      refine ⟨?_, List.suffix_refl _⟩
      show lasts o.sent = _
      rw [hk, lasts_append, lasts_begun, List.append_nil]
    · rw [hs] at hfalse
      exact absurd hfalse (by simp)

/-- A message is completed with the end of another only, which is gone then. -/
theorem relayToBroker_lasts (t : BrokerThread) (msgType : Str) :
    ∃ front, t.zmqSub.queue = front ++ (relayToBroker t msgType).zmqSub.queue ∧
      (lasts (relayToBroker t msgType).zmqDealerOut.sent = lasts t.zmqDealerOut.sent ∨
        (lasts (relayToBroker t msgType).zmqDealerOut.sent).length
            = (lasts t.zmqDealerOut.sent).length + 1 ∧
          ∃ x ∈ front, x.more = false) := by
  obtain ⟨id, root, din, dout, pub, ⟨q, more⟩, ticks⟩ := t
  cases q with
  | nil => exact ⟨[], rfl, Or.inl rfl⟩
  | cons f q =>
      cases q with
      | nil => exact ⟨[f], rfl, Or.inl rfl⟩
      | cons g q =>
          unfold relayToBroker
          simp only [recv_cons]
          set head : Msg := [msgType, ((Buf.zero 128).recv f.bytes).str,
            (MqTag.zero.recv g.bytes).mem]
          obtain ⟨k, hk⟩ := sendWhile_sent (fun _ => true) head dout
          rcases hs : dout.sendWhile (fun _ => true) head with ⟨_ | _, o⟩
          · rw [hs] at hk
            refine ⟨[f, g], rfl, Or.inl ?_⟩
            show lasts o.sent = _
            rw [hk, lasts_append, lasts_begun, List.append_nil]
          · rw [hs] at hk
            have hlasts : lasts o.sent = lasts dout.sent := by
              rw [hk, lasts_append, lasts_begun, List.append_nil]
            obtain ⟨front, hq, hrest⟩ := relayParts_lasts q g.more o none
            rw [hlasts] at hrest
            refine ⟨f :: g :: front, ?_, ?_⟩
            · exact congrArg (fun rest => f :: g :: rest) hq
            · exact hrest.imp_right fun ⟨hlen, x, hx, hlast⟩ =>
                ⟨hlen, x, List.mem_cons_of_mem _ (List.mem_cons_of_mem _ hx), hlast⟩

end Relay

/-- A part that is read as the type of a message to relay. -/
def relayType (p : Part) : Bool :=
  ((Buf.zero 128).recv p.bytes).str == mqReqInterhub ||
    ((Buf.zero 128).recv p.bytes).str == mqResInterhub

/-- Only what is relayed has such a part. -/
theorem marked_relayType_le (id : Str) : ∀ {ms : List SubMsg},
    (∀ m ∈ ms, m.Fits) →
      marked relayType false (stream (ms.map (SubMsg.frames id))) ≤ relays ms := by
  intro ms
  induction ms with
  | nil => intro _; exact Nat.le_refl _
  | cons m ms ih =>
      intro hfits
      have hms := ih fun x hx => hfits x (by simp [hx])
      have hm := hfits m (by simp)
      rw [List.map_cons, stream_cons]
      cases m with
      | regi svcRegi =>
          have hnone : ∀ x ∈ parts (SubMsg.frames id (.regi svcRegi)), relayType x = false := by
            intro x hx
            simp only [SubMsg.frames, parts_cons_cons, parts_singleton, List.mem_cons,
              List.not_mem_nil, or_false] at hx
            rcases hx with rfl | rfl
            · have hty : ((Buf.zero 128).recv mqReg).str = mqReg :=
                (Buf.str_recv_zero (by decide)).trans (by decide)
              have hreq : mqReg ≠ mqReqInterhub := by decide
              have hres : mqReg ≠ mqResInterhub := by decide
              simp [relayType, hty, hreq, hres]
            · obtain ⟨hreq, hres⟩ := regi_not_type hm
              simp [relayType, hreq, hres]
          rw [marked_parts_none hnone, relays_regi]
          exact hms
      | relayed response svc tagOrName body =>
          have hle := marked_parts_le (p := relayType)
            (m := SubMsg.frames id (.relayed response svc tagOrName body)) (by simp [SubMsg.frames])
            (stream (ms.map (SubMsg.frames id)))
          rw [relays_relayed]
          omega

/-- A relay completes a message at the cost of the type `p` in front of it, and of the end of the
message that type is from. -/
theorem relayToBroker_marked (t : BrokerThread) {p : Part} (hp : relayType p = true)
    (msgType : Str) :
    (lasts (relayToBroker t msgType).zmqDealerOut.sent).length
        + marked relayType false (relayToBroker t msgType).zmqSub.queue.tail
      ≤ (lasts t.zmqDealerOut.sent).length + marked relayType false (p :: t.zmqSub.queue) := by
  obtain ⟨front, hq, hlasts⟩ := relayToBroker_lasts t msgType
  have htail : marked relayType false (relayToBroker t msgType).zmqSub.queue.tail
      ≤ marked relayType false (relayToBroker t msgType).zmqSub.queue :=
    marked_suffix (List.tail_suffix _)
  rcases hlasts with hsame | ⟨hone, x, hx, hlast⟩
  · have hbehind : marked relayType false (relayToBroker t msgType).zmqSub.queue
        ≤ marked relayType false (p :: t.zmqSub.queue) := by
      refine marked_suffix ?_
      conv_rhs => rw [hq]
      exact (List.suffix_append _ _).trans (List.suffix_cons _ _)
    rw [hsame]
    exact Nat.add_le_add_left (htail.trans hbehind) _
  · have hless := marked_taken hp ⟨x, List.mem_cons_of_mem _ hx, hlast⟩
      (relayToBroker t msgType).zmqSub.queue
    rw [List.cons_append, ← hq] at hless
    omega

/-- **What an iteration completes it completes with such a type behind the topic**, and the end of
the message the type is from. -/
theorem brokerSubIter_marked (time : Nat → Time) {s s' : BrokerThread × Buf 1024}
    (h : brokerSubIter time s = some s') :
    (lasts s'.1.zmqDealerOut.sent).length + marked relayType false s'.1.zmqSub.queue.tail
      ≤ (lasts s.1.zmqDealerOut.sent).length + marked relayType false s.1.zmqSub.queue.tail := by
  obtain ⟨⟨id, root, din, dout, pub, ⟨q, more⟩, ticks⟩, b⟩ := s
  cases q with
  | nil => simp [brokerSubIter] at h
  | cons topic q =>
      simp only [brokerSubIter, recv_cons, Option.some.injEq] at h
      subst h
      cases q with
      | nil => exact Nat.le_refl _
      | cons p q =>
          set t1 : BrokerThread := ⟨id, root, din, dout, pub, ⟨q, p.more⟩, ticks⟩ with ht1
          have htail : marked relayType false q.tail ≤ marked relayType false (p :: q) :=
            marked_suffix ((List.tail_suffix q).trans (List.suffix_cons p q))
          have hsame : (lasts dout.sent).length + marked relayType false q.tail
              ≤ (lasts dout.sent).length + marked relayType false (p :: q) :=
            Nat.add_le_add_left htail _
          show (lasts (brokerSubBody time ⟨id, root, din, dout, pub, ⟨p :: q, topic.more⟩, ticks⟩
            (b.recv topic.bytes).str).zmqDealerOut.sent).length + marked relayType false
            (brokerSubBody time ⟨id, root, din, dout, pub, ⟨p :: q, topic.more⟩, ticks⟩
              (b.recv topic.bytes).str).zmqSub.queue.tail ≤ _
          simp only [brokerSubBody, recv_cons]
          by_cases hregi : (b.recv topic.bytes).str = mqReg
          · simp only [if_pos hregi]
            exact hsame
          · simp only [if_neg hregi]
            by_cases hreq : ((Buf.zero 128).recv p.bytes).str = mqReqInterhub
            · simp only [if_pos hreq]
              exact relayToBroker_marked t1 (by simp [relayType, hreq]) mqReq
            · simp only [if_neg hreq]
              by_cases hres : ((Buf.zero 128).recv p.bytes).str = mqResInterhub
              · simp only [if_pos hres]
                exact relayToBroker_marked t1 (by simp [relayType, hres]) mqRes
              · simp only [if_neg hres]
                exact hsame

/-- So a run completes no more messages than are marked behind the topic it begins with. -/
theorem lasts_run_le (time : Nat → Time) : ∀ (fuel : Nat) (s : BrokerThread × Buf 1024),
    (lasts (whileSome (brokerSubIter time) fuel s).1.zmqDealerOut.sent).length
      ≤ (lasts s.1.zmqDealerOut.sent).length + marked relayType false s.1.zmqSub.queue.tail := by
  intro fuel
  induction fuel with
  | zero => intro s; exact Nat.le_add_right _ _
  | succ fuel ih =>
      intro s
      cases hiter : brokerSubIter time s with
      | none =>
          rw [whileSome_none hiter]
          exact Nat.le_add_right _ _
      | some s' =>
          rw [whileSome_some hiter]
          exact Nat.le_trans (ih s') (brokerSubIter_marked time hiter)

theorem handles_answered (time : Nat → Time) : SubHandles time (handleAnswered time) fun t ms =>
    t.zmqDealerOut.kind = .pipe ∧ Taken (relays ms) t.zmqDealerOut.results where
  id t m := by cases m <;> rfl
  regi _ _ := rfl
  relay := by
    intro t response svc tagOrName body ms hgo hfits q
    rw [relays_relayed] at hgo
    obtain ⟨hkind, hhead, hlast, -⟩ := hgo
    set t1 : BrokerThread := { t with zmqSub := ⟨parts [svc, tagOrName, body] ++ stream q, true⟩ }
    exact relayToBroker_taken (t := t1) hkind ⟨hhead, hlast, trivial⟩ hfits.1 hfits.2.2 rfl _
  go := by
    intro t m ms hgo
    cases m with
    | regi svcRegi =>
        rw [relays_regi] at hgo
        exact hgo
    | relayed response svc tagOrName body =>
        rw [relays_relayed] at hgo
        exact ⟨hgo.1, hgo.2.2.2⟩
  missed h := by
    rw [relays_regi] at h
    exact h
  first := by
    intro t m ms hgo
    cases m with
    | regi svcRegi => exact ⟨hgo.1, trivial⟩
    | relayed response svc tagOrName body =>
        rw [relays_relayed] at hgo
        exact ⟨hgo.1, hgo.2.1, hgo.2.2.1, trivial⟩

/-- Behind a message that is refused no other is completed in its place. -/
theorem lasts_refused_le (time : Nat → Time) {t : BrokerThread}
    (hkind : t.zmqDealerOut.kind = .pipe) (hrefused : ¬ Taken 1 t.zmqDealerOut.results)
    {svc tagOrName body : Frame} {ms : List SubMsg} (hms : ∀ m ∈ ms, m.Fits) {id : Str}
    (hin : t.zmqSub = ⟨parts [svc, tagOrName, body] ++ stream (ms.map (SubMsg.frames id)), true⟩)
    (msgType : Str) (fuel : Nat) (b : Buf 1024) :
    (lasts (whileSome (brokerSubIter time) fuel
        (relayToBroker t msgType, b)).1.zmqDealerOut.sent).length
      ≤ (lasts t.zmqDealerOut.sent).length + relays ms := by
  obtain ⟨hsame, htail⟩ := relayToBroker_refused hkind hrefused hin msgType
  have hrun := lasts_run_le time fuel (relayToBroker t msgType, b)
  have hmarked := Nat.le_trans (marked_suffix (p := relayType) htail) (marked_relayType_le id hms)
  simp only [hsame] at hrun
  omega

/-- **When every message that is relayed is completed, none was refused.** -/
theorem taken_of_lasts (time : Nat → Time) : ∀ (ms : List SubMsg) {t : BrokerThread}
    {b : Buf 1024} {stale : Bool} {fuel : Nat}, ms.length ≤ fuel → IsBrokerId t.brokerId →
    t.zmqDealerOut.kind = .pipe → (∀ m ∈ ms, m.Fits) → (Stale b ↔ stale = true) →
    (lasts t.zmqDealerOut.sent).length + relays ms
      ≤ (lasts (whileSome (brokerSubIter time) fuel
          (subWaiting t ms, b)).1.zmqDealerOut.sent).length →
    Taken (relays ms) t.zmqDealerOut.results := by
  intro ms
  induction ms with
  | nil => intro t b stale fuel _ _ _ _ _ _; trivial
  | cons m ms ih =>
      intro t b stale fuel hfuel hid hkind hfits hb hlasts
      obtain ⟨fuel, rfl⟩ : ∃ k, fuel = k + 1 := ⟨fuel - 1, by simp at hfuel; omega⟩
      have hlen : ms.length ≤ fuel := by
        simp at hfuel
        omega
      have hms : ∀ x ∈ ms, x.Fits := fun x hx => hfits x (by simp [hx])
      cases m with
      | regi svcRegi =>
          obtain ⟨b', hiter, hb'⟩ :=
            brokerSubIter_regi time t (hfits (.regi svcRegi) (by simp)) ms hb
          rw [whileSome_some hiter, relays_regi] at hlasts
          rw [relays_regi]
          by_cases hrec : recognised stale (.regi svcRegi) = true
          · rw [if_pos hrec] at hlasts
            exact ih (t := handle time t (.regi svcRegi)) hlen hid hkind hms hb' hlasts
          · rw [if_neg hrec] at hlasts
            exact ih hlen hid hkind hms hb' hlasts
      | relayed response svc tagOrName body =>
          obtain ⟨b', hiter, hb'⟩ :=
            brokerSubIter_relayed time hid response svc tagOrName body ms hb
          obtain ⟨hsvc, -, hbody⟩ : (SubMsg.relayed response svc tagOrName body).Fits :=
            hfits _ (by simp)
          rw [whileSome_some hiter, relays_relayed] at hlasts
          rw [relays_relayed]
          set ty : Str := if response then mqRes else mqReq
          set q := stream (ms.map (SubMsg.frames t.brokerId)) with hq
          set t1 : BrokerThread := { t with zmqSub := ⟨parts [svc, tagOrName, body] ++ q, true⟩ }
          by_cases htaken : Taken 1 t.zmqDealerOut.results
          · have hrelay := relayToBroker_taken (t := t1) hkind htaken hsvc hbody rfl ty
            rw [hrelay] at hlasts
            set t2 := handleAnswered time t (.relayed response svc tagOrName body) with ht2
            have hsent : (lasts t2.zmqDealerOut.sent).length
                = (lasts t.zmqDealerOut.sent).length + 1 := by
              show (lasts (t.zmqDealerOut.sent ++ parts ([ty, cstr svc,
                (MqTag.zero.recv tagOrName).mem] ++ [body]))).length = _
              rw [lasts_append, lasts_parts, List.length_append]
              rfl
            have hrest : Taken (relays ms) t2.zmqDealerOut.results := by
              refine ih (t := t2) hlen hid hkind hms hb' ?_
              rw [hsent, Nat.add_right_comm, Nat.add_assoc]
              exact hlasts
            exact ⟨htaken.1, htaken.2.1, hrest⟩
          · -- the message is not completed, and no other is in its place
            have hrun := lasts_refused_le time (t := t1) hkind htaken hms rfl ty fuel b'
            have hsent : (lasts t1.zmqDealerOut.sent).length = (lasts t.zmqDealerOut.sent).length :=
              rfl
            omega

/-! ### Independence -/

/-- The messages one after the other, each in a run of the callback of its own. -/
def oneByOne (time : Nat → Time) (t : BrokerThread) (ms : List SubMsg) : BrokerThread :=
  ms.foldl (fun t m => brokerSubCallback time (subWaiting t [m])) (subWaiting t [])

theorem SubHandles.oneByOne {time : Nat → Time} {next : BrokerThread → SubMsg → BrokerThread}
    {Go : BrokerThread → List SubMsg → Prop} (h : SubHandles time next Go) :
    ∀ {ms : List SubMsg} {t : BrokerThread}, IsBrokerId t.brokerId → Go t ms →
      (∀ m ∈ ms, m.Fits) → oneByOne time t ms = subWaiting (ms.foldl next t) [] := by
  intro ms
  induction ms with
  | nil => intro t _ _ _; rfl
  | cons m ms ih =>
      intro t hid hgo hfits
      have halone := h.alone hid (h.first hgo) (hfits m (by simp))
      have hrest := ih (t := next t m) (by rw [h.id]; exact hid) (h.go hgo)
        fun x hx => hfits x (by simp [hx])
      rw [List.foldl_cons, ← hrest, Hub.oneByOne, Hub.oneByOne, List.foldl_cons]
      show (ms.foldl _ (brokerSubCallback time (subWaiting t [m]))) = _
      rw [halone]

/-- The callback handles the messages independently: it does with the queue what they are
for, one after the other, using up some answers of the dealer, and so what a run for each of
them would do. -/
structure SubIndependent (time : Nat → Time) (t : BrokerThread) (ms : List SubMsg) : Prop where
  handled : ∃ answers, brokerSubCallback time (subWaiting t ms)
    = (subWaiting (ms.foldl (handle time) t) []).withAnswers answers
  alone : brokerSubCallback time (subWaiting t ms) = oneByOne time t ms

/-- Each relayed message is sent as one. -/
theorem lasts_foldl_handle (time : Nat → Time) : ∀ (ms : List SubMsg) (t : BrokerThread),
    (lasts (ms.foldl (handle time) t).zmqDealerOut.sent).length
      = (lasts t.zmqDealerOut.sent).length + relays ms := by
  intro ms
  induction ms with
  | nil => intro t; rfl
  | cons m ms ih =>
      intro t
      rw [List.foldl_cons, ih]
      cases m with
      | regi svcRegi =>
          rw [relays_regi]
          rfl
      | relayed response svc tagOrName body =>
          have hone := lasts_parts [if response then mqRes else mqReq, cstr svc,
            (MqTag.zero.recv tagOrName).mem] body
          rw [relays_relayed]
          show (lasts (t.zmqDealerOut.sent ++ parts ([if response then mqRes else mqReq, cstr svc,
            (MqTag.zero.recv tagOrName).mem] ++ [body]))).length + _ = _
          rw [lasts_append, hone, List.length_append, List.length_singleton]
          omega

/-- **The messages of the subscriber are handled independently exactly when no registration
comes after a relayed message,** or the id of the broker is no longer than `svc_reg`, **and the
dealer refuses none of the sends for the relayed ones.** -/
theorem brokerSub_independent_iff {time : Nat → Time} {t : BrokerThread}
    (hid : IsBrokerId t.brokerId) (hkind : t.zmqDealerOut.kind = .pipe) {ms : List SubMsg}
    (hfits : ∀ m ∈ ms, m.Fits) :
    SubIndependent time t ms ↔
      (t.brokerId.length ≤ 7 ∨ ms.Pairwise fun m n => m.isRegi = false → n.isRegi = false) ∧
        Taken (relays ms) t.zmqDealerOut.results := by
  have hanswered := handles_answered time
  constructor
  · intro h
    obtain ⟨answers, hhandled⟩ := h.handled
    have htaken : Taken (relays ms) t.zmqDealerOut.results := by
      have hzero : Stale (Buf.zero 1024) ↔ false = true :=
        iff_of_false not_stale_zero Bool.false_ne_true
      refine taken_of_lasts time ms (length_le_subWaiting t ms) hid hkind hfits hzero
        (Nat.le_of_eq ?_)
      have hsent := congrArg (fun u => (lasts u.zmqDealerOut.sent).length) hhandled
      exact ((lasts_foldl_handle time ms t).symm.trans hsent.symm)
    refine ⟨?_, htaken⟩
    have hrun := hanswered.callback hid ⟨hkind, htaken⟩ hfits
    obtain ⟨left, hleft⟩ := foldl_handleAnswered time (heard t.brokerId false ms) t
      t.zmqDealerOut.results
    have hticks := congrArg BrokerThread.ticks (hrun.symm.trans hhandled)
    have hfold : ((heard t.brokerId false ms).foldl (handleAnswered time) t).ticks
        = ((heard t.brokerId false ms).foldl (handle time) t).ticks := by
      have heq := congrArg BrokerThread.ticks hleft
      exact heq
    have hcount : (heard t.brokerId false ms).countP SubMsg.isRegi = ms.countP SubMsg.isRegi := by
      have heq : ((heard t.brokerId false ms).foldl (handleAnswered time) t).ticks
          = (ms.foldl (handle time) t).ticks := hticks
      rw [hfold, foldl_handle_ticks, foldl_handle_ticks] at heq
      omega
    exact (allHeard_of_count hcount).order
  · rintro ⟨horder, htaken⟩
    have hheard : heard t.brokerId false ms = ms := heard_eq ⟨by simp, horder⟩
    have hrun := hanswered.callback hid ⟨hkind, htaken⟩ hfits
    rw [hheard] at hrun
    obtain ⟨left, hleft⟩ := foldl_handleAnswered time ms t t.zmqDealerOut.results
    refine ⟨⟨left, ?_⟩, ?_⟩
    · rw [hrun]
      exact congrArg (fun u => subWaiting u []) hleft
    · rw [hrun, hanswered.oneByOne hid ⟨hkind, htaken⟩ hfits]

section Psib

/-- The thread of the broker on 10.0.0.1. -/
def threadSub : BrokerThread where
  brokerId := lit "10.0.0.1_broker_7"
  rootNode := ⟨⟨.interhub, [], [], 0⟩, []⟩
  zmqDealerIn := In.holding []
  zmqDealerOut := ⟨.pipe, [], []⟩
  zmqPub := ⟨.pub, [], []⟩
  zmqSub := In.holding []
  ticks := 0

/-- The registration of `PSIB` at the broker on 10.0.0.2. -/
def regiPsib : SubMsg :=
  .regi (((MqRegi.zero.setBrokerHost (lit "10.0.0.2")).setBrokerName (lit "broker_9")).setTagSvc
    (lit "PSIB"))

def relayedPsib : SubMsg := .relayed false (lit "PSIB") MqTag.zero.mem (lit "hi")

/-- The dealer refuses a send for the second message. -/
def answersPsib : List (Option Errno) := [none, none, none, some .EINTR, none, some .EAGAIN]

theorem regiPsib_fits : regiPsib.Fits := ⟨49, lit "0.0.0.2", by decide +kernel, by decide⟩

theorem relayedPsib_fits : relayedPsib.Fits := ⟨by decide, by decide, by decide⟩

theorem threadSub_id : IsBrokerId threadSub.brokerId :=
  ⟨by decide, by decide, lit "10.0.0.1", lit "broker_7", ⟨49, lit "0.0.0.1", by decide, by decide⟩,
    by decide⟩

theorem fitsPsib {ms : List SubMsg} (h : ∀ m ∈ ms, m = regiPsib ∨ m = relayedPsib) :
    ∀ m ∈ ms, m.Fits := by
  intro m hm
  rcases h m hm with rfl | rfl
  · exact regiPsib_fits
  · exact relayedPsib_fits

/-- Registrations first, and the last send for the relayed message is interrupted once. -/
theorem brokerSub_independent_psib :
    SubIndependent (fun _ => 0) (threadSub.withAnswers answersPsib)
      [regiPsib, regiPsib, relayedPsib] := by
  refine (brokerSub_independent_iff (t := threadSub.withAnswers answersPsib) threadSub_id rfl
    (fitsPsib fun m hm => ?_)).mpr ⟨?_, ?_⟩
  · simp only [List.mem_cons, List.not_mem_nil, or_false] at hm
    rcases hm with rfl | rfl | rfl
    · exact Or.inl rfl
    · exact Or.inl rfl
    · exact Or.inr rfl
  · simp [regiPsib, relayedPsib, SubMsg.isRegi]
  · exact ⟨by decide, by decide, trivial⟩

/-- The thread of a broker with an id of seven characters, whose dealer refuses a send. -/
def threadShort : BrokerThread :=
  { threadSub with brokerId := lit "::1_b_7", zmqDealerOut := ⟨.pipe, [], [some .EAGAIN]⟩ }

/-- The registration behind a relayed message is dropped, and the small tree stays empty: behind
a longer id, and behind a message that the dealer refuses. -/
theorem brokerSub_regi_lost :
    brokerSubCallback (fun _ => 0) (subWaiting threadSub [relayedPsib, regiPsib])
        ≠ oneByOne (fun _ => 0) threadSub [relayedPsib, regiPsib] ∧
      brokerSubCallback (fun _ => 0) (subWaiting threadShort [relayedPsib, regiPsib])
        ≠ oneByOne (fun _ => 0) threadShort [relayedPsib, regiPsib] := by
  refine ⟨fun h => ?_, fun h => ?_⟩
  · have hlen := congrArg (fun t => t.rootNode.children.length) h
    revert hlen
    decide +kernel
  · have hlen := congrArg (fun t => t.rootNode.children.length) h
    revert hlen
    decide +kernel

end Psib

end Brocoli.Hub
