/-
How a hub thread reads its dealer.

`interhub_callback` compares what it received as a string, in a buffer it uses for every
message.  A type is read as it was sent when the byte behind it is zero, and after a
`svc_res_interhub`, the one long type, that is no longer so.  A type that is not recognised
leaves the rest of its message to be read as types, and so does a request for a service no
other broker has.  Without these two the messages are handled one by one, and the thread
publishes what each of them alone would have it publish.
-/
import Brocoli.HubThread

namespace Brocoli.Hub

open CMem Multipart NTree Runs

/-! ### Well-formed messages -/

/-- The messages a broker's router can send to the dealer. -/
inductive DealerMsg where
  | req (svc : Frame) (tag : MqTag) (body : Frame)
  | resInterhub (broker svc name body : Frame)
  | log (text : Frame)

namespace DealerMsg

def type : DealerMsg → Str
  | req .. => mqReq
  | resInterhub .. => mqResInterhub
  | log _ => mqLog

/-- The frames behind the type. -/
def rest : DealerMsg → Msg
  | req svc tag body => [svc, tag.mem, body]
  | resInterhub broker svc name body => [broker, svc, name, body]
  | log text => [text]

def frames (m : DealerMsg) : Msg := m.type :: m.rest

/-- Every frame fits the buffer it is read into, with its NUL where it is read as a
string. -/
def Fits : DealerMsg → Prop
  | req svc _ body => svc.length < 128 ∧ body.length ≤ maxBuffSize
  | resInterhub broker svc name body => broker.length < 128 ∧ Relayable [svc, name, body]
  | log text => text.length < maxLogSize

def isLong : DealerMsg → Bool
  | resInterhub .. => true
  | _ => false

theorem rest_ne_nil (m : DealerMsg) : m.rest ≠ [] := by
  cases m <;> simp [rest]

end DealerMsg

/-- The service of a request is one another broker has. -/
def Known (t : BrokerThread) : DealerMsg → Prop
  | .req svc _ _ => (findSvcExistTree t (cstr svc)).isSome = true
  | _ => True

/-- What the thread publishes for a message. -/
def answer (t : BrokerThread) : DealerMsg → List Msg
  | .req svc tag body =>
      match findSvcExistTree t (cstr svc) with
      | some id => [[id, mqReqInterhub, cstr svc, (tag.setBroker t.brokerId).mem, body]]
      | none => []
  | .resInterhub broker svc name body => [[cstr broker, mqResInterhub, svc, name, body]]
  | .log _ => []

/-! ### The type buffer -/

/-- What is behind the first seven bytes: nothing, or the rest of a `svc_res_interhub`. -/
structure TypeBuf (long : Bool) (b : Buf 128) : Prop where
  behind : cstr (b.mem.drop 16) = []
  short : cstr (b.mem.drop 7) = if long then lit "_interhub" else []

theorem typeBuf_zero : TypeBuf false (Buf.zero 128) := ⟨by decide, by decide⟩

/-- A short type, as it is read, and the buffer it leaves. -/
theorem typeBuf_short {long : Bool} {b : Buf 128} (h : TypeBuf long b) (ty : Str)
    (hlen : ty.length = 7) (h0 : (0 : Byte) ∉ ty) :
    (b.recv ty).str = ty ++ (if long then lit "_interhub" else []) ∧ TypeBuf long (b.recv ty) := by
  have hsize := b.size
  refine ⟨?_, ?_, ?_⟩
  · rw [Buf.str_recv_stale b (by omega) h0, hlen, h.short]
  · show cstr ((store b.mem 0 ty).drop 16) = []
    rw [drop_store (by omega) (by omega)]
    exact h.behind
  · show cstr ((store b.mem 0 ty).drop 7) = _
    rw [drop_store (by omega) (by omega)]
    exact h.short

/-- The long type. -/
theorem typeBuf_long {long : Bool} {b : Buf 128} (h : TypeBuf long b) :
    (b.recv mqResInterhub).str = mqResInterhub ∧ TypeBuf true (b.recv mqResInterhub) := by
  have hlen : mqResInterhub.length = 16 := by decide
  have hsize := b.size
  have hmem : (b.recv mqResInterhub).mem = mqResInterhub ++ b.mem.drop 16 := by
    show store b.mem 0 mqResInterhub = _
    rw [store_front (by omega), hlen]
  refine ⟨?_, ?_, ?_⟩
  · rw [Buf.str_recv_stale b (by omega) (by decide), hlen, h.behind, List.append_nil]
  · rw [hmem, ← hlen, List.drop_left, hlen]
    exact h.behind
  · have hdrop : mqResInterhub.drop 7 = lit "_interhub" := by decide
    rw [hmem, List.drop_append_of_le_length (by omega), hdrop,
      cstr_append_of_notMem (by decide), h.behind]
    rfl

/-! ### One message -/

section Message

variable {t : BrokerThread} {ms : List Msg}

/-- A request for a service another broker has is published under that broker's id. -/
theorem findSvcAndRelay_known (hpub : t.zmqPub.kind = .pub) {svc : Frame} {tag : MqTag}
    {body : Frame} (hsvc : svc.length < 128) (hbody : body.length ≤ maxBuffSize)
    (hin : t.zmqDealerIn = ⟨parts [svc, tag.mem, body] ++ stream ms, true⟩) {id : Str}
    (hid : findSvcExistTree t (cstr svc) = some id) :
    findSvcAndRelay t
      = { t with
          zmqDealerIn := In.holding ms
          zmqPub := t.zmqPub.put (parts
            [id, mqReqInterhub, cstr svc, (tag.setBroker t.brokerId).mem, body]) } := by
  have hlen : Relayable [body] := by
    intro f hf
    obtain rfl := List.mem_singleton.mp hf
    exact hbody
  obtain ⟨hsend, hrelay⟩ := sendWhile_relay (steady_pub hpub)
    [id, mqReqInterhub, cstr svc, (tag.setBroker t.brokerId).mem] (by simp) hlen (stream ms) true
  unfold findSvcAndRelay
  rw [hin]
  simp only [parts_cons_cons, List.cons_append, recv_cons, Buf.str_recv_zero hsvc, hid,
    MqTag.recv_mem, hsend, hrelay]
  simp [In.holding]

/-- A request for a service no other broker has stops in front of its tag. -/
theorem findSvcAndRelay_unknown {svc : Frame} {rest : Msg} (hrest : rest ≠ [])
    (hsvc : svc.length < 128) (hin : t.zmqDealerIn = ⟨parts (svc :: rest) ++ stream ms, true⟩)
    (hid : findSvcExistTree t (cstr svc) = none) :
    findSvcAndRelay t = { t with zmqDealerIn := ⟨parts rest ++ stream ms, true⟩ } := by
  unfold findSvcAndRelay
  rw [hin, parts_cons hrest]
  simp only [List.cons_append, recv_cons, Buf.str_recv_zero hsvc, hid]

/-- A response is published under the id it names. -/
theorem findBrokerAndRelay_eq (hpub : t.zmqPub.kind = .pub) {broker : Frame} {rest : Msg}
    (hrest : rest ≠ []) (hbroker : broker.length < 128) (hlen : Relayable rest)
    (hin : t.zmqDealerIn = ⟨parts (broker :: rest) ++ stream ms, true⟩) :
    findBrokerAndRelay t
      = { t with
          zmqDealerIn := In.holding ms
          zmqPub := t.zmqPub.put (parts (cstr broker :: mqResInterhub :: rest)) } := by
  obtain ⟨hsend, hrelay⟩ := sendWhile_relay (steady_pub hpub) [cstr broker, mqResInterhub] hrest
    hlen (stream ms) true
  unfold findBrokerAndRelay
  rw [hin, parts_cons hrest]
  simp only [List.cons_append, recv_cons, Buf.str_recv_zero hbroker, hsend, hrelay]
  simp [In.holding]

end Message

/-- The message is read as what it is: its type is not mistaken, and its service is found. -/
def Read (t : BrokerThread) (long : Bool) (m : DealerMsg) : Prop :=
  Known t m ∧ (long = true → m.isLong = true)

/-- What one iteration makes of the thread and the type buffer: a message that is read is
handled, and part of any other is left. -/
structure Handles (t : BrokerThread) (long : Bool) (m : DealerMsg) (ms : List Msg)
    (t' : BrokerThread) (b' : Buf 128) : Prop where
  read : Read t long m → TypeBuf (long || m.isLong) b' ∧
    t' = { t with
      zmqDealerIn := In.holding ms
      zmqPub := t.zmqPub.put (stream (answer t m)) }
  left : ¬ Read t long m → t'.zmqDealerIn ≠ In.holding ms

/-- The thread when the type of a message has been received. -/
def typed (t : BrokerThread) (m : DealerMsg) (ms : List Msg) : BrokerThread :=
  { t with zmqDealerIn := ⟨parts m.rest ++ stream ms, true⟩ }

section Iteration

variable {t : BrokerThread} {b : Buf 128} {ms : List Msg}

/-- A type that is not recognised leaves the rest of the message where it is. -/
theorem interhubBody_lost (t : BrokerThread) (m : DealerMsg) (ms : List Msg) {ty : Str}
    (hreq : ty ≠ mqReq) (hres : ty ≠ mqResInterhub) (hlog : ty ≠ mqLog) :
    (interhubBody (typed t m ms) ty).zmqDealerIn ≠ In.holding ms := by
  rw [interhubBody, if_neg hreq, if_neg hres, if_neg hlog]
  exact ne_holding_of_parts m.rest_ne_nil ms true

/-- A short type behind a long one is not recognised. -/
theorem handles_stale {m : DealerMsg} (hshort : m.isLong = false) {ty : Str}
    (hreq : ty ≠ mqReq) (hres : ty ≠ mqResInterhub) (hlog : ty ≠ mqLog) (b' : Buf 128) :
    Handles t true m ms (interhubBody (typed t m ms) ty) b' where
  read hread := absurd (hread.2 rfl) (by simp [hshort])
  left _ := interhubBody_lost t m ms hreq hres hlog

theorem handles_req (hpub : t.zmqPub.kind = .pub) {long : Bool} (hb : TypeBuf long b)
    {svc : Frame} {tag : MqTag} {body : Frame} (hfits : (DealerMsg.req svc tag body).Fits) :
    Handles t long (.req svc tag body) ms
      (interhubBody (typed t (.req svc tag body) ms) (b.recv mqReq).str) (b.recv mqReq) := by
  obtain ⟨hsvc, hbody⟩ := hfits
  obtain ⟨hstr, hb'⟩ := typeBuf_short hb mqReq (by decide) (by decide)
  rw [hstr]
  cases long with
  | true => exact handles_stale rfl (by decide) (by decide) (by decide) _
  | false =>
      have hreq : mqReq ++ (if false = true then lit "_interhub" else []) = mqReq := by decide
      rw [hreq, interhubBody, if_pos rfl]
      cases hid : findSvcExistTree t (cstr svc) with
      | none =>
          have hunknown : findSvcAndRelay (typed t (.req svc tag body) ms)
              = { t with zmqDealerIn := ⟨parts [tag.mem, body] ++ stream ms, true⟩ } :=
            findSvcAndRelay_unknown (by simp) hsvc rfl hid
          refine ⟨fun hread => absurd hread.1 (by simp [Known, hid]), fun _ => ?_⟩
          rw [hunknown]
          exact ne_holding_of_parts (by simp) ms true
      | some id =>
          have hknown := findSvcAndRelay_known (t := typed t (.req svc tag body) ms) hpub hsvc
            hbody rfl hid
          refine ⟨fun _ => ⟨hb', ?_⟩, fun hn => absurd ⟨by simp [Known, hid], by simp⟩ hn⟩
          rw [hknown]
          simp [answer, hid, typed]

theorem handles_resInterhub (hpub : t.zmqPub.kind = .pub) {long : Bool} (hb : TypeBuf long b)
    {broker svc name body : Frame} (hfits : (DealerMsg.resInterhub broker svc name body).Fits) :
    Handles t long (.resInterhub broker svc name body) ms
      (interhubBody (typed t (.resInterhub broker svc name body) ms) (b.recv mqResInterhub).str)
      (b.recv mqResInterhub) := by
  obtain ⟨hbroker, hlen⟩ := hfits
  obtain ⟨hstr, hb'⟩ := typeBuf_long hb
  have hrelay := findBrokerAndRelay_eq (t := typed t (.resInterhub broker svc name body) ms) hpub
    (by simp) hbroker hlen rfl
  rw [hstr, interhubBody, if_neg (by decide), if_pos rfl, hrelay]
  refine ⟨fun _ => ⟨?_, by simp [answer, typed]⟩, fun hn => absurd ⟨trivial, fun _ => rfl⟩ hn⟩
  rw [DealerMsg.isLong, Bool.or_true]
  exact hb'

theorem handles_log {long : Bool} (hb : TypeBuf long b) (text : Frame) :
    Handles t long (.log text) ms (interhubBody (typed t (.log text) ms) (b.recv mqLog).str)
      (b.recv mqLog) := by
  obtain ⟨hstr, hb'⟩ := typeBuf_short hb mqLog (by decide) (by decide)
  rw [hstr]
  cases long with
  | true => exact handles_stale rfl (by decide) (by decide) (by decide) _
  | false =>
      have hlog : mqLog ++ (if false = true then lit "_interhub" else []) = mqLog := by decide
      refine ⟨fun _ => ⟨hb', ?_⟩, fun hn => absurd ⟨trivial, by simp⟩ hn⟩
      rw [hlog, interhubBody, if_neg (by decide), if_neg (by decide), if_pos rfl]
      simp [typed, DealerMsg.rest, answer, In.holding]

end Iteration

/-- **One iteration handles a message that is read, and leaves part of any other.** -/
theorem interhubIter_message {t : BrokerThread} {b : Buf 128} {long : Bool}
    (hpub : t.zmqPub.kind = .pub) (hb : TypeBuf long b) {m : DealerMsg} (hfits : m.Fits)
    {ms : List Msg} (hin : t.zmqDealerIn = In.holding (m.frames :: ms)) :
    ∃ t' b', interhubIter (t, b) = some (t', b') ∧ Handles t long m ms t' b' := by
  have hrecv : t.zmqDealerIn.recv = some (m.type, ⟨parts m.rest ++ stream ms, true⟩) := by
    rw [hin]
    exact recv_holding_cons m.rest_ne_nil m.type ms
  refine ⟨interhubBody (typed t m ms) (b.recv m.type).str, b.recv m.type,
    by rw [interhubIter, hrecv]; rfl, ?_⟩
  cases m with
  | req svc tag body => exact handles_req hpub hb hfits
  | resInterhub broker svc name body => exact handles_resInterhub hpub hb hfits
  | log text => exact handles_log hb text

/-! ### A run of the callback -/

/-- Every message is read, with `long` saying whether a long type came before: all requests
are for known services, and behind a long type there are only long ones. -/
structure AllReadFrom (t : BrokerThread) (long : Bool) (ms : List DealerMsg) : Prop where
  known : ∀ m ∈ ms, Known t m
  start : long = true → ∀ m ∈ ms, m.isLong = true
  order : ms.Pairwise fun m n => m.isLong = true → n.isLong = true

theorem allReadFrom_cons {t : BrokerThread} {long : Bool} {m : DealerMsg} {ms : List DealerMsg} :
    AllReadFrom t long (m :: ms) ↔ Read t long m ∧ AllReadFrom t (long || m.isLong) ms := by
  constructor
  · intro h
    obtain ⟨hm, horder⟩ := List.pairwise_cons.mp h.order
    refine ⟨⟨h.known m (by simp), fun hl => h.start hl m (by simp)⟩,
      ⟨fun x hx => h.known x (by simp [hx]), fun hl x hx => ?_, horder⟩⟩
    rcases (Bool.or_eq_true _ _).mp hl with hl | hl
    · exact h.start hl x (by simp [hx])
    · exact hm x hx hl
  · rintro ⟨hm, h⟩
    refine ⟨?_, fun hl => ?_, List.pairwise_cons.mpr ⟨fun x hx hl => ?_, h.order⟩⟩
    · intro x hx
      rcases List.mem_cons.mp hx with rfl | hx
      · exact hm.1
      · exact h.known x hx
    · intro x hx
      rcases List.mem_cons.mp hx with rfl | hx
      · exact hm.2 hl
      · exact h.start (by rw [hl, Bool.true_or]) x hx
    · exact h.start (by rw [hl, Bool.or_true]) x hx

/-- What is published does not matter for what is read. -/
theorem allReadFrom_published {t : BrokerThread} {long : Bool} {ms : List DealerMsg} (pub : Out) :
    AllReadFrom { t with zmqPub := pub } long ms ↔ AllReadFrom t long ms :=
  ⟨fun h => ⟨h.known, h.start, h.order⟩, fun h => ⟨h.known, h.start, h.order⟩⟩

/-- The thread with messages waiting on its dealer. -/
def waiting (t : BrokerThread) (ms : List DealerMsg) : BrokerThread :=
  { t with zmqDealerIn := In.holding (ms.map DealerMsg.frames) }

theorem interhubIter_empty {t : BrokerThread} (h : t.zmqDealerIn = In.holding []) (b : Buf 128) :
    interhubIter (t, b) = none := by
  rw [interhubIter, h]
  rfl

/-- The dealer at every evaluation of the loop condition, for a loop that stays at message
boundaries. -/
def boundaries (ms : List DealerMsg) : List In :=
  ms.tails.map fun rest => In.holding (rest.map DealerMsg.frames)

/-- The loop stays at message boundaries exactly when all messages are read. -/
theorem heads_iff : ∀ (ms : List DealerMsg) {t : BrokerThread} {b : Buf 128} {long : Bool}
    {fuel : Nat},
    ms.length ≤ fuel → t.zmqPub.kind = .pub → TypeBuf long b → (∀ m ∈ ms, m.Fits) →
    ((heads interhubIter fuel (waiting t ms, b)).map (fun s => s.1.zmqDealerIn) = boundaries ms ↔
      AllReadFrom t long ms) := by
  intro ms
  induction ms with
  | nil =>
      intro t b long fuel _ _ _ _
      rw [heads_none (interhubIter_empty rfl b)]
      exact ⟨fun _ => ⟨by simp, by simp, List.Pairwise.nil⟩, fun _ => rfl⟩
  | cons m ms ih =>
      intro t b long fuel hfuel hpub hb hfits
      obtain ⟨fuel, rfl⟩ : ∃ k, fuel = k + 1 := ⟨fuel - 1, by simp at hfuel; omega⟩
      obtain ⟨t', b', hiter, hread, hnot⟩ := interhubIter_message (t := waiting t (m :: ms)) hpub
        hb (hfits m (by simp)) rfl
      have hbound : boundaries (m :: ms)
          = (waiting t (m :: ms)).zmqDealerIn :: boundaries ms := by
        rw [boundaries, List.tails_cons, List.map_cons]
        rfl
      rw [hbound, map_heads_iff hiter, allReadFrom_cons]
      simp only [true_and]
      by_cases hm : Read t long m
      · obtain ⟨hb', rfl⟩ := hread hm
        have hlen : ms.length ≤ fuel := by
          simp at hfuel
          omega
        have hrec := ih (t := { t with zmqPub := t.zmqPub.put (stream (answer t m)) }) hlen hpub hb'
          fun x hx => hfits x (by simp [hx])
        simp only [hm, true_and]
        exact hrec.trans (allReadFrom_published _)
      · refine ⟨fun h => ?_, fun h => absurd h.1 hm⟩
        have hstart : boundaries ms = In.holding (ms.map DealerMsg.frames)
            :: (boundaries ms).tail := by
          cases ms <;> rfl
        rw [hstart] at h
        exact absurd (map_heads_start h) (hnot hm)

/-- What the loop leaves of the thread when every message is read. -/
theorem whileSome_read : ∀ (ms : List DealerMsg) {t : BrokerThread} {b : Buf 128} {long : Bool}
    {fuel : Nat}, ms.length ≤ fuel → t.zmqPub.kind = .pub → TypeBuf long b → (∀ m ∈ ms, m.Fits) →
    AllReadFrom t long ms →
    (whileSome interhubIter fuel (waiting t ms, b)).1
      = { waiting t [] with zmqPub := t.zmqPub.put (stream (ms.flatMap (answer t))) } := by
  intro ms
  induction ms with
  | nil =>
      intro t b long fuel _ _ _ _ _
      rw [whileSome_none (interhubIter_empty rfl b)]
      simp [waiting]
  | cons m ms ih =>
      intro t b long fuel hfuel hpub hb hfits hall
      obtain ⟨fuel, rfl⟩ : ∃ k, fuel = k + 1 := ⟨fuel - 1, by simp at hfuel; omega⟩
      obtain ⟨hm, hms⟩ := allReadFrom_cons.mp hall
      obtain ⟨t', b', hiter, hread, -⟩ := interhubIter_message (t := waiting t (m :: ms)) hpub hb
        (hfits m (by simp)) rfl
      obtain ⟨hb', rfl⟩ := hread hm
      have hlen : ms.length ≤ fuel := by
        simp at hfuel
        omega
      have hrec := ih (t := { t with zmqPub := t.zmqPub.put (stream (answer t m)) }) hlen hpub hb'
        (fun x hx => hfits x (by simp [hx])) ((allReadFrom_published _).mpr hms)
      rw [whileSome_some hiter]
      refine Eq.trans hrec ?_
      show { waiting t [] with
        zmqPub := (t.zmqPub.put (stream (answer t m))).put (stream (ms.flatMap (answer t))) } = _
      rw [put_put, ← stream_append, List.flatMap_cons]

/-- What the thread has published when it has read every message. -/
theorem whileSome_published (ms : List DealerMsg) {t : BrokerThread} {b : Buf 128} {long : Bool}
    {fuel : Nat} (hlen : ms.length ≤ fuel) (hpub : t.zmqPub.kind = .pub) (hb : TypeBuf long b)
    (hfits : ∀ m ∈ ms, m.Fits) (hall : AllReadFrom t long ms) :
    (whileSome interhubIter fuel (waiting t ms, b)).1.zmqPub
      = t.zmqPub.put (stream (ms.flatMap (answer t))) := by
  rw [whileSome_read ms hlen hpub hb hfits hall]

theorem answer_ne_nil {t : BrokerThread} {m : DealerMsg} : ∀ x ∈ answer t m, x ≠ [] := by
  intro x hx
  cases m with
  | req svc tag body =>
      unfold answer at hx
      cases hid : findSvcExistTree t (cstr svc) with
      | none => simp [hid] at hx
      | some id =>
          simp only [hid, List.mem_singleton] at hx
          simp [hx]
  | resInterhub broker svc name body =>
      simp only [answer, List.mem_singleton] at hx
      simp [hx]
  | log text => simp [answer] at hx

/-- What a run of the callback over the messages `ms` publishes. -/
def publishes (t : BrokerThread) (ms : List DealerMsg) : List Msg :=
  t.zmqPub.since (interhubCallback (waiting t ms)).zmqPub

theorem length_le_waiting (t : BrokerThread) (ms : List DealerMsg) :
    ms.length ≤ (waiting t ms).zmqDealerIn.queue.length := by
  have hne : ∀ m ∈ ms.map DealerMsg.frames, m ≠ [] := by
    intro m hm
    obtain ⟨x, -, rfl⟩ := List.mem_map.mp hm
    simp [DealerMsg.frames]
  have hlen := length_le_stream hne
  rw [List.length_map] at hlen
  exact hlen

theorem publishes_eq {t : BrokerThread} (hpub : t.zmqPub.kind = .pub) {ms : List DealerMsg}
    (hfits : ∀ m ∈ ms, m.Fits) (hall : AllReadFrom t false ms) :
    publishes t ms = ms.flatMap (answer t) := by
  refine since_of_sent ?_ ?_
  · intro x hx
    obtain ⟨m, -, hx⟩ := List.mem_flatMap.mp hx
    exact answer_ne_nil x hx
  · have hlen := length_le_waiting t ms
    rw [interhubCallback, whileSome_published ms hlen hpub typeBuf_zero hfits hall]
    rfl

/-- The callback handles the messages independently: it stands at the boundary of a message
each time it turns to the next one, and publishes what it would publish for each alone. -/
structure Independent (t : BrokerThread) (ms : List DealerMsg) : Prop where
  framed : (heads interhubIter (waiting t ms).zmqDealerIn.queue.length
    (waiting t ms, Buf.zero 128)).map (fun s => s.1.zmqDealerIn) = boundaries ms
  concat : publishes t ms = ms.flatMap fun m => publishes t [m]

/-- **The messages of the dealer are handled independently exactly when every request is for
a service another broker has, and neither a request nor a log line comes after an inter-hub
response.** -/
theorem interhub_independent_iff {t : BrokerThread} (hpub : t.zmqPub.kind = .pub)
    {ms : List DealerMsg} (hfits : ∀ m ∈ ms, m.Fits) :
    Independent t ms ↔
      (∀ m ∈ ms, Known t m) ∧ ms.Pairwise fun m n => m.isLong = true → n.isLong = true := by
  have hheads := heads_iff ms (length_le_waiting t ms) hpub typeBuf_zero hfits
  constructor
  · intro h
    have hall := hheads.mp h.framed
    exact ⟨hall.known, hall.order⟩
  · rintro ⟨hknown, horder⟩
    have hall : AllReadFrom t false ms := ⟨hknown, by simp, horder⟩
    refine ⟨hheads.mpr hall, ?_⟩
    rw [publishes_eq hpub hfits hall]
    refine List.flatMap_congr fun m hm => ?_
    have hone : AllReadFrom t false [m] :=
      ⟨by simpa using hknown m hm, by simp, List.pairwise_singleton _ _⟩
    rw [publishes_eq hpub (by simpa using hfits m hm) hone]
    simp

section Psib

/-- The thread of the broker on 10.0.0.1, when the broker on 10.0.0.2 serves `PSIB`. -/
def threadPsib : BrokerThread where
  brokerId := lit "10.0.0.1_broker_7"
  rootNode := ⟨⟨.interhub, [], [], 0⟩, [⟨⟨.broker, lit "10.0.0.2_broker_9", lit "PSIB", 0⟩,
    [.leaf ⟨.svc, lit "10.0.0.2_broker_9", lit "PSIB", 0⟩]⟩]⟩
  zmqDealerIn := In.holding []
  zmqDealerOut := ⟨.pipe, [], []⟩
  zmqPub := ⟨.pub, [], []⟩
  zmqSub := In.holding []
  ticks := 0

def responsePsib : DealerMsg :=
  .resInterhub (lit "10.0.0.2_broker_9") (lit "PSIB") (lit "psib_3") (lit "ok")

def requestPsib : DealerMsg := .req (lit "PSIB") MqTag.zero (lit "hi")

/-- A log line, a request and a response, in this order. -/
theorem interhub_independent_psib :
    Independent threadPsib [.log (lit "hey"), requestPsib, responsePsib] := by
  refine (interhub_independent_iff rfl ?_).mpr ⟨?_, ?_⟩
  · intro m hm
    simp only [List.mem_cons, List.not_mem_nil, or_false] at hm
    rcases hm with rfl | rfl | rfl
    · show (lit "hey").length < maxLogSize
      decide
    · exact ⟨by decide, by decide⟩
    · exact ⟨by decide, by decide⟩
  · intro m hm
    simp only [List.mem_cons, List.not_mem_nil, or_false] at hm
    rcases hm with rfl | rfl | rfl
    · trivial
    · show (findSvcExistTree threadPsib (cstr (lit "PSIB"))).isSome = true
      decide
    · trivial
  · simp [responsePsib, requestPsib, DealerMsg.isLong]

/-- The request behind a response is read as `svc_req_interhub` and not published, though
alone it would be. -/
theorem interhub_request_lost :
    publishes threadPsib [responsePsib, requestPsib]
      ≠ [responsePsib, requestPsib].flatMap fun m => publishes threadPsib [m] := by
  decide +kernel

end Psib

end Brocoli.Hub
