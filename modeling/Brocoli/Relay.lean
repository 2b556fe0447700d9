/-
The relays of a service slot: the callbacks of the service thread in `broker.c`.

A slot sits between the broker's sockets and the processes of one service.  Requests
go through `mq_relay_callback`, frame by frame, at most a thousand frames a run, so a
run can end inside a message and the next one goes on from there.  Responses go
through `mq_relay_callback_sub_to_pub`, message by message, which drops the frame the
broker addressed the service with.
-/
import Brocoli.Wrapper

namespace Brocoli

open CMem Multipart

/-- Reads on while `RCVMORE` is set.  It is never set with nothing to read, as messages
arrive whole. -/
def drainParts (more : Bool) : List Part → In
  | [] => ⟨[], more⟩
  | p :: q => if more then drainParts p.more q else ⟨p :: q, more⟩

def drainLeftPartMessage (s : In) : In := drainParts s.more s.queue

/-- The loop of `mq_relay_callback` with `n` frames left before `relay_cnt` ends it. -/
def relayLoop : Nat → In → Out → In × Out
  | 0, src, dst => (src, dst)
  | n + 1, src, dst =>
      match src.recv with
      | none => (src, dst)
      | some (f, src') =>
          -- the result of the send is not looked at
          relayLoop n src' (dst.send (buffered f) src'.more).2

def mqRelayCallback (src : In) (dst : Out) : In × Out := relayLoop 1000 src dst

/-- The loop of `mq_relay_callback_sub_to_pub` with `n` messages left. -/
def subToPubLoop : Nat → In → Out → In × Out
  | 0, src, dst => (src, dst)
  | n + 1, src, dst =>
      match src.recv with
      | none => (src, dst)
      | some (_, src') =>
          let r := relaySndMore src' dst none
          match r.rc with
          | some _ => (drainLeftPartMessage r.src, r.dst)
          | none => subToPubLoop n r.src r.dst

def mqRelayCallbackSubToPub (src : In) (dst : Out) : In × Out := subToPubLoop 1000 src dst

/-! ### Draining -/

theorem drainParts_parts : ∀ {m : Msg}, m ≠ [] → ∀ (q : List Part),
    drainParts true (parts m ++ q) = ⟨q, false⟩
  | [], h, _ => absurd rfl h
  | [f], _, q => by cases q <;> simp [drainParts]
  | f :: g :: rest, _, q => by
      rw [parts_cons_cons, List.cons_append, drainParts, if_pos rfl]
      exact drainParts_parts (by simp) q

/-- Draining ends at the boundary behind the message, wherever in it the reader was. -/
theorem drain_rest (rest : Msg) (ms : List Msg) :
    drainLeftPartMessage ⟨parts rest ++ stream ms, !rest.isEmpty⟩ = In.holding ms := by
  unfold drainLeftPartMessage
  cases rest with
  | nil =>
      show drainParts false (stream ms) = _
      cases h : stream ms with
      | nil => simp [drainParts, In.holding, h]
      | cons p q => simp [drainParts, In.holding, h]
  | cons f rest => exact drainParts_parts (by simp) _

/-! ### Requests -/

/-- A frame as it comes out of the relay buffer. -/
def bufferedPart (p : Part) : Part := ⟨buffered p.bytes, p.more⟩

theorem bufferedPart_parts (m : Msg) : (parts m).map bufferedPart = parts (m.map buffered) := by
  induction m with
  | nil => rfl
  | cons f rest ih =>
      cases rest with
      | nil => rfl
      | cons g rest =>
          rw [parts_cons_cons, List.map_cons, ih]
          rfl

theorem bufferedPart_stream {ms : List Msg} (h : ∀ m ∈ ms, Relayable m) :
    (stream ms).map bufferedPart = stream ms := by
  induction ms with
  | nil => rfl
  | cons m ms ih =>
      rw [stream_cons, List.map_append, bufferedPart_parts, map_buffered (h m (by simp)),
        ih fun x hx => h x (by simp [hx])]

/-- No part of messages that fit is changed. -/
theorem bufferedPart_of_mem {ms : List Msg} (h : ∀ m ∈ ms, Relayable m) :
    ∀ p ∈ stream ms, bufferedPart p = p := by
  have hmap : (stream ms).map bufferedPart = (stream ms).map id := by
    rw [bufferedPart_stream h, List.map_id]
  exact List.map_inj_left.mp hmap

/-- **The run moves the first `n` frames**, whatever messages they belong to. -/
theorem relayLoop_steady : ∀ (n : Nat) (src : In) (dst : Out), dst.Steady →
    (relayLoop n src dst).1.queue = src.queue.drop n ∧
      (relayLoop n src dst).2 = dst.put ((src.queue.take n).map bufferedPart) := by
  intro n
  induction n with
  | zero => intro src dst _; simp [relayLoop]
  | succ n ih =>
      intro src dst hdst
      obtain ⟨q, more⟩ := src
      cases q with
      | nil => simp [relayLoop]
      | cons p q =>
          rw [relayLoop, recv_cons]
          simp only [send_free hdst.free]
          obtain ⟨hq, hd⟩ := ih ⟨q, p.more⟩ (dst.put [bufferedPart p]) (hdst.put _)
          refine ⟨?_, ?_⟩
          · exact hq
          · exact hd.trans (by simp)

/-- What is there before and behind the relay together stays the same, wherever the run
ends. -/
theorem mqRelayCallback_stream {src : In} {dst : Out} (hdst : dst.Steady)
    (h : ∀ p ∈ src.queue, bufferedPart p = p) :
    (mqRelayCallback src dst).2.sent ++ (mqRelayCallback src dst).1.queue = dst.sent ++ src.queue ∧
      (mqRelayCallback src dst).2.Steady := by
  obtain ⟨hq, hd⟩ := relayLoop_steady 1000 src dst hdst
  have hmap : (src.queue.take 1000).map bufferedPart = src.queue.take 1000 := by
    have hall : ∀ p ∈ src.queue.take 1000, bufferedPart p = id p := fun p hp =>
      h p (List.mem_of_mem_take hp)
    rw [List.map_congr_left hall, List.map_id]
  rw [hmap] at hd
  rw [mqRelayCallback, hq, hd]
  exact ⟨by simp, hdst.put _⟩

/-- A run leaves the first message whole behind the relay, when it has no more frames than the
run relays. -/
theorem mqRelayCallback_whole {src : In} {dst : Out} (hdst : dst.Steady)
    (h : ∀ p ∈ src.queue, bufferedPart p = p) {m : Msg} (hm : m ≠ []) (hlen : m.length ≤ 1000)
    {rest : List Part} (hmem : dst.sent ++ src.queue = parts m ++ rest) :
    (mqRelayCallback src dst).2.deliver ≠ none := by
  have hmap : (src.queue.take 1000).map bufferedPart = src.queue.take 1000 := by
    have hall : ∀ p ∈ src.queue.take 1000, bufferedPart p = id p := fun p hp =>
      h p (List.mem_of_mem_take hp)
    rw [List.map_congr_left hall, List.map_id]
  have htotal := congrArg List.length hmem
  rw [List.length_append, List.length_append, length_parts] at htotal
  have hsplit : dst.sent ++ src.queue.take 1000 ++ src.queue.drop 1000 = parts m ++ rest := by
    rw [List.append_assoc, List.take_append_drop, hmem]
  rw [deliver_ne_none, mqRelayCallback, (relayLoop_steady 1000 src dst hdst).2, put_sent, hmap]
  refine takeMessage_of_prefix hm hsplit ?_
  rw [List.length_append, List.length_take]
  omega

/-- A message of up to a thousand frames goes through in one run. -/
theorem mqRelayCallback_one {m : Msg} (hm : m.length ≤ 1000) {dst : Out} (hdst : dst.Steady) :
    (mqRelayCallback (In.holding [m]) dst).2 = dst.put (parts (m.map buffered)) := by
  have hparts : stream [m] = parts m := by simp
  rw [mqRelayCallback, (relayLoop_steady 1000 (In.holding [m]) dst hdst).2, In.holding, hparts,
    List.take_of_length_le (by simpa using hm), bufferedPart_parts]

/-! ### Responses -/

/-- **Of every message the first frame is dropped and the rest published**, up to the limit
of the run. -/
theorem subToPubLoop_buffered : ∀ (n : Nat) (ms : List Msg) (dst : Out), dst.kind = .pub →
    (∀ m ∈ ms, m.tail ≠ []) →
    subToPubLoop n (In.holding ms) dst
      = (In.holding (ms.drop n),
          dst.put (stream ((ms.take n).map fun m => m.tail.map buffered))) := by
  intro n
  induction n with
  | zero => intro ms dst _ _; simp [subToPubLoop]
  | succ n ih =>
      intro ms dst hk hms
      cases ms with
      | nil => simp [subToPubLoop]
      | cons m ms =>
          have hm := hms m (by simp)
          cases m with
          | nil => exact absurd rfl hm
          | cons topic rest =>
              have htail : rest ≠ [] := hm
              have hrelay := relaySndMore_buffered htail (steady_pub hk).free (stream ms) true none
              rw [subToPubLoop, recv_holding_cons htail]
              simp only [hrelay]
              have := ih ms (dst.put (parts (rest.map buffered))) hk fun x hx => hms x
                (by simp [hx])
              rw [In.holding] at this
              rw [this]
              simp

theorem mqRelayCallbackSubToPub_one {topic : Frame} {rest : Msg} {dst : Out} (hk : dst.kind = .pub)
    (hrest : rest ≠ []) :
    mqRelayCallbackSubToPub (In.holding [topic :: rest]) dst
      = (In.holding [], dst.put (parts (rest.map buffered))) := by
  have := subToPubLoop_buffered 1000 [topic :: rest] dst hk (by simpa using hrest)
  simpa [mqRelayCallbackSubToPub] using this

theorem mqRelayCallbackSubToPub_none (dst : Out) :
    mqRelayCallbackSubToPub (In.holding []) dst = (In.holding [], dst) := rfl

/-! ### The slot -/

/-- The sockets of `service_ctx_t`, as `connect_svc_slot` creates them.  `svc_name` is the
identity of the dealer and what the subscriber subscribes to. -/
structure SvcSlot where
  svcName : Str
  dealerIn : In
  dealerOut : Out
  sub : In
  pub : Out
  push : Out
  pull : In

/-- `connect_svc_slot` -/
def connectSvcSlot (svcName : Str) : SvcSlot :=
  ⟨svcName, In.holding [], ⟨.pipe, [], []⟩, In.holding [], ⟨.pub, [], []⟩, ⟨.pipe, [], []⟩,
    In.holding []⟩

namespace SvcSlot

/-- `ev_dealer_to_push` -/
def dealerToPush (s : SvcSlot) : SvcSlot :=
  let r := mqRelayCallback s.dealerIn s.push
  { s with dealerIn := r.1, push := r.2 }

/-- `ev_pull_to_dealer` -/
def pullToDealer (s : SvcSlot) : SvcSlot :=
  let r := mqRelayCallback s.pull s.dealerOut
  { s with pull := r.1, dealerOut := r.2 }

/-- `ev_sub_to_pub` -/
def subToPub (s : SvcSlot) : SvcSlot :=
  let r := mqRelayCallbackSubToPub s.sub s.pub
  { s with sub := r.1, pub := r.2 }

/-- The sockets of a slot are what they are created as, and no send on them fails. -/
structure Ready (s : SvcSlot) : Prop where
  dealer : s.dealerOut.Steady
  push : s.push.Steady
  pub : s.pub.kind = .pub

theorem ready_connect (svcName : Str) : (connectSvcSlot svcName).Ready :=
  ⟨steady_pipe rfl rfl, steady_pipe rfl rfl, rfl⟩

end SvcSlot

end Brocoli
