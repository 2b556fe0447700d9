/-
What becomes of a message when a send of the relay fails.

`mq_relay_callback` takes a frame off one socket and sends it on another, and does not look
at what the send answers.  So the relay of the frames is exact as long as no send fails,
wherever the thousand frames of a run end.  When one fails the frame is lost, and the frames
behind it in the same message are sent all the same: the worker gets a body without its tag,
or a tag with the frames of the next message behind it.  `mq_relay_callback_sub_to_pub` is
the relay that does look, and drains the rest of the message.

The slot gives on whole messages in exactly those runs in which no message is torn: up to
the last one whose last frame was taken, each was taken whole or refused whole.
-/
import Brocoli.Relay
import Brocoli.Lib.Runs
import Brocoli.Lib.Refusals

namespace Brocoli

open CMem Multipart Refusals

/-- A message that arrives at a relay: it has frames, and they fit the buffer. -/
def Arrival (m : Msg) : Prop := m ≠ [] ∧ Relayable m

instance (m : Msg) : Decidable (Arrival m) := inferInstanceAs (Decidable (_ ∧ _))

/-! ### One relay -/

/-- **A run tries the first `n` frames**, and goes on whatever the sends answer. -/
theorem relayLoop_pipe : ∀ (n : Nat) (src : In) (dst : Out), dst.kind = .pipe →
    (relayLoop n src dst).1.queue = src.queue.drop n ∧
      (relayLoop n src dst).2 = offer dst ((src.queue.take n).map bufferedPart) := by
  intro n
  induction n with
  | zero => intro src dst _; simp [relayLoop]
  | succ n ih =>
      intro src dst hdst
      obtain ⟨q, more⟩ := src
      cases q with
      | nil => simp [relayLoop]
      | cons p q =>
          rw [relayLoop, recv_cons]
          simp only [send_pipe hdst]
          obtain ⟨hq, hd⟩ := ih ⟨q, p.more⟩ (offer dst [bufferedPart p]) hdst
          refine ⟨hq, hd.trans ?_⟩
          rw [offer_offer]
          rfl

/-- One direction of a slot: what has arrived at the socket it reads so far, and the
sockets. -/
structure Relaying where
  arrived : List Msg
  src : In
  dst : Out

namespace Relaying

inductive Step where
  | arrive (m : Msg)
  | run

def step (t : Relaying) : Step → Relaying
  | .arrive m => ⟨t.arrived ++ [m], t.src.arrive m, t.dst⟩
  | .run => ⟨t.arrived, (mqRelayCallback t.src t.dst).1, (mqRelayCallback t.src t.dst).2⟩

/-- Nothing has arrived, and the sends will answer `rs`. -/
def start (rs : List (Option Errno)) : Relaying := ⟨[], In.holding [], ⟨.pipe, [], rs⟩⟩

/-- The number of frames that have been relayed, or tried to. -/
def tried (t : Relaying) : Nat := (stream t.arrived).length - t.src.queue.length

/-- What has left is, frame for frame and in the order of arrival, the messages of which
every frame was taken, when the sends answer `rs`. -/
def Whole (rs : List (Option Errno)) (t : Relaying) : Prop :=
  messages t.dst.sent = intact (fates t.arrived (sentFlags t.tried rs))

instance (rs : List (Option Errno)) (t : Relaying) : Decidable (t.Whole rs) :=
  inferInstanceAs (Decidable (messages _ = _))

/-- Whatever leaves is then a message that has arrived, in the order of arrival. -/
theorem Whole.sublist {rs : List (Option Errno)} {t : Relaying} (h : t.Whole rs) :
    (messages t.dst.sent).Sublist t.arrived := by
  rw [h]
  exact intact_sublist _ _

/-! ### What a run relays -/

/-- The message of a step. -/
def Step.msg? : Step → Option Msg
  | .arrive m => some m
  | .run => none

def arrivals (es : List Step) : List Msg := es.filterMap Step.msg?

/-- The frames that wait, and those tried, after a step. -/
def count (n : Nat × Nat) : Step → Nat × Nat
  | .arrive m => (n.1 + m.length, n.2)
  | .run => (n.1 - 1000, n.2 + min 1000 n.1)

@[simp] theorem count_arrive (n : Nat × Nat) (m : Msg) :
    count n (.arrive m) = (n.1 + m.length, n.2) := rfl

@[simp] theorem count_run (n : Nat × Nat) : count n .run = (n.1 - 1000, n.2 + min 1000 n.1) := rfl

def counts (es : List Step) : Nat × Nat := es.foldl count (0, 0)

/-- No message is torn by what the sends answer. -/
def NoneTorn (rs : List (Option Errno)) (es : List Step) : Prop :=
  NeverTorn (fates (arrivals es) (sentFlags (counts es).2 rs))

instance (rs : List (Option Errno)) (es : List Step) : Decidable (NoneTorn rs es) :=
  decidableNeverTorn _

/-- After the messages `ms` have arrived, by the counts `c` of frames. -/
structure Follows (rs : List (Option Errno)) (ms : List Msg) (c : Nat × Nat) (t : Relaying) :
    Prop where
  fits : ∀ m ∈ ms, Arrival m
  arrived : t.arrived = ms
  length : (stream ms).length = c.2 + c.1
  queue : t.src.queue = (stream ms).drop c.2
  dst : t.dst = offer ⟨.pipe, [], rs⟩ ((stream ms).take c.2)

variable {rs : List (Option Errno)} {ms : List Msg} {c : Nat × Nat} {t : Relaying}

theorem follows_start (rs : List (Option Errno)) : Follows rs [] (0, 0) (start rs) :=
  ⟨by simp, rfl, rfl, rfl, by simp [start]⟩

theorem Follows.arrive (h : Follows rs ms c t) {m : Msg} (hm : Arrival m) :
    Follows rs (ms ++ [m]) (count c (.arrive m)) (t.step (.arrive m)) := by
  have hle : c.2 ≤ (stream ms).length := by
    rw [h.length]
    omega
  have hstream : stream (ms ++ [m]) = stream ms ++ parts m := by
    rw [stream_append, stream_cons, stream_nil, List.append_nil]
  rw [count_arrive]
  refine ⟨?_, ?_, ?_, ?_, ?_⟩
  · intro x hx
    rcases List.mem_append.mp hx with hx | hx
    · exact h.fits x hx
    · rw [List.mem_singleton.mp hx]
      exact hm
  · rw [step, h.arrived]
  · rw [hstream, List.length_append, h.length, length_parts, Nat.add_assoc]
  · rw [hstream, List.drop_append_of_le_length hle, ← h.queue]
    rfl
  · rw [hstream, List.take_append_of_le_length hle, ← h.dst]
    rfl

theorem Follows.run (h : Follows rs ms c t) : Follows rs ms (count c .run) (t.step .run) := by
  have hkind : t.dst.kind = .pipe := by
    rw [h.dst, offer_kind]
  obtain ⟨hq, hd⟩ := relayLoop_pipe 1000 t.src t.dst hkind
  have hwait : t.src.queue.length = c.1 := by
    rw [h.queue, List.length_drop, h.length, Nat.add_sub_cancel_left]
  -- no frame is changed in the buffer
  have hbuf : (t.src.queue.take 1000).map bufferedPart = t.src.queue.take 1000 := by
    have hall : ∀ p ∈ t.src.queue.take 1000, bufferedPart p = id p := by
      intro p hp
      have hp := List.mem_of_mem_take hp
      rw [h.queue] at hp
      exact bufferedPart_of_mem (fun m hm => (h.fits m hm).2) p (List.mem_of_mem_drop hp)
    rw [List.map_congr_left hall, List.map_id]
  rw [count_run]
  refine ⟨h.fits, h.arrived, ?_, ?_, ?_⟩
  · simp only [h.length]
    omega
  · rw [step, mqRelayCallback]
    simp only [hq]
    rw [List.drop_eq_drop_min, hwait, h.queue, List.drop_drop]
  · rw [step, mqRelayCallback]
    simp only [hd, hbuf]
    rw [List.take_eq_take_min, hwait, h.dst, offer_offer, h.queue, List.take_add]

/-- What arrives at the relay in the steps can be relayed. -/
def Step.Fits : Step → Prop
  | .arrive m => Arrival m
  | .run => True

theorem follows_foldl : ∀ {es : List Step} {ms : List Msg} {c : Nat × Nat} {t : Relaying},
    (∀ e ∈ es, e.Fits) → Follows rs ms c t →
      Follows rs (ms ++ arrivals es) (es.foldl count c) (es.foldl step t) := by
  intro es
  induction es with
  | nil => intro ms c t _ h; simpa [arrivals] using h
  | cons e es ih =>
      intro ms c t hes h
      obtain ⟨he, hrest⟩ := List.forall_mem_cons.mp hes
      rw [List.foldl_cons, List.foldl_cons]
      cases e with
      | arrive m =>
          have hall := ih hrest (h.arrive he)
          rwa [List.append_assoc] at hall
      | run => exact ih hrest h.run

/-- The relay after the steps `es`. -/
theorem follows_run {es : List Step} (hes : ∀ e ∈ es, e.Fits) :
    Follows rs (arrivals es) (counts es) (es.foldl step (start rs)) :=
  follows_foldl hes (follows_start rs)

/-- **Whole messages have left exactly when none is torn.** -/
theorem whole_iff {es : List Step} (hes : ∀ e ∈ es, e.Fits) :
    (es.foldl step (start rs)).Whole rs ↔ NoneTorn rs es := by
  have h : Follows rs _ _ _ := follows_run hes
  have hle : (counts es).2 ≤ (stream (arrivals es)).length := by
    rw [h.length]
    omega
  have htried : (es.foldl step (start rs)).tried = (counts es).2 := by
    rw [tried, h.arrived, h.queue, List.length_drop]
    omega
  rw [Whole, NoneTorn, htried, h.arrived, h.dst, offer_take_sent rs hle]
  exact messages_select_iff (fun m hm => (h.fits m hm).1) _

/-! ### Beginnings of a run -/

theorem arrivals_mono {pre es : List Step} (h : pre <+: es) : arrivals pre <+: arrivals es :=
  h.filterMap _

theorem counts_mono {pre es : List Step} (h : pre <+: es) : (counts pre).2 ≤ (counts es).2 := by
  obtain ⟨post, rfl⟩ := h
  rw [counts, counts, List.foldl_append]
  induction post using List.reverseRecOn with
  | nil => exact Nat.le_refl _
  | append_singleton post e ih =>
      rw [List.foldl_append]
      refine Nat.le_trans ih ?_
      cases e with
      | arrive m => exact Nat.le_refl _
      | run => exact Nat.le_add_right _ _

/-- What is torn stays torn. -/
theorem NoneTorn.of_le {pre es : List Step} (h : NoneTorn rs es) (hpre : pre <+: es) :
    NoneTorn rs pre :=
  NeverTorn.of_le (arrivals_mono hpre) (sentFlags_mono (counts_mono hpre) rs) h

end Relaying

/-! ### The slot -/

/-- A slot, with what has arrived at its dealer and its pull socket so far. -/
structure SlotRun where
  slot : SvcSlot
  atDealer : List Msg
  atPull : List Msg

/-- What happens on the thread of a slot: messages come in and its callbacks are called. -/
inductive SlotStep where
  | dealerGets (m : Msg)
  | pullGets (m : Msg)
  | subGets (m : Msg)
  | dealerToPush
  | pullToDealer
  | subToPub

namespace SlotRun

def step (t : SlotRun) : SlotStep → SlotRun
  | .dealerGets m => { t with
      slot := { t.slot with dealerIn := t.slot.dealerIn.arrive m }
      atDealer := t.atDealer ++ [m] }
  | .pullGets m => { t with
      slot := { t.slot with pull := t.slot.pull.arrive m }
      atPull := t.atPull ++ [m] }
  | .subGets m => { t with slot := { t.slot with sub := t.slot.sub.arrive m } }
  | .dealerToPush => { t with slot := t.slot.dealerToPush }
  | .pullToDealer => { t with slot := t.slot.pullToDealer }
  | .subToPub => { t with slot := t.slot.subToPub }

/-- A new slot.  The sends on its push socket will answer `toPush`, those on its dealer
`toDealer`. -/
def start (svcName : Str) (toPush toDealer : List (Option Errno)) : SlotRun :=
  let slot := connectSvcSlot svcName
  ⟨{ slot with
      push := { slot.push with results := toPush }
      dealerOut := { slot.dealerOut with results := toDealer } }, [], []⟩

/-- `relay_dealer` -/
def relayDealer (t : SlotRun) : Relaying := ⟨t.atDealer, t.slot.dealerIn, t.slot.push⟩

/-- `relay_pull` -/
def relayPull (t : SlotRun) : Relaying := ⟨t.atPull, t.slot.pull, t.slot.dealerOut⟩

/-- Neither relay has torn a message. -/
def Whole (toPush toDealer : List (Option Errno)) (t : SlotRun) : Prop :=
  t.relayDealer.Whole toPush ∧ t.relayPull.Whole toDealer

instance (toPush toDealer : List (Option Errno)) (t : SlotRun) :
    Decidable (t.Whole toPush toDealer) :=
  inferInstanceAs (Decidable (_ ∧ _))

end SlotRun

namespace SlotStep

/-- What arrives has frames that fit the buffer. -/
def Fits : SlotStep → Prop
  | .dealerGets m => Arrival m
  | .pullGets m => Arrival m
  | _ => True

/-- The step as one of `relay_dealer`. -/
def dealer? : SlotStep → Option Relaying.Step
  | .dealerGets m => some (.arrive m)
  | .dealerToPush => some .run
  | _ => none

/-- The step as one of `relay_pull`. -/
def pull? : SlotStep → Option Relaying.Step
  | .pullGets m => some (.arrive m)
  | .pullToDealer => some .run
  | _ => none

instance (e : SlotStep) : Decidable e.Fits := by
  cases e <;> simp only [Fits] <;> infer_instance

end SlotStep

open SlotStep Runs

/-- `relay_dealer` goes through its own steps, and is not touched by the others. -/
theorem relayDealer_step (t : SlotRun) (e : SlotStep) :
    (t.step e).relayDealer = (dealer? e).elim t.relayDealer t.relayDealer.step := by
  cases e <;> rfl

theorem relayPull_step (t : SlotRun) (e : SlotStep) :
    (t.step e).relayPull = (pull? e).elim t.relayPull t.relayPull.step := by
  cases e <;> rfl

theorem fits_dealer {es : List SlotStep} (h : ∀ e ∈ es, e.Fits) :
    ∀ d ∈ es.filterMap dealer?, d.Fits := by
  intro d hd
  obtain ⟨e, he, heq⟩ := List.mem_filterMap.mp hd
  have hfits := h e he
  cases e <;> simp only [dealer?, Option.some.injEq, reduceCtorEq] at heq <;> subst heq
  · exact hfits
  · trivial

theorem fits_pull {es : List SlotStep} (h : ∀ e ∈ es, e.Fits) :
    ∀ d ∈ es.filterMap pull?, d.Fits := by
  intro d hd
  obtain ⟨e, he, heq⟩ := List.mem_filterMap.mp hd
  have hfits := h e he
  cases e <;> simp only [pull?, Option.some.injEq, reduceCtorEq] at heq <;> subst heq
  · exact hfits
  · trivial

/-- What has left a slot after the steps `es`. -/
theorem whole_foldl_iff (svcName : Str) (toPush toDealer : List (Option Errno))
    {es : List SlotStep} (h : ∀ e ∈ es, e.Fits) :
    (es.foldl SlotRun.step (SlotRun.start svcName toPush toDealer)).Whole toPush toDealer ↔
      Relaying.NoneTorn toPush (es.filterMap dealer?) ∧
        Relaying.NoneTorn toDealer (es.filterMap pull?) := by
  rw [SlotRun.Whole, foldl_view relayDealer_step, foldl_view relayPull_step]
  exact and_congr (Relaying.whole_iff (fits_dealer h)) (Relaying.whole_iff (fits_pull h))

/-- **A slot never tears a message exactly when the sends do not**: in each direction, up to
the last message whose last frame was taken, every message was taken whole or refused
whole. -/
theorem slot_whole_iff (svcName : Str) (toPush toDealer : List (Option Errno))
    (es : List SlotStep) (hes : ∀ e ∈ es, e.Fits) :
    (∀ t ∈ states SlotRun.step (SlotRun.start svcName toPush toDealer) es,
        t.Whole toPush toDealer) ↔
      Relaying.NoneTorn toPush (es.filterMap dealer?) ∧
        Relaying.NoneTorn toDealer (es.filterMap pull?) := by
  constructor
  · intro h
    exact (whole_foldl_iff svcName toPush toDealer hes).mp (h _ (foldl_mem_states _ _))
  · rintro ⟨hpush, hdealer⟩ t ht
    obtain ⟨pre, hpre, rfl⟩ := mem_states_iff.mp ht
    have hfits : ∀ e ∈ pre, e.Fits := fun e he => hes e (hpre.subset he)
    exact (whole_foldl_iff svcName toPush toDealer hfits).mpr
      ⟨hpush.of_le (hpre.filterMap _), hdealer.of_le (hpre.filterMap _)⟩

/-- One request is refused whole, and the next goes through. -/
theorem slot_whole_refused :
    ([.dealerGets [[1], [2]], .dealerToPush, .dealerGets [[1], [3]], .pullGets [[1], [4]],
        .dealerToPush, .pullToDealer].foldl SlotRun.step
      (SlotRun.start [] [some .EAGAIN, some .EAGAIN] [])).Whole [some .EAGAIN, some .EAGAIN] [] :=
  (slot_whole_iff [] [some .EAGAIN, some .EAGAIN] [] _ (by decide)).mpr (by decide) _
    (foldl_mem_states _ _)

/-- The tag of a request is refused, and its body goes to the worker alone. -/
theorem slot_sends_body_alone :
    ¬ ∀ (svcName : Str) (toPush toDealer : List (Option Errno)) (es : List SlotStep),
      (∀ e ∈ es, e.Fits) →
        ∀ t ∈ states SlotRun.step (SlotRun.start svcName toPush toDealer) es,
          t.Whole toPush toDealer := by
  intro h
  have hlast := h [] [some .EAGAIN] [] [.dealerGets [[1], [2]], .dealerToPush] (by decide) _
    (foldl_mem_states _ _)
  exact absurd hlast (by decide)

end Brocoli
