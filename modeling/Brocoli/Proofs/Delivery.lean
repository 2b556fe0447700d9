/-
Requests inside one broker.

A request goes from a process to the slot of its service, from there to the router, to the
slot of the service it is for, and to one of its processes.  Between the sockets are pipes,
which carry whole messages at any time; inside the broker the callbacks run at any time, and
those of a slot stop after a thousand frames, also in the middle of a message.

`memory` is what a place of the way holds, as parts.  A slot counts as one place in each
direction, with what it has read and what it has not.  At any time the memory of every place
is the stream of the requests it holds, in the form they have there, and every request is
held in one place.
-/
import Brocoli.Lib.Custody
import Brocoli.Lib.Runs
import Brocoli.Router

namespace Brocoli

open CMem Multipart Custody Runs

/-! ### The system -/

/-- A request, as a process has sent it. -/
structure Request (ι : Type) where
  sender : ι
  tag : MqTag
  tgsvc : Str
  body : Frame

/-- What a process was given by `mq_recv_req`: the buffer it passed, and what it got. -/
structure Handed where
  into : List Byte
  tag : MqTag
  buf : List Byte

/-- The processes, the slots and the router of a broker, with what was sent and received. -/
structure Net (ι : Type) where
  client : ι → ClientSock
  slot : Str → SvcSlot
  ctx : RouterCtx
  sent : List (Request ι)
  handed : ι → List Handed

/-- What happens in the system: a process sends or receives, a pipe carries a message, or a
callback runs. -/
inductive NetStep (ι : Type) where
  | send (r : Request ι)
  | toSlot (p : ι)
  | pullToDealer (s : Str)
  | toRouter (s : Str)
  | router
  | toDealer (s : Str)
  | dealerToPush (s : Str)
  | toProcess (p : ι)
  | recv (p : ι) (into : MqTag) (buf : List Byte)

section System

variable {ι : Type} [DecidableEq ι] (svc : ι → Str)

namespace Net

def setClient (net : Net ι) (p : ι) (c : ClientSock) : Net ι :=
  { net with client := Function.update net.client p c }

def setSlot (net : Net ι) (s : Str) (slot : SvcSlot) : Net ι :=
  { net with slot := Function.update net.slot s slot }

def setCtx (net : Net ι) (ctx : RouterCtx) : Net ι := { net with ctx := ctx }

/-- `svc p` is the service of the process `p`; a slot's push socket hands a message to any
process of its service. -/
def step (net : Net ι) : NetStep ι → Net ι
  | .send r =>
      let out := mqSendReq (net.client r.sender) r.tag r.tgsvc r.body
      { net.setClient r.sender out.2 with sent := if out.1 = 0 then net.sent ++ [r] else net.sent }
  | .toSlot p =>
      match (net.client p).zmqPush.deliver with
      | none => net
      | some (m, push) =>
          (net.setClient p { net.client p with zmqPush := push }).setSlot (svc p)
            { net.slot (svc p) with pull := (net.slot (svc p)).pull.arrive m }
  | .pullToDealer s => net.setSlot s (net.slot s).pullToDealer
  | .toRouter s =>
      match (net.slot s).dealerOut.deliver with
      | none => net
      | some (m, dealer) =>
          (net.setSlot s { net.slot s with dealerOut := dealer }).setCtx { net.ctx with
            routerIn := net.ctx.routerIn.arrive (fromPeer (net.slot s).svcName m) }
  | .router => net.setCtx (routerCallback net.ctx)
  | .toDealer s =>
      match net.ctx.routerOut.deliverTo (net.slot s).svcName with
      | none => net
      | some (m, out) =>
          (net.setSlot s { net.slot s with dealerIn := (net.slot s).dealerIn.arrive m }).setCtx
            { net.ctx with routerOut := out }
  | .dealerToPush s => net.setSlot s (net.slot s).dealerToPush
  | .toProcess p =>
      match (net.slot (svc p)).push.deliver with
      | none => net
      | some (m, push) =>
          (net.setSlot (svc p) { net.slot (svc p) with push := push }).setClient p
            { net.client p with zmqPull := (net.client p).zmqPull.arrive m }
  | .recv p into buf =>
      let r := mqRecvReq (net.client p) into buf
      { net.setClient p r.sock with
        handed :=
          if r.rc = 0 then Function.update net.handed p (net.handed p ++ [⟨buf, r.tag, r.buf⟩])
          else net.handed }

/-- The system before anything was sent: the processes have connected, and the router knows
the services. -/
def start (services : List Str) (interhub : Bool) (conn : ι → Int × Bool × Str) : Net ι where
  client p := crtCliSock (conn p).1 (conn p).2.1 (conn p).2.2
  slot := connectSvcSlot
  ctx := ⟨In.holding [], ⟨.router fun s => services.contains s, [], []⟩, ⟨.pub, [], []⟩, interhub⟩
  sent := []
  handed _ := []

end Net

/-- A request for a registered service. -/
structure Request.Valid (services : List Str) (r : Request ι) : Prop where
  tgsvc : IsName 24 r.tgsvc
  known : r.tgsvc ∈ services
  nonempty : r.body ≠ []
  fits : r.body.length ≤ maxBuffSize

def NetStep.Valid (services : List Str) : NetStep ι → Prop
  | .send r => r.Valid services
  | _ => True

/-! ### Places -/

/-- Where a request can be: with its sender, in the slot of the sender's service, before and
behind the router, in the slot of the service it is for, or with a process, which has or has
not yet received it. -/
inductive Place (ι : Type) where
  | push (p : ι)
  | slotUp (s : Str)
  | routerIn
  | routerOut
  | slotDown (s : Str)
  | pull (p : ι)
  | handed (p : ι)
deriving DecidableEq

def memory (net : Net ι) : Place ι → List Part
  | .push p => (net.client p).zmqPush.sent
  | .slotUp s => (net.slot s).dealerOut.sent ++ (net.slot s).pull.queue
  | .routerIn => net.ctx.routerIn.queue
  | .routerOut => net.ctx.routerOut.sent
  | .slotDown s => (net.slot s).push.sent ++ (net.slot s).dealerIn.queue
  | .pull p => (net.client p).zmqPull.queue
  | .handed _ => []

/-- The form a request has in a place; one that was received has none. -/
def frames : Place ι → Request ι → Msg
  | .push _, r | .slotUp _, r => [mqReq, r.tgsvc, r.tag.mem, r.body]
  | .routerIn, r => [svc r.sender, mqReq, r.tgsvc, r.tag.mem, r.body]
  | .routerOut, r => [r.tgsvc, r.tag.mem, r.body]
  | .slotDown _, r | .pull _, r => [r.tag.mem, r.body]
  | .handed _, _ => []

/-- The request can be in the place: its sender, or the service it is for, is there. -/
def Belongs : Place ι → Request ι → Prop
  | .push p, r => r.sender = p
  | .slotUp s, r => svc r.sender = s
  | .routerIn, _ | .routerOut, _ => True
  | .slotDown s, r => r.tgsvc = s
  | .pull p, r | .handed p, r => r.tgsvc = svc p

/-- The process has received the request: its tag, and its body in front of a buffer that
has room for it. -/
def Handed.Is (h : Handed) (r : Request ι) : Prop :=
  h.tag = r.tag ∧
    (r.body.length ≤ h.into.length → h.buf = r.body ++ h.into.drop r.body.length)

/-- What is held in a place, in the form it has there. -/
def streamAt (p : Place ι) (xs : List (Nat × Request ι)) : List Part :=
  stream (xs.map fun x => frames svc p x.2)

/-- **The requests held in the places are all that were sent, each in one place where it
belongs, and are what the places remember.** -/
structure Accounted (net : Net ι) (held : Place ι → List (Nat × Request ι)) : Prop where
  placed : Placed net.sent held
  memory : ∀ p, memory net p = streamAt svc p (held p)
  belongs : ∀ p, ∀ x ∈ held p, Belongs svc p x.2
  handed : ∀ p, List.Forall₂ Handed.Is (net.handed p) ((held (.handed p)).map Prod.snd)

/-- The sockets are what they are created as, and no send fails. -/
structure Net.Working (services : List Str) (net : Net ι) : Prop where
  push : ∀ p, (net.client p).zmqPush.Steady
  pull : ∀ p, (net.client p).zmqPull.more = false
  slot : ∀ s, (net.slot s).Ready
  name : ∀ s, (net.slot s).svcName = s
  router : net.ctx.routerOut.kind = .router fun s => services.contains s
  results : net.ctx.routerOut.results = []
  routerIn : net.ctx.routerIn.more = false
  valid : ∀ r ∈ net.sent, r.Valid services

/-! ### What a change leaves alone -/

section Change

variable {net : Net ι} {services : List Str}

omit [DecidableEq ι] in
theorem memory_setCtx {ctx : RouterCtx} {r : Place ι}
    (hin : r = .routerIn → ctx.routerIn.queue = net.ctx.routerIn.queue)
    (hout : r = .routerOut → ctx.routerOut.sent = net.ctx.routerOut.sent) :
    memory (net.setCtx ctx) r = memory net r := by
  cases r with
  | routerIn => exact hin rfl
  | routerOut => exact hout rfl
  | _ => rfl

theorem memory_setClient {p : ι} {c : ClientSock} {r : Place ι}
    (hpush : r = .push p → c.zmqPush.sent = (net.client p).zmqPush.sent)
    (hpull : r = .pull p → c.zmqPull.queue = (net.client p).zmqPull.queue) :
    memory (net.setClient p c) r = memory net r := by
  cases r with
  | push q =>
      by_cases hq : q = p
      · subst hq
        simpa [memory, Net.setClient] using hpush rfl
      · simp [memory, Net.setClient, hq]
  | pull q =>
      by_cases hq : q = p
      · subst hq
        simpa [memory, Net.setClient] using hpull rfl
      · simp [memory, Net.setClient, hq]
  | _ => rfl

omit [DecidableEq ι] in
theorem memory_setSlot {s : Str} {slot : SvcSlot} {r : Place ι}
    (hup : r = .slotUp s → slot.dealerOut.sent ++ slot.pull.queue
      = (net.slot s).dealerOut.sent ++ (net.slot s).pull.queue)
    (hdown : r = .slotDown s → slot.push.sent ++ slot.dealerIn.queue
      = (net.slot s).push.sent ++ (net.slot s).dealerIn.queue) :
    memory (net.setSlot s slot) r = memory net r := by
  cases r with
  | slotUp t =>
      by_cases ht : t = s
      · subst ht
        simpa [memory, Net.setSlot] using hup rfl
      · simp [memory, Net.setSlot, ht]
  | slotDown t =>
      by_cases ht : t = s
      · subst ht
        simpa [memory, Net.setSlot] using hdown rfl
      · simp [memory, Net.setSlot, ht]
  | _ => rfl

omit [DecidableEq ι] in
theorem Net.Working.setCtx (h : net.Working services) {ctx : RouterCtx}
    (hkind : ctx.routerOut.kind = net.ctx.routerOut.kind)
    (hresults : ctx.routerOut.results = net.ctx.routerOut.results)
    (hmore : ctx.routerIn.more = false) : (net.setCtx ctx).Working services :=
  { h with router := hkind.trans h.router, results := hresults.trans h.results, routerIn := hmore }

theorem Net.Working.setClient (h : net.Working services) {p : ι} {c : ClientSock}
    (hpush : c.zmqPush.Steady) (hpull : c.zmqPull.more = false) :
    (net.setClient p c).Working services where
  push q := by
    by_cases hq : q = p
    · subst hq
      simpa [Net.setClient] using hpush
    · simpa [Net.setClient, hq] using h.push q
  pull q := by
    by_cases hq : q = p
    · subst hq
      simpa [Net.setClient] using hpull
    · simpa [Net.setClient, hq] using h.pull q
  slot := h.slot
  name := h.name
  router := h.router
  results := h.results
  routerIn := h.routerIn
  valid := h.valid

omit [DecidableEq ι] in
theorem Net.Working.setSlot (h : net.Working services) {s : Str} {slot : SvcSlot}
    (hslot : slot.Ready) (hname : slot.svcName = s) : (net.setSlot s slot).Working services where
  push := h.push
  pull := h.pull
  slot t := by
    by_cases ht : t = s
    · subst ht
      simpa [Net.setSlot] using hslot
    · simpa [Net.setSlot, ht] using h.slot t
  name t := by
    by_cases ht : t = s
    · subst ht
      simpa [Net.setSlot] using hname
    · simpa [Net.setSlot, ht] using h.name t
  router := h.router
  results := h.results
  routerIn := h.routerIn
  valid := h.valid

end Change

/-! ### What a move keeps -/

variable {svc}

theorem Accounted.move {net net' : Net ι} {held : Place ι → List (Nat × Request ι)}
    (h : Accounted svc net held) {p q : Place ι} (hpq : p ≠ q) {xs rest : List (Nat × Request ι)}
    (hperm : (held p).Perm (xs ++ rest)) (hsent : net'.sent = net.sent)
    (hp : Brocoli.memory net' p = streamAt svc p rest)
    (hq : Brocoli.memory net' q = Brocoli.memory net q ++ streamAt svc q xs)
    (hother : ∀ r, r ≠ p → r ≠ q → Brocoli.memory net' r = Brocoli.memory net r)
    (hbelongs : ∀ x ∈ xs, Belongs svc q x.2)
    (hhanded : ∀ r, List.Forall₂ Handed.Is (net'.handed r)
      ((Placed.moved held p q xs rest (.handed r)).map Prod.snd)) :
    Accounted svc net' (Placed.moved held p q xs rest) where
  placed := by
    rw [hsent]
    exact h.placed.move hpq hperm
  memory r := by
    by_cases hrq : r = q
    · subst hrq
      rw [hq, h.memory]
      simp [Placed.moved, streamAt, stream_append]
    · by_cases hrp : r = p
      · subst hrp
        rw [hp]
        simp [Placed.moved, hrq]
      · rw [Placed.moved_of_ne held hrp hrq, hother r hrp hrq, h.memory]
  belongs r x hx := by
    rcases (Placed.mem_moved hpq x r).mp hx with ⟨-, hstay⟩ | ⟨rfl, hrest⟩ | ⟨rfl, hgo⟩
    · exact h.belongs r x hstay
    · exact h.belongs r x (hperm.mem_iff.mpr (List.mem_append_right _ hrest))
    · exact hbelongs x hgo
  handed := hhanded

/-- A new request is put behind the others of a place. -/
theorem Accounted.add {net net' : Net ι} {held : Place ι → List (Nat × Request ι)}
    (h : Accounted svc net held) {p : Place ι} {r : Request ι} (hp' : ∀ q, .handed q ≠ p)
    (hsent : net'.sent = net.sent ++ [r]) (hhanded : net'.handed = net.handed)
    (hp : Brocoli.memory net' p = Brocoli.memory net p ++ parts (frames svc p r))
    (hother : ∀ q, q ≠ p → Brocoli.memory net' q = Brocoli.memory net q)
    (hbelongs : Belongs svc p r) :
    Accounted svc net' (Placed.added held p (net.sent.length, r)) where
  placed := by
    rw [hsent]
    exact h.placed.add p r
  memory q := by
    by_cases hq : q = p
    · rw [hq, hp, h.memory, Placed.added_self]
      simp [streamAt, stream_append]
    · rw [hother q hq, h.memory, Placed.added_of_ne held hq]
  belongs q x hx := by
    rcases (Placed.mem_added x q).mp hx with hstay | ⟨rfl, rfl⟩
    · exact h.belongs q x hstay
    · exact hbelongs
  handed q := by
    rw [Placed.added_of_ne held (hp' q), hhanded]
    exact h.handed q

/-- A move between places in front of `mq_recv_req`. -/
theorem Accounted.carry {net net' : Net ι} {held : Place ι → List (Nat × Request ι)}
    (h : Accounted svc net held) (p q : Place ι) (xs rest : List (Nat × Request ι)) (hpq : p ≠ q)
    (hp' : ∀ r, .handed r ≠ p) (hq' : ∀ r, .handed r ≠ q) (hperm : (held p).Perm (xs ++ rest))
    (hsent : net'.sent = net.sent)
    (hhanded : net'.handed = net.handed) (hp : Brocoli.memory net' p = streamAt svc p rest)
    (hq : Brocoli.memory net' q = Brocoli.memory net q ++ streamAt svc q xs)
    (hother : ∀ r, r ≠ p → r ≠ q → Brocoli.memory net' r = Brocoli.memory net r)
    (hbelongs : ∀ x ∈ xs, Belongs svc q x.2) :
    Accounted svc net' (Placed.moved held p q xs rest) := by
  refine h.move hpq hperm hsent hp hq hother hbelongs fun r => ?_
  rw [Placed.moved_of_ne held (hp' r) (hq' r), hhanded]
  exact h.handed r

/-- The first request of a place moves. -/
theorem Accounted.carry_first {net net' : Net ι} {held : Place ι → List (Nat × Request ι)}
    (h : Accounted svc net held) (p q : Place ι) {x : Nat × Request ι}
    {rest : List (Nat × Request ι)} (hheld : held p = x :: rest) (hpq : p ≠ q)
    (hp' : ∀ r, .handed r ≠ p) (hq' : ∀ r, .handed r ≠ q) (hsent : net'.sent = net.sent)
    (hhanded : net'.handed = net.handed) (hp : Brocoli.memory net' p = streamAt svc p rest)
    (hq : Brocoli.memory net' q = Brocoli.memory net q ++ parts (frames svc q x.2))
    (hother : ∀ r, r ≠ p → r ≠ q → Brocoli.memory net' r = Brocoli.memory net r)
    (hbelongs : Belongs svc q x.2) : Accounted svc net' (Placed.moved held p q [x] rest) := by
  have hperm : (held p).Perm ([x] ++ rest) := by
    rw [hheld]
    exact List.Perm.refl _
  refine h.carry p q [x] rest hpq hp' hq' hperm hsent hhanded hp ?_ hother ?_
  · rw [hq]
    simp [streamAt]
  · intro y hy
    obtain rfl := List.mem_singleton.mp hy
    exact hbelongs

omit [DecidableEq ι] in
/-- A change that no place notices. -/
theorem Accounted.same {net net' : Net ι} {held : Place ι → List (Nat × Request ι)}
    (h : Accounted svc net held) (hsent : net'.sent = net.sent) (hhanded : net'.handed = net.handed)
    (hmemory : ∀ r, Brocoli.memory net' r = Brocoli.memory net r) : Accounted svc net' held where
  placed := by rw [hsent]; exact h.placed
  memory r := by rw [hmemory]; exact h.memory r
  belongs := h.belongs
  handed := by rw [hhanded]; exact h.handed

/-! ### What one step keeps -/

section Steps

variable {net : Net ι} {services : List Str} {held : Place ι → List (Nat × Request ι)}

/-- The system is in order. -/
def InOrder (svc : ι → Str) (services : List Str) (net : Net ι) : Prop :=
  net.Working services ∧ ∃ held, Accounted svc net held

omit [DecidableEq ι] in
theorem valid_of_mem (hw : net.Working services) (h : Accounted svc net held) {p : Place ι}
    {x : Nat × Request ι} (hx : x ∈ held p) : x.2.Valid services :=
  hw.valid _ (List.mem_of_getElem? (h.placed.entry p x hx))

omit [DecidableEq ι] in
theorem relayable_frames {r : Request ι} (hr : r.Valid services) :
    Relayable [mqReq, r.tgsvc, r.tag.mem, r.body] :=
  relayable_request r.tag (Nat.lt_trans hr.tgsvc.fits (by decide)) hr.fits

omit [DecidableEq ι] in
/-- The parts in a slot are not changed by its relays. -/
theorem bufferedPart_held (hw : net.Working services) (h : Accounted svc net held) {p : Place ι}
    (hp : ∀ r : Request ι, r.Valid services → Relayable (frames svc p r)) :
    ∀ x ∈ memory net p, bufferedPart x = x := by
  rw [h.memory]
  refine bufferedPart_of_mem fun m hm => ?_
  obtain ⟨x, hx, rfl⟩ := List.mem_map.mp hm
  exact hp x.2 (valid_of_mem hw h hx)

/-- `mq_send_req` puts the request on the sender's socket. -/
theorem inOrder_send (hw : net.Working services) (h : Accounted svc net held) {r : Request ι}
    (hr : r.Valid services) : InOrder svc services (net.step svc (.send r)) := by
  have hhead : ∀ f ∈ [mqReq, r.tgsvc, r.tag.mem], f ≠ [] := by
    simpa using ⟨by decide, hr.tgsvc.nonempty, r.tag.mem_ne_nil⟩
  obtain ⟨hrc, hpush⟩ := sendFrames_free (hw.push r.sender).free hhead hr.nonempty
  have hpull := sendFrames_pull (net.client r.sender) [mqReq, r.tgsvc, r.tag.mem] r.body
  set c := (sendFrames (net.client r.sender) [mqReq, r.tgsvc, r.tag.mem] r.body).2 with hc
  have hstep :
      net.step svc (.send r) = { net.setClient r.sender c with sent := net.sent ++ [r] } := by
    simp only [Net.step, mqSendReq, hrc, if_true, ← hc]
  rw [hstep]
  constructor
  · have hclient := hw.setClient (p := r.sender) (c := c) (by rw [hpush]; exact (hw.push _).put _)
      (by rw [hpull]; exact hw.pull _)
    refine { hclient with valid := ?_ }
    intro x hx
    rcases List.mem_append.mp hx with hx | hx
    · exact hw.valid x hx
    · rw [List.mem_singleton.mp hx]
      exact hr
  · refine ⟨_, h.add (p := .push r.sender) (by simp) rfl rfl ?_ (fun q hq => ?_) rfl⟩
    · simp only [memory, Net.setClient, Function.update_self]
      rw [hpush, put_sent]
      simp [frames]
    · exact memory_setClient (fun heq => absurd heq hq) fun _ => by rw [hpull]

/-- A pipe carries a request from a process to the slot of its service. -/
theorem inOrder_toSlot (hw : net.Working services) (h : Accounted svc net held) (p : ι) :
    InOrder svc services (net.step svc (.toSlot p)) := by
  cases hd : (net.client p).zmqPush.deliver with
  | none =>
      simp only [Net.step, hd]
      exact ⟨hw, held, h⟩
  | some r =>
      obtain ⟨m, push⟩ := r
      obtain ⟨left, htake, rfl⟩ := deliver_some hd
      have hmem : (net.client p).zmqPush.sent ++ [] = streamAt svc (.push p) (held (.push p)) := by
        rw [List.append_nil]
        exact h.memory (.push p)
      obtain ⟨x, rest, hheld, rfl, hleft⟩ := takeMessage_stream (by simp [frames]) htake hmem
      rw [List.append_nil] at hleft
      simp only [Net.step, hd]
      have hslot := hw.slot (svc p)
      constructor
      · apply Net.Working.setSlot
        · apply Net.Working.setClient hw
          · exact hw.push p
          · exact hw.pull p
        · exact ⟨hslot.dealer, hslot.push, hslot.pub⟩
        · exact hw.name _
      · refine ⟨_, h.carry_first (.push p) (.slotUp (svc p)) hheld (by simp) (by simp) (by simp)
          rfl rfl ?_ ?_ ?_ ?_⟩
        · simpa [memory, Net.setClient, Net.setSlot, streamAt] using hleft
        · simp [memory, Net.setClient, Net.setSlot, In.arrive, frames]
        · intro r hr hr'
          refine (memory_setSlot ?_ ?_).trans (memory_setClient ?_ ?_)
          · exact fun heq => absurd heq hr'
          · exact fun _ => rfl
          · exact fun heq => absurd heq hr
          · exact fun _ => rfl
        · have hsender : x.2.sender = p := h.belongs (.push p) x (by rw [hheld]; simp)
          show svc x.2.sender = svc p
          rw [hsender]

omit [DecidableEq ι] in
/-- A relay of a slot moves parts between its sockets, and the slot holds what it held. -/
theorem inOrder_relay (hw : net.Working services) (h : Accounted svc net held) {s : Str}
    {slot : SvcSlot} (hready : slot.Ready) (hname : slot.svcName = s)
    (hup : slot.dealerOut.sent ++ slot.pull.queue
      = (net.slot s).dealerOut.sent ++ (net.slot s).pull.queue)
    (hdown : slot.push.sent ++ slot.dealerIn.queue
      = (net.slot s).push.sent ++ (net.slot s).dealerIn.queue) :
    InOrder svc services (net.setSlot s slot) :=
  ⟨hw.setSlot hready hname, held,
    h.same rfl rfl fun _ => memory_setSlot (fun _ => hup) fun _ => hdown⟩

/-- `ev_pull_to_dealer`, wherever its run ends. -/
theorem inOrder_pullToDealer (hw : net.Working services) (h : Accounted svc net held) (s : Str) :
    InOrder svc services (net.step svc (.pullToDealer s)) := by
  have hslot := hw.slot s
  have hpart := bufferedPart_held hw h (p := .slotUp s) fun r hr => relayable_frames hr
  have hqueue : ∀ x ∈ (net.slot s).pull.queue, bufferedPart x = x := fun x hx =>
    hpart x (List.mem_append_right _ hx)
  obtain ⟨hmem, hdealer⟩ := mqRelayCallback_stream hslot.dealer hqueue
  exact inOrder_relay hw h ⟨hdealer, hslot.push, hslot.pub⟩ (hw.name s) hmem rfl

/-- `ev_dealer_to_push`, wherever its run ends. -/
theorem inOrder_dealerToPush (hw : net.Working services) (h : Accounted svc net held) (s : Str) :
    InOrder svc services (net.step svc (.dealerToPush s)) := by
  have hslot := hw.slot s
  have hpart := bufferedPart_held hw h (p := .slotDown s) fun r hr x hx =>
    relayable_frames hr x (List.mem_of_mem_drop (i := 2) hx)
  have hqueue : ∀ x ∈ (net.slot s).dealerIn.queue, bufferedPart x = x := fun x hx =>
    hpart x (List.mem_append_right _ hx)
  obtain ⟨hmem, hpush⟩ := mqRelayCallback_stream hslot.push hqueue
  exact inOrder_relay hw h ⟨hslot.dealer, hpush, hslot.pub⟩ (hw.name s) rfl hmem

/-- A pipe carries a request from a slot to the router, which puts the slot's name in front. -/
theorem inOrder_toRouter (hw : net.Working services) (h : Accounted svc net held) (s : Str) :
    InOrder svc services (net.step svc (.toRouter s)) := by
  cases hd : (net.slot s).dealerOut.deliver with
  | none =>
      simp only [Net.step, hd]
      exact ⟨hw, held, h⟩
  | some r =>
      obtain ⟨m, dealer⟩ := r
      obtain ⟨left, htake, rfl⟩ := deliver_some hd
      obtain ⟨x, rest, hheld, rfl, hleft⟩ := takeMessage_stream (by simp [frames]) htake
        (h.memory (.slotUp s))
      have hslot := hw.slot s
      have hsender : svc x.2.sender = s := h.belongs (.slotUp s) x (by rw [hheld]; simp)
      simp only [Net.step, hd]
      constructor
      · apply Net.Working.setCtx
        · apply Net.Working.setSlot hw
          · exact ⟨hslot.dealer, hslot.push, hslot.pub⟩
          · exact hw.name s
        · rfl
        · rfl
        · exact hw.routerIn
      · refine ⟨_, h.carry_first (.slotUp s) .routerIn hheld (by simp) (by simp) (by simp)
          rfl rfl ?_ ?_ ?_ trivial⟩
        · simpa [memory, Net.setCtx, Net.setSlot, streamAt] using hleft
        · simp [memory, Net.setCtx, In.arrive, frames, fromPeer, hw.name, hsender]
        · intro r hr hr'
          refine (memory_setCtx ?_ ?_).trans (memory_setSlot ?_ ?_)
          · exact fun heq => absurd heq hr'
          · exact fun _ => rfl
          · exact fun heq => absurd heq hr
          · exact fun _ => rfl

/-- `router_callback` sends on as many of the requests as its limit allows. -/
theorem inOrder_router (hw : net.Working services) (h : Accounted svc net held) :
    InOrder svc services (net.step svc .router) := by
  have hout := h.memory .routerOut
  have hidle : net.ctx.routerOut.Idle fun s => services.contains s := by
    refine ⟨hw.router, isOpen_stream ?_ hout, hw.results⟩
    intro m hm
    obtain ⟨x, -, rfl⟩ := List.mem_map.mp hm
    simp [frames]
  have hin : (routerEnter net.ctx).ctx.routerIn = In.holding ((held .routerIn).map fun x =>
      svc x.2.sender :: mqReq :: frames svc .routerOut x.2) :=
    eq_holding (h.memory .routerIn) hw.routerIn
  have hrun := routerLoop_known 1000 (held .routerIn) (s := routerEnter net.ctx) hidle (by
    intro x hx
    have hvalid := valid_of_mem hw h hx
    refine ⟨x.2.tgsvc, [x.2.tag.mem, x.2.body], rfl, by simp, ?_, ?_⟩
    · exact fun f hf => relayable_frames hvalid f (List.mem_cons_of_mem _ hf)
    · simpa using hvalid.known) hin
  have hstep : net.step svc .router = net.setCtx { net.ctx with
      routerIn := In.holding (((held .routerIn).drop 1000).map fun x =>
        svc x.2.sender :: mqReq :: frames svc .routerOut x.2)
      routerOut := net.ctx.routerOut.put (stream (((held .routerIn).take 1000).map fun x =>
        frames svc .routerOut x.2)) } := by
    rw [Net.step, routerCallback, hrun]
    rfl
  rw [hstep]
  constructor
  · exact hw.setCtx rfl rfl rfl
  · refine ⟨_, h.carry .routerIn .routerOut ((held .routerIn).take 1000)
      ((held .routerIn).drop 1000) (by simp) (by simp) (by simp)
      (by rw [List.take_append_drop]) rfl rfl rfl rfl ?_ ?_⟩
    · intro r hr hr'
      exact memory_setCtx (fun heq => absurd heq hr) fun heq => absurd heq hr'
    · exact fun _ _ => trivial

/-- The router's pipe carries a request to the slot its first frame names. -/
theorem inOrder_toDealer (hw : net.Working services) (h : Accounted svc net held) (s : Str) :
    InOrder svc services (net.step svc (.toDealer s)) := by
  cases hd : net.ctx.routerOut.deliverTo (net.slot s).svcName with
  | none =>
      simp only [Net.step, hd]
      exact ⟨hw, held, h⟩
  | some r =>
      obtain ⟨m, out⟩ := r
      obtain ⟨x, rest, hperm, hhead, rfl, rfl⟩ := deliverTo_stream (by simp [frames])
        (h.memory .routerOut) hd
      have hslot := hw.slot s
      have htgsvc : x.2.tgsvc = s := by
        rw [hw.name] at hhead
        exact hhead
      simp only [Net.step, hd]
      constructor
      · apply Net.Working.setCtx
        · apply Net.Working.setSlot hw
          · exact ⟨hslot.dealer, hslot.push, hslot.pub⟩
          · exact hw.name s
        · rfl
        · rfl
        · exact hw.routerIn
      · refine ⟨_, h.carry .routerOut (.slotDown s) [x] rest (by simp) (by simp) (by simp) hperm
          rfl rfl rfl ?_ ?_ ?_⟩
        · simp [memory, Net.setCtx, Net.setSlot, In.arrive, streamAt, frames]
        · intro r hr hr'
          refine (memory_setCtx ?_ ?_).trans (memory_setSlot ?_ ?_)
          · exact fun _ => rfl
          · exact fun heq => absurd heq hr
          · exact fun _ => rfl
          · exact fun heq => absurd heq hr'
        · intro y hy
          obtain rfl := List.mem_singleton.mp hy
          exact htgsvc

/-- A pipe carries a request from a slot to one of the service's processes. -/
theorem inOrder_toProcess (hw : net.Working services) (h : Accounted svc net held) (p : ι) :
    InOrder svc services (net.step svc (.toProcess p)) := by
  cases hd : (net.slot (svc p)).push.deliver with
  | none =>
      simp only [Net.step, hd]
      exact ⟨hw, held, h⟩
  | some r =>
      obtain ⟨m, push⟩ := r
      obtain ⟨left, htake, rfl⟩ := deliver_some hd
      obtain ⟨x, rest, hheld, rfl, hleft⟩ := takeMessage_stream (by simp [frames]) htake
        (h.memory (.slotDown (svc p)))
      have hslot := hw.slot (svc p)
      simp only [Net.step, hd]
      constructor
      · apply Net.Working.setClient
        · apply Net.Working.setSlot hw
          · exact ⟨hslot.dealer, hslot.push, hslot.pub⟩
          · exact hw.name _
        · exact hw.push p
        · exact hw.pull p
      · refine ⟨_, h.carry_first (.slotDown (svc p)) (.pull p) hheld (by simp) (by simp) (by simp)
          rfl rfl ?_ ?_ ?_ ?_⟩
        · simpa [memory, Net.setClient, Net.setSlot, streamAt] using hleft
        · simp [memory, Net.setClient, In.arrive, frames]
        · intro r hr hr'
          refine (memory_setClient ?_ ?_).trans (memory_setSlot ?_ ?_)
          · exact fun _ => rfl
          · exact fun heq => absurd heq hr'
          · exact fun _ => rfl
          · exact fun heq => absurd heq hr
        · exact h.belongs (.slotDown (svc p)) x (by rw [hheld]; simp)

omit [DecidableEq ι] in
theorem pull_holding (hw : net.Working services) (h : Accounted svc net held) (p : ι) :
    (net.client p).zmqPull
      = In.holding ((held (.pull p)).map fun x => frames svc (.pull p) x.2) :=
  eq_holding (h.memory (.pull p)) (hw.pull p)

/-- `mq_recv_req` takes the request that came first. -/
theorem inOrder_recv (hw : net.Working services) (h : Accounted svc net held) (p : ι) (into : MqTag)
    (buf : List Byte) : InOrder svc services (net.step svc (.recv p into buf)) := by
  have hpull := pull_holding hw h p
  cases hheld : held (.pull p) with
  | nil =>
      have hrecv : mqRecvReq (net.client p) into buf = ⟨-1, net.client p, into, buf⟩ := by
        rw [hheld, List.map_nil] at hpull
        rw [mqRecvReq, hpull, recv_holding_nil]
      have hstep : net.step svc (.recv p into buf) = net := by
        simp [Net.step, hrecv, Net.setClient]
      rw [hstep]
      exact ⟨hw, held, h⟩
  | cons x rest =>
      have hin : x ∈ held (.pull p) := by rw [hheld]; simp
      have hvalid := valid_of_mem hw h hin
      have hfront : (net.client p).zmqPull = In.holding ([x.2.tag.mem, x.2.body] ::
          rest.map fun y => frames svc (.pull p) y.2) := by
        rw [hpull, hheld]
        rfl
      have hrecv : mqRecvReq (net.client p) into buf = ⟨0, _, _, _⟩ :=
        mqRecvReq_holding hfront hvalid.nonempty buf
      obtain ⟨c, hc⟩ : ∃ c : ClientSock, c = { net.client p with
          zmqPull := In.holding (rest.map fun x => frames svc (.pull p) x.2)
          sndrcv := countRecv (net.client p).sndrcv x.2.body.length } := ⟨_, rfl⟩
      have hstep : net.step svc (.recv p into buf) = { net.setClient p c with
          handed := Function.update net.handed p
            (net.handed p ++ [⟨buf, x.2.tag, store buf 0 x.2.body⟩]) } := by
        simp only [Net.step, hrecv, if_true, hc]
      have hclient : (net.setClient p c).Working services :=
        hw.setClient (by rw [hc]; exact hw.push p) (by rw [hc]; rfl)
      rw [hstep]
      constructor
      · exact { hclient with }
      · refine ⟨_, h.move (p := .pull p) (q := .handed p) (by simp)
          (by rw [hheld]; exact List.Perm.refl ([x] ++ rest)) rfl ?_ ?_ ?_ ?_ ?_⟩
        · show (Function.update net.client p c p).zmqPull.queue = _
          rw [Function.update_self, hc]
          rfl
        · rfl
        · intro r hr _
          exact memory_setClient (fun _ => by rw [hc]) fun heq => absurd heq hr
        · intro y hy
          obtain rfl := List.mem_singleton.mp hy
          exact h.belongs (.pull p) y hin
        · intro r
          by_cases hr : r = p
          · subst hr
            simp only [Function.update_self, Placed.moved, List.map_append]
            refine List.rel_append (h.handed r) (List.Forall₂.cons ⟨rfl, ?_⟩ List.Forall₂.nil)
            exact fun hlen => store_front hlen
          · have hne : Place.handed r ≠ Place.handed p := by simpa using hr
            rw [Placed.moved_of_ne held (by simp) hne]
            simpa [hr] using h.handed r

/-- **Whatever happens, the system stays in order.** -/
theorem inOrder_step (h : InOrder svc services net) {e : NetStep ι} (he : e.Valid services) :
    InOrder svc services (net.step svc e) := by
  obtain ⟨hw, held, hheld⟩ := h
  cases e with
  | send r => exact inOrder_send hw hheld he
  | toSlot p => exact inOrder_toSlot hw hheld p
  | pullToDealer s => exact inOrder_pullToDealer hw hheld s
  | toRouter s => exact inOrder_toRouter hw hheld s
  | router => exact inOrder_router hw hheld
  | toDealer s => exact inOrder_toDealer hw hheld s
  | dealerToPush s => exact inOrder_dealerToPush hw hheld s
  | toProcess p => exact inOrder_toProcess hw hheld p
  | recv p into buf => exact inOrder_recv hw hheld p into buf

end Steps

/-! ### Runs -/

omit [DecidableEq ι] in
/-- The system in the beginning is in order. -/
theorem inOrder_start (services : List Str) (interhub : Bool) (conn : ι → Int × Bool × Str) :
    InOrder svc services (Net.start services interhub conn) := by
  constructor
  · exact ⟨fun _ => steady_pipe rfl rfl, fun _ => rfl, SvcSlot.ready_connect, fun _ => rfl,
      rfl, rfl, rfl, by simp [Net.start]⟩
  · refine ⟨fun _ => [], Placed.empty, ?_, by simp, fun _ => List.Forall₂.nil⟩
    intro p
    cases p <;> rfl

omit [DecidableEq ι] in
theorem frames_ne_nil {p : Place ι} (hp : ∀ r, p ≠ .handed r) (r : Request ι) :
    frames svc p r ≠ [] := by
  cases p with
  | handed q => exact absurd rfl (hp q)
  | _ => simp [frames]

/-- All queues are drained. -/
def Net.Drained (net : Net ι) : Prop := ∀ p, memory net p = []

omit [DecidableEq ι] in
theorem held_of_drained {net : Net ι} {held : Place ι → List (Nat × Request ι)}
    (h : Accounted svc net held) (hdrained : net.Drained) {p : Place ι} (hp : ∀ r, p ≠ .handed r) :
    held p = [] := by
  have hmem := h.memory p
  rw [hdrained p, streamAt] at hmem
  have hne : ∀ m ∈ (held p).map fun x => frames svc p x.2, m ≠ [] := by
    intro m hm
    obtain ⟨x, -, rfl⟩ := List.mem_map.mp hm
    exact frames_ne_nil hp x.2
  have hlen := length_le_stream hne
  rw [← hmem, List.length_map] at hlen
  exact List.length_eq_zero_iff.mp (Nat.le_zero.mp hlen)

/-- **In every state of every run each request that was sent is in one place, where it
belongs, and nowhere altered; once all queues are drained it was handed to one process, which
is of the service it is for.** -/
theorem local_delivery (svc : ι → Str) (services : List Str) (interhub : Bool)
    (conn : ι → Int × Bool × Str) (es : List (NetStep ι)) (h : ∀ e ∈ es, e.Valid services) :
    ∀ net ∈ states (Net.step svc) (Net.start services interhub conn) es,
      ∃ held, Accounted svc net held ∧
        (∀ k r, net.sent[k]? = some r → ∃! p, (k, r) ∈ held p) ∧
        (net.Drained → ∀ k r, net.sent[k]? = some r →
          ∃ p, svc p = r.tgsvc ∧ (k, r) ∈ held (.handed p)) := by
  have hsteps : AllSteps (Net.step svc) (fun _ e => e.Valid services)
      (Net.start services interhub conn) es := AllSteps.of_forall h _
  have hinv : ∀ net ∈ states (Net.step svc) (Net.start services interhub conn) es,
      InOrder svc services net :=
    states_inv (fun _ _ hs he => inOrder_step hs he) es (inOrder_start services interhub conn)
      hsteps
  intro net hnet
  obtain ⟨-, held, hheld⟩ := hinv net hnet
  refine ⟨held, hheld, fun k r hk => hheld.placed.unique hk, ?_⟩
  intro hdrained k r hk
  obtain ⟨p, hp⟩ := hheld.placed.somewhere (k, r) hk
  by_cases hhanded : ∃ q, p = .handed q
  · obtain ⟨q, rfl⟩ := hhanded
    exact ⟨q, (hheld.belongs _ _ hp).symm, hp⟩
  · rw [held_of_drained hheld hdrained fun q hq => hhanded ⟨q, hq⟩] at hp
    exact absurd hp List.not_mem_nil

end System

/-- A process of `AHIF` asks one of `PSIB`. -/
def askPsib : List (NetStep Bool) :=
  [.send ⟨false, MqTag.zero, lit "PSIB", lit "hi"⟩, .toSlot false, .pullToDealer (lit "AHIF"),
    .toRouter (lit "AHIF"), .router, .toDealer (lit "PSIB"), .dealerToPush (lit "PSIB"),
    .toProcess true, .recv true MqTag.zero (zeros 4)]

theorem local_delivery_psib :
    let svc : Bool → Str := fun p => if p then lit "PSIB" else lit "AHIF"
    let net := askPsib.foldl (Net.step svc)
      (Net.start [lit "AHIF", lit "PSIB"] false fun _ => (0, true, []))
    (∃ held, Accounted svc net held) ∧
      (net.handed true).map Handed.buf = [lit "hi" ++ zeros 2] := by
  intro svc net
  have hvalid : ∀ e ∈ askPsib, e.Valid [lit "AHIF", lit "PSIB"] := by
    have hrequest : (⟨false, MqTag.zero, lit "PSIB", lit "hi"⟩ : Request Bool).Valid
        [lit "AHIF", lit "PSIB"] :=
      ⟨⟨by decide, by decide, by decide⟩, by decide, by decide, by decide⟩
    simp [askPsib, NetStep.Valid, hrequest]
  obtain ⟨held, hheld, -, -⟩ := local_delivery svc _ _ _ askPsib hvalid net (foldl_mem_states _ _)
  exact ⟨⟨held, hheld⟩, by decide +kernel⟩

end Brocoli
