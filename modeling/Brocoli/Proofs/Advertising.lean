/-
Which registrations are passed on.

A broker passes a registration on to the hub, and the hub to its threads, before it looks
whether it accepts it.  So one that is refused is passed on as well, and enters the trees
the threads look services up in.  A registration is accepted when a slot serves it already,
or when one is free and no other is in its way: at the broker none with its port, at the
hub none with its host.  At the hub it must also fit the slot: the id of a broker is
written over the first byte of its name when it does not end before it.
-/
import Brocoli.Proofs.HubSub
import Brocoli.Registry

namespace Brocoli.Broker

open CMem Multipart

/-! ### A broker -/

/-- A slot in use has the name and the port decade of the registration. -/
def Served (s : Registry) (svcRegi : MqRegi) : Prop :=
  ∃ i, (s.svcCtx i).used = true ∧ (s.svcCtx i).svcName = svcRegi.tagSvc ∧
    (s.svcCtx i).svcStartPort = toShort (svcRegi.port.tdiv 10 * 10)

/-- The registration has its slot, or its port is not served and there is a slot left. -/
def Acceptable (s : Registry) (svcRegi : MqRegi) : Prop :=
  Served s svcRegi ∨
    (∀ i, (s.svcCtx i).used = true →
      (s.svcCtx i).svcStartPort ≠ toShort (svcRegi.port.tdiv 10 * 10)) ∧
    ∃ i, (s.svcCtx i).used = false

/-- **A registration is served afterwards exactly when it was acceptable.** -/
theorem served_chkSvcDealer (s : Registry) (svcRegi : MqRegi) (clock : Nat → Time) :
    Served (chkSvcDealer s svcRegi clock) svcRegi ↔ Acceptable s svcRegi := by
  rcases chkSvcDealer_cases s svcRegi clock with ⟨i, htakes, heq⟩ | ⟨i, hhits, heq⟩ |
    ⟨hrefused, heq⟩
  · rw [heq]
    refine iff_of_true ⟨i, ?_⟩ (Or.inr ⟨htakes.port, i, htakes.free⟩)
    simp [afterTake, setSvcSlot]
  · rw [heq]
    exact iff_of_true ⟨i, hhits.used, hhits.name, hhits.port⟩
      (Or.inl ⟨i, hhits.used, hhits.name, hhits.port⟩)
  · -- no slot changes, and none can be taken
    rw [heq]
    refine ⟨Or.inl, fun h => h.resolve_right fun hcan => ?_⟩
    rcases hrefused with ⟨i, hused, hport, -⟩ | ⟨-, hall⟩
    · exact hcan.1 i hused hport
    · obtain ⟨i, hi⟩ := hcan.2
      exact absurd (hall i) (by simp [hi])

/-- The frame of a registration, with what the broker adds to it. -/
def forwarded (progname : Str) (pid : Nat) (f : Frame) (peerAddress : Str) : MqRegi :=
  (addPeer (MqRegi.zero.recv f) peerAddress).setBrokerName (resTagName progname pid)

/-- A registration that is being handled: the state of the broker, and the frame that is
next on its subscriber. -/
structure Handling where
  ctx : RegiCtx
  isPub : ∀ pub ∈ ctx.zmqPubToInterhub, pub.kind = .pub
  frame : Frame
  sub : In
  received : ctx.zmqSub.recv = some (frame, sub)
  progname : Str
  pid : Nat
  peerAddress : Str
  clock : Nat → Time

namespace Handling

/-- The broker when `regi_action` returns. -/
def after (o : Handling) : RegiCtx :=
  (regiAction o.progname o.pid o.ctx mqReg o.peerAddress o.clock).2

def svcRegi (o : Handling) : MqRegi := forwarded o.progname o.pid o.frame o.peerAddress

/-- The registration was sent to the hub. -/
def Advertised (o : Handling) (svcRegi : MqRegi) : Prop :=
  ∃ pub pub', o.ctx.zmqPubToInterhub = some pub ∧ o.after.zmqPubToInterhub = some pub' ∧
    [mqReg, svcRegi.mem] ∈ pub.since pub'

/-- Every registration that was sent to the hub is served. -/
def Backed (o : Handling) : Prop :=
  ∀ svcRegi, o.Advertised svcRegi → Served o.after.registry svcRegi

/-- There is no hub, or the registration is acceptable. -/
def Clear (o : Handling) : Prop :=
  o.ctx.zmqPubToInterhub = none ∨ Acceptable o.ctx.registry o.svcRegi

theorem backed_iff (o : Handling) : o.Backed ↔ o.Clear := by
  cases hout : o.ctx.zmqPubToInterhub with
  | none =>
      refine iff_of_true (fun svcRegi hadv => ?_) (Or.inl hout)
      obtain ⟨pub, -, hbefore, -⟩ := hadv
      rw [hout] at hbefore
      exact absurd hbefore (by simp)
  | some pub =>
      have hkind := o.isPub pub (by simp [hout])
      have hafter : o.after = ⟨o.sub, some (sendRegi pub o.svcRegi),
          chkSvcDealer o.ctx.registry o.svcRegi o.clock⟩ := by
        simp [after, regiAction, o.received, hout, svcRegi, forwarded]
      have hsince : pub.since (sendRegi pub o.svcRegi) = [[mqReg, o.svcRegi.mem]] := by
        rw [sendRegi_eq hkind]
        exact since_put_parts pub (by simp)
      have hadv : ∀ r, o.Advertised r ↔ r = o.svcRegi := by
        intro r
        rw [Advertised, hafter]
        constructor
        · rintro ⟨p, p', hp, hp', hmem⟩
          rw [hout] at hp
          obtain rfl := Option.some.inj hp
          obtain rfl := Option.some.inj hp'
          rw [hsince] at hmem
          exact MqRegi.ext' (by simpa using hmem)
        · rintro rfl
          exact ⟨pub, _, hout, rfl, by rw [hsince]; simp⟩
      simp only [Backed, Clear, hadv, forall_eq, hout, reduceCtorEq, false_or]
      rw [hafter]
      exact served_chkSvcDealer o.ctx.registry o.svcRegi o.clock

end Handling

end Brocoli.Broker

namespace Brocoli.Hub

open CMem Multipart NTree Runs

/-! ### The hub -/

/-- A slot in use has the host and the name of the broker. -/
def Served (s : Registry) (svcRegi : MqRegi) : Prop :=
  ∃ i, Serves s svcRegi i ∧ (s.brokerCtx i).brokerName = svcRegi.brokerName

/-- The broker has its slot, or its host has none, there is a slot left, and the id fits
it. -/
def Acceptable (s : Registry) (svcRegi : MqRegi) : Prop :=
  Served s svcRegi ∨
    (∀ i, ¬ Serves s svcRegi i) ∧ (∃ i, (s.brokerCtx i).used = false) ∧
      (brokerIdOf svcRegi).length < 48

/-- A slot whose id is too long for it has lost its name: what is left there is the end of
the id, which is shorter. -/
theorem brokerName_spilled {svcRegi : MqRegi} (hhost : svcRegi.brokerHost.length < 24)
    (hid : 48 ≤ (brokerIdOf svcRegi).length) (id : Nat) (b : BrokerCtx) :
    (setBrokerSlot id svcRegi b).brokerName ≠ svcRegi.brokerName := by
  have hlen := length_brokerIdOf svcRegi
  set names := (b.names.put 96 (svcRegi.brokerHost ++ [0])).put 48 (svcRegi.brokerName ++ [0])
  have hsize := names.size
  intro heq
  have hshort : (cstr ((store names.mem 0 (brokerIdOf svcRegi ++ [0])).drop 48)).length
      < svcRegi.brokerName.length := by
    by_cases hfits : (brokerIdOf svcRegi).length < 120
    · have hfits' : (brokerIdOf svcRegi ++ [0]).length ≤ names.mem.length := by
        simp
        omega
      rw [store_front hfits', List.append_assoc, List.drop_append_of_le_length hid]
      have hle := length_cstr_append_zero_le ((brokerIdOf svcRegi).drop 48)
        (names.mem.drop (brokerIdOf svcRegi ++ [0]).length)
      rw [List.length_drop] at hle
      refine Nat.lt_of_le_of_lt hle ?_
      omega
    · have hle := length_cstr_le ((store names.mem 0 (brokerIdOf svcRegi ++ [0])).drop 48)
      rw [List.length_drop, length_store, hsize] at hle
      omega
  exact absurd (congrArg List.length heq) (Nat.ne_of_lt hshort)

/-- A slot is what was registered exactly when the id fits. -/
theorem names_setBrokerSlot {svcRegi : MqRegi} (hhost : svcRegi.brokerHost.length < 24)
    (id : Nat) (b : BrokerCtx) :
    ((setBrokerSlot id svcRegi b).brokerHost = svcRegi.brokerHost ∧
      (setBrokerSlot id svcRegi b).brokerName = svcRegi.brokerName) ↔
      (brokerIdOf svcRegi).length < 48 := by
  constructor
  · intro h
    by_contra hlong
    exact brokerName_spilled hhost (by omega) id b h.2
  · intro hid
    have hlen := length_brokerIdOf svcRegi
    set names96 := b.names.put 96 (svcRegi.brokerHost ++ [0]) with h96
    set names48 := names96.put 48 (svcRegi.brokerName ++ [0]) with h48
    have hsize := b.names.size
    have hsize96 := names96.size
    have hsize48 := names48.size
    constructor
    · show cstr ((store names48.mem 0 (brokerIdOf svcRegi ++ [0])).drop 96) = _
      rw [drop_store (by simp; omega) (by simp; omega), h48, Buf.put_mem,
        drop_store (by simp; omega) (by simp; omega), h96, Buf.put_mem]
      exact cstr_drop_store (zero_notMem_cstr _) (by omega)
    · show cstr ((store names48.mem 0 (brokerIdOf svcRegi ++ [0])).drop 48) = _
      rw [drop_store (by simp; omega) (by simp; omega), h48, Buf.put_mem]
      exact cstr_drop_store (zero_notMem_cstr _) (by omega)

/-- **A registration is served afterwards exactly when it was acceptable.** -/
theorem served_chkSvcBroker (s : Registry) {svcRegi : MqRegi}
    (hhost : svcRegi.brokerHost.length < 24) (clock : Nat → Time) :
    Served (chkSvcBroker s svcRegi clock).2 svcRegi ↔ Acceptable s svcRegi := by
  rcases chkSvcBroker_cases s svcRegi clock with ⟨k, htakes, heq⟩ | ⟨k, hhits, heq⟩ |
    ⟨hrefused, heq⟩
  · have hnone : ∀ i, ¬ Serves s svcRegi i := fun i hi => htakes.host i hi.1 hi.2
    have hsame : Acceptable s svcRegi ↔ (brokerIdOf svcRegi).length < 48 := by
      have hnot : ¬ Served s svcRegi := by
        rintro ⟨i, hi, -⟩
        exact hnone i hi
      rw [Acceptable, or_iff_right hnot, and_iff_right hnone, and_iff_right ⟨k, htakes.free⟩]
    rw [heq, hsame, ← names_setBrokerSlot hhost k (s.brokerCtx k)]
    constructor
    · rintro ⟨i, ⟨hused, hi⟩, hname⟩
      by_cases hik : i = k
      · subst hik
        exact ⟨by simpa [afterTake] using hi, by simpa [afterTake] using hname⟩
      · refine absurd ⟨?_, ?_⟩ (hnone i)
        · simpa [afterTake, hik] using hused
        · simpa [afterTake, hik] using hi
    · rintro ⟨hi, hname⟩
      exact ⟨k, ⟨by simp [afterTake, setBrokerSlot], by simpa [afterTake] using hi⟩,
        by simpa [afterTake] using hname⟩
  · rw [heq]
    exact iff_of_true ⟨k, hhits.serves, hhits.name⟩ (Or.inl ⟨k, hhits.serves, hhits.name⟩)
  · -- no slot changes, and none can be taken
    rw [heq]
    refine ⟨Or.inl, fun h => h.resolve_right fun hcan => ?_⟩
    rcases hrefused with ⟨i, hi⟩ | hall
    · exact hcan.1 i hi
    · obtain ⟨i, hi⟩ := hcan.2.1
      exact absurd (hall i) (by simp [hi])

/-- The registration was sent to the threads. -/
def Advertised (before after : RegiCtx) (svcRegi : MqRegi) : Prop :=
  [mqReg, svcRegi.mem] ∈ before.zmqPubToXsub.since after.zmqPubToXsub

/-- Every registration that was sent to the threads is of a broker with a slot. -/
def Backed (before after : RegiCtx) : Prop :=
  ∀ svcRegi, Advertised before after svcRegi → Served after.registry svcRegi

/-- The frame of a registration, with the address it came from. -/
def forwarded (f : Frame) (peerAddress : Str) : MqRegi :=
  (MqRegi.zero.recv f).setBrokerHost peerAddress

/-- A peer address in text, which fits the field it is written to. -/
structure IsPeer (peerAddress : Str) : Prop where
  address : IsAddress peerAddress
  terminated : (0 : Byte) ∉ peerAddress
  fits : peerAddress.length < 24

theorem brokerHost_forwarded {peerAddress : Str} (h : IsPeer peerAddress) (f : Frame) :
    (forwarded f peerAddress).brokerHost = peerAddress :=
  MqRegi.brokerHost_setBrokerHost _ h.terminated (Nat.lt_trans h.fits (by decide))

theorem tagSvc_forwarded {peerAddress : Str} (h : IsPeer peerAddress) (svcRegi : MqRegi) :
    (forwarded svcRegi.mem peerAddress).tagSvc = svcRegi.tagSvc := by
  have hfits := h.fits
  have hsize := svcRegi.size
  rw [forwarded, MqRegi.recv_mem]
  show cstr ((store svcRegi.mem 0 (peerAddress ++ [0])).drop 145) = _
  rw [drop_store (by simp; omega) (by simp; omega)]
  rfl

theorem regiAction_eq {ctx : RegiCtx} (hpub : ctx.zmqPubToXsub.kind = .pub) {f : Frame} {sub : In}
    (hsub : ctx.zmqSubFromBroker.recv = some (f, sub)) (peerAddress : Str) (clock : Nat → Time) :
    (regiAction ctx mqReg peerAddress clock).2
      = ⟨sub, ctx.zmqPubToXsub.put (parts [mqReg, (forwarded f peerAddress).mem]),
          (chkSvcBroker ctx.registry (forwarded f peerAddress) clock).2⟩ := by
  simp only [regiAction, hsub, if_true, ← sendRegi_eq hpub]
  rfl

theorem backed_iff {ctx : RegiCtx} (hpub : ctx.zmqPubToXsub.kind = .pub) {f : Frame} {sub : In}
    (hsub : ctx.zmqSubFromBroker.recv = some (f, sub)) {peerAddress : Str}
    (hpeer : IsPeer peerAddress) (clock : Nat → Time) :
    Backed ctx (regiAction ctx mqReg peerAddress clock).2 ↔
      Acceptable ctx.registry (forwarded f peerAddress) := by
  have hadv : ∀ r, Advertised ctx (regiAction ctx mqReg peerAddress clock).2 r ↔
      r = forwarded f peerAddress := by
    intro r
    rw [Advertised, regiAction_eq hpub hsub, since_put_parts _ (by simp)]
    constructor
    · intro hmem
      exact MqRegi.ext' (by simpa using hmem)
    · rintro rfl
      simp
  have hhost : (forwarded f peerAddress).brokerHost.length < 24 := by
    rw [brokerHost_forwarded hpeer]
    exact hpeer.fits
  simp only [Backed, hadv, forall_eq]
  rw [regiAction_eq hpub hsub]
  exact served_chkSvcBroker ctx.registry hhost clock

/-! ### What the threads find -/

/-- A registration that arrives at the hub. -/
structure Arrival where
  frame : Frame
  peerAddress : Str
  clock : Nat → Time

def Arrival.svcRegi (e : Arrival) : MqRegi := forwarded e.frame e.peerAddress

/-- `regi_action`, when the topic has been read. -/
def arrive (ctx : RegiCtx) (e : Arrival) : RegiCtx :=
  (regiAction { ctx with zmqSubFromBroker := ⟨[⟨e.frame, false⟩], true⟩ } mqReg e.peerAddress
    e.clock).2

theorem arrive_eq {ctx : RegiCtx} (hpub : ctx.zmqPubToXsub.kind = .pub) (e : Arrival) :
    arrive ctx e = ⟨⟨[], false⟩, ctx.zmqPubToXsub.put (parts [mqReg, e.svcRegi.mem]),
      (chkSvcBroker ctx.registry e.svcRegi e.clock).2⟩ := by
  set c : RegiCtx := { ctx with zmqSubFromBroker := ⟨[⟨e.frame, false⟩], true⟩ }
  have hc : c.zmqPubToXsub.kind = .pub := hpub
  exact regiAction_eq hc rfl e.peerAddress e.clock

/-- Every registration is published, accepted or not. -/
theorem foldl_arrive_pub : ∀ (es : List Arrival) {ctx : RegiCtx}, ctx.zmqPubToXsub.kind = .pub →
    (es.foldl arrive ctx).zmqPubToXsub
      = ctx.zmqPubToXsub.put (stream (es.map fun e => [mqReg, e.svcRegi.mem])) := by
  intro es
  induction es with
  | nil => intro ctx _; simp
  | cons e es ih =>
      intro ctx hpub
      have harrive := arrive_eq hpub e
      rw [List.foldl_cons, ih (by rw [harrive]; exact hpub), harrive, put_put, List.map_cons,
        stream_cons]

/-- A thread with what the hub has published on its subscriber. -/
def hearing (t : BrokerThread) (before after : RegiCtx) : BrokerThread :=
  { t with zmqSub := In.holding (before.zmqPubToXsub.since after.zmqPubToXsub) }

theorem hearing_eq {ctx : RegiCtx} (hpub : ctx.zmqPubToXsub.kind = .pub) (t : BrokerThread)
    (es : List Arrival) :
    hearing t ctx (es.foldl arrive ctx) = subWaiting t (es.map fun e => .regi e.svcRegi) := by
  have hsince : ctx.zmqPubToXsub.since (es.foldl arrive ctx).zmqPubToXsub
      = es.map fun e => [mqReg, e.svcRegi.mem] := by
    refine since_of_sent ?_ ?_
    · intro m hm
      obtain ⟨e, -, rfl⟩ := List.mem_map.mp hm
      simp
    · rw [foldl_arrive_pub es hpub]
      rfl
  rw [hearing, hsince, subWaiting, List.map_map]
  rfl

/-- What happens at the hub and in a thread: registrations arrive and the thread hears what the
hub has published of them, or the thread's timer is due. -/
inductive ThreadStep where
  | hear (es : List Arrival)
  | sweep (current : Time)

def ThreadStep.arrivals : ThreadStep → List Arrival
  | .hear es => es
  | .sweep _ => []

def threadStep (time : Nat → Time) (s : RegiCtx × BrokerThread) :
    ThreadStep → RegiCtx × BrokerThread
  | .hear es =>
      let ctx := es.foldl arrive s.1
      (ctx, brokerSubCallback time (hearing s.2 s.1 ctx))
  | .sweep current => (s.1, { s.2 with rootNode := removeSmalltreeCallback s.2.rootNode current })

/-- The thread can hear the hub, and its tree says only what is so. -/
structure Informed (P : Str → Str → Prop) (s : RegiCtx × BrokerThread) : Prop where
  pub : s.1.zmqPubToXsub.kind = .pub
  id : IsBrokerId s.2.brokerId
  dealer : s.2.zmqDealerOut.Steady
  entries : Entries P s.2.rootNode

theorem informed_foldl {P : Str → Str → Prop} (time : Nat → Time) {ctx : RegiCtx} :
    ∀ (rs : List MqRegi) {t : BrokerThread}, Informed P (ctx, t) →
      (∀ r ∈ rs, P (brokerIdOf r) r.tagSvc) →
      Informed P (ctx, (rs.map SubMsg.regi).foldl (handle time) t) := by
  intro rs
  induction rs with
  | nil => intro t h _; exact h
  | cons r rs ih =>
      intro t h hrs
      refine ih ?_ fun x hx => hrs x (by simp [hx])
      exact ⟨h.pub, h.id, h.dealer, entries_chkSmallTree h.entries (hrs r (by simp)) _ _⟩

/-- A thread that hears registrations only hears them all. -/
theorem brokerSubCallback_regis (time : Nat → Time) {t : BrokerThread} (hid : IsBrokerId t.brokerId)
    (hdealer : t.zmqDealerOut.Steady) {rs : List MqRegi} (hrs : ∀ r ∈ rs, IsAddress r.brokerHost) :
    brokerSubCallback time (subWaiting t (rs.map SubMsg.regi))
      = subWaiting ((rs.map SubMsg.regi).foldl (handle time) t) [] := by
  have hfits : ∀ m ∈ rs.map SubMsg.regi, m.Fits := by
    intro m hm
    obtain ⟨r, hr, rfl⟩ := List.mem_map.mp hm
    exact hrs r hr
  have hheard : heard t.brokerId false (rs.map SubMsg.regi) = rs.map SubMsg.regi := by
    refine heard_eq ⟨by simp, Or.inr (List.pairwise_of_forall_mem_list ?_)⟩
    intro m hm n _ hregi
    obtain ⟨r, -, rfl⟩ := List.mem_map.mp hm
    exact absurd hregi (by simp [SubMsg.isRegi])
  rw [brokerSubCallback_eq time hid hdealer hfits, hheard]

theorem informed_threadStep {P : Str → Str → Prop} (time : Nat → Time) {s : RegiCtx × BrokerThread}
    (h : Informed P s) {e : ThreadStep}
    (he : ∀ a ∈ e.arrivals, IsPeer a.peerAddress ∧ P (brokerIdOf a.svcRegi) a.svcRegi.tagSvc) :
    Informed P (threadStep time s e) := by
  obtain ⟨ctx, t⟩ := s
  cases e with
  | sweep current =>
      exact ⟨h.pub, h.id, h.dealer, entries_removeSmalltreeCallback h.entries current⟩
  | hear es =>
      have hpub' : (es.foldl arrive ctx).zmqPubToXsub.kind = .pub := by
        rw [foldl_arrive_pub es h.pub]
        exact h.pub
      have haddress : ∀ r ∈ es.map Arrival.svcRegi, IsAddress r.brokerHost := by
        intro r hr
        obtain ⟨a, ha, rfl⟩ := List.mem_map.mp hr
        have hpeer := (he a ha).1
        rw [Arrival.svcRegi, brokerHost_forwarded hpeer]
        exact hpeer.address
      have hhears : hearing t ctx (es.foldl arrive ctx)
          = subWaiting t ((es.map Arrival.svcRegi).map SubMsg.regi) := by
        rw [hearing_eq h.pub, List.map_map]
        rfl
      have htold := informed_foldl time (es.map Arrival.svcRegi) h (List.forall_mem_map.mpr
        fun a ha => (he a ha).2)
      simp only [threadStep, hhears, brokerSubCallback_regis time h.id h.dealer haddress]
      exact ⟨hpub', htold.id, htold.dealer, htold.entries⟩

/-- The registration is one that a broker sent, and serves. -/
def FromServing (f : Frame) (svcName : Str) : Prop :=
  ∃ (o : Broker.Handling) (r : MqRegi), o.Advertised r ∧ f = r.mem ∧ svcName = r.tagSvc ∧
    Broker.Served o.after.registry r

/-- A registration of the broker `id` for the service, which a broker sent that serves it,
and whose broker had a slot when the hub had handled it. -/
def BackedBy (ctx : RegiCtx) (es : List Arrival) (id svcName : Str) : Prop :=
  ∃ pre e post, es = pre ++ e :: post ∧ id = brokerIdOf e.svcRegi ∧ FromServing e.frame svcName ∧
    Served (arrive (pre.foldl arrive ctx) e).registry e.svcRegi

/-- The registration comes from a broker for which it was clear. -/
def FromClear (f : Frame) : Prop :=
  ∃ (o : Broker.Handling) (r : MqRegi), o.Clear ∧ o.Advertised r ∧ f = r.mem

theorem fromServing_of_clear {f : Frame} (h : FromClear f) {peerAddress : Str}
    (hpeer : IsPeer peerAddress) : FromServing f (forwarded f peerAddress).tagSvc := by
  obtain ⟨o, r, hclear, hadv, rfl⟩ := h
  exact ⟨o, r, hadv, rfl, tagSvc_forwarded hpeer r, o.backed_iff.mpr hclear r hadv⟩

/-- A registration among such as were acceptable, to their brokers and to the hub. -/
theorem backedBy_of_mem {ctx : RegiCtx} (hpub : ctx.zmqPubToXsub.kind = .pub) {es : List Arrival}
    (hall : AllSteps arrive (fun c e => Acceptable c.registry e.svcRegi) ctx es) {e : Arrival}
    (he : e ∈ es) (hpeer : IsPeer e.peerAddress) (hfrom : FromClear e.frame) :
    BackedBy ctx es (brokerIdOf e.svcRegi) e.svcRegi.tagSvc := by
  obtain ⟨pre, post, hes⟩ := List.append_of_mem he
  refine ⟨pre, e, post, hes, rfl, fromServing_of_clear hfrom hpeer, ?_⟩
  have hpre : (pre.foldl arrive ctx).zmqPubToXsub.kind = .pub := by
    rw [foldl_arrive_pub pre hpub]
    exact hpub
  have hhost : e.svcRegi.brokerHost.length < 24 := by
    rw [Arrival.svcRegi, brokerHost_forwarded hpeer]
    exact hpeer.fits
  rw [hes] at hall
  rw [arrive_eq hpre]
  exact (served_chkSvcBroker _ hhost _).mpr hall.at_step

/-- **When every registration was acceptable, to its broker and to the hub, a thread finds
only services that a broker serves, at brokers that had a slot.** -/
theorem found_backed {ctx : RegiCtx} (hpub : ctx.zmqPubToXsub.kind = .pub)
    {history : List ThreadStep}
    (hpeers : ∀ e ∈ history.flatMap ThreadStep.arrivals, IsPeer e.peerAddress)
    (hfrom : ∀ e ∈ history.flatMap ThreadStep.arrivals, FromClear e.frame)
    (hall : AllSteps arrive (fun c e => Acceptable c.registry e.svcRegi) ctx
      (history.flatMap ThreadStep.arrivals)) {t : BrokerThread} (hid : IsBrokerId t.brokerId)
    (hdealer : t.zmqDealerOut.Steady) (hnew : t.rootNode.children = []) (time : Nat → Time)
    {svcName id : Str}
    (hfind : findSvcExistTree (history.foldl (threadStep time) (ctx, t)).2 svcName = some id) :
    BackedBy ctx (history.flatMap ThreadStep.arrivals) id svcName := by
  set P := BackedBy ctx (history.flatMap ThreadStep.arrivals)
  have hsteps : ∀ e ∈ history, ∀ a ∈ e.arrivals,
      IsPeer a.peerAddress ∧ P (brokerIdOf a.svcRegi) a.svcRegi.tagSvc := by
    intro e he a ha
    have hmem : a ∈ history.flatMap ThreadStep.arrivals := List.mem_flatMap.mpr ⟨e, he, ha⟩
    exact ⟨hpeers a hmem, backedBy_of_mem hpub hall hmem (hpeers a hmem) (hfrom a hmem)⟩
  have hstart : Informed P (ctx, t) := ⟨hpub, hid, hdealer, fun b hb => absurd hb (by simp [hnew])⟩
  have hrun : ∀ s ∈ states (threadStep time) (ctx, t) history, Informed P s :=
    states_inv (fun _ _ hs he => informed_threadStep time hs he) history hstart
      (AllSteps.of_forall hsteps _)
  have hend := hrun _ (foldl_mem_states history _)
  exact (findSvcExistTree_some hend.entries hfind).2

/-- **A registration that is passed on is served exactly when it is acceptable,** at a
broker and at the hub.  When all are, a thread of the hub finds only what is served. -/
theorem regi_backed_iff (o : Broker.Handling) {ctx : RegiCtx} (hpub : ctx.zmqPubToXsub.kind = .pub)
    {f : Frame} {sub : In} (hsub : ctx.zmqSubFromBroker.recv = some (f, sub)) {peerAddress : Str}
    (hpeer : IsPeer peerAddress) (clock : Nat → Time) :
    (o.Backed ↔ o.Clear) ∧
    (Backed ctx (regiAction ctx mqReg peerAddress clock).2 ↔
      Acceptable ctx.registry (forwarded f peerAddress)) ∧
    ∀ history : List ThreadStep,
      (∀ e ∈ history.flatMap ThreadStep.arrivals, IsPeer e.peerAddress) →
      (∀ e ∈ history.flatMap ThreadStep.arrivals, FromClear e.frame) →
      AllSteps arrive (fun c e => Acceptable c.registry e.svcRegi) ctx
        (history.flatMap ThreadStep.arrivals) →
      ∀ t : BrokerThread, IsBrokerId t.brokerId → t.zmqDealerOut.Steady →
        t.rootNode.children = [] → ∀ (time : Nat → Time) (svcName id : Str),
        findSvcExistTree (history.foldl (threadStep time) (ctx, t)).2 svcName = some id →
        BackedBy ctx (history.flatMap ThreadStep.arrivals) id svcName := by
  refine ⟨o.backed_iff, backed_iff hpub hsub hpeer clock, ?_⟩
  intro history hpeers hfrom hall t hid hdealer hnew time svcName id hfind
  exact found_backed hpub hpeers hfrom hall hid hdealer hnew time hfind

section Psib

/-- The registration of a service at port 5000. -/
def svcAt5000 (svc : Str) : MqRegi := (MqRegi.zero.setTagSvc svc).setPort 5000

/-- A broker with this registry handles the registration. -/
def handling (registry : Broker.Registry) (svc : Str) : Broker.Handling where
  ctx := ⟨⟨[⟨(svcAt5000 svc).mem, false⟩], true⟩, some ⟨.pub, [], []⟩, registry⟩
  isPub := by
    intro pub hpub
    obtain rfl := Option.mem_some_iff.mp hpub
    rfl
  frame := (svcAt5000 svc).mem
  sub := ⟨[], false⟩
  received := rfl
  progname := lit "broker"
  pid := 7
  peerAddress := lit "10.0.0.5"
  clock _ := 0

def newBroker : Broker.Handling := handling (Broker.initRegistry (lit "host") 0) (lit "AHIF")

/-- Port 5000 is served as `AHIF` when `PSIB` asks for it. -/
def refusingBroker : Broker.Handling := handling newBroker.after.registry (lit "PSIB")

def newHub : RegiCtx where
  zmqSubFromBroker := In.holding []
  zmqPubToXsub := ⟨.pub, [], []⟩
  registry := initRegistry 0

/-- The registration of `PSIB` at a broker on 10.0.0.2. -/
def fromBroker (name : Str) : Arrival where
  frame := ((svcAt5000 (lit "PSIB")).setBrokerName name).mem
  peerAddress := lit "10.0.0.2"
  clock _ := 0

theorem isPeer_psib : IsPeer (lit "10.0.0.2") :=
  ⟨⟨49, lit "0.0.0.2", by decide, by decide⟩, by decide, by decide⟩

/-- The hub with the registration of a broker called `broker_9` waiting. -/
def waitingHub : RegiCtx :=
  { newHub with zmqSubFromBroker := ⟨[⟨(fromBroker (lit "broker_9")).frame, false⟩], true⟩ }

/-- A new broker has a slot, and nothing at port 5000. -/
theorem clear_new (svc : Str) : (handling (Broker.initRegistry (lit "host") 0) svc).Clear := by
  refine Or.inr (Or.inr ⟨?_, ?_⟩)
  · intro i hused
    exact absurd hused (by simp [handling, Broker.initRegistry, Broker.SvcCtx.zero])
  · exact ⟨⟨0, by decide⟩, rfl⟩

/-- A new hub has a slot, and none for the host. -/
theorem acceptable_new {svcRegi : MqRegi} (hid : (brokerIdOf svcRegi).length < 48) :
    Acceptable waitingHub.registry svcRegi := by
  refine Or.inr ⟨?_, ?_, hid⟩
  · exact fun i hi => absurd hi.1 (by simp [waitingHub, newHub, initRegistry, BrokerCtx.zero])
  · exact ⟨⟨0, by decide⟩, rfl⟩

/-- The broker on 10.0.0.2, when `PSIB` registers. -/
def psibBroker : Broker.Handling := handling (Broker.initRegistry (lit "host") 0) (lit "PSIB")

/-- What it sends to the hub. -/
def fromPsibBroker : Arrival where
  frame := psibBroker.svcRegi.mem
  peerAddress := lit "10.0.0.2"
  clock _ := 0

theorem fromClear_psib : FromClear fromPsibBroker.frame := by
  refine ⟨psibBroker, psibBroker.svcRegi, clear_new _, ?_, rfl⟩
  exact ⟨_, _, rfl, rfl, by decide +kernel⟩

/-- It registers twice, and the timer of the thread is due in between. -/
def psibHistory : List ThreadStep := [.hear [fromPsibBroker], .sweep 1, .hear [fromPsibBroker]]

theorem waitingHub_acceptable :
    AllSteps arrive (fun c e => Acceptable c.registry e.svcRegi) waitingHub
      [fromPsibBroker, fromPsibBroker] := by
  refine ⟨acceptable_new (by decide +kernel), Or.inl ?_, trivial⟩
  unfold Served Serves
  decide +kernel

/-- The first registration is accepted, by the broker and by the hub, and a thread that has heard
two finds what is backed. -/
theorem regi_backed_first :
    newBroker.Backed ∧
      Backed waitingHub (regiAction waitingHub mqReg (lit "10.0.0.2") fun _ => 0).2 ∧
      BackedBy waitingHub [fromPsibBroker, fromPsibBroker] (lit "10.0.0.2_broker_7")
        (lit "PSIB") := by
  have hpub : waitingHub.zmqPubToXsub.kind = .pub := rfl
  obtain ⟨hbroker, hhub, hfinds⟩ := regi_backed_iff newBroker hpub rfl isPeer_psib fun _ => 0
  have hfound : findSvcExistTree
      (psibHistory.foldl (threadStep fun _ => 0) (waitingHub, threadSub)).2 (lit "PSIB")
        = some (lit "10.0.0.2_broker_7") := by
    decide +kernel
  have hthread : BackedBy waitingHub (psibHistory.flatMap ThreadStep.arrivals)
      (lit "10.0.0.2_broker_7") (lit "PSIB") := by
    have hall : ∀ e ∈ psibHistory.flatMap ThreadStep.arrivals, e = fromPsibBroker := by
      simp [psibHistory, ThreadStep.arrivals]
    refine hfinds psibHistory ?_ ?_ waitingHub_acceptable threadSub threadSub_id
      rfl rfl (fun _ => 0) _ _ hfound
    · exact fun e he => hall e he ▸ isPeer_psib
    · exact fun e he => hall e he ▸ fromClear_psib
  exact ⟨hbroker.mpr (clear_new _), hhub.mpr (acceptable_new (by decide +kernel)), hthread⟩

/-- The host 10.0.0.2 is served as `broker_9` when `broker_10` asks for it. -/
def refusingHub : RegiCtx := arrive newHub (fromBroker (lit "broker_9"))

theorem not_served_refusingBroker :
    ¬ Broker.Served refusingBroker.after.registry refusingBroker.svcRegi := by
  unfold Broker.Served
  decide +kernel

theorem not_served_refusingHub :
    ¬ Served (arrive refusingHub (fromBroker (lit "broker_10"))).registry
      (fromBroker (lit "broker_10")).svcRegi := by
  unfold Served Serves
  decide +kernel

/-- A broker advertises `PSIB`, which it has refused, and the hub a broker it has refused,
so a thread finds `PSIB` there. -/
theorem regi_refused_advertised :
    ¬ refusingBroker.Backed ∧
    ¬ Backed refusingHub (arrive refusingHub (fromBroker (lit "broker_10"))) ∧
    findSvcExistTree (brokerSubCallback (fun _ => 0) (hearing threadSub refusingHub
      (arrive refusingHub (fromBroker (lit "broker_10"))))) (lit "PSIB")
        = some (lit "10.0.0.2_broker_10") := by
  refine ⟨fun h => not_served_refusingBroker (h _ ?_),
    fun h => not_served_refusingHub (h _ ?_), ?_⟩
  · exact ⟨_, _, rfl, rfl, by decide +kernel⟩
  · unfold Advertised
    decide +kernel
  · decide +kernel

end Psib

end Brocoli.Hub
