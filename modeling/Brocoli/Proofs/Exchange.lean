/-
What was sent is received, request or response.

Each step of the system does with the parcels held what `holds` says.  So in every state
every parcel is in one place, where it belongs, and unaltered; and when nothing is on the way
any more every request is with a process of the service it is for, and every response with
the process it is for.
-/
import Brocoli.Exchange

namespace Brocoli

open CMem Multipart Custody Carriage Runs

/-! ### Parcels at the router -/

section Router

variable {ctx : RouterCtx} {reach : Frame → Bool}

/-- A response is published, and the reader ends at the boundary behind it. -/
theorem routerBody_published (hpub : ctx.zmqPub.kind = .pub) {rest : Msg} (hrest : rest ≠ [])
    (hlen : Relayable rest) (q : List Part) :
    routerBody { ctx with routerIn := ⟨parts rest ++ q, true⟩ } mqRes
      = { ctx with routerIn := ⟨q, false⟩, zmqPub := ctx.zmqPub.put (parts rest) } := by
  have hinter : mqRes ≠ mqResInterhub := by decide
  have hreq : ¬ (mqRes = mqReqInterhub ∨ mqRes = mqReq) := by decide
  rw [routerBody, if_neg hinter, if_neg hreq, if_pos rfl]
  simp only [relaySndMore_free hrest hlen (steady_pub hpub).free, afterRelay]
  simp

/-- The type of a message at the router. -/
def msgTypeOf (isReq : Bool) : Str := if isReq then mqReq else mqRes

/-- **A run of the router handles as many messages as the limit allows**, in their order: the
requests go to peers it knows, the responses to its publisher. -/
theorem routerLoop_mixed {α : Type} {id : α → Frame} {out : α → Msg} {isReq : α → Bool}
    (n : Nat) (ks : List α) {s : RouterLoop} (hidle : s.ctx.routerOut.Idle reach)
    (hpub : s.ctx.zmqPub.kind = .pub)
    (hks : ∀ k ∈ ks, ∃ f rest, out k = f :: rest ∧ rest ≠ [] ∧ Relayable (out k) ∧
      (isReq k = true → reach f = true))
    (hin : s.ctx.routerIn = In.holding (ks.map fun k => id k :: msgTypeOf (isReq k) :: out k)) :
    (routerLoop n s).ctx = { s.ctx with
      routerIn := In.holding ((ks.drop n).map fun k => id k :: msgTypeOf (isReq k) :: out k)
      routerOut := s.ctx.routerOut.put (stream (((ks.take n).filter isReq).map out))
      zmqPub := s.ctx.zmqPub.put (stream (((ks.take n).filter fun k => !isReq k).map out)) } := by
  have hwhole : ∀ k ∈ ks, ReadWhole reach s.ctx.interhub (msgTypeOf (isReq k)) (out k)
      ([k].filter isReq |>.map out) (([k].filter fun k => !isReq k).map out) := by
    intro k hk
    obtain ⟨f, rest, hout, hrest, hlen, hf⟩ := hks k hk
    rw [hout] at hlen ⊢
    cases hreq : isReq k with
    | true =>
        refine ⟨by decide, by simp [hout], fun ctx q hctx _ _ => ?_⟩
        have hbody := routerBody_known hctx hrest hlen (hf hreq) q
        rw [show cstr (msgTypeOf true) = mqReq from cstr_mqReq]
        simpa [hreq, hout] using hbody
    | false =>
        refine ⟨by decide, by simp [hreq], fun ctx q _ hctx _ => ?_⟩
        have hbody := routerBody_published hctx (by simp) hlen q
        rw [show cstr (msgTypeOf false) = mqRes from cstr_mqRes]
        simpa [hreq, hout] using hbody
  have hrun := routerLoop_each n ks hidle hpub rfl hwhole hin
  have hsplit : ∀ (p : α → Bool) (l : List α),
      l.flatMap (fun k => ([k].filter p).map out) = (l.filter p).map out := by
    intro p l
    induction l with
    | nil => rfl
    | cons k l ih => rw [List.flatMap_cons, ih, ← List.map_append, ← List.filter_append]; rfl
  rw [hrun, hsplit, hsplit]

end Router

section System

variable {ι : Type} [DecidableEq ι] {svc name : ι → Str} {services : List Str}

/-! ### What a change leaves alone -/

section Change

variable {x : Exchange ι}

omit [DecidableEq ι] in
theorem Exchange.memory_setCtx {ctx : RouterCtx} {r : Spot ι}
    (hin : r = .routerIn → ctx.routerIn.queue = x.net.ctx.routerIn.queue)
    (hout : r = .routerOut → ctx.routerOut.sent = x.net.ctx.routerOut.sent) :
    (x.setNet (x.net.setCtx ctx)).memory r = x.memory r := by
  cases r with
  | routerIn => exact hin rfl
  | routerOut => exact hout rfl
  | _ => rfl

theorem Exchange.memory_setClient {p : ι} {c : ClientSock} {r : Spot ι}
    (hpush : r = .push p → c.zmqPush.sent = (x.net.client p).zmqPush.sent)
    (hpull : r = .pull p → c.zmqPull.queue = (x.net.client p).zmqPull.queue)
    (hsub : r = .sub p → c.zmqSub.queue = (x.net.client p).zmqSub.queue) :
    (x.setNet (x.net.setClient p c)).memory r = x.memory r := by
  cases r with
  | push q =>
      by_cases hq : q = p
      · subst hq
        simpa [memory, setNet, Net.setClient] using hpush rfl
      · simp [memory, setNet, Net.setClient, hq]
  | pull q =>
      by_cases hq : q = p
      · subst hq
        simpa [memory, setNet, Net.setClient] using hpull rfl
      · simp [memory, setNet, Net.setClient, hq]
  | sub q =>
      by_cases hq : q = p
      · subst hq
        simpa [memory, setNet, Net.setClient] using hsub rfl
      · simp [memory, setNet, Net.setClient, hq]
  | _ => rfl

omit [DecidableEq ι] in
theorem Exchange.memory_setSlot {s : Str} {slot : SvcSlot} {r : Spot ι}
    (hup : r = .slotUp s → slot.dealerOut.sent ++ slot.pull.queue
      = (x.net.slot s).dealerOut.sent ++ (x.net.slot s).pull.queue)
    (hdown : r = .slotDown s → slot.push.sent ++ slot.dealerIn.queue
      = (x.net.slot s).push.sent ++ (x.net.slot s).dealerIn.queue)
    (hsub : r = .slotSub s → slot.sub.queue = (x.net.slot s).sub.queue) :
    (x.setNet (x.net.setSlot s slot)).memory r = x.memory r := by
  cases r with
  | slotUp t =>
      by_cases ht : t = s
      · subst ht
        simpa [memory, setNet, Net.setSlot] using hup rfl
      · simp [memory, setNet, Net.setSlot, ht]
  | slotDown t =>
      by_cases ht : t = s
      · subst ht
        simpa [memory, setNet, Net.setSlot] using hdown rfl
      · simp [memory, setNet, Net.setSlot, ht]
  | slotSub t =>
      by_cases ht : t = s
      · subst ht
        simpa [memory, setNet, Net.setSlot] using hsub rfl
      · simp [memory, setNet, Net.setSlot, ht]
  | _ => rfl

namespace Exchange.Working

omit [DecidableEq ι] in
theorem setCtx (h : x.Working svc name services) {ctx : RouterCtx}
    (hkind : ctx.routerOut.kind = x.net.ctx.routerOut.kind)
    (hresults : ctx.routerOut.results = x.net.ctx.routerOut.results)
    (hpub : ctx.zmqPub.kind = x.net.ctx.zmqPub.kind) (hmore : ctx.routerIn.more = false) :
    (x.setNet (x.net.setCtx ctx)).Working svc name services :=
  { h with
    router := hkind.trans h.router
    results := hresults.trans h.results
    pub := hpub.trans h.pub
    routerIn := hmore }

theorem setClient (h : x.Working svc name services) {p : ι} {c : ClientSock}
    (hpush : c.zmqPush.Steady) (hpull : c.zmqPull.more = false) (hsub : c.zmqSub.more = false) :
    (x.setNet (x.net.setClient p c)).Working svc name services := by
  have hclient : ∀ {g : ClientSock → Prop}, g c → (∀ q, g (x.net.client q)) →
      ∀ q, g ((x.setNet (x.net.setClient p c)).net.client q) := by
    intro g hc hall q
    by_cases hq : q = p
    · subst hq
      simpa [setNet, Net.setClient] using hc
    · simpa [setNet, Net.setClient, hq] using hall q
  exact { h with
    push := hclient (g := fun c => c.zmqPush.Steady) hpush h.push
    pull := hclient (g := fun c => c.zmqPull.more = false) hpull h.pull
    sub := hclient (g := fun c => c.zmqSub.more = false) hsub h.sub }

omit [DecidableEq ι] in
theorem setSlot (h : x.Working svc name services) {s : Str} {slot : SvcSlot} (hslot : slot.Ready)
    (hname : slot.svcName = s) (hsub : slot.sub.more = false) :
    (x.setNet (x.net.setSlot s slot)).Working svc name services := by
  have hall : ∀ {g : Str → SvcSlot → Prop}, g s slot → (∀ t, g t (x.net.slot t)) →
      ∀ t, g t ((x.setNet (x.net.setSlot s slot)).net.slot t) := by
    intro g hs hg t
    by_cases ht : t = s
    · subst ht
      simpa [setNet, Net.setSlot] using hs
    · simpa [setNet, Net.setSlot, ht] using hg t
  exact { h with
    slot := hall (g := fun _ slot => slot.Ready) hslot h.slot
    slotSub := hall (g := fun _ slot => slot.sub.more = false) hsub h.slotSub
    called := hall (g := fun t slot => slot.svcName = t) hname h.called }

omit [DecidableEq ι] in
/-- More was sent, and something may have been put in the pipes of the publishers. -/
theorem of_net {x' : Exchange ι} {l : List (Request ι)} (h : x.Working svc name services)
    (hnet : x'.net = { x.net with sent := l }) (hpublished : ∀ s, ∀ m ∈ x'.published s, m ≠ [])
    (hrelayed : ∀ p, ∀ m ∈ x'.relayed p, m ≠ [])
    (hsent : ∀ z ∈ x'.sent, z.Valid svc name services) : x'.Working svc name services := by
  obtain ⟨net, published, relayed, sent, replied⟩ := x'
  obtain rfl : net = { x.net with sent := l } := hnet
  exact { h with published := hpublished, relayed := hrelayed, valid := hsent }

end Exchange.Working

end Change

/-! ### Frames -/

omit [DecidableEq ι] in
theorem spotFrames_ne_nil {p : Spot ι} (hp : p.isFinal = false) (z : Parcel ι) :
    spotFrames svc p z ≠ [] := by
  cases z with
  | req r => cases p <;> simp_all [spotFrames, Parcel.message, Spot.isFinal]
  | res a => cases p <;> simp_all [spotFrames, Parcel.message, Spot.isFinal]

omit [DecidableEq ι] in
/-- What a process is given of a message is not nothing. -/
theorem message_drop_ne_nil (z : Parcel ι) : z.message.drop 2 ≠ [] := by
  cases z <;> exact List.cons_ne_nil _ _

omit [DecidableEq ι] in
/-- What is in front of a message says which kind it is. -/
theorem message_eq (z : Parcel ι) : z.message = msgTypeOf z.isReq :: z.message.tail := by
  cases z <;> rfl

omit [DecidableEq ι] in
theorem message_tail (z : Parcel ι) : z.message.tail = z.tgsvc :: z.message.drop 2 := by
  cases z <;> rfl

omit [DecidableEq ι] in
theorem relayable_message {z : Parcel ι} (hz : z.Valid svc name services) :
    Relayable z.message := by
  cases z with
  | req r => exact relayable_frames hz
  | res a =>
      have hshort : ∀ off : Nat, (cstr (a.tag.mem.drop off)).length < 128 := by
        intro off
        have hle := length_cstr_le (a.tag.mem.drop off)
        rw [List.length_drop, a.tag.size] at hle
        omega
      refine relayable_of_short (m := [mqRes, a.tag.svc, a.tag.name]) ?_ hz.fits
      intro f hf
      simp only [List.mem_cons, List.not_mem_nil, or_false] at hf
      rcases hf with rfl | rfl | rfl
      · decide
      · exact hshort 49
      · exact hshort 73

omit [DecidableEq ι] in
theorem relayable_drop {z : Parcel ι} (hz : z.Valid svc name services) (n : Nat) :
    Relayable (z.message.drop n) := fun f hf =>
  relayable_message hz f (List.mem_of_mem_drop hf)

/-! ### What one step keeps -/

section Steps

variable {x : Exchange ι} {held : Spot ι → List (Nat × Parcel ι)}

omit [DecidableEq ι] in
theorem Exchange.Working.valid_of_mem (hw : x.Working svc name services) (h : Balanced svc x held)
    {p : Spot ι} {z : Nat × Parcel ι} (hz : z ∈ held p) : z.2.Valid svc name services :=
  hw.valid _ (h.carried.mem_items hz)

omit [DecidableEq ι] in
/-- A step that nothing is received in. -/
theorem Balanced.keep {x' : Exchange ι} {held' : Spot ι → List (Nat × Parcel ι)}
    (h : Balanced svc x held)
    (hcarried : Carried (spotFrames svc) (Suits svc) x'.sent x'.memory held')
    (hheld : ∀ r : Spot ι, r.isFinal = true → held' r = held r)
    (hhanded : x'.net.handed = x.net.handed) (hreplied : x'.replied = x.replied) :
    Balanced svc x' held' where
  carried := hcarried
  handed p := by
    rw [hhanded, hheld _ rfl]
    exact h.handed p
  replied p := by
    rw [hreplied, hheld _ rfl]
    exact h.replied p

theorem shift_final {p : Spot ι} (hp : p.isFinal = false) {dest : Nat × Parcel ι → Spot ι}
    (hdest : ∀ z, (dest z).isFinal = false) (n : Nat) (r : Spot ι) (hr : r.isFinal = true) :
    shift held p n dest r = held r := by
  refine shift_of_ne ?_ (fun z hz => ?_) n
  · rintro rfl
    exact absurd hr (by simp [hp])
  · rw [← hz, hdest z] at hr
    exact absurd hr (by decide)

/-- The step does what `holds` says. -/
def Keeps (svc name : ι → Str) (services : List Str) (x : Exchange ι)
    (held : Spot ι → List (Nat × Parcel ι)) (e : ExchangeStep ι) : Prop :=
  (x.step svc name services e).Working svc name services ∧
    Balanced svc (x.step svc name services e) (holds svc x held e)

/-- A step of the local net in which nothing is sent or published. -/
theorem step_net {e : NetStep ι} (hsent : (x.net.step svc e).sent = x.net.sent)
    (hpub : (x.net.step svc e).ctx.zmqPub = x.net.ctx.zmqPub) :
    x.step svc name services (.net e) = x.setNet (x.net.step svc e) := by
  simp [Exchange.step, Exchange.setNet, hsent, hpub]

/-- A step in which nothing moves. -/
theorem keeps_same (hw : x.Working svc name services) (h : Balanced svc x held)
    {e : ExchangeStep ι} (hstep : x.step svc name services e = x)
    (hheld : holds svc x held e = held) :
    Keeps svc name services x held e := by
  rw [Keeps, hstep, hheld]
  exact ⟨hw, h⟩

omit [DecidableEq ι] in
theorem Exchange.Working.append (hw : x.Working svc name services) {z : Parcel ι}
    (hz : z.Valid svc name services) : ∀ y ∈ x.sent ++ [z], y.Valid svc name services := by
  intro y hy
  rcases List.mem_append.mp hy with hy | hy
  · exact hw.valid y hy
  · rw [List.mem_singleton.mp hy]
    exact hz

/-- What a process sends joins what is on its socket. -/
theorem balanced_sent (hw : x.Working svc name services) (h : Balanced svc x held) {x' : Exchange ι}
    {z : Parcel ι} (hz : z.Valid svc name services) {c : ClientSock} {l : List (Request ι)}
    (hpush : c.zmqPush = (x.net.client z.sender).zmqPush.put (parts z.message))
    (hpull : c.zmqPull = (x.net.client z.sender).zmqPull)
    (hsub : c.zmqSub = (x.net.client z.sender).zmqSub)
    (hx' : x' = { x with
      net := { x.net.setClient z.sender c with sent := l }
      sent := x.sent ++ [z] }) :
    x'.Working svc name services ∧
      Balanced svc x' (Placed.added held (.push z.sender) (x.sent.length, z)) := by
  subst hx'
  constructor
  · have hclient := hw.setClient (p := z.sender) (c := c) (by rw [hpush]; exact (hw.push _).put _)
      (by rw [hpull]; exact hw.pull _) (by rw [hsub]; exact hw.sub _)
    exact hclient.of_net rfl hw.published hw.relayed (hw.append hz)
  · refine h.keep (h.carried.add ?_ (fun r hr => ?_) rfl) (fun r hr => ?_) rfl rfl
    · simp only [Exchange.memory, Net.setClient, Function.update_self]
      rw [hpush, put_sent]
      rfl
    · have hmem : (x.setNet (x.net.setClient z.sender c)).memory r = x.memory r := by
        refine Exchange.memory_setClient (fun heq => absurd heq hr) (fun _ => ?_) fun _ => ?_
        · rw [hpull]
        · rw [hsub]
      rw [← hmem]
      cases r <;> rfl
    · refine Placed.added_of_ne held ?_ _
      rintro rfl
      exact absurd hr (by simp [Spot.isFinal])

/-- `mq_send_req` puts the request on the sender's socket. -/
theorem keeps_send (hw : x.Working svc name services) (h : Balanced svc x held) {r : Request ι}
    (hr : r.Valid services) : Keeps svc name services x held (.net (.send r)) := by
  have hhead : ∀ f ∈ [mqReq, r.tgsvc, r.tag.mem], f ≠ [] := by
    simpa using ⟨by decide, hr.tgsvc.nonempty, r.tag.mem_ne_nil⟩
  obtain ⟨hrc, hpush⟩ := sendFrames_free (hw.push r.sender).free hhead hr.nonempty
  refine balanced_sent hw h (z := .req r) (l := x.net.sent ++ [r]) hr hpush
    (sendFrames_pull _ _ _) (sendFrames_sub _ _ _) ?_
  simp [Exchange.step, Net.step, mqSendReq, hrc, Net.setClient, Parcel.sender]

omit [DecidableEq ι] in
/-- A response that is valid is sent. -/
theorem mqSendRes_valid (hap : Apart svc name services) (hw : x.Working svc name services)
    {a : Response ι} (ha : a.Valid svc name) :
    (mqSendRes (x.net.client a.sender) a.tag a.body).1 = 0 ∧
      mqSendRes (x.net.client a.sender) a.tag a.body
        = sendFrames (x.net.client a.sender) [mqRes, a.tag.svc, a.tag.name] a.body ∧
      (mqSendRes (x.net.client a.sender) a.tag a.body).2.zmqPush
        = (x.net.client a.sender).zmqPush.put (parts (Parcel.res a).message) := by
  have hsvc : a.tag.svc ≠ [] := by
    rw [ha.tagSvc]
    exact (hap.proper _ (hap.service _)).nonempty
  have hname : a.tag.name ≠ [] := by
    rw [ha.tagName]
    exact hap.named _
  have hhead : ∀ f ∈ [mqRes, a.tag.svc, a.tag.name], f ≠ [] := by
    simpa using ⟨by decide, hsvc, hname⟩
  obtain ⟨hrc, hpush⟩ := sendFrames_free (hw.push a.sender).free hhead ha.nonempty
  have hsend : mqSendRes (x.net.client a.sender) a.tag a.body
      = sendFrames (x.net.client a.sender) [mqRes, a.tag.svc, a.tag.name] a.body := by
    rw [mqSendRes, ha.via, if_neg (by decide)]
  rw [hsend]
  exact ⟨hrc, rfl, hpush⟩

/-- `mq_send_res` puts the response there. -/
theorem keeps_respond (hap : Apart svc name services) (hw : x.Working svc name services)
    (h : Balanced svc x held) {a : Response ι} (ha : a.Valid svc name) :
    Keeps svc name services x held (.respond a) := by
  obtain ⟨hrc, hsend, hpush⟩ := mqSendRes_valid hap hw ha
  refine balanced_sent hw h (z := .res a) (c := (mqSendRes (x.net.client a.sender) a.tag a.body).2)
    (l := x.net.sent) ha hpush ?_ ?_ ?_
  · rw [hsend]
    exact sendFrames_pull _ _ _
  · rw [hsend]
    exact sendFrames_sub _ _ _
  · simp only [Exchange.step, hrc, if_true]
    rfl

/-- The first parcel of a place goes to another, and is not received yet. -/
theorem Balanced.carry_first (h : Balanced svc x held) {x' : Exchange ι} {p q : Spot ι}
    {z : Nat × Parcel ι} {rest : List (Nat × Parcel ι)} (hheld : held p = z :: rest) (hpq : p ≠ q)
    (hp' : p.isFinal = false) (hq' : q.isFinal = false) (hsent : x'.sent = x.sent)
    (hhanded : x'.net.handed = x.net.handed) (hreplied : x'.replied = x.replied)
    (hp : x'.memory p = cargo (spotFrames svc) p rest)
    (hq : x'.memory q = x.memory q ++ parts (spotFrames svc q z.2))
    (hother : ∀ r, r ≠ p → r ≠ q → x'.memory r = x.memory r) (hsuits : Suits svc q z.2) :
    Balanced svc x' (shift held p 1 fun _ => q) := by
  refine h.keep ?_ (shift_final hp' (fun _ => hq') 1) hhanded hreplied
  rw [hsent]
  exact h.carried.shift_first hheld hpq hp hq hother hsuits

omit [DecidableEq ι] in
/-- The parcel a pipe takes is the first of the place. -/
theorem Balanced.first_of_deliver (h : Balanced svc x held) {p : Spot ι} (hp : p.isFinal = false)
    {o o' : Out} {m : Msg} {q : List Part} (hd : o.deliver = some (m, o'))
    (hmem : x.memory p = o.sent ++ q) :
    ∃ left z rest, o' = { o with sent := left } ∧ held p = z :: rest ∧
      m = spotFrames svc p z.2 ∧ left ++ q = cargo (spotFrames svc) p rest := by
  obtain ⟨left, htake, rfl⟩ := deliver_some hd
  have hne : ∀ y : Nat × Parcel ι, (fun y : Nat × Parcel ι => spotFrames svc p y.2) y ≠ [] :=
    fun y => spotFrames_ne_nil hp y.2
  obtain ⟨z, rest, hheld, rfl, hleft⟩ :=
    takeMessage_stream hne htake (hmem.symm.trans (h.carried.memory p))
  exact ⟨left, z, rest, rfl, hheld, rfl, hleft⟩

omit [DecidableEq ι] in
/-- A pipe that takes nothing from a place of whole messages has nothing to take. -/
theorem Balanced.empty_of_deliver (h : Balanced svc x held) {p : Spot ι} (hp : p.isFinal = false)
    {o : Out} (hd : o.deliver = none) (hmem : x.memory p = o.sent) : held p = [] := by
  have hne : ∀ y : Nat × Parcel ι, (fun y : Nat × Parcel ι => spotFrames svc p y.2) y ≠ [] :=
    fun y => spotFrames_ne_nil hp y.2
  exact eq_nil_of_deliver_none hne hd (hmem.symm.trans (h.carried.memory p))

/-- A pipe carries a parcel from a process to the slot of its service. -/
theorem keeps_toSlot (hw : x.Working svc name services) (h : Balanced svc x held) (p : ι) :
    Keeps svc name services x held (.net (.toSlot p)) := by
  cases hd : (x.net.client p).zmqPush.deliver with
  | none =>
      have hempty := h.empty_of_deliver (p := .push p) rfl hd rfl
      refine keeps_same hw h ?_ (shift_of_empty hempty 1)
      simp [Exchange.step, Net.step, hd]
  | some r =>
      obtain ⟨m, push⟩ := r
      obtain ⟨left, z, rest, rfl, hheld, rfl, hleft⟩ := h.first_of_deliver (p := .push p) rfl hd
        (List.append_nil _).symm
      rw [List.append_nil] at hleft
      have hslot := hw.slot (svc p)
      have hstep : x.step svc name services (.net (.toSlot p)) = x.setNet
          ((x.net.setClient p { x.net.client p with
            zmqPush := { (x.net.client p).zmqPush with sent := left } }).setSlot (svc p)
            { x.net.slot (svc p) with
              pull := (x.net.slot (svc p)).pull.arrive (spotFrames svc (.push p) z.2) }) := by
        rw [step_net (by simp [Net.step, hd]; rfl) (by simp [Net.step, hd]; rfl)]
        simp [Net.step, hd]
      rw [Keeps, hstep]
      constructor
      · refine (hw.setClient (p := p) ?_ ?_ ?_).setSlot ?_ ?_ ?_
        · exact hw.push p
        · exact hw.pull p
        · exact hw.sub p
        · exact ⟨hslot.dealer, hslot.push, hslot.pub⟩
        · exact hw.called _
        · exact hw.slotSub _
      · refine h.carry_first (q := .slotUp (svc p)) hheld (by simp) rfl rfl rfl rfl rfl ?_ ?_
          (fun r hr hr' => ?_) ?_
        · simpa [Exchange.memory, Exchange.setNet, Net.setClient, Net.setSlot] using hleft
        · simp [Exchange.memory, Exchange.setNet, Net.setClient, Net.setSlot, In.arrive, spotFrames]
        · refine (Exchange.memory_setSlot (x := x.setNet (x.net.setClient p _)) ?_ ?_ ?_).trans
            (Exchange.memory_setClient ?_ ?_ ?_)
          · exact fun heq => absurd heq hr'
          · exact fun _ => rfl
          · exact fun _ => rfl
          · exact fun heq => absurd heq hr
          · exact fun _ => rfl
          · exact fun _ => rfl
        · have hsender : z.2.sender = p := h.carried.belongs (.push p) z (by rw [hheld]; simp)
          show svc z.2.sender = svc p
          rw [hsender]

omit [DecidableEq ι] in
/-- The parts in a slot are not changed by its relays. -/
theorem bufferedPart_memory (hw : x.Working svc name services) (h : Balanced svc x held)
    {p : Spot ι} (hp : ∀ z : Parcel ι, z.Valid svc name services → Relayable (spotFrames svc p z)) :
    ∀ y ∈ x.memory p, bufferedPart y = y := by
  rw [h.carried.memory]
  refine bufferedPart_of_mem fun m hm => ?_
  obtain ⟨z, hz, rfl⟩ := List.mem_map.mp hm
  exact hp z.2 (hw.valid_of_mem h hz)

omit [DecidableEq ι] in
/-- A relay of a slot moves parts between its sockets, and the slot holds what it held. -/
theorem balanced_relay (hw : x.Working svc name services) (h : Balanced svc x held) {s : Str}
    {slot : SvcSlot} (hready : slot.Ready) (hname : slot.svcName = s)
    (hsub : slot.sub = (x.net.slot s).sub)
    (hup : slot.dealerOut.sent ++ slot.pull.queue
      = (x.net.slot s).dealerOut.sent ++ (x.net.slot s).pull.queue)
    (hdown : slot.push.sent ++ slot.dealerIn.queue
      = (x.net.slot s).push.sent ++ (x.net.slot s).dealerIn.queue) :
    (x.setNet (x.net.setSlot s slot)).Working svc name services ∧
      Balanced svc (x.setNet (x.net.setSlot s slot)) held := by
  constructor
  · exact hw.setSlot hready hname (by rw [hsub]; exact hw.slotSub s)
  · refine h.keep (h.carried.same fun r => ?_) (fun _ _ => rfl) rfl rfl
    exact Exchange.memory_setSlot (fun _ => hup) (fun _ => hdown) fun _ => by rw [hsub]

/-- `ev_pull_to_dealer`, wherever its run ends. -/
theorem keeps_pullToDealer (hw : x.Working svc name services) (h : Balanced svc x held) (s : Str) :
    Keeps svc name services x held (.net (.pullToDealer s)) := by
  have hslot := hw.slot s
  have hpart := bufferedPart_memory hw h (p := .slotUp s) fun z hz => relayable_message hz
  have hqueue : ∀ y ∈ (x.net.slot s).pull.queue, bufferedPart y = y := fun y hy =>
    hpart y (List.mem_append_right _ hy)
  obtain ⟨hmem, hdealer⟩ := mqRelayCallback_stream hslot.dealer hqueue
  rw [Keeps, step_net rfl rfl]
  exact balanced_relay hw h ⟨hdealer, hslot.push, hslot.pub⟩ (hw.called s) rfl hmem rfl

/-- `ev_dealer_to_push`, wherever its run ends. -/
theorem keeps_dealerToPush (hw : x.Working svc name services) (h : Balanced svc x held) (s : Str) :
    Keeps svc name services x held (.net (.dealerToPush s)) := by
  have hslot := hw.slot s
  have hpart := bufferedPart_memory hw h (p := .slotDown s) fun z hz => relayable_drop hz 2
  have hqueue : ∀ y ∈ (x.net.slot s).dealerIn.queue, bufferedPart y = y := fun y hy =>
    hpart y (List.mem_append_right _ hy)
  obtain ⟨hmem, hpush⟩ := mqRelayCallback_stream hslot.push hqueue
  rw [Keeps, step_net rfl rfl]
  exact balanced_relay hw h ⟨hslot.dealer, hpush, hslot.pub⟩ (hw.called s) rfl rfl hmem

/-- A pipe carries a parcel from a slot to the router, which puts the slot's name in front. -/
theorem keeps_toRouter (hw : x.Working svc name services) (h : Balanced svc x held) (s : Str) :
    Keeps svc name services x held (.net (.toRouter s)) := by
  cases hd : (x.net.slot s).dealerOut.deliver with
  | none => exact keeps_same hw h (by simp [Exchange.step, Net.step, hd]) (by simp [holds, hd])
  | some r =>
      obtain ⟨m, dealer⟩ := r
      obtain ⟨left, z, rest, rfl, hheld, rfl, hleft⟩ := h.first_of_deliver (p := .slotUp s) rfl hd
        rfl
      have hslot := hw.slot s
      have hsender : svc z.2.sender = s := h.carried.belongs (.slotUp s) z (by rw [hheld]; simp)
      have hstep : x.step svc name services (.net (.toRouter s)) = x.setNet
          ((x.net.setSlot s { x.net.slot s with
            dealerOut := { (x.net.slot s).dealerOut with sent := left } }).setCtx { x.net.ctx with
              routerIn := x.net.ctx.routerIn.arrive
                (fromPeer (x.net.slot s).svcName (spotFrames svc (.slotUp s) z.2)) }) := by
        rw [step_net (by simp [Net.step, hd]; rfl) (by simp [Net.step, hd]; rfl)]
        simp [Net.step, hd]
      have hholds : holds svc x held (.net (.toRouter s))
          = shift held (.slotUp s) 1 fun _ => .routerIn := by
        simp [holds, hd]
      rw [Keeps, hstep, hholds]
      constructor
      · refine (hw.setSlot (s := s) ?_ ?_ ?_).setCtx rfl rfl rfl hw.routerIn
        · exact ⟨hslot.dealer, hslot.push, hslot.pub⟩
        · exact hw.called s
        · exact hw.slotSub s
      · refine h.carry_first hheld (by simp) rfl rfl rfl rfl rfl ?_ ?_ (fun r hr hr' => ?_) trivial
        · simpa [Exchange.memory, Exchange.setNet, Net.setCtx, Net.setSlot] using hleft
        · simp [Exchange.memory, Exchange.setNet, Net.setCtx, In.arrive, spotFrames, fromPeer,
            hw.called, hsender]
        · refine (Exchange.memory_setCtx (x := x.setNet (x.net.setSlot s _)) ?_ ?_).trans
            (Exchange.memory_setSlot ?_ ?_ ?_)
          · exact fun heq => absurd heq hr'
          · exact fun _ => rfl
          · exact fun heq => absurd heq hr
          · exact fun _ => rfl
          · exact fun _ => rfl

/-- The router's pipe carries a request to the slot its first frame names. -/
theorem keeps_toDealer (hw : x.Working svc name services) (h : Balanced svc x held) (s : Str) :
    Keeps svc name services x held (.net (.toDealer s)) := by
  have hne : ∀ y : Nat × Parcel ι,
      (fun y : Nat × Parcel ι => spotFrames svc .routerOut y.2) y ≠ [] := fun y =>
    spotFrames_ne_nil rfl y.2
  have hwanted : (fun y : Nat × Parcel ι => (spotFrames svc .routerOut y.2).headD []
      == (x.net.slot s).svcName) = fun y => y.2.tgsvc == s := by
    funext y
    rw [hw.called, spotFrames, message_tail]
    rfl
  have hdeliver := deliverTo_find hne (h.carried.memory .routerOut) (x.net.slot s).svcName
  rw [hwanted] at hdeliver
  cases hfind : (held .routerOut).find? fun y => y.2.tgsvc == s with
  | none =>
      rw [hfind, Option.map_none] at hdeliver
      exact keeps_same hw h (by simp [Exchange.step, Net.step, hdeliver]) (pick_of_none hfind)
  | some z =>
      rw [hfind, Option.map_some] at hdeliver
      have hslot := hw.slot s
      have hmem : z ∈ held .routerOut := List.mem_of_find?_eq_some hfind
      have htgsvc : z.2.tgsvc = s := by simpa using List.find?_some hfind
      have hreq : z.2.isReq = true := h.carried.belongs .routerOut z hmem
      set left := cargo (spotFrames svc) .routerOut ((held .routerOut).eraseP fun y =>
        y.2.tgsvc == s) with hleft
      have hstep : x.step svc name services (.net (.toDealer s)) = x.setNet
          ((x.net.setSlot s { x.net.slot s with
            dealerIn := (x.net.slot s).dealerIn.arrive (spotFrames svc .routerOut z.2).tail }).setCtx
            { x.net.ctx with routerOut := { x.net.ctx.routerOut with sent := left } }) := by
        rw [step_net (by simp [Net.step, hdeliver]; rfl) (by simp [Net.step, hdeliver]; rfl)]
        simp [Net.step, hdeliver, hleft, cargo]
      rw [Keeps, hstep]
      constructor
      · refine (hw.setSlot (s := s) ?_ ?_ ?_).setCtx rfl rfl rfl hw.routerIn
        · exact ⟨hslot.dealer, hslot.push, hslot.pub⟩
        · exact hw.called s
        · exact hw.slotSub s
      · refine h.keep (h.carried.pick hfind (by simp) rfl ?_ (fun r hr hr' => ?_) ⟨hreq, htgsvc⟩)
          (fun r hr => pick_of_ne ?_ (fun _ => ?_) _) rfl rfl
        · simp [Exchange.memory, Exchange.setNet, Net.setCtx, Net.setSlot, In.arrive, spotFrames,
            message_tail]
        · refine (Exchange.memory_setCtx (x := x.setNet (x.net.setSlot s _)) ?_ ?_).trans
            (Exchange.memory_setSlot ?_ ?_ ?_)
          · exact fun _ => rfl
          · exact fun heq => absurd heq hr
          · exact fun _ => rfl
          · exact fun heq => absurd heq hr'
          · exact fun _ => rfl
        · rintro rfl
          exact absurd hr (by simp [Spot.isFinal])
        · rintro rfl
          exact absurd hr (by simp [Spot.isFinal])

/-- A pipe carries a request from a slot to one of the service's processes. -/
theorem keeps_toProcess (hw : x.Working svc name services) (h : Balanced svc x held) (p : ι) :
    Keeps svc name services x held (.net (.toProcess p)) := by
  cases hd : (x.net.slot (svc p)).push.deliver with
  | none => exact keeps_same hw h (by simp [Exchange.step, Net.step, hd]) (by simp [holds, hd])
  | some r =>
      obtain ⟨m, push⟩ := r
      obtain ⟨left, z, rest, rfl, hheld, rfl, hleft⟩ :=
        h.first_of_deliver (p := .slotDown (svc p)) rfl hd rfl
      have hslot := hw.slot (svc p)
      have hstep : x.step svc name services (.net (.toProcess p)) = x.setNet
          ((x.net.setSlot (svc p) { x.net.slot (svc p) with
            push := { (x.net.slot (svc p)).push with sent := left } }).setClient p
            { x.net.client p with
              zmqPull := (x.net.client p).zmqPull.arrive
                (spotFrames svc (.slotDown (svc p)) z.2) }) := by
        rw [step_net (by simp [Net.step, hd]; rfl) (by simp [Net.step, hd]; rfl)]
        simp [Net.step, hd]
      have hholds : holds svc x held (.net (.toProcess p))
          = shift held (.slotDown (svc p)) 1 fun _ => .pull p := by
        simp [holds, hd]
      rw [Keeps, hstep, hholds]
      constructor
      · refine (hw.setSlot (s := svc p) ?_ ?_ ?_).setClient ?_ ?_ ?_
        · exact ⟨hslot.dealer, hslot.push, hslot.pub⟩
        · exact hw.called _
        · exact hw.slotSub _
        · exact hw.push p
        · exact hw.pull p
        · exact hw.sub p
      · refine h.carry_first (q := .pull p) hheld (by simp) rfl rfl rfl rfl rfl ?_ ?_
          (fun r hr hr' => ?_) ?_
        · simpa [Exchange.memory, Exchange.setNet, Net.setClient, Net.setSlot] using hleft
        · simp [Exchange.memory, Exchange.setNet, Net.setClient, In.arrive, spotFrames]
        · refine (Exchange.memory_setClient (x := x.setNet (x.net.setSlot (svc p) _)) ?_ ?_
            ?_).trans (Exchange.memory_setSlot ?_ ?_ ?_)
          · exact fun _ => rfl
          · exact fun heq => absurd heq hr'
          · exact fun _ => rfl
          · exact fun _ => rfl
          · exact fun heq => absurd heq hr
          · exact fun _ => rfl
        · exact h.carried.belongs (.slotDown (svc p)) z (by rw [hheld]; simp)

omit [DecidableEq ι] in
theorem client_pull_holding (hw : x.Working svc name services) (h : Balanced svc x held) (p : ι) :
    (x.net.client p).zmqPull
      = In.holding ((held (.pull p)).map fun z => spotFrames svc (.pull p) z.2) :=
  eq_holding (h.carried.memory (.pull p)) (hw.pull p)

omit [DecidableEq ι] in
theorem client_sub_holding (hw : x.Working svc name services) (h : Balanced svc x held) (p : ι) :
    (x.net.client p).zmqSub
      = In.holding ((held (.sub p)).map fun z => spotFrames svc (.sub p) z.2) :=
  eq_holding (h.carried.memory (.sub p)) (hw.sub p)

/-- `mq_recv_req` takes the request that came first. -/
theorem keeps_recv (hw : x.Working svc name services) (h : Balanced svc x held) (p : ι)
    (into : MqTag) (buf : List Byte) :
    Keeps svc name services x held (.net (.recv p into buf)) := by
  have hpull := client_pull_holding hw h p
  cases hheld : held (.pull p) with
  | nil =>
      have hrecv : mqRecvReq (x.net.client p) into buf = ⟨-1, x.net.client p, into, buf⟩ := by
        rw [hheld, List.map_nil] at hpull
        rw [mqRecvReq, hpull, recv_holding_nil]
      refine keeps_same hw h ?_ (shift_of_empty hheld 1)
      simp [Exchange.step, Net.step, hrecv, Net.setClient]
  | cons z rest =>
      have hz : z ∈ held (.pull p) := by rw [hheld]; simp
      have hvalid := hw.valid_of_mem h hz
      have hsuits : z.2.isReq = true ∧ z.2.tgsvc = svc p := h.carried.belongs (.pull p) z hz
      obtain ⟨k, parcel⟩ := z
      cases parcel with
      | res a => exact absurd hsuits.1 (by simp [Parcel.isReq])
      | req r =>
          have hr : r.Valid services := hvalid
          have hfront : (x.net.client p).zmqPull = In.holding ([r.tag.mem, r.body] ::
              rest.map fun y => spotFrames svc (.pull p) y.2) := by
            rw [hpull, hheld]
            rfl
          have hrecv : mqRecvReq (x.net.client p) into buf = ⟨0, _, _, _⟩ :=
            mqRecvReq_holding hfront hr.nonempty buf
          obtain ⟨c, hc⟩ : ∃ c : ClientSock, c = { x.net.client p with
              zmqPull := In.holding (rest.map fun y => spotFrames svc (.pull p) y.2)
              sndrcv := countRecv (x.net.client p).sndrcv r.body.length } := ⟨_, rfl⟩
          have hstep : x.step svc name services (.net (.recv p into buf)) = x.setNet
              { x.net.setClient p c with
                handed := Function.update x.net.handed p
                  (x.net.handed p ++ [⟨buf, r.tag, store buf 0 r.body⟩]) } := by
            have hnet : x.net.step svc (.recv p into buf) = { x.net.setClient p c with
                handed := Function.update x.net.handed p
                  (x.net.handed p ++ [⟨buf, r.tag, store buf 0 r.body⟩]) } := by
              simp only [Net.step, hrecv, if_true, hc]
            rw [step_net (by rw [hnet]; rfl) (by rw [hnet]; rfl), hnet]
          have hclient : (x.setNet (x.net.setClient p c)).Working svc name services :=
            hw.setClient (by rw [hc]; exact hw.push p) (by rw [hc]; rfl) (by rw [hc]; exact hw.sub p)
          have hholds : holds svc x held (.net (.recv p into buf))
              = shift held (.pull p) 1 fun _ => .handed p := rfl
          rw [Keeps, hstep, hholds]
          constructor
          · exact { hclient with }
          · refine ⟨h.carried.shift_first (q := .handed p) hheld (by simp) ?_ ?_
              (fun s hs _ => ?_) hsuits, fun s => ?_, fun s => ?_⟩
            · show (Function.update x.net.client p c p).zmqPull.queue = _
              rw [Function.update_self, hc]
              rfl
            · rfl
            · refine (Exchange.memory_setClient ?_ ?_ ?_ :
                (x.setNet (x.net.setClient p c)).memory s = x.memory s)
              · exact fun _ => by rw [hc]
              · exact fun heq => absurd heq hs
              · exact fun _ => by rw [hc]
            · by_cases hs : s = p
              · subst hs
                show List.Forall₂ _ (Function.update x.net.handed s _ s)
                  ((shift held (.pull s) 1 (fun _ => .handed s) (.handed s)).map Prod.snd)
                rw [Function.update_self, shift_first_self hheld (by simp), List.map_append]
                refine List.rel_append (h.handed s) (List.Forall₂.cons ⟨r, rfl, rfl, ?_⟩ .nil)
                exact fun hlen => store_front hlen
              · have hne : shift held (.pull p) 1 (fun _ => .handed p) (.handed s)
                    = held (.handed s) := shift_of_ne (by simp) (fun _ => by simpa using Ne.symm hs) 1
                show List.Forall₂ _ (Function.update x.net.handed p _ s)
                  ((shift held (.pull p) 1 (fun _ => .handed p) (.handed s)).map Prod.snd)
                rw [hne, Function.update_of_ne hs]
                exact h.handed s
            · have hne : shift held (.pull p) 1 (fun _ => .handed p) (.replied s)
                  = held (.replied s) := shift_of_ne (by simp) (by simp) 1
              show List.Forall₂ _ (x.replied s)
                ((shift held (.pull p) 1 (fun _ => .handed p) (.replied s)).map Prod.snd)
              rw [hne]
              exact h.replied s

/-- `mq_recv_res` takes the response that came first. -/
theorem keeps_recvRes (hap : Apart svc name services) (hw : x.Working svc name services)
    (h : Balanced svc x held) (p : ι) (buf : List Byte) :
    Keeps svc name services x held (.recvRes p buf) := by
  have hsub := client_sub_holding hw h p
  cases hheld : held (.sub p) with
  | nil =>
      have hrecv : mqRecvRes (x.net.client p) buf = ⟨-1, x.net.client p, buf⟩ := by
        rw [hheld, List.map_nil] at hsub
        rw [mqRecvRes, hsub, recv_holding_nil]
      refine keeps_same hw h ?_ (shift_of_empty hheld 1)
      simp [Exchange.step, hrecv, Net.setClient]
  | cons z rest =>
      have hz : z ∈ held (.sub p) := by rw [hheld]; simp
      have hvalid := hw.valid_of_mem h hz
      have hsuits : ∃ a, z.2 = .res a ∧ a.asker = p := h.carried.belongs (.sub p) z hz
      obtain ⟨k, parcel⟩ := z
      obtain ⟨a, rfl, hasker⟩ := hsuits
      have ha : a.Valid svc name := hvalid
      have hname : a.tag.name ≠ [] := by
        rw [ha.tagName]
        exact hap.named _
      have hfront : (x.net.client p).zmqSub = In.holding ([a.tag.name, a.body] ::
          rest.map fun y => spotFrames svc (.sub p) y.2) := by
        rw [hsub, hheld]
        rfl
      have hrecv := mqRecvRes_holding hfront hname ha.nonempty buf
      obtain ⟨c, hc⟩ : ∃ c : ClientSock, c = { x.net.client p with
          zmqSub := In.holding (rest.map fun y => spotFrames svc (.sub p) y.2)
          sndrcv := countRecv (x.net.client p).sndrcv a.body.length } := ⟨_, rfl⟩
      have hstep : x.step svc name services (.recvRes p buf) = { x with
          net := x.net.setClient p c
          replied := Function.update x.replied p
            (x.replied p ++ [⟨buf, makeEof (store buf 0 a.body) a.body.length⟩]) } := by
        simp only [Exchange.step, hrecv, if_true, hc]
      have hclient : (x.setNet (x.net.setClient p c)).Working svc name services :=
        hw.setClient (by rw [hc]; exact hw.push p) (by rw [hc]; exact hw.pull p) (by rw [hc]; rfl)
      have hholds : holds svc x held (.recvRes p buf)
          = shift held (.sub p) 1 fun _ => .replied p := rfl
      rw [Keeps, hstep, hholds]
      constructor
      · exact { hclient with }
      · refine ⟨h.carried.shift_first (q := .replied p) hheld (by simp) ?_ ?_
          (fun s hs _ => ?_) ⟨a, rfl, hasker⟩, fun s => ?_, fun s => ?_⟩
        · show (Function.update x.net.client p c p).zmqSub.queue = _
          rw [Function.update_self, hc]
          rfl
        · rfl
        · have hsame : (x.setNet (x.net.setClient p c)).memory s = x.memory s := by
            refine Exchange.memory_setClient ?_ ?_ ?_
            · exact fun _ => by rw [hc]
            · exact fun _ => by rw [hc]
            · exact fun heq => absurd heq hs
          rw [← hsame]
          cases s <;> rfl
        · have hne : shift held (.sub p) 1 (fun _ => .replied p) (.handed s)
              = held (.handed s) := shift_of_ne (by simp) (by simp) 1
          show List.Forall₂ _ (x.net.handed s)
            ((shift held (.sub p) 1 (fun _ => .replied p) (.handed s)).map Prod.snd)
          rw [hne]
          exact h.handed s
        · by_cases hs : s = p
          · subst hs
            show List.Forall₂ _ (Function.update x.replied s _ s)
              ((shift held (.sub s) 1 (fun _ => .replied s) (.replied s)).map Prod.snd)
            rw [Function.update_self, shift_first_self hheld (by simp), List.map_append]
            exact List.rel_append (h.replied s) (List.Forall₂.cons ⟨a, rfl, rfl⟩ .nil)
          · have hne : shift held (.sub p) 1 (fun _ => .replied p) (.replied s)
                = held (.replied s) := shift_of_ne (by simp) (fun _ => by simpa using Ne.symm hs) 1
            show List.Forall₂ _ (Function.update x.replied p _ s)
              ((shift held (.sub p) 1 (fun _ => .replied p) (.replied s)).map Prod.snd)
            rw [hne, Function.update_of_ne hs]
            exact h.replied s

/-! ### The router -/

/-- What the broker publishes of the parcels for a slot are the responses for its service. -/
theorem subscribed_published (hap : Apart svc name services)
    {zs : List (Nat × Parcel ι)} (hzs : ∀ z ∈ zs, z.2.Valid svc name services) (s : Str) :
    (if services.contains s then
        subscribed [s] ((zs.filter fun z => !z.2.isReq).map fun z => z.2.message.tail)
      else []) = (zs.filter fun z => behindRouter z = .published s).map fun z =>
        spotFrames svc (.published s) z.2 := by
  by_cases hs : s ∈ services
  · have hcontains : services.contains s = true := by simpa using hs
    rw [if_pos hcontains, subscribed, List.filter_map, List.filter_filter]
    refine congrArg _ (List.filter_congr fun z hz => ?_)
    have hz := hzs z hz
    obtain ⟨k, parcel⟩ := z
    cases parcel with
    | req r => simp [behindRouter, Parcel.isReq]
    | res a =>
        have ha : a.Valid svc name := hz
        have hsvc : s <+: a.tag.svc ↔ a.tag.svc = s := by
          constructor
          · intro hprefix
            rw [ha.tagSvc] at hprefix ⊢
            exact (hap.prefixes s hs _ (hap.service _) hprefix).symm
          · rintro rfl
            exact List.prefix_refl _
        rw [Bool.eq_iff_iff]
        simp [behindRouter, Parcel.isReq, Parcel.tgsvc, Parcel.message, hsvc]
  · have hcontains : ¬ services.contains s = true := by simpa using hs
    have hnone : zs.filter (fun z => behindRouter z = .published s) = [] := by
      refine List.filter_eq_nil_iff.mpr fun z hz => ?_
      have hz := hzs z hz
      obtain ⟨k, parcel⟩ := z
      cases parcel with
      | req r => simp [behindRouter, Parcel.isReq]
      | res a =>
          have ha : a.Valid svc name := hz
          have hne : a.tag.svc ≠ s := by
            rintro rfl
            exact hs (by rw [ha.tagSvc]; exact hap.service _)
          simpa [behindRouter, Parcel.isReq, Parcel.tgsvc] using hne
    rw [if_neg hcontains, hnone, List.map_nil]

/-- The router sends nothing anywhere else. -/
theorem filter_behindRouter {r : Spot ι} (hout : r ≠ .routerOut) (hpub : ∀ s, r ≠ .published s)
    (zs : List (Nat × Parcel ι)) : zs.filter (fun z => behindRouter z = r) = [] := by
  refine List.filter_eq_nil_iff.mpr fun z _ => ?_
  cases hz : z.2.isReq with
  | true => simpa [behindRouter, hz] using hout.symm
  | false => simpa [behindRouter, hz] using (hpub z.2.tgsvc).symm

/-- `router_callback` sends on as many of the parcels as its limit allows. -/
theorem keeps_router (hap : Apart svc name services) (hw : x.Working svc name services)
    (h : Balanced svc x held) : Keeps svc name services x held (.net .router) := by
  have hvalid : ∀ z ∈ held .routerIn, z.2.Valid svc name services := fun z hz =>
    hw.valid_of_mem h hz
  have hidle : x.net.ctx.routerOut.Idle fun s => services.contains s := by
    refine ⟨hw.router, isOpen_stream ?_ (h.carried.memory .routerOut), hw.results⟩
    intro m hm
    obtain ⟨z, -, rfl⟩ := List.mem_map.mp hm
    exact spotFrames_ne_nil rfl z.2
  have hin : (routerEnter x.net.ctx).ctx.routerIn = In.holding ((held .routerIn).map fun z =>
      svc z.2.sender :: msgTypeOf z.2.isReq :: z.2.message.tail) := by
    refine eq_holding ((h.carried.memory .routerIn).trans ?_) hw.routerIn
    simp only [cargo, spotFrames, ← message_eq]
  have hrun := routerLoop_mixed (s := routerEnter x.net.ctx) 1000 (held .routerIn) hidle hw.pub (by
      intro z hz
      refine ⟨z.2.tgsvc, z.2.message.drop 2, message_tail z.2, ?_, ?_, ?_⟩
      · cases z.2 <;> simp [Parcel.message]
      · exact fun f hf => relayable_message (hvalid z hz) f (List.mem_of_mem_tail hf)
      · intro hreq
        have hz := hvalid z hz
        obtain ⟨k, parcel⟩ := z
        cases parcel with
        | req r => simpa [Parcel.tgsvc] using (show r.Valid services from hz).known
        | res a => exact absurd hreq (by simp [Parcel.isReq])) hin
  set zs := (held .routerIn).take 1000 with hzs
  set ms := (zs.filter fun z => !z.2.isReq).map fun z => z.2.message.tail with hms
  have hne : ∀ m ∈ ms, m ≠ [] := by
    intro m hm
    obtain ⟨z, -, rfl⟩ := List.mem_map.mp hm
    rw [message_tail]
    exact List.cons_ne_nil _ _
  have hcallback : routerCallback x.net.ctx = { x.net.ctx with
      routerIn := In.holding (((held .routerIn).drop 1000).map fun z =>
        svc z.2.sender :: msgTypeOf z.2.isReq :: z.2.message.tail)
      routerOut := x.net.ctx.routerOut.put (stream ((zs.filter fun z => z.2.isReq).map fun z =>
        z.2.message.tail))
      zmqPub := x.net.ctx.zmqPub.put (stream ms) } := hrun
  have hsince : x.net.ctx.zmqPub.since (routerCallback x.net.ctx).zmqPub = ms := by
    rw [hcallback]
    exact since_of_sent hne rfl
  have hcopies : ∀ s, (if services.contains s then subscribed [(x.net.slot s).svcName] ms else [])
      = (zs.filter fun z => behindRouter z = .published s).map fun z =>
        spotFrames svc (.published s) z.2 := fun s => by
    rw [hw.called, hms]
    exact subscribed_published hap (fun z hz => hvalid z (List.mem_of_mem_take hz)) s
  have hstep : x.step svc name services (.net .router) = { x with
      net := x.net.setCtx (routerCallback x.net.ctx)
      published := fun s => x.published s ++
        (zs.filter fun z => behindRouter z = .published s).map fun z =>
          spotFrames svc (.published s) z.2 } := by
    simp only [Exchange.step, Net.step, Net.setCtx, hsince, hcopies, List.drop_length, List.map_nil,
      List.append_nil]
  have hctx : (x.setNet (x.net.setCtx (routerCallback x.net.ctx))).Working svc name services := by
    rw [hcallback]
    exact hw.setCtx rfl rfl rfl rfl
  rw [Keeps, hstep]
  constructor
  · refine hctx.of_net rfl (fun s m hm => ?_) hw.relayed hw.valid
    rcases List.mem_append.mp hm with hm | hm
    · exact hw.published s m hm
    · obtain ⟨z, -, rfl⟩ := List.mem_map.mp hm
      exact spotFrames_ne_nil rfl z.2
  · refine h.keep (h.carried.shift 1000 (fun z _ => ?_) ?_ (fun r hr => ?_) fun z _ => ?_)
      (shift_final rfl (fun z => ?_) 1000) rfl rfl
    · cases hz : z.2.isReq <;> simp [behindRouter, hz]
    · show (routerCallback x.net.ctx).routerIn.queue = _
      rw [hcallback]
      simp only [In.holding, cargo, spotFrames, ← message_eq]
    · cases r with
      | routerIn => exact absurd rfl hr
      | routerOut =>
          have hfilter : zs.filter (fun z => behindRouter z = .routerOut)
              = zs.filter fun z => z.2.isReq := by
            refine List.filter_congr fun z _ => ?_
            cases hz : z.2.isReq <;> simp [behindRouter, hz]
          show (routerCallback x.net.ctx).routerOut.sent = _
          rw [hcallback, ← hzs, hfilter]
          rfl
      | published s =>
          show stream (_ ++ _) = _
          rw [stream_append]
          rfl
      | _ =>
          rw [filter_behindRouter (by simp) (by simp), cargo_nil, List.append_nil]
          rfl
    · cases hz : z.2.isReq <;> simp [behindRouter, hz, Suits]
    · cases hz : z.2.isReq <;> simp [behindRouter, hz, Spot.isFinal]

/-! ### The slot's publisher -/

omit [DecidableEq ι] in
theorem ne_nil_update {κ : Type} [DecidableEq κ] {pipe : κ → List Msg} {ms : List Msg}
    (h : ∀ k, ∀ m ∈ pipe k, m ≠ []) (hms : ∀ m ∈ ms, m ≠ []) (k : κ) :
    ∀ j, ∀ m ∈ Function.update pipe k ms j, m ≠ [] := by
  intro j m hm
  by_cases hj : j = k
  · subst hj
    rw [Function.update_self] at hm
    exact hms m hm
  · rw [Function.update_of_ne hj] at hm
    exact h j m hm

/-- A pipe carries a response from the broker's publisher to the slot of its service. -/
theorem keeps_toSub (hw : x.Working svc name services) (h : Balanced svc x held) (s : Str) :
    Keeps svc name services x held (.toSub s) := by
  have hpipe : x.published s = (held (.published s)).map fun z =>
      spotFrames svc (.published s) z.2 := by
    refine stream_inj (hw.published s) (fun m hm => ?_) (h.carried.memory (.published s))
    obtain ⟨z, -, rfl⟩ := List.mem_map.mp hm
    exact spotFrames_ne_nil rfl z.2
  cases hheld : held (.published s) with
  | nil =>
      rw [hheld, List.map_nil] at hpipe
      exact keeps_same hw h (by simp [Exchange.step, hpipe]) (shift_of_empty hheld 1)
  | cons z rest =>
      rw [hheld, List.map_cons] at hpipe
      have hslot := hw.slot s
      obtain ⟨slot, hslot'⟩ : ∃ slot : SvcSlot, slot = { x.net.slot s with
          sub := (x.net.slot s).sub.arrive (spotFrames svc (.published s) z.2) } := ⟨_, rfl⟩
      have hstep : x.step svc name services (.toSub s) = { x with
          net := x.net.setSlot s slot
          published := Function.update x.published s
            (rest.map fun z => spotFrames svc (.published s) z.2) } := by
        simp only [Exchange.step, hpipe, hslot']
      have hset : (x.setNet (x.net.setSlot s slot)).Working svc name services := by
        rw [hslot']
        exact hw.setSlot ⟨hslot.dealer, hslot.push, hslot.pub⟩ (hw.called s) (hw.slotSub s)
      have hholds : holds svc x held (.toSub s)
          = shift held (.published s) 1 fun _ => .slotSub s := rfl
      rw [Keeps, hstep, hholds]
      constructor
      · refine hset.of_net rfl (ne_nil_update hw.published (fun m hm => ?_) s) hw.relayed hw.valid
        obtain ⟨y, -, rfl⟩ := List.mem_map.mp hm
        exact spotFrames_ne_nil rfl y.2
      · refine h.carry_first (q := .slotSub s) hheld (by simp) rfl rfl rfl rfl rfl ?_ ?_
          (fun r hr hr' => ?_) ?_
        · show stream (Function.update x.published s _ s) = _
          rw [Function.update_self]
          rfl
        · show (Function.update x.net.slot s slot s).sub.queue = _
          rw [Function.update_self, hslot']
          rfl
        · have hsame : (x.setNet (x.net.setSlot s slot)).memory r = x.memory r := by
            refine Exchange.memory_setSlot ?_ ?_ ?_
            · exact fun _ => by rw [hslot']
            · exact fun _ => by rw [hslot']
            · exact fun heq => absurd heq hr'
          rw [← hsame]
          cases r with
          | published t =>
              have ht : t ≠ s := by
                rintro rfl
                exact hr rfl
              show stream (Function.update x.published s _ t) = stream (x.published t)
              rw [Function.update_of_ne ht]
          | _ => rfl
        · exact h.carried.belongs (.published s) z (by rw [hheld]; simp)

/-- A pipe carries a response from the slot's publisher to the process it is for. -/
theorem keeps_toSubscriber (hw : x.Working svc name services) (h : Balanced svc x held) (p : ι) :
    Keeps svc name services x held (.toSubscriber p) := by
  have hpipe : x.relayed p = (held (.relayed p)).map fun z => spotFrames svc (.relayed p) z.2 := by
    refine stream_inj (hw.relayed p) (fun m hm => ?_) (h.carried.memory (.relayed p))
    obtain ⟨z, -, rfl⟩ := List.mem_map.mp hm
    exact spotFrames_ne_nil rfl z.2
  cases hheld : held (.relayed p) with
  | nil =>
      rw [hheld, List.map_nil] at hpipe
      exact keeps_same hw h (by simp [Exchange.step, hpipe]) (shift_of_empty hheld 1)
  | cons z rest =>
      rw [hheld, List.map_cons] at hpipe
      obtain ⟨c, hc⟩ : ∃ c : ClientSock, c = { x.net.client p with
          zmqSub := (x.net.client p).zmqSub.arrive (spotFrames svc (.relayed p) z.2) } := ⟨_, rfl⟩
      have hstep : x.step svc name services (.toSubscriber p) = { x with
          net := x.net.setClient p c
          relayed := Function.update x.relayed p
            (rest.map fun z => spotFrames svc (.relayed p) z.2) } := by
        simp only [Exchange.step, hpipe, hc]
      have hset : (x.setNet (x.net.setClient p c)).Working svc name services := by
        rw [hc]
        exact hw.setClient (hw.push p) (hw.pull p) (hw.sub p)
      have hholds : holds svc x held (.toSubscriber p)
          = shift held (.relayed p) 1 fun _ => .sub p := rfl
      rw [Keeps, hstep, hholds]
      constructor
      · refine hset.of_net rfl hw.published (ne_nil_update hw.relayed (fun m hm => ?_) p) hw.valid
        obtain ⟨y, -, rfl⟩ := List.mem_map.mp hm
        exact spotFrames_ne_nil rfl y.2
      · refine h.carry_first (q := .sub p) hheld (by simp) rfl rfl rfl rfl rfl ?_ ?_
          (fun r hr hr' => ?_) ?_
        · show stream (Function.update x.relayed p _ p) = _
          rw [Function.update_self]
          rfl
        · show (Function.update x.net.client p c p).zmqSub.queue = _
          rw [Function.update_self, hc]
          rfl
        · have hsame : (x.setNet (x.net.setClient p c)).memory r = x.memory r := by
            refine Exchange.memory_setClient ?_ ?_ ?_
            · exact fun _ => by rw [hc]
            · exact fun _ => by rw [hc]
            · exact fun heq => absurd heq hr'
          rw [← hsame]
          cases r with
          | relayed q =>
              have hq : q ≠ p := by
                rintro rfl
                exact hr rfl
              show stream (Function.update x.relayed p _ q) = stream (x.relayed q)
              rw [Function.update_of_ne hq]
          | _ => rfl
        · exact h.carried.belongs (.relayed p) z (by rw [hheld]; simp)

/-- What the slot publishes for a process are the responses to it. -/
theorem subscribed_relayed (hap : Apart svc name services) {s : Str} {zs : List (Nat × Parcel ι)}
    (hzs : ∀ z ∈ zs, z.2.Valid svc name services ∧ Suits svc (.slotSub s) z.2) (p : ι) :
    (if svc p = s then subscribed [name p] (zs.map fun z => z.2.message.drop 2) else [])
      = (zs.filter fun z => behindSlot z = .relayed p).map fun z =>
        spotFrames svc (.relayed p) z.2 := by
  have hres : ∀ z ∈ zs, ∃ k a, z = (k, .res a) ∧ a.Valid svc name ∧ svc a.asker = s := by
    intro z hz
    obtain ⟨hvalid, hreq, hsvc⟩ := hzs z hz
    obtain ⟨k, parcel⟩ := z
    cases parcel with
    | req r => exact absurd hreq (by simp [Parcel.isReq])
    | res a =>
        have ha : a.Valid svc name := hvalid
        exact ⟨k, a, rfl, ha, ha.tagSvc.symm.trans hsvc⟩
  by_cases hp : svc p = s
  · rw [if_pos hp, subscribed, List.filter_map]
    refine congrArg _ (List.filter_congr fun z hz => ?_)
    obtain ⟨k, a, rfl, ha, hs⟩ := hres z hz
    have hname : name p <+: a.tag.name ↔ a.asker = p := by
      rw [ha.tagName]
      constructor
      · exact fun hprefix => (hap.names p _ (hp.trans hs.symm) hprefix).symm
      · rintro rfl
        exact List.prefix_refl _
    rw [Bool.eq_iff_iff]
    simp [behindSlot, Parcel.message, hname]
  · have hnone : zs.filter (fun z => behindSlot z = .relayed p) = [] := by
      refine List.filter_eq_nil_iff.mpr fun z hz => ?_
      obtain ⟨k, a, rfl, -, hs⟩ := hres z hz
      have hne : a.asker ≠ p := by
        rintro rfl
        exact hp hs
      simpa [behindSlot] using hne
    rw [if_neg hp, hnone, List.map_nil]

/-- `ev_sub_to_pub` sends on as many of the responses as its limit allows. -/
theorem keeps_subToPub (hap : Apart svc name services) (hw : x.Working svc name services)
    (h : Balanced svc x held) (s : Str) : Keeps svc name services x held (.subToPub s) := by
  have hvalid : ∀ z ∈ held (.slotSub s), z.2.Valid svc name services ∧
      Suits svc (.slotSub s) z.2 := fun z hz =>
    ⟨hw.valid_of_mem h hz, h.carried.belongs _ z hz⟩
  have hres : ∀ z ∈ held (.slotSub s), ∃ k a, z = (k, .res a) := by
    intro z hz
    obtain ⟨-, hreq, -⟩ := hvalid z hz
    obtain ⟨k, parcel⟩ := z
    cases parcel with
    | req r => exact absurd hreq (by simp [Parcel.isReq])
    | res a => exact ⟨k, a, rfl⟩
  have hslot := hw.slot s
  have hsub : (x.net.slot s).sub
      = In.holding ((held (.slotSub s)).map fun z => z.2.message.tail) :=
    eq_holding (h.carried.memory (.slotSub s)) (hw.slotSub s)
  set zs := (held (.slotSub s)).take 1000 with hzs
  set ms := zs.map fun z => z.2.message.drop 2 with hms
  have hne : ∀ m ∈ ms, m ≠ [] := by
    intro m hm
    obtain ⟨z, -, rfl⟩ := List.mem_map.mp hm
    exact message_drop_ne_nil z.2
  have htail : (((held (.slotSub s)).map fun z => z.2.message.tail).take 1000).map
      (fun m => m.tail.map buffered) = ms := by
    rw [← List.map_take, List.map_map, hms]
    refine List.map_congr_left fun z hz => ?_
    have hrelay := relayable_drop (hvalid z (List.mem_of_mem_take hz)).1 2
    show (z.2.message.tail.tail).map buffered = _
    rw [message_tail, List.tail_cons, map_buffered hrelay]
  obtain ⟨slot, hslot'⟩ : ∃ slot : SvcSlot, slot = { x.net.slot s with
      sub := In.holding (((held (.slotSub s)).drop 1000).map fun z => z.2.message.tail)
      pub := (x.net.slot s).pub.put (stream ms) } := ⟨_, rfl⟩
  have hrun : (x.net.slot s).subToPub = slot := by
    have hloop := subToPubLoop_buffered 1000 ((held (.slotSub s)).map fun z => z.2.message.tail)
      (x.net.slot s).pub hslot.pub (by
        intro m hm
        obtain ⟨z, -, rfl⟩ := List.mem_map.mp hm
        rw [message_tail, List.tail_cons]
        exact message_drop_ne_nil z.2)
    rw [htail, ← List.map_drop] at hloop
    rw [SvcSlot.subToPub, hsub, mqRelayCallbackSubToPub, hloop, hslot']
  have hsince : (x.net.slot s).pub.since slot.pub = ms := by
    rw [hslot']
    exact since_of_sent hne rfl
  have hcopies : ∀ p, (if svc p = s then subscribed [name p] ms else [])
      = (zs.filter fun z => behindSlot z = .relayed p).map fun z =>
        spotFrames svc (.relayed p) z.2 := fun p =>
    subscribed_relayed hap (fun z hz => hvalid z (List.mem_of_mem_take hz)) p
  have hstep : x.step svc name services (.subToPub s) = { x with
      net := x.net.setSlot s slot
      relayed := fun p => x.relayed p ++
        (zs.filter fun z => behindSlot z = .relayed p).map fun z =>
          spotFrames svc (.relayed p) z.2 } := by
    simp only [Exchange.step, hrun, hsince, hcopies]
  have hset : (x.setNet (x.net.setSlot s slot)).Working svc name services := by
    rw [hslot']
    exact hw.setSlot ⟨hslot.dealer, hslot.push, hslot.pub⟩ (hw.called s) rfl
  rw [Keeps, hstep]
  constructor
  · refine hset.of_net rfl hw.published (fun p m hm => ?_) hw.valid
    rcases List.mem_append.mp hm with hm | hm
    · exact hw.relayed p m hm
    · obtain ⟨z, -, rfl⟩ := List.mem_map.mp hm
      exact spotFrames_ne_nil rfl z.2
  · have hdest : ∀ z ∈ zs, ∃ a, z.2 = .res a ∧ behindSlot z = .relayed a.asker := by
      intro z hz
      obtain ⟨k, a, rfl⟩ := hres z (List.mem_of_mem_take hz)
      exact ⟨a, rfl, rfl⟩
    refine h.keep (h.carried.shift 1000 (fun z hz => ?_) ?_ (fun r hr => ?_) fun z hz => ?_)
      (shift_final rfl (fun z => ?_) 1000) rfl rfl
    · obtain ⟨a, -, heq⟩ := hdest z hz
      rw [heq]
      simp
    · show (Function.update x.net.slot s slot s).sub.queue = _
      rw [Function.update_self, hslot']
      rfl
    · have hsame : (x.setNet (x.net.setSlot s slot)).memory r = x.memory r := by
        refine Exchange.memory_setSlot ?_ ?_ ?_
        · exact fun _ => by rw [hslot']
        · exact fun _ => by rw [hslot']
        · exact fun heq => absurd heq hr
      have hother : (∀ p, r ≠ .relayed p) → zs.filter (fun z => behindSlot z = r) = [] := by
        intro hr
        refine List.filter_eq_nil_iff.mpr fun z hz => ?_
        obtain ⟨a, -, heq⟩ := hdest z hz
        rw [heq]
        simpa using (hr a.asker).symm
      rw [← hsame]
      cases r with
      | relayed p =>
          show stream (_ ++ _) = _
          rw [stream_append]
          rfl
      | _ =>
          rw [hother (by simp), cargo_nil, List.append_nil]
          rfl
    · obtain ⟨a, hz', heq⟩ := hdest z hz
      rw [heq]
      exact ⟨a, hz', rfl⟩
    · obtain ⟨k, parcel⟩ := z
      cases parcel <;> rfl

/-- **Every step does what `holds` says.** -/
theorem keeps_step (hap : Apart svc name services) (hw : x.Working svc name services)
    (h : Balanced svc x held) {e : ExchangeStep ι} (he : e.Valid svc name services) :
    Keeps svc name services x held e := by
  cases e with
  | net e =>
      cases e with
      | send r => exact keeps_send hw h he
      | toSlot p => exact keeps_toSlot hw h p
      | pullToDealer s => exact keeps_pullToDealer hw h s
      | toRouter s => exact keeps_toRouter hw h s
      | router => exact keeps_router hap hw h
      | toDealer s => exact keeps_toDealer hw h s
      | dealerToPush s => exact keeps_dealerToPush hw h s
      | toProcess p => exact keeps_toProcess hw h p
      | recv p into buf => exact keeps_recv hw h p into buf
  | respond a => exact keeps_respond hap hw h he
  | toSub s => exact keeps_toSub hw h s
  | subToPub s => exact keeps_subToPub hap hw h s
  | toSubscriber p => exact keeps_toSubscriber hw h p
  | recvRes p buf => exact keeps_recvRes hap hw h p buf

/-! ### What a step sends -/

/-- What a step adds to what was sent. -/
def sentBy (x : Exchange ι) : ExchangeStep ι → List (Parcel ι)
  | .net (.send r) =>
      if (mqSendReq (x.net.client r.sender) r.tag r.tgsvc r.body).1 = 0 then [.req r] else []
  | .respond a => if (mqSendRes (x.net.client a.sender) a.tag a.body).1 = 0 then [.res a] else []
  | _ => []

theorem sent_step (x : Exchange ι) (e : ExchangeStep ι) :
    (x.step svc name services e).sent = x.sent ++ sentBy x e := by
  have hsame : ∀ {e : NetStep ι}, (x.net.step svc e).sent = x.net.sent →
      (x.step svc name services (.net e)).sent = x.sent := by
    intro e hsent
    simp only [Exchange.step, hsent, List.drop_length, List.map_nil, List.append_nil]
  cases e with
  | net e =>
      cases e with
      | send r =>
          show x.sent ++ ((x.net.step svc (.send r)).sent.drop x.net.sent.length).map .req = _
          simp only [Net.step, sentBy]
          split
          · simp
          · simp
      | toSlot p =>
          refine (hsame ?_).trans (List.append_nil _).symm
          unfold Net.step
          simp only
          split <;> rfl
      | toRouter s =>
          refine (hsame ?_).trans (List.append_nil _).symm
          unfold Net.step
          simp only
          split <;> rfl
      | toDealer s =>
          refine (hsame ?_).trans (List.append_nil _).symm
          unfold Net.step
          simp only
          split <;> rfl
      | toProcess p =>
          refine (hsame ?_).trans (List.append_nil _).symm
          unfold Net.step
          simp only
          split <;> rfl
      | _ => exact (hsame rfl).trans (List.append_nil _).symm
  | respond a =>
      simp only [Exchange.step, sentBy]
      split
      · rfl
      · exact (List.append_nil _).symm
  | toSub s =>
      refine Eq.trans ?_ (List.append_nil _).symm
      unfold Exchange.step
      simp only
      split <;> rfl
  | toSubscriber p =>
      refine Eq.trans ?_ (List.append_nil _).symm
      unfold Exchange.step
      simp only
      split <;> rfl
  | subToPub s => exact (List.append_nil _).symm
  | recvRes p buf => exact (List.append_nil _).symm

omit [DecidableEq ι] in
theorem sentBy_send (hw : x.Working svc name services) {r : Request ι} (hr : r.Valid services) :
    sentBy x (.net (.send r)) = [.req r] := by
  have hhead : ∀ f ∈ [mqReq, r.tgsvc, r.tag.mem], f ≠ [] := by
    simpa using ⟨by decide, hr.tgsvc.nonempty, r.tag.mem_ne_nil⟩
  exact if_pos (sendFrames_free (hw.push r.sender).free hhead hr.nonempty).1

omit [DecidableEq ι] in
theorem sentBy_respond (hap : Apart svc name services) (hw : x.Working svc name services)
    {a : Response ι} (ha : a.Valid svc name) : sentBy x (.respond a) = [.res a] := by
  rw [sentBy, if_pos (mqSendRes_valid hap hw ha).1]

omit [DecidableEq ι] in
/-- What is sent is sent by the step. -/
theorem mem_sentBy {e : ExchangeStep ι} {z : Parcel ι} (h : z ∈ sentBy x e) :
    (∃ r, z = .req r ∧ e = .net (.send r)) ∨ ∃ a, z = .res a ∧ e = .respond a := by
  unfold sentBy at h
  split at h
  · rename_i r
    exact Or.inl ⟨r, by split at h <;> simp_all, rfl⟩
  · rename_i a
    exact Or.inr ⟨a, by split at h <;> simp_all, rfl⟩
  · exact absurd h List.not_mem_nil

omit [DecidableEq ι] in
theorem length_sentBy_le (x : Exchange ι) (e : ExchangeStep ι) : (sentBy x e).length ≤ 1 := by
  unfold sentBy
  split
  · split <;> simp
  · split <;> simp
  · simp

end Steps

/-! ### Runs -/

omit [DecidableEq ι] in
theorem working_start (interhub : Bool) (conn : ι → Int × Bool × Str) :
    (Exchange.start services interhub conn).Working svc name services where
  push _ := steady_pipe rfl rfl
  pull _ := rfl
  sub _ := rfl
  slot := SvcSlot.ready_connect
  slotSub _ := rfl
  called _ := rfl
  router := rfl
  results := rfl
  pub := rfl
  routerIn := rfl
  published _ _ hm := absurd hm List.not_mem_nil
  relayed _ _ hm := absurd hm List.not_mem_nil
  valid _ hz := absurd hz List.not_mem_nil

omit [DecidableEq ι] in
theorem balanced_start (interhub : Bool) (conn : ι → Int × Bool × Str) :
    Balanced svc (Exchange.start services interhub conn) fun _ => [] where
  carried := by
    refine ⟨Placed.empty, fun p => ?_, fun p x hx => absurd hx List.not_mem_nil⟩
    cases p <;> rfl
  handed _ := List.Forall₂.nil
  replied _ := List.Forall₂.nil

omit [DecidableEq ι] in
/-- What is nowhere on the way was received. -/
theorem Balanced.received_of_final {x : Exchange ι} {held : Spot ι → List (Nat × Parcel ι)}
    (h : Balanced svc x held) {k : Nat} {z : Parcel ι} {p : Spot ι} (hz : (k, z) ∈ held p)
    (hp : p.isFinal = true) : Received svc held k z := by
  have hsuits : Suits svc p z := h.carried.belongs p (k, z) hz
  cases p with
  | handed q =>
      cases z with
      | req r => exact ⟨q, hsuits.2.symm, hz⟩
      | res a => exact absurd hsuits.1 (by simp [Parcel.isReq])
  | replied q =>
      obtain ⟨a, rfl, rfl⟩ := hsuits
      exact hz
  | _ => exact absurd hp (by simp [Spot.isFinal])

omit [DecidableEq ι] in
theorem Balanced.received_of_drained {x : Exchange ι} {held : Spot ι → List (Nat × Parcel ι)}
    (h : Balanced svc x held) (hdrained : x.Drained) {k : Nat} {z : Parcel ι}
    (hk : x.sent[k]? = some z) : Received svc held k z := by
  obtain ⟨p, hp⟩ := h.carried.placed.somewhere (k, z) hk
  cases hfinal : p.isFinal with
  | true => exact h.received_of_final hp hfinal
  | false =>
      have hmem := h.carried.memory p
      rw [hdrained p, cargo] at hmem
      have hne : ∀ m ∈ (held p).map fun y => spotFrames svc p y.2, m ≠ [] := by
        intro m hm
        obtain ⟨y, -, rfl⟩ := List.mem_map.mp hm
        exact spotFrames_ne_nil hfinal y.2
      have hlen := length_le_stream hne
      rw [← hmem, List.length_map] at hlen
      have hpos := List.length_pos_of_mem hp
      rw [List.length_nil] at hlen
      omega

/-- **In every state of every run each request and each response that was sent is in one
place, where it belongs, and unaltered; once nothing is on the way every request was received
by one process, which is of the service it is for, and every response by the process it is
for.** -/
theorem exchange_delivery (hap : Apart svc name services) (interhub : Bool)
    (conn : ι → Int × Bool × Str) (es : List (ExchangeStep ι))
    (h : ∀ e ∈ es, e.Valid svc name services) :
    ∀ x ∈ states (Exchange.step svc name services) (Exchange.start services interhub conn) es,
      ∃ held, Balanced svc x held ∧ (∀ k z, x.sent[k]? = some z → ∃! p, (k, z) ∈ held p) ∧
        (x.Drained → ∀ k z, x.sent[k]? = some z → Received svc held k z) := by
  have hsteps : AllSteps (Exchange.step svc name services)
      (fun _ e => e.Valid svc name services) (Exchange.start services interhub conn) es :=
    AllSteps.of_forall h _
  have hinv : ∀ x ∈ states (Exchange.step svc name services)
      (Exchange.start services interhub conn) es,
      x.Working svc name services ∧ ∃ held, Balanced svc x held := by
    refine states_inv (fun x e hx he => ?_) es ⟨working_start interhub conn, _,
      balanced_start interhub conn⟩ hsteps
    obtain ⟨hw, held, hheld⟩ := hx
    exact ⟨(keeps_step hap hw hheld he).1, _, (keeps_step hap hw hheld he).2⟩
  intro x hx
  obtain ⟨-, held, hheld⟩ := hinv x hx
  exact ⟨held, hheld, fun k z hk => hheld.carried.placed.unique hk,
    fun hdrained k z hk => hheld.received_of_drained hdrained hk⟩

end System

/-! ### One question and its answer -/

namespace AskPsib

/-- A process of `AHIF` and one of `PSIB`. -/
def svc (p : Bool) : Str := if p then lit "PSIB" else lit "AHIF"

def name (p : Bool) : Str := if p then lit "psib_2" else lit "ahif_1"

def tag : MqTag := (MqTag.zero.setSvc (lit "AHIF")).setName (lit "ahif_1")

/-- It asks, and the other answers with what it was asked. -/
def steps : List (ExchangeStep Bool) :=
  [.net (.send ⟨false, tag, lit "PSIB", lit "hi"⟩), .net (.toSlot false),
    .net (.pullToDealer (lit "AHIF")), .net (.toRouter (lit "AHIF")), .net .router,
    .net (.toDealer (lit "PSIB")), .net (.dealerToPush (lit "PSIB")), .net (.toProcess true),
    .net (.recv true MqTag.zero (zeros 4)), .respond ⟨true, false, tag, lit "hi"⟩,
    .net (.toSlot true), .net (.pullToDealer (lit "PSIB")), .net (.toRouter (lit "PSIB")),
    .net .router, .toSub (lit "AHIF"), .subToPub (lit "AHIF"), .toSubscriber false,
    .recvRes false (zeros 4)]

theorem apart : Apart svc name [lit "AHIF", lit "PSIB"] where
  service p := by cases p <;> decide
  proper s hs := by
    simp only [List.mem_cons, List.not_mem_nil, or_false] at hs
    rcases hs with rfl | rfl <;> exact ⟨by decide, by decide, by decide⟩
  prefixes := by decide
  named p := by cases p <;> decide
  names p q hsvc := by
    cases p <;> cases q <;> first | exact fun _ => rfl | exact absurd hsvc (by decide)

theorem valid : ∀ e ∈ steps, e.Valid svc name [lit "AHIF", lit "PSIB"] := by
  have hreq : (⟨false, tag, lit "PSIB", lit "hi"⟩ : Request Bool).Valid
      [lit "AHIF", lit "PSIB"] :=
    ⟨⟨by decide, by decide, by decide⟩, by decide, by decide, by decide⟩
  have hres : (⟨true, false, tag, lit "hi"⟩ : Response Bool).Valid svc name :=
    ⟨by decide +kernel, by decide +kernel, by decide +kernel, by decide, by decide⟩
  simp [steps, ExchangeStep.Valid, NetStep.Valid, hreq, hres]

end AskPsib

theorem exchange_delivery_psib :
    let x := AskPsib.steps.foldl (Exchange.step AskPsib.svc AskPsib.name [lit "AHIF", lit "PSIB"])
      (Exchange.start [lit "AHIF", lit "PSIB"] false fun _ => (0, true, []))
    (∃ held, Balanced AskPsib.svc x held) ∧
      (x.replied false).map Replied.buf = [lit "hi" ++ zeros 2] := by
  intro x
  obtain ⟨held, hheld, -, -⟩ := exchange_delivery AskPsib.apart false _ AskPsib.steps
    AskPsib.valid x (foldl_mem_states _ _)
  exact ⟨⟨held, hheld⟩, by decide +kernel⟩

end Brocoli
