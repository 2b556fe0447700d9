/-
What a broker sends to another arrives once, and in order.

The proxy may take the messages of the publishers in any order, but those of one publisher it
takes as they were published; and as a message has the id of one broker for its topic, only
the thread of that broker gets a copy.  So what is on its way from one broker to another is
one line through three queues, and every step moves its front part on by a place or adds to
its end.
-/
import Brocoli.Switch

namespace Brocoli.Hub

open CMem Multipart NTree Runs Carriage

section System

variable {β : Type} [DecidableEq β] {id : β → Str} {time : β → Nat → Time}

/-! ### Lines -/

@[simp] theorem relaysFrom_append (a : β) (l r : List (Item β)) :
    relaysFrom a (l ++ r) = relaysFrom a l ++ relaysFrom a r := by
  rw [relaysFrom, List.filterMap_append, lane_append]
  rfl

@[simp] theorem relaysFrom_nil (a : β) : relaysFrom a [] = [] := rfl

@[simp] theorem relaysFrom_relay (a b : β) (r : Relay) :
    relaysFrom a [.relay b r] = if b = a then [r] else [] := by
  by_cases h : b = a <;> simp [relaysFrom, Item.sent?, lane_cons, h]

@[simp] theorem relaysFrom_regi (a : β) (svcRegi : MqRegi) :
    relaysFrom a [.regi svcRegi] = [] := rfl

omit [DecidableEq β] in
theorem subFrames_ne_nil (b : β) (i : Item β) : subFrames id b i ≠ [] := by
  cases i <;> simp [subFrames, Item.toSub, Relay.toSub, SubMsg.frames]

omit [DecidableEq β] in
theorem pubFrames_ne_nil (z : β × Relay) : pubFrames id z ≠ [] := by
  simp [pubFrames, Relay.toSub, SubMsg.frames]

/-! ### Topics -/

omit [DecidableEq β] in
theorem not_prefix_of_isBrokerId {i : Str} (h : IsBrokerId i) : ¬ mqReg <+: i ∧ ¬ i <+: mqReg := by
  obtain ⟨b, rest, rfl, hb⟩ := first_of_id h
  have hreg : mqReg = 115 :: lit "vc_reg" := by decide
  rw [hreg, List.cons_prefix_cons, List.cons_prefix_cons]
  exact ⟨fun hpre => hb hpre.1.symm, fun hpre => hb hpre.1⟩

omit [DecidableEq β] in
/-- Every thread has subscribed to the registrations. -/
theorem copies_regi (x : Switch β) (svcRegi : MqRegi) (b : β) :
    x.copies [mqReg, svcRegi.mem] b = [subFrames id b (.regi svcRegi)] := by
  simp [Switch.copies, subscribed, subFrames, Item.toSub, SubMsg.frames]

/-- A message for a broker has the id of that broker for its topic, and only its thread has
subscribed to it. -/
theorem copies_relay (hids : Ids id) {x : Switch β} (hcalled : ∀ b, (x.thread b).brokerId = id b)
    (z : β × Relay) (b a : β) :
    x.copies (pubFrames id z) b
      = (if z.1 = b then [Item.relay a z.2] else []).map (subFrames id b) := by
  have hreg := not_prefix_of_isBrokerId (hids.proper z.1)
  have hid : id b <+: id z.1 ↔ z.1 = b := by
    constructor
    · exact fun hpre => (hids.prefixes b z.1 hpre).symm
    · rintro rfl
      exact List.prefix_refl _
  rw [Switch.copies, hcalled]
  by_cases hz : z.1 = b
  · subst hz
    simp [subscribed, pubFrames, subFrames, Item.toSub, Relay.toSub, SubMsg.frames]
  · simp [subscribed, pubFrames, Relay.toSub, SubMsg.frames, hreg.1, hid, hz]

/-! ### What the callback of the dealer publishes -/

theorem interhubCallback_read {t : BrokerThread} (hpub : t.zmqPub.kind = .pub)
    {ms : List DealerMsg} (hin : t.zmqDealerIn = In.holding (ms.map DealerMsg.frames))
    (hfits : ∀ m ∈ ms, m.Fits) (hall : AllReadFrom t false ms) :
    interhubCallback t
      = { waiting t [] with zmqPub := t.zmqPub.put (stream (ms.flatMap (answer t))) } := by
  have ht : t = waiting t ms := by rw [waiting, ← hin]
  have hlen : ms.length ≤ t.zmqDealerIn.queue.length := by
    rw [ht]
    exact length_le_waiting t ms
  rw [interhubCallback]
  conv_lhs => rw [ht]
  exact whileSome_read ms (by rw [← ht]; exact hlen) hpub typeBuf_zero hfits hall

omit [DecidableEq β] in
theorem Passed.mono {registered registered' : List MqRegi} {a : β} {m : DealerMsg}
    {z : β × Relay} (h : Passed id registered a m z) (hsub : registered ⊆ registered') :
    Passed id registered' a m z := by
  cases h with
  | req hother hregi hbroker hsvc => exact .req hother (hsub hregi) hbroker hsvc
  | resInterhub hbroker => exact .resInterhub hbroker

section Answers

variable {t : BrokerThread} {a : β} {registered : List MqRegi} {ms : List DealerMsg}

omit [DecidableEq β] in
/-- A message that is not a log line is published for the broker it should go to. -/
theorem answer_passed (ht : t.Working id a registered ms)
    (hregistered : ∀ svcRegi ∈ registered, Registration id svcRegi) {m : DealerMsg}
    (hm : m.Valid id) (hknown : Known t m) (hlog : m.isLog = false) :
    ∃ z, Passed id registered a m z ∧ z.2.toSub.Fits ∧ answer t m = [pubFrames id z] := by
  cases m with
  | req svc tag body =>
      obtain ⟨hsvc, hbody⟩ := hm.fits
      obtain ⟨i, hfind⟩ := Option.isSome_iff_exists.mp hknown
      obtain ⟨hother, svcRegi, hregi, rfl, htag⟩ := findSvcExistTree_some ht.tree hfind
      obtain ⟨b, hb⟩ := (hregistered svcRegi hregi).broker
      have hne : b ≠ a := by
        rintro rfl
        exact hother (hb.trans ht.called.symm)
      refine ⟨_, .req hne hregi hb htag, ⟨?_, ?_, hbody⟩, ?_⟩
      · exact Nat.lt_of_le_of_lt (length_cstr_le svc) hsvc
      · exact Nat.le_of_eq (tag.setBroker (id a)).size
      · rw [answer, hfind, hb, ht.called]
        rfl
  | resInterhub broker svc name body =>
      obtain ⟨hsvc, hname, b, hb⟩ := hm.response broker svc name body rfl
      have hbody : body.length ≤ maxBuffSize := hm.fits.2 body (by simp)
      refine ⟨_, .resInterhub hb, ⟨hsvc, hname, hbody⟩, ?_⟩
      rw [answer, hb]
      rfl
  | log text => exact absurd hlog (by simp [DealerMsg.isLog])

omit [DecidableEq β] in
/-- The messages that wait are published each for the broker it should go to, in their
order. -/
theorem answers_passed (ht : t.Working id a registered ms)
    (hregistered : ∀ svcRegi ∈ registered, Registration id svcRegi) : ∀ {ms : List DealerMsg},
    (∀ m ∈ ms, m.Valid id) → (∀ m ∈ ms, Known t m) →
    ∃ zs, List.Forall₂ (Passed id registered a) (ms.filter fun m => !m.isLog) zs ∧
      (∀ z ∈ zs, z.2.toSub.Fits) ∧ ms.flatMap (answer t) = zs.map (pubFrames id) := by
  intro ms hvalid hknown
  induction ms with
  | nil => exact ⟨[], List.Forall₂.nil, by simp, rfl⟩
  | cons m ms ih =>
      obtain ⟨zs, hpassed, hfits, hanswers⟩ := ih (fun x hx => hvalid x (by simp [hx]))
        fun x hx => hknown x (by simp [hx])
      rw [List.flatMap_cons, hanswers]
      cases hlog : m.isLog with
      | true =>
          have hnone : answer t m = [] := by
            cases m with
            | log text => rfl
            | _ => cases hlog
          refine ⟨zs, ?_, hfits, by rw [hnone, List.nil_append]⟩
          rw [List.filter_cons_of_neg (by simp [hlog])]
          exact hpassed
      | false =>
          obtain ⟨z, hz, hzfits, hanswer⟩ := answer_passed ht hregistered (hvalid m (by simp))
            (hknown m (by simp)) hlog
          refine ⟨z :: zs, ?_, List.forall_mem_cons.mpr ⟨hzfits, hfits⟩, by rw [hanswer]; rfl⟩
          rw [List.filter_cons_of_pos (by simp [hlog])]
          exact List.Forall₂.cons hz hpassed

end Answers

/-! ### What the callback of the subscriber sends -/

/-- What a message is sent to the router as. -/
def SubMsg.toRouter? : SubMsg → Option Msg
  | .regi _ => none
  | .relayed response svc tagOrName body =>
      some [if response then mqRes else mqReq, cstr svc, (MqTag.zero.recv tagOrName).mem, body]

/-- What is missed is a registration. -/
theorem toRouter_heard (i : Str) : ∀ (ms : List SubMsg) (stale : Bool),
    (heard i stale ms).filterMap SubMsg.toRouter? = ms.filterMap SubMsg.toRouter? := by
  intro ms
  induction ms with
  | nil => intro stale; rfl
  | cons m ms ih =>
      intro stale
      rw [heard]
      by_cases hrec : recognised stale m = true
      · rw [if_pos hrec, List.filterMap_cons, List.filterMap_cons, ih]
      · have hnone : SubMsg.toRouter? m = none := by
          cases m with
          | regi svcRegi => rfl
          | relayed response svc tagOrName body => simp [recognised, SubMsg.isRegi] at hrec
        rw [if_neg hrec, ih, List.filterMap_cons, hnone]

/-- Handling messages sends those that are relayed, and changes the small tree. -/
structure Handled (P : Str → Str → Prop) (t t' : BrokerThread) (ms : List SubMsg) : Prop where
  called : t'.brokerId = t.brokerId
  pub : t'.zmqPub = t.zmqPub
  dealerIn : t'.zmqDealerIn = t.zmqDealerIn
  dealerOut : t'.zmqDealerOut
    = t.zmqDealerOut.put (stream (ms.filterMap SubMsg.toRouter?))
  tree : Entries P t.rootNode →
    (∀ svcRegi, SubMsg.regi svcRegi ∈ ms → P (brokerIdOf svcRegi) svcRegi.tagSvc) →
    Entries P t'.rootNode

theorem handled_foldl (P : Str → Str → Prop) (clock : Nat → Time) : ∀ (ms : List SubMsg)
    (t : BrokerThread), Handled P t (ms.foldl (handle clock) t) ms := by
  intro ms
  induction ms with
  | nil => exact fun t => ⟨rfl, rfl, rfl, by simp, fun h _ => h⟩
  | cons m ms ih =>
      intro t
      obtain ⟨hcalled, hpub, hin, hout, htree⟩ := ih (handle clock t m)
      rw [List.foldl_cons]
      cases m with
      | regi svcRegi =>
          refine ⟨hcalled, hpub, hin, hout, fun h hnew => htree ?_ fun r hr => hnew r ?_⟩
          · exact entries_chkSmallTree h (hnew svcRegi (by simp)) _ _
          · exact List.mem_cons_of_mem _ hr
      | relayed response svc tagOrName body =>
          refine ⟨hcalled, hpub, hin, ?_, fun h hnew => htree h fun r hr => hnew r ?_⟩
          · rw [hout]
            show (t.zmqDealerOut.put _).put _ = _
            rw [put_put, List.filterMap_cons, SubMsg.toRouter?, stream_cons]
          · exact List.mem_cons_of_mem _ hr

omit [DecidableEq β] in
/-- The callback takes everything the subscriber holds, and sends the messages of the other
brokers on. -/
theorem brokerSubCallback_items (P : Str → Str → Prop) (clock : Nat → Time) {t : BrokerThread}
    {b : β} (hids : Ids id) (hcalled : t.brokerId = id b) (hdealer : t.zmqDealerOut.Steady)
    {items : List (Item β)} (hin : t.zmqSub = In.holding (items.map (subFrames id b)))
    (hfits : ∀ i ∈ items, i.toSub.Fits) :
    ∃ t', brokerSubCallback clock t = { t' with zmqSub := In.holding [] } ∧
      Handled P t t' (heard (id b) false (items.map Item.toSub)) := by
  have ht : t = subWaiting t (items.map Item.toSub) := by
    have hframes : (items.map Item.toSub).map (SubMsg.frames t.brokerId)
        = items.map (subFrames id b) := by
      rw [List.map_map, hcalled]
      rfl
    rw [subWaiting, hframes, ← hin]
  have hid : IsBrokerId t.brokerId := hcalled ▸ hids.proper b
  have hms : ∀ m ∈ items.map Item.toSub, m.Fits := by
    intro m hm
    obtain ⟨i, hi, rfl⟩ := List.mem_map.mp hm
    exact hfits i hi
  have hrun := brokerSubCallback_eq clock hid hdealer hms
  rw [← ht, hcalled] at hrun
  exact ⟨_, hrun, handled_foldl P clock _ t⟩

/-! ### Steps -/

/-- The hub works, and what is on its way is in line. -/
structure Sound (id : β → Str) (x : Switch β) (f : Flow β) : Prop where
  working : x.Working id
  carries : Carries id x f
  line : InLine id x f

section Steps

variable {x : Switch β} {f : Flow β}

/-- A broker sends a message to its thread. -/
theorem sound_arrive (h : Sound id x f) (a : β) {m : DealerMsg} (hm : m.Valid id) :
    Sound id (x.step time (.arrive a m)) f where
  working := by
    refine ⟨?_, h.working.pubToXsub, ?_, h.working.registered⟩
    · have ha := h.working.thread a
      refine all_update₂ (Q := fun b (t : BrokerThread) (ms : List DealerMsg) =>
        t.Working id b x.registered ms) h.working.thread ?_
      refine ⟨ha.called, ha.pub, ha.dealer, ha.tree, ?_⟩
      show (x.thread a).zmqDealerIn.arrive m.frames = _
      rw [ha.waiting, holding_arrive, List.map_append]
      rfl
    · refine all_update (Q := fun _ (ms : List DealerMsg) => ∀ m ∈ ms, m.Valid id)
        h.working.valid fun y hy => ?_
      rcases List.mem_append.mp hy with hy | hy
      · exact h.working.valid a y hy
      · rw [List.mem_singleton.mp hy]
        exact hm
  carries := by
    refine ⟨h.carries.announced, h.carries.published, h.carries.relayed, ?_, h.carries.fits,
      h.carries.fitsRelayed⟩
    have ha := h.carries.thread a
    exact all_update (Q := fun b t => CarriesThread id b (f.sub b) (f.got b) t) h.carries.thread
      ⟨ha.sub, ha.out⟩
  line := by
    refine ⟨?_, h.line.relays, h.line.regis⟩
    refine all_update₂ (Q := fun a arrived waiting =>
      PassedOn id x.registered a arrived waiting (f.passed a)) h.line.passed ?_
    obtain ⟨taken, harrived, hpassed⟩ := h.line.passed a
    exact ⟨taken, by rw [harrived, List.append_assoc], hpassed⟩

/-- The thread publishes what waits on its dealer. -/
theorem sound_interhub (h : Sound id x f) {a : β}
    (hread : AllReadFrom (x.thread a) false (x.waiting a)) :
    ∃ zs, Sound id (x.step time (.interhub a)) (f.step zs (.interhub a)) := by
  have ha := h.working.thread a
  obtain ⟨zs, hpassed, hfits, hanswers⟩ := answers_passed ha h.working.registered
    (h.working.valid a) hread.known
  have hrun := interhubCallback_read ha.pub ha.waiting (fun m hm => (h.working.valid a m hm).fits)
    hread
  have hne : ∀ m ∈ zs.map (pubFrames id), m ≠ [] := by
    intro m hm
    obtain ⟨z, -, rfl⟩ := List.mem_map.mp hm
    exact pubFrames_ne_nil z
  rw [hanswers] at hrun
  have hsince : (x.thread a).zmqPub.since (interhubCallback (x.thread a)).zmqPub
      = zs.map (pubFrames id) := by
    rw [hrun]
    exact since_of_sent hne rfl
  refine ⟨zs, ?_, ?_, ?_⟩
  · refine ⟨?_, h.working.pubToXsub, ?_, h.working.registered⟩
    · refine all_update₂ (Q := fun b (t : BrokerThread) (ms : List DealerMsg) =>
        t.Working id b x.registered ms) h.working.thread ?_
      rw [hrun]
      exact ⟨ha.called, ha.pub, ha.dealer, ha.tree, rfl⟩
    · exact all_update (Q := fun _ (ms : List DealerMsg) => ∀ m ∈ ms, m.Valid id)
        h.working.valid (by simp)
  · refine ⟨h.carries.announced, ?_, h.carries.relayed, ?_, ?_, h.carries.fitsRelayed⟩
    · refine all_update₂ (Q := fun _ (ms : List Msg) (zs : List (β × Relay)) =>
        ms = zs.map (pubFrames id)) h.carries.published ?_
      rw [hsince, h.carries.published, List.map_append]
    · have hthread := h.carries.thread a
      refine all_update (Q := fun b t => CarriesThread id b (f.sub b) (f.got b) t)
        h.carries.thread ?_
      rw [hrun]
      exact ⟨hthread.sub, hthread.out⟩
    · refine all_update (Q := fun _ (zs : List (β × Relay)) => ∀ z ∈ zs, z.2.toSub.Fits)
        h.carries.fits fun z hz => ?_
      rcases List.mem_append.mp hz with hz | hz
      · exact h.carries.fits a z hz
      · exact hfits z hz
  · refine ⟨?_, h.line.relays, h.line.regis⟩
    obtain ⟨taken, harrived, htaken⟩ := h.line.passed a
    refine all_update₂ (Q := fun b waiting published =>
      PassedOn id x.registered b (x.arrived b) waiting (f.crossed b ++ published))
      h.line.passed ?_
    refine ⟨taken ++ x.waiting a, by rw [harrived, List.append_nil], ?_⟩
    rw [List.filter_append, ← List.append_assoc]
    exact List.rel_append htaken hpassed

/-- The main thread publishes a registration. -/
theorem sound_announce (h : Sound id x f) {svcRegi : MqRegi} (hregi : Registration id svcRegi) :
    Sound id (x.step time (.announce svcRegi)) (f.step [] (.announce svcRegi)) := by
  have hsince : x.zmqPubToXsub.since (sendRegi x.zmqPubToXsub svcRegi)
      = [[mqReg, svcRegi.mem]] := by
    rw [sendRegi_eq h.working.pubToXsub]
    exact since_put_parts _ (by simp)
  have hsub : x.registered ⊆ x.registered ++ [svcRegi] := List.subset_append_left _ _
  refine ⟨⟨fun b => ?_, ?_, h.working.valid, ?_⟩, ⟨?_, h.carries.published, h.carries.relayed,
    h.carries.thread, h.carries.fits, h.carries.fitsRelayed⟩, fun a => ?_, h.line.relays,
    fun b => ?_⟩
  · have hb := h.working.thread b
    refine ⟨hb.called, hb.pub, hb.dealer, fun c hc d hd => ?_, hb.waiting⟩
    obtain ⟨r, hr, hbroker, hsvc⟩ := hb.tree c hc d hd
    exact ⟨r, hsub hr, hbroker, hsvc⟩
  · show (sendRegi x.zmqPubToXsub svcRegi).kind = .pub
    rw [sendRegi_eq h.working.pubToXsub]
    exact h.working.pubToXsub
  · intro r hr
    rcases List.mem_append.mp hr with hr | hr
    · exact h.working.registered r hr
    · rw [List.mem_singleton.mp hr]
      exact hregi
  · show x.announced ++ _ = (f.announced ++ [svcRegi]).map _
    rw [hsince, h.carries.announced, List.map_append]
    rfl
  · obtain ⟨taken, harrived, hpassed⟩ := h.line.passed a
    exact ⟨taken, harrived, hpassed.imp fun _ _ hz => hz.mono hsub⟩
  · show (f.queue b).filterMap Item.regi? ++ (f.announced ++ [svcRegi]) = _
    rw [← List.append_assoc, h.line.regis]
    rfl

omit [DecidableEq β] in
/-- The proxy has copied items into the pipes to the threads. -/
theorem carries_copied {x' : Switch β} (h : Carries id x f) {new : β → List (Item β)}
    {announced : List MqRegi} {published crossed : β → List (β × Relay)}
    (hrelayed : ∀ b, x'.relayed b = x.relayed b ++ (new b).map (subFrames id b))
    (hannounced : x'.announced = announced.map fun svcRegi => [mqReg, svcRegi.mem])
    (hpublished : ∀ a, x'.published a = (published a).map (pubFrames id))
    (hthread : x'.thread = x.thread) (hfits : ∀ a, ∀ z ∈ published a, z.2.toSub.Fits)
    (hnew : ∀ b, ∀ i ∈ new b, i.toSub.Fits) :
    Carries id x' { f with
      announced := announced
      published := published
      crossed := crossed
      relayed := fun b => f.relayed b ++ new b } where
  announced := hannounced
  published := hpublished
  relayed b := by rw [hrelayed, h.relayed, List.map_append]
  thread b := by
    rw [hthread]
    exact h.thread b
  fits := hfits
  fitsRelayed b i hi := by
    rcases List.mem_append.mp hi with hi | hi
    · rcases List.mem_append.mp hi with hi | hi
      · exact h.fitsRelayed b i (List.mem_append_left _ hi)
      · exact hnew b i hi
    · exact h.fitsRelayed b i (List.mem_append_right _ hi)

/-- The proxy copies a registration to all threads. -/
theorem sound_proxyMain (h : Sound id x f) :
    Sound id (x.step time .proxyMain) (f.step [] .proxyMain) := by
  have hpipe := h.carries.announced
  cases hf : f.announced with
  | nil =>
      rw [hf, List.map_nil] at hpipe
      rw [Switch.step, hpipe, Flow.step, hf]
      exact h
  | cons r rest =>
      rw [hf, List.map_cons] at hpipe
      have hcopies : ∀ b, x.copies [mqReg, r.mem] b = [Item.regi r].map (subFrames id b) :=
        copies_regi x r
      rw [Switch.step, hpipe, Flow.step, hf]
      refine ⟨⟨h.working.thread, h.working.pubToXsub, h.working.valid, h.working.registered⟩,
        carries_copied h.carries (fun b => by rw [← hcopies]) rfl h.carries.published rfl
          h.carries.fits fun b i hi => ?_, h.line.passed, fun a b => ?_, fun b => ?_⟩
      · have hmem : r ∈ x.registered := by
          rw [← h.line.regis b, hf]
          simp
        rw [List.mem_singleton.mp hi]
        exact (h.working.registered r hmem).address
      · show relaysFrom a (f.got b ++ f.sub b ++ (f.relayed b ++ [.regi r])) = _
        rw [← List.append_assoc, relaysFrom_append, relaysFrom_regi, List.append_nil]
        exact h.line.relays a b
      · show (f.got b ++ f.sub b ++ (f.relayed b ++ [Item.regi r])).filterMap Item.regi? ++ rest = _
        rw [← List.append_assoc, List.filterMap_append, List.append_assoc]
        refine Eq.trans ?_ (h.line.regis b)
        rw [hf]
        rfl

/-- The proxy copies a message to the thread it is for. -/
theorem sound_proxy (hids : Ids id) (h : Sound id x f) (a : β) :
    Sound id (x.step time (.proxy a)) (f.step [] (.proxy a)) := by
  have hpipe := h.carries.published a
  cases hf : f.published a with
  | nil =>
      rw [hf, List.map_nil] at hpipe
      rw [Switch.step, hpipe, Flow.step, hf]
      exact h
  | cons z rest =>
      rw [hf, List.map_cons] at hpipe
      have hcopies := copies_relay hids (fun b => (h.working.thread b).called) z
      rw [Switch.step, hpipe, Flow.step, hf]
      set new : β → List (Item β) := fun b => if z.1 = b then [.relay a z.2] else [] with hnew
      have hz : z.2.toSub.Fits := h.carries.fits a z (by rw [hf]; simp)
      refine ⟨⟨h.working.thread, h.working.pubToXsub, h.working.valid, h.working.registered⟩,
        carries_copied h.carries (fun b => by rw [← hcopies b a]) h.carries.announced ?_ rfl ?_
          fun b i hi => ?_, ?_, fun c b => ?_, fun b => ?_⟩
      · exact all_update₂ (Q := fun _ (ms : List Msg) (zs : List (β × Relay)) =>
          ms = zs.map (pubFrames id)) h.carries.published rfl
      · refine all_update (Q := fun _ (zs : List (β × Relay)) => ∀ z ∈ zs, z.2.toSub.Fits)
          h.carries.fits fun y hy => h.carries.fits a y ?_
        rw [hf]
        exact List.mem_cons_of_mem _ hy
      · by_cases hb : z.1 = b
        · simp only [hb, if_true] at hi
          rw [List.mem_singleton.mp hi]
          exact hz
        · simp [hb] at hi
      · refine all_update₂ (Q := fun c published crossed =>
          PassedOn id x.registered c (x.arrived c) (x.waiting c) (crossed ++ published))
          h.line.passed ?_
        rw [List.append_assoc, List.singleton_append, ← hf]
        exact h.line.passed a
      · show relaysFrom c (f.got b ++ f.sub b ++ (f.relayed b ++ new b))
          = lane b (Function.update f.crossed a (f.crossed a ++ [z]) c)
        rw [← List.append_assoc, relaysFrom_append]
        refine Eq.trans (congrArg (· ++ relaysFrom c (new b)) (h.line.relays c b)) ?_
        by_cases hc : c = a
        · subst hc
          rw [Function.update_self, lane_append, lane_cons, lane_nil, List.append_nil]
          by_cases hb : z.1 = b
          · simp [hnew, hb]
          · simp [hnew, hb]
        · rw [Function.update_of_ne hc]
          by_cases hb : z.1 = b
          · simp [hnew, hb, Ne.symm hc]
          · simp [hnew, hb]
      · show (f.got b ++ f.sub b ++ (f.relayed b ++ new b)).filterMap Item.regi? ++ _ = _
        rw [← List.append_assoc, List.filterMap_append]
        have hnone : (new b).filterMap Item.regi? = [] := by
          by_cases hb : z.1 = b
          · simp [hnew, hb, Item.regi?]
          · simp [hnew, hb]
        rw [hnone, List.append_nil]
        exact h.line.regis b

/-- What is on its way to a thread may go on to its subscriber, and through it. -/
theorem inLine_of_queue {x' : Switch β} {f' : Flow β} (h : InLine id x f)
    (hregistered : x'.registered = x.registered) (harrived : x'.arrived = x.arrived)
    (hwaiting : x'.waiting = x.waiting) (hcrossed : f'.crossed = f.crossed)
    (hpublished : f'.published = f.published) (hannounced : f'.announced = f.announced)
    (hqueue : ∀ b, f'.queue b = f.queue b) : InLine id x' f' where
  passed a := by
    rw [hregistered, harrived, hwaiting, Flow.passed, hcrossed, hpublished]
    exact h.passed a
  relays a b := by
    rw [hqueue, hcrossed]
    exact h.relays a b
  regis b := by
    rw [hqueue, hannounced, hregistered]
    exact h.regis b

/-- The pipe carries a message to the subscriber. -/
theorem sound_toSub (h : Sound id x f) (b : β) :
    Sound id (x.step time (.toSub b)) (f.step [] (.toSub b)) := by
  have hpipe := h.carries.relayed b
  cases hf : f.relayed b with
  | nil =>
      rw [hf, List.map_nil] at hpipe
      rw [Switch.step, hpipe, Flow.step, hf]
      exact h
  | cons i rest =>
      rw [hf, List.map_cons] at hpipe
      have hb := h.working.thread b
      have hthread := h.carries.thread b
      rw [Switch.step, hpipe, Flow.step, hf]
      refine ⟨?_, ?_, ?_⟩
      · refine ⟨?_, h.working.pubToXsub, h.working.valid, h.working.registered⟩
        exact all_update (Q := fun c (t : BrokerThread) =>
          t.Working id c x.registered (x.waiting c)) h.working.thread
          ⟨hb.called, hb.pub, hb.dealer, hb.tree, hb.waiting⟩
      · refine ⟨h.carries.announced, h.carries.published, ?_, ?_, h.carries.fits, ?_⟩
        · exact all_update₂ (Q := fun c (ms : List Msg) (items : List (Item β)) =>
            ms = items.map (subFrames id c)) h.carries.relayed rfl
        · refine all_update₂ (Q := fun c (t : BrokerThread) (items : List (Item β)) =>
            CarriesThread id c items (f.got c) t) h.carries.thread ⟨?_, hthread.out⟩
          show (x.thread b).zmqSub.arrive _ = _
          rw [hthread.sub, holding_arrive, List.map_append]
          rfl
        · refine all_update₂ (Q := fun _ (l r : List (Item β)) => ∀ i ∈ l ++ r, i.toSub.Fits)
            h.carries.fitsRelayed fun j hj => h.carries.fitsRelayed b j ?_
          rw [hf]
          simp only [List.mem_append, List.mem_cons] at hj ⊢
          tauto
      · refine inLine_of_queue h.line rfl rfl rfl rfl rfl rfl ?_
        refine all_update₂ (Q := fun c (l r : List (Item β)) =>
          f.got c ++ r ++ l = f.queue c) (fun c => rfl) ?_
        rw [Flow.queue, hf]
        simp

omit [DecidableEq β] in
theorem regi_mem_items {svcRegi : MqRegi} {items : List (Item β)}
    (h : SubMsg.regi svcRegi ∈ items.map Item.toSub) : svcRegi ∈ items.filterMap Item.regi? := by
  obtain ⟨i, hi, heq⟩ := List.mem_map.mp h
  refine List.mem_filterMap.mpr ⟨i, hi, ?_⟩
  cases i with
  | regi r => exact congrArg some (SubMsg.regi.inj heq)
  | relay origin r => exact absurd heq (by simp [Item.toSub, Relay.toSub])

omit [DecidableEq β] in
theorem toRouter_items (items : List (Item β)) :
    (items.map Item.toSub).filterMap SubMsg.toRouter?
      = (items.filterMap Item.relay?).map Relay.toRouter := by
  rw [List.filterMap_map, List.map_filterMap]
  refine List.filterMap_congr fun i _ => ?_
  cases i <;> rfl

/-- The thread sends what its subscriber holds to the broker. -/
theorem sound_sub (hids : Ids id) (h : Sound id x f) (b : β) :
    Sound id (x.step time (.sub b)) (f.step [] (.sub b)) := by
  have hb := h.working.thread b
  have hthread := h.carries.thread b
  obtain ⟨t, hrun, hhandled⟩ := brokerSubCallback_items (fun broker svc => ∃ svcRegi ∈
    x.registered, brokerIdOf svcRegi = broker ∧ svcRegi.tagSvc = svc) (time b) hids hb.called
    hb.dealer hthread.sub fun i hi => h.carries.fitsRelayed b i (List.mem_append_right _ hi)
  refine ⟨?_, ?_, ?_⟩
  · refine ⟨?_, h.working.pubToXsub, h.working.valid, h.working.registered⟩
    refine all_update (Q := fun c (t : BrokerThread) =>
      t.Working id c x.registered (x.waiting c)) h.working.thread ?_
    rw [hrun]
    refine ⟨hhandled.called.trans hb.called, ?_, ?_, hhandled.tree hb.tree fun r hr => ?_,
      hhandled.dealerIn.trans hb.waiting⟩
    · exact (congrArg Out.kind hhandled.pub).trans hb.pub
    · show t.zmqDealerOut.Steady
      rw [hhandled.dealerOut]
      exact hb.dealer.put _
    · refine ⟨r, ?_, rfl, rfl⟩
      have hmem := regi_mem_items ((heard_sublist _ _ _).subset hr)
      rw [← h.line.regis b, Flow.queue]
      simp only [List.filterMap_append, List.mem_append]
      exact Or.inl (Or.inl (Or.inr hmem))
  · refine ⟨h.carries.announced, h.carries.published, h.carries.relayed, fun c => ?_,
      h.carries.fits, ?_⟩
    · show CarriesThread id c (Function.update f.sub b [] c)
        (Function.update f.got b (f.got b ++ f.sub b) c) (Function.update x.thread b _ c)
      by_cases hc : c = b
      · subst hc
        rw [Function.update_self, Function.update_self, Function.update_self, hrun]
        refine ⟨rfl, ?_⟩
        show t.zmqDealerOut.sent = _
        rw [hhandled.dealerOut, put_sent, hthread.out, toRouter_heard, toRouter_items,
          List.filterMap_append, List.map_append, stream_append]
      · rw [Function.update_of_ne hc, Function.update_of_ne hc, Function.update_of_ne hc]
        exact h.carries.thread c
    · exact all_update (Q := fun c (l : List (Item β)) => ∀ i ∈ f.relayed c ++ l, i.toSub.Fits)
        h.carries.fitsRelayed fun i hi => h.carries.fitsRelayed b i (by
          rw [List.append_nil] at hi
          exact List.mem_append_left _ hi)
  · refine inLine_of_queue h.line rfl rfl rfl rfl rfl rfl ?_
    refine all_update₂ (Q := fun c (l r : List (Item β)) => r ++ l ++ f.relayed c = f.queue c)
      (fun c => rfl) ?_
    rw [List.append_nil]
    rfl

/-- The timer of a thread drops something of its small tree. -/
theorem sound_removeSmalltree (h : Sound id x f) (b : β) (current : Time) :
    Sound id (x.step time (.removeSmalltree b current)) f where
  working := by
    have hb := h.working.thread b
    refine ⟨?_, h.working.pubToXsub, h.working.valid, h.working.registered⟩
    exact all_update (Q := fun c (t : BrokerThread) =>
      t.Working id c x.registered (x.waiting c)) h.working.thread
      ⟨hb.called, hb.pub, hb.dealer, entries_removeSmalltreeCallback hb.tree current, hb.waiting⟩
  carries := by
    have hb := h.carries.thread b
    refine ⟨h.carries.announced, h.carries.published, h.carries.relayed, ?_, h.carries.fits,
      h.carries.fitsRelayed⟩
    exact all_update (Q := fun c (t : BrokerThread) => CarriesThread id c (f.sub c) (f.got c) t)
      h.carries.thread ⟨hb.sub, hb.out⟩
  line := ⟨h.line.passed, h.line.relays, h.line.regis⟩

/-- **Every step keeps what is on its way in line.** -/
theorem sound_step (hids : Ids id) (h : Sound id x f) {e : SwitchStep β} (he : e.Valid id x) :
    ∃ zs, Sound id (x.step time e) (f.step zs e) := by
  cases e with
  | arrive a m => exact ⟨[], sound_arrive h a he⟩
  | interhub a => exact sound_interhub h he
  | announce svcRegi => exact ⟨[], sound_announce h he⟩
  | proxyMain => exact ⟨[], sound_proxyMain h⟩
  | proxy a => exact ⟨[], sound_proxy hids h a⟩
  | toSub b => exact ⟨[], sound_toSub h b⟩
  | sub b => exact ⟨[], sound_sub hids h b⟩
  | removeSmalltree b current => exact ⟨[], sound_removeSmalltree h b current⟩

end Steps

/-! ### Runs -/

omit [DecidableEq β] in
theorem sound_start [DecidableEq β] (id : β → Str) (now : Time) :
    Sound id (Switch.start id now) Flow.start where
  working := ⟨fun _ => ⟨rfl, rfl, steady_pipe rfl rfl, fun _ hc => absurd hc List.not_mem_nil, rfl⟩,
    rfl, fun _ _ hm => absurd hm List.not_mem_nil, fun _ hr => absurd hr List.not_mem_nil⟩
  carries := ⟨rfl, fun _ => rfl, fun _ => rfl, fun _ => ⟨rfl, rfl⟩,
    fun _ _ hz => absurd hz List.not_mem_nil, fun _ _ hi => absurd hi List.not_mem_nil⟩
  line := ⟨fun _ => ⟨[], rfl, List.Forall₂.nil⟩, fun _ _ => rfl, fun _ => rfl⟩

omit [DecidableEq β] in
theorem map_sent (items : List (Item β)) :
    (items.filterMap Item.sent?).map Prod.snd = items.filterMap Item.relay? := by
  rw [List.map_filterMap]
  refine List.filterMap_congr fun i _ => ?_
  cases i <;> rfl

/-- What `passed` says the threads have published, and `got` what has come out of them, with
the broker it is from. -/
structure Delivered (id : β → Str) (x : Switch β) (passed got : β → List (β × Relay)) : Prop where
  taken : ∀ a, PassedOn id x.registered a (x.arrived a) (x.waiting a) (passed a)
  out : ∀ b, (x.thread b).zmqDealerOut.sent = stream ((got b).map fun z => z.2.toRouter)
  order : ∀ a b, lane a (got b) <+: lane b (passed a)
  all : x.Quiet → ∀ a b, lane a (got b) = lane b (passed a)

/-- Nothing is on its way when the pipes and the subscribers are empty. -/
theorem Sound.quiet {x : Switch β} {f : Flow β} (h : Sound id x f) (hquiet : x.Quiet) (a b : β) :
    relaysFrom a (f.got b) = lane b (f.passed a) := by
  have hpublished : f.published a = [] := by
    have hmap := h.carries.published a
    rw [hquiet.published a] at hmap
    exact List.map_eq_nil_iff.mp hmap.symm
  have hrelayed : f.relayed b = [] := by
    have hmap := h.carries.relayed b
    rw [hquiet.relayed b] at hmap
    exact List.map_eq_nil_iff.mp hmap.symm
  have hsub : f.sub b = [] := by
    have hqueue : stream ((f.sub b).map (subFrames id b)) = [] := by
      have hempty := hquiet.sub b
      rw [(h.carries.thread b).sub] at hempty
      exact hempty
    have hne : ∀ m ∈ (f.sub b).map (subFrames id b), m ≠ [] := by
      intro m hm
      obtain ⟨i, -, rfl⟩ := List.mem_map.mp hm
      exact subFrames_ne_nil b i
    have hlen := length_le_stream hne
    rw [hqueue, List.length_map, List.length_nil] at hlen
    exact List.length_eq_zero_iff.mp (Nat.le_zero.mp hlen)
  have hline := h.line.relays a b
  rw [Flow.queue, hrelayed, hsub, List.append_nil, List.append_nil] at hline
  rw [hline, Flow.passed, hpublished, List.append_nil]

theorem Sound.delivered {x : Switch β} {f : Flow β} (h : Sound id x f) :
    Delivered id x f.passed fun b => (f.got b).filterMap Item.sent? where
  taken := h.line.passed
  out b := by
    rw [(h.carries.thread b).out, ← map_sent, List.map_map]
    rfl
  order a b := by
    rw [Flow.passed, lane_append, ← h.line.relays a b, Flow.queue, relaysFrom_append,
      relaysFrom_append, List.append_assoc, List.append_assoc]
    exact List.prefix_append _ _
  all hquiet a b := h.quiet hquiet a b

/-- **Between any two brokers the hub is a queue.**  In every state of every run in which the
threads read their dealers message by message, what has come from a broker has been passed on,
but for what waits and the log lines, each request to another broker that has registered the
service and each response to the broker it names; and what has come out for a broker is, of
each of the others, the first of what was passed on, once each, in order and unaltered.  With
the pipes and the subscribers empty it is all of it. -/
theorem switch_delivery (hids : Ids id) (time : β → Nat → Time) (now : Time)
    (es : List (SwitchStep β))
    (h : AllSteps (Switch.step time) (fun x e => e.Valid id x) (Switch.start id now) es) :
    ∀ x ∈ states (Switch.step time) (Switch.start id now) es,
      ∃ passed got, Delivered id x passed got := by
  have hinv : ∀ x ∈ states (Switch.step time) (Switch.start id now) es, ∃ f, Sound id x f := by
    refine states_inv (fun x e hx he => ?_) es ⟨_, sound_start id now⟩ h
    obtain ⟨f, hf⟩ := hx
    obtain ⟨zs, hzs⟩ := sound_step hids hf he
    exact ⟨_, hzs⟩
  intro x hx
  obtain ⟨f, hf⟩ := hinv x hx
  exact ⟨_, _, hf.delivered⟩

/-- What waits on the dealers after a step. -/
theorem step_waiting (x : Switch β) (e : SwitchStep β) : (x.step time e).waiting =
    match e with
    | .arrive a m => Function.update x.waiting a (x.waiting a ++ [m])
    | .interhub a => Function.update x.waiting a []
    | _ => x.waiting := by
  cases e with
  | proxyMain => cases h : x.announced <;> simp [Switch.step, h]
  | proxy a => cases h : x.published a <;> simp [Switch.step, h]
  | toSub b =>
      cases h : x.relayed b with
      | nil => simp [Switch.step, h]
      | cons m ms => simp [Switch.step, h, Switch.setThread]
  | _ => rfl

/-- What has come from the brokers after a step. -/
theorem step_arrived (x : Switch β) (e : SwitchStep β) : (x.step time e).arrived =
    match e with
    | .arrive a m => Function.update x.arrived a (x.arrived a ++ [m])
    | _ => x.arrived := by
  cases e with
  | proxyMain => cases h : x.announced <;> simp [Switch.step, h]
  | proxy a => cases h : x.published a <;> simp [Switch.step, h]
  | toSub b =>
      cases h : x.relayed b with
      | nil => simp [Switch.step, h]
      | cons m ms => simp [Switch.step, h, Switch.setThread]
  | _ => rfl

/-- And what has been registered. -/
theorem step_registered (x : Switch β) (e : SwitchStep β) : (x.step time e).registered =
    match e with
    | .announce svcRegi => x.registered ++ [svcRegi]
    | _ => x.registered := by
  cases e with
  | proxyMain => cases h : x.announced <;> simp [Switch.step, h]
  | proxy a => cases h : x.published a <;> simp [Switch.step, h]
  | toSub b =>
      cases h : x.relayed b with
      | nil => simp [Switch.step, h]
      | cons m ms => simp [Switch.step, h, Switch.setThread]
  | _ => rfl

end System

/-! ### A request and its response -/

namespace SwitchPsib

def id (b : Bool) : Str := if b then lit "10.0.0.2_broker_9" else lit "10.0.0.1_broker_7"

/-- `PSIB` registers at the broker on 10.0.0.2. -/
def regi : MqRegi :=
  ((MqRegi.zero.setBrokerHost (lit "10.0.0.2")).setBrokerName (lit "broker_9")).setTagSvc
    (lit "PSIB")

def tag : MqTag := (MqTag.zero.setSvc (lit "AHIF")).setName (lit "ahif_1")

def response : DealerMsg := .resInterhub (id false) (lit "AHIF") (lit "ahif_1") (lit "ok")

/-- The other broker asks it, and it answers. -/
def steps : List (SwitchStep Bool) :=
  [.announce regi, .proxyMain, .toSub false, .toSub true, .sub false, .sub true,
    .arrive false (.log (lit "hey")), .arrive false (.req (lit "PSIB") tag (lit "hi")),
    .interhub false, .proxy false, .toSub true, .sub true,
    .arrive true response,
    .interhub true, .proxy true, .toSub false, .sub false]

theorem ids : Ids id where
  proper b := by
    cases b with
    | false =>
        exact ⟨by decide, by decide, lit "10.0.0.1", lit "broker_7",
          ⟨49, lit "0.0.0.1", by decide, by decide⟩, by decide⟩
    | true =>
        exact ⟨by decide, by decide, lit "10.0.0.2", lit "broker_9",
          ⟨49, lit "0.0.0.2", by decide, by decide⟩, by decide⟩
  prefixes := by decide

def run (n : Nat) : Switch Bool :=
  (steps.take n).foldl (Switch.step fun _ _ => 0) (Switch.start id 0)

theorem registration : Registration id regi where
  address := ⟨49, lit "0.0.0.2", by decide +kernel, by decide⟩
  broker := ⟨true, by decide +kernel⟩

/-- The request waits behind a log line, and its service is known. -/
theorem read_request : AllReadFrom ((run 8).thread false) false ((run 8).waiting false) := by
  have hwaiting : (run 8).waiting false
      = [.log (lit "hey"), .req (lit "PSIB") tag (lit "hi")] := by
    simp [run, steps, step_waiting, Switch.start]
  rw [hwaiting]
  refine ⟨fun m hm => ?_, fun h => absurd h (by decide), by simp [DealerMsg.isLong]⟩
  simp only [List.mem_cons, List.not_mem_nil, or_false] at hm
  rcases hm with rfl | rfl
  · trivial
  · show (findSvcExistTree ((run 8).thread false) (cstr (lit "PSIB"))).isSome = true
    decide +kernel

theorem valid_response : response.Valid id := by
  refine ⟨⟨by decide, by decide⟩, fun broker svc name body h => ?_⟩
  obtain ⟨rfl, rfl, rfl, rfl⟩ := DealerMsg.resInterhub.inj h
  exact ⟨by decide, by decide, false, by decide⟩

/-- A response needs no service to be known. -/
theorem read_response (t : BrokerThread) : AllReadFrom t false [response] := by
  refine ⟨fun m hm => ?_, fun h => absurd h (by decide), List.pairwise_singleton _ _⟩
  rw [List.mem_singleton.mp hm]
  trivial

theorem valid : AllSteps (Switch.step fun _ _ => 0) (fun x e => e.Valid id x) (Switch.start id 0)
    steps := by
  have hlog : (DealerMsg.log (lit "hey")).Valid id :=
    ⟨(by decide : (lit "hey").length < maxLogSize), fun _ _ _ _ h => absurd h (by simp)⟩
  have hreq : (DealerMsg.req (lit "PSIB") tag (lit "hi")).Valid id :=
    ⟨⟨by decide, by decide⟩, fun _ _ _ _ h => absurd h (by simp)⟩
  have hwaiting : (run 13).waiting true = [response] := by
    simp [run, steps, step_waiting, Switch.start]
  have hread : AllReadFrom ((run 13).thread true) false ((run 13).waiting true) := by
    rw [hwaiting]
    exact read_response _
  exact ⟨registration, trivial, trivial, trivial, trivial, trivial, hlog, hreq, read_request,
    trivial, trivial, trivial, valid_response, hread, trivial, trivial, trivial, trivial⟩

end SwitchPsib

/-- The broker on 10.0.0.2 gets the request with the id of the other broker in its tag, and
that one the response. -/
theorem switch_delivery_psib :
    let x := SwitchPsib.steps.foldl (Switch.step fun _ _ => 0) (Switch.start SwitchPsib.id 0)
    (∃ passed got, Delivered SwitchPsib.id x passed got) ∧
      (x.thread true).zmqDealerOut.sent = parts [mqReq, lit "PSIB",
        (SwitchPsib.tag.setBroker (SwitchPsib.id false)).mem, lit "hi"] ∧
      ((x.thread false).zmqDealerOut.sent.map Part.bytes).getLast? = some (lit "ok") := by
  intro x
  have hdelivered := switch_delivery SwitchPsib.ids (fun _ _ => 0) 0 SwitchPsib.steps
    SwitchPsib.valid x (foldl_mem_states _ _)
  exact ⟨hdelivered, by decide +kernel, by decide +kernel⟩

end Brocoli.Hub
