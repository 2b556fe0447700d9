/-
Registrations are taken one by one, and reach the hub in order.

The loop of `svcregi_callback` takes a topic and leaves the rest of the message to
`regi_action`, which takes it when the topic is that of registrations.  So it stays at the
boundaries of the messages as long as every topic ends where its data does.  Then a broker
publishes each registration once, behind those it had before, and so does the hub with what
its brokers have published; and what the registries become of it are runs of registrations,
sweeps and releases, of which the other theorems speak.
-/
import Brocoli.Registration

namespace Brocoli

open CMem Multipart NTree Runs Carriage

/-! ### The loop -/

section Loop

variable {C : Type} {sub : C → In} {withSub : C → In → C}
  {regiAction : C → Str → Str → (Nat → Time) → Int × C}

/-- `regi_action` takes one frame when the topic is that of registrations, and nothing when it
is another. -/
structure IsRegiAction (sub : C → In) (withSub : C → In → C)
    (regiAction : C → Str → Str → (Nat → Time) → Int × C) : Prop where
  sub_withSub : ∀ c s, sub (withSub c s) = s
  withSub_withSub : ∀ c s s', withSub (withSub c s) s' = withSub c s'
  other : ∀ c action peer clock, action ≠ mqReg → (regiAction c action peer clock).2 = c
  takes : ∀ c f q peer clock,
    (regiAction (withSub c ⟨⟨f, false⟩ :: q, true⟩) mqReg peer clock).2
      = withSub (regiAction (withSub c ⟨[⟨f, false⟩], true⟩) mqReg peer clock).2 ⟨q, false⟩

/-- The program with registrations on its subscriber. -/
def withRegis (withSub : C → In → C) (c : C) (rs : List MqRegi) : C :=
  withSub c (In.holding (rs.map fun r => [mqReg, r.mem]))

/-- The program when it has taken one registration, and there was no other. -/
def taken (withSub : C → In → C) (regiAction : C → Str → Str → (Nat → Time) → Int × C) (c : C)
    (r : MqRegi) (receipt : Receipt) : C :=
  (regiAction (withSub c ⟨[⟨r.mem, false⟩], true⟩) mqReg receipt.peerAddress receipt.clock).2

/-- The program when it has taken the registrations, one after the other. -/
def takenAll (withSub : C → In → C) (regiAction : C → Str → Str → (Nat → Time) → Int × C) :
    C → List MqRegi → (Nat → Receipt) → C
  | c, [], _ => c
  | c, r :: rs, receipts =>
      takenAll withSub regiAction (taken withSub regiAction c r (receipts 0)) rs
        fun k => receipts (k + 1)

/-- The subscriber at every evaluation of the loop condition, for a loop that stays at message
boundaries. -/
def regiBoundaries (rs : List MqRegi) : List In :=
  rs.tails.map fun rest => In.holding (rest.map fun r => [mqReg, r.mem])

/-- The loop takes the registrations one by one: it stands at the boundary of a message each
time it turns to the next one, and does with each what it would do with it alone. -/
structure OneByOne (sub : C → In) (withSub : C → In → C)
    (regiAction : C → Str → Str → (Nat → Time) → Int × C) (c : C) (rs : List MqRegi)
    (receipts : Nat → Receipt) : Prop where
  framed : (heads (svcregiIter sub withSub regiAction)
      (sub (withRegis withSub c rs)).queue.length (withRegis withSub c rs, receipts)).map
    (fun s => sub s.1) = regiBoundaries rs
  taken : svcregiLoop sub withSub regiAction (withRegis withSub c rs) receipts
    = withRegis withSub (takenAll withSub regiAction c rs receipts) []

theorem action_eq (r : Receipt) : r.action mqReg = mqReg ↔ cstr r.behind = [] := by
  rw [Receipt.action, cstr_append_of_notMem (by decide)]
  exact List.append_right_eq_self

variable (h : IsRegiAction sub withSub regiAction) {c : C} {receipts : Nat → Receipt}
include h

theorem svcregiIter_nil : svcregiIter sub withSub regiAction (withRegis withSub c [], receipts)
    = none := by
  rw [svcregiIter, withRegis, h.sub_withSub]
  rfl

/-- The topic has been received. -/
theorem svcregiIter_cons (r : MqRegi) (rs : List MqRegi) :
    svcregiIter sub withSub regiAction (withRegis withSub c (r :: rs), receipts)
      = some ((regiAction (withSub c ⟨⟨r.mem, false⟩ :: stream (rs.map fun r => [mqReg, r.mem]),
        true⟩) ((receipts 0).action mqReg) (receipts 0).peerAddress (receipts 0).clock).2,
        fun k => receipts (k + 1)) := by
  rw [svcregiIter, withRegis, h.sub_withSub]
  simp only [List.map_cons, In.holding, stream_cons, parts_cons_cons, parts_singleton,
    List.cons_append, recv_cons, h.withSub_withSub]
  rfl

/-- A topic that ends where its data does is recognised. -/
theorem svcregiIter_read {r : MqRegi} (rs : List MqRegi)
    (hr : cstr (receipts 0).behind = []) :
    svcregiIter sub withSub regiAction (withRegis withSub c (r :: rs), receipts)
      = some (withRegis withSub (taken withSub regiAction c r (receipts 0)) rs,
        fun k => receipts (k + 1)) := by
  rw [svcregiIter_cons h, (action_eq _).mpr hr, h.takes]
  rfl

/-- Any other leaves the registration where it is. -/
theorem svcregiIter_left {r : MqRegi} (rs : List MqRegi)
    (hr : cstr (receipts 0).behind ≠ []) :
    ∃ c', svcregiIter sub withSub regiAction (withRegis withSub c (r :: rs), receipts)
        = some (c', fun k => receipts (k + 1)) ∧
      sub c' ≠ In.holding (rs.map fun r => [mqReg, r.mem]) := by
  refine ⟨_, svcregiIter_cons h r rs, ?_⟩
  rw [h.other _ _ _ _ fun heq => hr ((action_eq _).mp heq), h.sub_withSub]
  exact ne_holding_of_parts (List.cons_ne_nil r.mem []) _ true

/-- The loop stays at message boundaries exactly when every topic is recognised. -/
theorem regi_heads_iff : ∀ (rs : List MqRegi) {c : C} {receipts : Nat → Receipt} {fuel : Nat},
    rs.length ≤ fuel →
    ((heads (svcregiIter sub withSub regiAction) fuel (withRegis withSub c rs, receipts)).map
      (fun s => sub s.1) = regiBoundaries rs ↔ ∀ k < rs.length, cstr (receipts k).behind = []) := by
  intro rs
  induction rs with
  | nil =>
      intro c receipts fuel _
      rw [heads_none (svcregiIter_nil h)]
      refine iff_of_true ?_ (by simp)
      show [sub (withSub c (In.holding []))] = _
      rw [h.sub_withSub]
      rfl
  | cons r rs ih =>
      intro c receipts fuel hfuel
      obtain ⟨fuel, rfl⟩ : ∃ k, fuel = k + 1 := ⟨fuel - 1, by simp at hfuel; omega⟩
      have hlen : rs.length ≤ fuel := by
        simp at hfuel
        omega
      have hbound : regiBoundaries (r :: rs)
          = sub (withRegis withSub c (r :: rs)) :: regiBoundaries rs := by
        rw [withRegis, h.sub_withSub, regiBoundaries, List.tails_cons, List.map_cons]
        rfl
      have hall : (∀ k < (r :: rs).length, cstr (receipts k).behind = []) ↔
          cstr (receipts 0).behind = [] ∧ ∀ k < rs.length, cstr (receipts (k + 1)).behind = [] := by
        rw [List.length_cons]
        constructor
        · exact fun hk => ⟨hk 0 (by omega), fun k hlt => hk (k + 1) (by omega)⟩
        · rintro ⟨hzero, hk⟩ k hlt
          cases k with
          | zero => exact hzero
          | succ k => exact hk k (by omega)
      rw [hbound, hall]
      by_cases hr : cstr (receipts 0).behind = []
      · rw [map_heads_iff (svcregiIter_read h rs hr), ih hlen]
        simp [hr]
      · obtain ⟨c', hiter, hleft⟩ := svcregiIter_left h (c := c) rs hr
        rw [map_heads_iff hiter]
        refine iff_of_false (fun heq => ?_) fun heq => hr heq.1
        have hstart : regiBoundaries rs = In.holding (rs.map fun r => [mqReg, r.mem])
            :: (regiBoundaries rs).tail := by
          cases rs <;> rfl
        obtain ⟨rest, hrest⟩ : ∃ rest, heads (svcregiIter sub withSub regiAction) fuel
            (c', fun k => receipts (k + 1)) = _ :: rest := heads_start fuel _
        obtain ⟨-, heq⟩ := heq
        rw [hstart, hrest, List.map_cons] at heq
        exact hleft (List.cons.inj heq).1

theorem regi_run : ∀ (rs : List MqRegi) {c : C} {receipts : Nat → Receipt} {fuel : Nat},
    rs.length ≤ fuel → (∀ k < rs.length, cstr (receipts k).behind = []) →
    (whileSome (svcregiIter sub withSub regiAction) fuel (withRegis withSub c rs, receipts)).1
      = withRegis withSub (takenAll withSub regiAction c rs receipts) [] := by
  intro rs
  induction rs with
  | nil =>
      intro c receipts fuel _ _
      rw [whileSome_none (svcregiIter_nil h)]
      rfl
  | cons r rs ih =>
      intro c receipts fuel hfuel hread
      obtain ⟨fuel, rfl⟩ : ∃ k, fuel = k + 1 := ⟨fuel - 1, by simp at hfuel; omega⟩
      have hlen : rs.length ≤ fuel := by
        simp at hfuel
        omega
      rw [whileSome_some (svcregiIter_read h rs (hread 0 (by simp)))]
      exact ih hlen fun k hk => hread (k + 1) (by simpa using hk)

theorem length_le_withRegis (c : C) (rs : List MqRegi) :
    rs.length ≤ (sub (withRegis withSub c rs)).queue.length := by
  have hne : ∀ m ∈ rs.map fun r => [mqReg, r.mem], m ≠ [] := by simp
  have hlen := length_le_stream hne
  rw [withRegis, h.sub_withSub]
  rw [List.length_map] at hlen
  exact hlen

/-- **The registrations are taken one by one exactly when every topic ends where its data
does.** -/
theorem oneByOne_iff (c : C) (rs : List MqRegi) (receipts : Nat → Receipt) :
    OneByOne sub withSub regiAction c rs receipts ↔
      ∀ k < rs.length, cstr (receipts k).behind = [] := by
  have hlen := length_le_withRegis h c rs
  have hheads : (heads (svcregiIter sub withSub regiAction)
      (sub (withRegis withSub c rs)).queue.length (withRegis withSub c rs, receipts)).map
        (fun s => sub s.1) = regiBoundaries rs ↔ ∀ k < rs.length, cstr (receipts k).behind = [] :=
    regi_heads_iff h rs hlen
  exact ⟨fun hone => hheads.mp hone.framed,
    fun hread => ⟨hheads.mpr hread, regi_run h rs hlen hread⟩⟩

end Loop

theorem Broker.isRegiAction (progname : Str) (pid : Nat) :
    IsRegiAction Broker.RegiCtx.zmqSub Broker.RegiCtx.withSub
      (Broker.regiAction progname pid) where
  sub_withSub _ _ := rfl
  withSub_withSub _ _ _ := rfl
  other c action peer clock hne := by rw [Broker.regiAction, if_neg hne]
  takes c f q peer clock := by
    simp only [Broker.regiAction, Broker.RegiCtx.withSub, if_true, recv_cons]
    cases c.zmqPubToInterhub <;> rfl

theorem Hub.isRegiAction : IsRegiAction Hub.RegiCtx.zmqSubFromBroker Hub.RegiCtx.withSub
    Hub.regiAction where
  sub_withSub _ _ := rfl
  withSub_withSub _ _ _ := rfl
  other c action peer clock hne := by rw [Hub.regiAction, if_neg hne]
  takes c f q peer clock := by
    simp only [Hub.regiAction, Hub.RegiCtx.withSub, if_true, recv_cons]

/-- Both programs take registrations one by one exactly when every topic ends where its data
does. -/
theorem svcregi_one_by_one_iff :
    (∀ (progname : Str) (pid : Nat) (ctx : Broker.RegiCtx) (rs : List MqRegi)
      (receipts : Nat → Receipt),
      OneByOne Broker.RegiCtx.zmqSub Broker.RegiCtx.withSub (Broker.regiAction progname pid) ctx rs
        receipts ↔ ∀ k < rs.length, cstr (receipts k).behind = []) ∧
    (∀ (ctx : Hub.RegiCtx) (rs : List MqRegi) (receipts : Nat → Receipt),
      OneByOne Hub.RegiCtx.zmqSubFromBroker Hub.RegiCtx.withSub Hub.regiAction ctx rs
        receipts ↔ ∀ k < rs.length, cstr (receipts k).behind = []) :=
  ⟨fun progname pid => oneByOne_iff (Broker.isRegiAction progname pid),
    oneByOne_iff Hub.isRegiAction⟩

/-! ### What the programs make of registrations -/

namespace Broker

/-- The registrations have been handled and published. -/
structure Took (pub : Out) (rs : List MqRegi) (ctx ctx' : RegiCtx) : Prop where
  registry : ∃ es, regisOf es = rs ∧ ctx'.registry = es.foldl step ctx.registry
  out : ctx'.zmqPubToInterhub = some (pub.put (stream (rs.map regiFrames)))

theorem took_one {progname : Str} {pid : Nat} {ctx : RegiCtx} {pub : Out}
    (hpub : ctx.zmqPubToInterhub = some pub) (hkind : pub.kind = .pub) (z : FromProcess)
    (behind : List Byte) (clock : Nat → Time) :
    Took pub [forwarded progname pid z.svcRegi.mem z.peerAddress] ctx
      (taken RegiCtx.withSub (regiAction progname pid) ctx z.svcRegi
        ⟨z.peerAddress, behind, clock⟩) := by
  set r := forwarded progname pid z.svcRegi.mem z.peerAddress
  have htaken : taken RegiCtx.withSub (regiAction progname pid) ctx z.svcRegi
      ⟨z.peerAddress, behind, clock⟩
        = ⟨⟨[], false⟩, some (sendRegi pub r), chkSvcDealer ctx.registry r clock⟩ := by
    simp only [taken, regiAction, RegiCtx.withSub, if_true, recv_cons, hpub]
    rfl
  refine ⟨⟨[.regi r clock], rfl, by rw [htaken]; rfl⟩, ?_⟩
  rw [htaken, sendRegi_eq hkind, List.map_singleton, stream_cons, stream_nil, List.append_nil]
  rfl

theorem Took.cons {pub : Out} {r : MqRegi} {rs : List MqRegi} {ctx ctx' ctx'' : RegiCtx}
    (h : Took pub [r] ctx ctx') (h' : Took (pub.put (parts (regiFrames r))) rs ctx' ctx'') :
    Took pub (r :: rs) ctx ctx'' := by
  obtain ⟨es, hes, hregistry⟩ := h.registry
  obtain ⟨es', hes', hregistry'⟩ := h'.registry
  refine ⟨⟨es ++ es', ?_, by rw [hregistry', hregistry, List.foldl_append]⟩, ?_⟩
  · rw [regisOf, List.filterMap_append]
    show regisOf es ++ regisOf es' = _
    rw [hes, hes', List.singleton_append]
  · rw [h'.out, put_put, List.map_cons, stream_cons]

/-- A broker handles what it takes, and publishes it. -/
theorem took_all (progname : Str) (pid : Nat) : ∀ (zs : List FromProcess) {ctx : RegiCtx}
    {pub : Out} (around : Around), ctx.zmqPubToInterhub = some pub → pub.kind = .pub →
    Took pub (zs.map fun z => forwarded progname pid z.svcRegi.mem z.peerAddress) ctx
      (takenAll RegiCtx.withSub (regiAction progname pid) ctx (zs.map FromProcess.svcRegi)
        (receipts (zs.map FromProcess.peerAddress) around)) := by
  intro zs
  induction zs with
  | nil => exact fun around hpub _ => ⟨⟨[], rfl, rfl⟩, by simpa [takenAll] using hpub⟩
  | cons z zs ih =>
      intro ctx pub around hpub hkind
      have hone : Took pub [forwarded progname pid z.svcRegi.mem z.peerAddress] ctx
          (taken RegiCtx.withSub (regiAction progname pid) ctx z.svcRegi
            ⟨z.peerAddress, (around 0).1, (around 0).2⟩) :=
        took_one hpub hkind z (around 0).1 (around 0).2
      have hout := hone.out
      rw [List.map_singleton, stream_cons, stream_nil, List.append_nil] at hout
      exact hone.cons (ih (fun k => around (k + 1)) hout hkind)

end Broker

namespace Hub

/-- The registrations have been handled and published. -/
structure Took (rs : List MqRegi) (ctx ctx' : RegiCtx) : Prop where
  registry : ∃ es, regisOf es = rs ∧ ctx'.registry = es.foldl step ctx.registry
  out : ctx'.zmqPubToXsub = ctx.zmqPubToXsub.put (stream (rs.map regiFrames))

theorem Took.cons {r : MqRegi} {rs : List MqRegi} {ctx ctx' ctx'' : RegiCtx}
    (h : Took [r] ctx ctx') (h' : Took rs ctx' ctx'') : Took (r :: rs) ctx ctx'' := by
  obtain ⟨es, hes, hregistry⟩ := h.registry
  obtain ⟨es', hes', hregistry'⟩ := h'.registry
  refine ⟨⟨es ++ es', ?_, by rw [hregistry', hregistry, List.foldl_append]⟩, ?_⟩
  · rw [regisOf, List.filterMap_append]
    show regisOf es ++ regisOf es' = _
    rw [hes, hes', List.singleton_append]
  · rw [h'.out, h.out, put_put, ← stream_append]
    rfl

theorem took_one {ctx : RegiCtx} (hpub : ctx.zmqPubToXsub.kind = .pub) (r : MqRegi)
    (peerAddress : Str) (behind : List Byte) (clock : Nat → Time) :
    Took [forwarded r.mem peerAddress] ctx
      (taken RegiCtx.withSub regiAction ctx r ⟨peerAddress, behind, clock⟩) := by
  set r' := forwarded r.mem peerAddress
  have htaken : taken RegiCtx.withSub regiAction ctx r ⟨peerAddress, behind, clock⟩
      = ⟨⟨[], false⟩, sendRegi ctx.zmqPubToXsub r', (chkSvcBroker ctx.registry r' clock).2⟩ := by
    simp only [taken, regiAction, RegiCtx.withSub, if_true, recv_cons]
    rfl
  refine ⟨⟨[.regi r' clock], rfl, by rw [htaken]; rfl⟩, ?_⟩
  rw [htaken, sendRegi_eq hpub, List.map_singleton, stream_cons, stream_nil, List.append_nil]
  rfl

/-- The hub handles what it takes, and publishes it; `host` says where each broker is. -/
theorem took_all {β : Type} (host : β → Str) : ∀ (zs : List (β × MqRegi)) {ctx : RegiCtx}
    (around : Around), ctx.zmqPubToXsub.kind = .pub →
    Took (zs.map fun z => forwarded z.2.mem (host z.1)) ctx
      (takenAll RegiCtx.withSub regiAction ctx (zs.map Prod.snd)
        (receipts ((zs.map Prod.fst).map host) around)) := by
  intro zs
  induction zs with
  | nil => exact fun around _ => ⟨⟨[], rfl, rfl⟩, by simp [takenAll]⟩
  | cons z zs ih =>
      intro ctx around hpub
      have hone := took_one hpub z.2 (host z.1) (around 0).1 (around 0).2
      refine hone.cons (ih (fun k => around (k + 1)) ?_)
      rw [hone.out]
      exact hpub

end Hub

/-! ### Steps -/

/-- All registrations have the topic of registrations. -/
theorem subscribed_regis (rs : List MqRegi) :
    subscribed [mqReg] (rs.map regiFrames) = rs.map regiFrames := by
  refine List.filter_eq_self.mpr fun m hm => ?_
  obtain ⟨r, -, rfl⟩ := List.mem_map.mp hm
  simp [regiFrames]

theorem regiFrames_ne_nil : ∀ {rs : List MqRegi}, ∀ m ∈ rs.map regiFrames, m ≠ [] := by
  intro rs m hm
  obtain ⟨r, -, rfl⟩ := List.mem_map.mp hm
  simp [regiFrames]

section Steps

variable {β : Type} {progname : Str} {pid : β → Nat} {host hostname : β → Str}
  {now : Time} {x : Network β} {f : RegiFlow β}

/-- A broker after its callback. -/
theorem svcregi_broker {b : β} {ctx : Broker.RegiCtx} {peers : List Str}
    {waiting arrived : List FromProcess}
    (h : BrokerSound progname pid hostname now b ctx peers waiting arrived) {around : Around}
    (hread : ∀ k < peers.length, cstr (around k).1 = []) :
    let ctx' := Broker.svcregiCallback progname (pid b) ctx (receipts peers around)
    BrokerSound progname pid hostname now b ctx' [] [] arrived ∧
      Network.since ctx ctx' = (waiting.map (atBroker progname pid b)).map regiFrames := by
  obtain ⟨pub, hpub, hkind⟩ := h.pub
  obtain rfl := h.peers
  have hctx : ctx = withRegis Broker.RegiCtx.withSub ctx (waiting.map FromProcess.svcRegi) := by
    have hframes : (waiting.map FromProcess.svcRegi).map (fun r => [mqReg, r.mem])
        = waiting.map fun z => regiFrames z.svcRegi := by
      rw [List.map_map]
      rfl
    rw [withRegis, hframes, ← h.sub]
    rfl
  have hone := (oneByOne_iff (Broker.isRegiAction progname (pid b)) ctx
    (waiting.map FromProcess.svcRegi) (receipts (waiting.map FromProcess.peerAddress) around)).mpr
    (by simpa [receipts] using hread)
  have htook := Broker.took_all progname (pid b) waiting around hpub hkind
  have hrun := hone.taken
  rw [← hctx] at hrun
  intro ctx'
  have hctx' : ctx' = withRegis Broker.RegiCtx.withSub (takenAll Broker.RegiCtx.withSub
      (Broker.regiAction progname (pid b)) ctx (waiting.map FromProcess.svcRegi)
      (receipts (waiting.map FromProcess.peerAddress) around)) [] := hrun
  have hout : ctx'.zmqPubToInterhub
      = some (pub.put (stream ((waiting.map (atBroker progname pid b)).map regiFrames))) := by
    rw [hctx']
    exact htook.out
  have hregistry : ∃ es, Broker.regisOf es = waiting.map (atBroker progname pid b) ∧
      ctx'.registry = es.foldl Broker.step ctx.registry := by
    rw [hctx']
    exact htook.registry
  refine ⟨⟨by rw [hctx']; rfl, rfl, ⟨_, hout, hkind⟩, ?_⟩, ?_⟩
  · obtain ⟨es, taken, harrived, hes, hregis⟩ := h.registry
    obtain ⟨es', hregis', hes'⟩ := hregistry
    refine ⟨es ++ es', arrived, by simp, by rw [hes', hes, List.foldl_append], ?_⟩
    rw [Broker.regisOf, List.filterMap_append]
    show Broker.regisOf es ++ Broker.regisOf es' = _
    rw [hregis, hregis', harrived, List.map_append]
  · rw [Network.since, hpub, hout]
    exact since_of_sent regiFrames_ne_nil rfl

/-- The hub after its callback. -/
theorem svcregi_hub {hub : Hub.RegiCtx} {hubPeers : List β} {waiting out : List (β × MqRegi)}
    (h : HubSound now hub hubPeers waiting out) {around : Around}
    (hread : ∀ k < hubPeers.length, cstr (around k).1 = []) :
    HubSound now (Hub.svcregiCallback hub (receipts (hubPeers.map host) around)) [] []
      (out ++ waiting.map fun z => (z.1, atHub host z.1 z.2)) := by
  obtain rfl := h.peers
  have hhub : hub = withRegis Hub.RegiCtx.withSub hub (waiting.map Prod.snd) := by
    have hframes : (waiting.map Prod.snd).map (fun r : MqRegi => [mqReg, r.mem])
        = waiting.map fun z => regiFrames z.2 := by
      rw [List.map_map]
      rfl
    rw [withRegis, hframes, ← h.sub]
    rfl
  have hone := (oneByOne_iff Hub.isRegiAction hub (waiting.map Prod.snd)
    (receipts ((waiting.map Prod.fst).map host) around)).mpr (by simpa [receipts] using hread)
  have htook := Hub.took_all host waiting around h.pub
  have hrun := hone.taken
  rw [← hhub] at hrun
  obtain ⟨hub', hhub'⟩ : ∃ hub', hub' = Hub.svcregiCallback hub
    (receipts ((waiting.map Prod.fst).map host) around) := ⟨_, rfl⟩
  have heq : hub' = withRegis Hub.RegiCtx.withSub (takenAll Hub.RegiCtx.withSub Hub.regiAction hub
      (waiting.map Prod.snd) (receipts ((waiting.map Prod.fst).map host) around)) [] :=
    hhub'.trans hrun
  have hout : hub'.zmqPubToXsub = hub.zmqPubToXsub.put (stream
      ((waiting.map fun z => atHub host z.1 z.2).map regiFrames)) := by
    rw [heq]
    exact htook.out
  have hregistry : ∃ es, Hub.regisOf es = waiting.map (fun z => atHub host z.1 z.2) ∧
      hub'.registry = es.foldl Hub.step hub.registry := by
    rw [heq]
    exact htook.registry
  rw [← hhub']
  refine ⟨by rw [heq]; rfl, rfl, by rw [hout]; exact h.pub, ?_, ?_⟩
  · rw [hout, put_sent, h.sent, List.map_append, stream_append, List.map_map, List.map_map]
    rfl
  · obtain ⟨es, hes, hregis⟩ := h.registry
    obtain ⟨es', hregis', hes'⟩ := hregistry
    refine ⟨es ++ es', by rw [hes', hes, List.foldl_append], ?_⟩
    rw [Hub.regisOf, List.filterMap_append]
    show Hub.regisOf es ++ Hub.regisOf es' = _
    rw [hregis, hregis', List.map_append, List.map_map]
    rfl

/-- What a broker's registry does by itself. -/
theorem BrokerSound.own {b : β} {ctx : Broker.RegiCtx} {peers : List Str}
    {waiting arrived : List FromProcess}
    (h : BrokerSound progname pid hostname now b ctx peers waiting arrived) (e : Broker.Step)
    (he : e.regi? = none) :
    BrokerSound progname pid hostname now b
      { ctx with registry := Broker.step ctx.registry e } peers waiting arrived := by
  obtain ⟨es, taken, harrived, hes, hregis⟩ := h.registry
  refine ⟨h.sub, h.peers, h.pub, es ++ [e], taken, harrived, ?_, ?_⟩
  · rw [List.foldl_append, ← hes]
    rfl
  · rw [Broker.regisOf, List.filterMap_append, List.filterMap_cons_none he, List.filterMap_nil,
      List.append_nil]
    exact hregis

theorem HubSound.own {hub : Hub.RegiCtx} {hubPeers : List β} {waiting out : List (β × MqRegi)}
    (h : HubSound now hub hubPeers waiting out) (e : Hub.Step) (he : e.regi? = none) :
    HubSound now { hub with registry := Hub.step hub.registry e } hubPeers waiting out := by
  obtain ⟨es, hes, hregis⟩ := h.registry
  refine ⟨h.sub, h.peers, h.pub, h.sent, es ++ [e], ?_, ?_⟩
  · rw [List.foldl_append, ← hes]
    rfl
  · rw [Hub.regisOf, List.filterMap_append, List.filterMap_cons_none he, List.filterMap_nil,
      List.append_nil]
    exact hregis

variable [DecidableEq β]

/-- A registration arrives at a broker. -/
theorem networkSound_arrive (h : NetworkSound progname pid host hostname now x f) (b : β)
    (r : FromProcess) :
    NetworkSound progname pid host hostname now (x.step progname pid host (.arrive b r))
      { f with waiting := Function.update f.waiting b (f.waiting b ++ [r]) } where
  broker := by
    intro c
    show BrokerSound progname pid hostname now c (Function.update x.broker b _ c)
      (Function.update x.peers b _ c) (Function.update f.waiting b _ c)
      (Function.update x.arrived b _ c)
    by_cases hc : c = b
    · subst hc
      obtain ⟨hsub, hpeers, hpub, es, taken, harrived, hes, hregis⟩ := h.broker c
      simp only [Function.update_self]
      refine ⟨?_, by rw [hpeers, List.map_append]; rfl, hpub, es, taken, ?_, hes, hregis⟩
      · show (x.broker c).zmqSub.arrive _ = _
        rw [hsub, holding_arrive, List.map_append]
        rfl
      · rw [harrived, List.append_assoc]
    · simp only [Function.update_of_ne hc]
      exact h.broker c
  published := h.published
  hub := h.hub
  line := by
    refine all_update₂ (Q := fun c (waiting arrived : List FromProcess) =>
      lane c f.out ++ (lane c f.hubWaiting ++ f.published c ++
        waiting.map (atBroker progname pid c)).map (atHub host c)
      = arrived.map fun z => atHub host c (atBroker progname pid c z)) h.line ?_
    refine Eq.trans ?_ List.map_append.symm
    rw [← h.line b]
    simp

/-- The callback of a broker. -/
theorem networkSound_svcregi (h : NetworkSound progname pid host hostname now x f) {b : β}
    {around : Around} (hread : ∀ k < (x.peers b).length, cstr (around k).1 = []) :
    NetworkSound progname pid host hostname now (x.step progname pid host (.svcregi b around))
      { f with
        waiting := Function.update f.waiting b []
        published := Function.update f.published b
          (f.published b ++ (f.waiting b).map (atBroker progname pid b)) } := by
  obtain ⟨hbroker, hsince⟩ := svcregi_broker (h.broker b) hread
  refine ⟨fun c => ?_, ?_, h.hub, ?_⟩
  · show BrokerSound progname pid hostname now c (Function.update x.broker b _ c)
      (Function.update x.peers b _ c) (Function.update f.waiting b _ c) (x.arrived c)
    by_cases hc : c = b
    · subst hc
      simp only [Function.update_self]
      exact hbroker
    · simp only [Function.update_of_ne hc]
      exact h.broker c
  · refine all_update₂ (Q := fun _ (ms : List Msg) (rs : List MqRegi) => ms = rs.map regiFrames)
      h.published ?_
    rw [hsince, subscribed_regis, h.published, List.map_append]
  · refine all_update₂ (Q := fun c (waiting : List FromProcess) (published : List MqRegi) =>
      lane c f.out ++ (lane c f.hubWaiting ++ published ++
        waiting.map (atBroker progname pid c)).map (atHub host c)
      = (x.arrived c).map fun z => atHub host c (atBroker progname pid c z)) h.line ?_
    rw [← h.line b]
    simp

/-- A step of a registry that is not a registration. -/
theorem networkSound_own (h : NetworkSound progname pid host hostname now x f) (b : β)
    (e : Broker.Step) (he : e.regi? = none) :
    NetworkSound progname pid host hostname now
      (x.setBroker b { x.broker b with registry := Broker.step (x.broker b).registry e }) f where
  broker := all_update (Q := fun c (ctx : Broker.RegiCtx) => BrokerSound progname pid hostname now
    c ctx (x.peers c) (f.waiting c) (x.arrived c)) h.broker ((h.broker b).own e he)
  published := h.published
  hub := h.hub
  line := h.line

/-- The pipe carries a registration to the hub. -/
theorem networkSound_toHub (h : NetworkSound progname pid host hostname now x f) (b : β) :
    ∃ f', NetworkSound progname pid host hostname now (x.step progname pid host (.toHub b)) f' := by
  have hpipe := h.published b
  cases hf : f.published b with
  | nil =>
      rw [hf, List.map_nil] at hpipe
      exact ⟨f, by rw [Network.step, hpipe]; exact h⟩
  | cons r rest =>
      rw [hf, List.map_cons] at hpipe
      refine ⟨{ f with
        published := Function.update f.published b rest
        hubWaiting := f.hubWaiting ++ [(b, r)] }, ?_⟩
      rw [Network.step, hpipe]
      refine ⟨h.broker, ?_, ?_, fun c => ?_⟩
      · exact all_update₂ (Q := fun _ (ms : List Msg) (rs : List MqRegi) =>
          ms = rs.map regiFrames) h.published rfl
      · refine ⟨?_, ?_, h.hub.pub, h.hub.sent, h.hub.registry⟩
        · show x.hub.zmqSubFromBroker.arrive _ = _
          rw [h.hub.sub, holding_arrive, List.map_append]
          rfl
        · show x.hubPeers ++ [b] = _
          rw [h.hub.peers, List.map_append]
          rfl
      · show lane c f.out ++ (lane c (f.hubWaiting ++ [(b, r)])
          ++ Function.update f.published b rest c ++ _).map _ = _
        rw [← h.line c]
        by_cases hc : c = b
        · subst hc
          rw [Function.update_self, hf]
          simp [lane_cons]
        · rw [Function.update_of_ne hc]
          simp [lane_cons, Ne.symm hc]

/-- The callback of the hub. -/
theorem networkSound_hubSvcregi (h : NetworkSound progname pid host hostname now x f)
    {around : Around} (hread : ∀ k < x.hubPeers.length, cstr (around k).1 = []) :
    NetworkSound progname pid host hostname now (x.step progname pid host (.hubSvcregi around))
      { f with
        hubWaiting := []
        out := f.out ++ f.hubWaiting.map fun z => (z.1, atHub host z.1 z.2) } where
  broker := h.broker
  published := h.published
  hub := svcregi_hub h.hub hread
  line b := by
    refine Eq.trans ?_ (h.line b)
    rw [lane_append, lane_map]
    simp

/-- **Every step keeps the registrations in line.** -/
theorem networkSound_step (h : NetworkSound progname pid host hostname now x f)
    {e : NetworkStep β} (he : e.Valid x) :
    ∃ f', NetworkSound progname pid host hostname now (x.step progname pid host e) f' := by
  cases e with
  | arrive b r => exact ⟨_, networkSound_arrive h b r⟩
  | svcregi b around => exact ⟨_, networkSound_svcregi h he⟩
  | sweep b current => exact ⟨f, networkSound_own h b (.sweep current) rfl⟩
  | deferred b => exact ⟨f, networkSound_own h b .deferred rfl⟩
  | toHub b => exact networkSound_toHub h b
  | hubSvcregi around => exact ⟨_, networkSound_hubSvcregi h he⟩
  | hubSweep current =>
      exact ⟨f, h.broker, h.published, h.hub.own (.sweep current) rfl, h.line⟩
  | threadEnd i => exact ⟨f, h.broker, h.published, h.hub.own (.threadEnd i) rfl, h.line⟩

theorem networkSound_start :
    NetworkSound progname pid host hostname now (Network.start hostname now) RegiFlow.start where
  broker _ := ⟨rfl, rfl, ⟨_, rfl, rfl⟩, [], [], rfl, rfl, rfl⟩
  published _ := rfl
  hub := ⟨rfl, rfl, rfl, rfl, [], rfl, rfl⟩
  line _ := rfl

end Steps

/-! ### Runs -/

section Run

variable {β : Type} [DecidableEq β] (progname : Str) (pid : β → Nat) (host hostname : β → Str)
  (now : Time)

/-- The registration as the hub publishes it, when it has come by way of a broker. -/
def completed (b : β) (z : FromProcess) : MqRegi := atHub host b (atBroker progname pid b z)

/-- `out` is what the hub has published, with the brokers it is from: of each of them the first
of what has arrived there.  The registries are runs of registrations, sweeps and releases, the
hub's of what it has published, those of the brokers of all that has arrived but what waits. -/
structure Announced (x : Network β) (out : List (β × MqRegi)) : Prop where
  sent : x.hub.zmqPubToXsub.sent = stream (out.map fun z => regiFrames z.2)
  order : ∀ b, lane b out <+: (x.arrived b).map (completed progname pid host b)
  all : x.Quiet → ∀ b, lane b out = (x.arrived b).map (completed progname pid host b)
  hub : ∃ es, x.hub.registry = es.foldl Hub.step (Hub.initRegistry now) ∧
    Hub.regisOf es = out.map Prod.snd
  broker : ∀ b, ∃ es taken, (x.broker b).registry
      = es.foldl Broker.step (Broker.initRegistry (hostname b) now) ∧
    Broker.regisOf es = taken.map (atBroker progname pid b) ∧
    taken <+: x.arrived b ∧ taken.length + (x.peers b).length = (x.arrived b).length

variable {progname pid host hostname now}

/-- With nothing on its way everything that has arrived is published. -/
theorem NetworkSound.quiet {x : Network β} {f : RegiFlow β}
    (h : NetworkSound progname pid host hostname now x f) (hquiet : x.Quiet) (b : β) :
    lane b f.out = (x.arrived b).map (completed progname pid host b) := by
  have hempty : ∀ {rs : List MqRegi}, stream (rs.map regiFrames) = [] → rs = [] := by
    intro rs hrs
    have hne : ∀ m ∈ rs.map regiFrames, m ≠ [] := regiFrames_ne_nil
    have hlen := length_le_stream hne
    rw [hrs, List.length_map, List.length_nil] at hlen
    exact List.length_eq_zero_iff.mp (Nat.le_zero.mp hlen)
  have hwaiting : f.waiting b = [] := by
    have hqueue := hquiet.broker b
    rw [(h.broker b).sub] at hqueue
    have hmap : ((f.waiting b).map FromProcess.svcRegi).map regiFrames
        = (f.waiting b).map fun z => regiFrames z.svcRegi := List.map_map
    exact List.map_eq_nil_iff.mp (hempty (by rw [hmap]; exact hqueue))
  have hhub : f.hubWaiting = [] := by
    have hqueue := hquiet.hub
    rw [h.hub.sub] at hqueue
    have hmap : (f.hubWaiting.map Prod.snd).map regiFrames
        = f.hubWaiting.map fun z => regiFrames z.2 := List.map_map
    exact List.map_eq_nil_iff.mp (hempty (by rw [hmap]; exact hqueue))
  have hpublished : f.published b = [] := by
    have hpipe := h.published b
    rw [hquiet.published] at hpipe
    exact List.map_eq_nil_iff.mp hpipe.symm
  have hline := h.line b
  rw [hwaiting, hhub, hpublished] at hline
  show lane b f.out = (x.arrived b).map fun z => atHub host b (atBroker progname pid b z)
  simpa using hline

/-- **From the processes to the publisher of the hub registrations keep in line**: in every
state of every run in which the topics are read as they were sent, the hub has published of
what arrived at each broker the first, once each, in order, completed with where it came from;
and all of it once nothing waits or is on its way.  What the registries have become of it is a
run of these registrations. -/
theorem registrations_announced (progname : Str) (pid : β → Nat) (host hostname : β → Str)
    (now : Time) (es : List (NetworkStep β))
    (h : AllSteps (Network.step progname pid host) (fun x e => e.Valid x)
      (Network.start hostname now) es) :
    ∀ x ∈ states (Network.step progname pid host) (Network.start hostname now) es,
      ∃ out, Announced progname pid host hostname now x out := by
  have hinv : ∀ x ∈ states (Network.step progname pid host) (Network.start hostname now) es,
      ∃ f, NetworkSound progname pid host hostname now x f := by
    refine states_inv (fun x e hx he => ?_) es ⟨_, networkSound_start⟩ h
    obtain ⟨f, hf⟩ := hx
    exact networkSound_step hf he
  intro x hx
  obtain ⟨f, hf⟩ := hinv x hx
  refine ⟨f.out, hf.hub.sent, fun b => ?_, fun hquiet b => hf.quiet hquiet b, hf.hub.registry,
    fun b => ?_⟩
  · exact ⟨_, hf.line b⟩
  · obtain ⟨es, taken, harrived, hes, hregis⟩ := (hf.broker b).registry
    refine ⟨es, taken, hes, hregis, ⟨_, harrived.symm⟩, ?_⟩
    rw [harrived, (hf.broker b).peers, List.length_append, List.length_map]

end Run

/-! ### Two brokers -/

namespace AnnouncePsib

def pid (b : Bool) : Nat := if b then 9 else 7

def host (b : Bool) : Str := if b then lit "10.0.0.2" else lit "10.0.0.1"

def regi (svc name : Str) : MqRegi := (MqRegi.zero.setTagSvc svc).setTagName name

def psib : FromProcess := ⟨regi (lit "PSIB") (lit "psib_2"), lit "10.0.0.5"⟩

def ahif : FromProcess := ⟨regi (lit "AHIF") (lit "ahif_1"), lit "10.0.0.6"⟩

/-- What a callback finds behind the topics: the NUL that was in memory before. -/
def around : Around := fun _ => ([0], fun _ => 100)

def steps : List (NetworkStep Bool) :=
  [.arrive true psib, .arrive true ahif, .arrive false ahif, .svcregi true around,
    .svcregi false around, .toHub true, .toHub false, .hubSvcregi around, .toHub true]

theorem valid : AllSteps (Network.step (lit "broker") pid host) (fun x e => e.Valid x)
    (Network.start host 100) steps :=
  ⟨trivial, trivial, trivial, fun _ _ => rfl, fun _ _ => rfl, trivial, trivial,
    fun _ _ => rfl, trivial, trivial⟩

end AnnouncePsib

/-- The hub has published one of each broker, and one is still on its subscriber. -/
theorem registrations_announced_psib :
    let x := AnnouncePsib.steps.foldl
      (Network.step (lit "broker") AnnouncePsib.pid AnnouncePsib.host)
      (Network.start AnnouncePsib.host 100)
    (∃ out, Announced (lit "broker") AnnouncePsib.pid AnnouncePsib.host AnnouncePsib.host 100 x
      out) ∧
      x.hub.zmqPubToXsub.sent.map Part.bytes
        = [mqReg, (completed (lit "broker") AnnouncePsib.pid AnnouncePsib.host true
            AnnouncePsib.psib).mem,
          mqReg, (completed (lit "broker") AnnouncePsib.pid AnnouncePsib.host false
            AnnouncePsib.ahif).mem] ∧
      x.hubPeers = [true] := by
  intro x
  have hannounced := registrations_announced (lit "broker") AnnouncePsib.pid AnnouncePsib.host
    AnnouncePsib.host 100 AnnouncePsib.steps AnnouncePsib.valid x (foldl_mem_states _ _)
  exact ⟨hannounced, by decide +kernel, by decide +kernel⟩

end Brocoli
