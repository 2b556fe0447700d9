/-
What a process sends to another broker gets there in the end.

Everything has its turn again and again.  On the way from a process of one broker to the
router of another a message is at the first router, in the pipe to the hub, in the hub, in the
pipe from it and at the other router, and each of them is a queue from which something is
taken when there is something; so what has gone into one of them comes out of it and is in the
next.
-/
import Brocoli.Proofs.Cluster
import Brocoli.Proofs.SwitchProgress

namespace Brocoli

open CMem Multipart Runs Carriage Progress Hub

section System

variable {β : Type} [DecidableEq β] {id : β → Str} {services : β → List Str}
  {time : β → Nat → Time}

/-- The brokers and the hub after `n` steps. -/
def Cluster.after (time : β → Nat → Time) (x : Cluster β) (ev : Nat → ClusterStep β) :
    Nat → Cluster β
  | 0 => x
  | n + 1 => (x.after time ev n).step time (ev n)

/-- The routers, the pipes, the callbacks of the threads and the proxy have their turn again and
again. -/
structure FairCluster (ev : Nat → ClusterStep β) : Prop where
  router : ∀ a, Recurs fun n => ev n = .router a
  toHub : ∀ a, Recurs fun n => ev n = .toHub a
  toBroker : ∀ b, Recurs fun n => ev n = .toBroker b
  interhub : ∀ a, Recurs fun n => ev n = .hub (.interhub a)
  proxy : ∀ a, Recurs fun n => ev n = .hub (.proxy a)
  toSub : ∀ b, Recurs fun n => ev n = .hub (.toSub b)
  sub : ∀ b, Recurs fun n => ev n = .hub (.sub b)

/-! ### What one step does to the queues -/

/-- What has come to a router and what it has taken. -/
structure RouterGrows (f f' : ClusterFlow β) : Prop where
  come : ∀ a, f.taken a ++ f.waiting a <+: f'.taken a ++ f'.waiting a
  taken : ∀ a, f.taken a <+: f'.taken a

section Steps

variable {f : ClusterFlow β} {zs : List (β × Relay)}

theorem routerGrows_step (zs : List (β × Relay)) (e : ClusterStep β) :
    RouterGrows f (f.step services zs e) := by
  cases e with
  | send a svc m =>
      refine ⟨?_, fun _ => List.prefix_refl _⟩
      refine all_update (Q := fun b (waiting : List (Incoming β)) =>
        f.taken b ++ f.waiting b <+: f.taken b ++ waiting) (fun _ => List.prefix_refl _) ?_
      rw [← List.append_assoc]
      exact List.prefix_append _ _
  | router a =>
      constructor
      · refine all_update₂ (Q := fun b (waiting taken : List (Incoming β)) =>
          f.taken b ++ f.waiting b <+: taken ++ waiting) (fun _ => List.prefix_refl _) ?_
        rw [List.append_assoc, List.take_append_drop]
      · exact all_update (Q := fun b (taken : List (Incoming β)) => f.taken b <+: taken)
          (fun _ => List.prefix_refl _) (List.prefix_append _ _)
  | toHub a => cases hf : f.toHub a <;> constructor <;> simp [ClusterFlow.step, hf]
  | toBroker b =>
      cases hf : f.toBroker b with
      | nil => constructor <;> simp [ClusterFlow.step, hf]
      | cons z rest =>
          rw [ClusterFlow.step, hf]
          refine ⟨?_, fun _ => List.prefix_refl _⟩
          refine all_update (Q := fun c (waiting : List (Incoming β)) =>
            f.taken c ++ f.waiting c <+: f.taken c ++ waiting) (fun _ => List.prefix_refl _) ?_
          rw [← List.append_assoc]
          exact List.prefix_append _ _
  | hub e => exact ⟨fun _ => List.prefix_refl _, fun _ => List.prefix_refl _⟩

/-- The router takes what is first. -/
theorem taken_router {a : β} (h : f.taken a ≠ f.taken a ++ f.waiting a) :
    f.taken a ≠ (f.step services zs (.router a)).taken a := by
  cases hf : f.waiting a with
  | nil => exact absurd (by rw [hf, List.append_nil]) h
  | cons m ms => simp [ClusterFlow.step, hf]

/-- The pipe carries what is first in it. -/
theorem come_toBroker {b : β} (h : f.toBroker b ≠ []) :
    (f.taken b ++ f.waiting b).filterMap Incoming.relay?
      ≠ ((f.step services zs (.toBroker b)).taken b
        ++ (f.step services zs (.toBroker b)).waiting b).filterMap Incoming.relay? := by
  cases hf : f.toBroker b with
  | nil => exact absurd hf h
  | cons z rest => simp [ClusterFlow.step, hf, Incoming.relay?]

/-- The step of the hub, and of its flow. -/
def ClusterStep.hub? : ClusterStep β → Option (SwitchStep β)
  | .hub e => some e
  | _ => none

theorem hub_step (zs : List (β × Relay)) (e : ClusterStep β) :
    (f.step services zs e).hub = e.hub?.elim f.hub (f.hub.step zs) := by
  cases e with
  | toHub a => cases hf : f.toHub a <;> simp [ClusterFlow.step, hf, ClusterStep.hub?]
  | toBroker b => cases hf : f.toBroker b <;> simp [ClusterFlow.step, hf, ClusterStep.hub?]
  | _ => rfl

variable {x : Cluster β}

theorem hubArrived_grows (e : ClusterStep β) (a : β) :
    x.hub.arrived a <+: (x.step time e).hub.arrived a := by
  cases e with
  | toHub b =>
      cases hx : x.toHub b with
      | nil => simp [Cluster.step, hx]
      | cons m ms =>
          cases hm : DealerMsg.ofFrames m with
          | none => simp [Cluster.step, hx, hm]
          | some d =>
              simp only [Cluster.step, hx, hm]
              exact arrived_grows (.arrive b d) a
  | toBroker b => cases hx : x.toBroker b <;> simp [Cluster.step, hx, Cluster.setCtx]
  | hub e => exact arrived_grows e a
  | _ => exact List.prefix_refl _

theorem hubRegistered_grows (e : ClusterStep β) :
    x.hub.registered <+: (x.step time e).hub.registered := by
  cases e with
  | toHub b =>
      cases hx : x.toHub b with
      | nil => simp [Cluster.step, hx]
      | cons m ms =>
          cases hm : DealerMsg.ofFrames m <;> simp [Cluster.step, hx, hm, step_registered]
  | toBroker b => cases hx : x.toBroker b <;> simp [Cluster.step, hx, Cluster.setCtx]
  | hub e => exact registered_grows e
  | _ => exact List.prefix_refl _

/-- What the processes have sent after a step. -/
theorem step_sent (x : Cluster β) (e : ClusterStep β) : (x.step time e).sent =
    match e with
    | .send a _ m => Function.update x.sent a (x.sent a ++ [m])
    | _ => x.sent := by
  cases e with
  | toHub b =>
      cases hx : x.toHub b with
      | nil => simp [Cluster.step, hx]
      | cons m ms => cases hm : DealerMsg.ofFrames m <;> simp [Cluster.step, hx, hm]
  | toBroker b => cases hx : x.toBroker b <;> simp [Cluster.step, hx, Cluster.setCtx]
  | _ => rfl

/-- The pipe carries what is first in it to the dealer. -/
theorem arrived_toHub (h : ClusterSound id services x f) {a : β} (hne : f.toHub a ≠ []) :
    x.hub.arrived a ≠ (x.step time (.toHub a)).hub.arrived a := by
  have hpipe := h.toHub a
  cases hf : f.toHub a with
  | nil => exact absurd hf hne
  | cons d rest =>
      rw [hf, List.map_cons] at hpipe
      simp [Cluster.step, hpipe, ofFrames_frames, step_arrived]

/-- The callback empties the dealer. -/
theorem hubWaiting_interhub (x : Cluster β) (a : β) :
    (x.step time (.hub (.interhub a))).hub.waiting a = [] := by
  show (x.hub.step time (.interhub a)).waiting a = []
  rw [step_waiting]
  exact Function.update_self a _ _

end Steps

/-! ### Endless runs -/

theorem filterMap_mono {α γ : Type} (g : α → Option γ) {l r : List α} (h : l <+: r) :
    l.filterMap g <+: r.filterMap g := by
  obtain ⟨rest, rfl⟩ := h
  rw [List.filterMap_append]
  exact List.prefix_append _ _

section Endless

variable {x : Cluster β} {ev : Nat → ClusterStep β} {f : Nat → ClusterFlow β}

/-- What is where in every state of an endless run. -/
def FollowsAll (id : β → Str) (services : β → List Str) (time : β → Nat → Time) (x : Cluster β)
    (ev : Nat → ClusterStep β) (f : Nat → ClusterFlow β) : Prop :=
  ∀ n, ClusterSound id services (x.after time ev n) (f n) ∧
    ∃ zs, f (n + 1) = (f n).step services zs (ev n)

theorem exists_followsAll (hids : Ids id) (hservices : ∀ b, interhubName ∉ services b)
    {f₀ : ClusterFlow β} (hstart : ClusterSound id services x f₀)
    (hvalid : ∀ n, (ev n).Valid id services (x.after time ev n)) :
    ∃ f, FollowsAll id services time x ev f := by
  obtain ⟨f, -, hf⟩ := exists_endless
    (P := fun n g => ClusterSound id services (x.after time ev n) g)
    (R := fun n g g' => ∃ zs, g' = g.step services zs (ev n)) hstart fun n g hg => by
      obtain ⟨zs, hzs⟩ := clusterSound_step hids hservices hg (hvalid n)
      exact ⟨_, hzs, zs, rfl⟩
  exact ⟨f, hf⟩

theorem FollowsAll.grows (h : FollowsAll id services time x ev f) (n : Nat) :
    RouterGrows (f n) (f (n + 1)) := by
  obtain ⟨-, zs, hnext⟩ := h n
  rw [hnext]
  exact routerGrows_step zs (ev n)

/-- The hub follows its own steps. -/
theorem FollowsAll.hub (h : FollowsAll id services time x ev f) :
    Follows (fun n => (ev n).hub?) fun n => (f n).hub := by
  intro n
  obtain ⟨-, zs, hnext⟩ := h n
  refine ⟨zs, ?_⟩
  show (f (n + 1)).hub = _
  rw [hnext, hub_step]

/-- What has come to a router is taken. -/
theorem come_taken (h : FollowsAll id services time x ev f) (hfair : FairCluster ev) (a : β)
    (n : Nat) :
    ∃ m, n ≤ m ∧ ∀ k, m ≤ k → (f n).taken a ++ (f n).waiting a <+: (f k).taken a := by
  refine comes_out (hfair.router a) (fun n => (h.grows n).come a) (fun n => (h.grows n).taken a)
    (fun n => List.prefix_append _ _) (fun n hn hne => ?_) n
  obtain ⟨-, zs, hnext⟩ := h n
  rw [hnext, hn]
  exact taken_router hne

/-- What a router has sent to the hub gets to the dealer. -/
theorem upward_arrives (h : FollowsAll id services time x ev f) (hfair : FairCluster ev) (a : β)
    (n : Nat) :
    ∃ m, n ≤ m ∧ ∀ k, m ≤ k → ((f n).taken a).flatMap (Incoming.upward (services a))
      <+: (x.after time ev k).hub.arrived a := by
  have harrived : ∀ n, (x.after time ev n).hub.arrived a
      <+: (x.after time ev (n + 1)).hub.arrived a := fun n => hubArrived_grows (ev n) a
  have htaken : ∀ n, ((f n).taken a).flatMap (Incoming.upward (services a))
      <+: ((f (n + 1)).taken a).flatMap (Incoming.upward (services a)) := by
    intro n
    obtain ⟨rest, hrest⟩ := (h.grows n).taken a
    rw [← hrest, List.flatMap_append]
    exact List.prefix_append _ _
  refine comes_out (hfair.toHub a) htaken harrived (fun n => ?_) (fun n hn hne => ?_) n
  · rw [← (h n).1.upward a]
    exact List.prefix_append _ _
  · show _ ≠ ((x.after time ev n).step time (ev n)).hub.arrived a
    rw [hn]
    refine arrived_toHub (h n).1 fun hempty => hne ?_
    rw [← (h n).1.upward a, hempty, List.append_nil]

/-- What has come out of the hub gets to the router. -/
theorem got_comes (h : FollowsAll id services time x ev f) (hfair : FairCluster ev) (b : β)
    (n : Nat) :
    ∃ m, n ≤ m ∧ ∀ k, m ≤ k → ((f n).hub.got b).filterMap Hub.Item.sent?
      <+: ((f k).taken b ++ (f k).waiting b).filterMap Incoming.relay? := by
  refine comes_out (hfair.toBroker b) (fun n => filterMap_mono _ ((h.hub.grows n).got b))
    (fun n => filterMap_mono _ ((h.grows n).come b)) (fun n => ?_) (fun n hn hne => ?_) n
  · rw [← (h n).1.downward b]
    exact List.prefix_append _ _
  · obtain ⟨hsound, zs, hnext⟩ := h n
    rw [hnext, hn]
    refine come_toBroker fun hempty => hne ?_
    rw [← hsound.downward b, hempty, List.append_nil]

/-- What waits on a dealer is taken. -/
theorem dealer_empty (x : Cluster β) (time : β → Nat → Time) (hfair : FairCluster ev) (a : β)
    (n : Nat) : ∃ m, n ≤ m ∧ (x.after time ev m).hub.waiting a = [] := by
  obtain ⟨m, hm, htake⟩ := hfair.interhub a n
  refine ⟨m + 1, by omega, ?_⟩
  rw [Cluster.after, htake]
  exact hubWaiting_interhub _ a

/-- What a router has taken for other brokers is passed on. -/
theorem taken_passed (h : FollowsAll id services time x ev f) (hfair : FairCluster ev) (a : β)
    (n : Nat) :
    ∃ m, n ≤ m ∧ ∃ there, there <+: (f m).hub.passed a ∧
      List.Forall₂ (Crosses id (x.after time ev m).hub.registered a)
        (((f n).taken a).filterMap Incoming.sent? |>.filter (ProcessMsg.leaves (services a)))
        there := by
  obtain ⟨m₁, hm₁, harrives⟩ := upward_arrives h hfair a n
  obtain ⟨m₂, hm₂, hempty⟩ := dealer_empty x time hfair a m₁
  obtain ⟨taken, harrived, hpassed⟩ := (h m₂).1.hub.line.passed a
  rw [hempty, List.append_nil] at harrived
  set left := ((f n).taken a).filterMap Incoming.sent? |>.filter (ProcessMsg.leaves (services a))
    with hleft
  have hprefix : left.map ProcessMsg.toDealer <+: taken.filter fun d => !d.isLog := by
    rw [hleft, ← filter_upward, ← harrived]
    exact (harrives m₂ hm₂).filter _
  obtain ⟨rest, hrest⟩ := hprefix
  have hfirst := List.forall₂_take (left.map ProcessMsg.toDealer).length hpassed
  rw [← hrest, List.take_left, List.forall₂_map_left_iff] at hfirst
  have hvalid : ∀ m ∈ left, m.Valid id := by
    intro m hm
    refine (h n).1.valid a m ?_
    rw [← (h n).1.sent a, List.filterMap_append]
    exact List.mem_append_left _ (List.mem_filter.mp hm).1
  have hboth := (List.forall₂_and_left _ _).mpr ⟨hvalid, hfirst⟩
  have hcrosses := hboth.imp fun m z hz => crosses_of_passed hz.1 hz.2
  exact ⟨m₂, by omega, _, List.take_prefix _ _, hcrosses⟩

/-- What a router has passed on for another is taken there. -/
theorem passed_taken (h : FollowsAll id services time x ev f) (hfair : FairCluster ev) (a b : β)
    (n : Nat) :
    ∃ m, n ≤ m ∧ ∀ k, m ≤ k →
      lane b ((f n).hub.passed a) <+: lane a (((f k).taken b).filterMap Incoming.relay?) := by
  have hsome : ∀ {e : SwitchStep β}, (Recurs fun n => ev n = .hub e) →
      Recurs fun n => (ev n).hub? = some e := fun hrecurs => hrecurs.mono fun n hn => by
    rw [hn]
    rfl
  obtain ⟨m₁, hm₁, hout⟩ := passed_comes_out h.hub (fun n => (h n).1.hub.line.relays a b)
    (hsome (hfair.proxy a)) (hsome (hfair.toSub b)) (hsome (hfair.sub b)) n
  obtain ⟨m₂, hm₂, hcomes⟩ := got_comes h hfair b m₁
  obtain ⟨m₃, hm₃, htaken⟩ := come_taken h hfair b m₂
  refine ⟨m₃, by omega, fun k hk => ?_⟩
  refine (hout m₁ (Nat.le_refl _)).trans (lane_mono a ?_)
  exact (hcomes m₂ (Nat.le_refl _)).trans (filterMap_mono _ (htaken k hk))

end Endless

omit [DecidableEq β] in
theorem Crosses.mono {registered registered' : List MqRegi} {a : β} {m : ProcessMsg}
    {z : β × Relay} (h : Crosses id registered a m z) (hsub : registered ⊆ registered') :
    Crosses id registered' a m z := by
  cases h with
  | req hother hregi hbroker hsvc => exact .req hother (hsub hregi) hbroker hsvc
  | resInterhub hbroker => exact .resInterhub hbroker

/-- **What a process sends to another broker gets there.**  In every endless run of any number of
brokers and their hub in which the routers, the pipes, the callbacks and the proxy have their
turn again and again, each router takes everything that its processes have sent by any time;
and what of it is for other brokers is some time later at the router of a broker that has
registered the service, or of the broker a response names, for ever after, in order. -/
theorem cluster_progress (hids : Ids id) (hservices : ∀ b, interhubName ∉ services b)
    (time : β → Nat → Time) (now : Time) (ev : Nat → ClusterStep β)
    (hvalid : ∀ n, (ev n).Valid id services ((Cluster.start id services now).after time ev n))
    (hfair : FairCluster ev) :
    let after := (Cluster.start id services now).after time ev
    ∃ (taken : Nat → β → List (Incoming β)) (passed : Nat → β → List (β × Relay)),
      (∀ n, EndToEnd id services (after n) (taken n) (passed n)) ∧
      ∀ n a b, ∃ m, n ≤ m ∧ ∀ k, m ≤ k →
        (after n).sent a <+: (taken k a).filterMap Incoming.sent? ∧ ∃ there,
          List.Forall₂ (Crosses id (after k).hub.registered a)
            (((after n).sent a).filter (ProcessMsg.leaves (services a))) there ∧
          there <+: passed k a ∧
          lane b there <+: lane a ((taken k b).filterMap Incoming.relay?) := by
  intro after
  obtain ⟨f, hf⟩ : ∃ f, FollowsAll id services time (Cluster.start id services now) ev f :=
    exists_followsAll hids hservices (clusterSound_start id services now) hvalid
  refine ⟨fun n => (f n).taken, fun n => (f n).hub.passed, fun n => (hf n).1.endToEnd,
    fun n a b => ?_⟩
  obtain ⟨m₁, hm₁, htaken⟩ := come_taken hf hfair a n
  obtain ⟨m₂, hm₂, there, hthere, hcrosses⟩ := taken_passed hf hfair a m₁
  obtain ⟨m₃, hm₃, harrives⟩ := passed_taken hf hfair a b m₂
  have hsent : ∀ k, m₁ ≤ k → (after n).sent a <+: ((f k).taken a).filterMap Incoming.sent? := by
    intro k hk
    rw [← (hf n).1.sent a]
    exact filterMap_mono _ (htaken k hk)
  refine ⟨m₃, by omega, fun k hk => ⟨hsent k (by omega), ?_⟩⟩
  -- what has been passed on for what was sent by then is the first of what has been passed on
  obtain ⟨rest, hrest⟩ := (hsent m₁ (Nat.le_refl _)).filter (ProcessMsg.leaves (services a))
  rw [← hrest] at hcrosses
  have hfirst := List.forall₂_take
    (((after n).sent a).filter (ProcessMsg.leaves (services a))).length hcrosses
  rw [List.take_left] at hfirst
  have hregistered : (after m₂).hub.registered ⊆ (after k).hub.registered :=
    (prefix_later (l := fun n => (after n).hub.registered) (fun n => hubRegistered_grows (ev n))
      (by omega)).subset
  refine ⟨_, hfirst.imp fun _ _ hz => hz.mono hregistered, ?_, ?_⟩
  · have hpassed : (f m₂).hub.passed a <+: (f k).hub.passed a :=
      prefix_later (fun n => (hf.hub.grows n).passed a) (by omega)
    exact ((List.take_prefix _ _).trans hthere).trans hpassed
  · exact (lane_mono b ((List.take_prefix _ _).trans hthere)).trans (harrives k hk)

end System

/-! ### A response on every round -/

namespace ClusterPsib

def response : ProcessMsg :=
  .resInterhub (SwitchPsib.id false) (lit "AHIF") (lit "ahif_1") (lit "ok")

def turns : List (ClusterStep Bool) :=
  .send true (lit "PSIB") response :: [true, false].flatMap fun b =>
    [.router b, .toHub b, .toBroker b, .hub (.interhub b), .hub (.proxy b), .hub (.toSub b),
      .hub (.sub b)]

def endless (n : Nat) : ClusterStep Bool := turns[n % turns.length]?.getD (.hub .proxyMain)

def endlessRun : Nat → Cluster Bool :=
  (Cluster.start SwitchPsib.id services 0).after (fun _ _ => 0) endless

theorem recurs_endless {e : ClusterStep Bool} (he : e ∈ turns) : Recurs fun n => endless n = e :=
  (Recurs.of_turns he).mono fun n hn => by rw [endless, hn]; rfl

theorem fair_endless : FairCluster endless where
  router a := recurs_endless (by cases a <;> simp [turns])
  toHub a := recurs_endless (by cases a <;> simp [turns])
  toBroker b := recurs_endless (by cases b <;> simp [turns])
  interhub a := recurs_endless (by cases a <;> simp [turns])
  proxy a := recurs_endless (by cases a <;> simp [turns])
  toSub b := recurs_endless (by cases b <;> simp [turns])
  sub b := recurs_endless (by cases b <;> simp [turns])

/-- A thread reads responses whatever it knows of services. -/
theorem allReadFrom_of_long {t : BrokerThread} {ms : List DealerMsg}
    (h : ∀ m ∈ ms, m.isLong = true) : AllReadFrom t false ms where
  known m hm := by
    have hlong := h m hm
    cases m with
    | req svc tag body => cases hlong
    | _ => trivial
  start hfalse := absurd hfalse (by decide)
  order := List.pairwise_of_forall_mem_list fun _ _ m hm _ => h m hm

/-- When the processes send nothing but responses, nothing else comes to the dealers. -/
theorem waiting_long {x : Cluster Bool} {f : ClusterFlow Bool}
    (h : ClusterSound SwitchPsib.id services x f) (hsent : ∀ a, ∀ m ∈ x.sent a, m = response)
    (a : Bool) : ∀ d ∈ x.hub.waiting a, d.isLong = true := by
  intro d hd
  obtain ⟨taken, harrived, -⟩ := h.hub.line.passed a
  have hmem : d ∈ (f.taken a).flatMap (Incoming.upward (services a)) := by
    rw [← h.upward a, harrived]
    exact List.mem_append_left _ (List.mem_append_right _ hd)
  obtain ⟨m, hm, hup⟩ := List.mem_flatMap.mp hmem
  cases m with
  | relay origin r => exact absurd hup List.not_mem_nil
  | sent svc m =>
      have hresponse : m = response := by
        refine hsent a m ?_
        rw [← h.sent a]
        exact List.mem_filterMap.mpr ⟨.sent svc m, List.mem_append_left _ hm, rfl⟩
      rw [hresponse] at hup
      rw [List.mem_singleton.mp hup]
      rfl

theorem valid_response : response.Valid SwitchPsib.id := SwitchPsib.valid_response

theorem valid_turn {x : Cluster Bool} {f : ClusterFlow Bool}
    (h : ClusterSound SwitchPsib.id services x f) (hsent : ∀ a, ∀ m ∈ x.sent a, m = response)
    {e : ClusterStep Bool} (he : e ∈ turns) : e.Valid SwitchPsib.id services x := by
  have hread : ∀ a, AllReadFrom (x.hub.thread a) false (x.hub.waiting a) := fun a =>
    allReadFrom_of_long (waiting_long h hsent a)
  simp only [turns, List.flatMap_cons, List.flatMap_nil, List.mem_cons, List.mem_append,
    List.not_mem_nil, or_false] at he
  rcases he with rfl | (rfl | rfl | rfl | rfl | rfl | rfl | rfl) |
    (rfl | rfl | rfl | rfl | rfl | rfl | rfl)
  case inl => exact valid_response
  case inr.inl.inr.inr.inr.inl => exact ⟨hread true, trivial⟩
  case inr.inr.inr.inr.inr.inl => exact ⟨hread false, trivial⟩
  all_goals trivial

theorem sent_turn {x : Cluster Bool} (hsent : ∀ a, ∀ m ∈ x.sent a, m = response)
    {e : ClusterStep Bool} (he : e ∈ turns) :
    ∀ a, ∀ m ∈ (x.step (fun _ _ => 0) e).sent a, m = response := by
  rw [step_sent]
  cases e with
  | send b svc m =>
      have hm : m = response := by
        have hsend : ClusterStep.send b svc m = .send true (lit "PSIB") response := by
          simpa [turns] using he
        cases hsend
        rfl
      refine all_update (Q := fun _ (ms : List ProcessMsg) => ∀ m ∈ ms, m = response) hsent
        fun y hy => ?_
      rcases List.mem_append.mp hy with hy | hy
      · exact hsent b y hy
      · rw [List.mem_singleton.mp hy]
        exact hm
  | _ => exact hsent

theorem endless_mem (n : Nat) : endless n ∈ turns := by
  have hlt : n % turns.length < turns.length := Nat.mod_lt n (by decide)
  rw [endless, List.getElem?_eq_getElem hlt]
  exact List.getElem_mem hlt

theorem sound_endless (n : Nat) : (∃ f, ClusterSound SwitchPsib.id services (endlessRun n) f) ∧
    ∀ a, ∀ m ∈ (endlessRun n).sent a, m = response := by
  induction n with
  | zero => exact ⟨⟨_, clusterSound_start _ _ _⟩, fun _ _ hm => absurd hm List.not_mem_nil⟩
  | succ n ih =>
      obtain ⟨⟨f, hf⟩, hsent⟩ := ih
      have hvalid := valid_turn hf hsent (endless_mem n)
      obtain ⟨zs, hnext⟩ : ∃ zs, ClusterSound SwitchPsib.id services
          ((endlessRun n).step (fun _ _ => 0) (endless n)) (f.step services zs (endless n)) :=
        clusterSound_step SwitchPsib.ids (by decide : ∀ b, interhubName ∉ services b) hf hvalid
      exact ⟨⟨_, hnext⟩, sent_turn hsent (endless_mem n)⟩

theorem valid_endless (n : Nat) : (endless n).Valid SwitchPsib.id services (endlessRun n) := by
  obtain ⟨⟨f, hf⟩, hsent⟩ := sound_endless n
  exact valid_turn hf hsent (endless_mem n)

end ClusterPsib

/-- The first response is published in the end. -/
theorem cluster_progress_psib :
    ∃ (taken : Nat → Bool → List (Incoming Bool)) (passed : Nat → Bool → List (Bool × Relay)),
      (∀ n, EndToEnd SwitchPsib.id ClusterPsib.services (ClusterPsib.endlessRun n) (taken n)
        (passed n)) ∧ ∃ m, ∀ k, m ≤ k →
      [lit "AHIF", (MqTag.zero.recv (lit "ahif_1")).mem, lit "ok"]
        ∈ (ClusterPsib.endlessRun k).answered false := by
  obtain ⟨taken, passed, hends, hprogress⟩ := cluster_progress SwitchPsib.ids
    (by decide : ∀ b, interhubName ∉ ClusterPsib.services b) (fun _ _ => 0) 0 ClusterPsib.endless
    ClusterPsib.valid_endless ClusterPsib.fair_endless
  refine ⟨taken, passed, hends, ?_⟩
  obtain ⟨m, -, hm⟩ := hprogress 1 true false
  refine ⟨m, fun k hk => ?_⟩
  obtain ⟨-, there, hcrosses, -, hout⟩ := hm k hk
  change List.Forall₂ _ [ClusterPsib.response] there at hcrosses
  obtain ⟨z, rest, hz, -, rfl⟩ := List.forall₂_cons_left_iff.mp hcrosses
  cases hz with
  | @resInterhub broker svc name body b hbroker =>
      have hb : b = false := by
        revert hbroker
        cases b <;> decide
      subst hb
      have hmem : (true, ⟨true, lit "AHIF", lit "ahif_1", lit "ok"⟩)
          ∈ (taken k false).filterMap Incoming.relay? := by
        refine mem_lane.mp (hout.subset ?_)
        rw [lane_cons]
        exact List.mem_append_left _ (List.mem_singleton_self _)
      obtain ⟨y, hy, heq⟩ := List.mem_filterMap.mp hmem
      have hanswered : (ClusterPsib.endlessRun k).answered false
          = (taken k false).flatMap Incoming.published := (hends k).answered false
      rw [hanswered]
      refine List.mem_flatMap.mpr ⟨y, hy, ?_⟩
      cases y with
      | sent svc m => cases heq
      | relay origin r =>
          cases heq
          exact List.mem_singleton_self _

end Brocoli
