/-
What is published for a broker is heard by its thread alone.

A subscription is a prefix, and a thread subscribes to the id of its broker and to the
registrations.  An id is an address, an underscore and a name.  Addresses have no
underscore, so an id that is a prefix of another has the same address, and no two slots in
use do; and no address starts like the topic of the registrations.
-/
import Brocoli.Proofs.BrokerSlots
import Brocoli.Proofs.HubSub

namespace Brocoli.Hub

open CMem Multipart NTree Slots Runs

/-- The host of a registration is the address of a peer, and its id fits `broker_id`. -/
structure FromPeer (svcRegi : MqRegi) : Prop where
  address : IsAddress svcRegi.brokerHost
  plain : (95 : Byte) ∉ svcRegi.brokerHost
  hostFits : svcRegi.brokerHost.length < 24
  idFits : svcRegi.brokerHost.length + 1 + svcRegi.brokerName.length < 48

def Step.FromPeer : Step → Prop
  | .regi svcRegi _ => Hub.FromPeer svcRegi
  | _ => True

theorem Step.FromPeer.fits {e : Step} (h : e.FromPeer) : e.Fits := by
  cases e with
  | sweep current => trivial
  | threadEnd i => trivial
  | regi svcRegi clock =>
      have hfit := h.idFits
      exact ⟨h.hostFits, by omega⟩

/-! ### The names in a slot -/

/-- The id of a slot is made of its host, an address, and a name. -/
structure WellNamed (b : BrokerCtx) : Prop where
  address : IsAddress b.brokerHost
  plain : (95 : Byte) ∉ b.brokerHost
  id : ∃ name, b.brokerId = b.brokerHost ++ lit "_" ++ name

theorem brokerId_setBrokerSlot {svcRegi : MqRegi}
    (hid : svcRegi.brokerHost.length + 1 + svcRegi.brokerName.length < 48) (id : Nat)
    (b : BrokerCtx) : (setBrokerSlot id svcRegi b).brokerId = brokerIdOf svcRegi := by
  have hlen := length_brokerIdOf svcRegi
  have hsize := ((b.names.put 96 (svcRegi.brokerHost ++ [0])).put 48
    (svcRegi.brokerName ++ [0])).size
  show cstr ((store _ 0 (brokerIdOf svcRegi ++ [0])).drop 0) = _
  exact cstr_drop_store (zero_notMem_brokerIdOf svcRegi) (by rw [hsize]; omega)

theorem wellNamed_setBrokerSlot {svcRegi : MqRegi} (h : FromPeer svcRegi) (id : Nat)
    (b : BrokerCtx) : WellNamed (setBrokerSlot id svcRegi b) := by
  have hfit := h.idFits
  have hhost := brokerHost_setBrokerSlot h.hostFits (by omega) id b
  have hid := brokerId_setBrokerSlot h.idFits id b
  refine ⟨?_, ?_, svcRegi.brokerName, ?_⟩
  · rw [hhost]
    exact h.address
  · rw [hhost]
    exact h.plain
  · rw [hhost, hid, brokerIdOf]

/-- Every slot in use is well named. -/
def AllNamed (s : Registry) : Prop := ∀ i, Used s i → WellNamed (s.brokerCtx i)

theorem allNamed_step {s : Registry} (h : AllNamed s) {e : Step} (he : e.FromPeer) :
    AllNamed (step s e) := by
  cases e with
  | sweep current => exact h
  | threadEnd k =>
      intro i hi
      obtain ⟨hused, hsame⟩ := used_brokerThreadEnd hi
      rw [step, hsame]
      exact h i hused
  | regi svcRegi clock =>
      rw [step]
      rcases chkSvcBroker_cases s svcRegi clock with ⟨k, -, heq⟩ | ⟨k, -, heq⟩ | ⟨-, heq⟩
      · rw [heq]
        intro i hi
        by_cases hik : i = k
        · subst hik
          simpa [afterTake] using wellNamed_setBrokerSlot he i (s.brokerCtx i)
        · have hi' : Used s i := by simpa [Used, afterTake, hik] using hi
          simpa [afterTake, hik] using h i hi'
      · rw [heq]
        exact h
      · rw [heq]
        exact h

theorem all_named (now : Time) {es : List Step} (h : ∀ e ∈ es, e.FromPeer) :
    ∀ s ∈ states step (initRegistry now) es, AllNamed s := by
  have hsteps : AllSteps step (fun _ e => e.FromPeer) (initRegistry now) es :=
    AllSteps.of_forall h _
  refine states_inv (fun s e hs he => allNamed_step hs he) es ?_ hsteps
  intro i hi
  exact absurd hi (by simp [Used, initRegistry, BrokerCtx.zero])

/-! ### Prefixes -/

/-- An id that is a prefix of another has the same host. -/
theorem WellNamed.host_eq {b c : BrokerCtx} (hb : WellNamed b) (hc : WellNamed c)
    (h : b.brokerId <+: c.brokerId) : b.brokerHost = c.brokerHost := by
  obtain ⟨name, hname⟩ := hb.id
  obtain ⟨name', hname'⟩ := hc.id
  rw [hname] at h
  have hself : c.brokerHost ++ lit "_" ++ name' <+: c.brokerId := by rw [hname']
  rw [← host_of_prefix hb.plain h, host_of_prefix hc.plain hself]

/-- An id does not start like the topic of registrations, nor the topic like an id. -/
theorem WellNamed.not_topic {b : BrokerCtx} (h : WellNamed b) :
    ¬ b.brokerId <+: mqReg ∧ ¬ mqReg <+: b.brokerId := by
  obtain ⟨name, hname⟩ := h.id
  obtain ⟨x, rest, hhost, hx⟩ := h.address
  have hreg : mqReg = 115 :: lit "vc_reg" := by decide
  have hne : x ≠ 115 := by
    rintro rfl
    exact absurd hx (by decide)
  rw [hname, hhost, hreg, List.cons_append, List.cons_append]
  refine ⟨fun hp => hne (List.cons_prefix_cons.mp hp).1, fun hp => ?_⟩
  exact hne (List.cons_prefix_cons.mp hp).1.symm

/-- What the thread of a slot hears of what is published: `create_broker_ctx` subscribes to the
registrations and to the id. -/
def heardBy (b : BrokerCtx) (ms : List Msg) : List Msg := subscribed [mqReg, b.brokerId] ms

/-- The threads can be told apart by what they subscribe to. -/
structure ThreadsApart (s : Registry) : Prop where
  hosts : HostsApart s
  ids : ∀ i j, Used s i → Used s j → (s.brokerCtx i).brokerId <+: (s.brokerCtx j).brokerId → i = j
  topic : ∀ i, Used s i →
    ¬ (s.brokerCtx i).brokerId <+: mqReg ∧ ¬ mqReg <+: (s.brokerCtx i).brokerId
  heard : ∀ i j, Used s i → Used s j → ∀ rest : Msg,
    heardBy (s.brokerCtx j) [(s.brokerCtx i).brokerId :: rest]
      = if i = j then [(s.brokerCtx i).brokerId :: rest] else []

theorem threadsApart {s : Registry} (hhosts : HostsApart s) (hnamed : AllNamed s) :
    ThreadsApart s := by
  have hids : ∀ i j, Used s i → Used s j →
      (s.brokerCtx i).brokerId <+: (s.brokerCtx j).brokerId → i = j := fun i j hi hj hp =>
    hhosts i j hi hj ((hnamed i hi).host_eq (hnamed j hj) hp)
  refine ⟨hhosts, hids, fun i hi => (hnamed i hi).not_topic, fun i j hi hj rest => ?_⟩
  have htopic := (hnamed i hi).not_topic.2
  by_cases hij : i = j
  · subst hij
    simp [heardBy, subscribed]
  · have hother : ¬ (s.brokerCtx j).brokerId <+: (s.brokerCtx i).brokerId := fun hp =>
      hij (hids j i hj hi hp).symm
    simp [heardBy, subscribed, htopic, hother, hij]

/-- **A message that is published under the id of a slot in use reaches its thread, and no
other**, whatever brokers come and go. -/
theorem hub_message_one_thread (now : Time) {es : List Step} (h : ∀ e ∈ es, e.FromPeer) :
    ∀ s ∈ states step (initRegistry now) es, ThreadsApart s := by
  intro s hs
  exact threadsApart (hosts_apart now (fun e he => (h e he).fits) s hs) (all_named now h s hs)

/-- Two brokers of one name, the address of one a prefix of the other's. -/
theorem hub_message_two_brokers :
    ThreadsApart ([Step.regi (brokerAt (lit "10.0.0.1")) fun _ => 0,
      .regi (brokerAt (lit "10.0.0.11")) fun _ => 0].foldl step (initRegistry 0)) := by
  have hone : FromPeer (brokerAt (lit "10.0.0.1")) :=
    ⟨⟨49, lit "0.0.0.1", by decide +kernel, by decide⟩, by decide +kernel, by decide +kernel,
      by decide +kernel⟩
  have heleven : FromPeer (brokerAt (lit "10.0.0.11")) :=
    ⟨⟨49, lit "0.0.0.11", by decide +kernel, by decide⟩, by decide +kernel, by decide +kernel,
      by decide +kernel⟩
  have hpeers : ∀ e ∈ [Step.regi (brokerAt (lit "10.0.0.1")) fun _ => 0,
      .regi (brokerAt (lit "10.0.0.11")) fun _ => 0], e.FromPeer :=
    List.forall_mem_cons.mpr ⟨hone, List.forall_mem_singleton.mpr heleven⟩
  exact hub_message_one_thread 0 hpeers _ (foldl_mem_states _ _)

end Brocoli.Hub
