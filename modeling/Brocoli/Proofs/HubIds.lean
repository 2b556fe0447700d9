/-
The id of a broker, in the arrays it is written to.

Host and name of a registration have arrays of 24 and 48 bytes, and the id that is made of
both gets one of 48: `broker_id` in the slot, and later `tag.broker` in the requests of its
thread.  What does not fit goes over the first bytes of the field behind.  In the slot that
is the name, which the next registration of the same broker is compared with, and in the tag
it is the service.
-/
import Brocoli.Proofs.Advertising
import Brocoli.Proofs.BrokerIds

namespace Brocoli.Hub

open CMem Multipart NTree Runs

/-- Host and name of the registration end inside their arrays. -/
structure NamesFit (svcRegi : MqRegi) : Prop where
  host : svcRegi.brokerHost.length < 24
  name : svcRegi.brokerName.length < 48

/-- The loop of `chk_svc_broker` ends with `alreadyServiced`. -/
def AlreadyServiced (s : Registry) (svcRegi : MqRegi) : Prop :=
  scanBrokers s svcRegi (List.finRange maxBrokerNum) false = some true

/-- The slot names the broker as the registration does, and as `chk_small_tree` does. -/
structure SlotNamed (svcRegi : MqRegi) (slot : BrokerCtx) : Prop where
  host : slot.brokerHost = svcRegi.brokerHost
  name : slot.brokerName = svcRegi.brokerName
  id : slot.brokerId = brokerIdOf svcRegi
  tree : ∀ type now, (newNodeSmall svcRegi type now).brokerId = slot.brokerId

/-- The id of a slot is written to the tag of a request, and nothing else of the tag is. -/
structure TagCarries (tag : MqTag) (brokerId : Str) : Prop where
  svc : (tag.setBroker brokerId).svc = tag.svc
  name : (tag.setBroker brokerId).name = tag.name
  id : (tag.setBroker brokerId).broker = brokerId

/-- The id of the broker survives the arrays it is written to: in the slot it is set up with,
in the hub as long as it has that slot, and in the tags of the slot's thread. -/
structure IdSurvives (svcRegi : MqRegi) : Prop where
  slot : ∀ id b, SlotNamed svcRegi (setBrokerSlot id svcRegi b)
  again : ∀ now es, (∀ e ∈ es, e.Fits) → ∀ s ∈ states step (initRegistry now) es,
    ∀ i id b, s.brokerCtx i = setBrokerSlot id svcRegi b → AlreadyServiced s svcRegi
  tag : ∀ id b, ∀ tag : MqTag, tag.Fits →
    TagCarries tag (setBrokerSlot id svcRegi b).brokerId

/-! ### The slot -/

theorem slotNamed {svcRegi : MqRegi} (h : NamesFit svcRegi)
    (hid : (brokerIdOf svcRegi).length < 48) (id : Nat) (b : BrokerCtx) :
    SlotNamed svcRegi (setBrokerSlot id svcRegi b) := by
  have hsum := length_brokerIdOf svcRegi
  have hsame : (setBrokerSlot id svcRegi b).brokerId = brokerIdOf svcRegi :=
    brokerId_setBrokerSlot (by omega) id b
  obtain ⟨hhost, hname⟩ := (names_setBrokerSlot h.host id b).mpr hid
  exact ⟨hhost, hname, hsame, fun _ _ => hsame.symm⟩

/-! ### The later registration -/

/-- The scan finds the broker, when every slot of its host has its name. -/
theorem scanBrokers_served {s : Registry} {svcRegi : MqRegi} :
    ∀ {is : List BrokerRef} {found : Bool},
    (∀ i ∈ is, Serves s svcRegi i → (s.brokerCtx i).brokerName = svcRegi.brokerName) →
    (found = true ∨ ∃ i ∈ is, Serves s svcRegi i) →
    scanBrokers s svcRegi is found = some true := by
  intro is
  induction is with
  | nil =>
      intro found _ hfound
      simpa [scanBrokers] using hfound
  | cons i is ih =>
      intro found hname hfound
      have hrest : ∀ j ∈ is, Serves s svcRegi j →
          (s.brokerCtx j).brokerName = svcRegi.brokerName := fun j hj => hname j (by simp [hj])
      rw [scanBrokers]
      by_cases hhost :
          ((s.brokerCtx i).used && svcRegi.brokerHost == (s.brokerCtx i).brokerHost) = true
      · have hsame := hname i (by simp) (serves_iff.mp hhost)
        rw [if_pos hhost, if_neg (not_not.mpr hsame.symm)]
        exact ih hrest (Or.inl rfl)
      · rw [if_neg hhost]
        refine ih hrest (hfound.imp_right ?_)
        rintro ⟨j, hj, hserves⟩
        rcases List.mem_cons.mp hj with rfl | hj
        · exact absurd (serves_iff.mpr hserves) hhost
        · exact ⟨j, hj, hserves⟩

/-- Slots of different hosts are there, and the one of the registration has its names. -/
theorem alreadyServiced {s : Registry} {svcRegi : MqRegi} (happart : HostsApart s)
    {i : BrokerRef} (hused : Used s i) (hslot : SlotNamed svcRegi (s.brokerCtx i)) :
    AlreadyServiced s svcRegi := by
  refine scanBrokers_served (fun j _ hserves => ?_) (Or.inr ⟨i, List.mem_finRange i, hused,
    hslot.host⟩)
  have hji : j = i := happart j i hserves.1 hused (hserves.2.trans hslot.host.symm)
  rw [hji]
  exact hslot.name

/-! ### The tag -/

/-- An id that ends inside `tag.broker` changes that field only. -/
theorem tagCarries (tag : MqTag) {brokerId : Str} (h0 : (0 : Byte) ∉ brokerId)
    (h : brokerId.length < 48) : TagCarries tag brokerId where
  svc := MqTag.svc_setBroker tag h
  name := MqTag.name_setBroker tag h
  id := MqTag.broker_setBroker tag h0 h

/-- **The id of a broker survives exactly when host, underscore and name fit 48 bytes with
their NUL.** -/
theorem idSurvives_iff {svcRegi : MqRegi} (h : NamesFit svcRegi) :
    IdSurvives svcRegi ↔ svcRegi.brokerHost.length + 1 + svcRegi.brokerName.length < 48 := by
  have hsum := length_brokerIdOf svcRegi
  constructor
  · intro hsurvives
    have hslot := hsurvives.slot 0 BrokerCtx.zero
    have hid := (names_setBrokerSlot h.host 0 BrokerCtx.zero).mp ⟨hslot.host, hslot.name⟩
    omega
  · intro hfits
    have hid : (brokerIdOf svcRegi).length < 48 := by omega
    refine ⟨slotNamed h hid, ?_, ?_⟩
    · intro now es hes s hs i id b hi
      refine alreadyServiced (hosts_apart now hes s hs) (i := i) ?_ ?_
      · rw [Used, hi]
        rfl
      · rw [hi]
        exact slotNamed h hid id b
    · intro id b tag _
      rw [(slotNamed h hid id b).id]
      exact tagCarries tag (zero_notMem_brokerIdOf svcRegi) hid

/-- A broker with an id of 17 bytes. -/
theorem idSurvives_short : IdSurvives (brokerAt (lit "10.0.0.1")) := by
  have hfit : NamesFit (brokerAt (lit "10.0.0.1")) := ⟨by decide +kernel, by decide +kernel⟩
  exact (idSurvives_iff hfit).mpr (by decide +kernel)

/-- A broker on 10.0.0.1 with a name of 40 bytes. -/
def longBroker : MqRegi :=
  (MqRegi.zero.setBrokerHost (lit "10.0.0.1")).setBrokerName (List.replicate 40 98)

/-- The slot of `longBroker` in a hub that had none in use. -/
def longSlot : BrokerCtx := setBrokerSlot 0 longBroker BrokerCtx.zero

/-- The hub when `longBroker` has registered. -/
def hubWithLong : Registry := step (initRegistry 0) (.regi longBroker fun _ => 0)

/-- The tag of a request for `AHIF`. -/
def ahifTag : MqTag := MqTag.zero.setSvc (lit "AHIF")

/-- An id of 49 bytes: the slot has the last byte of it for a name, the same registration is
turned away when it comes again, and requests of the thread name another service. -/
theorem id_spills :
    NamesFit longBroker ∧ ¬ IdSurvives longBroker ∧ longSlot.brokerName = lit "b" ∧
    (chkSvcBroker hubWithLong longBroker fun _ => 0).1 = 0 ∧
    ahifTag.Fits ∧ (ahifTag.setBroker longSlot.brokerId).svc = lit "b" := by
  have hname : longSlot.brokerName = lit "b" := by decide +kernel
  have htag : ahifTag.Fits := ⟨by decide +kernel, by decide +kernel, by decide +kernel⟩
  refine ⟨⟨by decide +kernel, by decide +kernel⟩, fun h => ?_, hname, by decide +kernel, htag,
    by decide +kernel⟩
  have hsame : longSlot.brokerName = longBroker.brokerName := (h.slot 0 BrokerCtx.zero).name
  rw [hname] at hsame
  exact absurd (congrArg List.length hsame) (by decide +kernel)

end Brocoli.Hub
