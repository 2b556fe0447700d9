/-
What the slots in use carry: the name of a service and a port.

A registration is matched with a slot by its port, rounded to a multiple of ten, and a slot
is taken only when no other has that port.  So ports never collide, and with them the three
TCP ports each slot binds.  Names are another matter: they are compared with the slot of
the same port only, and a service that comes with a second port takes a second slot.
-/
import Brocoli.Proofs.ServiceSlots

namespace Brocoli.Broker

open CMem NTree Slots Runs

/-! ### What a step does to the table -/

/-- A step takes a slot for a registration, or it brings no slot into use and changes no name
and no port. -/
theorem step_table (s : Registry) (e : Step) :
    (∃ svcRegi clock i, e = .regi svcRegi clock ∧ Takes s svcRegi i ∧
      step s e = afterTake s svcRegi clock i) ∨
    (∀ svcRegi clock, e = .regi svcRegi clock → ∀ i, ¬ Takes s svcRegi i) ∧
      ∀ i, Used (step s e) i → Used s i ∧
        ((step s e).svcCtx i).svcName = (s.svcCtx i).svcName ∧
        ((step s e).svcCtx i).svcStartPort = (s.svcCtx i).svcStartPort := by
  cases e with
  | sweep current => exact Or.inr ⟨by simp, fun i hi => ⟨hi, rfl, rfl⟩⟩
  | deferred =>
      refine Or.inr ⟨by simp, ?_⟩
      intro i hi
      simp only [step] at hi ⊢
      rcases hq : s.evbase with _ | ⟨d, rest⟩
      · rw [runDeferred_nil hq] at hi ⊢
        exact ⟨hi, rfl, rfl⟩
      · cases d with
        | startSvcPolling j =>
            rw [runDeferred_start hq] at hi ⊢
            by_cases hij : i = j
            · simpa [startSvcPolling, Used, hij] using hi
            · simpa [startSvcPolling, Used, hij] using hi
        | svcRelease j =>
            rw [runDeferred_release hq] at hi ⊢
            by_cases hij : i = j
            · simp [svcRelease, Used, SvcCtx.zero, hij] at hi
            · simpa [svcRelease, Used, hij] using hi
  | regi svcRegi clock =>
      rcases chkSvcDealer_cases s svcRegi clock with ⟨i, htakes, heq⟩ | ⟨i, hhits, heq⟩ |
        ⟨hrefused, heq⟩
      · exact Or.inl ⟨svcRegi, clock, i, rfl, htakes, heq⟩
      · right
        rw [step, heq, afterHit]
        refine ⟨?_, fun j hj => ⟨hj, rfl, rfl⟩⟩
        rintro _ _ ⟨⟩
        exact hhits.not_takes
      · right
        rw [step, heq]
        refine ⟨?_, fun j hj => ⟨hj, rfl, rfl⟩⟩
        rintro _ _ ⟨⟩
        exact hrefused.not_takes

/-! ### Names -/

/-- The slots in use are for different services. -/
def NamesApart (s : Registry) : Prop := Apart (Used s) fun i => (s.svcCtx i).svcName

/-- A registration that takes a slot is for a service that has none. -/
def FreshName (s : Registry) : Step → Prop
  | .regi svcRegi _ =>
      (∃ i, Takes s svcRegi i) → ∀ j, Used s j → (s.svcCtx j).svcName ≠ svcRegi.tagSvc
  | _ => True

/-- **One step keeps the names apart when it is fresh, and does not when it is not.** -/
theorem step_names {s : Registry} (h : NamesApart s) (e : Step) :
    (FreshName s e → NamesApart (step s e)) ∧ (¬ FreshName s e → ¬ NamesApart (step s e)) := by
  rcases step_table s e with ⟨svcRegi, clock, i, rfl, htakes, htake⟩ | ⟨hnone, hkeep⟩
  · have hused := used_afterTake s svcRegi clock i
    have hself : ((afterTake s svcRegi clock i).svcCtx i).svcName = svcRegi.tagSvc := by
      simp [setSvcSlot]
    have hother : ∀ j, j ≠ i →
        ((afterTake s svcRegi clock i).svcCtx j).svcName = (s.svcCtx j).svcName := by
      intro j hj
      rw [afterTake_other s svcRegi clock hj]
    rw [htake]
    refine ⟨fun hfresh => ?_, fun hstale => ?_⟩
    · refine Apart.take h (fun j hj => (hused j).mp hj) hother fun j hj => ?_
      rw [hself]
      exact hfresh ⟨i, htakes⟩ j hj
    · simp only [FreshName, Classical.not_imp, not_forall, not_not] at hstale
      obtain ⟨-, j, hj, hname⟩ := hstale
      have hne : i ≠ j := fun heq => htakes.not_used (heq ▸ hj)
      refine not_apart ((hused i).mpr (Or.inl rfl)) ((hused j).mpr (Or.inr hj)) hne ?_
      show ((afterTake s svcRegi clock i).svcCtx i).svcName = _
      rw [hself, hother j (Ne.symm hne), hname]
  · refine ⟨fun _ => h.anti fun i hi => ⟨(hkeep i hi).1, (hkeep i hi).2.1⟩, fun hstale => ?_⟩
    refine absurd ?_ hstale
    cases e with
    | sweep current => trivial
    | deferred => trivial
    | regi svcRegi clock =>
        rintro ⟨i, htakes⟩
        exact absurd htakes (hnone svcRegi clock rfl i)

/-- **Starting from an empty broker, the slots are for different services exactly when every
registration that takes a slot is for a service that has none.** -/
theorem service_names_iff (hostname : Str) (now : Time) (es : List Step) :
    (∀ t ∈ states step (initRegistry hostname now) es, NamesApart t) ↔
      AllSteps step FreshName (initRegistry hostname now) es := by
  have hinit : NamesApart (initRegistry hostname now) := by
    intro i j hi
    exact absurd hi (by simp [Used, initRegistry, SvcCtx.zero])
  exact states_good_iff (fun _ h => h) (fun _ e h => step_names h e) es hinit

/-- Two slots in use with one name. -/
theorem not_namesApart {s : Registry} {i j : SvcRef} (hi : (s.svcCtx i).used = true)
    (hj : (s.svcCtx j).used = true) (hne : i ≠ j)
    (hname : (s.svcCtx i).svcName = (s.svcCtx j).svcName) : ¬ NamesApart s :=
  not_apart hi hj hne hname

/-- Two processes of `AHIF`, started with different ports, have a slot each. -/
theorem two_slots_one_name :
    ¬ ∀ t ∈ states step (initRegistry (lit "host") 0)
        [.regi (ahifAt 5000) fun _ => 0, .regi (ahifAt 6000) fun _ => 0], NamesApart t := by
  intro h
  refine not_namesApart (i := ⟨0, by decide⟩) (j := ⟨1, by decide⟩) ?_ ?_ (by decide) ?_
    (h _ (List.mem_cons_of_mem _ (List.mem_cons_of_mem _ List.mem_cons_self)))
  · decide +kernel
  · decide +kernel
  · decide +kernel

/-! ### Ports -/

/-- A multiple of ten that is the same as a `short`. -/
structure IsStartPort (p : Int) : Prop where
  multiple : ∃ q, p = q * 10
  short : toShort p = p

theorem toShort_eq {n : Int} (h : -32768 ≤ n ∧ n < 32768) : toShort n = n := by
  rw [toShort]
  exact Int.bmod_eq_of_le (by omega) (by omega)

theorem toShort_range (n : Int) : -32768 ≤ toShort n ∧ toShort n < 32768 := by
  have hle : -(65536 / 2) ≤ n.bmod 65536 := Int.le_bmod (by decide)
  have hlt : n.bmod 65536 < (65536 + 1) / 2 := Int.bmod_lt (by decide)
  rw [toShort]
  omega

/-- Rounding towards zero does not leave the range of a `short`. -/
theorem round_range {n : Int} (h : -32768 ≤ n ∧ n < 32768) :
    -32768 ≤ n.tdiv 10 * 10 ∧ n.tdiv 10 * 10 < 32768 := by
  by_cases hn : 0 ≤ n
  · rw [Int.tdiv_eq_ediv_of_nonneg hn]
    omega
  · have hneg : n.tdiv 10 = -(-n / 10) := by
      rw [← Int.tdiv_eq_ediv_of_nonneg (by omega), Int.neg_tdiv, Int.neg_neg]
    rw [hneg]
    omega

theorem targetPort_eq (svcRegi : MqRegi) : targetPort svcRegi = svcRegi.port.tdiv 10 * 10 :=
  toShort_eq (round_range svcRegi.port_range)

theorem isStartPort_targetPort (svcRegi : MqRegi) : IsStartPort (targetPort svcRegi) where
  multiple := ⟨svcRegi.port.tdiv 10, targetPort_eq svcRegi⟩
  short := toShort_eq (toShort_range _)

/-- The TCP ports `connect_svc_slot` binds for the publisher, the pusher and the puller. -/
def SvcCtx.tcpPorts (svcCtx : SvcCtx) : List Int :=
  [svcCtx.svcStartPort, svcCtx.svcStartPort + 1, svcCtx.svcStartPort + 2]

/-- Start ports that differ are ten apart, so the ports bound next to them differ too. -/
theorem tcpPorts_disjoint {a b : SvcCtx} (ha : IsStartPort a.svcStartPort)
    (hb : IsStartPort b.svcStartPort) (hne : a.svcStartPort ≠ b.svcStartPort) :
    List.Disjoint a.tcpPorts b.tcpPorts := by
  obtain ⟨p, hp⟩ := ha.multiple
  obtain ⟨q, hq⟩ := hb.multiple
  intro x hxa hxb
  simp only [SvcCtx.tcpPorts, List.mem_cons, List.not_mem_nil, or_false] at hxa hxb
  omega

/-- The slots in use have different start ports. -/
structure PortsApart (s : Registry) : Prop where
  apart : Apart (Used s) fun i => (s.svcCtx i).svcStartPort
  start : ∀ i, Used s i → IsStartPort (s.svcCtx i).svcStartPort

theorem portsApart_init (hostname : Str) (now : Time) : PortsApart (initRegistry hostname now) where
  apart i j hi := absurd hi (by simp [Used, initRegistry, SvcCtx.zero])
  start i hi := absurd hi (by simp [Used, initRegistry, SvcCtx.zero])

/-- **One step keeps the ports apart.** -/
theorem portsApart_step {s : Registry} (h : PortsApart s) (e : Step) : PortsApart (step s e) := by
  rcases step_table s e with ⟨svcRegi, clock, i, rfl, htakes, htake⟩ | ⟨-, hkeep⟩
  · have hused := used_afterTake s svcRegi clock i
    have hself : ((afterTake s svcRegi clock i).svcCtx i).svcStartPort = targetPort svcRegi := by
      simp [setSvcSlot, targetPort]
    have hother : ∀ j, j ≠ i →
        ((afterTake s svcRegi clock i).svcCtx j).svcStartPort = (s.svcCtx j).svcStartPort := by
      intro j hj
      rw [afterTake_other s svcRegi clock hj]
    rw [htake]
    refine ⟨h.apart.take (fun j hj => (hused j).mp hj) hother fun j hj => ?_, fun j hj => ?_⟩
    · rw [hself]
      exact htakes.port j hj
    · by_cases hji : j = i
      · rw [hji, hself]
        exact isStartPort_targetPort svcRegi
      · rw [hother j hji]
        exact h.start j (((hused j).mp hj).resolve_left hji)
  · refine ⟨h.apart.anti fun i hi => ⟨(hkeep i hi).1, (hkeep i hi).2.2⟩, fun i hi => ?_⟩
    rw [(hkeep i hi).2.2]
    exact h.start i (hkeep i hi).1

theorem portsApart_run (hostname : Str) (now : Time) (es : List Step) :
    ∀ t ∈ states step (initRegistry hostname now) es, PortsApart t :=
  states_always (fun _ e h => portsApart_step h e) es (portsApart_init hostname now)

/-- The port of the registration belongs to another service. -/
def PortTaken (s : Registry) (svcRegi : MqRegi) : Prop :=
  ∃ i, Used s i ∧ (s.svcCtx i).svcStartPort = targetPort svcRegi ∧
    (s.svcCtx i).svcName ≠ svcRegi.tagSvc

/-- As there is one slot with the port, it is the one the search stops at. -/
theorem chkSvcDealer_portTaken {s : Registry} (h : PortsApart s) {svcRegi : MqRegi}
    (htaken : PortTaken s svcRegi) (clock : Nat → Time) : chkSvcDealer s svcRegi clock = s := by
  obtain ⟨i, hused, hport, hname⟩ := htaken
  rcases chkSvcDealer_cases s svcRegi clock with ⟨j, htakes, -⟩ | ⟨j, hhits, -⟩ | ⟨-, heq⟩
  · exact absurd hport (htakes.port i hused)
  · have hij : i = j := h.apart i j hused hhits.used (hport.trans hhits.port.symm)
    rw [hij] at hname
    exact absurd hhits.name hname
  · exact heq

/-- What the ports of the slots in use promise. -/
structure PortRanges (s : Registry) : Prop where
  startPorts : ∀ i j, Used s i → Used s j → i ≠ j →
    (s.svcCtx i).svcStartPort ≠ (s.svcCtx j).svcStartPort
  short : ∀ i, Used s i → IsStartPort (s.svcCtx i).svcStartPort
  disjoint : ∀ i j, Used s i → Used s j → i ≠ j →
    List.Disjoint (s.svcCtx i).tcpPorts (s.svcCtx j).tcpPorts
  refused : ∀ svcRegi clock, PortTaken s svcRegi → chkSvcDealer s svcRegi clock = s

/-- **The port ranges of the slots never collide**, and a registration for a port of another
service changes nothing. -/
theorem port_ranges_disjoint (hostname : Str) (now : Time) (es : List Step) :
    ∀ t ∈ states step (initRegistry hostname now) es, PortRanges t := by
  intro t ht
  have h := portsApart_run hostname now es t ht
  have hne : ∀ i j, Used t i → Used t j → i ≠ j →
      (t.svcCtx i).svcStartPort ≠ (t.svcCtx j).svcStartPort := fun i j hi hj hij heq =>
    hij (h.apart i j hi hj heq)
  refine ⟨hne, h.start, fun i j hi hj hij => ?_,
    fun r clock hr => chkSvcDealer_portTaken h hr clock⟩
  exact tcpPorts_disjoint (h.start i hi) (h.start j hj) (hne i j hi hj hij)

/-- Another service on a port of `AHIF`. -/
def smsiAt (port : Int) : MqRegi :=
  ((MqRegi.zero.setTagSvc (lit "SMSI")).setTagName (lit "smsi_7")).setPort port

/-- `AHIF` on 5003, `SMSI` on 5008 and then on 5010. -/
theorem port_ranges_two_services :
    PortRanges ([Step.regi (ahifAt 5003) fun _ => 0, .regi (smsiAt 5008) fun _ => 0,
      .regi (smsiAt 5010) fun _ => 0].foldl step (initRegistry (lit "host") 0)) :=
  port_ranges_disjoint _ _ _ _ (foldl_mem_states _ _)

end Brocoli.Broker
