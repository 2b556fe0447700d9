/-
What is left when everything has been silent.

A sweep takes every service that was not heard of for too long, with its processes, and
the callbacks it posts give their slots back.  When no service was heard of, that is all of
them: the tree is what it was in the beginning, no callback is left, and the slots that are
not free are exactly those that were lost.  So a broker that has lost no slot starts afresh,
and one that has lost some never gets them back.
-/
import Mathlib.Logic.Function.Iterate
import Brocoli.Proofs.SlotLife
import Brocoli.Proofs.TreeExpiry

namespace Brocoli

open CMem NTree Slots Runs

/-! ### The broker -/

namespace Broker

/-- The slot is in use, no node refers to it, and no release of it is posted. -/
def IsLost (s : Registry) (i : SvcRef) : Prop :=
  Lost (Used s) (s.rootNode.refs NodeData.releases) (waiting s) i

/-- The slot when its sockets have been opened. -/
def SvcCtx.opened (c : SvcCtx) : SvcCtx := { c with polling := true }

/-- A sweep, and then all the callbacks. -/
def recovered (s : Registry) (current : Time) : Registry :=
  let swept := removetreeCallback s current
  runDeferred^[swept.evbase.length] swept

theorem noOrphan_iff_none_lost (s : Registry) : NoOrphan s ↔ ∀ i, ¬ IsLost s i := by
  rw [noOrphan_iff_covered]
  exact covered_iff_none_lost

theorem root_run (hostname : Str) (now : Time) (es : List Step) :
    ∀ s ∈ states step (initRegistry hostname now) es,
      s.rootNode.data = (initRegistry hostname now).rootNode.data := by
  have hkeep : ∀ s e, Ordered s ∧ s.rootNode.data = (initRegistry hostname now).rootNode.data →
      Ordered (step s e) ∧
        (step s e).rootNode.data = (initRegistry hostname now).rootNode.data := by
    intro s e h
    obtain ⟨c, hc, -⟩ := step_change h.1 e
    refine ⟨ordered_step h.1 e, ?_⟩
    rw [hc, Change.apply_data]
    exact h.2
  exact fun s hs => (states_always hkeep es ⟨ordered_init hostname now, rfl⟩ s hs).2

/-! #### The callbacks -/

/-- What the callbacks do not change: the tree, which slots are lost, and what is in those. -/
structure Calm (s s' : Registry) : Prop where
  rootNode : s'.rootNode = s.rootNode
  lost : ∀ i, IsLost s' i ↔ IsLost s i
  slots : ∀ i, IsLost s i → (s'.svcCtx i).opened = (s.svcCtx i).opened

theorem Calm.refl (s : Registry) : Calm s s := ⟨rfl, fun _ => Iff.rfl, fun _ _ => rfl⟩

theorem Calm.trans {s t u : Registry} (h : Calm s t) (h' : Calm t u) : Calm s u where
  rootNode := h'.rootNode.trans h.rootNode
  lost i := (h'.lost i).trans (h.lost i)
  slots i hi := (h'.slots i ((h.lost i).mpr hi)).trans (h.slots i hi)

/-- A slot is opened. -/
theorem calm_start {s : Registry} {i : SvcRef} {rest : List Deferred}
    (hq : s.evbase = .startSvcPolling i :: rest) :
    Calm s (startSvcPolling { s with evbase := rest } i) where
  rootNode := rfl
  lost j := by
    have hused : Used (startSvcPolling { s with evbase := rest } i) j ↔ Used s j := by
      by_cases hj : j = i
      · simp [Used, startSvcPolling, hj]
      · simp [Used, startSvcPolling, hj]
    show Lost _ _ (waiting _) j ↔ _
    rw [waiting_start hq, Lost, hused]
    rfl
  slots j _ := by
    by_cases hj : j = i
    · simp [startSvcPolling, SvcCtx.opened, hj]
    · simp [startSvcPolling, hj]

/-- A slot that waits for its release is not lost, and is free then. -/
theorem calm_release {s : Registry} {i : SvcRef} {rest : List Deferred}
    (hq : s.evbase = .svcRelease i :: rest) :
    Calm s (svcRelease { s with evbase := rest } i) where
  rootNode := rfl
  lost := by
    refine lost_release (List.Perm.of_eq (waiting_release hq)) fun j => ?_
    by_cases hj : j = i
    · simp [Used, svcRelease, SvcCtx.zero, hj]
    · simp [Used, svcRelease, hj]
  slots j hj := by
    have hne : j ≠ i := by
      rintro rfl
      exact hj.2.2 (by rw [waiting_release hq]; exact List.mem_cons_self)
    simp [svcRelease, hne]

/-- **The callbacks run out**, by induction on how many are posted. -/
theorem drained : ∀ (n : Nat) {s : Registry}, Kept s → s.evbase.length = n →
    Kept (runDeferred^[n] s) ∧ (runDeferred^[n] s).evbase = [] ∧ Calm s (runDeferred^[n] s) := by
  intro n
  induction n with
  | zero => exact fun h hlen => ⟨h, List.length_eq_zero_iff.mp hlen, Calm.refl _⟩
  | succ n ih =>
      intro s h hlen
      rw [Function.iterate_succ_apply]
      rcases hq : s.evbase with _ | ⟨d, rest⟩
      · rw [hq] at hlen
        cases hlen
      · have hrest : rest.length = n := by
          rw [hq] at hlen
          exact Nat.succ.inj hlen
        have hkept := kept_deferred h
        cases d with
        | startSvcPolling i =>
            rw [runDeferred_start hq] at hkept ⊢
            obtain ⟨hkept', hnone, hcalm⟩ := ih hkept hrest
            exact ⟨hkept', hnone, (calm_start hq).trans hcalm⟩
        | svcRelease i =>
            rw [runDeferred_release hq] at hkept ⊢
            obtain ⟨hkept', hnone, hcalm⟩ := ih hkept hrest
            exact ⟨hkept', hnone, (calm_release hq).trans hcalm⟩

/-! #### The sweep -/

theorem calm_sweep {s : Registry} (h : Kept s) (current : Time) (i : SvcRef) :
    IsLost (removetreeCallback s current) i ↔ IsLost s i := by
  have hperm := (refs_sweep_dropped h current).append_right (waiting s)
  refine lost_perm (hperm.trans ?_) i
  rw [waiting_sweep, List.append_assoc]
  exact List.perm_append_comm.append_left _

/-- The registry after everything has been silent, and all callbacks have run. -/
structure Recovers (init s : Registry) (current : Time) : Prop where
  rootNode : (recovered s current).rootNode = init.rootNode
  evbase : (recovered s current).evbase = []
  freed : ∀ i, ¬ IsLost s i → (recovered s current).svcCtx i = SvcCtx.zero
  lost : ∀ i, IsLost s i → (recovered s current).svcCtx i = (s.svcCtx i).opened
  afresh : recovered s current = init ↔ NoOrphan s

theorem kept_recovered {s : Registry} (h : Kept s) (current : Time) :
    Kept (recovered s current) ∧ (recovered s current).evbase = [] ∧
      Calm (removetreeCallback s current) (recovered s current) :=
  drained _ (kept_sweep h current) rfl

/-- When no service was heard of, none is left. -/
theorem bare_recovered {s : Registry} (h : Kept s) {current : Time}
    (hsilent : ∀ c ∈ s.rootNode.children, silent current c.data = true) :
    (recovered s current).rootNode = .leaf s.rootNode.data := by
  obtain ⟨-, -, hcalm⟩ := kept_recovered h current
  have hbare : (sweepAll (fun d : NodeData => decide (tmchkNoresp < current - d.hbRcvTime))
      NodeData.releases s.rootNode.children).1 = [] := sweepAll_all_dead hsilent
  rw [hcalm.rootNode, removetreeCallback, Node.sweep, hbare]
  rfl

/-- Then no node refers to a slot and no release is posted, so the slots in use are lost. -/
theorem used_recovered {s : Registry} (h : Kept s) {current : Time}
    (hsilent : ∀ c ∈ s.rootNode.children, silent current c.data = true) (i : SvcRef) :
    Used (recovered s current) i ↔ IsLost s i := by
  obtain ⟨hkept, hnone, hcalm⟩ := kept_recovered h current
  have hrefs : (recovered s current).rootNode.refs NodeData.releases = [] := by
    rw [refs_shallow hkept.shallow, bare_recovered h hsilent]
    rfl
  have hwait : waiting (recovered s current) = [] := by
    rw [waiting, hnone]
    rfl
  rw [← calm_sweep h current, ← hcalm.lost, IsLost, hrefs, hwait, lost_none_left]

/-- A slot in use is open when no callback is left. -/
theorem Kept.open_of_idle {s : Registry} (h : Kept s) (hidle : s.evbase = []) {i : SvcRef}
    (hi : Used s i) : (s.svcCtx i).opened = s.svcCtx i := by
  have hposted := h.posted i
  rw [pending, hidle, List.filter_nil, due] at hposted
  have hnot : opening s i = false := by
    cases ho : opening s i with
    | false => rfl
    | true =>
        rw [ho, if_pos rfl] at hposted
        cases hposted
  have hused : (s.svcCtx i).used = true := hi
  have hopen : (s.svcCtx i).polling = true := by simpa [opening, hused] using hnot
  rw [SvcCtx.opened, ← hopen]

theorem recovers {hostname : Str} {now : Time} {s : Registry} (h : Kept s)
    (hroot : s.rootNode.data = (initRegistry hostname now).rootNode.data) {current : Time}
    (hsilent : ∀ c ∈ s.rootNode.children, silent current c.data = true) :
    Recovers (initRegistry hostname now) s current := by
  obtain ⟨hkept, hnone, hcalm⟩ := kept_recovered h current
  have hused := used_recovered h hsilent
  have htree : (recovered s current).rootNode = (initRegistry hostname now).rootNode := by
    rw [bare_recovered h hsilent, hroot]
    rfl
  have hfreed : ∀ i, ¬ IsLost s i → (recovered s current).svcCtx i = SvcCtx.zero :=
    fun i hi => hkept.cleared i fun hu => hi ((hused i).mp hu)
  refine ⟨htree, hnone, hfreed, fun i hi => ?_, ?_⟩
  · rw [← hkept.open_of_idle hnone ((hused i).mpr hi)]
    exact hcalm.slots i ((calm_sweep h current i).mpr hi)
  · rw [noOrphan_iff_none_lost]
    constructor
    · intro hsame i hi
      have hu := (hused i).mpr hi
      rw [hsame] at hu
      cases hu
    · intro hall
      have hslots : (recovered s current).svcCtx = (initRegistry hostname now).svcCtx :=
        funext fun i => hfreed i (hall i)
      calc recovered s current
          = ⟨(recovered s current).rootNode, (recovered s current).svcCtx,
              (recovered s current).evbase⟩ := rfl
        _ = initRegistry hostname now := by rw [htree, hslots, hnone]; rfl

end Broker

/-! ### The hub -/

namespace Hub

/-- The slot is in use, no node refers to it, and its thread was not told to end. -/
def IsLost (s : Registry) (i : BrokerRef) : Prop :=
  Lost (Used s) (s.rootNode.refs NodeData.releases) s.releasing i

/-- A sweep, and then the ends of these threads, in this order. -/
def recovered (s : Registry) (current : Time) (ends : List BrokerRef) : Registry :=
  ends.foldl brokerThreadEnd (removetreeCallback s current)

theorem noOrphan_iff_none_lost (s : Registry) : NoOrphan s ↔ ∀ i, ¬ IsLost s i := by
  rw [noOrphan_iff_covered]
  exact covered_iff_none_lost

theorem root_run (now : Time) (es : List Step) :
    ∀ s ∈ states step (initRegistry now) es,
      s.rootNode.data = (initRegistry now).rootNode.data := by
  have hkeep : ∀ s e, Ordered s ∧ s.rootNode.data = (initRegistry now).rootNode.data →
      Ordered (step s e) ∧ (step s e).rootNode.data = (initRegistry now).rootNode.data := by
    intro s e h
    obtain ⟨c, hc, -⟩ := step_change h.1 e
    refine ⟨ordered_step h.1 e, ?_⟩
    rw [hc, Change.apply_data]
    exact h.2
  exact fun s hs => (states_always hkeep es ⟨ordered_init now, rfl⟩ s hs).2

/-! #### What every state has -/

/-- Each slot has one owner at most, and a free one is empty. -/
structure Tended (s : Registry) : Prop where
  shallow : Shallow NodeData.releases s.rootNode
  sorted : SortedBy NodeData.name s.rootNode.children
  tracked : Tracked (Used s) (s.rootNode.refs NodeData.releases) s.releasing
  cleared : ∀ i, ¬ Used s i → s.brokerCtx i = BrokerCtx.zero

theorem tended_init (now : Time) : Tended (initRegistry now) where
  shallow := (owned_init now).shallow
  sorted := (owned_init now).sorted
  tracked := by
    have hb := (owned_init now).balanced
    exact ⟨hb.nodup, fun i hi => (hb.mem i).mpr hi⟩
  cleared i _ := rfl

theorem tended_take {s : Registry} (h : Tended s) {svcRegi : MqRegi} {i : BrokerRef}
    (ht : Takes s svcRegi i) (clock : Nat → Time) : Tended (afterTake s svcRegi clock i) := by
  obtain ⟨hshallow, hsorted, hmem, hnot⟩ :=
    chkTree_broker h.shallow h.sorted svcRegi (some i) (clock 0)
  have hused := used_afterTake s svcRegi clock i
  refine ⟨hshallow, hsorted, ?_, fun j hj => ?_⟩
  · show Tracked _ ((chkTree s.rootNode svcRegi .broker (some i) (clock 0)).refs _) s.releasing
    by_cases hname : ∃ c ∈ s.rootNode.children, c.data.name = svcRegi.brokerName
    · rw [hmem hname]
      exact h.tracked.mono fun j hj => (hused j).mpr (Or.inr hj)
    · exact h.tracked.take ht.not_used hused (hnot fun c hc heq => hname ⟨c, hc, heq⟩)
  · have hji : j ≠ i := fun heq => hj ((hused j).mpr (Or.inl heq))
    have hfree : ¬ Used s j := fun hu => hj ((hused j).mpr (Or.inr hu))
    show Function.update s.brokerCtx i _ j = _
    rw [Function.update_of_ne hji]
    exact h.cleared j hfree

theorem tended_hit {s : Registry} (h : Tended s) (svcRegi : MqRegi) (clock : Nat → Time) :
    Tended (afterHit s svcRegi clock) := by
  obtain ⟨hshallow, hsorted, hmem, hnot⟩ :=
    chkTree_broker h.shallow h.sorted svcRegi none (clock 0)
  obtain ⟨hshallow', hrefs, hdata⟩ := chkTree_below hshallow svcRegi (Or.inl rfl) (clock 1)
  obtain ⟨hshallow'', hrefs', hdata'⟩ := chkTree_below hshallow' svcRegi (Or.inr rfl) (clock 2)
  refine ⟨hshallow'', sortedBy_of_data hsorted (hdata'.trans hdata), ?_, h.cleared⟩
  show Tracked (Used s) _ s.releasing
  rw [afterHit, hrefs', hrefs]
  by_cases hname : ∃ c ∈ s.rootNode.children, c.data.name = svcRegi.brokerName
  · rw [hmem hname]
    exact h.tracked
  · have hperm := hnot fun c hc heq => hname ⟨c, hc, heq⟩
    exact h.tracked.perm (hperm.symm.append_right _)

/-- The references a sweep drops are those of the threads it tells to end. -/
theorem refs_sweep_told {s : Registry} (h : Tended s) (current : Time) :
    (s.rootNode.refs NodeData.releases ++ s.releasing).Perm
      ((removetreeCallback s current).rootNode.refs NodeData.releases ++
        (removetreeCallback s current).releasing) := by
  have hperm := refs_sweep h.shallow fun d => tmchkNoresp < current - d.hbRcvTime
  refine (hperm.append_right s.releasing).trans ?_
  rw [List.append_assoc]
  exact List.perm_append_comm.append_left _

theorem tended_sweep {s : Registry} (h : Tended s) (current : Time) :
    Tended (removetreeCallback s current) :=
  ⟨shallow_sweep h.shallow _, sortedBy_sweep h.sorted _ _,
    h.tracked.perm (refs_sweep_told h current), h.cleared⟩

theorem tended_threadEnd {s : Registry} (h : Tended s) (i : BrokerRef) :
    Tended (brokerThreadEnd s i) := by
  unfold brokerThreadEnd
  by_cases hi : i ∈ s.releasing
  · rw [if_pos hi]
    have hkeep : ∀ j, Used s j → j ≠ i →
        (Function.update s.brokerCtx i BrokerCtx.zero j).used = true := by
      intro j hu hj
      rw [Function.update_of_ne hj]
      exact hu
    obtain ⟨htracked, -⟩ := h.tracked.release (List.perm_cons_erase hi) hkeep
    refine ⟨h.shallow, h.sorted, htracked, fun j hj => ?_⟩
    by_cases hji : j = i
    · rw [hji]
      exact Function.update_self _ _ _
    · show Function.update s.brokerCtx i BrokerCtx.zero j = _
      rw [Function.update_of_ne hji]
      exact h.cleared j fun hu => hj (hkeep j hu hji)
  · rw [if_neg hi]
    exact h

/-- **One step keeps it.** -/
theorem tended_step {s : Registry} (h : Tended s) (e : Step) : Tended (step s e) := by
  cases e with
  | sweep current => exact tended_sweep h current
  | threadEnd i => exact tended_threadEnd h i
  | regi svcRegi clock =>
      rw [step]
      rcases chkSvcBroker_cases s svcRegi clock with ⟨i, ht, heq⟩ | ⟨i, -, heq⟩ | ⟨-, heq⟩
      · rw [heq]
        exact tended_take h ht clock
      · rw [heq]
        exact tended_hit h svcRegi clock
      · rw [heq]
        exact h

/-! #### The ends of the threads -/

/-- What the ends do not change: the tree, which slots are lost, and what is in those. -/
structure Calm (s s' : Registry) : Prop where
  rootNode : s'.rootNode = s.rootNode
  lost : ∀ i, IsLost s' i ↔ IsLost s i
  slots : ∀ i, IsLost s i → s'.brokerCtx i = s.brokerCtx i

theorem calm_threadEnd {s : Registry} {i : BrokerRef} (hi : i ∈ s.releasing) :
    Calm s (brokerThreadEnd s i) := by
  rw [brokerThreadEnd, if_pos hi]
  refine ⟨rfl, lost_release (List.perm_cons_erase hi) fun j => ?_, fun j hj => ?_⟩
  · by_cases hj : j = i
    · simp [Used, BrokerCtx.zero, hj]
    · simp [Used, hj]
  · have hne : j ≠ i := fun heq => hj.2.2 (heq ▸ hi)
    exact Function.update_of_ne hne _ _

/-- **Every thread that was told to end ends**, in whatever order. -/
theorem ended : ∀ (ends : List BrokerRef) {s : Registry}, Tended s → ends.Perm s.releasing →
    Tended (ends.foldl brokerThreadEnd s) ∧ (ends.foldl brokerThreadEnd s).releasing = [] ∧
      Calm s (ends.foldl brokerThreadEnd s) := by
  intro ends
  induction ends with
  | nil =>
      intro s h hperm
      exact ⟨h, List.nil_perm.mp hperm, rfl, fun _ => Iff.rfl, fun _ _ => rfl⟩
  | cons i ends ih =>
      intro s h hperm
      have hi : i ∈ s.releasing := hperm.mem_iff.mp List.mem_cons_self
      have hrest : ends.Perm (brokerThreadEnd s i).releasing := by
        rw [brokerThreadEnd, if_pos hi]
        exact (hperm.trans (List.perm_cons_erase hi)).cons_inv
      obtain ⟨htended, hnone, hcalm⟩ := ih (tended_threadEnd h i) hrest
      have hfirst := calm_threadEnd hi
      rw [List.foldl_cons]
      refine ⟨htended, hnone, hcalm.rootNode.trans hfirst.rootNode,
        fun j => (hcalm.lost j).trans (hfirst.lost j), fun j hj => ?_⟩
      rw [hcalm.slots j ((hfirst.lost j).mpr hj), hfirst.slots j hj]

/-- The registry after everything has been silent, and the threads have ended. -/
structure Recovers (init s : Registry) (current : Time) (ends : List BrokerRef) : Prop where
  rootNode : (recovered s current ends).rootNode = init.rootNode
  releasing : (recovered s current ends).releasing = []
  freed : ∀ i, ¬ IsLost s i → (recovered s current ends).brokerCtx i = BrokerCtx.zero
  lost : ∀ i, IsLost s i → (recovered s current ends).brokerCtx i = s.brokerCtx i
  afresh : recovered s current ends = init ↔ NoOrphan s

theorem recovers {now : Time} {s : Registry} (h : Tended s)
    (hroot : s.rootNode.data = (initRegistry now).rootNode.data) {current : Time}
    (hsilent : ∀ c ∈ s.rootNode.children, silent current c.data = true) {ends : List BrokerRef}
    (hends : ends.Perm (removetreeCallback s current).releasing) :
    Recovers (initRegistry now) s current ends := by
  obtain ⟨htended, hnone, hcalm⟩ := ended ends (tended_sweep h current) hends
  have htree : (recovered s current ends).rootNode = (initRegistry now).rootNode := by
    have hbare : (sweepAll (fun d : NodeData => decide (tmchkNoresp < current - d.hbRcvTime))
        NodeData.releases s.rootNode.children).1 = [] := sweepAll_all_dead hsilent
    rw [recovered, hcalm.rootNode, removetreeCallback, Node.sweep, hbare, hroot]
    rfl
  have hswept : ∀ i, IsLost (removetreeCallback s current) i ↔ IsLost s i :=
    lost_perm (refs_sweep_told h current)
  have hused : ∀ i, Used (recovered s current ends) i ↔ IsLost s i := by
    intro i
    have hrefs : (recovered s current ends).rootNode.refs NodeData.releases = [] := by
      rw [htree]
      exact refs_shallow (owned_init now).shallow
    rw [← hswept i, ← hcalm.lost i]
    show _ ↔ Lost (Used (recovered s current ends))
      ((recovered s current ends).rootNode.refs NodeData.releases) _ i
    rw [hrefs, hnone, lost_none_left]
  have hfreed : ∀ i, ¬ IsLost s i → (recovered s current ends).brokerCtx i = BrokerCtx.zero :=
    fun i hi => htended.cleared i fun hu => hi ((hused i).mp hu)
  refine ⟨htree, hnone, hfreed, fun i hi => hcalm.slots i ((hswept i).mpr hi), ?_⟩
  rw [noOrphan_iff_none_lost]
  constructor
  · intro hsame i hi
    have hu := (hused i).mpr hi
    rw [hsame] at hu
    cases hu
  · intro hall
    have hslots : (recovered s current ends).brokerCtx = (initRegistry now).brokerCtx :=
      funext fun i => hfreed i (hall i)
    calc recovered s current ends
        = ⟨(recovered s current ends).rootNode, (recovered s current ends).brokerCtx,
            (recovered s current ends).releasing⟩ := rfl
      _ = initRegistry now := by
          rw [htree, hslots]
          exact congrArg _ hnone

end Hub

/-- **After silence both registries start afresh, but for the slots they have lost**: in every
state of every run, when no service (at the hub, no broker) was heard of for too long, a sweep
and what it sets going leave the tree bare and free exactly the slots that were not lost. -/
theorem registries_recover :
    (∀ (hostname : Str) (now : Time) (es : List Broker.Step),
      ∀ s ∈ states Broker.step (Broker.initRegistry hostname now) es, ∀ current,
        (∀ c ∈ s.rootNode.children, Broker.silent current c.data = true) →
          Broker.Recovers (Broker.initRegistry hostname now) s current) ∧
    (∀ (now : Time) (es : List Hub.Step),
      ∀ s ∈ states Hub.step (Hub.initRegistry now) es, ∀ current,
        (∀ c ∈ s.rootNode.children, Hub.silent current c.data = true) →
          ∀ ends, ends.Perm (Hub.removetreeCallback s current).releasing →
            Hub.Recovers (Hub.initRegistry now) s current ends) := by
  constructor
  · intro hostname now es s hs current hsilent
    have hkeep : ∀ t e, Broker.Kept t → Broker.Kept (Broker.step t e) :=
      fun _ e ht => Broker.kept_step ht e
    have hkept := states_always hkeep es (Broker.kept_init hostname now) s hs
    exact Broker.recovers hkept (Broker.root_run hostname now es s hs) hsilent
  · intro now es s hs current hsilent ends hends
    have hkeep : ∀ t e, Hub.Tended t → Hub.Tended (Hub.step t e) :=
      fun _ e ht => Hub.tended_step ht e
    have htended := states_always hkeep es (Hub.tended_init now) s hs
    exact Hub.recovers htended (Hub.root_run now es s hs) hsilent hends

/-- A service that is heard of twice, and a broker that is heard of once, and then nothing. -/
theorem registries_recover_once :
    Broker.Recovers (Broker.initRegistry (lit "host") 100)
        ([Broker.Step.regi (Broker.ahifAt 5003) fun _ => 100, .deferred,
          .regi (Broker.ahifAt 5003) fun _ => 102].foldl Broker.step
            (Broker.initRegistry (lit "host") 100)) 108 ∧
      Hub.Recovers (Hub.initRegistry 100)
        ([Hub.Step.regi (Hub.brokerAt (lit "10.0.0.1")) fun _ => 100].foldl Hub.step
          (Hub.initRegistry 100)) 106 [⟨0, by decide⟩] :=
  ⟨registries_recover.1 (lit "host") 100 _ _ (foldl_mem_states _ _) 108 (by decide +kernel),
    registries_recover.2 100 _ _ (foldl_mem_states _ _) 106 (by decide +kernel)
      [⟨0, by decide⟩]
      (List.Perm.of_eq (by decide +kernel))⟩

end Brocoli
