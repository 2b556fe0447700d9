/-
A slot is released once for each use, and not before it was opened.

A slot is referred to by a node, which the registration thread destroys, and is cleared by
a callback of the service thread, some time later.  In between the table may be searched,
other slots taken and the node created again.  What makes the release safe is that a slot
stays in use until then, and that the reference is handed from the node to the callback:
never both have it, and no one else gets it.
-/
import Brocoli.Proofs.ServicePorts

namespace Brocoli.Broker

open CMem NTree Slots Runs

/-! ### The life of a slot -/

/-- The slot a callback is for. -/
def Deferred.slot : Deferred → SvcRef
  | .startSvcPolling i => i
  | .svcRelease i => i

/-- The callbacks posted for a slot, in order. -/
def pending (s : Registry) (i : SvcRef) : List Deferred := s.evbase.filter fun d => d.slot = i

/-- The slot is in use and not open yet. -/
def opening (s : Registry) (i : SvcRef) : Bool := (s.svcCtx i).used && !(s.svcCtx i).polling

/-- The release of a slot that waits for it. -/
def dueRelease (s : Registry) (i : SvcRef) : List Deferred :=
  if i ∈ waiting s then [.svcRelease i] else []

theorem dueRelease_waiting {s : Registry} {i : SvcRef} (h : i ∈ waiting s) :
    dueRelease s i = [.svcRelease i] := if_pos h

theorem dueRelease_none {s : Registry} {i : SvcRef} (h : i ∉ waiting s) :
    dueRelease s i = [] := if_neg h

theorem dueRelease_congr {s t : Registry} {i : SvcRef} (h : i ∈ waiting t ↔ i ∈ waiting s) :
    dueRelease t i = dueRelease s i := by
  simp only [dueRelease, h]

/-- What should be posted for it: it is opened first and released last. -/
def due (s : Registry) (i : SvcRef) : List Deferred :=
  (if opening s i then [.startSvcPolling i] else []) ++ dueRelease s i

def ownerOf (s : Registry) (i : SvcRef) : Owner :=
  if i ∈ s.rootNode.refs NodeData.releases then .held
  else if i ∈ waiting s then .waiting
  else .lost

def life (s : Registry) (i : SvcRef) : Life Str :=
  if (s.svcCtx i).used then .taken (s.svcCtx i).svcName (s.svcCtx i).polling (ownerOf s i)
  else .free

/-- Each slot has one owner at most, a node that refers to one is named after its service, and
exactly what is due is posted. -/
structure Kept (s : Registry) : Prop where
  shallow : Shallow NodeData.releases s.rootNode
  sorted : SortedBy NodeData.name s.rootNode.children
  tracked : Tracked (Used s) (s.rootNode.refs NodeData.releases) (waiting s)
  named : ∀ c ∈ s.rootNode.children, ∀ i, c.data.releases = some i →
    (s.svcCtx i).svcName = c.data.name
  posted : ∀ i, pending s i = due s i
  cleared : ∀ i, ¬ Used s i → s.svcCtx i = SvcCtx.zero

theorem kept_init (hostname : Str) (now : Time) : Kept (initRegistry hostname now) where
  shallow := (owned_init hostname now).shallow
  sorted := (owned_init hostname now).sorted
  tracked := by
    have hb := (owned_init hostname now).balanced
    exact ⟨hb.nodup, fun i hi => (hb.mem i).mpr hi⟩
  named c hc := absurd hc (by simp [initRegistry, Node.leaf])
  posted i := by simp [pending, due, dueRelease, opening, waiting, initRegistry, SvcCtx.zero]
  cleared i _ := rfl

theorem mem_refs_children {s : Registry} (h : Shallow NodeData.releases s.rootNode) {i : SvcRef} :
    i ∈ s.rootNode.refs NodeData.releases ↔
      ∃ c ∈ s.rootNode.children, c.data.releases = some i := by
  rw [refs_shallow h, childRefs, List.mem_filterMap]

/-- A free slot has nothing posted and no owner. -/
theorem Kept.of_free {s : Registry} (h : Kept s) {i : SvcRef} (hi : ¬ Used s i) :
    pending s i = [] ∧ i ∉ s.rootNode.refs NodeData.releases ∧ i ∉ waiting s := by
  have hrefs : i ∉ s.rootNode.refs NodeData.releases := fun hmem =>
    hi (h.tracked.used i (List.mem_append_left _ hmem))
  have hwait : i ∉ waiting s := fun hmem => hi (h.tracked.used i (List.mem_append_right _ hmem))
  refine ⟨?_, hrefs, hwait⟩
  have hopening : opening s i = false := by
    have hused : (s.svcCtx i).used = false := by simpa [Used] using hi
    simp [opening, hused]
  rw [h.posted, due, hopening, dueRelease_none hwait]
  rfl

/-! ### What one step preserves -/

/-- A service node afterwards is one there was, with the same name and reference, or the new
one of a service that had none. -/
theorem mem_chkTree_svc {rootNode : Node NodeData} (hs : SortedBy NodeData.name rootNode.children)
    {svcRegi : MqRegi} {newSvc : Option SvcRef} {now : Time} {c : Node NodeData}
    (hc : c ∈ (chkTree rootNode svcRegi .svc newSvc now).children) :
    (∃ d ∈ rootNode.children, c.data.releases = d.data.releases ∧ c.data.name = d.data.name) ∨
      ((∀ d ∈ rootNode.children, d.data.name ≠ svcRegi.tagSvc) ∧
        c.data.releases = newSvc ∧ c.data.name = svcRegi.tagSvc) := by
  have htree : chkTree rootNode svcRegi .svc newSvc now
      = rootNode.upsert NodeData.name svcRegi.tagSvc (updateNodeInfo svcRegi now)
          (newNode .svc svcRegi newSvc now) := placeNode_foreach _ _ _ _ _
  rw [htree] at hc
  rcases mem_upsertAll hs hc with ⟨d, hd, rfl | rfl⟩ | ⟨hnone, rfl⟩
  · exact Or.inl ⟨c, hd, rfl, rfl⟩
  · exact Or.inl ⟨d, hd, rfl, rfl⟩
  · exact Or.inr ⟨hnone, rfl, rfl⟩

/-- The new node refers to the slot, or none does. -/
theorem refs_take {s : Registry} (h : Kept s) (svcRegi : MqRegi) (i : SvcRef) (now : Time) :
    let tree := chkTree s.rootNode svcRegi .svc (some i) now
    (tree.refs NodeData.releases).Perm (i :: s.rootNode.refs NodeData.releases) ∨
      tree.refs NodeData.releases = s.rootNode.refs NodeData.releases := by
  obtain ⟨-, -, hmem, hnot⟩ := chkTree_svc h.shallow h.sorted svcRegi (some i) now
  by_cases hname : ∃ c ∈ s.rootNode.children, c.data.name = svcRegi.tagSvc
  · exact Or.inr (hmem hname)
  · exact Or.inl (hnot fun c hc heq => hname ⟨c, hc, heq⟩)

/-- A node that refers to a slot is named after its service, the new node too. -/
theorem named_take {s : Registry} (h : Kept s) {svcRegi : MqRegi} {i : SvcRef}
    (ht : Takes s svcRegi i) (clock : Nat → Time) :
    ∀ c ∈ (afterTake s svcRegi clock i).rootNode.children, ∀ j, c.data.releases = some j →
      ((afterTake s svcRegi clock i).svcCtx j).svcName = c.data.name := by
  intro c hc j hj
  rcases mem_chkTree_svc h.sorted hc with ⟨d, hd, href, hname⟩ | ⟨-, href, hname⟩
  · have hd' : d.data.releases = some j := href ▸ hj
    have hmem := (mem_refs_children h.shallow).mpr ⟨d, hd, hd'⟩
    have hused : Used s j := h.tracked.used j (List.mem_append_left _ hmem)
    have hne : j ≠ i := fun heq => ht.not_used (heq ▸ hused)
    rw [afterTake_other s svcRegi clock hne, hname]
    exact h.named d hd j hd'
  · obtain rfl : i = j := Option.some.inj (href.symm.trans hj)
    rw [hname]
    simp [afterTake, setSvcSlot]

/-- The slot that is taken is to be opened, nothing else changes. -/
theorem posted_take {s : Registry} (h : Kept s) {svcRegi : MqRegi} {i : SvcRef}
    (ht : Takes s svcRegi i) (clock : Nat → Time) (j : SvcRef) :
    pending (afterTake s svcRegi clock i) j = due (afterTake s svcRegi clock i) j := by
  have hwait := waiting_afterTake s svcRegi clock i
  by_cases hj : j = i
  · subst hj
    obtain ⟨hpend, -, hwaiti⟩ := h.of_free ht.not_used
    have hzero := h.cleared j ht.not_used
    have hopening : opening (afterTake s svcRegi clock j) j = true := by
      simp [opening, afterTake, setSvcSlot, hzero, SvcCtx.zero]
    have hnew : pending (afterTake s svcRegi clock j) j
        = pending s j ++ [.startSvcPolling j] := by
      simp [pending, afterTake, Deferred.slot]
    have hno : j ∉ waiting (afterTake s svcRegi clock j) := by rwa [hwait]
    rw [hnew, hpend, due, hopening, dueRelease_none hno]
    rfl
  · have hsame : pending (afterTake s svcRegi clock i) j = pending s j := by
      simp [pending, afterTake, Deferred.slot, Ne.symm hj]
    rw [hsame, h.posted, due, due, opening, opening, afterTake_other s svcRegi clock hj,
      dueRelease_congr (by rw [hwait])]

theorem kept_take {s : Registry} (h : Kept s) {svcRegi : MqRegi} {i : SvcRef}
    (ht : Takes s svcRegi i) (clock : Nat → Time) : Kept (afterTake s svcRegi clock i) := by
  obtain ⟨hshallow, hsorted, -, -⟩ := chkTree_svc h.shallow h.sorted svcRegi (some i) (clock 0)
  have hused := used_afterTake s svcRegi clock i
  refine ⟨hshallow, hsorted, ?_, named_take h ht clock, posted_take h ht clock, ?_⟩
  · rw [waiting_afterTake s svcRegi clock i]
    rcases refs_take h svcRegi i (clock 0) with hrefs | hrefs
    · exact h.tracked.take ht.not_used hused hrefs
    · show Tracked _ ((chkTree s.rootNode svcRegi .svc (some i) (clock 0)).refs _) _
      rw [hrefs]
      exact h.tracked.mono fun j hj => (hused j).mpr (Or.inr hj)
  · intro j hj
    have hji : j ≠ i := fun heq => hj ((hused j).mpr (Or.inl heq))
    rw [afterTake_other s svcRegi clock hji]
    exact h.cleared j fun hu => hj ((hused j).mpr (Or.inr hu))

/-- A registration for a slot that is there changes no reference. -/
theorem refs_hit {s : Registry} (h : Kept s) (svcRegi : MqRegi) (clock : Nat → Time) :
    Shallow NodeData.releases (afterHit s svcRegi clock).rootNode ∧
      SortedBy NodeData.name (afterHit s svcRegi clock).rootNode.children ∧
      ((afterHit s svcRegi clock).rootNode.refs NodeData.releases).Perm
        (s.rootNode.refs NodeData.releases) := by
  obtain ⟨hshallow, hsorted, hmem, hnot⟩ := chkTree_svc h.shallow h.sorted svcRegi none (clock 0)
  obtain ⟨hshallow', hrefs, hdata⟩ := chkTree_proc hshallow svcRegi (clock 1)
  refine ⟨hshallow', sortedBy_of_data hsorted hdata, ?_⟩
  show ((chkTree _ svcRegi .proc none (clock 1)).refs _).Perm _
  rw [hrefs]
  by_cases hname : ∃ c ∈ s.rootNode.children, c.data.name = svcRegi.tagSvc
  · rw [hmem hname]
  · exact hnot fun c hc heq => hname ⟨c, hc, heq⟩

theorem kept_hit {s : Registry} (h : Kept s) (svcRegi : MqRegi) (clock : Nat → Time) :
    Kept (afterHit s svcRegi clock) := by
  obtain ⟨hshallow, hsorted, hrefs⟩ := refs_hit h svcRegi clock
  obtain ⟨hshallow', -, -, -⟩ := chkTree_svc h.shallow h.sorted svcRegi none (clock 0)
  obtain ⟨-, -, hdata⟩ := chkTree_proc hshallow' svcRegi (clock 1)
  refine ⟨hshallow, hsorted, h.tracked.perm (hrefs.symm.append_right _), ?_, h.posted, h.cleared⟩
  intro c hc i hi
  have hmem : c.data ∈ (chkTree s.rootNode svcRegi .svc none (clock 0)).children.map Node.data := by
    rw [← hdata]
    exact List.mem_map_of_mem hc
  obtain ⟨d, hd, hcd⟩ := List.mem_map.mp hmem
  rw [← hcd] at hi ⊢
  rcases mem_chkTree_svc h.sorted hd with ⟨e, he, href, hname⟩ | ⟨-, href, -⟩
  · rw [hname]
    exact h.named e he i (href ▸ hi)
  · exact absurd (href.symm.trans hi) (by simp)

/-- The references a sweep drops. -/
def dropped (s : Registry) (current : Time) : List SvcRef :=
  (s.rootNode.sweep (fun d => tmchkNoresp < current - d.hbRcvTime) NodeData.releases).2

theorem waiting_sweep (s : Registry) (current : Time) :
    waiting (removetreeCallback s current) = waiting s ++ dropped s current := by
  simp [waiting, removetreeCallback, dropped, List.filterMap_append, List.filterMap_map,
    Function.comp_def, Deferred.releases]

theorem refs_sweep_dropped {s : Registry} (h : Kept s) (current : Time) :
    (s.rootNode.refs NodeData.releases).Perm
      ((removetreeCallback s current).rootNode.refs NodeData.releases ++ dropped s current) :=
  refs_sweep h.shallow _

theorem filter_eq_of_nodup {β : Type} [DecidableEq β] {l : List β} (h : l.Nodup) (x : β) :
    l.filter (fun y => y = x) = if x ∈ l then [x] else [] := by
  show l.filter (fun y => y == x) = _
  rw [List.filter_beq, h.count]
  by_cases hx : x ∈ l
  · simp [hx]
  · simp [hx]

/-- The slots that are dropped are to be released, and were not before. -/
theorem posted_sweep {s : Registry} (h : Kept s) (current : Time) (i : SvcRef) :
    pending (removetreeCallback s current) i = due (removetreeCallback s current) i := by
  have hperm := refs_sweep_dropped h current
  have hnodup : (s.rootNode.refs NodeData.releases).Nodup :=
    (List.nodup_append.mp h.tracked.nodup).1
  have hdropped : (dropped s current).Nodup :=
    (List.nodup_append.mp (hperm.nodup_iff.mp hnodup)).2.1
  have hpend : pending (removetreeCallback s current) i
      = pending s i ++ ((dropped s current).filter fun j => j = i).map .svcRelease := by
    rw [pending, pending, removetreeCallback, List.filter_append, List.filter_map]
    rfl
  have hopening : opening (removetreeCallback s current) i = opening s i := rfl
  rw [hpend, h.posted, due, due, hopening, filter_eq_of_nodup hdropped, List.append_assoc]
  congr 1
  by_cases hi : i ∈ dropped s current
  · have hrefs : i ∈ s.rootNode.refs NodeData.releases :=
      hperm.mem_iff.mpr (List.mem_append_right _ hi)
    have hnow : i ∈ waiting (removetreeCallback s current) := by
      rw [waiting_sweep]
      exact List.mem_append_right _ hi
    rw [dueRelease_none (h.tracked.not_both hrefs), dueRelease_waiting hnow, if_pos hi]
    rfl
  · have hsame : i ∈ waiting (removetreeCallback s current) ↔ i ∈ waiting s := by
      rw [waiting_sweep, List.mem_append, or_iff_left hi]
    rw [dueRelease_congr hsame, if_neg hi, List.map_nil, List.append_nil]

theorem kept_sweep {s : Registry} (h : Kept s) (current : Time) :
    Kept (removetreeCallback s current) := by
  have hperm := refs_sweep_dropped h current
  refine ⟨shallow_sweep h.shallow _, sortedBy_sweep h.sorted _ _, ?_, ?_, posted_sweep h current,
    h.cleared⟩
  · rw [waiting_sweep]
    refine h.tracked.perm ((hperm.append_right _).trans ?_)
    rw [List.append_assoc]
    exact List.perm_append_comm.append_left _
  · intro c hc i hi
    have hsub := sweepAll_sublist (fun d => tmchkNoresp < current - d.hbRcvTime)
      NodeData.releases s.rootNode.children
    obtain ⟨d, hd, hdata⟩ := List.mem_map.mp (hsub.subset (List.mem_map_of_mem hc))
    rw [← hdata] at hi ⊢
    exact h.named d hd i hi

/-- The callback that was posted first is the first of its slot. -/
theorem pending_head {s : Registry} {d : Deferred} {rest : List Deferred}
    (hq : s.evbase = d :: rest) {i : SvcRef} (hd : d.slot = i) :
    pending s i = d :: pending { s with evbase := rest } i := by
  rw [pending, pending, hq, List.filter_cons, if_pos (by simpa using hd)]

theorem pending_tail {s : Registry} {d : Deferred} {rest : List Deferred}
    (hq : s.evbase = d :: rest) {i : SvcRef} (hd : d.slot ≠ i) :
    pending s i = pending { s with evbase := rest } i := by
  rw [pending, pending, hq, List.filter_cons, if_neg (by simpa using hd)]

/-- A slot that is opened is in use and not open. -/
theorem opening_start {s : Registry} (h : Kept s) {i : SvcRef} {rest : List Deferred}
    (hq : s.evbase = .startSvcPolling i :: rest) :
    opening s i = true ∧
      pending { s with evbase := rest } i = dueRelease s i := by
  have hposted := h.posted i
  rw [pending_head (i := i) hq rfl, due] at hposted
  cases ho : opening s i with
  | true =>
      rw [ho, if_pos rfl] at hposted
      exact ⟨rfl, List.tail_eq_of_cons_eq hposted⟩
  | false =>
      -- then the first callback of the slot would be its release
      rw [ho, if_neg Bool.false_ne_true, List.nil_append] at hposted
      by_cases hi : i ∈ waiting s
      · rw [dueRelease_waiting hi] at hposted
        have hfirst := List.head_eq_of_cons_eq hposted
        exact absurd hfirst (by simp)
      · rw [dueRelease_none hi] at hposted
        exact absurd hposted (List.cons_ne_nil _ _)

/-- A slot that is released is open, and nothing else is posted for it. -/
theorem open_release {s : Registry} (h : Kept s) {i : SvcRef} {rest : List Deferred}
    (hq : s.evbase = .svcRelease i :: rest) :
    Used s i ∧ (s.svcCtx i).polling = true ∧ pending { s with evbase := rest } i = [] := by
  have hi : i ∈ waiting s := by simp [waiting, hq, Deferred.releases]
  have hused := h.tracked.used i (List.mem_append_right _ hi)
  have hposted := h.posted i
  rw [pending_head (i := i) hq rfl, due, dueRelease_waiting hi] at hposted
  cases ho : opening s i with
  | true =>
      rw [ho] at hposted
      simp at hposted
  | false =>
      rw [ho] at hposted
      have hused' : (s.svcCtx i).used = true := hused
      have hrest : pending { s with evbase := rest } i = [] := by simpa using hposted
      exact ⟨hused, by simpa [opening, hused'] using ho, hrest⟩

theorem waiting_start {s : Registry} {i : SvcRef} {rest : List Deferred}
    (hq : s.evbase = .startSvcPolling i :: rest) :
    waiting (startSvcPolling { s with evbase := rest } i) = waiting s := by
  rw [waiting, waiting, hq]
  rfl

theorem waiting_release {s : Registry} {i : SvcRef} {rest : List Deferred}
    (hq : s.evbase = .svcRelease i :: rest) :
    waiting s = i :: waiting (svcRelease { s with evbase := rest } i) := by
  rw [waiting, waiting, hq]
  rfl

/-- The callback of another slot leaves what is posted for this one. -/
theorem posted_other {s s' : Registry} (h : Kept s) {d : Deferred} {rest : List Deferred}
    (hq : s.evbase = d :: rest) (hev : s'.evbase = rest) {j : SvcRef} (hd : d.slot ≠ j)
    (hslot : s'.svcCtx j = s.svcCtx j) (hwait : j ∈ waiting s' ↔ j ∈ waiting s) :
    pending s' j = due s' j := by
  have hposted := h.posted j
  have hsame : opening s' j = opening s j := by rw [opening, hslot, opening]
  rw [pending_tail hq hd] at hposted
  rw [pending, hev, due, hsame, dueRelease_congr hwait]
  exact hposted

theorem kept_start {s : Registry} (h : Kept s) {i : SvcRef} {rest : List Deferred}
    (hq : s.evbase = .startSvcPolling i :: rest) :
    Kept (startSvcPolling { s with evbase := rest } i) := by
  obtain ⟨hopening, hrest⟩ := opening_start h hq
  have hwait := waiting_start hq
  have hother : ∀ j, j ≠ i →
      (startSvcPolling { s with evbase := rest } i).svcCtx j = s.svcCtx j := fun j hj =>
    Function.update_of_ne hj _ _
  have hused : ∀ j, Used s j ↔ Used (startSvcPolling { s with evbase := rest } i) j := by
    intro j
    by_cases hj : j = i
    · simp [Used, startSvcPolling, hj]
    · simp [Used, startSvcPolling, hj]
  have htracked := h.tracked.mono fun j hj => (hused j).mp hj
  rw [← hwait] at htracked
  refine ⟨h.shallow, h.sorted, htracked, ?_, ?_, ?_⟩
  · intro c hc j hj
    rw [← h.named c hc j hj]
    by_cases hji : j = i
    · simp [startSvcPolling, hji]
    · rw [hother j hji]
  · intro j
    by_cases hj : j = i
    · subst hj
      have hopen : opening (startSvcPolling { s with evbase := rest } j) j = false := by
        simp [opening, startSvcPolling]
      have hdue : dueRelease (startSvcPolling { s with evbase := rest } j) j = dueRelease s j :=
        dueRelease_congr (by rw [hwait])
      rw [due, hopen, hdue]
      exact hrest
    · exact posted_other h hq rfl (Ne.symm hj) (hother j hj) (by rw [hwait])
  · intro j hj
    have hfree : ¬ Used s j := fun hu => hj ((hused j).mp hu)
    have hji : j ≠ i := by
      rintro rfl
      have : Used s j := by
        simp only [opening, Bool.and_eq_true] at hopening
        exact hopening.1
      exact hfree this
    rw [hother j hji]
    exact h.cleared j hfree

theorem kept_release {s : Registry} (h : Kept s) {i : SvcRef} {rest : List Deferred}
    (hq : s.evbase = .svcRelease i :: rest) : Kept (svcRelease { s with evbase := rest } i) := by
  obtain ⟨hused, -, hrest⟩ := open_release h hq
  have hwait := waiting_release hq
  have hother : ∀ j, j ≠ i →
      (svcRelease { s with evbase := rest } i).svcCtx j = s.svcCtx j := fun j hj =>
    Function.update_of_ne hj _ _
  have hkeep : ∀ j, Used s j → j ≠ i → Used (svcRelease { s with evbase := rest } i) j := by
    intro j hu hj
    rw [Used, hother j hj]
    exact hu
  obtain ⟨htracked, hgone⟩ := h.tracked.release (List.Perm.of_eq hwait) hkeep
  refine ⟨h.shallow, h.sorted, htracked, ?_, ?_, ?_⟩
  · intro c hc j hj
    have hmem := (mem_refs_children h.shallow).mpr ⟨c, hc, hj⟩
    have hji : j ≠ i := fun heq => hgone (List.mem_append_left _ (heq ▸ hmem))
    rw [hother j hji]
    exact h.named c hc j hj
  · intro j
    by_cases hj : j = i
    · subst hj
      have hopen : opening (svcRelease { s with evbase := rest } j) j = false := by
        simp [opening, svcRelease, SvcCtx.zero]
      have hlater : j ∉ waiting (svcRelease { s with evbase := rest } j) := fun hmem =>
        hgone (List.mem_append_right _ hmem)
      rw [due, hopen, dueRelease_none hlater]
      exact hrest
    · refine posted_other h hq rfl (Ne.symm hj) (hother j hj) ?_
      rw [hwait, List.mem_cons]
      exact ⟨Or.inr, fun hmem => hmem.resolve_left hj⟩
  · intro j hj
    by_cases hji : j = i
    · rw [hji]
      simp [svcRelease]
    · rw [hother j hji]
      exact h.cleared j fun hu => hj (hkeep j hu hji)

theorem kept_deferred {s : Registry} (h : Kept s) : Kept (runDeferred s) := by
  rcases hq : s.evbase with _ | ⟨d, rest⟩
  · rw [runDeferred_nil hq]
    exact h
  · cases d with
    | startSvcPolling i =>
        rw [runDeferred_start hq]
        exact kept_start h hq
    | svcRelease i =>
        rw [runDeferred_release hq]
        exact kept_release h hq

/-- **One step keeps the invariant.** -/
theorem kept_step {s : Registry} (h : Kept s) (e : Step) : Kept (step s e) := by
  cases e with
  | sweep current => exact kept_sweep h current
  | deferred => exact kept_deferred h
  | regi svcRegi clock =>
      rw [step]
      rcases chkSvcDealer_cases s svcRegi clock with ⟨i, ht, heq⟩ | ⟨i, -, heq⟩ | ⟨-, heq⟩
      · rw [heq]
        exact kept_take h ht clock
      · rw [heq]
        exact kept_hit h svcRegi clock
      · rw [heq]
        exact h

/-! ### What one step does to the life of a slot -/

theorem life_of_free {s : Registry} {i : SvcRef} (h : (s.svcCtx i).used = false) :
    life s i = .free := by
  rw [life, h]
  rfl

theorem life_of_used {s : Registry} {i : SvcRef} (h : Used s i) :
    life s i = .taken (s.svcCtx i).svcName (s.svcCtx i).polling (ownerOf s i) := if_pos h

/-- Only what is written in a slot and who refers to it make its life. -/
theorem life_congr {s t : Registry} {i : SvcRef} (hslot : t.svcCtx i = s.svcCtx i)
    (hrefs : i ∈ t.rootNode.refs NodeData.releases ↔ i ∈ s.rootNode.refs NodeData.releases)
    (hwait : i ∈ waiting t ↔ i ∈ waiting s) : life t i = life s i := by
  simp only [life, ownerOf, hslot, hrefs, hwait]

theorem next_of_eq {l l' : Life Str} (h : l' = l) : Life.Next l l' := h ▸ .stay l'

theorem life_take {s : Registry} (h : Kept s) {svcRegi : MqRegi} {i : SvcRef}
    (ht : Takes s svcRegi i) (clock : Nat → Time) (j : SvcRef) :
    Life.Next (life s j) (life (afterTake s svcRegi clock i) j) := by
  have hwait := waiting_afterTake s svcRegi clock i
  by_cases hj : j = i
  · subst hj
    have hfree := ht.not_used
    obtain ⟨-, -, hwaitj⟩ := h.of_free hfree
    have hused : Used (afterTake s svcRegi clock j) j := by simp [Used, afterTake, setSvcSlot]
    have hpolling : ((afterTake s svcRegi clock j).svcCtx j).polling = false := by
      simp [afterTake, setSvcSlot, h.cleared j hfree, SvcCtx.zero]
    rw [life_of_free ht.free, life_of_used hused, hpolling]
    refine .take _ ?_
    rw [ownerOf, hwait, if_neg hwaitj]
    split
    · simp
    · simp
  · refine next_of_eq (life_congr ?_ ?_ (by rw [hwait]))
    · exact Function.update_of_ne hj _ _
    · rcases refs_take h svcRegi i (clock 0) with hrefs | hrefs
      · exact hrefs.mem_iff.trans (by simp [hj])
      · show j ∈ (chkTree s.rootNode svcRegi .svc (some i) (clock 0)).refs _ ↔ _
        rw [hrefs]

theorem life_sweep {s : Registry} (h : Kept s) (current : Time) (i : SvcRef) :
    Life.Next (life s i) (life (removetreeCallback s current) i) := by
  have hperm := refs_sweep_dropped h current
  have hnodup := hperm.nodup_iff.mp (List.nodup_append.mp h.tracked.nodup).1
  have hmem : i ∈ s.rootNode.refs NodeData.releases ↔ _ := hperm.mem_iff.trans List.mem_append
  have hwait : i ∈ waiting (removetreeCallback s current) ↔ i ∈ waiting s ∨ i ∈ dropped s current :=
    by rw [waiting_sweep, List.mem_append]
  by_cases hi : i ∈ dropped s current
  · -- the node that had the slot is gone, and its release is posted
    have hrefs := hmem.mpr (Or.inr hi)
    have hused := h.tracked.used i (List.mem_append_left _ hrefs)
    have hgone : i ∉ (removetreeCallback s current).rootNode.refs NodeData.releases := fun hleft =>
      (List.nodup_append.mp hnodup).2.2 i hleft i hi rfl
    have hheld : ownerOf s i = .held := if_pos hrefs
    have hwaiting : ownerOf (removetreeCallback s current) i = .waiting := by
      rw [ownerOf, if_neg hgone, if_pos (hwait.mpr (Or.inr hi))]
    have hused' : Used (removetreeCallback s current) i := hused
    rw [life_of_used hused, life_of_used hused', hheld, hwaiting]
    exact .leave _ _
  · refine next_of_eq (life_congr rfl ?_ ?_)
    · rw [hmem]
      simp [hi]
    · rw [hwait]
      simp [hi]

/-- A slot that is opened has been taken. -/
theorem life_start {s : Registry} (h : Kept s) {j : SvcRef} {rest : List Deferred}
    (hq : s.evbase = .startSvcPolling j :: rest) (i : SvcRef) :
    Life.Next (life s i) (life (startSvcPolling { s with evbase := rest } j) i) := by
  obtain ⟨hopening, -⟩ := opening_start h hq
  have hwait := waiting_start hq
  by_cases hi : i = j
  · subst hi
    simp only [opening, Bool.and_eq_true, Bool.not_eq_true'] at hopening
    have hused : Used s i := hopening.1
    have hused' : Used (startSvcPolling { s with evbase := rest } i) i := by
      simpa [Used, startSvcPolling] using hused
    have howner : ownerOf (startSvcPolling { s with evbase := rest } i) i = ownerOf s i := by
      rw [ownerOf, hwait]
      rfl
    rw [life_of_used hused, life_of_used hused', howner, hopening.2]
    have hname : ((startSvcPolling { s with evbase := rest } i).svcCtx i).svcName
        = (s.svcCtx i).svcName := by simp [startSvcPolling]
    have hopen : ((startSvcPolling { s with evbase := rest } i).svcCtx i).polling = true := by
      simp [startSvcPolling]
    rw [hname, hopen]
    exact .open _ _
  · exact next_of_eq (life_congr (Function.update_of_ne hi _ _) Iff.rfl (by rw [hwait]))

/-- A slot that is released is open and waits for it. -/
theorem life_release {s : Registry} (h : Kept s) {j : SvcRef} {rest : List Deferred}
    (hq : s.evbase = .svcRelease j :: rest) (i : SvcRef) :
    Life.Next (life s i) (life (svcRelease { s with evbase := rest } j) i) := by
  obtain ⟨hused, hopen, -⟩ := open_release h hq
  have hwait := waiting_release hq
  by_cases hi : i = j
  · subst hi
    have hmem : i ∈ waiting s := by simp [hwait]
    have hrefs : i ∉ s.rootNode.refs NodeData.releases := fun hh => h.tracked.not_both hh hmem
    have howner : ownerOf s i = .waiting := by rw [ownerOf, if_neg hrefs, if_pos hmem]
    have hfree : ((svcRelease { s with evbase := rest } i).svcCtx i).used = false := by
      simp [svcRelease, SvcCtx.zero]
    rw [life_of_used hused, hopen, howner, life_of_free hfree]
    exact .release _
  · refine next_of_eq (life_congr (Function.update_of_ne hi _ _) Iff.rfl ?_)
    rw [hwait, List.mem_cons]
    exact ⟨Or.inr, fun hmem => hmem.resolve_left hi⟩

theorem life_deferred {s : Registry} (h : Kept s) (i : SvcRef) :
    Life.Next (life s i) (life (runDeferred s) i) := by
  rcases hq : s.evbase with _ | ⟨d, rest⟩
  · rw [runDeferred_nil hq]
    exact .stay _
  · cases d with
    | startSvcPolling j =>
        rw [runDeferred_start hq]
        exact life_start h hq i
    | svcRelease j =>
        rw [runDeferred_release hq]
        exact life_release h hq i

/-- **Each step moves each slot along its life.** -/
theorem life_step {s : Registry} (h : Kept s) (e : Step) (i : SvcRef) :
    Life.Next (life s i) (life (step s e) i) := by
  cases e with
  | sweep current => exact life_sweep h current i
  | deferred => exact life_deferred h i
  | regi svcRegi clock =>
      rw [step]
      rcases chkSvcDealer_cases s svcRegi clock with ⟨j, ht, heq⟩ | ⟨j, -, heq⟩ | ⟨-, heq⟩
      · rw [heq]
        exact life_take h ht clock i
      · rw [heq]
        obtain ⟨-, -, hrefs⟩ := refs_hit h svcRegi clock
        exact next_of_eq (life_congr rfl hrefs.mem_iff Iff.rfl)
      · rw [heq]
        exact .stay _

/-! ### Runs -/

/-- The service a slot is given to by the step. -/
def given (i : SvcRef) (s : Registry) (e : Step) : List Str :=
  if (s.svcCtx i).used = false ∧ ((step s e).svcCtx i).used = true then
    [((step s e).svcCtx i).svcName]
  else []

/-- The service whose slot the step clears, when it runs `svc_release` of the slot. -/
def released (i : SvcRef) (s : Registry) : Step → List Str
  | .deferred => if s.evbase.head? = some (.svcRelease i) then [(s.svcCtx i).svcName] else []
  | _ => []

/-- The service a slot is in use for. -/
def current (i : SvcRef) (s : Registry) : List Str :=
  if (s.svcCtx i).used then [(s.svcCtx i).svcName] else []

/-- A step that leaves the slot in the same use. -/
theorem use_keep {s : Registry} {e : Step} {i : SvcRef}
    (hused : ((step s e).svcCtx i).used = (s.svcCtx i).used)
    (hname : ((step s e).svcCtx i).svcName = (s.svcCtx i).svcName) (hrel : released i s e = []) :
    current i s ++ given i s e = released i s e ++ current i (step s e) := by
  have hgiven : given i s e = [] := by
    rw [given, hused, if_neg]
    rintro ⟨hfree, hu⟩
    rw [hfree] at hu
    exact absurd hu (by simp)
  have hcurrent : current i (step s e) = current i s := by rw [current, hused, hname, current]
  rw [hgiven, hrel, hcurrent, List.append_nil, List.nil_append]

theorem use_same {s : Registry} {e : Step} {i : SvcRef}
    (hslot : (step s e).svcCtx i = s.svcCtx i) (hrel : released i s e = []) :
    current i s ++ given i s e = released i s e ++ current i (step s e) :=
  use_keep (by rw [hslot]) (by rw [hslot]) hrel

theorem use_regi (s : Registry) (svcRegi : MqRegi) (clock : Nat → Time) (i : SvcRef) :
    current i s ++ given i s (.regi svcRegi clock)
      = released i s (.regi svcRegi clock) ++ current i (step s (.regi svcRegi clock)) := by
  rcases chkSvcDealer_cases s svcRegi clock with ⟨j, ht, heq⟩ | ⟨j, -, heq⟩ | ⟨-, heq⟩
  · by_cases hij : i = j
    · subst hij
      have hused : ((step s (.regi svcRegi clock)).svcCtx i).used = true := by
        simp [step, heq, afterTake, setSvcSlot]
      have hcurrent : current i s = [] := by simp [current, ht.free]
      rw [hcurrent, given, if_pos ⟨ht.free, hused⟩, current, if_pos hused]
      rfl
    · have hslot : (step s (.regi svcRegi clock)).svcCtx i = s.svcCtx i := by
        simp [step, heq, afterTake, hij]
      exact use_same hslot rfl
  · have hslot : (step s (.regi svcRegi clock)).svcCtx i = s.svcCtx i := by
      rw [step, heq]
      rfl
    exact use_same hslot rfl
  · have hslot : (step s (.regi svcRegi clock)).svcCtx i = s.svcCtx i := by rw [step, heq]
    exact use_same hslot rfl

/-- The slot that is released is in use until then. -/
theorem use_deferred {s : Registry} (h : Kept s) (i : SvcRef) :
    current i s ++ given i s .deferred = released i s .deferred ++ current i (step s .deferred) := by
  rcases hq : s.evbase with _ | ⟨d, rest⟩
  · have hslot : (step s .deferred).svcCtx i = s.svcCtx i := by rw [step, runDeferred_nil hq]
    exact use_same hslot (by simp [released, hq])
  · cases d with
    | startSvcPolling j =>
        have hstep : step s .deferred = startSvcPolling { s with evbase := rest } j :=
          runDeferred_start hq
        have hrel : released i s .deferred = [] := by simp [released, hq]
        by_cases hij : i = j
        · refine use_keep ?_ ?_ hrel
          · simp [hstep, startSvcPolling, hij]
          · simp [hstep, startSvcPolling, hij]
        · have hslot : (step s .deferred).svcCtx i = s.svcCtx i := by
            simp [hstep, startSvcPolling, hij]
          exact use_same hslot hrel
    | svcRelease j =>
        have hstep : step s .deferred = svcRelease { s with evbase := rest } j :=
          runDeferred_release hq
        by_cases hij : i = j
        · subst hij
          have hused : (s.svcCtx i).used = true := (open_release h hq).1
          have hfree : ((step s .deferred).svcCtx i).used = false := by
            simp [hstep, svcRelease, SvcCtx.zero]
          simp [current, given, released, hused, hfree, hq]
        · have hslot : (step s .deferred).svcCtx i = s.svcCtx i := by
            simp [hstep, svcRelease, hij]
          have hrel : released i s .deferred = [] := by simp [released, hq, Ne.symm hij]
          exact use_same hslot hrel

/-- **A step gives a slot that is free, or clears one for the service that has it.** -/
theorem use_step {s : Registry} (h : Kept s) (e : Step) (i : SvcRef) :
    current i s ++ given i s e = released i s e ++ current i (step s e) := by
  cases e with
  | regi svcRegi clock => exact use_regi s svcRegi clock i
  | sweep t => exact use_keep rfl rfl rfl
  | deferred => exact use_deferred h i

/-- What every state keeps to, slot by slot: there is one reference or release at most, the slot
of a node is in use for the node's service, a slot that is to be released is in use, and
its callbacks are the ones that are due. -/
structure SlotOk (s : Registry) (i : SvcRef) : Prop where
  once : (s.rootNode.refs NodeData.releases).count i + (waiting s).count i ≤ 1
  node : ∀ d ∈ s.rootNode.flatten, d.nodeType = .svc → d.svcCtx = some i →
    Used s i ∧ (s.svcCtx i).svcName = d.name
  waiting : .svcRelease i ∈ s.evbase → Used s i
  posted : pending s i = due s i

theorem Kept.slotOk {s : Registry} (h : Kept s) (i : SvcRef) : SlotOk s i where
  once := by
    rw [← List.count_append]
    exact List.nodup_iff_count_le_one.mp h.tracked.nodup i
  node d hd htype hi := by
    have hmem : i ∈ s.rootNode.refs NodeData.releases :=
      mem_refs.mpr ⟨d, hd, releases_eq_some.mpr ⟨htype, hi⟩⟩
    refine ⟨h.tracked.used i (List.mem_append_left _ hmem), ?_⟩
    obtain ⟨c, hc, rfl⟩ := mem_flatten_shallow h.shallow hd (releases_eq_some.mpr ⟨htype, hi⟩)
    exact h.named c hc i (releases_eq_some.mpr ⟨htype, hi⟩)
  waiting hi := h.tracked.used i (List.mem_append_right _ (mem_waiting.mpr hi))
  posted := h.posted i

/-- **A deferred release never hits a slot that was given to another service**: at all times
nodes, slots and callbacks agree, every step moves each slot along its life, and the
services a slot was given to are those it was cleared for, in that order, and the one that
has it. -/
theorem release_hits_own_use (hostname : Str) (now : Time) (es : List Step) :
    (∀ t ∈ states step (initRegistry hostname now) es, ∀ i, SlotOk t i) ∧
      AllSteps step (fun s e => ∀ i, Life.Next (life s i) (life (step s e) i))
        (initRegistry hostname now) es ∧
      ∀ i, log step (given i) (initRegistry hostname now) es
        = log step (released i) (initRegistry hostname now) es
          ++ current i (es.foldl step (initRegistry hostname now)) := by
  have hinit := kept_init hostname now
  have hstep : ∀ s e, Kept s → Kept (step s e) := fun _ e h => kept_step h e
  refine ⟨fun t ht i => (states_always hstep es hinit t ht).slotOk i, ?_, fun i => ?_⟩
  · exact allSteps_always hstep (fun s e h i => life_step h e i) es hinit
  · have hbalance := log_balance hstep (fun s e h => use_step h e i) es hinit
    simpa [current, initRegistry, SvcCtx.zero] using hbalance

end Brocoli.Broker
