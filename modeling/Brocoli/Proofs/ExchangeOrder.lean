/-
No message overtakes another.

On the way of a response from one process to another every place is a queue, and the next
place is the same for all of them, so the line of the way stays as it was sent.  A request
may be taken by any process of the service, which only makes a gap in the line of the others.
-/
import Brocoli.Lib.Lines
import Brocoli.Proofs.Exchange

namespace Brocoli

open CMem Multipart Custody Carriage Runs

section System

variable {ι : Type} [DecidableEq ι] (svc name : ι → Str) (services : List Str)

/-- A response of the one process to the other. -/
def isRes (p q : ι) : Nat × Parcel ι → Bool
  | (_, .res a) => decide (a.sender = p) && decide (a.asker = q)
  | (_, .req _) => false

/-- A request of the process to the service. -/
def isReq (p : ι) (s : Str) : Nat × Parcel ι → Bool
  | (_, .req r) => decide (r.sender = p) && decide (r.tgsvc = s)
  | (_, .res _) => false

/-- The way of a response, the last place first. -/
def resPath (p q : ι) : List (Spot ι) :=
  [.replied q, .sub q, .relayed q, .slotSub (svc q), .published (svc q), .routerIn,
    .slotUp (svc p), .push p]

/-- The way of a request to the process `q` of the service. -/
def reqPath (p q : ι) : List (Spot ι) :=
  [.handed q, .pull q, .slotDown (svc q), .routerOut, .routerIn, .slotUp (svc p), .push p]

/-- The lines are part of what was sent, in the order it was sent. -/
structure Ordered (x : Exchange ι) (held : Spot ι → List (Nat × Parcel ι)) : Prop where
  res : ∀ p q, (line held (resPath svc p q) (isRes p q)).Sublist
    ((numbered x.sent).filter (isRes p q))
  req : ∀ p q, (line held (reqPath svc p q) (isReq p (svc q))).Sublist
    ((numbered x.sent).filter (isReq p (svc q)))

variable {svc name services}

omit [DecidableEq ι] in
theorem nodup_resPath (p q : ι) : (resPath svc p q).Nodup := by simp [resPath]

omit [DecidableEq ι] in
theorem nodup_reqPath (p q : ι) : (reqPath svc p q).Nodup := by simp [reqPath]

theorem isRes_iff {p q : ι} {z : Nat × Parcel ι} :
    isRes p q z = true ↔ ∃ a, z.2 = .res a ∧ a.sender = p ∧ a.asker = q := by
  obtain ⟨k, z⟩ := z
  cases z with
  | req r => simp [isRes]
  | res a => simp [isRes]

theorem isReq_iff {p : ι} {s : Str} {z : Nat × Parcel ι} :
    isReq p s z = true ↔ ∃ r, z.2 = .req r ∧ r.sender = p ∧ r.tgsvc = s := by
  obtain ⟨k, z⟩ := z
  cases z with
  | req r => simp [isReq]
  | res a => simp [isReq]

/-! ### What a step does to a line -/

section Steps

variable {x : Exchange ι} {held : Spot ι → List (Nat × Parcel ι)}

/-- What does not count in a place. -/
theorem isRes_false (hw : x.Working svc name services) (h : Balanced svc x held) {s : Spot ι}
    {z : Nat × Parcel ι} (hz : z ∈ held s) {p q : ι}
    (hnot : ∀ a : Response ι, a.Valid svc name → a.sender = p → a.asker = q →
      ¬ Suits svc s (.res a)) :
    isRes p q z = false := by
  have hsuits := h.carried.belongs s z hz
  have hvalid := hw.valid_of_mem h hz
  by_contra hmine
  obtain ⟨a, ha, hp, hq⟩ := isRes_iff.mp (Bool.not_eq_false _ ▸ hmine)
  rw [ha] at hsuits hvalid
  exact hnot a hvalid hp hq hsuits

theorem isReq_false (h : Balanced svc x held) {s : Spot ι} {z : Nat × Parcel ι} (hz : z ∈ held s)
    {p : ι} {t : Str}
    (hnot : ∀ r : Request ι, r.sender = p → r.tgsvc = t → ¬ Suits svc s (.req r)) :
    isReq p t z = false := by
  have hsuits := h.carried.belongs s z hz
  by_contra hmine
  obtain ⟨r, hr, hp, ht⟩ := isReq_iff.mp (Bool.not_eq_false _ ▸ hmine)
  exact hnot r hp ht (hr ▸ hsuits)

/-- What a step has sent, with its number. -/
def newBy (x : Exchange ι) (e : ExchangeStep ι) : List (Nat × Parcel ι) :=
  (sentBy x e).map fun z => (x.sent.length, z)

theorem numbered_step (x : Exchange ι) (e : ExchangeStep ι) :
    numbered (x.step svc name services e).sent = numbered x.sent ++ newBy x e := by
  rw [sent_step, newBy]
  have hlen := length_sentBy_le x e
  cases hby : sentBy x e with
  | nil => simp
  | cons z rest =>
      rw [hby, List.length_cons] at hlen
      obtain rfl : rest = [] := List.length_eq_zero_iff.mp (by omega)
      exact numbered_concat x.sent z

/-- **The responses of one process to another stay in line.** -/
theorem line_res_step (hap : Apart svc name services) (hw : x.Working svc name services)
    (h : Balanced svc x held) {e : ExchangeStep ι} (he : e.Valid svc name services) (p q : ι) :
    (line (holds svc x held e) (resPath svc p q) (isRes p q)).Sublist
      (line held (resPath svc p q) (isRes p q) ++ (newBy x e).filter (isRes p q)) := by
  have hsub : ∀ {l l' new : List (Nat × Parcel ι)}, l.Sublist l' → l.Sublist (l' ++ new) :=
    fun hl => hl.trans (List.sublist_append_left _ _)
  have hsame : ∀ {l l' new : List (Nat × Parcel ι)}, l = l' → l.Sublist (l' ++ new) :=
    fun heq => heq ▸ List.sublist_append_left _ _
  -- the service a response is published for
  have htag : ∀ {s : Spot ι} {z : Nat × Parcel ι}, z ∈ held s → isRes p q z = true →
      behindRouter z = .published (svc q) ∧ behindSlot z = .relayed q := by
    intro s z hz hmine
    have hvalid := hw.valid_of_mem h hz
    obtain ⟨k, z⟩ := z
    obtain ⟨a, rfl, rfl, rfl⟩ := isRes_iff.mp hmine
    have ha : a.Valid svc name := hvalid
    exact ⟨congrArg Spot.published ha.tagSvc, rfl⟩
  cases e with
  | net e =>
      cases e with
      | send r =>
          refine hsame (line_added_other ?_ _)
          rfl
      | toSlot p' =>
          by_cases hp : p' = p
          · subst hp
            exact hsub (line_shift_sublist ⟨[_, _, _, _, _, _], [], rfl⟩ (nodup_resPath p' q)
              fun _ _ _ => Or.inl rfl)
          · refine hsame (line_shift_other fun z hz => ?_)
            exact isRes_false hw h (List.mem_of_mem_take hz)
              fun a _ ha _ (hs : a.sender = p') => hp (hs.symm.trans ha)
      | pullToDealer s => exact hsame rfl
      | dealerToPush s => exact hsame rfl
      | toRouter s =>
          cases hd : (x.net.slot s).dealerOut.deliver with
          | none => exact hsame (by rw [holds, hd])
          | some m =>
              rw [holds, hd]
              by_cases hs : s = svc p
              · subst hs
                exact hsub (line_shift_sublist ⟨[_, _, _, _, _], [_], rfl⟩ (nodup_resPath p q)
                  fun _ _ _ => Or.inl rfl)
              · refine hsame (line_shift_other fun z hz => ?_)
                exact isRes_false hw h (List.mem_of_mem_take hz)
                  fun a _ ha _ (hsvc : svc a.sender = s) => hs (by rw [← hsvc, ha])
      | router =>
          exact hsub (line_shift_sublist ⟨[_, _, _, _], [_, _], rfl⟩ (nodup_resPath p q)
            fun z hz hmine => Or.inl (htag (List.mem_of_mem_take hz) hmine).1)
      | toDealer s =>
          refine hsame (line_pick_other fun z hz _ => ?_)
          exact isRes_false hw h hz fun a _ _ _ (hs : false = true) => absurd hs (by decide)
      | toProcess p' =>
          cases hd : (x.net.slot (svc p')).push.deliver with
          | none => exact hsame (by rw [holds, hd])
          | some m =>
              rw [holds, hd]
              refine hsame (line_shift_other fun z hz => ?_)
              exact isRes_false hw h (List.mem_of_mem_take hz)
                fun a _ _ _ hs => absurd hs.1 (by simp [Parcel.isReq])
      | recv p' into buf =>
          refine hsame (line_shift_other fun z hz => ?_)
          exact isRes_false hw h (List.mem_of_mem_take hz)
            fun a _ _ _ hs => absurd hs.1 (by simp [Parcel.isReq])
  | respond a =>
      have hnew : newBy x (.respond a) = [(x.sent.length, .res a)] := by
        rw [newBy, sentBy_respond hap hw he]
        rfl
      rw [hnew, holds]
      by_cases hmine : isRes p q (x.sent.length, .res a) = true
      · obtain ⟨b, hb, rfl, rfl⟩ := isRes_iff.mp hmine
        obtain rfl : a = b := Parcel.res.inj hb
        have hlast : [Spot.push a.sender] <:+ resPath svc a.sender a.asker :=
          ⟨[_, _, _, _, _, _, _], rfl⟩
        rw [line_added hlast (nodup_resPath _ _)]
      · exact hsame (line_added_other (by simpa using hmine) _)
  | toSub s =>
      by_cases hs : s = svc q
      · subst hs
        exact hsub (line_shift_sublist ⟨[_, _, _], [_, _, _], rfl⟩ (nodup_resPath p q)
          fun _ _ _ => Or.inl rfl)
      · refine hsame (line_shift_other fun z hz => ?_)
        exact isRes_false hw h (List.mem_of_mem_take hz)
          fun a ha _ hq hsuits => hs (by rw [← hsuits.2, ← hq, ← ha.tagSvc]; rfl)
  | subToPub s =>
      by_cases hs : s = svc q
      · subst hs
        exact hsub (line_shift_sublist ⟨[_, _], [_, _, _, _], rfl⟩ (nodup_resPath p q)
          fun z hz hmine => Or.inl (htag (List.mem_of_mem_take hz) hmine).2)
      · refine hsame (line_shift_other fun z hz => ?_)
        exact isRes_false hw h (List.mem_of_mem_take hz)
          fun a ha _ hq hsuits => hs (by rw [← hsuits.2, ← hq, ← ha.tagSvc]; rfl)
  | toSubscriber q' =>
      by_cases hq : q' = q
      · subst hq
        exact hsub (line_shift_sublist ⟨[_], [_, _, _, _, _], rfl⟩ (nodup_resPath p q')
          fun _ _ _ => Or.inl rfl)
      · refine hsame (line_shift_other fun z hz => ?_)
        refine isRes_false hw h (List.mem_of_mem_take hz) fun a _ _ ha hs => ?_
        obtain ⟨b, hb, hasker⟩ := hs
        obtain rfl : a = b := Parcel.res.inj hb
        exact hq (hasker.symm.trans ha)
  | recvRes q' buf =>
      by_cases hq : q' = q
      · subst hq
        exact hsub (line_shift_sublist ⟨[], [_, _, _, _, _, _], rfl⟩ (nodup_resPath p q')
          fun _ _ _ => Or.inl rfl)
      · refine hsame (line_shift_other fun z hz => ?_)
        refine isRes_false hw h (List.mem_of_mem_take hz) fun a _ _ ha hs => ?_
        obtain ⟨b, hb, hasker⟩ := hs
        obtain rfl : a = b := Parcel.res.inj hb
        exact hq (hasker.symm.trans ha)

/-- What does not count among the requests. -/
theorem isReq_of_res {p : ι} {t : Str} {z : Nat × Parcel ι} (hz : z.2.isReq = false) :
    isReq p t z = false := by
  obtain ⟨k, z⟩ := z
  cases z with
  | req r => cases hz
  | res a => rfl

/-- **The requests of a process to a service stay in line**, on the way to each of its
processes. -/
theorem line_req_step (hw : x.Working svc name services) (h : Balanced svc x held)
    {e : ExchangeStep ι} (he : e.Valid svc name services) (p q : ι) :
    (line (holds svc x held e) (reqPath svc p q) (isReq p (svc q))).Sublist
      (line held (reqPath svc p q) (isReq p (svc q)) ++ (newBy x e).filter (isReq p (svc q))) := by
  have hsub : ∀ {l l' new : List (Nat × Parcel ι)}, l.Sublist l' → l.Sublist (l' ++ new) :=
    fun hl => hl.trans (List.sublist_append_left _ _)
  have hsame : ∀ {l l' new : List (Nat × Parcel ι)}, l = l' → l.Sublist (l' ++ new) :=
    fun heq => heq ▸ List.sublist_append_left _ _
  cases e with
  | net e =>
      cases e with
      | send r =>
          have hnew : newBy x (.net (.send r)) = [(x.sent.length, .req r)] := by
            rw [newBy, sentBy_send hw he]
            rfl
          rw [hnew, holds]
          by_cases hmine : isReq p (svc q) (x.sent.length, .req r) = true
          · obtain ⟨b, hb, rfl, -⟩ := isReq_iff.mp hmine
            obtain rfl : r = b := Parcel.req.inj hb
            have hlast : [Spot.push r.sender] <:+ reqPath svc r.sender q :=
              ⟨[_, _, _, _, _, _], rfl⟩
            rw [line_added hlast (nodup_reqPath _ _)]
          · exact hsame (line_added_other (by simpa using hmine) _)
      | toSlot p' =>
          by_cases hp : p' = p
          · subst hp
            exact hsub (line_shift_sublist ⟨[_, _, _, _, _], [], rfl⟩ (nodup_reqPath p' q)
              fun _ _ _ => Or.inl rfl)
          · refine hsame (line_shift_other fun z hz => ?_)
            exact isReq_false h (List.mem_of_mem_take hz)
              fun r hr _ (hs : r.sender = p') => hp (hs.symm.trans hr)
      | pullToDealer s => exact hsame rfl
      | dealerToPush s => exact hsame rfl
      | toRouter s =>
          cases hd : (x.net.slot s).dealerOut.deliver with
          | none => exact hsame (by rw [holds, hd])
          | some m =>
              rw [holds, hd]
              by_cases hs : s = svc p
              · subst hs
                exact hsub (line_shift_sublist ⟨[_, _, _, _], [_], rfl⟩ (nodup_reqPath p q)
                  fun _ _ _ => Or.inl rfl)
              · refine hsame (line_shift_other fun z hz => ?_)
                exact isReq_false h (List.mem_of_mem_take hz)
                  fun r hr _ (hsvc : svc r.sender = s) => hs (by rw [← hsvc, hr])
      | router =>
          refine hsub (line_shift_sublist ⟨[_, _, _], [_, _], rfl⟩ (nodup_reqPath p q)
            fun z hz hmine => Or.inl ?_)
          obtain ⟨r, hr, -, -⟩ := isReq_iff.mp hmine
          rw [behindRouter, if_pos (by rw [hr]; rfl)]
      | toDealer s =>
          by_cases hs : s = svc q
          · subst hs
            refine hsub (line_pick_sublist ⟨[_, _], [_, _, _], rfl⟩ (nodup_reqPath p q)
              fun z _ hmine => ?_)
            obtain ⟨r, hr, -, ht⟩ := isReq_iff.mp hmine
            simpa [hr, Parcel.tgsvc] using ht
          · refine hsame (line_pick_other fun z hz hwanted => ?_)
            have hz' : z.2.tgsvc = s := by simpa using hwanted
            by_contra hmine
            obtain ⟨r, hr, -, ht⟩ := isReq_iff.mp (Bool.not_eq_false _ ▸ hmine)
            rw [hr] at hz'
            exact hs (hz'.symm.trans ht)
      | toProcess p' =>
          cases hd : (x.net.slot (svc p')).push.deliver with
          | none => exact hsame (by rw [holds, hd])
          | some m =>
              rw [holds, hd]
              by_cases hs : svc p' = svc q
              · rw [hs]
                refine hsub (line_shift_sublist ⟨[_], [_, _, _, _], rfl⟩ (nodup_reqPath p q)
                  fun z _ _ => ?_)
                -- to this process, or to another of the service
                by_cases hp : p' = q
                · exact Or.inl (by rw [hp])
                · exact Or.inr (by simp [hp])
              · refine hsame (line_shift_other fun z hz => ?_)
                exact isReq_false h (List.mem_of_mem_take hz)
                  fun r _ ht hsuits => hs (hsuits.2.symm.trans ht)
      | recv p' into buf =>
          by_cases hp : p' = q
          · subst hp
            exact hsub (line_shift_sublist ⟨[], [_, _, _, _, _], rfl⟩ (nodup_reqPath p p')
              fun _ _ _ => Or.inl rfl)
          · have hnot : ∀ s ∈ reqPath svc p q, s ≠ .pull p' ∧ s ≠ .handed p' := by
              intro s hs
              refine ⟨?_, ?_⟩
              · rintro rfl
                simp [reqPath] at hs
                exact hp hs
              · rintro rfl
                simp [reqPath] at hs
                exact hp hs
            refine hsame (line_congr fun s hs => ?_)
            exact filter_spread_of_ne (hnot s hs).1 fun z _ _ => (hnot s hs).2.symm
  | respond a => exact hsame (line_added_other rfl _)
  | toSub s =>
      refine hsame (line_shift_other fun z hz => ?_)
      exact isReq_of_res (h.carried.belongs (.published s) z (List.mem_of_mem_take hz)).1
  | subToPub s =>
      refine hsame (line_shift_other fun z hz => ?_)
      exact isReq_of_res (h.carried.belongs (.slotSub s) z (List.mem_of_mem_take hz)).1
  | toSubscriber p' =>
      refine hsame (line_shift_other fun z hz => ?_)
      obtain ⟨a, ha, -⟩ := h.carried.belongs (.relayed p') z (List.mem_of_mem_take hz)
      exact isReq_of_res (by rw [ha]; rfl)
  | recvRes p' buf =>
      refine hsame (line_shift_other fun z hz => ?_)
      obtain ⟨a, ha, -⟩ := h.carried.belongs (.sub p') z (List.mem_of_mem_take hz)
      exact isReq_of_res (by rw [ha]; rfl)

/-- **What was sent stays in order.** -/
theorem ordered_step (hap : Apart svc name services) (hw : x.Working svc name services)
    (h : Balanced svc x held) (hordered : Ordered svc x held) {e : ExchangeStep ι}
    (he : e.Valid svc name services) :
    Ordered svc (x.step svc name services e) (holds svc x held e) where
  res p q := by
    rw [numbered_step, List.filter_append]
    exact (line_res_step hap hw h he p q).trans ((hordered.res p q).append (List.Sublist.refl _))
  req p q := by
    rw [numbered_step, List.filter_append]
    exact (line_req_step hw h he p q).trans ((hordered.req p q).append (List.Sublist.refl _))

end Steps

/-! ### Runs -/

section Order

variable {x : Exchange ι} {held : Spot ι → List (Nat × Parcel ι)}

omit [DecidableEq ι] in
/-- A response is on its way. -/
theorem mem_resPath {a : Response ι} (ha : a.Valid svc name) {s : Spot ι}
    (hs : Suits svc s (.res a)) : s ∈ resPath svc a.sender a.asker := by
  have hasker : ∀ {q : ι}, (∃ b, Parcel.res a = .res b ∧ b.asker = q) → a.asker = q := by
    rintro q ⟨b, hb, hq⟩
    rw [Parcel.res.inj hb]
    exact hq
  cases s with
  | push p =>
      obtain rfl : a.sender = p := hs
      simp [resPath]
  | slotUp t =>
      obtain rfl : svc a.sender = t := hs
      simp [resPath]
  | routerIn => simp [resPath]
  | published t =>
      obtain rfl : a.tag.svc = t := hs.2
      simp [resPath, ha.tagSvc]
  | slotSub t =>
      obtain rfl : a.tag.svc = t := hs.2
      simp [resPath, ha.tagSvc]
  | relayed q => simp [resPath, hasker hs]
  | sub q => simp [resPath, hasker hs]
  | replied q => simp [resPath, hasker hs]
  | routerOut => exact absurd hs (by simp [Suits, Parcel.isReq])
  | slotDown t => exact absurd hs.1 (by simp [Parcel.isReq])
  | pull q => exact absurd hs.1 (by simp [Parcel.isReq])
  | handed q => exact absurd hs.1 (by simp [Parcel.isReq])

omit [DecidableEq ι] in
/-- A request is on its way to the only process of its service. -/
theorem mem_reqPath {r : Request ι} {q : ι} (ht : r.tgsvc = svc q)
    (hone : ∀ p, svc p = svc q → p = q) {s : Spot ι} (hs : Suits svc s (.req r)) :
    s ∈ reqPath svc r.sender q := by
  have hprocess : ∀ {p : ι}, r.tgsvc = svc p → p = q := fun hp => hone _ (hp.symm.trans ht)
  cases s with
  | push p =>
      obtain rfl : r.sender = p := hs
      simp [reqPath]
  | slotUp t =>
      obtain rfl : svc r.sender = t := hs
      simp [reqPath]
  | routerIn => simp [reqPath]
  | routerOut => simp [reqPath]
  | slotDown t => simpa [reqPath] using (hs.2.symm.trans ht : t = svc q)
  | pull p => simp [reqPath, hprocess hs.2]
  | handed p => simp [reqPath, hprocess hs.2]
  | published t => exact absurd hs.1 (by simp [Parcel.isReq])
  | slotSub t => exact absurd hs.1 (by simp [Parcel.isReq])
  | relayed p =>
      obtain ⟨a, ha, -⟩ := hs
      exact absurd ha (by simp)
  | sub p =>
      obtain ⟨a, ha, -⟩ := hs
      exact absurd ha (by simp)
  | replied p =>
      obtain ⟨a, ha, -⟩ := hs
      exact absurd ha (by simp)

/-- The line of the responses is all of them. -/
theorem line_res_eq (hw : x.Working svc name services) (h : Balanced svc x held)
    (hordered : Ordered svc x held) (p q : ι) :
    line held (resPath svc p q) (isRes p q) = (numbered x.sent).filter (isRes p q) := by
  refine line_eq (hordered.res p q) fun z hz hmine => ?_
  obtain ⟨s, hs⟩ := h.carried.placed.somewhere z hz
  have hsuits := h.carried.belongs s z hs
  have hvalid := hw.valid_of_mem h hs
  obtain ⟨a, ha, rfl, rfl⟩ := isRes_iff.mp hmine
  rw [ha] at hsuits hvalid
  exact ⟨s, mem_resPath hvalid hsuits, hs⟩

/-- The line of the requests is all of them, when only one process takes them. -/
theorem line_req_eq (h : Balanced svc x held) (hordered : Ordered svc x held) (p : ι) {q : ι}
    (hone : ∀ r, svc r = svc q → r = q) :
    line held (reqPath svc p q) (isReq p (svc q))
      = (numbered x.sent).filter (isReq p (svc q)) := by
  refine line_eq (hordered.req p q) fun z hz hmine => ?_
  obtain ⟨s, hs⟩ := h.carried.placed.somewhere z hz
  have hsuits := h.carried.belongs s z hs
  obtain ⟨r, hr, rfl, ht⟩ := isReq_iff.mp hmine
  rw [hr] at hsuits
  exact ⟨s, mem_reqPath ht hone hsuits, hs⟩

end Order

/-- **No message overtakes another.**  What a process was given of the responses of another is
the first of them, in the order they were sent; what it was given of the requests of another
is in that order too, and it is the first of them when no other process has its service. -/
theorem exchange_order (hap : Apart svc name services) (interhub : Bool)
    (conn : ι → Int × Bool × Str) (es : List (ExchangeStep ι))
    (h : ∀ e ∈ es, e.Valid svc name services) :
    ∀ x ∈ states (Exchange.step svc name services) (Exchange.start services interhub conn) es,
      ∃ held, Balanced svc x held ∧
        (∀ p q, (held (.replied q)).filter (isRes p q)
          <+: (numbered x.sent).filter (isRes p q)) ∧
        (∀ p q, ((held (.handed q)).filter (isReq p (svc q))).Sublist
          ((numbered x.sent).filter (isReq p (svc q)))) ∧
        ∀ p q, (∀ r, svc r = svc q → r = q) → (held (.handed q)).filter (isReq p (svc q))
          <+: (numbered x.sent).filter (isReq p (svc q)) := by
  have hsteps : AllSteps (Exchange.step svc name services)
      (fun _ e => e.Valid svc name services) (Exchange.start services interhub conn) es :=
    AllSteps.of_forall h _
  have hinv : ∀ x ∈ states (Exchange.step svc name services)
      (Exchange.start services interhub conn) es,
      x.Working svc name services ∧ ∃ held, Balanced svc x held ∧ Ordered svc x held := by
    refine states_inv (fun x e hx he => ?_) es ⟨working_start interhub conn, _,
      balanced_start interhub conn, ⟨fun p q => ?_, fun p q => ?_⟩⟩ hsteps
    · obtain ⟨hw, held, hheld, hordered⟩ := hx
      obtain ⟨hw', hheld'⟩ := keeps_step hap hw hheld he
      exact ⟨hw', _, hheld', ordered_step hap hw hheld hordered he⟩
    · exact List.Sublist.refl _
    · exact List.Sublist.refl _
  intro x hx
  obtain ⟨hw, held, hheld, hordered⟩ := hinv x hx
  refine ⟨held, hheld, fun p q => ?_, fun p q => ?_, fun p q hone => ?_⟩
  · rw [← line_res_eq hw hheld hordered p q]
    exact List.prefix_append _ _
  · exact (List.sublist_append_left _ _).trans (hordered.req p q)
  · rw [← line_req_eq hheld hordered p hone]
    exact List.prefix_append _ _

end System

namespace AskPsib

/-- It asks twice before the other takes anything, and is answered twice before it reads. -/
def twice : List (ExchangeStep Bool) :=
  [.net (.send ⟨false, tag, lit "PSIB", lit "hi"⟩),
    .net (.send ⟨false, tag, lit "PSIB", lit "so"⟩), .net (.toSlot false), .net (.toSlot false),
    .net (.pullToDealer (lit "AHIF")), .net (.toRouter (lit "AHIF")),
    .net (.toRouter (lit "AHIF")), .net .router, .net (.toDealer (lit "PSIB")),
    .net (.toDealer (lit "PSIB")), .net (.dealerToPush (lit "PSIB")), .net (.toProcess true),
    .net (.toProcess true), .net (.recv true MqTag.zero (zeros 4)),
    .net (.recv true MqTag.zero (zeros 4)), .respond ⟨true, false, tag, lit "hi"⟩,
    .respond ⟨true, false, tag, lit "so"⟩, .net (.toSlot true), .net (.toSlot true),
    .net (.pullToDealer (lit "PSIB")), .net (.toRouter (lit "PSIB")),
    .net (.toRouter (lit "PSIB")), .net .router, .toSub (lit "AHIF"), .toSub (lit "AHIF"),
    .subToPub (lit "AHIF"), .toSubscriber false, .toSubscriber false, .recvRes false (zeros 4),
    .recvRes false (zeros 4)]

theorem valid_twice : ∀ e ∈ twice, e.Valid svc name [lit "AHIF", lit "PSIB"] := by
  have hreq : ∀ body ∈ [lit "hi", lit "so"],
      (⟨false, tag, lit "PSIB", body⟩ : Request Bool).Valid [lit "AHIF", lit "PSIB"] := by
    intro body hbody
    simp only [List.mem_cons, List.not_mem_nil, or_false] at hbody
    rcases hbody with rfl | rfl
      <;> exact ⟨⟨by decide, by decide, by decide⟩, by decide, by decide, by decide⟩
  have hres : ∀ body ∈ [lit "hi", lit "so"],
      (⟨true, false, tag, body⟩ : Response Bool).Valid svc name := by
    intro body hbody
    simp only [List.mem_cons, List.not_mem_nil, or_false] at hbody
    rcases hbody with rfl | rfl
      <;> exact ⟨by decide +kernel, by decide +kernel, by decide +kernel, by decide, by decide⟩
  simp [twice, ExchangeStep.Valid, NetStep.Valid, hreq, hres]

end AskPsib

/-- Both requests are received in the order they were sent, and so are both responses. -/
theorem exchange_order_psib :
    let x := AskPsib.twice.foldl (Exchange.step AskPsib.svc AskPsib.name [lit "AHIF", lit "PSIB"])
      (Exchange.start [lit "AHIF", lit "PSIB"] false fun _ => (0, true, []))
    (∃ held, Balanced AskPsib.svc x held ∧
      (held (.replied false)).filter (isRes true false)
        <+: (numbered x.sent).filter (isRes true false) ∧
      (held (.handed true)).filter (isReq false (AskPsib.svc true))
        <+: (numbered x.sent).filter (isReq false (AskPsib.svc true))) ∧
    (x.net.handed true).map Handed.buf = [lit "hi" ++ zeros 2, lit "so" ++ zeros 2] ∧
    (x.replied false).map Replied.buf = [lit "hi" ++ zeros 2, lit "so" ++ zeros 2] := by
  intro x
  obtain ⟨held, hheld, hres, -, hreq⟩ := exchange_order AskPsib.apart false _ AskPsib.twice
    AskPsib.valid_twice x (foldl_mem_states _ _)
  have hone : ∀ r, AskPsib.svc r = AskPsib.svc true → r = true := by
    intro r hr
    cases r with
    | true => rfl
    | false => exact absurd hr (by decide)
  exact ⟨⟨held, hheld, hres true false, hreq false true hone⟩, by decide +kernel,
    by decide +kernel⟩

end Brocoli
