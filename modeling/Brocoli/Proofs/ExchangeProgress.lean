/-
What was sent is received in the end.

The system runs for ever, and every pipe, every callback and every receive has its turn again
and again, in whatever order.  Then no request and no response stays on the way: in each
place the parcels in front of it get fewer, and it moves on.  A relay that stopped inside a
message goes on in its next run, so in a slot the pipe behind the relay may have to wait for
the run that completes the message.
-/
import Brocoli.Lib.Progress
import Brocoli.Proofs.Exchange

namespace Brocoli

open CMem Multipart Custody Carriage Progress

section System

variable {ι : Type} [DecidableEq ι] (svc name : ι → Str) (services : List Str)

/-! ### Endless runs -/

/-- The system after `n` steps. -/
def Exchange.after (x : Exchange ι) (ev : Nat → ExchangeStep ι) : Nat → Exchange ι
  | 0 => x
  | n + 1 => (x.after ev n).step svc name services (ev n)

/-- What is held then. -/
def heldAfter (x : Exchange ι) (ev : Nat → ExchangeStep ι) : Nat → Spot ι → List (Nat × Parcel ι)
  | 0 => fun _ => []
  | n + 1 => holds svc (x.after svc name services ev n) (heldAfter x ev n) (ev n)

/-- Every pipe and every callback has its turn again and again. -/
structure Moves (ev : Nat → ExchangeStep ι) : Prop where
  toSlot : ∀ p, Recurs fun n => ev n = .net (.toSlot p)
  pullToDealer : ∀ p, Recurs fun n => ev n = .net (.pullToDealer (svc p))
  toRouter : ∀ p, Recurs fun n => ev n = .net (.toRouter (svc p))
  router : Recurs fun n => ev n = .net .router
  toDealer : ∀ p, Recurs fun n => ev n = .net (.toDealer (svc p))
  dealerToPush : ∀ p, Recurs fun n => ev n = .net (.dealerToPush (svc p))
  toProcess : ∀ p, Recurs fun n => ev n = .net (.toProcess p)
  toSub : ∀ p, Recurs fun n => ev n = .toSub (svc p)
  subToPub : ∀ p, Recurs fun n => ev n = .subToPub (svc p)
  toSubscriber : ∀ p, Recurs fun n => ev n = .toSubscriber p

/-- Those that a parcel is for receive again and again. -/
def Fetched (ev : Nat → ExchangeStep ι) : Parcel ι → Prop
  | .req r => ∀ p, svc p = r.tgsvc → Recurs fun n => ∃ into buf, ev n = .net (.recv p into buf)
  | .res a => Recurs fun n => ∃ buf, ev n = .recvRes a.asker buf

/-- Every pipe, every callback and every receive has its turn again and again. -/
structure Fair (ev : Nat → ExchangeStep ι) : Prop extends Moves svc ev where
  recv : ∀ p, Recurs fun n => ∃ into buf, ev n = .net (.recv p into buf)
  recvRes : ∀ p, Recurs fun n => ∃ buf, ev n = .recvRes p buf

/-- The place a step takes parcels from. -/
def ExchangeStep.source : ExchangeStep ι → Option (Spot ι)
  | .net (.toSlot p) => some (.push p)
  | .net (.toRouter s) => some (.slotUp s)
  | .net .router => some .routerIn
  | .net (.toDealer _) => some .routerOut
  | .net (.toProcess p) => some (.slotDown (svc p))
  | .net (.recv p _ _) => some (.pull p)
  | .toSub s => some (.published s)
  | .subToPub s => some (.slotSub s)
  | .toSubscriber p => some (.relayed p)
  | .recvRes p _ => some (.sub p)
  | _ => none

variable {svc name services}

/-! ### What one step does with one parcel -/

section Steps

variable {x : Exchange ι} {held : Spot ι → List (Nat × Parcel ι)} {z : Nat × Parcel ι}
  {p : Spot ι} {k : Nat}

/-- It waits where it is when the step takes parcels from another place. -/
theorem waits_holds {e : ExchangeStep ι} (h : Waits held z p k) (he : e.source svc ≠ some p) :
    Waits (holds svc x held e) z p k := by
  have hne : ∀ {q : Spot ι}, e.source svc = some q → p ≠ q := by
    rintro q hq rfl
    exact he hq
  cases e with
  | net e =>
      cases e with
      | send r => exact h.added _ _
      | pullToDealer s => exact h
      | dealerToPush s => exact h
      | toRouter s =>
          rw [holds]
          split
          · exact h
          · exact h.spread_of_ne (hne rfl)
      | toProcess q =>
          rw [holds]
          split
          · exact h
          · exact h.spread_of_ne (hne rfl)
      | _ => exact h.spread_of_ne (hne rfl)
  | respond a => exact h.added _ _
  | _ => exact h.spread_of_ne (hne rfl)

/-- What was received stays received. -/
theorem received_holds {e : ExchangeStep ι} {a : Parcel ι} (h : Received svc held k a) :
    Received svc (holds svc x held e) k a := by
  have hkeep : ∀ q : Spot ι, q.isFinal = true → (k, a) ∈ held q →
      (k, a) ∈ holds svc x held e q := by
    intro q hq hmem
    obtain ⟨n, hn⟩ := waits_of_mem hmem
    refine (waits_holds hn ?_).mem
    intro hsource
    cases e with
    | net e => cases e <;> cases q <;> simp_all [ExchangeStep.source, Spot.isFinal]
    | _ => cases q <;> simp_all [ExchangeStep.source, Spot.isFinal]
  cases a with
  | req r =>
      obtain ⟨q, hq, hmem⟩ := h
      exact ⟨q, hq, hkeep _ rfl hmem⟩
  | res a => exact hkeep _ rfl h

omit [DecidableEq ι] in
/-- A part of the slots that a change of one slot leaves alone. -/
theorem setSlot_field {β : Type} (f : SvcSlot → β) {net : Net ι} {t : Str} {slot : SvcSlot}
    (h : f slot = f (net.slot t)) (s : Str) :
    f ((net.setSlot t slot).slot s) = f (net.slot s) := by
  by_cases hs : s = t
  · subst hs
    simpa [Net.setSlot] using h
  · simp [Net.setSlot, hs]

omit [DecidableEq ι] in
theorem setSlot_other {net : Net ι} {s t : Str} (slot : SvcSlot) (h : t ≠ s) :
    (net.setSlot t slot).slot s = net.slot s := Function.update_of_ne h.symm _ _

/-- The sockets behind the relays of a slot change with its own relays and pipes alone. -/
theorem slot_step (e : ExchangeStep ι) (s : Str) :
    (e ≠ .net (.toRouter s) → e ≠ .net (.pullToDealer s) →
      ((x.step svc name services e).net.slot s).dealerOut = (x.net.slot s).dealerOut) ∧
    (e.source svc ≠ some (.slotDown s) → e ≠ .net (.dealerToPush s) →
      ((x.step svc name services e).net.slot s).push = (x.net.slot s).push) := by
  have hkeep : ∀ {net : Net ι} {t : Str} {slot : SvcSlot},
      slot.dealerOut = (net.slot t).dealerOut → slot.push = (net.slot t).push →
      ((net.setSlot t slot).slot s).dealerOut = (net.slot s).dealerOut ∧
        ((net.setSlot t slot).slot s).push = (net.slot s).push := fun hd hp =>
    ⟨setSlot_field SvcSlot.dealerOut hd s, setSlot_field SvcSlot.push hp s⟩
  cases e with
  | net e =>
      cases e with
      | pullToDealer t =>
          refine ⟨fun _ hrelay => ?_, fun _ _ => ?_⟩
          · have ht : t ≠ s := fun heq => hrelay (by rw [heq])
            exact congrArg SvcSlot.dealerOut (setSlot_other _ ht)
          · exact setSlot_field SvcSlot.push (by rfl) s
      | dealerToPush t =>
          refine ⟨fun _ _ => ?_, fun _ hrelay => ?_⟩
          · exact setSlot_field SvcSlot.dealerOut (by rfl) s
          · have ht : t ≠ s := fun heq => hrelay (by rw [heq])
            exact congrArg SvcSlot.push (setSlot_other _ ht)
      | toRouter t =>
          cases hd : (x.net.slot t).dealerOut.deliver with
          | none => simp [Exchange.step, Net.step, hd]
          | some r =>
              simp only [Exchange.step, Net.step, hd]
              refine ⟨fun htake _ => ?_, fun _ _ => ?_⟩
              · have ht : t ≠ s := fun heq => htake (by rw [heq])
                exact congrArg SvcSlot.dealerOut (setSlot_other _ ht)
              · exact setSlot_field SvcSlot.push (by rfl) s
      | toProcess p =>
          cases hd : (x.net.slot (svc p)).push.deliver with
          | none => simp [Exchange.step, Net.step, hd]
          | some r =>
              simp only [Exchange.step, Net.step, hd]
              refine ⟨fun _ _ => ?_, fun htake _ => ?_⟩
              · exact setSlot_field SvcSlot.dealerOut (by rfl) s
              · have ht : svc p ≠ s := fun heq => htake (by rw [← heq]; rfl)
                exact congrArg SvcSlot.push (setSlot_other _ ht)
      | toSlot p =>
          cases hd : (x.net.client p).zmqPush.deliver with
          | none => simp [Exchange.step, Net.step, hd]
          | some r =>
              simp only [Exchange.step, Net.step, hd]
              exact ⟨fun _ _ => (hkeep (by rfl) (by rfl)).1, fun _ _ => (hkeep (by rfl) (by rfl)).2⟩
      | toDealer t =>
          cases hd : x.net.ctx.routerOut.deliverTo (x.net.slot t).svcName with
          | none => simp [Exchange.step, Net.step, hd]
          | some r =>
              simp only [Exchange.step, Net.step, hd]
              exact ⟨fun _ _ => (hkeep (by rfl) (by rfl)).1, fun _ _ => (hkeep (by rfl) (by rfl)).2⟩
      | _ => exact ⟨fun _ _ => rfl, fun _ _ => rfl⟩
  | toSub t =>
      cases hd : x.published t with
      | nil => simp [Exchange.step, hd]
      | cons m ms =>
          simp only [Exchange.step, hd]
          exact ⟨fun _ _ => (hkeep (by rfl) (by rfl)).1, fun _ _ => (hkeep (by rfl) (by rfl)).2⟩
  | subToPub t =>
      exact ⟨fun _ _ => (hkeep (by rfl) (by rfl)).1, fun _ _ => (hkeep (by rfl) (by rfl)).2⟩
  | toSubscriber p =>
      cases hd : x.relayed p with
      | nil => simp [Exchange.step, hd]
      | cons m ms =>
          simp only [Exchange.step, hd]
          exact ⟨fun _ _ => rfl, fun _ _ => rfl⟩
  | _ => exact ⟨fun _ _ => rfl, fun _ _ => rfl⟩

end Steps

/-! ### What becomes of one parcel -/

section Run

variable {x : Exchange ι} {ev : Nat → ExchangeStep ι} {z : Nat × Parcel ι}

/-- While the steps are valid the system works, and what is held is what there is. -/
theorem keeps_until (hap : Apart svc name services) (hw : x.Working svc name services)
    (h : Balanced svc x fun _ => []) :
    ∀ n, (∀ l, l < n → (ev l).Valid svc name services) →
      (x.after svc name services ev n).Working svc name services ∧
        Balanced svc (x.after svc name services ev n) (heldAfter svc name services x ev n) := by
  intro n hvalid
  induction n with
  | zero => exact ⟨hw, h⟩
  | succ n ih =>
      obtain ⟨hw', h'⟩ := ih fun l hl => hvalid l (Nat.lt_succ_of_lt hl)
      exact keeps_step hap hw' h' (hvalid n (Nat.lt_succ_self n))

/-- The system works in every state, and what is held is what there is. -/
def Sound (svc name : ι → Str) (services : List Str) (x : Exchange ι) (ev : Nat → ExchangeStep ι) :
    Prop :=
  ∀ n, (x.after svc name services ev n).Working svc name services ∧
    Balanced svc (x.after svc name services ev n) (heldAfter svc name services x ev n)

/-- The parcel is in the place. -/
def IsAt (svc name : ι → Str) (services : List Str) (x : Exchange ι) (ev : Nat → ExchangeStep ι)
    (z : Nat × Parcel ι) (p : Spot ι) (n : Nat) : Prop :=
  ∃ k, Waits (heldAfter svc name services x ev n) z p k

theorem IsAt.suits (hsound : Sound svc name services x ev) {p : Spot ι} {n : Nat}
    (h : IsAt svc name services x ev z p n) : Suits svc p z.2 := by
  obtain ⟨k, hk⟩ := h
  exact (hsound n).2.carried.belongs p z hk.mem

/-- **A place whose first parcels leave together.** -/
theorem comesTo_shift {p : Spot ι} {c : Nat} (hc : 0 < c) {dest : Nat × Parcel ι → Spot ι}
    (hshift : ∀ (x : Exchange ι) held e, e.source svc = some p →
      holds svc x held e = shift held p c dest)
    (hrecurs : Recurs fun n => (ev n).source svc = some p) :
    ComesTo (IsAt svc name services x ev z p) (IsAt svc name services x ev z (dest z)) := by
  refine ComesTo.of_distance (fun _ n => (ev n).source svc = some p) (fun _ => hrecurs) ?_ ?_
  · intro k n hk
    by_cases hsource : (ev n).source svc = some p
    · have hheld := hshift (x.after svc name services ev n) (heldAfter svc name services x ev n)
        (ev n) hsource
      rcases hk.shift_self dest c with ⟨-, hgo⟩ | ⟨-, hstay⟩
      · exact Or.inl (by rw [IsAt, heldAfter, hheld]; exact hgo)
      · exact Or.inr ⟨k - c, Nat.sub_le k c, by rw [heldAfter, hheld]; exact hstay⟩
    · exact Or.inr ⟨k, Nat.le_refl k, waits_holds hk hsource⟩
  · intro k n hk hsource
    have hheld := hshift (x.after svc name services ev n) (heldAfter svc name services x ev n)
      (ev n) hsource
    rcases hk.shift_self dest c with ⟨-, hgo⟩ | ⟨hle, hstay⟩
    · exact Or.inl (by rw [IsAt, heldAfter, hheld]; exact hgo)
    · exact Or.inr ⟨k - c, by omega, by rw [heldAfter, hheld]; exact hstay⟩

/-- The router's pipes take what is for their peers, in its order. -/
theorem comesTo_toDealer (hrecurs : Recurs fun n => ev n = .net (.toDealer z.2.tgsvc)) :
    ComesTo (IsAt svc name services x ev z .routerOut)
      (IsAt svc name services x ev z (.slotDown z.2.tgsvc)) := by
  have hsource : ∀ e : ExchangeStep ι, e.source svc = some .routerOut →
      ∃ s, e = .net (.toDealer s) := by
    intro e he
    cases e with
    | net e => cases e <;> simp_all [ExchangeStep.source]
    | _ => simp_all [ExchangeStep.source]
  have hpick : ∀ k n s, Waits (heldAfter svc name services x ev n) z .routerOut k →
      ev n = .net (.toDealer s) →
      IsAt svc name services x ev z (.slotDown z.2.tgsvc) (n + 1) ∨
        ∃ j, j ≤ k ∧ Waits (heldAfter svc name services x ev (n + 1)) z .routerOut j ∧
          (z.2.tgsvc = s → j < k) := by
    intro k n s hk hev
    have hheld : heldAfter svc name services x ev (n + 1)
        = pick (heldAfter svc name services x ev n) .routerOut (fun y => y.2.tgsvc == s)
          fun _ => .slotDown s := by
      rw [heldAfter, hev]
      rfl
    rw [IsAt, hheld]
    rcases hk.pick_self (fun _ => .slotDown s) (fun y => y.2.tgsvc == s) with
      ⟨hwanted, hgo⟩ | ⟨j, hj, hw, hless⟩
    · have hs : z.2.tgsvc = s := by simpa using hwanted
      exact Or.inl (by rw [hs]; exact hgo)
    · exact Or.inr ⟨j, hj, hw, fun hs => hless (by simpa using hs)⟩
  refine ComesTo.of_distance (fun _ n => ev n = .net (.toDealer z.2.tgsvc)) (fun _ => hrecurs) ?_ ?_
  · intro k n hk
    by_cases hev : (ev n).source svc = some .routerOut
    · obtain ⟨s, hs⟩ := hsource _ hev
      rcases hpick k n s hk hs with hgo | ⟨j, hj, hw, -⟩
      · exact Or.inl hgo
      · exact Or.inr ⟨j, hj, hw⟩
    · exact Or.inr ⟨k, Nat.le_refl k, waits_holds hk hev⟩
  · intro k n hk hev
    rcases hpick k n _ hk hev with hgo | ⟨j, -, hw, hless⟩
    · exact Or.inl hgo
    · exact Or.inr ⟨j, hless rfl, hw⟩

omit [DecidableEq ι] in
theorem length_spotFrames_le (p : Spot ι) (y : Parcel ι) : (spotFrames svc p y).length ≤ 1000 := by
  cases y <;> cases p <;> simp [spotFrames, Parcel.message]

omit [DecidableEq ι] in
/-- What a place remembers begins with the first parcel it holds. -/
theorem Balanced.memory_front {held : Spot ι → List (Nat × Parcel ι)} (h : Balanced svc x held)
    {p : Spot ι} {k : Nat} (hz : Waits held z p k) :
    ∃ y rest, x.memory p = parts (spotFrames svc p y) ++ rest := by
  have hmem := h.carried.memory p
  cases hheld : held p with
  | nil => exact absurd hz.mem (by rw [hheld]; exact List.not_mem_nil)
  | cons y ys =>
      rw [hheld, cargo, List.map_cons, stream_cons] at hmem
      exact ⟨y.2, _, hmem⟩

/-- **Behind a relay a pipe carries what the relay has completed.**  `src` and `out` are the
sockets the relay is between, `e` its run, and `Next` the places the pipes lead to. -/
theorem comesTo_relay (hsound : Sound svc name services x ev) {p : Spot ι}
    (src : Exchange ι → In) (out : Exchange ι → Out) {e : ExchangeStep ι} (Next : Spot ι → Prop)
    (hfinal : p.isFinal = false) (hmem : ∀ y, y.memory p = (out y).sent ++ (src y).queue)
    (hframes : ∀ y : Parcel ι, y.Valid svc name services → Relayable (spotFrames svc p y))
    (hsteady : ∀ y : Exchange ι, y.Working svc name services → (out y).Steady)
    (hrun : ∀ y, out (y.step svc name services e) = (mqRelayCallback (src y) (out y)).2)
    (hkeep : ∀ (y : Exchange ι) (d : ExchangeStep ι), d.source svc ≠ some p → d ≠ e →
      out (y.step svc name services d) = out y)
    (hidle : ∀ y held (d : ExchangeStep ι), d.source svc = some p → (out y).deliver = none →
      holds svc y held d = held)
    (htake : ∀ y held (d : ExchangeStep ι), d.source svc = some p → (out y).deliver ≠ none →
      ∃ q, holds svc y held d = shift held p 1 (fun _ => q) ∧ Next q)
    (he : e.source svc ≠ some p) (hrelay : Recurs fun n => ev n = e)
    (hpipe : Recurs fun n => (ev n).source svc = some p) :
    ComesTo (IsAt svc name services x ev z p)
      (fun n => ∃ q, Next q ∧ IsAt svc name services x ev z q n) := by
  refine ComesTo.of_ready (fun k n => Waits (heldAfter svc name services x ev n) z p k)
    (fun n => (out (x.after svc name services ev n)).deliver ≠ none) hrelay hpipe ?_ ?_ ?_ ?_
  · intro k n hk hnot
    by_cases hev : (ev n).source svc = some p
    · rw [heldAfter, hidle _ _ _ hev (not_not.mp (hnot.resolve_left (not_not.mpr hev)))]
      exact hk
    · exact waits_holds hk hev
  · intro n hready hnot
    by_cases hev : ev n = e
    · rw [Exchange.after, hev, hrun, deliver_ne_none, mqRelayCallback,
        (relayLoop_steady 1000 _ _ (hsteady _ (hsound n).1)).2, put_sent]
      exact takeMessage_append (deliver_ne_none.mp hready) _
    · rw [Exchange.after, hkeep _ _ hnot hev]
      exact hready
  · intro k n hk hev
    obtain ⟨y, rest, hfront⟩ := (hsound n).2.memory_front hk
    have hpart := bufferedPart_memory (hsound n).1 (hsound n).2 hframes
    rw [hmem] at hpart hfront
    refine ⟨?_, by rw [hev]; exact he⟩
    rw [Exchange.after, hev, hrun]
    exact mqRelayCallback_whole (hsteady _ (hsound n).1)
      (fun q hq => hpart q (List.mem_append_right _ hq)) (spotFrames_ne_nil hfinal y)
      (length_spotFrames_le p y) hfront
  · intro k n hk hev hready
    obtain ⟨q, hheld, hq⟩ := htake _ (heldAfter svc name services x ev n) _ hev hready
    rcases hk.shift_self (fun _ => q) 1 with ⟨-, hgo⟩ | ⟨hle, hstay⟩
    · exact Or.inl ⟨q, hq, by rw [IsAt, heldAfter, hheld]; exact hgo⟩
    · exact Or.inr ⟨k - 1, by omega, by rw [heldAfter, hheld]; exact hstay⟩

omit [DecidableEq ι] in
theorem source_slotUp {e : ExchangeStep ι} {s : Str} :
    e.source svc = some (.slotUp s) ↔ e = .net (.toRouter s) := by
  cases e with
  | net e => cases e <;> simp [ExchangeStep.source]
  | _ => simp [ExchangeStep.source]

omit [DecidableEq ι] in
theorem source_slotDown {e : ExchangeStep ι} {s : Str} :
    e.source svc = some (.slotDown s) ↔ ∃ p, svc p = s ∧ e = .net (.toProcess p) := by
  cases e with
  | net e => cases e <;> simp [ExchangeStep.source]
  | _ => simp [ExchangeStep.source]

/-- From a slot to the router. -/
theorem comesTo_toRouter (hsound : Sound svc name services x ev) {s : Str}
    (hrelay : Recurs fun n => ev n = .net (.pullToDealer s))
    (hpipe : Recurs fun n => ev n = .net (.toRouter s)) :
    ComesTo (IsAt svc name services x ev z (.slotUp s))
      (IsAt svc name services x ev z .routerIn) := by
  refine (comesTo_relay hsound (p := .slotUp s) (fun y => (y.net.slot s).pull)
    (fun y => (y.net.slot s).dealerOut) (fun q => q = .routerIn) rfl (fun _ => rfl)
    (fun _ hy => relayable_message hy) (fun _ hy => (hy.slot s).dealer) (fun y => ?_)
    (fun y d hd hne => ?_) (fun y held d hd hnone => ?_) (fun y held d hd hsome => ?_) ?_ hrelay
    (hpipe.mono fun n hn => source_slotUp.mpr hn)).trans (ComesTo.of_imp ?_)
  · show (Function.update y.net.slot s _ s).dealerOut = _
    rw [Function.update_self]
    rfl
  · exact (slot_step d s).1 (fun heq => hd (source_slotUp.mpr heq)) hne
  · obtain rfl := source_slotUp.mp hd
    rw [holds, hnone]
  · obtain rfl := source_slotUp.mp hd
    obtain ⟨r, hr⟩ := Option.ne_none_iff_exists'.mp hsome
    exact ⟨.routerIn, by rw [holds, hr], rfl⟩
  · simp [ExchangeStep.source]
  · rintro n ⟨q, rfl, hq⟩
    exact hq

/-- From a slot to one of the processes of its service. -/
theorem comesTo_toProcess (hsound : Sound svc name services x ev) {p : ι}
    (hrelay : Recurs fun n => ev n = .net (.dealerToPush (svc p)))
    (hpipe : Recurs fun n => ev n = .net (.toProcess p)) :
    ComesTo (IsAt svc name services x ev z (.slotDown (svc p)))
      (fun n => ∃ q, svc q = svc p ∧ IsAt svc name services x ev z (.pull q) n) := by
  refine (comesTo_relay hsound (p := .slotDown (svc p))
    (fun y => (y.net.slot (svc p)).dealerIn) (fun y => (y.net.slot (svc p)).push)
    (fun q => ∃ r, svc r = svc p ∧ q = .pull r) rfl (fun _ => rfl)
    (fun _ hy => relayable_drop hy 2) (fun _ hy => (hy.slot _).push) (fun y => ?_)
    (fun y d hd hne => ?_) (fun y held d hd hnone => ?_) (fun y held d hd hsome => ?_) ?_ hrelay
    (hpipe.mono fun n hn => source_slotDown.mpr ⟨p, rfl, hn⟩)).trans (ComesTo.of_imp ?_)
  · show (Function.update y.net.slot (svc p) _ (svc p)).push = _
    rw [Function.update_self]
    rfl
  · exact (slot_step d (svc p)).2 hd hne
  · obtain ⟨r, hr, rfl⟩ := source_slotDown.mp hd
    rw [holds, hr, hnone]
  · obtain ⟨r, hr, rfl⟩ := source_slotDown.mp hd
    obtain ⟨t, ht⟩ := Option.ne_none_iff_exists'.mp hsome
    exact ⟨.pull r, by rw [holds, hr, ht], r, hr, rfl⟩
  · simp [ExchangeStep.source]
  · rintro n ⟨q, ⟨r, hr, rfl⟩, hq⟩
    exact ⟨r, hr, hq⟩

/-- Where the parcels of a place go when they need no relay to complete them. -/
def Spot.next (svc : ι → Str) : Spot ι → Nat × Parcel ι → Spot ι
  | .push p, _ => .slotUp (svc p)
  | .routerIn, z => behindRouter z
  | .pull p, _ => .handed p
  | .published s, _ => .slotSub s
  | .slotSub _, z => behindSlot z
  | .relayed p, _ => .sub p
  | .sub p, _ => .replied p
  | p, _ => p

/-- How many of them go at once. -/
def Spot.batch : Spot ι → Nat
  | .routerIn | .slotSub _ => 1000
  | _ => 1

/-- The place has a relay behind it that can stop inside a message, or pipes for many. -/
def Spot.isRelayed : Spot ι → Bool
  | .slotUp _ | .routerOut | .slotDown _ => true
  | _ => false

theorem holds_next {y : Exchange ι} {held : Spot ι → List (Nat × Parcel ι)} {e : ExchangeStep ι}
    {p : Spot ι} (he : e.source svc = some p) (hp : p.isRelayed = false) :
    holds svc y held e = shift held p p.batch (p.next svc) := by
  cases e with
  | net e => cases e <;> cases he <;> first | rfl | cases hp
  | _ => cases he <;> rfl

theorem comesTo_next {p : Spot ι} (hp : p.isRelayed = false)
    (hrecurs : Recurs fun n => (ev n).source svc = some p) :
    ComesTo (IsAt svc name services x ev z p) (IsAt svc name services x ev z (p.next svc z)) := by
  have hbatch : 0 < p.batch := by cases p <;> exact Nat.succ_pos _
  exact comesTo_shift hbatch (fun y held e he => holds_next he hp) hrecurs

/-- The parcel has been received. -/
def Arrives (svc name : ι → Str) (services : List Str) (x : Exchange ι)
    (ev : Nat → ExchangeStep ι) (z : Nat × Parcel ι) (n : Nat) : Prop :=
  Received svc (heldAfter svc name services x ev n) z.1 z.2

theorem comesTo_final (hsound : Sound svc name services x ev) {p : Spot ι}
    (hp : p.isFinal = true) :
    ComesTo (IsAt svc name services x ev z p) (Arrives svc name services x ev z) :=
  ComesTo.of_imp fun n ⟨_, hk⟩ => (hsound n).2.received_of_final hk.mem hp

omit [DecidableEq ι] in
theorem Parcel.Valid.tgsvc_mem {z : Parcel ι} (hz : z.Valid svc name services)
    (hap : Apart svc name services) : z.tgsvc ∈ services := by
  cases z with
  | req r => exact hz.known
  | res a =>
      show a.tag.svc ∈ services
      rw [hz.tagSvc]
      exact hap.service a.asker

section Way

variable (hsound : Sound svc name services x ev) (hap : Apart svc name services)
  (hserved : ∀ s ∈ services, ∃ p, svc p = s) (hmoves : Moves svc ev)
  (hfetched : Fetched svc ev z.2)

include hsound hfetched

omit [DecidableEq ι] hsound in
/-- A request is taken by the process it waits for. -/
theorem recurs_recv {p : ι} (hsuits : Suits svc (.pull p) z.2) :
    Recurs fun n => (ev n).source svc = some (.pull p) := by
  obtain ⟨k, z⟩ := z
  cases z with
  | req r => exact (hfetched p hsuits.2.symm).mono fun n ⟨_, _, hn⟩ => by rw [hn]; rfl
  | res a => exact absurd hsuits.1 (by simp [Parcel.isReq])

omit [DecidableEq ι] hsound in
/-- A response is taken by the process it waits for. -/
theorem recurs_recvRes {p : ι} (hsuits : Suits svc (.sub p) z.2) :
    Recurs fun n => (ev n).source svc = some (.sub p) := by
  obtain ⟨k, z⟩ := z
  obtain ⟨a, rfl, rfl⟩ := hsuits
  exact hfetched.mono fun n ⟨_, hn⟩ => by rw [hn]; rfl

/-- A request with a process is received. -/
theorem comesTo_pull (p : ι) :
    ComesTo (IsAt svc name services x ev z (.pull p)) (Arrives svc name services x ev z) := by
  intro n hat
  have hrecurs := recurs_recv hfetched (hat.suits hsound)
  exact ((comesTo_next rfl hrecurs).trans (comesTo_final hsound rfl)) n hat

/-- A response with a process is received. -/
theorem comesTo_sub (p : ι) :
    ComesTo (IsAt svc name services x ev z (.sub p)) (Arrives svc name services x ev z) := by
  intro n hat
  have hrecurs := recurs_recvRes hfetched (hat.suits hsound)
  exact ((comesTo_next rfl hrecurs).trans (comesTo_final hsound rfl)) n hat

include hmoves

/-- A response on its way to a process is received. -/
theorem comesTo_relayed (p : ι) :
    ComesTo (IsAt svc name services x ev z (.relayed p)) (Arrives svc name services x ev z) :=
  (comesTo_next rfl ((hmoves.toSubscriber p).mono fun k hk => by rw [hk]; rfl)).trans
    (comesTo_sub hsound hfetched p)

/-- A response with the slot of a service is received. -/
theorem comesTo_slotSub (hres : z.2.isReq = false) (p : ι) :
    ComesTo (IsAt svc name services x ev z (.slotSub (svc p)))
      (Arrives svc name services x ev z) := by
  obtain ⟨k, z⟩ := z
  cases z with
  | req r => cases hres
  | res a =>
      refine (comesTo_next rfl ((hmoves.subToPub p).mono fun n hn => by rw [hn]; rfl)).trans ?_
      exact comesTo_relayed hsound hmoves hfetched a.asker

/-- A response that was published is received. -/
theorem comesTo_published (hres : z.2.isReq = false) (p : ι) :
    ComesTo (IsAt svc name services x ev z (.published (svc p)))
      (Arrives svc name services x ev z) :=
  (comesTo_next rfl ((hmoves.toSub p).mono fun n hn => by rw [hn]; rfl)).trans
    (comesTo_slotSub hsound hmoves hfetched hres p)

include hserved

/-- A request on its way down is received. -/
theorem comesTo_slotDown {s : Str} (hs : s ∈ services) :
    ComesTo (IsAt svc name services x ev z (.slotDown s)) (Arrives svc name services x ev z) := by
  obtain ⟨p, rfl⟩ := hserved s hs
  refine (comesTo_toProcess hsound (hmoves.dealerToPush p) (hmoves.toProcess p)).trans ?_
  refine ComesTo.exists_left fun q => ?_
  rintro n ⟨-, hat⟩
  exact comesTo_pull hsound hfetched q n hat

/-- A request the router has put out is received. -/
theorem comesTo_routerOut (hz : z.2.Valid svc name services) (hreq : z.2.isReq = true) :
    ComesTo (IsAt svc name services x ev z .routerOut) (Arrives svc name services x ev z) := by
  obtain ⟨k, z⟩ := z
  cases z with
  | req r =>
      obtain ⟨p, hp⟩ := hserved r.tgsvc hz.known
      have hturn : Recurs fun n => ev n = .net (.toDealer r.tgsvc) := hp ▸ hmoves.toDealer p
      exact (comesTo_toDealer hturn).trans
        (comesTo_slotDown hsound hserved hmoves hfetched hz.known)
  | res a => cases hreq

/-- What the router takes is received. -/
theorem comesTo_routerIn (hz : z.2.Valid svc name services) :
    ComesTo (IsAt svc name services x ev z .routerIn) (Arrives svc name services x ev z) := by
  refine (comesTo_next rfl (hmoves.router.mono fun n hn => by rw [hn]; rfl)).trans ?_
  obtain ⟨k, z⟩ := z
  cases z with
  | req r => exact comesTo_routerOut hsound hserved hmoves hfetched hz rfl
  | res a =>
      show ComesTo (IsAt svc name services x ev (k, .res a) (.published a.tag.svc)) _
      rw [hz.tagSvc]
      exact comesTo_published hsound hmoves hfetched rfl a.asker

/-- What a process has sent is received. -/
theorem comesTo_slotUp (hz : z.2.Valid svc name services) (p : ι) :
    ComesTo (IsAt svc name services x ev z (.slotUp (svc p))) (Arrives svc name services x ev z) :=
  (comesTo_toRouter hsound (hmoves.pullToDealer p) (hmoves.toRouter p)).trans
    (comesTo_routerIn hsound hserved hmoves hfetched hz)

include hap in
/-- **Wherever a parcel is, it is received in the end.** -/
theorem comesTo_arrives (hz : z.2.Valid svc name services) (p : Spot ι) :
    ComesTo (IsAt svc name services x ev z p) (Arrives svc name services x ev z) := by
  intro n hat
  have hsuits := hat.suits hsound
  cases p with
  | push p =>
      refine ((comesTo_next rfl ?_).trans
        (comesTo_slotUp hsound hserved hmoves hfetched hz p)) n hat
      exact (hmoves.toSlot p).mono fun k hk => by rw [hk]; rfl
  | slotUp s =>
      obtain rfl : svc z.2.sender = s := hsuits
      exact comesTo_slotUp hsound hserved hmoves hfetched hz _ n hat
  | routerIn => exact comesTo_routerIn hsound hserved hmoves hfetched hz n hat
  | routerOut => exact comesTo_routerOut hsound hserved hmoves hfetched hz hsuits n hat
  | slotDown s =>
      have hs : s ∈ services := hsuits.2 ▸ hz.tgsvc_mem hap
      exact comesTo_slotDown hsound hserved hmoves hfetched hs n hat
  | pull p => exact comesTo_pull hsound hfetched p n hat
  | published s =>
      obtain ⟨p, rfl⟩ := hserved s (hsuits.2 ▸ hz.tgsvc_mem hap)
      exact comesTo_published hsound hmoves hfetched hsuits.1 p n hat
  | slotSub s =>
      obtain ⟨p, rfl⟩ := hserved s (hsuits.2 ▸ hz.tgsvc_mem hap)
      exact comesTo_slotSub hsound hmoves hfetched hsuits.1 p n hat
  | relayed p => exact comesTo_relayed hsound hmoves hfetched p n hat
  | sub p => exact comesTo_sub hsound hfetched p n hat
  | _ => exact comesTo_final hsound rfl n hat

end Way

/-- What was received stays received. -/
theorem Arrives.later {n m : Nat} (h : Arrives svc name services x ev z n) (hm : n ≤ m) :
    Arrives svc name services x ev z m := by
  induction hm with
  | refl => exact h
  | step _ ih => exact received_holds ih

end Run

/-- **Nothing stays on the way.**  In a run in which every pipe, callback and receive has its
turn again and again, each request and each response that was sent is received from some time
on: a request by a process of its service, a response by the process it is for. -/
theorem exchange_progress (hap : Apart svc name services)
    (hserved : ∀ s ∈ services, ∃ p, svc p = s) (interhub : Bool)
    (conn : ι → Int × Bool × Str) (ev : Nat → ExchangeStep ι)
    (hvalid : ∀ n, (ev n).Valid svc name services) (hfair : Fair svc ev) :
    ∃ held : Nat → Spot ι → List (Nat × Parcel ι),
      (∀ n, Balanced svc ((Exchange.start services interhub conn).after svc name services ev n)
        (held n)) ∧
      ∀ n k z, ((Exchange.start services interhub conn).after svc name services ev n).sent[k]?
          = some z →
        ∃ m, n ≤ m ∧ ∀ l, m ≤ l → Received svc (held l) k z := by
  have hsound : Sound svc name services (Exchange.start services interhub conn) ev :=
    fun n => keeps_until hap (working_start interhub conn) (balanced_start interhub conn) n
      fun l _ => hvalid l
  refine ⟨_, fun n => (hsound n).2, fun n k z hk => ?_⟩
  have hz : z.Valid svc name services := (hsound n).1.valid z (List.mem_of_getElem? hk)
  obtain ⟨p, hp⟩ := (hsound n).2.carried.placed.somewhere (k, z) hk
  have hfetched : Fetched svc ev z := by
    cases z with
    | req r => exact fun p _ => hfair.recv p
    | res a => exact hfair.recvRes a.asker
  obtain ⟨m, hm, harrives⟩ := comesTo_arrives hsound hap hserved hfair.toMoves (z := (k, z))
    hfetched hz p n (waits_of_mem hp)
  exact ⟨m, hm, fun l hl => harrives.later hl⟩

end System

/-! ### A question on every round -/

namespace AskPsib

/-- A process of `AHIF` asks, and everything has its turn. -/
def turns : List (ExchangeStep Bool) :=
  .net (.send ⟨false, tag, lit "PSIB", lit "hi"⟩) :: .net .router :: [false, true].flatMap fun p =>
    [.net (.toSlot p), .net (.pullToDealer (svc p)), .net (.toRouter (svc p)),
      .net (.toDealer (svc p)), .net (.dealerToPush (svc p)), .net (.toProcess p),
      .net (.recv p MqTag.zero (zeros 4)), .toSub (svc p), .subToPub (svc p), .toSubscriber p,
      .recvRes p (zeros 4)]

def endless (n : Nat) : ExchangeStep Bool := turns[n % turns.length]?.getD (.net .router)

theorem recurs_endless {e : ExchangeStep Bool} (he : e ∈ turns) : Recurs fun n => endless n = e :=
  (Recurs.of_turns he).mono fun n hn => by rw [endless, hn]; rfl

theorem valid_endless (n : Nat) : (endless n).Valid svc name [lit "AHIF", lit "PSIB"] := by
  have hreq : (⟨false, tag, lit "PSIB", lit "hi"⟩ : Request Bool).Valid
      [lit "AHIF", lit "PSIB"] :=
    ⟨⟨by decide, by decide, by decide⟩, by decide, by decide, by decide⟩
  have hall : ∀ e ∈ turns, e.Valid svc name [lit "AHIF", lit "PSIB"] := by
    simp [turns, ExchangeStep.Valid, NetStep.Valid, hreq]
  rw [endless]
  cases hturn : turns[n % turns.length]? with
  | none => trivial
  | some e => exact hall e (List.mem_of_getElem? hturn)

theorem fair_endless : Fair svc endless where
  toSlot p := recurs_endless (by cases p <;> simp [turns])
  pullToDealer p := recurs_endless (by cases p <;> simp [turns])
  toRouter p := recurs_endless (by cases p <;> simp [turns])
  router := recurs_endless (by simp [turns])
  toDealer p := recurs_endless (by cases p <;> simp [turns])
  dealerToPush p := recurs_endless (by cases p <;> simp [turns])
  toProcess p := recurs_endless (by cases p <;> simp [turns])
  recv p := (recurs_endless (e := .net (.recv p MqTag.zero (zeros 4)))
    (by cases p <;> simp [turns])).mono fun _ hn => ⟨_, _, hn⟩
  toSub p := recurs_endless (by cases p <;> simp [turns])
  subToPub p := recurs_endless (by cases p <;> simp [turns])
  toSubscriber p := recurs_endless (by cases p <;> simp [turns])
  recvRes p := (recurs_endless (e := .recvRes p (zeros 4))
    (by cases p <;> simp [turns])).mono fun _ hn => ⟨_, hn⟩

end AskPsib

theorem exchange_progress_psib :
    let x := Exchange.start [lit "AHIF", lit "PSIB"] false fun _ => (0, true, [])
    let after := x.after AskPsib.svc AskPsib.name [lit "AHIF", lit "PSIB"] AskPsib.endless
    ∃ held : Nat → Spot Bool → List (Nat × Parcel Bool),
      (∀ n, Balanced AskPsib.svc (after n) (held n)) ∧ ∃ m, ∀ l, m ≤ l →
      Received AskPsib.svc (held l) 0 (.req ⟨false, AskPsib.tag, lit "PSIB", lit "hi"⟩) := by
  intro x after
  obtain ⟨held, hheld, hreceived⟩ := exchange_progress AskPsib.apart
    (fun s hs => by
      rcases List.mem_cons.mp hs with rfl | hs
      · exact ⟨false, rfl⟩
      · exact ⟨true, (List.mem_singleton.mp hs).symm⟩)
    false (fun _ => (0, true, [])) AskPsib.endless AskPsib.valid_endless AskPsib.fair_endless
  have hsend : (mqSendReq (x.net.client false) AskPsib.tag (lit "PSIB") (lit "hi")).1 = 0 := by
    decide +kernel
  have hsent : (after 1).sent[0]? = some (.req ⟨false, AskPsib.tag, lit "PSIB", lit "hi"⟩) := by
    show (x.step _ _ _ (.net (.send ⟨false, AskPsib.tag, lit "PSIB", lit "hi"⟩))).sent[0]? = _
    simp only [Exchange.step, Net.step, hsend, if_true]
    rfl
  obtain ⟨m, -, hm⟩ := hreceived 1 0 _ hsent
  exact ⟨held, hheld, m, hm⟩

end Brocoli
