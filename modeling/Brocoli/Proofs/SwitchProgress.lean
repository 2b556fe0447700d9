/-
What a broker sends to another comes out in the end.

The hub runs for ever, and every callback, the proxy and every pipe have their turn again and
again, in whatever order.  Between two brokers there are four queues behind each other: the
dealer, the publisher, the pipe to the other thread and its subscriber.  Each is emptied from
its front, so what is in it at any time comes out of it, and then out of the next.
-/
import Brocoli.Lib.Progress
import Brocoli.Proofs.Switch
import Mathlib.Tactic.IntervalCases

namespace Brocoli.Hub

open CMem Multipart Runs Carriage Progress

section System

variable {β : Type} [DecidableEq β] {id : β → Str} {time : β → Nat → Time}

/-- The hub after `n` steps. -/
def Switch.after (time : β → Nat → Time) (x : Switch β) (ev : Nat → SwitchStep β) : Nat → Switch β
  | 0 => x
  | n + 1 => (x.after time ev n).step time (ev n)

/-- Every callback, the proxy and every pipe have their turn again and again. -/
structure FairSwitch (ev : Nat → SwitchStep β) : Prop where
  interhub : ∀ a, Recurs fun n => ev n = .interhub a
  proxy : ∀ a, Recurs fun n => ev n = .proxy a
  toSub : ∀ b, Recurs fun n => ev n = .toSub b
  sub : ∀ b, Recurs fun n => ev n = .sub b

/-! ### What one step does to the queues -/

/-- What has gone into each queue and what has come out of it. -/
structure Grows (f f' : Flow β) : Prop where
  passed : ∀ a, f.passed a <+: f'.passed a
  crossed : ∀ a, f.crossed a <+: f'.crossed a
  queue : ∀ b, f.queue b <+: f'.queue b
  held : ∀ b, f.got b ++ f.sub b <+: f'.got b ++ f'.sub b
  got : ∀ b, f.got b <+: f'.got b

section Steps

variable {f : Flow β} {zs : List (β × Relay)}

omit [DecidableEq β] in
theorem Grows.refl (f : Flow β) : Grows f f where
  passed _ := List.prefix_refl _
  crossed _ := List.prefix_refl _
  queue _ := List.prefix_refl _
  held _ := List.prefix_refl _
  got _ := List.prefix_refl _

theorem grows_interhub (a : β) : Grows f (f.step zs (.interhub a)) where
  passed := all_update (Q := fun b (published : List (β × Relay)) =>
    f.passed b <+: f.crossed b ++ published) (fun _ => List.prefix_refl _) (by
      rw [← List.append_assoc]
      exact List.prefix_append _ _)
  crossed _ := List.prefix_refl _
  queue _ := List.prefix_refl _
  held _ := List.prefix_refl _
  got _ := List.prefix_refl _

theorem grows_proxyMain : Grows f (f.step zs .proxyMain) := by
  cases hf : f.announced with
  | nil =>
      rw [Flow.step, hf]
      exact Grows.refl f
  | cons r rest =>
      rw [Flow.step, hf]
      refine ⟨fun _ => List.prefix_refl _, fun _ => List.prefix_refl _, fun b => ?_,
        fun _ => List.prefix_refl _, fun _ => List.prefix_refl _⟩
      show f.got b ++ f.sub b ++ f.relayed b <+: f.got b ++ f.sub b ++ (f.relayed b ++ _)
      rw [← List.append_assoc]
      exact List.prefix_append _ _

theorem grows_proxy (a : β) : Grows f (f.step zs (.proxy a)) := by
  cases hf : f.published a with
  | nil =>
      rw [Flow.step, hf]
      exact Grows.refl f
  | cons z rest =>
      rw [Flow.step, hf]
      refine ⟨?_, ?_, fun b => ?_, fun _ => List.prefix_refl _, fun _ => List.prefix_refl _⟩
      · refine all_update₂ (Q := fun b published crossed => f.passed b <+: crossed ++ published)
          (fun _ => List.prefix_refl _) ?_
        rw [List.append_assoc, List.singleton_append, ← hf]
        exact List.prefix_refl _
      · exact all_update (Q := fun b (crossed : List (β × Relay)) => f.crossed b <+: crossed)
          (fun _ => List.prefix_refl _) (List.prefix_append _ _)
      · show f.got b ++ f.sub b ++ f.relayed b <+: f.got b ++ f.sub b ++ (f.relayed b ++ _)
        rw [← List.append_assoc]
        exact List.prefix_append _ _

theorem grows_toSub (b : β) : Grows f (f.step zs (.toSub b)) := by
  cases hf : f.relayed b with
  | nil =>
      rw [Flow.step, hf]
      exact Grows.refl f
  | cons i rest =>
      rw [Flow.step, hf]
      refine ⟨fun _ => List.prefix_refl _, fun _ => List.prefix_refl _, ?_, ?_,
        fun _ => List.prefix_refl _⟩
      · refine all_update₂ (Q := fun c relayed sub => f.queue c <+: f.got c ++ sub ++ relayed)
          (fun _ => List.prefix_refl _) ?_
        rw [Flow.queue, hf]
        simp
      · refine all_update (Q := fun c (sub : List (Item β)) =>
          f.got c ++ f.sub c <+: f.got c ++ sub) (fun _ => List.prefix_refl _) ?_
        rw [← List.append_assoc]
        exact List.prefix_append _ _

theorem grows_sub (b : β) : Grows f (f.step zs (.sub b)) where
  passed _ := List.prefix_refl _
  crossed _ := List.prefix_refl _
  queue := all_update₂ (Q := fun c sub got => f.queue c <+: got ++ sub ++ f.relayed c)
    (fun _ => List.prefix_refl _) (by simp [Flow.queue])
  held := all_update₂ (Q := fun c sub got => f.got c ++ f.sub c <+: got ++ sub)
    (fun _ => List.prefix_refl _) (by simp)
  got := all_update (Q := fun c (got : List (Item β)) => f.got c <+: got)
    (fun _ => List.prefix_refl _) (List.prefix_append _ _)

/-- No step takes anything back. -/
theorem grows_step (zs : List (β × Relay)) (e : SwitchStep β) : Grows f (f.step zs e) := by
  cases e with
  | interhub a => exact grows_interhub a
  | proxyMain => exact grows_proxyMain
  | proxy a => exact grows_proxy a
  | toSub b => exact grows_toSub b
  | sub b => exact grows_sub b
  | announce svcRegi =>
      have hsame := Grows.refl f
      exact ⟨hsame.passed, hsame.crossed, hsame.queue, hsame.held, hsame.got⟩
  | arrive a m => exact Grows.refl f
  | removeSmalltree b current => exact Grows.refl f

/-- The proxy takes what is first in the publisher. -/
theorem crossed_proxy {a : β} (h : f.crossed a ≠ f.passed a) :
    f.crossed a ≠ (f.step zs (.proxy a)).crossed a := by
  cases hf : f.published a with
  | nil => exact absurd (by rw [Flow.passed, hf, List.append_nil]) h
  | cons z rest => simp [Flow.step, hf]

/-- The pipe carries what is first in it. -/
theorem held_toSub {b : β} (h : f.got b ++ f.sub b ≠ f.queue b) :
    f.got b ++ f.sub b ≠ (f.step zs (.toSub b)).got b ++ (f.step zs (.toSub b)).sub b := by
  cases hf : f.relayed b with
  | nil => exact absurd (by rw [Flow.queue, hf, List.append_nil]) h
  | cons i rest => simp [Flow.step, hf]

/-- The callback takes all there is. -/
theorem got_sub {b : β} (h : f.got b ≠ f.got b ++ f.sub b) :
    f.got b ≠ (f.step zs (.sub b)).got b := by
  simpa [Flow.step] using h

variable {x : Switch β}

theorem registered_grows (e : SwitchStep β) : x.registered <+: (x.step time e).registered := by
  rw [step_registered]
  cases e with
  | announce svcRegi => exact List.prefix_append _ _
  | _ => exact List.prefix_refl _

theorem arrived_grows (e : SwitchStep β) (a : β) :
    x.arrived a <+: (x.step time e).arrived a := by
  rw [step_arrived]
  cases e with
  | arrive c m =>
      exact all_update (Q := fun b (ms : List DealerMsg) => x.arrived b <+: ms)
        (fun _ => List.prefix_refl _) (List.prefix_append _ _) a
  | _ => exact List.prefix_refl _

end Steps

/-! ### Endless runs -/

theorem lane_mono {α : Type} (a : β) {l r : List (β × α)} (h : l <+: r) :
    lane a l <+: lane a r := by
  obtain ⟨rest, rfl⟩ := h
  rw [lane_append]
  exact List.prefix_append _ _

theorem relaysFrom_mono (a : β) {l r : List (Item β)} (h : l <+: r) :
    relaysFrom a l <+: relaysFrom a r := by
  obtain ⟨rest, rfl⟩ := h
  rw [relaysFrom_append]
  exact List.prefix_append _ _

section Endless

variable {ev : Nat → Option (SwitchStep β)} {f : Nat → Flow β}

/-- What is where along an endless run in which the hub makes some of the steps. -/
def Follows (ev : Nat → Option (SwitchStep β)) (f : Nat → Flow β) : Prop :=
  ∀ n, ∃ zs, f (n + 1) = (ev n).elim (f n) ((f n).step zs)

theorem Follows.grows (h : Follows ev f) (n : Nat) : Grows (f n) (f (n + 1)) := by
  obtain ⟨zs, hnext⟩ := h n
  rw [hnext]
  cases ev n with
  | none => exact Grows.refl (f n)
  | some e => exact grows_step zs e

theorem Follows.step (h : Follows ev f) {n : Nat} {e : SwitchStep β} (he : ev n = some e) :
    ∃ zs, f (n + 1) = (f n).step zs e := by
  obtain ⟨zs, hnext⟩ := h n
  rw [he] at hnext
  exact ⟨zs, hnext⟩

/-- What a thread has published is taken by the proxy. -/
theorem passed_crosses (h : Follows ev f) {a : β}
    (hproxy : Recurs fun n => ev n = some (.proxy a)) (n : Nat) :
    ∃ m, n ≤ m ∧ ∀ k, m ≤ k → (f n).passed a <+: (f k).crossed a := by
  refine comes_out hproxy (fun n => (h.grows n).passed a)
    (fun n => (h.grows n).crossed a) (fun n => List.prefix_append _ _) (fun n hn hne => ?_) n
  obtain ⟨zs, hnext⟩ := h.step hn
  rw [hnext]
  exact crossed_proxy hne

/-- What is on its way to a thread gets to its subscriber. -/
theorem queue_held (h : Follows ev f) {b : β} (htoSub : Recurs fun n => ev n = some (.toSub b))
    (n : Nat) : ∃ m, n ≤ m ∧ ∀ k, m ≤ k → (f n).queue b <+: (f k).got b ++ (f k).sub b := by
  refine comes_out htoSub (fun n => (h.grows n).queue b)
    (fun n => (h.grows n).held b) (fun n => List.prefix_append _ _) (fun n hn hne => ?_) n
  obtain ⟨zs, hnext⟩ := h.step hn
  rw [hnext]
  exact held_toSub hne

/-- And through it. -/
theorem held_got (h : Follows ev f) {b : β} (hsub : Recurs fun n => ev n = some (.sub b))
    (n : Nat) : ∃ m, n ≤ m ∧ ∀ k, m ≤ k → (f n).got b ++ (f n).sub b <+: (f k).got b := by
  refine comes_out hsub (fun n => (h.grows n).held b) (fun n => (h.grows n).got b)
    (fun n => List.prefix_append _ _) (fun n hn hne => ?_) n
  obtain ⟨zs, hnext⟩ := h.step hn
  rw [hnext]
  exact got_sub hne

/-- What a thread has published for another comes out there. -/
theorem passed_comes_out (h : Follows ev f) {a b : β}
    (hrelays : ∀ n, relaysFrom a ((f n).queue b) = lane b ((f n).crossed a))
    (hproxy : Recurs fun n => ev n = some (.proxy a))
    (htoSub : Recurs fun n => ev n = some (.toSub b))
    (hsub : Recurs fun n => ev n = some (.sub b)) (n : Nat) :
    ∃ m, n ≤ m ∧ ∀ k, m ≤ k → lane b ((f n).passed a) <+: relaysFrom a ((f k).got b) := by
  obtain ⟨m₁, hm₁, hcrossed⟩ := passed_crosses h hproxy n
  obtain ⟨m₂, hm₂, hheld⟩ := queue_held h htoSub m₁
  obtain ⟨m₃, hm₃, hgot⟩ := held_got h hsub m₂
  refine ⟨m₃, by omega, fun k hk => ?_⟩
  have hqueue : lane b ((f n).passed a) <+: relaysFrom a ((f m₁).queue b) := by
    rw [hrelays]
    exact lane_mono b (hcrossed m₁ (Nat.le_refl _))
  refine hqueue.trans (relaysFrom_mono a ?_)
  exact (hheld m₂ (Nat.le_refl _)).trans (hgot k hk)

end Endless

section Alone

variable {x : Switch β} {ev : Nat → SwitchStep β}

/-- What is where in every state of an endless run of the hub. -/
theorem exists_follows (hids : Ids id) {f₀ : Flow β} (hstart : Sound id x f₀)
    (hvalid : ∀ n, (ev n).Valid id (x.after time ev n)) :
    ∃ f, Follows (fun n => some (ev n)) f ∧ ∀ n, Sound id (x.after time ev n) (f n) := by
  obtain ⟨f, -, hf⟩ := exists_endless (P := fun n g => Sound id (x.after time ev n) g)
    (R := fun n g g' => ∃ zs, g' = g.step zs (ev n)) hstart fun n g hg => by
      obtain ⟨zs, hzs⟩ := sound_step hids hg (hvalid n)
      exact ⟨_, hzs, zs, rfl⟩
  exact ⟨f, fun n => (hf n).2, fun n => (hf n).1⟩

/-- What waits on a dealer is taken. -/
theorem arrived_taken (hfair : FairSwitch ev) (a : β) (n : Nat) :
    ∃ m, n ≤ m ∧ (x.after time ev m).waiting a = [] := by
  obtain ⟨m, hm, htake⟩ := hfair.interhub a n
  refine ⟨m + 1, by omega, ?_⟩
  rw [Switch.after, htake, step_waiting]
  exact Function.update_self a _ _

end Alone

/-- The messages of a broker that are to go on, and what they have been passed on as. -/
def PassedAs (id : β → Str) (registered : List MqRegi) (a : β) (arrived : List DealerMsg)
    (passed : List (β × Relay)) : Prop :=
  List.Forall₂ (Passed id registered a) (arrived.filter fun m => !m.isLog) passed

/-- **Between any two brokers what goes into the hub comes out of it.**  In every endless run in
which the callbacks, the proxy and the pipes have their turn again and again, and the threads
read their dealers message by message, everything that has come from a broker by any time has
been passed on some time later, and what was for another broker has come out there, for ever
after, in order. -/
theorem switch_progress (hids : Ids id) (time : β → Nat → Time) (now : Time)
    (ev : Nat → SwitchStep β)
    (hvalid : ∀ n, (ev n).Valid id ((Switch.start id now).after time ev n))
    (hfair : FairSwitch ev) :
    let after := (Switch.start id now).after time ev
    ∃ passed got : Nat → β → List (β × Relay),
      (∀ n, Delivered id (after n) (passed n) (got n)) ∧
      ∀ n a b, ∃ m, n ≤ m ∧ ∀ k, m ≤ k → ∃ sent,
        PassedAs id (after k).registered a ((after n).arrived a) sent ∧
        sent <+: passed k a ∧ lane b sent <+: lane a (got k b) := by
  intro after
  obtain ⟨f, hf, hsound⟩ : ∃ f, Follows (fun n => some (ev n)) f ∧ ∀ n, Sound id (after n) (f n) :=
    exists_follows hids (sound_start id now) hvalid
  refine ⟨fun n => (f n).passed, fun n b => ((f n).got b).filterMap Item.sent?,
    fun n => (hsound n).delivered, fun n a b => ?_⟩
  obtain ⟨m₁, hm₁, hwaiting⟩ : ∃ m, n ≤ m ∧ (after m).waiting a = [] := arrived_taken hfair a n
  have hsome : ∀ {e : SwitchStep β}, (Recurs fun n => ev n = e) →
      Recurs fun n => some (ev n) = some e := fun h => h.mono fun _ hn => congrArg some hn
  obtain ⟨m₂, hm₂, hout⟩ := passed_comes_out hf (fun n => (hsound n).line.relays a b)
    (hsome (hfair.proxy a)) (hsome (hfair.toSub b)) (hsome (hfair.sub b)) m₁
  refine ⟨m₂, by omega, fun k hk => ?_⟩
  obtain ⟨taken, harrived, hpassed⟩ := (hsound m₁).line.passed a
  rw [hwaiting, List.append_nil] at harrived
  have hsooner : (after n).arrived a <+: taken := by
    rw [← harrived]
    exact prefix_later (l := fun n => (after n).arrived a) (fun n => arrived_grows (ev n) a) hm₁
  have hregistered : (after m₁).registered ⊆ (after k).registered :=
    (prefix_later (l := fun n => (after n).registered) (fun n => registered_grows (ev n))
      (Nat.le_trans hm₂ hk)).subset
  -- of what was passed on by then, what belongs to the messages of the beginning
  obtain ⟨later, rfl⟩ := hsooner
  rw [List.filter_append] at hpassed
  have hsent := List.forall₂_take (((after n).arrived a).filter fun m => !m.isLog).length hpassed
  rw [List.take_left] at hsent
  refine ⟨_, hsent.imp fun _ _ hz => hz.mono hregistered, ?_, ?_⟩
  · have hgrown : (f m₁).passed a <+: (f k).passed a :=
      prefix_later (fun n => (hf.grows n).passed a) (Nat.le_trans hm₂ hk)
    exact (List.take_prefix _ _).trans hgrown
  · exact (lane_mono b (List.take_prefix _ _)).trans (hout k hk)

end System

/-! ### A response on every round -/

namespace SwitchPsib

def turns : List (SwitchStep Bool) :=
  .arrive true response :: [true, false].map .interhub ++ [true, false].map .proxy
    ++ [true, false].map .toSub ++ [true, false].map .sub

def endless (n : Nat) : SwitchStep Bool := turns[n % turns.length]?.getD .proxyMain

def endlessRun : Nat → Switch Bool := (Switch.start id 0).after (fun _ _ => 0) endless

theorem recurs_endless {e : SwitchStep Bool} (he : e ∈ turns) : Recurs fun n => endless n = e :=
  (Recurs.of_turns he).mono fun n hn => by rw [endless, hn]; rfl

theorem fair_endless : FairSwitch endless where
  interhub a := recurs_endless (by cases a <;> simp [turns])
  proxy a := recurs_endless (by cases a <;> simp [turns])
  toSub b := recurs_endless (by cases b <;> simp [turns])
  sub b := recurs_endless (by cases b <;> simp [turns])

/-- What comes is taken at once. -/
theorem waiting_endless (n : Nat) :
    (endlessRun n).waiting true = (if n % 9 = 1 then [response] else []) ∧
      (endlessRun n).waiting false = [] := by
  induction n with
  | zero => exact ⟨rfl, rfl⟩
  | succ n ih =>
      obtain ⟨htrue, hfalse⟩ := ih
      show ((endlessRun n).step _ (endless n)).waiting true = _ ∧
        ((endlessRun n).step _ (endless n)).waiting false = _
      have hlt : n % 9 < 9 := Nat.mod_lt n (by decide)
      have hturn : endless n = turns[n % 9]?.getD .proxyMain := rfl
      rw [step_waiting, hturn]
      generalize hi : n % 9 = i at hlt htrue ⊢
      have hnext : (n + 1) % 9 = (i + 1) % 9 := by omega
      rw [hnext]
      interval_cases i <;> simp_all [turns]

theorem valid_endless (n : Nat) : (endless n).Valid id (endlessRun n) := by
  obtain ⟨htrue, hfalse⟩ := waiting_endless n
  have hlt : n % 9 < 9 := Nat.mod_lt n (by decide)
  have hturn : endless n = turns[n % 9]?.getD .proxyMain := rfl
  rw [hturn]
  generalize n % 9 = i at hlt htrue ⊢
  interval_cases i
  case «0» => exact valid_response
  case «1» =>
      show AllReadFrom ((endlessRun n).thread true) false ((endlessRun n).waiting true)
      rw [htrue]
      exact read_response _
  case «2» =>
      show AllReadFrom ((endlessRun n).thread false) false ((endlessRun n).waiting false)
      rw [hfalse]
      exact ⟨by simp, fun h => absurd h (by decide), List.Pairwise.nil⟩
  all_goals trivial

end SwitchPsib

/-- The first response comes out. -/
theorem switch_progress_psib :
    ∃ passed got : Nat → Bool → List (Bool × Relay),
      (∀ n, Delivered SwitchPsib.id (SwitchPsib.endlessRun n) (passed n) (got n)) ∧
      ∃ m, ∀ k, m ≤ k →
        ⟨true, lit "AHIF", lit "ahif_1", lit "ok"⟩ ∈ lane true (got k false) := by
  obtain ⟨passed, got, hdelivered, hprogress⟩ := switch_progress SwitchPsib.ids (fun _ _ => 0) 0
    SwitchPsib.endless SwitchPsib.valid_endless SwitchPsib.fair_endless
  refine ⟨passed, got, hdelivered, ?_⟩
  obtain ⟨m, -, hm⟩ := hprogress 1 true false
  refine ⟨m, fun k hk => ?_⟩
  obtain ⟨sent, hsent, -, hout⟩ := hm k hk
  refine hout.subset ?_
  change List.Forall₂ _ [SwitchPsib.response] sent at hsent
  obtain ⟨z, rest, hz, -, rfl⟩ := List.forall₂_cons_left_iff.mp hsent
  cases hz with
  | @resInterhub broker svc name body b hbroker =>
      have hb : b = false := by
        revert hbroker
        cases b <;> decide
      subst hb
      rw [lane_cons]
      exact List.mem_append_left _ (List.mem_singleton_self _)

end Brocoli.Hub
