/-
Runs of a machine that is given its steps.

To say that something is so in every state of every run one needs an invariant, and what
often happens is that the steps keep it under a condition on the step, and only then.  If
a step that does not meet the condition spoils the good state at once, the condition is
exact: a run stays good exactly when all its steps meet it.
-/
import Mathlib.Data.List.Basic
import Mathlib.Tactic.Common

namespace Runs

variable {S E : Type} {step : S → E → S}

/-- The states of a run, the one it starts in included. -/
def states (step : S → E → S) (s : S) : List E → List S
  | [] => [s]
  | e :: es => s :: states step (step s e) es

/-- Every step of the run meets the condition in the state it is made in. -/
def AllSteps (step : S → E → S) (cond : S → E → Prop) (s : S) : List E → Prop
  | [] => True
  | e :: es => cond s e ∧ AllSteps step cond (step s e) es

/-- What is so of all steps of a run is so of each, in the state it is made in. -/
theorem AllSteps.at_step {cond : S → E → Prop} {e : E} {post : List E} : ∀ {pre : List E} {s : S},
    AllSteps step cond s (pre ++ e :: post) → cond (pre.foldl step s) e := by
  intro pre
  induction pre with
  | nil => intro s h; exact h.1
  | cons d pre ih => intro s h; exact ih h.2

/-- A run is made of its beginning and of what comes behind it. -/
theorem AllSteps.append {cond : S → E → Prop} {post : List E} : ∀ {pre : List E} {s : S},
    AllSteps step cond s pre → AllSteps step cond (pre.foldl step s) post →
    AllSteps step cond s (pre ++ post) := by
  intro pre
  induction pre with
  | nil => intro s _ hpost; exact hpost
  | cons d pre ih => intro s hpre hpost; exact ⟨hpre.1, ih hpre.2 hpost⟩

/-- A condition on the steps alone. -/
theorem AllSteps.of_forall {cond : E → Prop} : ∀ {es : List E}, (∀ e ∈ es, cond e) → ∀ s : S,
    AllSteps step (fun _ e => cond e) s es := by
  intro es
  induction es with
  | nil => intro _ s; trivial
  | cons e es ih => intro h s; exact ⟨h e (by simp), ih (fun d hd => h d (by simp [hd])) _⟩

/-- A run is in a state before its first step. -/
theorem mem_states_start (s : S) (es : List E) : s ∈ states step s es := by
  cases es <;> simp [states]

/-- And in one behind its last. -/
theorem foldl_mem_states : ∀ (es : List E) (s : S), es.foldl step s ∈ states step s es := by
  intro es
  induction es with
  | nil => intro s; simp [states]
  | cons e es ih => intro s; exact List.mem_cons_of_mem _ (ih _)

/-- The states of a run are those its beginnings lead to. -/
theorem mem_states_iff : ∀ {es : List E} {s t : S},
    t ∈ states step s es ↔ ∃ pre, pre <+: es ∧ pre.foldl step s = t := by
  intro es
  induction es with
  | nil => intro s t; simp [states, eq_comm]
  | cons e es ih =>
      intro s t
      rw [states, List.mem_cons, ih]
      constructor
      · rintro (rfl | ⟨pre, hpre, ht⟩)
        · exact ⟨[], List.nil_prefix, rfl⟩
        · exact ⟨e :: pre, List.cons_prefix_cons.mpr ⟨rfl, hpre⟩, ht⟩
      · rintro ⟨pre, hpre, ht⟩
        cases pre with
        | nil => exact Or.inl ht.symm
        | cons d pre =>
            obtain ⟨rfl, hrest⟩ := List.cons_prefix_cons.mp hpre
            exact Or.inr ⟨pre, hrest, ht⟩

/-- A part of the state that goes through some of the steps, in its own way, and that the
others leave alone, is what those steps make of it. -/
theorem foldl_view {V D : Type} {view : S → V} {part : E → Option D} {act : V → D → V}
    (h : ∀ s e, view (step s e) = (part e).elim (view s) (act (view s))) : ∀ (es : List E) (s : S),
    view (es.foldl step s) = (es.filterMap part).foldl act (view s) := by
  intro es
  induction es with
  | nil => intro s; rfl
  | cons e es ih =>
      intro s
      rw [List.foldl_cons, ih, h]
      cases hpart : part e with
      | none => rw [List.filterMap_cons_none hpart]; rfl
      | some d => rw [List.filterMap_cons_some hpart]; rfl

/-- An invariant that is kept holds in every state of the run. -/
theorem states_inv {cond : S → E → Prop} {Inv : S → Prop}
    (hstep : ∀ s e, Inv s → cond s e → Inv (step s e)) : ∀ (es : List E) {s : S}, Inv s →
    AllSteps step cond s es → ∀ t ∈ states step s es, Inv t := by
  intro es
  induction es with
  | nil =>
      intro s h _ t ht
      obtain rfl := List.mem_singleton.mp ht
      exact h
  | cons e es ih =>
      intro s h hall t ht
      rcases List.mem_cons.mp ht with rfl | ht
      · exact h
      · exact ih (hstep s e h hall.1) hall.2 t ht

/-- An invariant that every step keeps. -/
theorem states_always {Inv : S → Prop} (hstep : ∀ s e, Inv s → Inv (step s e)) (es : List E)
    {s : S} (h : Inv s) : ∀ t ∈ states step s es, Inv t := by
  have hsteps : AllSteps step (fun _ _ => True) s es := AllSteps.of_forall (fun _ _ => trivial) s
  exact states_inv (fun s e hs _ => hstep s e hs) es h hsteps

/-- **A run stays good exactly when every step meets the condition**, for an invariant that
implies good, is kept by the steps that meet it, and after which the others leave a state
that is not good.  The steps need only be looked at in the states that are `Ok`, when all
states of the run are. -/
theorem states_good_iff_of_ok {cond : S → E → Prop} {Ok Inv Good : S → Prop}
    (hgood : ∀ s, Inv s → Good s)
    (hstep : ∀ s e, Ok s → Inv s →
      (cond s e → Inv (step s e)) ∧ (¬ cond s e → ¬ Good (step s e))) :
    ∀ (es : List E) {s : S}, Inv s → (∀ t ∈ states step s es, Ok t) →
      ((∀ t ∈ states step s es, Good t) ↔ AllSteps step cond s es) := by
  intro es
  induction es with
  | nil => intro s h _; simp [states, AllSteps, hgood s h]
  | cons e es ih =>
      intro s h hok
      rw [states, List.forall_mem_cons] at hok
      obtain ⟨hkeep, hspoil⟩ := hstep s e hok.1 h
      simp only [states, List.forall_mem_cons, AllSteps]
      by_cases hc : cond s e
      · simp only [hgood s h, hc, true_and, ih (hkeep hc) hok.2]
      · have hbad : ¬ ∀ t ∈ states step (step s e) es, Good t := fun hall =>
          hspoil hc (hall _ (mem_states_start _ es))
        simp only [hc, false_and, iff_false, not_and]
        exact fun _ => hbad

/-- The same when the steps can be looked at in any state. -/
theorem states_good_iff {cond : S → E → Prop} {Inv Good : S → Prop} (hgood : ∀ s, Inv s → Good s)
    (hstep : ∀ s e, Inv s → (cond s e → Inv (step s e)) ∧ (¬ cond s e → ¬ Good (step s e)))
    (es : List E) {s : S} (h : Inv s) :
    (∀ t ∈ states step s es, Good t) ↔ AllSteps step cond s es := by
  have hok : ∀ t ∈ states step s es, (fun _ => True) t := fun _ _ => trivial
  exact states_good_iff_of_ok hgood (fun s e _ => hstep s e) es h hok

/-- What is so of every step from a state with the invariant is so of every step of the run. -/
theorem allSteps_always {cond : S → E → Prop} {Inv : S → Prop}
    (hstep : ∀ s e, Inv s → Inv (step s e)) (hcond : ∀ s e, Inv s → cond s e) :
    ∀ (es : List E) {s : S}, Inv s → AllSteps step cond s es := by
  intro es
  induction es with
  | nil => intro s _; trivial
  | cons e es ih => intro s h; exact ⟨hcond s e h, ih (hstep s e h)⟩

/-! ### Clocks

Some steps read a clock.  What a state is like then depends on the time of the last reading.
-/

section Clock

variable {T : Type} [LE T] {time : E → Option T}

/-- The readings of the clock do not run backwards. -/
def Clocked (time : E → Option T) (es : List E) : Prop := (es.filterMap time).Pairwise (· ≤ ·)

/-- An invariant that says something about the time of the last reading. -/
theorem states_clocked {cond : E → Prop} {Inv : T → S → Prop}
    (htick : ∀ t s e u, Inv t s → cond e → time e = some u → t ≤ u → Inv u (step s e))
    (hquiet : ∀ t s e, Inv t s → cond e → time e = none → Inv t (step s e)) :
    ∀ (es : List E) {t : T} {s : S}, Inv t s → (∀ e ∈ es, cond e) →
      (∀ u ∈ es.filterMap time, t ≤ u) → Clocked time es →
      ∀ s' ∈ states step s es, ∃ t', Inv t' s' := by
  intro es
  induction es with
  | nil =>
      intro t s h _ _ _ s' hs'
      obtain rfl := List.mem_singleton.mp hs'
      exact ⟨t, h⟩
  | cons e es ih =>
      intro t s h hcond hlater hclock s' hs'
      obtain ⟨he, hes⟩ := List.forall_mem_cons.mp hcond
      rcases List.mem_cons.mp hs' with rfl | hs'
      · exact ⟨t, h⟩
      · cases htime : time e with
        | none =>
            rw [List.filterMap_cons_none htime] at hlater
            rw [Clocked, List.filterMap_cons_none htime] at hclock
            exact ih (hquiet t s e h he htime) hes hlater hclock s' hs'
        | some u =>
            rw [List.filterMap_cons_some htime] at hlater
            rw [Clocked, List.filterMap_cons_some htime, List.pairwise_cons] at hclock
            have htu : t ≤ u := hlater u List.mem_cons_self
            exact ih (htick t s e u h he htime htu) hes hclock.1 hclock.2 s' hs'

/-- **It holds in every state of a run from a state in which it holds at any time.** -/
theorem states_clocked_of_start [Nonempty T] {cond : E → Prop} {Inv : T → S → Prop}
    (htick : ∀ t s e u, Inv t s → cond e → time e = some u → t ≤ u → Inv u (step s e))
    (hquiet : ∀ t s e, Inv t s → cond e → time e = none → Inv t (step s e)) (hrefl : ∀ t : T, t ≤ t)
    {es : List E} {s : S} (h : ∀ t, Inv t s) (hcond : ∀ e ∈ es, cond e)
    (hclock : Clocked time es) : ∀ s' ∈ states step s es, ∃ t, Inv t s' := by
  cases htimes : es.filterMap time with
  | nil =>
      have hnone : ∀ u ∈ es.filterMap time, Classical.arbitrary T ≤ u := by simp [htimes]
      exact states_clocked htick hquiet es (h _) hcond hnone hclock
  | cons u us =>
      have hfirst : ∀ v ∈ es.filterMap time, u ≤ v := by
        rw [Clocked, htimes, List.pairwise_cons] at hclock
        rw [htimes]
        exact List.forall_mem_cons.mpr ⟨hrefl u, hclock.1⟩
      exact states_clocked htick hquiet es (h u) hcond hfirst hclock

end Clock

/-! ### Logs -/

/-- What an observer of the steps writes down in a run. -/
def log {A : Type} (step : S → E → S) (obs : S → E → List A) (s : S) : List E → List A
  | [] => []
  | e :: es => obs s e ++ log step obs (step s e) es

/-- **What comes in is what goes out and what is still held**, when that is so of each step. -/
theorem log_balance {A : Type} {Inv : S → Prop} {incoming outgoing : S → E → List A}
    {held : S → List A} (hinv : ∀ s e, Inv s → Inv (step s e))
    (hstep : ∀ s e, Inv s → held s ++ incoming s e = outgoing s e ++ held (step s e)) :
    ∀ (es : List E) {s : S}, Inv s →
      held s ++ log step incoming s es = log step outgoing s es ++ held (es.foldl step s) := by
  intro es
  induction es with
  | nil => intro s _; simp [log]
  | cons e es ih =>
      intro s h
      calc held s ++ log step incoming s (e :: es)
          = held s ++ incoming s e ++ log step incoming (step s e) es := by
            rw [log, List.append_assoc]
        _ = outgoing s e ++ (held (step s e) ++ log step incoming (step s e) es) := by
            rw [hstep s e h, List.append_assoc]
        _ = log step outgoing s (e :: es) ++ held ((e :: es).foldl step s) := by
            rw [ih (hinv s e h), log, List.foldl_cons, List.append_assoc]

/-! ### Loops

A loop whose every iteration takes something off a finite supply, until nothing is there.
-/

/-- The loop with at most `fuel` iterations; `iter` says how one changes the state, and
nothing when the condition does not hold. -/
def whileSome (iter : S → Option S) : Nat → S → S
  | 0, s => s
  | fuel + 1, s =>
      match iter s with
      | none => s
      | some s' => whileSome iter fuel s'

/-- The states in which the condition is evaluated. -/
def heads (iter : S → Option S) : Nat → S → List S
  | 0, s => [s]
  | fuel + 1, s =>
      s :: match iter s with
        | none => []
        | some s' => heads iter fuel s'

variable {iter : S → Option S}

theorem whileSome_none {s : S} (h : iter s = none) (fuel : Nat) : whileSome iter fuel s = s := by
  cases fuel with
  | zero => rfl
  | succ fuel => rw [whileSome, h]

theorem whileSome_some {s s' : S} (h : iter s = some s') (fuel : Nat) :
    whileSome iter (fuel + 1) s = whileSome iter fuel s' := by
  rw [whileSome, h]

theorem heads_none {s : S} (h : iter s = none) (fuel : Nat) : heads iter fuel s = [s] := by
  cases fuel with
  | zero => rfl
  | succ fuel => rw [heads, h]

theorem heads_some {s s' : S} (h : iter s = some s') (fuel : Nat) :
    heads iter (fuel + 1) s = s :: heads iter fuel s' := by
  rw [heads, h]

theorem heads_start (fuel : Nat) (s : S) : ∃ rest, heads iter fuel s = s :: rest := by
  cases fuel with
  | zero => exact ⟨[], rfl⟩
  | succ fuel => exact ⟨_, rfl⟩

/-- What the head of a loop sees, when the first iteration is known: the view of the state
it starts in, and then what the rest of the loop sees. -/
theorem map_heads_iff {V : Type} {view : S → V} {s s' : S} (h : iter s = some s') (fuel : Nat)
    {v : V} {vs : List V} :
    (heads iter (fuel + 1) s).map view = v :: vs ↔
      view s = v ∧ (heads iter fuel s').map view = vs := by
  rw [heads_some h, List.map_cons, List.cons.injEq]

theorem map_heads_start {V : Type} {view : S → V} {s : S} {fuel : Nat} {v : V} {vs : List V}
    (h : (heads iter fuel s).map view = v :: vs) : view s = v := by
  obtain ⟨rest, hr⟩ := heads_start fuel s
  rw [hr, List.map_cons, List.cons.injEq] at h
  exact h.1

end Runs
