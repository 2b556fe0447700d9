/-
Multipart messages through a socket that refuses some of the parts.

A sender that goes on after a refusal sends what was not refused, and the other end puts
the parts together as they come.  It gets the whole messages, and nothing else, as long as
no message is torn: up to the last one that is ended, each was taken whole or refused
whole.  What became of the messages behind that one makes no difference yet.

There is no other way.  Each ended message ends one at the other end, so nothing but the
whole messages comes out only if every ended message was whole, and then a part of another
in front of it would be in front of its frames.
-/
import Brocoli.Lib.Multipart
import Mathlib.Data.List.Count

namespace Refusals

open Multipart

/-! ### What is taken -/

/-- The entries that are taken.  Those without an answer have not been tried. -/
def select {β : Type} : List β → List Bool → List β
  | x :: xs, b :: bs => if b then x :: select xs bs else select xs bs
  | _, _ => []

section Select

variable {β : Type}

@[simp] theorem select_nil (bs : List Bool) : select ([] : List β) bs = [] := by
  cases bs <;> rfl

@[simp] theorem select_none (xs : List β) : select xs [] = [] := by
  cases xs <;> rfl

@[simp] theorem select_cons (x : β) (xs : List β) (b : Bool) (bs : List Bool) :
    select (x :: xs) (b :: bs) = if b then x :: select xs bs else select xs bs := rfl

/-- Answers to some entries and to those behind them. -/
theorem select_append : ∀ (xs ys : List β) (bs : List Bool),
    select (xs ++ ys) bs = select xs (bs.take xs.length) ++ select ys (bs.drop xs.length) := by
  intro xs
  induction xs with
  | nil => intro ys bs; simp
  | cons x xs ih =>
      intro ys bs
      cases bs with
      | nil => simp
      | cons b bs =>
          rw [List.cons_append, select_cons, ih]
          cases b <;> simp

/-- With an answer at most to each, what comes behind is not tried. -/
theorem select_append_left {xs : List β} {bs : List Bool} (h : bs.length ≤ xs.length)
    (ys : List β) : select (xs ++ ys) bs = select xs bs := by
  rw [select_append, List.take_of_length_le h, List.drop_eq_nil_of_le h, select_none,
    List.append_nil]

theorem select_all (xs : List β) : select xs (List.replicate xs.length true) = xs := by
  induction xs with
  | nil => rfl
  | cons x xs ih => rw [List.length_cons, List.replicate_succ, select_cons, ih]; rfl

/-- Nothing is taken only when everything tried was refused. -/
theorem select_eq_nil : ∀ {xs : List β} {bs : List Bool}, bs.length ≤ xs.length →
    (select xs bs = [] ↔ ∀ b ∈ bs, b = false) := by
  intro xs
  induction xs with
  | nil =>
      intro bs h
      obtain rfl := List.length_eq_zero_iff.mp (Nat.le_zero.mp h)
      simp
  | cons x xs ih =>
      intro bs h
      cases bs with
      | nil => simp
      | cons b bs =>
          have hbs : bs.length ≤ xs.length := Nat.le_of_succ_le_succ h
          cases b with
          | true => simp
          | false => simpa using ih hbs

end Select

/-! ### What the sends answer -/

/-- Which of the next `n` sends are taken, by what they answer. -/
def sentFlags : Nat → List (Option Errno) → List Bool
  | 0, _ => []
  | n + 1, rs => (rs.headD none).isNone :: sentFlags n rs.tail

@[simp] theorem sentFlags_length : ∀ (n : Nat) (rs : List (Option Errno)),
    (sentFlags n rs).length = n := by
  intro n
  induction n with
  | zero => intro rs; rfl
  | succ n ih => intro rs; rw [sentFlags, List.length_cons, ih]

theorem sentFlags_add (n : Nat) : ∀ (k : Nat) (rs : List (Option Errno)),
    sentFlags (k + n) rs = sentFlags k rs ++ sentFlags n (rs.drop k) := by
  intro k
  induction k with
  | zero => intro rs; simp [sentFlags]
  | succ k ih =>
      intro rs
      rw [Nat.succ_add, sentFlags, ih, sentFlags, List.cons_append, List.drop_tail]

theorem sentFlags_mono {k n : Nat} (h : k ≤ n) (rs : List (Option Errno)) :
    sentFlags k rs <+: sentFlags n rs := by
  obtain ⟨d, rfl⟩ := Nat.exists_eq_add_of_le h
  rw [sentFlags_add]
  exact List.prefix_append _ _

/-- A pipe after it was tried to send the parts `ps` on it. -/
def offer (o : Out) (ps : List Part) : Out :=
  { o with
    sent := o.sent ++ select ps (sentFlags ps.length o.results)
    results := o.results.drop ps.length }

@[simp] theorem offer_nil (o : Out) : offer o [] = o := by
  simp [offer]

@[simp] theorem offer_kind (o : Out) (ps : List Part) : (offer o ps).kind = o.kind := rfl

theorem offer_offer (o : Out) (ps qs : List Part) : offer (offer o ps) qs = offer o (ps ++ qs) := by
  have hlen := sentFlags_length ps.length o.results
  have hsel : select (ps ++ qs) (sentFlags (ps.length + qs.length) o.results)
      = select ps (sentFlags ps.length o.results)
        ++ select qs (sentFlags qs.length (o.results.drop ps.length)) := by
    rw [sentFlags_add, select_append, List.take_left' hlen, List.drop_left' hlen]
  simp only [offer, List.length_append, hsel, List.append_assoc, List.drop_drop]

/-- A send on a pipe is taken or not, and uses up an answer. -/
theorem send_pipe {o : Out} (h : o.kind = .pipe) (f : Frame) (more : Bool) :
    (o.send f more).2 = offer o [⟨f, more⟩] := by
  obtain ⟨kind, sent, results⟩ := o
  simp only at h
  subst h
  cases results with
  | nil => rfl
  | cons r rs => cases r <;> simp [Out.send, Out.verdict, offer, sentFlags]

/-- What a fresh pipe has sent, when it was tried to send the first parts of `ps`. -/
theorem offer_take_sent (rs : List (Option Errno)) {n : Nat} {ps : List Part} (h : n ≤ ps.length) :
    (offer ⟨.pipe, [], rs⟩ (ps.take n)).sent = select ps (sentFlags n rs) := by
  have hlen : (ps.take n).length = n := List.length_take_of_le h
  have hsel : select (ps.take n ++ ps.drop n) (sentFlags n rs)
      = select (ps.take n) (sentFlags n rs) :=
    select_append_left (by rw [sentFlags_length, hlen]) _
  rw [List.take_append_drop] at hsel
  simp only [offer, hlen, hsel, List.nil_append]

/-! ### What becomes of a message -/

/-- A message, and the answers to the parts of it that were tried. -/
structure Fate where
  msg : Msg
  sent : List Bool
deriving DecidableEq

namespace Fate

/-- All parts were tried, and taken. -/
def Whole (x : Fate) : Prop := x.sent = List.replicate x.msg.length true

/-- No part was taken. -/
def Refused (x : Fate) : Prop := ∀ b ∈ x.sent, b = false

/-- The last part was taken, the one that ends a message at the other end. -/
def Ended (x : Fate) : Prop := x.sent[x.msg.length - 1]? = some true

instance : DecidablePred Whole := fun x => inferInstanceAs (Decidable (x.sent = _))

instance : DecidablePred Refused := fun x => inferInstanceAs (Decidable (∀ b ∈ x.sent, b = false))

instance : DecidablePred Ended := fun x => inferInstanceAs (Decidable (x.sent[_]? = some true))

/-- What a message and answers to its parts, at most one to each, are like. -/
structure Proper (x : Fate) : Prop where
  ne_nil : x.msg ≠ []
  le : x.sent.length ≤ x.msg.length

theorem Whole.ended {x : Fate} (hx : x.Proper) (h : x.Whole) : x.Ended := by
  have hpos : 0 < x.msg.length := List.length_pos_iff.mpr hx.ne_nil
  rw [Ended, h, List.getElem?_replicate, if_pos (by omega)]

theorem Ended.not_refused {x : Fate} (h : x.Ended) : ¬ x.Refused := by
  intro hr
  exact Bool.noConfusion (hr true (List.mem_of_getElem? h))

theorem Whole.select {x : Fate} (h : x.Whole) : select x.msg x.sent = x.msg := by
  rw [h, select_all]

end Fate

/-- The messages of a stream, with the answers to its parts. -/
def fates : List Msg → List Bool → List Fate
  | [], _ => []
  | m :: ms, bs => ⟨m, bs.take m.length⟩ :: fates ms (bs.drop m.length)

/-- The messages that were taken whole. -/
def intact (xs : List Fate) : List Msg := (xs.filter (·.Whole)).map (·.msg)

/-- **No message is torn**: each was taken whole or refused whole, up to the last that is
ended. -/
def NeverTorn : List Fate → Prop
  | [] => True
  | x :: xs => ((∃ y ∈ x :: xs, y.Ended) → x.Whole ∨ x.Refused) ∧ NeverTorn xs

instance decidableNeverTorn : ∀ xs : List Fate, Decidable (NeverTorn xs)
  | [] => inferInstanceAs (Decidable True)
  | x :: xs =>
      have := decidableNeverTorn xs
      inferInstanceAs (Decidable (((∃ y ∈ x :: xs, y.Ended) → x.Whole ∨ x.Refused) ∧ NeverTorn xs))

theorem proper_fates : ∀ {ms : List Msg} (bs : List Bool), (∀ m ∈ ms, m ≠ []) →
    ∀ x ∈ fates ms bs, x.Proper := by
  intro ms
  induction ms with
  | nil => intro bs _ x hx; exact absurd hx List.not_mem_nil
  | cons m ms ih =>
      intro bs hms x hx
      obtain ⟨hm, hms⟩ := List.forall_mem_cons.mp hms
      rcases List.mem_cons.mp hx with rfl | hx
      · exact ⟨hm, List.length_take_le _ _⟩
      · exact ih _ hms x hx

/-- The whole messages are some of those sent, in their order. -/
theorem intact_sublist : ∀ (ms : List Msg) (bs : List Bool), (intact (fates ms bs)).Sublist ms := by
  intro ms
  induction ms with
  | nil => intro bs; exact List.Sublist.slnil
  | cons m ms ih =>
      intro bs
      by_cases h : (⟨m, bs.take m.length⟩ : Fate).Whole
      · simpa [fates, intact, h] using ih (bs.drop m.length)
      · simpa [fates, intact, h] using (ih (bs.drop m.length)).cons m

/-! ### What comes out -/

/-- The messages the other end puts together, when `cur` is what it has of one. -/
def joined (cur : Msg) : List Fate → List Msg
  | [] => []
  | x :: xs =>
      if x.Ended then (cur ++ select x.msg x.sent) :: joined [] xs
      else joined (cur ++ select x.msg x.sent) xs

/-- A message that is ended completes what was there; one that is not leaves it open. -/
theorem assemble_select {m : Msg} (hm : m ≠ []) : ∀ (cur : Msg) (bs : List Bool) (ps : List Part),
    assemble cur (select (parts m) bs ++ ps)
      = if (⟨m, bs⟩ : Fate).Ended
        then ((cur ++ select m bs) :: (assemble [] ps).1, (assemble [] ps).2)
        else assemble (cur ++ select m bs) ps := by
  induction m with
  | nil => exact absurd rfl hm
  | cons f rest ih =>
      intro cur bs ps
      cases bs with
      | nil => simp [Fate.Ended]
      | cons b bs =>
          cases rest with
          | nil => cases b <;> simp [Fate.Ended, assemble]
          | cons g rest =>
              have hended : (⟨f :: g :: rest, b :: bs⟩ : Fate).Ended
                  ↔ (⟨g :: rest, bs⟩ : Fate).Ended := by
                simp [Fate.Ended]
              have ih := ih (by simp)
              simp only [hended, parts_cons_cons, select_cons f, select_cons (⟨f, true⟩ : Part)]
              cases b with
              | true =>
                  simp only [if_true, List.cons_append, assemble]
                  rw [ih]
                  simp
              | false =>
                  simp only [Bool.false_eq_true, if_false]
                  exact ih cur bs ps

theorem assemble_fates : ∀ {ms : List Msg} (cur : Msg) (bs : List Bool), (∀ m ∈ ms, m ≠ []) →
    (assemble cur (select (stream ms) bs)).1 = joined cur (fates ms bs) := by
  intro ms
  induction ms with
  | nil => intro cur bs _; simp [assemble, joined, fates]
  | cons m ms ih =>
      intro cur bs hms
      obtain ⟨hm, hms⟩ := List.forall_mem_cons.mp hms
      rw [stream_cons, select_append, length_parts, assemble_select hm, fates, joined]
      split
      · simp only [ih [] _ hms]
      · rw [ih _ _ hms]

theorem length_joined : ∀ (xs : List Fate) (cur : Msg),
    (joined cur xs).length = xs.countP (·.Ended) := by
  intro xs
  induction xs with
  | nil => intro cur; rfl
  | cons x xs ih =>
      intro cur
      rw [joined, List.countP_cons]
      by_cases h : x.Ended <;> simp [h, ih]

/-- There are at least as many ended messages as whole ones. -/
theorem length_intact_le {xs : List Fate} (h : ∀ x ∈ xs, x.Proper) (cur : Msg) :
    (intact xs).length ≤ (joined cur xs).length := by
  rw [length_joined, intact, List.length_map, ← List.countP_eq_length_filter]
  exact List.countP_mono_left fun x hx hwhole => by
    simpa using Fate.Whole.ended (h x hx) (by simpa using hwhole)

/-- **What comes out is the whole messages exactly when none is torn** and what was open
before is not completed. -/
theorem joined_eq_intact_iff : ∀ {xs : List Fate}, (∀ x ∈ xs, x.Proper) → ∀ cur : Msg,
    joined cur xs = intact xs ↔ NeverTorn xs ∧ (cur = [] ∨ ¬ ∃ y ∈ xs, y.Ended) := by
  intro xs
  induction xs with
  | nil => intro _ cur; simp [joined, intact, NeverTorn]
  | cons x xs ih =>
      intro hxs cur
      obtain ⟨hx, hxs⟩ := List.forall_mem_cons.mp hxs
      have hsome : (∃ y ∈ x :: xs, y.Ended) ↔ x.Ended ∨ ∃ y ∈ xs, y.Ended := by simp
      rw [joined, NeverTorn, hsome]
      by_cases hended : x.Ended
      · rw [if_pos hended]
        by_cases hwhole : x.Whole
        · have hintact : intact (x :: xs) = x.msg :: intact xs := by simp [intact, hwhole]
          rw [hintact, hwhole.select, List.cons.injEq, ih hxs, List.append_left_eq_self]
          simp [hended, hwhole, and_comm]
        · have hintact : intact (x :: xs) = intact xs := by simp [intact, hwhole]
          -- one message too many comes out
          have hlen := length_intact_le hxs []
          rw [hintact]
          refine iff_of_false ?_ ?_
          · intro heq
            have hmore := congrArg List.length heq
            rw [List.length_cons] at hmore
            omega
          · intro h
            rcases h.1.1 (Or.inl hended) with hw | hr
            · exact hwhole hw
            · exact hended.not_refused hr
      · have hwhole : ¬ x.Whole := fun hw => hended (hw.ended hx)
        have hintact : intact (x :: xs) = intact xs := by simp [intact, hwhole]
        rw [if_neg hended, hintact, ih hxs, List.append_eq_nil_iff, select_eq_nil hx.le]
        simp only [hended, hwhole, false_or]
        show _ ∧ (cur = [] ∧ x.Refused ∨ _) ↔ _
        by_cases hlater : ∃ y ∈ xs, y.Ended
        · simp only [hlater, not_true, or_false, true_imp_iff]
          tauto
        · simp only [hlater, not_false_eq_true, or_true, false_imp_iff, true_and]

/-- **A stream comes out as its whole messages exactly when none is torn.** -/
theorem messages_select_iff {ms : List Msg} (hms : ∀ m ∈ ms, m ≠ []) (bs : List Bool) :
    messages (select (stream ms) bs) = intact (fates ms bs) ↔ NeverTorn (fates ms bs) := by
  rw [messages, assemble_fates [] bs hms, joined_eq_intact_iff (proper_fates bs hms)]
  simp

/-! ### Earlier

A message that was torn before is torn for ever. -/

theorem take_of_le {cs bs : List Bool} (h : cs <+: bs) {k : Nat} (hk : k ≤ cs.length) :
    bs.take k = cs.take k := by
  obtain ⟨ds, rfl⟩ := h
  rw [List.take_append_of_le_length hk]

/-- A message is ended only when its parts have been tried. -/
theorem length_le_of_ended {n : Msg} {cs : List Bool}
    (h : (⟨n, cs.take n.length⟩ : Fate).Ended) : n.length ≤ cs.length := by
  obtain ⟨hlt, -⟩ := List.getElem?_eq_some_iff.mp h
  rw [List.length_take] at hlt
  simp only at hlt
  omega

theorem not_ended_untried (ns : List Msg) : ¬ ∃ y ∈ fates ns [], y.Ended := by
  induction ns with
  | nil => simp [fates]
  | cons n ns ih =>
      rintro ⟨y, hy, hended⟩
      rw [fates, List.drop_nil, List.take_nil] at hy
      rcases List.mem_cons.mp hy with rfl | hy
      · simp [Fate.Ended] at hended
      · exact ih ⟨y, hy, hended⟩

/-- With an ended message from here on, the parts of this one have been tried. -/
theorem length_le_of_later {n : Msg} {ns : List Msg} {cs : List Bool}
    (h : ∃ y ∈ fates (n :: ns) cs, y.Ended) : n.length ≤ cs.length := by
  obtain ⟨y, hy, hended⟩ := h
  rcases List.mem_cons.mp hy with rfl | hy
  · exact length_le_of_ended hended
  · by_contra hlt
    rw [List.drop_eq_nil_of_le (Nat.le_of_not_le hlt)] at hy
    exact not_ended_untried ns ⟨y, hy, hended⟩

theorem ended_of_le : ∀ {ns ms : List Msg} {cs bs : List Bool}, ns <+: ms → cs <+: bs →
    (∃ y ∈ fates ns cs, y.Ended) → ∃ y ∈ fates ms bs, y.Ended := by
  intro ns
  induction ns with
  | nil => intro ms cs bs _ _ h; simp [fates] at h
  | cons n ns ih =>
      intro ms cs bs hns hcs h
      obtain ⟨ms, rfl, hms⟩ := List.cons_prefix_iff.mp hns
      have hle := length_le_of_later h
      rw [fates, take_of_le hcs hle]
      obtain ⟨y, hy, hended⟩ := h
      rcases List.mem_cons.mp hy with rfl | hy
      · exact ⟨_, List.mem_cons_self, hended⟩
      · obtain ⟨z, hz, hended⟩ := ih hms (hcs.drop n.length) ⟨y, hy, hended⟩
        exact ⟨z, List.mem_cons_of_mem _ hz, hended⟩

theorem NeverTorn.of_le : ∀ {ns ms : List Msg} {cs bs : List Bool}, ns <+: ms → cs <+: bs →
    NeverTorn (fates ms bs) → NeverTorn (fates ns cs) := by
  intro ns
  induction ns with
  | nil => intro ms cs bs _ _ _; trivial
  | cons n ns ih =>
      intro ms cs bs hns hcs h
      obtain ⟨ms, rfl, hms⟩ := List.cons_prefix_iff.mp hns
      refine ⟨?_, ih hms (hcs.drop n.length) h.2⟩
      intro hended
      have hhead := h.1 (ended_of_le hns hcs hended)
      rwa [take_of_le hcs (length_le_of_later hended)] at hhead

end Refusals
