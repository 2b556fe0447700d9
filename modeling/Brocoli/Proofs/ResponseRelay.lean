/-
The relay of the responses, run after run.

`mq_relay_callback_sub_to_pub` takes the first frame of a message and gives the rest to
`relay_snd_more`.  Where that stops in the middle it has read the frame that did not go, and
`drain_left_part_message` reads on from there until `RCVMORE` is down, which it is behind the
last frame of the same message, whether that was the one that did not go or not.  So each
message is read to its end and no further, and the next begins where the reader is.
-/
import Brocoli.Proofs.RelaySpec

namespace Brocoli

open CMem Multipart Retry

section Responses

variable {D : Type} {send : D → Part → Option Errno × D}

/-- What becomes of messages at the socket they are relayed to, and the parts it takes of them:
all of the message but its first frame, or what is in front of the first that does not go. -/
inductive Forwarded (send : D → Part → Option Errno × D) : D → List Msg → D → List Part → Prop
  | nil {dst : D} : Forwarded send dst [] dst []
  | whole {dst dst₁ dst' : D} {m : Msg} {ms : List Msg} {sent : List Part}
      (h : Passes send .EINTR dst (parts m.tail) dst₁) (rest : Forwarded send dst₁ ms dst' sent) :
      Forwarded send dst (m :: ms) dst' (parts m.tail ++ sent)
  | drained {dst dst₁ dst' : D} {m : Msg} {ms : List Msg} {i : Nat} {e : Errno}
      {sent : List Part} (h : FailsAt send .EINTR dst (parts m.tail) i e dst₁)
      (rest : Forwarded send dst₁ ms dst' sent) :
      Forwarded send dst (m :: ms) dst' ((parts m.tail).take i ++ sent)

theorem Forwarded.append {dst dst₁ dst' : D} {ms ns : List Msg} {sent more : List Part}
    (h : Forwarded send dst ms dst₁ sent) (h' : Forwarded send dst₁ ns dst' more) :
    Forwarded send dst (ms ++ ns) dst' (sent ++ more) := by
  induction h with
  | nil => exact h'
  | whole hpass _ ih =>
      rw [List.append_assoc]
      exact .whole hpass (ih h')
  | drained hfails _ ih =>
      rw [List.append_assoc]
      exact .drained hfails (ih h')

theorem finitelyInterrupted_forwarded {dst dst' : D} {ms : List Msg} {sent : List Part}
    (hfin : FinitelyInterrupted send .EINTR dst) (h : Forwarded send dst ms dst' sent) :
    FinitelyInterrupted send .EINTR dst' := by
  induction h with
  | nil => exact hfin
  | whole hpass _ ih => exact ih (hfin.passes hpass)
  | drained hfails _ ih => exact ih (hfin.failsAt hfails)

/-- A message with a frame behind the first, and frames that fit. -/
def HasRest (m : Msg) : Prop := 2 ≤ m.length ∧ Relayable m

instance (m : Msg) : Decidable (HasRest m) := inferInstanceAs (Decidable (_ ∧ _))

/-! ### One run -/

/-- **Draining ends at the boundary behind the message.** -/
theorem drainsLeft_parts (m : Msg) (q : List Part) :
    DrainsLeft ⟨parts m ++ q, decide (0 < m.length)⟩ ⟨q, false⟩ := by
  induction m with
  | nil => exact .stop
  | cons f rest ih =>
      cases rest with
      | nil => exact .read .stop
      | cons g rest => exact .read ih

theorem drainsLeft_drop (m : Msg) (k : Nat) (q : List Part) :
    DrainsLeft ⟨parts (m.drop k) ++ q, decide (k < m.length)⟩ ⟨q, false⟩ := by
  have hleft : decide (k < m.length) = decide (0 < (m.drop k).length) := by
    rw [List.length_drop]
    exact decide_eq_decide.mpr (by omega)
  rw [hleft]
  exact drainsLeft_parts (m.drop k) q

theorem readParts_append (ps q : List Part) (more more' : Bool) :
    readParts ⟨ps ++ q, more⟩ ⟨q, more'⟩ = ps := by
  simp [readParts]

theorem HasRest.split {m : Msg} (h : HasRest m) :
    ∃ topic f fs, m = topic :: f :: fs ∧ Relayable (f :: fs) := by
  obtain ⟨hlen, hfits⟩ := h
  rcases m with _ | ⟨topic, _ | ⟨f, fs⟩⟩
  · simp at hlen
  · simp at hlen
  · exact ⟨topic, f, fs, rfl, (List.forall_mem_cons.mp hfits).2⟩

variable {n : Nat} {dst dst₁ : D} {m : Msg} {ms : List Msg}

/-- The first message goes, and the run goes on behind it. -/
theorem runs_whole (hm : HasRest m) (hpass : Passes send .EINTR dst (parts m.tail) dst₁)
    {t : SubToPubEnd D} (hrun : RunsSubToPub send n (In.holding ms) dst₁ t) :
    RunsSubToPub send (n + 1) (In.holding (m :: ms)) dst
      ⟨t.src, t.dst, parts m :: t.read, parts m.tail ++ t.sent⟩ := by
  obtain ⟨topic, f, fs, rfl, hbody⟩ := hm.split
  have hrelay := relaysMore_passes (by simp) hbody (stream ms) true hpass none
  have hread := readParts_append (parts (topic :: f :: fs)) (stream ms) false false
  have hnext : RunsSubToPub send (n + 1) (In.holding ((topic :: f :: fs) :: ms)) dst _ :=
    .next hrelay rfl hrun
  rw [← hread]
  exact hnext

/-- The first message does not go, and the run ends behind it. -/
theorem runs_drained (hm : HasRest m) {i : Nat} {e : Errno}
    (hfails : FailsAt send .EINTR dst (parts m.tail) i e dst₁) :
    RunsSubToPub send (n + 1) (In.holding (m :: ms)) dst
      ⟨In.holding ms, dst₁, [parts m], (parts m.tail).take i⟩ := by
  obtain ⟨topic, f, fs, rfl, hbody⟩ := hm.split
  have hrelay := relaysMore_failsAt hbody (stream ms) true hfails none
  have hdrain := drainsLeft_drop (f :: fs) (i + 1) (stream ms)
  have hread := readParts_append (parts (topic :: f :: fs)) (stream ms) false false
  have hfailed : RunsSubToPub send (n + 1) (In.holding ((topic :: f :: fs) :: ms)) dst _ :=
    .failed hrelay rfl hdrain
  rw [← hread]
  exact hfailed

/-- A run takes messages from the front of the queue, each to its end. -/
theorem exists_run (n : Nat) {dst : D} (hfin : FinitelyInterrupted send .EINTR dst)
    {ms : List Msg} (hms : ∀ m ∈ ms, HasRest m) :
    ∃ t consumed rest, RunsSubToPub send n (In.holding ms) dst t ∧ ms = consumed ++ rest ∧
      t.src = In.holding rest ∧ t.read = consumed.map parts ∧
      Forwarded send dst consumed t.dst t.sent := by
  induction n generalizing ms dst with
  | zero => exact ⟨_, [], ms, .limit, rfl, rfl, rfl, .nil⟩
  | succ n ih =>
      cases ms with
      | nil => exact ⟨_, [], [], .dry, rfl, rfl, rfl, .nil⟩
      | cons m ms =>
          obtain ⟨hm, hrest⟩ := List.forall_mem_cons.mp hms
          rcases hfin.passes_or_failsAt (parts m.tail) with ⟨dst₁, hpass⟩ | ⟨i, e, dst₁, hfails⟩
          · obtain ⟨t, consumed, rest, hrun, rfl, hsrc, hread, hforwarded⟩ :=
              ih (hfin.passes hpass) hrest
            exact ⟨_, m :: consumed, rest, runs_whole hm hpass hrun, rfl, hsrc,
              congrArg (parts m :: ·) hread, .whole hpass hforwarded⟩
          · have hforwarded : Forwarded send dst [m] dst₁ _ := .drained hfails .nil
            rw [List.append_nil] at hforwarded
            exact ⟨_, [m], ms, runs_drained hm hfails, rfl, rfl, rfl, hforwarded⟩

/-! ### Any number of runs -/

/-- The sockets of the relay, the parts read so far, message by message, and the parts that were
taken. -/
structure ResponseRelay (D : Type) where
  sub : In
  pub : D
  read : List (List Part)
  sent : List Part

/-- A message comes in, or the callback is called. -/
inductive ResponseStep where
  | arrive (m : Msg)
  | run

namespace ResponseStep

def msg? : ResponseStep → Option Msg
  | .arrive m => some m
  | .run => none

def arrivals (es : List ResponseStep) : List Msg := es.filterMap msg?

end ResponseStep

/-- The relay goes through the steps, and each run ends. -/
inductive Responds (send : D → Part → Option Errno × D) :
    ResponseRelay D → List ResponseStep → ResponseRelay D → Prop
  | nil {s : ResponseRelay D} : Responds send s [] s
  | arrive {s t : ResponseRelay D} {m : Msg} {es : List ResponseStep}
      (rest : Responds send { s with sub := s.sub.arrive m } es t) :
      Responds send s (.arrive m :: es) t
  | run {s t : ResponseRelay D} {r : SubToPubEnd D} {es : List ResponseStep}
      (h : RunsSubToPub send 1000 s.sub s.pub r)
      (rest : Responds send ⟨r.src, r.dst, s.read ++ r.read, s.sent ++ r.sent⟩ es t) :
      Responds send s (.run :: es) t

theorem Responds.unique {s t : ResponseRelay D} {es : List ResponseStep}
    (h : Responds send s es t) : ∀ {u : ResponseRelay D}, Responds send s es u → u = t := by
  induction h with
  | nil =>
      intro u h'
      cases h'
      rfl
  | arrive _ ih =>
      intro u h'
      cases h' with
      | arrive rest => exact ih rest
  | run hrun _ ih =>
      intro u h'
      cases h' with
      | run hrun' rest =>
          obtain rfl := hrun.unique hrun'
          exact ih rest

/-- From `s` with the messages `ms`, the relay comes to the boundary behind some of them: the
parts it has read are theirs, message by message, and what was sent is what became of them. -/
def ReachesBoundary (send : D → Part → Option Errno × D) (s : ResponseRelay D) (ms : List Msg)
    (t : ResponseRelay D) : Prop :=
  ∃ consumed rest sent, ms = consumed ++ rest ∧ t.sub = In.holding rest ∧
    t.read = s.read ++ consumed.map parts ∧ t.sent = s.sent ++ sent ∧
    Forwarded send s.pub consumed t.pub sent

theorem exists_responds : ∀ {es : List ResponseStep} {s : ResponseRelay D} {ms : List Msg},
    s.sub = In.holding ms → FinitelyInterrupted send .EINTR s.pub →
    (∀ m ∈ ms ++ ResponseStep.arrivals es, HasRest m) →
    ∃ t, Responds send s es t ∧ ReachesBoundary send s (ms ++ ResponseStep.arrivals es) t := by
  intro es
  induction es with
  | nil =>
      intro s ms hsub _ _
      have hnil : ms ++ ResponseStep.arrivals [] = [] ++ ms := by simp [ResponseStep.arrivals]
      exact ⟨s, .nil, [], ms, [], hnil, hsub, by simp, by simp, .nil⟩
  | cons e es ih =>
      intro s ms hsub hfin hms
      cases e with
      | arrive m =>
          have harrivals : ms ++ ResponseStep.arrivals (.arrive m :: es)
              = (ms ++ [m]) ++ ResponseStep.arrivals es := by
            simp [ResponseStep.arrivals, ResponseStep.msg?]
          rw [harrivals] at hms ⊢
          have hsub' : s.sub.arrive m = In.holding (ms ++ [m]) := by rw [hsub, holding_arrive]
          obtain ⟨t, ht, hboundary⟩ := ih (s := { s with sub := s.sub.arrive m }) hsub' hfin hms
          exact ⟨t, .arrive ht, hboundary⟩
      | run =>
          have harrivals : ResponseStep.arrivals (.run :: es) = ResponseStep.arrivals es := rfl
          rw [harrivals] at hms ⊢
          obtain ⟨r, consumed, rest, hrun, rfl, hsrc, hread, hforwarded⟩ :=
            exists_run 1000 hfin fun m hm => hms m (List.mem_append_left _ hm)
          rw [List.append_assoc] at hms ⊢
          rw [← hsub] at hrun
          obtain ⟨t, ht, later, rest', sent, heq, hsub', hread', hsent', hforwarded'⟩ :=
            ih (s := ⟨r.src, r.dst, s.read ++ r.read, s.sent ++ r.sent⟩) hsrc
              (finitelyInterrupted_forwarded hfin hforwarded)
              fun m hm => hms m (List.mem_append_right _ hm)
          refine ⟨t, .run hrun ht, consumed ++ later, rest', r.sent ++ sent, ?_, hsub', ?_, ?_,
            hforwarded.append hforwarded'⟩
          · rw [heq, List.append_assoc]
          · rw [hread', hread, List.map_append, List.append_assoc]
          · rw [hsent', List.append_assoc]

/-- **The relay of the responses is at the boundary of a message after every run**, whatever the
socket it sends on answers, if it interrupts finitely often: any runs end, and in one way, the
messages they have taken off the queue are whole, the parts read for each are its own, and each
was passed on without its first frame or read to its end behind a frame that did not go. -/
theorem responses_at_boundary {ms : List Msg} (hms : ∀ m ∈ ms, HasRest m) {pub : D}
    (hfin : FinitelyInterrupted send .EINTR pub) (es : List ResponseStep)
    (hes : ∀ m ∈ ResponseStep.arrivals es, HasRest m) :
    ∃ t, Responds send ⟨In.holding ms, pub, [], []⟩ es t ∧
      (∀ t', Responds send ⟨In.holding ms, pub, [], []⟩ es t' → t' = t) ∧
      ∃ consumed rest, ms ++ ResponseStep.arrivals es = consumed ++ rest ∧
        t.sub = In.holding rest ∧ t.read = consumed.map parts ∧
        Forwarded send pub consumed t.pub t.sent := by
  have hall : ∀ m ∈ ms ++ ResponseStep.arrivals es, HasRest m :=
    List.forall_mem_append.mpr ⟨hms, hes⟩
  obtain ⟨t, ht, consumed, rest, sent, heq, hsub, hread, hsent, hforwarded⟩ :=
    exists_responds (s := ⟨In.holding ms, pub, [], []⟩) rfl hfin hall
  rw [List.nil_append] at hread hsent
  rw [← hsent] at hforwarded
  exact ⟨t, ht, fun t' ht' => ht.unique ht', consumed, rest, heq, hsub, hread, hforwarded⟩

end Responses

/-- Of two responses the one is drained behind the frame that does not go, and the other stays. -/
theorem responses_at_boundary_drained :
    ∃ t, Responds (answering thirdUnreached)
        ⟨In.holding [[lit "AHIF", lit "c1", lit "hi"], [lit "AHIF", lit "c2"]], 0, [], []⟩
        [.run] t ∧
      t.sub = In.holding [[lit "AHIF", lit "c2"]] ∧
      t.read = [parts [lit "AHIF", lit "c1", lit "hi"]] ∧ t.sent = [⟨lit "c1", true⟩] := by
  have hms : ∀ m ∈ [[lit "AHIF", lit "c1", lit "hi"], [lit "AHIF", lit "c2"]], HasRest m := by
    decide
  obtain ⟨t, ht, hunique, -⟩ := responses_at_boundary hms finitelyInterrupted_thirdUnreached
    [.run] (by simp [ResponseStep.arrivals, ResponseStep.msg?])
  have hdrained : RunsSubToPub (answering thirdUnreached) 1000
      (In.holding [[lit "AHIF", lit "c1", lit "hi"], [lit "AHIF", lit "c2"]]) 0 _ :=
    runs_drained (hms _ (by simp)) (failsAt_thirdUnreached (lit "c1") (lit "hi") false)
  have hrun := hunique _ (.run hdrained .nil)
  refine ⟨t, ht, ?_⟩
  rw [← hrun]
  exact ⟨rfl, rfl, rfl⟩

/-! ### Sockets that refuse some of the sends -/

/-- A run of the function is at a boundary too, whatever the socket refuses. -/
theorem mqRelayCallbackSubToPub_boundary (o : Out) {ms : List Msg} (hms : ∀ m ∈ ms, HasRest m) :
    ∃ dst consumed rest sent,
      mqRelayCallbackSubToPub (In.holding ms) o = (In.holding rest, dst) ∧
      ms = consumed ++ rest ∧ dst.sent = o.sent ++ sent ∧
      Forwarded attempt o consumed dst sent := by
  obtain ⟨t, consumed, rest, hrun, heq, hsrc, -, hforwarded⟩ :=
    exists_run 1000 (finitelyInterrupted_attempt o) hms
  refine ⟨t.dst, consumed, rest, t.sent, ?_, heq, sent_runsSubToPub hrun, hforwarded⟩
  rw [mqRelayCallbackSubToPub, hrun.eq, hsrc]

end Brocoli
