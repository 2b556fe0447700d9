/-
The loops of the relays, execution by execution: `relay_snd_more`, `drain_left_part_message`
and `mq_relay_callback_sub_to_pub`.

`relaySndMore` and the others are functions and so always return.  Here each loop is a relation
with one rule for every way through its body, and an execution that returns is a derivation: a
loop that goes on for ever has none.  The socket that is sent on may be any machine, and answer
anything to any send.  Where it is one that `Out` describes an execution ends as the function
says.
-/
import Brocoli.Relay
import Brocoli.Lib.Retry

namespace Brocoli

open CMem Multipart Retry

section Loops

variable {D : Type}

/-- What an execution of `relay_snd_more` leaves, as in `Relayed`, and the parts that the socket
has taken. -/
structure RelayEnd (D : Type) where
  rc : Option Errno
  src : In
  dst : D
  svcHost : Option (List Byte)
  sent : List Part

/-- The caller's `svc_host` after a send of `f` has failed. -/
def hostAfter (e : Errno) (f : Frame) (svcHost : Option (List Byte)) : Option (List Byte) :=
  if e = .EHOSTUNREACH then svcHost.map fun mem => store mem 0 (cstr f ++ [0]) else svcHost

/-- `relay_snd_more` -/
inductive RelaysMore (send : D → Part → Option Errno × D) :
    In → D → Option (List Byte) → RelayEnd D → Prop
  | dry {more : Bool} {dst : D} {svcHost : Option (List Byte)} :
      RelaysMore send ⟨[], more⟩ dst svcHost ⟨none, ⟨[], more⟩, dst, svcHost, []⟩
  | failed {p : Part} {q : List Part} {more : Bool} {dst dst' : D} {svcHost : Option (List Byte)}
      {e : Errno} (hsend : Settles send .EINTR ⟨buffered p.bytes, p.more⟩ dst (some e) dst') :
      RelaysMore send ⟨p :: q, more⟩ dst svcHost
        ⟨some e, ⟨q, p.more⟩, dst', hostAfter e (buffered p.bytes) svcHost, []⟩
  | last {p : Part} {q : List Part} {more : Bool} {dst dst' : D} {svcHost : Option (List Byte)}
      (hsend : Settles send .EINTR ⟨buffered p.bytes, p.more⟩ dst none dst')
      (hmore : p.more = false) :
      RelaysMore send ⟨p :: q, more⟩ dst svcHost
        ⟨none, ⟨q, p.more⟩, dst', svcHost, [⟨buffered p.bytes, p.more⟩]⟩
  | next {p : Part} {q : List Part} {more : Bool} {dst dst₁ : D} {svcHost : Option (List Byte)}
      {r : RelayEnd D} (hsend : Settles send .EINTR ⟨buffered p.bytes, p.more⟩ dst none dst₁)
      (hmore : p.more = true) (rest : RelaysMore send ⟨q, p.more⟩ dst₁ svcHost r) :
      RelaysMore send ⟨p :: q, more⟩ dst svcHost
        { r with sent := ⟨buffered p.bytes, p.more⟩ :: r.sent }

/-- `drain_left_part_message`.  With `RCVMORE` set and nothing to read it goes round and round. -/
inductive DrainsLeft : In → In → Prop
  | stop {q : List Part} : DrainsLeft ⟨q, false⟩ ⟨q, false⟩
  | read {p : Part} {q : List Part} {t : In} (rest : DrainsLeft ⟨q, p.more⟩ t) :
      DrainsLeft ⟨p :: q, true⟩ t
  | spin {t : In} (rest : DrainsLeft ⟨[], true⟩ t) : DrainsLeft ⟨[], true⟩ t

/-- The parts that were read between two states of a socket. -/
def readParts (s s' : In) : List Part := s.queue.take (s.queue.length - s'.queue.length)

/-- What an execution of `mq_relay_callback_sub_to_pub` leaves: the sockets, the parts that were
read in each iteration, and the parts that were taken. -/
structure SubToPubEnd (D : Type) where
  src : In
  dst : D
  read : List (List Part)
  sent : List Part

/-- The loop of `mq_relay_callback_sub_to_pub`, when `relay_cnt` leaves it so many messages. -/
inductive RunsSubToPub (send : D → Part → Option Errno × D) : Nat → In → D → SubToPubEnd D → Prop
  | limit {src : In} {dst : D} : RunsSubToPub send 0 src dst ⟨src, dst, [], []⟩
  | dry {n : Nat} {more : Bool} {dst : D} :
      RunsSubToPub send (n + 1) ⟨[], more⟩ dst ⟨⟨[], more⟩, dst, [], []⟩
  | failed {n : Nat} {p : Part} {q : List Part} {more : Bool} {src' : In} {dst : D}
      {r : RelayEnd D} {e : Errno} (hrelay : RelaysMore send ⟨q, p.more⟩ dst none r)
      (hrc : r.rc = some e) (hdrain : DrainsLeft r.src src') :
      RunsSubToPub send (n + 1) ⟨p :: q, more⟩ dst
        ⟨src', r.dst, [readParts ⟨p :: q, more⟩ src'], r.sent⟩
  | next {n : Nat} {p : Part} {q : List Part} {more : Bool} {dst : D} {r : RelayEnd D}
      {t : SubToPubEnd D} (hrelay : RelaysMore send ⟨q, p.more⟩ dst none r) (hrc : r.rc = none)
      (rest : RunsSubToPub send n r.src r.dst t) :
      RunsSubToPub send (n + 1) ⟨p :: q, more⟩ dst
        ⟨t.src, t.dst, readParts ⟨p :: q, more⟩ r.src :: t.read, r.sent ++ t.sent⟩

/-! ### One way only

Nothing is left open to an execution.
-/

variable {send : D → Part → Option Errno × D}

theorem RelaysMore.unique {src : In} {dst : D} {svcHost : Option (List Byte)} {r : RelayEnd D}
    (h : RelaysMore send src dst svcHost r) : ∀ {q : RelayEnd D},
    RelaysMore send src dst svcHost q → q = r := by
  induction h with
  | dry =>
      intro q h'
      cases h'
      rfl
  | failed hsend =>
      intro q h'
      cases h' with
      | failed hsend' =>
          obtain ⟨he, rfl⟩ := hsend.unique hsend'
          obtain rfl := Option.some.inj he
          rfl
      | last hsend' _ => exact absurd (hsend.unique hsend').1 (by simp)
      | next hsend' _ _ => exact absurd (hsend.unique hsend').1 (by simp)
  | last hsend hmore =>
      intro q h'
      cases h' with
      | failed hsend' => exact absurd (hsend.unique hsend').1 (by simp)
      | last hsend' _ =>
          obtain ⟨-, rfl⟩ := hsend.unique hsend'
          rfl
      | next _ hmore' _ => exact absurd hmore' (by simp [hmore])
  | next hsend hmore _ ih =>
      intro q h'
      cases h' with
      | failed hsend' => exact absurd (hsend.unique hsend').1 (by simp)
      | last _ hmore' => exact absurd hmore (by simp [hmore'])
      | next hsend' _ rest =>
          obtain ⟨-, rfl⟩ := hsend.unique hsend'
          rw [ih rest]

theorem DrainsLeft.unique {s t : In} (h : DrainsLeft s t) : ∀ {u : In}, DrainsLeft s u → u = t := by
  induction h with
  | stop =>
      intro u h'
      cases h'
      rfl
  | read _ ih =>
      intro u h'
      cases h' with
      | read rest => exact ih rest
  | spin _ ih =>
      intro u h'
      exact ih h'

theorem RunsSubToPub.unique {n : Nat} {src : In} {dst : D} {t : SubToPubEnd D}
    (h : RunsSubToPub send n src dst t) : ∀ {u : SubToPubEnd D},
    RunsSubToPub send n src dst u → u = t := by
  induction h with
  | limit =>
      intro u h'
      cases h'
      rfl
  | dry =>
      intro u h'
      cases h'
      rfl
  | failed hrelay hrc hdrain =>
      intro u h'
      cases h' with
      | failed hrelay' _ hdrain' =>
          obtain rfl := hrelay.unique hrelay'
          rw [hdrain.unique hdrain']
      | next hrelay' hrc' _ =>
          obtain rfl := hrelay.unique hrelay'
          exact absurd hrc (by simp [hrc'])
  | next hrelay hrc _ ih =>
      intro u h'
      cases h' with
      | failed hrelay' hrc' _ =>
          obtain rfl := hrelay.unique hrelay'
          exact absurd hrc (by simp [hrc'])
      | next hrelay' _ rest =>
          obtain rfl := hrelay.unique hrelay'
          rw [ih rest]

end Loops

/-! ### Sockets that refuse some of the sends -/

/-- `errno` after a send, when it has failed. -/
def errnoOf : Except Errno Nat → Option Errno
  | .ok _ => none
  | .error e => some e

def attempt (o : Out) (p : Part) : Option Errno × Out :=
  (errnoOf (o.send p.bytes p.more).1, (o.send p.bytes p.more).2)

/-- An interruption uses up an answer. -/
theorem length_verdict (o : Out) (f : Frame) (more : Bool) :
    (if (o.verdict f more).1 = some .EINTR then 1 else 0) + (o.verdict f more).2.length
      ≤ o.results.length := by
  have hused : (if o.results.headD none = some .EINTR then 1 else 0) + o.results.tail.length
      ≤ o.results.length := by
    cases o.results with
    | nil => simp
    | cons r rs =>
        rw [List.headD_cons, List.tail_cons, List.length_cons]
        split <;> omega
  unfold Out.verdict
  cases o.kind with
  | pub => simp
  | pipe => exact hused
  | router reach =>
      by_cases hopen : (o.isOpen || !more) = true
      · simp [hopen]
      · by_cases hreach : reach f = true
        · simpa [hopen, hreach] using hused
        · simp [hopen, hreach]

theorem attempt_eq (o : Out) (p : Part) :
    (attempt o p).1 = (o.verdict p.bytes p.more).1 ∧
      (attempt o p).2.results = (o.verdict p.bytes p.more).2 := by
  unfold attempt Out.send
  rcases o.verdict p.bytes p.more with ⟨_ | e, rs⟩
  · exact ⟨rfl, rfl⟩
  · exact ⟨rfl, rfl⟩

theorem length_results_attempt (o : Out) (p : Part) :
    (if (attempt o p).1 = some .EINTR then 1 else 0) + (attempt o p).2.results.length
      ≤ o.results.length := by
  obtain ⟨herr, hres⟩ := attempt_eq o p
  rw [herr, hres]
  exact length_verdict o p.bytes p.more

theorem finitelyInterrupted_attempt (o : Out) : FinitelyInterrupted attempt .EINTR o := by
  refine finitelyInterrupted_measure (fun o => o.results.length) ?_ ?_ o
  · intro o p
    have hused := length_results_attempt o p
    omega
  · intro o p hintr
    have hused := length_results_attempt o p
    rw [if_pos hintr] at hused
    omega

/-- With as many tries as there are answers left no send is interrupted at the end. -/
theorem settles_retry : ∀ (n : Nat) (o : Out) (p : Part), o.results.length ≤ n →
    Settles attempt .EINTR p o (errnoOf (retry n o p.bytes p.more).1)
      (retry n o p.bytes p.more).2 := by
  intro n
  induction n with
  | zero =>
      intro o p hn
      refine .answered fun hintr => ?_
      have hstep := length_results_attempt o p
      rw [if_pos hintr] at hstep
      omega
  | succ n ih =>
      intro o p hn
      by_cases hintr : (attempt o p).1 = some .EINTR
      · have hstep := length_results_attempt o p
        rw [if_pos hintr] at hstep
        have hretry : retry (n + 1) o p.bytes p.more = retry n (attempt o p).2 p.bytes p.more := by
          rw [retry]
          unfold attempt at hintr ⊢
          rcases hsend : o.send p.bytes p.more with ⟨e | k, o'⟩
          · rw [hsend] at hintr
            obtain rfl := Option.some.inj hintr
            rfl
          · rw [hsend] at hintr
            exact absurd hintr (by simp [errnoOf])
        rw [hretry]
        exact .again hintr (ih _ p (by omega))
      · have hretry : retry (n + 1) o p.bytes p.more = o.send p.bytes p.more := by
          rw [retry]
          unfold attempt at hintr
          rcases hsend : o.send p.bytes p.more with ⟨e | k, o'⟩
          · rw [hsend] at hintr
            cases e with
            | EINTR => exact absurd rfl hintr
            | _ => rfl
          · rfl
        rw [hretry]
        exact .answered hintr

theorem settles_sendRetry (o : Out) (p : Part) :
    Settles attempt .EINTR p o (errnoOf (sendRetry o p.bytes p.more).1)
      (sendRetry o p.bytes p.more).2 := settles_retry _ o p (Nat.le_refl _)

theorem sent_attempt (o : Out) (p : Part) :
    (attempt o p).2.sent = o.sent ++ if (attempt o p).1 = none then [p] else [] := by
  unfold attempt
  rcases hsend : o.send p.bytes p.more with ⟨e | k, o'⟩
  · simp [errnoOf, send_error hsend]
  · simp [errnoOf, (send_ok hsend).2]

theorem sent_settles {p : Part} {o o' : Out} {r : Option Errno}
    (h : Settles attempt .EINTR p o r o') : o'.sent = o.sent ++ if r = none then [p] else [] := by
  induction h with
  | answered _ => exact sent_attempt _ p
  | again hintr _ ih =>
      rw [ih, sent_attempt, hintr]
      simp

/-- What an execution says it has sent is what the socket has got. -/
theorem sent_relaysMore {src : In} {o : Out} {svcHost : Option (List Byte)} {r : RelayEnd Out}
    (h : RelaysMore attempt src o svcHost r) : r.dst.sent = o.sent ++ r.sent := by
  induction h with
  | dry => simp
  | failed hsend => simpa using sent_settles hsend
  | last hsend _ => simpa using sent_settles hsend
  | next hsend _ _ ih =>
      rw [ih, sent_settles hsend]
      simp

/-- **An execution of `relay_snd_more` ends, and as `relaySndMore` says.** -/
theorem exists_relaysMore (src : In) (o : Out) (svcHost : Option (List Byte)) :
    ∃ r, RelaysMore attempt src o svcHost r ∧
      relaySndMore src o svcHost = ⟨r.rc, r.src, r.dst, r.svcHost⟩ := by
  obtain ⟨q, more⟩ := src
  unfold relaySndMore
  induction q generalizing more o with
  | nil => exact ⟨_, .dry, rfl⟩
  | cons p q ih =>
      have hsend := settles_sendRetry o ⟨buffered p.bytes, p.more⟩
      rw [relayParts]
      rcases hs : sendRetry o (buffered p.bytes) p.more with ⟨e | k, o'⟩
      · rw [hs] at hsend
        exact ⟨_, .failed hsend, rfl⟩
      · rw [hs] at hsend
        by_cases hmore : p.more = true
        · obtain ⟨r, hr, heq⟩ := ih o' p.more
          simp only [if_pos hmore]
          exact ⟨_, .next hsend hmore hr, heq⟩
        · simp only [if_neg hmore]
          rw [Bool.not_eq_true] at hmore
          exact ⟨_, .last hsend hmore, rfl⟩

theorem relaySndMore_eq {src : In} {o : Out} {svcHost : Option (List Byte)} {r : RelayEnd Out}
    (h : RelaysMore attempt src o svcHost r) :
    relaySndMore src o svcHost = ⟨r.rc, r.src, r.dst, r.svcHost⟩ := by
  obtain ⟨r', h', heq⟩ := exists_relaysMore src o svcHost
  obtain rfl := h.unique h'
  exact heq

/-- Draining that ends does so as `drainLeftPartMessage` says. -/
theorem DrainsLeft.eq {s t : In} (h : DrainsLeft s t) : t = drainLeftPartMessage s := by
  induction h with
  | @stop q => cases q <;> rfl
  | read _ ih => exact ih
  | spin _ ih => exact ih

/-- **An execution of `mq_relay_callback_sub_to_pub` that ends does so as the function says.** -/
theorem RunsSubToPub.eq {n : Nat} {src : In} {o : Out} {t : SubToPubEnd Out}
    (h : RunsSubToPub attempt n src o t) : subToPubLoop n src o = (t.src, t.dst) := by
  induction h with
  | limit => rfl
  | dry => rfl
  | failed hrelay hrc hdrain =>
      rw [subToPubLoop, recv_cons]
      simp only [relaySndMore_eq hrelay, hrc, ← hdrain.eq]
  | next hrelay hrc _ ih =>
      rw [subToPubLoop, recv_cons]
      simp only [relaySndMore_eq hrelay, hrc, ih]

theorem sent_runsSubToPub {n : Nat} {src : In} {o : Out} {t : SubToPubEnd Out}
    (h : RunsSubToPub attempt n src o t) : t.dst.sent = o.sent ++ t.sent := by
  induction h with
  | limit => simp
  | dry => simp
  | failed hrelay _ _ => exact sent_relaysMore hrelay
  | next hrelay _ _ ih => rw [ih, sent_relaysMore hrelay, List.append_assoc]

end Brocoli
