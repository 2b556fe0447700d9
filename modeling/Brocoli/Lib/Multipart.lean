/-
Multipart message sockets.

A message is a list of frames.  A socket hands them out one at a time, each with a
flag saying whether more frames of the same message follow, and takes them the same
way.  So the receiving half of a socket is the list of parts still to be read
together with the flag of the part read last, and the sending half is the list of
parts it has accepted.

Messages arrive whole, so what a fresh socket holds is `stream ms` for the messages
`ms` that are waiting.  A reader stands at a message boundary exactly when what is
left is again such a stream and the flag is down.

What a send can answer depends on the kind of socket.
  * A publisher never refuses: a message no one can take is dropped.
  * A router, told to report unroutable peers, decides on the first frame, which
    names the peer: the peer is unknown, or its queue is full, or the whole message
    is taken.
  * Any other socket may refuse any part.
`results` is what the sends that can be refused will answer, in order, and nothing
is refused once it is used up.  A refused part is not transferred.
-/
import Mathlib.Data.List.Basic
import Mathlib.Data.List.Infix
import Mathlib.Tactic.Common

namespace Multipart

abbrev Frame := List UInt8

/-- A multipart message: its frames in order. -/
abbrev Msg := List Frame

/-- A frame on a socket, with its MORE flag. -/
structure Part where
  bytes : Frame
  more : Bool
deriving DecidableEq

/-- The parts a message travels as. -/
def parts : Msg → List Part
  | [] => []
  | [f] => [⟨f, false⟩]
  | f :: g :: rest => ⟨f, true⟩ :: parts (g :: rest)

/-- A queue of messages, as the parts a reader will see. -/
def stream (ms : List Msg) : List Part := ms.flatMap parts

@[simp] theorem parts_nil : parts [] = [] := rfl

@[simp] theorem parts_singleton (f : Frame) : parts [f] = [⟨f, false⟩] := rfl

@[simp] theorem parts_cons_cons (f g : Frame) (rest : Msg) :
    parts (f :: g :: rest) = ⟨f, true⟩ :: parts (g :: rest) := rfl

/-- A frame with others behind it carries the flag. -/
theorem parts_cons {rest : Msg} (h : rest ≠ []) (f : Frame) :
    parts (f :: rest) = ⟨f, true⟩ :: parts rest := by
  cases rest with
  | nil => exact absurd rfl h
  | cons g rest => rfl

@[simp] theorem length_parts : ∀ m : Msg, (parts m).length = m.length
  | [] => rfl
  | [_] => rfl
  | _ :: g :: rest => by rw [parts_cons_cons, List.length_cons, length_parts (g :: rest)]; rfl

/-- The last part of a message is the only one with the flag down. -/
theorem parts_append_singleton (m : Msg) (f : Frame) :
    parts (m ++ [f]) = m.map (⟨·, true⟩) ++ [⟨f, false⟩] := by
  induction m with
  | nil => rfl
  | cons g rest ih =>
      rw [List.cons_append, parts_cons (by simp), ih, List.map_cons, List.cons_append]

/-- Frames in front of a message all carry the flag. -/
theorem parts_append (head : Msg) {m : Msg} (h : m ≠ []) :
    parts (head ++ m) = head.map (⟨·, true⟩) ++ parts m := by
  induction head with
  | nil => rfl
  | cons f head ih =>
      rw [List.cons_append, parts_cons (by simp [h]), ih, List.map_cons, List.cons_append]

@[simp] theorem stream_nil : stream [] = [] := rfl

@[simp] theorem stream_cons (m : Msg) (ms : List Msg) :
    stream (m :: ms) = parts m ++ stream ms := List.flatMap_cons

theorem stream_append (ms ns : List Msg) : stream (ms ++ ns) = stream ms ++ stream ns :=
  List.flatMap_append

theorem length_le_stream {ms : List Msg} (h : ∀ m ∈ ms, m ≠ []) :
    ms.length ≤ (stream ms).length := by
  induction ms with
  | nil => simp
  | cons m ms ih =>
      have hm : 0 < m.length := List.length_pos_iff.mpr (h m (by simp))
      have hms := ih fun n hn => h n (by simp [hn])
      rw [stream_cons, List.length_append, length_parts, List.length_cons]
      omega

/-! ### Receiving -/

/-- The receiving half of a socket. -/
structure In where
  queue : List Part
  /-- What `RCVMORE` reports: the flag of the part received last. -/
  more : Bool
deriving DecidableEq

/-- The socket at a message boundary with the messages `ms` waiting. -/
def In.holding (ms : List Msg) : In := ⟨stream ms, false⟩

/-- A receive that does not wait: nothing when nothing is there. -/
def In.recv (s : In) : Option (Frame × In) :=
  match s.queue with
  | [] => none
  | p :: q => some (p.bytes, ⟨q, p.more⟩)

@[simp] theorem recv_nil (more : Bool) : In.recv ⟨[], more⟩ = none := rfl

@[simp] theorem recv_cons (p : Part) (q : List Part) (more : Bool) :
    In.recv ⟨p :: q, more⟩ = some (p.bytes, ⟨q, p.more⟩) := rfl

@[simp] theorem holding_nil : In.holding [] = ⟨[], false⟩ := rfl

theorem eq_holding {s : In} {ms : List Msg} (hqueue : s.queue = stream ms)
    (hmore : s.more = false) : s = In.holding ms := by
  obtain ⟨queue, more⟩ := s
  obtain rfl : queue = stream ms := hqueue
  obtain rfl : more = false := hmore
  rfl

theorem recv_holding_nil : (In.holding []).recv = none := rfl

/-- The first frame of a message that has more of them. -/
theorem recv_holding_cons {rest : Msg} (h : rest ≠ []) (f : Frame) (ms : List Msg) :
    (In.holding ((f :: rest) :: ms)).recv = some (f, ⟨parts rest ++ stream ms, true⟩) := by
  rw [In.holding, stream_cons, parts_cons h]
  rfl

/-- With parts of a message still ahead the reader is not at the boundary behind it. -/
theorem ne_holding_of_left {p : Part} {ps : List Part} {ms : List Msg} (more : Bool) :
    (⟨p :: ps ++ stream ms, more⟩ : In) ≠ In.holding ms := by
  intro h
  have hlen : (p :: ps ++ stream ms).length = (stream ms).length := by
    rw [In.holding] at h
    injection h with hq _
    rw [hq]
  simp at hlen
  omega

/-- The parts of a message from some frame on are the parts of its remaining frames. -/
theorem ne_holding_of_parts {rest : Msg} (h : rest ≠ []) (ms : List Msg) (more : Bool) :
    (⟨parts rest ++ stream ms, more⟩ : In) ≠ In.holding ms := by
  cases rest with
  | nil => exact absurd rfl h
  | cons f tail =>
      cases tail with
      | nil => exact ne_holding_of_left more
      | cons g tail => exact ne_holding_of_left more

/-! ### Sending -/

/-- Why a send failed. -/
inductive Errno where
  | EAGAIN
  | EINTR
  | EHOSTUNREACH
  | ETERM
deriving DecidableEq

inductive Kind where
  | pub
  | router (reach : Frame → Bool)
  | pipe

/-- The sending half of a socket. -/
structure Out where
  kind : Kind
  /-- The parts accepted so far. -/
  sent : List Part
  /-- What the coming sends that can be refused answer. -/
  results : List (Option Errno)

/-- A message has been begun and not finished. -/
def Out.isOpen (o : Out) : Bool :=
  match o.sent.getLast? with
  | some p => p.more
  | none => false

/-- The socket with more parts accepted. -/
def Out.put (o : Out) (ps : List Part) : Out := { o with sent := o.sent ++ ps }

/-- What the next send answers, and the answers left after it. -/
def Out.verdict (o : Out) (f : Frame) (more : Bool) : Option Errno × List (Option Errno) :=
  match o.kind with
  | .pub => (none, o.results)
  | .pipe => (o.results.headD none, o.results.tail)
  | .router reach =>
      if o.isOpen || !more then (none, o.results)
      else if reach f then (o.results.headD none, o.results.tail)
      else (some .EHOSTUNREACH, o.results)

/-- A send that does not wait: the number of bytes taken, or why not. -/
def Out.send (o : Out) (f : Frame) (more : Bool) : Except Errno Nat × Out :=
  match o.verdict f more with
  | (none, rs) => (.ok f.length, { o with sent := o.sent ++ [⟨f, more⟩], results := rs })
  | (some e, rs) => (.error e, { o with results := rs })

/-- Frames sent one after the other, all with the flag up, as long as the number of
bytes taken passes `test`; says whether all of them went. -/
def Out.sendWhile (test : Nat → Bool) (o : Out) : Msg → Bool × Out
  | [] => (true, o)
  | f :: rest =>
      match o.send f true with
      | (.ok n, o') => if test n then o'.sendWhile test rest else (false, o')
      | (.error _, o') => (false, o')

@[simp] theorem put_nil (o : Out) : o.put [] = o := by simp [Out.put]

@[simp] theorem put_put (o : Out) (ps qs : List Part) : (o.put ps).put qs = o.put (ps ++ qs) := by
  simp [Out.put]

@[simp] theorem put_kind (o : Out) (ps : List Part) : (o.put ps).kind = o.kind := rfl

@[simp] theorem put_results (o : Out) (ps : List Part) : (o.put ps).results = o.results := rfl

@[simp] theorem put_sent (o : Out) (ps : List Part) : (o.put ps).sent = o.sent ++ ps := rfl

@[simp] theorem isOpen_put_singleton (o : Out) (ps : List Part) (p : Part) :
    (o.put (ps ++ [p])).isOpen = p.more := by
  simp [Out.isOpen, Out.put, ← List.append_assoc]

@[simp] theorem isOpen_put_one (o : Out) (p : Part) : (o.put [p]).isOpen = p.more :=
  isOpen_put_singleton o [] p

/-- A whole message leaves nothing open behind it. -/
theorem isOpen_put_parts (o : Out) {m : Msg} (h : m ≠ []) : (o.put (parts m)).isOpen = false := by
  rw [← List.dropLast_append_getLast h, parts_append_singleton]
  exact isOpen_put_singleton _ _ _

@[simp] theorem send_kind (o : Out) (f : Frame) (more : Bool) :
    (o.send f more).2.kind = o.kind := by
  unfold Out.send
  rcases o.verdict f more with ⟨_ | _, _⟩ <;> rfl

/-- Sending does not change what a socket is. -/
@[simp] theorem sendWhile_kind (test : Nat → Bool) : ∀ (fs : Msg) (o : Out),
    (o.sendWhile test fs).2.kind = o.kind := by
  intro fs
  induction fs with
  | nil => intro o; rfl
  | cons f rest ih =>
      intro o
      have hk := send_kind o f true
      rw [Out.sendWhile]
      rcases hs : o.send f true with ⟨r, o'⟩
      rw [hs] at hk
      cases r with
      | error e => exact hk
      | ok n =>
          simp only at hk ⊢
          split
          · rw [ih, hk]
          · exact hk

/-! ### Sends that cannot be refused

A publisher, a router inside a message, and any other socket with no refusal ahead.
-/

/-- No part of the current message can be refused any more. -/
def Out.Free (o : Out) : Prop :=
  match o.kind with
  | .pub => True
  | .pipe => o.results = []
  | .router _ => o.isOpen = true

/-- Nothing can be refused ever. -/
def Out.Steady (o : Out) : Prop :=
  match o.kind with
  | .pub => True
  | .pipe => o.results = []
  | .router _ => False

theorem steady_pub {o : Out} (h : o.kind = .pub) : o.Steady := by simp [Out.Steady, h]

theorem steady_pipe {o : Out} (h : o.kind = .pipe) (hr : o.results = []) : o.Steady := by
  simpa [Out.Steady, h] using hr

theorem Out.Steady.free {o : Out} (h : o.Steady) : o.Free := by
  unfold Out.Steady at h
  unfold Out.Free
  cases hk : o.kind <;> simp_all

theorem Out.Steady.put {o : Out} (h : o.Steady) (ps : List Part) : (o.put ps).Steady := h

theorem free_put_more {o : Out} (h : o.Free) (f : Frame) : (o.put [⟨f, true⟩]).Free := by
  unfold Out.Free at h ⊢
  cases hk : o.kind with
  | pub => simp [hk]
  | pipe => simpa [hk] using h
  | router reach => simp [hk]

theorem send_free {o : Out} (h : o.Free) (f : Frame) (more : Bool) :
    o.send f more = (.ok f.length, o.put [⟨f, more⟩]) := by
  unfold Out.Free at h
  cases hk : o.kind with
  | pub => simp [Out.send, Out.verdict, hk, Out.put]
  | pipe =>
      rw [hk] at h
      simp only at h
      simp [Out.send, Out.verdict, hk, h, Out.put]
  | router reach =>
      rw [hk] at h
      simp only at h
      simp [Out.send, Out.verdict, hk, h, Out.put]

theorem sendWhile_free {test : Nat → Bool} {o : Out} (h : o.Free) (fs : Msg)
    (htest : ∀ f ∈ fs, test f.length = true) :
    o.sendWhile test fs = (true, o.put (fs.map (⟨·, true⟩))) := by
  induction fs generalizing o with
  | nil => simp [Out.sendWhile]
  | cons f rest ih =>
      rw [Out.sendWhile, send_free h]
      simp only [htest f (by simp), if_true]
      rw [ih (free_put_more h f) fun g hg => htest g (by simp [hg])]
      simp

/-! ### The first frame on a router -/

/-- Whether the router takes a message for `f` now; the refusal otherwise. -/
def Out.route (o : Out) (f : Frame) : Option Errno := (o.verdict f true).1

/-- The router with the answer about `f` used up. -/
def Out.asked (o : Out) (f : Frame) : Out := { o with results := (o.verdict f true).2 }

@[simp] theorem asked_kind (o : Out) (f : Frame) : (o.asked f).kind = o.kind := rfl

@[simp] theorem asked_sent (o : Out) (f : Frame) : (o.asked f).sent = o.sent := rfl

@[simp] theorem asked_isOpen (o : Out) (f : Frame) : (o.asked f).isOpen = o.isOpen := rfl

theorem send_refused {o : Out} {f : Frame} {e : Errno} (h : o.route f = some e) :
    o.send f true = (.error e, o.asked f) := by
  unfold Out.route at h
  unfold Out.send Out.asked
  rcases hv : o.verdict f true with ⟨r, rs⟩
  rw [hv] at h
  simp only at h
  rw [h]

theorem send_routed {o : Out} {f : Frame} (h : o.route f = none) :
    o.send f true = (.ok f.length, (o.asked f).put [⟨f, true⟩]) := by
  unfold Out.route at h
  unfold Out.send Out.asked
  rcases hv : o.verdict f true with ⟨r, rs⟩
  rw [hv] at h
  simp only at h
  rw [h]
  rfl

/-- Once the first frame is in, a router takes the rest. -/
theorem free_routed {o : Out} {reach : Frame → Bool} (hk : o.kind = .router reach) (f : Frame) :
    ((o.asked f).put [⟨f, true⟩]).Free := by
  simp [Out.Free, hk]

theorem route_congr {o o' : Out} (hk : o.kind = o'.kind) (hopen : o.isOpen = o'.isOpen)
    (hr : o.results = o'.results) (f : Frame) : o.route f = o'.route f := by
  simp only [Out.route, Out.verdict, hk, hopen, hr]

/-- Inside a message a router is free, whatever came first. -/
theorem free_put_frames {o : Out} {reach : Frame → Bool} (hk : o.kind = .router reach) {fs : Msg}
    (h : fs ≠ []) : (o.put (fs.map (⟨·, true⟩))).Free := by
  rw [← List.dropLast_append_getLast h, List.map_append]
  simp only [Out.Free, put_kind, hk]
  exact isOpen_put_singleton _ _ _

theorem sendWhile_refused {test : Nat → Bool} {o : Out} {f : Frame} {e : Errno}
    (h : o.route f = some e) (rest : Msg) :
    o.sendWhile test (f :: rest) = (false, o.asked f) := by
  rw [Out.sendWhile, send_refused h]

theorem sendWhile_routed {test : Nat → Bool} {o : Out} {reach : Frame → Bool}
    (hk : o.kind = .router reach) {f : Frame} (h : o.route f = none) (rest : Msg)
    (htest : ∀ g ∈ f :: rest, test g.length = true) :
    o.sendWhile test (f :: rest)
      = (true, (o.asked f).put ((f :: rest).map (⟨·, true⟩))) := by
  rw [Out.sendWhile, send_routed h]
  simp only [htest f (by simp), if_true]
  rw [sendWhile_free (free_routed hk f) rest fun g hg => htest g (by simp [hg])]
  simp

/-- A router between two messages, with no refusal ahead but that of peers it does not
know. -/
structure Out.Idle (o : Out) (reach : Frame → Bool) : Prop where
  kind : o.kind = .router reach
  closed : o.isOpen = false
  results : o.results = []

namespace Out.Idle

variable {o : Out} {reach : Frame → Bool}

theorem route_known (h : o.Idle reach) {f : Frame} (hf : reach f = true) : o.route f = none := by
  simp [Out.route, Out.verdict, h.kind, h.closed, h.results, hf]

theorem route_unknown (h : o.Idle reach) {f : Frame} (hf : reach f = false) :
    o.route f = some .EHOSTUNREACH := by
  simp [Out.route, Out.verdict, h.kind, h.closed, hf]

theorem asked (h : o.Idle reach) (f : Frame) : o.asked f = o := by
  have hres : (o.verdict f true).2 = o.results := by
    by_cases hf : reach f = true <;> simp [Out.verdict, h.kind, h.closed, h.results, hf]
  rw [Out.asked, hres]

theorem put (h : o.Idle reach) {m : Msg} (hm : m ≠ []) : (o.put (parts m)).Idle reach :=
  ⟨h.kind, isOpen_put_parts o hm, h.results⟩

theorem put_stream (h : o.Idle reach) {ms : List Msg} (hms : ∀ m ∈ ms, m ≠ []) :
    (o.put (stream ms)).Idle reach := by
  induction ms generalizing o with
  | nil =>
      rw [stream_nil, put_nil]
      exact h
  | cons m ms ih =>
      rw [stream_cons, ← put_put]
      exact ih (h.put (hms m (by simp))) fun n hn => hms n (by simp [hn])

theorem sendWhile (h : o.Idle reach) (test : Nat → Bool) {f : Frame} (hf : reach f = true)
    (rest : Msg) (htest : ∀ g ∈ f :: rest, test g.length = true) :
    o.sendWhile test (f :: rest) = (true, o.put ((f :: rest).map (⟨·, true⟩))) := by
  rw [sendWhile_routed h.kind (h.route_known hf) rest htest, h.asked]

end Out.Idle

theorem send_ok {o o' : Out} {f : Frame} {more : Bool} {n : Nat}
    (h : o.send f more = (.ok n, o')) : n = f.length ∧ o'.sent = o.sent ++ [⟨f, more⟩] := by
  unfold Out.send at h
  rcases hv : o.verdict f more with ⟨r, rs⟩
  rw [hv] at h
  cases r with
  | none =>
      simp only [Prod.mk.injEq, Except.ok.injEq] at h
      obtain ⟨hn, rfl⟩ := h
      exact ⟨hn.symm, rfl⟩
  | some e => simp at h

theorem send_error {o o' : Out} {f : Frame} {more : Bool} {e : Errno}
    (h : o.send f more = (.error e, o')) : o'.sent = o.sent := by
  unfold Out.send at h
  rcases hv : o.verdict f more with ⟨r, rs⟩
  rw [hv] at h
  cases r with
  | none => simp at h
  | some e' =>
      simp only [Prod.mk.injEq] at h
      rw [← h.2]

/-- A chain of sends that went through to the end sent every frame, and each passed the
test. -/
theorem sendWhile_ok {test : Nat → Bool} : ∀ {fs : Msg} {o o' : Out},
    o.sendWhile test fs = (true, o') →
      (∀ f ∈ fs, test f.length = true) ∧ o'.sent = o.sent ++ fs.map (⟨·, true⟩) := by
  intro fs
  induction fs with
  | nil =>
      intro o o' h
      simp only [Out.sendWhile, Prod.mk.injEq, true_and] at h
      subst h
      simp
  | cons g rest ih =>
      intro o o' h
      rw [Out.sendWhile] at h
      rcases hs : o.send g true with ⟨r, o1⟩
      rw [hs] at h
      cases r with
      | error e => simp at h
      | ok n =>
          obtain ⟨hn, hsent⟩ := send_ok hs
          simp only at h
          split at h
          · rename_i htest
            obtain ⟨hrest, hall⟩ := ih h
            refine ⟨?_, ?_⟩
            · intro f hf
              rcases List.mem_cons.mp hf with rfl | hf
              · rw [← hn]; exact htest
              · exact hrest f hf
            · rw [hall, hsent]
              simp
          · simp at h

/-- A router that has taken the beginning of a message takes its rest. -/
theorem free_of_sendWhile {test : Nat → Bool} {o o' : Out} {reach : Frame → Bool}
    (hk : o.kind = .router reach) {fs : Msg} (hfs : fs ≠ [])
    (h : o.sendWhile test fs = (true, o')) : o'.Free := by
  have hkind : o'.kind = .router reach := by
    have hsame := sendWhile_kind test fs o
    rw [h] at hsame
    exact hsame.trans hk
  have hsent := (sendWhile_ok h).2
  rw [← List.dropLast_append_getLast hfs, List.map_append] at hsent
  simp only [Out.Free, hkind, Out.isOpen, hsent]
  simp

/-- A chain of sends that is cut short has sent the frames in front of the cut. -/
theorem sendWhile_sent (test : Nat → Bool) : ∀ (fs : Msg) (o : Out),
    ∃ k, (o.sendWhile test fs).2.sent = o.sent ++ (fs.take k).map (⟨·, true⟩) := by
  intro fs
  induction fs with
  | nil => intro o; exact ⟨0, by simp [Out.sendWhile]⟩
  | cons f rest ih =>
      intro o
      rw [Out.sendWhile]
      rcases hs : o.send f true with ⟨e | n, o'⟩
      · exact ⟨0, by simp [(send_error hs)]⟩
      · obtain ⟨-, hsent⟩ := send_ok hs
        by_cases htest : test n = true
        · obtain ⟨k, hk⟩ := ih o'
          refine ⟨k + 1, ?_⟩
          simp [htest, hk, hsent]
        · exact ⟨1, by simp [htest, hsent]⟩

/-- A pipe takes the frames when none of the answers ahead is a refusal, and uses these up. -/
theorem sendWhile_pipe : ∀ (fs : Msg) {o : Out}, o.kind = .pipe →
    (∀ r ∈ o.results.take fs.length, r = none) →
    o.sendWhile (fun _ => true) fs = (true, ⟨o.kind, o.sent ++ fs.map (⟨·, true⟩),
      o.results.drop fs.length⟩) := by
  intro fs
  induction fs with
  | nil => intro o _ _; simp [Out.sendWhile]
  | cons f rest ih =>
      intro o hk h
      obtain ⟨kind, sent, results⟩ := o
      obtain rfl : kind = .pipe := hk
      cases results with
      | nil =>
          have hrest := ih (o := ⟨.pipe, sent ++ [⟨f, true⟩], []⟩) rfl (by simp)
          simpa [Out.sendWhile, Out.send, Out.verdict] using hrest
      | cons r rs =>
          simp only [List.length_cons, List.take_succ_cons, List.forall_mem_cons] at h
          obtain ⟨rfl, h⟩ := h
          have hrest := ih (o := ⟨.pipe, sent ++ [⟨f, true⟩], rs⟩) rfl h
          simpa [Out.sendWhile, Out.send, Out.verdict] using hrest

/-- And it does not when one of them is. -/
theorem sendWhile_pipe_refused : ∀ (fs : Msg) {o : Out}, o.kind = .pipe →
    ¬ (∀ r ∈ o.results.take fs.length, r = none) →
    (o.sendWhile (fun _ => true) fs).1 = false := by
  intro fs
  induction fs with
  | nil => intro o _ h; simp at h
  | cons f rest ih =>
      intro o hk h
      obtain ⟨kind, sent, results⟩ := o
      obtain rfl : kind = .pipe := hk
      cases results with
      | nil => simp at h
      | cons r rs =>
          cases r with
          | some e => simp [Out.sendWhile, Out.send, Out.verdict]
          | none =>
              have hrest := ih (o := ⟨.pipe, sent ++ [⟨f, true⟩], rs⟩) rfl (by simpa using h)
              simpa [Out.sendWhile, Out.send, Out.verdict] using hrest

/-- The socket takes all the parts, when they are sent one after the other. -/
def Out.Accepts (o : Out) : List Part → Prop
  | [] => True
  | p :: ps => (o.verdict p.bytes p.more).1 = none ∧ (o.send p.bytes p.more).2.Accepts ps

/-- A publisher takes everything. -/
theorem accepts_pub : ∀ {ps : List Part} {o : Out}, o.kind = .pub → o.Accepts ps := by
  intro ps
  induction ps with
  | nil => intro o _; trivial
  | cons p ps ih =>
      intro o h
      have hverdict : (o.verdict p.bytes p.more).1 = none := by simp [Out.verdict, h]
      exact ⟨hverdict, ih (by rw [send_kind, h])⟩

/-- A part that is taken is the next in line. -/
theorem send_accepted {o : Out} {f : Frame} {more : Bool} (h : (o.verdict f more).1 = none) :
    (o.send f more).1 = .ok f.length ∧ (o.send f more).2.sent = o.sent ++ [⟨f, more⟩] := by
  unfold Out.send
  rcases hv : o.verdict f more with ⟨r, rs⟩
  rw [hv] at h
  obtain rfl : r = none := h
  exact ⟨rfl, rfl⟩

/-- One that is not leaves the line as it is. -/
theorem send_not_accepted {o : Out} {f : Frame} {more : Bool} (h : (o.verdict f more).1 ≠ none) :
    (∃ e, (o.send f more).1 = .error e) ∧ (o.send f more).2.sent = o.sent := by
  unfold Out.send
  rcases hv : o.verdict f more with ⟨r, rs⟩
  rw [hv] at h
  obtain ⟨e, rfl⟩ := Option.ne_none_iff_exists'.mp h
  exact ⟨⟨e, rfl⟩, rfl⟩

/-- The first frames of a message leave it open, when there is one. -/
theorem isOpen_of_begun {o : Out} {ps : List Part} {fs : Msg} (hfs : fs ≠ [])
    (h : o.sent = ps ++ fs.map (⟨·, true⟩)) : o.isOpen = true := by
  rw [← List.dropLast_append_getLast hfs, List.map_append, ← List.append_assoc] at h
  simp [Out.isOpen, h]

/-! ### Putting parts back together -/

/-- The messages a list of parts completes, and the frames of the one left open;
`cur` are the frames already seen of the first. -/
def assemble (cur : Msg) : List Part → List Msg × Msg
  | [] => ([], cur)
  | p :: ps =>
      if p.more then assemble (cur ++ [p.bytes]) ps
      else ((cur ++ [p.bytes]) :: (assemble [] ps).1, (assemble [] ps).2)

/-- The whole messages in a list of parts. -/
def messages (ps : List Part) : List Msg := (assemble [] ps).1

/-- A message is reassembled from its parts. -/
theorem assemble_parts {m : Msg} (h : m ≠ []) (cur : Msg) (ps : List Part) :
    assemble cur (parts m ++ ps) = ((cur ++ m) :: (assemble [] ps).1, (assemble [] ps).2) := by
  induction m generalizing cur with
  | nil => exact absurd rfl h
  | cons f rest ih =>
      cases rest with
      | nil => simp [assemble]
      | cons g rest =>
          rw [parts_cons_cons, List.cons_append, assemble, if_pos rfl, ih (by simp)]
          simp

theorem assemble_stream {ms : List Msg} (h : ∀ m ∈ ms, m ≠ []) (ps : List Part) :
    assemble [] (stream ms ++ ps) = (ms ++ (assemble [] ps).1, (assemble [] ps).2) := by
  induction ms with
  | nil => rfl
  | cons m ms ih =>
      rw [stream_cons, List.append_assoc, assemble_parts (h m (by simp)),
        ih fun n hn => h n (by simp [hn])]
      rfl

/-- **Splitting a stream and joining it again loses nothing.** -/
theorem messages_stream {ms : List Msg} (h : ∀ m ∈ ms, m ≠ []) : messages (stream ms) = ms := by
  have := assemble_stream h []
  rw [List.append_nil] at this
  rw [messages, this]
  simp [assemble]

/-- Messages that make the same stream are the same messages. -/
theorem stream_inj {ms ns : List Msg} (hms : ∀ m ∈ ms, m ≠ []) (hns : ∀ m ∈ ns, m ≠ [])
    (h : stream ms = stream ns) : ms = ns := by
  rw [← messages_stream hms, h, messages_stream hns]

/-- A message that is begun and not finished completes nothing. -/
theorem assemble_open (cur fs : Msg) : (assemble cur (fs.map (⟨·, true⟩))).1 = [] := by
  induction fs generalizing cur with
  | nil => rfl
  | cons f fs ih => rw [List.map_cons, assemble, if_pos rfl, ih]

/-! ### Between sockets

What a socket has taken is the other end's to read.  A publisher's messages go to every
subscriber with a topic its first frame begins with; a router's go to the peer named by
the first frame, without it; and what a peer sends a router comes with its name in front.
-/

/-- The messages a socket has taken since it was `o`. -/
def Out.since (o o' : Out) : List Msg := messages (o'.sent.drop o.sent.length)

/-- What a subscriber to `topics` gets of the published messages. -/
def subscribed (topics : List Frame) (ms : List Msg) : List Msg :=
  ms.filter fun m => topics.any fun t => t.isPrefixOf (m.headD [])

/-- What a router's peer gets of the messages the router took. -/
def routedTo (id : Frame) (ms : List Msg) : List Msg :=
  (ms.filter fun m => m.headD [] == id).map List.tail

/-- What a router gets of a message of its peer. -/
def fromPeer (id : Frame) (m : Msg) : Msg := id :: m

theorem since_of_sent {o o' : Out} {ms : List Msg} (h : ∀ m ∈ ms, m ≠ [])
    (hs : o'.sent = o.sent ++ stream ms) : o.since o' = ms := by
  rw [Out.since, hs, List.drop_left]
  exact messages_stream h

/-- What was begun behind the messages and not finished is no message. -/
theorem since_of_begun {o o' : Out} {ms : List Msg} (h : ∀ m ∈ ms, m ≠ []) (fs : Msg)
    (hs : o'.sent = o.sent ++ (stream ms ++ fs.map (⟨·, true⟩))) : o.since o' = ms := by
  rw [Out.since, hs, List.drop_left, messages, assemble_stream h, assemble_open, List.append_nil]

/-- A message that was put is a message taken. -/
theorem since_put_parts (o : Out) {m : Msg} (h : m ≠ []) : o.since (o.put (parts m)) = [m] :=
  since_of_sent (by simpa using h) (by simp)

@[simp] theorem since_self (o : Out) : o.since o = [] :=
  since_of_sent (by simp) (by simp)

@[simp] theorem subscribed_nil (topics : List Frame) : subscribed topics [] = [] := rfl

theorem subscribed_one (topic f : Frame) (rest : Msg) :
    subscribed [topic] [f :: rest] = if topic <+: f then [f :: rest] else [] := by
  by_cases h : topic <+: f <;> simp [subscribed, h]

@[simp] theorem routedTo_nil (id : Frame) : routedTo id [] = [] := rfl

theorem routedTo_one (id f : Frame) (rest : Msg) :
    routedTo id [f :: rest] = if f = id then [rest] else [] := by
  by_cases h : f = id <;> simp [routedTo, h]

/-! ### Accounts

Messages can be counted at either end without putting them together, by their last parts.
-/

/-- The last frames of the messages that end in a list of parts. -/
def lasts (ps : List Part) : List Frame := (ps.filter fun p => !p.more).map Part.bytes

/-- The parts a socket has taken since it was `o`. -/
def Out.partsSince (o o' : Out) : List Part := o'.sent.drop o.sent.length

/-- The parts that were received from a socket since it was `s`. -/
def In.partsSince (s s' : In) : List Part := s.queue.take (s.queue.length - s'.queue.length)

/-- A message ends with its last frame. -/
theorem lasts_parts (head : Msg) (body : Frame) : lasts (parts (head ++ [body])) = [body] := by
  have hopen : (head.map (⟨·, true⟩ : Frame → Part)).filter (fun p => !p.more) = [] := by
    rw [List.filter_eq_nil_iff]
    intro p hp
    obtain ⟨f, -, rfl⟩ := List.mem_map.mp hp
    simp
  rw [parts_append_singleton, lasts, List.filter_append, hopen]
  rfl

/-- A message that is not finished does not end. -/
theorem lasts_begun (fs : Msg) : lasts (fs.map (⟨·, true⟩)) = [] := by
  rw [lasts, List.map_eq_nil_iff, List.filter_eq_nil_iff]
  intro p hp
  obtain ⟨f, -, rfl⟩ := List.mem_map.mp hp
  simp

theorem lasts_append (ps qs : List Part) : lasts (ps ++ qs) = lasts ps ++ lasts qs := by
  rw [lasts, List.filter_append, List.map_append]
  rfl

/-- How many messages of a list of parts have one with `p` among them; `seen` says that the
first, of which the rest is there, has had one. -/
def marked (p : Part → Bool) : Bool → List Part → Nat
  | _, [] => 0
  | seen, x :: ps =>
      (if !seen && p x then 1 else 0) + marked p (x.more && (seen || p x)) ps

section Marked

variable {p : Part → Bool}

theorem marked_seen : ∀ ps : List Part,
    marked p true ps ≤ marked p false ps ∧ marked p false ps ≤ marked p true ps + 1 := by
  intro ps
  induction ps with
  | nil => exact ⟨Nat.le_refl _, Nat.zero_le _⟩
  | cons x ps ih =>
      cases hx : p x <;> cases hmore : x.more <;> simp [marked, hx, hmore] <;> omega

/-- Fewer parts, no more messages. -/
theorem marked_suffix {ps qs : List Part} (h : ps <:+ qs) :
    marked p false ps ≤ marked p false qs := by
  obtain ⟨front, rfl⟩ := h
  induction front with
  | nil => exact Nat.le_refl _
  | cons x front ih =>
      have hseen := (marked_seen (p := p) (front ++ ps)).2
      cases hx : p x <;> cases hmore : x.more <;> simp [marked, hx, hmore] <;> omega

/-- Behind the end of a message it does not matter what was seen in front of it. -/
theorem marked_behind {front : List Part} (h : ∃ x ∈ front, x.more = false) (ps : List Part) :
    marked p false ps ≤ marked p true (front ++ ps) := by
  induction front with
  | nil => simp at h
  | cons x front ih =>
      cases hmore : x.more with
      | false =>
          simp only [List.cons_append, marked, hmore, Bool.not_true, Bool.false_and,
            Bool.false_eq_true, if_false, Nat.zero_add]
          exact marked_suffix (List.suffix_append _ _)
      | true =>
          obtain ⟨y, hy, hlast⟩ := h
          have hfront : y ∈ front := by
            rcases List.mem_cons.mp hy with rfl | hy
            · exact absurd (hlast.symm.trans hmore) (by simp)
            · exact hy
          have hle := ih ⟨y, hfront, hlast⟩
          simpa [marked, hmore] using hle

/-- A marked part and the end of its message are one message less. -/
theorem marked_taken {x : Part} (hx : p x = true) {front : List Part}
    (h : ∃ y ∈ x :: front, y.more = false) (ps : List Part) :
    marked p false ps + 1 ≤ marked p false (x :: front ++ ps) := by
  have hfirst : marked p false (x :: front ++ ps) = 1 + marked p x.more (front ++ ps) := by
    simp [marked, hx]
  have hrest : marked p false ps ≤ marked p x.more (front ++ ps) := by
    cases hmore : x.more with
    | false => exact marked_suffix (List.suffix_append _ _)
    | true =>
        obtain ⟨y, hy, hlast⟩ := h
        rcases List.mem_cons.mp hy with rfl | hy
        · exact absurd (hlast.symm.trans hmore) (by simp)
        · exact marked_behind ⟨y, hy, hlast⟩ ps
  omega

theorem marked_seen_parts {m : Msg} (hm : m ≠ []) (ps : List Part) :
    marked p true (parts m ++ ps) = marked p false ps := by
  induction m with
  | nil => exact absurd rfl hm
  | cons f rest ih =>
      cases rest with
      | nil => simp [marked]
      | cons g rest =>
          have hrest := ih (by simp)
          simpa [marked] using hrest

/-- A message counts once at most. -/
theorem marked_parts_le {m : Msg} (hm : m ≠ []) (ps : List Part) :
    marked p false (parts m ++ ps) ≤ marked p false ps + 1 := by
  rw [← marked_seen_parts hm ps]
  exact (marked_seen _).2

/-- And not at all without a marked part. -/
theorem marked_parts_none : ∀ {m : Msg}, (∀ x ∈ parts m, p x = false) → ∀ (ps : List Part),
    marked p false (parts m ++ ps) = marked p false ps := by
  intro m
  induction m with
  | nil => intro _ ps; rfl
  | cons f rest ih =>
      intro h ps
      cases rest with
      | nil =>
          have hf := h ⟨f, false⟩ (by simp)
          simp [marked, hf]
      | cons g rest =>
          rw [parts_cons_cons] at h
          obtain ⟨hf, hrest⟩ := List.forall_mem_cons.mp h
          have hsame := ih hrest ps
          simpa [marked, hf] using hsame

end Marked

theorem Out.partsSince_of_sent {o o' : Out} {ps : List Part} (h : o'.sent = o.sent ++ ps) :
    o.partsSince o' = ps := by
  rw [Out.partsSince, h, List.drop_left]

theorem In.partsSince_of_queue {s s' : In} {ps : List Part} (h : s.queue = ps ++ s'.queue) :
    s.partsSince s' = ps := by
  rw [In.partsSince, h, List.length_append, Nat.add_sub_cancel, List.take_left]

/-- Nothing was received when there is more than before. -/
theorem In.partsSince_of_le {s s' : In} (h : s.queue.length ≤ s'.queue.length) :
    s.partsSince s' = [] := by
  rw [In.partsSince, Nat.sub_eq_zero_of_le h, List.take_zero]

/-! ### One message at a time

A pipe carries whole messages: the first is taken from the parts the sending socket has
accepted, once its last part is there, and is behind all others at the receiving one.  A
router has a pipe for every peer.
-/

/-- The first whole message of a list of parts, and the parts behind it. -/
def takeMessage : List Part → Option (Msg × List Part)
  | [] => none
  | p :: ps =>
      if p.more then (takeMessage ps).map fun r => (p.bytes :: r.1, r.2)
      else some ([p.bytes], ps)

/-- The message a pipe takes next, and the socket without it. -/
def Out.deliver (o : Out) : Option (Msg × Out) :=
  (takeMessage o.sent).map fun r => (r.1, { o with sent := r.2 })

/-- The message the pipe to the peer `id` takes next, and the router without it. -/
def Out.deliverTo (o : Out) (id : Frame) : Option (Msg × Out) :=
  let sent := assemble [] o.sent
  (sent.1.find? fun m => m.headD [] == id).map fun m => (m.tail, { o with
    sent := stream (sent.1.eraseP fun m => m.headD [] == id) ++ sent.2.map (⟨·, true⟩) })

/-- A message comes out of a pipe. -/
def In.arrive (s : In) (m : Msg) : In := { s with queue := s.queue ++ parts m }

theorem holding_arrive (ms : List Msg) (m : Msg) :
    (In.holding ms).arrive m = In.holding (ms ++ [m]) := by
  rw [In.holding, In.arrive, In.holding, stream_append, stream_cons, stream_nil, List.append_nil]

theorem takeMessage_parts {m : Msg} (hm : m ≠ []) (ps : List Part) :
    takeMessage (parts m ++ ps) = some (m, ps) := by
  induction m with
  | nil => exact absurd rfl hm
  | cons f rest ih =>
      cases rest with
      | nil => simp [takeMessage]
      | cons g rest =>
          rw [parts_cons_cons, List.cons_append, takeMessage, if_pos rfl, ih (by simp)]
          rfl

theorem takeMessage_some : ∀ {ps rest : List Part} {m : Msg}, takeMessage ps = some (m, rest) →
    m ≠ [] ∧ ps = parts m ++ rest := by
  intro ps
  induction ps with
  | nil => intro rest m h; simp [takeMessage] at h
  | cons p ps ih =>
      intro rest m h
      rw [takeMessage] at h
      by_cases hmore : p.more = true
      · rw [if_pos hmore] at h
        obtain ⟨r, hr, hm⟩ := Option.map_eq_some_iff.mp h
        simp only [Prod.mk.injEq] at hm
        obtain ⟨rfl, rfl⟩ := hm
        obtain ⟨hne, hps⟩ := ih hr
        refine ⟨by simp, ?_⟩
        rw [parts_cons hne, hps, List.cons_append, ← hmore]
      · rw [if_neg hmore] at h
        simp only [Option.some.injEq, Prod.mk.injEq] at h
        obtain ⟨rfl, rfl⟩ := h
        refine ⟨by simp, ?_⟩
        rw [parts_singleton, ← Bool.eq_false_iff.mpr hmore]
        rfl

theorem deliver_some {o o' : Out} {m : Msg} (h : o.deliver = some (m, o')) :
    ∃ rest, takeMessage o.sent = some (m, rest) ∧ o' = { o with sent := rest } := by
  obtain ⟨r, hr, heq⟩ := Option.map_eq_some_iff.mp h
  simp only [Prod.mk.injEq] at heq
  obtain ⟨rfl, rfl⟩ := heq
  exact ⟨r.2, hr, rfl⟩

/-- The first whole message of a stream of items is the first item's, also when some of the
stream is still at the other end. -/
theorem takeMessage_stream {ι : Type} {frames : ι → Msg} (hframes : ∀ k, frames k ≠ [])
    {ks : List ι} {ps q rest : List Part} {m : Msg} (h : takeMessage ps = some (m, rest))
    (hs : ps ++ q = stream (ks.map frames)) :
    ∃ k ks', ks = k :: ks' ∧ m = frames k ∧ rest ++ q = stream (ks'.map frames) := by
  obtain ⟨hne, rfl⟩ := takeMessage_some h
  rw [List.append_assoc] at hs
  cases ks with
  | nil =>
      have hlen := congrArg List.length hs
      simp [List.length_eq_zero_iff, hne] at hlen
  | cons k ks' =>
      rw [List.map_cons, stream_cons] at hs
      have htake := congrArg takeMessage hs
      rw [takeMessage_parts hne, takeMessage_parts (hframes k)] at htake
      simp only [Option.some.injEq, Prod.mk.injEq] at htake
      exact ⟨k, ks', rfl, htake.1, htake.2⟩

/-- A message that is there as a whole can be taken, also when more follows. -/
theorem takeMessage_append {ps : List Part} (h : takeMessage ps ≠ none) (qs : List Part) :
    takeMessage (ps ++ qs) ≠ none := by
  obtain ⟨⟨m, rest⟩, hm⟩ := Option.ne_none_iff_exists'.mp h
  obtain ⟨hne, rfl⟩ := takeMessage_some hm
  rw [List.append_assoc, takeMessage_parts hne]
  exact Option.some_ne_none _

theorem deliver_ne_none {o : Out} : o.deliver ≠ none ↔ takeMessage o.sent ≠ none := by
  simp [Out.deliver]

/-- So much of a stream that the first message is there. -/
theorem takeMessage_of_prefix {m : Msg} (hm : m ≠ []) {ps qs rest : List Part}
    (h : ps ++ qs = parts m ++ rest) (hlen : m.length ≤ ps.length) : takeMessage ps ≠ none := by
  have hprefix : parts m <+: ps := by
    refine List.prefix_of_prefix_length_le ⟨rest, rfl⟩ ⟨qs, h⟩ ?_
    rw [length_parts]
    exact hlen
  obtain ⟨left, rfl⟩ := hprefix
  rw [takeMessage_parts hm]
  exact Option.some_ne_none _

/-- A pipe takes nothing from whole messages only when there are none. -/
theorem eq_nil_of_deliver_none {ι : Type} {frames : ι → Msg} (hframes : ∀ k, frames k ≠ [])
    {o : Out} {ks : List ι} (h : o.deliver = none) (hs : o.sent = stream (ks.map frames)) : ks = [] := by
  cases ks with
  | nil => rfl
  | cons k ks =>
      rw [List.map_cons, stream_cons] at hs
      rw [Out.deliver, hs, takeMessage_parts (hframes k)] at h
      exact absurd h (by simp)

/-- Erasing what a search finds takes one item away. -/
theorem perm_cons_of_find {ι : Type} {p : ι → Bool} : ∀ {ks : List ι} {k : ι},
    ks.find? p = some k → ks.Perm (k :: ks.eraseP p) := by
  intro ks
  induction ks with
  | nil => intro k h; simp at h
  | cons x xs ih =>
      intro k h
      by_cases hx : p x = true
      · rw [List.find?_cons_of_pos hx] at h
        obtain rfl := Option.some.inj h
        rw [List.eraseP_cons_of_pos hx]
      · rw [List.find?_cons_of_neg hx] at h
        rw [List.eraseP_cons_of_neg hx]
        exact ((ih h).cons x).trans (List.Perm.swap _ _ _)

/-- What a router's pipe takes from a stream of items is the first for its peer; nothing when
there is none. -/
theorem deliverTo_find {ι : Type} {frames : ι → Msg} (hframes : ∀ k, frames k ≠ []) {o : Out}
    {ks : List ι} (hs : o.sent = stream (ks.map frames)) (id : Frame) :
    o.deliverTo id = (ks.find? fun k => (frames k).headD [] == id).map fun k =>
      ((frames k).tail, { o with
        sent := stream ((ks.eraseP fun k => (frames k).headD [] == id).map frames) }) := by
  have hne : ∀ m ∈ ks.map frames, m ≠ [] := by
    intro m hm
    obtain ⟨k, -, rfl⟩ := List.mem_map.mp hm
    exact hframes k
  have hassemble := assemble_stream hne []
  rw [List.append_nil] at hassemble
  simp only [assemble, List.append_nil] at hassemble
  rw [Out.deliverTo, hs, hassemble]
  simp only [List.map_nil, List.append_nil, List.find?_map, List.eraseP_map, Option.map_map]
  rfl

theorem deliverTo_stream {ι : Type} {frames : ι → Msg} (hframes : ∀ k, frames k ≠ []) {o o' : Out}
    {ks : List ι} (hs : o.sent = stream (ks.map frames)) {id : Frame} {m : Msg}
    (h : o.deliverTo id = some (m, o')) :
    ∃ k ks', ks.Perm (k :: ks') ∧ (frames k).headD [] = id ∧ m = (frames k).tail ∧
      o' = { o with sent := stream (ks'.map frames) } := by
  rw [deliverTo_find hframes hs] at h
  obtain ⟨k, hk, heq⟩ := Option.map_eq_some_iff.mp h
  obtain ⟨rfl, rfl⟩ := Prod.mk.inj heq
  have hpred := List.find?_some hk
  exact ⟨k, _, perm_cons_of_find hk, by simpa using hpred, rfl, rfl⟩

theorem isOpen_stream {o : Out} {ms : List Msg} (hms : ∀ m ∈ ms, m ≠ []) (h : o.sent = stream ms) :
    o.isOpen = false := by
  cases ms using List.reverseRecOn with
  | nil => simp [Out.isOpen, h]
  | append_singleton ms m =>
      obtain ⟨kind, sent, results⟩ := o
      simp only [stream_append, stream_cons, stream_nil, List.append_nil] at h
      rw [h]
      exact isOpen_put_parts ⟨kind, stream ms, results⟩ (hms m (by simp))

end Multipart
