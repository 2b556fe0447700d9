/-
The answers of the servers.

A round of a server answers everything on its socket, in order.  Of the loop every iteration
is a receive and a send; in the running system other things happen between the two.  So a
process serves when its own steps are receives with an empty tag and an empty buffer, and
behind each that was given a request the response to it.  Then every question is answered
once, and the answer gets to the process that asked.
-/
import Brocoli.Server
import Brocoli.Proofs.Traffic
import Brocoli.Proofs.ExchangeProgress

namespace Brocoli

open CMem Multipart Custody Carriage Progress MqSndrcv

/-! ### One round -/

/-- The response to a request with this tag and body. -/
def answer (q : MqTag × Frame) : Msg := (SendCall.res q.1 (cstr q.2)).frames

/-- A request that can be answered: its tag says where to, and its body is a string that fits
the buffer. -/
structure Answerable (size : Nat) (q : MqTag × Frame) : Prop where
  svc : q.1.svc ≠ []
  name : q.1.name ≠ []
  broker : q.1.viaInterhub = true → q.1.broker ≠ []
  text : cstr q.2 ≠ []
  fits : (cstr q.2).length < size

/-- The string of a body that does not fit is there when its NUL is. -/
theorem cstr_store_fits {n : Nat} {bs : List Byte} (h : (cstr bs).length < n) :
    cstr (store (zeros n) 0 bs) = cstr bs := by
  by_cases hlen : bs.length < n
  · exact cstr_store_zeros hlen
  · have hstore : store (zeros n) 0 bs = bs.take n := by
      rw [store_zero, length_zeros, drop_zeros, Nat.sub_eq_zero_of_le (Nat.not_lt.mp hlen)]
      exact List.append_nil _
    rw [hstore]
    have hbs : bs = bs.take n ++ bs.drop n := (List.take_append_drop n bs).symm
    by_cases h0 : (0 : Byte) ∈ bs.take n
    · conv_rhs => rw [hbs, cstr_append_of_mem h0]
    · -- without a NUL among them the string has all these bytes
      rw [hbs, cstr_append_of_notMem h0, List.length_append, List.length_take] at h
      omega

theorem Answerable.body {size : Nat} {q : MqTag × Frame} (h : Answerable size q) : q.2 ≠ [] := by
  intro hnil
  have htext := h.text
  rw [hnil] at htext
  exact htext rfl

theorem Answerable.head {size : Nat} {q : MqTag × Frame} (h : Answerable size q) :
    ∀ f ∈ (SendCall.res q.1 (cstr q.2)).head, f ≠ [] := by
  by_cases hvia : q.1.viaInterhub = true
  · rw [SendCall.head, if_pos hvia]
    simpa using ⟨by decide, h.broker hvia, h.svc, h.name⟩
  · rw [SendCall.head, if_neg hvia]
    simpa using ⟨by decide, h.svc, h.name⟩

/-- What a send that nothing refuses leaves of the client. -/
theorem sendFrames_client {c : ClientSock} (hpush : c.zmqPush.Steady) {head : Msg} {body : Frame}
    (hhead : ∀ f ∈ head, f ≠ []) (hbody : body ≠ []) :
    (sendFrames c head body).2 = { c with
      zmqPush := c.zmqPush.put (parts (head ++ [body]))
      sndrcv := c.sndrcv + ofFrames [body] [] } := by
  obtain ⟨hrc, hsent⟩ := sendFrames_free hpush.free hhead hbody
  rw [sendFrames_eq] at hrc hsent ⊢
  simp only at hrc hsent
  simp only [hrc, hsent, if_true, countSend_eq]

/-- One iteration. -/
theorem answer_one {size : Nat} {c : ClientSock} (hpush : c.zmqPush.Steady)
    {q : MqTag × Frame} {ms : List Msg} (hpull : c.zmqPull = In.holding ([q.1.mem, q.2] :: ms))
    (hq : Answerable size q) :
    answerRequests size c = answerRequests size { c with
      zmqPull := In.holding ms
      zmqPush := c.zmqPush.put (parts (answer q))
      sndrcv := c.sndrcv + ofFrames [cstr q.2] [q.2] } := by
  rw [answerRequests_eq, mqRecvReq_holding hpull hq.body]
  show answerRequests size (mqSendRes _ q.1 (cstr (store (zeros size) 0 q.2))).2 = _
  have hpush' : ({ c with
      zmqPull := In.holding ms, sndrcv := countRecv c.sndrcv q.2.length } : ClientSock).zmqPush.Steady :=
    hpush
  rw [cstr_store_fits hq.fits, mqSendRes_eq, sendFrames_client hpush' hq.head hq.text,
    countRecv_eq, add_assoc, ← ofFrames_append]
  rfl

/-- **A round answers every request on the socket**, in order, each with its body as a string
to where its tag says, and counts all of them. -/
theorem answerRequests_all (size : Nat) {c : ClientSock} (hpush : c.zmqPush.Steady)
    {qs : List (MqTag × Frame)}
    (hpull : c.zmqPull = In.holding (qs.map fun q => [q.1.mem, q.2]))
    (hqs : ∀ q ∈ qs, Answerable size q) :
    answerRequests size c = { c with
      zmqPull := In.holding []
      zmqPush := c.zmqPush.put (stream (qs.map answer))
      sndrcv := c.sndrcv + ofFrames (qs.map fun q => cstr q.2) (qs.map Prod.snd) } := by
  induction qs generalizing c with
  | nil =>
      have hnone : mqRecvReq c MqTag.zero (zeros size) = ⟨-1, c, MqTag.zero, zeros size⟩ := by
        rw [mqRecvReq, hpull]
        rfl
      rw [answerRequests_eq, hnone]
      show c = _
      cases c
      subst hpull
      simp
  | cons q qs ih =>
      rw [answer_one hpush hpull (hqs q (by simp))]
      refine Eq.trans (ih ?_ rfl fun y hy => hqs y (by simp [hy])) ?_
      · exact hpush.put _
      · simp only [put_put, List.map_cons, stream_cons, add_assoc, ← ofFrames_append]
        rfl

theorem psibRound_two :
    let pull := In.holding [[AskPsib.tag.mem, lit "hi"], [AskPsib.tag.mem, lit "so" ++ [0, 1]]]
    let c := { crtCliSock 0 true [] with zmqPull := pull }
    psibRound c = { c with
      zmqPull := In.holding []
      zmqPush := c.zmqPush.put (stream [[mqRes, lit "AHIF", lit "ahif_1", lit "hi"],
        [mqRes, lit "AHIF", lit "ahif_1", lit "so"]])
      sndrcv := ⟨2, 2, 4, 6⟩ } := by
  intro pull c
  have hsvc : AskPsib.tag.svc = lit "AHIF" := by decide +kernel
  have hname : AskPsib.tag.name = lit "ahif_1" := by decide +kernel
  have hvia : AskPsib.tag.viaInterhub = false := by decide +kernel
  have hanswer : ∀ body, answer (AskPsib.tag, body)
      = [mqRes, lit "AHIF", lit "ahif_1", cstr body] := by
    intro body
    rw [answer, SendCall.frames, SendCall.head, if_neg (by simp [hvia]), hsvc, hname]
    rfl
  have hqs : ∀ q ∈ [(AskPsib.tag, lit "hi"), (AskPsib.tag, lit "so" ++ [0, 1])],
      Answerable 1024 q := by
    intro q hq
    rcases List.mem_cons.mp hq with rfl | hq
    · exact ⟨by rw [hsvc]; decide, by rw [hname]; decide, by simp [hvia], by decide, by decide⟩
    · obtain rfl := List.mem_singleton.mp hq
      exact ⟨by rw [hsvc]; decide, by rw [hname]; decide, by simp [hvia], by decide, by decide⟩
  have hround := answerRequests_all 1024 (c := c) (steady_pipe rfl rfl) rfl hqs
  simp only [List.map_cons, List.map_nil, hanswer] at hround
  exact hround

/-! ### The loop as steps -/

section System

variable {ι : Type} [DecidableEq ι] (svc name : ι → Str) (services : List Str)

/-- What the process is given when it asks for a request. -/
def Exchange.ask (x : Exchange ι) (size : Nat) (p : ι) : RecvReq :=
  mqRecvReq (x.net.client p) MqTag.zero (zeros size)

/-- How it asks. -/
def askStep (size : Nat) (p : ι) : ExchangeStep ι := .net (.recv p MqTag.zero (zeros size))

/-- The response to what it is given, for the process `asker`. -/
def Exchange.reply (x : Exchange ι) (size : Nat) (p asker : ι) : ExchangeStep ι :=
  .respond ⟨p, asker, (x.ask size p).tag, cstr (x.ask size p).buf⟩

/-- The steps of a round: it asks and replies until it is given nothing. -/
inductive IsRound (size : Nat) (p : ι) : Exchange ι → List (ExchangeStep ι) → Prop
  | nothing {x : Exchange ι} (h : (x.ask size p).rc < 0) : IsRound size p x [askStep size p]
  | reply {x : Exchange ι} (h : 0 ≤ (x.ask size p).rc) (asker : ι) {es : List (ExchangeStep ι)}
      (hes : IsRound size p ((x.step svc name services (askStep size p)).step svc name services
        (x.reply size p asker)) es) :
      IsRound size p x (askStep size p :: x.reply size p asker :: es)

theorem step_ask_client (x : Exchange ι) (size : Nat) (p : ι) :
    (x.step svc name services (askStep size p)).net.client p = (x.ask size p).sock := by
  show Function.update x.net.client p _ p = _
  rw [Function.update_self]
  rfl

theorem step_respond_client (x : Exchange ι) (a : Response ι) :
    (x.step svc name services (.respond a)).net.client a.sender
      = (mqSendRes (x.net.client a.sender) a.tag a.body).2 := by
  show Function.update x.net.client a.sender _ a.sender = _
  rw [Function.update_self]

variable {svc name services}

omit [DecidableEq ι] in
theorem answerRequests_ask (x : Exchange ι) (size : Nat) (p : ι) :
    answerRequests size (x.net.client p) = if 0 ≤ (x.ask size p).rc
      then answerRequests size
        (mqSendRes (x.ask size p).sock (x.ask size p).tag (cstr (x.ask size p).buf)).2
      else (x.ask size p).sock := answerRequests_eq _ _

/-- **The loop of the server is these steps.** -/
theorem answerRequests_steps {size : Nat} {p : ι} {x : Exchange ι} {es : List (ExchangeStep ι)}
    (h : IsRound svc name services size p x es) :
    (es.foldl (Exchange.step svc name services) x).net.client p
      = answerRequests size (x.net.client p) := by
  induction h with
  | @nothing x h =>
      rw [answerRequests_ask, if_neg (Int.not_le.mpr h)]
      exact step_ask_client svc name services x size p
  | @reply x h asker es hes ih =>
      have hclient := step_respond_client svc name services
        (x.step svc name services (askStep size p))
        ⟨p, asker, (x.ask size p).tag, cstr (x.ask size p).buf⟩
      rw [step_ask_client] at hclient
      rw [answerRequests_ask, if_pos h, ← hclient]
      exact ih

/-! ### Serving in a run -/

section Serving

variable (svc name services)

/-- The process itself asks for a request or responds. -/
def ExchangeStep.IsBy (p : ι) : ExchangeStep ι → Prop
  | .net (.recv q _ _) => q = p
  | .respond a => a.sender = p
  | _ => False

/-- At `n` the process is given a request, and the next thing it does is, at `m`, to reply to
the process that the tag names. -/
structure RepliesAt (size : Nat) (x : Exchange ι) (ev : Nat → ExchangeStep ι) (p : ι) (n m : Nat) :
    Prop where
  asks : ev n = askStep size p
  given : 0 ≤ ((x.after svc name services ev n).ask size p).rc
  later : n < m
  next : ∀ l, n < l → l < m → ¬ (ev l).IsBy p
  replies : ∃ asker, svc asker = ((x.after svc name services ev n).ask size p).tag.svc ∧
    name asker = ((x.after svc name services ev n).ask size p).tag.name ∧
    ev m = (x.after svc name services ev n).reply size p asker

/-- The process runs the loop: it replies to what it is given, and to nothing else. -/
structure Serves (size : Nat) (x : Exchange ι) (ev : Nat → ExchangeStep ι) (p : ι) : Prop where
  asks : ∀ n into buf, ev n = .net (.recv p into buf) → ev n = askStep size p
  replies : ∀ n, ev n = askStep size p → 0 ≤ ((x.after svc name services ev n).ask size p).rc →
    ∃ m, RepliesAt svc name services size x ev p n m
  only : ∀ m a, ev m = .respond a → a.sender = p → ∃ n, RepliesAt svc name services size x ev p n m

/-- A request that its sender can be sent an answer to. -/
structure Request.Question (size : Nat) (r : Request ι) : Prop where
  via : r.tag.viaInterhub = false
  svc : r.tag.svc = svc r.sender
  name : r.tag.name = name r.sender
  text : cstr r.body ≠ []
  fits : (cstr r.body).length < size

/-- Requests for the services of servers are questions; what servers send is up to them. -/
def ExchangeStep.Proper (size : Nat) (server : Str → Prop) : ExchangeStep ι → Prop
  | .net (.send r) => r.Valid services ∧ (server r.tgsvc → r.Question svc name size)
  | .respond a => ¬ server (svc a.sender) → a.Valid svc name
  | _ => True

variable {svc name services}

/-! ### What a process is given -/

section Steps

variable {x : Exchange ι} {held : Spot ι → List (Nat × Parcel ι)}

omit [DecidableEq ι] in
/-- The process is given the request in front, if there is one. -/
theorem ask_of_front (hw : x.Working svc name services) (h : Balanced svc x held) {p : ι}
    {y : Nat × Parcel ι} {rest : List (Nat × Parcel ι)} (hheld : held (.pull p) = y :: rest)
    (size : Nat) :
    ∃ k r, y = (k, .req r) ∧ r.tgsvc = svc p ∧ (x.ask size p).rc = 0 ∧
      (x.ask size p).tag = r.tag ∧ (x.ask size p).buf = store (zeros size) 0 r.body := by
  have hy : y ∈ held (.pull p) := by rw [hheld]; simp
  have hvalid := hw.valid_of_mem h hy
  have hsuits : y.2.isReq = true ∧ y.2.tgsvc = svc p := h.carried.belongs (.pull p) y hy
  obtain ⟨k, z⟩ := y
  cases z with
  | res a => exact absurd hsuits.1 (by simp [Parcel.isReq])
  | req r =>
      have hr : r.Valid services := hvalid
      have hpull : (x.net.client p).zmqPull = In.holding ([r.tag.mem, r.body] ::
          rest.map fun y => spotFrames svc (.pull p) y.2) := by
        rw [client_pull_holding hw h p, hheld]
        rfl
      have hask : x.ask size p = ⟨0, _, _, _⟩ := mqRecvReq_holding hpull hr.nonempty (zeros size)
      refine ⟨k, r, rfl, hsuits.2, ?_, ?_, ?_⟩
      · rw [hask]
      · rw [hask]
      · rw [hask]

omit [DecidableEq ι] in
theorem front_of_ask (hw : x.Working svc name services) (h : Balanced svc x held) {p : ι}
    {size : Nat} (hrc : 0 ≤ (x.ask size p).rc) : ∃ y rest, held (.pull p) = y :: rest := by
  cases hheld : held (.pull p) with
  | cons y rest => exact ⟨y, rest, rfl⟩
  | nil =>
      have hpull := client_pull_holding hw h p
      rw [hheld, List.map_nil] at hpull
      have hnone : x.ask size p = ⟨-1, x.net.client p, MqTag.zero, zeros size⟩ := by
        rw [Exchange.ask, mqRecvReq, hpull, recv_holding_nil]
      rw [hnone] at hrc
      exact absurd hrc (by simp)

/-- Only what a process receives joins what it was given. -/
theorem mem_handed_holds {e : ExchangeStep ι} {y : Nat × Parcel ι} {p : ι}
    (hy : y ∈ holds svc x held e (.handed p)) :
    y ∈ held (.handed p) ∨
      ∃ into buf rest, e = .net (.recv p into buf) ∧ held (.pull p) = y :: rest := by
  have hshift : ∀ {q : Spot ι} {n : Nat} {dest : Nat × Parcel ι → Spot ι}, q.isFinal = false →
      (∀ z, (dest z).isFinal = false) → y ∈ shift held q n dest (.handed p) →
      y ∈ held (.handed p) := by
    intro q n dest hq hdest hmem
    rwa [shift_final hq hdest n _ rfl] at hmem
  cases e with
  | net e =>
      cases e with
      | send r =>
          left
          rwa [holds, Placed.added_of_ne held (by simp)] at hy
      | toSlot q => exact Or.inl (hshift rfl (fun _ => rfl) hy)
      | pullToDealer s => exact Or.inl hy
      | dealerToPush s => exact Or.inl hy
      | toRouter s =>
          cases hd : (x.net.slot s).dealerOut.deliver with
          | none =>
              rw [holds, hd] at hy
              exact Or.inl hy
          | some r =>
              rw [holds, hd] at hy
              exact Or.inl (hshift rfl (fun _ => rfl) hy)
      | router =>
          refine Or.inl (hshift rfl (fun z => ?_) hy)
          unfold behindRouter
          split <;> rfl
      | toDealer s =>
          left
          rwa [holds, pick_of_ne (by simp) (by simp)] at hy
      | toProcess q =>
          cases hd : (x.net.slot (svc q)).push.deliver with
          | none =>
              rw [holds, hd] at hy
              exact Or.inl hy
          | some r =>
              rw [holds, hd] at hy
              exact Or.inl (hshift rfl (fun _ => rfl) hy)
      | recv q into buf =>
          rw [holds] at hy
          rcases (mem_spread y _).mp hy with ⟨hne, -⟩ | ⟨-, hstay⟩ | ⟨htake, hdest⟩
          · exact absurd hne (by simp)
          · exact Or.inl hstay
          · obtain rfl : q = p := by simpa using hdest
            cases hheld : held (.pull q) with
            | nil =>
                rw [hheld] at htake
                exact absurd htake List.not_mem_nil
            | cons z rest =>
                rw [hheld] at htake
                obtain rfl : y = z := List.mem_singleton.mp htake
                exact Or.inr ⟨into, buf, rest, rfl, rfl⟩
  | respond a =>
      left
      rwa [holds, Placed.added_of_ne held (by simp)] at hy
  | toSub s => exact Or.inl (hshift rfl (fun _ => rfl) hy)
  | subToPub s =>
      refine Or.inl (hshift rfl (fun z => ?_) hy)
      obtain ⟨k, z⟩ := z
      cases z <;> rfl
  | toSubscriber q => exact Or.inl (hshift rfl (fun _ => rfl) hy)
  | recvRes q buf =>
      rw [holds] at hy
      rcases (mem_spread y _).mp hy with ⟨hne, -⟩ | ⟨-, hstay⟩ | ⟨-, hdest⟩
      · exact absurd hne (by simp)
      · exact Or.inl hstay
      · exact absurd hdest (by simp)

end Steps

/-! ### What becomes of a question -/

section Run

variable {x : Exchange ι} {ev : Nat → ExchangeStep ι} {size : Nat} {server : Str → Prop}

theorem sent_grows {n m : Nat} (h : n ≤ m) :
    (x.after svc name services ev n).sent <+: (x.after svc name services ev m).sent := by
  induction h with
  | refl => exact List.prefix_rfl
  | step _ ih =>
      refine ih.trans ?_
      rw [Exchange.after, sent_step]
      exact List.prefix_append _ _

theorem sent_stays {n m k : Nat} {z : Parcel ι} (h : n ≤ m)
    (hk : (x.after svc name services ev n).sent[k]? = some z) :
    (x.after svc name services ev m).sent[k]? = some z := by
  obtain ⟨new, hnew⟩ : (x.after svc name services ev n).sent <+:
    (x.after svc name services ev m).sent := sent_grows h
  rw [← hnew, List.getElem?_append_left (List.getElem?_eq_some_iff.mp hk).1]
  exact hk

theorem sent_same {n m k : Nat} {z z' : Parcel ι}
    (hn : (x.after svc name services ev n).sent[k]? = some z)
    (hm : (x.after svc name services ev m).sent[k]? = some z') : z = z' := by
  rcases Nat.le_total n m with hle | hle
  · exact Option.some.inj ((sent_stays hle hn).symm.trans hm)
  · exact Option.some.inj (hn.symm.trans (sent_stays hle hm))

/-- Everything sent was sent by a step. -/
theorem sent_origin (hx : x.sent = []) {m k : Nat} {z : Parcel ι}
    (hk : (x.after svc name services ev m).sent[k]? = some z) :
    ∃ n, n < m ∧ z ∈ sentBy (x.after svc name services ev n) (ev n) ∧
      (x.after svc name services ev n).sent.length = k := by
  induction m with
  | zero =>
      rw [Exchange.after, hx] at hk
      exact absurd hk (by simp)
  | succ m ih =>
      rw [Exchange.after, sent_step] at hk
      by_cases hlt : k < (x.after svc name services ev m).sent.length
      · rw [List.getElem?_append_left hlt] at hk
        obtain ⟨n, hn, hz, hlen⟩ := ih hk
        exact ⟨n, Nat.lt_succ_of_lt hn, hz, hlen⟩
      · rw [List.getElem?_append_right (Nat.not_lt.mp hlt)] at hk
        have hone := length_sentBy_le (x.after svc name services ev m) (ev m)
        have hin := (List.getElem?_eq_some_iff.mp hk).1
        exact ⟨m, Nat.lt_succ_self m, List.mem_of_getElem? hk, by omega⟩

theorem RepliesAt.isBy {p : ι} {n m : Nat} (h : RepliesAt svc name services size x ev p n m) :
    (ev n).IsBy p ∧ (ev m).IsBy p := by
  obtain ⟨asker, -, -, hm⟩ := h.replies
  rw [h.asks, hm]
  exact ⟨rfl, rfl⟩

/-- The reply is the next thing the process does. -/
theorem RepliesAt.same_reply {p : ι} {n m m' : Nat}
    (h : RepliesAt svc name services size x ev p n m)
    (h' : RepliesAt svc name services size x ev p n m') : m = m' := by
  rcases Nat.lt_trichotomy m m' with hlt | heq | hlt
  · exact absurd h.isBy.2 (h'.next m h.later hlt)
  · exact heq
  · exact absurd h'.isBy.2 (h.next m' h'.later hlt)

/-- It is the reply to one request. -/
theorem RepliesAt.same_ask {p p' : ι} {n n' m : Nat}
    (h : RepliesAt svc name services size x ev p n m)
    (h' : RepliesAt svc name services size x ev p' n' m) : p = p' ∧ n = n' := by
  obtain ⟨asker, -, -, hm⟩ := h.replies
  obtain ⟨asker', -, -, hm'⟩ := h'.replies
  have hp : p = p' := by
    rw [hm, Exchange.reply, Exchange.reply] at hm'
    injection hm' with heq
    injection heq
  subst hp
  refine ⟨rfl, ?_⟩
  rcases Nat.lt_trichotomy n n' with hlt | heq | hlt
  · exact absurd h'.isBy.1 (h.next n' hlt h'.later)
  · exact heq
  · exact absurd h.isBy.1 (h'.next n hlt h.later)

/-- **What a server replies to was a question, and the reply is its answer.** -/
theorem RepliesAt.answers (hap : Apart svc name services) (hx : x.sent = []) {p : ι} {n m : Nat}
    (hw : (x.after svc name services ev n).Working svc name services)
    (hheld : Balanced svc (x.after svc name services ev n) (heldAfter svc name services x ev n))
    (hproper : ∀ l, (ev l).Proper svc name services size server) (hp : server (svc p))
    (h : RepliesAt svc name services size x ev p n m) :
    ∃ k r rest, heldAfter svc name services x ev n (.pull p) = (k, .req r) :: rest ∧
      r.tgsvc = svc p ∧ r.Valid services ∧ r.Question svc name size ∧
      ev m = .respond ⟨p, r.sender, r.tag, cstr r.body⟩ := by
  obtain ⟨y, rest, hfront⟩ := front_of_ask hw hheld h.given
  obtain ⟨k, r, rfl, htgsvc, -, htag, hbuf⟩ := ask_of_front hw hheld hfront size
  have hsent : (x.after svc name services ev n).sent[k]? = some (.req r) :=
    hheld.carried.placed.entry (.pull p) (k, .req r) (by rw [hfront]; simp)
  obtain ⟨l, -, hr, -⟩ := sent_origin hx hsent
  have hev : ev l = .net (.send r) := by
    rcases mem_sentBy hr with ⟨r', heq, hl⟩ | ⟨a, heq, -⟩
    · injection heq with heq
      rw [hl, heq]
    · exact absurd heq (by simp)
  have hl := hproper l
  rw [hev] at hl
  have hq : r.Question svc name size := hl.2 (by rw [htgsvc]; exact hp)
  obtain ⟨asker, hasker, hname, hm⟩ := h.replies
  rw [htag, hq.svc] at hasker
  rw [htag, hq.name] at hname
  obtain rfl : asker = r.sender := hap.names _ _ hasker (by rw [hname])
  refine ⟨k, r, rest, hfront, htgsvc, hl.1, hq, ?_⟩
  rw [hm, Exchange.reply, htag, hbuf, cstr_store_fits hq.fits]

/-- **All steps are valid when those of the processes that are no servers are.** -/
theorem valid_of_proper (hap : Apart svc name services) (hx : x.sent = [])
    (hw : x.Working svc name services) (hheld : Balanced svc x fun _ => [])
    (hproper : ∀ n, (ev n).Proper svc name services size server)
    (hserves : ∀ p, server (svc p) → Serves svc name services size x ev p) :
    ∀ n, (ev n).Valid svc name services := by
  intro n
  induction n using Nat.strong_induction_on with
  | h n ih =>
      have hn := hproper n
      cases hev : ev n with
      | net e =>
          rw [hev] at hn
          cases e with
          | send r => exact hn.1
          | _ => trivial
      | respond a =>
          rw [hev] at hn
          by_cases hserver : server (svc a.sender)
          · obtain ⟨l, hl⟩ := (hserves _ hserver).only n a hev rfl
            obtain ⟨hw', hheld'⟩ := keeps_until hap hw hheld l fun i hi =>
              ih i (Nat.lt_trans hi hl.later)
            obtain ⟨k, r, rest, -, -, hr, hq, hm⟩ := hl.answers hap hx hw' hheld' hproper hserver
            rw [← hev, hm]
            exact ⟨hq.via, hq.svc, hq.name, hq.text, Nat.le_trans (length_cstr_le _) hr.fits⟩
          · exact hn hserver
      | _ => trivial

/-- A request is given to a process by one step, which takes it from the front. -/
theorem exists_given {n : Nat} {y : Nat × Parcel ι} {p : ι}
    (h : y ∈ heldAfter svc name services x ev n (.handed p)) :
    ∃ l into buf rest, l < n ∧ ev l = .net (.recv p into buf) ∧
      heldAfter svc name services x ev l (.pull p) = y :: rest := by
  induction n with
  | zero => exact absurd h List.not_mem_nil
  | succ n ih =>
      rcases mem_handed_holds h with hbefore | ⟨into, buf, rest, he, hfront⟩
      · obtain ⟨l, into, buf, rest, hl, he, hfront⟩ := ih hbefore
        exact ⟨l, into, buf, rest, Nat.lt_succ_of_lt hl, he, hfront⟩
      · exact ⟨n, into, buf, rest, Nat.lt_succ_self n, he, hfront⟩

/-- And never again. -/
theorem given_once (hsound : Sound svc name services x ev) {y : Nat × Parcel ι} {p p' : ι}
    {n n' : Nat} {rest rest' : List (Nat × Parcel ι)} (he : ev n = askStep size p)
    (hfront : heldAfter svc name services x ev n (.pull p) = y :: rest)
    (he' : ev n' = askStep size p')
    (hfront' : heldAfter svc name services x ev n' (.pull p') = y :: rest') : n = n' := by
  have hlater : ∀ {p p' : ι} {n n' : Nat} {rest rest' : List (Nat × Parcel ι)},
      ev n = askStep size p → heldAfter svc name services x ev n (.pull p) = y :: rest →
      heldAfter svc name services x ev n' (.pull p') = y :: rest' → ¬ n < n' := by
    intro p p' n n' rest rest' he hfront hfront' hlt
    have hgiven : y ∈ heldAfter svc name services x ev (n + 1) (.handed p) := by
      rw [heldAfter, he]
      show y ∈ shift _ (Spot.pull p) 1 (fun _ => Spot.handed p) (Spot.handed p)
      rw [shift_first_self hfront (by simp)]
      simp
    have harrived : Arrives svc name services x ev y (n + 1) :=
      (hsound (n + 1)).2.received_of_final hgiven rfl
    have hy : y ∈ heldAfter svc name services x ev n' (.pull p') := by rw [hfront']; simp
    have hsuits := (hsound n').2.carried.belongs (.pull p') y hy
    obtain ⟨k, z⟩ := y
    cases z with
    | res a => exact absurd hsuits.1 (by simp [Parcel.isReq])
    | req r =>
        obtain ⟨q, -, hq⟩ := harrived.later hlt
        exact absurd ((hsound n').2.carried.placed.apart _ _ _ hy hq) (by simp)
  rcases Nat.lt_trichotomy n n' with hlt | heq | hlt
  · exact absurd hlt (hlater he hfront hfront')
  · exact heq
  · exact absurd hlt (hlater he' hfront' hfront)

/-- The response number `j` is the reply to the request number `k`. -/
def IsAnswer (svc name : ι → Str) (services : List Str) (size : Nat) (server : Str → Prop)
    (x : Exchange ι) (ev : Nat → ExchangeStep ι) (k j : Nat) : Prop :=
  ∃ p n m r rest, server (svc p) ∧ RepliesAt svc name services size x ev p n m ∧
    heldAfter svc name services x ev n (.pull p) = (k, .req r) :: rest ∧
    (x.after svc name services ev m).sent.length = j

/-- A request has one answer at most. -/
theorem IsAnswer.unique (hsound : Sound svc name services x ev) {k j j' : Nat}
    (h : IsAnswer svc name services size server x ev k j)
    (h' : IsAnswer svc name services size server x ev k j') : j = j' := by
  obtain ⟨p, n, m, r, rest, -, hreply, hfront, rfl⟩ := h
  obtain ⟨p', n', m', r', rest', -, hreply', hfront', rfl⟩ := h'
  have hsent := (hsound n).2.carried.placed.entry (.pull p) (k, .req r) (by rw [hfront]; simp)
  have hsent' := (hsound n').2.carried.placed.entry (.pull p') (k, .req r')
    (by rw [hfront']; simp)
  obtain rfl : r = r' := Parcel.req.inj (sent_same hsent hsent')
  obtain rfl : n = n' := given_once hsound hreply.asks hfront hreply'.asks hfront'
  have hp : p = p' := by
    have hasks := hreply.asks.symm.trans hreply'.asks
    simpa [askStep] using hasks
  subst hp
  rw [hreply.same_reply hreply']

theorem exists_answerOf (size : Nat) (server : Str → Prop)
    (hsound : Sound svc name services x ev) : ∃ answerOf : Nat → Nat, ∀ k j,
      IsAnswer svc name services size server x ev k j → answerOf k = j := by
  have hone : ∀ k, ∃ j, ∀ i, IsAnswer svc name services size server x ev k i → j = i := by
    intro k
    by_cases h : ∃ j, IsAnswer svc name services size server x ev k j
    · obtain ⟨j, hj⟩ := h
      exact ⟨j, fun i hi => hj.unique hsound hi⟩
    · exact ⟨0, fun i hi => absurd ⟨i, hi⟩ h⟩
  choose answerOf hanswer using hone
  exact ⟨answerOf, hanswer⟩

section Served

variable (hap : Apart svc name services) (hx : x.sent = [])
  (hsound : Sound svc name services x ev) (hvalid : ∀ n, (ev n).Valid svc name services)
  (hproper : ∀ n, (ev n).Proper svc name services size server)

include hap hsound hvalid

/-- A reply is sent when it is made. -/
theorem sent_reply {a : Response ι} {m : Nat} (hm : ev m = .respond a) :
    (x.after svc name services ev (m + 1)).sent
      = (x.after svc name services ev m).sent ++ [.res a] := by
  have ha := hvalid m
  rw [hm] at ha
  rw [Exchange.after, sent_step, hm, sentBy_respond hap (hsound m).1 ha]

/-- Two replies are two responses. -/
theorem reply_apart {a a' : Response ι} {m m' : Nat} (hm : ev m = .respond a)
    (hm' : ev m' = .respond a') (hlen : (x.after svc name services ev m).sent.length
      = (x.after svc name services ev m').sent.length) : m = m' := by
  have hless : ∀ {a : Response ι} {m m' : Nat}, ev m = .respond a → m < m' →
      (x.after svc name services ev m).sent.length
        < (x.after svc name services ev m').sent.length := by
    intro a m m' hm hlt
    have hle := (sent_grows (hlt : m + 1 ≤ m') :
      (x.after svc name services ev (m + 1)).sent <+: _).length_le
    rw [sent_reply hap hsound hvalid hm, List.length_append, List.length_singleton] at hle
    omega
  rcases Nat.lt_trichotomy m m' with hlt | heq | hlt
  · exact absurd hlen (Nat.ne_of_lt (hless hm hlt))
  · exact heq
  · exact absurd hlen.symm (Nat.ne_of_lt (hless hm' hlt))

/-- A response is the answer to one request at most. -/
theorem IsAnswer.injective {k k' j : Nat}
    (h : IsAnswer svc name services size server x ev k j)
    (h' : IsAnswer svc name services size server x ev k' j) : k = k' := by
  obtain ⟨p, n, m, r, rest, -, hreply, hfront, hj⟩ := h
  obtain ⟨p', n', m', r', rest', -, hreply', hfront', hj'⟩ := h'
  obtain ⟨asker, -, -, hm⟩ := hreply.replies
  obtain ⟨asker', -, -, hm'⟩ := hreply'.replies
  obtain rfl : m = m' := reply_apart hap hsound hvalid hm hm' (hj.trans hj'.symm)
  obtain ⟨rfl, rfl⟩ := hreply.same_ask hreply'
  rw [hfront] at hfront'
  injection hfront' with hhead
  injection hhead

include hx hproper

/-- The answer to a request goes back to its sender. -/
theorem IsAnswer.answers {k j : Nat} (h : IsAnswer svc name services size server x ev k j) :
    ∃ p r m, (x.after svc name services ev m).sent[k]? = some (.req r) ∧ r.tgsvc = svc p ∧
      (x.after svc name services ev m).sent[j]?
        = some (.res ⟨p, r.sender, r.tag, cstr r.body⟩) := by
  obtain ⟨p, n, m, r', rest', hserver, hreply, hfront', rfl⟩ := h
  obtain ⟨k', r, rest, hfront, htgsvc, -, -, hm⟩ :=
    hreply.answers hap hx (hsound n).1 (hsound n).2 hproper hserver
  rw [hfront] at hfront'
  injection hfront' with hhead
  injection hhead with hk hr
  subst hk
  have hsent := (hsound n).2.carried.placed.entry (.pull p) (k', .req r) (by rw [hfront]; simp)
  refine ⟨p, r, m + 1, sent_stays (Nat.le_succ_of_le (Nat.le_of_lt hreply.later)) hsent, htgsvc, ?_⟩
  rw [sent_reply hap hsound hvalid hm]
  simp

omit hvalid in
/-- **What a server sends is the answer to a request.** -/
theorem isAnswer_of_server (hserves : ∀ p, server (svc p) → Serves svc name services size x ev p)
    {m j : Nat} {a : Response ι} (hj : (x.after svc name services ev m).sent[j]? = some (.res a))
    (hserver : server (svc a.sender)) :
    ∃ k r, IsAnswer svc name services size server x ev k j ∧
      (x.after svc name services ev m).sent[k]? = some (.req r) ∧
      r.tgsvc = svc a.sender ∧ a = ⟨a.sender, r.sender, r.tag, cstr r.body⟩ := by
  obtain ⟨l, hl, hz, hlen⟩ := sent_origin hx hj
  have hev : ev l = .respond a := by
    rcases mem_sentBy hz with ⟨r, heq, -⟩ | ⟨a', heq, hl⟩
    · exact absurd heq (by simp)
    · injection heq with heq
      rw [hl, heq]
  obtain ⟨n, hreply⟩ := (hserves _ hserver).only l a hev rfl
  obtain ⟨k, r, rest, hfront, htgsvc, -, -, hm⟩ :=
    hreply.answers hap hx (hsound n).1 (hsound n).2 hproper hserver
  have hsent := (hsound n).2.carried.placed.entry (.pull a.sender) (k, .req r)
    (by rw [hfront]; simp)
  refine ⟨k, r, ⟨a.sender, n, l, r, rest, hserver, hreply, hfront, hlen⟩,
    sent_stays (Nat.le_of_lt (Nat.lt_trans hreply.later hl)) hsent, htgsvc, ?_⟩
  rw [hev] at hm
  injection hm

omit hx hvalid hproper in
/-- **A request to a server is answered.** -/
theorem exists_isAnswer (hserved : ∀ s ∈ services, ∃ p, svc p = s) (hmoves : Moves svc ev)
    (hserves : ∀ p, server (svc p) → Serves svc name services size x ev p)
    (hasks : ∀ p, server (svc p) → Recurs fun n => ev n = askStep size p) {n k : Nat}
    {r : Request ι} (hk : (x.after svc name services ev n).sent[k]? = some (.req r))
    (hr : server r.tgsvc) : ∃ j, IsAnswer svc name services size server x ev k j := by
  have hrvalid : r.Valid services := (hsound n).1.valid _ (List.mem_of_getElem? hk)
  have hfetched : Fetched svc ev (.req r) := by
    intro p hp
    exact (hasks p (by rw [hp]; exact hr)).mono fun l hl => ⟨_, _, hl⟩
  obtain ⟨spot, hspot⟩ := (hsound n).2.carried.placed.somewhere (k, .req r) hk
  obtain ⟨m, -, p, hp, hgiven⟩ := comesTo_arrives hsound hap hserved hmoves (z := (k, .req r))
    hfetched hrvalid spot n (waits_of_mem hspot)
  have hserver : server (svc p) := by rw [hp]; exact hr
  obtain ⟨l, into, buf, rest, -, he, hfront⟩ := exists_given hgiven
  have hask := (hserves p hserver).asks l into buf he
  obtain ⟨-, -, -, -, hrc, -, -⟩ := ask_of_front (hsound l).1 (hsound l).2 hfront size
  obtain ⟨i, hi⟩ := (hserves p hserver).replies l hask (Int.le_of_eq hrc.symm)
  exact ⟨_, p, l, i, r, rest, hserver, hi, hfront, rfl⟩

end Served

end Run

/-- **Every question to a server is answered, once, and the answer gets to the process that
asked.**  `answerOf` tells the answers: those to different requests are different, and what
the servers send is nothing else. -/
theorem servers_answer (hap : Apart svc name services) (hserved : ∀ s ∈ services, ∃ p, svc p = s)
    (interhub : Bool) (conn : ι → Int × Bool × Str) (size : Nat) (server : Str → Prop)
    (ev : Nat → ExchangeStep ι) (hproper : ∀ n, (ev n).Proper svc name services size server)
    (hserves : ∀ p, server (svc p) →
      Serves svc name services size (Exchange.start services interhub conn) ev p)
    (hmoves : Moves svc ev)
    (hasks : ∀ p, server (svc p) → Recurs fun n => ev n = askStep size p) :
    let x := (Exchange.start services interhub conn).after svc name services ev
    ∃ (held : Nat → Spot ι → List (Nat × Parcel ι)) (answerOf : Nat → Nat),
      (∀ n, Balanced svc (x n) (held n)) ∧
      (∀ n k r, (x n).sent[k]? = some (.req r) → server r.tgsvc →
        (Recurs fun n => ∃ buf, ev n = .recvRes r.sender buf) →
        ∃ p m, svc p = r.tgsvc ∧ ∀ l, m ≤ l →
          (answerOf k, .res ⟨p, r.sender, r.tag, cstr r.body⟩) ∈ held l (.replied r.sender)) ∧
      (∀ n n' k k' r r', (x n).sent[k]? = some (.req r) → server r.tgsvc →
        (x n').sent[k']? = some (.req r') → server r'.tgsvc → answerOf k = answerOf k' → k = k') ∧
      ∀ n j a, (x n).sent[j]? = some (.res a) → server (svc a.sender) →
        ∃ k r, (x n).sent[k]? = some (.req r) ∧ r.tgsvc = svc a.sender ∧ answerOf k = j ∧
          a = ⟨a.sender, r.sender, r.tag, cstr r.body⟩ := by
  intro x
  have hvalid := valid_of_proper hap rfl (working_start interhub conn)
    (balanced_start interhub conn) hproper hserves
  have hsound : Sound svc name services (Exchange.start services interhub conn) ev :=
    fun n => keeps_until hap (working_start interhub conn) (balanced_start interhub conn) n
      fun l _ => hvalid l
  -- the answer there is, if there is one
  obtain ⟨answerOf, hanswer⟩ := exists_answerOf size server hsound
  refine ⟨_, answerOf, fun n => (hsound n).2, ?_, ?_, ?_⟩
  · intro n k r hk hr hreceives
    obtain ⟨j, hj⟩ := exists_isAnswer hap hsound hserved hmoves hserves hasks hk hr
    obtain ⟨p, r', m, hk', htgsvc, hsent⟩ := hj.answers hap rfl hsound hvalid hproper
    obtain rfl : r = r' := Parcel.req.inj (sent_same hk hk')
    have hfetched : Fetched svc ev (.res ⟨p, r.sender, r.tag, cstr r.body⟩) := hreceives
    obtain ⟨spot, hspot⟩ := (hsound m).2.carried.placed.somewhere (j, .res _) hsent
    obtain ⟨l, -, harrives⟩ := comesTo_arrives hsound hap hserved hmoves (z := (j, .res _))
      hfetched ((hsound m).1.valid _ (List.mem_of_getElem? hsent)) spot m (waits_of_mem hspot)
    refine ⟨p, l, htgsvc.symm, fun i hi => ?_⟩
    rw [hanswer k j hj]
    exact harrives.later hi
  · intro n n' k k' r r' hk hr hk' hr' heq
    obtain ⟨j, hj⟩ := exists_isAnswer hap hsound hserved hmoves hserves hasks hk hr
    obtain ⟨j', hj'⟩ := exists_isAnswer hap hsound hserved hmoves hserves hasks hk' hr'
    rw [hanswer k j hj, hanswer k' j' hj'] at heq
    exact hj.injective hap hsound hvalid (heq ▸ hj')
  · intro n j a hj hserver
    obtain ⟨k, r, hanswers, hk, htgsvc, ha⟩ :=
      isAnswer_of_server hap rfl hsound hproper hserves hj hserver
    exact ⟨k, r, hk, htgsvc, hanswer k j hanswers, ha⟩

end Serving

end System

/-! ### A question and its answer -/

namespace AskPsib

def question : Request Bool := ⟨false, tag, lit "PSIB", lit "hi"⟩

def reply : Response Bool := ⟨true, false, tag, lit "hi"⟩

/-- The question gets to `psib`, which replies. -/
def asked : List (ExchangeStep Bool) :=
  [.net (.send question), .net (.toSlot false), .net (.pullToDealer (svc false)),
    .net (.toRouter (svc false)), .net .router, .net (.toDealer (svc true)),
    .net (.dealerToPush (svc true)), .net (.toProcess true), askStep 8 true, .respond reply]

/-- Everything has its turn, and nothing new is sent. -/
def idle : List (ExchangeStep Bool) :=
  .net .router :: askStep 8 true :: .recvRes false (zeros 8) :: [false, true].flatMap fun p =>
    [.net (.toSlot p), .net (.pullToDealer (svc p)), .net (.toRouter (svc p)),
      .net (.toDealer (svc p)), .net (.dealerToPush (svc p)), .net (.toProcess p),
      .toSub (svc p), .subToPub (svc p), .toSubscriber p]

def once (n : Nat) : ExchangeStep Bool :=
  asked[n]?.getD (idle[n % idle.length]?.getD (.net .router))

theorem once_idle {n : Nat} (hn : 10 ≤ n) : once n ∈ idle := by
  have hlen : n % idle.length < idle.length := Nat.mod_lt _ (by decide)
  have hasked : asked[n]? = none := List.getElem?_eq_none hn
  rw [once, hasked, List.getElem?_eq_getElem hlen]
  exact List.getElem_mem hlen

theorem recurs_once {e : ExchangeStep Bool} (he : e ∈ idle) : Recurs fun n => once n = e := by
  intro n
  obtain ⟨m, hm, hturn⟩ := Recurs.of_turns he (max n 10)
  have hasked : asked[m]? = none := List.getElem?_eq_none (Nat.le_trans (Nat.le_max_right n 10) hm)
  refine ⟨m, Nat.le_trans (Nat.le_max_left n 10) hm, ?_⟩
  show asked[m]?.getD _ = e
  rw [hasked, hturn]
  rfl

theorem moves_once : Moves svc once where
  toSlot p := recurs_once (by cases p <;> simp [idle])
  pullToDealer p := recurs_once (by cases p <;> simp [idle])
  toRouter p := recurs_once (by cases p <;> simp [idle])
  router := recurs_once (by simp [idle])
  toDealer p := recurs_once (by cases p <;> simp [idle])
  dealerToPush p := recurs_once (by cases p <;> simp [idle])
  toProcess p := recurs_once (by cases p <;> simp [idle])
  toSub p := recurs_once (by cases p <;> simp [idle])
  subToPub p := recurs_once (by cases p <;> simp [idle])
  toSubscriber p := recurs_once (by cases p <;> simp [idle])

/-- A kind of step that is not idle happens in the first ten. -/
theorem once_early {n : Nat} {e : ExchangeStep Bool} (h : once n = e) (he : e ∉ idle) :
    asked[n]? = some e := by
  by_cases hn : 10 ≤ n
  · exact absurd (h ▸ once_idle hn) he
  · have hlen : n < asked.length := Nat.not_le.mp hn
    rw [← h, once, List.getElem?_eq_getElem hlen]
    rfl

theorem once_send {n : Nat} {r : Request Bool} (h : once n = .net (.send r)) :
    n = 0 ∧ r = question := by
  have hasked := once_early h (by simp [idle, askStep])
  cases n with
  | zero =>
      injection hasked with he
      injection he with he
      injection he with hr
      exact ⟨rfl, hr.symm⟩
  | succ n =>
      have hmem : ExchangeStep.net (.send r) ∈ asked.tail := List.mem_of_getElem? hasked
      exact absurd hmem (by simp [asked, askStep])

theorem once_respond {n : Nat} {a : Response Bool} (h : once n = .respond a) :
    n = 9 ∧ a = reply := by
  have hasked := once_early h (by simp [idle, askStep])
  have hsplit : asked = asked.take 9 ++ [.respond reply] := rfl
  by_cases hn : n < 9
  · rw [hsplit, List.getElem?_append_left hn] at hasked
    exact absurd (List.mem_of_getElem? hasked) (by simp [asked, askStep])
  · rw [hsplit, List.getElem?_append_right (Nat.not_lt.mp hn)] at hasked
    obtain ⟨hlen, ha⟩ := List.getElem?_eq_some_iff.mp hasked
    have hlast : n - 9 < 1 := hlen
    obtain rfl : n = 9 := by omega
    injection ha with ha
    exact ⟨rfl, ha.symm⟩

theorem valid_question : question.Valid [lit "AHIF", lit "PSIB"] :=
  ⟨⟨by decide, by decide, by decide⟩, by decide, by decide, by decide⟩

theorem tag_svc : tag.svc = lit "AHIF" := by decide +kernel

theorem tag_name : tag.name = lit "ahif_1" := by decide +kernel

theorem tag_via : tag.viaInterhub = false := by decide +kernel

theorem proper_once (n : Nat) :
    (once n).Proper svc name [lit "AHIF", lit "PSIB"] 8 (· = lit "PSIB") := by
  cases he : once n with
  | net e =>
      cases e with
      | send r =>
          obtain ⟨-, rfl⟩ := once_send he
          exact ⟨valid_question, fun _ => ⟨tag_via, tag_svc, tag_name, by decide, by decide⟩⟩
      | _ => trivial
  | respond a =>
      obtain ⟨-, rfl⟩ := once_respond he
      exact fun hserver => absurd rfl hserver
  | _ => trivial

theorem valid_once (n : Nat) : (once n).Valid svc name [lit "AHIF", lit "PSIB"] := by
  have hproper := proper_once n
  cases he : once n with
  | net e =>
      rw [he] at hproper
      cases e with
      | send r => exact hproper.1
      | _ => trivial
  | respond a =>
      obtain ⟨-, rfl⟩ := once_respond he
      exact ⟨tag_via, tag_svc, tag_name, by decide, by decide⟩
  | _ => trivial

/-- The system at the start. -/
def start : Exchange Bool := Exchange.start [lit "AHIF", lit "PSIB"] false fun _ => (0, true, [])

theorem sound_once : Sound svc name [lit "AHIF", lit "PSIB"] start once := fun n =>
  keeps_until apart (working_start _ _) (balanced_start _ _) n fun l _ => valid_once l

/-- There is one question. -/
theorem front_question {n : Nat} {y : Nat × Parcel Bool} {rest : List (Nat × Parcel Bool)}
    (h : heldAfter svc name [lit "AHIF", lit "PSIB"] start once n (.pull true) = y :: rest) :
    y = (0, .req question) := by
  obtain ⟨k, r, rfl, -⟩ := ask_of_front (sound_once n).1 (sound_once n).2 h 8
  have hsent := (sound_once n).2.carried.placed.entry (.pull true) (k, .req r) (by rw [h]; simp)
  obtain ⟨l, -, hr, hk⟩ := sent_origin rfl hsent
  rcases mem_sentBy hr with ⟨r', heq, hl⟩ | ⟨a, heq, -⟩
  · obtain ⟨rfl, rfl⟩ := once_send hl
    exact Prod.ext hk.symm heq
  · exact absurd heq (by simp)

theorem front_eight :
    ∃ rest, heldAfter svc name [lit "AHIF", lit "PSIB"] start once 8 (.pull true)
      = (0, .req question) :: rest := by
  have hone : (heldAfter svc name [lit "AHIF", lit "PSIB"] start once 8 (.pull true)).map Prod.fst
      = [0] := by decide +kernel
  obtain ⟨y, rest, hfront, -⟩ := List.map_eq_cons_iff.mp hone
  exact ⟨rest, by rw [hfront, front_question hfront]⟩

theorem replies_eight :
    RepliesAt svc name [lit "AHIF", lit "PSIB"] 8 start once true 8 9 := by
  obtain ⟨rest, hfront⟩ := front_eight
  obtain ⟨k, r, heq, -, hrc, htag, hbuf⟩ :=
    ask_of_front (sound_once 8).1 (sound_once 8).2 hfront 8
  obtain rfl : question = r := Parcel.req.inj (congrArg Prod.snd heq)
  refine ⟨rfl, Int.le_of_eq hrc.symm, by decide, fun l _ _ => by omega, false, ?_, ?_, ?_⟩
  · rw [htag]
    exact tag_svc.symm
  · rw [htag]
    exact tag_name.symm
  · have hstore : cstr (store (zeros 8) 0 (lit "hi")) = lit "hi" := by decide
    rw [Exchange.reply, htag, hbuf]
    show once 9 = .respond ⟨true, false, tag, cstr (store (zeros 8) 0 (lit "hi"))⟩
    rw [hstore]
    rfl

theorem serves_once : Serves svc name [lit "AHIF", lit "PSIB"] 8 start once true where
  asks n into buf he := by
    have hin : once n ∈ asked ∨ once n ∈ idle := by
      by_cases hn : 10 ≤ n
      · exact Or.inr (once_idle hn)
      · have hlen : n < asked.length := Nat.not_le.mp hn
        rw [once, List.getElem?_eq_getElem hlen]
        exact Or.inl (List.getElem_mem hlen)
    rw [he] at hin ⊢
    simpa [asked, idle, askStep] using hin
  replies n he hrc := by
    obtain ⟨y, rest, hfront⟩ := front_of_ask (sound_once n).1 (sound_once n).2 hrc
    obtain rfl := front_question hfront
    obtain ⟨rest', hfront'⟩ := front_eight
    obtain rfl := given_once sound_once he hfront (rfl : once 8 = askStep 8 true) hfront'
    exact ⟨9, replies_eight⟩
  only m a he ha := by
    obtain ⟨rfl, rfl⟩ := once_respond he
    exact ⟨8, replies_eight⟩

end AskPsib

theorem servers_answer_psib :
    let x := AskPsib.start.after AskPsib.svc AskPsib.name [lit "AHIF", lit "PSIB"] AskPsib.once
    ∃ (held : Nat → Spot Bool → List (Nat × Parcel Bool)) (j : Nat),
      (∀ n, Balanced AskPsib.svc (x n) (held n)) ∧ ∃ m, ∀ l, m ≤ l →
        (j, .res ⟨true, false, AskPsib.tag, lit "hi"⟩) ∈ held l (.replied false) := by
  intro x
  obtain ⟨held, answerOf, hheld, hanswers, -⟩ := servers_answer AskPsib.apart
    (fun s hs => by
      rcases List.mem_cons.mp hs with rfl | hs
      · exact ⟨false, rfl⟩
      · exact ⟨true, (List.mem_singleton.mp hs).symm⟩)
    false (fun _ => (0, true, [])) 8 (· = lit "PSIB") AskPsib.once AskPsib.proper_once
    (fun p hp => by
      cases p with
      | true => exact AskPsib.serves_once
      | false => exact absurd hp (by decide))
    AskPsib.moves_once
    (fun p hp => by
      cases p with
      | true => exact AskPsib.recurs_once (by simp [AskPsib.idle])
      | false => exact absurd hp (by decide))
  have hsent : (x 1).sent[0]? = some (.req AskPsib.question) := by
    obtain ⟨r, hr⟩ : ∃ r, r = AskPsib.question := ⟨_, rfl⟩
    have hrc : (mqSendReq (AskPsib.start.net.client r.sender) r.tag r.tgsvc r.body).1 = 0 := by
      subst hr
      decide +kernel
    show (AskPsib.start.step _ _ _ (.net (.send AskPsib.question))).sent[0]? = _
    rw [← hr, sent_step, sentBy, if_pos hrc]
    rfl
  obtain ⟨p, m, hp, hm⟩ := hanswers 1 0 AskPsib.question hsent rfl
    ((AskPsib.recurs_once (e := .recvRes false (zeros 8)) (by simp [AskPsib.idle])).mono
      fun _ hn => ⟨_, hn⟩)
  obtain rfl : p = true := by
    cases p with
    | true => rfl
    | false => exact absurd hp (by decide)
  exact ⟨held, answerOf 0, hheld, m, hm⟩

end Brocoli
