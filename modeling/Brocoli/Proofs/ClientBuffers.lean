/-
The caller's buffer in the receivers of a client.

`zmq_recv` stores what fits and returns the length of the frame, and `MAKE_EOF` writes its
NUL at that length.  The receivers are written out here a second time, with every access to
the buffer; nothing else differs.  They stay inside the buffer exactly when the frame that
goes into it leaves room for the NUL.
-/
import Brocoli.Client
import Brocoli.Lib.Bounds

namespace Brocoli

open CMem Multipart Bounds Traced

/-! ### The receivers with their accesses -/

/-- The bytes a receive stores, as many as there is room for. -/
def recvInto (buf : List Byte) (f : Frame) : Traced (List Byte) := do
  access (min f.length buf.length) buf.length
  return store buf 0 f

/-- `MAKE_EOF` -/
def makeEofAt (buf : List Byte) (byte : Nat) : Traced (List Byte) := do
  access (byte + 1) buf.length
  return makeEof buf byte

/-- `mq_recv_res` -/
def recvResTraced (c : ClientSock) (buf : List Byte) : Traced RecvRes :=
  match c.zmqSub.recv with
  | none => return ⟨-1, c, buf⟩
  | some (name, sub) =>
      if name.length = 0 then return ⟨-1, { c with zmqSub := sub }, buf⟩
      else
        match sub.recv with
        | none => do
            let buf ← makeEofAt buf 0
            return ⟨-1, { c with zmqSub := sub }, buf⟩
        | some (f, sub') => do
            let buf ← recvInto buf f
            let buf ← makeEofAt buf f.length
            if f.length = 0 then return ⟨-1, { c with zmqSub := sub' }, buf⟩
            else
              return ⟨0, { c with zmqSub := sub', sndrcv := countRecv c.sndrcv f.length }, buf⟩

/-- A receive and `MAKE_EOF` behind it. -/
def recvEofTraced (s : In) (buf : List Byte) : Traced (In × List Byte) :=
  match s.recv with
  | none => do
      let buf ← makeEofAt buf 0
      return (s, buf)
  | some (f, s') => do
      let buf ← recvInto buf f
      let buf ← makeEofAt buf f.length
      return (s', buf)

/-- `mq_recv_conf_body` -/
def recvConfBodyTraced (c : ClientSock) (buf : List Byte) : Traced RecvRes := do
  let r ← recvEofTraced c.zmqConf buf
  return ⟨if r.1.more then 0 else -1, { c with zmqConf := r.1 }, r.2⟩

/-- The conf socket behind the frame in front of the name. -/
def behindTag (s : In) : In :=
  match s.recv with
  | none => s
  | some (_, s') => s'

/-- `mq_recv_conf_name` -/
def recvConfNameTraced (c : ClientSock) (buf : List Byte) : Traced RecvRes :=
  let conf := behindTag c.zmqConf
  if conf.more then do
    let r ← recvEofTraced conf buf
    return ⟨if r.1.more then 0 else -1, { c with zmqConf := r.1 }, r.2⟩
  else return ⟨-1, { c with zmqConf := conf }, buf⟩

/-! ### The accesses change nothing -/

theorem recvResTraced_val (c : ClientSock) (buf : List Byte) :
    (recvResTraced c buf).val = mqRecvRes c buf := by
  unfold recvResTraced mqRecvRes
  cases c.zmqSub.recv with
  | none => rfl
  | some r =>
      obtain ⟨name, sub⟩ := r
      simp only [val_ite, val_pure]
      cases sub.recv with
      | none => rfl
      | some r =>
          obtain ⟨f, sub'⟩ := r
          simp only [val_bind, val_ite, val_pure]
          rfl

theorem recvEofTraced_val (s : In) (buf : List Byte) :
    (recvEofTraced s buf).val = recvEof s buf := by
  unfold recvEofTraced recvEof
  cases s.recv with
  | none => rfl
  | some r => rfl

theorem recvConfBodyTraced_val (c : ClientSock) (buf : List Byte) :
    (recvConfBodyTraced c buf).val = mqRecvConfBody c buf := by
  rw [recvConfBodyTraced, val_bind, recvEofTraced_val]
  rfl

theorem recvConfNameTraced_val (c : ClientSock) (buf : List Byte) :
    (recvConfNameTraced c buf).val = mqRecvConfName c buf := by
  simp only [recvConfNameTraced, val_ite, val_bind, val_pure, recvEofTraced_val]
  rfl

/-! ### Room for the NUL -/

/-- The frame that goes into the buffer, if one does, leaves room for the NUL. -/
def HasRoom (buf : List Byte) (f : Option Frame) : Prop := ∀ g, f = some g → g.length < buf.length

/-- The front of the buffer is the front of the frame, and a NUL. -/
def HoldsPrefix (buf : List Byte) (f : Frame) : Prop := ∃ n, f.take n ++ [0] <+: buf

/-- The buffer is respected: what is written is inside it, and after a call that returned 0 it
holds a terminated prefix of the frame. -/
structure Respects (call : Traced RecvRes) (f : Option Frame) : Prop where
  safe : call.Safe
  holds : call.val.rc = 0 → ∀ g, f = some g → HoldsPrefix call.val.buf g

theorem makeEofAt_safe_iff (buf : List Byte) (byte : Nat) :
    (makeEofAt buf byte).Safe ↔ byte < buf.length := by
  unfold makeEofAt
  rw [safe_bind_iff, safe_access_iff, and_iff_left (safe_pure _)]
  exact Nat.succ_le_iff

/-- A receive into the buffer, and the NUL behind it. -/
theorem recvInto_makeEofAt_safe_iff {α : Type} (buf : List Byte) (f : Frame)
    (k : List Byte → Traced α) (hk : ∀ b, (k b).Safe) :
    (recvInto buf f >>= fun b => makeEofAt b f.length >>= k).Safe ↔ f.length < buf.length := by
  have hmin : min f.length buf.length ≤ buf.length := Nat.min_le_right _ _
  simp [recvInto, makeEofAt_safe_iff, hmin, hk]

/-- A frame that leaves room is in the buffer with its NUL. -/
theorem holdsPrefix_makeEof {buf : List Byte} {f : Frame} (h : f.length < buf.length) :
    HoldsPrefix (makeEof (store buf 0 f) f.length) f := by
  refine ⟨f.length, ?_⟩
  rw [makeEof, store_set_end h, List.take_length]
  exact ⟨buf.drop (f.length + 1), by simp⟩

theorem hasRoom_none (buf : List Byte) : HasRoom buf none := fun _ h => absurd h (by simp)

@[simp] theorem hasRoom_some_iff (buf : List Byte) (f : Frame) :
    HasRoom buf (some f) ↔ f.length < buf.length := by
  simp [HasRoom]

theorem recvEofTraced_safe_iff {buf : List Byte} (hbuf : 1 ≤ buf.length) (s : In) :
    (recvEofTraced s buf).Safe ↔ HasRoom buf (s.recv.map Prod.fst) := by
  unfold recvEofTraced
  cases s.recv with
  | none =>
      have hsafe : (makeEofAt buf 0).Safe := (makeEofAt_safe_iff buf 0).mpr hbuf
      simp [hsafe, hasRoom_none]
  | some r =>
      rw [Option.map_some, hasRoom_some_iff]
      exact recvInto_makeEofAt_safe_iff buf r.1 _ fun _ => safe_pure _

theorem recvEofTraced_holds {buf : List Byte} {s : In} (h : HasRoom buf (s.recv.map Prod.fst)) :
    ∀ g, s.recv.map Prod.fst = some g → HoldsPrefix (recvEof s buf).2 g := by
  intro g hg
  have hlen := h g hg
  unfold recvEof
  cases hs : s.recv with
  | none => rw [hs] at hg; exact absurd hg (by simp)
  | some r =>
      rw [hs] at hg
      obtain rfl := Option.some.inj hg
      exact holdsPrefix_makeEof hlen

/-! ### The receivers -/

/-- The frame `mq_recv_res` puts into the buffer: the one behind the name, when that is not
empty. -/
def resFrame (c : ClientSock) : Option Frame :=
  match c.zmqSub.recv with
  | none => none
  | some (name, sub) => if name.length = 0 then none else sub.recv.map Prod.fst

/-- The frame `mq_recv_conf_name` puts into the buffer: the one behind the tag, when that is
not the last. -/
def confNameFrame (c : ClientSock) : Option Frame :=
  if (behindTag c.zmqConf).more then (behindTag c.zmqConf).recv.map Prod.fst else none

/-- The frame `mq_recv_conf_body` puts into the buffer. -/
def confBodyFrame (c : ClientSock) : Option Frame := c.zmqConf.recv.map Prod.fst

variable {buf : List Byte}

theorem recvRes_respects_iff (hbuf : 1 ≤ buf.length) (c : ClientSock) :
    Respects (recvResTraced c buf) (resFrame c) ↔ HasRoom buf (resFrame c) := by
  have hsafe : (recvResTraced c buf).Safe ↔ HasRoom buf (resFrame c) := by
    unfold recvResTraced resFrame
    cases c.zmqSub.recv with
    | none => simp [hasRoom_none]
    | some r =>
        obtain ⟨name, sub⟩ := r
        by_cases hname : name.length = 0
        · simp [hname, hasRoom_none]
        · simp only [if_neg hname]
          cases sub.recv with
          | none =>
              have hnul : (makeEofAt buf 0).Safe := (makeEofAt_safe_iff buf 0).mpr hbuf
              simp [hnul, hasRoom_none]
          | some r =>
              rw [Option.map_some, hasRoom_some_iff]
              exact recvInto_makeEofAt_safe_iff buf r.1 _ fun _ => by split <;> simp
  refine ⟨fun h => hsafe.mp h.safe, fun h => ⟨hsafe.mpr h, ?_⟩⟩
  intro hrc g hg
  have hlen := h g hg
  rw [recvResTraced_val] at hrc ⊢
  unfold mqRecvRes at hrc ⊢
  unfold resFrame at hg
  cases hsub : c.zmqSub.recv with
  | none => rw [hsub] at hg; exact absurd hg (by simp)
  | some r =>
      obtain ⟨name, sub⟩ := r
      rw [hsub] at hrc hg
      by_cases hname : name.length = 0
      · simp [hname] at hg
      · simp only [if_neg hname] at hrc hg ⊢
        cases hbody : sub.recv with
        | none => rw [hbody] at hg; exact absurd hg (by simp)
        | some r =>
            rw [hbody] at hrc hg
            obtain rfl := Option.some.inj hg
            simp only
            split <;> exact holdsPrefix_makeEof hlen

theorem recvConfBody_respects_iff (hbuf : 1 ≤ buf.length) (c : ClientSock) :
    Respects (recvConfBodyTraced c buf) (confBodyFrame c) ↔ HasRoom buf (confBodyFrame c) := by
  have hsafe : (recvConfBodyTraced c buf).Safe ↔ HasRoom buf (confBodyFrame c) := by
    simp [recvConfBodyTraced, recvEofTraced_safe_iff hbuf, confBodyFrame]
  refine ⟨fun h => hsafe.mp h.safe, fun h => ⟨hsafe.mpr h, fun _ g hg => ?_⟩⟩
  rw [recvConfBodyTraced_val]
  exact recvEofTraced_holds h g hg

theorem recvConfName_respects_iff (hbuf : 1 ≤ buf.length) (c : ClientSock) :
    Respects (recvConfNameTraced c buf) (confNameFrame c) ↔ HasRoom buf (confNameFrame c) := by
  have hsafe : (recvConfNameTraced c buf).Safe ↔ HasRoom buf (confNameFrame c) := by
    unfold recvConfNameTraced confNameFrame
    by_cases hmore : (behindTag c.zmqConf).more = true
    · simp [hmore, recvEofTraced_safe_iff hbuf]
    · simp [hmore, hasRoom_none]
  refine ⟨fun h => hsafe.mp h.safe, fun h => ⟨hsafe.mpr h, fun _ g hg => ?_⟩⟩
  unfold confNameFrame at h hg
  by_cases hmore : (behindTag c.zmqConf).more = true
  · rw [if_pos hmore] at h hg
    simp only [recvConfNameTraced, hmore, if_true, val_bind, val_pure, recvEofTraced_val]
    exact recvEofTraced_holds h g hg
  · rw [if_neg hmore] at hg
    exact absurd hg (by simp)

/-- **The receivers respect the caller's buffer exactly when the frame that goes into it is
shorter than the buffer.** -/
theorem receivers_respect_iff (hbuf : 1 ≤ buf.length) (c : ClientSock) :
    (Respects (recvResTraced c buf) (resFrame c) ↔ HasRoom buf (resFrame c)) ∧
      (Respects (recvConfNameTraced c buf) (confNameFrame c) ↔ HasRoom buf (confNameFrame c)) ∧
      (Respects (recvConfBodyTraced c buf) (confBodyFrame c) ↔ HasRoom buf (confBodyFrame c)) :=
  ⟨recvRes_respects_iff hbuf c, recvConfName_respects_iff hbuf c, recvConfBody_respects_iff hbuf c⟩

/-- A client with a response on its subscriber and a configuration on its conf socket. -/
def waitingClient (body name chunk : Frame) : ClientSock :=
  { crtCliSock 5000 true [] with
    zmqSub := In.holding [[lit "AHIF_7", body]]
    zmqConf := In.holding [[mqConf, name, chunk, []]] }

/-- A response of 4 bytes in a buffer of 5. -/
theorem receivers_respect_five :
    Respects (recvResTraced (waitingClient (lit "pong") [] []) (zeros 5)) (some (lit "pong")) := by
  have hroom : HasRoom (zeros 5) (some (lit "pong")) := by
    rw [hasRoom_some_iff]
    decide
  have hbuf : 1 ≤ (zeros 5).length := by decide
  exact (receivers_respect_iff hbuf (waitingClient (lit "pong") [] [])).1.mpr hroom

/-- A response of 5 bytes in a buffer of 5: the NUL is written behind the buffer. -/
theorem recvRes_overruns :
    ¬ Respects (recvResTraced (waitingClient (lit "pongs") [] []) (zeros 5))
      (resFrame (waitingClient (lit "pongs") [] [])) := by
  rw [recvRes_respects_iff (by decide)]
  show ¬ HasRoom (zeros 5) (some (lit "pongs"))
  rw [hasRoom_some_iff]
  decide

end Brocoli
