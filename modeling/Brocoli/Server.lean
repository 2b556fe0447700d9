/-
The programs that answer requests.

In each round of its main loop a server answers what has come, one request after the other:
it sends the body back, as a string, to where the tag of the request says.  `psib`, `smsib`,
`regib` and `feaib` are the same but for the names of their services; `perfr` has room for
longer bodies.
-/
import Brocoli.Wrapper

namespace Brocoli

open CMem Multipart

/-- The loop over `mq_recv_req`, with at most `fuel` iterations; `size` is the room for the
body.  Each iteration starts with an empty tag and an empty buffer. -/
def answerLoop (size : Nat) : Nat → ClientSock → ClientSock
  | 0, c => c
  | fuel + 1, c =>
      let r := mqRecvReq c MqTag.zero (zeros size)
      if 0 ≤ r.rc then answerLoop size fuel (mqSendRes r.sock r.tag (cstr r.buf)).2
      else r.sock

/-- A request that is received takes a part from the socket at least. -/
def answerRequests (size : Nat) (c : ClientSock) : ClientSock :=
  answerLoop size (c.zmqPull.queue.length + 1) c

def psibRound : ClientSock → ClientSock := answerRequests 1024

def smsibRound : ClientSock → ClientSock := answerRequests 1024

def regibRound : ClientSock → ClientSock := answerRequests 1024

def feaibRound : ClientSock → ClientSock := answerRequests 1024

def perfrRound : ClientSock → ClientSock := answerRequests maxBuffSize

/-! ### The loop ends -/

theorem mqSendRes_pull (c : ClientSock) (destTag : MqTag) (buf : Frame) :
    (mqSendRes c destTag buf).2.zmqPull = c.zmqPull := by
  unfold mqSendRes
  split
  · exact sendFrames_pull _ _ _
  · exact sendFrames_pull _ _ _

/-- A receive takes a part. -/
theorem recv_length {s s' : In} {f : Frame} (h : s.recv = some (f, s')) :
    s.queue.length = s'.queue.length + 1 := by
  unfold In.recv at h
  split at h
  · exact absurd h (by simp)
  · rename_i p ps hq
    obtain ⟨-, rfl⟩ := Prod.mk.inj (Option.some.inj h)
    rw [hq]
    rfl

/-- What is received has been taken from the socket. -/
theorem mqRecvReq_shrinks {c : ClientSock} {tag : MqTag} {buf : List Byte}
    (h : 0 ≤ (mqRecvReq c tag buf).rc) :
    (mqRecvReq c tag buf).sock.zmqPull.queue.length < c.zmqPull.queue.length := by
  unfold mqRecvReq at h ⊢
  split at h
  · exact absurd h (by simp)
  · rename_i f pull hf
    split at h
    · exact absurd h (by simp)
    · rename_i hf0
      split at h
      · exact absurd h (by simp)
      · rename_i hmore
        split at h
        · exact absurd h (by simp)
        · rename_i g pull' hg
          have hlen := recv_length hf
          have hlen' := recv_length hg
          split at h
          · exact absurd h (by simp)
          · rename_i hg0
            rw [if_neg hf0, if_neg hmore]
            simp only [if_neg hg0]
            omega

/-- **Enough iterations are all iterations.** -/
theorem answerLoop_enough (size : Nat) {fuel : Nat} {c : ClientSock}
    (h : c.zmqPull.queue.length < fuel) : answerLoop size fuel c = answerRequests size c := by
  have hany : ∀ (n m : Nat) (c : ClientSock), c.zmqPull.queue.length < n →
      c.zmqPull.queue.length < m → answerLoop size n c = answerLoop size m c := by
    intro n
    induction n with
    | zero => intro m c hn; exact absurd hn (Nat.not_lt_zero _)
    | succ n ih =>
        intro m c hn hm
        cases m with
        | zero => exact absurd hm (Nat.not_lt_zero _)
        | succ m =>
            show (if _ then _ else _) = (if _ then _ else _)
            by_cases hrc : 0 ≤ (mqRecvReq c MqTag.zero (zeros size)).rc
            · have hless := mqRecvReq_shrinks hrc
              rw [if_pos hrc, if_pos hrc]
              refine ih m _ ?_ ?_
              · rw [mqSendRes_pull]
                omega
              · rw [mqSendRes_pull]
                omega
            · rw [if_neg hrc, if_neg hrc]
  exact hany fuel _ c h (Nat.lt_succ_self _)

/-- One iteration after the other. -/
theorem answerRequests_eq (size : Nat) (c : ClientSock) :
    answerRequests size c =
      let r := mqRecvReq c MqTag.zero (zeros size)
      if 0 ≤ r.rc then answerRequests size (mqSendRes r.sock r.tag (cstr r.buf)).2
      else r.sock := by
  show (if _ then _ else _) = (if _ then _ else _)
  by_cases hrc : 0 ≤ (mqRecvReq c MqTag.zero (zeros size)).rc
  · rw [if_pos hrc, if_pos hrc]
    refine answerLoop_enough size ?_
    rw [mqSendRes_pull]
    exact mqRecvReq_shrinks hrc
  · rw [if_neg hrc, if_neg hrc]

end Brocoli
