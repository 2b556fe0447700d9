/-
The rest of a client: heartbeats, logs, configurations and addresses, in `zmq_wrapper.c`.

A heartbeat carries the traffic counted since the last one, and the counters start again
from zero before it is known whether it could be sent.  A log line is sent like a request,
with a body of its own making.

A configuration is read with two functions.  `mq_recv_conf_name` takes the first two frames
of a message and `mq_recv_conf_body` one of the others at each call; what counts is
`RCVMORE`, not what the receives return.
-/
import Brocoli.Wrapper

namespace Brocoli

open CMem Multipart

/-! ### Sending -/

/-- The sends of a function that counts nothing: all frames but the last must be non-empty
and accepted, and then the last. -/
def pushFrames (o : Out) (head : Msg) (body : Frame) : Int × Out :=
  match o.sendWhile (0 < ·) head with
  | (false, o') => (-1, o')
  | (true, o') =>
      match o'.send body false with
      | (answer, o'') => (if sentBytes answer ≤ 0 then -1 else 0, o'')

/-- The log buffer as a string: who speaks, and of the formatted text what `vsnprintf` has
room for. -/
def logLine (svcRegi : MqRegi) (text : Str) : Frame :=
  let who := svcRegi.tagSvc ++ lit "|" ++ svcRegi.tagName ++ lit "] "
  cstr (who ++ text.take (maxLogSize - who.length - 1))

def mqSendLog (c : ClientSock) (svcRegi : MqRegi) (text : Str) : Int × ClientSock :=
  let r := pushFrames c.zmqPush [mqLog] (logLine svcRegi text)
  (r.1, { c with zmqPush := r.2 })

/-- What `mq_regi` leaves: its return value, the socket and the registration.  A heartbeat
that is sent ends behind the last statement, where nothing is returned. -/
structure Registered where
  rc : Option Int
  sock : ClientSock
  svcRegi : MqRegi

def mqRegi (c : ClientSock) (svcRegi : MqRegi) (now : Time) : Registered :=
  let svcRegi := svcRegi.setCurrent now
  if svcRegi.current - svcRegi.before ≥ 1 then
    let svcRegi := svcRegi.setBefore svcRegi.current
    -- the counters are moved whether or not the sends go through
    let svcRegi := svcRegi.setSndrcv c.sndrcv
    let r := pushFrames c.zmqPub [mqReg] svcRegi.mem
    ⟨if r.1 = 0 then none else some r.1, { c with zmqPub := r.2, sndrcv := MqSndrcv.zero },
      svcRegi⟩
  else ⟨some 0, c, svcRegi⟩

/-! ### Configurations -/

/-- A receive into the caller's buffer with `MAKE_EOF` behind it, whatever it returned. -/
def recvEof (s : In) (buf : List Byte) : In × List Byte :=
  match s.recv with
  | none => (s, makeEof buf 0)
  | some (f, s') => (s', makeEof (store buf 0 f) f.length)

def mqRecvConfBody (c : ClientSock) (buf : List Byte) : RecvRes :=
  let r := recvEof c.zmqConf buf
  ⟨if r.1.more then 0 else -1, { c with zmqConf := r.1 }, r.2⟩

def mqRecvConfName (c : ClientSock) (buf : List Byte) : RecvRes :=
  -- nor is the result of the first receive looked at
  let conf := match c.zmqConf.recv with
    | none => c.zmqConf
    | some (_, conf) => conf
  if conf.more then
    let r := recvEof conf buf
    ⟨if r.1.more then 0 else -1, { c with zmqConf := r.1 }, r.2⟩
  else ⟨-1, { c with zmqConf := conf }, buf⟩

/-- A client whose conf socket is empty keeps it, with its flag. -/
theorem mqRecvConfBody_nil {c : ClientSock} {more : Bool} (h : c.zmqConf = ⟨[], more⟩)
    (buf : List Byte) :
    mqRecvConfBody c buf
      = ⟨if more then 0 else -1, { c with zmqConf := ⟨[], more⟩ }, makeEof buf 0⟩ := by
  rw [mqRecvConfBody, h]
  rfl

theorem mqRecvConfBody_cons {c : ClientSock} {p : Part} {q : List Part} {more : Bool}
    (h : c.zmqConf = ⟨p :: q, more⟩) (buf : List Byte) :
    mqRecvConfBody c buf = ⟨if p.more then 0 else -1, { c with zmqConf := ⟨q, p.more⟩ },
      makeEof (store buf 0 p.bytes) p.bytes.length⟩ := by
  rw [mqRecvConfBody, h]
  rfl

/-- The name is the second frame. -/
theorem mqRecvConfName_holding {c : ClientSock} {tag name : Frame} {rest : Msg} {ms : List Msg}
    (h : c.zmqConf = In.holding ((tag :: name :: rest) :: ms)) (hrest : rest ≠ [])
    (buf : List Byte) :
    mqRecvConfName c buf = ⟨0, { c with zmqConf := ⟨parts rest ++ stream ms, true⟩ },
      makeEof (store buf 0 name) name.length⟩ := by
  rw [mqRecvConfName, h, recv_holding_cons (by simp), parts_cons hrest]
  rfl

/-! ### Addresses -/

/-- `isspace` -/
def isSpace (b : Byte) : Bool := b == 32 || (9 ≤ b && b ≤ 13)

/-- `isdigit` -/
def isDigit (b : Byte) : Bool := 48 ≤ b && b ≤ 57

/-- The number the digits at the front of a string make. -/
def digitsVal (s : Str) : Nat :=
  (s.takeWhile isDigit).foldl (fun n b => 10 * n + (b.toNat - 48)) 0

/-- `atoi`, of a number that an `int` holds. -/
def atoi (s : Str) : Int :=
  let s := s.dropWhile isSpace
  if s.head? = some 45 then -(digitsVal s.tail)
  else if s.head? = some 43 then digitsVal s.tail
  else digitsVal s

/-- `%d` -/
def intText (n : Int) : Str := if n < 0 then lit "-" ++ decimal n.natAbs else decimal n.natAbs

/-- What `usage` makes of the command line; `none` where it exits. -/
def usage (argv : List Str) (cliSock : ClientSock) : Option ClientSock :=
  match argv with
  | [_, port] => some { cliSock with viaIpc := true, mySvcPort := toShort (atoi port) }
  | [_, port, brokerIp] =>
      some { cliSock with
        viaIpc := false
        mySvcPort := toShort (atoi port)
        tcpAddress := brokerIp }
  | _ => none

/-- The socket types of a client. -/
inductive SockType where
  | pub
  | sub
  | pull
  | push
deriving DecidableEq

def ipcAddr (svc : Str) (suffix : String) : Str := lit "ipc://" ++ svc ++ lit suffix

def tcpAddr (host : Str) (port : Int) : Str := lit "tcp://" ++ host ++ lit ":" ++ intText port

/-- `none` where `make_addr_str` exits. -/
def makeAddrStr (sockType : SockType) (svcRegi : MqRegi) (cliSock : ClientSock) : Option Str :=
  if cliSock.viaIpc then
    match sockType with
    | .sub => some (ipcAddr svcRegi.tagSvc "_PUBL.ipc")
    | .pull => some (ipcAddr svcRegi.tagSvc "_PUSH.ipc")
    | .push => some (ipcAddr svcRegi.tagSvc "_PULL.ipc")
    | .pub => none
  else
    match sockType with
    | .sub => some (tcpAddr cliSock.tcpAddress svcRegi.port)
    | .pull => some (tcpAddr cliSock.tcpAddress (svcRegi.port + 1))
    | .push => some (tcpAddr cliSock.tcpAddress (svcRegi.port + 2))
    | .pub => none

end Brocoli
