/-
What travels between the processes: `mq.h`.

`mq_tag_t` and `mq_regi_t` are sent as their memory images, and parts of them are
overwritten in place by `sprintf`.  So both are kept as the image itself, a list of
bytes of the right length, and a field is what is read at its offset.  A string
field is a C string: it ends at the first NUL, in its own array or behind it.

    mq_tag_t    0 via_interhub   1 broker[48]   49 svc[24]   73 name[48]
    mq_regi_t   0 broker_host[24]   24 broker_name[48]   72 svc_host[24]   96 tag
                220 sndrcv   236 port   238 conn_type   240 current   248 before
-/
import Brocoli.Lib.CMem
import Brocoli.Lib.Multipart

namespace Brocoli

open CMem Multipart

/-! ### Constants -/

def maxBuffSize : Nat := 1024 * 12
def maxLogSize : Nat := 1024
def maxSvcNum : Nat := 128
def maxBrokerNum : Nat := 12

def mqReg : Str := lit "svc_reg"
def mqReq : Str := lit "svc_req"
def mqRes : Str := lit "svc_res"
def mqReqInterhub : Str := lit "svc_req_interhub"
def mqResInterhub : Str := lit "svc_res_interhub"
def mqLog : Str := lit "svc_log"
def mqConf : Str := lit "svc_conf"
def interhubName : Str := lit "inter_hub"

@[simp] theorem cstr_mqReq : cstr mqReq = mqReq := by decide

@[simp] theorem cstr_mqRes : cstr mqRes = mqRes := by decide

@[simp] theorem cstr_mqResInterhub : cstr mqResInterhub = mqResInterhub := by decide

def connIpc : Int := 0
def connTcp : Int := 1

/-- `time_t`, in seconds. -/
abbrev Time := Int

inductive NodeType where
  | interhub
  | broker
  | svc
  | proc
deriving DecidableEq

/-! ### Integers in an image -/

/-- The value of `n` once it is stored in a `short`. -/
def toShort (n : Int) : Int := n.bmod 65536

/-- Little endian, `k` bytes. -/
def leBytes : Nat → Int → List Byte
  | 0, _ => []
  | k + 1, n => UInt8.ofNat (n % 256).toNat :: leBytes k (n / 256)

def leNat : List Byte → Nat
  | [] => 0
  | b :: rest => b.toNat + 256 * leNat rest

/-- The signed integer stored in `bs`. -/
def leInt (bs : List Byte) : Int := Int.bmod (leNat bs) (Nat.pow 256 bs.length)

@[simp] theorem length_leBytes : ∀ (k : Nat) (n : Int), (leBytes k n).length = k := by
  intro k
  induction k with
  | zero => intro n; rfl
  | succ k ih => intro n; rw [leBytes, List.length_cons, ih]

theorem leNat_leBytes : ∀ (k : Nat) (n : Int),
    (leNat (leBytes k n) : Int) = n % (Nat.pow 256 k : Nat) := by
  intro k
  induction k with
  | zero => intro n; simp [leBytes, leNat]
  | succ k ih =>
      intro n
      have hbyte : ((UInt8.ofNat (n % 256).toNat).toNat : Int) = n % 256 := by
        have hlo : 0 ≤ n % 256 := Int.emod_nonneg n (by decide)
        have hhi : n % 256 < 256 := Int.emod_lt_of_pos n (by decide)
        have hmod : (n % 256).toNat % 256 = (n % 256).toNat := Nat.mod_eq_of_lt (by omega)
        simp only [UInt8.toNat_ofNat', hmod]
        omega
      have hpow : Nat.pow 256 (k + 1) = 256 * Nat.pow 256 k := Nat.pow_succ'
      rw [leBytes, leNat, Int.natCast_add, Int.natCast_mul, hbyte, ih, hpow, Int.natCast_mul]
      generalize ((Nat.pow 256 k : Nat) : Int) = m
      show n % 256 + 256 * (n / 256 % m) = n % (256 * m)
      rw [Int.emod_def n (256 * m), Int.emod_def n 256, Int.emod_def (n / 256) m,
        Int.ediv_ediv_of_nonneg (by decide), Int.mul_assoc]
      omega

/-- An integer is read back as what its width holds of it. -/
theorem leInt_leBytes (k : Nat) (n : Int) : leInt (leBytes k n) = n.bmod (Nat.pow 256 k) := by
  rw [leInt, leNat_leBytes, length_leBytes]
  exact Int.emod_bmod n _

/-- The value is what an `int` can hold. -/
def IsInt (n : Int) : Prop := -2147483648 ≤ n ∧ n < 2147483648

theorem IsInt.bmod {n : Int} (h : IsInt n) : n.bmod (Nat.pow 256 4) = n := by
  have hpow : Nat.pow 256 4 = 4294967296 := rfl
  rw [hpow]
  refine Int.bmod_eq_of_le ?_ ?_
  · have := h.1
    omega
  · have := h.2
    omega

/-- `mq_sndrcv_t` -/
structure MqSndrcv where
  sendCnt : Int
  recvCnt : Int
  sendByte : Int
  recvByte : Int
deriving DecidableEq

def MqSndrcv.zero : MqSndrcv := ⟨0, 0, 0, 0⟩

/-- No counter exceeds an `int`. -/
structure MqSndrcv.InRange (s : MqSndrcv) : Prop where
  sendCnt : IsInt s.sendCnt
  recvCnt : IsInt s.recvCnt
  sendByte : IsInt s.sendByte
  recvByte : IsInt s.recvByte

/-! ### The tag -/

/-- `mq_tag_t` -/
structure MqTag where
  mem : List Byte
  size : mem.length = 121
deriving DecidableEq

namespace MqTag

theorem ext' {t u : MqTag} (h : t.mem = u.mem) : t = u := by
  cases t
  cases u
  simpa using h

/-- `mq_tag_t tag = {0,}` -/
def zero : MqTag := ⟨zeros 121, length_zeros 121⟩

/-- The tag with bytes stored at an offset of its image. -/
def put (t : MqTag) (off : Nat) (bs : List Byte) : MqTag :=
  ⟨store t.mem off bs, by rw [length_store, t.size]⟩

/-- `zmq_recv(sock, &tag, sizeof(mq_tag_t), ..)` of a frame. -/
def recv (t : MqTag) (f : Frame) : MqTag := t.put 0 f

@[simp] theorem zero_mem : zero.mem = zeros 121 := rfl

@[simp] theorem put_mem (t : MqTag) (off : Nat) (bs : List Byte) :
    (t.put off bs).mem = store t.mem off bs := rfl

def viaInterhub (t : MqTag) : Bool := t.mem.headD 0 != 0
def broker (t : MqTag) : Str := cstr (t.mem.drop 1)
def svc (t : MqTag) : Str := cstr (t.mem.drop 49)
def name (t : MqTag) : Str := cstr (t.mem.drop 73)

/-- `tag.via_interhub = true` -/
def setViaInterhub (t : MqTag) : MqTag := t.put 0 [1]

/-- `sprintf(tag.broker, "%s", id)` -/
def setBroker (t : MqTag) (id : Str) : MqTag := t.put 1 (id ++ [0])

/-- `sprintf(tag.svc, "%s", svc)` -/
def setSvc (t : MqTag) (svc : Str) : MqTag := t.put 49 (svc ++ [0])

/-- `sprintf(tag.name, "%s", name)` -/
def setName (t : MqTag) (name : Str) : MqTag := t.put 73 (name ++ [0])

/-- Every string of the tag ends inside its own array. -/
structure Fits (t : MqTag) : Prop where
  broker : t.broker.length < 48
  svc : t.svc.length < 24
  name : t.name.length < 48

/-- A tag that is received as it was sent. -/
theorem recv_mem (t u : MqTag) : t.recv u.mem = u := by
  apply ext'
  rw [recv, put_mem, store_zero, List.take_of_length_le (by rw [t.size, u.size]),
    List.drop_eq_nil_of_le (by rw [t.size, u.size]), List.append_nil]

theorem mem_ne_nil (tag : MqTag) : tag.mem ≠ [] := by
  intro h
  have hsize := tag.size
  rw [h] at hsize
  exact absurd hsize (by decide)

/-- A frame shorter than the tag, received into a fresh one. -/
theorem recv_short {f : Frame} (h : f.length ≤ 121) :
    (zero.recv f).mem = f ++ zeros (121 - f.length) := by
  rw [recv, put_mem, zero_mem, store_front (by simpa using h), drop_zeros]

@[simp] theorem viaInterhub_setViaInterhub (t : MqTag) : t.setViaInterhub.viaInterhub = true := by
  simp [setViaInterhub, put, viaInterhub, store, t.size]

/-- A store behind the first byte leaves `via_interhub` alone. -/
theorem viaInterhub_put {t : MqTag} {off : Nat} (bs : List Byte) (h : 0 < off) :
    (t.put off bs).viaInterhub = t.viaInterhub := by
  have hsize := t.size
  rcases hm : t.mem with _ | ⟨b, rest⟩
  · simp [hm] at hsize
  · obtain ⟨k, rfl⟩ : ∃ k, off = k + 1 := ⟨off - 1, by omega⟩
    simp [viaInterhub, put, store, hm]

@[simp] theorem viaInterhub_setBroker (t : MqTag) (id : Str) :
    (t.setBroker id).viaInterhub = t.viaInterhub := viaInterhub_put _ (by omega)

/-- A store that ends before `off` leaves the string at `off` alone. -/
theorem str_put_before {t : MqTag} {at' off : Nat} {bs : List Byte}
    (h : at' + bs.length ≤ off) (hoff : off ≤ 121) :
    cstr ((t.put at' bs).mem.drop off) = cstr (t.mem.drop off) := by
  rw [put_mem, drop_store h (by rw [t.size]; omega)]

@[simp] theorem broker_setViaInterhub (t : MqTag) : t.setViaInterhub.broker = t.broker :=
  str_put_before (by simp) (by omega)

@[simp] theorem svc_setViaInterhub (t : MqTag) : t.setViaInterhub.svc = t.svc :=
  str_put_before (by simp) (by omega)

@[simp] theorem name_setViaInterhub (t : MqTag) : t.setViaInterhub.name = t.name :=
  str_put_before (by simp) (by omega)

theorem svc_setBroker (t : MqTag) {id : Str} (h : id.length < 48) : (t.setBroker id).svc = t.svc :=
  str_put_before (by simp; omega) (by omega)

theorem name_setBroker (t : MqTag) {id : Str} (h : id.length < 48) :
    (t.setBroker id).name = t.name :=
  str_put_before (by simp; omega) (by omega)

/-- A broker id that fits is read back from the tag. -/
theorem broker_setBroker (t : MqTag) {id : Str} (h0 : (0 : Byte) ∉ id) (h : id.length < 48) :
    (t.setBroker id).broker = id :=
  cstr_drop_store h0 (by rw [t.size]; omega)

end MqTag

/-- A name for a `char [n]`: there is one, and it fits with its NUL. -/
structure IsName (n : Nat) (s : Str) : Prop where
  nonempty : s ≠ []
  terminated : (0 : Byte) ∉ s
  fits : s.length < n

/-! ### The registration -/

/-- `mq_regi_t` -/
structure MqRegi where
  mem : List Byte
  size : mem.length = 256
deriving DecidableEq

namespace MqRegi

theorem ext' {r u : MqRegi} (h : r.mem = u.mem) : r = u := by
  cases r
  cases u
  simpa using h

/-- `mq_regi_t svc_regi = {0,}` -/
def zero : MqRegi := ⟨zeros 256, length_zeros 256⟩

/-- The registration with bytes stored at an offset of its image. -/
def put (r : MqRegi) (off : Nat) (bs : List Byte) : MqRegi :=
  ⟨store r.mem off bs, by rw [length_store, r.size]⟩

/-- `zmq_recv(sock, &svc_regi, sizeof(mq_regi_t), ..)` of a frame. -/
def recv (r : MqRegi) (f : Frame) : MqRegi := r.put 0 f

@[simp] theorem put_mem (r : MqRegi) (off : Nat) (bs : List Byte) :
    (r.put off bs).mem = store r.mem off bs := rfl

def brokerHost (r : MqRegi) : Str := cstr (r.mem.drop 0)
def brokerName (r : MqRegi) : Str := cstr (r.mem.drop 24)
def svcHost (r : MqRegi) : Str := cstr (r.mem.drop 72)
def tagSvc (r : MqRegi) : Str := cstr (r.mem.drop 145)
def tagName (r : MqRegi) : Str := cstr (r.mem.drop 169)

/-- The `k`-byte integer at an offset. -/
def int (r : MqRegi) (off k : Nat) : Int := leInt ((r.mem.drop off).take k)

def sndrcv (r : MqRegi) : MqSndrcv := ⟨r.int 220 4, r.int 224 4, r.int 228 4, r.int 232 4⟩
def port (r : MqRegi) : Int := r.int 236 2
def connType (r : MqRegi) : Int := r.int 238 2
def current (r : MqRegi) : Time := r.int 240 8
def before (r : MqRegi) : Time := r.int 248 8

/-- `sprintf(svc_regi.broker_host, "%s", s)` -/
def setBrokerHost (r : MqRegi) (s : Str) : MqRegi := r.put 0 (s ++ [0])

/-- `sprintf(svc_regi.broker_name, "%s", s)` -/
def setBrokerName (r : MqRegi) (s : Str) : MqRegi := r.put 24 (s ++ [0])

/-- `sprintf(svc_regi.svc_host, "%s", s)` -/
def setSvcHost (r : MqRegi) (s : Str) : MqRegi := r.put 72 (s ++ [0])

/-- `sprintf(svc_regi.tag.svc, "%s", s)` -/
def setTagSvc (r : MqRegi) (s : Str) : MqRegi := r.put 145 (s ++ [0])

/-- `sprintf(svc_regi.tag.name, "%s", s)` -/
def setTagName (r : MqRegi) (s : Str) : MqRegi := r.put 169 (s ++ [0])

/-- `memcpy(&svc_regi->sndrcv, &sndrcv, sizeof(mq_sndrcv_t))` -/
def setSndrcv (r : MqRegi) (s : MqSndrcv) : MqRegi :=
  r.put 220 (leBytes 4 s.sendCnt ++ leBytes 4 s.recvCnt ++ leBytes 4 s.sendByte
    ++ leBytes 4 s.recvByte)

/-- `svc_regi.port = n` -/
def setPort (r : MqRegi) (n : Int) : MqRegi := r.put 236 (leBytes 2 n)

/-- `svc_regi.conn_type = n` -/
def setConnType (r : MqRegi) (n : Int) : MqRegi := r.put 238 (leBytes 2 n)

/-- `svc_regi.current = t` -/
def setCurrent (r : MqRegi) (t : Time) : MqRegi := r.put 240 (leBytes 8 t)

/-- `svc_regi.before = t` -/
def setBefore (r : MqRegi) (t : Time) : MqRegi := r.put 248 (leBytes 8 t)

theorem brokerHost_setBrokerHost (r : MqRegi) {s : Str} (h0 : (0 : Byte) ∉ s)
    (h : s.length < 256) : (r.setBrokerHost s).brokerHost = s :=
  cstr_drop_store h0 (by rw [r.size]; omega)

/-- An integer is read back from where it was stored. -/
theorem int_put_self (r : MqRegi) {off k : Nat} (h : off + k ≤ 256) (n : Int) :
    (r.put off (leBytes k n)).int off k = n.bmod (Nat.pow 256 k) := by
  have hfits : off + (leBytes k n).length ≤ r.mem.length := by
    rw [length_leBytes, r.size]
    exact h
  have hwindow := window_store_self hfits
  rw [length_leBytes] at hwindow
  rw [int, put_mem, hwindow, leInt_leBytes]

/-- A store beside an integer leaves it alone. -/
theorem int_put_other (r : MqRegi) {at' off k : Nat} {bs : List Byte}
    (hfits : at' + bs.length ≤ 256) (h : off + k ≤ at' ∨ at' + bs.length ≤ off) :
    (r.put at' bs).int off k = r.int off k := by
  rw [int, put_mem, window_store_other (by rw [r.size]; exact hfits) h, int]

/-- The counters are read back from a registration when an `int` holds each. -/
theorem sndrcv_setSndrcv (r : MqRegi) {s : MqSndrcv} (h : s.InRange) :
    (r.setSndrcv s).sndrcv = s := by
  set bs := leBytes 4 s.sendCnt ++ leBytes 4 s.recvCnt ++ leBytes 4 s.sendByte
    ++ leBytes 4 s.recvByte with hbs
  have hlen : bs.length = 16 := by simp [hbs]
  have hfits : 220 + bs.length ≤ r.mem.length := by
    rw [hlen, r.size]
    omega
  have hwindow := window_store_self hfits
  rw [hlen] at hwindow
  -- each counter is a part of the sixteen bytes stored
  have hint : ∀ (pre post : List Byte) {n : Int}, IsInt n → bs = pre ++ (leBytes 4 n ++ post) →
      (r.setSndrcv s).int (220 + pre.length) 4 = n := by
    intro pre post n hn hsplit
    have hroom : pre.length + 4 ≤ 16 := by
      rw [← hlen, hsplit]
      simp
    have hpart : ((store r.mem 220 bs).drop (220 + pre.length)).take 4 = leBytes 4 n := by
      calc ((store r.mem 220 bs).drop (220 + pre.length)).take 4
          = ((((store r.mem 220 bs).drop 220).take 16).drop pre.length).take 4 := by
            rw [List.drop_take, List.take_take, List.drop_drop, Nat.min_eq_left (by omega)]
        _ = leBytes 4 n := by
            rw [hwindow, hsplit, List.drop_left, List.take_append_of_le_length (by simp),
              List.take_of_length_le (by simp)]
    show leInt (((store r.mem 220 bs).drop (220 + pre.length)).take 4) = n
    rw [hpart, leInt_leBytes]
    exact hn.bmod
  have hsendCnt : (r.setSndrcv s).int 220 4 = s.sendCnt :=
    hint [] (leBytes 4 s.recvCnt ++ leBytes 4 s.sendByte ++ leBytes 4 s.recvByte) h.sendCnt
      (by simp [hbs])
  have hrecvCnt : (r.setSndrcv s).int 224 4 = s.recvCnt :=
    hint (leBytes 4 s.sendCnt) (leBytes 4 s.sendByte ++ leBytes 4 s.recvByte) h.recvCnt
      (by simp [hbs])
  have hsendByte : (r.setSndrcv s).int 228 4 = s.sendByte :=
    hint (leBytes 4 s.sendCnt ++ leBytes 4 s.recvCnt) (leBytes 4 s.recvByte) h.sendByte
      (by simp [hbs])
  have hrecvByte : (r.setSndrcv s).int 232 4 = s.recvByte :=
    hint (leBytes 4 s.sendCnt ++ leBytes 4 s.recvCnt ++ leBytes 4 s.sendByte) [] h.recvByte
      (by simp [hbs])
  rw [sndrcv, hsendCnt, hrecvCnt, hsendByte, hrecvByte]

/-- A registration that is received as it was sent. -/
theorem recv_mem (r u : MqRegi) : r.recv u.mem = u := by
  apply ext'
  rw [recv, put_mem, store_zero, List.take_of_length_le (by rw [r.size, u.size]),
    List.drop_eq_nil_of_le (by rw [r.size, u.size]), List.append_nil]

/-- A port is always what a `short` can hold. -/
theorem port_range (r : MqRegi) : -32768 ≤ r.port ∧ r.port < 32768 := by
  have hlen : ((r.mem.drop 236).take 2).length = 2 := by simp [r.size]
  have hmod : Nat.pow 256 2 = 65536 := by decide
  simp only [port, int, leInt, hlen, hmod]
  generalize (leNat ((r.mem.drop 236).take 2) : Int) = n
  have hle : -(65536 / 2) ≤ n.bmod 65536 := Int.le_bmod (by decide)
  have hlt : n.bmod 65536 < (65536 + 1) / 2 := Int.bmod_lt (by decide)
  omega

end MqRegi

/-- The endpoint of a process: its service and its own name. -/
structure Addr where
  svc : Str
  name : Str
deriving DecidableEq

end Brocoli
