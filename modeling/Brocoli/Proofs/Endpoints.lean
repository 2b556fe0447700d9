/-
The addresses of a service: what its clients connect to and what its slot binds.

The two programs derive them from one registration.  The ipc names come from the name of
the service and agree.  The TCP ports come from a number on the command line, which is kept
in a `short`, which the client multiplies by ten before it divides by ten, and which the
broker rounds: they agree for the multiples of ten a `short` can hold.
-/
import Brocoli.Proofs.ServicePorts

namespace Brocoli

open CMem

/-! ### Numbers as text -/

theorem isDigit_digit {c : Char} (h : c.isDigit = true) :
    isDigit (UInt8.ofNat c.toNat) = true ∧ (UInt8.ofNat c.toNat).toNat = c.toNat := by
  have hc : 48 ≤ c.toNat ∧ c.toNat ≤ 57 := by
    simp only [Char.isDigit, Bool.and_eq_true, decide_eq_true_eq] at h
    exact ⟨UInt32.le_iff_toNat_le.mp h.1, UInt32.le_iff_toNat_le.mp h.2⟩
  have hval : (UInt8.ofNat c.toNat).toNat = c.toNat := by
    rw [UInt8.toNat_ofNat', Nat.mod_eq_of_lt (by omega)]
  refine ⟨?_, hval⟩
  simp only [isDigit, Bool.and_eq_true, decide_eq_true_eq, UInt8.le_iff_toNat_le, hval]
  exact hc

/-- A number is written in digits. -/
theorem isDigit_decimal (n : Nat) : ∀ b ∈ decimal n, isDigit b = true := by
  intro b hb
  obtain ⟨c, hc, rfl⟩ := List.mem_map.mp hb
  exact (isDigit_digit (Nat.isDigit_of_mem_toDigits (by omega) (by omega) hc)).1

/-- **A number is read back from its digits.** -/
theorem digitsVal_decimal (n : Nat) : digitsVal (decimal n) = n := by
  have hall : (decimal n).takeWhile isDigit = decimal n :=
    List.takeWhile_eq_self_iff.mpr (isDigit_decimal n)
  have hfold : ∀ (cs : List Char) (k : Nat), (∀ c ∈ cs, c.isDigit = true) →
      (cs.map fun c => UInt8.ofNat c.toNat).foldl (fun n b => 10 * n + (b.toNat - 48)) k
        = Nat.ofDigitChars 10 cs k := by
    intro cs
    induction cs with
    | nil => intro k _; simp
    | cons c cs ih =>
        intro k hcs
        obtain ⟨hc, hrest⟩ := List.forall_mem_cons.mp hcs
        rw [List.map_cons, List.foldl_cons, (isDigit_digit hc).2, ih _ hrest,
          Nat.ofDigitChars_cons]
        rfl
  rw [digitsVal, hall, decimal, hfold _ _ fun c hc =>
    Nat.isDigit_of_mem_toDigits (by omega) (by omega) hc]
  exact Nat.ofDigitChars_ten_toDigits

theorem decimal_ne_nil (n : Nat) : decimal n ≠ [] := by
  simp [decimal, Nat.toDigits_ne_nil]

/-- A digit is neither a space nor a sign. -/
theorem digit_plain {b : Byte} (h : isDigit b = true) :
    isSpace b = false ∧ b ≠ 45 ∧ b ≠ 43 ∧ b ≠ 58 := by
  simp only [isDigit, Bool.and_eq_true, decide_eq_true_eq, UInt8.le_iff_toNat_le] at h
  have hlo : 48 ≤ b.toNat := h.1
  have hhi : b.toNat ≤ 57 := h.2
  have hne : ∀ k : Byte, k.toNat < 48 ∨ 57 < k.toNat → b ≠ k := by
    rintro k hk rfl
    omega
  refine ⟨?_, hne 45 (by decide), hne 43 (by decide), hne 58 (by decide)⟩
  have hspace : b ≠ 32 := hne 32 (by decide)
  have hlt : ¬ b ≤ 13 := by
    rw [UInt8.le_iff_toNat_le]
    have h13 : (13 : Byte).toNat = 13 := rfl
    omega
  simp [isSpace, hspace, hlt]

theorem atoi_decimal (n : Nat) : atoi (decimal n) = n := by
  have hval := digitsVal_decimal n
  have hdigits := isDigit_decimal n
  rcases hd : decimal n with _ | ⟨b, rest⟩
  · exact absurd hd (decimal_ne_nil n)
  · rw [hd] at hval hdigits
    obtain ⟨hspace, hminus, hplus, -⟩ := digit_plain (hdigits b List.mem_cons_self)
    simp [atoi, hspace, hminus, hplus, hval]

/-- **What is printed with `%d` is read by `atoi`.** -/
theorem atoi_intText (n : Int) : atoi (intText n) = n := by
  unfold intText
  by_cases hn : n < 0
  · have hdash : lit "-" = [45] := rfl
    have hspace : isSpace 45 = false := rfl
    simp only [if_pos hn, hdash, atoi, List.singleton_append, List.dropWhile_cons, hspace]
    simp only [Bool.false_eq_true, if_false, List.head?_cons, if_true, List.tail_cons,
      digitsVal_decimal]
    omega
  · rw [if_neg hn, atoi_decimal]
    omega

theorem colon_notMem_intText (n : Int) : (58 : Byte) ∉ intText n := by
  have hdec : ∀ k : Nat, (58 : Byte) ∉ decimal k := fun k hmem =>
    (digit_plain (isDigit_decimal k 58 hmem)).2.2.2 rfl
  unfold intText
  split
  · have hdash : lit "-" = [45] := rfl
    simp [hdash, hdec]
  · exact hdec _

/-! ### Addresses -/

/-- The port of a TCP address: the number behind its last colon. -/
def tcpPort (addr : Str) : Int := atoi (addr.reverse.takeWhile (· ≠ 58)).reverse

@[simp] theorem tcpPort_tcpAddr (host : Str) (port : Int) : tcpPort (tcpAddr host port) = port := by
  have hcolon : lit ":" = [58] := rfl
  have htext : ∀ b ∈ (intText port).reverse, decide (b ≠ 58) = true := by
    intro b hb
    have hne : b ≠ 58 := by
      rintro rfl
      exact colon_notMem_intText port (List.mem_reverse.mp hb)
    simpa using hne
  rw [tcpPort, tcpAddr, hcolon, List.reverse_append, List.takeWhile_append_of_pos htext]
  simp [atoi_intText]

theorem tcpAddr_inj {host : Str} {m n : Int} (h : tcpAddr host m = tcpAddr host n) : m = n := by
  rw [← tcpPort_tcpAddr host m, h, tcpPort_tcpAddr]

theorem tcpAddr_ne_ipcAddr (host svc : Str) (port : Int) (suffix : String) :
    tcpAddr host port ≠ ipcAddr svc suffix := by
  intro h
  have hhead := congrArg List.head? h
  simp [tcpAddr, ipcAddr, lit] at hhead

/-- An address a client connects to leads to a socket with these addresses: it is one of
them, or it is for a TCP port that is bound on all interfaces. -/
def LeadsTo (viaIpc : Bool) (addr : Option Str) (bound : List Str) : Prop :=
  match addr with
  | none => False
  | some a => if viaIpc then a ∈ bound else 0 < tcpPort a ∧ tcpAddr (lit "*") (tcpPort a) ∈ bound

/-- The client and the slot agree: what a client subscribes to is what the slot publishes on,
it pulls from where the slot pushes, and pushes to where the slot pulls. -/
structure Agree (cliSock : ClientSock) (svcRegi : MqRegi) (svcCtx : Broker.SvcCtx) : Prop where
  sub : LeadsTo cliSock.viaIpc (makeAddrStr .sub svcRegi cliSock) (Broker.pubAddrs svcCtx)
  pull : LeadsTo cliSock.viaIpc (makeAddrStr .pull svcRegi cliSock) (Broker.pushAddrs svcCtx)
  push : LeadsTo cliSock.viaIpc (makeAddrStr .push svcRegi cliSock) (Broker.pullAddrs svcCtx)

theorem leadsTo_tcp (host : Str) (port offset : Int) (svcCtx : Broker.SvcCtx) (suffix : String) :
    LeadsTo false (some (tcpAddr host port)) (Broker.boundAddrs svcCtx offset suffix) ↔
      0 < port ∧ port = svcCtx.svcStartPort + offset := by
  have hne := tcpAddr_ne_ipcAddr (lit "*") svcCtx.svcName port suffix
  simp only [LeadsTo, Bool.false_eq_true, if_false, tcpPort_tcpAddr, Broker.boundAddrs,
    List.mem_cons, List.not_mem_nil, or_false, hne]
  exact and_congr_right fun _ => ⟨tcpAddr_inj, fun h => by rw [h]⟩

/-- Over TCP the client and the slot agree when the slot's port is the registration's. -/
theorem agree_tcp_iff {cliSock : ClientSock} (hvia : cliSock.viaIpc = false) (svcRegi : MqRegi)
    (svcCtx : Broker.SvcCtx) :
    Agree cliSock svcRegi svcCtx ↔ 0 < svcRegi.port ∧ svcRegi.port = svcCtx.svcStartPort := by
  constructor
  · intro h
    have hsub := h.sub
    simp only [makeAddrStr, hvia, Bool.false_eq_true, if_false] at hsub
    have hport := (leadsTo_tcp _ _ _ _ _).mp hsub
    simpa using hport
  · rintro ⟨hpos, hport⟩
    constructor
    all_goals
      simp only [makeAddrStr, hvia, Bool.false_eq_true, if_false]
      refine (leadsTo_tcp _ _ _ _ _).mpr ⟨by omega, by omega⟩

theorem agree_ipc {cliSock : ClientSock} (hvia : cliSock.viaIpc = true) {svcRegi : MqRegi}
    {svcCtx : Broker.SvcCtx} (hname : svcCtx.svcName = svcRegi.tagSvc) :
    Agree cliSock svcRegi svcCtx := by
  constructor
  all_goals
    simp [makeAddrStr, hvia, LeadsTo, Broker.pubAddrs, Broker.pushAddrs, Broker.pullAddrs,
      Broker.boundAddrs, hname]

/-! ### One registration -/

section Registration

variable (svcName progname : Str) (pid : Nat) (now : Time) (svcRegi : MqRegi)
  (cliSock : ClientSock)

/-- The port of a registration is the client's, as far as a `short` holds it. -/
theorem port_crtResTag :
    (crtResTag svcName progname pid now svcRegi cliSock).port = toShort cliSock.mySvcPort := by
  have hconn : ∀ r : MqRegi, ∀ n, (r.setConnType n).port = r.port := fun r n =>
    r.int_put_other (by simp) (by simp)
  have hbefore : ∀ r : MqRegi, ∀ t, (r.setBefore t).port = r.port := fun r t =>
    r.int_put_other (by simp) (by simp)
  have hcurrent : ∀ r : MqRegi, ∀ t, (r.setCurrent t).port = r.port := fun r t =>
    r.int_put_other (by simp) (by simp)
  have hmul : cliSock.mySvcPort * 10 / 10 = cliSock.mySvcPort := by omega
  rw [crtResTag, hcurrent, hbefore, hconn, hmul]
  exact MqRegi.int_put_self _ (by omega) _

/-- The slot of a registration has its port, rounded. -/
theorem setSvcSlot_port (id : Nat) (svcCtx : Broker.SvcCtx) :
    (Broker.setSvcSlot id svcRegi svcCtx).svcStartPort = svcRegi.port.tdiv 10 * 10 :=
  Broker.targetPort_eq svcRegi

/-- Over TCP what counts is what becomes of the port in a `short`. -/
theorem agree_crtResTag_iff (hvia : cliSock.viaIpc = false) (id : Nat)
    (svcCtx : Broker.SvcCtx) :
    Agree cliSock (crtResTag svcName progname pid now svcRegi cliSock)
        (Broker.setSvcSlot id (crtResTag svcName progname pid now svcRegi cliSock) svcCtx) ↔
      0 < toShort cliSock.mySvcPort ∧
        toShort cliSock.mySvcPort = (toShort cliSock.mySvcPort).tdiv 10 * 10 := by
  rw [agree_tcp_iff hvia, setSvcSlot_port, port_crtResTag]

theorem usage_port {prog arg : Str} {addr : List Str} {c : ClientSock}
    (h : usage (prog :: arg :: addr) cliSock = some c) : c.mySvcPort = toShort (atoi arg) := by
  rcases addr with _ | ⟨ip, _ | ⟨_, _⟩⟩
  · obtain rfl := Option.some.inj h
    rfl
  · obtain rfl := Option.some.inj h
    rfl
  · exact absurd h (by simp [usage])

/-- A port number that is kept in a `short` and rounded. -/
theorem round_toShort_iff {port : Nat} (hlow : 1 ≤ port) (hhigh : port ≤ 65535) :
    (0 < toShort port ∧ toShort port = (toShort port).tdiv 10 * 10) ↔ 10 ∣ port ∧ port ≤ 32767 := by
  by_cases hfits : port ≤ 32767
  · have hshort : toShort port = port := Broker.toShort_eq (by omega)
    rw [hshort, Int.tdiv_eq_ediv_of_nonneg (by omega)]
    omega
  · have hneg : toShort port = port - 65536 := by
      have hsame : toShort port = toShort (port - 65536) := (Int.sub_bmod_right _ _).symm
      rw [hsame]
      exact Broker.toShort_eq (by omega)
    omega

/-- **The client and the slot agree on the endpoints exactly when they use ipc, or the port is
a multiple of ten that a `short` holds.** -/
theorem endpoints_agree_iff {prog arg : Str} {addr : List Str} {port : Nat}
    (harg : atoi arg = port) (hlow : 1 ≤ port) (hhigh : port ≤ 65535)
    {c : ClientSock} (husage : usage (prog :: arg :: addr) cliSock = some c) (id : Nat)
    (svcCtx : Broker.SvcCtx) :
    Agree c (crtResTag svcName progname pid now svcRegi c)
        (Broker.setSvcSlot id (crtResTag svcName progname pid now svcRegi c) svcCtx) ↔
      c.viaIpc = true ∨ (10 ∣ port ∧ port ≤ 32767) := by
  have hshort : toShort c.mySvcPort = toShort port := by
    rw [usage_port cliSock husage, harg]
    exact Broker.toShort_eq (Broker.toShort_range _)
  cases hvia : c.viaIpc with
  | true =>
      generalize crtResTag svcName progname pid now svcRegi c = regi
      have hname : (Broker.setSvcSlot id regi svcCtx).svcName = regi.tagSvc := rfl
      simp [agree_ipc hvia hname]
  | false =>
      rw [agree_crtResTag_iff _ _ _ _ _ _ hvia, hshort, round_toShort_iff hlow hhigh]
      simp

end Registration

/-- Port 5000 over TCP. -/
theorem endpoints_agree_5000 :
    Agree (crtCliSock 5000 false (lit "127.0.0.1"))
      (crtResTag (lit "AHIF_V100") (lit "AHIF") 7 0 MqRegi.zero
        (crtCliSock 5000 false (lit "127.0.0.1")))
      (Broker.setSvcSlot 0 (crtResTag (lit "AHIF_V100") (lit "AHIF") 7 0 MqRegi.zero
        (crtCliSock 5000 false (lit "127.0.0.1"))) Broker.SvcCtx.zero) := by
  have hread : atoi (lit "5000") = (5000 : Nat) := by decide
  have hport : toShort (atoi (lit "5000")) = 5000 := by decide
  have husage : usage [lit "AHIF", lit "5000", lit "127.0.0.1"] (crtCliSock 0 false [])
      = some (crtCliSock 5000 false (lit "127.0.0.1")) := by
    rw [usage, hport]
    rfl
  exact (endpoints_agree_iff _ _ _ _ _ _ hread (by omega) (by omega) husage 0 _).mpr
    (Or.inr (by decide))

/-- Started with port 5004 and the broker's address, a client connects to 5004, and the slot
binds 5000. -/
theorem endpoints_apart :
    usage [lit "AHIF", lit "5004", lit "127.0.0.1"] (crtCliSock 0 false [])
        = some (crtCliSock 5004 false (lit "127.0.0.1")) ∧
      ¬ Agree (crtCliSock 5004 false (lit "127.0.0.1"))
        (crtResTag (lit "AHIF_V100") (lit "AHIF") 7 0 MqRegi.zero
          (crtCliSock 5004 false (lit "127.0.0.1")))
        (Broker.setSvcSlot 0 (crtResTag (lit "AHIF_V100") (lit "AHIF") 7 0 MqRegi.zero
          (crtCliSock 5004 false (lit "127.0.0.1"))) Broker.SvcCtx.zero) := by
  have hport : toShort (atoi (lit "5004")) = 5004 := by decide
  refine ⟨?_, ?_⟩
  · rw [usage, hport]
    rfl
  · rw [agree_crtResTag_iff _ _ _ _ _ _ rfl]
    decide

end Brocoli
