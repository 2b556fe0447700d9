/-
A configuration on its way to a client: from the file to the strings a client reads.

The encoder cuts the file into the chunks `fgets` returns and closes the message with an
empty frame, the slot of the service drops the frame it was addressed with, and the client
takes the name from the first call and a chunk from each of the others.  The decoder knows
the end by `RCVMORE` alone: the empty frame is the one that has nothing behind it.
-/
import Brocoli.Client
import Brocoli.Conf

namespace Brocoli

open CMem Multipart

/-! ### The encoder -/

theorem fgets_append : ∀ (n : Nat) (file : List Byte),
    (fgets n file).1 ++ (fgets n file).2 = file := by
  intro n
  induction n with
  | zero => intro file; rfl
  | succ n ih =>
      intro file
      cases file with
      | nil => rfl
      | cons b file =>
          rw [fgets]
          by_cases hb : b = 10
          · simp [hb]
          · simp [hb, ih]

/-- What is left of a file that is not empty is shorter. -/
theorem length_fgets_le_left (n : Nat) (b : Byte) (file : List Byte) :
    (fgets (n + 1) (b :: file)).2.length ≤ file.length := by
  have happend := congrArg List.length (fgets_append (n + 1) (b :: file))
  have hpos : 0 < (fgets (n + 1) (b :: file)).1.length := by
    rw [fgets]
    split <;> simp
  rw [List.length_append, List.length_cons] at happend
  omega

/-- **The chunks are the file**, when it has no NUL. -/
theorem fgetsChunks_flatten : ∀ (fuel : Nat) (file : List Byte), (0 : Byte) ∉ file →
    file.length ≤ fuel → (fgetsChunks fuel file).flatten = file := by
  intro fuel
  induction fuel with
  | zero =>
      intro file _ hlen
      obtain rfl := List.eq_nil_of_length_eq_zero (Nat.le_zero.mp hlen)
      rfl
  | succ fuel ih =>
      intro file h0 hlen
      cases file with
      | nil => rfl
      | cons b file =>
          have happend := fgets_append 1023 (b :: file)
          have hchunk : (0 : Byte) ∉ (fgets 1023 (b :: file)).1 := fun h =>
            h0 (happend ▸ List.mem_append_left _ h)
          have hleft : (0 : Byte) ∉ (fgets 1023 (b :: file)).2 := fun h =>
            h0 (happend ▸ List.mem_append_right _ h)
          have hshort : (fgets 1023 (b :: file)).2.length ≤ file.length :=
            length_fgets_le_left 1022 b file
          rw [List.length_cons] at hlen
          rw [fgetsChunks, List.flatten_cons, cstr_of_notMem hchunk, ih _ hleft (by omega),
            happend]

/-- A chunk is a string. -/
theorem fgetsChunks_terminated : ∀ (fuel : Nat) (file : List Byte),
    ∀ f ∈ fgetsChunks fuel file, (0 : Byte) ∉ f := by
  intro fuel
  induction fuel with
  | zero => intro file f hf; simp [fgetsChunks] at hf
  | succ fuel ih =>
      intro file f hf
      cases file with
      | nil => simp [fgetsChunks] at hf
      | cons b file =>
          rw [fgetsChunks] at hf
          rcases List.mem_cons.mp hf with rfl | hf
          · exact zero_notMem_cstr _
          · exact ih _ f hf

/-! ### The slot -/

/-- The message of a configuration without the frame it is addressed with. -/
def confParts (conf : Str) (file : List Byte) : Msg :=
  mqConf :: conf :: (fgetsChunks file.length file ++ [[]])

theorem confMsg_eq (svc conf : Str) (file : List Byte) :
    confMsg svc conf file = svc :: confParts conf file := by
  simp [confMsg, confParts]

/-- Nothing of it is too long for the relay. -/
theorem relayable_confParts {conf : Str} (hconf : conf.length < 1024) (file : List Byte) :
    Relayable (confParts conf file) := by
  have hmax : maxBuffSize = 12288 := rfl
  intro f hf
  simp only [confParts, List.mem_cons, List.mem_append, List.not_mem_nil, or_false] at hf
  rcases hf with rfl | rfl | hchunk | rfl
  · decide
  · omega
  · have := length_fgetsChunks _ _ f hchunk
    omega
  · simp

/-- The slot passes the configuration of its service on as it is. -/
theorem since_subToPub {slot : SvcSlot} (hpub : slot.pub.kind = .pub) {conf : Str}
    (hconf : conf.length < 1024) {file : List Byte}
    (hsub : slot.sub = In.holding [confMsg slot.svcName conf file]) :
    slot.pub.since slot.subToPub.pub = [confParts conf file] := by
  have hne : confParts conf file ≠ [] := by simp [confParts]
  rw [SvcSlot.subToPub, hsub, confMsg_eq, mqRelayCallbackSubToPub_one hpub hne,
    map_buffered (relayable_confParts hconf file)]
  exact since_put_parts _ hne

/-! ### The client -/

/-- The strings of the calls of `mq_recv_conf_body` that returned 0, up to the first that did
not, and what that one left.  The `i`-th call is given the buffer `bufs i`. -/
def readConf (bufs : Nat → List Byte) : Nat → ClientSock → List Str × RecvRes
  | 0, c => ([], mqRecvConfBody c (bufs 0))
  | fuel + 1, c =>
      let r := mqRecvConfBody c (bufs 0)
      if r.rc = 0 then
        let rest := readConf (fun i => bufs (i + 1)) fuel r.sock
        (cstr r.buf :: rest.1, rest.2)
      else ([], r)

/-- A part that is read into a buffer with room for its terminator. -/
theorem cstr_makeEof {buf f : List Byte} (h0 : (0 : Byte) ∉ f) (h : f.length < buf.length) :
    cstr (makeEof (store buf 0 f) f.length) = f := by
  rw [makeEof, cstr_store_set h, cstr_of_notMem h0]

/-- **The chunks are read one by one, and the empty frame ends the reading.** -/
theorem readConf_chunks {ms : List Msg} : ∀ (chunks : List Frame) {fuel : Nat} {c : ClientSock}
    {more : Bool} {bufs : Nat → List Byte}, (∀ f ∈ chunks, (0 : Byte) ∉ f ∧ f.length < 1024) →
    (∀ i, 1024 ≤ (bufs i).length) → chunks.length ≤ fuel →
    c.zmqConf = ⟨parts (chunks ++ [[]]) ++ stream ms, more⟩ →
    (readConf bufs fuel c).1 = chunks ∧ (readConf bufs fuel c).2.rc ≠ 0 ∧
      (readConf bufs fuel c).2.sock = { c with zmqConf := In.holding ms } := by
  intro chunks
  induction chunks with
  | nil =>
      intro fuel c more bufs _ _ _ hconf
      have hbody := mqRecvConfBody_cons hconf (bufs 0)
      cases fuel with
      | zero =>
          rw [readConf, hbody]
          exact ⟨rfl, by simp, rfl⟩
      | succ fuel =>
          rw [readConf]
          simp only [hbody, Bool.false_eq_true, if_false]
          exact ⟨rfl, by simp, rfl⟩
  | cons f chunks ih =>
      intro fuel c more bufs hchunks hbufs hfuel hconf
      obtain ⟨⟨h0, hlen⟩, hrest⟩ := List.forall_mem_cons.mp hchunks
      obtain ⟨k, rfl⟩ : ∃ k, fuel = k + 1 := ⟨fuel - 1, by simp at hfuel; omega⟩
      rw [List.cons_append, parts_cons (by simp), List.cons_append] at hconf
      have hbody := mqRecvConfBody_cons hconf (bufs 0)
      have hread : cstr (makeEof (store (bufs 0) 0 f) f.length) = f :=
        cstr_makeEof h0 (Nat.lt_of_lt_of_le hlen (hbufs 0))
      obtain ⟨hstrs, hend, hsock⟩ := @ih k
        { c with zmqConf := ⟨parts (chunks ++ [[]]) ++ stream ms, true⟩ } true
        (fun i => bufs (i + 1)) hrest (fun i => hbufs (i + 1)) (by simpa using hfuel) rfl
      rw [readConf]
      simp only [hbody, if_true]
      exact ⟨by rw [hstrs, hread], hend, hsock⟩

/-- **A configuration comes to the client as it is in the file.** -/
theorem conf_round_trip {file : List Byte} (hfile : (0 : Byte) ∉ file) {broker : Out}
    (hbroker : broker.kind = .pub) {slot : SvcSlot} (hslot : slot.pub.kind = .pub) {conf : Str}
    (hconf0 : (0 : Byte) ∉ conf) (hconf : conf.length < 1024)
    (hsub : slot.sub = In.holding (subscribed [slot.svcName]
      (broker.since (publishConfFromFile broker (some file) slot.svcName conf))))
    {c : ClientSock} {later : List Msg}
    (hc : c.zmqConf
      = In.holding (subscribed [mqConf] (slot.pub.since slot.subToPub.pub) ++ later))
    {buf : List Byte} (hbuf : 1024 ≤ buf.length) {bufs : Nat → List Byte}
    (hbufs : ∀ i, 1024 ≤ (bufs i).length) {fuel : Nat}
    (hfuel : (mqRecvConfName c buf).sock.zmqConf.queue.length ≤ fuel) :
    (mqRecvConfName c buf).rc = 0 ∧ cstr (mqRecvConfName c buf).buf = conf ∧
      (readConf bufs fuel (mqRecvConfName c buf).sock).1.flatten = file ∧
      (readConf bufs fuel (mqRecvConfName c buf).sock).2.rc ≠ 0 ∧
      (readConf bufs fuel (mqRecvConfName c buf).sock).2.sock.zmqConf = In.holding later := by
  have hpublished : broker.since (publishConfFromFile broker (some file) slot.svcName conf)
      = [confMsg slot.svcName conf file] := by
    rw [publishConfFromFile_pub hbroker]
    exact since_put_parts _ (by simp [confMsg])
  have hheard : slot.sub = In.holding [confMsg slot.svcName conf file] := by
    rw [hsub, hpublished, confMsg_eq, subscribed_one, if_pos (List.prefix_refl _)]
  have hrest : fgetsChunks file.length file ++ [[]] ≠ [] := by simp
  rw [since_subToPub hslot hconf hheard, confParts, subscribed_one,
    if_pos (List.prefix_refl _), List.singleton_append] at hc
  have hname := mqRecvConfName_holding hc hrest buf
  rw [hname] at hfuel ⊢
  have hlen : (fgetsChunks file.length file).length ≤ fuel := by
    simp only [List.length_append, length_parts, List.length_singleton] at hfuel
    omega
  obtain ⟨hstrs, hend, hsock⟩ := readConf_chunks (fgetsChunks file.length file)
    (c := { c with
      zmqConf := ⟨parts (fgetsChunks file.length file ++ [[]]) ++ stream later, true⟩ })
    (fun f hf => ⟨fgetsChunks_terminated _ _ f hf,
      Nat.lt_of_le_of_lt (length_fgetsChunks _ _ f hf) (by omega)⟩) hbufs hlen rfl
  refine ⟨rfl, cstr_makeEof hconf0 (by omega), ?_, hend, ?_⟩
  · rw [hstrs, fgetsChunks_flatten _ _ hfile (Nat.le_refl _)]
  · rw [hsock]

/-- The broker publishes two lines for `AHIF`. -/
def ahifPublished : List Msg :=
  (Out.mk .pub [] []).since
    (publishConfFromFile ⟨.pub, [], []⟩ (some (lit "a=1\nb=2")) (lit "AHIF") (lit "log"))

/-- The slot that has got them. -/
def ahifSlot : SvcSlot :=
  { connectSvcSlot (lit "AHIF") with sub := In.holding (subscribed [lit "AHIF"] ahifPublished) }

/-- The client of the slot. -/
def ahifClient : ClientSock :=
  { crtCliSock 5000 true [] with
    zmqConf := In.holding (subscribed [mqConf] (ahifSlot.pub.since ahifSlot.subToPub.pub) ++ []) }

theorem conf_round_trip_ahif :
    (mqRecvConfName ahifClient (zeros 1024)).rc = 0 ∧
      cstr (mqRecvConfName ahifClient (zeros 1024)).buf = lit "log" ∧
      (readConf (fun _ => zeros 1024)
        (mqRecvConfName ahifClient (zeros 1024)).sock.zmqConf.queue.length
        (mqRecvConfName ahifClient (zeros 1024)).sock).1.flatten = lit "a=1\nb=2" := by
  have hfile : (0 : Byte) ∉ lit "a=1\nb=2" := by decide
  have hconf0 : (0 : Byte) ∉ lit "log" := by decide
  have hbroker : (Out.mk .pub [] []).kind = .pub := rfl
  have hslot : ahifSlot.pub.kind = .pub := rfl
  have hsub : ahifSlot.sub = In.holding (subscribed [ahifSlot.svcName] ahifPublished) := rfl
  have hc : ahifClient.zmqConf = In.holding
      (subscribed [mqConf] (ahifSlot.pub.since ahifSlot.subToPub.pub) ++ []) := rfl
  have hbuf : 1024 ≤ (zeros 1024).length := Nat.le_of_eq (length_zeros 1024).symm
  obtain ⟨hrc, hname, hbody, -, -⟩ := conf_round_trip hfile hbroker hslot hconf0 (by decide) hsub hc
    hbuf (fun _ => hbuf) (Nat.le_refl _)
  exact ⟨hrc, hname, hbody⟩

end Brocoli
