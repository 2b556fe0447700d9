/-
What the configuration watch makes of the kernel's events.

A file name leads to a publication exactly when it reads `S_C.conf`, with no dot in `S` and
`C` and no underscore in `C`.  Every other name that has a dot is passed over, and one
without a dot ends the process.

The events of a burst are met one by one as long as the array of one run ends where an event
does.
-/
import Brocoli.ConfigWatch
import Brocoli.Lib.Records
import Brocoli.Lib.Runs

namespace Brocoli

open CMem Runs

/-! ### Events -/

/-- An event of the kernel: the three words in front of `len`, and the `len` bytes of the
name. -/
structure Event where
  head : List Byte
  name : List Byte
  headSize : head.length = 12
  aligned : 16 ∣ name.length
  fits : name.length < 4294967296

namespace Event

def bytes (e : Event) : List Byte := e.head ++ leBytes 4 e.name.length ++ e.name

theorem length_bytes (e : Event) : e.bytes.length = 16 + e.name.length := by
  simp [bytes, e.headSize]
  omega

/-- The length is read where it was written. -/
theorem ieventLen_bytes (e : Event) (rest : List Byte) :
    ieventLen (e.bytes ++ rest) = e.name.length := by
  have hlen : (leBytes 4 (e.name.length : Int)).length = 4 := length_leBytes _ _
  have hdrop : ((e.bytes ++ rest).drop 12).take 4 = leBytes 4 e.name.length := by
    rw [bytes, List.append_assoc, List.append_assoc, ← e.headSize, List.drop_left,
      List.take_append_of_le_length (by omega), List.take_of_length_le (by omega)]
  have hval := leNat_leBytes 4 (e.name.length : Int)
  have hfits := e.fits
  have hpow : (Nat.pow 256 4 : Nat) = 4294967296 := rfl
  rw [hpow] at hval
  rw [ieventLen, hdrop]
  omega

/-- And the name behind it. -/
theorem drop_bytes (e : Event) (rest : List Byte) :
    (e.bytes ++ rest).drop 16 = e.name ++ rest := by
  have hhead : (e.head ++ leBytes 4 e.name.length).length = 16 := by simp [e.headSize]
  rw [bytes, List.append_assoc, ← hhead, List.drop_left]

/-- The name is the string in front of its padding. -/
theorem ieventName_bytes (e : Event) {fname : Str} {pad : Nat} (hname : e.name = fname ++ zeros pad)
    (h0 : (0 : Byte) ∉ fname) (hpad : 0 < pad) (rest : List Byte) :
    ieventName (e.bytes ++ rest) = fname := by
  obtain ⟨k, rfl⟩ : ∃ k, pad = k + 1 := ⟨pad - 1, by omega⟩
  have hzeros : zeros (k + 1) = 0 :: zeros k := List.replicate_succ
  rw [ieventName, drop_bytes, hname, hzeros, List.append_assoc, List.cons_append]
  exact cstr_terminated h0 _

end Event

/-! ### File names -/

/-- What the kernel can report as the name of a file. -/
structure IsFileName (fname : Str) : Prop where
  nonempty : fname ≠ []
  short : fname.length ≤ 255
  noSlash : (47 : Byte) ∉ fname
  terminated : (0 : Byte) ∉ fname

/-- The file of the configuration `conf` of the service `svc`. -/
structure NamesConf (fname svc conf : Str) : Prop where
  eq : fname = svc ++ lit "_" ++ conf ++ lit ".conf"
  svc_dot : (46 : Byte) ∉ svc
  conf_dot : (46 : Byte) ∉ conf
  conf_underscore : (95 : Byte) ∉ conf

/-- A name in the right form is taken apart. -/
theorem parseFname_names {fname svc conf : Str} (h : NamesConf fname svc conf) :
    parseFname fname = .ok (some ⟨fname, svc, conf⟩) := by
  obtain ⟨rfl, hsvc, hconf, hlast⟩ := h
  have hsep : lit "_" = [95] := rfl
  have hext : lit ".conf" = 46 :: lit "conf" := rfl
  have hstem : (46 : Byte) ∉ svc ++ 95 :: conf := by simp [hsvc, hconf]
  have hdot := strchr_append hstem (lit "conf")
  have hunder := strrchr_append svc hlast
  have heq : svc ++ lit "_" ++ conf ++ lit ".conf" = (svc ++ 95 :: conf) ++ 46 :: lit "conf" := by
    simp [hsep, hext]
  have htail : ((svc ++ 95 :: conf) ++ 46 :: lit "conf").drop ((svc ++ 95 :: conf).length + 1)
      = lit "conf" := by
    rw [List.drop_append]
    simp
  rw [heq, parseFname, hdot]
  simp only [htail, List.take_left, hunder, ne_eq, not_true_eq_false, if_false]
  rw [List.drop_append]
  simp

/-- With a dot in it, a name in any other form is passed over. -/
theorem parseFname_other {fname : Str} (hdot : (46 : Byte) ∈ fname)
    (h : ∀ svc conf, ¬ NamesConf fname svc conf) : parseFname fname = .ok none := by
  obtain ⟨stem, ext, rfl, hstem⟩ := exists_first hdot
  have htail : (stem ++ 46 :: ext).drop (stem.length + 1) = ext := by
    rw [List.drop_append]
    simp
  rw [parseFname, strchr_append hstem]
  simp only [htail, List.take_left]
  by_cases hext : ext = lit "conf"
  · by_cases hunder : (95 : Byte) ∈ stem
    · obtain ⟨svc, conf, rfl, hlast⟩ := exists_last hunder
      simp only [List.mem_append, List.mem_cons, not_or] at hstem
      refine absurd ⟨?_, hstem.1, hstem.2.2, hlast⟩ (h svc conf)
      have hsep : lit "_" = [95] := rfl
      have hdotconf : lit ".conf" = 46 :: lit "conf" := rfl
      simp [hsep, hdotconf, hext]
    · rw [if_neg (by simpa using hext), strrchr_of_notMem hunder]
  · rw [if_pos hext]

theorem parseFname_noDot {fname : Str} (h : (46 : Byte) ∉ fname) :
    parseFname fname = .error .nullPointer := by
  rw [parseFname, strchr_of_notMem h]

/-- The event of a file is handled as it should be: nothing goes wrong, and a configuration is
published exactly when the name is one for it, under the parts of the name. -/
structure ParsedExactly (fname : Str) (result : Except Fault (Option ConfCall)) : Prop where
  completes : ∃ call, result = .ok call
  calls : ∀ call, result = .ok (some call) ↔
    call.filename = fname ∧ NamesConf fname call.svc call.conf

theorem parsedExactly_dot {fname : Str} (hdot : (46 : Byte) ∈ fname) :
    ParsedExactly fname (parseFname fname) := by
  by_cases h : ∃ svc conf, NamesConf fname svc conf
  · obtain ⟨svc, conf, hnames⟩ := h
    have hparse := parseFname_names hnames
    refine ⟨⟨_, hparse⟩, fun call => ⟨fun hcall => ?_, fun hcall => ?_⟩⟩
    · rw [hparse] at hcall
      obtain rfl := Option.some.inj (Except.ok.inj hcall)
      exact ⟨rfl, hnames⟩
    · obtain ⟨filename, svc', conf'⟩ := call
      obtain ⟨rfl, hnames'⟩ := hcall
      exact parseFname_names hnames'
  · simp only [not_exists] at h
    have hparse := parseFname_other hdot h
    refine ⟨⟨_, hparse⟩, fun call => ?_⟩
    rw [hparse]
    simp [h]

/-- **The event of a file is handled as it should be exactly when its name has a dot.** -/
theorem parseEvent_exact_iff {fname : Str} (h : IsFileName fname) {e : Event} {pad : Nat}
    (hname : e.name = fname ++ zeros pad) (hpad : 0 < pad) (rest : List Byte) :
    ParsedExactly fname (parseEvent (e.bytes ++ rest)) ↔ (46 : Byte) ∈ fname := by
  have hlen : 0 < ieventLen (e.bytes ++ rest) := by
    rw [e.ieventLen_bytes, hname]
    simp
    omega
  rw [parseEvent, if_pos hlen, e.ieventName_bytes hname h.terminated hpad]
  constructor
  · intro hexact
    by_contra hdot
    obtain ⟨call, hcall⟩ := hexact.completes
    rw [parseFname_noDot hdot] at hcall
    exact absurd hcall (by simp)
  · exact parsedExactly_dot

/-- The process survives `check_inotify_event` when the name of the event can be taken apart. -/
theorem checkInotifyEvent_toBool (pub : Multipart.Out) (config : Str → Option (List Byte))
    (ievent : List Byte) :
    (checkInotifyEvent pub config ievent).toBool = returns ievent := by
  rw [checkInotifyEvent, returns]
  cases parseEvent ievent with
  | error fault => rfl
  | ok call => rfl

/-- **The file of a configuration is published, under the parts of its name.** -/
theorem checkInotifyEvent_names {fname svc conf : Str} (h : IsFileName fname)
    (hnames : NamesConf fname svc conf) {e : Event} {pad : Nat}
    (hname : e.name = fname ++ zeros pad) (hpad : 0 < pad) (rest : List Byte)
    (pub : Multipart.Out) (config : Str → Option (List Byte)) :
    checkInotifyEvent pub config (e.bytes ++ rest)
      = .ok (publishConfFromFile pub (config fname) svc conf) := by
  have hdot : (46 : Byte) ∈ fname := by
    have hext : lit ".conf" = 46 :: lit "conf" := rfl
    rw [hnames.eq, hext]
    simp
  have hcall : parseEvent (e.bytes ++ rest) = .ok (some ⟨fname, svc, conf⟩) :=
    (((parseEvent_exact_iff h hname hpad rest).mpr hdot).calls ⟨fname, svc, conf⟩).mpr
      ⟨rfl, hnames⟩
  rw [checkInotifyEvent, hcall]
  rfl

/-! ### The stream -/

theorem Event.ext' {e f : Event} (hhead : e.head = f.head) (hname : e.name = f.name) : e = f := by
  cases e
  cases f
  simp_all

/-- An event says how long it is. -/
theorem separable_bytes : Records.Separable Event.bytes fun _ => True where
  nonempty {e} _ := by
    have hlen := e.length_bytes
    intro hnil
    rw [hnil, List.length_nil] at hlen
    omega
  eq {e f x y} _ _ heq := by
    have hlen : e.name.length = f.name.length := by
      rw [← e.ieventLen_bytes x, heq, f.ieventLen_bytes]
    have hsame : e.bytes = f.bytes :=
      (List.append_inj heq (by rw [e.length_bytes, f.length_bytes, hlen])).1
    simp only [Event.bytes, List.append_assoc] at hsame
    obtain ⟨hhead, hrest⟩ := List.append_inj hsame (by rw [e.headSize, f.headSize])
    exact Event.ext' hhead (List.append_inj hrest (by simp)).2

/-- The bytes a sequence of events comes as. -/
def encode (es : List Event) : List Byte := es.flatMap Event.bytes

theorem encode_cons (e : Event) (es : List Event) : encode (e :: es) = e.bytes ++ encode es :=
  List.flatMap_cons

theorem encode_append (es fs : List Event) : encode (es ++ fs) = encode es ++ encode fs :=
  List.flatMap_append

/-- The bytes of the event a pointer leads to. -/
def eventBytes (ievent : List Byte) : List Byte := ievent.take (16 + ieventLen ievent)

theorem eventBytes_bytes (e : Event) (rest : List Byte) :
    eventBytes (e.bytes ++ rest) = e.bytes := by
  rw [eventBytes, e.ieventLen_bytes, ← e.length_bytes, List.take_left]

/-- The areas the events of a sequence are at the front of, with `behind` behind the last. -/
def areas (behind : List Byte) : List Event → List (List Byte)
  | [] => []
  | e :: es => (encode (e :: es) ++ behind) :: areas behind es

theorem map_eventBytes_areas (behind : List Byte) (es : List Event) :
    (areas behind es).map eventBytes = es.map Event.bytes := by
  induction es with
  | nil => rfl
  | cons e es ih =>
      rw [areas, List.map_cons, List.map_cons, ih, encode_cons, List.append_assoc,
        eventBytes_bytes]

/-- **The loop walks from event to event.** -/
theorem eventsFrom_encode {buf : List Byte} {numRead : Nat} {behind : List Byte} :
    ∀ (es : List Event) (fuel ptr : Nat), buf.drop ptr = encode es ++ behind →
      numRead = ptr + (encode es).length → (encode es).length ≤ fuel →
      eventsFrom buf numRead fuel ptr = areas behind es := by
  intro es
  induction es with
  | nil =>
      intro fuel ptr _ hend _
      have hnot : ¬ ptr < numRead := by
        have : (encode []).length = 0 := rfl
        omega
      cases fuel with
      | zero => rfl
      | succ fuel => rw [eventsFrom, if_neg hnot, areas]
  | cons e es ih =>
      intro fuel ptr hbuf hend hfuel
      have hlen : (encode (e :: es)).length = 16 + e.name.length + (encode es).length := by
        rw [encode_cons, List.length_append, e.length_bytes]
      have hnext : buf.drop (ptr + 16 + e.name.length) = encode es ++ behind := by
        rw [Nat.add_assoc, ← List.drop_drop, hbuf, encode_cons, List.append_assoc,
          ← e.length_bytes, List.drop_left]
      obtain ⟨k, rfl⟩ : ∃ k, fuel = k + 1 := ⟨fuel - 1, by omega⟩
      have hfirst : ieventLen (encode (e :: es) ++ behind) = e.name.length := by
        rw [encode_cons, List.append_assoc, e.ieventLen_bytes]
      rw [eventsFrom, if_pos (by omega), hbuf, hfirst, areas,
        ih k _ hnext (by omega) (by omega)]

/-- What is behind the bytes that were read, in the array. -/
def unread (input : List Byte) : List Byte := zeros (maxBuffSize - (input.take maxBuffSize).length)

/-- A read that ends with an event is met event by event. -/
theorem watchedEvents_encode {input : List Byte} {es : List Event}
    (h : input.take maxBuffSize = encode es) : watchedEvents input = areas (unread input) es := by
  have hle : (input.take maxBuffSize).length ≤ maxBuffSize := by
    rw [List.length_take]
    exact Nat.min_le_left _ _
  have hbuf : watchBuf input = encode es ++ unread input := by
    rw [watchBuf, store_front (by rw [length_zeros]; exact hle), drop_zeros, unread, h]
  refine eventsFrom_encode es _ 0 hbuf ?_ ?_
  · rw [h, Nat.zero_add]
  · rw [h]

/-! ### Runs of the watch -/

/-- The watch and the events that have happened. -/
structure Watched where
  watch : Watch
  arrived : List Event

inductive WatchStep where
  /-- The bufferevent reads some whole events. -/
  | arrive (es : List Event)
  /-- `config_watch_callback` -/
  | run

def Watched.step (s : Watched) : WatchStep → Watched
  | .arrive es =>
      ⟨{ s.watch with input := s.watch.input ++ encode es }, s.arrived ++ es⟩
  | .run => ⟨configWatchCallback s.watch, s.arrived⟩

def Watched.start : Watched := ⟨⟨true, [], []⟩, []⟩

/-- The stream is decoded: the process is there, `check_inotify_event` was called with one
event after the other, and what it was not called with yet is waiting. -/
structure Decoded (s : Watched) : Prop where
  alive : s.watch.alive = true
  calls : ∃ done rest, s.arrived = done ++ rest ∧
    s.watch.calls.map eventBytes = done.map Event.bytes ∧ s.watch.input = encode rest

/-- When nothing is waiting, every event has had its call. -/
theorem Decoded.all {s : Watched} (h : Decoded s) (hin : s.watch.input = []) :
    s.watch.calls.map eventBytes = s.arrived.map Event.bytes := by
  obtain ⟨done, rest, harrived, hcalls, hinput⟩ := h.calls
  obtain rfl := Records.flatMap_eq_nil separable_bytes (fun _ _ => trivial) (hinput ▸ hin)
  rw [harrived, hcalls, List.append_nil]

/-- What one run reads ends with an event, and for none of the events does
`check_inotify_event` fail to return. -/
def WholeRead (s : Watched) : WatchStep → Prop
  | .arrive _ => True
  | .run => ∃ es, s.watch.input.take maxBuffSize = encode es ∧
      ∀ ievent ∈ areas (unread s.watch.input) es, returns ievent = true

theorem callsMade_all {ievents : List (List Byte)} (h : ∀ i ∈ ievents, returns i = true) :
    callsMade ievents = ievents := by
  induction ievents with
  | nil => rfl
  | cons i is ih =>
      obtain ⟨hi, his⟩ := List.forall_mem_cons.mp h
      rw [callsMade, if_pos hi, ih his]

theorem configWatchCallback_alive {w : Watch} (h : w.alive = true) :
    configWatchCallback w = ⟨(watchedEvents w.input).all returns, w.input.drop maxBuffSize,
      w.calls ++ callsMade (watchedEvents w.input)⟩ := by
  rw [configWatchCallback, if_pos h]

/-- A whole read keeps the stream decoded. -/
theorem decoded_run {s : Watched} (h : Decoded s) (hread : WholeRead s .run) :
    Decoded (s.step .run) := by
  obtain ⟨es, htake, hreturns⟩ := hread
  obtain ⟨done, rest, harrived, hcalls, hinput⟩ := h.calls
  have hevents := watchedEvents_encode htake
  have hsplit : encode es ++ s.watch.input.drop maxBuffSize = encode rest := by
    rw [← htake, List.take_append_drop, hinput]
  obtain ⟨rest', rfl, hleft⟩ :=
    Records.split separable_bytes (fun _ _ => trivial) (fun _ _ => trivial) hsplit
  rw [Watched.step, configWatchCallback_alive h.alive, hevents]
  refine ⟨by simpa using hreturns, done ++ es, rest', ?_, ?_, hleft⟩
  · rw [harrived, List.append_assoc]
  · simp only [callsMade_all hreturns, List.map_append, hcalls, map_eventBytes_areas]

/-- And a run that leaves the stream decoded was a whole read. -/
theorem wholeRead_of_decoded {s : Watched} (h : Decoded s) (h' : Decoded (s.step .run)) :
    WholeRead s .run := by
  obtain ⟨done, rest, harrived, -, hinput⟩ := h.calls
  have halive := h'.alive
  obtain ⟨done', rest', harrived', -, hinput'⟩ := h'.calls
  rw [Watched.step, configWatchCallback_alive h.alive] at halive hinput' harrived'
  have hrest : encode rest = s.watch.input.take maxBuffSize ++ encode rest' := by
    rw [← hinput', List.take_append_drop, hinput]
  obtain ⟨mid, -, -, hmid⟩ := Records.between separable_bytes (fun _ _ => trivial)
    (harrived.symm.trans harrived') hrest
  refine ⟨mid, hmid, ?_⟩
  rw [← watchedEvents_encode hmid]
  simpa using halive

theorem decoded_arrive {s : Watched} (h : Decoded s) (es : List Event) :
    Decoded (s.step (.arrive es)) := by
  obtain ⟨done, rest, harrived, hcalls, hinput⟩ := h.calls
  refine ⟨h.alive, done, rest ++ es, ?_, hcalls, ?_⟩
  · rw [Watched.step, harrived, List.append_assoc]
  · rw [Watched.step, hinput, encode_append]

theorem decoded_start : Decoded Watched.start := ⟨rfl, [], [], rfl, rfl, rfl⟩

theorem step_decoded {s : Watched} (h : Decoded s) (e : WatchStep) :
    (WholeRead s e → Decoded (s.step e)) ∧ (¬ WholeRead s e → ¬ Decoded (s.step e)) := by
  cases e with
  | arrive es => exact ⟨fun _ => decoded_arrive h es, fun hnot => absurd trivial hnot⟩
  | run => exact ⟨decoded_run h, fun hnot h' => hnot (wholeRead_of_decoded h h')⟩

/-- **The stream is decoded all along exactly when every run makes a whole read.** -/
theorem inotify_decoded_iff (es : List WatchStep) :
    (∀ s ∈ states Watched.step Watched.start es, Decoded s) ↔
      AllSteps Watched.step WholeRead Watched.start es :=
  states_good_iff (fun _ h => h) (fun _ e h => step_decoded h e) es decoded_start

/-! ### Events that are not decoded -/

/-- A file with a name of 59 bytes, whose event takes 80. -/
def longNamed : Event where
  head := zeros 12
  name := List.replicate 54 97 ++ lit ".conf" ++ zeros 5
  headSize := rfl
  aligned := by decide
  fits := by decide

/-- The first bytes of a burst of such events end inside one. -/
theorem not_encode_take (n : Nat) {es : List Event}
    (h : (encode (List.replicate n longNamed)).take maxBuffSize = encode es) :
    n * 80 < maxBuffSize := by
  have hlen : ∀ k, (encode (List.replicate k longNamed)).length = k * 80 := by
    intro k
    induction k with
    | zero => rfl
    | succ k ih =>
        rw [List.replicate_succ, encode_cons, List.length_append, ih, longNamed.length_bytes]
        have : longNamed.name.length = 64 := rfl
        omega
  obtain ⟨rest, hsplit, -⟩ := Records.split separable_bytes (fun _ _ => trivial)
    (fun _ _ => trivial) (h ▸ List.take_append_drop maxBuffSize _)
  have hes : es = List.replicate es.length longNamed :=
    List.eq_replicate_of_mem fun e he =>
      List.eq_of_mem_replicate (hsplit ▸ List.mem_append_left _ he)
  have hsize := congrArg List.length h
  rw [hes, hlen, List.length_take, hlen] at hsize
  have hmax : maxBuffSize = 12288 := rfl
  omega

theorem burst_spoils {n : Nat} (hn : maxBuffSize ≤ n * 80) :
    ¬ ∀ s ∈ states Watched.step Watched.start [.arrive (List.replicate n longNamed), .run],
      Decoded s := by
  intro h
  have hfirst := decoded_arrive decoded_start (List.replicate n longNamed)
  have hsecond := h _ (List.mem_cons_of_mem _ (List.mem_cons_of_mem _ List.mem_cons_self))
  obtain ⟨es, htake, -⟩ := wholeRead_of_decoded hfirst hsecond
  have hsmall := not_encode_take n htake
  omega

/-- A burst of 154 events is read in two, and the second read starts inside the 154th. -/
theorem burst_not_decoded :
    ¬ ∀ s ∈ states Watched.step Watched.start
        [.arrive (List.replicate 154 longNamed), .run], Decoded s :=
  burst_spoils (by decide)

/-! ### Two files -/

/-- The event of a file with a short name. -/
def shortNamed (fname : Str) (h : fname.length < 16) : Event where
  head := zeros 12
  name := fname ++ zeros (16 - fname.length)
  headSize := rfl
  aligned := by
    rw [List.length_append, length_zeros]
    omega
  fits := by
    rw [List.length_append, length_zeros]
    omega

theorem isFileName_ahif : IsFileName (lit "AHIF_log.conf") := by
  constructor <;> decide

/-- `AHIF_log.conf` is published as the configuration `log` of `AHIF`. -/
theorem parseEvent_exact_ahif :
    ParsedExactly (lit "AHIF_log.conf")
      (parseEvent ((shortNamed (lit "AHIF_log.conf") (by decide)).bytes ++ [])) :=
  (parseEvent_exact_iff isFileName_ahif (e := shortNamed _ (by decide)) rfl (by decide) []).mpr
    (by decide)

/-- The event of `README` ends the process. -/
theorem parseEvent_readme :
    IsFileName (lit "README") ∧
      ¬ ParsedExactly (lit "README")
        (parseEvent ((shortNamed (lit "README") (by decide)).bytes ++ [])) := by
  refine ⟨by constructor <;> decide, ?_⟩
  intro h
  obtain ⟨call, hcall⟩ := h.completes
  have hfault : parseEvent ((shortNamed (lit "README") (by decide)).bytes ++ [])
      = .error .nullPointer := by decide
  rw [hfault] at hcall
  exact absurd hcall (by simp)

end Brocoli
