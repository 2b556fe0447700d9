/-
What `relay_snd_more` does with the rest of a message.

It reads the frames one by one and sends each before it reads the next, again and again while
the send is interrupted.  So either all of them go and it stops behind the last, or there is a
first that does not go: then that one has been read too, and the frames behind it are still
there, with `RCVMORE` saying whether there are any.
-/
import Brocoli.RelayLoops

namespace Brocoli

open CMem Multipart Retry

section Spec

variable {D : Type} {send : D → Part → Option Errno × D}

/-! ### One frame

What a frame that fits does not lose in the buffer.
-/

variable {f : Frame} {q : List Part} {more : Bool} {dst dst₁ : D} {svcHost : Option (List Byte)}

theorem relaysMore_last (hf : f.length ≤ maxBuffSize)
    (h : Settles send .EINTR ⟨f, false⟩ dst none dst₁) :
    RelaysMore send ⟨⟨f, false⟩ :: q, more⟩ dst svcHost
      ⟨none, ⟨q, false⟩, dst₁, svcHost, [⟨f, false⟩]⟩ := by
  have hbuf := buffered_eq hf
  rw [← hbuf] at h
  have hlast : RelaysMore send ⟨⟨f, false⟩ :: q, more⟩ dst svcHost _ := .last h rfl
  rwa [hbuf] at hlast

theorem relaysMore_next (hf : f.length ≤ maxBuffSize)
    (h : Settles send .EINTR ⟨f, true⟩ dst none dst₁) {r : RelayEnd D}
    (hrest : RelaysMore send ⟨q, true⟩ dst₁ svcHost r) :
    RelaysMore send ⟨⟨f, true⟩ :: q, more⟩ dst svcHost { r with sent := ⟨f, true⟩ :: r.sent } := by
  have hbuf := buffered_eq hf
  rw [← hbuf] at h
  have hnext : RelaysMore send ⟨⟨f, true⟩ :: q, more⟩ dst svcHost _ := .next h rfl hrest
  rwa [hbuf] at hnext

theorem relaysMore_failed (hf : f.length ≤ maxBuffSize) {last : Bool} {e : Errno}
    (h : Settles send .EINTR ⟨f, last⟩ dst (some e) dst₁) :
    RelaysMore send ⟨⟨f, last⟩ :: q, more⟩ dst svcHost
      ⟨some e, ⟨q, last⟩, dst₁, hostAfter e f svcHost, []⟩ := by
  have hbuf := buffered_eq hf
  rw [← hbuf] at h
  have hfailed : RelaysMore send ⟨⟨f, last⟩ :: q, more⟩ dst svcHost _ := .failed h
  rwa [hbuf] at hfailed

/-! ### The rest of a message -/

/-- All frames go. -/
theorem relaysMore_passes {fs : Msg} (hfs : fs ≠ []) (hfits : Relayable fs) (q : List Part)
    (more : Bool) {dst dst' : D} (h : Passes send .EINTR dst (parts fs) dst')
    (svcHost : Option (List Byte)) :
    RelaysMore send ⟨parts fs ++ q, more⟩ dst svcHost
      ⟨none, ⟨q, false⟩, dst', svcHost, parts fs⟩ := by
  induction fs generalizing dst more with
  | nil => exact absurd rfl hfs
  | cons f rest ih =>
      obtain ⟨hf, hrest⟩ := List.forall_mem_cons.mp hfits
      cases rest with
      | nil =>
          cases h with
          | cons hsend hnil =>
              cases hnil
              exact relaysMore_last hf hsend
      | cons g rest =>
          cases h with
          | cons hsend hpass => exact relaysMore_next hf hsend (ih (by simp) hrest true hpass)

/-- The frame at place `i` is the first that does not go. -/
theorem relaysMore_failsAt {fs : Msg} (hfits : Relayable fs) (q : List Part) (more : Bool)
    {dst dst' : D} {i : Nat} {e : Errno} (h : FailsAt send .EINTR dst (parts fs) i e dst')
    (svcHost : Option (List Byte)) :
    RelaysMore send ⟨parts fs ++ q, more⟩ dst svcHost
      ⟨some e, ⟨parts (fs.drop (i + 1)) ++ q, decide (i + 1 < fs.length)⟩, dst',
        hostAfter e (fs.getD i []) svcHost, (parts fs).take i⟩ := by
  induction fs generalizing dst more i with
  | nil => cases h
  | cons f rest ih =>
      obtain ⟨hf, hrest⟩ := List.forall_mem_cons.mp hfits
      cases rest with
      | nil =>
          cases h with
          | here hsend => exact relaysMore_failed hf hsend
          | later _ hfails => cases hfails
      | cons g rest =>
          cases h with
          | here hsend =>
              have hmore : decide (0 + 1 < (f :: g :: rest).length) = true := by simp
              rw [hmore]
              exact relaysMore_failed hf hsend
          | @later _ _ _ _ _ i _ hsend hfails =>
              have hmore : decide (i + 1 + 1 < (f :: g :: rest).length)
                  = decide (i + 1 < (g :: rest).length) := by simp
              rw [hmore]
              exact relaysMore_next hf hsend (ih hrest true hfails)

/-- What is left when the frame at place `i` is the first of `fs` that does not go, with `e`, and
the messages `ms` wait behind. -/
structure GaveUp (fs : Msg) (ms : List Msg) (svcHost : Option (List Byte)) (i : Nat) (e : Errno)
    (r : RelayEnd D) : Prop where
  rc : r.rc = some e
  sent : r.sent = (parts fs).take i
  src : r.src = ⟨parts (fs.drop (i + 1)) ++ stream ms, decide (i + 1 < fs.length)⟩
  /-- The frame up to its first NUL is in `svc_host`, and a NUL behind it. -/
  host : ∀ mem, svcHost = some mem → e = .EHOSTUNREACH → ∀ f, fs[i]? = some f →
    (cstr f).length < mem.length →
      r.svcHost = some (cstr f ++ 0 :: mem.drop ((cstr f).length + 1))
  kept : e ≠ .EHOSTUNREACH ∨ svcHost = none → r.svcHost = svcHost

theorem hostAfter_unreached {f : Frame} {mem : List Byte} (h : (cstr f).length < mem.length) :
    hostAfter .EHOSTUNREACH f (some mem)
      = some (cstr f ++ 0 :: mem.drop ((cstr f).length + 1)) := by
  have hlen : (cstr f ++ [0]).length ≤ mem.length := by
    rw [List.length_append, List.length_singleton]
    exact h
  rw [hostAfter, if_pos rfl, Option.map_some, store_front hlen]
  simp

theorem gaveUp_failsAt {fs : Msg} (hfits : Relayable fs) (ms : List Msg) (more : Bool)
    {dst dst' : D} {i : Nat} {e : Errno} (h : FailsAt send .EINTR dst (parts fs) i e dst')
    {svcHost : Option (List Byte)} {r : RelayEnd D}
    (hr : RelaysMore send ⟨parts fs ++ stream ms, more⟩ dst svcHost r) :
    GaveUp fs ms svcHost i e r ∧ r.dst = dst' := by
  obtain rfl := (relaysMore_failsAt hfits (stream ms) more h svcHost).unique hr
  refine ⟨⟨rfl, rfl, rfl, ?_, ?_⟩, rfl⟩
  · rintro mem rfl rfl f hf hlen
    show hostAfter .EHOSTUNREACH (fs.getD i []) (some mem) = _
    rw [List.getD_eq_getElem?_getD, hf, Option.getD_some]
    exact hostAfter_unreached hlen
  · rintro (he | rfl)
    · exact if_neg he
    · exact ite_self _

/-- **What `relay_snd_more` does**, with any frames of a message in front of it, any socket to
send on, and any answers of that socket with finitely many interruptions: it ends, and in one
way.  When all frames go it returns 0 and is at the boundary behind them; otherwise it returns -1
behind the first that does not go. -/
theorem relay_snd_more_spec {dst : D} (hfin : FinitelyInterrupted send .EINTR dst) {fs : Msg}
    (hfs : fs ≠ []) (hfits : ∀ f ∈ fs, f.length < maxBuffSize) (ms : List Msg) (more : Bool)
    (svcHost : Option (List Byte)) :
    ∃ r, RelaysMore send ⟨parts fs ++ stream ms, more⟩ dst svcHost r ∧
      (∀ r', RelaysMore send ⟨parts fs ++ stream ms, more⟩ dst svcHost r' → r' = r) ∧
      ((∃ dst', Passes send .EINTR dst (parts fs) dst') ∨
        ∃ i e dst', FailsAt send .EINTR dst (parts fs) i e dst') ∧
      (∀ dst', Passes send .EINTR dst (parts fs) dst' →
        r = ⟨none, In.holding ms, dst', svcHost, parts fs⟩) ∧
      ∀ i e dst', FailsAt send .EINTR dst (parts fs) i e dst' →
        GaveUp fs ms svcHost i e r ∧ r.dst = dst' := by
  have hrelay : Relayable fs := fun f hf => Nat.le_of_lt (hfits f hf)
  have hcases := hfin.passes_or_failsAt (parts fs)
  have hends : ∃ r, RelaysMore send ⟨parts fs ++ stream ms, more⟩ dst svcHost r := by
    rcases hcases with ⟨dst', hpass⟩ | ⟨i, e, dst', hfails⟩
    · exact ⟨_, relaysMore_passes hfs hrelay _ more hpass svcHost⟩
    · exact ⟨_, relaysMore_failsAt hrelay _ more hfails svcHost⟩
  obtain ⟨r, hr⟩ := hends
  refine ⟨r, hr, fun r' hr' => hr.unique hr', hcases, ?_, ?_⟩
  · intro dst' hpass
    exact (relaysMore_passes hfs hrelay _ more hpass svcHost).unique hr
  · intro i e dst' hfails
    exact gaveUp_failsAt hrelay ms more hfails hr

end Spec

/-- The first send goes, the second is interrupted, the third finds no one, and no other goes. -/
def thirdUnreached : Nat → Option Errno
  | 0 => none
  | 1 => some .EINTR
  | 2 => some .EHOSTUNREACH
  | _ => some .EAGAIN

/-- A socket that answers so, by the number of sends before. -/
def answering (answers : Nat → Option Errno) (k : Nat) (_ : Part) : Option Errno × Nat :=
  (answers k, k + 1)

theorem finitelyInterrupted_thirdUnreached :
    FinitelyInterrupted (answering thirdUnreached) .EINTR 0 := by
  refine finitelyInterrupted_pattern (n := 3) (fun k hk => ?_) 0
  obtain ⟨j, rfl⟩ := Nat.exists_eq_add_of_le' hk
  simp [thirdUnreached]

theorem failsAt_thirdUnreached (f g : Frame) (last : Bool) :
    FailsAt (answering thirdUnreached) .EINTR 0 [⟨f, true⟩, ⟨g, last⟩] 1 .EHOSTUNREACH 3 :=
  .later (.answered (by simp [answering, thirdUnreached]))
    (.here (.again rfl (.answered (by simp [answering, thirdUnreached]))))

/-- Of two frames the first goes and the second finds no one. -/
theorem relay_snd_more_spec_unreached :
    ∃ r, RelaysMore (answering thirdUnreached)
        ⟨parts [lit "PSIB", lit "hi"] ++ stream [[lit "x"]], false⟩ 0 (some (zeros 8)) r ∧
      r.rc = some .EHOSTUNREACH ∧ r.sent = [⟨lit "PSIB", true⟩] ∧
      r.src = In.holding [[lit "x"]] ∧ r.svcHost = some (lit "hi" ++ zeros 6) := by
  have hfs : [lit "PSIB", lit "hi"] ≠ [] := by simp
  have hfits : ∀ f ∈ [lit "PSIB", lit "hi"], f.length < maxBuffSize := by decide
  obtain ⟨r, hr, -, -, -, hfailed⟩ := relay_snd_more_spec finitelyInterrupted_thirdUnreached hfs
    hfits [[lit "x"]] false (some (zeros 8))
  obtain ⟨hgave, -⟩ := hfailed 1 .EHOSTUNREACH 3 (failsAt_thirdUnreached _ _ _)
  refine ⟨r, hr, hgave.rc, hgave.sent, hgave.src, ?_⟩
  exact hgave.host (zeros 8) rfl rfl (lit "hi") rfl (by decide)

end Brocoli
