/-
Configuration files: `publish_conf_from_file` in `broker.c`.

The broker publishes a file as one message to a service: the service, `svc_conf`, the
name of the configuration, the file as `fgets` reads it, and an empty frame.
-/
import Brocoli.Relay

namespace Brocoli

open CMem Multipart

/-- What one `fgets(buff, n + 1, fp)` takes off the file: through the first newline, and at
most `n` bytes. -/
def fgets : Nat → List Byte → List Byte × List Byte
  | 0, file => ([], file)
  | _ + 1, [] => ([], [])
  | n + 1, b :: file =>
      if b = 10 then ([b], file) else (b :: (fgets n file).1, (fgets n file).2)

/-- The chunks `fgets(buff, 1024, fp)` returns until the file is read, as the strings that
`strlen(buff)` sends of them.  Every chunk takes a byte, so `fuel` need not exceed the
size of the file. -/
def fgetsChunks : Nat → List Byte → List Frame
  | 0, _ => []
  | _ + 1, [] => []
  | fuel + 1, b :: file =>
      let chunk := fgets 1023 (b :: file)
      cstr chunk.1 :: fgetsChunks fuel chunk.2

/-- `file` is what is in the opened file, `none` when it cannot be opened. -/
def publishConfFromFile (pub : Out) (file : Option (List Byte)) (svc conf : Str) : Out :=
  match file with
  | none => pub
  | some file =>
      match pub.sendWhile (fun _ => true) [svc, mqConf, conf] with
      | (false, pub) => pub
      | (true, pub) =>
          let sent := pub.sendWhile (fun _ => true) (fgetsChunks file.length file)
          -- the empty end frame is sent even if the file was not
          (sent.2.send [] false).2

/-- The message a configuration is published as. -/
def confMsg (svc conf : Str) (file : List Byte) : Msg :=
  [svc, mqConf, conf] ++ fgetsChunks file.length file ++ [[]]

/-- On a publisher the configuration goes out whole. -/
theorem publishConfFromFile_pub {pub : Out} (hk : pub.kind = .pub) (file : List Byte)
    (svc conf : Str) :
    publishConfFromFile pub (some file) svc conf = pub.put (parts (confMsg svc conf file)) := by
  have hfree : ∀ ps, (pub.put ps).Free := fun ps => by simp [Out.Free, hk]
  have hpub : pub.Free := by simp [Out.Free, hk]
  unfold publishConfFromFile
  rw [sendWhile_free hpub _ (fun _ _ => rfl)]
  simp only
  rw [sendWhile_free (hfree _) _ (fun _ _ => rfl)]
  simp only [put_put, send_free (hfree _)]
  rw [confMsg, parts_append_singleton, List.map_append, List.append_assoc]

theorem length_fgets_le : ∀ (n : Nat) (file : List Byte), (fgets n file).1.length ≤ n := by
  intro n
  induction n with
  | zero => intro file; simp [fgets]
  | succ n ih =>
      intro file
      cases file with
      | nil => simp [fgets]
      | cons b file =>
          rw [fgets]
          split
          · simp
          · have := ih file
            simp
            omega

/-- A chunk fits every buffer on its way. -/
theorem length_fgetsChunks : ∀ (fuel : Nat) (file : List Byte),
    ∀ f ∈ fgetsChunks fuel file, f.length ≤ 1023 := by
  intro fuel
  induction fuel with
  | zero => intro file f hf; simp [fgetsChunks] at hf
  | succ fuel ih =>
      intro file f hf
      cases file with
      | nil => simp [fgetsChunks] at hf
      | cons b file =>
          rw [fgetsChunks] at hf
          rcases List.mem_cons.mp hf with rfl | hf
          · exact Nat.le_trans (length_cstr_le _) (length_fgets_le _ _)
          · exact ih _ f hf

end Brocoli
