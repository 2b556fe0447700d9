/-
The watch on the configuration directory: `check_inotify_event` and
`config_watch_callback` in `broker.c`.

The kernel reports a changed file as a header of 16 bytes and `len` bytes of a name, padded
with NULs.  The events wait in a bufferevent; one run of the callback takes up to
`MAX_BUFF_SIZE` bytes of them into an array and walks it from header to header.  An event
is handed on as a pointer into the array, so what is seen of it is the array from there on.
-/
import Brocoli.Conf

namespace Brocoli

open CMem Multipart

/-! ### File names -/

/-- A call of `publish_conf_from_file`. -/
structure ConfCall where
  filename : Str
  svc : Str
  conf : Str
deriving DecidableEq

/-- How the process can die. -/
inductive Fault where
  | nullPointer
deriving DecidableEq

/-- `ievent->len`, for a pointer to the front of a memory area. -/
def ieventLen (ievent : List Byte) : Nat := leNat ((ievent.drop 12).take 4)

/-- `ievent->name`, as the string that starts there. -/
def ieventName (ievent : List Byte) : Str := cstr (ievent.drop 16)

/-- What `check_inotify_event` makes of a file name: the call it leads to, if any. -/
def parseFname (receivedFname : Str) : Except Fault (Option ConfCall) :=
  match strchr receivedFname 46 with
  -- `*ext = '\0'` is not guarded, the comparison in front of it is
  | none => .error .nullPointer
  | some ext =>
      if receivedFname.drop (ext + 1) ≠ lit "conf" then .ok none
      else
        match strrchr (receivedFname.take ext) 95 with
        | none => .ok none
        | some ptr =>
            let svcName := (receivedFname.take ext).take ptr
            let confName := (receivedFname.take ext).drop (ptr + 1)
            .ok (some ⟨receivedFname, svcName, confName⟩)

def parseEvent (ievent : List Byte) : Except Fault (Option ConfCall) :=
  if 0 < ieventLen ievent then parseFname (ieventName ievent) else .ok none

/-- `config` is what is in the files of the directory, `none` for one that cannot be
opened. -/
def checkInotifyEvent (pub : Out) (config : Str → Option (List Byte)) (ievent : List Byte) :
    Except Fault Out :=
  (parseEvent ievent).map fun call =>
    match call with
    | none => pub
    | some c => publishConfFromFile pub (config c.filename) c.svc c.conf

/-! ### The callback -/

/-- The pointers the loop of `config_watch_callback` takes to events, as the memory areas
they are the front of.  Each is at least 16 bytes behind the last, so `fuel` need not exceed
the number of bytes. -/
def eventsFrom (buf : List Byte) (numRead : Nat) : Nat → Nat → List (List Byte)
  | 0, _ => []
  | fuel + 1, ptr =>
      if ptr < numRead then
        buf.drop ptr :: eventsFrom buf numRead fuel (ptr + 16 + ieventLen (buf.drop ptr))
      else []

/-- `char buf[MAX_BUFF_SIZE] = {0,}` and what `bufferevent_read` puts into it. -/
def watchBuf (input : List Byte) : List Byte :=
  store (zeros maxBuffSize) 0 (input.take maxBuffSize)

def watchedEvents (input : List Byte) : List (List Byte) :=
  let numRead := (input.take maxBuffSize).length
  eventsFrom (watchBuf input) numRead numRead 0

/-- Whether `check_inotify_event` returns. -/
def returns (ievent : List Byte) : Bool := (parseEvent ievent).toBool

/-- The calls of a loop that makes one for each of `ievents` and dies in the first that does
not return. -/
def callsMade : List (List Byte) → List (List Byte)
  | [] => []
  | ievent :: ievents => ievent :: if returns ievent then callsMade ievents else []

/-- The watch: whether the process is still there, the bytes in the bufferevent, and the
calls of `check_inotify_event` so far. -/
structure Watch where
  alive : Bool
  input : List Byte
  calls : List (List Byte)

def configWatchCallback (w : Watch) : Watch :=
  if w.alive then
    let ievents := watchedEvents w.input
    { alive := ievents.all returns
      input := w.input.drop maxBuffSize
      calls := w.calls ++ callsMade ievents }
  else w

end Brocoli
