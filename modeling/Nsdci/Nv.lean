import Nsdci.Lib.CString
import Nsdci.Lib.Word
import Nsdci.Ns
import Mathlib.Data.List.AList

/-!
# Network variables (`nv.c`)

An NV array is a table of strings with an update log. `setVar`, `unsetVar` and `flushArray` change
the table and, when the array is served, append a command to the log; `broadcastUpdates` makes the
log an update message. `recvUpdate` is `RecvUpdate`: it reads such a message and applies its
commands to the arrays of a client.

A `World` is the arrays of one process with what happened to them: the messages given to
`Dci_Broadcast`, the calls `RecvUpdate` made, and the logs at each release of an array's lock.
-/

namespace Nsdci.Nv

open Lib

/-- A `Tcl_HashTable` with string keys and values. -/
abbrev Table := AList (fun _ : Bytes => Bytes)

/-- The keys and values of a table. -/
def entries (t : Table) : List (Bytes × Bytes) := t.entries.map fun e => (e.1, e.2)

/-- The order in which `Tcl_FirstHashEntry` and `Tcl_NextHashEntry` visit the entries of a table:
any order that visits each once. -/
structure HashOrder where
  search : List (Bytes × Bytes) → List (Bytes × Bytes)
  perm : ∀ es, (search es).Perm es

/-- `Array`. `servPtr` is the server that broadcasts the array, if any; `flush` and `init` are the
flags `NV_FLUSH` and `NV_INIT`. The sizes are `int`s. -/
structure Array (κ : Type) where
  vars : Table := ∅
  netname : Bytes := []
  servPtr : Option κ := none
  log : Bytes := []
  sizekeys : Int := 0
  sizevalues : Int := 0
  flush : Bool := false
  init : Bool := true

/-- The commands of an update message. -/
inductive Cmd where
  | set (key value : Bytes)
  | unset (key : Bytes)
  | flush
  deriving DecidableEq, Repr

/-- A command as it stands in a log: `S` key value, `U` key or `F`. -/
def Cmd.bytes : Cmd → Bytes
  | .set key value => 83 :: (asciz key ++ asciz value)
  | .unset key => 85 :: asciz key
  | .flush => [70]

variable {α κ : Type}

/-- `BroadcastUpdates`: the array with its log cleared, and the message queued. -/
def broadcastUpdates (a : Array κ) : Array κ × List (κ × Bytes) :=
  match a.servPtr with
  | none => (a, [])
  | some servPtr => ({ a with log := [] }, [(servPtr, 65 :: (asciz a.netname ++ a.log))])

/-- The end of `SetVar`, `UnsetVar` and `FlushArray`: log the command of a served array. -/
def logUpdate (cmd : Cmd) (broadcast : Bool) (a : Array κ) : Array κ × List (κ × Bytes) :=
  if a.servPtr.isSome then
    let a := { a with log := a.log ++ cmd.bytes }
    if broadcast then broadcastUpdates a else (a, [])
  else (a, [])

/-- `SetVar`, with the flags `NV_CSET` and `NV_BROADCAST`. -/
def setVar (key value : Bytes) (cset broadcast : Bool) (a : Array κ) :
    Array κ × List (κ × Bytes) :=
  match a.vars.lookup key with
  | none => logUpdate (.set key value) broadcast { a with
      vars := a.vars.insert key value
      sizekeys := int32 (a.sizekeys + key.length)
      sizevalues := int32 (a.sizevalues + value.length)
      flush := true
      init := true }
  | some old =>
      if cset then (a, [])
      else logUpdate (.set key value) broadcast { a with
        vars := a.vars.insert key value
        sizevalues := int32 (a.sizevalues - old.length + value.length)
        flush := true
        init := true }

/-- `UnsetVar`. The key is logged after the entry was freed: `logged` are the bytes found at
`key` by then. -/
def unsetVar (key logged : Bytes) (broadcast : Bool) (a : Array κ) : Array κ × List (κ × Bytes) :=
  match a.vars.lookup key with
  | none => (a, [])
  | some old => logUpdate (.unset logged) broadcast { a with
      vars := a.vars.erase key
      sizekeys := int32 (a.sizekeys - key.length)
      sizevalues := int32 (a.sizevalues - old.length)
      flush := true
      init := true }

/-- `FlushArray`. -/
def flushArray (broadcast : Bool) (a : Array κ) : Array κ × List (κ × Bytes) :=
  logUpdate .flush broadcast { a with
    vars := ∅, sizekeys := 0, sizevalues := 0, flush := true, init := true }

/-- The arrays of a process. `sent` are the messages given to `Dci_Broadcast` so far, `calls` the
calls `RecvUpdate` made of `SetVar`, `UnsetVar` and `FlushArray`, and `released` the pending logs
at the releases of the arrays' locks. -/
structure World (α κ : Type) where
  arrays : α → Array κ
  sent : List (κ × Bytes) := []
  calls : List (α × Cmd) := []
  released : List (α × Bytes) := []

variable [DecidableEq α]

/-- Change one array. -/
def World.change (w : World α κ) (name : α) (f : Array κ → Array κ × List (κ × Bytes)) :
    World α κ :=
  let r := f (w.arrays name)
  { w with
    arrays := fun n => if n = name then r.1 else w.arrays n
    sent := w.sent ++ r.2 }

/-- `Ns_MutexUnlock` of an array's lock. -/
def World.unlock (w : World α κ) (name : α) : World α κ :=
  { w with released := w.released ++ [(name, (w.arrays name).log)] }

/-- A command applied by `RecvUpdate`. -/
def World.apply (w : World α κ) (name : α) (cmd : Cmd) : World α κ :=
  let w := { w with calls := w.calls ++ [(name, cmd)] }
  match cmd with
  | .set key value => w.change name (setVar key value false false)
  | .unset key => w.change name (unsetVar key key false)
  | .flush => w.change name (flushArray false)

/-- One turn of the loop of `RecvUpdate`: the bytes left, the current array and the arrays. `none`
is a read past the end of the message. -/
def recvCmd (mapping : Bytes → Option α) :
    Bytes → Option α → World α κ → Option (Bytes × Option α × World α κ)
  | [], _, _ => none
  | cmd :: p, arrayPtr, w =>
      if cmd = 65 then
        (readCStr p).map fun netname =>
          match mapping netname.1 with
          | none => (netname.2, arrayPtr, w)
          | some name =>
              let w := match arrayPtr with
                | none => w
                | some last => (w.change last broadcastUpdates).unlock last
              (netname.2, some name, w)
      else
        match arrayPtr with
        | none => some (p, none, w)
        | some name =>
            if cmd = 70 then some (p, some name, w.apply name .flush)
            else if cmd = 85 then
              (readCStr p).map fun key => (key.2, some name, w.apply name (.unset key.1))
            else if cmd = 83 then
              (readCStr p).bind fun key =>
                (readCStr key.2).map fun value =>
                  (value.2, some name, w.apply name (.set key.1 value.1))
            else some (p, none, w.unlock name)

/-- `while (p < q && arrayPtr != NULL)`. The bytes left include the terminator of the buffer. -/
def recvWhile (mapping : Bytes → Option α) :
    Nat → Bytes × Option α × World α κ → Option (Option α × World α κ)
  | fuel, (p, arrayPtr, w) =>
      if 1 < p.length ∧ arrayPtr.isSome then
        match fuel with
        | 0 => none
        | fuel + 1 => (recvCmd mapping p arrayPtr w).bind (recvWhile mapping fuel)
      else some (arrayPtr, w)

/-- `RecvUpdate` on a message. Each turn of the loop takes a byte, so that the length of the
message bounds their number. -/
def recvUpdate (mapping : Bytes → Option α) (ds : Bytes) (w : World α κ) :
    Option (World α κ × Status) :=
  ((recvCmd mapping (ds ++ [0]) none w).bind (recvWhile mapping ds.length)).map fun r =>
    match r.1 with
    | none => (r.2, .error)
    | some name => ((r.2.change name broadcastUpdates).unlock name, .ok)

end Nsdci.Nv
