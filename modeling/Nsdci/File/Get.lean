import Nsdci.Lib.CString
import Nsdci.Lib.RefHeap
import Nsdci.Lib.Table
import Nsdci.Lib.Transition

/-!
# Reading parts of files (`file.c`)

`file.get` reads some bytes of a file at an offset, and converts them when an encoding is given.
Open files are kept in a cache that all threads share, with a count of who uses them: the cache, and
every call that reads without the lock. `CloseFile` closes the descriptor with the last.

An entry of the cache also has the encoding of a call. A later call with another encoding gets the
bytes in the encoding of the entry. And three things do not depend on the call alone: what is behind
a buffer without room for two NULs, the `errno` of a read that is short, and what a negative length
does to the heap.
-/

namespace Nsdci.Fget

open Lib

/-- What the program uses of Tcl's encodings: `Tcl_GetEncoding`, how many NULs end a string, and the
conversion of bytes. -/
structure Tcl (E : Type) where
  getEncoding : Bytes → Option E
  wide : E → Bool
  toUtf : E → Bytes → Bytes

/-- `File`, without its counters. The descriptor is open while the file is allocated. -/
structure File (E : Type) where
  name : Bytes
  enc : Option E

/-- The arguments of a call. -/
structure Request where
  file : Bytes
  enc_name : Option Bytes
  offset : Int
  length : Int

/-- The messages of the command, with their `errno`. -/
inductive Error where
  | open_ (errno : Nat)
  | encoding
  | pread (errno : Nat)
  deriving DecidableEq

abbrev Result := Except Error Bytes

/-- Where a call is: it waits for the lock, it reads from a file without the lock, or it waits for
the lock to close the file. -/
inductive Call (E : Type) where
  | called (req : Request)
  | reading (req : Request) (id : Nat) (enc : Option E)
  | closing (req : Request) (id : Nat) (result : Result)

/-- The files, the cache, the calls in progress, the results so far, and whether the heap was
overwritten. -/
structure State (E : Type) where
  files : Heap (File E)
  cache : AList fun _ : Bytes => Nat
  calls : AList fun _ : Nat => Call E
  results : List (Request × Result)
  fault : Bool

/-- What can happen. `enter` has what `open` returns if it is called, `read` what `pread` gives, the
`errno` there was before, and what is in memory behind the buffer. -/
inductive Event where
  | call (i : Nat) (req : Request)
  | enter (i : Nat) (opened : Except Nat Unit)
  | read (i : Nat) (got : Except Nat Bytes) (errno : Nat) (behind : Bytes)
  | close (i : Nat)
  | evict (name : Bytes)

/-- `INT_MAX`. -/
def intMax : Int := 2147483647

/-- The length of a string that ends in two NULs, if it has an end in the bytes. -/
def wideLength : Bytes → Option Nat
  | a :: b :: s => if a = 0 ∧ b = 0 then some 0 else (wideLength s).map (· + 2)
  | _ => none

variable {E : Type} (tcl : Tcl E)

/-- The length `Tcl_ExternalToUtfDString` finds when it is not given one. -/
def encodedLength (e : E) (memory : Bytes) : Nat :=
  if tcl.wide e then (wideLength memory).getD memory.length else (cstr memory).length

/-- The result string, from what was read and what is behind the buffer. -/
def convert (enc : Option E) (data behind : Bytes) : Bytes :=
  match enc with
  | none => cstr data
  | some e =>
      let memory := data ++ 0 :: behind
      cstr (tcl.toUtf e (memory.take (encodedLength tcl e memory)))

namespace State

variable (s : State E)

def setCall (i : Nat) (call : Call E) : State E := { s with calls := s.calls.insert i call }

/-- A call returns. -/
def finish (i : Nat) (req : Request) (result : Result) : State E :=
  { s with calls := s.calls.erase i, results := s.results ++ [(req, result)] }

/-- `CloseFile`. -/
def closeFile (id : Nat) : State E := { s with files := s.files.decr id }

/-- A call uses a file, and gives the lock back. -/
def use (i : Nat) (req : Request) (id : Nat) (enc : Option E) : State E :=
  { s.setCall i (.reading req id enc) with files := s.files.incr id }

/-- `GetCmd` up to its first unlock, for a file in the cache. -/
def cached (i : Nat) (req : Request) (id : Nat) : State E :=
  match s.files.val id with
  | none => { s with files := { s.files with fault := true } }
  | some file =>
      match req.enc_name, file.enc with
      | none, none => s.use i req id none
      | none, some _ => s.use i req id none
      | some enc_name, none =>
          match tcl.getEncoding enc_name with
          | some enc =>
              { s with files := s.files.setVal id { file with enc := some enc } }.use i req id
              (some enc)
          | none => s.finish i req (.error .encoding)
      | some _, some enc => s.use i req id (some enc)

/-- `GetCmd` up to its first unlock, for another file. -/
def uncached (i : Nat) (req : Request) (opened : Except Nat Unit) : State E :=
  match opened with
  | .error errno => s.finish i req (.error (.open_ errno))
  | .ok () =>
      let enc := req.enc_name.bind tcl.getEncoding
      let (files, id) := s.files.alloc ⟨req.file, enc⟩
      if req.enc_name.isSome ∧ enc.isNone then
        -- `close(fd)`
        ({ s with files := files }.closeFile id).finish i req (.error .encoding)
      else { s with files := files, cache := s.cache.insert req.file id }.use i req id enc

/-- What a read comes to. -/
def result (req : Request) (enc : Option E) (got : Except Nat Bytes) (errno : Nat)
    (behind : Bytes) : Result :=
  match got with
  | .error errno => .error (.pread errno)
  | .ok data =>
      if (data.length : Int) = req.length then .ok (convert tcl enc data behind)
      else .error (.pread errno)

/-- One step. -/
def next : Event → Option (State E)
  | .call i req =>
      match s.calls.lookup i with
      | none =>
          -- `ns_malloc(length+1)`, and a NUL at `length`
          some { s.setCall i (.called req) with
            fault := s.fault || !(0 ≤ req.length && req.length < intMax) }
      | some _ => none
  | .enter i opened =>
      match s.calls.lookup i with
      | some (.called req) =>
          match s.cache.lookup req.file with
          | some id => some (s.cached tcl i req id)
          | none => some (s.uncached tcl i req opened)
      | _ => none
  | .read i got errno behind =>
      match s.calls.lookup i with
      | some (.reading req id enc) =>
          some (s.setCall i (.closing req id (result tcl req enc got errno behind)))
      | _ => none
  | .close i =>
      match s.calls.lookup i with
      | some (.closing req id result) => some ((s.closeFile id).finish i req result)
      | _ => none
  | .evict name =>
      (s.cache.lookup name).map fun id =>
        { s with cache := s.cache.erase name }.closeFile id

end State

/-- No file is open. -/
def State.empty : State E := ⟨{}, ∅, ∅, [], false⟩

end Nsdci.Fget
