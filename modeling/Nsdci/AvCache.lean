import Nsdci.Lib.Memory
import Nsdci.Lib.RefHeap
import Nsdci.Lib.Table
import Nsdci.Lib.Transition

/-!
# Mapped AV files (`av.c`)

An AV file is mapped into memory once for all interpreters. The mapping counts who refers to it: its
entry in a cache that all threads share, and the table of every interpreter that is attached to
it. `AvGet` attaches an interpreter, `AvRelease` detaches it from all files, and an entry leaves the
cache when there are too many or when the file has changed. `AvFree` gives a reference back and
unmaps the file with the last.

Each thread has an interpreter. A thread takes the lock of the cache, gives it back to open and map
a file, and takes it again; what it does in between is one step for each section. The section in
which `AvGet` finds a file is two, so that the lock shows.
-/

namespace Nsdci.AvCache

open Lib

/-- What `AvGet` compares of a `struct stat`. -/
structure Stat where
  size : Nat
  mtime : Int
  deriving DecidableEq

/-- `Av`: the name, and the file when it was mapped. -/
structure Av where
  name : Bytes
  st : Stat
  deriving DecidableEq

/-- Where a thread is in `AvGet`: it is not, it waits for the lock to look the file up, it has
found it and has the lock, it opens and maps it, it has failed to, or it waits for the lock to
put it into the cache. -/
inductive Pc where
  | idle
  | stated (list : Bytes) (st : Stat)
  | found (list : Bytes) (id : Nat)
  | loading (list : Bytes) (st : Stat)
  | failed (list : Bytes)
  | mapped (list : Bytes) (st : Stat)
  deriving DecidableEq

/-- `AvData`, with the auto-loaded procs. -/
structure Interp where
  pc : Pc
  avTable : AList fun _ : Bytes => Nat
  procs : List Nat

/-- The mappings, the cache with an entry for a file that has no value while the file is mapped,
who has the lock of the cache, and the interpreters. -/
structure State where
  heap : Heap Av
  cache : AList fun _ : Bytes => Option Nat
  lock : Option Nat
  interps : List Interp

/-- What can happen. `get` has what `stat` returned, and `load` whether the file was opened and
mapped and its header found. -/
inductive Event where
  | create
  | get (i : Nat) (list : Bytes) (st : Option Stat)
  | enter (i : Nat)
  | attach (i : Nat)
  | load (i : Nat) (ok : Bool)
  | publish (i : Nat)
  | fail (i : Nat)
  | release (i : Nat)
  | evict (list : Bytes)
  | autoload (i cmd : Nat)
  | deleteCommand (i pidx : Nat)
  deriving DecidableEq

/-- `AvFree`. -/
def avFree (heap : Heap Av) (id : Nat) : Heap Av := heap.decr id

/-- `AvFree` of the value of an entry, if it has one (`Ns_CacheUnsetValue`). -/
def unsetValue (heap : Heap Av) (value : Option Nat) : Heap Av := value.elim heap (avFree heap)

/-- `AvProcDelete`: the last proc goes where the deleted one was. -/
def avProcDelete (procs : List Nat) (pidx : Nat) : List Nat :=
  match procs.getLast? with
  | some swap => (procs.set pidx swap).dropLast
  | none => procs

namespace State

variable (s : State)

/-- An interpreter after a step of it. -/
def setInterp (i : Nat) (x : Interp) : State := { s with interps := s.interps.set i x }

/-- A thread goes on elsewhere. -/
def goto (i : Nat) (x : Interp) (pc : Pc) : State := s.setInterp i { x with pc := pc }

/-- An interpreter is attached, and `AvGet` returns. -/
def attach (i : Nat) (x : Interp) (list : Bytes) (id : Nat) : State :=
  s.setInterp i { x with pc := .idle, avTable := x.avTable.insert list id }

/-- The start of `AvGet`, up to `stat`. -/
def get (i : Nat) (x : Interp) (list : Bytes) (st : Option Stat) : State :=
  match x.avTable.lookup list, st with
  | none, some st => s.goto i x (.stated list st)
  | _, _ => s

/-- The first section of `AvGet`. -/
def enter (i : Nat) (x : Interp) (list : Bytes) (st : Stat) : State :=
  match s.cache.lookup list with
  | none => { s.goto i x (.loading list st) with cache := s.cache.insert list none }
  -- another thread maps it: wait
  | some none => s
  | some (some id) =>
      match s.heap.val id with
      | none => { s with heap := { s.heap with fault := true } }
      | some av =>
          if av.st = st then { s.goto i x (.found list id) with lock := some i }
          else { s.goto i x (.loading list st) with
            heap := avFree s.heap id
            cache := s.cache.insert list none }

/-- The second section of `AvGet`, with the mapped file. -/
def publish (i : Nat) (x : Interp) (list : Bytes) (st : Stat) : State :=
  let r := s.heap.alloc ⟨list, st⟩
  let heap := unsetValue r.1 (s.cache.lookup list).join
  { s.attach i x list r.2 with
    heap := heap.incr r.2
    cache := s.cache.insert list (some r.2) }

/-- The end of `AvGet` when the file was not mapped: the entry is deleted and the lock unlocked,
which the thread does not have. -/
def fail (i : Nat) (x : Interp) (list : Bytes) : State :=
  { s.goto i x .idle with
    -- an entry of another thread, or that has a value by now, is another entry
    cache := if s.cache.lookup list = some none then s.cache.erase list else s.cache
    lock := none }

/-- `AvRelease`. -/
def release (i : Nat) (x : Interp) : State :=
  { s.setInterp i { x with avTable := ∅ } with
    heap := ((pairs x.avTable).map Prod.snd).foldl avFree s.heap }

/-- One step of a thread. -/
def thread (i : Nat) (x : Interp) (e : Event) : Option State :=
  match e, x.pc with
  | .get _ list st, .idle => some (s.get i x list st)
  | .enter _, .stated list st => if s.lock = none then some (s.enter i x list st) else none
  | .attach _, .found list id =>
      some { s.attach i x list id with heap := s.heap.incr id, lock := none }
  | .load _ ok, .loading list st => some (s.goto i x (if ok then .mapped list st else .failed list))
  | .publish _, .mapped list st => if s.lock = none then some (s.publish i x list st) else none
  | .fail _, .failed list => some (s.fail i x list)
  | .release _, .idle => if s.lock = none then some (s.release i x) else none
  | .autoload _ cmd, .idle => some (s.setInterp i { x with procs := x.procs ++ [cmd] })
  | .deleteCommand _ pidx, .idle =>
      if pidx < x.procs.length then
        some (s.setInterp i { x with procs := avProcDelete x.procs pidx })
      else none
  | _, _ => none

/-- One step. -/
def next (e : Event) : Option State :=
  match e with
  | .create => some { s with interps := s.interps ++ [⟨.idle, ∅, []⟩] }
  | .evict list =>
      if s.lock = none then (s.cache.lookup list).map fun value =>
        { s with heap := unsetValue s.heap value, cache := s.cache.erase list }
      else none
  | .get i _ _ | .enter i | .attach i | .load i _ | .publish i | .fail i | .release i
  | .autoload i _ | .deleteCommand i _ => s.interps[i]?.bind fun x => s.thread i x e

end State

/-- No interpreter and no file. -/
def State.empty : State := ⟨{}, ∅, none, []⟩

end Nsdci.AvCache
