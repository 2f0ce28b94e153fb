import Nsdci.Lib.Transition
import Nsdci.QueFile.Files
import Mathlib.Data.List.Forall2
import Mathlib.Data.List.Perm.Basic
import Mathlib.Logic.Function.Basic

/-!
# Inserting files in a queue (`quefile.c`)

`Dci_QfInsertCmd` tries one minor number after the other until `link` finds the name free, and then
unlinks the temporary file. Any number of calls run at the same time, and `link` is the only step
that decides between them. Temporary files are outside of the directory of the queue.

A queue holds 999 files of a major number. The next one gets a name that is too long, and the other
commands do not see it.
-/

namespace Nsdci.Qf

open Lib

/-- The number after this one. The program has no meaning when `minor` leaves `int`. -/
def Number.next (x : Number) : Option Number :=
  if h : x.minor + 1 < 2 ^ 31 then
    some ⟨x.major, x.minor + 1, x.major_lt, by have := x.minor_range; omega, h⟩
  else none

theorem one_isInt : -(2 ^ 31) ≤ (1 : Int) ∧ (1 : Int) < 2 ^ 31 := by decide

/-- The number that is tried first. -/
def Number.first (major : Nat) (h : major < 2 ^ 31) : Number := ⟨major, 1, h, one_isInt⟩

/-- Where a call of `Dci_QfInsertCmd` is: before `link`, or before `unlink`. -/
inductive Call where
  | linking (tFile : Bytes) (number : Number)
  | unlinking (tFile : Bytes)

/-- A successful insert. -/
structure Insert where
  number : Number
  file : Nat

/-- The entry of the directory that an insert makes. -/
def Insert.entry (e : Insert) : Bytes × Nat := (e.number.name, e.file)

/-- The temporary files, the entries of the directory of the queue (names, and the files they stand
for), the calls in progress, and the successful inserts so far in the order of their links. -/
structure State where
  temps : Bytes → Option Nat
  dir : List (Bytes × Nat)
  calls : Nat → Option Call
  log : List Insert

/-- A file is made under a temporary name, a call starts, tries a `link` (which may fail for reasons
of its own), or removes its temporary file. -/
inductive Event where
  | create (path : Bytes) (file : Nat)
  | start (id : Nat) (tFile : Bytes) (major : Nat) (h : major < 2 ^ 31)
  | link (id : Nat) (fails : Bool)
  | unlink (id : Nat)

/-- The names in the directory. -/
def State.names (s : State) : List Bytes := s.dir.map Prod.fst

def State.setCall (s : State) (id : Nat) (call : Option Call) : State :=
  { s with calls := Function.update s.calls id call }

@[simp] theorem setCall_calls (s : State) (id : Nat) (call : Option Call) :
    (s.setCall id call).calls = Function.update s.calls id call := rfl

/-- `link` made an entry. -/
def State.linked (s : State) (e : Insert) : State :=
  { s with dir := s.dir ++ [e.entry], log := s.log ++ [e] }

/-- One step of one call of `Dci_QfInsertCmd`, or a new temporary file. -/
def step (s : State) : Event → Option State
  | .create path file => some { s with temps := Function.update s.temps path (some file) }
  | .start id tFile major h =>
      match s.calls id with
      | none => some (s.setCall id (some (.linking tFile (.first major h))))
      | some _ => none
  | .link id fails =>
      match s.calls id with
      | some (.linking tFile number) =>
          match s.temps tFile with
          | none => some (s.setCall id none)
          | some file =>
              if fails then some (s.setCall id none)
              -- `EEXIST`
              else if number.name ∈ s.names then
                number.next.map fun next => s.setCall id (some (.linking tFile next))
              else some ((s.linked ⟨number, file⟩).setCall id (some (.unlinking tFile)))
      | _ => none
  | .unlink id =>
      match s.calls id with
      | some (.unlinking tFile) =>
          some ({ s with temps := Function.update s.temps tFile none }.setCall id none)
      | _ => none

/-- The entries of the directory that are not of the queue. -/
structure Foreign where
  entries : List (Bytes × Nat)
  distinct : (entries.map Prod.fst).Nodup
  noQueue : ∀ p ∈ entries, p.1[0]? ≠ some 113

/-- A queue without files. -/
def init (foreign : Foreign) (temps : Bytes → Option Nat) : State :=
  ⟨temps, foreign.entries, fun _ => none, []⟩

/-- The files of a major number. -/
def State.ofMajor (s : State) (major : Nat) : List Insert :=
  s.log.filter fun e => e.number.major = major

/-- The order a listing has: of the majors, then of the inserts. -/
def Before (log : List Insert) (a b : Insert) : Prop :=
  a.number.major < b.number.major ∨ a.number.major = b.number.major ∧ [a, b].Sublist log

/-- The major is in the range. -/
def Insert.within (e : Insert) (start stop : Option Int) : Prop :=
  start.getD 0 ≤ e.number.major ∧ e.number.major ≤ stop.getD intMax

instance (e : Insert) (start stop : Option Int) : Decidable (e.within start stop) :=
  inferInstanceAs (Decidable (_ ∧ _))

/-- What is expected of the queue: every insert has a name of its own and its file is still there
under it, the files whose majors are in a range are listed in order, and the first major is found.
`readdir` gives the entries in any order. -/
structure Right (s : State) : Prop where
  distinct : s.names.Nodup ∧ (s.log.map fun e => e.number.name).Nodup
  kept : ∀ e ∈ s.log, e.entry ∈ s.dir
  all : ∀ (qsort : QSort Bytes strcmp) (ents : List Bytes) (start stop : Option Int),
    ents.Perm s.names → ∃ files : List Insert,
      qfGetAllCmd qsort ents start stop = files.map (fun e => e.number.name) ∧
      files.Perm (s.log.filter fun e => e.within start stop) ∧ files.Pairwise (Before s.log)
  first : ∀ ents : List Bytes, ents.Perm s.names →
    (s.log = [] → qfGetFirstCmd ents = -1) ∧
    (s.log ≠ [] → (∃ e ∈ s.log, qfGetFirstCmd ents = e.number.major) ∧
      ∀ e ∈ s.log, qfGetFirstCmd ents ≤ e.number.major)

/-- A link that is made finds fewer than 999 files of its major. -/
def Room (s : State) : Event → Prop
  | .link id fails => ∀ tFile number file, s.calls id = some (.linking tFile number) →
      s.temps tFile = some file → fails = false → number.name ∉ s.names →
      (s.ofMajor number.major).length < 999
  | _ => True

end Nsdci.Qf
