import Nsdci.Lib.SwapRemove
import Nsdci.Lib.Transition

/-!
# Auto-loaded procs (`av.c`)

`UnknownObjCmd` lets a script of the auto-load AV make a command and wraps the delete callback of
the command in an `AvProc`. An array of the interpreter has all of them, and each has its place
there. `AvProcDelete` calls the original callback and then takes the `AvProc` out of the array.
`AvGetAuto` deletes all the commands when the AV is not the one of the last time.

Tcl marks a command that it deletes, calls the delete traces and the delete callback, and frees it;
a command with a mark is left alone. The callbacks run scripts, and these may do all of this again.
The stack has what waits for them to return.
-/

namespace Nsdci.AvProc

open Lib

/-- `AvProc`, without the original callback. -/
structure Proc where
  pidx : Nat
  cmd : Nat
  deriving DecidableEq

/-- A command of Tcl with `AvProcDelete` as its delete callback, and whether it is being deleted. -/
structure Command where
  deleteData : Nat
  deleted : Bool

/-- Who calls `AvGetAuto`: `av.cleanup`, `UnknownObjCmd`, or `av.unknown` with the name of an AV. -/
inductive Caller where
  | cleanup
  | unknown
  | select (name : Nat)
  deriving DecidableEq

/-- What waits for scripts: `AvProcDelete` for the callbacks of the command, the loop of `AvGetAuto`
for the deletion of a command, and `UnknownObjCmd` for the script of the AV. -/
inductive Frame where
  | callback (procPtr : Nat)
  | release (id : Nat) (caller : Caller)
  | eval
  deriving DecidableEq

/-- `AvData` with the `AvProc`s in memory, the commands, and the ids of the AVs that `AvGet`
finds. -/
structure State where
  procs : List Nat
  heap : Nat → Option Proc
  commands : Nat → Option Command
  next : Nat
  autoname : Option Nat
  autoid : Nat
  avs : Nat → Option Nat
  nextid : Nat
  stack : List Frame

/-- What can happen: an AV is loaded; a script deletes a command or calls `AvGetAuto`; the loop
takes a turn; callbacks return; and the script of an AV has made a command or has not. -/
inductive Event where
  | load (name : Nat)
  | delete (cmd : Nat)
  | getAuto (caller : Caller)
  | turn
  | finish
  | define (cmd : Nat)
  | fail
  deriving DecidableEq

namespace State

/-- `DciAvTclInit`. -/
def init : State where
  procs := []
  heap _ := none
  commands _ := none
  next := 0
  autoname := none
  autoid := 0
  avs _ := none
  nextid := 0
  stack := []

variable (s : State)

/-- `procPtr->pidx`. -/
def pidx (procPtr : Nat) : Option Nat := (s.heap procPtr).map Proc.pidx

/-- The loop of `AvGetAuto` runs, and no script. -/
def inLoop : Bool :=
  match s.stack with
  | .release _ _ :: _ => true
  | _ => false

/-- `UnknownObjCmd`, from `Tcl_FindCommand` on, with the new command. -/
def wrap (cmd : Nat) : State :=
  { s with
    procs := s.procs ++ [s.next]
    heap := Function.update s.heap s.next (some ⟨s.procs.length, cmd⟩)
    commands := Function.update s.commands cmd (some ⟨s.next, false⟩)
    next := s.next + 1 }

/-- `Tcl_DeleteCommandFromToken`, up to the callbacks. -/
def deleteCommand (cmd : Nat) : State :=
  match s.commands cmd with
  | none => s
  | some c =>
      if c.deleted then s
      else { s with
        commands := Function.update s.commands cmd (some { c with deleted := true })
        stack := .callback c.deleteData :: s.stack }

/-- `AvProcDelete` behind the original callback; then Tcl frees the command. A read of memory that
is not there is no result. -/
def avProcDelete (procPtr : Nat) : Option State := do
  let proc ← s.heap procPtr
  let swapPtr ← s.procs.getLast?
  let swap ← s.heap swapPtr
  if proc.pidx < s.procs.length then
    some { s with
      procs := swapRemove s.procs proc.pidx
      heap := Function.update (Function.update s.heap swapPtr
        (some { swap with pidx := proc.pidx })) procPtr none
      commands := Function.update s.commands proc.cmd none }
  else none

/-- `AvGetAuto` returns to its caller. -/
def got (caller : Caller) : State :=
  match caller with
  | .cleanup => s
  | .unknown => { s with stack := .eval :: s.stack }
  | .select name => { s with autoname := some name }

/-- `AvGetAuto` up to its loop. Without a name `UnknownObjCmd` is told so and gives up. -/
def avGetAuto (caller : Caller) : State :=
  match s.autoname with
  | none => if caller = .unknown then s else s.got caller
  | some name =>
      match s.avs name with
      | none => s
      | some id =>
          if id = s.autoid then s.got caller
          else { s with stack := .release id caller :: s.stack }

/-- A turn of the loop of `AvGetAuto`. -/
def turn : Option State :=
  match s.stack with
  | .release id caller :: stack =>
      match s.procs with
      | [] => some (State.got { s with autoid := id, stack := stack } caller)
      | procPtr :: _ => (s.heap procPtr).map fun proc => s.deleteCommand proc.cmd
  | _ => none

end State

/-- One step. -/
def step (s : State) : Event → Option State
  | .load name => some { s with
      avs := Function.update s.avs name (some (s.nextid + 1)), nextid := s.nextid + 1 }
  | .delete cmd => if s.inLoop then none else some (s.deleteCommand cmd)
  | .getAuto caller => if s.inLoop then none else some (s.avGetAuto caller)
  | .turn => s.turn
  | .finish =>
      match s.stack with
      | .callback procPtr :: stack => State.avProcDelete { s with stack := stack } procPtr
      | _ => none
  | .define cmd =>
      match s.stack with
      | .eval :: stack =>
          if (s.commands cmd).isNone then some (State.wrap { s with stack := stack } cmd) else none
      | _ => none
  | .fail =>
      match s.stack with
      | .eval :: stack => some { s with stack := stack }
      | _ => none

end Nsdci.AvProc
