import Nsdci.TclExport
import Mathlib.Logic.Function.Basic

/-!
# Proxies (`proxy.c`)

A pool is a list of idle proxies, each with a child process when it has been used. `proxy.send`
takes a proxy from the list, starts a child for it if need be, writes a script to it, reads a
record with the result and puts the proxy back. `proxy.start` replaces the proxies of the pool.
The child reads a script, evaluates it and writes the record, over and over.

Each section under the lock of the pool is one step, and each `read`, `write`, start and stop of a
process. Calls on other pools only take the lock, so one pool is enough.
-/

namespace Nsdci.Proxies

open Lib Function

/-- Tcl in a child process: what a script leaves in the interpreter, and its result. A result is a
record whose length is an `int`. -/
structure Eval (σ : Type) where
  start : σ
  eval : σ → Bytes → σ × Int × TclExport.Interp
  code_lo : ∀ s script, -(2 ^ 31) ≤ (eval s script).2.1
  code_hi : ∀ s script, (eval s script).2.1 < 2 ^ 31
  fits : ∀ s script, TclExport.strsLength
    ((eval s script).2.2.strs (eval s script).2.1) + 16 < 2 ^ 31

/-- A script: a string whose length, with that of the header, is an `int`. -/
structure Script where
  text : Bytes
  free : NulFree text
  fits : text.length + 4 < 2 ^ 31
  deriving DecidableEq

/-- An `int` in the byte order of the host. -/
def hostInt (host : TclExport.Order) (x : Int) : Bytes :=
  match host with
  | .big => be32 x
  | .little => (be32 x).reverse

/-- What `SendCmd` writes: the length of the script, and the script. -/
def request (host : TclExport.Order) (script : Script) : Bytes :=
  hostInt host script.text.length ++ script.text

/-- Where a child is: it has read so much of a request, has so much of a record left to write, or
is gone. -/
inductive Child where
  | reading (got : Bytes)
  | replying (rest : Bytes)
  | exited
  deriving DecidableEq

/-- An evaluation: the script, the code, and what the interpreter then held. -/
structure Evaluation where
  script : Bytes
  code : Int
  interp : TclExport.Interp
  deriving DecidableEq

/-- A child process, its interpreter, the bytes in the pipes to it and from it, and what it has
evaluated. -/
structure Process (σ : Type) where
  child : Child
  tcl : σ
  toChild : Bytes
  fromChild : Bytes
  evals : List Evaluation

/-- `Proxy`, with the `refid` of the call of `proxy.start` that made it, whether a request was begun
and its response is not completely read, and how often a process was started and stopped. -/
structure Proxy (σ : Type) where
  process : Option (Process σ)
  refid : Nat
  unread : Bool
  starts : Nat
  stops : Nat

/-- Where a call of `proxy.send` is in `SendCmd`. The proxy and the `refid` are local. -/
inductive Pc where
  | new
  | waiting
  | took (p refid : Nat)
  | writing (p refid : Nat) (rest : Bytes)
  | reading (p refid : Nat) (got : Bytes)
  | tested (p refid : Nat) (ok : Bool)
  | returning (p : Nat)
  | stopping (p refid : Nat)
  | stopped (p refid : Nat)
  | finished
  deriving DecidableEq

/-- The proxy in the hands of a call. -/
def Pc.held : Pc → Option Nat
  | .took p _ | .writing p _ _ | .reading p _ _ | .tested p _ _ | .returning p | .stopping p _
  | .stopped p _ => some p
  | .new | .waiting | .finished => none

/-- A call of `proxy.send`: its script, the number of evaluations of the child before it, and the
answer with the evaluation it is from. -/
structure Sender where
  pc : Pc
  script : Script
  mark : Nat
  answer : Option ((Int × List TclExport.Handed) × Option Evaluation)

/-- Where a call of `proxy.start` is in `StartCmd`: the old proxies it still has to stop, and its
`refid`. -/
inductive Spc where
  | new
  | stopping (old : List Nat) (refid nproxies : Nat)
  | finished
  deriving DecidableEq

/-- The pool: the idle proxies, the `refid`, and the number of proxies last asked for. -/
structure Pool where
  idle : List Nat
  refid : Nat
  requested : Nat
  deriving DecidableEq

/-- The state of all. Proxies have numbers, and so have calls. -/
structure State (σ : Type) where
  pool : Option Pool
  proxies : Nat → Proxy σ
  nextProxy : Nat
  senders : Nat → Sender
  starters : Nat → Spc

/-- What can happen. A step of a call has what the system call in it returned. -/
inductive Event where
  | send (t : Nat) (script : Script)
  | timeout (t : Nat)
  | step (t : Nat) (n : Int)
  | start (u nproxies : Nat)
  | startStep (u : Nat)
  | childRead (p k : Nat)
  | childWrite (p k : Nat)
  | childExit (p : Nat)
  deriving DecidableEq

/-- A call of `proxy.send` goes on elsewhere. -/
def Sender.goto (snd : Sender) (pc : Pc) : Sender := { snd with pc := pc }

variable {σ : Type} (tcl : Eval σ) (host : TclExport.Order)

/-- The number of bytes `DciTclRead` still has to read. -/
def needed (got : Bytes) : Nat :=
  if got.length < 16 then 16 - got.length
  else 16 + (TclExport.next (got.take 16)).toNat - got.length

/-- A new child process. -/
def Process.new : Process σ := ⟨.reading [], tcl.start, [], [], []⟩

/-- The `int` at the start of what the child has read. -/
def scriptLength (got : Bytes) : Int := int32 (host.word (got.take 4))

/-- The loop of the child goes on with what it has read: once it has the script it evaluates it. -/
def Process.got (process : Process σ) (got : Bytes) : Process σ :=
  if got.length < 4 ∨ (got.length : Int) < 4 + scriptLength host got then
    { process with child := .reading got }
  else
    let script := (got.drop 4).take (scriptLength host got).toNat
    let r := tcl.eval process.tcl script
    { process with
      child := .replying (TclExport.tclExport r.2.2 r.2.1 [] none)
      tcl := r.1
      evals := process.evals ++ [⟨script, r.2.1, r.2.2⟩] }

/-- A `readv` or `read` of the child. Along with the header it reads what its string has room for,
and after that no more than the script. -/
def Process.read (process : Process σ) (k : Nat) : Option (Process σ) :=
  match process.child with
  | .reading got =>
      if 0 < k ∧ k ≤ process.toChild.length ∧
          (4 ≤ got.length → (got.length + k : Int) ≤ 4 + scriptLength host got) then
        some (({ process with toChild := process.toChild.drop k } : Process σ).got tcl host
          (got ++ process.toChild.take k))
      else none
  | _ => none

/-- A `write` of the child. -/
def Process.write (process : Process σ) (k : Nat) : Option (Process σ) :=
  match process.child with
  | .replying rest =>
      if k ≤ rest.length then
        some { process with
          child := if rest.drop k = [] then .reading [] else .replying (rest.drop k)
          fromChild := process.fromChild ++ rest.take k }
      else none
  | _ => none

/-! ## `SendCmd` with a proxy in its hands -/

/-- `StopProxy`. -/
def Proxy.stop (x : Proxy σ) : Proxy σ :=
  match x.process with
  | some _ => { x with process := none, unread := false, stops := x.stops + 1 }
  | none => x

/-- A child is started if there is none. `n` is negative when that fails. -/
def startStep (x : Proxy σ) (snd : Sender) (p refid : Nat) (n : Int) : Proxy σ × Sender :=
  match x.process with
  | some process => (x, { snd with
      pc := .writing p refid (request host snd.script)
      mark := process.evals.length })
  | none =>
      if n < 0 then (x, snd.goto (.tested p refid false))
      else ({ x with process := some (.new tcl), starts := x.starts + 1 }, { snd with
        pc := .writing p refid (request host snd.script)
        mark := 0 })

/-- A `writev` that returned `n`. With the child gone it fails. -/
def writeStep (x : Proxy σ) (snd : Sender) (p refid : Nat) (rest : Bytes) (n : Int) :
    Option (Proxy σ × Sender) :=
  x.process.bind fun process =>
    if n < 0 then some (x, snd.goto (.tested p refid false))
    else if process.child ≠ .exited ∧ n ≤ rest.length then
      some ({ x with
          process := some { process with toChild := process.toChild ++ rest.take n.toNat }
          unread := true },
        snd.goto (if rest.drop n.toNat = [] then .reading p refid []
          else .writing p refid (rest.drop n.toNat)))
    else none

/-- A `read` that returned `n`, or the import when all is read. -/
def readStep (x : Proxy σ) (snd : Sender) (p refid : Nat) (got : Bytes) (n : Int) :
    Option (Proxy σ × Sender) :=
  x.process.bind fun process =>
    if needed got = 0 then
      some ({ x with unread := false }, { snd with
        pc := .tested p refid true
        answer := some (TclExport.tclImport got none, process.evals[snd.mark]?) })
    else if n < 0 ∨ n = 0 ∧ process.child = .exited ∧ process.fromChild = [] then
      -- `ok` is set to 1 all the same
      some (x, snd.goto (.tested p refid true))
    else if 0 < n ∧ n ≤ needed got ∧ n ≤ process.fromChild.length then
      some ({ x with
          process := some { process with fromChild := process.fromChild.drop n.toNat } },
        snd.goto (.reading p refid (got ++ process.fromChild.take n.toNat)))
    else none

/-- One step of a call with a proxy in its hands. The test of `refid` is made without the lock. -/
def holdStep (refid' : Nat) (x : Proxy σ) (snd : Sender) (n : Int) : Option (Proxy σ × Sender) :=
  match snd.pc with
  | .took p refid => some (startStep tcl host x snd p refid n)
  | .writing p refid rest => writeStep x snd p refid rest n
  | .reading p refid got => readStep x snd p refid got n
  | .tested p refid ok =>
      some (x, snd.goto (if ok ∧ refid = refid' then .returning p else .stopping p refid))
  | .stopping p refid => some (x.stop, snd.goto (.stopped p refid))
  | _ => none

/-! ## The pool -/

namespace State

variable (s : State σ)

/-- A call of `proxy.send` after a step of it. -/
def setSender (t : Nat) (snd : Sender) : State σ := { s with senders := update s.senders t snd }

/-- A proxy after a change of it. -/
def setProxy (p : Nat) (x : Proxy σ) : State σ := { s with proxies := update s.proxies p x }

/-- The pool with another list of idle proxies. -/
def setIdle (pool : Pool) (idle : List Nat) : State σ :=
  { s with pool := some { pool with idle := idle } }

/-- A call takes the first idle proxy, or goes on without. -/
def take (t : Nat) (snd : Sender) (pool : Pool) (otherwise : Pc) : State σ :=
  match pool.idle with
  | p :: idle => (s.setIdle pool idle).setSender t (snd.goto (.took p pool.refid))
  | [] => s.setSender t (snd.goto otherwise)

/-- One step of a call of `proxy.send`. -/
def sendStep (t : Nat) (n : Int) : Option (State σ) :=
  s.pool.bind fun pool =>
    let snd := s.senders t
    match snd.pc with
    | .waiting => some (s.take t snd pool .waiting)
    | .returning p =>
        some ((s.setIdle pool (p :: pool.idle)).setSender t (snd.goto .finished))
    | .stopped p refid =>
        -- the second test of `refid`, under the lock
        if refid = pool.refid then
          some ((s.setIdle pool (pool.idle ++ [p])).setSender t (snd.goto .finished))
        else some (s.setSender t (snd.goto .finished))
    | pc => pc.held.bind fun p =>
        (holdStep tcl host pool.refid (s.proxies p) snd n).map fun r =>
          (s.setProxy p r.1).setSender t r.2

/-- The first section of `StartCmd`. -/
def beginStart (u nproxies : Nat) : State σ :=
  match s.pool with
  | none => { s with
      pool := some ⟨[], 0, nproxies⟩
      starters := update s.starters u (.stopping [] 0 nproxies) }
  | some pool => { s with
      pool := some ⟨[], pool.refid + 1, nproxies⟩
      starters := update s.starters u (.stopping pool.idle (pool.refid + 1) nproxies) }

/-- The second section of `StartCmd`, with the new proxies allocated before it. -/
def endStart (u refid nproxies : Nat) (pool : Pool) : State σ :=
  { s with
    pool := some { pool with idle := List.range' s.nextProxy nproxies ++ pool.idle }
    proxies := fun p =>
      if s.nextProxy ≤ p ∧ p < s.nextProxy + nproxies then ⟨none, refid, false, 0, 0⟩
      else s.proxies p
    nextProxy := s.nextProxy + nproxies
    starters := update s.starters u .finished }

/-- An old proxy is stopped. -/
def stopOld (u p : Nat) (old : List Nat) (refid nproxies : Nat) : State σ :=
  { s.setProxy p (s.proxies p).stop with
    starters := update s.starters u (.stopping old refid nproxies) }

/-- One step of a call of `proxy.start`. -/
def starterStep (u : Nat) : Option (State σ) :=
  match s.starters u with
  | .stopping (p :: old) refid nproxies => some (s.stopOld u p old refid nproxies)
  | .stopping [] refid nproxies => s.pool.map fun pool => s.endStart u refid nproxies pool
  | .new | .finished => none

/-- A child after a step of it. -/
def setProcess (p : Nat) (process : Process σ) : State σ :=
  s.setProxy p { s.proxies p with process := some process }

/-- One step. -/
def next (e : Event) : Option (State σ) :=
  match e with
  | .send t script =>
      if (s.senders t).pc = .new then
        let snd := { s.senders t with script := script }
        match s.pool with
        | none => some (s.setSender t (snd.goto .finished))
        | some pool => some (s.take t snd pool .waiting)
      else none
  | .timeout t =>
      if (s.senders t).pc = .waiting then
        s.pool.map fun pool => s.take t (s.senders t) pool .finished
      else none
  | .step t n => s.sendStep tcl host t n
  | .start u nproxies =>
      if s.starters u = .new ∧ 1 ≤ nproxies then some (s.beginStart u nproxies) else none
  | .startStep u => s.starterStep u
  | .childRead p k => (s.proxies p).process.bind fun process =>
      (process.read tcl host k).map fun process => s.setProcess p process
  | .childWrite p k => (s.proxies p).process.bind fun process =>
      (process.write k).map fun process => s.setProcess p process
  | .childExit p => (s.proxies p).process.map fun process =>
      s.setProcess p { process with child := .exited }

end State

/-- Nothing was started or called yet. -/
def State.init (σ : Type) : State σ where
  pool := none
  proxies := fun _ => ⟨none, 0, false, 0, 0⟩
  nextProxy := 0
  senders := fun _ => ⟨.new, ⟨[], nulFree_nil, by decide⟩, 0, none⟩
  starters := fun _ => .new

end Nsdci.Proxies
