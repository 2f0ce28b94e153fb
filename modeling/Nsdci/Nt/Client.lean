import Nsdci.Nt
import Nsdci.Lib.Chain
import Nsdci.Lib.Transition

/-!
# The queue of tallies (`otally.c`)

Messages are nodes with a pointer to the next one. They are on the list of free nodes, on the queue,
or in the hands of one of the client threads, each of which sends over its own connection: it takes
the whole queue, sends node after node until a send fails, returns the nodes it has sent to the
free list and puts the others back on the queue. Every step of a thread up to the next access to
what threads share is one step here, and the passes of its loops are steps too.
-/

namespace Nsdci.Nt

open Lib

/-- Where a thread is in `NtcThread`. -/
inductive Pc where
  | unborn
  | start
  | test
  | sleep
  | check
  | wait
  | sending
  | freeing
  | requeue
  | done
  deriving DecidableEq

/-- Bytes of a request on a connection: which tally it was, the request, and how many of its bytes
were sent. -/
structure Traffic where
  tally : Nat
  req : Req
  bytes : Nat
  deriving DecidableEq

/-- A client thread: its local variables, and what it has sent on its connection. -/
structure Thread where
  pc : Pc
  ok : Bool
  firstPtr : Option Nat
  freePtr : Option Nat
  wire : List Traffic
  deriving DecidableEq

/-- A thread before its connection is accepted. -/
def Thread.unborn : Thread := ⟨.unborn, true, none, none, []⟩

/-- What client threads share, and the threads. A tally for which there is a node gets a number,
that of its place in `accepted`; `tally` is the number of the tally in a node. -/
structure State where
  next : Nat → Option Nat
  req : Nat → Req
  tally : Nat → Nat
  firstMsg : Option Nat
  lastMsg : Option Nat
  firstFree : Option Nat
  shutdownPending : Bool
  clientLock : Option Nat
  threads : Nat → Thread
  started : Nat
  accepted : List Req

namespace State

variable (s : State)

/-- `msgPtr->nextPtr = p`. -/
def setNext (msg : Nat) (p : Option Nat) : State := { s with next := Function.update s.next msg p }

/-- A thread after a step of it. -/
def put (i : Nat) (t : Thread) : State := { s with threads := Function.update s.threads i t }

/-- `QueueMsg`. The last message is set when there is a first one. -/
def queueMsg (msg : Nat) : State :=
  let s := s.setNext msg none
  match s.firstMsg, s.lastMsg with
  | some _, some last => { s.setNext last (some msg) with lastMsg := some msg }
  | some _, none => { s with lastMsg := some msg }
  | none, _ => { s with firstMsg := some msg, lastMsg := some msg }

/-- A request taken up under the lock: in the first free node, or dropped when there is none. -/
def enqueue (req : Req) : State :=
  match s.firstFree with
  | some msg =>
      { s with
        firstFree := s.next msg
        req := Function.update s.req msg req
        tally := Function.update s.tally msg s.accepted.length
        accepted := s.accepted ++ [req] }.queueMsg msg
  | none => s

end State

/-- The loop of `SendMsg`: what is left to send, and what each `Ns_SockSend` returned. The result
is whether all is sent, and how much is not. -/
def sendMsg : Nat → List Int → Option (Bool × Nat)
  | 0, [] => some (true, 0)
  | len + 1, n :: results =>
      if n < 0 then if results = [] then some (false, len + 1) else none
      else if n ≤ len + 1 then sendMsg (len + 1 - n.toNat) results
      else none
  | 0, _ :: _ => none
  | _ + 1, [] => none

/-- What can happen. A thread's step has what the calls of `Ns_SockSend` in it return. -/
inductive Event where
  | accept
  | exit
  | send (argv : List CStr)
  | repeated (req : Req)
  | thread (i : Nat) (results : List Int)
  deriving DecidableEq

/-- The client's parameters. -/
structure Setup where
  tcl : Rpc.TclGetInt
  nDelay : Int

namespace State

variable (su : Setup) (s : State) (i : Nat)

/-- `Ns_MutexLock(&clientLock)` by a thread, which goes on from there. -/
def lock (pc : Pc) : Option State :=
  if s.clientLock = none then
    some { s.put i { s.threads i with pc := pc } with clientLock := some i }
  else none

/-- `Ns_MutexUnlock(&clientLock)` by a thread, which goes on from there. -/
def unlock (pc : Pc) : State :=
  { s.put i { s.threads i with pc := pc } with clientLock := none }

/-- A thread goes on elsewhere. -/
def goto (pc : Pc) : State := s.put i { s.threads i with pc := pc }

/-- The thread takes the queue. -/
def detach : State :=
  { s.put i { s.threads i with firstPtr := s.firstMsg, freePtr := none } with
    firstMsg := none
    lastMsg := none }.unlock i .sending

/-- The message was sent: it goes from the batch to the local free list. -/
def sent (msg : Nat) : State :=
  (s.setNext msg (s.threads i).freePtr).put i
    { s.threads i with
      firstPtr := s.next msg
      freePtr := some msg
      wire := (s.threads i).wire ++ [⟨s.tally msg, s.req msg, sizeofReq⟩] }

/-- The message was not sent, or not all of it. -/
def failed (msg left : Nat) : State :=
  s.put i
    { s.threads i with
      ok := false
      wire := (s.threads i).wire ++ [⟨s.tally msg, s.req msg, sizeofReq - left⟩] }

/-- A sent message goes back to the free list. -/
def release (msg : Nat) : State :=
  { (s.setNext msg s.firstFree).put i { s.threads i with freePtr := s.next msg } with
    firstFree := some msg }

/-- A message goes back on the queue. -/
def putBack (msg : Nat) : State :=
  (s.put i { s.threads i with firstPtr := s.next msg }).queueMsg msg

/-- One step of a thread. -/
def advance (results : List Int) : Option State :=
  let t := s.threads i
  match t.pc with
  | .unborn => none
  | .start => s.lock i .test
  | .test =>
      if s.shutdownPending = false ∧ t.ok then
        if 0 < su.nDelay then some (s.unlock i .sleep) else some (s.goto i .check)
      else some (s.unlock i .done)
  | .sleep => s.lock i .check
  | .check =>
      if s.firstMsg = none ∧ s.shutdownPending = false then some (s.unlock i .wait)
      else some (s.detach i)
  | .wait => s.lock i .check
  | .sending =>
      match t.ok, t.firstPtr with
      | true, some msg =>
          (sendMsg sizeofReq results).map fun r =>
            if r.1 then s.sent i msg else s.failed i msg r.2
      | _, _ => s.lock i .freeing
  | .freeing =>
      match t.freePtr with
      | some msg => some (s.release i msg)
      | none => some (s.goto i .requeue)
  | .requeue =>
      match t.firstPtr with
      | some msg => some (s.putBack i msg)
      | none => some (s.goto i .test)
  | .done => none

/-- One step. -/
def step (e : Event) : Option State :=
  match e with
  | .accept => some { s.put s.started { Thread.unborn with pc := .start } with
      started := s.started + 1 }
  | .exit => if s.clientLock = none then some { s with shutdownPending := true } else none
  | .send argv =>
      match ntcSendReq su.tcl argv with
      | .ok req => if s.clientLock = none then some (s.enqueue req) else none
      | .error _ => some s
  | .repeated req => if s.clientLock = none then some (s.enqueue req) else none
  | .thread i results => s.advance su i results

end State

/-- The free list of some nodes. -/
def linkAll : List Nat → Nat → Option Nat
  | [] => fun _ => none
  | n :: nodes => Function.update (linkAll nodes) n nodes.head?

/-- The start: all nodes are free. -/
def State.init (nodes : List Nat) : State where
  next := linkAll nodes
  req := fun _ => ⟨[], [], []⟩
  tally := fun _ => 0
  firstMsg := none
  lastMsg := none
  firstFree := nodes.head?
  shutdownPending := false
  clientLock := none
  threads := fun _ => .unborn
  started := 0
  accepted := []

end Nsdci.Nt
