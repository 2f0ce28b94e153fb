import Nsdci.Lib.RefHeap
import Nsdci.Lib.Transition
import Nsdci.Lib.CString
import Nsdci.Msg

/-!
# The message broadcaster (`broadcast.c`)

One broadcaster thread: its clients, the queue other threads put messages on and the loop of
`DciBroadcaster`. An event is a stretch of that loop between the points where other threads can
get in between (the start of a round up to `poll`, the service of one client after it, the end of
the round) or something other threads do. The results of system calls, the clock and the readiness
`poll` reports are part of the event.

Beside what the code keeps, the model records what happened: for each TCP connection the bytes
put on it and the messages handed to `MsgSend` for it, for each client the queue messages it was
handed and those it was due, and the order in which messages were queued and taken.
-/

namespace Nsdci.Broadcast

open Lib

/-- `cPtr->state`: `BCAST_READY`, `BCAST_CONNECT` and `BCAST_LOGIN`. -/
inductive CState where
  | ready | connect | login
  deriving DecidableEq, Repr

/-- What a message handed to `MsgSend` is. -/
inductive Kind where
  | login | init | queue
  deriving DecidableEq, Repr

/-- A TCP connection: the bytes put on it so far, and the messages `MsgSend` was given for it. -/
structure Conn where
  id : Nat
  wire : Bytes := []
  handed : List (Kind × Bytes) := []
  deriving DecidableEq

/-- `Client`. `bufPtr` are the `nsend` bytes from `bufPtr` on. The fields after `qtime` only
record: earlier connections, whether a pending message was ever replaced, and the queue messages
handed to the client and due to it. -/
structure Client where
  sock : Option Conn := none
  state : CState := .connect
  msgPtr : Option Nat := none
  bufPtr : Bytes := []
  timeout : Int
  qtime : Int := 0
  closed : List Conn := []
  replaced : Bool := false
  handed : List Nat := []
  due : List Nat := []
  deriving DecidableEq

/-- `Dci_MsgProc` with the data it works on. `holds` are the messages the data keep a reference
to, and `keeps` says that the message returned is one of them. -/
structure InitProc (σ : Type) where
  proc : σ → Heap Msg → σ × Heap Msg × Option Nat
  holds : σ → Multiset Nat
  keeps : σ → Prop
  sound : ∀ d h H, Heap.Counted h (holds d + H) →
    let r := proc d h
    ∃ L, Heap.Counted r.2.1 (holds r.1 + (L + H)) ∧ (∀ id ∈ r.2.2, id ∈ holds r.1 + L) ∧
      (keeps d → L = 0)
  later : ∀ d h, Heap.Extends h (proc d h).2.1

/-- The configuration of a broadcaster: its name, the intervals and its `initProc`, if any. -/
structure Config (σ : Type) where
  name : Bytes
  name_lt : name.length + 1 + 4 < 2147483648
  timeoutInterval : Int
  stimeoutInterval : Int
  retryInterval : Int
  initProc : Option (InitProc σ)

/-- The login message: the name with its terminator. -/
def Config.login {σ : Type} (cfg : Config σ) : Msg :=
  ⟨asciz cfg.name, by simpa [asciz] using cfg.name_lt⟩

/-- The messages the data of the `initProc` hold. -/
def Config.holds {σ : Type} (cfg : Config σ) (d : σ) : Multiset Nat :=
  match cfg.initProc with
  | none => 0
  | some p => p.holds d

/-- Where the thread is: at the top of the loop, behind `poll` with the time of the round, the
clients not yet serviced and `busy`, behind the loop with everything closed, or gone. -/
inductive Pc where
  | top
  | poll (now : Int) (todo : List Client) (busy : Bool)
  | closed
  | returned

/-- `Broadcast` with the locals of its thread. `queued`, `taken` and `dropped` record the messages
accepted by `Dci_Broadcast`, taken from the queue, and dropped from it at shutdown. -/
structure State (σ : Type) where
  firstActivePtr : List Client
  firstRetryPtr : List Client
  queue : List Nat := []
  heap : Heap Msg
  login : Nat
  retry : Int := 0
  shutdownPending : Bool := false
  pc : Pc := .top
  data : σ
  nextConn : Nat := 0
  queued : List Nat := []
  taken : List Nat := []
  dropped : List Nat := []
  freed : List Client := []

/-- What `poll` reports for a client's socket. -/
structure Revents where
  pollin : Bool := false
  pollout : Bool := false
  pollhup : Bool := false
  deriving DecidableEq, Repr

/-- The result of a `send`: an error, or a count of bytes. -/
inductive SendResult where
  | failed
  | sent (n : Nat)
  deriving DecidableEq, Repr

/-- The events of a broadcaster. `round` is the loop from its top through `poll`, with the time
and the results of `Ns_SockAsyncConnect` for the clients on the retry list. `client` services the
next client. `next` is the rest of the round. `msg` is `Dci_Broadcast` on a new message, `stop` is
`StopBroadcasters`, `data` is a change of the data the `initProc` reads, and `ret` is the return
of the thread. -/
inductive Event (σ : Type) where
  | round (now : Int) (conns : List Bool)
  | client (revents : Revents) (res : SendResult) (clock : Int)
  | next (clocks : List Int)
  | msg (m : Msg)
  | stop
  | data (d : σ)
  | ret

variable {σ : Type}

/-- `MsgSend`. -/
def msgSend (kind : Kind) (id : Nat) (clock : Int) (c : Client) (h : Heap Msg) :
    Client × Heap Msg :=
  let data := ((h.val id).map Msg.data).getD []
  ({ c with
      msgPtr := some id
      bufPtr := ((h.val id).map Msg.wire).getD []
      qtime := clock
      sock := c.sock.map fun k => { k with handed := k.handed ++ [(kind, data)] }
      replaced := c.replaced || c.msgPtr.isSome
      handed := if kind = .queue then c.handed ++ [id] else c.handed },
    h.incr id)

/-- `MsgDone`, for the message a client is sending. -/
def msgDone (id : Nat) (c : Client) (h : Heap Msg) : Client × Heap Msg :=
  ({ c with msgPtr := none, bufPtr := [] }, h.decr id)

/-- `RetryClient`, but for the list the client goes on. -/
def retryClient (c : Client) (h : Heap Msg) : Client × Heap Msg :=
  let c := { c with sock := none, closed := c.sock.toList ++ c.closed }
  match c.msgPtr with
  | none => (c, h)
  | some id => msgDone id c h

/-- `Ns_SockAsyncConnect` for the clients on the retry list. -/
def reconnect : List Client → List Bool → State σ → State σ
  | [], _, s => s
  | c :: cs, oks, s =>
      if oks.headD false then
        let c := { c with sock := some { id := s.nextConn }, state := .connect }
        reconnect cs oks.tail
          { s with firstActivePtr := c :: s.firstActivePtr, nextConn := s.nextConn + 1 }
      else
        reconnect cs oks.tail { s with firstRetryPtr := c :: s.firstRetryPtr }

/-- Push the clients waiting for reconnect back on the active list, if it is time to. -/
def retryRound (cfg : Config σ) (s : State σ) (now : Int) (conns : List Bool) : State σ :=
  if s.firstRetryPtr ≠ [] ∧ s.retry ≤ now then
    reconnect s.firstRetryPtr conns
      { s with retry := now + cfg.retryInterval, firstRetryPtr := [] }
  else s

/-- The loop from its top through `poll`. -/
def startRound (cfg : Config σ) (s : State σ) (now : Int) (conns : List Bool) : State σ :=
  { retryRound cfg s now conns with
    firstActivePtr := [], pc := .poll now (retryRound cfg s now conns).firstActivePtr false }

/-- What the service of a client leaves: the client, `ok`, the messages and the data. -/
structure Serviced (σ : Type) where
  client : Client
  ok : Bool
  heap : Heap Msg
  data : σ

/-- A client whose login has been sent gets the message of the `initProc`, if it gives one. -/
def loginDone (p : InitProc σ) (c : Client) (h : Heap Msg) (d : σ) (clock : Int) : Serviced σ :=
  let r := p.proc d h
  let sent := match r.2.2 with
    | none => (c, r.2.1)
    | some id => msgSend .init id clock c r.2.1
  { client := { sent.1 with state := .ready }, ok := true, heap := sent.2, data := r.1 }

/-- A client after `send` has taken `n` bytes of the message `id`. -/
def bytesSent (cfg : Config σ) (s : State σ) (c : Client) (id n : Nat) (clock : Int) :
    Serviced σ :=
  let c := { c with
    bufPtr := c.bufPtr.drop n
    sock := c.sock.map fun k => { k with wire := k.wire ++ c.bufPtr.take n } }
  if c.bufPtr = [] then
    let done := msgDone id { c with timeout := cfg.timeoutInterval } s.heap
    match c.state, cfg.initProc with
    | .login, some p => loginDone p done.1 done.2 s.data clock
    | _, _ => { client := done.1, ok := true, heap := done.2, data := s.data }
  else { client := c, ok := true, heap := s.heap, data := s.data }

/-- The time a client's message may take is over. -/
def timedOut (c : Client) (now : Int) : Bool :=
  0 ≤ c.timeout ∧ c.qtime + c.timeout ≤ now

/-- The service of one client after `poll`. `none` is the end of the process (`Ns_Fatal`), or a
`send` result that cannot be. -/
def service (cfg : Config σ) (s : State σ) (now : Int) (c : Client) (revents : Revents)
    (res : SendResult) (clock : Int) : Option (Serviced σ) :=
  let keep : Serviced σ := { client := c, ok := true, heap := s.heap, data := s.data }
  let drop : Serviced σ := { client := c, ok := false, heap := s.heap, data := s.data }
  if c.state = .connect then
    if revents.pollout ∨ revents.pollhup then
      -- The connection is probed with a `send` of 0 bytes.
      if res = .sent 0 then
        let r := msgSend .login s.login clock c s.heap
        some { client := { r.1 with state := .login }, ok := true, heap := r.2, data := s.data }
      else some drop
    else some keep
  else if revents.pollin then some drop
  else
    match c.msgPtr with
    | none => some keep
    | some id =>
        if revents.pollout then
          match res with
          | .failed => some drop
          | .sent n =>
              if n = 0 ∨ c.bufPtr.length < n then none
              else some (bytesSent cfg s c id n clock)
        else if timedOut c now then
          let r := msgDone id c s.heap
          some { client := { r.1 with timeout := cfg.stimeoutInterval, state := .connect }
                 ok := true, heap := r.2, data := s.data }
        else some keep

/-- Put a client that has been serviced on the active or the retry list. -/
def putBack (s : State σ) (now : Int) (todo : List Client) (busy : Bool) (r : Serviced σ) :
    State σ :=
  if r.ok then
    { s with
      firstActivePtr := r.client :: s.firstActivePtr
      heap := r.heap
      data := r.data
      pc := .poll now todo (busy || r.client.msgPtr.isSome) }
  else
    let retried := retryClient r.client r.heap
    { s with
      firstRetryPtr := retried.1 :: s.firstRetryPtr
      heap := retried.2
      data := r.data
      pc := .poll now todo busy }

/-- Hand a queue message to the clients past the connect state. -/
def handOut (id : Nat) : List Int → List Client → Heap Msg → List Client × Heap Msg
  | _, [], h => ([], h)
  | clocks, c :: cs, h =>
      if c.state ≠ .connect then
        let sent := msgSend .queue id (clocks.headD 0) c h
        let rest := handOut id clocks.tail cs sent.2
        (sent.1 :: rest.1, rest.2)
      else
        let rest := handOut id clocks cs h
        (c :: rest.1, rest.2)

/-- Record that a message was taken while the client was connected and past the connect state. -/
def noteDue (id : Nat) (c : Client) : Client :=
  if c.sock.isSome ∧ c.state ≠ .connect then { c with due := c.due ++ [id] } else c

/-- Take the next message off the queue and hand it out. -/
def dequeue (s : State σ) (clocks : List Int) : State σ :=
  match s.queue with
  | [] => { s with pc := .top }
  | id :: queue =>
      let out := handOut id clocks (s.firstActivePtr.map (noteDue id)) s.heap
      { s with
        queue := queue
        firstActivePtr := out.1
        firstRetryPtr := s.firstRetryPtr.map (noteDue id)
        heap := out.2.decr id
        taken := s.taken ++ [id]
        pc := .top }

/-- Put clients on the retry list. -/
def retryAll : List Client → Heap Msg → List Client → List Client × Heap Msg
  | [], h, retry => (retry, h)
  | c :: cs, h, retry =>
      let r := retryClient c h
      retryAll cs r.2 (r.1 :: retry)

/-- What follows the loop at shutdown: drop the queue, close and free all clients. -/
def shutdown (s : State σ) : State σ :=
  let r := retryAll s.firstActivePtr (s.queue.foldl Heap.decr s.heap) s.firstRetryPtr
  { s with
    queue := []
    dropped := s.queue
    heap := r.2
    firstActivePtr := []
    firstRetryPtr := []
    freed := r.1
    pc := .closed }

/-- `Dci_Broadcast` on a new message. -/
def broadcast (s : State σ) (m : Msg) : State σ :=
  let r := s.heap.alloc m
  if s.shutdownPending then { s with heap := r.1.decr r.2 }
  else { s with heap := r.1, queue := s.queue ++ [r.2], queued := s.queued ++ [r.2] }

/-- One event. -/
def step (cfg : Config σ) (s : State σ) : Event σ → Option (State σ)
  | .round now conns =>
      match s.pc with
      | .top => some (startRound cfg s now conns)
      | _ => none
  | .client revents res clock =>
      match s.pc with
      | .poll now (c :: todo) busy =>
          (service cfg s now c revents res clock).map (putBack s now todo busy)
      | _ => none
  | .next clocks =>
      match s.pc with
      | .poll _ [] busy =>
          if busy then some { s with pc := .top }
          else if s.shutdownPending then some (shutdown s)
          else some (dequeue s clocks)
      | _ => none
  | .msg m => some (broadcast s m)
  | .stop => some { s with shutdownPending := true }
  | .data d => if cfg.holds d = cfg.holds s.data then some { s with data := d } else none
  | .ret =>
      match s.pc with
      | .closed => some { s with pc := .returned }
      | _ => none

/-- A broadcaster starts with its clients on the retry list and the login message allocated. -/
def start (cfg : Config σ) (clients : Nat) (d : σ) : State σ :=
  let r := ({} : Heap Msg).alloc cfg.login
  { firstActivePtr := []
    firstRetryPtr := List.replicate clients { timeout := cfg.timeoutInterval }
    heap := r.1
    login := r.2
    data := d }

/-- The clients not yet serviced in this round. -/
def Pc.todo : Pc → List Client
  | .poll _ todo _ => todo
  | _ => []

/-- All clients, those freed at shutdown included. -/
def State.clients (s : State σ) : List Client :=
  s.pc.todo ++ s.firstActivePtr ++ s.firstRetryPtr ++ s.freed

end Nsdci.Broadcast
