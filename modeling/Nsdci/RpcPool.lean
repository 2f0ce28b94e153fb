import Nsdci.Lib.Table
import Nsdci.Lib.Transition

/-!
# The connections of an RPC client (`rpc.c`)

A client has a list of idle connections. `RpcGet` takes one for each job of `Dci_RpcRun`, or makes
one to an HTTP server, and `RpcPut` puts it back. `RpcAccept` adds the connections that servers
make, and then looks for dropped ones. The fields `httpAvail` and `nsocks` say how many HTTP
connections can still be made and how many connections there are. All of it is one `Rpc`; the
counts for statistics are left out.

A step is what a thread does from where it takes the lock to where it gives it back, with what it
does before or behind this that no other thread can see. `RpcGet` gives the lock back to wait, to
look whether a connection is dropped, and to connect; `RpcAccept` to look at the idle ones.
-/

namespace Nsdci.RpcPool

open Lib

/-- The configuration: whether there is a host, which makes it an HTTP client. -/
structure Config where
  host : Bool
  httpnumconnections : Int

/-- The configured number of HTTP connections, which is what `httpAvail` is at first. -/
def Config.connections (cfg : Config) : Int := if cfg.host then cfg.httpnumconnections else 0

/-- `Conn`. `http` and `keep` are the two bits of the source's `http`. -/
structure Conn where
  sock : Nat
  http : Bool
  keep : Bool
  deriving DecidableEq

/-- A connection with the response of a job: an HTTP response says whether to keep it. -/
def Conn.completed (conn : Conn) (keep : Bool) : Conn :=
  if conn.http then { conn with keep := keep } else conn

/-- What `Ns_CondTimedWait` returns. -/
inductive Status where
  | ok | timeout
  deriving DecidableEq

/-- Where a thread is in `Dci_RpcRun`: it gets the connections (`gets`) with `RpcGet`, which waits,
polls a connection, or connects; then it gives all back without a request (`puts`), or runs the jobs
and gives them back after this (`ends`). -/
inductive Pc where
  | gets
  | wait
  | poll (conn : Conn) (status : Status)
  | connect
  | puts
  | ends
  deriving DecidableEq

/-- A thread, the connections it has for its jobs, and whether `RpcGet` gave one for each so far. -/
structure Thread where
  pc : Pc
  conns : List Conn
  all : Bool

/-- `Rpc`, with the threads. `firstPtr` are the idle connections, and `sweep` those that `RpcAccept`
has taken to look at. -/
structure State where
  httpAvail : Int
  nsocks : Int
  firstPtr : List Conn
  sweep : Option (List Conn)
  threads : List Thread

/-- What a thread can do: call `RpcGet` for a job, and go on in it after it has waited, polled and
connected; run the jobs, or not; put a connection back without a request; and see that a job is
completed, or has failed or timed out. -/
inductive Act where
  | get
  | woken (status : Status)
  | polled (dropped : Bool)
  | connected (sock : Option Nat)
  | run
  | giveUp
  | put
  | completed (keep : Bool)
  | failed

/-- What can happen: a thread calls `Dci_RpcRun` and goes on in it, and a server connects, with the
poll of the idle connections behind it. -/
inductive Event where
  | call
  | move (i : Nat) (act : Act)
  | accept (sock : Nat)
  | swept (dropped : Nat → Bool)

namespace State

/-- `Dci_RpcCreateClient`. -/
def init (cfg : Config) : State where
  httpAvail := cfg.connections
  nsocks := 0
  firstPtr := []
  sweep := none
  threads := []

variable (cfg : Config) (s : State)

def set (i : Nat) (t : Thread) : State := { s with threads := s.threads.set i t }

/-- `RpcPush`. -/
def rpcPush (conn : Conn) : State := { s with firstPtr := s.firstPtr ++ [conn] }

/-- A connection is closed and taken out of the counts. -/
def closed (conn : Conn) : State :=
  { s with
    nsocks := s.nsocks - 1
    httpAvail := s.httpAvail + if conn.http then 1 else 0 }

/-- `RpcPut`. -/
def rpcPut (conn : Conn) : State :=
  if !conn.http || conn.keep then s.rpcPush conn else s.closed conn

/-- The condition of the loops of `RpcGet`, when it has no connection. -/
def waits (status : Status) : Bool := 0 < s.nsocks ∧ s.httpAvail = 0 ∧ status = .ok

/-- `RpcGet` returns. -/
def got (i : Nat) (t : Thread) (conn : Option Conn) : State :=
  s.set i { pc := .gets, conns := t.conns ++ conn.toList, all := t.all && conn.isSome }

/-- `RpcGet` behind its loop, without a connection. -/
def connect (i : Nat) (t : Thread) : State :=
  if cfg.host then s.set i { t with pc := .connect } else s.got i t none

/-- The loop of `RpcGet`, from `RpcPop` on. -/
def search (i : Nat) (t : Thread) (status : Status) : State :=
  match s.firstPtr with
  | conn :: rest => { s with firstPtr := rest }.set i { t with pc := .poll conn status }
  | [] => if s.waits status then s.set i { t with pc := .wait } else s.connect cfg i t

/-- `RpcGet` when the server has dropped the connection. -/
def dropped (i : Nat) (t : Thread) (conn : Conn) (status : Status) : State :=
  let s := s.closed conn
  if s.waits status then s.search cfg i t status else s.connect cfg i t

/-- `RpcGet` when it has connected. -/
def connected (i : Nat) (t : Thread) (sock : Option Nat) : State :=
  match sock with
  | none => s.got i t none
  | some sock =>
      { s with nsocks := s.nsocks + 1, httpAvail := s.httpAvail - 1 }.got i t
        (some ⟨sock, true, false⟩)

/-- `RpcAccept` up to its poll. -/
def rpcAccept (sock : Nat) : State :=
  { s with
    nsocks := s.nsocks + 1
    sweep := some (s.rpcPush ⟨sock, false, false⟩).firstPtr
    firstPtr := [] }

/-- `RpcAccept` behind its poll. -/
def swept (conns : List Conn) (dropped : Nat → Bool) : State :=
  let kept := (conns.zipIdx.filter fun c => !dropped c.2).map Prod.fst
  { s with
    nsocks := s.nsocks - (conns.length - kept.length : Nat)
    firstPtr := s.firstPtr ++ kept.reverse
    sweep := none }

end State

/-- A step of a thread. -/
def Thread.step (cfg : Config) (s : State) (i : Nat) (t : Thread) : Act → Option State
  | .get => if t.pc = .gets then some (s.search cfg i t .ok) else none
  | .woken status => if t.pc = .wait then some (s.search cfg i t status) else none
  | .polled dropped =>
      match t.pc with
      | .poll conn status =>
          some (if dropped then s.dropped cfg i t conn status else s.got i t (some conn))
      | _ => none
  | .connected sock => if t.pc = .connect then some (s.connected i t sock) else none
  | .run => if t.pc = .gets ∧ t.all then some (s.set i { t with pc := .ends }) else none
  | .giveUp => if t.pc = .gets then some (s.set i { t with pc := .puts }) else none
  | .put =>
      match t.pc, t.conns with
      | .puts, conn :: conns => some ((s.rpcPut conn).set i { t with conns := conns })
      | _, _ => none
  | .completed keep =>
      match t.pc, t.conns with
      | .ends, conn :: conns =>
          some ((s.rpcPut (conn.completed keep)).set i { t with conns := conns })
      | _, _ => none
  | .failed =>
      match t.pc, t.conns with
      | .ends, conn :: conns => some ((s.closed conn).set i { t with conns := conns })
      | _, _ => none

/-- One step. -/
def step (cfg : Config) (s : State) : Event → Option State
  | .call => some { s with threads := s.threads ++ [⟨.gets, [], true⟩] }
  | .move i act => s.threads[i]?.bind fun t => t.step cfg s i act
  | .accept sock => if s.sweep.isNone then some (s.rpcAccept sock) else none
  | .swept dropped => s.sweep.map fun conns => s.swept conns dropped

end Nsdci.RpcPool
