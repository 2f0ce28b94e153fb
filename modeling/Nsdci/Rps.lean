import Nsdci.DString
import Nsdci.Server.Loop
import Nsdci.Server.Send

/-!
# The procedure of an RPC server (`RpsProc`)

What an RPC server does when `DciServer` calls it: after `INIT` it sends its handshake, then it
takes requests, each a header of 8 bytes and the data that the header announces, calls the
procedure that was registered, and sends the response.

A block of memory is named after the client it is allocated for. What the registered procedure
appends to the output is a parameter.
-/

namespace Nsdci.Rps

open Lib Server

/-- The blocks: `rpsPtr->handshake`, and those of each client. -/
inductive Block where
  | handshake
  | own (n b : Nat)
  deriving DecidableEq, Repr

/-- The memory of client `n`. -/
def view (m : Mem Block) (n : Nat) : Mem Nat := fun b => m (.own n b)

/-- The memory of client `n` replaced. -/
def setView (m : Mem Block) (n : Nat) (own : Mem Nat) : Mem Block
  | .handshake => m .handshake
  | .own k b => if k = n then own b else m (.own k b)

/-- A pointer into the memory of client `n`. -/
def owned (n : Nat) (p : Ptr Nat) : Ptr Block := ⟨.own n p.block, p.off⟩

/-- `CData`. The vectors are kept with the transfer. -/
structure CData where
  rpcmsg : Nat
  inPtr : DString
  outPtr : DString

/-- A call of the procedure, with the contents of the two strings, and what came of it. -/
structure Call where
  cmd : Int
  input : Bytes
  output : Bytes
  status : Int
  appended : Bytes

/-- `Dci_RpcProc`: the new state, the result, and what is appended to the output. -/
abbrev RpcProc (α : Type) := α → Int → Bytes → Bytes → α × Int × Bytes

/-- `Dci_ServerGetData` and the next free block of each client, the state of the procedure, and the
calls of it for each client. -/
structure Data (α : Type) where
  cdata : Nat → Option CData := fun _ => none
  next : Nat → Nat := fun _ => 0
  arg : α
  calls : Nat → List Call := fun _ => []

variable {α : Type} (lib : DStringLib) (proc : RpcProc α) (n : Nat)

/-- `dataPtr`, allocated at the first call. -/
def getData (env : Env Block (Data α)) : CData × Arena :=
  let a : Arena := ⟨view env.mem n, env.data.next n⟩
  match env.data.cdata n with
  | some d => (d, a)
  | none =>
      let r : Arena := ⟨a.mem.write ⟨a.next, 0⟩ (be32 0 ++ be32 0), a.next + 1⟩
      let i := r.dsInit lib
      let o := i.2.dsInit lib
      (⟨a.next, i.1, o.1⟩, o.2)

/-- What a call leaves in the memory of the client. -/
def setData (env : Env Block (Data α)) (d : CData) (a : Arena) : Env Block (Data α) :=
  { env with
    mem := setView env.mem n a.mem
    data := { env.data with
      cdata := Function.update env.data.cdata n (some d)
      next := Function.update env.data.next n a.next } }

/-- The two strings are made empty. -/
def truncBoth (d : CData) (a : Arena) : CData × Arena :=
  let o := a.setLength lib d.outPtr 0
  let i := o.2.setLength lib d.inPtr 0
  ({ d with inPtr := i.1, outPtr := o.1 }, i.2)

/-- Both strings of the client are made empty. -/
def truncate (env : Env Block (Data α)) (d : CData) (a : Arena) : Env Block (Data α) :=
  let r := truncBoth lib d a
  setData n env r.1 r.2

/-- A header with a length: the data is to be received. -/
def recvBody (env : Env Block (Data α)) (d : CData) (a : Arena) (len : Int) :
    Env Block (Data α) :=
  let a := { a with mem := a.mem.write ⟨d.rpcmsg, 4⟩ (be32 0) }
  let r := a.setLength lib d.inPtr len
  let env := setData n env { d with inPtr := r.1 } r.2
  { env with client := serverRecv env.client (owned n r.1.string) r.1.length }

/-- A request is complete: the procedure is called, and the response is to be sent. -/
def callProc (env : Env Block (Data α)) (d : CData) (a : Arena) : Env Block (Data α) :=
  let cmd := int32 (ofBe32 (a.mem.read ⟨d.rpcmsg, 0⟩ 4))
  let input := d.inPtr.contents a.mem
  let output := d.outPtr.contents a.mem
  let (arg, status, bs) := proc env.data.arg cmd input output
  let r := a.nAppend lib d.outPtr bs
  let len := r.1.length
  let a := { r.2 with mem := r.2.mem.write ⟨d.rpcmsg, 0⟩ (be32 status ++ be32 len) }
  let env := setData n env { d with outPtr := r.1 } a
  { env with
    client := serverSendVec env.client
      [.mk' (owned n ⟨d.rpcmsg, 0⟩) 8, .mk' (owned n r.1.string) len]
    data := { env.data with
      arg := arg
      calls := Function.update env.data.calls n
        (env.data.calls n ++ [⟨cmd, input, output, status, bs⟩]) } }

/-- `DCI_SERVER_RECV`. -/
def recvDone (env : Env Block (Data α)) (d : CData) (a : Arena) : Env Block (Data α) :=
  let len := int32 (ofBe32 (a.mem.read ⟨d.rpcmsg, 4⟩ 4))
  if len ≠ 0 then recvBody lib n env d a len else callProc lib proc n env d a

/-- `RpsProc`. -/
def rpsProc : ServerProc Block (Data α) := fun env why =>
  let r := getData lib n env
  let d := r.1
  let a := r.2
  match why with
  | .recv => (recvDone lib proc n env d a, .ok)
  | .init =>
      let env := truncate lib n env d a
      ({ env with client := serverSend env.client ⟨.handshake, 0⟩ 32 }, .ok)
  | .send =>
      let env := truncate lib n env d a
      ({ env with client := serverRecv env.client (owned n ⟨d.rpcmsg, 0⟩) 8 }, .ok)
  | .drop => (truncate lib n env d a, .ok)

/-! ## What comes and goes -/

/-- A request as it is sent. -/
def message (cmd : Int) (data : Bytes) : Bytes := be32 cmd ++ be32 data.length ++ data

/-- The request that a call was for. -/
def Call.request (c : Call) : Bytes := message c.cmd c.input

/-- The response to it. -/
def Call.response (c : Call) : Bytes := message c.status (c.output ++ c.appended)

/-- Of the session of each client: the bytes received and sent, how many calls of the procedure were
made before it, whether all came one request at a time, and whether all sends were clean. -/
structure Watch where
  got : Nat → Bytes := fun _ => []
  sent : Nat → Bytes := fun _ => []
  start : Nat → Nat := fun _ => 0
  paced : Nat → Prop := fun _ => True
  clean : Nat → Prop := fun _ => True

/-- The calls of the session of a client. -/
def Watch.calls (w : Watch) (s : Thread Block (Data α)) (n : Nat) : List Call :=
  (s.data.calls n).drop (w.start n)

/-- The bytes that a `recv` gives. -/
def received (bufsize : Nat) (c : Client Block) : List IoResult → Bytes
  | .recvd bs :: _ =>
      if bufsize = 0 then bs.take c.nleft.toNat
      else if c.ahead = [] then bs.take bufsize else []
  | _ => []

/-- Behind the requests that have been answered there is nothing, or a front of one more. -/
def Paced (calls : List Call) (got : Bytes) : Prop :=
  ∃ cmd data, data.length < 2147483648 ∧ got <+: calls.flatMap Call.request ++ message cmd data

/-- A `sendmsg` fails, or sends what it can send, and does not end inside a vector that has bytes
behind it. -/
def SendsClean (iov : List (Iovec Block)) (ret : Int) : Prop :=
  -1 ≤ ret ∧ ret ≤ total iov ∧ ret < 2147483648 ∧ SplitsClean (lens iov) ret.toNat

/-- A step of the thread, as it is seen from outside. -/
def Watch.next (w : Watch) (bufsize : Nat) (s : Thread Block (Data α)) (e : Event)
    (s' : Thread Block (Data α)) : Watch :=
  match s.point, e with
  | .serving (n :: _), .turn .. =>
      if (n, Why.init) ∈ s'.calls.drop s.calls.length then
        { got := Function.update w.got n []
          sent := Function.update w.sent n []
          start := Function.update w.start n (s.data.calls n).length
          paced := Function.update w.paced n True
          clean := Function.update w.clean n True }
      else w
  | .receiving n _ _, .recv ios =>
      let got := w.got n ++ received bufsize (s.peers n).client ios
      { w with
        got := Function.update w.got n got
        paced := Function.update w.paced n (w.paced n ∧ Paced (w.calls s n) got) }
  | .sending n _, .send ret _ =>
      let iov := (s.peers n).client.iov
      { w with
        sent := Function.update w.sent n (w.sent n ++ (gather s.mem iov).take ret.toNat)
        clean := Function.update w.clean n (w.clean n ∧ SendsClean iov ret) }
  | _, _ => w

/-- The server of `Dci_RpcCreateServer`. -/
def rpsSetup (bufsize : Nat) (retryInterval : Int) : Setup Block (Data α) :=
  ⟨rpsProc lib proc, retryInterval, bufsize⟩

/-- The thread of an RPC server, with what is seen of it. -/
def rpsStep (bufsize : Nat) (retryInterval : Int) (s : Thread Block (Data α) × Watch) (e : Event) :
    Option (Thread Block (Data α) × Watch) :=
  (step (rpsSetup lib proc bufsize retryInterval) s.1 e).map fun s' =>
    (s', s.2.next bufsize s.1 e s')

/-- An RPC server that has just started. -/
def rpsStart (clients : List Nat) (mem : Mem Block) (arg : α) : Thread Block (Data α) × Watch :=
  (.start clients mem { arg := arg }, {})

end Nsdci.Rps
