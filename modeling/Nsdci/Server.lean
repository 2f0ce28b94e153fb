import Nsdci.Ns
import Nsdci.Sock
import Nsdci.Lib.Word

/-!
# The connect/send/receive server (`server.c`)

One client connection of a server thread: the transfer in progress, the read-ahead buffer and
`Callback`, which moves bytes after `poll` and calls the server procedure when a transfer is
complete. The procedure is a parameter. The results of the system calls (`IoResult`) are inputs.

`int` counters (`nleft`, and the `int` that `sendmsg`'s result is stored in) wrap at 32 bits.
-/

namespace Nsdci.Server

open Lib

/-- Why the server procedure is called (`DCI_SERVER_INIT` and so on). -/
inductive Why where
  | init | drop | recv | send
  deriving DecidableEq, Repr

/-- `cPtr->state`. -/
inductive State where
  | connecting | recvData | sendData
  deriving DecidableEq, Repr

/-- Byte and callback counts, kept for each client and for the whole server. -/
structure Stats where
  nrecv : Nat := 0
  nsend : Nat := 0
  nicb : Nat := 0
  ndcb : Nat := 0
  nrcb : Nat := 0
  nscb : Nat := 0
  deriving DecidableEq, Repr

/-- The transfer state of a `Client`. `ahead` is the unread part of the read-ahead buffer, the
`recvcnt` bytes from `recvbase` on; `iov` is `msg.msg_iov` with `msg.msg_iovlen` entries. -/
structure Client (β : Type) where
  state : State := .connecting
  nleft : Int := 0
  iov : List (Iovec β) := []
  bufPtr : Option (Ptr β) := none
  ahead : Bytes := []
  mtime : Int := 0
  ctime : Int := 0
  stats : Stats := {}

/-- What `Callback` and the server procedure work on: the client, the server's counters, the
memory the transfers read and write, and the procedure's own data. -/
structure Env (β δ : Type) where
  client : Client β
  stats : Stats
  mem : Mem β
  data : δ

/-- `Dci_ServerProc`. -/
abbrev ServerProc (β δ : Type) := Env β δ → Why → Env β δ × Status

/-- The result of a `sendmsg` (`sent`, with its return value) or a `recv` (`recvd`, with the
bytes stored, none at end of stream, or `failed`). `again` says that `errno` is
`EWOULDBLOCK`. -/
inductive IoResult where
  | sent (ret : Int) (again : Bool)
  | recvd (bs : Bytes)
  | failed (again : Bool)
  deriving DecidableEq, Repr

variable {β δ : Type}

/-- `Dci_ServerSendVec`: queue the vectors for send. -/
def serverSendVec (c : Client β) (iov : List (Iovec β)) : Client β :=
  { c with
    bufPtr := none
    nleft := iov.foldl (fun n v => int32 (n + v.len)) 0
    iov := iov
    state := .sendData }

/-- `Dci_ServerSend`: queue a single buffer for send. -/
def serverSend (c : Client β) (bufPtr : Ptr β) (len : Nat) : Client β :=
  serverSendVec c [.mk' bufPtr len]

/-- `Dci_ServerRecv`: wait for `len` bytes to be read into a buffer. -/
def serverRecv (c : Client β) (bufPtr : Ptr β) (len : Int) : Client β :=
  { c with bufPtr := some bufPtr, nleft := len, state := .recvData }

/-- The loop of `Callback` that moves `msg_iov` past the `n` bytes sent. Unlike
`Dci_UpdateIov` it does not clear `n` when the boundary falls inside a vector. -/
def callbackIov : List (Iovec β) → Nat → List (Iovec β)
  | [], _ => []
  | v :: iov, n =>
      if n = 0 then v :: iov
      else if 0 < v.len then
        if v.len ≤ n then .null :: callbackIov iov (n - v.len)
        else v.advance n :: callbackIov iov n
      else v :: callbackIov iov n

/-- The status of a call whose count is not positive. -/
def ioStatus (n : Int) (again : Bool) : Status :=
  if n = 0 then .error else if again then .timeout else .error

/-- The send half of `Callback` after `sendmsg` has given the count `n`, up to the call of the
server procedure: `none` says that the procedure is called next. -/
def callbackSent (env : Env β δ) (n : Int) (again : Bool) : Env β δ × Option Status :=
  if n ≤ 0 then (env, some (ioStatus n again))
  else
    let c := env.client
    let left := int32 (c.nleft - n)
    let env := { env with
      client := { c with
        nleft := left
        stats := { c.stats with nsend := c.stats.nsend + n.toNat }
        iov := callbackIov c.iov n.toNat }
      stats := { env.stats with nsend := env.stats.nsend + n.toNat } }
    if left = 0 then
      ({ env with
          client := { env.client with
            stats := { env.client.stats with nscb := env.client.stats.nscb + 1 } }
          stats := { env.stats with nscb := env.stats.nscb + 1 } }, none)
    else (env, some .ok)

/-- The send half of `Callback`: the result of `sendmsg` is stored in an `int`. -/
def callbackSend (env : Env β δ) (ret : Int) (again : Bool) : Env β δ × Option Status :=
  callbackSent env (int32 ret) again

/-- Store received bytes at `bufPtr`. -/
def store (mem : Mem β) [DecidableEq β] (bufPtr : Option (Ptr β)) (bs : Bytes) : Mem β :=
  match bufPtr with
  | some p => mem.write p bs
  | none => mem

/-- Copy from the read-ahead `ahead` what the transfer can take. When that is nothing the count
is 0, as at the end of the stream. -/
def copyAhead (ahead : Bytes) (nleft : Int) : (Bytes ⊕ Status) × Bytes :=
  let bs := ahead.take nleft.toNat
  (if bs = [] then .inr .error else .inl bs, ahead.drop nleft.toNat)

/-- Fetch the bytes of one receive: straight from the socket when `bufsize` is 0, else through
the read-ahead buffer, which is filled by one `recv` when it is empty. The result is the bytes
copied to `bufPtr`, or the status of a `recv` that gave none, with the new read-ahead and the
unused system-call results. When no result is left, `recv` would block. -/
def fetch (bufsize : Nat) (c : Client β) (ios : List IoResult) :
    (Bytes ⊕ Status) × Bytes × List IoResult :=
  if bufsize = 0 then
    match ios with
    | .recvd bs :: ios =>
        let bs := bs.take c.nleft.toNat
        (if bs = [] then .inr .error else .inl bs, c.ahead, ios)
    | .failed again :: ios => (.inr (ioStatus (-1) again), c.ahead, ios)
    | _ => (.inr .timeout, c.ahead, ios)
  else if c.ahead = [] then
    match ios with
    | .recvd bs :: ios =>
        let r := copyAhead (bs.take bufsize) c.nleft
        (r.1, r.2, ios)
    | .failed again :: ios => (.inr (ioStatus (-1) again), [], ios)
    | _ => (.inr .timeout, [], ios)
  else
    let r := copyAhead c.ahead c.nleft
    (r.1, r.2, ios)

/-- The receive half of `Callback`, up to the call of the server procedure. -/
def callbackRecv [DecidableEq β] (bufsize : Nat) (env : Env β δ) (ios : List IoResult) :
    Env β δ × Option Status × List IoResult :=
  let c := env.client
  match fetch bufsize c ios with
  | (.inr st, ahead, ios) => ({ env with client := { c with ahead := ahead } }, some st, ios)
  | (.inl bs, ahead, ios) =>
      let n := bs.length
      let left := c.nleft - n
      let env := { env with
        mem := store env.mem c.bufPtr bs
        client := { c with
          ahead := ahead
          nleft := left
          bufPtr := c.bufPtr.map (·.add n)
          stats := { c.stats with nrecv := c.stats.nrecv + n } }
        stats := { env.stats with nrecv := env.stats.nrecv + n } }
      if left = 0 then
        ({ env with
            client := { env.client with
              stats := { env.client.stats with nrcb := env.client.stats.nrcb + 1 } }
            stats := { env.stats with nrcb := env.stats.nrcb + 1 } }, none, ios)
      else (env, some .ok, ios)

/-- Finish a `Callback`: call the server procedure when the transfer is complete. -/
def finish (proc : ServerProc β δ) (why : Why) (r : Env β δ × Option Status) :
    Env β δ × Status :=
  match r.2 with
  | none => proc r.1 why
  | some st => (r.1, st)

/-- The queued count is the number of bytes the vectors describe, as an `int`. -/
theorem serverSendVec_nleft (c : Client β) (iov : List (Iovec β)) :
    (serverSendVec c iov).nleft = int32 (total iov) := by
  have hfold : ∀ (iov : List (Iovec β)) (s : Int),
      iov.foldl (fun n v => int32 (n + v.len)) (int32 s) = int32 (s + total iov) := by
    intro iov
    induction iov with
    | nil => simp
    | cons v iov ih =>
        intro s
        simp only [List.foldl_cons, int32_int32_add, total_cons, Nat.cast_add]
        rw [ih, Int.add_assoc]
  simpa [serverSendVec] using hfold iov 0

end Nsdci.Server
