import Nsdci.Sock
import Nsdci.DString
import Nsdci.Lib.CString
import Nsdci.Lib.Decimal
import Nsdci.Lib.Word
import Mathlib.Data.List.DropRight

/-!
# RPC requests (`rpc.c`)

One request on one connection: `rpcSetSend` formats it, `rpcSend` sends it piece by piece,
`rpcSetRecv` sets the vectors for the response and `rpcRecv` takes it in, in the binary form or
as an HTTP response (`rpcParseHttp`). The results of `sendmsg` and `recvmsg` are inputs, and so
is `Tcl_GetInt`, which belongs to Tcl.

The parser of the source cuts the header into strings in place; here the strings are values. The
bytes behind the header are not touched by that.
-/

namespace Nsdci.Rpc

open Lib

/-- The `RPC_E` codes of a job (`ok` is `RPC_OK`). -/
inductive Error where
  | ok | enoconn | ehttpsize | ehttpparse | esend | erecv | esendwait | erecvwait | etimeout
  deriving DecidableEq, Repr

/-- `Tcl_GetInt`: at least, it reads what `printf` writes. -/
structure TclGetInt where
  getInt : Bytes → Option Int
  getInt_decimal : ∀ x : Int, -2147483648 ≤ x → x < 2147483648 → getInt (decimal x) = some x

/-- A `Tcl_GetInt` for decimal numbers only. -/
def TclGetInt.decimal : TclGetInt := ⟨parseDecimal, fun x _ _ => parseDecimal_decimal x⟩

/-- The fields of `Rpc` that a request uses. `httpmaxhdr` is an `int`. -/
structure Config where
  name : Bytes
  host : Bytes
  httpKeepAlive : Bool
  httpmaxhdr : Int
  httpMethod : Bytes
  httpmaxhdr_ok : httpmaxhdr < 2147483648

/-- Configuration of a client without HTTP. -/
def plain : Config := ⟨ascii "c", [], false, 2048, ascii "DCIRPC", by decide⟩

/-- The fields of `Conn` that a request uses. `http` and `keep` are the two bits of the
source's `http`. -/
structure Conn where
  http : Bool
  keep : Bool
  errnum : Int
  len : Int
  body : Option (Ptr Nat)
  iov : List (Iovec Nat)
  buf : DString

/-- `Dci_RpcJob`, less its times. The pointers to the caller's strings are the strings. -/
structure Job where
  cmd : Int
  result : Int
  error : Error
  inPtr : Option DString
  outPtr : Option DString

/-- A job and its connection, with the memory of their strings. -/
structure Xfer where
  conn : Conn
  job : Job
  arena : Arena

/-- `iov[0]`. -/
def Conn.iov0 (c : Conn) : Iovec Nat := c.iov.headD .null

/-- `iov[1]`. -/
def Conn.iov1 (c : Conn) : Iovec Nat := c.iov.getD 1 .null

variable (cfg : Config) (lib : DStringLib) (tcl : TclGetInt)

/-! ## Sending -/

/-- The HTTP request header. -/
def requestHeader (cmd : Int) (len : Nat) : Bytes :=
  cfg.httpMethod ++ ascii " /" ++ cfg.name ++ ascii "/" ++ decimal cmd ++
    ascii " HTTP/1.0\r\nhost: " ++ cfg.host ++ ascii "\r\ncontent-length: " ++ decimal len ++
    ascii "\r\nconnection: " ++ ascii (if cfg.httpKeepAlive then "keep-alive" else "close") ++
    ascii "\r\n\r\n"

/-- `RpcSetSend`: format the header and set the vectors to send. -/
def rpcSetSend (x : Xfer) : Xfer :=
  let iov1 := match x.job.inPtr with
    | none => .null
    | some ds => .mk' ds.string ds.length
  let (buf, arena) := x.arena.dsInit lib
  let (buf, arena) :=
    if x.conn.http then arena.nAppend lib buf (requestHeader cfg x.job.cmd iov1.len)
    else
      let (buf, arena) := arena.setLength lib buf 8
      (buf, { arena with mem := arena.mem.write buf.string (be32 x.job.cmd ++ be32 iov1.len) })
  { x with
    arena := arena
    conn := { x.conn with
      buf := buf
      iov := [.mk' buf.string buf.length, iov1]
      len := int32 (buf.length + iov1.len) } }

/-- `RpcSend`: one `sendmsg`, which took some bytes or failed with an `errno`. -/
def rpcSend (x : Xfer) : Except Int Nat → Xfer × Error
  | .error errnum => ({ x with conn := { x.conn with errnum := errnum } }, .esend)
  | .ok n =>
      let len := int32 (x.conn.len - n)
      if 0 < len then
        ({ x with conn := { x.conn with len := len, iov := updateIov x.conn.iov n } },
          .esendwait)
      else ({ x with conn := { x.conn with len := len } }, .etimeout)

/-! ## The HTTP response header -/

/-- `isspace`. -/
def isSpace (c : UInt8) : Bool := c = 32 || (9 ≤ c && c ≤ 13)

/-- `Ns_StrTrim`. -/
def strTrim (s : Bytes) : Bytes := (s.rdropWhile isSpace).dropWhile isSpace

/-- `tolower`. -/
def toLower (c : UInt8) : UInt8 := if 65 ≤ c ∧ c ≤ 90 then c + 32 else c

/-- `strncasecmp(q, hdr, sizeof(hdr)-1) == 0`, for a lower-case `hdr`. -/
def hasPrefix (hdr q : Bytes) : Bool := (q.take hdr.length).map toLower = hdr

/-- `CHDR`, `LHDR` and `RHDR`. -/
def chdr : Bytes := ascii "connection:"
@[inherit_doc chdr] def lhdr : Bytes := ascii "content-length:"
@[inherit_doc chdr] def rhdr : Bytes := ascii "x-dcirpc-result:"

/-- `Parse`: what a response header says. -/
structure Parse where
  result : Int
  length : Int
  keep : Bool
  deriving DecidableEq, Repr

/-- The pointers `r`, `l` and `c` of `RpcParseHttp`. -/
structure Found where
  r : Option Bytes := none
  l : Option Bytes := none
  c : Option Bytes := none
  deriving DecidableEq, Repr

/-- One turn of the loop of `RpcParseHttp`. -/
def Found.line (f : Found) (hdr : Bytes) : Found :=
  let q := strTrim hdr
  if hasPrefix rhdr q then { f with r := some (strTrim (q.drop rhdr.length)) }
  else if hasPrefix lhdr q then { f with l := some (strTrim (q.drop lhdr.length)) }
  else if hasPrefix chdr q then { f with c := some (strTrim (q.drop chdr.length)) }
  else f

/-- `RpcParseHttp`. -/
def rpcParseHttp (hdrs : Bytes) : Option Parse := do
  let f := (hdrs.splitOn 10).foldl Found.line {}
  let result ← f.r.bind tcl.getInt
  let length ← match f.l with
    | none => some 0
    | some l => tcl.getInt l
  let keep := match f.c with
    | none => false
    | some c => c.map toLower = ascii "keep-alive"
  return ⟨result, length, keep⟩

/-! ## Receiving -/

/-- The blank line that ends an HTTP header. -/
def blankLine : Bytes := [13, 10, 13, 10]

/-- An `int` as a `size_t`. -/
def sizeT (n : Int) : Nat := (n % 18446744073709551616).toNat

/-- `RpcSetRecv`: set the vectors to receive. -/
def rpcSetRecv (x : Xfer) : Xfer :=
  let (buf, arena) := x.arena.setLength lib x.conn.buf (if x.conn.http then cfg.httpmaxhdr else 8)
  match (if x.conn.http then none else x.job.outPtr) with
  | none =>
      { x with
        arena := arena
        conn := { x.conn with
          buf := buf
          iov := [.mk' buf.string buf.length, .null]
          len := int32 buf.length
          body := none } }
  | some out =>
      let (out, arena) := arena.setLength lib out (out.spaceAvl - 1)
      { x with
        arena := arena
        job := { x.job with outPtr := some out }
        conn := { x.conn with
          buf := buf
          iov := [.mk' buf.string buf.length, .mk' out.string out.length]
          len := int32 (buf.length + out.length)
          body := none } }

/-- The string the response goes to: the caller's, or the connection's buffer when he gave none
(no data is expected then). -/
def Xfer.target (x : Xfer) : DString := x.job.outPtr.getD x.conn.buf

/-- Put back the string `target` names. -/
def Xfer.setTarget (x : Xfer) (ds : DString) : Xfer :=
  match x.job.outPtr with
  | none => { x with conn := { x.conn with buf := ds } }
  | some _ => { x with job := { x.job with outPtr := some ds } }

/-- The part of `RpcRecv` for an HTTP connection whose header is not complete: scan what has
come in, `n` bytes of it just now at `base`, for the end of the header. The result is the count
of bytes read of what is now expected, or an error. -/
def recvHttp (x : Xfer) (base : Ptr Nat) (n : Nat) : Xfer × Except Error Nat :=
  let x := { x with arena := { x.arena with mem := x.arena.mem.write (base.add n) [0] } }
  let s := cstr (x.arena.mem.read x.conn.buf.string x.conn.buf.spaceAvl)
  match strstr blankLine s with
  | none => (x, if x.conn.len = n then .error .ehttpsize else .ok n)
  | some i =>
      let body := x.conn.buf.string.add (i + 4)
      let x := { x with conn := { x.conn with body := some body } }
      let n := base.off + n - body.off
      match rpcParseHttp tcl (s.take i) with
      | none => (x, .error .ehttpparse)
      | some parse =>
          let x := { x with
            conn := { x.conn with len := parse.length, keep := parse.keep }
            job := { x.job with result := parse.result } }
          let (out, arena) := match x.job.outPtr with
            | none => (x.target, x.arena)
            | some out =>
                let (out, arena) := x.arena.setLength lib out 0
                arena.nAppend lib out (x.arena.mem.read body n)
          let (out, arena) := arena.setLength lib out parse.length
          let x := ({ x with arena := arena }).setTarget out
          ({ x with conn := { x.conn with iov := [.mk' out.string out.length, x.conn.iov1] } },
            .ok n)

/-- The part of `RpcRecv` for the first `n` bytes that complete a binary header: get result and
length from it. -/
def recvHeader (x : Xfer) (n : Nat) : Xfer :=
  let hdr := x.arena.mem.read x.conn.buf.string 8
  let len := int32 (ofBe32 (hdr.drop 4))
  let (out, arena) := x.arena.setLength lib x.target (n - x.conn.iov0.len)
  let (out, arena) := arena.setLength lib out len
  let iov1 : Iovec Nat := .mk' out.string (sizeT len)
  let x := { x with
    arena := arena
    job := { x.job with result := int32 (ofBe32 (hdr.take 4)) }
    conn := { x.conn with
      iov := [x.conn.iov0, iov1]
      body := some out.string
      len := int32 (x.conn.iov0.len + iov1.len) } }
  x.setTarget out

/-- The rest of `RpcRecv` once `recvmsg` has stored some bytes: see if enough have arrived to
know the length, and move the vectors. -/
def recvBytes (x : Xfer) (bs : Bytes) : Xfer × Error :=
  let n := bs.length
  let base := x.conn.iov0.base
  let x := { x with arena := { x.arena with mem := scatter x.arena.mem x.conn.iov bs } }
  let (x, r) := match x.conn.body, x.conn.http, base with
    | none, true, some base => recvHttp lib tcl x base n
    | none, false, _ => (if x.conn.iov0.len ≤ n then recvHeader lib x n else x, .ok n)
    | _, _, _ => (x, .ok n)
  match r with
  | .error e => (x, e)
  | .ok n =>
      let len := int32 (x.conn.len - n)
      ({ x with conn := { x.conn with iov := updateIov x.conn.iov n, len := len } },
        if len = 0 then .ok else .erecvwait)

/-- `RpcRecv`: one `recvmsg`, which stored some bytes (none at the end of the stream) or failed
with an `errno`. -/
def rpcRecv (x : Xfer) : Except Int Bytes → Xfer × Error
  | .error errnum => ({ x with conn := { x.conn with errnum := errnum } }, .erecv)
  | .ok bs =>
      if bs = [] then ({ x with conn := { x.conn with errnum := 0 } }, .erecv)
      else recvBytes lib tcl x bs

end Nsdci.Rpc
