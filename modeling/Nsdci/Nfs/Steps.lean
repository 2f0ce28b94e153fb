import Nsdci.Cb
import Nsdci.Lib.Transition
import Nsdci.Nfs.Address

/-!
# The threads of the file server

The requests of a server run in threads, one for the binary connections and those of the HTTP
server. Nothing keeps them apart but the lock of the cache, so a request is taken here in steps: a
step is one system call on a file, or one section under the lock. `Pc` has a point for each of
them, and `advance` is the step of one thread.

What the system calls answer is part of the event. A comment board is read, edited and written
back by `NfsCbUpdate` in such steps too.
-/

namespace Nsdci.Nfs

open Lib

/-- A server with comment boards. -/
structure Setup where
  cfg : Config
  tcl : Cb.Tcl
  maxposts : Int

/-- A request, taken apart. -/
inductive Request where
  | read (key : Bytes)
  | write (key bytes : Bytes) (nl append : Bool)
  | unlink (key : Bytes)
  | update (board : Bytes) (edit : Cb.Edit)
  deriving DecidableEq

/-- The key of the file a request is about. -/
def Request.key : Request → Bytes
  | .read key | .write key _ _ _ | .unlink key | .update key _ => key

/-- What `NfsWriteFile3` is to write. -/
structure Write where
  bytes : Bytes
  nl : Bool
  append : Bool
  deriving DecidableEq

/-- Where a thread is, with the variables it needs from there on. The points from `stat` to `fill`
are those of `NfsReadFile`, `edit` is the middle of `NfsCbUpdate`, those from `openWrite` to
`rename` are of `NfsWriteFile3`, and `flush` is `NfsFlush` at the end of a write or an `unlink`. -/
inductive Pc where
  | stat
  | look (st : Stat)
  | wait (st : Stat)
  | openRead (st : Stat) (id : Nat)
  | read (st : Stat) (id inode trys : Nat)
  | fstat (id inode trys : Nat)
  | fill (id : Nat) (result : Except Int Cached)
  | edit (got : Except Int Bytes)
  | openWrite (w : Write)
  | writev (inode : Nat) (w : Write)
  | rename (inode : Nat) (w : Write)
  | unlink
  | flush
  | done (status : Int) (out : Bytes)

/-- A thread with its request. `text` is the board as an update found it, and `time` the time of
its edit. -/
structure Thread where
  req : Request
  pc : Pc
  text : Bytes := []
  time : Int := 0

/-- What system calls answer to one step: the time, an `errno` when the call fails, the count and
the `errno` of a `writev` that wrote less than it was given, and what `errno` is after ten reads
of a file that grows or shrinks all the time. -/
structure Io where
  now : Int := 0
  failed : Option Errno := none
  short : Option (Nat × Errno) := none
  errno : Nat := 0
  mkdirs : Bool := true
  uuid : Bool := true

/-- The first step of a request. -/
def Request.begin (req : Request) : Thread :=
  match req with
  | .read _ | .update _ _ => { req := req, pc := .stat }
  | .write _ bytes nl append => { req := req, pc := .openWrite ⟨bytes, nl, append⟩ }
  | .unlink _ => { req := req, pc := .unlink }

namespace Thread

/-- Go on at another point. -/
def goto (t : Thread) (pc : Pc) : Thread := { t with pc := pc }

/-- Return from the request. -/
def finish (t : Thread) (status : Int) : Thread := t.goto (.done status [])

/-- `NfsReadFile` returns: to `NfsCbUpdate`, or to `NfsProc`, which hides the error of a file that
is not there. -/
def readDone (t : Thread) (got : Except Int Bytes) : Thread :=
  match t.req, got with
  | .update _ _, got => t.goto (.edit got)
  | _, .ok out => t.goto (.done 0 out)
  | _, .error err => t.finish (if err = enoent then 0 else -1)

/-- What the first section under the lock of the cache leads to. -/
def looked (t : Thread) (st : Stat) : Looked → Thread
  | .hit f => t.readDone (.ok f.buf)
  | .fill id => t.goto (.openRead st id)
  | .wait => t.goto (.wait st)

/-- What is read goes into the cache, and `NfsReadFile` returns. An error of 0 is none. -/
def filled (t : Thread) : Except Int Cached → Thread
  | .ok f => t.readDone (.ok f.buf)
  | .error err => t.readDone (if err = 0 then .ok [] else .error err)

end Thread

/-- The value a reader puts into its entry. -/
def fillValue : Except Int Cached → Option Cached
  | .ok f => some f
  | .error _ => none

/-- The edit of a board of which a thread has the text. The `time` of a post is taken here. -/
def Thread.proceed (su : Setup) (t : Thread) (e : Cb.Edit) (now : Int) (ds : Bytes) : Thread :=
  match e.apply su.tcl su.maxposts now ds with
  | none => t.finish (-1)
  | some text => { t with pc := .openWrite ⟨text, true, false⟩, text := ds, time := now }

/-- `NfsCbUpdate` behind its read. A board that is not there is empty. -/
def Thread.edited (su : Setup) (t : Thread) (e : Cb.Edit) (got : Except Int Bytes) (now : Int) :
    Thread :=
  match got with
  | .ok ds => t.proceed su e now ds
  | .error err => if err = 0 ∨ err = enoent then t.proceed su e now [] else t.finish err

variable (su : Setup)

/-- The file of a request. -/
def Setup.path (t : Thread) : Bytes := nfsPath su.cfg t.req.key

/-- One step of a thread. -/
def advance (s : Server) (t : Thread) (io : Io) : Option (Server × Thread) :=
  let path := su.path t
  match t.pc with
  | .stat =>
      some (s, match io.failed, s.disk.statFile path with
        | some errno, _ => t.readDone (.error errno)
        | none, .error err => t.readDone (.error err)
        | none, .ok st => t.goto (.look st))
  | .look st =>
      let r := lookup s.cache t.req.key st
      some ({ s with cache := r.1 }, t.looked st r.2)
  | .wait st =>
      match s.cache.entry t.req.key with
      | none => some (s, t.readDone (.error eagain))
      | some _ =>
          let r := lookup s.cache t.req.key st
          some ({ s with cache := r.1 }, t.looked st r.2)
  | .openRead st id =>
      some (s, match io.failed, s.disk.names path with
        | some errno, _ => t.goto (.fill id (.error errno))
        | none, none => t.goto (.fill id (.error enoent))
        | none, some (.file i) => t.goto (.read st id i 0)
        | none, some _ => t.goto (.fill id (.error eisdir)))
  | .read st id i trys =>
      some (s, match io.failed with
        | some errno => t.goto (.fill id (.error errno))
        | none =>
            -- one byte more than the size is asked for
            if (s.disk.inodes i).content.length = st.size then
              t.goto (.fill id (.ok ⟨st, strip (s.disk.inodes i).content⟩))
            else t.goto (.fstat id i trys))
  | .fstat id i trys =>
      some (s, match io.failed with
        | some errno => t.goto (.fill id (.error errno))
        | none =>
            if trys + 1 < 10 then t.goto (.read (s.disk.inodes i).stat id i (trys + 1))
            else t.goto (.fill id (.error io.errno)))
  | .fill id result =>
      some ({ s with cache := store s.cache id (fillValue result) }, t.filled result)
  | .edit got =>
      match t.req with
      | .update _ e => some (s, t.edited su e got io.now)
      | _ => none
  | .openWrite w =>
      let mode := su.cfg.mode w.append
      if (su.cfg.mkdirs && !io.mkdirs) || (mode = .rename && !io.uuid) then
        some (s, t.finish rpcError)
      else
        match io.failed, openWrite s.disk mode path io.now with
        | some errno, _ => some (s, t.finish errno)
        | none, none => some (s, t.finish eisdir)
        | none, some (d, i) => some ({ s with disk := d }, t.goto (.writev i w))
  | .writev i w =>
      let mode := su.cfg.mode w.append
      match io.short with
      | some (n, errno) =>
          some ({ s with disk := writeBytes s.disk mode i ((payload w.nl w.bytes).take n) io.now },
            t.finish errno)
      | none =>
          some ({ s with disk := writeBytes s.disk mode i (payload w.nl w.bytes) io.now },
            t.goto (if mode = .rename then .rename i w else .flush))
  | .rename i _ =>
      match s.disk.names path, io.failed with
      | _, some _ | some .dir, none => some (s, t.finish (-1))
      | _, none => some ({ s with disk := s.disk.setName path (some (.file i)) }, t.goto .flush)
  | .unlink =>
      match s.disk.names path, io.failed with
      | none, _ => some (s, t.finish enoent)
      | some _, some errno => some (s, t.finish errno)
      | some .dir, none => some (s, t.finish eisdir)
      | some _, none => some ({ s with disk := s.disk.setName path none }, t.goto .flush)
  | .flush => some ({ s with cache := nfsFlush s.cache t.req.key }, t.finish 0)
  | .done _ _ => none

/-- A server with its threads. `stray` says that `NfsReadFile` has stored into an entry, or deleted
one, that was not in the cache any more. -/
structure State where
  server : Server
  threads : List Thread := []
  stray : Bool := false

/-- The thread is about to store into an entry, or to delete one, that is not in the cache. -/
def strays (c : Cache) (t : Thread) : Bool :=
  match t.pc with
  | .fill id _ => c.entry t.req.key ≠ some id
  | _ => false

/-- What happens: a request comes, a thread makes a step, or the cache drops an entry to make
room. -/
inductive Event where
  | start (req : Request)
  | move (n : Nat) (io : Io)
  | evict (id : Nat)

/-- One step of the server. -/
def step (s : State) (e : Event) : Option State :=
  match e with
  | .start req => some { s with threads := s.threads ++ [req.begin] }
  | .move n io =>
      s.threads[n]?.bind fun t =>
        (advance su s.server t io).map fun r =>
          { server := r.1, threads := s.threads.set n r.2
            stray := s.stray || strays s.server.cache t }
  | .evict id =>
      some { s with server := { s.server with cache := s.server.cache.delete id } }

end Nsdci.Nfs
