import Nsdci.TclList
import Nsdci.Lib.Word

/-!
# The file server (`nfs.c`)

A server keeps objects in files below its root and caches what it reads. `nfsPath` is the file of
a key; `nfsReadFile` reads through the cache, `nfsWriteFile3` writes, and `nfsUnlinkFile` deletes.
The sections of these functions that other threads cannot come between are definitions of their
own; here they run one after the other.

The path functions of AOLserver are parameters, and so are the results of system calls that may
fail. A cache entry has a number, as its address.
-/

namespace Nsdci.Nfs

open Lib

/-! ## Files -/

/-- The fields of `struct stat` that are compared: `st_size` and `st_mtime`. -/
structure Stat where
  size : Nat
  mtime : Int
  deriving DecidableEq, Repr

/-- A regular file: its bytes and its time of modification, in seconds. -/
structure Inode where
  content : Bytes
  mtime : Int
  deriving DecidableEq

/-- `stat` of a regular file. -/
def Inode.stat (f : Inode) : Stat := ⟨f.content.length, f.mtime⟩

/-- What a path names. -/
inductive Node where
  | file (inode : Nat)
  | dir | special
  deriving DecidableEq, Repr

/-- The file system. Inodes from `next` on are not in use. -/
structure Disk where
  names : Bytes → Option Node
  inodes : Nat → Inode
  next : Nat

/-- `ENOENT`, `EAGAIN`, `EISDIR` and `EINVAL`. -/
def enoent : Int := 2
@[inherit_doc enoent] def eagain : Int := 11
@[inherit_doc enoent] def eisdir : Int := 21
@[inherit_doc enoent] def einval : Int := 22

namespace Disk

variable (d : Disk)

/-- Change one inode. -/
def setInode (i : Nat) (f : Inode) : Disk :=
  { d with inodes := fun j => if j = i then f else d.inodes j }

/-- Make a path name something else, or nothing. -/
def setName (path : Bytes) (n : Option Node) : Disk :=
  { d with names := fun p => if p = path then n else d.names p }

/-- The file at a path, if it is a regular one. -/
def fileAt (path : Bytes) : Option Inode :=
  match d.names path with
  | some (.file i) => some (d.inodes i)
  | _ => none

/-- `stat`, with the error `NfsReadFile` makes of what is no regular file. -/
def statFile (path : Bytes) : Except Int Stat :=
  match d.names path with
  | none => .error enoent
  | some .dir => .error eisdir
  | some .special => .error einval
  | some (.file i) => .ok (d.inodes i).stat

/-- A new empty file without a name. -/
def create (now : Int) : Disk × Nat :=
  ({ d.setInode d.next ⟨[], now⟩ with next := d.next + 1 }, d.next)

end Disk

/-! ## The cache -/

/-- `File`, as far as it is read again: the `stat` data and the `bufsize` bytes of the buffer. -/
structure Cached where
  st : Stat
  buf : Bytes
  deriving DecidableEq

/-- `Ns_Cache`: the entry of each key, and the value of each entry (`none` is `NULL`). No entry has
two keys. -/
structure Cache where
  entry : Bytes → Option Nat
  value : Nat → Option Cached
  next : Nat
  below : ∀ {key id}, entry key = some id → id < next
  one : ∀ {key key' id}, entry key = some id → entry key' = some id → key = key'

namespace Cache

variable (c : Cache)

/-- An empty cache. -/
def empty : Cache := ⟨fun _ => none, fun _ => none, 0, by simp, by simp⟩

/-- `Ns_CacheSetValueSz`, and `Ns_CacheUnsetValue` for `none`. -/
def setValue (id : Nat) (f : Option Cached) : Cache :=
  { c with value := fun i => if i = id then f else c.value i }

/-- `Ns_CacheDeleteEntry` and `Ns_CacheFlushEntry`, and also what the cache does with an entry for
which there is no room any more. -/
def delete (id : Nat) : Cache where
  entry k := if c.entry k = some id then none else c.entry k
  value := c.value
  next := c.next
  below {key i} h := by
    split_ifs at h
    exact c.below h
  one {key key' i} h h' := by
    split_ifs at h
    split_ifs at h'
    exact c.one h h'

/-- `Ns_CacheCreateEntry` for a key without an entry. -/
def create (key : Bytes) : Cache where
  entry k := if k = key then some c.next else c.entry k
  value i := if i = c.next then none else c.value i
  next := c.next + 1
  below {k i} h := by
    split_ifs at h
    · simp at h; omega
    · exact Nat.lt_succ_of_lt (c.below h)
  one {k k' i} h h' := by
    split_ifs at h with hk <;> split_ifs at h' with hk'
    · rw [hk, hk']
    · have := c.below h'
      simp at h
      omega
    · have := c.below h
      simp at h'
      omega
    · exact c.one h h'

end Cache

/-- What the first look into the cache finds: a value that is still good, an entry to fill, or an
entry another thread is filling. -/
inductive Looked where
  | hit (f : Cached)
  | fill (id : Nat)
  | wait

/-- The first section of `NfsReadFile` under the lock of the cache. A value whose `stat` data
differ from those of the file is unset. -/
def lookup (c : Cache) (key : Bytes) (st : Stat) : Cache × Looked :=
  match c.entry key with
  | none => (c.create key, .fill c.next)
  | some id =>
      match c.value id with
      | none => (c, .wait)
      | some f => if f.st = st then (c, .hit f) else (c.setValue id none, .fill id)

/-- What is kept of the bytes read: all but one newline at the end. -/
def strip (bs : Bytes) : Bytes := if bs.getLast? = some 10 then bs.dropLast else bs

/-- The second section: the value is stored, or the entry deleted when there is none. -/
def store (c : Cache) (id : Nat) (f : Option Cached) : Cache :=
  match f with
  | some f => c.setValue id (some f)
  | none => c.delete id

/-- `NfsFlush`, without the message to the network. -/
def nfsFlush (c : Cache) (key : Bytes) : Cache :=
  match c.entry key with
  | none => c
  | some id => c.delete id

/-! ## The server -/

/-- `Nfs`: the root and the flags of a server, with the path functions of AOLserver. -/
structure Config where
  root : Bytes
  readonly : Bool
  mkdirs : Bool
  rename : Bool
  normalizePath : Bytes → Bytes
  makePath : Bytes → Bytes → Bytes

/-- A server at work. -/
structure Server where
  disk : Disk
  cache : Cache

variable (cfg : Config) (tcl : TclList)

/-- `NfsPath`. -/
def nfsPath (file : Bytes) : Bytes := cfg.makePath cfg.root (cfg.normalizePath file)

/-- `NfsReadFile`, when no other thread is at work: its loop needs one turn then. -/
def nfsReadFile (s : Server) (file : Bytes) : Server × Except Int Bytes :=
  match s.disk.statFile (nfsPath cfg file) with
  | .error err => (s, .error err)
  | .ok st =>
      match lookup s.cache file st with
      | (c, .hit f) => ({ s with cache := c }, .ok f.buf)
      | (c, .wait) => ({ s with cache := c }, .error eagain)
      | (c, .fill id) =>
          match s.disk.fileAt (nfsPath cfg file) with
          | none => ({ s with cache := store c id none }, .error enoent)
          | some f =>
              let value := ⟨st, strip f.content⟩
              ({ s with cache := store c id (some value) }, .ok value.buf)

/-- How the file of a write is opened. -/
inductive WriteMode where
  | append | rename | trunc
  deriving DecidableEq, Repr

/-- The flags `NfsWriteFile3` opens the file with. -/
def Config.mode (append : Bool) : WriteMode :=
  if append then .append else if cfg.rename then .rename else .trunc

/-- `open` for a write: the inode it gives. A temporary file has a name no key leads to. -/
def openWrite (d : Disk) (mode : WriteMode) (path : Bytes) (now : Int) : Option (Disk × Nat) :=
  match mode, d.names path with
  | .rename, _ => some (d.create now)
  | _, none => let r := d.create now; some (r.1.setName path (some (.file r.2)), r.2)
  | .trunc, some (.file i) => some (d.setInode i ⟨[], now⟩, i)
  | .append, some (.file i) => some (d, i)
  | _, _ => none

/-- The bytes `writev` is given: with `nl`, a newline is added behind data that has none. -/
def payload (nl : Bool) (bytes : Bytes) : Bytes :=
  if nl && !bytes.isEmpty && bytes.getLast? ≠ some 10 then bytes ++ [10] else bytes

/-- `writev`: behind what is there for an append, else from the start of the file. -/
def writeBytes (d : Disk) (mode : WriteMode) (i : Nat) (bs : Bytes) (now : Int) : Disk :=
  if bs = [] then d
  else
    let old := (d.inodes i).content
    d.setInode i ⟨if mode = .append then old ++ bs else bs ++ old.drop bs.length, now⟩

/-- The `errno` of a call that failed. -/
abbrev Errno := { e : Int // 0 < e }

/-- The system calls of a write that may fail: an `errno` for each that does. `short` is the
count of a `writev` that wrote less than it was given. -/
structure WriteIo where
  mkdirs : Bool := true
  uuid : Bool := true
  opened : Option Errno := none
  short : Option (Nat × Errno) := none
  renamed : Bool := true

/-- `RPC_ERROR`. -/
def rpcError : Int := -3

/-- `NfsWriteFile3` without its flush. The status is 0 on success. -/
def writeDisk (d : Disk) (key bytes : Bytes) (nl append : Bool) (io : WriteIo) (now : Int) :
    Disk × Int :=
  let mode := cfg.mode append
  let path := nfsPath cfg key
  if (cfg.mkdirs && !io.mkdirs) || (mode = .rename && !io.uuid) then (d, rpcError)
  else
    match io.opened, openWrite d mode path now with
    | some errno, _ => (d, errno)
    | none, none => (d, eisdir)
    | none, some (d, i) =>
        match io.short with
        | some (n, errno) =>
            (writeBytes d mode i ((payload nl bytes).take n) now, errno)
        | none =>
            let d := writeBytes d mode i (payload nl bytes) now
            if mode = .rename then
              if io.renamed then (d.setName path (some (.file i)), 0) else (d, -1)
            else (d, 0)

/-- `NfsWriteFile3`. -/
def nfsWriteFile3 (s : Server) (key bytes : Bytes) (nl append : Bool) (io : WriteIo) (now : Int) :
    Server × Int :=
  let r := writeDisk cfg s.disk key bytes nl append io now
  ({ disk := r.1, cache := if r.2 = 0 then nfsFlush s.cache key else s.cache }, r.2)

/-- `NfsWriteFile2`. -/
def nfsWriteFile2 (s : Server) (file bytes : Bytes) (io : WriteIo) (now : Int) : Server × Int :=
  nfsWriteFile3 cfg s file bytes true false io now

/-- `NfsWriteFile`: key and data are the elements of a list. -/
def nfsWriteFile (s : Server) (ds : Bytes) (io : WriteIo) (now : Int) : Server × Int :=
  match tcl.splitList (cstr ds) with
  | some [key, data] => nfsWriteFile2 cfg s key data io now
  | _ => (s, rpcError)

/-- `NfsAppendFile`. -/
def nfsAppendFile (s : Server) (ds : Bytes) (io : WriteIo) (now : Int) : Server × Int :=
  match tcl.splitList (cstr ds) with
  | some [key, data] => nfsWriteFile3 cfg s key data true true io now
  | _ => (s, rpcError)

/-- The two lengths in front of a copy request. -/
def copyLengths (ds : Bytes) : Int × Int :=
  (int32 (ofBe32 (ds.take 4)), int32 (ofBe32 ((ds.drop 4).take 4)))

/-- `NfsCopyFile`: the lengths of key and data stand in front. -/
def nfsCopyFile (s : Server) (ds : Bytes) (io : WriteIo) (now : Int) : Server × Int :=
  let namelen := (copyLengths ds).1
  let datalen := (copyLengths ds).2
  if int32 (namelen + datalen + 8) = ds.length then
    let p := ds.drop 8
    nfsWriteFile3 cfg s (cstr (p.take namelen.toNat)) ((p.drop namelen.toNat).take datalen.toNat)
      false false io now
  else (s, rpcError)

/-- `NfsUnlinkFile`. `failed` is the `errno` of an `unlink` that fails though the file is there. -/
def nfsUnlinkFile (s : Server) (ds : Bytes) (failed : Option Errno) : Server × Int :=
  let file := cstr ds
  let path := nfsPath cfg file
  match s.disk.names path, failed with
  | none, _ => (s, enoent)
  | some _, some errno => (s, errno)
  | some .dir, none => (s, eisdir)
  | some _, none => ({ disk := s.disk.setName path none, cache := nfsFlush s.cache file }, 0)

/-- The commands of a server, but for those of comment boards. -/
inductive Command where
  | read | put | unlink | copy | append
  deriving DecidableEq, Repr

/-- The `switch` of `NfsProc` over the commands that modify files. -/
def nfsModify (s : Server) (cmd : Command) (ds : Bytes) (io : WriteIo) (failed : Option Errno)
    (now : Int) : Server × Int :=
  match cmd with
  | .put => nfsWriteFile cfg tcl s ds io now
  | .append => nfsAppendFile cfg tcl s ds io now
  | .copy => nfsCopyFile cfg s ds io now
  | .unlink => nfsUnlinkFile cfg s ds failed
  | .read => (s, -1)

/-- `NfsProc`: the status and the output. -/
def nfsProc (s : Server) (cmd : Command) (ds : Bytes) (io : WriteIo) (failed : Option Errno)
    (now : Int) : Server × Int × Bytes :=
  if cmd = .read then
    match nfsReadFile cfg s (cstr ds) with
    | (s, .ok bs) => (s, 0, bs)
    | (s, .error err) => (s, if err = enoent then 0 else -1, [])
  else if cfg.readonly then (s, -1, [])
  else
    let r := nfsModify cfg tcl s cmd ds io failed now
    (r.1, r.2, [])

end Nsdci.Nfs
