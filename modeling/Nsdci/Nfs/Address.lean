import Nsdci.Nfs

/-!
# Keys and files

The commands of `sob.c` write the key of an object in three ways: as an element of a list, behind
two lengths, and as it is. Each handler of the server has its own way to read it, and the handler
of deletes reads it as it is where `SobDeleteCmd` writes an element. So all handlers act on one
file exactly if the element leads to the file of the key.
-/

namespace Nsdci.Nfs

open Lib

/-- The request a command of `sob.c` sends. -/
def request (tcl : TclList) (cmd : Command) (key data : Bytes) : Bytes :=
  match cmd with
  | .read => key
  | .unlink => [key].foldl tcl.appendElement []
  | .put | .append => [key, data].foldl tcl.appendElement []
  | .copy => be32 key.length ++ be32 data.length ++ key ++ data

variable (cfg : Config) (tcl : TclList)

/-- The key a handler finds in a request. -/
def keyOf (cmd : Command) (ds : Bytes) : Option Bytes :=
  match cmd with
  | .read | .unlink => some (cstr ds)
  | .put | .append =>
      match tcl.splitList (cstr ds) with
      | some [key, _] => some key
      | _ => none
  | .copy =>
      let namelen := (copyLengths ds).1
      let datalen := (copyLengths ds).2
      if int32 (namelen + datalen + 8) = ds.length then
        some (cstr ((ds.drop 8).take namelen.toNat))
      else none

/-- The file a handler acts on. -/
def fileOf (cmd : Command) (ds : Bytes) : Option Bytes := (keyOf tcl cmd ds).map (nfsPath cfg)

variable {cfg tcl}

@[simp] theorem Disk.names_setInode (d : Disk) (i : Nat) (f : Inode) :
    (d.setInode i f).names = d.names := rfl

@[simp] theorem names_writeBytes (d : Disk) (mode : WriteMode) (i : Nat) (bs : Bytes) (now : Int) :
    (writeBytes d mode i bs now).names = d.names := by
  unfold writeBytes
  split_ifs <;> rfl

theorem Disk.names_setName_ne (d : Disk) {path p : Bytes} (n : Option Node) (h : p ≠ path) :
    (d.setName path n).names p = d.names p := if_neg h

/-- Opening a file for a write touches no other name. -/
theorem names_openWrite {d d' : Disk} {mode : WriteMode} {path p : Bytes} {now : Int} {i : Nat}
    (h : openWrite d mode path now = some (d', i)) (hp : p ≠ path) : d'.names p = d.names p := by
  unfold openWrite at h
  split at h
  · obtain ⟨rfl, -⟩ : (d.create now).1 = d' ∧ _ := by simpa [Prod.ext_iff] using h
    rfl
  · obtain ⟨rfl, -⟩ : ((d.create now).1.setName path (some (.file (d.create now).2))) = d' ∧ _ := by
      simpa [Prod.ext_iff] using h
    exact Disk.names_setName_ne _ _ hp
  · obtain ⟨rfl, -⟩ : d.setInode _ _ = d' ∧ _ := by simpa [Prod.ext_iff] using h
    rfl
  · obtain ⟨rfl, -⟩ : d = d' ∧ _ := by simpa [Prod.ext_iff] using h
    rfl
  · exact absurd h (by simp)

/-- A write touches no other name. -/
theorem names_writeDisk (d : Disk) (key bytes : Bytes) (nl append : Bool) (io : WriteIo)
    (now : Int) {p : Bytes} (hp : p ≠ nfsPath cfg key) :
    (writeDisk cfg d key bytes nl append io now).1.names p = d.names p := by
  unfold writeDisk
  dsimp only
  split
  · rfl
  · split
    · rfl
    · rfl
    · rename_i d' i _ hopen
      have hnames := names_openWrite hopen hp
      split
      · simpa using hnames
      · split
        · split
          · show (Disk.setName _ _ _).names p = _
            rw [Disk.names_setName_ne _ _ hp]
            simpa using hnames
          · simpa using hnames
        · simpa using hnames

/-- A read touches no file. -/
theorem disk_nfsReadFile (cfg : Config) (s : Server) (file : Bytes) :
    (nfsReadFile cfg s file).1.disk = s.disk := by
  unfold nfsReadFile
  split
  · rfl
  · split
    · rfl
    · rfl
    · split <;> rfl

/-- Neither does a write that finds its key touch another name. -/
theorem names_nfsWriteFile3 (s : Server) (key bytes : Bytes) (nl append : Bool) (io : WriteIo)
    (now : Int) {p : Bytes} (hp : p ≠ nfsPath cfg key) :
    (nfsWriteFile3 cfg s key bytes nl append io now).1.disk.names p = s.disk.names p :=
  names_writeDisk s.disk key bytes nl append io now hp

/-- The two lengths of a copy request add up. -/
def CopyFits (ds : Bytes) : Prop :=
  int32 ((copyLengths ds).1 + (copyLengths ds).2 + 8) = ds.length

theorem keyOf_copy_of_fits {ds : Bytes} (h : CopyFits ds) :
    keyOf tcl .copy ds = some (cstr ((ds.drop 8).take (copyLengths ds).1.toNat)) := by
  rw [keyOf]
  exact if_pos h

theorem nfsCopyFile_of_fits (s : Server) {ds : Bytes} (io : WriteIo) (now : Int)
    (h : CopyFits ds) : nfsCopyFile cfg s ds io now =
      nfsWriteFile3 cfg s (cstr ((ds.drop 8).take (copyLengths ds).1.toNat))
        (((ds.drop 8).drop (copyLengths ds).1.toNat).take (copyLengths ds).2.toNat)
        false false io now := by
  rw [nfsCopyFile]
  exact if_pos h

theorem nfsCopyFile_of_not_fits (s : Server) {ds : Bytes} (io : WriteIo) (now : Int)
    (h : ¬ CopyFits ds) : nfsCopyFile cfg s ds io now = (s, rpcError) := by
  rw [nfsCopyFile]
  exact if_neg h

theorem names_nfsCopyFile (s : Server) (ds : Bytes) (io : WriteIo) (now : Int) {p : Bytes}
    (hp : ∀ key, keyOf tcl .copy ds = some key → p ≠ nfsPath cfg key) :
    (nfsCopyFile cfg s ds io now).1.disk.names p = s.disk.names p := by
  by_cases hfits : CopyFits ds
  · rw [nfsCopyFile_of_fits s io now hfits]
    exact names_nfsWriteFile3 _ _ _ _ _ _ _ (hp _ (keyOf_copy_of_fits hfits))
  · rw [nfsCopyFile_of_not_fits s io now hfits]

theorem names_nfsUnlinkFile (s : Server) (ds : Bytes) (failed : Option Errno) {p : Bytes}
    (hp : p ≠ nfsPath cfg (cstr ds)) :
    (nfsUnlinkFile cfg s ds failed).1.disk.names p = s.disk.names p := by
  unfold nfsUnlinkFile
  dsimp only
  split
  · rfl
  · rfl
  · rfl
  · exact Disk.names_setName_ne _ _ hp

/-- **A handler changes what the file of its request is, and no other.** -/
theorem nfsModify_frame (s : Server) (cmd : Command) (ds : Bytes) (io : WriteIo)
    (failed : Option Errno) (now : Int) {p : Bytes} (hp : fileOf cfg tcl cmd ds ≠ some p) :
    (nfsModify cfg tcl s cmd ds io failed now).1.disk.names p = s.disk.names p := by
  have hne : ∀ key, keyOf tcl cmd ds = some key → p ≠ nfsPath cfg key := by
    rintro key hkey rfl
    exact hp (by rw [fileOf, hkey]; rfl)
  cases cmd with
  | read => rfl
  | put =>
      show (nfsWriteFile cfg tcl s ds io now).1.disk.names p = _
      unfold nfsWriteFile
      split
      · rename_i key data hsplit
        exact names_nfsWriteFile3 _ _ _ _ _ _ _ (hne key (by simp [keyOf, hsplit]))
      · rfl
  | append =>
      show (nfsAppendFile cfg tcl s ds io now).1.disk.names p = _
      unfold nfsAppendFile
      split
      · rename_i key data hsplit
        exact names_nfsWriteFile3 _ _ _ _ _ _ _ (hne key (by simp [keyOf, hsplit]))
      · rfl
  | copy =>
      rw [nfsModify]
      exact names_nfsCopyFile s ds io now hne
  | unlink => exact names_nfsUnlinkFile s ds failed (hne _ rfl)

/-! ## The key in each request -/

theorem cstr_of_free {s : Bytes} (hs : NulFree s) : cstr s = s := by
  simpa [cstr] using cstr_append hs []

/-- A request of list elements has no NUL. -/
theorem free_foldl (tcl : TclList) {es : List Bytes} (hes : ∀ e ∈ es, NulFree e) {ds : Bytes}
    (hds : NulFree ds) :
    NulFree (es.foldl tcl.appendElement ds) := by
  induction es generalizing ds with
  | nil => exact hds
  | cons e es ih =>
      have he := tcl.element_free e (hes e (by simp))
      refine ih (fun e' he' => hes e' (List.mem_cons_of_mem _ he')) ?_
      unfold TclList.appendElement
      split_ifs
      · exact he
      · unfold NulFree at *
        simp [hds, he]

/-- Put and append find the key. -/
theorem keyOf_list (key data : CStr) :
    keyOf tcl .put (request tcl .put key data) = some key.1 ∧
      keyOf tcl .append (request tcl .append key data) = some key.1 := by
  have hes : ∀ e ∈ [key.1, data.1], NulFree e := by
    intro e he
    rcases List.mem_pair.mp he with rfl | rfl
    · exact key.2
    · exact data.2
  have hfree : NulFree ([key.1, data.1].foldl tcl.appendElement []) :=
    free_foldl tcl hes (show NulFree [] by simp [NulFree])
  have hsplit := tcl.splitList_foldl hes TclList.white_nil
  rw [List.append_nil] at hsplit
  have hcstr := cstr_of_free hfree
  constructor <;> simp only [keyOf, request, hcstr, hsplit]

/-- The lengths in front of a copy request are read back. -/
theorem copyLengths_request (key : CStr) (data : Bytes)
    (h : key.1.length + data.length + 8 < 2 ^ 31) :
    copyLengths (request tcl .copy key data) = ((key.1.length : Int), (data.length : Int)) := by
  have hk : int32 (ofBe32 (be32 key.1.length)) = key.1.length := by
    rw [int32_ofBe32_be32]
    exact int32_natCast_eq_iff.mpr (by omega)
  have hd : int32 (ofBe32 (be32 data.length)) = data.length := by
    rw [int32_ofBe32_be32]
    exact int32_natCast_eq_iff.mpr (by omega)
  have hfirst : (request tcl .copy key data).take 4 = be32 key.1.length := by
    rw [request, List.append_assoc, List.append_assoc, List.take_left' (length_be32 _)]
  have hsecond : ((request tcl .copy key data).drop 4).take 4 = be32 data.length := by
    rw [request, List.append_assoc, List.append_assoc, List.drop_left' (length_be32 _),
      List.take_left' (length_be32 _)]
  rw [copyLengths, hfirst, hsecond, hk, hd]

/-- The lengths of a copy request add up. -/
theorem fits_request (key : CStr) (data : Bytes) (h : key.1.length + data.length + 8 < 2 ^ 31) :
    CopyFits (request tcl .copy key data) := by
  have hlen : (request tcl .copy key data).length = 8 + key.1.length + data.length := by
    simp [request]
    omega
  unfold CopyFits
  rw [copyLengths_request key data h, hlen, show (key.1.length : Int) + data.length + 8 =
    ((8 + key.1.length + data.length : Nat) : Int) by push_cast; omega]
  exact int32_natCast_eq_iff.mpr (by omega)

/-- Key and data stand behind the lengths. -/
theorem drop_request (key : CStr) (data : Bytes) :
    (request tcl .copy key data).drop 8 = key.1 ++ data := by
  have hheader : (be32 key.1.length ++ be32 data.length).length = 8 := by simp
  rw [request, List.append_assoc (be32 _ ++ be32 _), List.drop_left' hheader]

/-- A copy finds the key. -/
theorem keyOf_copy (key : CStr) (data : Bytes) (h : key.1.length + data.length + 8 < 2 ^ 31) :
    keyOf tcl .copy (request tcl .copy key data) = some key.1 := by
  rw [keyOf_copy_of_fits (fits_request key data h), copyLengths_request key data h, drop_request,
    Int.toNat_natCast, List.take_left, cstr_of_free key.2]

/-- A put request is a write of the data under the key. -/
theorem nfsWriteFile_request (s : Server) (key data : CStr) (io : WriteIo) (now : Int) :
    nfsWriteFile cfg tcl s (request tcl .put key data) io now =
      nfsWriteFile3 cfg s key data true false io now := by
  have hes : ∀ e ∈ [key.1, data.1], NulFree e := by
    intro e he
    rcases List.mem_pair.mp he with rfl | rfl
    · exact key.2
    · exact data.2
  have hsplit := tcl.splitList_foldl hes TclList.white_nil
  rw [List.append_nil] at hsplit
  have hcstr := cstr_of_free (free_foldl tcl hes (show NulFree [] by simp [NulFree]))
  rw [nfsWriteFile, request, hcstr, hsplit]
  rfl

/-- A copy request is a write of the data as they are. -/
theorem nfsCopyFile_request (s : Server) (key : CStr) (data : Bytes) (io : WriteIo) (now : Int)
    (h : key.1.length + data.length + 8 < 2 ^ 31) :
    nfsCopyFile cfg s (request tcl .copy key data) io now =
      nfsWriteFile3 cfg s key data false false io now := by
  rw [nfsCopyFile_of_fits s io now (fits_request key data h), copyLengths_request key data h,
    drop_request, Int.toNat_natCast, Int.toNat_natCast, List.take_left, List.drop_left,
    List.take_length, cstr_of_free key.2]

/-- A read finds the key; a delete finds the element. -/
theorem keyOf_raw (tcl : TclList) (key : CStr) (data : Bytes) :
    keyOf tcl .read (request tcl .read key data) = some key.1 ∧
      keyOf tcl .unlink (request tcl .unlink key data) = some (tcl.element key.1) := by
  have hfree := tcl.element_free key.1 key.2
  constructor
  · simp [keyOf, request, cstr_of_free key.2]
  · simp [keyOf, request, TclList.appendElement, cstr_of_free hfree]

variable (cfg tcl)

/-- All handlers act on the file of the key, and a delete that succeeds removes it. The request of
a copy is a string, so its length is an `int`. -/
structure Addresses (key : CStr) : Prop where
  put : ∀ data : CStr, fileOf cfg tcl .put (request tcl .put key data) = some (nfsPath cfg key)
  append : ∀ data : CStr,
    fileOf cfg tcl .append (request tcl .append key data) = some (nfsPath cfg key)
  copy : ∀ data : Bytes, key.1.length + data.length + 8 < 2 ^ 31 →
    fileOf cfg tcl .copy (request tcl .copy key data) = some (nfsPath cfg key)
  read : fileOf cfg tcl .read (request tcl .read key []) = some (nfsPath cfg key)
  unlink : fileOf cfg tcl .unlink (request tcl .unlink key []) = some (nfsPath cfg key)
  removes : ∀ s io failed now,
    let r := nfsProc cfg tcl s .unlink (request tcl .unlink key []) io failed now
    r.2.1 = 0 → r.1.disk.names (nfsPath cfg key) = none

/-- A delete that succeeds removes the file it acts on. -/
theorem names_unlinked (s : Server) (ds : Bytes) (io : WriteIo) (failed : Option Errno) (now : Int)
    (h : (nfsProc cfg tcl s .unlink ds io failed now).2.1 = 0) :
    (nfsProc cfg tcl s .unlink ds io failed now).1.disk.names (nfsPath cfg (cstr ds)) = none := by
  have hne : Command.unlink ≠ .read := by decide
  simp only [nfsProc, if_neg hne] at h ⊢
  split_ifs at h ⊢ with hro
  · exact absurd (show (-1 : Int) = 0 from h) (by decide)
  have hmodify : nfsModify cfg tcl s .unlink ds io failed now = nfsUnlinkFile cfg s ds failed := rfl
  rw [hmodify] at h ⊢
  cases hnode : s.disk.names (nfsPath cfg (cstr ds)) with
  | none => exact absurd h (by simp [nfsUnlinkFile, hnode, enoent])
  | some node =>
      cases failed with
      | some errno =>
          have hzero : errno.1 = 0 := by simpa [nfsUnlinkFile, hnode] using h
          exact absurd hzero (Int.ne_of_gt errno.2)
      | none =>
          cases node with
          | dir => exact absurd h (by simp [nfsUnlinkFile, hnode, eisdir])
          | special => simp [nfsUnlinkFile, hnode, Disk.setName]
          | file i => simp [nfsUnlinkFile, hnode, Disk.setName]

/-- **All handlers act on one file exactly if the list element of the key leads to the file of the
key.** -/
theorem key_addressing_iff (key : CStr) :
    Addresses cfg tcl key ↔ nfsPath cfg (tcl.element key) = nfsPath cfg key := by
  obtain ⟨hread, hunlink⟩ := keyOf_raw tcl key []
  constructor
  · intro h
    simpa [fileOf, hunlink] using h.unlink
  · intro h
    refine ⟨?_, ?_, ?_, ?_, ?_, ?_⟩
    · intro data
      simp [fileOf, (keyOf_list key data).1]
    · intro data
      simp [fileOf, (keyOf_list key data).2]
    · intro data hdata
      simp [fileOf, keyOf_copy key data hdata]
    · simp [fileOf, hread]
    · simp [fileOf, hunlink, h]
    · intro s io failed now r hr
      have hnone := names_unlinked cfg tcl s _ io failed now hr
      have hcstr : cstr (request tcl .unlink key []) = tcl.element key.1 := by
        simpa [keyOf] using hunlink
      rwa [hcstr, h] at hnone

/-- A server with its root at `/nfs`. -/
def plainServer : Config where
  root := ascii "/nfs"
  readonly := false
  mkdirs := false
  rename := true
  normalizePath file := 47 :: file
  makePath root norm := root ++ norm

/-- A key with a blank in it. -/
def blankKey : CStr := ⟨ascii "a b", by decide⟩

/-- The object `a b` is stored in the file `/nfs/a b`; a delete looks for `/nfs/{a b}`. -/
theorem key_blank_undeleted : ¬ Addresses plainServer TclList.simple blankKey := by
  intro h
  have hsame := h.unlink
  revert hsame
  decide

end Nsdci.Nfs
