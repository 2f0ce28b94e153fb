import Nsdci.Nfs.Address

/-!
# The object store: a client and a server

A client (`sob.c`) with its cache in front of a server (`nfs.c`) with its own. `sobGetFile`,
`sobPut` and `sobCopy` are the commands of one client with no other writer, one after the other;
RPC takes requests and responses as they are. The question is what `nsob.get` gives back after a
write: the server adds a newline to data that ends without one, and drops one when it reads.
-/

namespace Nsdci.Store

open Lib Nfs

/-- `Sob`: a client with its cache, if it has one, and `flushOnWrite`. -/
structure Client where
  cache : Option (Bytes → Option Bytes)
  flushOnWrite : Bool

/-- A client and its server. -/
structure World where
  client : Client
  server : Server

/-- What the client's cache has for a key. -/
def World.cached (w : World) (key : Bytes) : Option Bytes := w.client.cache.bind (· key)

/-- `SobFlush`. -/
def sobFlush (c : Client) (key : Bytes) : Client :=
  { c with cache := c.cache.map fun cache k => if k = key then none else cache k }

/-- A value is set in the client's cache. -/
def Client.fill (c : Client) (key data : Bytes) : Client :=
  { c with cache := c.cache.map fun cache k => if k = key then some data else cache k }

variable (cfg : Config) (tcl : TclList)

/-- `SobGetFile` for `nsob.get`: the data, or nothing when the request fails. -/
def sobGetFile (w : World) (key : Bytes) : World × Option Bytes :=
  match w.cached key with
  | some data => (w, some data)
  | none =>
      let r := nfsProc cfg tcl w.server .read (request tcl .read key []) {} none 0
      if r.2.1 = 0 then
        (⟨w.client.fill key (cstr r.2.2), r.1⟩, some (cstr r.2.2))
      else (⟨sobFlush w.client key, r.1⟩, none)

/-- The commands that store a whole object. -/
inductive WriteCmd where
  | put | copy
  deriving DecidableEq, Repr

/-- `SobPutCmd` and `SobCopyCmd`, once the request is on its way: the world after the command, and
whether the server did it. Only a put flushes the client's cache. -/
def sobWrite (w : World) (cmd : WriteCmd) (key data : Bytes) (io : WriteIo) (now : Int) :
    World × Bool :=
  match cmd with
  | .put =>
      let r := nfsProc cfg tcl w.server .put (request tcl .put key data) io none now
      (⟨if w.client.flushOnWrite then sobFlush w.client key else w.client, r.1⟩, r.2.1 = 0)
  | .copy =>
      let r := nfsProc cfg tcl w.server .copy (request tcl .copy key data) io none now
      (⟨w.client, r.1⟩, r.2.1 = 0)

/-- What happens after a write: gets of any key, and entries that leave one of the caches. -/
inductive Later where
  | get (key : CStr)
  | dropClient (key : CStr)
  | dropServer (key : CStr)

/-- One of these, with the key and the result of a get. -/
def World.later (w : World) : Later → World × List (Bytes × Option Bytes)
  | .get key => let r := sobGetFile cfg tcl w key; (r.1, [(key.1, r.2)])
  | .dropClient key => ({ w with client := sobFlush w.client key }, [])
  | .dropServer key =>
      ({ w with server := { w.server with cache := nfsFlush w.server.cache key } }, [])

/-- The gets of a run, each with its result. -/
def gets : World → List Later → List (Bytes × Option Bytes)
  | _, [] => []
  | w, e :: es => (w.later cfg tcl e).2 ++ gets (w.later cfg tcl e).1 es

/-- Every get of the key gives the data, whatever serves it. -/
def RoundTrip (w : World) (key data : Bytes) : Prop :=
  ∀ es, ∀ r ∈ gets cfg tcl w es, r.1 = key → r.2 = some data

variable {cfg tcl}

/-! ## The newline -/

/-- Data comes back as it was exactly if it does not end in a newline. -/
theorem strip_payload_iff (nl : Bool) (data : Bytes) :
    strip (payload nl data) = data ↔ data.getLast? ≠ some 10 := by
  by_cases hlast : data.getLast? = some 10
  · have hpay : payload nl data = data := by simp [payload, hlast]
    have hne : data ≠ [] := by rintro rfl; simp at hlast
    rw [hpay, strip, if_pos hlast]
    constructor
    · intro h
      have hlen := congrArg List.length h
      have hpos := List.length_pos_iff.mpr hne
      rw [List.length_dropLast] at hlen
      omega
    · exact fun h => absurd hlast h
  · simp only [ne_eq, hlast, not_false_eq_true, iff_true]
    unfold payload
    split_ifs with hnl
    · simp [strip]
    · rw [strip, if_neg hlast]

/-- What is kept has no NUL if the data has none. -/
theorem free_strip_payload {data : Bytes} (hdata : NulFree data) (nl : Bool) :
    NulFree (strip (payload nl data)) := by
  have hpay : NulFree (payload nl data) := by
    unfold payload NulFree at *
    split_ifs
    · simpa using hdata
    · exact hdata
  unfold strip NulFree at *
  split_ifs
  · exact fun h => hpay (List.dropLast_subset _ h)
  · exact hpay

/-! ## A write -/

@[simp] theorem Disk.fileAt_setName (d : Disk) (path : Bytes) (i : Nat) :
    (d.setName path (some (.file i))).fileAt path = some (d.inodes i) := by
  simp [Disk.fileAt, Disk.setName]

/-- The file written to is empty before `writev`. -/
theorem openWrite_content {d d' : Disk} {mode : WriteMode} {path : Bytes} {now : Int} {i : Nat}
    (hmode : mode ≠ .append) (h : openWrite d mode path now = some (d', i)) :
    (d'.inodes i).content = [] ∧ (mode = .trunc → d'.names path = some (.file i)) := by
  unfold openWrite at h
  split at h
  · obtain ⟨rfl, rfl⟩ : (d.create now).1 = d' ∧ (d.create now).2 = i := by
      simpa [Prod.ext_iff] using h
    simp [Disk.create, Disk.setInode]
  · obtain ⟨rfl, rfl⟩ : ((d.create now).1.setName path (some (.file (d.create now).2))) = d' ∧
        (d.create now).2 = i := by
      simpa [Prod.ext_iff] using h
    simp [Disk.create, Disk.setInode, Disk.setName]
  · rename_i j hnames
    obtain ⟨rfl, rfl⟩ : d.setInode j ⟨[], now⟩ = d' ∧ j = i := by simpa [Prod.ext_iff] using h
    simp [Disk.setInode, hnames]
  · exact absurd rfl hmode
  · exact absurd h (by simp)

/-- The content after `writev` into an empty file. -/
theorem content_writeBytes {d : Disk} {mode : WriteMode} {i : Nat} (bs : Bytes) (now : Int)
    (hmode : mode ≠ .append) (h : (d.inodes i).content = []) :
    ((writeBytes d mode i bs now).inodes i).content = bs := by
  unfold writeBytes
  split_ifs with hbs
  · rw [h, hbs]
  · simp [Disk.setInode, h]

/-- **A write that succeeds leaves the payload in the file of the key.** -/
theorem writeDisk_content {d : Disk} {key bytes : Bytes} {nl : Bool} {io : WriteIo} {now : Int}
    (h : (writeDisk cfg d key bytes nl false io now).2 = 0) :
    ∃ f, (writeDisk cfg d key bytes nl false io now).1.fileAt (nfsPath cfg key) = some f ∧
      f.content = payload nl bytes := by
  have hmode : cfg.mode false ≠ .append := by
    unfold Config.mode
    cases cfg.rename <;> simp
  unfold writeDisk at h ⊢
  dsimp only at h ⊢
  by_cases hfirst :
      (cfg.mkdirs && !io.mkdirs || decide (cfg.mode false = .rename) && !io.uuid) = true
  · simp [hfirst, rpcError] at h
  simp only [if_neg hfirst] at h ⊢
  cases hopened : io.opened with
  | some errno =>
      simp only [hopened] at h
      exact absurd h (Int.ne_of_gt errno.2)
  | none =>
      cases hopen : openWrite d (cfg.mode false) (nfsPath cfg key) now with
      | none => simp [hopened, hopen, eisdir] at h
      | some r =>
          obtain ⟨d', i⟩ := r
          obtain ⟨hempty, hname⟩ := openWrite_content hmode hopen
          have hcontent := content_writeBytes (payload nl bytes) now hmode hempty
          simp only [hopened, hopen] at h ⊢
          cases hshort : io.short with
          | some short =>
              simp only [hshort] at h
              exact absurd h (Int.ne_of_gt short.2.2)
          | none =>
              simp only [hshort] at h ⊢
              by_cases hren : cfg.mode false = .rename
              · simp only [if_pos hren] at h ⊢
                cases hrenamed : io.renamed with
                | false => simp [hrenamed] at h
                | true => exact ⟨_, Disk.fileAt_setName _ _ _, hcontent⟩
              · simp only [if_neg hren] at h ⊢
                have htrunc : cfg.mode false = .trunc := by
                  cases hm : cfg.mode false with
                  | append => exact absurd hm hmode
                  | rename => exact absurd hm hren
                  | trunc => rfl
                refine ⟨_, ?_, hcontent⟩
                rw [Disk.fileAt, names_writeBytes, hname htrunc]

/-! ## What the caches may hold -/

/-- The server's entry for the key, if there is one, has the value whenever it is still good. -/
def Good (c : Cache) (key : Bytes) (st : Stat) (v : Bytes) : Prop :=
  ∀ id, c.entry key = some id → ∃ f, c.value id = some f ∧ (f.st = st → f.buf = v)

/-- The object is stored with the value `v`. -/
structure Stored (cfg : Config) (w : World) (key v : Bytes) : Prop where
  file : ∃ f, w.server.disk.fileAt (nfsPath cfg key) = some f ∧ strip f.content = v ∧
    Good w.server.cache key f.stat v
  client : ∀ data, w.cached key = some data → data = v

theorem good_nfsFlush {c : Cache} {key : Bytes} {st : Stat} {v : Bytes} (h : Good c key st v)
    (k : Bytes) : Good (nfsFlush c k) key st v := by
  intro id hid
  unfold nfsFlush at hid ⊢
  split at hid
  · exact h id hid
  · rename_i id' _
    simp only [Cache.delete] at hid ⊢
    split_ifs at hid
    exact h id hid

/-- An entry is gone after its flush. -/
theorem entry_nfsFlush (c : Cache) (key : Bytes) : (nfsFlush c key).entry key = none := by
  unfold nfsFlush
  split
  · assumption
  · rename_i id hid
    simp [Cache.delete, hid]

/-- Setting the value of the entry of another key. -/
theorem good_setValue_ne {c : Cache} {key k : Bytes} {st : Stat} {v : Bytes} {id : Nat}
    (h : Good c key st v) (hk : k ≠ key) (hid : c.entry k = some id) (f : Option Cached) :
    Good (c.setValue id f) key st v := by
  intro i hi
  have hne : i ≠ id := by
    rintro rfl
    exact hk (c.one hid hi)
  simpa [Cache.setValue, hne] using h i hi

theorem good_create_ne {c : Cache} {key k : Bytes} {st : Stat} {v : Bytes} (h : Good c key st v)
    (hk : k ≠ key) : Good (c.create k) key st v := by
  intro i hi
  have hi : c.entry key = some i := by simpa [Cache.create, hk.symm] using hi
  have hne : i ≠ c.next := Nat.ne_of_lt (c.below hi)
  simpa [Cache.create, hne] using h i hi

/-- After the first look the entry to fill is the one of the key, and other keys are as they
were. -/
theorem lookup_spec (c : Cache) (k : Bytes) (st : Stat) :
    (∀ id, (lookup c k st).2 = .fill id → (lookup c k st).1.entry k = some id) ∧
      ∀ key st' v, key ≠ k → Good c key st' v → Good (lookup c k st).1 key st' v := by
  unfold lookup
  cases hk : c.entry k with
  | none =>
      refine ⟨fun id hid => ?_, fun key st' v hne h => good_create_ne h hne.symm⟩
      obtain rfl : c.next = id := by simpa using hid
      simp [Cache.create]
  | some id =>
      cases hv : c.value id with
      | none => simp [hv]
      | some f =>
          simp only [hv]
          split_ifs with hst
          · simp
          · refine ⟨fun i hi => ?_, fun key st' v hne h => good_setValue_ne h hne.symm hk none⟩
            obtain rfl : id = i := by simpa using hi
            exact hk

/-- A read of another key leaves the entry alone. -/
theorem good_nfsReadFile_ne (cfg : Config) {s : Server} {key k : Bytes} {st : Stat} {v : Bytes}
    (h : Good s.cache key st v) (hk : k ≠ key) :
    Good (nfsReadFile cfg s k).1.cache key st v := by
  unfold nfsReadFile
  cases hst : s.disk.statFile (nfsPath cfg k) with
  | error err => exact h
  | ok st' =>
      obtain ⟨hfill, hother⟩ := lookup_spec s.cache k st'
      have hgood := hother key st v hk.symm h
      cases hl : lookup s.cache k st' with
      | mk c looked =>
          rw [hl] at hfill hgood
          cases looked with
          | hit f => simpa [hl] using hgood
          | wait => simpa [hl] using hgood
          | fill id =>
              have hid := hfill id rfl
              simp only [hl]
              split
              · intro i hi
                simp only [store, Cache.delete] at hi ⊢
                split_ifs at hi
                exact hgood i hi
              · exact good_setValue_ne hgood hk hid _

/-- `stat` and `open` find the same file. -/
theorem statFile_of_fileAt {d : Disk} {path : Bytes} {f : Inode} (h : d.fileAt path = some f) :
    d.statFile path = .ok f.stat := by
  unfold Disk.fileAt at h
  unfold Disk.statFile
  split at h
  · rename_i i hi
    obtain rfl : d.inodes i = f := by simpa using h
    rw [hi]
  · exact absurd h (by simp)

/-- **A read of the stored key gives the value**, and keeps the entry good. -/
theorem nfsReadFile_stored {s : Server} {key v : Bytes} {f : Inode}
    (hfile : s.disk.fileAt (nfsPath cfg key) = some f) (hv : strip f.content = v)
    (hgood : Good s.cache key f.stat v) :
    (nfsReadFile cfg s key).2 = .ok v ∧ Good (nfsReadFile cfg s key).1.cache key f.stat v := by
  -- a fresh entry, or one whose value is outdated, is filled from the file
  have hfill : ∀ (c : Cache) (id : Nat), c.entry key = some id →
      lookup s.cache key f.stat = (c, .fill id) →
      (nfsReadFile cfg s key).2 = .ok v ∧
        Good (nfsReadFile cfg s key).1.cache key f.stat v := by
    intro c id hid hl
    have hread : nfsReadFile cfg s key =
        ({ s with cache := store c id (some ⟨f.stat, v⟩) }, .ok v) := by
      unfold nfsReadFile
      simp only [statFile_of_fileAt hfile, hl, hfile, hv]
    rw [hread]
    refine ⟨rfl, fun i hi => ?_⟩
    have hi : c.entry key = some i := hi
    obtain rfl : id = i := by
      rw [hid] at hi
      simpa using hi
    exact ⟨⟨f.stat, v⟩, by simp [store, Cache.setValue], fun _ => rfl⟩
  cases hk : s.cache.entry key with
  | none =>
      refine hfill (s.cache.create key) s.cache.next (by simp [Cache.create]) ?_
      simp [lookup, hk]
  | some id =>
      obtain ⟨g, hg, hst⟩ := hgood id hk
      by_cases heq : g.st = f.stat
      · have hread : nfsReadFile cfg s key = (s, .ok v) := by
          unfold nfsReadFile
          simp [statFile_of_fileAt hfile, lookup, hk, hg, heq, hst heq]
        rw [hread]
        exact ⟨rfl, hgood⟩
      · refine hfill (s.cache.setValue id none) id hk ?_
        simp [lookup, hk, hg, heq]

/-! ## Gets -/

@[simp] theorem cached_fill (w : World) (server : Server) (k key data : Bytes) :
    (World.mk (w.client.fill k data) server).cached key =
      if w.client.cache.isSome ∧ key = k then some data else w.cached key := by
  unfold World.cached Client.fill
  cases w.client.cache with
  | none => simp
  | some cache => simp

@[simp] theorem cached_sobFlush (w : World) (server : Server) (k key : Bytes) :
    (World.mk (sobFlush w.client k) server).cached key =
      if key = k then none else w.cached key := by
  unfold World.cached sobFlush
  cases w.client.cache with
  | none => simp
  | some cache => simp

/-- The request for a read, at the server. -/
theorem nfsProc_read (tcl : TclList) {s s' : Server} {key : CStr} {res : Except Int Bytes}
    (h : nfsReadFile cfg s key = (s', res)) :
    (nfsProc cfg tcl s .read (request tcl .read key []) {} none 0).1 = s' ∧
      ∀ bs, res = .ok bs →
        nfsProc cfg tcl s .read (request tcl .read key []) {} none 0 = (s', 0, bs) := by
  simp only [nfsProc, request, if_true, cstr_of_free key.2, h]
  cases res with
  | error err => exact ⟨rfl, fun bs hbs => absurd hbs (by simp)⟩
  | ok bs =>
      refine ⟨rfl, fun bs' hbs => ?_⟩
      obtain rfl : bs = bs' := by simpa using hbs
      rfl

variable {w : World} {key : CStr} {v : Bytes}

/-- **A get of the stored key gives its value.** -/
theorem sobGetFile_stored (tcl : TclList) (h : Stored cfg w key v) (hv : NulFree v) :
    (sobGetFile cfg tcl w key).2 = some v ∧ Stored cfg (sobGetFile cfg tcl w key).1 key v := by
  obtain ⟨f, hfile, hstrip, hgood⟩ := h.file
  cases hc : w.cached key with
  | some data =>
      obtain rfl := h.client data hc
      simp only [sobGetFile, hc]
      exact ⟨trivial, h⟩
  | none =>
      obtain ⟨hread, hafter⟩ := nfsReadFile_stored hfile hstrip hgood
      have hdisk := disk_nfsReadFile cfg w.server key
      cases hr : nfsReadFile cfg w.server key with
      | mk s res =>
          rw [hr] at hread hafter hdisk
          obtain rfl : res = .ok v := hread
          have hget : sobGetFile cfg tcl w key = (⟨w.client.fill key v, s⟩, some v) := by
            simp only [sobGetFile, hc, (nfsProc_read tcl hr).2 v rfl, if_true, cstr_of_free hv]
          rw [hget]
          refine ⟨rfl, ⟨f, ?_, hstrip, hafter⟩, fun data hdata => ?_⟩
          · show s.disk.fileAt _ = _
            rw [show s.disk = w.server.disk from hdisk, hfile]
          · rw [cached_fill] at hdata
            split_ifs at hdata
            · simpa using hdata.symm
            · exact h.client data hdata

/-- A get of another key changes nothing for this one. -/
theorem sobGetFile_ne (h : Stored cfg w key v) {k : CStr} (hk : k ≠ key) :
    Stored cfg (sobGetFile cfg tcl w k).1 key v := by
  obtain ⟨f, hfile, hstrip, hgood⟩ := h.file
  have hne : k.1 ≠ key.1 := fun heq => hk (Subtype.ext heq)
  have hafter := good_nfsReadFile_ne cfg hgood hne
  have hdisk := disk_nfsReadFile cfg w.server k
  cases hr : nfsReadFile cfg w.server k with
  | mk s res =>
      rw [hr] at hafter hdisk
      have hserver := (nfsProc_read tcl hr).1
      unfold sobGetFile
      split
      · exact h
      · dsimp only
        rw [hserver]
        have hstored : ∀ client, (∀ data, (World.mk client s).cached key = some data → data = v) →
            Stored cfg ⟨client, s⟩ key v := by
          intro client hclient
          refine ⟨⟨f, ?_, hstrip, hafter⟩, hclient⟩
          show s.disk.fileAt _ = _
          rw [show s.disk = w.server.disk from hdisk, hfile]
        split_ifs
        · refine hstored _ fun data hdata => ?_
          rw [cached_fill, if_neg fun hand => hne hand.2.symm] at hdata
          exact h.client data hdata
        · refine hstored _ fun data hdata => ?_
          rw [cached_sobFlush, if_neg fun heq => hne heq.symm] at hdata
          exact h.client data hdata

/-- Whatever happens later, the object stays stored. -/
theorem later_stored (tcl : TclList) (h : Stored cfg w key v) (hv : NulFree v) (e : Later) :
    Stored cfg (w.later cfg tcl e).1 key v ∧
      ∀ r ∈ (w.later cfg tcl e).2, r.1 = key.1 → r.2 = some v := by
  cases e with
  | get k =>
      by_cases hk : k = key
      · subst hk
        obtain ⟨hget, hstored⟩ := sobGetFile_stored tcl h hv
        refine ⟨hstored, fun r hr _ => ?_⟩
        obtain rfl := List.mem_singleton.mp hr
        exact hget
      · refine ⟨sobGetFile_ne h hk, fun r hr hkey => ?_⟩
        obtain rfl := List.mem_singleton.mp hr
        exact absurd (Subtype.ext hkey) hk
  | dropClient k =>
      refine ⟨⟨h.file, fun data hdata => ?_⟩, fun r hr => absurd hr List.not_mem_nil⟩
      have hdata : (World.mk (sobFlush w.client k) w.server).cached key = some data := hdata
      rw [cached_sobFlush] at hdata
      split_ifs at hdata
      exact h.client data hdata
  | dropServer k =>
      obtain ⟨f, hfile, hstrip, hgood⟩ := h.file
      exact ⟨⟨⟨f, hfile, hstrip, good_nfsFlush hgood k⟩, h.client⟩,
        fun r hr => absurd hr List.not_mem_nil⟩

/-- Every get of a run gives the value. -/
theorem gets_stored (h : Stored cfg w key v) (hv : NulFree v) : RoundTrip cfg tcl w key v := by
  intro es
  induction es generalizing w with
  | nil => exact fun r hr => absurd hr List.not_mem_nil
  | cons e es ih =>
      obtain ⟨hstored, hgets⟩ := later_stored tcl h hv e
      intro r hr hkey
      rcases List.mem_append.mp hr with hr | hr
      · exact hgets r hr hkey
      · exact ih hstored r hr hkey

/-! ## The round trip -/

/-- Does a command add a newline? -/
def WriteCmd.nl : WriteCmd → Bool
  | .put => true
  | .copy => false

/-- The file and the caches after a command that succeeded. -/
theorem sobWrite_file (w : World) (cmd : WriteCmd) (key data : CStr) (io : WriteIo) (now : Int)
    (hlen : cmd = .copy → key.1.length + data.1.length + 8 < 2 ^ 31)
    (hok : (sobWrite cfg tcl w cmd key data io now).2 = true) :
    let w' := (sobWrite cfg tcl w cmd key data io now).1
    w'.server.cache.entry key = none ∧
      ∃ f, w'.server.disk.fileAt (nfsPath cfg key) = some f ∧ f.content = payload cmd.nl data := by
  -- the handler of either command is a write of the data under the key
  have hwrite : ∀ r : Server × Int,
      r = nfsWriteFile3 cfg w.server key data cmd.nl false io now → r.2 = 0 →
      r.1.cache.entry key = none ∧
        ∃ f, r.1.disk.fileAt (nfsPath cfg key) = some f ∧ f.content = payload cmd.nl data := by
    rintro r rfl hr
    have hstatus : (writeDisk cfg w.server.disk key data cmd.nl false io now).2 = 0 := hr
    refine ⟨?_, writeDisk_content hstatus⟩
    show (if _ = 0 then _ else _ : Cache).entry key.1 = none
    rw [if_pos hstatus]
    exact entry_nfsFlush _ _
  cases cmd with
  | put =>
      have hne : Command.put ≠ .read := by decide
      simp only [sobWrite, nfsProc, if_neg hne, decide_eq_true_eq] at hok ⊢
      split_ifs at hok ⊢ with hro
      · exact absurd (show (-1 : Int) = 0 from hok) (by decide)
      · exact hwrite _ (nfsWriteFile_request _ _ _ _ _) hok
  | copy =>
      have hne : Command.copy ≠ .read := by decide
      simp only [sobWrite, nfsProc, if_neg hne, decide_eq_true_eq] at hok ⊢
      split_ifs at hok ⊢ with hro
      · exact absurd (show (-1 : Int) = 0 from hok) (by decide)
      · rw [nfsModify, nfsCopyFile_request _ _ _ _ _ (hlen rfl)] at hok ⊢
        exact hwrite _ rfl hok

/-- The client's cache after a command. -/
theorem sobWrite_cached (cfg : Config) (tcl : TclList) (w : World) (cmd : WriteCmd) (key : CStr)
    (data : Bytes) (io : WriteIo)
    (now : Int) : (sobWrite cfg tcl w cmd key data io now).1.cached key =
      if cmd = .put ∧ w.client.flushOnWrite then none else w.cached key := by
  cases cmd with
  | put =>
      cases hflush : w.client.flushOnWrite with
      | false => simp [sobWrite, hflush, World.cached]
      | true =>
          have hcached := cached_sobFlush w
            (nfsProc cfg tcl w.server .put (request tcl .put key data) io none now).1 key.1 key.1
          rw [if_pos rfl] at hcached
          rw [if_pos ⟨rfl, rfl⟩, ← hcached]
          simp [sobWrite, hflush]
  | copy => simp [sobWrite, World.cached]

/-- Nothing of the object is left in the client's cache by the command, or what is left is the
data. -/
def NoStale (w : World) (cmd : WriteCmd) (key data : Bytes) : Prop :=
  (cmd = .put ∧ w.client.flushOnWrite = true) ∨ w.cached key = none ∨ w.cached key = some data

/-- A client with a cache and a server, both empty. -/
def fresh : World where
  client := ⟨some fun _ => none, true⟩
  server := ⟨⟨fun _ => none, fun _ => ⟨[], 0⟩, 0⟩, Cache.empty⟩

/-- A key without special characters. -/
def plainKey : CStr := ⟨ascii "k", by decide⟩

/-- A text of one line, without and with its newline. -/
def line : CStr := ⟨ascii "line", by decide⟩
@[inherit_doc line] def lineNl : CStr := ⟨ascii "line\n", by decide⟩

end Nsdci.Store
