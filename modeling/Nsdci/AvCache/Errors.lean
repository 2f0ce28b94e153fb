import Nsdci.AvCache
import Nsdci.AvFile

/-!
# The error exits of `AvGet` (`av.c`)

One call of `AvGet`, with what other threads do while it does not have the lock of the cache. The
call keeps account of what it holds: the lock, files and mappings, references, entries of the cache
without a value. `avGet_error_iff` says which failures undo all of it.

There are two labels. A failing `stat` goes to `err1`, behind the unlocking. All that fails later
goes to `err2`, which needs the lock, but the call has given it back to open the file.
-/

namespace Nsdci.AvCache

open Lib

/-! ## The cache and its lock -/

/-- `Ns_Entry`: which entry it is, and its value. -/
structure Entry where
  id : Nat
  value : Option Nat
  deriving DecidableEq

/-- What the threads share: the mappings, the cache, the number of entries there have been, and
whether another thread has the lock. -/
structure Shared where
  heap : Heap Av
  cache : AList fun _ : Bytes => Entry
  nextEntry : Nat
  locked : Bool

/-- What other threads do while this one does not have the lock. -/
abbrev Others := Shared → Shared

/-- A call of `AvGet`: what it sees, whether it has the lock, whether it has unlocked or used the
cache without it, and what it has: open files, mappings, references, and entries that it has made or
emptied. In the table of the interpreter, an entry has no value at first. -/
structure Call where
  shared : Shared
  avTable : AList fun _ : Bytes => Option Nat
  holds : Bool := false
  misused : Bool := false
  fds : Nat := 0
  maps : Nat := 0
  refs : Nat := 0
  emptied : List Nat := []

namespace Call

variable (c : Call)

/-- A function of the cache is called, which needs the lock. -/
def use : Call := { c with misused := c.misused || !c.holds }

/-- `Ns_CacheLock`, once no other thread has the lock. -/
def lock (others : Others) : Option Call :=
  let shared := others c.shared
  if shared.locked then none else some { c with shared, holds := true }

/-- `Ns_CacheUnlock`. The lock is free then, whoever had it. -/
def unlock : Call := { c.use with holds := false, shared := { c.shared with locked := false } }

/-- `Ns_CacheCreateEntry`, with `new`. -/
def createEntry (list : Bytes) : Call × Entry × Bool :=
  match c.shared.cache.lookup list with
  | some entry => (c.use, entry, false)
  | none =>
      let entry := ⟨c.shared.nextEntry, none⟩
      ({ c.use with
        shared := { c.shared with
          cache := c.shared.cache.insert list entry, nextEntry := c.shared.nextEntry + 1 }
        emptied := entry.id :: c.emptied }, entry, true)

/-- `Ns_CacheUnsetValue`. -/
def unsetValue (list : Bytes) (entry : Entry) : Call :=
  { c.use with
    shared := { c.shared with
      heap := AvCache.unsetValue c.shared.heap entry.value
      cache := c.shared.cache.insert list { entry with value := none } }
    emptied := entry.id :: c.emptied }

/-- `Ns_CacheSetValueSz`. The reference of the call goes to the entry. -/
def setValue (list : Bytes) (entry : Entry) (id : Nat) : Call :=
  { c.use with
    shared := { c.shared with
      heap := AvCache.unsetValue c.shared.heap entry.value
      cache := c.shared.cache.insert list { entry with value := some id } }
    refs := c.refs - 1
    emptied := c.emptied.filter (· ≠ entry.id) }

/-- `Ns_CacheDeleteEntry`. An entry that is gone must not be used. -/
def deleteEntry (list : Bytes) (entry : Entry) : Call :=
  match c.shared.cache.lookup list with
  | none => { c.use with misused := true }
  | some entry' =>
      if entry'.id = entry.id then
        { c.use with
          shared := { c.shared with
            heap := AvCache.unsetValue c.shared.heap entry'.value
            cache := c.shared.cache.erase list }
          emptied := c.emptied.filter (· ≠ entry.id) }
      else { c.use with misused := true }

/-- `++avPtr->refcnt`. -/
def incr (id : Nat) : Call :=
  { c with shared := { c.shared with heap := c.shared.heap.incr id }, refs := c.refs + 1 }

/-- The mapping becomes an `Av` with one reference. -/
def alloc (av : Av) : Call × Nat :=
  let r := c.shared.heap.alloc av
  ({ c with shared := { c.shared with heap := r.1 }, maps := c.maps - 1, refs := c.refs + 1 }, r.2)

/-- The loop with `Ns_CacheWait`: the others act until the entry is made again, or has a value. -/
def waitEntry (list : Bytes) : List Others → Call → Entry → Bool → Option (Call × Entry × Bool)
  | wakes, c, entry, new =>
      if new = true ∨ entry.value ≠ none then some (c, entry, new)
      else
        match wakes with
        | [] => none
        | others :: wakes => do
            let c ← c.use.lock others
            let r := c.createEntry list
            waitEntry list wakes r.1 r.2.1 r.2.2

end Call

/-! ## The function -/

/-- What `open` and `mmap` do, with the bytes of the mapping. -/
inductive Load where
  | noOpen
  | noMap
  | mapped (map : Bytes)

/-- What a call of `AvGet` gets from outside: the name of the file, what `Tcl_PosixError` says,
`stat`, `open` and `mmap`, and the other threads. -/
structure Calls where
  file : Bytes
  posixError : Bytes
  stat : Option Stat
  load : Load
  before : Others
  wakes : List Others
  meanwhile : Others

/-- The message of an error. -/
def Calls.message (calls : Calls) (what : String) : Bytes :=
  ascii "could not " ++ ascii what ++ ascii " \"" ++ calls.file ++ ascii "\": " ++ calls.posixError

/-- The file is opened and mapped and its header found. The file is closed, and a mapping with no
header unmapped. -/
def Call.loadFile (c : Call) (calls : Calls) : Call × Option Bytes :=
  match calls.load with
  | .noOpen => (c, some (calls.message "open"))
  | .noMap =>
      let c := { c with fds := c.fds + 1 }
      ({ c with fds := c.fds - 1 }, some (calls.message "mmap"))
  | .mapped map =>
      let c := { c with fds := c.fds + 1 }
      let c := { c with maps := c.maps + 1 }
      let c := { c with fds := c.fds - 1 }
      match AvFile.findHdrEnd map with
      | none => ({ c with maps := c.maps - 1 }, some (calls.message "find header"))
      | some _ => (c, none)

/-- `err1`: without an `Av` the entry in the table of the interpreter is deleted. -/
def Call.err1 (c : Call) (list : Bytes) (avPtr : Option Nat) : Call :=
  match avPtr with
  | none => { c with avTable := c.avTable.erase list }
  | some id => { c with avTable := c.avTable.insert list (some id) }

/-- `err2`: without an `Av` the entry of the cache is deleted. Then come `Ns_CacheBroadcast` and
`Ns_CacheUnlock`. -/
def Call.err2 (c : Call) (list : Bytes) (entry : Entry) (avPtr : Option Nat) : Call :=
  let c := if avPtr = none then c.deleteEntry list entry else c
  c.use.unlock.err1 list avPtr

/-- The part of `AvGet` that maps the file, from the first `Ns_CacheUnlock` on. -/
def Call.mapFile (c : Call) (calls : Calls) (list : Bytes) (st : Stat) (entry : Entry) :
    Option (Call × Except Bytes (Option Nat)) :=
  let r := c.unlock.loadFile calls
  match r.2 with
  | some text =>
      let c := { r.1 with shared := calls.meanwhile r.1.shared }
      some (c.err2 list entry none, .error text)
  | none => do
      let c ← r.1.lock calls.meanwhile
      let av := c.alloc ⟨list, st⟩
      let made := av.1.createEntry list
      let c := (made.1.setValue list made.2.1 av.2).incr av.2
      some (c.err2 list made.2.1 (some av.2), .ok (some av.2))

/-- `AvGet`: the call at its end, and the `Av` or the message. It is none while the call waits, or
if a value of the cache is not mapped. -/
def avGet (calls : Calls) (list : Bytes) (shared : Shared)
    (avTable : AList fun _ : Bytes => Option Nat) : Option (Call × Except Bytes (Option Nat)) :=
  match avTable.lookup list with
  | some avPtr => some ({ shared, avTable }, .ok avPtr)
  | none =>
      let c : Call := { shared, avTable := avTable.insert list none }
      match calls.stat with
      | none => some (c.err1 list none, .error (calls.message "stat"))
      | some st => do
          let c ← c.lock calls.before
          let made := c.createEntry list
          let (c, entry, new) ← Call.waitEntry list calls.wakes made.1 made.2.1 made.2.2
          match if new then none else entry.value with
          | none => c.mapFile calls list st entry
          | some id => do
              let av ← c.shared.heap.val id
              if av.st = st then some ((c.incr id).err2 list entry (some id), .ok (some id))
              else (c.unsetValue list entry).mapFile calls list st entry

/-! ## What a failure leaves -/

/-- Nothing is left but the lock: no entry of the cache that the call has made or emptied is without
a value, the table of the interpreter is as before, and the call has no reference, file or
mapping. -/
structure Dropped (list : Bytes) (avTable : AList fun _ : Bytes => Option Nat) (c : Call) :
    Prop where
  entry : ∀ entry, c.shared.cache.lookup list = some entry → entry.id ∉ c.emptied
  table : c.avTable = avTable
  refs : c.refs = 0
  fds : c.fds = 0
  maps : c.maps = 0

/-- All is undone: the lock is left to who had it, and was had when the cache was used. -/
structure Undone (list : Bytes) (avTable : AList fun _ : Bytes => Option Nat) (c : Call) :
    Prop where
  dropped : Dropped list avTable c
  holds : c.holds = false
  locked : c.misused = false

/-- What a call has while it looks the entry up. -/
structure Account (avTable : AList fun _ : Bytes => Option Nat) (emptied : List Nat) (c : Call) :
    Prop where
  table : c.avTable = avTable
  refs : c.refs = 0
  fds : c.fds = 0
  maps : c.maps = 0
  emptied : c.emptied = emptied

section Exits

variable {calls : Calls} {list : Bytes} {shared : Shared}
  {avTable : AList fun _ : Bytes => Option Nat} {emptied : List Nat} {c c' : Call} {entry : Entry}
  {text : Bytes}

theorem Account.use (h : Account avTable emptied c) : Account avTable emptied c.use :=
  ⟨h.table, h.refs, h.fds, h.maps, h.emptied⟩

theorem Account.lock {others : Others} (h : Account avTable emptied c)
    (hlock : c.lock others = some c') : Account avTable emptied c' := by
  obtain ⟨-, hc⟩ := Option.ite_none_left_eq_some.mp hlock
  obtain rfl := Option.some.inj hc
  exact ⟨h.table, h.refs, h.fds, h.maps, h.emptied⟩

/-- The entries emptied, when an entry was looked up. -/
def ofNew (entry : Entry) (new : Bool) : List Nat := if new then [entry.id] else []

theorem Account.createEntry (h : Account avTable [] c) (list : Bytes) :
    Account avTable (ofNew (c.createEntry list).2.1 (c.createEntry list).2.2)
      (c.createEntry list).1 := by
  unfold Call.createEntry
  cases c.shared.cache.lookup list with
  | some entry => exact ⟨h.table, h.refs, h.fds, h.maps, h.emptied⟩
  | none => exact ⟨h.table, h.refs, h.fds, h.maps, congrArg (_ :: ·) h.emptied⟩

/-- The loop, however often it waits. -/
theorem Account.waitEntry {wakes : List Others} {new new' : Bool} {entry' : Entry}
    (h : Account avTable (ofNew entry new) c)
    (hwait : Call.waitEntry list wakes c entry new = some (c', entry', new')) :
    Account avTable (ofNew entry' new') c' := by
  induction wakes generalizing c entry new with
  | nil =>
      unfold Call.waitEntry at hwait
      split_ifs at hwait with hready
      · obtain ⟨rfl, rfl, rfl⟩ := Prod.mk.inj (Option.some.inj hwait)
        exact h
  | cons others wakes ih =>
      unfold Call.waitEntry at hwait
      split_ifs at hwait with hready
      · obtain ⟨rfl, rfl, rfl⟩ := Prod.mk.inj (Option.some.inj hwait)
        exact h
      · -- an entry that is not new has not been made or emptied by this call
        obtain rfl : new = false := Bool.eq_false_iff.mpr fun hnew => hready (.inl hnew)
        obtain ⟨c₁, hlock, hnext⟩ := Option.bind_eq_some_iff.mp hwait
        exact ih ((h.use.lock hlock).createEntry list) hnext

theorem Account.unsetValue (h : Account avTable [] c) (list : Bytes) (entry : Entry) :
    Account avTable [entry.id] (c.unsetValue list entry) :=
  ⟨h.table, h.refs, h.fds, h.maps, congrArg (entry.id :: ·) h.emptied⟩

/-- A file that is not loaded leaves nothing open and nothing mapped. -/
theorem loadFile_error (h : (c.loadFile calls).2 = some text) : (c.loadFile calls).1 = c := by
  unfold Call.loadFile at h ⊢
  cases hload : calls.load with
  | noOpen => rfl
  | noMap => rfl
  | mapped map =>
      rw [hload] at h
      cases hfind : AvFile.findHdrEnd map with
      | none => simp only [hfind]; rfl
      | some str =>
          simp only [hfind] at h
          exact absurd h (by simp)

/-- The entry is deleted, or it is gone. -/
theorem deleteEntry_spec (c : Call) (list : Bytes) (entry : Entry) :
    (c.deleteEntry list entry).avTable = c.avTable ∧ (c.deleteEntry list entry).refs = c.refs ∧
      (c.deleteEntry list entry).fds = c.fds ∧ (c.deleteEntry list entry).maps = c.maps ∧
      ((∀ id ∈ c.emptied, id = entry.id) →
        ∀ entry', (c.deleteEntry list entry).shared.cache.lookup list = some entry' →
          entry'.id ∉ (c.deleteEntry list entry).emptied) ∧
      (c.holds = false → (c.deleteEntry list entry).misused = true) := by
  unfold Call.deleteEntry
  cases hlookup : c.shared.cache.lookup list with
  | none =>
      refine ⟨rfl, rfl, rfl, rfl, fun _ entry' hentry' => ?_, fun _ => rfl⟩
      exact absurd (hlookup.symm.trans hentry') (by simp)
  | some entry' =>
      dsimp only
      split_ifs with hid
      · refine ⟨rfl, rfl, rfl, rfl, fun _ entry'' hentry'' => ?_, fun hholds => ?_⟩
        · exact absurd ((AList.lookup_erase list c.shared.cache).symm.trans hentry'') (by simp)
        · show (c.misused || !c.holds) = true
          rw [hholds, Bool.not_false, Bool.or_true]
      · refine ⟨rfl, rfl, rfl, rfl, fun honly entry'' hentry'' hmem => ?_, fun _ => rfl⟩
        obtain rfl := Option.some.inj (hlookup.symm.trans hentry'')
        exact hid (honly _ hmem)

/-- An entry with no value is taken out of a table again. -/
theorem erase_insert {avTable : AList fun _ : Bytes => Option Nat}
    (h : avTable.lookup list = none) :
    (avTable.insert list none).erase list = avTable := by
  have hnot : list ∉ avTable := AList.lookup_eq_none.mp h
  refine AList.ext ?_
  show (avTable.insert list none).entries.kerase list = avTable.entries
  rw [AList.entries_insert_of_notMem hnot]
  exact List.kerase_cons_eq rfl

/-- What a call at `err2` leaves when it has no `Av`, whatever it was that failed. -/
theorem err2_none (h : Account (avTable.insert list none) emptied c)
    (honly : ∀ id ∈ emptied, id = entry.id) (hnone : avTable.lookup list = none)
    (hholds : c.holds = false) :
    Dropped list avTable (c.err2 list entry none) ∧ (c.err2 list entry none).holds = false ∧
      (c.err2 list entry none).misused = true := by
  obtain ⟨htable, hrefs, hfds, hmaps, hentry, hmisused⟩ := deleteEntry_spec c list entry
  have herr : c.err2 list entry none = (c.deleteEntry list entry).use.unlock.err1 list none := by
    rw [Call.err2, if_pos rfl]
  rw [herr]
  refine ⟨⟨hentry (h.emptied ▸ honly), ?_, hrefs.trans h.refs, hfds.trans h.fds,
    hmaps.trans h.maps⟩, rfl, ?_⟩
  · show (c.deleteEntry list entry).avTable.erase list = avTable
    rw [htable, h.table, erase_insert hnone]
  · show ((c.deleteEntry list entry).misused || _ || _) = true
    rw [hmisused hholds]
    rfl

/-- A file that cannot be mapped. -/
theorem mapFile_error {st : Stat} (h : Account (avTable.insert list none) emptied c)
    (honly : ∀ id ∈ emptied, id = entry.id) (hnone : avTable.lookup list = none)
    (herr : c.mapFile calls list st entry = some (c', .error text)) :
    Dropped list avTable c' ∧ c'.holds = false ∧ c'.misused = true := by
  unfold Call.mapFile at herr
  dsimp only at herr
  split at herr
  next text' hload =>
    obtain ⟨rfl, -⟩ := Prod.mk.inj (Option.some.inj herr)
    rw [loadFile_error hload]
    exact err2_none ⟨h.table, h.refs, h.fds, h.maps, h.emptied⟩ honly hnone rfl
  next =>
    obtain ⟨c₁, -, hnext⟩ := Option.bind_eq_some_iff.mp herr
    exact absurd (Prod.mk.inj (Option.some.inj hnext)).2 (by simp)

/-- **The error exits of `AvGet`.** Every failure leaves no entry of the cache that the call has
made or emptied without a value, the table of the interpreter as before, no reference, file or
mapping, and the thread without the lock; and the lock was left to who had it, and was had when the
cache was used, exactly if `stat` failed. -/
theorem avGet_error_iff (h : avGet calls list shared avTable = some (c, .error text)) :
    (Dropped list avTable c ∧ c.holds = false) ∧ (Undone list avTable c ↔ calls.stat = none) := by
  unfold avGet at h
  split at h
  next avPtr _ => exact absurd (Prod.mk.inj (Option.some.inj h)).2 (by simp)
  next hnone =>
    dsimp only at h
    split at h
    next hstat =>
      obtain ⟨rfl, -⟩ := Prod.mk.inj (Option.some.inj h)
      have hdropped : Dropped list avTable
          (Call.err1 { shared, avTable := avTable.insert list none } list none) :=
        ⟨fun _ _ => List.not_mem_nil, erase_insert hnone, rfl, rfl, rfl⟩
      exact ⟨⟨hdropped, rfl⟩, iff_of_true ⟨hdropped, rfl, rfl⟩ hstat⟩
    next st hstat =>
      obtain ⟨c₁, hlock, h⟩ := Option.bind_eq_some_iff.mp h
      obtain ⟨⟨c₂, entry, new⟩, hwait, h⟩ := Option.bind_eq_some_iff.mp h
      have hstart : Account (avTable.insert list none) []
          { shared, avTable := avTable.insert list none } := ⟨rfl, rfl, rfl, rfl, rfl⟩
      have hfound := ((hstart.lock hlock).createEntry list).waitEntry hwait
      have hend : Dropped list avTable c ∧ c.holds = false ∧ c.misused = true := by
        dsimp only at h
        split at h
        next =>
          refine mapFile_error hfound (fun id hid => ?_) hnone h
          unfold ofNew at hid
          split_ifs at hid
          · exact List.mem_singleton.mp hid
          · exact absurd hid List.not_mem_nil
        next id hvalue =>
          obtain rfl : new = false := by
            cases new
            · rfl
            · exact absurd hvalue (by simp)
          obtain ⟨av, hav, h⟩ := Option.bind_eq_some_iff.mp h
          split_ifs at h with hst
          · exact absurd (Prod.mk.inj (Option.some.inj h)).2 (by simp)
          · exact mapFile_error (hfound.unsetValue list entry)
              (fun _ => List.mem_singleton.mp) hnone h
      obtain ⟨hdropped, hholds, hmisused⟩ := hend
      refine ⟨⟨hdropped, hholds⟩, iff_of_false (fun hundone => ?_) (by rw [hstat]; simp)⟩
      exact absurd (hundone.locked.symm.trans hmisused) Bool.false_ne_true

end Exits

/-- A file that is there and cannot be opened. Another thread takes the lock meanwhile. -/
def unopened : Calls where
  file := [110]
  posixError := []
  stat := some ⟨64, 1⟩
  load := .noOpen
  before := id
  wakes := []
  meanwhile := fun s => { s with locked := true }

/-- Nothing is mapped or cached, and no other thread has the lock. -/
def unused : Shared := ⟨{}, ∅, 0, false⟩

/-- The call fails. -/
theorem avGet_unopened :
    ∃ c text, avGet unopened [110] unused ∅ = some (c, .error text) ∧
      (Dropped [110] ∅ c ∧ c.holds = false) ∧ (Undone [110] ∅ c ↔ unopened.stat = none) := by
  obtain ⟨c, text, hrun⟩ : ∃ c text, avGet unopened [110] unused ∅ = some (c, .error text) :=
    ⟨_, _, rfl⟩
  exact ⟨c, text, hrun, avGet_error_iff hrun⟩

/-- It unlocks the lock that the other thread has. -/
theorem avGet_unlocks :
    (¬∀ calls list shared avTable c text,
      avGet calls list shared avTable = some (c, .error text) → Undone list avTable c) ∧
    ∃ c text, avGet unopened [110] unused ∅ = some (c, .error text) ∧
      (unopened.meanwhile unused).locked = true ∧ c.shared.locked = false ∧ c.misused = true := by
  refine ⟨fun h => ?_, _, _, rfl, rfl, rfl, rfl⟩
  have hundone := h unopened [110] unused ∅ _ _ rfl
  exact absurd hundone.locked (by decide)

end Nsdci.AvCache
