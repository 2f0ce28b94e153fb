import Nsdci.Nfs.Boards

/-!
# What reads of the file server deliver

To say that a read delivers old content, the runs of the server are written down with some history:
every change of a file that can be seen under its name gets a number, its version. A value in the
cache has the version of the content it was made of, and a read knows the newest version whose write
had returned when the read began.

The history is an onlooker: `run_histStep` says that it does not change what the server does.
-/

namespace Nsdci.Nfs

open Lib

/-- The history of a run. `ver` and `gone` are the versions of inodes and of names without a file,
`fver` those of cache entries. `settled` has, for each key, the newest change of its file that the
cache may not be behind any more: one made under another key, or under this key by a write that has
flushed. `acked` has, for each file, the newest change whose write has returned. For each thread,
`since` is what `acked` was when it began, `got` the version of what it has read, and `eff` that of
its own last change. `had` and `named` say what an inode has been and which inodes a name has led
to. -/
structure Hist where
  clock : Nat
  ver : Nat → Nat
  gone : Bytes → Nat
  fver : Nat → Nat
  settled : Bytes → Nat
  acked : Bytes → Nat
  since : Nat → Nat
  got : Nat → Nat
  eff : Nat → Nat
  had : Nat → Nat → Bytes → Prop
  named : Bytes → Nat → Prop

/-- A read that has delivered content. -/
structure Delivered where
  path : Bytes
  since : Nat
  version : Nat
  data : Bytes

/-- A server with its history. -/
structure Traced where
  state : State
  hist : Hist
  reads : List Delivered := []

/-- The history of a server at the beginning: all files are of version 0. -/
def Hist.start (d : Disk) : Hist where
  clock := 0
  ver _ := 0
  gone _ := 0
  fver _ := 0
  settled _ := 0
  acked _ := 0
  since _ := 0
  got _ := 0
  eff _ := 0
  had i v bs := v = 0 ∧ bs = (d.inodes i).content
  named p i := d.names p = some (.file i)

/-- A server without requests and with an empty cache. -/
def Traced.start (d : Disk) : Traced := ⟨idle ⟨d, Cache.empty⟩, Hist.start d, []⟩

/-- The `stat` data of the file at a path. -/
def Disk.statAt (d : Disk) (p : Bytes) : Option Stat := (d.fileAt p).map Inode.stat

/-- The version of what a name leads to. -/
def Hist.vis (h : Hist) (d : Disk) (p : Bytes) : Nat :=
  match d.names p with
  | some (.file i) => h.ver i
  | _ => h.gone p

/-- What can be seen under a name is not what it was. -/
def Disk.differs (d d' : Disk) (p : Bytes) : Bool :=
  d'.names p ≠ d.names p || d'.fileAt p ≠ d.fileAt p

namespace Hist

variable (h : Hist)

/-- A new version for the inode a name leads to. -/
def newVer (d' : Disk) (p : Bytes) : Nat → Nat :=
  match d'.names p with
  | some (.file i) => Function.update h.ver i (h.clock + 1)
  | _ => h.ver

/-- A new version for a name without a file. -/
def newGone (d' : Disk) (p : Bytes) : Bytes → Nat :=
  match d'.names p with
  | some (.file _) => h.gone
  | _ => Function.update h.gone p (h.clock + 1)

/-- A thread may have changed its file. -/
def change (su : Setup) (d d' : Disk) (n : Nat) (t : Thread) : Hist :=
  if d.differs d' (su.path t) then
    { h with
      clock := h.clock + 1
      ver := h.newVer d' (su.path t)
      gone := h.newGone d' (su.path t)
      settled := fun key =>
        if nfsPath su.cfg key = su.path t ∧ key ≠ t.req.key then h.clock + 1 else h.settled key
      eff := Function.update h.eff n (h.clock + 1) }
  else h

/-- What holds on the disk is remembered. -/
def record (d' : Disk) : Hist :=
  { h with
    had := fun i v bs => h.had i v bs ∨ v = h.ver i ∧ bs = (d'.inodes i).content
    named := fun p i => h.named p i ∨ d'.names p = some (.file i) }

/-- A thread begins. -/
def begin (n : Nat) (p : Bytes) : Hist := { h with since := Function.update h.since n (h.acked p) }

/-- A thread makes a step that leaves `d'`. -/
def move (su : Setup) (d d' : Disk) (n : Nat) (t : Thread) : Hist :=
  (match t.pc with
    | .read _ _ i _ => { h with got := Function.update h.got n (h.ver i) }
    | .fill id _ => { h with fver := Function.update h.fver id (h.got n) }
    | .flush =>
        { h with
          settled := Function.update h.settled t.req.key (max (h.settled t.req.key) (h.eff n))
          acked := Function.update h.acked (su.path t) (max (h.acked (su.path t)) (h.eff n)) }
    | _ => h.change su d d' n t).record d'

/-- The `stat` data and the version of the value in the cache for a key. -/
def cached (c : Cache) (key : Bytes) : Option (Stat × Nat) :=
  (c.entry key).bind fun id => (c.value id).map fun f => (f.st, h.fver id)

/-- The `stat` data and the version of what a thread reads, or has read and will store. -/
def reading (n : Nat) (t : Thread) : Option (Stat × Nat) :=
  match t.pc with
  | .read st _ i _ => some (st, h.ver i)
  | .fill _ (.ok f) => some (f.st, h.got n)
  | _ => none

/-- What the step of a thread delivers, with its version: a value of the cache, or what it has read
itself. -/
def delivers (c : Cache) (n : Nat) (t : Thread) : Option (Nat × Bytes) :=
  match t.pc with
  | .look st | .wait st =>
      (c.entry t.req.key).bind fun id => (c.value id).bind fun f =>
        if f.st = st then some (h.fver id, f.buf) else none
  | .fill _ (.ok f) => some (h.got n, f.buf)
  | _ => none

end Hist

variable (su : Setup)

/-- The history behind a step. -/
def Traced.next (g : Traced) (e : Event) (s : State) : Traced :=
  match e with
  | .start req =>
      { g with
        state := s
        hist := g.hist.begin g.state.threads.length (nfsPath su.cfg req.key) }
  | .move n _ =>
      match g.state.threads[n]? with
      | none => { g with state := s }
      | some t =>
          { state := s
            hist := g.hist.move su g.state.server.disk s.server.disk n t
            reads := g.reads ++ ((g.hist.delivers g.state.server.cache n t).map fun r =>
              ⟨su.path t, g.hist.since n, r.1, r.2⟩).toList }
  | .evict _ => { g with state := s }

/-- A step of the server, with its history. -/
def histStep (g : Traced) (e : Event) : Option Traced := (step su g.state e).map (g.next su e)

/-- What a read has delivered is a content its file has had as that version, and not older than any
change whose write had returned when the read began. -/
def Delivered.Fresh (h : Hist) (r : Delivered) : Prop :=
  r.since ≤ r.version ∧
    ∃ i content, h.named r.path i ∧ h.had i r.version content ∧ r.data = strip content

/-- **No read has delivered old content, and `NfsReadFile` has only stored into entries of the cache
and deleted such.** -/
def Traced.Coherent (g : Traced) : Prop :=
  g.state.stray = false ∧ ∀ r ∈ g.reads, r.Fresh g.hist

/-! ## When it goes wrong -/

/-- The entry of the cache a read in progress is to fill. -/
def Thread.filling (t : Thread) : Option Nat :=
  match t.pc with
  | .openRead _ id | .read _ id _ _ | .fstat id _ _ | .fill id _ => some id
  | _ => none

/-- A value that a later read takes for the content of the file, since size and time are the same,
is not older than what has settled for the key. -/
def Current (d : Disk) (h : Hist) (key : Bytes) (value : Option (Stat × Nat)) : Prop :=
  ∀ v ∈ value, d.statAt (nfsPath su.cfg key) = some v.1 → h.settled key ≤ v.2

/-- A read that has not looked into the cache yet has seen these `stat` data, and began after a
newer change had returned. -/
def Awaited (h : Hist) (n : Nat) (t : Thread) (st : Stat) (version : Nat) : Prop :=
  (t.pc = .look st ∨ t.pc = .wait st) ∧ version < h.since n

/-- What a step of a thread must find. A flush deletes no entry that a read in progress is to fill.
A change does not give the file the size and time of an older value of it in the cache, or in the
hands of a read, unless that is a value of the writer's own key that was in order before. And a read
that starts again does not take the size and time of a file that is there no more for those of the
file that is. -/
def SafeStep (s : State) (h : Hist) (n : Nat) (t : Thread) (io : Io) : Prop :=
  match t.pc with
  | .flush => ∀ id ∈ s.server.cache.entry t.req.key, ∀ u ∈ s.threads, u.filling ≠ some id
  | .openWrite _ | .writev _ _ | .rename _ _ | .unlink =>
      ∀ r ∈ advance su s.server t io, ∀ m < s.threads.length, ∀ u ∈ s.threads[m]?,
        su.path u = su.path t →
          let h' := h.change su s.server.disk r.1.disk n t
          Current su r.1.disk h' u.req.key (h'.cached s.server.cache u.req.key) ∧
            Current su r.1.disk h' u.req.key (h'.reading m u)
  | .fstat _ i _ => io.failed = none →
      Current su s.server.disk h t.req.key (some ((s.server.disk.inodes i).stat, h.ver i)) ∧
        ∀ m < s.threads.length, ∀ u ∈ s.threads[m]?, u.req.key = t.req.key →
          ¬ Awaited h m u (s.server.disk.inodes i).stat (h.ver i)
  | _ => True

/-- No flush and no eviction takes an entry from a read in progress, and no read can take an older
value for the content of a file. -/
def SafeRead (g : Traced) (e : Event) : Prop :=
  match e with
  | .start _ => True
  | .move n io => ∀ t ∈ g.state.threads[n]?, SafeStep su g.state g.hist n t io
  | .evict id => ∀ u ∈ g.state.threads, u.filling ≠ some id

variable {su}

/-- What a read that has not looked into the cache yet has seen. -/
def Pc.seen : Pc → Option Stat
  | .look st | .wait st => some st
  | _ => none

theorem Pc.seen_iff (pc : Pc) (st : Stat) : pc.seen = some st ↔ pc = .look st ∨ pc = .wait st := by
  cases pc <;> simp [Pc.seen]

instance (h : Hist) (n : Nat) (t : Thread) (st : Stat) (version : Nat) :
    Decidable (Awaited h n t st version) :=
  decidable_of_iff (t.pc.seen = some st ∧ version < h.since n)
    (and_congr_left' (Pc.seen_iff t.pc st))

instance (d : Disk) (h : Hist) (key : Bytes) (value : Option (Stat × Nat)) :
    Decidable (Current su d h key value) :=
  inferInstanceAs (Decidable (∀ v ∈ value, _ → _))

instance (s : State) (h : Hist) (n : Nat) (t : Thread) (io : Io) :
    Decidable (SafeStep su s h n t io) :=
  match hpc : t.pc with
  | .flush => decidable_of_iff
      (∀ id ∈ s.server.cache.entry t.req.key, ∀ u ∈ s.threads, u.filling ≠ some id)
      (by rw [SafeStep, hpc])
  | .openWrite _ | .writev _ _ | .rename _ _ | .unlink => decidable_of_iff
      (∀ r ∈ advance su s.server t io, ∀ m < s.threads.length, ∀ u ∈ s.threads[m]?,
        su.path u = su.path t →
          let h' := h.change su s.server.disk r.1.disk n t
          Current su r.1.disk h' u.req.key (h'.cached s.server.cache u.req.key) ∧
            Current su r.1.disk h' u.req.key (h'.reading m u))
      (by rw [SafeStep, hpc])
  | .fstat _ i _ => decidable_of_iff
      (io.failed = none →
        Current su s.server.disk h t.req.key (some ((s.server.disk.inodes i).stat, h.ver i)) ∧
          ∀ m < s.threads.length, ∀ u ∈ s.threads[m]?, u.req.key = t.req.key →
            ¬ Awaited h m u (s.server.disk.inodes i).stat (h.ver i))
      (by rw [SafeStep, hpc])
  | .stat | .look _ | .wait _ | .openRead _ _ | .read _ _ _ _ | .fill _ _ | .edit _ | .done _ _ =>
      isTrue (by rw [SafeStep, hpc]; trivial)

instance (g : Traced) : (e : Event) → Decidable (SafeRead su g e)
  | .start _ => inferInstanceAs (Decidable True)
  | .move n io =>
      inferInstanceAs (Decidable (∀ t ∈ g.state.threads[n]?, SafeStep su g.state g.hist n t io))
  | .evict id => inferInstanceAs (Decidable (∀ u ∈ g.state.threads, u.filling ≠ some id))

/-- The history does not change what the server does. -/
theorem run_histStep (g : Traced) (es : List Event) :
    (run (histStep su) g es).map Traced.state = run (step su) g.state es := by
  induction es generalizing g with
  | nil => rfl
  | cons e es ih =>
      have hnext : ∀ s, (g.next su e s).state = s := by
        intro s
        cases e with
        | start req => rfl
        | move n io =>
            unfold Traced.next
            dsimp only
            split <;> rfl
        | evict id => rfl
      rw [run, run]
      unfold histStep
      cases hstep : step su g.state e with
      | none => rfl
      | some s =>
          show (run (histStep su) (g.next su e s) es).map Traced.state = run (step su) s es
          rw [ih, hnext]

end Nsdci.Nfs
