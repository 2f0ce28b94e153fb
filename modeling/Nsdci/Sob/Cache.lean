import Nsdci.Nfs.Boards

/-!
# The cache of an object client

The threads of one client (`sob.c`) share its cache. `SobGetFile` looks into the cache, sends a read
to the server without the lock, and stores what came back; a write sends its request and flushes the
key when the response is there. Here these are steps of their own. The server does each request at
one instant, between the request and the response.

The server keeps all values an object has had, and a value in the cache carries the number of the
one it was read from. A get is fresh when what it returns is the last value of which the write had
returned before the get began, or a later one.

A fill that comes after the flush of a newer write stores an old value, and `nsob.copy` flushes
nothing. `gets_fresh` shows that nothing else goes wrong.
-/

namespace Nsdci.SobCache

open Lib Nfs

/-- The fields of `Sob` that matter: whether it is a client of comment boards, whether it has a
cache, and `flushOnWrite`. -/
structure Client where
  ncb : Bool
  cached : Bool
  flushOnWrite : Bool

/-- The commands that write an object: `nsob.put`, `nsob.append`, `nsob.copy`, `nsob.delete`,
`ncb.post` and `ncb.delete`. -/
inductive Command where
  | put (data : CStr)
  | append (data : CStr)
  | copy (data : Bytes)
  | delete
  | post (user msg fields : CStr)
  | cbDelete (id : Int)
  deriving DecidableEq

/-- What a get returns, with the number of the value of the object it was read from. -/
structure Value where
  data : Bytes
  version : Nat
  deriving DecidableEq

/-- Where a get is. -/
inductive GetPc where
  | look
  | wait
  | fetch
  | fill (got : Option Value)
  | done (got : Option Value)
  deriving DecidableEq

/-- Where a write is, with the number of the value it has made: `none` when the command fails. -/
inductive WritePc where
  | send
  | flush (version : Option Nat)
  | ret (version : Option Nat)
  | done (version : Option Nat)
  deriving DecidableEq

/-- A thread in a command. `since` is the number of the last value of the object whose write had
returned when the get began. -/
inductive Thread where
  | get (key : CStr) (since : Nat) (pc : GetPc)
  | write (key : CStr) (cmd : Command) (pc : WritePc)
  deriving DecidableEq

/-- The cache: an entry may have no value yet. -/
abbrev Cache := Bytes → Option (Option Value)

/-- The values of all objects on the server, the oldest first. -/
abbrev Log := Bytes → List (Option Bytes)

/-- The server, and the client with its threads. -/
structure State where
  log : Log
  cache : Cache := fun _ => none
  threads : List Thread := []

/-- What becomes of a request: it does not reach the server, or its response is lost, or the
response comes. -/
inductive Answer where
  | none | lost | ok
  deriving DecidableEq

/-- What comes from outside to one step. -/
structure Io where
  answer : Answer := .ok
  timeout : Bool := false
  now : Int := 0

variable (su : Setup) (c : Client)

/-- The file of the object after a command, when the server does it. -/
def Command.apply (now : Int) (cmd : Command) (old : Option Bytes) : Option (Option Bytes) :=
  let board (e : Cb.Edit) := (e.apply su.tcl su.maxposts now (strip (old.getD []))).map fun text =>
    some (payload true text)
  match cmd with
  | .put data => some (some (payload true data.1))
  | .append data => some (some (old.getD [] ++ payload true data.1))
  | .copy data => some (some data)
  | .delete => if old = none then none else some none
  | .post user msg fields => board (.post user msg fields)
  | .cbDelete id => board (.delete id)

/-- The object a command writes: a delete sends its key as an element of a list, and the server does
not take it apart. -/
def Command.object (cmd : Command) (key : CStr) : Bytes :=
  match cmd with
  | .delete => su.tcl.list.element key.1
  | _ => key.1

/-- The command flushes its key. -/
def Command.flushes (cmd : Command) (version : Option Nat) : Bool :=
  c.flushOnWrite && match cmd with
    | .put _ | .append _ | .delete => true
    | .copy _ => false
    | .post _ _ _ | .cbDelete _ => version.isSome

/-- What `SobGetFile` makes of the file of an object: a client of boards takes nothing that is no
list. -/
def readData (content : Option Bytes) : Option Bytes :=
  let out := cstr (strip (content.getD []))
  if c.ncb && (su.tcl.list.splitList out).isNone then none else some out

/-- The response to a read, when it comes. -/
def fetched (log : Log) (key : Bytes) (answer : Answer) : Option Value :=
  if answer = .ok then
    (readData su c ((log key).getLast?.join)).map fun data => ⟨data, (log key).length - 1⟩
  else none

/-- What a thread finds in an entry. -/
def found : Option (Option Value) → GetPc
  | none => .done none
  | some none => .wait
  | some (some v) => .done (some v)

/-- One step of `SobGetFile`. -/
def getStep (s : State) (key : Bytes) (io : Io) : GetPc → Option (Cache × GetPc)
  | .look =>
      if c.cached && (s.cache key).isNone then
        some (Function.update s.cache key (some none), .fetch)
      else some (s.cache, if c.cached then found (s.cache key) else .fetch)
  | .wait => some (s.cache, if io.timeout then .done none else found (s.cache key))
  | .fetch =>
      let got := fetched su c s.log key io.answer
      some (s.cache, if c.cached then .fill got else .done got)
  | .fill got => some (Function.update s.cache key (got.map some), .done got)
  | .done _ => none

/-- Where a write goes when it has its answer. -/
def answered (cmd : Command) (version : Option Nat) : WritePc :=
  if cmd.flushes c version then .flush version else .ret version

/-- One step of a write. -/
def writeStep (s : State) (key : CStr) (cmd : Command) (io : Io) :
    WritePc → Option (Log × Cache × WritePc)
  | .send =>
      let object := cmd.object su key
      match io.answer, cmd.apply su io.now ((s.log object).getLast?.join) with
      | .none, _ | _, none => some (s.log, s.cache, answered c cmd none)
      | answer, some content =>
          some (Function.update s.log object (s.log object ++ [content]), s.cache,
            answered c cmd (if answer = .ok then some (s.log object).length else none))
  | .flush version => some (s.log, Function.update s.cache key.1 none, .ret version)
  | .ret version => some (s.log, s.cache, .done version)
  | .done _ => none

/-- The write of a value of an object has returned. -/
def Thread.acked (object : Bytes) : Thread → Option Nat
  | .write key cmd (.done version) => if cmd.object su key = object then version else none
  | _ => none

/-- The last value of an object whose write has returned; 0 is the first one. -/
def State.acked (s : State) (object : Bytes) : Nat :=
  (s.threads.filterMap (Thread.acked su object)).foldr max 0

/-- What happens: a command begins, a thread makes a step, or the cache drops an entry. -/
inductive Event where
  | get (key : CStr)
  | write (key : CStr) (cmd : Command)
  | move (n : Nat) (io : Io)
  | evict (key : Bytes)

/-- One step of the client. -/
def step (s : State) (e : Event) : Option State :=
  match e with
  | .get key => some { s with threads := s.threads ++ [.get key (s.acked su key.1) .look] }
  | .write key cmd => some { s with threads := s.threads ++ [.write key cmd .send] }
  | .move n io =>
      s.threads[n]?.bind fun
        | .get key since pc => (getStep su c s key.1 io pc).map fun r =>
            { s with cache := r.1, threads := s.threads.set n (.get key since r.2) }
        | .write key cmd pc => (writeStep su c s key cmd io pc).map fun r =>
            { log := r.1, cache := r.2.1, threads := s.threads.set n (.write key cmd r.2.2) }
  | .evict key => some { s with cache := Function.update s.cache key none }

/-- **Every get has returned the last value whose write had returned before it began, or a later
one.** -/
def Fresh (s : State) : Prop :=
  ∀ key since v, .get key since (.done (some v)) ∈ s.threads →
    ∃ i content, since ≤ i ∧ (s.log key.1)[i]? = some content ∧ readData su c content = some v.data

/-- The write of a value of an object has returned, or has flushed the object. -/
def Thread.settled (object : Bytes) : Thread → Option Nat
  | .write key cmd (.done version) => if cmd.object su key = object then version else none
  | .write key cmd (.ret version) =>
      if cmd.object su key = object ∧ key.1 = object ∧ cmd.flushes c version then version else none
  | _ => none

/-- No fill stores a value older than one whose write has flushed the object, and no write returns
while the cache has an older value of the object. -/
def SafeThread (s : State) : Thread → Prop
  | .get key _ (.fill (some v)) =>
      ∀ t ∈ s.threads, ∀ w ∈ t.settled su c key.1, w ≤ v.version
  | .write key cmd (.ret (some w)) =>
      ∀ v ∈ (s.cache (cmd.object su key)).join, w ≤ v.version
  | _ => True

@[inherit_doc SafeThread]
def Safe (s : State) (e : Event) : Prop :=
  match e with
  | .move n _ => ∀ t ∈ s.threads[n]?, SafeThread su c s t
  | _ => True

instance (s : State) : (t : Thread) → Decidable (SafeThread su c s t)
  | .get key _ (.fill (some v)) => inferInstanceAs (Decidable
      (∀ t ∈ s.threads, ∀ w ∈ t.settled su c key.1, w ≤ v.version))
  | .write key cmd (.ret (some w)) => inferInstanceAs (Decidable
      (∀ v ∈ (s.cache (cmd.object su key)).join, w ≤ v.version))
  | .get _ _ (.fill none) | .get _ _ .look | .get _ _ .wait | .get _ _ .fetch | .get _ _ (.done _)
  | .write _ _ .send | .write _ _ (.flush _) | .write _ _ (.ret none) | .write _ _ (.done _) =>
      inferInstanceAs (Decidable True)

instance (s : State) : (e : Event) → Decidable (Safe su c s e)
  | .move n _ => inferInstanceAs (Decidable (∀ t ∈ s.threads[n]?, SafeThread su c s t))
  | .get _ | .write _ _ | .evict _ => inferInstanceAs (Decidable True)

/-! ## Freshness -/

variable {su c}

/-- The value was read from the value of the object with its number. -/
def Valid (su : Setup) (c : Client) (log : Log) (key : Bytes) (v : Value) : Prop :=
  ∃ content, (log key)[v.version]? = some content ∧ readData su c content = some v.data

/-- The value a thread has got. -/
def GetPc.got : GetPc → Option Value
  | .fill got | .done got => got
  | _ => none

/-- The number of the value a write has made. -/
def WritePc.version : WritePc → Option Nat
  | .flush version | .ret version | .done version => version
  | .send => none

/-- What holds of a thread: a get has got nothing older than the value it began with, and that is
the first one or one whose write has returned. -/
def Good (su : Setup) (c : Client) (s : State) : Thread → Prop
  | .get key since pc =>
      (since = 0 ∨ ∃ t ∈ s.threads, t.acked su key.1 = some since) ∧
        ∀ v ∈ pc.got, Valid su c s.log key.1 v ∧ since ≤ v.version
  | .write key cmd pc => ∀ w ∈ pc.version, w < (s.log (cmd.object su key)).length

/-- The invariant: the cache has no value that is older than one whose write has flushed the object
or has returned. -/
structure Inv (su : Setup) (c : Client) (s : State) : Prop where
  values : ∀ object, s.log object ≠ []
  valid : ∀ key v, s.cache key = some (some v) → Valid su c s.log key v
  settled : ∀ key v, s.cache key = some (some v) →
    ∀ t ∈ s.threads, ∀ w ∈ t.settled su c key, w ≤ v.version
  good : ∀ t ∈ s.threads, Good su c s t

/-- What has returned has settled. -/
theorem settled_of_acked {t : Thread} {object : Bytes} {w : Nat} (h : t.acked su object = some w) :
    t.settled su c object = some w := by
  cases t with
  | get key since pc => exact absurd h (by simp [Thread.acked])
  | write key cmd pc =>
      cases pc with
      | done version => exact h
      | send => exact absurd h (by simp [Thread.acked])
      | flush version => exact absurd h (by simp [Thread.acked])
      | ret version => exact absurd h (by simp [Thread.acked])

/-- The largest of some numbers is 0 or one of them. -/
theorem foldr_max_mem (l : List Nat) : l.foldr max 0 = 0 ∨ l.foldr max 0 ∈ l := by
  induction l with
  | nil => exact Or.inl rfl
  | cons w l ih =>
      rw [List.foldr_cons]
      rcases le_total (l.foldr max 0) w with hle | hle
      · rw [max_eq_left hle]
        exact Or.inr (by simp)
      · rw [max_eq_right hle]
        exact ih.imp id (List.mem_cons_of_mem w)

/-- A get begins with the first value, or with one whose write has returned. -/
theorem acked_cases (s : State) (object : Bytes) :
    s.acked su object = 0 ∨ ∃ t ∈ s.threads, t.acked su object = some (s.acked su object) := by
  rcases foldr_max_mem (s.threads.filterMap (Thread.acked su object)) with h | h
  · exact Or.inl h
  · exact Or.inr (List.mem_filterMap.mp h)

/-- No write that has returned made a later value. -/
theorem le_acked {s : State} {object : Bytes} {t : Thread} {w : Nat} (ht : t ∈ s.threads)
    (hw : t.acked su object = some w) : w ≤ s.acked su object := by
  have hle : ∀ l : List Nat, w ∈ l → w ≤ l.foldr max 0 := by
    intro l hl
    induction l with
    | nil => exact absurd hl List.not_mem_nil
    | cons x l ih =>
        rcases List.mem_cons.mp hl with rfl | hl
        · exact le_max_left _ _
        · exact le_trans (ih hl) (le_max_right _ _)
  exact hle _ (List.mem_filterMap.mpr ⟨t, ht, hw⟩)

/-- Values stay where they are when a newer one comes. -/
theorem Valid.append {log log' : Log} {key : Bytes} {v : Value} (h : Valid su c log key v)
    (hlog : log key <+: log' key) : Valid su c log' key v := by
  obtain ⟨content, hcontent, hdata⟩ := h
  obtain ⟨more, hmore⟩ := hlog
  obtain ⟨hlt, -⟩ := List.getElem?_eq_some_iff.mp hcontent
  exact ⟨content, by rw [← hmore, List.getElem?_append_left hlt, hcontent], hdata⟩

section Step

variable {s : State} {n : Nat} {t : Thread}

/-- What has returned stays so when another thread makes a step. -/
theorem acked_set (hn : s.threads[n]? = some t) {t' u : Thread} {object : Bytes} {w : Nat}
    (hkeep : t.acked su object = some w → t'.acked su object = some w)
    (hu : u ∈ s.threads) (hw : u.acked su object = some w) :
    ∃ u' ∈ s.threads.set n t', u'.acked su object = some w := by
  obtain ⟨hlt, rfl⟩ := List.getElem?_eq_some_iff.mp hn
  obtain ⟨m, hm, rfl⟩ := List.getElem_of_mem hu
  by_cases hmn : m = n
  · subst hmn
    exact ⟨t', List.mem_iff_getElem.mpr ⟨m, by simpa using hm, by simp⟩, hkeep hw⟩
  · refine ⟨s.threads[m], List.mem_iff_getElem.mpr ⟨m, by simpa using hm, ?_⟩, hw⟩
    rw [List.getElem_set_ne (fun h => hmn h.symm)]

/-- **A step of a get.** What it puts into the cache is not too old, and neither is what it has. -/
theorem Inv.get (h : Inv su c s) {key : CStr} {since : Nat} {pc pc' : GetPc} {cache : Cache}
    (hn : s.threads[n]? = some (.get key since pc))
    (hcache : ∀ k v, cache k = some (some v) → s.cache k = some (some v) ∨
      k = key.1 ∧ Valid su c s.log k v ∧
        ∀ t ∈ s.threads, ∀ w ∈ t.settled su c k, w ≤ v.version)
    (hpc : ∀ v ∈ pc'.got, Valid su c s.log key.1 v ∧ since ≤ v.version) :
    Inv su c { s with cache := cache, threads := s.threads.set n (.get key since pc') } := by
  have hmem : .get key since pc ∈ s.threads := List.mem_of_getElem? hn
  have hkeep : ∀ object w, (Thread.get key since pc).acked su object = some w →
      (Thread.get key since pc').acked su object = some w := fun _ _ h => h
  refine ⟨h.values, ?_, ?_, ?_⟩
  · intro k v hv
    rcases hcache k v hv with hold | ⟨rfl, hvalid, -⟩
    · exact h.valid k v hold
    · exact hvalid
  · intro k v hv t ht w hw
    rcases List.mem_or_eq_of_mem_set ht with ht | rfl
    · rcases hcache k v hv with hold | ⟨rfl, -, hsettled⟩
      · exact h.settled k v hold t ht w hw
      · exact hsettled t ht w hw
    · exact absurd hw (by simp [Thread.settled])
  · intro t ht
    rcases List.mem_or_eq_of_mem_set ht with ht | rfl
    · have hgood := h.good t ht
      cases t with
      | get k b p =>
          refine ⟨hgood.1.imp id ?_, hgood.2⟩
          rintro ⟨u, hu, hw⟩
          exact acked_set hn (hkeep _ _) hu hw
      | write k cmd p => exact hgood
    · refine ⟨(h.good _ hmem).1.imp id ?_, hpc⟩
      rintro ⟨u, hu, hw⟩
      exact acked_set hn (hkeep _ _) hu hw

/-- What a get finds in the cache is not older than the value it began with. -/
theorem Inv.found (h : Inv su c s) {key : CStr} {since : Nat} {pc : GetPc}
    (hmem : .get key since pc ∈ s.threads) :
    ∀ v ∈ (SobCache.found (s.cache key.1)).got, Valid su c s.log key.1 v ∧ since ≤ v.version := by
  intro v hv
  have hentry : s.cache key.1 = some (some v) := by
    unfold SobCache.found at hv
    split at hv
    · exact absurd hv (by simp [GetPc.got])
    · exact absurd hv (by simp [GetPc.got])
    · rename_i u hu
      obtain rfl : u = v := by simpa [GetPc.got] using hv
      exact hu
  refine ⟨h.valid _ v hentry, ?_⟩
  obtain ⟨hsince, -⟩ := h.good _ hmem
  rcases hsince with rfl | ⟨t, ht, hw⟩
  · exact Nat.zero_le _
  · exact h.settled _ v hentry t ht since (settled_of_acked hw)

/-- What the server answers is the last value of the object. -/
theorem Inv.fetched (h : Inv su c s) {key : CStr} {since : Nat} {pc : GetPc}
    (hmem : .get key since pc ∈ s.threads) {answer : Answer} :
    ∀ v ∈ SobCache.fetched su c s.log key.1 answer,
      Valid su c s.log key.1 v ∧ since ≤ v.version := by
  intro v hv
  unfold SobCache.fetched at hv
  split_ifs at hv
  · obtain ⟨data, hdata, rfl⟩ := Option.map_eq_some_iff.mp hv
    have hne := h.values key.1
    have hpos := List.length_pos_iff.mpr hne
    refine ⟨⟨(s.log key.1).getLast hne, ?_, ?_⟩, ?_⟩
    · rw [← List.getLast?_eq_getElem?, List.getLast?_eq_some_getLast hne]
    · rw [List.getLast?_eq_some_getLast hne] at hdata
      exact hdata
    · -- the value it began with is one of the object
      show since ≤ (s.log key.1).length - 1
      obtain ⟨hsince, -⟩ := h.good _ hmem
      rcases hsince with rfl | ⟨t, ht, hw⟩
      · exact Nat.zero_le _
      · cases t with
        | get k b p => exact absurd hw (by simp [Thread.acked])
        | write k cmd p =>
            cases p with
            | done version =>
                simp only [Thread.acked] at hw
                split_ifs at hw with hobject
                have hlt := h.good _ ht since hw
                rw [hobject] at hlt
                omega
            | send => exact absurd hw (by simp [Thread.acked])
            | flush version => exact absurd hw (by simp [Thread.acked])
            | ret version => exact absurd hw (by simp [Thread.acked])
  · exact absurd hv (by simp)

/-- The step of a get. -/
theorem Inv.getStep (h : Inv su c s) {key : CStr} {since : Nat} {pc pc' : GetPc} {io : Io}
    {cache : Cache} (hn : s.threads[n]? = some (.get key since pc))
    (hsafe : SafeThread su c s (.get key since pc))
    (hstep : getStep su c s key.1 io pc = some (cache, pc')) :
    Inv su c { s with cache := cache, threads := s.threads.set n (.get key since pc') } := by
  have hmem : .get key since pc ∈ s.threads := List.mem_of_getElem? hn
  have hsame : ∀ k v, s.cache k = some (some v) → s.cache k = some (some v) ∨
      k = key.1 ∧ Valid su c s.log k v ∧
        ∀ t ∈ s.threads, ∀ w ∈ t.settled su c k, w ≤ v.version := fun _ _ hv => Or.inl hv
  cases pc with
  | look =>
      simp only [SobCache.getStep] at hstep
      split_ifs at hstep with hmiss hcached
      · obtain ⟨rfl, rfl⟩ := Prod.mk.inj (Option.some.inj hstep)
        refine h.get hn (fun k v hv => ?_) (fun v hv => absurd hv (by simp [GetPc.got]))
        by_cases hk : k = key.1
        · subst hk
          rw [Function.update_self] at hv
          exact absurd hv (by simp)
        · rw [Function.update_of_ne hk] at hv
          exact Or.inl hv
      · obtain ⟨rfl, rfl⟩ := Prod.mk.inj (Option.some.inj hstep)
        exact h.get hn hsame (h.found hmem)
      · obtain ⟨rfl, rfl⟩ := Prod.mk.inj (Option.some.inj hstep)
        exact h.get hn hsame (fun v hv => absurd hv (by simp [GetPc.got]))
  | wait =>
      obtain ⟨rfl, rfl⟩ := Prod.mk.inj (Option.some.inj hstep)
      refine h.get hn hsame ?_
      split_ifs
      · exact fun v hv => absurd hv (by simp [GetPc.got])
      · exact h.found hmem
  | fetch =>
      obtain ⟨rfl, rfl⟩ := Prod.mk.inj (Option.some.inj hstep)
      refine h.get hn hsame ?_
      split_ifs
      · exact h.fetched hmem
      · exact h.fetched hmem
  | fill got =>
      obtain ⟨rfl, rfl⟩ := Prod.mk.inj (Option.some.inj hstep)
      have hgood := (h.good _ hmem).2
      refine h.get hn (fun k v hv => ?_) hgood
      by_cases hk : k = key.1
      · subst hk
        rw [Function.update_self] at hv
        obtain ⟨u, rfl, hu⟩ := Option.map_eq_some_iff.mp hv
        obtain rfl := Option.some.inj hu
        exact Or.inr ⟨rfl, (hgood u rfl).1, hsafe⟩
      · rw [Function.update_of_ne hk] at hv
        exact Or.inl hv
  | done got => exact absurd hstep (by simp [SobCache.getStep])

/-- **A step of a write.** Values are only added, and the cache has none older than one that has
settled now. -/
theorem Inv.write (h : Inv su c s) {key : CStr} {cmd : Command} {pc pc' : WritePc} {log : Log}
    {cache : Cache} (hn : s.threads[n]? = some (.write key cmd pc))
    (hlog : ∀ object, s.log object <+: log object)
    (hcache : ∀ k v, cache k = some (some v) → s.cache k = some (some v))
    (hver : ∀ w ∈ pc'.version, w < (log (cmd.object su key)).length)
    (hdone : ∀ version, pc ≠ .done version)
    (hnew : ∀ k v, cache k = some (some v) →
      ∀ w ∈ (Thread.write key cmd pc').settled su c k, w ≤ v.version) :
    Inv su c { log := log, cache := cache, threads := s.threads.set n (.write key cmd pc') } := by
  have hkeep : ∀ object w, (Thread.write key cmd pc).acked su object = some w →
      (Thread.write key cmd pc').acked su object = some w := by
    intro object w hw
    cases pc with
    | done version => exact absurd rfl (hdone version)
    | send => exact absurd hw (by simp [Thread.acked])
    | flush version => exact absurd hw (by simp [Thread.acked])
    | ret version => exact absurd hw (by simp [Thread.acked])
  refine ⟨?_, ?_, ?_, ?_⟩
  · intro object hnil
    obtain ⟨more, hmore⟩ := hlog object
    exact h.values object (List.append_eq_nil_iff.mp (hmore.trans hnil)).1
  · intro k v hv
    exact (h.valid k v (hcache k v hv)).append (hlog k)
  · intro k v hv t ht w hw
    rcases List.mem_or_eq_of_mem_set ht with ht | rfl
    · exact h.settled k v (hcache k v hv) t ht w hw
    · exact hnew k v hv w hw
  · intro t ht
    rcases List.mem_or_eq_of_mem_set ht with ht | rfl
    · have hgood := h.good t ht
      cases t with
      | get k b p =>
          refine ⟨hgood.1.imp id ?_, fun v hv => ?_⟩
          · rintro ⟨u, hu, hw⟩
            exact acked_set hn (hkeep _ _) hu hw
          · exact ⟨(hgood.2 v hv).1.append (hlog k.1), (hgood.2 v hv).2⟩
      | write k cmd' p =>
          intro w hw
          exact Nat.lt_of_lt_of_le (hgood w hw) (hlog _).length_le
    · exact hver

/-- The number of the value a write has made is the one it was answered with. -/
@[simp] theorem answered_version (cmd : Command) (version : Option Nat) :
    (answered c cmd version).version = version := by
  unfold answered
  split_ifs <;> rfl

/-- A write that has its answer has flushed nothing yet. -/
theorem settled_answered (key : CStr) (cmd : Command) (version : Option Nat) (k : Bytes) :
    (Thread.write key cmd (answered c cmd version)).settled su c k = none := by
  unfold answered
  split_ifs with hflush
  · rfl
  · simp [Thread.settled, hflush]

/-- The step of a write. -/
theorem Inv.writeStep (h : Inv su c s) {key : CStr} {cmd : Command} {pc pc' : WritePc} {io : Io}
    {log : Log} {cache : Cache} (hn : s.threads[n]? = some (.write key cmd pc))
    (hsafe : SafeThread su c s (.write key cmd pc))
    (hstep : writeStep su c s key cmd io pc = some (log, cache, pc')) :
    Inv su c { log := log, cache := cache, threads := s.threads.set n (.write key cmd pc') } := by
  have hmem : .write key cmd pc ∈ s.threads := List.mem_of_getElem? hn
  have hgood := h.good _ hmem
  have hsame : ∀ object, s.log object <+: s.log object := fun _ => List.prefix_rfl
  cases pc with
  | send =>
      have hnone : ∀ version k v, s.cache k = some (some v) →
          ∀ w ∈ (Thread.write key cmd (answered c cmd version)).settled su c k, w ≤ v.version := by
        intro version k v _ w hw
        rw [settled_answered] at hw
        exact absurd hw (by simp)
      simp only [SobCache.writeStep] at hstep
      split at hstep
      · obtain ⟨rfl, hrest⟩ := Prod.mk.inj (Option.some.inj hstep)
        obtain ⟨rfl, rfl⟩ := Prod.mk.inj hrest
        exact h.write hn hsame (fun _ _ hv => hv) (by simp) (by simp) (hnone none)
      · obtain ⟨rfl, hrest⟩ := Prod.mk.inj (Option.some.inj hstep)
        obtain ⟨rfl, rfl⟩ := Prod.mk.inj hrest
        exact h.write hn hsame (fun _ _ hv => hv) (by simp) (by simp) (hnone none)
      · rename_i content _ _
        obtain ⟨rfl, hrest⟩ := Prod.mk.inj (Option.some.inj hstep)
        obtain ⟨rfl, rfl⟩ := Prod.mk.inj hrest
        refine h.write hn (fun object => ?_) (fun _ _ hv => hv) ?_ (by simp) (hnone _)
        · by_cases hobject : object = cmd.object su key
          · subst hobject
            rw [Function.update_self]
            exact List.prefix_append _ _
          · simp [Function.update_of_ne hobject]
        · intro w hw
          rw [answered_version] at hw
          split_ifs at hw
          · obtain rfl := Option.some.inj hw
            simp
          · exact absurd hw (by simp)
  | flush version =>
      obtain ⟨rfl, hrest⟩ := Prod.mk.inj (Option.some.inj hstep)
      obtain ⟨rfl, rfl⟩ := Prod.mk.inj hrest
      have hgone : ∀ k v, Function.update s.cache key.1 none k = some (some v) →
          k ≠ key.1 ∧ s.cache k = some (some v) := by
        intro k v hv
        by_cases hk : k = key.1
        · subst hk
          rw [Function.update_self] at hv
          exact absurd hv (by simp)
        · rw [Function.update_of_ne hk] at hv
          exact ⟨hk, hv⟩
      refine h.write hn hsame (fun k v hv => (hgone k v hv).2) hgood (by simp) ?_
      intro k v hv w hw
      simp only [Thread.settled] at hw
      split_ifs at hw with hsettled
      · exact absurd hsettled.2.1.symm (hgone k v hv).1
      · exact absurd hw (by simp)
  | ret version =>
      obtain ⟨rfl, hrest⟩ := Prod.mk.inj (Option.some.inj hstep)
      obtain ⟨rfl, rfl⟩ := Prod.mk.inj hrest
      refine h.write hn hsame (fun _ _ hv => hv) hgood (by simp) ?_
      intro k v hv w hw
      simp only [Thread.settled] at hw
      split_ifs at hw with hobject
      · obtain rfl : version = some w := hw
        refine hsafe v ?_
        rw [hobject, hv]
        rfl
      · exact absurd hw (by simp)
  | done version => exact absurd hstep (by simp [SobCache.writeStep])

end Step

/-- A command begins. -/
theorem Inv.begin {s : State} (h : Inv su c s) {t : Thread}
    (ht : (∃ key, t = .get key (s.acked su key.1) .look) ∨ ∃ key cmd, t = .write key cmd .send) :
    Inv su c { s with threads := s.threads ++ [t] } := by
  refine ⟨h.values, h.valid, ?_, ?_⟩
  · intro k v hv u hu w hw
    rcases List.mem_append.mp hu with hu | hu
    · exact h.settled k v hv u hu w hw
    · obtain rfl : u = t := by simpa using hu
      rcases ht with ⟨key, rfl⟩ | ⟨key, cmd, rfl⟩ <;> exact absurd hw (by simp [Thread.settled])
  · intro u hu
    rcases List.mem_append.mp hu with hu | hu
    · have hgood := h.good u hu
      cases u with
      | get key b p =>
          refine ⟨hgood.1.imp id ?_, hgood.2⟩
          rintro ⟨v, hv, hw⟩
          exact ⟨v, List.mem_append_left _ hv, hw⟩
      | write key cmd p => exact hgood
    · obtain rfl : u = t := by simpa using hu
      rcases ht with ⟨key, rfl⟩ | ⟨key, cmd, rfl⟩
      · refine ⟨(acked_cases s key.1).imp id ?_, fun v hv => absurd hv (by simp [GetPc.got])⟩
        rintro ⟨v, hv, hw⟩
        exact ⟨v, List.mem_append_left _ hv, hw⟩
      · exact fun w hw => absurd hw (by simp [WritePc.version])

/-- **What every safe step preserves.** -/
theorem Inv.step {s s' : State} {e : Event} (h : Inv su c s) (hsafe : Safe su c s e)
    (hstep : step su c s e = some s') : Inv su c s' := by
  cases e with
  | get key =>
      obtain rfl := Option.some.inj hstep
      exact h.begin (Or.inl ⟨key, rfl⟩)
  | write key cmd =>
      obtain rfl := Option.some.inj hstep
      exact h.begin (Or.inr ⟨key, cmd, rfl⟩)
  | move n io =>
      obtain ⟨t, hn, hstep⟩ := Option.bind_eq_some_iff.mp hstep
      cases t with
      | get key since pc =>
          obtain ⟨⟨cache, pc'⟩, hget, rfl⟩ := Option.map_eq_some_iff.mp hstep
          exact h.getStep hn (hsafe _ hn) hget
      | write key cmd pc =>
          obtain ⟨⟨log, cache, pc'⟩, hwrite, rfl⟩ := Option.map_eq_some_iff.mp hstep
          exact h.writeStep hn (hsafe _ hn) hwrite
  | evict key =>
      obtain rfl := Option.some.inj hstep
      have hgone : ∀ k v, Function.update s.cache key none k = some (some v) →
          s.cache k = some (some v) := by
        intro k v hv
        by_cases hk : k = key
        · subst hk
          rw [Function.update_self] at hv
          exact absurd hv (by simp)
        · rwa [Function.update_of_ne hk] at hv
      exact ⟨h.values, fun k v hv => h.valid k v (hgone k v hv),
        fun k v hv => h.settled k v (hgone k v hv), h.good⟩

/-- A client that has done nothing yet, with the objects of the server. -/
def idle (objects : Bytes → Option Bytes) : State := { log := fun object => [objects object] }

/-- **Gets are fresh.** In a run in which no fill stores a value older than a write that has
flushed the object, and no write returns while the cache has an older value of its object, every
get returns the last value whose write had returned before it began, or a later one. -/
theorem gets_fresh {objects : Bytes → Option Bytes} {es : List Event} {s : State}
    (hrun : run (step su c) (idle objects) es = some s)
    (hsafe : Along (step su c) (Safe su c) (idle objects) es) : Fresh su c s := by
  have hidle : Inv su c (idle objects) := by
    refine ⟨by simp [idle], ?_, ?_, ?_⟩
    · exact fun k v hv => absurd hv (by simp [idle])
    · exact fun k v hv => absurd hv (by simp [idle])
    · exact fun t ht => absurd ht (by simp [idle])
  have hinv := run_invariant (fun s e s' h hok hstep => Inv.step h hok hstep) hidle hsafe hrun
  intro key since v hv
  obtain ⟨⟨content, hcontent, hdata⟩, hle⟩ := (hinv.good _ hv).2 v rfl
  exact ⟨v.version, content, hle, hcontent, hdata⟩

/-! ## A put, a copy and a get -/

/-- A client of objects that flushes on write. -/
def flushing : Client := ⟨false, true, true⟩

/-- The object `k`, and what it is before and after the write. -/
def objectKey : CStr := toCStr (ascii "k")
@[inherit_doc objectKey] def oldText : Bytes := ascii "old"
@[inherit_doc objectKey] def newText : CStr := toCStr (ascii "new")

/-- All objects have the old text. -/
def oldObjects : Bytes → Option Bytes := fun _ => some oldText

/-- A put that ends while a get has the old text in its hands, and one get more. -/
def lateFill : List Event :=
  [.get objectKey, .move 0 {}, .move 0 {}, .write objectKey (.put newText), .move 1 {}, .move 1 {},
    .move 1 {}, .move 0 {}, .get objectKey, .move 2 {}]

/-- A get, a put and one get more, in turn. -/
def oneByOne : List Event :=
  [.get objectKey, .move 0 {}, .move 0 {}, .move 0 {}, .write objectKey (.put newText), .move 1 {},
    .move 1 {}, .move 1 {}, .get objectKey, .move 2 {}, .move 2 {}, .move 2 {}]

/-- A get, a copy and one get more, in turn. -/
def copied : List Event :=
  [.get objectKey, .move 0 {}, .move 0 {}, .move 0 {}, .write objectKey (.copy newText.1),
    .move 1 {}, .move 1 {}, .get objectKey, .move 2 {}]

/-- The gets of a run in turn are fresh. -/
theorem gets_fresh_oneByOne : ∃ s,
    run (step boardSetup flushing) (idle oldObjects) oneByOne = some s ∧
      Fresh boardSetup flushing s := by
  have hsome : (run (step boardSetup flushing) (idle oldObjects) oneByOne).isSome := by decide
  obtain ⟨s, hrun⟩ := Option.isSome_iff_exists.mp hsome
  exact ⟨s, hrun, gets_fresh hrun (by decide)⟩

/-- A get that begins with the second value of an object and returns the first is not fresh. -/
theorem not_fresh {s : State} (hget : .get objectKey 1 (.done (some ⟨oldText, 0⟩)) ∈ s.threads)
    {written : Bytes} (hlog : s.log objectKey.1 = [some oldText, some written])
    (hnew : readData boardSetup flushing (some written) ≠ some oldText) :
    ¬ Fresh boardSetup flushing s := by
  intro h
  obtain ⟨i, content, hi, hcontent, hdata⟩ := h objectKey 1 ⟨oldText, 0⟩ hget
  rw [hlog] at hcontent
  obtain ⟨hlt, -⟩ := List.getElem?_eq_some_iff.mp hcontent
  obtain rfl : i = 1 := by simp at hlt; omega
  obtain rfl : some written = content := by simpa using hcontent
  exact hnew hdata

/-- **A get returns the old text after a put of the new one has returned.** -/
theorem late_fill_stale : ∃ s,
    run (step boardSetup flushing) (idle oldObjects) lateFill = some s ∧
      ¬ Fresh boardSetup flushing s := by
  have hend : (run (step boardSetup flushing) (idle oldObjects) lateFill).map (fun s =>
      (s.threads[2]?, s.log objectKey.1)) =
        some (some (.get objectKey 1 (.done (some ⟨oldText, 0⟩))),
          [some oldText, some (newText.1 ++ [10])]) := by decide
  obtain ⟨s, hrun, hs⟩ := Option.map_eq_some_iff.mp hend
  obtain ⟨hget, hlog⟩ := Prod.mk.inj hs
  exact ⟨s, hrun, not_fresh (List.mem_of_getElem? hget) hlog (by decide)⟩

/-- A copy leaves the old text in the cache, with no other thread at work. -/
theorem copy_stale : ∃ s,
    run (step boardSetup flushing) (idle oldObjects) copied = some s ∧
      ¬ Fresh boardSetup flushing s := by
  have hend : (run (step boardSetup flushing) (idle oldObjects) copied).map (fun s =>
      (s.threads[2]?, s.log objectKey.1)) =
        some (some (.get objectKey 1 (.done (some ⟨oldText, 0⟩))),
          [some oldText, some newText.1]) := by decide
  obtain ⟨s, hrun, hs⟩ := Option.map_eq_some_iff.mp hend
  obtain ⟨hget, hlog⟩ := Prod.mk.inj hs
  exact ⟨s, hrun, not_fresh (List.mem_of_getElem? hget) hlog (by decide)⟩

end Nsdci.SobCache
