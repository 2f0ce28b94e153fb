import Nsdci.Lib.Places
import Nsdci.Lib.Table

/-!
# The lifetime of HTTP requests (`http.c`)

A request is opened by a command, handed to the task threads, found again in the table of the
interpreter by the command that waits for it or cancels it, and closed by this. The state has every
request that was ever made, the tables, what each interpreter is about to do, and the requests that
were freed and closed. The commands of different interpreters and the callbacks of the task threads
go on in any order.

The task threads are not part of the source. `Ns_TaskEnqueue` hands a task over or does not,
callbacks come until one of them calls `Ns_TaskDone`, `Ns_TaskRun` makes them in its own thread, and
`Ns_TaskWait` returns when a task is done or the time is over, at once for a task that was not
handed over.
-/

namespace Nsdci.HttpLifetime

open Lib Function

/-- The errors of a request. -/
inductive HttpError where
  | send | recv | copy | timeout | shutdown | cancelled
  deriving DecidableEq

/-- `Http`: the memory it has, whether `HttpOpen` returned it, its `FLAG_ASYNC`, its error, and its
task: whether it was handed over, cancelled, and done. -/
structure Http where
  block : Nat
  opened : Bool
  async : Bool
  error : Option HttpError
  enqueued : Bool
  cancelled : Bool
  done : Bool
  deriving DecidableEq

/-- What an interpreter is about to do: nothing, or the next part of `HttpQueue`, `HttpGet2`, a
wait (with a time for `ns_http wait`), `HttpAbort` or `HttpCleanup`. -/
inductive Pc where
  | idle
  | queuing (i : Nat)
  | inserting (i : Nat)
  | getting (i : Nat)
  | waiting (i : Nat) (timed : Bool)
  | aborting (i : Nat)
  | cleaning (names : List Nat)
  | cleanAbort (name : Nat) (names : List Nat)
  deriving DecidableEq

/-- The request that a command has taken for itself. -/
def Pc.held : Pc → List Nat
  | .queuing i | .inserting i | .getting i | .waiting i _ | .aborting i => [i]
  | .idle | .cleaning _ | .cleanAbort _ _ => []

/-- The table of an interpreter: a request for the number of its name. -/
abbrev Names := AList fun _ : Nat => Nat

/-- The state. `free` is the list of free memory, and `nblocks` is how much there is. -/
structure State where
  async : Bool
  https : List Http
  free : List Nat
  nblocks : Nat
  tables : Nat → Names
  pcs : Nat → Pc
  freed : List Nat
  closed : List Nat

/-- Nothing was opened yet. -/
def State.init : State := ⟨true, [], [], 0, fun _ => ∅, fun _ => .idle, [], []⟩

/-! ## The functions -/

/-- What an open may find: a URL that is none, no connection, or one. -/
inductive Opened where
  | invalid | noconn | ok

/-- `HttpFree`. -/
def httpFree (s : State) (i : Nat) (h : Http) : State :=
  { s with free := h.block :: s.free, freed := i :: s.freed }

/-- `HttpClose`. -/
def httpClose (s : State) (i : Nat) (h : Http) : State :=
  { httpFree s i h with closed := i :: s.closed }

/-- The memory of a new request, what is left of the free memory, and how much there is. -/
def alloc (s : State) : Nat × List Nat × Nat :=
  match s.free with
  | block :: free => (block, free, s.nblocks)
  | [] => (s.nblocks, [], s.nblocks + 1)

/-- A new request. -/
def newHttp (s : State) (opened : Bool) : Http :=
  ⟨(alloc s).1, opened, s.async, none, false, false, false⟩

/-- The first part of `HttpOpen`: a request is made. -/
def httpAlloc (s : State) (opened : Bool) : State :=
  { s with
    https := s.https ++ [newHttp s opened]
    free := (alloc s).2.1
    nblocks := (alloc s).2.2 }

/-- `HttpOpen` without a connection, which frees the request. -/
def httpOpenFailed (s : State) : State :=
  httpFree (httpAlloc s false) s.https.length (newHttp s false)

/-- What `recv` gives, and the copy of the content. -/
inductive Recv where
  | failed | eof | copied | copyError

/-- Why a task calls back, with what `send` or `recv` gives. -/
inductive Why where
  | init
  | write (failed : Bool)
  | read (result : Recv)
  | timeout | exit | cancel

/-- A request that is done, with an error or without. -/
def Http.finish (h : Http) (error : Option HttpError) : Http :=
  { h with error := error, done := true }

/-- `HttpProc`. -/
def httpProc (h : Http) : Why → Http
  | .init | .write false | .read .copied => h
  | .write true => h.finish (some .send)
  | .read .failed => h.finish (some .recv)
  | .read .eof => h.finish h.error
  | .read .copyError => h.finish (some .copy)
  | .timeout => h.finish (some .timeout)
  | .exit => h.finish (some .shutdown)
  | .cancel => h.finish (some .cancelled)

/-- What an interpreter does next. -/
def State.goto (s : State) (k : Nat) (pc : Pc) : State := { s with pcs := update s.pcs k pc }

/-- A request is changed. -/
def State.setHttp (s : State) (i : Nat) (h : Http) : State := { s with https := s.https.set i h }

/-- A table is changed. -/
def State.setNames (s : State) (k : Nat) (names : Names) : State :=
  { s with tables := update s.tables k names }

/-- The number of a new name: the first one from the size of the table on that is not there. -/
def newName (names : Names) : Nat :=
  ((List.range' names.keys.length (names.keys.length + 1)).find? fun n => n ∉ names.keys).getD 0

/-- A task is cancelled. -/
def Http.cancel (h : Http) : Http := { h with cancelled := true }

/-- `Ns_TaskWait` returns without a time: the task is done, or was not handed over. -/
def Http.Waited (h : Http) : Prop := h.enqueued = true → h.done = true

instance (h : Http) : Decidable h.Waited := inferInstanceAs (Decidable (_ → _))

/-- `HttpAbort` up to its wait. -/
def httpCancel (h : Http) : Http := if h.async then h.cancel else h

/-- A call back for a task that is not done. Only one that was cancelled is told so. -/
def callback (s : State) (i : Nat) (h : Http) (why : Why) : Option State :=
  match why with
  | .cancel => if h.cancelled ∧ ¬ h.done then some (s.setHttp i (httpProc h why)) else none
  | _ => if ¬ h.done then some (s.setHttp i (httpProc h why)) else none

/-- A command runs the task of a request itself: `HttpGet2`, and a wait for one that was not handed
over. -/
def Pc.Runs (pc : Pc) (i : Nat) (h : Http) : Prop :=
  pc = .getting i ∨ h.async = false ∧ ∃ timed, pc = .waiting i timed

/-! ## The system -/

/-- What happens: `ns_http async`; a request is opened, to be queued or for a one-shot get; it is
handed over; it is entered in the table; a wait begins, ends, or ends for its time; `http.cancel`;
`ns_http cancel` begins, ends; a clean up begins, goes to the next entry, and closes one; a one-shot
get ends; a task thread calls back; and a command that runs a task itself does. -/
inductive Event where
  | async (value : Bool)
  | openReq (k : Nat) (queue : Bool) (result : Opened)
  | enqueue (k : Nat) (ok : Bool)
  | insert (k : Nat)
  | wait (k name : Nat) (timed : Bool)
  | waited (k : Nat)
  | timeout (k : Nat)
  | cancel (k name : Nat) (ok : Bool)
  | abort (k name : Nat)
  | aborted (k : Nat)
  | cleanup (k : Nat)
  | clean (k : Nat)
  | cleaned (k : Nat)
  | got (k : Nat)
  | task (i : Nat) (why : Why)
  | run (k : Nat) (why : Why)

/-- One step. -/
def step (s : State) : Event → Option State
  | .async value => some { s with async := value }
  | .openReq k queue result =>
      match s.pcs k, result with
      | .idle, .invalid => some s
      | .idle, .noconn => some (httpOpenFailed s)
      | .idle, .ok =>
          some ((httpAlloc s true).goto k
            (if queue then .queuing s.https.length else .getting s.https.length))
      | _, _ => none
  | .enqueue k ok =>
      match s.pcs k with
      | .queuing i => s.https[i]?.map fun h =>
          if h.async then
            if ok then (s.setHttp i { h with enqueued := true }).goto k (.inserting i)
            else (httpClose s i h).goto k .idle
          else s.goto k (.inserting i)
      | _ => none
  | .insert k =>
      match s.pcs k with
      | .inserting i =>
          some ((s.setNames k ((s.tables k).insert (newName (s.tables k)) i)).goto k .idle)
      | _ => none
  | .wait k name timed =>
      match s.pcs k, (s.tables k).lookup name with
      | .idle, none => some s
      | .idle, some i => some ((s.setNames k ((s.tables k).erase name)).goto k (.waiting i timed))
      | _, _ => none
  | .waited k =>
      match s.pcs k with
      | .waiting i _ => s.https[i]?.bind fun h =>
          if h.done then some ((httpClose s i h).goto k .idle) else none
      | _ => none
  | .timeout k =>
      match s.pcs k with
      | .waiting i true => s.https[i]?.bind fun h =>
          if h.async then some (s.goto k .idle) else none
      | _ => none
  | .cancel k name ok =>
      match s.pcs k, (s.tables k).lookup name with
      | .idle, none => some s
      | .idle, some i => s.https[i]?.map fun h => if ok then s.setHttp i h.cancel else s
      | _, _ => none
  | .abort k name =>
      match s.pcs k, (s.tables k).lookup name with
      | .idle, none => some s
      | .idle, some i => s.https[i]?.map fun h =>
          ((s.setHttp i (httpCancel h)).setNames k ((s.tables k).erase name)).goto k (.aborting i)
      | _, _ => none
  | .aborted k =>
      match s.pcs k with
      | .aborting i => s.https[i]?.bind fun h =>
          if h.async → h.Waited then some ((httpClose s i h).goto k .idle) else none
      | _ => none
  | .cleanup k =>
      match s.pcs k with
      | .idle => some (s.goto k (.cleaning (s.tables k).keys))
      | _ => none
  | .clean k =>
      match s.pcs k with
      | .cleaning [] => some (s.goto k .idle)
      | .cleaning (name :: names) =>
          ((s.tables k).lookup name).bind fun i => s.https[i]?.map fun h =>
            (s.setHttp i (httpCancel h)).goto k (.cleanAbort name names)
      | _ => none
  | .cleaned k =>
      match s.pcs k with
      | .cleanAbort name names => ((s.tables k).lookup name).bind fun i => s.https[i]?.bind fun h =>
          if h.async → h.Waited then
            some (((httpClose s i h).setNames k ((s.tables k).erase name)).goto k (.cleaning names))
          else none
      | _ => none
  | .got k =>
      match s.pcs k with
      | .getting i => s.https[i]?.bind fun h =>
          if h.done then
            some (if h.error.isSome then s.goto k .idle else (httpClose s i h).goto k .idle)
          else none
      | _ => none
  | .task i why => s.https[i]?.bind fun h => if h.enqueued then callback s i h why else none
  | .run k why =>
      match s.pcs k with
      | .getting i => s.https[i]?.bind fun h => callback s i h why
      | .waiting i _ => s.https[i]?.bind fun h => if h.async then none else callback s i h why
      | _ => none

/-! ## What holds -/

/-- Where a request may be: freed, in a table, or taken by a command. -/
inductive Place where
  | freed
  | table (k : Nat)
  | held (k : Nat)
  deriving DecidableEq

/-- The requests in a table. -/
def values (names : Names) : List Nat := names.entries.map fun e => e.2

/-- The requests in a place. -/
def State.lists (s : State) : Place → List Nat
  | .freed => s.freed
  | .table k => values (s.tables k)
  | .held k => (s.pcs k).held

/-- A task may call back: it was handed over, or a command runs it. -/
def State.Called (s : State) (i : Nat) (h : Http) : Prop :=
  h.done = false ∧ (h.enqueued = true ∨ ∃ k, (s.pcs k).Runs i h)

/-- Every request was freed once, is in one table once, or is taken by one command; it was closed
once if it was opened and freed; no task calls back for one that was freed; and the memory of one
that was not freed is its own. -/
structure Right (s : State) : Prop where
  places : Places s.lists
  all : ∀ i < s.https.length, ∃ p, i ∈ s.lists p
  closed : s.closed.Nodup ∧ ∀ i, i ∈ s.closed ↔
    i ∈ s.freed ∧ ∃ h, s.https[i]? = some h ∧ h.opened = true
  callback : ∀ i h, s.https[i]? = some h → s.Called i h → i ∉ s.freed
  memory : ∀ i h, s.https[i]? = some h → i ∉ s.freed → h.block ∉ s.free ∧
    ∀ j h', s.https[j]? = some h' → j ∉ s.freed → h'.block = h.block → j = i

/-- No `ns_http wait` for a request that was handed over ends for its time, and no one-shot get ends
with an error. -/
def Safe (s : State) : Event → Prop
  | .timeout k => ∀ i h, s.pcs k = .waiting i true → s.https[i]? = some h → h.async = false
  | .got k => ∀ i h, s.pcs k = .getting i → s.https[i]? = some h → h.done = true → h.error = none
  | _ => True

/-! ## Call backs -/

/-- A task that calls back is called. -/
theorem called_of_callback {s s' : State} {i : Nat} {h : Http} {why : Why}
    (hcalls : h.enqueued = true ∨ ∃ k, (s.pcs k).Runs i h) (hstep : callback s i h why = some s') :
    s.Called i h := by
  refine ⟨?_, hcalls⟩
  unfold callback at hstep
  split at hstep
  · split_ifs at hstep with hdone
    exact Bool.eq_false_of_not_eq_true hdone.2
  · split_ifs at hstep with hdone
    exact Bool.eq_false_of_not_eq_true hdone

/-- **No task thread calls back for a request that was freed.** -/
theorem Right.task_notMem {s s' : State} {i : Nat} {why : Why} (hr : Right s)
    (hstep : step s (.task i why) = some s') : i ∉ s.freed := by
  obtain ⟨x, hx, hstep⟩ := Option.bind_eq_some_iff.mp hstep
  split_ifs at hstep with henqueued
  exact hr.callback i x hx (called_of_callback (Or.inl henqueued) hstep)

/-- **No command that runs a task itself calls back for a request that was freed.** -/
theorem Right.run_notMem {s s' : State} {k : Nat} {why : Why} (hr : Right s)
    (hstep : step s (.run k why) = some s') : ∃ i, (s.pcs k).held = [i] ∧ i ∉ s.freed := by
  simp only [step] at hstep
  split at hstep
  · rename_i i hpc
    obtain ⟨x, hx, hstep⟩ := Option.bind_eq_some_iff.mp hstep
    have hruns : (s.pcs k).Runs i x := Or.inl hpc
    refine ⟨i, by rw [hpc]; rfl, ?_⟩
    exact hr.callback i x hx (called_of_callback (Or.inr ⟨k, hruns⟩) hstep)
  · rename_i i timed hpc
    obtain ⟨x, hx, hstep⟩ := Option.bind_eq_some_iff.mp hstep
    split_ifs at hstep with hasync
    have hruns : (s.pcs k).Runs i x := Or.inr ⟨Bool.eq_false_of_not_eq_true hasync, timed, hpc⟩
    refine ⟨i, by rw [hpc]; rfl, ?_⟩
    exact hr.callback i x hx (called_of_callback (Or.inr ⟨k, hruns⟩) hstep)
  · exact absurd hstep (by simp)

end Nsdci.HttpLifetime
