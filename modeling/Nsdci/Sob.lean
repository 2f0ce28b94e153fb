import Nsdci.Rpc.Run

/-!
# Replicated objects (`sob.c`)

`nsob.put`, `nsob.append` and `nsob.delete` send one request to every server of a list with
`Dci_RpcRun`; `nsob.copy` sends a file to one server with `Dci_RpcSend`. A command is honest if
it succeeds only when every server did what it was asked for. The commands look at the result
code of a job, which `Dci_RpcRun` sets to 0 at the start, and not at its error; `nsob_honest_iff`
says when that is enough.
-/

namespace Nsdci

open Lib Rpc

/-- The fields of `Sob` that the commands use; `cached` says that `cache` is not `NULL`. -/
structure Sob where
  name : Bytes
  ncb : Bool
  cached : Bool
  flushOnWrite : Bool
  cfg : Config

namespace Sob

/-- Standard Tcl result codes. -/
inductive TclStatus where
  | ok | error
  deriving DecidableEq, Repr

/-- What `nsob.copy` finds when it opens and reads the file. -/
inductive File where
  | noStat (errno : Int)
  | notRegular
  | noOpen (errno : Int)
  | opened (size : Nat) (data : Option Bytes) (errno : Int)

/-- What the commands get from outside: the table of servers, Tcl's list functions and the
messages of the system, the file system, the connections and what happens on them. -/
structure Env where
  sobTable : Bytes → Option Sob
  splitList : Bytes → Except Bytes (List Bytes)
  appendElement : Bytes → Bytes → Bytes
  posixError : Int → Bytes
  file : Bytes → File
  lib : DStringLib
  tcl : TclGetInt
  arena : Arena
  gets : Nat → Option Conn
  rounds : List Round

/-- What a command leaves: its status and message, the servers whose cached copy was flushed,
and the jobs it ran. -/
structure Outcome where
  status : TclStatus
  text : Bytes
  flushed : List Bytes
  jobs : List Job

/-- A command that failed before it ran any job. -/
def Outcome.failed (text : Bytes) : Outcome := ⟨.error, text, [], []⟩

/-- The commands. -/
inductive Command where
  | put | append | copy | delete
  deriving DecidableEq, Repr

/-- `DCI_NFSCMDPUT` and so on. -/
def Command.code : Command → Int
  | .put => 2
  | .delete => 3
  | .copy => 4
  | .append => 5

variable (env : Env)

/-- `Dci_RpcTclError`. A positive error is taken for an `errno`. -/
def rpcTclError (err : Int) : Bytes :=
  if 0 < err then env.posixError err
  else if err = 0 then ascii "no error"
  else if err = -1 then ascii "no connection available"
  else if err = -8 then ascii "timeout waiting for response"
  else if err = -4 ∨ err = -5 then ascii "request I/O error"
  else if err = -2 ∨ err = -3 then ascii "server response error"
  else ascii "unknown DCIRPC error"

/-- `Tcl_AppendResult`: the strings up to the first `NULL`. -/
def appendResult (parts : List (Option Bytes)) : Bytes :=
  (parts.takeWhile Option.isSome).flatMap fun p => p.getD []

/-- `SobGetClient`. -/
def sobGetClient (name : Bytes) : Except Bytes Sob :=
  match env.sobTable name with
  | none => .error (ascii "no such sob server: " ++ name)
  | some sob => if sob.ncb then .error (ascii "not an ordinary sob server: " ++ name) else .ok sob

/-- The string that holds the request, with the given bytes. -/
def inputString (data : Bytes) : DString × Arena :=
  let (ds, arena) := env.arena.dsInit env.lib
  arena.nAppend env.lib ds data

/-- The job for one server. `result` and `error` are set by `Dci_RpcRun`. -/
def sobRequest (cmd : Command) (data : Bytes) (sob : Sob) : Request :=
  let (ds, arena) := inputString env data
  { cfg := sob.cfg
    job := { cmd := cmd.code, result := 0, error := .ok, inPtr := some ds, outPtr := none }
    arena := arena }

/-- The names and servers a list names. -/
def sobServers (servers : Bytes) : Except Bytes (List Bytes × List Sob) := do
  let names ← env.splitList servers
  let sobs ← names.mapM (sobGetClient env)
  return (names, sobs)

/-- The body `SobPutCmd` and `SobDeleteCmd` share. `label` is the name they report for job `i`.
-/
def sobWrite (cmd : Command) (message : Bytes) (label : List Bytes → Nat → Option Bytes)
    (servers : Bytes) (elements : List Bytes) : Outcome :=
  match sobServers env servers with
  | .error text => .failed text
  | .ok (names, sobs) =>
      let data := elements.foldl env.appendElement []
      let jobs := rpcRun env.lib env.tcl (sobs.map (sobRequest env cmd data)) env.gets env.rounds
      { status := if jobs.all fun job => job.result = 0 then .ok else .error
        text := jobs.zipIdx.flatMap fun job =>
          if job.1.result = 0 then []
          else appendResult [some message, label names job.2, some (ascii " : "),
            some (rpcTclError env job.1.result)]
        flushed := (sobs.filter fun sob => sob.flushOnWrite && sob.cached).map Sob.name
        jobs := jobs }

/-- `SobPutCmd`, for `nsob.put` and `nsob.append`. -/
def sobPutCmd (cmd : Command) : List Bytes → Outcome
  | [_, servers, key, data] =>
      sobWrite env cmd (ascii " could not write: ") (fun names i => names[i]?) servers [key, data]
  | argv => .failed (ascii "wrong # args: should be \"" ++ argv.headD [] ++
      ascii " server key data\"")

/-- `SobDeleteCmd`. Whichever server failed, it names the second of the list. -/
def sobDeleteCmd : List Bytes → Outcome
  | [_, servers, key] =>
      sobWrite env .delete (ascii " could not delete: ") (fun names _ => names[1]?) servers [key]
  | argv => .failed (ascii "wrong # args: should be \"" ++ argv.headD [] ++ ascii " server key\"")

/-- `SobCopyCmd`, once the file is read: the lengths of key and file, the key and the file are
sent. -/
def sobCopy (sob : Sob) (file key data : Bytes) : Outcome :=
  let request := sobRequest env .copy (be32 key.length ++ be32 data.length ++ key ++ data) sob
  let n := rpcTimedSend env.lib env.tcl request env.gets env.rounds
  let jobs := rpcRun env.lib env.tcl [request] env.gets env.rounds
  if n = 0 then ⟨.ok, [], [], jobs⟩
  else ⟨.error, ascii "could not save: " ++ file ++ ascii " : " ++ rpcTclError env n, [], jobs⟩

/-- `SobCopyCmd`. -/
def sobCopyCmd : List Bytes → Outcome
  | [_, file, server, key] =>
      let fail (what : String) (errno : Int) := Outcome.failed
        (ascii what ++ ascii " \"" ++ file ++ ascii "\": " ++ env.posixError errno)
      match sobGetClient env server with
      | .error text => .failed text
      | .ok sob =>
          match env.file file with
          | .noStat errno => fail "could not stat" errno
          | .notRegular => .failed (ascii "not a regular file: " ++ file)
          | .noOpen errno => fail "could not open" errno
          | .opened _ none errno => fail "could not read" errno
          | .opened size (some data) errno =>
              if int32 size = data.length then sobCopy env sob file key data
              else fail "could not read" errno
  | argv => .failed (ascii "wrong # args: should be \"" ++ argv.headD [] ++
      ascii " file server key\"")

/-- A command with its arguments. -/
def nsob : Command → List Bytes → Outcome
  | .put => sobPutCmd env .put
  | .append => sobPutCmd env .append
  | .copy => sobCopyCmd env
  | .delete => sobDeleteCmd env

/-- The list of servers a command is given: its second argument, or for `nsob.copy` one server,
the third. -/
def servers : Command → List Bytes → List Bytes
  | .copy, argv => (argv[2]?).toList
  | _, argv => match env.splitList (argv.getD 1 []) with
      | .ok names => names
      | .error _ => []

/-- A command is honest: it succeeds only if there was a job for every server, and every job was
completed and answered with success. -/
def Honest (cmd : Command) (argv : List Bytes) : Prop :=
  (nsob env cmd argv).status = .ok →
    (nsob env cmd argv).jobs.length = (servers env cmd argv).length ∧
      ∀ job ∈ (nsob env cmd argv).jobs, job.error = .ok ∧ job.result = 0

/-! ## Honesty -/

variable {env}

/-- The requests that `nsob.put`, `nsob.append` and `nsob.delete` hand to `Dci_RpcRun`, if they
get that far. -/
def requests (env : Env) : Command → List Bytes → Option (List Request)
  | .put, [_, servers, key, data] => (sobServers env servers).toOption.map fun s =>
      s.2.map (sobRequest env .put ([key, data].foldl env.appendElement []))
  | .append, [_, servers, key, data] => (sobServers env servers).toOption.map fun s =>
      s.2.map (sobRequest env .append ([key, data].foldl env.appendElement []))
  | .delete, [_, servers, key] => (sobServers env servers).toOption.map fun s =>
      s.2.map (sobRequest env .delete ([key].foldl env.appendElement []))
  | _, _ => none

/-- The exchange with server `i`: its request sent and its response received, over the connection
`RpcGet` gave and with what happened on that connection alone. -/
def exchangeOf (env : Env) (reqs : List Request) (i : Nat) : Option Job :=
  match reqs[i]?, env.gets i with
  | some q, some conn => some (exchange env.lib env.tcl q conn (env.rounds.map (· i)))
  | _, _ => none

/-- Every server gives a connection, and either every exchange is completed or some server
answers with a code that is no success. -/
def Settled (env : Env) (reqs : List Request) : Prop :=
  (∀ i < reqs.length, env.gets i ≠ none) ∧
    ((∀ i job, exchangeOf env reqs i = some job → job.error = .ok) ∨
      ∃ i job, exchangeOf env reqs i = some job ∧ job.result ≠ 0)

/-- The jobs after a run in which all have connections are the exchanges. -/
theorem mem_rpcRun_iff {reqs : List Request} (hgets : ∀ i < reqs.length, env.gets i ≠ none)
    (job : Job) : job ∈ rpcRun env.lib env.tcl reqs env.gets env.rounds ↔
      ∃ i, exchangeOf env reqs i = some job := by
  rw [rpcRun_eq, if_pos hgets, List.mem_mapIdx]
  constructor
  · rintro ⟨i, hi, heq⟩
    obtain ⟨conn, hconn⟩ := Option.ne_none_iff_exists'.mp (hgets i hi)
    refine ⟨i, ?_⟩
    rw [hconn] at heq
    simp [exchangeOf, hi, hconn, heq]
  · rintro ⟨i, hex⟩
    unfold exchangeOf at hex
    split at hex
    · rename_i q conn hq hconn
      obtain ⟨hi, hget⟩ := List.getElem?_eq_some_iff.mp hq
      refine ⟨i, hi, ?_⟩
      rw [hconn, hget]
      simpa using hex
    · exact absurd hex (by simp)

/-- All jobs are completed with success whenever all results are 0, exactly if the servers
settled. -/
theorem results_honest_iff (reqs : List Request) :
    ((∀ job ∈ rpcRun env.lib env.tcl reqs env.gets env.rounds, job.result = 0) →
      ∀ job ∈ rpcRun env.lib env.tcl reqs env.gets env.rounds,
        job.error = .ok ∧ job.result = 0) ↔ Settled env reqs := by
  by_cases hgets : ∀ i < reqs.length, env.gets i ≠ none
  · have hmem := mem_rpcRun_iff hgets
    constructor
    · intro h
      refine ⟨hgets, ?_⟩
      by_cases hzero : ∀ job ∈ rpcRun env.lib env.tcl reqs env.gets env.rounds, job.result = 0
      · exact Or.inl fun i job hex => (h hzero job ((hmem job).mpr ⟨i, hex⟩)).1
      · right
        obtain ⟨job, hjob, hne⟩ : ∃ job ∈ rpcRun env.lib env.tcl reqs env.gets env.rounds,
            job.result ≠ 0 := by simpa using hzero
        obtain ⟨i, hex⟩ := (hmem job).mp hjob
        exact ⟨i, job, hex, hne⟩
    · rintro ⟨-, hsettled⟩ hzero job hjob
      refine ⟨?_, hzero job hjob⟩
      rcases hsettled with hdone | ⟨i, job', hex, hne⟩
      · obtain ⟨i, hex⟩ := (hmem job).mp hjob
        exact hdone i job hex
      · exact absurd (hzero job' ((hmem job').mpr ⟨i, hex⟩)) hne
  · -- no job is attempted: all results are 0, and all errors are not
    have hrun : rpcRun env.lib env.tcl reqs env.gets env.rounds = reqs.map Request.noConn := by
      rw [rpcRun_eq, if_neg hgets]
    constructor
    · intro h
      rw [hrun] at h
      have hne : reqs ≠ [] := by
        rintro rfl
        exact hgets (by simp)
      obtain ⟨q, reqs', rfl⟩ := List.exists_cons_of_ne_nil hne
      have herr := (h (by simp [Request.noConn]) q.noConn (by simp)).1
      simp [Request.noConn] at herr
    · rintro ⟨hall, -⟩
      exact absurd hall hgets

/-- There is one job for every request. -/
theorem length_rpcRun (env : Env) (reqs : List Request) :
    (rpcRun env.lib env.tcl reqs env.gets env.rounds).length = reqs.length := by
  rw [rpcRun_eq]
  split_ifs <;> simp

/-- There is one server for every name. -/
theorem length_of_mapM {names : List Bytes} {sobs : List Sob}
    (h : names.mapM (sobGetClient env) = .ok sobs) : sobs.length = names.length := by
  induction names generalizing sobs with
  | nil =>
      obtain rfl : [] = sobs := by simpa [pure, Except.pure] using h
      rfl
  | cons name names ih =>
      rw [List.mapM_cons] at h
      cases hsob : sobGetClient env name with
      | error text => simp [hsob, bind, Except.bind] at h
      | ok sob =>
          cases hrest : names.mapM (sobGetClient env) with
          | error text => simp [hsob, hrest, bind, Except.bind] at h
          | ok rest =>
              obtain rfl : sob :: rest = sobs := by
                simpa [hsob, hrest, bind, Except.bind, pure, Except.pure] using h
              simp [ih hrest]

/-- What `sobServers` gives when it succeeds. -/
theorem sobServers_ok {servers : Bytes} {names : List Bytes} {sobs : List Sob}
    (h : sobServers env servers = .ok (names, sobs)) :
    env.splitList servers = .ok names ∧ sobs.length = names.length := by
  unfold sobServers at h
  cases hsplit : env.splitList servers with
  | error text => simp [hsplit, bind, Except.bind] at h
  | ok ns =>
      cases hsobs : ns.mapM (sobGetClient env) with
      | error text => simp [hsplit, hsobs, bind, Except.bind] at h
      | ok ss =>
          obtain ⟨rfl, rfl⟩ : ns = names ∧ ss = sobs := by
            simpa [hsplit, hsobs, bind, Except.bind, pure, Except.pure] using h
          exact ⟨rfl, length_of_mapM hsobs⟩

/-- The body of `SobPutCmd` and `SobDeleteCmd` is honest exactly if the servers settle. -/
theorem sobWrite_honest_iff (cmd : Command) (message : Bytes)
    (label : List Bytes → Nat → Option Bytes) {servers : Bytes} (elements : List Bytes) :
    let o := sobWrite env cmd message label servers elements
    (o.status = .ok → o.jobs.length = (match env.splitList servers with
        | .ok names => names
        | .error _ => []).length ∧ ∀ job ∈ o.jobs, job.error = .ok ∧ job.result = 0) ↔
      ∀ reqs, ((sobServers env servers).toOption.map fun s =>
        s.2.map (sobRequest env cmd (elements.foldl env.appendElement []))) = some reqs →
        Settled env reqs := by
  intro o
  cases hserv : sobServers env servers with
  | error text =>
      have ho : o.status = .error := by
        show (sobWrite env cmd message label servers elements).status = _
        rw [sobWrite, hserv]
        rfl
      simp [ho, Except.toOption]
  | ok s =>
      obtain ⟨names, sobs⟩ := s
      obtain ⟨hsplit, hlen⟩ := sobServers_ok hserv
      set reqs := sobs.map (sobRequest env cmd (elements.foldl env.appendElement [])) with hreqs
      have hjobs : o.jobs = rpcRun env.lib env.tcl reqs env.gets env.rounds := by
        show (sobWrite env cmd message label servers elements).jobs = _
        rw [sobWrite, hserv]
      have hstatus : o.status = .ok ↔ ∀ job ∈ o.jobs, job.result = 0 := by
        rw [hjobs]
        show (sobWrite env cmd message label servers elements).status = _ ↔ _
        rw [sobWrite, hserv]
        show (if (rpcRun env.lib env.tcl reqs env.gets env.rounds).all _ then TclStatus.ok
          else .error) = .ok ↔ _
        split_ifs with hall
        · simpa using hall
        · simpa using hall
      have hcount : o.jobs.length = names.length := by
        rw [hjobs, length_rpcRun, hreqs, List.length_map, hlen]
      rw [hstatus, hsplit, hjobs]
      simp only [Except.toOption, Option.map_some, Option.some.injEq, forall_eq']
      rw [← results_honest_iff, ← hjobs]
      simp only [hcount, true_and]

/-- `Dci_RpcSend` reports success only if its job was completed and answered with success. -/
theorem rpcTimedSend_eq_zero {q : Request} {gets : Nat → Option Conn} {rounds : List Round}
    (h : rpcTimedSend env.lib env.tcl q gets rounds = 0) (hlen :
      (rpcRun env.lib env.tcl [q] gets rounds).length = 1) :
    ∀ job ∈ rpcRun env.lib env.tcl [q] gets rounds, job.error = .ok ∧ job.result = 0 := by
  obtain ⟨job, hjob⟩ := List.length_eq_one_iff.mp hlen
  unfold rpcTimedSend at h
  rw [hjob] at h ⊢
  intro j hj
  obtain rfl : j = job := by simpa using hj
  cases herr : j.error <;> simp_all [rpcNoconn, rpcTimeout, rpcError]

/-- `SobCopyCmd` is honest once the file is read. -/
theorem sobCopy_honest (sob : Sob) (file key data : Bytes)
    (hok : (sobCopy env sob file key data).status = .ok) :
    (sobCopy env sob file key data).jobs.length = 1 ∧
      ∀ job ∈ (sobCopy env sob file key data).jobs, job.error = .ok ∧ job.result = 0 := by
  set request := sobRequest env .copy (be32 key.length ++ be32 data.length ++ key ++ data) sob
    with hrequest
  have hlen := length_rpcRun env [request]
  have hjobs : (sobCopy env sob file key data).jobs =
      rpcRun env.lib env.tcl [request] env.gets env.rounds := by
    unfold sobCopy
    dsimp only
    split_ifs <;> rfl
  have hzero : rpcTimedSend env.lib env.tcl request env.gets env.rounds = 0 := by
    by_contra hne
    unfold sobCopy at hok
    rw [← hrequest] at hok
    simp [hne] at hok
  rw [hjobs]
  exact ⟨hlen, rpcTimedSend_eq_zero hzero hlen⟩

/-- `nsob.copy` is honest. -/
theorem sobCopyCmd_honest (argv : List Bytes) : Honest env .copy argv := by
  intro hok
  have hfail : ∀ text, (Outcome.failed text).status ≠ .ok := fun _ => by simp [Outcome.failed]
  have hcmd : nsob env .copy argv = sobCopyCmd env argv := rfl
  rw [hcmd] at hok ⊢
  unfold sobCopyCmd at hok ⊢
  split at hok
  · rename_i name file server key
    dsimp only at hok ⊢
    cases hsob : sobGetClient env server with
    | error text => simp [hsob, hfail] at hok
    | ok sob =>
        cases hfile : env.file file with
        | noStat errno => simp [hsob, hfile, hfail] at hok
        | notRegular => simp [hsob, hfile, hfail] at hok
        | noOpen errno => simp [hsob, hfile, hfail] at hok
        | opened size data errno =>
            cases data with
            | none => simp [hsob, hfile, hfail] at hok
            | some data =>
                by_cases hsize : int32 size = data.length
                · simp only [hsob, hfile, if_pos hsize] at hok ⊢
                  exact sobCopy_honest sob file key data hok
                · simp [hsob, hfile, hsize, hfail] at hok
  · exact absurd hok (hfail _)

/-- A command that fails is honest. -/
theorem honest_of_failed {cmd : Command} {argv : List Bytes} {text : Bytes}
    (h : nsob env cmd argv = .failed text) : Honest env cmd argv := by
  intro hok
  rw [h] at hok
  simp [Outcome.failed] at hok

/-- **A command is honest exactly if it is `nsob.copy`, or fails before it runs any job, or the
servers settle.** -/
theorem nsob_honest_iff (env : Env) (cmd : Command) (argv : List Bytes) :
    Honest env cmd argv ↔
      cmd = .copy ∨ ∀ reqs, requests env cmd argv = some reqs → Settled env reqs := by
  cases cmd with
  | copy => exact ⟨fun _ => Or.inl rfl, fun _ => sobCopyCmd_honest argv⟩
  | put =>
      rcases argv with _ | ⟨name, _ | ⟨servers, _ | ⟨key, _ | ⟨data, _ | ⟨e, rest⟩⟩⟩⟩⟩
      case cons.cons.cons.cons.nil =>
        rw [or_iff_right (by simp)]
        exact sobWrite_honest_iff .put (ascii " could not write: ") (fun names i => names[i]?)
          [key, data]
      all_goals exact ⟨fun _ => Or.inr (by simp [requests]), fun _ => honest_of_failed rfl⟩
  | append =>
      rcases argv with _ | ⟨name, _ | ⟨servers, _ | ⟨key, _ | ⟨data, _ | ⟨e, rest⟩⟩⟩⟩⟩
      case cons.cons.cons.cons.nil =>
        rw [or_iff_right (by simp)]
        exact sobWrite_honest_iff .append (ascii " could not write: ") (fun names i => names[i]?)
          [key, data]
      all_goals exact ⟨fun _ => Or.inr (by simp [requests]), fun _ => honest_of_failed rfl⟩
  | delete =>
      rcases argv with _ | ⟨name, _ | ⟨servers, _ | ⟨key, _ | ⟨e, rest⟩⟩⟩⟩
      case cons.cons.cons.nil =>
        rw [or_iff_right (by simp)]
        exact sobWrite_honest_iff .delete (ascii " could not delete: ") (fun names _ => names[1]?)
          [key]
      all_goals exact ⟨fun _ => Or.inr (by simp [requests]), fun _ => honest_of_failed rfl⟩

/-- A list with one server, to which there is no connection. -/
def unconnected : Env :=
  { sobTable := fun name => some
      ⟨name, false, true, true, { plain with name := ascii "nsobc:s" }⟩
    splitList := fun list => .ok [list]
    appendElement := fun list element => list ++ ascii " " ++ element
    posixError := fun _ => []
    file := fun _ => .noStat 2
    lib := .doubling
    tcl := .decimal
    arena := ⟨fun _ _ => 0, 0⟩
    gets := fun _ => none
    rounds := [] }

/-- Without a connection nothing is sent, and `nsob.put` reports success. -/
theorem sob_put_unsent :
    ¬ Honest unconnected .put [ascii "nsob.put", ascii "s", ascii "key", ascii "data"] := by
  intro h
  have hjobs := (h (by decide)).2
  have hmem : (nsob unconnected .put
      [ascii "nsob.put", ascii "s", ascii "key", ascii "data"]).jobs.any
        (fun job => job.error = .enoconn) = true := by decide
  obtain ⟨job, hjob, herr⟩ := List.any_eq_true.mp hmem
  have hok := (hjobs job hjob).1
  simp [hok] at herr

end Sob

end Nsdci
