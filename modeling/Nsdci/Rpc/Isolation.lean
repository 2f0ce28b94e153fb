import Nsdci.Rpc.Incoming
import Nsdci.Rpc.Outgoing
import Nsdci.Rpc.Run
import Nsdci.RpcPool

/-!
# What becomes of the connections of `Dci_RpcRun`

`rpcRunBacks` is how `Dci_RpcRun` gives its connections back, and `traffic` what has passed over
each. `Stage` says where a job is and what has passed then. The main result is `rpcRun_isolated`: a
connection goes back to the pool without traffic, or with a whole request and a whole response
behind it, if no request is longer than `2 ^ 31` bytes (`rpcRun_not_isolated`).
-/

namespace Nsdci.Rpc

open Lib

/-- What is done with a connection that is given back: `RpcPush`, `--nsocks`, `++httpAvail`,
`RpcClose`; or `Ns_Fatal`. -/
inductive Back where
  | push | nsocks | httpAvail | close | fatal
  deriving DecidableEq, Repr

/-- `RpcPut`. -/
def rpcPut (conn : Conn) : List Back :=
  if !conn.http || conn.keep then [.push] else [.nsocks, .httpAvail, .close]

/-- A connection is closed and taken out of the counts. -/
def closing (http : Bool) : List Back :=
  .nsocks :: ((if http then [.httpAvail] else []) ++ [.close])

/-- The end of `Dci_RpcRun`, for one job. -/
def Slot.sweep (s : Slot) : List Back :=
  match s.x.job.error with
  | .ok => rpcPut s.x.conn
  | .enoconn => [.fatal]
  | _ => closing s.x.conn.http

variable (lib : DStringLib) (tcl : TclGetInt)

/-- `Dci_RpcRun`: how the connections are given back, with the jobs they were for. -/
def rpcRunBacks (reqs : List Request) (gets : Nat → Option Conn) (rounds : List Round) :
    List (Nat × Back) :=
  let slots := reqs.zipIdx.filterMap fun q => (gets q.2).map (q.1.start lib)
  let nbusy := slots.length
  if nbusy ≠ reqs.length then
    reqs.zipIdx.flatMap fun q => match gets q.2 with
      | none => []
      | some conn => (rpcPut (q.1.start lib conn).x.conn).map fun b => (q.2, b)
  else
    (pollRounds lib tcl rounds slots nbusy).zipIdx.flatMap fun s =>
      s.1.sweep.map fun b => (s.2, b)

/-- What is done with the connection of job `i`. -/
def ofJob (i : Nat) (backs : List (Nat × Back)) : List Back :=
  (backs.filter fun b => b.1 = i).map Prod.snd

/-! ## Traffic -/

/-- The bytes of a job that have passed over its connection. -/
structure Traffic where
  sent : Bytes := []
  got : Bytes := []

/-- What passes with some I/O. -/
def Slot.traffic (s : Slot) (t : Traffic) (revents : Option Revents) : Traffic :=
  match s.events, revents with
  | some .pollout, some (.pollout (.ok n)) =>
      { t with sent := t.sent ++ (gather s.x.arena.mem s.x.conn.iov).take n }
  | some .pollin, some (.pollin (.ok bs)) => { t with got := t.got ++ bs }
  | _, _ => t

/-- The results that `sendmsg` and `recvmsg` can have. -/
def Slot.Can (s : Slot) (revents : Option Revents) : Prop :=
  match s.events, revents with
  | some .pollout, some (.pollout (.ok n)) => CanSend s.x n
  | some .pollin, some (.pollin (.ok bs)) => bs ≠ [] → CanRecv s.x bs
  | _, _ => True

/-- The rounds of the loop of `Dci_RpcRun`, with the jobs before each. -/
def pollTrace : List Round → List Slot → Nat → List (Round × List Slot)
  | [], _, _ => []
  | round :: rounds, slots, nbusy =>
      if nbusy = 0 then []
      else
        let r := pollSlots lib tcl round 0 slots nbusy
        (round, slots) :: pollTrace rounds r.1 r.2

/-- The rounds of `Dci_RpcRun`. -/
def rpcRunTrace (reqs : List Request) (gets : Nat → Option Conn) (rounds : List Round) :
    List (Round × List Slot) :=
  let slots := reqs.zipIdx.filterMap fun q => (gets q.2).map (q.1.start lib)
  let nbusy := slots.length
  if nbusy ≠ reqs.length then [] else pollTrace lib tcl rounds slots nbusy

/-- What passes over the connection of job `i` in a round. -/
def roundTraffic (i : Nat) (t : Traffic) (r : Round × List Slot) : Traffic :=
  match r.2[i]? with
  | some s => s.traffic t (r.1 i)
  | none => t

/-- What has passed over the connection of job `i`. -/
def traffic (i : Nat) (trace : List (Round × List Slot)) : Traffic :=
  trace.foldl (roundTraffic i) {}

/-- The results of `sendmsg` and `recvmsg` are such as they can be. -/
def Feasible (trace : List (Round × List Slot)) : Prop :=
  ∀ r ∈ trace, ∀ i (s : Slot), r.2[i]? = some s → s.Can (r.1 i)

/-! ## Isolation -/

/-- The request of a job as it is sent. -/
def Request.bytes (q : Request) (http : Bool) : Bytes :=
  requestBytes q.cfg http q.job.cmd (inputData q.job.inPtr q.arena.mem)

/-- Nothing has passed over a connection; or a whole request and the whole response to it, and what
a server sends after a response is still to come. -/
def Clean (q : Request) (http : Bool) (t : Traffic) : Prop :=
  t = {} ∨ t.sent = q.bytes http ∧ Whole tcl http t.got ∧
    ∀ r later, Whole tcl http r → t.got <+: r ++ later → t.got = r

/-- A connection is given back once. -/
def GivenBack (http : Bool) (backs : List Back) : Prop := backs = [.push] ∨ backs = closing http

/-- The jobs of `Dci_RpcRun` are isolated. -/
structure Isolated (reqs : List Request) (gets : Nat → Option Conn) (rounds : List Round) :
    Prop where
  once : ∀ i q conn, reqs[i]? = some q → gets i = some conn →
    GivenBack conn.http (ofJob i (rpcRunBacks lib tcl reqs gets rounds))
  only : ∀ i, reqs.length ≤ i ∨ gets i = none →
    ofJob i (rpcRunBacks lib tcl reqs gets rounds) = []
  clean : ∀ i q conn, reqs[i]? = some q → gets i = some conn →
    ofJob i (rpcRunBacks lib tcl reqs gets rounds) = [.push] →
      Clean tcl q conn.http (traffic i (rpcRunTrace lib tcl reqs gets rounds))
  all : ∀ i < reqs.length, gets i = none →
    (∀ j, traffic j (rpcRunTrace lib tcl reqs gets rounds) = {}) ∧
      ∀ job ∈ rpcRun lib tcl reqs gets rounds, job.error = .enoconn

/-! ## The pool -/

/-- What is done to the pool. -/
def Back.apply (conn : RpcPool.Conn) (s : RpcPool.State) : Back → RpcPool.State
  | .push => s.rpcPush conn
  | .nsocks => { s with nsocks := s.nsocks - 1 }
  | .httpAvail => { s with httpAvail := s.httpAvail + 1 }
  | .close | .fatal => s

/-- A connection that is closed is taken out of the counts. -/
theorem closing_apply (conn : RpcPool.Conn) (s : RpcPool.State) :
    (closing conn.http).foldl (Back.apply conn) s = s.closed conn := by
  unfold closing RpcPool.State.closed
  cases conn.http
  · show ({ s with nsocks := s.nsocks - 1 } : RpcPool.State) = _
    simp
  · rfl

/-- `RpcPut` is the one of the pool. -/
theorem rpcPut_apply (sock : Nat) (conn : Conn) (s : RpcPool.State) :
    (rpcPut conn).foldl (Back.apply ⟨sock, conn.http, conn.keep⟩) s =
      s.rpcPut ⟨sock, conn.http, conn.keep⟩ := by
  unfold rpcPut RpcPool.State.rpcPut
  cases hput : !conn.http || conn.keep with
  | true => rfl
  | false =>
      have hhttp : conn.http = true := by
        cases h : conn.http with
        | true => rfl
        | false => simp [h] at hput
      rw [hhttp]
      exact closing_apply ⟨sock, true, conn.keep⟩ s

/-! ## Where a job is -/

/-- Where a job is, and what has passed over its connection then. -/
inductive Stage (req : Bytes) (http : Bool) (s : Slot) (t : Traffic) : Prop where
  | sending (events : s.events = some .pollout) (error : s.x.job.error = .esendwait)
      (got : t.got = []) (h : Sending req t.sent s.x)
  | receiving (events : s.events = some .pollin)
      (error : s.x.job.error = .etimeout ∨ s.x.job.error = .erecvwait) (sent : t.sent = req)
      (h : Coming t.got s.x ∨ ∃ len, Inside tcl len t.got s.x)
  | whole (events : s.events = none) (error : s.x.job.error = .ok) (sent : t.sent = req)
      (h : Whole tcl http t.got)
  | failed (events : s.events = none) (error : s.x.job.error ≠ .ok ∧ s.x.job.error ≠ .enoconn)

variable {lib tcl} {x : Xfer} {got req sent : Bytes} {http : Bool} {s : Slot} {t : Traffic}

/-- The status of a job, as `Dci_RpcRun` sets it. -/
def Xfer.setError (x : Xfer) (e : Error) : Xfer := { x with job := { x.job with error := e } }

theorem Coming.setError (h : Coming got x) (e : Error) : Coming got (x.setError e) :=
  ⟨h.body, h.buf, h.out, h.small, h.room, h.size, h.le, h.head, h.read, h.iov, h.left⟩

theorem Inside.setError {len : Int} (h : Inside tcl len got x) (e : Error) :
    Inside tcl len got (x.setError e) :=
  ⟨h.body, h.length, h.near, h.left, h.room⟩

theorem Ready.setError (h : Ready x) (e : Error) : Ready (x.setError e) := ⟨h.buf, h.out, h.avl⟩

theorem Sending.setError (h : Sending req sent x) (e : Error) :
    Sending req sent (x.setError e) :=
  ⟨h.bytes, h.left, h.ready.setError e⟩

/-- A job that has failed. -/
theorem stage_failed {y : Xfer} {e : Error}
    (he : e = .esend ∨ e = .erecv ∨ e = .ehttpsize ∨ e = .ehttpparse) (hy : y.conn.http = http) :
    Stage tcl req http (s.after lib (y, e)) t ∧ (s.after lib (y, e)).x.conn.http = http := by
  rcases he with rfl | rfl | rfl | rfl <;>
    exact ⟨.failed rfl ⟨nofun, nofun⟩, hy⟩

/-- **A job sends.** -/
theorem stage_pollout (hev : s.events = some .pollout) (h : Sending req t.sent s.x)
    (hgot : t.got = []) (hhttp : s.x.conn.http = http) (hsmall : req.length ≤ 2147483648)
    (r : Except Int Nat) (hcan : s.Can (some (.pollout r))) :
    let s' := s.io lib tcl (some (.pollout r))
    Stage tcl req http s' (s.traffic t (some (.pollout r))) ∧ s'.x.conn.http = http := by
  have hio : s.io lib tcl (some (.pollout r)) = s.after lib (rpcSend s.x r) := by
    unfold Slot.io
    rw [hev]
  rw [hio]
  cases r with
  | error errnum => exact stage_failed (Or.inl rfl) hhttp
  | ok n =>
      have htraffic : s.traffic t (some (.pollout (.ok n))) =
          ⟨t.sent ++ (gather s.x.arena.mem s.x.conn.iov).take n, t.got⟩ := by
        unfold Slot.traffic
        rw [hev]
      have hn : CanSend s.x n := by
        unfold Slot.Can at hcan
        rwa [hev] at hcan
      obtain ⟨hyhttp, hready, hres⟩ := h.step hsmall hn
      rw [htraffic]
      generalize rpcSend s.x (.ok n) = y at hyhttp hready hres
      obtain ⟨y, e⟩ := y
      rcases hres with ⟨he, hsend⟩ | ⟨he, hsent⟩
      · obtain rfl : e = .esendwait := he
        exact ⟨.sending hev rfl hgot (hsend.setError _), hyhttp.trans hhttp⟩
      · obtain rfl : e = .etimeout := he
        obtain ⟨hcoming, hhttp', herror⟩ :=
          rpcSetRecv_coming s.cfg lib (hready.setError .etimeout)
        refine ⟨.receiving rfl (Or.inl herror) hsent (Or.inl ?_), ?_⟩
        · show Coming t.got _
          rw [hgot]
          exact hcoming
        · exact hhttp'.trans (hyhttp.trans hhttp)

/-- **A job receives.** -/
theorem stage_pollin (hev : s.events = some .pollin) (hsent : t.sent = req)
    (h : Coming t.got s.x ∨ ∃ len, Inside tcl len t.got s.x) (hhttp : s.x.conn.http = http)
    (htcl : tcl.IsInt) (r : Except Int Bytes) (hcan : s.Can (some (.pollin r))) :
    let s' := s.io lib tcl (some (.pollin r))
    Stage tcl req http s' (s.traffic t (some (.pollin r))) ∧ s'.x.conn.http = http := by
  have hio : s.io lib tcl (some (.pollin r)) = s.after lib (rpcRecv lib tcl s.x r) := by
    unfold Slot.io
    rw [hev]
  rw [hio]
  cases r with
  | error errnum => exact stage_failed (Or.inr (Or.inl rfl)) hhttp
  | ok bs =>
      by_cases hnil : bs = []
      · subst hnil
        exact stage_failed (Or.inr (Or.inl rfl)) hhttp
      have htraffic : s.traffic t (some (.pollin (.ok bs))) = ⟨t.sent, t.got ++ bs⟩ := by
        unfold Slot.traffic
        rw [hev]
      have hbs : CanRecv s.x bs := by
        unfold Slot.Can at hcan
        rw [hev] at hcan
        exact hcan hnil
      obtain ⟨hyhttp, hres⟩ := received_step h lib htcl hnil hbs
      rw [htraffic]
      generalize rpcRecv lib tcl s.x (.ok bs) = y at hyhttp hres
      obtain ⟨y, e⟩ := y
      have hy : y.conn.http = http := hyhttp.trans hhttp
      cases hres with
      | coming h => exact ⟨.receiving hev (Or.inr rfl) hsent (Or.inl (h.setError _)), hy⟩
      | inside len h =>
          exact ⟨.receiving hev (Or.inr rfl) hsent (Or.inr ⟨len, h.setError _⟩), hy⟩
      | whole h => exact ⟨.whole rfl rfl hsent (hy ▸ h), hy⟩
      | httpSize => exact stage_failed (Or.inr (Or.inr (Or.inl rfl))) hy
      | httpParse => exact stage_failed (Or.inr (Or.inr (Or.inr rfl))) hy

/-- No I/O that was asked for. -/
theorem Slot.io_idle (lib : DStringLib) (tcl : TclGetInt) (revents : Option Revents)
    (hout : s.events = some .pollout → ∀ r, revents ≠ some (.pollout r))
    (hin : s.events = some .pollin → ∀ r, revents ≠ some (.pollin r)) :
    s.io lib tcl revents = s ∧ s.traffic t revents = t := by
  unfold Slot.io Slot.traffic
  cases hev : s.events with
  | none => exact ⟨rfl, rfl⟩
  | some ev =>
      rcases revents with _ | ⟨r⟩ | ⟨r⟩
      · cases ev <;> exact ⟨rfl, rfl⟩
      · cases ev with
        | pollout => exact absurd rfl (hout hev r)
        | pollin => exact ⟨rfl, rfl⟩
      · cases ev with
        | pollout => exact ⟨rfl, rfl⟩
        | pollin => exact absurd rfl (hin hev r)

/-- **A round.** -/
theorem Stage.step (h : Stage tcl req http s t) (hhttp : s.x.conn.http = http) (htcl : tcl.IsInt)
    (hsmall : req.length ≤ 2147483648) (lib : DStringLib) (revents : Option Revents)
    (hcan : s.Can revents) :
    Stage tcl req http (s.io lib tcl revents) (s.traffic t revents) ∧
      (s.io lib tcl revents).x.conn.http = http := by
  by_cases hout : s.events = some .pollout ∧ ∃ r, revents = some (.pollout r)
  · obtain ⟨hev, r, rfl⟩ := hout
    cases h with
    | sending events error got h => exact stage_pollout hev h got hhttp hsmall r hcan
    | receiving events => exact absurd (events.symm.trans hev) nofun
    | whole events => exact absurd (events.symm.trans hev) nofun
    | failed events => exact absurd (events.symm.trans hev) nofun
  by_cases hin : s.events = some .pollin ∧ ∃ r, revents = some (.pollin r)
  · obtain ⟨hev, r, rfl⟩ := hin
    cases h with
    | sending events => exact absurd (events.symm.trans hev) nofun
    | receiving events error sent h => exact stage_pollin hev sent h hhttp htcl r hcan
    | whole events => exact absurd (events.symm.trans hev) nofun
    | failed events => exact absurd (events.symm.trans hev) nofun
  obtain ⟨hio, htraffic⟩ := s.io_idle (t := t) lib tcl revents
    (fun hev r hr => hout ⟨hev, r, hr⟩) (fun hev r hr => hin ⟨hev, r, hr⟩)
  rw [hio, htraffic]
  exact ⟨h, hhttp⟩

/-! ## The rounds -/

/-- What each I/O keeps of a job and its traffic holds after any rounds. -/
theorem rounds_keep {P : Slot → Traffic → Prop} {lib : DStringLib} {tcl : TclGetInt}
    (hkeep : ∀ s t revents, P s t → s.Can revents →
      P (s.io lib tcl revents) (s.traffic t revents))
    (rounds : List Round) (slots : List Slot)
    (hfeas : Feasible (pollTrace lib tcl rounds slots (busy slots))) {i : Nat}
    (hs : slots[i]? = some s) (h : P s t) :
    P ((rounds.map (· i)).foldl (Slot.io lib tcl) s)
      ((pollTrace lib tcl rounds slots (busy slots)).foldl (roundTraffic i) t) := by
  induction rounds generalizing slots s t with
  | nil => exact h
  | cons round rounds ih =>
      simp only [pollTrace] at hfeas ⊢
      split_ifs at hfeas ⊢ with hzero
      · -- no job is left
        have hdone : s.events = none := by
          simpa using List.countP_eq_zero.mp hzero s (List.mem_of_getElem? hs)
        rw [Slot.foldl_io_done hdone]
        exact h
      · obtain ⟨hslots, hbusy⟩ := pollSlots_eq lib tcl round 0 slots 0
        rw [Nat.zero_add] at hslots hbusy
        rw [hbusy, Nat.zero_add] at hfeas ⊢
        generalize pollSlots lib tcl round 0 slots (busy slots) = r at hslots hfeas ⊢
        have hnext : r.1[i]? = some (s.io lib tcl (round i)) := by
          rw [hslots, List.getElem?_mapIdx, hs, Option.map_some, Nat.zero_add]
        have hcan : s.Can (round i) := hfeas _ List.mem_cons_self i s hs
        have htraffic : roundTraffic i t (round, slots) = s.traffic t (round i) := by
          unfold roundTraffic
          rw [hs]
        rw [List.map_cons, List.foldl_cons, List.foldl_cons, htraffic]
        exact ih r.1 (fun r' hr' => hfeas r' (List.mem_cons_of_mem _ hr')) hnext
          (hkeep s t (round i) h hcan)

/-- **A job after any rounds.** -/
theorem stage_rounds (htcl : tcl.IsInt) (hsmall : req.length ≤ 2147483648) (lib : DStringLib)
    (rounds : List Round) (slots : List Slot)
    (hfeas : Feasible (pollTrace lib tcl rounds slots (busy slots))) {i : Nat}
    (hs : slots[i]? = some s) (h : Stage tcl req http s t) (hhttp : s.x.conn.http = http) :
    let s' := (rounds.map (· i)).foldl (Slot.io lib tcl) s
    Stage tcl req http s'
        ((pollTrace lib tcl rounds slots (busy slots)).foldl (roundTraffic i) t) ∧
      s'.x.conn.http = http := by
  have hkeep : ∀ s t revents, Stage tcl req http s t ∧ s.x.conn.http = http → s.Can revents →
      Stage tcl req http (s.io lib tcl revents) (s.traffic t revents) ∧
        (s.io lib tcl revents).x.conn.http = http :=
    fun s t revents hst hcan => hst.1.step hst.2 htcl hsmall lib revents hcan
  exact rounds_keep (P := fun s t => Stage tcl req http s t ∧ s.x.conn.http = http) hkeep rounds
    slots hfeas hs ⟨h, hhttp⟩

/-- Where a job begins. -/
theorem stage_start (tcl : TclGetInt) (lib : DStringLib) (q : Request) (conn : Conn)
    (hq : Allocated q.job q.arena) :
    Stage tcl (q.bytes conn.http) conn.http (q.start lib conn) {} ∧
      (q.start lib conn).x.conn.http = conn.http ∧
      (q.start lib conn).x.conn.keep = conn.keep := by
  obtain ⟨hsend, hhttp, hkeep, hjob⟩ := rpcSetSend_sending q.cfg lib
    (x := ⟨conn, { q.job with result := 0, error := .esendwait }, q.arena⟩) ⟨hq.inPtr, hq.outPtr⟩
  exact ⟨.sending rfl (congrArg Job.error hjob) rfl hsend, hhttp, hkeep⟩

/-! ## The end -/

theorem rpcPut_givenBack (conn : Conn) : GivenBack conn.http (rpcPut conn) := by
  unfold GivenBack rpcPut closing
  cases conn.http <;> cases conn.keep <;> simp

theorem Slot.sweep_closing (h : s.x.job.error ≠ .ok ∧ s.x.job.error ≠ .enoconn) :
    s.sweep = closing s.x.conn.http := by
  obtain ⟨hok, hconn⟩ := h
  unfold Slot.sweep
  cases herror : s.x.job.error with
  | ok => exact absurd herror hok
  | enoconn => exact absurd herror hconn
  | _ => rfl

/-- A connection that is closed is not given back to the pool. -/
theorem closing_ne_push (http : Bool) : closing http ≠ [.push] := by
  unfold closing
  simp

/-- A job is done, with a whole response; or it has an error of the exchange. -/
theorem Stage.ended (h : Stage tcl req http s t) :
    (s.events = none ∧ s.x.job.error = .ok ∧ t.sent = req ∧ Whole tcl http t.got) ∨
      (s.x.job.error ≠ .ok ∧ s.x.job.error ≠ .enoconn) := by
  cases h with
  | sending events error got h =>
      rw [error]
      exact Or.inr ⟨nofun, nofun⟩
  | receiving events error sent h =>
      refine Or.inr ?_
      rcases error with error | error <;>
        · rw [error]
          exact ⟨nofun, nofun⟩
  | whole events error sent h => exact Or.inl ⟨events, error, sent, h⟩
  | failed events error => exact Or.inr error

/-- **How a connection is given back.** -/
theorem Stage.sweep (h : Stage tcl req http s t) (hhttp : s.x.conn.http = http) :
    GivenBack http s.sweep ∧ (s.sweep = [.push] → s.events = none ∧ s.x.job.error = .ok ∧
      t.sent = req ∧ Whole tcl http t.got) := by
  rcases h.ended with hdone | herror
  · have hsweep : s.sweep = rpcPut s.x.conn := by
      unfold Slot.sweep
      rw [hdone.2.1]
    rw [hsweep]
    exact ⟨hhttp ▸ rpcPut_givenBack s.x.conn, fun _ => hdone⟩
  · rw [Slot.sweep_closing herror, hhttp]
    exact ⟨Or.inr rfl, fun hpush => absurd hpush (closing_ne_push http)⟩

/-- What is done for each of some jobs. -/
theorem ofJob_zipIdx {α : Type} (f : α × Nat → List Back) (l : List α) (k i : Nat) :
    ofJob i ((l.zipIdx k).flatMap fun a => (f a).map fun b => (a.2, b)) =
      if k ≤ i then (l[i - k]?.map fun a => f (a, i)).getD [] else [] := by
  induction l generalizing k with
  | nil => simp [ofJob]
  | cons a l ih =>
      have happ : ∀ as bs, ofJob i (as ++ bs) = ofJob i as ++ ofJob i bs := by
        intro as bs
        simp [ofJob]
      have hone : ofJob i ((f (a, k)).map fun b => (k, b)) = if k = i then f (a, k) else [] := by
        by_cases hk : k = i <;> simp [ofJob, List.filter_map, Function.comp_def, hk]
      rw [List.zipIdx_cons, List.flatMap_cons, happ, ih, hone]
      rcases Nat.lt_trichotomy k i with hlt | rfl | hgt
      · rw [if_neg (by omega), if_pos (by omega), if_pos (by omega), List.nil_append,
          show i - k = i - (k + 1) + 1 by omega, List.getElem?_cons_succ]
      · rw [if_pos rfl, if_neg (by omega), if_pos (by omega), List.append_nil, Nat.sub_self]
        rfl
      · rw [if_neg (by omega), if_neg (by omega), if_neg (by omega), List.append_nil]

/-- The slot of each job, if all have connections. -/
theorem getElem?_started (lib : DStringLib) (gets : Nat → Option Conn) (reqs : List Request)
    (k : Nat) (h : ∀ i < reqs.length, gets (k + i) ≠ none) (i : Nat) :
    (started lib gets reqs k)[i]? =
      reqs[i]?.bind fun q => (gets (k + i)).map (q.start lib) := by
  induction reqs generalizing k i with
  | nil => rfl
  | cons q reqs ih =>
      obtain ⟨conn, hconn⟩ := Option.ne_none_iff_exists'.mp (h 0 (Nat.zero_lt_succ _))
      rw [Nat.add_zero] at hconn
      rw [started_cons, hconn, Option.map_some, Option.toList_some, List.singleton_append]
      cases i with
      | zero =>
          rw [List.getElem?_cons_zero, List.getElem?_cons_zero, Option.bind_some, Nat.add_zero,
            hconn]
          rfl
      | succ i =>
          have hrest := ih (k + 1) (fun j hj => by
            have := h (j + 1) (Nat.succ_lt_succ hj)
            rwa [show k + (j + 1) = k + 1 + j by omega] at this) i
          rw [List.getElem?_cons_succ, List.getElem?_cons_succ, hrest,
            show k + 1 + i = k + (i + 1) by omega]

/-- All jobs have connections: each is given back as its own slot says. -/
theorem ofJob_all (lib : DStringLib) (tcl : TclGetInt) {reqs : List Request}
    {gets : Nat → Option Conn} (hall : ∀ i < reqs.length, gets i ≠ none) (rounds : List Round)
    (i : Nat) : ofJob i (rpcRunBacks lib tcl reqs gets rounds) =
      ((started lib gets reqs 0)[i]?.map fun s =>
        ((rounds.map (· i)).foldl (Slot.io lib tcl) s).sweep).getD [] := by
  have hlen := (length_started_eq_iff lib gets reqs 0).mpr (by simpa using hall)
  have hback : rpcRunBacks lib tcl reqs gets rounds =
      (pollRounds lib tcl rounds (started lib gets reqs 0)
        (busy (started lib gets reqs 0))).zipIdx.flatMap fun s =>
          s.1.sweep.map fun b => (s.2, b) := by
    rw [busy_started]
    exact if_neg (not_not.mpr hlen)
  rw [hback, ofJob_zipIdx fun s : Slot × Nat => s.1.sweep, if_pos (Nat.zero_le i), Nat.sub_zero,
    pollRounds_eq,
    List.getElem?_mapIdx, Option.map_map]
  rfl

/-- A job has no connection: the others are given back as they are. -/
theorem ofJob_none (lib : DStringLib) (tcl : TclGetInt) {reqs : List Request}
    {gets : Nat → Option Conn} (hnone : ¬∀ i < reqs.length, gets i ≠ none) (rounds : List Round)
    (i : Nat) : ofJob i (rpcRunBacks lib tcl reqs gets rounds) =
        (reqs[i]?.map fun q => (gets i).elim [] fun conn =>
          rpcPut (q.start lib conn).x.conn).getD [] ∧
      rpcRunTrace lib tcl reqs gets rounds = [] := by
  have hlen : (started lib gets reqs 0).length ≠ reqs.length := fun h =>
    hnone (by simpa using (length_started_eq_iff lib gets reqs 0).mp h)
  have hback : rpcRunBacks lib tcl reqs gets rounds = reqs.zipIdx.flatMap fun q =>
      ((gets q.2).elim [] fun conn => rpcPut (q.1.start lib conn).x.conn).map fun b =>
      (q.2, b) := by
    refine (if_pos hlen).trans (List.flatMap_congr fun q _ => ?_)
    cases gets q.2 <;> rfl
  refine ⟨?_, if_pos hlen⟩
  rw [hback, ofJob_zipIdx fun q : Request × Nat => (gets q.2).elim [] fun conn =>
    rpcPut (q.1.start lib conn).x.conn, if_pos (Nat.zero_le i), Nat.sub_zero]

/-- **The jobs of `Dci_RpcRun` are isolated**, if no request, with its header, is longer than
`2 ^ 31` bytes. -/
theorem rpcRun_isolated (lib : DStringLib) (tcl : TclGetInt) (htcl : tcl.IsInt)
    (reqs : List Request) (gets : Nat → Option Conn) (rounds : List Round)
    (halloc : ∀ q ∈ reqs, Allocated q.job q.arena)
    (hfeas : Feasible (rpcRunTrace lib tcl reqs gets rounds))
    (hsmall : ∀ i q conn, reqs[i]? = some q → gets i = some conn →
      (q.bytes conn.http).length ≤ 2147483648) :
    Isolated lib tcl reqs gets rounds := by
  by_cases hall : ∀ i < reqs.length, gets i ≠ none
  · have hlen := (length_started_eq_iff lib gets reqs 0).mpr (by simpa using hall)
    have htrace : rpcRunTrace lib tcl reqs gets rounds = pollTrace lib tcl rounds
        (started lib gets reqs 0) (busy (started lib gets reqs 0)) := by
      rw [busy_started]
      exact if_neg (not_not.mpr hlen)
    have hjob : ∀ i q conn, reqs[i]? = some q → gets i = some conn →
        GivenBack conn.http (ofJob i (rpcRunBacks lib tcl reqs gets rounds)) ∧
          (ofJob i (rpcRunBacks lib tcl reqs gets rounds) = [.push] →
            Clean tcl q conn.http (traffic i (rpcRunTrace lib tcl reqs gets rounds))) := by
      intro i q conn hq hconn
      have hslot : (started lib gets reqs 0)[i]? = some (q.start lib conn) := by
        rw [getElem?_started lib gets reqs 0 (by simpa using hall), Nat.zero_add, hq, hconn]
        rfl
      obtain ⟨hstage, hhttp, -⟩ :=
        stage_start tcl lib q conn (halloc q (List.mem_of_getElem? hq))
      rw [htrace] at hfeas ⊢
      obtain ⟨hstage, hhttp⟩ := stage_rounds htcl (hsmall i q conn hq hconn) lib rounds _ hfeas
        hslot hstage hhttp
      rw [ofJob_all lib tcl hall rounds i, hslot]
      obtain ⟨hgiven, hpush⟩ := hstage.sweep hhttp
      refine ⟨hgiven, fun h => ?_⟩
      obtain ⟨-, -, hsent, hwhole⟩ := hpush h
      exact Or.inr ⟨hsent, hwhole, fun r later hr hgot =>
        hr.eq_of_front hwhole (List.prefix_append r later) hgot⟩
    exact
      { once := fun i q conn hq hconn => (hjob i q conn hq hconn).1
        clean := fun i q conn hq hconn => (hjob i q conn hq hconn).2
        all := fun i hi hnone => absurd hnone (hall i hi)
        only := by
          intro i hi
          have hout : reqs.length ≤ i := hi.elim id fun hnone =>
            Nat.le_of_not_lt fun hlt => hall i hlt hnone
          rw [ofJob_all lib tcl hall rounds i, List.getElem?_eq_none (hlen ▸ hout)]
          rfl }
  · have htrace := (ofJob_none lib tcl hall rounds 0).2
    have hnone := fun i => (ofJob_none lib tcl hall rounds i).1
    have hnothing : ∀ i, traffic i (rpcRunTrace lib tcl reqs gets rounds) = {} := by
      intro i
      rw [htrace]
      rfl
    refine ⟨fun i q conn hq hconn => ?_, fun i hi => ?_, fun i q conn hq hconn _ => ?_,
      fun i hi hgets => ⟨hnothing, ?_⟩⟩
    · obtain ⟨-, hhttp, -⟩ := stage_start tcl lib q conn (halloc q (List.mem_of_getElem? hq))
      rw [hnone, hq, hconn, ← hhttp]
      exact rpcPut_givenBack _
    · rw [hnone]
      rcases hi with hi | hi
      · rw [List.getElem?_eq_none hi]
        rfl
      · rw [hi]
        cases reqs[i]? <;> rfl
    · exact Or.inl (hnothing i)
    · intro job hjob
      rw [rpcRun_eq, if_neg hall] at hjob
      obtain ⟨q, -, rfl⟩ := List.mem_map.mp hjob
      rfl

/-- A `Tcl_GetInt` for the decimal numbers of an `int`. -/
def TclGetInt.small : TclGetInt where
  getInt s := (parseDecimal s).filter fun n => -2147483648 ≤ n && n < 2147483648
  getInt_decimal x hlo hhi := by
    rw [parseDecimal_decimal]
    simp [Option.filter, hlo, hhi]

theorem TclGetInt.small_isInt : TclGetInt.small.IsInt := by
  intro s n h
  obtain ⟨-, hn⟩ := Option.filter_eq_some_iff.mp h
  simpa using hn

/-- A job without strings, on a binary connection. -/
def ping : Request := ⟨plain, ⟨1, 0, .ok, none, none⟩, ⟨fun _ _ => 0, 0⟩⟩

/-- A binary connection from the pool. -/
def pooled : Conn := ⟨false, false, 0, 0, none, [], ⟨0, 0, 1, Nat.zero_lt_one⟩⟩

/-- The request is sent at once, and a response without data comes back. -/
def answered (n : Nat) : List Round :=
  [fun _ => some (.pollout (.ok n)), fun _ => some (.pollin (.ok [0, 0, 0, 0, 0, 0, 0, 0]))]


/-- The job after its first round. -/
def pinged : Slot :=
  (ping.start DStringLib.doubling pooled).io DStringLib.doubling TclGetInt.small
    (some (.pollout (.ok 8)))

theorem canSend_ping : CanSend (ping.start DStringLib.doubling pooled).x 8 :=
  ⟨by decide, by decide, by decide⟩

theorem canRecv_ping : CanRecv pinged.x [0, 0, 0, 0, 0, 0, 0, 0] :=
  ⟨by decide, by decide, by decide⟩

theorem feasible_ping : Feasible (rpcRunTrace DStringLib.doubling TclGetInt.small [ping]
    (fun _ => some pooled) (answered 8)) := by
  have htrace : rpcRunTrace DStringLib.doubling TclGetInt.small [ping] (fun _ => some pooled)
      (answered 8) = [
        (fun _ => some (.pollout (.ok 8)), [ping.start DStringLib.doubling pooled]),
        (fun _ => some (.pollin (.ok [0, 0, 0, 0, 0, 0, 0, 0])), [pinged])] := rfl
  rw [htrace]
  intro r hr i s hs
  rcases List.mem_cons.mp hr with rfl | hr
  · obtain ⟨rfl, rfl⟩ : i = 0 ∧ s = _ := by
      simpa [List.getElem?_singleton, eq_comm] using hs
    exact canSend_ping
  · obtain rfl := List.mem_singleton.mp hr
    obtain ⟨rfl, rfl⟩ : i = 0 ∧ s = _ := by
      simpa [List.getElem?_singleton, eq_comm] using hs
    exact fun _ => canRecv_ping

theorem allocated_ping : Allocated ping.job ping.arena := ⟨nofun, nofun⟩

/-- The connection of `ping` goes back to the pool. -/
theorem rpcRun_isolated_ping :
    ofJob 0 (rpcRunBacks DStringLib.doubling TclGetInt.small [ping] (fun _ => some pooled)
        (answered 8)) = [.push] ∧
      Isolated DStringLib.doubling TclGetInt.small [ping] (fun _ => some pooled) (answered 8) :=
  ⟨by decide, rpcRun_isolated _ _ TclGetInt.small_isInt _ _ _
    (fun q hq => by
      obtain rfl := List.mem_singleton.mp hq
      exact allocated_ping)
    feasible_ping
    (fun i q conn hq hconn => by
      obtain ⟨rfl, rfl⟩ : i = 0 ∧ q = ping := by
        simpa [List.getElem?_singleton, eq_comm] using hq
      obtain rfl := Option.some.inj hconn
      decide)⟩

/-- A job with a string of `2147483646` bytes. -/
def large : Request :=
  ⟨plain, ⟨1, 0, .ok, some ⟨0, 2147483646, 2147483647, by decide⟩, none⟩, ⟨fun _ _ => 0, 1⟩⟩

theorem length_bytes_large : (large.bytes false).length = 2147483654 := by
  show (be32 1 ++ be32 _ ++ inputData large.job.inPtr large.arena.mem).length = _
  simp only [List.length_append, length_be32, length_inputData]
  rfl

/-- **A longer request**: its connection goes back to the pool, and one byte of it has been
sent. -/
theorem rpcRun_not_isolated :
    ¬Isolated DStringLib.doubling TclGetInt.small [large] (fun _ => some pooled) (answered 1) := by
  intro h
  have hstart := rpcSetSend_sending large.cfg DStringLib.doubling
    (x := ⟨pooled, { large.job with result := 0, error := .esendwait }, large.arena⟩)
    ⟨fun ds hds => by obtain rfl := Option.some.inj hds; exact Nat.zero_lt_one, nofun⟩
  have hsent : (traffic 0 (rpcRunTrace DStringLib.doubling TclGetInt.small [large]
      (fun _ => some pooled) (answered 1))).sent = (large.bytes false).take 1 := by
    have hbytes : [] ++ gather (large.start DStringLib.doubling pooled).x.arena.mem
        (large.start DStringLib.doubling pooled).x.conn.iov = large.bytes false := hstart.1.bytes
    rw [← hbytes]
    rfl
  have hone := congrArg List.length hsent
  rw [List.length_take, length_bytes_large] at hone
  rcases h.clean 0 large pooled rfl rfl rfl with hclean | ⟨hclean, -⟩
  · rw [hclean] at hone
    exact absurd hone nofun
  · have hlen := congrArg List.length (show _ = large.bytes false from hclean)
    rw [length_bytes_large, hone] at hlen
    exact absurd hlen nofun

end Nsdci.Rpc
