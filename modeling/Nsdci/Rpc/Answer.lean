import Nsdci.Rpc.Isolation

/-!
# What a job is answered

`Use` is what `Dci_RpcRun` did with one connection that went back to the pool, for one of its jobs.
If it sent anything, it sent the request of the job; and the main result, `Use.answered`, says that
whatever response came in, the job has the code of that response and its data.
-/

namespace Nsdci.Rpc

open Lib

variable {lib : DStringLib} {tcl : TclGetInt} {r : Response} {req : Bytes} {http outs : Bool}
  {n : Nat} {x : Xfer} {s : Slot} {t : Traffic}

/-! ## One connection -/

theorem Progress.setError (h : Progress r n x) (e : Error) : Progress r n (x.setError e) := by
  unfold Progress at h ⊢
  split_ifs at h ⊢ with hlt
  · exact ⟨h.body, h.http, h.buf, h.out, h.small, h.lt, h.size, h.got, h.iov, h.left⟩
  · exact ⟨h.body, h.le, h.left, h.room, h.result, h.out⟩

/-- Where the response `r` is: on its way, or, if the job is done, all there. -/
structure Answering (r : Response) (outs : Bool) (s : Slot) (t : Traffic) : Prop where
  outPtr : s.x.job.outPtr.isSome = outs
  fits : r.Fits s.cfg
  coming : s.events = some .pollin → Progress r t.got.length s.x
  done : s.events = none → s.x.job.error = .ok → Progress r r.bytes.length s.x

/-- A job that has failed gets no response. -/
theorem answering_failed {y : Xfer} {e : Error} (h : Answering r outs s t)
    (he : e = .esend ∨ e = .erecv) (hout : y.job.outPtr.isSome = outs) :
    Answering r outs (s.after lib (y, e)) t := by
  rcases he with rfl | rfl <;>
    exact ⟨hout, h.fits, fun hev => absurd hev.symm (Option.some_ne_none _),
      fun _ herror => absurd herror Error.noConfusion⟩

/-- **A job sends.** -/
theorem answering_pollout (h : Answering r outs s t) (hev : s.events = some .pollout)
    (hsend : Sending req t.sent s.x) (hnil : t.got = []) (hhttp : s.x.conn.http = r.isHttp)
    (hsmall : req.length ≤ 2147483648) (res : Except Int Nat)
    (hcan : s.Can (some (.pollout res))) (tcl : TclGetInt) (lib : DStringLib) :
    Answering r outs (s.io lib tcl (some (.pollout res)))
      (s.traffic t (some (.pollout res))) := by
  have hio : s.io lib tcl (some (.pollout res)) = s.after lib (rpcSend s.x res) := by
    unfold Slot.io
    rw [hev]
  have hgot : (s.traffic t (some (.pollout res))).got = [] := by
    unfold Slot.traffic
    rw [hev]
    cases res <;> exact hnil
  have hjob : (rpcSend s.x res).1.job = s.x.job := by
    unfold rpcSend
    cases res with
    | error errnum => rfl
    | ok n => dsimp only; split_ifs <;> rfl
  have hout : (rpcSend s.x res).1.job.outPtr.isSome = outs := by rw [hjob, h.outPtr]
  rw [hio]
  generalize s.traffic t (some (.pollout res)) = t' at hgot
  cases res with
  | error errnum =>
      have hfailed : Answering r outs s t' := ⟨h.outPtr, h.fits,
        fun hev' => absurd (hev.symm.trans hev') nofun,
        fun hev' => absurd (hev.symm.trans hev') (Option.some_ne_none _)⟩
      exact answering_failed hfailed (Or.inl rfl) hout
  | ok n =>
      have hn : CanSend s.x n := by
        unfold Slot.Can at hcan
        rwa [hev] at hcan
      obtain ⟨hyhttp, hready, hres⟩ := hsend.step hsmall hn
      generalize rpcSend s.x (.ok n) = y at hyhttp hready hres hout
      obtain ⟨y, e⟩ := y
      have hestate : e = .esendwait ∨ e = .etimeout := hres.imp And.left And.left
      rcases hestate with rfl | rfl
      · exact ⟨hout, h.fits, fun hev' => absurd (hev.symm.trans hev') nofun,
          fun hev' => absurd (hev.symm.trans hev') (Option.some_ne_none _)⟩
      · have hset : InHeader r 0 (rpcSetRecv s.cfg lib (y.setError .etimeout)) ∧
            (rpcSetRecv s.cfg lib (y.setError .etimeout)).job.outPtr.isSome =
              y.job.outPtr.isSome :=
          rpcSetRecv_inHeader lib (hready.setError .etimeout) (hyhttp.trans hhttp) h.fits
        obtain ⟨hin, hsome⟩ := hset
        refine ⟨hsome.trans hout, h.fits, fun _ => ?_,
          fun hev' => absurd hev' (Option.some_ne_none _)⟩
        rw [hgot, List.length_nil, Progress, if_pos r.head_pos]
        exact hin

/-- **A job receives.** -/
theorem answering_pollin (h : Answering r outs s t) (hev : s.events = some .pollin)
    (res : Except Int Bytes) (hcan : s.Can (some (.pollin res))) (tcl : TclGetInt)
    (lib : DStringLib) (hgot : (s.traffic t (some (.pollin res))).got <+: r.bytes) :
    Answering r outs (s.io lib tcl (some (.pollin res)))
      (s.traffic t (some (.pollin res))) := by
  have hio : s.io lib tcl (some (.pollin res)) = s.after lib (rpcRecv lib tcl s.x res) := by
    unfold Slot.io
    rw [hev]
  rw [hio]
  cases res with
  | error errnum =>
      have htraffic : s.traffic t (some (.pollin (.error errnum))) = t := by
        unfold Slot.traffic
        rw [hev]
      rw [htraffic]
      exact answering_failed h (Or.inr rfl) h.outPtr
  | ok bs =>
      have htraffic : s.traffic t (some (.pollin (.ok bs))) = ⟨t.sent, t.got ++ bs⟩ := by
        unfold Slot.traffic
        rw [hev]
      rw [htraffic] at hgot ⊢
      by_cases hnil : bs = []
      · subst hnil
        have hsame : (⟨t.sent, t.got ++ []⟩ : Traffic) = t := by rw [List.append_nil]
        rw [hsame]
        exact answering_failed h (Or.inr rfl) h.outPtr
      have hbs : CanRecv s.x bs := by
        unfold Slot.Can at hcan
        rw [hev] at hcan
        exact hcan hnil
      -- what comes in is the next piece of the response
      obtain ⟨rest, hrest⟩ := hgot
      have hlen : t.got.length + bs.length ≤ r.bytes.length := by
        rw [← hrest, List.length_append, List.length_append]
        omega
      have hpiece : (r.bytes.drop t.got.length).take bs.length = bs := by
        rw [← hrest, List.append_assoc, List.drop_left, List.take_left]
      have hstep := (h.coming hev).step lib tcl (k := bs.length)
        (List.length_pos_of_ne_nil hnil) hlen hbs.le
      rw [hpiece] at hstep
      obtain ⟨hprog, hres, hout⟩ := hstep
      rw [h.outPtr] at hout
      have htotal : (t.got ++ bs).length = t.got.length + bs.length := List.length_append
      generalize rpcRecv lib tcl s.x (.ok bs) = y at hprog hres hout
      obtain ⟨y, e⟩ := y
      obtain rfl : e = recvResult r (t.got.length + bs.length) := hres
      unfold recvResult
      split_ifs with hall
      · refine ⟨hout, h.fits, fun hev' => absurd hev'.symm (Option.some_ne_none _), fun _ _ => ?_⟩
        exact hall ▸ hprog.setError _
      · refine ⟨hout, h.fits, fun _ => ?_,
          fun hev' => absurd (hev.symm.trans hev') (Option.some_ne_none _)⟩
        show Progress r (t.got ++ bs).length _
        rw [htotal]
        exact hprog.setError _

/-- **A round.** -/
theorem Answering.step (h : Answering r outs s t) (hstage : Stage tcl req http s t)
    (hhttp : s.x.conn.http = http) (hr : r.isHttp = http) (hsmall : req.length ≤ 2147483648)
    (lib : DStringLib) (revents : Option Revents) (hcan : s.Can revents)
    (hgot : (s.traffic t revents).got <+: r.bytes) :
    Answering r outs (s.io lib tcl revents) (s.traffic t revents) := by
  by_cases hout : s.events = some .pollout ∧ ∃ res, revents = some (.pollout res)
  · obtain ⟨hev, res, rfl⟩ := hout
    cases hstage with
    | sending events error got hsend =>
        exact answering_pollout h hev hsend got (hhttp.trans hr.symm) hsmall res hcan tcl lib
    | receiving events => exact absurd (events.symm.trans hev) nofun
    | whole events => exact absurd (events.symm.trans hev) nofun
    | failed events => exact absurd (events.symm.trans hev) nofun
  by_cases hin : s.events = some .pollin ∧ ∃ res, revents = some (.pollin res)
  · obtain ⟨hev, res, rfl⟩ := hin
    exact answering_pollin h hev res hcan tcl lib hgot
  obtain ⟨hio, htraffic⟩ := s.io_idle (t := t) lib tcl revents
    (fun hev res hres => hout ⟨hev, res, hres⟩) (fun hev res hres => hin ⟨hev, res, hres⟩)
  rw [hio, htraffic]
  exact h

/-- What has come in stays. -/
theorem Slot.traffic_got (s : Slot) (t : Traffic) (revents : Option Revents) :
    t.got <+: (s.traffic t revents).got := by
  unfold Slot.traffic
  split
  · exact List.prefix_rfl
  · exact List.prefix_append _ _
  · exact List.prefix_rfl

/-- The start of a job that gets the response `r`. -/
theorem answering_start (lib : DStringLib) (q : Request) (conn : Conn)
    (hq : Allocated q.job q.arena) (hfits : r.Fits q.cfg) :
    Answering r q.job.outPtr.isSome (q.start lib conn) {} := by
  obtain ⟨-, -, -, hjob⟩ := rpcSetSend_sending q.cfg lib
    (x := ⟨conn, { q.job with result := 0, error := .esendwait }, q.arena⟩) ⟨hq.inPtr, hq.outPtr⟩
  have hout : (q.start lib conn).x.job.outPtr = q.job.outPtr :=
    (congrArg Job.outPtr hjob : _ = ({ q.job with result := 0, error := .esendwait } : Job).outPtr)
  exact ⟨congrArg Option.isSome hout, hfits, fun hev => absurd hev nofun,
    fun hev => absurd hev (Option.some_ne_none _)⟩

/-- **What a job has when its response is there.** -/
theorem Answering.answered (h : Answering r outs s t) (hev : s.events = none)
    (herror : s.x.job.error = .ok) : s.x.job.result = r.code ∧
      s.x.job.outPtr.map (DString.contents s.x.arena.mem) =
        if outs then some r.data else none := by
  have hprog := h.done hev herror
  have hlen := r.length_bytes
  rw [Progress, if_neg (by omega), show r.bytes.length - r.head.length = r.data.length by omega]
    at hprog
  refine ⟨hprog.result, ?_⟩
  have hsome := h.outPtr
  cases hout : s.x.job.outPtr with
  | none =>
      rw [hout] at hsome
      rw [← hsome]
      rfl
  | some out =>
      obtain ⟨hlength, hread, -⟩ := hprog.out out hout
      rw [hout] at hsome
      rw [← hsome, Option.map_some, DString.contents, hlength, hread, List.take_length]
      rfl

/-! ## The jobs of a run -/

variable (lib tcl)

/-- `Dci_RpcRun`: the jobs afterwards, with the memory of their strings. -/
def rpcRunEnds (reqs : List Request) (gets : Nat → Option Conn) (rounds : List Round) :
    List (Job × Mem Nat) :=
  let slots := reqs.zipIdx.filterMap fun q => (gets q.2).map (q.1.start lib)
  let nbusy := slots.length
  if nbusy ≠ reqs.length then reqs.map fun q => (q.noConn, q.arena.mem)
  else (pollRounds lib tcl rounds slots nbusy).map fun s => (s.x.job, s.x.arena.mem)

/-- Its jobs are those of `rpcRun`. -/
theorem map_fst_rpcRunEnds (reqs : List Request) (gets : Nat → Option Conn)
    (rounds : List Round) :
    (rpcRunEnds lib tcl reqs gets rounds).map Prod.fst = rpcRun lib tcl reqs gets rounds := by
  unfold rpcRunEnds rpcRun
  dsimp only
  split_ifs <;> rw [List.map_map] <;> rfl

/-- A binary connection that went back to the pool: the run of `Dci_RpcRun`, the job `i` it was
for, and what the connection was. The request is an `int` and a string, and no longer than `RpcSend`
can count. -/
structure Use where
  reqs : List Request
  gets : Nat → Option Conn
  rounds : List Round
  i : Nat
  q : Request
  conn : Conn
  hq : reqs[i]? = some q
  hconn : gets i = some conn
  binary : conn.http = false
  cmd_ok : -2147483648 ≤ q.job.cmd ∧ q.job.cmd < 2147483648
  allocated : Allocated q.job q.arena
  small : (q.bytes false).length ≤ 2147483648
  feasible : Feasible (rpcRunTrace lib tcl reqs gets rounds)
  pushed : ofJob i (rpcRunBacks lib tcl reqs gets rounds) = [.push]

variable {lib tcl} (u : Use lib tcl)

/-- All jobs of the run had connections. -/
def Use.attempted : Bool := decide (∀ i < u.reqs.length, u.gets i ≠ none)

/-- What has passed over the connection. -/
def Use.traffic : Traffic := Rpc.traffic u.i (rpcRunTrace lib tcl u.reqs u.gets u.rounds)

/-- The job has this code, and its string, if there is one, has this data. -/
def Use.Gets (code : Int) (data : Bytes) : Prop :=
  ∃ job m, (rpcRunEnds lib tcl u.reqs u.gets u.rounds)[u.i]? = some (job, m) ∧
    job.error = .ok ∧ job.result = code ∧
    job.outPtr.map (DString.contents m) = u.q.job.outPtr.map fun _ => data

variable {u}

/-- A run in which a job had no connection sends nothing. -/
theorem Use.idle (h : u.attempted = false) : u.traffic = {} := by
  have hlen : (started lib u.gets u.reqs 0).length ≠ u.reqs.length := fun heq =>
    of_decide_eq_false h (by simpa using (length_started_eq_iff lib u.gets u.reqs 0).mp heq)
  have htrace : rpcRunTrace lib tcl u.reqs u.gets u.rounds = [] := if_pos hlen
  unfold Use.traffic
  rw [htrace]
  rfl

/-- The rounds of a run whose jobs all had connections, and the slots they end in. -/
theorem Use.trace_eq (h : u.attempted = true) :
    rpcRunTrace lib tcl u.reqs u.gets u.rounds = pollTrace lib tcl u.rounds
        (started lib u.gets u.reqs 0) (busy (started lib u.gets u.reqs 0)) ∧
      rpcRunEnds lib tcl u.reqs u.gets u.rounds =
        (pollRounds lib tcl u.rounds (started lib u.gets u.reqs 0)
          (busy (started lib u.gets u.reqs 0))).map fun s => (s.x.job, s.x.arena.mem) := by
  have hlen := (length_started_eq_iff lib u.gets u.reqs 0).mpr (by simpa using of_decide_eq_true h)
  rw [busy_started]
  exact ⟨if_neg (not_not.mpr hlen), if_neg (not_not.mpr hlen)⟩

/-- The slot of the job at the start. -/
theorem Use.slot (h : u.attempted = true) :
    (started lib u.gets u.reqs 0)[u.i]? = some (u.q.start lib u.conn) := by
  rw [getElem?_started lib u.gets u.reqs 0 (by simpa using of_decide_eq_true h), Nat.zero_add,
    u.hq, u.hconn]
  rfl

/-- The connection is given back as the slot of the job says. -/
theorem Use.sweep (h : u.attempted = true) :
    ((u.rounds.map (· u.i)).foldl (Slot.io lib tcl) (u.q.start lib u.conn)).sweep = [.push] := by
  have hpushed := u.pushed
  rw [ofJob_all lib tcl (of_decide_eq_true h) u.rounds u.i, Use.slot h] at hpushed
  exact hpushed

/-- **The job of a connection that is used again has been answered.** -/
theorem Use.answered (h : u.attempted = true) (htcl : tcl.IsInt) :
    u.traffic.sent = u.q.bytes false ∧ Whole tcl false u.traffic.got ∧
      ∀ r : BinaryResponse, u.traffic.got = (Response.binary r).bytes → u.Gets r.code r.data := by
  obtain ⟨htrace, hends⟩ := Use.trace_eq h
  obtain ⟨hstage, hhttp, -⟩ := stage_start tcl lib u.q u.conn u.allocated
  rw [u.binary] at hstage hhttp
  have hfeas := u.feasible
  have hslot := Use.slot h
  rw [htrace] at hfeas
  have htraffic : u.traffic = (pollTrace lib tcl u.rounds (started lib u.gets u.reqs 0)
      (busy (started lib u.gets u.reqs 0))).foldl (roundTraffic u.i) {} := by
    unfold Use.traffic
    rw [htrace]
    rfl
  obtain ⟨hend, hend'⟩ := stage_rounds htcl u.small lib u.rounds _ hfeas hslot hstage hhttp
  obtain ⟨hevents, herror, hsent, hwhole⟩ := (hend.sweep hend').2 (Use.sweep h)
  rw [← htraffic] at hsent hwhole
  refine ⟨hsent, hwhole, fun r hgot => ?_⟩
  -- while a front of the response has come in, the job is answered
  have hall := rounds_keep (P := fun s t => (Stage tcl (u.q.bytes false) false s t ∧
      s.x.conn.http = false) ∧ (t.got <+: (Response.binary r).bytes →
        Answering (.binary r) u.q.job.outPtr.isSome s t))
    (fun s t revents hst hcan => ?_) u.rounds _ hfeas hslot
    ⟨⟨hstage, hhttp⟩, fun _ => answering_start lib u.q u.conn u.allocated trivial⟩
  · rw [← htraffic, hgot] at hall
    obtain ⟨-, hanswering⟩ := hall
    obtain ⟨hresult, hdata⟩ := (hanswering List.prefix_rfl).answered hevents herror
    refine ⟨_, _, ?_, herror, hresult, hdata.trans ?_⟩
    · rw [hends, List.getElem?_map, pollRounds_eq, List.getElem?_mapIdx, hslot]
      rfl
    · cases u.q.job.outPtr <;> rfl
  · obtain ⟨⟨hst, hconn⟩, hanswer⟩ := hst
    refine ⟨hst.step hconn htcl u.small lib revents hcan, fun hfront => ?_⟩
    exact (hanswer ((s.traffic_got t revents).trans hfront)).step hst hconn rfl u.small lib
      revents hcan hfront

end Nsdci.Rpc
