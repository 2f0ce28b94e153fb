import Nsdci.Rpc
import Mathlib.Data.List.Infix

/-!
# Running RPC jobs (`Dci_RpcRun`)

`rpcRun` takes a connection for every job, polls them all until each is done or the time is up,
and leaves in each job its two results: `error`, how the exchange went, and `result`, the code
the server answered. What `RpcGet` gave and what each `poll`, `sendmsg` and `recvmsg` did are
inputs; the connections go back to their pool after this.

`exchange` plays one job by itself. The main result is `rpcRun_eq`: the jobs do not disturb each
other, so each ends as it would alone.
-/

namespace Nsdci.Rpc

open Lib

/-- `pfds[i].events`. -/
inductive Events where
  | pollout | pollin
  deriving DecidableEq, Repr

/-- What `poll` reported for one socket, with the result of the call made then. -/
inductive Revents where
  | pollout (sent : Except Int Nat)
  | pollin (recvd : Except Int Bytes)

/-- A job with its connection. -/
structure Slot where
  cfg : Config
  x : Xfer
  events : Option Events

/-- A job before it runs: the client end point it is for, and the memory of its strings. -/
structure Request where
  cfg : Config
  job : Job
  arena : Arena

/-- One round of the loop: what `poll` reported for each socket. -/
abbrev Round := Nat → Option Revents

variable (lib : DStringLib) (tcl : TclGetInt)

/-- Set up a job on its connection. The first possible error is a send wait timeout. -/
def Request.start (q : Request) (conn : Conn) : Slot :=
  { cfg := q.cfg
    x := rpcSetSend q.cfg lib
      { conn := conn, job := { q.job with result := 0, error := .esendwait }, arena := q.arena }
    events := some .pollout }

/-- A job that gets no connection. -/
def Request.noConn (q : Request) : Job := { q.job with result := 0, error := .enoconn }

/-- The `switch` on the error of a job after some I/O: more is pending, the request is sent and
the response comes next, or the job is done. -/
def Slot.after (s : Slot) (r : Xfer × Error) : Slot :=
  let x := { r.1 with job := { r.1.job with error := r.2 } }
  match r.2 with
  | .esendwait | .erecvwait => { s with x := x }
  | .etimeout => { s with x := rpcSetRecv s.cfg lib x, events := some .pollin }
  | _ => { s with x := x, events := none }

/-- The body of the loop over the sockets. `poll` reports only what was asked for. -/
def Slot.io (s : Slot) (revents : Option Revents) : Slot :=
  match s.events, revents with
  | some .pollout, some (.pollout sent) => s.after lib (rpcSend s.x sent)
  | some .pollin, some (.pollin recvd) => s.after lib (rpcRecv lib tcl s.x recvd)
  | _, _ => s

/-- The loop over the sockets after a `poll`, from socket `i` on, with the count of jobs that
are not done. -/
def pollSlots (round : Round) : Nat → List Slot → Nat → List Slot × Nat
  | _, [], nbusy => ([], nbusy)
  | i, s :: slots, nbusy =>
      let s' := s.io lib tcl (round i)
      let nbusy := if s.events ≠ none ∧ s'.events = none then nbusy - 1 else nbusy
      let r := pollSlots round (i + 1) slots nbusy
      (s' :: r.1, r.2)

/-- The loop of `Dci_RpcRun`. The rounds are those before the time is up. -/
def pollRounds : List Round → List Slot → Nat → List Slot
  | [], slots, _ => slots
  | round :: rounds, slots, nbusy =>
      if nbusy = 0 then slots
      else
        let r := pollSlots lib tcl round 0 slots nbusy
        pollRounds rounds r.1 r.2

/-- `Dci_RpcRun`: the jobs afterwards. All jobs or no jobs are attempted. -/
def rpcRun (reqs : List Request) (gets : Nat → Option Conn) (rounds : List Round) : List Job :=
  let slots := reqs.zipIdx.filterMap fun q => (gets q.2).map (q.1.start lib)
  let nbusy := slots.length
  if nbusy ≠ reqs.length then reqs.map Request.noConn
  else (pollRounds lib tcl rounds slots nbusy).map fun s => s.x.job

/-- The backwards compatible codes of `Dci_RpcTimedSend`. -/
def rpcNoconn : Int := -1
@[inherit_doc rpcNoconn] def rpcTimeout : Int := -2
@[inherit_doc rpcNoconn] def rpcError : Int := -3

/-- `Dci_RpcTimedSend`: one job, and its two results as one code. `RPC_ETIMEOUT` is passed on as
it is. -/
def rpcTimedSend (q : Request) (gets : Nat → Option Conn) (rounds : List Round) : Int :=
  match rpcRun lib tcl [q] gets rounds with
  | [] => 0
  | job :: _ =>
      match job.error with
      | .ok => job.result
      | .enoconn => rpcNoconn
      | .esend | .erecv | .ehttpsize | .ehttpparse => rpcError
      | .esendwait | .erecvwait => rpcTimeout
      | .etimeout => -8

/-- One job alone: its exchange over the connection, given what happened on its socket. -/
def exchange (q : Request) (conn : Conn) (ios : List (Option Revents)) : Job :=
  (ios.foldl (Slot.io lib tcl) (q.start lib conn)).x.job

/-! ## The jobs do not disturb each other -/

/-- How many jobs are not done. -/
def busy (slots : List Slot) : Nat := slots.countP fun s => s.events.isSome

theorem busy_cons (s : Slot) (slots : List Slot) : busy (s :: slots) = busy [s] + busy slots := by
  unfold busy
  rw [List.countP_cons, List.countP_cons, List.countP_nil]
  omega

/-- A job that is done stays as it is. -/
theorem Slot.io_done {lib : DStringLib} {tcl : TclGetInt} {s : Slot} (h : s.events = none)
    (revents : Option Revents) :
    s.io lib tcl revents = s := by
  unfold Slot.io
  rw [h]

/-- It stays so in any rounds. -/
theorem Slot.foldl_io_done {lib : DStringLib} {tcl : TclGetInt} {s : Slot}
    (h : s.events = none) (ios : List (Option Revents)) :
    ios.foldl (Slot.io lib tcl) s = s := by
  induction ios with
  | nil => rfl
  | cons io ios ih => rw [List.foldl_cons, Slot.io_done h, ih]

/-- One round: each socket for itself, and the count stays the number of jobs not done. -/
theorem pollSlots_eq (round : Round) (i : Nat) (slots : List Slot) (n : Nat) :
    let r := pollSlots lib tcl round i slots (n + busy slots)
    r.1 = slots.mapIdx (fun j s => s.io lib tcl (round (i + j))) ∧ r.2 = n + busy r.1 := by
  induction slots generalizing i n with
  | nil => exact ⟨rfl, rfl⟩
  | cons s slots ih =>
      simp only [pollSlots]
      set s' := s.io lib tcl (round i) with hs'
      have hdone : s.events = none → s'.events = none := by
        intro h
        rw [hs', Slot.io_done h, h]
      have hcount : (if s.events ≠ none ∧ s'.events = none then n + busy (s :: slots) - 1
          else n + busy (s :: slots)) = n + busy [s'] + busy slots := by
        rw [busy_cons]
        unfold busy
        cases h : s.events <;> cases h' : s'.events <;> simp_all <;> omega
      rw [hcount]
      obtain ⟨hslots, hbusy⟩ := ih (i + 1) (n + busy [s'])
      constructor
      · rw [List.mapIdx_cons, hslots]
        simp [hs', Nat.add_assoc, Nat.add_comm 1]
      · rw [hbusy, Nat.add_assoc, ← busy_cons]

/-- All rounds: each socket plays its own events. -/
theorem pollRounds_eq (rounds : List Round) (slots : List Slot) :
    pollRounds lib tcl rounds slots (busy slots) =
      slots.mapIdx fun i s => (rounds.map (· i)).foldl (Slot.io lib tcl) s := by
  induction rounds generalizing slots with
  | nil =>
      apply List.ext_getElem (by simp [pollRounds])
      intro i h₁ h₂
      simp [pollRounds]
  | cons round rounds ih =>
      simp only [pollRounds]
      split_ifs with hzero
      · -- no job is left: further rounds change nothing
        have hdone : ∀ s ∈ slots, s.events = none := by
          intro s hs
          simpa using List.countP_eq_zero.mp hzero s hs
        apply List.ext_getElem (by simp)
        intro i h₁ h₂
        rw [List.getElem_mapIdx, Slot.foldl_io_done (hdone _ (List.getElem_mem h₁))]
      · obtain ⟨hslots, hbusy⟩ := pollSlots_eq lib tcl round 0 slots 0
        rw [Nat.zero_add] at hslots hbusy
        rw [hbusy, Nat.zero_add, ih, hslots, List.mapIdx_mapIdx]
        congr 1
        funext i s
        simp

/-- The slots of the jobs from number `k` on. -/
def started (gets : Nat → Option Conn) (reqs : List Request) (k : Nat) :
    List Slot :=
  (reqs.zipIdx k).filterMap fun q => (gets q.2).map (q.1.start lib)

theorem started_cons (gets : Nat → Option Conn) (q : Request) (reqs : List Request) (k : Nat) :
    started lib gets (q :: reqs) k =
      ((gets k).map (q.start lib)).toList ++ started lib gets reqs (k + 1) := by
  unfold started
  rw [List.zipIdx_cons, List.filterMap_cons]
  cases gets k <;> rfl

theorem length_started_le (gets : Nat → Option Conn) (reqs : List Request) (k : Nat) :
    (started lib gets reqs k).length ≤ reqs.length := by
  have h := List.length_filterMap_le (fun q : Request × Nat => (gets q.2).map (q.1.start lib))
    (reqs.zipIdx k)
  rwa [List.length_zipIdx] at h

/-- Started jobs are not done. -/
theorem busy_started (gets : Nat → Option Conn) (reqs : List Request) (k : Nat) :
    busy (started lib gets reqs k) = (started lib gets reqs k).length := by
  unfold busy
  rw [List.countP_eq_length]
  intro s hs
  obtain ⟨q, -, hq⟩ := List.mem_filterMap.mp hs
  obtain ⟨conn, -, rfl⟩ := Option.map_eq_some_iff.mp hq
  rfl

/-- The connections are all there exactly if every `RpcGet` gave one. -/
theorem length_started_eq_iff (gets : Nat → Option Conn) (reqs : List Request) (k : Nat) :
    (started lib gets reqs k).length = reqs.length ↔
      ∀ i < reqs.length, gets (k + i) ≠ none := by
  induction reqs generalizing k with
  | nil => simp [started]
  | cons q reqs ih =>
      have hle := length_started_le lib gets reqs (k + 1)
      have hih := ih (k + 1)
      rw [started_cons, List.length_append, List.length_cons]
      have hshift : (∀ i < reqs.length + 1, gets (k + i) ≠ none) ↔
          gets k ≠ none ∧ ∀ i < reqs.length, gets (k + 1 + i) ≠ none := by
        constructor
        · intro h
          refine ⟨h 0 (by omega), fun i hi => ?_⟩
          have := h (i + 1) (by omega)
          rwa [show k + (i + 1) = k + 1 + i by omega] at this
        · rintro ⟨h0, h⟩ i hi
          cases i with
          | zero => exact h0
          | succ i =>
              rw [show k + (i + 1) = k + 1 + i by omega]
              exact h i (by omega)
      rw [hshift, ← hih]
      cases gets k with
      | none => simp; omega
      | some conn => simp; omega

/-- The jobs of started slots, each after its own events. -/
theorem started_mapIdx (gets : Nat → Option Conn) (rounds : List Round) (reqs : List Request)
    (k : Nat) (h : ∀ i < reqs.length, gets (k + i) ≠ none) :
    (started lib gets reqs k).mapIdx (fun i s =>
        ((rounds.map (· (k + i))).foldl (Slot.io lib tcl) s).x.job) =
      reqs.mapIdx fun i q => match gets (k + i) with
        | some conn => exchange lib tcl q conn (rounds.map (· (k + i)))
        | none => q.noConn := by
  induction reqs generalizing k with
  | nil => rfl
  | cons q reqs ih =>
      obtain ⟨conn, hconn⟩ := Option.ne_none_iff_exists'.mp (h 0 (by simp))
      rw [Nat.add_zero] at hconn
      have hrest := ih (k + 1) fun i hi => by
        have := h (i + 1) (by simpa using hi)
        rwa [show k + (i + 1) = k + 1 + i by omega] at this
      rw [started_cons, hconn, Option.map_some, Option.toList_some, List.singleton_append,
        List.mapIdx_cons, List.mapIdx_cons]
      simp only [show ∀ i, k + 1 + i = k + (i + 1) by omega] at hrest
      rw [Nat.add_zero, hconn, hrest]
      rfl

/-- **Each job ends as it would alone, if all have connections; otherwise none is attempted.** -/
theorem rpcRun_eq (reqs : List Request) (gets : Nat → Option Conn) (rounds : List Round) :
    rpcRun lib tcl reqs gets rounds =
      if ∀ i < reqs.length, gets i ≠ none then
        reqs.mapIdx fun i q => match gets i with
          | some conn => exchange lib tcl q conn (rounds.map (· i))
          | none => q.noConn
      else reqs.map Request.noConn := by
  have hlen := length_started_eq_iff lib gets reqs 0
  simp only [Nat.zero_add] at hlen
  have hbusy := busy_started lib gets reqs 0
  show (if (started lib gets reqs 0).length ≠ reqs.length then reqs.map Request.noConn
    else (pollRounds lib tcl rounds (started lib gets reqs 0)
      (started lib gets reqs 0).length).map fun s => s.x.job) = _
  by_cases hall : ∀ i < reqs.length, gets i ≠ none
  · have hmap := started_mapIdx lib tcl gets rounds reqs 0
      (by simpa using hall)
    simp only [Nat.zero_add] at hmap
    rw [if_neg (not_not.mpr (hlen.mpr hall)), if_pos hall, ← hbusy, pollRounds_eq, ← hmap]
    apply List.ext_getElem (by simp)
    intro i h₁ h₂
    simp
  · rw [if_pos fun h => hall (hlen.mp h), if_neg hall]

end Nsdci.Rpc
