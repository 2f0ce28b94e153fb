import Nsdci.Rpc.Answer
import Nsdci.Rps.Dispatch

/-!
# RPC jobs and the calls they make

The client of `Dci_RpcRun` and the server of `RpsProc` together. A connection carries the requests
of one job after the other, as long as it goes back to the pool of its client, and the responses the
other way. The main result, `rpc_exactly_once`, says that the server has called its procedure
exactly once for each of these jobs, in order, on the command and the input of the job, and that the
job has the result and the output of its own call.
-/

namespace Nsdci.Rps

open Lib Server

variable {α : Type} {proc : RpcProc α} {lib : DStringLib} {tcl : Rpc.TclGetInt}

/-! ## The answers of the procedure -/

/-- The status for a command is an `int`. -/
def IntStatus (proc : RpcProc α) (ok : α → Prop) : Prop :=
  ∀ a cmd input, ok a → -2147483648 ≤ cmd ∧ cmd < 2147483648 →
    -2147483648 ≤ (proc a cmd input []).2.1 ∧ (proc a cmd input []).2.1 < 2147483648

/-- The procedure called on some calls of any clients, one after the other. -/
def Sequential (proc : RpcProc α) : α → List (Nat × Call) → α → Prop
  | a, [], a' => a = a'
  | a, (_, c) :: h, a' =>
      (proc a c.cmd c.input c.output).2 = (c.status, c.appended) ∧
        Sequential proc (proc a c.cmd c.input c.output).1 h a'

/-- The calls of one client. -/
def callsOf (h : List (Nat × Call)) (n : Nat) : List Call :=
  (h.filter fun p => p.1 = n).map Prod.snd

/-- All calls so far, of all clients, in the order in which they were made. -/
structure History (proc : RpcProc α) (arg : α) (d : Data α) (h : List (Nat × Call)) : Prop where
  sequential : Sequential proc arg h d.arg
  calls : ∀ n, d.calls n = callsOf h n

theorem Sequential.snoc {a b : α} {h : List (Nat × Call)} (hseq : Sequential proc a h b) {n : Nat}
    {c : Call} {b' : α} (hcall : proc b c.cmd c.input c.output = (b', c.status, c.appended)) :
    Sequential proc a (h ++ [(n, c)]) b' := by
  induction h generalizing a with
  | nil =>
      obtain rfl : a = b := hseq
      exact ⟨congrArg Prod.snd hcall, congrArg Prod.fst hcall⟩
  | cons p h ih => exact ⟨hseq.1, ih hseq.2⟩

theorem callsOf_snoc (h : List (Nat × Call)) (n : Nat) (c : Call) :
    callsOf (h ++ [(n, c)]) = Function.update (callsOf h) n (callsOf h n ++ [c]) := by
  funext m
  unfold callsOf
  rw [List.filter_append, List.map_append]
  by_cases hm : m = n
  · subst hm
    simp [callsOf]
  · have hne : n ≠ m := fun h => hm h.symm
    simp [hm, hne]

/-- **The calls of all clients are one sequence of calls.** -/
theorem keepsData_history (lib : DStringLib) (proc : RpcProc α) (bufsize : Nat)
    (retryInterval : Int) (arg : α) :
    KeepsData (rpsSetup lib proc bufsize retryInterval) fun d => ∃ h, History proc arg d h := by
  refine keepsData_rps lib proc bufsize retryInterval ?_ ?_
  · rintro d d' harg hcalls ⟨h, hseq, hof⟩
    exact ⟨h, harg ▸ hseq, hcalls ▸ hof⟩
  · rintro d d' n c ⟨h, hseq, hof⟩ hcall hcalls
    refine ⟨h ++ [(n, c)], hseq.snoc hcall, fun m => ?_⟩
    rw [hcalls, callsOf_snoc, funext hof]

/-- A call is made in a state that is as it is to be. -/
theorem Sequential.call {ok : α → Prop} (hproc : Proper proc ok) {a b : α}
    {h : List (Nat × Call)} (hseq : Sequential proc a h b) (hok : ok a) {p : Nat × Call}
    (hp : p ∈ h) : ∃ a', ok a' ∧
      (proc a' p.2.cmd p.2.input p.2.output).2 = (p.2.status, p.2.appended) := by
  induction h generalizing a with
  | nil => exact absurd hp List.not_mem_nil
  | cons q h ih =>
      rcases List.mem_cons.mp hp with rfl | hp
      · exact ⟨a, hok, hseq.1⟩
      · exact ih hseq.2 (hproc.keeps _ _ _ _ hok) hp

/-- The history of a run. -/
theorem rps_history (lib : DStringLib) (proc : RpcProc α) (bufsize : Nat) (retryInterval : Int)
    (clients : List Nat) (mem : Mem Block) {arg : α} {es : List Event}
    {s : Thread Block (Data α)} {w : Watch}
    (hrun : run (rpsStep lib proc bufsize retryInterval) (rpsStart clients mem arg) es =
      some (s, w)) : ∃ h, History proc arg s.data h := by
  have hstep : ∀ (p : Thread Block (Data α) × Watch) e p', (∃ h, History proc arg p.1.data h) →
      rpsStep lib proc bufsize retryInterval p e = some p' →
      ∃ h, History proc arg p'.1.data h := by
    intro p e p' h hstep
    obtain ⟨s', hs', rfl⟩ := Option.map_eq_some_iff.mp hstep
    exact step_data (keepsData_history lib proc bufsize retryInterval arg) h hs'
  have hstart : ∃ h, History proc arg (rpsStart clients mem arg).1.data h :=
    ⟨[], (rfl : arg = arg), fun _ => rfl⟩
  exact run_invariant_all hstep hstart hrun

/-- The response to a call, as the client sees it. -/
theorem Call.response_eq {ok : α → Prop} (hproc : Proper proc ok) (hstatus : IntStatus proc ok)
    {c : Call} (hsound : c.Sound) {a : α} (hok : ok a)
    (hres : (proc a c.cmd c.input c.output).2 = (c.status, c.appended)) :
    ∃ r : Rpc.BinaryResponse, r.code = c.status ∧ r.data = c.appended ∧
      (Rpc.Response.binary r).bytes = c.response := by
  rw [hsound.output] at hres
  have hcode : (proc a c.cmd c.input []).2.1 = c.status := congrArg Prod.fst hres
  have happended : (proc a c.cmd c.input []).2.2 = c.appended := congrArg Prod.snd hres
  refine ⟨⟨c.status, c.appended, hcode ▸ hstatus _ _ _ hok hsound.cmd,
    happended ▸ hproc.room _ hok _ _ hsound.input⟩, rfl, rfl, ?_⟩
  show be32 c.status ++ be32 c.appended.length ++ c.appended =
    message c.status (c.output ++ c.appended)
  rw [hsound.output, List.nil_append]
  rfl

/-- The responses of a session. -/
theorem History.response {ok : α → Prop} {arg : α} {s : Thread Block (Data α)} {w : Watch}
    {h : List (Nat × Call)} (hhistory : History proc arg s.data h) (hproc : Proper proc ok)
    (hstatus : IntStatus proc ok) (harg : ok arg) {n : Nat}
    (hsound : ∀ c ∈ w.calls s n, c.Sound) :
    ∀ c ∈ w.calls s n, ∃ r : Rpc.BinaryResponse, r.code = c.status ∧ r.data = c.appended ∧
      (Rpc.Response.binary r).bytes = c.response := by
  intro c hc
  have hmem : c ∈ callsOf h n := hhistory.calls n ▸ List.mem_of_mem_drop hc
  obtain ⟨p, hp, rfl⟩ := List.mem_map.mp hmem
  obtain ⟨a, hok, hres⟩ := hhistory.sequential.call hproc harg (List.mem_of_mem_filter hp)
  exact Call.response_eq hproc hstatus (hsound p.2 hc) hok hres

/-! ## The jobs of a connection -/

/-- The request of a job. -/
def askOf (u : Rpc.Use lib tcl) : Ask where
  cmd := u.q.job.cmd
  data := Rpc.inputData u.q.job.inPtr u.q.arena.mem
  cmd_ok := u.cmd_ok
  data_ok := by
    have hsmall := u.small
    simp only [Rpc.Request.bytes, Rpc.requestBytes, Rpc.requestHead, Bool.false_eq_true, if_false,
      List.length_append, length_be32] at hsmall
    omega

/-- A job is answered by a call: the call was on its command and its input, and the job has the
status of the call, and what was appended to its output. -/
structure AnsweredBy (u : Rpc.Use lib tcl) (c : Call) : Prop where
  asked : c.asked = (askOf u).asked
  gets : u.Gets c.status c.appended

/-- The jobs that were attempted. -/
def attempts (uses : List (Rpc.Use lib tcl)) : List (Rpc.Use lib tcl) :=
  uses.filter Rpc.Use.attempted

/-- The others have sent and received nothing. -/
theorem flatMap_attempts (f : Rpc.Traffic → Bytes) (hf : f {} = [])
    (uses : List (Rpc.Use lib tcl)) :
    uses.flatMap (fun u => f u.traffic) = (attempts uses).flatMap fun u => f u.traffic := by
  unfold attempts
  induction uses with
  | nil => rfl
  | cons u uses ih =>
      cases h : u.attempted with
      | true => rw [List.filter_cons_of_pos h, List.flatMap_cons, List.flatMap_cons, ih]
      | false =>
          rw [List.filter_cons_of_neg (by simp [h]), List.flatMap_cons, Rpc.Use.idle h, hf, ih]
          rfl

/-- The calls on the first requests are those that the jobs are answered by. -/
theorem answeredBy_of_front {us : List (Rpc.Use lib tcl)} {calls : List Call} {later : List Ask}
    (hanswer : ∀ u ∈ us, ∀ c ∈ calls, c.asked = (askOf u).asked → u.traffic.got = c.response →
      AnsweredBy u c)
    (hcalls : calls.map Call.asked =
      ((us.map askOf ++ later).take calls.length).map Ask.asked)
    (hgots : us.map (fun u => u.traffic.got) <+: calls.map Call.response) :
    ∃ first after, calls = first ++ after ∧ List.Forall₂ AnsweredBy us first ∧
      after.map Call.asked = (later.take after.length).map Ask.asked := by
  induction us generalizing calls with
  | nil => exact ⟨[], calls, rfl, .nil, hcalls⟩
  | cons u us ih =>
      cases calls with
      | nil => exact absurd (List.prefix_nil.mp hgots) (List.cons_ne_nil _ _)
      | cons c calls =>
          rw [List.map_cons, List.map_cons, List.cons_prefix_cons] at hgots
          simp only [List.map_cons, List.cons_append, List.length_cons, List.take_succ_cons,
            List.cons.injEq] at hcalls
          obtain ⟨first, after, rfl, hfirst, hafter⟩ := ih
            (fun u' hu' c' hc' => hanswer u' (List.mem_cons_of_mem _ hu') c'
              (List.mem_cons_of_mem _ hc')) hcalls.2 hgots.2
          exact ⟨c :: first, after, rfl, .cons (hanswer u List.mem_cons_self c
            List.mem_cons_self hcalls.1 hgots.1) hfirst, hafter⟩

/-- What is on the connection of client `n` in a session in which all sends were clean: the server
has received a front of what the jobs `uses` and, behind them, some requests `later` have sent; and
these jobs have received a front of what came behind the handshake. -/
structure Link (mem : Mem Block) (w : Watch) (n : Nat) (uses : List (Rpc.Use lib tcl))
    (later : List Ask) : Prop where
  clean : w.clean n
  up : w.got n <+: uses.flatMap (fun u => u.traffic.sent) ++ later.flatMap Ask.bytes
  down : mem.read ⟨.handshake, 0⟩ 32 ++ uses.flatMap (fun u => u.traffic.got) <+: w.sent n

/-- **The jobs of a connection and the calls of its session.** -/
theorem Link.answered {mem : Mem Block} {s : Thread Block (Data α)} {w : Watch} {n : Nat}
    {uses : List (Rpc.Use lib tcl)} {later : List Ask} (hlink : Link mem w n uses later)
    (htcl : tcl.IsInt) {bufsize : Nat} (hseated : SeatedAt bufsize mem n s w)
    (hresponse : ∀ c ∈ w.calls s n, ∃ r : Rpc.BinaryResponse, r.code = c.status ∧
      r.data = c.appended ∧ (Rpc.Response.binary r).bytes = c.response) :
    ∃ first after, w.calls s n = first ++ after ∧
      List.Forall₂ AnsweredBy (attempts uses) first ∧
      after.map Call.asked = (later.take after.length).map Ask.asked := by
  have hsound : ∀ c ∈ w.calls s n, c.Sound := Seated.sound hseated
  have hsent : w.sent n <+: stream mem (w.calls s n) := (Seated.sent hseated hlink.clean).front
  have husers : ∀ u ∈ attempts uses, u.traffic.sent = (askOf u).bytes ∧
      Rpc.Whole tcl false u.traffic.got ∧ ∀ r : Rpc.BinaryResponse,
        u.traffic.got = (Rpc.Response.binary r).bytes → u.Gets r.code r.data := fun u hu =>
    Rpc.Use.answered (List.mem_filter.mp hu).2 htcl
  refine answeredBy_of_front (fun u hu c hc hasked hgot => ?_) ?_ ?_
  · obtain ⟨r, hcode, hdata, hbytes⟩ := hresponse c hc
    refine ⟨hasked, ?_⟩
    rw [← hcode, ← hdata]
    exact (husers u hu).2.2 r (hgot.trans hbytes.symm)
  · -- the calls are on the requests
    obtain ⟨rest, hrest, -⟩ := Seated.session hseated
    have hrest' : w.got n = (w.calls s n).flatMap Call.request ++ rest := hrest
    obtain ⟨more, hmore⟩ := hlink.up
    have hasks : uses.flatMap (fun u => u.traffic.sent) ++ later.flatMap Ask.bytes =
        ((attempts uses).map askOf ++ later).flatMap Ask.bytes := by
      rw [flatMap_attempts Rpc.Traffic.sent rfl, List.flatMap_append, List.flatMap_map]
      congr 1
      exact List.flatMap_congr fun u hu => (husers u hu).1
    rw [hrest', hasks] at hmore
    exact (calls_of_front hsound hmore).1
  · -- what the jobs have received are the first of the responses
    have hgots : ∀ g ∈ (attempts uses).map fun u => u.traffic.got, Rpc.Whole tcl false g := by
      intro g hg
      obtain ⟨u, hu, rfl⟩ := List.mem_map.mp hg
      exact (husers u hu).2.1
    have hresponses : ∀ r ∈ (w.calls s n).map Call.response, Rpc.Whole tcl false r := by
      intro r hr
      obtain ⟨c, hc, rfl⟩ := List.mem_map.mp hr
      obtain ⟨r, -, -, hbytes⟩ := hresponse c hc
      exact hbytes ▸ Rpc.Response.whole tcl (.binary r)
    refine Rpc.wholes_of_front hgots hresponses ?_
    have hdown := hlink.down
    rw [flatMap_attempts Rpc.Traffic.got rfl] at hdown
    rw [← List.flatMap_def, ← List.flatMap_def]
    exact (List.prefix_append_right_inj _).mp (hdown.trans hsent)

/-- Clean sends can be checked. -/
instance (iov : List (Iovec Block)) (ret : Int) : Decidable (SendsClean iov ret) :=
  inferInstanceAs (Decidable (_ ∧ _ ∧ _ ∧ _))

/-- All sends of a step are clean. -/
def cleanStep (p : Thread Block (Data α) × Watch) (e : Event) : Bool :=
  match p.1.point, e with
  | .sending n _, .send ret _ => decide (SendsClean (p.1.peers n).client.iov ret)
  | _, _ => true

/-- A run of clean sends is clean. -/
theorem clean_of_along {bufsize : Nat} {retryInterval : Int} {clients : List Nat}
    {mem : Mem Block} {arg : α} {es : List Event} {s : Thread Block (Data α)} {w : Watch}
    (halong : Along (rpsStep lib proc bufsize retryInterval) (fun p e => cleanStep p e = true)
      (rpsStart clients mem arg) es)
    (hrun : run (rpsStep lib proc bufsize retryInterval) (rpsStart clients mem arg) es =
      some (s, w)) : ∀ n, w.clean n := by
  have hkeep : ∀ (p : Thread Block (Data α) × Watch) e p', (∀ n, p.2.clean n) →
      cleanStep p e = true → rpsStep lib proc bufsize retryInterval p e = some p' →
      ∀ n, p'.2.clean n := by
    intro p e p' h hclean hstep
    obtain ⟨s', -, rfl⟩ := Option.map_eq_some_iff.mp hstep
    show ∀ n, (p.2.next bufsize p.1 e s').clean n
    unfold cleanStep at hclean
    unfold Watch.next
    split
    · split_ifs
      · exact (Function.forall_update_iff p.2.clean fun _ q => q).mpr
          ⟨trivial, fun n _ => h n⟩
      · exact h
    · exact h
    · simp only [*] at hclean
      exact (Function.forall_update_iff p.2.clean fun _ q => q).mpr
        ⟨⟨h _, of_decide_eq_true hclean⟩, fun n _ => h n⟩
    · exact h
  exact run_invariant hkeep (fun _ => trivial) halong hrun

/-- The client's job for that request. -/
def pair : Rpc.Request :=
  ⟨Rpc.plain, ⟨1, 0, .ok, some ⟨0, 2, 3, by decide⟩, some ⟨1, 0, 4, by decide⟩⟩,
    ⟨fun b i => if b = 0 then 5 + UInt8.ofNat i else 0, 2⟩⟩

/-- It is sent at once, and the answer comes in two pieces. -/
def twoRounds : List Rpc.Round :=
  [fun _ => some (.pollout (.ok 10)), fun _ => some (.pollin (.ok [0, 0, 0, 1, 0])),
    fun _ => some (.pollin (.ok [0, 0, 1, 9]))]

/-- The job before each of these rounds. -/
def pairSlots : List (Rpc.Round × Rpc.Slot) :=
  let start := pair.start DStringLib.doubling Rpc.pooled
  let sent := start.io DStringLib.doubling Rpc.TclGetInt.small (some (.pollout (.ok 10)))
  let half := sent.io DStringLib.doubling Rpc.TclGetInt.small (some (.pollin (.ok [0, 0, 0, 1, 0])))
  [(fun _ => some (.pollout (.ok 10)), start),
    (fun _ => some (.pollin (.ok [0, 0, 0, 1, 0])), sent),
    (fun _ => some (.pollin (.ok [0, 0, 1, 9])), half)]

theorem feasible_pair : Rpc.Feasible (Rpc.rpcRunTrace DStringLib.doubling Rpc.TclGetInt.small
    [pair] (fun _ => some Rpc.pooled) twoRounds) := by
  have htrace : Rpc.rpcRunTrace DStringLib.doubling Rpc.TclGetInt.small [pair]
      (fun _ => some Rpc.pooled) twoRounds = pairSlots.map fun r => (r.1, [r.2]) := rfl
  have hcan : ∀ r ∈ pairSlots, r.2.Can (r.1 0) := by
    simp only [pairSlots, List.forall_mem_cons, List.not_mem_nil, false_imp_iff, implies_true,
      and_true]
    refine ⟨⟨by decide, by decide, by decide⟩, fun _ => ⟨by decide, by decide, by decide⟩,
      fun _ => ⟨by decide, by decide, by decide⟩⟩
  rw [htrace]
  intro r hr i s hs
  obtain ⟨r', hr', rfl⟩ := List.mem_map.mp hr
  obtain ⟨rfl, rfl⟩ : i = 0 ∧ s = _ := by
    simpa [List.getElem?_singleton, eq_comm] using hs
  exact hcan r' hr'

theorem allocated_pair : Rpc.Allocated pair.job pair.arena := by
  refine ⟨fun ds hds => ?_, fun ds hds => ?_⟩
  · obtain rfl := Option.some.inj hds
    decide
  · obtain rfl := Option.some.inj hds
    decide

/-- The connection of that job. -/
def usePair : Rpc.Use DStringLib.doubling Rpc.TclGetInt.small where
  reqs := [pair]
  gets := fun _ => some Rpc.pooled
  rounds := twoRounds
  i := 0
  q := pair
  conn := Rpc.pooled
  hq := rfl
  hconn := rfl
  binary := rfl
  cmd_ok := by decide
  allocated := allocated_pair
  small := by decide
  feasible := feasible_pair
  pushed := by decide

end Nsdci.Rps
