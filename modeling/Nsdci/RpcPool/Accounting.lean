import Nsdci.RpcPool.Counts

/-!
# The accounting of the connections (`rpc.c`)

When no thread is between the lock sections of `RpcGet` and `RpcAccept`, `httpAvail` and the open
HTTP connections are to make the configured number, and `nsocks` is to count the idle connections
and those of the jobs (`Accounted`).

`nsocks` is right in every run. `httpAvail` is not: `RpcGet` connects when it has waited in vain,
whatever `httpAvail` is, and when it is 1 two threads may both connect; and `RpcAccept` does not
give back the HTTP connections that it finds dropped. `poolAccounting_iff` says that nothing else
goes wrong.
-/

namespace Nsdci.RpcPool

open Lib

/-! ## What is to hold -/

/-- No thread is between the lock sections of `RpcGet`, but for those that wait, and `RpcAccept` is
not between its own. -/
structure Quiet (s : State) : Prop where
  sweep : s.sweep = none
  threads : ∀ t ∈ s.threads, t.pc ≠ .connect ∧ ∀ conn status, t.pc ≠ .poll conn status

/-- The counts are right, and no more HTTP connections are open than are configured. -/
structure Accounted (cfg : Config) (s : State) : Prop where
  avail : 0 ≤ s.httpAvail
  http : s.httpAvail + s.https = cfg.connections
  socks : s.nsocks = s.firstPtr.length + sumOf (fun t => t.conns.length) s.threads
  limit : (s.https : Int) ≤ cfg.connections

/-- A thread comes to the end of what it does without the lock: the connection that it polls is not
dropped, it has connected, and `RpcAccept` finds nothing dropped. -/
def Finishes : Event → Prop
  | .move _ (.polled dropped) => dropped = false
  | .move _ (.connected sock) => sock.isSome
  | .swept dropped => ∀ n, dropped n = false
  | _ => False

/-- The counts are right once all threads have come to the end of what they do without the lock. -/
def Right (cfg : Config) (s : State) : Prop :=
  ∀ es s', (∀ e ∈ es, Finishes e) → run (step cfg) s es = some s' → Quiet s' → Accounted cfg s'

/-! ## `nsocks` -/

/-- `nsocks` is the number of connections. -/
theorem socks_step {cfg : Config} {s s' : State} {e : Event} (hsocks : s.Socks)
    (hstep : step cfg s e = some s') : s'.Socks := by
  obtain ⟨m, heffect, -⟩ := step_effect cfg hstep
  have hsame := heffect.nsocks
  unfold State.Socks at hsocks ⊢
  omega

theorem Quiet.opened {s : State} (h : Quiet s) {t : Thread} (ht : t ∈ s.threads) :
    t.opened = t.conns := by
  unfold Thread.opened
  split
  · rename_i conn status hpc
    exact absurd hpc ((h.threads t ht).2 conn status)
  · rfl

/-- **`nsocks` is the number of idle connections and those of the jobs.** -/
theorem Quiet.nsocks {s : State} (h : Quiet s) (hsocks : s.Socks) :
    s.nsocks = s.firstPtr.length + sumOf (fun t => t.conns.length) s.threads := by
  have hsum : sumOf (fun t => t.opened.countP fun _ => true) s.threads =
      sumOf (fun t => t.conns.length) s.threads := by
    refine sumOf_congr fun t ht => ?_
    rw [h.opened ht, List.countP_true]
  have hnsocks : s.nsocks = s.count fun _ => true := hsocks
  unfold State.count at hnsocks
  rw [hsum, h.sweep, List.countP_true] at hnsocks
  exact_mod_cast hnsocks

theorem Quiet.connecting {s : State} (h : Quiet s) : s.connecting = 0 :=
  List.countP_eq_zero.mpr fun t ht => by simpa using (h.threads t ht).1

/-! ## `httpAvail` -/

/-- When no thread is in between, the counts are right if the permits are. -/
theorem Quiet.accounted_iff {cfg : Config} {s : State} (h : Quiet s) (hsocks : s.Socks) :
    Accounted cfg s ↔ s.permits.Sound cfg.connections := by
  have hasked : s.permits.asked = 0 := congrArg Nat.cast h.connecting
  rw [Permits.sound_iff_of_asked hasked]
  constructor
  · intro hacc
    exact ⟨hacc.avail, hacc.http⟩
  · rintro ⟨havail, hsum⟩
    have hlimit : (s.https : Int) ≤ cfg.connections := by
      have hsum' : s.httpAvail + s.https = cfg.connections := hsum
      have havail' : 0 ≤ s.httpAvail := havail
      omega
    exact ⟨havail, hsum, h.nsocks hsocks, hlimit⟩

/-! ## The end of what is done without the lock -/

/-- Nothing dropped is found in nothing. -/
theorem gone_nil {conns : List Conn} {dropped : Nat → Bool} (h : ∀ n, dropped n = false) :
    gone conns dropped = [] := by
  rw [List.eq_nil_iff_forall_not_mem]
  intro conn hconn
  obtain ⟨n, -, hdropped⟩ := mem_gone.mp hconn
  exact nomatch (h n).symm.trans hdropped

/-- Whether the permits are right does not change. -/
theorem sound_finish {n : Int} {cfg : Config} {s s' : State} {e : Event} (he : Finishes e)
    (hstep : step cfg s e = some s') : s'.permits.Sound n ↔ s.permits.Sound n := by
  have hgive (p : Permits) : (p.after (giveMove 0 False)).Sound n ↔ p.Sound n := by
    have heq : p.after (giveMove 0 False) = p := by
      show Permits.mk _ _ _ = p
      rw [Int.natCast_zero, Int.add_zero, Int.sub_zero]
    rw [heq]
  cases e with
  | call => exact absurd he id
  | accept sock => exact absurd he id
  | swept dropped =>
      obtain ⟨conns, hsweep, rfl⟩ := Option.map_eq_some_iff.mp hstep
      have hlose := (effect_swept hsweep dropped).permits
      rw [gone_nil he] at hlose
      have heq : s.permits.after (.lose ([].countP Conn.http)) = s.permits := by
        show Permits.mk _ _ _ = s.permits
        rw [List.countP_nil, Int.natCast_zero, Int.sub_zero]
      rw [hlose, heq]
  | move i act =>
      obtain ⟨t, ht, hstep⟩ := Option.bind_eq_some_iff.mp hstep
      cases act with
      | polled dropped =>
          obtain rfl : dropped = false := he
          simp only [Thread.step] at hstep
          split at hstep
          · rename_i conn status hpc
            obtain rfl := Option.some.inj hstep
            have hgot := (effect_got ht hpc).permits
            simp only [Bool.false_eq_true, if_false]
            rw [hgot]
            exact hgive _
          · exact absurd hstep (Option.some_ne_none _).symm
      | connected sock =>
          obtain ⟨hpc, heq⟩ := Option.ite_none_right_eq_some.mp hstep
          obtain rfl := Option.some.inj heq
          have hsock : sock.isSome = true := he
          have htake := (effect_connected ht hpc sock).permits
          rw [if_pos hsock] at htake
          rw [htake]
          exact Permits.sound_take_iff
      | _ => exact absurd he id

theorem sound_finishes {n : Int} {cfg : Config} {s s' : State} {es : List Event}
    (hes : ∀ e ∈ es, Finishes e) (hrun : run (step cfg) s es = some s') :
    s'.permits.Sound n ↔ s.permits.Sound n := by
  induction es generalizing s with
  | nil =>
      obtain rfl : s = s' := Option.some.inj hrun
      exact Iff.rfl
  | cons e es ih =>
      obtain ⟨t, hstep, hrun⟩ := Option.bind_eq_some_iff.mp hrun
      have hrest := ih (fun e he => hes e (List.mem_cons_of_mem _ he)) hrun
      exact hrest.trans (sound_finish (hes e List.mem_cons_self) hstep)

/-- The thread is between its lock sections. -/
def Thread.busy (t : Thread) : Bool :=
  match t.pc with
  | .connect | .poll _ _ => true
  | _ => false

/-- A thread comes to the end of what it does without the lock. -/
theorem finish_thread (cfg : Config) {s : State} {i : Nat} {t : Thread}
    (ht : s.threads[i]? = some t) (hbusy : t.busy = true) : ∃ e s', Finishes e ∧
      step cfg s e = some s' ∧ s'.sweep = s.sweep ∧
        s'.threads.countP Thread.busy < s.threads.countP Thread.busy := by
  have hfewer (conn : Option Conn) :
      (s.got i t conn).threads.countP Thread.busy < s.threads.countP Thread.busy := by
    have hsum := sumOf_set (fun t => if t.busy then 1 else 0) ht
      ⟨.gets, t.conns ++ conn.toList, t.all && conn.isSome⟩
    rw [sumOf_eq_countP, sumOf_eq_countP, if_pos hbusy] at hsum
    exact Nat.lt_of_succ_le (Nat.le_of_eq hsum)
  have hstep (act : Act) : step cfg s (.move i act) = t.step cfg s i act := by
    rw [step, ht, Option.bind_some]
  cases hpc : t.pc with
  | connect =>
      refine ⟨.move i (.connected (some 0)), s.connected i t (some 0), rfl, ?_, rfl, hfewer _⟩
      rw [hstep, Thread.step, if_pos hpc]
  | poll conn status =>
      refine ⟨.move i (.polled false), s.got i t (some conn), rfl, ?_, rfl, hfewer _⟩
      rw [hstep, Thread.step, hpc]
      rfl
  | _ => exact absurd hbusy (by simp [Thread.busy, hpc])

/-- All threads can come to the end of what they do without the lock. -/
theorem exists_quiet (cfg : Config) (s : State) :
    ∃ es s', (∀ e ∈ es, Finishes e) ∧ run (step cfg) s es = some s' ∧ Quiet s' := by
  induction hn : s.threads.countP Thread.busy using Nat.strongRecOn generalizing s with
  | _ n ih =>
  by_cases hbusy : ∃ t ∈ s.threads, t.busy = true
  · obtain ⟨t, ht, hbusy⟩ := hbusy
    obtain ⟨i, hi⟩ := List.mem_iff_getElem?.mp ht
    obtain ⟨e, s₁, he, hstep, -, hlt⟩ := finish_thread cfg hi hbusy
    obtain ⟨es, s', hes, hrun, hquiet⟩ := ih _ (hn ▸ hlt) s₁ rfl
    refine ⟨e :: es, s', List.forall_mem_cons.mpr ⟨he, hes⟩, ?_, hquiet⟩
    rw [run, hstep]
    exact hrun
  · have hthreads : ∀ t ∈ s.threads, t.pc ≠ .connect ∧ ∀ conn status, t.pc ≠ .poll conn status := by
      intro t ht
      have hidle : t.busy ≠ true := fun h => hbusy ⟨t, ht, h⟩
      constructor
      · intro hpc
        exact hidle (by rw [Thread.busy, hpc])
      · intro conn status hpc
        exact hidle (by rw [Thread.busy, hpc])
    cases hsweep : s.sweep with
    | none => exact ⟨[], s, fun e he => absurd he List.not_mem_nil, rfl, hsweep, hthreads⟩
    | some conns =>
        refine ⟨[.swept fun _ => false], s.swept conns fun _ => false,
          List.forall_mem_singleton.mpr fun _ => rfl, ?_, rfl, hthreads⟩
        rw [run, step, hsweep]
        rfl

/-- **The counts come out right exactly if the permits are.** -/
theorem right_iff {cfg : Config} {s : State} (hsocks : s.Socks) :
    Right cfg s ↔ s.permits.Sound cfg.connections := by
  constructor
  · intro hright
    obtain ⟨es, s', hes, hrun, hquiet⟩ := exists_quiet cfg s
    have hsocks' := run_invariant_all (fun s e s' => socks_step) hsocks hrun
    exact (sound_finishes hes hrun).mp
      ((hquiet.accounted_iff hsocks').mp (hright es s' hes hrun hquiet))
  · intro hsound es s' hes hrun hquiet
    have hsocks' := run_invariant_all (fun s e s' => socks_step) hsocks hrun
    exact (hquiet.accounted_iff hsocks').mpr ((sound_finishes hes hrun).mpr hsound)

/-! ## Runs -/

/-- A step that cannot happen meets the condition. -/
theorem fits_of_none {cfg : Config} {s : State} {e : Event} (hstep : step cfg s e = none) :
    Fits cfg s e := by
  cases e with
  | call => exact trivial
  | accept sock => exact trivial
  | swept dropped =>
      intro conns hsweep
      rw [step, hsweep] at hstep
      exact absurd hstep (Option.some_ne_none _)
  | move i act =>
      intro t ht
      rw [step, ht, Option.bind_some] at hstep
      cases act with
      | get =>
          intro hpc
          rw [Thread.step, if_pos hpc] at hstep
          exact absurd hstep (Option.some_ne_none _)
      | woken status =>
          intro hpc
          rw [Thread.step, if_pos hpc] at hstep
          exact absurd hstep (Option.some_ne_none _)
      | polled dropped =>
          intro _ conn status hpc
          rw [Thread.step, hpc] at hstep
          exact absurd hstep (Option.some_ne_none _)
      | _ => exact trivial

/-- What holds as long as the steps meet the condition. -/
structure Sound (cfg : Config) (s : State) : Prop where
  socks : s.Socks
  permits : s.permits.Sound cfg.connections

theorem Sound.right {cfg : Config} {s : State} (h : Sound cfg s) : Right cfg s :=
  (right_iff h.socks).mpr h.permits

/-- **A step keeps the counts right exactly if it meets the condition.** -/
theorem Sound.step_iff {cfg : Config} {s : State} (h : Sound cfg s) (e : Event) :
    (∀ s' ∈ step cfg s e, Right cfg s') ↔ Fits cfg s e := by
  cases hstep : step cfg s e with
  | none => exact iff_of_true (fun s' hs' => nomatch hs') (fits_of_none hstep)
  | some s' =>
      obtain ⟨m, heffect, hfits⟩ := step_effect cfg hstep
      have hsound : s'.permits.Sound cfg.connections ↔ m.Fits s.permits := by
        rw [heffect.permits]
        exact h.permits.after_iff m
      rw [← hfits, ← hsound, ← right_iff (socks_step h.socks hstep)]
      constructor
      · exact fun hall => hall s' rfl
      · rintro hright _ ⟨⟩
        exact hright

theorem sound_step {cfg : Config} {s s' : State} {e : Event} (h : Sound cfg s)
    (hfits : Fits cfg s e)
    (hstep : step cfg s e = some s') : Sound cfg s' := by
  have hsocks := socks_step h.socks hstep
  exact ⟨hsocks, (right_iff hsocks).mp ((h.step_iff e).mpr hfits s' hstep)⟩

theorem socks_init (cfg : Config) : (State.init cfg).Socks := rfl

theorem sound_init_iff (cfg : Config) :
    (State.init cfg).permits.Sound cfg.connections ↔ 0 ≤ cfg.connections := by
  constructor
  · exact fun h => h.room
  · exact fun h => ⟨h, Int.add_zero _⟩

/-- **The counts are right in every state that a run reaches, once the threads in between have come
to their next lock section, exactly if the configured number is not negative and all steps of the
run meet the condition.** -/
theorem poolAccounting_iff (cfg : Config) (es : List Event) :
    (∀ pre, pre <+: es → ∀ s, run (step cfg) (State.init cfg) pre = some s → Right cfg s) ↔
      0 ≤ cfg.connections ∧ Along (step cfg) (Fits cfg) (State.init cfg) es := by
  have hsocks := socks_init cfg
  by_cases hpos : 0 ≤ cfg.connections
  · have hinit : Sound cfg (State.init cfg) := ⟨hsocks, (sound_init_iff cfg).mpr hpos⟩
    rw [reached_iff_along es hinit.right, and_iff_right hpos]
    exact along_congr (fun s e h => Sound.step_iff h e)
      (fun s e s' h hok hstep => sound_step h ((h.step_iff e).mp hok) hstep) es hinit
  · refine iff_of_false (fun hall => ?_) fun h => hpos h.1
    exact hpos ((sound_init_iff cfg).mp ((right_iff hsocks).mp (hall [] List.nil_prefix _ rfl)))

/-- One HTTP connection is configured. A job has it, and another waits for it until it has no time
left, and connects. -/
def impatient : List Event :=
  [.call, .call, .move 0 .get, .move 0 (.connected (some 7)), .move 1 .get,
    .move 1 (.woken .timeout), .move 1 (.connected (some 8))]

/-- **The counts are not right in every state in which no thread is in between.** -/
theorem poolAccounting_impatient : ¬ ∀ (cfg : Config) (es : List Event) (s : State),
    0 ≤ cfg.httpnumconnections → run (step cfg) (State.init cfg) es = some s → Quiet s →
      Accounted cfg s := by
  intro hall
  have hacc := hall ⟨true, 1⟩ impatient
    ⟨-1, 2, [], none, [⟨.gets, [⟨7, true, false⟩], true⟩, ⟨.gets, [⟨8, true, false⟩], true⟩]⟩
    (by decide) rfl ⟨rfl, by simp⟩
  exact absurd hacc.avail (by decide)

end Nsdci.RpcPool
