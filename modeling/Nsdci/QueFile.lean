import Nsdci.Lib.Transition
import Mathlib.Order.Lattice
import Mathlib.Order.MinMax
import Mathlib.Tactic.SplitIfs

/-!
# Queue wake-ups (`quefile.c`)

`QueThread` runs a script, waits until `nextRun`, and starts over; `DciQueNext` lowers `nextRun`
and ends the wait. Whatever ended it, `nextRun` is then set to an hour from now: a time that was
requested for later is lost with it, unless it is requested again. The main result is
`waits_timely_iff`.

The clock goes in seconds, and never back.
-/

namespace Nsdci.Que

open Lib

/-- `QF_MAXWAIT`. -/
def maxWait : Int := 3600

/-- Where `QueThread` is: at the top of its loop, in the script, about to wait for some time with
the lock, waiting without it, about to set `nextRun` with the lock, or at its end. -/
inductive Pc where
  | top | script
  | computed (wait : Int)
  | waiting (timeout : Int)
  | resetting
  | stopped
  deriving DecidableEq

/-- The queue and its thread. `asked` are the requested times that are not covered, `fresh` those
requested since `nextRun` was last set by the thread, and `base` is what it was set to. -/
structure State where
  now : Int
  nextRun : Int
  pc : Pc
  asked : List Int
  fresh : List Int
  base : Int
  deriving DecidableEq

/-- `DciQueCreate`, at some time. -/
def queCreate (now : Nat) : State := ⟨now, now, .top, [], [], now⟩

/-- What happens: a second passes, another thread makes a request, or `QueThread` makes a step. It
may be woken up at any time. -/
inductive Event where
  | tick
  | next (time : Int)
  | start | compute | wait | wake | reset | stop
  deriving DecidableEq

/-- `DciQueNext`. -/
def queNext (s : State) (next : Int) : State :=
  { s with
    nextRun := if s.nextRun < 0 ∨ s.nextRun > next then next else s.nextRun
    asked := s.asked ++ [next]
    fresh := s.fresh ++ [next] }

/-- The thread has the lock. -/
def Pc.Locked : Pc → Prop
  | .computed _ | .resetting => True
  | _ => False

/-- The thread is between the two looks at the clock before a wait. -/
def Pc.Computed : Pc → Prop
  | .computed _ => True
  | _ => False

instance : (pc : Pc) → Decidable pc.Locked
  | .computed _ | .resetting => isTrue trivial
  | .top | .script | .waiting _ | .stopped => isFalse id

instance : (pc : Pc) → Decidable pc.Computed
  | .computed _ => isTrue trivial
  | .top | .script | .waiting _ | .resetting | .stopped => isFalse id

/-- One step. A script run covers the times that have come when it starts. -/
def step (s : State) (e : Event) : Option State :=
  match e, s.pc with
  | .tick, _ => some { s with now := s.now + 1 }
  | .next time, _ => if s.pc.Locked then none else some (queNext s time)
  | .start, .top => some { s with pc := .script, asked := s.asked.filter fun r => s.now < r }
  | .stop, .top => some { s with pc := .stopped }
  | .compute, .script =>
      let wait := if s.nextRun < 0 then maxWait else s.nextRun - s.now
      some { s with pc := if wait > 0 then .computed wait else .resetting }
  | .wait, .computed wait =>
      some { s with pc := .waiting (s.now + if wait > maxWait then maxWait else wait) }
  | .wake, .waiting _ => some { s with pc := .resetting }
  | .reset, .resetting =>
      some { s with pc := .top, nextRun := s.now + maxWait, fresh := [], base := s.now + maxWait }
  | _, _ => none

/-- A timed wait of this length starts. -/
def Starts (s : State) (e : Event) (wait : Int) : Prop := e = .wait ∧ s.pc = .computed wait

/-- A timed wait starts whose end is no later than now or any time that is not covered, whichever is
later. -/
def Timely (s : State) (e : Event) : Prop :=
  ∀ wait, Starts s e wait →
    ∀ r ∈ s.asked, (s.now + if wait > maxWait then maxWait else wait) ≤ max s.now r

/-- No negative time is requested, and no second passes between the two looks at the clock before a
wait. -/
def Sane (s : State) : Event → Prop
  | .next time => 0 ≤ time
  | .tick => ¬ s.pc.Computed
  | _ => True

instance (s : State) : (e : Event) → Decidable (Sane s e)
  | .next time => inferInstanceAs (Decidable (0 ≤ time))
  | .tick => inferInstanceAs (Decidable (¬ s.pc.Computed))
  | .start | .compute | .wait | .wake | .reset | .stop => isTrue trivial

/-- When a timed wait starts, every time that is not covered was requested since `nextRun` was last
set, or one before it was, or `nextRun` was set to one before it. -/
def Repeated (s : State) (e : Event) : Prop :=
  ∀ wait, Starts s e wait → ∀ r ∈ s.asked, s.base ≤ r ∨ ∃ q ∈ s.fresh, q ≤ r

instance (s : State) (e : Event) : Decidable (Repeated s e) :=
  decidable_of_iff (e = .wait ∧ s.pc.Computed →
      ∀ r ∈ s.asked, s.base ≤ r ∨ ∃ q ∈ s.fresh, q ≤ r) <| by
    constructor
    · rintro h wait ⟨he, hpc⟩
      exact h ⟨he, hpc ▸ trivial⟩
    · rintro h ⟨he, hcomputed⟩
      cases hpc : s.pc with
      | computed wait => exact h wait ⟨he, hpc⟩
      | _ =>
          rw [hpc] at hcomputed
          exact hcomputed.elim

/-- What holds in a sane run: `nextRun` is the least time since it was last set. -/
structure Inv (s : State) : Prop where
  now_nonneg : 0 ≤ s.now
  base_le : s.base ≤ s.now + maxWait
  nextRun_nonneg : 0 ≤ s.nextRun
  least_base : s.nextRun ≤ s.base
  least : ∀ q ∈ s.fresh, s.nextRun ≤ q
  attained : s.nextRun = s.base ∨ s.nextRun ∈ s.fresh
  wait_eq : ∀ wait, s.pc = .computed wait → wait = s.nextRun - s.now ∧ 0 < wait

theorem inv_queCreate (now : Nat) : Inv (queCreate now) where
  now_nonneg := Int.natCast_nonneg now
  base_le := by
    show (now : Int) ≤ now + 3600
    omega
  nextRun_nonneg := Int.natCast_nonneg now
  least_base := le_rfl
  least q hq := absurd hq List.not_mem_nil
  attained := Or.inl rfl
  wait_eq wait h := nomatch h

/-- A request lowers `nextRun` to its time. -/
theorem Inv.queNext {s : State} (h : Inv s) (hlocked : ¬ s.pc.Locked) {time : Int}
    (htime : 0 ≤ time) : Inv (queNext s time) := by
  have hno : ¬ s.nextRun < 0 := not_lt.mpr h.nextRun_nonneg
  have hpc : ∀ wait, s.pc ≠ .computed wait := by
    intro wait hpc
    rw [hpc] at hlocked
    exact hlocked trivial
  have hnext : (Que.queNext s time).nextRun = if s.nextRun > time then time else s.nextRun := by
    show (if s.nextRun < 0 ∨ s.nextRun > time then time else s.nextRun) = _
    simp only [hno, false_or]
  refine ⟨h.now_nonneg, h.base_le, ?_, ?_, fun q hq => ?_, ?_, fun wait hw => absurd hw (hpc wait)⟩
  · rw [hnext]
    split_ifs
    · exact htime
    · exact h.nextRun_nonneg
  · show (Que.queNext s time).nextRun ≤ s.base
    have hbase := h.least_base
    rw [hnext]
    split_ifs <;> omega
  · rw [hnext]
    rcases List.mem_append.mp hq with hq | hq
    · have hleast := h.least q hq
      split_ifs <;> omega
    · rw [List.mem_singleton.mp hq]
      split_ifs <;> omega
  · rw [hnext]
    show _ ∨ _ ∈ s.fresh ++ [time]
    split_ifs with hlower
    · exact Or.inr (List.mem_append_right _ List.mem_cons_self)
    · rcases h.attained with hbase | hfresh
      · exact Or.inl hbase
      · exact Or.inr (List.mem_append_left _ hfresh)

/-- The thread goes on without a look at `nextRun`. -/
theorem Inv.goto {s : State} (h : Inv s) (asked : List Int) {pc : Pc}
    (hpc : ∀ wait, pc ≠ .computed wait) : Inv { s with pc := pc, asked := asked } :=
  ⟨h.now_nonneg, h.base_le, h.nextRun_nonneg, h.least_base, h.least, h.attained,
    fun wait hw => absurd hw (hpc wait)⟩

/-- **A sane step keeps the invariant.** -/
theorem inv_step {s s' : State} {e : Event} (h : Inv s) (hsane : Sane s e)
    (hstep : step s e = some s') : Inv s' := by
  cases e with
  | tick =>
      obtain rfl : { s with now := s.now + 1 } = s' := by
        simpa [step] using hstep
      have hnow := h.now_nonneg
      have hbase := h.base_le
      refine ⟨by show 0 ≤ s.now + 1; omega, by show s.base ≤ s.now + 1 + maxWait; omega,
        h.nextRun_nonneg, h.least_base, h.least, h.attained, fun wait hw => ?_⟩
      have hcomputed : ¬ s.pc.Computed := hsane
      rw [show s.pc = .computed wait from hw] at hcomputed
      exact absurd trivial hcomputed
  | next time =>
      have hif : (if s.pc.Locked then none else some (queNext s time)) = some s' := by
        simpa [step] using hstep
      split_ifs at hif with hlocked
      obtain rfl := Option.some.inj hif
      exact h.queNext hlocked hsane
  | start =>
      cases hpc : s.pc with
      | top =>
          unfold step at hstep
          rw [hpc] at hstep
          obtain rfl := Option.some.inj hstep
          exact h.goto _ fun wait hw => nomatch hw
      | _ =>
          unfold step at hstep
          rw [hpc] at hstep
          exact nomatch hstep
  | stop =>
      cases hpc : s.pc with
      | top =>
          unfold step at hstep
          rw [hpc] at hstep
          obtain rfl := Option.some.inj hstep
          exact h.goto s.asked fun wait hw => nomatch hw
      | _ =>
          unfold step at hstep
          rw [hpc] at hstep
          exact nomatch hstep
  | compute =>
      cases hpc : s.pc with
      | script =>
          unfold step at hstep
          rw [hpc] at hstep
          obtain rfl := Option.some.inj hstep
          have hno : ¬ s.nextRun < 0 := not_lt.mpr h.nextRun_nonneg
          refine ⟨h.now_nonneg, h.base_le, h.nextRun_nonneg, h.least_base, h.least, h.attained,
            fun wait hw => ?_⟩
          dsimp only at hw
          rw [if_neg hno] at hw
          split_ifs at hw with hpos
          exact ⟨(Pc.computed.inj hw).symm, Pc.computed.inj hw ▸ hpos⟩
      | _ =>
          unfold step at hstep
          rw [hpc] at hstep
          exact nomatch hstep
  | wait =>
      cases hpc : s.pc with
      | computed wait =>
          unfold step at hstep
          rw [hpc] at hstep
          obtain rfl := Option.some.inj hstep
          exact h.goto s.asked fun wait hw => nomatch hw
      | _ =>
          unfold step at hstep
          rw [hpc] at hstep
          exact nomatch hstep
  | wake =>
      cases hpc : s.pc with
      | waiting timeout =>
          unfold step at hstep
          rw [hpc] at hstep
          obtain rfl := Option.some.inj hstep
          exact h.goto s.asked fun wait hw => nomatch hw
      | _ =>
          unfold step at hstep
          rw [hpc] at hstep
          exact nomatch hstep
  | reset =>
      cases hpc : s.pc with
      | resetting =>
          unfold step at hstep
          rw [hpc] at hstep
          obtain rfl := Option.some.inj hstep
          have hnow := h.now_nonneg
          have hmax : maxWait = 3600 := rfl
          exact ⟨hnow, le_rfl, by show 0 ≤ s.now + maxWait; omega, le_rfl,
            fun q hq => absurd hq List.not_mem_nil, Or.inl rfl, fun wait hw => nomatch hw⟩
      | _ =>
          unfold step at hstep
          rw [hpc] at hstep
          exact nomatch hstep

/-- A sane wait ends at `nextRun`, which is the least time since it was set. -/
theorem timely_iff {s : State} (h : Inv s) (e : Event) : Timely s e ↔ Repeated s e := by
  refine forall_congr' fun wait => forall_congr' fun hstarts => forall₂_congr fun r hr => ?_
  obtain ⟨hwait, hpos⟩ := h.wait_eq wait hstarts.2
  have hbase := h.base_le
  have hleast := h.least_base
  have hend : (s.now + if wait > maxWait then maxWait else wait) = s.nextRun := by
    rw [if_neg (by omega)]
    omega
  rw [hend]
  constructor
  · intro hle
    have hr : s.nextRun ≤ r := by
      rcases le_max_iff.mp hle with hnow | hr
      · omega
      · exact hr
    rcases h.attained with hattained | hattained
    · exact Or.inl (hattained ▸ hr)
    · exact Or.inr ⟨s.nextRun, hattained, hr⟩
  · rintro (hr | ⟨q, hq, hr⟩)
    · exact le_max_of_le_right (hleast.trans hr)
    · exact le_max_of_le_right ((h.least q hq).trans hr)

/-- **In a run in which no negative time is requested and no second passes between the looks at the
clock before a wait, every timed wait ends in time exactly if every time that is not covered then
has been requested since `nextRun` was last set**, or an earlier one has, or `nextRun` was set to
one. -/
theorem waits_timely_iff (now : Nat) (es : List Event)
    (hsane : Along step Sane (queCreate now) es) :
    Along step Timely (queCreate now) es ↔ Along step Repeated (queCreate now) es := by
  have hboth : Along step (fun s e => Sane s e ∧ Timely s e) (queCreate now) es ↔
      Along step (fun s e => Sane s e ∧ Repeated s e) (queCreate now) es :=
    along_congr (fun s e h => and_congr_right fun _ => timely_iff h e)
      (fun s e s' h hok hstep => inv_step h hok.1 hstep) es (inv_queCreate now)
  rw [along_and, along_and] at hboth
  constructor
  · exact fun htimely => (hboth.mp ⟨hsane, htimely⟩).2
  · exact fun hrepeated => (hboth.mpr ⟨hsane, hrepeated⟩).2

/-- A run in which the thread waits for a time that was requested for it. -/
def inTime : List Event := [.next 600, .start, .compute, .reset, .next 600, .start, .compute, .wait]

/-- In this run every wait ends in time. -/
theorem inTime_timely : Along step Timely (queCreate 0) inTime :=
  (waits_timely_iff 0 inTime (by decide)).mpr (by decide)

/-- The thread waits for an hour when 600 is requested; this ends the wait, and the next one is for
an hour again. -/
def forgotten : List Event :=
  [.start, .compute, .reset, .start, .compute, .wait, .next 600, .wake, .reset, .start, .compute] ++
    [.wait]

/-- **Not every requested time is waited for**: all this happens at time 0, and the last wait ends
at 3600 though 600 is requested. -/
theorem forgotten_not_timely : ¬ Along step Timely (queCreate 0) forgotten := by
  intro htimely
  have hlast := (htimely.rest (s := _) rfl).1
  have hle := hlast 3600 ⟨rfl, rfl⟩ 600 List.mem_cons_self
  exact absurd hle (by decide)

end Nsdci.Que
