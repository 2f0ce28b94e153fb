import Nsdci.AvProc

/-!
# Places of auto-loaded procs (`av.c`)

Whatever scripts do, also those that run while a command is deleted, every `AvProc` in the array
knows its place (`Inv.indexed`), and the commands with `AvProcDelete` are those of the array.

`inv_step` says that every step keeps this.
-/

namespace Nsdci.AvProc

open Lib

/-- What holds between the steps. -/
structure Inv (s : State) : Prop where
  indexed : Indexed s.procs s.pidx
  fresh : ∀ p, s.next ≤ p → s.heap p = none
  command : ∀ p a, s.heap p = some a → ∃ c, s.commands a.cmd = some c ∧ c.deleteData = p
  owner : ∀ cmd c, s.commands cmd = some c → ∃ a, s.heap c.deleteData = some a ∧ a.cmd = cmd
  marked : ∀ cmd c, s.commands cmd = some c →
    (c.deleted = true ↔ .callback c.deleteData ∈ s.stack)
  waits : ∀ p, .callback p ∈ s.stack → ∃ a, s.heap p = some a
  once : ∀ p, s.stack.count (.callback p) ≤ 1

theorem inv_init : Inv State.init := by
  refine ⟨indexed_nil, fun _ _ => rfl, fun _ _ h => ?_, fun _ _ h => ?_, fun _ _ h => ?_,
    fun _ h => ?_, fun _ => Nat.zero_le _⟩
  · exact nomatch h
  · exact nomatch h
  · exact nomatch h
  · exact absurd h List.not_mem_nil

theorem pidx_some {s : State} {p i : Nat} (h : s.pidx p = some i) :
    ∃ a, s.heap p = some a ∧ a.pidx = i := Option.map_eq_some_iff.mp h

/-- What is in memory is in the array. -/
theorem Inv.mem_procs {s : State} (hinv : Inv s) {p : Nat} {a : Proc} (h : s.heap p = some a) :
    p ∈ s.procs := by
  rw [hinv.indexed.mem_iff, State.pidx, h]
  exact Option.some_ne_none _

theorem Inv.exists_proc {s : State} (hinv : Inv s) {p : Nat} (h : p ∈ s.procs) :
    ∃ a, s.heap p = some a := by
  obtain ⟨i, hi⟩ := Option.ne_none_iff_exists'.mp (hinv.indexed.mem_iff.mp h)
  obtain ⟨a, ha, -⟩ := pidx_some hi
  exact ⟨a, ha⟩

/-! ## Steps without a deletion -/

/-- The frames of deletions are the same. -/
theorem Inv.goto {s s' : State} (hinv : Inv s) (hprocs : s'.procs = s.procs)
    (hheap : s'.heap = s.heap) (hcommands : s'.commands = s.commands) (hnext : s'.next = s.next)
    (hstack : ∀ p, s'.stack.count (.callback p) = s.stack.count (.callback p)) : Inv s' := by
  have hmem (p : Nat) : .callback p ∈ s'.stack ↔ .callback p ∈ s.stack := by
    rw [← List.count_pos_iff, ← List.count_pos_iff, hstack p]
  have hpidx : s'.pidx = s.pidx := by
    funext p
    rw [State.pidx, State.pidx, hheap]
  refine ⟨?_, ?_, ?_, ?_, fun cmd c h => ?_, fun p h => ?_, fun p => ?_⟩
  · rw [hprocs, hpidx]
    exact hinv.indexed
  · rw [hheap, hnext]
    exact hinv.fresh
  · rw [hheap, hcommands]
    exact hinv.command
  · rw [hheap, hcommands]
    exact hinv.owner
  · rw [hmem]
    exact hinv.marked cmd c (hcommands ▸ h)
  · rw [hheap]
    exact hinv.waits p ((hmem p).mp h)
  · rw [hstack p]
    exact hinv.once p

theorem Inv.got {s : State} (hinv : Inv s) (caller : Caller) : Inv (s.got caller) := by
  cases caller with
  | cleanup => exact hinv
  | unknown => exact hinv.goto rfl rfl rfl rfl fun p => List.count_cons_of_ne (by simp)
  | select name => exact hinv.goto rfl rfl rfl rfl fun p => rfl

theorem Inv.avGetAuto {s : State} (hinv : Inv s) (caller : Caller) : Inv (s.avGetAuto caller) := by
  unfold State.avGetAuto
  split
  · split_ifs
    · exact hinv
    · exact hinv.got caller
  · split
    · exact hinv
    · split_ifs
      · exact hinv.got caller
      · exact hinv.goto rfl rfl rfl rfl fun p => List.count_cons_of_ne (by simp)

/-- A new proc. -/
theorem Inv.wrap {s : State} (hinv : Inv s) {cmd : Nat} (hcmd : s.commands cmd = none) :
    Inv (s.wrap cmd) := by
  have hnew := hinv.fresh s.next (Nat.le_refl _)
  have hother {p : Nat} {a : Proc} (h : s.heap p = some a) : p ≠ s.next := by
    rintro rfl
    exact nomatch hnew.symm.trans h
  have hpidx : (s.wrap cmd).pidx = Function.update s.pidx s.next (some s.procs.length) :=
    Function.comp_update (Option.map Proc.pidx) s.heap s.next _
  refine ⟨?_, fun p hp => ?_, fun p a h => ?_, fun cmd' c h => ?_, fun cmd' c h => ?_,
    fun p h => ?_, hinv.once⟩
  · rw [hpidx]
    exact hinv.indexed.push (by rw [State.pidx, hnew]; rfl)
  · show Function.update s.heap s.next _ p = none
    have hp' : s.next + 1 ≤ p := hp
    rw [Function.update_of_ne (by omega)]
    exact hinv.fresh p (by omega)
  · change Function.update s.heap s.next _ p = some a at h
    show ∃ c, Function.update s.commands cmd _ a.cmd = some c ∧ _
    by_cases hp : p = s.next
    · subst hp
      rw [Function.update_self] at h
      obtain rfl := Option.some.inj h
      exact ⟨⟨s.next, false⟩, Function.update_self _ _ _, rfl⟩
    · rw [Function.update_of_ne hp] at h
      obtain ⟨c, hc, hdata⟩ := hinv.command p a h
      have hne : a.cmd ≠ cmd := by
        rintro heq
        rw [heq, hcmd] at hc
        exact nomatch hc
      exact ⟨c, (Function.update_of_ne hne _ _).trans hc, hdata⟩
  · change Function.update s.commands cmd _ cmd' = some c at h
    show ∃ a, Function.update s.heap s.next _ c.deleteData = some a ∧ _
    by_cases heq : cmd' = cmd
    · subst heq
      rw [Function.update_self] at h
      obtain rfl := Option.some.inj h
      exact ⟨⟨s.procs.length, cmd'⟩, Function.update_self _ _ _, rfl⟩
    · rw [Function.update_of_ne heq] at h
      obtain ⟨a, ha, hcmd'⟩ := hinv.owner cmd' c h
      exact ⟨a, (Function.update_of_ne (hother ha) _ _).trans ha, hcmd'⟩
  · change Function.update s.commands cmd _ cmd' = some c at h
    by_cases heq : cmd' = cmd
    · subst heq
      rw [Function.update_self] at h
      obtain rfl := Option.some.inj h
      refine iff_of_false (by simp) fun hwait => ?_
      obtain ⟨a, ha⟩ := hinv.waits s.next hwait
      exact hother ha rfl
    · rw [Function.update_of_ne heq] at h
      exact hinv.marked cmd' c h
  · obtain ⟨a, ha⟩ := hinv.waits p h
    exact ⟨a, (Function.update_of_ne (hother ha) _ _).trans ha⟩

/-! ## Deletion -/

theorem deleteCommand_eq {s : State} {cmd : Nat} {c : Command} (hc : s.commands cmd = some c)
    (hmark : c.deleted = false) : s.deleteCommand cmd = { s with
      commands := Function.update s.commands cmd (some { c with deleted := true })
      stack := .callback c.deleteData :: s.stack } := by
  rw [State.deleteCommand, hc]
  exact if_neg (by rw [hmark]; exact Bool.false_ne_true)

/-- A deletion begins: the command is marked. -/
theorem Inv.mark {s : State} (hinv : Inv s) {cmd : Nat} {c : Command}
    (hc : s.commands cmd = some c) (hmark : c.deleted = false) : Inv { s with
      commands := Function.update s.commands cmd (some { c with deleted := true })
      stack := .callback c.deleteData :: s.stack } := by
  obtain ⟨a, ha, hcmd⟩ := hinv.owner cmd c hc
  have hnot : .callback c.deleteData ∉ s.stack := fun hwait =>
    Bool.false_ne_true (hmark.symm.trans ((hinv.marked cmd c hc).mpr hwait))
  -- another command has another `AvProc`
  have hother {cmd' : Nat} {c' : Command} (hc' : s.commands cmd' = some c') (hne : cmd' ≠ cmd) :
      c'.deleteData ≠ c.deleteData := by
    intro heq
    obtain ⟨a', ha', hcmd'⟩ := hinv.owner cmd' c' hc'
    rw [heq, ha] at ha'
    obtain rfl := Option.some.inj ha'
    exact hne (hcmd'.symm.trans hcmd)
  refine ⟨hinv.indexed, hinv.fresh, fun p b hb => ?_, fun cmd' c' h => ?_, fun cmd' c' h => ?_,
    fun p h => ?_, fun p => ?_⟩
  · show ∃ c', Function.update s.commands cmd _ b.cmd = some c' ∧ _
    obtain ⟨c', hc', hdata⟩ := hinv.command p b hb
    by_cases heq : b.cmd = cmd
    · rw [heq] at hc' ⊢
      obtain rfl := Option.some.inj (hc.symm.trans hc')
      exact ⟨_, Function.update_self _ _ _, hdata⟩
    · exact ⟨c', (Function.update_of_ne heq _ _).trans hc', hdata⟩
  · change Function.update s.commands cmd _ cmd' = some c' at h
    by_cases heq : cmd' = cmd
    · subst heq
      rw [Function.update_self] at h
      obtain rfl := Option.some.inj h
      exact ⟨a, ha, hcmd⟩
    · rw [Function.update_of_ne heq] at h
      exact hinv.owner cmd' c' h
  · change Function.update s.commands cmd _ cmd' = some c' at h
    by_cases heq : cmd' = cmd
    · subst heq
      rw [Function.update_self] at h
      obtain rfl := Option.some.inj h
      exact iff_of_true rfl List.mem_cons_self
    · rw [Function.update_of_ne heq] at h
      rw [hinv.marked cmd' c' h, List.mem_cons, Frame.callback.injEq]
      exact (or_iff_right (hother h heq)).symm
  · rcases List.mem_cons.mp h with h | h
    · obtain rfl := Frame.callback.inj h
      exact ⟨a, ha⟩
    · exact hinv.waits p h
  · by_cases heq : p = c.deleteData
    · rw [heq, List.count_cons_self]
      exact Nat.succ_le_succ (Nat.le_zero.mpr (List.count_eq_zero.mpr hnot))
    · rw [List.count_cons_of_ne (by simpa using Ne.symm heq)]
      exact hinv.once p

theorem Inv.deleteCommand {s : State} (hinv : Inv s) (cmd : Nat) : Inv (s.deleteCommand cmd) := by
  cases hc : s.commands cmd with
  | none =>
      rw [State.deleteCommand, hc]
      exact hinv
  | some c =>
      cases hmark : c.deleted with
      | true =>
          rw [State.deleteCommand, hc]
          simp only [hmark, if_true]
          exact hinv
      | false =>
          rw [deleteCommand_eq hc hmark]
          exact hinv.mark hc hmark

/-- What `AvProcDelete` leaves when the callbacks have returned. -/
def State.removed (s : State) (stack : List Frame) (p : Nat) (a : Proc) (swapPtr : Nat)
    (swap : Proc) : State :=
  { s with
    stack := stack
    procs := swapRemove s.procs a.pidx
    heap := Function.update (Function.update s.heap swapPtr (some { swap with pidx := a.pidx }))
      p none
    commands := Function.update s.commands a.cmd none }

/-- The proc of a deletion that goes on is in the array, and there is a last one. -/
theorem Inv.avProcDelete {s : State} (hinv : Inv s) {p : Nat} {stack : List Frame}
    (hstack : s.stack = .callback p :: stack) :
    ∃ a swapPtr swap, s.heap p = some a ∧ s.procs.getLast? = some swapPtr ∧
      s.heap swapPtr = some swap ∧
      State.avProcDelete { s with stack := stack } p = some (s.removed stack p a swapPtr swap) := by
  obtain ⟨a, ha⟩ := hinv.waits p (by rw [hstack]; exact List.mem_cons_self)
  have hlt : a.pidx < s.procs.length := hinv.indexed.lt (by rw [State.pidx, ha]; rfl)
  obtain ⟨swapPtr, hlast⟩ : ∃ swapPtr, s.procs.getLast? = some swapPtr := by
    rw [← Option.isSome_iff_exists, List.getLast?_isSome]
    exact List.ne_nil_of_length_pos (by omega)
  obtain ⟨swap, hswap⟩ := hinv.exists_proc (List.mem_of_getLast? hlast)
  refine ⟨a, swapPtr, swap, ha, hlast, hswap, ?_⟩
  simp only [State.avProcDelete, ha, hlast, hswap, Option.bind_eq_bind, Option.bind_some,
    if_pos hlt]
  rfl

/-- **A deletion ends.** -/
theorem Inv.removed {s : State} (hinv : Inv s) {p swapPtr : Nat} {stack : List Frame}
    {a swap : Proc} (hstack : s.stack = .callback p :: stack) (ha : s.heap p = some a)
    (hlast : s.procs.getLast? = some swapPtr) (hswap : s.heap swapPtr = some swap) :
    Inv (s.removed stack p a swapPtr swap) := by
  have hplace : s.pidx p = some a.pidx := by rw [State.pidx, ha]; rfl
  have hpidx : (s.removed stack p a swapPtr swap).pidx =
      Function.update (Function.update s.pidx swapPtr (some a.pidx)) p none := by
    refine (Function.comp_update (Option.map Proc.pidx) _ p none).trans ?_
    exact congrArg (fun f => Function.update f p none)
      (Function.comp_update (Option.map Proc.pidx) s.heap swapPtr _)
  -- what is in memory was there before, for the same command
  have hbefore {q : Nat} {b : Proc}
      (h : (s.removed stack p a swapPtr swap).heap q = some b) :
      q ≠ p ∧ ∃ b', s.heap q = some b' ∧ b'.cmd = b.cmd := by
    change Function.update (Function.update s.heap swapPtr _) p none q = some b at h
    by_cases hq : q = p
    · rw [hq, Function.update_self] at h
      exact nomatch h
    · rw [Function.update_of_ne hq] at h
      refine ⟨hq, ?_⟩
      by_cases hs : q = swapPtr
      · rw [hs, Function.update_self] at h
        obtain rfl := Option.some.inj h
        exact ⟨swap, hs ▸ hswap, rfl⟩
      · rw [Function.update_of_ne hs] at h
        exact ⟨b, h, rfl⟩
  have hafter {q : Nat} {b : Proc} (hq : q ≠ p) (h : s.heap q = some b) :
      ∃ b', (s.removed stack p a swapPtr swap).heap q = some b' ∧ b'.cmd = b.cmd := by
    show ∃ b', Function.update (Function.update s.heap swapPtr _) p none q = some b' ∧ _
    rw [Function.update_of_ne hq]
    by_cases hs : q = swapPtr
    · obtain rfl := Option.some.inj (hswap.symm.trans (hs ▸ h))
      exact ⟨{ swap with pidx := a.pidx }, by rw [hs, Function.update_self], rfl⟩
    · exact ⟨b, by rw [Function.update_of_ne hs]; exact h, rfl⟩
  -- no other proc has the command
  have hcmd {q : Nat} {b : Proc} (hq : q ≠ p) (h : s.heap q = some b) : b.cmd ≠ a.cmd := by
    intro heq
    obtain ⟨c, hc, hdata⟩ := hinv.command q b h
    obtain ⟨c', hc', hdata'⟩ := hinv.command p a ha
    rw [heq, hc'] at hc
    obtain rfl := Option.some.inj hc
    exact hq (hdata.symm.trans hdata')
  have hkeep {cmd : Nat} {c : Command}
      (h : (s.removed stack p a swapPtr swap).commands cmd = some c) :
      s.commands cmd = some c ∧ c.deleteData ≠ p := by
    change Function.update s.commands a.cmd none cmd = some c at h
    by_cases heq : cmd = a.cmd
    · rw [heq, Function.update_self] at h
      exact nomatch h
    · rw [Function.update_of_ne heq] at h
      refine ⟨h, fun hp => ?_⟩
      obtain ⟨b, hb, hcmd'⟩ := hinv.owner cmd c h
      rw [hp, ha] at hb
      obtain rfl := Option.some.inj hb
      exact heq hcmd'.symm
  have hcount (q : Nat) : stack.count (.callback q) ≤ s.stack.count (.callback q) := by
    rw [hstack]
    exact List.count_le_count_cons
  have hgone : .callback p ∉ stack := by
    have honce := hinv.once p
    rw [hstack, List.count_cons_self] at honce
    exact List.count_eq_zero.mp (by omega)
  refine ⟨?_, fun q hq => ?_, fun q b h => ?_, fun cmd c h => ?_, fun cmd c h => ?_, fun q h => ?_,
    fun q => Nat.le_trans (hcount q) (hinv.once q)⟩
  · rw [hpidx]
    exact hinv.indexed.remove hplace hlast
  · by_contra hsome
    obtain ⟨b, hb⟩ := Option.ne_none_iff_exists'.mp hsome
    obtain ⟨-, b', hb', -⟩ := hbefore hb
    exact nomatch (hinv.fresh q hq).symm.trans hb'
  · obtain ⟨hq, b', hb', hsame⟩ := hbefore h
    obtain ⟨c, hc, hdata⟩ := hinv.command q b' hb'
    refine ⟨c, ?_, hdata⟩
    rw [← hsame]
    exact (Function.update_of_ne (hcmd hq hb') _ _).trans hc
  · obtain ⟨hc, hp⟩ := hkeep h
    obtain ⟨b, hb, hcmd'⟩ := hinv.owner cmd c hc
    obtain ⟨b', hb', hsame⟩ := hafter hp hb
    exact ⟨b', hb', hsame.trans hcmd'⟩
  · obtain ⟨hc, hp⟩ := hkeep h
    rw [hinv.marked cmd c hc, hstack, List.mem_cons, Frame.callback.injEq]
    exact or_iff_right hp
  · have hq : q ≠ p := by
      rintro rfl
      exact hgone h
    obtain ⟨b, hb⟩ := hinv.waits q (by rw [hstack]; exact List.mem_cons_of_mem _ h)
    obtain ⟨b', hb', -⟩ := hafter hq hb
    exact ⟨b', hb'⟩

/-! ## Steps -/

/-- What a step can do. -/
inductive Moves (s : State) : Event → State → Prop where
  | load (name : Nat) : Moves s (.load name) { s with
      avs := Function.update s.avs name (some (s.nextid + 1)), nextid := s.nextid + 1 }
  | delete (cmd : Nat) (hloop : s.inLoop = false) : Moves s (.delete cmd) (s.deleteCommand cmd)
  | getAuto (caller : Caller) (hloop : s.inLoop = false) :
      Moves s (.getAuto caller) (s.avGetAuto caller)
  | leave {id : Nat} {caller : Caller} {stack : List Frame}
      (hstack : s.stack = .release id caller :: stack) (hprocs : s.procs = []) :
      Moves s .turn (State.got { s with autoid := id, stack := stack } caller)
  | turn {id : Nat} {caller : Caller} {stack : List Frame} {p : Nat} {procs : List Nat} {a : Proc}
      (hstack : s.stack = .release id caller :: stack) (hprocs : s.procs = p :: procs)
      (ha : s.heap p = some a) : Moves s .turn (s.deleteCommand a.cmd)
  | finish {p swapPtr : Nat} {stack : List Frame} {a swap : Proc}
      (hstack : s.stack = .callback p :: stack) (ha : s.heap p = some a)
      (hlast : s.procs.getLast? = some swapPtr) (hswap : s.heap swapPtr = some swap) :
      Moves s .finish (s.removed stack p a swapPtr swap)
  | define {stack : List Frame} (cmd : Nat) (hstack : s.stack = .eval :: stack)
      (hcmd : s.commands cmd = none) :
      Moves s (.define cmd) (State.wrap { s with stack := stack } cmd)
  | fail {stack : List Frame} (hstack : s.stack = .eval :: stack) :
      Moves s .fail { s with stack := stack }

theorem Inv.moves {s s' : State} {e : Event} (hinv : Inv s) (hstep : step s e = some s') :
    Moves s e s' := by
  cases e with
  | load name =>
      obtain rfl := Option.some.inj hstep
      exact .load name
  | delete cmd =>
      obtain ⟨hloop, hstep⟩ := Option.ite_none_left_eq_some.mp hstep
      obtain rfl := Option.some.inj hstep
      exact .delete cmd (Bool.eq_false_iff.mpr hloop)
  | getAuto caller =>
      obtain ⟨hloop, hstep⟩ := Option.ite_none_left_eq_some.mp hstep
      obtain rfl := Option.some.inj hstep
      exact .getAuto caller (Bool.eq_false_iff.mpr hloop)
  | turn =>
      rw [step, State.turn] at hstep
      split at hstep
      · rename_i id caller stack hstack
        split at hstep
        · obtain rfl := Option.some.inj hstep
          exact .leave hstack ‹_›
        · rename_i p procs hprocs
          obtain ⟨a, ha, rfl⟩ := Option.map_eq_some_iff.mp hstep
          exact .turn hstack hprocs ha
      · exact nomatch hstep
  | finish =>
      rw [step] at hstep
      split at hstep
      · rename_i p stack hstack
        obtain ⟨a, swapPtr, swap, ha, hlast, hswap, heq⟩ := hinv.avProcDelete hstack
        obtain rfl := Option.some.inj (heq.symm.trans hstep)
        exact .finish hstack ha hlast hswap
      · exact nomatch hstep
  | define cmd =>
      rw [step] at hstep
      split at hstep
      · rename_i stack hstack
        obtain ⟨hcmd, hstep⟩ := Option.ite_none_right_eq_some.mp hstep
        obtain rfl := Option.some.inj hstep
        exact .define cmd hstack (Option.isNone_iff_eq_none.mp hcmd)
      · exact nomatch hstep
  | fail =>
      rw [step] at hstep
      split at hstep
      · rename_i stack hstack
        obtain rfl := Option.some.inj hstep
        exact .fail hstack
      · exact nomatch hstep

/-- Taking another frame than that of a deletion off the stack. -/
theorem Inv.pop {s : State} (hinv : Inv s) {f : Frame} {stack : List Frame}
    (hstack : s.stack = f :: stack) (hf : ∀ p, f ≠ .callback p) (id : Nat) :
    Inv { s with autoid := id, stack := stack } := by
  refine hinv.goto rfl rfl rfl rfl fun p => ?_
  rw [hstack, List.count_cons_of_ne (hf p)]

/-- **Every step keeps the places right**, whatever scripts do while commands are deleted. -/
theorem inv_step {s s' : State} {e : Event} (hinv : Inv s) (hstep : step s e = some s') :
    Inv s' := by
  cases hinv.moves hstep with
  | load name => exact hinv.goto rfl rfl rfl rfl fun p => rfl
  | delete cmd => exact hinv.deleteCommand cmd
  | getAuto caller => exact hinv.avGetAuto caller
  | leave hstack => exact (hinv.pop hstack (by simp) _).got _
  | turn => exact hinv.deleteCommand _
  | finish hstack ha hlast hswap => exact hinv.removed hstack ha hlast hswap
  | define cmd hstack hcmd => exact (hinv.pop hstack (by simp) s.autoid).wrap hcmd
  | fail hstack => exact hinv.pop hstack (by simp) s.autoid

end Nsdci.AvProc
