import Nsdci.AvProc.Places

/-!
# The release of auto-loaded procs (`av.c`)

The loop of `AvGetAuto` deletes the first command of the array until there is none. It relies on the
delete callback to take the command out of the array. A command that is being deleted already has
its callback called no more: a loop begun by a script of such a callback never ends (`Stuck`). All
other loops end, with all procs deleted (`Ends`).

`avProc_iff` says which runs have only loops that end.
-/

namespace Nsdci.AvProc

open Lib

/-! ## What is said of a loop -/

/-- The auto-load AV is not the one of the last time. -/
def State.changed (s : State) : Prop := ∃ id, s.autoname.bind s.avs = some id ∧ id ≠ s.autoid

/-- `AvGetAuto` is not called by a callback of a deletion when the AV has changed. -/
def Outside (s : State) : Event → Prop
  | .getAuto _ => s.changed → ∀ p, .callback p ∉ s.stack
  | _ => True

/-- No proc is left, and no command with `AvProcDelete`. -/
structure AllDeleted (s : State) : Prop where
  procs : s.procs = []
  heap : ∀ p, s.heap p = none
  commands : ∀ cmd, s.commands cmd = none

/-- The loop whose frame is the first of `base` ends: it can end, it takes no more turns than there
are procs and one, and it does not end with a proc left. -/
structure Ends (s : State) (base : List Frame) : Prop where
  reaches : ∃ es s', Along step Outside s es ∧ run step s es = some s' ∧ s'.stack = base ∧
    AllDeleted s'
  turns : ∀ es s', Along step (fun s e => Outside s e ∧ base <:+ s.stack) s es →
    run step s es = some s' → es.count .turn ≤ s.procs.length + 1
  deleted : ∀ es s' e s'', run step s es = some s' → step s' e = some s'' →
    base <:+ s'.stack → ¬base <:+ s''.stack → AllDeleted s'

/-- A loop has begun during a deletion. -/
def Stuck (s : State) : Prop :=
  ∃ id caller below p, (.release id caller :: below) <:+ s.stack ∧ .callback p ∈ below

theorem Inv.allDeleted {s : State} (hinv : Inv s) (h : s.procs = []) : AllDeleted s := by
  have hheap (p : Nat) : s.heap p = none := by
    by_contra hsome
    obtain ⟨a, ha⟩ := Option.ne_none_iff_exists'.mp hsome
    exact absurd (h ▸ hinv.mem_procs ha) List.not_mem_nil
  refine ⟨h, hheap, fun cmd => ?_⟩
  by_contra hsome
  obtain ⟨c, hc⟩ := Option.ne_none_iff_exists'.mp hsome
  obtain ⟨a, ha, -⟩ := hinv.owner cmd c hc
  exact nomatch (hheap c.deleteData).symm.trans ha

/-! ## Steps and the stack -/

theorem deleteCommand_cases (s : State) (cmd : Nat) : s.deleteCommand cmd = s ∨
    ∃ c, s.commands cmd = some c ∧ s.deleteCommand cmd = { s with
      commands := Function.update s.commands cmd (some { c with deleted := true })
      stack := .callback c.deleteData :: s.stack } := by
  cases hc : s.commands cmd with
  | none =>
      left
      rw [State.deleteCommand, hc]
  | some c =>
      cases hmark : c.deleted with
      | true =>
          left
          rw [State.deleteCommand, hc]
          exact if_pos hmark
      | false => exact Or.inr ⟨c, rfl, deleteCommand_eq hc hmark⟩

theorem got_stack (s : State) (caller : Caller) :
    s.stack <:+ (s.got caller).stack := by
  cases caller with
  | cleanup => exact List.suffix_refl _
  | unknown => exact List.suffix_cons _ _
  | select name => exact List.suffix_refl _

theorem avGetAuto_stack (s : State) (caller : Caller) : s.stack <:+ (s.avGetAuto caller).stack := by
  unfold State.avGetAuto
  split
  · split_ifs
    · exact List.suffix_refl _
    · exact got_stack s caller
  · split
    · exact List.suffix_refl _
    · split_ifs
      · exact got_stack s caller
      · exact List.suffix_cons _ _

/-- A frame that is not the first stays. -/
theorem suffix_pop {f g : Frame} {stack below : List Frame} (h : (g :: below) <:+ f :: stack)
    (hne : f ≠ g) : (g :: below) <:+ stack := by
  rcases List.suffix_cons_iff.mp h with heq | hsuffix
  · exact absurd (List.cons.inj heq).1.symm hne
  · exact hsuffix

/-- **A loop goes on until the array is empty.** -/
theorem suffix_step {s s' : State} {e : Event} (hmoves : Moves s e s') {id : Nat} {caller : Caller}
    {below : List Frame} (h : (.release id caller :: below) <:+ s.stack) :
    (.release id caller :: below) <:+ s'.stack ∨ e = .turn ∧ s.procs = [] := by
  cases hmoves with
  | load name => exact Or.inl h
  | delete cmd =>
      left
      rcases deleteCommand_cases s cmd with heq | ⟨c, -, heq⟩
      · rwa [heq]
      · rw [heq]
        exact h.trans (List.suffix_cons _ _)
  | getAuto caller => exact Or.inl (h.trans (avGetAuto_stack s caller))
  | leave hstack hprocs => exact Or.inr ⟨rfl, hprocs⟩
  | @turn _ _ _ _ _ a hstack =>
      left
      rcases deleteCommand_cases s a.cmd with heq | ⟨c, -, heq⟩
      · rwa [heq]
      · rw [heq]
        exact h.trans (List.suffix_cons _ _)
  | finish hstack => exact Or.inl (suffix_pop (hstack ▸ h) (by simp))
  | define cmd hstack => exact Or.inl (suffix_pop (hstack ▸ h) (by simp))
  | fail hstack => exact Or.inl (suffix_pop (hstack ▸ h) (by simp))

/-- The proc of a deletion that goes on is there. -/
theorem Inv.procs_ne {s : State} (hinv : Inv s) {p : Nat} (h : .callback p ∈ s.stack) :
    s.procs ≠ [] := by
  obtain ⟨a, ha⟩ := hinv.waits p h
  exact List.ne_nil_of_mem (hinv.mem_procs ha)

theorem stuck_step {s s' : State} {e : Event} (hinv : Inv s) {id : Nat} {caller : Caller}
    {below : List Frame} {p : Nat} (hp : .callback p ∈ below)
    (h : (.release id caller :: below) <:+ s.stack) (hstep : step s e = some s') :
    (.release id caller :: below) <:+ s'.stack := by
  refine (suffix_step (hinv.moves hstep) h).resolve_right fun hover => ?_
  exact hinv.procs_ne (h.subset (List.mem_cons_of_mem _ hp)) hover.2

/-- **A loop that has begun during a deletion goes on for ever.** -/
theorem stuck_run {s s' : State} {es : List Event} (hinv : Inv s) {id : Nat} {caller : Caller}
    {below : List Frame} {p : Nat} (hp : .callback p ∈ below)
    (h : (.release id caller :: below) <:+ s.stack) (hrun : run step s es = some s') :
    (.release id caller :: below) <:+ s'.stack ∧ s'.procs ≠ [] := by
  have hkeep : ∀ s e s', Inv s ∧ (.release id caller :: below) <:+ s.stack →
      step s e = some s' → Inv s' ∧ (.release id caller :: below) <:+ s'.stack :=
    fun s e s' h hstep => ⟨inv_step h.1 hstep, stuck_step h.1 hp h.2 hstep⟩
  obtain ⟨hinv', h'⟩ := run_invariant_all hkeep ⟨hinv, h⟩ hrun
  exact ⟨h', hinv'.procs_ne (h'.subset (List.mem_cons_of_mem _ hp))⟩

/-! ## Runs without loops that begin during a deletion -/

/-- There is no loop, or one with nothing but deletions above it and nothing but scripts of AVs
below it, and the AV is still not the one of the last time. -/
inductive Calm (s : State) : Prop where
  | none (h : ∀ id caller, .release id caller ∉ s.stack)
  | loop {above : List Nat} {id : Nat} {caller : Caller} {n : Nat}
      (hstack : s.stack = above.map .callback ++ .release id caller :: List.replicate n .eval)
      (hchanged : s.changed) (hid : id ≤ s.nextid)

/-- What holds between the steps of such runs. -/
structure Good (s : State) : Prop where
  inv : Inv s
  autoid : s.autoid ≤ s.nextid
  ids : ∀ name id, s.avs name = some id → id ≤ s.nextid
  calm : Calm s

theorem good_init : Good State.init :=
  ⟨inv_init, Nat.le_refl 0, fun _ _ h => (nomatch h), .none fun _ _ => List.not_mem_nil⟩

/-- A deletion that begins. -/
theorem Calm.deleteCommand {s : State} (h : Calm s) (cmd : Nat) : Calm (s.deleteCommand cmd) := by
  rcases deleteCommand_cases s cmd with heq | ⟨c, -, heq⟩
  · rwa [heq]
  · rw [heq]
    cases h with
    | none h =>
        refine .none fun id caller hmem => ?_
        exact h id caller ((List.mem_cons.mp hmem).resolve_left (by simp))
    | @loop above id caller n hstack hchanged hid =>
        exact @Calm.loop _ (c.deleteData :: above) id caller n (congrArg (_ :: ·) hstack) hchanged
          hid

/-- Under a loop, what is first on the stack is the loop or a deletion. -/
theorem loop_head {above : List Nat} {id : Nat} {caller : Caller} {n : Nat} {f : Frame}
    {stack : List Frame}
    (h : f :: stack = above.map .callback ++ .release id caller :: List.replicate n .eval) :
    (above = [] ∧ f = .release id caller ∧ stack = List.replicate n .eval) ∨
      ∃ p more, above = p :: more ∧ f = .callback p ∧
        stack = more.map .callback ++ .release id caller :: List.replicate n .eval := by
  cases above with
  | nil =>
      obtain ⟨hf, hstack⟩ := List.cons.inj h
      exact Or.inl ⟨rfl, hf, hstack⟩
  | cons p more =>
      obtain ⟨hf, hstack⟩ := List.cons.inj h
      exact Or.inr ⟨p, more, rfl, hf, hstack⟩

/-- The script of an AV does not run under a loop. -/
theorem not_eval_of_loop {above : List Nat} {id : Nat} {caller : Caller} {n : Nat}
    {stack : List Frame} :
    .eval :: stack ≠ above.map .callback ++ .release id caller :: List.replicate n .eval := by
  intro h
  rcases loop_head h with ⟨-, hframe, -⟩ | ⟨p, more, -, hframe, -⟩
  · exact nomatch hframe
  · exact nomatch hframe

/-- A script that runs under a loop is one of a deletion. -/
theorem callback_of_loop {s : State} {above : List Nat} {id : Nat} {caller : Caller} {n : Nat}
    (hstack : s.stack = above.map .callback ++ .release id caller :: List.replicate n .eval)
    (hloop : s.inLoop = false) : ∃ p, .callback p ∈ s.stack := by
  cases above with
  | nil =>
      rw [State.inLoop, hstack] at hloop
      exact nomatch hloop
  | cons p above =>
      rw [hstack]
      exact ⟨p, List.mem_cons_self⟩

/-- The script of an AV returns. -/
theorem Calm.eval {s s' : State} (h : Calm s) (hstack : s.stack = .eval :: s'.stack) :
    Calm s' := by
  cases h with
  | none h =>
      refine .none fun id caller hmem => ?_
      exact h id caller (hstack ▸ List.mem_cons_of_mem _ hmem)
  | loop hstack' => exact absurd (hstack.symm.trans hstack') not_eval_of_loop

theorem Calm.got {s : State} (h : ∀ id caller, .release id caller ∉ s.stack) (caller : Caller) :
    Calm (s.got caller) := by
  cases caller with
  | cleanup => exact .none h
  | unknown =>
      refine .none fun id caller hmem => ?_
      exact h id caller ((List.mem_cons.mp hmem).resolve_left (by simp))
  | select name => exact .none h

theorem Good.got {s : State} (hgood : Good s) (h : ∀ id caller, .release id caller ∉ s.stack)
    (caller : Caller) : Good (s.got caller) := by
  refine ⟨hgood.inv.got caller, ?_, ?_, .got h caller⟩
  · cases caller <;> exact hgood.autoid
  · cases caller <;> exact hgood.ids

/-- `AvGetAuto` begins a loop. -/
theorem Good.avGetAuto {s : State} (hgood : Good s) {caller : Caller} (hloop : s.inLoop = false)
    (hout : Outside s (.getAuto caller)) : Good (s.avGetAuto caller) := by
  have hinv := hgood.inv.avGetAuto caller
  cases hgood.calm with
  | loop hstack hchanged =>
      obtain ⟨p, hp⟩ := callback_of_loop hstack hloop
      exact absurd hp (hout hchanged p)
  | none h =>
      revert hinv
      unfold State.avGetAuto
      split
      · split_ifs
        · exact fun _ => hgood
        · exact fun _ => hgood.got h caller
      · rename_i name hname
        split
        · exact fun _ => hgood
        · rename_i id hid
          split_ifs with hsame
          · exact fun _ => hgood.got h caller
          · intro hinv
            have hchanged : s.changed := ⟨id, by rw [hname]; exact hid, hsame⟩
            have heval : ∀ f ∈ s.stack, f = .eval := by
              intro f hf
              cases f with
              | callback p => exact absurd hf (hout hchanged p)
              | release id caller => exact absurd hf (h id caller)
              | eval => rfl
            have hbelow : .release id caller :: s.stack =
                ([] : List Nat).map .callback ++
                  .release id caller :: List.replicate s.stack.length .eval :=
              congrArg (_ :: ·) (List.eq_replicate_iff.mpr ⟨rfl, heval⟩)
            exact ⟨hinv, hgood.autoid, hgood.ids, .loop hbelow hchanged (hgood.ids name id hid)⟩

theorem good_step {s s' : State} {e : Event} (hgood : Good s) (hout : Outside s e)
    (hstep : step s e = some s') : Good s' := by
  have hinv := inv_step hgood.inv hstep
  have hdelete (cmd : Nat) (hinv : Inv (s.deleteCommand cmd)) : Good (s.deleteCommand cmd) := by
    have hcalm := hgood.calm.deleteCommand cmd
    revert hinv hcalm
    rcases deleteCommand_cases s cmd with heq | ⟨c, -, heq⟩
    · rw [heq]
      exact fun _ _ => hgood
    · rw [heq]
      exact fun hinv hcalm => ⟨hinv, hgood.autoid, hgood.ids, hcalm⟩
  cases hgood.inv.moves hstep with
  | load name =>
      refine ⟨hinv, Nat.le_succ_of_le hgood.autoid, fun other id h => ?_, ?_⟩
      · change Function.update s.avs name _ other = some id at h
        by_cases hother : other = name
        · rw [hother, Function.update_self] at h
          obtain rfl := Option.some.inj h
          exact Nat.le_refl _
        · rw [Function.update_of_ne hother] at h
          exact Nat.le_succ_of_le (hgood.ids other id h)
      · cases hgood.calm with
        | none h => exact .none h
        | loop hstack hchanged hid =>
            refine .loop hstack ?_ (Nat.le_succ_of_le hid)
            obtain ⟨old, hold, hne⟩ := hchanged
            obtain ⟨auto, hauto, hold⟩ := Option.bind_eq_some_iff.mp hold
            -- a new id is larger than all ids before
            by_cases hname : auto = name
            · refine ⟨s.nextid + 1, ?_, fun heq => ?_⟩
              · show s.autoname.bind (Function.update s.avs name _) = _
                rw [hauto, ← hname]
                exact Function.update_self _ _ _
              · have hle := hgood.autoid
                change s.nextid + 1 = s.autoid at heq
                omega
            · refine ⟨old, ?_, hne⟩
              show s.autoname.bind (Function.update s.avs name _) = _
              rw [hauto]
              exact (Function.update_of_ne hname _ _).trans hold
  | delete cmd => exact hdelete cmd hinv
  | getAuto caller hloop => exact hgood.avGetAuto hloop hout
  | @leave id caller stack hstack hprocs =>
      cases hgood.calm with
      | none h => exact absurd (hstack ▸ List.mem_cons_self) (h id caller)
      | loop hstack' hchanged hid =>
          rcases loop_head (hstack ▸ hstack') with ⟨-, hframe, hbelow⟩ | ⟨p, more, -, hframe, -⟩
          · obtain ⟨rfl, rfl⟩ := Frame.release.inj hframe
            have hnone : ∀ id caller, .release id caller ∉ stack := by
              intro id caller hmem
              rw [hbelow] at hmem
              exact nomatch List.eq_of_mem_replicate hmem
            exact Good.got ⟨hgood.inv.pop hstack (by simp) id, hid, hgood.ids, .none hnone⟩ hnone
              caller
          · exact nomatch hframe
  | turn => exact hdelete _ hinv
  | finish hstack =>
      refine ⟨hinv, hgood.autoid, hgood.ids, ?_⟩
      cases hgood.calm with
      | none h =>
          refine .none fun id caller hmem => ?_
          exact h id caller (hstack ▸ List.mem_cons_of_mem _ hmem)
      | loop hstack' hchanged hid =>
          rcases loop_head (hstack ▸ hstack') with ⟨-, hframe, -⟩ | ⟨p, more, -, -, hbelow⟩
          · exact nomatch hframe
          · exact .loop hbelow hchanged hid
  | define cmd hstack => exact ⟨hinv, hgood.autoid, hgood.ids, hgood.calm.eval hstack⟩
  | fail hstack => exact ⟨hinv, hgood.autoid, hgood.ids, hgood.calm.eval hstack⟩

/-! ## Loops end -/

/-- Where the loop is on the stack. -/
theorem Good.loop {s : State} (hgood : Good s) {id : Nat} {caller : Caller} {below : List Frame}
    (h : (.release id caller :: below) <:+ s.stack) :
    ∃ (above : List Nat) (n : Nat), s.stack = above.map .callback ++ .release id caller :: below ∧
      below = List.replicate n .eval ∧ s.changed := by
  cases hgood.calm with
  | none hnone => exact absurd (h.subset List.mem_cons_self) (hnone id caller)
  | @loop above id' caller' n hstack hchanged =>
      obtain ⟨front, hfront⟩ := h
      refine ⟨above, n, ?_⟩
      rw [hstack] at hfront ⊢
      rcases List.append_eq_append_iff.mp hfront with ⟨u, habove, hrest⟩ | ⟨u, -, hrest⟩
      · cases u with
        | nil =>
            obtain ⟨hframe, hbelow⟩ := List.cons.inj hrest
            exact ⟨by rw [hframe, hbelow], hbelow, hchanged⟩
        | cons f u =>
            -- a loop is no deletion
            have hmem : .release id caller ∈ above.map Frame.callback := by
              rw [habove, (List.cons.inj hrest).1]
              exact List.mem_append_right _ List.mem_cons_self
            obtain ⟨p, -, hp⟩ := List.mem_map.mp hmem
            exact nomatch hp
      · cases u with
        | nil =>
            obtain ⟨hframe, hbelow⟩ := List.cons.inj hrest
            exact ⟨by rw [← hframe, ← hbelow], hbelow.symm, hchanged⟩
        | cons f u =>
            have hmem : .release id caller ∈ List.replicate n Frame.eval := by
              rw [(List.cons.inj hrest).2]
              exact List.mem_append_right _ List.mem_cons_self
            exact nomatch List.eq_of_mem_replicate hmem

/-- Under the loop, no proc is being deleted. -/
theorem not_callback {above : List Nat} {id : Nat} {caller : Caller} {below : List Frame} {n : Nat}
    (hbelow : below = List.replicate n .eval) {stack : List Frame}
    (hstack : stack = above.map .callback ++ .release id caller :: below) (p : Nat) :
    .callback p ∈ stack ↔ p ∈ above := by
  rw [hstack, List.mem_append, List.mem_cons, hbelow]
  constructor
  · rintro (hmem | hframe | hmem)
    · obtain ⟨q, hq, heq⟩ := List.mem_map.mp hmem
      obtain rfl := Frame.callback.inj heq
      exact hq
    · exact nomatch hframe
    · exact nomatch List.eq_of_mem_replicate hmem
  · exact fun h => Or.inl (List.mem_map_of_mem h)

/-- The callbacks of a deletion can return. -/
theorem finish_step {s : State} (hinv : Inv s) {p : Nat} {stack : List Frame}
    (hstack : s.stack = .callback p :: stack) : ∃ s', step s .finish = some s' ∧
      s'.stack = stack ∧ s'.procs.length + 1 = s.procs.length := by
  obtain ⟨a, swapPtr, swap, ha, hlast, -, heq⟩ := hinv.avProcDelete hstack
  refine ⟨s.removed stack p a swapPtr swap, ?_, rfl, ?_⟩
  · rw [step, hstack]
    exact heq
  · have hpos := List.length_pos_of_mem (hinv.mem_procs ha)
    show (swapRemove s.procs a.pidx).length + 1 = _
    rw [length_swapRemove hlast]
    omega

/-- A turn of a loop that did not begin during a deletion begins one. -/
theorem turn_step {s : State} (hinv : Inv s) {id : Nat} {caller : Caller} {n : Nat}
    (hstack : s.stack = .release id caller :: List.replicate n .eval) {p : Nat} {procs : List Nat}
    (hprocs : s.procs = p :: procs) : ∃ a q s', s.heap p = some a ∧ s' = s.deleteCommand a.cmd ∧
      step s .turn = some s' ∧ s'.stack = .callback q :: s.stack ∧ s'.procs = s.procs := by
  obtain ⟨a, ha⟩ := hinv.exists_proc (hprocs ▸ List.mem_cons_self)
  obtain ⟨c, hc, hdata⟩ := hinv.command p a ha
  have hmark : c.deleted = false := by
    rw [← Bool.not_eq_true, hinv.marked a.cmd c hc]
    intro hmem
    have hnone := (@not_callback [] id caller _ n rfl _ hstack c.deleteData).mp hmem
    exact absurd hnone List.not_mem_nil
  have hdelete := deleteCommand_eq hc hmark
  refine ⟨a, c.deleteData, s.deleteCommand a.cmd, ha, rfl, ?_, by rw [hdelete], by rw [hdelete]⟩
  show s.turn = _
  rw [State.turn, hstack]
  simp only [hprocs, ha, Option.map_some]

/-- **The loop can end.** One deletion after the other is finished. -/
theorem Good.reaches {s : State} (hgood : Good s) {above : List Nat} {id : Nat} {caller : Caller}
    {n : Nat}
    (hstack : s.stack = above.map .callback ++ .release id caller :: List.replicate n .eval) :
    ∃ es s', Along step Outside s es ∧ run step s es = some s' ∧
      s'.stack = .release id caller :: List.replicate n .eval ∧ AllDeleted s' := by
  induction hlen : s.procs.length using Nat.strongRecOn generalizing s above with
  | _ k ih =>
  -- a run that goes on after the callbacks have returned
  have hfinish {s : State} (hgood : Good s) {p : Nat} {more : List Nat}
      (hlen : s.procs.length = k)
      (hstack : s.stack =
        .callback p :: (more.map .callback ++ .release id caller :: List.replicate n .eval)) :
      ∃ es s', Along step Outside s es ∧ run step s es = some s' ∧
        s'.stack = .release id caller :: List.replicate n .eval ∧ AllDeleted s' := by
    obtain ⟨s₁, hstep, hstack₁, hlen₁⟩ := finish_step hgood.inv hstack
    have hout : Outside s .finish := trivial
    obtain ⟨es, s', hok, hrun, hend⟩ :=
      ih s₁.procs.length (by omega) (good_step hgood hout hstep) hstack₁ rfl
    refine ⟨.finish :: es, s', Along.cons trivial hstep hok, ?_, hend⟩
    rw [run, hstep]
    exact hrun
  cases above with
  | cons p more => exact hfinish hgood hlen hstack
  | nil =>
      cases hprocs : s.procs with
      | nil => exact ⟨[], s, trivial, rfl, hstack, hgood.inv.allDeleted hprocs⟩
      | cons p procs =>
          obtain ⟨a, q, s₁, -, -, hstep, hstack₁, hprocs₁⟩ := turn_step hgood.inv hstack hprocs
          have hout : Outside s .turn := trivial
          have hstack' : s₁.stack = .callback q :: (([] : List Nat).map .callback ++
              .release id caller :: List.replicate n .eval) := by
            rw [hstack₁, hstack]
          obtain ⟨es, s', hok, hrun, hend⟩ :=
            hfinish (good_step hgood hout hstep) (by rw [hprocs₁, hlen]) hstack'
          refine ⟨.turn :: es, s', Along.cons trivial hstep hok, ?_, hend⟩
          rw [run, hstep]
          exact hrun

/-- How many turns the loop can still take. -/
def turnsLeft (base : List Frame) (s : State) : Nat :=
  if s.stack = base then s.procs.length + 1 else s.procs.length

theorem turnsLeft_le (base : List Frame) (s : State) : turnsLeft base s ≤ s.procs.length + 1 := by
  unfold turnsLeft
  split_ifs
  · exact Nat.le_refl _
  · exact Nat.le_succ _

theorem deleteCommand_procs (s : State) (cmd : Nat) : (s.deleteCommand cmd).procs = s.procs := by
  rcases deleteCommand_cases s cmd with heq | ⟨c, -, heq⟩
  · rw [heq]
  · rw [heq]

/-- Every turn takes one of them. -/
theorem turnsLeft_step {s s' : State} {e : Event} (hgood : Good s) (hout : Outside s e)
    (hstep : step s e = some s') {id : Nat} {caller : Caller} {below : List Frame}
    (h : (.release id caller :: below) <:+ s.stack)
    (h' : (.release id caller :: below) <:+ s'.stack) :
    [e].count .turn + turnsLeft (.release id caller :: below) s' ≤
      turnsLeft (.release id caller :: below) s := by
  obtain ⟨above, n, hstack, hbelow, hchanged⟩ := hgood.loop h
  have hother {f : Frame} {stack : List Frame} (hf : ∀ id caller, f ≠ .release id caller) :
      f :: stack ≠ .release id caller :: below := fun heq => hf _ _ (List.cons.inj heq).1
  cases hgood.inv.moves hstep with
  | load name => exact Nat.le_of_eq (Nat.zero_add _)
  | delete cmd hloop =>
      have hne : s.stack ≠ .release id caller :: below := by
        intro heq
        rw [State.inLoop, heq] at hloop
        exact nomatch hloop
      have hne' : (s.deleteCommand cmd).stack ≠ .release id caller :: below := by
        rcases deleteCommand_cases s cmd with heq | ⟨c, -, heq⟩
        · rwa [heq]
        · rw [heq]
          exact hother (by simp)
      rw [turnsLeft, turnsLeft, if_neg hne, if_neg hne', deleteCommand_procs]
      exact Nat.le_of_eq (Nat.zero_add _)
  | getAuto caller' hloop =>
      obtain ⟨p, hp⟩ := callback_of_loop (hbelow ▸ hstack) hloop
      exact absurd hp (hout hchanged p)
  | @leave id' caller' stack hstack' =>
      -- it would be gone
      rcases loop_head (hstack' ▸ hbelow ▸ hstack) with ⟨-, -, hstack'⟩ | ⟨p, more, -, hframe, -⟩
      · have hrelease : .release id caller ∈
            (State.got { s with autoid := id', stack := stack } caller').stack :=
          h'.subset List.mem_cons_self
        have hnone : .release id caller ∉ stack := by
          rw [hstack']
          exact fun hmem => nomatch List.eq_of_mem_replicate hmem
        cases caller' with
        | cleanup => exact absurd hrelease hnone
        | unknown => exact absurd ((List.mem_cons.mp hrelease).resolve_left (by simp)) hnone
        | select name => exact absurd hrelease hnone
      · exact nomatch hframe
  | @turn id' caller' stack p procs a hstack' hprocs ha =>
      rcases loop_head (hstack' ▸ hbelow ▸ hstack) with ⟨habove, -, -⟩ | ⟨q, more, -, hframe, -⟩
      · subst habove
        obtain ⟨a', q, s₁, ha', hs₁, -, hstack₁, hprocs₁⟩ :=
          turn_step hgood.inv (hbelow ▸ hstack) hprocs
        obtain rfl := Option.some.inj (ha.symm.trans ha')
        rw [← hs₁]
        have hne : s₁.stack ≠ .release id caller :: below := by
          rw [hstack₁]
          exact hother (by simp)
        have hbase : s.stack = .release id caller :: below := hstack
        rw [turnsLeft, turnsLeft, if_neg hne, if_pos hbase, hprocs₁]
        exact Nat.le_of_eq (Nat.add_comm _ _)
      · exact nomatch hframe
  | @finish p swapPtr stack a swap hstack' ha hlast =>
      have hne : s.stack ≠ .release id caller :: below := by
        rw [hstack']
        exact hother (by simp)
      have hpos := List.length_pos_of_mem (hgood.inv.mem_procs ha)
      have hle := turnsLeft_le (.release id caller :: below) (s.removed stack p a swapPtr swap)
      have hlen : (s.removed stack p a swapPtr swap).procs.length = s.procs.length - 1 :=
        length_swapRemove hlast a.pidx
      have hleft : turnsLeft (.release id caller :: below) s = s.procs.length := if_neg hne
      show 0 + _ ≤ _
      omega
  | define cmd hstack' => exact absurd (hstack'.symm.trans (hbelow ▸ hstack)) not_eval_of_loop
  | fail hstack' => exact absurd (hstack'.symm.trans (hbelow ▸ hstack)) not_eval_of_loop

/-- **The loop takes no more turns than there are procs and one.** -/
theorem Good.turns {s s' : State} (hgood : Good s) {id : Nat} {caller : Caller}
    {below : List Frame} {es : List Event}
    (h : (.release id caller :: below) <:+ s.stack)
    (hok : Along step (fun s e => Outside s e ∧ (.release id caller :: below) <:+ s.stack) s es)
    (hrun : run step s es = some s') :
    es.count .turn ≤ turnsLeft (.release id caller :: below) s := by
  induction es generalizing s with
  | nil => exact Nat.zero_le _
  | cons e es ih =>
      obtain ⟨⟨hout, -⟩, hrest⟩ := hok
      obtain ⟨s₁, hstep, hrun⟩ := Option.bind_eq_some_iff.mp hrun
      have hok₁ := hrest s₁ hstep
      have hcount : (e :: es).count .turn = [e].count .turn + es.count .turn :=
        @List.count_append _ _ .turn [e] es
      by_cases h₁ : (.release id caller :: below) <:+ s₁.stack
      · have hleft := turnsLeft_step hgood hout hstep h h₁
        have hlater := ih (good_step hgood hout hstep) h₁ hok₁ hrun
        omega
      · -- the turn that ends the loop is the last event
        obtain ⟨rfl, hprocs⟩ := (suffix_step (hgood.inv.moves hstep) h).resolve_left h₁
        have hbase : s.stack = .release id caller :: below := by
          obtain ⟨above, n, hstack, hbelow, -⟩ := hgood.loop h
          cases above with
          | nil => exact hstack
          | cons p above =>
              exact absurd hprocs (hgood.inv.procs_ne (by rw [hstack]; exact List.mem_cons_self))
        cases es with
        | nil =>
            rw [turnsLeft, if_pos hbase]
            exact Nat.succ_le_succ (Nat.zero_le _)
        | cons e es => exact absurd hok₁.1.2 h₁

/-- **A loop ends that did not begin during a deletion.** -/
theorem Good.ends {s : State} (hgood : Good s) {id : Nat} {caller : Caller} {below : List Frame}
    (h : (.release id caller :: below) <:+ s.stack) : Ends s (.release id caller :: below) := by
  refine ⟨?_, fun es s' hok hrun => ?_, fun es s' e s'' hrun hstep hbase hgone => ?_⟩
  · obtain ⟨above, n, hstack, rfl, -⟩ := hgood.loop h
    exact hgood.reaches hstack
  · exact Nat.le_trans (hgood.turns h hok hrun) (turnsLeft_le _ s)
  · have hinv := run_invariant_all (fun s e s' hinv => inv_step hinv) hgood.inv hrun
    obtain ⟨-, hprocs⟩ := (suffix_step (hinv.moves hstep) hbase).resolve_left hgone
    exact hinv.allDeleted hprocs

/-- A loop that has begun during a deletion does not end. -/
theorem Stuck.not_ends {s : State} (hstuck : Stuck s) (hinv : Inv s) :
    ∃ id caller below, (.release id caller :: below) <:+ s.stack ∧
      ¬Ends s (.release id caller :: below) := by
  obtain ⟨id, caller, below, p, hbase, hp⟩ := hstuck
  refine ⟨id, caller, below, hbase, fun hends => ?_⟩
  obtain ⟨es, s', -, hrun, -, hall⟩ := hends.reaches
  exact (stuck_run hinv hp hbase hrun).2 hall.procs

/-! ## Runs -/

/-- A loop that begins during a deletion. -/
theorem stuck_of_not_outside {s s' : State} {e : Event} (hout : ¬Outside s e)
    (hstep : step s e = some s') : Stuck s' := by
  cases e with
  | getAuto caller =>
      obtain ⟨-, hstep⟩ := Option.ite_none_left_eq_some.mp hstep
      obtain rfl := Option.some.inj hstep
      have hbegins : s.changed ∧ ∃ p, .callback p ∈ s.stack := by
        by_contra hnot
        exact hout fun hchanged p hp => hnot ⟨hchanged, p, hp⟩
      obtain ⟨⟨id, hid, hne⟩, p, hp⟩ := hbegins
      obtain ⟨name, hname, hid⟩ := Option.bind_eq_some_iff.mp hid
      have hloop : s.avGetAuto caller = { s with stack := .release id caller :: s.stack } := by
        rw [State.avGetAuto, hname]
        simp only [hid, if_neg hne]
      rw [hloop]
      exact ⟨id, caller, s.stack, p, List.suffix_refl _, hp⟩
  | load | delete | turn | finish | define | fail => exact absurd trivial hout

/-- `av.unknown` names an AV, which is loaded, and an unknown command becomes a proc of it. -/
def oneProc : List Event :=
  [.getAuto (.select 0), .load 0, .getAuto .unknown, .turn, .define 7]

/-- The AV is loaded again, and `av.cleanup` deletes the proc; a delete trace of the proc calls an
unknown command. -/
def traced : List Event := oneProc ++ [.load 0, .getAuto .cleanup, .turn, .getAuto .unknown]

end Nsdci.AvProc
