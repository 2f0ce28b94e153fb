import Nsdci.Nv.Relay

/-!
# What the commands log

Every command changes one array at most, and when the array is served it makes one message, whose
commands do to the table of the array at a client what was done to it here (`Logs`). The one
exception is `nv.flush` with a pattern, which logs what `UnsetVar` finds at the key it has freed:
there it has to find that key unchanged.
-/

namespace Nsdci.Nv

open Lib

variable {α κ : Type}

/-- What an event did: it made at most one message, of commands that had the effect it had. -/
structure Logs (name : α) (cmds : List Cmd) (w w' : World α κ) : Prop where
  free : ∀ cmd ∈ cmds, cmd.NulFree
  others : ∀ n, n ≠ name → w'.arrays n = w.arrays n
  table : w'.table name = cmds.foldl (fun t cmd => cmd.run t) (w.table name)
  init : (w'.arrays name).init = false →
    (w.arrays name).init = false ∧ w'.table name = w.table name
  servPtr : (w'.arrays name).servPtr = (w.arrays name).servPtr
  netname : (w'.arrays name).netname = (w.arrays name).netname

/-- The message of commands on an array, for the server of the array. -/
def Array.update (a : Array κ) (cmds : List Cmd) : List (κ × Bytes) :=
  a.servPtr.toList.map fun servPtr => (servPtr, 65 :: (asciz a.netname ++ cmds.flatMap Cmd.bytes))

/-- An event that leaves the arrays alone, or commands on one array with their message. -/
inductive Published (w w' : World α κ) : Prop where
  | none (arrays : w'.arrays = w.arrays) (sent : w'.sent = w.sent)
  | update (name : α) (cmds : List Cmd) (logs : Logs name cmds w w')
      (sent : w'.sent = w.sent ++ (w.arrays name).update cmds)

/-! ## One array -/

@[simp] theorem broadcastUpdates_init (a : Array κ) : (broadcastUpdates a).1.init = a.init := by
  unfold broadcastUpdates
  split <;> rfl

@[simp] theorem broadcastUpdates_netname (a : Array κ) :
    (broadcastUpdates a).1.netname = a.netname := by
  unfold broadcastUpdates
  split <;> rfl

@[simp] theorem logUpdate_init (cmd : Cmd) (broadcast : Bool) (a : Array κ) :
    (logUpdate cmd broadcast a).1.init = a.init := by
  simp only [logUpdate]
  split_ifs <;> simp

@[simp] theorem logUpdate_netname (cmd : Cmd) (broadcast : Bool) (a : Array κ) :
    (logUpdate cmd broadcast a).1.netname = a.netname := by
  simp only [logUpdate]
  split_ifs <;> simp

/-- The message `BroadcastUpdates` makes. -/
theorem broadcastUpdates_sent {a : Array κ} {cmds : List Cmd}
    (hlog : a.servPtr.isSome → a.log = cmds.flatMap Cmd.bytes) :
    (broadcastUpdates a).2 = a.update cmds := by
  unfold broadcastUpdates Array.update
  cases hserv : a.servPtr with
  | none => rfl
  | some servPtr =>
      rw [hserv] at hlog
      rw [hlog rfl]
      rfl

/-- The message of a single change. -/
theorem logUpdate_sent (cmd : Cmd) {a : Array κ} (hlog : a.log = []) :
    (logUpdate cmd true a).2 = a.update [cmd] := by
  unfold logUpdate
  by_cases hserv : a.servPtr.isSome
  · have hcmds : (a.log ++ cmd.bytes) = [cmd].flatMap Cmd.bytes := by
      rw [hlog, List.nil_append, List.flatMap_singleton]
    rw [if_pos hserv]
    dsimp only
    rw [if_pos rfl]
    exact broadcastUpdates_sent (a := { a with log := a.log ++ cmd.bytes }) fun _ => hcmds
  · rw [if_neg hserv, Array.update, Option.not_isSome_iff_eq_none.mp hserv]
    rfl

/-- A change without a message. -/
theorem Cmd.call_sent (cmd : Cmd) (a : Array κ) : (cmd.call a).2 = [] := by
  have hlog : ∀ cmd (a : Array κ), (logUpdate cmd false a).2 = [] := by
    intro cmd a
    simp only [logUpdate, Bool.false_eq_true, if_false]
    split_ifs <;> rfl
  cases cmd with
  | set key value =>
      simp only [call, setVar, Bool.false_eq_true, if_false]
      split <;> exact hlog _ _
  | unset key =>
      simp only [call, unsetVar]
      split
      · rfl
      · exact hlog _ _
  | flush => exact hlog _ _

theorem Cmd.call_vars (cmd : Cmd) (a : Array κ) : (cmd.call a).1.vars = cmd.run a.vars := by
  cases cmd with
  | set key value => exact setVar_vars key value false a
  | unset key => exact unsetVar_vars key key false a
  | flush => exact flushArray_vars false a

theorem Cmd.call_netname (cmd : Cmd) (a : Array κ) : (cmd.call a).1.netname = a.netname := by
  cases cmd with
  | set key value =>
      simp only [call, setVar, Bool.false_eq_true, if_false]
      split <;> rw [logUpdate_netname]
  | unset key =>
      simp only [call, unsetVar]
      split
      · rfl
      · rw [logUpdate_netname]
  | flush => exact logUpdate_netname _ _ _

/-- A command that does not change the table leaves it. -/
theorem Cmd.run_of_not_changes {cmd : Cmd} {t : Table} (h : cmd.Changes t = false) :
    cmd.run t = t := by
  cases cmd with
  | set key value => exact absurd h.symm Bool.false_ne_true
  | unset key => exact erase_eq_self (Option.not_isSome_iff_eq_none.mp (Bool.not_eq_true _ ▸ h))
  | flush => exact absurd h.symm Bool.false_ne_true

/-- **A change sets `NV_INIT`.** -/
theorem Cmd.call_init (cmd : Cmd) (a : Array κ) :
    (cmd.call a).1.init = (a.init || cmd.Changes a.vars) := by
  cases cmd with
  | set key value =>
      simp only [call, setVar, Changes, Bool.or_true, Bool.false_eq_true, if_false]
      split <;> rw [logUpdate_init]
  | unset key =>
      simp only [call, unsetVar, Changes]
      split <;> rename_i h
      · simp [h]
      · rw [logUpdate_init, h]
        simp
  | flush => simp [call, flushArray, Changes]

variable [DecidableEq α]

/-! ## Commands on one array -/

/-- Commands on one array, without a message. -/
def World.does (w : World α κ) (name : α) (cmds : List Cmd) : World α κ :=
  cmds.foldl (fun w cmd => w.change name cmd.call) w

variable {w w' w'' : World α κ} {name : α} {cmds cmds' : List Cmd}

omit [DecidableEq α] in
theorem Logs.refl (name : α) (w : World α κ) : Logs name [] w w :=
  ⟨fun _ h => absurd h List.not_mem_nil, fun _ _ => rfl, rfl, fun h => ⟨h, rfl⟩, rfl, rfl⟩

omit [DecidableEq α] in
theorem Logs.trans (h : Logs name cmds w w') (h' : Logs name cmds' w' w'') :
    Logs name (cmds ++ cmds') w w'' where
  free cmd hcmd := (List.mem_append.mp hcmd).elim (h.free cmd) (h'.free cmd)
  others n hn := (h'.others n hn).trans (h.others n hn)
  table := by rw [h'.table, h.table, List.foldl_append]
  init hinit := by
    obtain ⟨hinit', htable'⟩ := h'.init hinit
    obtain ⟨hinit'', htable⟩ := h.init hinit'
    exact ⟨hinit'', htable'.trans htable⟩
  servPtr := h'.servPtr.trans h.servPtr
  netname := h'.netname.trans h.netname

/-- One command logs itself, if it changes anything. -/
theorem Cmd.call_logs (w : World α κ) (name : α) {cmd : Cmd} (hfree : cmd.NulFree) :
    ∃ cmds, Logs name cmds w (w.change name cmd.call) ∧
      ((w.arrays name).servPtr.isSome →
        ((w.change name cmd.call).arrays name).log =
          (w.arrays name).log ++ cmds.flatMap Cmd.bytes) := by
  have htable : (w.change name cmd.call).table name = cmd.run (w.table name) := by
    rw [World.table, World.change_arrays_self, cmd.call_vars]
    rfl
  have hothers : ∀ n, n ≠ name → (w.change name cmd.call).arrays n = w.arrays n :=
    fun n hn => World.change_arrays_ne w hn _
  have hserv : ((w.change name cmd.call).arrays name).servPtr = (w.arrays name).servPtr := by
    rw [World.change_arrays_self, cmd.call_servPtr]
  have hnet : ((w.change name cmd.call).arrays name).netname = (w.arrays name).netname := by
    rw [World.change_arrays_self, cmd.call_netname]
  have hinit : ((w.change name cmd.call).arrays name).init =
      ((w.arrays name).init || cmd.Changes (w.table name)) := by
    rw [World.change_arrays_self, cmd.call_init]
    rfl
  have hlog : ((w.change name cmd.call).arrays name).log =
      if (w.arrays name).servPtr.isSome && cmd.Changes (w.table name) then
        (w.arrays name).log ++ cmd.bytes else (w.arrays name).log := by
    rw [World.change_arrays_self, cmd.call_log]
    rfl
  cases hchanges : cmd.Changes (w.table name) with
  | true =>
      rw [hchanges, Bool.or_true] at hinit
      refine ⟨[cmd], ⟨?_, hothers, htable, ?_, hserv, hnet⟩, fun hsome => ?_⟩
      · intro c hc
        rw [List.mem_singleton.mp hc]
        exact hfree
      · intro hfalse
        exact absurd (hfalse.symm.trans hinit) Bool.false_ne_true
      · rw [hlog, hsome, hchanges, List.flatMap_singleton]
        rfl
  | false =>
      rw [Cmd.run_of_not_changes hchanges] at htable
      rw [hchanges, Bool.or_false] at hinit
      refine ⟨[], ⟨fun _ h => absurd h List.not_mem_nil, hothers, htable, ?_, hserv, hnet⟩,
        fun _ => ?_⟩
      · exact fun hfalse => ⟨hinit.symm.trans hfalse, htable⟩
      · rw [hlog, hchanges, Bool.and_false, List.flatMap_nil, List.append_nil]
        rfl

/-- **Commands on one array log themselves**, but for those that change nothing. -/
theorem World.does_logs (w : World α κ) (name : α) (cmds : List Cmd)
    (hfree : ∀ cmd ∈ cmds, cmd.NulFree) :
    ∃ cmds', Logs name cmds' w (w.does name cmds) ∧ (w.does name cmds).sent = w.sent ∧
      ((w.arrays name).servPtr.isSome →
        ((w.does name cmds).arrays name).log =
          (w.arrays name).log ++ cmds'.flatMap Cmd.bytes) := by
  induction cmds generalizing w with
  | nil => exact ⟨[], Logs.refl name w, rfl, fun _ => (List.append_nil _).symm⟩
  | cons cmd cmds ih =>
      obtain ⟨first, hfirst, hlog⟩ := Cmd.call_logs w name (hfree cmd List.mem_cons_self)
      obtain ⟨rest, hrest, hsent, hlog'⟩ := ih (w.change name cmd.call)
        fun c hc => hfree c (List.mem_cons_of_mem _ hc)
      refine ⟨first ++ rest, hfirst.trans hrest, ?_, fun hsome => ?_⟩
      · refine hsent.trans ?_
        show w.sent ++ (cmd.call (w.arrays name)).2 = w.sent
        rw [cmd.call_sent, List.append_nil]
      · rw [List.flatMap_append, ← List.append_assoc, ← hlog hsome]
        exact hlog' (hfirst.servPtr ▸ hsome)

/-- **Commands on one array and then `BroadcastUpdates`.** -/
theorem does_published (hquiet : Quiet w) (name : α) (cmds : List Cmd)
    (hfree : ∀ cmd ∈ cmds, cmd.NulFree) :
    Published w ((w.does name cmds).locked name broadcastUpdates) := by
  obtain ⟨cmds', hlogs, hsent, hlog⟩ := w.does_logs name cmds hfree
  rw [hquiet name, List.nil_append] at hlog
  have hself : ((w.does name cmds).locked name broadcastUpdates).arrays name =
      (broadcastUpdates ((w.does name cmds).arrays name)).1 := World.change_arrays_self _ _ _
  refine .update name cmds' ⟨hlogs.free, fun n hn => ?_, ?_, ?_, ?_, ?_⟩ ?_
  · exact (World.change_arrays_ne _ hn _).trans (hlogs.others n hn)
  · rw [World.table, hself, broadcastUpdates_vars]
    exact hlogs.table
  · rw [World.table, hself, broadcastUpdates_vars, broadcastUpdates_init]
    exact hlogs.init
  · rw [hself, broadcastUpdates_servPtr, hlogs.servPtr]
  · rw [hself, broadcastUpdates_netname, hlogs.netname]
  · show (w.does name cmds).sent ++ (broadcastUpdates ((w.does name cmds).arrays name)).2 = _
    rw [hsent, broadcastUpdates_sent fun h => hlog (hlogs.servPtr ▸ h), Array.update, Array.update,
      hlogs.servPtr, hlogs.netname]

/-- A single change with its message, as commands and then `BroadcastUpdates`. -/
theorem logUpdate_published (name : α) (cmd : Cmd) (hfree : cmd.NulFree)
    {f : Array κ → Array κ × List (κ × Bytes)} {a : Array κ}
    (hf : f (w.arrays name) = logUpdate cmd true a) (hvars : a.vars = cmd.run (w.table name))
    (hinit : a.init = true) (hlog : a.log = []) (hserv : a.servPtr = (w.arrays name).servPtr)
    (hnet : a.netname = (w.arrays name).netname) : Published w (w.locked name f) := by
  have hself : (w.locked name f).arrays name = (logUpdate cmd true a).1 := by
    rw [World.locked, World.unlock, World.change_arrays_self, hf]
  refine .update name [cmd] ⟨?_, fun n hn => World.change_arrays_ne w hn _, ?_, ?_, ?_, ?_⟩ ?_
  · intro c hc
    rw [List.mem_singleton.mp hc]
    exact hfree
  · rw [World.table, hself, logUpdate_vars, hvars]
    rfl
  · intro hfalse
    rw [hself, logUpdate_init, hinit] at hfalse
    exact absurd hfalse.symm Bool.false_ne_true
  · rw [hself, logUpdate_servPtr, hserv]
  · rw [hself, logUpdate_netname, hnet]
  · show w.sent ++ (f (w.arrays name)).2 = _
    rw [hf, logUpdate_sent cmd hlog, Array.update, Array.update, hserv, hnet]

theorem setVar_published (hquiet : Quiet w) (name : α) {key value : Bytes} (cset : Bool)
    (hkey : NulFree key) (hvalue : NulFree value) :
    Published w (w.locked name (setVar key value cset true)) := by
  cases hold : (w.arrays name).vars.lookup key with
  | none =>
      have hset : setVar key value cset true (w.arrays name) = logUpdate (.set key value) true
          { w.arrays name with
            vars := (w.arrays name).vars.insert key value
            sizekeys := int32 ((w.arrays name).sizekeys + key.length)
            sizevalues := int32 ((w.arrays name).sizevalues + value.length)
            flush := true
            init := true } := by
        unfold setVar
        rw [hold]
      exact logUpdate_published name (.set key value) ⟨hkey, hvalue⟩ hset rfl rfl
        (hquiet name) rfl rfl
  | some old =>
      cases cset with
      | true =>
          have hset : setVar key value true true (w.arrays name) = (w.arrays name, []) := by
            unfold setVar
            rw [hold]
            rfl
          refine .none (funext fun n => ?_) ?_
          · by_cases hn : n = name
            · subst hn
              exact (World.change_arrays_self w n _).trans (congrArg Prod.fst hset)
            · exact World.change_arrays_ne w hn _
          · show w.sent ++ (setVar key value true true (w.arrays name)).2 = w.sent
            rw [hset, List.append_nil]
      | false =>
          have hset : setVar key value false true (w.arrays name) =
              logUpdate (.set key value) true { w.arrays name with
                vars := (w.arrays name).vars.insert key value
                sizevalues := int32 ((w.arrays name).sizevalues - old.length + value.length)
                flush := true
                init := true } := by
            unfold setVar
            rw [hold]
            rfl
          exact logUpdate_published name (.set key value) ⟨hkey, hvalue⟩ hset rfl rfl
            (hquiet name) rfl rfl

theorem unsetVar_published (hquiet : Quiet w) (name : α) {key : Bytes} (hkey : NulFree key) :
    Published w (w.locked name (unsetVar key key true)) := by
  cases hold : (w.arrays name).vars.lookup key with
  | none =>
      have hunset : unsetVar key key true (w.arrays name) = (w.arrays name, []) := by
        unfold unsetVar
        rw [hold]
      refine .none (funext fun n => ?_) ?_
      · by_cases hn : n = name
        · subst hn
          exact (World.change_arrays_self w n _).trans (congrArg Prod.fst hunset)
        · exact World.change_arrays_ne w hn _
      · show w.sent ++ (unsetVar key key true (w.arrays name)).2 = w.sent
        rw [hunset, List.append_nil]
  | some old =>
      have hunset : unsetVar key key true (w.arrays name) = logUpdate (.unset key) true
          { w.arrays name with
            vars := (w.arrays name).vars.erase key
            sizekeys := int32 ((w.arrays name).sizekeys - key.length)
            sizevalues := int32 ((w.arrays name).sizevalues - old.length)
            flush := true
            init := true } := by
        unfold unsetVar
        rw [hold]
      exact logUpdate_published name (.unset key) hkey hunset rfl rfl (hquiet name) rfl rfl

/-! ## The commands -/

variable {tcl : Tcl} {order : HashOrder} {find : Names α}

omit [DecidableEq α] in
theorem published_self (w : World α κ) : Published w w := .none rfl rfl

omit [DecidableEq α] in
/-- A look at an array. -/
theorem unlock_published (w : World α κ) (name : α) : Published w (w.unlock name) := .none rfl rfl

omit [DecidableEq α] in
/-- A command that looks for its array. -/
theorem getArray_published {array : Bytes} {cmd : α → World α κ × Result}
    (h : ∀ name, Published w (cmd name).1) : Published w (getArray find array w cmd).1 := by
  unfold getArray
  split
  · exact published_self w
  · exact h _

/-- Keys unset one by one, when `UnsetVar` finds the keys it has freed unchanged. -/
theorem unsetKeys_eq {freed : Bytes → Bytes} {keys : List Bytes}
    (hkeys : ∀ key ∈ keys, cstr (freed key) = key) (name : α) (w : World α κ) :
    unsetKeys freed name keys w = w.does name (keys.map Cmd.unset) := by
  induction keys generalizing w with
  | nil => rfl
  | cons key keys ih =>
      have hrest := ih (fun k hk => hkeys k (List.mem_cons_of_mem _ hk))
        (w.change name (unsetVar key (cstr (freed key)) false))
      rw [hkeys key List.mem_cons_self] at hrest
      simp only [unsetKeys, List.foldl_cons] at hrest ⊢
      rw [hkeys key List.mem_cons_self]
      exact hrest

theorem setKeys_eq (name : α) (pairs : List (Bytes × Bytes)) (w : World α κ) :
    setKeys name pairs w = w.does name (pairs.map fun e => .set e.1 e.2) := by
  induction pairs generalizing w with
  | nil => rfl
  | cons e pairs ih => exact ih _

theorem nvFlushCmd_published (hquiet : Quiet w) {argv : List Bytes} {freed : Bytes → Bytes}
    (hkeys : ∀ name, ∀ e ∈ entries (w.arrays name).vars, NulFree e.1)
    (hfreed : argv.length = 3 → ∀ key, NulFree key → cstr (freed key) = key) :
    Published w (nvFlushCmd tcl order find freed argv w).1 := by
  unfold nvFlushCmd
  split
  · refine getArray_published fun name => ?_
    exact does_published hquiet name [.flush] fun cmd hcmd => by
      rw [List.mem_singleton.mp hcmd]
      trivial
  · rename_i array pattern
    refine getArray_published fun name => ?_
    have hfree : ∀ key ∈ ((order.search (entries (w.arrays name).vars)).map Prod.fst).filter
        (fun key => tcl.stringMatch key pattern), NulFree key := by
      intro key hkey
      obtain ⟨e, he, rfl⟩ := List.mem_map.mp (List.mem_filter.mp hkey).1
      exact hkeys name e ((order.perm _).mem_iff.mp he)
    dsimp only
    rw [unsetKeys_eq fun key hkey => hfreed rfl key (hfree key hkey)]
    refine does_published hquiet name _ fun cmd hcmd => ?_
    obtain ⟨key, hkey, rfl⟩ := List.mem_map.mp hcmd
    exact hfree key hkey
  · exact published_self w

theorem loadList_published (hquiet : Quiet w) (flush : Bool) (list : Bytes) (name : α) :
    Published w (loadList tcl flush list w name).1 := by
  unfold loadList
  split
  · exact published_self w
  · rename_i largv _
    split
    · exact published_self w
    · have hflush : (if flush then w.change name (flushArray false) else w) =
          w.does name (if flush then [.flush] else []) := by
        cases flush <;> rfl
      have hcmds : ∀ cmd ∈ (if flush then [Cmd.flush] else []) ++
          (keyValues (largv.map cstr)).map (fun e => .set e.1 e.2), cmd.NulFree := by
        intro cmd hcmd
        rcases List.mem_append.mp hcmd with hcmd | hcmd
        · cases flush
          · exact absurd hcmd List.not_mem_nil
          · rw [List.mem_singleton.mp hcmd]
            trivial
        · obtain ⟨e, he, rfl⟩ := List.mem_map.mp hcmd
          obtain ⟨hkey, hvalue⟩ := mem_of_mem_keyValues he
          obtain ⟨_, -, hkey⟩ := List.mem_map.mp hkey
          obtain ⟨_, -, hvalue⟩ := List.mem_map.mp hvalue
          exact ⟨hkey ▸ nulFree_cstr _, hvalue ▸ nulFree_cstr _⟩
      dsimp only
      rw [hflush, setKeys_eq, World.does, World.does, ← List.foldl_append]
      exact does_published hquiet name _ hcmds

/-- **Every command logs what it does**, `nv.flush` with a pattern if the keys it frees are still
there. -/
theorem Command.published (hquiet : Quiet w) (cmd : Command) {argv : List Bytes}
    {freed : Bytes → Bytes} (hargv : ∀ s ∈ argv, NulFree s)
    (hkeys : ∀ name, ∀ e ∈ entries (w.arrays name).vars, NulFree e.1)
    (hfreed : cmd = .flush → argv.length = 3 → ∀ key, NulFree key → cstr (freed key) = key) :
    Published w (cmd.proc tcl order find freed argv w).1 := by
  have hincr : ∀ key count, NulFree key → ∀ name,
      Published w (incrKey tcl key count w name).1 := by
    intro key count hkey name
    unfold incrKey
    split
    · exact unlock_published w name
    · split
      · exact unlock_published w name
      · exact setVar_published hquiet name false hkey (nulFree_decimal _)
  cases cmd with
  | get cmd =>
      simp only [Command.proc, nvGetCmd]
      split
      · exact getArray_published (unlock_published w)
      · exact published_self w
      · exact getArray_published (unlock_published w)
      · exact published_self w
  | set cset =>
      simp only [Command.proc, nvSetCmd]
      split
      · exact getArray_published fun name =>
          setVar_published hquiet name cset (hargv _ (by simp)) (hargv _ (by simp))
      · exact published_self w
  | append lappend =>
      simp only [Command.proc, nvAppendCmd]
      split
      · exact getArray_published fun name =>
          setVar_published hquiet name false (hargv _ (by simp)) (nulFree_cstr _)
      · exact published_self w
  | unset =>
      simp only [Command.proc, nvUnsetCmd]
      split
      · exact getArray_published fun name => unsetVar_published hquiet name (hargv _ (by simp))
      · exact published_self w
  | dump values =>
      simp only [Command.proc, nvDumpCmd]
      split
      · exact getArray_published (unlock_published w)
      · exact getArray_published (unlock_published w)
      · exact published_self w
  | flush => exact nvFlushCmd_published hquiet hkeys (hfreed rfl)
  | incr =>
      simp only [Command.proc, nvIncrCmd]
      split
      · exact getArray_published (hincr _ _ (hargv _ (by simp)))
      · split
        · exact published_self w
        · exact getArray_published (hincr _ _ (hargv _ (by simp)))
      · exact published_self w
  | load =>
      simp only [Command.proc, nvLoadCmd]
      split
      · exact getArray_published (loadList_published hquiet true _)
      · split_ifs
        · exact getArray_published (loadList_published hquiet false _)
        · exact published_self w
      · exact published_self w

end Nsdci.Nv
