import Nsdci.Lib.Transition
import Nsdci.Nv.Sections

/-!
# Relay

An array that is received from one server and served to others passes every change on: what
`RecvUpdate` logs while it applies a message it broadcasts before it gives the lock back. It does
so at a new network name and at the end of the message, but not when it meets an unknown command:
there it gives the lock back with the log as it is. So every log is empty whenever a lock is given
back exactly if no message has an unknown command behind a change of its array
(`relay_complete_iff`).
-/

namespace Nsdci.Nv

open Lib

variable {α κ : Type}

/-! ## Messages as commands -/

/-- What stands in a message: the name of an array, a command, or another byte. -/
inductive Token where
  | array (netname : Bytes)
  | cmd (cmd : Cmd)
  | unknown
  deriving DecidableEq, Repr

/-- The next token, and what is behind it. `none` when it has no end. -/
def nextToken : Bytes → Option (Token × Bytes)
  | [] => none
  | cmd :: p =>
      if cmd = 65 then (readCStr p).map fun netname => (.array netname.1, netname.2)
      else if cmd = 70 then some (.cmd .flush, p)
      else if cmd = 85 then (readCStr p).map fun key => (.cmd (.unset key.1), key.2)
      else if cmd = 83 then
        (readCStr p).bind fun key =>
          (readCStr key.2).map fun value => (.cmd (.set key.1 value.1), value.2)
      else some (.unknown, p)

/-- The tokens of a message with the terminator of its buffer, as far as they can be read. -/
def tokens : Nat → Bytes → List Token
  | 0, _ => []
  | fuel + 1, p =>
      if 1 < p.length then
        match nextToken p with
        | none => []
        | some (token, rest) => token :: tokens fuel rest
      else []

/-- The command changes the table it is for. -/
def Cmd.Changes : Cmd → Table → Bool
  | .set _ _, _ => true
  | .unset key, t => (t.lookup key).isSome
  | .flush, _ => true

variable [DecidableEq α]

/-- An unknown command comes when the current array is served and has been changed since its name.
`changed` says whether it has been already. -/
def Stale (mapping : Bytes → Option α) (served : α → Bool) :
    α → Bool → (α → Table) → List Token → Prop
  | _, _, _, [] => False
  | name, changed, t, .array netname :: ts =>
      match mapping netname with
      | none => Stale mapping served name changed t ts
      | some name' => Stale mapping served name' false t ts
  | name, changed, t, .cmd cmd :: ts =>
      Stale mapping served name (changed || (served name && cmd.Changes (t name)))
        (Function.update t name (cmd.run (t name))) ts
  | _, changed, _, .unknown :: _ => changed = true

/-- The arrays that are served. -/
def World.isServed (w : World α κ) (name : α) : Bool := (w.arrays name).servPtr.isSome

/-- A message has an unknown command behind a change of a served array. -/
def StaleMsg (mapping : Bytes → Option α) (w : World α κ) (ds : Bytes) : Prop :=
  match tokens (ds.length + 1) (ds ++ [0]) with
  | .array netname :: ts =>
      match mapping netname with
      | some name => Stale mapping w.isServed name false w.table ts
      | none => False
  | _ => False

/-- An event that is such a message. -/
def Event.Stale (w : World α κ) : Event α κ → Prop
  | .recv mapping ds => StaleMsg mapping w ds
  | _ => False

/-! ## Logs -/

/-- Every log is empty. -/
def Quiet (w : World α κ) : Prop := ∀ n, (w.arrays n).log = []

/-- Every log but that of the array at work is empty, and that too if the array is not served. -/
structure AtWork (name : α) (w : World α κ) : Prop where
  others : ∀ n, n ≠ name → (w.arrays n).log = []
  own : (w.arrays name).servPtr = none → (w.arrays name).log = []

variable {w w' : World α κ} {name : α}

omit [DecidableEq α] in
theorem Quiet.atWork (h : Quiet w) (name : α) : AtWork name w :=
  ⟨fun n _ => h n, fun _ => h name⟩

@[simp] theorem broadcastUpdates_servPtr (a : Array κ) :
    (broadcastUpdates a).1.servPtr = a.servPtr := by
  unfold broadcastUpdates
  split <;> rfl

@[simp] theorem logUpdate_servPtr (cmd : Cmd) (broadcast : Bool) (a : Array κ) :
    (logUpdate cmd broadcast a).1.servPtr = a.servPtr := by
  simp only [logUpdate]
  split_ifs <;> simp

@[simp] theorem setVar_servPtr (key value : Bytes) (cset broadcast : Bool) (a : Array κ) :
    (setVar key value cset broadcast a).1.servPtr = a.servPtr := by
  unfold setVar
  split
  · simp
  · split_ifs <;> simp

@[simp] theorem unsetVar_servPtr (key logged : Bytes) (broadcast : Bool) (a : Array κ) :
    (unsetVar key logged broadcast a).1.servPtr = a.servPtr := by
  unfold unsetVar
  split <;> simp

@[simp] theorem flushArray_servPtr (broadcast : Bool) (a : Array κ) :
    (flushArray broadcast a).1.servPtr = a.servPtr := by
  simp [flushArray]

/-- A broadcast leaves nothing in the log. -/
theorem broadcastUpdates_log {a : Array κ} (h : a.servPtr = none → a.log = []) :
    (broadcastUpdates a).1.log = [] := by
  unfold broadcastUpdates
  split
  · rename_i hserv
    exact h hserv
  · rfl

/-- The log after a change without a message. -/
theorem logUpdate_false_log (cmd : Cmd) (a : Array κ) :
    (logUpdate cmd false a).1.log = if a.servPtr.isSome then a.log ++ cmd.bytes else a.log := by
  simp only [logUpdate, Bool.false_eq_true, if_false]
  split_ifs <;> rfl

/-- A change with its message leaves nothing in the log. -/
theorem logUpdate_true_log (cmd : Cmd) {a : Array κ} (h : a.log = []) :
    (logUpdate cmd true a).1.log = [] := by
  simp only [logUpdate]
  split_ifs with hserv
  · refine broadcastUpdates_log fun hnone => ?_
    have hnone' : a.servPtr = none := hnone
    rw [hnone'] at hserv
    exact absurd hserv Bool.false_ne_true
  · exact h

theorem setVar_true_log (key value : Bytes) (cset : Bool) {a : Array κ} (h : a.log = []) :
    (setVar key value cset true a).1.log = [] := by
  unfold setVar
  split
  · exact logUpdate_true_log _ h
  · split_ifs
    · exact h
    · exact logUpdate_true_log _ h

theorem unsetVar_true_log (key logged : Bytes) {a : Array κ} (h : a.log = []) :
    (unsetVar key logged true a).1.log = [] := by
  unfold unsetVar
  split
  · exact h
  · exact logUpdate_true_log _ h

/-- `SetVar`, `UnsetVar` and `FlushArray` as `RecvUpdate` calls them. -/
def Cmd.call : Cmd → Array κ → Array κ × List (κ × Bytes)
  | .set key value => setVar key value false false
  | .unset key => unsetVar key key false
  | .flush => flushArray false

omit [DecidableEq α] in
theorem Cmd.call_servPtr (cmd : Cmd) (a : Array κ) : (cmd.call a).1.servPtr = a.servPtr := by
  cases cmd <;> simp [call]

/-- A command that changes a served array is logged, and nothing else is. -/
theorem Cmd.call_log (cmd : Cmd) (a : Array κ) : (cmd.call a).1.log =
    if a.servPtr.isSome && cmd.Changes a.vars then a.log ++ cmd.bytes else a.log := by
  cases cmd with
  | set key value =>
      simp only [call, setVar, Changes, Bool.and_true]
      split <;> simp [logUpdate_false_log]
  | unset key =>
      simp only [call, unsetVar, Changes]
      split <;> rename_i h <;> simp [h, logUpdate_false_log]
  | flush => simp [call, flushArray, Changes, logUpdate_false_log]

/-- A change of the array at work that keeps its server, and its log if it is not served. -/
theorem AtWork.change (h : AtWork name w) {f : Array κ → Array κ × List (κ × Bytes)}
    (hserv : ∀ a, (f a).1.servPtr = a.servPtr)
    (hlog : ∀ a, a.servPtr = none → (f a).1.log = a.log) : AtWork name (w.change name f) := by
  refine ⟨fun n hn => ?_, fun hnone => ?_⟩
  · rw [World.change_arrays_ne w hn]
    exact h.others n hn
  · rw [World.change_arrays_self] at hnone ⊢
    rw [hserv] at hnone
    rw [hlog _ hnone]
    exact h.own hnone

theorem AtWork.call (h : AtWork name w) (cmd : Cmd) : AtWork name (w.change name cmd.call) := by
  refine h.change cmd.call_servPtr fun a hnone => ?_
  rw [cmd.call_log]
  simp [hnone]

/-- After the broadcast all logs are empty. -/
theorem AtWork.broadcast (h : AtWork name w) : Quiet (w.change name broadcastUpdates) := by
  intro n
  by_cases hn : n = name
  · subst hn
    rw [World.change_arrays_self]
    exact broadcastUpdates_log h.own
  · rw [World.change_arrays_ne w hn]
    exact h.others n hn

/-- All logs stay empty when the change leaves nothing in its own. -/
theorem Quiet.change (h : Quiet w) (name : α) {f : Array κ → Array κ × List (κ × Bytes)}
    (hf : ∀ a, a.log = [] → (f a).1.log = []) : Quiet (w.change name f) := by
  intro n
  by_cases hn : n = name
  · subst hn
    rw [World.change_arrays_self]
    exact hf _ (h n)
  · rw [World.change_arrays_ne w hn]
    exact h n

/-! ## Sections -/

/-- Only empty logs were seen at the locks given back since `w`, and all logs are empty. -/
structure Relays (w w' : World α κ) : Prop where
  quiet : Quiet w'
  released : ∃ more, w'.released = w.released ++ more ∧ ∀ e ∈ more, e.2 = []

omit [DecidableEq α] in
/-- A lock given back with all logs empty. -/
theorem Quiet.unlock (h : Quiet w') (hsame : w'.released = w.released) (name : α) :
    Relays w (w'.unlock name) := by
  refine ⟨h, [(name, (w'.arrays name).log)], ?_, ?_⟩
  · simp [World.unlock, hsame]
  · simpa using h name

theorem Changed.atWork (h : Changed name w w') (hw : Quiet w) :
    AtWork name w' ∧ w'.released = w.released := by
  induction h with
  | start => exact ⟨hw.atWork name, rfl⟩
  | set w' key value _ _ _ ih => exact ⟨ih.1.call (.set key value), ih.2⟩
  | unset w' key logged _ _ ih =>
      refine ⟨ih.1.change (unsetVar_servPtr key logged false) fun a hnone => ?_, ih.2⟩
      unfold unsetVar
      split
      · rfl
      · simp [logUpdate_false_log, hnone]
  | flush w' _ ih => exact ⟨ih.1.call .flush, ih.2⟩

/-- **Every command broadcasts what it logs.** -/
theorem Section.relays (h : Section w w') (hw : Quiet w) : Relays w w' := by
  cases h with
  | idle => exact ⟨hw, [], by simp, by simp⟩
  | look name => exact hw.unlock rfl name
  | set name key value cset _ _ =>
      have hquiet : Quiet (w.change name (setVar key value cset true)) :=
        hw.change name fun a ha => setVar_true_log key value cset ha
      have hsame : (w.change name (setVar key value cset true)).released = w.released := rfl
      exact hquiet.unlock hsame name
  | unset name key _ =>
      have hquiet : Quiet (w.change name (unsetVar key key true)) :=
        hw.change name fun a ha => unsetVar_true_log key key ha
      have hsame : (w.change name (unsetVar key key true)).released = w.released := rfl
      exact hquiet.unlock hsame name
  | changes name w'' h =>
      obtain ⟨hwork, hsame⟩ := h.atWork hw
      exact hwork.broadcast.unlock hsame name

/-! ## The loop of `RecvUpdate` -/

/-- What one turn of the loop does with a token. -/
def Token.act (mapping : Bytes → Option α) (name : α) (w : World α κ) :
    Token → Option α × World α κ
  | .array netname =>
      match mapping netname with
      | none => (some name, w)
      | some name' => (some name', w.locked name broadcastUpdates)
  | .cmd c => (some name, w.apply name c)
  | .unknown => (none, w.unlock name)

/-- One turn of the loop takes one token. -/
theorem recvCmd_some (mapping : Bytes → Option α) (p : Bytes) (name : α) (w : World α κ) :
    recvCmd mapping p (some name) w =
      (nextToken p).map fun r => (r.2, r.1.act mapping name w) := by
  cases p with
  | nil => rfl
  | cons cmd p =>
      simp only [recvCmd, nextToken]
      split_ifs with harray hflush hunset hset
      · cases readCStr p with
        | none => rfl
        | some netname =>
            simp only [Option.map_some, Token.act]
            cases mapping netname.1 <;> rfl
      · rfl
      · cases readCStr p <;> rfl
      · cases readCStr p with
        | none => rfl
        | some key =>
            simp only [Option.bind_some, Token.act]
            cases readCStr key.2 <;> rfl
      · rfl

/-- What `RecvUpdate` has done so far with the array at work: nothing is in its log exactly if it
was not changed since its name, and no log seen before was not empty. -/
structure Working (w₀ : World α κ) (name : α) (changed : Bool) (w : World α κ) : Prop where
  atWork : AtWork name w
  log : (w.arrays name).log = [] ↔ changed = false
  served : w.isServed = w₀.isServed
  released : ∃ more, w.released = w₀.released ++ more ∧ ∀ e ∈ more, e.2 = []

variable {w₀ : World α κ} {changed : Bool} {mapping : Bytes → Option α}

/-- A world whose arrays have the servers they had. -/
theorem isServed_change (w : World α κ) (name : α) {f : Array κ → Array κ × List (κ × Bytes)}
    (hf : ∀ a, (f a).1.servPtr = a.servPtr) : (w.change name f).isServed = w.isServed := by
  funext n
  unfold World.isServed
  by_cases hn : n = name
  · subst hn
    rw [World.change_arrays_self, hf]
  · rw [World.change_arrays_ne w hn]

/-- A command applied. -/
theorem Working.apply (h : Working w₀ name changed w) (cmd : Cmd) :
    Working w₀ name (changed || (w₀.isServed name && cmd.Changes (w.table name)))
      (w.apply name cmd) := by
  have harrays : (w.apply name cmd).arrays = (w.change name cmd.call).arrays := by
    cases cmd <;> rfl
  have hreleased : (w.apply name cmd).released = w.released := by cases cmd <;> rfl
  have hserved : (w.apply name cmd).isServed = w.isServed := by
    rw [← isServed_change w name cmd.call_servPtr]
    funext n
    unfold World.isServed
    rw [harrays]
  have hwork := h.atWork.call cmd
  refine ⟨⟨?_, ?_⟩, ?_, hserved.trans h.served, ?_⟩
  · rw [harrays]
    exact hwork.others
  · rw [harrays]
    exact hwork.own
  · rw [harrays, World.change_arrays_self, cmd.call_log, ← h.served]
    have hne : cmd.bytes ≠ [] := List.ne_nil_of_length_pos (length_cmd_bytes_pos cmd)
    show _ ↔ (changed || ((w.arrays name).servPtr.isSome && cmd.Changes (w.arrays name).vars)) =
      false
    cases hlogged : (w.arrays name).servPtr.isSome && cmd.Changes (w.arrays name).vars
    · simpa using h.log
    · simp [hne]
  · rw [hreleased]
    exact h.released

/-- The next array of the message. -/
theorem Working.next (h : Working w₀ name changed w) (name' : α) :
    Working w₀ name' false (w.locked name broadcastUpdates) := by
  have hquiet : Quiet (w.locked name broadcastUpdates) := h.atWork.broadcast
  obtain ⟨more, hmore, hempty⟩ := h.released
  refine ⟨hquiet.atWork name', ?_, ?_, more ++ [(name, [])], ?_, ?_⟩
  · exact ⟨fun _ => rfl, fun _ => hquiet name'⟩
  · exact (isServed_change w name broadcastUpdates_servPtr).trans h.served
  · have hlog : ((w.change name broadcastUpdates).arrays name).log = [] := hquiet name
    show w.released ++ [(name, ((w.change name broadcastUpdates).arrays name).log)] = _
    rw [hlog, hmore, List.append_assoc]
  · intro e he
    rcases List.mem_append.mp he with he | he
    · exact hempty e he
    · obtain rfl : e = (name, []) := by simpa using he
      rfl

/-- How the loop of `RecvUpdate` ends: at the end of the message, still at work, or at an unknown
command, with all logs empty or with one seen that was not. -/
def LoopEnd (w₀ : World α κ) (stale : Prop) (ptr : Option α) (w' : World α κ) : Prop :=
  match ptr with
  | some last => ¬ stale ∧ ∃ changed, Working w₀ last changed w'
  | none => (¬ stale ∧ Relays w₀ w') ∨ (stale ∧ ∃ e ∈ w'.released, e.2 ≠ [])

/-- **The loop of `RecvUpdate` gives a lock back with something in the log exactly at an unknown
command behind a change.** -/
theorem recvWhile_relays {fuel : Nat} {p : Bytes} {ptr : Option α}
    (h : Working w₀ name changed w)
    (hrun : recvWhile mapping fuel (p, some name, w) = some (ptr, w')) :
    LoopEnd w₀ (Stale mapping w₀.isServed name changed w.table (tokens fuel p)) ptr w' := by
  induction fuel generalizing p name changed w with
  | zero =>
      unfold recvWhile at hrun
      split_ifs at hrun
      obtain ⟨rfl, rfl⟩ : some name = ptr ∧ w = w' := by simpa using hrun
      exact ⟨id, changed, h⟩
  | succ fuel ih =>
      unfold recvWhile at hrun
      by_cases hmore : 1 < p.length
      · rw [if_pos ⟨hmore, rfl⟩, recvCmd_some] at hrun
        rw [tokens, if_pos hmore]
        cases htoken : nextToken p with
        | none => simp [htoken] at hrun
        | some r =>
            obtain ⟨token, rest⟩ := r
            simp only [htoken, Option.map_some, Option.bind_some] at hrun
            show LoopEnd w₀ (Stale mapping w₀.isServed name changed w.table
              (token :: tokens fuel rest)) ptr w'
            cases token with
            | array netname =>
                simp only [Token.act] at hrun
                simp only [Stale]
                cases hmap : mapping netname with
                | none =>
                    simp only [hmap] at hrun
                    exact ih h hrun
                | some name' =>
                    simp only [hmap] at hrun
                    have htable : (w.locked name broadcastUpdates).table = w.table := by
                      funext n
                      exact World.broadcast_table w name n
                    rw [← htable]
                    exact ih (h.next name') hrun
            | cmd cmd =>
                have htable : (w.apply name cmd).table =
                    Function.update w.table name (cmd.run (w.table name)) := by
                  funext n
                  rw [(w.apply_did name cmd).tables n]
                  by_cases hn : n = name
                  · subst hn
                    simp [runFor]
                  · have hn' : ¬ name = n := fun h => hn h.symm
                    simp [runFor, hn, hn']
                simp only [Stale]
                rw [← htable]
                exact ih (h.apply cmd) hrun
            | unknown =>
                simp only [Token.act, recvWhile_none] at hrun
                obtain ⟨rfl, rfl⟩ : none = ptr ∧ w.unlock name = w' := by simpa using hrun
                -- Here the lock is given back without a broadcast.
                cases changed with
                | false =>
                    have hlog : (w.arrays name).log = [] := h.log.mpr rfl
                    obtain ⟨more, hmore, hempty⟩ := h.released
                    refine Or.inl ⟨Bool.false_ne_true, ?_, more ++ [(name, [])], ?_, ?_⟩
                    · intro n
                      by_cases hn : n = name
                      · exact hn ▸ hlog
                      · exact h.atWork.others n hn
                    · show w.released ++ [(name, (w.arrays name).log)] = _
                      rw [hlog, hmore, List.append_assoc]
                    · intro e he
                      rcases List.mem_append.mp he with he | he
                      · exact hempty e he
                      · obtain rfl : e = (name, []) := by simpa using he
                        rfl
                | true =>
                    refine Or.inr ⟨rfl, (name, (w.arrays name).log), ?_, ?_⟩
                    · simp [World.unlock]
                    · intro hlog
                      exact absurd (h.log.mp hlog) (by simp)
      · rw [if_neg (fun hand => hmore hand.1)] at hrun
        obtain ⟨rfl, rfl⟩ : some name = ptr ∧ w = w' := by simpa using hrun
        rw [tokens, if_neg hmore]
        exact ⟨id, changed, h⟩

/-- Only an `A` comes before a name. -/
theorem cmd_of_nextToken {cmd : UInt8} {p rest netname : Bytes}
    (h : nextToken (cmd :: p) = some (.array netname, rest)) : cmd = 65 := by
  by_contra hcmd
  simp only [nextToken, if_neg hcmd] at h
  split_ifs at h
  · simp at h
  · obtain ⟨_, -, h⟩ := Option.map_eq_some_iff.mp h
    simp at h
  · obtain ⟨_, -, h⟩ := Option.bind_eq_some_iff.mp h
    obtain ⟨_, -, h⟩ := Option.map_eq_some_iff.mp h
    simp at h
  · simp at h

/-- A message that does not start with the name of an array is dropped. -/
theorem recvUpdate_no_array (mapping : Bytes → Option α) (w : World α κ) {ds p : Bytes}
    {cmd : UInt8} (hds : ds ++ [0] = cmd :: p)
    (hcmd : cmd ≠ 65) : recvUpdate mapping ds w = some (w, .error) ∧ ¬ StaleMsg mapping w ds := by
  constructor
  · rw [recvUpdate, hds, recvCmd, if_neg hcmd, Option.bind_some, recvWhile_none]
    rfl
  · rw [StaleMsg, hds, tokens]
    split
    · rename_i htoken
      split_ifs at htoken
      cases hnext : nextToken (cmd :: p) with
      | none => simp [hnext] at htoken
      | some r =>
          obtain ⟨token, rest⟩ := r
          rw [hnext] at htoken
          obtain ⟨rfl, -⟩ := List.cons.inj htoken
          exact absurd (cmd_of_nextToken hnext) hcmd
    · exact id

/-- **`RecvUpdate` gives a lock back with something in the log exactly for a stale message.** -/
theorem recvUpdate_relays {ds : Bytes} {st : Status} (hw : Quiet w)
    (hrun : recvUpdate mapping ds w = some (w', st)) :
    (¬ StaleMsg mapping w ds ∧ Relays w w') ∨
      (StaleMsg mapping w ds ∧ ∃ e ∈ w'.released, e.2 ≠ []) := by
  have hidle : Relays w w := ⟨hw, [], by simp, by simp⟩
  cases hds : ds ++ [0] with
  | nil => simp at hds
  | cons cmd p =>
      by_cases hcmd : cmd = 65
      · subst hcmd
        have hlong : 1 < (65 :: p).length := by
          have hlast := congrArg List.getLast? hds
          cases p with
          | nil => simp at hlast
          | cons => simp
        rw [recvUpdate, hds, recvCmd, if_pos rfl] at hrun
        have hnext : nextToken (65 :: p) =
            (readCStr p).map fun netname => (.array netname.1, netname.2) := by
          rw [nextToken, if_pos rfl]
        rw [StaleMsg, hds, tokens, if_pos hlong, hnext]
        cases hread : readCStr p with
        | none => simp [hread] at hrun
        | some netname =>
            simp only [hread, Option.map_some, Option.bind_some] at hrun ⊢
            cases hmap : mapping netname.1 with
            | none =>
                simp only [hmap, recvWhile_none, Option.map_some, Option.some.injEq,
                  Prod.mk.injEq] at hrun
                obtain ⟨rfl, -⟩ := hrun
                exact Or.inl ⟨id, hidle⟩
            | some name =>
                simp only [hmap] at hrun
                obtain ⟨⟨ptr, w₂⟩, hloop, hend⟩ := Option.map_eq_some_iff.mp hrun
                have hstart : Working w name false w :=
                  ⟨hw.atWork name, ⟨fun _ => rfl, fun _ => hw name⟩, rfl, [], by simp, by simp⟩
                have hends := recvWhile_relays hstart hloop
                cases ptr with
                | none =>
                    obtain ⟨rfl, -⟩ : w₂ = w' ∧ Status.error = st := by simpa using hend
                    exact hends
                | some last =>
                    obtain ⟨rfl, -⟩ :
                        (w₂.change last broadcastUpdates).unlock last = w' ∧ Status.ok = st := by
                      simpa using hend
                    obtain ⟨hclean, changed, hwork⟩ := hends
                    have hnext := hwork.next last
                    exact Or.inl ⟨hclean, fun n => by
                      by_cases hn : n = last
                      · exact hn ▸ hnext.log.mpr rfl
                      · exact hnext.atWork.others n hn, hnext.released⟩
      · obtain ⟨hsame, hclean⟩ := recvUpdate_no_array mapping w hds hcmd
        obtain ⟨rfl, -⟩ : w = w' ∧ Status.error = st := by simpa [hsame] using hrun
        exact Or.inl ⟨hclean, hidle⟩

/-! ## Runs -/

omit [DecidableEq α] in
theorem unlock_grows (w : World α κ) (name : α) : w.released <+: (w.unlock name).released :=
  List.prefix_append _ _

theorem Changed.grows (h : Changed name w w') : w'.released = w.released := by
  induction h with
  | start => rfl
  | set _ _ _ _ _ _ ih => exact ih
  | unset _ _ _ _ _ ih => exact ih
  | flush _ _ ih => exact ih

theorem Section.grows (h : Section w w') : w.released <+: w'.released := by
  cases h with
  | idle => exact List.prefix_rfl
  | look name => exact unlock_grows w name
  | set name => exact List.prefix_append _ _
  | unset name => exact List.prefix_append _ _
  | changes name w'' h => exact h.grows ▸ List.prefix_append _ _

theorem recvCmd_grows {p p' : Bytes} {ptr ptr' : Option α}
    (h : recvCmd mapping p ptr w = some (p', ptr', w')) : w.released <+: w'.released := by
  cases ptr with
  | some name =>
      rw [recvCmd_some] at h
      obtain ⟨⟨token, rest⟩, -, h⟩ := Option.map_eq_some_iff.mp h
      obtain rfl : (token.act mapping name w).2 = w' := by simp_all
      cases token with
      | array netname =>
          simp only [Token.act]
          cases mapping netname with
          | none => exact List.prefix_rfl
          | some name' => exact List.prefix_append _ _
      | cmd c => cases c <;> exact List.prefix_rfl
      | unknown => exact List.prefix_append _ _
  | none =>
      have hsame : w = w' := by
        cases p with
        | nil => simp [recvCmd] at h
        | cons cmd p =>
            simp only [recvCmd] at h
            split_ifs at h
            · obtain ⟨netname, -, h⟩ := Option.map_eq_some_iff.mp h
              cases hmap : mapping netname.1 <;> simp_all
            · simp_all
      exact hsame ▸ List.prefix_rfl

theorem recvWhile_grows {fuel : Nat} {p : Bytes} {ptr ptr' : Option α}
    (h : recvWhile mapping fuel (p, ptr, w) = some (ptr', w')) : w.released <+: w'.released := by
  induction fuel generalizing p ptr w with
  | zero =>
      unfold recvWhile at h
      split_ifs at h
      obtain ⟨-, rfl⟩ : ptr = ptr' ∧ w = w' := by simpa using h
      exact List.prefix_rfl
  | succ fuel ih =>
      unfold recvWhile at h
      split_ifs at h
      · obtain ⟨⟨p₁, ptr₁, w₁⟩, hcmd, hrest⟩ := Option.bind_eq_some_iff.mp h
        exact (recvCmd_grows hcmd).trans (ih hrest)
      · obtain ⟨-, rfl⟩ : ptr = ptr' ∧ w = w' := by simpa using h
        exact List.prefix_rfl

theorem recvUpdate_grows {ds : Bytes} {st : Status}
    (h : recvUpdate mapping ds w = some (w', st)) : w.released <+: w'.released := by
  obtain ⟨⟨ptr, w₂⟩, hloop, h⟩ := Option.map_eq_some_iff.mp h
  obtain ⟨⟨p₁, ptr₁, w₁⟩, hcmd, hrest⟩ := Option.bind_eq_some_iff.mp hloop
  have hgrows := (recvCmd_grows hcmd).trans (recvWhile_grows hrest)
  cases ptr with
  | none =>
      obtain ⟨rfl, -⟩ : w₂ = w' ∧ _ := by simpa using h
      exact hgrows
  | some name =>
      obtain ⟨rfl, -⟩ : (w₂.change name broadcastUpdates).unlock name = w' ∧ _ := by simpa using h
      exact hgrows.trans (List.prefix_append _ _)

omit [DecidableEq α] in
theorem foldl_unlock_relays (names : List α) (h : Quiet w') (hsame : Relays w w') :
    Relays w (names.foldl World.unlock w') := by
  induction names generalizing w' with
  | nil => exact hsame
  | cons name names ih =>
      obtain ⟨more, hmore, hempty⟩ := hsame.released
      have hquiet : Quiet (w'.unlock name) := h
      refine ih hquiet ⟨hquiet, more ++ [(name, [])], ?_, ?_⟩
      · show w'.released ++ [(name, (w'.arrays name).log)] = _
        rw [h name, hmore, List.append_assoc]
      · intro e he
        rcases List.mem_append.mp he with he | he
        · exact hempty e he
        · obtain rfl : e = (name, []) := by simpa using he
          rfl

theorem clientInit_relays (served : List α) (hw : Quiet w) : Relays w (w.clientInit served) := by
  have hclear : Quiet { w with arrays := clearInit w.arrays served } := by
    intro n
    show (clearInit w.arrays served n).log = []
    unfold clearInit
    split_ifs
    · exact hw n
    · exact hw n
  exact foldl_unlock_relays served hclear ⟨hclear, [], by simp, by simp⟩

variable {env : Env α κ} {e : Event α κ}

/-- An event either leaves all logs empty at every lock given back, or is a stale message. -/
theorem step_relays (hw : Quiet w) (hstep : step env w e = some w') :
    (¬ e.Stale w ∧ Relays w w') ∨ (e.Stale w ∧ ∃ e ∈ w'.released, e.2 ≠ []) := by
  cases e with
  | command cmd argv freed =>
      obtain rfl := Option.some.inj hstep
      exact Or.inl ⟨id, (cmd.section freed (argv_free argv)).relays hw⟩
  | recv mapping ds =>
      obtain ⟨⟨w'', st⟩, hrecv, rfl⟩ := Option.map_eq_some_iff.mp hstep
      exact recvUpdate_relays hw hrecv
  | stats name =>
      obtain rfl := Option.some.inj hstep
      exact Or.inl ⟨id, hw.unlock rfl name⟩
  | clientInit servPtr =>
      obtain rfl := Option.some.inj hstep
      exact Or.inl ⟨id, clientInit_relays _ hw⟩
  | flusher name =>
      obtain rfl := Option.some.inj hstep
      have hquiet : Quiet (w.change name takeFlush) := hw.change name fun a ha => ha
      have hsame : (w.change name takeFlush).released = w.released := rfl
      exact Or.inl ⟨id, hquiet.unlock hsame name⟩

/-- No event forgets a lock that was given back. -/
theorem step_grows (hstep : step env w e = some w') : w.released <+: w'.released := by
  cases e with
  | command cmd argv freed =>
      obtain rfl := Option.some.inj hstep
      exact (cmd.section freed (argv_free argv)).grows
  | recv mapping ds =>
      obtain ⟨⟨w'', st⟩, hrecv, rfl⟩ := Option.map_eq_some_iff.mp hstep
      exact recvUpdate_grows hrecv
  | stats name =>
      obtain rfl := Option.some.inj hstep
      exact unlock_grows w name
  | clientInit servPtr =>
      obtain rfl := Option.some.inj hstep
      have hgrows : ∀ (names : List α) (w : World α κ),
          w.released <+: (names.foldl World.unlock w).released := by
        intro names
        induction names with
        | nil => exact fun w => List.prefix_rfl
        | cons name names ih => exact fun w => (unlock_grows w name).trans (ih _)
      exact hgrows _ { w with arrays := clearInit w.arrays (env.served servPtr) }
  | flusher name =>
      obtain rfl := Option.some.inj hstep
      exact unlock_grows (w.change name takeFlush) name

/-- Every lock given back so far left an empty log behind. -/
def World.Relayed (w : World α κ) : Prop := ∀ e ∈ w.released, e.2 = []

omit [DecidableEq α] in
/-- The arrays start with empty logs. -/
theorem Setup.quiet (setup : Setup α κ) : Quiet setup.world := by
  have hpairs : ∀ (pairs : List (Bytes × Bytes)) (a : Array κ), a.servPtr = none → a.log = [] →
      (pairs.foldl (fun a e => (setVar e.1 e.2 false false a).1) a).log = [] := by
    intro pairs
    induction pairs with
    | nil => exact fun a _ hlog => hlog
    | cons e pairs ih =>
        intro a hserv hlog
        refine ih _ (by rw [setVar_servPtr, hserv]) ?_
        have hcall := Cmd.call_log (.set e.1 e.2) a
        simpa [Cmd.call, hserv, hlog] using hcall
  intro n
  have hcreate : ∀ pairs, (createArray pairs : Array κ).log = [] := fun pairs =>
    hpairs pairs {} rfl rfl
  show (serve (setup.server n) (createArray _)).log = []
  unfold serve
  split
  · exact hcreate _
  · exact hcreate _

/-- **Relay.** Every lock given back in a run has left an empty log behind exactly if no message
had an unknown command behind a change of its array. -/
theorem relay_complete_iff {setup : Setup α κ} {es : List (Event α κ)}
    (hrun : run (step env) setup.world es = some w) :
    w.Relayed ↔ Along (step env) (fun w e => ¬ e.Stale w) setup.world es := by
  have hinv : ∀ s e s', (Quiet s ∧ s.Relayed) → ¬ Event.Stale s e → step env s e = some s' →
      Quiet s' ∧ s'.Relayed := by
    rintro s e s' ⟨hquiet, hrelayed⟩ hclean hstep
    obtain ⟨-, hrelays⟩ | ⟨hstale, -⟩ := step_relays hquiet hstep
    · obtain ⟨more, hmore, hempty⟩ := hrelays.released
      refine ⟨hrelays.quiet, fun r hr => ?_⟩
      rcases List.mem_append.mp (hmore ▸ hr) with hr | hr
      · exact hrelayed r hr
      · exact hempty r hr
    · exact absurd hstale hclean
  refine run_iff_along hinv (fun s hs => hs.2) ?_ ?_ ⟨setup.quiet, ?_⟩ hrun
  · rintro s e s' ⟨hquiet, -⟩ hstale hstep hrelayed
    obtain ⟨hclean, -⟩ | ⟨-, r, hr, hne⟩ := step_relays hquiet hstep
    · exact hstale hclean
    · exact hne (hrelayed r hr)
  · intro s e s' hstep hrelayed r hr
    exact hrelayed r ((step_grows hstep).subset hr)
  · exact fun r hr => absurd hr List.not_mem_nil

/-- One array, received under the name `x` and served under the name `y`. -/
def relaySetup : Setup Unit Unit := ⟨fun _ => [], fun _ => some ((), toCStr [121])⟩

/-- A message that sets `k` and goes on with an unknown command. -/
def unknownBehindSet : Bytes := 65 :: (asciz [120] ++ ((Cmd.set [107] [49]).bytes ++ [90]))

/-- A message that sets `k` and ends is no stale one. -/
theorem relay_complete_set :
    ∃ w, run (step plainEnv) relaySetup.world
        [.recv mapsX (65 :: (asciz [120] ++ (Cmd.set [107] [49]).bytes))] = some w ∧
      (w.Relayed ↔ Along (step plainEnv) (fun w e => ¬ e.Stale w) relaySetup.world
        [.recv mapsX (65 :: (asciz [120] ++ (Cmd.set [107] [49]).bytes))]) :=
  ⟨_, rfl, relay_complete_iff rfl⟩

/-- The set of `k` is still in the log when the lock is given back, and no message tells the
clients of `y` of it. -/
theorem relay_unknown_command :
    (run (step plainEnv) relaySetup.world [.recv mapsX unknownBehindSet]).map
        (fun w => (w.released, w.sent)) =
      some ([((), (Cmd.set [107] [49]).bytes)], []) ∧
    ∃ w, run (step plainEnv) relaySetup.world [.recv mapsX unknownBehindSet] = some w ∧
      ¬ w.Relayed := by
  have hrun : (run (step plainEnv) relaySetup.world [.recv mapsX unknownBehindSet]).map
      (fun w => (w.released, w.sent)) = some ([((), (Cmd.set [107] [49]).bytes)], []) := by
    decide
  obtain ⟨w, hw, hreleased⟩ := Option.map_eq_some_iff.mp hrun
  refine ⟨hrun, w, hw, fun hrelayed => ?_⟩
  obtain ⟨hreleased, -⟩ := Prod.mk.inj hreleased
  have hempty := hrelayed ((), (Cmd.set [107] [49]).bytes) (by simp [hreleased])
  exact absurd hempty (by decide)

end Nsdci.Nv
