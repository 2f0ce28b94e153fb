import Nsdci.Broadcast.Frames
import Nsdci.Broadcast.Queue
import Nsdci.Nv.Replica

/-!
# The process of a variable server

A variable server is its arrays together with the thread of its broadcaster. The commands change
the arrays and queue update messages, and the thread hands out login, init message and updates.
A command holds the lock of its array until its message is queued, and `ClientInitMsg` holds the
locks of all arrays, so that an event is a command or a stretch of the thread. An event that needs
a message too long for a frame has no next state.
-/

namespace Nsdci.Nv

open Lib

variable {α β κ γ : Type} [DecidableEq α]

/-- The broadcaster of a variable server calls `ClientInitMsg`. -/
def bcastConfig (order : HashOrder) (cfg : Broadcast.Config (Server α κ)) :
    Broadcast.Config (Server α κ) :=
  { cfg with initProc := some (clientInitProc order) }

/-- The process of a variable server. -/
structure Serving (α κ : Type) where
  world : World α κ
  bcast : Broadcast.State (Server α κ)

/-- What happens to it: an event of its arrays, or of the thread. -/
inductive ServingEvent (α κ : Type) where
  | arrays (e : Event α κ)
  | thread (e : Broadcast.Event (Server α κ))

/-- The events of the thread of a broadcaster, and the shutdown. -/
def isThread {σ : Type} : Broadcast.Event σ → Bool
  | .round _ _ | .client _ _ _ | .next _ | .stop | .ret => true
  | .msg _ | .data _ => false

/-- A message of these data, if they fit a frame. -/
def toMsg (data : Bytes) : Option Msg :=
  if size_lt : data.length + 4 < 2147483648 then some ⟨data, size_lt⟩ else none

/-- The messages for one server. -/
def toMsgs [DecidableEq κ] (me : κ) (sent : List (κ × Bytes)) : Option (List Msg) :=
  (sent.filter fun e => e.1 = me).mapM fun e => toMsg e.2

/-- The data of the server with other contents of the arrays. -/
def Server.withArrays (d : Server α κ) (arrays : α → Array κ)
    (small : (initLen arrays d.served).toNat + 4 < 2147483648) : Server α κ :=
  { d with arrays := arrays, small := small }

/-- One event. -/
def Serving.step [DecidableEq κ] (env : Env α κ) (me : κ) (cfg : Broadcast.Config (Server α κ))
    (s : Serving α κ) : ServingEvent α κ → Option (Serving α κ)
  | .arrays e =>
      (Nv.step env s.world e).bind fun w =>
        if small : (initLen w.arrays s.bcast.data.served).toNat + 4 < 2147483648 then
          (toMsgs me (w.sent.drop s.world.sent.length)).bind fun msgs =>
            (run (Broadcast.step cfg) s.bcast
              (.data (s.bcast.data.withArrays w.arrays small) :: msgs.map .msg)).map fun b =>
                { world := w, bcast := b }
        else none
  | .thread e =>
      if isThread e then
        (Broadcast.step cfg s.bcast e).map fun b =>
          { world := { s.world with arrays := b.data.arrays }, bcast := b }
      else none

/-- The configured arrays, before the first event of the thread. -/
def Serving.start (cfg : Broadcast.Config (Server α κ)) (clients : Nat) (setup : Setup α κ)
    (served : List α) (small : (initLen setup.world.arrays served).toNat + 4 < 2147483648) :
    Serving α κ where
  world := setup.world
  bcast := Broadcast.start cfg clients
    { arrays := setup.world.arrays, served := served, init := none, small := small }

/-- The init message of these arrays fits a frame. -/
def Fits (arrays : α → Array κ) (served : List α) : Prop :=
  sumOf (fun name => reloadLen (arrays name)) served + 4 < 2147483648

instance (arrays : α → Array κ) (served : List α) : Decidable (Fits arrays served) :=
  inferInstanceAs (Decidable (_ < _))

/-- A command, where `UnsetVar` finds the keys that `nv.flush` with a pattern frees unchanged, or
what other servers and threads do to the arrays. Messages of other servers are left to the servers
that receive them. -/
def Event.Exact (me : κ) : Event α κ → Prop
  | .command .flush argv freed =>
      argv.length = 3 → ∀ key, NulFree key → cstr (freed key) = key
  | .command _ _ _ => True
  | .recv _ _ => False
  | .stats _ => True
  | .clientInit servPtr => servPtr ≠ me
  | .flusher _ => True

/-- `StopBroadcasters`. -/
def isStop {σ : Type} : Broadcast.Event σ → Bool
  | .stop => true
  | _ => false

/-- No event is a shutdown, a send on the connection `k` that times out, or one that makes the
arrays too large for an init message. -/
def Undisturbed (env : Env α κ) (me : κ) (k : Nat) (s : Serving α κ) : ServingEvent α κ → Prop
  | .arrays e => e.Exact me ∧ ∀ w ∈ Nv.step env s.world e, Fits w.arrays (env.served me)
  | .thread e => isStop e = false ∧ Broadcast.NoTimeout k s.bcast e

/-! ## Events of the arrays -/

/-- What an event leaves when it is none of the changes that are logged: the arrays have what they
had, and the flags `NV_INIT` of these are as they were. -/
structure Same (served : List α) (w w' : World α κ) : Prop where
  sent : w'.sent = w.sent
  vars : ∀ n, (w'.arrays n).vars = (w.arrays n).vars
  netname : ∀ n, (w'.arrays n).netname = (w.arrays n).netname
  servPtr : ∀ n, (w'.arrays n).servPtr = (w.arrays n).servPtr
  init : ∀ n ∈ served, (w'.arrays n).init = (w.arrays n).init

variable {env : Env α κ} {me : κ} {served : List α} {w w' : World α κ} {e : Event α κ}

omit [DecidableEq α] in
theorem same_of_arrays (harrays : w'.arrays = w.arrays) (hsent : w'.sent = w.sent) :
    Same served w w' :=
  ⟨hsent, fun n => by rw [harrays], fun n => by rw [harrays], fun n => by rw [harrays],
    fun n _ => by rw [harrays]⟩

omit [DecidableEq α] in
theorem foldl_unlock_sent (names : List α) (w : World α κ) :
    (names.foldl World.unlock w).sent = w.sent := by
  induction names generalizing w with
  | nil => rfl
  | cons name names ih => exact ih (w.unlock name)

/-- **What an event does to the arrays**: it logs what it changes, or it changes nothing. -/
theorem step_effect (hexact : e.Exact me) (hother : ∀ p, p ≠ me → ∀ n ∈ served, n ∉ env.served p)
    (hquiet : Quiet w) (hsized : w.All Sized) (hstep : step env w e = some w') :
    Same served w w' ∨ ∃ name cmds, Logs name cmds w w' ∧
      w'.sent = w.sent ++ (w.arrays name).update cmds := by
  cases e with
  | command cmd argv freed =>
      obtain rfl := Option.some.inj hstep
      have hfreed : cmd = .flush → (argv.map Subtype.val).length = 3 →
          ∀ key, NulFree key → cstr (freed key) = key := by
        rintro rfl hlen
        rw [List.length_map] at hlen
        exact hexact hlen
      have hpublished : Published w
          (cmd.proc env.tcl env.order env.find freed (argv.map Subtype.val) w).1 :=
        cmd.published hquiet (argv_free argv) (fun name e he => ((hsized name).free e he).1) hfreed
      cases hpublished with
      | none harrays hsent => exact Or.inl (same_of_arrays harrays hsent)
      | update name cmds hlogs hsent => exact Or.inr ⟨name, cmds, hlogs, hsent⟩
  | recv mapping ds => exact absurd hexact id
  | stats name =>
      obtain rfl := Option.some.inj hstep
      exact Or.inl (same_of_arrays rfl rfl)
  | clientInit servPtr =>
      obtain rfl := Option.some.inj hstep
      refine Or.inl ⟨foldl_unlock_sent _ _, ?_, ?_, ?_, ?_⟩
      · intro n
        rw [World.clientInit, foldl_unlock_arrays, clearInit_vars]
      · intro n
        rw [World.clientInit, foldl_unlock_arrays, clearInit_netname]
      · intro n
        rw [World.clientInit, foldl_unlock_arrays]
        show (clearInit w.arrays _ n).servPtr = _
        unfold clearInit
        split_ifs <;> rfl
      · intro n hn
        rw [World.clientInit, foldl_unlock_arrays]
        exact congrArg Array.init (if_neg (hother servPtr hexact n hn))
  | flusher name =>
      obtain rfl := Option.some.inj hstep
      have harrays : ∀ n, (w.locked name takeFlush).arrays n = w.arrays n ∨
          (w.locked name takeFlush).arrays n = { w.arrays n with flush := false } := by
        intro n
        by_cases hn : n = name
        · subst hn
          exact Or.inr (World.change_arrays_self w n takeFlush)
        · exact Or.inl (World.change_arrays_ne w hn takeFlush)
      refine Or.inl ⟨List.append_nil _, fun n => ?_, fun n => ?_, fun n => ?_, fun n _ => ?_⟩ <;>
        rcases harrays n with h | h <;> rw [h]

/-- All logs are empty after such an event. -/
theorem step_quiet (hexact : e.Exact me) (hquiet : Quiet w) (hstep : step env w e = some w') :
    Quiet w' := by
  obtain ⟨-, hrelays⟩ | ⟨hstale, -⟩ := step_relays hquiet hstep
  · exact hrelays.quiet
  · cases e with
    | recv mapping ds => exact absurd hexact id
    | command | stats | clientInit | flusher => exact absurd hstale id

end Nsdci.Nv
