import Nsdci.Broadcast.Queue
import Nsdci.Nv.InitMsg
import Nsdci.Flush

/-!
# Delivery and lifetime of messages

The broadcasters of the program: `initProc` is `ClientInitMsg`, `NcfClientInitMsg` or not set.
`Lifetime` says that messages are delivered in order to the clients that are due them and that
the reference count of each message is the number of its holders, so that it is freed with its
last holder. It holds of every run but for two leaks: the reference of the creator of the message
that `NcfClientInitMsg` returns, and that of the login message when the thread returns.
-/

namespace Nsdci.Broadcast

open Lib

/-- An `initProc` that works on a part of the data. -/
def InitProc.lift {σ τ : Type} (p : InitProc σ) (get : τ → σ) (set : τ → σ → τ)
    (hget : ∀ t d, get (set t d) = d) : InitProc τ where
  proc t h := (set t (p.proc (get t) h).1, (p.proc (get t) h).2)
  holds t := p.holds (get t)
  keeps t := p.keeps (get t)
  sound t h H hc := by simpa only [hget] using p.sound (get t) h H hc
  later t h := p.later (get t) h

/-- The data the `initProc`s of the program read: a variable server, and `flushOnInit`. -/
structure AppData (α κ : Type) where
  server : Nv.Server α κ
  flushOnInit : Bool

/-- What `Dci_CreateBroadcaster` is given as `initProc`. -/
inductive InitProcName where
  | null | clientInitMsg | ncfClientInitMsg
  deriving DecidableEq, Repr

variable {α κ : Type} [DecidableEq α]

/-- The `initProc` of a broadcaster. -/
def appInitProc (order : Nv.HashOrder) : InitProcName → Option (InitProc (AppData α κ))
  | .null => none
  | .clientInitMsg => some ((Nv.clientInitProc order).lift AppData.server
      (fun d server => { d with server := server }) fun _ _ => rfl)
  | .ncfClientInitMsg => some (Flush.ncfClientInitProc.lift AppData.flushOnInit
      (fun d flushOnInit => { d with flushOnInit := flushOnInit }) fun _ _ => rfl)

/-- A broadcaster with one of these. -/
def Config.withProc (cfg : Config (AppData α κ)) (order : Nv.HashOrder) (which : InitProcName) :
    Config (AppData α κ) :=
  { cfg with initProc := appInitProc order which }

/-- Messages are delivered and kept right: pending messages are not replaced, every message taken
from the queue was handed, in order and once, to the clients past the connect state at that moment,
and the references to messages are exactly those of their holders. -/
structure Lifetime {σ : Type} (cfg : Config σ) (s : State σ) : Prop where
  unreplaced : ∀ c ∈ s.clients, c.replaced = false
  handed : ∀ c ∈ s.clients, c.handed = c.due
  ordered : ∀ c ∈ s.clients, c.due.Sublist s.taken
  fifo : s.queued = s.taken ++ s.queue ++ s.dropped
  once : s.queued.Nodup
  counted : s.heap.Counted (s.holders cfg)

/-- A step does not leak a message: no login is completed with `NcfClientInitMsg` while
`flushOnInit` is set, and the thread does not return. -/
def NoLeak (which : InitProcName) (s : State (AppData α κ)) (e : Event (AppData α κ)) : Prop :=
  match e, s.pc with
  | .client revents res _, .poll _ (c :: _) _ =>
      LoginSent c revents res → which = .ncfClientInitMsg → s.data.flushOnInit = false
  | .ret, _ => False
  | _, _ => True

instance (c : Client) (revents : Revents) (res : SendResult) :
    Decidable (LoginSent c revents res) :=
  inferInstanceAs (Decidable (_ ∧ _ ∧ _ ∧ _ ∧ _))

/-- `NoLeak` can be checked of a step. -/
instance decidableNoLeak (which : InitProcName) (s : State (AppData α κ))
    (e : Event (AppData α κ)) : Decidable (NoLeak which s e) := by
  unfold NoLeak
  split <;> infer_instance

/-- The `initProc`s of the program keep the messages they return, but for `NcfClientInitMsg`. -/
theorem keepsAll_of_noLeak {cfg : Config (AppData α κ)} {order : Nv.HashOrder}
    {which : InitProcName} {s : State (AppData α κ)} {e : Event (AppData α κ)}
    (h : NoLeak which s e) : KeepsAll (cfg.withProc order which) s e := by
  cases e with
  | client revents res clock =>
      cases hpc : s.pc with
      | poll now todo busy =>
          cases todo with
          | nil => simp [KeepsAll, hpc]
          | cons c todo =>
              simp only [NoLeak, hpc] at h
              simp only [KeepsAll, hpc]
              intro hsent p hp
              cases which with
              | null => simp [Config.withProc, appInitProc] at hp
              | clientInitMsg =>
                  obtain rfl := Option.some.inj hp
                  trivial
              | ncfClientInitMsg =>
                  obtain rfl := Option.some.inj hp
                  exact h hsent rfl
      | top => simp [KeepsAll, hpc]
      | closed => simp [KeepsAll, hpc]
      | returned => simp [KeepsAll, hpc]
  | ret => exact h.elim
  | round | next | msg | stop | data => cases s.pc <;> trivial

/-- A run without leaks: the references of holders are all there are. -/
structure Tidy {σ : Type} (cfg : Config σ) (s : State σ) : Prop where
  inv : Inv cfg 0 s
  fifo : Fifo s
  served : ∀ c ∈ s.clients, Served s.taken c

/-- **One event that leaks nothing.** -/
theorem Tidy.step {σ : Type} {cfg : Config σ} {s s' : State σ} {e : Event σ} (h : Tidy cfg s)
    (hkeeps : KeepsAll cfg s e) (hstep : step cfg s e = some s') : Tidy cfg s' := by
  obtain ⟨L, hinv, hL⟩ := h.inv.step hstep
  rw [hL hkeeps, zero_add] at hinv
  refine ⟨hinv, h.fifo.step h.inv hstep, fun c' hc' => ?_⟩
  obtain ⟨c, hc, hmove⟩ := step_clients h.inv hstep c' hc'
  exact (h.served c hc).move hmove hstep (step_taken h.inv hstep)

/-- A broadcaster starts tidy. -/
theorem tidy_start {σ : Type} (cfg : Config σ) (clients : Nat) (d : σ) (hd : cfg.holds d = 0) :
    Tidy cfg (start cfg clients d) := by
  refine ⟨inv_start cfg clients d hd, ⟨rfl, Or.inl rfl, by simp [start], by simp [start]⟩,
    fun c hc => ?_⟩
  have hc' : c ∈ List.replicate clients { timeout := cfg.timeoutInterval : Client } := by
    simpa [State.clients, start, Pc.todo] using hc
  obtain ⟨-, rfl⟩ := List.mem_replicate.mp hc'
  exact ⟨rfl, List.nil_sublist _, rfl⟩

theorem Tidy.lifetime {σ : Type} {cfg : Config σ} {s : State σ} (h : Tidy cfg s) :
    Lifetime cfg s where
  unreplaced c hc := (h.served c hc).replaced
  handed c hc := (h.served c hc).handed
  ordered c hc := (h.served c hc).ordered
  fifo := h.fifo.order
  once := h.fifo.nodup
  counted := by simpa using h.inv.counted

/-- **Delivery and lifetime.** In every run of a broadcaster with any of the program's `initProc`s
in which no step leaks a message, messages are delivered in order, once, to the clients due them,
and each is allocated exactly while it has a holder. -/
theorem broadcast_lifetime (cfg : Config (AppData α κ)) (order : Nv.HashOrder)
    (which : InitProcName) (clients : Nat) (d : AppData α κ) (hd : d.server.init = none)
    (es : List (Event (AppData α κ))) (s : State (AppData α κ))
    (hok : Along (step (cfg.withProc order which)) (NoLeak which)
      (start (cfg.withProc order which) clients d) es)
    (hrun : run (step (cfg.withProc order which)) (start (cfg.withProc order which) clients d) es =
      some s) : Lifetime (cfg.withProc order which) s := by
  have hholds : (cfg.withProc order which).holds d = 0 := by
    cases which with
    | null => rfl
    | clientInitMsg =>
        show Nv.Server.holds d.server = 0
        rw [Nv.Server.holds, hd]
        rfl
    | ncfClientInitMsg => rfl
  exact (run_invariant (fun s e s' h hno hstep => h.step (keepsAll_of_noLeak hno) hstep)
    (tidy_start _ clients d hholds) hok hrun).lifetime

/-- Entries visited in the order in which they are kept. -/
def keptOrder : Nv.HashOrder := ⟨fun es => es, fun _ => List.Perm.refl _⟩

/-- A broadcaster `ncf`, without a time-out. -/
def ncfConfig : Config (AppData Unit Unit) :=
  { name := [110, 99, 102], name_lt := by decide, timeoutInterval := -1, stimeoutInterval := -1
    retryInterval := 2, initProc := none }

/-- The data of a process that serves no arrays. -/
def ncfData (flushOnInit : Bool) : AppData Unit Unit :=
  { server := { arrays := fun _ => {}, served := [], init := none, small := by decide }
    flushOnInit := flushOnInit }

/-- A client connects and logs in, a message is queued and sent to it. -/
def loginAndSend : List (Event (AppData Unit Unit)) :=
  [.round 0 [true], .client { pollout := true } (.sent 0) 0, .next [],
    .round 1 [], .client { pollout := true } (.sent 8) 1, .msg ⟨[120], by decide⟩, .next [1],
    .round 2 [], .client { pollout := true } (.sent 5) 2, .next []]

/-- With `flushOnInit` clear the login and the message leave nothing behind. -/
theorem broadcast_lifetime_loginAndSend :
    ∃ s, run (step (ncfConfig.withProc keptOrder .ncfClientInitMsg))
        (start (ncfConfig.withProc keptOrder .ncfClientInitMsg) 1 (ncfData false)) loginAndSend =
          some s ∧
      Lifetime (ncfConfig.withProc keptOrder .ncfClientInitMsg) s := by
  obtain ⟨s, hs⟩ := Option.isSome_iff_exists.mp
    (show (run (step (ncfConfig.withProc keptOrder .ncfClientInitMsg))
      (start (ncfConfig.withProc keptOrder .ncfClientInitMsg) 1 (ncfData false))
        loginAndSend).isSome by decide)
  exact ⟨s, hs, broadcast_lifetime ncfConfig keptOrder .ncfClientInitMsg 1 (ncfData false) rfl
    loginAndSend s (by decide) hs⟩

/-- A client connects and logs in and is sent its init message. -/
def loginAndInit : List (Event (AppData Unit Unit)) :=
  [.round 0 [true], .client { pollout := true } (.sent 0) 0, .next [],
    .round 1 [], .client { pollout := true } (.sent 8) 1, .next [],
    .round 2 [], .client { pollout := true } (.sent 9) 2, .next []]

/-- With `flushOnInit` set the init message has been sent and has no holder, but is still
allocated, with a count of 1. -/
theorem broadcast_init_leaks :
    (run (step (ncfConfig.withProc keptOrder .ncfClientInitMsg))
        (start (ncfConfig.withProc keptOrder .ncfClientInitMsg) 1 (ncfData true)) loginAndInit).map
        (fun s => (s.heap.val 1, s.heap.refcnt 1, s.clients.map Client.msgPtr, s.queue,
          (s.holders (ncfConfig.withProc keptOrder .ncfClientInitMsg)).count 1)) =
      some (some Flush.allCacheMsg, 1, [none], [], 0) ∧
    ¬ ∀ s ∈ run (step (ncfConfig.withProc keptOrder .ncfClientInitMsg))
        (start (ncfConfig.withProc keptOrder .ncfClientInitMsg) 1 (ncfData true)) loginAndInit,
      Lifetime (ncfConfig.withProc keptOrder .ncfClientInitMsg) s := by
  have hend : (run (step (ncfConfig.withProc keptOrder .ncfClientInitMsg))
      (start (ncfConfig.withProc keptOrder .ncfClientInitMsg) 1 (ncfData true)) loginAndInit).map
        (fun s => (s.heap.val 1, s.heap.refcnt 1, s.clients.map Client.msgPtr, s.queue,
          (s.holders (ncfConfig.withProc keptOrder .ncfClientInitMsg)).count 1)) =
      some (some Flush.allCacheMsg, 1, [none], [], 0) := by
    decide
  refine ⟨hend, fun hall => ?_⟩
  obtain ⟨s, hs, heq⟩ := Option.map_eq_some_iff.mp hend
  have hcount := (hall s hs).counted.count 1
  simp only [Prod.mk.injEq] at heq
  obtain ⟨-, hone, -, -, hzero⟩ := heq
  rw [hone, hzero] at hcount
  exact absurd hcount (by decide)

end Nsdci.Broadcast
