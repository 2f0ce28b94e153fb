import Nsdci.Broadcast
import Mathlib.Tactic.Abel
import Mathlib.Algebra.BigOperators.Group.Multiset.Basic
import Mathlib.Algebra.Order.Group.Multiset

/-!
# What holds of every broadcaster

`Inv` is kept by every event: the references the broadcaster holds are counted, clients on the
active list are connected, a client in the connect state sends nothing, and clients on the retry
list hold nothing. The references no holder knows of (`leaked`) are part of the statement, so that
it holds whatever the `initProc` does.
-/

namespace Nsdci.Broadcast

open Lib

variable {σ : Type}

/-! ## What the service of a client can do -/

/-- The ways a client can be serviced. -/
inductive ServiceCase (cfg : Config σ) (s : State σ) (now : Int) (c : Client)
    (revents : Revents) (res : SendResult) (clock : Int) : Serviced σ → Prop
  | keep : ServiceCase cfg s now c revents res clock
      { client := c, ok := true, heap := s.heap, data := s.data }
  | drop : ServiceCase cfg s now c revents res clock
      { client := c, ok := false, heap := s.heap, data := s.data }
  | connected (hstate : c.state = .connect) : ServiceCase cfg s now c revents res clock
      { client := { (msgSend .login s.login clock c s.heap).1 with state := .login }
        ok := true, heap := (msgSend .login s.login clock c s.heap).2, data := s.data }
  | sent (id n : Nat) (hstate : c.state ≠ .connect) (hin : revents.pollin = false)
      (hmsg : c.msgPtr = some id) (hout : revents.pollout) (hres : res = .sent n) (hpos : 0 < n)
      (hle : n ≤ c.bufPtr.length) : ServiceCase cfg s now c revents res clock
      (bytesSent cfg s c id n clock)
  | timeout (id : Nat) (hstate : c.state ≠ .connect) (hin : revents.pollin = false)
      (hmsg : c.msgPtr = some id) (hout : revents.pollout = false) (htime : timedOut c now) :
      ServiceCase cfg s now c revents res clock
      { client := { (msgDone id c s.heap).1 with
          timeout := cfg.stimeoutInterval, state := .connect }
        ok := true, heap := (msgDone id c s.heap).2, data := s.data }

theorem service_cases {cfg : Config σ} {s : State σ} {now : Int} {c : Client} {revents : Revents}
    {res : SendResult} {clock : Int} {r : Serviced σ}
    (h : service cfg s now c revents res clock = some r) :
    ServiceCase cfg s now c revents res clock r := by
  unfold service at h
  by_cases hstate : c.state = .connect
  · simp only [hstate, if_true] at h
    split_ifs at h <;> obtain rfl := Option.some.inj h
    · exact .connected hstate
    · exact .drop
    · exact .keep
  · simp only [hstate, if_false] at h
    by_cases hin : revents.pollin
    · rw [if_pos hin] at h
      obtain rfl := Option.some.inj h
      exact .drop
    · rw [if_neg hin] at h
      cases hmsg : c.msgPtr with
      | none =>
          simp only [hmsg, Option.some.injEq] at h
          subst h
          exact .keep
      | some id =>
          simp only [hmsg] at h
          by_cases hout : revents.pollout
          · rw [if_pos hout] at h
            cases res with
            | failed =>
                obtain rfl := Option.some.inj h
                exact .drop
            | sent n =>
                simp only at h
                split_ifs at h with hn
                obtain rfl := Option.some.inj h
                exact .sent id n hstate (by simpa using hin) hmsg hout rfl (by omega) (by omega)
          · rw [if_neg hout] at h
            split_ifs at h with htime <;> obtain rfl := Option.some.inj h
            · exact .timeout id hstate (by simpa using hin) hmsg (by simpa using hout) htime
            · exact .keep

/-- What an event does, when it can happen. -/
inductive StepCase (cfg : Config σ) (s : State σ) : Event σ → State σ → Prop
  | round (hpc : s.pc = .top) (now : Int) (conns : List Bool) :
      StepCase cfg s (.round now conns) (startRound cfg s now conns)
  | client {now : Int} {c : Client} {todo : List Client} {busy : Bool}
      (hpc : s.pc = .poll now (c :: todo) busy) {revents : Revents} {res : SendResult}
      {clock : Int} {r : Serviced σ} (hr : service cfg s now c revents res clock = some r) :
      StepCase cfg s (.client revents res clock) (putBack s now todo busy r)
  | busy {now : Int} (hpc : s.pc = .poll now [] true) (clocks : List Int) :
      StepCase cfg s (.next clocks) { s with pc := .top }
  | shutdown {now : Int} (hpc : s.pc = .poll now [] false) (hstop : s.shutdownPending = true)
      (clocks : List Int) : StepCase cfg s (.next clocks) (shutdown s)
  | dequeue {now : Int} (hpc : s.pc = .poll now [] false) (hstop : s.shutdownPending = false)
      (clocks : List Int) : StepCase cfg s (.next clocks) (dequeue s clocks)
  | msg (m : Msg) : StepCase cfg s (.msg m) (broadcast s m)
  | stop : StepCase cfg s .stop { s with shutdownPending := true }
  | data (d : σ) (hd : cfg.holds d = cfg.holds s.data) :
      StepCase cfg s (.data d) { s with data := d }
  | ret (hpc : s.pc = .closed) : StepCase cfg s .ret { s with pc := .returned }

theorem step_cases {cfg : Config σ} {s s' : State σ} {e : Event σ}
    (h : step cfg s e = some s') : StepCase cfg s e s' := by
  cases e with
  | round now conns =>
      cases hpc : s.pc <;> simp only [step, hpc, Option.some.injEq, reduceCtorEq] at h
      exact h ▸ .round hpc now conns
  | client revents res clock =>
      cases hpc : s.pc with
      | poll now todo busy =>
          cases todo with
          | nil => simp [step, hpc] at h
          | cons c todo =>
              simp only [step, hpc, Option.map_eq_some_iff] at h
              obtain ⟨r, hr, rfl⟩ := h
              exact .client hpc hr
      | top => simp [step, hpc] at h
      | closed => simp [step, hpc] at h
      | returned => simp [step, hpc] at h
  | next clocks =>
      cases hpc : s.pc with
      | poll now todo busy =>
          cases todo with
          | cons c todo => simp [step, hpc] at h
          | nil =>
              simp only [step, hpc] at h
              split_ifs at h with hbusy hstop <;> obtain rfl := Option.some.inj h
              · exact .busy (hbusy ▸ hpc) clocks
              · exact .shutdown (by simpa [hbusy] using hpc) hstop clocks
              · exact .dequeue (by simpa [hbusy] using hpc) (by simpa using hstop) clocks
      | top => simp [step, hpc] at h
      | closed => simp [step, hpc] at h
      | returned => simp [step, hpc] at h
  | msg m => exact Option.some.inj h ▸ .msg m
  | stop => exact Option.some.inj h ▸ .stop
  | data d =>
      simp only [step] at h
      split_ifs at h with hd
      exact Option.some.inj h ▸ .data d hd
  | ret =>
      cases hpc : s.pc <;> simp only [step, hpc, Option.some.injEq, reduceCtorEq] at h
      exact h ▸ .ret hpc

/-! ## References -/

/-- The reference a client holds to the message it is sending. -/
def Client.refs (c : Client) : Multiset Nat := ↑c.msgPtr.toList

/-- The references a list of clients holds. -/
def clientRefs (cs : List Client) : Multiset Nat := ↑(cs.flatMap fun c => c.msgPtr.toList)

@[simp] theorem clientRefs_nil : clientRefs [] = 0 := rfl

@[simp] theorem clientRefs_cons (c : Client) (cs : List Client) :
    clientRefs (c :: cs) = c.refs + clientRefs cs := by
  simp [clientRefs, Client.refs]

@[simp] theorem clientRefs_append (cs ds : List Client) :
    clientRefs (cs ++ ds) = clientRefs cs + clientRefs ds := by
  simp [clientRefs]

theorem Client.refs_of_some {c : Client} {id : Nat} (h : c.msgPtr = some id) : c.refs = {id} := by
  simp [refs, h]

theorem Client.refs_of_none {c : Client} (h : c.msgPtr = none) : c.refs = 0 := by
  simp [refs, h]

/-- The reference the thread, which has created the login message, holds until it returns. -/
def State.creator (s : State σ) : Multiset Nat :=
  match s.pc with
  | .returned => 0
  | _ => {s.login}

/-- The holders of messages: the creator of the login message, the data of the `initProc`, the
queue, and the clients for the messages they are sending. -/
def State.holders (cfg : Config σ) (s : State σ) : Multiset Nat :=
  s.creator + (cfg.holds s.data + (↑s.queue + clientRefs s.clients))

/-- A client on the active list is connected, and sends nothing while it is in the connect
state. -/
structure Online (c : Client) : Prop where
  sock : c.sock.isSome
  connect : c.state = .connect → c.msgPtr = none

/-- A client on the retry list is not connected and sends nothing. -/
structure Offline (c : Client) : Prop where
  sock : c.sock = none
  msgPtr : c.msgPtr = none

/-- What every event keeps. -/
structure Inv (cfg : Config σ) (leaked : Multiset Nat) (s : State σ) : Prop where
  counted : s.heap.Counted (s.holders cfg + leaked)
  login : s.heap.val s.login = some cfg.login
  loginHeld : s.login ∈ s.holders cfg + leaked
  todo : ∀ c ∈ s.pc.todo, Online c
  active : ∀ c ∈ s.firstActivePtr, Online c
  retry : ∀ c ∈ s.firstRetryPtr, Offline c
  freed : ∀ c ∈ s.freed, Offline c
  idle : ∀ now todo, s.pc = .poll now todo false → ∀ c ∈ s.firstActivePtr, c.msgPtr = none
  gone : (s.pc = .closed ∨ s.pc = .returned) → s.queue = [] ∧ s.shutdownPending = true

/-- The message the `initProc` would return is one its data keep a reference to. -/
def KeepsInit (cfg : Config σ) (d : σ) : Prop := ∀ p, cfg.initProc = some p → p.keeps d

variable {cfg : Config σ} {s s' : State σ} {c : Client} {h : Heap Msg} {H L : Multiset Nat}

/-- What a step on a client must leave: its reference and those of the data counted, and what
others hold unchanged. -/
structure Kept (cfg : Config σ) (s : State σ) (H : Multiset Nat) (r : Serviced σ)
    (L : Multiset Nat) : Prop where
  counted : r.heap.Counted (r.client.refs + (cfg.holds r.data + (L + H)))
  val : ∀ id ∈ H, r.heap.val id = s.heap.val id

/-- This service of a client completes its login. -/
def LoginSent (c : Client) (revents : Revents) (res : SendResult) : Prop :=
  c.state = .login ∧ c.msgPtr.isSome ∧ revents.pollin = false ∧ revents.pollout = true ∧
    res = .sent c.bufPtr.length

theorem msgSend_refs (kind : Kind) (id : Nat) (clock : Int) (c : Client) (h : Heap Msg) :
    (msgSend kind id clock c h).1.refs = {id} := rfl

/-- The service of a login that has been sent. -/
theorem loginDone_kept {p : InitProc σ} (hp : cfg.initProc = some p) (clock : Int)
    (hfree : c.msgPtr = none) (hc : h.Counted (cfg.holds s.data + H))
    (hval : ∀ id ∈ H, h.val id = s.heap.val id) :
    ∃ L, Kept cfg s H (loginDone p c h s.data clock) L ∧ (KeepsInit cfg s.data → L = 0) := by
  have hholds : ∀ d, cfg.holds d = p.holds d := fun d => by simp [Config.holds, hp]
  rw [hholds] at hc
  obtain ⟨L, hcounted, hheld, hkeeps⟩ := p.sound s.data h H hc
  have hstable : ∀ i ∈ H, (p.proc s.data h).2.1.val i = h.val i := fun i hi =>
    (p.later s.data h).val_of_mem hcounted (by simp [hi])
      (hc.lt_next (Multiset.mem_add.mpr (Or.inr hi)))
  refine ⟨L, ?_, fun hall => hkeeps (hall p hp)⟩
  cases hid : (p.proc s.data h).2.2 with
  | none =>
      refine ⟨?_, fun id hmem => ?_⟩
      · simpa [loginDone, hid, Client.refs, hfree, hholds] using hcounted
      · simpa [loginDone, hid] using (hstable id hmem).trans (hval id hmem)
  | some id =>
      have hmem : id ∈ p.holds (p.proc s.data h).1 + (L + H) := by
        rw [← add_assoc]
        exact Multiset.mem_add.mpr (Or.inl (hheld id (by simp [hid])))
      refine ⟨?_, fun i hmem => ?_⟩
      · simpa [loginDone, hid, Client.refs, msgSend, hholds] using hcounted.incr hmem
      · simpa [loginDone, hid, msgSend] using (hstable i hmem).trans (hval i hmem)

/-- The service of a client that has sent some bytes. -/
theorem bytesSent_kept {id n : Nat} (clock : Int) (hmsg : c.msgPtr = some id)
    (hc : s.heap.Counted (c.refs + (cfg.holds s.data + H))) :
    ∃ L, Kept cfg s H (bytesSent cfg s c id n clock) L ∧
      ((c.state = .login → c.bufPtr.drop n = [] → KeepsInit cfg s.data) → L = 0) := by
  have hrefs : c.refs = {id} := Client.refs_of_some hmsg
  by_cases hend : c.bufPtr.drop n = []
  · rw [hrefs, Multiset.singleton_add] at hc
    have hval : ∀ i ∈ H, (s.heap.decr id).val i = s.heap.val i := fun i hi =>
      Heap.val_decr hc (Multiset.mem_add.mpr (Or.inr hi))
    simp only [bytesSent, hend, if_true]
    split
    · rename_i p hlogin hp
      have hdone (c' : Client) := loginDone_kept (c := (msgDone id c' s.heap).1) hp clock rfl
        hc.decr hval
      exact (hdone _).imp fun L hL => ⟨hL.1, fun hall => hL.2 (hall hlogin trivial)⟩
    · exact ⟨0, ⟨by simpa [msgDone, Client.refs] using hc.decr, hval⟩, fun _ => rfl⟩
  · refine ⟨0, ⟨?_, fun _ _ => ?_⟩, fun _ => rfl⟩
    · simpa [bytesSent, hend, Client.refs] using hc
    · simp [bytesSent, hend]

/-- **The service of a client keeps the references counted.** -/
theorem ServiceCase.kept {now : Int} {revents : Revents} {res : SendResult} {clock : Int}
    {r : Serviced σ} (hr : ServiceCase cfg s now c revents res clock r) (hon : Online c)
    (hc : s.heap.Counted (c.refs + (cfg.holds s.data + H))) (hlogin : s.login ∈ H) :
    ∃ L, Kept cfg s H r L ∧ ((LoginSent c revents res → KeepsInit cfg s.data) → L = 0) := by
  cases hr with
  | keep => exact ⟨0, ⟨by simpa using hc, fun _ _ => rfl⟩, fun _ => rfl⟩
  | drop => exact ⟨0, ⟨by simpa using hc, fun _ _ => rfl⟩, fun _ => rfl⟩
  | connected hstate =>
      rw [Client.refs_of_none (hon.connect hstate), zero_add] at hc
      refine ⟨0, ⟨?_, fun _ _ => by simp [msgSend]⟩, fun _ => rfl⟩
      have hheld : s.login ∈ cfg.holds s.data + H := Multiset.mem_add.mpr (Or.inr hlogin)
      simpa [msgSend, Client.refs] using hc.incr hheld
  | sent id n hstate hin hmsg hout hres hpos hle =>
      obtain ⟨L, hkept, hkeeps⟩ := bytesSent_kept (n := n) clock hmsg hc
      refine ⟨L, hkept, fun hall => hkeeps fun hlogin hend => hall ⟨hlogin, by simp [hmsg], hin,
        hout, ?_⟩⟩
      rw [hres, Nat.le_antisymm hle (List.drop_eq_nil_iff.mp hend)]
  | timeout id hstate hin hmsg hout htime =>
      rw [Client.refs_of_some hmsg, Multiset.singleton_add] at hc
      refine ⟨0, ⟨?_, fun i hi => ?_⟩, fun _ => rfl⟩
      · simpa [msgDone, Client.refs] using hc.decr
      · exact Heap.val_decr hc (Multiset.mem_add.mpr (Or.inr hi))

/-- A client put on the retry list gives its reference back. -/
theorem retryClient_counted (hc : h.Counted (c.refs + H)) :
    (retryClient c h).2.Counted H ∧ Offline (retryClient c h).1 ∧
      ∀ id ∈ H, (retryClient c h).2.val id = h.val id := by
  cases hmsg : c.msgPtr with
  | none =>
      rw [Client.refs_of_none hmsg, zero_add] at hc
      exact ⟨by simpa [retryClient, hmsg] using hc, ⟨by simp [retryClient, hmsg],
        by simp [retryClient, hmsg]⟩, by simp [retryClient, hmsg]⟩
  | some id =>
      rw [Client.refs_of_some hmsg, Multiset.singleton_add] at hc
      refine ⟨by simpa [retryClient, hmsg, msgDone] using hc.decr, ⟨by simp [retryClient, hmsg,
        msgDone], by simp [retryClient, hmsg, msgDone]⟩, fun i hi => ?_⟩
      simpa [retryClient, hmsg, msgDone] using Heap.val_decr hc hi

/-- A client that stays on the active list after its service is still online. -/
theorem ServiceCase.online {now : Int} {revents : Revents} {res : SendResult} {clock : Int}
    {r : Serviced σ} (hr : ServiceCase cfg s now c revents res clock r) (hon : Online c) :
    Online r.client := by
  cases hr with
  | keep => exact hon
  | drop => exact hon
  | connected hstate => exact ⟨by simpa [msgSend] using hon.sock, by simp⟩
  | sent id n hstate hin hmsg hout hres hpos hle =>
      by_cases hend : c.bufPtr.drop n = []
      · simp only [bytesSent, hend, if_true]
        split
        · simp only [loginDone]
          split
          · exact ⟨by simpa [msgDone] using hon.sock, by simp⟩
          · exact ⟨by simpa [msgDone, msgSend] using hon.sock, by simp⟩
        · exact ⟨by simpa [msgDone] using hon.sock, by simp [msgDone]⟩
      · exact ⟨by simpa [bytesSent, hend] using hon.sock,
          by simpa [bytesSent, hend] using hon.connect⟩
  | timeout id hstate hin hmsg hout htime =>
      exact ⟨by simpa [msgDone] using hon.sock, by simp [msgDone]⟩

/-! ## The lists of clients -/

theorem clientRefs_of_none {cs : List Client} (hcs : ∀ c ∈ cs, c.msgPtr = none) :
    clientRefs cs = 0 := by
  induction cs with
  | nil => rfl
  | cons c cs ih =>
      rw [clientRefs_cons, Client.refs_of_none (hcs c (by simp)), zero_add]
      exact ih fun d hd => hcs d (by simp [hd])

theorem clientRefs_of_offline {cs : List Client} (hcs : ∀ c ∈ cs, Offline c) :
    clientRefs cs = 0 :=
  clientRefs_of_none fun c hc => (hcs c hc).msgPtr

/-- The holders, when the clients on the retry list and those freed hold nothing. -/
theorem holders_eq (hretry : ∀ c ∈ s.firstRetryPtr, Offline c) (hfreed : ∀ c ∈ s.freed, Offline c) :
    s.holders cfg = s.creator + (cfg.holds s.data +
      (↑s.queue + (clientRefs s.pc.todo + clientRefs s.firstActivePtr))) := by
  simp [State.holders, State.clients, clientRefs_of_offline hretry, clientRefs_of_offline hfreed]

/-- The fields `reconnect` leaves alone. -/
structure SameRest (s s' : State σ) : Prop where
  queue : s'.queue = s.queue
  heap : s'.heap = s.heap
  login : s'.login = s.login
  shutdownPending : s'.shutdownPending = s.shutdownPending
  pc : s'.pc = s.pc
  data : s'.data = s.data
  queued : s'.queued = s.queued
  taken : s'.taken = s.taken
  dropped : s'.dropped = s.dropped
  freed : s'.freed = s.freed

/-- Reconnected clients are online and send nothing, the others wait to be retried. -/
theorem reconnect_spec (cs : List Client) (oks : List Bool) (s : State σ)
    (hcs : ∀ c ∈ cs, Offline c) (hretry : ∀ c ∈ s.firstRetryPtr, Offline c) :
    let s' := reconnect cs oks s
    SameRest s s' ∧ clientRefs s'.firstActivePtr = clientRefs s.firstActivePtr ∧
      (∀ c ∈ s'.firstRetryPtr, Offline c) ∧
      ((∀ c ∈ s.firstActivePtr, Online c) → ∀ c ∈ s'.firstActivePtr, Online c) := by
  induction cs generalizing s oks with
  | nil => exact ⟨⟨rfl, rfl, rfl, rfl, rfl, rfl, rfl, rfl, rfl, rfl⟩, rfl, hretry, fun h => h⟩
  | cons c cs ih =>
      have hc := hcs c (by simp)
      have hrest : ∀ d ∈ cs, Offline d := fun d hd => hcs d (by simp [hd])
      simp only [reconnect]
      split_ifs with hok
      · obtain ⟨⟨h₁, h₂, h₃, h₄, h₅, h₆, h₇, h₈, h₉, h₁₀⟩, hrefs, hoff, hon⟩ := ih oks.tail
          { s with
            firstActivePtr :=
              { c with sock := some { id := s.nextConn }, state := .connect } :: s.firstActivePtr
            nextConn := s.nextConn + 1 } hrest hretry
        refine ⟨⟨h₁, h₂, h₃, h₄, h₅, h₆, h₇, h₈, h₉, h₁₀⟩, ?_, hoff, fun hact => hon ?_⟩
        · rw [hrefs]
          simp [Client.refs, hc.msgPtr]
        · simpa using ⟨⟨by simp, fun _ => hc.msgPtr⟩, hact⟩
      · obtain ⟨⟨h₁, h₂, h₃, h₄, h₅, h₆, h₇, h₈, h₉, h₁₀⟩, hrefs, hoff, hon⟩ := ih oks.tail
          { s with firstRetryPtr := c :: s.firstRetryPtr } hrest (by simpa using ⟨hc, hretry⟩)
        exact ⟨⟨h₁, h₂, h₃, h₄, h₅, h₆, h₇, h₈, h₉, h₁₀⟩, hrefs, hoff, hon⟩

/-- What the start of a round does with the lists. -/
theorem retryRound_spec (cfg : Config σ) (s : State σ) (now : Int) (conns : List Bool)
    (hretry : ∀ c ∈ s.firstRetryPtr, Offline c) :
    let s' := retryRound cfg s now conns
    SameRest s s' ∧ clientRefs s'.firstActivePtr = clientRefs s.firstActivePtr ∧
      (∀ c ∈ s'.firstRetryPtr, Offline c) ∧
      ((∀ c ∈ s.firstActivePtr, Online c) → ∀ c ∈ s'.firstActivePtr, Online c) := by
  simp only [retryRound]
  split_ifs
  · obtain ⟨⟨h₁, h₂, h₃, h₄, h₅, h₆, h₇, h₈, h₉, h₁₀⟩, hlists⟩ :=
      reconnect_spec s.firstRetryPtr conns
        { s with retry := now + cfg.retryInterval, firstRetryPtr := [] } hretry (by simp)
    exact ⟨⟨h₁, h₂, h₃, h₄, h₅, h₆, h₇, h₈, h₉, h₁₀⟩, hlists⟩
  · exact ⟨⟨rfl, rfl, rfl, rfl, rfl, rfl, rfl, rfl, rfl, rfl⟩, rfl, hretry, fun h => h⟩

/-- A message handed out has a reference for each client it was handed to. -/
theorem handOut_spec (id : Nat) (clocks : List Int) (cs : List Client) (h : Heap Msg)
    (hfree : ∀ c ∈ cs, c.msgPtr = none) (hon : ∀ c ∈ cs, Online c) (hc : h.Counted H)
    (hid : id ∈ H) :
    let out := handOut id clocks cs h
    out.2.Counted (clientRefs out.1 + H) ∧ (∀ c ∈ out.1, Online c) ∧
      ∀ i, out.2.val i = h.val i := by
  induction cs generalizing clocks h H with
  | nil => exact ⟨by simpa [handOut] using hc, by simp [handOut], fun _ => rfl⟩
  | cons c cs ih =>
      have hrest : ∀ d ∈ cs, d.msgPtr = none := fun d hd => hfree d (by simp [hd])
      have honrest : ∀ d ∈ cs, Online d := fun d hd => hon d (by simp [hd])
      have hc₀ := hon c (by simp)
      simp only [handOut]
      split_ifs with hstate
      · obtain ⟨hcounted, honline, hval⟩ := ih clocks.tail
          (msgSend .queue id (clocks.headD 0) c h).2 hrest honrest (hc.incr hid)
          (Multiset.mem_cons_of_mem hid)
        refine ⟨?_, ?_, fun i => by rw [hval i]; simp [msgSend]⟩
        · rw [clientRefs_cons, msgSend_refs, add_assoc, Multiset.singleton_add, ← Multiset.add_cons]
          exact hcounted
        · simp only [List.mem_cons, forall_eq_or_imp]
          exact ⟨⟨by simpa [msgSend] using hc₀.sock, fun hcon => absurd hcon hstate⟩, honline⟩
      · obtain ⟨hcounted, honline, hval⟩ := ih clocks h hrest honrest hc hid
        refine ⟨?_, ?_, hval⟩
        · rw [clientRefs_cons, Client.refs_of_none (hfree c (by simp)), zero_add]
          exact hcounted
        · simp only [List.mem_cons, forall_eq_or_imp]
          exact ⟨hc₀, honline⟩

/-- Closing all clients gives all their references back. -/
theorem retryAll_spec (cs : List Client) (h : Heap Msg) (retry : List Client)
    (hc : h.Counted (clientRefs cs + H)) (hretry : ∀ c ∈ retry, Offline c) :
    let out := retryAll cs h retry
    out.2.Counted H ∧ (∀ c ∈ out.1, Offline c) ∧ ∀ id ∈ H, out.2.val id = h.val id := by
  induction cs generalizing h retry with
  | nil => exact ⟨by simpa [retryAll] using hc, hretry, fun _ _ => rfl⟩
  | cons c cs ih =>
      rw [clientRefs_cons, add_assoc] at hc
      obtain ⟨hcounted, hoff, hval⟩ := retryClient_counted hc
      obtain ⟨hcounted', hoff', hval'⟩ := ih (retryClient c h).2 ((retryClient c h).1 :: retry)
        hcounted (by simpa using ⟨hoff, hretry⟩)
      exact ⟨hcounted', hoff', fun id hid =>
        (hval' id hid).trans (hval id (Multiset.mem_add.mpr (Or.inr hid)))⟩

@[simp] theorem noteDue_msgPtr (id : Nat) (c : Client) : (noteDue id c).msgPtr = c.msgPtr := by
  unfold noteDue
  split_ifs <;> rfl

@[simp] theorem noteDue_sock (id : Nat) (c : Client) : (noteDue id c).sock = c.sock := by
  unfold noteDue
  split_ifs <;> rfl

@[simp] theorem noteDue_state (id : Nat) (c : Client) : (noteDue id c).state = c.state := by
  unfold noteDue
  split_ifs <;> rfl

theorem Online.noteDue (hon : Online c) (id : Nat) : Online (noteDue id c) :=
  ⟨by simpa using hon.sock, by simpa using hon.connect⟩

theorem Offline.noteDue (hoff : Offline c) (id : Nat) : Offline (noteDue id c) :=
  ⟨by simpa using hoff.sock, by simpa using hoff.msgPtr⟩

/-! ## Events -/

/-- The condition on a step under which no reference is leaked: a login is completed only while
the `initProc` would return a message its data keep, and the thread does not return. -/
def KeepsAll (cfg : Config σ) (s : State σ) (e : Event σ) : Prop :=
  match e, s.pc with
  | .client revents res _, .poll _ (c :: _) _ => LoginSent c revents res → KeepsInit cfg s.data
  | .ret, _ => False
  | _, _ => True

variable {leaked : Multiset Nat}

/-- The start of a round. -/
theorem Inv.startRound (hinv : Inv cfg leaked s) (hpc : s.pc = .top) (now : Int)
    (conns : List Bool) : Inv cfg leaked (startRound cfg s now conns) := by
  obtain ⟨hrest, hrefs, hoff, hon⟩ := retryRound_spec cfg s now conns hinv.retry
  have hfreed : ∀ c ∈ (retryRound cfg s now conns).freed, Offline c := hrest.freed ▸ hinv.freed
  have hholders : (Broadcast.startRound cfg s now conns).holders cfg = s.holders cfg := by
    simp [Broadcast.startRound, State.holders, State.creator, State.clients, Pc.todo, hpc, hrefs,
      hrest.login, hrest.data, hrest.queue, clientRefs_of_offline hoff,
      clientRefs_of_offline hfreed, clientRefs_of_offline hinv.retry,
      clientRefs_of_offline hinv.freed]
  have hheap : (Broadcast.startRound cfg s now conns).heap = s.heap := hrest.heap
  have hlogin : (Broadcast.startRound cfg s now conns).login = s.login := hrest.login
  constructor
  · rw [hholders, hheap]
    exact hinv.counted
  · rw [hheap, hlogin]
    exact hinv.login
  · rw [hholders, hlogin]
    exact hinv.loginHeld
  · exact hon hinv.active
  · simp [Broadcast.startRound]
  · exact hoff
  · exact hfreed
  · simp [Broadcast.startRound]
  · simp [Broadcast.startRound]

/-- The service of a client. -/
theorem Inv.client (hinv : Inv cfg leaked s) {now : Int} {todo : List Client} {busy : Bool}
    (hpc : s.pc = .poll now (c :: todo) busy) {revents : Revents} {res : SendResult}
    {clock : Int} {r : Serviced σ} (hr : service cfg s now c revents res clock = some r) :
    ∃ L, Inv cfg (L + leaked) (putBack s now todo busy r) ∧
      ((LoginSent c revents res → KeepsInit cfg s.data) → L = 0) := by
  have hcase := service_cases hr
  have hon : Online c := hinv.todo c (by simp [hpc, Pc.todo])
  have htodo : ∀ d ∈ todo, Online d := fun d hd => hinv.todo d (by simp [hpc, Pc.todo, hd])
  have hcounted := hinv.counted
  have hrefs : s.holders cfg + leaked = c.refs + (cfg.holds s.data + ({s.login} +
      (↑s.queue + (clientRefs todo + (clientRefs s.firstActivePtr + leaked))))) := by
    rw [holders_eq hinv.retry hinv.freed]
    simp only [State.creator, hpc, Pc.todo, clientRefs_cons]
    abel
  rw [hrefs] at hcounted
  obtain ⟨L, hkept, hkeeps⟩ := hcase.kept hon hcounted (by simp)
  have hval : r.heap.val s.login = some cfg.login := by
    rw [hkept.val s.login (by simp), hinv.login]
  refine ⟨L, ?_, hkeeps⟩
  cases hok : r.ok with
  | true =>
      have hholders : (putBack s now todo busy r).holders cfg + (L + leaked) =
          r.client.refs + (cfg.holds r.data + (L + ({s.login} +
            (↑s.queue + (clientRefs todo + (clientRefs s.firstActivePtr + leaked)))))) := by
        simp only [putBack, hok, if_true, State.holders, State.creator, State.clients, Pc.todo,
          clientRefs_append, clientRefs_cons, clientRefs_of_offline hinv.retry,
          clientRefs_of_offline hinv.freed]
        abel
      constructor
      · rw [hholders]
        simpa [putBack, hok] using hkept.counted
      · simpa [putBack, hok] using hval
      · rw [hholders]
        simp [putBack, hok]
      · simpa [putBack, hok, Pc.todo] using htodo
      · simpa [putBack, hok] using ⟨hcase.online hon, hinv.active⟩
      · simpa [putBack, hok] using hinv.retry
      · simpa [putBack, hok] using hinv.freed
      · intro now' todo' hpoll
        simp only [putBack, hok, if_true, Pc.poll.injEq, Bool.or_eq_false_iff] at hpoll ⊢
        obtain ⟨rfl, rfl, rfl, hnone⟩ := hpoll
        simpa using ⟨by simpa using hnone, hinv.idle now (c :: todo) hpc⟩
      · simp [putBack, hok]
  | false =>
      obtain ⟨hretried, hoff, hsame⟩ := retryClient_counted hkept.counted
      have hholders : (putBack s now todo busy r).holders cfg + (L + leaked) =
          cfg.holds r.data + (L + ({s.login} +
            (↑s.queue + (clientRefs todo + (clientRefs s.firstActivePtr + leaked))))) := by
        simp only [putBack, hok, State.holders, State.creator, State.clients, Pc.todo,
          clientRefs_append, clientRefs_cons, clientRefs_of_offline hinv.retry,
          clientRefs_of_offline hinv.freed, Client.refs_of_none hoff.msgPtr, Bool.false_eq_true,
          if_false]
        abel
      constructor
      · rw [hholders]
        simpa [putBack, hok] using hretried
      · simpa [putBack, hok] using (hsame s.login (by simp)).trans hval
      · rw [hholders]
        simp [putBack, hok]
      · simpa [putBack, hok, Pc.todo] using htodo
      · simpa [putBack, hok] using hinv.active
      · simpa [putBack, hok] using ⟨hoff, hinv.retry⟩
      · simpa [putBack, hok] using hinv.freed
      · intro now' todo' hpoll
        simp only [putBack, hok, Bool.false_eq_true, if_false, Pc.poll.injEq] at hpoll ⊢
        obtain ⟨rfl, rfl, rfl⟩ := hpoll
        exact hinv.idle now (c :: todo) hpc
      · simp [putBack, hok]

/-- A message taken off the queue and handed out. -/
theorem Inv.dequeue (hinv : Inv cfg leaked s) {now : Int} (hpc : s.pc = .poll now [] false)
    (clocks : List Int) : Inv cfg leaked (dequeue s clocks) := by
  have hcounted := hinv.counted
  have hidle := hinv.idle now [] hpc
  rw [holders_eq hinv.retry hinv.freed, clientRefs_of_none hidle] at hcounted
  simp only [State.creator, hpc, Pc.todo, clientRefs_nil, add_zero] at hcounted
  cases hqueue : s.queue with
  | nil =>
      have hholders : (Broadcast.dequeue s clocks).holders cfg = s.holders cfg := by
        simp [Broadcast.dequeue, hqueue, State.holders, State.creator, State.clients, Pc.todo, hpc]
      constructor
      · rw [hholders]
        simpa [Broadcast.dequeue, hqueue] using hinv.counted
      · simpa [Broadcast.dequeue, hqueue] using hinv.login
      · rw [hholders]
        simpa [Broadcast.dequeue, hqueue] using hinv.loginHeld
      · simp [Broadcast.dequeue, hqueue, Pc.todo]
      · simpa [Broadcast.dequeue, hqueue] using hinv.active
      · simpa [Broadcast.dequeue, hqueue] using hinv.retry
      · simpa [Broadcast.dequeue, hqueue] using hinv.freed
      · simp [Broadcast.dequeue, hqueue]
      · simp [Broadcast.dequeue, hqueue]
  | cons id queue =>
      rw [hqueue] at hcounted
      have hmap : ∀ c ∈ s.firstActivePtr.map (noteDue id), c.msgPtr = none := by
        simpa using hidle
      have honmap : ∀ c ∈ s.firstActivePtr.map (noteDue id), Online c := by
        simpa using fun c hc => (hinv.active c hc).noteDue id
      have hoffmap : ∀ c ∈ s.firstRetryPtr.map (noteDue id), Offline c := by
        simpa using fun c hc => (hinv.retry c hc).noteDue id
      obtain ⟨hout, hon, hval⟩ := handOut_spec id clocks (s.firstActivePtr.map (noteDue id)) s.heap
        hmap honmap hcounted (by simp)
      have hgiven : Heap.Counted ((handOut id clocks (s.firstActivePtr.map (noteDue id)) s.heap).2)
          (id ::ₘ ({s.login} + (cfg.holds s.data + (↑queue + clientRefs
            (handOut id clocks (s.firstActivePtr.map (noteDue id)) s.heap).1)) + leaked)) := by
        convert hout using 1
        rw [← Multiset.cons_coe, ← Multiset.singleton_add, ← Multiset.singleton_add]
        abel
      have hholders : (Broadcast.dequeue s clocks).holders cfg = {s.login} + (cfg.holds s.data +
          (↑queue + clientRefs
            (handOut id clocks (s.firstActivePtr.map (noteDue id)) s.heap).1)) := by
        simp [Broadcast.dequeue, hqueue, State.holders, State.creator, State.clients, Pc.todo,
          clientRefs_of_offline hoffmap, clientRefs_of_offline hinv.freed]
      constructor
      · rw [hholders]
        simpa [Broadcast.dequeue, hqueue] using hgiven.decr
      · have hlogin := Heap.val_decr hgiven (i := s.login) (by simp)
        simpa [Broadcast.dequeue, hqueue, hlogin, hval] using hinv.login
      · rw [hholders]
        simp [Broadcast.dequeue, hqueue]
      · simp [Broadcast.dequeue, hqueue, Pc.todo]
      · simpa [Broadcast.dequeue, hqueue] using hon
      · simpa [Broadcast.dequeue, hqueue] using fun c hc => (hinv.retry c hc).noteDue id
      · simpa [Broadcast.dequeue, hqueue] using hinv.freed
      · simp [Broadcast.dequeue, hqueue]
      · simp [Broadcast.dequeue, hqueue]

/-- What holds after `decr`s of a list of references that are all held. -/
theorem val_decrs {ids : List Nat} (hc : h.Counted (↑ids + H)) :
    ∀ i ∈ H, (ids.foldl Heap.decr h).val i = h.val i := by
  induction ids generalizing h with
  | nil => exact fun _ _ => rfl
  | cons id ids ih =>
      have hcons : h.Counted (id ::ₘ (↑ids + H)) := by
        simpa [← Multiset.cons_coe, Multiset.cons_add] using hc
      intro i hi
      exact (ih hcons.decr i hi).trans (Heap.val_decr hcons (Multiset.mem_add.mpr (Or.inr hi)))

/-- The end of the loop at shutdown. -/
theorem Inv.shutdown (hinv : Inv cfg leaked s) {now : Int} (hpc : s.pc = .poll now [] false)
    (hstop : s.shutdownPending = true) : Inv cfg leaked (shutdown s) := by
  have hcounted : s.heap.Counted (↑s.queue + (clientRefs s.firstActivePtr +
      ({s.login} + (cfg.holds s.data + leaked)))) := by
    have hholders : s.holders cfg + leaked = ↑s.queue + (clientRefs s.firstActivePtr +
        ({s.login} + (cfg.holds s.data + leaked))) := by
      rw [holders_eq hinv.retry hinv.freed]
      simp only [State.creator, hpc, Pc.todo, clientRefs_nil]
      abel
    rw [← hholders]
    exact hinv.counted
  obtain ⟨hclosed, hoff, hval⟩ := retryAll_spec s.firstActivePtr _ s.firstRetryPtr hcounted.decrs
    hinv.retry
  have hholders : (Broadcast.shutdown s).holders cfg + leaked =
      {s.login} + (cfg.holds s.data + leaked) := by
    simp [Broadcast.shutdown, State.holders, State.creator, State.clients, Pc.todo,
      clientRefs_of_offline hoff]
  constructor
  · rw [hholders]
    exact hclosed
  · have hlogin := (hval s.login (by simp)).trans (val_decrs hcounted s.login (by simp))
    exact hlogin.trans hinv.login
  · rw [hholders]
    simp [Broadcast.shutdown]
  · simp [Broadcast.shutdown, Pc.todo]
  · simp [Broadcast.shutdown]
  · simp [Broadcast.shutdown]
  · exact hoff
  · simp [Broadcast.shutdown]
  · simpa [Broadcast.shutdown] using hstop

/-- A message given to `Dci_Broadcast`. -/
theorem Inv.broadcast (hinv : Inv cfg leaked s) (m : Msg) : Inv cfg leaked (broadcast s m) := by
  have halloc := hinv.counted.alloc m
  have hlogin := Heap.val_alloc hinv.counted m hinv.loginHeld
  by_cases hstop : s.shutdownPending
  · have hholders : (Broadcast.broadcast s m).holders cfg = s.holders cfg := by
      simp [Broadcast.broadcast, hstop, State.holders, State.creator, State.clients]
    have hval := Heap.val_decr halloc hinv.loginHeld
    constructor
    · rw [hholders]
      simpa [Broadcast.broadcast, hstop] using halloc.decr
    · simpa [Broadcast.broadcast, hstop, hval, hlogin] using hinv.login
    · rw [hholders]
      simpa [Broadcast.broadcast, hstop] using hinv.loginHeld
    · simpa [Broadcast.broadcast, hstop] using hinv.todo
    · simpa [Broadcast.broadcast, hstop] using hinv.active
    · simpa [Broadcast.broadcast, hstop] using hinv.retry
    · simpa [Broadcast.broadcast, hstop] using hinv.freed
    · simpa [Broadcast.broadcast, hstop] using hinv.idle
    · simpa [Broadcast.broadcast, hstop] using hinv.gone
  · have hholders : (Broadcast.broadcast s m).holders cfg + leaked =
        (s.heap.alloc m).2 ::ₘ (s.holders cfg + leaked) := by
      simp only [Broadcast.broadcast, hstop, State.holders, State.creator, State.clients,
        Bool.false_eq_true, if_false, ← Multiset.coe_add, Multiset.coe_singleton,
        ← Multiset.singleton_add]
      abel
    constructor
    · rw [hholders]
      simpa [Broadcast.broadcast, hstop] using halloc
    · simpa [Broadcast.broadcast, hstop, hlogin] using hinv.login
    · rw [hholders]
      simpa [Broadcast.broadcast, hstop] using Multiset.mem_cons_of_mem hinv.loginHeld
    · simpa [Broadcast.broadcast, hstop] using hinv.todo
    · simpa [Broadcast.broadcast, hstop] using hinv.active
    · simpa [Broadcast.broadcast, hstop] using hinv.retry
    · simpa [Broadcast.broadcast, hstop] using hinv.freed
    · simpa [Broadcast.broadcast, hstop] using hinv.idle
    · intro hgone
      have hpc : s.pc = .closed ∨ s.pc = .returned := by
        simpa [Broadcast.broadcast, hstop] using hgone
      exact absurd (hinv.gone hpc).2 hstop

/-- **Every event keeps the invariant; only an init message that its `initProc` does not keep,
and the return of the thread, leave a reference no holder has.** -/
theorem Inv.step {e : Event σ} (hinv : Inv cfg leaked s) (hstep : step cfg s e = some s') :
    ∃ L, Inv cfg (L + leaked) s' ∧ (KeepsAll cfg s e → L = 0) := by
  have hkept : Inv cfg leaked s' → ∃ L, Inv cfg (L + leaked) s' ∧ (KeepsAll cfg s e → L = 0) :=
    fun h => ⟨0, by simpa using h, fun _ => rfl⟩
  cases step_cases hstep with
  | round hpc now conns => exact hkept (hinv.startRound hpc now conns)
  | client hpc hr =>
      obtain ⟨L, hL, hkeeps⟩ := hinv.client hpc hr
      exact ⟨L, hL, fun hall => hkeeps (by simpa [KeepsAll, hpc] using hall)⟩
  | busy hpc clocks =>
      refine hkept ⟨?_, hinv.login, ?_, by simp [Pc.todo], hinv.active, hinv.retry, hinv.freed,
        by simp, by simp⟩
      · simpa [State.holders, State.creator, State.clients, Pc.todo, hpc] using hinv.counted
      · simp [State.holders, State.creator]
  | shutdown hpc hstop clocks => exact hkept (hinv.shutdown hpc hstop)
  | dequeue hpc hstop clocks => exact hkept (hinv.dequeue hpc clocks)
  | msg m => exact hkept (hinv.broadcast m)
  | stop =>
      exact hkept ⟨hinv.counted, hinv.login, hinv.loginHeld, hinv.todo, hinv.active, hinv.retry,
        hinv.freed, hinv.idle, fun hgone => ⟨(hinv.gone hgone).1, rfl⟩⟩
  | data d hd =>
      have hsame : State.holders cfg { s with data := d } = s.holders cfg := by
        simp [State.holders, State.creator, State.clients, hd]
      exact hkept ⟨hsame ▸ hinv.counted, hinv.login, hsame ▸ hinv.loginHeld, hinv.todo, hinv.active,
        hinv.retry, hinv.freed, hinv.idle, hinv.gone⟩
  | ret hpc =>
      -- The creator of the login message goes without giving its reference back.
      have hsame : State.holders cfg { s with pc := .returned } + ({s.login} + leaked) =
          s.holders cfg + leaked := by
        simp only [State.holders, State.creator, State.clients, Pc.todo, hpc]
        abel
      refine ⟨{s.login}, ⟨?_, hinv.login, ?_, by simp [Pc.todo], hinv.active, hinv.retry,
        hinv.freed, by simp, fun _ => hinv.gone (Or.inl hpc)⟩, fun hall => hall.elim⟩
      · rw [hsame]
        exact hinv.counted
      · rw [hsame]
        exact hinv.loginHeld

/-- A broadcaster starts well. -/
theorem inv_start (cfg : Config σ) (clients : Nat) (d : σ) (hd : cfg.holds d = 0) :
    Inv cfg 0 (start cfg clients d) := by
  have hoff : ∀ c ∈ (start cfg clients d).firstRetryPtr, Offline c := by
    intro c hc
    obtain ⟨-, rfl⟩ := List.mem_replicate.mp hc
    exact ⟨rfl, rfl⟩
  have hholders : (start cfg clients d).holders cfg + 0 = {(start cfg clients d).login} := by
    rw [holders_eq hoff (by simp [start])]
    simp [State.creator, start, Pc.todo, hd]
  constructor
  · rw [hholders]
    exact Heap.counted_empty.alloc cfg.login
  · exact Heap.val_alloc_self _ _
  · rw [hholders]
    simp
  · simp [start, Pc.todo]
  · simp [start]
  · exact hoff
  · simp [start]
  · simp [start]
  · simp [start]

end Nsdci.Broadcast
