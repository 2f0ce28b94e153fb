import Nsdci.Broadcast.Invariant

/-!
# What an event can do to a client

`Move` lists the changes one event can make to one client, and `step_clients` says that every
client after an event comes from one before it by such a change. What every change keeps of a
single client then holds in every run.
-/

namespace Nsdci.Broadcast

open Lib

variable {σ : Type} {cfg : Config σ} {s s' : State σ} {leaked : Multiset Nat}

/-- The client whose message is timed out by this event, if there is one. -/
def timedOutClient (s : State σ) (e : Event σ) : Option Client :=
  match e, s.pc with
  | .client revents _ _, .poll now (c :: _) _ =>
      if c.state ≠ .connect ∧ revents.pollin = false ∧ revents.pollout = false ∧
          c.msgPtr.isSome ∧ timedOut c now then some c
      else none
  | _, _ => none

/-- A client that was given a message to send. -/
def Client.give (kind : Kind) (id : Nat) (m : Msg) (clock : Int) (c : Client) : Client :=
  { c with
    msgPtr := some id
    bufPtr := m.wire
    qtime := clock
    sock := c.sock.map fun k => { k with handed := k.handed ++ [(kind, m.data)] }
    replaced := c.replaced || c.msgPtr.isSome
    handed := if kind = .queue then c.handed ++ [id] else c.handed }

/-- A client that has sent `n` more bytes. -/
def Client.sent (n : Nat) (c : Client) : Client :=
  { c with
    bufPtr := c.bufPtr.drop n
    sock := c.sock.map fun k => { k with wire := k.wire ++ c.bufPtr.take n } }

/-- A client that has sent all of its message. -/
def Client.done (cfg : Config σ) (c : Client) : Client :=
  { c.sent c.bufPtr.length with timeout := cfg.timeoutInterval, msgPtr := none, bufPtr := [] }

/-- A client put on the retry list. -/
def Client.retried (c : Client) : Client :=
  { c with
    sock := none
    closed := c.sock.toList ++ c.closed
    msgPtr := none
    bufPtr := if c.msgPtr = none then c.bufPtr else [] }

theorem msgSend_client {kind : Kind} {id : Nat} {h : Heap Msg} {m : Msg} (hval : h.val id = some m)
    (clock : Int) (c : Client) : (msgSend kind id clock c h).1 = c.give kind id m clock := by
  simp [msgSend, Client.give, hval]

theorem retryClient_client (c : Client) (h : Heap Msg) : (retryClient c h).1 = c.retried := by
  cases hmsg : c.msgPtr <;> simp [retryClient, Client.retried, hmsg, msgDone]

/-- The change of one client by one event. -/
inductive Move (cfg : Config σ) (s : State σ) (e : Event σ) : Client → Client → Prop
  | same (c : Client) : Move cfg s e c c
  | connected (c : Client) (hoff : Offline c) (id : Nat) :
      Move cfg s e c { c with sock := some { id := id }, state := .connect }
  | login (c : Client) (hon : Online c) (hstate : c.state = .connect) (clock : Int) :
      Move cfg s e c { c.give .login s.login cfg.login clock with state := .login }
  | progress (c : Client) (hon : Online c) (hstate : c.state ≠ .connect) (hmsg : c.msgPtr.isSome)
      (n : Nat) (hlt : n < c.bufPtr.length) : Move cfg s e c (c.sent n)
  | done (c : Client) (hon : Online c) (hstate : c.state ≠ .connect) (hmsg : c.msgPtr.isSome)
      (hplain : c.state = .login → cfg.initProc = none) : Move cfg s e c (c.done cfg)
  | ready (c : Client) (hon : Online c) (hstate : c.state = .login) (id : Nat)
      (hmsg : c.msgPtr = some id) (p : InitProc σ) (hp : cfg.initProc = some p)
      (hproc : (p.proc s.data (s.heap.decr id)).2.2 = none) :
      Move cfg s e c { c.done cfg with state := .ready }
  | init (c : Client) (hon : Online c) (hstate : c.state = .login) (id : Nat)
      (hmsg : c.msgPtr = some id) (p : InitProc σ) (hp : cfg.initProc = some p) (id' : Nat)
      (hproc : (p.proc s.data (s.heap.decr id)).2.2 = some id') (m : Msg)
      (hval : (p.proc s.data (s.heap.decr id)).2.1.val id' = some m) (clock : Int) :
      Move cfg s e c { (c.done cfg).give .init id' m clock with state := .ready }
  | timeout (c : Client) (hon : Online c) (hmsg : c.msgPtr.isSome)
      (htime : c ∈ timedOutClient s e) :
      Move cfg s e c { c with
        msgPtr := none, bufPtr := [], timeout := cfg.stimeoutInterval, state := .connect }
  | retried (c : Client) (hon : Online c) : Move cfg s e c c.retried
  | handed (c : Client) (hon : Online c) (hstate : c.state ≠ .connect) (hfree : c.msgPtr = none)
      (id : Nat) (hid : s.queue.head? = some id) (m : Msg) (hval : s.heap.val id = some m)
      (htaken : ∀ s', step cfg s e = some s' → s'.taken = s.taken ++ [id]) (clock : Int) :
      Move cfg s e c ((noteDue id c).give .queue id m clock)

variable {e : Event σ}

/-- The lists after a reconnect. -/
theorem reconnect_clients (cs : List Client) (oks : List Bool) (s : State σ)
    (hcs : ∀ c ∈ cs, Offline c) :
    ∀ c' ∈ (reconnect cs oks s).firstActivePtr ++ (reconnect cs oks s).firstRetryPtr,
      (∃ c ∈ cs, Offline c ∧ (c' = c ∨
        ∃ id, c' = { c with sock := some { id := id }, state := .connect })) ∨
      c' ∈ s.firstActivePtr ++ s.firstRetryPtr := by
  induction cs generalizing oks s with
  | nil => exact fun c' hc' => Or.inr hc'
  | cons c cs ih =>
      have hc := hcs c (by simp)
      have hrest : ∀ d ∈ cs, Offline d := fun d hd => hcs d (by simp [hd])
      intro c' hc'
      simp only [reconnect] at hc'
      split_ifs at hc' with hok
      · rcases ih _ _ hrest c' hc' with ⟨d, hd, hfrom⟩ | hmem
        · exact Or.inl ⟨d, List.mem_cons_of_mem c hd, hfrom⟩
        · rcases List.mem_append.mp hmem with hact | hret
          · rcases List.mem_cons.mp hact with rfl | hact
            · exact Or.inl ⟨c, by simp, hc, Or.inr ⟨_, rfl⟩⟩
            · exact Or.inr (List.mem_append_left _ hact)
          · exact Or.inr (List.mem_append_right _ hret)
      · rcases ih _ _ hrest c' hc' with ⟨d, hd, hfrom⟩ | hmem
        · exact Or.inl ⟨d, List.mem_cons_of_mem c hd, hfrom⟩
        · rcases List.mem_append.mp hmem with hact | hret
          · exact Or.inr (List.mem_append_left _ hact)
          · rcases List.mem_cons.mp hret with rfl | hret
            · exact Or.inl ⟨c', by simp, hc, Or.inl rfl⟩
            · exact Or.inr (List.mem_append_right _ hret)

/-- The clients after a message was handed out. -/
theorem handOut_clients (id : Nat) (clocks : List Int) (cs : List Client) (h : Heap Msg) :
    ∀ c' ∈ (handOut id clocks cs h).1, ∃ c ∈ cs, (c.state = .connect ∧ c' = c) ∨
      (c.state ≠ .connect ∧ ∃ clock h', (∀ i, h'.val i = h.val i) ∧
        c' = (msgSend .queue id clock c h').1) := by
  induction cs generalizing clocks h with
  | nil => simp [handOut]
  | cons c cs ih =>
      intro c' hc'
      simp only [handOut] at hc'
      split_ifs at hc' with hstate
      · rcases List.mem_cons.mp hc' with rfl | hc'
        · exact ⟨c, by simp, Or.inr ⟨hstate, _, h, fun _ => rfl, rfl⟩⟩
        · obtain ⟨d, hd, hfrom⟩ := ih _ _ c' hc'
          refine ⟨d, List.mem_cons_of_mem c hd, ?_⟩
          rcases hfrom with hsame | ⟨hne, clock, h', hval, heq⟩
          · exact Or.inl hsame
          · refine Or.inr ⟨hne, clock, h', fun i => ?_, heq⟩
            rw [hval i]
            simp [msgSend]
      · rcases List.mem_cons.mp hc' with rfl | hc'
        · exact ⟨c', by simp, Or.inl ⟨by simpa using hstate, rfl⟩⟩
        · obtain ⟨d, hd, hfrom⟩ := ih _ _ c' hc'
          exact ⟨d, List.mem_cons_of_mem c hd, hfrom⟩

/-- The clients after all of a list were put on the retry list. -/
theorem retryAll_clients (cs : List Client) (h : Heap Msg) (retry : List Client) :
    ∀ c' ∈ (retryAll cs h retry).1, c' ∈ retry ∨ ∃ c ∈ cs, ∃ h', c' = (retryClient c h').1 := by
  induction cs generalizing h retry with
  | nil => exact fun c' hc' => Or.inl hc'
  | cons c cs ih =>
      intro c' hc'
      rcases ih _ _ c' hc' with hmem | ⟨d, hd, hfrom⟩
      · rcases List.mem_cons.mp hmem with rfl | hmem
        · exact Or.inr ⟨c, by simp, h, rfl⟩
        · exact Or.inl hmem
      · exact Or.inr ⟨d, List.mem_cons_of_mem c hd, hfrom⟩

/-- What is still counted when a client has given its reference back. -/
theorem Inv.exists_counted_decr {c : Client} (hinv : Inv cfg leaked s) (hmem : c ∈ s.clients)
    {id : Nat} (hmsg : c.msgPtr = some id) :
    ∃ H, (s.heap.decr id).Counted (cfg.holds s.data + H) := by
  have hid : id ∈ clientRefs s.clients := by
    simp only [clientRefs, Multiset.mem_coe, List.mem_flatMap]
    exact ⟨c, hmem, by simp [hmsg]⟩
  obtain ⟨R, hR⟩ := Multiset.exists_cons_of_mem hid
  have hcounted := hinv.counted
  have hholders : s.holders cfg + leaked =
      id ::ₘ (cfg.holds s.data + (s.creator + (↑s.queue + R) + leaked)) := by
    rw [State.holders, hR, ← Multiset.singleton_add, ← Multiset.singleton_add]
    abel
  rw [hholders] at hcounted
  exact ⟨_, hcounted.decr⟩

/-- The client that has sent some bytes. -/
theorem bytesSent_move {c : Client} (hinv : Inv cfg leaked s) (hmem : c ∈ s.clients)
    (hon : Online c) (hstate : c.state ≠ .connect) {id n : Nat} (hmsg : c.msgPtr = some id)
    (hle : n ≤ c.bufPtr.length) (clock : Int) :
    Move cfg s e c (bytesSent cfg s c id n clock).client ∧
      (bytesSent cfg s c id n clock).ok = true := by
  have hsome : c.msgPtr.isSome := by simp [hmsg]
  by_cases hend : c.bufPtr.drop n = []
  · obtain rfl : n = c.bufPtr.length := Nat.le_antisymm hle (List.drop_eq_nil_iff.mp hend)
    have hdone (h : Heap Msg) : (msgDone id { c.sent c.bufPtr.length with
        timeout := cfg.timeoutInterval } h).1 = c.done cfg := rfl
    by_cases hplain : c.state = .login → cfg.initProc = none
    · have hbytes : bytesSent cfg s c id c.bufPtr.length clock =
          { client := c.done cfg, ok := true, heap := s.heap.decr id, data := s.data } := by
        simp only [bytesSent, hend, if_true]
        split
        · rename_i p hlogin hp
          simp [hplain hlogin] at hp
        · simp [msgDone, Client.done, Client.sent]
      rw [hbytes]
      exact ⟨.done c hon hstate hsome hplain, rfl⟩
    · obtain ⟨hlogin, hinit⟩ := Classical.not_imp.mp hplain
      obtain ⟨p, hp⟩ := Option.ne_none_iff_exists'.mp hinit
      have hbytes : bytesSent cfg s c id c.bufPtr.length clock =
          loginDone p (c.done cfg) (s.heap.decr id) s.data clock := by
        simp [bytesSent, hend, hlogin, hp, msgDone, Client.done, Client.sent]
      rw [hbytes]
      obtain ⟨H, hcounted⟩ := hinv.exists_counted_decr hmem hmsg
      rw [show cfg.holds s.data = p.holds s.data by simp [Config.holds, hp]] at hcounted
      obtain ⟨L, hcounted', hheld, -⟩ := p.sound _ _ _ hcounted
      refine ⟨?_, rfl⟩
      cases hproc : (p.proc s.data (s.heap.decr id)).2.2 with
      | none =>
          simp only [loginDone, hproc]
          exact .ready c hon hlogin id hmsg p hp hproc
      | some id' =>
          have hheld' : id' ∈ p.holds (p.proc s.data (s.heap.decr id)).1 + (L + H) := by
            rw [← add_assoc]
            exact Multiset.mem_add.mpr (Or.inl (hheld id' (by simp [hproc])))
          obtain ⟨m, hm⟩ := hcounted'.val_of_mem hheld'
          simp only [loginDone, hproc, msgSend_client hm]
          exact .init c hon hlogin id hmsg p hp id' hproc m hm clock
  · have hlt : n < c.bufPtr.length := by
      rw [List.drop_eq_nil_iff] at hend
      omega
    have hbytes : bytesSent cfg s c id n clock =
        { client := c.sent n, ok := true, heap := s.heap, data := s.data } := by
      simp [bytesSent, hend, Client.sent]
    rw [hbytes]
    exact ⟨.progress c hon hstate hsome n hlt, rfl⟩

/-- The client a service leaves. -/
theorem ServiceCase.move {now : Int} {todo : List Client} {busy : Bool} {c : Client}
    {revents : Revents} {res : SendResult} {clock : Int} {r : Serviced σ}
    (hinv : Inv cfg leaked s) (hpc : s.pc = .poll now (c :: todo) busy)
    (hr : ServiceCase cfg s now c revents res clock r) :
    Move cfg s (.client revents res clock) c r.client ∧ (r.ok = false → r.client = c) := by
  have hon : Online c := hinv.todo c (by simp [hpc, Pc.todo])
  have hmem : c ∈ s.clients := by simp [State.clients, hpc, Pc.todo]
  cases hr with
  | keep => exact ⟨.same c, fun _ => rfl⟩
  | drop => exact ⟨.same c, fun _ => rfl⟩
  | connected hstate =>
      rw [msgSend_client hinv.login]
      exact ⟨.login c hon hstate clock, by simp⟩
  | sent id n hstate hin hmsg hout hres hpos hle =>
      obtain ⟨hmove, hok⟩ := bytesSent_move (e := .client revents res clock) hinv hmem hon hstate
        hmsg hle clock
      exact ⟨hmove, fun hfalse => by simp [hok] at hfalse⟩
  | timeout id hstate hin hmsg hout htime =>
      exact ⟨.timeout c hon (by simp [hmsg])
        (by simp [timedOutClient, hpc, hstate, hin, hout, hmsg, htime]), by simp⟩

/-- **Every client after an event comes from one before it by a move.** -/
theorem step_clients (hinv : Inv cfg leaked s) (hstep : step cfg s e = some s') :
    ∀ c' ∈ s'.clients, ∃ c ∈ s.clients, Move cfg s e c c' := by
  have hsame : s'.clients = s.clients → ∀ c' ∈ s'.clients, ∃ c ∈ s.clients, Move cfg s e c c' :=
    fun heq c' hc' => ⟨c', heq ▸ hc', .same c'⟩
  cases step_cases hstep with
  | round hpc now conns =>
      have hclients : s.clients = s.firstActivePtr ++ s.firstRetryPtr ++ s.freed := by
        simp [State.clients, hpc, Pc.todo]
      intro c' hc'
      rw [hclients]
      have hrest := (retryRound_spec cfg s now conns hinv.retry).1
      have hc'' : c' ∈ (retryRound cfg s now conns).firstActivePtr ++
          (retryRound cfg s now conns).firstRetryPtr ∨ c' ∈ s.freed := by
        simpa [State.clients, startRound, Pc.todo, hrest.freed, or_assoc] using hc'
      rcases hc'' with hmem | hfreed
      · unfold retryRound at hmem
        split_ifs at hmem
        · rcases reconnect_clients _ _ _ hinv.retry c' hmem with ⟨c, hc, hoff, hfrom⟩ | hmem
          · refine ⟨c, by simp [hc], ?_⟩
            rcases hfrom with rfl | ⟨id, rfl⟩
            · exact .same _
            · exact .connected c hoff id
          · have hact : c' ∈ s.firstActivePtr := by simpa using hmem
            exact ⟨c', by simp [hact], .same c'⟩
        · exact ⟨c', List.mem_append_left _ hmem, .same c'⟩
      · exact ⟨c', by simp [hfreed], .same c'⟩
  | @client now c todo busy hpc revents res clock r hr =>
      obtain ⟨hmove, hdrop⟩ := (service_cases hr).move hinv hpc
      have hclients : s.clients =
          c :: todo ++ s.firstActivePtr ++ s.firstRetryPtr ++ s.freed := by
        simp [State.clients, hpc, Pc.todo]
      rw [hclients]
      intro c' hc'
      cases hok : r.ok with
      | true =>
          have hc'' : c' = r.client ∨ c' ∈ todo ++ s.firstActivePtr ++ s.firstRetryPtr ++
              s.freed := by
            simp only [putBack, hok, if_true, State.clients, Pc.todo, List.mem_append,
              List.mem_cons] at hc' ⊢
            tauto
          rcases hc'' with rfl | hmem
          · exact ⟨c, by simp, hmove⟩
          · exact ⟨c', by simp at hmem ⊢; tauto, .same c'⟩
      | false =>
          have hc'' : c' = (retryClient r.client r.heap).1 ∨ c' ∈ todo ++
              s.firstActivePtr ++ s.firstRetryPtr ++ s.freed := by
            simp only [putBack, hok, Bool.false_eq_true, if_false, State.clients, Pc.todo,
              List.mem_append, List.mem_cons] at hc' ⊢
            tauto
          rcases hc'' with rfl | hmem
          · rw [hdrop hok, retryClient_client]
            exact ⟨c, by simp, .retried c (hinv.todo c (by simp [hpc, Pc.todo]))⟩
          · exact ⟨c', by simp at hmem ⊢; tauto, .same c'⟩
  | busy hpc clocks => exact hsame (by simp [State.clients, hpc, Pc.todo])
  | shutdown hpc hstop clocks =>
      -- The active clients go to the retry list, and all are freed.
      have hclients : s.clients = s.firstActivePtr ++ s.firstRetryPtr ++ s.freed := by
        simp [State.clients, hpc, Pc.todo]
      rw [hclients]
      intro c' hc'
      have hc'' : c' ∈ (retryAll s.firstActivePtr (s.queue.foldl Heap.decr s.heap)
          s.firstRetryPtr).1 := by
        simpa [State.clients, shutdown, Pc.todo] using hc'
      rcases retryAll_clients _ _ _ c' hc'' with hret | ⟨c, hc, h', rfl⟩
      · exact ⟨c', by simp [hret], .same c'⟩
      · rw [retryClient_client]
        exact ⟨c, by simp [hc], .retried c (hinv.active c hc)⟩
  | dequeue hpc hstop clocks =>
      have hclients : s.clients = s.firstActivePtr ++ s.firstRetryPtr ++ s.freed := by
        simp [State.clients, hpc, Pc.todo]
      have hidle := hinv.idle _ [] hpc
      cases hqueue : s.queue with
      | nil => exact hsame (by simp [State.clients, dequeue, hqueue, hpc, Pc.todo])
      | cons id queue =>
          rw [hclients]
          intro c' hc'
          have hc'' : c' ∈ (handOut id clocks (s.firstActivePtr.map (noteDue id))
              s.heap).1 ∨ c' ∈ s.firstRetryPtr.map (noteDue id) ∨ c' ∈ s.freed := by
            simpa [State.clients, dequeue, hqueue, Pc.todo] using hc'
          rcases hc'' with hout | hret | hfreed
          · obtain ⟨d, hd, hfrom⟩ := handOut_clients _ _ _ _ c' hout
            obtain ⟨c, hc, rfl⟩ := List.mem_map.mp hd
            refine ⟨c, by simp [hc], ?_⟩
            rcases hfrom with ⟨hstate, rfl⟩ | ⟨hstate, clock, h', hval, rfl⟩
            · rw [noteDue_state] at hstate
              rw [noteDue, if_neg (by simp [hstate])]
              exact .same c
            · rw [noteDue_state] at hstate
              obtain ⟨m, hm⟩ := hinv.counted.val_of_mem
                (show id ∈ s.holders cfg + leaked by simp [State.holders, hqueue])
              rw [msgSend_client ((hval id).trans hm)]
              refine .handed c (hinv.active c hc) hstate (hidle c hc) id
                (by simp [hqueue]) m hm (fun s' hs' => ?_) clock
              simp only [step, hpc, hstop, Bool.false_eq_true, if_false, Option.some.injEq] at hs'
              simp [← hs', dequeue, hqueue]
          · obtain ⟨c, hc, rfl⟩ := List.mem_map.mp hret
            rw [noteDue, if_neg (by simp [(hinv.retry c hc).sock])]
            exact ⟨c, by simp [hc], .same c⟩
          · exact ⟨c', by simp [hfreed], .same c'⟩
  | msg m =>
      refine hsame ?_
      unfold broadcast
      dsimp only
      split_ifs <;> rfl
  | stop => exact hsame rfl
  | data d hd => exact hsame rfl
  | ret hpc => exact hsame (by simp [State.clients, hpc, Pc.todo])

end Nsdci.Broadcast
