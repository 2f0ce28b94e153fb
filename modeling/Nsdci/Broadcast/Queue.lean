import Nsdci.Broadcast.Clients

/-!
# The queue and the clients it is handed to

Messages leave the queue in the order in which `Dci_Broadcast` put them on it, each at most once,
and each is handed to exactly the clients that are past the connect state when it is taken. A
message a client is sending is never replaced by another.
-/

namespace Nsdci.Broadcast

open Lib

variable {σ : Type} {cfg : Config σ} {s s' : State σ} {e : Event σ} {c c' : Client}
  {leaked : Multiset Nat}

/-! ## Later heaps -/

theorem extends_retryClient (c : Client) (h : Heap Msg) : h.Extends (retryClient c h).2 := by
  cases hmsg : c.msgPtr with
  | none => simpa [retryClient, hmsg] using Heap.Extends.refl h
  | some id => simpa [retryClient, hmsg, msgDone] using Heap.extends_decr h id

theorem extends_retryAll (cs : List Client) (h : Heap Msg) (retry : List Client) :
    h.Extends (retryAll cs h retry).2 := by
  induction cs generalizing h retry with
  | nil => exact Heap.Extends.refl h
  | cons c cs ih => exact (extends_retryClient c h).trans (ih _ _)

theorem extends_handOut (id : Nat) (clocks : List Int) (cs : List Client) (h : Heap Msg) :
    h.Extends (handOut id clocks cs h).2 := by
  induction cs generalizing clocks h with
  | nil => exact Heap.Extends.refl h
  | cons c cs ih =>
      simp only [handOut]
      split_ifs
      · exact (Heap.extends_incr h id).trans (ih _ _)
      · exact ih _ _

theorem extends_bytesSent (cfg : Config σ) (s : State σ) (c : Client) (id n : Nat) (clock : Int) :
    s.heap.Extends (bytesSent cfg s c id n clock).heap := by
  simp only [bytesSent]
  split_ifs
  · split
    · rename_i p _ _
      have hproc := (Heap.extends_decr s.heap id).trans (p.later s.data (s.heap.decr id))
      simp only [loginDone, msgDone]
      split
      · exact hproc
      · exact hproc.trans (Heap.extends_incr _ _)
    · exact Heap.extends_decr s.heap id
  · exact Heap.Extends.refl s.heap

theorem ServiceCase.later {now : Int} {revents : Revents} {res : SendResult} {clock : Int}
    {r : Serviced σ} (hr : ServiceCase cfg s now c revents res clock r) :
    s.heap.Extends r.heap := by
  cases hr with
  | keep => exact Heap.Extends.refl s.heap
  | drop => exact Heap.Extends.refl s.heap
  | connected hstate => exact Heap.extends_incr s.heap _
  | sent id n hstate hin hmsg hout hres hpos hle => exact extends_bytesSent cfg s c id n clock
  | timeout id hstate hin hmsg hout htime => exact Heap.extends_decr s.heap id

/-- **Every event leaves a later heap.** -/
theorem step_later (hinv : Inv cfg leaked s) (hstep : step cfg s e = some s') :
    s.heap.Extends s'.heap := by
  cases step_cases hstep with
  | round hpc now conns =>
      have hheap : (startRound cfg s now conns).heap = s.heap :=
        (retryRound_spec cfg s now conns hinv.retry).1.heap
      rw [hheap]
      exact Heap.Extends.refl s.heap
  | client hpc hr =>
      have hlater := (service_cases hr).later
      unfold putBack
      split_ifs
      · exact hlater
      · exact hlater.trans (extends_retryClient _ _)
  | shutdown hpc hstop clocks =>
      exact (Heap.extends_decrs s.queue s.heap).trans (extends_retryAll _ _ _)
  | dequeue hpc hstop clocks =>
      unfold dequeue
      split
      · exact Heap.Extends.refl s.heap
      · exact (extends_handOut _ _ _ _).trans (Heap.extends_decr _ _)
  | msg m =>
      unfold broadcast
      dsimp only
      split_ifs
      · exact (Heap.extends_alloc s.heap m).trans (Heap.extends_decr _ _)
      · exact Heap.extends_alloc s.heap m
  | busy | stop | data | ret => exact Heap.Extends.refl s.heap

/-! ## The queue -/

/-- Messages leave the queue in the order in which they came, and each came once. -/
structure Fifo (s : State σ) : Prop where
  order : s.queued = s.taken ++ s.queue ++ s.dropped
  dropped : s.dropped = [] ∨ s.pc = .closed ∨ s.pc = .returned
  fresh : ∀ id ∈ s.queued, id < s.heap.next
  nodup : s.queued.Nodup

/-- An event that leaves the queue and its records alone. -/
theorem Fifo.of_same (h : Fifo s) (hqueue : s'.queue = s.queue) (hqueued : s'.queued = s.queued)
    (htaken : s'.taken = s.taken) (hdropped : s'.dropped = s.dropped)
    (hpc : s.pc ≠ .closed ∧ s.pc ≠ .returned ∨ s'.pc = .closed ∨ s'.pc = .returned)
    (hnext : s.heap.next ≤ s'.heap.next) : Fifo s' where
  order := by rw [hqueued, htaken, hqueue, hdropped, h.order]
  dropped := by
    rw [hdropped]
    rcases h.dropped with hnil | hclosed | hreturned
    · exact Or.inl hnil
    · rcases hpc with ⟨hne, -⟩ | hpc'
      · exact absurd hclosed hne
      · exact Or.inr hpc'
    · rcases hpc with ⟨-, hne⟩ | hpc'
      · exact absurd hreturned hne
      · exact Or.inr hpc'
  fresh id hid := Nat.lt_of_lt_of_le (h.fresh id (hqueued ▸ hid)) hnext
  nodup := hqueued ▸ h.nodup

/-- **Every event keeps the queue in order.** -/
theorem Fifo.step (h : Fifo s) (hinv : Inv cfg leaked s) (hstep : step cfg s e = some s') :
    Fifo s' := by
  have hnext := (step_later hinv hstep).next
  have hfresh : ∀ id ∈ s.queued, id < s'.heap.next := fun id hid =>
    Nat.lt_of_lt_of_le (h.fresh id hid) hnext
  cases step_cases hstep with
  | round hpc now conns =>
      have hrest := (retryRound_spec cfg s now conns hinv.retry).1
      exact h.of_same hrest.queue hrest.queued hrest.taken hrest.dropped (by simp [hpc]) hnext
  | client hpc hr =>
      unfold putBack at hnext ⊢
      split_ifs at hnext ⊢ <;> exact h.of_same rfl rfl rfl rfl (by simp [hpc]) hnext
  | busy hpc clocks => exact h.of_same rfl rfl rfl rfl (by simp [hpc]) hnext
  | shutdown hpc hstop clocks =>
      have hnil : s.dropped = [] := by simpa [hpc] using h.dropped
      exact ⟨by simpa [shutdown, hnil] using h.order, Or.inr (Or.inl rfl), hfresh, h.nodup⟩
  | dequeue hpc hstop clocks =>
      have hnil : s.dropped = [] := by simpa [hpc] using h.dropped
      have horder : s.queued = s.taken ++ s.queue := by simpa [hnil] using h.order
      cases hqueue : s.queue with
      | nil =>
          rw [dequeue, hqueue]
          exact h.of_same hqueue.symm rfl rfl rfl (by simp [hpc]) le_rfl
      | cons id queue =>
          rw [dequeue, hqueue] at hfresh ⊢
          exact ⟨by simpa [hqueue, hnil] using horder, Or.inl hnil, hfresh, h.nodup⟩
  | msg m =>
      by_cases hstop : s.shutdownPending
      · rw [broadcast, if_pos hstop] at hnext ⊢
        exact h.of_same rfl rfl rfl rfl (by cases hpc : s.pc <;> simp) hnext
      · have hnil : s.dropped = [] := by
          rcases h.dropped with hnil | hpc
          · exact hnil
          · exact absurd (hinv.gone hpc).2 hstop
        rw [broadcast, if_neg hstop] at hfresh ⊢
        refine ⟨?_, Or.inl hnil, ?_, ?_⟩
        · simp [h.order, hnil]
        · intro id hid
          rcases List.mem_append.mp hid with hid | hid
          · exact hfresh id hid
          · obtain rfl : id = s.heap.next := by simpa [Heap.alloc] using hid
            simp [Heap.alloc]
        · refine List.nodup_append.mpr ⟨h.nodup, by simp, fun id hid i hi => ?_⟩
          have hlt := h.fresh id hid
          obtain rfl : i = s.heap.next := by simpa [Heap.alloc] using hi
          omega
  | stop => exact ⟨h.order, h.dropped, h.fresh, h.nodup⟩
  | data d hd => exact ⟨h.order, h.dropped, h.fresh, h.nodup⟩
  | ret hpc => exact h.of_same rfl rfl rfl rfl (Or.inr (Or.inr rfl)) hnext

/-- What was taken stays taken. -/
theorem step_taken (hinv : Inv cfg leaked s) (hstep : step cfg s e = some s') :
    s.taken.Sublist s'.taken := by
  cases step_cases hstep with
  | round hpc now conns =>
      exact (retryRound_spec cfg s now conns hinv.retry).1.taken ▸ List.Sublist.refl _
  | client hpc hr =>
      unfold putBack
      split_ifs <;> exact List.Sublist.refl _
  | dequeue hpc hstop clocks =>
      unfold dequeue
      split
      · exact List.Sublist.refl _
      · exact List.sublist_append_left _ _
  | msg m =>
      unfold broadcast
      dsimp only
      split_ifs <;> exact List.Sublist.refl _
  | busy | shutdown | stop | data | ret => exact List.Sublist.refl _

/-! ## Clients -/

/-- A client was handed exactly the queue messages it was due, in the order in which they were
taken, and no message it was sending was ever replaced. -/
structure Served (taken : List Nat) (c : Client) : Prop where
  handed : c.handed = c.due
  ordered : c.due.Sublist taken
  replaced : c.replaced = false

theorem Served.mono {taken taken' : List Nat} (h : Served taken c) (hle : taken.Sublist taken') :
    Served taken' c :=
  ⟨h.handed, h.ordered.trans hle, h.replaced⟩

/-- **Every move keeps a client served.** -/
theorem Served.move (h : Served s.taken c) (hmove : Move cfg s e c c')
    (hstep : step cfg s e = some s') (hle : s.taken.Sublist s'.taken) : Served s'.taken c' := by
  have hkeep : Served s'.taken c := h.mono hle
  cases hmove with
  | same => exact hkeep
  | connected hoff id => exact ⟨hkeep.handed, hkeep.ordered, hkeep.replaced⟩
  | login hon hstate clock =>
      exact ⟨by simpa [Client.give] using hkeep.handed, hkeep.ordered,
        by simp [Client.give, hkeep.replaced, hon.connect hstate]⟩
  | progress hon hstate hmsg n hlt => exact ⟨hkeep.handed, hkeep.ordered, hkeep.replaced⟩
  | done hon hstate hmsg hplain => exact ⟨hkeep.handed, hkeep.ordered, hkeep.replaced⟩
  | ready hon hstate id hmsg p hp hproc => exact ⟨hkeep.handed, hkeep.ordered, hkeep.replaced⟩
  | init hon hstate id hmsg p hp id' hproc m hval clock =>
      exact ⟨by simpa [Client.give, Client.done, Client.sent] using hkeep.handed, hkeep.ordered,
        by simp [Client.give, Client.done, Client.sent, hkeep.replaced]⟩
  | timeout hon hmsg htime => exact ⟨hkeep.handed, hkeep.ordered, hkeep.replaced⟩
  | retried hon => exact ⟨hkeep.handed, hkeep.ordered, hkeep.replaced⟩
  | handed hon hstate hfree id hid m hval htaken clock =>
      have hdue : noteDue id c = { c with due := c.due ++ [id] } := by
        rw [noteDue, if_pos ⟨hon.sock, hstate⟩]
      rw [hdue, htaken s' hstep]
      exact ⟨by simp [Client.give, h.handed], List.Sublist.append h.ordered (List.Sublist.refl _),
        by simp [Client.give, h.replaced, hfree]⟩

end Nsdci.Broadcast
