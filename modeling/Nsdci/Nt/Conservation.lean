import Nsdci.Nt.Client

/-!
# No tally is lost or sent twice

At any moment every node is on exactly one chain: the free list, the queue, or one of the two of a
client thread. A tally for which there was a free node is in one node on the queue or in the batch
of a thread, until it is completely sent, once and on one connection. After a send that failed part
way nothing more goes over that connection.
-/

namespace Nsdci.Nt

open Lib Function

/-- Where a node can be: `batch` and `spent` are the lists `firstPtr` and `freePtr` of a thread. -/
inductive Place where
  | free
  | queue
  | batch (i : Nat)
  | spent (i : Nat)
  deriving DecidableEq

/-- Nodes there hold tallies that are to be sent. -/
def Place.carries : Place → Bool
  | .queue | .batch _ => true
  | .free | .spent _ => false

/-- The pointer to the first node of a place. -/
def State.head (s : State) : Place → Option Nat
  | .free => s.firstFree
  | .queue => s.firstMsg
  | .batch i => (s.threads i).firstPtr
  | .spent i => (s.threads i).freePtr

/-- The tallies completely sent on a connection, in order. -/
def Thread.complete (t : Thread) : List Nat :=
  (t.wire.filter (·.bytes = sizeofReq)).map Traffic.tally

/-- The tally is to be sent: one node on the queue or in a batch has it, with its request. -/
def State.Waits (s : State) (lists : Place → List Nat) (k : Nat) (req : Req) : Prop :=
  ∃ n p, p.carries ∧ n ∈ lists p ∧ s.tally n = k ∧ s.req n = req ∧
    ∀ n' p', p'.carries → n' ∈ lists p' → s.tally n' = k → n' = n

/-- The tally was completely sent once. -/
def State.SentOnce (s : State) (k : Nat) : Prop :=
  ∃ i, (s.threads i).complete.count k = 1 ∧ ∀ j, j ≠ i → k ∉ (s.threads j).complete

/-- **What is to hold at any moment.** -/
structure Conserved (nodes : List Nat) (s : State) (lists : Place → List Nat) : Prop where
  chain : ∀ p, Chain s.next (s.head p) (lists p)
  place : ∀ n ∈ nodes, ∃! p, n ∈ lists p
  nodes : ∀ p, (lists p).Nodup ∧ ∀ n ∈ lists p, n ∈ nodes
  tallies : ∀ k req, s.accepted[k]? = some req →
    (s.Waits lists k req ∧ ∀ i, k ∉ (s.threads i).complete) ∨
    (s.SentOnce k ∧ ∀ n p, p.carries → n ∈ lists p → s.tally n ≠ k)
  requests : ∀ i, ∀ x ∈ (s.threads i).wire, s.accepted[x.tally]? = some x.req
  whole : ∀ i, ∀ x ∈ (s.threads i).wire.dropLast, x.bytes = sizeofReq

/-- Where a tally is: in a node, or sent on a connection. -/
inductive Fate where
  | node (n : Nat)
  | sent (i : Nat)

/-- Every tally has one fate. -/
structure Fates (nodes : List Nat) (place : Nat → Place) (fate : Nat → Fate) (s : State) :
    Prop where
  carried : ∀ n ∈ nodes, (place n).carries = true →
    s.accepted[s.tally n]? = some (s.req n) ∧ fate (s.tally n) = .node n
  node : ∀ k < s.accepted.length, ∀ n, fate k = .node n →
    n ∈ nodes ∧ (place n).carries = true ∧ s.tally n = k
  sent : ∀ i k, k ∈ (s.threads i).complete ↔ k < s.accepted.length ∧ fate k = .sent i
  once : ∀ i, (s.threads i).complete.Nodup
  requests : ∀ i, ∀ x ∈ (s.threads i).wire, s.accepted[x.tally]? = some x.req

/-- The thread has no nodes at this point. -/
def Pc.idle : Pc → Bool
  | .sending | .freeing | .requeue => false
  | _ => true

/-- What holds of a thread by itself. -/
structure Thread.Right (t : Thread) : Prop where
  idle : t.pc.idle = true → t.firstPtr = none ∧ t.freePtr = none
  requeue : t.pc = .requeue → t.freePtr = none
  ok : t.ok = true → ∀ x ∈ t.wire, x.bytes = sizeofReq
  whole : ∀ x ∈ t.wire.dropLast, x.bytes = sizeofReq

/-- **The invariant.** -/
structure Inv (nodes : List Nat) (lists : Place → List Nat) (place : Nat → Place)
    (fate : Nat → Fate) (s : State) : Prop where
  chains : Chains nodes s.next s.head lists place
  last : s.lastMsg = (lists .queue).getLast?
  fates : Fates nodes place fate s
  threads : ∀ i, (s.threads i).Right
  unborn : ∀ i, s.started ≤ i → s.threads i = .unborn

/-- What the invariant says for users. -/
theorem Inv.conserved {nodes : List Nat} {lists : Place → List Nat} {place : Nat → Place}
    {fate : Nat → Fate} {s : State} (h : Inv nodes lists place fate s) :
    Conserved nodes s lists := by
  have hplace : ∀ n p, p.carries = true → n ∈ lists p → n ∈ nodes ∧ (place n).carries = true := by
    intro n p hp hn
    obtain ⟨hnodes, rfl⟩ := (h.chains.mem p n).mp hn
    exact ⟨hnodes, hp⟩
  refine ⟨h.chains.chain, fun n hn => h.chains.unique hn,
    fun p => ⟨h.chains.nodup p, fun n hn => ((h.chains.mem p n).mp hn).1⟩, ?_, h.fates.requests,
    fun i => (h.threads i).whole⟩
  intro k req hk
  have hlt : k < s.accepted.length := (List.getElem?_eq_some_iff.mp hk).1
  cases hfate : fate k with
  | node n =>
      left
      obtain ⟨hnodes, hcarries, htally⟩ := h.fates.node k hlt n hfate
      have hreq := (h.fates.carried n hnodes hcarries).1
      rw [htally, hk] at hreq
      refine ⟨⟨n, place n, hcarries, (h.chains.mem _ n).mpr ⟨hnodes, rfl⟩, htally,
        (Option.some.inj hreq).symm, ?_⟩, ?_⟩
      · intro n' p' hp' hn' htally'
        obtain ⟨hnodes', hcarries'⟩ := hplace n' p' hp' hn'
        have hfate' := (h.fates.carried n' hnodes' hcarries').2
        rw [htally', hfate] at hfate'
        exact (Fate.node.inj hfate').symm
      · intro i hi
        have hsent := ((h.fates.sent i k).mp hi).2
        rw [hfate] at hsent
        cases hsent
  | sent i =>
      right
      have hmem : k ∈ (s.threads i).complete := (h.fates.sent i k).mpr ⟨hlt, hfate⟩
      refine ⟨⟨i, List.count_eq_one_of_mem (h.fates.once i) hmem, ?_⟩, ?_⟩
      · intro j hj hmem'
        have hfate' := ((h.fates.sent j k).mp hmem').2
        rw [hfate] at hfate'
        exact hj (Fate.sent.inj hfate').symm
      · intro n p hp hn htally
        obtain ⟨hnodes, hcarries⟩ := hplace n p hp hn
        have hfate' := (h.fates.carried n hnodes hcarries).2
        rw [htally, hfate] at hfate'
        cases hfate'

/-! ## What the parts of a step change -/

section Parts

variable (s : State) (i msg : Nat) (t : Thread)

@[simp] theorem put_threads_self : (s.put i t).threads i = t := by
  simp [State.put]

theorem put_threads_ne {j : Nat} (h : j ≠ i) : (s.put i t).threads j = s.threads j := by
  simp [State.put, h]

/-- The heads after a step of a thread. -/
theorem put_head : (s.put i t).head =
    update (update s.head (.batch i) t.firstPtr) (.spent i) t.freePtr := by
  funext p
  cases p with
  | free => rfl
  | queue => rfl
  | batch j =>
      by_cases hj : j = i
      · subst hj
        rw [update_of_ne (by simp), update_self]
        simp [State.head]
      · rw [update_of_ne (by simp), update_of_ne (by simpa using hj)]
        simp [State.head, put_threads_ne s i t hj]
  | spent j =>
      by_cases hj : j = i
      · subst hj
        rw [update_self]
        simp [State.head]
      · rw [update_of_ne (by simpa using hj), update_of_ne (by simp)]
        simp [State.head, put_threads_ne s i t hj]

/-- A thread that keeps its pointers keeps the heads. -/
theorem put_head_same (hfirst : t.firstPtr = (s.threads i).firstPtr)
    (hfree : t.freePtr = (s.threads i).freePtr) : (s.put i t).head = s.head := by
  rw [put_head, hfirst, hfree]
  have hbatch : update s.head (.batch i) (s.threads i).firstPtr = s.head := update_eq_self _ _
  have hspent : update s.head (.spent i) (s.threads i).freePtr = s.head := update_eq_self _ _
  rw [hbatch, hspent]

/-- What `queueMsg` leaves alone. -/
theorem queueMsg_frame : (s.queueMsg msg).req = s.req ∧ (s.queueMsg msg).tally = s.tally ∧
    (s.queueMsg msg).firstFree = s.firstFree ∧ (s.queueMsg msg).threads = s.threads ∧
    (s.queueMsg msg).started = s.started ∧ (s.queueMsg msg).accepted = s.accepted ∧
    (s.queueMsg msg).lastMsg = some msg := by
  unfold State.queueMsg State.setNext
  cases s.firstMsg with
  | none => exact ⟨rfl, rfl, rfl, rfl, rfl, rfl, rfl⟩
  | some m =>
      cases s.lastMsg with
      | none => exact ⟨rfl, rfl, rfl, rfl, rfl, rfl, rfl⟩
      | some last => exact ⟨rfl, rfl, rfl, rfl, rfl, rfl, rfl⟩

/-- A message put on an empty queue. -/
theorem queueMsg_empty (h : s.firstMsg = none) :
    (s.queueMsg msg).next = update s.next msg none ∧ (s.queueMsg msg).firstMsg = some msg := by
  simp [State.queueMsg, State.setNext, h]

/-- A message put behind the last one. -/
theorem queueMsg_full {m last : Nat} (h : s.firstMsg = some m) (hlast : s.lastMsg = some last) :
    (s.queueMsg msg).next = update (update s.next msg none) last (some msg) ∧
      (s.queueMsg msg).firstMsg = some m := by
  simp [State.queueMsg, State.setNext, h, hlast]

/-- The heads after a message was put on the queue. -/
theorem queueMsg_head :
    (s.queueMsg msg).head = update s.head .queue (s.queueMsg msg).firstMsg := by
  obtain ⟨-, -, hfree, hthreads, -, -, -⟩ := queueMsg_frame s msg
  funext p
  cases p with
  | free => simpa [State.head] using hfree
  | queue => rw [update_self]; rfl
  | batch j => simp [State.head, hthreads]
  | spent j => simp [State.head, hthreads]

end Parts

/-- **A message moved from the front of a list to the back of the queue.** -/
theorem chains_queueMsg {nodes : List Nat} {lists : Place → List Nat} {place : Nat → Place}
    {s : State} {head : Place → Option Nat} {p : Place} {msg : Nat}
    (h : Chains nodes s.next head lists place) (hp : p ≠ .queue) (hmsg : head p = some msg)
    (hqueue : s.firstMsg = head .queue) (hlast : s.lastMsg = (lists .queue).getLast?) :
    Chains nodes (s.queueMsg msg).next
      (update (update head p (s.next msg)) .queue (s.queueMsg msg).firstMsg)
      (update (update lists p (lists p).tail) .queue (lists .queue ++ [msg]))
      (update place msg .queue) := by
  refine h.move_back hp hmsg ?_ ?_
  · intro hempty
    exact queueMsg_empty s msg (hqueue.trans hempty)
  · intro m hm
    have hchain := h.chain .queue
    rw [hm] at hchain
    obtain ⟨rest, hlist, -⟩ := hchain.eq_cons
    obtain ⟨last, hlast'⟩ : ∃ last, (lists .queue).getLast? = some last := by
      rw [hlist]
      exact ⟨_, List.getLast?_eq_some_getLast (List.cons_ne_nil m rest)⟩
    obtain ⟨hnext, hfirst⟩ := queueMsg_full s msg (hqueue.trans hm) (hlast.trans hlast')
    exact ⟨hfirst, last, hlast', hnext⟩

/-! ## The invariant over a step -/

/-- What holds of every thread holds of them after a step of one. -/
theorem put_threads {s : State} {i : Nat} {t : Thread} {Q : Nat → Thread → Prop}
    (h : ∀ j, Q j (s.threads j)) (ht : Q i t) (j : Nat) : Q j ((s.put i t).threads j) := by
  by_cases hj : j = i
  · subst hj
    rwa [put_threads_self]
  · rw [put_threads_ne s i t hj]
    exact h j

section Step

variable {nodes : List Nat} {lists : Place → List Nat} {place : Nat → Place} {fate : Nat → Fate}
  {s s' : State}

/-- Fates stay when nodes move between places alike and nothing is sent completely. -/
theorem Fates.same {place' : Nat → Place} (h : Fates nodes place fate s)
    (hplace : ∀ n, (place' n).carries = (place n).carries) (hreq : s'.req = s.req)
    (htally : s'.tally = s.tally) (haccepted : s'.accepted = s.accepted)
    (hcomplete : ∀ i, (s'.threads i).complete = (s.threads i).complete)
    (hrequests : ∀ i, ∀ x ∈ (s'.threads i).wire, s.accepted[x.tally]? = some x.req) :
    Fates nodes place' fate s' := by
  refine ⟨?_, ?_, ?_, ?_, ?_⟩
  · intro n hn hcarries
    rw [haccepted, htally, hreq]
    exact h.carried n hn ((hplace n).symm.trans hcarries)
  · intro k hk n hfate
    rw [haccepted] at hk
    rw [htally, hplace]
    exact h.node k hk n hfate
  · intro i k
    rw [haccepted, hcomplete]
    exact h.sent i k
  · intro i
    rw [hcomplete]
    exact h.once i
  · rwa [haccepted]

/-- A tally that is taken up gets the fate of its node. -/
theorem Fates.enqueue (h : Fates nodes place fate s) {msg : Nat} {req : Req}
    (hmsg : msg ∈ nodes) (hplace : place msg = .free)
    (hreq : s'.req = update s.req msg req)
    (htally : s'.tally = update s.tally msg s.accepted.length)
    (haccepted : s'.accepted = s.accepted ++ [req]) (hthreads : s'.threads = s.threads) :
    Fates nodes (update place msg .queue) (update fate s.accepted.length (.node msg)) s' := by
  have hold : ∀ k req', s.accepted[k]? = some req' → (s.accepted ++ [req])[k]? = some req' ∧
      k ≠ s.accepted.length := by
    intro k req' hk
    have hlt := (List.getElem?_eq_some_iff.mp hk).1
    exact ⟨by rw [List.getElem?_append_left hlt]; exact hk, Nat.ne_of_lt hlt⟩
  refine ⟨?_, ?_, ?_, ?_, ?_⟩
  · intro n hn hcarries
    rw [haccepted, htally, hreq]
    by_cases hne : n = msg
    · subst hne
      simp
    · rw [update_of_ne hne] at hcarries
      obtain ⟨hk, hfate⟩ := h.carried n hn hcarries
      obtain ⟨hk', hlen⟩ := hold _ _ hk
      rw [update_of_ne hne, update_of_ne hne, update_of_ne hlen]
      exact ⟨hk', hfate⟩
  · intro k hk n hfate
    rw [haccepted, List.length_append] at hk
    rw [htally]
    by_cases hlen : k = s.accepted.length
    · subst hlen
      rw [update_self] at hfate
      obtain rfl := Fate.node.inj hfate
      rw [update_self, update_self]
      exact ⟨hmsg, rfl, rfl⟩
    · rw [update_of_ne hlen] at hfate
      have hlt : k < s.accepted.length := by
        have hone : [req].length = 1 := rfl
        omega
      obtain ⟨hn, hcarries, hk'⟩ := h.node k hlt n hfate
      -- the node is not free
      have hne : n ≠ msg := by
        rintro rfl
        rw [hplace] at hcarries
        exact absurd hcarries (by simp [Place.carries])
      rw [update_of_ne hne, update_of_ne hne]
      exact ⟨hn, hcarries, hk'⟩
  · intro i k
    rw [hthreads, h.sent, haccepted, List.length_append]
    by_cases hlen : k = s.accepted.length
    · subst hlen
      simp
    · rw [update_of_ne hlen]
      have hone : [req].length = 1 := rfl
      constructor
      · exact fun ⟨hlt, hfate⟩ => ⟨by omega, hfate⟩
      · exact fun ⟨hlt, hfate⟩ => ⟨by omega, hfate⟩
  · rw [hthreads]
    exact h.once
  · intro i x hx
    rw [hthreads] at hx
    rw [haccepted]
    exact (hold _ _ (h.requests i x hx)).1

/-- The tallies complete after one more request was sent. -/
theorem complete_sent (t : Thread) (k : Nat) (req : Req) (p q : Option Nat) :
    Thread.complete { t with
      firstPtr := p, freePtr := q, wire := t.wire ++ [⟨k, req, sizeofReq⟩] } =
      t.complete ++ [k] := by
  simp [Thread.complete]

/-- **A tally that is completely sent has that fate from then on.** -/
theorem Fates.sent_node (h : Fates nodes place fate s) {i msg : Nat} {t : Thread}
    (hmsg : msg ∈ nodes) (hplace : place msg = .batch i)
    (hreq : s'.req = s.req) (htally : s'.tally = s.tally) (haccepted : s'.accepted = s.accepted)
    (hthreads : s'.threads = update s.threads i t)
    (hcomplete : t.complete = (s.threads i).complete ++ [s.tally msg])
    (hwire : t.wire = (s.threads i).wire ++ [⟨s.tally msg, s.req msg, sizeofReq⟩]) :
    Fates nodes (update place msg (.spent i)) (update fate (s.tally msg) (.sent i)) s' := by
  have hcarries : (place msg).carries = true := by rw [hplace]; rfl
  obtain ⟨hk, hfate⟩ := h.carried msg hmsg hcarries
  have hlt : s.tally msg < s.accepted.length := (List.getElem?_eq_some_iff.mp hk).1
  have hnot : ∀ j, s.tally msg ∉ (s.threads j).complete := by
    intro j hmem
    have hsent := ((h.sent j _).mp hmem).2
    rw [hfate] at hsent
    cases hsent
  refine ⟨?_, ?_, ?_, ?_, ?_⟩
  · intro n hn hcarries'
    rw [haccepted, htally, hreq]
    by_cases hne : n = msg
    · subst hne
      rw [update_self] at hcarries'
      exact absurd hcarries' (by simp [Place.carries])
    · rw [update_of_ne hne] at hcarries'
      obtain ⟨hk', hfate'⟩ := h.carried n hn hcarries'
      -- another node has another tally
      have htallies : s.tally n ≠ s.tally msg := by
        intro heq
        rw [heq, hfate] at hfate'
        exact hne (Fate.node.inj hfate').symm
      rw [update_of_ne htallies]
      exact ⟨hk', hfate'⟩
  · intro k hk' n hfate'
    rw [haccepted] at hk'
    rw [htally]
    by_cases heq : k = s.tally msg
    · subst heq
      rw [update_self] at hfate'
      cases hfate'
    · rw [update_of_ne heq] at hfate'
      obtain ⟨hn, hcarries', hkn⟩ := h.node k hk' n hfate'
      have hne : n ≠ msg := by
        rintro rfl
        exact heq hkn.symm
      rw [update_of_ne hne]
      exact ⟨hn, hcarries', hkn⟩
  · intro j k
    rw [haccepted, hthreads]
    by_cases hj : j = i
    · subst hj
      rw [update_self, hcomplete, List.mem_append, List.mem_singleton, h.sent]
      by_cases heq : k = s.tally msg
      · subst heq
        simp [hlt]
      · simp [heq]
    · rw [update_of_ne hj]
      by_cases heq : k = s.tally msg
      · subst heq
        simp [hnot j, Ne.symm hj]
      · rw [update_of_ne heq]
        exact h.sent j k
  · intro j
    rw [hthreads]
    by_cases hj : j = i
    · subst hj
      rw [update_self, hcomplete]
      refine List.Nodup.append (h.once j) (List.nodup_singleton _) ?_
      intro k hk' hk''
      obtain rfl : k = s.tally msg := by simpa using hk''
      exact hnot j hk'
    · rw [update_of_ne hj]
      exact h.once j
  · intro j x hx
    rw [haccepted]
    rw [hthreads] at hx
    by_cases hj : j = i
    · subst hj
      rw [update_self, hwire, List.mem_append] at hx
      rcases hx with hx | hx
      · exact h.requests j x hx
      · obtain rfl : x = ⟨s.tally msg, s.req msg, sizeofReq⟩ := by simpa using hx
        exact hk
    · rw [update_of_ne hj] at hx
      exact h.requests j x hx

/-- A step that moves no node and sends nothing completely. -/
theorem Inv.quiet (h : Inv nodes lists place fate s) (hnext : s'.next = s.next)
    (hhead : s'.head = s.head) (hlast : s'.lastMsg = s.lastMsg) (hreq : s'.req = s.req)
    (htally : s'.tally = s.tally) (haccepted : s'.accepted = s.accepted)
    (hcomplete : ∀ j, (s'.threads j).complete = (s.threads j).complete)
    (hrequests : ∀ j, ∀ x ∈ (s'.threads j).wire, s.accepted[x.tally]? = some x.req)
    (hright : ∀ j, (s'.threads j).Right)
    (hunborn : ∀ j, s'.started ≤ j → s'.threads j = .unborn) :
    Inv nodes lists place fate s' := by
  refine ⟨?_, ?_, ?_, hright, hunborn⟩
  · rw [hnext, hhead]
    exact h.chains
  · rw [hlast]
    exact h.last
  · exact h.fates.same (fun _ => rfl) hreq htally haccepted hcomplete hrequests

/-- A thread goes on elsewhere, and may take or leave the lock. -/
theorem Inv.goto (h : Inv nodes lists place fate s) {i : Nat} (hi : i < s.started) {pc : Pc}
    (hidle : pc.idle = true → (s.threads i).firstPtr = none ∧ (s.threads i).freePtr = none)
    (hrequeue : pc = .requeue → (s.threads i).freePtr = none) (lock : Option Nat) :
    Inv nodes lists place fate { s.goto i pc with clientLock := lock } := by
  have hright := h.threads i
  refine h.quiet rfl (put_head_same s i _ rfl rfl) rfl rfl rfl rfl ?_ ?_ ?_ ?_
  · exact put_threads (Q := fun j t => t.complete = (s.threads j).complete) (fun j => rfl) rfl
  · exact put_threads (Q := fun _ t => ∀ x ∈ t.wire, s.accepted[x.tally]? = some x.req)
      h.fates.requests (h.fates.requests i)
  · exact put_threads (Q := fun _ t => t.Right) h.threads
      ⟨hidle, hrequeue, hright.ok, hright.whole⟩
  · exact put_threads (Q := fun j t => s.started ≤ j → t = .unborn) h.unborn
      fun hle => absurd hi (Nat.not_lt.mpr hle)

/-- A thread that takes the lock when it is free. -/
theorem Inv.lock (h : Inv nodes lists place fate s) {i : Nat} (hi : i < s.started) {pc : Pc}
    (hidle : pc.idle = true → (s.threads i).firstPtr = none ∧ (s.threads i).freePtr = none)
    (hrequeue : pc = .requeue → (s.threads i).freePtr = none) (hlock : s.lock i pc = some s') :
    Inv nodes lists place fate s' := by
  unfold State.lock at hlock
  split_ifs at hlock
  obtain rfl := Option.some.inj hlock
  exact h.goto hi hidle hrequeue (some i)

/-- **The thread takes the whole queue.** -/
theorem Inv.detach (h : Inv nodes lists place fate s) {i : Nat} (hi : i < s.started)
    (hidle : (s.threads i).firstPtr = none ∧ (s.threads i).freePtr = none) :
    ∃ lists' place', Inv nodes lists' place' fate (s.detach i) := by
  obtain ⟨hfirst, hfree⟩ := hidle
  have hright := h.threads i
  have hempty : s.head (.batch i) = none := hfirst
  have hne : Place.queue ≠ .batch i := by simp
  have hmove := h.chains.move_all hne hempty
  have hhead : (s.detach i).head =
      update (update s.head .queue none) (.batch i) (s.head .queue) := by
    funext p
    cases p with
    | free => rfl
    | queue => rfl
    | batch j =>
        by_cases hj : j = i
        · subst hj
          rw [update_self]
          simp [State.head, State.detach, State.unlock, State.put]
        · rw [update_of_ne (by simpa using hj), update_of_ne (by simp)]
          simp [State.head, State.detach, State.unlock, State.put, hj]
    | spent j =>
        by_cases hj : j = i
        · subst hj
          rw [update_of_ne (by simp), update_of_ne (by simp)]
          simp [State.head, State.detach, State.unlock, State.put, hfree]
        · rw [update_of_ne (by simp), update_of_ne (by simp)]
          simp [State.head, State.detach, State.unlock, State.put, hj]
  have hthreads : (s.detach i).threads = update s.threads i
      { s.threads i with pc := .sending, firstPtr := s.firstMsg, freePtr := none } := by
    simp [State.detach, State.unlock, State.put]
  rw [← hhead] at hmove
  refine ⟨_, _, hmove, ?_, ?_, ?_, ?_⟩
  · rw [update_of_ne (by simp), update_self]
    rfl
  · refine h.fates.same ?_ rfl rfl rfl ?_ ?_
    · intro n
      by_cases hplace : place n = .queue
      · simp [hplace, Place.carries]
      · simp [hplace]
    · rw [hthreads]
      exact put_threads (s := s) (Q := fun j t => t.complete = (s.threads j).complete)
        (fun j => rfl) rfl
    · rw [hthreads]
      exact put_threads (s := s) (Q := fun _ t => ∀ x ∈ t.wire, s.accepted[x.tally]? = some x.req)
        h.fates.requests (h.fates.requests i)
  · rw [hthreads]
    refine put_threads (s := s) (Q := fun _ t => t.Right) h.threads ?_
    exact ⟨fun h => absurd h (by simp [Pc.idle]), fun h => absurd h (by simp), hright.ok,
      hright.whole⟩
  · rw [hthreads]
    exact put_threads (s := s) (Q := fun j t => s.started ≤ j → t = .unborn) h.unborn
      fun hle => absurd hi (Nat.not_lt.mpr hle)

/-- **A message that was sent goes to the thread's own free list.** -/
theorem Inv.sent (h : Inv nodes lists place fate s) {i msg : Nat} (hi : i < s.started)
    (hpc : (s.threads i).pc = .sending) (hok : (s.threads i).ok = true)
    (hmsg : (s.threads i).firstPtr = some msg) :
    ∃ lists' place' fate', Inv nodes lists' place' fate' (s.sent i msg) := by
  have hright := h.threads i
  obtain ⟨-, -, -, -, hnodes, hplace⟩ := h.chains.first (p := .batch i) hmsg
  have hne : Place.batch i ≠ .spent i := by simp
  have hfirst : s.head (.batch i) = some msg := hmsg
  have hmove := h.chains.move_front hne hfirst
  have hwire : ∀ x ∈ (s.threads i).wire ++ [(⟨s.tally msg, s.req msg, sizeofReq⟩ : Traffic)],
      x.bytes = sizeofReq := by
    intro x hx
    rcases List.mem_append.mp hx with hx | hx
    · exact hright.ok hok x hx
    · obtain rfl : x = ⟨s.tally msg, s.req msg, sizeofReq⟩ := by simpa using hx
      rfl
  have hhead : (s.sent i msg).head =
      update (update s.head (.batch i) (s.next msg)) (.spent i) (some msg) := put_head _ i _
  rw [← hhead] at hmove
  refine ⟨_, _, update fate (s.tally msg) (.sent i), hmove, ?_, ?_, ?_, ?_⟩
  · rw [update_of_ne (by simp), update_of_ne (by simp)]
    exact h.last
  · exact h.fates.sent_node hnodes hplace rfl rfl rfl rfl (complete_sent _ _ _ _ _) rfl
  · refine put_threads (Q := fun _ t => t.Right) h.threads ⟨?_, ?_, fun _ => hwire, ?_⟩
    · intro hidle
      rw [hpc] at hidle
      exact absurd hidle (by simp [Pc.idle])
    · intro hrequeue
      rw [hpc] at hrequeue
      exact absurd hrequeue (by simp)
    · intro x hx
      exact hwire x ((List.dropLast_sublist _).subset hx)
  · exact put_threads (Q := fun j t => s.started ≤ j → t = .unborn) h.unborn
      fun hle => absurd hi (Nat.not_lt.mpr hle)

/-- What `SendMsg` leaves when it fails. -/
theorem sendMsg_failed {len left : Nat} {results : List Int}
    (h : sendMsg len results = some (false, left)) : 0 < left ∧ left ≤ len := by
  induction results generalizing len with
  | nil =>
      cases len with
      | zero => simp [sendMsg] at h
      | succ len => simp [sendMsg] at h
  | cons n results ih =>
      cases len with
      | zero => simp [sendMsg] at h
      | succ len =>
          rw [sendMsg] at h
          split_ifs at h
          · obtain ⟨-, rfl⟩ := Prod.mk.inj (Option.some.inj h)
            omega
          · have := ih h
            omega

/-- **A send that failed part way moves nothing**, and the connection gets no more. -/
theorem Inv.failed (h : Inv nodes lists place fate s) {i msg left : Nat} (hi : i < s.started)
    (hok : (s.threads i).ok = true) (hmsg : (s.threads i).firstPtr = some msg)
    (hleft : 0 < left ∧ left ≤ sizeofReq) :
    Inv nodes lists place fate (s.failed i msg left) := by
  have hright := h.threads i
  obtain ⟨-, -, -, -, hnodes, hplace⟩ := h.chains.first (p := .batch i) hmsg
  have hcarries : (place msg).carries = true := by rw [hplace]; rfl
  have hpart : sizeofReq - left ≠ sizeofReq := by
    have hsize : sizeofReq = 72 := rfl
    omega
  refine h.quiet rfl (put_head_same s i _ rfl rfl) rfl rfl rfl rfl ?_ ?_ ?_ ?_
  · refine put_threads (Q := fun j t => t.complete = (s.threads j).complete) (fun j => rfl) ?_
    simp [Thread.complete, hpart]
  · refine put_threads (Q := fun _ t => ∀ x ∈ t.wire, s.accepted[x.tally]? = some x.req)
      h.fates.requests ?_
    intro x hx
    rcases List.mem_append.mp hx with hx | hx
    · exact h.fates.requests i x hx
    · obtain rfl : x = ⟨s.tally msg, s.req msg, sizeofReq - left⟩ := by simpa using hx
      exact (h.fates.carried msg hnodes hcarries).1
  · refine put_threads (Q := fun _ t => t.Right) h.threads
      ⟨hright.idle, hright.requeue, fun h => absurd h (by simp), ?_⟩
    intro x hx
    rw [List.dropLast_concat] at hx
    exact hright.ok hok x hx
  · exact put_threads (Q := fun j t => s.started ≤ j → t = .unborn) h.unborn
      fun hle => absurd hi (Nat.not_lt.mpr hle)

/-- **A sent message goes back to the free list.** -/
theorem Inv.release (h : Inv nodes lists place fate s) {i msg : Nat} (hi : i < s.started)
    (hpc : (s.threads i).pc = .freeing) (hmsg : (s.threads i).freePtr = some msg) :
    ∃ lists' place', Inv nodes lists' place' fate (s.release i msg) := by
  have hright := h.threads i
  have hne : Place.spent i ≠ .free := by simp
  have hfirst : s.head (.spent i) = some msg := hmsg
  obtain ⟨-, -, -, -, hnodes, hplace⟩ := h.chains.first hfirst
  have hmove := h.chains.move_front hne hfirst
  have hhead : (s.release i msg).head =
      update (update s.head (.spent i) (s.next msg)) .free (some msg) := by
    have hput := put_head (s.setNext msg s.firstFree) i
      { s.threads i with freePtr := s.next msg }
    have hbatch : update (s.setNext msg s.firstFree).head (.batch i) (s.threads i).firstPtr =
        s.head := update_eq_self _ _
    rw [hbatch] at hput
    funext p
    cases p with
    | free => rw [update_self]; rfl
    | queue => rfl
    | batch j => rw [update_of_ne (by simp), ← hput]; rfl
    | spent j => rw [update_of_ne (by simp), ← hput]; rfl
  rw [← hhead] at hmove
  refine ⟨_, _, hmove, ?_, ?_, ?_, ?_⟩
  · rw [update_of_ne (by simp), update_of_ne (by simp)]
    exact h.last
  · refine h.fates.same ?_ rfl rfl rfl ?_ ?_
    · intro n
      by_cases hn : n = msg
      · subst hn
        rw [update_self, hplace]
        rfl
      · rw [update_of_ne hn]
    · exact put_threads (Q := fun j t => t.complete = (s.threads j).complete) (fun j => rfl) rfl
    · exact put_threads (Q := fun _ t => ∀ x ∈ t.wire, s.accepted[x.tally]? = some x.req)
        h.fates.requests (h.fates.requests i)
  · refine put_threads (Q := fun _ t => t.Right) h.threads ⟨?_, ?_, hright.ok, hright.whole⟩
    · intro hidle
      rw [hpc] at hidle
      exact absurd hidle (by simp [Pc.idle])
    · intro hrequeue
      rw [hpc] at hrequeue
      exact absurd hrequeue (by simp)
  · exact put_threads (Q := fun j t => s.started ≤ j → t = .unborn) h.unborn
      fun hle => absurd hi (Nat.not_lt.mpr hle)

/-- **A message that was not sent goes back on the queue.** -/
theorem Inv.putBack (h : Inv nodes lists place fate s) {i msg : Nat} (hi : i < s.started)
    (hpc : (s.threads i).pc = .requeue) (hmsg : (s.threads i).firstPtr = some msg) :
    ∃ lists' place', Inv nodes lists' place' fate (s.putBack i msg) := by
  have hright := h.threads i
  have hne : Place.batch i ≠ .queue := by simp
  have hfirst : s.head (.batch i) = some msg := hmsg
  obtain ⟨-, -, -, -, hnodes, hplace⟩ := h.chains.first hfirst
  let t : Thread := { s.threads i with firstPtr := s.next msg }
  obtain ⟨hreq, htally, -, hthreads, hstarted, haccepted, hlast⟩ := queueMsg_frame (s.put i t) msg
  have hthreads' : (s.putBack i msg).threads = (s.put i t).threads := hthreads
  have hmove : Chains nodes (s.putBack i msg).next
      (update (update s.head (.batch i) (s.next msg)) .queue (s.putBack i msg).firstMsg)
      (update (update lists (.batch i) (lists (.batch i)).tail) .queue (lists .queue ++ [msg]))
      (update place msg .queue) :=
    chains_queueMsg (s := s.put i t) h.chains hne hfirst rfl h.last
  have hhead : (s.putBack i msg).head = update (update s.head (.batch i) (s.next msg)) .queue
      (s.putBack i msg).firstMsg := by
    have hput := put_head s i t
    have hspent : update (update s.head (.batch i) t.firstPtr) (.spent i) t.freePtr =
        update s.head (.batch i) t.firstPtr := by
      have hsame : t.freePtr = update s.head (.batch i) t.firstPtr (.spent i) := by
        rw [update_of_ne (by simp)]
        rfl
      rw [hsame]
      exact update_eq_self _ _
    rw [hspent] at hput
    have hqueue := queueMsg_head (s.put i t) msg
    rw [hput] at hqueue
    exact hqueue
  rw [← hhead] at hmove
  refine ⟨_, _, hmove, ?_, ?_, ?_, ?_⟩
  · rw [update_self, List.getLast?_concat]
    exact hlast
  · refine h.fates.same ?_ hreq htally haccepted ?_ ?_
    · intro n
      by_cases hn : n = msg
      · subst hn
        rw [update_self, hplace]
        rfl
      · rw [update_of_ne hn]
    · rw [hthreads']
      exact put_threads (Q := fun j t => t.complete = (s.threads j).complete) (fun j => rfl) rfl
    · rw [hthreads']
      exact put_threads (Q := fun _ t => ∀ x ∈ t.wire, s.accepted[x.tally]? = some x.req)
        h.fates.requests (h.fates.requests i)
  · rw [hthreads']
    refine put_threads (Q := fun _ t => t.Right) h.threads ⟨?_, ?_, hright.ok, hright.whole⟩
    · intro hidle
      rw [show t.pc = .requeue from hpc] at hidle
      exact absurd hidle (by simp [Pc.idle])
    · exact fun _ => hright.requeue hpc
  · have hstarted' : (s.putBack i msg).started = s.started := hstarted
    rw [hthreads', hstarted']
    exact put_threads (Q := fun j t => s.started ≤ j → t = .unborn) h.unborn
      fun hle => absurd hi (Nat.not_lt.mpr hle)

/-- **A request taken up goes from the free list to the back of the queue.** -/
theorem Inv.enqueue (h : Inv nodes lists place fate s) (req : Req) :
    ∃ lists' place' fate', Inv nodes lists' place' fate' (s.enqueue req) := by
  unfold State.enqueue
  cases hfree : s.firstFree with
  | none => exact ⟨lists, place, fate, h⟩
  | some msg =>
      have hne : Place.free ≠ .queue := by simp
      have hfirst : s.head .free = some msg := hfree
      obtain ⟨-, -, -, -, hnodes, hplace⟩ := h.chains.first hfirst
      let s₁ : State :=
        { s with
          firstFree := s.next msg
          req := update s.req msg req
          tally := update s.tally msg s.accepted.length
          accepted := s.accepted ++ [req] }
      show ∃ lists' place' fate', Inv nodes lists' place' fate' (s₁.queueMsg msg)
      obtain ⟨hreq, htally, -, hthreads, hstarted, haccepted, hlast⟩ := queueMsg_frame s₁ msg
      have hmove : Chains nodes (s₁.queueMsg msg).next
          (update (update s.head .free (s.next msg)) .queue (s₁.queueMsg msg).firstMsg)
          (update (update lists .free (lists .free).tail) .queue (lists .queue ++ [msg]))
          (update place msg .queue) :=
        chains_queueMsg (s := s₁) h.chains hne hfirst rfl h.last
      have hhead : (s₁.queueMsg msg).head =
          update (update s.head .free (s.next msg)) .queue (s₁.queueMsg msg).firstMsg := by
        have hold : s₁.head = update s.head .free (s.next msg) := by
          funext p
          cases p with
          | free => rw [update_self]; rfl
          | queue => rfl
          | batch j => rfl
          | spent j => rfl
        rw [← hold]
        exact queueMsg_head s₁ msg
      rw [← hhead] at hmove
      refine ⟨_, _, update fate s.accepted.length (.node msg), hmove, ?_, ?_, ?_, ?_⟩
      · rw [update_self, List.getLast?_concat]
        exact hlast
      · exact h.fates.enqueue hnodes hplace hreq htally haccepted hthreads
      · rw [hthreads]
        exact h.threads
      · rw [hthreads, hstarted]
        exact h.unborn

/-- A thread that takes a step has a connection. -/
theorem Inv.started (h : Inv nodes lists place fate s) {i : Nat}
    (hpc : (s.threads i).pc ≠ .unborn) : i < s.started := by
  by_contra hge
  rw [h.unborn i (Nat.not_lt.mp hge)] at hpc
  exact hpc rfl

/-- **Every step of a thread keeps the invariant.** -/
theorem Inv.advance {su : Setup} (h : Inv nodes lists place fate s) {i : Nat} {results : List Int}
    (hstep : s.advance su i results = some s') :
    ∃ lists' place' fate', Inv nodes lists' place' fate' s' := by
  have hright := h.threads i
  have hrun : (s.threads i).pc ≠ .unborn := by
    intro hpc
    simp [State.advance, hpc] at hstep
  have hi := h.started hrun
  unfold State.advance at hstep
  dsimp only at hstep
  cases hpc : (s.threads i).pc with
  | unborn => exact absurd hpc hrun
  | start =>
      rw [hpc] at hstep
      exact ⟨_, _, _, h.lock hi (fun _ => hright.idle (by rw [hpc]; rfl)) (by simp) hstep⟩
  | test =>
      rw [hpc] at hstep
      dsimp only at hstep
      have hidle := hright.idle (by rw [hpc]; rfl)
      split_ifs at hstep
      · obtain rfl := Option.some.inj hstep
        exact ⟨_, _, _, h.goto hi (fun _ => hidle) (by simp) none⟩
      · obtain rfl := Option.some.inj hstep
        exact ⟨_, _, _, h.goto hi (fun _ => hidle) (by simp) s.clientLock⟩
      · obtain rfl := Option.some.inj hstep
        exact ⟨_, _, _, h.goto hi (fun _ => hidle) (by simp) none⟩
  | sleep =>
      rw [hpc] at hstep
      exact ⟨_, _, _, h.lock hi (fun _ => hright.idle (by rw [hpc]; rfl)) (by simp) hstep⟩
  | check =>
      rw [hpc] at hstep
      dsimp only at hstep
      have hidle := hright.idle (by rw [hpc]; rfl)
      split_ifs at hstep
      · obtain rfl := Option.some.inj hstep
        exact ⟨_, _, _, h.goto hi (fun _ => hidle) (by simp) none⟩
      · obtain rfl := Option.some.inj hstep
        obtain ⟨lists', place', hdetach⟩ := h.detach hi hidle
        exact ⟨_, _, _, hdetach⟩
  | wait =>
      rw [hpc] at hstep
      exact ⟨_, _, _, h.lock hi (fun _ => hright.idle (by rw [hpc]; rfl)) (by simp) hstep⟩
  | sending =>
      rw [hpc] at hstep
      dsimp only at hstep
      have hleave : s.lock i .freeing = some s' →
          ∃ lists' place' fate', Inv nodes lists' place' fate' s' :=
        fun hlock => ⟨_, _, _, h.lock hi (fun h => absurd h (by simp [Pc.idle])) (by simp) hlock⟩
      cases hok : (s.threads i).ok with
      | false =>
          rw [hok] at hstep
          exact hleave hstep
      | true =>
          cases hmsg : (s.threads i).firstPtr with
          | none =>
              rw [hok, hmsg] at hstep
              exact hleave hstep
          | some msg =>
              rw [hok, hmsg] at hstep
              obtain ⟨⟨ok, left⟩, hsend, hs'⟩ := Option.map_eq_some_iff.mp hstep
              cases ok with
              | true =>
                  obtain rfl : s.sent i msg = s' := hs'
                  exact h.sent hi hpc hok hmsg
              | false =>
                  obtain rfl : s.failed i msg left = s' := hs'
                  exact ⟨_, _, _, h.failed hi hok hmsg (sendMsg_failed hsend)⟩
  | freeing =>
      rw [hpc] at hstep
      dsimp only at hstep
      cases hfree : (s.threads i).freePtr with
      | none =>
          rw [hfree] at hstep
          obtain rfl := Option.some.inj hstep
          exact ⟨_, _, _, h.goto hi (fun h => absurd h (by simp [Pc.idle])) (fun _ => hfree)
            s.clientLock⟩
      | some msg =>
          rw [hfree] at hstep
          obtain rfl := Option.some.inj hstep
          obtain ⟨lists', place', hrelease⟩ := h.release hi hpc hfree
          exact ⟨_, _, _, hrelease⟩
  | requeue =>
      rw [hpc] at hstep
      dsimp only at hstep
      cases hmsg : (s.threads i).firstPtr with
      | none =>
          rw [hmsg] at hstep
          obtain rfl := Option.some.inj hstep
          exact ⟨_, _, _, h.goto hi (fun _ => ⟨hmsg, hright.requeue hpc⟩) (by simp) s.clientLock⟩
      | some msg =>
          rw [hmsg] at hstep
          obtain rfl := Option.some.inj hstep
          obtain ⟨lists', place', hput⟩ := h.putBack hi hpc hmsg
          exact ⟨_, _, _, hput⟩
  | done =>
      rw [hpc] at hstep
      exact absurd hstep (by simp)

/-- A new connection gets a thread. -/
theorem Inv.accept (h : Inv nodes lists place fate s) :
    Inv nodes lists place fate
      { s.put s.started { Thread.unborn with pc := .start } with started := s.started + 1 } := by
  have hunborn := h.unborn s.started le_rfl
  refine h.quiet rfl ?_ rfl rfl rfl rfl ?_ ?_ ?_ ?_
  · exact put_head_same s s.started _ (congrArg Thread.firstPtr hunborn).symm
      (congrArg Thread.freePtr hunborn).symm
  · refine put_threads (Q := fun j t => t.complete = (s.threads j).complete) (fun j => rfl) ?_
    rw [hunborn]
    rfl
  · exact put_threads (Q := fun _ t => ∀ x ∈ t.wire, s.accepted[x.tally]? = some x.req)
      h.fates.requests (fun x hx => absurd hx List.not_mem_nil)
  · refine put_threads (Q := fun _ t => t.Right) h.threads
      ⟨fun _ => ⟨rfl, rfl⟩, fun _ => rfl, ?_, ?_⟩
    · exact fun _ x hx => absurd hx List.not_mem_nil
    · exact fun x hx => absurd hx List.not_mem_nil
  · refine put_threads (Q := fun j t => s.started + 1 ≤ j → t = .unborn)
      (fun j hj => h.unborn j (by omega)) (fun hle => by omega)

/-- **Every step keeps the invariant.** -/
theorem Inv.step {su : Setup} (h : Inv nodes lists place fate s) {e : Event}
    (hstep : s.step su e = some s') : ∃ lists' place' fate', Inv nodes lists' place' fate' s' := by
  cases e with
  | accept =>
      obtain rfl := Option.some.inj hstep
      exact ⟨_, _, _, h.accept⟩
  | exit =>
      simp only [State.step] at hstep
      split_ifs at hstep
      obtain rfl := Option.some.inj hstep
      exact ⟨_, _, _, h.quiet rfl rfl rfl rfl rfl rfl (fun j => rfl) h.fates.requests h.threads
        h.unborn⟩
  | send argv =>
      simp only [State.step] at hstep
      cases hreq : ntcSendReq su.tcl argv with
      | error err =>
          rw [hreq] at hstep
          obtain rfl := Option.some.inj hstep
          exact ⟨_, _, _, h⟩
      | ok req =>
          rw [hreq] at hstep
          dsimp only at hstep
          split_ifs at hstep
          obtain rfl := Option.some.inj hstep
          exact h.enqueue req
  | repeated req =>
      simp only [State.step] at hstep
      split_ifs at hstep
      obtain rfl := Option.some.inj hstep
      exact h.enqueue req
  | thread i results => exact h.advance hstep

end Step

/-! ## Runs -/

/-- The nodes of a free list are linked. -/
theorem chain_linkAll {nodes : List Nat} (hnodup : nodes.Nodup) :
    Chain (linkAll nodes) nodes.head? nodes := by
  induction nodes with
  | nil => exact rfl
  | cons n nodes ih =>
      rw [List.nodup_cons] at hnodup
      exact (ih hnodup.2).push hnodup.1

/-- The invariant at the start. -/
theorem inv_init {nodes : List Nat} (hnodup : nodes.Nodup) :
    Inv nodes (fun p => if p = .free then nodes else []) (fun _ => .free) (fun _ => .node 0)
      (State.init nodes) := by
  refine ⟨⟨?_, ?_, ?_⟩, rfl, ⟨?_, ?_, ?_, ?_, ?_⟩, ?_, fun i _ => rfl⟩
  · intro p
    cases p with
    | free => exact chain_linkAll hnodup
    | queue => exact rfl
    | batch i => exact rfl
    | spent i => exact rfl
  · intro p
    split_ifs
    · exact hnodup
    · exact List.nodup_nil
  · intro p n
    split_ifs with hp
    · simp [hp]
    · simp [Ne.symm hp]
  · intro n _ hcarries
    exact absurd hcarries (by simp [Place.carries])
  · intro k hk
    exact absurd hk (Nat.not_lt_zero k)
  · intro i k
    simp [State.init, Thread.unborn, Thread.complete]
  · intro i
    exact List.nodup_nil
  · intro i x hx
    exact absurd hx List.not_mem_nil
  · intro i
    refine ⟨fun _ => ⟨rfl, rfl⟩, fun _ => rfl, fun _ x hx => absurd hx List.not_mem_nil, ?_⟩
    exact fun x hx => absurd hx List.not_mem_nil

/-- The invariant holds for some lists, places and fates. -/
def Kept (nodes : List Nat) (s : State) : Prop := ∃ lists place fate, Inv nodes lists place fate s

/-- **Tallies and nodes are conserved.** At any moment of any run, whatever sends succeed or fail,
every node is in one place, and every tally taken up waits in one node or was sent once. -/
theorem queue_conserved {su : Setup} {nodes : List Nat} (hnodup : nodes.Nodup) {es : List Event}
    {s : State} (hrun : run (State.step su) (State.init nodes) es = some s) :
    ∃ lists, Conserved nodes s lists := by
  have hstep : ∀ s e s', Kept nodes s → s.step su e = some s' → Kept nodes s' :=
    fun s e s' ⟨_, _, _, h⟩ hstep => h.step hstep
  have hinit : Kept nodes (State.init nodes) := ⟨_, _, _, inv_init hnodup⟩
  obtain ⟨lists, place, fate, h⟩ : Kept nodes s := run_invariant_all hstep hinit hrun
  exact ⟨lists, h.conserved⟩

/-- A client that waits a second before it looks at the queue. -/
def delayed : Setup := ⟨Rpc.TclGetInt.decimal, 1⟩

/-- Two tallies: the first is sent in two parts, the second only in part, and it is put back. -/
def partRun : List Event :=
  [.accept, .send [toCStr [110], toCStr [98], toCStr [107], toCStr [45, 49]],
    .repeated ⟨[0, 0, 0, 5], [98], [108]⟩, .thread 0 [], .thread 0 [], .thread 0 [], .thread 0 [],
    .thread 0 [40, 32], .thread 0 [0, 71, -1], .thread 0 [], .thread 0 [], .thread 0 [],
    .thread 0 [], .thread 0 [], .thread 0 []]

/-- Nothing is lost in this run. -/
theorem queue_conserved_part : ∃ s, run (State.step delayed) (State.init [3, 8]) partRun = some s ∧
    ∃ lists, Conserved [3, 8] s lists := by
  have hsome : (run (State.step delayed) (State.init [3, 8]) partRun).isSome = true := by
    decide +kernel
  obtain ⟨s, hs⟩ := Option.isSome_iff_exists.mp hsome
  exact ⟨s, hs, queue_conserved (by decide) hs⟩

end Nsdci.Nt
