import Nsdci.Proxies
import Nsdci.Lib.Places
import Nsdci.Lib.Transition

/-!
# Who has a proxy

A proxy is idle, in the hands of one call of `proxy.send`, on the list of old proxies of one call
of `proxy.start`, or gone. `Effect` lists what a step can do; `effect_placed` carries through every
step that no proxy is in two places.
-/

namespace Nsdci.Proxies

open Lib Function

/-- Where a proxy can be. -/
inductive Place where
  | idle
  | sender (t : Nat)
  | starter (u : Nat)
  deriving DecidableEq

/-- The old proxies still to be stopped. -/
def Spc.old : Spc → List Nat
  | .stopping old _ _ => old
  | .new | .finished => []

/-- The idle proxies. -/
def State.idle {σ : Type} (s : State σ) : List Nat := s.pool.elim [] Pool.idle

/-- The proxies in a place. -/
def State.lists {σ : Type} (s : State σ) : Place → List Nat
  | .idle => s.idle
  | .sender t => (s.senders t).pc.held.toList
  | .starter u => (s.starters u).old

/-- No proxy is in two places, and those to come are in none. -/
structure Placed {σ : Type} (s : State σ) : Prop where
  places : Places s.lists
  fresh : ∀ q p, p ∈ s.lists q → p < s.nextProxy

/-- A step of a child. -/
inductive Process.Moves {σ : Type} (tcl : Eval σ) (host : TclExport.Order) (process : Process σ) :
    Process σ → Prop where
  | read (k : Nat) (process' : Process σ) (h : process.read tcl host k = some process') :
      Process.Moves tcl host process process'
  | write (k : Nat) (process' : Process σ) (h : process.write k = some process') :
      Process.Moves tcl host process process'
  | exit : Process.Moves tcl host process { process with child := .exited }

/-- What a step of a call with a proxy in its hands does to the proxy and the call. -/
inductive Hold {σ : Type} (tcl : Eval σ) (host : TclExport.Order) (refid' : Nat) (x : Proxy σ)
    (snd : Sender) (n : Int) : Proxy σ → Sender → Prop where
  | running (p refid : Nat) (process : Process σ) (hpc : snd.pc = .took p refid)
      (hprocess : x.process = some process) :
      Hold tcl host refid' x snd n x { snd with
        pc := .writing p refid (request host snd.script)
        mark := process.evals.length }
  | started (p refid : Nat) (hpc : snd.pc = .took p refid) (hprocess : x.process = none) :
      Hold tcl host refid' x snd n
        { x with process := some (.new tcl), starts := x.starts + 1 }
        { snd with pc := .writing p refid (request host snd.script), mark := 0 }
  | notStarted (p refid : Nat) (hpc : snd.pc = .took p refid) (hprocess : x.process = none) :
      Hold tcl host refid' x snd n x (snd.goto (.tested p refid false))
  | notWritten (p refid : Nat) (rest : Bytes) (process : Process σ)
      (hpc : snd.pc = .writing p refid rest) (hprocess : x.process = some process) :
      Hold tcl host refid' x snd n x (snd.goto (.tested p refid false))
  | written (p refid : Nat) (rest : Bytes) (process : Process σ)
      (hpc : snd.pc = .writing p refid rest) (hprocess : x.process = some process) (hn : 0 ≤ n)
      (hchild : process.child ≠ .exited) (hlen : n ≤ rest.length) :
      Hold tcl host refid' x snd n
        { x with
          process := some { process with toChild := process.toChild ++ rest.take n.toNat }
          unread := true }
        (snd.goto (if rest.drop n.toNat = [] then .reading p refid []
          else .writing p refid (rest.drop n.toNat)))
  | imported (p refid : Nat) (got : Bytes) (process : Process σ)
      (hpc : snd.pc = .reading p refid got) (hprocess : x.process = some process)
      (hneeded : needed got = 0) :
      Hold tcl host refid' x snd n { x with unread := false } { snd with
        pc := .tested p refid true
        answer := some (TclExport.tclImport got none, process.evals[snd.mark]?) }
  | notRead (p refid : Nat) (got : Bytes) (process : Process σ)
      (hpc : snd.pc = .reading p refid got) (hprocess : x.process = some process) :
      Hold tcl host refid' x snd n x (snd.goto (.tested p refid true))
  | read (p refid : Nat) (got : Bytes) (process : Process σ)
      (hpc : snd.pc = .reading p refid got) (hprocess : x.process = some process)
      (hneeded : needed got ≠ 0) (hn : 0 < n) (hlen : n ≤ needed got)
      (havail : n ≤ process.fromChild.length) :
      Hold tcl host refid' x snd n
        { x with process := some { process with fromChild := process.fromChild.drop n.toNat } }
        (snd.goto (.reading p refid (got ++ process.fromChild.take n.toNat)))
  | tested (p refid : Nat) (ok : Bool) (hpc : snd.pc = .tested p refid ok) :
      Hold tcl host refid' x snd n x
        (snd.goto (if ok ∧ refid = refid' then .returning p else .stopping p refid))
  | stopped (p refid : Nat) (hpc : snd.pc = .stopping p refid) :
      Hold tcl host refid' x snd n x.stop (snd.goto (.stopped p refid))

/-- What a step can do. -/
inductive Effect {σ : Type} (tcl : Eval σ) (host : TclExport.Order) (s : State σ) :
    Event → State σ → Prop where
  | without (e : Event) (t : Nat) (snd : Sender)
      (hpc : (s.senders t).pc = .new ∨ (s.senders t).pc = .waiting)
      (hpc' : snd.pc = .waiting ∨ snd.pc = .finished)
      (hanswer : snd.answer = (s.senders t).answer) :
      Effect tcl host s e (s.setSender t snd)
  | take (e : Event) (t : Nat) (snd : Sender) (pool : Pool) (p : Nat) (idle : List Nat)
      (hpool : s.pool = some pool) (hidle : pool.idle = p :: idle)
      (hpc : (s.senders t).pc = .new ∨ (s.senders t).pc = .waiting)
      (hpc' : snd.pc = .took p pool.refid) (hanswer : snd.answer = (s.senders t).answer) :
      Effect tcl host s e ((s.setIdle pool idle).setSender t snd)
  | hold (t : Nat) (n : Int) (pool : Pool) (p : Nat) (x : Proxy σ) (snd : Sender)
      (hpool : s.pool = some pool) (hheld : (s.senders t).pc.held = some p)
      (hmove : Hold tcl host pool.refid (s.proxies p) (s.senders t) n x snd) :
      Effect tcl host s (.step t n) ((s.setProxy p x).setSender t snd)
  | front (t : Nat) (n : Int) (pool : Pool) (p : Nat) (hpool : s.pool = some pool)
      (hpc : (s.senders t).pc = .returning p) :
      Effect tcl host s (.step t n)
        ((s.setIdle pool (p :: pool.idle)).setSender t ((s.senders t).goto .finished))
  | back (t : Nat) (n : Int) (pool : Pool) (p : Nat) (hpool : s.pool = some pool)
      (hpc : (s.senders t).pc = .stopped p pool.refid) :
      Effect tcl host s (.step t n)
        ((s.setIdle pool (pool.idle ++ [p])).setSender t ((s.senders t).goto .finished))
  | toss (t : Nat) (n : Int) (pool : Pool) (p refid : Nat) (hpool : s.pool = some pool)
      (hpc : (s.senders t).pc = .stopped p refid) (hrefid : refid ≠ pool.refid) :
      Effect tcl host s (.step t n) (s.setSender t ((s.senders t).goto .finished))
  | begin (u nproxies : Nat) (hspc : s.starters u = .new) :
      Effect tcl host s (.start u nproxies) (s.beginStart u nproxies)
  | stopOld (u p : Nat) (old : List Nat) (refid nproxies : Nat)
      (hspc : s.starters u = .stopping (p :: old) refid nproxies) :
      Effect tcl host s (.startStep u) (s.stopOld u p old refid nproxies)
  | finish (u refid nproxies : Nat) (pool : Pool) (hpool : s.pool = some pool)
      (hspc : s.starters u = .stopping [] refid nproxies) :
      Effect tcl host s (.startStep u) (s.endStart u refid nproxies pool)
  | child (e : Event) (p : Nat) (process process' : Process σ)
      (hprocess : (s.proxies p).process = some process)
      (hmove : process.Moves tcl host process') :
      Effect tcl host s e (s.setProcess p process')

variable {σ : Type} {tcl : Eval σ} {host : TclExport.Order} {s s' : State σ} {e : Event}

/-! ## What a step can do -/

/-- **One step of a call with a proxy in its hands does one of these.** -/
theorem holdStep_hold {refid' : Nat} {x x' : Proxy σ} {snd snd' : Sender} {n : Int}
    (h : holdStep tcl host refid' x snd n = some (x', snd')) :
    Hold tcl host refid' x snd n x' snd' := by
  unfold holdStep at h
  split at h
  next p refid hpc =>
    obtain h := Option.some.inj h
    unfold startStep at h
    split at h
    next process hprocess =>
      obtain ⟨rfl, rfl⟩ := Prod.mk.inj h
      exact .running p refid process hpc hprocess
    next hprocess =>
      split at h
      next =>
        obtain ⟨rfl, rfl⟩ := Prod.mk.inj h
        exact .notStarted p refid hpc hprocess
      next =>
        obtain ⟨rfl, rfl⟩ := Prod.mk.inj h
        exact .started p refid hpc hprocess
  next p refid rest hpc =>
    obtain ⟨process, hprocess, h⟩ := Option.bind_eq_some_iff.mp h
    split at h
    next =>
      obtain ⟨rfl, rfl⟩ := Prod.mk.inj (Option.some.inj h)
      exact .notWritten p refid rest process hpc hprocess
    next hn =>
      obtain ⟨⟨hchild, hlen⟩, h⟩ := Option.ite_none_right_eq_some.mp h
      obtain ⟨rfl, rfl⟩ := Prod.mk.inj (Option.some.inj h)
      exact .written p refid rest process hpc hprocess (by omega) hchild hlen
  next p refid got hpc =>
    obtain ⟨process, hprocess, h⟩ := Option.bind_eq_some_iff.mp h
    split at h
    next hneeded =>
      obtain ⟨rfl, rfl⟩ := Prod.mk.inj (Option.some.inj h)
      exact .imported p refid got process hpc hprocess hneeded
    next hneeded =>
      split at h
      next =>
        obtain ⟨rfl, rfl⟩ := Prod.mk.inj (Option.some.inj h)
        exact .notRead p refid got process hpc hprocess
      next =>
        obtain ⟨⟨hn, hlen, havail⟩, h⟩ := Option.ite_none_right_eq_some.mp h
        obtain ⟨rfl, rfl⟩ := Prod.mk.inj (Option.some.inj h)
        exact .read p refid got process hpc hprocess hneeded hn hlen havail
  next p refid ok hpc =>
    obtain ⟨rfl, rfl⟩ := Prod.mk.inj (Option.some.inj h)
    exact .tested p refid ok hpc
  next p refid hpc =>
    obtain ⟨rfl, rfl⟩ := Prod.mk.inj (Option.some.inj h)
    exact .stopped p refid hpc
  next => exact absurd h (by simp)

/-- A call takes a proxy, or goes on without. -/
theorem take_effect {t : Nat} {snd : Sender} {pool : Pool} {otherwise : Pc}
    (hpool : s.pool = some pool) (hpc : (s.senders t).pc = .new ∨ (s.senders t).pc = .waiting)
    (hanswer : snd.answer = (s.senders t).answer)
    (hotherwise : otherwise = .waiting ∨ otherwise = .finished) :
    Effect tcl host s e (s.take t snd pool otherwise) := by
  unfold State.take
  split
  next p idle hidle => exact .take e t _ pool p idle hpool hidle hpc rfl hanswer
  next => exact .without e t _ hpc hotherwise hanswer

/-- A step of a call of `proxy.send`. -/
theorem sendStep_effect {t : Nat} {n : Int} (h : s.sendStep tcl host t n = some s') :
    Effect tcl host s (.step t n) s' := by
  obtain ⟨pool, hpool, h⟩ := Option.bind_eq_some_iff.mp h
  cases hpc : (s.senders t).pc with
  | waiting =>
      simp only [hpc, Option.some.injEq] at h
      subst h
      exact take_effect hpool (Or.inr hpc) rfl (Or.inl rfl)
  | returning p =>
      simp only [hpc, Option.some.injEq] at h
      subst h
      exact .front t n pool p hpool hpc
  | stopped p refid =>
      simp only [hpc] at h
      split at h
      next hrefid =>
        subst hrefid
        obtain rfl := Option.some.inj h
        exact .back t n pool p hpool hpc
      next hrefid =>
        obtain rfl := Option.some.inj h
        exact .toss t n pool p refid hpool hpc hrefid
  | new | finished => simp [hpc, Pc.held] at h
  | took p | writing p | reading p | tested p | stopping p =>
      simp only [hpc, Pc.held, Option.bind_some] at h
      obtain ⟨⟨x, snd⟩, hmove, rfl⟩ := Option.map_eq_some_iff.mp h
      exact .hold t n pool p x snd hpool (by simp [hpc, Pc.held]) (holdStep_hold hmove)

/-- A step of a call of `proxy.start`. -/
theorem starterStep_effect {u : Nat} (h : s.starterStep u = some s') :
    Effect tcl host s (.startStep u) s' := by
  unfold State.starterStep at h
  split at h
  next p old refid nproxies hspc =>
    obtain rfl := Option.some.inj h
    exact .stopOld u p old refid nproxies hspc
  next refid nproxies hspc =>
    obtain ⟨pool, hpool, rfl⟩ := Option.map_eq_some_iff.mp h
    exact .finish u refid nproxies pool hpool hspc
  next => exact absurd h (by simp)
  next => exact absurd h (by simp)

/-- **Every step does one of these.** -/
theorem next_effect (h : s.next tcl host e = some s') : Effect tcl host s e s' := by
  cases e with
  | send t script =>
      obtain ⟨hpc, h⟩ := Option.ite_none_right_eq_some.mp h
      split at h
      next =>
        obtain rfl := Option.some.inj h
        exact .without _ t _ (Or.inl hpc) (Or.inr rfl) rfl
      next pool hpool =>
        obtain rfl := Option.some.inj h
        exact take_effect hpool (Or.inl hpc) rfl (Or.inl rfl)
  | timeout t =>
      obtain ⟨hpc, h⟩ := Option.ite_none_right_eq_some.mp h
      obtain ⟨pool, hpool, rfl⟩ := Option.map_eq_some_iff.mp h
      exact take_effect hpool (Or.inr hpc) rfl (Or.inr rfl)
  | step t n => exact sendStep_effect h
  | start u nproxies =>
      obtain ⟨⟨hspc, -⟩, h⟩ := Option.ite_none_right_eq_some.mp h
      obtain rfl := Option.some.inj h
      exact .begin u nproxies hspc
  | startStep u => exact starterStep_effect h
  | childRead p k =>
      obtain ⟨process, hprocess, h⟩ := Option.bind_eq_some_iff.mp h
      obtain ⟨process', hmove, rfl⟩ := Option.map_eq_some_iff.mp h
      exact .child _ p process process' hprocess (.read k process' hmove)
  | childWrite p k =>
      obtain ⟨process, hprocess, h⟩ := Option.bind_eq_some_iff.mp h
      obtain ⟨process', hmove, rfl⟩ := Option.map_eq_some_iff.mp h
      exact .child _ p process process' hprocess (.write k process' hmove)
  | childExit p =>
      obtain ⟨process, hprocess, rfl⟩ := Option.map_eq_some_iff.mp h
      exact .child _ p process _ hprocess .exit

/-! ## The lists after a step -/

/-- A call of `proxy.send` has what its program point holds. -/
theorem lists_setSender (s : State σ) (t : Nat) (snd : Sender) :
    (s.setSender t snd).lists = update s.lists (.sender t) snd.pc.held.toList := by
  funext q
  cases q with
  | idle => rw [update_of_ne (by simp)]; rfl
  | starter u => rw [update_of_ne (by simp)]; rfl
  | sender t' =>
      by_cases ht : t' = t
      · subst ht
        rw [update_self]
        show ((update s.senders t' snd) t').pc.held.toList = _
        rw [update_self]
      · rw [update_of_ne (by simpa using ht)]
        show ((update s.senders t snd) t').pc.held.toList = _
        rw [update_of_ne ht]
        rfl

/-- The pool has another list. -/
theorem lists_setIdle (s : State σ) (pool : Pool) (idle : List Nat) :
    (s.setIdle pool idle).lists = update s.lists .idle idle := by
  funext q
  cases q with
  | idle => rw [update_self]; rfl
  | starter u => rw [update_of_ne (by simp)]; rfl
  | sender t => rw [update_of_ne (by simp)]; rfl

/-- A call of `proxy.start` has other old proxies. -/
theorem lists_starters (s : State σ) (u : Nat) (spc : Spc) :
    ({ s with starters := update s.starters u spc } : State σ).lists =
      update s.lists (.starter u) spc.old := by
  funext q
  cases q with
  | idle => rw [update_of_ne (by simp)]; rfl
  | sender t => rw [update_of_ne (by simp)]; rfl
  | starter u' =>
      by_cases hu : u' = u
      · subst hu
        rw [update_self]
        show ((update s.starters u' spc) u').old = _
        rw [update_self]
      · rw [update_of_ne (by simpa using hu)]
        show ((update s.starters u spc) u').old = _
        rw [update_of_ne hu]
        rfl

/-- The first section of `StartCmd` moves the idle proxies to the call. -/
theorem lists_beginStart (s : State σ) (u nproxies : Nat) :
    (s.beginStart u nproxies).lists = update (update s.lists .idle []) (.starter u) s.idle := by
  unfold State.beginStart State.idle
  cases s.pool with
  | none =>
      show ({ s.setIdle ⟨[], 0, nproxies⟩ [] with
        starters := update s.starters u (.stopping [] 0 nproxies) } : State σ).lists = _
      rw [← lists_setIdle s ⟨[], 0, nproxies⟩ []]
      exact lists_starters (s.setIdle ⟨[], 0, nproxies⟩ []) u _
  | some pool =>
      show ({ s.setIdle ⟨[], pool.refid + 1, nproxies⟩ [] with
        starters := update s.starters u (.stopping pool.idle _ nproxies) } : State σ).lists = _
      rw [← lists_setIdle s ⟨[], pool.refid + 1, nproxies⟩ []]
      exact lists_starters (s.setIdle ⟨[], pool.refid + 1, nproxies⟩ []) u _

/-- The second section puts the new proxies before the idle ones. -/
theorem lists_endStart (s : State σ) (u refid nproxies : Nat) (pool : Pool) :
    (s.endStart u refid nproxies pool).lists =
      update (update s.lists .idle (List.range' s.nextProxy nproxies ++ pool.idle)) (.starter u)
        [] := by
  rw [← lists_setIdle s pool]
  exact lists_starters (s.setIdle pool _) u .finished

/-- A proxy stays in the hands of the call. -/
theorem Hold.held_eq {refid' p : Nat} {x x' : Proxy σ} {snd snd' : Sender} {n : Int}
    (hmove : Hold tcl host refid' x snd n x' snd') (hheld : snd.pc.held = some p) :
    snd'.pc.held = some p := by
  have hheld' : ∀ {q}, snd.pc.held = some q → some q = some p := fun h => h.symm.trans hheld
  cases hmove with
  | running q refid process hpc => exact hheld' (by rw [hpc]; rfl)
  | started q refid hpc => exact hheld' (by rw [hpc]; rfl)
  | notStarted q refid hpc => exact hheld' (by rw [hpc]; rfl)
  | notWritten q refid rest process hpc => exact hheld' (by rw [hpc]; rfl)
  | written q refid rest process hpc =>
      rw [Sender.goto, apply_ite Pc.held]
      show (if _ then some q else some q) = some p
      rw [ite_self]
      exact hheld' (by rw [hpc]; rfl)
  | imported q refid got process hpc => exact hheld' (by rw [hpc]; rfl)
  | notRead q refid got process hpc => exact hheld' (by rw [hpc]; rfl)
  | read q refid got process hpc => exact hheld' (by rw [hpc]; rfl)
  | tested q refid ok hpc =>
      rw [Sender.goto, apply_ite Pc.held]
      show (if _ then some q else some q) = some p
      rw [ite_self]
      exact hheld' (by rw [hpc]; rfl)
  | stopped q refid hpc => exact hheld' (by rw [hpc]; rfl)

/-- The list of a call of `proxy.send` with a proxy. -/
theorem lists_sender {t p : Nat} (hheld : (s.senders t).pc.held = some p) :
    s.lists (.sender t) = [p] := by
  show (s.senders t).pc.held.toList = [p]
  rw [hheld]
  rfl

/-- A proxy is on the list of the call that has it. -/
theorem mem_lists_sender {t p : Nat} (hheld : (s.senders t).pc.held = some p) :
    p ∈ s.lists (.sender t) := by
  rw [lists_sender hheld]
  exact List.mem_singleton_self p

/-- The list of a call of `proxy.send` without one. -/
theorem lists_sender_nil {t : Nat} (hpc : (s.senders t).pc = .new ∨ (s.senders t).pc = .waiting) :
    s.lists (.sender t) = [] := by
  show (s.senders t).pc.held.toList = []
  rcases hpc with hpc | hpc <;> rw [hpc] <;> rfl

/-- The idle proxies of the pool. -/
theorem lists_idle {pool : Pool} (hpool : s.pool = some pool) : s.lists .idle = pool.idle := by
  show s.pool.elim [] Pool.idle = pool.idle
  rw [hpool]
  rfl

/-- The old proxies of a call of `proxy.start`. -/
theorem lists_starter {u refid nproxies : Nat} {old : List Nat}
    (hspc : s.starters u = .stopping old refid nproxies) : s.lists (.starter u) = old := by
  show (s.starters u).old = old
  rw [hspc]
  rfl

/-- The lists are as before. -/
theorem Placed.same (h : Placed s) (hlists : s'.lists = s.lists)
    (hnext : s'.nextProxy = s.nextProxy) : Placed s' :=
  ⟨hlists ▸ h.places, fun q p hp => hnext ▸ h.fresh q p (hlists ▸ hp)⟩

/-- Proxies are removed from a place. -/
theorem Placed.drop (h : Placed s) {q : Place} {moved rest : List Nat}
    (hq : s.lists q = moved ++ rest) (hlists : s'.lists = update s.lists q rest)
    (hnext : s'.nextProxy = s.nextProxy) : Placed s' := by
  have hperm : (s.lists q).Perm (moved ++ rest) := by rw [hq]
  refine ⟨hlists ▸ h.places.drop hperm, fun r p hp => ?_⟩
  rw [hlists] at hp
  rw [hnext]
  exact h.fresh r p (Places.mem_of_drop hperm hp)

/-- Proxies are moved. -/
theorem Placed.move (h : Placed s) {q r : Place} {moved rest l : List Nat}
    (hq : s.lists q = moved ++ rest) (hr : l.Perm (moved ++ update s.lists q rest r))
    (hlists : s'.lists = update (update s.lists q rest) r l)
    (hnext : s'.nextProxy = s.nextProxy) : Placed s' := by
  have hperm : (s.lists q).Perm (moved ++ rest) := by rw [hq]
  refine ⟨hlists ▸ h.places.move hperm hr, fun r' p hp => ?_⟩
  rw [hlists] at hp
  obtain ⟨q', hq'⟩ := (Places.exists_mem_move hperm hr p).mp ⟨r', hp⟩
  rw [hnext]
  exact h.fresh q' p hq'

/-- A call of `proxy.send` puts its proxy back. -/
theorem Placed.put (h : Placed s) {t p : Nat} {pool : Pool} {idle : List Nat}
    (hpool : s.pool = some pool) (hheld : (s.senders t).pc.held = some p)
    (hidle : idle.Perm (p :: pool.idle)) :
    Placed ((s.setIdle pool idle).setSender t ((s.senders t).goto .finished)) := by
  have hlists : ((s.setIdle pool idle).setSender t ((s.senders t).goto .finished)).lists =
      update (update s.lists (.sender t) []) .idle idle := by
    rw [lists_setSender, lists_setIdle, update_comm (by simp)]
    rfl
  have hq : s.lists (.sender t) = [p] ++ [] := lists_sender hheld
  refine h.move hq ?_ hlists rfl
  rw [update_of_ne (by simp), lists_idle hpool]
  exact hidle

/-- The second section of `StartCmd` adds new proxies. -/
theorem Placed.create (h : Placed s) {u refid nproxies : Nat} {pool : Pool}
    (hpool : s.pool = some pool) (hspc : s.starters u = .stopping [] refid nproxies) :
    Placed (s.endStart u refid nproxies pool) := by
  have hlists : (s.endStart u refid nproxies pool).lists =
      update s.lists .idle (List.range' s.nextProxy nproxies ++ pool.idle) := by
    rw [lists_endStart]
    refine update_eq_self_iff.mpr ?_
    rw [update_of_ne (by simp), lists_starter hspc]
  have hperm : (List.range' s.nextProxy nproxies ++ pool.idle).Perm
      (List.range' s.nextProxy nproxies ++ s.lists .idle) := by rw [lists_idle hpool]
  refine ⟨?_, fun q p hp => ?_⟩
  · rw [hlists]
    refine h.places.add List.nodup_range' (fun p hp q hq => ?_) hperm
    have hlt := h.fresh q p hq
    have hge := (List.mem_range'_1.mp hp).1
    omega
  · show p < s.nextProxy + nproxies
    rw [hlists] at hp
    by_cases hq : q = .idle
    · rw [hq, update_self, List.mem_append] at hp
      cases hp with
      | inl hnew => exact (List.mem_range'_1.mp hnew).2
      | inr hidle =>
          have hlt := h.fresh .idle p (by rwa [lists_idle hpool])
          omega
    · rw [update_of_ne hq] at hp
      have hlt := h.fresh q p hp
      omega

/-- **No step puts a proxy in two places.** -/
theorem effect_placed (h : Placed s) (heffect : Effect tcl host s e s') : Placed s' := by
  cases heffect with
  | without e t snd hpc hpc' hanswer =>
      refine h.same ?_ rfl
      rw [lists_setSender]
      refine update_eq_self_iff.mpr ?_
      rw [lists_sender_nil hpc]
      rcases hpc' with hpc' | hpc' <;> rw [hpc'] <;> rfl
  | take e t snd pool p idle hpool hidle hpc hpc' hanswer =>
      have hq : s.lists .idle = [p] ++ idle := (lists_idle hpool).trans hidle
      have hlists : ((s.setIdle pool idle).setSender t snd).lists =
          update (update s.lists .idle idle) (.sender t) [p] := by
        rw [lists_setSender, lists_setIdle, hpc']
        rfl
      refine h.move hq ?_ hlists rfl
      rw [update_of_ne (by simp), lists_sender_nil hpc]
      exact List.Perm.refl [p]
  | hold t n pool p x snd hpool hheld hmove =>
      refine h.same ?_ rfl
      rw [lists_setSender]
      refine update_eq_self_iff.mpr ?_
      show snd.pc.held.toList = s.lists (.sender t)
      rw [hmove.held_eq hheld, lists_sender hheld]
      rfl
  | front t n pool p hpool hpc =>
      exact h.put hpool (by rw [hpc]; rfl) (List.Perm.refl _)
  | back t n pool p hpool hpc =>
      exact h.put hpool (by rw [hpc]; rfl) (List.perm_append_singleton p pool.idle)
  | toss t n pool p refid hpool hpc hrefid =>
      have hq : s.lists (.sender t) = [p] ++ [] := lists_sender (by rw [hpc]; rfl)
      refine h.drop hq ?_ rfl
      rw [lists_setSender]
      rfl
  | begin u nproxies hspc =>
      have hq : s.lists .idle = s.idle ++ [] := (List.append_nil s.idle).symm
      refine h.move hq ?_ (lists_beginStart s u nproxies) ?_
      · rw [update_of_ne (by simp)]
        show s.idle.Perm (s.idle ++ (s.starters u).old)
        rw [hspc]
        exact List.Perm.of_eq (List.append_nil s.idle).symm
      · unfold State.beginStart
        split <;> rfl
  | stopOld u p old refid nproxies hspc =>
      have hq : s.lists (.starter u) = [p] ++ old := lists_starter hspc
      refine h.drop hq ?_ rfl
      exact lists_starters (s.setProxy p _) u (.stopping old refid nproxies)
  | finish u refid nproxies pool hpool hspc => exact h.create hpool hspc
  | child e p process process' hprocess hmove => exact h.same rfl rfl

/-! ## Who else has a proxy -/

/-- A call of `proxy.send` that has a proxy has no other, and nobody else has it. -/
theorem Placed.sender_ne (h : Placed s) {t t' p p' : Nat}
    (ht : (s.senders t).pc.held = some p) (ht' : (s.senders t').pc.held = some p') (hne : t' ≠ t) :
    p' ≠ p := by
  rintro rfl
  have hmem := mem_lists_sender ht
  have hmem' := mem_lists_sender ht'
  exact hne (Place.sender.inj (h.places.eq_of_mem hmem' hmem))

/-- A proxy in the hands of a call is in no other place. -/
theorem Placed.not_mem (h : Placed s) {t p : Nat} (ht : (s.senders t).pc.held = some p) {q : Place}
    (hq : q ≠ .sender t) : p ∉ s.lists q := by
  intro hp
  exact hq (h.places.eq_of_mem hp (mem_lists_sender ht))

/-- Nobody has a proxy when nothing was called. -/
theorem placed_init : Placed (State.init σ) := by
  have hlists : ∀ q, (State.init σ).lists q = [] := by
    intro q
    cases q <;> rfl
  refine ⟨⟨fun q => ?_, fun {p q n} hn => ?_⟩, fun q p hp => ?_⟩
  · rw [hlists]
    exact List.nodup_nil
  · rw [hlists] at hn
    exact absurd hn List.not_mem_nil
  · rw [hlists] at hp
    exact absurd hp List.not_mem_nil

end Nsdci.Proxies
