import Nsdci.Proxies.Pairing

/-!
# Which proxies a pool has

`proxy.start` takes the idle proxies and gives the pool a new `refid`, and the calls that have a
proxy find the `refid` changed and stop it. That leaves the pool with the proxies of the last start
(`Settled`) when no start begins while another is still stopping proxies, or while a call has
tested the `refid` and not yet put its proxy back (`Apart`).
-/

namespace Nsdci.Proxies

open Lib Function

/-- A call of `proxy.start` is between its two sections. -/
def Spc.active : Spc → Bool
  | .stopping _ _ _ => true
  | .new | .finished => false

/-- A call of `proxy.send` is between the test of the `refid` and putting its proxy back. -/
def Pc.passing : Pc → Bool
  | .returning _ => true
  | _ => false

/-- A start begins only while no other is stopping proxies and no call is past the test. -/
def Apart {σ : Type} (s : State σ) : Event → Prop
  | .start _ _ => (∀ u, (s.starters u).active = false) ∧ ∀ t, (s.senders t).pc.passing = false
  | _ => True

/-- No call is in progress. -/
structure State.Idle {σ : Type} (s : State σ) : Prop where
  senders : ∀ t, (s.senders t).pc = .new ∨ (s.senders t).pc = .finished
  starters : ∀ u, (s.starters u).active = false

/-- The idle proxies are those of the last start, as many as it asked for, and those of earlier
starts were stopped, as often as they were started. -/
structure Settled {σ : Type} (s : State σ) (pool : Pool) : Prop where
  latest : ∀ p ∈ pool.idle, (s.proxies p).refid = pool.refid
  stopped : ∀ p < s.nextProxy, (s.proxies p).refid ≠ pool.refid →
    (s.proxies p).process.isNone ∧ (s.proxies p).starts = (s.proxies p).stops
  count : pool.idle.length = pool.requested

/-- The proxy in the hands of a call is of the start whose `refid` the call knows. -/
def Pc.Fits {σ : Type} (current : Nat) (x : Proxy σ) : Pc → Prop
  | .took _ refid | .writing _ refid _ | .reading _ refid _ | .tested _ refid _
  | .stopping _ refid => x.refid = refid
  | .stopped _ refid => x.refid = refid ∧ x.process = none
  | .returning _ => x.refid = current
  | .new | .waiting | .finished => True

/-- A process was started once more than one was stopped. -/
def Proxy.Counted {σ : Type} (x : Proxy σ) : Prop := x.starts = x.stops + x.process.toList.length

/-- Between the two sections of a start no proxy has the `refid` of the pool, and otherwise as many
have it as were asked for. -/
inductive Cohort {σ : Type} (s : State σ) (pool : Pool) : Prop where
  | making (u : Nat) (old : List Nat)
      (hspc : s.starters u = .stopping old pool.refid pool.requested)
      (hother : ∀ u' ≠ u, (s.starters u').active = false)
      (hnone : ∀ p < s.nextProxy, (s.proxies p).refid ≠ pool.refid)
  | made (first : Nat) (hinactive : ∀ u, (s.starters u).active = false)
      (hbound : first + pool.requested ≤ s.nextProxy)
      (hiff : ∀ p < s.nextProxy,
        (s.proxies p).refid = pool.refid ↔ first ≤ p ∧ p < first + pool.requested)

/-- What holds of the pool in every state. -/
structure Kept {σ : Type} (s : State σ) (pool : Pool) : Prop where
  refid : ∀ p < s.nextProxy, (s.proxies p).refid ≤ pool.refid
  idle : ∀ p ∈ pool.idle, (s.proxies p).refid = pool.refid
  cohort : Cohort s pool
  latest : ∀ p < s.nextProxy, (s.proxies p).refid = pool.refid →
    p ∈ pool.idle ∨ ∃ t, (s.senders t).pc.held = some p
  old : ∀ p < s.nextProxy, (s.proxies p).refid ≠ pool.refid → (s.proxies p).process.isSome →
    (∃ t, (s.senders t).pc.held = some p) ∨ ∃ u, p ∈ (s.starters u).old
  fits : ∀ t p, (s.senders t).pc.held = some p → (s.senders t).pc.Fits pool.refid (s.proxies p)

/-- The invariant of the proxies and the starts. -/
structure Gens {σ : Type} (s : State σ) : Prop where
  placed : Placed s
  counted : ∀ p, (s.proxies p).Counted
  pool : ∀ pool, s.pool = some pool → Kept s pool
  before : s.pool = none → s.nextProxy = 0

variable {σ : Type} {tcl : Eval σ} {host : TclExport.Order} {s s' : State σ} {e : Event}
  {pool : Pool}

/-! ## At rest -/

/-- Nothing is on the list of a start that is not between its sections. -/
theorem old_of_inactive {spc : Spc} (h : spc.active = false) : spc.old = [] := by
  cases spc with
  | stopping old refid nproxies => exact absurd h (by simp [Spc.active])
  | new | finished => rfl

/-- **With no call in progress the pool is settled.** -/
theorem Gens.settled (h : Gens s) (hidle : s.Idle) (hpool : s.pool = some pool) :
    Settled s pool := by
  have hkept := h.pool pool hpool
  have hheld : ∀ t p, (s.senders t).pc.held ≠ some p := by
    intro t p hp
    rcases hidle.senders t with hpc | hpc <;> rw [hpc] at hp <;> exact absurd hp (by simp [Pc.held])
  have hold : ∀ u, (s.starters u).old = [] := fun u => old_of_inactive (hidle.starters u)
  refine ⟨hkept.idle, fun p hp hrefid => ?_, ?_⟩
  · have hnone : (s.proxies p).process = none := by
      by_contra hsome
      have hrunning := Option.isSome_iff_ne_none.mpr hsome
      rcases hkept.old p hp hrefid hrunning with ⟨t, ht⟩ | ⟨u, hu⟩
      · exact hheld t p ht
      · rw [hold u] at hu
        exact absurd hu List.not_mem_nil
    have hcounted := h.counted p
    rw [Proxy.Counted, hnone] at hcounted
    exact ⟨by rw [hnone]; rfl, hcounted⟩
  · cases hkept.cohort with
    | making u old hspc hother hnone =>
        have hinactive := hidle.starters u
        rw [hspc] at hinactive
        exact absurd hinactive (by simp [Spc.active])
    | made first hinactive hbound hiff =>
        -- the idle proxies are those made by the last start, each once
        have hmem : ∀ p, p ∈ pool.idle ↔ p ∈ List.range' first pool.requested := by
          intro p
          rw [List.mem_range'_1]
          constructor
          · intro hp
            have hlt := h.placed.fresh .idle p (by rwa [lists_idle hpool])
            exact (hiff p hlt).mp (hkept.idle p hp)
          · intro hp
            have hlt : p < s.nextProxy := by omega
            rcases hkept.latest p hlt ((hiff p hlt).mpr hp) with hp' | ⟨t, ht⟩
            · exact hp'
            · exact absurd ht (hheld t p)
        have hnodup : pool.idle.Nodup := by
          have hnodup := h.placed.places.nodup .idle
          rwa [lists_idle hpool] at hnodup
        have hperm := (List.perm_ext_iff_of_nodup hnodup List.nodup_range').mpr hmem
        rw [hperm.length_eq, List.length_range']

/-! ## One call of `proxy.send` -/

/-- Stopping a process counts. -/
theorem Proxy.Counted.stop {x : Proxy σ} (h : x.Counted) : x.stop.Counted := by
  unfold Proxy.Counted at h ⊢
  unfold Proxy.stop
  split
  next process hprocess =>
    rw [hprocess] at h
    exact h
  next => exact h

@[simp] theorem Proxy.refid_stop (x : Proxy σ) : x.stop.refid = x.refid := by
  unfold Proxy.stop
  split <;> rfl

@[simp] theorem Proxy.process_stop (x : Proxy σ) : x.stop.process = none := by
  unfold Proxy.stop
  split
  · rfl
  next hprocess => exact hprocess

/-- Another process in place of one. -/
theorem Proxy.Counted.process {x : Proxy σ} {process : Process σ} (h : x.Counted)
    (hprocess : x.process = some process) (process' : Process σ) (unread : Bool) :
    ({ x with process := some process', unread := unread } : Proxy σ).Counted := by
  unfold Proxy.Counted at h ⊢
  rw [hprocess] at h
  exact h

/-- A step of a call leaves its proxy in the same generation, with its processes counted. -/
theorem Hold.proxy {refid' : Nat} {x x' : Proxy σ} {snd snd' : Sender} {n : Int}
    (hmove : Hold tcl host refid' x snd n x' snd') :
    x'.refid = x.refid ∧ (x.Counted → x'.Counted) := by
  cases hmove with
  | running | notStarted | notWritten | notRead | tested => exact ⟨rfl, id⟩
  | started p refid hpc hprocess =>
      refine ⟨rfl, fun h => ?_⟩
      unfold Proxy.Counted at h ⊢
      rw [hprocess] at h
      show x.starts + 1 = x.stops + 1
      rw [h]
      rfl
  | written p refid rest process hpc hprocess => exact ⟨rfl, fun h => h.process hprocess _ _⟩
  | imported p refid got process hpc hprocess => exact ⟨rfl, fun h => h⟩
  | read p refid got process hpc hprocess => exact ⟨rfl, fun h => h.process hprocess _ _⟩
  | stopped p refid hpc => exact ⟨x.refid_stop, fun h => h.stop⟩

/-- A step of a call leaves it with a proxy of the start whose `refid` it knows. -/
theorem Hold.fits {refid' : Nat} {x x' : Proxy σ} {snd snd' : Sender} {n : Int}
    (h : snd.pc.Fits refid' x) (hmove : Hold tcl host refid' x snd n x' snd') :
    snd'.pc.Fits refid' x' := by
  unfold Pc.Fits at h
  cases hmove with
  | running p refid process hpc => rw [hpc] at h; exact h
  | started p refid hpc => rw [hpc] at h; exact h
  | notStarted p refid hpc => rw [hpc] at h; exact h
  | notWritten p refid rest process hpc => rw [hpc] at h; exact h
  | written p refid rest process hpc =>
      rw [hpc] at h
      show Pc.Fits refid' _ (if _ then _ else _)
      split <;> exact h
  | imported p refid got process hpc => rw [hpc] at h; exact h
  | notRead p refid got process hpc => rw [hpc] at h; exact h
  | read p refid got process hpc => rw [hpc] at h; exact h
  | tested p refid ok hpc =>
      rw [hpc] at h
      show Pc.Fits refid' _ (if _ then _ else _)
      split
      next hback => exact h.trans hback.2
      next => exact h
  | stopped p refid hpc =>
      rw [hpc] at h
      exact ⟨x.refid_stop.trans h, x.process_stop⟩

/-! ## Steps -/

/-- The cohort depends on the starts and on the generation of each proxy only. -/
theorem Cohort.same {pool' : Pool} (h : Cohort s pool) (hstarters : s'.starters = s.starters)
    (hnext : s'.nextProxy = s.nextProxy)
    (hrefid : ∀ p, (s'.proxies p).refid = (s.proxies p).refid) (hpool : pool'.refid = pool.refid)
    (hrequested : pool'.requested = pool.requested) : Cohort s' pool' := by
  cases h with
  | making u old hspc hother hnone =>
      refine .making u old (by rw [hstarters, hpool, hrequested]; exact hspc)
        (by rw [hstarters]; exact hother) fun p hp => ?_
      rw [hrefid, hpool]
      exact hnone p (hnext ▸ hp)
  | made first hinactive hbound hiff =>
      refine .made first (by rw [hstarters]; exact hinactive)
        (by rw [hrequested, hnext]; exact hbound) fun p hp => ?_
      rw [hrefid, hpool, hrequested]
      exact hiff p (hnext ▸ hp)

/-- A call that had a proxy and has it no more, or has one it had not. -/
theorem Kept.setSender (h : Kept s pool) {t : Nat} {snd : Sender} {idle : List Nat}
    (hidle : ∀ p ∈ idle, (s.proxies p).refid = pool.refid)
    (hlatest : ∀ p, (s.proxies p).refid = pool.refid →
      p ∈ pool.idle ∨ (s.senders t).pc.held = some p → p ∈ idle ∨ snd.pc.held = some p)
    (hold : ∀ p, (s.proxies p).refid ≠ pool.refid → (s.proxies p).process.isSome →
      (s.senders t).pc.held = some p → snd.pc.held = some p)
    (hfits : ∀ p, snd.pc.held = some p → snd.pc.Fits pool.refid (s.proxies p)) :
    Kept ((s.setIdle pool idle).setSender t snd) { pool with idle := idle } := by
  have hheld : ∀ t' p, t' ≠ t → (s.senders t').pc.held = some p →
      (update s.senders t snd t').pc.held = some p := by
    intro t' p ht hp
    rwa [update_of_ne ht]
  have hself : ∀ p, snd.pc.held = some p → (update s.senders t snd t).pc.held = some p := by
    intro p hp
    rwa [update_self]
  refine ⟨h.refid, hidle, h.cohort.same rfl rfl (fun _ => rfl) rfl rfl, fun p hp hrefid => ?_,
    fun p hp hrefid hrunning => ?_, fun t' p hp => ?_⟩
  · rcases h.latest p hp hrefid with hmem | ⟨t', ht'⟩
    · exact (hlatest p hrefid (Or.inl hmem)).imp id fun hp => ⟨t, hself p hp⟩
    · by_cases ht : t' = t
      · subst ht
        exact (hlatest p hrefid (Or.inr ht')).imp id fun hp => ⟨t', hself p hp⟩
      · exact Or.inr ⟨t', hheld t' p ht ht'⟩
  · rcases h.old p hp hrefid hrunning with ⟨t', ht'⟩ | hold'
    · by_cases ht : t' = t
      · subst ht
        exact Or.inl ⟨t', hself p (hold p hrefid hrunning ht')⟩
      · exact Or.inl ⟨t', hheld t' p ht ht'⟩
    · exact Or.inr hold'
  · change (update s.senders t snd t').pc.held = some p at hp
    show (update s.senders t snd t').pc.Fits pool.refid (s.proxies p)
    by_cases ht : t' = t
    · subst ht
      rw [update_self] at hp ⊢
      exact hfits p hp
    · rw [update_of_ne ht] at hp ⊢
      exact h.fits t' p hp

/-- The pool with the idle proxies it has. -/
theorem setIdle_self (hpool : s.pool = some pool) : s.setIdle pool pool.idle = s := by
  show ({ s with pool := some pool } : State σ) = s
  rw [← hpool]

/-- A call without a proxy before or after. -/
theorem Kept.free (h : Kept s pool) (hpool : s.pool = some pool) {t : Nat} {snd : Sender}
    (hlost : ∀ p, (s.senders t).pc.held = some p → (s.proxies p).refid ≠ pool.refid ∧
      (s.proxies p).process = none) (hfree : snd.pc.held = none) :
    Kept (s.setSender t snd) pool := by
  have hkept : Kept ((s.setIdle pool pool.idle).setSender t snd) pool := h.setSender h.idle
    (fun p hrefid hp => hp.imp id fun hp => absurd hrefid (hlost p hp).1)
    (fun p _ hrunning hp => by rw [(hlost p hp).2] at hrunning; exact absurd hrunning (by simp))
    (fun p hp => by rw [hfree] at hp; exact absurd hp (by simp))
  rwa [setIdle_self hpool] at hkept

/-- A call puts its proxy, one of the last start, back. -/
theorem Kept.put (h : Kept s pool) {t p : Nat} {idle : List Nat}
    (hheld : (s.senders t).pc.held = some p) (hrefid : (s.proxies p).refid = pool.refid)
    (hidle : idle.Perm (p :: pool.idle)) :
    Kept ((s.setIdle pool idle).setSender t ((s.senders t).goto .finished))
      { pool with idle := idle } := by
  have hback : p ∈ idle := hidle.mem_iff.mpr List.mem_cons_self
  refine h.setSender (fun q hq => ?_) (fun q _ hq => Or.inl ?_) (fun q hne _ hq => ?_)
    (fun q hq => absurd hq (by simp [Sender.goto, Pc.held]))
  · cases List.mem_cons.mp (hidle.mem_iff.mp hq) with
    | inl heq => exact heq ▸ hrefid
    | inr hmem => exact h.idle q hmem
  · cases hq with
    | inl hmem => exact hidle.mem_iff.mpr (List.mem_cons_of_mem p hmem)
    | inr hq =>
        obtain rfl := Option.some.inj (hheld.symm.trans hq)
        exact hback
  · obtain rfl := Option.some.inj (hheld.symm.trans hq)
    exact absurd hrefid hne

/-- Proxies change that stay where they are, in their generation. -/
theorem Kept.change (h : Kept s pool) (hnext : s'.nextProxy = s.nextProxy)
    (hstarters : s'.starters = s.starters)
    (hrefid : ∀ p, (s'.proxies p).refid = (s.proxies p).refid)
    (hheld : ∀ t, (s'.senders t).pc.held = (s.senders t).pc.held)
    (hrunning : ∀ p, (s'.proxies p).process.isSome →
      (s.proxies p).process.isSome ∨ ∃ t, (s.senders t).pc.held = some p)
    (hfits : ∀ t p, (s.senders t).pc.held = some p →
      (s'.senders t).pc.Fits pool.refid (s'.proxies p)) : Kept s' pool := by
  refine ⟨fun p hp => ?_, fun p hp => ?_, h.cohort.same hstarters hnext hrefid rfl rfl,
    fun p hp hlast => ?_, fun p hp hne hsome => ?_, fun t p hp => hfits t p (hheld t ▸ hp)⟩
  · rw [hrefid]
    exact h.refid p (hnext ▸ hp)
  · rw [hrefid]
    exact h.idle p hp
  · rw [hrefid] at hlast
    exact (h.latest p (hnext ▸ hp) hlast).imp id fun ⟨t, ht⟩ => ⟨t, (hheld t).trans ht⟩
  · rw [hrefid] at hne
    rw [hstarters]
    have hheld' : (∃ t, (s.senders t).pc.held = some p) → ∃ t, (s'.senders t).pc.held = some p :=
      fun ⟨t, ht⟩ => ⟨t, (hheld t).trans ht⟩
    cases hrunning p hsome with
    | inl hsome => exact (h.old p (hnext ▸ hp) hne hsome).imp hheld' id
    | inr ht => exact Or.inl (hheld' ht)

/-- A call changes the proxy in its hands. -/
theorem Kept.hold (h : Kept s pool) {t p : Nat} {x : Proxy σ} {snd : Sender} {n : Int}
    (hplaced : Placed s) (hheld : (s.senders t).pc.held = some p)
    (hmove : Hold tcl host pool.refid (s.proxies p) (s.senders t) n x snd) :
    Kept ((s.setProxy p x).setSender t snd) pool := by
  refine h.change rfl rfl (fun q => ?_) (fun t' => ?_) (fun q hq => ?_) fun t' q hq => ?_
  · show (update s.proxies p x q).refid = _
    by_cases hqp : q = p
    · subst hqp
      rw [update_self]
      exact hmove.proxy.1
    · rw [update_of_ne hqp]
  · show (update s.senders t snd t').pc.held = _
    by_cases ht : t' = t
    · subst ht
      rw [update_self, hheld]
      exact hmove.held_eq hheld
    · rw [update_of_ne ht]
  · change (update s.proxies p x q).process.isSome at hq
    by_cases hqp : q = p
    · exact Or.inr ⟨t, hqp ▸ hheld⟩
    · rw [update_of_ne hqp] at hq
      exact Or.inl hq
  · show (update s.senders t snd t').pc.Fits pool.refid (update s.proxies p x q)
    by_cases ht : t' = t
    · subst ht
      obtain rfl := Option.some.inj (hheld.symm.trans hq)
      rw [update_self, update_self]
      exact hmove.fits (h.fits t' p hheld)
    · rw [update_of_ne ht, update_of_ne (hplaced.sender_ne hheld hq ht)]
      exact h.fits t' q hq

/-- A child takes a step. -/
theorem Kept.child (h : Kept s pool) {p : Nat} {process : Process σ}
    (hprocess : (s.proxies p).process = some process) (process' : Process σ) :
    Kept (s.setProcess p process') pool := by
  have hproxy : ∀ q, ((s.setProcess p process').proxies q).refid = (s.proxies q).refid ∧
      ((s.setProcess p process').proxies q).process.isSome = (s.proxies q).process.isSome := by
    intro q
    show (update s.proxies p _ q).refid = _ ∧ (update s.proxies p _ q).process.isSome = _
    by_cases hqp : q = p
    · subst hqp
      rw [update_self, hprocess]
      exact ⟨rfl, rfl⟩
    · rw [update_of_ne hqp]
      exact ⟨rfl, rfl⟩
  refine h.change rfl rfl (fun q => (hproxy q).1) (fun _ => rfl)
    (fun q hq => Or.inl ((hproxy q).2 ▸ hq)) fun t q hq => ?_
  have hfits := h.fits t q hq
  obtain ⟨hrefid, hsome⟩ := hproxy q
  show (s.senders t).pc.Fits pool.refid _
  unfold Pc.Fits at hfits ⊢
  cases hpc : (s.senders t).pc with
  | stopped q' refid =>
      rw [hpc] at hfits
      rw [hfits.2] at hsome
      exact ⟨hrefid.trans hfits.1, Option.isNone_iff_eq_none.mp (by simpa using hsome)⟩
  | took | writing | reading | tested | stopping | returning =>
      rw [hpc] at hfits
      exact hrefid.trans hfits
  | new | waiting | finished => trivial

/-- A start between its sections is the only one. -/
theorem Kept.making (h : Kept s pool) {u refid nproxies : Nat} {old : List Nat}
    (hspc : s.starters u = .stopping old refid nproxies) :
    refid = pool.refid ∧ nproxies = pool.requested ∧
      (∀ u' ≠ u, (s.starters u').active = false) ∧
      ∀ p < s.nextProxy, (s.proxies p).refid ≠ pool.refid := by
  have hactive : (s.starters u).active = true := by rw [hspc]; rfl
  cases h.cohort with
  | making u' old' hspc' hother hnone =>
      have hu : u = u' := by
        by_contra hne
        exact absurd (hactive.symm.trans (hother u hne)) (by simp)
      subst hu
      obtain ⟨-, rfl, rfl⟩ := Spc.stopping.inj (hspc.symm.trans hspc')
      exact ⟨rfl, rfl, hother, hnone⟩
  | made first hinactive hbound hiff =>
      exact absurd (hactive.symm.trans (hinactive u)) (by simp)

/-- A start stops an old proxy. -/
theorem Kept.stopOld (h : Kept s pool) {u p refid nproxies : Nat} {old : List Nat}
    (hplaced : Placed s) (hspc : s.starters u = .stopping (p :: old) refid nproxies) :
    Kept (s.stopOld u p old refid nproxies) pool := by
  obtain ⟨rfl, rfl, hother, hnone⟩ := h.making hspc
  have hrefid : ∀ q, (update s.proxies p (s.proxies p).stop q).refid = (s.proxies q).refid := by
    intro q
    by_cases hqp : q = p
    · subst hqp
      rw [update_self, Proxy.refid_stop]
    · rw [update_of_ne hqp]
  refine ⟨fun q hq => (hrefid q).le.trans (h.refid q hq),
    fun q hq => (hrefid q).trans (h.idle q hq), .making u old (update_self _ _ _)
    (fun u' hu => ?_) fun q hq => (hrefid q).trans_ne (hnone q hq),
    fun q hq hlast => h.latest q hq ((hrefid q).symm.trans hlast), fun q hq hne hrunning => ?_,
    fun t q hq => ?_⟩
  · show (update s.starters u _ u').active = false
    rw [update_of_ne hu]
    exact hother u' hu
  · change (update s.proxies p _ q).process.isSome at hrunning
    have hqp : q ≠ p := by
      rintro rfl
      rw [update_self, Proxy.process_stop] at hrunning
      exact absurd hrunning (by simp)
    rw [update_of_ne hqp] at hrunning
    refine (h.old q hq (hnone q hq) hrunning).imp id fun ⟨u', hu'⟩ => ⟨u', ?_⟩
    show q ∈ (update s.starters u _ u').old
    by_cases hu : u' = u
    · subst hu
      rw [update_self]
      rw [hspc] at hu'
      exact (List.mem_cons.mp hu').resolve_left hqp
    · rwa [update_of_ne hu]
  · -- the proxy is on the list of the start
    have hqp : q ≠ p := by
      rintro rfl
      refine hplaced.not_mem (q := .starter u) hq (by simp) ?_
      rw [lists_starter hspc]
      exact List.mem_cons_self
    show (s.senders t).pc.Fits _ (update s.proxies p _ q)
    rw [update_of_ne hqp]
    exact h.fits t q hq

/-- A start begins. -/
theorem Kept.begin (h : Kept s pool) (u nproxies : Nat)
    (hactive : ∀ u, (s.starters u).active = false)
    (hpassing : ∀ t, (s.senders t).pc.passing = false) :
    Kept { s with
      pool := some ⟨[], pool.refid + 1, nproxies⟩
      starters := update s.starters u (.stopping pool.idle (pool.refid + 1) nproxies) }
      ⟨[], pool.refid + 1, nproxies⟩ := by
  have hlt : ∀ p < s.nextProxy, (s.proxies p).refid ≠ pool.refid + 1 := by
    intro p hp
    have hle := h.refid p hp
    omega
  refine ⟨fun p hp => (h.refid p hp).trans (Nat.le_succ _), fun p hp => absurd hp List.not_mem_nil,
    .making u pool.idle (update_self _ _ _) (fun u' hu => ?_) hlt,
    fun p hp hlast => absurd hlast (hlt p hp), fun p hp _ hrunning => ?_, fun t p hp => ?_⟩
  · show (update s.starters u _ u').active = false
    rw [update_of_ne hu]
    exact hactive u'
  · -- an idle proxy of the last start is now on the list of this one
    by_cases hlast : (s.proxies p).refid = pool.refid
    · refine (h.latest p hp hlast).symm.imp id fun hmem => ⟨u, ?_⟩
      show p ∈ (update s.starters u _ u).old
      rw [update_self]
      exact hmem
    · refine (h.old p hp hlast hrunning).imp id fun ⟨u', hu'⟩ => ?_
      rw [old_of_inactive (hactive u')] at hu'
      exact absurd hu' List.not_mem_nil
  · have hfits := h.fits t p hp
    have hpassing := hpassing t
    show (s.senders t).pc.Fits (pool.refid + 1) (s.proxies p)
    cases hpc : (s.senders t).pc with
    | returning q => rw [hpc] at hpassing; exact absurd hpassing (by simp [Pc.passing])
    | took | writing | reading | tested | stopping | stopped => rw [hpc] at hfits; exact hfits
    | new | waiting | finished => trivial

/-- The first start begins. -/
theorem kept_first (hplaced : Placed s) (hnone : s.nextProxy = 0) (u nproxies : Nat)
    (hactive : ∀ u, (s.starters u).active = false) :
    Kept { s with
      pool := some ⟨[], 0, nproxies⟩
      starters := update s.starters u (.stopping [] 0 nproxies) } ⟨[], 0, nproxies⟩ := by
  have hno : ∀ p, ¬ p < s.nextProxy := by
    intro p
    omega
  refine ⟨fun p hp => absurd hp (hno p), fun p hp => absurd hp List.not_mem_nil,
    .making u [] (update_self _ _ _) (fun u' hu => ?_) fun p hp => absurd hp (hno p),
    fun p hp => absurd hp (hno p), fun p hp => absurd hp (hno p), fun t p hp => ?_⟩
  · show (update s.starters u _ u').active = false
    rw [update_of_ne hu]
    exact hactive u'
  · exact absurd (hplaced.fresh (.sender t) p (mem_lists_sender hp)) (hno p)

/-- A start puts its proxies into the pool. -/
theorem Kept.finish (h : Kept s pool) {u refid nproxies : Nat} (hplaced : Placed s)
    (hpool : s.pool = some pool) (hspc : s.starters u = .stopping [] refid nproxies) :
    Kept (s.endStart u refid nproxies pool)
      { pool with idle := List.range' s.nextProxy nproxies ++ pool.idle } := by
  obtain ⟨rfl, rfl, hother, hnone⟩ := h.making hspc
  have hnew : ∀ p, s.nextProxy ≤ p → p < s.nextProxy + pool.requested →
      (s.endStart u pool.refid pool.requested pool).proxies p = ⟨none, pool.refid, false, 0, 0⟩ :=
    fun p hle hlt => if_pos ⟨hle, hlt⟩
  have hold : ∀ p < s.nextProxy,
      (s.endStart u pool.refid pool.requested pool).proxies p = s.proxies p :=
    fun p hp => if_neg (by omega)
  have hstarter : ∀ u' ≠ u, (s.endStart u pool.refid pool.requested pool).starters u' =
      s.starters u' := fun u' hu => update_of_ne hu _ _
  have hfinished : (s.endStart u pool.refid pool.requested pool).starters u = .finished :=
    update_self _ _ _
  refine ⟨fun p hp => ?_, fun p hp => ?_, .made s.nextProxy (fun u' => ?_) (le_refl _)
    fun p hp => ?_, fun p hp hlast => ?_, fun p hp hne hrunning => ?_, fun t p hp => ?_⟩
  · by_cases hlt : p < s.nextProxy
    · rw [hold p hlt]
      exact h.refid p hlt
    · rw [hnew p (by omega) hp]
  · cases List.mem_append.mp hp with
    | inl hmem =>
        have hrange := List.mem_range'_1.mp hmem
        rw [hnew p hrange.1 hrange.2]
    | inr hmem =>
        have hlt := hplaced.fresh .idle p (by rwa [lists_idle hpool])
        rw [hold p hlt]
        exact h.idle p hmem
  · by_cases hu : u' = u
    · rw [hu, hfinished]
      rfl
    · rw [hstarter u' hu]
      exact hother u' hu
  · by_cases hlt : p < s.nextProxy
    · rw [hold p hlt]
      refine ⟨fun hlast => absurd hlast (hnone p hlt), fun hrange => ?_⟩
      omega
    · rw [hnew p (by omega) hp]
      exact ⟨fun _ => ⟨by omega, hp⟩, fun _ => rfl⟩
  · by_cases hlt : p < s.nextProxy
    · rw [hold p hlt] at hlast
      exact absurd hlast (hnone p hlt)
    · exact Or.inl (List.mem_append_left _ (List.mem_range'_1.mpr ⟨by omega, hp⟩))
  · by_cases hlt : p < s.nextProxy
    · rw [hold p hlt] at hrunning
      refine (h.old p hlt (hnone p hlt) hrunning).imp id fun ⟨u', hu'⟩ => ⟨u', ?_⟩
      by_cases hu : u' = u
      · rw [hu, hspc] at hu'
        exact absurd hu' List.not_mem_nil
      · rwa [hstarter u' hu]
    · rw [hnew p (by omega) hp] at hrunning
      exact absurd hrunning (by simp)
  · have hlt := hplaced.fresh (.sender t) p (mem_lists_sender hp)
    rw [hold p hlt]
    exact h.fits t p hp

/-- All proxies are counted after a change of one. -/
theorem Gens.counted_update (h : Gens s) {p : Nat} {x : Proxy σ} (hx : x.Counted) (q : Nat) :
    (update s.proxies p x q).Counted := by
  by_cases hqp : q = p
  · subst hqp
    rwa [update_self]
  · rw [update_of_ne hqp]
    exact h.counted q

/-- A step of a call that does not touch the proxies. -/
theorem Gens.setSender (h : Gens s) {t : Nat} {snd : Sender} {idle : List Nat}
    (hplaced : Placed ((s.setIdle pool idle).setSender t snd))
    (hkept : Kept ((s.setIdle pool idle).setSender t snd) { pool with idle := idle }) :
    Gens ((s.setIdle pool idle).setSender t snd) := by
  refine ⟨hplaced, h.counted, fun pool' hpool' => ?_, fun hnone => ?_⟩
  · obtain rfl := Option.some.inj hpool'
    exact hkept
  · exact absurd hnone (by simp [State.setIdle, State.setSender])

/-- A call that has nothing to lose. -/
theorem Gens.free (h : Gens s) {t : Nat} {snd : Sender} (hplaced : Placed (s.setSender t snd))
    (hlost : ∀ pool ∈ s.pool, ∀ p, (s.senders t).pc.held = some p →
      (s.proxies p).refid ≠ pool.refid ∧ (s.proxies p).process = none)
    (hfree : snd.pc.held = none) : Gens (s.setSender t snd) :=
  ⟨hplaced, h.counted, fun pool hpool => (h.pool pool hpool).free hpool (hlost pool hpool) hfree,
    h.before⟩

/-- **A step keeps the invariant**, if it is not a start that begins too early. -/
theorem effect_gens (h : Gens s) (hapart : Apart s e) (heffect : Effect tcl host s e s') :
    Gens s' := by
  have hplaced := effect_placed h.placed heffect
  cases heffect with
  | without e t snd hpc hpc' hanswer =>
      refine h.free hplaced (fun pool _ p hp => ?_) ?_
      · rcases hpc with hpc | hpc <;> rw [hpc] at hp <;> exact absurd hp (by simp [Pc.held])
      · rcases hpc' with hpc' | hpc' <;> rw [hpc'] <;> rfl
  | take e t snd pool p idle hpool hidle hpc hpc' hanswer =>
      have hkept := h.pool pool hpool
      have hrefid := hkept.idle p (by rw [hidle]; exact List.mem_cons_self)
      have hnone : ∀ q, (s.senders t).pc.held ≠ some q := by
        intro q hq
        rcases hpc with hpc | hpc <;> rw [hpc] at hq <;> exact absurd hq (by simp [Pc.held])
      refine h.setSender hplaced (hkept.setSender (fun q hq => ?_) (fun q _ hq => ?_)
        (fun q _ _ hq => absurd hq (hnone q)) fun q hq => ?_)
      · exact hkept.idle q (by rw [hidle]; exact List.mem_cons_of_mem p hq)
      · rw [hidle, List.mem_cons] at hq
        rw [hpc']
        rcases hq with (rfl | hmem) | hq
        · exact Or.inr rfl
        · exact Or.inl hmem
        · exact absurd hq (hnone q)
      · rw [hpc'] at hq ⊢
        obtain rfl := Option.some.inj hq
        exact hrefid
  | hold t n pool p x snd hpool hheld hmove =>
      refine ⟨hplaced, h.counted_update (hmove.proxy.2 (h.counted p)), fun pool' hpool' => ?_,
        h.before⟩
      obtain rfl := Option.some.inj (hpool.symm.trans hpool')
      exact (h.pool pool hpool).hold h.placed hheld hmove
  | front t n pool p hpool hpc =>
      have hkept := h.pool pool hpool
      have hheld : (s.senders t).pc.held = some p := by rw [hpc]; rfl
      have hfits := hkept.fits t p hheld
      rw [hpc] at hfits
      exact h.setSender hplaced (hkept.put hheld hfits (List.Perm.refl _))
  | back t n pool p hpool hpc =>
      have hkept := h.pool pool hpool
      have hheld : (s.senders t).pc.held = some p := by rw [hpc]; rfl
      have hfits := hkept.fits t p hheld
      rw [hpc] at hfits
      exact h.setSender hplaced
        (hkept.put hheld hfits.1 (List.perm_append_singleton p pool.idle))
  | toss t n pool p refid hpool hpc hrefid =>
      have hheld : (s.senders t).pc.held = some p := by rw [hpc]; rfl
      refine h.free hplaced (fun pool' hpool' q hq => ?_) rfl
      obtain rfl := Option.some.inj (hpool.symm.trans hpool')
      obtain rfl := Option.some.inj (hheld.symm.trans hq)
      have hfits := (h.pool pool hpool).fits t p hheld
      rw [hpc] at hfits
      exact ⟨hfits.1.trans_ne hrefid, hfits.2⟩
  | begin u nproxies hspc =>
      obtain ⟨hactive, hpassing⟩ := hapart
      cases hpool : s.pool with
      | none =>
          have hstate : s.beginStart u nproxies = { s with
              pool := some ⟨[], 0, nproxies⟩
              starters := update s.starters u (.stopping [] 0 nproxies) } := by
            unfold State.beginStart
            rw [hpool]
          rw [hstate] at hplaced ⊢
          refine ⟨hplaced, h.counted, fun pool' hpool' => ?_, fun hnone => absurd hnone (by simp)⟩
          obtain rfl := Option.some.inj hpool'
          exact kept_first h.placed (h.before hpool) u nproxies hactive
      | some pool =>
          have hstate : s.beginStart u nproxies = { s with
              pool := some ⟨[], pool.refid + 1, nproxies⟩
              starters := update s.starters u
                (.stopping pool.idle (pool.refid + 1) nproxies) } := by
            unfold State.beginStart
            rw [hpool]
          rw [hstate] at hplaced ⊢
          refine ⟨hplaced, h.counted, fun pool' hpool' => ?_, fun hnone => absurd hnone (by simp)⟩
          obtain rfl := Option.some.inj hpool'
          exact (h.pool pool hpool).begin u nproxies hactive hpassing
  | stopOld u p old refid nproxies hspc =>
      exact ⟨hplaced, h.counted_update (h.counted p).stop,
        fun pool hpool => (h.pool pool hpool).stopOld h.placed hspc, h.before⟩
  | finish u refid nproxies pool hpool hspc =>
      refine ⟨hplaced, fun p => ?_, fun pool' hpool' => ?_, fun hnone => ?_⟩
      · show (if s.nextProxy ≤ p ∧ p < s.nextProxy + nproxies then _ else _ : Proxy σ).Counted
        split
        · rfl
        · exact h.counted p
      · obtain rfl := Option.some.inj hpool'
        exact (h.pool pool hpool).finish h.placed hpool hspc
      · exact absurd hnone (by simp [State.endStart])
  | child e p process process' hprocess hmove =>
      exact ⟨hplaced, h.counted_update ((h.counted p).process hprocess process' _),
        fun pool hpool => (h.pool pool hpool).child hprocess process', h.before⟩

/-- Nothing was started. -/
theorem gens_init : Gens (State.init σ) :=
  ⟨placed_init, fun _ => rfl, fun pool hpool => absurd hpool (by simp [State.init]), fun _ => rfl⟩

/-- **With no call in progress the pool has the proxies of the last start, as many as it asked for,
and those of earlier starts were stopped**, in every run in which no start begins before another
has ended, or while a call has tested the `refid` and not yet put its proxy back. -/
theorem generations_settled (tcl : Eval σ) (host : TclExport.Order) {es : List Event} {s : State σ}
    (hrun : run (State.next tcl host) (State.init σ) es = some s)
    (hapart : Along (State.next tcl host) Apart (State.init σ) es) (hidle : s.Idle) :
    ∀ pool ∈ s.pool, Settled s pool := by
  have hgens : Gens s := by
    refine run_invariant (fun s e s' h hok hstep => ?_) gens_init hapart hrun
    exact effect_gens h hok (next_effect hstep)
  exact fun pool hpool => hgens.settled hidle hpool

/-- A pool of one, a call whose write fails, and a pool of two. -/
def twoPools : List Event :=
  [.start 0 1, .startStep 0, .send 0 (short [65]), .step 0 0, .step 0 (-1), .step 0 0, .step 0 0,
    .step 0 0, .start 1 2, .startStep 1, .startStep 1]

/-- The second start begins with no other under way. -/
theorem apart_twoPools :
    Along (State.next echo .little) Apart (State.init Unit) twoPools := by
  refine .cons ⟨fun _ => rfl, fun _ => rfl⟩ rfl (.cons trivial rfl (.cons trivial rfl
    (.cons trivial rfl (.cons trivial rfl (.cons trivial rfl (.cons trivial rfl
    (.cons trivial rfl (.cons ⟨fun u => ?_, fun t => ?_⟩ rfl (.cons trivial rfl
    (.cons trivial rfl trivial))))))))))
  · cases u <;> rfl
  · cases t <;> rfl

/-- The pool of two is settled. -/
theorem generations_settled_two :
    ∃ s, run (State.next echo .little) (State.init Unit) twoPools = some s ∧
      ∀ pool ∈ s.pool, Settled s pool := by
  refine ⟨_, rfl, generations_settled echo .little (by rfl) apart_twoPools
    ⟨fun t => ?_, fun u => ?_⟩⟩
  · cases t with
    | zero => exact Or.inr rfl
    | succ t => exact Or.inl rfl
  · rcases u with _ | _ | u <;> rfl

/-- A start between the test of a call and its proxy being put back. -/
def lateReturn : List Event :=
  [.start 0 1, .startStep 0, .send 0 (short [65]), .step 0 0, .step 0 5, .childRead 0 5,
    .childWrite 0 17, .step 0 16, .step 0 1, .step 0 0, .step 0 0, .start 1 1, .startStep 1,
    .step 0 0]

/-- A start before the end of another. -/
def twoStarts : List Event := [.start 0 1, .start 1 2, .startStep 0, .startStep 1]

/-- The pool keeps a running proxy of the start before the last, or has the proxies of two. -/
theorem old_proxy_idle :
    (∃ s, run (State.next echo .little) (State.init Unit) lateReturn = some s ∧ s.Idle ∧
      ∃ pool ∈ s.pool, 0 ∈ pool.idle ∧ (s.proxies 0).process.isSome ∧ ¬ Settled s pool) ∧
    ∃ s, run (State.next echo .little) (State.init Unit) twoStarts = some s ∧ s.Idle ∧
      ∃ pool ∈ s.pool, pool.idle.length = 3 ∧ pool.requested = 2 ∧ ¬ Settled s pool := by
  refine ⟨⟨_, rfl, ⟨fun t => ?_, fun u => ?_⟩, _, rfl, ?_, rfl, fun h => ?_⟩,
    ⟨_, rfl, ⟨fun t => ?_, fun u => ?_⟩, _, rfl, rfl, rfl, fun h => ?_⟩⟩
  · cases t with
    | zero => exact Or.inr rfl
    | succ t => exact Or.inl rfl
  · rcases u with _ | _ | u <;> rfl
  · exact List.mem_cons_self
  · exact absurd h.count (by decide +kernel)
  · exact Or.inl rfl
  · rcases u with _ | _ | u <;> rfl
  · exact absurd h.count (by decide +kernel)

end Nsdci.Proxies
