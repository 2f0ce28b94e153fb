import Nsdci.RpcPool
import Nsdci.Lib.Permits

/-!
# What a step does to the counts

A step of the pool is a move of `Permits`: `httpAvail` is the counter, the open HTTP connections are
the permits in use, and a thread that connects has asked for one. `nsocks` is right after every step
if it was before (`step_effect`).
-/

namespace Nsdci.RpcPool

open Lib

/-! ## The counts -/

/-- The connections of a thread, with the one that it polls. -/
def Thread.opened (t : Thread) : List Conn :=
  match t.pc with
  | .poll conn _ => conn :: t.conns
  | _ => t.conns

namespace State

variable (s : State)

/-- The connections of the client with a property: the idle ones, those that `RpcAccept` looks at,
and those of the threads. -/
def count (p : Conn → Bool) : Nat :=
  s.firstPtr.countP p + (s.sweep.getD []).countP p + sumOf (fun t => t.opened.countP p) s.threads

/-- The open HTTP connections. -/
def https : Nat := s.count Conn.http

/-- The threads that connect. -/
def connecting : Nat := s.threads.countP fun t => t.pc = .connect

/-- The HTTP connections as permits. -/
def permits : Permits := ⟨s.httpAvail, s.https, s.connecting⟩

/-- `nsocks` is the number of connections. -/
def Socks : Prop := s.nsocks = s.count fun _ => true

/-- There is a permit for another HTTP connection, if `RpcGet` would make one. -/
def Room (cfg : Config) : Prop := cfg.host = true → (s.connecting : Int) < s.httpAvail

end State

/-- **`RpcGet` goes on to connect only if `httpAvail` is larger than the number of threads that
connect already.** -/
def Thread.Fits (cfg : Config) (s : State) (t : Thread) : Act → Prop
  | .get => t.pc = .gets → s.firstPtr = [] → s.waits .ok = false → s.Room cfg
  | .woken status => t.pc = .wait → s.firstPtr = [] → s.waits status = false → s.Room cfg
  | .polled dropped => dropped = true → ∀ conn status, t.pc = .poll conn status →
      (s.closed conn).waits status = false → (s.closed conn).Room cfg
  | _ => True

/-- **And `RpcAccept` finds no HTTP connection dropped.** -/
def Fits (cfg : Config) (s : State) : Event → Prop
  | .move i act => ∀ t, s.threads[i]? = some t → t.Fits cfg s act
  | .swept dropped => ∀ conns, s.sweep = some conns →
      ∀ conn n, conns[n]? = some conn → dropped n = true → conn.http = false
  | _ => True

/-! ## Threads -/

variable {s : State} {i : Nat} {t : Thread}

theorem count_set (ht : s.threads[i]? = some t) (t' : Thread) (p : Conn → Bool) :
    (s.set i t').count p + t.opened.countP p = s.count p + t'.opened.countP p := by
  have hsum := sumOf_set (fun t => t.opened.countP p) ht t'
  show s.firstPtr.countP p + (s.sweep.getD []).countP p + sumOf _ (s.threads.set i t') + _ = _
  unfold State.count
  omega

theorem connecting_set (ht : s.threads[i]? = some t) (t' : Thread) :
    (s.set i t').connecting + (if t.pc = .connect then 1 else 0) =
      s.connecting + if t'.pc = .connect then 1 else 0 := by
  have hsum := sumOf_set (fun t => if t.pc = .connect then 1 else 0) ht t'
  have hcount (l : List Thread) : l.countP (fun t => t.pc = .connect) =
      sumOf (fun t => if t.pc = .connect then 1 else 0) l := by
    rw [← sumOf_eq_countP]
    exact sumOf_congr fun t _ => by simp
  show (s.threads.set i t').countP _ + _ = s.threads.countP _ + _
  rw [hcount, hcount]
  exact hsum

/-- `RpcGet` has done something with what it had in hand: the thread is left with its connections,
and it connects or not. -/
structure Handled (s s' : State) (t : Thread) (connects : Prop) [Decidable connects] : Prop where
  count : ∀ p, s'.count p + t.opened.countP p = s.count p + t.conns.countP p
  httpAvail : s'.httpAvail = s.httpAvail
  nsocks : s'.nsocks = s.nsocks
  connecting : s'.connecting = s.connecting + if connects then 1 else 0

/-- The thread does not connect. -/
theorem handled_set (ht : s.threads[i]? = some t) (hpc : t.pc ≠ .connect) {t' : Thread}
    (hpc' : t'.pc ≠ .connect) (hopened : t'.opened = t.conns) {connects : Prop}
    [Decidable connects] (hnot : ¬connects) : Handled s (s.set i t') t connects := by
  refine ⟨fun p => hopened ▸ count_set ht t' p, rfl, rfl, ?_⟩
  have hconnecting := connecting_set ht t'
  rw [if_neg hpc, if_neg hpc'] at hconnecting
  rw [if_neg hnot]
  exact hconnecting

theorem handled_connect (cfg : Config) (ht : s.threads[i]? = some t) (hpc : t.pc ≠ .connect) :
    Handled s (s.connect cfg i t) t (cfg.host = true) := by
  unfold State.connect
  split_ifs with hhost
  · refine ⟨fun p => count_set ht _ p, rfl, rfl, ?_⟩
    have hconnecting := connecting_set ht { t with pc := .connect }
    rw [if_neg hpc, if_pos rfl] at hconnecting
    rw [if_pos hhost]
    exact hconnecting
  · exact handled_set ht hpc (by simp) (List.append_nil _) hhost

/-- **`RpcGet` from `RpcPop` on.** -/
theorem handled_search (cfg : Config) (ht : s.threads[i]? = some t) (hpc : t.pc ≠ .connect)
    (status : Status) : Handled s (s.search cfg i t status) t
      (s.firstPtr = [] ∧ s.waits status = false ∧ cfg.host = true) := by
  unfold State.search
  split
  · rename_i conn rest hfirst
    have hne : ¬(s.firstPtr = [] ∧ s.waits status = false ∧ cfg.host = true) := by
      rw [hfirst]
      exact fun h => nomatch h.1
    have hpopped : { s with firstPtr := rest }.threads[i]? = some t := ht
    have hcount := count_set hpopped { t with pc := .poll conn status }
    have hconnecting := connecting_set hpopped { t with pc := .poll conn status }
    refine ⟨fun p => ?_, rfl, rfl, ?_⟩
    · have hp := hcount p
      have hs : s.count p = { s with firstPtr := rest }.count p + if p conn then 1 else 0 := by
        unfold State.count
        rw [hfirst, List.countP_cons]
        dsimp only
        omega
      have ht' : Thread.opened { t with pc := .poll conn status } = conn :: t.conns := rfl
      rw [ht', List.countP_cons] at hp
      omega
    · rw [if_neg hpc, if_neg (by simp)] at hconnecting
      rw [if_neg hne]
      exact hconnecting
  · rename_i hfirst
    split_ifs with hwaits
    · exact handled_set ht hpc (by simp) rfl fun h => absurd (h.2.1.symm.trans hwaits) (by simp)
    · have hconnect := handled_connect cfg ht hpc
      refine ⟨hconnect.count, hconnect.httpAvail, hconnect.nsocks, hconnect.connecting.trans ?_⟩
      simp [hfirst, hwaits]

/-! ## Steps -/

/-- A step that is a move of the permits, and counts the connections in `nsocks`. -/
structure Effect (s s' : State) (m : Permits.Move) : Prop where
  permits : s'.permits = s.permits.after m
  nsocks : s'.nsocks - s'.count (fun _ => true) = s.nsocks - s.count fun _ => true

theorem permits_eq {p : Permits} (havail : s.httpAvail = p.avail) (hused : (s.https : Int) = p.used)
    (hasked : (s.connecting : Int) = p.asked) : s.permits = p := by
  obtain ⟨avail, used, asked⟩ := p
  obtain rfl := havail
  obtain rfl := hused
  obtain rfl := hasked
  rfl

/-- The move in which permits are given back, and one is asked for or not. -/
def giveMove (k : Nat) (connects : Prop) [Decidable connects] : Permits.Move :=
  if connects then .ask k else .give k

theorem giveMove_fits (k : Nat) (connects : Prop) [Decidable connects] (p : Permits) :
    (giveMove k connects).Fits p ↔ (connects → p.asked < p.avail + k) := by
  unfold giveMove
  split_ifs with h
  · exact ⟨fun hfits _ => hfits, fun hfits => hfits h⟩
  · exact iff_of_true trivial fun hc => absurd hc h

/-- Permits are given back. -/
theorem effect_give {s' : State} {k : Nat} {connects : Prop} [Decidable connects]
    (hhttps : s'.https + k = s.https) (havail : s'.httpAvail = s.httpAvail + k)
    (hnsocks : s'.nsocks - s'.count (fun _ => true) = s.nsocks - s.count fun _ => true)
    (hconnecting : s'.connecting = s.connecting + if connects then 1 else 0) :
    Effect s s' (giveMove k connects) := by
  have hused : (s'.https : Int) = s.https - k := by omega
  refine ⟨?_, hnsocks⟩
  unfold giveMove
  split_ifs at hconnecting ⊢ with hconnects
  · exact permits_eq havail hused (congrArg Nat.cast hconnecting)
  · exact permits_eq havail hused (congrArg Nat.cast hconnecting)

/-- How many permits a connection has. -/
def Conn.held (conn : Conn) : Nat := if conn.http then 1 else 0

/-- A connection is closed. -/
theorem effect_closed {s' : State} {conn : Conn} {connects : Prop} [Decidable connects]
    (hcount : ∀ p, s'.count p + (if p conn then 1 else 0) = s.count p)
    (havail : s'.httpAvail = (s.closed conn).httpAvail)
    (hnsocks : s'.nsocks = (s.closed conn).nsocks)
    (hconnecting : s'.connecting = s.connecting + if connects then 1 else 0) :
    Effect s s' (giveMove conn.held connects) := by
  have hall := hcount fun _ => true
  rw [if_pos rfl] at hall
  refine effect_give (hcount Conn.http) (havail.trans ?_) ?_ hconnecting
  · show s.httpAvail + _ = s.httpAvail + _
    rw [Conn.held]
    split_ifs <;> rfl
  · rw [hnsocks]
    show s.nsocks - 1 - _ = _
    omega

/-- `RpcGet` goes on with nothing in hand. -/
theorem Handled.effect {s' : State} {connects : Prop} [Decidable connects]
    (h : Handled s s' t connects) (hopened : t.opened = t.conns) :
    Effect s s' (giveMove 0 connects) := by
  have hcount (p : Conn → Bool) : s'.count p = s.count p := by
    have hp := h.count p
    rw [hopened] at hp
    omega
  refine effect_give (hcount Conn.http) (h.httpAvail.trans (Int.add_zero _).symm) ?_ h.connecting
  rw [hcount, h.nsocks]

/-- `RpcGet` goes on when the connection that it has polled is dropped. -/
theorem Handled.effect_dropped {s' : State} {conn : Conn} {connects : Prop} [Decidable connects]
    (h : Handled (s.closed conn) s' t connects) (hopened : t.opened = conn :: t.conns) :
    Effect s s' (giveMove conn.held connects) := by
  refine effect_closed (fun p => ?_) h.httpAvail h.nsocks h.connecting
  have hp : s'.count p + t.opened.countP p = s.count p + t.conns.countP p := h.count p
  rw [hopened, List.countP_cons] at hp
  omega

/-- A thread that does not connect has the same connections, whatever else it does. -/
theorem effect_set (ht : s.threads[i]? = some t) {t' : Thread} (hpc : t.pc ≠ .connect)
    (hpc' : t'.pc ≠ .connect) (hcount : ∀ p, t'.opened.countP p = t.opened.countP p) :
    Effect s (s.set i t') (giveMove 0 False) := by
  have hsame (p : Conn → Bool) : (s.set i t').count p = s.count p := by
    have hp := count_set ht t' p
    rw [hcount] at hp
    omega
  have hconnecting := connecting_set ht t'
  rw [if_neg hpc, if_neg hpc'] at hconnecting
  refine effect_give (hsame Conn.http) (Int.add_zero _).symm ?_ hconnecting
  rw [hsame]
  rfl

theorem opened_of_back (hpc : t.pc = .puts ∨ t.pc = .ends) : t.opened = t.conns := by
  unfold Thread.opened
  rcases hpc with h | h
  · rw [h]
  · rw [h]

/-- A thread gives back its first connection. -/
theorem connecting_rest (ht : s.threads[i]? = some t) (conns : List Conn) :
    (s.set i { t with conns := conns }).connecting = s.connecting :=
  Nat.add_right_cancel (connecting_set ht { t with conns := conns })

/-- The connection is closed. -/
theorem effect_rest (ht : s.threads[i]? = some t) (hpc : t.pc = .puts ∨ t.pc = .ends)
    {conn : Conn} {conns : List Conn} (hconns : t.conns = conn :: conns) :
    Effect s ((s.closed conn).set i { t with conns := conns }) (giveMove conn.held False) := by
  have hclosed : (s.closed conn).threads[i]? = some t := ht
  refine effect_closed (fun p => ?_) rfl rfl (connecting_rest hclosed conns)
  have hp : ((s.closed conn).set i { t with conns := conns }).count p + t.opened.countP p =
      s.count p + (Thread.opened { t with conns := conns }).countP p := count_set hclosed _ p
  have hrest : Thread.opened { t with conns := conns } = conns := opened_of_back hpc
  rw [hrest, opened_of_back hpc, hconns, List.countP_cons] at hp
  omega

/-- **`RpcPut`.** The connection may have another `keep`. -/
theorem effect_put (ht : s.threads[i]? = some t) (hpc : t.pc = .puts ∨ t.pc = .ends)
    {conn conn' : Conn} {conns : List Conn} (hconns : t.conns = conn :: conns)
    (hhttp : conn'.http = conn.http) :
    ∃ k, Effect s ((s.rpcPut conn').set i { t with conns := conns }) (giveMove k False) := by
  unfold State.rpcPut
  split_ifs
  · have hpush : (s.rpcPush conn').threads[i]? = some t := ht
    have hrest : Thread.opened { t with conns := conns } = conns := opened_of_back hpc
    have hcount (p : Conn → Bool) (hp : p conn' = p conn) :
        ((s.rpcPush conn').set i { t with conns := conns }).count p = s.count p := by
      have hset := count_set hpush { t with conns := conns } p
      have hpushed : (s.rpcPush conn').count p = s.count p + if p conn then 1 else 0 := by
        unfold State.count State.rpcPush
        dsimp only
        rw [List.countP_append, List.countP_singleton, hp]
        omega
      rw [hrest, opened_of_back hpc, hconns, List.countP_cons, hpushed] at hset
      omega
    refine ⟨0, effect_give (hcount Conn.http hhttp) (Int.add_zero _).symm ?_
      (connecting_rest hpush conns)⟩
    rw [hcount _ rfl]
    rfl
  · have hsame : s.closed conn' = s.closed conn := by
      unfold State.closed
      rw [hhttp]
    rw [hsame]
    exact ⟨conn.held, effect_rest ht hpc hconns⟩

/-- `RpcGet` has connected, or has failed to. -/
theorem effect_connected (ht : s.threads[i]? = some t) (hpc : t.pc = .connect) (sock : Option Nat) :
    Effect s (s.connected i t sock) (if sock.isSome then .take else .refuse) := by
  have hopened : t.opened = t.conns := by
    unfold Thread.opened
    rw [hpc]
  cases sock with
  | none =>
      have hcount (p : Conn → Bool) : (s.got i t none).count p = s.count p := by
        have hp : (s.got i t none).count p + t.opened.countP p =
            s.count p + (t.conns ++ []).countP p := count_set ht _ p
        rw [hopened, List.append_nil] at hp
        exact Nat.add_right_cancel hp
      have hconnecting := connecting_set ht ⟨.gets, t.conns ++ [], t.all && false⟩
      rw [if_pos hpc, if_neg (by simp)] at hconnecting
      refine ⟨permits_eq rfl ?_ ?_, ?_⟩
      · exact congrArg Nat.cast (hcount Conn.http)
      · show ((s.got i t none).connecting : Int) = s.connecting - 1
        have hgot : (s.got i t none).connecting + 1 = s.connecting := hconnecting
        omega
      · show s.nsocks - (s.got i t none).count _ = _
        rw [hcount]
  | some sock =>
      have hcount (p : Conn → Bool) : (s.connected i t (some sock)).count p =
          s.count p + if p (Conn.mk sock true false) then 1 else 0 := by
        have hp : (s.connected i t (some sock)).count p + t.opened.countP p =
            s.count p + (t.conns ++ [Conn.mk sock true false]).countP p := count_set ht _ p
        rw [hopened, List.countP_append, List.countP_singleton] at hp
        omega
      have hconnecting := connecting_set ht ⟨.gets, t.conns ++ [⟨sock, true, false⟩], t.all && true⟩
      rw [if_pos hpc, if_neg (by simp)] at hconnecting
      refine ⟨permits_eq rfl ?_ ?_, ?_⟩
      · exact congrArg Nat.cast (hcount Conn.http)
      · show ((s.connected i t (some sock)).connecting : Int) = s.connecting - 1
        have hgot : (s.connected i t (some sock)).connecting + 1 = s.connecting := hconnecting
        omega
      · rw [hcount, if_pos rfl]
        show s.nsocks + 1 - _ = _
        omega

/-- `RpcGet` looks for a connection with nothing in hand. -/
theorem effect_search (cfg : Config) (ht : s.threads[i]? = some t)
    (hpc : t.pc = .gets ∨ t.pc = .wait) (status : Status) :
    ∃ m, Effect s (s.search cfg i t status) m ∧
      (m.Fits s.permits ↔ (s.firstPtr = [] → s.waits status = false → s.Room cfg)) := by
  have hne : t.pc ≠ .connect := by
    rcases hpc with h | h
    · simp [h]
    · simp [h]
  have hopened : t.opened = t.conns := by
    unfold Thread.opened
    rcases hpc with h | h
    · rw [h]
    · rw [h]
  refine ⟨_, (handled_search cfg ht hne status).effect hopened, (giveMove_fits _ _ _).trans ?_⟩
  have hroom : s.permits.asked < s.permits.avail + (0 : Nat) ↔
      (s.connecting : Int) < s.httpAvail := by
    rw [Int.natCast_zero, Int.add_zero]
    rfl
  rw [hroom]
  exact ⟨fun h hfirst hwaits hhost => h ⟨hfirst, hwaits, hhost⟩, fun h hc => h hc.1 hc.2.1 hc.2.2⟩

/-- `RpcGet` goes on after the connection was dropped. -/
theorem effect_dropped (cfg : Config) (ht : s.threads[i]? = some t) {conn : Conn} {status : Status}
    (hpc : t.pc = .poll conn status) :
    ∃ m, Effect s (s.dropped cfg i t conn status) m ∧ (m.Fits s.permits ↔
      ((s.closed conn).waits status = false → (s.closed conn).Room cfg)) := by
  have hne : t.pc ≠ .connect := by simp [hpc]
  have hopened : t.opened = conn :: t.conns := by rw [Thread.opened, hpc]
  have hclosed : (s.closed conn).threads[i]? = some t := ht
  have hroom : s.permits.asked < s.permits.avail + conn.held ↔
      (s.connecting : Int) < (s.closed conn).httpAvail := by
    have heq : s.permits.avail + (conn.held : Int) = (s.closed conn).httpAvail := by
      show s.httpAvail + _ = s.httpAvail + _
      rw [Conn.held]
      split_ifs <;> rfl
    rw [heq]
    rfl
  cases hwaits : (s.closed conn).waits status with
  | true =>
      have heq : s.dropped cfg i t conn status = (s.closed conn).search cfg i t status :=
        if_pos hwaits
      rw [heq]
      refine ⟨_, (handled_search cfg hclosed hne status).effect_dropped hopened, ?_⟩
      rw [giveMove_fits]
      exact iff_of_true (fun h => absurd (hwaits.symm.trans h.2.1) (by simp)) (by simp)
  | false =>
      have heq : s.dropped cfg i t conn status = (s.closed conn).connect cfg i t :=
        if_neg (by simp [hwaits])
      rw [heq]
      refine ⟨_, (handled_connect cfg hclosed hne).effect_dropped hopened, ?_⟩
      rw [giveMove_fits, hroom]
      exact ⟨fun h _ => h, fun h => h rfl⟩

/-- `RpcGet` has a connection that is not dropped. -/
theorem effect_got (ht : s.threads[i]? = some t) {conn : Conn} {status : Status}
    (hpc : t.pc = .poll conn status) : Effect s (s.got i t (some conn)) (giveMove 0 False) := by
  have hopened : t.opened = conn :: t.conns := by rw [Thread.opened, hpc]
  refine effect_set ht (by simp [hpc]) Pc.noConfusion fun p => ?_
  rw [hopened]
  show (t.conns ++ [conn]).countP p = _
  rw [List.countP_append, List.countP_singleton, List.countP_cons]

/-- **A step of a thread.** -/
theorem thread_effect (cfg : Config) (ht : s.threads[i]? = some t) {act : Act} {s' : State}
    (hstep : t.step cfg s i act = some s') :
    ∃ m, Effect s s' m ∧ (m.Fits s.permits ↔ t.Fits cfg s act) := by
  have hset {pc : Pc} (hpc : t.pc = .gets) (hpc' : pc = .ends ∨ pc = .puts) :
      Effect s (s.set i { t with pc := pc }) (giveMove 0 False) := by
    have hopened : t.opened = t.conns := by rw [Thread.opened, hpc]
    have hopened' : Thread.opened { t with pc := pc } = t.conns := opened_of_back hpc'.symm
    refine effect_set ht (by simp [hpc]) ?_ fun p => by rw [hopened, hopened']
    rintro rfl
    exact nomatch hpc'
  have hfree (k : Nat) : (giveMove k False).Fits s.permits ↔ True :=
    iff_of_true ((giveMove_fits k False _).mpr False.elim) trivial
  cases act with
  | get =>
      obtain ⟨hpc, heq⟩ := Option.ite_none_right_eq_some.mp hstep
      obtain rfl := Option.some.inj heq
      obtain ⟨m, heffect, hfits⟩ := effect_search cfg ht (.inl hpc) .ok
      exact ⟨m, heffect, hfits.trans ⟨fun h _ => h, fun h => h hpc⟩⟩
  | woken status =>
      obtain ⟨hpc, heq⟩ := Option.ite_none_right_eq_some.mp hstep
      obtain rfl := Option.some.inj heq
      obtain ⟨m, heffect, hfits⟩ := effect_search cfg ht (.inr hpc) status
      exact ⟨m, heffect, hfits.trans ⟨fun h _ => h, fun h => h hpc⟩⟩
  | polled dropped =>
      simp only [Thread.step] at hstep
      split at hstep
      · rename_i conn status hpc
        obtain rfl := Option.some.inj hstep
        cases dropped with
        | true =>
            obtain ⟨m, heffect, hfits⟩ := effect_dropped cfg ht hpc
            refine ⟨m, heffect, hfits.trans ⟨fun h _ conn' status' hpc' => ?_, fun h => ?_⟩⟩
            · obtain ⟨rfl, rfl⟩ := Pc.poll.inj (hpc.symm.trans hpc')
              exact h
            · exact h rfl conn status hpc
        | false =>
            refine ⟨_, effect_got ht hpc, (hfree 0).trans ?_⟩
            exact iff_of_true trivial fun h => nomatch h
      · exact nomatch hstep
  | connected sock =>
      obtain ⟨hpc, heq⟩ := Option.ite_none_right_eq_some.mp hstep
      obtain rfl := Option.some.inj heq
      refine ⟨_, effect_connected ht hpc sock, iff_of_true ?_ trivial⟩
      cases sock with
      | none => exact trivial
      | some sock => exact trivial
  | run =>
      obtain ⟨⟨hpc, -⟩, heq⟩ := Option.ite_none_right_eq_some.mp hstep
      obtain rfl := Option.some.inj heq
      exact ⟨_, hset hpc (.inl rfl), hfree 0⟩
  | giveUp =>
      obtain ⟨hpc, heq⟩ := Option.ite_none_right_eq_some.mp hstep
      obtain rfl := Option.some.inj heq
      exact ⟨_, hset hpc (.inr rfl), hfree 0⟩
  | put =>
      simp only [Thread.step] at hstep
      split at hstep
      · rename_i conn conns hpc hconns
        obtain rfl := Option.some.inj hstep
        obtain ⟨k, heffect⟩ := effect_put ht (.inl hpc) hconns rfl
        exact ⟨_, heffect, hfree k⟩
      · exact nomatch hstep
  | completed keep =>
      simp only [Thread.step] at hstep
      split at hstep
      · rename_i conn conns hpc hconns
        obtain rfl := Option.some.inj hstep
        have hhttp : (conn.completed keep).http = conn.http := by
          unfold Conn.completed
          split_ifs <;> rfl
        obtain ⟨k, heffect⟩ := effect_put ht (.inr hpc) hconns hhttp
        exact ⟨_, heffect, hfree k⟩
      · exact nomatch hstep
  | failed =>
      simp only [Thread.step] at hstep
      split at hstep
      · rename_i conn conns hpc hconns
        obtain rfl := Option.some.inj hstep
        exact ⟨_, effect_rest ht (.inr hpc) hconns, hfree _⟩
      · exact nomatch hstep

/-! ## `RpcAccept` -/

/-- The connections that the poll finds dropped. -/
def gone (conns : List Conn) (dropped : Nat → Bool) : List Conn :=
  (conns.zipIdx.filter fun c => dropped c.2).map Prod.fst

theorem mem_gone {conns : List Conn} {dropped : Nat → Bool} {conn : Conn} :
    conn ∈ gone conns dropped ↔ ∃ n, conns[n]? = some conn ∧ dropped n = true := by
  constructor
  · intro h
    obtain ⟨⟨c, n⟩, hc, rfl⟩ := List.mem_map.mp h
    obtain ⟨hmem, hdropped⟩ := List.mem_filter.mp hc
    exact ⟨n, List.mem_zipIdx_iff_getElem?.mp hmem, hdropped⟩
  · rintro ⟨n, hget, hdropped⟩
    refine List.mem_map.mpr ⟨(conn, n), List.mem_filter.mpr ⟨?_, hdropped⟩, rfl⟩
    exact List.mem_zipIdx_iff_getElem?.mpr hget

/-- What is dropped and what is not are all. -/
theorem count_swept {conns : List Conn} (hsweep : s.sweep = some conns) (dropped : Nat → Bool)
    (p : Conn → Bool) :
    (s.swept conns dropped).count p + (gone conns dropped).countP p = s.count p := by
  have hsplit := List.countP_eq_countP_filter_add conns.zipIdx (p ∘ Prod.fst) fun c => dropped c.2
  have hall : conns.zipIdx.countP (p ∘ Prod.fst) = conns.countP p := by
    rw [← List.countP_map, List.zipIdx_map_fst]
  unfold State.count State.swept gone
  dsimp only
  rw [List.countP_append, List.countP_reverse, List.countP_map, List.countP_map, hsweep,
    Option.getD_none, Option.getD_some, List.countP_nil]
  omega

theorem effect_swept {conns : List Conn} (hsweep : s.sweep = some conns) (dropped : Nat → Bool) :
    Effect s (s.swept conns dropped) (.lose ((gone conns dropped).countP Conn.http)) := by
  have hhttps := count_swept hsweep dropped Conn.http
  have hall := count_swept hsweep dropped fun _ => true
  refine ⟨permits_eq rfl ?_ rfl, ?_⟩
  · show ((s.swept conns dropped).count Conn.http : Int) = s.count Conn.http - _
    omega
  · rw [List.countP_true] at hall
    have hkept : (gone conns dropped).length +
        ((conns.zipIdx.filter fun c => !dropped c.2).map Prod.fst).length = conns.length := by
      have hsplit := List.countP_eq_countP_filter_add conns.zipIdx (fun _ => true)
        fun c => dropped c.2
      simp only [List.countP_true, List.length_zipIdx] at hsplit
      rw [gone, List.length_map, List.length_map]
      exact hsplit.symm
    show s.nsocks - (_ - _ : Nat) - _ = _
    omega

theorem effect_accept (hsweep : s.sweep = none) (sock : Nat) :
    Effect s (s.rpcAccept sock) (giveMove 0 False) := by
  have hcount (p : Conn → Bool) : (s.rpcAccept sock).count p =
      s.count p + if p (Conn.mk sock false false) then 1 else 0 := by
    unfold State.count State.rpcAccept State.rpcPush
    dsimp only
    rw [hsweep, Option.getD_none, Option.getD_some, List.countP_append, List.countP_singleton,
      List.countP_nil]
    omega
  refine effect_give (hcount Conn.http) (Int.add_zero _).symm ?_ rfl
  rw [hcount, if_pos rfl]
  show s.nsocks + 1 - _ = _
  omega

theorem effect_call :
    Effect s { s with threads := s.threads ++ [⟨.gets, [], true⟩] } (giveMove 0 False) := by
  have hcount (p : Conn → Bool) :
      State.count { s with threads := s.threads ++ [⟨.gets, [], true⟩] } p = s.count p := by
    unfold State.count
    dsimp only
    rw [sumOf_append]
    rfl
  have hconnecting : State.connecting { s with threads := s.threads ++ [⟨.gets, [], true⟩] } =
      s.connecting := by
    unfold State.connecting
    dsimp only
    rw [List.countP_append]
    rfl
  refine effect_give (hcount Conn.http) (Int.add_zero _).symm ?_ hconnecting
  rw [hcount]

/-- **A step is a move of the permits, which fits if the step does.** -/
theorem step_effect (cfg : Config) {e : Event} {s' : State} (hstep : step cfg s e = some s') :
    ∃ m, Effect s s' m ∧ (m.Fits s.permits ↔ Fits cfg s e) := by
  have hfree : (giveMove 0 False).Fits s.permits := (giveMove_fits 0 False _).mpr False.elim
  cases e with
  | call =>
      obtain rfl := Option.some.inj hstep
      exact ⟨_, effect_call, iff_of_true hfree trivial⟩
  | move i act =>
      obtain ⟨t, ht, hstep⟩ := Option.bind_eq_some_iff.mp hstep
      obtain ⟨m, heffect, hfits⟩ := thread_effect cfg ht hstep
      refine ⟨m, heffect, hfits.trans ⟨fun h t' ht' => ?_, fun h => h t ht⟩⟩
      obtain rfl := Option.some.inj (ht.symm.trans ht')
      exact h
  | accept sock =>
      obtain ⟨hsweep, heq⟩ := Option.ite_none_right_eq_some.mp hstep
      obtain rfl := Option.some.inj heq
      exact ⟨_, effect_accept (Option.isNone_iff_eq_none.mp hsweep) sock, iff_of_true hfree trivial⟩
  | swept dropped =>
      obtain ⟨conns, hsweep, rfl⟩ := Option.map_eq_some_iff.mp hstep
      refine ⟨_, effect_swept hsweep dropped, List.countP_eq_zero.trans ⟨fun h => ?_, fun h => ?_⟩⟩
      · intro conns' hsweep' conn n hget hdropped
        obtain rfl := Option.some.inj (hsweep.symm.trans hsweep')
        exact Bool.eq_false_of_not_eq_true (h conn (mem_gone.mpr ⟨n, hget, hdropped⟩))
      · intro conn hconn
        obtain ⟨n, hget, hdropped⟩ := mem_gone.mp hconn
        rw [h conns hsweep conn n hget hdropped]
        exact Bool.false_ne_true

end Nsdci.RpcPool
