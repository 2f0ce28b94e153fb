import Nsdci.Server.Loop

/-!
# What the server thread does with its clients

`Orderly` says that at every `poll` a client is on one of the two lists and has a socket if it is on
the active one, that sockets are closed once, and that the calls of the server procedure for a
client are sessions, each an `INIT`, calls for received and sent data, and a `DROP`.

That is so in every run in which each `INIT` queues a transfer and no shutdown finds a client whose
connect has not completed. The way out of the loop drops such clients too.
-/

namespace Nsdci.Server

open Lib

variable {β δ : Type}

/-- `INIT` opens a session and `DROP` closes it. -/
def Why.part : Why → Part
  | .init => .first
  | .recv | .send => .inner
  | .drop => .last

/-- The calls of the procedure for one client. -/
def callsOf (calls : List (Nat × Why)) (n : Nat) : List Why :=
  (calls.filter fun c => c.1 = n).map Prod.snd

/-- **What is to hold in every state of the thread.** -/
structure Orderly (clients : List Nat) (s : Thread β δ) : Prop where
  lists : s.point = .poll → (s.active ++ s.retry).Perm clients
  sock : s.point = .poll → ∀ n ∈ clients, (s.peers n).sock.isSome ↔ n ∈ s.active
  once : s.closed.Nodup
  valid : ∀ c ∈ s.closed, ∃ k < s.opened, c = some k
  live : ∀ n k, (s.peers n).sock = some k → some k ∉ s.closed
  kept : ∀ k < s.opened, some k ∉ s.closed → ∃ n ∈ clients, (s.peers n).sock = some k
  calls : ∀ n, Sessions Why.part (callsOf s.calls n) ∨ OpenSession Why.part (callsOf s.calls n)
  done : s.point = .stopped →
    (∀ k < s.opened, some k ∈ s.closed) ∧ ∀ n, Sessions Why.part (callsOf s.calls n)

/-- A server procedure changes the state of its client by queueing a transfer only, and does so
when it returns success from `INIT`. -/
structure Queues (proc : Nat → ServerProc β δ) : Prop where
  stays : ∀ n e why, e.client.state ≠ .connecting → (proc n e why).1.client.state ≠ .connecting
  queued : ∀ n e, (proc n e .init).2 = .ok → (proc n e .init).1.client.state ≠ .connecting

/-- The client whose turn comes next. -/
def Point.served : Point → Option Nat
  | .serving (n :: _) => some n
  | _ => none

/-- An `INIT` that fails has queued a transfer all the same, and when a shutdown comes no connect is
in progress. -/
def SafeServe (su : Setup β δ) (s : Thread β δ) (e : Event) : Prop :=
  match e with
  | .turn r now refused => ∀ n ∈ s.point.served,
      (s.peers n).client.state = .connecting → r.pollout || r.pollhup → refused = false →
        (su.proc n (s.initEnv n now) .init).2 ≠ .ok →
          (su.proc n (s.initEnv n now) .init).1.client.state ≠ .connecting
  | .poll trigger => trigger = true → ∀ n ∈ s.active, (s.peers n).client.state ≠ .connecting
  | .check _ | .connect _ | .recv _ | .send _ _ | .drop => True

instance (su : Setup β δ) (s : Thread β δ) : (e : Event) → Decidable (SafeServe su s e)
  | .turn _ _ _ => inferInstanceAs (Decidable (∀ n ∈ s.point.served, _ → _))
  | .poll _ => inferInstanceAs (Decidable (_ → _))
  | .check _ | .connect _ | .recv _ | .send _ _ | .drop => inferInstanceAs (Decidable True)

/-! ## What the parts of a step change -/

namespace Thread

variable (s : Thread β δ) (n : Nat) (su : Setup β δ)

/-- The client is in a session: its connect has completed. -/
def inSession (m : Nat) : Bool := (s.peers m).sock.isSome && (s.peers m).client.state ≠ .connecting

@[simp] theorem put_sock (e : Env β δ) (m : Nat) :
    ((s.put n e).peers m).sock = (s.peers m).sock := by
  by_cases hm : m = n
  · subst hm
    simp [put]
  · simp [put, Function.update_of_ne hm]

@[simp] theorem put_client_self (e : Env β δ) : ((s.put n e).peers n).client = e.client := by
  simp [put]

theorem put_client_ne (e : Env β δ) {m : Nat} (hm : m ≠ n) :
    ((s.put n e).peers m).client = (s.peers m).client := by
  simp [put, Function.update_of_ne hm]

@[simp] theorem put_env (e : Env β δ) : (s.put n e).env n = e := by
  simp [put, env]

@[simp] theorem put_active (e : Env β δ) : (s.put n e).active = s.active := rfl
@[simp] theorem put_retry (e : Env β δ) : (s.put n e).retry = s.retry := rfl
@[simp] theorem put_opened (e : Env β δ) : (s.put n e).opened = s.opened := rfl
@[simp] theorem put_closed (e : Env β δ) : (s.put n e).closed = s.closed := rfl
@[simp] theorem put_calls (e : Env β δ) : (s.put n e).calls = s.calls := rfl

@[simp] theorem call_sock (why : Why) (m : Nat) :
    ((s.call n su why).1.peers m).sock = (s.peers m).sock := s.put_sock n _ m

@[simp] theorem call_client_self (why : Why) :
    ((s.call n su why).1.peers n).client = (su.proc n (s.env n) why).1.client :=
  s.put_client_self n _

theorem call_client_ne (why : Why) {m : Nat} (hm : m ≠ n) :
    ((s.call n su why).1.peers m).client = (s.peers m).client := s.put_client_ne n _ hm

@[simp] theorem call_active (why : Why) : (s.call n su why).1.active = s.active := rfl
@[simp] theorem call_retry (why : Why) : (s.call n su why).1.retry = s.retry := rfl
@[simp] theorem call_opened (why : Why) : (s.call n su why).1.opened = s.opened := rfl
@[simp] theorem call_closed (why : Why) : (s.call n su why).1.closed = s.closed := rfl

@[simp] theorem call_calls (why : Why) :
    (s.call n su why).1.calls = s.calls ++ [(n, why)] := rfl

theorem close_sock (m : Nat) :
    ((s.close n).peers m).sock = if m = n then none else (s.peers m).sock := by
  by_cases hm : m = n
  · subst hm
    simp [close]
  · simp [close, hm]

@[simp] theorem close_client (m : Nat) : ((s.close n).peers m).client = (s.peers m).client := by
  by_cases hm : m = n
  · subst hm
    simp [close]
  · simp [close, Function.update_of_ne hm]

@[simp] theorem close_active : (s.close n).active = s.active := rfl
@[simp] theorem close_retry : (s.close n).retry = s.retry := rfl
@[simp] theorem close_opened : (s.close n).opened = s.opened := rfl
@[simp] theorem close_closed : (s.close n).closed = s.closed ++ [(s.peers n).sock] := rfl
@[simp] theorem close_calls : (s.close n).calls = s.calls := rfl

/-- `DropClient` closes the socket. -/
theorem dropClient_sock (m : Nat) :
    ((s.dropClient n su).peers m).sock = if m = n then none else (s.peers m).sock := by
  unfold dropClient
  rw [call_sock, put_sock, close_sock]

theorem dropClient_client_ne {m : Nat} (hm : m ≠ n) :
    ((s.dropClient n su).peers m).client = (s.peers m).client := by
  unfold dropClient
  rw [call_client_ne _ _ _ _ hm, put_client_ne _ _ _ hm, close_client]

@[simp] theorem dropClient_active : (s.dropClient n su).active = s.active := rfl
@[simp] theorem dropClient_retry : (s.dropClient n su).retry = s.retry := rfl
@[simp] theorem dropClient_opened : (s.dropClient n su).opened = s.opened := rfl

@[simp] theorem dropClient_closed :
    (s.dropClient n su).closed = s.closed ++ [(s.peers n).sock] := rfl

@[simp] theorem dropClient_calls :
    (s.dropClient n su).calls = s.calls ++ [(n, .drop)] := rfl

end Thread

/-! ## Sockets -/

/-- No socket is closed twice or lost, and no two clients have one. -/
structure Sockets (s : Thread β δ) : Prop where
  once : s.closed.Nodup
  valid : ∀ c ∈ s.closed, ∃ k < s.opened, c = some k
  live : ∀ n k, (s.peers n).sock = some k → k < s.opened ∧ some k ∉ s.closed
  one : ∀ n m k, (s.peers n).sock = some k → (s.peers m).sock = some k → n = m
  kept : ∀ k < s.opened, some k ∉ s.closed → ∃ n, (s.peers n).sock = some k

section

variable {s s' : Thread β δ} {n : Nat}

/-- What keeps the sockets. -/
theorem Sockets.congr (h : Sockets s) (hsock : ∀ m, (s'.peers m).sock = (s.peers m).sock)
    (hopened : s'.opened = s.opened) (hclosed : s'.closed = s.closed) : Sockets s' := by
  refine ⟨hclosed ▸ h.once, ?_, ?_, ?_, ?_⟩
  · rw [hclosed, hopened]
    exact h.valid
  · intro m k hk
    rw [hclosed, hopened]
    exact h.live m k (hsock m ▸ hk)
  · intro m m' k hk hk'
    exact h.one m m' k (hsock m ▸ hk) (hsock m' ▸ hk')
  · intro k hk hopen
    obtain ⟨m, hm⟩ := h.kept k (hopened ▸ hk) (hclosed ▸ hopen)
    exact ⟨m, (hsock m).trans hm⟩

/-- A new socket. -/
theorem Sockets.connect (h : Sockets s) (hn : (s.peers n).sock = none)
    (hsock : ∀ m, (s'.peers m).sock = if m = n then some s.opened else (s.peers m).sock)
    (hopened : s'.opened = s.opened + 1) (hclosed : s'.closed = s.closed) : Sockets s' := by
  have hnew : some s.opened ∉ s.closed := by
    intro hmem
    obtain ⟨k, hk, heq⟩ := h.valid _ hmem
    simp only [Option.some.injEq] at heq
    omega
  refine ⟨hclosed ▸ h.once, ?_, ?_, ?_, ?_⟩
  · intro c hc
    obtain ⟨k, hk, rfl⟩ := h.valid c (hclosed ▸ hc)
    exact ⟨k, by omega, rfl⟩
  · intro m k hk
    rw [hsock] at hk
    rw [hclosed, hopened]
    split_ifs at hk
    · obtain rfl := Option.some.inj hk
      exact ⟨Nat.lt_succ_self _, hnew⟩
    · obtain ⟨hlt, hopen⟩ := h.live m k hk
      exact ⟨by omega, hopen⟩
  · intro m m' k hk hk'
    rw [hsock] at hk hk'
    split_ifs at hk hk' with hm hm' hm'
    · exact hm.trans hm'.symm
    · obtain rfl := Option.some.inj hk
      exact absurd (h.live m' _ hk').1 (lt_irrefl _)
    · obtain rfl := Option.some.inj hk'
      exact absurd (h.live m _ hk).1 (lt_irrefl _)
    · exact h.one m m' k hk hk'
  · intro k hk hopen
    by_cases hlast : k = s.opened
    · exact ⟨n, by rw [hsock, if_pos rfl, hlast]⟩
    · obtain ⟨m, hm⟩ := h.kept k (by omega) (hclosed ▸ hopen)
      have hne : m ≠ n := by
        rintro rfl
        exact absurd (hn.symm.trans hm) (by simp)
      exact ⟨m, by rw [hsock, if_neg hne, hm]⟩

/-- A socket is closed. -/
theorem Sockets.close (h : Sockets s) (hn : (s.peers n).sock.isSome)
    (hsock : ∀ m, (s'.peers m).sock = if m = n then none else (s.peers m).sock)
    (hopened : s'.opened = s.opened) (hclosed : s'.closed = s.closed ++ [(s.peers n).sock]) :
    Sockets s' := by
  obtain ⟨j, hj⟩ := Option.isSome_iff_exists.mp hn
  obtain ⟨hlt, hopen⟩ := h.live n j hj
  rw [hj] at hclosed
  refine ⟨?_, ?_, ?_, ?_, ?_⟩
  · rw [hclosed]
    refine List.nodup_append.mpr ⟨h.once, by simp, ?_⟩
    rintro c hc _ hlast rfl
    obtain rfl := List.mem_singleton.mp hlast
    exact hopen hc
  · intro c hc
    rw [hclosed] at hc
    rw [hopened]
    rcases List.mem_append.mp hc with hc | hc
    · exact h.valid c hc
    · exact ⟨j, hlt, by simpa using hc⟩
  · intro m k hk
    rw [hsock] at hk
    split_ifs at hk with hm
    obtain ⟨hlt', hopen'⟩ := h.live m k hk
    rw [hclosed, hopened]
    refine ⟨hlt', fun hmem => ?_⟩
    rcases List.mem_append.mp hmem with hmem | hmem
    · exact hopen' hmem
    · obtain rfl : k = j := by simpa using hmem
      exact hm (h.one m n k hk hj)
  · intro m m' k hk hk'
    rw [hsock] at hk hk'
    split_ifs at hk hk'
    exact h.one m m' k hk hk'
  · intro k hk hopen'
    rw [hclosed] at hopen'
    simp only [List.mem_append, List.mem_singleton, Option.some.injEq, not_or] at hopen'
    obtain ⟨m, hm⟩ := h.kept k (hopened ▸ hk) hopen'.1
    have hne : m ≠ n := by
      rintro rfl
      rw [hj] at hm
      exact hopen'.2 (Option.some.inj hm).symm
    exact ⟨m, by rw [hsock, if_neg hne, hm]⟩

end

/-! ## Calls -/

/-- The calls of each client are sessions, and the last is open for the clients that are in one. -/
def Calls (calls : List (Nat × Why)) (inside : Nat → Bool) : Prop :=
  ∀ n, if inside n then OpenSession Why.part (callsOf calls n) else
    Sessions Why.part (callsOf calls n)

section

variable {calls : List (Nat × Why)} {inside inside' : Nat → Bool} {n : Nat}

theorem callsOf_append_self (calls : List (Nat × Why)) (n : Nat) (why : Why) :
    callsOf (calls ++ [(n, why)]) n = callsOf calls n ++ [why] := by
  simp [callsOf]

theorem callsOf_append_ne (calls : List (Nat × Why)) {n m : Nat} (why : Why) (hm : m ≠ n) :
    callsOf (calls ++ [(n, why)]) m = callsOf calls m := by
  simp [callsOf, Ne.symm hm]

theorem Calls.congr (h : Calls calls inside) (hinside : ∀ m, inside' m = inside m) :
    Calls calls inside' := by
  intro m
  rw [hinside]
  exact h m

/-- A call for one client leaves those of the others alone. -/
theorem Calls.others (h : Calls calls inside) {why : Why}
    (hother : ∀ m, m ≠ n → inside' m = inside m)
    (hself : if inside' n then OpenSession Why.part (callsOf calls n ++ [why]) else
      Sessions Why.part (callsOf calls n ++ [why])) : Calls (calls ++ [(n, why)]) inside' := by
  intro m
  by_cases hm : m = n
  · subst hm
    rw [callsOf_append_self]
    exact hself
  · rw [callsOf_append_ne _ _ hm, hother m hm]
    exact h m

/-- A session begins. -/
theorem Calls.init (h : Calls calls inside) (hn : inside n = false) (hn' : inside' n = true)
    (hother : ∀ m, m ≠ n → inside' m = inside m) : Calls (calls ++ [(n, .init)]) inside' := by
  refine h.others hother ?_
  have hcalls := h n
  rw [hn] at hcalls
  rw [hn']
  exact Sessions.first (by simpa using hcalls) rfl

/-- A session goes on. -/
theorem Calls.inner (h : Calls calls inside) {why : Why} (hwhy : why = .recv ∨ why = .send)
    (hn : inside n = true) (hinside : ∀ m, inside' m = inside m) :
    Calls (calls ++ [(n, why)]) inside' := by
  refine h.others (fun m _ => hinside m) ?_
  have hcalls := h n
  rw [hn] at hcalls
  rw [hinside, hn]
  refine OpenSession.inner (by simpa using hcalls) ?_
  rcases hwhy with rfl | rfl <;> rfl

/-- A session ends. -/
theorem Calls.drop (h : Calls calls inside) (hn : inside n = true) (hn' : inside' n = false)
    (hother : ∀ m, m ≠ n → inside' m = inside m) : Calls (calls ++ [(n, .drop)]) inside' := by
  refine h.others hother ?_
  have hcalls := h n
  rw [hn] at hcalls
  rw [hn']
  exact OpenSession.last (by simpa using hcalls) rfl

end

/-! ## The turn of a client -/

/-- A client has its turn, and the clients in `todo` come after it. -/
structure Serving (clients : List Nat) (n : Nat) (todo : List Nat) (s : Thread β δ) : Prop where
  lists : (n :: (todo ++ s.active) ++ s.retry).Perm clients
  sock : ∀ m, (s.peers m).sock.isSome ↔ m ∈ n :: (todo ++ s.active)
  sockets : Sockets s
  calls : Calls s.calls s.inSession

/-- The clients with a socket. -/
def Thread.up (s : Thread β δ) : List Nat :=
  match s.point with
  | .serving todo => todo ++ s.active
  | .receiving n _ todo | .sending n todo => n :: (todo ++ s.active)
  | _ => s.active

/-- The clients without one. -/
def Thread.down (s : Thread β δ) : List Nat :=
  match s.point with
  | .connecting todo => todo ++ s.retry
  | _ => s.retry

/-- A client in a loop of callbacks is connected, and so are those that are dropped on the way
out. -/
def Thread.Busy (s : Thread β δ) : Prop :=
  match s.point with
  | .receiving n _ _ | .sending n _ => (s.peers n).client.state ≠ .connecting
  | .dropping => ∀ n ∈ s.active, (s.peers n).client.state ≠ .connecting
  | .stopped => s.active = []
  | _ => True

/-- The invariant of a run of safe steps. -/
structure ServerInv (clients : List Nat) (s : Thread β δ) : Prop where
  lists : (s.up ++ s.down).Perm clients
  sock : ∀ m, (s.peers m).sock.isSome ↔ m ∈ s.up
  sockets : Sockets s
  calls : Calls s.calls s.inSession
  busy : s.Busy

section

variable {clients : List Nat} {s s' : Thread β δ} {n : Nat} {todo : List Nat} {su : Setup β δ}

theorem up_serves (s : Thread β δ) (todo : List Nat) (h : s.point = .serves todo) :
    s.up = todo ++ s.active := by
  unfold Thread.up
  rw [h]
  cases todo <;> rfl

theorem down_serves (s : Thread β δ) (todo : List Nat) (h : s.point = .serves todo) :
    s.down = s.retry := by
  unfold Thread.down
  rw [h]
  cases todo <;> rfl

theorem busy_serves (s : Thread β δ) (todo : List Nat) (h : s.point = .serves todo) : s.Busy := by
  unfold Thread.Busy
  rw [h]
  cases todo <;> trivial

/-- A client that has its turn is on no other list. -/
theorem Serving.not_mem (h : Serving clients n todo s) (hclients : clients.Nodup) :
    n ∉ todo ++ s.active ∧ n ∉ s.retry := by
  have hnodup := h.lists.nodup_iff.mpr hclients
  rw [List.cons_append, List.nodup_cons] at hnodup
  simpa [not_or, and_assoc] using hnodup.1

/-- What the procedure and `Callback` leave of a client that stays connected, or not. -/
theorem Serving.congr (h : Serving clients n todo s) (hactive : s'.active = s.active)
    (hretry : s'.retry = s.retry) (hsock : ∀ m, (s'.peers m).sock = (s.peers m).sock)
    (hopened : s'.opened = s.opened) (hclosed : s'.closed = s.closed)
    (hcalls : Calls s'.calls s'.inSession) : Serving clients n todo s' := by
  refine ⟨?_, ?_, h.sockets.congr hsock hopened hclosed, hcalls⟩
  · rw [hactive, hretry]
    exact h.lists
  · intro m
    rw [hsock, hactive]
    exact h.sock m

/-- Whether a client is in a session depends on its socket and its state. -/
theorem inSession_congr {m : Nat} (hsock : (s'.peers m).sock = (s.peers m).sock)
    (hstate : (s'.peers m).client.state ≠ .connecting ↔ (s.peers m).client.state ≠ .connecting) :
    s'.inSession m = s.inSession m := by
  unfold Thread.inSession
  rw [hsock, decide_eq_decide.mpr hstate]

theorem inSession_put (s : Thread β δ) (n : Nat) {e : Env β δ}
    (hstate : e.client.state ≠ .connecting ↔ (s.peers n).client.state ≠ .connecting) (m : Nat) :
    (s.put n e).inSession m = s.inSession m := by
  refine inSession_congr (s.put_sock n e m) ?_
  by_cases hm : m = n
  · subst hm
    rw [Thread.put_client_self]
    exact hstate
  · rw [s.put_client_ne n e hm]

/-- A change of a client that leaves it connected, or not. -/
theorem Serving.put (h : Serving clients n todo s) {e : Env β δ}
    (hstate : e.client.state ≠ .connecting ↔ (s.peers n).client.state ≠ .connecting) :
    Serving clients n todo (s.put n e) :=
  h.congr rfl rfl (s.put_sock n e) rfl rfl (h.calls.congr (inSession_put s n hstate))

/-- A call for received or sent data. -/
theorem Serving.call (h : Serving clients n todo s) (hproc : Queues su.proc)
    (hstate : (s.peers n).client.state ≠ .connecting) {why : Why}
    (hwhy : why = .recv ∨ why = .send) : Serving clients n todo (s.call n su why).1 ∧
      ((s.call n su why).1.peers n).client.state ≠ .connecting := by
  have hafter : ((s.call n su why).1.peers n).client.state ≠ .connecting := by
    rw [Thread.call_client_self]
    exact hproc.stays n _ why hstate
  have hinside : s.inSession n = true := by
    have hsock := (h.sock n).mpr (by simp)
    simp [Thread.inSession, hsock, hstate]
  refine ⟨h.congr rfl rfl (s.call_sock n su why) rfl rfl ?_, hafter⟩
  refine h.calls.inner hwhy hinside fun m => ?_
  refine inSession_congr (s.call_sock n su why m) ?_
  by_cases hm : m = n
  · subst hm
    exact iff_of_true hafter hstate
  · rw [s.call_client_ne n su why hm]

/-- The call for a new connection. -/
theorem Serving.init (h : Serving clients n todo s)
    (hstate : (s.peers n).client.state = .connecting)
    (hafter : (su.proc n (s.env n) .init).1.client.state ≠ .connecting) :
    Serving clients n todo (s.call n su .init).1 := by
  have hsock := (h.sock n).mpr (by simp)
  refine h.congr rfl rfl (s.call_sock n su .init) rfl rfl ?_
  refine h.calls.init (n := n) ?_ ?_ ?_
  · simp [Thread.inSession, hstate]
  · simp [Thread.inSession, hsock, hafter]
  · intro m hm
    exact inSession_congr (s.call_sock n su .init m) (by rw [s.call_client_ne n su .init hm])

/-- The socket of a client whose turn ends with an error is closed; one that is connected is
dropped. -/
theorem settled_error (su : Setup β δ) (n : Nat) (hsock : (s.peers n).sock.isSome)
    (hsockets : Sockets s)
    (hcalls : Calls s.calls s.inSession) :
    let s' := if (s.peers n).client.state = .connecting then s.close n else s.dropClient n su
    Sockets s' ∧ Calls s'.calls s'.inSession := by
  intro s'
  by_cases hstate : (s.peers n).client.state = .connecting
  · have hs' : s' = s.close n := if_pos hstate
    rw [hs']
    refine ⟨hsockets.close hsock (s.close_sock n) rfl rfl, hcalls.congr fun m => ?_⟩
    unfold Thread.inSession
    rw [s.close_sock, s.close_client]
    split_ifs with hm
    · rw [hm, hstate]
      simp
    · rfl
  · have hs' : s' = s.dropClient n su := if_neg hstate
    rw [hs']
    refine ⟨hsockets.close hsock (s.dropClient_sock n su) rfl rfl, ?_⟩
    refine hcalls.drop (n := n) ?_ ?_ ?_
    · simp [Thread.inSession, hsock, hstate]
    · simp [Thread.inSession, s.dropClient_sock]
    · intro m hm
      unfold Thread.inSession
      rw [s.dropClient_sock, if_neg hm, s.dropClient_client_ne n su hm]

/-- **The end of a client's turn.** -/
theorem Serving.settle (h : Serving clients n todo s) (hclients : clients.Nodup) (res : Status) :
    ServerInv clients (s.settle n su res todo) := by
  have hsock := (h.sock n).mpr (by simp)
  obtain ⟨htodo, hretry⟩ := h.not_mem hclients
  by_cases hres : res = .error
  · obtain ⟨s', hs'⟩ : ∃ s', s' = if (s.peers n).client.state = .connecting then s.close n else
        s.dropClient n su := ⟨_, rfl⟩
    obtain ⟨hsockets, hcalls⟩ := settled_error su n hsock h.sockets h.calls
    rw [← hs'] at hsockets hcalls
    have hactive : s'.active = s.active := by
      rw [hs']
      split_ifs <;> rfl
    have hretry' : s'.retry = s.retry := by
      rw [hs']
      split_ifs <;> rfl
    have hsocks : ∀ m, (s'.peers m).sock = if m = n then none else (s.peers m).sock := by
      intro m
      rw [hs']
      split_ifs <;> simp_all [s.close_sock, s.dropClient_sock]
    have heq : s.settle n su res todo =
        { s' with point := .serves todo, retry := n :: s'.retry } := by
      rw [hretry', hs', Thread.settle, if_neg (by simpa using hres)]
      split_ifs <;> rfl
    rw [heq]
    refine ⟨?_, ?_, hsockets.congr (fun _ => rfl) rfl rfl, hcalls, busy_serves _ todo rfl⟩
    · rw [up_serves _ todo rfl, down_serves _ todo rfl]
      show ((todo ++ s'.active) ++ n :: s'.retry).Perm clients
      rw [hactive, hretry']
      exact List.perm_middle.trans h.lists
    · intro m
      rw [up_serves _ todo rfl]
      show (s'.peers m).sock.isSome ↔ m ∈ todo ++ s'.active
      rw [hsocks, hactive]
      split_ifs with hm
      · subst hm
        simpa using htodo
      · rw [h.sock m]
        simp [hm]
  · have heq : s.settle n su res todo =
        { s with point := .serves todo, active := n :: s.active } := by
      rw [Thread.settle, if_pos hres]
    rw [heq]
    refine ⟨?_, ?_, h.sockets.congr (fun _ => rfl) rfl rfl, h.calls, busy_serves _ todo rfl⟩
    · rw [up_serves _ todo rfl, down_serves _ todo rfl]
      exact (List.perm_middle.append_right _).trans h.lists
    · intro m
      rw [up_serves _ todo rfl]
      show (s.peers m).sock.isSome ↔ m ∈ todo ++ n :: s.active
      rw [h.sock m]
      exact (List.perm_middle.mem_iff).symm

/-- A connected client goes on in one of its loops of callbacks. -/
theorem Serving.loop (h : Serving clients n todo s)
    (hstate : (s.peers n).client.state ≠ .connecting) {point : Point}
    (hpoint : (∃ pollout, point = .receiving n pollout todo) ∨ point = .sending n todo) :
    ServerInv clients (s.goto point) := by
  rcases hpoint with ⟨pollout, rfl⟩ | rfl
  · exact ⟨h.lists, h.sock, h.sockets.congr (fun _ => rfl) rfl rfl, h.calls, hstate⟩
  · exact ⟨h.lists, h.sock, h.sockets.congr (fun _ => rfl) rfl rfl, h.calls, hstate⟩

/-- A connect has completed. -/
theorem Serving.connected (h : Serving clients n todo s) (hclients : clients.Nodup)
    (hproc : Queues su.proc) (hstate : (s.peers n).client.state = .connecting) (now : Int)
    (hsafe : (su.proc n (s.initEnv n now) .init).2 ≠ .ok →
      (su.proc n (s.initEnv n now) .init).1.client.state ≠ .connecting) :
    ServerInv clients (s.connected n su now todo) := by
  have hsame : (s.initEnv n now).client.state = (s.peers n).client.state := rfl
  have hput : Serving clients n todo (s.put n (s.initEnv n now)) := h.put (by rw [hsame])
  have hqueued : (su.proc n (s.initEnv n now) .init).1.client.state ≠ .connecting := by
    by_cases hok : (su.proc n (s.initEnv n now) .init).2 = .ok
    · exact hproc.queued n _ hok
    · exact hsafe hok
  have hinit : Serving clients n todo ((s.put n (s.initEnv n now)).call n su .init).1 := by
    refine hput.init ?_ ?_
    · rw [Thread.put_client_self, hsame]
      exact hstate
    · rw [Thread.put_env]
      exact hqueued
  exact hinit.settle hclients _

/-- **The begin of a client's turn.** -/
theorem Serving.turn (h : Serving clients n todo s) (hclients : clients.Nodup)
    (hproc : Queues su.proc) (r : Revents) (now : Int) (refused : Bool)
    (hsafe : (s.peers n).client.state = .connecting → r.pollout || r.pollhup → refused = false →
      (su.proc n (s.initEnv n now) .init).2 ≠ .ok →
        (su.proc n (s.initEnv n now) .init).1.client.state ≠ .connecting) :
    ServerInv clients (s.turn n su r now refused todo) := by
  have htouched : Serving clients n todo
      (s.put n { s.env n with client := { (s.env n).client with mtime := now } }) :=
    h.put Iff.rfl
  have hloop : ∀ point, (s.peers n).client.state ≠ .connecting →
      ((∃ pollout, point = .receiving n pollout todo) ∨ point = .sending n todo) →
      ServerInv clients
        ((s.put n { s.env n with
          client := { (s.env n).client with mtime := now } }).goto point) := by
    intro point hstate hpoint
    refine htouched.loop ?_ hpoint
    rw [Thread.put_client_self]
    exact hstate
  unfold Thread.turn
  dsimp only
  split
  · rename_i hstate
    split_ifs with hready hrefused
    · exact h.settle hclients _
    · exact h.connected hclients hproc hstate now (hsafe hstate hready (by simpa using hrefused))
    · exact h.settle hclients _
  · rename_i hstate
    have hne : (s.peers n).client.state ≠ .connecting :=
      fun heq => absurd (hstate.symm.trans heq) (by simp)
    split_ifs
    · exact hloop _ hne (Or.inl ⟨_, rfl⟩)
    · exact h.settle hclients _
  · rename_i hstate
    have hne : (s.peers n).client.state ≠ .connecting :=
      fun heq => absurd (hstate.symm.trans heq) (by simp)
    split_ifs
    · exact hloop _ hne (Or.inr rfl)
    · exact h.settle hclients _

/-- `Callback` leaves the state of the client alone. -/
theorem callbackRecv_state [DecidableEq β] (bufsize : Nat) (e : Env β δ) (ios : List IoResult) :
    (callbackRecv bufsize e ios).1.client.state = e.client.state := by
  unfold callbackRecv
  dsimp only
  split
  · rfl
  · split_ifs <;> rfl

theorem callbackSend_state (e : Env β δ) (ret : Int) (again : Bool) :
    (callbackSend e ret again).1.client.state = e.client.state := by
  unfold callbackSend callbackSent
  split_ifs
  · rfl
  · dsimp only
    split_ifs <;> rfl

/-- A `Callback` of a connected client. -/
theorem Serving.callback (h : Serving clients n todo s) (hproc : Queues su.proc)
    (hstate : (s.peers n).client.state ≠ .connecting) {why : Why}
    (hwhy : why = .recv ∨ why = .send) {r : Env β δ × Option Status}
    (hr : r.1.client.state = (s.peers n).client.state) :
    Serving clients n todo (s.callback n su why r).1 ∧
      ((s.callback n su why r).1.peers n).client.state ≠ .connecting := by
  have hput : Serving clients n todo (s.put n r.1) := h.put (by rw [hr])
  have hstate' : ((s.put n r.1).peers n).client.state ≠ .connecting := by
    rw [Thread.put_client_self, hr]
    exact hstate
  unfold Thread.callback
  split
  · exact hput.call hproc hstate' hwhy
  · exact ⟨hput, hstate'⟩

/-- A turn of the loop of recv callbacks. -/
theorem Serving.recvTurn [DecidableEq β] (h : Serving clients n todo s)
    (hclients : clients.Nodup) (hproc : Queues su.proc)
    (hstate : (s.peers n).client.state ≠ .connecting) (pollout : Bool) (ios : List IoResult) :
    ServerInv clients (s.recvTurn n su pollout ios todo) := by
  have hr : (callbackRecv su.bufsize (s.env n) ios).1.client.state = (s.peers n).client.state :=
    callbackRecv_state _ _ _
  obtain ⟨hback, hstate'⟩ := h.callback hproc hstate (Or.inl rfl)
    (r := ((callbackRecv su.bufsize (s.env n) ios).1,
      (callbackRecv su.bufsize (s.env n) ios).2.1)) hr
  unfold Thread.recvTurn
  dsimp only
  split
  · exact hback.loop hstate' (Or.inl ⟨_, rfl⟩)
  · exact hback.loop hstate' (Or.inr rfl)
  · split_ifs
    · exact hback.loop hstate' (Or.inr rfl)
    · exact hback.settle hclients _
  · exact hback.settle hclients _

/-- A turn of the loop of send callbacks. -/
theorem Serving.sendTurn (h : Serving clients n todo s) (hclients : clients.Nodup)
    (hproc : Queues su.proc) (hstate : (s.peers n).client.state ≠ .connecting) (ret : Int)
    (again : Bool) : ServerInv clients (s.sendTurn n su ret again todo) := by
  have hr : (callbackSend (s.env n) ret again).1.client.state = (s.peers n).client.state :=
    callbackSend_state _ _ _
  obtain ⟨hback, hstate'⟩ := h.callback hproc hstate (Or.inr rfl) hr
  unfold Thread.sendTurn
  dsimp only
  split
  · exact hback.loop hstate' (Or.inr rfl)
  · exact hback.settle hclients _

/-! ## The loops of the thread -/

theorem up_connects (s : Thread β δ) (todo : List Nat) (h : s.point = .connects todo) :
    s.up = s.active := by
  unfold Thread.up
  rw [h]
  cases todo <;> rfl

theorem down_connects (s : Thread β δ) (todo : List Nat) (h : s.point = .connects todo) :
    s.down = todo ++ s.retry := by
  unfold Thread.down
  rw [h]
  cases todo <;> rfl

theorem busy_connects (s : Thread β δ) (todo : List Nat) (h : s.point = .connects todo) :
    s.Busy := by
  unfold Thread.Busy
  rw [h]
  cases todo <;> trivial

/-- The check for reconnects. -/
theorem ServerInv.check (h : ServerInv clients s) (hpoint : s.point = .top) (time : Int) :
    ServerInv clients
        { s with point := .connects s.retry, retry := [], retryTime := time } ∧
      ServerInv clients (s.goto .poll) := by
  have hup : s.up = s.active := by rw [Thread.up, hpoint]
  have hdown : s.down = s.retry := by rw [Thread.down, hpoint]
  have hlists := h.lists
  have hsock := h.sock
  rw [hup, hdown] at hlists
  rw [hup] at hsock
  refine ⟨⟨?_, ?_, h.sockets.congr (fun _ => rfl) rfl rfl, h.calls, ?_⟩,
    ⟨hlists, hsock, h.sockets.congr (fun _ => rfl) rfl rfl, h.calls, trivial⟩⟩
  · rw [up_connects _ s.retry rfl, down_connects _ s.retry rfl,
      List.append_nil]
    exact hlists
  · rw [up_connects _ s.retry rfl]
    exact hsock
  · exact busy_connects _ s.retry rfl

/-- One connect. -/
theorem ServerInv.connect (h : ServerInv clients s) (hclients : clients.Nodup)
    (hpoint : s.point = .connecting (n :: todo)) (ok : Bool) :
    ServerInv clients (s.connect n ok todo) := by
  have hup : s.up = s.active := by rw [Thread.up, hpoint]
  have hdown : s.down = n :: todo ++ s.retry := by rw [Thread.down, hpoint]
  have hlists := h.lists
  have hsock := h.sock
  rw [hup, hdown] at hlists
  rw [hup] at hsock
  unfold Thread.connect
  split_ifs
  · -- the client has no socket yet
    have hnone : (s.peers n).sock = none := by
      by_contra hsome
      have hactive : n ∈ s.active := (hsock n).mp (Option.isSome_iff_ne_none.mpr hsome)
      have hnodup := hlists.nodup_iff.mpr hclients
      exact (List.nodup_append.mp hnodup).2.2 n hactive n (by simp) rfl
    have hsocks : ∀ m, (Function.update s.peers n
        ⟨some s.opened, { (s.peers n).client with state := .connecting }⟩ m).sock =
          if m = n then some s.opened else (s.peers m).sock := by
      intro m
      by_cases hm : m = n
      · subst hm
        simp
      · simp [hm]
    refine ⟨?_, ?_, h.sockets.connect hnone hsocks rfl rfl, h.calls.congr fun m => ?_, ?_⟩
    · rw [up_connects _ todo rfl, down_connects _ todo rfl]
      exact List.perm_middle.symm.trans hlists
    · intro m
      rw [up_connects _ todo rfl]
      show (Function.update s.peers n _ m).sock.isSome ↔ m ∈ n :: s.active
      rw [hsocks]
      by_cases hm : m = n
      · simp [hm]
      · simp [hm, hsock m]
    · by_cases hm : m = n
      · subst hm
        simp [Thread.inSession, hnone]
      · simp [Thread.inSession, Function.update_of_ne hm]
    · exact busy_connects _ todo rfl
  · refine ⟨?_, ?_, h.sockets.congr (fun _ => rfl) rfl rfl, h.calls, ?_⟩
    · rw [up_connects _ todo rfl, down_connects _ todo rfl]
      exact (List.perm_middle.append_left _).trans hlists
    · rw [up_connects _ todo rfl]
      exact hsock
    · exact busy_connects _ todo rfl

/-- `poll` returns. -/
theorem ServerInv.polled (h : ServerInv clients s) (hpoint : s.point = .poll) (trigger : Bool)
    (hsafe : trigger = true → ∀ n ∈ s.active, (s.peers n).client.state ≠ .connecting) :
    ServerInv clients (s.polled trigger) := by
  have hup : s.up = s.active := by rw [Thread.up, hpoint]
  have hdown : s.down = s.retry := by rw [Thread.down, hpoint]
  have hlists := h.lists
  have hsock := h.sock
  rw [hup, hdown] at hlists
  rw [hup] at hsock
  unfold Thread.polled
  split_ifs with htrigger
  · exact ⟨hlists, hsock, h.sockets.congr (fun _ => rfl) rfl rfl, h.calls, hsafe htrigger⟩
  · refine ⟨?_, ?_, h.sockets.congr (fun _ => rfl) rfl rfl, h.calls, ?_⟩
    · rw [up_serves _ s.active rfl, down_serves _ s.active rfl,
        List.append_nil]
      exact hlists
    · rw [up_serves _ s.active rfl, List.append_nil]
      exact hsock
    · exact busy_serves _ s.active rfl

/-- A drop on the way out. -/
theorem ServerInv.sweep (h : ServerInv clients s) (hclients : clients.Nodup)
    (hpoint : s.point = .dropping) : ServerInv clients (s.sweep su) := by
  have hup : s.up = s.active := by rw [Thread.up, hpoint]
  have hdown : s.down = s.retry := by rw [Thread.down, hpoint]
  have hlists := h.lists
  have hsock := h.sock
  have hbusy := h.busy
  rw [hup, hdown] at hlists
  rw [hup] at hsock
  rw [Thread.Busy, hpoint] at hbusy
  unfold Thread.sweep
  split
  · rename_i hempty
    exact ⟨hlists, hsock, h.sockets.congr (fun _ => rfl) rfl rfl, h.calls, hempty⟩
  · rename_i n active hactive
    rw [hactive] at hlists hsock hbusy
    obtain ⟨u, hu⟩ : ∃ u : Thread β δ, u = { s with active := active } := ⟨_, rfl⟩
    have hpeers : u.peers = s.peers := by rw [hu]
    have hn : n ∉ active := (List.nodup_cons.mp
      (List.nodup_append.mp (hlists.nodup_iff.mpr hclients)).1).1
    have hstate : (s.peers n).client.state ≠ .connecting := hbusy n (by simp)
    have hnsock : (s.peers n).sock.isSome := (hsock n).mpr (by simp)
    have hsockets : Sockets u := h.sockets.congr (fun m => by rw [hpeers]) (by rw [hu]) (by rw [hu])
    have hcalls : Calls u.calls u.inSession := by
      rw [hu]
      exact h.calls
    obtain ⟨hsockets', hcalls'⟩ :=
      settled_error su n (by rwa [hpeers]) hsockets hcalls
    rw [if_neg (by rwa [hpeers])] at hsockets' hcalls'
    have hpoint' : (u.dropClient n su).point = .dropping := by
      show u.point = .dropping
      rw [hu]
      exact hpoint
    have hactive' : (u.dropClient n su).active = active := by
      rw [Thread.dropClient_active, hu]
    have hretry' : (u.dropClient n su).retry = s.retry := by
      rw [Thread.dropClient_retry, hu]
    rw [← hu]
    dsimp only
    have hup' : Thread.up { u.dropClient n su with retry := n :: (u.dropClient n su).retry } =
        active := by
      unfold Thread.up
      dsimp only
      rw [hpoint', hactive']
    refine ⟨?_, ?_, hsockets'.congr (fun _ => rfl) rfl rfl, hcalls', ?_⟩
    · rw [hup', Thread.down]
      dsimp only
      rw [hpoint', hretry']
      exact List.perm_middle.trans hlists
    · intro m
      rw [hup']
      show ((u.dropClient n su).peers m).sock.isSome ↔ m ∈ active
      rw [Thread.dropClient_sock, hpeers]
      by_cases hm : m = n
      · subst hm
        simpa using hn
      · rw [if_neg hm, hsock m]
        simp [hm]
    · unfold Thread.Busy
      dsimp only
      rw [hpoint', hactive']
      intro m hm
      have hne : m ≠ n := fun heq => hn (heq ▸ hm)
      show ((u.dropClient n su).peers m).client.state ≠ .connecting
      rw [Thread.dropClient_client_ne _ _ _ hne, hpeers]
      exact hbusy m (by simp [hm])

/-- **What every step of a safe run preserves.** -/
theorem ServerInv.step [DecidableEq β] {e : Event} (h : ServerInv clients s)
    (hclients : clients.Nodup) (hproc : Queues su.proc) (hsafe : SafeServe su s e)
    (hstep : Server.step su s e = some s') : ServerInv clients s' := by
  have hserving : ∀ n todo, s.up = n :: (todo ++ s.active) → s.down = s.retry →
      Serving clients n todo s := by
    intro n todo hup hdown
    refine ⟨?_, fun m => ?_, h.sockets, h.calls⟩
    · rw [← hup, ← hdown]
      exact h.lists
    · rw [← hup]
      exact h.sock m
  have hbusy := h.busy
  unfold Server.step at hstep
  unfold Thread.Busy at hbusy
  cases hpoint : s.point with
  | top =>
      rw [hpoint] at hstep
      cases e with
      | check now =>
          obtain rfl := Option.some.inj hstep
          obtain ⟨hretry, hpoll⟩ := h.check hpoint (now + su.retryInterval)
          split_ifs
          · exact hretry
          · exact hpoll
      | _ => exact absurd hstep (by simp)
  | connecting todo =>
      rw [hpoint] at hstep
      cases todo with
      | nil => cases e <;> exact absurd hstep (by simp)
      | cons n todo =>
          cases e with
          | connect ok =>
              obtain rfl := Option.some.inj hstep
              exact h.connect hclients hpoint ok
          | _ => exact absurd hstep (by simp)
  | poll =>
      rw [hpoint] at hstep
      cases e with
      | poll trigger =>
          obtain rfl := Option.some.inj hstep
          exact h.polled hpoint trigger hsafe
      | _ => exact absurd hstep (by simp)
  | serving todo =>
      rw [hpoint] at hstep
      cases todo with
      | nil => cases e <;> exact absurd hstep (by simp)
      | cons n todo =>
          cases e with
          | turn r now refused =>
              obtain rfl := Option.some.inj hstep
              have hup : s.up = n :: (todo ++ s.active) := by rw [Thread.up, hpoint]; rfl
              have hdown : s.down = s.retry := by rw [Thread.down, hpoint]
              exact (hserving n todo hup hdown).turn hclients hproc r now refused
                (hsafe n (by rw [hpoint]; rfl))
          | _ => exact absurd hstep (by simp)
  | receiving n pollout todo =>
      rw [hpoint] at hstep hbusy
      cases e with
      | recv ios =>
          obtain rfl := Option.some.inj hstep
          have hup : s.up = n :: (todo ++ s.active) := by rw [Thread.up, hpoint]
          have hdown : s.down = s.retry := by rw [Thread.down, hpoint]
          exact (hserving n todo hup hdown).recvTurn hclients hproc hbusy pollout ios
      | _ => exact absurd hstep (by simp)
  | sending n todo =>
      rw [hpoint] at hstep hbusy
      cases e with
      | send ret again =>
          obtain rfl := Option.some.inj hstep
          have hup : s.up = n :: (todo ++ s.active) := by rw [Thread.up, hpoint]
          have hdown : s.down = s.retry := by rw [Thread.down, hpoint]
          exact (hserving n todo hup hdown).sendTurn hclients hproc hbusy ret again
      | _ => exact absurd hstep (by simp)
  | dropping =>
      rw [hpoint] at hstep
      cases e with
      | drop =>
          obtain rfl := Option.some.inj hstep
          exact h.sweep hclients hpoint
      | _ => exact absurd hstep (by simp)
  | stopped =>
      rw [hpoint] at hstep
      cases e <;> exact absurd hstep (by simp)

/-- The invariant at the start. -/
theorem ServerInv.start (clients : List Nat) (mem : Mem β) (data : δ) :
    ServerInv clients (Thread.start clients mem data) := by
  refine ⟨List.Perm.refl _, ?_, ⟨List.nodup_nil, ?_, ?_, ?_, ?_⟩, fun n => .none, trivial⟩
  · intro m
    simp [Thread.start, Thread.up]
  · exact fun c hc => absurd hc (by simp [Thread.start])
  · exact fun n k hk => absurd hk (by simp [Thread.start])
  · exact fun n m k hk => absurd hk (by simp [Thread.start])
  · exact fun k hk => absurd hk (by simp [Thread.start])

/-- The invariant says what is to hold. -/
theorem ServerInv.orderly (h : ServerInv clients s) : Orderly clients s := by
  have hkept : ∀ k < s.opened, some k ∉ s.closed → ∃ n ∈ s.up, (s.peers n).sock = some k := by
    intro k hk hopen
    obtain ⟨n, hn⟩ := h.sockets.kept k hk hopen
    exact ⟨n, (h.sock n).mp (by rw [hn]; rfl), hn⟩
  refine ⟨?_, ?_, h.sockets.once, h.sockets.valid, fun n k hk => (h.sockets.live n k hk).2, ?_, ?_,
    ?_⟩
  · intro hpoint
    have hlists := h.lists
    rw [Thread.up, Thread.down, hpoint] at hlists
    exact hlists
  · intro hpoint n _
    have hsock := h.sock n
    rw [Thread.up, hpoint] at hsock
    exact hsock
  · intro k hk hopen
    obtain ⟨n, hn, hsock⟩ := hkept k hk hopen
    exact ⟨n, h.lists.mem_iff.mp (List.mem_append_left _ hn), hsock⟩
  · intro n
    have hcalls := h.calls n
    split_ifs at hcalls
    · exact Or.inr hcalls
    · exact Or.inl hcalls
  · intro hpoint
    have hbusy := h.busy
    rw [Thread.Busy, hpoint] at hbusy
    have hup : s.up = [] := by
      rw [Thread.up, hpoint]
      exact hbusy
    refine ⟨fun k hk => ?_, fun n => ?_⟩
    · by_contra hopen
      obtain ⟨n, hn, -⟩ := hkept k hk hopen
      rw [hup] at hn
      exact absurd hn (by simp)
    · have hsock : (s.peers n).sock.isSome = false := by
        have hiff := h.sock n
        rw [hup] at hiff
        simpa using hiff
      have hcalls := h.calls n
      rw [Thread.inSession, hsock] at hcalls
      exact hcalls

end

/-- **The server thread is orderly.** In a run in which every `INIT` queues a transfer and no
shutdown comes while a connect is in progress, every client is on one of the two lists at every
`poll` and has a socket if it is on the active one, no socket is closed twice or lost, and the calls
of the procedure for each client are sessions. -/
theorem server_orderly [DecidableEq β] {su : Setup β δ} (hproc : Queues su.proc)
    {clients : List Nat} (hclients : clients.Nodup) {mem : Mem β} {data : δ} {es : List Event}
    {s : Thread β δ} (hrun : run (step su) (Thread.start clients mem data) es = some s)
    (hok : Along (step su) (SafeServe su) (Thread.start clients mem data) es) :
    Orderly clients s :=
  (run_invariant (fun _ _ _ h hok hstep => ServerInv.step h hclients hproc hok hstep)
    (ServerInv.start clients mem data) hok hrun).orderly

/-! ## Three runs -/

/-- A procedure that sends each byte it receives back. -/
def echo (e : Env Unit Unit) (why : Why) : Env Unit Unit × Status :=
  match why with
  | .init | .send => ({ e with client := serverRecv e.client ⟨(), 0⟩ 1 }, .ok)
  | .recv => ({ e with client := serverSend e.client ⟨(), 0⟩ 1 }, .ok)
  | .drop => (e, .ok)

/-- A server with one procedure for all its clients. -/
def serverOf (proc : ServerProc Unit Unit) : Setup Unit Unit := ⟨fun _ => proc, 5, 16⟩

/-- A server with one client, at its start. -/
def oneClient : Thread Unit Unit := .start [0] (fun _ _ => 0) ()

theorem echo_queues : Queues (serverOf echo).proc := by
  constructor
  · intro n e why hstate
    cases why with
    | drop => exact hstate
    | init => exact State.noConfusion
    | recv => exact State.noConfusion
    | send => exact State.noConfusion
  · intro n e _
    exact State.noConfusion

/-- A connect that completes: the check, the connect, `poll` and the client's turn. -/
def connects (now : Int) : List Event :=
  [.check now, .connect true, .poll false, .turn { pollout := true } now false]

/-- The client gets a byte back and hangs up; it is connected again, and then the server stops. -/
def twoSessions : List Event :=
  connects 0 ++
    [.check 1, .poll false, .turn { pollin := true } 1 false, .recv [.recvd [7]], .send 1 false,
      .check 2, .poll false, .turn { pollin := true } 2 false, .recv [.recvd []]] ++
    connects 10 ++ [.check 11, .poll true, .drop, .drop]

theorem server_orderly_twoSessions :
    ∃ s, run (step (serverOf echo)) oneClient twoSessions = some s ∧
    Orderly [0] s := by
  have hsome : (run (step (serverOf echo)) oneClient twoSessions).isSome := by decide
  obtain ⟨s, hrun⟩ := Option.isSome_iff_exists.mp hsome
  exact ⟨s, hrun, server_orderly echo_queues (by simp) hrun (by decide)⟩

example : ((run (step (serverOf echo)) oneClient twoSessions).map fun s =>
    (callsOf s.calls 0, s.closed)) =
      some ([.init, .recv, .send, .drop, .init, .drop], [some 0, some 1]) := by
  decide

/-- The server stops while the connect is in progress. -/
def earlyStop : List Event := [.check 0, .connect true, .poll true, .drop, .drop]

/-- **`DROP` without an `INIT`**: a shutdown drops a client whose connect has not completed. -/
theorem drop_without_init : ∃ s, run (step (serverOf echo)) oneClient earlyStop = some s ∧
    callsOf s.calls 0 = [.drop] ∧ ¬ Orderly [0] s := by
  have hrun : ((run (step (serverOf echo)) oneClient earlyStop).map fun s => callsOf s.calls 0) =
      some [.drop] := by decide
  obtain ⟨s, hs, hcalls⟩ := Option.map_eq_some_iff.mp hrun
  refine ⟨s, hs, hcalls, fun h => ?_⟩
  have hsessions := h.calls 0
  rw [hcalls] at hsessions
  revert hsessions
  decide

/-- A procedure that fails and never queues anything. -/
def refuse (e : Env Unit Unit) (_ : Why) : Env Unit Unit × Status := (e, .error)

/-- The server stops after an `INIT` that has failed. -/
def failedInit : List Event := connects 0 ++ [.check 1, .poll true, .drop]

/-- **`INIT` without a `DROP`**: a client whose `INIT` has failed before it has queued anything is
taken for one whose connect has failed. -/
theorem init_without_drop : ∃ s, run (step (serverOf refuse)) oneClient failedInit = some s ∧
    s.point = .stopped ∧ callsOf s.calls 0 = [.init] ∧ ¬ Orderly [0] s := by
  have hrun : ((run (step (serverOf refuse)) oneClient failedInit).map fun s =>
      (s.point, callsOf s.calls 0)) = some (.stopped, [.init]) := by decide
  obtain ⟨s, hs, heq⟩ := Option.map_eq_some_iff.mp hrun
  obtain ⟨hpoint, hcalls⟩ := Prod.mk.inj heq
  refine ⟨s, hs, hpoint, hcalls, fun h => ?_⟩
  have hsessions := (h.done hpoint).2 0
  rw [hcalls] at hsessions
  revert hsessions
  decide

end Nsdci.Server
