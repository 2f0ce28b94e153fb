import Nsdci.Lib.Session
import Nsdci.Lib.Transition
import Nsdci.Server

/-!
# The server thread (`DciServer`)

The loop of the server thread over all its clients, cut into steps: a step is the check for
reconnects, one connect, one `poll`, the begin of a client's turn, one `Callback`, or one drop on
the way out. `Point` says where the thread is, `Event` what the outside world answers.

The clients have numbers, and the two linked lists are lists of these. Sockets have numbers too,
one for each connect that gives one, so a socket that is closed twice can be told from one that has
come again.
-/

namespace Nsdci.Server

open Lib

variable {β δ : Type}

/-- `revents`. -/
structure Revents where
  pollin : Bool := false
  pollout : Bool := false
  pollhup : Bool := false
  deriving DecidableEq, Repr

/-- A client of the thread. Without a socket, `sock` is -1 in the source. -/
structure Peer (β : Type) where
  sock : Option Nat := none
  client : Client β := {}

/-- Where the thread is, with the clients it has not come to yet: before the check for reconnects,
in the loop of connects, before `poll`, before a client's turn, in one of a client's loops of
callbacks, in the loop behind the main loop, and at the end. In the loop of recv callbacks it has
seen whether `revents` had `POLLOUT`. -/
inductive Point where
  | top
  | connecting (todo : List Nat)
  | poll
  | serving (todo : List Nat)
  | receiving (n : Nat) (pollout : Bool) (todo : List Nat)
  | sending (n : Nat) (todo : List Nat)
  | dropping
  | stopped
  deriving DecidableEq, Repr

/-- The next connect, or `poll`. -/
def Point.connects : List Nat → Point
  | [] => .poll
  | n :: todo => .connecting (n :: todo)

/-- The next client's turn, or the main loop again. -/
def Point.serves : List Nat → Point
  | [] => .top
  | n :: todo => .serving (n :: todo)

/-- A server: the procedure (which is given the client), and the configuration. -/
structure Setup (β δ : Type) where
  proc : Nat → ServerProc β δ
  retryInterval : Int
  bufsize : Nat

/-- The thread: `active` and `retry` are the lists from `firstActivePtr` and `firstRetryPtr`,
`retryTime` is `retry`. `opened` counts the sockets, `closed` has all arguments of `close`, and
`calls` all calls of the procedure. -/
structure Thread (β δ : Type) where
  point : Point := .top
  peers : Nat → Peer β := fun _ => {}
  active : List Nat := []
  retry : List Nat
  retryTime : Int := 0
  stats : Stats := {}
  mem : Mem β
  data : δ
  opened : Nat := 0
  closed : List (Option Nat) := []
  calls : List (Nat × Why) := []

/-- Count something, for the client and for the server. -/
def Env.count (e : Env β δ) (f : Stats → Stats) : Env β δ :=
  { e with stats := f e.stats, client := { e.client with stats := f e.client.stats } }

namespace Thread

variable (s : Thread β δ) (n : Nat)

/-- What `Callback` and the procedure see. -/
def env : Env β δ := ⟨(s.peers n).client, s.stats, s.mem, s.data⟩

/-- What they leave. -/
def put (e : Env β δ) : Thread β δ :=
  { s with
    peers := Function.update s.peers n { s.peers n with client := e.client }
    stats := e.stats
    mem := e.mem
    data := e.data }

/-- Go on at another point. -/
def goto (point : Point) : Thread β δ := { s with point := point }

/-- `close`, and -1 for the socket. -/
def close : Thread β δ :=
  { s with
    peers := Function.update s.peers n { s.peers n with sock := none }
    closed := s.closed ++ [(s.peers n).sock] }

/-- A connect of a client on the old list to reconnect. -/
def connect (ok : Bool) (todo : List Nat) : Thread β δ :=
  if ok then
    { s with
      point := .connects todo
      peers := Function.update s.peers n
        ⟨some s.opened, { (s.peers n).client with state := .connecting }⟩
      opened := s.opened + 1
      active := n :: s.active }
  else { s with point := .connects todo, retry := n :: s.retry }

variable (su : Setup β δ)

/-- A call of the server procedure. -/
def call (why : Why) : Thread β δ × Status :=
  let r := su.proc n (s.env n) why
  ({ s.put n r.1 with calls := s.calls ++ [(n, why)] }, r.2)

/-- `DropClient`. The result of the server procedure is not used. -/
def dropClient : Thread β δ :=
  let s := s.close n
  ((s.put n ((s.env n).count fun st => { st with ndcb := st.ndcb + 1 })).call n su .drop).1

/-- The end of a client's turn: back on the active list, or to the list to reconnect. Only a
client that was connected is dropped. -/
def settle (res : Status) (todo : List Nat) : Thread β δ :=
  if res ≠ .error then { s with point := .serves todo, active := n :: s.active }
  else if (s.peers n).client.state = .connecting then
    { s.close n with point := .serves todo, retry := n :: s.retry }
  else { s.dropClient n su with point := .serves todo, retry := n :: s.retry }

/-- What `INIT` finds: the read-ahead is forgotten. -/
def initEnv (now : Int) : Env β δ :=
  let e := (s.env n).count fun st => { st with nicb := st.nicb + 1 }
  { e with client := { e.client with ahead := [], ctime := now, mtime := 0 } }

/-- A connect has completed: call the server procedure. -/
def connected (now : Int) (todo : List Nat) : Thread β δ :=
  let r := (s.put n (s.initEnv n now)).call n su .init
  r.1.settle n su r.2 todo

/-- The begin of a client's turn. `refused` says that `send` found the connect failed. -/
def turn (r : Revents) (now : Int) (refused : Bool) (todo : List Nat) : Thread β δ :=
  let e := s.env n
  let touched := s.put n { e with client := { e.client with mtime := now } }
  match e.client.state with
  | .connecting =>
      if r.pollout || r.pollhup then
        if refused then s.settle n su .error todo else s.connected n su now todo
      else s.settle n su .ok todo
  | .recvData =>
      if r.pollin then touched.goto (.receiving n r.pollout todo) else s.settle n su .ok todo
  | .sendData =>
      if r.pollout then touched.goto (.sending n todo) else s.settle n su .ok todo

/-- The end of a `Callback`: the procedure is called when the transfer is complete. -/
def callback (why : Why) (r : Env β δ × Option Status) : Thread β δ × Status :=
  match r.2 with
  | none => (s.put n r.1).call n su why
  | some res => (s.put n r.1, res)

/-- One turn of the loop of recv callbacks. A callback that has queued a send goes on with the
loop of send callbacks without another `poll`. -/
def recvTurn [DecidableEq β] (pollout : Bool) (ios : List IoResult) (todo : List Nat) :
    Thread β δ :=
  let r := callbackRecv su.bufsize (s.env n) ios
  let (s, res) := s.callback n su .recv (r.1, r.2.1)
  match res, (s.peers n).client.state with
  | .ok, .recvData => s.goto (.receiving n pollout todo)
  | .ok, .sendData => s.goto (.sending n todo)
  | res, .sendData => if pollout then s.goto (.sending n todo) else s.settle n su res todo
  | res, _ => s.settle n su res todo

/-- One turn of the loop of send callbacks. -/
def sendTurn (ret : Int) (again : Bool) (todo : List Nat) : Thread β δ :=
  let (s, res) := s.callback n su .send (callbackSend (s.env n) ret again)
  match res, (s.peers n).client.state with
  | .ok, .sendData => s.goto (.sending n todo)
  | res, _ => s.settle n su res todo

/-- `poll` has returned: the loop over the clients, or the way out. -/
def polled (trigger : Bool) : Thread β δ :=
  if trigger then s.goto .dropping else { s with point := .serves s.active, active := [] }

/-- The loop behind the main loop. At its end all clients are freed. -/
def sweep : Thread β δ :=
  match s.active with
  | [] => s.goto .stopped
  | n :: active =>
      let s := Thread.dropClient { s with active := active } n su
      { s with retry := n :: s.retry }

end Thread

/-- What happens: the time at the check for reconnects, the result of a connect, the return of
`poll` (with the trigger of a shutdown), the begin of a client's turn with its `revents` and the
time, one `recv` or `sendmsg`, and a drop on the way out. -/
inductive Event where
  | check (now : Int)
  | connect (ok : Bool)
  | poll (trigger : Bool)
  | turn (r : Revents) (now : Int) (refused : Bool)
  | recv (ios : List IoResult)
  | send (ret : Int) (again : Bool)
  | drop

/-- One step of the thread. -/
def step [DecidableEq β] (su : Setup β δ) (s : Thread β δ) (e : Event) : Option (Thread β δ) :=
  match s.point, e with
  | .top, .check now => some (
      if s.retry ≠ [] ∧ s.retryTime ≤ now then
        { s with
          point := .connects s.retry
          retry := []
          retryTime := now + su.retryInterval }
      else s.goto .poll)
  | .connecting (n :: todo), .connect ok => some (s.connect n ok todo)
  | .poll, .poll trigger => some (s.polled trigger)
  | .serving (n :: todo), .turn r now refused => some (s.turn n su r now refused todo)
  | .receiving n pollout todo, .recv ios => some (s.recvTurn n su pollout ios todo)
  | .sending n todo, .send ret again => some (s.sendTurn n su ret again todo)
  | .dropping, .drop => some (s.sweep su)
  | _, _ => none

/-- The thread at its start: no client has a socket, all are to connect. -/
def Thread.start (clients : List Nat) (mem : Mem β) (data : δ) : Thread β δ :=
  { retry := clients, mem := mem, data := data }

/-! ## The data of the procedure -/

section

variable {su : Setup β δ} {I : δ → Prop} {s s' : Thread β δ} {n : Nat}

/-- What the procedure keeps of its data. -/
def KeepsData (su : Setup β δ) (I : δ → Prop) : Prop :=
  ∀ n e why, I e.data → I (su.proc n e why).1.data

theorem callbackRecv_data [DecidableEq β] (bufsize : Nat) (e : Env β δ) (ios : List IoResult) :
    (callbackRecv bufsize e ios).1.data = e.data := by
  unfold callbackRecv
  dsimp only
  split
  · rfl
  · split_ifs <;> rfl

theorem callbackSend_data (e : Env β δ) (ret : Int) (again : Bool) :
    (callbackSend e ret again).1.data = e.data := by
  unfold callbackSend callbackSent
  split_ifs
  · rfl
  · dsimp only
    split_ifs <;> rfl

theorem settle_data (hkeep : KeepsData su I) (hs : I s.data) (res : Status) (todo : List Nat) :
    I (s.settle n su res todo).data := by
  unfold Thread.settle
  split_ifs
  · exact hs
  · exact hs
  · exact hkeep _ _ _ hs

theorem callback_data (hkeep : KeepsData su I) {r : Env β δ × Option Status} (hr : I r.1.data)
    (why : Why) : I (s.callback n su why r).1.data := by
  unfold Thread.callback
  split
  · exact hkeep _ _ _ hr
  · exact hr

theorem turn_data (hkeep : KeepsData su I) (hs : I s.data) (r : Revents) (now : Int)
    (refused : Bool) (todo : List Nat) : I (s.turn n su r now refused todo).data := by
  unfold Thread.turn
  dsimp only
  split
  · split_ifs
    · exact settle_data hkeep hs _ _
    · exact settle_data hkeep (hkeep _ _ _ hs) _ _
    · exact settle_data hkeep hs _ _
  · split_ifs
    · exact hs
    · exact settle_data hkeep hs _ _
  · split_ifs
    · exact hs
    · exact settle_data hkeep hs _ _

theorem recvTurn_data [DecidableEq β] (hkeep : KeepsData su I) (hs : I s.data) (pollout : Bool)
    (ios : List IoResult) (todo : List Nat) : I (s.recvTurn n su pollout ios todo).data := by
  have hback : I (s.callback n su .recv ((callbackRecv su.bufsize (s.env n) ios).1,
      (callbackRecv su.bufsize (s.env n) ios).2.1)).1.data :=
    callback_data hkeep ((callbackRecv_data su.bufsize (s.env n) ios).symm ▸ hs) _
  unfold Thread.recvTurn
  dsimp only
  split
  · exact hback
  · exact hback
  · split_ifs
    · exact hback
    · exact settle_data hkeep hback _ _
  · exact settle_data hkeep hback _ _

theorem sendTurn_data (hkeep : KeepsData su I) (hs : I s.data) (ret : Int) (again : Bool)
    (todo : List Nat) : I (s.sendTurn n su ret again todo).data := by
  have hback : I (s.callback n su .send (callbackSend (s.env n) ret again)).1.data :=
    callback_data hkeep ((callbackSend_data (s.env n) ret again).symm ▸ hs) _
  unfold Thread.sendTurn
  dsimp only
  split
  · exact hback
  · exact settle_data hkeep hback _ _

/-- **What the procedure keeps of its data, every step keeps.** -/
theorem step_data [DecidableEq β] (hkeep : KeepsData su I) (hs : I s.data) {e : Event}
    (hstep : step su s e = some s') : I s'.data := by
  unfold step at hstep
  split at hstep <;> try obtain rfl := Option.some.inj hstep
  · split_ifs <;> exact hs
  · unfold Thread.connect
    split_ifs <;> exact hs
  · unfold Thread.polled
    split_ifs <;> exact hs
  · exact turn_data hkeep hs _ _ _ _
  · exact recvTurn_data hkeep hs _ _ _
  · exact sendTurn_data hkeep hs _ _ _
  · unfold Thread.sweep
    split
    · exact hs
    · exact hkeep _ _ _ hs
  · exact absurd hstep.symm (Option.some_ne_none _)

end

end Nsdci.Server
