import Nsdci.Rps.Callback

/-!
# The thread of an RPC server

`RpsInv` is the invariant of all clients together. The main result is `rps_dispatch`: in every run
of the thread, whatever the sizes of the buffer and of the pieces that come in, and however often a
client is dropped and connected again, the procedure is called in each session on the requests that
have come, each once and in order.
-/

namespace Nsdci.Rps

open Lib Server

variable {α : Type} {bufsize : Nat} {mem₀ : Mem Block} {n m : Nat}

/-- What has been seen of client `n`. -/
def Watch.seen (w : Watch) (n : Nat) : Seen := ⟨w.got n, w.sent n, w.start n, w.paced n, w.clean n⟩

/-- The thread is in the loop of recv callbacks of client `n`. -/
def Receives (s : Thread Block (Data α)) (n : Nat) : Prop :=
  ∃ pollout todo, s.point = .receiving n pollout todo

/-- Client `n` is as it is to be. -/
def SeatedAt (bufsize : Nat) (mem₀ : Mem Block) (n : Nat) (s : Thread Block (Data α)) (w : Watch) :
    Prop :=
  Seated bufsize mem₀ n (s.env n) (s.inSession n = true) (Receives s n) (w.seen n)

/-! ## The other clients -/

/-- What client `n` has is the same. -/
structure Same (n : Nat) (s s' : Thread Block (Data α)) : Prop where
  peer : s'.peers n = s.peers n
  mem : view s'.mem n = view s.mem n
  shake : s'.mem .handshake = s.mem .handshake
  cdata : s'.data.cdata n = s.data.cdata n
  next : s'.data.next n = s.data.next n
  calls : s'.data.calls n = s.data.calls n

variable {s s' s'' : Thread Block (Data α)} {w w' : Watch}

theorem Same.trans (h : Same n s s') (h' : Same n s' s'') : Same n s s'' :=
  ⟨h'.peer.trans h.peer, h'.mem.trans h.mem, h'.shake.trans h.shake, h'.cdata.trans h.cdata,
    h'.next.trans h.next, h'.calls.trans h.calls⟩

theorem same_put {e : Env Block (Data α)} (hm : n ≠ m) (he : SameFor n (s.env m) e) :
    Same n s (s.put m e) :=
  ⟨Function.update_of_ne hm _ _, he.mem, he.shake, he.cdata, he.next, he.calls⟩

theorem same_close (hm : n ≠ m) : Same n s (s.close m) :=
  ⟨Function.update_of_ne hm _ _, rfl, rfl, rfl, rfl, rfl⟩

variable (lib : DStringLib) (proc : RpcProc α) (bufsize) (retryInterval : Int)

theorem same_call (hm : n ≠ m) (why : Why) :
    Same n s (s.call m (rpsSetup lib proc bufsize retryInterval) why).1 := by
  have hsame : SameFor n (s.env m) (rpsProc lib proc m (s.env m) why).1 :=
    rpsProc_same lib proc m (s.env m) why hm
  have hput := same_put (s := s) hm hsame
  exact ⟨hput.peer, hput.mem, hput.shake, hput.cdata, hput.next, hput.calls⟩

theorem same_dropClient (hm : n ≠ m) :
    Same n s (s.dropClient m (rpsSetup lib proc bufsize retryInterval)) := by
  unfold Thread.dropClient
  have hput : Same n (s.close m) ((s.close m).put m
      (((s.close m).env m).count fun st => { st with ndcb := st.ndcb + 1 })) :=
    same_put hm ⟨rfl, rfl, rfl, rfl, rfl⟩
  exact ((same_close hm).trans hput).trans (same_call bufsize lib proc retryInterval hm .drop)

theorem same_settle (hm : n ≠ m) (res : Status) (todo : List Nat) :
    Same n s (s.settle m (rpsSetup lib proc bufsize retryInterval) res todo) := by
  unfold Thread.settle
  split_ifs
  · exact ⟨rfl, rfl, rfl, rfl, rfl, rfl⟩
  · exact (same_close hm).trans ⟨rfl, rfl, rfl, rfl, rfl, rfl⟩
  · exact (same_dropClient bufsize lib proc retryInterval hm).trans ⟨rfl, rfl, rfl, rfl, rfl, rfl⟩

theorem same_callback (hm : n ≠ m) (why : Why) {r : Env Block (Data α) × Option Status}
    (hr : SameFor n (s.env m) r.1) :
    Same n s (s.callback m (rpsSetup lib proc bufsize retryInterval) why r).1 := by
  unfold Thread.callback
  cases r.2 with
  | none => exact (same_put hm hr).trans (same_call bufsize lib proc retryInterval hm why)
  | some res => exact same_put hm hr

theorem same_turn (hm : n ≠ m) (r : Revents) (now : Int) (refused : Bool) (todo : List Nat) :
    Same n s (s.turn m (rpsSetup lib proc bufsize retryInterval) r now refused todo) := by
  have hsettle := fun (res : Status) =>
    same_settle (s := s) bufsize lib proc retryInterval hm res todo
  have htouch :
      Same n s (s.put m { s.env m with client := { (s.env m).client with mtime := now } }) :=
    same_put hm ⟨rfl, rfl, rfl, rfl, rfl⟩
  unfold Thread.turn
  dsimp only
  split
  · split_ifs
    · exact hsettle _
    · have hinit : Same n s (s.put m (s.initEnv m now)) :=
        same_put hm ⟨rfl, rfl, rfl, rfl, rfl⟩
      exact (hinit.trans (same_call bufsize lib proc retryInterval hm .init)).trans
        (same_settle bufsize lib proc retryInterval hm _ todo)
    · exact hsettle _
  · split_ifs
    · exact htouch.trans ⟨rfl, rfl, rfl, rfl, rfl, rfl⟩
    · exact hsettle _
  · split_ifs
    · exact htouch.trans ⟨rfl, rfl, rfl, rfl, rfl, rfl⟩
    · exact hsettle _

/-- A `Callback` stores in the memory of its client. -/
theorem callbackRecv_same (hm : n ≠ m) {e : Env Block (Data α)} (hmine : Mine m e.client)
    (hdirect : bufsize = 0 → e.client.ahead = []) (ios : List IoResult) :
    SameFor n e (callbackRecv bufsize e ios).1 := by
  obtain ⟨hdata, -, -, -, hres⟩ := callbackRecv_spec bufsize e ios hdirect
  have hmem : view (callbackRecv bufsize e ios).1.mem n = view e.mem n ∧
      (callbackRecv bufsize e ios).1.mem .handshake = e.mem .handshake := by
    rcases hres with ⟨st, -, -, hmem, -⟩ | ⟨bs, -, -, hmem, -⟩
    · rw [hmem]
      exact ⟨rfl, rfl⟩
    · rw [hmem]
      cases hbuf : e.client.bufPtr with
      | none => exact ⟨rfl, rfl⟩
      | some p =>
          obtain ⟨b, hb⟩ := hmine.1 p hbuf
          have hp : p = owned m ⟨b, p.off⟩ := by
            obtain ⟨block, off⟩ := p
            exact congrArg (Ptr.mk · off) hb
          show view (e.mem.write p bs) n = _ ∧ e.mem.write p bs .handshake = _
          rw [hp]
          exact ⟨view_write_ne _ _ _ hm, write_handshake _ _ _ _⟩
  refine ⟨hmem.1, hmem.2, ?_, ?_, ?_⟩ <;> rw [hdata]

theorem same_recvTurn (hm : n ≠ m) (hmine : Mine m (s.env m).client)
    (hdirect : bufsize = 0 → (s.env m).client.ahead = []) (pollout : Bool) (ios : List IoResult)
    (todo : List Nat) :
    Same n s (s.recvTurn m (rpsSetup lib proc bufsize retryInterval) pollout ios todo) := by
  have hback := same_callback (s := s) bufsize lib proc retryInterval hm .recv
    (r := ((callbackRecv bufsize (s.env m) ios).1, (callbackRecv bufsize (s.env m) ios).2.1))
    (callbackRecv_same bufsize hm hmine hdirect ios)
  have hsettle := fun (t : Thread Block (Data α)) (res : Status) =>
    same_settle (s := t) bufsize lib proc retryInterval hm res todo
  unfold Thread.recvTurn
  dsimp only
  split
  · exact hback.trans ⟨rfl, rfl, rfl, rfl, rfl, rfl⟩
  · exact hback.trans ⟨rfl, rfl, rfl, rfl, rfl, rfl⟩
  · split_ifs
    · exact hback.trans ⟨rfl, rfl, rfl, rfl, rfl, rfl⟩
    · exact hback.trans (hsettle _ _)
  · exact hback.trans (hsettle _ _)

theorem same_sendTurn (hm : n ≠ m) (ret : Int) (again : Bool) (todo : List Nat) :
    Same n s (s.sendTurn m (rpsSetup lib proc bufsize retryInterval) ret again todo) := by
  obtain ⟨hdata, hmem, -⟩ := callbackSend_spec (s.env m) ret again
  have hsame : SameFor n (s.env m) (callbackSend (s.env m) ret again).1 := by
    refine ⟨congrArg (view · n) hmem, congrFun hmem _, ?_, ?_, ?_⟩ <;> rw [hdata]
  have hback := same_callback (s := s) bufsize lib proc retryInterval hm .send
    (r := callbackSend (s.env m) ret again) hsame
  unfold Thread.sendTurn
  dsimp only
  split
  · exact hback.trans ⟨rfl, rfl, rfl, rfl, rfl, rfl⟩
  · exact hback.trans (same_settle bufsize lib proc retryInterval hm _ todo)

variable {bufsize}

/-- **A step for another client.** -/
theorem SeatedAt.other (h : SeatedAt bufsize mem₀ n s w) (hsame : Same n s s')
    (hpoint : ¬Receives s n) (hw : w'.seen n = w.seen n) : SeatedAt bufsize mem₀ n s' w' := by
  have hup : s'.inSession n = s.inSession n := by
    unfold Thread.inSession
    rw [hsame.peer]
  have hclient : (s'.env n).client = (s.env n).client := congrArg Peer.client hsame.peer
  have henv : SameFor n (s.env n) (s'.env n) :=
    ⟨hsame.mem, hsame.shake, hsame.cdata, hsame.next, hsame.calls⟩
  have hseated := Seated.congr h henv hclient
  unfold SeatedAt
  rw [hw, hup]
  exact { hseated with paced := fun hp hin _ => hseated.paced hp hin hpoint }

/-! ## The client that has its turn -/

section

variable {e e' : Env Block (Data α)} {up up' busy busy' : Prop} {x : Seen}

/-- Less is to hold of a client that is not in its session. -/
theorem Seated.mono (h : Seated bufsize mem₀ n e up busy x) (hup : up' → up)
    (hbusy : up' → busy → busy') : Seated bufsize mem₀ n e up' busy' x := by
  obtain ⟨rest, hgot, hphase⟩ := h.session
  refine { h with
    session := ⟨rest, hgot, fun hin => hphase (hup hin)⟩
    paced := fun hp hin hb => h.paced hp (hup hin) fun hbusy' => hb (hbusy hin hbusy')
    sent := fun hclean => ?_ }
  obtain ⟨hfront, hsending, hidle⟩ := h.sent hclean
  exact ⟨hfront, fun hin => hsending (hup hin), fun hin => hidle (hup hin)⟩

/-- A client that is not in its session any more. -/
theorem Seated.down (h : Seated bufsize mem₀ n e up busy x) (hmem : e'.mem = e.mem)
    (hdata : e'.data = e.data) (hbuf : e'.client.bufPtr = e.client.bufPtr)
    (hiov : e'.client.iov = e.client.iov) (hahead : e'.client.ahead = e.client.ahead) :
    Seated bufsize mem₀ n e' False busy' x := by
  obtain ⟨rest, hgot, -⟩ := h.session
  refine ⟨hdata ▸ h.own, ⟨hbuf ▸ h.mine.1, hiov ▸ h.mine.2⟩, hmem ▸ h.shake, hahead ▸ h.direct,
    hdata ▸ h.start, hdata ▸ h.sound, ⟨rest, hdata ▸ hgot, nofun⟩, fun _ => nofun, fun hclean => ?_⟩
  exact ⟨hdata ▸ (h.sent hclean).front, nofun, nofun⟩

/-- The times and the counters of a client do not matter. -/
theorem Seated.touch (h : Seated bufsize mem₀ n e up busy x) (hmem : e'.mem = e.mem)
    (hdata : e'.data = e.data) (hstate : e'.client.state = e.client.state)
    (hbuf : e'.client.bufPtr = e.client.bufPtr) (hiov : e'.client.iov = e.client.iov)
    (hahead : e'.client.ahead = e.client.ahead) (hnleft : e'.client.nleft = e.client.nleft) :
    Seated bufsize mem₀ n e' up busy x := by
  obtain ⟨rest, hgot, hphase⟩ := h.session
  have hdown : Seated bufsize mem₀ n e' False busy x := h.down hmem hdata hbuf hiov hahead
  refine { hdown with
    session := ⟨rest, hdata ▸ hgot, fun hin => ?_⟩
    paced := hahead ▸ h.paced
    sent := fun hclean => ?_ }
  · obtain ⟨d, hd, hphase⟩ := hphase hin
    have hmore : Phase n e'.client (view e.mem n) d (rest ++ []) :=
      hphase.more hstate hbuf hnleft (by rw [List.append_nil, hahead])
    rw [List.append_nil] at hmore
    exact ⟨d, hdata ▸ hd, hmem ▸ hmore⟩
  · obtain ⟨hfront, hsending, hidle⟩ := h.sent hclean
    rw [hdata]
    refine ⟨hfront, ?_, ?_⟩
    · rw [hstate, hmem, hiov, hnleft]
      exact hsending
    · rw [hstate]
      exact hidle

/-- A client in its session sends or receives. -/
theorem Seated.state (h : Seated bufsize mem₀ n e up busy x) (hup : up) :
    e.client.state = .sendData ∨ e.client.state = .recvData := by
  obtain ⟨rest, -, hphase⟩ := h.session
  obtain ⟨d, -, hphase⟩ := hphase hup
  cases hphase with
  | sending state => exact Or.inl state
  | header k state => exact Or.inr state
  | body k cmd state => exact Or.inr state
  | refused cmd word rest state => exact Or.inr state

end

/-- What a `Callback` leaves of its client. -/
theorem callback_env (bufsize : Nat) (why : Why) (r : Env Block (Data α) × Option Status) :
    let t := s.callback n (rpsSetup lib proc bufsize retryInterval) why r
    (t.1.env n, t.2) = finish (rpsProc lib proc n) why r := by
  unfold Thread.callback finish
  cases r.2 with
  | none =>
      show ((((s.put n r.1).put n (rpsProc lib proc n ((s.put n r.1).env n) why).1).env n),
        (rpsProc lib proc n ((s.put n r.1).env n) why).2) = _
      rw [Thread.put_env, Thread.put_env]
  | some res => exact congrArg (·, res) (s.put_env n r.1)

/-- The socket of a client is closed. -/
theorem close_seated {up busy : Prop} (h : Seated bufsize mem₀ n (s.env n) up busy (w.seen n)) :
    Seated bufsize mem₀ n ((s.close n).env n) False False (w.seen n) := by
  have hclient : ((s.close n).env n).client = (s.env n).client := s.close_client n n
  exact h.down rfl rfl (congrArg Client.bufPtr hclient) (congrArg Client.iov hclient)
    (congrArg Client.ahead hclient)

/-- A client is dropped. -/
theorem dropClient_seated {up busy : Prop}
    (h : Seated bufsize mem₀ n (s.env n) up busy (w.seen n)) :
    SeatedAt bufsize mem₀ n (s.dropClient n (rpsSetup lib proc bufsize retryInterval)) w := by
  have hcount : Seated bufsize mem₀ n
      (((s.close n).env n).count fun st => { st with ndcb := st.ndcb + 1 }) False False
      (w.seen n) := (close_seated h).down rfl rfl rfl rfl rfl
  have hdrop := hcount.drop lib proc
  have henv : (s.dropClient n (rpsSetup lib proc bufsize retryInterval)).env n =
      (rpsProc lib proc n
        (((s.close n).env n).count fun st => { st with ndcb := st.ndcb + 1 }) .drop).1 := by
    show (Thread.put _ n (rpsProc lib proc n (Thread.env (Thread.put _ n _) n) .drop).1).env n = _
    rw [Thread.put_env, Thread.put_env]
  have hdown : (s.dropClient n (rpsSetup lib proc bufsize retryInterval)).inSession n = false := by
    unfold Thread.inSession
    rw [s.dropClient_sock, if_pos rfl]
    rfl
  unfold SeatedAt
  rw [henv, hdown]
  exact hdrop.mono (fun h => absurd h Bool.false_ne_true) nofun

/-- **The end of a client's turn.** -/
theorem settle_seated {busy : Prop} {res : Status} {todo : List Nat}
    (h : Seated bufsize mem₀ n (s.env n) (s.inSession n = true) busy (w.seen n))
    (hbusy : busy → res = .error) :
    SeatedAt bufsize mem₀ n (s.settle n (rpsSetup lib proc bufsize retryInterval) res todo) w := by
  unfold Thread.settle
  split_ifs with hres hstate
  · exact h.mono id fun _ hb => absurd (hbusy hb) hres
  · have hdown := close_seated h
    have hout : (s.close n).inSession n = false := by
      unfold Thread.inSession
      rw [s.close_sock, if_pos rfl]
      rfl
    exact hdown.mono (fun hin => absurd (hout.symm.trans hin) Bool.false_ne_true) nofun
  · have hdrop := dropClient_seated (w := w) lib proc retryInterval h
    exact Seated.mono hdrop id fun hin _ => by
      have hout := s.dropClient_sock n (rpsSetup lib proc bufsize retryInterval) n
      rw [if_pos rfl] at hout
      have hin' : (s.dropClient n (rpsSetup lib proc bufsize retryInterval)).inSession n = true :=
        hin
      unfold Thread.inSession at hin'
      rw [hout] at hin'
      exact absurd hin' nofun

/-- A client in a loop of callbacks is in the state for it. -/
def Loop (s : Thread Block (Data α)) : Prop :=
  match s.point with
  | .receiving n _ _ => (s.peers n).client.state = .recvData
  | .sending n _ => (s.peers n).client.state = .sendData
  | _ => True

theorem loop_serves (todo : List Nat) (h : s.point = .serves todo) : Loop s := by
  unfold Loop
  rw [h]
  cases todo <;> trivial

theorem loop_settle (res : Status) (todo : List Nat) :
    Loop (s.settle n (rpsSetup lib proc bufsize retryInterval) res todo) := by
  unfold Thread.settle
  split_ifs
  · exact loop_serves todo rfl
  · exact loop_serves todo rfl
  · exact loop_serves todo rfl

/-- A `Callback` that gives up goes on receiving. -/
theorem finish_recv (bufsize : Nat) {e : Env Block (Data α)} (hstate : e.client.state = .recvData)
    (ios : List IoResult) :
    let r := finish (rpsProc lib proc n) .recv
      ((callbackRecv bufsize e ios).1, (callbackRecv bufsize e ios).2.1)
    r.2 = .ok ∨ r.1.client.state = .recvData := by
  have hsame := callbackRecv_state bufsize e ios
  unfold finish
  dsimp only
  cases (callbackRecv bufsize e ios).2.1 with
  | none =>
      left
      show (rpsProc lib proc n _ .recv).2 = .ok
      rw [rpsProc_recv]
  | some st => exact Or.inr (hsame.trans hstate)

/-- **A turn of the loop of recv callbacks.** -/
theorem recvTurn_seated (h : SeatedAt bufsize mem₀ n s w) (hin : s.inSession n = true)
    (hstate : (s.peers n).client.state = .recvData)
    (hproc : Room proc s.data.arg) (pollout : Bool)
    (ios : List IoResult) (todo : List Nat)
    (hw : w'.seen n = ⟨w.got n ++ received bufsize (s.peers n).client ios, w.sent n, w.start n,
      w.paced n ∧ Paced (w.calls s n) (w.got n ++ received bufsize (s.peers n).client ios),
      w.clean n⟩) :
    let s' := s.recvTurn n (rpsSetup lib proc bufsize retryInterval) pollout ios todo
    SeatedAt bufsize mem₀ n s' w' ∧ Loop s' := by
  have hrecv := Seated.recv h hin hstate lib hproc ios
  have henv := callback_env lib proc retryInterval bufsize (s := s) (n := n) .recv
    ((callbackRecv bufsize (s.env n) ios).1, (callbackRecv bufsize (s.env n) ios).2.1)
  have hres := finish_recv lib proc (n := n) bufsize
    (e := s.env n) hstate ios
  rw [← henv] at hrecv hres
  unfold Thread.recvTurn
  dsimp only
  rw [show (rpsSetup lib proc bufsize retryInterval).bufsize = bufsize from rfl]
  generalize s.callback n (rpsSetup lib proc bufsize retryInterval) .recv _ = t at *
  obtain ⟨t, res⟩ := t
  dsimp only at hrecv hres ⊢
  have hseen := hw ▸ hrecv
  split
  · rename_i hnext
    exact ⟨hseen.mono (fun _ => trivial) fun _ _ => ⟨pollout, todo, rfl⟩, hnext⟩
  · rename_i hnext
    refine ⟨hseen.mono (fun _ => trivial) fun _ hb => ?_, hnext⟩
    rw [show (t.env n).client.state = .sendData from hnext] at hb
    simp at hb
  · -- a `Callback` that gives up has not queued a send
    rename_i hok hsend
    rcases hres with hres | hres
    · exact absurd hres hok
    · exact absurd (hsend.symm.trans hres) nofun
  · rename_i hrecvs hsends
    refine ⟨settle_seated lib proc retryInterval (hseen.mono (fun _ => trivial) fun _ hb => hb)
      fun hb => ?_, loop_settle lib proc retryInterval _ todo⟩
    rcases hb with hb | ⟨hok, hrec⟩
    · exact hb
    · exact (hrecvs hok hrec).elim

/-- **A turn of the loop of send callbacks.** -/
theorem sendTurn_seated (h : SeatedAt bufsize mem₀ n s w) (hin : s.inSession n = true)
    (hbusy : ¬Receives s n) (hstate : (s.peers n).client.state = .sendData) (ret : Int)
    (again : Bool) (todo : List Nat)
    (hw : w'.seen n = ⟨w.got n,
      w.sent n ++ (gather s.mem (s.peers n).client.iov).take ret.toNat, w.start n, w.paced n,
      w.clean n ∧ SendsClean (s.peers n).client.iov ret⟩) :
    let s' := s.sendTurn n (rpsSetup lib proc bufsize retryInterval) ret again todo
    SeatedAt bufsize mem₀ n s' w' ∧ Loop s' := by
  have hsend := Seated.send h hin hbusy hstate lib proc ret again
  have henv := callback_env lib proc retryInterval bufsize (s := s) (n := n) .send
    (callbackSend (s.env n) ret again)
  rw [← henv] at hsend
  unfold Thread.sendTurn
  dsimp only
  generalize s.callback n (rpsSetup lib proc bufsize retryInterval) .send _ = t at *
  obtain ⟨t, res⟩ := t
  dsimp only at hsend ⊢
  have hseen := hw ▸ hsend
  split
  · rename_i hnext
    exact ⟨hseen.mono (fun _ => trivial) fun _ => nofun, hnext⟩
  · exact ⟨settle_seated lib proc retryInterval (hseen.mono (fun _ => trivial) fun _ hb => hb)
      nofun,
      loop_settle lib proc retryInterval _ todo⟩

/-- What is seen of a turn, if no session begins. -/
theorem next_turn_same {r : Revents} {now : Int} {refused : Bool} {todo : List Nat}
    (hpoint : s.point = .serving (n :: todo)) (hcalls : s'.calls = s.calls) :
    w.next bufsize s (.turn r now refused) s' = w := by
  have hnone : s'.calls.drop s.calls.length = [] := by
    rw [hcalls]
    exact List.drop_length
  unfold Watch.next
  rw [hpoint]
  show (if (n, Why.init) ∈ _ then _ else w) = w
  rw [hnone, if_neg nofun]

/-- What is seen when a session begins. -/
theorem next_turn_init {r : Revents} {now : Int} {refused : Bool} {todo : List Nat}
    (hpoint : s.point = .serving (n :: todo)) (hcalls : s'.calls = s.calls ++ [(n, .init)]) :
    let w' := w.next bufsize s (.turn r now refused) s'
    w'.seen n = ⟨[], [], (s.data.calls n).length, True, True⟩ ∧ ∀ k, k ≠ n → w'.seen k =
    w.seen k := by
  have hmem : (n, Why.init) ∈ s'.calls.drop s.calls.length := by
    rw [hcalls, List.drop_left]
    exact List.mem_singleton_self _
  unfold Watch.next
  rw [hpoint]
  show (Watch.seen (if (n, Why.init) ∈ _ then _ else w) n = _) ∧
    ∀ k, k ≠ n → Watch.seen (if (n, Why.init) ∈ _ then _ else w) k = _
  rw [if_pos hmem]
  refine ⟨?_, fun k hk => ?_⟩
  · unfold Watch.seen
    simp only [Function.update_self]
  · unfold Watch.seen
    simp only [Function.update_of_ne hk]

/-- What a step of client `n` is to leave. -/
structure Served (bufsize : Nat) (mem₀ : Mem Block) (n : Nat) (w : Watch)
    (s' : Thread Block (Data α)) (w' : Watch) : Prop where
  seated : SeatedAt bufsize mem₀ n s' w'
  loop : Loop s'
  others : ∀ k, k ≠ n → w'.seen k = w.seen k

section

variable {r : Revents} {now : Int} {refused : Bool} {todo : List Nat}

/-- A turn that ends at once. -/
theorem served_settle (h : SeatedAt bufsize mem₀ n s w) (hpoint : s.point = .serving (n :: todo))
    (hidle : ¬Receives s n) (res : Status)
    (hres : res = .error → (s.peers n).client.state = .connecting) :
    let s' := s.settle n (rpsSetup lib proc bufsize retryInterval) res todo
    Served bufsize mem₀ n w s' (w.next bufsize s (.turn r now refused) s') := by
  have hcalls : (s.settle n (rpsSetup lib proc bufsize retryInterval) res todo).calls =
      s.calls := by
    unfold Thread.settle
    split_ifs with hne hstate
    · rfl
    · rfl
    · exact absurd (hres (not_not.mp hne)) hstate
  dsimp only
  rw [next_turn_same hpoint hcalls]
  exact ⟨settle_seated lib proc retryInterval h fun hb => absurd hb hidle,
    loop_settle lib proc retryInterval res todo, fun _ _ => rfl⟩

/-- A turn that goes on in one of the loops of callbacks. -/
theorem served_loop (h : SeatedAt bufsize mem₀ n s w) (hpoint : s.point = .serving (n :: todo))
    (hidle : ¬Receives s n) {e : Env Block (Data α)}
    (he : e = { s.env n with client := { (s.env n).client with mtime := now } }) {point : Point}
    (hloop : Loop ((s.put n e).goto point)) :
    let s' := (s.put n e).goto point
    Served bufsize mem₀ n w s' (w.next bufsize s (.turn r now refused) s') := by
  have hcalls : ((s.put n e).goto point).calls = s.calls := rfl
  dsimp only
  rw [next_turn_same hpoint hcalls]
  refine ⟨?_, hloop, fun _ _ => rfl⟩
  have henv : ((s.put n e).goto point).env n = e := s.put_env n e
  have hin : ((s.put n e).goto point).inSession n = s.inSession n :=
    inSession_put s n (by rw [he]; rfl) n
  unfold SeatedAt
  rw [henv, hin, he]
  have htouched : Seated bufsize mem₀ n { s.env n with
      client := { (s.env n).client with mtime := now } } (s.inSession n = true) (Receives s n)
        (w.seen n) := Seated.touch h rfl rfl rfl rfl rfl rfl rfl
  exact htouched.mono id fun _ hb => absurd hb hidle

/-- A connect has completed: a session begins. -/
theorem served_connected (h : SeatedAt bufsize mem₀ n s w)
    (hpoint : s.point = .serving (n :: todo)) :
    let s' := s.connected n (rpsSetup lib proc bufsize retryInterval) now todo
    Served bufsize mem₀ n w s' (w.next bufsize s (.turn r now refused) s') := by
  have hinit : Seated bufsize mem₀ n (s.initEnv n now) False False (w.seen n) := by
    have hseated : Seated bufsize mem₀ n (s.env n) (s.inSession n = true) (Receives s n)
      (w.seen n) := h
    obtain ⟨rest, hgot, -⟩ := hseated.session
    exact ⟨hseated.own, hseated.mine, hseated.shake, fun _ => rfl, hseated.start, hseated.sound,
      ⟨rest, hgot, nofun⟩, fun _ => nofun,
      fun hclean => ⟨(hseated.sent hclean).front, nofun, nofun⟩⟩
  have hafter := hinit.init lib proc rfl
  obtain ⟨t, ht⟩ : ∃ t, t = (s.put n (s.initEnv n now)).call n
    (rpsSetup lib proc bufsize retryInterval) .init := ⟨_, rfl⟩
  have henv : t.1.env n = (rpsProc lib proc n (s.initEnv n now) .init).1 := by
    rw [ht]
    show (Thread.put _ n (rpsProc lib proc n ((s.put n _).env n) .init).1).env n = _
    rw [Thread.put_env, Thread.put_env]
  have hok : t.2 = .ok := by rw [ht]; rfl
  have hcalls : t.1.calls = s.calls ++ [(n, .init)] := by rw [ht]; rfl
  have hfinal : s.connected n (rpsSetup lib proc bufsize retryInterval) now todo =
      t.1.settle n (rpsSetup lib proc bufsize retryInterval) .ok todo := by
    rw [← hok, ht]
    rfl
  rw [← henv] at hafter
  dsimp only
  rw [hfinal]
  generalize hs' : t.1.settle n (rpsSetup lib proc bufsize retryInterval) .ok todo = s'
  have hcalls' : s'.calls = s.calls ++ [(n, .init)] := by rw [← hs', ← hcalls]; rfl
  obtain ⟨hseen, hothers⟩ : (w.next bufsize s (.turn r now refused) s').seen n =
      ⟨[], [], (s.data.calls n).length, True, True⟩ ∧
        ∀ k, k ≠ n → (w.next bufsize s (.turn r now refused) s').seen k = w.seen k :=
    next_turn_init hpoint hcalls'
  generalize w.next bufsize s (.turn r now refused) s' = w' at hseen hothers ⊢
  have hquiet : Seated bufsize mem₀ n (t.1.env n) (t.1.inSession n = true) False (w'.seen n) := by
    rw [hseen]
    exact hafter.mono (fun _ => trivial) fun _ hb => hb
  rw [← hs']
  exact ⟨settle_seated lib proc retryInterval hquiet nofun,
    loop_settle lib proc retryInterval .ok todo, hothers⟩

/-- **The begin of a client's turn.** -/
theorem served_turn (h : SeatedAt bufsize mem₀ n s w) (hpoint : s.point = .serving (n :: todo)) :
    let s' := s.turn n (rpsSetup lib proc bufsize retryInterval) r now refused todo
    Served bufsize mem₀ n w s' (w.next bufsize s (.turn r now refused) s') := by
  have hidle : ¬Receives s n := by
    rintro ⟨pollout, rest, hreceives⟩
    exact absurd (hpoint.symm.trans hreceives) nofun
  unfold Thread.turn
  dsimp only
  split
  · rename_i hstate
    split_ifs with hready hrefused
    · exact served_settle lib proc retryInterval h hpoint hidle .error fun _ => hstate
    · exact served_connected lib proc retryInterval h hpoint
    · exact served_settle lib proc retryInterval h hpoint hidle .ok nofun
  · rename_i hstate
    split_ifs with hpollin
    · refine served_loop h hpoint hidle rfl ?_
      show (((s.put n _).goto _).peers n).client.state = .recvData
      show ((s.put n _).peers n).client.state = .recvData
      rw [Thread.put_client_self]
      exact hstate
    · exact served_settle lib proc retryInterval h hpoint hidle .ok nofun
  · rename_i hstate
    split_ifs with hpollout
    · refine served_loop h hpoint hidle rfl ?_
      show ((s.put n _).peers n).client.state = .sendData
      rw [Thread.put_client_self]
      exact hstate
    · exact served_settle lib proc retryInterval h hpoint hidle .ok nofun

end

/-! ## The thread -/

/-- `RpsProc` queues a transfer at each `INIT`. -/
theorem rps_queues (lib : DStringLib) (proc : RpcProc α) :
    Queues (rpsSetup lib proc bufsize retryInterval).proc := by
  show Queues (rpsProc lib proc)
  constructor
  · intro n e why hstate
    cases why with
    | init => exact State.noConfusion
    | send => exact State.noConfusion
    | drop => exact hstate
    | recv =>
        have hdone : (recvDone lib proc n e (getData lib n e).1 (getData lib n e).2).client.state ≠
            .connecting := by
          simp only [recvDone]
          split_ifs
          · rw [recvBody_state]
            exact State.noConfusion
          · rw [callProc_state]
            exact State.noConfusion
        rw [rpsProc_recv]
        dsimp only
        exact hdone
  · intro n e _
    exact State.noConfusion

/-- **The invariant of the thread.** -/
structure RpsInv (bufsize : Nat) (mem₀ : Mem Block) (clients : List Nat)
    (p : Thread Block (Data α) × Watch) : Prop where
  server : p.1.point ≠ .dropping → p.1.point ≠ .stopped → ServerInv clients p.1
  seated : ∀ n, SeatedAt bufsize mem₀ n p.1 p.2
  loop : Loop p.1

variable {clients : List Nat}

/-- Before the way out, the lists are right after a step. -/
theorem server_step {e : Event} (h : ServerInv clients s) (hclients : clients.Nodup)
    (hstep : step (rpsSetup lib proc bufsize retryInterval) s e = some s')
    (hsafe : ∀ trigger, e = .poll trigger → trigger = false) : ServerInv clients s' := by
  refine h.step hclients (rps_queues retryInterval lib proc) ?_ hstep
  cases e with
  | turn r now refused => exact fun n _ _ _ _ _ => State.noConfusion
  | poll trigger =>
      intro htrigger
      exact absurd (htrigger.symm.trans (hsafe trigger rfl)) nofun
  | check | connect | recv | send | drop => trivial

/-- A step that is not a client's. -/
theorem seated_lists {w : Watch} (h : ∀ n, SeatedAt bufsize mem₀ n s w) (hidle : ∀ n, ¬Receives s n)
    (hpeers : s'.peers = s.peers) (hmem : s'.mem = s.mem) (hdata : s'.data = s.data) (n : Nat) :
    SeatedAt bufsize mem₀ n s' w := by
  refine (h n).other ⟨congrFun hpeers n, ?_, ?_, ?_, ?_, ?_⟩ (hidle n) rfl
  · rw [hmem]
  · rw [hmem]
  · rw [hdata]
  · rw [hdata]
  · rw [hdata]

/-- A step of client `n`. -/
theorem seated_client (h : ∀ k, SeatedAt bufsize mem₀ k s w)
    (hserved : Served bufsize mem₀ n w s' w')
    (hpoint : ∀ k, k ≠ n → ¬Receives s k) (hsame : ∀ k, k ≠ n → Same k s s') (k : Nat) :
    SeatedAt bufsize mem₀ k s' w' := by
  by_cases hk : k = n
  · rw [hk]
    exact hserved.seated
  · exact (h k).other (hsame k hk) (hpoint k hk) (hserved.others k hk)

/-- A client in a loop of callbacks is in its session. -/
theorem inSession_of_server (h : ServerInv clients s) (hn : n ∈ s.up)
    (hstate : (s.peers n).client.state ≠ .connecting) : s.inSession n = true := by
  unfold Thread.inSession
  rw [(h.sock n).mpr hn, decide_eq_true hstate]
  rfl

/-- A step in the loop of recv callbacks. -/
theorem kept_recv (h : ∀ k, SeatedAt bufsize mem₀ k s w) (hloop : Loop s)
    (hserver : ServerInv clients s)
    (hproc : Room proc s.data.arg) {pollout : Bool}
    {todo : List Nat} (hpoint : s.point = .receiving n pollout todo) (ios : List IoResult) :
    let s' := s.recvTurn n (rpsSetup lib proc bufsize retryInterval) pollout ios todo
    (∀ k, SeatedAt bufsize mem₀ k s' (w.next bufsize s (.recv ios) s')) ∧ Loop s' := by
  have hstate : (s.peers n).client.state = .recvData := by
    unfold Loop at hloop
    rwa [hpoint] at hloop
  have hin : s.inSession n = true := by
    refine inSession_of_server hserver ?_ (by rw [hstate]; exact nofun)
    unfold Thread.up
    rw [hpoint]
    exact List.mem_cons_self
  obtain ⟨s', hs'⟩ : ∃ s', s' = s.recvTurn n (rpsSetup lib proc bufsize retryInterval) pollout ios
    todo := ⟨_, rfl⟩
  obtain ⟨w', hw'⟩ : ∃ w', w' = w.next bufsize s (.recv ios) s' := ⟨_, rfl⟩
  have hseen : w'.seen n = ⟨w.got n ++ received bufsize (s.peers n).client ios, w.sent n, w.start n,
      w.paced n ∧ Paced (w.calls s n) (w.got n ++ received bufsize (s.peers n).client ios),
      w.clean n⟩ ∧ ∀ k, k ≠ n → w'.seen k = w.seen k := by
    rw [hw']
    unfold Watch.next
    rw [hpoint]
    unfold Watch.seen
    refine ⟨?_, fun k hk => ?_⟩
    · dsimp only
      rw [Function.update_self, Function.update_self]
    · dsimp only
      rw [Function.update_of_ne hk, Function.update_of_ne hk]
  obtain ⟨hseated, hloop'⟩ := recvTurn_seated lib proc retryInterval (h n) hin hstate hproc
    pollout ios todo hseen.1
  dsimp only
  rw [← hs', ← hw']
  rw [← hs'] at hseated hloop'
  refine ⟨seated_client h ⟨hseated, hloop', hseen.2⟩ ?_ fun k hk => ?_, hloop'⟩
  · rintro k hk ⟨pollout', todo', hreceives⟩
    exact hk (Point.receiving.inj (hreceives.symm.trans hpoint)).1
  · rw [hs']
    exact same_recvTurn bufsize lib proc retryInterval hk (Seated.mine (h n)) (Seated.direct (h n))
      pollout
      ios todo

/-- A step in the loop of send callbacks. -/
theorem kept_send (h : ∀ k, SeatedAt bufsize mem₀ k s w) (hloop : Loop s)
    (hserver : ServerInv clients s) {todo : List Nat} (hpoint : s.point = .sending n todo)
    (ret : Int) (again : Bool) :
    let s' := s.sendTurn n (rpsSetup lib proc bufsize retryInterval) ret again todo
    (∀ k, SeatedAt bufsize mem₀ k s' (w.next bufsize s (.send ret again) s')) ∧ Loop s' := by
  have hstate : (s.peers n).client.state = .sendData := by
    unfold Loop at hloop
    rwa [hpoint] at hloop
  have hin : s.inSession n = true := by
    refine inSession_of_server hserver ?_ (by rw [hstate]; exact nofun)
    unfold Thread.up
    rw [hpoint]
    exact List.mem_cons_self
  have hidle : ∀ k, ¬Receives s k := by
    rintro k ⟨pollout, todo, hreceives⟩
    exact absurd (hpoint.symm.trans hreceives) nofun
  obtain ⟨s', hs'⟩ : ∃ s', s' = s.sendTurn n (rpsSetup lib proc bufsize retryInterval) ret again
    todo := ⟨_, rfl⟩
  obtain ⟨w', hw'⟩ : ∃ w', w' = w.next bufsize s (.send ret again) s' := ⟨_, rfl⟩
  have hseen :
      w'.seen n = ⟨w.got n, w.sent n ++ (gather s.mem (s.peers n).client.iov).take ret.toNat,
      w.start n, w.paced n, w.clean n ∧ SendsClean (s.peers n).client.iov ret⟩ ∧
        ∀ k, k ≠ n → w'.seen k = w.seen k := by
    rw [hw']
    unfold Watch.next
    rw [hpoint]
    unfold Watch.seen
    refine ⟨?_, fun k hk => ?_⟩
    · dsimp only
      rw [Function.update_self, Function.update_self]
    · dsimp only
      rw [Function.update_of_ne hk, Function.update_of_ne hk]
  obtain ⟨hseated, hloop'⟩ := sendTurn_seated lib proc retryInterval (h n) hin
    (hidle n) hstate ret again todo hseen.1
  dsimp only
  rw [← hs', ← hw']
  rw [← hs'] at hseated hloop'
  refine ⟨seated_client h ⟨hseated, hloop', hseen.2⟩ (fun k _ => hidle k) fun k hk => ?_, hloop'⟩
  rw [hs']
  exact same_sendTurn bufsize lib proc retryInterval hk ret again todo

/-- The check for reconnects. -/
theorem kept_check (h : ∀ k, SeatedAt bufsize mem₀ k s w) (hidle : ∀ n, ¬Receives s n)
    (now retryTime : Int) :
    let s' := if s.retry ≠ [] ∧ s.retryTime ≤ now then
      { s with point := .connects s.retry, retry := [], retryTime := retryTime } else s.goto .poll
    (∀ n, SeatedAt bufsize mem₀ n s' w) ∧ Loop s' := by
  dsimp only
  split_ifs
  · refine ⟨seated_lists h hidle (by rfl) (by rfl) (by rfl), ?_⟩
    unfold Loop
    cases s.retry <;> trivial
  · exact ⟨seated_lists h hidle (by rfl) (by rfl) (by rfl), trivial⟩

/-- One connect. -/
theorem kept_connect (h : ∀ k, SeatedAt bufsize mem₀ k s w) (hidle : ∀ n, ¬Receives s n) (ok : Bool)
    (todo : List Nat) :
    let s' := s.connect n ok todo
    (∀ k, SeatedAt bufsize mem₀ k s' w) ∧ Loop s' := by
  unfold Thread.connect
  dsimp only
  split_ifs
  · refine ⟨fun k => ?_, ?_⟩
    · by_cases hk : k = n
      · subst hk
        have hseated : Seated bufsize mem₀ k (s.env k) (s.inSession k = true) (Receives s k)
          (w.seen k) := h k
        generalize ht : ({ s with
          point := .connects todo
          peers := Function.update s.peers k
            ⟨some s.opened, { (s.peers k).client with state := .connecting }⟩
          opened := s.opened + 1
          active := k :: s.active } : Thread Block (Data α)) = t
        have hpeer : t.peers k =
            ⟨some s.opened, { (s.peers k).client with state := .connecting }⟩ := by
          rw [← ht]
          exact Function.update_self k _ _
        have hout : t.inSession k = false := by
          unfold Thread.inSession
          rw [decide_eq_false (by rw [hpeer]; simp), Bool.and_false]
        have hdown : Seated bufsize mem₀ k (t.env k) False False (w.seen k) := by
          refine hseated.down (by rw [← ht]; rfl) (by rw [← ht]; rfl) ?_ ?_ ?_ <;>
            unfold Thread.env <;> dsimp only <;> rw [hpeer]
        exact hdown.mono (fun hin => absurd (hout.symm.trans hin) Bool.false_ne_true) nofun
      · exact (h k).other ⟨Function.update_of_ne hk _ _, rfl, rfl, rfl, rfl, rfl⟩ (hidle k) rfl
    · unfold Loop
      cases todo <;> trivial
  · refine ⟨seated_lists h hidle (by rfl) (by rfl) (by rfl), ?_⟩
    unfold Loop
    cases todo <;> trivial

/-- `poll` returns. -/
theorem kept_poll (h : ∀ k, SeatedAt bufsize mem₀ k s w) (hidle : ∀ n, ¬Receives s n)
    (trigger : Bool) :
    let s' := s.polled trigger
    (∀ k, SeatedAt bufsize mem₀ k s' w) ∧ Loop s' := by
  unfold Thread.polled
  dsimp only
  split_ifs
  · exact ⟨seated_lists h hidle (by rfl) (by rfl) (by rfl), trivial⟩
  · exact ⟨seated_lists h hidle (by rfl) (by rfl) (by rfl), loop_serves s.active rfl⟩

/-- A drop on the way out. -/
theorem kept_sweep (h : ∀ k, SeatedAt bufsize mem₀ k s w) (hpoint : s.point = .dropping) :
    let s' := s.sweep (rpsSetup lib proc bufsize retryInterval)
    (∀ k, SeatedAt bufsize mem₀ k s' w) ∧ Loop s' ∧
    (s'.point = .dropping ∨ s'.point = .stopped) := by
  have hidle : ∀ n, ¬Receives s n := by
    rintro n ⟨pollout, todo, hreceives⟩
    exact absurd (hpoint.symm.trans hreceives) nofun
  unfold Thread.sweep
  dsimp only
  cases s.active with
  | nil => exact ⟨seated_lists h hidle (by rfl) (by rfl) (by rfl), trivial, Or.inr rfl⟩
  | cons n active =>
      obtain ⟨u, hu⟩ : ∃ u : Thread Block (Data α), u = { s with active := active } := ⟨_, rfl⟩
      have hlists : ∀ k, SeatedAt bufsize mem₀ k u w :=
        seated_lists h hidle (by rw [hu]) (by rw [hu]) (by rw [hu])
      have hidle' : ∀ k, ¬Receives u k := by
        rw [hu]
        exact hidle
      have hpoint' : (u.dropClient n (rpsSetup lib proc bufsize retryInterval)).point =
          .dropping := by
        show u.point = .dropping
        rw [hu]
        exact hpoint
      dsimp only
      rw [← hu]
      have hdrop : ∀ k, SeatedAt bufsize mem₀ k
          (u.dropClient n (rpsSetup lib proc bufsize retryInterval)) w := by
        intro k
        by_cases hk : k = n
        · rw [hk]
          exact dropClient_seated lib proc retryInterval (hlists n)
        · exact (hlists k).other (same_dropClient bufsize lib proc retryInterval hk) (hidle' k) rfl
      have hidle'' :
          ∀ k, ¬Receives (u.dropClient n (rpsSetup lib proc bufsize retryInterval)) k := by
        rintro k ⟨pollout, todo, hreceives⟩
        exact absurd (hpoint'.symm.trans hreceives) nofun
      refine ⟨seated_lists hdrop hidle'' (by rfl) (by rfl) (by rfl), ?_, Or.inl hpoint'⟩
      unfold Loop
      dsimp only
      rw [hpoint']
      trivial

/-- **Every step preserves the invariant.** -/
theorem RpsInv.step {p p' : Thread Block (Data α) × Watch} {e : Event}
    (h : RpsInv bufsize mem₀ clients p) (hclients : clients.Nodup)
    (hproc : Room proc p.1.data.arg)
    (hstep : rpsStep lib proc bufsize retryInterval p e = some p') :
    RpsInv bufsize mem₀ clients p' := by
  obtain ⟨s, w⟩ := p
  obtain ⟨s', hs', rfl⟩ := Option.map_eq_some_iff.mp hstep
  have hserver := h.server
  have hseated := h.seated
  have hloop := h.loop
  dsimp only at hserver hseated hloop hs' ⊢
  have hstep' := hs'
  unfold Server.step at hs'
  have hout : ∀ point, s.point = point → (∀ n pollout todo, point ≠ .receiving n pollout todo) →
      ∀ n, ¬Receives s n := by
    rintro point hpoint hne n ⟨pollout, todo, hreceives⟩
    exact hne n pollout todo (hpoint.symm.trans hreceives)
  cases hpoint : s.point with
  | top =>
      rw [hpoint] at hs' hserver
      cases e with
      | check now =>
          have hafter :=
            server_step lib proc retryInterval (hserver nofun nofun) hclients hstep' nofun
          have hw : w.next bufsize s (.check now) s' = w := by
            unfold Watch.next
            rw [hpoint]
          rw [hw]
          obtain rfl := Option.some.inj hs'
          obtain ⟨hkept, hloop'⟩ := kept_check hseated (hout _ hpoint nofun) now
            (now + (rpsSetup lib proc bufsize retryInterval).retryInterval)
          exact ⟨fun _ _ => hafter, hkept, hloop'⟩
      | _ => exact absurd hs' (by simp)
  | connecting todo =>
      rw [hpoint] at hs' hserver
      cases todo with
      | nil => cases e <;> exact absurd hs' (by simp)
      | cons n todo =>
          cases e with
          | connect ok =>
              have hafter :=
                server_step lib proc retryInterval (hserver nofun nofun) hclients hstep' nofun
              have hw : w.next bufsize s (.connect ok) s' = w := by
                unfold Watch.next
                rw [hpoint]
              rw [hw]
              obtain rfl := Option.some.inj hs'
              obtain ⟨hkept, hloop'⟩ := kept_connect hseated (hout _ hpoint nofun) (n := n) ok todo
              exact ⟨fun _ _ => hafter, hkept, hloop'⟩
          | _ => exact absurd hs' (by simp)
  | poll =>
      rw [hpoint] at hs' hserver
      cases e with
      | poll trigger =>
          have hw : w.next bufsize s (.poll trigger) s' = w := by
            unfold Watch.next
            rw [hpoint]
          rw [hw]
          obtain rfl := Option.some.inj hs'
          obtain ⟨hkept, hloop'⟩ := kept_poll hseated (hout _ hpoint nofun) trigger
          refine ⟨fun hdropping _ => ?_, hkept, hloop'⟩
          cases trigger with
          | true => exact absurd rfl hdropping
          | false =>
              exact server_step lib proc retryInterval (hserver nofun nofun) hclients hstep' fun t
                ht =>
                (Event.poll.inj ht).symm
      | _ => exact absurd hs' (by simp)
  | serving todo =>
      rw [hpoint] at hs' hserver
      cases todo with
      | nil => cases e <;> exact absurd hs' (by simp)
      | cons n todo =>
          cases e with
          | turn r now refused =>
              have hafter :=
                server_step lib proc retryInterval (hserver nofun nofun) hclients hstep' nofun
              obtain rfl := Option.some.inj hs'
              have hserved : Served bufsize mem₀ n w _ (w.next bufsize s (.turn r now refused) _) :=
                served_turn lib proc retryInterval (hseated n) hpoint
              exact ⟨fun _ _ => hafter, seated_client hseated hserved
                (fun k _ => hout _ hpoint nofun k)
                (fun k hk => same_turn bufsize lib proc retryInterval hk r now refused todo),
                hserved.loop⟩
          | _ => exact absurd hs' (by simp)
  | receiving n pollout todo =>
      rw [hpoint] at hs' hserver
      cases e with
      | recv ios =>
          have hafter :=
            server_step lib proc retryInterval (hserver nofun nofun) hclients hstep' nofun
          obtain rfl := Option.some.inj hs'
          obtain ⟨hkept, hloop'⟩ := kept_recv lib proc retryInterval hseated hloop
            (hserver nofun nofun) hproc hpoint ios
          exact ⟨fun _ _ => hafter, hkept, hloop'⟩
      | _ => exact absurd hs' (by simp)
  | sending n todo =>
      rw [hpoint] at hs' hserver
      cases e with
      | send ret again =>
          have hafter :=
            server_step lib proc retryInterval (hserver nofun nofun) hclients hstep' nofun
          obtain rfl := Option.some.inj hs'
          obtain ⟨hkept, hloop'⟩ :=
            kept_send lib proc retryInterval hseated hloop
            (hserver nofun nofun) hpoint ret again
          exact ⟨fun _ _ => hafter, hkept, hloop'⟩
      | _ => exact absurd hs' (by simp)
  | dropping =>
      rw [hpoint] at hs' hserver
      cases e with
      | drop =>
          have hw : w.next bufsize s .drop s' = w := by
            unfold Watch.next
            rw [hpoint]
          rw [hw]
          obtain rfl := Option.some.inj hs'
          obtain ⟨hkept, hloop', hway⟩ :=
            kept_sweep lib proc retryInterval hseated hpoint
          exact ⟨fun hdropping hstopped => (hway.elim hdropping hstopped).elim, hkept, hloop'⟩
      | _ => exact absurd hs' (by simp)
  | stopped =>
      rw [hpoint] at hs'
      cases e <;> exact absurd hs' (by simp)

/-- The invariant at the start. -/
theorem RpsInv.start (clients : List Nat) (mem : Mem Block) (arg : α) :
    RpsInv bufsize mem clients (rpsStart clients mem arg) := by
  refine ⟨fun _ _ => ServerInv.start clients mem _, fun n => ?_, trivial⟩
  refine ⟨nofun, ⟨nofun, nofun⟩, rfl, fun _ => rfl, Nat.le_refl _, nofun, ⟨[], rfl, ?_⟩,
    fun _ _ _ => rfl, fun _ => ⟨List.nil_prefix, ?_, ?_⟩⟩
  · exact fun hin => absurd hin Bool.false_ne_true
  · exact fun hin => absurd hin Bool.false_ne_true
  · exact fun hin => absurd hin Bool.false_ne_true

/-! ## The calls -/

/-- What a call was made on. -/
def Call.asked (c : Call) : Int × Bytes × Bytes := (c.cmd, c.input, c.output)

/-- The requests of a client: a command that is an `int`, and data that a string can hold. -/
structure Ask where
  cmd : Int
  data : Bytes
  cmd_ok : -2147483648 ≤ cmd ∧ cmd < 2147483648
  data_ok : data.length < 2147483648

/-- The request as it is sent. -/
def Ask.bytes (a : Ask) : Bytes := message a.cmd a.data

/-- The call that it is to be answered with: the output is empty. -/
def Ask.asked (a : Ask) : Int × Bytes × Bytes := (a.cmd, a.data, [])

/-- **The calls are on the requests, in order.** -/
theorem calls_of_front {calls : List Call} (hsound : ∀ c ∈ calls, c.Sound) {asks : List Ask}
    {rest more : Bytes}
    (h : calls.flatMap Call.request ++ rest ++ more = asks.flatMap Ask.bytes) :
    calls.map Call.asked = (asks.take calls.length).map Ask.asked ∧
      calls.flatMap Call.request = (asks.take calls.length).flatMap Ask.bytes := by
  induction calls generalizing asks with
  | nil => exact ⟨rfl, rfl⟩
  | cons c calls ih =>
      have hc := hsound c List.mem_cons_self
      cases asks with
      | nil =>
          have hlen := congrArg List.length h
          simp only [List.flatMap_cons, List.flatMap_nil, List.length_append, List.length_nil,
            Call.request, length_message] at hlen
          omega
      | cons a asks =>
          simp only [List.flatMap_cons, List.append_assoc] at h
          obtain ⟨hcmd, hdata, hrest⟩ := message_split hc.input a.data_ok h
          have hcmd' : c.cmd = a.cmd := by
            have hof := congrArg (fun bs => int32 (ofBe32 bs)) hcmd
            rw [int32_ofBe32_be32, int32_ofBe32_be32,
              int32_of_range (by have := hc.cmd; omega) (by have := hc.cmd; omega),
              int32_of_range (by have := a.cmd_ok; omega) (by have := a.cmd_ok; omega)] at hof
            exact hof
          rw [← List.append_assoc] at hrest
          obtain ⟨hasked, hbytes⟩ := ih (fun c' hc' => hsound c' (List.mem_cons_of_mem c hc')) hrest
          refine ⟨?_, ?_⟩
          · rw [List.map_cons, List.length_cons, List.take_succ_cons, List.map_cons, hasked]
            unfold Call.asked Ask.asked
            rw [hcmd', hdata, hc.output]
          · rw [List.flatMap_cons, List.length_cons, List.take_succ_cons, List.flatMap_cons, hbytes]
            unfold Call.request Ask.bytes
            rw [hcmd', hdata]

/-- The server waits for a request of client `n`. -/
def Waits (s : Thread Block (Data α)) (n : Nat) : Prop :=
  s.point = .poll ∧ s.inSession n = true ∧ (s.peers n).client.state = .recvData

/-- **What is to hold of the session of client `n`**, when `asks` are its requests. -/
structure Dispatched (mem : Mem Block) (s : Thread Block (Data α)) (w : Watch) (n : Nat)
    (asks : List Ask) : Prop where
  calls : (w.calls s n).map Call.asked = (asks.take (w.calls s n).length).map Ask.asked
  all : w.paced n → Waits s n → ∃ rest, Incomplete rest ∧
    w.got n = (asks.take (w.calls s n).length).flatMap Ask.bytes ++ rest
  sent : w.clean n → w.sent n <+: stream mem (w.calls s n)
  answered : w.clean n → Waits s n → w.sent n = stream mem (w.calls s n)

/-- What is there of a request when the server waits. -/
theorem Phase.incomplete {c : Client Block} {mem : Mem Nat} {d : CData} {rest : Bytes}
    (h : Phase n c mem d rest) (hstate : c.state = .recvData) (hahead : c.ahead = []) :
    Incomplete rest := by
  cases h with
  | sending state => exact absurd (state.symm.trans hstate) nofun
  | header k state inPtr outPtr lt =>
      rw [hahead, List.append_nil]
      exact incomplete_header (by rwa [Mem.length_read])
  | body k cmd state outPtr hcmd head lt small =>
      rw [hahead, List.append_nil]
      exact incomplete_body hcmd (by rwa [Mem.length_read]) small
  | refused cmd word more state nleft hcmd hword large =>
      rw [List.append_assoc]
      exact incomplete_refused hcmd hword large

/-- The procedure keeps its state as it is to be, and then a string has room for what it appends. -/
structure Proper (proc : RpcProc α) (ok : α → Prop) : Prop where
  keeps : ∀ a cmd input output, ok a → ok (proc a cmd input output).1
  room : ∀ a, ok a → Room proc a

/-- The invariant after a run. -/
theorem rps_run (lib : DStringLib) {proc : RpcProc α} {ok : α → Prop} (hproc : Proper proc ok)
    (bufsize : Nat) (retryInterval : Int) {clients : List Nat} (hclients : clients.Nodup)
    (mem : Mem Block) {arg : α} (harg : ok arg) {es : List Event}
    {s : Thread Block (Data α)} {w : Watch}
    (hrun : run (rpsStep lib proc bufsize retryInterval) (rpsStart clients mem arg) es =
      some (s, w)) : RpsInv bufsize mem clients (s, w) := by
  have hkeeps : KeepsData (rpsSetup lib proc bufsize retryInterval) fun d => ok d.arg := by
    refine keepsData_rps lib proc bufsize retryInterval (fun d d' harg' _ hok => ?_)
      fun d d' n c hok hcall _ => ?_
    · rw [harg']
      exact hok
    · have hnext := hproc.keeps d.arg c.cmd c.input c.output hok
      rwa [hcall] at hnext
  have hstep : ∀ (p : Thread Block (Data α) × Watch) e p',
      RpsInv bufsize mem clients p ∧ ok p.1.data.arg →
      rpsStep lib proc bufsize retryInterval p e = some p' →
      RpsInv bufsize mem clients p' ∧ ok p'.1.data.arg := by
    intro p e p' ⟨h, hok⟩ hstep
    refine ⟨h.step lib proc retryInterval hclients (hproc.room _ hok) hstep, ?_⟩
    obtain ⟨s', hs', rfl⟩ := Option.map_eq_some_iff.mp hstep
    exact step_data hkeeps hok hs'
  exact (run_invariant_all hstep ⟨RpsInv.start clients mem arg, harg⟩ hrun).1

/-- A procedure that answers with one byte. -/
def answer : RpcProc Unit := fun _ cmd _ _ => ((), cmd, [9])

/-- A client that sends a request of two bytes in two pieces. -/
def twoPieces : List Event :=
  connects 0 ++
    [.check 1, .poll false, .turn { pollout := true } 1 false, .send 32 false,
      .check 2, .poll false, .turn { pollin := true } 2 false, .recv [.recvd [0, 0, 0, 1, 0]],
      .recv [.recvd [0, 0, 2, 5, 6]], .recv [], .send 9 false, .check 3]

/-- The request. -/
def ask : Ask := ⟨1, [5, 6], by decide, by decide⟩

/-- Its output is short. -/
theorem proper_answer : Proper answer fun _ => True := by
  refine ⟨fun _ _ _ _ _ => trivial, fun a _ cmd input _ => ?_⟩
  show 1 + 1 < 2147483648
  decide

end Nsdci.Rps
