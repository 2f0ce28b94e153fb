import Nsdci.Rps.Proc
import Nsdci.Server.Sessions

/-!
# A client of an RPC server

`Seated` is the invariant of one client: what it has sent in its session is the requests that were
answered and a front of more, and what it was sent is the handshake and the responses. There is one
lemma for each thing that can happen to it: `Seated.init`, `Seated.recv`, `Seated.send` and
`Seated.drop`.
-/

namespace Nsdci.Rps

open Lib Server

variable {α : Type}

/-! ## Requests -/

@[simp] theorem length_message (cmd : Int) (data : Bytes) :
    (message cmd data).length = 8 + data.length := by
  simp only [message, List.length_append, length_be32]

/-- Of what a client sends only one front is a request. -/
theorem message_split {cmd cmd' : Int} {data data' rest rest' : Bytes}
    (hdata : data.length < 2147483648) (hdata' : data'.length < 2147483648)
    (h : message cmd data ++ rest = message cmd' data' ++ rest') :
    be32 cmd = be32 cmd' ∧ data = data' ∧ rest = rest' := by
  unfold message at h
  simp only [List.append_assoc] at h
  obtain ⟨hcmd, h⟩ := List.append_inj h (by simp)
  obtain ⟨hlen, h⟩ := List.append_inj h (by simp)
  have hsame : data.length = data'.length := by
    have hof := congrArg ofBe32 hlen
    rwa [ofBe32_be32_natCast (by omega), ofBe32_be32_natCast (by omega)] at hof
  obtain ⟨hdata, hrest⟩ := List.append_inj h hsame
  exact ⟨hcmd, hdata, hrest⟩

/-- A front that no request fits in. -/
def Incomplete (rest : Bytes) : Prop :=
  ∀ cmd data, data.length < 2147483648 → ¬message cmd data <+: rest

theorem incomplete_header {rest : Bytes} (h : rest.length < 8) : Incomplete rest := by
  intro cmd data _ hfront
  have hle := hfront.length_le
  rw [length_message] at hle
  omega

theorem incomplete_body {cmd data : Bytes} {len : Nat} (hcmd : cmd.length = 4)
    (hdata : data.length < len) (hlen : len < 2147483648) :
    Incomplete (cmd ++ be32 len ++ data) := by
  intro cmd' data' hdata' hfront
  obtain ⟨rest, hrest⟩ := hfront
  unfold message at hrest
  simp only [List.append_assoc] at hrest
  obtain ⟨-, hrest⟩ := List.append_inj hrest (by simp [hcmd])
  obtain ⟨hsame, hrest⟩ := List.append_inj hrest (by simp)
  have hlength := congrArg List.length hrest
  have hof := congrArg ofBe32 hsame
  rw [ofBe32_be32_natCast (by omega), ofBe32_be32_natCast (by omega)] at hof
  rw [List.length_append] at hlength
  omega

theorem incomplete_refused {cmd word rest : Bytes} (hcmd : cmd.length = 4) (hword : word.length = 4)
    (hlarge : 2147483648 ≤ ofBe32 word) : Incomplete (cmd ++ word ++ rest) := by
  intro cmd' data' hdata' hfront
  obtain ⟨more, hmore⟩ := hfront
  unfold message at hmore
  simp only [List.append_assoc] at hmore
  obtain ⟨-, hmore⟩ := List.append_inj hmore (by simp [hcmd])
  obtain ⟨hsame, -⟩ := List.append_inj hmore (by simp [hword])
  rw [← hsame, ofBe32_be32_natCast (by omega)] at hlarge
  omega

/-! ## Receiving -/

/-- What `fetch` gives is what is ahead and what comes in, in order. -/
theorem fetch_spec (bufsize : Nat) (c : Client Block) (ios : List IoResult)
    (hdirect : bufsize = 0 → c.ahead = []) :
    let r := fetch bufsize c ios
    (bufsize = 0 → r.2.1 = []) ∧
      ((∃ bs, r.1 = .inl bs ∧ bs ≠ [] ∧ bs.length ≤ c.nleft.toNat ∧
          c.ahead ++ received bufsize c ios = bs ++ r.2.1) ∨
        ∃ st, r.1 = .inr st ∧ st ≠ .ok ∧ (st ≠ .error → r.2.1 = []) ∧
          c.ahead ++ received bufsize c ios = r.2.1) := by
  have hcopy : ∀ ahead : Bytes, let r := copyAhead ahead c.nleft
      (∃ bs, r.1 = .inl bs ∧ bs ≠ [] ∧ bs.length ≤ c.nleft.toNat ∧ ahead = bs ++ r.2) ∨
        ∃ st, r.1 = .inr st ∧ st ≠ .ok ∧ (st ≠ .error → r.2 = []) ∧ ahead = r.2 := by
    intro ahead
    unfold copyAhead
    by_cases hnil : ahead.take c.nleft.toNat = []
    · refine Or.inr ⟨.error, by simp [hnil], nofun, nofun, ?_⟩
      have hsplit := List.take_append_drop c.nleft.toNat ahead
      rw [hnil, List.nil_append] at hsplit
      exact hsplit.symm
    · exact Or.inl ⟨_, by simp [hnil], hnil, by simp, (List.take_append_drop _ _).symm⟩
  have hfail : ∀ again, ioStatus (-1) again ≠ .ok := by
    intro again
    cases again <;> decide
  unfold fetch
  by_cases hzero : bufsize = 0
  · have hnil := hdirect hzero
    subst hzero
    rw [if_pos rfl, hnil, List.nil_append]
    rcases ios with _ | ⟨⟨ret, again⟩ | bs | again, ios⟩
    · exact ⟨fun _ => rfl, Or.inr ⟨.timeout, rfl, nofun, fun _ => rfl, rfl⟩⟩
    · exact ⟨fun _ => rfl, Or.inr ⟨.timeout, rfl, nofun, fun _ => rfl, rfl⟩⟩
    · refine ⟨fun _ => rfl, ?_⟩
      by_cases hbs : bs.take c.nleft.toNat = []
      · exact Or.inr ⟨.error, by simp [hbs], nofun, nofun, by simpa [received] using hbs⟩
      · exact Or.inl ⟨_, by simp [hbs], hbs, by simp, by simp [received]⟩
    · exact ⟨fun _ => rfl, Or.inr ⟨_, rfl, hfail again, fun _ => rfl, rfl⟩⟩
  · rw [if_neg hzero]
    refine ⟨fun h => absurd h hzero, ?_⟩
    by_cases hnil : c.ahead = []
    · rw [if_pos hnil, hnil, List.nil_append]
      rcases ios with _ | ⟨⟨ret, again⟩ | bs | again, ios⟩
      · exact Or.inr ⟨.timeout, rfl, nofun, fun _ => rfl, rfl⟩
      · exact Or.inr ⟨.timeout, rfl, nofun, fun _ => rfl, rfl⟩
      · have hreceived : received bufsize c (.recvd bs :: ios) = bs.take bufsize := by
          show (if bufsize = 0 then _ else if c.ahead = [] then _ else _) = _
          rw [if_neg hzero, if_pos hnil]
        rw [hreceived]
        exact hcopy _
      · exact Or.inr ⟨_, rfl, hfail again, fun _ => rfl, rfl⟩
    · rw [if_neg hnil]
      have hreceived : received bufsize c ios = [] := by
        rcases ios with _ | ⟨⟨ret, again⟩ | bs | again, ios⟩
        · rfl
        · rfl
        · show (if bufsize = 0 then _ else if c.ahead = [] then _ else _) = _
          rw [if_neg hzero, if_neg hnil]
        · rfl
      rw [hreceived, List.append_nil]
      exact hcopy _

/-- **What the receive half of `Callback` does**: it gives up with a status, or it stores some
bytes and goes on, or the transfer is complete. -/
theorem callbackRecv_spec (bufsize : Nat) (e : Env Block (Data α)) (ios : List IoResult)
    (hdirect : bufsize = 0 → e.client.ahead = []) :
    let r := callbackRecv bufsize e ios
    r.1.data = e.data ∧ r.1.client.iov = e.client.iov ∧
      r.1.client.state = e.client.state ∧ (bufsize = 0 → r.1.client.ahead = []) ∧
      ((∃ st, r.2.1 = some st ∧ st ≠ .ok ∧ r.1.mem = e.mem ∧ r.1.client.bufPtr = e.client.bufPtr ∧
          r.1.client.nleft = e.client.nleft ∧
          e.client.ahead ++ received bufsize e.client ios = r.1.client.ahead ∧
          (st ≠ .error → r.1.client.ahead = [])) ∨
        ∃ bs, bs ≠ [] ∧ bs.length ≤ e.client.nleft.toNat ∧ r.1.mem =
        store e.mem e.client.bufPtr bs ∧
          r.1.client.bufPtr = e.client.bufPtr.map (·.add bs.length) ∧
          r.1.client.nleft = e.client.nleft - bs.length ∧
          e.client.ahead ++ received bufsize e.client ios = bs ++ r.1.client.ahead ∧
          r.2.1 = if e.client.nleft - bs.length = 0 then none else some .ok) := by
  obtain ⟨hnone, hres⟩ := fetch_spec bufsize e.client ios hdirect
  unfold callbackRecv
  dsimp only
  rcases hf : fetch bufsize e.client ios with ⟨bs | st, ahead, rest⟩
  · rw [hf] at hnone hres
    rcases hres with ⟨bs', hbs', hne, hle, heq⟩ | ⟨st, hst, -⟩
    · obtain rfl : bs = bs' := Sum.inl.inj hbs'
      dsimp only at heq hnone ⊢
      split_ifs with hzero
      · exact ⟨rfl, rfl, rfl, hnone, Or.inr ⟨bs, hne, hle, rfl, rfl, rfl, heq, (if_pos hzero).symm⟩⟩
      · exact ⟨rfl, rfl, rfl, hnone, Or.inr ⟨bs, hne, hle, rfl, rfl, rfl, heq, (if_neg hzero).symm⟩⟩
    · exact absurd hst Sum.inl_ne_inr
  · rw [hf] at hnone hres
    rcases hres with ⟨bs, hbs, -⟩ | ⟨st', hst, hok, herror, heq⟩
    · exact absurd hbs Sum.inr_ne_inl
    · obtain rfl : st = st' := Sum.inr.inj hst
      exact ⟨rfl, rfl, rfl, hnone, Or.inl ⟨st, rfl, hok, rfl, rfl, rfl, heq, herror⟩⟩

/-! ## Sending -/

/-- **What the send half of `Callback` does.** -/
theorem callbackSend_spec (e : Env Block (Data α)) (ret : Int) (again : Bool) :
    let r := callbackSend e ret again
    r.1.data = e.data ∧ r.1.mem = e.mem ∧ r.1.client.state = e.client.state ∧
      r.1.client.ahead = e.client.ahead ∧ r.1.client.bufPtr = e.client.bufPtr ∧
      ((∃ st, r.2 = some st ∧ st ≠ .ok ∧ int32 ret ≤ 0 ∧ r.1.client.iov = e.client.iov ∧
          r.1.client.nleft = e.client.nleft) ∨
        0 < int32 ret ∧ r.1.client.iov = callbackIov e.client.iov (int32 ret).toNat ∧
          r.1.client.nleft = int32 (e.client.nleft - int32 ret) ∧
          r.2 = if int32 (e.client.nleft - int32 ret) = 0 then none else some .ok) := by
  unfold callbackSend
  generalize int32 ret = n
  unfold callbackSent
  by_cases hle : n ≤ 0
  · rw [if_pos hle]
    refine ⟨rfl, rfl, rfl, rfl, rfl, Or.inl ⟨_, rfl, ?_, hle, rfl, rfl⟩⟩
    unfold ioStatus
    split_ifs <;> decide
  · rw [if_neg hle]
    dsimp only
    generalize int32 (e.client.nleft - n) = left
    split_ifs with hzero
    · exact ⟨rfl, rfl, rfl, rfl, rfl, Or.inr ⟨by omega, rfl, rfl, rfl⟩⟩
    · exact ⟨rfl, rfl, rfl, rfl, rfl, Or.inr ⟨by omega, rfl, rfl, rfl⟩⟩

/-- The vectors that are left are into the same blocks. -/
theorem base_callbackIov {iov : List (Iovec Block)} {k : Nat} {v : Iovec Block} {p : Ptr Block}
    (hv : v ∈ callbackIov iov k) (hp : v.base = some p) :
    ∃ v' ∈ iov, ∃ p', v'.base = some p' ∧ p.block = p'.block := by
  induction iov generalizing k with
  | nil => exact absurd hv List.not_mem_nil
  | cons u iov ih =>
      have hsame : ∀ {l : List (Iovec Block)} {k' : Nat}, l = callbackIov iov k' → v ∈ l →
          ∃ v' ∈ u :: iov, ∃ p', v'.base = some p' ∧ p.block = p'.block := by
        rintro l k' rfl hmem
        obtain ⟨v', hv', hp'⟩ := ih hmem
        exact ⟨v', List.mem_cons_of_mem u hv', hp'⟩
      unfold callbackIov at hv
      split_ifs at hv with hzero hpos hle
      · exact ⟨v, hv, p, hp, rfl⟩
      · rcases List.mem_cons.mp hv with rfl | hv
        · exact absurd hp.symm (Option.some_ne_none p)
        · exact hsame rfl hv
      · rcases List.mem_cons.mp hv with rfl | hv
        · obtain ⟨p', hp', rfl⟩ := Option.map_eq_some_iff.mp hp
          exact ⟨u, List.mem_cons_self, p', hp', rfl⟩
        · exact hsame rfl hv
      · rcases List.mem_cons.mp hv with rfl | hv
        · exact ⟨v, List.mem_cons_self, p, hp, rfl⟩
        · exact hsame rfl hv

theorem Mine.callbackIov {n k : Nat} {c c' : Client Block} (h : Mine n c)
    (hbuf : c'.bufPtr = c.bufPtr) (hiov : c'.iov = Server.callbackIov c.iov k) : Mine n c' := by
  refine ⟨fun p hp => h.1 p (hbuf ▸ hp), fun v hv p hp => ?_⟩
  rw [hiov] at hv
  obtain ⟨v', hv', p', hp', hblock⟩ := base_callbackIov hv hp
  rw [hblock]
  exact h.2 v' hv' p' hp'

/-! ## The invariant of a client -/

/-- What has been seen of the session of one client. -/
structure Seen where
  got : Bytes
  sent : Bytes
  start : Nat
  paced : Prop
  clean : Prop

/-- Behind the answered requests, `rest` is there: part of it is in the header or the input string
of the client, and part is read ahead. -/
inductive Phase (n : Nat) (c : Client Block) (m : Mem Nat) (d : CData) : Bytes → Prop where
  | sending (state : c.state = .sendData) : Phase n c m d c.ahead
  | header (k : Nat) (state : c.state = .recvData) (inPtr : d.inPtr.length = 0)
      (outPtr : d.outPtr.length = 0) (lt : k < 8) (bufPtr : c.bufPtr = some (owned n ⟨d.rpcmsg, k⟩))
      (nleft : c.nleft = 8 - k) : Phase n c m d (m.read ⟨d.rpcmsg, 0⟩ k ++ c.ahead)
  | body (k : Nat) (cmd : Bytes) (state : c.state = .recvData) (outPtr : d.outPtr.length = 0)
      (hcmd : cmd.length = 4) (head : m.read ⟨d.rpcmsg, 0⟩ 8 = cmd ++ be32 0)
      (lt : k < d.inPtr.length) (small : d.inPtr.length < 2147483648)
      (bufPtr : c.bufPtr = some (owned n (d.inPtr.string.add k)))
      (nleft : c.nleft = d.inPtr.length - k) :
      Phase n c m d (cmd ++ be32 d.inPtr.length ++ m.read d.inPtr.string k ++ c.ahead)
  | refused (cmd word rest : Bytes) (state : c.state = .recvData) (nleft : c.nleft = 0)
      (hcmd : cmd.length = 4) (hword : word.length = 4) (large : 2147483648 ≤ ofBe32 word) :
      Phase n c m d (cmd ++ word ++ rest ++ c.ahead)

/-- A string has room for the output of any request. -/
def Room (proc : RpcProc α) (a : α) : Prop :=
  ∀ cmd input, input.length < 2147483648 → (proc a cmd input []).2.2.length + 1 < 2147483648

/-- A call is on a request: the command is an `int`, and the output was empty. -/
structure Call.Sound (c : Call) : Prop where
  cmd : -2147483648 ≤ c.cmd ∧ c.cmd < 2147483648
  input : c.input.length < 2147483648
  output : c.output = []

/-- What a client was sent is a front of what it is to be sent, and the rest is queued. -/
structure Sent (e : Env Block (Data α)) (up : Prop) (sent stream : Bytes) : Prop where
  front : sent <+: stream
  sending : up → e.client.state = .sendData →
    sent ++ gather e.mem e.client.iov = stream ∧ e.client.nleft = int32 (total e.client.iov) ∧
      total e.client.iov < 4294967296
  idle : up → e.client.state = .recvData → sent = stream

/-- All that the server sends in a session: the handshake and the responses. -/
def stream (mem₀ : Mem Block) (calls : List Call) : Bytes :=
  mem₀.read ⟨.handshake, 0⟩ 32 ++ calls.flatMap Call.response

/-- The calls of the session. -/
def Seen.calls (w : Seen) (calls : List Call) : List Call := calls.drop w.start

/-- **The invariant of client `n`.** It is `up` in its session, and the thread is `busy` in its loop
of recv callbacks. -/
structure Seated (bufsize : Nat) (mem₀ : Mem Block) (n : Nat) (e : Env Block (Data α))
    (up busy : Prop) (w : Seen) : Prop where
  own : ∀ d, e.data.cdata n = some d → d.Own (e.data.next n)
  mine : Mine n e.client
  shake : e.mem .handshake = mem₀ .handshake
  direct : bufsize = 0 → e.client.ahead = []
  start : w.start ≤ (e.data.calls n).length
  sound : ∀ c ∈ w.calls (e.data.calls n), c.Sound
  session : ∃ rest, w.got = (w.calls (e.data.calls n)).flatMap Call.request ++ rest ∧
    (up → ∃ d, e.data.cdata n = some d ∧ Phase n e.client (view e.mem n) d rest)
  paced : w.paced → up → ¬busy → e.client.ahead = []
  sent : w.clean → Sent e up w.sent (stream mem₀ (w.calls (e.data.calls n)))

variable {bufsize : Nat} {mem₀ : Mem Block} {n : Nat} {e e' : Env Block (Data α)} {up busy : Prop}
  {w : Seen}

/-- A step of another client. -/
theorem Seated.congr (h : Seated bufsize mem₀ n e up busy w) (hsame : SameFor n e e')
    (hclient : e'.client = e.client) : Seated bufsize mem₀ n e' up busy w := by
  have hgather := hsame.gather h.mine
  refine ⟨?_, ?_, hsame.shake.trans h.shake, ?_, ?_, ?_, ?_, ?_, fun hclean => ?_⟩
  · rw [hsame.cdata, hsame.next]
    exact h.own
  · rw [hclient]
    exact h.mine
  · rw [hclient]
    exact h.direct
  · rw [hsame.calls]
    exact h.start
  · rw [hsame.calls]
    exact h.sound
  · rw [hsame.calls, hsame.cdata, hclient, hsame.mem]
    exact h.session
  · rw [hclient]
    exact h.paced
  · obtain ⟨hfront, hsending, hidle⟩ := h.sent hclean
    rw [hsame.calls]
    refine ⟨hfront, ?_, ?_⟩
    · rw [hclient, hgather]
      exact hsending
    · rw [hclient]
      exact hidle

/-- **`INIT`.** -/
theorem Seated.init (h : Seated bufsize mem₀ n e up busy w) (lib : DStringLib) (proc : RpcProc α)
    (hahead : e.client.ahead = []) :
    Seated bufsize mem₀ n (rpsProc lib proc n e .init).1 True False
      ⟨[], [], (e.data.calls n).length, True, True⟩ := by
  obtain ⟨⟨d, hd⟩, hclient⟩ := rpsProc_init lib proc n h.own
  generalize (rpsProc lib proc n e .init).1 = e' at *
  have hshake := hd.shake.trans h.shake
  have hcalls : Seen.calls ⟨[], [], (e.data.calls n).length, True, True⟩ (e'.data.calls n) =
      [] := by
    unfold Seen.calls
    rw [hd.calls]
    exact List.drop_length
  have hgather : gather e'.mem e'.client.iov = mem₀.read ⟨.handshake, 0⟩ 32 := by
    rw [hclient]
    show e'.mem.read ⟨.handshake, 0⟩ 32 ++ [] = _
    unfold Mem.read
    rw [List.append_nil, hshake]
  refine ⟨?_, ?_, hshake, ?_, hd.calls ▸ Nat.le_refl _, ?_, ⟨[], ?_, fun _ => ⟨d, hd.cdata, ?_⟩⟩,
    ?_,
    fun _ => ?_⟩
  · intro d' hd'
    obtain rfl := Option.some.inj (hd.cdata.symm.trans hd')
    exact hd.own
  · rw [hclient]
    refine ⟨nofun, fun v hv p hp => Or.inl ?_⟩
    obtain rfl := List.mem_singleton.mp hv
    obtain rfl := Option.some.inj hp
    rfl
  · rw [hclient]
    exact h.direct
  · rw [hcalls]
    exact nofun
  · rw [hcalls]
    rfl
  · have hphase := Phase.sending (n := n) (c := e'.client) (m := view e'.mem n) (d := d)
      (by rw [hclient]; rfl)
    have hnil : e'.client.ahead = [] := by
      rw [hclient]
      exact hahead
    rwa [hnil] at hphase
  · intro _ _ _
    rw [hclient]
    exact hahead
  · rw [hcalls]
    refine ⟨List.nil_prefix, fun _ _ => ⟨?_, ?_, ?_⟩, fun _ hstate => ?_⟩
    · rw [hgather]
      exact (List.append_nil _).symm
    · rw [hclient]
      exact serverSendVec_nleft _ _
    · rw [hclient]
      show 32 < 4294967296
      decide
    · rw [hclient] at hstate
      exact absurd hstate nofun

/-- **`DROP`.** -/
theorem Seated.drop (h : Seated bufsize mem₀ n e up busy w) (lib : DStringLib) (proc : RpcProc α) :
    Seated bufsize mem₀ n (rpsProc lib proc n e .drop).1 False False w := by
  obtain ⟨⟨d, hd⟩, hclient⟩ := rpsProc_drop lib proc n h.own
  generalize (rpsProc lib proc n e .drop).1 = e' at *
  obtain ⟨rest, hgot, -⟩ := h.session
  refine ⟨?_, hclient ▸ h.mine, hd.shake.trans h.shake, hclient ▸ h.direct, hd.calls ▸ h.start,
    hd.calls ▸ h.sound, ⟨rest, hd.calls ▸ hgot, nofun⟩, fun _ => nofun, fun hclean => ?_⟩
  · intro d' hd'
    obtain rfl := Option.some.inj (hd.cdata.symm.trans hd')
    exact hd.own
  · exact ⟨hd.calls ▸ (h.sent hclean).front, nofun, nofun⟩

/-- A client whose header is to be received. -/
theorem Seated.header (h : Seated bufsize mem₀ n e up busy w)
    (hahead : w.paced → e.client.ahead = [])
    {rest : Bytes} (hgot : w.got = (w.calls (e.data.calls n)).flatMap Call.request ++ rest)
    (hrest : rest = e.client.ahead)
    (hsent : w.clean → w.sent = stream mem₀ (w.calls (e.data.calls n)))
    (lib : DStringLib) (proc : RpcProc α) :
    Seated bufsize mem₀ n (rpsProc lib proc n e .send).1 True False w := by
  obtain ⟨d, hd, hclient⟩ := rpsProc_send lib proc n h.own
  generalize (rpsProc lib proc n e .send).1 = e' at *
  refine ⟨?_, ?_, hd.shake.trans h.shake, ?_, hd.calls ▸ h.start, hd.calls ▸ h.sound,
    ⟨rest, hd.calls ▸ hgot, fun _ => ⟨d, hd.cdata, ?_⟩⟩, ?_, fun hclean => ?_⟩
  · intro d' hd'
    obtain rfl := Option.some.inj (hd.cdata.symm.trans hd')
    exact hd.own
  · rw [hclient]
    refine ⟨fun p hp => ?_, h.mine.2⟩
    obtain rfl := Option.some.inj hp
    exact ⟨d.rpcmsg, rfl⟩
  · rw [hclient]
    exact h.direct
  · have hphase := Phase.header (n := n) (c := e'.client) (m := view e'.mem n) (d := d) 0
      (by rw [hclient]; rfl) hd.inPtr hd.outPtr (by decide) (by rw [hclient]; rfl)
      (by rw [hclient]; rfl)
    have hsame : rest = (view e'.mem n).read ⟨d.rpcmsg, 0⟩ 0 ++ e'.client.ahead := by
      rw [hclient, hrest]
      rfl
    rwa [← hsame] at hphase
  · intro hpaced _ _
    rw [hclient]
    exact hahead hpaced
  · rw [hd.calls]
    refine ⟨hsent hclean ▸ List.prefix_rfl, fun _ hstate => ?_, fun _ _ => hsent hclean⟩
    rw [hclient] at hstate
    exact absurd hstate nofun

/-- After a `sendmsg`, what was sent and what is queued are still all there is to send. -/
theorem Sent.callbackIov {stream : Bytes} (h : Sent e up w.sent stream) (hup : up)
    (hstate : e.client.state = .sendData) {ret : Int} (hclean : SendsClean e.client.iov ret)
    (hpos : 0 < int32 ret) :
    w.sent ++ (gather e.mem e.client.iov).take ret.toNat ++
        gather e.mem (Server.callbackIov e.client.iov (int32 ret).toNat) = stream ∧
      int32 (e.client.nleft - int32 ret) =
        int32 (total (Server.callbackIov e.client.iov (int32 ret).toNat)) ∧
      total (Server.callbackIov e.client.iov (int32 ret).toNat) < 4294967296 := by
  obtain ⟨hqueue, hnleft, htotal⟩ := h.sending hup hstate
  obtain ⟨hlo, hle, hint, hsplits⟩ := hclean
  have hret : int32 ret = ret := int32_of_range (by omega) (by omega)
  rw [hret] at hpos ⊢
  obtain ⟨k, rfl⟩ := Int.eq_ofNat_of_zero_le (Int.le_of_lt hpos)
  rw [Int.toNat_natCast] at hsplits ⊢
  have hk : k ≤ total e.client.iov := by omega
  rw [callbackIov_eq_updateIov _ _ hsplits, gather_updateIov, total_updateIov, List.append_assoc,
    List.take_append_drop, hnleft, int32_int32_sub, Nat.cast_sub hk]
  exact ⟨hqueue, rfl, by omega⟩

/-- **A `Callback` for a send.** -/
theorem Seated.send (h : Seated bufsize mem₀ n e up busy w) (hup : up) (hbusy : ¬busy)
    (hstate : e.client.state = .sendData) (lib : DStringLib) (proc : RpcProc α) (ret : Int)
    (again : Bool) :
    let r := finish (rpsProc lib proc n) .send (callbackSend e ret again)
    Seated bufsize mem₀ n r.1 True False
      ⟨w.got, w.sent ++ (gather e.mem e.client.iov).take ret.toNat, w.start, w.paced,
        w.clean ∧ SendsClean e.client.iov ret⟩ := by
  obtain ⟨hdata, hmem, hstate', hahead, hbuf, hres⟩ := callbackSend_spec e ret again
  obtain ⟨rest, hgot, hphase⟩ := h.session
  obtain ⟨d, hd, hphase⟩ := hphase hup
  have hrest : rest = e.client.ahead := by
    cases hphase with
    | sending => rfl
    | header k state => exact absurd (hstate.symm.trans state) nofun
    | body k cmd state => exact absurd (hstate.symm.trans state) nofun
    | refused cmd word rest state => exact absurd (hstate.symm.trans state) nofun
  have hquiet : w.paced → e.client.ahead = [] := fun hpaced => h.paced hpaced hup hbusy
  generalize callbackSend e ret again = r at *
  have hphase' : Phase n r.1.client (view r.1.mem n) d rest := by
    rw [hrest, ← hahead]
    exact .sending (hstate'.trans hstate)
  rcases hres with ⟨st, hst, -, hle, hiov, hnleft⟩ | ⟨hpos, hiov, hnleft, hdone⟩
  · -- nothing is sent
    have hfinish : finish (rpsProc lib proc n) .send r = (r.1, st) := by
      unfold finish
      rw [hst]
    rw [hfinish]
    refine ⟨?_, ?_, hmem ▸ h.shake, hahead ▸ h.direct, ?_, ?_,
      ⟨rest, ?_, fun _ => ⟨d, ?_, hphase'⟩⟩,
      fun hpaced _ _ => ?_, fun hclean => ?_⟩
    · rw [hdata]
      exact h.own
    · exact ⟨fun p hp => h.mine.1 p (hbuf ▸ hp), fun v hv => h.mine.2 v (hiov ▸ hv)⟩
    · rw [hdata]
      exact h.start
    · rw [hdata]
      exact h.sound
    · rw [hdata]
      exact hgot
    · rw [hdata]
      exact hd
    · rw [hahead]
      exact hquiet hpaced
    · obtain ⟨hclean, hlo, -, hint, -⟩ := hclean
      have hret : int32 ret = ret := int32_of_range (by omega) (by omega)
      have hzero : ret.toNat = 0 := by omega
      obtain ⟨hfront, hsending, hidle⟩ := h.sent hclean
      dsimp only
      rw [hzero, List.take_zero, List.append_nil, hdata]
      refine ⟨hfront, fun _ _ => ?_, fun _ hidle => ?_⟩
      · rw [hmem, hiov, hnleft]
        exact hsending hup hstate
      · exact absurd ((hstate'.trans hstate).symm.trans hidle) nofun
  · have hsent : w.clean ∧ SendsClean e.client.iov ret →
        Sent r.1 True (w.sent ++ (gather e.mem e.client.iov).take ret.toNat)
          (stream mem₀ (w.calls (r.1.data.calls n))) := by
      rintro ⟨hclean, hsends⟩
      obtain ⟨hqueue, hleft, htotal⟩ := (h.sent hclean).callbackIov hup hstate hsends hpos
      rw [hdata]
      refine ⟨⟨_, hqueue⟩, fun _ _ => ?_, fun _ hidle => ?_⟩
      · rw [hmem, hiov, hnleft]
        exact ⟨hqueue, hleft, htotal⟩
      · exact absurd ((hstate'.trans hstate).symm.trans hidle) nofun
    have hseated : Seated bufsize mem₀ n r.1 True False
        ⟨w.got, w.sent ++ (gather e.mem e.client.iov).take ret.toNat, w.start, w.paced,
          w.clean ∧ SendsClean e.client.iov ret⟩ := by
      refine ⟨?_, h.mine.callbackIov hbuf hiov, hmem ▸ h.shake, hahead ▸ h.direct, ?_, ?_,
        ⟨rest, ?_, fun _ => ⟨d, ?_, hphase'⟩⟩, fun hpaced _ _ => ?_, hsent⟩
      · rw [hdata]
        exact h.own
      · rw [hdata]
        exact h.start
      · rw [hdata]
        exact h.sound
      · rw [hdata]
        exact hgot
      · rw [hdata]
        exact hd
      · rw [hahead]
        exact hquiet hpaced
    by_cases hzero : int32 (e.client.nleft - int32 ret) = 0
    · -- all is sent
      rw [if_pos hzero] at hdone
      have hfinish : finish (rpsProc lib proc n) .send r = rpsProc lib proc n r.1 .send := by
        unfold finish
        rw [hdone]
      rw [hfinish]
      refine hseated.header (fun hpaced => ?_) ?_ (hrest.trans hahead.symm)
        (fun hclean => ?_) lib proc
      · rw [hahead]
        exact hquiet hpaced
      · rw [hdata]
        exact hgot
      · obtain ⟨hqueue, hleft, htotal⟩ := (hsent hclean).sending trivial (hstate'.trans hstate)
        have hnone : total r.1.client.iov = 0 := by
          rw [hnleft, hzero] at hleft
          have hmod : ((total r.1.client.iov : Nat) : Int) % 4294967296 =
              int32 (total r.1.client.iov) % 4294967296 := Int.bmod_emod.symm
          omega
        have hempty : gather r.1.mem r.1.client.iov = [] :=
          List.eq_nil_of_length_eq_zero (by rw [length_gather, hnone])
        rwa [hempty, List.append_nil] at hqueue
    · rw [if_neg hzero] at hdone
      have hfinish : finish (rpsProc lib proc n) .send r = (r.1, .ok) := by
        unfold finish
        rw [hdone]
      rw [hfinish]
      exact hseated

/-! ## A request -/

/-- More comes in, and is read ahead. -/
theorem Phase.more {c c' : Client Block} {m : Mem Nat} {d : CData} {rest bs : Bytes}
    (h : Phase n c m d rest) (hstate : c'.state = c.state) (hbuf : c'.bufPtr = c.bufPtr)
    (hnleft : c'.nleft = c.nleft) (hahead : c.ahead ++ bs = c'.ahead) :
    Phase n c' m d (rest ++ bs) := by
  cases h with
  | sending state =>
      rw [hahead]
      exact .sending (hstate.trans state)
  | header k state inPtr outPtr lt bufPtr nleft =>
      rw [List.append_assoc, hahead]
      exact .header k (hstate.trans state) inPtr outPtr lt (hbuf.trans bufPtr) (hnleft.trans nleft)
  | body k cmd state outPtr hcmd head lt small bufPtr nleft =>
      rw [List.append_assoc, hahead]
      exact .body k cmd (hstate.trans state) outPtr hcmd head lt small (hbuf.trans bufPtr)
        (hnleft.trans nleft)
  | refused cmd word rest state nleft hcmd hword large =>
      rw [List.append_assoc, hahead]
      exact .refused cmd word rest (hstate.trans state) (hnleft.trans nleft) hcmd hword large

/-- Of one request behind the answered ones, nothing is left when it is answered. -/
theorem Paced.ahead {calls : List Call} {got ahead : Bytes} {c : Call} (h : Paced calls got)
    (hc : c.input.length < 2147483648)
    (hgot : got = calls.flatMap Call.request ++ (c.request ++ ahead)) : ahead = [] := by
  obtain ⟨cmd, data, hdata, more, hmore⟩ := h
  rw [hgot, List.append_assoc] at hmore
  have hsplit := List.append_cancel_left hmore
  rw [List.append_assoc, ← List.append_nil (message cmd data)] at hsplit
  have hnil := (message_split hc hdata hsplit).2.2
  exact (List.append_eq_nil_iff.mp hnil).1

/-- The call for a request in memory. -/
theorem call_of_request {m : Mem Nat} {d : CData} (status : Int) {cmd : Bytes}
    (hcmd : cmd.length = 4)
    (hsmall : d.inPtr.length < 2147483648) (hout : d.outPtr.length = 0) {k : Int}
    (hk : int32 (ofBe32 cmd) = k) {appended : Bytes} (happended : appended.length < 2147483648) :
    let c : Call := ⟨k, d.inPtr.contents m, d.outPtr.contents m, status, appended⟩
    c.Sound ∧ c.request = cmd ++ be32 d.inPtr.length ++ d.inPtr.contents m ∧
      c.response.length < 4294967296 := by
  have hnil : d.outPtr.contents m = [] :=
    List.eq_nil_of_length_eq_zero (by rw [DString.contents, Mem.length_read, hout])
  have hinput : (d.inPtr.contents m).length = d.inPtr.length := Mem.length_read _ _ _
  have hrange := int32_range (ofBe32 cmd)
  have hbytes := be32_int32_ofBe32 hcmd
  rw [hk] at hrange hbytes
  refine ⟨⟨⟨hrange.1, hrange.2⟩, by rwa [hinput], hnil⟩, ?_, ?_⟩
  · show be32 k ++ be32 (d.inPtr.contents m).length ++ d.inPtr.contents m = _
    rw [hinput, hbytes]
  · show (message status (d.outPtr.contents m ++ appended)).length < _
    rw [length_message, hnil, List.nil_append]
    omega

/-- **A request is complete**: the procedure is called on it. -/
theorem Seated.called (h : Seated bufsize mem₀ n e False busy w) (lib : DStringLib)
    {proc : RpcProc α} (hproc : Room proc e.data.arg)
    {d : CData} (hd : e.data.cdata n = some d) {cmd : Bytes}
    (hcmd : (view e.mem n).read ⟨d.rpcmsg, 0⟩ 4 = cmd) (hsmall : d.inPtr.length < 2147483648)
    (hout : d.outPtr.length = 0)
    (hgot : w.got = (w.calls (e.data.calls n)).flatMap Call.request ++
      (cmd ++ be32 d.inPtr.length ++ d.inPtr.contents (view e.mem n) ++ e.client.ahead))
    (hpaced : w.paced → Paced (w.calls (e.data.calls n)) w.got)
    (hsent : w.clean → w.sent = stream mem₀ (w.calls (e.data.calls n))) :
    let e' := callProc lib proc n e d ⟨view e.mem n, e.data.next n⟩
    Seated bufsize mem₀ n e' True False w ∧ e'.client.state = .sendData := by
  obtain
    ⟨status, appended, hres, hcalls, ⟨d', hd', hown'⟩, ⟨ds, hblock, hclient⟩, hgather, hshake⟩ :=
    callProc_spec lib proc n (x := e) (a := ⟨view e.mem n, e.data.next n⟩) (h.own d hd)
  rw [hcmd] at hres hcalls hgather
  generalize hk : int32 (ofBe32 cmd) = k at hres hcalls hgather
  have happended : appended.length < 2147483648 := by
    have hnil : d.outPtr.contents (view e.mem n) = [] :=
      List.eq_nil_of_length_eq_zero (by rw [DString.contents, Mem.length_read, hout])
    dsimp only at hres
    rw [hnil] at hres
    have hsnd : appended = _ := congrArg Prod.snd hres
    rw [hsnd]
    exact Nat.lt_of_succ_lt (hproc _ _ (by rwa [DString.contents, Mem.length_read]))
  have hlength : cmd.length = 4 := by rw [← hcmd, Mem.length_read]
  obtain ⟨hsound, hrequest, hresponse⟩ := call_of_request (m := view e.mem n) status
    hlength hsmall hout hk happended
  clear hres
  generalize (Call.mk _ _ _ status appended) = c at *
  generalize callProc lib proc n e d ⟨view e.mem n, e.data.next n⟩ = e' at *
  have hdrop : w.calls (e'.data.calls n) = w.calls (e.data.calls n) ++ [c] := by
    unfold Seen.calls
    rw [hcalls, List.drop_append_of_le_length h.start]
  have hahead : e'.client.ahead = e.client.ahead := by rw [hclient]; rfl
  have hstate : e'.client.state = .sendData := by rw [hclient]; rfl
  rw [← hrequest] at hgot
  refine ⟨⟨?_, ?_, hshake.trans h.shake, hahead ▸ h.direct, ?_, ?_, ⟨e'.client.ahead, ?_, fun _ =>
    ⟨d', hd', .sending hstate⟩⟩, fun hp _ _ => ?_, fun hclean => ?_⟩, hstate⟩
  · intro d'' hd''
    obtain rfl := Option.some.inj (hd'.symm.trans hd'')
    exact hown'
  · rw [hclient]
    refine ⟨fun p hp => absurd hp.symm (Option.some_ne_none p), fun v hv p hp => Or.inr ?_⟩
    rcases List.mem_cons.mp hv with rfl | hv
    · obtain rfl := Option.some.inj hp
      exact ⟨_, rfl⟩
    · obtain rfl := List.mem_singleton.mp hv
      obtain rfl := Option.some.inj hp
      exact ⟨_, rfl⟩
  · rw [hcalls, List.length_append]
    exact Nat.le_add_right_of_le h.start
  · rw [hdrop]
    intro c' hc'
    rcases List.mem_append.mp hc' with hc' | hc'
    · exact h.sound c' hc'
    · obtain rfl := List.mem_singleton.mp hc'
      exact hsound
  · rw [hdrop, hahead, hgot, List.flatMap_append, List.append_assoc, List.flatMap_singleton]
  · rw [hahead]
    exact (hpaced hp).ahead hsound.input hgot
  · have hstream : stream mem₀ (w.calls (e'.data.calls n)) = w.sent ++ c.response := by
      unfold stream
      rw [hdrop, List.flatMap_append, List.flatMap_singleton, ← List.append_assoc, hsent hclean]
      rfl
    rw [hstream]
    refine ⟨List.prefix_append _ _, fun _ _ => ⟨by rw [hgather], ?_, ?_⟩, fun _ hidle => ?_⟩
    · rw [hclient]
      exact serverSendVec_nleft _ _
    · rw [← length_gather e'.mem, hgather]
      exact hresponse
    · exact State.noConfusion (hstate.symm.trans hidle)

/-- **A header announces data**: the data is to be received. -/
theorem Seated.announced (h : Seated bufsize mem₀ n e False busy w) (lib : DStringLib) {d : CData}
    (hd : e.data.cdata n = some d) {cmd word : Bytes}
    (hcmd : (view e.mem n).read ⟨d.rpcmsg, 0⟩ 4 = cmd) (hword : word.length = 4)
    (hout : d.outPtr.length = 0) {len : Int} (hlen : int32 (ofBe32 word) = len) (hne : len ≠ 0)
    (hgot : w.got = (w.calls (e.data.calls n)).flatMap Call.request ++
    (cmd ++ word ++ e.client.ahead))
    (hsent : w.clean → w.sent = stream mem₀ (w.calls (e.data.calls n))) :
    let e' := recvBody lib n e d ⟨view e.mem n, e.data.next n⟩ len
    Seated bufsize mem₀ n e' True True w ∧ e'.client.state = .recvData := by
  obtain ⟨ds, hd', hown', hds, hclient, hhead, hcalls, hshake⟩ :=
    recvBody_spec lib n (x := e) (a := ⟨view e.mem n, e.data.next n⟩) (h.own d hd) len
  generalize recvBody lib n e d ⟨view e.mem n, e.data.next n⟩ len = e' at *
  have hlength : cmd.length = 4 := by rw [← hcmd, Mem.length_read]
  have hahead : e'.client.ahead = e.client.ahead := by rw [hclient]; rfl
  have hstate : e'.client.state = .recvData := by rw [hclient]; rfl
  have hnleft : e'.client.nleft = len.toNat := by rw [hclient]; rfl
  have hphase : Phase n e'.client (view e'.mem n) { d with inPtr := ds }
      (cmd ++ word ++ e'.client.ahead) := by
    by_cases hlarge : 2147483648 ≤ ofBe32 word
    · have hneg : len < 0 := by
        have hrange := ofBe32_lt word
        rw [← hlen, int32_natCast_of_ge hlarge hrange]
        omega
      have hrefused := Phase.refused (n := n) (c := e'.client) (m := view e'.mem n)
        (d := { d with inPtr := ds }) cmd word [] hstate (by rw [hnleft]; omega) hlength hword
        hlarge
      rwa [List.append_nil] at hrefused
    · have hsame : len = ofBe32 word := by
        rw [← hlen]
        exact int32_natCast_eq_iff.mpr (by omega)
      have hbody := Phase.body (n := n) (c := e'.client) (m := view e'.mem n)
        (d := { d with inPtr := ds }) 0 cmd hstate hout hlength (by rw [hhead, hcmd])
        (by show 0 < ds.length; omega) (by show ds.length < _; omega) (by rw [hclient]; rfl)
        (by rw [hnleft, Nat.cast_zero, Int.sub_zero]; show _ = (ds.length : Int); rw [hds])
      have hbytes : be32 ds.length = word := by
        rw [hds, hsame, Int.toNat_natCast, be32_ofBe32 hword]
      dsimp only at hbody
      rwa [Mem.read_zero, List.append_nil, hbytes] at hbody
  refine ⟨⟨?_, ?_, hshake.trans h.shake, hahead ▸ h.direct, ?_, ?_, ⟨_, ?_, fun _ =>
    ⟨_, hd', hphase⟩⟩, fun _ _ hbusy => absurd trivial hbusy, fun hclean => ?_⟩, hstate⟩
  · intro d'' hd''
    obtain rfl := Option.some.inj (hd'.symm.trans hd'')
    exact hown'
  · rw [hclient]
    refine ⟨fun p hp => ?_, h.mine.2⟩
    obtain rfl := Option.some.inj hp
    exact ⟨_, rfl⟩
  · rw [hcalls]
    exact h.start
  · rw [hcalls]
    exact h.sound
  · rw [hcalls, hahead]
    exact hgot
  · rw [hcalls]
    refine ⟨hsent hclean ▸ List.prefix_rfl, fun _ hsending => ?_, fun _ _ => hsent hclean⟩
    exact absurd (hstate.symm.trans hsending) nofun

/-- More has come in, whatever the client does with it. -/
theorem Seated.more (h : Seated bufsize mem₀ n e up busy w) (hdata : e'.data = e.data)
    (hmine : Mine n e'.client) (hshake : e'.mem .handshake = e.mem .handshake)
    (hdirect : bufsize = 0 → e'.client.ahead = []) (bs : Bytes) (paced : Prop) :
    Seated bufsize mem₀ n e' False busy ⟨w.got ++ bs, w.sent, w.start, paced, w.clean⟩ := by
  obtain ⟨rest, hgot, -⟩ := h.session
  refine ⟨hdata ▸ h.own, hmine, hshake.trans h.shake, hdirect, hdata ▸ h.start, hdata ▸ h.sound,
    ⟨rest ++ bs, ?_, nofun⟩, fun _ => nofun, fun hclean => ⟨?_, nofun, nofun⟩⟩
  · dsimp only
    rw [hdata, hgot, List.append_assoc]
    rfl
  · rw [hdata]
    exact (h.sent hclean).front

/-- **`RECV`**: what `RpsProc` makes of a complete header, or of complete data. -/
theorem Seated.done (h : Seated bufsize mem₀ n e False busy w) (lib : DStringLib)
    {proc : RpcProc α} (hproc : Room proc e.data.arg)
    {d : CData} (hd : e.data.cdata n = some d) {cmd word : Bytes} (hcmd : cmd.length = 4)
    (hhead : (view e.mem n).read ⟨d.rpcmsg, 0⟩ 8 = cmd ++ word)
    (hsmall : d.inPtr.length < 2147483648) (hout : d.outPtr.length = 0)
    (hgot : w.got = (w.calls (e.data.calls n)).flatMap Call.request ++
      (cmd ++
      (if word = be32 0 then be32 d.inPtr.length ++ d.inPtr.contents (view e.mem n) else word) ++
        e.client.ahead))
    (hpaced : w.paced → Paced (w.calls (e.data.calls n)) w.got)
    (hsent : w.clean → w.sent = stream mem₀ (w.calls (e.data.calls n))) :
    let r := rpsProc lib proc n e .recv
    Seated bufsize mem₀ n r.1 True (r.1.client.state = .recvData) w ∧ r.2 = .ok := by
  have hword : word.length = 4 := by
    have hlen := congrArg List.length hhead
    rw [Mem.length_read, List.length_append] at hlen
    omega
  have hsplit := Mem.read_append (view e.mem n) ⟨d.rpcmsg, 0⟩ 4 4
  rw [hhead] at hsplit
  obtain ⟨hfirst, hsecond⟩ := List.append_inj hsplit (by simp [hcmd])
  rw [rpsProc_recv, getData_some lib n hd]
  refine ⟨?_, rfl⟩
  have hsecond' : (view e.mem n).read ⟨d.rpcmsg, 4⟩ 4 = word := hsecond.symm
  simp only [recvDone]
  rw [hsecond']
  have hzero : int32 (ofBe32 word) = 0 ↔ word = be32 0 := by
    constructor
    · intro hlen
      rw [← hlen, be32_int32_ofBe32 hword]
    · rintro rfl
      rw [int32_ofBe32_be32]
      rfl
  generalize hlen : int32 (ofBe32 word) = len at hzero
  by_cases hnil : len = 0
  · have hbe := hzero.mp hnil
    rw [if_neg (not_not.mpr hnil)]
    rw [if_pos hbe, ← List.append_assoc cmd] at hgot
    obtain ⟨hcalled, hstate⟩ :=
      h.called lib hproc hd hfirst.symm hsmall hout hgot hpaced hsent
    exact { hcalled with
      paced := fun hp hup _ => hcalled.paced hp hup not_false }
  · have hbe : word ≠ be32 0 := fun hword => hnil (hzero.mpr hword)
    rw [if_pos hnil]
    rw [if_neg hbe] at hgot
    obtain ⟨hseated, hstate⟩ := h.announced lib hd hfirst.symm hword hout hlen hnil hgot hsent
    exact { hseated with paced := fun _ _ hbusy => absurd hstate hbusy }

/-- Some bytes are stored where the transfer is. -/
structure Stores (n : Nat) (e e' : Env Block (Data α)) (p : Ptr Nat) (bs : Bytes) : Prop where
  data : e'.data = e.data
  iov : e'.client.iov = e.client.iov
  state : e'.client.state = e.client.state
  mem : e'.mem = e.mem.write (owned n p) bs
  bufPtr : e'.client.bufPtr = some (owned n (p.add bs.length))
  nleft : e'.client.nleft = e.client.nleft - bs.length

theorem Stores.mine {p : Ptr Nat} {bs : Bytes} (hs : Stores n e e' p bs) (h : Mine n e.client) :
    Mine n e'.client := by
  refine ⟨fun q hq => ?_, hs.iov ▸ h.2⟩
  obtain rfl := Option.some.inj (hs.bufPtr.symm.trans hq)
  exact ⟨_, rfl⟩

theorem Stores.shake {p : Ptr Nat} {bs : Bytes} (hs : Stores n e e' p bs) :
    e'.mem .handshake = e.mem .handshake := by
  rw [hs.mem, write_handshake]

/-- What is stored behind what was there. -/
theorem Stores.read {p : Ptr Nat} {bs : Bytes} {k : Nat} (hs : Stores n e e' (p.add k) bs) :
    (view e'.mem n).read p (k + bs.length) = (view e.mem n).read p k ++ bs := by
  rw [hs.mem, view_write, Mem.read_write_append]

/-- The transfer goes on. -/
theorem Seated.goes_on (h : Seated bufsize mem₀ n e up busy w) {p : Ptr Nat} {bs : Bytes}
    (hs : Stores n e e' p bs) (hdirect : bufsize = 0 → e'.client.ahead = [])
    (hstate : e.client.state = .recvData) {d : CData} (hd : e.data.cdata n = some d)
    (paced : Prop) {rest more : Bytes} (hgot : w.got ++ more =
      (w.calls (e.data.calls n)).flatMap Call.request ++ rest)
    (hphase : Phase n e'.client (view e'.mem n) d rest)
    (hsent : w.clean → w.sent = stream mem₀ (w.calls (e.data.calls n))) :
    Seated bufsize mem₀ n e' True True ⟨w.got ++ more, w.sent, w.start, paced, w.clean⟩ := by
  have hmore := h.more hs.data (hs.mine h.mine) hs.shake hdirect more paced
  refine { hmore with
    session := ⟨rest, ?_, fun _ => ⟨d, hs.data ▸ hd, hphase⟩⟩
    paced := fun _ _ hbusy => absurd trivial hbusy
    sent := fun hclean => ?_ }
  · rw [hs.data]
    exact hgot
  · rw [hs.data]
    refine ⟨hsent hclean ▸ List.prefix_rfl, fun _ hsending => ?_, fun _ _ => hsent hclean⟩
    exact absurd ((hs.state.trans hstate).symm.trans hsending) nofun

/-- Bytes of a header. -/
theorem Seated.storesHeader (h : Seated bufsize mem₀ n e up busy w)
    (hstate : e.client.state = .recvData) (lib : DStringLib) {proc : RpcProc α}
    (hproc : Room proc e.data.arg) {d : CData}
    (hd : e.data.cdata n = some d) {k : Nat} {bs more : Bytes} {res : Option Status}
    (hs : Stores n e e' ⟨d.rpcmsg, k⟩ bs) (hdirect : bufsize = 0 → e'.client.ahead = [])
    (hin : d.inPtr.length = 0) (hout : d.outPtr.length = 0) (hlt : k < 8)
    (hnleft : e.client.nleft = 8 - k) (hle : bs.length ≤ e.client.nleft.toNat)
    (hahead : e.client.ahead ++ more = bs ++ e'.client.ahead)
    (hgot : w.got = (w.calls (e.data.calls n)).flatMap Call.request ++
      ((view e.mem n).read ⟨d.rpcmsg, 0⟩ k ++ e.client.ahead))
    (hres : res = if e.client.nleft - bs.length = 0 then none else some .ok)
    (hsent : w.clean → w.sent = stream mem₀ (w.calls (e.data.calls n))) :
    let r := finish (rpsProc lib proc n) .recv (e', res)
    Seated bufsize mem₀ n r.1 True (r.2 = .error ∨ r.2 = .ok ∧ r.1.client.state = .recvData)
      ⟨w.got ++ more, w.sent, w.start,
        w.paced ∧ Paced (w.calls (e.data.calls n)) (w.got ++ more), w.clean⟩ := by
  have hread : (view e'.mem n).read ⟨d.rpcmsg, 0⟩ (k + bs.length) =
      (view e.mem n).read ⟨d.rpcmsg, 0⟩ k ++ bs := by
    refine Stores.read (e := e) ?_
    rwa [show (⟨d.rpcmsg, 0⟩ : Ptr Nat).add k = ⟨d.rpcmsg, k⟩ by simp [Ptr.add]]
  have hall : w.got ++ more = (w.calls (e.data.calls n)).flatMap Call.request ++
      ((view e'.mem n).read ⟨d.rpcmsg, 0⟩ (k + bs.length) ++ e'.client.ahead) := by
    rw [hgot, hread, List.append_assoc, List.append_assoc, List.append_assoc, hahead]
  by_cases hzero : e.client.nleft - bs.length = 0
  · -- the header is complete
    rw [if_pos hzero] at hres
    subst hres
    have hk : k + bs.length = 8 := by omega
    rw [hk] at hall
    have hfinish : finish (rpsProc lib proc n) .recv (e', none) = rpsProc lib proc n e' .recv := rfl
    rw [hfinish]
    have hmore := h.more hs.data (hs.mine h.mine) hs.shake hdirect more
      (w.paced ∧ Paced (w.calls (e.data.calls n)) (w.got ++ more))
    have hcontents : d.inPtr.contents (view e'.mem n) = [] :=
      List.eq_nil_of_length_eq_zero (by rw [DString.contents, Mem.length_read, hin])
    obtain ⟨head, hhead⟩ : ∃ head, (view e'.mem n).read ⟨d.rpcmsg, 0⟩ 8 = head := ⟨_, rfl⟩
    have hlength : head.length = 8 := by rw [← hhead, Mem.length_read]
    rw [hhead] at hall
    have hdone : w.got ++ more = (w.calls (e'.data.calls n)).flatMap Call.request ++
        (head.take 4 ++ (if head.drop 4 = be32 0 then
          be32 d.inPtr.length ++ d.inPtr.contents (view e'.mem n) else head.drop 4) ++
            e'.client.ahead) := by
      rw [hs.data, hall, hcontents, hin, List.append_nil, Nat.cast_zero]
      split_ifs with hword
      · rw [← hword, List.take_append_drop]
      · rw [List.take_append_drop]
    obtain ⟨hseated, hok⟩ := hmore.done lib (hs.data ▸ hproc) (hs.data ▸ hd)
      (by rw [List.length_take, hlength]; rfl) (hhead.trans (List.take_append_drop 4 head).symm)
      (by omega) hout hdone (fun hp => hs.data ▸ hp.2) (fun hclean => hs.data ▸ hsent hclean)
    clear hfinish
    generalize rpsProc lib proc n e' .recv = r at *
    exact { hseated with
      paced := fun hp hup hbusy =>
        hseated.paced hp hup fun hbody => hbusy (Or.inr ⟨hok, hbody⟩) }
  · -- more of it is to come
    rw [if_neg hzero] at hres
    subst hres
    show Seated bufsize mem₀ n e' True _ _
    have hphase : Phase n e'.client (view e'.mem n) d
        ((view e'.mem n).read ⟨d.rpcmsg, 0⟩ (k + bs.length) ++ e'.client.ahead) :=
      .header (k + bs.length) (hs.state.trans hstate) hin hout (by omega) hs.bufPtr
        (by rw [hs.nleft, hnleft]; omega)
    have hseated := h.goes_on hs hdirect hstate hd
      (w.paced ∧ Paced (w.calls (e.data.calls n)) (w.got ++ more)) hall hphase hsent
    exact { hseated with
      paced := fun _ _ hbusy => absurd (Or.inr ⟨rfl, hs.state.trans hstate⟩) hbusy }

/-- Bytes of the data. -/
theorem Seated.storesBody (h : Seated bufsize mem₀ n e up busy w)
    (hstate : e.client.state = .recvData) (lib : DStringLib) {proc : RpcProc α}
    (hproc : Room proc e.data.arg) {d : CData}
    (hd : e.data.cdata n = some d) {k : Nat} {cmd bs more : Bytes} {res : Option Status}
    (hs : Stores n e e' (d.inPtr.string.add k) bs) (hdirect : bufsize = 0 → e'.client.ahead = [])
    (hout : d.outPtr.length = 0) (hcmd : cmd.length = 4)
    (hhead : (view e.mem n).read ⟨d.rpcmsg, 0⟩ 8 = cmd ++ be32 0) (hlt : k < d.inPtr.length)
    (hsmall : d.inPtr.length < 2147483648) (hnleft : e.client.nleft = d.inPtr.length - k)
    (hle : bs.length ≤ e.client.nleft.toNat)
    (hahead : e.client.ahead ++ more = bs ++ e'.client.ahead)
    (hgot : w.got = (w.calls (e.data.calls n)).flatMap Call.request ++
      (cmd ++ be32 d.inPtr.length ++ (view e.mem n).read d.inPtr.string k ++ e.client.ahead))
    (hres : res = if e.client.nleft - bs.length = 0 then none else some .ok)
    (hsent : w.clean → w.sent = stream mem₀ (w.calls (e.data.calls n))) :
    let r := finish (rpsProc lib proc n) .recv (e', res)
    Seated bufsize mem₀ n r.1 True (r.2 = .error ∨ r.2 = .ok ∧ r.1.client.state = .recvData)
      ⟨w.got ++ more, w.sent, w.start,
        w.paced ∧ Paced (w.calls (e.data.calls n)) (w.got ++ more), w.clean⟩ := by
  have hread := hs.read
  have hall : w.got ++ more = (w.calls (e.data.calls n)).flatMap Call.request ++
      (cmd ++ be32 d.inPtr.length ++ (view e'.mem n).read d.inPtr.string (k + bs.length) ++
        e'.client.ahead) := by
    rw [hgot, hread]
    simp only [List.append_assoc]
    rw [hahead]
  have hhead' : (view e'.mem n).read ⟨d.rpcmsg, 0⟩ 8 = cmd ++ be32 0 := by
    rw [← hhead, hs.mem, view_write]
    exact Mem.read_write_before _ _ _ _ _ (Or.inl (h.own d hd).msg_in)
  by_cases hzero : e.client.nleft - bs.length = 0
  · -- the request is complete
    rw [if_pos hzero] at hres
    subst hres
    have hk : k + bs.length = d.inPtr.length := by omega
    rw [hk] at hall
    have hfinish : finish (rpsProc lib proc n) .recv (e', none) = rpsProc lib proc n e' .recv := rfl
    rw [hfinish]
    have hmore := h.more hs.data (hs.mine h.mine) hs.shake hdirect more
      (w.paced ∧ Paced (w.calls (e.data.calls n)) (w.got ++ more))
    have hdone : w.got ++ more = (w.calls (e'.data.calls n)).flatMap Call.request ++
        (cmd ++ (if be32 0 = be32 0 then
          be32 d.inPtr.length ++ d.inPtr.contents (view e'.mem n) else be32 0) ++
            e'.client.ahead) := by
      rw [if_pos rfl, ← List.append_assoc cmd, hs.data]
      exact hall
    obtain ⟨hseated, hok⟩ := hmore.done lib (hs.data ▸ hproc) (hs.data ▸ hd) hcmd hhead' hsmall hout
      hdone (fun hp => hs.data ▸ hp.2) (fun hclean => hs.data ▸ hsent hclean)
    clear hfinish
    generalize rpsProc lib proc n e' .recv = r at *
    exact { hseated with
      paced := fun hp hup hbusy =>
        hseated.paced hp hup fun hbody => hbusy (Or.inr ⟨hok, hbody⟩) }
  · -- more of it is to come
    rw [if_neg hzero] at hres
    subst hres
    show Seated bufsize mem₀ n e' True _ _
    have hphase : Phase n e'.client (view e'.mem n) d (cmd ++ be32 d.inPtr.length ++
        (view e'.mem n).read d.inPtr.string (k + bs.length) ++ e'.client.ahead) :=
      .body (k + bs.length) cmd (hs.state.trans hstate) hout hcmd hhead' (by omega) hsmall
        (hs.bufPtr.trans (by simp only [Ptr.add, Nat.add_assoc]))
        (by rw [hs.nleft, hnleft]; omega)
    have hseated := h.goes_on hs hdirect hstate hd
      (w.paced ∧ Paced (w.calls (e.data.calls n)) (w.got ++ more)) hall hphase hsent
    exact { hseated with
      paced := fun _ _ hbusy => absurd (Or.inr ⟨rfl, hs.state.trans hstate⟩) hbusy }

/-- **A `Callback` for a receive.** -/
theorem Seated.recv (h : Seated bufsize mem₀ n e up busy w) (hup : up)
    (hstate : e.client.state = .recvData) (lib : DStringLib) {proc : RpcProc α}
    (hproc : Room proc e.data.arg) (ios : List IoResult) :
    let r := finish (rpsProc lib proc n) .recv
      ((callbackRecv bufsize e ios).1, (callbackRecv bufsize e ios).2.1)
    let got := w.got ++ received bufsize e.client ios
    Seated bufsize mem₀ n r.1 True (r.2 = .error ∨ r.2 = .ok ∧ r.1.client.state = .recvData)
      ⟨got, w.sent, w.start, w.paced ∧ Paced (w.calls (e.data.calls n)) got, w.clean⟩ := by
  obtain ⟨hdata, hiov, hstate', hdirect, hres⟩ := callbackRecv_spec bufsize e ios h.direct
  generalize (callbackRecv bufsize e ios).2.1 = res at *
  generalize (callbackRecv bufsize e ios).1 = e' at *
  obtain ⟨rest, hgot, hphase⟩ := h.session
  obtain ⟨d, hd, hphase⟩ := hphase hup
  have hsent : w.clean → w.sent = stream mem₀ (w.calls (e.data.calls n)) := fun hclean =>
    (h.sent hclean).idle hup hstate
  rcases hres with ⟨st, rfl, hok, hmem, hbuf, hnleft, hahead, hnone⟩ |
    ⟨bs, hbs, hle, hmem, hbuf, hnleft, hahead, hres⟩
  · -- nothing is stored
    have hmine : Mine n e'.client := ⟨hbuf ▸ h.mine.1, hiov ▸ h.mine.2⟩
    have hmore := h.more hdata hmine (congrFun hmem _) hdirect (received bufsize e.client ios)
      (w.paced ∧ Paced (w.calls (e.data.calls n)) (w.got ++ received bufsize e.client ios))
    show Seated bufsize mem₀ n e' True _ _
    refine { hmore with
      session := ⟨rest ++ received bufsize e.client ios, ?_, fun _ => ⟨d, hdata ▸ hd, ?_⟩⟩
      paced := fun _ _ hbusy => hnone fun herror => hbusy (Or.inl herror)
      sent := fun hclean => ?_ }
    · dsimp only
      rw [hdata, hgot, List.append_assoc]
      rfl
    · rw [hmem]
      exact hphase.more hstate' hbuf hnleft hahead
    · rw [hdata]
      refine ⟨(h.sent hclean).front, fun _ hsending => ?_, fun _ _ => hsent hclean⟩
      exact absurd ((hstate'.trans hstate).symm.trans hsending) nofun
  · have hstores : ∀ p : Ptr Nat, e.client.bufPtr = some (owned n p) → Stores n e e' p bs := by
      intro p hp
      refine ⟨hdata, hiov, hstate', ?_, ?_, hnleft⟩
      · rw [hmem, hp]
        rfl
      · rw [hbuf, hp]
        rfl
    cases hphase with
    | sending state => exact absurd (hstate.symm.trans state) nofun
    | header k state inPtr outPtr lt bufPtr nleft =>
        exact h.storesHeader hstate lib hproc hd (hstores _ bufPtr) hdirect inPtr outPtr lt nleft
          hle
          hahead hgot hres hsent
    | body k cmd state outPtr hcmd head lt small bufPtr nleft =>
        exact h.storesBody hstate lib hproc hd (hstores _ bufPtr) hdirect outPtr hcmd head lt small
          nleft
          hle hahead hgot hres hsent
    | refused cmd word rest state nleft =>
        rw [nleft] at hle
        exact absurd (List.eq_nil_of_length_eq_zero (Nat.le_zero.mp hle)) hbs

end Nsdci.Rps
