import Nsdci.Rps

/-!
# What a call of `RpsProc` does to a client

`Own` says that the blocks of a client are its own, and `Quiet` that its two strings are empty.
There is one lemma for each way `RpsProc` is called: `INIT` and `SEND` leave the strings empty, a
header without a length or a complete request calls the procedure on just what is in memory, and
the procedure of one client does not touch what another has (`SameFor`).
-/

namespace Nsdci.Rps

open Lib Server

variable {α : Type}

/-! ## The memory of a client -/

@[simp] theorem view_setView (m : Mem Block) (n : Nat) (own : Mem Nat) :
    view (setView m n own) n = own := by
  funext b
  simp [view, setView]

theorem view_setView_ne (m : Mem Block) {n k : Nat} (own : Mem Nat) (h : k ≠ n) :
    view (setView m n own) k = view m k := by
  funext b
  simp [view, setView, h]

@[simp] theorem setView_handshake (m : Mem Block) (n : Nat) (own : Mem Nat) :
    setView m n own .handshake = m .handshake := rfl

/-- A write into the memory of a client. -/
theorem view_write (m : Mem Block) (n : Nat) (p : Ptr Nat) (bs : Bytes) :
    view (m.write (owned n p) bs) n = (view m n).write p bs := by
  funext b i
  simp [view, Mem.write, owned]

theorem view_write_ne (m : Mem Block) {n k : Nat} (p : Ptr Nat) (bs : Bytes) (h : k ≠ n) :
    view (m.write (owned n p) bs) k = view m k := by
  funext b i
  simp [view, Mem.write, owned, h]

theorem write_handshake (m : Mem Block) (n : Nat) (p : Ptr Nat) (bs : Bytes) :
    m.write (owned n p) bs .handshake = m .handshake := by
  funext i
  simp [Mem.write, owned]

/-- A read of the memory of a client. -/
theorem read_owned (m : Mem Block) (n : Nat) (p : Ptr Nat) (k : Nat) :
    m.read (owned n p) k = (view m n).read p k := rfl

@[simp] theorem owned_add (n : Nat) (p : Ptr Nat) (k : Nat) :
    (owned n p).add k = owned n (p.add k) := rfl

/-- The blocks of a client are its own, and they are three. -/
structure CData.Own (d : CData) (next : Nat) : Prop where
  rpcmsg : d.rpcmsg < next
  inPtr : d.inPtr.Below next
  outPtr : d.outPtr.Below next
  msg_in : d.rpcmsg ≠ d.inPtr.block
  msg_out : d.rpcmsg ≠ d.outPtr.block
  in_out : d.inPtr.block ≠ d.outPtr.block

/-- The pointers of a transfer are into the memory of client `n`. -/
def Mine (n : Nat) (c : Client Block) : Prop :=
  (∀ p, c.bufPtr = some p → ∃ b, p.block = .own n b) ∧
    ∀ v ∈ c.iov, ∀ p, v.base = some p → p.block = .handshake ∨ ∃ b, p.block = .own n b

/-- What client `n` has is the same. -/
structure SameFor (n : Nat) (e e' : Env Block (Data α)) : Prop where
  mem : view e'.mem n = view e.mem n
  shake : e'.mem .handshake = e.mem .handshake
  cdata : e'.data.cdata n = e.data.cdata n
  next : e'.data.next n = e.data.next n
  calls : e'.data.calls n = e.data.calls n

theorem SameFor.refl (n : Nat) (e : Env Block (Data α)) : SameFor n e e := ⟨rfl, rfl, rfl, rfl, rfl⟩

theorem SameFor.trans {n : Nat} {e e' e'' : Env Block (Data α)} (h : SameFor n e e')
    (h' : SameFor n e' e'') : SameFor n e e'' :=
  ⟨h'.mem.trans h.mem, h'.shake.trans h.shake, h'.cdata.trans h.cdata, h'.next.trans h.next,
    h'.calls.trans h.calls⟩

/-- What the vectors of a client describe. -/
theorem gather_congr {m m' : Mem Block} {iov : List (Iovec Block)}
    (h : ∀ v ∈ iov, ∀ p, v.base = some p → m' p.block = m p.block) :
    gather m' iov = gather m iov := by
  unfold gather
  refine List.flatMap_congr fun v hv => ?_
  unfold Iovec.bytes
  cases hbase : v.base with
  | none => rfl
  | some p =>
      show m'.read p v.len = m.read p v.len
      unfold Mem.read
      rw [h v hv p hbase]

theorem SameFor.gather {n : Nat} {e e' : Env Block (Data α)} (h : SameFor n e e')
    (hmine : Mine n e.client) : gather e'.mem e.client.iov = gather e.mem e.client.iov := by
  refine gather_congr fun v hv p hp => ?_
  rcases hmine.2 v hv p hp with hblock | ⟨b, hblock⟩
  · rw [hblock, h.shake]
  · rw [hblock]
    exact congrFun h.mem b

/-! ## The procedure -/

variable (lib : DStringLib) (proc : RpcProc α) (n : Nat)

/-- `dataPtr` has blocks of its own. -/
theorem getData_own {env : Env Block (Data α)}
    (h : ∀ d, env.data.cdata n = some d → d.Own (env.data.next n)) :
    let r := getData lib n env
    r.1.Own r.2.next := by
  unfold getData
  cases hd : env.data.cdata n with
  | some d => exact h d hd
  | none =>
      constructor <;> simp only [DString.Below, Arena.dsInit] <;> omega

theorem getData_some {env : Env Block (Data α)} {d : CData} (h : env.data.cdata n = some d) :
    getData lib n env = (d, ⟨view env.mem n, env.data.next n⟩) := by
  unfold getData
  rw [h]

/-- The input string stays or moves to a new block. -/
theorem CData.Own.setIn {d : CData} {next next' : Nat} (h : d.Own next) {ds : DString}
    (hblock : ds.block = d.inPtr.block ∨ ds.block = next) (hbelow : ds.Below next')
    (hnext : next ≤ next') : CData.Own { d with inPtr := ds } next' := by
  obtain ⟨hmsg, hin, hout, hmsgin, hmsgout, hinout⟩ := h
  unfold DString.Below at *
  refine ⟨Nat.lt_of_lt_of_le hmsg hnext, hbelow, Nat.lt_of_lt_of_le hout hnext, ?_, hmsgout, ?_⟩
  · show d.rpcmsg ≠ ds.block
    omega
  · show ds.block ≠ d.outPtr.block
    omega

/-- So does the output string. -/
theorem CData.Own.setOut {d : CData} {next next' : Nat} (h : d.Own next) {ds : DString}
    (hblock : ds.block = d.outPtr.block ∨ ds.block = next) (hbelow : ds.Below next')
    (hnext : next ≤ next') : CData.Own { d with outPtr := ds } next' := by
  obtain ⟨hmsg, hin, hout, hmsgin, hmsgout, hinout⟩ := h
  unfold DString.Below at *
  refine ⟨Nat.lt_of_lt_of_le hmsg hnext, Nat.lt_of_lt_of_le hin hnext, hbelow, hmsgin, ?_, ?_⟩
  · show d.rpcmsg ≠ ds.block
    omega
  · show d.inPtr.block ≠ ds.block
    omega

/-- Both strings are empty then. -/
theorem truncBoth_spec {d : CData} {a : Arena} (h : d.Own a.next) :
    let r := truncBoth lib d a
    r.1.Own r.2.next ∧ r.1.rpcmsg = d.rpcmsg ∧ r.1.inPtr.length = 0 ∧ r.1.outPtr.length = 0 := by
  obtain ⟨houtlen, houtblock, houtbelow, houtnext, -, -⟩ := a.setLength_spec lib d.outPtr 0 h.outPtr
  have hout := h.setOut houtblock houtbelow houtnext
  obtain ⟨hinlen, hinblock, hinbelow, hinnext, -, -⟩ :=
    (a.setLength lib d.outPtr 0).2.setLength_spec lib d.inPtr 0 hout.inPtr
  exact ⟨hout.setIn hinblock hinbelow hinnext, rfl, hinlen, houtlen⟩

/-- What a call leaves for another client. -/
theorem setData_same (env : Env Block (Data α)) (d : CData) (a : Arena) {k : Nat} (h : k ≠ n) :
    SameFor k env (setData n env d a) :=
  ⟨view_setView_ne _ _ h, rfl, Function.update_of_ne h _ _, Function.update_of_ne h _ _, rfl⟩

theorem rpsProc_recv (env : Env Block (Data α)) : rpsProc lib proc n env .recv =
    (recvDone lib proc n env (getData lib n env).1 (getData lib n env).2, .ok) := by
  simp only [rpsProc]

theorem recvBody_same (env : Env Block (Data α)) (d : CData) (a : Arena) (len : Int) {k : Nat}
    (h : k ≠ n) : SameFor k env (recvBody lib n env d a len) := by
  simp only [recvBody]
  generalize Arena.setLength lib _ d.inPtr len = r
  have hsame := setData_same n env { d with inPtr := r.1 } r.2 h
  exact ⟨hsame.mem, hsame.shake, hsame.cdata, hsame.next, hsame.calls⟩

theorem callProc_same (env : Env Block (Data α)) (d : CData) (a : Arena) {k : Nat} (h : k ≠ n) :
    SameFor k env (callProc lib proc n env d a) := by
  simp only [callProc]
  generalize int32 _ = cmd
  generalize proc env.data.arg cmd _ _ = res
  generalize a.nAppend lib d.outPtr res.2.2 = r
  generalize be32 res.2.1 ++ be32 r.1.length = head
  have hsame := setData_same n env { d with outPtr := r.1 }
    ⟨r.2.mem.write ⟨d.rpcmsg, 0⟩ head, r.2.next⟩ h
  exact ⟨hsame.mem, hsame.shake, hsame.cdata, hsame.next, Function.update_of_ne h _ _⟩

/-- **The procedure of one client does not touch what another has.** -/
theorem rpsProc_same (env : Env Block (Data α)) (why : Why) {k : Nat} (h : k ≠ n) :
    SameFor k env (rpsProc lib proc n env why).1 := by
  generalize hr : getData lib n env = r
  have htrunc : SameFor k env (truncate lib n env r.1 r.2) := setData_same n env _ _ h
  cases why with
  | drop =>
      rw [← hr] at htrunc
      exact htrunc
  | init | send =>
      rw [← hr] at htrunc
      exact ⟨htrunc.mem, htrunc.shake, htrunc.cdata, htrunc.next, htrunc.calls⟩
  | recv =>
      rw [rpsProc_recv, hr]
      simp only [recvDone]
      generalize int32 _ = len
      split_ifs
      · exact recvBody_same lib n env r.1 r.2 len h
      · exact callProc_same lib proc n env r.1 r.2 h

/-! ## What it does for its own client -/

/-- Of client `n`, the strings are empty now, and the calls as they were. -/
structure Emptied (e e' : Env Block (Data α)) (d : CData) : Prop where
  cdata : e'.data.cdata n = some d
  own : d.Own (e'.data.next n)
  inPtr : d.inPtr.length = 0
  outPtr : d.outPtr.length = 0
  calls : e'.data.calls n = e.data.calls n
  shake : e'.mem .handshake = e.mem .handshake

variable {x : Env Block (Data α)} {d : CData}

theorem truncate_emptied {a : Arena} (h : d.Own a.next) :
    Emptied n x (truncate lib n x d a) (truncBoth lib d a).1 := by
  obtain ⟨hown, -, hin, hout⟩ := truncBoth_spec lib h
  refine ⟨Function.update_self n _ _, ?_, hin, hout, rfl, rfl⟩
  show CData.Own _ (Function.update x.data.next n _ n)
  rw [Function.update_self]
  exact hown

/-- **`INIT`**: the handshake is to be sent. -/
theorem rpsProc_init (h : ∀ d, x.data.cdata n = some d → d.Own (x.data.next n)) :
    let e := (rpsProc lib proc n x .init).1
    (∃ d, Emptied n x e d) ∧ e.client = serverSend x.client ⟨.handshake, 0⟩ 32 := by
  have hempty := truncate_emptied lib n (x := x) (getData_own lib n h)
  exact ⟨⟨_, hempty.cdata, hempty.own, hempty.inPtr, hempty.outPtr, hempty.calls, hempty.shake⟩,
    rfl⟩

/-- **`SEND`**: a header is to be received. -/
theorem rpsProc_send (h : ∀ d, x.data.cdata n = some d → d.Own (x.data.next n)) :
    let e := (rpsProc lib proc n x .send).1
    ∃ d, Emptied n x e d ∧ e.client = serverRecv x.client (owned n ⟨d.rpcmsg, 0⟩) 8 := by
  have hempty := truncate_emptied lib n (x := x) (getData_own lib n h)
  exact ⟨_, ⟨hempty.cdata, hempty.own, hempty.inPtr, hempty.outPtr, hempty.calls, hempty.shake⟩,
    rfl⟩

/-- **`DROP`**. -/
theorem rpsProc_drop (h : ∀ d, x.data.cdata n = some d → d.Own (x.data.next n)) :
    let e := (rpsProc lib proc n x .drop).1
    (∃ d, Emptied n x e d) ∧ e.client = x.client :=
  ⟨⟨_, truncate_emptied lib n (x := x) (getData_own lib n h)⟩, rfl⟩

/-- **A header with a length**: the data is to be received into the input string. -/
theorem recvBody_spec {a : Arena} (h : d.Own a.next) (len : Int) :
    let e := recvBody lib n x d a len
    ∃ ds, e.data.cdata n = some { d with inPtr := ds } ∧
      CData.Own { d with inPtr := ds } (e.data.next n) ∧ ds.length = len.toNat ∧
      e.client = serverRecv x.client (owned n ds.string) len.toNat ∧
      (view e.mem n).read ⟨d.rpcmsg, 0⟩ 8 = a.mem.read ⟨d.rpcmsg, 0⟩ 4 ++ be32 0 ∧
      e.data.calls n = x.data.calls n ∧ e.mem .handshake = x.mem .handshake := by
  obtain ⟨hlen, hblock, hbelow, hnext, -, hother⟩ := Arena.setLength_spec lib
    ⟨a.mem.write ⟨d.rpcmsg, 4⟩ (be32 0), a.next⟩ d.inPtr len h.inPtr
  have hmsg := hother d.rpcmsg h.rpcmsg h.msg_in
  simp only [recvBody]
  generalize Arena.setLength lib _ d.inPtr len = r at *
  refine ⟨r.1, Function.update_self n _ _, ?_, hlen, ?_, ?_, rfl, rfl⟩
  · show CData.Own _ (Function.update x.data.next n _ n)
    rw [Function.update_self]
    exact h.setIn hblock hbelow hnext
  · rw [hlen]
    rfl
  · have hread := Mem.read_write_append a.mem ⟨d.rpcmsg, 0⟩ 4 (be32 0)
    show (view (setView x.mem n r.2.mem) n).read _ 8 = _
    rw [view_setView, ← hread]
    unfold Mem.read
    rw [hmsg]
    rfl

theorem recvBody_state (x : Env Block (Data α)) (d : CData) (a : Arena) (len : Int) :
    (recvBody lib n x d a len).client.state = .recvData := by
  simp only [recvBody, serverRecv]

theorem callProc_state (x : Env Block (Data α)) (d : CData) (a : Arena) :
    (callProc lib proc n x d a).client.state = .sendData := by
  simp only [callProc, serverSendVec]

/-- **A complete request**: the procedure is called on what has come, and the response is to be
sent. -/
theorem callProc_spec {a : Arena} (h : d.Own a.next) :
    let e := callProc lib proc n x d a
    ∃ status appended,
      let c : Call := ⟨int32 (ofBe32 (a.mem.read ⟨d.rpcmsg, 0⟩ 4)), d.inPtr.contents a.mem,
        d.outPtr.contents a.mem, status, appended⟩
      (status, appended) = (proc x.data.arg c.cmd c.input c.output).2 ∧
      e.data.calls n = x.data.calls n ++ [c] ∧
      (∃ d, e.data.cdata n = some d ∧ d.Own (e.data.next n)) ∧
      (∃ ds : DString, d.rpcmsg ≠ ds.block ∧ e.client = serverSendVec x.client
        [.mk' (owned n ⟨d.rpcmsg, 0⟩) 8, .mk' (owned n ds.string) ds.length]) ∧
      gather e.mem e.client.iov = c.response ∧ e.mem .handshake = x.mem .handshake := by
  simp only [callProc]
  generalize int32 _ = cmd
  generalize hres : proc x.data.arg cmd _ _ = res
  obtain ⟨hlen, hblock, hbelow, hnext, hcontents, hother⟩ :=
    Arena.nAppend_spec lib a d.outPtr res.2.2 h.outPtr
  have hown := h.setOut hblock hbelow hnext
  refine ⟨res.2.1, res.2.2, rfl, ?_,
    ⟨{ d with outPtr := (a.nAppend lib d.outPtr res.2.2).1 }, ?_, ?_⟩,
    ⟨(a.nAppend lib d.outPtr res.2.2).1, hown.msg_out, rfl⟩, ?_, rfl⟩
  · exact Function.update_self n _ _
  · exact Function.update_self n _ _
  · show CData.Own _ (Function.update x.data.next n _ n)
    rw [Function.update_self]
    exact hown
  · generalize a.nAppend lib d.outPtr res.2.2 = r at *
    have hhead := Mem.read_write_same r.2.mem ⟨d.rpcmsg, 0⟩ (be32 res.2.1 ++ be32 r.1.length)
    have hdata := Mem.read_write_before r.2.mem ⟨d.rpcmsg, 0⟩ r.1.string
      (be32 res.2.1 ++ be32 r.1.length) r.1.length (Or.inl (Ne.symm hown.msg_out))
    have hbytes : r.2.mem.read r.1.string r.1.length = d.outPtr.contents a.mem ++ res.2.2 :=
      hcontents
    have hlen' : r.1.length = (d.outPtr.contents a.mem ++ res.2.2).length := by
      rw [← hbytes, Mem.length_read]
    show (view (setView x.mem n _) n).read ⟨d.rpcmsg, 0⟩ 8 ++
      ((view (setView x.mem n _) n).read r.1.string r.1.length ++ []) = _
    rw [view_setView, List.append_nil, hdata, hbytes, hlen']
    rw [hlen'] at hhead
    exact congrArg (· ++ (d.outPtr.contents a.mem ++ res.2.2)) hhead

/-! ## What it keeps -/

/-- `callProc` makes one call, on the state that the procedure is in. -/
theorem callProc_data (lib : DStringLib) (proc : RpcProc α) (n : Nat) (env : Env Block (Data α))
    (d : CData) (a : Arena) :
    let data := (callProc lib proc n env d a).data
    ∃ c : Call, proc env.data.arg c.cmd c.input c.output = (data.arg, c.status, c.appended) ∧
      data.calls = Function.update env.data.calls n (env.data.calls n ++ [c]) := by
  simp only [callProc]
  generalize int32 _ = cmd
  exact ⟨_, rfl, rfl⟩

/-- **What a call of the procedure keeps, `RpsProc` keeps.** -/
theorem keepsData_rps (lib : DStringLib) (proc : RpcProc α) (bufsize : Nat)
    (retryInterval : Int) {I : Data α → Prop}
    (hsame : ∀ d d' : Data α, d'.arg = d.arg → d'.calls = d.calls → I d → I d')
    (hcall : ∀ (d d' : Data α) n c, I d →
      proc d.arg c.cmd c.input c.output = (d'.arg, c.status, c.appended) →
      d'.calls = Function.update d.calls n (d.calls n ++ [c]) → I d') :
    KeepsData (rpsSetup lib proc bufsize retryInterval) I := by
  intro n e why h
  show I (rpsProc lib proc n e why).1.data
  cases why with
  | recv =>
      rw [rpsProc_recv]
      generalize getData lib n e = r
      simp only [recvDone]
      generalize int32 _ = len
      split_ifs
      · exact hsame e.data _ rfl rfl h
      · obtain ⟨c, hproc, hcalls⟩ := callProc_data lib proc n e r.1 r.2
        exact hcall e.data _ n c h hproc hcalls
  | init => exact hsame e.data _ rfl rfl h
  | send => exact hsame e.data _ rfl rfl h
  | drop => exact hsame e.data _ rfl rfl h

end Nsdci.Rps
