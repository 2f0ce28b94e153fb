import Nsdci.Rpc.Recv

/-!
# Sending an RPC request

`requestBytes` is what a request looks like on the wire. The vectors of `rpcSetSend` describe it
(`rpcSetSend_sending`), and `RpcSend` takes it for sent when all of it is, as long as it is not
longer than `2 ^ 31` bytes (`Sending.step`): the count that `RpcSend` keeps is an `int`.
-/

namespace Nsdci.Rpc

open Lib

/-- The data of a request. -/
def inputData (inPtr : Option DString) (m : Mem Nat) : Bytes :=
  match inPtr with
  | none => []
  | some ds => ds.contents m

/-- The vector for it. -/
def inputIov (inPtr : Option DString) : Iovec Nat :=
  match inPtr with
  | none => .null
  | some ds => .mk' ds.string ds.length

/-- The header of a request. -/
def requestHead (cfg : Config) (http : Bool) (cmd : Int) (len : Nat) : Bytes :=
  if http then requestHeader cfg cmd len else be32 cmd ++ be32 len

/-- A request as it is sent. -/
def requestBytes (cfg : Config) (http : Bool) (cmd : Int) (data : Bytes) : Bytes :=
  requestHead cfg http cmd data.length ++ data

/-- The strings of the caller are allocated. The capacity of the one for the response is an
`int`. -/
structure Allocated (job : Job) (arena : Arena) : Prop where
  inPtr : ∀ ds, job.inPtr = some ds → ds.Below arena.next
  outPtr : ∀ ds, job.outPtr = some ds → ds.Below arena.next ∧ ds.spaceAvl < 2147483648

/-- What a `sendmsg` can have sent. -/
structure CanSend (x : Xfer) (n : Nat) : Prop where
  pos : 1 ≤ n
  le : n ≤ total x.conn.iov
  int : n < 2147483648

/-- Of the request, `sent` is sent. -/
structure Sending (req sent : Bytes) (x : Xfer) : Prop where
  bytes : sent ++ gather x.arena.mem x.conn.iov = req
  left : x.conn.len = int32 (total x.conn.iov)
  ready : Ready x

variable {x : Xfer} {req sent : Bytes} {n : Nat}

@[simp] theorem bytes_inputIov (inPtr : Option DString) (m : Mem Nat) :
    (inputIov inPtr).bytes m = inputData inPtr m := by
  cases inPtr <;> rfl

theorem length_inputData (inPtr : Option DString) (m : Mem Nat) :
    (inputData inPtr m).length = (inputIov inPtr).len := by
  rw [← bytes_inputIov, Iovec.length_bytes]

/-- A string stays as it is when other blocks change. -/
theorem inputData_congr {inPtr : Option DString} {m m' : Mem Nat}
    (h : ∀ ds, inPtr = some ds → m' ds.block = m ds.block) :
    inputData inPtr m' = inputData inPtr m := by
  cases hin : inPtr with
  | none => rfl
  | some ds =>
      show m'.read ds.string ds.length = m.read ds.string ds.length
      simp only [Mem.read, DString.string_block, h ds hin]

/-- The string that `RpcSetSend` formats the header in. -/
def formatHead (cfg : Config) (lib : DStringLib) (http : Bool) (cmd : Int) (len : Nat)
    (arena : Arena) : DString × Arena :=
  let r := arena.dsInit lib
  if http then r.2.nAppend lib r.1 (requestHeader cfg cmd len)
  else
    let r := r.2.setLength lib r.1 8
    (r.1, { r.2 with mem := r.2.mem.write r.1.string (be32 cmd ++ be32 len) })

/-- The header is formatted in a block of its own. -/
theorem formatHead_spec (cfg : Config) (lib : DStringLib) (http : Bool) (cmd : Int) (len : Nat)
    (arena : Arena) :
    let r := formatHead cfg lib http cmd len arena
    r.1.contents r.2.mem = requestHead cfg http cmd len ∧ r.1.Below r.2.next ∧
      arena.next ≤ r.1.block ∧ arena.next ≤ r.2.next ∧
      ∀ b < arena.next, r.2.mem b = arena.mem b := by
  generalize hr : arena.dsInit lib = r
  have hnext : r.2.next = arena.next + 1 := by rw [← hr]; rfl
  have hblock : r.1.block = arena.next := by rw [← hr]; rfl
  have hempty : r.1.contents r.2.mem = [] := by rw [← hr]; rfl
  have hinit : r.1.Below r.2.next := by
    unfold DString.Below
    omega
  have hother : ∀ b < arena.next, r.2.mem b = arena.mem b := by
    intro b hb
    rw [← hr]
    exact Arena.write_other _ _ _ (Nat.ne_of_lt hb)
  unfold formatHead
  simp only [hr]
  cases http with
  | true =>
      obtain ⟨-, hsame, hbelow, hle, hcontents, hkept⟩ :=
        Arena.nAppend_spec lib r.2 r.1 (requestHeader cfg cmd len) hinit
      simp only [if_true]
      generalize r.2.nAppend lib r.1 (requestHeader cfg cmd len) = r' at *
      refine ⟨?_, hbelow, ?_, by omega, fun b hb => ?_⟩
      · rw [hcontents, hempty]
        rfl
      · rcases hsame with h | h <;> omega
      · rw [hkept b (by omega) (by omega), hother b hb]
  | false =>
      obtain ⟨hlen, hsame, hbelow, hle, -, hkept⟩ := Arena.setLength_spec lib r.2 r.1 8 hinit
      simp only [Bool.false_eq_true, if_false]
      generalize r.2.setLength lib r.1 8 = r' at *
      have hbuf : arena.next ≤ r'.1.block := by rcases hsame with h | h <;> omega
      refine ⟨?_, hbelow, hbuf, by omega, fun b hb => ?_⟩
      · have hwrite := Mem.read_write_same r'.2.mem r'.1.string (be32 cmd ++ be32 len)
        show Mem.read _ r'.1.string r'.1.length = be32 cmd ++ be32 len
        rw [hlen]
        exact hwrite
      · have hne : b ≠ r'.1.string.block := by
          rw [DString.string_block]
          omega
        rw [Arena.write_other _ _ _ hne, hkept b (by omega) (by omega), hother b hb]

/-- What `RpcSetSend` does. -/
theorem rpcSetSend_eq (cfg : Config) (lib : DStringLib) (x : Xfer) :
    let iov1 := inputIov x.job.inPtr
    let r := formatHead cfg lib x.conn.http x.job.cmd iov1.len x.arena
    rpcSetSend cfg lib x = ⟨{ x.conn with
      buf := r.1
      iov := [.mk' r.1.string r.1.length, iov1]
      len := int32 (r.1.length + iov1.len) }, x.job, r.2⟩ := by
  cases hhttp : x.conn.http <;> cases hin : x.job.inPtr <;>
    simp only [rpcSetSend, formatHead, inputIov, hhttp, hin, if_true, Bool.false_eq_true, if_false]

/-- A connection whose vectors have just been set. -/
theorem sending_of {conn : Conn} {job : Job} {arena : Arena} {buf : DString} {left : Int}
    {cfg : Config} {m : Mem Nat} {next : Nat} (hjob : Allocated job ⟨m, next⟩)
    (hleft : left = int32 (buf.length + (inputIov job.inPtr).len))
    (hhead : buf.contents arena.mem =
      requestHead cfg conn.http job.cmd (inputIov job.inPtr).len)
    (hbuf : buf.Below arena.next) (hown : next ≤ buf.block) (hnext : next ≤ arena.next)
    (hkept : ∀ b < next, arena.mem b = m b) :
    Sending (requestBytes cfg conn.http job.cmd (inputData job.inPtr m)) []
      ⟨{ conn with
        buf := buf
        iov := [.mk' buf.string buf.length, inputIov job.inPtr]
        len := left }, job, arena⟩ := by
  refine ⟨?_, ?_, ⟨hbuf, fun out hout => ?_, fun out hout => (hjob.outPtr out hout).2⟩⟩
  · have hdata : inputData job.inPtr arena.mem = inputData job.inPtr m :=
      inputData_congr fun ds hds => hkept _ (hjob.inPtr ds hds)
    rw [List.nil_append, gather_cons, gather_cons, gather_nil, List.append_nil, bytes_inputIov,
      hdata, requestBytes, length_inputData, ← hhead]
    rfl
  · show left = _
    rw [hleft, total_cons, total_cons, total_nil, Iovec.len_mk']
    push_cast
    rw [add_zero]
  · have hlow : out.block < next := (hjob.outPtr out hout).1
    exact ⟨Nat.lt_of_lt_of_le hlow hnext, Nat.ne_of_lt (Nat.lt_of_lt_of_le hlow hown)⟩

/-- **Setting the vectors for a request leaves all of it to be sent.** -/
theorem rpcSetSend_sending (cfg : Config) (lib : DStringLib) (hx : Allocated x.job x.arena) :
    let y := rpcSetSend cfg lib x
    Sending (requestBytes cfg x.conn.http x.job.cmd (inputData x.job.inPtr x.arena.mem)) [] y ∧
      y.conn.http = x.conn.http ∧ y.conn.keep = x.conn.keep ∧ y.job = x.job := by
  obtain ⟨hhead, hbuf, hown, hnext, hkept⟩ := formatHead_spec cfg lib x.conn.http x.job.cmd
    (inputIov x.job.inPtr).len x.arena
  rw [rpcSetSend_eq]
  generalize formatHead cfg lib x.conn.http x.job.cmd (inputIov x.job.inPtr).len x.arena = r at *
  obtain ⟨left, hleft⟩ : ∃ left, left = int32 (r.1.length + (inputIov x.job.inPtr).len) := ⟨_, rfl⟩
  rw [← hleft]
  exact ⟨sending_of hx hleft hhead hbuf hown hnext hkept, rfl, rfl, rfl⟩

/-- **One `sendmsg`.** The request is taken for sent when all of it is, and not before. -/
theorem Sending.step (h : Sending req sent x) (hsmall : req.length ≤ 2147483648)
    (hn : CanSend x n) :
    let y := rpcSend x (.ok n)
    let sent' := sent ++ (gather x.arena.mem x.conn.iov).take n
    y.1.conn.http = x.conn.http ∧ Ready y.1 ∧
      (y.2 = .esendwait ∧ Sending req sent' y.1 ∨ y.2 = .etimeout ∧ sent' = req) := by
  have htotal : total x.conn.iov ≤ 2147483648 := by
    have hlen := congrArg List.length h.bytes
    rw [List.length_append, length_gather] at hlen
    omega
  have hpos := hn.pos
  have hle := hn.le
  have hleft : int32 (x.conn.len - n) = (total x.conn.iov - n : Nat) := by
    rw [h.left, int32_int32_sub, ← Int.natCast_sub hle]
    exact int32_of_range (by omega) (by omega)
  have hready := h.ready
  simp only [rpcSend, hleft]
  by_cases hmore : n < total x.conn.iov
  · rw [if_pos (by omega)]
    refine ⟨rfl, ⟨hready.buf, hready.out, hready.avl⟩, Or.inl ⟨rfl, ?_, ?_, ?_⟩⟩
    · show _ ++ gather x.arena.mem (updateIov x.conn.iov n) = req
      rw [gather_updateIov, List.append_assoc, List.take_append_drop, h.bytes]
    · show _ = int32 (total (updateIov x.conn.iov n))
      rw [total_updateIov, int32_of_range (by omega) (by omega)]
    · exact ⟨hready.buf, hready.out, hready.avl⟩
  · rw [if_neg (by omega)]
    refine ⟨rfl, ⟨hready.buf, hready.out, hready.avl⟩, Or.inr ⟨rfl, ?_⟩⟩
    rw [List.take_of_length_le (by rw [length_gather]; omega), h.bytes]

end Nsdci.Rpc
