import Nsdci.Rpc.Framing

/-!
# What `RpcRecv` makes of any bytes

`Rpc.Recv` is about the responses of a server that does as it should. Here a connection gets any
bytes. Before the header is there the bytes are in the connection's buffer (`Coming`); from then on
the count of `RpcRecv` is the one that the header says, less what has come in (`Inside`). The main
result is `received_step`: `RPC_OK` comes with a whole response only.
-/

namespace Nsdci.Rpc

open Lib

/-- `Tcl_GetInt` gives an `int`. -/
def TclGetInt.IsInt (tcl : TclGetInt) : Prop :=
  ∀ s n, tcl.getInt s = some n → -2147483648 ≤ n ∧ n < 2147483648

/-- The header is not there yet: `got` has come in. -/
structure Coming (got : Bytes) (x : Xfer) : Prop where
  body : x.conn.body = none
  buf : x.conn.buf.Below x.arena.next
  out : ∀ out, x.job.outPtr = some out → out.Below x.arena.next ∧ out.block ≠ x.conn.buf.block
  small : (spare x.conn.http x.job.outPtr).len < 2147483648
  room : x.conn.buf.length < 2147483648
  size : x.conn.http = false → x.conn.buf.length = 8
  le : got.length ≤ x.conn.buf.length
  head : headerEnd x.conn.http got = none
  read : x.arena.mem.read x.conn.buf.string got.length = got
  iov : x.conn.iov = [.mk' (x.conn.buf.string.add got.length) (x.conn.buf.length - got.length),
    spare x.conn.http x.job.outPtr]
  left : x.conn.len =
    int32 (x.conn.buf.length + (spare x.conn.http x.job.outPtr).len - got.length)

/-- The header is there and gives the response `len` bytes: `got` has come in. A length that is
negative as an `int` makes a vector that no `recvmsg` takes. -/
structure Inside (tcl : TclGetInt) (len : Int) (got : Bytes) (x : Xfer) : Prop where
  body : x.conn.body ≠ none
  length : responseLength tcl x.conn.http got = some len
  near : -4294967296 < len - got.length ∧ len - got.length < 4294967296
  left : x.conn.len = int32 (len - got.length)
  room : total x.conn.iov = (len - got.length).toNat ∨ 9223372036854775808 ≤ total x.conn.iov

/-- What `RpcRecv` returns when `got` has come in. -/
inductive Received (tcl : TclGetInt) (got : Bytes) (x : Xfer) : Error → Prop
  | coming (h : Coming got x) : Received tcl got x .erecvwait
  | inside (len : Int) (h : Inside tcl len got x) : Received tcl got x .erecvwait
  | whole (h : Whole tcl x.conn.http got) : Received tcl got x .ok
  | httpSize : Received tcl got x .ehttpsize
  | httpParse : Received tcl got x .ehttpparse

/-- What a `recvmsg` that stores bytes can have stored. -/
structure CanRecv (x : Xfer) (bs : Bytes) : Prop where
  le : bs.length ≤ total x.conn.iov
  int : bs.length < 2147483648
  valid : total x.conn.iov < 9223372036854775808

/-- The end of `RpcRecv`: move the vectors. -/
def Xfer.moved (x : Xfer) (n : Nat) : Xfer :=
  { x with conn := { x.conn with
      iov := updateIov x.conn.iov n
      len := int32 (x.conn.len - n) } }

/-- The bytes are stored. -/
def Xfer.stored (x : Xfer) (bs : Bytes) : Xfer :=
  { x with arena := { x.arena with mem := scatter x.arena.mem x.conn.iov bs } }

/-- What `RpcRecv` returns at its end. -/
def Xfer.left (x : Xfer) : Error := if x.conn.len = 0 then .ok else .erecvwait

variable {tcl : TclGetInt} {x : Xfer} {got bs : Bytes} {len : Int}

/-! ## Behind the header -/

/-- The count is 0 at the end of the response only. -/
theorem Inside.received (h : Inside tcl len got x) : Received tcl got x x.left := by
  obtain ⟨hlo, hhi⟩ := h.near
  unfold Xfer.left
  split_ifs with hzero
  · rw [h.left, int32_eq_zero_iff] at hzero
    have hlen : len = got.length := by omega
    exact .whole (h.length.trans (congrArg some hlen))
  · exact .inside len h

/-- **More of the response.** -/
theorem Inside.step (h : Inside tcl len got x) (lib : DStringLib) (hbs : CanRecv x bs) :
    let y := recvBytes lib tcl x bs
    y.1.conn.http = x.conn.http ∧ Received tcl (got ++ bs) y.1 y.2 := by
  obtain ⟨body, hbody⟩ := Option.ne_none_iff_exists'.mp h.body
  obtain ⟨hlo, hhi⟩ := h.near
  have hle := hbs.le
  have hvalid := hbs.valid
  have hroom := h.room
  have heq : recvBytes lib tcl x bs =
      ((x.stored bs).moved bs.length, ((x.stored bs).moved bs.length).left) := by
    simp only [recvBytes, Xfer.moved, Xfer.stored, Xfer.left, hbody]
  rw [heq]
  have hin : Inside tcl len (got ++ bs) ((x.stored bs).moved bs.length) := by
    refine ⟨h.body, responseLength_append h.length bs, ?_, ?_, ?_⟩
    · rw [List.length_append]
      omega
    · show int32 (x.conn.len - bs.length) = _
      rw [h.left, int32_int32_sub, List.length_append]
      congr 1
      omega
    · left
      show total (updateIov x.conn.iov bs.length) = _
      rw [total_updateIov, List.length_append]
      omega
  exact ⟨rfl, hin.received⟩

/-! ## Up to the header -/

/-- `iov[0]` while the header is coming in. -/
theorem Coming.iov0 (h : Coming got x) : x.conn.iov0 =
    .mk' (x.conn.buf.string.add got.length) (x.conn.buf.length - got.length) := by
  rw [Conn.iov0, h.iov]
  rfl

/-- More of the header, when it is not there yet. -/
theorem Coming.more (h : Coming got x) (hlt : (got ++ bs).length < x.conn.buf.length)
    (hhead : headerEnd x.conn.http (got ++ bs) = none) {mem : Mem Nat}
    (hmem : mem.read x.conn.buf.string (got ++ bs).length = got ++ bs) :
    Coming (got ++ bs) (({ x with arena := { x.arena with mem := mem } }).moved bs.length) := by
  have hfits : bs.length < x.conn.buf.length - got.length := by
    rw [List.length_append] at hlt
    omega
  refine ⟨h.body, h.buf, h.out, h.small, h.room, h.size, Nat.le_of_lt hlt, hhead, hmem, ?_, ?_⟩
  · show updateIov x.conn.iov bs.length = _
    rw [h.iov, updateIov_lt _ _ hfits, List.length_append]
    simp only [Xfer.moved, Ptr.add, Nat.add_assoc, Nat.sub_sub]
  · show int32 (x.conn.len - bs.length) = _
    rw [h.left, int32_int32_sub, List.length_append]
    congr 1
    push_cast
    exact Int.sub_sub _ _ _

/-- A count that is not 0 asks for more. -/
theorem Coming.received (h : Coming got x) (hlt : got.length < x.conn.buf.length) :
    Received tcl got x x.left := by
  have hne : x.conn.len ≠ 0 := by
    have hsmall := h.small
    have hroom := h.room
    rw [h.left, Ne, int32_eq_zero_iff]
    omega
  rw [Xfer.left, if_neg hne]
  exact .coming h

/-- The bytes go to the buffer first. -/
theorem Coming.stored_mem (h : Coming got x) (bs : Bytes) : (x.stored bs).arena.mem =
    scatter (x.arena.mem.write (x.conn.buf.string.add got.length)
      (bs.take (x.conn.buf.length - got.length))) [spare x.conn.http x.job.outPtr]
      (bs.drop (x.conn.buf.length - got.length)) := by
  show scatter x.arena.mem x.conn.iov bs = _
  rw [h.iov]
  rfl

/-- Bytes that do not fill the buffer are behind the others there. -/
theorem Coming.stored_read (h : Coming got x) (bs : Bytes)
    (hle : (got ++ bs).length ≤ x.conn.buf.length) :
    (x.stored bs).arena.mem = x.arena.mem.write (x.conn.buf.string.add got.length) bs ∧
      (x.stored bs).arena.mem.read x.conn.buf.string (got ++ bs).length = got ++ bs := by
  have hfits : bs.length ≤ x.conn.buf.length - got.length := by
    rw [List.length_append] at hle
    omega
  have hmem : (x.stored bs).arena.mem =
      x.arena.mem.write (x.conn.buf.string.add got.length) bs := by
    rw [h.stored_mem, List.take_of_length_le hfits, List.drop_eq_nil_of_le hfits, scatter_nil]
  refine ⟨hmem, ?_⟩
  rw [hmem, List.length_append, Mem.read_write_append, h.read]

/-! ## The binary header -/

/-- A length in a header, as the count of a vector. -/
theorem sizeT_int32 {w : Nat} (hw : w < 4294967296) : sizeT (int32 w) =
    if w < 2147483648 then w else w + 18446744069414584320 := by
  unfold sizeT
  split_ifs with h
  · rw [int32_of_range (by omega) (by omega)]
    omega
  · rw [int32_natCast_of_ge (by omega) (by omega)]
    omega

/-- The count of a whole response, as `RpcRecv` has it. -/
theorem int32_header {w s : Nat} (hw : w < 4294967296) (hs : s ≤ 8) (n : Nat) :
    int32 (((8 - s : Nat) : Int) + (sizeT (int32 w) : Nat) - n) =
      int32 (8 + w - (s + n : Nat)) := by
  rw [sizeT_int32 hw]
  split_ifs
  · congr 1
    push_cast [hs]
    ring
  · rw [← int32_add_mul (8 + w - (s + n : Nat)) 4294967295]
    congr 1
    push_cast [hs]
    ring

theorem Xfer.setTarget_http (x : Xfer) (ds : DString) :
    (x.setTarget ds).conn.http = x.conn.http := by
  unfold Xfer.setTarget
  cases x.job.outPtr <;> rfl

/-- What `recvHeader` makes of any header. -/
theorem recvHeader_eq (lib : DStringLib) (x : Xfer) (n : Nat)
    (hlen : int32 (ofBe32 ((x.arena.mem.read x.conn.buf.string 8).drop 4)) = len) :
    ∃ out arena left, left = int32 (x.conn.iov0.len + sizeT len) ∧
      recvHeader lib x n = Xfer.setTarget ⟨{ x.conn with
          iov := [x.conn.iov0, .mk' out.string (sizeT len)]
          body := some out.string
          len := left },
        { x.job with
          result := int32 (ofBe32 ((x.arena.mem.read x.conn.buf.string 8).take 4)) },
        arena⟩ out := by
  generalize hset : x.arena.setLength lib x.target (n - x.conn.iov0.len) = set
  obtain ⟨out, arena⟩ := set
  generalize hset' : arena.setLength lib out len = set'
  obtain ⟨out', arena'⟩ := set'
  refine ⟨out', arena', _, rfl, ?_⟩
  unfold recvHeader
  simp only [hset, hlen, hset', Iovec.len_mk']

/-- The connection after it. -/
theorem recvHeader_conn (lib : DStringLib) (x : Xfer) (n : Nat)
    (hlen : int32 (ofBe32 ((x.arena.mem.read x.conn.buf.string 8).drop 4)) = len) :
    ∃ p, (recvHeader lib x n).conn.http = x.conn.http ∧
      (recvHeader lib x n).conn.body = some p ∧
      (recvHeader lib x n).conn.iov = [x.conn.iov0, .mk' p (sizeT len)] ∧
      (recvHeader lib x n).conn.len = int32 (x.conn.iov0.len + sizeT len) := by
  obtain ⟨out, arena, left, hleft, heq⟩ := recvHeader_eq lib x n hlen
  rw [heq]
  refine ⟨out.string, Xfer.setTarget_http _ _, (Xfer.setTarget_conn _ _).1,
    (Xfer.setTarget_conn _ _).2.2, ?_⟩
  rw [(Xfer.setTarget_conn _ _).2.1, hleft]

/-- The header is read from the buffer; the data behind it go to another string. -/
theorem Coming.read_header (h : Coming got x) (bs : Bytes) (hhttp : x.conn.http = false)
    (hge : 8 ≤ (got ++ bs).length) :
    (x.stored bs).arena.mem.read x.conn.buf.string 8 = (got ++ bs).take 8 := by
  have hsize := h.size hhttp
  have hlt : got.length ≤ 8 := hsize ▸ h.le
  rw [List.length_append] at hge
  have htake : (bs.take (8 - got.length)).length = 8 - got.length := by
    rw [List.length_take]
    omega
  have hbuf := Mem.read_write_append x.arena.mem x.conn.buf.string got.length
    (bs.take (8 - got.length))
  rw [htake, h.read, Nat.add_sub_cancel' hlt] at hbuf
  have hall : (got ++ bs).take 8 = got ++ bs.take (8 - got.length) := by
    rw [List.take_append, List.take_of_length_le hlt]
  rw [h.stored_mem, hsize, hall, ← hbuf, hhttp]
  cases hout : x.job.outPtr with
  | none => rfl
  | some out =>
      have hapart := (h.out out hout).2
      exact Mem.read_write_before _ _ _ _ _ (Or.inl (Ne.symm hapart))

/-- `RpcRecv` on a binary connection without a header. -/
theorem recvBytes_binary (lib : DStringLib) (hbody : x.conn.body = none)
    (hhttp : x.conn.http = false) (bs : Bytes) :
    let y := if x.conn.iov0.len ≤ bs.length then recvHeader lib (x.stored bs) bs.length
      else x.stored bs
    recvBytes lib tcl x bs = (y.moved bs.length, (y.moved bs.length).left) := by
  obtain ⟨⟨http, keep, errnum, len, body, iov, buf⟩, job, arena⟩ := x
  subst hbody hhttp
  rfl

/-- **Bytes over the binary transport.** -/
theorem Coming.step_binary (h : Coming got x) (hhttp : x.conn.http = false) (lib : DStringLib)
    (hbs : CanRecv x bs) :
    let y := recvBytes lib tcl x bs
    y.1.conn.http = x.conn.http ∧ Received tcl (got ++ bs) y.1 y.2 := by
  have hsize := h.size hhttp
  have hshort : got.length < 8 := by
    have hhead := h.head
    simp only [headerEnd, hhttp, Bool.false_eq_true, if_false] at hhead
    by_contra hge
    rw [if_pos (by omega)] at hhead
    exact absurd hhead (Option.some_ne_none _)
  have hiov0 : x.conn.iov0.len = 8 - got.length := by rw [h.iov0, Iovec.len_mk', hsize]
  have hlen : (got ++ bs).length = got.length + bs.length := List.length_append
  rw [recvBytes_binary lib h.body hhttp]
  by_cases hmore : (got ++ bs).length < 8
  · -- the header is still not there
    rw [if_neg (by omega)]
    obtain ⟨-, hread⟩ := h.stored_read bs (by omega)
    have hhead : headerEnd x.conn.http (got ++ bs) = none := by
      simp only [headerEnd, hhttp, Bool.false_eq_true, if_false]
      exact if_neg (by omega)
    have hlt : (got ++ bs).length < x.conn.buf.length := by omega
    exact ⟨rfl, (h.more hlt hhead hread).received hlt⟩
  · rw [if_pos (by omega)]
    have hword := ofBe32_lt (((got ++ bs).take 8).drop 4)
    have hheader := h.read_header bs hhttp (by omega)
    generalize hw : ofBe32 (((got ++ bs).take 8).drop 4) = w at hword
    have hvalue : int32 (ofBe32 (((x.stored bs).arena.mem.read
        (x.stored bs).conn.buf.string 8).drop 4)) = int32 w := by
      rw [← hw, ← hheader]
      rfl
    obtain ⟨p, hhttp', hbody', hiov', hlen'⟩ :=
      recvHeader_conn lib (x.stored bs) bs.length hvalue
    have hiov0' : (x.stored bs).conn.iov0.len = 8 - got.length := hiov0
    have hle := hbs.le
    have hint := hbs.int
    have hsmall := h.small
    rw [h.iov, total_cons, total_cons, total_nil, Iovec.len_mk', hsize] at hle
    rw [hiov0'] at hlen'
    have htotal := congrArg total hiov'
    rw [total_cons, total_cons, total_nil, Iovec.len_mk', hiov0'] at htotal
    have hresp : responseLength tcl false (got ++ bs) = some (8 + (w : Int)) := by
      simp only [responseLength, headerEnd, dataLength, Bool.false_eq_true, if_false]
      rw [if_pos (by omega), Option.bind_eq_bind, Option.bind_some, hw]
      rfl
    generalize recvHeader lib (x.stored bs) bs.length = y at hhttp' hbody' hlen' htotal
    have hyhttp : y.conn.http = false := hhttp'.trans hhttp
    have hin : Inside tcl (8 + w) (got ++ bs) (y.moved bs.length) := by
      refine ⟨?_, ?_, by omega, ?_, ?_⟩
      · show y.conn.body ≠ none
        rw [hbody']
        exact Option.some_ne_none _
      · show responseLength tcl y.conn.http _ = _
        rw [hyhttp, hresp]
      · show int32 (y.conn.len - bs.length) = _
        rw [hlen', int32_int32_sub, hlen]
        exact int32_header hword (by omega) _
      · show total (updateIov y.conn.iov bs.length) = _ ∨ 9223372036854775808 ≤
          total (updateIov y.conn.iov bs.length)
        rw [total_updateIov, htotal, sizeT_int32 hword, hlen]
        split_ifs
        · left
          omega
        · right
          omega
    exact ⟨hhttp', hin.received⟩

/-! ## The HTTP header -/

variable {base : Ptr Nat} {n i : Nat} {s : Bytes}

/-- The header is not complete. -/
theorem recvHttp_none (lib : DStringLib) (tcl : TclGetInt)
    (hstr : cstr ((x.arena.mem.write (base.add n) [0]).read x.conn.buf.string
      x.conn.buf.spaceAvl) = s) (hnone : strstr blankLine s = none) :
    recvHttp lib tcl x base n =
      ({ x with arena := { x.arena with mem := x.arena.mem.write (base.add n) [0] } },
        if x.conn.len = n then .error .ehttpsize else .ok n) := by
  unfold recvHttp
  simp only [hstr, hnone]

/-- The header is complete and makes no sense. -/
theorem recvHttp_invalid (lib : DStringLib) (tcl : TclGetInt)
    (hstr : cstr ((x.arena.mem.write (base.add n) [0]).read x.conn.buf.string
      x.conn.buf.spaceAvl) = s) (hfound : strstr blankLine s = some i)
    (hparse : rpcParseHttp tcl (s.take i) = none) :
    ∃ y, recvHttp lib tcl x base n = (y, .error .ehttpparse) ∧ y.conn.http = x.conn.http := by
  unfold recvHttp
  simp only [hstr, hfound, hparse]
  exact ⟨_, rfl, rfl⟩

/-- The header is complete. -/
theorem recvHttp_valid (lib : DStringLib) (tcl : TclGetInt) {parse : Parse}
    (hstr : cstr ((x.arena.mem.write (base.add n) [0]).read x.conn.buf.string
      x.conn.buf.spaceAvl) = s) (hfound : strstr blankLine s = some i)
    (hparse : rpcParseHttp tcl (s.take i) = some parse) :
    ∃ y p, recvHttp lib tcl x base n =
        (y, .ok (base.off + n - (x.conn.buf.string.add (i + 4)).off)) ∧
      y.conn.http = x.conn.http ∧ y.conn.body ≠ none ∧ y.conn.len = parse.length ∧
      y.conn.iov = [.mk' p parse.length.toNat, x.conn.iov1] := by
  unfold recvHttp
  simp only [hstr, hfound, hparse]
  generalize x.arena.mem.write (base.add n) [0] = mem
  cases hjob : x.job.outPtr with
  | none =>
      let r := Arena.setLength lib ⟨mem, x.arena.next⟩ x.conn.buf parse.length
      have hlen : r.1.length = parse.length.toNat := rfl
      refine ⟨_, r.1.string, rfl, ?_⟩
      simp [r, hlen, Xfer.setTarget, Xfer.target, Conn.iov1]
  | some out =>
      simp only []
      generalize Arena.nAppend lib _ _ _ = r
      have hlen : (r.2.setLength lib r.1 parse.length).1.length = parse.length.toNat := rfl
      refine ⟨_, (r.2.setLength lib r.1 parse.length).1.string, rfl, ?_⟩
      simp [hlen, Xfer.setTarget, Conn.iov1]

/-- A header gives an `int`. -/
theorem rpcParseHttp_int (htcl : tcl.IsInt) {parse : Parse} (h : rpcParseHttp tcl s = some parse) :
    -2147483648 ≤ parse.length ∧ parse.length < 2147483648 := by
  unfold rpcParseHttp at h
  obtain ⟨result, -, h⟩ := Option.bind_eq_some_iff.mp h
  cases hl : ((s.splitOn 10).foldl Found.line {}).l with
  | none =>
      simp only [hl] at h
      obtain rfl := Option.some.inj h
      show (-2147483648 : Int) ≤ 0 ∧ (0 : Int) < 2147483648
      omega
  | some l =>
      simp only [hl] at h
      obtain ⟨length, hlength, h⟩ := Option.bind_eq_some_iff.mp h
      obtain rfl := Option.some.inj h
      exact htcl l length hlength

/-- `RpcRecv` on an HTTP connection without a header, when this is an error. -/
theorem recvBytes_http_error (lib : DStringLib) (hbody : x.conn.body = none)
    (hhttp : x.conn.http = true) (hbase : x.conn.iov0.base = some base) {y : Xfer} {e : Error}
    (h : recvHttp lib tcl (x.stored bs) base bs.length = (y, .error e)) :
    recvBytes lib tcl x bs = (y, e) := by
  unfold Xfer.stored at h
  simp only [recvBytes, hbody, hhttp, hbase, h]

/-- `RpcRecv` on an HTTP connection without a header. -/
theorem recvBytes_http (lib : DStringLib) (hbody : x.conn.body = none)
    (hhttp : x.conn.http = true) (hbase : x.conn.iov0.base = some base) {y : Xfer}
    (h : recvHttp lib tcl (x.stored bs) base bs.length = (y, .ok n)) :
    recvBytes lib tcl x bs = (y.moved n, (y.moved n).left) := by
  unfold Xfer.stored at h
  simp only [recvBytes, hbody, hhttp, hbase, h]
  rfl

/-- **Bytes over HTTP.** -/
theorem Coming.step_http (h : Coming got x) (hhttp : x.conn.http = true) (lib : DStringLib)
    (htcl : tcl.IsInt) (hbs : CanRecv x bs) :
    let y := recvBytes lib tcl x bs
    y.1.conn.http = x.conn.http ∧ Received tcl (got ++ bs) y.1 y.2 := by
  have hroom := h.room
  have hspare : (spare x.conn.http x.job.outPtr).len = 0 := by
    rw [hhttp]
    rfl
  have hlen : (got ++ bs).length = got.length + bs.length := List.length_append
  have hle : (got ++ bs).length ≤ x.conn.buf.length := by
    have hle := hbs.le
    have hfits := h.le
    rw [h.iov, total_cons, total_cons, total_nil, Iovec.len_mk', hspare] at hle
    omega
  have hbase : x.conn.iov0.base = some (x.conn.buf.string.add got.length) := by
    rw [h.iov0]
    rfl
  -- what has come in stands in the buffer, with a NUL behind it
  obtain ⟨hmem, hread⟩ := h.stored_read bs hle
  have hstr := cstr_received bs h.read (n := x.conn.buf.spaceAvl) (by
    have := x.conn.buf.fits
    omega)
  rw [← hmem] at hstr
  have hleft : (x.stored bs).conn.len = x.conn.buf.length - got.length := by
    show x.conn.len = _
    rw [h.left, hspare]
    exact int32_of_range (by omega) (by omega)
  cases hfound : strstr blankLine (cstr (got ++ bs)) with
  | none =>
      have heq := recvHttp_none lib tcl hstr hfound
      rw [hleft] at heq
      by_cases hfull : (x.conn.buf.length : Int) - got.length = bs.length
      · rw [if_pos hfull] at heq
        rw [recvBytes_http_error lib h.body hhttp hbase heq]
        exact ⟨rfl, .httpSize⟩
      · rw [if_neg hfull] at heq
        rw [recvBytes_http lib h.body hhttp hbase heq]
        have hhead : headerEnd x.conn.http (got ++ bs) = none := by
          rw [headerEnd, hhttp, if_pos rfl, hfound]
          rfl
        have hlt : (got ++ bs).length < x.conn.buf.length := by omega
        have hkeep := hread
        rw [← Mem.read_write_before _ ((x.conn.buf.string.add got.length).add bs.length) _ [0] _
          (Or.inr (by simp))] at hkeep
        exact ⟨rfl, (h.more hlt hhead hkeep).received hlt⟩
  | some i =>
      obtain ⟨hend, htake⟩ := strstr_blankLine hfound
      cases hparse : rpcParseHttp tcl ((cstr (got ++ bs)).take i) with
      | none =>
          obtain ⟨y, heq, hyhttp⟩ := recvHttp_invalid lib tcl hstr hfound hparse
          rw [recvBytes_http_error lib h.body hhttp hbase heq]
          exact ⟨hyhttp, .httpParse⟩
      | some parse =>
          obtain ⟨y, p, heq, hyhttp, hbody, hylen, hiov⟩ :=
            recvHttp_valid lib tcl hstr hfound hparse
          obtain ⟨hlo, hhi⟩ := rpcParseHttp_int htcl hparse
          have hiov1 : (x.stored bs).conn.iov1 = .null := by
            show x.conn.iov1 = _
            rw [Conn.iov1, h.iov, hhttp]
            rfl
          have htotal := congrArg total hiov
          rw [hiov1, total_cons, total_cons, total_nil, Iovec.len_mk', Iovec.len_null] at htotal
          rw [recvBytes_http lib h.body hhttp hbase heq]
          have hresp : responseLength tcl true (got ++ bs) =
              some ((i + blankLine.length : Nat) + parse.length) := by
            have hhead : headerEnd true (got ++ bs) = some (i + blankLine.length) := by
              rw [headerEnd, if_pos rfl, hfound]
              rfl
            have hdata : dataLength tcl true ((got ++ bs).take (i + blankLine.length)) =
                some parse.length := by
              rw [dataLength, if_pos rfl, List.length_take, Nat.min_eq_left hend,
                Nat.add_sub_cancel, List.take_take, Nat.min_eq_left (Nat.le_add_right _ _),
                ← htake, hparse]
              rfl
            rw [responseLength, hhead, Option.bind_eq_bind, Option.bind_some, hdata]
            rfl
          have hblank : blankLine.length = 4 := rfl
          have hcount : (x.conn.buf.string.add got.length).off + bs.length -
              ((x.stored bs).conn.buf.string.add (i + 4)).off =
                (got ++ bs).length - (i + blankLine.length) := by
            show 0 + got.length + bs.length - (0 + (i + 4)) = _
            omega
          rw [hcount]
          have hin : Inside tcl ((i + blankLine.length : Nat) + parse.length) (got ++ bs)
              (y.moved ((got ++ bs).length - (i + blankLine.length))) := by
            refine ⟨hbody, ?_, by omega, ?_, ?_⟩
            · show responseLength tcl y.conn.http _ = _
              rw [hyhttp, show (x.stored bs).conn.http = true from hhttp, hresp]
            · show int32 (y.conn.len - ((got ++ bs).length - (i + blankLine.length) : Nat)) = _
              rw [hylen]
              congr 1
              omega
            · left
              show total (updateIov y.conn.iov _) = _
              rw [total_updateIov, htotal]
              omega
          exact ⟨hyhttp, hin.received⟩

/-! ## Any bytes -/

/-- A connection whose vectors have just been set. -/
theorem coming_nil {conn : Conn} {job : Job} {arena : Arena} {buf : DString} {left : Int}
    {outPtr : Option DString} (hjob : job.outPtr = outPtr) (hbuf : buf.Below arena.next)
    (hout : ∀ out, outPtr = some out → out.Below arena.next ∧ out.block ≠ buf.block)
    (hsmall : (spare conn.http outPtr).len < 2147483648) (hroom : buf.length < 2147483648)
    (hsize : conn.http = false → buf.length = 8)
    (hleft : left = int32 (buf.length + (spare conn.http outPtr).len)) :
    Coming [] ⟨{ conn with
      buf := buf
      iov := [.mk' buf.string buf.length, spare conn.http outPtr]
      len := left
      body := none }, job, arena⟩ := by
  subst hjob
  have hhead : headerEnd conn.http [] = none := by cases conn.http <;> rfl
  exact ⟨rfl, hbuf, hout, hsmall, hroom, hsize, Nat.zero_le _, hhead, rfl, rfl, by simp [hleft]⟩

/-- **Setting the vectors for a response leaves all of it to come.** -/
theorem rpcSetRecv_coming (cfg : Config) (lib : DStringLib) (hx : Ready x) :
    let y := rpcSetRecv cfg lib x
    Coming [] y ∧ y.conn.http = x.conn.http ∧ y.job.error = x.job.error := by
  obtain ⟨buf, outPtr, arena, left, heq, hleft, hlen, hbuf, hout, hsmall, -⟩ :=
    rpcSetRecv_spec cfg lib hx
  have hmax := cfg.httpmaxhdr_ok
  have hroom : buf.length < 2147483648 := by
    rw [hlen]
    split_ifs <;> omega
  have hsize : x.conn.http = false → buf.length = 8 := by
    intro hhttp
    rw [hlen, hhttp]
    rfl
  rw [heq]
  exact ⟨coming_nil rfl hbuf hout hsmall hroom hsize hleft, rfl, rfl⟩

/-- **One `recvmsg`.** `RpcRecv` returns `RPC_OK` for a whole response only. -/
theorem received_step (h : Coming got x ∨ ∃ len, Inside tcl len got x) (lib : DStringLib)
    (htcl : tcl.IsInt) (hne : bs ≠ []) (hbs : CanRecv x bs) :
    let y := rpcRecv lib tcl x (.ok bs)
    y.1.conn.http = x.conn.http ∧ Received tcl (got ++ bs) y.1 y.2 := by
  rw [rpcRecv_ok hne]
  rcases h with h | ⟨len, h⟩
  · cases hhttp : x.conn.http with
    | false => exact hhttp ▸ h.step_binary hhttp lib hbs
    | true => exact hhttp ▸ h.step_http hhttp lib htcl hbs
  · exact h.step lib hbs

end Nsdci.Rpc
