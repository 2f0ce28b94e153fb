import Nsdci.Rpc.Http

/-!
# Receiving an RPC response

A response is a header, binary or HTTP, and data. `recvRun` plays `recvmsg` calls that split its
bytes against a connection after `rpcSetRecv`. Before the header is complete the bytes go to the
connection's buffer and, over the binary transport, on into what the caller's string has room
for (`InHeader`); from then on the vectors name exactly the missing data (`InBody`).
-/

namespace Nsdci.Rpc

open Lib

/-- A response in the binary form: result code and length in a header of 8 bytes. The code is an
`int`, and a string can hold the data. -/
structure BinaryResponse where
  code : Int
  data : Bytes
  code_ok : -2147483648 ≤ code ∧ code < 2147483648
  data_ok : data.length + 1 < 2147483648

/-- A response, over one of the two transports. -/
inductive Response where
  | binary (r : BinaryResponse)
  | http (r : HttpResponse)

namespace Response

/-- The transport is HTTP. -/
def isHttp : Response → Bool
  | binary _ => false
  | http _ => true

/-- The server's result code. -/
def code : Response → Int
  | binary r => r.code
  | http r => r.code

/-- The response data. -/
def data : Response → Bytes
  | binary r => r.data
  | http r => r.data

/-- The bytes before the data. -/
def head : Response → Bytes
  | binary r => be32 r.code ++ be32 r.data.length
  | http r => r.header.bytes

/-- All bytes of the response. -/
def bytes (r : Response) : Bytes := r.head ++ r.data

/-- The header is within the configured maximum. -/
def Fits (cfg : Config) : Response → Prop
  | binary _ => True
  | http r => (r.header.bytes.length : Int) ≤ cfg.httpmaxhdr

theorem data_ok : ∀ r : Response, r.data.length + 1 < 2147483648
  | binary r => r.data_ok
  | http r => r.data_ok

end Response

/-- The two strings of a request are allocated, and they are two. The capacity of the caller's
is an `int`. -/
structure Ready (x : Xfer) : Prop where
  buf : x.conn.buf.Below x.arena.next
  out : ∀ out, x.job.outPtr = some out → out.Below x.arena.next ∧ out.block ≠ x.conn.buf.block
  avl : ∀ out, x.job.outPtr = some out → out.spaceAvl < 2147483648

/-- A response on its way: the bytes not yet received, and what `RpcRecv` returned last. -/
structure RecvRun where
  x : Xfer
  rest : Bytes
  last : Error

variable (cfg : Config) (lib : DStringLib) (tcl : TclGetInt)

/-- The request is sent: `RpcRecv` will be called for a response. -/
def waiting (x : Xfer) (r : Response) : RecvRun := ⟨rpcSetRecv cfg lib x, r.bytes, .etimeout⟩

/-- A `recvmsg` that stores `k` bytes. -/
def recvStep (run : RecvRun) (k : Nat) : RecvRun :=
  let out := rpcRecv lib tcl run.x (.ok (run.rest.take k))
  ⟨out.1, run.rest.drop k, out.2⟩

/-- A sequence of them. -/
def recvRun (run : RecvRun) (ks : List Nat) : RecvRun := ks.foldl (recvStep lib tcl) run

/-- The results successive calls of `recvmsg` can have: at least one byte, at most what the
vectors offer and what is there, and never more than an `int` holds. -/
def RecvResults : RecvRun → List Nat → Prop
  | _, [] => True
  | run, k :: ks =>
      1 ≤ k ∧ k ≤ run.rest.length ∧ k ≤ total run.x.conn.iov ∧ k < 2147483648 ∧
        RecvResults (recvStep lib tcl run k) ks

/-- `RecvResults` can be checked call by call. -/
instance decidableRecvResults :
    ∀ (run : RecvRun) (ks : List Nat), Decidable (RecvResults lib tcl run ks)
  | _, [] => inferInstanceAs (Decidable True)
  | run, k :: ks =>
      have := decidableRecvResults (recvStep lib tcl run k) ks
      inferInstanceAs (Decidable (_ ∧ _ ∧ _ ∧ _ ∧ _))

/-! ## The data -/

/-- Past the header, after `t` bytes of the data. -/
structure InBody (r : Response) (t : Nat) (x : Xfer) : Prop where
  body : x.conn.body ≠ none
  le : t ≤ r.data.length
  left : x.conn.len = int32 (r.data.length - t)
  room : total x.conn.iov = r.data.length - t
  result : x.job.result = r.code
  out : ∀ out, x.job.outPtr = some out → out.length = r.data.length ∧
    x.arena.mem.read out.string t = r.data.take t ∧
    Fills x.conn.iov (out.string.add t) (r.data.length - t)

variable {cfg lib tcl} {r : Response} {x : Xfer} {s k t : Nat}

/-- `rpcRecv` with bytes is `recvBytes`. -/
theorem rpcRecv_ok {bs : Bytes} (h : bs ≠ []) :
    rpcRecv lib tcl x (.ok bs) = recvBytes lib tcl x bs := by
  simp [rpcRecv, h]

/-- What `RpcRecv` returns when `t` bytes of the data have come in. -/
def inBodyResult (r : Response) (t : Nat) : Error :=
  if t = r.data.length then .ok else .erecvwait

/-- The count left is 0 at the end of the data only. -/
theorem inBodyResult_eq (ht : t ≤ r.data.length) {len : Int}
    (hlen : len = int32 (r.data.length - t)) :
    (if len = 0 then Error.ok else .erecvwait) = inBodyResult r t := by
  have hdata := r.data_ok
  have hint : int32 (r.data.length - t) = r.data.length - t :=
    int32_of_range (by omega) (by omega)
  unfold inBodyResult
  rw [hlen, hint]
  congr 1
  exact propext ⟨fun h => by omega, fun h => by omega⟩

/-- **More data.** -/
theorem InBody.step (h : InBody r t x) (lib : DStringLib) (tcl : TclGetInt)
    (hk : 1 ≤ k) (hle : t + k ≤ r.data.length) :
    let y := rpcRecv lib tcl x (.ok ((r.data.drop t).take k))
    InBody r (t + k) y.1 ∧ y.2 = inBodyResult r (t + k) ∧
      y.1.job.outPtr.isSome = x.job.outPtr.isSome := by
  have hlen : ((r.data.drop t).take k).length = k := by simp; omega
  have hne : (r.data.drop t).take k ≠ [] := by
    intro hnil
    rw [hnil] at hlen
    simp at hlen
    omega
  obtain ⟨body, hbody⟩ := Option.ne_none_iff_exists'.mp h.body
  have hleft : int32 (x.conn.len - k) = int32 (r.data.length - (t + k : Nat)) := by
    rw [h.left, int32_int32_sub]
    congr 1
    push_cast
    omega
  rw [rpcRecv_ok hne]
  simp only [recvBytes, hbody, hlen]
  refine ⟨⟨by simp, hle, hleft, ?_, h.result, fun out hout => ?_⟩,
    inBodyResult_eq hle hleft, trivial⟩
  · rw [total_updateIov, h.room]
    omega
  · obtain ⟨hlength, hread, hfill⟩ := h.out out hout
    refine ⟨hlength, ?_, ?_⟩
    · rw [hfill.2 _ _ (by omega)]
      have happ := Mem.read_write_append x.arena.mem out.string t ((r.data.drop t).take k)
      rw [hlen, hread] at happ
      rw [happ, List.take_add]
    · have := hfill.updateIov (k := k) (by omega)
      simpa [Ptr.add, Nat.add_assoc, Nat.sub_sub] using this

/-! ## The header -/

/-- The vector behind the one for the header: over the binary transport, the caller's string. -/
def spare (http : Bool) (outPtr : Option DString) : Iovec Nat :=
  match (if http then none else outPtr) with
  | none => .null
  | some out => .mk' out.string out.length

/-- The buffer has room for the header: the header of 8 bytes, or one of HTTP. -/
def HeaderRoom (r : Response) (buf : DString) : Prop :=
  if r.isHttp then r.head.length ≤ buf.length ∧ buf.length < 2147483648 else buf.length = 8

/-- Before the header is complete, after `s` bytes of it. -/
structure InHeader (r : Response) (s : Nat) (x : Xfer) : Prop where
  body : x.conn.body = none
  http : x.conn.http = r.isHttp
  buf : x.conn.buf.Below x.arena.next
  out : ∀ out, x.job.outPtr = some out → out.Below x.arena.next ∧ out.block ≠ x.conn.buf.block
  small : (spare x.conn.http x.job.outPtr).len < 2147483648
  lt : s < r.head.length
  size : HeaderRoom r x.conn.buf
  got : x.arena.mem.read x.conn.buf.string s = r.head.take s
  iov : x.conn.iov = [.mk' (x.conn.buf.string.add s) (x.conn.buf.length - s),
    spare x.conn.http x.job.outPtr]
  left : x.conn.len = int32 (x.conn.buf.length + (spare x.conn.http x.job.outPtr).len - s)

/-- A connection whose vectors have just been set. -/
theorem inHeader_zero {conn : Conn} {job : Job} {arena : Arena} {buf : DString} {left : Int}
    {outPtr : Option DString} (hjob : job.outPtr = outPtr) (hhttp : conn.http = r.isHttp)
    (hbuf : buf.Below arena.next)
    (hout : ∀ out, outPtr = some out → out.Below arena.next ∧ out.block ≠ buf.block)
    (hsmall : (spare conn.http outPtr).len < 2147483648) (hlt : 0 < r.head.length)
    (hsize : HeaderRoom r buf)
    (hleft : left = int32 (buf.length + (spare conn.http outPtr).len)) :
    InHeader r 0 ⟨{ conn with
      buf := buf
      iov := [.mk' buf.string buf.length, spare conn.http outPtr]
      len := left
      body := none }, job, arena⟩ := by
  subst hjob
  exact ⟨rfl, hhttp, hbuf, hout, hsmall, hlt, hsize, rfl, rfl, by simp [hleft]⟩

theorem Response.head_pos (r : Response) : 0 < r.head.length := by
  cases r with
  | binary r => simp [Response.head]
  | http r => simp [Response.head, Header.bytes, blankLine]

/-- What `RpcSetRecv` does: the buffer has the size of a header, and behind it, over the binary
transport, comes what the caller's string has room for. -/
theorem rpcSetRecv_spec (cfg : Config) (lib : DStringLib) (hx : Ready x) :
    ∃ buf outPtr arena left, rpcSetRecv cfg lib x = ⟨{ x.conn with
        buf := buf
        iov := [.mk' buf.string buf.length, spare x.conn.http outPtr]
        len := left
        body := none }, { x.job with outPtr := outPtr }, arena⟩ ∧
      left = int32 (buf.length + (spare x.conn.http outPtr).len) ∧
      buf.length = (if x.conn.http then cfg.httpmaxhdr else 8).toNat ∧ buf.Below arena.next ∧
      (∀ out, outPtr = some out → out.Below arena.next ∧ out.block ≠ buf.block) ∧
      (spare x.conn.http outPtr).len < 2147483648 ∧ outPtr.isSome = x.job.outPtr.isSome := by
  have hbuf := Arena.setLength_spec lib x.arena x.conn.buf
    (if x.conn.http then cfg.httpmaxhdr else 8) hx.buf
  generalize hset : x.arena.setLength lib x.conn.buf
    (if x.conn.http then cfg.httpmaxhdr else 8) = set at hbuf
  obtain ⟨buf, arena⟩ := set
  dsimp only at hbuf
  obtain ⟨hlen, hblock, hbelow, hnext, -, -⟩ := hbuf
  have hdistinct : ∀ out, x.job.outPtr = some out →
      out.Below arena.next ∧ out.block ≠ buf.block := by
    intro out hout
    obtain ⟨hlow, hne⟩ := hx.out out hout
    simp only [DString.Below] at hlow hbelow ⊢
    rcases hblock with h | h <;> omega
  cases hout : (if x.conn.http then none else x.job.outPtr) with
  | none =>
      have hspare : spare x.conn.http x.job.outPtr = .null := by rw [spare, hout]
      refine ⟨buf, x.job.outPtr, arena, _, ?_, rfl, hlen, hbelow, hdistinct, ?_, rfl⟩
      · unfold rpcSetRecv
        rw [hset, hout, hspare, Iovec.len_null, Int.natCast_zero, Int.add_zero]
      · rw [hspare, Iovec.len_null]
        exact Nat.zero_lt_succ _
  | some out =>
      obtain ⟨hbin, hsome⟩ : x.conn.http = false ∧ x.job.outPtr = some out := by
        cases hh : x.conn.http <;> simp_all
      obtain ⟨hlow, hne⟩ := hdistinct out hsome
      have hspec := Arena.setLength_spec lib arena out (out.spaceAvl - 1) hlow
      generalize hset' : arena.setLength lib out (out.spaceAvl - 1) = set' at hspec
      obtain ⟨out', arena'⟩ := set'
      dsimp only at hspec
      obtain ⟨hlen', hblock', hbelow', hnext', -, -⟩ := hspec
      have hspare : spare x.conn.http (some out') = .mk' out'.string out'.length := by
        rw [spare, hbin]
        rfl
      refine ⟨buf, some out', arena', _, ?_, rfl, hlen, Nat.lt_of_lt_of_le hbelow hnext', ?_, ?_,
        ?_⟩
      · unfold rpcSetRecv
        rw [hset, hout]
        dsimp only
        rw [hset', hspare, Iovec.len_mk']
      · intro o ho
        obtain rfl : out' = o := by simpa using ho
        refine ⟨hbelow', ?_⟩
        simp only [DString.Below] at hbelow
        rcases hblock' with h | h <;> omega
      · have := hx.avl out hsome
        rw [hspare, Iovec.len_mk', hlen']
        omega
      · rw [hsome, Option.isSome_some, Option.isSome_some]

/-- **Setting the vectors for a response leaves everything to be received.** -/
theorem rpcSetRecv_inHeader (lib : DStringLib) (hx : Ready x) (hhttp : x.conn.http = r.isHttp)
    (hfits : r.Fits cfg) : InHeader r 0 (rpcSetRecv cfg lib x) ∧
      (rpcSetRecv cfg lib x).job.outPtr.isSome = x.job.outPtr.isSome := by
  obtain ⟨buf, outPtr, arena, left, heq, hleft, hlen, hbelow, hout, hsmall, hsome⟩ :=
    rpcSetRecv_spec cfg lib hx
  have hsize : HeaderRoom r buf := by
    rw [hhttp] at hlen
    cases r with
    | binary r => simpa [HeaderRoom, Response.isHttp] using hlen
    | http r =>
        have hmax := cfg.httpmaxhdr_ok
        have hle : (r.header.bytes.length : Int) ≤ cfg.httpmaxhdr := hfits
        simp only [HeaderRoom, Response.isHttp, Response.head, if_true] at hlen ⊢
        omega
  rw [heq]
  exact ⟨inHeader_zero rfl hhttp hbelow hout hsmall r.head_pos hsize hleft, hsome⟩

/-- The buffer holds the header. -/
theorem InHeader.room (h : InHeader r s x) :
    r.head.length ≤ x.conn.buf.length ∧ x.conn.buf.length < 2147483648 := by
  have hsize := h.size
  unfold HeaderRoom at hsize
  cases r with
  | binary r =>
      have : x.conn.buf.length = 8 := by simpa [Response.isHttp] using hsize
      simp [Response.head, this]
  | http r => simpa [Response.isHttp] using hsize

/-- What the next bytes of the header are. -/
theorem Response.take_drop_bytes (r : Response) (hk : s + k ≤ r.head.length) :
    (r.bytes.drop s).take k = (r.head.drop s).take k := by
  unfold Response.bytes
  rw [List.drop_append_of_le_length (by omega),
    List.take_append_of_le_length (by simp; omega)]

/-- More of the header, when it is not complete yet. -/
theorem InHeader.more (h : InHeader r s x) (hk : s + k < r.head.length) {mem : Mem Nat}
    {left : Int} (hmem : mem.read x.conn.buf.string (s + k) = r.head.take (s + k))
    (hleft : left = int32 (x.conn.len - k)) :
    InHeader r (s + k) ⟨{ x.conn with iov := updateIov x.conn.iov k, len := left }, x.job,
      { x.arena with mem := mem }⟩ ∧ left ≠ 0 := by
  obtain ⟨hroom, hint⟩ := h.room
  have hsmall := h.small
  have hvalue : left = int32 (x.conn.buf.length + (spare x.conn.http x.job.outPtr).len -
      (s + k : Nat)) := by
    rw [hleft, h.left, int32_int32_sub]
    congr 1
    push_cast
    omega
  refine ⟨⟨h.body, h.http, h.buf, h.out, h.small, hk, h.size, hmem, ?_, hvalue⟩, ?_⟩
  · have hlt : k < x.conn.buf.length - s := by omega
    simp only [h.iov, updateIov_lt _ _ hlt, Ptr.add, Nat.add_assoc, Nat.sub_sub]
  · rw [hvalue, Ne, int32_eq_zero_iff]
    omega

/-- The string in the buffer after a `recvmsg` and the NUL put behind it. -/
theorem cstr_received {m : Mem Nat} {p : Ptr Nat} {s n : Nat} {as : Bytes} (bs : Bytes)
    (h : m.read p s = as) (hn : s + bs.length < n) :
    cstr (((m.write (p.add s) bs).write ((p.add s).add bs.length) [0]).read p n) =
      cstr (as ++ bs) := by
  obtain ⟨d, rfl⟩ : ∃ d, n = s + bs.length + (1 + d) := ⟨n - (s + bs.length) - 1, by omega⟩
  have hadd : (p.add s).add bs.length = p.add (s + bs.length) := by
    simp [Ptr.add, Nat.add_assoc]
  have hzero := Mem.read_write_same (m.write (p.add s) bs) (p.add (s + bs.length)) [0]
  rw [hadd, Mem.read_append, Mem.read_append _ _ 1 d,
    Mem.read_write_before _ _ _ _ _ (Or.inr (by simp)), Mem.read_write_append, h]
  simp only [List.length_singleton] at hzero
  rw [hzero, List.singleton_append, cstr_append_zero]

/-- `iov[0]` while the header is coming in. -/
theorem InHeader.iov0 (h : InHeader r s x) :
    x.conn.iov0 = .mk' (x.conn.buf.string.add s) (x.conn.buf.length - s) := by
  rw [Conn.iov0, h.iov]
  rfl

/-- Bytes that do not fill the buffer go there only. -/
theorem InHeader.store (h : InHeader r s x) (m : Mem Nat) (bs : Bytes)
    (hbs : s + bs.length ≤ x.conn.buf.length) :
    scatter m x.conn.iov bs = m.write (x.conn.buf.string.add s) bs := by
  rw [h.iov]
  exact scatter_le _ _ _ (by omega)

/-- What is in the buffer after more bytes of the header. -/
theorem InHeader.read (h : InHeader r s x) (bs : Bytes) :
    (x.arena.mem.write (x.conn.buf.string.add s) bs).read x.conn.buf.string (s + bs.length) =
      r.head.take s ++ bs := by
  rw [Mem.read_write_append, h.got]

/-- **Part of the header.** -/
theorem InHeader.step_more (h : InHeader r s x) (lib : DStringLib) (tcl : TclGetInt)
    (hk : 1 ≤ k) (hlt : s + k < r.head.length) :
    let y := rpcRecv lib tcl x (.ok ((r.bytes.drop s).take k))
    InHeader r (s + k) y.1 ∧ y.2 = .erecvwait ∧
      y.1.job.outPtr.isSome = x.job.outPtr.isSome := by
  obtain ⟨hroom, hint⟩ := h.room
  rw [r.take_drop_bytes (by omega)]
  generalize hbs : (r.head.drop s).take k = bs
  have hlen : bs.length = k := by
    rw [← hbs]
    simp
    omega
  have hgot : r.head.take s ++ bs = r.head.take (s + k) := by rw [← hbs, List.take_add]
  have hread := h.read bs
  rw [hlen, hgot] at hread
  have hstore := h.store x.arena.mem bs (by omega)
  have hbody := h.body
  have hhttp := h.http
  have hiov0 := h.iov0
  have hne : bs ≠ [] := by
    rintro rfl
    simp at hlen
    omega
  rw [rpcRecv_ok hne]
  cases hr : r with
  | binary b =>
      have hshort : ¬ x.conn.iov0.len ≤ k := by
        have hsize := h.size
        simp only [HeaderRoom, hr, Response.isHttp] at hsize
        simp only [hr, Response.head, List.length_append, length_be32] at hlt
        simp only [hiov0, Iovec.len_mk']
        simp at hsize
        omega
      obtain ⟨hin, hleft⟩ := h.more hlt hread rfl
      have heq : recvBytes lib tcl x bs = (⟨{ x.conn with
          iov := updateIov x.conn.iov k, len := int32 (x.conn.len - k) }, x.job,
          { x.arena with mem := x.arena.mem.write (x.conn.buf.string.add s) bs }⟩, .erecvwait) := by
        unfold recvBytes
        rw [hr] at hhttp
        simp [hbody, hhttp, Response.isHttp, hstore, hlen, hshort, hleft]
      rw [heq, ← hr]
      exact ⟨hin, rfl, rfl⟩
  | http b =>
      have hlt' : s + k < b.header.bytes.length := by simpa [hr, Response.head] using hlt
      have hstr := cstr_received bs h.got (n := x.conn.buf.spaceAvl) (by
        have := x.conn.buf.fits
        omega)
      have hfree : cstr (r.head.take (s + k)) = r.head.take (s + k) := by
        have hnul : NulFree (r.head.take (s + k)) := fun hmem =>
          b.header.nulFree_bytes (by simpa [hr, Response.head] using List.mem_of_mem_take hmem)
        simpa [cstr] using cstr_append hnul []
      rw [hgot, hfree, hlen] at hstr
      have hnone : strstr blankLine (r.head.take (s + k)) = none := by
        simpa [hr, Response.head] using b.header.strstr_take_bytes hlt'
      have hcount : x.conn.len ≠ k := by
        rw [hr] at hhttp
        have hleft := h.left
        simp only [spare, hhttp, Response.isHttp] at hleft
        simp only [if_true, Iovec.len_null] at hleft
        rw [hleft, int32_of_range (by omega) (by omega)]
        omega
      have hkeep := hread
      rw [← Mem.read_write_before _ ((x.conn.buf.string.add s).add k) _ [0] _
        (Or.inr (by simp))] at hkeep
      obtain ⟨hin, hleft⟩ := h.more hlt hkeep rfl
      have heq : recvBytes lib tcl x bs = (⟨{ x.conn with
          iov := updateIov x.conn.iov k, len := int32 (x.conn.len - k) }, x.job,
          { x.arena with
            mem := (x.arena.mem.write (x.conn.buf.string.add s) bs).write
              ((x.conn.buf.string.add s).add k) [0] }⟩, .erecvwait) := by
        rw [hr] at hhttp
        have hbase : x.conn.iov0.base = some (x.conn.buf.string.add s) := by rw [hiov0]; rfl
        unfold recvBytes recvHttp
        simp [hbody, hhttp, Response.isHttp, hstore, hlen, hbase, hstr, hnone, hcount, hleft]
      rw [heq, ← hr]
      exact ⟨hin, rfl, rfl⟩

/-- **What `RpcRecv` does with a complete binary header**: result and length are taken from it,
and the string for the data keeps what is already in it. -/
theorem recvHeader_spec (lib : DStringLib) {n : Nat} (b : BinaryResponse)
    (hhdr : x.arena.mem.read x.conn.buf.string 8 = be32 b.code ++ be32 b.data.length)
    (htarget : x.target.Below x.arena.next) :
    ∃ out arena, recvHeader lib x n = Xfer.setTarget ⟨{ x.conn with
        iov := [x.conn.iov0, .mk' out.string b.data.length]
        body := some out.string
        len := int32 (x.conn.iov0.len + b.data.length) },
        { x.job with result := b.code }, arena⟩ out ∧
      out.length = b.data.length ∧
      ∀ k ≤ x.target.length, (k : Int) ≤ n - x.conn.iov0.len → k ≤ b.data.length →
        arena.mem.read out.string k = x.arena.mem.read x.target.string k := by
  have hdata := b.data_ok
  have hcode : int32 (ofBe32 (be32 b.code)) = b.code := by
    rw [int32_ofBe32_be32]
    exact int32_of_range b.code_ok.1 b.code_ok.2
  have hlen : int32 (ofBe32 (be32 b.data.length)) = b.data.length := by
    rw [int32_ofBe32_be32]
    exact int32_of_range (by omega) (by omega)
  have hsize : sizeT (b.data.length : Int) = b.data.length := by
    unfold sizeT
    omega
  have hfirst := Arena.setLength_spec lib x.arena x.target (n - x.conn.iov0.len) htarget
  generalize hset : x.arena.setLength lib x.target (n - x.conn.iov0.len) = set at hfirst
  obtain ⟨out, arena⟩ := set
  obtain ⟨hlen₁, -, hbelow₁, -, hread₁, -⟩ := hfirst
  have hsecond := Arena.setLength_spec lib arena out b.data.length hbelow₁
  generalize hset' : arena.setLength lib out b.data.length = set' at hsecond
  obtain ⟨out', arena'⟩ := set'
  obtain ⟨hlen₂, -, -, -, hread₂, -⟩ := hsecond
  refine ⟨out', arena', ?_, by simpa using hlen₂, fun k hk hkn hkd => ?_⟩
  · unfold recvHeader
    rw [hhdr]
    simp only [List.drop_left' (length_be32 _), List.take_left' (length_be32 _), hcode, hlen,
      hset, hset', hsize]
    rfl
  · dsimp only at hlen₁ hread₁ hread₂
    rw [hread₂ k (by omega) (by omega), hread₁ k hk (by omega)]

/-- What the bytes are that complete the header. -/
theorem Response.take_drop_bytes_done (r : Response) (hs : s ≤ r.head.length) {t : Nat}
    (hk : s + k = r.head.length + t) :
    (r.bytes.drop s).take k = r.head.drop s ++ r.data.take t := by
  have hlen : (r.head.drop s).length = r.head.length - s := by simp
  have hsub : k - (r.head.drop s).length = t := by omega
  unfold Response.bytes
  rw [List.drop_append_of_le_length hs, List.take_append, hsub,
    List.take_of_length_le (by omega)]

/-- The connection after `setTarget`: at most its buffer is another. -/
theorem Xfer.setTarget_conn (x : Xfer) (ds : DString) :
    (x.setTarget ds).conn.body = x.conn.body ∧ (x.setTarget ds).conn.len = x.conn.len ∧
      (x.setTarget ds).conn.iov = x.conn.iov := by
  unfold Xfer.setTarget
  cases x.job.outPtr <;> exact ⟨rfl, rfl, rfl⟩

/-- The job after `setTarget`: its string, if it has one, is the new one. -/
theorem Xfer.setTarget_job (x : Xfer) (ds : DString) :
    (x.setTarget ds).job.result = x.job.result ∧
      (x.setTarget ds).job.outPtr = x.job.outPtr.map (fun _ => ds) ∧
      (x.setTarget ds).arena = x.arena := by
  unfold Xfer.setTarget
  cases hout : x.job.outPtr <;> simp [hout]

/-- The state in which the data begins to come in, with `t` bytes there already. -/
theorem inBody_setTarget {conn : Conn} {job : Job} {arena : Arena} {out : DString}
    {p : Ptr Nat} (ht : t ≤ r.data.length) (hbody : conn.body = some p)
    (hleft : conn.len = int32 (r.data.length - t)) (hresult : job.result = r.code)
    (hlength : out.length = r.data.length)
    (hgot : job.outPtr ≠ none → arena.mem.read out.string t = r.data.take t)
    (hfills : Fills conn.iov (out.string.add t) (r.data.length - t)) :
    InBody r t (Xfer.setTarget ⟨conn, job, arena⟩ out) := by
  obtain ⟨hbody', hlen', hiov'⟩ := Xfer.setTarget_conn ⟨conn, job, arena⟩ out
  obtain ⟨hresult', hout', harena'⟩ := Xfer.setTarget_job ⟨conn, job, arena⟩ out
  refine ⟨?_, ht, hlen'.trans hleft, ?_, hresult'.trans hresult, fun o ho => ?_⟩
  · rw [hbody', hbody]
    simp
  · rw [hiov']
    exact hfills.1
  · rw [hout'] at ho
    obtain ⟨o', ho', rfl⟩ := Option.map_eq_some_iff.mp ho
    rw [harena', hiov']
    exact ⟨hlength, hgot fun hnone => by simp [hnone] at ho', hfills⟩

/-- **The rest of a binary header, and data behind it.** -/
theorem InHeader.step_binary (b : BinaryResponse) (h : InHeader (.binary b) s x) {t : Nat}
    (hk : s + k = 8 + t) (ht : t ≤ b.data.length) (htotal : k ≤ total x.conn.iov) :
    let y := rpcRecv lib tcl x (.ok (((Response.binary b).bytes.drop s).take k))
    InBody (.binary b) t y.1 ∧ y.2 = inBodyResult (.binary b) t ∧
      y.1.job.outPtr.isSome = x.job.outPtr.isSome := by
  have hhead : (Response.binary b).head.length = 8 := by simp [Response.head]
  have hlt : s < 8 := hhead ▸ h.lt
  have hsize : x.conn.buf.length = 8 := by
    simpa [HeaderRoom, Response.isHttp] using h.size
  have hhttp : x.conn.http = false := h.http
  have hiov0 := h.iov0
  have hbase : x.conn.iov0.len = 8 - s := by rw [hiov0, Iovec.len_mk', hsize]
  rw [Response.take_drop_bytes_done _ (by omega) (by rw [hhead]; exact hk),
    show (Response.binary b).data = b.data from rfl]
  generalize has : (Response.binary b).head.drop s = as
  have hlen : as.length = 8 - s := by rw [← has, List.length_drop, hhead]
  have hlenb : (as ++ b.data.take t).length = k := by
    rw [List.length_append, hlen, List.length_take]
    omega
  have hhdr : (Response.binary b).head.take s ++ as = be32 b.code ++ be32 b.data.length := by
    rw [← has, List.take_append_drop]
    rfl
  -- the bytes of the header go to the buffer, those of the data to the caller's string
  have hbuf := h.read as
  rw [hlen, show s + (8 - s) = 8 by omega, hhdr] at hbuf
  have hstore : scatter x.arena.mem x.conn.iov (as ++ b.data.take t) =
      scatter (x.arena.mem.write (x.conn.buf.string.add s) as) [spare false x.job.outPtr]
        (b.data.take t) := by
    rw [scatter_append, h.store _ _ (by omega), h.iov, hhttp, hsize, hlen,
      updateIov_ge _ _ (by omega) (by omega), Nat.sub_self, updateIov_zero]
    rfl
  have hspace : t ≤ (spare false x.job.outPtr).len := by
    rw [h.iov, hhttp, total_cons, total_cons, total_nil, Iovec.len_mk', hsize] at htotal
    omega
  generalize hmem : scatter (x.arena.mem.write (x.conn.buf.string.add s) as)
    [spare false x.job.outPtr] (b.data.take t) = mem at hstore
  have hhdr' : mem.read x.conn.buf.string 8 = be32 b.code ++ be32 b.data.length := by
    rw [← hbuf, ← hmem]
    cases hout : x.job.outPtr with
    | none => rfl
    | some out =>
        have hapart := (h.out out hout).2
        exact Mem.read_write_before _ _ _ _ _ (Or.inl (Ne.symm hapart))
  have hdata : ∀ out, x.job.outPtr = some out →
      t ≤ out.length ∧ mem.read out.string t = b.data.take t := by
    intro out hout
    have hroom : t ≤ out.length := by simpa [hout, spare] using hspace
    refine ⟨hroom, ?_⟩
    have hle : (b.data.take t).length ≤ out.length := by simp; omega
    have hwrite := scatter_le (x.arena.mem.write (x.conn.buf.string.add s) as) out.string [] hle
    have hback := Mem.read_write_same (x.arena.mem.write (x.conn.buf.string.add s) as)
      out.string (b.data.take t)
    rw [List.length_take, Nat.min_eq_left ht] at hback
    rw [← hmem, hout]
    exact (congrArg (fun m => Mem.read m out.string t) hwrite).trans hback
  have htarget : DString.Below (Xfer.target ⟨x.conn, x.job, ⟨mem, x.arena.next⟩⟩)
      x.arena.next := by
    cases hout : x.job.outPtr with
    | none => simpa [Xfer.target, hout] using h.buf
    | some out => simpa [Xfer.target, hout] using (h.out out hout).1
  obtain ⟨out, arena, heq, hlength, hread⟩ := recvHeader_spec lib
    (x := ⟨x.conn, x.job, ⟨mem, x.arena.next⟩⟩) (n := k) b hhdr' htarget
  have hleft : int32 (int32 (x.conn.iov0.len + b.data.length) - k) = int32 (b.data.length - t) := by
    rw [int32_int32_sub, hbase]
    congr 1
    omega
  have hne : as ++ b.data.take t ≠ [] := by
    intro hnil
    rw [hnil] at hlenb
    simp at hlenb
    omega
  have hiov : updateIov [x.conn.iov0, .mk' out.string b.data.length] k =
      .null :: updateIov [.mk' out.string b.data.length] t := by
    rw [hiov0, hsize, updateIov_ge _ _ (by omega) (by omega), show k - (8 - s) = t by omega]
  have hfills := ((fills_mk' out.string b.data.length [] rfl).updateIov ht).cons_null
  rw [rpcRecv_ok hne]
  have hrecv : recvBytes lib tcl x (as ++ b.data.take t) =
      (Xfer.setTarget ⟨{ x.conn with
          iov := .null :: updateIov [.mk' out.string b.data.length] t
          body := some out.string
          len := int32 (b.data.length - t) }, { x.job with result := b.code }, arena⟩ out,
        if int32 (b.data.length - t) = 0 then .ok else .erecvwait) := by
    unfold recvBytes
    simp only [h.body, hhttp, hlenb, hstore, heq]
    rw [if_pos (by rw [hbase]; omega)]
    cases x.job.outPtr <;> simp [Xfer.setTarget, hleft, hiov]
  rw [hrecv]
  refine ⟨inBody_setTarget ht rfl rfl rfl hlength (fun hsome => ?_) hfills,
    inBodyResult_eq (r := .binary b) ht rfl, ?_⟩
  · obtain ⟨o, ho⟩ := Option.ne_none_iff_exists'.mp hsome
    obtain ⟨hroom, hgot⟩ := hdata o ho
    have htarget : Xfer.target ⟨x.conn, x.job, ⟨mem, x.arena.next⟩⟩ = o := by
      rw [Xfer.target]
      exact congrArg (Option.getD · _) ho
    have hcount : (t : Int) ≤ k - x.conn.iov0.len := by
      rw [hbase]
      omega
    rw [hread t (by rwa [htarget]) hcount ht, htarget]
    exact hgot
  · rw [(Xfer.setTarget_job _ _).2.1, Option.isSome_map]

/-- The string for the data of an HTTP response, when `bs` of it came with the header: `bs` is
put into the caller's string, and its length set. -/
theorem httpTarget_spec {lib : DStringLib} {arena : Arena} {out : DString} {bs : Bytes} {n : Nat}
    (hout : out.Below arena.next) (hbs : bs.length ≤ n) :
    let r₁ := arena.setLength lib out 0
    let r₂ := r₁.2.nAppend lib r₁.1 bs
    let r₃ := r₂.2.setLength lib r₂.1 n
    r₃.1.length = n ∧ r₃.2.mem.read r₃.1.string bs.length = bs := by
  intro r₁ r₂ r₃
  obtain ⟨hlen₁, -, hbelow₁, -, -, -⟩ := Arena.setLength_spec lib arena out 0 hout
  obtain ⟨hlen₂, -, hbelow₂, -, hcontents, -⟩ := Arena.nAppend_spec lib r₁.2 r₁.1 bs hbelow₁
  obtain ⟨hlen₃, -, -, -, hread, -⟩ := Arena.setLength_spec lib r₂.2 r₂.1 n hbelow₂
  have hzero : r₁.1.length = 0 := hlen₁
  have hcount : r₂.1.length = bs.length := by
    have : r₂.1.length = r₁.1.length + bs.length := hlen₂
    omega
  refine ⟨hlen₃, ?_⟩
  calc r₃.2.mem.read r₃.1.string bs.length = r₂.2.mem.read r₂.1.string bs.length :=
        hread _ (by omega) (by simpa using hbs)
    _ = r₂.1.contents r₂.2.mem := by rw [DString.contents, hcount]
    _ = r₁.1.contents r₁.2.mem ++ bs := hcontents
    _ = bs := by rw [DString.contents, hzero, Mem.read_zero, List.nil_append]

/-- **What `RpcRecv` does with a complete HTTP header**: result and length are taken from it, and
the `t` bytes of data that came with it are put into the caller's string. -/
theorem recvHttp_spec (lib : DStringLib) (tcl : TclGetInt) (b : HttpResponse) {n : Nat}
    {rest : Bytes}
    (hout : ∀ out, x.job.outPtr = some out → out.Below x.arena.next)
    (hstr : cstr ((x.arena.mem.write ((x.conn.buf.string.add s).add n) [0]).read
      x.conn.buf.string x.conn.buf.spaceAvl) = b.header.bytes ++ rest)
    (hn : s + n = b.header.bytes.length + t) (ht : t ≤ b.data.length) :
    ∃ keep out arena, recvHttp lib tcl x (x.conn.buf.string.add s) n =
        (Xfer.setTarget ⟨{ x.conn with
          len := b.data.length
          keep := keep
          body := some (x.conn.buf.string.add b.header.bytes.length)
          iov := [.mk' out.string b.data.length, x.conn.iov1] },
          { x.job with result := b.code }, arena⟩ out, .ok t) ∧
      out.length = b.data.length ∧
      (x.job.outPtr ≠ none → arena.mem.read out.string t =
        (x.arena.mem.write ((x.conn.buf.string.add s).add n) [0]).read
          (x.conn.buf.string.add b.header.bytes.length) t) := by
  obtain ⟨keep, hparse⟩ := rpcParseHttp_text tcl b
  have hfound := b.header.strstr_bytes rest
  have hend : b.header.text.length + 4 = b.header.bytes.length := by
    simp [Header.bytes, blankLine]
  have htake : (b.header.bytes ++ rest).take b.header.text.length = b.header.text := by
    unfold Header.bytes
    rw [List.append_assoc, List.take_left]
  have hcount : (x.conn.buf.string.add s).off + n - (x.conn.buf.string.add
      b.header.bytes.length).off = t := by
    simp
    omega
  unfold recvHttp
  simp only [hstr, hfound, htake, hparse, hend, hcount]
  generalize hmem : x.arena.mem.write ((x.conn.buf.string.add s).add n) [0] = mem
  cases hjob : x.job.outPtr with
  | none =>
      let r := Arena.setLength lib ⟨mem, x.arena.next⟩ x.conn.buf b.data.length
      have hlen : r.1.length = b.data.length := rfl
      refine ⟨keep, r.1, r.2, ?_, hlen, fun hsome => absurd rfl hsome⟩
      simp [r, hlen, Xfer.setTarget, Xfer.target, Conn.iov1]
  | some out =>
      let bs := mem.read (x.conn.buf.string.add b.header.bytes.length) t
      let r₁ := Arena.setLength lib ⟨mem, x.arena.next⟩ out 0
      let r₂ := r₁.2.nAppend lib r₁.1 bs
      let r₃ := r₂.2.setLength lib r₂.1 b.data.length
      have hbs : bs.length ≤ b.data.length := by simpa [bs] using ht
      obtain ⟨hlen, hread⟩ : r₃.1.length = b.data.length ∧
          r₃.2.mem.read r₃.1.string bs.length = bs := httpTarget_spec (hout out hjob) hbs
      rw [show bs.length = t by simp [bs]] at hread
      refine ⟨keep, r₃.1, r₃.2, ?_, hlen, fun _ => hread⟩
      simp only [r₁, r₂, r₃, bs, Xfer.setTarget, Conn.iov1]
      rfl

/-- **The rest of an HTTP header, and data behind it.** -/
theorem InHeader.step_http (b : HttpResponse) (h : InHeader (.http b) s x) {t : Nat}
    (hk : s + k = b.header.bytes.length + t) (ht : t ≤ b.data.length)
    (htotal : k ≤ total x.conn.iov) :
    let y := rpcRecv lib tcl x (.ok (((Response.http b).bytes.drop s).take k))
    InBody (.http b) t y.1 ∧ y.2 = inBodyResult (.http b) t ∧
      y.1.job.outPtr.isSome = x.job.outPtr.isSome := by
  have hlt : s < b.header.bytes.length := h.lt
  have hhttp : x.conn.http = true := h.http
  have hbody := h.body
  have hiov : x.conn.iov =
      [.mk' (x.conn.buf.string.add s) (x.conn.buf.length - s), .null] := by
    rw [h.iov, hhttp]
    rfl
  have hbase : x.conn.iov0.base = some (x.conn.buf.string.add s) := by
    rw [h.iov0]
    rfl
  have hspace : s + k ≤ x.conn.buf.length := by
    rw [hiov] at htotal
    simp at htotal
    have := h.room.1
    simp only [Response.head] at this
    omega
  rw [Response.take_drop_bytes_done _ (Nat.le_of_lt h.lt) hk]
  generalize hbs : (Response.http b).head.drop s ++ (Response.http b).data.take t = bs
  have hlen : bs.length = k := by
    rw [← hbs]
    simp [Response.head, Response.data]
    omega
  have hgot : (Response.http b).head.take s ++ bs = b.header.bytes ++ b.data.take t := by
    rw [← hbs, ← List.append_assoc, List.take_append_drop]
    rfl
  -- the whole of what has come in stands in the buffer, with a NUL behind it
  have hstr := cstr_received bs h.got (n := x.conn.buf.spaceAvl) (by
    have := x.conn.buf.fits
    omega)
  rw [hgot, cstr_append b.header.nulFree_bytes, hlen] at hstr
  have hread := h.read bs
  rw [hgot, hlen, ← Mem.read_write_before _ ((x.conn.buf.string.add s).add k) _ [0] _
    (Or.inr (by simp))] at hread
  have hdata := congrArg (List.drop b.header.bytes.length) hread
  rw [Mem.drop_read, List.drop_left, show s + k - b.header.bytes.length = t by omega] at hdata
  obtain ⟨keep, out, arena, heq, hlength, hkept⟩ := recvHttp_spec lib tcl
    (x := ⟨x.conn, x.job, ⟨x.arena.mem.write (x.conn.buf.string.add s) bs, x.arena.next⟩⟩)
    b (fun out ho => (h.out out ho).1) hstr hk ht
  have hiov1 : x.conn.iov1 = .null := by
    rw [Conn.iov1, hiov]
    rfl
  have hfills := (fills_mk' out.string b.data.length [.null] rfl).updateIov ht
  have hne : bs ≠ [] := by
    rintro rfl
    simp at hlen
    omega
  have hstore := h.store x.arena.mem bs (by omega)
  rw [rpcRecv_ok hne]
  have hrecv : recvBytes lib tcl x bs = (Xfer.setTarget ⟨{ x.conn with
        len := int32 (b.data.length - t)
        keep := keep
        body := some (x.conn.buf.string.add b.header.bytes.length)
        iov := updateIov [.mk' out.string b.data.length, .null] t },
        { x.job with result := b.code }, arena⟩ out,
      if int32 (b.data.length - t) = 0 then .ok else .erecvwait) := by
    unfold recvBytes
    simp only [hbody, hhttp, hbase, hlen, hstore, heq]
    cases x.job.outPtr <;> simp [Xfer.setTarget, hiov1]
  rw [hrecv]
  refine ⟨inBody_setTarget ht rfl rfl rfl hlength (fun hsome => ?_) hfills,
    inBodyResult_eq (r := .http b) ht rfl, ?_⟩
  · exact (hkept hsome).trans hdata
  · rw [(Xfer.setTarget_job _ _).2.1, Option.isSome_map]

/-! ## A whole response -/

/-- After `s` bytes of the response. -/
def Progress (r : Response) (s : Nat) (x : Xfer) : Prop :=
  if s < r.head.length then InHeader r s x else InBody r (s - r.head.length) x

/-- What `RpcRecv` returns when `s` bytes have come in. -/
def recvResult (r : Response) (s : Nat) : Error :=
  if s = r.bytes.length then .ok else .erecvwait

theorem Response.length_bytes (r : Response) :
    r.bytes.length = r.head.length + r.data.length := by
  simp [Response.bytes]

/-- The end of the data is the end of the response. -/
theorem inBodyResult_add (r : Response) (t : Nat) :
    inBodyResult r t = recvResult r (r.head.length + t) := by
  unfold inBodyResult recvResult
  rw [r.length_bytes]
  congr 1
  exact propext ⟨fun h => by omega, fun h => by omega⟩

/-- **One `recvmsg`.** -/
theorem Progress.step (h : Progress r s x) (lib : DStringLib) (tcl : TclGetInt)
    (hk : 1 ≤ k) (hle : s + k ≤ r.bytes.length)
    (htotal : k ≤ total x.conn.iov) :
    let y := rpcRecv lib tcl x (.ok ((r.bytes.drop s).take k))
    Progress r (s + k) y.1 ∧ y.2 = recvResult r (s + k) ∧
      y.1.job.outPtr.isSome = x.job.outPtr.isSome := by
  rw [r.length_bytes] at hle
  unfold Progress at h ⊢
  split_ifs at h with hs
  · by_cases hmore : s + k < r.head.length
    · obtain ⟨hin, hres, hout⟩ := h.step_more lib tcl hk hmore
      have hwait : recvResult r (s + k) = .erecvwait := by
        rw [recvResult, r.length_bytes, if_neg (by omega)]
      exact ⟨by rwa [if_pos hmore], hres.trans hwait.symm, hout⟩
    · -- the header is complete
      have ht : s + k - r.head.length ≤ r.data.length := by omega
      have hsum : s + k = r.head.length + (s + k - r.head.length) := by omega
      have hdone : InBody r (s + k - r.head.length)
          (rpcRecv lib tcl x (.ok ((r.bytes.drop s).take k))).1 ∧
          (rpcRecv lib tcl x (.ok ((r.bytes.drop s).take k))).2 =
            inBodyResult r (s + k - r.head.length) ∧
          (rpcRecv lib tcl x (.ok ((r.bytes.drop s).take k))).1.job.outPtr.isSome =
            x.job.outPtr.isSome := by
        cases r with
        | binary b => exact h.step_binary b (by simpa [Response.head] using hsum) ht htotal
        | http b => exact h.step_http b hsum ht htotal
      obtain ⟨hin, hres, hout⟩ := hdone
      refine ⟨by rwa [if_neg hmore], ?_, hout⟩
      rw [hres, inBodyResult_add, ← hsum]
  · have hsub : s + k - r.head.length = s - r.head.length + k := by omega
    have hdrop : r.bytes.drop s = r.data.drop (s - r.head.length) := by
      unfold Response.bytes
      rw [List.drop_append, List.drop_eq_nil_of_le (by omega), List.nil_append]
    obtain ⟨hin, hres, hout⟩ := h.step lib tcl hk (by omega)
    rw [hdrop]
    refine ⟨?_, ?_, hout⟩
    · rw [if_neg (by omega), hsub]
      exact hin
    · rw [hres, inBodyResult_add]
      congr 1
      omega

/-- After any number of `recvmsg` calls. -/
theorem recvRun_progress {run : RecvRun} {s : Nat} (h : Progress r s run.x)
    (hrest : run.rest = r.bytes.drop s) (ks : List Nat) (hks : RecvResults lib tcl run ks) :
    let y := recvRun lib tcl run ks
    Progress r (s + ks.sum) y.x ∧ y.x.job.outPtr.isSome = run.x.job.outPtr.isSome ∧
      (ks ≠ [] → y.last = recvResult r (s + ks.sum)) := by
  induction ks generalizing run s with
  | nil => exact ⟨h, rfl, fun hne => absurd rfl hne⟩
  | cons k ks ih =>
      obtain ⟨hk, hle, htotal, -, hks⟩ := hks
      have hlen : s + k ≤ r.bytes.length := by
        rw [hrest, List.length_drop] at hle
        omega
      obtain ⟨hstep, hres, hout⟩ := h.step lib tcl hk hlen htotal
      rw [← hrest] at hstep hres hout
      have hnext : (recvStep lib tcl run k).rest = r.bytes.drop (s + k) := by
        show run.rest.drop k = _
        rw [hrest, List.drop_drop]
      obtain ⟨hprog, hsome, hlast⟩ := ih hstep hnext hks
      rw [List.sum_cons, ← Nat.add_assoc]
      refine ⟨hprog, hsome.trans hout, fun _ => ?_⟩
      by_cases hnil : ks = []
      · subst hnil
        exact hres
      · exact hlast hnil

/-- While bytes are missing the vectors have room for one. -/
theorem Progress.room (h : Progress r s x) (hs : s < r.bytes.length) :
    1 ≤ total x.conn.iov := by
  rw [r.length_bytes] at hs
  unfold Progress at h
  split_ifs at h with hlt
  · have hroom := h.room
    rw [h.iov, total_cons, Iovec.len_mk']
    omega
  · rw [h.room]
    omega

/-- **The response is received, however it is split.** `RpcRecv` asks for more until the last
byte and then returns `RPC_OK`; the job has the server's result code, and the caller's string, if
he gave one, holds the data. -/
theorem rpc_recv_response (cfg : Config) (lib : DStringLib) (tcl : TclGetInt) (r : Response)
    (x : Xfer) (hx : Ready x) (hhttp : x.conn.http = r.isHttp) (hfits : r.Fits cfg)
    (ks : List Nat) (hks : RecvResults lib tcl (waiting cfg lib x r) ks) :
    let y := recvRun lib tcl (waiting cfg lib x r) ks
    (ks ≠ [] → y.last = if ks.sum = r.bytes.length then .ok else .erecvwait) ∧
      (ks.sum < r.bytes.length → 1 ≤ total y.x.conn.iov) ∧
      (ks.sum = r.bytes.length → y.x.job.result = r.code ∧
        y.x.job.outPtr.map (DString.contents y.x.arena.mem) =
          x.job.outPtr.map fun _ => r.data) := by
  obtain ⟨hstart, hout⟩ := rpcSetRecv_inHeader lib hx hhttp hfits
  have hprog : Progress r 0 (waiting cfg lib x r).x := by
    rw [Progress, if_pos r.head_pos]
    exact hstart
  obtain ⟨hprog, hsome, hlast⟩ := recvRun_progress hprog rfl ks hks
  rw [Nat.zero_add] at hprog hlast
  refine ⟨hlast, hprog.room, fun hsum => ?_⟩
  have hlen := r.length_bytes
  rw [Progress, if_neg (by omega)] at hprog
  refine ⟨hprog.result, ?_⟩
  rw [show ks.sum - r.head.length = r.data.length by omega] at hprog
  have hsome' := hsome.trans hout
  generalize hy : (recvRun lib tcl (waiting cfg lib x r) ks).x = y at hprog hsome'
  cases hyo : y.job.outPtr with
  | none =>
      rw [hyo] at hsome'
      have hxo : x.job.outPtr = none := by simpa using hsome'.symm
      simp [hxo]
  | some out =>
      rw [hyo] at hsome'
      obtain ⟨o, hxo⟩ := Option.isSome_iff_exists.mp hsome'.symm
      obtain ⟨hlength, hread, -⟩ := hprog.out out hyo
      rw [hxo, Option.map_some, Option.map_some, DString.contents, hlength, hread,
        List.take_length]

/-- An idle binary connection with a caller's string of capacity 4. -/
def idle : Xfer :=
  { conn :=
      { http := false, keep := false, errnum := 0, len := 0, body := none, iov := [],
        buf := ⟨0, 0, 200, DStringLib.doubling.static_pos⟩ }
    job :=
      { cmd := 1, result := 0, error := .etimeout, inPtr := none,
        outPtr := some ⟨1, 0, 4, Nat.zero_lt_succ 3⟩ }
    arena := ⟨fun _ _ => 0, 2⟩ }

/-- Five bytes of data in three pieces: the header is cut, and the second piece fills what the
caller's string had room for. -/
theorem rpc_recv_response_three :
    let r := Response.binary ⟨7, [1, 2, 3, 4, 5], by decide, by decide⟩
    (recvRun DStringLib.doubling TclGetInt.decimal (waiting plain DStringLib.doubling idle r)
        [6, 5, 2]).last = .ok ∧
      (recvRun DStringLib.doubling TclGetInt.decimal (waiting plain DStringLib.doubling idle r)
        [6, 5, 2]).x.job.result = 7 := by
  intro r
  have hidle : Ready idle := by
    refine ⟨by decide, fun out ho => ?_, fun out ho => ?_⟩ <;>
      · obtain rfl : (⟨1, 0, 4, Nat.zero_lt_succ 3⟩ : DString) = out := by simpa [idle] using ho
        decide
  obtain ⟨hlast, -, hdone⟩ :=
    rpc_recv_response plain DStringLib.doubling TclGetInt.decimal r idle hidle rfl
    trivial [6, 5, 2] (by decide)
  exact ⟨hlast (by decide), (hdone (by decide)).1⟩

end Nsdci.Rpc
