import Nsdci.Lib.Decimal
import Nsdci.Nfs

/-!
# What a copy request names (`nfs.c`)

`NfsCopyFile` takes the lengths of name and data from the first 8 bytes of the message, as `int`s,
and goes on if they and 8 make up the length of the message, as an `int` does. It does not look at
the length of the message first, nor at the signs. So its reads may leave the message
(`Received.byte` is the memory around it), and the name is what a string function makes of it.

`nfsCopyFile_iff` says for which messages the function rejects, or uses the name and the data of a
request of `nsob.copy`.
-/

namespace Nsdci.Nfs

open Lib

variable (cfg : Config)

/-! ## Requests -/

/-- What `SobCopyCmd` sends: the name has no NUL. -/
structure CopyRequest where
  name : Bytes
  data : Bytes
  name_free : NulFree name

/-- The bytes of a request. -/
def CopyRequest.bytes (r : CopyRequest) : Bytes :=
  be32 r.name.length ++ be32 r.data.length ++ r.name ++ r.data

/-- A message in its string, which has a NUL behind it, and the memory around that. Its length is an
`int`. -/
structure Received where
  msg : Bytes
  around : Int → UInt8
  fits : msg.length < 2 ^ 31

namespace Received

variable (r : Received)

/-- The byte at `dsPtr->string + i`. -/
def byte (i : Int) : UInt8 :=
  if 0 ≤ i ∧ i < r.msg.length then r.msg.getD i.toNat 0
  else if i = r.msg.length then 0
  else r.around i

/-- The bytes from a place on. -/
def bytes (i : Int) (n : Nat) : Bytes := (List.range n).map fun (k : Nat) => r.byte (i + k)

/-- `namelen`. -/
def namelen : Int := int32 (ofBe32 (r.bytes 0 4))

/-- `datalen`. -/
def datalen : Int := int32 (ofBe32 (r.bytes 4 4))

/-- A read that stays inside the message. -/
def Inside (i n : Int) : Prop := 0 ≤ i ∧ 0 ≤ n ∧ i + n ≤ r.msg.length

end Received

/-- The arguments of `NfsWriteFile3`, and where they come from. -/
structure CopyArgs where
  name : Bytes
  nameAt : Int
  namelen : Int
  data : Bytes
  dataAt : Int
  datalen : Int

/-- What is logged for a message with the wrong lengths. -/
def invalidLengths (r : Received) : Bytes :=
  ascii "nfs: invalid copy lengths: " ++ decimal r.namelen ++ ascii " + " ++ decimal r.datalen ++
    ascii " + 8 != " ++ decimal r.msg.length

/-- `NfsCopyFile` up to `NfsWriteFile3`, or what it logs. `whole` is what `Ns_DStringNAppend`
appends for a negative length. -/
def copyArgs (whole : Bytes) (r : Received) : Except Bytes CopyArgs :=
  if int32 (r.namelen + r.datalen + 8) ≠ r.msg.length then
    .error (invalidLengths r)
  else
    .ok {
      name := cstr (if r.namelen < 0 then whole else r.bytes 8 r.namelen.toNat)
      nameAt := 8
      namelen := r.namelen
      data := r.bytes (8 + r.namelen) r.datalen.toNat
      dataAt := 8 + r.namelen
      datalen := r.datalen }

/-- The end of `NfsCopyFile`. -/
def writeCopy (s : Server) (io : WriteIo) (now : Int) : Except Bytes CopyArgs → Server × Int
  | .error _ => (s, rpcError)
  | .ok args => nfsWriteFile3 cfg s args.name args.data false false io now

/-- `NfsCopyFile`, with the memory its message is in. -/
def copyReceived (whole : Bytes) (s : Server) (r : Received) (io : WriteIo) (now : Int) :
    Server × Int :=
  writeCopy cfg s io now (copyArgs whole r)

/-- The message is rejected, or what is read lies inside it, and is the name and the data of a
request. -/
def Handled (whole : Bytes) (r : Received) : Prop :=
  (∃ text, copyArgs whole r = .error text) ∨
    ∃ args, copyArgs whole r = .ok args ∧ r.Inside args.nameAt args.namelen ∧
      r.Inside args.dataAt args.datalen ∧
      ∃ request : CopyRequest, r.msg = request.bytes ∧ args.name = request.name ∧
        args.data = request.data

/-! ## Reads inside the message -/

namespace Received

variable {r : Received}

theorem bytes_inside {i n : Nat} (h : i + n ≤ r.msg.length) :
    r.bytes i n = (r.msg.drop i).take n := by
  refine List.ext_getElem? fun k => ?_
  rw [bytes, List.getElem?_map, List.getElem?_take, List.getElem?_drop]
  split_ifs with hk
  · have hlt : i + k < r.msg.length := by omega
    rw [List.getElem?_range hk, Option.map_some, List.getElem?_eq_getElem hlt, byte,
      if_pos ⟨by omega, by omega⟩]
    have hindex : ((i : Int) + k).toNat = i + k := by omega
    rw [hindex, List.getD_eq_getElem?_getD, List.getElem?_eq_getElem hlt]
    rfl
  · rw [List.getElem?_eq_none (by rw [List.length_range]; omega), Option.map_none]

theorem namelen_inside (h : 8 ≤ r.msg.length) : r.namelen = int32 (ofBe32 (r.msg.take 4)) := by
  rw [namelen, show (0 : Int) = (0 : Nat) from rfl, bytes_inside (by omega), List.drop_zero]

theorem datalen_inside (h : 8 ≤ r.msg.length) :
    r.datalen = int32 (ofBe32 ((r.msg.drop 4).take 4)) := by
  rw [datalen, show (4 : Int) = (4 : Nat) from rfl, bytes_inside (by omega)]

end Received

/-- Both lengths are lengths, and the header is in the message. -/
structure Lengths (r : Received) : Prop where
  header : 8 ≤ r.msg.length
  name : 0 ≤ r.namelen
  data : 0 ≤ r.datalen

/-- Then their sum does not wrap. -/
theorem Lengths.sum {r : Received} (h : Lengths r)
    (hsum : int32 (r.namelen + r.datalen + 8) = r.msg.length) :
    r.namelen + r.datalen + 8 = r.msg.length := by
  have hname : r.namelen < 2 ^ 31 := (int32_range _).2
  have hdata : r.datalen < 2 ^ 31 := (int32_range _).2
  have hlo := h.name
  have hlo' := h.data
  have hheader := h.header
  have hfits := r.fits
  rw [int32, Int.bmod_def] at hsum
  omega

theorem Lengths.name_eq {r : Received} (h : Lengths r)
    (hsum : r.namelen + r.datalen + 8 = r.msg.length) :
    r.bytes 8 r.namelen.toNat = (r.msg.drop 8).take r.namelen.toNat := by
  have hname := h.name
  have hdata := h.data
  have hin : 8 + r.namelen.toNat ≤ r.msg.length := by omega
  exact Received.bytes_inside hin

theorem Lengths.data_eq {r : Received} (h : Lengths r)
    (hsum : r.namelen + r.datalen + 8 = r.msg.length) :
    r.bytes (8 + r.namelen) r.datalen.toNat = (r.msg.drop 8).drop r.namelen.toNat := by
  have hname := h.name
  have hdata := h.data
  have hplace : (8 + r.namelen : Int) = ((8 + r.namelen.toNat : Nat) : Int) := by omega
  rw [hplace, Received.bytes_inside (by omega), List.drop_drop, List.take_of_length_le]
  rw [List.length_drop]
  omega

/-- Four bytes are those of the `int` they stand for. -/
theorem be32_int32_ofBe32 {bs : Bytes} (h : bs.length = 4) : be32 (int32 (ofBe32 bs)) = bs := by
  rw [be32_int32, be32_ofBe32 h]

/-- The message is its two lengths, a name and data. -/
theorem Lengths.msg_eq {r : Received} (h : Lengths r) :
    r.msg = be32 r.namelen ++ be32 r.datalen ++ (r.msg.drop 8).take r.namelen.toNat ++
      (r.msg.drop 8).drop r.namelen.toNat := by
  have hheader := h.header
  have hfirst : be32 r.namelen = r.msg.take 4 := by
    rw [Received.namelen_inside hheader]
    exact be32_int32_ofBe32 (by rw [List.length_take]; omega)
  have hsecond : be32 r.datalen = (r.msg.drop 4).take 4 := by
    rw [Received.datalen_inside hheader]
    exact be32_int32_ofBe32 (by rw [List.length_take, List.length_drop]; omega)
  have height : r.msg.drop 8 = (r.msg.drop 4).drop 4 := by rw [List.drop_drop]
  rw [List.append_assoc, List.take_append_drop, hfirst, hsecond, List.append_assoc, height,
    List.take_append_drop, List.take_append_drop]

/-- The lengths in the message of a request. -/
theorem lengths_of_request {r : Received} {request : CopyRequest} (h : r.msg = request.bytes) :
    8 ≤ r.msg.length ∧ r.namelen = request.name.length ∧ r.datalen = request.data.length := by
  have hlen := congrArg List.length h
  simp only [CopyRequest.bytes, List.length_append, length_be32] at hlen
  have hfits := r.fits
  have hheader : 8 ≤ r.msg.length := by omega
  have hint (n : Nat) (hn : n < 2 ^ 31) : int32 (ofBe32 (be32 n)) = n := by
    rw [int32_ofBe32_be32]
    exact int32_natCast_eq_iff.mpr hn
  refine ⟨hheader, ?_, ?_⟩
  · rw [Received.namelen_inside hheader, h, CopyRequest.bytes, List.append_assoc, List.append_assoc,
      List.take_left' (length_be32 _)]
    exact hint _ (by omega)
  · rw [Received.datalen_inside hheader, h, CopyRequest.bytes, List.append_assoc, List.append_assoc,
      List.drop_left' (length_be32 _), List.take_left' (length_be32 _)]
    exact hint _ (by omega)

/-- What is used with lengths that are right. -/
theorem copyArgs_ok {r : Received} (h : Lengths r)
    (hsum : int32 (r.namelen + r.datalen + 8) = r.msg.length) (whole : Bytes) :
    copyArgs whole r = .ok {
      name := cstr ((r.msg.drop 8).take r.namelen.toNat)
      nameAt := 8
      namelen := r.namelen
      data := (r.msg.drop 8).drop r.namelen.toNat
      dataAt := 8 + r.namelen
      datalen := r.datalen } := by
  have hadds := h.sum hsum
  rw [copyArgs, if_neg (not_not.mpr hsum), if_neg (Int.not_lt.mpr h.name), h.name_eq hadds,
    h.data_eq hadds]

theorem copyArgs_error {r : Received}
    (hsum : int32 (r.namelen + r.datalen + 8) ≠ r.msg.length) (whole : Bytes) :
    copyArgs whole r = .error (invalidLengths r) := by
  rw [copyArgs, if_pos hsum]

section Lengths

variable {msg : Bytes} {namelen datalen : Int} (h : copyLengths msg = (namelen, datalen))
  (s : Server) (io : WriteIo) (now : Int)

include h

theorem nfsCopyFile_ok (hsum : int32 (namelen + datalen + 8) = msg.length) :
    nfsCopyFile cfg s msg io now =
      nfsWriteFile3 cfg s (cstr ((msg.drop 8).take namelen.toNat))
        (((msg.drop 8).drop namelen.toNat).take datalen.toNat) false false io now := by
  rw [nfsCopyFile]
  rw [h]
  exact if_pos hsum

theorem nfsCopyFile_error (hsum : int32 (namelen + datalen + 8) ≠ msg.length) :
    nfsCopyFile cfg s msg io now = (s, rpcError) := by
  rw [nfsCopyFile]
  rw [h]
  exact if_neg hsum

end Lengths

/-- With lengths that are right, only the message is read. -/
theorem copyReceived_eq {r : Received} (h : Lengths r) (whole : Bytes) (s : Server) (io : WriteIo)
    (now : Int) : copyReceived cfg whole s r io now = nfsCopyFile cfg s r.msg io now := by
  have hlengths : copyLengths r.msg = (r.namelen, r.datalen) := by
    rw [copyLengths, Received.namelen_inside h.header, Received.datalen_inside h.header]
  by_cases hsum : int32 (r.namelen + r.datalen + 8) = r.msg.length
  · have hadds := h.sum hsum
    have hname := h.name
    have hdata : ((r.msg.drop 8).drop r.namelen.toNat).take r.datalen.toNat =
        (r.msg.drop 8).drop r.namelen.toNat := by
      refine List.take_of_length_le ?_
      rw [List.length_drop, List.length_drop]
      omega
    rw [nfsCopyFile_ok cfg hlengths s io now hsum, hdata, copyReceived, copyArgs_ok h hsum,
      writeCopy]
  · rw [nfsCopyFile_error cfg hlengths s io now hsum, copyReceived, copyArgs_error hsum, writeCopy]

/-- **Copy requests.** A message is rejected, or all that is read of it lies inside it and is the
name and the data of a request, exactly if its lengths do not make up its length, or its header is
all there, no length is negative and there is no NUL in the name. -/
theorem nfsCopyFile_iff (whole : Bytes) (r : Received) :
    Handled whole r ↔
      int32 (r.namelen + r.datalen + 8) ≠ r.msg.length ∨
        8 ≤ r.msg.length ∧ 0 ≤ r.namelen ∧ 0 ≤ r.datalen ∧
          NulFree ((r.msg.drop 8).take r.namelen.toNat) := by
  unfold Handled
  by_cases hsum : int32 (r.namelen + r.datalen + 8) = r.msg.length
  · constructor
    · rintro (⟨text, hreject⟩ | ⟨args, -, -, -, request, hmsg, -, -⟩)
      · rw [copyArgs, if_neg (not_not.mpr hsum)] at hreject
        exact absurd hreject (by simp)
      · obtain ⟨hheader, hname, hdata⟩ := lengths_of_request hmsg
        have hbehind : r.msg.drop 8 = request.name ++ request.data := by
          rw [hmsg, CopyRequest.bytes, List.append_assoc]
          rfl
        refine .inr ⟨hheader, by omega, by omega, ?_⟩
        rw [hbehind, hname, Int.toNat_natCast, List.take_left]
        exact request.name_free
    · rintro (hnot | ⟨hheader, hname, hdata, hfree⟩)
      · exact absurd hsum hnot
      · have h : Lengths r := ⟨hheader, hname, hdata⟩
        have hadds := h.sum hsum
        have hmsg := h.msg_eq
        have hargs := copyArgs_ok h hsum whole
        have hnamelen : (((r.msg.drop 8).take r.namelen.toNat).length : Int) = r.namelen := by
          rw [List.length_take, List.length_drop]
          omega
        have hdatalen : (((r.msg.drop 8).drop r.namelen.toNat).length : Int) = r.datalen := by
          rw [List.length_drop, List.length_drop]
          omega
        generalize (r.msg.drop 8).take r.namelen.toNat = name at *
        generalize (r.msg.drop 8).drop r.namelen.toNat = data at *
        have hin : r.Inside 8 r.namelen := ⟨by decide, hname, by omega⟩
        have hin' : r.Inside (8 + r.namelen) r.datalen := ⟨by omega, hdata, by omega⟩
        rw [← hnamelen, ← hdatalen] at hmsg
        refine .inr ⟨_, hargs, ?_⟩
        dsimp only
        exact ⟨hin, hin', ⟨name, data, hfree⟩, hmsg, cstr_eq_self hfree, rfl⟩
  · exact iff_of_true (.inl ⟨_, copyArgs_error hsum whole⟩) (.inl hsum)

/-- A name length of -4. The name is what stands before the next NUL, and the data begin with the
data length. -/
def negativeName : Received where
  msg := [255, 255, 255, 252, 0, 0, 0, 8, 97, 98, 99, 100]
  around := fun _ => 0
  fits := by decide

/-- The name is `a`, a NUL and `b`. -/
def nulName : Received where
  msg := [0, 0, 0, 3, 0, 0, 0, 0, 97, 0, 98]
  around := fun _ => 0
  fits := by decide

/-- Both are accepted: the first with data from its header, the second under the name `a`. -/
theorem nfsCopyFile_accepts :
    (¬∀ whole r, Handled whole r) ∧
    (∃ args, copyArgs [97, 98, 99, 100] negativeName = .ok args ∧ args.dataAt = 4 ∧
      args.data = [0, 0, 0, 8, 97, 98, 99, 100]) ∧
    ∃ args, copyArgs [] nulName = .ok args ∧ args.name = [97] := by
  have hnegative : int32 (negativeName.namelen + negativeName.datalen + 8) =
      negativeName.msg.length := by decide
  have hnul : int32 (nulName.namelen + nulName.datalen + 8) = nulName.msg.length := by
    decide
  refine ⟨fun h => ?_, ⟨_, if_neg (not_not.mpr hnegative), by decide, by decide⟩,
    ⟨_, if_neg (not_not.mpr hnul), by decide⟩⟩
  obtain ⟨text, hreject⟩ | ⟨args, hargs, hin, -⟩ := h [] negativeName
  · rw [copyArgs, if_neg (not_not.mpr hnegative)] at hreject
    exact absurd hreject (by simp)
  · rw [copyArgs, if_neg (not_not.mpr hnegative)] at hargs
    obtain rfl := Except.ok.inj hargs
    exact absurd hin.2.1 (by decide)

end Nsdci.Nfs
