import Nsdci.Rpc.Recv

/-!
# Where an RPC response ends

`responseLength` is what a response says of its own length, once its header is there. The main
results: bytes behind do not change it (`responseLength_append`), so of what a server sends only
one front is a whole response (`Whole.eq_of_front`).
-/

namespace Nsdci.Rpc

open Lib

variable (tcl : TclGetInt)

/-- Where the header of a response ends, if all of it is there. -/
def headerEnd (http : Bool) (got : Bytes) : Option Nat :=
  if http then (strstr blankLine (cstr got)).map (· + blankLine.length)
  else if 8 ≤ got.length then some 8 else none

/-- What the header says of the length of the data. -/
def dataLength (http : Bool) (head : Bytes) : Option Int :=
  if http then
    (rpcParseHttp tcl (head.take (head.length - blankLine.length))).map Parse.length
  else some (ofBe32 (head.drop 4))

/-- How long the response is, if its header is there and says it. -/
def responseLength (http : Bool) (got : Bytes) : Option Int := do
  let n ← headerEnd http got
  let len ← dataLength tcl http (got.take n)
  return n + len

/-- A whole response, and nothing behind it. -/
def Whole (http : Bool) (got : Bytes) : Prop := responseLength tcl http got = some got.length

variable {tcl} {http : Bool} {got : Bytes}

/-- The string in front of the blank line. -/
theorem strstr_blankLine {i : Nat} (h : strstr blankLine (cstr got) = some i) :
    i + blankLine.length ≤ got.length ∧ (cstr got).take i = got.take i := by
  have hle := (prefix_of_strstr h).length_le
  have hfront : cstr got <+: got := List.takeWhile_prefix _
  have hcstr := hfront.length_le
  have hpos : 0 < blankLine.length := by decide
  rw [List.length_drop] at hle
  refine ⟨by omega, ?_⟩
  obtain ⟨rest, hrest⟩ := hfront
  calc (cstr got).take i = (cstr got ++ rest).take i :=
        (List.take_append_of_le_length (by omega)).symm
    _ = got.take i := by rw [hrest]

/-- The header is in what has come in. -/
theorem le_of_headerEnd {n : Nat} (h : headerEnd http got = some n) : n ≤ got.length := by
  unfold headerEnd at h
  cases http with
  | true =>
      rw [if_pos rfl] at h
      obtain ⟨i, hi, rfl⟩ := Option.map_eq_some_iff.mp h
      exact (strstr_blankLine hi).1
  | false =>
      rw [if_neg Bool.false_ne_true, Option.ite_none_right_eq_some] at h
      obtain ⟨hle, heq⟩ := h
      exact Option.some.inj heq ▸ hle

/-- A header that is there stays as it is when more comes in. -/
theorem headerEnd_append {n : Nat} (h : headerEnd http got = some n) (more : Bytes) :
    headerEnd http (got ++ more) = some n := by
  unfold headerEnd at h ⊢
  cases http with
  | true =>
      rw [if_pos rfl] at h ⊢
      obtain ⟨i, hi, rfl⟩ := Option.map_eq_some_iff.mp h
      rw [strstr_front ( cstr_prefix got more) hi, Option.map_some]
  | false =>
      rw [if_neg Bool.false_ne_true, Option.ite_none_right_eq_some] at h ⊢
      rw [List.length_append]
      exact ⟨by omega, h.2⟩

/-- **A response keeps its length when more comes in.** -/
theorem responseLength_append {len : Int} (h : responseLength tcl http got = some len)
    (more : Bytes) : responseLength tcl http (got ++ more) = some len := by
  obtain ⟨n, hn, hrest⟩ := Option.bind_eq_some_iff.mp h
  have htake : (got ++ more).take n = got.take n :=
    List.take_append_of_le_length (le_of_headerEnd hn)
  show (headerEnd http (got ++ more)).bind _ = _
  rw [headerEnd_append hn, Option.bind_some, htake]
  exact hrest

/-- A whole response with something behind it is not whole. -/
theorem Whole.append_nil {more : Bytes} (h : Whole tcl http got)
    (hmore : Whole tcl http (got ++ more)) : more = [] := by
  have heq := Option.some.inj ((responseLength_append h more).symm.trans hmore)
  rw [List.length_append] at heq
  exact List.eq_nil_of_length_eq_zero (by omega)

/-- **There is one way to read a response from the bytes a server sends.** -/
theorem Whole.eq_of_front {r stream : Bytes} (hr : Whole tcl http r) (hgot : Whole tcl http got)
    (hr' : r <+: stream) (hgot' : got <+: stream) : got = r := by
  rcases List.prefix_or_prefix_of_prefix hr' hgot' with ⟨more, rfl⟩ | ⟨more, rfl⟩
  · rw [hr.append_nil hgot, List.append_nil]
  · rw [hgot.append_nil hr, List.append_nil]

/-- A whole response is not empty. -/
theorem Whole.ne_nil (h : Whole tcl http got) : got ≠ [] := by
  rintro rfl
  cases http with
  | true =>
      have hnone : strstr blankLine (cstr []) = none := by decide
      simp [Whole, responseLength, headerEnd, hnone] at h
  | false => simp [Whole, responseLength, headerEnd] at h

/-- **What a client has read, one whole response after the other, is the first of the responses
that were sent.** -/
theorem wholes_of_front {gots rs : List Bytes} (hgots : ∀ g ∈ gots, Whole tcl http g)
    (hrs : ∀ r ∈ rs, Whole tcl http r) (h : gots.flatten <+: rs.flatten) : gots <+: rs := by
  induction gots generalizing rs with
  | nil => exact List.nil_prefix
  | cons g gots ih =>
      have hg := hgots g List.mem_cons_self
      cases rs with
      | nil =>
          rw [List.flatten_nil, List.prefix_nil, List.flatten_cons, List.append_eq_nil_iff] at h
          exact absurd h.1 hg.ne_nil
      | cons r rs =>
          have hr := hrs r List.mem_cons_self
          rw [List.flatten_cons, List.flatten_cons] at h
          obtain rfl : g = r :=
            hr.eq_of_front hg (List.prefix_append _ _) ((List.prefix_append _ _).trans h)
          rw [List.prefix_append_right_inj] at h
          exact List.cons_prefix_cons.mpr ⟨rfl, ih
            (fun g' hg' => hgots g' (List.mem_cons_of_mem _ hg'))
            (fun r' hr' => hrs r' (List.mem_cons_of_mem _ hr')) h⟩

/-- A server's response is whole. -/
theorem Response.whole (tcl : TclGetInt) (r : Response) : Whole tcl r.isHttp r.bytes := by
  cases r with
  | binary r =>
      have hdata := r.data_ok
      have hlen := ofBe32_be32_natCast (n := r.data.length) (by omega)
      have hhead : (be32 r.code ++ be32 r.data.length ++ r.data).take 8 =
          be32 r.code ++ be32 r.data.length := List.take_left' (by simp)
      show responseLength tcl false (be32 r.code ++ be32 r.data.length ++ r.data) = _
      simp only [responseLength, headerEnd, dataLength, Bool.false_eq_true, if_false]
      rw [if_pos (by simp; omega), Option.bind_eq_bind, Option.bind_some, hhead,
        List.drop_left' (length_be32 _), hlen]
      simp [Response.bytes, Response.head, Response.data]
      omega
  | http r =>
      obtain ⟨keep, hparse⟩ := rpcParseHttp_text tcl r
      have hcstr := cstr_append r.header.nulFree_bytes r.data
      have hend : headerEnd true r.bytes = some r.header.bytes.length := by
        simp only [headerEnd, if_true]
        show (strstr blankLine (cstr (r.header.bytes ++ r.data))).map _ = _
        rw [hcstr, r.header.strstr_bytes, Option.map_some]
        simp [Header.bytes]
      have htake : r.bytes.take r.header.bytes.length = r.header.bytes := List.take_left
      have htext : r.header.bytes.take (r.header.bytes.length - blankLine.length) =
          r.header.text := by
        simp [Header.bytes]
      show responseLength tcl true r.bytes = some (r.bytes.length : Int)
      simp only [responseLength, dataLength, if_true]
      rw [hend, Option.bind_eq_bind, Option.bind_some, htake, htext, hparse]
      simp [HttpResponse.bytes]

end Nsdci.Rpc
