import Nsdci.Lib.Word
import Nsdci.Lib.CString

/-!
# Results of scripts on the wire (`tclexport.c`)

`DciTclExport` writes the result of a script as a record: a header with the code and three lengths,
and the result, `errorInfo` and `errorCode` in the order of a format, without terminators.
`DciTclRead` and `DciTclRecv` read a record from a stream and `DciTclImport` hands its strings to
Tcl. It takes them from the last to the first, and ends each with a NUL over the first byte of the
string behind it, which it has handed over already.
-/

namespace Nsdci.TclExport

open Lib

/-- The strings of a record. -/
inductive Elem where
  | R
  | C
  | I
  deriving DecidableEq

/-- The order of the strings (`x_fmt`). -/
abbrev Fmt := { elems : List Elem // elems.Perm [.R, .C, .I] }

/-- `DCI_EXPORTFMT_CIR`. -/
def exportfmtCir : Fmt := ⟨[.C, .I, .R], by decide⟩

/-- The format in use: `default_x_fmt` for `NULL`. -/
def orDefault (x_fmt : Option Fmt) : Fmt := x_fmt.getD exportfmtCir

/-- What an interpreter holds: its result, and the two variables when they are set. -/
structure Interp where
  result : CStr
  errorCode : Option CStr
  errorInfo : Option CStr
  deriving DecidableEq

/-- The strings of an interpreter. A variable that is not set counts as empty. -/
def Interp.held (interp : Interp) : Elem → CStr
  | .R => interp.result
  | .C => interp.errorCode.getD ⟨[], by decide⟩
  | .I => interp.errorInfo.getD ⟨[], by decide⟩

/-- The strings that are sent: none of the variables with the code `TCL_OK`. -/
def Interp.strs (interp : Interp) (code : Int) : Elem → CStr
  | .R => interp.result
  | .C => if code = 0 then ⟨[], by decide⟩ else interp.held .C
  | .I => if code = 0 then ⟨[], by decide⟩ else interp.held .I

/-- A string behind others. Its length is an `int`. -/
def appendStr (ds s : Bytes) : Bytes :=
  if 0 < int32 s.length then ds ++ s.take (int32 s.length).toNat else ds

/-- The header: the code, and the lengths in the order of the format. -/
def hdr (code : Int) (strs : List Bytes) : Bytes :=
  be32 code ++ strs.flatMap fun s => be32 (int32 s.length)

/-- `DciTclExport`. -/
def tclExport (interp : Interp) (code : Int) (ds : Bytes) (x_fmt : Option Fmt) : Bytes :=
  let strs := (orDefault x_fmt).1.map fun e => (interp.strs code e).1
  strs.foldl appendStr (ds ++ hdr code strs)

/-! ## Reading a record -/

/-- The loop of `read` calls until `len` bytes are there. A piece is what one call has to offer;
an empty one is the end of the file, an error or a timeout. -/
def readLoop : List Bytes → Nat → Option (Bytes × List Bytes)
  | pieces, 0 => some ([], pieces)
  | [], _ + 1 => none
  | p :: pieces, len + 1 =>
      if p = [] then none
      else if p.length ≤ len + 1 then
        (readLoop pieces (len + 1 - p.length)).map fun r => (p ++ r.1, r.2)
      else some (p.take (len + 1), p.drop (len + 1) :: pieces)

/-- The byte order of the host. -/
inductive Order where
  | big
  | little

/-- A word of the host. -/
def Order.word (host : Order) (bs : Bytes) : Nat :=
  match host with
  | .big => ofBe32 bs
  | .little => ofBe32 bs.reverse

/-- The bytes of the word with this number in the header. -/
def hdrBytes (ds : Bytes) (i : Nat) : Bytes := (ds.drop (4 * i)).take 4

/-- The word with this number in the header, in network byte order. -/
def hdrWord (ds : Bytes) (i : Nat) : Nat := ofBe32 (hdrBytes ds i)

/-- The header in network byte order, as `Next` leaves it. -/
def netHdr (host : Order) (net : Bool) (ds : Bytes) : Bytes :=
  if net then ds else [0, 1, 2, 3].flatMap fun i => be32 (host.word (hdrBytes ds i))

/-- `Next`: the number of bytes behind the header. -/
def next (ds : Bytes) : Int :=
  [1, 2, 3].foldl (fun (len : Int) i => int32 (len + hdrWord ds i)) 0

/-- What `DciTclRead` and `DciTclRecv` do: the record and the pieces left. -/
def readRecord (host : Order) (net : Bool) (pieces : List Bytes) : Option (Bytes × List Bytes) :=
  (readLoop pieces 16).bind fun r =>
    let header := netHdr host net r.1
    (readLoop r.2 (next header).toNat).map fun r' =>
      (header.take (int32 (16 + next header)).toNat ++ r'.1, r'.2)

/-- `DciTclRead`. -/
def tclRead (host : Order) (net : Bool) (pieces : List Bytes) : Option (Bytes × List Bytes) :=
  readRecord host net pieces

/-- `DciTclRecv`. -/
def tclRecv (host : Order) (pieces : List Bytes) : Option (Bytes × List Bytes) :=
  readRecord host true pieces

/-! ## Handing a record to Tcl -/

/-- The calls that hand strings to Tcl: `Tcl_SetResult`, `Tcl_SetErrorCode`, `Tcl_AddErrorInfo` and
`Tcl_AppendResult`. -/
inductive Handed where
  | setResult (s : Bytes)
  | setErrorCode (s : Bytes)
  | addErrorInfo (s : Bytes)
  | appendResult (s : Bytes)
  deriving DecidableEq

/-- The state of the loop of `DciTclImport`: the bytes behind the header with the terminator of
the string, the offset, and the calls made. -/
structure Unpack where
  str : Bytes
  offset : Int
  calls : List Handed
  deriving DecidableEq

/-- The C string at the offset. -/
def Unpack.at (u : Unpack) : Bytes := cstr (u.str.drop u.offset.toNat)

/-- A call with the string at the offset, and `str[offset] = '\0'`. -/
def Unpack.take (u : Unpack) (call : Bytes → Handed) : Unpack :=
  ⟨u.str.set u.offset.toNat 0, u.offset, u.calls ++ [call u.at]⟩

/-- One pass of the loop, for a string of this length. -/
def Unpack.pass (u : Unpack) (e : Elem × Int) : Unpack :=
  let u' : Unpack := { u with offset := int32 (u.offset - e.2) }
  match e.1 with
  | .R => u'.take .setResult
  | .C => if 0 < e.2 then u'.take .setErrorCode else u'
  | .I => if 0 < e.2 then u'.take .addErrorInfo else u'

/-- The loop of `DciTclImport`, from the last string to the first. -/
def unpack (ds : Bytes) (elems : List Elem) : Unpack :=
  let lens := [1, 2, 3].map (hdrWord ds)
  let offset := lens.foldl (fun (offset : Int) (len : Nat) => int32 (offset + len)) 0
  (elems.zip (lens.map fun len : Nat => int32 len)).reverse.foldl Unpack.pass
    ⟨ds.drop 16 ++ [0], offset, []⟩

/-- `DciTclImport`: the code, and the calls that hand strings to Tcl. -/
def tclImport (ds : Bytes) (x_fmt : Option Fmt) : Int × List Handed :=
  if ds.length < 16 then (1, [.appendResult (ascii "invalid remote tcl result")])
  else (int32 (hdrWord ds 0), (unpack ds (orDefault x_fmt).1).calls)

/-! ## The round trip -/

/-- What Tcl should be handed of a string: the two of an error only when they are not empty. -/
def handed (e : Elem) (s : Bytes) : Option Handed :=
  match e with
  | .R => some (.setResult s)
  | .C => if s = [] then none else some (.setErrorCode s)
  | .I => if s = [] then none else some (.addErrorInfo s)

/-- All that Tcl should be handed, from the last string to the first. -/
def handedAll (strs : Elem → CStr) (x_fmt : Option Fmt) : List Handed :=
  (orDefault x_fmt).1.reverse.filterMap fun e => handed e (strs e).1

/-- The length of all strings together. -/
def strsLength (strs : Elem → CStr) : Nat :=
  (strs .R).1.length + (strs .C).1.length + (strs .I).1.length

/-- **What is left of a stream of pieces once some bytes are read does not depend on the
pieces.** -/
theorem readLoop_flatten {pieces : List Bytes} (hne : ∀ p ∈ pieces, p ≠ []) (len : Nat)
    (hlen : len ≤ pieces.flatten.length) :
    ∃ rest, readLoop pieces len = some (pieces.flatten.take len, rest) ∧
      rest.flatten = pieces.flatten.drop len ∧ ∀ p ∈ rest, p ≠ [] := by
  induction pieces generalizing len with
  | nil =>
      obtain rfl : len = 0 := by simpa using hlen
      exact ⟨[], by simp [readLoop], rfl, hne⟩
  | cons p pieces ih =>
      cases len with
      | zero => exact ⟨p :: pieces, by simp [readLoop], rfl, hne⟩
      | succ len =>
          have hp : p ≠ [] := hne p (by simp)
          have hpieces : ∀ q ∈ pieces, q ≠ [] := fun q hq => hne q (List.mem_cons_of_mem _ hq)
          rw [List.flatten_cons, List.length_append] at hlen
          rw [readLoop, if_neg hp, List.flatten_cons]
          split_ifs with hle
          · -- the whole piece is read
            obtain ⟨rest, hread, hrest, hrest_ne⟩ := ih hpieces (len + 1 - p.length) (by omega)
            refine ⟨rest, ?_, ?_, hrest_ne⟩
            · rw [hread, Option.map_some, List.take_append, List.take_of_length_le hle]
            · rw [hrest, List.drop_append, List.drop_of_length_le hle, List.nil_append]
          · -- the piece has more than is asked for
            refine ⟨p.drop (len + 1) :: pieces, ?_, ?_, ?_⟩
            · rw [List.take_append_of_le_length (by omega)]
            · rw [List.flatten_cons, List.drop_append_of_le_length (by omega)]
            · intro q hq
              rcases List.mem_cons.mp hq with rfl | hq
              · simpa using hle
              · exact hpieces q hq

/-- **One pass hands over the last string** and ends the strings before it with a NUL. -/
theorem pass_spec {front s : Bytes} (hs : NulFree s) (hlen : front.length + s.length < 2 ^ 31)
    (e : Elem) (junk : Bytes) (calls : List Handed) :
    ∃ junk', Unpack.pass ⟨front ++ s ++ 0 :: junk, (front.length + s.length : Nat), calls⟩
        (e, s.length) = ⟨front ++ 0 :: junk', front.length, calls ++ (handed e s).toList⟩ := by
  have hoffset : int32 (((front.length + s.length : Nat) : Int) - s.length) = front.length := by
    have hsub : ((front.length + s.length : Nat) : Int) - s.length = front.length := by omega
    rw [hsub]
    exact int32_of_range (by omega) (by omega)
  have hat : Unpack.at ⟨front ++ s ++ 0 :: junk, front.length, calls⟩ = s := by
    show cstr ((front ++ s ++ 0 :: junk).drop (front.length : Int).toNat) = s
    rw [Int.toNat_natCast, List.append_assoc, List.drop_left, cstr_append hs]
    simp [cstr]
  -- the first byte of the string, or the NUL behind it, becomes a NUL
  have htake : ∀ call, ∃ junk', Unpack.take ⟨front ++ s ++ 0 :: junk, front.length, calls⟩ call =
      ⟨front ++ 0 :: junk', front.length, calls ++ [call s]⟩ := by
    intro call
    refine ⟨(s ++ 0 :: junk).tail, ?_⟩
    rw [Unpack.take, hat, Int.toNat_natCast, List.append_assoc, List.set_append_right _ _ le_rfl,
      Nat.sub_self]
    cases s with
    | nil => rfl
    | cons c s => rfl
  -- an empty string behind which there is a NUL already is passed over
  have hother : ∀ call : Bytes → Handed, ∃ junk',
      (if (0 : Int) < s.length then
        Unpack.take ⟨front ++ s ++ 0 :: junk, front.length, calls⟩ call
      else ⟨front ++ s ++ 0 :: junk, front.length, calls⟩) =
        ⟨front ++ 0 :: junk', front.length,
          calls ++ (if s = [] then none else some (call s)).toList⟩ := by
    intro call
    cases s with
    | nil => exact ⟨junk, by simp⟩
    | cons c s =>
        have hpos : (0 : Int) < (c :: s).length := by simp
        rw [if_pos hpos, if_neg (List.cons_ne_nil c s)]
        exact htake call
  unfold Unpack.pass
  dsimp only
  rw [hoffset]
  cases e with
  | R => exact htake .setResult
  | C => exact hother .setErrorCode
  | I => exact hother .addErrorInfo

/-- The loop hands over all strings, from the last to the first. -/
theorem passes_spec (fields : List (Elem × Bytes)) (hfree : ∀ f ∈ fields, NulFree f.2)
    (hlen : (fields.reverse.flatMap Prod.snd).length < 2 ^ 31) (junk : Bytes)
    (calls : List Handed) :
    ((fields.map fun f => (f.1, (f.2.length : Int))).foldl Unpack.pass
      ⟨fields.reverse.flatMap Prod.snd ++ 0 :: junk, (fields.reverse.flatMap Prod.snd).length,
        calls⟩).calls = calls ++ fields.filterMap fun f => handed f.1 f.2 := by
  induction fields generalizing junk calls with
  | nil => simp
  | cons f fields ih =>
      have hsplit : (f :: fields).reverse.flatMap Prod.snd =
          fields.reverse.flatMap Prod.snd ++ f.2 := by simp
      rw [hsplit, List.length_append] at hlen ⊢
      obtain ⟨junk', hpass⟩ := pass_spec (hfree f (by simp)) hlen f.1 junk calls
      rw [List.map_cons, List.foldl_cons, hpass,
        ih (fun g hg => hfree g (List.mem_cons_of_mem _ hg)) (by omega)]
      cases hf : handed f.1 f.2 with
      | none => simp [hf]
      | some h => simp [hf]

/-- A format is three elements. -/
theorem fmt_cases (fmt : Fmt) : ∃ a b c, fmt.1 = [a, b, c] := by
  obtain ⟨elems, hperm⟩ := fmt
  have hlength : elems.length = 3 := hperm.length_eq
  match elems, hlength with
  | [a, b, c], _ => exact ⟨a, b, c, rfl⟩

/-- The strings of a record have their length together, whatever the format. -/
theorem length_fmt (fmt : Fmt) (strs : Elem → CStr) :
    (fmt.1.flatMap fun e => (strs e).1).length = strsLength strs := by
  rw [(fmt.2.flatMap_right _).length_eq]
  simp [strsLength, Nat.add_assoc]

theorem appendStr_eq {s : Bytes} (h : s.length < 2 ^ 31) (ds : Bytes) :
    appendStr ds s = ds ++ s := by
  have hint : int32 s.length = s.length := int32_of_range (by omega) (by omega)
  unfold appendStr
  rw [hint, Int.toNat_natCast, List.take_length]
  split_ifs with hpos
  · rfl
  · have hnil : s = [] := List.length_eq_zero_iff.mp (by omega)
    rw [hnil, List.append_nil]

/-- Strings that fit an `int` are appended one after the other. -/
theorem foldl_appendStr {strs : List Bytes} (h : ∀ s ∈ strs, s.length < 2 ^ 31) (ds : Bytes) :
    strs.foldl appendStr ds = ds ++ strs.flatten := by
  induction strs generalizing ds with
  | nil => simp
  | cons s strs ih =>
      rw [List.foldl_cons, appendStr_eq (h s (by simp)),
        ih (fun t ht => h t (List.mem_cons_of_mem _ ht)), List.flatten_cons, List.append_assoc]

/-- A string of a record is no longer than all of them. -/
theorem length_le_strsLength (strs : Elem → CStr) (e : Elem) :
    (strs e).1.length ≤ strsLength strs := by
  unfold strsLength
  cases e <;> omega

/-- A record whose strings fit an `int`: the header, and the strings in the order of the format. -/
theorem tclExport_eq {interp : Interp} {code : Int}
    (hfits : strsLength (interp.strs code) < 2 ^ 31) (ds : Bytes) (x_fmt : Option Fmt) :
    tclExport interp code ds x_fmt = ds ++ be32 code ++
      ((orDefault x_fmt).1.flatMap fun e => be32 (interp.strs code e).1.length) ++
      (orDefault x_fmt).1.flatMap fun e => (interp.strs code e).1 := by
  have hshort : ∀ e, (interp.strs code e).1.length < 2 ^ 31 :=
    fun e => Nat.lt_of_le_of_lt (length_le_strsLength _ e) hfits
  have hint : ∀ e, int32 (interp.strs code e).1.length = (interp.strs code e).1.length := by
    intro e
    have := hshort e
    exact int32_of_range (by omega) (by omega)
  unfold tclExport hdr
  rw [foldl_appendStr]
  · rw [List.flatMap_map]
    simp only [hint]
    rw [← List.flatMap_def]
    simp only [List.append_assoc]
  · intro s hs
    obtain ⟨e, -, rfl⟩ := List.mem_map.mp hs
    exact hshort e

/-- The header of a record with these words. -/
def header (code : Int) (l₁ l₂ l₃ : Nat) : Bytes := be32 code ++ be32 l₁ ++ be32 l₂ ++ be32 l₃

theorem hdrWord_header (code : Int) (l₁ l₂ l₃ : Nat) (tail : Bytes) :
    hdrWord (header code l₁ l₂ l₃ ++ tail) 0 = ofBe32 (be32 code) ∧
    hdrWord (header code l₁ l₂ l₃ ++ tail) 1 = ofBe32 (be32 l₁) ∧
    hdrWord (header code l₁ l₂ l₃ ++ tail) 2 = ofBe32 (be32 l₂) ∧
    hdrWord (header code l₁ l₂ l₃ ++ tail) 3 = ofBe32 (be32 l₃) :=
  ⟨rfl, rfl, rfl, rfl⟩

/-- The lengths of a header are read back. -/
theorem lens_header (code : Int) {l₁ l₂ l₃ : Nat} (hfits : l₁ + l₂ + l₃ < 2 ^ 31)
    (tail : Bytes) : [1, 2, 3].map (hdrWord (header code l₁ l₂ l₃ ++ tail)) = [l₁, l₂, l₃] := by
  obtain ⟨-, h₁, h₂, h₃⟩ := hdrWord_header code l₁ l₂ l₃ tail
  rw [ofBe32_be32_natCast (by omega)] at h₁ h₂ h₃
  simp [h₁, h₂, h₃]

/-- A sum of lengths in an `int`. -/
theorem sum_lens {l₁ l₂ l₃ : Nat} (hfits : l₁ + l₂ + l₃ < 2 ^ 31) :
    [l₁, l₂, l₃].foldl (fun (len : Int) (l : Nat) => int32 (len + l)) 0 =
      (l₁ + l₂ + l₃ : Nat) := by
  have hfirst : int32 (0 + (l₁ : Int)) = 0 + l₁ := int32_of_range (by omega) (by omega)
  have hsecond : int32 (0 + (l₁ : Int) + l₂) = 0 + l₁ + l₂ :=
    int32_of_range (by omega) (by omega)
  have hthird : int32 (0 + (l₁ : Int) + l₂ + l₃) = 0 + l₁ + l₂ + l₃ :=
    int32_of_range (by omega) (by omega)
  rw [List.foldl_cons, List.foldl_cons, List.foldl_cons, List.foldl_nil, hfirst, hsecond, hthird]
  omega

/-- **The strings of a record are handed to Tcl**, with its code. -/
theorem tclImport_record {code : Int} (strs : Elem → CStr) (hlo : -(2 ^ 31) ≤ code)
    (hhi : code < 2 ^ 31) (hfits : strsLength strs < 2 ^ 31) (x_fmt : Option Fmt) :
    tclImport (be32 code ++
        ((orDefault x_fmt).1.flatMap fun e => be32 (strs e).1.length) ++
        (orDefault x_fmt).1.flatMap fun e => (strs e).1) x_fmt =
      (code, handedAll strs x_fmt) := by
  have hlength := length_fmt (orDefault x_fmt) strs
  unfold tclImport handedAll
  obtain ⟨a, b, c, habc⟩ := fmt_cases (orDefault x_fmt)
  rw [habc] at hlength ⊢
  simp only [List.flatMap_cons, List.flatMap_nil, List.append_nil, List.length_append]
    at hlength ⊢
  have hsum : (strs a).1.length + (strs b).1.length + (strs c).1.length < 2 ^ 31 := by omega
  have hds : be32 code ++ (be32 (strs a).1.length ++ (be32 (strs b).1.length ++
      be32 (strs c).1.length)) ++ ((strs a).1 ++ ((strs b).1 ++ (strs c).1)) =
      header code (strs a).1.length (strs b).1.length (strs c).1.length ++
        ((strs a).1 ++ ((strs b).1 ++ (strs c).1)) := by
    simp [header]
  rw [hds, if_neg (by simp)]
  have hcode := (hdrWord_header code (strs a).1.length (strs b).1.length (strs c).1.length
    ((strs a).1 ++ ((strs b).1 ++ (strs c).1))).1
  rw [hcode, int32_ofBe32_be32, int32_of_range hlo hhi, unpack, lens_header code hsum]
  have hint : ∀ e, int32 (strs e).1.length = (strs e).1.length := by
    intro e
    have := length_le_strsLength strs e
    exact int32_of_range (by omega) (by omega)
  have hpasses := passes_spec [(c, (strs c).1), (b, (strs b).1), (a, (strs a).1)]
    (by
      intro f hf
      simp only [List.mem_cons, List.not_mem_nil, or_false] at hf
      obtain rfl | rfl | rfl := hf
      · exact (strs c).2
      · exact (strs b).2
      · exact (strs a).2)
    (by simpa [Nat.add_assoc] using hsum) [] []
  have hbody : [(c, (strs c).1), (b, (strs b).1), (a, (strs a).1)].reverse.flatMap Prod.snd =
      (strs a).1 ++ ((strs b).1 ++ (strs c).1) := by simp
  have htotal : ((strs a).1 ++ ((strs b).1 ++ (strs c).1)).length =
      (strs a).1.length + (strs b).1.length + (strs c).1.length := by simp [Nat.add_assoc]
  have hdrop : (header code (strs a).1.length (strs b).1.length (strs c).1.length ++
      ((strs a).1 ++ ((strs b).1 ++ (strs c).1))).drop 16 =
        (strs a).1 ++ ((strs b).1 ++ (strs c).1) := rfl
  rw [hbody, htotal, List.nil_append] at hpasses
  rw [sum_lens hsum, hdrop]
  simp only [List.map_cons, List.map_nil, hint, List.zip_cons_cons, List.zip_nil_left,
    List.reverse_cons, List.reverse_nil, List.nil_append, List.cons_append] at hpasses ⊢
  rw [hpasses]
  simp [List.filterMap_cons]

/-- The header of a record has the length of what is behind it. -/
theorem next_record (code : Int) (strs : Elem → CStr) (hfits : strsLength strs < 2 ^ 31)
    (x_fmt : Option Fmt) :
    (be32 code ++ (orDefault x_fmt).1.flatMap fun e => be32 (strs e).1.length).length = 16 ∧
    next (be32 code ++ (orDefault x_fmt).1.flatMap fun e => be32 (strs e).1.length) =
      ((orDefault x_fmt).1.flatMap fun e => (strs e).1).length := by
  have hlength := length_fmt (orDefault x_fmt) strs
  obtain ⟨a, b, c, habc⟩ := fmt_cases (orDefault x_fmt)
  rw [habc] at hlength ⊢
  have hsum : (strs a).1.length + (strs b).1.length + (strs c).1.length = strsLength strs := by
    simpa [Nat.add_assoc] using hlength
  have hhdr : be32 code ++ ([a, b, c].flatMap fun e => be32 (strs e).1.length) =
      header code (strs a).1.length (strs b).1.length (strs c).1.length := by
    simp [header]
  rw [hhdr]
  refine ⟨rfl, ?_⟩
  have hint : (strs a).1.length + (strs b).1.length + (strs c).1.length < 2 ^ 31 := by omega
  have hlens := lens_header code hint []
  have hsum' := sum_lens hint
  rw [List.append_nil] at hlens
  rw [← hlens, List.foldl_map] at hsum'
  rw [next, hlength, ← hsum]
  exact hsum'

/-- **A record is read whole**, however its bytes come, and nothing behind it is. -/
theorem readRecord_record (host : Order) {code : Int} (strs : Elem → CStr)
    (hfits : strsLength strs + 16 < 2 ^ 31) (x_fmt : Option Fmt) {pieces : List Bytes}
    {rest : Bytes} (hne : ∀ p ∈ pieces, p ≠ [])
    (hpieces : pieces.flatten = (be32 code ++
      ((orDefault x_fmt).1.flatMap fun e => be32 (strs e).1.length) ++
      (orDefault x_fmt).1.flatMap fun e => (strs e).1) ++ rest) :
    ∃ left, readRecord host true pieces = some (be32 code ++
        ((orDefault x_fmt).1.flatMap fun e => be32 (strs e).1.length) ++
        ((orDefault x_fmt).1.flatMap fun e => (strs e).1), left) ∧ left.flatten = rest := by
  have hlength := length_fmt (orDefault x_fmt) strs
  obtain ⟨hh16, hnext⟩ := next_record code strs (by omega) x_fmt
  generalize ((orDefault x_fmt).1.flatMap fun e => (strs e).1) = body at hlength hpieces hnext ⊢
  generalize be32 code ++ ((orDefault x_fmt).1.flatMap fun e => be32 (strs e).1.length) = h
    at hpieces hh16 hnext ⊢
  -- the header
  obtain ⟨left, hread, hleft, hleft_ne⟩ := readLoop_flatten hne 16 (by
    rw [hpieces, List.length_append, List.length_append]
    omega)
  rw [hpieces, List.append_assoc, List.take_left' hh16] at hread
  rw [hpieces, List.append_assoc, List.drop_left' hh16] at hleft
  -- the strings
  obtain ⟨left', hread', hleft', -⟩ := readLoop_flatten hleft_ne body.length (by
    rw [hleft, List.length_append]
    omega)
  rw [hleft, List.take_left' rfl] at hread'
  rw [hleft, List.drop_left' rfl] at hleft'
  refine ⟨left', ?_, hleft'⟩
  have hall : (int32 (16 + (body.length : Int))).toNat = 16 + body.length := by
    rw [int32_of_range (by omega) (by omega)]
    omega
  rw [readRecord, hread, Option.bind_some]
  show (readLoop left (next h).toNat).map
    (fun r => (h.take (int32 (16 + next h)).toNat ++ r.1, r.2)) = some (h ++ body, left')
  rw [hnext, Int.toNat_natCast, hread', Option.map_some, hall,
    List.take_of_length_le (by omega)]

/-- **A script's result survives the wire.** For every code, all strings without NUL, every format
and however the bytes of the record come, both readers read the record and no more, and the import
gives the code and hands Tcl the strings that were sent: the result, and for a code other than
`TCL_OK` the two of the error when they are not empty. -/
theorem export_round_trip (host : Order) (interp : Interp) {code : Int} (hlo : -(2 ^ 31) ≤ code)
    (hhi : code < 2 ^ 31) (hfits : strsLength (interp.strs code) + 16 < 2 ^ 31)
    (x_fmt : Option Fmt) {pieces : List Bytes} {rest : Bytes} (hne : ∀ p ∈ pieces, p ≠ [])
    (hpieces : pieces.flatten = tclExport interp code [] x_fmt ++ rest) :
    ∃ ds left, tclRead host true pieces = some (ds, left) ∧
      tclRecv host pieces = some (ds, left) ∧ left.flatten = rest ∧
      tclImport ds x_fmt = (code, handedAll (interp.strs code) x_fmt) := by
  rw [tclExport_eq (by omega), List.nil_append] at hpieces
  obtain ⟨left, hread, hleft⟩ := readRecord_record host _ hfits x_fmt hne hpieces
  exact ⟨_, left, hread, hread, hleft, tclImport_record _ hlo hhi (by omega) x_fmt⟩

/-- A record is a header, which has the length of what is behind it, and the strings. -/
theorem tclExport_cut (interp : Interp) {code : Int}
    (hfits : strsLength (interp.strs code) < 2 ^ 31) (x_fmt : Option Fmt) :
    ∃ h body, tclExport interp code [] x_fmt = h ++ body ∧ h.length = 16 ∧
      next h = body.length := by
  obtain ⟨hh16, hnext⟩ := next_record code (interp.strs code) hfits x_fmt
  refine ⟨_, _, ?_, hh16, hnext⟩
  rw [tclExport_eq hfits, List.nil_append]

/-- A record that is imported. -/
theorem tclImport_tclExport (interp : Interp) {code : Int} (hlo : -(2 ^ 31) ≤ code)
    (hhi : code < 2 ^ 31) (hfits : strsLength (interp.strs code) < 2 ^ 31) (x_fmt : Option Fmt) :
    tclImport (tclExport interp code [] x_fmt) x_fmt =
      (code, handedAll (interp.strs code) x_fmt) := by
  rw [tclExport_eq hfits, List.nil_append]
  exact tclImport_record _ hlo hhi hfits x_fmt

/-- An error with both variables, in pieces of one byte and of two. -/
theorem export_round_trip_error :
    ∃ ds left, tclRead .little true [[0], [0, 0], [1, 0, 0, 0], [1, 0, 0, 0, 2, 0, 0], [0, 1, 69],
        [73, 73, 82, 7]] = some (ds, left) ∧
      tclRecv .little [[0], [0, 0], [1, 0, 0, 0], [1, 0, 0, 0, 2, 0, 0], [0, 1, 69],
        [73, 73, 82, 7]] = some (ds, left) ∧
      left.flatten = [7] ∧
      tclImport ds none = (1, handedAll (Interp.strs ⟨⟨[82], by decide⟩, some ⟨[69], by decide⟩,
        some ⟨[73, 73], by decide⟩⟩ 1) none) :=
  export_round_trip .little ⟨⟨[82], by decide⟩, some ⟨[69], by decide⟩, some ⟨[73, 73], by decide⟩⟩
    (by decide) (by decide) (by decide) none (by decide) (by decide)

/-- With the code `TCL_OK` the variables are not sent, though the interpreter holds them. -/
theorem export_ok_drops_errors :
    (tclImport (tclExport ⟨⟨[82], by decide⟩, some ⟨[69], by decide⟩, some ⟨[73], by decide⟩⟩ 0 []
      none) none).2 ≠
      handedAll (Interp.held ⟨⟨[82], by decide⟩, some ⟨[69], by decide⟩, some ⟨[73], by decide⟩⟩)
        none := by
  decide

end Nsdci.TclExport
