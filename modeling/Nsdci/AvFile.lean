import Nsdci.Lib.Decimal
import Nsdci.Lib.Search
import Nsdci.Lib.StringTable
import Nsdci.TclExport
import Nsdci.TclList

/-!
# AV files (`av.c`, `list.c`)

An AV file has a text that tells about it, the lengths of the strings of two lists of keys and
values, and the strings. `AvCreateCmd` sorts the lists and writes the file. `AvGet` maps it, looks
for the end of the text, and makes the lengths pointers to the strings; `Dci_ListSearch` then
searches a list by its keys.

The text is followed by zeros up to the lengths. Where these begin is computed by the writer from
the length of the text, and by the reader from where the text ends with a form feed between
newlines.
-/

namespace Nsdci.AvFile

open Lib
open TclExport (Order)

/-! ## Words of the host -/

/-- The bytes of a word of the host. -/
def store (host : Order) (n : Nat) : Bytes :=
  match host with
  | .big => be32 n
  | .little => (be32 n).reverse

/-- `htonl`: the word whose bytes are those of the number in network byte order. -/
def htonl (host : Order) (n : Nat) : Nat := host.word (be32 n)

/-- `ntohl`. -/
def ntohl (host : Order) (n : Nat) : Nat := ofBe32 (store host n)

/-! ## Lists (`list.c`) -/

/-- `Dci_Elem`: a key and its value. -/
abbrev Pair := CStr × CStr

/-- `CmpElem`. -/
def cmpElem (e1 e2 : Pair) : Int := strcmp e1.1.1 e2.1.1

/-- The elements of a list, two by two. -/
def pairsOf : List CStr → List Pair
  | key :: value :: listv => (key, value) :: pairsOf listv
  | _ => []

/-- `Dci_ListInit`. -/
def listInit (splitList : Bytes → Option (List CStr)) (qsort : QSort Pair cmpElem) (list : Bytes) :
    Option (List Pair) :=
  (splitList list).bind fun listv =>
    if listv.length % 2 = 1 then none else some (qsort.sort (pairsOf listv))

/-- The strings of a list, as an array of them. -/
def listv (l : List Pair) : List CStr := l.flatMap fun e => [e.1, e.2]

/-! ## The writer -/

/-- The host: its byte order, the size of an `Av`, its name, and what `ns_ctime` returns, in which
no form feed is. -/
structure Env where
  host : Order
  sizeofAv : Nat
  hostname : CStr
  ctime : CStr
  ctime_noFeed : 12 ∉ ctime.1

/-- `Tcl_DStringStartSublist`. -/
def startSublist (ds : Bytes) : Bytes :=
  match ds.getLast? with
  | some c => if isListSpace c then ds ++ [123] else ds ++ [32, 123]
  | none => [123]

/-- `AppendMeta`. -/
def appendMeta (ds str : Bytes) (max : Nat) : Bytes :=
  let len := str.length
  let n := if max < len then max else len
  let nl := (str.takeWhile (· ≠ 10)).length
  let n := if nl < n then nl else n
  let ds := startSublist ds ++ str.take n
  (if n < len then ds ++ ascii " ..." else ds) ++ [125]

/-- The text of `AppendHdr`, before the list of the first ten elements of the meta data. -/
def headerTop (env : Env) (file : CStr) (nmeta nkeys : Nat) : Bytes :=
  ascii "!av" ++ ascii "\n# ident: " ++ ascii "$Id$" ++ ascii "\n# file:  " ++ file.1 ++
    ascii "\n# built: " ++ env.ctime.1 ++ ascii "# host:  " ++ env.hostname.1 ++
    ascii "\n# nkeys: " ++ decimal nkeys ++ ascii "\n# nmeta: " ++ decimal nmeta ++
    ascii "\n# meta:"

/-- The text of `AppendHdr`. -/
def headerText (env : Env) (file : CStr) (metaPtr dataPtr : List Pair) : Bytes :=
  let ds := (metaPtr.take 10).foldl
    (fun ds e => appendMeta (appendMeta (ds ++ ascii "\n#  ") e.1.1 20) e.2.1 60)
    (headerTop env file metaPtr.length dataPtr.length)
  let ds := if 10 < metaPtr.length then ds ++ ascii "\n#  ..." else ds
  ds ++ ascii "\n#\n" ++ [12, 10]

/-- `AppendHdr`. What is between the text and the size of an `Av` is not written: it is what was in
memory. -/
def appendHdr (env : Env) (junk : Nat → UInt8) (file : CStr) (metaPtr dataPtr : List Pair) :
    Bytes :=
  let ds := headerText env file metaPtr dataPtr
  let n := if ds.length < env.sizeofAv then env.sizeofAv else ds.length
  let i := (n / 8 + 1) * 8
  ds ++ (List.range (n - ds.length)).map junk ++ List.replicate (i - n) 0

/-- `AppendLengths`, with the offset of the lengths. -/
def appendLengths (host : Order) (ds : Bytes) (list : List Pair) : Bytes × Nat :=
  (ds ++ store host (htonl host (listv list).length) ++
    (listv list).flatMap fun s => store host (s.1.length + 1), ds.length)

/-- The loop of `AppendStrings`: a length is put into network byte order, and as many bytes of the
string are copied. -/
def appendStrings (host : Order) (ds : Bytes) : List CStr → Nat → Bytes
  | [], _ => ds
  | s :: listv, up =>
      let n := host.word ((ds.drop up).take 4)
      appendStrings host
        (ds.take up ++ store host (htonl host n) ++ ds.drop (up + 4) ++ (asciz s.1).take n)
        listv (up + 4)

/-- The file of two lists. -/
def written (env : Env) (junk : Nat → UInt8) (file : CStr) (metaPtr dataPtr : List Pair) : Bytes :=
  let m := appendLengths env.host (appendHdr env junk file metaPtr dataPtr) metaPtr
  let d := appendLengths env.host m.1 dataPtr
  let ds := appendStrings env.host d.1 (listv metaPtr) (m.2 + 4)
  appendStrings env.host ds (listv dataPtr) (d.2 + 4)

/-- The length of the file: the one that `AppendLengths` and `AppendStrings` set. -/
def fileLength (env : Env) (file : CStr) (metaPtr dataPtr : List Pair) : Nat :=
  (appendHdr env (fun _ => 0) file metaPtr dataPtr).length + 4 * ((listv metaPtr).length + 1) +
    4 * ((listv dataPtr).length + 1) + (lengths (listv metaPtr)).sum + (lengths (listv dataPtr)).sum

/-- `AvCreateCmd`: the file it writes. The length of a `Tcl_DString` is an `int`. -/
def avCreateCmd (env : Env) (junk : Nat → UInt8) (splitList : Bytes → Option (List CStr))
    (qsort : QSort Pair cmpElem) (file : CStr) (data : Bytes) (metastr : Option Bytes) :
    Option Bytes :=
  (listInit splitList qsort data).bind fun dataPtr =>
    (listInit splitList qsort (metastr.getD [])).bind fun metaPtr =>
      if fileLength env file metaPtr dataPtr < 2 ^ 31 then
        some (written env junk file metaPtr dataPtr)
      else none

/-! ## The reader -/

/-- The end of the text: a newline, a form feed and a newline. -/
def hdrEnd : Bytes := [10, 12, 10]

/-- Where the text ends in a mapped file, which is not looked for behind a NUL. -/
def findHdrEnd : Bytes → Option Nat
  | [] => none
  | c :: map =>
      if c = 0 then none
      else if hdrEnd <+: c :: map then some 0
      else (findHdrEnd map).map (· + 1)

/-- The word in network byte order at an offset, when it is in the file. -/
def ntohlAt (host : Order) (map : Bytes) (off : Int) : Option Nat :=
  if 0 ≤ off ∧ off + 4 ≤ map.length then
    some (ntohl host (host.word ((map.drop off.toNat).take 4)))
  else none

/-- `Dci_Elem` of a mapped file: where its strings are. -/
structure Elem where
  key : Nat
  value : Nat
  deriving DecidableEq

/-- Pointers, two by two. -/
def elems : List Nat → List Elem
  | key :: value :: ps => ⟨key, value⟩ :: elems ps
  | _ => []

/-- The lists of an `Av`. -/
structure Av where
  metaElems : List Elem
  dataElems : List Elem
  deriving DecidableEq

/-- The lengths behind the number of them. -/
def lengthsAt (host : Order) (map : Bytes) (off : Int) (n : Nat) : Option (List Nat) :=
  (List.range n).mapM fun k : Nat => ntohlAt host map (off + 4 * (k + 1))

/-- What `AvGet` makes of a mapped file. It is `none` when the text has no end, when it reads or
points outside of the file, when a list has less than no elements, and when the `Av`, which is put
over the text, is put over pointers too. -/
def avGet (env : Env) (map : Bytes) : Option Av :=
  (findHdrEnd map).bind fun str =>
    let metav : Int := ((str / 8 + 1) * 8 : Nat)
    (ntohlAt env.host map metav).bind fun metaw =>
      let metac := int32 metaw
      let listv := metav + 4 * (metac + 1)
      (ntohlAt env.host map listv).bind fun listw =>
        let listc := int32 listw
        let str := listv + 4 * (listc + 1)
        if metac.tdiv 2 < 0 ∨ listc.tdiv 2 < 0 then none
        else if 0 < metac ∧ metav < env.sizeofAv ∨ 0 < listc ∧ listv < env.sizeofAv then none
        else
          (lengthsAt env.host map metav metac.toNat).bind fun metas =>
            (lengthsAt env.host map listv listc.toNat).map fun datas =>
              ⟨elems (pointers str.toNat metas), elems (pointers (str.toNat + metas.sum) datas)⟩

/-- The strings of an element. -/
def pairAt (map : Bytes) (e : Elem) : Option (Bytes × Bytes) :=
  (stringAt map e.key).bind fun key => (stringAt map e.value).map fun value => (key, value)

/-- `Dci_ListSearch`, for a list whose keys are in the file. -/
def listSearch (map : Bytes) (list : List Elem) (key : CStr) : Option Elem :=
  bsearch (fun e => strcmp key.1 ((stringAt map e.key).getD [])) list.length list

end Nsdci.AvFile
