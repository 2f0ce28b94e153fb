import Nsdci.Lib.CString
import Nsdci.Lib.Decimal

/-!
# HTTP responses (`http.c`)

`HttpProc` collects what it reads in `rbuf` until there is a blank line, and hands what is behind it
to the copy procedure, as all that is read later. `HttpParse` then takes the status and the headers
from `rbuf`.

In what was read so far, CR LF CR LF is looked for first, and two LF only when there is none: with
an early blank line of the second kind, it depends on the reads which is found.
-/

namespace Nsdci.Http

open Lib

/-- The sizes of the read buffer: the configuration takes no others. -/
abbrev BufSize := { n : Nat // 0 < n }

/-- What a request has of its response. `rbuf` has a NUL at the end of the header once it is found,
and `copied` is what the copy procedure was given. -/
structure Reply where
  rbuf : Bytes
  eoh : Bool
  copied : Bytes

/-- The end of a header, and the blank line behind it. -/
def crlfCrlf : Bytes := [13, 10, 13, 10]

/-- The same without CR. -/
def lfLf : Bytes := [10, 10]

/-- Where the header ends in a string, and how much of the blank line is on either side. -/
def findEoh (s : Bytes) : Option (Nat × Nat) :=
  match strstr crlfCrlf s with
  | some eoh => some (eoh, 2)
  | none => (strstr lfLf s).map fun eoh => (eoh, 1)

/-- `HttpProc` when it has read some bytes. -/
def httpProc (h : Reply) (buf : Bytes) : Reply :=
  if h.eoh then { h with copied := h.copied ++ buf }
  else
    let rbuf := h.rbuf ++ buf
    match findEoh (cstr rbuf) with
    | none => { h with rbuf := rbuf }
    | some (eoh, skip) =>
        let start := eoh + skip * 2
        ⟨(rbuf.set (eoh + skip) 0).take start, true, h.copied ++ rbuf.drop start⟩

/-! ## `HttpParse` -/

/-- White space, for `sscanf`. -/
def isBlank (c : UInt8) : Bool := c = 32 || (9 ≤ c && c ≤ 13)

/-- `%d` of `sscanf`: a number and what is behind it. -/
def scanInt (s : Bytes) : Option (Int × Bytes) :=
  let s := s.dropWhile isBlank
  let sign := match s with
    | 45 :: s => (-1, s)
    | 43 :: s => (1, s)
    | s => ((1 : Int), s)
  let digits := sign.2.takeWhile fun c => 48 ≤ c && c ≤ 57
  if digits = [] then none else some (sign.1 * digitsValue digits, sign.2.drop digits.length)

/-- A character of the format of `sscanf` that stands for itself. -/
def scanChar (c : UInt8) : Bytes → Option Bytes
  | x :: s => if x = c then some s else none
  | [] => none

/-- `sscanf (boh, "HTTP/%d.%d %d")`: the third number. -/
def scanStatus (boh : Bytes) : Option Int := do
  let s ← (ascii "HTTP/").foldlM (fun s c => scanChar c s) boh
  let major ← scanInt s
  let s ← scanChar 46 major.2
  let minor ← scanInt s
  let status ← scanInt (minor.2.dropWhile isBlank)
  some status.1

/-- The lines that have an end, without CR LF. The first argument is the line so far. -/
def headerLines (line : Bytes) : Bytes → List Bytes
  | [] => []
  | c :: s =>
      if c = 10 then (if line.getLast? = some 13 then line.dropLast else line) :: headerLines [] s
      else headerLines (line ++ [c]) s

section Parse

-- `Ns_ParseHeader`: a set with one more header, and `none` when the line is none
variable {H : Type} (nsParseHeader : H → Bytes → Option H)

/-- Add headers up to the first line that is none. -/
def addHeaders (hdrs : H) : List Bytes → H
  | [] => hdrs
  | line :: lines =>
      match nsParseHeader hdrs line with
      | some hdrs => addHeaders hdrs lines
      | none => hdrs

/-- What a command gets of a response. The header is the text that `HttpParse` has read. -/
structure Delivered (H : Type) where
  header : Bytes
  status : Option Int
  name : Option Bytes
  hdrs : H
  content : Bytes

/-- `HttpParse` of a header, with its content: the first line is the name of the set. -/
def httpParse (hdrs : H) (header content : Bytes) : Delivered H :=
  let lines := headerLines [] header
  ⟨header, scanStatus header, lines.head?, addHeaders nsParseHeader hdrs lines.tail, content⟩

/-- What is delivered of a response that arrived in these reads. -/
def deliver (hdrs : H) (reads : List Bytes) : Delivered H :=
  let h := reads.foldl httpProc ⟨[], false, []⟩
  httpParse nsParseHeader hdrs (cstr h.rbuf) h.copied

end Parse

/-! ## Header and content -/

/-- The first blank line of a text, at the start of a line or not: the text before it and what is
behind it. -/
def splitHeader (start : Bool) : Bytes → Option (Bytes × Bytes)
  | [] => none
  | c :: s =>
      if start ∧ c = 10 then some ([], s)
      else if start ∧ c = 13 ∧ s.head? = some 10 then some ([], s.tail)
      else (splitHeader (c = 10) s).map fun r => (c :: r.1, r.2)

/-- A response as the reads of it: some bytes each, as many as the buffer takes. -/
structure Reads (bufsize : BufSize) (response : Bytes) (reads : List Bytes) : Prop where
  flatten : reads.flatten = response
  sizes : ∀ buf ∈ reads, buf ≠ [] ∧ buf.length ≤ bufsize

/-- All ways to read a response deliver the same, and this is its header and its content. -/
structure Right {H : Type} (nsParseHeader : H → Bytes → Option H) (hdrs : H) (bufsize : BufSize)
    (response : Bytes) : Prop where
  same : ∀ reads reads', Reads bufsize response reads → Reads bufsize response reads' →
    deliver nsParseHeader hdrs reads = deliver nsParseHeader hdrs reads'
  split : ∀ header content, splitHeader true response = some (header, content) →
    ∀ reads, Reads bufsize response reads →
      deliver nsParseHeader hdrs reads = httpParse nsParseHeader hdrs header content

/-- The header has no NUL. If the blank line has a CR, so has the end of the line before it. If it
has none, there is a line before it, and what one read can bring behind it has no CR LF CR LF. -/
def Plain (bufsize : BufSize) (response : Bytes) : Prop :=
  ∀ header content, splitHeader true response = some (header, content) →
    NulFree header ∧
      (response = header ++ 13 :: 10 :: content → [13, 10] <:+ header) ∧
      (response = header ++ 10 :: content → header ≠ [] ∧
        ∀ j, strstr crlfCrlf (cstr content) = some j → bufsize < j + 5)

end Nsdci.Http
