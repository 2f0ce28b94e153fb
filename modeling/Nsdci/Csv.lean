import Nsdci.DString
import Nsdci.TclList

/-!
# Comma-separated values (`dciadmin/csv.c`)

`CsvGet` reads lines into a dynamic string until no quoted field is open, and cuts them at the
commas outside quotes. `s` points to the start of a field in the string. When the string moves
before the field is complete, `s` points to where the string was.

The bytes `CsvAppend` writes into the string are in front of what is read of it later.
-/

namespace Nsdci.Csv

open Lib

/-- What `realloc` does during a call: whether a block becomes larger in its place, by the length it
must have, and what is later found in a block that was given back. -/
structure Realloc where
  inPlace : Nat → Bool
  freed : Nat → Nat → Bytes

/-- `dsLine`. Block 0 is the space in the structure, which keeps what was in it when the string
moved (`left`). -/
structure Line where
  string : Bytes
  spaceAvl : Nat
  block : Nat
  left : Bytes

/-- What `CsvGet` has beside `dsLine` and `p`. -/
structure Scan where
  inquote : Bool
  s : Ptr Nat
  ds : Bytes
  cols : Nat

/-- `nColumns`, and the list of fields. -/
structure Columns where
  nColumns : Int
  ds : Bytes
  deriving DecidableEq

variable (tcl : TclList) (lib : DStringLib) (realloc : Realloc)

/-- `Tcl_DStringInit`. -/
def Line.init : Line := ⟨[], lib.staticSize, 0, []⟩

/-- `Tcl_DStringAppend`. -/
def Line.append (line : Line) (bytes : Bytes) : Line :=
  let newSize := line.string.length + bytes.length
  if newSize < line.spaceAvl then { line with string := line.string ++ bytes }
  else if line.block = 0 then
    ⟨line.string ++ bytes, lib.grow line.spaceAvl newSize, 1, line.string⟩
  else
    ⟨line.string ++ bytes, lib.grow line.spaceAvl newSize,
      if realloc.inPlace newSize then line.block else line.block + 1, line.left⟩

/-- The string at `s`, with a NUL at `p`. -/
def Line.field (line : Line) (s : Ptr Nat) (p : Nat) : Bytes :=
  if s.block = line.block then cstr ((line.string.take p).drop s.off)
  else if s.block = 0 then cstr (line.left.drop s.off)
  else cstr (realloc.freed s.block s.off)

/-! ## `CsvAppend` -/

def quote : UInt8 := 34
def comma : UInt8 := 44
def newline : UInt8 := 10

/-- Every pair of quotes becomes one. -/
def undouble : Bytes → Bytes
  | [] => []
  | [b] => [b]
  | a :: b :: s => if a = quote ∧ b = quote then quote :: undouble s else a :: undouble (b :: s)

/-- What `CsvAppend` makes of a field. -/
def unquoted (s : Bytes) : Bytes :=
  undouble (if s.head? = some quote ∧ s.getLast? = some quote then s.dropLast.drop 1 else s)

/-- `CsvAppend`. -/
def csvAppend (ds field : Bytes) : Bytes := tcl.appendElement ds (unquoted field)

/-! ## `CsvGet` -/

/-- A field ends at `p`. -/
def Scan.append (st : Scan) (line : Line) (p : Nat) : Scan :=
  { st with ds := csvAppend tcl st.ds (line.field realloc st.s p), cols := st.cols + 1 }

/-- A byte that is no pair of quotes. -/
def Scan.step (st : Scan) (line : Line) (p : Nat) (b : UInt8) : Scan :=
  if b = quote then { st with inquote := !st.inquote }
  else if b = comma ∧ st.inquote = false then
    { st.append tcl realloc line p with s := ⟨line.block, p + 1⟩ }
  else st

/-- The rest of a line, from `p` on. -/
def scan (line : Line) : Scan → Nat → Bytes → Scan
  | st, _, [] => st
  | st, p, [b] => st.step tcl realloc line p b
  | st, p, a :: b :: rest =>
      if a = quote ∧ b = quote then scan line st (p + 2) rest
      else scan line (st.step tcl realloc line p a) (p + 1) (b :: rest)

/-- `CsvGet` from `Tcl_Gets` on, with the lines that are left of the channel. -/
def getLines (line : Line) (st : Scan) : List Bytes → Columns × List Bytes
  | [] => (⟨-1, st.ds⟩, [])
  | text :: lines =>
      let len := line.string.length
      let line := line.append lib realloc text
      let opened := st.inquote = false ∧ text.head? = some quote
      let st := if st.inquote then st else { st with inquote := opened, s := ⟨line.block, len⟩ }
      let st := if opened then scan tcl realloc line st (len + 1) (text.drop 1)
        else scan tcl realloc line st len text
      if st.inquote then getLines (line.append lib realloc [newline]) st lines
      else
        let st := st.append tcl realloc line line.string.length
        (⟨st.cols, st.ds⟩, lines)

/-- `CsvGet`. -/
def csvGet (lines : List Bytes) : Columns × List Bytes :=
  getLines tcl lib realloc (Line.init lib) ⟨false, ⟨0, 0⟩, [], 0⟩ lines

/-- The lines `Tcl_Gets` finds in a text. -/
def channelLines : Bytes → List Bytes
  | [] => []
  | b :: text =>
      if b = newline then [] :: channelLines text
      else
        match channelLines text with
        | [] => [[b]]
        | line :: lines => (b :: line) :: lines

end Nsdci.Csv
