import Nsdci.Img.Cache
import Nsdci.Lib.CString
import Nsdci.Lib.Newline
import Nsdci.Lib.Word

/-!
# Image files

What a GIF, a BMP and a JPEG file are, as far as their width and height go (`HasDims`), and which of
them come through Tcl's input translation and the lost byte of the first marker (`Kept`).
-/

namespace Nsdci.Img

open Lib

/-- Width and height. -/
abbrev Dims := Int × Int

/-- A number of two bytes, the low one first. -/
def le16 (file : Bytes) (k : Nat) : Nat := ofBe16 [file.getD (k + 1) 0, file.getD k 0]

/-- A number of four bytes, the low one first. -/
def le32 (file : Bytes) (k : Nat) : Nat :=
  ofBe32 [file.getD (k + 3) 0, file.getD (k + 2) 0, file.getD (k + 1) 0, file.getD k 0]

/-- The type the first bytes stand for. -/
def signature (file : Bytes) : Option ImgType :=
  if [0xff, 0xd8] <+: file then some .jpeg
  else if ascii "GIF" <+: file then some .gif
  else if ascii "BM" <+: file then some .bmp
  else none

/-- The size in the header and the screen descriptor of a GIF file. -/
def gifDims (file : Bytes) : Option Dims :=
  if (file.take 6 = ascii "GIF87a" ∨ file.take 6 = ascii "GIF89a") ∧ 13 ≤ file.length then
    some (le16 file 6, le16 file 8)
  else none

/-- The size of the second header of a BMP file. -/
def bmpHeaderSize (file : Bytes) : Nat := le32 file 14

/-- The size in the second header of a BMP file. The oldest headers, of 12 bytes, have two bytes for
each side. -/
def bmpDims (file : Bytes) : Option Dims :=
  if file.take 2 = ascii "BM" ∧ 26 ≤ file.length ∧ 14 + bmpHeaderSize file ≤ file.length then
    if bmpHeaderSize file = 12 then
      if le16 file 22 = 1 then some (le16 file 18, le16 file 20) else none
    else if 16 ≤ bmpHeaderSize file ∧ le16 file 26 = 1 then
      some (int32 (le32 file 18), int32 (le32 file 22))
    else none
  else none

/-! ## JPEG -/

/-- The markers of frame headers. -/
def IsFrame (code : UInt8) : Prop :=
  0xc0 ≤ code ∧ code ≤ 0xcf ∧ code ≠ 0xc4 ∧ code ≠ 0xc8 ∧ code ≠ 0xcc

instance (code : UInt8) : Decidable (IsFrame code) := inferInstanceAs (Decidable (_ ∧ _))

/-- The markers that no segment follows: `TEM`, `RST0` to `RST7`, `SOI` and `EOI`. -/
def IsAlone (code : UInt8) : Prop := code = 0x01 ∨ 0xd0 ≤ code ∧ code ≤ 0xd9

instance (code : UInt8) : Decidable (IsAlone code) := inferInstanceAs (Decidable (_ ∨ _))

/-- A segment before the frame header, with its fill bytes. -/
structure Segment where
  fill : Nat
  code : UInt8
  content : Bytes
  notZero : code ≠ 0
  notFill : code ≠ 0xff
  notFrame : ¬IsFrame code
  notAlone : ¬IsAlone code
  notScan : code ≠ 0xda
  fits : content.length + 2 < 65536

/-- The length, and what it is the length of. -/
def Segment.body (segment : Segment) : Bytes :=
  be16 (segment.content.length + 2 : Nat) ++ segment.content

/-- A segment behind the first `FF`. -/
def Segment.tail (segment : Segment) : Bytes :=
  List.replicate segment.fill 0xff ++ segment.code :: segment.body

/-- The segments as they stand in the file. -/
def segmentBytes (segments : List Segment) : Bytes :=
  segments.flatMap fun segment => 0xff :: segment.tail

/-- A frame header. `components` is what follows the width. -/
structure Frame where
  fill : Nat
  code : UInt8
  precision : UInt8
  height : UInt8 × UInt8
  width : UInt8 × UInt8
  components : Bytes
  frame : IsFrame code
  fits : components.length + 7 < 65536

/-- The bytes of height and width. -/
def Frame.dimBytes (frame : Frame) : Bytes :=
  [frame.height.1, frame.height.2, frame.width.1, frame.width.2]

/-- A frame header behind the first `FF`, up to the width. -/
def Frame.tail (frame : Frame) : Bytes :=
  List.replicate frame.fill 0xff ++
    frame.code :: be16 (frame.components.length + 7 : Nat) ++ frame.precision :: frame.dimBytes

/-- The size in a frame header. -/
def Frame.dims (frame : Frame) : Dims :=
  (ofBe16 [frame.width.1, frame.width.2], ofBe16 [frame.height.1, frame.height.2])

/-- Segments, the first frame header, and what follows. -/
structure Jpeg where
  segments : List Segment
  frame : Frame
  rest : Bytes

def Jpeg.bytes (jpeg : Jpeg) : Bytes :=
  0xff :: 0xd8 :: (segmentBytes jpeg.segments ++ 0xff :: jpeg.frame.tail ++
    (jpeg.frame.components ++ jpeg.rest))

/-! ## What is expected, and of which files -/

/-- A file of this type is well-formed, and has this width and height. -/
def HasDims (type : ImgType) (file : Bytes) (dims : Dims) : Prop :=
  match type with
  | .gif => gifDims file = some dims
  | .bmp => bmpDims file = some dims
  | .jpeg => ∃ jpeg : Jpeg, file = jpeg.bytes ∧ dims = jpeg.frame.dims
  | .art => False

/-- What a file of this type is expected to load as. -/
def Loads (type : ImgType) (file : Bytes) (loaded : Option (ImgType × Int × Int)) : Prop :=
  (∀ dims, HasDims type file dims → loaded = some (type, dims)) ∧
    ((∀ dims, ¬HasDims type file dims) → loaded = none)

/-- Segments and a frame header whose lengths and size have no carriage return, with no line feed
behind one. -/
structure Clean (segments : List Segment) (frame : Frame) : Prop where
  crLf : ¬CrLf (segmentBytes segments ++ 0xff :: frame.tail)
  lengths : ∀ segment ∈ segments, 13 ∉ be16 (segment.content.length + 2 : Nat)
  dims : 13 ∉ frame.dimBytes

/-- The first marker has a fill byte, or it can be passed by because it starts no frame header and
no `FF` follows it before the next marker. -/
def InStep (jpeg : Jpeg) : Prop :=
  match jpeg.segments with
  | [] => 0 < jpeg.frame.fill ∧ Clean [] jpeg.frame
  | segment :: segments =>
      0 < segment.fill ∧ Clean (segment :: segments) jpeg.frame ∨
        segment.fill = 0 ∧ 0xff ∉ segment.body ∧ Clean segments jpeg.frame

/-- The size of the file comes through: a GIF file has no carriage return in it, a BMP file neither,
with a header that is not of the oldest kind, and a JPEG file is in step. A file that is not
well-formed ends before its third byte. -/
def Kept (type : ImgType) (file : Bytes) : Prop :=
  ((∀ dims, ¬HasDims type file dims) ∧ file.length < 3) ∨
    (∃ dims, HasDims type file dims) ∧
      match type with
      | .gif => 13 ∉ (file.drop 6).take 4
      | .bmp => bmpHeaderSize file ≠ 12 ∧ 13 ∉ (file.drop 18).take 8
      | .jpeg => ∃ jpeg : Jpeg, file = jpeg.bytes ∧ InStep jpeg
      | .art => True

end Nsdci.Img
