import Nsdci.Img.Format

/-!
# The sizes of images (`img.c`)

`ImgStat` opens a file that is not in the cache with Tcl's input translation, takes its type from
the first three bytes, and calls the routine of the type. These say whether they found a size.
`ImgStat` does not ask: when there is none the width and the height are what was on the stack.
-/

namespace Nsdci.Img

open Lib

/-- `GetImgType`, of what the channel gives. -/
def getImgType (chan : Bytes) : Option ImgType :=
  match chan.take 3 with
  | [a, b, c] =>
      if a = 0xff ∧ b = 0xd8 then some .jpeg
      else if a = 71 ∧ b = 73 ∧ c = 70 then some .gif
      else if a = 74 ∧ b = 71 then some .art
      else if a = 66 ∧ b = 77 then some .bmp
      else none
  | _ => none

/-- What the channel gives from a place on (`Tcl_Seek`). -/
def seek (file : Bytes) (offset : Nat) : Bytes := eol false (file.drop offset)

/-- `GifSize`. -/
def gifSize (file : Bytes) : Option Dims :=
  match (seek file 6).take 4 with
  | [a, b, c, d] => some ((b.toNat <<< 8 ||| a.toNat : Nat), (d.toNat <<< 8 ||| c.toNat : Nat))
  | _ => none

/-- `BmpSize`. -/
def bmpSize (file : Bytes) : Option Dims :=
  match (seek file 18).take 8 with
  | [a, b, c, d, e, f, g, h] =>
      some (int32 (d.toNat <<< 24 ||| c.toNat <<< 16 ||| b.toNat <<< 8 ||| a.toNat : Nat),
        int32 (h.toNat <<< 24 ||| g.toNat <<< 16 ||| f.toNat <<< 8 ||| e.toNat : Nat))
  | _ => none

/-! ## JPEG -/

/-- `read_1_byte`. -/
def read1Byte : Bytes → Option (UInt8 × Bytes)
  | [] => none
  | c :: chan => some (c, chan)

/-- `read_2_bytes`. -/
def read2Bytes (chan : Bytes) : Option (Nat × Bytes) := do
  let (c1, chan) ← read1Byte chan
  let (c2, chan) ← read1Byte chan
  return (c1.toNat <<< 8 + c2.toNat, chan)

/-- `next_marker`. -/
def nextMarker (chan : Bytes) : Option (UInt8 × Bytes) := do
  let (_, chan) ← read1Byte (chan.dropWhile (· ≠ 0xff))
  read1Byte (chan.dropWhile (· = 0xff))

/-- `skip_variable`. The length is an `unsigned int`: below two it gets very large. -/
def skipVariable (chan : Bytes) : Option Bytes := do
  let (length, chan) ← read2Bytes chan
  let length := (length + 4294967294) % 4294967296
  if length ≤ chan.length then return chan.drop length else none

/-- The markers of frames, `M_SOF0` to `M_SOF15`. -/
def mSof : List UInt8 :=
  [0xc0, 0xc1, 0xc2, 0xc3, 0xc5, 0xc6, 0xc7, 0xc9, 0xca, 0xcb, 0xcd, 0xce, 0xcf]

def mSos : UInt8 := 0xda
def mEoi : UInt8 := 0xd9

/-- What follows the marker of a frame. -/
def frameSize (chan : Bytes) : Option Dims := do
  let (_, chan) ← read2Bytes chan
  let (_, chan) ← read1Byte chan
  let (h, chan) ← read2Bytes chan
  let (w, _) ← read2Bytes chan
  return (w, h)

theorem read1Byte_length {chan chan' : Bytes} {c : UInt8} (h : read1Byte chan = some (c, chan')) :
    chan'.length < chan.length := by
  cases chan with
  | nil => exact nomatch h
  | cons b chan =>
      obtain ⟨-, rfl⟩ := Prod.mk.inj (Option.some.inj h)
      exact Nat.lt_succ_self _

theorem read2Bytes_length {chan chan' : Bytes} {n : Nat} (h : read2Bytes chan = some (n, chan')) :
    chan'.length < chan.length := by
  obtain ⟨⟨c1, chan₁⟩, h₁, h⟩ := Option.bind_eq_some_iff.mp h
  obtain ⟨⟨c2, chan₂⟩, h₂, h⟩ := Option.bind_eq_some_iff.mp h
  obtain ⟨-, rfl⟩ := Prod.mk.inj (Option.some.inj h)
  exact (read1Byte_length h₂).trans (read1Byte_length h₁)

theorem nextMarker_length {chan chan' : Bytes} {c : UInt8} (h : nextMarker chan = some (c, chan')) :
    chan'.length < chan.length := by
  obtain ⟨⟨b, chan₁⟩, h₁, h⟩ := Option.bind_eq_some_iff.mp h
  have hfirst := read1Byte_length h₁
  have hsecond := read1Byte_length h
  have hle := (List.dropWhile_suffix (l := chan) (· ≠ (0xff : UInt8))).length_le
  have hle' := (List.dropWhile_suffix (l := chan₁) (· = (0xff : UInt8))).length_le
  omega

theorem skipVariable_length {chan chan' : Bytes} (h : skipVariable chan = some chan') :
    chan'.length < chan.length := by
  obtain ⟨⟨n, chan₁⟩, h₁, h⟩ := Option.bind_eq_some_iff.mp h
  have hlt := read2Bytes_length h₁
  dsimp only at h
  split at h
  · obtain rfl := Option.some.inj h
    rw [List.length_drop]
    omega
  · exact nomatch h

/-- `JpegSize`, of what is left of the channel. -/
def jpegSize (chan : Bytes) : Option Dims :=
  match _hmarker : nextMarker chan with
  | none => none
  | some (marker, chan₁) =>
      if marker ∈ mSof then frameSize chan₁
      else if marker = mSos ∨ marker = mEoi then none
      else
        match _hskip : skipVariable chan₁ with
        | none => none
        | some chan₂ => jpegSize chan₂
termination_by chan.length
decreasing_by exact (skipVariable_length _hskip).trans (nextMarker_length _hmarker)

/-! ## `ImgStat` -/

/-- What `ImgStat` loads of a file, and what it finds on the stack. -/
def loadImage (file : Bytes) (stack : Dims) : Option (ImgType × Int × Int) :=
  let chan := seek file 0
  (getImgType chan).map fun type =>
    (type, match type with
      | .jpeg => (jpegSize (chan.drop 3)).getD stack
      | .gif => (gifSize file).getD stack
      | .bmp => (bmpSize file).getD stack
      | .art => (0, 0))

end Nsdci.Img
