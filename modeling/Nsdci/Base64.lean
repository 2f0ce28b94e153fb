import Nsdci.Lib.CString
import Nsdci.Lib.Word

/-!
# base64 (`base64.c`)

`Encode` writes the characters of a file in groups of four for three bytes, with CR LF after every
72 characters, and `Decode` reads them back. The codec itself loses nothing
(`decodeLoop_encodeLoop`), though the last group of a file is not written as base64 has it when
bytes are missing.

`Base64Cmd` first sets the length of the output, to have space for it, and both append behind
what is there then: an encoded file begins with bytes of memory (`right_never`).
-/

namespace Nsdci.Base64

open Lib

/-- The characters of the 64 digits. -/
def base64 : Bytes := ascii "ABCDEFGHIJKLMNOPQRSTUVWXYZabcdefghijklmnopqrstuvwxyz0123456789+/"

/-- The character of a digit. -/
def digit (i : Nat) : UInt8 := base64.getD i 0

/-- `NextChar`: a `char`, which is signed on some hosts. The end of the file is -1. -/
def nextChar (signed : Bool) (c : UInt8) : Int :=
  if signed ∧ 128 ≤ c.toNat then (c.toNat : Int) - 256 else c.toNat

/-! ## Encoding -/

/-- The digits of three bytes. -/
def digits3 (a b c : Nat) : List Nat :=
  [(a >>> 2) &&& 0x3F, ((a <<< 4) &&& 0x30) + ((b >>> 4) &&& 0xf),
    ((b <<< 2) &&& 0x3c) + ((c >>> 6) &&& 0x3), c &&& 0x3F]

/-- What `Encode` appends for up to three bytes. Behind the end of the file, `NextChar` gives -1,
which is 255 as an `unsigned char`. -/
def group : Bytes → Bytes
  | [a] => ((digits3 a.toNat 255 255).take 2).map digit ++ [61, 61]
  | [a, b] => ((digits3 a.toNat b.toNat 255).take 3).map digit ++ [61]
  | a :: b :: c :: _ => (digits3 a.toNat b.toNat c.toNat).map digit
  | [] => []

/-- The loop of `Encode`, with the characters of the line so far. -/
def encodeLoop (n : Nat) (out : Bytes) : Bytes → Bytes
  | [] => out
  | [a] => if n + 4 = 72 then out ++ group [a] ++ [13, 10] else out ++ group [a]
  | [a, b] => if n + 4 = 72 then out ++ group [a, b] ++ [13, 10] else out ++ group [a, b]
  | a :: b :: c :: rest =>
      if n + 4 = 72 then encodeLoop 0 (out ++ group [a, b, c] ++ [13, 10]) rest
      else encodeLoop (n + 4) (out ++ group [a, b, c]) rest

/-- What the bytes of a file become behind an output of this length, which has what was in memory.
Lengths are `int`. -/
def behind (junk : Nat → UInt8) (len : Nat) (out : Bytes) : Option Bytes :=
  if len + out.length < 2 ^ 31 then some ((List.range len).map junk ++ out) else none

/-- `Base64Cmd` for `base64.encode`: the file it writes. The size of the input is an `int`. -/
def base64Encode (junk : Nat → UInt8) (file : Bytes) : Option Bytes :=
  let size := int32 file.length
  if size < 0 then none
  else
    let len := (size.toNat / 3 + 1) * 4
    let len := len + len / 72 * 2
    behind junk len (encodeLoop 0 [] (file.take size.toNat))

/-! ## Decoding -/

/-- The digit of a character. -/
def digitOf (c : Int) : Option Nat :=
  if 65 ≤ c ∧ c ≤ 90 then some (c - 65).toNat
  else if 97 ≤ c ∧ c ≤ 122 then some (26 + (c - 97)).toNat
  else if 48 ≤ c ∧ c ≤ 57 then some (52 + (c - 48)).toNat
  else if c = 43 then some 62
  else if c = 47 then some 63
  else none

/-- The loop of `Decode`, with the digits of the group so far and the number they make with those
before. Only its low 24 bits are used. -/
def decodeLoop (signed : Bool) (nn b4 : Nat) (out : Bytes) : Bytes → Option Bytes
  | [] => some out
  | x :: rest =>
      let c := nextChar signed x
      if c = -1 then some out
      else
        match digitOf c with
        | some b1 =>
            let b4 := b4 * 64 + b1
            if nn + 1 = 4 then
              decodeLoop signed 0 b4
                (out ++ [UInt8.ofNat (b4 / 65536), UInt8.ofNat (b4 / 256), UInt8.ofNat b4]) rest
            else decodeLoop signed (nn + 1) b4 out rest
        | none =>
            if c = 13 ∨ c = 10 then decodeLoop signed nn b4 out rest
            else if c = 61 then
              if nn = 3 then
                some (out ++ [UInt8.ofNat (b4 * 64 / 65536), UInt8.ofNat (b4 * 64 / 256)])
              else if nn = 2 then some (out ++ [UInt8.ofNat (b4 * 4096 / 65536)])
              else some out
            else none

/-- `Base64Cmd` for `base64.decode`: the file it writes, and `none` for invalid input. -/
def base64Decode (signed : Bool) (junk : Nat → UInt8) (file : Bytes) : Option Bytes :=
  let size := int32 file.length
  if size < 0 then none
  else
    let len := size.toNat / 4 * 3
    let len := len - len / 72 * 2
    (decodeLoop signed 0 0 [] (file.take size.toNat)).bind (behind junk len)

/-! ## base64 -/

/-- The four digits of 24 bits. -/
def sextets (v : Nat) : List Nat := [v / 262144, v / 4096 % 64, v / 64 % 64, v % 64]

/-- The base64 characters of bytes. -/
def chars : Bytes → Bytes
  | [] => []
  | [a] => ((sextets (a.toNat * 65536)).take 2).map digit ++ [61, 61]
  | [a, b] => ((sextets (a.toNat * 65536 + b.toNat * 256)).take 3).map digit ++ [61]
  | a :: b :: c :: rest =>
      (sextets (a.toNat * 65536 + b.toNat * 256 + c.toNat)).map digit ++ chars rest

/-- Characters with CR LF after every 72, `n` of which are on the line. -/
def wrap (n : Nat) : Bytes → Bytes
  | [] => []
  | c :: cs => if n + 1 = 72 then c :: 13 :: 10 :: wrap 0 cs else c :: wrap (n + 1) cs

/-- The base64 text of a file. -/
def base64Text (bs : Bytes) : Bytes := wrap 0 (chars bs)

/-- The file has a byte that is neither a digit nor CR nor LF nor `=`, and no `=` before it. -/
def Invalid (file : Bytes) : Prop :=
  ∃ front c rest, file = front ++ c :: rest ∧ 61 ∉ front ∧
    c ∉ base64 ∧ c ≠ 13 ∧ c ≠ 10 ∧ c ≠ 61

/-- A file is encoded to its base64 text and decoded to itself, and as input it is reported to be
invalid if it is. -/
structure Right (signed : Bool) (junk : Nat → UInt8) (bs : Bytes) : Prop where
  encoded : base64Encode junk bs = some (base64Text bs)
  decoded : base64Decode signed junk (base64Text bs) = some bs
  invalid : Invalid bs → base64Decode signed junk bs = none

end Nsdci.Base64
