import Nsdci.Nt.Totals
import Nsdci.TclExport
import Nsdci.Lib.Newline

/-!
# The file of a tally server (`otally.c`)

`NtsWriteFile` writes the buckets that have keys, each with its name and the number of its keys, and
the keys with their sums. `NtsReadFile` reads them back. Names are written with the whole buffer
they are in, so that what was left over there and in the padding of a `Tally` is in the file, too.

The file is read through a channel in its automatic mode, which takes a carriage return for a
newline, and the two for one (`Lib.eol`).
-/

namespace Nsdci.Nt

open Lib
open TclExport (Order)

/-! ## Numbers in memory -/

/-- The bytes of a number in network byte order, as the host has them, and the other way. -/
def inHost (host : Order) (bs : Bytes) : Bytes :=
  match host with
  | .big => bs
  | .little => bs.reverse

/-- An `int`. -/
def intBytes (host : Order) (n : Nat) : Bytes := inHost host (be32 n)

/-- The `int` of some bytes. -/
def ofIntBytes (host : Order) (bs : Bytes) : Int := int32 (ofBe32 (inHost host bs))

/-- The size of an `unsigned long`. -/
def Long.size : Long → Nat
  | .bits32 => 4
  | .bits64 => 8

/-- The padding between the key of a `Tally` and its sum. -/
def Long.padding : Long → Nat
  | .bits32 => 3
  | .bits64 => 7

/-- An `unsigned long`. -/
def Long.bytes (l : Long) (host : Order) (x : Nat) : Bytes :=
  match l with
  | .bits32 => inHost host (be32 x)
  | .bits64 => inHost host (be32 (x / 4294967296 : Nat) ++ be32 x)

/-- The `unsigned long` of some bytes. -/
def Long.ofBytes (l : Long) (host : Order) (bs : Bytes) : Nat :=
  let bs := inHost host bs
  match l with
  | .bits32 => ofBe32 bs
  | .bits64 => ofBe32 (bs.take 4) * 4294967296 + ofBe32 (bs.drop 4)

/-- The size of the buffer of a name: `NT_MAXNAME+1`. -/
def sizeofName : Nat := maxName + 1

/-- Where the sum of a `Tally` is. -/
def Long.sumOffset (l : Long) : Nat := sizeofName + l.padding

/-- `sizeof(Tally)`. -/
def Long.sizeofTally (l : Long) : Nat := l.sumOffset + 2 * l.size

/-! ## The writer -/

/-- What is on the stack of `NtsWriteFile` when it starts: the buffers for the names of buckets and
of keys, and the padding of its `Tally`. -/
structure Stack (l : Long) where
  key : Bytes
  tallyKey : Bytes
  padding : Bytes
  length_key : key.length = sizeofName
  length_tallyKey : tallyKey.length = sizeofName
  length_padding : padding.length = l.padding

/-- `strcpy`. What is behind the string in the buffer stays. -/
def strcpy (buf s : Bytes) : Bytes := asciz s ++ buf.drop (s.length + 1)

variable (l : Long) (host : Order)

/-- The `Tally`s written for the keys of a bucket, and what is left in the buffer. -/
def writeTallies (padding : Bytes) : Bytes → List (Bytes × Sum) → List Bytes × Bytes
  | buf, [] => ([], buf)
  | buf, (key, sum) :: es =>
      let buf := strcpy buf key
      let r := writeTallies padding buf es
      ((buf ++ padding ++ l.bytes host sum.count ++ l.bytes host sum.total) :: r.1, r.2)

/-- The buckets that are written, each with the buffer of its name and its `Tally`s. -/
def writeBuckets (padding : Bytes) : Bytes → Bytes → List (Bytes × Option Keys) →
    List (Bytes × List Bytes)
  | _, _, [] => []
  | key, tallyKey, (_, none) :: bs => writeBuckets padding key tallyKey bs
  | key, tallyKey, (name, some keys) :: bs =>
      if (pairs keys).length > 0 then
        let key := strcpy key name
        let r := writeTallies l host padding tallyKey (pairs keys)
        (key, r.1) :: writeBuckets padding key r.2 bs
      else writeBuckets padding key tallyKey bs

/-- The bytes of a bucket in the file. -/
def bucketBytes (b : Bytes × List Bytes) : Bytes :=
  b.1 ++ intBytes host b.2.length ++ b.2.flatten

/-- `NtsWriteFile`. The buckets and keys are in the order in which a search finds them. -/
def ntsWriteFile (stack : Stack l) (t : Buckets) : Bytes :=
  (writeBuckets l host stack.padding stack.key stack.tallyKey (pairs t)).flatMap (bucketBytes host)

/-! ## The reader -/

/-- The `Tally`s that are read for a bucket, and what is left. A read that finds too little takes
all there is. -/
def readTallies : Nat → Bytes → List Bytes × Bytes
  | 0, s => ([], s)
  | n + 1, s =>
      if s.length < l.sizeofTally then ([], [])
      else
        let r := readTallies n (s.drop l.sizeofTally)
        (s.take l.sizeofTally :: r.1, r.2)

/-- No more is left than there was. -/
theorem length_readTallies_le (n : Nat) (s : Bytes) : (readTallies l n s).2.length ≤ s.length := by
  induction n generalizing s with
  | zero => exact Nat.le_refl _
  | succ n ih =>
      unfold readTallies
      split_ifs
      · exact Nat.zero_le _
      · have hrest := ih (s.drop l.sizeofTally)
        rw [List.length_drop] at hrest
        exact hrest.trans (Nat.sub_le _ _)

/-- Less is left behind the name and the number of the keys. -/
theorem length_readTallies_lt (n : Nat) {s : Bytes} (h : ¬ s.length < sizeofName + 4) :
    (readTallies l n (s.drop (sizeofName + 4))).2.length < s.length := by
  have hrest := length_readTallies_le l n (s.drop (sizeofName + 4))
  rw [List.length_drop] at hrest
  omega

/-- The number of keys that is read behind a name, and none when it is negative. -/
def readCount (s : Bytes) : Nat := (ofIntBytes host ((s.drop sizeofName).take 4)).toNat

/-- The buckets that are read, each with the buffer of its name and its `Tally`s. -/
def readBuckets (s : Bytes) : List (Bytes × List Bytes) :=
  if h : s.length < sizeofName + 4 then []
  else
    (s.take sizeofName, (readTallies l (readCount host s) (s.drop (sizeofName + 4))).1) ::
      readBuckets (readTallies l (readCount host s) (s.drop (sizeofName + 4))).2
termination_by s.length
decreasing_by exact length_readTallies_lt l _ h

/-- `GetSum`, and what `NtsReadFile` stores there. -/
def Buckets.put (t : Buckets) (bucket key : Bytes) (sum : Sum) : Buckets :=
  t.insert bucket (some ((((t.lookup bucket).join).getD ∅).insert key sum))

/-- The key and the sum of a `Tally`, with the bucket. The names are strings in their buffers:
`none` when one does not end there, and what is behind it would be read. -/
def tallyOf (bucket tally : Bytes) : Option (Bytes × Bytes × Sum) :=
  (readCStr bucket).bind fun b => (readCStr (tally.take sizeofName)).map fun k =>
    (b.1, k.1, ⟨l.ofBytes host ((tally.drop l.sumOffset).take l.size),
      l.ofBytes host (tally.drop (l.sumOffset + l.size))⟩)

/-- What `NtsReadFile` does with the buckets it reads. -/
def storeBuckets (bs : List (Bytes × List Bytes)) (t : Buckets) : Option Buckets :=
  bs.foldlM (fun t b => b.2.foldlM (fun t tally =>
    (tallyOf l host b.1 tally).map fun x => t.put x.1 x.2.1 x.2.2) t) t

/-- `NtsReadFile`. -/
def ntsReadFile (file : Bytes) (t : Buckets) : Option Buckets :=
  storeBuckets l host (readBuckets l host (eol false file)) t

end Nsdci.Nt
