import Nsdci.Rpc
import Nsdci.Lib.WriteBack

/-!
# Ratings (`nrate.c`)

A rating has a count and a total. `nrates.add` adjusts a rating in the cache of the server
(`nratesAdd`), and `nratec.add` asks the server for it with a request (`nratesProc`). The cache is
written back to a gdbm file by a timer and when an entry is evicted.

Everything the server does with ratings is under the lock of the cache, so a command is one step.
`Ns_CacheDeleteEntry` removes an entry and leaves the value to its caller, who has freed it.
-/

namespace Nsdci.Nrate

open Lib

/-- `NRATE_MAXNAME`. -/
def maxName : Nat := 32

/-- `NRATE_MAXPRECISION`. -/
def maxPrecision : Int := 6

/-- `Rating`: a `uint32_t` and an `unsigned long`. -/
structure Rating where
  count : Nat
  total : Nat
  deriving DecidableEq

/-- The cache of ratings (`NetRate`) and the file behind it. -/
abbrev SData := WriteBack Bytes Rating

/-- A rating of `ns_calloc`. -/
def Rating.zero : Rating := ⟨0, 0⟩

/-- The rating of a key, in the cache or in the file. -/
def SData.rating (d : SData) : Bytes → Rating := d.value .zero

/-! ## The server -/

/-- `nCount + adjCountBy`, in `int`s, and not below zero. -/
def adjust (value : Nat) (adjBy : Int) : Nat :=
  let n := int32 (int32 value + adjBy)
  if n < 0 then 0 else n.toNat

/-- A rating with both fields adjusted. -/
def Rating.adjust (adjCountBy adjTotalBy : Int) (rating : Rating) : Rating :=
  ⟨Nrate.adjust rating.count adjCountBy, Nrate.adjust rating.total adjTotalBy⟩

/-- `NratesAdd`. -/
def nratesAdd (d : SData) (name : Bytes) (adjCountBy adjTotalBy : Int) : SData × Rating :=
  let d' := d.modify .zero name (Rating.adjust adjCountBy adjTotalBy)
  (d', SData.rating d' name)

/-- `NratesFlushRatings`. -/
def nratesFlushRatings (d : SData) : SData := d.flush

/-- An entry is evicted, which `NratesFreeEntry` frees. -/
def nratesFreeEntry (d : SData) (name : Bytes) : SData := d.evict name

/-- `Msg`. The adjustments are in network byte order. -/
structure Msg where
  adjCountBy : Bytes
  adjTotalBy : Bytes
  name : Bytes

/-- `NratesProc`: the adjustments are `int16_t`s. The reply goes back in network byte order. -/
def nratesProc (d : SData) (msg : Msg) : SData × Bytes × Bytes :=
  let r := nratesAdd d msg.name (int16 (ofBe16 msg.adjCountBy)) (int16 (ofBe16 msg.adjTotalBy))
  (r.1, be32 r.2.count, be32 r.2.total)

/-! ## The commands -/

/-- What the commands report: the usage, a name that is too long, or what Tcl says of a number. -/
inductive AddError where
  | usage (cmd : Bytes)
  | name (key : Bytes)
  | number
  deriving DecidableEq

/-- The text of an error of the commands themselves. -/
def AddError.text : AddError → Option Bytes
  | .usage cmd => some (ascii "wrong # args: should be \"" ++ cmd ++
      ascii " key countAdjust totalAdjust precision\"")
  | .name key => some (ascii "nrate name too long: " ++ key)
  | .number => none

/-- The arguments of both commands. -/
structure AddArgs where
  key : Bytes
  countAdjust : Int
  totalAdjust : Int
  precision : Int
  deriving DecidableEq

/-- `nPrecision` within its bounds. -/
def boundPrecision (nPrecision : Int) : Int :=
  let nPrecision := if nPrecision > maxPrecision then maxPrecision else nPrecision
  if nPrecision < 0 then 0 else nPrecision

/-- The checks of both commands, for keys shorter than `limit`. -/
def addArgs (limit : Nat) (tcl : Rpc.TclGetInt) (argv : List CStr) : Except AddError AddArgs :=
  match argv with
  | [_, key, count, total, precision] =>
      if limit ≤ key.1.length then .error (.name key.1)
      else match (tcl.getInt count.1).map int32, (tcl.getInt total.1).map int32,
          (tcl.getInt precision.1).map int32 with
        | some nCountAdjust, some nTotalAdjust, some nPrecision =>
            .ok ⟨key.1, nCountAdjust, nTotalAdjust, boundPrecision nPrecision⟩
        | _, _, _ => .error .number
  | _ => .error (.usage (argv.head?.elim [] Subtype.val))

/-- The checks of `NratesAddCmd`. -/
def nratesAddArgs := addArgs maxName

/-- The checks of `NratecAddCmd`, which takes a key of `NRATE_MAXNAME` as well. -/
def nratecAddArgs := addArgs (maxName + 1)

/-- The request of `NratecAddCmd`. -/
def AddArgs.msg (args : AddArgs) : Msg :=
  ⟨be16 args.countAdjust, be16 args.totalAdjust, args.key⟩

/-- What a command leaves, and what it gives to `NrateResult`. -/
abbrev Added := SData × Except AddError (Rating × Int)

/-- `NratesAddCmd`. -/
def nratesAddCmd (tcl : Rpc.TclGetInt) (d : SData) (argv : List CStr) : Added :=
  match nratesAddArgs tcl argv with
  | .error e => (d, .error e)
  | .ok args =>
      let r := nratesAdd d args.key args.countAdjust args.totalAdjust
      (r.1, .ok (r.2, args.precision))

/-- `NratecAddCmd`, with its request and the reply delivered. -/
def nratecAddCmd (tcl : Rpc.TclGetInt) (d : SData) (argv : List CStr) : Added :=
  match nratecAddArgs tcl argv with
  | .error e => (d, .error e)
  | .ok args =>
      let r := nratesProc d args.msg
      (r.1, .ok (⟨ofBe32 r.2.1, ofBe32 r.2.2⟩, args.precision))

/-- `NratesDeleteCmd`. -/
def nratesDeleteCmd (d : SData) (key : CStr) : SData := d.delete key.1

end Nsdci.Nrate
