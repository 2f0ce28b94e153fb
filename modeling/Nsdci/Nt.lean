import Nsdci.Rpc

/-!
# Tallies (`otally.c`)

A tally adds a value to a key of a bucket. `nt.send` checks its arguments and makes a request of
them (`ntcSendReq`), which the client threads send to a tally server.
-/

namespace Nsdci.Nt

open Lib

/-- `NT_MAXNAME`. -/
def maxName : Nat := 32

/-- `sizeof(Req)`: the value, and room for two names with their terminators, rounded up to a
multiple of 4. -/
def sizeofReq : Nat := 72

/-- `Req`. The value is in network byte order. -/
structure Req where
  value : Bytes
  bucket : Bytes
  key : Bytes
  deriving DecidableEq

/-- What `nt.send` reports: its usage, a name that is too long, or what Tcl says of the value. -/
inductive SendError where
  | usage (cmd : Bytes)
  | bucket (bucket : Bytes)
  | key (key : Bytes)
  | value
  deriving DecidableEq

/-- The text of an error of `nt.send` itself. -/
def SendError.text : SendError → Option Bytes
  | .usage cmd => some (ascii "wrong # args: should be \"" ++ cmd ++ ascii " bucket key value\"")
  | .bucket name => some (ascii "invalid bucket: " ++ name)
  | .key name => some (ascii "invalid key: " ++ name)
  | .value => none

/-- What `NtcSendCmd` makes of its arguments. -/
def ntcSendReq (tcl : Rpc.TclGetInt) (argv : List CStr) : Except SendError Req :=
  match argv with
  | [_, bucket, key, text] =>
      if maxName ≤ bucket.1.length then .error (.bucket bucket.1)
      else if maxName ≤ key.1.length then .error (.key key.1)
      else match tcl.getInt text.1 with
        | none => .error .value
        | some value => .ok ⟨be32 value, bucket.1, key.1⟩
  | _ => .error (.usage (argv.head?.elim [] Subtype.val))

/-- The names of a request fit their room. -/
theorem ntcSendReq_fits {tcl : Rpc.TclGetInt} {argv : List CStr} {req : Req}
    (h : ntcSendReq tcl argv = .ok req) :
    req.bucket.length < maxName ∧ req.key.length < maxName ∧ NulFree req.bucket ∧
      NulFree req.key := by
  unfold ntcSendReq at h
  split at h
  · rename_i bucket key text
    split_ifs at h with hbucket hkey
    split at h
    · cases h
    · obtain rfl := Except.ok.inj h
      exact ⟨Nat.lt_of_not_le hbucket, Nat.lt_of_not_le hkey, bucket.2, key.2⟩
  · cases h

end Nsdci.Nt
