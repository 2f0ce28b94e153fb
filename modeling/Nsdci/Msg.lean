import Nsdci.Lib.Framing

/-!
# Broadcast messages (`Dci_MsgAlloc`, `MsgSend`)

A message is its data with the length header `Dci_MsgAlloc` puts before it. `size` is an `int`
and `MsgSend` sends `size + 4` bytes from the header on, so both must fit an `int`: a longer
message cannot be framed.
-/

namespace Nsdci

open Lib

/-- A `Msg` of a length that `Dci_MsgAlloc` and `MsgSend` can frame. -/
structure Msg where
  data : Bytes
  size_lt : data.length + 4 < 2147483648
  deriving DecidableEq

namespace Msg

/-- `msgPtr->hdr`, in network byte order. -/
def hdr (msg : Msg) : Bytes := be32 msg.data.length

/-- The bytes `MsgSend` points `bufPtr` at: the header and the data behind it. -/
def wire (msg : Msg) : Bytes := msg.hdr ++ msg.data

/-- What goes on the wire is a frame. -/
theorem wire_eq_frame (msg : Msg) : msg.wire = frame msg.data := rfl

end Msg

end Nsdci
