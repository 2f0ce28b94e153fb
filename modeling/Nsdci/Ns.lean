import Nsdci.Lib.CString

/-!
# What the AOLserver library gives

The return codes of the AOLserver and Tcl functions the program calls.
-/

namespace Nsdci

/-- The AOLserver return codes `NS_OK`, `NS_ERROR` and `NS_TIMEOUT`. -/
inductive Status where
  | ok | error | timeout
  deriving DecidableEq, Repr

end Nsdci
