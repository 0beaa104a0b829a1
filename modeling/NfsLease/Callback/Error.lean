/-
The ways in which a call to a client's callback service fails.
-/
import NfsLease.Text.Span
import NfsLease.Bytes

namespace NfsLease

/-- Why a callback did not succeed. -/
inductive CallbackError where
  /-- The connection could not be made or broke. -/
  | unreachable (reason : String)
  /-- No answer came within the bound. -/
  | timeout (bound : Span)
  /-- The client's RPC layer refused the call. -/
  | rejected (reason : String)
  /-- The client answered with a status other than success. -/
  | status (code : UInt32)
  /-- The answer does not follow the protocol. -/
  | malformed (reason : String)
  | noChannel
  deriving DecidableEq, Repr

namespace CallbackError

/-- The text of a failure. -/
def message : CallbackError → String
  | unreachable reason => "callback unreachable: " ++ reason
  | timeout bound => "callback timed out after " ++ bound.text
  | rejected reason => "callback RPC rejected: " ++ reason
  | status code => "callback returned status " ++ toString code.toNat
  | malformed reason => "malformed callback reply: " ++ reason
  | noChannel => "no callback channel"

/-- The client does not know the file handle that it was asked about. -/
def isBadHandle : CallbackError → Bool
  | status code => code == 10001
  | _ => false

end CallbackError

end NfsLease
