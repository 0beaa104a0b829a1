/-
Where a client's callback service is and how it wants to be called.
-/
import NfsLease.Net.UniversalAddress

namespace NfsLease

/-- The callback service of a client. -/
structure CallbackTarget where
  endpoint : Endpoint
  program : UInt32
  minor : UInt32
  /-- The number that every call of minor version 0 carries back to the client. -/
  ident : UInt32
  /-- The session of sixteen octets that later minor versions call on. -/
  session : Option Bytes
  deriving DecidableEq, Repr

/-- The target at a universal address; none if the text is not one. -/
def CallbackTarget.ofUniversal? (address : String) (program minor ident : UInt32) :
    Option CallbackTarget :=
  (UniversalAddress.parse? address.toList).map fun endpoint =>
    ⟨endpoint, program, minor, ident, none⟩

end NfsLease
