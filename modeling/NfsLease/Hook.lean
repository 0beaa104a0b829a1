/-
What the storage layer is told about opens, and what it may say to them. Every open and close of a
file is reported; an open may be refused.
-/
import NfsLease.Share
import NfsLease.StateId

namespace NfsLease

/-- An open as the storage layer knows it: by the state id that the open began with. -/
structure OpenHandle where
  stateid : StateId
  deriving DecidableEq, Repr

namespace OpenHandle

/-- The text of a handle from its parts: the client, the identity of the open and its generation. -/
def textOf (identity : Bytes) (client : ClientId) (seqid : UInt32) : String :=
  client.text ++ ":" ++ identity.hex ++ ":" ++ toString seqid.toNat

def text (h : OpenHandle) : String :=
  textOf h.stateid.other h.stateid.client h.stateid.seqid

end OpenHandle

/-- A call to the storage layer. -/
inductive HookCall where
  /-- An open, or one more request on an open that exists already. -/
  | opened (handle : OpenHandle) (inode : Inode) (access deny : Mode) (already : Bool)
  /-- The end of an open, and how many others the file has left. -/
  | closed (handle : OpenHandle) (inode : Inode) (remaining : Nat)
  deriving DecidableEq, Repr

end NfsLease
