/-
Callback calls on the wire: operations, the compound that carries them, and the call that carries
the compound as one record.
-/
import NfsLease.Callback.Xdr
import NfsLease.StateId

namespace NfsLease

/-- An operation that the server asks a client for. -/
inductive CallbackOp where
  /-- Takes the next number of a session's slot. The session has sixteen octets. -/
  | sequence (session : Bytes) (sequenceId slotId : UInt32)
  | getAttr (handle : Bytes) (bitmap : List UInt32)
  | askBack (stateid : StateId) (truncate : Bool) (handle : Bytes)
  deriving DecidableEq, Repr

namespace CallbackOp

/-- The operation's number. -/
def code : CallbackOp → UInt32
  | getAttr .. => 3
  | askBack .. => 4
  | sequence .. => 11

/-- The arguments of an operation. A sequence asks for no higher slot, caches nothing and refers to
no other call. -/
def arguments : CallbackOp → Bytes
  | sequence session sequenceId slotId =>
    session ++ Xdr.word sequenceId ++ Xdr.word slotId ++ Xdr.word 0 ++ Xdr.word 0 ++ Xdr.word 0
  | getAttr handle bitmap =>
    Xdr.blob handle ++ Xdr.size bitmap.length ++ bitmap.flatMap Xdr.word
  | askBack stateid truncate handle =>
    Xdr.word stateid.seqid ++ stateid.other ++ Xdr.word (if truncate then 1 else 0) ++
      Xdr.blob handle

/-- An operation's number and arguments. -/
def encode (op : CallbackOp) : Bytes := Xdr.word op.code ++ op.arguments

end CallbackOp

/-- A compound of operations behind an empty tag. -/
def encodeCompound (minor ident : UInt32) (ops : List CallbackOp) : Bytes :=
  Xdr.blob [] ++ Xdr.word minor ++ Xdr.word ident ++ Xdr.size ops.length ++
    ops.flatMap CallbackOp.encode

/-- The number of the procedure that does nothing. -/
def nullProcedure : UInt32 := 0

/-- The number of the procedure that runs a compound. -/
def compoundProcedure : UInt32 := 1

/-- The body of a call, of RPC version 2 and program version 1, with empty credentials. -/
def callBody (xid program procedure : UInt32) (args : Bytes) : Bytes :=
  Xdr.word xid ++ Xdr.word 0 ++ Xdr.word 2 ++ Xdr.word program ++ Xdr.word 1 ++
    Xdr.word procedure ++ Xdr.word 0 ++ Xdr.word 0 ++ Xdr.word 0 ++ Xdr.word 0 ++ args

/-- The bit of a record mark that says that no fragment follows. -/
def lastFragment : UInt32 := 0x80000000

/-- A call as one record of one fragment. -/
def encodeCall (xid program procedure : UInt32) (args : Bytes) : Bytes :=
  let body := callBody xid program procedure args
  Xdr.word (lastFragment ||| UInt32.ofNat body.length) ++ body

end NfsLease
