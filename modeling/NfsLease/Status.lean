/-
The protocol status codes that the state engine answers with.
-/
import NfsLease.Bytes

namespace NfsLease

/-- A status of the protocol. -/
inductive Status where
  | ok
  | io
  | invalid
  | badHandle
  | notSupported
  | serverFault
  | delay
  | denied
  | expired
  | grace
  | shareDenied
  | clientInUse
  | staleClient
  | staleState
  | oldState
  | badState
  | badSeqid
  | noGrace
  | reclaimBad
  | callbackDown
  deriving DecidableEq, Repr

namespace Status

def all : List Status :=
  [ok, io, invalid, badHandle, notSupported, serverFault, delay, denied, expired, grace, shareDenied,
    clientInUse, staleClient, staleState, oldState, badState, badSeqid, noGrace, reclaimBad,
    callbackDown]

/-- The number on the wire. -/
def code : Status → UInt32
  | ok => 0
  | io => 5
  | invalid => 22
  | badHandle => 10001
  | notSupported => 10004
  | serverFault => 10006
  | delay => 10008
  | denied => 10010
  | expired => 10011
  | grace => 10013
  | shareDenied => 10015
  | clientInUse => 10017
  | staleClient => 10022
  | staleState => 10023
  | oldState => 10024
  | badState => 10025
  | badSeqid => 10026
  | noGrace => 10033
  | reclaimBad => 10034
  | callbackDown => 10048

/-- The name in the protocol's own spelling. -/
def name : Status → String
  | ok => "NFS4_OK"
  | io => "NFS4ERR_IO"
  | invalid => "NFS4ERR_INVAL"
  | badHandle => "NFS4ERR_BADHANDLE"
  | notSupported => "NFS4ERR_NOTSUPP"
  | serverFault => "NFS4ERR_SERVERFAULT"
  | delay => "NFS4ERR_DELAY"
  | denied => "NFS4ERR_DENIED"
  | expired => "NFS4ERR_EXPIRED"
  | grace => "NFS4ERR_GRACE"
  | shareDenied => "NFS4ERR_SHARE_DENIED"
  | clientInUse => "NFS4ERR_CLID_INUSE"
  | staleClient => "NFS4ERR_STALE_CLIENTID"
  | staleState => "NFS4ERR_STALE_STATEID"
  | oldState => "NFS4ERR_OLD_STATEID"
  | badState => "NFS4ERR_BAD_STATEID"
  | badSeqid => "NFS4ERR_BAD_SEQID"
  | noGrace => "NFS4ERR_NO_GRACE"
  | reclaimBad => "NFS4ERR_RECLAIM_BAD"
  | callbackDown => "NFS4ERR_CB_PATH_DOWN"

def ofCode? (n : UInt32) : Option Status :=
  all.find? (·.code == n)

theorem ofCode?_code (s : Status) : ofCode? s.code = some s := by
  cases s <;> decide

end Status

end NfsLease
