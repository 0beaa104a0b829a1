/-
Why a request is refused. An `Error` is the cause; its `Report` is what the requester sees of it: a
kind, which fixes the protocol status, and a text.
-/
import NfsLease.Callback.Error
import NfsLease.Settings.Basic
import NfsLease.Share
import NfsLease.StateId
import NfsLease.Status
import NfsLease.Text.Utf8

namespace NfsLease

/-! ## Reports -/

/-- The kinds of refusal. -/
inductive ErrorKind where
  | badSeqid
  | staleState
  | badState
  | oldState
  | shareDenied
  | delay
  | clientInUse
  | staleClient
  | reclaimBad
  | noGrace
  | grace
  | expired
  | invalid
  | notSupported
  | callback
  | storage
  | io
  | config
  deriving DecidableEq, Repr

namespace ErrorKind

/-- The status that a kind of refusal is answered with. -/
def status : ErrorKind → Status
  | badSeqid => .badSeqid
  | staleState => .staleState
  | badState => .badState
  | oldState => .oldState
  | shareDenied => .shareDenied
  | delay => .delay
  | clientInUse => .clientInUse
  | staleClient => .staleClient
  | reclaimBad => .reclaimBad
  | noGrace => .noGrace
  | grace => .grace
  | expired => .expired
  | invalid => .invalid
  | notSupported => .notSupported
  | callback => .callbackDown
  | storage => .serverFault
  | io => .io
  | config => .serverFault

/-- The words that every text of a kind starts with. -/
def heading : ErrorKind → String
  | badSeqid => "bad sequence id"
  | staleState => "stale stateid"
  | badState => "bad stateid"
  | oldState => "old stateid"
  | shareDenied => "share denied"
  | delay => "retry later"
  | clientInUse => "client id in use"
  | staleClient => "stale client id"
  | reclaimBad => "reclaim bad"
  | noGrace => "no grace"
  | grace => "grace period in effect"
  | expired => "lease expired"
  | invalid => "invalid argument"
  | notSupported => "not supported"
  | callback => "callback error"
  | storage => "storage error"
  | io => "I/O error"
  | config => "config error"

/-- Whether the same request may succeed later. -/
def isRetryable (k : ErrorKind) : Bool := k == delay || k == grace

end ErrorKind

/-- What a requester sees of a refusal. -/
structure Report where
  kind : ErrorKind
  detail : String
  deriving DecidableEq, Repr

namespace Report

/-- The text of a refusal. The grace period needs no detail. -/
def message (r : Report) : String :=
  match r.kind with
  | .grace => r.kind.heading
  | kind => kind.heading ++ ": " ++ r.detail

/-- A sequence number that is neither the next nor the last one. -/
def badSeqid (expected actual : UInt32) : Report :=
  ⟨.badSeqid, "expected " ++ toString expected.toNat ++ ", got " ++ toString actual.toNat⟩

def ofCallback (e : CallbackError) : Report := ⟨.callback, e.message⟩

end Report

/-! ## Causes -/

/-- Operations of the ledger that can fail. -/
inductive LedgerOp where
  | addClient
  | removeClient
  | wantReclaim
  | reclaimClient
  | reclaimComplete
  | close
  deriving DecidableEq, Repr

/-- The request that came with a minor version that does not have it. -/
inductive HandshakeRequest where
  | setClientId
  | confirmClientId
  deriving DecidableEq, Repr

/-- Why a request is refused. -/
inductive Error where
  /-- The owner's sequence number is neither the next nor the last one. -/
  | badSeqid (expected actual : UInt32)
  /-- The client that the state id names is not registered. -/
  | staleState (id : StateId)
  /-- The client has no such state, or never gave out this generation of it. -/
  | badState (id : StateId)
  | specialState (id : StateId)
  /-- The state has a later generation. -/
  | oldState (id : StateId)
  | shareDenied (inode : Inode) (access deny : Mode) (holder : ClientId)
  /-- Another request is working on the file. -/
  | fileBusy (inode : Inode)
  | recallPending (inode : Inode)
  /-- The server is shut down. -/
  | closed
  /-- The client id belongs to another principal. -/
  | clientInUse (id : ClientId)
  | unknownClient (id : ClientId)
  | unconfirmedClient (id : ClientId)
  | removedClient (id : ClientId)
  /-- The confirmation does not carry the token that the client id came with. -/
  | foreignVerifier (id : ClientId)
  /-- The owner had no state before the restart. -/
  | unknownReclaimer (owner : Bytes)
  /-- No owner may reclaim any more. -/
  | reclaimClosed
  | graceOver
  | grace
  /-- A request on a lease that ran out. -/
  | leaseExpired (id : ClientId)
  /-- The renewal of a lease that ran out. -/
  | lateRenewal (id : ClientId)
  | noAccessBits (word : ShareWord)
  /-- A downgrade to masks that are none or not within those held. -/
  | notDowngrade (access deny heldAccess heldDeny : Mode)
  | notInMinor (request : HandshakeRequest) (minor : UInt32)
  /-- An operation of the ledger failed, with the text of the failure. -/
  | ledgerFailed (op : LedgerOp) (text : String)
  | ledgerUnreadable
  /-- The storage layer refused an open, with the text of the refusal. -/
  | hookRefused (text : String)
  | badSettings (cause : SettingsError)
  deriving DecidableEq, Repr

namespace Error

/-- What the requester sees. -/
def report : Error → Report
  | badSeqid expected actual => .badSeqid expected actual
  | staleState id => ⟨.staleState, id.text⟩
  | badState id => ⟨.badState, id.text⟩
  | specialState id => ⟨.badState, "special stateid " ++ id.text⟩
  | oldState id => ⟨.oldState, id.text⟩
  | shareDenied inode access deny holder =>
    ⟨.shareDenied, inode.text ++ ": access " ++ hexNumber access.bits.toNat ++ " deny " ++
      hexNumber deny.bits.toNat ++ " conflicts with client " ++ holder.text⟩
  | fileBusy inode => ⟨.delay, "file " ++ inode.text ++ " is busy"⟩
  | recallPending inode => ⟨.delay, "delegation recall pending on " ++ inode.text⟩
  | closed => ⟨.delay, "state handler is closed"⟩
  | clientInUse id => ⟨.clientInUse, id.text⟩
  | unknownClient id => ⟨.staleClient, id.text⟩
  | unconfirmedClient id => ⟨.staleClient, id.text ++ " is not confirmed"⟩
  | removedClient id => ⟨.staleClient, id.text ++ " was removed"⟩
  | foreignVerifier id => ⟨.staleClient, id.text ++ " confirmed with a foreign verifier"⟩
  | unknownReclaimer owner =>
    ⟨.reclaimBad, "client " ++ Utf8.decodeLossy owner ++ " had no state before restart"⟩
  | reclaimClosed => ⟨.noGrace, "reclaim window closed"⟩
  | graceOver => ⟨.noGrace, "grace period is over"⟩
  | grace => ⟨.grace, ""⟩
  | leaseExpired id => ⟨.expired, "lease of " ++ id.text ++ " expired"⟩
  | lateRenewal id => ⟨.expired, "lease of client " ++ id.text⟩
  | noAccessBits word =>
    ⟨.invalid, "share access " ++ hexNumber word.bits.toNat ++ " carries no access bits"⟩
  | notDowngrade access deny heldAccess heldDeny =>
    ⟨.invalid, "downgrade to access " ++ hexNumber access.bits.toNat ++ " deny " ++
      hexNumber deny.bits.toNat ++ " from access " ++ hexNumber heldAccess.bits.toNat ++ " deny " ++
      hexNumber heldDeny.bits.toNat⟩
  | notInMinor request minor =>
    let name := match request with
      | .setClientId => "SETCLIENTID"
      | .confirmClientId => "SETCLIENTID_CONFIRM"
    ⟨.notSupported, name ++ " in minor version " ++ toString minor.toNat⟩
  | ledgerFailed _ text => ⟨.storage, text⟩
  | ledgerUnreadable => ⟨.storage, "Failed to open client ledger"⟩
  | hookRefused text => ⟨.io, text⟩
  | badSettings cause => ⟨.config, cause.message⟩

/-- The status that a refusal is answered with. -/
def status (e : Error) : Status := e.report.kind.status

/-- The text of a refusal. -/
def message (e : Error) : String := e.report.message

end Error

end NfsLease
