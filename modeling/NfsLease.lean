import NfsLease.Scenario.Course
import NfsLease.Scenario.Wire
import NfsLease.Settings.Sources
import NfsLease.Proofs.Callback.Records
import NfsLease.Proofs.Callback.Replies
import NfsLease.Proofs.Callback.Streams
import NfsLease.Proofs.Callback.Xdr
import NfsLease.Proofs.Connections
import NfsLease.Proofs.Files.Delegations
import NfsLease.Proofs.Files.Shares
import NfsLease.Proofs.Epochs.Admission
import NfsLease.Proofs.Epochs.Confirmation
import NfsLease.Proofs.Epochs.Mirror
import NfsLease.Proofs.Epochs.Retransmission
import NfsLease.Proofs.Ledger.History
import NfsLease.Proofs.Server.Introduction
import NfsLease.Proofs.Server.Reachability
import NfsLease.Proofs.Server.Register
import NfsLease.Proofs.Server.Mirror
import NfsLease.Proofs.Server.Places
import NfsLease.Proofs.Server.Takeover
import NfsLease.Proofs.Server.Turns
import NfsLease.Proofs.Service.Correspondence
import NfsLease.Proofs.Service.Grace
import NfsLease.Proofs.Service.Grants
import NfsLease.Proofs.Service.Hook
import NfsLease.Proofs.Service.Leases
import NfsLease.Proofs.Service.Register
import NfsLease.Proofs.Service.Refusals
import NfsLease.Proofs.Service.Removal
import NfsLease.Proofs.Service.Resolution
import NfsLease.Proofs.Service.Retry
import NfsLease.Proofs.Callback.Calls
import NfsLease.Proofs.Callback.Slots
import NfsLease.Proofs.Callback.Transcripts
import NfsLease.Proofs.Service.Masks
import NfsLease.Proofs.Service.Coexistence
import NfsLease.Proofs.Service.Rollback
import NfsLease.Proofs.Server.Reclaiming
import NfsLease.Proofs.Service.Reclaiming
import NfsLease.Proofs.Client.Owners
import NfsLease.Proofs.Server.Owners
import NfsLease.Proofs.Holdings.Owners
import NfsLease.Proofs.Service.Owners
import NfsLease.Proofs.Client.Sequencing
import NfsLease.Proofs.Service.Sequencing
import NfsLease.Proofs.Server.Sweeping
import NfsLease.Proofs.Service.Sweeping
import NfsLease.Proofs.Service.Succession
import NfsLease.Proofs.Service.Generations
import NfsLease.Proofs.Service.SelfDenial
import NfsLease.Proofs.Service.Superseded
import NfsLease.Proofs.Service.Waiting
import NfsLease.Proofs.Callback.Results
import NfsLease.Proofs.Callback.Frames
import NfsLease.Proofs.Callback.Outcomes
import NfsLease.Proofs.Holdings.Footprints
import NfsLease.Proofs.Service.Commutation
import NfsLease.Proofs.Service.Deadlines
import NfsLease.Proofs.Net.UniversalAddress
import NfsLease.Proofs.Ledger.Crashes
