import ContractHost.Host.Invoke
import ContractHost.Serial.Ledger
import ContractHost.Settings.Logging
import ContractHost.State.MonitoredStore
import ContractHost.Proofs.Value.NestedWriting
import ContractHost.Proofs.Value.WorkList
import ContractHost.Proofs.Value.Integers
import ContractHost.Proofs.Value.Sameness
import ContractHost.Proofs.Value.DistinctKeys
import ContractHost.Proofs.Value.MapCalls
import ContractHost.Proofs.Value.InsertionOrder
import ContractHost.Proofs.Value.Reading
import ContractHost.Proofs.Value.Rebuilding
import ContractHost.Proofs.Value.RoundTrip
import ContractHost.Proofs.Wire.Forms
import ContractHost.Proofs.Wire.Shortest
import ContractHost.Proofs.Wire.Writing
import ContractHost.Proofs.Wire.Delimiting
import ContractHost.Proofs.Wire.Formats
import ContractHost.Proofs.Wire.Unambiguous
import ContractHost.Proofs.Ledger.Naming
import ContractHost.Proofs.Value.Grammar
import ContractHost.Proofs.Value.FirstPass
import ContractHost.Proofs.Value.SecondPass
import ContractHost.Proofs.Value.Acceptance
import ContractHost.Proofs.Value.NormalForm
import ContractHost.Proofs.Value.Canonical
import ContractHost.Proofs.InOrder
import ContractHost.Proofs.Steps
import ContractHost.Proofs.TwoRuns
import ContractHost.Proofs.State.Serving
import ContractHost.Proofs.State.View
import ContractHost.Proofs.State.Answering
import ContractHost.Proofs.State.Overlay
import ContractHost.Proofs.State.Committing
import ContractHost.Proofs.State.Within
import ContractHost.Proofs.State.Recency
import ContractHost.Proofs.State.KeyForms
import ContractHost.Proofs.State.Pruning
import ContractHost.Proofs.State.TwoSnapshots
import ContractHost.Proofs.State.Sharing
import ContractHost.Proofs.State.Versions
import ContractHost.Proofs.Host.Assembly
import ContractHost.Proofs.Host.Quiet
import ContractHost.Proofs.Host.Operands
import ContractHost.Proofs.Host.Lookups
import ContractHost.Proofs.Host.Witnesses
import ContractHost.Proofs.Host.Authority
import ContractHost.Proofs.Host.Events
import ContractHost.Proofs.Host.StorageMap
import ContractHost.Proofs.Host.Operations
import ContractHost.Proofs.Host.Destroying
import ContractHost.Proofs.Host.HalfDestroyed
import ContractHost.Proofs.Host.TwoSessions
import ContractHost.Proofs.Host.Isolation
import ContractHost.Proofs.Value.Handles
import ContractHost.Proofs.Host.Footprint
import ContractHost.Proofs.Host.Exchanges
import ContractHost.Proofs.Host.MethodHashes
import ContractHost.Proofs.Host.Outcomes
import ContractHost.Proofs.Host.Capabilities
import ContractHost.Proofs.Host.Reencoding
import ContractHost.Proofs.Host.Trace
import ContractHost.Proofs.Wire.ExactFraming
import ContractHost.Proofs.Value.Balance
import ContractHost.Proofs.Serial.Binary
import ContractHost.Proofs.Serial.Json
import ContractHost.Proofs.Serial.Ledger
