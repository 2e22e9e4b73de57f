import Lineage.BigMap.Arena
import Lineage.BigMap.Enrichment
import Lineage.BigMap.Error
import Lineage.BigMap.Log
import Lineage.BigMap.Persistence
import Lineage.BigMap.Pointer
import Lineage.BigMap.Receipt
import Lineage.BigMap.Resolution
import Lineage.BigMap.Resolver
import Lineage.BigMap.Settings
import Lineage.Calendar.Date
import Lineage.Calendar.Timestamp
import Lineage.Contract.Entrypoint
import Lineage.Contract.Interface
import Lineage.Contract.Script
import Lineage.Contract.Standard
import Lineage.Contract.Tree
import Lineage.Digest.Base58
import Lineage.Digest.Sha256
import Lineage.Form.Reader
import Lineage.Form.Schema
import Lineage.Json.Basic
import Lineage.Json.Number
import Lineage.Json.Printer
import Lineage.Json.Reader
import Lineage.Json.Selection
import Lineage.Ledger.Conformance
import Lineage.Ledger.Fault
import Lineage.Ledger.Record
import Lineage.Ledger.Repository
import Lineage.Ledger.Store
import Lineage.Micheline.Annotations
import Lineage.Micheline.Basic
import Lineage.Micheline.Identifier
import Lineage.Micheline.Json
import Lineage.Text.Decimal
import Lineage.Text.Dictionary
import Lineage.Text.DoubleRange
import Lineage.Text.Hex
import Lineage.Text.Utf8
import Lineage.Toml.Basic
import Lineage.Toml.Moment
import Lineage.Toml.Number
import Lineage.Toml.Reader
import Lineage.Toml.Table
import Lineage.Toml.Text
import Lineage.Typed.Binding
import Lineage.Typed.Catalog
import Lineage.Typed.Difference
import Lineage.Typed.Encoding
import Lineage.Typed.Error
import Lineage.Typed.Node
import Lineage.Typed.Ordering
import Lineage.Typed.Overlay
import Lineage.Typed.Scalar
import Lineage.Typed.Shape
import Lineage.Typed.Signature
import Lineage.Typed.TypeExpression
import Lineage.Typed.View
import Lineage.Proofs.BigMap.Ancestry
import Lineage.Proofs.BigMap.Arena
import Lineage.Proofs.BigMap.Resolver
import Lineage.Proofs.BigMap.LiveRecords
import Lineage.Proofs.BigMap.Links
import Lineage.Proofs.BigMap.Replay
import Lineage.Proofs.BigMap.Copying
import Lineage.Proofs.BigMap.Heritage
import Lineage.Proofs.BigMap.Stamp
import Lineage.Proofs.BigMap.Rerun
import Lineage.Proofs.BigMap.Schemas
import Lineage.Proofs.BigMap.Group
import Lineage.Proofs.BigMap.FinalPointers
import Lineage.Proofs.BigMap.Orderly
import Lineage.Proofs.Contract.Entrypoint
import Lineage.Proofs.Contract.Settled
import Lineage.Proofs.Contract.Parameters
import Lineage.Proofs.Text.Decimal
import Lineage.Proofs.Typed.TypeExpression
import Lineage.Proofs.Typed.Binding
import Lineage.Proofs.Typed.RoundTrip
import Lineage.Proofs.Typed.Skeleton
import Lineage.Proofs.Typed.View
import Lineage.Proofs.Typed.Encoding
import Lineage.Proofs.Typed.Alternatives
import Lineage.Proofs.Typed.Rebinding
import Lineage.Proofs.Typed.Bound
import Lineage.Proofs.Typed.Ordering
import Lineage.Proofs.Ledger.Transactions
import Lineage.Proofs.BigMap.Persistence
import Lineage.Proofs.Typed.Marks
import Lineage.Proofs.Typed.Sameness
import Lineage.Proofs.Typed.Paths
import Lineage.Proofs.Typed.Faithful
import Lineage.Proofs.Typed.Difference
import Lineage.Proofs.Micheline.Annotations
import Lineage.Proofs.Micheline.Json
import Lineage.Proofs.Typed.Rereading
import Lineage.Proofs.Typed.Charts
import Lineage.Proofs.Typed.Active
import Lineage.Proofs.BigMap.Pointers
import Lineage.Proofs.Typed.Entries
import Lineage.Proofs.Typed.Inlining
import Lineage.Proofs.BigMap.Enrichment
import Lineage.Proofs.Ledger.LiveState
import Lineage.Proofs.Text.Comparison
import Lineage.Proofs.Typed.Literals
import Lineage.Proofs.Typed.Places
import Lineage.Proofs.Contract.Frame
import Lineage.Proofs.BigMap.LastWrites
import Lineage.Proofs.Typed.TypeEquality
import Lineage.Proofs.Typed.Pairing
import Lineage.Proofs.Contract.Naming
import Lineage.Proofs.Typed.Facing
import Lineage.Proofs.Typed.Alignment
import Lineage.Proofs.Contract.Combs
import Lineage.Proofs.Text.Dictionary
import Lineage.Proofs.Form.Fields
import Lineage.Proofs.Form.Reader
import Lineage.Proofs.Form.Conformance
import Lineage.Proofs.Form.Values
import Lineage.Proofs.Form.Expression
import Lineage.Proofs.Typed.References
import Lineage.Proofs.Typed.Catalog
import Lineage.Proofs.Contract.Interface
import Lineage.Proofs.Digest.Base58
import Lineage.Proofs.Micheline.Identifier
import Lineage.Proofs.Text.Utf8
import Lineage.Proofs.Micheline.Packed
import Lineage.Proofs.Calendar.Date
import Lineage.Proofs.Calendar.Timestamp
import Lineage.Proofs.Typed.Moments
import Lineage.Proofs.Calendar.DateTime
import Lineage.Proofs.Text.Grammar
import Lineage.Proofs.Typed.Landing
import Lineage.Proofs.Typed.Stored
import Lineage.Proofs.BigMap.LiveSet
import Lineage.Proofs.BigMap.Log
import Lineage.Proofs.BigMap.Clashes
import Lineage.Proofs.BigMap.Identifiers
import Lineage.Proofs.BigMap.Slots
import Lineage.Proofs.BigMap.Walk
