import HieroCryptography.Rust.Outcome
import HieroCryptography.Rust.Meets
import HieroCryptography.Rust.Collections
import HieroCryptography.Rust.Wire
import HieroCryptography.Rust.Native
import HieroCryptography.Foundation.Lists
import HieroCryptography.Foundation.EvaluationDomain
import HieroCryptography.Foundation.DensePolynomial
import HieroCryptography.Foundation.PairingGroups
import HieroCryptography.Foundation.Lucas
import HieroCryptography.Foundation.Horner
import HieroCryptography.Foundation.BivariateRoots
import HieroCryptography.Foundation.SchnorrShares
import HieroCryptography.Foundation.Bits
import HieroCryptography.Foundation.ConstraintSystem
import HieroCryptography.Foundation.Recency
import HieroCryptography.Foundation.CachedCalls
import HieroCryptography.Foundation.Bytes
import HieroCryptography.Foundation.Tlv
import HieroCryptography.Foundation.Base128
import HieroCryptography.Foundation.PaddedOrder
import HieroCryptography.Foundation.Calendar
import HieroCryptography.Hints.Curve
import HieroCryptography.Hints.Utils
import HieroCryptography.Hints.Kzg
import HieroCryptography.Hints.Keys
import HieroCryptography.Hints.Transcript
import HieroCryptography.Hints.Hint
import HieroCryptography.Hints.Preprocess
import HieroCryptography.Hints.Relations
import HieroCryptography.Hints.Aggregate
import HieroCryptography.Hints.Binding
import HieroCryptography.Hints.Verify
import HieroCryptography.Hints.Correctness
import HieroCryptography.Hints.Malleability
import HieroCryptography.Hints.Lagrange
import HieroCryptography.Hints.Openings
import HieroCryptography.Hints.Eip2537
import HieroCryptography.Hints.SyncAggregate
import HieroCryptography.Hints.ErrorBound
import HieroCryptography.Hints.Batch
import HieroCryptography.Hints.Threshold
import HieroCryptography.Hints.Setup
import HieroCryptography.Hints.Ceremony
import HieroCryptography.Hints.NoPanic
import HieroCryptography.Hints.JniCache
import HieroCryptography.Hints.Serialization
import HieroCryptography.Hints.Jni
import HieroCryptography.Hints.LibraryBridge
import HieroCryptography.Hints.Shares
import HieroCryptography.Hints.BridgeArrays
import HieroCryptography.Hints.BridgeCeremony
import HieroCryptography.Hints.BridgeSession
import HieroCryptography.Wraps.Engine
import HieroCryptography.Wraps.Schnorr
import HieroCryptography.Wraps.AddressBook
import HieroCryptography.Wraps.Signing
import HieroCryptography.Wraps.LineEngine
import HieroCryptography.Wraps.Quorum
import HieroCryptography.Wraps.Aggregation
import HieroCryptography.Wraps.Agreement
import HieroCryptography.Wraps.Gadgets
import HieroCryptography.Wraps.Circuit
import HieroCryptography.Wraps.CircuitSound
import HieroCryptography.Wraps.CircuitComplete
import HieroCryptography.Wraps.DirectGadgets
import HieroCryptography.Wraps.Refinement
import HieroCryptography.Wraps.Proof
import HieroCryptography.Wraps.NoPanic
import HieroCryptography.Wraps.IdealNova
import HieroCryptography.Wraps.Chain
import HieroCryptography.Wraps.Padding
import HieroCryptography.Wraps.Runs
import HieroCryptography.Wraps.Serialization
import HieroCryptography.Wraps.Jni
import HieroCryptography.Wraps.LibraryBridge
import HieroCryptography.Wraps.BridgeSigning
import HieroCryptography.Wraps.BridgeSession
import HieroCryptography.Wraps.BridgeLifecycle
import HieroCryptography.Tss.LruCache
import HieroCryptography.Tss.Verify
import HieroCryptography.Tss.Compose
import HieroCryptography.Tss.Network
import HieroCryptography.Security.DerOutputStream
import HieroCryptography.Security.DerWriter
import HieroCryptography.Security.DerEncoder
import HieroCryptography.Security.Nodes
import HieroCryptography.Security.Certificate
import HieroCryptography.Security.Oid
import HieroCryptography.Security.OidPacking
import HieroCryptography.Security.OidEncoding
import HieroCryptography.Security.Rdn
import HieroCryptography.Security.Interval
