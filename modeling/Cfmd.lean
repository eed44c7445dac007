import Cfmd.Grounded.Reconcile
import Cfmd.Rewrite.Residual
import Cfmd.Lifecycle.Maintained
import Cfmd.Effect.Schedule
import Cfmd.Semantics.Refinement
import Cfmd.Semantics.KeyExact
import Cfmd.Persistent.OrderedRuns
import Cfmd.Aggregate.F64SumRuns
import Cfmd.Grounded.Bipolar
import Cfmd.Protocol.WirePayload
import Cfmd.Query.DeltaPairs
import Cfmd.Fixpoint.CertificateCheck
import Cfmd.Rewrite.Coordination
import Cfmd.Durability.CausalValidation
import Cfmd.Durability.PreparedLedger
import Cfmd.Durability.ModelDelta
import Cfmd.Durability.FreshnessAuthority
import Cfmd.Durability.CausalObservations
import Cfmd.Lifecycle.Merge
import Cfmd.Semantics.AnchorMeasure
import Cfmd.Exact.Integer
import Cfmd.Query.LinearIsland
