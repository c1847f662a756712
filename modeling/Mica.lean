import Mica.Kernel.Interleaving
import Mica.Kernel.Staged
import Mica.Kernel.Reload
import Mica.Kernel.ClientApplies
import Mica.Kernel.BufferHistory
import Mica.Kernel.ReconcileRelation
import Mica.Kernel.RelationAlgebra
import Mica.Kernel.Stratify
import Mica.Kernel.AccessPaths
import Mica.Kernel.DispatchParams
import Mica.Kernel.Delegation
import Mica.Kernel.DispatchOrder
import Mica.Kernel.RecursiveFixpoint
import Mica.Provider.Materialized
import Mica.Provider.CommitWriter
import Mica.Provider.CommitRoundTrip
import Mica.Provider.Revisions
import Mica.Provider.CheckpointReplay
import Mica.Runtime.Delivery
import Mica.Runtime.Retry
import Mica.Runtime.TaskManager
import Mica.Buffer.Convergence
import Mica.Buffer.Exact
import Mica.Buffer.Marker
import Mica.Buffer.RopeQueries
import Mica.Auth.Session
import Mica.Sync.Safety
import Mica.Sync.Reconcile
import Mica.Sync.Reassembly
import Mica.Host.Stream
import Mica.Var.NumericOrder
import Mica.Compiler.InstallRules
import Mica.Compiler.TypeContracts
import Mica.Vm.Facts
import Mica.Driver.AdmissionRuns
import Mica.Driver.FactRuns
