import MeteredVm.Journal.Trace
import MeteredVm.Journal.Lines
import MeteredVm.Script
import MeteredVm.Session
import MeteredVm.Proofs.Accounting
import MeteredVm.Proofs.Rollback
import MeteredVm.Proofs.Safety
import MeteredVm.Proofs.Snapshots
import MeteredVm.Proofs.Evaluation
import MeteredVm.Proofs.Boundaries
import MeteredVm.Proofs.Static
import MeteredVm.Proofs.Halting
import MeteredVm.Proofs.Conservation
import MeteredVm.Proofs.CallStack
import MeteredVm.Proofs.Stipend
import MeteredVm.Proofs.Decoding
import MeteredVm.Proofs.MemoryFees
import MeteredVm.Proofs.SingleStep
import MeteredVm.Proofs.Refunds
import MeteredVm.Proofs.Retained
import MeteredVm.Proofs.Settling
import MeteredVm.Proofs.Caching
import MeteredVm.Proofs.Forks
import MeteredVm.Proofs.Tracing
import MeteredVm.Proofs.SpareGas
import MeteredVm.Proofs.Existence
import MeteredVm.Proofs.Failures
import MeteredVm.Proofs.FaithfulTrace
import MeteredVm.Proofs.Walking
import MeteredVm.Proofs.NetMetering
import MeteredVm.Proofs.ChildGas
import MeteredVm.Proofs.EndlessMemory
import MeteredVm.Proofs.StackShapes
import MeteredVm.Proofs.StackRoom
import MeteredVm.Proofs.TwosComplement
import MeteredVm.Proofs.MemoryPricing
import MeteredVm.Proofs.FrameBounds
import MeteredVm.Proofs.Subroutines
import MeteredVm.Proofs.OwnAccount
import MeteredVm.Proofs.ChildOutput
import MeteredVm.Proofs.ModularArithmetic
import MeteredVm.Proofs.PaddedReads
