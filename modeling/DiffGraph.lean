import DiffGraph.Proofs.Draft.Accumulation
import DiffGraph.Proofs.Draft.Arithmetic
import DiffGraph.Proofs.Draft.Conservation
import DiffGraph.Proofs.Draft.Constants
import DiffGraph.Proofs.Draft.EmittedTypes
import DiffGraph.Proofs.Draft.Evaluation
import DiffGraph.Proofs.Draft.Execution
import DiffGraph.Proofs.Draft.ForeignNodes
import DiffGraph.Proofs.Draft.HashConsing
import DiffGraph.Proofs.Draft.IndexedWrites
import DiffGraph.Proofs.Draft.IntegerConstants
import DiffGraph.Proofs.Draft.Names
import DiffGraph.Proofs.Draft.Nesting
import DiffGraph.Proofs.Draft.NormalForms
import DiffGraph.Proofs.Draft.OperandsFirst
import DiffGraph.Proofs.Draft.OutgrownRecords
import DiffGraph.Proofs.Draft.OverwrittenGradients
import DiffGraph.Proofs.Draft.OwnReads
import DiffGraph.Proofs.Draft.PrimalCopy
import DiffGraph.Proofs.Draft.ReplacementLimits
import DiffGraph.Proofs.Draft.SlotTypes
import DiffGraph.Proofs.Draft.TotalAdjoints
import DiffGraph.Proofs.Draft.WrittenAddresses
import DiffGraph.Proofs.Operator.Dispatch
import DiffGraph.Proofs.Types.Spelling
import DiffGraph.Samples
