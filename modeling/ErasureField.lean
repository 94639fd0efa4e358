import ErasureField.ElementBuffer
import ErasureField.FieldChoice.Document
import ErasureField.Proofs.BitPolynomial
import ErasureField.Proofs.Residue
import ErasureField.Proofs.Generator
import ErasureField.Proofs.PowerWalk
import ErasureField.Proofs.Logarithm
import ErasureField.Proofs.PartialProduct
import ErasureField.Proofs.PartialProductLaws
import ErasureField.Proofs.TableSet
import ErasureField.Proofs.WalkOutcome
import ErasureField.Proofs.OrderTest
import ErasureField.Proofs.WidthReading
import ErasureField.Proofs.TableArithmetic
import ErasureField.Proofs.OperationOutcome
import ErasureField.Proofs.FieldLaws
import ErasureField.Proofs.DiscreteLogarithm
import ErasureField.Proofs.ByteNumber
import ErasureField.Proofs.Lane
import ErasureField.Proofs.WordAccess
import ErasureField.Proofs.Multiplier
import ErasureField.Proofs.WordKernel
import ErasureField.Proofs.RegionMultiple
import ErasureField.Proofs.ZeroEntry
import ErasureField.Proofs.StorageWord
import ErasureField.Proofs.Registry
import ErasureField.Proofs.CallHistory
import ErasureField.Proofs.FieldChoice
import ErasureField.Proofs.RegionInPlace
import ErasureField.Proofs.RegionOutcome
import ErasureField.Proofs.RegionResidue
import ErasureField.Proofs.RegionScaling
import ErasureField.Proofs.Accumulation
import ErasureField.Proofs.Recovery
import ErasureField.Proofs.ElementBuffer
import ErasureField.Proofs.ElementAccess
import ErasureField.Proofs.BufferHistory
