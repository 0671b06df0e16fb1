import TensorChebyshev.Index.Cells
import TensorChebyshev.Expansion.Text
import TensorChebyshev.Workspace
import TensorChebyshev.Proofs.Product.Transform
import TensorChebyshev.Proofs.Inverse.Convergence
import TensorChebyshev.Proofs.Expansion.Compose
import TensorChebyshev.Proofs.Expansion.ComposeSeries
import TensorChebyshev.Proofs.Expansion.Apply
import TensorChebyshev.Proofs.Expansion.Division
import TensorChebyshev.Proofs.Expansion.Change
import TensorChebyshev.Proofs.Workspace.Invariant
import TensorChebyshev.Proofs.Series.Interpolant
import TensorChebyshev.Proofs.Expansion.ClosedForm
import TensorChebyshev.Proofs.Expansion.Enclosure
import TensorChebyshev.Proofs.Expansion.Equality
import TensorChebyshev.Proofs.Words.Widths
import TensorChebyshev.Proofs.Product.Power
import TensorChebyshev.Proofs.Expansion.Padding
import TensorChebyshev.Proofs.Cosine.Spectrum
import TensorChebyshev.Proofs.Index.Access
import TensorChebyshev.Proofs.Index.Groups
import TensorChebyshev.Proofs.Words.Values
import TensorChebyshev.Proofs.Expansion.Text
