import TensorChebyshev.Index.GradedBasis
import TensorChebyshev.Product.Linearization

/-!
Shapes: a graded basis together with the products of its functions, which are worked out the
first time a multiplication needs them. Coefficients of a shape are vectors of its size.
-/

namespace TensorChebyshev

/-- A graded basis with its product rows. -/
structure Shape extends GradedBasis where
  products : Stored (productRows nvar degree listed.get)

/-- A position beyond the last basis function was asked for. -/
structure PositionFault where
  position : Nat
  deriving DecidableEq, Repr

def PositionFault.message (f : PositionFault) : String :=
  s!"basis index {f.position} out of range"

/-- One coefficient for each basis function of a shape. -/
abbrev Shape.Coefficients (s : Shape) (T : Type) : Type := Vector T s.size

namespace Shape

/-- The shape of a basis. Its products are worked out when they are asked for. -/
def ofBasis (b : GradedBasis) : Shape where
  toGradedBasis := b
  products := Stored.delay fun _ => productRows b.nvar b.degree b.listed.get

def ofAdmissible {nvar degree : Nat} (h : Admissible nvar degree) : Shape :=
  ofBasis (GradedBasis.ofAdmissible h)

/-- The shape of `nvar` variables up to `degree`, or the first reason against it. -/
def build (nvar degree : Nat) : Except IndexError Shape :=
  (GradedBasis.build nvar degree).map ofBasis

variable (s : Shape)

/-- The product of the basis functions at two positions of the shape. -/
def product (i j : Nat) : ProductRow :=
  (s.products.get[slot (min i j) (max i j)]?).getD ⟨[], 0⟩

/-- The product of the basis functions at two positions, which have to be positions of the
shape; otherwise the larger one is at fault. -/
def pair (i j : Nat) : Except PositionFault ProductRow :=
  if max i j < s.size then .ok (s.product i j) else .error ⟨max i j⟩

/-- The number of terms of all products of positions `i ≤ j`. -/
def termCount : Nat :=
  s.products.get.foldl (fun count row => count + row.terms.length) 0

/-- Both shapes have the same number of variables and the same degree. -/
def Alike (s t : Shape) : Prop := s.nvar = t.nvar ∧ s.degree = t.degree

instance (s t : Shape) : Decidable (s.Alike t) :=
  inferInstanceAs (Decidable (s.nvar = t.nvar ∧ s.degree = t.degree))

theorem Alike.size_eq {s t : Shape} (h : s.Alike t) : s.size = t.size :=
  GradedBasis.size_congr h

def debug : String :=
  s!"Shape \x7b nvar: {s.nvar}, degree: {s.degree}, len: {s.size}, .. \x7d"

end Shape

end TensorChebyshev
