import TensorChebyshev.Proofs.Checked.Product
import TensorChebyshev.Proofs.Checked.Sum

/-!
# Expansions that no type vouches for

The ways to make expansions and to change single coefficients, where the number of
coefficients is whatever the array holds. Started on an expansion of the library,
each of these computations has exactly the result of the library's operation,
refusals included, and so it never stops.
-/

namespace TensorChebyshev

variable {T R : Type}

/-- The expansion without what its type says. -/
def Expansion.raw (e : Expansion T) : Raw T := Raw.of e.coeffs

namespace Raw

def nvar (e : Raw T) : Nat := e.shape.nvar

def degree (e : Raw T) : Nat := e.shape.degree

/-- An expansion that the library makes or refuses. -/
def ofResult (r : Result R (Expansion T)) : Checked R (Raw T) :=
  Checked.ofResult (r.map Expansion.raw)

@[simp] theorem ofResult_ok (e : Expansion T) : ofResult (.ok e : Result R _) = .ok e.raw := rfl

@[simp] theorem ofResult_error (cause : Error R) :
    ofResult (.error cause : Result R (Expansion T)) = Checked.refuse cause := rfl

theorem ofResult_bind {A : Type} (r : Result R A) (f : A → Result R (Expansion T)) :
    ofResult (r >>= f) = Checked.ofResult r >>= fun a => ofResult (f a) := by
  cases r <;> rfl

/-! ## Operands -/

def checkShape (a b : Raw T) : Checked R Unit :=
  if a.shape.Alike b.shape then .ok ()
  else Checked.refuse (.shapesDiffer a.nvar a.degree b.nvar b.degree)

@[simp] theorem checkShape_of {s : Shape} (v w : s.Coefficients T) :
    (checkShape (of v) (of w) : Checked R Unit) = .ok () :=
  if_pos ⟨rfl, rfl⟩

/-- After a comparison of shapes the second operand has coefficients in the shape of
the first one. -/
theorem checkShape_bind (a b : Expansion T) {next : Checked R (Raw T)}
    {f : a.shape.Coefficients T → Result R (Expansion T)}
    (h : ∀ c : a.shape.Coefficients T, b.raw = of c → next = ofResult (f c)) :
    (checkShape a.raw b.raw >>= fun _ => next) = ofResult (b.coeffsIn a.shape >>= f) := by
  obtain ⟨s, v⟩ := a
  obtain ⟨t, w⟩ := b
  by_cases hst : s.Alike t
  · obtain rfl := hst.eq
    rw [Expansion.coeffsIn_self]
    exact (congrArg (· >>= fun _ => next) (checkShape_of v w)).trans (h w rfl)
  · rw [Expansion.coeffsIn, dif_neg hst]
    exact congrArg (· >>= fun _ => next) (if_neg hst)

/-! ## Single coefficients -/

def setConstantTerm (e : Raw T) (value : T) : Checked R (Raw T) := do
  let cs ← Checked.replace e.coeffs 0 value
  return ⟨e.shape, cs⟩

def setCoefficient (e : Raw T) (i : Nat) (value : T) : Checked R (Raw T) :=
  if h : i < e.coeffs.size then .ok ⟨e.shape, e.coeffs.set i value h⟩
  else Checked.refuse (.noBasisFunction i e.coeffs.size)

def setCoefficients (e : Raw T) (cs : Array T) : Checked R (Raw T) :=
  if cs.size = e.coeffs.size then .ok ⟨e.shape, cs⟩
  else Checked.refuse (.coefficientCount e.coeffs.size cs.size)

@[simp] theorem setConstantTerm_of {s : Shape} (v : s.Coefficients T) (value : T) :
    (of v).setConstantTerm value = (.ok (of (Shape.setConstantTerm v value)) : Checked R _) := by
  rw [setConstantTerm, of, Checked.replace_toArray v s.size_pos]
  rfl

theorem setCoefficient_raw (e : Expansion T) (i : Nat) (value : T) :
    e.raw.setCoefficient i value = (ofResult (e.setCoefficient i value) : Checked R _) := by
  have hsize : e.raw.coeffs.size = e.shape.size := e.coeffs.size_toArray
  rw [setCoefficient, Expansion.setCoefficient, Expansion.size]
  by_cases h : i < e.shape.size
  · rw [dif_pos (hsize ▸ h), dif_pos h]
    rfl
  · rw [dif_neg (hsize ▸ h), dif_neg h, hsize]
    rfl

theorem setCoefficients_raw (e : Expansion T) (cs : Array T) :
    e.raw.setCoefficients cs = (ofResult (e.setCoefficients cs) : Checked R _) := by
  have hsize : e.raw.coeffs.size = e.shape.size := e.coeffs.size_toArray
  rw [setCoefficients, Expansion.setCoefficients, Expansion.ofCoefficientsIn, hsize]
  by_cases h : cs.size = e.shape.size
  · rw [if_pos h, dif_pos h]
    rfl
  · rw [if_neg h, dif_neg h]
    rfl

/-! ## Making expansions -/

/-- A shape, for which first the table of its basis is made. -/
def shapeFor (nvar degree : Nat) : Checked R Shape := do
  let _ ← Sums.table degree nvar
  Checked.ofResult (Expansion.shapeFor nvar degree)

def ofCoefficients (nvar degree : Nat) (cs : Array T) : Checked R (Raw T) := do
  let s ← shapeFor nvar degree
  if cs.size = s.size then return ⟨s, cs⟩
  else Checked.refuse (.coefficientCount s.size cs.size)

/-- **Making the table of a shape does not stop.** -/
theorem shapeFor_eq (nvar degree : Nat) :
    (shapeFor nvar degree : Checked R _) = Checked.ofResult (Expansion.shapeFor nvar degree) := by
  rw [shapeFor, Sums.table_eq, Expansion.shapeFor, Shape.build]
  cases GradedBasis.build nvar degree <;> rfl

theorem ofCoefficients_eq (nvar degree : Nat) (cs : Array T) :
    (ofCoefficients nvar degree cs : Checked R _)
      = ofResult (Expansion.ofCoefficients nvar degree cs) := by
  rw [ofCoefficients, shapeFor_eq, Expansion.ofCoefficients]
  cases (Expansion.shapeFor nvar degree : Result R Shape) with
  | error cause => rfl
  | ok s =>
      show (if cs.size = s.size then _ else _) = ofResult (Expansion.ofCoefficientsIn s cs)
      rw [Expansion.ofCoefficientsIn]
      by_cases h : cs.size = s.size
      · rw [if_pos h, dif_pos h]
        rfl
      · rw [if_neg h, dif_neg h]
        rfl

section Make

variable [Arithmetic T] {s : Shape}

def zeroIn (s : Shape) : Raw T := ⟨s, Array.replicate s.size 0⟩

def zero (nvar degree : Nat) : Checked R (Raw T) := do
  let s ← shapeFor nvar degree
  return zeroIn s

def constant (nvar degree : Nat) (value : T) : Checked R (Raw T) := do
  let e ← zero nvar degree
  e.setConstantTerm value

def basis (nvar degree i : Nat) : Checked R (Raw T) := do
  let e ← zero nvar degree
  e.setCoefficient i 1

def coordinate (nvar degree v : Nat) : Checked R (Raw T) :=
  if nvar ≤ v then Checked.refuse (.noBasisFunction v nvar) else basis nvar degree (1 + v)

def zerosLike (e : Raw T) : Raw T := zeroIn e.shape

def constantLike (e : Raw T) (value : T) : Checked R (Raw T) := e.zerosLike.setConstantTerm value

@[simp] theorem zerosLike_of (v : s.Coefficients T) : (of v).zerosLike = of s.zeros := rfl

@[simp] theorem constantLike_of (v : s.Coefficients T) (value : T) :
    (of v).constantLike value = (.ok (of (s.constant value)) : Checked R _) := by
  rw [constantLike, zerosLike_of, setConstantTerm_of]
  rfl

theorem zero_eq (nvar degree : Nat) :
    (zero nvar degree : Checked R (Raw T)) = ofResult (Expansion.zero nvar degree) := by
  rw [zero, shapeFor_eq, Expansion.zero]
  cases (Expansion.shapeFor nvar degree : Result R Shape) <;> rfl

theorem constant_eq (nvar degree : Nat) (value : T) :
    (constant nvar degree value : Checked R _)
      = ofResult (Expansion.constant nvar degree value) := by
  rw [constant, zero, shapeFor_eq, Expansion.constant]
  cases (Expansion.shapeFor nvar degree : Result R Shape) with
  | error cause => rfl
  | ok s => exact setConstantTerm_of s.zeros value

theorem basis_eq (nvar degree i : Nat) :
    (basis nvar degree i : Checked R (Raw T)) = ofResult (Expansion.basis nvar degree i) := by
  rw [basis, zero_eq, Expansion.basis]
  cases (Expansion.zero nvar degree : Result R (Expansion T)) with
  | error cause => rfl
  | ok e => exact setCoefficient_raw e i 1

theorem coordinate_eq (nvar degree v : Nat) :
    (coordinate nvar degree v : Checked R (Raw T))
      = ofResult (Expansion.coordinate nvar degree v) := by
  rw [coordinate, Expansion.coordinate]
  by_cases h : nvar ≤ v
  · rw [if_pos h, if_pos h]
    rfl
  · rw [if_neg h, if_neg h]
    exact basis_eq nvar degree (1 + v)

end Make

end Raw

end TensorChebyshev
