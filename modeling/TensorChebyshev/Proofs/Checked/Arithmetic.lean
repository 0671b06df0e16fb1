import TensorChebyshev.Proofs.Checked.Expansion

/-!
# Arithmetic that may stop

Sums, products, quotients, powers and reciprocals. Shapes are compared where the
library compares them and nowhere else: the products inside a reciprocal or a power
take for granted that their factors go together, and the lengths of what they are
given are never looked at.
-/

namespace TensorChebyshev.Raw

variable {T R : Type} [RealLine R] [Scalar T R] {s : Shape}

/-! ## Sums and scalars -/

def map (f : T → T) (e : Raw T) : Raw T := ⟨e.shape, e.coeffs.map f⟩

def zipWith (f : T → T → T) (a b : Raw T) : Checked R (Raw T) := do
  checkShape a b
  return ⟨a.shape, Array.zipWith f a.coeffs b.coeffs⟩

def add (a b : Raw T) : Checked R (Raw T) := zipWith (· + ·) a b

def sub (a b : Raw T) : Checked R (Raw T) := zipWith (· - ·) a b

def neg (e : Raw T) : Raw T := e.map (- ·)

def addScalar (e : Raw T) (value : T) : Checked R (Raw T) := do
  let c ← e.constantTerm
  e.setConstantTerm (c + value)

def subScalar (e : Raw T) (value : T) : Checked R (Raw T) := do
  let c ← e.constantTerm
  e.setConstantTerm (c - value)

def divScalar (e : Raw T) (value : T) : Checked R (Raw T) :=
  if isZero value then Checked.refuse .zeroDivisor else .ok (e.map (· / value))

omit [RealLine R] [Scalar T R] in
@[simp] theorem zipWith_of (f : T → T → T) (a b : s.Coefficients T) :
    zipWith f (of a) (of b) = (.ok (of (a.zipWith f b)) : Checked R _) := by
  rw [zipWith, checkShape, if_pos ⟨rfl, rfl⟩]
  rfl

omit [RealLine R] in
@[simp] theorem add_of (a b : s.Coefficients T) :
    (of a).add (of b) = (.ok (of (a + b)) : Checked R _) := zipWith_of ..

omit [RealLine R] in
@[simp] theorem sub_of (a b : s.Coefficients T) :
    (of a).sub (of b) = (.ok (of (a - b)) : Checked R _) := zipWith_of ..

omit [RealLine R] [Scalar T R] in
@[simp] theorem map_of (f : T → T) (v : s.Coefficients T) : (of v).map f = of (v.map f) := by
  rw [map, of, of, Vector.toArray_map]

omit [RealLine R] in
theorem add_raw (a b : Expansion T) : a.raw.add b.raw = ofResult (a.add b) :=
  checkShape_bind a b fun c hc => by
    rw [hc]
    rfl

omit [RealLine R] in
theorem sub_raw (a b : Expansion T) : a.raw.sub b.raw = ofResult (a.sub b) :=
  checkShape_bind a b fun c hc => by
    rw [hc]
    rfl

omit [RealLine R] in
theorem neg_raw (e : Expansion T) : e.raw.neg = e.neg.raw := map_of _ e.coeffs

omit [RealLine R] in
@[simp] theorem addScalar_of (v : s.Coefficients T) (value : T) :
    (of v).addScalar value = (.ok (of (Shape.addConstant v value)) : Checked R _) := by
  rw [addScalar, constantTerm_of, Checked.ok_bind, setConstantTerm_of]
  rfl

omit [RealLine R] in
@[simp] theorem subScalar_of (v : s.Coefficients T) (value : T) :
    (of v).subScalar value = (.ok (of (Shape.subConstant v value)) : Checked R _) := by
  rw [subScalar, constantTerm_of, Checked.ok_bind, setConstantTerm_of]
  rfl

omit [RealLine R] in
theorem divScalar_raw (e : Expansion T) (value : T) :
    e.raw.divScalar value = ofResult (e.divScalar value) := by
  rw [divScalar, Expansion.divScalar]
  by_cases h : isZero value
  · rw [if_pos h, if_pos h]
    rfl
  · rw [if_neg h, if_neg h]
    exact congrArg Except.ok (map_of _ e.coeffs)

/-! ## Products and powers -/

variable [CosineTransform T]

def multiply (strategy : Strategy) (a b : Raw T) : Checked R (Raw T) := do
  checkShape a b
  a.product strategy b

/-- The factor of a power for a binary digit of the exponent. -/
def timesDigit (acc base : Raw T) (digit : Nat) : Checked R (Raw T) :=
  if digit = 1 then acc.product .standard base else .ok acc

/-- The remaining factors of a power. -/
def powerLoop (acc base : Raw T) (n : Nat) : Checked R (Raw T) :=
  if n = 0 then return acc
  else do
    let acc ← acc.timesDigit base (n % 2)
    if n / 2 = 0 then return acc
    else
      let square ← base.product .standard base
      powerLoop acc square (n / 2)
termination_by n
decreasing_by omega

def power (e : Raw T) (n : Nat) : Checked R (Raw T) := do
  let one ← e.constantLike 1
  powerLoop one e n

theorem multiply_raw (strategy : Strategy) (a b : Expansion T) :
    a.raw.multiply strategy b.raw = ofResult (a.multiply strategy b) :=
  checkShape_bind a b fun c hc => by
    rw [hc]
    exact product_of strategy a.coeffs c

theorem timesDigit_of (acc base : s.Coefficients T) (digit : Nat) :
    (of acc).timesDigit (of base) digit
      = .ok (of (if digit = 1 then Shape.multiply .standard acc base else acc)) := by
  by_cases h : digit = 1
  · rw [timesDigit, if_pos h, if_pos h, product_of]
  · rw [timesDigit, if_neg h, if_neg h]

theorem powerLoop_of (acc base : s.Coefficients T) (n : Nat) :
    powerLoop (of acc) (of base) n = .ok (of (Shape.powerLoop acc base n)) := by
  induction n using Nat.strong_induction_on generalizing acc base with
  | _ n ih =>
      rw [powerLoop, Shape.powerLoop]
      by_cases hn : n = 0
      · rw [if_pos hn, if_pos hn]
        rfl
      rw [if_neg hn, if_neg hn, timesDigit_of, Checked.ok_bind]
      by_cases hhalf : n / 2 = 0
      · rw [if_pos hhalf, if_pos hhalf]
        rfl
      · rw [if_neg hhalf, if_neg hhalf, product_of, Checked.ok_bind]
        exact ih (n / 2) (by omega) _ _

theorem power_raw (e : Expansion T) (n : Nat) : e.raw.power n = .ok (e.power n).raw := by
  rw [power, Expansion.raw, constantLike_of, Checked.ok_bind]
  exact powerLoop_of _ e.coeffs n

/-! ## Reciprocals -/

def norm (e : Raw T) : R := e.coeffs.foldl (fun acc x => acc + Scalar.magnitude x) 0

/-- An approximate reciprocal with its residual and the norm of that. -/
structure Iterate (T R : Type) where
  y : Raw T
  residual : Raw T
  norm : R

/-- The iterate with the approximation `y` of the reciprocal of `x`. -/
def iterate (strategy : Strategy) (x y : Raw T) : Checked R (Iterate T R) := do
  let one ← x.constantLike 1
  let xy ← x.product strategy y
  let residual ← one.sub xy
  return ⟨y, residual, residual.norm⟩

def refine (strategy : Strategy) (tolerance : R) (x : Raw T) :
    (steps : Nat) → Iterate T R → Checked R (Iterate T R)
  | 0, it => return it
  | steps + 1, it =>
    if RealLine.le it.norm tolerance then return it
    else do
      let step ← it.y.product strategy it.residual
      let y ← it.y.add step
      let next ← iterate strategy x y
      if RealLine.isNaN next.norm || RealLine.le it.norm next.norm then return it
      else refine strategy tolerance x steps next

def inverse (options : NewtonOptions R) (x : Raw T) : Checked R (Raw T) := do
  let c ← x.constantTerm
  if isZero c then Checked.refuse .zeroConstantTerm
  else
    let start ← x.constantLike (1 / c)
    if ← x.isConstant then return start
    else
      let first ← iterate options.strategy x start
      let it ← refine options.strategy options.tolerance x options.maxIterations first
      if RealLine.isNaN it.norm || RealLine.le 1 it.norm then
        Checked.refuse (.notConverged it.norm)
      else return it.y

def divide (a b : Raw T) : Checked R (Raw T) := do
  checkShape a b
  let y ← b.inverse NewtonOptions.standard
  a.product .standard y

section Reciprocals

/-- An iterate without what its type says. -/
def Iterate.of (it : Shape.Iterate s T R) : Iterate T R :=
  ⟨Raw.of it.y, Raw.of it.residual, it.norm⟩

theorem iterate_of (strategy : Strategy) (x y : s.Coefficients T) :
    iterate strategy (of x) (of y) = .ok (Iterate.of (Shape.Iterate.of strategy x y)) := by
  rw [iterate, constantLike_of, Checked.ok_bind, product_of, Checked.ok_bind, sub_of,
    Checked.ok_bind]
  rfl

/-- **The iteration stays in its shape**, by induction on the steps that are left. -/
theorem refine_of (strategy : Strategy) (tolerance : R) (x : s.Coefficients T) (steps : Nat)
    (it : Shape.Iterate s T R) :
    refine strategy tolerance (of x) steps (Iterate.of it)
      = .ok (Iterate.of (Shape.refine strategy tolerance x steps it)) := by
  induction steps generalizing it with
  | zero => rfl
  | succ steps ih =>
      rw [refine, Shape.refine]
      show (if RealLine.le it.norm tolerance then _ else _) = _
      by_cases hdone : RealLine.le it.norm tolerance
      · rw [if_pos hdone, if_pos hdone]
        rfl
      rw [if_neg hdone, if_neg hdone]
      show ((Raw.of it.y).product strategy (Raw.of it.residual) >>= fun step => _) = _
      rw [product_of, Checked.ok_bind]
      show ((Raw.of it.y).add _ >>= fun y => _) = _
      rw [add_of, Checked.ok_bind, iterate_of, Checked.ok_bind]
      let next := it.next strategy x
      show (if RealLine.isNaN next.norm || RealLine.le it.norm next.norm then _ else _) = _
      by_cases hback : RealLine.isNaN next.norm || RealLine.le it.norm next.norm
      · rw [if_pos hback, if_pos hback]
        rfl
      · rw [if_neg hback, if_neg hback]
        exact ih next

theorem inverse_of (options : NewtonOptions R) (x : s.Coefficients T) :
    (of x).inverse options
      = Checked.ofResult ((Shape.inverse options x).map of) := by
  rw [inverse, constantTerm_of, Checked.ok_bind, Shape.inverse]
  by_cases hzero : isZero (Shape.constantTerm x)
  · rw [if_pos hzero, if_pos hzero]
    rfl
  rw [if_neg hzero, if_neg hzero, constantLike_of, Checked.ok_bind, isConstant_of, Checked.ok_bind]
  by_cases hconstant : Shape.isConstant x
  · rw [if_pos hconstant, if_pos hconstant]
    rfl
  rw [if_neg hconstant, if_neg hconstant, iterate_of, Checked.ok_bind, refine_of, Checked.ok_bind]
  let it := Shape.refine options.strategy options.tolerance x options.maxIterations
    (Shape.Iterate.of options.strategy x (s.constant (1 / Shape.constantTerm x)))
  show (if RealLine.isNaN it.norm || RealLine.le 1 it.norm then _ else _)
    = Checked.ofResult (Except.map of (if RealLine.isNaN it.norm || RealLine.le 1 it.norm then _
        else _))
  by_cases hfar : RealLine.isNaN it.norm || RealLine.le 1 it.norm
  · rw [if_pos hfar, if_pos hfar]
    rfl
  · rw [if_neg hfar, if_neg hfar]
    rfl

theorem inverse_raw (options : NewtonOptions R) (e : Expansion T) :
    e.raw.inverse options = ofResult (e.inverse options) := by
  rw [Expansion.raw, inverse_of, Expansion.inverse]
  cases Shape.inverse options e.coeffs <;> rfl

theorem divide_raw (a b : Expansion T) : a.raw.divide b.raw = ofResult (a.divide b) :=
  checkShape_bind a b fun c hc => by
    rw [hc, inverse_of]
    cases Shape.inverse NewtonOptions.standard c with
    | error cause => rfl
    | ok y => exact product_of .standard a.coeffs y

end Reciprocals

/-! ## Operators -/

def combine : Operator → Raw T → Raw T → Checked R (Raw T)
  | .add => add
  | .sub => sub
  | .mul => multiply .standard
  | .div => divide

def combineScalar (op : Operator) (e : Raw T) (value : T) : Checked R (Raw T) :=
  match op with
  | .add => e.addScalar value
  | .sub => e.subScalar value
  | .mul => .ok (e.scale value)
  | .div => e.divScalar value

def scalarCombine (op : Operator) (value : T) (e : Raw T) : Checked R (Raw T) :=
  match op with
  | .add => e.addScalar value
  | .sub => e.neg.addScalar value
  | .mul => .ok (e.scale value)
  | .div => do
    let y ← e.inverse NewtonOptions.standard
    return y.scale value

theorem combine_raw (op : Operator) (a b : Expansion T) :
    combine op a.raw b.raw = ofResult (Expansion.combine op a b) := by
  cases op with
  | add => exact add_raw a b
  | sub => exact sub_raw a b
  | mul => exact multiply_raw .standard a b
  | div => exact divide_raw a b

omit [RealLine R] [CosineTransform T] in
theorem combineScalar_raw (op : Operator) (e : Expansion T) (value : T) :
    combineScalar op e.raw value = ofResult (Expansion.combineScalar op e value) := by
  cases op with
  | add => exact addScalar_of e.coeffs value
  | sub => exact subScalar_of e.coeffs value
  | mul => exact congrArg Except.ok (scale_of e.coeffs value)
  | div => exact divScalar_raw e value

theorem scalarCombine_raw (op : Operator) (value : T) (e : Expansion T) :
    scalarCombine op value e.raw = ofResult (Expansion.scalarCombine op value e) := by
  cases op with
  | add => exact addScalar_of e.coeffs value
  | sub =>
      show e.raw.neg.addScalar value = _
      rw [neg_raw]
      exact addScalar_of _ value
  | mul => exact congrArg Except.ok (scale_of e.coeffs value)
  | div =>
      show (e.raw.inverse NewtonOptions.standard >>= _) = _
      rw [inverse_raw, Expansion.scalarCombine]
      cases e.inverse NewtonOptions.standard with
      | error cause => rfl
      | ok y => exact congrArg Except.ok (scale_of y.coeffs value)

end TensorChebyshev.Raw
