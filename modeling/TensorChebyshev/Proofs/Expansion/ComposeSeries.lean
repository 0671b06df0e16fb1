import Mathlib
import TensorChebyshev.Expansion.Substitute
import TensorChebyshev.Proofs.Expansion.Coordinate
import TensorChebyshev.Proofs.Series.Clenshaw

/-!
# A series and its basis

A fitted series reaches an expansion in two ways: summed backward, with the
coefficients as constants that the recurrence multiplies by the mapped expansion,
or forward, as coefficients times the Chebyshev polynomials of it. Both are the
polynomials of one additive map, the multiplication by the mapped expansion, so
they agree although every product on the way is cut off.
-/

namespace TensorChebyshev

/-- What commutes with an element commutes with its Chebyshev polynomials. -/
theorem commute_chebyshev {A : Type} [Ring A] {x y : A} (h : Commute y x) (k : Nat) :
    Commute y (chebyshev x k) := by
  induction k using chebyshev.induct with
  | case1 => exact Commute.one_right y
  | case2 => exact h
  | case3 k ih1 ih0 => exact ((h.add_right h).mul_right ih1).sub_right ih0

namespace Shape

/-! ## Scaling -/

section Scale

variable {T : Type} [Arithmetic T] [ExactRing T] {s : Shape}

attribute [local instance] ExactRing.toCommRing

theorem add_scale (v w : s.Coefficients T) (c : T) : scale (v + w) c = scale v c + scale w c := by
  refine ext_eval fun φ => ?_
  rw [eval_scale, eval_add, eval_add, eval_scale, eval_scale, add_mul]

theorem scale_two (v : s.Coefficients T) : scale v (1 + 1) = v + v := by
  refine ext_eval fun φ => ?_
  rw [eval_scale, eval_add, mul_add, mul_one]

/-- Multiplication by a scalar as a map of groups. -/
def scaling (c : T) : AddMonoid.End (s.Coefficients T) :=
  AddMonoidHom.mk' (fun v => scale v c) fun v w => add_scale v w c

/-- What commutes with a scalar takes a constant to a multiple of what it takes one to. -/
theorem apply_constant_of_commute {M : AddMonoid.End (s.Coefficients T)} {c : T}
    (h : Commute (scaling c) M) : M (s.constant c) = scale (M (s.constant 1)) c := by
  have hconstant : s.constant c = scaling c (s.constant 1) := by
    show s.constant c = scale (s.constant 1) c
    rw [scale_constant, one_mul]
  rw [hconstant]
  exact (DFunLike.congr_fun h.eq (s.constant 1)).symm

end Scale

/-! ## The polynomials of a mapped expansion -/

section Polynomials

variable {T R : Type} [RealLine R] [Scalar T R] [CosineTransform T] [ExactRing T] {s : Shape}

attribute [local instance] ExactRing.toCommRing

/-- The Chebyshev polynomials of a vector in truncated arithmetic. -/
def polynomial (x : s.Coefficients T) (k : Nat) : s.Coefficients T :=
  chebyshev (multiplication x) k (s.constant 1)

theorem polynomial_one (x : s.Coefficients T) : polynomial x 1 = x := one_multiply x

theorem polynomial_succ_succ (htwo : (Scalar.two : T) = 1 + 1) (x : s.Coefficients T) (k : Nat) :
    polynomial x (k + 2)
      = multiply .direct (scale x Scalar.two) (polynomial x (k + 1)) - polynomial x k := by
  rw [scale_multiply, htwo, scale_two, multiply_comm, polynomial,
    chebyshev_multiplication_succ_succ]
  rfl

theorem commute_scaling_multiplication (c : T) (x : s.Coefficients T) :
    Commute (scaling c) (multiplication x) :=
  AddMonoidHom.ext fun v => (scale_multiply v x c).symm

/-- The backward sum over constants, polynomial by polynomial. -/
theorem seriesFrom_constant (x : s.Coefficients T) (cs : List T) (k n : Nat)
    (h : cs.length ≤ n) :
    seriesFrom (multiplication x) k (cs.map s.constant)
      = ((cs.zip ((List.range' k n).map (polynomial x))).map fun c => scale c.2 c.1).sum := by
  induction cs generalizing k n with
  | nil => rfl
  | cons c cs ih =>
      obtain ⟨n, rfl⟩ : ∃ m, n = m + 1 := ⟨n - 1, by rw [List.length_cons] at h; omega⟩
      have hfirst := apply_constant_of_commute
        (commute_chebyshev (commute_scaling_multiplication c x) k)
      rw [List.map_cons, seriesFrom, hfirst, ih (k + 1) n (Nat.le_of_succ_le_succ h),
        List.range'_succ, List.map_cons, List.zip_cons_cons, List.map_cons, List.sum_cons]
      rfl

end Polynomials

end Shape

/-! ## Both ways of substitution -/

namespace Expansion

section Sum

variable {T R : Type} [Scalar T R] [ExactRing T]

attribute [local instance] ExactRing.toCommRing

omit [ExactRing T] in
theorem add_scale_mk (s : Shape) (v w : s.Coefficients T) (c : T) :
    add ⟨s, v⟩ (Expansion.scale ⟨s, w⟩ c)
      = (.ok ⟨s, v + Shape.scale w c⟩ : Result R (Expansion T)) := by
  rw [add]
  show coeffsIn s ⟨s, Shape.scale w c⟩ >>= _ = _
  rw [coeffsIn_self]
  rfl

/-- The library's own sum of multiples of expansions of one shape. -/
theorem foldlM_add_scale (s : Shape) (l : List (T × s.Coefficients T)) (v : s.Coefficients T) :
    (l.map fun c => (c.1, Expansion.mk s c.2)).foldlM
        (fun (sum : Expansion T) c => sum.add (c.2.scale c.1)) ⟨s, v⟩
      = (.ok ⟨s, v + (l.map fun c => Shape.scale c.2 c.1).sum⟩ : Result R (Expansion T)) := by
  induction l generalizing v with
  | nil => exact congrArg (fun w => Except.ok (Expansion.mk s w)) (add_zero v).symm
  | cons c l ih =>
      rw [List.map_cons, List.foldlM_cons, add_scale_mk]
      show List.foldlM _ _ _ = _
      rw [ih, List.map_cons, List.sum_cons, add_assoc]

theorem intervalWidth_of_isUnit [RealLine R]
    (hmagnitude : ∀ x : T, IsUnit x → TensorChebyshev.isZero (Scalar.magnitude x) = false ∧
      RealLine.isFinite (Scalar.magnitude x) = true) {a b : T} (h : IsUnit (b - a)) :
    intervalWidth a b = .ok (b - a) := by
  obtain ⟨hzero, hfinite⟩ := hmagnitude _ h
  rw [intervalWidth]
  simp only [hzero, hfinite, Bool.not_true, Bool.or_false, Bool.false_eq_true, if_false]

end Sum

variable {T R : Type} [RealLine R] [Scalar T R] [CosineTransform T] [ExactRing T]

attribute [local instance] ExactRing.toCommRing

/-- The forward recurrence lists the polynomials. -/
theorem chebyshevFrom_eq (htwo : (Scalar.two : T) = 1 + 1) {s : Shape} (x : s.Coefficients T)
    (count k : Nat) :
    chebyshevFrom (Shape.scale x Scalar.two) count (Shape.polynomial x k)
        (Shape.polynomial x (k + 1))
      = (List.range' (k + 2) count).map (Shape.polynomial x) := by
  induction count generalizing k with
  | zero => rfl
  | succ count ih =>
      rw [chebyshevFrom, List.range'_succ, List.map_cons, ← ih (k + 1),
        Shape.polynomial_succ_succ htwo]
      rfl

theorem chebyshevBasis_eq (htwo : (Scalar.two : T) = 1 + 1) (g : Expansion T) {a b width : T}
    (h : intervalWidth a b = .ok width) :
    chebyshevBasis g a b = .ok (((List.range' 0 (g.degree + 1)).map
      (Shape.polynomial (g.toUnitInterval a b width).coeffs)).map
        (Expansion.mk (g.toUnitInterval a b width).shape)) := by
  let s := g.toUnitInterval a b width
  have hpolynomials : s.shape.constant 1 :: (if 1 ≤ g.degree then s.coeffs
        :: chebyshevFrom (Shape.scale s.coeffs Scalar.two) (g.degree - 1) (s.shape.constant 1)
          s.coeffs else [])
      = (List.range' 0 (g.degree + 1)).map (Shape.polynomial s.coeffs) := by
    cases g.degree with
    | zero => rfl
    | succ d =>
        have hhigher := chebyshevFrom_eq htwo s.coeffs d 0
        rw [Shape.polynomial_one] at hhigher
        rw [if_pos (Nat.le_add_left 1 d), Nat.add_sub_cancel, List.range'_succ, List.range'_succ,
          List.map_cons, List.map_cons, Nat.zero_add, Shape.polynomial_one, ← hhigher]
        rfl
  rw [chebyshevBasis, h, ← hpolynomials]
  rfl

theorem composeSeries_eq (g : Expansion T) (cs : List T) {a b width : T}
    (h : intervalWidth a b = .ok width) (hcs : cs.length ≤ g.degree + 1) :
    composeSeries g cs a b = .ok ⟨(g.toUnitInterval a b width).shape,
      ((cs.zip ((List.range' 0 (g.degree + 1)).map
        (Shape.polynomial (g.toUnitInterval a b width).coeffs))).map
          fun c => Shape.scale c.2 c.1).sum⟩ := by
  rw [composeSeries, h, ← Shape.seriesFrom_constant _ cs 0 _ hcs, ← clenshaw_eq_seriesFrom]
  rfl

/-- **Both ways to substitute into a series agree**, whatever is cut off on the way:
the backward sum is, coefficient by coefficient, the sum of the coefficients times
the polynomials of the basis. -/
theorem composeSeries_eq_sum (htwo : (Scalar.two : T) = 1 + 1)
    (hmagnitude : ∀ x : T, IsUnit x → TensorChebyshev.isZero (Scalar.magnitude x) = false ∧
      RealLine.isFinite (Scalar.magnitude x) = true)
    (g : Expansion T) (a b : T) (hwidth : IsUnit (b - a)) (cs : List T)
    (hcs : cs.length ≤ g.degree + 1) :
    ∃ (basis : List (Expansion T)) (h : Expansion T), chebyshevBasis g a b = .ok basis ∧
      basis.length = g.degree + 1 ∧ composeSeries g cs a b = .ok h ∧
      (cs.zip basis).foldlM (fun sum c => sum.add (c.2.scale c.1)) g.zerosLike = .ok h := by
  have hinterval := intervalWidth_of_isUnit hmagnitude hwidth
  refine ⟨_, _, chebyshevBasis_eq htwo g hinterval, ?_, composeSeries_eq g cs hinterval hcs, ?_⟩
  · rw [List.length_map, List.length_map, List.length_range']
  · rw [List.zip_map_right]
    refine (foldlM_add_scale g.shape _ g.shape.zeros).trans ?_
    exact congrArg (fun w => Except.ok (Expansion.mk g.shape w)) (zero_add _)

/-- The function `1 + x + T₂`, whose square the degree has no room for. -/
def parabola (T : Type) [One T] : Expansion T where
  shape := Shape.ofAdmissible admissible_line
  coeffs := Vector.replicate _ 1

attribute [local instance] CosineTransform.bySums in
theorem composeSeries_parabola :
    ∃ (basis : List (Expansion ℝ)) (h : Expansion ℝ), chebyshevBasis (parabola ℝ) 0 2 = .ok basis ∧
      basis.length = 3 ∧ composeSeries (parabola ℝ) [1, 2, 3] 0 2 = .ok h ∧
      ([1, 2, 3].zip basis).foldlM (fun sum c => sum.add (c.2.scale c.1)) (parabola ℝ).zerosLike
        = .ok h := by
  refine composeSeries_eq_sum rfl (fun x hx => ⟨?_, rfl⟩) (parabola ℝ) 0 2 ?_
    [1, 2, 3] (Nat.le_refl 3)
  · obtain ⟨y, hy⟩ := hx.exists_right_inv
    refine eq_false_of_ne_true fun hzero => ?_
    rw [abs_eq_zero.mp ((ExactRing.isZero_iff |x|).mp hzero), zero_mul] at hy
    exact zero_ne_one hy
  · exact isUnit_iff_exists_inv.mpr ⟨1 / 2, by norm_num⟩

end Expansion

end TensorChebyshev
