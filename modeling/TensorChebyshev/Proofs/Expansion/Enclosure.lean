import Mathlib
import TensorChebyshev.Proofs.Cosine.Orthogonality
import TensorChebyshev.Proofs.Expansion.Apply
import TensorChebyshev.Proofs.Product.Norm

/-!
# Enclosures on the unit box

On `[-1, 1]` the recurrence for a Chebyshev polynomial runs through cosines, so
it never leaves `[-1, 1]`, although one step of it could treble a bound. Products
over the coordinates stay in there too, and a sum of such products is bounded by
the magnitudes of its coefficients. Without the constant term this bounds how far
an expansion gets from its constant term, which is its range.
-/

namespace TensorChebyshev

attribute [local instance] ExactRing.toCommRing

/-! ## Basis functions -/

/-- **Chebyshev polynomials keep the unit interval.** -/
theorem abs_chebyshev_le_one {x : ℝ} (hx : -1 ≤ x ∧ x ≤ 1) (k : Nat) : |chebyshev x k| ≤ 1 := by
  rw [← Real.cos_arccos hx.1 hx.2, chebyshev_cos]
  exact Real.abs_cos_le_one _

theorem abs_tensorChebyshev_le_one {p : List ℝ} (hp : ∀ x ∈ p, -1 ≤ x ∧ x ≤ 1) (t : Tuple) :
    |tensorChebyshev t p| ≤ 1 := by
  induction t generalizing p with
  | nil => exact abs_one.le
  | cons e t ih =>
      cases p with
      | nil => exact abs_one.le
      | cons x p =>
          have hhead := abs_chebyshev_le_one (hp x (List.mem_cons_self ..)) e
          have htail := ih fun y hy => hp y (List.mem_cons_of_mem _ hy)
          calc |chebyshev x e * tensorChebyshev t p|
              = |chebyshev x e| * |tensorChebyshev t p| := abs_mul _ _
            _ ≤ 1 := mul_le_one₀ hhead (abs_nonneg _) htail

/-- At a real point the basis functions are real. -/
theorem tensorChebyshev_ofReal {T : Type} [Scalar T ℝ] [RealAlgebra T] (t : Tuple) (p : List ℝ) :
    tensorChebyshev t (p.map Scalar.ofReal) = (Scalar.ofReal (tensorChebyshev t p) : T) := by
  induction t generalizing p with
  | nil => exact RealAlgebra.ofReal_one.symm
  | cons e t ih =>
      cases p with
      | nil => exact RealAlgebra.ofReal_one.symm
      | cons x p =>
          rw [List.map_cons, tensorChebyshev, tensorChebyshev, ih, RealAlgebra.ofReal_mul]
          exact congrArg (· * _) (map_chebyshev x (RealAlgebra.embed T) e).symm

/-! ## Sums -/

namespace Combination

variable {T : Type} [Scalar T ℝ] [MeasuredRing T]

/-- Reading with numbers of magnitude at most one gives at most the norm. -/
theorem magnitude_eval_le {φ : Tuple → T} (hφ : ∀ t, Scalar.magnitude (φ t) ≤ 1)
    (l : Combination T) : Scalar.magnitude (l.eval φ) ≤ l.norm := by
  induction l with
  | nil => exact SubmultiplicativeRing.magnitude_zero.le
  | cons c l ih =>
      calc Scalar.magnitude (eval (c :: l) φ)
          ≤ Scalar.magnitude (c.2 * φ c.1) + Scalar.magnitude (eval l φ) := by
            rw [eval_cons]
            exact SubmultiplicativeRing.magnitude_add_le _ _
        _ ≤ Scalar.magnitude c.2 + norm l := by
            refine add_le_add ((SubmultiplicativeRing.magnitude_mul_le _ _).trans ?_) ih
            exact mul_le_of_le_one_right (SubmultiplicativeRing.magnitude_nonneg _) (hφ c.1)
        _ = norm (c :: l) := (norm_cons c l).symm

end Combination

/-! ## Values -/

section Norm

variable {T : Type} [Scalar T ℝ] [RealAlgebra T] [MeasuredRing T]

/-- Where real numbers have their absolute values, the norm bounds the values on the unit box. -/
theorem Shape.magnitude_value_le_norm (hreal : ∀ x : ℝ, Scalar.magnitude (Scalar.ofReal x : T) = |x|)
    {s : Shape} (v : s.Coefficients T) {p : List ℝ} (hp : ∀ x ∈ p, -1 ≤ x ∧ x ≤ 1) :
    Scalar.magnitude (value v (p.map Scalar.ofReal)) ≤ norm v := by
  rw [value_eq_eval, norm_eq_norm_terms]
  refine Combination.magnitude_eval_le (fun t => ?_) _
  rw [tensorChebyshev_ofReal, hreal]
  exact abs_tensorChebyshev_le_one hp t

end Norm

theorem Complex.magnitude_ofReal (x : ℝ) :
    Scalar.magnitude (Scalar.ofReal x : Complex ℝ) = |x| := by
  rw [magnitude_eq_norm]
  exact Complex.norm_real x

namespace Shape

variable {s : Shape} {p : List ℝ}

theorem abs_value_le_norm (v : s.Coefficients ℝ) (hp : ∀ x ∈ p, -1 ≤ x ∧ x ≤ 1) :
    |value v p| ≤ norm v := by
  have hbound := magnitude_value_le_norm (fun _ => rfl) v hp
  rwa [show p.map Scalar.ofReal = p from List.map_id p] at hbound

/-- Without its constant term a vector has the sum of the other magnitudes for its norm. -/
theorem norm_subConstant_constantTerm (v : s.Coefficients ℝ) :
    norm (subConstant v (constantTerm v)) = (v.toList.tail.map fun c => |c|).sum := by
  have hlist : (subConstant v (constantTerm v)).toList = 0 :: v.toList.tail := by
    rw [subConstant, setConstantTerm, Vector.toList_set, toList_eq_cons v, List.set_cons_zero,
      List.tail_cons, sub_self]
  rw [norm_eq_sum_list, hlist, List.map_cons, List.sum_cons, SubmultiplicativeRing.magnitude_zero, zero_add]
  rfl

end Shape

namespace Expansion

/-- An expansion stays as close to its constant term as its range says. -/
theorem abs_value_sub_constantTerm_le (e : Expansion ℝ) {p : List ℝ}
    (hp : ∀ x ∈ p, -1 ≤ x ∧ x ≤ 1) : |e.value p - e.constantTerm| ≤ e.spread := by
  have hbound := Shape.abs_value_le_norm
    (Shape.subConstant e.coeffs (Shape.constantTerm e.coeffs)) hp
  rw [Shape.norm_subConstant_constantTerm, Shape.subConstant_eq, Shape.value_sub,
    Shape.value_constant] at hbound
  exact hbound

/-- **Enclosures hold on the unit box.** At a real point of the box an expansion can be evaluated,
over the reals to a value in its range, and over the reals and the complex numbers alike to one
that the norm bounds. -/
theorem evaluate_enclosed :
    (∀ (e : Expansion ℝ) (point : Array ℝ), point.size = e.nvar → (∀ x ∈ point, -1 ≤ x ∧ x ≤ 1) →
      ∃ y, e.evaluate point = (.ok y : Result ℝ ℝ) ∧ e.range.1 ≤ y ∧ y ≤ e.range.2 ∧
        |y| ≤ e.norm) ∧
    ∀ (e : Expansion (Complex ℝ)) (point : Array ℝ), point.size = e.nvar →
      (∀ x ∈ point, -1 ≤ x ∧ x ≤ 1) →
      ∃ y, e.evaluate (point.map Scalar.ofReal) = (.ok y : Result ℝ (Complex ℝ)) ∧
        Scalar.magnitude y ≤ e.norm := by
  have hlist : ∀ {point : Array ℝ}, (∀ x ∈ point, -1 ≤ x ∧ x ≤ 1) →
      ∀ x ∈ point.toList, -1 ≤ x ∧ x ≤ 1 := fun h x hx => h x (Array.mem_toList_iff.mp hx)
  refine ⟨fun e point hsize hbox => ?_, fun e point hsize hbox => ?_⟩
  · obtain ⟨hlow, hhigh⟩ := abs_le.mp (e.abs_value_sub_constantTerm_le (hlist hbox))
    refine ⟨_, e.evaluate_of_size point hsize, ?_, ?_, Shape.abs_value_le_norm _ (hlist hbox)⟩
    · rw [range_eq]
      linarith
    · rw [range_eq]
      linarith
  · have hnorm := Shape.magnitude_value_le_norm Complex.magnitude_ofReal e.coeffs (hlist hbox)
    rw [← Array.toList_map] at hnorm
    refine ⟨_, e.evaluate_of_size _ ?_, hnorm⟩
    rw [Array.size_map, hsize]

/-- The plane `1 + x + y` at `(-1, 1 / 2)`, with real and with imaginary coefficients. -/
theorem evaluate_enclosed_plane :
    (∃ y, (plane ℝ).evaluate #[-1, 1 / 2] = (.ok y : Result ℝ ℝ) ∧ -1 ≤ y ∧ y ≤ 3 ∧ |y| ≤ 3) ∧
    ∃ y, ((plane (Complex ℝ)).scale ⟨0, 1⟩).evaluate (#[-1, 1 / 2].map Scalar.ofReal)
        = (.ok y : Result ℝ (Complex ℝ)) ∧ Scalar.magnitude y ≤ (3 : ℝ) := by
  have hbox : ∀ x ∈ (#[-1, 1 / 2] : Array ℝ), -1 ≤ x ∧ x ≤ 1 := by
    intro x hx
    rw [← Array.mem_toList_iff, List.mem_cons, List.mem_singleton] at hx
    rcases hx with rfl | rfl
    · norm_num
    · norm_num
  constructor
  · obtain ⟨y, hy, hlow, hhigh, hnorm⟩ := evaluate_enclosed.1 (plane ℝ) #[-1, 1 / 2] rfl hbox
    have hspread : (plane ℝ).spread = 2 := by
      rw [spread, toList_plane]
      norm_num
    rw [range_eq, hspread, constantTerm_plane] at hlow hhigh
    rw [norm_plane abs_one] at hnorm
    refine ⟨y, hy, ?_, ?_, hnorm⟩
    · linarith
    · linarith
  · obtain ⟨y, hy, hnorm⟩ :=
      evaluate_enclosed.2 ((plane (Complex ℝ)).scale ⟨0, 1⟩) #[-1, 1 / 2] rfl hbox
    have hunit : Scalar.magnitude (⟨0, 1⟩ : Complex ℝ) = 1 := by
      rw [Complex.magnitude_eq_norm]
      exact Complex.norm_I
    refine ⟨y, hy, hnorm.trans_eq ?_⟩
    show Shape.norm (Shape.scale (plane (Complex ℝ)).coeffs ⟨0, 1⟩) = 3
    rw [Shape.norm_scale, hunit, mul_one]
    exact norm_plane ValuedField.magnitude_one

end Expansion

end TensorChebyshev
