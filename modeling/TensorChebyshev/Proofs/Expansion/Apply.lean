import Mathlib
import TensorChebyshev.Proofs.Expansion.Compose
import TensorChebyshev.Proofs.Expansion.ComposeSeries
import TensorChebyshev.Proofs.Inverse.Convergence
import TensorChebyshev.Proofs.Series.Nodes
import TensorChebyshev.Proofs.Series.Polynomial

/-!
# Functions of an expansion

A function is fitted over an interval around the constant term, and the series
is substituted with the expansion mapped onto `[-1, 1]`. A polynomial is found
by the fit, the two maps between the intervals undo each other, and where the
degree has room nothing is cut off: then the result has the values of the
polynomial. For other functions the result is an approximation, but it too takes
the function in the interval only.
-/

namespace TensorChebyshev

attribute [local instance] ExactRing.toCommRing

/-! ## The mapped expansion -/

namespace Shape

variable {T : Type} [Arithmetic T] [ExactRing T] {s : Shape}

theorem subConstant_eq (v : s.Coefficients T) (c : T) : subConstant v c = v - s.constant c := by
  have hpos := s.size_pos
  refine Vector.ext fun i hi => ?_
  show (v.set 0 (constantTerm v - c) hpos)[i] = (v - s.constant c)[i]
  rw [Vector.getElem_sub, Vector.getElem_set, getElem_constant]
  by_cases hzero : i = 0
  · subst hzero
    rw [if_pos rfl, if_pos rfl]
    rfl
  · rw [if_neg (Ne.symm hzero), if_neg hzero, sub_zero]

theorem value_scale (v : s.Coefficients T) (c : T) (p : List T) :
    value (scale v c) p = value v p * c := eval_scale v c (tensorChebyshev · p)

theorem degree_scale_le (v : s.Coefficients T) (c : T) :
    (terms (scale v c)).degree ≤ (terms v).degree := by
  refine degree_le_iff.mpr fun φ => ?_
  rw [eval_scale, eval_scale, degree_le_iff.mp (Nat.le_refl _)]

end Shape

namespace Expansion

/-! ## The range -/

/-- How far an expansion may get from its constant term. -/
def spread (e : Expansion ℝ) : ℝ := (e.coeffs.toList.tail.map fun c => |c|).sum

theorem range_eq (e : Expansion ℝ) :
    e.range = (e.constantTerm - e.spread, e.constantTerm + e.spread) := by
  have hspread : e.coeffs.toList.tail.foldl (fun acc c => acc + RealScalar.abs c) 0 = e.spread := by
    rw [spread, List.sum_eq_foldl, List.foldl_map]
    rfl
  rw [range, hspread]

theorem spread_nonneg (e : Expansion ℝ) : 0 ≤ e.spread :=
  List.sum_nonneg fun x hx => by
    obtain ⟨c, _, rfl⟩ := List.mem_map.mp hx
    exact abs_nonneg c

theorem spread_eq_zero_iff {e : Expansion ℝ} : e.spread = 0 ↔ e.isConstant = true := by
  have hnonneg : ∀ x ∈ e.coeffs.toList.tail.map fun c => |c|, 0 ≤ x := fun x hx => by
    obtain ⟨c, _, rfl⟩ := List.mem_map.mp hx
    exact abs_nonneg c
  constructor
  · intro h
    rw [isConstant, Shape.isConstant, List.all_eq_true]
    intro c hc
    have hle : |c| ≤ e.spread := List.single_le_sum hnonneg _ (List.mem_map_of_mem hc)
    rw [h, abs_nonpos_iff] at hle
    exact (ExactRing.isZero_iff c).mpr hle
  · intro h
    refine List.sum_eq_zero fun x hx => ?_
    obtain ⟨c, hc, rfl⟩ := List.mem_map.mp hx
    rw [Shape.eq_zero_of_isConstant h hc, abs_zero]

theorem spread_pos {e : Expansion ℝ} (h : ¬ e.spread = 0) : 0 < e.spread :=
  lt_of_le_of_ne e.spread_nonneg (Ne.symm h)

theorem one_le_actualDegree {e : Expansion ℝ} (h : ¬ e.spread = 0) : 1 ≤ e.actualDegree :=
  Shape.one_le_degree_of_not_isConstant
    (eq_false_of_ne_true fun hconstant => h (spread_eq_zero_iff.mpr hconstant))

/-- The interval of a nonconstant expansion has a width. -/
theorem intervalWidth_range {e : Expansion ℝ} (h : 0 < e.spread) :
    intervalWidth e.range.1 e.range.2 = .ok (e.range.2 - e.range.1) := by
  have hwidth : e.range.2 - e.range.1 = 2 * e.spread := by
    rw [range_eq]
    ring
  refine intervalWidth_eq_ok_iff.mpr ⟨rfl, eq_false_of_ne_true fun hzero => ?_, rfl⟩
  have habs : |e.range.2 - e.range.1| = 0 := (ExactRing.isZero_iff _).mp hzero
  rw [abs_eq_zero, hwidth] at habs
  linarith

/-- A constant expansion is its constant term everywhere. -/
theorem value_of_isConstant {e : Expansion ℝ} (h : e.isConstant = true) (x : List ℝ) :
    e.value x = e.constantTerm := by
  rw [value, Shape.eq_constant_of_isConstant h, Shape.value_constant]
  rfl

/-! ## The mapped expansion -/

theorem value_toUnitInterval (e : Expansion ℝ) (a b : ℝ) (x : List ℝ) :
    (e.toUnitInterval a b (b - a)).value x = (2 * e.value x - (a + b)) / (b - a) := by
  have hvalue : Shape.value (Shape.subConstant (Shape.scale e.coeffs (Scalar.two / (b - a)))
      ((a + b) / (b - a))) x = e.value x * (2 / (b - a)) - (a + b) / (b - a) := by
    rw [Shape.subConstant_eq, Shape.value_sub, Shape.value_constant, Shape.value_scale,
      show (Scalar.two : ℝ) = 2 from two_eq_real]
    rfl
  refine hvalue.trans ?_
  ring

theorem actualDegree_toUnitInterval_le (e : Expansion ℝ) (a b : ℝ) :
    (e.toUnitInterval a b (b - a)).actualDegree ≤ e.actualDegree := by
  have hconstant : (Shape.terms (e.shape.constant ((a + b) / (b - a)))).degree ≤ e.actualDegree :=
    (Shape.degree_constant e.shape _).trans_le (Nat.zero_le _)
  show (Shape.terms (Shape.subConstant (Shape.scale e.coeffs (Scalar.two / (b - a)))
    ((a + b) / (b - a)))).degree ≤ e.actualDegree
  rw [Shape.subConstant_eq]
  exact Shape.degree_sub_le (Shape.degree_scale_le e.coeffs _) hconstant

section Apply

variable [CosineTransform ℝ]

theorem apply_of_spread_eq_zero {e : Expansion ℝ} (h : e.spread = 0) (f : ℝ → ℝ) :
    e.apply f = .ok (e.constantLike (f e.constantTerm)) := by
  rw [apply, range_eq, h, sub_zero, add_zero]
  exact if_pos (beq_self_eq_true _)

theorem apply_of_spread_pos {e : Expansion ℝ} (h : 0 < e.spread) (f : ℝ → ℝ) :
    e.apply f = fit f e.range.1 e.range.2 e.degree >>= fun cs =>
      e.composeSeries cs e.range.1 e.range.2 := by
  have hne : (e.range.1 == e.range.2) = false := by
    refine decide_eq_false fun heq => ?_
    rw [range_eq] at heq
    linarith [show e.constantTerm - e.spread = e.constantTerm + e.spread from heq]
  rw [apply]
  show (if (e.range.1 == e.range.2) = true then _ else _) = _
  rw [hne]
  rfl

/-- A series is summed without loss as far as the degree has room for its polynomials. -/
theorem value_composeSeries (e : Expansion ℝ) (c : Nat → ℝ) {a b : ℝ} {p : Nat}
    (hwidth : intervalWidth a b = .ok (b - a)) (hzero : ∀ k, p < k → c k = 0)
    (hroom : p * e.actualDegree ≤ e.degree) :
    ∃ h : Expansion ℝ,
      e.composeSeries ((List.range (e.degree + 1)).map c) a b = .ok h ∧ h.shape = e.shape ∧
      ∀ x : List ℝ, x.length = e.nvar → h.value x
        = ∑ k ∈ Finset.range (e.degree + 1),
            c k * chebyshev ((2 * e.value x - (a + b)) / (b - a)) k := by
  refine ⟨_, composeSeries_eq e _ hwidth (by simp), rfl, fun x hx => ?_⟩
  let u := e.toUnitInterval a b (b - a)
  have hterm : ∀ k, Shape.value (Shape.scale (Shape.polynomial u.coeffs k) (c k)) x
      = c k * chebyshev ((2 * e.value x - (a + b)) / (b - a)) k := by
    intro k
    rw [Shape.value_scale, mul_comm]
    by_cases hk : p < k
    · rw [hzero k hk, zero_mul, zero_mul]
    have hdegree : (Shape.terms (u.shape.constant (1 : ℝ))).degree
        + k * (Shape.terms u.coeffs).degree ≤ u.shape.degree := by
      rw [Shape.degree_constant, Nat.zero_add]
      exact (Nat.mul_le_mul (Nat.not_lt.mp hk) (actualDegree_toUnitInterval_le e a b)).trans hroom
    have hvalue := (Shape.value_chebyshev_multiplication RealAlgebra.half_add_half hx k hdegree).2
    have hone : Shape.value (u.shape.constant (1 : ℝ)) x = 1 := Shape.value_constant 1 x
    refine congrArg (c k * ·) (hvalue.trans ?_)
    refine (congrArg (· * chebyshev (u.value x) k) hone).trans ((one_mul _).trans ?_)
    exact congrArg (chebyshev · k) (value_toUnitInterval e a b x)
  have hzip : ((List.range (e.degree + 1)).map c).zip
        ((List.range' 0 (e.degree + 1)).map (Shape.polynomial u.coeffs))
      = (List.range (e.degree + 1)).map fun k => (c k, Shape.polynomial u.coeffs k) := by
    rw [List.range_eq_range', List.zip_map', List.map_inj_left]
    exact fun _ _ => rfl
  show Shape.value (((((List.range (e.degree + 1)).map c).zip
    ((List.range' 0 (e.degree + 1)).map (Shape.polynomial u.coeffs))).map
      fun d => Shape.scale d.2 d.1).sum) x = _
  rw [hzip, List.map_map, Shape.value_eq_eval, Shape.eval_listSum, List.map_map,
    Finset.sum_range, ← List.sum_ofFn, ← List.map_coe_finRange_eq_range, List.map_map,
    List.ofFn_eq_map]
  refine congrArg List.sum (List.map_congr_left fun k _ => ?_)
  exact (Shape.value_eq_eval _ _).symm.trans (hterm k)

/-- The polynomial of an expansion whose degree has room for it. -/
theorem apply_eval (hexact : CosineTransform.Exact ℝ) (g : Expansion ℝ) (P : Polynomial ℝ)
    (hroom : P.natDegree * g.actualDegree ≤ g.degree) :
    ∃ h : Expansion ℝ, g.apply (fun t => P.eval t) = .ok h ∧ h.shape = g.shape ∧
      ∀ x : List ℝ, x.length = g.nvar → h.value x = P.eval (g.value x) := by
  by_cases hspread : g.spread = 0
  · refine ⟨_, apply_of_spread_eq_zero hspread _, rfl, fun x _ => ?_⟩
    rw [value_of_isConstant (spread_eq_zero_iff.mp hspread)]
    exact Shape.value_constant _ x
  have hpos := spread_pos hspread
  have hdegree : P.natDegree ≤ g.degree :=
    (Nat.le_mul_of_pos_right _ (one_le_actualDegree hspread)).trans hroom
  have hends : g.range.1 ≠ g.range.2 := by
    rw [range_eq]
    intro h
    linarith [show g.constantTerm - g.spread = g.constantTerm + g.spread from h]
  have hinverse := mul_inv_cancel₀ (sub_ne_zero.mpr hends.symm)
  obtain ⟨c, hzero, hsamples, hvalues⟩ :=
    exists_mapped_series RealAlgebra.half_add_half P hdegree hinverse
  have hwidth := intervalWidth_range hpos
  have hfit : fit (fun t => P.eval t) g.range.1 g.range.2 g.degree
      = .ok ((List.range (g.degree + 1)).map c) :=
    fit_series hexact c hwidth g.shape.admissible.degree_le hsamples
  obtain ⟨h, hok, hshape, hvalue⟩ := value_composeSeries g c hwidth hzero hroom
  refine ⟨h, ?_, hshape, fun x hx => ?_⟩
  · rw [apply_of_spread_pos hpos, hfit]
    exact hok
  · rw [hvalue x hx, hvalues (g.value x), div_eq_mul_inv]

/-! ## Where the function is taken -/

/-- The arguments at which a function of the expansion is taken. -/
noncomputable def samples (e : Expansion ℝ) : List ℝ :=
  if e.spread = 0 then [e.range.1] else (samplePoints e.range.1 e.range.2 e.degree).toList

/-- The result out of the values at these arguments. -/
noncomputable def ofSamples (e : Expansion ℝ) (values : List ℝ) : Result ℝ (Expansion ℝ) :=
  if e.spread = 0 then .ok (e.constantLike (values.headD 0))
  else e.composeSeries
    (coefficientsOfValues (Vector.ofFn fun j : Fin (e.degree + 1) => values.getD j 0)).toList
    e.range.1 e.range.2

omit [CosineTransform ℝ] in
theorem mem_samples {e : Expansion ℝ} {t : ℝ} (h : t ∈ e.samples) :
    e.range.1 ≤ t ∧ t ≤ e.range.2 := by
  have hnonneg := e.spread_nonneg
  have hlo : e.range.1 = e.constantTerm - e.spread := congrArg Prod.fst e.range_eq
  have hhi : e.range.2 = e.constantTerm + e.spread := congrArg Prod.snd e.range_eq
  by_cases hspread : e.spread = 0
  · rw [samples, if_pos hspread, List.mem_singleton] at h
    exact ⟨h.ge, by linarith⟩
  · rw [samples, if_neg hspread, samplePoints, Vector.mem_toList_iff, Vector.mem_map] at h
    obtain ⟨x, hx, rfl⟩ := h
    obtain ⟨hge, hle⟩ := abs_le.mp (abs_lobattoNode_le_one hx)
    have hpoint : Scalar.half * (e.range.1 + e.range.2)
        + Scalar.half * (e.range.2 - e.range.1) * Scalar.ofReal x
          = e.constantTerm + e.spread * x := by
      rw [RealAlgebra.half_eq, hlo, hhi]
      show 1 / 2 * (e.constantTerm - e.spread + (e.constantTerm + e.spread))
        + 1 / 2 * (e.constantTerm + e.spread - (e.constantTerm - e.spread)) * x = _
      ring
    rw [hpoint, hlo, hhi]
    constructor <;> nlinarith

/-- A function enters by its values at these arguments and in no other way. -/
theorem apply_eq_ofSamples (e : Expansion ℝ) (f : ℝ → ℝ) :
    e.apply f = e.ofSamples (e.samples.map f) := by
  by_cases hspread : e.spread = 0
  · have hlo : e.range.1 = e.constantTerm := by
      rw [range_eq, hspread, sub_zero]
    rw [apply_of_spread_eq_zero hspread, ofSamples, samples, if_pos hspread, if_pos hspread, hlo]
    rfl
  · have hpos := spread_pos hspread
    have hdegree : 0 < e.degree :=
      (one_le_actualDegree hspread).trans (Shape.degree_terms_le e.coeffs)
    have hvalues : (Vector.ofFn fun j : Fin (e.degree + 1) =>
        ((samplePoints e.range.1 e.range.2 e.degree).toList.map f).getD j 0)
          = (samplePoints e.range.1 e.range.2 e.degree).map f := by
      refine Vector.ext fun j hj => ?_
      simp [hj]
    rw [apply_of_spread_pos hpos, fit_of_pos f (intervalWidth_range hpos) hdegree
      e.shape.admissible.degree_le, ofSamples, samples, if_neg hspread, if_neg hspread, hvalues]
    rfl

/-- **A function of an expansion is exact on polynomials and stays inside the range.** A
polynomial for which the degree has room gives the expansion of its values, and whatever the
function, it is taken at arguments in the range only. -/
theorem apply_exact_in_range (g : Expansion ℝ) :
    (CosineTransform.Exact ℝ → ∀ P : Polynomial ℝ, P.natDegree * g.actualDegree ≤ g.degree →
      ∃ h : Expansion ℝ, g.apply (fun t => P.eval t) = .ok h ∧ h.shape = g.shape ∧
        ∀ x : List ℝ, x.length = g.nvar → h.value x = P.eval (g.value x)) ∧
    (∀ t ∈ g.samples, g.range.1 ≤ t ∧ t ≤ g.range.2) ∧
    ∀ f : ℝ → ℝ, g.apply f = g.ofSamples (g.samples.map f) := by
  refine ⟨fun hexact P hroom => apply_eval hexact g P hroom, fun t ht => mem_samples ht, ?_⟩
  exact apply_eq_ofSamples g

end Apply

attribute [local instance] CosineTransform.bySums in
/-- The square of `2 + x`, of degree two as the shape, and the range `[1, 3]`. -/
theorem apply_exact_in_range_ramp :
    (∃ h : Expansion ℝ, (ramp ℝ).apply (fun t => t ^ 2) = .ok h ∧ h.value [3] = 25) ∧
      ∀ t ∈ (ramp ℝ).samples, 1 ≤ t ∧ t ≤ 3 := by
  obtain ⟨hpolynomial, hsamples, _⟩ := apply_exact_in_range (ramp ℝ)
  have hroom : ((Polynomial.X : Polynomial ℝ) ^ 2).natDegree * (ramp ℝ).actualDegree ≤ 2 := by
    rw [Polynomial.natDegree_X_pow]
    have hle := actualDegree_ramp_le ℝ
    omega
  obtain ⟨h, hok, _, hvalue⟩ := hpolynomial CosineTransform.exact_bySums _ hroom
  have hspread : (ramp ℝ).spread = 1 := by
    show ([1, 0].map fun c : ℝ => |c|).sum = 1
    norm_num
  refine ⟨⟨h, ?_, ?_⟩, fun t ht => ?_⟩
  · simpa using hok
  · rw [hvalue [3] rfl, value_ramp, Polynomial.eval_pow, Polynomial.eval_X]
    norm_num
  · have hrange := hsamples t ht
    rw [range_eq, hspread] at hrange
    have hconstant : (ramp ℝ).constantTerm = 2 := one_add_one_eq_two
    rw [hconstant] at hrange
    norm_num at hrange
    exact hrange

end Expansion

end TensorChebyshev
