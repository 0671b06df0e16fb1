import Mathlib
import TensorChebyshev.Expansion.Arithmetic
import TensorChebyshev.Proofs.Expansion.Evaluate
import TensorChebyshev.Proofs.Product.Direct

/-!
# The truncated product

A constant factor is not multiplied through the rows, but the result is the
same: whatever the factors are, direct multiplication is the product cut off
above the truncation degree. What is cut off is the remainder of the product
of the values.
-/

namespace TensorChebyshev

open Combination (cutAbove)

/-! ## Constants -/

theorem tuplesOfDegree_zero (n : Nat) : tuplesOfDegree n 0 = [List.replicate n 0] := by
  induction n with
  | zero => rfl
  | succ n ih =>
      rw [tuplesOfDegree_succ, graded_zero, ih, List.map_singleton, Nat.zero_sub,
        List.replicate_succ]

/-- The listing begins with the tuple of the constant function. -/
theorem graded_eq_cons (n s : Nat) : ∃ rest, graded n s = List.replicate n 0 :: rest := by
  induction s with
  | zero => exact ⟨[], by rw [graded_zero, tuplesOfDegree_zero]⟩
  | succ s ih =>
      obtain ⟨rest, h⟩ := ih
      exact ⟨rest ++ tuplesOfDegree n (s + 1), by rw [graded_succ, h, List.cons_append]⟩

namespace Shape

variable {T R : Type} {s : Shape}

theorem toList_eq_cons (v : s.Coefficients T) :
    v.toList = constantTerm v :: v.toList.tail := by
  have hpos : 0 < v.toList.length := by
    rw [v.length_toList]
    exact s.size_pos
  have hhead : constantTerm v = v.toList.head (List.ne_nil_of_length_pos hpos) := by
    rw [constantTerm, List.head_eq_getElem, Vector.getElem_toList]
  rw [hhead, List.cons_head_tail]

theorem terms_cast {t : Shape} (h : s.Alike t) (v : t.Coefficients T) :
    terms (v.cast h.size_eq.symm : s.Coefficients T) = terms v := by
  rw [terms, terms, GradedBasis.labelled_eq_zip, GradedBasis.labelled_eq_zip, h.1, h.2,
    Vector.toList_cast]

theorem eval_cutAbove [Arithmetic T] (v : s.Coefficients T) (φ : Tuple → T) :
    (terms v).eval (cutAbove s.degree φ) = (terms v).eval φ :=
  Combination.eval_congr fun _ hc => if_pos (degree_of_mem_terms hc)

theorem degree_terms_le [Arithmetic T] (v : s.Coefficients T) : (terms v).degree ≤ s.degree :=
  Combination.degree_le fun _ hc => degree_of_mem_terms hc

section Constant

variable [Arithmetic T] [ExactRing T] {v : s.Coefficients T}

attribute [local instance] ExactRing.toCommRing

theorem eq_zero_of_isConstant (h : isConstant v = true) {c : T} (hc : c ∈ v.toList.tail) :
    c = 0 :=
  (ExactRing.isZero_iff c).mp (List.all_eq_true.mp h c hc)

/-- The only term of a constant that is not zero belongs to the constant function. -/
theorem nonzero_of_isConstant (h : isConstant v = true) {c : Tuple × T}
    (hc : c ∈ (terms v).nonzero) : c.1 = List.replicate s.nvar 0 := by
  obtain ⟨rest, hrest⟩ := graded_eq_cons s.nvar s.degree
  obtain ⟨hmem, hne⟩ := List.mem_filter.mp hc
  rw [terms, GradedBasis.labelled_eq_zip, hrest, toList_eq_cons, List.zip_cons_cons,
    List.mem_cons] at hmem
  rcases hmem with rfl | hmem
  · rfl
  -- behind the first coefficient all are zero
  · have hzero := eq_zero_of_isConstant h (List.of_mem_zip hmem).2
    rw [hzero, (ExactRing.isZero_iff (0 : T)).mpr rfl] at hne
    cases hne

theorem sum_of_isConstant (h : isConstant v = true) :
    ((terms v).map Prod.snd).sum = constantTerm v := by
  rw [terms, GradedBasis.labelled_eq_zip, List.map_snd_zip, toList_eq_cons, List.sum_cons,
    List.sum_eq_zero fun c hc => eq_zero_of_isConstant h hc, add_zero]
  rw [v.length_toList, GradedBasis.size_eq]

theorem eval_scale (v : s.Coefficients T) (c : T) (φ : Tuple → T) :
    (terms (scale v c)).eval φ = (terms v).eval φ * c := by
  rw [eval_terms, eval_terms, Finset.sum_mul]
  refine Finset.sum_congr rfl fun i _ => ?_
  rw [scale, Vector.get_map]
  ring

end Constant

/-! ## Direct multiplication -/

section Multiply

variable [RealLine R] [Scalar T R]

/-- The product without its zero terms, which no truncation has seen. -/
def fullProduct (a b : s.Coefficients T) : Combination T :=
  Combination.product (terms a).nonzero (terms b).nonzero

theorem mem_fullProduct {a b : s.Coefficients T} {c : Tuple × T} (hc : c ∈ fullProduct a b) :
    c.1.length = s.nvar ∧ totalDegree c.1 ≤ (terms a).degree + (terms b).degree :=
  Combination.degree_of_mem_product (fun _ hy => length_of_mem_terms hy)
    (fun _ hy => length_of_mem_terms hy) hc

variable [ExactRing T]

attribute [local instance] ExactRing.toCommRing

theorem mem_of_remainder_ne_zero {a b : s.Coefficients T} {t : Tuple}
    (h : (fullProduct a b).remainder s.degree t ≠ 0) :
    t.length = s.nvar ∧ s.degree < totalDegree t ∧
      totalDegree t ≤ (terms a).degree + (terms b).degree := by
  obtain ⟨hdeg, c, hc, rfl⟩ := Combination.mem_of_remainder_ne_zero h
  exact ⟨(mem_fullProduct hc).1, hdeg, (mem_fullProduct hc).2⟩

theorem eval_fullProduct (a b : s.Coefficients T) (φ : Tuple → T) :
    (fullProduct a b).eval φ = (Combination.product (terms a) (terms b)).eval φ :=
  Combination.eval_product_nonzero _ _ φ

/-- The product of the values is the value of the whole product. -/
theorem value_mul (hhalf : (Scalar.half : T) + Scalar.half = 1) (a b : s.Coefficients T)
    {x : List T} (hx : x.length = s.nvar) :
    value a x * value b x = (fullProduct a b).eval (tensorChebyshev · x) := by
  have hlen : ∀ {v : s.Coefficients T}, ∀ c ∈ terms v, c.1.length = x.length := fun c hc =>
    (length_of_mem_terms hc).trans hx.symm
  rw [value_eq_eval, value_eq_eval, ← Combination.eval_product_tensorChebyshev hhalf hlen hlen,
    eval_fullProduct]

theorem eval_scale_constant (a b : s.Coefficients T) (h : isConstant b = true) (φ : Tuple → T) :
    (terms (scale a (constantTerm b))).eval φ
      = (Combination.product (terms a) (terms b)).eval (cutAbove s.degree φ) := by
  rw [Combination.eval_product_constant _ (fun _ hc => length_of_mem_terms hc)
    fun _ hc => nonzero_of_isConstant h hc, eval_cutAbove, sum_of_isConstant h, eval_scale]

variable [CosineTransform T]

/-- **With all its shortcuts, direct multiplication is the product cut off above
the truncation degree.** -/
theorem eval_multiply_direct (a b : s.Coefficients T) (φ : Tuple → T) :
    (terms (multiply .direct a b)).eval φ
      = (Combination.product (terms a) (terms b)).eval (cutAbove s.degree φ) := by
  rw [multiply]
  split
  · exact eval_scale_constant a b ‹_› φ
  · split
    · rw [Combination.eval_product_comm]
      exact eval_scale_constant b a ‹_› φ
    · exact eval_direct a b φ

theorem coefficient_multiply_direct (a b : s.Coefficients T) {t : Tuple}
    (ht : totalDegree t ≤ s.degree) :
    (terms (multiply .direct a b)).coefficient t
      = (Combination.product (terms a) (terms b)).coefficient t := by
  rw [Combination.coefficient, eval_multiply_direct, Combination.coefficient_cutAbove _ ht]

theorem value_multiply_direct (hhalf : (Scalar.half : T) + Scalar.half = 1)
    (a b : s.Coefficients T) {x : List T} (hx : x.length = s.nvar) :
    value a x * value b x = value (multiply .direct a b) x
      + ((graded s.nvar ((terms a).degree + (terms b).degree)).map fun t =>
          (fullProduct a b).remainder s.degree t * tensorChebyshev t x).sum := by
  have hmem : ∀ c ∈ fullProduct a b,
      c.1 ∈ graded s.nvar ((terms a).degree + (terms b).degree) := fun c hc =>
    mem_graded.mpr (mem_fullProduct hc)
  rw [value_mul hhalf a b hx, value_eq_eval, eval_multiply_direct, ← eval_fullProduct]
  exact Combination.eval_eq_cutAbove_add s.degree _ (nodup_graded _ _) hmem

theorem value_multiply_direct_of_degree (hhalf : (Scalar.half : T) + Scalar.half = 1)
    (a b : s.Coefficients T) (hd : (terms a).degree + (terms b).degree ≤ s.degree) {x : List T}
    (hx : x.length = s.nvar) : value (multiply .direct a b) x = value a x * value b x := by
  have hzero : ∀ t, (fullProduct a b).remainder s.degree t = 0 := by
    intro t
    by_contra hne
    obtain ⟨_, hlt, hle⟩ := mem_of_remainder_ne_zero hne
    omega
  have hsum : ((graded s.nvar ((terms a).degree + (terms b).degree)).map fun t =>
      (fullProduct a b).remainder s.degree t * tensorChebyshev t x).sum = 0 := by
    refine List.sum_eq_zero fun z hz => ?_
    obtain ⟨t, _, rfl⟩ := List.mem_map.mp hz
    rw [hzero, zero_mul]
  rw [value_multiply_direct hhalf a b hx, hsum, add_zero]

end Multiply

end Shape

/-! ## Values -/

namespace Expansion

variable {T R : Type}

/-- The largest total degree that carries a nonzero coefficient. -/
def actualDegree [Arithmetic T] (e : Expansion T) : Nat := (Shape.terms e.coeffs).degree

section Multiply

variable [RealLine R] [Scalar T R] [CosineTransform T]

theorem multiply_of_alike (strategy : Strategy) (a b : Expansion T)
    (h : a.shape.Alike b.shape) :
    multiply strategy a b
      = .ok ⟨a.shape, Shape.multiply strategy a.coeffs (b.coeffs.cast h.size_eq.symm)⟩ := by
  rw [multiply, coeffsIn, dif_pos h]
  rfl

theorem multiply_mk (strategy : Strategy) (s : Shape) (v w : s.Coefficients T) :
    multiply strategy ⟨s, v⟩ ⟨s, w⟩
      = (.ok ⟨s, Shape.multiply strategy v w⟩ : Result R (Expansion T)) := by
  rw [multiply, coeffsIn_self]
  rfl

variable [ExactRing T]

/-- **Direct multiplication is the product projected onto the shape.** The
coefficients of the result are those of the product, as far as the shape has their
tuples, and at every point the product of the values is the value of the result and
a remainder, which consists of terms above the truncation degree and within the
actual degrees of the factors. Without such terms the product is exact. -/
theorem multiply_direct_remainder (hhalf : (Scalar.half : T) + Scalar.half = 1)
    (a b : Expansion T) (h : a.shape.Alike b.shape) :
    ∃ r : Expansion T, multiply .direct a b = .ok r ∧ r.shape = a.shape ∧
      (∀ t : Tuple, t.length = a.nvar → totalDegree t ≤ a.degree →
        (Shape.terms r.coeffs).coefficient t
          = (Combination.product (Shape.terms a.coeffs) (Shape.terms b.coeffs)).coefficient t) ∧
      (∃ remainder : Tuple → T,
        (∀ t, remainder t ≠ 0 → t.length = a.nvar ∧ a.degree < totalDegree t ∧
          totalDegree t ≤ a.actualDegree + b.actualDegree) ∧
        ∀ x : List T, x.length = a.nvar → a.value x * b.value x
          = r.value x + ((graded a.nvar (a.actualDegree + b.actualDegree)).map fun t =>
              remainder t * tensorChebyshev t x).sum) ∧
      (a.actualDegree + b.actualDegree ≤ a.degree →
        ∀ x : List T, x.length = a.nvar → r.value x = a.value x * b.value x) := by
  let c : a.shape.Coefficients T := b.coeffs.cast h.size_eq.symm
  have hc : Shape.terms c = Shape.terms b.coeffs := Shape.terms_cast h b.coeffs
  have hvalue : ∀ x, Shape.value c x = b.value x := fun x => by
    rw [Shape.value_eq_eval, hc]
    rfl
  refine ⟨_, multiply_of_alike .direct a b h, rfl, fun t _ ht => ?_,
    ⟨(Shape.fullProduct a.coeffs c).remainder a.degree, fun t ht => ?_, fun x hx => ?_⟩,
    fun hd x hx => ?_⟩
  · rw [← hc]
    exact Shape.coefficient_multiply_direct a.coeffs c ht
  · have hmem := Shape.mem_of_remainder_ne_zero ht
    rw [hc] at hmem
    exact hmem
  · have hsplit := Shape.value_multiply_direct hhalf a.coeffs c hx
    rw [hvalue, hc] at hsplit
    exact hsplit
  · rw [← hvalue]
    refine Shape.value_multiply_direct_of_degree hhalf a.coeffs c ?_ hx
    rw [hc]
    exact hd

end Multiply

attribute [local instance] CosineTransform.bySums in
theorem multiply_direct_plane :
    ∃ r : Expansion ℝ, multiply .direct (plane ℝ) (plane ℝ) = .ok r ∧
      ∃ remainder : Tuple → ℝ, ∀ x : List ℝ, x.length = 2 →
        (plane ℝ).value x * (plane ℝ).value x
          = r.value x + ((graded 2 ((plane ℝ).actualDegree + (plane ℝ).actualDegree)).map fun t =>
              remainder t * tensorChebyshev t x).sum := by
  obtain ⟨r, hr, _, _, ⟨remainder, _, hvalue⟩, _⟩ :=
    multiply_direct_remainder RealAlgebra.half_add_half (plane ℝ) (plane ℝ) ⟨rfl, rfl⟩
  exact ⟨r, hr, remainder, hvalue⟩

/-! ## A plane and a ramp -/

theorem admissible_line : Admissible 1 2 := ⟨by decide, by decide, by decide⟩

/-- The function `2 + x`, with room for its square. -/
def ramp (T : Type) [Zero T] [One T] [Add T] : Expansion T where
  shape := Shape.ofAdmissible admissible_line
  coeffs := ⟨#[1 + 1, 1, 0], by
    rw [GradedBasis.size_eq]
    rfl⟩

section Example

variable (T : Type) [Arithmetic T]

theorem constantTerm_plane : (plane T).constantTerm = 1 := Vector.getElem_replicate _

theorem toList_plane : (plane T).coeffs.toList = [1, 1, 1] := by
  rw [plane, Vector.toList_replicate, GradedBasis.size_eq]
  rfl

theorem terms_ramp : Shape.terms (ramp T).coeffs = [([0], 1 + 1), ([1], 1), ([2], 0)] := by
  rw [Shape.terms, GradedBasis.labelled_eq_zip]
  rfl

variable [ExactRing T]

attribute [local instance] ExactRing.toCommRing

theorem value_plane (x y : T) : (plane T).value [x, y] = 1 + (x + y) := by
  have hterms : Shape.terms (plane T).coeffs = [([0, 0], 1), ([1, 0], 1), ([0, 1], 1)] := by
    rw [Shape.terms, GradedBasis.labelled_eq_zip, toList_plane]
    rfl
  rw [value, Shape.value_eq_eval, hterms, Combination.eval]
  simp [tensorChebyshev, chebyshev]

theorem value_ramp (x : T) : (ramp T).value [x] = 1 + 1 + x := by
  rw [value, Shape.value_eq_eval, terms_ramp, Combination.eval]
  simp [tensorChebyshev, chebyshev]

theorem actualDegree_ramp_le : (ramp T).actualDegree ≤ 1 := by
  refine List.max_le_of_forall_le _ 1 fun k hk => ?_
  obtain ⟨c, hc, rfl⟩ := List.mem_map.mp hk
  obtain ⟨hmem, hne⟩ := List.mem_filter.mp hc
  rw [terms_ramp, List.mem_cons, List.mem_cons, List.mem_singleton] at hmem
  rcases hmem with rfl | rfl | rfl
  · exact Nat.zero_le 1
  · exact Nat.le_refl 1
  -- the square is listed, but not present
  · rw [(ExactRing.isZero_iff (0 : T)).mpr rfl] at hne
    cases hne

end Example

end Expansion

end TensorChebyshev
