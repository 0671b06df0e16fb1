import Mathlib
import TensorChebyshev.Proofs.Product.Associative
import TensorChebyshev.Proofs.Product.Multiply

/-!
# The algebra of coefficient vectors

Coefficient vectors of one shape form a group, on which the truncated product
is bilinear and commutative, and multiplication by one factor is an additive
map. Associative it is only while no product on the way is cut off, which the
degrees tell.
-/

namespace TensorChebyshev

open Combination (cutAbove)

/-! ## Vectors -/

/-- Vectors over a group form a group. -/
instance vectorAddCommGroup {M : Type} [AddCommGroup M] {n : Nat} :
    AddCommGroup (Vector M n) where
  add_assoc a b c := Vector.ext fun i hi => by
    rw [Vector.getElem_add, Vector.getElem_add, Vector.getElem_add, Vector.getElem_add, add_assoc]
  zero_add a := Vector.ext fun i hi => by rw [Vector.getElem_add, Vector.getElem_zero, zero_add]
  add_zero a := Vector.ext fun i hi => by rw [Vector.getElem_add, Vector.getElem_zero, add_zero]
  add_comm a b := Vector.ext fun i hi => by
    rw [Vector.getElem_add, Vector.getElem_add, add_comm]
  neg_add_cancel a := Vector.ext fun i hi => by
    rw [Vector.getElem_add, Vector.getElem_neg, Vector.getElem_zero, neg_add_cancel]
  sub_eq_add_neg a b := Vector.ext fun i hi => by
    rw [Vector.getElem_sub, Vector.getElem_add, Vector.getElem_neg, sub_eq_add_neg]
  nsmul := nsmulRec
  zsmul := zsmulRec

namespace Shape

section Constant

variable {T : Type} [Arithmetic T] {s : Shape}

theorem toList_constant (c : T) :
    (s.constant c).toList = c :: List.replicate (s.size - 1) 0 := by
  obtain ⟨n, hn⟩ : ∃ n, s.size = n + 1 := ⟨s.size - 1, (Nat.sub_add_cancel s.size_pos).symm⟩
  rw [constant, setConstantTerm, Vector.toList_set, zeros, Vector.toList_replicate, hn,
    List.replicate_succ, List.set_cons_zero, Nat.add_sub_cancel]

theorem constantTerm_constant (c : T) : constantTerm (s.constant c) = c := by
  rw [constantTerm, constant, setConstantTerm, Vector.getElem_set_self]

theorem getElem_constant (c : T) {i : Nat} (hi : i < s.size) :
    (s.constant c)[i] = if i = 0 then c else 0 := by
  rw [constant, setConstantTerm, Vector.getElem_set, zeros, Vector.getElem_replicate]
  simp only [eq_comm]

theorem constant_zero : s.constant (0 : T) = 0 := by
  refine Vector.ext fun i hi => ?_
  rw [getElem_constant, ite_self, Vector.getElem_zero]

end Constant

section Linear

variable {T : Type} [Arithmetic T] [ExactRing T] {s : Shape}

attribute [local instance] ExactRing.toCommRing

/-! ## Reading sums -/

theorem eval_add (v w : s.Coefficients T) (φ : Tuple → T) :
    (terms (v + w)).eval φ = (terms v).eval φ + (terms w).eval φ := by
  rw [eval_terms, eval_terms, eval_terms, ← Finset.sum_add_distrib]
  refine Finset.sum_congr rfl fun i _ => ?_
  rw [Vector.get_eq_getElem, Vector.get_eq_getElem, Vector.get_eq_getElem, Vector.getElem_add,
    add_mul]

/-- Reading with one function of the tuples, as a map of groups. -/
def evalHom (s : Shape) (φ : Tuple → T) : s.Coefficients T →+ T :=
  AddMonoidHom.mk' (fun v => (terms v).eval φ) fun v w => eval_add v w φ

theorem eval_sub (v w : s.Coefficients T) (φ : Tuple → T) :
    (terms (v - w)).eval φ = (terms v).eval φ - (terms w).eval φ :=
  map_sub (evalHom s φ) v w

theorem eval_zero (φ : Tuple → T) : (terms (0 : s.Coefficients T)).eval φ = 0 :=
  map_zero (evalHom s φ)

theorem eval_listSum (l : List (s.Coefficients T)) (φ : Tuple → T) :
    (terms l.sum).eval φ = (l.map fun v => (terms v).eval φ).sum :=
  map_list_sum (evalHom s φ) l

/-- What reads the same with every function of the tuples is the same. -/
theorem ext_eval {v w : s.Coefficients T} (h : ∀ φ, (terms v).eval φ = (terms w).eval φ) :
    v = w := by
  refine Vector.ext fun i hi => ?_
  rw [← coefficient_terms v hi, ← coefficient_terms w hi, Combination.coefficient,
    Combination.coefficient, h]

/-! ## Constants -/

theorem isConstant_constant (c : T) : isConstant (s.constant c) = true := by
  rw [isConstant, toList_constant, List.tail_cons, List.all_eq_true]
  intro x hx
  rw [List.eq_of_mem_replicate hx]
  exact (ExactRing.isZero_iff _).mpr rfl

/-- Only the constant function counts in a constant. -/
theorem eval_constant (c : T) (φ : Tuple → T) :
    (terms (s.constant c)).eval φ = c * φ (List.replicate s.nvar 0) := by
  have hread : (terms (s.constant c)).nonzero.eval φ
      = (terms (s.constant c)).nonzero.eval fun _ => φ (List.replicate s.nvar 0) :=
    Combination.eval_congr fun x hx => by rw [nonzero_of_isConstant (isConstant_constant c) hx]
  rw [← Combination.eval_nonzero, hread, Combination.eval_nonzero, Combination.eval,
    List.sum_map_mul_right, sum_of_isConstant (isConstant_constant c), constantTerm_constant]

theorem eq_constant_of_isConstant {v : s.Coefficients T} (h : isConstant v = true) :
    v = s.constant (constantTerm v) := by
  have htail : v.toList.tail = List.replicate (s.size - 1) 0 :=
    List.eq_replicate_iff.mpr ⟨by rw [List.length_tail, v.length_toList],
      fun c hc => eq_zero_of_isConstant h hc⟩
  refine Vector.toList_inj.mp ?_
  rw [toList_constant, ← htail]
  exact toList_eq_cons v

theorem scale_constant (c d : T) : scale (s.constant c) d = s.constant (c * d) := by
  refine ext_eval fun φ => ?_
  rw [eval_scale, eval_constant, eval_constant, mul_right_comm]

theorem scale_one (a : s.Coefficients T) : scale a 1 = a := by
  refine ext_eval fun φ => ?_
  rw [eval_scale, mul_one]

/-! ## Values -/

theorem value_add (v w : s.Coefficients T) (p : List T) :
    value (v + w) p = value v p + value w p := eval_add v w (tensorChebyshev · p)

theorem value_sub (v w : s.Coefficients T) (p : List T) :
    value (v - w) p = value v p - value w p := eval_sub v w (tensorChebyshev · p)

theorem tensorChebyshev_replicate_zero (n : Nat) (p : List T) :
    tensorChebyshev (List.replicate n 0) p = 1 := by
  induction n generalizing p with
  | zero => rfl
  | succ n ih =>
      cases p with
      | nil => rfl
      | cons x p => rw [List.replicate_succ, tensorChebyshev, ih, mul_one, chebyshev]

theorem value_constant (c : T) (p : List T) : value (s.constant c) p = c := by
  rw [value_eq_eval, eval_constant, tensorChebyshev_replicate_zero, mul_one]

/-! ## Degrees -/

/-- A degree bounds a vector when nothing is lost by cutting off above it. -/
theorem degree_le_iff {v : s.Coefficients T} {d : Nat} :
    (terms v).degree ≤ d ↔ ∀ φ, (terms v).eval (cutAbove d φ) = (terms v).eval φ := by
  constructor
  · intro h φ
    rw [← Combination.eval_nonzero, ← Combination.eval_nonzero (terms v) φ]
    refine Combination.eval_congr fun c hc => if_pos ?_
    exact (Combination.le_degree hc).trans h
  · intro h
    refine List.max_le_of_forall_le _ d fun k hk => ?_
    obtain ⟨c, hc, rfl⟩ := List.mem_map.mp hk
    obtain ⟨hmem, hne⟩ := List.mem_filter.mp hc
    rw [terms_eq_ofFn, List.mem_ofFn] at hmem
    obtain ⟨i, rfl⟩ := hmem
    -- the indicator of a tuple of higher degree is cut off, so its coefficient is zero
    by_contra hlt
    have hread := h fun u => if u = s.tupleAt i then 1 else 0
    have hcut : cutAbove d (fun u => if u = s.tupleAt i then (1 : T) else 0) = fun _ => 0 := by
      funext u
      rw [cutAbove]
      split
      · rename_i hu
        exact if_neg fun heq => hlt (by rwa [← heq])
      · rfl
    rw [hcut, Combination.eval_zero] at hread
    have hcoefficient : v.get i = 0 := by
      rw [Vector.get_eq_getElem, ← coefficient_terms v i.isLt]
      exact hread.symm
    rw [hcoefficient, (ExactRing.isZero_iff (0 : T)).mpr rfl] at hne
    cases hne

variable {a b : s.Coefficients T} {d : Nat}

theorem degree_add_le (ha : (terms a).degree ≤ d) (hb : (terms b).degree ≤ d) :
    (terms (a + b)).degree ≤ d := by
  refine degree_le_iff.mpr fun φ => ?_
  rw [eval_add, eval_add, degree_le_iff.mp ha, degree_le_iff.mp hb]

theorem degree_sub_le (ha : (terms a).degree ≤ d) (hb : (terms b).degree ≤ d) :
    (terms (a - b)).degree ≤ d := by
  refine degree_le_iff.mpr fun φ => ?_
  rw [eval_sub, eval_sub, degree_le_iff.mp ha, degree_le_iff.mp hb]

theorem degree_constant (s : Shape) (z : T) : (terms (s.constant z)).degree = 0 := by
  refine Nat.le_zero.mp (List.max_le_of_forall_le _ 0 fun k hk => ?_)
  obtain ⟨c, hc, rfl⟩ := List.mem_map.mp hk
  rw [nonzero_of_isConstant (isConstant_constant z) hc, totalDegree_eq_sum, List.sum_replicate,
    nsmul_zero]

end Linear

/-! ## The product -/

section Product

variable {T R : Type} [RealLine R] [Scalar T R] [CosineTransform T] [ExactRing T] {s : Shape}

attribute [local instance] ExactRing.toCommRing

theorem eval_multiply (a b : s.Coefficients T) (φ : Tuple → T) :
    (terms (multiply .direct a b)).eval φ
      = (terms a).eval fun t => (terms b).eval fun u =>
          (Combination.branchTerms t u).eval (cutAbove s.degree φ) := by
  rw [eval_multiply_direct, Combination.eval_product_eq]

theorem multiply_comm (a b : s.Coefficients T) :
    multiply .direct a b = multiply .direct b a := by
  refine ext_eval fun φ => ?_
  rw [eval_multiply_direct, eval_multiply_direct, Combination.eval_product_comm]

theorem add_multiply (a b c : s.Coefficients T) :
    multiply .direct (a + b) c = multiply .direct a c + multiply .direct b c := by
  refine ext_eval fun φ => ?_
  rw [eval_add, eval_multiply, eval_multiply, eval_multiply, eval_add]

/-- Multiplication by one factor as a map of groups. -/
def multiplication (g : s.Coefficients T) : AddMonoid.End (s.Coefficients T) :=
  AddMonoidHom.mk' (fun v => multiply .direct v g) fun a b => add_multiply a b g

/-- The recurrence of the polynomials of such a map. -/
theorem chebyshev_multiplication_succ_succ (g a : s.Coefficients T) (k : Nat) :
    chebyshev (multiplication g) (k + 2) a
      = multiply .direct (chebyshev (multiplication g) (k + 1) a) g
        + multiply .direct (chebyshev (multiplication g) (k + 1) a) g
        - chebyshev (multiplication g) k a := by
  rw [chebyshev_succ_succ]
  rfl

theorem sub_multiply (a b c : s.Coefficients T) :
    multiply .direct (a - b) c = multiply .direct a c - multiply .direct b c :=
  map_sub (multiplication c) a b

theorem multiply_add (a b c : s.Coefficients T) :
    multiply .direct a (b + c) = multiply .direct a b + multiply .direct a c := by
  rw [multiply_comm, add_multiply, multiply_comm b, multiply_comm c]

theorem multiply_constant (strategy : Strategy) (a : s.Coefficients T) (c : T) :
    multiply strategy a (s.constant c) = scale a c := by
  rw [multiply, if_pos (isConstant_constant c), constantTerm_constant]

theorem one_multiply (a : s.Coefficients T) : multiply .direct (s.constant 1) a = a := by
  rw [multiply_comm, multiply_constant, scale_one]

theorem scale_multiply (a b : s.Coefficients T) (c : T) :
    multiply .direct (scale a c) b = scale (multiply .direct a b) c := by
  refine ext_eval fun φ => ?_
  rw [eval_scale, eval_multiply, eval_multiply, eval_scale]

variable {a b c : s.Coefficients T}

theorem degree_multiply_le (a b : s.Coefficients T) :
    (terms (multiply .direct a b)).degree ≤ (terms a).degree + (terms b).degree := by
  refine degree_le_iff.mpr fun φ => ?_
  rw [eval_multiply_direct, eval_multiply_direct, ← eval_fullProduct, ← eval_fullProduct]
  refine Combination.eval_congr fun c hc => ?_
  simp only [cutAbove]
  rw [if_pos (mem_fullProduct hc).2]

/-- Nothing is cut off a product whose degrees fit. -/
theorem eval_multiply_of_degree (h : (terms a).degree + (terms b).degree ≤ s.degree)
    (φ : Tuple → T) : (terms (multiply .direct a b)).eval φ
      = (Combination.product (terms a) (terms b)).eval φ := by
  rw [eval_multiply_direct, ← eval_fullProduct, ← eval_fullProduct]
  refine Combination.eval_congr fun c hc => if_pos ?_
  exact (mem_fullProduct hc).2.trans h

theorem eval_multiply_multiply
    (h : (terms a).degree + (terms b).degree + (terms c).degree ≤ s.degree) (φ : Tuple → T) :
    (terms (multiply .direct (multiply .direct a b) c)).eval φ
      = (Combination.product (Combination.product (terms a) (terms b)) (terms c)).eval φ := by
  have hab := degree_multiply_le a b
  rw [eval_multiply_of_degree (by omega), Combination.eval_product_eq,
    eval_multiply_of_degree (by omega), ← Combination.eval_product_eq]

/-- **The truncated product is associative where the degrees fit.** -/
theorem multiply_assoc (hhalf : (Scalar.half : T) + Scalar.half = 1)
    (h : (terms a).degree + (terms b).degree + (terms c).degree ≤ s.degree) :
    multiply .direct (multiply .direct a b) c = multiply .direct a (multiply .direct b c) := by
  have hlen : ∀ v : s.Coefficients T, ∀ x ∈ terms v, x.1.length = s.nvar := fun v x hx =>
    length_of_mem_terms hx
  refine ext_eval fun φ => ?_
  rw [multiply_comm a (multiply _ _ _), eval_multiply_multiply h, eval_multiply_multiply (by omega),
    Combination.eval_product_assoc hhalf (hlen a) (hlen b) (hlen c), Combination.eval_product_comm]

end Product

end Shape

end TensorChebyshev
