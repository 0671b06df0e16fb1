import Mathlib
import TensorChebyshev.Proofs.Expansion.Compose
import TensorChebyshev.Proofs.Expansion.ComposeSeries

/-!
# Composition in closed form

The recurrence feeds its cut off sums back as coefficients, but all that it does
to them is additive and goes through scalars. So a composition is a sum over the
terms of the outer expansion: each coefficient times what the Chebyshev
polynomials of the multiplications make of one, the last variable first. As
truncated products do not associate, the order of the variables stays in it; the
coefficients come out in front, so the composition is linear in them however much
is cut off.
-/

namespace TensorChebyshev

attribute [local instance] ExactRing.toCommRing

namespace Shape

variable {T R : Type} [RealLine R] [Scalar T R] [CosineTransform T] [ExactRing T] {s u : Shape}

theorem commute_scaling_tensorMap (c : T) (vs : List (s.Coefficients T)) (t : Tuple) (v : Nat) :
    Commute (scaling c) (tensorMap (factorMap vs) v t) := by
  induction t generalizing v with
  | nil => exact Commute.one_right _
  | cons e t ih =>
      have hfactor : Commute (scaling c) (factorMap vs v) := commute_scaling_multiplication c _
      exact (commute_chebyshev hfactor e).mul_right (ih (v + 1))

/-- The terms of an outer vector with the multiplications by the factors for the variables,
applied to one. -/
def substitution (vs : List (s.Coefficients T)) (a : u.Coefficients T) : s.Coefficients T :=
  ((terms a).map fun c => scale (tensorMap (factorMap vs) 0 c.1 (s.constant 1)) c.2).sum

/-- A substitution is read by reading the outer vector with the substituted basis functions. -/
theorem eval_substitution (vs : List (s.Coefficients T)) (a : u.Coefficients T) (φ : Tuple → T) :
    (terms (substitution vs a)).eval φ
      = (terms a).eval fun t => (terms (tensorMap (factorMap vs) 0 t (s.constant 1))).eval φ := by
  rw [substitution, eval_listSum, List.map_map, Combination.eval]
  refine congrArg List.sum (List.map_congr_left fun c _ => ?_)
  exact (eval_scale _ c.2 φ).trans (mul_comm _ _)

theorem substitution_add_scale (vs : List (s.Coefficients T)) (a b : u.Coefficients T) (c : T) :
    substitution vs (a + scale b c) = substitution vs a + scale (substitution vs b) c := by
  refine ext_eval fun φ => ?_
  rw [eval_substitution, eval_add, eval_scale, eval_add, eval_scale, eval_substitution,
    eval_substitution]

end Shape

namespace Expansion

variable {T R : Type} [RealLine R] [Scalar T R] [CosineTransform T] [ExactRing T]

theorem compose_eq_substitution_coeffs (e : Expansion T) (s : Shape) (vs : List (s.Coefficients T))
    (h : vs.length = e.nvar) :
    e.compose .direct (vs.map (Expansion.mk s)) = .ok ⟨s, Shape.substitution vs e.coeffs⟩ := by
  have hterms : ∀ c ∈ Shape.terms e.coeffs, tensorMap (Shape.factorMap vs) 0 c.1 (s.constant c.2)
      = Shape.scale (tensorMap (Shape.factorMap vs) 0 c.1 (s.constant 1)) c.2 := fun c _ =>
    Shape.apply_constant_of_commute (Shape.commute_scaling_tensorMap c.2 vs c.1 0)
  rw [compose_direct e s vs h, List.map_congr_left hterms]
  rfl

/-- **Composition in closed form.** With substitutions of one shape it is the sum over the terms
of the outer expansion, each coefficient times the Chebyshev polynomials of the multiplications
by the substitutions, applied to one with the first variable outermost. So it is linear in the
outer expansion, however much is cut off. -/
theorem compose_closedForm (s : Shape) (gs : List (Expansion T)) (hgs : ∀ g ∈ gs, s.Alike g.shape) :
    ∃ vs : List (s.Coefficients T), gs = vs.map (Expansion.mk s) ∧
      (∀ e : Expansion T, gs.length = e.nvar → e.compose .direct gs
        = .ok ⟨s, ((Shape.terms e.coeffs).map fun c => Shape.scale
            (tensorMap (fun v => Shape.multiplication (vs.getD v s.zeros)) 0 c.1 (s.constant 1))
            c.2).sum⟩) ∧
      ∀ (a b : Expansion T) (c : T), gs.length = a.nvar → a.shape.Alike b.shape →
        ∃ e x y z : Expansion T, a.add (b.scale c) = (.ok e : Result R (Expansion T)) ∧
          a.compose .direct gs = .ok x ∧ b.compose .direct gs = .ok y ∧
          e.compose .direct gs = .ok z ∧ x.add (y.scale c) = (.ok z : Result R (Expansion T)) := by
  obtain ⟨vs, rfl⟩ := exists_coeffs s gs hgs
  simp only [List.length_map]
  refine ⟨vs, rfl, fun e he => compose_eq_substitution_coeffs e s vs he, ?_⟩
  rintro ⟨u, v⟩ ⟨u', w⟩ c hlen halike
  obtain rfl : u = u' := halike.eq
  refine ⟨_, _, _, _, add_scale_mk u v w c, compose_eq_substitution_coeffs _ s vs hlen,
    compose_eq_substitution_coeffs _ s vs hlen, compose_eq_substitution_coeffs _ s vs hlen, ?_⟩
  rw [Shape.substitution_add_scale]
  exact add_scale_mk s _ _ c

theorem terms_parabola : Shape.terms (parabola ℝ).coeffs = [([0], 1), ([1], 1), ([2], 1)] := by
  have hlist : (parabola ℝ).coeffs.toList = [1, 1, 1] := by
    rw [parabola, Vector.toList_replicate, GradedBasis.size_eq]
    rfl
  rw [Shape.terms, GradedBasis.labelled_eq_zip, hlist]
  rfl

/-- The product of two polynomials of one variable. -/
theorem eval_branchTerms_singleton (d e : Nat) (φ : Tuple → ℝ) :
    (Combination.branchTerms [d] [e]).eval φ
      = if d = 0 ∨ e = 0 then φ [d + e] else (φ [d + e] + φ [distance d e]) / 2 := by
  have hhalf : (Scalar.half : ℝ) = 1 / 2 := RealAlgebra.half_eq
  rw [Combination.eval_branchTerms]
  split
  · simp [branches, splits, halvedWeight, *]
  · simp [branches, splits, halvedWeight, *]
    ring

section Sums

attribute [local instance] CosineTransform.bySums

/-- The square of the parabola, without its terms of degree three and four. -/
theorem eval_parabola_square (φ : Tuple → ℝ) :
    (Shape.terms (Shape.multiply .direct (parabola ℝ).coeffs (parabola ℝ).coeffs)).eval φ
      = 2 * φ [0] + 3 * φ [1] + 5 / 2 * φ [2] := by
  have hcut : ∀ e : Nat, Combination.cutAbove (parabola ℝ).shape.degree φ [e]
      = if e ≤ 2 then φ [e] else 0 := fun _ => rfl
  have hnil : ∀ ψ : Tuple → ℝ, Combination.eval [] ψ = 0 := fun _ => rfl
  rw [Shape.eval_multiply, terms_parabola]
  simp only [Combination.eval_cons, hnil, eval_branchTerms_singleton, hcut]
  norm_num [distance]
  ring

/-- The second Chebyshev polynomial of a multiplication takes one to `2 * g * g - 1`. -/
theorem substitution_parabola (g : (parabola ℝ).shape.Coefficients ℝ) :
    Shape.substitution [g] (parabola ℝ).coeffs
      = g + (Shape.multiply .direct g g + Shape.multiply .direct g g) := by
  let one := (parabola ℝ).shape.constant (1 : ℝ)
  have hlinear : chebyshev (Shape.multiplication g) 1 one = g := Shape.one_multiply g
  have hquadratic := Shape.chebyshev_multiplication_succ_succ g one 0
  rw [hlinear] at hquadratic
  have hterms : Shape.substitution [g] (parabola ℝ).coeffs
      = Shape.scale one 1 + (Shape.scale (chebyshev (Shape.multiplication g) 1 one) 1
        + (Shape.scale (chebyshev (Shape.multiplication g) 2 one) 1 + 0)) := by
    rw [Shape.substitution, terms_parabola]
    rfl
  have hfirst : chebyshev (Shape.multiplication g) 0 one = one := rfl
  rw [hterms, hlinear, hquadratic, hfirst, Shape.scale_one, Shape.scale_one, Shape.scale_one]
  abel

/-- The parabola of itself. The function has the value 3 at one half; with the square cut off
the composition has the value 11/2 there, and is linear all the same. -/
theorem compose_closedForm_parabola :
    ∃ x e z : Expansion ℝ, (parabola ℝ).compose .direct [parabola ℝ] = .ok x ∧
      x.evaluate #[1 / 2] = (.ok (11 / 2) : Result ℝ ℝ) ∧
      (parabola ℝ).add ((parabola ℝ).scale 2) = (.ok e : Result ℝ (Expansion ℝ)) ∧
      e.compose .direct [parabola ℝ] = .ok z ∧
      x.add (x.scale 2) = (.ok z : Result ℝ (Expansion ℝ)) := by
  have halike : (parabola ℝ).shape.Alike (parabola ℝ).shape := ⟨rfl, rfl⟩
  obtain ⟨vs, hvs, hclosed, hlinear⟩ := compose_closedForm (parabola ℝ).shape [parabola ℝ]
    fun g hg => by rw [List.mem_singleton.mp hg]; exact halike
  have hinjective : Function.Injective (Expansion.mk (T := ℝ) (parabola ℝ).shape) :=
    fun v w h => eq_of_heq (Expansion.mk.inj h).2
  obtain rfl : [(parabola ℝ).coeffs] = vs := List.map_injective_iff.mpr hinjective hvs
  obtain ⟨e, x, y, z, he, hx, hy, hz, hsum⟩ := hlinear (parabola ℝ) (parabola ℝ) 2 rfl halike
  obtain rfl : x = y := Except.ok.inj (hx.symm.trans hy)
  refine ⟨x, e, z, hx, ?_, he, hz, hsum⟩
  obtain rfl := Except.ok.inj (hx.symm.trans (hclosed (parabola ℝ) rfl))
  rw [evaluate_of_size _ #[1 / 2] rfl]
  refine congrArg Except.ok ?_
  show (Shape.terms (Shape.substitution [(parabola ℝ).coeffs] (parabola ℝ).coeffs)).eval
    (tensorChebyshev · [1 / 2]) = 11 / 2
  rw [substitution_parabola, Shape.eval_add, Shape.eval_add, eval_parabola_square, terms_parabola]
  simp only [Combination.eval, tensorChebyshev, chebyshev, List.map_cons, List.map_nil,
    List.sum_cons, List.sum_nil]
  norm_num

end Sums

end Expansion

end TensorChebyshev
