import Mathlib
import TensorChebyshev.Proofs.Product.Combination

/-!
# The product is associative

The branches of a pair of tuples, each with the common weight, are a
combination, and reading a product of combinations is reading these one inside
the other. In one variable the branches of three exponents are the four
distances `|x ± y ± z|`, whichever pair is multiplied first, so the product of
combinations is associative when nothing is cut off.
-/

namespace TensorChebyshev

/-! ## Three exponents -/

theorem distance_eq_natAbs (x y : Nat) : distance x y = ((x : ℤ) - y).natAbs := by
  rw [distance]
  omega

/-- A magnitude with a third exponent, without the sign that it forgets. -/
theorem sum_natAbs {M : Type} [AddCommMonoid M] (F : Nat → M) (i : ℤ) (n : Nat) :
    F (i.natAbs + n) + F (distance i.natAbs n) = F (i + n).natAbs + F (i - n).natAbs := by
  rw [distance_eq_natAbs]
  rcases Int.natAbs_eq i with h | h
  · have hsum : (i + n).natAbs = i.natAbs + n := by omega
    have hdistance : (i - n).natAbs = ((i.natAbs : ℤ) - n).natAbs := by omega
    rw [hsum, hdistance]
  · have hsum : (i - n).natAbs = i.natAbs + n := by omega
    have hdistance : (i + n).natAbs = ((i.natAbs : ℤ) - n).natAbs := by omega
    rw [hsum, hdistance, add_comm]

/-- The four magnitudes of `x ± y ± z` are reached from both sides, though in another order. -/
theorem sum_distances {M : Type} [AddCommMonoid M] (F : Nat → M) (x y z : Nat) :
    (F (x + y + z) + F (distance (x + y) z))
        + (F (distance x y + z) + F (distance (distance x y) z))
      = (F (x + (y + z)) + F (distance x (y + z)))
        + (F (x + distance y z) + F (distance x (distance y z))) := by
  have hcomm : ∀ a b : Nat, F (a + b) + F (distance a b) = F (b + a) + F (distance b a) := by
    intro a b
    rw [Nat.add_comm, distance, Nat.add_comm (a - b), ← distance]
  have hfirst : F (x + y + z) + F (distance (x + y) z)
      = F ((x : ℤ) + y + z).natAbs + F ((x : ℤ) + y - z).natAbs := sum_natAbs F (x + y : Nat) z
  have hsecond := sum_natAbs F ((x : ℤ) - y) z
  have hthird : F (y + z + x) + F (distance (y + z) x)
      = F ((y : ℤ) + z + x).natAbs + F ((y : ℤ) + z - x).natAbs := sum_natAbs F (y + z : Nat) x
  have hfourth := sum_natAbs F ((y : ℤ) - z) x
  rw [← distance_eq_natAbs] at hsecond hfourth
  rw [hcomm x, hcomm x, hfirst, hsecond, hthird, hfourth]
  have h1 : ((y : ℤ) + z + x).natAbs = ((x : ℤ) + y + z).natAbs := by omega
  have h2 : ((y : ℤ) + z - x).natAbs = ((x : ℤ) - y - z).natAbs := by omega
  have h3 : ((y : ℤ) - z + x).natAbs = ((x : ℤ) + y - z).natAbs := by omega
  have h4 : ((y : ℤ) - z - x).natAbs = ((x : ℤ) - y + z).natAbs := by omega
  rw [h1, h2, h3, h4]
  ac_rfl

namespace Combination

/-! ## Reading inside reading -/

section Read

variable {T : Type} [Arithmetic T] [ExactRing T]

attribute [local instance] ExactRing.toCommRing

theorem eval_zero (l : Combination T) : l.eval (fun _ => 0) = 0 := by
  refine List.sum_eq_zero fun z hz => ?_
  obtain ⟨c, _, rfl⟩ := List.mem_map.mp hz
  exact mul_zero c.2

theorem eval_mul_left (l : Combination T) (a : T) (φ : Tuple → T) :
    l.eval (fun t => a * φ t) = a * l.eval φ := by
  rw [eval, eval, ← List.sum_map_mul_left]
  congr 1
  refine List.map_congr_left fun c _ => ?_
  exact mul_left_comm ..

theorem eval_nonzero (l : Combination T) (φ : Tuple → T) : l.nonzero.eval φ = l.eval φ :=
  sum_map_nonzero (fun c => c.2 * φ c.1) (fun t => zero_mul (φ t)) l

theorem eval_eval_comm (l m : Combination T) (φ : Tuple → Tuple → T) :
    l.eval (fun t => m.eval (φ t)) = m.eval fun u => l.eval fun t => φ t u := by
  induction l with
  | nil => exact (eval_zero m).symm
  | cons c l ih => simp only [eval_cons, eval_add, eval_mul_left, ih]

end Read

/-! ## Branches as a combination -/

variable {T R : Type} [RealLine R] [Scalar T R]

/-- The branches of a pair of tuples with their common weight. -/
def branchTerms (t u : Tuple) : Combination T :=
  (branches t u).map fun v => (v, halvedWeight (splits t u))

variable [ExactRing T]

attribute [local instance] ExactRing.toCommRing

theorem eval_branchTerms (t u : Tuple) (φ : Tuple → T) :
    (branchTerms t u).eval φ = halvedWeight (splits t u) * ((branches t u).map φ).sum := by
  rw [branchTerms, eval, List.map_map, ← List.sum_map_mul_left]
  rfl

/-- One more variable splits into a sum and a distance. If one exponent is zero the
two are the same. -/
theorem eval_branchTerms_cons (hhalf : (Scalar.half : T) + Scalar.half = 1) (x y : Nat)
    (t u : Tuple) (φ : Tuple → T) :
    (branchTerms (x :: t) (y :: u)).eval φ
      = Scalar.half * ((branchTerms t u).eval (fun v => φ ((x + y) :: v))
        + (branchTerms t u).eval fun v => φ (distance x y :: v)) := by
  have hfront : ∀ e : Nat, ((branches t u).map (e :: ·)).map φ
      = (branches t u).map fun v => φ (e :: v) := fun e => by rw [List.map_map]; rfl
  simp only [eval_branchTerms, splits]
  by_cases h : x = 0 ∨ y = 0
  · have hsame : distance x y = x + y := by
      rw [distance]
      omega
    rw [if_pos h, branches_cons_of_zero h, hfront, hsame, Nat.zero_add, ← two_mul, ← mul_assoc,
      mul_two, hhalf, one_mul]
  · rw [if_neg h, ((branches_cons_perm h t u).map φ).sum_eq, List.map_append, List.sum_append,
      hfront, hfront, Nat.add_comm, halvedWeight]
    ring

theorem eval_branchTerms_nil (φ : Tuple → T) : (branchTerms [] []).eval φ = φ [] := by
  simp [eval_branchTerms, branches, splits, halvedWeight]

/-- **The branches of three tuples** do not depend on the pair that comes first. -/
theorem eval_branchTerms_assoc (hhalf : (Scalar.half : T) + Scalar.half = 1) {t u w : Tuple}
    (hu : t.length = u.length) (hw : u.length = w.length) (φ : Tuple → T) :
    (branchTerms t u).eval (fun v => (branchTerms v w).eval φ)
      = (branchTerms u w).eval fun v => (branchTerms t v).eval φ := by
  induction t generalizing u w φ with
  | nil =>
      obtain rfl := List.length_eq_zero_iff.mp hu.symm
      obtain rfl := List.length_eq_zero_iff.mp hw.symm
      simp only [eval_branchTerms_nil]
  | cons x t ih =>
      match u, w, hu, hw with
      | y :: u, z :: w, hu, hw =>
        let F : Nat → T := fun k =>
          (branchTerms t u).eval fun v => (branchTerms v w).eval fun r => φ (k :: r)
        have hF : ∀ k, ((branchTerms u w).eval fun v =>
            (branchTerms t v).eval fun r => φ (k :: r)) = F k := fun k =>
          (ih (Nat.succ.inj hu) (Nat.succ.inj hw) fun r => φ (k :: r)).symm
        have hsums := sum_distances F x y z
        simp only [eval_branchTerms_cons hhalf, eval_mul_left, eval_add, hF]
        show Scalar.half * (Scalar.half * (F (x + y + z) + F (distance (x + y) z))
            + Scalar.half * (F (distance x y + z) + F (distance (distance x y) z))) = _
        rw [← mul_add, hsums, mul_add]

/-! ## Products -/

theorem eval_product_eq (l m : Combination T) (φ : Tuple → T) :
    (product l m).eval φ = l.eval fun t => m.eval fun u => (branchTerms t u).eval φ := by
  rw [eval_product, eval]
  congr 1
  refine List.map_congr_left fun x _ => ?_
  rw [eval, ← List.sum_map_mul_left]
  congr 1
  refine List.map_congr_left fun y _ => ?_
  rw [contribution, eval_branchTerms]
  ring

/-- **The product of combinations is associative.** -/
theorem eval_product_assoc (hhalf : (Scalar.half : T) + Scalar.half = 1) {l m k : Combination T}
    {n : Nat} (hl : ∀ c ∈ l, c.1.length = n) (hm : ∀ c ∈ m, c.1.length = n)
    (hk : ∀ c ∈ k, c.1.length = n) (φ : Tuple → T) :
    (product (product l m) k).eval φ = (product l (product m k)).eval φ := by
  rw [eval_product_eq, eval_product_eq, eval_product_eq]
  refine eval_congr fun x hx => ?_
  rw [eval_product_eq]
  refine eval_congr fun y hy => ?_
  rw [eval_eval_comm]
  refine eval_congr fun z hz => ?_
  exact eval_branchTerms_assoc hhalf ((hl x hx).trans (hm y hy).symm)
    ((hm y hy).trans (hk z hz).symm) φ

end Combination

end TensorChebyshev
