import Mathlib.Algebra.BigOperators.Group.List.Lemmas
import Mathlib.Algebra.Ring.Equiv
import TensorChebyshev.Series.Clenshaw
import TensorChebyshev.Proofs.Index.Prefix
import TensorChebyshev.Proofs.Series.Chebyshev

/-!
# What the backward recurrence sums

Multiplication by the argument enters the recurrence as an additive map `L`,
and the recurrence computes the series with the Chebyshev polynomials of `L`
applied to the coefficients. In several variables the sum over the last one
feeds the sum over the one before, so the maps are applied in the order of the
variables with the first one outermost.
-/

namespace TensorChebyshev

variable {V : Type} [AddCommGroup V]

/-! ## One variable -/

/-- The series of an additive map with the given coefficients, the first of
which belongs to degree `k`. -/
def seriesFrom (L : AddMonoid.End V) : (k : Nat) → List V → V
  | _, [] => 0
  | k, c :: cs => chebyshev L k c + seriesFrom L (k + 1) cs

theorem chebyshev_end_succ_succ (L : AddMonoid.End V) (k : Nat) (b : V) :
    chebyshev L (k + 2) b
      = chebyshev L (k + 1) (L b) + chebyshev L (k + 1) (L b) - chebyshev L k b := by
  rw [chebyshev_succ_succ, ← chebyshev_mul_comm]
  rfl

/-- The invariant of the recurrence: its two sums carry the whole rest of the
series, at whatever degree the rest begins. -/
theorem seriesFrom_eq_backward (L : AddMonoid.End V) (cs : List V) (k : Nat) :
    seriesFrom L (k + 1) cs
      = chebyshev L (k + 1) (backward L cs).1 - chebyshev L k (backward L cs).2 := by
  induction cs generalizing k with
  | nil => simp [seriesFrom, backward]
  | cons c cs ih =>
      cases cs with
      | nil => simp [seriesFrom, backward]
      | cons d cs =>
          rw [seriesFrom, ih (k + 1), backward, chebyshev_end_succ_succ]
          simp only [map_add, map_sub]
          abel

/-- **The recurrence sums the series.** -/
theorem clenshaw_eq_seriesFrom (L : AddMonoid.End V) (cs : List V) :
    clenshaw L cs = seriesFrom L 0 cs := by
  match cs with
  | [] => rfl
  | [c] => simp [clenshaw, seriesFrom, chebyshev]
  | c :: d :: cs =>
    rw [clenshaw, seriesFrom, seriesFrom_eq_backward]
    simp only [chebyshev, AddMonoid.End.coe_one, id_eq]
    abel

/-- The series over coefficients that are labelled with their degrees. -/
theorem seriesFrom_eq_sum {α : Type} (L : AddMonoid.End V) (degree : α → Nat)
    (value : α → V) (l : List α) (k : Nat)
    (h : l.map degree = List.range' k l.length) :
    seriesFrom L k (l.map value)
      = (l.map fun x => chebyshev L (degree x) (value x)).sum := by
  induction l generalizing k with
  | nil => rfl
  | cons x l ih =>
      rw [List.map_cons, List.length_cons, List.range'_succ, List.cons.injEq] at h
      rw [List.map_cons, seriesFrom, List.map_cons, List.sum_cons, ih (k + 1) h.2, h.1]

/-! ## Several variables -/

/-- The Chebyshev polynomials of a tuple at additive maps, one map for each
variable from `v` on, the first one applied last. -/
def tensorMap (L : Nat → AddMonoid.End V) : (v : Nat) → Tuple → AddMonoid.End V
  | _, [] => 1
  | v, e :: t => chebyshev (L v) e * tensorMap L (v + 1) t

theorem tensorMap_cons_apply (L : Nat → AddMonoid.End V) (v e : Nat) (t : Tuple) (c : V) :
    tensorMap L v (e :: t) c = chebyshev (L v) e (tensorMap L (v + 1) t c) := rfl

theorem tensorMap_concat (L : Nat → AddMonoid.End V) (v : Nat) (q : Tuple) (e : Nat) :
    tensorMap L v (q ++ [e]) = tensorMap L v q * chebyshev (L (v + q.length)) e := by
  induction q generalizing v with
  | nil => simp [tensorMap]
  | cons d q ih =>
      rw [List.cons_append, tensorMap, ih, tensorMap, mul_assoc, List.length_cons,
        show v + 1 + q.length = v + (q.length + 1) by omega]

end TensorChebyshev
