import TensorChebyshev.Coefficients
import TensorChebyshev.Expansion.Basic
import TensorChebyshev.Proofs.Scalar.Exact
import TensorChebyshev.Proofs.Series.Nested

/-!
# Values

What an expansion means at a point: the sum over the listed tuples of the
coefficient times the product of the Chebyshev polynomials of the coordinates.
Nothing of the recurrences enters here.
-/

namespace TensorChebyshev

/-- Shapes with the same numbers are the same. -/
theorem Shape.Alike.eq {s t : Shape} (h : s.Alike t) : s = t := by
  obtain ⟨b, p⟩ := s
  obtain ⟨c, q⟩ := t
  have hbasis : b = c := GradedBasis.ext_of h.1 h.2
  subst hbasis
  rw [Subsingleton.elim p q]

theorem Expansion.coeffsIn_self {T R : Type} (s : Shape) (v : s.Coefficients T) :
    coeffsIn s ⟨s, v⟩ = (.ok v : Result R (s.Coefficients T)) := by
  rw [coeffsIn, dif_pos ⟨rfl, rfl⟩]
  rfl

/-- What ends with a value had one on the way. -/
theorem Expansion.exists_of_bind_eq_ok {A B E : Type} {r : Except E A} {f : A → Except E B} {b : B}
    (h : r >>= f = .ok b) : ∃ a, r = .ok a ∧ f a = .ok b := by
  cases r with
  | error cause => cases h
  | ok a => exact ⟨a, rfl, h⟩

theorem Expansion.exists_of_map_eq_ok {A B E : Type} {r : Except E A} {f : A → B} {b : B}
    (h : r.map f = .ok b) : ∃ a, r = .ok a ∧ f a = b := by
  cases r with
  | error cause => cases h
  | ok a =>
      cases h
      exact ⟨a, rfl, rfl⟩

theorem Expansion.eq_ok_of_mapError {A E E' : Type} {r : Except E A} {f : E → E'} {a : A}
    (h : r.mapError f = .ok a) : r = .ok a := by
  cases r with
  | error cause => cases h
  | ok b =>
      cases h
      rfl

/-- Where every member of a list gets a result, the list does. -/
theorem Expansion.mapM_eq_ok {A B E : Type} {f : A → Except E B} {g : A → B} {l : List A}
    (h : ∀ x ∈ l, f x = .ok (g x)) : l.mapM f = .ok (l.map g) := by
  induction l with
  | nil => rfl
  | cons x l ih =>
      rw [List.mapM_cons, h x (List.mem_cons_self ..),
        ih fun y hy => h y (List.mem_cons_of_mem _ hy)]
      rfl

variable {T : Type} [Arithmetic T]

/-- The sum of the coefficients times the basis functions at a point. -/
def Shape.value {s : Shape} (v : s.Coefficients T) (x : List T) : T :=
  ((s.labelled v.toList).map fun c => c.2 * tensorChebyshev c.1 x).sum

def Expansion.value (e : Expansion T) (x : List T) : T := Shape.value e.coeffs x

end TensorChebyshev
