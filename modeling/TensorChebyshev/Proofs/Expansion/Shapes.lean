import TensorChebyshev.Expansion.Substitute
import TensorChebyshev.Proofs.Expansion.Compose
import TensorChebyshev.Proofs.Index.Numbering

/-!
# Shapes of results

Every operation gives its result the shape that it was asked for or that of its
operands; of a composition the substitutions are the operands. And a shape has as
many coefficients as there are tuples of its numbers, fewer than `2 ^ 32`.
-/

namespace TensorChebyshev.Expansion

variable {T R : Type}

theorem size_eq_choose (e : Expansion T) : e.size = (e.nvar + e.degree).choose e.nvar :=
  e.shape.numbering.size_eq

theorem size_lt (e : Expansion T) : e.size < 2 ^ 32 := by
  have h := (atMost_of_numberable e.shape.admissible.numberable).1
  rwa [← GradedBasis.size_eq_atMost, halfWordBound_eq] at h

/-! ## Shapes asked for -/

theorem shapeFor_ok {nvar degree : Nat} {s : Shape}
    (h : shapeFor nvar degree = (.ok s : Result R Shape)) : s.nvar = nvar ∧ s.degree = degree := by
  obtain ⟨b, hb, rfl⟩ := exists_of_map_eq_ok (eq_ok_of_mapError h)
  exact GradedBasis.numbers_of_build hb

theorem shapeFor_of_admissible {nvar degree : Nat} (h : Admissible nvar degree) :
    shapeFor nvar degree = (.ok (Shape.ofAdmissible h) : Result R Shape) := by
  rw [shapeFor, Shape.build, GradedBasis.build_of_admissible h]
  rfl

theorem shape_of_ofCoefficientsIn {s : Shape} {cs : Array T} {e : Expansion T}
    (h : ofCoefficientsIn s cs = (.ok e : Result R _)) : e.shape = s := by
  rw [ofCoefficientsIn] at h
  split at h
  · cases h
    rfl
  · cases h

theorem shape_of_setCoefficient {x e : Expansion T} {i : Nat} {value : T}
    (h : x.setCoefficient i value = (.ok e : Result R _)) : e.shape = x.shape := by
  rw [setCoefficient] at h
  split at h
  · cases h
    rfl
  · cases h

/-- What is made in a shape that was asked for has the numbers that were asked for. -/
theorem numbers_of_shapeFor {nvar degree : Nat} {make : Shape → Result R (Expansion T)}
    (hmake : ∀ s e, make s = .ok e → e.shape = s) {e : Expansion T}
    (h : shapeFor nvar degree >>= make = .ok e) : e.nvar = nvar ∧ e.degree = degree := by
  obtain ⟨s, hs, he⟩ := exists_of_bind_eq_ok h
  rw [Expansion.nvar, Expansion.degree, hmake s e he]
  exact shapeFor_ok hs

theorem numbers_of_basis [Arithmetic T] {nvar degree i : Nat} {e : Expansion T}
    (h : basis nvar degree i = (.ok e : Result R _)) : e.nvar = nvar ∧ e.degree = degree := by
  obtain ⟨x, hx, he⟩ := exists_of_bind_eq_ok h
  have hnumbers := numbers_of_shapeFor (fun s x hx => by cases hx; rfl) hx
  rw [Expansion.nvar, Expansion.degree, shape_of_setCoefficient he]
  exact hnumbers

theorem numbers_of_coordinate [Arithmetic T] {nvar degree v : Nat} {e : Expansion T}
    (h : coordinate nvar degree v = (.ok e : Result R _)) : e.nvar = nvar ∧ e.degree = degree := by
  rw [coordinate] at h
  split at h
  · cases h
  · exact numbers_of_basis h

/-! ## Shapes of operands -/

theorem alike_of_coeffsIn {s : Shape} {e : Expansion T} {c : s.Coefficients T}
    (h : coeffsIn s e = (.ok c : Result R _)) : s.Alike e.shape := by
  rw [coeffsIn] at h
  split at h
  · assumption
  · cases h

/-- What is made in the shape of the first operand after the second one was read in
this shape. -/
theorem alike_of_bind {a b e : Expansion T} {make : a.shape.Coefficients T → Result R (Expansion T)}
    (hmake : ∀ c e, make c = .ok e → e.shape = a.shape)
    (h : coeffsIn a.shape b >>= make = .ok e) :
    a.shape.Alike e.shape ∧ b.shape.Alike e.shape := by
  obtain ⟨c, hc, he⟩ := exists_of_bind_eq_ok h
  have halike := alike_of_coeffsIn hc
  rw [hmake c e he]
  exact ⟨⟨rfl, rfl⟩, halike.1.symm, halike.2.symm⟩

section Arithmetic

variable [RealLine R] [Scalar T R]

omit [RealLine R] in
theorem shape_of_divScalar {x e : Expansion T} {value : T}
    (h : x.divScalar value = (.ok e : Result R _)) : e.shape = x.shape := by
  rw [divScalar] at h
  split at h
  · cases h
  · cases h
    rfl

variable [CosineTransform T]

theorem shape_of_inverse {x e : Expansion T} {options : NewtonOptions R}
    (h : x.inverse options = .ok e) : e.shape = x.shape := by
  obtain ⟨y, -, he⟩ := exists_of_bind_eq_ok h
  cases he
  rfl

theorem alike_of_multiply {strategy : Strategy} {a b e : Expansion T}
    (h : a.multiply strategy b = (.ok e : Result R _)) :
    a.shape.Alike e.shape ∧ b.shape.Alike e.shape :=
  alike_of_bind (fun _ _ he => by cases he; rfl) h

theorem alike_of_combine {op : Operator} {a b e : Expansion T}
    (h : combine op a b = (.ok e : Result R _)) :
    a.shape.Alike e.shape ∧ b.shape.Alike e.shape := by
  cases op with
  | add => exact alike_of_bind (fun _ _ he => by cases he; rfl) h
  | sub => exact alike_of_bind (fun _ _ he => by cases he; rfl) h
  | mul => exact alike_of_multiply h
  | div =>
      refine alike_of_bind (fun c e he => ?_) h
      obtain ⟨y, -, he⟩ := exists_of_bind_eq_ok he
      cases he
      rfl

omit [RealLine R] [CosineTransform T] in
theorem shape_of_combineScalar {op : Operator} {x e : Expansion T} {value : T}
    (h : combineScalar op x value = (.ok e : Result R _)) : e.shape = x.shape := by
  cases op with
  | add => cases h; rfl
  | sub => cases h; rfl
  | mul => cases h; rfl
  | div => exact shape_of_divScalar h

theorem shape_of_scalarCombine {op : Operator} {x e : Expansion T} {value : T}
    (h : scalarCombine op value x = (.ok e : Result R _)) : e.shape = x.shape := by
  cases op with
  | add => cases h; rfl
  | sub => cases h; rfl
  | mul => cases h; rfl
  | div =>
      obtain ⟨y, hy, he⟩ := exists_of_bind_eq_ok h
      cases he
      exact (shape_of_inverse hy : y.shape = x.shape)

/-! ## Shapes of substitutions -/

omit [RealLine R] [Scalar T R] [CosineTransform T] in
/-- A list that is read in one shape has members of this shape only. -/
theorem alike_of_mapM_coeffsIn {s : Shape} {gs : List (Expansion T)} {cs : List (s.Coefficients T)}
    (h : gs.mapM (coeffsIn s) = (.ok cs : Result R _)) : ∀ g ∈ gs, s.Alike g.shape := by
  induction gs generalizing cs with
  | nil => simp
  | cons g gs ih =>
      rw [List.mapM_cons] at h
      obtain ⟨c, hg, h⟩ := exists_of_bind_eq_ok h
      obtain ⟨cs, hgs, -⟩ := exists_of_bind_eq_ok h
      intro g' hg'
      rcases List.mem_cons.mp hg' with rfl | hmem
      · exact alike_of_coeffsIn hg
      · exact ih hgs g' hmem

/-- A composition has the shape of every substitution, and there is one. -/
theorem alike_of_compose {strategy : Strategy} {x e : Expansion T} {gs : List (Expansion T)}
    (h : x.compose strategy gs = (.ok e : Result R _)) :
    gs ≠ [] ∧ ∀ g ∈ gs, g.shape.Alike e.shape := by
  by_cases hlen : gs.length = x.nvar
  case neg =>
    rw [compose.eq_def, if_neg hlen] at h
    cases h
  cases gs with
  | nil => exact absurd hlen (Nat.ne_of_lt x.shape.admissible.nvar_pos)
  | cons g gs =>
      rw [compose_cons strategy x g gs hlen] at h
      obtain ⟨cs, hcs, hsum⟩ := exists_of_bind_eq_ok h
      have hshape : e.shape = g.shape := by
        obtain ⟨v, -, he⟩ := exists_of_bind_eq_ok
          (f := fun v => .ok (Expansion.mk g.shape v)) hsum
        cases he
        rfl
      rw [hshape]
      refine ⟨List.cons_ne_nil _ _, fun g' hg' => ?_⟩
      rcases List.mem_cons.mp hg' with rfl | hmem
      · exact ⟨rfl, rfl⟩
      · have halike := alike_of_mapM_coeffsIn hcs g' hmem
        exact ⟨halike.1.symm, halike.2.symm⟩

/-! ## Shapes of functions -/

theorem shape_of_composeSeries {x e : Expansion T} {cs : List T} {a b : T}
    (h : x.composeSeries cs a b = (.ok e : Result R _)) : e.shape = x.shape := by
  obtain ⟨width, -, he⟩ := exists_of_bind_eq_ok h
  cases he
  rfl

theorem shape_of_chebyshevBasis {x : Expansion T} {a b : T} {es : List (Expansion T)}
    (h : x.chebyshevBasis a b = (.ok es : Result R _)) : ∀ e ∈ es, e.shape = x.shape := by
  obtain ⟨width, -, hes⟩ := exists_of_bind_eq_ok h
  cases hes
  intro e he
  obtain ⟨c, -, rfl⟩ := List.mem_map.mp he
  rfl

theorem shape_of_apply [RealScalar T] {x e : Expansion T} {f : T → T}
    (h : x.apply f = (.ok e : Result R _)) : e.shape = x.shape := by
  rw [apply] at h
  split at h
  split at h
  · cases h
    rfl
  · obtain ⟨cs, -, he⟩ := exists_of_bind_eq_ok h
    exact shape_of_composeSeries he

end Arithmetic

end TensorChebyshev.Expansion
