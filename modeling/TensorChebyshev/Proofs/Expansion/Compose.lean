import Mathlib
import TensorChebyshev.Expansion.Evaluate
import TensorChebyshev.Proofs.Expansion.Evaluate
import TensorChebyshev.Proofs.Expansion.Coordinate

/-!
# Composition is substitution

The nested recurrence sums the Chebyshev polynomials of the substitutions, read
as polynomials of the maps that multiply by them. Where the degrees of a term
leave room, nothing is cut off on the way from the constant to the last map, so
at every point the term has the value of the substituted basis function. That is
a matter of each term by itself: how the recurrence mixes them does not enter.
-/

namespace TensorChebyshev

open Combination (cutAbove branchTerms)

/-- The degree of a basis function after polynomials of degrees `ds` are substituted. -/
def substitutedDegree : Tuple → List Nat → Nat
  | e :: t, d :: ds => e * d + substitutedDegree t ds
  | _, _ => 0

theorem substitutedDegree_le {ds : List Nat} {k : Nat} (h : ∀ d ∈ ds, d ≤ k) (t : Tuple) :
    substitutedDegree t ds ≤ totalDegree t * k := by
  induction t generalizing ds with
  | nil => exact Nat.zero_le _
  | cons e t ih =>
      cases ds with
      | nil => exact Nat.zero_le _
      | cons d ds =>
          have hhead := Nat.mul_le_mul_left e (h d (List.mem_cons_self ..))
          have htail := ih fun d' hd' => h d' (List.mem_cons_of_mem _ hd')
          rw [substitutedDegree, totalDegree, Nat.add_mul]
          omega

namespace Shape

variable {T R : Type} [RealLine R] [Scalar T R] [CosineTransform T] [ExactRing T] {s : Shape}

attribute [local instance] ExactRing.toCommRing

/-! ## Sums of multiplication maps -/

/-- Multiplication by the factor of each variable. -/
def factorMap (gs : List (s.Coefficients T)) (v : Nat) : AddMonoid.End (s.Coefficients T) :=
  multiplication (gs.getD v s.zeros)

/-- The nested sum of constants, term by term. -/
theorem sum_multiply (b : GradedBasis) (gs : List (s.Coefficients T)) (cs : List T)
    (hc : cs.length = b.size) :
    b.sum (fun v w => multiply .direct w (gs.getD v s.zeros)) (cs.map s.constant)
      = .ok ((b.labelled cs).map fun c => tensorMap (factorMap gs) 0 c.1 (s.constant c.2)).sum := by
  have hsum := GradedBasis.sum_eq (factorMap gs) b (cs.map s.constant) (by rw [List.length_map, hc])
  rw [GradedBasis.labelled, List.zip_map_right, List.map_map] at hsum
  exact hsum

/-! ## One term where its degree fits -/

variable {a g : s.Coefficients T} {p : List T}

/-- While the degree has room the polynomials of multiplication by `g` multiply the value
by those of the value of `g`. -/
theorem value_chebyshev_multiplication (hhalf : (Scalar.half : T) + Scalar.half = 1)
    (hp : p.length = s.nvar) (k : Nat)
    (h : (terms a).degree + k * (terms g).degree ≤ s.degree) :
    (terms (chebyshev (multiplication g) k a)).degree
        ≤ (terms a).degree + k * (terms g).degree ∧
      value (chebyshev (multiplication g) k a) p = value a p * chebyshev (value g p) k := by
  induction k using chebyshev.induct with
  | case1 =>
      refine ⟨Nat.le_add_right _ _, ?_⟩
      rw [chebyshev, chebyshev, mul_one]
      rfl
  | case2 =>
      rw [Nat.one_mul] at h ⊢
      exact ⟨degree_multiply_le a g, value_multiply_direct_of_degree hhalf a g h hp⟩
  | case3 k ih1 ih0 =>
      let u := chebyshev (multiplication g) (k + 1) a
      let w := chebyshev (multiplication g) k a
      have hk1 : (k + 1) * (terms g).degree = k * (terms g).degree + (terms g).degree := by ring
      have hk2 : (k + 2) * (terms g).degree
          = k * (terms g).degree + (terms g).degree + (terms g).degree := by ring
      rw [hk2] at h ⊢
      obtain ⟨hudegree, huvalue⟩ : (terms u).degree ≤ (terms a).degree + (k + 1) * (terms g).degree
          ∧ value u p = value a p * chebyshev (value g p) (k + 1) := ih1 (by omega)
      obtain ⟨hwdegree, hwvalue⟩ : (terms w).degree ≤ (terms a).degree + k * (terms g).degree
          ∧ value w p = value a p * chebyshev (value g p) k := ih0 (by omega)
      -- the product is the only place where something could be cut off
      have hproduct := degree_multiply_le u g
      have hvalue := value_multiply_direct_of_degree hhalf u g (by omega) hp
      have hstep : chebyshev (multiplication g) (k + 2) a
          = multiply .direct u g + multiply .direct u g - w :=
        chebyshev_multiplication_succ_succ g a k
      rw [hstep]
      refine ⟨degree_sub_le (degree_add_le (by omega) (by omega)) (by omega), ?_⟩
      rw [value_sub, value_add, hvalue, huvalue, hwvalue, chebyshev]
      ring

/-- A term with room for it has the value of the substituted basis function. -/
theorem value_tensorMap_factorMap (hhalf : (Scalar.half : T) + Scalar.half = 1)
    (gs : List (s.Coefficients T)) (hp : p.length = s.nvar) (c : T) (t : Tuple) (v : Nat)
    (hlen : v + t.length ≤ gs.length)
    (h : substitutedDegree t ((gs.drop v).map fun g => (terms g).degree) ≤ s.degree) :
    (terms (tensorMap (factorMap gs) v t (s.constant c))).degree
        ≤ substitutedDegree t ((gs.drop v).map fun g => (terms g).degree) ∧
      value (tensorMap (factorMap gs) v t (s.constant c)) p
        = c * tensorChebyshev t ((gs.drop v).map fun g => value g p) := by
  induction t generalizing v with
  | nil =>
      refine ⟨(degree_constant s c).trans_le (Nat.zero_le _), ?_⟩
      rw [tensorChebyshev, mul_one]
      · exact value_constant c p
      · simp
  | cons e t ih =>
      rw [List.length_cons] at hlen
      have hv : v < gs.length := by omega
      have hfactor : factorMap gs v = multiplication gs[v] := by
        rw [factorMap, List.getD_eq_getElem _ _ hv]
      rw [List.drop_eq_getElem_cons hv, List.map_cons, substitutedDegree] at h ⊢
      obtain ⟨hdegree, hvalue⟩ := ih (v + 1) (by omega) (by omega)
      obtain ⟨hdegree', hvalue'⟩ := value_chebyshev_multiplication (g := gs[v]) hhalf hp e
        ((Nat.add_le_add_right hdegree _).trans (by omega))
      rw [tensorMap_cons_apply, hfactor]
      refine ⟨hdegree'.trans (by omega), ?_⟩
      rw [hvalue', hvalue, List.map_cons, tensorChebyshev]
      ring

/-- The value of the whole sum, where every term that is not zero fits. -/
theorem value_sum_tensorMap (hhalf : (Scalar.half : T) + Scalar.half = 1) {u : Shape}
    (a : u.Coefficients T) (gs : List (s.Coefficients T)) (hlen : gs.length = u.nvar)
    (h : ∀ c ∈ terms a, c.2 ≠ 0 →
      substitutedDegree c.1 (gs.map fun g => (terms g).degree) ≤ s.degree)
    (hp : p.length = s.nvar) :
    value ((terms a).map fun c => tensorMap (factorMap gs) 0 c.1 (s.constant c.2)).sum p
      = value a (gs.map fun g => value g p) := by
  rw [value_eq_eval, eval_listSum, List.map_map, value_eq_eval, Combination.eval]
  congr 1
  refine List.map_congr_left fun c hc => ?_
  show value (tensorMap (factorMap gs) 0 c.1 (s.constant c.2)) p
    = c.2 * tensorChebyshev c.1 (gs.map fun g => value g p)
  by_cases hzero : c.2 = 0
  · rw [hzero, constant_zero, map_zero, zero_mul]
    exact eval_zero (tensorChebyshev · p)
  · have hfits := length_of_mem_terms hc
    exact (value_tensorMap_factorMap hhalf gs hp c.2 c.1 0 (by omega) (h c hc hzero)).2

/-! ## Coordinates for the variables -/

/-- Substituting the coordinates gives every term back. -/
theorem tensorMap_coordinates (hhalf : (Scalar.half : T) + Scalar.half = 1) (hd : 1 ≤ s.degree)
    {gs : List (s.Coefficients T)}
    (hgs : ∀ v, v < s.nvar → gs.getD v s.zeros = s.coordinateVector T v) (c : T) (t : Tuple)
    (v : Nat) (hlen : v + t.length = s.nvar) (ht : totalDegree t ≤ s.degree) :
    IsTerm (tensorMap (factorMap gs) v t (s.constant c)) (List.replicate v 0 ++ t) c := by
  induction t generalizing v with
  | nil =>
      rw [List.length_nil, Nat.add_zero] at hlen
      rw [hlen, List.append_nil]
      exact isTerm_constant c
  | cons e t ih =>
      rw [List.length_cons] at hlen
      rw [totalDegree] at ht
      have hinner := ih (v + 1) (by omega) (by omega)
      rw [List.replicate_succ', List.append_assoc, List.singleton_append] at hinner
      have hcoordinate := isTerm_coordinateVector (T := T) (s := s) (v := v) (by omega) hd
      rw [unitTuple, show s.nvar - v - 1 = t.length by omega] at hcoordinate
      rw [tensorMap_cons_apply, factorMap, hgs v (by omega)]
      exact IsTerm.chebyshev hhalf hcoordinate hinner e ht

theorem sum_coordinates (hhalf : (Scalar.half : T) + Scalar.half = 1) (hd : 1 ≤ s.degree)
    {gs : List (s.Coefficients T)}
    (hgs : ∀ v, v < s.nvar → gs.getD v s.zeros = s.coordinateVector T v)
    (a : s.Coefficients T) :
    ((terms a).map fun c => tensorMap (factorMap gs) 0 c.1 (s.constant c.2)).sum = a := by
  refine ext_eval fun φ => ?_
  rw [eval_listSum, List.map_map, Combination.eval]
  congr 1
  refine List.map_congr_left fun c hc => ?_
  have hterm := tensorMap_coordinates hhalf hd hgs c.2 c.1 0
    (by rw [length_of_mem_terms hc, Nat.zero_add]) (degree_of_mem_terms hc)
  exact hterm φ

end Shape

/-! ## Composition -/

namespace Expansion

section Alike

variable {T R : Type}

theorem mapM_coeffsIn (s : Shape) (gs : List (s.Coefficients T)) :
    (gs.map (Expansion.mk s)).mapM (coeffsIn s)
      = (.ok gs : Result R (List (s.Coefficients T))) := by
  rw [List.mapM_map]
  refine (mapM_eq_ok fun g _ => coeffsIn_self s g).trans ?_
  rw [List.map_id']

/-- Expansions of one shape are that shape with their coefficients. -/
theorem exists_coeffs (s : Shape) (l : List (Expansion T)) (h : ∀ g ∈ l, s.Alike g.shape) :
    ∃ gs : List (s.Coefficients T), l = gs.map (Expansion.mk s) := by
  induction l with
  | nil => exact ⟨[], rfl⟩
  | cons g l ih =>
      obtain ⟨gs, rfl⟩ := ih fun g' hg' => h g' (List.mem_cons_of_mem _ hg')
      obtain ⟨t, v⟩ := g
      obtain rfl : s = t := (h ⟨t, v⟩ (List.mem_cons_self ..)).eq
      exact ⟨v :: gs, rfl⟩

/-- The coordinates of a shape, all of them. -/
theorem mapM_coordinate [Arithmetic T] (s : Shape) (hd : 1 ≤ s.degree) :
    (List.range s.nvar).mapM (coordinate s.nvar s.degree)
      = (.ok (((List.range s.nvar).map (s.coordinateVector T)).map (Expansion.mk s))
          : Result R (List (Expansion T))) := by
  rw [List.map_map]
  exact mapM_eq_ok fun v hv => coordinate_eq (List.mem_range.mp hv) hd

/-- A term is found under its tuple. -/
theorem coefficientOf?_of_mem_terms {e : Expansion T} {c : Tuple × T}
    (hc : c ∈ Shape.terms e.coeffs) : e.coefficientOf? c.1 = some c.2 := by
  rw [Shape.terms_eq_ofFn, List.mem_ofFn] at hc
  obtain ⟨i, rfl⟩ := hc
  have hrank := e.shape.rank?_eq_some_iff.mpr (GradedBasis.tuples_getElem?_of_lt i.isLt)
  rw [coefficientOf?, hrank, Option.bind_some, coefficient?, Vector.get_eq_getElem]
  exact Vector.getElem?_eq_getElem i.isLt

theorem totalDegree_of_coefficientOf? {e : Expansion T} {t : Tuple} {c : T}
    (h : e.coefficientOf? t = some c) : totalDegree t ≤ e.degree := by
  obtain ⟨i, hi, _⟩ := Option.bind_eq_some_iff.mp h
  exact (e.shape.mem_of_getElem? (e.shape.rank?_eq_some_iff.mp hi)).2

end Alike

variable {T R : Type} [RealLine R] [Scalar T R] [CosineTransform T]

/-- Multiplication by the factor for a variable, as a composition does it. -/
def timesFactor (strategy : Strategy) {s : Shape} (factors : List (s.Coefficients T)) (v : Nat)
    (b : s.Coefficients T) : s.Coefficients T :=
  Shape.multiply strategy b (factors.toArray.getD v s.zeros)

/-- The composition with at least one substitution, as it is done. -/
theorem compose_cons (strategy : Strategy) (e g : Expansion T) (gs : List (Expansion T))
    (hlen : (g :: gs).length = e.nvar) :
    e.compose strategy (g :: gs)
      = gs.mapM (coeffsIn g.shape) >>= fun rest =>
          ((e.shape.sum (timesFactor strategy (g.coeffs :: rest))
              (e.coeffs.toList.map g.shape.constant)).mapError .inadmissible).map
            (Expansion.mk g.shape) := by
  rw [compose.eq_def, if_pos hlen]
  refine congrArg (gs.mapM (coeffsIn g.shape) >>= ·) (funext fun rest => ?_)
  show (Except.mapError _ (e.shape.sum (timesFactor strategy (g.coeffs :: rest)) _) >>= _) = _
  cases e.shape.sum (timesFactor strategy (g.coeffs :: rest))
    (e.coeffs.toList.map g.shape.constant) <;> rfl

/-- Substitutions of one shape are taken as they are. -/
theorem compose_map (strategy : Strategy) (e : Expansion T) (s : Shape)
    (gs : List (s.Coefficients T)) (h : gs.length = e.nvar) :
    compose strategy e (gs.map (Expansion.mk s))
      = ((e.shape.sum (fun v b => Shape.multiply strategy b (gs.getD v s.zeros))
          (e.coeffs.toList.map s.constant)).mapError .inadmissible).map (Expansion.mk s) := by
  have hpos : 0 < gs.length := by
    rw [h]
    exact e.shape.admissible.nvar_pos
  match gs, hpos with
  | g :: gs, _ =>
    have htimes : timesFactor strategy (g :: gs)
        = fun v b => Shape.multiply strategy b ((g :: gs).getD v s.zeros) := by
      funext v b
      simp [timesFactor]
    rw [List.map_cons, compose_cons strategy e _ _ (by rw [← h, List.length_cons, List.length_map,
      List.length_cons]), mapM_coeffsIn, ← htimes]
    rfl

variable [ExactRing T]

attribute [local instance] ExactRing.toCommRing

/-- The composition in closed form, whatever is cut off on the way. -/
theorem compose_direct (e : Expansion T) (s : Shape) (gs : List (s.Coefficients T))
    (h : gs.length = e.nvar) :
    compose .direct e (gs.map (Expansion.mk s))
      = .ok ⟨s, ((Shape.terms e.coeffs).map fun c =>
          tensorMap (Shape.factorMap gs) 0 c.1 (s.constant c.2)).sum⟩ := by
  have hsum := Shape.sum_multiply e.shape.toGradedBasis gs e.coeffs.toList e.coeffs.length_toList
  rw [compose_map .direct e s gs h, hsum]
  rfl

/-- **Composition is substitution** whenever the degree of the substitutions has room
for every term: it succeeds in their shape, and at every point the result has the
value of the outer expansion at the values of the substitutions. The coordinates of
its own shape give an expansion back. -/
theorem compose_eq_substitution (hhalf : (Scalar.half : T) + Scalar.half = 1)
    (e : Expansion T) :
    (∀ (m d : Nat) (gs : List (Expansion T)), gs.length = e.nvar →
      (∀ g ∈ gs, g.nvar = m ∧ g.degree = d) →
      (∀ (t : Tuple) (c : T), e.coefficientOf? t = some c → c ≠ 0 →
        substitutedDegree t (gs.map actualDegree) ≤ d) →
      ∃ h : Expansion T, e.compose .direct gs = .ok h ∧ h.nvar = m ∧ h.degree = d ∧
        ∀ x : List T, x.length = m → h.value x = e.value (gs.map fun g => g.value x)) ∧
    (1 ≤ e.degree → ∃ coordinates : List (Expansion T),
      (List.range e.nvar).mapM (coordinate e.nvar e.degree)
        = (.ok coordinates : Result R (List (Expansion T))) ∧
      e.compose .direct coordinates = .ok e) := by
  refine ⟨fun m d gs hlen hgs hfits => ?_, fun hd => ?_⟩
  -- there is a substitution, and its shape is that of all
  · obtain ⟨g, hg⟩ : ∃ g, g ∈ gs := List.exists_mem_of_length_pos (by
      rw [hlen]
      exact e.shape.admissible.nvar_pos)
    obtain ⟨hm, hd⟩ := hgs g hg
    obtain ⟨vs, rfl⟩ := exists_coeffs g.shape gs fun g' hg' => by
      obtain ⟨hm', hd'⟩ := hgs g' hg'
      exact ⟨hm.trans hm'.symm, hd.trans hd'.symm⟩
    rw [List.length_map] at hlen
    refine ⟨_, compose_direct e g.shape vs hlen, hm, hd, fun x hx => ?_⟩
    rw [List.map_map]
    refine Shape.value_sum_tensorMap hhalf e.coeffs vs hlen (fun c hc hne => ?_) (hx.trans hm.symm)
    have hterm := hfits c.1 c.2 (coefficientOf?_of_mem_terms hc) hne
    rw [List.map_map] at hterm
    exact hterm.trans hd.symm.le
  · refine ⟨_, mapM_coordinate e.shape hd, ?_⟩
    rw [compose_direct e e.shape _ (by rw [List.length_map, List.length_range]; rfl)]
    rw [Shape.sum_coordinates hhalf hd]
    intro v hv
    rw [List.getD_eq_getElem?_getD, List.getElem?_map, List.getElem?_range hv]
    rfl

attribute [local instance] CosineTransform.bySums in
/-- A ramp for both variables of the plane, and the plane at its own coordinates. -/
theorem compose_plane :
    (∃ h : Expansion ℝ, (plane ℝ).compose .direct [ramp ℝ, ramp ℝ] = .ok h ∧
      h.nvar = 1 ∧ h.degree = 2 ∧ h.value [3] = 11) ∧
    ∃ coordinates : List (Expansion ℝ),
      (List.range 2).mapM (coordinate 2 1) = (.ok coordinates : Result ℝ (List (Expansion ℝ))) ∧
      (plane ℝ).compose .direct coordinates = .ok (plane ℝ) := by
  obtain ⟨hsubstitution, hcoordinates⟩ :=
    compose_eq_substitution RealAlgebra.half_add_half (plane ℝ)
  refine ⟨?_, hcoordinates (Nat.le_refl 1)⟩
  obtain ⟨h, hok, hnvar, hdegree, hvalue⟩ := hsubstitution 1 2 [ramp ℝ, ramp ℝ] rfl
    (by simp [nvar, degree, ramp, Shape.ofAdmissible, Shape.ofBasis, GradedBasis.ofAdmissible])
    fun t c hc _ => by
      have hone := totalDegree_of_coefficientOf? hc
      have hle : substitutedDegree t ([ramp ℝ, ramp ℝ].map actualDegree) ≤ totalDegree t * 1 :=
        substitutedDegree_le (by simp [actualDegree_ramp_le]) t
      have hplane : (plane ℝ).degree = 1 := rfl
      omega
  refine ⟨h, hok, hnvar, hdegree, ?_⟩
  rw [hvalue [3] rfl, List.map_cons, List.map_cons, List.map_nil, value_ramp, value_plane]
  show (1 + (1 + 1 + 3 + (1 + 1 + 3)) : ℝ) = 11
  norm_num

end Expansion

end TensorChebyshev
