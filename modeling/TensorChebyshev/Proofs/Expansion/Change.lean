import Mathlib
import TensorChebyshev.Proofs.Expansion.Compose
import TensorChebyshev.Proofs.Expansion.ComposeSeries
import TensorChebyshev.Proofs.Cosine.Change
import TensorChebyshev.Proofs.Product.Change
import TensorChebyshev.Proofs.Series.Fit

/-!
# The algebra under a change of scalars

What the library computes with changed scalars is the change of what it computes
with the ones before. This is what makes a scalar trustworthy that carries more
than a number, such as a derivative: its values are the values that plain
numbers would have given.
-/

namespace TensorChebyshev

variable {T T' R : Type}

/-! ## Fitted series -/

section Fit

variable [RealLine R] [Scalar T R] [Scalar T' R] {φ : T → T'}

theorem map_samplePoints (h : ScalarMap φ) (a b : T) (degree : Nat) :
    (samplePoints a b degree).map φ = samplePoints (φ a) (φ b) degree := by
  rw [samplePoints, samplePoints, Vector.map_map]
  refine Vector.map_congr_left fun x _ => ?_
  show φ _ = _
  simp only [h.map_add, h.map_sub, h.map_mul, h.map_half, h.map_ofReal]

attribute [local instance] CosineTransform.bySums in
theorem fit_change (h : ScalarMap φ) {f : T → T} {f' : T' → T'} (hf : ∀ t, φ (f t) = f' (φ t))
    {a b : T} {degree : Nat} (hwidth : intervalWidth a b = .ok (b - a))
    (hwidth' : intervalWidth (φ a) (φ b) = .ok (φ b - φ a))
    (hdiv : 0 < degree → KeepsQuotient φ 1 (Scalar.ofNat degree)) :
    fit f' (φ a) (φ b) degree = (fit f a b degree).map (List.map φ) := by
  rw [fit_eq f' degree hwidth', fit_eq f degree hwidth]
  by_cases hhigh : maxDegree < degree
  · rw [if_pos hhigh, if_pos hhigh]
    rfl
  rw [if_neg hhigh, if_neg hhigh]
  refine congrArg Except.ok ?_
  by_cases hzero : degree = 0
  · rw [if_pos hzero, if_pos hzero, List.map_singleton, hf, h.map_mul, h.map_half, h.map_add]
  · have hweight : 0 < degree →
        φ (1 / Scalar.ofNat degree) = 1 / Scalar.ofNat degree := fun hpos => by
      rw [hdiv hpos, h.map_one, h.map_ofNat]
    have hsamples : ((samplePoints a b degree).map f).map φ
        = (samplePoints (φ a) (φ b) degree).map f' := by
      rw [← map_samplePoints h, Vector.map_map, Vector.map_map]
      exact Vector.map_congr_left fun t _ => hf t
    rw [if_neg hzero, if_neg hzero, ← Vector.toList_map, map_coefficientsOfValues h _ hweight,
      hsamples]

end Fit

/-! ## Expansions -/

namespace Expansion

/-- The same shape with changed coefficients. -/
def change (φ : T → T') (e : Expansion T) : Expansion T' := ⟨e.shape, e.coeffs.map φ⟩

section Shapes

variable {φ : T → T'}

theorem coeffsIn_change (s : Shape) (e : Expansion T) :
    coeffsIn s (e.change φ) = ((coeffsIn s e).map (Vector.map φ) : Result R _) := by
  rw [coeffsIn, coeffsIn]
  show (if h : s.Alike e.shape then _ else _) = _
  by_cases h : s.Alike e.shape
  · rw [dif_pos h, dif_pos h]
    refine congrArg Except.ok (Vector.ext fun i hi => ?_)
    show ((e.coeffs.map φ).cast h.size_eq.symm)[i]
      = ((e.coeffs.cast h.size_eq.symm : s.Coefficients T).map φ)[i]
    rw [Vector.getElem_cast, Vector.getElem_map, Vector.getElem_map, Vector.getElem_cast]
  · rw [dif_neg h, dif_neg h]
    rfl

theorem mapM_change {A A' B B' E : Type} {f : A → Except E B} {f' : A' → Except E B'} {g : A → A'}
    {k : B → B'} (h : ∀ x, f' (g x) = (f x).map k) (l : List A) :
    (l.map g).mapM f' = (l.mapM f).map (List.map k) := by
  induction l with
  | nil => rfl
  | cons x l ih =>
      rw [List.map_cons, List.mapM_cons, List.mapM_cons, h, ih]
      cases f x with
      | error cause => rfl
      | ok y => cases l.mapM f <;> rfl

end Shapes

variable [RealLine R] [Scalar T R] [Scalar T' R] {φ : T → T'}

/-! ## Arithmetic -/

section Arithmetic

omit [RealLine R]

theorem add_change (h : ScalarMap φ) (a b : Expansion T) :
    (a.change φ).add (b.change φ) = ((a.add b).map (change φ) : Result R _) := by
  rw [add, add]
  show coeffsIn a.shape (b.change φ) >>= _ = _
  rw [coeffsIn_change]
  cases coeffsIn a.shape b with
  | error cause => rfl
  | ok c =>
      exact congrArg (fun v => Except.ok (Expansion.mk a.shape v))
        ((h.sumMap_vector _).map_add a.coeffs c).symm

theorem sub_change (h : ScalarMap φ) (a b : Expansion T) :
    (a.change φ).sub (b.change φ) = ((a.sub b).map (change φ) : Result R _) := by
  rw [sub, sub]
  show coeffsIn a.shape (b.change φ) >>= _ = _
  rw [coeffsIn_change]
  cases coeffsIn a.shape b with
  | error cause => rfl
  | ok c =>
      exact congrArg (fun v => Except.ok (Expansion.mk a.shape v))
        ((h.sumMap_vector _).map_sub a.coeffs c).symm

theorem neg_change (h : ScalarMap φ) (e : Expansion T) : (e.change φ).neg = e.neg.change φ := by
  refine congrArg (Expansion.mk e.shape) (Vector.ext fun i hi => ?_)
  show ((e.coeffs.map φ).map (- ·))[i] = ((e.coeffs.map (- ·)).map φ)[i]
  simp [h.map_neg]

theorem scale_change (h : ScalarMap φ) (e : Expansion T) (c : T) :
    (e.change φ).scale (φ c) = (e.scale c).change φ :=
  congrArg (Expansion.mk e.shape) (Shape.map_scale h e.coeffs c).symm

theorem subScalar_change (h : ScalarMap φ) (e : Expansion T) (c : T) :
    (e.change φ).subScalar (φ c) = (e.subScalar c).change φ :=
  congrArg (Expansion.mk e.shape) (Shape.map_subConstant h e.coeffs c).symm

end Arithmetic

/-! ## Values -/

omit [RealLine R] in
theorem evaluate_change (h : ScalarMap φ) (e : Expansion T) (point : Array T) :
    (e.change φ).evaluate (point.map φ) = ((e.evaluate point).map φ : Result R T') := by
  have htimes : ∀ (v : Nat) (b : T), φ (b * point.getD v 0) = φ b * (point.map φ).getD v 0 := by
    intro v b
    rw [h.map_mul]
    congr 1
    by_cases hv : v < point.size
    · simp [hv]
    · simp [hv, h.map_zero]
  have hsum : (e.shape.sum (fun v b => b * point.getD v 0) e.coeffs.toList).map φ
      = e.shape.sum (fun v b => b * (point.map φ).getD v 0) (e.coeffs.toList.map φ) :=
    GradedBasis.sum_map h.sumMap htimes _ _
  rw [evaluate, evaluate]
  show (if (point.map φ).size = e.nvar then
      (e.shape.sum (fun v b => b * (point.map φ).getD v 0) (e.coeffs.map φ).toList).mapError
        Error.inadmissible
    else .error (.coordinateCount e.nvar (point.map φ).size) : Result R T') = _
  rw [Vector.toList_map, ← hsum, Array.size_map]
  by_cases hsize : point.size = e.nvar
  · rw [if_pos hsize, if_pos hsize]
    cases e.shape.sum (fun v b => b * point.getD v 0) e.coeffs.toList <;> rfl
  · rw [if_neg hsize, if_neg hsize]
    rfl

/-! ## Products, powers and substitutions -/

section Products

variable [CosineTransform T] [CosineTransform T'] [ExactRing T] [ExactRing T']

theorem multiply_change (h : ScalarMap φ) (a b : Expansion T) :
    (a.change φ).multiply .direct (b.change φ)
      = ((a.multiply .direct b).map (change φ) : Result R _) := by
  rw [multiply, multiply]
  show coeffsIn a.shape (b.change φ) >>= _ = _
  rw [coeffsIn_change]
  cases coeffsIn a.shape b with
  | error cause => rfl
  | ok c =>
      exact congrArg (fun v => Except.ok (Expansion.mk a.shape v))
        (Shape.map_multiply h a.coeffs c).symm

theorem power_change (h : ScalarMap φ) (e : Expansion T) (n : Nat) :
    (e.change φ).power n = (e.power n).change φ :=
  congrArg (Expansion.mk e.shape) (Shape.map_power h e.coeffs n).symm

theorem map_timesFactor (h : ScalarMap φ) {s : Shape} (factors : List (s.Coefficients T))
    (v : Nat) (b : s.Coefficients T) :
    (timesFactor .direct factors v b).map φ
      = timesFactor .direct (factors.map (Vector.map φ)) v (b.map φ) := by
  rw [timesFactor, timesFactor, Shape.map_multiply h]
  congr 1
  by_cases hv : v < factors.length
  · simp [hv]
  · simp [hv, Shape.zeros, h.map_zero]

theorem compose_change (h : ScalarMap φ) (e : Expansion T) (gs : List (Expansion T)) :
    (e.change φ).compose .direct (gs.map (change φ))
      = ((e.compose .direct gs).map (change φ) : Result R _) := by
  by_cases hlen : gs.length = e.nvar
  case neg =>
    rw [compose.eq_def, compose.eq_def .direct e, if_neg hlen, List.length_map]
    exact if_neg hlen
  cases gs with
  | nil =>
      rw [compose.eq_def, compose.eq_def .direct e, if_pos hlen]
      exact if_pos hlen
  | cons g gs =>
      have hlen' : (g.change φ :: gs.map (change φ)).length = e.nvar := by
        rw [← hlen, List.length_cons, List.length_map, List.length_cons]
      rw [List.map_cons, compose_cons _ _ _ _ hlen', compose_cons _ _ _ _ hlen,
        mapM_change (coeffsIn_change _)]
      show (gs.mapM (coeffsIn g.shape)).map _ >>= _ = _
      cases gs.mapM (coeffsIn g.shape) with
      | error cause => rfl
      | ok rest =>
          -- the sums correspond, and with them the refusals of a basis on the way
          have hsum := GradedBasis.sum_map (h.sumMap_vector g.shape.size)
            (map_timesFactor h (g.coeffs :: rest)) e.shape.toGradedBasis
            (e.coeffs.toList.map g.shape.constant)
          have hconstants : (e.coeffs.toList.map g.shape.constant).map (Vector.map φ)
              = (e.coeffs.map φ).toList.map g.shape.constant := by
            rw [Vector.toList_map, List.map_map, List.map_map]
            exact List.map_congr_left fun c _ => Shape.map_constant h c
          rw [hconstants] at hsum
          show (Except.mapError _ (GradedBasis.sum _ _ _)).map _
            = ((Except.mapError _ (GradedBasis.sum _ _ _)).map _ : Result R _).map _
          exact (congrArg (fun r => (Except.mapError Error.inadmissible r).map _) hsum.symm).trans
            (by cases e.shape.sum _ (e.coeffs.toList.map g.shape.constant) <;> rfl)

/-! ## Functions of an expansion -/

omit [CosineTransform T] [CosineTransform T'] [ExactRing T] [ExactRing T'] in
theorem toUnitInterval_change (h : ScalarMap φ) (e : Expansion T) {a b width : T}
    (hscale : KeepsQuotient φ Scalar.two width) (hshift : KeepsQuotient φ (a + b) width) :
    (e.change φ).toUnitInterval (φ a) (φ b) (φ width)
      = (e.toUnitInterval a b width).change φ := by
  rw [KeepsQuotient, h.map_two] at hscale
  rw [KeepsQuotient, h.map_add] at hshift
  rw [toUnitInterval, toUnitInterval, ← subScalar_change h, ← scale_change h, hscale, hshift]

theorem map_chebyshevFrom (h : ScalarMap φ) {s : Shape} (twice before last : s.Coefficients T)
    (count : Nat) :
    (chebyshevFrom twice count before last).map (Vector.map φ)
      = chebyshevFrom (twice.map φ) count (before.map φ) (last.map φ) := by
  induction count generalizing before last with
  | zero => rfl
  | succ count ih =>
      have hnext : (Shape.multiply .standard twice last - before).map φ
          = Shape.multiply .standard (twice.map φ) (last.map φ) - before.map φ := by
        rw [(h.sumMap_vector _).map_sub]
        exact congrArg (· - before.map φ) (Shape.map_multiply h twice last)
      rw [chebyshevFrom, chebyshevFrom, List.map_cons, ih, hnext]

theorem chebyshevBasis_change (h : ScalarMap φ) (e : Expansion T) {a b width : T}
    (hwidth : intervalWidth a b = .ok width) (hwidth' : intervalWidth (φ a) (φ b) = .ok (φ width))
    (hscale : KeepsQuotient φ Scalar.two width) (hshift : KeepsQuotient φ (a + b) width) :
    (e.change φ).chebyshevBasis (φ a) (φ b) = (e.chebyshevBasis a b).map (List.map (change φ)) := by
  let s := e.toUnitInterval a b width
  have hone : (s.shape.constant (1 : T)).map φ = s.shape.constant 1 := by
    rw [Shape.map_constant h, h.map_one]
  have htwice : (Shape.scale s.coeffs Scalar.two).map φ
      = Shape.scale (s.coeffs.map φ) Scalar.two := by
    rw [Shape.map_scale h, h.map_two]
  have hhigher : (chebyshevFrom (Shape.scale s.coeffs Scalar.two) (e.degree - 1)
        (s.shape.constant 1) s.coeffs).map (Vector.map φ)
      = chebyshevFrom (Shape.scale (s.coeffs.map φ) Scalar.two) (e.degree - 1)
        (s.shape.constant 1) (s.coeffs.map φ) := by
    rw [map_chebyshevFrom h, htwice, hone]
  have hlist : (s.shape.constant 1 :: (if 1 ≤ e.degree then s.coeffs
        :: chebyshevFrom (Shape.scale s.coeffs Scalar.two) (e.degree - 1) (s.shape.constant 1)
          s.coeffs else [])).map (Vector.map φ)
      = s.shape.constant 1 :: (if 1 ≤ e.degree then s.coeffs.map φ
        :: chebyshevFrom (Shape.scale (s.coeffs.map φ) Scalar.two) (e.degree - 1)
          (s.shape.constant 1) (s.coeffs.map φ) else []) := by
    rw [List.map_cons, hone, ← hhigher]
    by_cases hdegree : 1 ≤ e.degree
    · rw [if_pos hdegree, if_pos hdegree, List.map_cons]
    · rw [if_neg hdegree, if_neg hdegree, List.map_nil]
  rw [chebyshevBasis, chebyshevBasis, hwidth, hwidth']
  show Except.ok _ = Except.ok _
  rw [toUnitInterval_change h e hscale hshift]
  refine congrArg Except.ok ?_
  rw [List.map_map]
  refine (congrArg (List.map (Expansion.mk s.shape)) hlist.symm).trans ?_
  rw [List.map_map]
  rfl

theorem composeSeries_change (h : ScalarMap φ) (e : Expansion T) (cs : List T) {a b width : T}
    (hwidth : intervalWidth a b = .ok width) (hwidth' : intervalWidth (φ a) (φ b) = .ok (φ width))
    (hscale : KeepsQuotient φ Scalar.two width) (hshift : KeepsQuotient φ (a + b) width) :
    (e.change φ).composeSeries (cs.map φ) (φ a) (φ b)
      = (e.composeSeries cs a b).map (change φ) := by
  let s := e.toUnitInterval a b width
  have hsum : (clenshaw (Shape.multiply .standard · s.coeffs) (cs.map s.shape.constant)).map φ
      = clenshaw (Shape.multiply .standard · (s.coeffs.map φ))
          ((cs.map s.shape.constant).map (Vector.map φ)) :=
    clenshaw_map (h.sumMap_vector _) (fun v => Shape.map_multiply h v s.coeffs) _
  have hconstants : (cs.map s.shape.constant).map (Vector.map φ)
      = (cs.map φ).map s.shape.constant := by
    rw [List.map_map, List.map_map]
    exact List.map_congr_left fun c _ => Shape.map_constant h c
  rw [composeSeries, composeSeries, hwidth, hwidth']
  show Except.ok _ = Except.ok _
  rw [toUnitInterval_change h e hscale hshift]
  rw [hconstants] at hsum
  exact congrArg (fun v => Except.ok (Expansion.mk s.shape v)) hsum.symm

/-! ## All operations -/

/-- The operations of the library go through a map of scalars: what they answer for the
changed operands is the change of what they answered. Where a quotient of scalars decides, the
map has to keep it, and a width has to pass in both runs. -/
structure ChangesWith (φ : T → T') : Prop where
  add : ∀ a b : Expansion T, (a.change φ).add (b.change φ) = ((a.add b).map (change φ) : Result R _)
  sub : ∀ a b : Expansion T, (a.change φ).sub (b.change φ) = ((a.sub b).map (change φ) : Result R _)
  neg : ∀ e : Expansion T, (e.change φ).neg = e.neg.change φ
  scale : ∀ (e : Expansion T) (c : T), (e.change φ).scale (φ c) = (e.scale c).change φ
  multiply : ∀ a b : Expansion T,
    (a.change φ).multiply .direct (b.change φ) = (a.multiply .direct b).map (change φ)
  power : ∀ (e : Expansion T) (n : Nat), (e.change φ).power n = (e.power n).change φ
  evaluate : ∀ (e : Expansion T) (point : Array T),
    (e.change φ).evaluate (point.map φ) = ((e.evaluate point).map φ : Result R T')
  compose : ∀ (e : Expansion T) (gs : List (Expansion T)),
    (e.change φ).compose .direct (gs.map (change φ)) = (e.compose .direct gs).map (change φ)
  basis : ∀ (e : Expansion T) (a b : T) (l : List (Expansion T)) (l' : List (Expansion T')),
    KeepsQuotient φ Scalar.two (b - a) → KeepsQuotient φ (a + b) (b - a) →
    e.chebyshevBasis a b = .ok l → (e.change φ).chebyshevBasis (φ a) (φ b) = .ok l' →
    l' = l.map (change φ)
  series : ∀ (e : Expansion T) (cs : List T) (a b : T) (g : Expansion T) (g' : Expansion T'),
    KeepsQuotient φ Scalar.two (b - a) → KeepsQuotient φ (a + b) (b - a) →
    e.composeSeries cs a b = .ok g → (e.change φ).composeSeries (cs.map φ) (φ a) (φ b) = .ok g' →
    g' = g.change φ
  fit : ∀ (f : T → T) (f' : T' → T') (a b : T) (degree : Nat) (cs : List T) (cs' : List T'),
    (∀ t, φ (f t) = f' (φ t)) → (0 < degree → KeepsQuotient φ 1 (Scalar.ofNat degree)) →
    @TensorChebyshev.fit T R _ _ CosineTransform.bySums f a b degree = .ok cs →
    @TensorChebyshev.fit T' R _ _ CosineTransform.bySums f' (φ a) (φ b) degree = .ok cs' →
    cs' = cs.map φ

/-- **The algebra commutes with every change of scalars**, also with one that sends to zero what
is not zero, although the two runs then take different shortcuts. -/
theorem changesWith_scalarMap (h : ScalarMap φ) : ChangesWith φ where
  add := add_change h
  sub := sub_change h
  neg := neg_change h
  scale := scale_change h
  multiply := multiply_change h
  power := power_change h
  evaluate := evaluate_change h
  compose := compose_change h
  basis e a b l l' hscale hshift hl hl' := by
    have hwidth := intervalWidth_of_bind hl'
    rw [← h.map_sub] at hwidth
    have hchange := chebyshevBasis_change h e (intervalWidth_of_bind hl) hwidth hscale hshift
    rw [hl, hl'] at hchange
    exact Except.ok.inj hchange
  series e cs a b g g' hscale hshift hg hg' := by
    have hwidth := intervalWidth_of_bind hg'
    rw [← h.map_sub] at hwidth
    have hchange := composeSeries_change h e cs (intervalWidth_of_bind hg) hwidth hscale hshift
    rw [hg, hg'] at hchange
    exact Except.ok.inj hchange
  fit f f' a b degree cs cs' hf hdiv hcs hcs' := by
    have hchange := fit_change h hf (intervalWidth_of_bind hcs) (intervalWidth_of_bind hcs') hdiv
    rw [hcs, hcs'] at hchange
    exact Except.ok.inj hchange

end Products

attribute [local instance] CosineTransform.bySums in
/-- With infinitesimal coefficients the dual run multiplies pair by pair, where its values are a
constant that only scales. -/
theorem changesWith_value :
    let e := (ramp (Dual ℝ)).scale ⟨0, 1⟩
    e.isConstant = false ∧ (e.change Dual.re).isConstant = true ∧
      (e.change Dual.re).multiply .direct (e.change Dual.re)
        = (e.multiply .direct e).map (change Dual.re) ∧
      ∃ g g', e.composeSeries [1, ⟨0, 1⟩] 0 ⟨2, 1⟩ = .ok g ∧
        (e.change Dual.re).composeSeries [1, 0] 0 2 = .ok g' ∧ g' = g.change Dual.re := by
  intro e
  have hchanges := changesWith_scalarMap (ScalarMap.re : ScalarMap (Dual.re : Dual ℝ → ℝ))
  have hlist : e.coeffs.toList = [(1 + 1) * ⟨0, 1⟩, 1 * ⟨0, 1⟩, 0 * ⟨0, 1⟩] := by
    show ((ramp (Dual ℝ)).coeffs.map (· * ⟨0, 1⟩)).toList = _
    rw [Vector.toList_map]
    rfl
  refine ⟨?_, ?_, hchanges.multiply e e, ?_⟩
  · have hone : (1 : Dual ℝ) * ⟨0, 1⟩ ≠ 0 := fun h => by
      have heps : (1 : ℝ) * 1 + 0 * 0 = 0 := congrArg Dual.eps h
      norm_num at heps
    rw [isConstant, Shape.isConstant, hlist, List.tail_cons, List.all_cons, Bool.and_eq_false_iff]
    exact .inl (eq_false_of_ne_true fun h => hone ((ExactRing.isZero_iff _).mp h))
  · have hvalues : (e.change Dual.re).coeffs.toList = [(1 + 1) * 0, 1 * 0, 0 * 0] := by
      rw [change, Vector.toList_map, hlist]
      rfl
    rw [isConstant, Shape.isConstant, hvalues, List.tail_cons, List.all_eq_true]
    intro x hx
    rw [ExactRing.isZero_iff]
    simpa using hx
  · have hwidth : intervalWidth (0 : Dual ℝ) ⟨2, 1⟩ = .ok (⟨2, 1⟩ - 0) := by
      refine intervalWidth_eq_ok_iff.mpr ⟨rfl, eq_false_of_ne_true fun h => ?_, rfl⟩
      have hzero : |(2 : ℝ) - 0| + |(1 : ℝ) - 0| = 0 := (ExactRing.isZero_iff _).mp h
      norm_num at hzero
    have hwidth' : intervalWidth (0 : ℝ) 2 = .ok (2 - 0) := by
      refine intervalWidth_eq_ok_iff.mpr ⟨rfl, eq_false_of_ne_true fun h => ?_, rfl⟩
      have hzero : |(2 : ℝ) - 0| = 0 := (ExactRing.isZero_iff _).mp h
      norm_num at hzero
    have hg : ∃ g, e.composeSeries [1, ⟨0, 1⟩] 0 ⟨2, 1⟩ = .ok g := by
      rw [composeSeries, hwidth]
      exact ⟨_, rfl⟩
    have hg' : ∃ g', (e.change Dual.re).composeSeries [1, 0] 0 2 = .ok g' := by
      rw [composeSeries, hwidth']
      exact ⟨_, rfl⟩
    obtain ⟨g, hg⟩ := hg
    obtain ⟨g', hg'⟩ := hg'
    exact ⟨g, g', hg, hg', hchanges.series e _ _ _ g g' (ScalarMap.keepsQuotient_re _ _)
      (ScalarMap.keepsQuotient_re _ _) hg hg'⟩

end Expansion

end TensorChebyshev
