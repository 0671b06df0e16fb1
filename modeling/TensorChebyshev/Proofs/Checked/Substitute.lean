import TensorChebyshev.Proofs.Checked.Arithmetic
import TensorChebyshev.Proofs.Expansion.Compose

/-!
# Evaluation and substitution that may stop

Sums of expansions are formed with the operators, which stop on different shapes.
Whatever is summed here begins as a constant of one shape and is multiplied by
expansions of this shape, so the operators never see two shapes.
-/

namespace TensorChebyshev.Raw

variable {T R : Type} [RealLine R] [Scalar T R] {s : Shape}

/-! ## Sums of scalars and of expansions -/

def scalarSums : Sums R T where
  zero := .ok 0
  add a b := .ok (a + b)
  sub a b := .ok (a - b)

/-- Sums of expansions by the operators, from the zero expansion of a shape. -/
def sums (target : Raw T) : Sums R (Raw T) where
  zero := .ok target.zerosLike
  add a b := (a.add b).operator
  sub a b := (a.sub b).operator

omit [RealLine R] in
theorem carries_scalars : (scalarSums : Sums R T).Carries id where
  zero := rfl
  add _ _ := rfl
  sub _ _ := rfl

omit [RealLine R] in
/-- **Expansions of one shape are summed without a stop.** -/
theorem carries_of (v : s.Coefficients T) :
    (sums (of v)).Carries (of : s.Coefficients T → Raw T) where
  zero := rfl
  add a b := by
    show Checked.operator ((of a).add (of b)) = _
    rw [add_of, Checked.operator_ok]
  sub a b := by
    show Checked.operator ((of a).sub (of b)) = _
    rw [sub_of, Checked.operator_ok]

/-! ## Evaluation -/

/-- Multiplication by a coordinate of a point. -/
def timesCoordinate (point : Array T) (v : Nat) (b : T) : Checked R T := do
  let x ← Checked.entry point v
  return b * x

def evaluateScalar (e : Raw T) (x : T) : Checked R T :=
  if e.nvar = 1 then scalarSums.clenshaw (fun b => .ok (b * x)) e.coeffs.toList
  else Checked.refuse (.coordinateCount e.nvar 1)

def evaluate (e : Raw T) (point : Array T) : Checked R T :=
  if point.size = e.nvar then
    scalarSums.sum e.shape.toGradedBasis (timesCoordinate point) e.coeffs.toList
  else Checked.refuse (.coordinateCount e.nvar point.size)

omit [RealLine R] in
theorem evaluateScalar_raw (e : Expansion T) (x : T) :
    e.raw.evaluateScalar x = Checked.ofResult (e.evaluateScalar x) := by
  rw [evaluateScalar, Expansion.evaluateScalar]
  by_cases h : e.nvar = 1
  · have htimes : ∀ b : T, (.ok (id b * x) : Checked R T) = .ok (id (b * x)) := fun _ => rfl
    have hsum := Sums.clenshaw_eq carries_scalars (fun b => .ok (b * x)) htimes e.coeffs.toList
    rw [List.map_id] at hsum
    rw [if_pos h]
    exact (if_pos h).trans hsum
  · rw [if_neg h]
    exact if_neg h

omit [RealLine R] in
theorem evaluate_raw (e : Expansion T) (point : Array T) :
    e.raw.evaluate point = Checked.ofResult (e.evaluate point) := by
  rw [evaluate, Expansion.evaluate]
  by_cases h : point.size = e.nvar
  · have htimes : ∀ v < e.shape.nvar, ∀ b : T,
        timesCoordinate point v (id b) = (.ok (id (b * point.getD v 0)) : Checked R T) := by
      intro v hv b
      have hv' : v < point.size := Nat.lt_of_lt_of_eq hv h.symm
      rw [timesCoordinate, Checked.entry, dif_pos hv', Checked.ok_bind]
      simp [hv']
    have hsum := Sums.sum_eq carries_scalars e.shape.toGradedBasis htimes e.coeffs.toList
    rw [List.map_id] at hsum
    rw [if_pos h]
    refine ((if_pos h).trans hsum).trans ?_
    cases e.shape.sum (fun v b => b * point.getD v 0) e.coeffs.toList <;> rfl
  · rw [if_neg h]
    exact if_neg h

/-! ## Composition -/

section Compose

variable [CosineTransform T]

/-- Multiplication by the substitution for a variable. -/
def timesSubstitution (strategy : Strategy) (substitutions : Array (Raw T)) (v : Nat) (b : Raw T) :
    Checked R (Raw T) := do
  let factor ← Checked.entry substitutions v
  b.product strategy factor

def compose (strategy : Strategy) (e : Raw T) (substitutions : Array (Raw T)) :
    Checked R (Raw T) :=
  if substitutions.size = e.nvar then do
    let target ← Checked.entry substitutions 0
    let others ← Checked.rest substitutions
    let _ ← others.mapM fun other => checkShape target other
    let constants ← e.coeffs.toList.mapM fun c => target.constantLike c
    (sums target).sum e.shape.toGradedBasis (timesSubstitution strategy substitutions) constants
  else Checked.refuse (.substitutionCount e.nvar substitutions.size)

omit [RealLine R] [Scalar T R] [CosineTransform T] in
/-- The comparison of shapes goes through a list as reading the coefficients does: to
its end, and then all of them have the one shape, or to the first other shape. -/
theorem mapM_checkShape (v : s.Coefficients T) (gs : List (Expansion T)) :
    (∃ cs : List (s.Coefficients T), gs.map Expansion.raw = cs.map of ∧
      gs.mapM (Expansion.coeffsIn s) = (.ok cs : Result R _) ∧
      (gs.map Expansion.raw).mapM (checkShape (of v)) = (.ok (cs.map fun _ => ()) : Checked R _)) ∨
    ∃ cause : Error R, gs.mapM (Expansion.coeffsIn s) = .error cause ∧
      (gs.map Expansion.raw).mapM (checkShape (of v)) = Checked.refuse cause := by
  induction gs with
  | nil => exact .inl ⟨[], rfl, rfl, rfl⟩
  | cons g gs ih =>
      obtain ⟨t, w⟩ := g
      by_cases hst : s.Alike t
      · obtain rfl := hst.eq
        have hcheck : checkShape (of v) (Expansion.raw ⟨s, w⟩) = (.ok () : Checked R Unit) :=
          checkShape_of v w
        rw [List.map_cons, List.mapM_cons, List.mapM_cons, hcheck, Expansion.coeffsIn_self]
        rcases ih with ⟨cs, hraw, hcoeffs, hchecks⟩ | ⟨cause, hcoeffs, hchecks⟩
        · refine .inl ⟨w :: cs, ?_, ?_, ?_⟩
          · rw [hraw]
            rfl
          · rw [hcoeffs]
            rfl
          · rw [hchecks]
            rfl
        · refine .inr ⟨cause, ?_, ?_⟩
          · rw [hcoeffs]
            rfl
          · rw [hchecks]
            rfl
      · refine .inr ⟨.shapesDiffer s.nvar s.degree t.nvar t.degree, ?_, ?_⟩
        · rw [List.mapM_cons, Expansion.coeffsIn, dif_neg hst]
          rfl
        · have hcheck : checkShape (of v) (Expansion.raw ⟨t, w⟩)
              = (Checked.refuse (.shapesDiffer s.nvar s.degree t.nvar t.degree) : Checked R Unit) :=
            if_neg hst
          rw [List.map_cons, List.mapM_cons, hcheck]
          rfl

omit [RealLine R] [CosineTransform T] in
theorem mapM_constantLike (v : s.Coefficients T) (cs : List T) :
    cs.mapM (fun c => (of v).constantLike c)
      = (.ok ((cs.map s.constant).map of) : Checked R (List (Raw T))) := by
  rw [List.map_map]
  exact Expansion.mapM_eq_ok fun c _ => constantLike_of v c

theorem timesSubstitution_of (strategy : Strategy) (factors : List (s.Coefficients T)) {v : Nat}
    (hv : v < factors.length) (b : s.Coefficients T) :
    timesSubstitution strategy (factors.map of).toArray v (of b)
      = .ok (of (Expansion.timesFactor strategy factors v b)) := by
  have hget : (factors.map of).toArray[v]? = some (of (factors.toArray.getD v s.zeros)) := by
    simp [hv]
  rw [timesSubstitution, Checked.entry_of_getElem? hget, Checked.ok_bind]
  exact product_of strategy b _

/-- **A composition does not stop**, and its result has the shape of the substitutions. -/
theorem compose_raw (strategy : Strategy) (e : Expansion T) (gs : List (Expansion T)) :
    e.raw.compose strategy (gs.map Expansion.raw).toArray = ofResult (e.compose strategy gs) := by
  have hsize : (gs.map Expansion.raw).toArray.size = gs.length := by simp
  rw [compose, hsize]
  by_cases hlen : gs.length = e.nvar
  case neg =>
    rw [Expansion.compose.eq_def, if_neg hlen]
    exact if_neg hlen
  cases gs with
  | nil => exact absurd hlen (Nat.ne_of_lt e.shape.admissible.nvar_pos)
  | cons g gs =>
      have htarget : Checked.entry (List.map Expansion.raw (g :: gs)).toArray 0
          = (.ok (of g.coeffs) : Checked R (Raw T)) := Checked.entry_of_getElem? rfl
      have hothers : Checked.rest (List.map Expansion.raw (g :: gs)).toArray
          = (.ok (gs.map Expansion.raw) : Checked R (List (Raw T))) := if_pos (by simp)
      rw [Expansion.compose_cons strategy e g gs hlen,
        if_pos (show (g :: gs).length = e.raw.nvar from hlen), htarget, Checked.ok_bind, hothers,
        Checked.ok_bind]
      rcases mapM_checkShape (R := R) g.coeffs gs with
        ⟨cs, hraw, hcoeffs, hchecks⟩ | ⟨cause, hcoeffs, hchecks⟩
      · let factors := g.coeffs :: cs
        have hfactors : (List.map Expansion.raw (g :: gs)).toArray = (factors.map of).toArray := by
          rw [List.map_cons, hraw]
          rfl
        have hlength : factors.length = e.nvar := by
          have hraws := congrArg List.length hraw
          rw [List.length_map, List.length_map] at hraws
          rw [← hlen, List.length_cons, List.length_cons, hraws]
        have htimes : ∀ v < e.shape.nvar, ∀ b : g.shape.Coefficients T,
            timesSubstitution strategy (factors.map of).toArray v (of b)
              = .ok (of (Expansion.timesFactor strategy factors v b)) := fun v hv =>
          timesSubstitution_of strategy factors (Nat.lt_of_lt_of_eq hv hlength.symm)
        have hsum := Sums.sum_eq (carries_of g.coeffs) e.shape.toGradedBasis htimes
          (e.coeffs.toList.map g.shape.constant)
        rw [hcoeffs, hchecks, Checked.ok_bind, mapM_constantLike, Checked.ok_bind, hfactors]
        refine hsum.trans ?_
        show _ = ofResult ((Except.mapError _ (e.shape.sum (Expansion.timesFactor strategy factors)
          (e.coeffs.toList.map g.shape.constant))).map _)
        cases e.shape.sum (Expansion.timesFactor strategy factors)
          (e.coeffs.toList.map g.shape.constant) <;> rfl
      · rw [hcoeffs, hchecks]
        rfl

end Compose

end TensorChebyshev.Raw
