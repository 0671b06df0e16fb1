import TensorChebyshev.Proofs.Checked.Basic
import TensorChebyshev.Proofs.Series.Fit

/-!
# Interpolation that may stop

Between values at the nodes and coefficients only the two ends of an array are
looked up. A transform keeps the length of its data, and shorter arrays than two
entries are left alone, so the ends are there.
-/

namespace TensorChebyshev.Raw

variable {T R : Type}

/-- A map of vectors on an array, whose length is that of its vector. -/
def onArray (f : {n : Nat} → Vector T n → Vector T n) (xs : Array T) : Array T :=
  (f xs.toVector).toArray

theorem onArray_toArray (f : {n : Nat} → Vector T n → Vector T n) {n : Nat} (v : Vector T n) :
    onArray f v.toArray = (f v).toArray := by
  obtain ⟨xs, rfl⟩ := v
  rfl

section Ends

variable [Mul T]

/-- The first and the last entry times `c`. -/
def scaleEnds (c : T) (xs : Array T) : Checked R (Array T) := do
  let first ← Checked.entry xs 0
  let xs ← Checked.replace xs 0 (first * c)
  let last ← Checked.entry xs (xs.size - 1)
  Checked.replace xs (xs.size - 1) (last * c)

theorem scaleEnds_toArray (c : T) {m : Nat} (v : Vector T (m + 2)) :
    (scaleEnds c v.toArray : Checked R (Array T))
      = .ok (TensorChebyshev.scaleEnds c v).toArray := by
  have hfirst : 0 < m + 2 := Nat.succ_pos _
  have hlast : m + 1 < m + 2 := Nat.lt_succ_self _
  let w := v.set 0 (v[0] * c)
  have hsize : w.toArray.size - 1 = m + 1 := by rw [w.size_toArray]; rfl
  have hends : w.set (m + 1) (w[m + 1] * c) = TensorChebyshev.scaleEnds c v := by
    refine Vector.ext fun k hk => ?_
    rw [TensorChebyshev.scaleEnds, Vector.getElem_mapIdx]
    by_cases h0 : k = 0
    · subst h0
      simp [w]
    by_cases hm : k = m + 1
    · subst hm
      simp [w]
    · rw [Vector.getElem_set_ne _ _ (Ne.symm hm), Vector.getElem_set_ne _ _ (Ne.symm h0),
        if_neg (by omega)]
  rw [scaleEnds, Checked.entry_toArray v hfirst, Checked.ok_bind, Checked.replace_toArray v hfirst,
    Checked.ok_bind]
  show (Checked.entry w.toArray (w.toArray.size - 1) >>= fun last =>
    Checked.replace w.toArray (w.toArray.size - 1) (last * c)) = _
  rw [hsize, Checked.entry_toArray w hlast, Checked.ok_bind, Checked.replace_toArray w hlast, hends]

end Ends

variable [RealLine R] [Scalar T R] [CosineTransform T]

def coefficientsOfValues (values : Array T) : Checked R (Array T) :=
  if values.size < 2 then .ok values
  else
    let weight : T := 1 / Scalar.ofNat (values.size - 1)
    scaleEnds Scalar.half ((onArray CosineTransform.dct values).map (· * weight))

def valuesOfCoefficients (cs : Array T) : Checked R (Array T) :=
  if cs.size < 2 then .ok cs
  else do
    let doubled ← scaleEnds Scalar.two cs
    return (onArray CosineTransform.dct doubled).map (· * Scalar.half)

theorem coefficientsOfValues_toArray {n : Nat} (v : Vector T n) :
    coefficientsOfValues v.toArray = .ok (TensorChebyshev.coefficientsOfValues v).toArray := by
  rw [coefficientsOfValues, v.size_toArray]
  match n with
  | 0 => rfl
  | 1 => rfl
  | m + 2 =>
      let weight : T := 1 / Scalar.ofNat (m + 1)
      rw [if_neg (by omega), onArray_toArray]
      show scaleEnds Scalar.half ((CosineTransform.dct v).toArray.map (· * weight)) = _
      rw [← Vector.toArray_map]
      exact scaleEnds_toArray _ _

theorem valuesOfCoefficients_toArray {n : Nat} (v : Vector T n) :
    valuesOfCoefficients v.toArray = .ok (TensorChebyshev.valuesOfCoefficients v).toArray := by
  rw [valuesOfCoefficients, v.size_toArray]
  match n with
  | 0 => rfl
  | 1 => rfl
  | m + 2 =>
      rw [if_neg (by omega), scaleEnds_toArray, Checked.ok_bind, onArray_toArray,
        ← Vector.toArray_map]
      rfl

/-- The coefficients of the series that agrees with `f` at the nodes of `[a, b]`. -/
def fit (f : T → T) (a b : T) (degree : Nat) : Checked R (List T) := do
  let width ← Checked.ofResult (intervalWidth a b)
  if maxDegree < degree then Checked.refuse (.inadmissible (.degreeTooHigh degree))
  else if degree = 0 then return [f (Scalar.half * (a + b))]
  else
    let cs ← coefficientsOfValues ((RealLine.lobattoNodes degree).toArray.map fun x =>
      f (Scalar.half * (a + b) + Scalar.half * width * Scalar.ofReal x))
    return cs.toList

theorem fit_eq_ofResult (f : T → T) (a b : T) (degree : Nat) :
    fit f a b degree = Checked.ofResult (TensorChebyshev.fit f a b degree) := by
  rw [fit]
  cases hwidth : (intervalWidth a b : Result R T) with
  | error cause =>
      rw [TensorChebyshev.fit, hwidth]
      rfl
  | ok width =>
      obtain ⟨rfl, -⟩ := intervalWidth_eq_ok_iff.mp hwidth
      rw [fit_eq f degree hwidth, Checked.ofResult_ok, Checked.ok_bind]
      by_cases hhigh : maxDegree < degree
      · rw [if_pos hhigh, if_pos hhigh]
        rfl
      rw [if_neg hhigh, if_neg hhigh]
      by_cases hzero : degree = 0
      · rw [if_pos hzero, if_pos hzero]
        rfl
      rw [if_neg hzero, if_neg hzero, ← Vector.toArray_map]
      have hsamples : (samplePoints a b degree).map f = (RealLine.lobattoNodes degree).map fun x =>
          f (Scalar.half * (a + b) + Scalar.half * (b - a) * Scalar.ofReal x) := Vector.map_map ..
      rw [coefficientsOfValues_toArray, ← hsamples]
      rfl

end TensorChebyshev.Raw
