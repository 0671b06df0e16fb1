import TensorChebyshev.Proofs.Checked.Substitute

/-!
# Functions of an expansion that may stop

The Chebyshev polynomials of an expansion are pushed onto an array, each found from
the two last ones, which are looked up by their numbers; a series is summed with the
operators. Both stay in the shape of the expansion.
-/

namespace TensorChebyshev.Raw

variable {T R : Type} [RealLine R] [Scalar T R] {s : Shape}

/-- The expansion `(2 e - (a + b)) / (b - a)`, where `width` is `b - a`. -/
def toUnitInterval (e : Raw T) (a b width : T) : Checked R (Raw T) :=
  (e.scale (Scalar.two / width)).subScalar ((a + b) / width)

theorem toUnitInterval_raw (e : Expansion T) (a b width : T) :
    e.raw.toUnitInterval a b width = .ok (e.toUnitInterval a b width).raw := by
  rw [toUnitInterval, Expansion.raw, scale_of, subScalar_of]
  rfl

variable [CosineTransform T]

/-! ## Chebyshev polynomials -/

/-- Pushes the polynomial with number `k`, where `twice` is twice the argument. -/
def pushPolynomial (twice : Raw T) (polynomials : Array (Raw T)) (k : Nat) :
    Checked R (Array (Raw T)) := do
  let last ← Checked.entry polynomials (k - 1)
  let product ← twice.product .standard last
  let before ← Checked.entry polynomials (k - 2)
  let next ← product.sub before
  return polynomials.push next

def chebyshevBasis (e : Raw T) (a b : T) : Checked R (List (Raw T)) := do
  let width ← Checked.ofResult (intervalWidth a b)
  let s ← e.toUnitInterval a b width
  let one ← e.constantLike 1
  let polynomials ← (List.range' 2 (e.degree - 1)).foldlM (pushPolynomial (s.scale Scalar.two))
    (if 1 ≤ e.degree then #[one, s] else #[one])
  return polynomials.toList

/-- **The two last polynomials are always there.** By induction on how many are still
to be found, from an array that holds all with smaller numbers. -/
theorem foldlM_pushPolynomial (twice before last : s.Coefficients T) (count k : Nat)
    (polynomials : Array (Raw T)) (hsize : polynomials.size = k + 2)
    (hbefore : polynomials[k]? = some (of before)) (hlast : polynomials[k + 1]? = some (of last)) :
    (List.range' (k + 2) count).foldlM (pushPolynomial (of twice)) polynomials
      = .ok (polynomials
          ++ ((Expansion.chebyshevFrom twice count before last).map of).toArray) := by
  induction count generalizing k before last polynomials with
  | zero => simp [Expansion.chebyshevFrom]
  | succ count ih =>
      let next := Shape.multiply .standard twice last - before
      have hpush : pushPolynomial (of twice) polynomials (k + 2)
          = .ok (polynomials.push (of next)) := by
        show (Checked.entry polynomials (k + 1) >>= fun last => _) = _
        rw [Checked.entry_of_getElem? hlast, Checked.ok_bind, product_of, Checked.ok_bind]
        show (Checked.entry polynomials k >>= fun before => _) = _
        rw [Checked.entry_of_getElem? hbefore, Checked.ok_bind, sub_of, Checked.ok_bind]
        rfl
      have hlt : k + 1 < polynomials.size := by omega
      rw [List.range'_succ, List.foldlM_cons, hpush, Checked.ok_bind,
        ih last next (k + 1) _ (by simp [hsize])]
      · simp [Expansion.chebyshevFrom, next]
      · rw [Array.getElem?_push_lt hlt, ← hlast, Array.getElem?_eq_getElem hlt]
      · rw [← hsize]
        exact Array.getElem?_push_size

theorem chebyshevBasis_raw (e : Expansion T) (a b : T) :
    e.raw.chebyshevBasis a b
      = Checked.ofResult ((e.chebyshevBasis a b).map (List.map Expansion.raw)) := by
  rw [chebyshevBasis, Expansion.chebyshevBasis]
  cases (intervalWidth a b : Result R T) with
  | error cause => rfl
  | ok width =>
      let x : e.shape.Coefficients T := (e.toUnitInterval a b width).coeffs
      let one : e.shape.Coefficients T := e.shape.constant 1
      let twice := Shape.scale x Scalar.two
      have hone : e.raw.constantLike 1 = (.ok (of one) : Checked R _) := constantLike_of e.coeffs 1
      have htwice : (of x).scale Scalar.two = of twice := scale_of x Scalar.two
      rw [Checked.ofResult_ok, Checked.ok_bind, toUnitInterval_raw, Checked.ok_bind, hone,
        Checked.ok_bind]
      show ((List.range' 2 (e.degree - 1)).foldlM (pushPolynomial ((of x).scale Scalar.two))
          (if 1 ≤ e.degree then #[of one, of x] else #[of one]) >>= fun l => .ok l.toList)
        = .ok (((one :: (if 1 ≤ e.degree then
            x :: Expansion.chebyshevFrom twice (e.degree - 1) one x else [])).map
              (Expansion.mk e.shape)).map Expansion.raw)
      have hraw : Expansion.raw ∘ Expansion.mk e.shape = (of : e.shape.Coefficients T → Raw T) :=
        rfl
      rw [htwice, List.map_map, hraw]
      by_cases hd : 1 ≤ e.degree
      · rw [if_pos hd, if_pos hd, foldlM_pushPolynomial twice one x (e.degree - 1) 0
          #[of one, of x] rfl rfl rfl, Checked.ok_bind]
        simp
      · have hzero : e.degree - 1 = 0 := by omega
        rw [if_neg hd, if_neg hd, hzero]
        rfl

/-! ## Series -/

def composeSeries (e : Raw T) (cs : List T) (a b : T) : Checked R (Raw T) := do
  let width ← Checked.ofResult (intervalWidth a b)
  let s ← e.toUnitInterval a b width
  let constants ← cs.mapM fun c => e.constantLike c
  (sums e).clenshaw (fun acc => acc.product .standard s) constants

/-- **A series is summed in one shape.** -/
theorem composeSeries_raw (e : Expansion T) (cs : List T) (a b : T) :
    e.raw.composeSeries cs a b = ofResult (e.composeSeries cs a b) := by
  rw [composeSeries, Expansion.composeSeries]
  cases (intervalWidth a b : Result R T) with
  | error cause => rfl
  | ok width =>
      let x : e.shape.Coefficients T := (e.toUnitInterval a b width).coeffs
      have htimes : ∀ c : e.shape.Coefficients T, (of c).product .standard (of x)
          = .ok (of (Shape.multiply .standard c x)) := fun c => product_of .standard c x
      have hsum := Sums.clenshaw_eq (carries_of e.coeffs)
        (fun acc => acc.product .standard (of x)) htimes (cs.map e.shape.constant)
      have hconstants : cs.mapM (fun c => e.raw.constantLike c)
          = (.ok ((cs.map e.shape.constant).map of) : Checked R _) := mapM_constantLike e.coeffs cs
      rw [Checked.ofResult_ok, Checked.ok_bind, toUnitInterval_raw, Checked.ok_bind, hconstants,
        Checked.ok_bind]
      exact hsum

/-! ## Functions -/

variable [RealScalar T]

def range (e : Raw T) : Checked R (T × T) := do
  let others ← Checked.rest e.coeffs
  let spread := others.foldl (fun acc c => acc + RealScalar.abs c) 0
  let c ← e.constantTerm
  return (c - spread, c + spread)

def apply (e : Raw T) (f : T → T) : Checked R (Raw T) := do
  let (lo, hi) ← e.range
  if lo == hi then e.constantLike (f lo)
  else
    let cs ← fit f lo hi e.degree
    e.composeSeries cs lo hi

omit [RealLine R] [CosineTransform T] in
theorem range_raw (e : Expansion T) : e.raw.range = (.ok e.range : Checked R (T × T)) := by
  rw [range, Expansion.raw, of, Checked.rest_toArray e.coeffs e.shape.size_pos, Checked.ok_bind]
  exact congrArg (· >>= _) (constantTerm_of e.coeffs)

theorem apply_raw (e : Expansion T) (f : T → T) : e.raw.apply f = ofResult (e.apply f) := by
  rw [apply, range_raw, Checked.ok_bind, Expansion.apply]
  obtain ⟨lo, hi⟩ := e.range
  show (if lo == hi then e.raw.constantLike (f lo) else fit f lo hi e.degree >>= fun cs =>
      e.raw.composeSeries cs lo hi)
    = ofResult (if lo == hi then .ok (e.constantLike (f lo)) else
        TensorChebyshev.fit f lo hi e.degree >>= fun cs => e.composeSeries cs lo hi)
  by_cases h : lo == hi
  · rw [if_pos h, if_pos h]
    exact constantLike_of e.coeffs (f lo)
  · rw [if_neg h, if_neg h, fit_eq_ofResult, ofResult_bind]
    exact congrArg (_ >>= ·) (funext fun cs => composeSeries_raw e cs lo hi)

end TensorChebyshev.Raw
