import Mathlib
import TensorChebyshev.Cosine.Spectrum
import TensorChebyshev.Proofs.Cosine.Change
import TensorChebyshev.Proofs.Cosine.Interpolation
import TensorChebyshev.Proofs.Scalar.Magnitude

/-!
# The cosine transform as a spectrum

The even extension passes every inner entry twice, at `j` and at `2 M - j`, and the
two ends once. In its spectrum the phases of a pair are inverse to each other, so
they add up to twice a cosine, and the phases of the ends are one and a sign. This
is the cosine sum, whatever computes the spectrum.
-/

namespace TensorChebyshev

/-! ## Phases -/

/-- The factor `exp (-2πi t / n)`. -/
noncomputable def phase (n t : Nat) : ℂ :=
  Complex.exp (-((RealLine.two * Real.pi * t / n : ℝ) : ℂ) * Complex.I)

theorem phase_eq (n t : Nat) : phase n t = Complex.exp (-(2 * Real.pi * t / n * Complex.I)) := by
  rw [phase, two_eq_real]
  push_cast
  rw [neg_mul]

theorem phase_zero (n : Nat) : phase n 0 = 1 := by simp [phase_eq]

theorem phase_add (n s t : Nat) : phase n (s + t) = phase n s * phase n t := by
  rw [phase_eq, phase_eq, phase_eq, ← Complex.exp_add]
  congr 1
  push_cast
  ring

/-- Full turns are no turns. -/
theorem phase_self_mul {n : Nat} (hn : 0 < n) (t : Nat) : phase n (n * t) = 1 := by
  have hn0 : (n : ℂ) ≠ 0 := Nat.cast_ne_zero.mpr hn.ne'
  have hturns : 2 * Real.pi * ((n * t : Nat) : ℂ) / n * Complex.I
      = t * (2 * Real.pi * Complex.I) := by
    push_cast
    field_simp
  rw [phase_eq, hturns, Complex.exp_neg, Complex.exp_nat_mul_two_pi_mul_I, inv_one]

theorem phase_mod {n : Nat} (hn : 0 < n) (t : Nat) : phase n (t % n) = phase n t := by
  conv_rhs => rw [← Nat.mod_add_div t n, phase_add, phase_self_mul hn, mul_one]

/-- Half turns are signs. -/
theorem phase_half (m k : Nat) : phase (2 * (m + 1)) ((m + 1) * k) = (-1) ^ k := by
  have hm : ((m + 1 : Nat) : ℂ) ≠ 0 := Nat.cast_ne_zero.mpr (Nat.succ_ne_zero m)
  have hhalf : -(2 * Real.pi * (((m + 1) * k : Nat) : ℂ) / ((2 * (m + 1) : Nat) : ℂ) * Complex.I)
      = k * (-(Real.pi * Complex.I)) := by
    push_cast at hm ⊢
    field_simp
  have hone : Complex.exp (-(Real.pi * Complex.I)) = -1 := by
    rw [Complex.exp_neg, Complex.exp_pi_mul_I, inv_neg, inv_one]
  rw [phase_eq, hhalf, Complex.exp_nat_mul, hone]

/-- The phases of a mirrored pair add up to twice a cosine. -/
theorem phase_add_mirrored {m j : Nat} (hj : j ≤ 2 * (m + 1)) (k : Nat) :
    phase (2 * (m + 1)) (j * k) + phase (2 * (m + 1)) ((2 * (m + 1) - j) * k)
      = 2 * (Real.cos (Real.pi * (j * k) / (m + 1)) : ℂ) := by
  have hpair : phase (2 * (m + 1)) ((2 * (m + 1) - j) * k) * phase (2 * (m + 1)) (j * k) = 1 := by
    rw [← phase_add, ← Nat.add_mul, Nat.sub_add_cancel hj, phase_self_mul (by omega)]
  have hangle : -(2 * Real.pi * ((j * k : Nat) : ℂ) / ((2 * (m + 1) : Nat) : ℂ) * Complex.I)
      = -((Real.pi * (j * k) / (m + 1) : ℝ) : ℂ) * Complex.I := by
    have hm : (m : ℂ) + 1 ≠ 0 := Nat.cast_add_one_ne_zero m
    push_cast
    field_simp
  have hphase : phase (2 * (m + 1)) (j * k)
      = Complex.exp (-((Real.pi * (j * k) / (m + 1) : ℝ) : ℂ) * Complex.I) := by
    rw [phase_eq, hangle]
  rw [eq_inv_of_mul_eq_one_left hpair, hphase, ← Complex.exp_neg, Complex.ofReal_cos,
    Complex.two_cos, add_comm]
  congr 2
  ring

/-! ## The even extension -/

section Extension

variable {T : Type} {m : Nat} (d : Vector T (m + 2))

/-- On the way there the entries are those of the data. -/
theorem get_evenExtension_there {j : Fin (2 * (m + 1))} (hj : j.val < m + 2) :
    (evenExtension d).get j = d[j.val] := by
  rw [Vector.get_eq_getElem, evenExtension, Vector.getElem_ofFn, dif_pos hj]

/-- On the way back they count down, and the ends are not met again. -/
theorem get_evenExtension_back {j : Nat} (hj : j < m) :
    (evenExtension d).get ⟨2 * (m + 1) - (j + 1), by omega⟩ = d[j + 1] := by
  have hback : ¬ 2 * (m + 1) - (j + 1) < m + 2 := by omega
  have hentry : 2 * (m + 1) - (2 * (m + 1) - (j + 1)) = j + 1 := by omega
  rw [Vector.get_eq_getElem, evenExtension, Vector.getElem_ofFn, dif_neg hback]
  simp only [hentry]

/-- The data, and behind them the inner entries backwards. -/
theorem toList_evenExtension :
    (evenExtension d).toList = d.toList ++ d.toList.tail.dropLast.reverse := by
  have hlength : d.toList.tail.dropLast.length = m := by simp
  refine List.ext_getElem ?_ fun j hj hj' => ?_
  · rw [List.length_append, List.length_reverse, hlength, Vector.length_toList,
      Vector.length_toList]
    omega
  rw [Vector.length_toList] at hj
  by_cases hthere : j < m + 2
  · rw [List.getElem_append_left (by rwa [Vector.length_toList]), Vector.getElem_toList,
      Vector.getElem_toList]
    exact get_evenExtension_there d (j := ⟨j, hj⟩) hthere
  · have hturn : 2 * (m + 1) - (2 * (m + 1) - j - 1 + 1) = j := by omega
    have hback := get_evenExtension_back d (j := 2 * (m + 1) - j - 1) (by omega)
    simp only [hturn] at hback
    rw [List.getElem_append_right (by rw [Vector.length_toList]; omega), List.getElem_reverse,
      List.getElem_dropLast, List.getElem_tail, Vector.getElem_toList, Vector.getElem_toList]
    refine hback.trans ?_
    congr 1
    rw [hlength, Vector.length_toList]
    omega

/-- A sum over the way there and back: the turning points once, the others in pairs. -/
theorem sum_thereAndBack {M : Type} [AddCommMonoid M] (g : Fin (2 * (m + 1)) → M) :
    ∑ j, g j = g ⟨0, by omega⟩ + g ⟨m + 1, by omega⟩
      + ∑ j : Fin m, (g ⟨j + 1, by omega⟩ + g ⟨2 * (m + 1) - (j + 1), by omega⟩) := by
  have hlength : m + 2 + m = 2 * (m + 1) := by omega
  have hback : ∑ j : Fin m, g (finCongr hlength (Fin.natAdd (m + 2) j))
      = ∑ j : Fin m, g ⟨2 * (m + 1) - (j + 1), by omega⟩ := by
    rw [← Equiv.sum_comp Fin.revPerm]
    refine Finset.sum_congr rfl fun j _ => congrArg g (Fin.ext ?_)
    show m + 2 + (m - (j + 1)) = 2 * (m + 1) - (j + 1)
    omega
  rw [← Equiv.sum_comp (finCongr hlength), Fin.sum_univ_add, hback, sum_ends,
    Finset.sum_add_distrib]
  show g ⟨0, _⟩ + (∑ j : Fin m, g ⟨j + 1, _⟩ + g ⟨m + 1, _⟩) + _ = _
  abel

end Extension

/-! ## Among the complex numbers of analysis -/

namespace Complex

attribute [local instance] ExactRing.toCommRing

/-- Complex numbers by their parts are those of analysis. -/
noncomputable def toFieldHom : Complex ℝ →+* ℂ :=
  RingHom.mk' ⟨⟨toField, rfl⟩, toField_mul⟩ toField_add

theorem toFieldHom_apply (a : Complex ℝ) : toFieldHom a = toField a := rfl

theorem toField_ofReal (x : ℝ) : toField (Scalar.ofReal x) = x := rfl

theorem toField_injective : Function.Injective toField := by
  intro a b h
  exact Complex.ext (congrArg (fun z : ℂ => z.re) h) (congrArg (fun z : ℂ => z.im) h)

theorem toField_unitRoot {n : Nat} (hn : 0 < n) (t : Nat) :
    toField (unitRoot n (t % n)) = phase n t := by
  rw [← phase_mod hn, phase, two_eq_real, ← Complex.ofReal_neg, Complex.exp_mul_I,
    ← Complex.ofReal_cos, ← Complex.ofReal_sin, Real.cos_neg, Real.sin_neg,
    ← Complex.mk_eq_add_mul_I]
  rfl

/-- The defining sum of the transform, read with the exponentials of analysis. -/
theorem toField_fourierAt {n : Nat} (x : Vector (Complex ℝ) n) (k : Fin n) :
    toField (fourierAt x k) = ∑ j : Fin n, toField (x.get j) * phase n (j * k) := by
  have hn : 0 < n := Nat.zero_lt_of_lt k.isLt
  rw [fourierAt, foldl_add_eq_sum, zero_add, ← toFieldHom_apply, map_sum]
  refine Finset.sum_congr rfl fun j _ => ?_
  rw [map_mul, toFieldHom_apply, toFieldHom_apply, toField_unitRoot hn]
  rfl

end Complex

/-- The method computes the forward transform without rounding and without a factor: entry
`k` is the sum of the entries `x_j` times `exp (-2πi j k / n)`. -/
def FourierMethod.IsForward (method : FourierMethod ℝ) : Prop :=
  ∀ (n : Nat) (x : Vector (Complex ℝ) n) (k : Fin n),
    ((method n x).get k).toField
      = ∑ j : Fin n, (x.get j).toField * phase n (j * k)

theorem FourierMethod.isForward_iff_exact {method : FourierMethod ℝ} :
    method.IsForward ↔ method.Exact := by
  have hsum : ∀ (n : Nat) (x : Vector (Complex ℝ) n) (k : Fin n),
      ((fourier x).get k).toField = ∑ j : Fin n, (x.get j).toField * phase n (j * k) := by
    intro n x k
    rw [fourier, Vector.get_ofFn, Complex.toField_fourierAt]
  constructor
  · intro h n x
    refine Vector.ext fun k hk => Complex.toField_injective ?_
    exact (h n x ⟨k, hk⟩).trans (hsum n x ⟨k, hk⟩).symm
  · intro h n x k
    rw [h n x]
    exact hsum n x k

/-! ## The transform -/

section Transform

attribute [local instance] ExactRing.toCommRing

variable {m : Nat} (d : Vector (Complex ℝ) (m + 2)) (k : Fin (m + 2))

theorem toField_cosineSums :
    ((cosineSums d).get k).toField
      = (d.get 0).toField + (-1) ^ k.val * (d.get (Fin.last (m + 1))).toField
        + 2 * ∑ j : Fin m, (Real.cos (Real.pi * ((j + 1) * k) / (m + 1)) : ℂ)
          * (d.get j.castSucc.succ).toField := by
  have htwo : Complex.toFieldHom Scalar.two = 2 := by
    rw [Scalar.two, two_eq_real]
    rfl
  have hsign : Complex.toFieldHom (Scalar.ofReal ((-1) ^ k.val)) = (-1) ^ k.val := by
    rw [Complex.toFieldHom_apply, Complex.toField_ofReal]
    push_cast
    rfl
  have hsum := congrArg Complex.toFieldHom (CosineTransform.exact_bySums m d k.val k.isLt)
  rw [map_add, map_add, map_mul, map_mul, map_list_sum, List.map_ofFn, List.sum_ofFn,
    htwo, hsign] at hsum
  refine hsum.trans (congrArg (fun z => _ + 2 * z) (Finset.sum_congr rfl fun j _ => ?_))
  rw [Function.comp_apply, map_mul]
  rfl

variable {method : FourierMethod ℝ}

/-- The spectrum of the even extension has the cosine sums for its entries. -/
theorem toField_cosineSpectrum (h : method.IsForward) :
    ((cosineSpectrum method d).get k).toField
      = (d.get 0).toField + (-1) ^ k.val * (d.get (Fin.last (m + 1))).toField
        + 2 * ∑ j : Fin m, (Real.cos (Real.pi * ((j + 1) * k) / (m + 1)) : ℂ)
          * (d.get j.castSucc.succ).toField := by
  have hentry : ((cosineSpectrum method d).get k).toField
      = ∑ j : Fin (2 * (m + 1)),
          ((evenExtension d).get j).toField * phase (2 * (m + 1)) (j * k) := by
    rw [Vector.get_eq_getElem, getElem_cosineSpectrum]
    exact h _ (evenExtension d) ⟨k, by omega⟩
  have hinner : ∀ j : Fin m,
      ((evenExtension d).get ⟨j + 1, by omega⟩).toField * phase (2 * (m + 1)) ((j + 1) * k)
        + ((evenExtension d).get ⟨2 * (m + 1) - (j + 1), by omega⟩).toField
          * phase (2 * (m + 1)) ((2 * (m + 1) - (j + 1)) * k)
        = 2 * ((Real.cos (Real.pi * ((j + 1) * k) / (m + 1)) : ℂ)
          * (d.get j.castSucc.succ).toField) := by
    intro j
    have hthere : j.val + 1 < m + 2 := by omega
    have hpair := phase_add_mirrored (m := m) (j := j + 1) (by omega) k
    push_cast at hpair
    rw [get_evenExtension_there d (j := ⟨j + 1, _⟩) hthere, get_evenExtension_back d j.isLt,
      ← mul_add, mul_comm, hpair, mul_assoc]
    push_cast
    rfl
  rw [hentry, sum_thereAndBack, get_evenExtension_there d (j := ⟨0, _⟩) (Nat.zero_lt_succ _),
    get_evenExtension_there d (j := ⟨m + 1, _⟩) (Nat.lt_succ_self _),
    Finset.sum_congr rfl fun j _ => hinner j, ← Finset.mul_sum, Nat.zero_mul, phase_zero, mul_one,
    phase_half, mul_comm d[m + 1].toField]
  rfl

theorem cosineSpectrum_eq_cosineSums (h : method.IsForward) {n : Nat} (d : Vector (Complex ℝ) n) :
    cosineSpectrum method d = cosineSums d := by
  match n, d with
  | 0, d => rfl
  | 1, d => rfl
  | m + 2, d =>
    refine Vector.ext fun k hk => Complex.toField_injective ?_
    exact (toField_cosineSpectrum d ⟨k, hk⟩ h).trans (toField_cosineSums d ⟨k, hk⟩).symm

theorem realCosineSpectrum_eq_cosineSums (h : method.IsForward) {n : Nat} (d : Vector ℝ n) :
    realCosineSpectrum method d = cosineSums d := by
  rw [realCosineSpectrum, cosineSpectrum_eq_cosineSums h, ← map_cosineSums ScalarMap.complex,
    Vector.map_map]
  exact Vector.map_id (cosineSums d)

/-- **The cosine transform is a spectrum.** The even extension goes to the last entry and
back to the second. With any method for exact forward transforms, the first half of its
spectrum is what the cosine sums give, for every number of complex entries; and for real
entries, embedded, so are the real parts. -/
theorem spectrum_eq_cosineSums (h : method.IsForward) :
    (∀ (m : Nat) (d : Vector (Complex ℝ) (m + 2)),
      (evenExtension d).toList = d.toList ++ d.toList.tail.dropLast.reverse) ∧
    (∀ (n : Nat) (d : Vector (Complex ℝ) n), cosineSpectrum method d = cosineSums d) ∧
    ∀ (n : Nat) (d : Vector ℝ n), realCosineSpectrum method d = cosineSums d :=
  ⟨fun _ d => toList_evenExtension d, fun _ d => cosineSpectrum_eq_cosineSums h d,
    fun _ d => realCosineSpectrum_eq_cosineSums h d⟩

/-- Two real entries, where nothing is mirrored, and three complex ones. -/
theorem spectrum_eq_cosineSums_short :
    realCosineSpectrum FourierMethod.bySums (#v[3, 1] : Vector ℝ 2) = #v[4, 2] ∧
    (evenExtension (#v[⟨0, 1⟩, ⟨2, 0⟩, ⟨0, 3⟩] : Vector (Complex ℝ) 3)).toList
      = [⟨0, 1⟩, ⟨2, 0⟩, ⟨0, 3⟩, ⟨2, 0⟩] ∧
    cosineSpectrum FourierMethod.bySums (#v[⟨0, 1⟩, ⟨2, 0⟩, ⟨0, 3⟩] : Vector (Complex ℝ) 3)
      = cosineSums #v[⟨0, 1⟩, ⟨2, 0⟩, ⟨0, 3⟩] := by
  obtain ⟨hextension, hcomplex, hreal⟩ :=
    spectrum_eq_cosineSums (FourierMethod.isForward_iff_exact.mpr FourierMethod.bySums_exact)
  refine ⟨(hreal 2 _).trans (Vector.ext fun k hk => ?_), hextension 1 _, hcomplex 3 _⟩
  rw [cosineSums, Vector.getElem_ofFn, Fin.foldl_zero]
  rcases (by omega : k = 0 ∨ k = 1) with rfl | rfl
  · show (3 : ℝ) + 1 = 4
    norm_num
  · show (3 : ℝ) - 1 = 2
    norm_num

end Transform

end TensorChebyshev
