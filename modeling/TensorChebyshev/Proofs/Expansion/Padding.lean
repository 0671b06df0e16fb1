import Mathlib
import TensorChebyshev.Proofs.Expansion.Coordinate
import TensorChebyshev.Proofs.Expansion.Shapes

/-!
# More degree

A larger truncation degree only appends to the listing, so positions mean the same
in every degree that has them. Coefficients keep their meaning when zeros are put
behind them: no value changes, and no coefficient of a tuple that was there before.
-/

namespace TensorChebyshev

/-! ## Bases -/

namespace GradedBasis

variable {b c : GradedBasis}

/-- The basis `c` has the variables of `b` and no larger degree. -/
structure Begins (c b : GradedBasis) : Prop where
  nvar_eq : c.nvar = b.nvar
  degree_le : c.degree ≤ b.degree

namespace Begins

variable (h : Begins c b)

include h

theorem graded_isPrefix : graded c.nvar c.degree <+: graded b.nvar b.degree := by
  rw [h.nvar_eq]
  exact TensorChebyshev.graded_isPrefix b.nvar h.degree_le

theorem size_le : c.size ≤ b.size := by
  rw [size_eq, size_eq]
  exact h.graded_isPrefix.length_le

theorem tuples_getElem? {i : Nat} (hi : i < c.size) : b.tuples[i]? = c.tuples[i]? := by
  obtain ⟨rest, hrest⟩ := h.graded_isPrefix
  rw [size_eq] at hi
  rw [GradedBasis.tuples_getElem?, GradedBasis.tuples_getElem?, ← hrest,
    List.getElem?_append_left hi]

/-- The exponents at the positions of the smaller basis agree, read from the cells. -/
theorem tupleAtWord? (o : Overflow) {i : UInt64} (hi : i.toNat < c.size) :
    ∃ t, c.tupleAtWord? o i = some t ∧ b.tupleAtWord? o i = some t := by
  refine ⟨c.tuples[i.toNat], ?_, ?_⟩
  · rw [tupleAtWord?_of_lt c o i hi, Array.getElem?_eq_getElem hi]
  · rw [tupleAtWord?_of_lt b o i (hi.trans_le h.size_le), h.tuples_getElem? hi,
      Array.getElem?_eq_getElem hi]

theorem rank?_eq {t : Tuple} (ht : totalDegree t ≤ c.degree) : b.rank? t = c.rank? t := by
  rw [rank?, rank?, h.nvar_eq]
  exact rank?_of_le ht h.degree_le

end Begins

end GradedBasis

/-! ## Expansions -/

namespace Expansion

variable {T R : Type}

section Pad

variable [Arithmetic T] {e : Expansion T} {s : Shape}

/-- The same coefficients in a larger shape, with zeros behind them. -/
def padTo (e : Expansion T) (s : Shape)
    (h : GradedBasis.Begins e.shape.toGradedBasis s.toGradedBasis) : Expansion T where
  shape := s
  coeffs := ⟨e.coeffs.toArray ++ Array.replicate (s.size - e.size) 0, by
    rw [Array.size_append, Vector.size_toArray, Array.size_replicate]
    exact Nat.add_sub_cancel' h.size_le⟩

variable (h : GradedBasis.Begins e.shape.toGradedBasis s.toGradedBasis)

theorem toList_padTo : (e.padTo s h).coeffs.toList
    = e.coeffs.toList ++ List.replicate (s.size - e.size) 0 := by
  show (e.coeffs.toArray ++ Array.replicate (s.size - e.size) 0).toList = _
  rw [Array.toList_append, Array.toList_replicate]
  rfl

/-- The terms behind those of the smaller shape are zero. -/
theorem terms_padTo : ∃ rest : Combination T,
    Shape.terms (e.padTo s h).coeffs = Shape.terms e.coeffs ++ rest ∧ ∀ c ∈ rest, c.2 = 0 := by
  obtain ⟨more, hmore⟩ := h.graded_isPrefix
  have hlength : (graded e.shape.nvar e.shape.degree).length = e.coeffs.toList.length := by
    rw [e.coeffs.length_toList, GradedBasis.size_eq]
  refine ⟨more.zip (List.replicate (s.size - e.size) 0), ?_, ?_⟩
  · rw [Shape.terms, Shape.terms, GradedBasis.labelled_eq_zip, GradedBasis.labelled_eq_zip,
      toList_padTo, ← List.zip_append hlength, hmore]
    rfl
  · intro c hc
    exact List.eq_of_mem_replicate (List.of_mem_zip hc).2

theorem coefficientOf?_padTo {t : Tuple} (ht : totalDegree t ≤ e.degree) :
    (e.padTo s h).coefficientOf? t = e.coefficientOf? t := by
  have hrank : (e.padTo s h).shape.rank? t = e.shape.rank? t := h.rank?_eq ht
  rw [coefficientOf?, coefficientOf?, hrank]
  cases hplace : e.shape.rank? t with
  | none => rfl
  | some i =>
      have hi : i < e.coeffs.toList.length := by
        rw [e.coeffs.length_toList]
        exact (Array.getElem?_eq_some_iff.mp (e.shape.rank?_eq_some_iff.mp hplace)).1
      show (e.padTo s h).coeffs[i]? = e.coeffs[i]?
      rw [← Vector.getElem?_toList, ← Vector.getElem?_toList, toList_padTo,
        List.getElem?_append_left hi]

attribute [local instance] ExactRing.toCommRing in
theorem value_padTo [ExactRing T] (p : List T) : (e.padTo s h).value p = e.value p := by
  obtain ⟨rest, hterms, hrest⟩ := terms_padTo h
  have hzero : (rest.map fun c => c.2 * tensorChebyshev c.1 p).sum = 0 := by
    refine List.sum_eq_zero fun x hx => ?_
    obtain ⟨c, hc, rfl⟩ := List.mem_map.mp hx
    rw [hrest c hc, zero_mul]
  rw [value, value, Shape.value_eq_eval, Shape.value_eq_eval, hterms, Combination.eval,
    List.map_append, List.sum_append, hzero, add_zero, Combination.eval]

end Pad

theorem ofCoefficients_eq (s : Shape) {cs : Array T} (hcs : cs.size = s.size) :
    ofCoefficients s.nvar s.degree cs = (.ok ⟨s, ⟨cs, hcs⟩⟩ : Result R (Expansion T)) := by
  rw [ofCoefficients, shapeFor, build_self]
  exact dif_pos hcs

section Evaluate

variable [Scalar T R] [ExactRing T]

/-- Padding changes no answer of an evaluation, refusals included. -/
theorem evaluate_padTo {e : Expansion T} {s : Shape}
    (h : GradedBasis.Begins e.shape.toGradedBasis s.toGradedBasis) (point : Array T) :
    ((e.padTo s h).evaluate point : Result R T) = e.evaluate point := by
  have hvar : (e.padTo s h).nvar = e.nvar := h.nvar_eq.symm
  rw [evaluate_eq_map (f := id) hvar fun p _ => value_padTo h p]
  cases (e.evaluate point : Result R T) with
  | error cause => rfl
  | ok y => rfl

theorem evaluate_coordinateVector {s : Shape} {v : Nat} (hv : v < s.nvar) (hd : 1 ≤ s.degree)
    {point : Array T} (hpoint : point.size = s.nvar) :
    (⟨s, s.coordinateVector T v⟩ : Expansion T).evaluate point
      = (.ok (point.getD v 0) : Result R T) := by
  rw [evaluate_of_size ⟨s, s.coordinateVector T v⟩ point hpoint, value,
    Shape.value_coordinateVector hv hd hpoint]
  simp

/-- **Positions do not depend on the truncation degree.** Where there is a basis there is one
of every smaller degree, and both have the same exponents at the positions of the smaller.
Hence coefficients of the smaller shape with zeros behind them make an expansion with the
same answer at every point, and with the same coefficient at every tuple that the smaller
degree allows. The coordinate functions, which are placed without looking at the degree,
evaluate to the coordinates in all of them. -/
theorem positions_stable {nvar degree : Nat} {b : GradedBasis}
    (hb : GradedBasis.build nvar degree = .ok b) :
    (∀ low, low ≤ degree → ∃ c, GradedBasis.build nvar low = .ok c ∧ c.size ≤ b.size ∧
      (∀ (o : Overflow) (i : UInt64), i.toNat < c.size →
        ∃ t, c.tupleAtWord? o i = some t ∧ b.tupleAtWord? o i = some t) ∧
      ∀ cs : Array T, cs.size = c.size → ∃ e f : Expansion T,
        ofCoefficients nvar low cs = (.ok e : Result R _) ∧
        ofCoefficients nvar degree (cs ++ Array.replicate (b.size - c.size) 0)
          = (.ok f : Result R _) ∧
        (∀ point : Array T, (f.evaluate point : Result R T) = e.evaluate point) ∧
        ∀ t : Tuple, totalDegree t ≤ low → f.coefficientOf? t = e.coefficientOf? t) ∧
    (1 ≤ degree → ∀ v, v < nvar → ∃ x : Expansion T,
      coordinate nvar degree v = (.ok x : Result R _) ∧
        ∀ point : Array T, point.size = nvar →
          x.evaluate point = (.ok (point.getD v 0) : Result R T)) := by
  obtain ⟨rfl, rfl⟩ := GradedBasis.numbers_of_build hb
  obtain ⟨s, rfl⟩ : ∃ s : Shape, s.toGradedBasis = b :=
    ⟨Shape.ofAdmissible b.admissible, GradedBasis.ext_of rfl rfl⟩
  constructor
  · intro low hlow
    have hadm : Admissible s.nvar low :=
      s.admissible.mono s.admissible.nvar_pos (Nat.le_refl _) hlow
    let r : Shape := Shape.ofAdmissible hadm
    have hbegins : GradedBasis.Begins r.toGradedBasis s.toGradedBasis := ⟨rfl, hlow⟩
    refine ⟨r.toGradedBasis, GradedBasis.build_of_admissible hadm, hbegins.size_le, ?_, ?_⟩
    · intro o i hi
      exact hbegins.tupleAtWord? o hi
    · intro cs hcs
      let e : Expansion T := ⟨r, ⟨cs, hcs⟩⟩
      refine ⟨e, e.padTo s hbegins, ofCoefficients_eq r hcs, ofCoefficients_eq s _,
        evaluate_padTo hbegins, ?_⟩
      intro t ht
      exact coefficientOf?_padTo hbegins ht
  · intro hd v hv
    exact ⟨_, coordinate_eq hv hd, fun point hpoint => evaluate_coordinateVector hv hd hpoint⟩

end Evaluate

theorem admissible_square : Admissible 2 2 := ⟨by decide, by decide, by decide⟩

/-- The plane `1 + x + y` with room for squares, and the coordinate `y` there. -/
theorem positions_stable_square :
    ∃ e f x : Expansion ℝ, ofCoefficients 2 1 #[1, 1, 1] = (.ok e : Result ℝ _) ∧
      ofCoefficients 2 2 #[1, 1, 1, 0, 0, 0] = (.ok f : Result ℝ _) ∧
      (∀ point : Array ℝ, (f.evaluate point : Result ℝ ℝ) = e.evaluate point) ∧
      coordinate 2 2 1 = (.ok x : Result ℝ _) ∧ x.evaluate #[3, 5] = (.ok 5 : Result ℝ ℝ) := by
  have hbuild := GradedBasis.build_of_admissible admissible_square
  obtain ⟨hlow, hcoordinate⟩ := positions_stable (T := ℝ) (R := ℝ) hbuild
  obtain ⟨c, hc, _, _, hpad⟩ := hlow 1 (by decide)
  obtain ⟨hnvar, hdegree⟩ := GradedBasis.numbers_of_build hc
  have hsmall : c.size = 3 := by
    rw [GradedBasis.size_eq, hnvar, hdegree]
    rfl
  have hlarge : (GradedBasis.ofAdmissible admissible_square).size = 6 := by
    rw [GradedBasis.size_eq]
    rfl
  obtain ⟨e, f, he, hf, hvalue, _⟩ := hpad #[1, 1, 1] hsmall.symm
  rw [hsmall, hlarge] at hf
  obtain ⟨x, hx, hy⟩ := hcoordinate (by decide) 1 (by decide)
  exact ⟨e, f, x, he, hf, hvalue, hx, hy #[3, 5] rfl⟩

end Expansion

end TensorChebyshev
