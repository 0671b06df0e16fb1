import TensorChebyshev.Series.Clenshaw

/-!
# Sums under a change of values

The recurrence adds, subtracts and multiplies by its argument, and nothing else.
So a map of the values that goes through these three goes through the sums, of
one variable and of several, with no law for the values on either side.
-/

namespace TensorChebyshev

variable {V W : Type} [Zero V] [Add V] [Sub V] [Zero W] [Add W] [Sub W]

/-- A map of values that keeps what the recurrence does to them. -/
structure SumMap (Φ : V → W) : Prop where
  map_zero : Φ 0 = 0
  map_add : ∀ a b, Φ (a + b) = Φ a + Φ b
  map_sub : ∀ a b, Φ (a - b) = Φ a - Φ b

variable {Φ : V → W}

section OneVariable

variable {f : V → V} {g : W → W}

theorem backward_map (h : SumMap Φ) (hf : ∀ b, Φ (f b) = g (Φ b)) (cs : List V) :
    backward g (cs.map Φ) = (Φ (backward f cs).1, Φ (backward f cs).2) := by
  induction cs with
  | nil => simp [backward, h.map_zero]
  | cons c cs ih =>
      cases cs with
      | nil => simp [backward, h.map_zero]
      | cons d cs =>
          rw [List.map_cons] at ih
          rw [List.map_cons, List.map_cons, backward, ih, backward]
          simp only [h.map_add, h.map_sub, hf]

theorem clenshaw_map (h : SumMap Φ) (hf : ∀ b, Φ (f b) = g (Φ b)) (cs : List V) :
    Φ (clenshaw f cs) = clenshaw g (cs.map Φ) := by
  cases cs with
  | nil => exact h.map_zero
  | cons c cs =>
      cases cs with
      | nil => rfl
      | cons d cs =>
          have hback := backward_map h hf (d :: cs)
          rw [List.map_cons] at hback
          rw [List.map_cons, List.map_cons, clenshaw, clenshaw, hback]
          simp only [h.map_add, h.map_sub, hf]

end OneVariable

namespace GradedBasis

omit [Zero V] [Add V] [Sub V] [Zero W] [Add W] [Sub W] in
theorem groups_map (b : GradedBasis) (count : Nat) (Φ : V → W) (cs : List V) :
    b.groups count (cs.map Φ) = (b.groups count cs).map (List.map Φ) := by
  simp [groups, List.zipIdx_map, List.filter_map, Function.comp_def]

variable {times : Nat → V → V} {times' : Nat → W → W}

theorem sumFrom_map (h : SumMap Φ) (ht : ∀ v b, Φ (times v b) = times' v (Φ b)) (v : Nat)
    (b : GradedBasis) (cs : List V) :
    (sumFrom times v b cs).map Φ = sumFrom times' v b (cs.map Φ) := by
  induction v generalizing b cs with
  | zero => exact congrArg Except.ok (clenshaw_map h (ht 0) cs)
  | succ v ih =>
      rw [sumFrom, sumFrom]
      cases hb : GradedBasis.build (v + 1) b.degree with
      | error cause => rfl
      | ok smaller =>
          have hinner : ((b.groups smaller.size cs).map (clenshaw (times (v + 1)))).map Φ
              = (b.groups smaller.size (cs.map Φ)).map (clenshaw (times' (v + 1))) := by
            rw [groups_map, List.map_map, List.map_map]
            exact List.map_congr_left fun group _ => clenshaw_map h (ht (v + 1)) group
          show (sumFrom times v smaller _).map Φ = sumFrom times' v smaller _
          rw [ih, hinner]

theorem sum_map (h : SumMap Φ) (ht : ∀ v b, Φ (times v b) = times' v (Φ b)) (b : GradedBasis)
    (cs : List V) : (b.sum times cs).map Φ = b.sum times' (cs.map Φ) :=
  sumFrom_map h ht (b.nvar - 1) b cs

end GradedBasis

end TensorChebyshev
