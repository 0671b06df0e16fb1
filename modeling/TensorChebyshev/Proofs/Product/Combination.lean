import Mathlib
import TensorChebyshev.Proofs.Product.Linearization

/-!
# Combinations of basis functions

Coefficients with their tuples, in any order and with repetitions. A
combination is read by summing its coefficients against a function of the
tuples: with the basis functions at a point this is its value there, with the
indicator of a tuple it is the coefficient of that tuple. So an identity for
every function of the tuples is one for values and for coefficients at once.
-/

namespace TensorChebyshev

abbrev Combination (T : Type) : Type := List (Tuple × T)

namespace Combination

section Read

variable {T : Type} [Arithmetic T]

/-- The sum of the coefficients, each times what `φ` makes of its tuple. -/
def eval (l : Combination T) (φ : Tuple → T) : T := (l.map fun c => c.2 * φ c.1).sum

def coefficient (l : Combination T) (t : Tuple) : T := l.eval fun u => if u = t then 1 else 0

def nonzero (l : Combination T) : Combination T := l.filter fun c => !isZero c.2

/-- The largest degree of a term whose coefficient is not zero. -/
def degree (l : Combination T) : Nat := (l.nonzero.map fun c => totalDegree c.1).foldr max 0

theorem eval_congr {l : Combination T} {φ ψ : Tuple → T} (h : ∀ c ∈ l, φ c.1 = ψ c.1) :
    l.eval φ = l.eval ψ := by
  rw [eval, eval, List.map_congr_left fun c hc => by rw [h c hc]]

/-- A function of the tuples cut off above a degree. -/
def cutAbove (d : Nat) (φ : Tuple → T) (t : Tuple) : T :=
  if totalDegree t ≤ d then φ t else 0

theorem le_degree {l : Combination T} {c : Tuple × T} (hc : c ∈ l.nonzero) :
    totalDegree c.1 ≤ l.degree := by
  have hmem : totalDegree c.1 ∈ l.nonzero.map fun c => totalDegree c.1 :=
    List.mem_map_of_mem hc
  exact List.le_max_of_le' 0 hmem (Nat.le_refl _)

theorem degree_le {l : Combination T} {d : Nat} (h : ∀ c ∈ l, totalDegree c.1 ≤ d) :
    l.degree ≤ d := by
  refine List.max_le_of_forall_le _ d fun k hk => ?_
  obtain ⟨c, hc, rfl⟩ := List.mem_map.mp hk
  exact h c (List.mem_of_mem_filter hc)

end Read

/-! ## Reading a combination -/

section Exact

variable {T : Type} [Arithmetic T] {l : Combination T}

theorem eval_cons (c : Tuple × T) (l : Combination T) (φ : Tuple → T) :
    eval (c :: l) φ = c.2 * φ c.1 + eval l φ := List.sum_cons

theorem coefficient_cutAbove {d : Nat} {t : Tuple} (l : Combination T) (ht : totalDegree t ≤ d) :
    l.eval (cutAbove d fun u => if u = t then 1 else 0) = l.coefficient t := by
  refine eval_congr fun c _ => ?_
  rw [cutAbove]
  by_cases hc : c.1 = t
  · rw [if_pos (hc ▸ ht)]
  · simp [hc]

variable [ExactRing T]

attribute [local instance] ExactRing.toCommRing

theorem eval_add (l : Combination T) (φ ψ : Tuple → T) :
    l.eval (fun t => φ t + ψ t) = l.eval φ + l.eval ψ := by
  simp only [eval, mul_add]
  exact List.sum_map_add

theorem eval_sum {ι : Type} (S : Finset ι) (l : Combination T) (a : ι → T) (φ : ι → Tuple → T) :
    l.eval (fun t => ∑ i ∈ S, a i * φ i t) = ∑ i ∈ S, a i * l.eval (φ i) := by
  induction l with
  | nil => simp [eval]
  | cons c l ih =>
      simp only [eval_cons, mul_add, Finset.sum_add_distrib, ih, Finset.mul_sum]
      congr 1
      refine Finset.sum_congr rfl fun i _ => ?_
      ring

/-- **A combination is the sum over the tuples of their coefficients**, over any
tuples among which all of its own are. -/
theorem eval_eq_sum_coefficient (φ : Tuple → T) {S : List Tuple} (hS : S.Nodup)
    (h : ∀ c ∈ l, c.1 ∈ S) : l.eval φ = (S.map fun t => l.coefficient t * φ t).sum := by
  rw [← List.sum_toFinset _ hS]
  induction l with
  | nil => simp [eval, coefficient]
  | cons c l ih =>
      have hc : c.1 ∈ S.toFinset := List.mem_toFinset.mpr (h c (List.mem_cons_self ..))
      -- the first term counts at its own tuple only
      have hterm : ∀ t, coefficient (c :: l) t * φ t
          = (if c.1 = t then c.2 * φ t else 0) + coefficient l t * φ t := by
        intro t
        rw [coefficient, eval_cons, ← coefficient, add_mul]
        split <;> simp
      rw [eval_cons, ih fun d hd => h d (List.mem_cons_of_mem _ hd),
        Finset.sum_congr rfl fun t _ => hterm t, Finset.sum_add_distrib, Finset.sum_ite_eq,
        if_pos hc]

theorem exists_mem_of_coefficient_ne_zero {t : Tuple} (h : l.coefficient t ≠ 0) :
    ∃ c ∈ l, c.1 = t := by
  by_contra hnone
  refine h (List.sum_eq_zero fun z hz => ?_)
  obtain ⟨c, hc, rfl⟩ := List.mem_map.mp hz
  have hne : c.1 ≠ t := fun heq => hnone ⟨c, hc, heq⟩
  show c.2 * (if c.1 = t then 1 else 0) = 0
  rw [if_neg hne, mul_zero]

/-! ## Cutting off -/

/-- The coefficients that are cut off above a degree. -/
def remainder (d : Nat) (l : Combination T) (t : Tuple) : T :=
  if totalDegree t ≤ d then 0 else l.coefficient t

theorem mem_of_remainder_ne_zero {d : Nat} {t : Tuple} (h : l.remainder d t ≠ 0) :
    d < totalDegree t ∧ ∃ c ∈ l, c.1 = t := by
  rw [remainder] at h
  split at h
  · exact absurd rfl h
  · exact ⟨Nat.lt_of_not_le ‹_›, exists_mem_of_coefficient_ne_zero h⟩

/-- A combination is what is left of it above a degree, and the remainder. -/
theorem eval_eq_cutAbove_add (d : Nat) (φ : Tuple → T) {S : List Tuple} (hS : S.Nodup)
    (h : ∀ c ∈ l, c.1 ∈ S) :
    l.eval φ = l.eval (cutAbove d φ) + (S.map fun t => l.remainder d t * φ t).sum := by
  have hsplit : φ = fun t => cutAbove d φ t + if totalDegree t ≤ d then 0 else φ t := by
    funext t
    rw [cutAbove]
    split <;> simp
  have hbeyond : ∀ t, l.coefficient t * (if totalDegree t ≤ d then 0 else φ t)
      = l.remainder d t * φ t := by
    intro t
    rw [remainder]
    split <;> simp
  calc l.eval φ
      = l.eval (cutAbove d φ) + l.eval fun t => if totalDegree t ≤ d then 0 else φ t := by
        rw [← eval_add, ← hsplit]
    _ = _ := by
        rw [eval_eq_sum_coefficient (fun t => if totalDegree t ≤ d then 0 else φ t) hS h]
        simp only [hbeyond]

/-! ## Zero terms -/

theorem sum_map_nonzero (f : Tuple × T → T) (h : ∀ t, f (t, 0) = 0) (l : Combination T) :
    (l.nonzero.map f).sum = (l.map f).sum := by
  induction l with
  | nil => rfl
  | cons c l ih =>
      rw [List.map_cons, List.sum_cons, ← ih, nonzero, List.filter_cons]
      cases hc : isZero c.2 with
      | false => simp [nonzero]
      | true =>
          have hzero : f c = 0 := by
            rw [← h c.1, ← (ExactRing.isZero_iff c.2).mp hc]
          simp [hzero, nonzero]

end Exact

/-! ## Products -/

section Product

variable {T R : Type} [RealLine R] [Scalar T R] {l m : Combination T}

/-- The terms of the product, pair by pair. -/
def product (l m : Combination T) : Combination T :=
  l.flatMap fun x => m.flatMap fun y =>
    (branches x.1 y.1).map fun t => (t, x.2 * y.2 * halvedWeight (splits x.1 y.1))

/-- What a pair of terms contributes to the product. -/
def contribution (φ : Tuple → T) (x y : Tuple × T) : T :=
  x.2 * y.2 * halvedWeight (splits x.1 y.1) * ((branches x.1 y.1).map φ).sum

theorem mem_product {c : Tuple × T} (hc : c ∈ product l m) :
    ∃ x ∈ l, ∃ y ∈ m, c.1 ∈ branches x.1 y.1 := by
  rw [product, List.mem_flatMap] at hc
  obtain ⟨x, hx, hc⟩ := hc
  obtain ⟨y, hy, hc⟩ := List.mem_flatMap.mp hc
  obtain ⟨t, ht, rfl⟩ := List.mem_map.mp hc
  exact ⟨x, hx, y, hy, ht⟩

theorem degree_of_mem_product {n : Nat} (hl : ∀ x ∈ l, x.1.length = n)
    (hm : ∀ y ∈ m, y.1.length = n) {c : Tuple × T} (hc : c ∈ product l.nonzero m.nonzero) :
    c.1.length = n ∧ totalDegree c.1 ≤ l.degree + m.degree := by
  obtain ⟨x, hx, y, hy, hxy⟩ := mem_product hc
  have hxn := hl x (List.mem_of_mem_filter hx)
  have hyn := hm y (List.mem_of_mem_filter hy)
  obtain ⟨hlen, hdeg⟩ := length_and_degree_of_mem_branches (hxn.trans hyn.symm) hxy
  have hxd := le_degree hx
  have hyd := le_degree hy
  exact ⟨hlen.trans hxn, by omega⟩

variable [ExactRing T]

attribute [local instance] ExactRing.toCommRing

theorem eval_product (l m : Combination T) (φ : Tuple → T) :
    (product l m).eval φ = (l.map fun x => (m.map (contribution φ x)).sum).sum := by
  have hpair : ∀ x y : Tuple × T,
      (((branches x.1 y.1).map fun t => (t, x.2 * y.2 * halvedWeight (splits x.1 y.1))).map
        fun c => c.2 * φ c.1).sum = contribution φ x y := by
    intro x y
    rw [List.map_map, contribution, ← List.sum_map_mul_left]
    rfl
  have hflat : ∀ {α : Type} (k : List α) (f : α → List T),
      (k.flatMap f).sum = (k.map fun x => (f x).sum).sum := by
    intro α k f
    rw [List.flatMap_def, List.sum_flatten, List.map_map]
    rfl
  simp only [eval, product, List.map_flatMap, hflat, hpair]

theorem contribution_comm (φ : Tuple → T) (x y : Tuple × T) :
    contribution φ x y = contribution φ y x := by
  rw [contribution, contribution, branches_comm, splits_comm, mul_comm x.2]

theorem contribution_zero_left (φ : Tuple → T) (t : Tuple) (y : Tuple × T) :
    contribution φ (t, 0) y = 0 := by
  rw [contribution, zero_mul, zero_mul, zero_mul]

theorem contribution_zero_right (φ : Tuple → T) (x : Tuple × T) (t : Tuple) :
    contribution φ x (t, 0) = 0 := by
  rw [contribution, mul_zero, zero_mul, zero_mul]

theorem eval_product_comm (l m : Combination T) (φ : Tuple → T) :
    (product l m).eval φ = (product m l).eval φ := by
  rw [eval_product, eval_product]
  induction l with
  | nil => simp
  | cons x l ih =>
      simp only [List.map_cons, List.sum_cons, List.sum_map_add, ih]
      congr 2
      exact List.map_congr_left fun y _ => contribution_comm φ x y

theorem eval_product_nonzero (l m : Combination T) (φ : Tuple → T) :
    (product l.nonzero m.nonzero).eval φ = (product l m).eval φ := by
  have hright : ∀ x : Tuple × T,
      (m.nonzero.map (contribution φ x)).sum = (m.map (contribution φ x)).sum :=
    fun x => sum_map_nonzero _ (contribution_zero_right φ x) m
  rw [eval_product, eval_product]
  simp only [hright]
  refine sum_map_nonzero (fun x => (m.map (contribution φ x)).sum) (fun t => ?_) l
  refine List.sum_eq_zero fun z hz => ?_
  obtain ⟨y, _, rfl⟩ := List.mem_map.mp hz
  exact contribution_zero_left φ t y

/-- **At a point the product is the product of the values.** -/
theorem eval_product_tensorChebyshev (hhalf : (Scalar.half : T) + Scalar.half = 1) {x : List T}
    (hl : ∀ c ∈ l, c.1.length = x.length) (hm : ∀ c ∈ m, c.1.length = x.length) :
    (product l m).eval (tensorChebyshev · x)
      = l.eval (tensorChebyshev · x) * m.eval (tensorChebyshev · x) := by
  rw [eval_product, eval, ← List.sum_map_mul_right]
  congr 1
  refine List.map_congr_left fun c hc => ?_
  rw [eval, ← List.sum_map_mul_left]
  congr 1
  refine List.map_congr_left fun d hd => ?_
  rw [contribution, mul_assoc, ← tensorChebyshev_mul hhalf (hl c hc) (hm d hd)]
  ring

/-- With a constant factor the product is a multiple of the other factor. -/
theorem eval_product_constant {n : Nat} (φ : Tuple → T) (hl : ∀ c ∈ l, c.1.length = n)
    (hm : ∀ c ∈ m.nonzero, c.1 = List.replicate n 0) :
    (product l m).eval φ = l.eval φ * (m.map Prod.snd).sum := by
  have hterm : ∀ x ∈ l, (m.map (contribution φ x)).sum = x.2 * φ x.1 * (m.map Prod.snd).sum := by
    intro x hx
    rw [← sum_map_nonzero _ (contribution_zero_right φ x) m,
      ← sum_map_nonzero Prod.snd (fun _ => rfl) m, ← List.sum_map_mul_left]
    congr 1
    refine List.map_congr_left fun y hy => ?_
    rw [contribution, hm y hy, ← hl x hx, branches_replicate_zero, splits_replicate_zero,
      halvedWeight, List.map_singleton, List.sum_singleton]
    ring
  rw [eval_product, List.map_congr_left hterm, eval, List.sum_map_mul_right]

end Product

end Combination

end TensorChebyshev
