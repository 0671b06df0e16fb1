import Mathlib.Data.Nat.Choose.Sum
import Mathlib.Tactic.Ring
import TensorChebyshev.Index.GradedBasis

/-!
# Counting exponent tuples

The running products of the library are binomial coefficients, and a count
in machine words is exact: `count?` answers precisely when the binomial
coefficient fits a word, because a product that leaves two words belongs to
a coefficient that leaves one.
-/

namespace TensorChebyshev

/-! ## Exact binomial coefficients -/

theorem binomial_eq_choose (n k : Nat) : binomial n k = n.choose k := by
  induction k with
  | zero => simp [binomial]
  | succ k ih =>
      rw [binomial, ih, ← Nat.choose_succ_right_eq,
        Nat.mul_div_cancel _ (Nat.succ_pos k)]

theorem atMost_eq_choose (n s : Nat) : atMost n s = (n + s).choose n := by
  rw [atMost, binomial_eq_choose]
  rcases Nat.le_total n s with h | h
  · rw [Nat.min_eq_left h]
  · rw [Nat.min_eq_right h, ← Nat.choose_symm_add]

/-- The tuples of one more exponent with sum `s + 1`, by their first exponent:
either it is zero or it can be lowered by one. -/
theorem atMost_succ_succ (n s : Nat) :
    atMost (n + 1) (s + 1) = atMost (n + 1) s + atMost n (s + 1) := by
  simp only [atMost_eq_choose]
  rw [show n + 1 + (s + 1) = (n + s + 1) + 1 by omega, Nat.choose_succ_succ',
    show n + (s + 1) = n + s + 1 by omega, show n + 1 + s = n + s + 1 by omega,
    Nat.add_comm]

theorem atMost_zero_left (s : Nat) : atMost 0 s = 1 := by simp [atMost_eq_choose]

theorem atMost_zero_right (n : Nat) : atMost n 0 = 1 := by simp [atMost_eq_choose]

theorem atMost_pos (n s : Nat) : 0 < atMost n s := by
  rw [atMost_eq_choose]
  exact Nat.choose_pos (Nat.le_add_right n s)

/-- With a variable and a positive degree there are at least as many tuples as
the two numbers together. -/
theorem add_le_atMost {n s : Nat} (hn : 0 < n) (hs : 0 < s) : n + s ≤ atMost n s := by
  obtain ⟨n, rfl⟩ := Nat.exists_eq_succ_of_ne_zero hn.ne'
  induction s, hs using Nat.le_induction with
  | base => simp [atMost_eq_choose]
  | succ s _ ih =>
      have := atMost_pos n (s + 1)
      have := atMost_succ_succ n s
      simp only [Nat.succ_eq_add_one] at ih ⊢
      omega

theorem atMost_le_of_le_left {m n : Nat} (h : m ≤ n) (s : Nat) : atMost m s ≤ atMost n s := by
  rw [atMost_eq_choose, atMost_eq_choose, Nat.choose_symm_add, Nat.choose_symm_add]
  exact Nat.choose_le_choose s (by omega)

theorem atMost_le_of_le_right (n : Nat) {s t : Nat} (h : s ≤ t) : atMost n s ≤ atMost n t := by
  simp only [atMost_eq_choose]
  exact Nat.choose_le_choose n (by omega)

/-! ## The count in machine words -/

/-- What the running product holds after `i` steps. -/
private def partialCount (m i : Nat) : Nat := (m + i).choose i

private theorem partialCount_step (m i : Nat) :
    partialCount m i * (m + (i + 1)) = partialCount m (i + 1) * (i + 1) := by
  rw [partialCount, partialCount, Nat.mul_comm, show m + (i + 1) = m + i + 1 by omega]
  exact Nat.add_one_mul_choose_eq (m + i) i

private theorem partialCount_le {m i j : Nat} (h : i ≤ j) :
    partialCount m i ≤ partialCount m j := by
  rw [partialCount, partialCount, Nat.choose_symm_of_eq_add (Nat.add_comm m i),
    Nat.choose_symm_of_eq_add (Nat.add_comm m j)]
  exact Nat.choose_le_choose m (by omega)

/-- The running product answers with the binomial coefficient as long as every
product on the way fits two words. -/
private theorem runningProduct?_eq_some {m : Nat} :
    ∀ (steps i : Nat),
    (∀ j, i ≤ j → j < i + steps →
      partialCount m (j + 1) * (j + 1) < doubleWordBound) →
    runningProduct? m steps (i + 1) (partialCount m i)
      = some (partialCount m (i + steps)) := by
  intro steps
  -- over the steps that are left, from any place in the product
  induction steps with
  | zero => intro i _; rfl
  | succ steps ih =>
      intro i h
      have hstep := partialCount_step m i
      rw [runningProduct?, hstep, if_pos (h i (Nat.le_refl i) (by omega)),
        Nat.mul_div_cancel _ (Nat.succ_pos i),
        ih (i + 1) fun j hj hj' => h j (by omega) (by omega)]
      congr 2
      omega

/-- Whatever the running product answers is the binomial coefficient. -/
private theorem runningProduct?_some_eq {m : Nat} :
    ∀ (steps i : Nat) {c : Nat},
    runningProduct? m steps (i + 1) (partialCount m i) = some c →
    c = partialCount m (i + steps) := by
  intro steps
  induction steps with
  | zero => intro i c h; exact (Option.some.inj h).symm
  | succ steps ih =>
      intro i c h
      rw [runningProduct?, partialCount_step, Nat.mul_div_cancel _ (Nat.succ_pos i)] at h
      split at h
      · rw [ih (i + 1) h]
        congr 1
        omega
      · cases h

private theorem partialCount_max_min (n s : Nat) :
    partialCount (max n s) (min n s) = atMost n s := by
  rw [partialCount, atMost_eq_choose]
  rcases Nat.le_total n s with h | h
  · rw [Nat.max_eq_right h, Nat.min_eq_left h, Nat.add_comm]
  · rw [Nat.max_eq_left h, Nat.min_eq_right h, Nat.choose_symm_add]

/-- Below the final coefficient no product leaves two words: it is a smaller
coefficient times a number of steps, and both fit a word. -/
private theorem partialCount_fits {n s j : Nat} (h : atMost n s < wordBound)
    (hj : j < min n s) :
    partialCount (max n s) (j + 1) * (j + 1) < doubleWordBound := by
  have hle : partialCount (max n s) (j + 1) ≤ atMost n s := by
    rw [← partialCount_max_min]
    exact partialCount_le hj
  have hj' : j + 1 ≤ atMost n s := by
    have := add_le_atMost (n := n) (s := s) (by omega) (by omega)
    omega
  exact Nat.mul_lt_mul'' (Nat.lt_of_le_of_lt hle h) (Nat.lt_of_le_of_lt hj' h)

/-- Two numbers that fit a word have a sum that does, if their count fits. -/
private theorem add_lt_of_atMost_lt {n s : Nat} (hn : n < wordBound) (hs : s < wordBound)
    (h : atMost n s < wordBound) : n + s < wordBound := by
  -- with no variable or degree zero the sum is one of the two numbers
  rcases Nat.eq_zero_or_pos n with rfl | hn0
  · omega
  rcases Nat.eq_zero_or_pos s with rfl | hs0
  · omega
  exact Nat.lt_of_le_of_lt (add_le_atMost hn0 hs0) h

/-- What the loop holds after its first steps, if it has come that far. -/
private theorem eq_partialCount_of_run {m i acc : Nat} (h : runningProduct? m i 1 1 = some acc) :
    acc = partialCount m i := by
  have hstart : runningProduct? m i 1 1 = runningProduct? m i (0 + 1) (partialCount m 0) := by
    simp [partialCount]
  rw [hstart] at h
  rw [runningProduct?_some_eq _ _ h, Nat.zero_add]

/-- The loop comes to its end, and through every step before it, if the count fits. -/
private theorem run_eq_partialCount {n s i : Nat} (h : atMost n s < wordBound)
    (hi : i ≤ min n s) :
    runningProduct? (max n s) i 1 1 = some (partialCount (max n s) i) := by
  have hstart : runningProduct? (max n s) i 1 1
      = runningProduct? (max n s) i (0 + 1) (partialCount (max n s) 0) := by
    simp [partialCount]
  rw [hstart, runningProduct?_eq_some _ _ ?fits, Nat.zero_add]
  case fits =>
    intro j _ hj
    exact partialCount_fits h (by omega)

/-- **The count is exact**: for numbers that fit a word it answers precisely
when the number of tuples fits a word, and with that number. -/
theorem count?_eq {n s : Nat} (hn : n < wordBound) (hs : s < wordBound) :
    count? n s = if atMost n s < wordBound then some (atMost n s) else none := by
  by_cases h : atMost n s < wordBound
  · rw [count?, if_pos (add_lt_of_atMost_lt hn hs h), run_eq_partialCount h (Nat.le_refl _),
      partialCount_max_min]
    simp [h]
  -- an answer would be the coefficient, and that does not fit
  · rw [if_neg h, count?]
    split
    · cases hp : runningProduct? (max n s) (min n s) 1 1 with
      | none => rfl
      | some c =>
          have hc := eq_partialCount_of_run hp
          rw [partialCount_max_min] at hc
          subst hc
          simpa using h
    · rfl

theorem wordBound_eq : wordBound = 2 ^ 64 := by decide

theorem doubleWordBound_eq : doubleWordBound = 2 ^ 128 := by decide

/-- **The count is exact up to the last number that a word holds.** For any two words it
answers the binomial coefficient when that fits a word, and nothing otherwise. After `i`
steps of the loop the next product is divided without a remainder; as long as the result
fits, all steps are taken and no product leaves two words; and a sum of the two words that
is too large belongs to a coefficient that is. -/
theorem count?_exact (nvar degree : UInt64) :
    (∀ c, count? nvar.toNat degree.toNat = some c ↔
      (nvar.toNat + degree.toNat).choose nvar.toNat < 2 ^ 64 ∧
        c = (nvar.toNat + degree.toNat).choose nvar.toNat) ∧
    (count? nvar.toNat degree.toNat = none ↔
      2 ^ 64 ≤ (nvar.toNat + degree.toNat).choose nvar.toNat) ∧
    (∀ i acc, i < min nvar.toNat degree.toNat →
      runningProduct? (max nvar.toNat degree.toNat) i 1 1 = some acc →
      i + 1 ∣ acc * (max nvar.toNat degree.toNat + (i + 1))) ∧
    ((nvar.toNat + degree.toNat).choose nvar.toNat < 2 ^ 64 →
      ∀ i < min nvar.toNat degree.toNat, ∃ acc,
        runningProduct? (max nvar.toNat degree.toNat) i 1 1 = some acc ∧
        acc * (max nvar.toNat degree.toNat + (i + 1)) < 2 ^ 128) ∧
    (2 ^ 64 ≤ nvar.toNat + degree.toNat →
      2 ^ 64 ≤ (nvar.toNat + degree.toNat).choose nvar.toNat) := by
  have hn : nvar.toNat < wordBound := nvar.toNat_lt
  have hs : degree.toNat < wordBound := degree.toNat_lt
  rw [← atMost_eq_choose, ← wordBound_eq, ← doubleWordBound_eq, count?_eq hn hs]
  refine ⟨?_, ?_, ?_, ?_, ?_⟩
  · intro c
    split <;> simp_all [eq_comm]
  · split <;> simp_all
  · intro i acc _ hrun
    rw [eq_partialCount_of_run hrun, partialCount_step]
    exact Nat.dvd_mul_left _ _
  · intro hfits i hi
    refine ⟨_, run_eq_partialCount hfits (Nat.le_of_lt hi), ?_⟩
    rw [partialCount_step]
    exact partialCount_fits hfits hi
  · intro hlarge
    by_contra hfits
    have := add_lt_of_atMost_lt hn hs (Nat.not_le.mp hfits)
    omega

/-- The largest count in as many variables as degrees that a word holds lies between these
two. -/
theorem count?_exact_thirtyFour :
    count? 34 33 = some 14226520737620288370 ∧ count? 34 34 = none ∧
      ∃ acc, runningProduct? 34 32 1 1 = some acc ∧ acc * (34 + 33) < 2 ^ 128 := by
  have hfits : (34 + 33).choose 34 = 14226520737620288370 := by
    rw [← binomial_eq_choose]
    decide
  have hlarge : 2 ^ 64 ≤ (34 + 34).choose 34 := by
    rw [← binomial_eq_choose]
    decide
  have hlt : (34 + 33).choose 34 < 2 ^ 64 := by
    rw [hfits]
    decide
  exact ⟨((count?_exact 34 33).1 _).mpr ⟨hlt, hfits.symm⟩, (count?_exact 34 34).2.1.mpr hlarge,
    (count?_exact 34 33).2.2.2.1 hlt 32 (by decide)⟩

/-- A number of tuples below half a word is also small enough for the exponents:
with a positive degree there are more tuples than variables. -/
theorem numberable_iff {n s : Nat} (hn : n < wordBound) (hs : s < wordBound) :
    numberable n s = true ↔ atMost n s < halfWordBound := by
  rw [numberable, count?_eq hn hs]
  constructor
  · intro h
    split at h
    · simp only [Option.any_some, Bool.and_eq_true, decide_eq_true_eq] at h
      exact h.1
    · cases h
  · intro h
    have hword : atMost n s < wordBound := Nat.lt_trans h (by decide)
    have hcells : atMost n s * n < wordBound := by
      rcases Nat.eq_zero_or_pos s with rfl | hs0
      · rw [atMost_zero_right, Nat.one_mul]
        exact hn
      rcases Nat.eq_zero_or_pos n with rfl | hn0
      · exact Nat.zero_lt_of_lt hword
      have hle : n ≤ atMost n s :=
        Nat.le_trans (Nat.le_add_right n s) (add_le_atMost hn0 hs0)
      exact Nat.lt_of_lt_of_le
        (Nat.mul_lt_mul'' h (Nat.lt_of_le_of_lt hle h)) (by decide)
    simp [hword, h, hcells]

end TensorChebyshev
