import Mathlib
import TensorChebyshev.Proofs.Index.Tables
import TensorChebyshev.Proofs.Product.Direct
import TensorChebyshev.Proofs.Words.Bounds

/-!
# Rows by masks

A machine lists the branches of a pair by counting. The variables that split are
numbered, a mask has a bit for each of them, and one pass over all variables, with
a cursor on the next one that splits, chooses the sum or the distance by its bit.
All numbers on the way have a width, and a number that is too large for it, like
an index beyond the end, stops the computation. For the tuples of a shape it never
stops, and as the masks run the pass meets the branches in their order.
-/

namespace TensorChebyshev

/-! ## Counting branches -/

/-- What the lowest bit of a mask chooses. -/
def chosen (mask x y : Nat) : Nat := if mask % 2 = 1 then distance x y else x + y

theorem chosen_le (mask x y : Nat) : chosen mask x y ≤ x + y := by
  rw [chosen]
  split
  · exact distance_le x y
  · exact Nat.le_refl _

/-- The branch that a mask selects: a bit for each variable that splits, the first one in
the lowest place. -/
def selected : Tuple → Tuple → (mask : Nat) → Tuple
  | x :: t, y :: u, mask =>
    if x = 0 ∨ y = 0 then (x + y) :: selected t u mask
    else chosen mask x y :: selected t u (mask / 2)
  | _, _, _ => []

theorem range_two_mul (n : Nat) :
    List.range (2 * n) = (List.range n).flatMap fun i => [2 * i, 2 * i + 1] := by
  induction n with
  | zero => rfl
  | succ n ih =>
      rw [show 2 * (n + 1) = 2 * n + 1 + 1 by omega, List.range_succ, List.range_succ, ih,
        List.range_succ, List.flatMap_append, List.append_assoc]
      rfl

/-- **The masks list the branches.** By induction on the variables: the lowest bit belongs to
the first one that splits, and the other bits are the mask for the rest. -/
theorem map_selected {t u : Tuple} (h : t.length = u.length) :
    (List.range (2 ^ splits t u)).map (selected t u) = branches t u := by
  induction t generalizing u with
  | nil => rfl
  | cons x t ih =>
      obtain ⟨y, u, rfl⟩ := List.exists_cons_of_length_eq_add_one h.symm
      have ih := ih (Nat.succ.inj h)
      by_cases hxy : x = 0 ∨ y = 0
      · have hall : selected (x :: t) (y :: u) = ((x + y) :: ·) ∘ selected t u :=
          funext fun mask => if_pos hxy
        rw [splits, if_pos hxy, Nat.zero_add, branches_cons_of_zero hxy, ← ih, hall,
          List.map_map]
      · have hpair : ∀ mask, [2 * mask, 2 * mask + 1].map (selected (x :: t) (y :: u))
            = [(x + y) :: selected t u mask, distance x y :: selected t u mask] := by
          intro mask
          rw [List.map_cons, List.map_singleton, selected, selected, if_neg hxy, if_neg hxy,
            chosen, chosen, if_neg (by omega), if_pos (by omega),
            show (2 * mask + 1) / 2 = mask by omega, Nat.mul_div_cancel_left _ Nat.two_pos]
        rw [splits, if_neg hxy, pow_add, pow_one, range_two_mul, List.map_flatMap, branches,
          if_neg hxy, ← ih, List.flatMap_map]
        exact List.flatMap_congr fun mask _ => hpair mask

/-! ## One pass over the variables -/

def wordBits : Nat := 64

/-- The first number that does not fit a stored number of halvings. -/
def halvingBound : Nat := 256

/-- How far a pass has come: the number of splitting variables behind it, the exponents it
has chosen and their sum. -/
structure Cursor where
  bit : Nat
  total : Nat
  tuple : Tuple

namespace Cursor

def push? (c : Cursor) (bit e : Nat) : Option Cursor := do
  let total ← fit? wordBound (c.total + e)
  return ⟨bit, total, c.tuple ++ [e]⟩

/-- The exponent that a bit of the mask chooses. -/
def choose? (mask shift x y : Nat) : Option Nat :=
  if (mask >>> shift) % 2 = 1 then some (distance x y) else fit? exponentBound (x + y)

/-- Passes the variable `v`. -/
def step? (a b : Tuple) (split : List Nat) (mask : Nat) (c : Cursor) (v : Nat) :
    Option Cursor := do
  let x ← a[v]?
  let y ← b[v]?
  if split[c.bit]? = some v then
    let shift ← fit? wordBits c.bit
    let e ← choose? mask shift x y
    c.push? (c.bit + 1) e
  else
    let e ← fit? exponentBound (x + y)
    c.push? c.bit e

theorem push?_eq {c : Cursor} {e : Nat} (bit : Nat) (h : c.total + e < exponentBound) :
    c.push? bit e = some ⟨bit, c.total + e, c.tuple ++ [e]⟩ := by
  rw [push?, fit?_of_lt (h.trans (by decide))]
  rfl

section Step

variable {a b : Tuple} {split : List Nat} {mask v x y : Nat} {c : Cursor}

theorem step?_of_not_split (ha : a[v]? = some x) (hb : b[v]? = some y)
    (hv : split[c.bit]? ≠ some v) (hfits : c.total + (x + y) < exponentBound) :
    step? a b split mask c v = some ⟨c.bit, c.total + (x + y), c.tuple ++ [x + y]⟩ := by
  rw [step?, ha, hb]
  simp only [Option.bind_eq_bind, Option.bind_some, if_neg hv]
  rw [fit?_of_lt (by omega), Option.bind_some, push?_eq _ hfits]

theorem step?_of_split (hlen : split.length < wordBits) (ha : a[v]? = some x)
    (hb : b[v]? = some y) (hv : split[c.bit]? = some v)
    (hfits : c.total + (x + y) < exponentBound) :
    step? a b split mask c v
      = some ⟨c.bit + 1, c.total + chosen (mask / 2 ^ c.bit) x y,
          c.tuple ++ [chosen (mask / 2 ^ c.bit) x y]⟩ := by
  have hbit : c.bit < split.length := (List.getElem?_eq_some_iff.mp hv).1
  have hle := chosen_le (mask / 2 ^ c.bit) x y
  have hchoice : choose? mask c.bit x y = some (chosen (mask / 2 ^ c.bit) x y) := by
    rw [choose?, chosen, Nat.shiftRight_eq_div_pow, fit?_of_lt (by omega)]
    split <;> rfl
  rw [step?, ha, hb]
  simp only [Option.bind_eq_bind, Option.bind_some, if_pos hv]
  rw [fit?_of_lt (hbit.trans hlen), Option.bind_some, hchoice, Option.bind_some,
    push?_eq _ (by omega)]

end Step

private theorem of_drop_eq_cons {l r : List Nat} {i x : Nat} (h : l.drop i = x :: r) :
    l[i]? = some x ∧ l.drop (i + 1) = r := by
  constructor
  · rw [← Nat.add_zero i, ← List.getElem?_drop, h, List.getElem?_cons_zero]
  · rw [← List.tail_drop, h, List.tail_cons]

/-- The cursor does not stand on a variable when all that are left are beyond it. -/
private theorem getElem?_ne_of_drop {l r : List Nat} {i v : Nat}
    (h : l.drop i = r.map (· + (v + 1))) : l[i]? ≠ some v := by
  intro hv
  rw [← Nat.add_zero i, ← List.getElem?_drop, h, List.getElem?_map] at hv
  obtain ⟨w, -, hw⟩ := Option.map_eq_some_iff.mp hv
  omega

/-- **A pass selects the branch of its mask.** By induction on the variables that are left:
the cursor stands on the first of them that splits. -/
theorem foldlM_step? {a b : Tuple} {split : List Nat} {mask : Nat}
    (hlen : split.length < wordBits) {t u : Tuple} (htu : t.length = u.length) {v : Nat}
    {c : Cursor} (ha : a.drop v = t) (hb : b.drop v = u)
    (hc : split.drop c.bit = (splitVariables t.length t u).map (· + v))
    (hfits : c.total + (totalDegree t + totalDegree u) < exponentBound) :
    (List.range' v t.length).foldlM (step? a b split mask) c
      = some ⟨c.bit + splits t u, c.total + totalDegree (selected t u (mask / 2 ^ c.bit)),
          c.tuple ++ selected t u (mask / 2 ^ c.bit)⟩ := by
  induction t generalizing u v c with
  | nil => simp [splits, selected, totalDegree]
  | cons x t ih =>
      obtain ⟨y, u, rfl⟩ := List.exists_cons_of_length_eq_add_one htu.symm
      obtain ⟨hx, ha⟩ := of_drop_eq_cons ha
      obtain ⟨hy, hb⟩ := of_drop_eq_cons hb
      have htu := Nat.succ.inj htu
      have hshift : (· + v) ∘ (· + 1) = (· + (v + 1)) := funext fun w => by
        rw [Function.comp_apply, Nat.add_assoc, Nat.add_comm 1]
      rw [totalDegree, totalDegree] at hfits
      rw [List.length_cons, splitVariables_cons, List.map_append, List.map_map, hshift] at hc
      rw [List.length_cons, List.range'_succ, List.foldlM_cons]
      by_cases hxy : x = 0 ∨ y = 0
      · rw [if_pos hxy, List.map_nil, List.nil_append] at hc
        have hv := getElem?_ne_of_drop hc
        have hrest := ih (c := ⟨c.bit, c.total + (x + y), c.tuple ++ [x + y]⟩) htu ha hb
          hc (by dsimp only; omega)
        rw [step?_of_not_split hx hy hv (by omega), Option.bind_eq_bind, Option.bind_some, hrest]
        simp only [splits, selected, if_pos hxy, totalDegree, Nat.zero_add, Nat.add_assoc,
          List.append_assoc, List.singleton_append]
      · rw [if_neg hxy, List.map_singleton, List.singleton_append, Nat.zero_add] at hc
        obtain ⟨hv, hc⟩ := of_drop_eq_cons hc
        have hle := chosen_le (mask / 2 ^ c.bit) x y
        have hrest := ih (c := ⟨c.bit + 1, c.total + chosen (mask / 2 ^ c.bit) x y,
          c.tuple ++ [chosen (mask / 2 ^ c.bit) x y]⟩) htu ha hb hc
          (by dsimp only; omega)
        rw [step?_of_split hlen hx hy hv (by omega), Option.bind_eq_bind, Option.bind_some,
          hrest]
        simp only [splits, selected, if_neg hxy, totalDegree, Nat.add_assoc, pow_succ,
          Nat.div_div_eq_div_mul, List.append_assoc, List.singleton_append]

end Cursor

/-! ## The row of a pair -/

namespace Shape

variable (s : Shape)

/-- The position of the branch that a mask selects, where it is within the degree, behind the
positions found so far. -/
def addTerm? (a b : Tuple) (split terms : List Nat) (mask : Nat) : Option (List Nat) := do
  let c ← (List.range s.nvar).foldlM (Cursor.step? a b split mask) ⟨0, 0, []⟩
  match if c.total ≤ s.degree then s.rank? c.tuple else none with
  | some k => (fit? halfWordBound k).map fun k => terms ++ [k]
  | none => some terms

/-- The row of two tuples. -/
def row? (a b : Tuple) : Option ProductRow := do
  let split := splitVariables s.nvar a b
  let shift ← fit? wordBits split.length
  let terms ← (List.range (1 <<< shift)).foldlM (s.addTerm? a b split) []
  let halvings ← fit? halvingBound split.length
  return ⟨terms, halvings⟩

variable {s} {t u : Tuple}

theorem length_splitVariables (ht : t ∈ graded s.nvar s.degree)
    (hu : u ∈ graded s.nvar s.degree) :
    (splitVariables s.nvar t u).length = splits t u ∧ splits t u < 18 :=
  ⟨(splits_eq_length (s.length_of_mem ht) (s.length_of_mem hu)).symm, s.splits_lt ht u⟩

/-- A pass over all variables of the shape. -/
theorem foldlM_range_step? (ht : t ∈ graded s.nvar s.degree) (hu : u ∈ graded s.nvar s.degree)
    (mask : Nat) :
    (List.range s.nvar).foldlM (Cursor.step? t u (splitVariables s.nvar t u) mask) ⟨0, 0, []⟩
      = some ⟨splits t u, totalDegree (selected t u mask), selected t u mask⟩ := by
  obtain ⟨hlen, hlt⟩ := length_splitVariables ht hu
  have htlen := s.length_of_mem ht
  have hbits : (splitVariables s.nvar t u).length < wordBits := hlen ▸ hlt.trans (by decide)
  have hfirst : (splitVariables s.nvar t u).drop 0
      = (splitVariables t.length t u).map (· + 0) := by
    simp [htlen]
  have hfits : 0 + (totalDegree t + totalDegree u) < exponentBound := by
    have := s.totalDegree_le_hundred ht
    have := s.totalDegree_le_hundred hu
    have : 200 < exponentBound := by decide
    omega
  have hpass : (List.range' 0 t.length).foldlM
      (Cursor.step? t u (splitVariables s.nvar t u) mask) ⟨0, 0, []⟩ = _ :=
    Cursor.foldlM_step? hbits (htlen.trans (s.length_of_mem hu).symm) rfl rfl hfirst hfits
  rw [htlen, ← List.range_eq_range', pow_zero, Nat.div_one] at hpass
  simpa only [Nat.zero_add, List.nil_append] using hpass

/-- A tuple beyond the degree has no position anyway. -/
theorem rank?_of_cut (s : Shape) (w : Tuple) :
    (if totalDegree w ≤ s.degree then s.rank? w else none) = s.rank? w := by
  split
  · rfl
  · rename_i hdeg
    exact (if_neg fun h => hdeg h.2).symm

theorem addTerm?_eq (ht : t ∈ graded s.nvar s.degree) (hu : u ∈ graded s.nvar s.degree)
    (terms : List Nat) (mask : Nat) :
    s.addTerm? t u (splitVariables s.nvar t u) terms mask
      = some (terms ++ (s.rank? (selected t u mask)).toList) := by
  rw [addTerm?, foldlM_range_step? ht hu, Option.bind_eq_bind, Option.bind_some, rank?_of_cut]
  cases hrank : s.rank? (selected t u mask) with
  | none => simp
  | some k => simp [fit?_of_lt ((lt_size_of_rank? hrank).trans s.size_lt_halfWordBound)]

theorem foldlM_addTerm? (ht : t ∈ graded s.nvar s.degree) (hu : u ∈ graded s.nvar s.degree)
    (masks terms : List Nat) :
    masks.foldlM (s.addTerm? t u (splitVariables s.nvar t u)) terms
      = some (terms ++ (masks.map (selected t u)).filterMap s.rank?) := by
  rw [foldlM_append fun mask _ out => addTerm?_eq ht hu out mask, List.filterMap_map,
    List.filterMap_eq_flatMap_toList]
  rfl

/-- **The machine finds the row of every pair.** -/
theorem row?_eq (ht : t ∈ graded s.nvar s.degree) (hu : u ∈ graded s.nvar s.degree) :
    s.row? t u = some (ProductRow.ofTuples s.nvar s.degree t u) := by
  obtain ⟨hlen, hlt⟩ := length_splitVariables ht hu
  rw [row?, hlen, fit?_of_lt (hlt.trans (by decide)), fit?_of_lt (hlt.trans (by decide))]
  simp only [Option.bind_eq_bind, Option.bind_some, Nat.one_shiftLeft]
  rw [foldlM_addTerm? ht hu, List.nil_append,
    map_selected ((s.length_of_mem ht).trans (s.length_of_mem hu).symm)]
  rfl

end Shape

end TensorChebyshev
