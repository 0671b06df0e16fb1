import Mathlib
import TensorChebyshev.Expansion.Text
import TensorChebyshev.Proofs.Expansion.Evaluate

/-!
# Reading the text of an expansion

The text joins terms by plus signs, and a term joins a coefficient and its factors
by times signs. Where the texts of nonzero coefficients have neither sign and differ
from each other and from `0`, the terms are found again in the text, and in a term
the coefficient and the exponents that are not zero, each with its variable. So the
text determines all coefficients but for which of the zeros stands for zero.
-/

namespace TensorChebyshev

/-! ## Cutting a text -/

/-- What stands before the first separator. -/
theorem takeWhile_append_of_not_mem {c : Char} {l r : List Char} (hl : c ∉ l)
    (hr : ∀ x ∈ r.head?, x = c) : (l ++ r).takeWhile (· != c) = l := by
  have hkeep : ∀ x ∈ l, (x != c) = true := by
    intro x hx
    simpa using ne_of_mem_of_not_mem hx hl
  rw [List.takeWhile_append_of_pos hkeep]
  cases r with
  | nil => simp
  | cons x r => simp [hr x rfl]

/-- Two texts that are equal can be cut at the first separator. -/
theorem append_inj_of_not_mem {c : Char} {l l' r r' : List Char} (hl : c ∉ l) (hl' : c ∉ l')
    (hr : ∀ x ∈ r.head?, x = c) (hr' : ∀ x ∈ r'.head?, x = c) (h : l ++ r = l' ++ r') :
    l = l' ∧ r = r' := by
  have hfirst : l = l' := by
    rw [← takeWhile_append_of_not_mem hl hr, h, takeWhile_append_of_not_mem hl' hr']
  subst hfirst
  exact ⟨rfl, List.append_cancel_left h⟩

theorem append_cons_inj {c : Char} {l l' r r' : List Char} (hl : c ∉ l) (hl' : c ∉ l')
    (h : l ++ c :: r = l' ++ c :: r') : l = l' ∧ r = r' := by
  obtain ⟨hfirst, hrest⟩ := append_inj_of_not_mem hl hl' (by simp) (by simp) h
  exact ⟨hfirst, List.tail_eq_of_cons_eq hrest⟩

/-- A numeral has nothing but digits. -/
theorem not_mem_repr {c : Char} (hc : c.isDigit = false) (n : Nat) : c ∉ n.repr.toList := by
  intro hmem
  rw [Nat.toList_repr] at hmem
  have hdigit := Nat.isDigit_of_mem_toDigits (by decide) (by decide) hmem
  rw [hc] at hdigit
  cases hdigit

/-- Texts with plus signs between them. -/
def joined (l : List (List Char)) : List Char := [' ', '+', ' '].intercalate l

theorem joined_singleton (k : List Char) : joined [k] = k := List.intercalate_singleton

theorem joined_cons_cons (k m : List Char) (l : List (List Char)) :
    joined (k :: m :: l) = (k ++ [' ']) ++ '+' :: ' ' :: joined (m :: l) := by
  simp [joined, List.intercalate_cons_cons]

theorem plus_mem_joined (k m : List Char) (l : List (List Char)) :
    '+' ∈ joined (k :: m :: l) := by
  simp [joined_cons_cons]

/-- **Sums are read back**: texts without a plus sign are found again in their sum. -/
theorem joined_inj {l l' : List (List Char)} (hne : l ≠ []) (hne' : l' ≠ [])
    (hl : ∀ k ∈ l, '+' ∉ k) (hl' : ∀ k ∈ l', '+' ∉ k) (h : joined l = joined l') : l = l' := by
  induction l generalizing l' with
  | nil => exact absurd rfl hne
  | cons k l ih =>
      obtain ⟨k', l', rfl⟩ := List.exists_cons_of_ne_nil hne'
      obtain ⟨hk, hl⟩ := List.forall_mem_cons.mp hl
      obtain ⟨hk', hl'⟩ := List.forall_mem_cons.mp hl'
      rcases l with - | ⟨m, l⟩ <;> rcases l' with - | ⟨m', l'⟩
      · rw [joined_singleton, joined_singleton] at h
        rw [h]
      -- a single text has no plus sign, a sum has one
      · rw [joined_singleton] at h
        exact absurd (h ▸ plus_mem_joined k' m' l') hk
      · rw [joined_singleton] at h
        exact absurd (h ▸ plus_mem_joined k m l) hk'
      · rw [joined_cons_cons, joined_cons_cons] at h
        have hspace : '+' ∉ k ++ [' '] := by simpa using hk
        have hspace' : '+' ∉ k' ++ [' '] := by simpa using hk'
        obtain ⟨hfirst, hrest⟩ := append_cons_inj hspace hspace' h
        rw [List.append_cancel_right hfirst,
          ih (by simp) (by simp) hl hl' (List.tail_eq_of_cons_eq hrest)]

/-! ## Coefficients -/

/-- What texts of coefficients have to keep for the text of an expansion to be read. -/
structure ScalarText.Readable (T : Type) [Arithmetic T] [ScalarText T] : Prop where
  inj : ∀ {x y : T}, isZero x = false → isZero y = false → text x = text y → x = y
  ne_zero : ∀ {x : T}, isZero x = false → text x ≠ "0"
  no_times : ∀ {x : T}, isZero x = false → '*' ∉ (text x).toList
  no_plus : ∀ {x : T}, isZero x = false → '+' ∉ (text x).toList

section Equal

variable {T : Type} [Arithmetic T]

/-- Both are zero for the zero test, or they are the same. -/
def EqualUpToZero (x y : T) : Prop := (isZero x = true ∧ isZero y = true) ∨ x = y

theorem EqualUpToZero.isZero_eq {x y : T} (h : EqualUpToZero x y) : isZero x = isZero y := by
  rcases h with ⟨hx, hy⟩ | rfl
  · rw [hx, hy]
  · rfl

/-- Coefficients that are equal up to zero are left out at the same tuples. -/
theorem EqualUpToZero.filter_zip {l l' : List T} (hl : List.Forall₂ EqualUpToZero l l')
    (ts : List Tuple) :
    (l.zip ts).filter (fun c => !isZero c.1)
      = (l'.zip ts).filter fun c => !isZero c.1 := by
  induction hl generalizing ts with
  | nil => rfl
  | cons hxy hl ih =>
      cases ts with
      | nil => rfl
      | cons t ts =>
          rw [List.zip_cons_cons, List.zip_cons_cons, List.filter_cons, List.filter_cons, ih]
          rcases hxy with ⟨hx, hy⟩ | rfl
          · simp [hx, hy]
          · rfl

theorem EqualUpToZero.all_isZero {l l' : List T} (hl : List.Forall₂ EqualUpToZero l l') :
    l.all isZero = l'.all isZero := by
  induction hl with
  | nil => rfl
  | cons hxy hl ih => rw [List.all_cons, List.all_cons, hxy.isZero_eq, ih]

end Equal

namespace Expansion

/-! ## Factors -/

/-- The factor of the variable `v` with the exponent `e`. -/
def factor (e v : Nat) : String := s!"*T{e}(x{v})"

theorem toList_factor (e v : Nat) :
    (factor e v).toList
      = '*' :: 'T' :: (e.repr.toList ++ '(' :: 'x' :: (v.repr.toList ++ [')'])) := by
  simp [factor, toString]

theorem factors_cons_zero (v : Nat) (t : Tuple) : factors v (0 :: t) = factors (v + 1) t := rfl

theorem factors_cons_of_ne {e : Nat} (he : e ≠ 0) (v : Nat) (t : Tuple) :
    factors v (e :: t) = factor e v ++ factors (v + 1) t := if_neg he

/-- A factor ends with its bracket, so it is found again before any other text. -/
theorem factor_append_inj {e v e' v' : Nat} {r r' : List Char}
    (h : (factor e v).toList ++ r = (factor e' v').toList ++ r') :
    e = e' ∧ v = v' ∧ r = r' := by
  have hopen := not_mem_repr (show '('.isDigit = false by decide)
  have hclose := not_mem_repr (show ')'.isDigit = false by decide)
  rw [toList_factor, toList_factor] at h
  have hexponent : e.repr.toList ++ '(' :: 'x' :: (v.repr.toList ++ ')' :: r)
      = e'.repr.toList ++ '(' :: 'x' :: (v'.repr.toList ++ ')' :: r') := by
    simpa using h
  obtain ⟨he, hvariable⟩ := append_cons_inj (hopen e) (hopen e') hexponent
  obtain ⟨hv, hrest⟩ := append_cons_inj (hclose v) (hclose v') (List.tail_eq_of_cons_eq hvariable)
  exact ⟨Nat.repr_injective (String.toList_inj.mp he), Nat.repr_injective (String.toList_inj.mp hv),
    hrest⟩

/-- The factors from one variable on have none of an earlier variable. -/
theorem factors_ne_factor {v w : Nat} (hlt : v < w) (t : Tuple) (e : Nat) (r : List Char) :
    (factors w t).toList ≠ (factor e v).toList ++ r := by
  induction t generalizing w with
  | nil => simp [factors, toList_factor]
  | cons k t ih =>
      rcases Nat.eq_zero_or_pos k with rfl | hk
      · rw [factors_cons_zero]
        exact ih (Nat.lt_succ_of_lt hlt)
      · rw [factors_cons_of_ne hk.ne', String.toList_append]
        intro h
        exact hlt.ne' (factor_append_inj h).2.1

theorem factors_succ_ne {e : Nat} (he : e ≠ 0) (v : Nat) (t u : Tuple) :
    factors (v + 1) t ≠ factors v (e :: u) := by
  intro h
  have htext := congrArg String.toList h
  rw [factors_cons_of_ne he, String.toList_append] at htext
  exact factors_ne_factor (Nat.lt_succ_self v) t e _ htext

/-- **Factors are read back**: they determine a tuple of known length. -/
theorem factors_inj {v : Nat} {t u : Tuple} (hlen : t.length = u.length)
    (h : factors v t = factors v u) : t = u := by
  induction t generalizing v u with
  | nil => exact (List.length_eq_zero_iff.mp hlen.symm).symm
  | cons e t ih =>
      obtain ⟨k, u, rfl⟩ := List.exists_cons_of_length_eq_add_one hlen.symm
      have hrest : t.length = u.length := Nat.succ.inj hlen
      rcases Nat.eq_zero_or_pos e with rfl | he <;> rcases Nat.eq_zero_or_pos k with rfl | hk
      · rw [ih hrest h]
      -- a factor of the first variable on one side only
      · exact absurd h (factors_succ_ne hk.ne' v t u)
      · exact absurd h.symm (factors_succ_ne he.ne' v u t)
      · rw [factors_cons_of_ne he.ne', factors_cons_of_ne hk.ne'] at h
        have htext := congrArg String.toList h
        rw [String.toList_append, String.toList_append] at htext
        obtain ⟨hexponent, -, htail⟩ := factor_append_inj htext
        rw [hexponent, ih hrest (String.toList_inj.mp htail)]

/-- Factors begin with the times sign, unless there are none. -/
theorem head_factors (v : Nat) (t : Tuple) : ∀ x ∈ (factors v t).toList.head?, x = '*' := by
  induction t generalizing v with
  | nil => simp [factors]
  | cons e t ih =>
      rcases Nat.eq_zero_or_pos e with rfl | he
      · exact ih (v + 1)
      · simp [factors_cons_of_ne he.ne', toList_factor]

theorem plus_not_mem_factors (v : Nat) (t : Tuple) : '+' ∉ (factors v t).toList := by
  have hplus := not_mem_repr (show '+'.isDigit = false by decide)
  induction t generalizing v with
  | nil => simp [factors]
  | cons e t ih =>
      rcases Nat.eq_zero_or_pos e with rfl | he
      · exact ih (v + 1)
      · have hnumerals : '+' ∉ e.repr.toList ∧ '+' ∉ v.repr.toList := ⟨hplus e, hplus v⟩
        simpa [factors_cons_of_ne he.ne', toList_factor, ih] using hnumerals

/-! ## Terms -/

theorem exists_tuple {T : Type} {e : Expansion T} {i : Nat} {x : T} (h : e.coefficient? i = some x) :
    ∃ t, e.shape.tuples[i]? = some t ∧ t.length = e.nvar := by
  obtain ⟨hi, -⟩ := Vector.getElem?_eq_some_iff.mp h
  have hget : e.shape.tuples[i]? = some e.shape.tuples[i] := Array.getElem?_eq_getElem hi
  exact ⟨_, hget, (e.shape.mem_of_getElem? hget).1⟩

variable {T : Type} [Arithmetic T] [ScalarText T] {e : Expansion T}

/-- A coefficient and the factors of its basis function. -/
def term (x : T) (t : Tuple) : String := ScalarText.text x ++ factors 1 t

/-- The terms are those of the nonzero coefficients. -/
theorem mem_terms_iff {u : String} :
    u ∈ e.terms ↔ ∃ (i : Nat) (x : T) (t : Tuple), e.coefficient? i = some x ∧
      e.shape.tuples[i]? = some t ∧ TensorChebyshev.isZero x = false ∧ u = term x t := by
  rw [terms, List.mem_map]
  constructor
  · rintro ⟨⟨x, t⟩, hmem, rfl⟩
    obtain ⟨hzip, hx⟩ := List.mem_filter.mp hmem
    obtain ⟨i, hi⟩ := List.mem_iff_getElem?.mp hzip
    obtain ⟨hcoefficient, htuple⟩ := List.getElem?_zip_eq_some.mp hi
    exact ⟨i, x, t, by simpa [coefficient?] using hcoefficient, by simpa using htuple,
      by simpa using hx, rfl⟩
  · rintro ⟨i, x, t, hcoefficient, htuple, hx, rfl⟩
    refine ⟨(x, t), List.mem_filter.mpr ⟨?_, by simpa using hx⟩, rfl⟩
    refine List.mem_iff_getElem?.mpr ⟨i, List.getElem?_zip_eq_some.mpr ⟨?_, ?_⟩⟩
    · simpa [coefficient?] using hcoefficient
    · simpa using htuple

theorem isZero_iff_terms : e.isZero = true ↔ e.terms = [] := by
  rw [List.eq_nil_iff_forall_not_mem, isZero, Shape.allZero, List.all_eq_true]
  constructor
  · intro hzero u hu
    obtain ⟨i, x, t, hcoefficient, -, hx, -⟩ := mem_terms_iff.mp hu
    rw [hzero x (by simpa using Vector.mem_of_getElem? hcoefficient)] at hx
    cases hx
  · intro hnone x hx
    obtain ⟨i, hi⟩ := List.mem_iff_getElem?.mp hx
    have hcoefficient : e.coefficient? i = some x := by simpa [coefficient?] using hi
    obtain ⟨t, htuple, -⟩ := exists_tuple hcoefficient
    by_contra hne
    exact hnone _ (mem_terms_iff.mpr
      ⟨i, x, t, hcoefficient, htuple, eq_false_of_ne_true hne, rfl⟩)

/-- The texts between the plus signs: the terms, or the zero alone. -/
def summands (e : Expansion T) : List String := if e.isZero then ["0"] else e.terms

theorem summands_of_isZero (hzero : e.isZero = true) : e.summands = ["0"] := if_pos hzero

theorem summands_of_ne (hne : ¬ e.isZero = true) : e.summands = e.terms := if_neg hne

theorem toList_display (e : Expansion T) :
    e.display.toList = joined (e.summands.map String.toList) := by
  rw [display]
  split
  · rw [summands_of_isZero ‹_›, List.map_singleton, joined_singleton]
  · rw [summands_of_ne ‹_›, String.toList_intercalate]
    rfl

theorem summands_ne_nil (e : Expansion T) : e.summands ≠ [] := by
  by_cases hzero : e.isZero = true
  · simp [summands_of_isZero hzero]
  · rw [summands_of_ne hzero]
    exact fun hnil => hzero (isZero_iff_terms.mpr hnil)

section Readable

variable (h : ScalarText.Readable T)

include h

/-- **Terms are read back**: the text of a coefficient ends where the factors begin. -/
theorem term_inj {x y : T} (hx : TensorChebyshev.isZero x = false)
    (hy : TensorChebyshev.isZero y = false) {t u : Tuple} (hlen : t.length = u.length)
    (hterm : term x t = term y u) : x = y ∧ t = u := by
  have htext := congrArg String.toList hterm
  rw [term, term, String.toList_append, String.toList_append] at htext
  obtain ⟨hcoefficient, hfactors⟩ := append_inj_of_not_mem (h.no_times hx) (h.no_times hy)
    (head_factors 1 t) (head_factors 1 u) htext
  exact ⟨h.inj hx hy (String.toList_inj.mp hcoefficient),
    factors_inj hlen (String.toList_inj.mp hfactors)⟩

theorem term_ne_zero {x : T} (hx : TensorChebyshev.isZero x = false) (t : Tuple) :
    term x t ≠ "0" := by
  intro hterm
  have htext := congrArg String.toList hterm
  rw [term, String.toList_append, ← List.append_nil "0".toList] at htext
  obtain ⟨hcoefficient, -⟩ := append_inj_of_not_mem (h.no_times hx) (by simp)
    (head_factors 1 t) (by simp) htext
  exact h.ne_zero hx (String.toList_inj.mp hcoefficient)

theorem zero_not_mem_terms : "0" ∉ e.terms := by
  intro hmem
  obtain ⟨i, x, t, -, -, hx, hterm⟩ := mem_terms_iff.mp hmem
  exact term_ne_zero h hx t hterm.symm

theorem plus_not_mem_summands : ∀ k ∈ e.summands.map String.toList, '+' ∉ k := by
  intro k hk
  obtain ⟨u, hu, rfl⟩ := List.mem_map.mp hk
  by_cases hzero : e.isZero = true
  · rw [summands_of_isZero hzero, List.mem_singleton] at hu
    simp [hu]
  · rw [summands_of_ne hzero] at hu
    obtain ⟨i, x, t, -, -, hx, rfl⟩ := mem_terms_iff.mp hu
    rw [term, String.toList_append, List.mem_append]
    rintro (hmem | hmem)
    · exact h.no_plus hx hmem
    · exact plus_not_mem_factors 1 t hmem

/-- **The terms are found again in the text.** -/
theorem terms_eq_of_display {a b : Expansion T} (hab : a.display = b.display) :
    a.terms = b.terms := by
  have htext := congrArg String.toList hab
  rw [toList_display, toList_display] at htext
  have hmapped := joined_inj (by simp [summands_ne_nil]) (by simp [summands_ne_nil])
    (plus_not_mem_summands h) (plus_not_mem_summands h) htext
  have hsummands : a.summands = b.summands :=
    List.map_injective_iff.mpr (fun _ _ => String.toList_inj.mp) hmapped
  -- the zero alone is no term
  by_cases ha : a.isZero = true <;> by_cases hb : b.isZero = true
  · rw [isZero_iff_terms.mp ha, isZero_iff_terms.mp hb]
  · rw [summands_of_isZero ha, summands_of_ne hb] at hsummands
    exact absurd (hsummands ▸ List.mem_singleton_self _) (zero_not_mem_terms h)
  · rw [summands_of_ne ha, summands_of_isZero hb] at hsummands
    exact absurd (hsummands ▸ List.mem_singleton_self _) (zero_not_mem_terms h)
  · rwa [summands_of_ne ha, summands_of_ne hb] at hsummands

/-- A nonzero coefficient stands at the same position in every expansion of the shape that has
the same terms. -/
theorem coefficient_of_terms {s : Shape} {v w : s.Coefficients T}
    (hterms : terms ⟨s, v⟩ = terms ⟨s, w⟩) {i : Nat} {x : T} (hi : v[i]? = some x)
    (hx : TensorChebyshev.isZero x = false) : w[i]? = some x := by
  obtain ⟨t, htuple, hlen⟩ := exists_tuple (e := ⟨s, v⟩) hi
  have hmem : term x t ∈ terms ⟨s, v⟩ := mem_terms_iff.mpr ⟨i, x, t, hi, htuple, hx, rfl⟩
  rw [hterms] at hmem
  obtain ⟨j, y, u, hj, htuple', hy, hterm⟩ := mem_terms_iff.mp hmem
  obtain ⟨u', hu', hlen'⟩ := exists_tuple hj
  obtain rfl := Option.some.inj (htuple'.symm.trans hu')
  obtain ⟨rfl, rfl⟩ := term_inj h hx hy (hlen.trans hlen'.symm) hterm
  -- every tuple is listed once
  have hij : i = j := by
    rw [← s.rank?_eq_some_iff] at htuple htuple'
    exact Option.some.inj (htuple.symm.trans htuple')
  rw [hij]
  exact hj

end Readable

theorem display_congr {s : Shape} {v w : s.Coefficients T}
    (hvw : ∀ (i : Nat) (hi : i < s.size), EqualUpToZero v[i] w[i]) :
    display ⟨s, v⟩ = display ⟨s, w⟩ := by
  have hl : List.Forall₂ EqualUpToZero v.toList w.toList := by
    refine List.forall₂_iff_get.mpr ⟨by simp, fun i hi _ => ?_⟩
    have hi : i < s.size := by simpa using hi
    simpa using hvw i hi
  rw [display, display, terms, terms, isZero, isZero, Shape.allZero, Shape.allZero,
    EqualUpToZero.all_isZero hl, EqualUpToZero.filter_zip hl]

/-- **The text determines the expansion.** Two expansions of one shape have the same text
exactly if their coefficients agree up to what the zero test does not tell from zero. -/
theorem display_eq_iff (h : ScalarText.Readable T) {a b : Expansion T}
    (hab : a.shape.Alike b.shape) :
    a.display = b.display ↔ ∀ i < a.size, ∃ x y : T, a.coefficient? i = some x ∧
      b.coefficient? i = some y ∧ EqualUpToZero x y := by
  obtain ⟨s, v⟩ := a
  obtain ⟨s', w⟩ := b
  obtain rfl := hab.eq
  constructor
  · intro hdisplay i hi
    have hterms := terms_eq_of_display h hdisplay
    have hv : v[i]? = some v[i] := Vector.getElem?_eq_getElem hi
    have hw : w[i]? = some w[i] := Vector.getElem?_eq_getElem hi
    refine ⟨v[i], w[i], hv, hw, ?_⟩
    cases hx : TensorChebyshev.isZero v[i] with
    | false => exact .inr (Option.some.inj ((coefficient_of_terms h hterms hv hx).symm.trans hw))
    | true =>
        cases hy : TensorChebyshev.isZero w[i] with
        | true => exact .inl ⟨hx, hy⟩
        | false =>
            have hback := coefficient_of_terms h hterms.symm hw hy
            exact .inr (Option.some.inj (hv.symm.trans hback))
  · intro hcoefficients
    refine display_congr fun i hi => ?_
    obtain ⟨x, y, hx, hy, hxy⟩ := hcoefficients i hi
    obtain rfl := Option.some.inj (hx.symm.trans (Vector.getElem?_eq_getElem hi))
    obtain rfl := Option.some.inj (hy.symm.trans (Vector.getElem?_eq_getElem hi))
    exact hxy

end Expansion

/-! ## Integers -/

section Integers

@[reducible]
def Arithmetic.integers : Arithmetic ℤ where

@[reducible]
def ScalarText.decimal : ScalarText ℤ := ⟨Int.repr⟩

attribute [local instance] Arithmetic.integers ScalarText.decimal

theorem not_mem_repr_int {c : Char} (hc : c.isDigit = false) (hminus : c ≠ '-') (x : ℤ) :
    c ∉ x.repr.toList := by
  cases x with
  | ofNat n => exact not_mem_repr hc n
  | negSucc n =>
      have hdigits := not_mem_repr hc (n + 1)
      simpa [Int.repr, hminus] using hdigits

theorem readable_decimal : ScalarText.Readable ℤ where
  inj := fun _ _ htext => Int.repr_inj.mp htext
  ne_zero := by
    intro x hx htext
    obtain rfl : x = 0 := Int.repr_inj.mp htext
    cases hx
  no_times := fun _ => not_mem_repr_int (by decide) (by decide) _
  no_plus := fun _ => not_mem_repr_int (by decide) (by decide) _

/-- The text of `1 + x + y` is not the text of `1`. -/
theorem Expansion.display_eq_iff_plane :
    (plane ℤ).display ≠ ((plane ℤ).constantLike 1).display := by
  intro htext
  have hsize : 1 < (plane ℤ).size := by
    rw [size, GradedBasis.size_eq]
    decide
  have hshape : (plane ℤ).shape.Alike ((plane ℤ).constantLike 1).shape := ⟨rfl, rfl⟩
  obtain ⟨x, y, hx, hy, hxy⟩ := (display_eq_iff readable_decimal hshape).mp htext 1 hsize
  have hone : x = 1 := by
    rw [coefficient?, plane, Vector.getElem?_replicate] at hx
    exact Option.some.inj (hx.symm.trans (if_pos hsize))
  have hzero : y = 0 := by
    rw [coefficient?, constantLike, constantIn, Shape.constant, Shape.setConstantTerm,
      Vector.getElem?_set_ne _ Nat.zero_ne_one, Shape.zeros, Vector.getElem?_replicate] at hy
    exact Option.some.inj (hy.symm.trans (if_pos hsize))
  rw [hone, hzero] at hxy
  rcases hxy with ⟨hnone, -⟩ | heq
  · cases hnone
  · cases heq

end Integers

end TensorChebyshev
