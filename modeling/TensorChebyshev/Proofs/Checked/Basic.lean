import TensorChebyshev.Workspace

/-!
# Computations that may stop

The library's definitions are total: a coefficient vector has the length of its
shape by its type, and a lookup that depends on data names a value for the case
that nothing is found. A machine has no such values. There an index beyond the end
stops the computation, and so do a pair of positions that are none, a tuple whose
prefix is not listed, and an operator on expansions of different shapes. The
computations here stop in these cases, so that it can be said that none of them
occurs.
-/

namespace TensorChebyshev

/-- Why a computation cannot go on. -/
inductive Fault (R : Type) where
  /-- There is no entry with this index. -/
  | index (i size : Nat)
  /-- A product was asked for at positions that are not both in the shape. -/
  | pair (cause : PositionFault)
  /-- A tuple without its last exponent is not among those of one variable less. -/
  | noPrefix (t : Tuple)
  /-- The operands of an operator do not go together. -/
  | operands (cause : Error R)

/-- How a computation ends without a value: with a failure that the workspace
reports as well, or with a fault. -/
inductive Stop (R : Type) where
  | failed (cause : Failure R)
  | faulted (fault : Fault R)

abbrev Checked (R α : Type) : Type := Except (Stop R) α

namespace Checked

variable {R α β : Type}

def fault (f : Fault R) : Checked R α := .error (.faulted f)

def refuse (cause : Error R) : Checked R α := .error (.failed (.refused cause))

def ofResult (r : Result R α) : Checked R α := r.mapError fun cause => .failed (.refused cause)

/-- An operator stops where the operation that it stands for refuses. -/
def operator (c : Checked R α) : Checked R α :=
  c.mapError fun
    | .failed (.refused cause) => .faulted (.operands cause)
    | stop => stop

/-- The computation does not end with a fault. -/
def Sound (c : Checked R α) : Prop := ∀ f : Fault R, c ≠ fault f

@[simp] theorem ok_bind (a : α) (f : α → Checked R β) : (Except.ok a >>= f) = f a := rfl

@[simp] theorem pure_eq_ok (a : α) : (pure a : Checked R α) = .ok a := rfl

@[simp] theorem ofResult_ok (a : α) : ofResult (.ok a : Result R α) = .ok a := rfl

@[simp] theorem ofResult_error (cause : Error R) :
    ofResult (.error cause : Result R α) = refuse cause := rfl

@[simp] theorem operator_ok (a : α) : operator (.ok a : Checked R α) = .ok a := rfl

theorem sound_ofResult (r : Result R α) : Sound (ofResult r) := by
  intro f h
  cases r <;> cases h

/-! ## Entries -/

def entry (xs : Array α) (i : Nat) : Checked R α :=
  if h : i < xs.size then .ok xs[i] else fault (.index i xs.size)

def replace (xs : Array α) (i : Nat) (x : α) : Checked R (Array α) :=
  if h : i < xs.size then .ok (xs.set i x h) else fault (.index i xs.size)

/-- All entries but the first, which has to be there. -/
def rest (xs : Array α) : Checked R (List α) :=
  if 1 ≤ xs.size then .ok xs.toList.tail else fault (.index 1 xs.size)

section Entries

variable {n : Nat}

theorem entry_of_getElem? {xs : Array α} {i : Nat} {a : α} (h : xs[i]? = some a) :
    (entry xs i : Checked R α) = .ok a := by
  obtain ⟨hi, rfl⟩ := Array.getElem?_eq_some_iff.mp h
  rw [entry, dif_pos hi]

theorem entry_toArray (v : Vector α n) {i : Nat} (h : i < n) :
    (entry v.toArray i : Checked R α) = .ok v[i] :=
  entry_of_getElem? (by simp [h])

theorem replace_toArray (v : Vector α n) {i : Nat} (h : i < n) (x : α) :
    (replace v.toArray i x : Checked R (Array α)) = .ok (v.set i x).toArray := by
  have hi : i < v.toArray.size := by simpa using h
  rw [replace, dif_pos hi]
  rfl

theorem replace_setIfInBounds (v : Vector α n) {i : Nat} (h : i < n) (x : α) :
    (replace v.toArray i x : Checked R (Array α)) = .ok (v.setIfInBounds i x).toArray := by
  have hi : i < v.toArray.size := by simpa using h
  rw [replace, dif_pos hi]
  exact congrArg Except.ok (dif_pos hi).symm

theorem rest_toArray (v : Vector α n) (h : 0 < n) :
    (rest v.toArray : Checked R (List α)) = .ok v.toList.tail := by
  have hn : 1 ≤ v.toArray.size := by rwa [Vector.size_toArray]
  rw [rest, if_pos hn]
  rfl

end Entries

/-! ## Loops -/

/-- A loop none of whose steps stops is the loop of the total steps, `φ` carrying
the state of one to that of the other. -/
theorem foldlM_eq {σ τ : Type} {f' : τ → α → Checked R τ} {f : σ → α → σ} (φ : σ → τ)
    {l : List α} (h : ∀ x ∈ l, ∀ a, f' (φ a) x = .ok (φ (f a x))) (a : σ) :
    l.foldlM f' (φ a) = .ok (φ (l.foldl f a)) := by
  induction l generalizing a with
  | nil => rfl
  | cons x l ih =>
      rw [List.foldlM_cons, h x (List.mem_cons_self ..), ok_bind, List.foldl_cons]
      exact ih (fun y hy => h y (List.mem_cons_of_mem _ hy)) _

/-- A loop that makes, from each element of one list, the element of the other list
in the same place. -/
theorem mapM_of_getElem {f : α → Checked R β} {l : List α} {ys : List β}
    (hlen : l.length = ys.length)
    (h : ∀ (i : Nat) (_ : i < l.length) (_ : i < ys.length), f l[i] = .ok ys[i]) :
    l.mapM f = .ok ys := by
  induction l generalizing ys with
  | nil =>
      rw [List.length_eq_zero_iff.mp hlen.symm]
      rfl
  | cons x l ih =>
      cases ys with
      | nil => cases hlen
      | cons y ys =>
          have hhead := h 0 (Nat.succ_pos _) (Nat.succ_pos _)
          have htail := ih (Nat.succ.inj hlen) fun i hi hi' =>
            h (i + 1) (Nat.succ_lt_succ hi) (Nat.succ_lt_succ hi')
          rw [List.mapM_cons, htail]
          exact congrArg (· >>= _) hhead

/-- A loop over the indices of a vector that finds its entries. -/
theorem mapM_range {n : Nat} {f : Nat → Checked R β} (v : Vector β n)
    (h : ∀ (i : Nat) (hi : i < n), f i = .ok v[i]) : (List.range n).mapM f = .ok v.toList := by
  refine mapM_of_getElem (by simp) fun i hi _ => ?_
  rw [List.length_range] at hi
  rw [List.getElem_range, Vector.getElem_toList]
  exact h i hi

end Checked

end TensorChebyshev
